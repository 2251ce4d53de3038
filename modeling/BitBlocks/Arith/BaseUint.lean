import Mathlib.Data.List.GetD
import BitBlocks.Lib.Limbs

/-!
# Numbers of many words (`base_uint`)

`base_uint<BITS>` holds its number in `WIDTH` words of 32 bits, the lowest first. Each
operator is a loop over the words, with a carry in 64 bits or with shifts that take a part
of two words. The number of the result is the result for the numbers, modulo what the words
can hold.
-/

namespace BitBlocks

open Limbs
open Nat (ofDigits)

/-- `base_uint`. -/
structure BaseUint (WIDTH : Nat) where
  pn : List UInt32
  length_pn : pn.length = WIDTH
deriving DecidableEq, Repr

def wordsValue (pn : List UInt32) : Nat := ofDigits (2 ^ 32) (pn.map UInt32.toNat)

/-- `n = carry + column`, of which the low half stays and the high half is the next carry. -/
def carryLoop : UInt64 → List UInt64 → List UInt32
  | _, [] => []
  | carry, column :: columns =>
    let n := carry + column
    n.toUInt32 :: carryLoop (n >>> 32) columns

theorem length_carryLoop (carry : UInt64) (columns : List UInt64) :
    (carryLoop carry columns).length = columns.length := by
  induction columns generalizing carry with
  | nil => rfl
  | cons column columns ih =>
    rw [carryLoop, List.length_cons, ih, List.length_cons]

/-- `++pn[i]`, and on to the next word as long as the result is zero. -/
def incrementLoop : List UInt32 → List UInt32
  | [] => []
  | w :: pn => if w + 1 = 0 then (w + 1) :: incrementLoop pn else (w + 1) :: pn

/-- `--pn[i]`, and on to the next word as long as the result is `(uint32_t)-1`. -/
def decrementLoop : List UInt32 → List UInt32
  | [] => []
  | w :: pn => if w - 1 = 0xffffffff then (w - 1) :: decrementLoop pn else (w - 1) :: pn

theorem length_incrementLoop (pn : List UInt32) : (incrementLoop pn).length = pn.length := by
  induction pn with
  | nil => rfl
  | cons w pn ih =>
    rw [incrementLoop]
    split
    · rw [List.length_cons, ih, List.length_cons]
    · rfl

theorem length_decrementLoop (pn : List UInt32) : (decrementLoop pn).length = pn.length := by
  induction pn with
  | nil => rfl
  | cons w pn ih =>
    rw [decrementLoop]
    split
    · rw [List.length_cons, ih, List.length_cons]
    · rfl

/-- Row `j` of a product is added to the words from `pn[j]` on. -/
def mulRow (a b pn : List UInt32) (j : Nat) : List UInt32 := pn.take j ++ carryLoop 0 (List.zipWith
    (fun p y => p.toUInt64 + (a.getD j 0).toUInt64 * y.toUInt64) (pn.drop j) b)

theorem length_mulRow {a b pn : List UInt32} (h : b.length = pn.length) (j : Nat) :
    (mulRow a b pn j).length = pn.length := by
  rw [mulRow, List.length_append, length_carryLoop, List.length_zipWith, List.length_take,
    List.length_drop, h]
  omega

theorem length_mulRows {a b : List UInt32} (l : List Nat) {pn : List UInt32}
    (h : b.length = pn.length) : (l.foldl (mulRow a b) pn).length = pn.length := by
  induction l generalizing pn with
  | nil => rfl
  | cons j l ih =>
    have hrow := @length_mulRow a b pn h j
    rw [List.foldl_cons, ih (by rw [hrow, h]), hrow]

/-- `pn[i] |= w`. -/
def orWord (pn : List UInt32) (i : Nat) (w : UInt32) : List UInt32 := pn.modify i (· ||| w)

/-- A round of `<<=`, for `k` words and `shift` bits. -/
def shlRound (WIDTH k shift : Nat) (a pn : List UInt32) (i : Nat) : List UInt32 :=
  let pn :=
    if i + k + 1 < WIDTH ∧ shift ≠ 0 then
      orWord pn (i + k + 1) (a.getD i 0 >>> UInt32.ofNat (32 - shift))
    else pn
  if i + k < WIDTH then orWord pn (i + k) (a.getD i 0 <<< UInt32.ofNat shift) else pn

/-- A round of `>>=`. -/
def shrRound (k shift : Nat) (a pn : List UInt32) (i : Nat) : List UInt32 :=
  let pn :=
    if k + 1 ≤ i ∧ shift ≠ 0 then
      orWord pn (i - k - 1) (a.getD i 0 <<< UInt32.ofNat (32 - shift))
    else pn
  if k ≤ i then orWord pn (i - k) (a.getD i 0 >>> UInt32.ofNat shift) else pn

theorem length_orWord (pn : List UInt32) (i : Nat) (w : UInt32) :
    (orWord pn i w).length = pn.length := List.length_modify _ _ _

theorem length_shlRound (WIDTH k shift : Nat) (a pn : List UInt32) (i : Nat) :
    (shlRound WIDTH k shift a pn i).length = pn.length := by
  simp only [shlRound]
  split <;> split <;> simp only [length_orWord]

theorem length_shrRound (k shift : Nat) (a pn : List UInt32) (i : Nat) :
    (shrRound k shift a pn i).length = pn.length := by
  simp only [shrRound]
  split <;> split <;> simp only [length_orWord]

theorem length_rounds {round : List UInt32 → Nat → List UInt32}
    (h : ∀ pn i, (round pn i).length = pn.length) (l : List Nat) (pn : List UInt32) :
    (l.foldl round pn).length = pn.length := by
  induction l generalizing pn with
  | nil => rfl
  | cons i l ih => rw [List.foldl_cons, ih, h]

/-- The loop of `CompareTo`, over the words below `i`. -/
def compareLoop (a b : List UInt32) : Nat → Int
  | 0 => 0
  | i + 1 =>
    if a.getD i 0 < b.getD i 0 then -1
    else if a.getD i 0 > b.getD i 0 then 1
    else compareLoop a b i

/-- The inner loop of `bits`, from bit `bits` down; bit 0 is not looked at. -/
def wordBits (w : UInt32) : Nat → Nat
  | 0 => 1
  | bits + 1 => if w &&& (1 <<< UInt32.ofNat (bits + 1)) ≠ 0 then bits + 2 else wordBits w bits

/-- The outer loop of `bits`, over the words below `pos`. -/
def bitsLoop (pn : List UInt32) : Nat → Nat
  | 0 => 0
  | pos + 1 => if pn.getD pos 0 ≠ 0 then 32 * pos + wordBits (pn.getD pos 0) 31 else bitsLoop pn pos

namespace BaseUint

variable {WIDTH : Nat}

def value (a : BaseUint WIDTH) : Nat := wordsValue a.pn

/-- `base_uint()`. -/
def zero : BaseUint WIDTH := ⟨List.replicate WIDTH 0, List.length_replicate⟩

/-- `base_uint(uint64_t)`. -/
def ofUInt64 (b : UInt64) : BaseUint (WIDTH + 2) where
  pn := b.toUInt32 :: (b >>> 32).toUInt32 :: List.replicate WIDTH 0
  length_pn := by rw [List.length_cons, List.length_cons, List.length_replicate]

/-- `operator~`. -/
def complement (a : BaseUint WIDTH) : BaseUint WIDTH where
  pn := a.pn.map (~~~ ·)
  length_pn := by rw [List.length_map, a.length_pn]

/-- `operator++`. -/
def increment (a : BaseUint WIDTH) : BaseUint WIDTH where
  pn := incrementLoop a.pn
  length_pn := by rw [length_incrementLoop, a.length_pn]

/-- `operator--`. -/
def decrement (a : BaseUint WIDTH) : BaseUint WIDTH where
  pn := decrementLoop a.pn
  length_pn := by rw [length_decrementLoop, a.length_pn]

/-- The unary `operator-`. -/
def neg (a : BaseUint WIDTH) : BaseUint WIDTH := a.complement.increment

/-- `operator+=`. -/
def add (a b : BaseUint WIDTH) : BaseUint WIDTH where
  pn := carryLoop 0 (List.zipWith (fun x y => x.toUInt64 + y.toUInt64) a.pn b.pn)
  length_pn := by
    rw [length_carryLoop, List.length_zipWith, a.length_pn, b.length_pn, Nat.min_self]

/-- `operator-=`. -/
def sub (a b : BaseUint WIDTH) : BaseUint WIDTH := a.add b.neg

/-- `operator*=`, for a factor of one word. -/
def mulWord (a : BaseUint WIDTH) (b32 : UInt32) : BaseUint WIDTH where
  pn := carryLoop 0 (a.pn.map fun x => b32.toUInt64 * x.toUInt64)
  length_pn := by rw [length_carryLoop, List.length_map, a.length_pn]

/-- `operator*=`. -/
def mul (a b : BaseUint WIDTH) : BaseUint WIDTH where
  pn := (List.range WIDTH).foldl (mulRow a.pn b.pn) (List.replicate WIDTH 0)
  length_pn := by
    rw [length_mulRows _ (by rw [b.length_pn, List.length_replicate]), List.length_replicate]

/-- `operator<<=`. -/
def shl (a : BaseUint WIDTH) (shift : Nat) : BaseUint WIDTH where
  pn := (List.range WIDTH).foldl (shlRound WIDTH (shift / 32) (shift % 32) a.pn)
    (List.replicate WIDTH 0)
  length_pn := by
    rw [length_rounds (length_shlRound _ _ _ _), List.length_replicate]

/-- `operator>>=`. -/
def shr (a : BaseUint WIDTH) (shift : Nat) : BaseUint WIDTH where
  pn := (List.range WIDTH).foldl (shrRound (shift / 32) (shift % 32) a.pn) (List.replicate WIDTH 0)
  length_pn := by
    rw [length_rounds (length_shrRound _ _ _), List.length_replicate]

/-- `CompareTo`. -/
def compareTo (a b : BaseUint WIDTH) : Int := compareLoop a.pn b.pn WIDTH

/-- `EqualTo`, with a `uint64_t`. -/
def equalTo (a : BaseUint WIDTH) (b : UInt64) : Bool :=
  (a.pn.drop 2).all (· == 0) && a.pn.getD 1 0 == (b >>> 32).toUInt32 && a.pn.getD 0 0 == b.toUInt32

/-- `bits`. -/
def bits (a : BaseUint WIDTH) : Nat := bitsLoop a.pn WIDTH

/-- `pn[shift / 32] |= (1 << (shift & 31))`. -/
def setBit (a : BaseUint WIDTH) (shift : Nat) : BaseUint WIDTH where
  pn := orWord a.pn (shift / 32) (1 <<< UInt32.ofNat (shift % 32))
  length_pn := by rw [length_orWord, a.length_pn]

/-- The loop of `/=`, with `shift` from one less than its first argument down to zero. -/
def divLoop : Nat → (div num quot : BaseUint WIDTH) → BaseUint WIDTH
  | 0, _, _, quot => quot
  | shift + 1, div, num, quot =>
    if num.compareTo div ≥ 0 then divLoop shift (div.shr 1) (num.sub div) (quot.setBit shift)
    else divLoop shift (div.shr 1) num quot

/-- `operator/=`. -/
def div (a b : BaseUint WIDTH) : Except String (BaseUint WIDTH) :=
  let num_bits := a.bits
  let div_bits := b.bits
  if div_bits = 0 then .error "Division by zero"
  else if div_bits > num_bits then .ok zero
  else
    let shift := num_bits - div_bits
    .ok (divLoop (shift + 1) (b.shl shift) a zero)

end BaseUint

/-! ## Carries -/

theorem map_toNat_lt {pn : List UInt32} : ∀ d ∈ pn.map UInt32.toNat, d < 2 ^ 32 := by
  intro d hd
  obtain ⟨w, -, rfl⟩ := List.mem_map.mp hd
  exact w.toNat_lt

theorem wordsValue_lt (pn : List UInt32) : wordsValue pn < 2 ^ (32 * pn.length) := by
  have hlt := ofDigits_lt (@map_toNat_lt pn)
  rwa [List.length_map, ← Nat.pow_mul] at hlt

theorem wordsValue_cons (w : UInt32) (pn : List UInt32) :
    wordsValue (w :: pn) = w.toNat + 2 ^ 32 * wordsValue pn := Nat.ofDigits_cons

@[simp] theorem wordsValue_replicate (n : Nat) : wordsValue (List.replicate n 0) = 0 := by
  rw [wordsValue, List.map_replicate]
  exact Nat.ofDigits_replicate_zero

/--
**The carry loop** is the carry through the columns, as long as a column is at most what a
product of two words, and a word, can make.
-/
theorem map_carryLoop {columns : List UInt64} {carry : UInt64} (hcarry : carry.toNat < 2 ^ 32)
    (h : ∀ column ∈ columns, column.toNat ≤ (2 ^ 32 - 1) * 2 ^ 32) :
    (carryLoop carry columns).map UInt32.toNat =
      ripple (2 ^ 32) carry.toNat (columns.map UInt64.toNat) := by
  induction columns generalizing carry with
  | nil => rfl
  | cons column columns ih =>
    have hcolumn := h column List.mem_cons_self
    have hn : (carry + column).toNat = carry.toNat + column.toNat := by
      rw [UInt64.toNat_add]
      exact Nat.mod_eq_of_lt (by omega)
    have hnext : ((carry + column) >>> 32).toNat = (carry.toNat + column.toNat) / 2 ^ 32 := by
      rw [UInt64.toNat_shiftRight, hn]
      exact Nat.shiftRight_eq_div_pow _ 32
    rw [carryLoop, List.map_cons, List.map_cons, ripple, UInt64.toNat_toUInt32, hn, ← hnext]
    exact congrArg _ (ih (by omega) fun c hc => h c (List.mem_cons_of_mem column hc))

theorem wordsValue_carryLoop {columns : List UInt64}
    (h : ∀ column ∈ columns, column.toNat ≤ (2 ^ 32 - 1) * 2 ^ 32) :
    wordsValue (carryLoop 0 columns) =
      ofDigits (2 ^ 32) (columns.map UInt64.toNat) % 2 ^ (32 * columns.length) := by
  rw [wordsValue, map_carryLoop (by decide) h, ofDigits_ripple, List.length_map, ← Nat.pow_mul]
  exact congrArg (· % _) (Nat.zero_add _)

theorem map_toNat_zipWith {f : UInt32 → UInt32 → UInt64} {g : Nat → Nat → Nat}
    (h : ∀ x y, (f x y).toNat = g x.toNat y.toNat) (xs ys : List UInt32) :
    (List.zipWith f xs ys).map UInt64.toNat =
      List.zipWith g (xs.map UInt32.toNat) (ys.map UInt32.toNat) := by
  rw [List.map_zipWith, List.zipWith_map]
  exact congrArg (fun f => List.zipWith f xs ys) (funext fun x => funext (h x))

theorem toNat_column (p x y : UInt32) :
    (p.toUInt64 + x.toUInt64 * y.toUInt64).toNat = p.toNat + x.toNat * y.toNat ∧
      (p.toUInt64 + x.toUInt64 * y.toUInt64).toNat ≤ (2 ^ 32 - 1) * 2 ^ 32 := by
  have hp : p.toNat ≤ 2 ^ 32 - 1 := by
    have := p.toNat_lt
    omega
  have hx : x.toNat ≤ 2 ^ 32 - 1 := by
    have := x.toNat_lt
    omega
  have hy : y.toNat ≤ 2 ^ 32 - 1 := by
    have := y.toNat_lt
    omega
  have hxy : x.toNat * y.toNat ≤ (2 ^ 32 - 1) * (2 ^ 32 - 1) := Nat.mul_le_mul hx hy
  have hcolumn : (p.toUInt64 + x.toUInt64 * y.toUInt64).toNat = p.toNat + x.toNat * y.toNat := by
    rw [UInt64.toNat_add, UInt64.toNat_mul, UInt32.toNat_toUInt64, UInt32.toNat_toUInt64,
      UInt32.toNat_toUInt64, Nat.mod_eq_of_lt (a := x.toNat * y.toNat) (by omega)]
    exact Nat.mod_eq_of_lt (by omega)
  exact ⟨hcolumn, by omega⟩

theorem toNat_sum (x y : UInt32) : (x.toUInt64 + y.toUInt64).toNat = x.toNat + y.toNat := by
  have hx := x.toNat_lt
  have hy := y.toNat_lt
  rw [UInt64.toNat_add, UInt32.toNat_toUInt64, UInt32.toNat_toUInt64]
  exact Nat.mod_eq_of_lt (by omega)

theorem toUInt64_zero : (0 : UInt32).toUInt64 = 0 := rfl

theorem toNat_product (x y : UInt32) : (x.toUInt64 * y.toUInt64).toNat = x.toNat * y.toNat := by
  have hcolumn := (toNat_column 0 x y).1
  rwa [toUInt64_zero, UInt64.zero_add, UInt32.toNat_zero, Nat.zero_add] at hcolumn

theorem wordsValue_incrementLoop (pn : List UInt32) :
    wordsValue (incrementLoop pn) = (wordsValue pn + 1) % 2 ^ (32 * pn.length) := by
  induction pn with
  | nil => rfl
  | cons w pn ih =>
    have hw := w.toNat_lt
    have hlt := wordsValue_lt pn
    have hpow : 2 ^ (32 * (w :: pn).length) = 2 ^ 32 * 2 ^ (32 * pn.length) := by
      rw [List.length_cons, Nat.mul_add, Nat.mul_one, Nat.pow_add, Nat.mul_comm]
    have hsucc : (w + 1).toNat = (w.toNat + 1) % 2 ^ 32 := UInt32.toNat_add w 1
    rw [incrementLoop, hpow, wordsValue_cons]
    split
    · next hzero =>
        have hfull : w.toNat = 2 ^ 32 - 1 := by
          rw [hzero] at hsucc
          change 0 = _ at hsucc
          omega
        have hsum : w.toNat + 2 ^ 32 * wordsValue pn + 1 = 2 ^ 32 * (wordsValue pn + 1) := by
          omega
        rw [wordsValue_cons, ih, hzero, hsum, Nat.mul_mod_mul_left]
        exact Nat.zero_add _
    · next hne =>
        have hnext : (w + 1).toNat = w.toNat + 1 := by
          have hnonzero : (w + 1).toNat ≠ 0 := fun h => hne (UInt32.toNat_inj.mp h)
          omega
        rw [wordsValue_cons, hnext, Nat.mod_eq_of_lt (by omega)]
        omega

theorem wordsValue_decrementLoop (pn : List UInt32) :
    (wordsValue (decrementLoop pn) + 1) % 2 ^ (32 * pn.length) = wordsValue pn := by
  induction pn with
  | nil => rfl
  | cons w pn ih =>
    have hw := w.toNat_lt
    have hpow : 2 ^ (32 * (w :: pn).length) = 2 ^ 32 * 2 ^ (32 * pn.length) := by
      rw [List.length_cons, Nat.mul_add, Nat.mul_one, Nat.pow_add, Nat.mul_comm]
    have hpred : ((w - 1).toNat + 1) % 2 ^ 32 = w.toNat := by
      have hadd := UInt32.toNat_add (w - 1) 1
      rw [UInt32.sub_add_cancel] at hadd
      exact hadd.symm
    have hlast := (w - 1).toNat_lt
    rw [decrementLoop, hpow, wordsValue_cons w]
    split
    · next hfull =>
        rw [hfull] at hpred
        change 0 = w.toNat at hpred
        rw [wordsValue_cons, hfull]
        have hsum : (0xffffffff : UInt32).toNat + 2 ^ 32 * wordsValue (decrementLoop pn) + 1 =
            2 ^ 32 * (wordsValue (decrementLoop pn) + 1) := by
          change 0xffffffff + _ + 1 = _
          omega
        rw [hsum, Nat.mul_mod_mul_left, ih, ← hpred, Nat.zero_add]
    · next hne =>
        have hsmall : (w - 1).toNat ≠ 2 ^ 32 - 1 := fun h => hne (UInt32.toNat_inj.mp h)
        rw [wordsValue_cons, Nat.mod_eq_of_lt (by omega)]
        omega

theorem wordsValue_complement (pn : List UInt32) :
    wordsValue (pn.map (~~~ ·)) + wordsValue pn + 1 = 2 ^ (32 * pn.length) := by
  induction pn with
  | nil => rfl
  | cons w pn ih =>
    have hw := w.toNat_lt
    have hnot : (~~~w).toNat = 2 ^ 32 - 1 - w.toNat := UInt32.toNat_not w
    rw [List.map_cons, wordsValue_cons, wordsValue_cons, hnot, List.length_cons, Nat.mul_add,
      Nat.mul_one, Nat.pow_add]
    omega

theorem wordsValue_take_succ {pn : List UInt32} {n : Nat} (h : n < pn.length) :
    wordsValue (pn.take (n + 1)) = wordsValue (pn.take n) + 2 ^ (32 * n) * (pn.getD n 0).toNat := by
  have hn : n < (pn.map UInt32.toNat).length := by
    rw [List.length_map]
    exact h
  have htake := @ofDigits_take_succ (2 ^ 32) _ n hn
  rwa [← List.map_take, ← List.map_take, ← Nat.pow_mul, ← UInt32.toNat_zero, List.getD_map] at htake

theorem wordsValue_mulRow {a b pn : List UInt32} (hlength : b.length = pn.length) {j : Nat}
    (hj : j ≤ pn.length) : wordsValue (mulRow a b pn j) =
      (wordsValue pn + 2 ^ (32 * j) * ((a.getD j 0).toNat * wordsValue b)) %
        2 ^ (32 * pn.length) := by
  have hfits : ∀ column ∈ List.zipWith
      (fun p y => p.toUInt64 + (a.getD j 0).toUInt64 * y.toUInt64) (pn.drop j) b,
      column.toNat ≤ (2 ^ 32 - 1) * 2 ^ 32 := by
    intro column hcolumn
    obtain ⟨i, hi, rfl⟩ := List.getElem_of_mem hcolumn
    rw [List.getElem_zipWith]
    exact (toNat_column _ _ _).2
  have hrow := @ofDigits_row (2 ^ 32) (pn.map UInt32.toNat) (b.map UInt32.toNat) map_toNat_lt
    (by rw [List.length_map, List.length_map, hlength]) j
    (by rw [List.length_map]; exact hj) (a.getD j 0).toNat
  rw [List.length_map, ← Nat.pow_mul, ← Nat.pow_mul] at hrow
  rw [wordsValue, mulRow, List.map_append, map_carryLoop (by decide) hfits, UInt64.toNat_zero,
    @map_toNat_zipWith _ (fun p y => p + (a.getD j 0).toNat * y)
      (fun p y => (toNat_column p _ y).1), List.map_take, List.map_drop]
  exact hrow

/-- **The rows** below `n` make the product with the words below `n`. -/
theorem wordsValue_mulRows {a b pn : List UInt32} (hb : b.length = pn.length)
    (hpn : wordsValue pn = 0) {n : Nat} (hn : n ≤ a.length) (ha : a.length = pn.length) :
    wordsValue ((List.range n).foldl (mulRow a b) pn) =
      wordsValue (a.take n) * wordsValue b % 2 ^ (32 * pn.length) := by
  induction n with
  | zero =>
    have hnil : wordsValue [] = 0 := rfl
    rw [List.range_zero, List.foldl_nil, hpn, List.take_zero, hnil, Nat.zero_mul, Nat.zero_mod]
  | succ n ih =>
    have hlength := @length_mulRows a b (List.range n) pn hb
    rw [List.range_succ, List.foldl_append, List.foldl_cons, List.foldl_nil,
      wordsValue_mulRow (by rw [hlength, hb]) (by omega), hlength, ih (by omega),
      Nat.mod_add_mod, wordsValue_take_succ (by omega), Nat.add_mul, Nat.mul_assoc]

/-! ## Sums, differences and products -/

namespace BaseUint

variable {WIDTH : Nat} (a b : BaseUint WIDTH)

theorem value_lt : a.value < 2 ^ (32 * WIDTH) := by
  have hlt := wordsValue_lt a.pn
  rwa [a.length_pn] at hlt

@[simp] theorem value_zero : (zero : BaseUint WIDTH).value = 0 := wordsValue_replicate WIDTH

theorem value_complement : a.complement.value + a.value + 1 = 2 ^ (32 * WIDTH) := by
  have hloop := wordsValue_complement a.pn
  rwa [a.length_pn] at hloop

theorem value_increment : a.increment.value = (a.value + 1) % 2 ^ (32 * WIDTH) := by
  have hloop := wordsValue_incrementLoop a.pn
  rwa [a.length_pn] at hloop

theorem value_decrement : (a.decrement.value + 1) % 2 ^ (32 * WIDTH) = a.value := by
  have hloop := wordsValue_decrementLoop a.pn
  rwa [a.length_pn] at hloop

theorem value_neg : a.neg.value = (2 ^ (32 * WIDTH) - a.value) % 2 ^ (32 * WIDTH) := by
  have hcomplement := a.value_complement
  rw [neg, value_increment]
  congr 1
  omega

theorem value_add : (a.add b).value = (a.value + b.value) % 2 ^ (32 * WIDTH) := by
  have hlength : (a.pn.map UInt32.toNat).length = (b.pn.map UInt32.toNat).length := by
    rw [List.length_map, List.length_map, a.length_pn, b.length_pn]
  have hfits : ∀ column ∈ List.zipWith (fun x y => x.toUInt64 + y.toUInt64) a.pn b.pn,
      column.toNat ≤ (2 ^ 32 - 1) * 2 ^ 32 := by
    intro column hcolumn
    obtain ⟨i, hi, rfl⟩ := List.getElem_of_mem hcolumn
    rw [List.getElem_zipWith, toNat_sum]
    rw [List.length_zipWith] at hi
    have hia : i < a.pn.length := by omega
    have hib : i < b.pn.length := by omega
    have hx := a.pn[i].toNat_lt
    have hy := b.pn[i].toNat_lt
    omega
  rw [value, add, wordsValue_carryLoop hfits, map_toNat_zipWith toNat_sum,
    ← Nat.ofDigits_add_ofDigits_eq_ofDigits_zipWith_of_length_eq hlength, List.length_zipWith,
    a.length_pn, b.length_pn, Nat.min_self]
  rfl

theorem value_sub : (a.sub b).value = (a.value + (2 ^ (32 * WIDTH) - b.value)) %
    2 ^ (32 * WIDTH) := by
  rw [sub, value_add, value_neg, Nat.add_mod_mod]

theorem value_mulWord (b32 : UInt32) :
    (a.mulWord b32).value = a.value * b32.toNat % 2 ^ (32 * WIDTH) := by
  have hfits : ∀ column ∈ a.pn.map fun x => b32.toUInt64 * x.toUInt64,
      column.toNat ≤ (2 ^ 32 - 1) * 2 ^ 32 := by
    intro column hcolumn
    obtain ⟨x, -, rfl⟩ := List.mem_map.mp hcolumn
    have hle := (toNat_column 0 b32 x).2
    rwa [toUInt64_zero, UInt64.zero_add] at hle
  have hcolumns : (a.pn.map fun x => b32.toUInt64 * x.toUInt64).map UInt64.toNat =
      (a.pn.map UInt32.toNat).map fun x => b32.toNat * x := by
    rw [List.map_map, List.map_map]
    exact List.map_congr_left fun x _ => toNat_product b32 x
  rw [value, mulWord, wordsValue_carryLoop hfits, hcolumns, ← Nat.mul_ofDigits, List.length_map,
    a.length_pn, Nat.mul_comm]
  rfl

theorem value_mul : (a.mul b).value = a.value * b.value % 2 ^ (32 * WIDTH) := by
  have hrows := @wordsValue_mulRows a.pn b.pn (List.replicate WIDTH 0)
    (by rw [b.length_pn, List.length_replicate]) (wordsValue_replicate WIDTH) WIDTH
    (by rw [a.length_pn]) (by rw [a.length_pn, List.length_replicate])
  rwa [List.length_replicate, List.take_of_length_le (by rw [a.length_pn])] at hrows

end BaseUint

end BitBlocks
