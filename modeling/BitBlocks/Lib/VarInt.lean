import Mathlib.Data.List.Induction
import Mathlib.Data.Nat.ModEq
import Mathlib.Tactic.NormNum
import Mathlib.Tactic.Ring
import BitBlocks.Lib.Reader

/-!
# Variable-length integers with a bias

Base 128 with the most significant digit first; every byte but the last has its
high bit set. Each time the value is shifted by a digit one is subtracted, so
that a number has one encoding only. The reader adds the one back at each byte
that announces another, in arithmetic modulo `2 ^ w`.
-/

namespace VarInt

open Reader

/-- The byte of a digit: `more` is the high bit, on every byte but the last. -/
def digit (n more : Nat) : UInt8 := UInt8.ofNat (n % 128 + more)

/-- The digits of `n` in front of `out`, at most `fuel` of them. -/
def writeLoop : (fuel n more : Nat) → (out : List UInt8) → List UInt8
  | 0, _, _, out => out
  | fuel + 1, n, more, out =>
    if n ≤ 0x7F then digit n more :: out
    else writeLoop fuel (n / 128 - 1) 128 (digit n more :: out)

/-- A buffer of `⌈w / 7⌉` digits is filled from the last. -/
def write (w n : Nat) : List UInt8 := writeLoop ((w + 6) / 7) n 0 []

/-- Read on, with `n` read so far. -/
def readLoop (w : Nat) : Nat → Reader Nat := fun n s =>
  match s with
  | [] => none
  | ch :: s =>
    let n := (n * 128 + ch.toNat % 128) % 2 ^ w
    if ch.toNat ≥ 128 then readLoop w ((n + 1) % 2 ^ w) s else some (n, s)

def read (w : Nat) : Reader Nat := readLoop w 0

variable {n more w a fuel m : Nat} {as bs s rest : List UInt8} {b : UInt8}

theorem toNat_digit (h : more = 0 ∨ more = 128) : (digit n more).toNat = n % 128 + more := by
  have hlt : n % 128 + more < 256 := by omega
  rw [digit, UInt8.toNat_ofNat', Nat.mod_eq_of_lt (by omega)]

theorem readLoop_last (s : List UInt8) (h : a * 128 + n % 128 < 2 ^ w) :
    readLoop w a (digit n 0 :: s) = some (a * 128 + n % 128, s) := by
  rw [readLoop, toNat_digit (Or.inl rfl)]
  have hmod : (n % 128 + 0) % 128 = n % 128 := by omega
  rw [hmod, Nat.mod_eq_of_lt h, if_neg (by omega)]

theorem readLoop_more (s : List UInt8) (h : a * 128 + n % 128 + 1 < 2 ^ w) :
    readLoop w a (digit n 128 :: s) = readLoop w (a * 128 + n % 128 + 1) s := by
  rw [readLoop, toNat_digit (Or.inr rfl)]
  have hmod : (n % 128 + 128) % 128 = n % 128 := by omega
  rw [hmod, Nat.mod_eq_of_lt (Nat.lt_of_succ_lt h), if_pos (by omega), Nat.mod_eq_of_lt h]

theorem lt_shifted (h : n < 2 ^ (7 * (fuel + 1))) (hn : 0x7F < n) :
    ∃ fuel', fuel = fuel' + 1 ∧ n / 128 - 1 < 2 ^ (7 * (fuel' + 1)) := by
  cases fuel with
  | zero => norm_num at h; omega
  | succ fuel =>
    refine ⟨fuel, rfl, ?_⟩
    have hpow : 2 ^ (7 * (fuel + 1 + 1)) = 2 ^ (7 * (fuel + 1)) * 128 := by
      rw [Nat.mul_succ, Nat.pow_add]
    omega

theorem readLoop_writeLoop_more (s : List UInt8) (hfuel : n < 2 ^ (7 * (fuel + 1)))
    (hw : n + 1 < 2 ^ w) : readLoop w 0 (writeLoop (fuel + 1) n 128 s) = readLoop w (n + 1) s := by
  induction fuel using Nat.strong_induction_on generalizing n s with
  | h fuel ih =>
    rw [writeLoop]
    split
    · have hmod : n % 128 = n := by omega
      rw [readLoop_more s (by omega), hmod, Nat.zero_mul, Nat.zero_add]
    · rename_i hn
      obtain ⟨fuel', rfl, hfuel'⟩ := lt_shifted hfuel (by omega)
      rw [ih fuel' (Nat.lt_succ_self _) _ hfuel' (by omega)]
      have hup : n / 128 - 1 + 1 = n / 128 := by omega
      have hback : n / 128 * 128 + n % 128 = n := by omega
      rw [hup, readLoop_more s (by omega), hback]

theorem readLoop_writeLoop (s : List UInt8) (hfuel : n < 2 ^ (7 * (fuel + 1))) (hw : n < 2 ^ w) :
    readLoop w 0 (writeLoop (fuel + 1) n 0 s) = some (n, s) := by
  rw [writeLoop]
  split
  · have hmod : n % 128 = n := by omega
    rw [readLoop_last s (by omega), hmod, Nat.zero_mul, Nat.zero_add]
  · rename_i hn
    obtain ⟨fuel', rfl, hfuel'⟩ := lt_shifted hfuel (by omega)
    rw [readLoop_writeLoop_more _ hfuel' (by omega)]
    have hup : n / 128 - 1 + 1 = n / 128 := by omega
    have hback : n / 128 * 128 + n % 128 = n := by omega
    rw [hup, readLoop_last s (by omega), hback]

theorem writeLoop_append (fuel n more : Nat) (out s : List UInt8) :
    writeLoop fuel n more (out ++ s) = writeLoop fuel n more out ++ s := by
  induction fuel generalizing n more out with
  | zero => rfl
  | succ fuel ih =>
    rw [writeLoop, writeLoop]
    split
    · rfl
    · rw [← ih, List.cons_append]

/-- **Every number below `2 ^ w` is read back**, and its digits are all that is read. -/
theorem reads_write (hw : 0 < w) (h : n < 2 ^ w) : Reads (read w) (write w n) n := by
  intro rest
  obtain ⟨fuel, hfuel⟩ : ∃ fuel, (w + 6) / 7 = fuel + 1 := ⟨(w + 6) / 7 - 1, by omega⟩
  have hle : 2 ^ w ≤ 2 ^ (7 * (fuel + 1)) := Nat.pow_le_pow_right (by omega) (by omega)
  rw [write, hfuel, ← writeLoop_append, List.nil_append]
  exact readLoop_writeLoop rest (by omega) h

/-- A signed number goes through the same loop, which a negative one leaves at once. -/
def writeSigned (w : Nat) (n : Int) : List UInt8 :=
  if n < 0 then [digit (n % 128).toNat 0] else write w n.toNat

def readSigned (w : Nat) : Reader Int := (fun n : Nat => Int.bmod n (2 ^ w)) <$> read w

theorem reads_writeSigned {n : Int} (hn : 0 ≤ n) (h : n < 2 ^ w) :
    Reads (readSigned (w + 1)) (writeSigned (w + 1) n) n := by
  have hpow : (2 : Int) ^ (w + 1) = 2 * 2 ^ w := by rw [pow_succ, mul_comm]
  have hlt : n.toNat < 2 ^ (w + 1) := by
    have : (n.toNat : Int) < 2 ^ (w + 1) := by omega
    exact_mod_cast this
  have hback : Int.bmod (n.toNat : Int) (2 ^ (w + 1)) = n := by
    rw [Int.toNat_of_nonneg hn]
    exact Int.bmod_eq_of_le (by push_cast; omega) (by push_cast; omega)
  rw [writeSigned, if_neg (by omega)]
  have hread := (reads_write (by omega) hlt).map fun n : Nat => Int.bmod n (2 ^ (w + 1))
  rwa [hback] at hread

/-! ## Sizes -/

/-- How many digits there are, counted without writing them. -/
def sizeLoop : (fuel n : Nat) → Nat
  | 0, _ => 0
  | fuel + 1, n => if n ≤ 0x7F then 1 else sizeLoop fuel (n / 128 - 1) + 1

def size (w n : Nat) : Nat := sizeLoop ((w + 6) / 7) n

def sizeSigned (w : Nat) (n : Int) : Nat := if n < 0 then 1 else size w n.toNat

theorem length_writeLoop (fuel n more : Nat) (out : List UInt8) :
    (writeLoop fuel n more out).length = sizeLoop fuel n + out.length := by
  induction fuel generalizing n more out with
  | zero => simp [writeLoop, sizeLoop]
  | succ fuel ih =>
    rw [writeLoop, sizeLoop]
    split
    · rw [List.length_cons, Nat.add_comm]
    · rw [ih, List.length_cons]
      omega

/-- **The size is that of what is written.** -/
theorem length_write (w n : Nat) : (write w n).length = size w n := by
  rw [write, length_writeLoop, List.length_nil, Nat.add_zero, size]

theorem length_writeSigned (w : Nat) (n : Int) : (writeSigned w n).length = sizeSigned w n := by
  unfold writeSigned sizeSigned
  split
  · rfl
  · exact length_write w n.toNat

theorem sizeLoop_le (fuel n : Nat) : sizeLoop fuel n ≤ fuel := by
  induction fuel generalizing n with
  | zero => exact Nat.le_refl _
  | succ fuel ih =>
    unfold sizeLoop
    split
    · exact Nat.le_add_left _ _
    · exact Nat.succ_le_succ (ih _)

theorem size_le (w n : Nat) : size w n ≤ (w + 6) / 7 := sizeLoop_le _ n

/-- Where a number of 32 bits takes another byte. -/
def steps32 : List Nat := [128, 16512, 2113664, 270549120]

/-- One for each step that is reached. -/
def reached (n step : Nat) : Nat := if n < step then 0 else 1

theorem reached_mono (h : n ≤ m) (step : Nat) : reached n step ≤ reached m step := by
  unfold reached
  split
  · exact Nat.zero_le _
  · rw [if_neg (by omega)]

theorem reached_eq_iff {step : Nat} : reached n step = reached m step ↔ (n < step ↔ m < step) := by
  unfold reached
  by_cases hn : n < step <;> by_cases hm : m < step <;> simp [hn, hm]

theorem size_eq (n : Nat) : size 32 n = 1 + (steps32.map (reached n)).sum := by
  unfold size steps32
  simp only [sizeLoop, reached, List.map_cons, List.map_nil, List.sum_cons, List.sum_nil]
  split_ifs
  all_goals omega

/-- **Two numbers take as many bytes** iff no step lies between them. -/
theorem size_eq_iff : size 32 n = size 32 m ↔ ∀ step ∈ steps32, n < step ↔ m < step := by
  have hmono : ∀ {a b : Nat}, a ≤ b →
      (steps32.map (reached a)).sum = (steps32.map (reached b)).sum →
      ∀ step ∈ steps32, reached a step = reached b step := by
    intro a b hab h
    have hle := reached_mono hab
    simp only [steps32, List.map_cons, List.map_nil, List.sum_cons, List.sum_nil] at h
    simp only [steps32, List.forall_mem_cons, List.not_mem_nil, false_implies, implies_true,
      and_true]
    have h1 := hle 128
    have h2 := hle 16512
    have h3 := hle 2113664
    have h4 := hle 270549120
    exact ⟨by omega, by omega, by omega, by omega⟩
  rw [size_eq, size_eq, Nat.add_left_cancel_iff]
  constructor
  · intro h step hstep
    rcases Nat.le_total n m with hnm | hmn
    · exact reached_eq_iff.mp (hmono hnm h step hstep)
    · exact reached_eq_iff.mp (hmono hmn h.symm step hstep).symm
  · intro h
    exact congrArg List.sum (List.map_congr_left fun step hstep =>
      reached_eq_iff.mpr (h step hstep))

/-! ## What a sequence of digits stands for -/

/-- Every byte but the last has the high bit set. -/
def Digits : List UInt8 → Prop
  | [] => False
  | [a] => a.toNat < 128
  | a :: b :: as => 128 ≤ a.toNat ∧ Digits (b :: as)

/-- The number of a sequence of digits, of any length: all but the last count one more. -/
def value : List UInt8 → Nat
  | [] => 0
  | [a] => a.toNat % 128
  | a :: b :: as => 128 ^ (b :: as).length * (a.toNat % 128 + 1) + value (b :: as)

theorem digits_cons {a : UInt8} (h : as ≠ []) : Digits (a :: as) ↔ 128 ≤ a.toNat ∧ Digits as := by
  cases as with
  | nil => exact absurd rfl h
  | cons b as => exact Iff.rfl

theorem value_cons (a : UInt8) (h : as ≠ []) :
    value (a :: as) = 128 ^ as.length * (a.toNat % 128 + 1) + value as := by
  cases as with
  | nil => exact absurd rfl h
  | cons b as => rfl

theorem Digits.ne_nil (h : Digits bs) : bs ≠ [] := by
  rintro rfl
  exact h

theorem digits_concat (as : List UInt8) (b : UInt8) :
    Digits (as ++ [b]) ↔ (∀ a ∈ as, 128 ≤ a.toNat) ∧ b.toNat < 128 := by
  induction as with
  | nil => exact ⟨fun h => ⟨by simp, h⟩, fun h => h.2⟩
  | cons a as ih =>
    rw [List.cons_append, digits_cons (by simp), ih, List.forall_mem_cons, and_assoc]

theorem value_concat (h : as ≠ []) (b : UInt8) :
    value (as ++ [b]) = 128 * (value as + 1) + b.toNat % 128 := by
  induction as with
  | nil => exact absurd rfl h
  | cons a as ih =>
    rw [List.cons_append, value_cons a (by simp), List.length_append, List.length_singleton,
      Nat.pow_succ]
    by_cases has : as = []
    · subst has
      simp only [List.length_nil, List.nil_append, value]
    · rw [ih has, value_cons a has]
      ring

theorem pow_le_value (a : UInt8) (h : as ≠ []) : 128 ^ as.length ≤ value (a :: as) := by
  rw [value_cons a h]
  calc 128 ^ as.length = 128 ^ as.length * 1 := (Nat.mul_one _).symm
    _ ≤ 128 ^ as.length * (a.toNat % 128 + 1) := Nat.mul_le_mul_left _ (Nat.le_add_left 1 _)
    _ ≤ _ := Nat.le_add_right _ _

theorem length_le_of_value_lt (hw : 0 < w) (h : value bs < 2 ^ w) : bs.length ≤ (w + 6) / 7 := by
  cases bs with
  | nil => exact Nat.zero_le _
  | cons a as =>
    by_cases has : as = []
    · subst has
      rw [List.length_singleton]
      omega
    · have hlt : 2 ^ (7 * as.length) < 2 ^ w := by
        rw [Nat.pow_mul]
        exact lt_of_le_of_lt (pow_le_value a has) h
      have hexp := (Nat.pow_lt_pow_iff_right (by omega)).mp hlt
      rw [List.length_cons]
      omega

/-- **What is written stands for the number written.** -/
theorem value_writeLoop (hmore : more = 0 ∨ more = 128) (h : n < 2 ^ (7 * (fuel + 1))) :
    value (writeLoop (fuel + 1) n more []) = n := by
  induction fuel using Nat.strong_induction_on generalizing n more with
  | h fuel ih =>
    rw [writeLoop]
    split
    · rw [value, toNat_digit hmore]
      omega
    · rename_i hn
      obtain ⟨fuel', rfl, hfuel'⟩ := lt_shifted h (by omega)
      have hne : writeLoop (fuel' + 1) (n / 128 - 1) 128 [] ≠ [] := by
        intro hnil
        have hlen := length_writeLoop (fuel' + 1) (n / 128 - 1) 128 []
        rw [hnil, sizeLoop] at hlen
        split at hlen <;> simp at hlen
      have happ := writeLoop_append (fuel' + 1) (n / 128 - 1) 128 [] [digit n more]
      rw [List.nil_append] at happ
      rw [happ, value_concat hne, ih fuel' (Nat.lt_succ_self _) (Or.inr rfl) hfuel',
        toNat_digit hmore]
      omega

theorem digit_eq (h : n % 128 + more = b.toNat) : digit n more = b := by
  rw [digit, h, UInt8.ofNat_toNat]

/-- **Digits that stand for `n` are those that are written for it**, `more` being the high bit of
the last. -/
theorem eq_writeLoop (has : ∀ a ∈ as, 128 ≤ a.toNat) (hb : b.toNat % 128 + more = b.toNat)
    (hlen : as.length < fuel) : as ++ [b] = writeLoop fuel (value (as ++ [b])) more [] := by
  induction as using List.reverseRecOn generalizing fuel more b with
  | nil =>
    obtain ⟨fuel, rfl⟩ : ∃ k, fuel = k + 1 := ⟨fuel - 1, by simp at hlen; omega⟩
    rw [List.nil_append, value, writeLoop, if_pos (by omega),
      digit_eq (by rwa [Nat.mod_mod])]
  | append_singleton as a ih =>
    rw [List.length_append, List.length_singleton] at hlen
    obtain ⟨fuel, rfl⟩ : ∃ k, fuel = k + 1 := ⟨fuel - 1, by omega⟩
    have hhigh := has a (by simp)
    have hmod : (128 * (value (as ++ [a]) + 1) + b.toNat % 128) % 128 + more = b.toNat := by
      omega
    have hdiv : (128 * (value (as ++ [a]) + 1) + b.toNat % 128) / 128 - 1
        = value (as ++ [a]) := by omega
    rw [value_concat (by simp), writeLoop, if_neg (by omega), digit_eq hmod, hdiv]
    have happ := writeLoop_append fuel (value (as ++ [a])) 128 [] [b]
    rw [List.nil_append] at happ
    rw [happ, ← ih (fun c hc => has c (by simp [hc])) (by have := a.toNat_lt; omega) (by omega)]

/-- **The reader takes digits up to the first without the high bit**, and returns what they stand
for modulo `2 ^ w`. -/
theorem readLoop_eq_some_iff : readLoop w n s = some (m, rest) ↔
      ∃ bs, Digits bs ∧ s = bs ++ rest ∧ m = (n * 128 ^ bs.length + value bs) % 2 ^ w := by
  induction s generalizing n with
  | nil =>
    refine ⟨fun h => (nomatch h), ?_⟩
    rintro ⟨bs, hbs, happ, -⟩
    exact absurd (List.append_eq_nil_iff.mp happ.symm).1 hbs.ne_nil
  | cons ch s ih =>
    rw [readLoop]
    by_cases hch : ch.toNat ≥ 128
    · rw [if_pos hch, ih]
      -- one step, and the same digits behind it
      have hstep : ∀ bs : List UInt8, bs ≠ [] →
          (((n * 128 + ch.toNat % 128) % 2 ^ w + 1) % 2 ^ w * 128 ^ bs.length + value bs) % 2 ^ w
            = (n * 128 ^ (ch :: bs).length + value (ch :: bs)) % 2 ^ w := by
        intro bs hbs
        have hone : ((n * 128 + ch.toNat % 128) % 2 ^ w + 1) % 2 ^ w
            ≡ n * 128 + (ch.toNat % 128 + 1) [MOD 2 ^ w] := by
          refine (Nat.mod_modEq _ _).trans ?_
          exact (Nat.mod_modEq _ _).add_right 1
        have hall := (hone.mul_right (128 ^ bs.length)).add_right (value bs)
        rw [value_cons ch hbs, List.length_cons, Nat.pow_succ]
        refine hall.trans (congrArg (· % 2 ^ w) ?_)
        ring
      constructor
      · rintro ⟨bs, hbs, rfl, rfl⟩
        exact ⟨ch :: bs, (digits_cons hbs.ne_nil).mpr ⟨hch, hbs⟩, rfl, hstep bs hbs.ne_nil⟩
      · rintro ⟨bs, hbs, happ, rfl⟩
        obtain ⟨as, rfl⟩ : ∃ as, bs = ch :: as := by
          cases bs with
          | nil => exact absurd rfl hbs.ne_nil
          | cons c as => exact ⟨as, by rw [List.cons.inj happ |>.1]⟩
        have has : as ≠ [] := by
          rintro rfl
          exact absurd hch (Nat.not_le.mpr hbs)
        exact ⟨as, ((digits_cons has).mp hbs).2, (List.cons.inj happ).2, (hstep as has).symm⟩
    · rw [if_neg hch]
      have hmod : n * 128 + ch.toNat % 128 = n * 128 ^ [ch].length + value [ch] := by
        rw [List.length_singleton, Nat.pow_one, value]
      rw [hmod]
      constructor
      · intro h
        obtain ⟨rfl, rfl⟩ := Prod.mk.inj (Option.some.inj h)
        exact ⟨[ch], by simpa [Digits] using hch, rfl, rfl⟩
      · rintro ⟨bs, hbs, happ, rfl⟩
        obtain ⟨as, rfl⟩ : ∃ as, bs = ch :: as := by
          cases bs with
          | nil => exact absurd rfl hbs.ne_nil
          | cons c as => exact ⟨as, by rw [List.cons.inj happ |>.1]⟩
        obtain rfl : as = [] := by
          by_contra has
          exact hch ((digits_cons has).mp hbs).1
        rw [(List.cons.inj happ).2]
        rfl

theorem read_eq_some_iff :
    (read w).run s = some (m, rest) ↔ ∃ bs, Digits bs ∧ s = bs ++ rest ∧ m = value bs % 2 ^ w := by
  show readLoop w 0 s = some (m, rest) ↔ _
  simp only [readLoop_eq_some_iff, Nat.zero_mul, Nat.zero_add]

/-- **The digits of a number below `2 ^ w` are those that are written**, and no others. -/
theorem eq_write_iff (hw : 0 < w) (hn : n < 2 ^ w) (hbs : Digits bs) :
    bs = write w n ↔ value bs = n := by
  have hfuel : (w + 6) / 7 - 1 + 1 = (w + 6) / 7 := by omega
  constructor
  · rintro rfl
    have hle : 2 ^ w ≤ 2 ^ (7 * ((w + 6) / 7)) := Nat.pow_le_pow_right (by omega) (by omega)
    rw [write, ← hfuel]
    exact value_writeLoop (Or.inl rfl) (by rw [hfuel]; omega)
  · rintro rfl
    obtain ⟨as, b, rfl⟩ : ∃ as b, bs = as ++ [b] :=
      ⟨bs.dropLast, bs.getLast hbs.ne_nil, (List.dropLast_append_getLast hbs.ne_nil).symm⟩
    obtain ⟨has, hb⟩ := (digits_concat as b).mp hbs
    have hlen := length_le_of_value_lt hw hn
    rw [List.length_append, List.length_singleton] at hlen
    exact eq_writeLoop has (by omega) (by omega)

example : write 32 0x7F = [0x7F] := by decide

example : write 32 128 = [0x80, 0x00] := by decide

end VarInt
