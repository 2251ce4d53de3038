import Mathlib.Data.Nat.Bitwise
import BitBlocks.Arith.BaseUint

/-!
# Shifts, lengths and long division of `base_uint`

The shifts only set bits of words that were zero, so they are followed bit by bit: bit `j`
of word `m` is bit `32 * m + j` of the number. `CompareTo` and `bits` look for the highest
word that decides. Division takes the shifted divisor off the dividend, from the difference
of the lengths down.
-/

namespace BitBlocks

open Limbs

/-! ## Bits of words -/

/-- Bit `j` of word `m`. -/
def wordBit (pn : List UInt32) (m j : Nat) : Bool := (pn.getD m 0).toNat.testBit j

theorem testBit_wordsValue (pn : List UInt32) (i : Nat) :
    (wordsValue pn).testBit i = wordBit pn (i / 32) (i % 32) := by
  have hbit := testBit_ofDigits (by decide : 0 < 32) (@map_toNat_lt pn) i
  rwa [← UInt32.toNat_zero, List.getD_map] at hbit

variable {m j n : Nat} {w : UInt32}

theorem wordBit_of_length_le {pn : List UInt32} (h : pn.length ≤ m) (j : Nat) :
    wordBit pn m j = false := by
  rw [wordBit, List.getD_eq_getElem?_getD, List.getElem?_eq_none h, Option.getD_none,
    UInt32.toNat_zero, Nat.zero_testBit]

@[simp] theorem wordBit_replicate (n m j : Nat) : wordBit (List.replicate n 0) m j = false := by
  rcases Nat.lt_or_ge m n with h | h
  · have hm : (List.replicate n (0 : UInt32))[m]? = some 0 := by
      rw [List.getElem?_replicate, if_pos h]
    rw [wordBit, List.getD_eq_getElem?_getD, hm, Option.getD_some, UInt32.toNat_zero,
      Nat.zero_testBit]
  · exact wordBit_of_length_le (by rw [List.length_replicate]; exact h) j

theorem wordBit_orWord {pn : List UInt32} {i : Nat} (h : i < pn.length) (w : UInt32) (m j : Nat) :
    wordBit (orWord pn i w) m j = (wordBit pn m j || (decide (i = m) && w.toNat.testBit j)) := by
  simp only [wordBit, orWord, List.getD_eq_getElem?_getD, List.getElem?_modify]
  rcases Decidable.eq_or_ne i m with rfl | hne
  · rw [List.getElem?_eq_getElem h]
    simp
  · cases pn[m]? <;> simp [hne]

theorem length_orWord_if (c : Prop) [Decidable c] (pn : List UInt32) (i : Nat) (w : UInt32) :
    (if c then orWord pn i w else pn).length = pn.length := by
  split
  · exact length_orWord pn i w
  · rfl

theorem wordBit_orWord_if {c : Prop} [Decidable c] {pn : List UInt32} {i : Nat}
    (h : c → i < pn.length) :
    wordBit (if c then orWord pn i w else pn) m j = true ↔
      wordBit pn m j = true ∨ c ∧ i = m ∧ w.toNat.testBit j = true := by
  split
  · next hc =>
      rw [wordBit_orWord (h hc), Bool.or_eq_true, Bool.and_eq_true, decide_eq_true_eq]
      exact or_congr_right ⟨fun h => ⟨hc, h⟩, fun h => h.2⟩
  · next hc => exact ⟨Or.inl, fun h => h.resolve_right fun h => hc h.1⟩

theorem shiftCount (hn : n < 32) : (UInt32.ofNat n).toNat % 32 = n := by
  rw [UInt32.toNat_ofNat']
  omega

theorem testBit_shr_word (w : UInt32) (hn : n < 32) (j : Nat) :
    (w >>> UInt32.ofNat n).toNat.testBit j = w.toNat.testBit (n + j) := by
  rw [UInt32.toNat_shiftRight, shiftCount hn, Nat.testBit_shiftRight]

theorem testBit_shl_word (w : UInt32) (hn : n < 32) (hj : j < 32) :
    (w <<< UInt32.ofNat n).toNat.testBit j = (decide (n ≤ j) && w.toNat.testBit (j - n)) := by
  rw [UInt32.toNat_shiftLeft, shiftCount hn, Nat.testBit_mod_two_pow, Nat.testBit_shiftLeft,
    decide_eq_true hj, Bool.true_and]

theorem lt_of_testBit_word {l : Nat} (h : w.toNat.testBit l = true) : l < 32 := by
  by_contra hl
  have hlt : w.toNat < 2 ^ l :=
    Nat.lt_of_lt_of_le w.toNat_lt (Nat.pow_le_pow_right (by decide) (Nat.not_lt.mp hl))
  rw [Nat.testBit_lt_two_pow hlt] at h
  exact Bool.false_ne_true h

/-! ## Shifts -/

/-- **Rounds that set bits** leave the bits that are set at first or by one of the rounds. -/
theorem wordBit_rounds {round : List UInt32 → Nat → List UInt32} {sets : Nat → Nat → Nat → Prop}
    (hlength : ∀ pn i, (round pn i).length = pn.length) {n : Nat}
    (h : ∀ {pn : List UInt32} {i : Nat}, pn.length = n → i < n → ∀ {m j : Nat}, j < 32 →
      (wordBit (round pn i) m j = true ↔ wordBit pn m j = true ∨ m < n ∧ sets i m j))
    {l : List Nat} (hl : ∀ i ∈ l, i < n) {pn : List UInt32} (hpn : pn.length = n) {m j : Nat}
    (hj : j < 32) : wordBit (l.foldl round pn) m j = true ↔
      wordBit pn m j = true ∨ m < n ∧ ∃ i ∈ l, sets i m j := by
  induction l generalizing pn with
  | nil => simp
  | cons i l ih =>
    rw [List.foldl_cons, ih (fun i' hi' => hl i' (List.mem_cons_of_mem i hi'))
      (by rw [hlength, hpn]), h hpn (hl i List.mem_cons_self) hj, or_assoc, ← and_or_left]
    simp only [List.mem_cons, exists_eq_or_imp]

variable {WIDTH k shift i : Nat} {a pn : List UInt32}

theorem wordBit_shlRound (hshift : shift < 32) (hpn : pn.length = WIDTH) (hj : j < 32) :
    wordBit (shlRound WIDTH k shift a pn i) m j = true ↔ wordBit pn m j = true ∨ m < WIDTH ∧
        ∃ l < 32, 32 * m + j = 32 * i + l + (32 * k + shift) ∧ wordBit a i l = true := by
  simp only [shlRound]
  rw [wordBit_orWord_if (by rw [length_orWord_if, hpn]; exact id),
    wordBit_orWord_if (fun h => by rw [hpn]; exact h.1), testBit_shl_word _ hshift hj, or_assoc,
    Bool.and_eq_true, decide_eq_true_eq]
  refine or_congr_right ⟨?_, ?_⟩
  · rintro (⟨⟨hlt, hne⟩, rfl, hbit⟩ | ⟨hlt, rfl, hle, hbit⟩)
    · rw [testBit_shr_word _ (by omega)] at hbit
      have hl := lt_of_testBit_word hbit
      exact ⟨hlt, _, hl, by omega, hbit⟩
    · have hl := lt_of_testBit_word hbit
      exact ⟨hlt, _, hl, by omega, hbit⟩
  · rintro ⟨hm, l, hl, heq, hbit⟩
    -- a bit stays in its word, or is carried to the next
    have hcases : (m = i + k + 1 ∧ shift ≠ 0 ∧ l = 32 - shift + j) ∨
        (m = i + k ∧ shift ≤ j ∧ l = j - shift) := by omega
    rcases hcases with ⟨rfl, hne, rfl⟩ | ⟨rfl, hle, rfl⟩
    · refine Or.inl ⟨⟨hm, hne⟩, rfl, ?_⟩
      rw [testBit_shr_word _ (by omega)]
      exact hbit
    · exact Or.inr ⟨hm, rfl, hle, hbit⟩

theorem wordBit_shrRound (hshift : shift < 32) (hpn : pn.length = WIDTH) (hi : i < WIDTH)
    (hj : j < 32) : wordBit (shrRound k shift a pn i) m j = true ↔
      wordBit pn m j = true ∨ m < WIDTH ∧
        ∃ l < 32, 32 * m + j + (32 * k + shift) = 32 * i + l ∧ wordBit a i l = true := by
  simp only [shrRound]
  rw [wordBit_orWord_if (by rw [length_orWord_if, hpn]; omega),
    wordBit_orWord_if (fun h => by rw [hpn]; omega), testBit_shr_word _ hshift, or_assoc]
  refine or_congr_right ⟨?_, ?_⟩
  · rintro (⟨⟨hlt, hne⟩, rfl, hbit⟩ | ⟨hlt, rfl, hbit⟩)
    · rw [testBit_shl_word _ (by omega) hj, Bool.and_eq_true, decide_eq_true_eq] at hbit
      have hl := lt_of_testBit_word hbit.2
      exact ⟨by omega, _, hl, by omega, hbit.2⟩
    · have hl := lt_of_testBit_word hbit
      exact ⟨by omega, _, hl, by omega, hbit⟩
  · rintro ⟨hm, l, hl, heq, hbit⟩
    have hcases : (m = i - k - 1 ∧ k + 1 ≤ i ∧ shift ≠ 0 ∧ 32 - shift ≤ j ∧
        l = j - (32 - shift)) ∨ (m = i - k ∧ k ≤ i ∧ l = shift + j) := by omega
    rcases hcases with ⟨rfl, hle, hne, hjle, rfl⟩ | ⟨rfl, hle, rfl⟩
    · refine Or.inl ⟨⟨hle, hne⟩, rfl, ?_⟩
      rw [testBit_shl_word _ (by omega) hj, Bool.and_eq_true, decide_eq_true_eq]
      exact ⟨hjle, hbit⟩
    · exact Or.inr ⟨hle, rfl, hbit⟩

namespace BaseUint

variable (a : BaseUint WIDTH)

theorem testBit_value (t : Nat) : a.value.testBit t = true ↔
    ∃ i < WIDTH, ∃ l < 32, t = 32 * i + l ∧ wordBit a.pn i l = true := by
  rw [value, testBit_wordsValue]
  constructor
  · intro hbit
    refine ⟨t / 32, ?_, t % 32, Nat.mod_lt t (by decide), (Nat.div_add_mod t 32).symm, hbit⟩
    by_contra hlt
    rw [wordBit_of_length_le (by rw [a.length_pn]; exact Nat.not_lt.mp hlt)] at hbit
    exact Bool.false_ne_true hbit
  · rintro ⟨i, -, l, hl, rfl, hbit⟩
    have hdiv : (32 * i + l) / 32 = i := by omega
    have hmod : (32 * i + l) % 32 = l := by omega
    rwa [hdiv, hmod]

theorem value_shl (shift : Nat) : (a.shl shift).value = a.value * 2 ^ shift % 2 ^ (32 * WIDTH) := by
  apply Nat.eq_of_testBit_eq
  intro t
  rw [Bool.eq_iff_iff, Nat.testBit_mod_two_pow, Nat.testBit_mul_two_pow, Bool.and_eq_true,
    Bool.and_eq_true, decide_eq_true_eq, decide_eq_true_eq, testBit_value a]
  have hrounds := @wordBit_rounds _ _ (length_shlRound WIDTH (shift / 32) (shift % 32) a.pn) WIDTH
    (fun hpn _ => fun {m j} hj => wordBit_shlRound (Nat.mod_lt shift (by decide)) hpn hj)
    (List.range WIDTH) (fun i hi => List.mem_range.mp hi) (List.replicate WIDTH 0)
    List.length_replicate (t / 32) (t % 32) (Nat.mod_lt t (by decide))
  rw [wordBit_replicate] at hrounds
  rw [value, testBit_wordsValue, shl, hrounds]
  constructor
  · rintro (h | ⟨hm, i, hi, l, hl, heq, hbit⟩)
    · exact absurd h Bool.false_ne_true
    · exact ⟨by omega, by omega, i, List.mem_range.mp hi, l, hl, by omega, hbit⟩
  · rintro ⟨ht, hle, i, hi, l, hl, heq, hbit⟩
    exact Or.inr ⟨by omega, i, List.mem_range.mpr hi, l, hl, by omega, hbit⟩

theorem value_shr (shift : Nat) : (a.shr shift).value = a.value / 2 ^ shift := by
  apply Nat.eq_of_testBit_eq
  intro t
  rw [Bool.eq_iff_iff, Nat.testBit_div_two_pow, testBit_value a]
  have hrounds := @wordBit_rounds _ _ (length_shrRound (shift / 32) (shift % 32) a.pn) WIDTH
    (fun hpn hi => fun {m j} hj => wordBit_shrRound (Nat.mod_lt shift (by decide)) hpn hi hj)
    (List.range WIDTH) (fun i hi => List.mem_range.mp hi) (List.replicate WIDTH 0)
    List.length_replicate (t / 32) (t % 32) (Nat.mod_lt t (by decide))
  rw [wordBit_replicate] at hrounds
  rw [value, testBit_wordsValue, shr, hrounds]
  constructor
  · rintro (h | ⟨hm, i, hi, l, hl, heq, hbit⟩)
    · exact absurd h Bool.false_ne_true
    · exact ⟨i, List.mem_range.mp hi, l, hl, by omega, hbit⟩
  · rintro ⟨i, hi, l, hl, heq, hbit⟩
    exact Or.inr ⟨by omega, i, List.mem_range.mpr hi, l, hl, by omega, hbit⟩

end BaseUint

/-! ## The highest word -/

theorem sign_compareLoop {a b : List UInt32} (h : a.length = b.length) {n : Nat}
    (hn : n ≤ a.length) :
    compareLoop a b n = sign (wordsValue (a.take n)) (wordsValue (b.take n)) := by
  induction n with
  | zero => rfl
  | succ n ih =>
    have hlow : ∀ pn : List UInt32, n ≤ pn.length → wordsValue (pn.take n) < 2 ^ (32 * n) := by
      intro pn hpn
      have hlt := wordsValue_lt (pn.take n)
      rwa [List.length_take, Nat.min_eq_left hpn] at hlt
    rw [compareLoop, wordsValue_take_succ (by omega), wordsValue_take_succ (by omega),
      sign_of_high (hlow a (by omega)) (hlow b (by omega)), ih (by omega)]
    simp only [UInt32.lt_iff_toNat_lt, gt_iff_lt]

theorem size_wordBits {w : UInt32} (hw : w ≠ 0) {n : Nat} (hn : n < 32)
    (hlt : w.toNat < 2 ^ (n + 1)) : wordBits w n = Nat.size w.toNat := by
  have hpos : w.toNat ≠ 0 := fun h => hw (UInt32.toNat_inj.mp h)
  induction n with
  | zero =>
    have hone : w.toNat = 1 := by omega
    rw [wordBits, hone, Nat.size_one]
  | succ n ih =>
    have hone : (1 <<< UInt32.ofNat (n + 1) : UInt32).toNat = 2 ^ (n + 1) := by
      rw [UInt32.toNat_shiftLeft, shiftCount hn, UInt32.toNat_one, Nat.one_shiftLeft]
      exact Nat.mod_eq_of_lt (Nat.pow_lt_pow_right (by decide) hn)
    have hbit : w &&& (1 <<< UInt32.ofNat (n + 1)) ≠ 0 ↔ 2 ^ (n + 1) ≤ w.toNat := by
      rw [Ne, ← UInt32.toNat_inj, UInt32.toNat_and, hone, Nat.and_two_pow, UInt32.toNat_zero]
      rcases Nat.lt_or_ge w.toNat (2 ^ (n + 1)) with hsmall | hlarge
      · rw [Nat.testBit_lt_two_pow hsmall]
        simpa using hsmall
      · rw [Nat.testBit_of_two_pow_le_and_two_pow_add_one_gt hlarge hlt]
        exact ⟨fun _ => hlarge, fun _ h => by simp at h⟩
    rw [wordBits]
    split
    · next hset =>
        have hle : n + 1 < Nat.size w.toNat := Nat.lt_size.mpr (hbit.mp hset)
        have hge : Nat.size w.toNat ≤ n + 1 + 1 := Nat.size_le.mpr hlt
        omega
    · next hclear =>
        exact ih (by omega) (Nat.not_le.mp fun h => hclear (hbit.mpr h))

theorem size_bitsLoop {pn : List UInt32} {n : Nat} (hn : n ≤ pn.length) :
    bitsLoop pn n = Nat.size (wordsValue (pn.take n)) := by
  induction n with
  | zero => exact Nat.size_zero.symm
  | succ n ih =>
    have hlow := wordsValue_lt (pn.take n)
    rw [List.length_take, Nat.min_eq_left (by omega)] at hlow
    rw [bitsLoop, wordsValue_take_succ (by omega)]
    split
    · next hne =>
        have hword : (pn.getD n 0).toNat ≠ 0 := fun h => hne (UInt32.toNat_inj.mp h)
        rw [size_of_high hlow hword, size_wordBits hne (by decide) (UInt32.toNat_lt _)]
    · next hzero =>
        rw [Decidable.not_not.mp hzero, UInt32.toNat_zero, Nat.mul_zero, Nat.add_zero]
        exact ih (by omega)

namespace BaseUint

variable (a b : BaseUint WIDTH)

theorem compareTo_eq : a.compareTo b = sign a.value b.value := by
  have hloop := @sign_compareLoop a.pn b.pn (by rw [a.length_pn, b.length_pn]) WIDTH
    (by rw [a.length_pn])
  rwa [List.take_of_length_le (by rw [a.length_pn]),
    List.take_of_length_le (by rw [b.length_pn])] at hloop

theorem compareTo_nonneg : a.compareTo b ≥ 0 ↔ b.value ≤ a.value := by
  rw [compareTo_eq, sign]
  split
  · omega
  · split <;> omega

theorem bits_eq : a.bits = Nat.size a.value := by
  have hloop := @size_bitsLoop a.pn WIDTH (by rw [a.length_pn])
  rwa [List.take_of_length_le (by rw [a.length_pn])] at hloop

theorem value_ofUInt64 (x : UInt64) : (ofUInt64 x : BaseUint (WIDTH + 2)).value = x.toNat := by
  have hx := x.toNat_lt
  have hhigh : (x >>> 32).toUInt32.toNat = x.toNat / 2 ^ 32 := by
    rw [UInt64.toNat_toUInt32, UInt64.toNat_shiftRight]
    change x.toNat >>> 32 % _ = _
    rw [Nat.shiftRight_eq_div_pow]
    omega
  rw [value, ofUInt64, wordsValue_cons, wordsValue_cons, hhigh, wordsValue_replicate,
    UInt64.toNat_toUInt32]
  omega

theorem value_injective : Function.Injective (value : BaseUint WIDTH → Nat) := by
  intro a b h
  have hwords : ∀ x y : List UInt32, x.length = y.length → wordsValue x = wordsValue y → x = y := by
    intro x
    induction x with
    | nil => exact fun y hlength _ => (List.length_eq_zero_iff.mp hlength.symm).symm
    | cons w x ih =>
      rintro (_ | ⟨v, y⟩) hlength heq
      · exact absurd hlength (Nat.succ_ne_zero _)
      · have hw := w.toNat_lt
        have hv := v.toNat_lt
        rw [wordsValue_cons, wordsValue_cons] at heq
        have hhead : w = v := UInt32.toNat_inj.mp (by omega)
        rw [hhead, ih y (Nat.succ.inj hlength) (by omega)]
  obtain ⟨x, hx⟩ := a
  obtain ⟨y, hy⟩ := b
  congr
  exact hwords x y (hx.trans hy.symm) h

theorem equalTo_iff (c : BaseUint (WIDTH + 2)) (x : UInt64) :
    c.equalTo x = true ↔ c.value = x.toNat := by
  rw [← @value_ofUInt64 WIDTH, value_injective.eq_iff]
  obtain ⟨pn, hpn⟩ := c
  match pn, hpn with
  | w0 :: w1 :: pn, hpn =>
    have hall : (pn.all (· == 0)) = true ↔ pn = List.replicate WIDTH 0 := by
      rw [List.eq_replicate_iff, List.all_eq_true]
      simp only [List.length_cons] at hpn
      exact ⟨fun h => ⟨by omega, fun w hw => beq_iff_eq.mp (h w hw)⟩,
        fun h w hw => beq_iff_eq.mpr (h.2 w hw)⟩
    rw [equalTo, Bool.and_eq_true, Bool.and_eq_true, List.drop_succ_cons, List.drop_succ_cons,
      List.drop_zero, hall, List.getD_cons_succ, List.getD_cons_zero, List.getD_cons_zero,
      beq_iff_eq, beq_iff_eq, ofUInt64, mk.injEq, List.cons.injEq, List.cons.injEq]
    exact ⟨fun h => ⟨h.2, h.1.2, h.1.1⟩, fun h => ⟨⟨h.2.2, h.2.1⟩, h.1⟩⟩

/-! ## Long division -/

theorem value_setBit {shift : Nat} (hshift : shift < 32 * WIDTH)
    (hclear : a.value % 2 ^ (shift + 1) = 0) :
    (a.setBit shift).value = a.value + 2 ^ shift := by
  have hdiv : a.value = 2 ^ (shift + 1) * (a.value / 2 ^ (shift + 1)) :=
    (Nat.mul_div_cancel' (Nat.dvd_of_mod_eq_zero hclear)).symm
  rw [hdiv, Nat.two_pow_add_eq_or_of_lt (Nat.pow_lt_pow_right (by decide) (Nat.lt_succ_self _)),
    ← hdiv]
  apply Nat.eq_of_testBit_eq
  intro t
  have hbit : (1 <<< UInt32.ofNat (shift % 32) : UInt32).toNat = 2 ^ (shift % 32) := by
    rw [UInt32.toNat_shiftLeft, shiftCount (Nat.mod_lt _ (by decide)), UInt32.toNat_one,
      Nat.one_shiftLeft]
    exact Nat.mod_eq_of_lt (Nat.pow_lt_pow_right (by decide) (Nat.mod_lt _ (by decide)))
  rw [Nat.testBit_or, Nat.testBit_two_pow, value, testBit_wordsValue, setBit,
    wordBit_orWord (by rw [a.length_pn]; omega), hbit, Nat.testBit_two_pow, value,
    testBit_wordsValue, ← Bool.decide_and]
  refine congrArg _ (decide_eq_decide.mpr ⟨fun h => ?_, fun h => ?_⟩)
  · omega
  · subst h
    exact ⟨rfl, rfl⟩

/-- **The loop of `/=`** is the long division of the numbers. -/
theorem value_divLoop {b : BaseUint WIDTH} {n : Nat} (hn : n ≤ 32 * WIDTH)
    {div num quot : BaseUint WIDTH} (hdiv : 0 < n → 2 * div.value = b.value * 2 ^ n)
    (hquot : quot.value % 2 ^ n = 0) :
    (divLoop n div num quot).value = divide b.value n num.value quot.value := by
  induction n generalizing div num quot with
  | zero => rfl
  | succ n ih =>
    have hdiv := hdiv (Nat.succ_pos n)
    have htop : div.value = b.value * 2 ^ n := by
      rw [Nat.pow_succ] at hdiv
      have hmul : b.value * (2 ^ n * 2) = 2 * (b.value * 2 ^ n) := by ring
      omega
    have hnext : 0 < n → 2 * (div.shr 1).value = b.value * 2 ^ n := by
      intro hpos
      obtain ⟨k, rfl⟩ : ∃ k, n = k + 1 := ⟨n - 1, by omega⟩
      have hmul : b.value * (2 ^ k * 2) = 2 * (b.value * 2 ^ k) := by ring
      rw [value_shr, htop, Nat.pow_succ, hmul, Nat.pow_one, Nat.mul_div_cancel_left _ (by decide)]
    have hlow : quot.value % 2 ^ n = 0 := by
      rw [Nat.pow_succ] at hquot
      exact Nat.mod_eq_zero_of_dvd
        (Nat.dvd_trans (Nat.dvd_mul_right _ _) (Nat.dvd_of_mod_eq_zero hquot))
    rw [divLoop, Limbs.divide]
    have hge : num.compareTo div ≥ 0 ↔ b.value * 2 ^ n ≤ num.value := by
      rw [compareTo_nonneg, htop]
    split
    · next h =>
        have hset := value_setBit quot (by omega) hquot
        have hsub : (num.sub div).value = num.value - b.value * 2 ^ n := by
          have hnum := num.value_lt
          have hle := hge.mp h
          rw [value_sub, htop, ← Nat.add_sub_assoc (by omega), Nat.add_comm num.value,
            Nat.add_sub_assoc hle, Nat.add_mod_left, Nat.mod_eq_of_lt (by omega)]
        rw [if_pos (hge.mp h), ih (by omega) hnext (by rw [hset, Nat.add_mod_right, hlow]), hset,
          hsub]
    · next h => rw [if_neg fun h' => h (hge.mpr h'), ih (by omega) hnext hlow]

/-- **Division** finds the quotient, or that the divisor is zero. -/
theorem div_eq : (a.div b).map value =
    if b.value = 0 then .error "Division by zero" else .ok (a.value / b.value) := by
  have hzero : b.bits = 0 ↔ b.value = 0 := by rw [bits_eq, Nat.size_eq_zero]
  have hnum : a.value < 2 ^ a.bits := by
    rw [bits_eq]
    exact Nat.lt_size_self _
  have hwidth : a.bits ≤ 32 * WIDTH := by
    rw [bits_eq, Nat.size_le]
    exact a.value_lt
  unfold div
  dsimp only
  split
  · next h => rw [if_pos (hzero.mp h)]; rfl
  · next h =>
      have hpos : b.value ≠ 0 := fun h' => h (hzero.mpr h')
      obtain ⟨k, hk⟩ : ∃ k, b.bits = k + 1 := Nat.exists_eq_succ_of_ne_zero h
      have hlow : 2 ^ k ≤ b.value := by
        rw [bits_eq] at hk
        exact Nat.lt_size.mp (by omega)
      rw [if_neg hpos]
      split
      · next hlong =>
          have hsmall : a.value < b.value :=
            Nat.lt_of_lt_of_le hnum
              (Nat.le_trans (Nat.pow_le_pow_right (by decide) (by omega)) hlow)
          rw [Except.map, value_zero, Nat.div_eq_of_lt hsmall]
      · next hshort =>
          have hpow : 2 ^ a.bits = 2 ^ k * 2 ^ (a.bits - b.bits + 1) := by
            rw [← Nat.pow_add]
            congr 1
            omega
          have hfits : b.value * 2 ^ (a.bits - b.bits) < 2 ^ (32 * WIDTH) := by
            have hb : b.value < 2 ^ (k + 1) := by
              rw [← hk, bits_eq]
              exact Nat.lt_size_self _
            calc b.value * 2 ^ (a.bits - b.bits) < 2 ^ (k + 1) * 2 ^ (a.bits - b.bits) :=
                  Nat.mul_lt_mul_of_pos_right hb (Nat.two_pow_pos _)
              _ = 2 ^ a.bits := by
                  rw [← Nat.pow_add]
                  congr 1
                  omega
              _ ≤ 2 ^ (32 * WIDTH) := Nat.pow_le_pow_right (by decide) hwidth
          have hloop := @value_divLoop _ b (a.bits - b.bits + 1) (by omega)
            (b.shl (a.bits - b.bits)) a zero
            (fun _ => by rw [value_shl, Nat.mod_eq_of_lt hfits, Nat.pow_succ]; ring)
            (by rw [value_zero, Nat.zero_mod])
          have hquot : a.value < b.value * 2 ^ (a.bits - b.bits + 1) := by
            rw [hpow] at hnum
            exact Nat.lt_of_lt_of_le hnum (Nat.mul_le_mul_right _ hlow)
          rw [Except.map, hloop, divide_eq hquot, value_zero, Nat.zero_add]

end BaseUint

end BitBlocks
