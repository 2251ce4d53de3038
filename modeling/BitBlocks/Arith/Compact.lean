import BitBlocks.Arith.Division
import BitBlocks.Chain.IndexEntry

/-!
# Compact numbers (`SetCompact`, `GetCompact`)

A compact number is a size in bytes, a sign and a mantissa of 23 bits. Encoding drops all
but the leading two or three bytes: the mantissa must not reach into the bit of the sign, so
it has 15 bits at least. Decoding shifts the mantissa back. The sign is dropped with a
mantissa that a small size shifts out, and the number is too large if a bit is shifted out
at the other end.
-/

namespace BitBlocks

open Leading

/-! ## Decoding -/

theorem two_pow_bytes (k : Nat) : 2 ^ (8 * k) = 256 ^ k := Nat.pow_mul 2 8 k

/-- The mantissa and the size of a compact number. -/
abbrev compactMantissa (nCompact : Nat) : Nat := nCompact % 2 ^ 23

abbrev compactSize (nCompact : Nat) : Nat := nCompact / 2 ^ 24

/-- The number a compact number stands for, its fraction dropped. -/
def compactValue (nCompact : Nat) : Nat :=
  restored 256 (256 ^ 3) (compactMantissa nCompact) (compactSize nCompact)

variable {nCompact n k : Nat}

theorem compactValue_small (h : compactSize nCompact ≤ 3) :
    compactValue nCompact = compactMantissa nCompact / 2 ^ (8 * (3 - compactSize nCompact)) := by
  have hpow : 256 ^ 3 = 256 ^ (3 - compactSize nCompact) * 256 ^ compactSize nCompact := by
    rw [← Nat.pow_add, Nat.sub_add_cancel h]
  rw [compactValue, restored, hpow, Nat.mul_div_mul_right _ _ (Nat.pow_pos (by decide)),
    two_pow_bytes]

theorem compactValue_large (h : ¬ compactSize nCompact ≤ 3) :
    compactValue nCompact = compactMantissa nCompact * 2 ^ (8 * (compactSize nCompact - 3)) := by
  have hpow : 256 ^ compactSize nCompact = 256 ^ (compactSize nCompact - 3) * 256 ^ 3 := by
    rw [← Nat.pow_add, Nat.sub_add_cancel (by omega)]
  rw [compactValue, restored, hpow, ← Nat.mul_assoc, Nat.mul_div_cancel _ (by decide),
    two_pow_bytes]

theorem compactMantissa_lt (nCompact : Nat) : compactMantissa nCompact < 2 ^ 23 :=
  Nat.mod_lt nCompact (by decide)

theorem compactValue_lt_small (h : compactSize nCompact ≤ 3) : compactValue nCompact < 2 ^ 23 := by
  rw [compactValue_small h]
  exact Nat.lt_of_le_of_lt (Nat.div_le_self _ _) (compactMantissa_lt nCompact)

/-- **`SetCompact` decodes**, in 256 bits. -/
theorem setCompact_eq (nCompact : Nat) : setCompact nCompact = compactValue nCompact % 2 ^ 256 := by
  unfold setCompact
  dsimp only
  split
  · next h =>
      have hlt := compactValue_lt_small h
      have hmod : compactValue nCompact % 2 ^ 256 = compactValue nCompact :=
        Nat.mod_eq_of_lt (by omega)
      rw [hmod]
      exact (compactValue_small h).symm
  · next h => rw [compactValue_large h]

theorem compactWord_ne_zero (nCompact : Nat) :
    (if compactSize nCompact ≤ 3 then
      compactMantissa nCompact / 2 ^ (8 * (3 - compactSize nCompact))
    else compactMantissa nCompact) ≠ 0 ↔ compactValue nCompact ≠ 0 := by
  split
  · next h => rw [compactValue_small h]
  · next h =>
      have hpow : 2 ^ (8 * (compactSize nCompact - 3)) ≠ 0 := Nat.ne_of_gt (Nat.two_pow_pos _)
      rw [compactValue_large h, Nat.mul_ne_zero_iff]
      exact ⟨fun h => ⟨h, hpow⟩, fun h => h.1⟩

/-- **The sign** of a number that is not zero. -/
theorem compactNegative_iff (nCompact : Nat) : compactNegative nCompact = true ↔
    compactValue nCompact ≠ 0 ∧ nCompact / 2 ^ 23 % 2 = 1 := by
  unfold compactNegative
  dsimp only
  rw [Bool.and_eq_true, decide_eq_true_eq, decide_eq_true_eq, compactWord_ne_zero]
  exact and_congr_right fun _ => ⟨fun h => by omega, fun h => by omega⟩

/-- **Overflow** is a number that does not fit in 256 bits. -/
theorem compactOverflow_iff (nCompact : Nat) :
    compactOverflow nCompact = true ↔ 2 ^ 256 ≤ compactValue nCompact := by
  have hm := compactMantissa_lt nCompact
  have hmantissa : nCompact % 2 ^ 23 = compactMantissa nCompact := rfl
  have hsize : nCompact / 2 ^ 24 = compactSize nCompact := rfl
  unfold compactOverflow
  dsimp only
  rw [Bool.and_eq_true, decide_eq_true_eq, compactWord_ne_zero]
  simp only [Bool.or_eq_true, Bool.and_eq_true, decide_eq_true_eq, hmantissa, hsize]
  rcases Nat.lt_or_ge 32 (compactSize nCompact) with hlarge | hsmall
  · have h3 : ¬ compactSize nCompact ≤ 3 := by omega
    have hne := compactWord_ne_zero nCompact
    rw [if_neg h3] at hne
    simp only [if_neg h3]
    rw [← hne, compactValue_large h3]
    obtain ⟨e, he⟩ : ∃ e, compactSize nCompact - 3 = 30 + e := ⟨compactSize nCompact - 33, by omega⟩
    have hpow : 2 ^ (8 * (compactSize nCompact - 3)) = 2 ^ 240 * 256 ^ e := by
      rw [he, Nat.mul_add, Nat.pow_add, two_pow_bytes e]
    have hfits : 2 ^ 256 ≤ compactMantissa nCompact * (2 ^ 240 * 256 ^ e) ↔
        2 ^ 16 ≤ compactMantissa nCompact * 256 ^ e := by
      have hsplit : compactMantissa nCompact * (2 ^ 240 * 256 ^ e) =
          2 ^ 240 * (compactMantissa nCompact * 256 ^ e) := by ring
      rw [hsplit]
      omega
    rw [hpow, hfits]
    rcases e with _ | _ | e
    · rw [Nat.pow_zero, Nat.mul_one]
      omega
    · rw [Nat.zero_add, Nat.pow_one]
      omega
    · have hpos : 0 < 256 ^ e := Nat.pow_pos (by decide)
      have hbytes : compactMantissa nCompact * 256 ^ (e + 1 + 1) =
          65536 * (compactMantissa nCompact * 256 ^ e) := by ring
      have hzero : compactMantissa nCompact * 256 ^ e = 0 ↔ compactMantissa nCompact = 0 := by
        rw [Nat.mul_eq_zero]
        exact or_iff_left (Nat.ne_of_gt hpos)
      rw [hbytes]
      omega
  · have hlt : compactValue nCompact < 2 ^ 256 := by
      rcases Nat.lt_or_ge 3 (compactSize nCompact) with h3 | h3
      · rw [compactValue_large (by omega)]
        calc compactMantissa nCompact * 2 ^ (8 * (compactSize nCompact - 3))
            < 2 ^ 23 * 2 ^ (8 * (compactSize nCompact - 3)) :=
              Nat.mul_lt_mul_of_pos_right hm (Nat.two_pow_pos _)
          _ ≤ 2 ^ 23 * 2 ^ (8 * 29) :=
              Nat.mul_le_mul_left _ (Nat.pow_le_pow_right (by decide) (by omega))
          _ ≤ 2 ^ 256 := by decide
      · have hsmall' := compactValue_lt_small h3
        omega
    omega

/-! ## The block proof -/

theorem succ_setCompact_lt (h : compactOverflow nCompact = false) :
    setCompact nCompact + 1 < 2 ^ 256 := by
  have hlt : compactValue nCompact < 2 ^ 256 := by
    rw [← Nat.not_le, ← compactOverflow_iff, h]
    exact Bool.false_ne_true
  rw [setCompact_eq, Nat.mod_eq_of_lt hlt]
  change compactValue nCompact + 1 < (2 ^ 256 : Nat)
  rcases Nat.lt_or_ge 3 (compactSize nCompact) with hlarge | hsmall
  · -- its last byte is zero
    obtain ⟨e, he⟩ : ∃ e, compactSize nCompact - 3 = e + 1 := ⟨compactSize nCompact - 4, by omega⟩
    have heven : compactValue nCompact = 256 * (compactMantissa nCompact * 256 ^ e) := by
      rw [compactValue_large (by omega), he, two_pow_bytes, Nat.pow_succ]
      ring
    omega
  · have hmantissa := compactValue_lt_small hsmall
    omega

/-- `2 ** 256 / (bnTarget + 1)`, without the dividend. -/
theorem complement_div {bnTarget : Nat} (hpos : bnTarget ≠ 0) (hlt : bnTarget + 1 < 2 ^ 256) :
    ((2 ^ 256 - 1 - bnTarget) / ((bnTarget + 1) % 2 ^ 256) + 1) % 2 ^ 256 =
      2 ^ 256 / (bnTarget + 1) := by
  have hsum : 2 ^ 256 - 1 - bnTarget + (bnTarget + 1) = 2 ^ 256 := by omega
  have hquot : (2 ^ 256 - 1 - bnTarget) / (bnTarget + 1) + 1 = 2 ^ 256 / (bnTarget + 1) := by
    rw [← Nat.add_div_right _ (Nat.succ_pos bnTarget), Nat.succ_eq_add_one, hsum]
  have hfits : 2 ^ 256 / (bnTarget + 1) < 2 ^ 256 := Nat.div_lt_self (by decide) (by omega)
  rw [Nat.mod_eq_of_lt hlt, hquot, Nat.mod_eq_of_lt hfits]

/-- **The block proof** of a target that is accepted. -/
theorem getBlockProof_eq (nBits : Nat) : getBlockProof nBits =
    if compactNegative nBits = true ∨ compactOverflow nBits = true ∨ setCompact nBits = 0 then 0
    else 2 ^ 256 / (setCompact nBits + 1) := by
  unfold getBlockProof
  dsimp only
  have hcond : (compactNegative nBits || compactOverflow nBits ||
      decide (setCompact nBits = 0)) = true ↔ compactNegative nBits = true ∨
      compactOverflow nBits = true ∨ setCompact nBits = 0 := by
    rw [Bool.or_eq_true, Bool.or_eq_true, or_assoc, decide_eq_true_eq]
  split
  · next h => rw [if_pos (hcond.mp h)]
  · next h =>
      have hrejected := mt hcond.mpr h
      rw [if_neg hrejected]
      rw [not_or, not_or] at hrejected
      have hlt := succ_setCompact_lt (Bool.eq_false_iff.mpr hrejected.2.1)
      exact complement_div hrejected.2.2 hlt

/-! ## Encoding -/

theorem byteSize_eq (n : Nat) : byteSize n = (Nat.size n + 7) / 8 := by
  unfold byteSize
  split
  · next h => rw [h, Nat.size_zero]
  · next h =>
      have hsize : Nat.size n = Nat.log2 n + 1 := by
        apply Nat.le_antisymm
        · exact Nat.size_le.mpr Nat.lt_log2_self
        · exact Nat.lt_size.mpr (Nat.log2_self_le h)
      rw [hsize]

theorem lt_byteSize (n : Nat) : n < 256 ^ byteSize n := by
  rw [← two_pow_bytes, ← Nat.size_le, byteSize_eq]
  omega

theorem byteSize_le (h : n < 2 ^ 256) : byteSize n ≤ 32 := by
  have hsize := Nat.size_le.mpr h
  rw [byteSize_eq]
  omega

theorem byteSize_pos (h : 0 < n) : 256 ^ byteSize n ≤ n * 256 := by
  have hsize : 0 < Nat.size n := Nat.size_pos.mpr h
  obtain ⟨k, hk⟩ : ∃ k, byteSize n = k + 1 := ⟨byteSize n - 1, by
    rw [byteSize_eq]
    omega⟩
  have hle : 2 ^ (8 * k) ≤ n := by
    rw [← Nat.lt_size]
    rw [byteSize_eq] at hk
    omega
  rw [hk, Nat.pow_succ, ← two_pow_bytes]
  exact Nat.mul_le_mul_right 256 hle

theorem mantissa_small (h : k ≤ 3) (n : Nat) :
    mantissa 256 (256 ^ 3) n k = n * 2 ^ (8 * (3 - k)) := by
  have hpow : n * 256 ^ 3 = n * 256 ^ (3 - k) * 256 ^ k := by
    rw [Nat.mul_assoc, ← Nat.pow_add, Nat.sub_add_cancel h]
  rw [mantissa, hpow, Nat.mul_div_cancel _ (Nat.pow_pos (by decide)), two_pow_bytes]

theorem mantissa_large (h : ¬ k ≤ 3) (n : Nat) :
    mantissa 256 (256 ^ 3) n k = n / 2 ^ (8 * (k - 3)) := by
  have hpow : 256 ^ k = 256 ^ (k - 3) * 256 ^ 3 := by
    rw [← Nat.pow_add, Nat.sub_add_cancel (by omega)]
  rw [mantissa, hpow, Nat.mul_div_mul_right _ _ (by decide), two_pow_bytes]

theorem mantissa_dvd (n k : Nat) : 256 ^ 3 ∣ mantissa 256 (256 ^ 3) n k * 256 ^ k := by
  rcases Nat.lt_or_ge 3 k with h | h
  · exact Nat.dvd_mul_left_of_dvd (Nat.pow_dvd_pow 256 (Nat.le_of_lt h)) _
  · rw [mantissa_small h, two_pow_bytes, Nat.mul_assoc, ← Nat.pow_add, Nat.sub_add_cancel h]
    exact Nat.dvd_mul_left _ _

theorem mantissa_byteSize_lt (n : Nat) : mantissa 256 (256 ^ 3) n (byteSize n) < 2 ^ 24 := by
  have hlt : n * 256 ^ 3 < 256 ^ 3 * 256 ^ byteSize n := by
    rw [Nat.mul_comm]
    exact Nat.mul_lt_mul_of_pos_left (lt_byteSize n) (by decide)
  exact (Nat.div_lt_iff_lt_mul (Nat.pow_pos (by decide))).mpr hlt

/-- The size that is stored: one more if the mantissa would reach the bit of the sign. -/
def storedSize (n : Nat) : Nat :=
  if mantissa 256 (256 ^ 3) n (byteSize n) < 2 ^ 23 then byteSize n else byteSize n + 1

def storedMantissa (n : Nat) : Nat := mantissa 256 (256 ^ 3) n (storedSize n)

theorem storedSize_le (n : Nat) : storedSize n ≤ byteSize n + 1 := by
  unfold storedSize
  split
  · exact Nat.le_succ _
  · exact Nat.le_refl _

theorem mantissa_succ (n k : Nat) :
    mantissa 256 (256 ^ 3) n (k + 1) = mantissa 256 (256 ^ 3) n k / 2 ^ 8 := by
  have hpow : 256 ^ (k + 1) = 256 ^ k * 2 ^ 8 := Nat.pow_succ 256 k
  rw [mantissa, mantissa, Nat.div_div_eq_div_mul, hpow]

theorem storedMantissa_lt (n : Nat) : storedMantissa n < 2 ^ 23 := by
  have hlt := mantissa_byteSize_lt n
  unfold storedMantissa storedSize
  split
  · next h => exact h
  · rw [mantissa_succ]
    omega

/-- **The stored mantissa has 15 bits at least.** -/
theorem storedSize_normal (hn : 0 < n) : Normal 256 (256 ^ 3) (2 ^ 15) n (storedSize n) := by
  refine ⟨?_, storedMantissa_lt n⟩
  have hle : 2 ^ 16 ≤ mantissa 256 (256 ^ 3) n (byteSize n) := by
    refine (Nat.le_div_iff_mul_le (Nat.pow_pos (by decide))).mpr ?_
    calc 2 ^ 16 * 256 ^ byteSize n ≤ 2 ^ 16 * (n * 256) :=
          Nat.mul_le_mul_left _ (byteSize_pos hn)
      _ = n * 256 ^ 3 := by ring
  unfold storedSize
  split
  · exact Nat.le_trans (by decide) hle
  · rw [mantissa_succ]
    omega

theorem getCompact_eq (n : Nat) (fNegative : Bool) : getCompact n fNegative =
    storedMantissa n + storedSize n * 2 ^ 24 +
      if fNegative && storedMantissa n != 0 then 0x00800000 else 0 := by
  have hlt := mantissa_byteSize_lt n
  have hword : (if byteSize n ≤ 3 then n * 2 ^ (8 * (3 - byteSize n)) % 2 ^ 32
      else n / 2 ^ (8 * (byteSize n - 3)) % 2 ^ 32) = mantissa 256 (256 ^ 3) n (byteSize n) := by
    split
    · next h =>
        rw [← mantissa_small h]
        exact Nat.mod_eq_of_lt (by omega)
    · next h =>
        rw [← mantissa_large h]
        exact Nat.mod_eq_of_lt (by omega)
  have hparts : (if mantissa 256 (256 ^ 3) n (byteSize n) / 0x00800000 % 2 = 1 then
      (mantissa 256 (256 ^ 3) n (byteSize n) / 2 ^ 8, byteSize n + 1)
      else (mantissa 256 (256 ^ 3) n (byteSize n), byteSize n)) =
      (storedMantissa n, storedSize n) := by
    unfold storedMantissa storedSize
    rcases Nat.lt_or_ge (mantissa 256 (256 ^ 3) n (byteSize n)) (2 ^ 23) with h | h
    · rw [if_neg (by omega), if_pos h]
    · rw [if_pos (by omega), if_neg (Nat.not_lt.mpr h), mantissa_succ]
  have hbits : storedMantissa n % 0x00800000 = storedMantissa n :=
    Nat.mod_eq_of_lt (storedMantissa_lt n)
  simp only [getCompact, hword, hparts, hbits]
  cases fNegative && storedMantissa n != 0 with
  | true => rw [if_pos rfl, if_pos rfl]
  | false => rw [if_neg Bool.false_ne_true, if_neg Bool.false_ne_true, Nat.add_zero]

theorem compactValue_getCompact (n : Nat) : compactValue (getCompact n false) =
    restored 256 (256 ^ 3) (storedMantissa n) (storedSize n) := by
  have hlt := storedMantissa_lt n
  have hcompact : getCompact n false = storedMantissa n + storedSize n * 2 ^ 24 := by
    rw [getCompact_eq, Bool.false_and, if_neg Bool.false_ne_true, Nat.add_zero]
  have hmantissa : compactMantissa (getCompact n false) = storedMantissa n := by
    rw [hcompact]
    unfold compactMantissa
    omega
  have hsize : compactSize (getCompact n false) = storedSize n := by
    rw [hcompact]
    unfold compactSize
    omega
  rw [compactValue, hmantissa, hsize]

theorem compactValue_getCompact_le (n : Nat) : compactValue (getCompact n false) ≤ n := by
  rw [compactValue_getCompact]
  exact restored_mantissa_le (by decide) n _

theorem setCompact_getCompact (h : n < 2 ^ 256) :
    setCompact (getCompact n false) = compactValue (getCompact n false) := by
  rw [setCompact_eq]
  exact Nat.mod_eq_of_lt (Nat.lt_of_le_of_lt (compactValue_getCompact_le n) h)

/-- **The order of targets is kept.** -/
theorem compactValue_getCompact_mono {n' : Nat} (h : n ≤ n') :
    compactValue (getCompact n false) ≤ compactValue (getCompact n' false) := by
  rcases Nat.eq_zero_or_pos n with rfl | hn
  · exact Nat.le_trans (compactValue_getCompact_le 0) (Nat.zero_le _)
  · rw [compactValue_getCompact, compactValue_getCompact]
    exact (storedSize_normal hn).restored_mono (by decide) (by decide)
      (storedSize_normal (Nat.lt_of_lt_of_le hn h)) h

theorem compactValue_getCompact_error (hn : 0 < n) :
    (n - compactValue (getCompact n false)) * 2 ^ 15 < n := by
  rw [compactValue_getCompact]
  exact (storedSize_normal hn).error_lt (by decide) (by decide) (mantissa_dvd n _)

theorem compactValue_getCompact_exact {m j : Nat} (hm : m < 2 ^ 16) :
    compactValue (getCompact (m * 2 ^ j) false) = m * 2 ^ j := by
  rcases Nat.eq_zero_or_pos (m * 2 ^ j) with hzero | hpos
  · rw [hzero]
    decide
  · have hnormal : Normal (2 ^ 8) (2 ^ 24) (2 ^ 15) (m * 2 ^ j) (storedSize (m * 2 ^ j)) :=
      storedSize_normal hpos
    rw [compactValue_getCompact]
    exact restored_mantissa (by decide) (hnormal.dvd_of_digits hm rfl)

/-- **Encoding what was decoded** gives the same compact number. -/
theorem getCompact_compactValue (n : Nat) :
    getCompact (compactValue (getCompact n false)) false = getCompact n false := by
  rcases Nat.eq_zero_or_pos n with rfl | hn
  · decide
  · have hnormal := storedSize_normal hn
    have hkept : mantissa 256 (256 ^ 3) (compactValue (getCompact n false)) (storedSize n) =
        storedMantissa n := by
      rw [compactValue_getCompact]
      exact mantissa_restored (by decide) (mantissa_dvd n (storedSize n))
    have hnormal' : Normal 256 (256 ^ 3) (2 ^ 15) (compactValue (getCompact n false))
        (storedSize n) :=
      ⟨by rw [hkept]; exact hnormal.le, by rw [hkept]; exact hnormal.lt⟩
    have hpos : 0 < compactValue (getCompact n false) := by
      by_contra hzero
      have hle := hnormal'.mul_le (by decide)
      have hpow : 0 < 2 ^ 15 * 256 ^ storedSize n :=
        Nat.mul_pos (by decide) (Nat.pow_pos (by decide))
      rw [Nat.eq_zero_of_not_pos hzero, Nat.zero_mul] at hle
      exact absurd hle (Nat.not_le.mpr hpow)
    have hsize : storedSize (compactValue (getCompact n false)) = storedSize n :=
      (storedSize_normal hpos).exponent_unique (by decide) hnormal'
    have hmantissa : storedMantissa (compactValue (getCompact n false)) = storedMantissa n := by
      rw [storedMantissa, hsize, hkept]
    rw [getCompact_eq, hmantissa, hsize, ← getCompact_eq]

end BitBlocks
