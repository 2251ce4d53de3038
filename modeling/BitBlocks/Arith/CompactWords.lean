import BitBlocks.Arith.Compact

/-!
# Compact numbers and the block proof, on words

`SetCompact`, `GetCompact` and `GetBlockProof` with the operators of `base_uint`. The
assertions of `GetCompact` hold for every number, and the division of `GetBlockProof` is
never by zero: a target that is accepted is not the largest number, to which adding one
gives zero.
-/

namespace BitBlocks

open Limbs Leading

namespace BaseUint

/-- `GetLow64`. -/
def getLow64 {WIDTH : Nat} (a : BaseUint (WIDTH + 2)) : UInt64 :=
  (a.pn.getD 0 0).toUInt64 ||| (a.pn.getD 1 0).toUInt64 <<< 32

/-- `SetCompact`: the number, `*pfNegative` and `*pfOverflow`. -/
def setCompact (nCompact : UInt32) : BaseUint 8 × Bool × Bool :=
  let nSize := (nCompact >>> 24).toNat
  let nWord := nCompact &&& 0x007fffff
  let nWord := if nSize ≤ 3 then nWord >>> UInt32.ofNat (8 * (3 - nSize)) else nWord
  let bn := if nSize ≤ 3 then ofUInt64 nWord.toUInt64
    else (ofUInt64 nWord.toUInt64).shl (8 * (nSize - 3))
  (bn, nWord != 0 && nCompact &&& 0x00800000 != 0,
    nWord != 0 && (decide (nSize > 34) || (decide (nWord > 0xff) && decide (nSize > 33)) ||
      (decide (nWord > 0xffff) && decide (nSize > 32))))

/-- `GetCompact`; `none` if an assertion fails. -/
def getCompact (a : BaseUint 8) (fNegative : Bool) : Option UInt32 :=
  let nSize := (a.bits + 7) / 8
  let nCompact : UInt32 :=
    if nSize ≤ 3 then (a.getLow64 <<< UInt64.ofNat (8 * (3 - nSize))).toUInt32
    else (a.shr (8 * (nSize - 3))).getLow64.toUInt32
  -- the bit of the sign is set already: the mantissa is divided
  let (nCompact, nSize) :=
    if nCompact &&& 0x00800000 ≠ 0 then (nCompact >>> 8, nSize + 1) else (nCompact, nSize)
  if nCompact &&& ~~~0x007fffff ≠ 0 ∨ ¬ nSize < 256 then none
  else
    let nCompact := nCompact ||| UInt32.ofNat nSize <<< 24
    some (nCompact ||| if fNegative && nCompact &&& 0x007fffff != 0 then 0x00800000 else 0)

/-- `GetBlockProof`. -/
def getBlockProof (nBits : UInt32) : Except String (BaseUint 8) :=
  let (bnTarget, fNegative, fOverflow) := setCompact nBits
  if fNegative || fOverflow || bnTarget.equalTo 0 then .ok (ofUInt64 0)
  else (bnTarget.complement.div (bnTarget.add (ofUInt64 1))).map fun q => q.add (ofUInt64 1)

end BaseUint

/-! ## Words and masks -/

theorem toNat_and_mask (w : UInt32) : (w &&& 0x007fffff).toNat = w.toNat % 2 ^ 23 := by
  rw [UInt32.toNat_and]
  exact Nat.and_two_pow_sub_one_eq_mod w.toNat 23

theorem and_sign_ne_zero (w : UInt32) : w &&& 0x00800000 ≠ 0 ↔ w.toNat / 2 ^ 23 % 2 = 1 := by
  have hand : (w &&& 0x00800000).toNat = (w.toNat.testBit 23).toNat * 2 ^ 23 := by
    rw [UInt32.toNat_and]
    exact Nat.and_two_pow w.toNat 23
  have hbit : w.toNat.testBit 23 = decide (w.toNat / 2 ^ 23 % 2 = 1) :=
    Nat.testBit_eq_decide_div_mod_eq
  rw [Ne, ← UInt32.toNat_inj, hand, hbit, UInt32.toNat_zero]
  rcases Nat.mod_two_eq_zero_or_one (w.toNat / 2 ^ 23) with h | h
  · rw [h]
    decide
  · rw [h]
    decide

theorem and_not_mask {w : UInt32} (h : w.toNat < 2 ^ 23) : w &&& ~~~0x007fffff = 0 := by
  rw [← UInt32.toNat_inj, UInt32.toNat_and]
  apply Nat.eq_of_testBit_eq
  intro t
  have hmask : (~~~0x007fffff : UInt32).toNat = 2 ^ 23 * 511 := by decide
  rw [Nat.testBit_and, hmask, Nat.testBit_two_pow_mul, UInt32.toNat_zero, Nat.zero_testBit]
  rcases Nat.lt_or_ge t 23 with ht | ht
  · rw [decide_eq_false (Nat.not_le.mpr ht), Bool.false_and, Bool.and_false]
  · have hlt : w.toNat < 2 ^ t := Nat.lt_of_lt_of_le h (Nat.pow_le_pow_right (by decide) ht)
    rw [Nat.testBit_lt_two_pow hlt, Bool.false_and]

theorem or_sign {q r : Nat} (hr : r < 2 ^ 23) :
    (2 ^ 24 * q + r) ||| 2 ^ 23 = 2 ^ 24 * q + r + 2 ^ 23 := by
  have hlow : 2 ^ 23 ||| r = 2 ^ 23 + r := by
    have hsum := Nat.two_pow_add_eq_or_of_lt hr 1
    rw [Nat.mul_one] at hsum
    exact hsum.symm
  calc (2 ^ 24 * q + r) ||| 2 ^ 23 = 2 ^ 24 * q ||| (2 ^ 23 ||| r) := by
        rw [Nat.two_pow_add_eq_or_of_lt (by omega : r < 2 ^ 24), Nat.or_assoc, Nat.or_comm r]
    _ = 2 ^ 24 * q + (2 ^ 23 + r) := by
        rw [hlow, ← Nat.two_pow_add_eq_or_of_lt (by omega : 2 ^ 23 + r < 2 ^ 24)]
    _ = 2 ^ 24 * q + r + 2 ^ 23 := by omega

theorem toNat_shr {w : UInt32} {n : Nat} (hn : n < 32) :
    (w >>> UInt32.ofNat n).toNat = w.toNat / 2 ^ n := by
  rw [UInt32.toNat_shiftRight, shiftCount hn, Nat.shiftRight_eq_div_pow]

theorem value_getLow64 {WIDTH : Nat} (a : BaseUint (WIDTH + 2)) :
    a.getLow64.toNat = a.value % 2 ^ 64 := by
  obtain ⟨pn, hpn⟩ := a
  match pn, hpn with
  | w0 :: w1 :: pn, hpn =>
    have h0 := w0.toNat_lt
    have h1 := w1.toNat_lt
    have hhigh : (w1.toUInt64 <<< 32).toNat = 2 ^ 32 * w1.toNat := by
      rw [UInt64.toNat_shiftLeft, UInt32.toNat_toUInt64]
      change w1.toNat <<< 32 % _ = _
      rw [Nat.shiftLeft_eq, Nat.mul_comm]
      exact Nat.mod_eq_of_lt (by omega)
    rw [BaseUint.getLow64, BaseUint.value, wordsValue_cons, wordsValue_cons,
      List.getD_cons_succ, List.getD_cons_zero, List.getD_cons_zero, UInt64.toNat_or, hhigh,
      UInt32.toNat_toUInt64, Nat.or_comm, ← Nat.two_pow_add_eq_or_of_lt h0]
    omega

/-! ## `SetCompact` -/

namespace BaseUint

/-- The mantissa of a compact number after the shift, if there is one. -/
theorem toNat_compactWord (nCompact : UInt32) :
    ((if (nCompact >>> 24).toNat ≤ 3 then
      (nCompact &&& 0x007fffff) >>> UInt32.ofNat (8 * (3 - (nCompact >>> 24).toNat))
      else nCompact &&& 0x007fffff) : UInt32).toNat =
    if compactSize nCompact.toNat ≤ 3 then
      compactMantissa nCompact.toNat / 2 ^ (8 * (3 - compactSize nCompact.toNat))
    else compactMantissa nCompact.toNat := by
  have hsize : (nCompact >>> 24).toNat = compactSize nCompact.toNat :=
    toNat_shr (by decide : 24 < 32)
  rw [hsize]
  split
  · rw [toNat_shr (by omega), toNat_and_mask]
  · exact toNat_and_mask nCompact

theorem value_setCompact (nCompact : UInt32) :
    (setCompact nCompact).1.value = BitBlocks.setCompact nCompact.toNat := by
  have hsize : (nCompact >>> 24).toNat = compactSize nCompact.toNat :=
    toNat_shr (by decide : 24 < 32)
  have hword := toNat_compactWord nCompact
  rw [hsize] at hword
  unfold setCompact BitBlocks.setCompact
  dsimp only
  rw [hsize]
  split
  · next h =>
      rw [if_pos h, if_pos h] at hword
      rw [value_ofUInt64, UInt32.toNat_toUInt64, hword]
  · next h => rw [value_shl, value_ofUInt64, UInt32.toNat_toUInt64, toNat_and_mask]

theorem negative_setCompact (nCompact : UInt32) :
    (setCompact nCompact).2.1 = compactNegative nCompact.toNat := by
  have hword := toNat_compactWord nCompact
  rw [Bool.eq_iff_iff, compactNegative_iff, ← compactWord_ne_zero, ← hword, ← and_sign_ne_zero]
  unfold setCompact
  dsimp only
  rw [Bool.and_eq_true, bne_iff_ne, bne_iff_ne, Ne, ← UInt32.toNat_inj]
  rfl

theorem overflow_setCompact (nCompact : UInt32) :
    (setCompact nCompact).2.2 = compactOverflow nCompact.toNat := by
  have hsize : (nCompact >>> 24).toNat = compactSize nCompact.toNat :=
    toNat_shr (by decide : 24 < 32)
  have hword := toNat_compactWord nCompact
  unfold setCompact compactOverflow
  dsimp only
  rw [← hword, hsize]
  congr 1
  rw [Bool.eq_iff_iff, bne_iff_ne, decide_eq_true_eq, Ne, ← UInt32.toNat_inj]
  rfl

/-! ## `GetCompact` -/

theorem toNat_leadingWord (a : BaseUint 8) :
    ((if byteSize a.value ≤ 3 then
      (a.getLow64 <<< UInt64.ofNat (8 * (3 - byteSize a.value))).toUInt32
      else (a.shr (8 * (byteSize a.value - 3))).getLow64.toUInt32) : UInt32).toNat =
    mantissa 256 (256 ^ 3) a.value (byteSize a.value) := by
  have hlt := mantissa_byteSize_lt a.value
  split
  · next h =>
      have hcount : (UInt64.ofNat (8 * (3 - byteSize a.value))).toNat % 64 =
          8 * (3 - byteSize a.value) := by
        rw [UInt64.toNat_ofNat']
        omega
      rw [mantissa_small h] at hlt ⊢
      rw [UInt64.toNat_toUInt32, UInt64.toNat_shiftLeft, hcount, Nat.shiftLeft_eq,
        value_getLow64, Nat.mod_mul_mod, Nat.mod_mod_of_dvd _ (by decide)]
      exact Nat.mod_eq_of_lt (by omega)
  · next h =>
      rw [mantissa_large h] at hlt ⊢
      rw [UInt64.toNat_toUInt32, value_getLow64, value_shr, Nat.mod_mod_of_dvd _ (by decide)]
      exact Nat.mod_eq_of_lt (by omega)

/-- **Room for the sign**: a mantissa that has its bit set is divided, and the size is one more. -/
theorem exists_stored {n : Nat} {w : UInt32}
    (hword : w.toNat = mantissa 256 (256 ^ 3) n (byteSize n)) :
    ∃ m : UInt32,
      (if w &&& 0x00800000 ≠ 0 then (w >>> 8, byteSize n + 1) else (w, byteSize n)) =
        (m, storedSize n) ∧ m.toNat = storedMantissa n := by
  have hlt := mantissa_byteSize_lt n
  have hsign := and_sign_ne_zero w
  rw [hword] at hsign
  have hshift : (w >>> 8).toNat = w.toNat / 2 ^ 8 := toNat_shr (by decide : 8 < 32)
  unfold storedMantissa storedSize
  split
  · next h =>
      have hset := hsign.mp h
      rw [if_neg (by omega), mantissa_succ, ← hword]
      exact ⟨_, rfl, hshift⟩
  · next h =>
      have hclear := mt hsign.mpr h
      rw [if_pos (by omega)]
      exact ⟨w, rfl, hword⟩

theorem toNat_packed {m : UInt32} {nSize : Nat} (hm : m.toNat < 2 ^ 24) (hsize : nSize < 256) :
    (m ||| UInt32.ofNat nSize <<< 24).toNat = 2 ^ 24 * nSize + m.toNat := by
  have hhigh : (UInt32.ofNat nSize <<< 24).toNat = 2 ^ 24 * nSize := by
    rw [UInt32.toNat_shiftLeft, UInt32.toNat_ofNat']
    change (_ % _) <<< 24 % _ = _
    rw [Nat.shiftLeft_eq]
    omega
  rw [UInt32.toNat_or, hhigh, Nat.or_comm, ← Nat.two_pow_add_eq_or_of_lt hm]

/-- **The assertions hold**, and the words make the compact number. -/
theorem getCompact_eq (a : BaseUint 8) (fNegative : Bool) : ∃ nCompact : UInt32,
    a.getCompact fNegative = some nCompact ∧
      nCompact.toNat = BitBlocks.getCompact a.value fNegative := by
  have hbits : (a.bits + 7) / 8 = byteSize a.value := by rw [bits_eq, byteSize_eq]
  have hsize : byteSize a.value ≤ 32 := byteSize_le a.value_lt
  have hword := toNat_leadingWord a
  unfold getCompact
  dsimp only
  rw [hbits]
  generalize (if byteSize a.value ≤ 3 then
      (a.getLow64 <<< UInt64.ofNat (8 * (3 - byteSize a.value))).toUInt32
      else (a.shr (8 * (byteSize a.value - 3))).getLow64.toUInt32 : UInt32) = w at hword ⊢
  obtain ⟨m, hparts, hm⟩ := exists_stored hword
  have hsmall : m.toNat < 2 ^ 23 := by
    rw [hm]
    exact storedMantissa_lt a.value
  have hstored : storedSize a.value ≤ 33 := Nat.le_trans (storedSize_le a.value) (by omega)
  have hpacked : (m ||| UInt32.ofNat (storedSize a.value) <<< 24).toNat =
      2 ^ 24 * storedSize a.value + storedMantissa a.value := by
    rw [toNat_packed (by omega) (by omega), hm]
  have hmasked : ((m ||| UInt32.ofNat (storedSize a.value) <<< 24) &&& 0x007fffff != 0) =
      (storedMantissa a.value != 0) := by
    rw [Bool.eq_iff_iff, bne_iff_ne, bne_iff_ne, Ne, ← UInt32.toNat_inj, toNat_and_mask, hpacked,
      UInt32.toNat_zero]
    omega
  have hassert : ¬ (m &&& ~~~0x007fffff ≠ 0 ∨ ¬ storedSize a.value < 256) := by
    rw [and_not_mask hsmall]
    rintro (h | h)
    · exact h rfl
    · omega
  simp only [hparts]
  rw [if_neg hassert, hmasked]
  refine ⟨_, rfl, ?_⟩
  rw [BitBlocks.getCompact_eq, UInt32.toNat_or, hpacked, Nat.mul_comm (storedSize a.value),
    Nat.add_comm (storedMantissa a.value)]
  cases fNegative && storedMantissa a.value != 0 with
  | true =>
    rw [if_pos rfl, if_pos rfl]
    exact or_sign (by rw [← hm]; exact hsmall)
  | false =>
    rw [if_neg Bool.false_ne_true, if_neg Bool.false_ne_true, UInt32.toNat_zero, Nat.or_zero,
      Nat.add_zero]

/--
**The compact format.** Decoding gives the mantissa times `256 ^ (size - 3)`, its fraction
dropped, in 256 bits; overflow and sign are reported for just the numbers that do not fit and
those that are not zero. Encoding keeps the leading bits of a number, 15 of them at least.
-/
theorem compact_format : (∀ nCompact : UInt32, (setCompact nCompact).1.value =
        nCompact.toNat % 2 ^ 23 * 256 ^ (nCompact.toNat / 2 ^ 24) / 256 ^ 3 % 2 ^ 256 ∧
      ((setCompact nCompact).2.2 = true ↔
        2 ^ 256 * 256 ^ 3 ≤ nCompact.toNat % 2 ^ 23 * 256 ^ (nCompact.toNat / 2 ^ 24)) ∧
      ((setCompact nCompact).2.1 = true ↔ nCompact.toNat / 2 ^ 23 % 2 = 1 ∧
        256 ^ 3 ≤ nCompact.toNat % 2 ^ 23 * 256 ^ (nCompact.toNat / 2 ^ 24))) ∧
    ∀ x : BaseUint 8, (∀ fNegative, (x.getCompact fNegative).isSome = true) ∧
      ∃ nCompact, x.getCompact false = some nCompact ∧ (setCompact nCompact).1.value ≤ x.value ∧
        (x.value = 0 ∨ (x.value - (setCompact nCompact).1.value) * 2 ^ 15 < x.value) ∧
        (∀ m j, m < 2 ^ 15 → x.value = m * 2 ^ j → (setCompact nCompact).1.value = x.value) ∧
        (setCompact nCompact).1.getCompact false = some nCompact := by
  constructor
  · intro nCompact
    refine ⟨?_, ?_, ?_⟩
    · rw [value_setCompact]
      exact setCompact_eq _
    · rw [overflow_setCompact, compactOverflow_iff, compactValue, restored,
        Nat.le_div_iff_mul_le (by decide)]
    · rw [negative_setCompact, compactNegative_iff, and_comm, ← Nat.pos_iff_ne_zero, compactValue,
        restored, Nat.div_pos_iff]
      exact and_congr_right fun _ => and_iff_right (by decide)
  · intro x
    constructor
    · intro fNegative
      obtain ⟨nCompact, hsome, -⟩ := x.getCompact_eq fNegative
      rw [hsome, Option.isSome_some]
    · obtain ⟨nCompact, hsome, hvalue⟩ := x.getCompact_eq false
      have hdecoded : (setCompact nCompact).1.value =
          compactValue (BitBlocks.getCompact x.value false) := by
        rw [value_setCompact, hvalue, setCompact_getCompact x.value_lt]
      refine ⟨nCompact, hsome, ?_, ?_, ?_, ?_⟩
      · rw [hdecoded]
        exact compactValue_getCompact_le _
      · rw [hdecoded]
        rcases Nat.eq_zero_or_pos x.value with hzero | hpos
        · exact Or.inl hzero
        · exact Or.inr (compactValue_getCompact_error hpos)
      · intro m j hm hx
        rw [hdecoded, hx]
        exact compactValue_getCompact_exact (Nat.lt_trans hm (by decide))
      · obtain ⟨nCompact', hsome', hvalue'⟩ := (setCompact nCompact).1.getCompact_eq false
        rw [hdecoded, getCompact_compactValue, ← hvalue] at hvalue'
        rw [hsome', UInt32.toNat_inj.mp hvalue']

/-- A number of 15 bits and zeros behind them is kept. -/
theorem compact_format_exact : ∃ nCompact, (ofUInt64 0x7fff0000).getCompact false = some nCompact ∧
    (setCompact nCompact).1.value = 0x7fff0000 := by
  obtain ⟨nCompact, hsome, -, -, hexact, -⟩ := (compact_format.2 (ofUInt64 0x7fff0000)).2
  have hvalue : (ofUInt64 0x7fff0000 : BaseUint 8).value = 0x7fff * 2 ^ 16 := value_ofUInt64 _
  exact ⟨nCompact, hsome, (hexact 0x7fff 16 (by decide) hvalue).trans hvalue⟩

/-- The bit of the sign is set and the mantissa is not zero, but all of it is shifted out. -/
theorem negative_shiftedOut : ¬ ∀ nCompact : UInt32, (setCompact nCompact).2.1 = true ↔
    nCompact.toNat / 2 ^ 23 % 2 = 1 ∧ nCompact.toNat % 2 ^ 23 ≠ 0 := by
  intro h
  have hnegative := (h 0x01803456).mpr (by decide)
  exact absurd hnegative (by decide)

/-! ## `GetBlockProof` -/

/-- **The division is not by zero**, and the words make the block proof. -/
theorem value_getBlockProof (nBits : UInt32) : (getBlockProof nBits).map value =
    .ok (BitBlocks.getBlockProof nBits.toNat) := by
  have hone : (ofUInt64 1 : BaseUint 8).value = 1 := value_ofUInt64 1
  have hcond : ((setCompact nBits).2.1 || (setCompact nBits).2.2 ||
      (setCompact nBits).1.equalTo 0) = (compactNegative nBits.toNat ||
      compactOverflow nBits.toNat || decide (BitBlocks.setCompact nBits.toNat = 0)) := by
    rw [negative_setCompact, overflow_setCompact, ← value_setCompact]
    congr 1
    rw [Bool.eq_iff_iff, equalTo_iff, decide_eq_true_eq]
    rfl
  unfold getBlockProof BitBlocks.getBlockProof
  dsimp only
  rw [hcond]
  split
  · exact congrArg Except.ok (value_ofUInt64 0)
  · next h =>
      rw [Bool.or_eq_true, Bool.or_eq_true, not_or, not_or] at h
      have hlt := succ_setCompact_lt (Bool.eq_false_iff.mpr h.1.2)
      rw [← value_setCompact] at hlt ⊢
      generalize (setCompact nBits).1 = bnTarget at hlt ⊢
      change bnTarget.value + 1 < (2 ^ 256 : Nat) at hlt
      have hdivisor : (bnTarget.add (ofUInt64 1)).value = (bnTarget.value + 1) % 2 ^ 256 := by
        rw [value_add, hone]
      have hcomplement : bnTarget.complement.value = 2 ^ 256 - 1 - bnTarget.value := by
        have hsum := bnTarget.value_complement
        omega
      have hdiv := div_eq bnTarget.complement (bnTarget.add (ofUInt64 1))
      rw [hdivisor, hcomplement, if_neg (by omega)] at hdiv
      cases hq : bnTarget.complement.div (bnTarget.add (ofUInt64 1)) with
      | error e =>
        rw [hq] at hdiv
        cases hdiv
      | ok q =>
        rw [hq] at hdiv
        have hvalue : (q.add (ofUInt64 1)).value = (q.value + 1) % 2 ^ 256 := by
          rw [value_add, hone]
        rw [Except.ok.inj hdiv] at hvalue
        exact congrArg Except.ok hvalue

/--
**Arithmetic modulo `2 ^ 256`.** The operators on eight words compute sums, differences,
products, quotients, shifts, lengths and the order of the numbers; `GetBlockProof` is
`2 ^ 256 / (bnTarget + 1)` for every target it accepts, and does not divide by zero.
-/
theorem operators_eq (a b : BaseUint 8) : (a.add b).value = (a.value + b.value) % 2 ^ 256 ∧
    ((a.sub b).value : Int) = ((a.value : Int) - b.value) % 2 ^ 256 ∧
    (∀ b32 : UInt32, (a.mulWord b32).value = a.value * b32.toNat % 2 ^ 256) ∧
    (a.mul b).value = a.value * b.value % 2 ^ 256 ∧
    a.increment.value = (a.value + 1) % 2 ^ 256 ∧
    (a.decrement.value : Int) = ((a.value : Int) - 1) % 2 ^ 256 ∧
    (a.div b).map value =
      (if b.value = 0 then .error "Division by zero" else .ok (a.value / b.value)) ∧
    (∀ shift, (a.shl shift).value = a.value * 2 ^ shift % 2 ^ 256) ∧
    (∀ shift, (a.shr shift).value = a.value / 2 ^ shift) ∧
    a.bits = Nat.size a.value ∧
    a.compareTo b = (if a.value < b.value then -1 else if a.value > b.value then 1 else 0) ∧
    ∀ nBits : UInt32, (getBlockProof nBits).map value =
      .ok (if (setCompact nBits).2.1 = true ∨ (setCompact nBits).2.2 = true ∨
        (setCompact nBits).1.value = 0 then 0
      else 2 ^ 256 / ((setCompact nBits).1.value + 1)) := by
  have hsub : ((a.sub b).value : Int) = ((a.value : Int) - b.value) % 2 ^ 256 := by
    have hb := b.value_lt
    rw [value_sub]
    omega
  have hdecrement : (a.decrement.value : Int) = ((a.value : Int) - 1) % 2 ^ 256 := by
    have hlt := a.decrement.value_lt
    have hnext := a.value_decrement
    omega
  have hproof : ∀ nBits : UInt32, (getBlockProof nBits).map value =
      .ok (if (setCompact nBits).2.1 = true ∨ (setCompact nBits).2.2 = true ∨
        (setCompact nBits).1.value = 0 then 0
      else 2 ^ 256 / ((setCompact nBits).1.value + 1)) := by
    intro nBits
    rw [value_getBlockProof, getBlockProof_eq, negative_setCompact, overflow_setCompact,
      value_setCompact]
  exact ⟨a.value_add b, hsub, a.value_mulWord, a.value_mul b, a.value_increment, hdecrement,
    a.div_eq b, a.value_shl, a.value_shr, a.bits_eq, a.compareTo_eq b, hproof⟩

end BaseUint

end BitBlocks
