import Mathlib.Data.Nat.Bitwise
import BitBlocks.Script.Script
import BitBlocks.Lib.Wrap

/-!
# Numbers on the stack (`CScriptNum`)

Operands are at most four bytes, results may be longer: an element is little
endian with the sign in the last bit. `CScriptNum` holds an `int64_t`; the
arithmetic of the interpreter stays far inside that range (`natAbs_setVch_lt`).
-/

namespace BitBlocks

namespace CScriptNum

/-- `scriptnum_error`, with the operand it is about. -/
inductive Error
  /-- "script number overflow" -/
  | overflow (vch : Valtype)
  /-- "non-minimally encoded script number" -/
  | nonMinimal (vch : Valtype)
deriving DecidableEq, Repr

def nMaxNumSize : Nat := 4

/-- The bytes as a number, the first the lowest. -/
def leValue : List UInt8 → Nat
  | [] => 0
  | b :: bs => b.toNat + 256 * leValue bs

/-- If the most significant bit is set, remove it and return a negative. -/
def setVch (vch : Valtype) : Int :=
  if vch = [] then 0
  else if vch.getLastD 0 &&& 0x80 ≠ 0 then
    -((leValue vch : Int) - 0x80 * 256 ^ (vch.length - 1))
  else leValue vch

/-- The most significant byte is not needless, which rejects negative zero too. -/
def isMinimal (vch : Valtype) : Bool := !(decide (0 < vch.length) && vch.getLastD 0 &&& 0x7f == 0 &&
    (decide (vch.length ≤ 1) || vch.getD (vch.length - 2) 0 &&& 0x80 == 0))

def ofVch (vch : Valtype) (fRequireMinimal : Bool) : Except Error Int :=
  if vch.length > nMaxNumSize then .error (.overflow vch)
  else if fRequireMinimal && !isMinimal vch then .error (.nonMinimal vch)
  else .ok (setVch vch)

def getint (m_value : Int) : Int :=
  if m_value > 2 ^ 31 - 1 then 2 ^ 31 - 1 else if m_value < -2 ^ 31 then -2 ^ 31 else m_value

/-- The bytes of a `uint64_t` up to the last that is not zero, at most `k`. -/
def leBytes : (k absvalue : Nat) → List UInt8
  | 0, _ => []
  | k + 1, absvalue =>
    if absvalue = 0 then [] else UInt8.ofNat (absvalue % 256) :: leBytes k (absvalue / 256)

/-- The sign goes into the last bit, in a byte of its own when that bit is taken. -/
def serialize (value : Int) : Valtype :=
  if value = 0 then []
  else
    let result := leBytes 8 value.natAbs
    if result.getLastD 0 &&& 0x80 ≠ 0 then result ++ [if value < 0 then 0x80 else 0]
    else if value < 0 then result.dropLast ++ [result.getLastD 0 ||| 0x80]
    else result

theorem length_leBytes (k absvalue : Nat) : (leBytes k absvalue).length ≤ k := by
  induction k generalizing absvalue with
  | zero => exact Nat.le_refl 0
  | succ k ih =>
    rw [leBytes]
    split
    · exact Nat.zero_le _
    · exact Nat.succ_le_succ (ih _)

/-- **A result is short.** -/
theorem length_serialize (value : Int) : (serialize value).length ≤ 9 := by
  have hlen := length_leBytes 8 value.natAbs
  unfold serialize
  dsimp only
  split_ifs <;> simp <;> omega

theorem leValue_lt (bs : List UInt8) : leValue bs < 256 ^ bs.length := by
  induction bs with
  | nil => exact Nat.one_pos
  | cons b bs ih =>
    have hb := b.toNat_lt
    rw [leValue, List.length_cons, Nat.pow_succ]
    omega

variable {vch : Valtype} {fRequireMinimal : Bool}

/-- **An operand is small**: arithmetic on operands cannot leave an `int64_t`. -/
theorem natAbs_setVch_lt (h : vch.length ≤ nMaxNumSize) : (setVch vch).natAbs < 2 ^ 33 := by
  have hlt := leValue_lt vch
  have hpow : 256 ^ vch.length ≤ 256 ^ 4 := Nat.pow_le_pow_right (by omega) h
  have hpow' : 256 ^ (vch.length - 1) ≤ 256 ^ 3 := Nat.pow_le_pow_right (by omega) (by
    unfold nMaxNumSize at h
    omega)
  have hcast : ((256 ^ (vch.length - 1) : Nat) : Int) = 256 ^ (vch.length - 1) := by push_cast; rfl
  have hnonneg : (0 : Int) ≤ 256 ^ (vch.length - 1) := Int.pow_nonneg (by omega)
  unfold setVch
  split_ifs
  · decide
  · omega
  · omega

theorem ofVch_lt {n : Int} (h : ofVch vch fRequireMinimal = .ok n) : n.natAbs < 2 ^ 33 := by
  unfold ofVch at h
  split_ifs at h with hlen
  obtain rfl := Except.ok.inj h
  exact natAbs_setVch_lt (by omega)

theorem of_ofVch_error {e : Error} (h : ofVch vch fRequireMinimal = .error e) :
    (e = .overflow vch ∧ nMaxNumSize < vch.length) ∨
      (e = .nonMinimal vch ∧ fRequireMinimal = true ∧ isMinimal vch = false) := by
  unfold ofVch at h
  split_ifs at h with hlen hmin
  · exact Or.inl ⟨(Except.error.inj h).symm, hlen⟩
  · simp only [Bool.and_eq_true, Bool.not_eq_true'] at hmin
    exact Or.inr ⟨(Except.error.inj h).symm, hmin⟩

end CScriptNum

end BitBlocks

/-!
## Canonical numbers

`CScriptNum` writes a number with as few bytes as it can, and reads it back; a reader that
requires minimal operands accepts just what it would write. The last byte carries the sign, so
a number whose highest bit falls on it takes one byte more, and the reader has to allow that
byte just then. Read in 64 bits, as `set_vch` does it, a number of eight bytes is the same.
-/

namespace BitBlocks

open Wrap

namespace CScriptNum

/-! ## The last byte -/

theorem toNat_and_sign (b : UInt8) : (b &&& 0x80).toNat = if 128 ≤ b.toNat then 128 else 0 := by
  have hb := b.toNat_lt
  have hand : (b &&& 0x80).toNat = (b.toNat.testBit 7).toNat * 2 ^ 7 := by
    rw [UInt8.toNat_and]
    exact Nat.and_two_pow b.toNat 7
  rw [hand, Nat.testBit_eq_decide_div_mod_eq]
  split
  · next h =>
      have hdiv : b.toNat / 2 ^ 7 % 2 = 1 := by omega
      rw [decide_eq_true hdiv]
      rfl
  · next h =>
      have hdiv : ¬ b.toNat / 2 ^ 7 % 2 = 1 := by omega
      rw [decide_eq_false hdiv]
      rfl

variable {b : UInt8} {k m i : Nat} {bs : List UInt8} {n : Int} {vch : Valtype}

theorem and_sign_ne_zero : b &&& 0x80 ≠ 0 ↔ 128 ≤ b.toNat := by
  rw [Ne, ← UInt8.toNat_inj, toNat_and_sign, UInt8.toNat_zero]
  split <;> omega

theorem and_magnitude_eq_zero : b &&& 0x7f = 0 ↔ b.toNat % 128 = 0 := by
  have hand : (b &&& 0x7f).toNat = b.toNat % 2 ^ 7 := by
    rw [UInt8.toNat_and]
    exact Nat.and_two_pow_sub_one_eq_mod b.toNat 7
  rw [← UInt8.toNat_inj, hand, UInt8.toNat_zero]
  exact Iff.rfl

theorem toNat_or_sign (h : b.toNat < 128) : (b ||| 0x80).toNat = b.toNat + 128 := by
  have hor : 128 * 1 + b.toNat = 128 * 1 ||| b.toNat :=
    Nat.two_pow_add_eq_or_of_lt (by omega : b.toNat < 2 ^ 7) 1
  rw [UInt8.toNat_or, Nat.or_comm, Nat.add_comm]
  exact hor.symm

/-! ## The bytes of a magnitude -/

theorem leValue_append (bs bs' : List UInt8) :
    leValue (bs ++ bs') = leValue bs + 256 ^ bs.length * leValue bs' := by
  induction bs with
  | nil => rw [List.nil_append, leValue, List.length_nil, Nat.pow_zero, Nat.one_mul, Nat.zero_add]
  | cons b bs ih =>
    rw [List.cons_append, leValue, ih, leValue, List.length_cons, Nat.pow_succ]
    ring

theorem leValue_concat (bs : List UInt8) (b : UInt8) :
    leValue (bs ++ [b]) = leValue bs + 256 ^ bs.length * b.toNat := by
  rw [leValue_append]
  rfl

theorem leValue_concat_pos (h : b.toNat ≠ 0) (bs : List UInt8) : leValue (bs ++ [b]) ≠ 0 := by
  rw [leValue_concat]
  have hpos : 0 < 256 ^ bs.length * b.toNat :=
    Nat.mul_pos (Nat.pow_pos (by decide)) (Nat.pos_of_ne_zero h)
  omega

/-- **Reading the bytes** that are written for a number. -/
theorem leValue_leBytes (h : m < 256 ^ k) : leValue (leBytes k m) = m := by
  induction k generalizing m with
  | zero =>
    rw [Nat.pow_zero, Nat.lt_one_iff] at h
    rw [h]
    rfl
  | succ k ih =>
    rw [leBytes]
    split
    · next hzero => rw [hzero]; rfl
    · rw [leValue, ih (by rw [Nat.pow_succ] at h; omega), UInt8.toNat_ofNat']
      omega

theorem lt_of_length_leBytes (h : (leBytes k m).length < k) : m < 256 ^ k := by
  induction k generalizing m with
  | zero => exact absurd h (Nat.not_lt_zero _)
  | succ k ih =>
    rw [leBytes] at h
    split at h
    · next hzero => rw [hzero]; exact Nat.pow_pos (by decide)
    · have hlt := ih (Nat.lt_of_succ_lt_succ h)
      rw [Nat.pow_succ]
      omega

theorem leBytes_eq_concat (hm : m ≠ 0) (h : m < 256 ^ k) :
    ∃ bs b, leBytes k m = bs ++ [b] ∧ b.toNat ≠ 0 := by
  induction k generalizing m with
  | zero =>
    rw [Nat.pow_zero, Nat.lt_one_iff] at h
    exact absurd h hm
  | succ k ih =>
    rw [leBytes, if_neg hm]
    by_cases hrest : m / 256 = 0
    · refine ⟨[], UInt8.ofNat (m % 256), ?_, ?_⟩
      · have hnil : leBytes k 0 = [] := by
          cases k with
          | zero => rfl
          | succ k => rw [leBytes, if_pos rfl]
        rw [hrest, hnil]
        rfl
      · rw [UInt8.toNat_ofNat']
        omega
    · obtain ⟨bs, b, heq, hb⟩ := ih hrest (by rw [Nat.pow_succ] at h; omega)
      exact ⟨UInt8.ofNat (m % 256) :: bs, b, by rw [heq]; rfl, hb⟩

/-- **Writing the number** that some bytes are, if the last is not zero. -/
theorem leBytes_leValue (hb : b.toNat ≠ 0) (h : (bs ++ [b]).length ≤ k) :
    leBytes k (leValue (bs ++ [b])) = bs ++ [b] := by
  have hnonzero := leValue_concat_pos hb
  induction bs generalizing k with
  | nil =>
    obtain ⟨k, rfl⟩ : ∃ j, k = j + 1 := ⟨k - 1, by simp at h; omega⟩
    have hvalue : leValue ([] ++ [b]) = b.toNat := by
      rw [leValue_concat]
      simp [leValue]
    have hlt := b.toNat_lt
    have hdiv : b.toNat / 256 = 0 := by omega
    have hmod : b.toNat % 256 = b.toNat := by omega
    have hnil : leBytes k 0 = [] := by
      cases k with
      | zero => rfl
      | succ k => rw [leBytes, if_pos rfl]
    rw [hvalue, leBytes, if_neg hb, hdiv, hmod, hnil, UInt8.ofNat_toNat]
    rfl
  | cons c bs ih =>
    obtain ⟨k, rfl⟩ : ∃ j, k = j + 1 := ⟨k - 1, by simp at h; omega⟩
    have hc := c.toNat_lt
    have hrest := ih (k := k) (by simp at h ⊢; omega)
    have hne := hnonzero (c :: bs)
    rw [List.cons_append, leValue] at hne ⊢
    have hdiv : (c.toNat + 256 * leValue (bs ++ [b])) / 256 = leValue (bs ++ [b]) := by omega
    have hmod : (c.toNat + 256 * leValue (bs ++ [b])) % 256 = c.toNat := by omega
    rw [leBytes, if_neg hne, hdiv, hmod, hrest, UInt8.ofNat_toNat]

/-! ## An element that is not empty -/

theorem getLastD_concat (ws : List UInt8) (b c : UInt8) : (ws ++ [b]).getLastD c = b := by
  rw [List.getLastD_eq_getLast?, List.getLast?_concat]
  rfl

/-- **What an element is**: the last byte gives the sign, and what is left of it the highest
digit. -/
theorem setVch_concat (ws : List UInt8) (b : UInt8) : setVch (ws ++ [b]) =
      if 128 ≤ b.toNat then -((leValue ws + 256 ^ ws.length * (b.toNat - 128) : Nat) : Int)
      else ((leValue ws + 256 ^ ws.length * b.toNat : Nat) : Int) := by
  have hne : ws ++ [b] ≠ [] := List.append_ne_nil_of_right_ne_nil ws (List.cons_ne_nil b [])
  rw [setVch, if_neg hne, getLastD_concat, leValue_concat, List.length_append,
    List.length_singleton,
    Nat.add_sub_cancel]
  by_cases hsign : 128 ≤ b.toNat
  · rw [if_pos (and_sign_ne_zero.mpr hsign), if_pos hsign]
    push_cast [hsign]
    ring
  · rw [if_neg (fun h => hsign (and_sign_ne_zero.mp h)), if_neg hsign]

/-- **What is minimal**: the last byte holds a digit, or the one before has no room for the
sign. -/
theorem isMinimal_concat (ws : List UInt8) (b : UInt8) : isMinimal (ws ++ [b]) = true ↔
      b.toNat % 128 ≠ 0 ∨ ∃ us c, ws = us ++ [c] ∧ 128 ≤ c.toNat := by
  have hlen : (ws ++ [b]).length = ws.length + 1 := by
    rw [List.length_append, List.length_singleton]
  by_cases hdigit : b.toNat % 128 = 0
  · have hand := and_magnitude_eq_zero.mpr hdigit
    rcases List.eq_nil_or_concat ws with rfl | ⟨us, c, rfl⟩
    · simp [isMinimal, hdigit, hand]
    · have hbefore : (us ++ [c] ++ [b]).getD ((us ++ [c] ++ [b]).length - 2) 0 = c := by
        simp
      have hsign : c &&& 0x80 ≠ 0 ↔ 128 ≤ c.toNat := and_sign_ne_zero
      simp only [isMinimal, getLastD_concat, hand]
      simp [hdigit, hsign]
  · have hand : b &&& 0x7f ≠ 0 := fun h => hdigit (and_magnitude_eq_zero.mp h)
    simp [isMinimal, hdigit, hand]

/-! ## What is written -/

/-- **What `serialize` does with the bytes of a magnitude**: the last takes the sign, or there
is one more byte for it. -/
theorem serialize_eq (hb : b.toNat ≠ 0) (hlen : bs.length < 8)
    (hvalue : leValue (bs ++ [b]) = n.natAbs) :
    serialize n =
      if 128 ≤ b.toNat then bs ++ [b] ++ [if n < 0 then 0x80 else 0]
      else bs ++ [if n < 0 then b ||| 0x80 else b] := by
  have hn : n ≠ 0 := by
    rintro rfl
    exact leValue_concat_pos hb bs hvalue
  have hbytes : leBytes 8 n.natAbs = bs ++ [b] := by
    rw [← hvalue]
    refine leBytes_leValue hb ?_
    rw [List.length_append, List.length_singleton]
    exact hlen
  rw [serialize, if_neg hn]
  dsimp only
  rw [hbytes, getLastD_concat, List.dropLast_concat]
  by_cases hsign : 128 ≤ b.toNat
  · rw [if_pos hsign, if_pos (and_sign_ne_zero.mpr hsign)]
  · rw [if_neg hsign, if_neg (fun h => hsign (and_sign_ne_zero.mp h))]
    split <;> rfl

theorem exists_bytes (hn : n ≠ 0) (h : n.natAbs < 256 ^ 8) :
    ∃ bs b, b.toNat ≠ 0 ∧ bs.length < 8 ∧ leValue (bs ++ [b]) = n.natAbs := by
  obtain ⟨bs, b, heq, hb⟩ := leBytes_eq_concat (Int.natAbs_ne_zero.mpr hn) h
  refine ⟨bs, b, hb, ?_, by rw [← heq]; exact leValue_leBytes h⟩
  have hlen := length_leBytes 8 n.natAbs
  rw [heq, List.length_append, List.length_singleton] at hlen
  exact hlen

/-- **A number is read back.** -/
theorem setVch_serialize (h : n.natAbs < 256 ^ 8) : setVch (serialize n) = n := by
  by_cases hn : n = 0
  · rw [hn]
    rfl
  obtain ⟨bs, b, hb, hlen, hvalue⟩ := exists_bytes hn h
  rw [serialize_eq hb hlen hvalue]
  by_cases hsign : 128 ≤ b.toNat
  · rw [if_pos hsign, setVch_concat, hvalue]
    by_cases hneg : n < 0
    · rw [if_pos hneg, if_pos (by decide)]
      change -((n.natAbs + 256 ^ _ * 0 : Nat) : Int) = n
      omega
    · rw [if_neg hneg, if_neg (by decide)]
      change ((n.natAbs + 256 ^ _ * 0 : Nat) : Int) = n
      omega
  · rw [leValue_concat] at hvalue
    rw [if_neg hsign, setVch_concat]
    by_cases hneg : n < 0
    · rw [if_pos hneg, toNat_or_sign (Nat.lt_of_not_le hsign), if_pos (by omega),
        Nat.add_sub_cancel, hvalue]
      omega
    · rw [if_neg hneg, if_neg (by omega), hvalue]
      omega

/-- **What is written is minimal.** -/
theorem isMinimal_serialize (h : n.natAbs < 256 ^ 8) : isMinimal (serialize n) = true := by
  by_cases hn : n = 0
  · rw [hn]
    rfl
  obtain ⟨bs, b, hb, hlen, hvalue⟩ := exists_bytes hn h
  rw [serialize_eq hb hlen hvalue]
  by_cases hsign : 128 ≤ b.toNat
  · rw [if_pos hsign, isMinimal_concat]
    exact Or.inr ⟨bs, b, rfl, hsign⟩
  · rw [if_neg hsign, isMinimal_concat]
    left
    split
    · rw [toNat_or_sign (Nat.lt_of_not_le hsign)]
      omega
    · omega

theorem eq_sign (h : b.toNat % 128 = 0) : b = if 128 ≤ b.toNat then 0x80 else 0 := by
  have hb := b.toNat_lt
  split
  · next hsign =>
      refine UInt8.toNat_inj.mp ?_
      change b.toNat = 128
      omega
  · next hsign =>
      refine UInt8.toNat_inj.mp ?_
      change b.toNat = 0
      omega

theorem exists_digit (b : UInt8) : ∃ d : UInt8, d.toNat = b.toNat % 128 ∧
    b = if 128 ≤ b.toNat then d ||| 0x80 else d := by
  have hb := b.toNat_lt
  have hd : (UInt8.ofNat (b.toNat % 128)).toNat = b.toNat % 128 := by
    rw [UInt8.toNat_ofNat']
    omega
  refine ⟨UInt8.ofNat (b.toNat % 128), hd, UInt8.toNat_inj.mp ?_⟩
  split
  · rw [toNat_or_sign (by omega), hd]
    omega
  · rw [hd]
    omega

/-- **A minimal element is written back.** -/
theorem serialize_setVch (hmin : isMinimal vch = true) (hlen : vch.length ≤ 8) :
    serialize (setVch vch) = vch := by
  rcases List.eq_nil_or_concat' vch with rfl | ⟨ws, b, rfl⟩
  · rfl
  have hb := b.toNat_lt
  rw [List.length_append, List.length_singleton] at hlen
  rw [setVch_concat]
  by_cases hdigit : b.toNat % 128 ≠ 0
  · obtain ⟨d, hd, hbd⟩ := exists_digit b
    have hzero : d.toNat ≠ 0 := by omega
    have hpos := leValue_concat_pos hzero ws
    have hvalue := leValue_concat ws d
    by_cases hsign : 128 ≤ b.toNat
    · have hdb : b.toNat - 128 = d.toNat := by omega
      have hneg : -((leValue (ws ++ [d]) : Nat) : Int) < 0 := by omega
      have hwritten := serialize_eq hzero hlen (Int.natAbs_neg (leValue (ws ++ [d]) : Int)).symm
      rw [if_neg (by omega), if_pos hneg] at hwritten
      rw [if_pos hsign] at hbd ⊢
      rw [hdb, ← hvalue, hwritten, ← hbd]
    · have hneg : ¬ ((leValue (ws ++ [d]) : Nat) : Int) < 0 := by omega
      have hwritten := serialize_eq hzero hlen (Int.natAbs_natCast (leValue (ws ++ [d]))).symm
      rw [if_neg (by omega), if_neg hneg] at hwritten
      rw [if_neg hsign] at hbd ⊢
      rw [hbd, ← hvalue, hwritten]
  · obtain ⟨us, c, rfl, hc⟩ := ((isMinimal_concat ws b).mp hmin).resolve_left hdigit
    have hzero : c.toNat ≠ 0 := by omega
    have hpos := leValue_concat_pos hzero us
    have hlen' : us.length < 8 := by
      rw [List.length_append, List.length_singleton] at hlen
      omega
    have hsignByte := eq_sign (Decidable.of_not_not hdigit)
    by_cases hsign : 128 ≤ b.toNat
    · have hnone : b.toNat - 128 = 0 := by omega
      have hneg : -((leValue (us ++ [c]) : Nat) : Int) < 0 := by omega
      have hwritten := serialize_eq hzero hlen' (Int.natAbs_neg (leValue (us ++ [c]) : Int)).symm
      rw [if_pos hc, if_pos hneg] at hwritten
      rw [if_pos hsign] at hsignByte ⊢
      rw [hnone, Nat.mul_zero, Nat.add_zero, hwritten, ← hsignByte]
    · have hnone : b.toNat = 0 := by omega
      have hneg : ¬ ((leValue (us ++ [c]) : Nat) : Int) < 0 := by omega
      have hwritten := serialize_eq hzero hlen' (Int.natAbs_natCast (leValue (us ++ [c]))).symm
      rw [if_pos hc, if_neg hneg] at hwritten
      rw [if_neg hsign] at hsignByte ⊢
      rw [hnone, Nat.mul_zero, Nat.add_zero, hwritten, ← hsignByte]

/-! ## How long an element is -/

theorem length_serialize_le {j : Nat} (hj : j < 8) (h : n.natAbs < 128 * 256 ^ j) :
    (serialize n).length ≤ j + 1 := by
  by_cases hn : n = 0
  · rw [hn]
    exact Nat.zero_le _
  have hpow : 256 ^ j ≤ 256 ^ 7 := Nat.pow_le_pow_right (by omega) (by omega)
  obtain ⟨bs, b, hb, hlen, hvalue⟩ := exists_bytes hn (by omega)
  have hconcat := leValue_concat bs b
  rw [serialize_eq hb hlen hvalue]
  by_cases hsign : 128 ≤ b.toNat
  · -- The highest bit is taken, so a byte less is used for the number.
    have hlow : 256 ^ bs.length * 128 ≤ 256 ^ bs.length * b.toNat := Nat.mul_le_mul_left _ hsign
    have hshort : bs.length < j := (Nat.pow_lt_pow_iff_right (by decide : 1 < 256)).mp (by omega)
    rw [if_pos hsign, List.length_append, List.length_append, List.length_singleton,
      List.length_singleton]
    omega
  · have hlow : 256 ^ bs.length * 1 ≤ 256 ^ bs.length * b.toNat :=
      Nat.mul_le_mul_left _ (Nat.pos_of_ne_zero hb)
    have hshort : bs.length < j + 1 :=
      (Nat.pow_lt_pow_iff_right (by decide : 1 < 256)).mp (by rw [Nat.pow_succ]; omega)
    rw [if_neg hsign, List.length_append, List.length_singleton]
    omega

theorem natAbs_lt_of_length_serialize (h : (serialize n).length < 8) : n.natAbs < 256 ^ 8 := by
  refine lt_of_length_leBytes (Nat.lt_of_le_of_lt ?_ h)
  by_cases hn : n = 0
  · rw [hn]
    exact Nat.le_refl 0
  · rw [serialize, if_neg hn]
    dsimp only
    split
    · rw [List.length_append]
      exact Nat.le_add_right _ _
    · split
      · rw [List.length_append, List.length_dropLast, List.length_singleton]
        omega
      · exact Nat.le_refl _

/-! ## Sixty-four bits -/

/-- The bytes from the one with number `i` on, shifted to their places in `result`. -/
def orBytes (i : Nat) (result : UInt64) : List UInt8 → UInt64
  | [] => result
  | b :: bs => orBytes (i + 1) (result ||| b.toUInt64 <<< UInt64.ofNat (8 * i)) bs

/-- `set_vch`, as it is computed in an `int64_t`, for at most eight bytes. -/
def setVch64 (vch : Valtype) : Int :=
  if vch = [] then 0
  else
    let result := orBytes 0 0 vch
    if vch.getLastD 0 &&& 0x80 ≠ 0 then
      wrap64 (-wrap64 (result &&& ~~~(0x80 <<< UInt64.ofNat (8 * (vch.length - 1)))).toNat)
    else wrap64 result.toNat

theorem toNat_shiftLeft {x : UInt64} (hx : x.toNat < 256) (hi : i < 8) :
    (x <<< UInt64.ofNat (8 * i)).toNat = 256 ^ i * x.toNat := by
  have hpow : 256 ^ i = 2 ^ (8 * i) := by
    rw [Nat.pow_mul]
  have hle : 256 ^ i ≤ 256 ^ 7 := Nat.pow_le_pow_right (by decide) (by omega)
  have hmul : 256 ^ i * x.toNat ≤ 256 ^ 7 * x.toNat := Nat.mul_le_mul_right _ hle
  have hplace : 8 * i % 2 ^ 64 % 64 = 8 * i := by omega
  rw [UInt64.toNat_shiftLeft, UInt64.toNat_ofNat', hplace, Nat.shiftLeft_eq, ← hpow, Nat.mul_comm,
    Nat.mod_eq_of_lt (by omega)]

theorem toNat_orBytes {result : UInt64} {vch : List UInt8} (hi : i + vch.length ≤ 8)
    (hresult : result.toNat < 256 ^ i) :
    (orBytes i result vch).toNat = result.toNat + 256 ^ i * leValue vch := by
  induction vch generalizing i result with
  | nil => rw [orBytes, leValue, Nat.mul_zero, Nat.add_zero]
  | cons b bs ih =>
    have hb := b.toNat_lt
    rw [List.length_cons] at hi
    have hpow : 256 ^ i = 2 ^ (8 * i) := by
      rw [Nat.pow_mul]
    have hshift : (b.toUInt64 <<< UInt64.ofNat (8 * i)).toNat = 256 ^ i * b.toNat := by
      rw [toNat_shiftLeft (by rw [UInt8.toNat_toUInt64]; exact hb) (by omega),
        UInt8.toNat_toUInt64]
    have hor : (result ||| b.toUInt64 <<< UInt64.ofNat (8 * i)).toNat =
        result.toNat + 256 ^ i * b.toNat := by
      rw [UInt64.toNat_or, hshift, Nat.or_comm, hpow, Nat.add_comm]
      exact (Nat.two_pow_add_eq_or_of_lt (by rw [← hpow]; exact hresult) b.toNat).symm
    have hlt : result.toNat + 256 ^ i * b.toNat < 256 ^ (i + 1) := by
      have hle : 256 ^ i * (b.toNat + 1) ≤ 256 ^ i * 256 := Nat.mul_le_mul_left _ hb
      rw [Nat.mul_add] at hle
      rw [Nat.pow_succ]
      omega
    rw [orBytes, ih (by omega) (by rw [hor]; exact hlt), hor, leValue, Nat.pow_succ]
    ring

theorem and_mask {p w r : Nat} (hr : r < 2 ^ p) (hp : p < w) :
    (2 ^ p + r) &&& (2 ^ w - (2 ^ p + 1)) = r := by
  have hor : 2 ^ p * 1 + r = 2 ^ p * 1 ||| r := Nat.two_pow_add_eq_or_of_lt hr 1
  rw [Nat.mul_one] at hor
  refine Nat.eq_of_testBit_eq fun i => ?_
  rw [hor, Nat.testBit_and, Nat.testBit_or, Nat.testBit_two_pow,
    Nat.testBit_two_pow_sub_succ (Nat.pow_lt_pow_right (by decide) hp), Nat.testBit_two_pow]
  by_cases hi : i < p
  · have hne : ¬ p = i := by omega
    simp [hne, hi.trans hp]
  · have hhigh : r.testBit i = false :=
      Nat.testBit_lt_two_pow (hr.trans_le (Nat.pow_le_pow_right (by decide) (Nat.le_of_not_lt hi)))
    by_cases hne : p = i <;> simp [hne, hhigh]

theorem wrap64_natCast (h : k < 2 ^ 63) : wrap64 k = k := wrap64_of_range (by omega) (by omega)

theorem wrap64_neg_natCast (h : k < 2 ^ 63) : wrap64 (-(k : Int)) = -k :=
  wrap64_of_range (by omega) (by omega)

/-- **In 64 bits it is the same number**, for an element of eight bytes or less. -/
theorem setVch64_eq (hlen : vch.length ≤ 8) : setVch64 vch = setVch vch := by
  rcases List.eq_nil_or_concat' vch with rfl | ⟨ws, b, rfl⟩
  · rw [setVch64, if_pos rfl, setVch, if_pos rfl]
  have hb := b.toNat_lt
  have hws := leValue_lt ws
  have hne : ws ++ [b] ≠ [] := List.append_ne_nil_of_right_ne_nil ws (List.cons_ne_nil b [])
  have hresult : (orBytes 0 0 (ws ++ [b])).toNat = leValue ws + 256 ^ ws.length * b.toNat := by
    rw [toNat_orBytes (by omega) (by decide), leValue_concat, UInt64.toNat_zero]
    omega
  rw [setVch64, if_neg hne, getLastD_concat, setVch_concat, List.length_append,
    List.length_singleton, Nat.add_sub_cancel]
  rw [List.length_append, List.length_singleton] at hlen
  have hpow : 256 ^ ws.length ≤ 256 ^ 7 := Nat.pow_le_pow_right (by omega) (by omega)
  dsimp only
  by_cases hsign : 128 ≤ b.toNat
  · have hplace : 256 ^ ws.length * 128 = 2 ^ (8 * ws.length + 7) := by
      rw [Nat.pow_add, Nat.pow_mul]
    have hmask : (~~~((0x80 : UInt64) <<< UInt64.ofNat (8 * ws.length))).toNat =
        2 ^ 64 - (2 ^ (8 * ws.length + 7) + 1) := by
      rw [UInt64.toNat_not, toNat_shiftLeft (by decide) (by omega), ← hplace, Nat.add_comm,
        ← Nat.sub_sub]
      rfl
    have hsplit : 256 ^ ws.length * b.toNat =
        256 ^ ws.length * 128 + 256 ^ ws.length * (b.toNat - 128) := by
      rw [← Nat.mul_add, Nat.add_sub_cancel' hsign]
    have hrest : 256 ^ ws.length * (b.toNat - 128 + 1) ≤ 256 ^ ws.length * 128 :=
      Nat.mul_le_mul_left _ (by omega)
    rw [Nat.mul_add] at hrest
    have hcleared : (orBytes 0 0 (ws ++ [b]) &&&
        ~~~((0x80 : UInt64) <<< UInt64.ofNat (8 * ws.length))).toNat =
          leValue ws + 256 ^ ws.length * (b.toNat - 128) := by
      rw [UInt64.toNat_and, hmask, hresult, hsplit, Nat.add_left_comm, hplace]
      exact and_mask (by omega) (by omega)
    have hlt : leValue ws + 256 ^ ws.length * (b.toNat - 128) < 2 ^ 63 := by omega
    rw [if_pos (and_sign_ne_zero.mpr hsign), if_pos hsign, hcleared, wrap64_natCast hlt,
      wrap64_neg_natCast hlt]
  · have hhigh : 256 ^ ws.length * (b.toNat + 1) ≤ 256 ^ ws.length * 128 :=
      Nat.mul_le_mul_left _ (by omega)
    rw [Nat.mul_add] at hhigh
    have hlt : leValue ws + 256 ^ ws.length * b.toNat < 2 ^ 63 := by omega
    rw [if_neg (fun h => hsign (and_sign_ne_zero.mp h)), if_neg hsign, hresult, wrap64_natCast hlt]

/-! ## Operands -/

/-- **What is accepted**, if minimal operands are required. -/
theorem ofVch_eq_ok_iff :
    ofVch vch true = .ok n ↔ vch.length ≤ nMaxNumSize ∧ vch = serialize n := by
  constructor
  · intro h
    unfold ofVch at h
    split_ifs at h with hlen hmin
    obtain rfl := Except.ok.inj h
    have hminimal : isMinimal vch = true := by
      rw [Bool.true_and, Bool.not_eq_true', Bool.not_eq_false] at hmin
      exact hmin
    have hshort := Nat.le_of_not_lt hlen
    exact ⟨hshort, (serialize_setVch hminimal (hshort.trans (by decide))).symm⟩
  · rintro ⟨hlen, rfl⟩
    have hn := natAbs_lt_of_length_serialize (hlen.trans_lt (by decide))
    rw [ofVch, if_neg (Nat.not_lt.mpr hlen), isMinimal_serialize hn, Bool.not_true, Bool.and_false,
      if_neg Bool.false_ne_true, setVch_serialize hn]

theorem fits_of_ofVch {v w : Valtype} {f g : Bool} {m : Int} (hm : ofVch v f = .ok m)
    (hn : ofVch w g = .ok n) : Fits (m + n) ∧ Fits (m - n) := by
  have hm' := ofVch_lt hm
  have hn' := ofVch_lt hn
  unfold Fits
  omega

/-- **Numbers are canonical.** A reader that requires minimal operands accepts just what would
be written, if that has four bytes or less, and every number of 31 bits has; every number of 63
bits is read back; and two operands can be added and subtracted in 64 bits. -/
theorem serialize_canonical : (∀ v n, ofVch v true = .ok n ↔ v.length ≤ 4 ∧ v = serialize n) ∧
    (∀ n : Int, n.natAbs < 2 ^ 31 → (serialize n).length ≤ 4 ∧ ofVch (serialize n) true = .ok n) ∧
    (∀ n : Int, -2 ^ 63 < n → n < 2 ^ 63 → (serialize n).length ≤ 8 ∧ setVch64 (serialize n) = n) ∧
    ∀ v w f g m n, ofVch v f = .ok m → ofVch w g = .ok n → Fits (m + n) ∧ Fits (m - n) := by
  refine ⟨fun v n => ofVch_eq_ok_iff, fun n hn => ?_, fun n hlow hhigh => ?_,
    fun v w f g m n hm hn => fits_of_ofVch hm hn⟩
  · have hlen := length_serialize_le (j := 3) (by decide) (hn.trans_eq (by decide))
    exact ⟨hlen, ofVch_eq_ok_iff.mpr ⟨hlen, rfl⟩⟩
  · have hn : n.natAbs < 128 * 256 ^ 7 := by omega
    have hlen := length_serialize_le (j := 7) (by decide) hn
    refine ⟨hlen, ?_⟩
    rw [setVch64_eq hlen]
    exact setVch_serialize (hn.trans (by decide))

/-- -255 is written with a byte for the sign, is accepted, and can be doubled. -/
theorem serialize_canonical_borderline :
    (ofVch [0xff, 0x80] true = .ok (-255) ↔ [0xff, 0x80] = serialize (-255)) ∧
      ofVch (serialize (-255)) true = .ok (-255) ∧ setVch64 (serialize (-255)) = -255 ∧
      Fits (-255 + -255) ∧ Fits (-255 - -255) :=
  have hwritten := (serialize_canonical.2.1 (-255) (by decide)).2
  ⟨(serialize_canonical.1 [0xff, 0x80] (-255)).trans (and_iff_right (by decide)), hwritten,
    (serialize_canonical.2.2.1 (-255) (by decide) (by decide)).2,
    serialize_canonical.2.2.2 _ _ true true _ _ hwritten hwritten⟩

end CScriptNum

end BitBlocks
