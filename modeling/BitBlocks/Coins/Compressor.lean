import Mathlib.Data.List.GetD
import BitBlocks.Lib.Wrap
import BitBlocks.Lib.VarInt
import BitBlocks.Node.Params
import BitBlocks.Script.Script

/-!
# Compressed outputs (`compressor.cpp`)

An output is stored as its amount, with the trailing zeros counted out, and its
script, for which three templates have a short form. Both are undone exactly:
amounts up to the largest an issue of money can reach, and every script of less
than `2 ^ 32 - 6` bytes. A pay-to-pubkey script with an uncompressed key is
stored as the key's abscissa and the parity of its ordinate, so there the round
trip is as good as the curve library's (`PubKeyRules.Lawful`).
-/

namespace BitBlocks

open Reader

/-! ## Amounts -/

/-- Divide by ten while the last digit is zero, `left` times at most; `e` counts. -/
def dropZeros : (left n e : Nat) → Nat × Nat
  | 0, n, e => (n, e)
  | left + 1, n, e => if n % 10 = 0 then dropZeros left (n / 10) (e + 1) else (n, e)

def compressAmount (n : Nat) : Nat :=
  if n = 0 then 0
  else
    let (n, e) := dropZeros 9 n 0
    if e < 9 then (1 + (n / 10 * 9 + n % 10 - 1) * 10 + e) % 2 ^ 64
    else (1 + (n - 1) * 10 + 9) % 2 ^ 64

/-- `while (e) { n *= 10; e--; }` -/
def putZeros : (e n : Nat) → Nat
  | 0, n => n
  | e + 1, n => putZeros e (n * 10 % 2 ^ 64)

def decompressAmount (x : Nat) : Nat :=
  if x = 0 then 0
  else
    let e := (x - 1) % 10
    let x := (x - 1) / 10
    let n := if e < 9 then (x / 9 * 10 + (x % 9 + 1)) % 2 ^ 64 else (x + 1) % 2 ^ 64
    putZeros e n

variable {left n e m x : Nat}

theorem dropZeros_spec {f : Nat} (h : dropZeros left n e = (m, f)) :
    e ≤ f ∧ f ≤ e + left ∧ m * 10 ^ (f - e) = n ∧ (f < e + left → m % 10 ≠ 0) := by
  induction left generalizing n e with
  | zero =>
    obtain ⟨rfl, rfl⟩ := Prod.mk.inj h
    exact ⟨Nat.le_refl _, Nat.le_refl _, by simp, fun hlt => absurd hlt (Nat.lt_irrefl _)⟩
  | succ left ih =>
    rw [dropZeros] at h
    split at h
    · rename_i hzero
      obtain ⟨h1, h2, h3, h4⟩ := ih h
      refine ⟨by omega, by omega, ?_, fun hlt => h4 (by omega)⟩
      have hexp : f - e = f - (e + 1) + 1 := by omega
      rw [hexp, Nat.pow_succ, ← Nat.mul_assoc, h3]
      omega
    · rename_i hdigit
      obtain ⟨rfl, rfl⟩ := Prod.mk.inj h
      exact ⟨Nat.le_refl _, by omega, by simp, fun _ => hdigit⟩

theorem putZeros_eq (h : n * 10 ^ e < 2 ^ 64) : putZeros e n = n * 10 ^ e := by
  induction e generalizing n with
  | zero => simp [putZeros]
  | succ e ih =>
    have hpow : n * 10 ^ (e + 1) = n * 10 * 10 ^ e := by
      rw [Nat.pow_succ, Nat.mul_comm (10 ^ e), Nat.mul_assoc]
    have hle : n * 10 ≤ n * 10 * 10 ^ e := Nat.le_mul_of_pos_right _ (Nat.pow_pos (by omega))
    rw [putZeros, Nat.mod_eq_of_lt (by omega), ih (by omega), hpow]

theorem dropZeros_mul {k : Nat} (hk : k ≤ left) (hm : k < left → m % 10 ≠ 0) :
    dropZeros left (m * 10 ^ k) e = (m, e + k) := by
  induction k generalizing left e with
  | zero =>
    rw [Nat.pow_zero, Nat.mul_one, Nat.add_zero]
    cases left with
    | zero => rfl
    | succ left => rw [dropZeros, if_neg (hm (Nat.succ_pos left))]
  | succ k ih =>
    obtain ⟨left, rfl⟩ : ∃ l, left = l + 1 := ⟨left - 1, by omega⟩
    have hten : m * 10 ^ (k + 1) = m * 10 ^ k * 10 := by rw [Nat.pow_succ, Nat.mul_assoc]
    rw [dropZeros, hten, Nat.mul_mod_left, if_pos rfl, Nat.mul_div_cancel _ (by omega),
      ih (by omega) fun hlt => hm (by omega)]
    congr 1
    omega

/-- The numbers that `CompressAmount` computes on its way, before they are cut off to 64 bits. -/
def compressSteps (n : Nat) : List Nat :=
  if n = 0 then []
  else
    let (n, e) := dropZeros 9 n 0
    if e < 9 then
      [n / 10 * 9, n / 10 * 9 + n % 10, (n / 10 * 9 + n % 10 - 1) * 10,
        1 + (n / 10 * 9 + n % 10 - 1) * 10, 1 + (n / 10 * 9 + n % 10 - 1) * 10 + e]
    else [(n - 1) * 10, 1 + (n - 1) * 10, 1 + (n - 1) * 10 + 9]

def CompressFits (n : Nat) : Prop := ∀ v ∈ compressSteps n, v < 2 ^ 64

/-- The digits of a compressed amount, and how many zeros follow them. -/
def storedDigits (x : Nat) : Nat × Nat :=
  if (x - 1) % 10 < 9 then ((x - 1) / 10 / 9 * 10 + ((x - 1) / 10 % 9 + 1), (x - 1) % 10)
  else ((x - 1) / 10 + 1, (x - 1) % 10)

/-- The same for `DecompressAmount`: the digits, then with one zero after the other. -/
def decompressSteps (x : Nat) : List Nat :=
  if x = 0 then []
  else
    (if (x - 1) % 10 < 9 then [(x - 1) / 10 / 9 * 10] else []) ++
      (List.range ((storedDigits x).2 + 1)).map fun k => (storedDigits x).1 * 10 ^ k

def DecompressFits (x : Nat) : Prop := ∀ v ∈ decompressSteps x, v < 2 ^ 64

/-- The number that a compressed amount is, and the largest on the way to it. -/
def compressedValue (n : Nat) : Nat :=
  if n = 0 then 0
  else
    let (n, e) := dropZeros 9 n 0
    if e < 9 then 1 + (n / 10 * 9 + n % 10 - 1) * 10 + e else 1 + (n - 1) * 10 + 9

def decompressedValue (x : Nat) : Nat :=
  if x = 0 then 0 else (storedDigits x).1 * 10 ^ (storedDigits x).2

theorem compressFits_iff : CompressFits n ↔ compressedValue n < 2 ^ 64 := by
  unfold CompressFits compressSteps compressedValue
  split
  · simp
  · dsimp only
    split
    · simp only [List.forall_mem_cons, List.not_mem_nil, false_implies, implies_true, and_true]
      omega
    · simp only [List.forall_mem_cons, List.not_mem_nil, false_implies, implies_true, and_true]
      omega

theorem decompressFits_iff : DecompressFits x ↔ decompressedValue x < 2 ^ 64 := by
  unfold DecompressFits decompressSteps decompressedValue
  split
  · simp
  constructor
  · intro h
    refine h _ (List.mem_append_right _ ?_)
    exact List.mem_map_of_mem (List.mem_range.mpr (Nat.lt_succ_self _))
  · intro h v hv
    have hle : ∀ k ≤ (storedDigits x).2,
        (storedDigits x).1 * 10 ^ k ≤ (storedDigits x).1 * 10 ^ (storedDigits x).2 :=
      fun k hk => Nat.mul_le_mul_left _ (Nat.pow_le_pow_right (by decide) hk)
    rcases List.mem_append.mp hv with hv | hv
    · split at hv
      · rename_i he
        obtain rfl := List.mem_singleton.mp hv
        have hdigits : (x - 1) / 10 / 9 * 10 ≤ (storedDigits x).1 := by
          rw [storedDigits, if_pos he]
          exact Nat.le_add_right _ _
        have hzero := hle 0 (Nat.zero_le _)
        rw [Nat.pow_zero, Nat.mul_one] at hzero
        omega
      · exact absurd hv (by simp)
    · obtain ⟨k, hk, rfl⟩ := List.mem_map.mp hv
      exact Nat.lt_of_le_of_lt (hle k (Nat.lt_succ_iff.mp (List.mem_range.mp hk))) h

theorem compressAmount_eq (h : CompressFits n) : compressAmount n = compressedValue n := by
  rw [compressFits_iff] at h
  unfold compressAmount
  unfold compressedValue at h ⊢
  split
  · rfl
  · rename_i hn
    rw [if_neg hn] at h
    dsimp only at h ⊢
    split
    · rename_i he
      rw [if_pos he] at h
      exact Nat.mod_eq_of_lt h
    · rename_i he
      rw [if_neg he] at h
      exact Nat.mod_eq_of_lt h

theorem decompressAmount_eq (h : DecompressFits x) : decompressAmount x = decompressedValue x := by
  rw [decompressFits_iff] at h
  unfold decompressAmount
  unfold decompressedValue at h ⊢
  split
  · rfl
  · rename_i hx
    rw [if_neg hx] at h
    have hpos : 0 < 10 ^ (storedDigits x).2 := Nat.pow_pos (by omega)
    have hle : (storedDigits x).1 ≤ (storedDigits x).1 * 10 ^ (storedDigits x).2 :=
      Nat.le_mul_of_pos_right _ hpos
    have hdigits : (if (x - 1) % 10 < 9 then
        ((x - 1) / 10 / 9 * 10 + ((x - 1) / 10 % 9 + 1)) % 2 ^ 64
        else ((x - 1) / 10 + 1) % 2 ^ 64) = (storedDigits x).1 := by
      have hlt := Nat.lt_of_le_of_lt hle h
      unfold storedDigits at hlt ⊢
      split
      · rename_i he
        rw [if_pos he] at hlt
        exact Nat.mod_eq_of_lt hlt
      · rename_i he
        rw [if_neg he] at hlt
        exact Nat.mod_eq_of_lt hlt
    have hzeros : (x - 1) % 10 = (storedDigits x).2 := by
      unfold storedDigits
      split
      · rfl
      · rfl
    dsimp only
    rw [hdigits, hzeros]
    exact putZeros_eq h

/-- **Without cutting off, the two are inverse**, this way round. -/
theorem decompressedValue_compressedValue (n : Nat) :
    decompressedValue (compressedValue n) = n := by
  unfold compressedValue
  split
  · rename_i hn
    rw [hn]
    rfl
  rename_i hn
  rcases hd : dropZeros 9 n 0 with ⟨m, e⟩
  obtain ⟨-, he, hm, hdigit⟩ := dropZeros_spec hd
  rw [Nat.sub_zero] at hm
  have hpos : 0 < m := by
    rcases Nat.eq_zero_or_pos m with h0 | h0
    · rw [h0, Nat.zero_mul] at hm
      exact absurd hm.symm hn
    · exact h0
  dsimp only
  split
  · -- the last digit is kept apart, so it is not zero
    rename_i hlt
    have hlast := hdigit (by omega)
    have hstored : storedDigits (1 + (m / 10 * 9 + m % 10 - 1) * 10 + e) = (m, e) := by
      have hexp : (1 + (m / 10 * 9 + m % 10 - 1) * 10 + e - 1) % 10 = e := by omega
      have hrest : (1 + (m / 10 * 9 + m % 10 - 1) * 10 + e - 1) / 10 = m / 10 * 9 + m % 10 - 1 := by
        omega
      have hn' : (m / 10 * 9 + m % 10 - 1) / 9 * 10 + ((m / 10 * 9 + m % 10 - 1) % 9 + 1) = m := by
        omega
      rw [storedDigits, hexp, hrest, if_pos hlt, hn']
    rw [decompressedValue, if_neg (by omega), hstored]
    exact hm
  · rename_i hge
    obtain rfl : e = 9 := by omega
    have hstored : storedDigits (1 + (m - 1) * 10 + 9) = (m, 9) := by
      have hexp : (1 + (m - 1) * 10 + 9 - 1) % 10 = 9 := by omega
      have hrest : (1 + (m - 1) * 10 + 9 - 1) / 10 + 1 = m := by omega
      rw [storedDigits, hexp, if_neg (Nat.lt_irrefl 9), hrest]
    rw [decompressedValue, if_neg (by omega), hstored]
    exact hm

theorem compressedValue_decompressedValue (x : Nat) :
    compressedValue (decompressedValue x) = x := by
  unfold decompressedValue
  split
  · rename_i hx
    rw [hx]
    rfl
  rename_i hx
  have hpos : 0 < (storedDigits x).1 := by
    unfold storedDigits
    split
    · exact Nat.succ_pos _
    · exact Nat.succ_pos _
  have hne : (storedDigits x).1 * 10 ^ (storedDigits x).2 ≠ 0 :=
    Nat.ne_of_gt (Nat.mul_pos hpos (Nat.pow_pos (by decide)))
  rw [compressedValue, if_neg hne]
  clear hne
  by_cases he : (x - 1) % 10 < 9
  · have hstored : storedDigits x =
        ((x - 1) / 10 / 9 * 10 + ((x - 1) / 10 % 9 + 1), (x - 1) % 10) := if_pos he
    rw [hstored]
    dsimp only
    rw [dropZeros_mul (by omega) fun _ => by omega]
    dsimp only
    rw [Nat.zero_add, if_pos he]
    omega
  · have hstored : storedDigits x = ((x - 1) / 10 + 1, (x - 1) % 10) := if_neg he
    have hnine : (x - 1) % 10 = 9 := by omega
    rw [hstored]
    dsimp only
    rw [hnine]
    have hdrop : dropZeros 9 (((x - 1) / 10 + 1) * 10 ^ 9) 0 = ((x - 1) / 10 + 1, 0 + 9) :=
      dropZeros_mul (Nat.le_refl 9) fun hlt => absurd hlt (Nat.lt_irrefl 9)
    rw [hdrop]
    dsimp only
    rw [Nat.zero_add, if_neg (Nat.lt_irrefl 9)]
    omega

theorem compressFits_of_lt (h : n * 9 + 10 < 2 ^ 64) : CompressFits n := by
  rw [compressFits_iff, compressedValue]
  split
  · omega
  rcases hd : dropZeros 9 n 0 with ⟨m, e⟩
  obtain ⟨-, he, hm, -⟩ := dropZeros_spec hd
  have hmn : m ≤ n := by
    rw [← hm]
    exact Nat.le_mul_of_pos_right _ (Nat.pow_pos (by omega))
  dsimp only
  split
  · omega
  · -- nine zeros were dropped
    obtain rfl : e = 9 := by omega
    rw [Nat.sub_zero] at hm
    omega

/-- **An amount is restored.** -/
theorem decompressAmount_compressAmount (h : n * 9 + 10 < 2 ^ 64) :
    decompressAmount (compressAmount n) = n ∧ compressAmount n < 2 ^ 64 := by
  have hfits := compressFits_of_lt h
  have hback := decompressedValue_compressedValue n
  rw [compressAmount_eq hfits]
  refine ⟨?_, compressFits_iff.mp hfits⟩
  rw [decompressAmount_eq, hback]
  rw [decompressFits_iff, hback]
  omega

/--
**Amount compression is a bijection** between the amounts it does not overflow for, all money
among them, and the compressed amounts that do not overflow on the way back. Nothing overflows
in either direction.
-/
theorem compressAmount_bijective (P : CChainParams) : (∀ n < 2 ^ 64, CompressFits n →
      decompressAmount (compressAmount n) = n ∧ DecompressFits (compressAmount n)) ∧
    (∀ x, (∃ n < 2 ^ 64, CompressFits n ∧ compressAmount n = x) →
      compressAmount (decompressAmount x) = x ∧ CompressFits (decompressAmount x)) ∧
    (∀ x, (∃ n < 2 ^ 64, CompressFits n ∧ compressAmount n = x) ↔ x < 2 ^ 64 ∧ DecompressFits x) ∧
    ∀ n : Nat, (n : Int) ≤ P.nMaxMoneyOut → CompressFits n := by
  have hthere : ∀ n < 2 ^ 64, CompressFits n →
      decompressAmount (compressAmount n) = n ∧ DecompressFits (compressAmount n) := by
    intro n hn h
    have hfits : DecompressFits (compressedValue n) := by
      rw [decompressFits_iff, decompressedValue_compressedValue]
      exact hn
    rw [compressAmount_eq h, decompressAmount_eq hfits, decompressedValue_compressedValue]
    exact ⟨rfl, hfits⟩
  refine ⟨hthere, ?_, ?_, ?_⟩
  · rintro x ⟨n, hn, h, rfl⟩
    rw [(hthere n hn h).1]
    exact ⟨rfl, h⟩
  · intro x
    constructor
    · rintro ⟨n, hn, h, rfl⟩
      refine ⟨?_, (hthere n hn h).2⟩
      rw [compressAmount_eq h]
      exact compressFits_iff.mp h
    · rintro ⟨hx, h⟩
      have hfits : CompressFits (decompressedValue x) := by
        rw [compressFits_iff, compressedValue_decompressedValue]
        exact hx
      refine ⟨decompressedValue x, decompressFits_iff.mp h, hfits, ?_⟩
      rw [compressAmount_eq hfits, compressedValue_decompressedValue]
  · intro n hn
    have hmax := P.nMaxMoneyOut_range.2
    have hcoin : COIN = 100000000 := rfl
    exact compressFits_of_lt (by omega)

/-! ## Scripts -/

/-- What the compressor asks of the curve library, on serialised keys. -/
structure PubKeyRules where
  /-- `CPubKey::IsFullyValid`: the point is on the curve. -/
  isFullyValid : List UInt8 → Bool
  /-- `CPubKey::Decompress`; the key it leaves is 65 bytes long. -/
  decompress : List UInt8 → Option { key : List UInt8 // key.length = 65 }

/--
A point on the curve is determined by its abscissa and the parity of its
ordinate, and `Decompress` finds it.
-/
def PubKeyRules.Lawful (K : PubKeyRules) : Prop :=
  ∀ (x y : List UInt8) (h : (0x04 :: (x ++ y)).length = 65), x.length = 32 →
    K.isFullyValid (0x04 :: (x ++ y)) = true →
      K.decompress ((0x02 ||| y.getD 31 0 &&& 0x01) :: x) = some ⟨0x04 :: (x ++ y), h⟩

/-- `memcpy(_, &s[i], n)`. -/
def slice (s : List UInt8) (i n : Nat) : List UInt8 := (s.drop i).take n

namespace CScript

def isToKeyID (script : CScript) : Option (List UInt8) :=
  if script.length = 25 ∧ script.getD 0 0 = OP_DUP ∧ script.getD 1 0 = OP_HASH160 ∧
      script.getD 2 0 = 20 ∧ script.getD 23 0 = OP_EQUALVERIFY ∧ script.getD 24 0 = OP_CHECKSIG then
    some (slice script 3 20)
  else none

def isToScriptID (script : CScript) : Option (List UInt8) :=
  if script.length = 23 ∧ script.getD 0 0 = OP_HASH160 ∧ script.getD 1 0 = 20 ∧
      script.getD 22 0 = OP_EQUAL then
    some (slice script 2 20)
  else none

def isToPubKey (K : PubKeyRules) (script : CScript) : Option (List UInt8) :=
  if script.length = 35 ∧ script.getD 0 0 = 33 ∧ script.getD 34 0 = OP_CHECKSIG ∧
      (script.getD 1 0 = 0x02 ∨ script.getD 1 0 = 0x03) then
    some (slice script 1 33)
  else if script.length = 67 ∧ script.getD 0 0 = 65 ∧ script.getD 66 0 = OP_CHECKSIG ∧
      script.getD 1 0 = 0x04 then
    -- if not fully valid, a case that would not be compressible
    if K.isFullyValid (slice script 1 65) then some (slice script 1 65) else none
  else none

def compress (K : PubKeyRules) (script : CScript) : Option (List UInt8) :=
  match script.isToKeyID with
  | some hash => some (0x00 :: hash)
  | none =>
  match script.isToScriptID with
  | some hash => some (0x01 :: hash)
  | none =>
  match script.isToPubKey K with
  | some pubkey =>
    if pubkey.getD 0 0 = 0x02 ∨ pubkey.getD 0 0 = 0x03 then
      some (pubkey.getD 0 0 :: slice pubkey 1 32)
    else if pubkey.getD 0 0 = 0x04 then
      some ((0x04 ||| pubkey.getD 64 0 &&& 0x01) :: slice pubkey 1 32)
    else none
  | none => none

def getSpecialSize (nSize : Nat) : Nat :=
  if nSize = 0 ∨ nSize = 1 then 20
  else if nSize = 2 ∨ nSize = 3 ∨ nSize = 4 ∨ nSize = 5 then 32
  else 0

def decompress (K : PubKeyRules) (nSize : Nat) (vch : List UInt8) : Option CScript :=
  match nSize with
  | 0x00 => some ([OP_DUP, OP_HASH160, 20] ++ vch ++ [OP_EQUALVERIFY, OP_CHECKSIG])
  | 0x01 => some ([OP_HASH160, 20] ++ vch ++ [OP_EQUAL])
  | 0x02 => some ([33, 0x02] ++ vch ++ [OP_CHECKSIG])
  | 0x03 => some ([33, 0x03] ++ vch ++ [OP_CHECKSIG])
  | 0x04 => (K.decompress (0x02 :: vch)).map fun key => [65] ++ key.1 ++ [OP_CHECKSIG]
  | 0x05 => (K.decompress (0x03 :: vch)).map fun key => [65] ++ key.1 ++ [OP_CHECKSIG]
  | _ => none

def nSpecialScripts : Nat := 6

def serialize (K : PubKeyRules) (script : CScript) : List UInt8 :=
  match script.compress K with
  | some compr => compr
  | none => VarInt.write 32 ((script.length + nSpecialScripts) % 2 ^ 32) ++ script

/-- Into an empty script; it stays empty when a key cannot be decompressed. -/
def unserialize (K : PubKeyRules) : Reader CScript := do
  let nSize ← VarInt.read 32
  if nSize < nSpecialScripts then
    let vch ← bytes (getSpecialSize nSize)
    return (decompress K nSize vch).getD []
  else bytes (nSize - nSpecialScripts)

end CScript

variable {s : List UInt8} {i n : Nat}

theorem length_slice (h : i + n ≤ s.length) : (slice s i n).length = n := by
  rw [slice, List.length_take, List.length_drop]
  omega

theorem slice_eq_map (h : i + n ≤ s.length) :
    slice s i n = (List.range n).map fun j => s.getD (i + j) 0 := by
  apply List.ext_getElem
  · rw [length_slice h, List.length_map, List.length_range]
  · intro j hj hj'
    rw [length_slice h] at hj
    simp only [slice, List.getElem_take, List.getElem_drop, List.getElem_map, List.getElem_range]
    rw [List.getD_eq_getElem s 0 (by omega)]

theorem slice_append_slice_append {k : Nat} (h : s.length = i + n + k) :
    s = slice s 0 i ++ slice s i n ++ slice s (i + n) k := by
  have hfront : slice s 0 i ++ slice s i n = s.take (i + n) := by
    rw [slice, List.drop_zero, slice, List.take_add]
  have hback : slice s (i + n) k = s.drop (i + n) :=
    List.take_of_length_le (by rw [List.length_drop]; omega)
  rw [hfront, hback, List.take_append_drop]

namespace CScript

variable {K : PubKeyRules} {script : CScript}

theorem isToKeyID_eq {hash : List UInt8} (h : script.isToKeyID = some hash) :
    hash.length = 20 ∧ script = [OP_DUP, OP_HASH160, 20] ++ hash ++
    [OP_EQUALVERIFY, OP_CHECKSIG] := by
  unfold isToKeyID at h
  split at h
  · rename_i hc
    obtain ⟨hlen, h0, h1, h2, h23, h24⟩ := hc
    obtain rfl := Option.some.inj h
    refine ⟨length_slice (by omega), ?_⟩
    have hfront : slice script 0 3 = [OP_DUP, OP_HASH160, 20] := by
      rw [← h0, ← h1, ← h2]
      exact slice_eq_map (by omega)
    have hback : slice script (3 + 20) 2 = [OP_EQUALVERIFY, OP_CHECKSIG] := by
      rw [← h23, ← h24]
      exact slice_eq_map (by omega)
    rw [← hfront, ← hback]
    exact slice_append_slice_append hlen
  · exact absurd h (by simp)

theorem isToScriptID_eq {hash : List UInt8} (h : script.isToScriptID = some hash) :
    hash.length = 20 ∧ script = [OP_HASH160, 20] ++ hash ++ [OP_EQUAL] := by
  unfold isToScriptID at h
  split at h
  · rename_i hc
    obtain ⟨hlen, h0, h1, h22⟩ := hc
    obtain rfl := Option.some.inj h
    refine ⟨length_slice (by omega), ?_⟩
    have hfront : slice script 0 2 = [OP_HASH160, 20] := by
      rw [← h0, ← h1]
      exact slice_eq_map (by omega)
    have hback : slice script (2 + 20) 1 = [OP_EQUAL] := by
      rw [← h22]
      exact slice_eq_map (by omega)
    rw [← hfront, ← hback]
    exact slice_append_slice_append hlen
  · exact absurd h (by simp)

theorem eq_push_checksig {n : Nat} (hlen : script.length = n + 2)
    (hlast : script.getD (n + 1) 0 = OP_CHECKSIG) :
    script = [script.getD 0 0] ++ slice script 1 n ++ [OP_CHECKSIG] := by
  have hfront : slice script 0 1 = [script.getD 0 0] := slice_eq_map (by omega)
  have hback : slice script (1 + n) 1 = [OP_CHECKSIG] := by
    rw [← hlast, Nat.add_comm 1 n]
    exact slice_eq_map (by omega)
  rw [← hfront, ← hback]
  exact slice_append_slice_append (by omega)

theorem isToPubKey_eq {pubkey : List UInt8} (h : script.isToPubKey K = some pubkey) :
    (pubkey.length = 33 ∧ (pubkey.getD 0 0 = 0x02 ∨ pubkey.getD 0 0 = 0x03) ∧
      script = [33] ++ pubkey ++ [OP_CHECKSIG]) ∨
    (pubkey.length = 65 ∧ pubkey.getD 0 0 = 0x04 ∧ K.isFullyValid pubkey = true ∧
      script = [65] ++ pubkey ++ [OP_CHECKSIG]) := by
  have hget : ∀ n, 1 + (n + 1) ≤ script.length →
      (slice script 1 (n + 1)).getD 0 0 = script.getD 1 0 := by
    intro n hn
    rw [slice_eq_map hn, List.range_succ_eq_map]
    rfl
  unfold isToPubKey at h
  split at h
  · rename_i hc
    obtain ⟨hlen, h0, hlast, h1⟩ := hc
    obtain rfl := Option.some.inj h
    refine Or.inl ⟨length_slice (by omega), ?_, ?_⟩
    · rwa [hget 32 (by omega)]
    · rw [← h0]
      exact eq_push_checksig hlen hlast
  · split at h
    · rename_i hc
      obtain ⟨hlen, h0, hlast, h1⟩ := hc
      split at h
      · rename_i hvalid
        obtain rfl := Option.some.inj h
        refine Or.inr ⟨length_slice (by omega), ?_, hvalid, ?_⟩
        · rwa [hget 64 (by omega)]
        · rw [← h0]
          exact eq_push_checksig hlen hlast
      · exact absurd h (by simp)
    · exact absurd h (by simp)

theorem eq_cons_slice {n : Nat} {key : List UInt8} (h : key.length = n + 1) :
    ∃ head x, key = head :: x ∧ x.length = n ∧ slice key 1 n = x := by
  obtain ⟨head, x, rfl⟩ := List.exists_cons_of_length_eq_add_one h
  have hx : x.length = n := by simpa using h
  exact ⟨head, x, rfl, hx, List.take_of_length_le (by simp [hx])⟩

theorem reads_special {k : Nat} {vch : List UInt8} (hk : k < nSpecialScripts)
    (hlen : vch.length = getSpecialSize k) (h : decompress K k vch = some script) :
    Reads (unserialize K) (UInt8.ofNat k :: vch) script := by
  have hbyte : VarInt.write 32 k = [UInt8.ofNat k] := by
    unfold nSpecialScripts at hk
    interval_cases k <;> rfl
  have hwrite := VarInt.reads_write (w := 32) (n := k) (by omega)
    (by unfold nSpecialScripts at hk; omega)
  rw [hbyte] at hwrite
  refine hwrite.bind ?_
  rw [if_pos hk, ← hlen]
  have hread := (reads_bytes vch).map fun vch => (decompress K k vch).getD []
  rwa [h] at hread

theorem decompress_parity (hK : K.Lawful) {x y : List UInt8} (hx : x.length = 32)
    (hy : y.length = 32) (hvalid : K.isFullyValid (0x04 :: (x ++ y)) = true) :
    ∃ k, k < nSpecialScripts ∧ UInt8.ofNat k = 0x04 ||| y.getD 31 0 &&& 0x01 ∧
      getSpecialSize k = 32 ∧
      decompress K k x = some ([65] ++ (0x04 :: (x ++ y)) ++ [OP_CHECKSIG]) := by
  have h65 : (0x04 :: (x ++ y)).length = 65 := by simp [hx, hy]
  have hfound := hK x y h65 hx hvalid
  have hparity : y.getD 31 0 &&& 0x01 = 0 ∨ y.getD 31 0 &&& 0x01 = 1 := by
    have hmod : (y.getD 31 0 &&& 0x01).toNat = (y.getD 31 0).toNat % 2 := by
      rw [UInt8.toNat_and]
      exact Nat.and_one_is_mod _
    rw [← UInt8.toNat_inj, ← UInt8.toNat_inj, hmod]
    exact Nat.mod_two_eq_zero_or_one _
  rcases hparity with h0 | h1
  · rw [h0] at hfound ⊢
    refine ⟨4, by decide, rfl, rfl, ?_⟩
    show (K.decompress (0x02 :: x)).map _ = _
    have hhead : (0x02 ||| 0 : UInt8) = 0x02 := rfl
    rw [hhead] at hfound
    rw [hfound]
    rfl
  · rw [h1] at hfound ⊢
    refine ⟨5, by decide, rfl, rfl, ?_⟩
    show (K.decompress (0x03 :: x)).map _ = _
    have hhead : (0x02 ||| 1 : UInt8) = 0x03 := rfl
    rw [hhead] at hfound
    rw [hfound]
    rfl

theorem reads_compress (hK : K.Lawful) {compr : List UInt8} (h : script.compress K = some compr) :
    Reads (unserialize K) compr script := by
  unfold compress at h
  split at h
  · -- pay to pubkey hash
    rename_i hash hkey
    obtain ⟨hlen, hscript⟩ := isToKeyID_eq hkey
    obtain rfl := Option.some.inj h
    exact reads_special (k := 0) (by decide) hlen (by rw [hscript]; rfl)
  split at h
  · -- pay to script hash
    rename_i hash hscriptID
    obtain ⟨hlen, hscript⟩ := isToScriptID_eq hscriptID
    obtain rfl := Option.some.inj h
    exact reads_special (k := 1) (by decide) hlen (by rw [hscript]; rfl)
  split at h
  · rename_i pubkey hpub
    rcases isToPubKey_eq hpub with ⟨hlen, hhead, hscript⟩ | ⟨hlen, hhead, hvalid, hscript⟩
    · -- a compressed key is kept whole
      rw [if_pos hhead] at h
      obtain rfl := Option.some.inj h
      obtain ⟨head, x, rfl, hx, hslice⟩ := eq_cons_slice hlen
      rw [hslice, hscript]
      rcases hhead with hhead | hhead <;> obtain rfl : head = _ := hhead
      · exact reads_special (k := 2) (by decide) hx rfl
      · exact reads_special (k := 3) (by decide) hx rfl
    · obtain ⟨head, xy, rfl, hxy, -⟩ := eq_cons_slice hlen
      obtain rfl : head = 0x04 := hhead
      rw [if_neg (by simp), if_pos List.getD_cons_zero] at h
      obtain rfl := Option.some.inj h
      -- the short form has the abscissa only
      have hx : (xy.take 32).length = 32 := by rw [List.length_take]; omega
      have hy : (xy.drop 32).length = 32 := by rw [List.length_drop]; omega
      have hcut : xy.take 32 ++ xy.drop 32 = xy := List.take_append_drop 32 xy
      have hlast : (xy.drop 32).getD 31 0 = (0x04 :: xy).getD 64 0 := by
        simp [List.getD_eq_getElem?_getD]
      obtain ⟨k, hk, hparity, hsize, hfound⟩ := decompress_parity hK hx hy (by rwa [hcut])
      rw [hcut] at hfound
      rw [hlast] at hparity
      have hslice : slice (0x04 :: xy) 1 32 = xy.take 32 := rfl
      rw [hscript, hslice, ← hparity]
      exact reads_special hk (hx.trans hsize.symm) hfound
  · exact absurd h (by simp)

theorem reads_serialize (hK : K.Lawful) (hlen : script.length + nSpecialScripts < 2 ^ 32) :
    Reads (unserialize K) (serialize K script) script := by
  unfold serialize
  split
  · rename_i compr hcompr
    exact reads_compress hK hcompr
  · rw [Nat.mod_eq_of_lt hlen]
    refine (VarInt.reads_write (by omega) hlen).bind ?_
    rw [if_neg (by omega), Nat.add_sub_cancel]
    exact reads_bytes script

end CScript

/-! ## Outputs -/

namespace CTxOutCompressor

def serialize (K : PubKeyRules) (txout : CTxOut) : List UInt8 :=
  VarInt.write 64 (compressAmount (txout.nValue % 2 ^ 64).toNat) ++
    CScript.serialize K txout.scriptPubKey

/-- Into a default-constructed output: the fields that are not stored stay as they are there. -/
def unserialize (K : PubKeyRules) : Reader CTxOut := do
  let nVal ← VarInt.read 64
  let scriptPubKey ← CScript.unserialize K
  return { CTxOut.null with nValue := Wrap.wrap64 (decompressAmount nVal), scriptPubKey }

/-- **An output is restored**, but for `nRounds`, which is not stored. -/
theorem reads_serialize {K : PubKeyRules} (hK : K.Lawful) {txout : CTxOut}
    (hvalue : 0 ≤ txout.nValue ∧ txout.nValue * 9 + 10 < 2 ^ 63)
    (hscript : txout.scriptPubKey.length + CScript.nSpecialScripts < 2 ^ 32) :
    Reads (unserialize K) (serialize K txout) { txout with nRounds := CTxOut.null.nRounds } := by
  obtain ⟨hlow, hhigh⟩ := hvalue
  have hmod : txout.nValue % 2 ^ 64 = txout.nValue := Int.emod_eq_of_lt hlow (by omega)
  obtain ⟨hback, hrange⟩ := decompressAmount_compressAmount (n := txout.nValue.toNat) (by omega)
  have hwrap : Wrap.wrap64 (txout.nValue.toNat : Int) = txout.nValue := by
    rw [Int.toNat_of_nonneg hlow]
    exact Wrap.wrap64_of_range (by omega) (by omega)
  unfold serialize
  rw [hmod]
  refine (VarInt.reads_write (by omega) hrange).bind ?_
  rw [hback, hwrap, ← List.append_nil (CScript.serialize K txout.scriptPubKey)]
  exact (CScript.reads_serialize hK hscript).bind (Reads.pure _)

end CTxOutCompressor

end BitBlocks
