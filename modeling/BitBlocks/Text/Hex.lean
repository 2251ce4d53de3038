import BitBlocks.Lib.CString
import BitBlocks.Lib.Reader

/-!
# Bytes as hexadecimal text (`HexStr`, `SetHex`, `GetHex`, `ReverseEndianString`)

A byte is written as two digits, and an integer as its bytes, the lowest first or last. `SetHex`
goes through the digits from the end, so what it reads is the number whose lowest byte is
written last, or first when the text was turned around before.
-/

namespace BitBlocks

open CString CompactSize

def hexmap : List Char :=
  ['0', '1', '2', '3', '4', '5', '6', '7', '8', '9', 'a', 'b', 'c', 'd', 'e', 'f']

/-- `HexStr`. -/
def hexStr (vch : List UInt8) : List Char := vch.flatMap fun (val : UInt8) =>
    [hexmap.getD (val >>> 4).toNat '0', hexmap.getD (val &&& 15).toNat '0']

/-- `HexDigit`; `none` for `-1`. -/
def hexDigit (c : Char) : Option Nat :=
  if '0'.toNat ≤ c.toNat ∧ c.toNat ≤ '9'.toNat then some (c.toNat - '0'.toNat)
  else if 'A'.toNat ≤ c.toNat ∧ c.toNat ≤ 'F'.toNat then some (c.toNat - 'A'.toNat + 10)
  else if 'a'.toNat ≤ c.toNat ∧ c.toNat ≤ 'f'.toNat then some (c.toNat - 'a'.toNat + 10)
  else none

/-- `ReverseEndianString`, of an even number of characters. -/
def reverseEndianString : List Char → List Char
  | c :: d :: str => reverseEndianString str ++ [c, d]
  | _ => []

/-- `std::string::substr`. -/
def substr (str : List Char) (pos len : Nat) : List Char := (str.drop pos).take len

def skip0x : List Char → List Char
  | '0' :: c :: psz => if c = 'x' ∨ c = 'X' then psz else '0' :: c :: psz
  | psz => psz

/-- The digits from the last to the first, two for a byte. -/
def setHexLoop : List Char → List UInt8
  | [] => []
  | [c] => [UInt8.ofNat ((hexDigit c).getD 0)]
  | c :: d :: psz =>
    (UInt8.ofNat ((hexDigit c).getD 0) ||| UInt8.ofNat ((hexDigit d).getD 0) <<< 4) ::
      setHexLoop psz

/-- `base_uint::SetHex`. -/
def setHex (w : Nat) (psz : List Char) : BitVec w :=
  let psz := skip0x (psz.dropWhile isspace)
  let digits := psz.takeWhile fun c => (hexDigit c).isSome
  BitVec.ofNat w (leValue ((setHexLoop digits.reverse).take (w / 8)))

/-- The bytes from `begin()` to `end()`. -/
def uintBytes {w : Nat} (a : BitVec w) : List UInt8 := writeLE (w / 8) a.toNat

/-- `base_uint::GetHex`. -/
def getHex {w : Nat} (a : BitVec w) : List Char := hexStr (uintBytes a).reverse

/-! ## Text that is bytes -/

inductive HexText : List Char → List UInt8 → Prop
  | nil : HexText [] []
  | cons {c d : Char} {hi lo : Nat} {str : List Char} {vch : List UInt8}
      (hc : hexDigit c = some hi) (hd : hexDigit d = some lo) (h : HexText str vch) :
      HexText (c :: d :: str) ((UInt8.ofNat lo ||| UInt8.ofNat hi <<< 4) :: vch)

theorem hexDigit_hexmap : ∀ d < 16, hexDigit (hexmap.getD d '0') = some d := by decide

theorem join_digits : ∀ n < 256,
    UInt8.ofNat (n % 16) ||| UInt8.ofNat (n / 16) <<< 4 = UInt8.ofNat n := by decide +kernel

theorem hexStr_cons (val : UInt8) (vch : List UInt8) : hexStr (val :: vch) =
    hexmap.getD (val >>> 4).toNat '0' :: hexmap.getD (val &&& 15).toNat '0' :: hexStr vch := rfl

theorem hexText_hexStr (vch : List UInt8) : HexText (hexStr vch) vch := by
  induction vch with
  | nil => exact HexText.nil
  | cons val vch ih =>
    have hlt := val.toNat_lt
    have hhi : (val >>> 4).toNat = val.toNat / 16 := by
      rw [UInt8.toNat_shiftRight]
      exact Nat.shiftRight_eq_div_pow val.toNat 4
    have hlo : (val &&& 15).toNat = val.toNat % 16 := by
      rw [UInt8.toNat_and]
      exact Nat.and_two_pow_sub_one_eq_mod val.toNat 4
    have hcons := HexText.cons (hexDigit_hexmap (val.toNat / 16) (by omega))
      (hexDigit_hexmap (val.toNat % 16) (by omega)) ih
    rw [join_digits val.toNat hlt, UInt8.ofNat_toNat] at hcons
    rw [hexStr_cons, hhi, hlo]
    exact hcons

variable {str psz : List Char} {vch : List UInt8} {w : Nat}

theorem HexText.append {str' : List Char} {vch' : List UInt8} (h : HexText str vch)
    (h' : HexText str' vch') : HexText (str ++ str') (vch ++ vch') := by
  induction h with
  | nil => exact h'
  | cons hc hd _ ih => exact HexText.cons hc hd ih

theorem HexText.reverse (h : HexText str vch) : HexText (reverseEndianString str) vch.reverse := by
  induction h with
  | nil => exact HexText.nil
  | cons hc hd _ ih =>
    rw [reverseEndianString, List.reverse_cons]
    exact ih.append (HexText.cons hc hd HexText.nil)

theorem hexDigit_eq_some {c : Char} {n : Nat} (h : hexDigit c = some n) :
    isspace c = false ∧ c ≠ 'x' ∧ c ≠ 'X' := by
  refine ⟨?_, ?_, ?_⟩
  · by_contra hspace
    rw [Bool.not_eq_false, isspace, Bool.or_eq_true, Bool.and_eq_true, beq_iff_eq,
      decide_eq_true_iff, decide_eq_true_iff] at hspace
    have hle : c.toNat ≤ 32 := by omega
    have hnone : hexDigit c = none := by
      rw [hexDigit, if_neg fun hc => absurd (hc.1.trans hle) (by decide),
        if_neg fun hc => absurd (hc.1.trans hle) (by decide),
        if_neg fun hc => absurd (hc.1.trans hle) (by decide)]
    rw [hnone] at h
    exact absurd h.symm (Option.some_ne_none n)
  · intro hx
    have hnone : hexDigit 'x' = none := by decide
    rw [hx, hnone] at h
    exact absurd h.symm (Option.some_ne_none n)
  · intro hx
    have hnone : hexDigit 'X' = none := by decide
    rw [hx, hnone] at h
    exact absurd h.symm (Option.some_ne_none n)

theorem setHexLoop_append {psz' : List Char} (h : psz.length % 2 = 0) :
    setHexLoop (psz ++ psz') = setHexLoop psz ++ setHexLoop psz' := by
  induction psz using setHexLoop.induct with
  | case1 => rfl
  | case2 c => exact absurd h Nat.one_ne_zero
  | case3 c d psz ih =>
    rw [List.length_cons, List.length_cons] at h
    rw [List.cons_append, List.cons_append, setHexLoop, ih (by omega)]
    rfl

theorem HexText.length (h : HexText str vch) : str.length = 2 * vch.length := by
  induction h with
  | nil => rfl
  | cons _ _ _ ih =>
    rw [List.length_cons, List.length_cons, List.length_cons, ih]
    omega

theorem HexText.setHexLoop_eq (h : HexText str vch) : setHexLoop str.reverse = vch.reverse := by
  induction h with
  | nil => rfl
  | @cons c d hi lo str vch hc hd h ih =>
    have hlength := h.length
    rw [List.reverse_cons, List.reverse_cons, List.append_assoc,
      setHexLoop_append (by rw [List.length_reverse]; omega), ih, List.reverse_cons]
    rw [List.singleton_append, setHexLoop, hc, hd]
    rfl

theorem HexText.isSome (h : HexText str vch) : ∀ c ∈ str, (hexDigit c).isSome = true := by
  induction h with
  | nil => exact nofun
  | cons hc hd _ ih =>
    intro e he
    rcases List.mem_cons.mp he with rfl | he
    · rw [hc]
      rfl
    rcases List.mem_cons.mp he with rfl | he
    · rw [hd]
      rfl
    · exact ih e he

theorem skip0x_eq (h : ∀ c d str, psz = c :: d :: str → d ≠ 'x' ∧ d ≠ 'X') : skip0x psz = psz := by
  rw [skip0x.eq_def]
  split
  · rename_i c str
    obtain ⟨hx, hX⟩ := h '0' c str rfl
    exact if_neg (not_or.mpr ⟨hx, hX⟩)
  · rfl

theorem HexText.skip0x_eq (h : HexText str vch) : skip0x (str.dropWhile isspace) = str := by
  cases h with
  | nil => rfl
  | cons hc hd h =>
    rw [List.dropWhile_cons_of_neg (by rw [(hexDigit_eq_some hc).1]; decide)]
    refine BitBlocks.skip0x_eq fun c d str heq => ?_
    obtain ⟨-, heq⟩ := List.cons.inj heq
    obtain ⟨rfl, -⟩ := List.cons.inj heq
    exact (hexDigit_eq_some hd).2

/-- **What is read from bytes** is the number whose lowest byte is the last. -/
theorem HexText.setHex_eq (h : HexText str vch) (hw : vch.length ≤ w / 8) :
    setHex w str = BitVec.ofNat w (leValue vch.reverse) := by
  rw [setHex, h.skip0x_eq, List.takeWhile_eq_self_iff.mpr h.isSome, h.setHexLoop_eq,
    List.take_of_length_le (by rwa [List.length_reverse])]

theorem HexText.setHex_reverse (h : HexText str vch) (hw : vch.length ≤ w / 8) :
    setHex w (reverseEndianString str) = BitVec.ofNat w (leValue vch) := by
  rw [h.reverse.setHex_eq (by rwa [List.length_reverse]), List.reverse_reverse]

theorem drop_hexStr (vch : List UInt8) (i : Nat) :
    (hexStr vch).drop (2 * i) = hexStr (vch.drop i) := by
  induction i generalizing vch with
  | zero => rfl
  | succ i ih =>
    cases vch with
    | nil => rw [List.drop_nil, hexStr, List.flatMap_nil, List.drop_nil]
    | cons val vch => rw [Nat.mul_succ, hexStr_cons, List.drop_succ_cons,
      List.drop_succ_cons, ih]; rfl

theorem take_hexStr (vch : List UInt8) (i : Nat) :
    (hexStr vch).take (2 * i) = hexStr (vch.take i) := by
  induction i generalizing vch with
  | zero => rfl
  | succ i ih =>
    cases vch with
    | nil => rw [List.take_nil, hexStr, List.flatMap_nil, List.take_nil]
    | cons val vch =>
      rw [Nat.mul_succ, hexStr_cons, List.take_succ_cons, List.take_succ_cons, ih,
        List.take_succ_cons, hexStr_cons]

/-- **The text of some of the bytes** is at twice their place. -/
theorem substr_hexStr (vch : List UInt8) (i k : Nat) :
    substr (hexStr vch) (2 * i) (2 * k) = hexStr ((vch.drop i).take k) := by
  rw [substr, drop_hexStr, take_hexStr]

end BitBlocks
