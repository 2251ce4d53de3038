import BitBlocks.Lib.VarInt

/-!
# The VarInt of the coins database

`WriteVarInt` fills a buffer of `⌈w / 7⌉` bytes from the last digit on and sends it
backwards; `GetSizeOfVarInt` counts the same steps. `ReadVarInt` computes in the
type it returns, so digits that stand for a number past `2 ^ w` are read as well,
as that number modulo `2 ^ w`, and the number has a second encoding. These are the
only ones: digits that stand for a number of the type are those it is written in.
-/

namespace BitBlocks

open Reader

def getSizeOfVarInt (n : Nat) : Nat :=
  if n ≤ 0x7F then 1 else getSizeOfVarInt (n / 128 - 1) + 1
termination_by n
decreasing_by omega

/-- Put the digits of `n` behind those in `tmp`; `none` is a write past the end of the buffer. -/
def fillTmp : (room n : Nat) → (tmp : List UInt8) → Option (List UInt8)
  | 0, _, _ => none
  | room + 1, n, tmp =>
    let tmp := tmp ++ [VarInt.digit n (if tmp.length = 0 then 0x00 else 0x80)]
    if n ≤ 0x7F then some tmp else fillTmp room (n / 128 - 1) tmp

/-- Of an integer type of `w` bits. The buffer goes out from its last byte to its first. -/
def writeVarInt (w n : Nat) : Option (List UInt8) := (fillTmp ((w + 6) / 7) n []).map List.reverse

def readVarInt (w : Nat) : Reader Nat := VarInt.read w

theorem getSizeOfVarInt_eq {fuel n : Nat} (h : n < 2 ^ (7 * (fuel + 1))) :
    getSizeOfVarInt n = VarInt.sizeLoop (fuel + 1) n := by
  induction fuel using Nat.strong_induction_on generalizing n with
  | h fuel ih =>
    rw [getSizeOfVarInt, VarInt.sizeLoop]
    split
    · rfl
    · rename_i hn
      obtain ⟨fuel', rfl, hfuel'⟩ := VarInt.lt_shifted h (by omega)
      rw [ih fuel' (Nat.lt_succ_self _) hfuel']

theorem fillTmp_eq {room n : Nat} (tmp : List UInt8) (h : n < 2 ^ (7 * (room + 1))) :
    (fillTmp (room + 1) n tmp).map List.reverse =
      some (VarInt.writeLoop (room + 1) n (if tmp.length = 0 then 0x00 else 0x80) tmp.reverse) := by
  induction room using Nat.strong_induction_on generalizing n tmp with
  | h room ih =>
    rw [fillTmp, VarInt.writeLoop]
    split
    · rw [Option.map_some, List.reverse_concat]
    · rename_i hn
      obtain ⟨room', rfl, hroom'⟩ := VarInt.lt_shifted h (by omega)
      rw [ih room' (Nat.lt_succ_self _) _ hroom', List.reverse_concat, if_neg (by simp)]

theorem writeVarInt_eq {w n : Nat} (hw : 0 < w) (hn : n < 2 ^ w) :
    writeVarInt w n = some (VarInt.write w n) ∧ (VarInt.write w n).length = getSizeOfVarInt n := by
  have hfuel : (w + 6) / 7 - 1 + 1 = (w + 6) / 7 := by omega
  have hle : 2 ^ w ≤ 2 ^ (7 * ((w + 6) / 7 - 1 + 1)) := Nat.pow_le_pow_right (by omega) (by omega)
  constructor
  · have hfill := fillTmp_eq [] (lt_of_lt_of_le hn hle)
    rw [hfuel] at hfill
    exact hfill
  · rw [VarInt.length_write, VarInt.size, ← hfuel]
    exact (getSizeOfVarInt_eq (lt_of_lt_of_le hn hle)).symm

/-- **Every number of the type is written in its size and read back**, and bytes that are read as a
number are the ones it is written in iff they do not stand for a larger one. -/
theorem readVarInt_one_to_one_iff {w : Nat} (hw : 0 < w) :
    (∀ n < 2 ^ w, ∃ out, writeVarInt w n = some out ∧ out.length = getSizeOfVarInt n ∧
      Reads (readVarInt w) out n) ∧
    ∀ bs, (∀ n, (readVarInt w).run bs = some (n, []) → writeVarInt w n = some bs) ↔
      (VarInt.Digits bs → VarInt.value bs < 2 ^ w) := by
  refine ⟨fun n hn => ?_, fun bs => ?_⟩
  · obtain ⟨hwrite, hlen⟩ := writeVarInt_eq hw hn
    exact ⟨_, hwrite, hlen, VarInt.reads_write hw hn⟩
  · have hmod : VarInt.value bs % 2 ^ w < 2 ^ w := Nat.mod_lt _ (Nat.two_pow_pos w)
    constructor
    · intro hone hbs
      have hread : (readVarInt w).run bs = some (VarInt.value bs % 2 ^ w, []) :=
        VarInt.read_eq_some_iff.mpr ⟨bs, hbs, (List.append_nil bs).symm, rfl⟩
      have hwrite := hone _ hread
      rw [(writeVarInt_eq hw hmod).1] at hwrite
      have hval := (VarInt.eq_write_iff hw hmod hbs).mp (Option.some.inj hwrite).symm
      rwa [hval]
    · intro hlt n hread
      obtain ⟨bs', hbs, happ, rfl⟩ := VarInt.read_eq_some_iff.mp hread
      obtain rfl : bs = bs' := by rw [happ, List.append_nil]
      rw [(writeVarInt_eq hw hmod).1, Nat.mod_eq_of_lt (hlt hbs)]
      exact congrArg some ((VarInt.eq_write_iff hw (hlt hbs) hbs).mpr rfl).symm

theorem readVarInt_one_to_one_iff_32 :
    (∀ n < 2 ^ 32, ∃ out, writeVarInt 32 n = some out ∧ out.length = getSizeOfVarInt n ∧
      Reads (readVarInt 32) out n) ∧
    ∀ bs, (∀ n, (readVarInt 32).run bs = some (n, []) → writeVarInt 32 n = some bs) ↔
      (VarInt.Digits bs → VarInt.value bs < 2 ^ 32) :=
  readVarInt_one_to_one_iff (by decide)

/-- The digits of `2 ^ 32` are read as zero by a reader of 32 bits. -/
theorem readVarInt_wraps :
    ¬ ∀ bs n, (readVarInt 32).run bs = some (n, []) → writeVarInt 32 n = some bs := by
  intro h
  have hread : (readVarInt 32).run [0x8E, 0xFE, 0xFE, 0xFF, 0x00] = some (0, []) := by decide
  have hwrite := h _ _ hread
  revert hwrite
  decide

end BitBlocks
