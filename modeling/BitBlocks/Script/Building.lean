import BitBlocks.Lib.Reader
import BitBlocks.Script.Script

/-!
# Building a script and reading it back

`operator<<` appends an instruction to a script, a push with one of four forms of its size, and
`GetOp` takes the instructions off again. Here the iterator of `GetOp2` is an index and every
byte is read with a check, so that a read past the end would be seen; none is. `GetOp2` counts
the bytes that are left in an `unsigned int`: in a script of 2³² bytes or more it can take an
instruction that is whole for one that is cut short.
-/

namespace BitBlocks

open CompactSize

namespace CScript

/-! ## `GetOp2` with an index -/

structure PastEnd where
  index : Nat
deriving DecidableEq, Repr

/-- What `GetOp2` returns, and what it leaves in its arguments. -/
structure GetOpResult where
  fRet : Bool
  opcodeRet : UInt8
  vchRet : Valtype
  pc : Nat
deriving DecidableEq, Repr

/-- `n` bytes from `pc` on. -/
def readBytes (script : CScript) (pc n : Nat) : Except PastEnd Valtype :=
  if pc + n ≤ script.length then .ok ((script.drop pc).take n) else .error ⟨script.length⟩

def GetOpResult.fail (pc : Nat) : GetOpResult := ⟨false, OP_INVALIDOPCODE, [], pc⟩

/-- The data of a push, behind its size. -/
def getData (script : CScript) (opcode : UInt8) (nSize pc : Nat) : Except PastEnd GetOpResult := do
  if script.length < pc ∨ (script.length - pc) % 2 ^ 32 < nSize then return .fail pc
  let vch ← readBytes script pc nSize
  return ⟨true, opcode, vch, pc + nSize⟩

/-- How many bytes the size takes behind `OP_PUSHDATA1` and the others. -/
def sizeBytes (opcode : UInt8) : Nat :=
  if opcode = OP_PUSHDATA1 then 1 else if opcode = OP_PUSHDATA2 then 2 else 4

/-- The immediate operand, from behind the opcode on. -/
def getImmediate (script : CScript) (opcode : UInt8) (pc : Nat) : Except PastEnd GetOpResult := do
  if opcode ≤ OP_PUSHDATA4 then
    if opcode < OP_PUSHDATA1 then getData script opcode opcode.toNat pc
    else if script.length < pc + sizeBytes opcode then return .fail pc
    else
      let nSize ← readBytes script pc (sizeBytes opcode)
      getData script opcode (leValue nSize) (pc + sizeBytes opcode)
  else return ⟨true, opcode, [], pc⟩

def getOp2 (script : CScript) (pc : Nat) : Except PastEnd GetOpResult := do
  if script.length ≤ pc then return .fail pc
  -- Read instruction
  if script.length < pc + 1 then return .fail pc
  let opcode ← readBytes script pc 1
  getImmediate script (opcode.headD 0) (pc + 1)

variable {script : CScript} {pc : Nat} {opcode : UInt8}

theorem readBytes_eq {n : Nat} (h : n ≤ (script.drop pc).length) :
    pc ≤ script.length → readBytes script pc n = .ok ((script.drop pc).take n) := by
  intro hpc
  rw [List.length_drop] at h
  rw [readBytes, if_pos (by omega)]

/-- What `GetOp` takes off, with the index of the part that follows. -/
def GetOpResult.of (script : CScript) (after : CScript) :
    Option (UInt8 × Valtype × CScript) → GetOpResult
  | some (opcode, vch, rest) => ⟨true, opcode, vch, script.length - rest.length⟩
  | none => .fail (script.length - after.length)

/-- **Data that the count finds is there.** -/
theorem getData_eq {nSize : Nat} (hpc : pc ≤ script.length) : getData script opcode nSize pc =
      .ok (.of script (script.drop pc)
        (if (script.drop pc).length % 2 ^ 32 < nSize then none
          else some (opcode, (script.drop pc).take nSize, (script.drop pc).drop nSize))) := by
  have hlen : (script.drop pc).length = script.length - pc := List.length_drop
  have hback : script.length - (script.length - pc) = pc := Nat.sub_sub_self hpc
  rw [getData]
  by_cases hshort : (script.length - pc) % 2 ^ 32 < nSize
  · rw [if_pos (Or.inr hshort), hlen, if_pos hshort, GetOpResult.of, hlen, hback]
    rfl
  · have hle : nSize ≤ (script.drop pc).length := by
      rw [hlen]
      exact (Nat.le_of_not_lt hshort).trans (Nat.mod_le _ _)
    have hnext : script.length - ((script.drop pc).drop nSize).length = pc + nSize := by
      rw [List.length_drop]
      omega
    rw [if_neg (not_or.mpr ⟨Nat.not_lt.mpr hpc, hshort⟩), readBytes_eq hle hpc, hlen,
      if_neg hshort, GetOpResult.of, hnext]
    rfl

theorem getSize_eq (opcode : UInt8) (pc : CScript) : getSize opcode pc =
      if opcode < OP_PUSHDATA1 then some (opcode.toNat, pc)
      else if pc.length < sizeBytes opcode then none
      else some (leValue (pc.take (sizeBytes opcode)), pc.drop (sizeBytes opcode)) := by
  unfold getSize sizeBytes
  by_cases hdirect : opcode < OP_PUSHDATA1
  · rw [if_pos hdirect, if_pos hdirect]
  rw [if_neg hdirect, if_neg hdirect]
  by_cases h1 : opcode = OP_PUSHDATA1
  · rw [if_pos h1, if_pos h1]
    rcases pc with _ | ⟨b0, pc⟩
    · rfl
    · simp [leValue]
  rw [if_neg h1, if_neg h1]
  by_cases h2 : opcode = OP_PUSHDATA2
  · rw [if_pos h2, if_pos h2]
    rcases pc with _ | ⟨b0, _ | ⟨b1, pc⟩⟩
    · rfl
    · rfl
    · simp [leValue]
  · rw [if_neg h2, if_neg h2]
    rcases pc with _ | ⟨b0, _ | ⟨b1, _ | ⟨b2, _ | ⟨b3, pc⟩⟩⟩⟩
    · rfl
    · rfl
    · rfl
    · rfl
    · simp [leValue]
      omega

theorem getImmediate_eq (hpc : pc ≤ script.length) : getImmediate script opcode pc =
      .ok (.of script (stuck (opcode :: script.drop pc)) (getOp (opcode :: script.drop pc))) := by
  have hlen : (script.drop pc).length = script.length - pc := List.length_drop
  have hback : script.length - (script.drop pc).length = pc := by omega
  rw [getImmediate, getOp, stuck, getSize_eq]
  by_cases hpush : opcode ≤ OP_PUSHDATA4
  swap
  · rw [if_neg hpush, if_neg hpush, GetOpResult.of, hback]
    rfl
  rw [if_pos hpush, if_pos hpush]
  by_cases hdirect : opcode < OP_PUSHDATA1
  · rw [if_pos hdirect, if_pos hdirect, getData_eq hpc]
  rw [if_neg hdirect, if_neg hdirect]
  by_cases hsize : (script.drop pc).length < sizeBytes opcode
  · rw [if_pos (by omega), if_pos hsize]
    dsimp only
    rw [GetOpResult.of, hback]
    rfl
  · rw [if_neg (by omega), if_neg hsize, readBytes_eq (Nat.le_of_not_lt hsize) hpc, List.drop_drop]
    exact getData_eq (by omega)

/-- **No byte past the end is read**, and with the part of the script at the iterator in its
place `GetOp2` is `GetOp`. -/
theorem getOp2_eq (hpc : pc ≤ script.length) : getOp2 script pc =
      .ok (.of script (stuck (script.drop pc)) (getOp (script.drop pc))) := by
  unfold getOp2
  by_cases hend : script.length ≤ pc
  · have hnil : script.drop pc = [] := List.drop_eq_nil_of_le hend
    have hpos : script.length = pc := Nat.le_antisymm hend hpc
    rw [if_pos hend, hnil, ← hpos]
    rfl
  obtain ⟨opcode, rest, hrest⟩ : ∃ opcode rest, script.drop pc = opcode :: rest := by
    refine List.exists_cons_of_length_pos ?_
    rw [List.length_drop]
    omega
  have hdrop : script.drop (pc + 1) = rest := by
    rw [← List.drop_drop, hrest]
    rfl
  have hread : readBytes script pc 1 = .ok [opcode] := by
    rw [readBytes_eq (by rw [hrest, List.length_cons]; omega) hpc, hrest]
    rfl
  rw [if_neg hend, if_neg (by omega), hread, hrest, ← hdrop]
  exact getImmediate_eq (by omega)

theorem length_stuck_cons (opcode : UInt8) (pc : CScript) :
    (stuck (opcode :: pc)).length ≤ pc.length := by
  rw [stuck]
  split
  · exact Nat.le_refl _
  · next hsize => exact length_getSize hsize

/-- **The iterator advances**, up to the end at most, whether there was an instruction or not. -/
theorem getOp2_advances (hpc : pc < script.length) :
    ∃ r, getOp2 script pc = .ok r ∧ pc < r.pc ∧ r.pc ≤ script.length := by
  refine ⟨_, getOp2_eq hpc.le, ?_⟩
  obtain ⟨opcode, rest, hrest⟩ : ∃ opcode rest, script.drop pc = opcode :: rest := by
    refine List.exists_cons_of_length_pos ?_
    rw [List.length_drop]
    omega
  have hlen : rest.length + 1 = script.length - pc := by
    rw [← List.length_cons, ← hrest, List.length_drop]
  rw [hrest]
  cases hop : getOp (opcode :: rest) with
  | none =>
    have hstuck := length_stuck_cons opcode rest
    change pc < script.length - _ ∧ script.length - _ ≤ script.length
    omega
  | some r =>
    obtain ⟨_, _, pc'⟩ := r
    have hshorter := length_getOp hop
    rw [List.length_cons] at hshorter
    change pc < script.length - pc'.length ∧ script.length - pc'.length ≤ script.length
    omega

theorem getOp2_end (hpc : script.length ≤ pc) : getOp2 script pc = .ok (.fail pc) := by
  rw [getOp2, if_pos hpc]
  rfl

/-! ## Instructions -/

def Operand (opcode : UInt8) (vch : Valtype) : Prop :=
  if opcode < OP_PUSHDATA1 then vch.length = opcode.toNat
  else if opcode ≤ OP_PUSHDATA4 then vch.length < 256 ^ sizeBytes opcode
  else vch = []

structure Instruction where
  opcode : UInt8
  vch : Valtype
  operand : Operand opcode vch

namespace Instruction

/-- The size of the data, where the opcode does not give it. -/
def size (i : Instruction) : List UInt8 :=
  if i.opcode < OP_PUSHDATA1 ∨ OP_PUSHDATA4 < i.opcode then []
  else writeLE (sizeBytes i.opcode) i.vch.length

def bytes (i : Instruction) : CScript := i.opcode :: (i.size ++ i.vch)

theorem getSize_size (i : Instruction) (hpush : i.opcode ≤ OP_PUSHDATA4) (rest : CScript) :
    getSize i.opcode (i.size ++ i.vch ++ rest) = some (i.vch.length, i.vch ++ rest) := by
  have hoperand := i.operand
  rw [getSize_eq, size]
  rw [Operand] at hoperand
  by_cases hdirect : i.opcode < OP_PUSHDATA1
  · rw [if_pos hdirect] at hoperand ⊢
    rw [if_pos (Or.inl hdirect), hoperand]
    rfl
  · rw [if_neg hdirect, if_pos hpush] at hoperand
    have hlen := length_writeLE (sizeBytes i.opcode) i.vch.length
    rw [if_neg hdirect, if_neg (not_or.mpr ⟨hdirect, UInt8.not_lt.mpr hpush⟩), List.append_assoc,
      List.take_left' hlen, List.drop_left' hlen, leValue_writeLE hoperand, if_neg]
    rw [List.length_append, hlen]
    omega

/-- **`GetOp` on an instruction**: it is taken off, unless the count of the bytes that are left
is too low. -/
theorem getOp_bytes (i : Instruction) (rest : CScript) : getOp (i.bytes ++ rest) =
      if (i.vch.length + rest.length) % 2 ^ 32 < i.vch.length then none
      else some (i.opcode, i.vch, rest) := by
  have hoperand := i.operand
  rw [bytes, List.cons_append, getOp]
  by_cases hpush : i.opcode ≤ OP_PUSHDATA4
  · rw [if_pos hpush, i.getSize_size hpush]
    dsimp only
    rw [List.length_append, List.take_left, List.drop_left]
  · have hnot : ¬ i.opcode < OP_PUSHDATA1 := fun h =>
      hpush (UInt8.le_trans (UInt8.le_of_lt h) (by decide))
    rw [Operand, if_neg hnot, if_neg hpush] at hoperand
    rw [if_neg hpush, size, if_pos (Or.inr (UInt8.not_le.mp hpush)), hoperand]
    rfl

/-- **What `GetOp` takes off is an instruction.** -/
theorem exists_of_getOp {pc rest : CScript} {opcode : UInt8} {vch : Valtype}
    (h : getOp pc = some (opcode, vch, rest)) :
    ∃ i : Instruction, i.opcode = opcode ∧ i.vch = vch ∧ pc = i.bytes ++ rest := by
  cases pc with
  | nil => cases h
  | cons b pc =>
    rw [getOp] at h
    by_cases hpush : b ≤ OP_PUSHDATA4
    · rw [if_pos hpush, getSize_eq] at h
      by_cases hdirect : b < OP_PUSHDATA1
      · rw [if_pos hdirect] at h
        dsimp only at h
        split at h
        · cases h
        · rename_i hle
          obtain ⟨rfl, hrest⟩ := Prod.mk.inj (Option.some.inj h)
          obtain ⟨rfl, rfl⟩ := Prod.mk.inj hrest
          have hlen : (pc.take b.toNat).length = b.toNat :=
            List.length_take_of_le ((Nat.le_of_not_lt hle).trans (Nat.mod_le _ _))
          refine ⟨⟨b, pc.take b.toNat, by rw [Operand, if_pos hdirect, hlen]⟩, rfl, rfl, ?_⟩
          rw [bytes, size, if_pos (Or.inl hdirect), List.nil_append, List.cons_append,
            List.take_append_drop]
      · rw [if_neg hdirect] at h
        by_cases hshort : pc.length < sizeBytes b
        · rw [if_pos hshort] at h
          cases h
        · rw [if_neg hshort] at h
          dsimp only at h
          split at h
          · cases h
          · rename_i hle
            obtain ⟨rfl, hrest⟩ := Prod.mk.inj (Option.some.inj h)
            obtain ⟨rfl, rfl⟩ := Prod.mk.inj hrest
            have hk : (pc.take (sizeBytes b)).length = sizeBytes b :=
              List.length_take_of_le (Nat.le_of_not_lt hshort)
            have hlen : ((pc.drop (sizeBytes b)).take (leValue (pc.take (sizeBytes b)))).length =
                leValue (pc.take (sizeBytes b)) :=
              List.length_take_of_le ((Nat.le_of_not_lt hle).trans (Nat.mod_le _ _))
            have hoperand : Operand b
                ((pc.drop (sizeBytes b)).take (leValue (pc.take (sizeBytes b)))) := by
              have hlt := leValue_lt (pc.take (sizeBytes b))
              rw [hk] at hlt
              rwa [Operand, if_neg hdirect, if_pos hpush, hlen]
            refine ⟨⟨b, _, hoperand⟩, rfl, rfl, ?_⟩
            have hsize : writeLE (sizeBytes b) (leValue (pc.take (sizeBytes b))) =
                pc.take (sizeBytes b) := by
              have hwrite := writeLE_leValue (pc.take (sizeBytes b))
              rwa [hk] at hwrite
            rw [bytes, size, if_neg (not_or.mpr ⟨hdirect, UInt8.not_lt.mpr hpush⟩), hlen, hsize,
              List.cons_append, List.append_assoc, List.take_append_drop,
              List.take_append_drop]
    · rw [if_neg hpush] at h
      obtain ⟨rfl, hrest⟩ := Prod.mk.inj (Option.some.inj h)
      obtain ⟨rfl, rfl⟩ := Prod.mk.inj hrest
      have hnot : ¬ b < OP_PUSHDATA1 := fun h =>
        hpush (UInt8.le_trans (UInt8.le_of_lt h) (by decide))
      refine ⟨⟨b, [], by rw [Operand, if_neg hnot, if_neg hpush]⟩, rfl, rfl, ?_⟩
      rw [bytes, size, if_pos (Or.inr (UInt8.not_le.mp hpush))]
      rfl

/-- How many bytes the data has, and the whole instruction. -/
def extent (i : Instruction) : Nat × Nat := (i.vch.length, i.bytes.length)

end Instruction

/-! ## Deleting from a script -/

theorem eraseFront_eq_self {b : CScript} (hb : b ≠ []) {pc : CScript} (h : ¬ b <+: pc) :
    eraseFront b hb pc = (0, pc) := by
  rw [eraseFront, dif_neg]
  rintro ⟨-, htake⟩
  exact h (htake ▸ List.take_prefix _ _)

theorem findAndDeleteLoop_snd (b : CScript) (hb : b ≠ []) (pc : CScript) :
    (findAndDeleteLoop b hb pc).2 =
      match getOp (eraseFront b hb pc).2 with
      | none => (eraseFront b hb pc).2
      | some (_, _, pc') =>
        (eraseFront b hb pc).2.take ((eraseFront b hb pc).2.length - pc'.length) ++
          (findAndDeleteLoop b hb pc').2 := by
  rw [findAndDeleteLoop]
  dsimp only
  split
  · next hop => rw [hop]
  · next hop => rw [hop]

/-! ## Items -/

/-- What is put on a script: data to push, or an opcode that is not about data. -/
inductive Item
  | data (vch : Valtype)
  | op (opcode : UInt8)
deriving DecidableEq, Repr

namespace Item

/-- A vector whose size can be written, or an opcode that nothing follows. -/
def Valid : Item → Prop
  | .data vch => vch.length < 2 ^ 32
  | .op opcode => OP_PUSHDATA4 < opcode

/-- `operator<<`: what is inserted at the end of the script. -/
def write : Item → CScript
  | .data vch => push vch
  | .op opcode => [opcode]

/-- What `GetOp` gives stands for. -/
def ofGetOp (opcode : UInt8) (vch : Valtype) : Item :=
  if opcode ≤ OP_PUSHDATA4 then .data vch else .op opcode

/-- How many bytes the data has, and the whole instruction. -/
def extent : Item → Nat × Nat
  | .data vch =>
    (vch.length, vch.length +
      (if vch.length < 0x4c then 1 else if vch.length ≤ 0xff then 2
        else if vch.length ≤ 0xffff then 3 else 5))
  | .op _ => (0, 1)

end Item

theorem sizes_eq (k n : Nat) :
    ((List.range k).map fun i => UInt8.ofNat (n / 2 ^ (8 * i))) = writeLE k n := by
  induction k generalizing n with
  | zero => rfl
  | succ k ih =>
    rw [List.range_succ_eq_map, List.map_cons, List.map_map, writeLE, ← ih (n / 256)]
    refine congrArg₂ List.cons (by rw [Nat.mul_zero, Nat.pow_zero, Nat.div_one])
      (List.map_congr_left fun i _ => ?_)
    have hpow : 2 ^ (8 * (i + 1)) = 256 * 2 ^ (8 * i) := by
      rw [Nat.mul_add, Nat.pow_add, Nat.mul_comm]
    change UInt8.ofNat (n / 2 ^ (8 * (i + 1))) = UInt8.ofNat (n / 256 / 2 ^ (8 * i))
    rw [hpow, Nat.div_div_eq_div_mul]

theorem push_eq (b : Valtype) : push b =
      (if b.length < 0x4c then writeLE 1 b.length
        else if b.length ≤ 0xff then OP_PUSHDATA1 :: writeLE 1 b.length
        else if b.length ≤ 0xffff then OP_PUSHDATA2 :: writeLE 2 b.length
        else OP_PUSHDATA4 :: writeLE 4 b.length) ++ b := by
  rw [push]
  dsimp only
  rw [sizes_eq, sizes_eq, sizes_eq]
  rfl

namespace Item

theorem ofGetOp_push {opcode : UInt8} (h : opcode ≤ OP_PUSHDATA4) (vch : Valtype) :
    ofGetOp opcode vch = .data vch := if_pos h

theorem exists_direct {vch : Valtype} (h : vch.length < 0x4c) :
    ∃ i : Instruction, i.bytes = writeLE 1 vch.length ++ vch ∧
      ofGetOp i.opcode i.vch = .data vch ∧ i.extent = (vch.length, vch.length + 1) := by
  have hnat : (UInt8.ofNat vch.length).toNat = vch.length := by
    rw [UInt8.toNat_ofNat']
    omega
  have hlt : UInt8.ofNat vch.length < OP_PUSHDATA1 := by
    rw [UInt8.lt_iff_toNat_lt, hnat]
    exact h
  have hoperand : Operand (UInt8.ofNat vch.length) vch := by
    rw [Operand, if_pos hlt, hnat]
  have hbytes : Instruction.bytes ⟨UInt8.ofNat vch.length, vch, hoperand⟩ =
      writeLE 1 vch.length ++ vch := by
    rw [Instruction.bytes, Instruction.size, if_pos (Or.inl hlt)]
    rfl
  refine ⟨⟨UInt8.ofNat vch.length, vch, hoperand⟩, hbytes,
    ofGetOp_push (UInt8.le_trans (UInt8.le_of_lt hlt) (by decide)) vch, ?_⟩
  rw [Instruction.extent, hbytes, List.length_append, length_writeLE, Nat.add_comm]

theorem exists_sized {opcode : UInt8} {vch : Valtype} (hlow : ¬ opcode < OP_PUSHDATA1)
    (hhigh : opcode ≤ OP_PUSHDATA4) (h : vch.length < 256 ^ sizeBytes opcode) :
    ∃ i : Instruction, i.bytes = opcode :: writeLE (sizeBytes opcode) vch.length ++ vch ∧
      ofGetOp i.opcode i.vch = .data vch ∧
      i.extent = (vch.length, vch.length + (sizeBytes opcode + 1)) := by
  have hoperand : Operand opcode vch := by
    rw [Operand, if_neg hlow, if_pos hhigh]
    exact h
  have hbytes : Instruction.bytes ⟨opcode, vch, hoperand⟩ =
      opcode :: writeLE (sizeBytes opcode) vch.length ++ vch := by
    rw [Instruction.bytes, Instruction.size, if_neg (not_or.mpr ⟨hlow, UInt8.not_lt.mpr hhigh⟩)]
    rfl
  refine ⟨⟨opcode, vch, hoperand⟩, hbytes, ofGetOp_push hhigh vch, ?_⟩
  rw [Instruction.extent, hbytes, List.length_append, List.length_cons, length_writeLE,
    Nat.add_comm]

/-- **What is written is an instruction**, with the form that fits the size. -/
theorem exists_instruction {item : Item} (h : item.Valid) :
    ∃ i : Instruction, i.bytes = item.write ∧ ofGetOp i.opcode i.vch = item ∧
      i.extent = item.extent := by
  cases item with
  | op opcode =>
    have habove : OP_PUSHDATA4 < opcode := h
    have hhigh : ¬ opcode ≤ OP_PUSHDATA4 := UInt8.not_le.mpr habove
    have hlow : ¬ opcode < OP_PUSHDATA1 := fun hlt =>
      hhigh (UInt8.le_trans (UInt8.le_of_lt hlt) (by decide))
    have hoperand : Operand opcode [] := by
      rw [Operand, if_neg hlow, if_neg hhigh]
    have hbytes : Instruction.bytes ⟨opcode, [], hoperand⟩ = [opcode] := by
      rw [Instruction.bytes, Instruction.size, if_pos (Or.inr habove)]
      rfl
    refine ⟨⟨opcode, [], hoperand⟩, hbytes, if_neg hhigh, ?_⟩
    rw [Instruction.extent, hbytes]
    rfl
  | data vch =>
    rw [Item.write, push_eq, Item.extent]
    by_cases h1 : vch.length < 0x4c
    · rw [if_pos h1, if_pos h1]
      exact exists_direct h1
    rw [if_neg h1, if_neg h1]
    by_cases h2 : vch.length ≤ 0xff
    · rw [if_pos h2, if_pos h2]
      exact exists_sized (by decide : ¬ OP_PUSHDATA1 < OP_PUSHDATA1) (by decide)
        (Nat.lt_succ_of_le h2)
    rw [if_neg h2, if_neg h2]
    by_cases h3 : vch.length ≤ 0xffff
    · rw [if_pos h3, if_pos h3]
      exact exists_sized (by decide : ¬ OP_PUSHDATA2 < OP_PUSHDATA1) (by decide)
        (Nat.lt_succ_of_le h3)
    · rw [if_neg h3, if_neg h3]
      exact exists_sized (by decide : ¬ OP_PUSHDATA4 < OP_PUSHDATA1) (by decide) h

end Item

/-! ## Scripts -/

section Room

variable {α : Type} (extent : α → Nat × Nat)

/-- An instruction that others follow is not taken for one that is cut short: the bytes behind
its size, counted in an `unsigned int`, are as many as its data. -/
def Counted (a : α) (post : List α) : Prop :=
  (extent a).1 ≤ ((extent a).1 + (post.map fun b => (extent b).2).sum) % 2 ^ 32

instance (a : α) (post : List α) : Decidable (Counted extent a post) :=
  inferInstanceAs (Decidable (_ ≤ _))

/-- None of the instructions is taken for one that is cut short. -/
def Room : List α → Prop
  | [] => True
  | a :: post => Counted extent a post ∧ Room post

variable {extent}

theorem room_iff {l : List α} :
    Room extent l ↔ ∀ pre a post, l = pre ++ a :: post → Counted extent a post := by
  induction l with
  | nil => exact iff_of_true trivial fun pre a post h => absurd h.symm (by simp)
  | cons a l ih =>
    constructor
    · rintro ⟨hhead, htail⟩ pre b post heq
      cases pre with
      | nil =>
        obtain ⟨rfl, rfl⟩ := List.cons.inj heq
        exact hhead
      | cons c pre => exact ih.mp htail pre b post (List.cons.inj heq).2
    · intro h
      exact ⟨h [] a l rfl, ih.mpr fun pre b post heq => h (a :: pre) b post (by rw [heq]; rfl)⟩

end Room

/-- The script that is built from items, one after the other. -/
def build (items : List Item) : CScript := items.foldl (fun script item => script ++ item.write) []

/-- What `GetOp` takes off, until there is nothing that it can; and what is left. -/
def readItems (pc : CScript) : List Item × CScript :=
  match _h : getOp pc with
  | none => ([], pc)
  | some (opcode, vch, pc') =>
    let (items, rest) := readItems pc'
    (.ofGetOp opcode vch :: items, rest)
termination_by pc.length
decreasing_by exact length_getOp _h

variable {pc : CScript} {vch : Valtype} {items : List Item}

theorem readItems_stop (h : getOp pc = none) : readItems pc = ([], pc) := by
  rw [readItems]
  split
  · rfl
  · next hop => exact absurd (h.symm.trans hop) (by simp)

theorem readItems_op {pc' : CScript} {opcode : UInt8} (h : getOp pc = some (opcode, vch, pc')) :
    readItems pc = (.ofGetOp opcode vch :: (readItems pc').1, (readItems pc').2) := by
  rw [readItems]
  split
  · next hop => exact absurd (h.symm.trans hop) (by simp)
  · next hop =>
      obtain ⟨rfl, rfl, rfl⟩ := getOp_unique h hop
      rfl

theorem build_eq (items : List Item) : build items = items.flatMap Item.write := by
  have hfold : ∀ (items : List Item) (script : CScript),
      items.foldl (fun script item => script ++ item.write) script =
        script ++ items.flatMap Item.write := by
    intro items
    induction items with
    | nil => exact fun script => (List.append_nil script).symm
    | cons item items ih =>
      intro script
      rw [List.foldl_cons, ih, List.flatMap_cons, List.append_assoc]
  exact hfold items []

theorem length_writes (h : ∀ item ∈ items, item.Valid) :
    (items.flatMap Item.write).length = (items.map fun item => item.extent.2).sum := by
  rw [List.length_flatMap]
  refine congrArg List.sum (List.map_congr_left fun item hitem => ?_)
  obtain ⟨i, hbytes, -, hextent⟩ := Item.exists_instruction (h item hitem)
  rw [← hbytes, ← hextent]
  rfl

/-- **What is built is read**, item by item and to the end, just when it has room. -/
theorem readItems_writes_iff (h : ∀ item ∈ items, item.Valid) :
    readItems (items.flatMap Item.write) = (items, []) ↔ Room Item.extent items := by
  induction items with
  | nil => exact iff_of_true (readItems_stop rfl) trivial
  | cons item items ih =>
    have hitems := fun item' h' => h item' (List.mem_cons_of_mem _ h')
    obtain ⟨i, hbytes, hitem, hextent⟩ := Item.exists_instruction (h item List.mem_cons_self)
    have hop := i.getOp_bytes (items.flatMap Item.write)
    have hdata : i.vch.length = item.extent.1 := congrArg Prod.fst hextent
    rw [hbytes, length_writes hitems, hdata] at hop
    rw [List.flatMap_cons, Room, Counted]
    by_cases hshort : (item.extent.1 + (items.map fun item => item.extent.2).sum) % 2 ^ 32 <
        item.extent.1
    · rw [if_pos hshort] at hop
      rw [readItems_stop hop]
      exact iff_of_false (fun heq => List.cons_ne_nil _ _ (Prod.mk.inj heq).1.symm)
        fun hroom => Nat.not_lt.mpr hroom.1 hshort
    · rw [if_neg hshort] at hop
      rw [readItems_op hop, hitem, and_iff_right (Nat.le_of_not_lt hshort), ← ih hitems]
      constructor
      · intro heq
        obtain ⟨hhead, hrest⟩ := Prod.mk.inj heq
        exact Prod.ext (List.cons.inj hhead).2 hrest
      · intro heq
        rw [heq]

/-- **At the beginning of an instruction** `GetOp2` gives it and goes to the next, unless it
takes it for one that is cut short. -/
theorem getOp2_boundary (pre : List Instruction) (i : Instruction) (post : List Instruction) :
    getOp2 ((pre ++ i :: post).flatMap Instruction.bytes) (pre.flatMap Instruction.bytes).length =
        .ok ⟨true, i.opcode, i.vch, ((pre ++ [i]).flatMap Instruction.bytes).length⟩ ↔
      Counted Instruction.extent i post := by
  have hscript : (pre ++ i :: post).flatMap Instruction.bytes =
      pre.flatMap Instruction.bytes ++ (i.bytes ++ post.flatMap Instruction.bytes) := by
    rw [List.flatMap_append, List.flatMap_cons]
  have hnext : ((pre ++ [i]).flatMap Instruction.bytes).length =
      (pre.flatMap Instruction.bytes).length + i.bytes.length := by
    rw [List.flatMap_append, List.flatMap_singleton, List.length_append]
  have hpost : (post.flatMap Instruction.bytes).length =
      (post.map fun i => i.extent.2).sum := List.length_flatMap
  have hle : (pre.flatMap Instruction.bytes).length ≤
      ((pre ++ i :: post).flatMap Instruction.bytes).length := by
    rw [hscript, List.length_append]
    exact Nat.le_add_right _ _
  have hlen : ((pre ++ i :: post).flatMap Instruction.bytes).length -
      (post.flatMap Instruction.bytes).length =
        ((pre ++ [i]).flatMap Instruction.bytes).length := by
    rw [hscript, hnext, List.length_append, List.length_append]
    omega
  have hop := i.getOp_bytes (post.flatMap Instruction.bytes)
  rw [getOp2_eq hle]
  have hdrop : ((pre ++ i :: post).flatMap Instruction.bytes).drop
      (pre.flatMap Instruction.bytes).length = i.bytes ++ post.flatMap Instruction.bytes := by
    rw [hscript, List.drop_left]
  rw [hdrop, hop, Counted, ← hpost]
  change _ ↔ i.vch.length ≤ (i.vch.length + _) % 2 ^ 32
  split
  · next hshort =>
      refine iff_of_false (fun heq => ?_) (Nat.not_le.mpr hshort)
      exact absurd (congrArg GetOpResult.fRet (Except.ok.inj heq)) Bool.false_ne_true
  · next hcounted =>
      rw [GetOpResult.of, hlen]
      exact iff_of_true rfl (Nat.le_of_not_lt hcounted)

/--
**Building a script and reading it are inverse just where the count does not wrap.** What is
built from items is read back, to the end, if and only if none of the pushes is taken for one
that is cut short. In any script `GetOp2` reads no byte past the end, goes on if it is not there,
and never beyond. And it gives each instruction of a script that is made of whole ones, under the
same condition.
-/
theorem readItems_build_iff {items : List Item} (h : ∀ item ∈ items, item.Valid)
    (script : CScript) (pc : Nat) (instructions : List Instruction) :
    (readItems (build items) = (items, []) ↔ Room Item.extent items) ∧
    (∃ r, getOp2 script pc = .ok r ∧ (pc < script.length → pc < r.pc ∧ r.pc ≤ script.length) ∧
      (script.length ≤ pc → r = .fail pc)) ∧
    ((∀ pre i post, instructions = pre ++ i :: post →
        getOp2 (instructions.flatMap Instruction.bytes) (pre.flatMap Instruction.bytes).length =
          .ok ⟨true, i.opcode, i.vch, ((pre ++ [i]).flatMap Instruction.bytes).length⟩) ↔
      Room Instruction.extent instructions) := by
  refine ⟨?_, ?_, ?_⟩
  · rw [build_eq]
    exact readItems_writes_iff h
  · rcases Nat.lt_or_ge pc script.length with hpc | hpc
    · obtain ⟨r, hread, hnext⟩ := getOp2_advances hpc
      exact ⟨r, hread, fun _ => hnext, fun hend => absurd hpc (Nat.not_lt.mpr hend)⟩
    · exact ⟨.fail pc, getOp2_end hpc, fun h => absurd h (Nat.not_lt.mpr hpc), fun _ => rfl⟩
  · rw [room_iff]
    constructor
    · rintro h pre i post rfl
      exact (getOp2_boundary pre i post).mp (h pre i post rfl)
    · rintro h pre i post rfl
      exact (getOp2_boundary pre i post).mpr (h pre i post rfl)

/-- A push of 76 bytes, with its size in a byte of its own, and an opcode behind it. -/
theorem readItems_build_iff_pushdata1 :
    readItems (build [.data (List.replicate 76 7), .op OP_CHECKSIG]) =
      ([.data (List.replicate 76 7), .op OP_CHECKSIG], []) ∧
    ∃ r, getOp2 [OP_CHECKSIG] 0 = .ok r ∧ 0 < r.pc ∧ r.pc ≤ 1 := by
  have hvalid : ∀ item ∈ [Item.data (List.replicate 76 7), .op OP_CHECKSIG], item.Valid := by
    intro item hitem
    rcases List.mem_cons.mp hitem with rfl | hitem
    · exact (by decide : 76 < 2 ^ 32)
    · rw [List.mem_singleton.mp hitem]
      exact (by decide : OP_PUSHDATA4 < OP_CHECKSIG)
  obtain ⟨hitems, ⟨r, hread, hnext, -⟩, -⟩ := readItems_build_iff hvalid [OP_CHECKSIG] 0 []
  exact ⟨hitems.mpr ⟨by decide, by decide, trivial⟩, r, hread, hnext (by decide)⟩

/-- A byte, and then data with which 2³² bytes follow the size of the first push: they are
counted as none. -/
theorem not_room_wrapping (hlen : vch.length = 4294967290) :
    ¬ Room Item.extent [.data [0], .data vch] := by
  rintro ⟨hcounted, -⟩
  simp [Counted, Item.extent, hlen] at hcounted

theorem readItems_ne_of_length (hlen : vch.length = 4294967290) :
    (∀ item ∈ [Item.data [0], Item.data vch], item.Valid) ∧
      readItems (build [.data [0], .data vch]) ≠ ([.data [0], .data vch], []) := by
  have hvalid : ∀ item ∈ [Item.data [0], Item.data vch], item.Valid := by
    intro item hitem
    rcases List.mem_cons.mp hitem with rfl | hitem
    · exact (by decide : 1 < 2 ^ 32)
    · rw [List.mem_singleton.mp hitem, Item.Valid, hlen]
      decide
  refine ⟨hvalid, fun hread => ?_⟩
  rw [build_eq, readItems_writes_iff hvalid] at hread
  exact not_room_wrapping hlen hread

/-- **The first push is lost** with 4294967290 bytes behind it. -/
theorem readItems_wrapping :
    (∀ item ∈ [Item.data [0], Item.data (List.replicate 4294967290 0)], item.Valid) ∧
      readItems (build [.data [0], .data (List.replicate 4294967290 0)]) ≠
        ([.data [0], .data (List.replicate 4294967290 0)], []) :=
  readItems_ne_of_length List.length_replicate

end CScript

end BitBlocks
