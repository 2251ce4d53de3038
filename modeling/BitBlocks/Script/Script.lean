import BitBlocks.Primitives.Transaction

/-!
# Script opcodes

The values of `opcodetype` (`script.h`). A script is its bytes, so an opcode is a
byte; the bytes up to `OP_PUSHDATA4` push what follows them. The values between
`OP_1` and `OP_16` and between `OP_NOP1` and `OP_NOP10` are consecutive, the
others that have no name here are not executed. `OP_RETURN` is with the
transactions.
-/

namespace BitBlocks

/-! ## Push value -/

def OP_0 : UInt8 := 0x00
def OP_PUSHDATA1 : UInt8 := 0x4c
def OP_PUSHDATA2 : UInt8 := 0x4d
def OP_PUSHDATA4 : UInt8 := 0x4e
def OP_1NEGATE : UInt8 := 0x4f
def OP_RESERVED : UInt8 := 0x50
def OP_1 : UInt8 := 0x51
def OP_16 : UInt8 := 0x60

/-! ## Control -/

def OP_NOP : UInt8 := 0x61
def OP_IF : UInt8 := 0x63
def OP_NOTIF : UInt8 := 0x64
def OP_ELSE : UInt8 := 0x67
def OP_ENDIF : UInt8 := 0x68
def OP_VERIFY : UInt8 := 0x69

/-! ## Stack ops -/

def OP_TOALTSTACK : UInt8 := 0x6b
def OP_FROMALTSTACK : UInt8 := 0x6c
def OP_2DROP : UInt8 := 0x6d
def OP_2DUP : UInt8 := 0x6e
def OP_3DUP : UInt8 := 0x6f
def OP_2OVER : UInt8 := 0x70
def OP_2ROT : UInt8 := 0x71
def OP_2SWAP : UInt8 := 0x72
def OP_IFDUP : UInt8 := 0x73
def OP_DEPTH : UInt8 := 0x74
def OP_DROP : UInt8 := 0x75
def OP_DUP : UInt8 := 0x76
def OP_NIP : UInt8 := 0x77
def OP_OVER : UInt8 := 0x78
def OP_PICK : UInt8 := 0x79
def OP_ROLL : UInt8 := 0x7a
def OP_ROT : UInt8 := 0x7b
def OP_SWAP : UInt8 := 0x7c
def OP_TUCK : UInt8 := 0x7d

/-! ## Splice ops -/

def OP_CAT : UInt8 := 0x7e
def OP_SUBSTR : UInt8 := 0x7f
def OP_LEFT : UInt8 := 0x80
def OP_RIGHT : UInt8 := 0x81
def OP_SIZE : UInt8 := 0x82

/-! ## Bit logic -/

def OP_INVERT : UInt8 := 0x83
def OP_AND : UInt8 := 0x84
def OP_OR : UInt8 := 0x85
def OP_XOR : UInt8 := 0x86
def OP_EQUAL : UInt8 := 0x87
def OP_EQUALVERIFY : UInt8 := 0x88

/-! ## Numeric -/

def OP_1ADD : UInt8 := 0x8b
def OP_1SUB : UInt8 := 0x8c
def OP_2MUL : UInt8 := 0x8d
def OP_2DIV : UInt8 := 0x8e
def OP_NEGATE : UInt8 := 0x8f
def OP_ABS : UInt8 := 0x90
def OP_NOT : UInt8 := 0x91
def OP_0NOTEQUAL : UInt8 := 0x92
def OP_ADD : UInt8 := 0x93
def OP_SUB : UInt8 := 0x94
def OP_MUL : UInt8 := 0x95
def OP_DIV : UInt8 := 0x96
def OP_MOD : UInt8 := 0x97
def OP_LSHIFT : UInt8 := 0x98
def OP_RSHIFT : UInt8 := 0x99
def OP_BOOLAND : UInt8 := 0x9a
def OP_BOOLOR : UInt8 := 0x9b
def OP_NUMEQUAL : UInt8 := 0x9c
def OP_NUMEQUALVERIFY : UInt8 := 0x9d
def OP_NUMNOTEQUAL : UInt8 := 0x9e
def OP_LESSTHAN : UInt8 := 0x9f
def OP_GREATERTHAN : UInt8 := 0xa0
def OP_LESSTHANOREQUAL : UInt8 := 0xa1
def OP_GREATERTHANOREQUAL : UInt8 := 0xa2
def OP_MIN : UInt8 := 0xa3
def OP_MAX : UInt8 := 0xa4
def OP_WITHIN : UInt8 := 0xa5

/-! ## Crypto -/

def OP_RIPEMD160 : UInt8 := 0xa6
def OP_SHA1 : UInt8 := 0xa7
def OP_SHA256 : UInt8 := 0xa8
def OP_HASH160 : UInt8 := 0xa9
def OP_HASH256 : UInt8 := 0xaa
def OP_CODESEPARATOR : UInt8 := 0xab
def OP_CHECKSIG : UInt8 := 0xac
def OP_CHECKSIGVERIFY : UInt8 := 0xad
def OP_CHECKMULTISIG : UInt8 := 0xae
def OP_CHECKMULTISIGVERIFY : UInt8 := 0xaf

/-! ## Expansion -/

def OP_NOP1 : UInt8 := 0xb0
def OP_NOP10 : UInt8 := 0xb9
def OP_INVALIDOPCODE : UInt8 := 0xff

end BitBlocks

/-!
## Reading a script (`script.h`, `script.cpp`)

An iterator into a script is the part of the script that it points at. `GetOp`
takes an instruction off it: an opcode, the data it pushes, and the part that
follows. A loop over the instructions ends because what follows is shorter.
-/

namespace BitBlocks

abbrev Valtype := List UInt8

namespace CScript

/-- The size of the data of a push, and the part of the script behind the size. -/
def getSize (opcode : UInt8) (pc : CScript) : Option (Nat × CScript) :=
  if opcode < OP_PUSHDATA1 then some (opcode.toNat, pc)
  else if opcode = OP_PUSHDATA1 then
    match pc with
    | b₀ :: pc => some (b₀.toNat, pc)
    | _ => none
  else if opcode = OP_PUSHDATA2 then
    match pc with
    | b₀ :: b₁ :: pc => some (b₀.toNat + 2 ^ 8 * b₁.toNat, pc)
    | _ => none
  else
    match pc with
    | b₀ :: b₁ :: b₂ :: b₃ :: pc =>
      some (b₀.toNat + 2 ^ 8 * b₁.toNat + 2 ^ 16 * b₂.toNat + 2 ^ 24 * b₃.toNat, pc)
    | _ => none

/-- `GetOp2`: the opcode, the data of a push, what follows; nothing at the end or in a push
that is cut short. -/
def getOp (pc : CScript) : Option (UInt8 × Valtype × CScript) :=
  match pc with
  | [] => none
  | opcode :: pc =>
    if opcode ≤ OP_PUSHDATA4 then
      match getSize opcode pc with
      | none => none
      | some (nSize, pc) =>
        -- the bytes left are counted in an `unsigned int`
        if pc.length % 2 ^ 32 < nSize then none
        else some (opcode, pc.take nSize, pc.drop nSize)
    else some (opcode, [], pc)

variable {opcode : UInt8} {pc pc' : CScript} {vch : Valtype}

theorem length_getSize {nSize : Nat} (h : getSize opcode pc = some (nSize, pc')) :
    pc'.length ≤ pc.length := by
  unfold getSize at h
  split_ifs at h
  · obtain ⟨-, rfl⟩ := Prod.mk.inj (Option.some.inj h)
    exact Nat.le_refl _
  all_goals
    split at h
    · obtain ⟨-, rfl⟩ := Prod.mk.inj (Option.some.inj h)
      simp only [List.length_cons]
      omega
    · exact absurd h (by simp)

theorem length_of_getOp (h : getOp pc = some (opcode, vch, pc')) :
    1 + vch.length + pc'.length ≤ pc.length := by
  unfold getOp at h
  split at h
  · exact absurd h (by simp)
  rename_i op rest
  split at h
  · split at h
    · exact absurd h (by simp)
    rename_i nSize pc'' hsize
    have hle := length_getSize hsize
    split at h
    · exact absurd h (by simp)
    obtain ⟨-, hrest⟩ := Prod.mk.inj (Option.some.inj h)
    obtain ⟨rfl, rfl⟩ := Prod.mk.inj hrest
    rw [List.length_take, List.length_drop, List.length_cons]
    omega
  · obtain ⟨-, hrest⟩ := Prod.mk.inj (Option.some.inj h)
    obtain ⟨rfl, rfl⟩ := Prod.mk.inj hrest
    simp only [List.length_nil, List.length_cons]
    omega

/-- **An instruction takes at least its opcode.** -/
theorem length_getOp (h : getOp pc = some (opcode, vch, pc')) : pc'.length < pc.length := by
  have hlen := length_of_getOp h
  omega

theorem getOp_unique {pc1 pc2 : CScript} {opcode1 opcode2 : UInt8} {vch1 vch2 : Valtype}
    (h1 : getOp pc = some (opcode1, vch1, pc1)) (h2 : getOp pc = some (opcode2, vch2, pc2)) :
    opcode1 = opcode2 ∧ vch1 = vch2 ∧ pc1 = pc2 := by
  obtain ⟨hopcode, hrest⟩ := Prod.mk.inj (Option.some.inj (h1.symm.trans h2))
  obtain ⟨hvch, hpc⟩ := Prod.mk.inj hrest
  exact ⟨hopcode, hvch, hpc⟩

theorem ne_nil_of_getOp (h : getOp pc = some (opcode, vch, pc')) : pc ≠ [] := by
  rintro rfl
  exact absurd h (by simp [getOp])

/-- `operator<<` on a vector: the script that pushes it. -/
def push (b : Valtype) : CScript :=
  let size (n : Nat) : List UInt8 :=
    (List.range n).map fun i => UInt8.ofNat (b.length / 2 ^ (8 * i))
  (if b.length < OP_PUSHDATA1.toNat then size 1
    else if b.length ≤ 0xff then OP_PUSHDATA1 :: size 1
    else if b.length ≤ 0xffff then OP_PUSHDATA2 :: size 2
    else OP_PUSHDATA4 :: size 4) ++ b

/-- Erase `b` at the front as often as it is there; how often that was, and what is left. -/
def eraseFront (b : CScript) (hb : b ≠ []) (pc : CScript) : Nat × CScript :=
  if _h : b.length ≤ pc.length ∧ pc.take b.length = b then
    let (nFound, pc) := eraseFront b hb (pc.drop b.length)
    (nFound + 1, pc)
  else (0, pc)
termination_by pc.length
decreasing_by
  have := List.length_pos_iff.mpr hb
  rw [List.length_drop]
  omega

theorem length_eraseFront (b : CScript) (hb : b ≠ []) (pc : CScript) :
    (eraseFront b hb pc).2.length ≤ pc.length := by
  induction hn : pc.length using Nat.strong_induction_on generalizing pc with
  | h n ih =>
    unfold eraseFront
    split
    · rename_i h
      have hpos := List.length_pos_iff.mpr hb
      have hdrop : (pc.drop b.length).length = pc.length - b.length := List.length_drop
      have := ih (pc.drop b.length).length (by omega) _ rfl
      simp only
      omega
    · exact hn.le

/-- The loop of `FindAndDelete`, from an instruction on. -/
def findAndDeleteLoop (b : CScript) (hb : b ≠ []) (pc : CScript) : Nat × CScript :=
  let erased := eraseFront b hb pc
  match _h : getOp erased.2 with
  | none => erased
  | some (_, _, pc') =>
    let (nFound, rest) := findAndDeleteLoop b hb pc'
    (erased.1 + nFound, erased.2.take (erased.2.length - pc'.length) ++ rest)
termination_by pc.length
decreasing_by
  have hle : erased.2.length ≤ pc.length := length_eraseFront b hb pc
  have hlt := length_getOp _h
  omega

/-- `FindAndDelete`: how many places `b` was deleted at, and the script without it. -/
def findAndDelete (script b : CScript) : Nat × CScript :=
  if h : b = [] then (0, script) else findAndDeleteLoop b h script

def isPayToScriptHash (script : CScript) : Bool :=
  script.length == 23 && script.getD 0 0 == OP_HASH160 && script.getD 1 0 == 0x14 &&
    script.getD 22 0 == OP_EQUAL

/-- `IsPushOnly` does consider `OP_RESERVED` to be a push-type opcode. -/
def isPushOnly (pc : CScript) : Bool :=
  if pc = [] then true
  else
    match _h : getOp pc with
    | none => false
    | some (opcode, _, pc') => if opcode > OP_16 then false else isPushOnly pc'
termination_by pc.length
decreasing_by exact length_getOp _h

/-- Where `GetOp2` leaves the iterator when it fails: behind the opcode, and behind the size if
that was there. -/
def stuck (pc : CScript) : CScript :=
  match pc with
  | [] => []
  | opcode :: pc =>
    match getSize opcode pc with
    | none => pc
    | some (_, pc) => pc

/-- The instructions are the ones named, as far as the script goes; `none` stands for any. -/
def follows : List (Option UInt8) → CScript → Bool
  | _, [] => true
  | [], _ :: _ => false
  | o :: os, b :: pc =>
    match getOp (b :: pc) with
    | none => (o.isNone || o == some OP_INVALIDOPCODE) && follows os (stuck (b :: pc))
    | some (opcode, _, pc) => (o.isNone || o == some opcode) && follows os pc

/-- `IsNormalPaymentScript`. -/
def isNormalPaymentScript (script : CScript) : Bool := script.length == 25 &&
    follows [some OP_DUP, some OP_HASH160, none, some OP_EQUALVERIFY, some OP_CHECKSIG] script

/-! ## Counting signature operations -/

def decodeOP_N (opcode : UInt8) : Nat := opcode.toNat - (OP_1.toNat - 1)

/-- What an instruction adds to the count, after `lastOpcode`. -/
def sigOpCost (fAccurate : Bool) (lastOpcode opcode : UInt8) : Nat :=
  if opcode = OP_CHECKSIG ∨ opcode = OP_CHECKSIGVERIFY then 1
  else if opcode = OP_CHECKMULTISIG ∨ opcode = OP_CHECKMULTISIGVERIFY then
    if fAccurate = true ∧ OP_1 ≤ lastOpcode ∧ lastOpcode ≤ OP_16 then decodeOP_N lastOpcode else 20
  else 0

/-- `n` is an `unsigned int`. -/
def sigOpLoop (fAccurate : Bool) (lastOpcode : UInt8) (n : Nat) (pc : CScript) : Nat :=
  match _h : getOp pc with
  | none => n
  | some (opcode, _, pc') =>
    sigOpLoop fAccurate opcode ((n + sigOpCost fAccurate lastOpcode opcode) % 2 ^ 32) pc'
termination_by pc.length
decreasing_by exact length_getOp _h

def getSigOpCount (script : CScript) (fAccurate : Bool) : Nat :=
  sigOpLoop fAccurate OP_INVALIDOPCODE 0 script

/-- The data of the last instruction of a script that only pushes. -/
def lastPush (data : Valtype) (pc : CScript) : Option Valtype :=
  if pc = [] then some data
  else
    match _h : getOp pc with
    | none => none
    | some (opcode, vch, pc') => if opcode > OP_16 then none else lastPush vch pc'
termination_by pc.length
decreasing_by exact length_getOp _h

/-- `GetSigOpCount(scriptSig)`: of the redeem script, for a pay-to-script-hash output. -/
def getSigOpCountP2SH (scriptPubKey scriptSig : CScript) : Nat :=
  if !scriptPubKey.isPayToScriptHash then scriptPubKey.getSigOpCount true
  else
    match lastPush [] scriptSig with
    | none => 0
    | some data => getSigOpCount data true

end CScript

end BitBlocks
