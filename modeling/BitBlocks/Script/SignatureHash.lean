import BitBlocks.Lib.Reader
import BitBlocks.Script.Interpreter

/-!
# What a signature signs (`SignatureHash`, `TransactionSignatureChecker`)

A signature commits to the transaction it is in, but not to the scripts of the inputs:
the script of the coin stands in for the script of its own input, and those of the others
are blanked. So whether an input verifies does not change when other inputs are signed.
-/

namespace BitBlocks

open CompactSize

def SIGHASH_ALL : Nat := 1
def SIGHASH_NONE : Nat := 2
def SIGHASH_SINGLE : Nat := 3
def SIGHASH_ANYONECANPAY : Nat := 0x80

/-! ## `CTransactionSignatureSerializer` -/

/-- How many `OP_CODESEPARATOR`s the instructions of a script hold. -/
def CScript.codeSeparators (pc : CScript) : Nat :=
  match _h : getOp pc with
  | none => 0
  | some (opcode, _, pc') => (if opcode = OP_CODESEPARATOR then 1 else 0) + codeSeparators pc'
termination_by pc.length
decreasing_by exact length_getOp _h

/-- The bytes of a script without them, up to where `GetOp` fails. -/
def CScript.skipSeparators (pc : CScript) : List UInt8 :=
  match _h : getOp pc with
  | none => pc.take (pc.length - (stuck pc).length)
  | some (opcode, _, pc') =>
    (if opcode = OP_CODESEPARATOR then [] else pc.take (pc.length - pc'.length)) ++
      skipSeparators pc'
termination_by pc.length
decreasing_by exact length_getOp _h

def serializeScriptCode (scriptCode : CScript) : List UInt8 :=
  CompactSize.write (scriptCode.length - scriptCode.codeSeparators) ++ scriptCode.skipSeparators

/-- An integer in `k` bytes, in two's complement. -/
def writeInt (k : Nat) (x : Int) : List UInt8 := writeLE k (x % 256 ^ k).toNat

def CScript.bytes (script : CScript) : List UInt8 := CompactSize.write script.length ++ script

def COutPoint.bytes (o : COutPoint) : List UInt8 := writeLE 32 o.hash ++ writeLE 4 o.n

def CTxOut.bytes (o : CTxOut) : List UInt8 := writeInt 8 o.nValue ++ o.scriptPubKey.bytes

structure CTransactionSignatureSerializer where
  txTo : CTransaction
  scriptCode : CScript
  nIn : Nat
  nHashType : Nat

namespace CTransactionSignatureSerializer

def fAnyoneCanPay (s : CTransactionSignatureSerializer) : Bool :=
  s.nHashType &&& SIGHASH_ANYONECANPAY != 0

def fHashSingle (s : CTransactionSignatureSerializer) : Bool :=
  s.nHashType &&& 0x1f == SIGHASH_SINGLE

def fHashNone (s : CTransactionSignatureSerializer) : Bool := s.nHashType &&& 0x1f == SIGHASH_NONE

/-- `SerializeInput` of the input `nInput`, which is `txin`. -/
def serializeInput (s : CTransactionSignatureSerializer) (txin : CTxIn) (nInput : Nat) :
    List UInt8 :=
  txin.prevout.bytes ++
    (if nInput ≠ s.nIn then CScript.bytes [] else serializeScriptCode s.scriptCode) ++
    -- let the others update at will
    (if nInput ≠ s.nIn ∧ (s.fHashSingle || s.fHashNone) = true then writeLE 4 0
      else writeLE 4 txin.nSequence)

def serializeOutput (s : CTransactionSignatureSerializer) (txout : CTxOut) (nOutput : Nat) :
    List UInt8 :=
  if s.fHashSingle = true ∧ nOutput ≠ s.nIn then CTxOut.null.bytes else txout.bytes

/-- The inputs that are serialized, each with its number. -/
def inputs (s : CTransactionSignatureSerializer) : List (CTxIn × Nat) :=
  if s.fAnyoneCanPay then s.txTo.vin.zipIdx.filter (·.2 == s.nIn) else s.txTo.vin.zipIdx

/-- The outputs that are serialized, each with its number. -/
def outputs (s : CTransactionSignatureSerializer) : List (CTxOut × Nat) :=
  if s.fHashNone then []
  else if s.fHashSingle then (s.txTo.vout.zipIdx).take (s.nIn + 1) else s.txTo.vout.zipIdx

def serialize (s : CTransactionSignatureSerializer) : List UInt8 := writeInt 4 s.txTo.nVersion ++
    writeList (fun x => s.serializeInput x.1 x.2) s.inputs ++
    writeList (fun x => s.serializeOutput x.1 x.2) s.outputs ++
    writeLE 4 s.txTo.nLockTime

end CTransactionSignatureSerializer

/-- The serialized `uint256` 1. -/
def uint256One : Valtype := 1 :: List.replicate 31 0

/-- `SignatureHash`; an index out of range has the hash 1. -/
def signatureHash (env : ScriptEnv) (scriptCode : CScript) (txTo : CTransaction) (nIn : Nat)
    (nHashType : Nat) : Valtype :=
  if txTo.vin.length ≤ nIn then uint256One
  else if nHashType &&& 0x1f = SIGHASH_SINGLE ∧ txTo.vout.length ≤ nIn then uint256One
  else
    env.hash256 (CTransactionSignatureSerializer.serialize ⟨txTo, scriptCode, nIn, nHashType⟩ ++
      writeLE 4 nHashType)

/-- `CPubKey::GetLen`, by the first byte. -/
def CPubKey.getLen (chHeader : UInt8) : Nat :=
  if chHeader = 2 ∨ chHeader = 3 then 33
  else if chHeader = 4 ∨ chHeader = 6 ∨ chHeader = 7 then 65
  else 0

def CPubKey.isValid (vch : Valtype) : Bool :=
  match vch with
  | [] => false
  | chHeader :: _ => vch.length == getLen chHeader

/--
`TransactionSignatureChecker::CheckSig`: the hash type is one byte tacked on to the end of
the signature. `verify` is `CPubKey::Verify` of a key, a hash and a signature.
-/
def checkSig (env : ScriptEnv) (verify : Valtype → Valtype → Valtype → Bool) (txTo : CTransaction)
    (nIn : Nat) (vchSigIn vchPubKey : Valtype) (scriptCode : CScript) : Bool :=
  CPubKey.isValid vchPubKey &&
    match vchSigIn.getLast? with
    | none => false
    | some b =>
      verify vchPubKey (signatureHash env scriptCode txTo nIn b.toNat) vchSigIn.dropLast

/-- The checker for an input of a transaction, with the flags given and the hash functions of
`env`. -/
def ScriptEnv.checker (env : ScriptEnv) (verify : Valtype → Valtype → Valtype → Bool)
    (flags : UInt32) (txTo : CTransaction) (nIn : Nat) : ScriptEnv :=
  { env with flags := flags, checkSig := BitBlocks.checkSig env verify txTo nIn }

/-! ## Signing other inputs -/

def CTxIn.blank (txin : CTxIn) : CTxIn := { txin with scriptSig := [] }

/-- A transaction without its signatures, and without the hash that covers them. -/
def CTransaction.blank (tx : CTransaction) : CTransaction :=
  { tx with hash := 0, vin := tx.vin.map CTxIn.blank }

namespace CTransactionSignatureSerializer

theorem serialize_blank (s : CTransactionSignatureSerializer) :
    serialize { s with txTo := s.txTo.blank } = s.serialize := by
  have hinputs : inputs { s with txTo := s.txTo.blank } =
      s.inputs.map (Prod.map CTxIn.blank id) := by
    unfold inputs
    by_cases h : s.fAnyoneCanPay = true
    · have h' : fAnyoneCanPay { s with txTo := s.txTo.blank } = true := h
      rw [if_pos h, if_pos h', CTransaction.blank]
      simp only [List.zipIdx_map, List.filter_map]
      rfl
    · have h' : ¬ fAnyoneCanPay { s with txTo := s.txTo.blank } = true := h
      rw [if_neg h, if_neg h', CTransaction.blank]
      simp only [List.zipIdx_map]
  unfold serialize
  rw [hinputs]
  simp only [writeList, List.length_map, List.flatMap_map]
  rfl

end CTransactionSignatureSerializer

/-- **A signature hash does not depend on the scripts of the inputs.** -/
theorem signatureHash_blank (env : ScriptEnv) (scriptCode : CScript) (txTo : CTransaction)
    (nIn nHashType : Nat) :
    signatureHash env scriptCode txTo.blank nIn nHashType =
      signatureHash env scriptCode txTo nIn nHashType := by
  have hser := CTransactionSignatureSerializer.serialize_blank ⟨txTo, scriptCode, nIn, nHashType⟩
  have hlen : txTo.blank.vin.length = txTo.vin.length := List.length_map _
  unfold signatureHash
  rw [hlen, hser]
  rfl

/-- **Nor does the checker of an input**, so neither does a verification. -/
theorem ScriptEnv.checker_blank (env : ScriptEnv) (verify : Valtype → Valtype → Valtype → Bool)
    (flags : UInt32) (txTo : CTransaction) (nIn : Nat) :
    env.checker verify flags txTo.blank nIn = env.checker verify flags txTo nIn := by
  have hsig : BitBlocks.checkSig env verify txTo.blank nIn =
      BitBlocks.checkSig env verify txTo nIn := by
    funext vchSigIn vchPubKey scriptCode
    unfold BitBlocks.checkSig
    simp only [signatureHash_blank]
  unfold ScriptEnv.checker
  rw [hsig]

end BitBlocks
