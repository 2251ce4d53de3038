import BitBlocks.Script.Script

/-!
# Encodings of signatures, keys and pushes (`interpreter.cpp`, `eccryptoverify.cpp`)

The checks an instruction makes on the bytes of an element before it uses them. A
check answers with the error it sets, if any.
-/

namespace BitBlocks

inductive ScriptError
  | UNKNOWN_ERROR
  | EVAL_FALSE
  | OP_RETURN
  /- Max sizes -/
  | SCRIPT_SIZE
  | PUSH_SIZE
  | OP_COUNT
  | STACK_SIZE
  | SIG_COUNT
  | PUBKEY_COUNT
  /- Failed verify operations -/
  | VERIFY
  | EQUALVERIFY
  | CHECKMULTISIGVERIFY
  | CHECKSIGVERIFY
  | NUMEQUALVERIFY
  /- Logical/Format/Canonical errors -/
  | BAD_OPCODE
  | DISABLED_OPCODE
  | INVALID_STACK_OPERATION
  | INVALID_ALTSTACK_OPERATION
  | UNBALANCED_CONDITIONAL
  /- BIP62 -/
  | SIG_HASHTYPE
  | SIG_DER
  | MINIMALDATA
  | SIG_PUSHONLY
  | SIG_HIGH_S
  | SIG_NULLDUMMY
  | PUBKEYTYPE
  /- softfork safeness -/
  | DISCOURAGE_UPGRADABLE_NOPS
deriving DecidableEq, Repr

def SCRIPT_VERIFY_P2SH : UInt32 := 0x01
def SCRIPT_VERIFY_STRICTENC : UInt32 := 0x02
def SCRIPT_VERIFY_DERSIG : UInt32 := 0x04
def SCRIPT_VERIFY_LOW_S : UInt32 := 0x08
def SCRIPT_VERIFY_NULLDUMMY : UInt32 := 0x10
def SCRIPT_VERIFY_SIGPUSHONLY : UInt32 := 0x20
def SCRIPT_VERIFY_MINIMALDATA : UInt32 := 0x40
def SCRIPT_VERIFY_DISCOURAGE_UPGRADABLE_NOPS : UInt32 := 0x80

/-- `castToBool`; the last byte of a false element can be negative zero. -/
def castToBool (vch : Valtype) : Bool :=
  match vch with
  | [] => false
  | b :: vch => if b ≠ 0 then !(decide (vch = []) && b == 0x80) else castToBool vch

def isCompressedOrUncompressedPubKey (vchPubKey : Valtype) : Bool :=
  if vchPubKey.length < 33 then false
  else if vchPubKey.getD 0 0 = 0x04 then vchPubKey.length == 65
  else if vchPubKey.getD 0 0 = 0x02 ∨ vchPubKey.getD 0 0 = 0x03 then vchPubKey.length == 33
  else false

/-- `<30> <total len> <02> <len R> <R> <02> <len S> <S> <hashtype>` -/
def isValidSignatureEncoding (sig : Valtype) : Bool :=
  let byte (i : Nat) : UInt8 := sig.getD i 0
  let lenR := (byte 3).toNat
  let lenS := (byte (5 + lenR)).toNat
  decide (9 ≤ sig.length) && decide (sig.length ≤ 73) && byte 0 == 0x30 &&
    (byte 1).toNat == sig.length - 3 &&
    decide (5 + lenR < sig.length) &&
    lenR + lenS + 7 == sig.length &&
    byte 2 == 0x02 &&
    lenR != 0 &&
    byte 4 &&& 0x80 == 0 &&
    !(decide (lenR > 1) && byte 4 == 0x00 && byte 5 &&& 0x80 == 0) &&
    byte (lenR + 4) == 0x02 &&
    lenS != 0 &&
    byte (lenR + 6) &&& 0x80 == 0 &&
    !(decide (lenS > 1) && byte (lenR + 6) == 0x00 && byte (lenR + 7) &&& 0x80 == 0)

/-- The comparison of two big endian numbers of one length. -/
def compareDigits : List UInt8 → List UInt8 → Int
  | a :: as, b :: bs => if a > b then 1 else if b > a then -1 else compareDigits as bs
  | _, _ => 0

def compareBigEndian (c₁ c₂ : List UInt8) : Int :=
  if (c₁.take (c₁.length - c₂.length)).any (· != 0) then 1
  else if (c₂.take (c₂.length - c₁.length)).any (· != 0) then -1
  else compareDigits (c₁.drop (c₁.length - c₂.length)) (c₂.drop (c₂.length - c₁.length))

/-- Half of the order of secp256k1's generator minus 1. -/
def vchMaxModHalfOrder : List UInt8 :=
  [0x7F, 0xFF, 0xFF, 0xFF, 0xFF, 0xFF, 0xFF, 0xFF, 0xFF, 0xFF, 0xFF, 0xFF, 0xFF, 0xFF, 0xFF, 0xFF,
    0x5D, 0x57, 0x6E, 0x73, 0x57, 0xA4, 0x50, 0x1D, 0xDF, 0xE9, 0x2F, 0x46, 0x68, 0x1B, 0x20, 0xA0]

/-- `CheckSignatureElement` with `half` set. -/
def checkSignatureElement (vch : List UInt8) : Bool :=
  decide (compareBigEndian vch [] > 0) && decide (compareBigEndian vch vchMaxModHalfOrder ≤ 0)

def isLowDERSignature (vchSig : Valtype) : Option ScriptError :=
  let nLenR := (vchSig.getD 3 0).toNat
  let nLenS := (vchSig.getD (5 + nLenR) 0).toNat
  if !isValidSignatureEncoding vchSig then some .SIG_DER
  else if !checkSignatureElement ((vchSig.drop (6 + nLenR)).take nLenS) then some .SIG_HIGH_S
  else none

/-- The hash type, less `SIGHASH_ANYONECANPAY`, is one of `SIGHASH_ALL` to `SIGHASH_SINGLE`. -/
def isDefinedHashtypeSignature (vchSig : Valtype) : Bool :=
  if vchSig = [] then false
  else
    let nHashType := vchSig.getLastD 0 &&& ~~~(0x80 : UInt8)
    decide (1 ≤ nHashType) && decide (nHashType ≤ 3)

/-- The empty signature is a compact way to provide an invalid one. -/
def checkSignatureEncoding (vchSig : Valtype) (flags : UInt32) : Option ScriptError :=
  if vchSig = [] then none
  else if
      flags &&& (SCRIPT_VERIFY_DERSIG ||| SCRIPT_VERIFY_LOW_S ||| SCRIPT_VERIFY_STRICTENC) != 0 &&
        !isValidSignatureEncoding vchSig then
    some .SIG_DER
  else if flags &&& SCRIPT_VERIFY_LOW_S != 0 && (isLowDERSignature vchSig).isSome then
    isLowDERSignature vchSig
  else if flags &&& SCRIPT_VERIFY_STRICTENC != 0 && !isDefinedHashtypeSignature vchSig then
    some .SIG_HASHTYPE
  else none

def checkPubKeyEncoding (vchPubKey : Valtype) (flags : UInt32) : Option ScriptError :=
  if flags &&& SCRIPT_VERIFY_STRICTENC != 0 && !isCompressedOrUncompressedPubKey vchPubKey then
    some .PUBKEYTYPE
  else none

def checkMinimalPush (data : Valtype) (opcode : UInt8) : Bool :=
  if data.length = 0 then opcode == OP_0
  else if data.length = 1 ∧ 1 ≤ data.getD 0 0 ∧ data.getD 0 0 ≤ 16 then
    opcode.toNat == OP_1.toNat + ((data.getD 0 0).toNat - 1)
  else if data.length = 1 ∧ data.getD 0 0 = 0x81 then opcode == OP_1NEGATE
  else if data.length ≤ 75 then opcode.toNat == data.length
  else if data.length ≤ 255 then opcode == OP_PUSHDATA1
  else if data.length ≤ 65535 then opcode == OP_PUSHDATA2
  else true

theorem encoding_error {vchSig vchPubKey : Valtype} {flags : UInt32} {e : ScriptError}
    (h : (checkSignatureEncoding vchSig flags <|> checkPubKeyEncoding vchPubKey flags) = some e) :
    e ≠ .UNKNOWN_ERROR := by
  unfold checkSignatureEncoding isLowDERSignature checkPubKeyEncoding at h
  dsimp only at h
  rintro rfl
  split_ifs at h <;> simp at h

end BitBlocks
