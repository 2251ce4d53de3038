import BitBlocks.Lib.Hoare
import BitBlocks.Script.ScriptNum
import BitBlocks.Script.Encoding

/-!
# The script interpreter (`EvalScript`, `VerifyScript`)

A stack machine without loops. Both stacks are vectors, the top at the end, and
every instruction reads them from that end. What the code leaves to the vector
class stays visible: an access out of range throws, an iterator out of range is a
fault, an assertion that fails is one too. `EvalScript` catches what is thrown
and answers `UNKNOWN_ERROR`; the others it does not survive.
-/

namespace BitBlocks

open Hoare

def MAX_SCRIPT_ELEMENT_SIZE : Nat := 520

/-- What throws inside the `try` block. -/
inductive Thrown
  | scriptNum (e : CScriptNum.Error)
  /-- `vector::at` -/
  | outOfRange
  /-- `popstack` on an empty stack -/
  | stackEmpty
deriving DecidableEq, Repr

inductive Stop
  /-- `return set_error(serror, e)` -/
  | error (e : ScriptError)
  | thrown (e : Thrown)
  /-- `erase` or `insert` at an iterator outside the vector. -/
  | badIterator
  | assertion
deriving DecidableEq, Repr

/-- The flags, the signature checker and the hash functions. -/
structure ScriptEnv where
  flags : UInt32
  checkSig : (vchSig vchPubKey : Valtype) → (scriptCode : CScript) → Bool
  ripemd160 : Valtype → { vchHash : Valtype // vchHash.length = 20 }
  sha1 : Valtype → { vchHash : Valtype // vchHash.length = 20 }
  sha256 : Valtype → { vchHash : Valtype // vchHash.length = 32 }
  hash160 : Valtype → { vchHash : Valtype // vchHash.length = 20 }
  hash256 : Valtype → { vchHash : Valtype // vchHash.length = 32 }

/-- The hashes that are zero. -/
theorem length_zero160 : (List.replicate 20 (0 : UInt8)).length = 20 := rfl
theorem length_zero256 : (List.replicate 32 (0 : UInt8)).length = 32 := rfl

def ScriptEnv.flag (env : ScriptEnv) (f : UInt32) : Bool := env.flags &&& f != 0

/-- The variables of `EvalScript`, but for the iterator. -/
structure EvalState where
  stack : List Valtype
  altstack : List Valtype := []
  vfExec : List Bool := []
  nOpCount : Int := 0
  pbegincodehash : CScript
  /-- How often the checker was asked; the code does not count. -/
  checks : Nat := 0

/-- `!count(vfExec.begin(), vfExec.end(), false)` -/
def EvalState.fExec (s : EvalState) : Bool := s.vfExec.all id

abbrev Eval (α : Type) : Type := Prog EvalState Stop α

/-- The element `i` from the end, from 1. -/
def fromEnd (stack : List Valtype) (i : Nat) : Valtype := stack.getD (stack.length - i) []

namespace Eval

/-! ## What instructions are made of -/

def fail {α : Type} (e : ScriptError) : Eval α := throw (.error e)

def failIf (c : Prop) [Decidable c] (e : ScriptError) : Eval Unit := if c then fail e else pure ()

/-- `if (stack.size() < n) return set_error(serror, SCRIPT_ERR_INVALID_STACK_OPERATION);` -/
def needs (n : Nat) : Eval Unit := do
  failIf ((← get).stack.length < n) .INVALID_STACK_OPERATION

/-- `stacktop(-i)` -/
def stacktop (i : Nat) : Eval Valtype := do
  let s ← get
  if 1 ≤ i ∧ i ≤ s.stack.length then pure (fromEnd s.stack i) else throw (.thrown .outOfRange)

/-- `altstacktop(-i)` -/
def altstacktop (i : Nat) : Eval Valtype := do
  let s ← get
  if 1 ≤ i ∧ i ≤ s.altstack.length then pure (fromEnd s.altstack i)
  else throw (.thrown .outOfRange)

def popstack : Eval Unit := do
  let s ← get
  if s.stack = [] then throw (.thrown .stackEmpty) else set { s with stack := s.stack.dropLast }

def popaltstack : Eval Unit := do
  let s ← get
  if s.altstack = [] then throw (.thrown .stackEmpty)
  else set { s with altstack := s.altstack.dropLast }

def pushBack (vch : Valtype) : Eval Unit := modify fun s => { s with stack := s.stack ++ [vch] }

def pushBackAlt (vch : Valtype) : Eval Unit :=
  modify fun s => { s with altstack := s.altstack ++ [vch] }

/-- `swap(stacktop(-i), stacktop(-j))` -/
def swapTop (i j : Nat) : Eval Unit := do
  let vch₁ ← stacktop i
  let vch₂ ← stacktop j
  modify fun s => { s with
    stack := (s.stack.set (s.stack.length - i) vch₂).set (s.stack.length - j) vch₁ }

/-- `stack.erase(stack.end() - i, stack.end() - j)` -/
def erase (i j : Nat) : Eval Unit := do
  let s ← get
  if j ≤ i ∧ i ≤ s.stack.length then
    set { s with
      stack := s.stack.take (s.stack.length - i) ++ s.stack.drop (s.stack.length - j) }
  else throw .badIterator

/-- `stack.insert(stack.end() - i, vch)` -/
def insert (i : Nat) (vch : Valtype) : Eval Unit := do
  let s ← get
  if i ≤ s.stack.length then
    set { s with
      stack := s.stack.take (s.stack.length - i) ++ vch :: s.stack.drop (s.stack.length - i) }
  else throw .badIterator

def vchTrue : Valtype := [1]
def vchFalse : Valtype := []

/-- The verdict of an instruction, which its `VERIFY` form takes off again or fails on. -/
def pushVerdict (f : Bool) (verify : Prop) [Decidable verify] (e : ScriptError) : Eval Unit := do
  pushBack (if f then vchTrue else vchFalse)
  if verify then
    if f then popstack else fail e

/-- `CScriptNum(vch, fRequireMinimal)` -/
def scriptNum (env : ScriptEnv) (vch : Valtype) : Eval Int :=
  match CScriptNum.ofVch vch (env.flag SCRIPT_VERIFY_MINIMALDATA) with
  | .ok n => pure n
  | .error e => throw (.thrown (.scriptNum e))

def assert (c : Prop) [Decidable c] : Eval Unit := if c then pure () else throw .assertion

/-! ## The instructions -/

def opPushNumber (opcode : UInt8) : Eval Unit :=
  pushBack (CScriptNum.serialize (opcode.toNat - (OP_1.toNat - 1 : Int)))

def opUpgradableNop (env : ScriptEnv) : Eval Unit :=
  failIf (env.flag SCRIPT_VERIFY_DISCOURAGE_UPGRADABLE_NOPS = true) .DISCOURAGE_UPGRADABLE_NOPS

/-- The expression of an `OP_IF` in a branch that is executed. -/
def ifValue (opcode : UInt8) : Eval Bool := do
  let s ← get
  if s.fExec then do
    failIf (s.stack.length < 1) .UNBALANCED_CONDITIONAL
    let vch ← stacktop 1
    popstack
    pure (if opcode = OP_NOTIF then !castToBool vch else castToBool vch)
  else pure false

/-- `<expression> if [statements] [else [statements]] endif` -/
def opIf (opcode : UInt8) : Eval Unit := do
  let fValue ← ifValue opcode
  modify fun s => { s with vfExec := s.vfExec ++ [fValue] }

def opElse : Eval Unit := do
  let s ← get
  failIf (s.vfExec = []) .UNBALANCED_CONDITIONAL
  set { s with vfExec := s.vfExec.dropLast ++ [!s.vfExec.getLastD false] }

def opEndIf : Eval Unit := do
  let s ← get
  failIf (s.vfExec = []) .UNBALANCED_CONDITIONAL
  set { s with vfExec := s.vfExec.dropLast }

/-- `(true -- ) or (false -- false) and return` -/
def opVerify : Eval Unit := do
  needs 1
  let fValue := castToBool (← stacktop 1)
  if fValue then popstack else fail .VERIFY

def opToAltStack : Eval Unit := do
  needs 1
  pushBackAlt (← stacktop 1)
  popstack

def opFromAltStack : Eval Unit := do
  failIf ((← get).altstack.length < 1) .INVALID_ALTSTACK_OPERATION
  pushBack (← altstacktop 1)
  popaltstack

/-- `(x1 x2 -- )` -/
def op2Drop : Eval Unit := do
  needs 2
  popstack
  popstack

/-- `(x1 x2 -- x1 x2 x1 x2)` -/
def op2Dup : Eval Unit := do
  needs 2
  let vch₁ ← stacktop 2
  let vch₂ ← stacktop 1
  pushBack vch₁
  pushBack vch₂

/-- `(x1 x2 x3 -- x1 x2 x3 x1 x2 x3)` -/
def op3Dup : Eval Unit := do
  needs 3
  let vch₁ ← stacktop 3
  let vch₂ ← stacktop 2
  let vch₃ ← stacktop 1
  pushBack vch₁
  pushBack vch₂
  pushBack vch₃

/-- `(x1 x2 x3 x4 -- x1 x2 x3 x4 x1 x2)` -/
def op2Over : Eval Unit := do
  needs 4
  let vch₁ ← stacktop 4
  let vch₂ ← stacktop 3
  pushBack vch₁
  pushBack vch₂

/-- `(x1 x2 x3 x4 x5 x6 -- x3 x4 x5 x6 x1 x2)` -/
def op2Rot : Eval Unit := do
  needs 6
  let vch₁ ← stacktop 6
  let vch₂ ← stacktop 5
  erase 6 4
  pushBack vch₁
  pushBack vch₂

/-- `(x1 x2 x3 x4 -- x3 x4 x1 x2)` -/
def op2Swap : Eval Unit := do
  needs 4
  swapTop 4 2
  swapTop 3 1

/-- `(x - 0 | x x)` -/
def opIfDup : Eval Unit := do
  needs 1
  let vch ← stacktop 1
  if castToBool vch then pushBack vch

/-- `-- stacksize` -/
def opDepth : Eval Unit := do
  pushBack (CScriptNum.serialize (← get).stack.length)

/-- `(x -- )` -/
def opDrop : Eval Unit := do
  needs 1
  popstack

/-- `(x -- x x)` -/
def opDup : Eval Unit := do
  needs 1
  pushBack (← stacktop 1)

/-- `(x1 x2 -- x2)` -/
def opNip : Eval Unit := do
  needs 2
  erase 2 1

/-- `(x1 x2 -- x1 x2 x1)` -/
def opOver : Eval Unit := do
  needs 2
  pushBack (← stacktop 2)

/-- `(xn ... x2 x1 x0 n - xn ... x2 x1 x0 xn)`, `(xn ... x2 x1 x0 n - ... x2 x1 x0 xn)` -/
def opPickRoll (env : ScriptEnv) (opcode : UInt8) : Eval Unit := do
  needs 2
  let n := CScriptNum.getint (← scriptNum env (← stacktop 1))
  popstack
  failIf (n < 0 ∨ n ≥ (← get).stack.length) .INVALID_STACK_OPERATION
  let vch ← stacktop (n.toNat + 1)
  (if opcode = OP_ROLL then erase (n.toNat + 1) n.toNat else pure ())
  pushBack vch

/-- `(x1 x2 x3 -- x2 x3 x1)` -/
def opRot : Eval Unit := do
  needs 3
  swapTop 3 2
  swapTop 2 1

/-- `(x1 x2 -- x2 x1)` -/
def opSwap : Eval Unit := do
  needs 2
  swapTop 2 1

/-- `(x1 x2 -- x2 x1 x2)` -/
def opTuck : Eval Unit := do
  needs 2
  let vch ← stacktop 1
  insert 2 vch

/-- `(in -- in size)` -/
def opSize : Eval Unit := do
  needs 1
  pushBack (CScriptNum.serialize (← stacktop 1).length)

/-- `(x1 x2 - bool)` -/
def opEqual (opcode : UInt8) : Eval Unit := do
  needs 2
  let vch₁ ← stacktop 2
  let vch₂ ← stacktop 1
  popstack
  popstack
  pushVerdict (vch₁ == vch₂) (opcode = OP_EQUALVERIFY) .EQUALVERIFY

/-- `operator-=` and `operator+=` assert that the result is an `int64_t`. -/
def addAssign (m_value rhs : Int) : Eval Int := do
  assert (rhs = 0 ∨ (0 < rhs ∧ m_value ≤ 2 ^ 63 - 1 - rhs) ∨ (rhs < 0 ∧ -2 ^ 63 - rhs ≤ m_value))
  pure (m_value + rhs)

def subAssign (m_value rhs : Int) : Eval Int := do
  assert (rhs = 0 ∨ (0 < rhs ∧ -2 ^ 63 + rhs ≤ m_value) ∨ (rhs < 0 ∧ m_value ≤ 2 ^ 63 - 1 + rhs))
  pure (m_value - rhs)

def negate (m_value : Int) : Eval Int := do
  assert (m_value ≠ -2 ^ 63)
  pure (-m_value)

def unary (opcode : UInt8) (bn : Int) : Eval Int :=
  if opcode = OP_1ADD then addAssign bn 1
  else if opcode = OP_1SUB then subAssign bn 1
  else if opcode = OP_NEGATE then negate bn
  else if opcode = OP_ABS then if bn < 0 then negate bn else pure bn
  else if opcode = OP_NOT then pure (if bn = 0 then 1 else 0)
  else if opcode = OP_0NOTEQUAL then pure (if bn ≠ 0 then 1 else 0)
  else throw .assertion

/-- `(in -- out)` -/
def opUnary (env : ScriptEnv) (opcode : UInt8) : Eval Unit := do
  needs 1
  let bn ← scriptNum env (← stacktop 1)
  let bn ← unary opcode bn
  popstack
  pushBack (CScriptNum.serialize bn)

/-- The truth of a comparison as a number. -/
def ofBool (b : Bool) : Int := if b then 1 else 0

def binary (opcode : UInt8) (bn₁ bn₂ : Int) : Eval Int :=
  if opcode = OP_ADD then pure (Wrap.wrap64 (bn₁ + bn₂))
  else if opcode = OP_SUB then pure (Wrap.wrap64 (bn₁ - bn₂))
  else if opcode = OP_BOOLAND then pure (ofBool (bn₁ != 0 && bn₂ != 0))
  else if opcode = OP_BOOLOR then pure (ofBool (bn₁ != 0 || bn₂ != 0))
  else if opcode = OP_NUMEQUAL then pure (ofBool (bn₁ == bn₂))
  else if opcode = OP_NUMEQUALVERIFY then pure (ofBool (bn₁ == bn₂))
  else if opcode = OP_NUMNOTEQUAL then pure (ofBool (bn₁ != bn₂))
  else if opcode = OP_LESSTHAN then pure (ofBool (decide (bn₁ < bn₂)))
  else if opcode = OP_GREATERTHAN then pure (ofBool (decide (bn₁ > bn₂)))
  else if opcode = OP_LESSTHANOREQUAL then pure (ofBool (decide (bn₁ ≤ bn₂)))
  else if opcode = OP_GREATERTHANOREQUAL then pure (ofBool (decide (bn₁ ≥ bn₂)))
  else if opcode = OP_MIN then pure (if bn₁ < bn₂ then bn₁ else bn₂)
  else if opcode = OP_MAX then pure (if bn₁ > bn₂ then bn₁ else bn₂)
  else throw .assertion

/-- `(x1 x2 -- out)` -/
def opBinary (env : ScriptEnv) (opcode : UInt8) : Eval Unit := do
  needs 2
  let bn₁ ← scriptNum env (← stacktop 2)
  let bn₂ ← scriptNum env (← stacktop 1)
  let bn ← binary opcode bn₁ bn₂
  popstack
  popstack
  pushBack (CScriptNum.serialize bn)
  if opcode = OP_NUMEQUALVERIFY then
    if castToBool (← stacktop 1) then popstack else fail .NUMEQUALVERIFY

/-- `(x min max -- out)` -/
def opWithin (env : ScriptEnv) : Eval Unit := do
  needs 3
  let bn₁ ← scriptNum env (← stacktop 3)
  let bn₂ ← scriptNum env (← stacktop 2)
  let bn₃ ← scriptNum env (← stacktop 1)
  let fValue := decide (bn₂ ≤ bn₁) && decide (bn₁ < bn₃)
  popstack
  popstack
  popstack
  pushBack (if fValue then vchTrue else vchFalse)

def hash (env : ScriptEnv) (opcode : UInt8) (vch : Valtype) : Valtype :=
  if opcode = OP_RIPEMD160 then env.ripemd160 vch
  else if opcode = OP_SHA1 then env.sha1 vch
  else if opcode = OP_SHA256 then env.sha256 vch
  else if opcode = OP_HASH160 then env.hash160 vch
  else env.hash256 vch

/-- `(in -- hash)` -/
def opHash (env : ScriptEnv) (opcode : UInt8) : Eval Unit := do
  needs 1
  let vchHash := hash env opcode (← stacktop 1)
  popstack
  pushBack vchHash

/-- Hash starts after the code separator. -/
def opCodeSeparator (pc : CScript) : Eval Unit := modify fun s => { s with pbegincodehash := pc }

/-- The encodings are checked before the checker is asked. -/
def checkSig (env : ScriptEnv) (vchSig vchPubKey : Valtype) (scriptCode : CScript) : Eval Bool :=
  match checkSignatureEncoding vchSig env.flags <|> checkPubKeyEncoding vchPubKey env.flags with
  | some e => fail e
  | none => do
    modify fun s => { s with checks := s.checks + 1 }
    pure (env.checkSig vchSig vchPubKey scriptCode)

/-- `(sig pubkey -- bool)` -/
def opCheckSig (env : ScriptEnv) (opcode : UInt8) : Eval Unit := do
  needs 2
  let vchSig ← stacktop 2
  let vchPubKey ← stacktop 1
  -- there's no way for a signature to sign itself
  let scriptCode := ((← get).pbegincodehash.findAndDelete (CScript.push vchSig)).2
  let fSuccess ← checkSig env vchSig vchPubKey scriptCode
  popstack
  popstack
  pushVerdict fSuccess (opcode = OP_CHECKSIGVERIFY) .CHECKSIGVERIFY

/-- `while (fSuccess && nSigsCount > 0)`, with as many keys left as signatures or more. -/
def multisigLoop (env : ScriptEnv) (scriptCode : CScript) (isig ikey : Nat)
    (nSigsCount nKeysCount : Int) : Eval Bool :=
  if nSigsCount > 0 then do
    let vchSig ← stacktop isig
    let vchPubKey ← stacktop ikey
    let fOk ← checkSig env vchSig vchPubKey scriptCode
    let isig := if fOk then isig + 1 else isig
    let nSigsCount := if fOk then nSigsCount - 1 else nSigsCount
    -- if there are more signatures left than keys left, too many have failed
    if nSigsCount > nKeysCount - 1 then pure false
    else multisigLoop env scriptCode isig (ikey + 1) nSigsCount (nKeysCount - 1)
  else pure true
termination_by (nKeysCount + 1).toNat
decreasing_by
  rename_i hpos fOk hmore
  simp only [nSigsCount] at hmore
  split at hmore <;> omega

/-- `n` times `popstack`. -/
def popMany : Nat → Eval Unit
  | 0 => pure ()
  | n + 1 => do
    popstack
    popMany n

/-- The flag asks that the extra argument is empty. -/
def nullDummy (env : ScriptEnv) : Eval Unit :=
  if env.flag SCRIPT_VERIFY_NULLDUMMY then do
    let vch ← stacktop 1
    failIf (vch.length ≠ 0) .SIG_NULLDUMMY
  else pure ()

/-- What `OP_CHECKMULTISIG` does once its arguments are found: the signatures from `isig` on, the
keys from `ikey` on, `i - 1` elements in all. -/
def verifyMultiSig (env : ScriptEnv) (opcode : UInt8) (i isig ikey : Nat)
    (nSigsCount nKeysCount : Int) : Eval Unit := do
  -- drop the signatures, since there's no way for a signature to sign itself
  let scriptCode ← (List.range nSigsCount.toNat).foldlM
    (fun scriptCode k => do
      let vchSig ← stacktop (isig + k)
      pure (CScript.findAndDelete scriptCode (CScript.push vchSig)).2)
    (← get).pbegincodehash
  let fSuccess ← multisigLoop env scriptCode isig ikey nSigsCount nKeysCount
  -- clean up stack of actual arguments
  popMany (i - 1)
  -- one extra argument is consumed, whose contents are not checked otherwise
  needs 1
  nullDummy env
  popstack
  pushVerdict fSuccess (opcode = OP_CHECKMULTISIGVERIFY) .CHECKMULTISIGVERIFY

/-- `([sig ...] num_of_signatures [pubkey ...] num_of_pubkeys -- bool)` -/
def opCheckMultiSig (env : ScriptEnv) (opcode : UInt8) : Eval Unit := do
  needs 1
  let nKeysCount := CScriptNum.getint (← scriptNum env (← stacktop 1))
  failIf (nKeysCount < 0 ∨ nKeysCount > 20) .PUBKEY_COUNT
  modify fun s => { s with nOpCount := s.nOpCount + nKeysCount }
  failIf ((← get).nOpCount > 201) .OP_COUNT
  let ikey := 2
  let i := ikey + nKeysCount.toNat
  needs i
  let nSigsCount := CScriptNum.getint (← scriptNum env (← stacktop i))
  failIf (nSigsCount < 0 ∨ nSigsCount > nKeysCount) .SIG_COUNT
  let isig := i + 1
  let i := isig + nSigsCount.toNat
  needs i
  verifyMultiSig env opcode i isig ikey nSigsCount nKeysCount

/-! ## One instruction -/

def disabled (opcode : UInt8) : Bool :=
  [OP_CAT, OP_SUBSTR, OP_LEFT, OP_RIGHT, OP_INVERT, OP_AND, OP_OR, OP_XOR, OP_2MUL, OP_2DIV, OP_MUL,
    OP_DIV, OP_MOD, OP_LSHIFT, OP_RSHIFT].contains opcode

def isUnary (opcode : UInt8) : Bool :=
  [OP_1ADD, OP_1SUB, OP_NEGATE, OP_ABS, OP_NOT, OP_0NOTEQUAL].contains opcode

def isBinary (opcode : UInt8) : Bool :=
  [OP_ADD, OP_SUB, OP_BOOLAND, OP_BOOLOR, OP_NUMEQUAL, OP_NUMEQUALVERIFY, OP_NUMNOTEQUAL,
    OP_LESSTHAN, OP_GREATERTHAN, OP_LESSTHANOREQUAL, OP_GREATERTHANOREQUAL, OP_MIN,
    OP_MAX].contains opcode

def isHash (opcode : UInt8) : Bool :=
  [OP_RIPEMD160, OP_SHA1, OP_SHA256, OP_HASH160, OP_HASH256].contains opcode

/-- The `switch`. -/
def execOp (env : ScriptEnv) (opcode : UInt8) (pc : CScript) : Eval Unit :=
  if opcode = OP_1NEGATE ∨ (OP_1 ≤ opcode ∧ opcode ≤ OP_16) then opPushNumber opcode
  else if opcode = OP_NOP then pure ()
  else if OP_NOP1 ≤ opcode ∧ opcode ≤ OP_NOP10 then opUpgradableNop env
  else if opcode = OP_IF ∨ opcode = OP_NOTIF then opIf opcode
  else if opcode = OP_ELSE then opElse
  else if opcode = OP_ENDIF then opEndIf
  else if opcode = OP_VERIFY then opVerify
  else if opcode = OP_RETURN then fail .OP_RETURN
  else if opcode = OP_TOALTSTACK then opToAltStack
  else if opcode = OP_FROMALTSTACK then opFromAltStack
  else if opcode = OP_2DROP then op2Drop
  else if opcode = OP_2DUP then op2Dup
  else if opcode = OP_3DUP then op3Dup
  else if opcode = OP_2OVER then op2Over
  else if opcode = OP_2ROT then op2Rot
  else if opcode = OP_2SWAP then op2Swap
  else if opcode = OP_IFDUP then opIfDup
  else if opcode = OP_DEPTH then opDepth
  else if opcode = OP_DROP then opDrop
  else if opcode = OP_DUP then opDup
  else if opcode = OP_NIP then opNip
  else if opcode = OP_OVER then opOver
  else if opcode = OP_PICK ∨ opcode = OP_ROLL then opPickRoll env opcode
  else if opcode = OP_ROT then opRot
  else if opcode = OP_SWAP then opSwap
  else if opcode = OP_TUCK then opTuck
  else if opcode = OP_SIZE then opSize
  else if opcode = OP_EQUAL ∨ opcode = OP_EQUALVERIFY then opEqual opcode
  else if isUnary opcode then opUnary env opcode
  else if isBinary opcode then opBinary env opcode
  else if opcode = OP_WITHIN then opWithin env
  else if isHash opcode then opHash env opcode
  else if opcode = OP_CODESEPARATOR then opCodeSeparator pc
  else if opcode = OP_CHECKSIG ∨ opcode = OP_CHECKSIGVERIFY then opCheckSig env opcode
  else if opcode = OP_CHECKMULTISIG ∨
    opcode = OP_CHECKMULTISIGVERIFY then opCheckMultiSig env opcode
  else fail .BAD_OPCODE

/-- A push, or the `switch` if the branch is executed or the instruction is about branches. -/
def pushOrExec (env : ScriptEnv) (fExec : Bool) (opcode : UInt8) (vchPushValue : Valtype)
    (pc : CScript) : Eval Unit :=
  if fExec = true ∧ opcode ≤ OP_PUSHDATA4 then do
    failIf (env.flag SCRIPT_VERIFY_MINIMALDATA = true ∧
      checkMinimalPush vchPushValue opcode = false)
      .MINIMALDATA
    pushBack vchPushValue
  else if fExec = true ∨ (OP_IF ≤ opcode ∧ opcode ≤ OP_ENDIF) then execOp env opcode pc
  else pure ()

/-- What is charged before an instruction is executed; `OP_RESERVED` does not count. -/
def charge (opcode : UInt8) : Eval Unit :=
  if opcode > OP_16 then do
    modify fun s => { s with nOpCount := s.nOpCount + 1 }
    failIf ((← get).nOpCount > 201) .OP_COUNT
  else pure ()

/-- The body of the `while` loop, once the instruction is read; `pc` is behind it. -/
def stepOp (env : ScriptEnv) (opcode : UInt8) (vchPushValue : Valtype) (pc : CScript) :
    Eval Unit := do
  let fExec := (← get).fExec
  failIf (vchPushValue.length > MAX_SCRIPT_ELEMENT_SIZE) .PUSH_SIZE
  charge opcode
  failIf (disabled opcode = true) .DISABLED_OPCODE
  pushOrExec env fExec opcode vchPushValue pc
  let s ← get
  failIf (s.stack.length + s.altstack.length > 1000) .STACK_SIZE

/-- One round of the `while` loop: what follows the instruction at `pc`. -/
def step (env : ScriptEnv) (pc : CScript) : Eval CScript :=
  match CScript.getOp pc with
  | none => fail .BAD_OPCODE
  | some (opcode, vchPushValue, pc) => do
    stepOp env opcode vchPushValue pc
    pure pc

theorem exec_step {env : ScriptEnv} {pc pc' : CScript} {s s' : EvalState}
    (h : exec (step env pc) s = (.ok pc', s')) :
    ∃ opcode vch, CScript.getOp pc = some (opcode, vch, pc') ∧
      exec (stepOp env opcode vch pc') s = (.ok (), s') := by
  unfold step at h
  split at h
  · exact absurd (Prod.mk.inj h).1 (by simp)
  · rename_i opcode vch pc1 hop
    rw [exec_bind] at h
    rcases hrun : exec (stepOp env opcode vch pc1) s with ⟨e | _, s1⟩
    · rw [hrun] at h
      exact absurd (Prod.mk.inj h).1 (by simp)
    · rw [hrun] at h
      obtain ⟨hpc, rfl⟩ := Prod.mk.inj h
      obtain rfl := Except.ok.inj hpc
      exact ⟨opcode, vch, hop, hrun⟩

theorem exec_step_error {env : ScriptEnv} {pc : CScript} {s s' : EvalState} {e : Stop}
    (h : exec (step env pc) s = (.error e, s')) :
    (CScript.getOp pc = none ∧ e = .error .BAD_OPCODE ∧ s' = s) ∨
      ∃ opcode vch pc', CScript.getOp pc = some (opcode, vch, pc') ∧
        exec (stepOp env opcode vch pc') s = (.error e, s') := by
  unfold step at h
  split at h
  · rename_i hop
    obtain ⟨he, rfl⟩ := Prod.mk.inj h
    exact Or.inl ⟨hop, (Except.error.inj he).symm, rfl⟩
  · rename_i opcode vch pc' hop
    rw [exec_bind] at h
    rcases hrun : exec (stepOp env opcode vch pc') s with ⟨e' | _, s1⟩
    · rw [hrun] at h
      obtain ⟨he, rfl⟩ := Prod.mk.inj h
      obtain rfl := Except.error.inj he
      exact Or.inr ⟨opcode, vch, pc', hop, hrun⟩
    · rw [hrun] at h
      exact absurd (Prod.mk.inj h).1 (by simp)

end Eval

open Eval

/-- The `while` loop. It ends because each round takes an instruction off the script. -/
def evalLoop (env : ScriptEnv) (pc : CScript) (s : EvalState) : Except Stop Unit × EvalState :=
  if pc = [] then (.ok (), s)
  else
    match _h : exec (step env pc) s with
    | (.error e, s') => (.error e, s')
    | (.ok pc', s') => evalLoop env pc' s'
termination_by pc.length
decreasing_by
  obtain ⟨_, _, hop, _⟩ := exec_step _h
  exact CScript.length_getOp hop

def EvalState.init (stack : List Valtype) (script : CScript) : EvalState :=
  { stack, pbegincodehash := script }

/-- `EvalScript`: whether it answers true, or the error it sets, and what is left of its
variables. -/
def evalScript (env : ScriptEnv) (stack : List Valtype) (script : CScript) :
    Except Stop Unit × EvalState :=
  if script.length > 10000 then (.error (.error .SCRIPT_SIZE), EvalState.init stack script)
  else
    match evalLoop env script (EvalState.init stack script) with
    | (.error (.thrown _), s) => (.error (.error .UNKNOWN_ERROR), s)
    | (.error e, s) => (.error e, s)
    | (.ok (), s) =>
      if s.vfExec ≠ [] then (.error (.error .UNBALANCED_CONDITIONAL), s) else (.ok (), s)

/-- `VerifyScript`, with the state each evaluation ended in. -/
def verifyScript (env : ScriptEnv) (scriptSig scriptPubKey : CScript) :
    Except Stop Unit × List EvalState :=
  if env.flag SCRIPT_VERIFY_SIGPUSHONLY && !scriptSig.isPushOnly then
    (.error (.error .SIG_PUSHONLY), [])
  else
    match evalScript env [] scriptSig with
    | (.error e, s₁) => (.error e, [s₁])
    | (.ok (), s₁) =>
    let stackCopy := if env.flag SCRIPT_VERIFY_P2SH then s₁.stack else []
    match evalScript env s₁.stack scriptPubKey with
    | (.error e, s₂) => (.error e, [s₁, s₂])
    | (.ok (), s₂) =>
    if s₂.stack = [] then (.error (.error .EVAL_FALSE), [s₁, s₂])
    else if castToBool (s₂.stack.getLastD []) = false then (.error (.error .EVAL_FALSE), [s₁, s₂])
    else if env.flag SCRIPT_VERIFY_P2SH && scriptPubKey.isPayToScriptHash then
      -- scriptSig must be literals-only
      if !scriptSig.isPushOnly then (.error (.error .SIG_PUSHONLY), [s₁, s₂])
      else if stackCopy = [] then (.error .assertion, [s₁, s₂])
      else
        match evalScript env stackCopy.dropLast (stackCopy.getLastD []) with
        | (.error e, s₃) => (.error e, [s₁, s₂, s₃])
        | (.ok (), s₃) =>
        if s₃.stack = [] then (.error (.error .EVAL_FALSE), [s₁, s₂, s₃])
        else if castToBool (s₃.stack.getLastD []) = false then
          (.error (.error .EVAL_FALSE), [s₁, s₂, s₃])
        else (.ok (), [s₁, s₂, s₃])
    else (.ok (), [s₁, s₂])

end BitBlocks
