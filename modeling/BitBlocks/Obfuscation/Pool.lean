import BitBlocks.Lib.Checks
import BitBlocks.Lib.Machine
import BitBlocks.Payments.Template
import BitBlocks.Script.SignatureHash

/-!
# The mixing pool of a masternode (`obfuscation.cpp`)

Clients join a session (`dsa`) and leave a collateral transaction. When enough have joined
they submit their inputs and outputs (`dsi`), the masternode merges them into one
transaction, shuffled, and the clients send their signatures (`dss`). Sessions and entries
time out. `fMasterNode` holds throughout; what only a client does is left out.

What the handlers ask of the rest of the node is a `PoolEnv`, which may be another one for
every event: the clock, the random numbers, the chain, the memory pool and the masternode
list.
-/

namespace BitBlocks

open Wrap Checks

def OBFUSCATION_QUEUE_TIMEOUT : Int := 30
def OBFUSCATION_SIGNING_TIMEOUT : Int := 15
def OBFUSCATION_COLLATERAL : Int := 10 * COIN

/-- `99999.99 * COIN` -/
def OBFUSCATION_POOL_MAX : Int := 9999999 * (COIN / 100)

/-- The `POOL_STATUS_` values. -/
inductive PoolStatus
  | UNKNOWN
  | IDLE
  | QUEUE
  | ACCEPTING_ENTRIES
  | FINALIZE_TRANSACTION
  | SIGNING
  | TRANSMISSION
  | ERROR
  | SUCCESS
deriving DecidableEq, Repr

/-- `CObfuscationPool::messages`. -/
inductive PoolMessage
  | ERR_ALREADY_HAVE
  | ERR_DENOM
  | ERR_ENTRIES_FULL
  | ERR_EXISTING_TX
  | ERR_FEES
  | ERR_INVALID_COLLATERAL
  | ERR_INVALID_INPUT
  | ERR_INVALID_SCRIPT
  | ERR_INVALID_TX
  | ERR_MAXIMUM
  | ERR_MN_LIST
  | ERR_MODE
  | ERR_NON_STANDARD_PUBKEY
  | ERR_NOT_A_MN
  | ERR_QUEUE_FULL
  | ERR_RECENT
  | ERR_SESSION
  | ERR_MISSING_TX
  | ERR_VERSION
  | MSG_NOERR
  | MSG_SUCCESS
  | MSG_ENTRIES_ADDED
deriving DecidableEq, Repr

/-- `prevPubKey` is not serialized: an input that came in a message has the empty one. -/
def CTxIn.prevPubKey (_ : CTxIn) : CScript := []

structure CTxDSIn extends CTxIn where
  prevPubKey : CScript
  fHasSig : Bool
deriving DecidableEq, Repr

def CTxDSIn.ofTxIn (txin : CTxIn) : CTxDSIn :=
  { txin with prevPubKey := txin.prevPubKey, fHasSig := false }

/-- A client's transaction in the pool. -/
structure CObfuScationEntry where
  isSet : Bool := false
  sev : List CTxDSIn := []
  vout : List CTxOut := []
  amount : Int := 0
  collateral : CTransaction := { hash := 0, vin := [], vout := [] }
  addedTime : Int := 0
  /-- The session the entry was added in, by its number; the code does not keep it. -/
  nSession : Nat := 0
deriving DecidableEq, Repr

namespace CObfuScationEntry

/-- `Add`. -/
def add (v : CObfuScationEntry) (nTime : Int) (vinIn : List CTxIn) (amountIn : Int)
    (collateralIn : CTransaction) (voutIn : List CTxOut) : CObfuScationEntry × Bool :=
  if v.isSet then (v, false)
  else
    ({ v with
        sev := v.sev ++ vinIn.map CTxDSIn.ofTxIn
        vout := v.vout ++ voutIn
        amount := amountIn
        collateral := collateralIn
        isSet := true
        addedTime := nTime }, true)

/-- The same input, whatever its signature. -/
def sameInput (s vin : CTxIn) : Bool := s.prevout == vin.prevout && s.nSequence == vin.nSequence

/-- The loop of `AddSig`: the first input that is the same decides. -/
def addSigLoop (vin : CTxIn) : List CTxDSIn → List CTxDSIn × Bool
  | [] => ([], false)
  | s :: sev =>
    if sameInput s.toCTxIn vin then
      if s.fHasSig then (s :: sev, false)
      else
        ({ s with scriptSig := vin.scriptSig, prevPubKey := vin.prevPubKey, fHasSig := true } ::
          sev, true)
    else ((s :: (addSigLoop vin sev).1), (addSigLoop vin sev).2)

def addSig (v : CObfuScationEntry) (vin : CTxIn) : CObfuScationEntry × Bool :=
  ({ v with sev := (addSigLoop vin v.sev).1 }, (addSigLoop vin v.sev).2)

def isExpired (v : CObfuScationEntry) (nTime : Int) : Bool :=
  nTime - v.addedTime > OBFUSCATION_QUEUE_TIMEOUT

end CObfuScationEntry

structure PoolState where
  entries : List CObfuScationEntry := []
  finalTransaction : CMutableTransaction := { vin := [], vout := [] }
  /-- In milliseconds. -/
  lastTimeChanged : Int
  state : PoolStatus := .IDLE
  sessionID : Int := 0
  /-- N users have said they'll join. -/
  sessionUsers : Int := 0
  /-- Users must submit a denomination matching this. -/
  sessionDenom : Int := 0
  vecSessionCollateral : List CTransaction := []
  /-- How many sessions were opened; the code does not count. -/
  nSessions : Nat := 0
deriving DecidableEq, Repr

/-- The size of the pool, and the functions of cryptography. -/
structure PoolRules where
  nPoolMaxTransactions : Int
  /-- Three on the main network, two on the others. -/
  nPoolMaxTransactions_range : 2 ≤ nPoolMaxTransactions
  /-- The hash functions. -/
  hashes : ScriptEnv
  /-- `CPubKey::Verify` of a key, a hash and a signature. -/
  verify : Valtype → Valtype → Valtype → Bool

/-- What an event reads of the rest of the node. -/
structure PoolEnv where
  /-- Not lite mode, and the chain synced. -/
  fActive : Bool
  /-- `GetTime()` and `GetTimeMillis()`. -/
  nTime : Int
  nTimeMillis : Int
  /-- `ActiveProtocol()`. -/
  nActiveProtocol : Int
  /-- `mnodeman.Find(activeMasternode.vin)->nLastDsq`, if it is found. -/
  nLastDsq : Option Int
  /-- `mnodeman.CountEnabled(ActiveProtocol())` and `mnodeman.nDsqCount`. -/
  nEnabled : Int
  nDsqCount : Int
  getTransaction : Uint256 → Option CTransaction
  acceptableInputs : CTransaction → Bool
  /-- `CMutableTransaction::GetHash`. -/
  getHash : CMutableTransaction → Uint256
  /-- `rand()`. -/
  nRand : Nat
  /-- What `std::shuffle` makes of a list. -/
  shuffle : {α : Type} → List α → List α
  shuffle_perm : ∀ {α : Type} (l : List α), (shuffle l).Perm l
  /-- `AcceptToMemoryPool` of the final transaction. -/
  acceptToMemoryPool : CMutableTransaction → Bool
  /-- The masternode's key is there, signs and verifies. -/
  fKeySigns : Bool

/-! ## Denominations -/

def obfuScationDenominations : List Int :=
  [10000 * COIN + 10000000, 1000 * COIN + 1000000, 100 * COIN + 100000, 10 * COIN + 10000,
    1 * COIN + 1000, COIN / 10 + 100]

/-- `GetDenominations`: a bitshifted integer representing the denominations in the list. -/
def getDenominations (vout : List CTxOut) : Int :=
  if vout.all fun out => obfuScationDenominations.contains out.nValue then
    (obfuScationDenominations.zipIdx.map fun x =>
      if vout.any fun out => out.nValue == x.1 then (2 : Int) ^ x.2 else 0).sum
  else 0

namespace PoolState

/-- `SetNull`. -/
def setNull (s : PoolState) (env : PoolEnv) : PoolState :=
  { s with
    sessionUsers := 0
    vecSessionCollateral := []
    state := .IDLE
    sessionID := 0
    sessionDenom := 0
    entries := []
    finalTransaction := { s.finalTransaction with vin := [], vout := [] }
    lastTimeChanged := env.nTimeMillis }

/-- `UpdateState`: a masternode can't set the state to `ERROR` or `SUCCESS`. -/
def updateState (s : PoolState) (env : PoolEnv) (newState : PoolStatus) : PoolState :=
  if newState = .ERROR ∨ newState = .SUCCESS then s
  else
    { s with
      lastTimeChanged := if s.state ≠ newState then env.nTimeMillis else s.lastTimeChanged
      state := newState }

@[simp] theorem updateState_sessionUsers (s : PoolState) (env : PoolEnv) (newState : PoolStatus) :
    (s.updateState env newState).sessionUsers = s.sessionUsers := by
  unfold updateState; split <;> rfl

@[simp] theorem updateState_vecSessionCollateral (s : PoolState) (env : PoolEnv)
    (newState : PoolStatus) :
    (s.updateState env newState).vecSessionCollateral = s.vecSessionCollateral := by
  unfold updateState; split <;> rfl

@[simp] theorem updateState_sessionID (s : PoolState) (env : PoolEnv) (newState : PoolStatus) :
    (s.updateState env newState).sessionID = s.sessionID := by
  unfold updateState; split <;> rfl

@[simp] theorem updateState_nSessions (s : PoolState) (env : PoolEnv) (newState : PoolStatus) :
    (s.updateState env newState).nSessions = s.nSessions := by
  unfold updateState; split <;> rfl

@[simp] theorem updateState_entries (s : PoolState) (env : PoolEnv) (newState : PoolStatus) :
    (s.updateState env newState).entries = s.entries := by
  unfold updateState; split <;> rfl

@[simp] theorem updateState_finalTransaction (s : PoolState) (env : PoolEnv)
    (newState : PoolStatus) :
    (s.updateState env newState).finalTransaction = s.finalTransaction := by
  unfold updateState; split <;> rfl

theorem updateState_state {s : PoolState} {env : PoolEnv} {newState : PoolStatus}
    (h : newState ≠ .ERROR) (h' : newState ≠ .SUCCESS) :
    (s.updateState env newState).state = newState := by
  unfold updateState
  rw [if_neg (by simp [h, h'])]

def isSessionReady (R : PoolRules) (s : PoolState) : Bool :=
  decide (s.sessionUsers ≥ R.nPoolMaxTransactions)

/-- `IsCompatibleWithEntries`. -/
def isCompatibleWithEntries (s : PoolState) (vout : List CTxOut) : Bool :=
  getDenominations vout != 0 &&
    s.entries.all fun v => getDenominations vout == getDenominations v.vout

end PoolState

/-- What the inputs are worth as far as their transactions are known, and whether one is not. -/
def knownValueIn (env : PoolEnv) (vin : List CTxIn) : Int × Bool := vin.foldl (fun acc i =>
    match env.getTransaction i.prevout.hash with
    | some tx2 =>
      (if i.prevout.n < tx2.vout.length then
        wrap64 (acc.1 + (tx2.vout.getD i.prevout.n CTxOut.null).nValue) else acc.1, acc.2)
    | none => (acc.1, true)) (0, false)

def sumValueOut (vout : List CTxOut) : Int := vout.foldl (fun n o => wrap64 (n + o.nValue)) 0

/-- `IsCollateralValid`: collateral transactions are required to pay out a fee to the miners. -/
def isCollateralValid (env : PoolEnv) (txCollateral : CTransaction) : Bool :=
  decide (1 ≤ txCollateral.vout.length) &&
  txCollateral.nLockTime == 0 &&
  txCollateral.vout.all (fun o => o.scriptPubKey.isNormalPaymentScript) &&
  !(knownValueIn env txCollateral.vin).2 &&
  decide (OBFUSCATION_COLLATERAL ≤
    wrap64 ((knownValueIn env txCollateral.vin).1 - sumValueOut txCollateral.vout)) &&
  env.acceptableInputs txCollateral

namespace PoolState

/-! ## Joining a session -/

/-- `IsCompatibleWithSession`: a refusal without a message leaves `errorID` as it was. -/
def isCompatibleWithSession (R : PoolRules) (env : PoolEnv) (s : PoolState) (nDenom : Int)
    (txCollateral : CTransaction) : PoolState × Except (Option PoolMessage) Unit :=
  if nDenom = 0 then (s, .error none)
  else if !isCollateralValid env txCollateral then (s, .error (some .ERR_INVALID_COLLATERAL))
  else
    let s := if s.sessionUsers < 0 then { s with sessionUsers := 0 } else s
    if s.sessionUsers = 0 then
      let s := { s with
        sessionID := 1 + (env.nRand % 999999 : Nat)
        sessionDenom := nDenom
        sessionUsers := s.sessionUsers + 1
        lastTimeChanged := env.nTimeMillis
        nSessions := s.nSessions + 1 }
      let s := s.updateState env .QUEUE
      ({ s with vecSessionCollateral := s.vecSessionCollateral ++ [txCollateral] }, .ok ())
    else if (s.state ≠ .ACCEPTING_ENTRIES ∧ s.state ≠ .QUEUE) ∨
        s.sessionUsers ≥ R.nPoolMaxTransactions then
      (s, .error (some (if s.sessionUsers ≥ R.nPoolMaxTransactions then .ERR_QUEUE_FULL
        else .ERR_MODE)))
    else if nDenom ≠ s.sessionDenom then (s, .error (some .ERR_DENOM))
    else
      ({ s with
        sessionUsers := s.sessionUsers + 1
        lastTimeChanged := env.nTimeMillis
        vecSessionCollateral := s.vecSessionCollateral ++ [txCollateral] }, .ok ())

/-- The last queue of this masternode was too recent. -/
def dsqTooRecent (env : PoolEnv) (nLastDsq : Int) : Bool :=
  nLastDsq != 0 && decide (nLastDsq + env.nEnabled.tdiv 5 > env.nDsqCount)

/-- The handler of `dsa`. -/
def processDsa (R : PoolRules) (env : PoolEnv) (s : PoolState) (nVersion nDenom : Int)
    (txCollateral : CTransaction) : PoolState × Except (Option PoolMessage) Unit :=
  if nVersion < env.nActiveProtocol then (s, .error (some .ERR_VERSION))
  else
    match env.nLastDsq with
    | none => (s, .error (some .ERR_MN_LIST))
    | some nLastDsq =>
      if s.sessionUsers = 0 ∧ dsqTooRecent env nLastDsq = true then
        (s, .error (some .ERR_RECENT))
      else s.isCompatibleWithSession R env nDenom txCollateral

/-! ## Submitting inputs and outputs -/

/-- What the handler of `dsi` checks of the outputs, in order. -/
def checkOutput (o : CTxOut) : Except PoolMessage Unit := do
  failIf (o.scriptPubKey.length != 25) .ERR_NON_STANDARD_PUBKEY
  failIf (!o.scriptPubKey.isNormalPaymentScript) .ERR_INVALID_SCRIPT

/--
What the handler of `dsi` checks before it calls `AddEntry`. The fee is compared with
`nValueIn * .01`, which is exact enough below `OBFUSCATION_POOL_MAX`.
-/
def checkEntry (R : PoolRules) (env : PoolEnv) (s : PoolState) (nVersion : Int)
    (vin : List CTxIn) (vout : List CTxOut) : Except PoolMessage Unit := do
  failIf (decide (nVersion < env.nActiveProtocol)) .ERR_VERSION
  failIf (!s.isSessionReady R) .ERR_SESSION
  failIf (!s.isCompatibleWithEntries vout) .ERR_EXISTING_TX
  Checks.all vout checkOutput
  let nValueIn := knownValueIn env vin
  failIf (decide (nValueIn.1 > OBFUSCATION_POOL_MAX)) .ERR_MAXIMUM
  failIf (!nValueIn.2 && decide (100 * wrap64 (nValueIn.1 - sumValueOut vout) > nValueIn.1))
    .ERR_FEES
  failIf nValueIn.2 .ERR_MISSING_TX
  let tx : CMutableTransaction := { vin, vout }
  failIf (!env.acceptableInputs (tx.toTransaction (env.getHash tx))) .ERR_INVALID_TX

/-- An input of the message is in the pool. -/
def hasInput (s : PoolState) (txin : CTxIn) : Bool :=
  s.entries.any fun v => v.sev.any fun i => i.toCTxIn == txin

/-- Why `AddEntry` refuses an entry, if it does. -/
def entryError (R : PoolRules) (env : PoolEnv) (s : PoolState) (newInput : List CTxIn)
    (nAmount : Int) (txCollateral : CTransaction) : Option PoolMessage :=
  if newInput.any fun txin => txin.prevout.isNull || decide (nAmount < 0) then
    some .ERR_INVALID_INPUT
  else if !isCollateralValid env txCollateral then some .ERR_INVALID_COLLATERAL
  else if (s.entries.length : Int) ≥ R.nPoolMaxTransactions then some .ERR_ENTRIES_FULL
  else if newInput.any s.hasInput then some .ERR_ALREADY_HAVE
  else none

/-- `AddEntry`: each of its refusals lowers the number of users. -/
def addEntry (R : PoolRules) (env : PoolEnv) (s : PoolState) (newInput : List CTxIn)
    (nAmount : Int) (txCollateral : CTransaction) (newOutput : List CTxOut) :
    PoolState × Except PoolMessage PoolMessage :=
  match s.entryError R env newInput nAmount txCollateral with
  | some errorID => ({ s with sessionUsers := s.sessionUsers - 1 }, .error errorID)
  | none =>
    let v : CObfuScationEntry := { nSession := s.nSessions }
    ({ s with
      entries := s.entries ++ [(v.add env.nTime newInput nAmount txCollateral newOutput).1] },
      .ok .MSG_ENTRIES_ADDED)

/-! ## Signatures -/

/-- `CTxDSIn`s of all entries, in order. -/
def inputs (s : PoolState) : List CTxDSIn := s.entries.flatMap (·.sev)

/-- The checker of `VerifyScript(.., SCRIPT_VERIFY_P2SH | SCRIPT_VERIFY_STRICTENC,
MutableTransactionSignatureChecker(&tx, n))`. -/
def checker (R : PoolRules) (tx : CMutableTransaction) (n : Nat) : ScriptEnv :=
  R.hashes.checker R.verify (SCRIPT_VERIFY_P2SH ||| SCRIPT_VERIFY_STRICTENC) (tx.toTransaction 0) n

/-- `VerifyScript` answers true. -/
def verifies (R : PoolRules) (tx : CMutableTransaction) (n : Nat)
    (scriptSig scriptPubKey : CScript) :
    Bool :=
  match (verifyScript (checker R tx n) scriptSig scriptPubKey).1 with
  | .ok () => true
  | .error _ => false

/-- The number of the last input that equals `newVin`, with what it keeps of its coin. -/
def findInput (newVin : CTxIn) (sevs : List CTxDSIn) : Option (Nat × CScript) :=
  sevs.zipIdx.foldl (fun found x =>
    if x.1.toCTxIn = newVin then some (x.2, x.1.prevPubKey) else found) none

/-- `SignatureValid`: the transaction has the inputs in the order of the entries. -/
def signatureValid (R : PoolRules) (s : PoolState) (newSig : CScript) (newVin : CTxIn) : Bool :=
  match findInput newVin s.inputs with
  | none => true
  | some (n, sigPubKey) =>
    let txNew : CMutableTransaction :=
      { vin := (s.inputs.map CTxDSIn.toCTxIn).modify n fun txin => { txin with scriptSig := newSig }
        vout := s.entries.flatMap (·.vout) }
    verifies R txNew n newSig sigPubKey

/-- The scripts are set in the final transaction wherever the input is the same. -/
def setScriptSig (newVin : CTxIn) (vin : List CTxIn) : List CTxIn := vin.map fun txin =>
    if newVin.prevout = txin.prevout ∧ txin.nSequence = newVin.nSequence then
      { txin with scriptSig := newVin.scriptSig }
    else txin

/-- The loop over the entries: the first one that takes the signature ends it. -/
def addSigs (newVin : CTxIn) : List CObfuScationEntry → List CObfuScationEntry × Bool
  | [] => ([], false)
  | v :: entries =>
    if (v.addSig newVin).2 then ((v.addSig newVin).1 :: entries, true)
    else ((v.addSig newVin).1 :: (addSigs newVin entries).1, (addSigs newVin entries).2)

/-- `AddScriptSig`. -/
def addScriptSig (R : PoolRules) (s : PoolState) (newVin : CTxIn) : PoolState × Bool :=
  if s.inputs.any fun i => i.scriptSig == newVin.scriptSig then (s, false)
  else if !s.signatureValid R newVin.scriptSig newVin then (s, false)
  else
    ({ s with
      finalTransaction :=
        { s.finalTransaction with vin := setScriptSig newVin s.finalTransaction.vin }
      entries := (addSigs newVin s.entries).1 }, (addSigs newVin s.entries).2)

/-- `SignaturesComplete`: check to make sure everything is signed. -/
def signaturesComplete (s : PoolState) : Bool := s.entries.all fun v => v.sev.all (·.fHasSig)

/-! ## Progress -/

/-- `CheckFinalTransaction`: without a signature of the masternode nothing more is done. -/
def checkFinalTransaction (s : PoolState) (env : PoolEnv) : PoolState :=
  if !env.acceptToMemoryPool s.finalTransaction then
    (s.setNull env).updateState env .ACCEPTING_ENTRIES
  else if env.fKeySigns then s.setNull env
  else s

/-- The transaction made of all entries. -/
def mergeEntries (s : PoolState) (env : PoolEnv) : CMutableTransaction where
  vin := env.shuffle (s.inputs.map CTxDSIn.toCTxIn)
  vout := env.shuffle (s.entries.flatMap (·.vout))

/-- The first part of `Check`: if the entries are full, then move on to the next phase. -/
def checkEntries (R : PoolRules) (env : PoolEnv) (s : PoolState) : PoolState :=
  if s.state = .ACCEPTING_ENTRIES ∧ (s.entries.length : Int) ≥ R.nPoolMaxTransactions then
    s.updateState env .FINALIZE_TRANSACTION
  else s

/-- The second part: create the finalized transaction for distribution to the clients. -/
def finalize (s : PoolState) (env : PoolEnv) : PoolState :=
  if s.state = .FINALIZE_TRANSACTION then
    { s.updateState env .SIGNING with finalTransaction := s.mergeEntries env }
  else s

/-- The third part: if we have all of the signatures, try to compile the transaction. -/
def transmit (s : PoolState) (env : PoolEnv) : PoolState :=
  if s.state = .SIGNING ∧ s.signaturesComplete = true then
    (s.updateState env .TRANSMISSION).checkFinalTransaction env
  else s

/-- The last part: reset if we're here for 10 seconds. -/
def resetDone (s : PoolState) (env : PoolEnv) : PoolState :=
  if (s.state = .ERROR ∨ s.state = .SUCCESS) ∧ env.nTimeMillis - s.lastTimeChanged ≥ 10000 then
    s.setNull env
  else s

/-- `Check`. -/
def check (R : PoolRules) (env : PoolEnv) (s : PoolState) : PoolState :=
  (((s.checkEntries R env).finalize env).transmit env).resetDone env

/-- The handler of `dsi`. -/
def processDsi (R : PoolRules) (env : PoolEnv) (s : PoolState) (nVersion : Int)
    (vin : List CTxIn) (nAmount : Int) (txCollateral : CTransaction) (vout : List CTxOut) :
    PoolState × Except PoolMessage PoolMessage :=
  match s.checkEntry R env nVersion vin vout with
  | .error errorID => (s, .error errorID)
  | .ok () =>
    match s.addEntry R env vin nAmount txCollateral vout with
    | (s, .ok errorID) => (s.check R env, .ok errorID)
    | (s, .error errorID) => (s, .error errorID)

/-- The signatures of a message, one after the other; whether one of them was added. -/
def addScriptSigs (R : PoolRules) (s : PoolState) (sigs : List CTxIn) : PoolState × Bool :=
  sigs.foldl (fun acc item =>
    ((acc.1.addScriptSig R item).1, acc.2 || (acc.1.addScriptSig R item).2))
    (s, false)

theorem addScriptSigs_fst (R : PoolRules) (s : PoolState) (sigs : List CTxIn) :
    (s.addScriptSigs R sigs).1 = sigs.foldl (fun s item => (s.addScriptSig R item).1) s := by
  unfold addScriptSigs
  generalize false = success
  induction sigs generalizing s success with
  | nil => rfl
  | cons item sigs ih => exact ih _ _

/-- The handler of `dss`. -/
def processDss (R : PoolRules) (env : PoolEnv) (s : PoolState) (nVersion : Int)
    (sigs : List CTxIn) : PoolState :=
  if nVersion < env.nActiveProtocol then s
  else
    let (s, success) := s.addScriptSigs R sigs
    if success then s.check R env else s

/-! ## Timeouts -/

/-- The loop over the entries, `kept` being those before the iterator. -/
def expireEntries (env : PoolEnv) (s : PoolState) (kept : List CObfuScationEntry) :
    List CObfuScationEntry → PoolState
  | [] => s
  | v :: rest =>
    if v.isExpired env.nTime then
      let s := { s with entries := kept ++ rest }
      expireEntries env (if s.entries.isEmpty then s.setNull env else s) kept rest
    else expireEntries env s (kept ++ [v]) rest

def timedOut (s : PoolState) (env : PoolEnv) (nSeconds : Int) : Bool :=
  decide (env.nTimeMillis - s.lastTimeChanged ≥ nSeconds * 1000)

/-- What `CheckTimeout` does while entries come in, and otherwise. -/
def checkQueueTimeout (s : PoolState) (env : PoolEnv) : PoolState :=
  if s.state = .ACCEPTING_ENTRIES ∨ s.state = .QUEUE then
    let s := expireEntries env s [] s.entries
    if s.timedOut env OBFUSCATION_QUEUE_TIMEOUT then s.setNull env else s
  else if s.timedOut env OBFUSCATION_QUEUE_TIMEOUT then (s.setNull env).updateState env .ERROR
  else s

/-- `CheckTimeout`. -/
def checkTimeout (s : PoolState) (env : PoolEnv) : PoolState :=
  let s := s.checkQueueTimeout env
  if s.state = .SIGNING ∧ s.timedOut env OBFUSCATION_SIGNING_TIMEOUT = true then
    (s.setNull env).updateState env .ERROR
  else s

/-- `CheckForCompleteQueue`: check to see if we're ready for submissions from clients. -/
def checkForCompleteQueue (R : PoolRules) (env : PoolEnv) (s : PoolState) : PoolState :=
  if s.state = .QUEUE ∧ s.sessionUsers = R.nPoolMaxTransactions then
    s.updateState env .ACCEPTING_ENTRIES
  else s

end PoolState

/-! ## Events -/

/-- What happens to the pool of a masternode. -/
inductive PoolEvent where
  | dsa (nVersion nDenom : Int) (txCollateral : CTransaction)
  | dsi (nVersion : Int) (vin : List CTxIn) (nAmount : Int) (txCollateral : CTransaction)
      (vout : List CTxOut)
  | dss (nVersion : Int) (sigs : List CTxIn)
  | checkTimeout
  | checkForCompleteQueue
  /-- `Reset`, by the operator. -/
  | reset

/-- `ProcessMessageObfuscation`, or the thread that looks after the pool. -/
def PoolState.step (R : PoolRules) (s : PoolState) (x : PoolEnv × PoolEvent) : PoolState :=
  match x.2 with
  | .dsa nVersion nDenom txCollateral =>
    if x.1.fActive then (s.processDsa R x.1 nVersion nDenom txCollateral).1 else s
  | .dsi nVersion vin nAmount txCollateral vout =>
    if x.1.fActive then (s.processDsi R x.1 nVersion vin nAmount txCollateral vout).1 else s
  | .dss nVersion sigs => if x.1.fActive then s.processDss R x.1 nVersion sigs else s
  | .checkTimeout => s.checkTimeout x.1
  | .checkForCompleteQueue => s.checkForCompleteQueue R x.1
  | .reset => s.setNull x.1

/-! ## A pool to look at -/

/-- Hash functions and keys that are never asked below; no signature verifies. -/
def PoolRules.bare (n : Int) (h : 2 ≤ n) : PoolRules where
  nPoolMaxTransactions := n
  nPoolMaxTransactions_range := h
  hashes :=
    { flags := 0
      checkSig := fun _ _ _ => false
      ripemd160 := fun _ => ⟨List.replicate 20 0, length_zero160⟩
      sha1 := fun _ => ⟨List.replicate 20 0, length_zero160⟩
      sha256 := fun _ => ⟨List.replicate 32 0, length_zero256⟩
      hash160 := fun _ => ⟨List.replicate 20 0, length_zero160⟩
      hash256 := fun _ => ⟨List.replicate 32 0, length_zero256⟩ }
  verify _ _ _ := false

def normalPayment : CScript :=
  [OP_DUP, OP_HASH160, 20] ++ List.replicate 20 0 ++ [OP_EQUALVERIFY, OP_CHECKSIG]

/-- A synced node where transactions from 100 on have one output, worth the smallest
denomination, and the others one worth 20 coins. -/
def PoolEnv.bare : PoolEnv where
  fActive := true
  nTime := 0
  nTimeMillis := 0
  nActiveProtocol := 70000
  nLastDsq := some 0
  nEnabled := 10
  nDsqCount := 0
  getTransaction hash :=
    let nValue := if 100 ≤ hash then COIN / 10 + 100 else 20 * COIN
    some { hash, vin := [], vout := [⟨nValue, normalPayment, -10⟩] }
  acceptableInputs _ := true
  getHash _ := 0
  nRand := 5
  shuffle l := l
  shuffle_perm l := List.Perm.refl l
  acceptToMemoryPool _ := true
  fKeySigns := true

/-- A collateral that leaves ten coins to the miners. -/
def goodCollateral (n : Nat) : CTransaction where
  hash := 1000 + n
  vin := [⟨⟨n, 0⟩, [], 0xffffffff⟩]
  vout := [⟨10 * COIN, normalPayment, -10⟩]

/-- A client joins, with the coin `n` as collateral. -/
def joins (n : Nat) : PoolEnv × PoolEvent := ⟨.bare, .dsa 70000 32 (goodCollateral n)⟩

/-- A client submits the coin `n`. -/
def submits (n : Nat) (txCollateral : CTransaction) : PoolEnv × PoolEvent :=
  ⟨.bare, .dsi 70000 [⟨⟨n, 0⟩, [], 0xffffffff⟩] (COIN / 10 + 100) txCollateral
    [⟨COIN / 10 + 100, normalPayment, -10⟩]⟩

def PoolState.new (nTimeMillis : Int) : PoolState := { lastTimeChanged := nTimeMillis }

end BitBlocks
