import BitBlocks.Lib.Table
import BitBlocks.Lib.Wrap
import BitBlocks.Node.Params
import BitBlocks.Script.Script

/-!
# SwiftTX

Transaction locks by masternode votes (`swifttx.cpp`). A request (`ix`) fixes the block
height that decides who may vote and tries to enter the memory pool; a vote (`txlvote`)
is added to the lock candidate of its transaction, and the sixth vote locks the inputs.
Candidates expire after an hour.

What the handlers ask of the rest of the node is a `SwiftEnv`, which may be another one
for every message: the clock, the chain, the memory pool and the masternode list.
-/

namespace BitBlocks

open Wrap Table

def SWIFTTX_SIGNATURES_REQUIRED : Int := 6
def SWIFTTX_SIGNATURES_TOTAL : Int := 10

structure CConsensusVote where
  vinMasternode : CTxIn
  txHash : Uint256
  nBlockHeight : Int
  vchMasterNodeSignature : List UInt8
deriving DecidableEq, Repr

/-- `CConsensusVote::GetHash`: neither the height nor the signature goes in. -/
def CConsensusVote.getHash (v : CConsensusVote) : Uint256 :=
  (v.vinMasternode.prevout.hash + v.vinMasternode.prevout.n + v.txHash) % 2 ^ 256

structure CTransactionLock where
  nBlockHeight : Int
  txHash : Uint256
  vecConsensusVotes : List CConsensusVote := []
  nExpiration : Int
  nTimeout : Int
deriving DecidableEq, Repr

/-- `CountSignatures`: only the votes for the height the request has fixed. -/
def CTransactionLock.countSignatures (lock : CTransactionLock) : Int :=
  if lock.nBlockHeight = 0 then -1
  else lock.vecConsensusVotes.countP fun v => v.nBlockHeight == lock.nBlockHeight

/-- A transaction that was default-constructed. -/
def CTransaction.default : CTransaction := { hash := 0, vin := [], vout := [] }

/-- The maps of `swifttx.cpp`. -/
structure SwiftState where
  mapTxLockReq : AList (fun _ : Uint256 => CTransaction) := ∅
  mapTxLockReqRejected : AList (fun _ : Uint256 => CTransaction) := ∅
  mapTxLockVote : AList (fun _ : Uint256 => CConsensusVote) := ∅
  mapTxLocks : AList (fun _ : Uint256 => CTransactionLock) := ∅
  mapLockedInputs : AList (fun _ : COutPoint => Uint256) := ∅
  /-- Track votes with no tx for DOS. -/
  mapUnknownVotes : AList (fun _ : Uint256 => Int) := ∅

/-- What a handler reads of the rest of the node. -/
structure SwiftEnv where
  /-- Not lite mode, SPORK_2 active, and the chain synced. -/
  fActive : Bool
  /-- `GetTime()`. -/
  nTime : Int
  /-- `chainActive.Tip()->nHeight`. -/
  nTipHeight : Int
  getTransaction : Uint256 → Option CTransaction
  /-- `GetSporkValue(SPORK_5_MAX_VALUE)`. -/
  nMaxValue : Int
  isNormalPaymentScript : CScript → Bool
  getInputAge : CTxIn → Int
  /-- Everything `AcceptToMemoryPool` checks but the transaction locks. -/
  fAcceptable : CTransaction → Bool
  /-- `GetMasternodeRank(vin, nBlockHeight, MIN_SWIFTTX_PROTO_VERSION)`, or -1. -/
  getMasternodeRank : CTxIn → Int → Int
  signatureValid : CConsensusVote → Bool
  /-- The node's own masternode, if it is one, and what its key signs. -/
  activeMasternode : Option CTxIn
  sign : CConsensusVote → Option (List UInt8)

/-- A synced node that knows no transaction; whoever signs a vote with a one may vote. -/
def SwiftEnv.bare (nTime : Int) : SwiftEnv where
  fActive := true
  nTime := nTime
  nTipHeight := 100
  getTransaction _ := none
  nMaxValue := 1000
  isNormalPaymentScript := CScript.isNormalPaymentScript
  getInputAge _ := -1
  fAcceptable _ := false
  getMasternodeRank _ _ := 1
  signatureValid ctx := ctx.vchMasterNodeSignature == [1]
  activeMasternode := none
  sign _ := none

/-- A 64-bit time stored in an `int`. -/
def toInt32 (x : Int) : Int := x.bmod (2 ^ 32)

/-! ## Requests -/

/-- `IsIXTXValid`: value limit and fee, as far as the inputs are known. -/
def isIXTXValid (env : SwiftEnv) (txCollateral : CTransaction) : Bool :=
  let nValueOut := txCollateral.vout.foldl (fun n o => wrap64 (n + o.nValue)) 0
  let nValueIn := txCollateral.vin.foldl (fun n i =>
    match env.getTransaction i.prevout.hash with
    | some tx2 =>
      if i.prevout.n < tx2.vout.length then
        wrap64 (n + (tx2.vout.getD i.prevout.n CTxOut.null).nValue)
      else n
    | none => n) 0
  let missingTx := txCollateral.vin.any fun i => (env.getTransaction i.prevout.hash).isNone
  if txCollateral.vout.isEmpty then false
  else if txCollateral.nLockTime ≠ 0 then false
  else if nValueOut > env.nMaxValue * COIN then false
  else if missingTx then true
  else decide (¬ nValueIn - nValueOut < COIN / 100)

/-- The loop of `CreateNewLock`: the age of the input looked at last, if all are old enough. -/
def inputAges (env : SwiftEnv) (nTxAge : Int) : List CTxIn → Option Int
  | [] => some nTxAge
  | i :: vin => if env.getInputAge i < 5 then none else inputAges env (env.getInputAge i) vin

namespace SwiftState

/-- The input is locked for another transaction. -/
def lockedByOther (s : SwiftState) (tx : CTransaction) (txin : CTxIn) : Bool :=
  match s.mapLockedInputs.lookup txin.prevout with
  | some hash => hash != tx.hash
  | none => false

/-- `AcceptToMemoryPool`: the transaction locks, and everything else. -/
def acceptToMemoryPool (s : SwiftState) (env : SwiftEnv) (tx : CTransaction) : Bool :=
  !tx.vin.any (s.lockedByOther tx) && env.fAcceptable tx

/-- `CreateNewLock`: the height the votes have to be for, in a new candidate or in the old one. -/
def createNewLock (s : SwiftState) (env : SwiftEnv) (tx : CTransaction) : SwiftState × Int :=
  match inputAges env 0 tx.vin.reverse with
  | none => (s, 0)
  | some nTxAge =>
    let nBlockHeight := env.nTipHeight - nTxAge + 4
    let lock : CTransactionLock :=
      match s.mapTxLocks.lookup tx.hash with
      | none =>
        { nBlockHeight := nBlockHeight, txHash := tx.hash
          nExpiration := toInt32 (env.nTime + 60 * 60), nTimeout := toInt32 (env.nTime + 60 * 5) }
      | some lock => { lock with nBlockHeight := nBlockHeight }
    ({ s with mapTxLocks := s.mapTxLocks.insert tx.hash lock }, nBlockHeight)

/-- `DoConsensusVote`: check if we need to vote on this transaction. -/
def doConsensusVote (s : SwiftState) (env : SwiftEnv) (tx : CTransaction) (nBlockHeight : Int) :
    SwiftState :=
  match env.activeMasternode with
  | none => s
  | some vin =>
    let n := env.getMasternodeRank vin nBlockHeight
    if n = -1 then s
    else if n > SWIFTTX_SIGNATURES_TOTAL then s
    else
      let ctx : CConsensusVote :=
        { vinMasternode := vin, txHash := tx.hash, nBlockHeight := nBlockHeight
          vchMasterNodeSignature := [] }
      match env.sign ctx with
      | none => s
      | some vchMasterNodeSignature =>
        let ctx := { ctx with vchMasterNodeSignature := vchMasterNodeSignature }
        if !env.signatureValid ctx then s
        else { s with mapTxLockVote := s.mapTxLockVote.insert ctx.getHash ctx }

/-- Lock the inputs that are not locked yet. -/
def lockInputs (s : SwiftState) (vin : List CTxIn) (hash : Uint256) : SwiftState :=
  { s with
    mapLockedInputs :=
      (vin.map CTxIn.prevout).foldl (fun m o => insertNew m o hash) s.mapLockedInputs }

def expire (s : SwiftState) (hash : Uint256) (nTime : Int) : SwiftState :=
  match s.mapTxLocks.lookup hash with
  | none => s
  | some lock =>
    { s with mapTxLocks := s.mapTxLocks.insert hash { lock with nExpiration := toInt32 nTime } }

/-- `CheckForConflictingLocks`: two conflicting complete locks remove each other. -/
def checkForConflictingLocks (s : SwiftState) (nTime : Int) (tx : CTransaction) :
    SwiftState × Bool :=
  match tx.vin.find? (s.lockedByOther tx) with
  | none => (s, false)
  | some txin =>
    let other := (s.mapLockedInputs.lookup txin.prevout).getD 0
    ((s.expire tx.hash nTime).expire other nTime, true)

/-- A request that was seen before is ignored. -/
def requestSeen (s : SwiftState) (hash : Uint256) : Bool :=
  (s.mapTxLockReq.lookup hash).isSome || (s.mapTxLockReqRejected.lookup hash).isSome

/-- The checks a request has to pass before anything is done about it. -/
def requestValid (env : SwiftEnv) (tx : CTransaction) : Bool := isIXTXValid env tx &&
    tx.vout.all fun o => env.isNormalPaymentScript o.scriptPubKey || o.scriptPubKey.isUnspendable

/-- The request entered the memory pool. -/
def acceptRequest (s : SwiftState) (env : SwiftEnv) (tx : CTransaction) (nBlockHeight : Int) :
    SwiftState :=
  let s := s.doConsensusVote env tx nBlockHeight
  { s with mapTxLockReq := insertNew s.mapTxLockReq tx.hash tx }

/-- The request was rejected: its inputs are locked, and it is kept if it has its votes. -/
def rejectRequest (s : SwiftState) (env : SwiftEnv) (tx : CTransaction) : SwiftState :=
  let s := { s with mapTxLockReqRejected := insertNew s.mapTxLockReqRejected tx.hash tx }
  let s := s.lockInputs tx.vin tx.hash
  match s.mapTxLocks.lookup tx.hash with
  | none => s
  | some lock =>
    -- we only care if we have a complete tx lock
    if lock.countSignatures ≥ SWIFTTX_SIGNATURES_REQUIRED then
      match s.checkForConflictingLocks env.nTime tx with
      | (s, true) => s
      | (s, false) => { s with mapTxLockReq := insertNew s.mapTxLockReq tx.hash tx }
    else s

/-- The `ix` message. -/
def processRequest (s : SwiftState) (env : SwiftEnv) (tx : CTransaction) : SwiftState :=
  if s.requestSeen tx.hash then s
  else if !requestValid env tx then s
  else
    let (s, nBlockHeight) := s.createNewLock env tx
    if s.acceptToMemoryPool env tx then s.acceptRequest env tx nBlockHeight
    else s.rejectRequest env tx

/-! ## Votes -/

/-- The rules a vote has to meet: a ranked masternode, and its signature. -/
def voteValid (env : SwiftEnv) (ctx : CConsensusVote) : Bool :=
  let n := env.getMasternodeRank ctx.vinMasternode ctx.nBlockHeight
  decide (n ≠ -1) && decide (n ≤ SWIFTTX_SIGNATURES_TOTAL) && env.signatureValid ctx

/-- The candidate of the vote's transaction, a new one if there is none, with the vote added. -/
def withVote (s : SwiftState) (env : SwiftEnv) (ctx : CConsensusVote) : CTransactionLock :=
  let lock : CTransactionLock :=
    match s.mapTxLocks.lookup ctx.txHash with
    | none =>
      { nBlockHeight := 0, txHash := ctx.txHash
        nExpiration := toInt32 (env.nTime + 60 * 60), nTimeout := toInt32 (env.nTime + 60 * 5) }
    | some lock => lock
  { lock with vecConsensusVotes := lock.vecConsensusVotes ++ [ctx] }

/-- The candidate has its votes: lock the inputs of the request. -/
def completeLock (s : SwiftState) (env : SwiftEnv) (ctx : CConsensusVote) : SwiftState :=
  -- `mapTxLockReq[ctx.txHash]`
  let tx := (s.mapTxLockReq.lookup ctx.txHash).getD CTransaction.default
  let s := { s with mapTxLockReq := insertNew s.mapTxLockReq ctx.txHash tx }
  match s.checkForConflictingLocks env.nTime tx with
  | (s, true) => s
  | (s, false) =>
    if (s.mapTxLockReq.lookup ctx.txHash).isSome then s.lockInputs tx.vin ctx.txHash else s

/-- `ProcessConsensusVote`. -/
def processConsensusVote (s : SwiftState) (env : SwiftEnv) (ctx : CConsensusVote) :
    SwiftState × Bool :=
  if !voteValid env ctx then (s, false)
  else
    let lock := s.withVote env ctx
    let s := { s with mapTxLocks := s.mapTxLocks.insert ctx.txHash lock }
    if lock.countSignatures ≥ SWIFTTX_SIGNATURES_REQUIRED then (s.completeLock env ctx, true)
    else (s, true)

/-- `GetAverageVoteTime`. -/
def getAverageVoteTime (s : SwiftState) : Int :=
  (s.mapUnknownVotes.entries.map fun x : Sigma fun _ : Uint256 => Int => x.2).sum.tdiv
    s.mapUnknownVotes.entries.length

/-- Votes for requests that are not known: the vote is relayed unless the masternode spams. -/
def trackUnknownVote (s : SwiftState) (env : SwiftEnv) (ctx : CConsensusVote) : SwiftState × Bool :=
  if s.requestSeen ctx.txHash then (s, true)
  else
    let mn := ctx.vinMasternode.prevout.hash
    let s := { s with mapUnknownVotes := insertNew s.mapUnknownVotes mn (env.nTime + 60 * 10) }
    let t := (s.mapUnknownVotes.lookup mn).getD 0
    if t > env.nTime ∧ t - s.getAverageVoteTime > 60 * 10 then (s, false)
    else ({ s with mapUnknownVotes := s.mapUnknownVotes.insert mn (env.nTime + 60 * 10) }, true)

/-- The `txlvote` message. The second result is whether the vote is relayed. -/
def processVote (s : SwiftState) (env : SwiftEnv) (ctx : CConsensusVote) : SwiftState × Bool :=
  if (s.mapTxLockVote.lookup ctx.getHash).isSome then (s, false)
  else
    let s := { s with mapTxLockVote := s.mapTxLockVote.insert ctx.getHash ctx }
    match s.processConsensusVote env ctx with
    | (s, false) => (s, false)
    | (s, true) => s.trackUnknownVote env ctx

/-! ## Expiry -/

/-- One round of `CleanTransactionLocksList`. -/
def cleanLock (nTime : Int) (s : SwiftState) (x : Sigma fun _ : Uint256 => CTransactionLock) :
    SwiftState :=
  if nTime > x.2.nExpiration then
    let s := match s.mapTxLockReq.lookup x.2.txHash with
      | none => s
      | some tx =>
        { s with
          mapLockedInputs :=
            (tx.vin.map CTxIn.prevout).foldl (fun m o => m.erase o) s.mapLockedInputs
          mapTxLockReq := s.mapTxLockReq.erase x.2.txHash
          mapTxLockReqRejected := s.mapTxLockReqRejected.erase x.2.txHash
          mapTxLockVote := (x.2.vecConsensusVotes.map CConsensusVote.getHash).foldl
            (fun m hash => m.erase hash) s.mapTxLockVote }
    { s with mapTxLocks := s.mapTxLocks.erase x.1 }
  else s

/-- `CleanTransactionLocksList`. -/
def cleanTransactionLocksList (s : SwiftState) (fTip : Bool) (nTime : Int) : SwiftState :=
  if !fTip then s
  else s.mapTxLocks.entries.foldl (cleanLock nTime) s

end SwiftState

inductive SwiftMessage where
  | ix (tx : CTransaction)
  | txlvote (ctx : CConsensusVote)

/-- `ProcessMessageSwiftTX`. -/
def SwiftState.processMessage (s : SwiftState) (env : SwiftEnv) : SwiftMessage → SwiftState
  | .ix tx => if env.fActive then s.processRequest env tx else s
  | .txlvote ctx => if env.fActive then (s.processVote env ctx).1 else s

structure Delivery where
  env : SwiftEnv
  message : SwiftMessage

def SwiftState.deliver (s : SwiftState) (d : Delivery) : SwiftState :=
  s.processMessage d.env d.message

end BitBlocks
