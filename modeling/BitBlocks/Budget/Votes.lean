import BitBlocks.Lib.Best
import BitBlocks.Lib.Wrap
import BitBlocks.Primitives.Transaction

/-!
# Budget votes

Masternodes vote on proposals and on finalized budgets (`masternode-budget.cpp`). The code
for the two kinds of votes is written out twice with the same branches: it is one
definition here, and a `VoteKind` says what it reads of a vote. `CBudgetManager` holds a
`VoteBook` of each kind.
-/

namespace BitBlocks

open Wrap Table

def BUDGET_VOTE_UPDATE_MIN : Int := 60 * 60

structure CBudgetVote where
  vin : CTxIn
  nProposalHash : Uint256
  nVote : Int
  nTime : Int
  vchSig : List UInt8
deriving DecidableEq, Repr

structure CFinalizedBudgetVote where
  vin : CTxIn
  nBudgetHash : Uint256
  nTime : Int
  vchSig : List UInt8
deriving DecidableEq, Repr

/-- The hash functions: of the fields of a vote, and `COutPoint::GetHash`. -/
structure BudgetHash where
  vote : CTxIn → Uint256 → Int → Int → Uint256
  finalizedVote : CTxIn → Uint256 → Int → Uint256
  prevout : COutPoint → Uint256

structure VoteKind (V : Type) where
  /-- `GetHash`: the signature does not go in. -/
  getHash : V → Uint256
  /-- The proposal or the finalized budget. -/
  objectHash : V → Uint256
  vin : V → CTxIn
  /-- `vin.prevout.GetHash()`, the key of a vote in `mapVotes`. -/
  prevoutHash : V → Uint256
  nTime : V → Int
  vchSig : V → List UInt8
  /-- What `SignatureValid` checks the signature of. -/
  strMessage : V → List Char

def CBudgetVote.kind (H : BudgetHash) : VoteKind CBudgetVote where
  getHash vote := H.vote vote.vin vote.nProposalHash vote.nVote vote.nTime
  objectHash := nProposalHash
  vin := CBudgetVote.vin
  prevoutHash vote := H.prevout vote.vin.prevout
  nTime := CBudgetVote.nTime
  vchSig := CBudgetVote.vchSig
  strMessage vote := vote.vin.prevout.toStringShort ++ uint256ToString vote.nProposalHash ++
    Decimal.text vote.nVote ++ Decimal.text vote.nTime

def CFinalizedBudgetVote.kind (H : BudgetHash) : VoteKind CFinalizedBudgetVote where
  getHash vote := H.finalizedVote vote.vin vote.nBudgetHash vote.nTime
  objectHash := nBudgetHash
  vin := CFinalizedBudgetVote.vin
  prevoutHash vote := H.prevout vote.vin.prevout
  nTime := CFinalizedBudgetVote.nTime
  vchSig := CFinalizedBudgetVote.vchSig
  strMessage vote := vote.vin.prevout.toStringShort ++ uint256ToString vote.nBudgetHash ++
    Decimal.text vote.nTime

/-- What the handlers read of the rest of the node. -/
structure VoteEnv where
  /-- Not lite mode, and `masternodeSync.IsBlockchainSynced()`. -/
  fActive : Bool
  /-- `masternodeSync.IsSynced()`. -/
  fSynced : Bool
  /-- `GetTime()`. -/
  nNow : Int
  /-- `pubKeyMasternode` of `mnodeman.Find`. -/
  find : COutPoint → Option (List UInt8)
  /-- `obfuScationSigner.VerifyMessage`. -/
  verifyMessage : List UInt8 → List UInt8 → List Char → Bool

/-- Why `false` is returned, and what `strError` is then. -/
inductive VoteError where
  /-- "new vote older than existing vote" -/
  | olderThanExisting
  /-- "time between votes is too soon" -/
  | tooSoon
  /-- "new vote is too far ahead of current time" -/
  | tooFarAhead
  /-- "Proposal not found!", "Finalized Budget not found!" -/
  | notFound
  /-- No text. -/
  | notSynced
deriving DecidableEq, Repr

/-- `mapVotes`. -/
abbrev VoteMap (V : Type) := AList fun _ : Uint256 => V

/-- One half of `CBudgetManager`. -/
structure VoteBook (V : Type) where
  /-- `mapProposals`, `mapFinalizedBudgets`: the votes of each. -/
  mapObjects : AList (fun _ : Uint256 => VoteMap V) := ∅
  /-- The keys of `mapSeenMasternodeBudgetProposals`, `mapSeenFinalizedBudgets`. -/
  mapSeenObjects : List Uint256 := []
  /-- `mapSeenMasternodeBudgetVotes`, `mapSeenFinalizedBudgetVotes`. -/
  mapSeenVotes : AList (fun _ : Uint256 => V) := ∅
  /-- `mapOrphanMasternodeBudgetVotes`, `mapOrphanFinalizedBudgetVotes`: by the object. -/
  mapOrphanVotes : AList (fun _ : Uint256 => V) := ∅

namespace VoteKind

variable {V : Type} (kind : VoteKind V)

/-- `SignatureValid(true)`. -/
def signatureValid (env : VoteEnv) (vote : V) : Bool :=
  match env.find (kind.vin vote).prevout with
  | none => false
  | some pubKeyMasternode =>
    env.verifyMessage pubKeyMasternode (kind.vchSig vote) (kind.strMessage vote)

/-- `AddOrUpdateVote`. The difference is taken in 64 bits. -/
def addOrUpdateVote (nNow : Int) (mapVotes : VoteMap V) (vote : V) : Except VoteError (VoteMap V) :=
  match mapVotes.lookup (kind.prevoutHash vote) with
  | some old =>
    if kind.nTime old > kind.nTime vote then .error .olderThanExisting
    else if wrap64 (kind.nTime vote - kind.nTime old) < BUDGET_VOTE_UPDATE_MIN then
      .error .tooSoon
    else if kind.nTime vote > nNow + 60 * 60 then .error .tooFarAhead
    else .ok (mapVotes.insert (kind.prevoutHash vote) vote)
  | none =>
    if kind.nTime vote > nNow + 60 * 60 then .error .tooFarAhead
    else .ok (mapVotes.insert (kind.prevoutHash vote) vote)

/-- `UpdateProposal`, `UpdateFinalizedBudget`; `fFrom` says that a peer sent the vote. -/
def update (env : VoteEnv) (fFrom : Bool) (book : VoteBook V) (vote : V) :
    VoteBook V × Option VoteError :=
  match book.mapObjects.lookup (kind.objectHash vote) with
  | none =>
    if fFrom then
      if !env.fSynced then (book, some .notSynced)
      else
        ({ book with mapOrphanVotes := book.mapOrphanVotes.insert (kind.objectHash vote) vote },
          some .notFound)
    else (book, some .notFound)
  | some mapVotes =>
    match kind.addOrUpdateVote env.nNow mapVotes vote with
    | .error e => (book, some e)
    | .ok mapVotes' =>
      ({ book with mapObjects := book.mapObjects.insert (kind.objectHash vote) mapVotes' }, none)

/-- The `mvote` and the `fbvote` message. -/
def processVote (env : VoteEnv) (book : VoteBook V) (vote : V) : VoteBook V :=
  if !env.fActive then book
  else if (book.mapSeenVotes.lookup (kind.getHash vote)).isSome then book
  else if (env.find (kind.vin vote).prevout).isNone then book
  else
    let seen : VoteBook V :=
      { book with mapSeenVotes := insertNew book.mapSeenVotes (kind.getHash vote) vote }
    if !kind.signatureValid env vote then seen
    else (kind.update env true seen vote).1

/-- One round of `CheckOrphanVotes`. -/
def checkOrphan (env : VoteEnv) (book : VoteBook V) (entry : Sigma fun _ : Uint256 => V) :
    VoteBook V :=
  match kind.update env false book entry.2 with
  | (book', none) => { book' with mapOrphanVotes := book'.mapOrphanVotes.erase entry.1 }
  | (book', some _) => book'

/-- The loop of `CheckOrphanVotes` over the orphan votes of one kind. -/
def checkOrphanVotes (env : VoteEnv) (book : VoteBook V) : VoteBook V :=
  book.mapOrphanVotes.entries.foldl (kind.checkOrphan env) book

end VoteKind

namespace VoteBook

variable {V : Type}

/-- `AddProposal`, `AddFinalizedBudget`; `fValid` is what `IsValid` says. -/
def addObject (fValid : Bool) (book : VoteBook V) (hash : Uint256) : VoteBook V :=
  if !fValid then book
  else if (book.mapObjects.lookup hash).isSome then book
  else { book with mapObjects := book.mapObjects.insert hash ∅ }

/-- The `mprop` and the `fbs` message, up to `CheckOrphanVotes`; and whether it is called. -/
def processObject (fActive fCollateral fValid : Bool) (book : VoteBook V) (hash : Uint256) :
    VoteBook V × Bool :=
  if !fActive then (book, false)
  else if book.mapSeenObjects.contains hash then (book, false)
  else if !fCollateral then (book, false)
  else
    let seen : VoteBook V := { book with mapSeenObjects := hash :: book.mapSeenObjects }
    if !fValid then (seen, false)
    else (seen.addObject fValid hash, true)

end VoteBook

/-- The vote maps of `CBudgetManager`. -/
structure CBudgetManager where
  proposals : VoteBook CBudgetVote := {}
  finalizedBudgets : VoteBook CFinalizedBudgetVote := {}

inductive BudgetMessage where
  | mvote (vote : CBudgetVote)
  | fbvote (vote : CFinalizedBudgetVote)
  /-- The hash of the proposal, and what `IsBudgetCollateralValid` and `IsValid` say of it. -/
  | mprop (hash : Uint256) (fCollateral fValid : Bool)
  | fbs (hash : Uint256) (fCollateral fValid : Bool)
deriving DecidableEq, Repr

namespace CBudgetManager

variable (H : BudgetHash) (env : VoteEnv) (budget : CBudgetManager)

def checkOrphanVotes : CBudgetManager where
  proposals := (CBudgetVote.kind H).checkOrphanVotes env budget.proposals
  finalizedBudgets := (CFinalizedBudgetVote.kind H).checkOrphanVotes env budget.finalizedBudgets

def addProposal (fValid : Bool) (hash : Uint256) : CBudgetManager :=
  { budget with proposals := budget.proposals.addObject fValid hash }

def addFinalizedBudget (fValid : Bool) (hash : Uint256) : CBudgetManager :=
  { budget with finalizedBudgets := budget.finalizedBudgets.addObject fValid hash }

def processMessage : BudgetMessage → CBudgetManager
  | .mvote vote =>
    { budget with proposals := (CBudgetVote.kind H).processVote env budget.proposals vote }
  | .fbvote vote =>
    { budget with
      finalizedBudgets :=
        (CFinalizedBudgetVote.kind H).processVote env budget.finalizedBudgets vote }
  | .mprop hash fCollateral fValid =>
    let (proposals, fCheck) := budget.proposals.processObject env.fActive fCollateral fValid hash
    let budget' := { budget with proposals := proposals }
    if fCheck then budget'.checkOrphanVotes H env else budget'
  | .fbs hash fCollateral fValid =>
    let (finalizedBudgets, fCheck) :=
      budget.finalizedBudgets.processObject env.fActive fCollateral fValid hash
    let budget' := { budget with finalizedBudgets := finalizedBudgets }
    if fCheck then budget'.checkOrphanVotes H env else budget'

/-- A run: the messages, each with the node it arrives at. -/
def after (run : List (VoteEnv × BudgetMessage)) : CBudgetManager :=
  run.foldl (fun budget x => budget.processMessage H x.1 x.2) budget

end CBudgetManager

end BitBlocks
