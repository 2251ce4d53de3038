import BitBlocks.Node.Params

/-!
# What a node holds besides the block tree and the coins

Sporks, masternode payment votes, finalized budgets, SwiftTX locks and the local
clock. None of it is part of any block, it differs between honest nodes, and it
changes while a node runs; `CheckBlock` and `ConnectBlock` read it all the same.
`LocalState` is that input, as it stands at the moment of one call.
-/

namespace BitBlocks

/-- A spork identifier and its default, from the table in `spork.h`. -/
def sporkDefaults : List (Nat × Int) :=
  [(10001, 978307200), (10002, 1424217600), (10004, 1000), (10006, 978307200),
   (10007, 4070908800), (10008, 4070908800), (10009, 4070908800), (10010, 0), (10011, 0),
   (10012, 4070908800), (10013, 4070908800), (10014, 4070908800), (10015, 8000)]

def SPORK_3_SWIFTTX_BLOCK_FILTERING : Nat := 10002
def SPORK_8_MASTERNODE_PAYMENT_ENFORCEMENT : Nat := 10007
def SPORK_9_MASTERNODE_BUDGET_ENFORCEMENT : Nat := 10008
def SPORK_13_ENABLE_SUPERBLOCKS : Nat := 10012

/-- A payee voted for at some height, with its votes. -/
structure CMasternodePayee where
  scriptPubKey : CScript
  nVotes : Int
deriving DecidableEq, Repr

/-- One payment of a finalized budget. -/
structure CTxBudgetPayment where
  payee : CScript
  nAmount : Int
deriving DecidableEq, Repr

structure CFinalizedBudget where
  nBlockStart : Int
  vecBudgetPayments : List CTxBudgetPayment
  /-- `mapVotes.size()`. -/
  nVoteCount : Int
deriving DecidableEq, Repr

def CFinalizedBudget.getBlockEnd (b : CFinalizedBudget) : Int :=
  b.nBlockStart + (b.vecBudgetPayments.length - 1)

/-- `nBlockHeight >= GetBlockStart() && nBlockHeight <= GetBlockEnd()`. -/
def CFinalizedBudget.covers (b : CFinalizedBudget) (nBlockHeight : Int) : Bool :=
  decide (nBlockHeight ≥ b.nBlockStart) && decide (nBlockHeight ≤ b.getBlockEnd)

/-- The node's own, changeable view of the network. -/
structure LocalState where
  /-- `GetTime()` and `GetAdjustedTime()`. -/
  nTime : Int
  nAdjustedTime : Int
  /-- `mapSporksActive`, as the value of each active spork. -/
  mapSporksActive : Nat → Option Int
  /-- `masternodeSync.IsSynced()`. -/
  fSynced : Bool
  /-- `IsInitialBlockDownload()`. -/
  fInitialBlockDownload : Bool
  mapLockedInputs : COutPoint → Option Uint256
  mapFinalizedBudgets : List CFinalizedBudget
  /-- `mnodeman.CountEnabled(ActiveProtocol())`. -/
  nCountEnabled : Int
  /-- `mnodeman.size()` and `mnodeman.stable_size()`. -/
  nSize : Int
  nStableSize : Int
  mapMasternodeBlocks : Int → Option (List CMasternodePayee)

/-- What the checks read of the block tree: `chainActive.Tip()` and `mapBlockIndex`. -/
structure TipView where
  /-- Hash and height of the tip, if there is one. -/
  tip : Option (Uint256 × Int)
  /-- The height of an indexed block. -/
  height : Uint256 → Option Int

/-- The height a block would have; `0` when its parent is not known. -/
def TipView.heightOf (t : TipView) (tip : Uint256 × Int) (hashPrevBlock : Uint256) : Int :=
  if tip.1 = hashPrevBlock then tip.2 + 1
  else match t.height hashPrevBlock with
    | some h => h + 1
    | none => 0

namespace LocalState

/-- `IsSporkActive`. -/
def isSporkActive (env : LocalState) (nSporkID : Nat) : Bool :=
  let r := match env.mapSporksActive nSporkID with
    | some v => v
    | none => ((sporkDefaults.lookup nSporkID).getD (-1))
  let r := if r = -1 then 4070908800 else r
  decide (r < env.nTime)

/-! ## Budgets -/

/-- The most votes any budget covering the height has, starting from `init`. -/
def highestCount (env : LocalState) (init nBlockHeight : Int) : Int :=
  env.mapFinalizedBudgets.foldl (fun n b =>
    if decide (b.nVoteCount > n) && b.covers nBlockHeight then b.nVoteCount else n) init

/-- `CBudgetManager::IsBudgetPaymentBlock`. -/
def isBudgetPaymentBlock (env : LocalState) (nBlockHeight : Int) : Bool :=
  decide (env.highestCount (-1) nBlockHeight > env.nCountEnabled.tdiv 20)

/-- `CFinalizedBudget::IsTransactionValid`. -/
def budgetPays (b : CFinalizedBudget) (txNew : CTransaction) (nBlockHeight : Int) : Bool :=
  let nCurrentBudgetPayment := nBlockHeight - b.nBlockStart
  if nCurrentBudgetPayment < 0 then false
  else match b.vecBudgetPayments[nCurrentBudgetPayment.toNat]? with
    | none => false
    | some payment => txNew.vout.any fun out =>
      payment.payee == out.scriptPubKey && payment.nAmount == out.nValue

/-- `CBudgetManager::IsTransactionValid`. -/
def isBudgetTransactionValid (env : LocalState) (txNew : CTransaction) (nBlockHeight : Int) :
    Bool :=
  let nHighestCount := env.highestCount 0 nBlockHeight
  if nHighestCount < env.nCountEnabled.tdiv 20 then false
  else env.mapFinalizedBudgets.any fun b =>
    decide (b.nVoteCount > nHighestCount - env.nCountEnabled.tdiv 10) && b.covers nBlockHeight &&
      budgetPays b txNew nBlockHeight

/-! ## Masternode payments -/

/-- The votes a payee needs before it counts. -/
def MNPAYMENTS_SIGNATURES_REQUIRED : Int := 6

/-- `CMasternodeBlockPayees::IsTransactionValid`. -/
def blockPayeesPaid (env : LocalState) (R : Rules) (P : CChainParams)
    (vecPayments : List CMasternodePayee) (txNew : CTransaction) (nBlockHeight : Int) : Bool :=
  let nReward := getBlockValue nBlockHeight
  let nMasternodeDriftCount :=
    (if env.isSporkActive SPORK_8_MASTERNODE_PAYMENT_ENFORCEMENT then env.nStableSize
     else env.nSize) + P.nMasternodeCountDrift
  let requiredMasternodePayment :=
    R.getMasternodePayment nBlockHeight nReward nMasternodeDriftCount
  let voted := vecPayments.filter fun payee =>
    decide (payee.nVotes ≥ MNPAYMENTS_SIGNATURES_REQUIRED)
  -- without enough votes on any payee, approve whichever is the longest chain
  voted.isEmpty || voted.any fun payee => txNew.vout.any fun out =>
    payee.scriptPubKey == out.scriptPubKey && decide (out.nValue ≥ requiredMasternodePayment)

/-- `CMasternodePayments::IsTransactionValid`. -/
def isPaymentTransactionValid (env : LocalState) (R : Rules) (P : CChainParams)
    (txNew : CTransaction) (nBlockHeight : Int) : Bool :=
  match env.mapMasternodeBlocks nBlockHeight with
  | none => true
  | some vecPayments => env.blockPayeesPaid R P vecPayments txNew nBlockHeight

/-- A node that holds nothing: no active sporks, votes, budgets or locks, only a clock. -/
def bare (nTime : Int) (fSynced fInitialBlockDownload : Bool) : LocalState where
  nTime := nTime
  nAdjustedTime := nTime
  mapSporksActive _ := none
  fSynced := fSynced
  fInitialBlockDownload := fInitialBlockDownload
  mapLockedInputs _ := none
  mapFinalizedBudgets := []
  nCountEnabled := 0
  nSize := 0
  nStableSize := 0
  mapMasternodeBlocks _ := none

end LocalState

end BitBlocks
