import BitBlocks.Chain.BlockIndex
import BitBlocks.Chain.Select

/-!
# `InvalidateBlock` and `ReconsiderBlock`

The operations that an operator has on the index, and the calls they come between. Both
look at the validity level of the entries, so the levels are part of the state here: beside
the validation state, which `ConnectTip` changes together with them.
-/

namespace BitBlocks

/-- `nStatus &= ~BLOCK_FAILED_MASK`. -/
def BlockStatus.clearFailed (s : BlockStatus) : BlockStatus :=
  { s with fFailedValid := false, fFailedChild := false }

/-- `nStatus & BLOCK_VALID_MASK` of each entry. -/
abbrev Levels (α : Type) := α → Nat

variable {α σ : Type} [DecidableEq α]

/-- Raise the level of an entry that is not failed. -/
def Levels.raise (levels : Levels α) (b : α) (nUpTo : Nat) : Levels α :=
  Function.update levels b (max (levels b) nUpTo)

/-- `ConnectTip` raises the level of the block it connects. -/
def TipOps.raising (ops : TipOps α σ) : TipOps α (σ × Levels α) where
  connect s b :=
    match ops.connect s.1 b with
    | .connected state => .connected (state, s.2.raise b BLOCK_VALID_SCRIPTS)
    | .invalid corruptionPossible => .invalid corruptionPossible
    | .error => .error
  disconnect s b := (ops.disconnect s.1 b).map fun state => (state, s.2)

/-- A node with the validity levels of its entries. -/
abbrev LevelNode (α σ : Type) := Node α (σ × Levels α)

namespace LevelNode

variable (T : IndexTree α)

def nValid (n : LevelNode α σ) (b : α) : Nat := n.state.2 b

/-- `IsValid`. -/
def isValid (n : LevelNode α σ) (nUpTo : Nat) (b : α) : Bool :=
  !(n.status b).failed && decide (nValid n b ≥ nUpTo)

/-- `RaiseValidity`. -/
def raiseValidity (n : LevelNode α σ) (nUpTo : Nat) (b : α) : LevelNode α σ :=
  if (n.status b).failed then n else { n with state := (n.state.1, n.state.2.raise b nUpTo) }

/-- `IsValid(BLOCK_VALID_TRANSACTIONS) && nChainTx`. -/
def eligible (n : LevelNode α σ) (b : α) : Bool :=
  isValid n BLOCK_VALID_TRANSACTIONS b && decide ((n.status b).nChainTx ≠ 0)

/-- `setBlockIndexCandidates.insert` of some entries. -/
def insertCandidates (n : LevelNode α σ) (bs : List α) : LevelNode α σ :=
  { n with setBlockIndexCandidates :=
      n.setBlockIndexCandidates ++ bs.filter fun b => decide (b ∉ n.setBlockIndexCandidates) }

/-! ## `InvalidateBlock` -/

/--
Disconnect the tips until the block is not active. Genesis has no undo data, so it cannot
be disconnected.
-/
def disconnectFrom (ops : TipOps α σ) (pindex : α) : List α → LevelNode α σ → LevelNode α σ × Bool
  | [], n => (n, true)
  | pindexWalk :: rest, n =>
    if pindex ∈ pindexWalk :: rest then
      let n1 := { n.setStatus pindexWalk fun s => { s with fFailedChild := true } with
        setBlockIndexCandidates :=
          n.setBlockIndexCandidates.filter fun b => decide (b ≠ pindexWalk) }
      if (T.parent pindexWalk).isNone then (n1, false)
      else match ops.raising.disconnect n1.state pindexWalk with
        | none => (n1, false)
        | some state => disconnectFrom ops pindex rest
          { n1 with chainActive := rest, state := state }
    else (n, true)

/-- `InvalidateBlock`; the flag is what it returns. -/
def invalidateBlock (ops : TipOps α σ) (n : LevelNode α σ) (pindex : α) : LevelNode α σ × Bool :=
  let n1 := { n.setStatus pindex fun s => { s with fFailedValid := true } with
    setBlockIndexCandidates := n.setBlockIndexCandidates.filter fun b => decide (b ≠ pindex) }
  match disconnectFrom T ops pindex n.chainActive n1 with
  | (n2, false) => (n2, false)
  | (n2, true) =>
    -- the resulting new best tip may not be in setBlockIndexCandidates anymore, so add
    -- them again
    (insertCandidates n2 (n2.mapBlockIndex.filter fun b =>
      eligible n2 b && n2.tip.all fun tip => !n2.workLess T b tip), true)

/-! ## `ReconsiderBlock` -/

/-- Remove the invalidity flag from this block and all its descendants. -/
def reconsiderDescendants (n : LevelNode α σ) (pindex : α) : LevelNode α σ :=
  let cleared := n.mapBlockIndex.filter fun b =>
    !isValid n BLOCK_VALID_TRANSACTIONS b && decide (pindex ∈ T.branch b)
  let n1 : LevelNode α σ := { n with status := fun b =>
    if b ∈ cleared then (n.status b).clearFailed else n.status b }
  insertCandidates n1 (cleared.filter fun b =>
    eligible n1 b && n1.tip.all fun tip => n1.workLess T tip b)

/-- Remove the invalidity flag from all ancestors too. -/
def reconsiderAncestors (n : LevelNode α σ) (pindex : α) : LevelNode α σ :=
  { n with status := fun b =>
      if b ∈ T.branch pindex then (n.status b).clearFailed else n.status b }

def reconsiderBlock (n : LevelNode α σ) (pindex : α) : LevelNode α σ :=
  reconsiderAncestors T (reconsiderDescendants T n pindex) pindex

/-! ## Runs -/

/-- The calls that change the index, its flags or the active chain. -/
inductive Call (α σ : Type) where
  | addToBlockIndex (b : α)
  | receivedBlockTransactions (b : α)
  /-- `AcceptBlock` marks a block that failed `CheckBlock` or `ContextualCheckBlock`. -/
  | checkFailed (b : α)
  | invalidateBlock (ops : TipOps α σ) (b : α)
  | reconsiderBlock (b : α)
  | activateBestChain (ops : TipOps α σ) (fuel : Nat)

/-- `AcceptBlock` takes a block only if the previous one is known and not marked. -/
def prevUsable (n : LevelNode α σ) (b : α) : Bool :=
  (T.parent b).all fun a => decide (a ∈ n.mapBlockIndex) && !(n.status a).failed

/-- The node after a call; a call that its callers do not make changes nothing. -/
def next (n : LevelNode α σ) : Call α σ → LevelNode α σ
  | .addToBlockIndex b =>
    if b ∉ n.mapBlockIndex ∧ prevUsable T n b = true then
      let n1 := n.addToBlockIndex b
      { n1 with state := (n1.state.1, Function.update n1.state.2 b BLOCK_VALID_TREE) }
    else n
  | .receivedBlockTransactions b =>
    if b ∈ n.mapBlockIndex ∧ (n.status b).fHaveData = false ∧ (n.status b).failed = false ∧
        prevUsable T n b = true then
      (raiseValidity n BLOCK_VALID_TRANSACTIONS b).receivedBlockTransactions T b
    else n
  | .checkFailed b =>
    if b ∈ n.mapBlockIndex ∧ (n.status b).fHaveData = false then
      n.setStatus b fun s => { s with fFailedValid := true }
    else n
  | .invalidateBlock ops b => if b ∈ n.mapBlockIndex then (invalidateBlock T ops n b).1 else n
  | .reconsiderBlock b => if b ∈ n.mapBlockIndex then reconsiderBlock T n b else n
  | .activateBestChain ops fuel =>
    match n.activateBestChain T ops.raising fuel with
    | some (n1, _) => n1
    | none => n

/-- After the genesis block was accepted and connected. -/
def genesis (state : σ) : LevelNode α σ :=
  Node.genesis T (state, Function.update (fun _ => 0) T.root BLOCK_VALID_TRANSACTIONS)

def afterCalls (state : σ) (calls : List (Call α σ)) : LevelNode α σ :=
  calls.foldl (next T) (genesis T state)

/-! ## What `CheckBlockIndex` asserts -/

def NotWorse (n : LevelNode α σ) (b : α) : Prop :=
  ∀ tip, n.tip = some tip → n.workLess T b tip = false

/-- Every entry that could be a better tip is a candidate. -/
def Complete (n : LevelNode α σ) : Prop :=
  ∀ b ∈ n.mapBlockIndex, eligible n b = true → NotWorse T n b → b ∈ n.setBlockIndexCandidates

end LevelNode

end BitBlocks
