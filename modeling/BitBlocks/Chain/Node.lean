import BitBlocks.Lib.Branch
import BitBlocks.Validation.CheckBlock

/-!
# The block index and chain selection

The part of `main.cpp` that decides which branch is active: `AcceptBlock` with what
it calls, `ReceivedBlockTransactions`, `FindMostWorkChain`,
`PruneBlockIndexCandidates`, `ActivateBestChainStep` and `ActivateBestChain`.

What never changes about an index entry once it exists (its parent, height and
work, the number of its transactions) is in `IndexTree`; what does change is the
`BlockStatus`. Whether a block connects is not decided here: `TipOps` stands for
`ConnectTip` and `DisconnectTip` on some validation state `σ`, and `AcceptRules` for
the checks `AcceptBlock` makes on the way. Disk writes succeed, and the counters
`nChainTx` and `nSequenceId` do not reach the end of their 32 bits.
-/

namespace BitBlocks

/-- The fixed part of the block index: `pprev` is `parent` and `nHeight` is `depth`. -/
structure IndexTree (α : Type) extends ParentTree α where
  nChainWork : α → Nat
  /-- `block.vtx.size()`; a block without transactions does not pass `CheckBlock`. -/
  nTx : α → Nat
  nTx_pos : ∀ b, 0 < nTx b
  /-- Where the entry lives, the last resort of the comparator. -/
  address : α → Nat
  address_injective : ∀ {a b}, address a = address b → a = b

/-- The changing part of an index entry. -/
structure BlockStatus where
  /-- The branch has all its transactions iff this is not zero. -/
  nChainTx : Nat := 0
  nSequenceId : Nat := 0
  /-- `BLOCK_HAVE_DATA`, `BLOCK_FAILED_VALID` and `BLOCK_FAILED_CHILD` of `nStatus`. -/
  fHaveData : Bool := false
  fFailedValid : Bool := false
  fFailedChild : Bool := false
deriving DecidableEq, Repr

/-- `nStatus & BLOCK_FAILED_MASK`. -/
def BlockStatus.failed (s : BlockStatus) : Bool := s.fFailedValid || s.fFailedChild

/-- What chain selection works on, with the state that connecting blocks changes. -/
structure Node (α σ : Type) where
  mapBlockIndex : List α
  status : α → BlockStatus
  /-- The tip first. -/
  chainActive : List α
  setBlockIndexCandidates : List α
  mapBlocksUnlinked : List (α × α)
  nBlockSequenceId : Nat
  state : σ

/-- The outcome of `ConnectTip`. -/
inductive TipResult (σ : Type) where
  | connected (state : σ)
  | invalid (corruptionPossible : Bool)
  | error

/-- `ConnectTip` and `DisconnectTip`, as far as the validation state is concerned. -/
structure TipOps (α σ : Type) where
  connect : σ → α → TipResult σ
  disconnect : σ → α → Option σ

variable {α σ : Type} [DecidableEq α]

namespace Node

def tip (n : Node α σ) : Option α := n.chainActive.head?

/-- `chainActive.Height()`. -/
def height (n : Node α σ) : Int := n.chainActive.length - 1

def setStatus (n : Node α σ) (b : α) (f : BlockStatus → BlockStatus) : Node α σ :=
  { n with status := Function.update n.status b (f (n.status b)) }

/-! ## The comparator -/

/-- `CBlockIndexWorkComparator`: is the first entry the worse one? -/
def workLess (T : IndexTree α) (n : Node α σ) (pa pb : α) : Bool :=
  -- first sort by most total work, ...
  if T.nChainWork pa > T.nChainWork pb then false
  else if T.nChainWork pa < T.nChainWork pb then true
  -- ... then by earliest time received, ...
  else if (n.status pa).nSequenceId < (n.status pb).nSequenceId then false
  else if (n.status pa).nSequenceId > (n.status pb).nSequenceId then true
  -- use pointer address as tie breaker
  else if T.address pa < T.address pb then false
  else decide (T.address pa > T.address pb)

/-- The last element of a set sorted by the comparator. -/
def greatest (less : α → α → Bool) : List α → Option α
  | [] => none
  | a :: l =>
    match greatest less l with
    | none => some a
    | some b => if less b a then some a else some b

/-! ## `FindMostWorkChain` -/

/-- The path from a candidate down to the active chain. -/
def offChain (T : IndexTree α) (n : Node α σ) (pindexNew : α) : List α :=
  (T.branch pindexNew).takeWhile fun a => decide (a ∉ n.chainActive)

/-- `fFailedChain || fMissingData`. -/
def unusable (n : Node α σ) (pindexTest : α) : Bool :=
  (n.status pindexTest).failed || !(n.status pindexTest).fHaveData

/--
The candidate chain is not usable: remove the entire chain from the set. Entries
above a failed one are marked; if data is missing, they are remembered as unlinked.
-/
def discard (T : IndexTree α) (n : Node α σ) (pindexNew pindexTest : α) : Node α σ :=
  let above := (T.branch pindexNew).takeWhile fun a => decide (a ≠ pindexTest)
  let rest := n.setBlockIndexCandidates.filter fun a => decide (a ∉ pindexTest :: above)
  if (n.status pindexTest).failed then
    { n with
      status := fun a => if a ∈ above then { n.status a with fFailedChild := true } else n.status a
      setBlockIndexCandidates := rest }
  else
    { n with
      setBlockIndexCandidates := rest
      mapBlocksUnlinked := n.mapBlocksUnlinked ++
        above.filterMap fun a => (T.parent a).map fun p => (p, a) }

/-- `FindMostWorkChain`. Every round removes a candidate, so their number is enough fuel. -/
def findMostWorkChain (T : IndexTree α) : Nat → Node α σ → Node α σ × Option α
  | 0, n => (n, none)
  | fuel + 1, n =>
    match greatest (n.workLess T) n.setBlockIndexCandidates with
    | none => (n, none)
    | some pindexNew =>
      match (n.offChain T pindexNew).find? n.unusable with
      | none => (n, some pindexNew)
      | some pindexTest => findMostWorkChain T fuel (n.discard T pindexNew pindexTest)

/-! ## `ActivateBestChainStep` -/

/-- `PruneBlockIndexCandidates`: delete the entries that are worse than the tip. -/
def pruneBlockIndexCandidates (T : IndexTree α) (n : Node α σ) : Node α σ :=
  match n.tip with
  | none => n
  | some tip =>
    { n with setBlockIndexCandidates :=
        n.setBlockIndexCandidates.filter fun b => !n.workLess T b tip }

/-- `InvalidBlockFound`, for a verdict that does not blame corruption. -/
def invalidBlockFound (n : Node α σ) (pindex : α) : Node α σ :=
  { n.setStatus pindex fun s => { s with fFailedValid := true } with
    setBlockIndexCandidates := n.setBlockIndexCandidates.filter fun b => decide (b ≠ pindex) }

/-- `chainActive.FindFork`. -/
def findFork (T : IndexTree α) (n : Node α σ) (pindex : α) : Option α :=
  (T.branch pindex).find? fun a => decide (a ∈ n.chainActive)

/-- Disconnect active blocks which are no longer in the best chain. -/
def disconnectTo (ops : TipOps α σ) (pindexFork : Option α) : List α → σ → List α × σ × Bool
  | [], s => ([], s, true)
  | tip :: rest, s =>
    if some tip = pindexFork then (tip :: rest, s, true)
    else match ops.disconnect s tip with
      | none => (tip :: rest, s, false)
      | some s' => disconnectTo ops pindexFork rest s'

/-- The new tip, and the candidates pruned against it. -/
def connectTip (T : IndexTree α) (n : Node α σ) (pindexConnect : α) (state : σ) : Node α σ :=
  pruneBlockIndexCandidates T
    { n with chainActive := pindexConnect :: n.chainActive, state := state }

/-- How the loop over `vpindexToConnect` ended. -/
inductive LoopEnd where
  | more
  | done
  | error
deriving DecidableEq

/-- Connect new blocks, until one fails or the position is better than it was. -/
def connectBlocks (T : IndexTree α) (ops : TipOps α σ) (pindexOldTip : Option α) :
    List α → Node α σ → Node α σ × LoopEnd
  | [], n => (n, .more)
  | pindexConnect :: rest, n =>
    match ops.connect n.state pindexConnect with
    | .connected state =>
      if pindexOldTip.all fun old => decide (T.nChainWork pindexConnect > T.nChainWork old) then
        (n.connectTip T pindexConnect state, .done)
      else connectBlocks T ops pindexOldTip rest (n.connectTip T pindexConnect state)
    | .invalid corruptionPossible =>
      (if corruptionPossible then n else n.invalidBlockFound pindexConnect, .done)
    | .error => (n, .error)

/-- `GetAncestor`. -/
def getAncestor (T : IndexTree α) (pindex : α) (height : Int) : Option α :=
  (T.branch pindex).find? fun a => decide ((T.depth a : Int) = height)

/-- The next 32 blocks on the way to `pindexMostWork`, the lowest first. -/
def vpindexToConnect (T : IndexTree α) (pindexMostWork : α) (nHeight nTargetHeight : Int) :
    List α :=
  match getAncestor T pindexMostWork nTargetHeight with
  | none => []
  | some pindexIter =>
    ((T.branch pindexIter).takeWhile fun a => decide ((T.depth a : Int) ≠ nHeight)).reverse

/-- The loop over batches; `nHeight` grows towards the target, which bounds the rounds. -/
def connectBatches (T : IndexTree α) (ops : TipOps α σ) (pindexOldTip : Option α)
    (pindexMostWork : α) : Nat → Int → Node α σ → Node α σ × LoopEnd
  | 0, _, n => (n, .error)
  | fuel + 1, nHeight, n =>
    if nHeight = T.depth pindexMostWork then (n, .more)
    else
      -- don't iterate the entire list of potential improvements toward the best tip
      let nTargetHeight := min (nHeight + 32) (T.depth pindexMostWork)
      match connectBlocks T ops pindexOldTip
          (vpindexToConnect T pindexMostWork nHeight nTargetHeight) n with
      | (n', .more) => connectBatches T ops pindexOldTip pindexMostWork fuel nTargetHeight n'
      | r => r

/-- `ActivateBestChainStep`; the flag is what it returns. -/
def activateBestChainStep (T : IndexTree α) (ops : TipOps α σ) (n : Node α σ)
    (pindexMostWork : α) : Node α σ × Bool :=
  let pindexFork := n.findFork T pindexMostWork
  match disconnectTo ops pindexFork n.chainActive n.state with
  | (chain, state, false) => ({ n with chainActive := chain, state := state }, false)
  | (chain, state, true) =>
    let nHeight : Int := match pindexFork with
      | some f => T.depth f
      | none => -1
    let r := connectBatches T ops n.tip pindexMostWork (T.depth pindexMostWork + 2) nHeight
      { n with chainActive := chain, state := state }
    (r.1, decide (r.2 ≠ .error))

/-! ## `ActivateBestChain` -/

/-- Where one round of the loop of `ActivateBestChain` leaves it. -/
inductive Progress where
  | returned (success : Bool)
  | again
deriving DecidableEq

/-- One round: the lock on `cs_main` is held throughout, and released after it. -/
def activateRound (T : IndexTree α) (ops : TipOps α σ) (n : Node α σ) : Node α σ × Progress :=
  match findMostWorkChain T n.setBlockIndexCandidates.length n with
  | (n1, none) => (n1, .returned true)
  | (n1, some pindexMostWork) =>
    -- whether we have anything to do at all
    if n1.tip = some pindexMostWork then (n1, .returned true)
    else match activateBestChainStep T ops n1 pindexMostWork with
      | (n2, false) => (n2, .returned false)
      | (n2, true) => (n2, if n2.tip = some pindexMostWork then .returned true else .again)

/-- `ActivateBestChain`; `none` is a loop that did not end within the fuel. -/
def activateBestChain (T : IndexTree α) (ops : TipOps α σ) : Nat → Node α σ →
    Option (Node α σ × Bool)
  | 0, _ => none
  | fuel + 1, n =>
    match activateRound T ops n with
    | (n', .returned success) => some (n', success)
    | (n', .again) => activateBestChain T ops fuel n'

/-! ## `ReceivedBlockTransactions` -/

/-- `pindex->pprev ? pindex->pprev->nChainTx : 0`. -/
def prevChainTx (T : IndexTree α) (n : Node α σ) (pindex : α) : Nat :=
  match T.parent pindex with
  | none => 0
  | some p => (n.status p).nChainTx

/-- One entry that is now linked to genesis: count, number, and consider it. -/
def link (T : IndexTree α) (n : Node α σ) (pindex : α) : Node α σ :=
  let n' := { n.setStatus pindex fun s =>
      { s with nChainTx := n.prevChainTx T pindex + T.nTx pindex
               nSequenceId := n.nBlockSequenceId } with
    nBlockSequenceId := n.nBlockSequenceId + 1 }
  if n'.tip.all fun tip => !n'.workLess T pindex tip then
    { n' with setBlockIndexCandidates :=
        pindex :: n'.setBlockIndexCandidates.filter fun b => decide (b ≠ pindex) }
  else n'

/-- Recursively process any descendant blocks that now may be eligible to be connected. -/
def linkQueue (T : IndexTree α) : Nat → List α → Node α σ → Node α σ
  | 0, _, n => n
  | _ + 1, [], n => n
  | fuel + 1, pindex :: queue, n =>
    let n1 := n.link T pindex
    let range := (n1.mapBlocksUnlinked.filter fun e => decide (e.1 = pindex)).map Prod.snd
    linkQueue T fuel (queue ++ range)
      { n1 with mapBlocksUnlinked := n1.mapBlocksUnlinked.filter fun e => decide (e.1 ≠ pindex) }

/--
`ReceivedBlockTransactions`. Each round after the first takes an entry out of
`mapBlocksUnlinked`, so its size bounds the rounds.
-/
def receivedBlockTransactions (T : IndexTree α) (n : Node α σ) (pindexNew : α) : Node α σ :=
  let n1 := n.setStatus pindexNew fun s => { s with nChainTx := 0, fHaveData := true }
  match T.parent pindexNew with
  | none => linkQueue T (n1.mapBlocksUnlinked.length + 1) [pindexNew] n1
  | some pprev =>
    if (n1.status pprev).nChainTx ≠ 0 then
      linkQueue T (n1.mapBlocksUnlinked.length + 1) [pindexNew] n1
    else if (n1.status pprev).failed then n1
    else { n1 with mapBlocksUnlinked := n1.mapBlocksUnlinked ++ [(pprev, pindexNew)] }

end Node

/-! ## `AcceptBlock` -/

/-- The checks of `AcceptBlock`, each given the node as it stands when it is made. -/
structure AcceptRules (α σ : Type) where
  /-- `CheckWork`. -/
  checkWork : Node α σ → α → Except Fail Unit
  /-- `CheckBlockHeader(block, state, false)`. -/
  checkBlockHeader : α → Except Fail Unit
  /-- `ContextualCheckBlockHeader` after its check of the reorganisation depth. -/
  contextualCheckBlockHeader : Node α σ → α → Except Fail Unit
  /-- `CheckBlock`, then `ContextualCheckBlock`. -/
  checkBlock : Node α σ → α → Except Fail Unit

/-- `state.IsInvalid() && !state.CorruptionPossible()`. -/
def Fail.isPermanent : Fail → Bool
  | .invalid _ _ _ corruptionPossible => !corruptionPossible
  | _ => false

namespace Node

/-- Get the previous block's index, which must be known and not failed. -/
def checkPrev (T : IndexTree α) (n : Node α σ) (b : α) : Except Fail Unit :=
  match T.parent b with
  | none => .ok ()
  | some pindexPrev =>
    if pindexPrev ∉ n.mapBlockIndex then .error (.invalid 0 0 "bad-prevblk" false)
    else if (n.status pindexPrev).failed then .error (.dos 100 "bad-prevblk")
    else .ok ()

/-- If this is a reorg, check that it is not too deep. -/
def checkReorgDepth (T : IndexTree α) (nMaxReorganizationDepth : Int) (n : Node α σ) (b : α) :
    Except Fail Unit :=
  Checks.failIf (decide (n.height - T.depth b ≥ nMaxReorganizationDepth)) (.plain 1)

/-- `AddToBlockIndex`: a new entry, without data. -/
def addToBlockIndex (n : Node α σ) (b : α) : Node α σ :=
  { n with mapBlockIndex := b :: n.mapBlockIndex
           status := Function.update n.status b {} }

/-- `AcceptBlockHeader`. -/
def acceptBlockHeader (T : IndexTree α) (nMaxReorganizationDepth : Int) (E : AcceptRules α σ)
    (n : Node α σ) (b : α) : Except Fail (Node α σ) :=
  if b ∈ n.mapBlockIndex then
    -- block header is already known
    if (n.status b).failed then .error (.invalid 0 0 "duplicate" false) else .ok n
  else do
    E.checkBlockHeader b
    n.checkPrev T b
    n.checkReorgDepth T nMaxReorganizationDepth b
    E.contextualCheckBlockHeader n b
    .ok (n.addToBlockIndex b)

/-- `CheckWork`, which the genesis block is spared. -/
def checkWorkUnlessGenesis (T : IndexTree α) (E : AcceptRules α σ) (n : Node α σ) (b : α) :
    Except Fail Unit :=
  if b = T.root then .ok () else E.checkWork n b

/-- `AcceptBlock` up to the point where the block has an index entry. -/
def acceptEntry (T : IndexTree α) (nMaxReorganizationDepth : Int) (E : AcceptRules α σ)
    (n : Node α σ) (b : α) : Except Fail (Node α σ) := do
  n.checkPrev T b
  n.checkWorkUnlessGenesis T E b
  n.acceptBlockHeader T nMaxReorganizationDepth E b

/-- `AcceptBlock`. A failed check of the block itself marks its entry. -/
def acceptBlock (T : IndexTree α) (nMaxReorganizationDepth : Int) (E : AcceptRules α σ)
    (n : Node α σ) (b : α) : Node α σ × Except Fail Unit :=
  match n.acceptEntry T nMaxReorganizationDepth E b with
  | .error e => (n, .error e)
  | .ok n1 =>
    if (n1.status b).fHaveData then (n1, .ok ())
    else match E.checkBlock n1 b with
      | .error e =>
        (if e.isPermanent then n1.setStatus b fun s => { s with fFailedValid := true } else n1,
          .error e)
      | .ok _ => (n1.receivedBlockTransactions T b, .ok ())

/-- The node after the genesis block is connected. -/
def genesis (T : IndexTree α) (state : σ) : Node α σ where
  mapBlockIndex := [T.root]
  status := Function.update (fun _ => {}) T.root
    { nChainTx := T.nTx T.root, nSequenceId := 1, fHaveData := true }
  chainActive := [T.root]
  setBlockIndexCandidates := [T.root]
  mapBlocksUnlinked := []
  nBlockSequenceId := 2
  state := state

end Node

end BitBlocks
