import BitBlocks.Chain.Maturity
import BitBlocks.Chain.NodeInv
import BitBlocks.Stake.Kernel

/-!
# `AcceptBlock` and `ConnectTip` on real blocks

`Node.acceptBlock` and the rounds of `ActivateBestChain` take the checks as
parameters. Here they get the checks of the source: `CheckWork`,
`ContextualCheckBlockHeader`, `CheckBlock`, `ContextualCheckBlock`, and
`ConnectTip` and `DisconnectTip` on the coins. A `BlockMap` says which block an index
entry is of.

What a check reads besides the block and its ancestors is given at every call anew:
the local state, and the node as the stake checks see it.
-/

namespace BitBlocks

open Checks

/-- The index entries of the blocks of a tree: each is known by its block's hash. -/
structure BlockMap (R : Rules) (P : CChainParams) (tree : BlockTree) (α : Type) extends
    IndexTree α where
  hash : α → Uint256
  hash_injective : ∀ {a b}, hash a = hash b → a = b
  hash_block : ∀ a, R.getHash (tree (hash a)).toCBlockHeader = hash a
  hash_root : hash root = P.hashGenesisBlock
  hashPrevBlock : ∀ {b a}, parent b = some a → (tree (hash b)).hashPrevBlock = hash a

namespace BlockMap

variable {R : Rules} {P : CChainParams} {tree : BlockTree} {α σ : Type}
  (B : BlockMap R P tree α)

def block (a : α) : CBlock := tree (B.hash a)

/-- An entry as `AddToBlockIndex` fills it in. -/
def entry (a : α) : CBlockIndex := indexOf (B.hash a) (B.depth a) (B.block a)

/-- `pindex->pprev`, as the branch it starts. -/
def pprev (b : α) : List CBlockIndex :=
  match B.parent b with
  | none => []
  | some a => (B.branch a).map B.entry

def indexHeight (n : Node α σ) (h : Uint256) : Option Int :=
  (n.mapBlockIndex.find? fun a => B.hash a == h).map fun a => (B.depth a : Int)

/-- What `CheckBlock` reads of the tree. -/
def tipView (n : Node α σ) : TipView where
  tip := n.tip.map fun t => (B.hash t, (B.depth t : Int))
  height := B.indexHeight n

end BlockMap

/-! ## `ContextualCheckBlockHeader` -/

/-- `Checkpoints::CheckBlock`. -/
def checkpointMatches (P : CChainParams) (nHeight : Int) (hash : Uint256) : Bool :=
  match P.mapCheckpoints.lookup nHeight with
  | none => true
  | some h => hash == h

/-- `Checkpoints::GetLastCheckpoint`: the height of the last one that is indexed. -/
def getLastCheckpoint (P : CChainParams) (indexHeight : Uint256 → Option Int) : Option Int :=
  P.mapCheckpoints.reverse.findSome? fun i => indexHeight i.2

/-- `pindexPrev == NULL ? 0 : pindexPrev->nHeight + 1`. -/
def nextHeight : List CBlockIndex → Int
  | [] => 0
  | pindexPrev :: _ => pindexPrev.nHeight + 1

/-- `ContextualCheckBlockHeader` after its check of the reorganisation depth. -/
def contextualCheckBlockHeader (R : Rules) (P : CChainParams) (indexHeight : Uint256 → Option Int)
    (pprev : List CBlockIndex) (block : CBlockHeader) : Except Fail Unit := do
  let nHeight := nextHeight pprev
  -- check timestamp against prev
  failIf (decide (block.getBlockTime ≤ getMedianTimePast pprev))
    (.invalid 0 REJECT_INVALID "time-too-old" false)
  failIf (!checkpointMatches P nHeight (R.getHash block))
    (.invalid 100 REJECT_CHECKPOINT "checkpoint mismatch" false)
  -- don't accept any forks from the main chain prior to last checkpoint
  failIf ((getLastCheckpoint P indexHeight).any fun h => decide (nHeight < h)) (.plain 0)
  failIf (decide (block.nVersion < 2) && isSuperMajority P 2 pprev P.nRejectBlockOutdatedMajority)
    (.invalid 0 REJECT_OBSOLETE "bad-version" false)
  failIf (decide (block.nVersion < 3) && isSuperMajority P 3 pprev P.nRejectBlockOutdatedMajority)
    (.invalid 0 REJECT_OBSOLETE "bad-version" false)

/-! ## `ContextualCheckBlock` -/

def LOCKTIME_THRESHOLD : Nat := 500000000

/-- `CTxIn::IsFinal`. -/
def CTxIn.isFinal (txin : CTxIn) : Bool := txin.nSequence == 2 ^ 32 - 1

/--
`IsFinalTx`, for a height and a time that are not zero: a block that gets here is not
genesis, and is later than its ancestors.
-/
def isFinalTx (tx : CTransaction) (nBlockHeight nBlockTime : Int) : Bool := tx.nLockTime == 0 ||
    decide ((tx.nLockTime : Int) <
      if tx.nLockTime < LOCKTIME_THRESHOLD then nBlockHeight else nBlockTime) ||
    tx.vin.all CTxIn.isFinal

/-- The bytes of a number, the lowest first; eight rounds are enough for 64 bits. -/
def bytesOf : Nat → Nat → List UInt8
  | 0, _ => []
  | fuel + 1, absvalue =>
    if absvalue = 0 then [] else UInt8.ofNat absvalue :: bytesOf fuel (absvalue / 256)

/-- `CScriptNum::serialize` of a positive number. -/
def scriptNum (value : Nat) : List UInt8 :=
  let result := bytesOf 8 value
  if result.getLastD 0 ≥ 0x80 then result ++ [0] else result

/-- `CScript() << nHeight`. -/
def pushHeight (n : Nat) : CScript :=
  if 1 ≤ n ∧ n ≤ 16 then [UInt8.ofNat (n + 0x50)]
  else if n = 0 then [0x00]
  else UInt8.ofNat (scriptNum n).length :: scriptNum n

/-- `ContextualCheckBlock`. -/
def contextualCheckBlock (P : CChainParams) (pprev : List CBlockIndex) (block : CBlock) :
    Except Fail Unit := do
  all block.vtx fun tx =>
    failIf (!isFinalTx tx (nextHeight pprev) block.getBlockTime) (.dos 10 "bad-txns-nonfinal")
  -- the coinbase starts with the serialized block height
  if decide (block.nVersion ≥ 2) && isSuperMajority P 2 pprev P.nEnforceBlockUpgradeMajority then do
    let tx0 ← at? .outOfRange block.vtx 0
    let txin ← at? .outOfRange tx0.vin 0
    failIf (!(pushHeight (nextHeight pprev).toNat).isPrefixOf txin.scriptSig)
      (.dos 100 "bad-cb-height")
  else .ok ()

/-! ## `CheckWork` -/

/-- `CheckWork`. Early proof-of-work blocks are compared with a tolerance, and not checked
further. -/
def checkWork {R : Rules} (S : StakeRules) (s : StakeView R) (pprev : List CBlockIndex)
    (block : CBlock) : Except Fail Unit :=
  match pprev with
  | [] => .error (.dos 0 "bad-prevblk")
  | pindexPrev :: _ =>
    let nBitsRequired := S.getNextWorkRequired pprev block.toCBlockHeader
    if block.isProofOfWork && decide (pindexPrev.nHeight + 1 ≤ 68589) then
      failIf (S.farFromRequired block.nBits nBitsRequired) (.dos 50 "bad-diffbits")
    else do
      failIf (block.nBits != nBitsRequired) (.dos 100 "bad-diffbits")
      if block.isProofOfStake then (checkProofOfStake S s pprev block).2 else .ok ()

/-! ## The rules and the operations -/

section Node

variable {R : Rules} {P : CChainParams} {tree : BlockTree} {α σ : Type}

/-- The checks of `AcceptBlock`, with what they read of the node besides the tree. -/
def acceptRules (S : StakeRules) (B : BlockMap R P tree α) (env : Node α σ → LocalState)
    (view : Node α σ → StakeView R) : AcceptRules α σ where
  checkWork n b := checkWork S (view n) (B.pprev b) (B.block b)
  checkBlockHeader b := checkBlockHeader R (B.block b).toCBlockHeader false
  contextualCheckBlockHeader n b :=
    contextualCheckBlockHeader R P (B.indexHeight n) (B.pprev b) (B.block b).toCBlockHeader
  checkBlock n b := do
    checkBlock R P (env n) (B.tipView n) (B.block b) true
    contextualCheckBlock P (B.pprev b) (B.block b)

/-- `ConnectBlock` as `ConnectTip` calls it: the parent is the tip. -/
def connectVerdict (R : Rules) (P : CChainParams) (env : LocalState) (s : ChainState)
    (block : CBlock) : Except Fail Connected :=
  match s.chain with
  | [] => .error .assertion
  | prev :: rest =>
    connectBlock R P env ⟨some (prev.phashBlock, prev.nHeight), fun _ => none⟩ (prev :: rest)
      block s.coins

/--
`ConnectTip` and `DisconnectTip`. The block read from disk is the entry's own, so
`ConnectTip` fails only where `ConnectBlock` does.
-/
def tipOps (B : BlockMap R P tree α) (env : ChainState → α → LocalState) : TipOps α ChainState where
  connect s b :=
    match connectTip R P (env s b) tree s (B.hash b) with
    | some s' => .connected s'
    | none =>
      match connectVerdict R P (env s b) s (B.block b) with
      | .error (.invalid _ _ _ corruptionPossible) => .invalid corruptionPossible
      | _ => .error
  disconnect s _ := disconnectTip tree s

end Node

/-! ### Blocks on a fork -/

/-- Genesis, three blocks in a row on it, and a block that is on one of them or beside them. -/
inductive Fork where
  | genesis
  | first
  | second
  | third
  | side
deriving DecidableEq, Repr

namespace Fork

instance : Fintype Fork where
  elems := {genesis, first, second, third, side}
  complete b := by cases b <;> decide

def number : Fork → Nat
  | genesis => 0
  | first => 1
  | second => 2
  | third => 3
  | side => 4

def hash : Fork → Uint256
  | genesis => mainParams.hashGenesisBlock
  | b => b.number

/-- The last block is on top of the row, or on genesis. -/
def parent (onTop : Bool) : Fork → Option Fork
  | genesis => none
  | first => some genesis
  | second => some first
  | third => some second
  | side => some (if onTop then third else genesis)

def height (onTop : Bool) : Fork → Nat
  | side => if onTop then 4 else 1
  | b => b.number

/-- The blocks of these entries, with the given transactions. -/
def blocks (onTop : Bool) (vtx : Fork → List CTransaction) : List CBlock :=
  [first, second, third, side].map fun b =>
    { minedBlock b.hash (((b.parent onTop).map hash).getD 0) (vtx b) with
      nTime := 1600000000 + 6000 * b.number }

def tree (onTop : Bool) (vtx : Fork → List CTransaction) : BlockTree :=
  storedBlocks (blocks onTop vtx)

variable {onTop : Bool} {b a : Fork}

theorem eq_genesis (h : b.parent onTop = none) : b = genesis := by
  cases b <;> simp [parent] at h ⊢

theorem height_parent (h : b.parent onTop = some a) : b.height onTop = a.height onTop + 1 := by
  revert h
  cases onTop <;> revert a b <;> decide

theorem number_injective : ∀ {a b : Fork}, a.number = b.number → a = b := by decide

theorem hash_injective : ∀ {a b : Fork}, a.hash = b.hash → a = b := by decide

theorem getHash_tree (onTop : Bool) (vtx : Fork → List CTransaction) (b : Fork) :
    Rules.transparent.getHash (tree onTop vtx b.hash).toCBlockHeader = b.hash := by
  cases b <;> rfl

theorem hashPrevBlock_tree {vtx : Fork → List CTransaction} (h : b.parent onTop = some a) :
    (tree onTop vtx b.hash).hashPrevBlock = a.hash := by
  cases b with
  | genesis => simp [parent] at h
  | first | second | third | side =>
    obtain rfl := Option.some.inj h
    rfl

theorem one_pos (_ : Fork) : 0 < 1 := Nat.one_pos

theorem parent_genesis (onTop : Bool) : parent onTop genesis = none := rfl

theorem height_genesis (onTop : Bool) : height onTop genesis = 0 := rfl

theorem hash_genesis : hash genesis = mainParams.hashGenesisBlock := rfl

def blockMap (onTop : Bool) (vtx : Fork → List CTransaction) :
    BlockMap Rules.transparent mainParams (tree onTop vtx) Fork where
  root := genesis
  parent := parent onTop
  depth := height onTop
  parent_root := parent_genesis onTop
  eq_root := eq_genesis
  depth_root := height_genesis onTop
  depth_parent := height_parent
  nChainWork := height onTop
  nTx _ := 1
  nTx_pos := one_pos
  address := number
  address_injective := number_injective
  hash := hash
  hash_injective := hash_injective
  hash_block := getHash_tree onTop vtx
  hash_root := hash_genesis
  hashPrevBlock := hashPrevBlock_tree

end Fork

end BitBlocks
