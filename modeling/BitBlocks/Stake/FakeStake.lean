import BitBlocks.Chain.Verdict

/-!
# The staked output of a stored block

`AcceptBlock` checks the stake of a block before it stores it, "so that a block with a
forged stake" never reaches the disk. The check is made against the transaction index,
which knows every transaction of every stored block. It does not ask on which branch a
transaction is, nor whether its output is spent there.

So what a stored block is known to stake is an output of *some* stored transaction. The
node has the coins of one branch only, that of its tip: for a child of the tip, the output
is unspent on the block's own branch exactly if it is among the node's coins
(`kernelUnspent_iff_haveInput`), and a run that stores no other stake has no fake one.
-/

namespace BitBlocks

open Checks CCoinsView Ledger

variable {R : Rules} {P : CChainParams} {tree : BlockTree} {α σ : Type}

/-! ## The unspent outputs below a block -/

namespace BlockMap

variable (B : BlockMap R P tree α)

/-- The transactions of a block's ancestors in their order. Genesis has no effect on the coins. -/
def history (b : α) : List CTransaction :=
  match B.parent b with
  | none => []
  | some p => (B.branch p).dropLast.reverse.flatMap fun a => (B.block a).vtx

/-- The outputs that are unspent after a block's ancestors. -/
def unspentBelow (b : α) : Set COutPoint := unspentAfter (B.history b)

end BlockMap

variable {B : BlockMap R P tree α}

/-- **A chain's coins are its unspent outputs**, and it spends what is unspent. -/
theorem Canon.unspent (hf : tree.Faithful) : ∀ {c : List CBlockIndex} {v : CCoinsView},
    Canon P tree c v →
    v.unspent = unspentAfter (c.dropLast.reverse.flatMap fun l => (tree l.phashBlock).vtx) ∧
      Backed CTransaction.spent CTransaction.created ∅
        (c.dropLast.reverse.flatMap fun l => (tree l.phashBlock).vtx)
  | _, _, .genesis => ⟨unspent_empty, trivial⟩
  | _, _, .extend hc hx => by
    obtain ⟨undos, hu, hr, _⟩ := hx.ready hf
    obtain ⟨hcoins, hbacked⟩ := hc.unspent hf
    obtain ⟨hblock, hspends⟩ := connectTxs_unspent hr hu
    rw [hcoins] at hblock hspends
    rw [List.dropLast_cons_cons, List.reverse_cons, List.flatMap_append, List.flatMap_singleton]
    exact ⟨hblock.trans applyAll_append.symm, backed_append.mpr ⟨hbacked, hspends⟩⟩

/-- The transactions of the active chain in their order. -/
def ChainState.history (tree : BlockTree) (s : ChainState) : List CTransaction :=
  s.chain.dropLast.reverse.flatMap fun l => (tree l.phashBlock).vtx

/-- The coins are what the active chain creates and does not spend, and it spends nothing else. -/
structure ChainState.IsLedger (tree : BlockTree) (s : ChainState) : Prop where
  unspent : ∀ o, s.coins.haveInput o = true ↔
    LastCreated CTransaction.spent CTransaction.created o (s.history tree)
  backed : ∀ pre tx post, s.history tree = pre ++ tx :: post → ∀ o ∈ tx.spends,
    LastCreated CTransaction.spent CTransaction.created o pre

/-- **Blocks are connected and disconnected in any order**, and the coins stay a ledger. -/
theorem isLedger_reachable (hf : tree.Faithful) {s : ChainState}
    (hr : Reachable R P tree (Allowed false) s) : s.IsLedger tree := by
  obtain ⟨v, lost, hi⟩ := chainInv_reachable hf hr
  obtain ⟨hcoins, hbacked⟩ := hi.canon.unspent hf
  refine ⟨fun o => ?_, fun pre tx post hsplit o ho => ?_⟩
  · have hsame : s.coins.haveInput o = v.haveInput o := hi.sim.isAvailable o.hash o.n
    rw [← mem_applyAll_empty, hsame]
    exact Set.ext_iff.mp hcoins o
  · rw [ChainState.history] at hsplit
    rw [hsplit] at hbacked
    exact hbacked.lastCreated ho

theorem isLedger_after_disconnect : ∃ s : ChainState, s.chain.length = 15 ∧
    s.IsLedger sweptTree := by
  have hrun : (moveTips Rules.transparent mainParams sweptTree
      (ChainState.genesis mainParams sweptTree) (connectUpTo unsynced 15 ++ [.disconnect])).map
        (fun s => s.chain.length) = some 15 := by decide +kernel
  obtain ⟨s, hs, hlen⟩ := Option.map_eq_some_iff.mp hrun
  have hr : Reachable Rules.transparent mainParams sweptTree (Allowed false) s := by
    refine .run .genesis (fun m hm s => ?_) hs
    rcases List.mem_append.mp hm with hm | hm
    · exact connectUpTo_allowed (by decide) hm s
    · rw [List.mem_singleton.mp hm]
      exact ⟨trivial, nofun⟩
  exact ⟨s, hlen, isLedger_reachable sweptTree_faithful hr⟩

variable {b : α} {modifier : α → Nat × Bool} {n : Node α σ} {s : StakeView R}

/-- **The coins `ConnectBlock` would find** for a block are the unspent outputs below it. -/
theorem CoinsBelow.unspent (hf : tree.Faithful) {v : CCoinsView} (h : CoinsBelow B b v) :
    v.unspent = B.unspentBelow b := by
  obtain ⟨c, hc, hmap⟩ := h
  have hhash : ∀ l : List CBlockIndex, l.flatMap (fun l => (tree l.phashBlock).vtx)
      = (l.map CBlockIndex.bare).flatMap fun l => (tree l.phashBlock).vtx :=
    fun l => by rw [List.flatMap_map]; rfl
  rw [(hc.unspent hf).1, BlockMap.unspentBelow, BlockMap.history, hhash, List.map_reverse,
    List.map_dropLast, hmap, BlockMap.pprev]
  cases B.parent b with
  | none => rfl
  | some p =>
    dsimp only
    rw [← List.map_dropLast, ← List.map_reverse, List.flatMap_map]
    rfl

/-! ## What the stake checks see of a node -/

/-- An entry with the stake modifier `AddToBlockIndex` computed for it. -/
def BlockMap.stakeEntry (B : BlockMap R P tree α) (modifier : α → Nat × Bool) (a : α) :
    CBlockIndex :=
  { B.entry a with nStakeModifier := (modifier a).1, fGeneratedStakeModifier := (modifier a).2 }

/--
The stake checks see the node. `GetTransaction` finds the transactions of every stored
block; it may find one in the memory pool instead, whose block is not in the index.
-/
structure StakeView.Of [DecidableEq α] (B : BlockMap R P tree α) (modifier : α → Nat × Bool)
    (n : Node α σ) (s : StakeView R) : Prop where
  index : ∀ h, s.mapBlockIndex h
    = (n.mapBlockIndex.find? fun a => B.hash a == h).map (B.stakeEntry modifier)
  chain : s.vChain = n.chainActive.reverse.map (B.stakeEntry modifier)
  found : ∀ a ∈ n.mapBlockIndex, (n.status a).fHaveData = true → ∀ tx ∈ (B.block a).vtx,
    ∃ r, s.getTransaction tx.hash = some r
  stored : ∀ {h tx hash}, s.getTransaction h = some (tx, hash) → s.mapBlockIndex hash ≠ none →
    ∃ a ∈ n.mapBlockIndex, (n.status a).fHaveData = true ∧ B.hash a = hash ∧
      tx ∈ (B.block a).vtx ∧ tx.hash = h
  disk : ∀ a ∈ n.mapBlockIndex, (n.status a).fHaveData = true →
    s.readBlock (B.hash a) = some (B.block a)

/-- A node as the stake checks see it, with an empty memory pool. -/
def BlockMap.stakeView [DecidableEq α] (B : BlockMap R P tree α) (modifier : α → Nat × Bool)
    (n : Node α σ) (fInitialBlockDownload : Bool) (hchain : ∃ t, n.chainActive = B.branch t) :
    StakeView R where
  mapBlockIndex h := (n.mapBlockIndex.find? fun a => B.hash a == h).map (B.stakeEntry modifier)
  index_hash := by
    intro h e he
    obtain ⟨a, ha, rfl⟩ := Option.map_eq_some_iff.mp he
    have hh : B.hash a = h := by simpa using List.find?_some ha
    exact hh
  vChain := n.chainActive.reverse.map (B.stakeEntry modifier)
  chain_height := by
    intro i e he
    obtain ⟨t, ht⟩ := hchain
    rw [ht, List.getElem?_map] at he
    obtain ⟨a, ha, rfl⟩ := Option.map_eq_some_iff.mp he
    exact congrArg Nat.cast (ParentTree.depth_of_getElem?_reverse ha)
  getTransaction h := (n.mapBlockIndex.filter fun a => (n.status a).fHaveData).findSome? fun a =>
    ((B.block a).vtx.find? fun tx => tx.hash == h).map fun tx => (tx, B.hash a)
  readBlock h :=
    (n.mapBlockIndex.find? fun a => B.hash a == h && (n.status a).fHaveData).map B.block
  disk_hash := by
    intro h block hb
    obtain ⟨a, ha, rfl⟩ := Option.map_eq_some_iff.mp hb
    have hh := List.find?_some ha
    simp only [Bool.and_eq_true, beq_iff_eq] at hh
    rw [BlockMap.block, B.hash_block, hh.1]
  fInitialBlockDownload := fInitialBlockDownload

/-- **Every node has such a view.** -/
theorem BlockMap.stakeView_of [DecidableEq α] {B : BlockMap R P tree α} {f : Bool}
    (hchain : ∃ t, n.chainActive = B.branch t) :
    (B.stakeView modifier n f hchain).Of B modifier n where
  index _ := rfl
  chain := rfl
  found := by
    intro a ha hd tx htx
    refine Option.isSome_iff_exists.mp (List.findSome?_isSome_iff.mpr ⟨a, ?_, ?_⟩)
    · exact List.mem_filter.mpr ⟨ha, hd⟩
    · rw [Option.isSome_map, List.find?_isSome]
      exact ⟨tx, htx, by simp⟩
  stored := by
    intro h tx hash hget _
    obtain ⟨a, ha, hfind⟩ := List.exists_of_findSome?_eq_some hget
    obtain ⟨tx', htx', he⟩ := Option.map_eq_some_iff.mp hfind
    obtain ⟨rfl, rfl⟩ := Prod.mk.inj he
    obtain ⟨hmem, hd⟩ := List.mem_filter.mp ha
    exact ⟨a, hmem, hd, rfl, List.mem_of_find?_eq_some htx', by simpa using List.find?_some htx'⟩
  disk := by
    intro a ha hd
    refine Option.map_eq_some_iff.mpr ⟨a, ?_, rfl⟩
    cases hfind : n.mapBlockIndex.find? fun a' => B.hash a' == B.hash a &&
      (n.status a').fHaveData with
    | none =>
      have := List.find?_eq_none.mp hfind a ha
      simp [hd] at this
    | some a' =>
      have := List.find?_some hfind
      simp only [Bool.and_eq_true, beq_iff_eq] at this
      rw [B.hash_injective this.1]

/-! ## The staked output -/

/-- The staked output is unspent after the block's ancestors. -/
def KernelUnspent (B : BlockMap R P tree α) (b : α) : Prop :=
  ∃ prevout, (B.block b).kernelPrevout = some prevout ∧ prevout ∈ B.unspentBelow b

/-- **For a child of the tip**, the staked output is one of the node's coins or not. -/
theorem kernelUnspent_iff_haveInput (hf : tree.Faithful) {exact : Bool} {t : α} {s : ChainState}
    (hs : CoinsOf B exact (B.branch t) s) (hp : B.parent b = some t) {prevout : COutPoint}
    (hk : (B.block b).kernelPrevout = some prevout) :
    KernelUnspent B b ↔ s.coins.haveInput prevout = true := by
  obtain ⟨hmap, v, lost, hi⟩ := hs
  have hbelow : CoinsBelow B b v := ⟨s.chain, hi.canon, by rw [hmap, pprev_of_parent hp]⟩
  have hsame : s.coins.haveInput prevout = v.haveInput prevout :=
    hi.sim.isAvailable prevout.hash prevout.n
  have hiff : KernelUnspent B b ↔ prevout ∈ B.unspentBelow b := by
    constructor
    · rintro ⟨prevout', hk', hmem⟩
      rwa [Option.some.inj (hk.symm.trans hk')]
    · exact fun hmem => ⟨prevout, hk, hmem⟩
  rw [hiff, ← hbelow.unspent hf, hsame]
  rfl

/-! ## Runs -/

section Runs

variable [DecidableEq α]

/-- A call of `AcceptBlock` whose stake checks see the node. -/
def AcceptsSeeing (S : StakeRules) (B : BlockMap R P tree α) (E : AcceptRules α σ) (n : Node α σ)
    (_ : α) : Prop :=
  ∃ env view modifier, E = acceptRules S B env view ∧ (view n).Of B modifier n

/-- The block is a child of the tip, and what it stakes is among the node's coins. -/
structure StakesAtTip (B : BlockMap R P tree α) (n : Node α ChainState) (b : α) : Prop where
  child : ∃ t, B.parent b = some t ∧ n.chainActive = B.branch t
  coin : ∃ prevout, (B.block b).kernelPrevout = some prevout ∧
    n.state.coins.haveInput prevout = true

/-- A new proof-of-stake block whose work passes stakes a coin of the tip. -/
def AcceptsAtTip (S : StakeRules) (B : BlockMap R P tree α) (E : AcceptRules α ChainState)
    (n : Node α ChainState) (b : α) : Prop :=
  AcceptsSeeing S B E n b ∧ ((B.block b).isProofOfStake = true →
    (n.status b).fHaveData = false → E.checkWork n b = .ok () → StakesAtTip B n b)

/-- A stored proof-of-stake block has a real stake, and the coins are those of the chain. -/
def stakeVerdicts (B : BlockMap R P tree α) : Verdicts α ChainState where
  connects _ := True
  broken _ := True
  stored b := b ≠ B.root → (B.block b).isProofOfStake = true → KernelUnspent B b
  refused _ := True
  valid := CoinsOf B false

omit [DecidableEq α] in
/-- The coins follow the active chain, whatever the local checks say. -/
theorem tipOps_obeys_stakeVerdicts (hf : tree.Faithful)
    (hbip : ∀ b, enforceBIP30 (B.depth b) (B.hash b) = true)
    (env : ChainState → α → LocalState) : (tipOps B env).Obeys B.toIndexTree (stakeVerdicts B) where
  connected hs hp hc := ⟨trivial, CoinsOf.connect hbip hs hp (tipOps_connected hc)⟩
  invalid _ _ _ := trivial
  disconnect hs hp hd := CoinsOf.disconnect hf hs hp nofun hd

theorem AcceptsAtTip.obeys {S : StakeRules} {E : AcceptRules α ChainState} {n : Node α ChainState}
    {b : α} (hf : tree.Faithful) (hi : Node.NodeInv B.toIndexTree (stakeVerdicts B) [] n)
    (h : AcceptsAtTip S B E n b) : E.Obeys (stakeVerdicts B) n b := by
  refine ⟨fun _ hwork _ hroot hpos => ?_, fun _ _ _ _ => trivial⟩
  cases hd : (n.status b).fHaveData with
  | true => exact hi.stored b hd hroot hroot hpos
  | false =>
    obtain ⟨⟨t, hp, hchain⟩, prevout, hk, hcoin⟩ := h.2 hpos hd hwork
    have hcoins := hi.valid
    rw [hchain] at hcoins
    exact (kernelUnspent_iff_haveInput hf hcoins hp hk).mpr hcoin

/-- A run whose new stakes are at the tip. -/
abbrev ReachesAtTip (S : StakeRules) (B : BlockMap R P tree α) : Node α ChainState → Prop :=
  Node.Reaches B.toIndexTree P.nMaxReorganizationDepth (AcceptsAtTip S B)
    (fun ops _ => ∃ env, ops = tipOps B env) (ChainState.genesis P tree)

theorem nodeInv_stakeVerdicts {S : StakeRules} (hf : tree.Faithful)
    (hbip : ∀ b, enforceBIP30 (B.depth b) (B.hash b) = true) {n : Node α ChainState}
    (h : ReachesAtTip S B n) : Node.NodeInv B.toIndexTree (stakeVerdicts B) [] n := by
  induction h with
  | genesis => exact Node.nodeInv_genesis _ (coinsOf_genesis B false)
  | accept _ ha ih => exact Node.nodeInv_acceptBlock _ ih (ha.obeys hf ih)
  | activate _ ha ih =>
    obtain ⟨env, rfl⟩ := ha
    exact (Node.activateRound_spec
      (Node.nodeInv_moves (tipOps_obeys_stakeVerdicts hf hbip env)) ih).1

/--
**No fake stake**, in every run in which each new proof-of-stake block that passes
`CheckWork` is a child of the tip and stakes one of the node's coins.
-/
theorem acceptBlock_kernelUnspent {S : StakeRules} (hf : tree.Faithful)
    (hbip : ∀ b, enforceBIP30 (B.depth b) (B.hash b) = true) {n : Node α ChainState}
    (h : ReachesAtTip S B n) {b : α} (hd : (n.status b).fHaveData = true) (hroot : b ≠ B.root)
    (hpos : (B.block b).isProofOfStake = true) : KernelUnspent B b :=
  (nodeInv_stakeVerdicts hf hbip h).stored b hd hroot hroot hpos

end Runs

/-! ### The first coinbase, staked on two branches -/

/-- Stakes the coinbase of the first block. -/
def forkStakeTx : CTransaction where
  hash := 2000
  vin := [⟨⟨1001, 0⟩, [0x51], 0⟩]
  vout := [⟨0, [], -10⟩, ⟨11 * COIN, [0x51], -10⟩]

/-- Coinbases only, but for a last block that is proof-of-stake. -/
def stakedTxs : Fork → List CTransaction
  | .side => [{ minedCoinbase 4 with vout := [⟨0, [], -10⟩] }, forkStakeTx]
  | b => [minedCoinbase b.number]

/-- The second block gets no modifier of its own, as none has to be generated so soon. -/
def forkModifier (b : Fork) : Nat × Bool := (b.number, decide (b ≠ .second))

def stakedTree (onTop : Bool) : BlockTree := Fork.tree onTop stakedTxs

abbrev stakedMap (onTop : Bool) := Fork.blockMap onTop stakedTxs

/-- The chain of a node is always a branch, so the alternative is never taken. -/
def seenBy (onTop : Bool) (n : Node Fork ChainState) : StakeView Rules.transparent :=
  if h : ∃ t, n.chainActive = (stakedMap onTop).branch t then
    (stakedMap onTop).stakeView forkModifier n true h
  else noStakes

def clockState : LocalState := LocalState.bare 1600030000 false true

/-- A round of `ActivateBestChain`. -/
def stakedRound (onTop : Bool) (n : Node Fork ChainState) : Node Fork ChainState :=
  (n.activateRound (stakedMap onTop).toIndexTree (tipOps (stakedMap onTop) fun _ _ => clockState)).1

/-- Blocks arrive, the last of the list first, and the best chain is chosen before each. -/
def stakedRun (onTop : Bool) : List Fork → Node Fork ChainState
  | [] => Node.genesis (stakedMap onTop).toIndexTree
    (ChainState.genesis mainParams (stakedTree onTop))
  | b :: l =>
    ((stakedRound onTop (stakedRun onTop l)).acceptBlock (stakedMap onTop).toIndexTree
      mainParams.nMaxReorganizationDepth
      (acceptRules easyStake (stakedMap onTop) (fun _ => clockState) (seenBy onTop)) b).1

/-- The nodes such runs reach, if the blocks that arrive are as `accepts` says. -/
abbrev ReachesStaked (onTop : Bool)
    (accepts : AcceptRules Fork ChainState → Node Fork ChainState → Fork → Prop) :
    Node Fork ChainState → Prop :=
  Node.Reaches (stakedMap onTop).toIndexTree mainParams.nMaxReorganizationDepth accepts
    (fun ops _ => ∃ env, ops = tipOps (stakedMap onTop) env)
    (ChainState.genesis mainParams (stakedTree onTop))

theorem reaches_stakedRun {onTop : Bool} {l : List Fork} {b : Fork}
    {accepts : AcceptRules Fork ChainState → Node Fork ChainState → Fork → Prop}
    (hr : ReachesStaked onTop accepts (stakedRun onTop l))
    (hb : AcceptsSeeing easyStake (stakedMap onTop)
        (acceptRules easyStake (stakedMap onTop) (fun _ => clockState) (seenBy onTop))
        (stakedRound onTop (stakedRun onTop l)) b →
      accepts (acceptRules easyStake (stakedMap onTop) (fun _ => clockState) (seenBy onTop))
        (stakedRound onTop (stakedRun onTop l)) b) :
    ReachesStaked onTop accepts (stakedRun onTop (b :: l)) := by
  have hround := Node.Reaches.activate hr ⟨fun _ _ => clockState, rfl⟩
  obtain ⟨t, ht⟩ := hround.chain
  refine .accept hround (hb ⟨_, _, forkModifier, rfl, ?_⟩)
  unfold seenBy
  rw [dif_pos ⟨t, ht⟩]
  exact BlockMap.stakeView_of ⟨t, ht⟩

theorem stakedMap_mined : ∀ b : Fork, b ≠ .side →
    ((stakedMap true).block b).isProofOfStake = false := by
  decide +kernel

/-- The stake arrives too early, when its transaction is unknown, and again on top of the others. -/
theorem acceptBlock_kernelUnspent_staked :
    ((stakedRun true [.third, .second, .first, .side]).status .side).fHaveData = false ∧
      ((stakedRun true [.side, .third, .second, .first, .side]).status .side).fHaveData = true ∧
      KernelUnspent (stakedMap true) .side := by
  have hd : ((stakedRun true [.side, .third, .second, .first, .side]).status .side).fHaveData
      = true := by decide +kernel
  refine ⟨by decide +kernel, hd, ?_⟩
  have hmined : ∀ {E n} {b : Fork}, b ≠ .side → AcceptsSeeing easyStake (stakedMap true) E n b →
      AcceptsAtTip easyStake (stakedMap true) E n b := by
    refine fun hb h => ⟨h, fun hpos => ?_⟩
    rw [stakedMap_mined _ hb] at hpos
    exact absurd hpos (by decide)
  refine acceptBlock_kernelUnspent (S := easyStake) (storedBlocks_faithful (by decide +kernel))
    (by decide) (reaches_stakedRun (reaches_stakedRun (reaches_stakedRun (reaches_stakedRun
      (reaches_stakedRun (l := []) .genesis
        fun h => ⟨h, fun _ _ hwork => absurd hwork (by decide +kernel)⟩)
      (hmined (by decide))) (hmined (by decide))) (hmined (by decide)))
      fun h => ⟨h, fun _ _ _ => ⟨⟨.third, by decide +kernel, by decide +kernel⟩,
        ⟨1001, 0⟩, by decide +kernel, by decide +kernel⟩⟩) hd (by decide) (by decide +kernel)

/--
**A block that stakes nothing of its own branch is stored**: it is a child of genesis, and
stakes a coinbase of the active chain.
-/
theorem acceptBlock_stores_fakeStake :
    ¬ ∀ (R : Rules) (P : CChainParams) (tree : BlockTree) (S : StakeRules)
        (B : BlockMap R P tree Fork) (n : Node Fork ChainState) (b : Fork),
      tree.Faithful → (∀ b, enforceBIP30 (B.depth b) (B.hash b) = true) →
      Node.Reaches B.toIndexTree P.nMaxReorganizationDepth (AcceptsSeeing S B)
        (fun ops _ => ∃ env, ops = tipOps B env) (ChainState.genesis P tree) n →
      (n.status b).fHaveData = true → b ≠ B.root → (B.block b).isProofOfStake = true →
      KernelUnspent B b := by
  intro h
  obtain ⟨prevout, hpre, hmem⟩ := h _ _ _ easyStake (stakedMap false)
    (stakedRun false [.side, .third, .second, .first]) .side
    (storedBlocks_faithful (by decide +kernel)) (by decide)
    (reaches_stakedRun (reaches_stakedRun (reaches_stakedRun (reaches_stakedRun (l := [])
      .genesis id) id) id) id) (by decide +kernel) (by decide) (by decide +kernel)
  have hhistory : (stakedMap false).history .side = [] := by decide +kernel
  rw [BlockMap.unspentBelow, hhistory] at hmem
  exact hmem

end BitBlocks
