import BitBlocks.Coins.Replay
import BitBlocks.Validation.Connected

/-!
# Runs of `ConnectTip` and `DisconnectTip`

The active chain, its coins, and the undo data on disk, moved one block at a time.
Undo data is written once per block and never again (`GetUndoPos().IsNull()`), so
a block that comes back after a reorganisation is disconnected with the record its
*first* connection left.

What the coins ought to be is a function of the chain alone: connect its blocks
from genesis on (`Canon`). The invariant of a run (`ChainInv`) says how far the
node's coins can be from that. They simulate it, and agree outright in a run
that never disconnects a block whose undo data holds a coinstake's record.
-/

namespace BitBlocks

open CCoinsView Wrap

abbrev BlockTree := Uint256 → CBlock

/-- No two different transactions on disk share a txid. -/
def BlockTree.Faithful (tree : BlockTree) : Prop :=
  ∀ h h' : Uint256, ∀ tx ∈ (tree h).vtx, ∀ tx' ∈ (tree h').vtx, tx.hash = tx'.hash → tx = tx'

theorem BlockTree.Faithful.txids {tree : BlockTree} (h : tree.Faithful) (hash : Uint256) :
    TxidsFaithful (tree hash).vtx := h hash hash

/-- `chainActive` with its tip first, `pcoinsTip`, and the `rev` files. -/
structure ChainState where
  chain : List CBlockIndex
  coins : CCoinsView
  undo : Uint256 → Option (List (List CTxInUndo))

/-- The fields `AddToBlockIndex` takes from a block's header and position. -/
def indexOf (hash : Uint256) (nHeight : Int) (block : CBlock) : CBlockIndex where
  phashBlock := hash
  nHeight := nHeight
  nVersion := block.nVersion
  nTime := block.nTime
  nBits := block.nBits
  fProofOfStake := block.isProofOfStake

/-- The state after the genesis block: its transactions are not in the coins. -/
def ChainState.genesis (P : CChainParams) (tree : BlockTree) : ChainState where
  chain := [indexOf P.hashGenesisBlock 0 (tree P.hashGenesisBlock)]
  coins _ := none
  undo _ := none

/--
`ConnectTip`, on a child of the tip. The block is read from disk and must hash to
its entry's hash (`ReadBlockFromDisk`).
-/
def connectTip (R : Rules) (P : CChainParams) (env : LocalState) (tree : BlockTree)
    (s : ChainState) (hash : Uint256) : Option ChainState :=
  match s.chain with
  | [] => none
  | prev :: rest =>
    if hash ≠ P.hashGenesisBlock ∧ R.getHash (tree hash).toCBlockHeader = hash ∧
        (tree hash).hashPrevBlock = prev.phashBlock then
      -- the parent is the tip, so no other height is looked up
      match connectBlock R P env ⟨some (prev.phashBlock, prev.nHeight), fun _ => none⟩
          (prev :: rest) (tree hash) s.coins with
      | .error _ => none
      | .ok res =>
        some { chain := { indexOf hash (prev.nHeight + 1) (tree hash) with
                  nMint := res.nMint, nMoneySupply := res.nMoneySupply } :: prev :: rest
               coins := res.view
               undo := Function.update s.undo hash (some ((s.undo hash).getD res.vtxundo)) }
    else none

/-- `DisconnectTip`, with the undo data on disk. Genesis is never disconnected. -/
def disconnectTip (tree : BlockTree) (s : ChainState) : Option ChainState :=
  match s.chain with
  | pindexDelete :: prev :: rest =>
    match s.undo pindexDelete.phashBlock with
    | none => none
    | some vtxundo =>
      match disconnectBlock (tree pindexDelete.phashBlock) vtxundo pindexDelete.nHeight
          s.coins with
      | none => none
      | some coins => some { s with chain := prev :: rest, coins := coins }
  | _ => none

inductive TipMove where
  | connect (env : LocalState) (hash : Uint256)
  | disconnect

def moveTip (R : Rules) (P : CChainParams) (tree : BlockTree) (s : ChainState) :
    TipMove → Option ChainState
  | .connect env hash => connectTip R P env tree s hash
  | .disconnect => disconnectTip tree s

/-- A whole run, stopping at the first move that fails. -/
def moveTips (R : Rules) (P : CChainParams) (tree : BlockTree) : ChainState → List TipMove →
    Option ChainState
  | s, [] => some s
  | s, m :: ms => (moveTip R P tree s m).bind fun s' => moveTips R P tree s' ms

/-- The states that successful moves reach from genesis, when every move is `allowed`. -/
inductive Reachable (R : Rules) (P : CChainParams) (tree : BlockTree)
    (allowed : ChainState → TipMove → Prop) : ChainState → Prop
  | genesis : Reachable R P tree allowed (ChainState.genesis P tree)
  | move {s s' : ChainState} {m : TipMove} : Reachable R P tree allowed s → allowed s m →
      moveTip R P tree s m = some s' → Reachable R P tree allowed s'

theorem Reachable.run {R : Rules} {P : CChainParams} {tree : BlockTree}
    {allowed : ChainState → TipMove → Prop} : ∀ {ms : List TipMove} {s s' : ChainState},
    Reachable R P tree allowed s → (∀ m ∈ ms, ∀ s, allowed s m) →
    moveTips R P tree s ms = some s' → Reachable R P tree allowed s'
  | [], s, s', hr, _, h => by
    rw [moveTips, Option.some.injEq] at h
    exact h ▸ hr
  | m :: ms, s, s', hr, ha, h => by
    obtain ⟨s1, h1, hrest⟩ := Option.bind_eq_some_iff.mp h
    exact Reachable.run (.move hr (ha m (by simp) s) h1) (fun n hn => ha n (by simp [hn])) hrest

/-! ## What a move does -/

/-- What a successful `ConnectTip` did. -/
structure TipConnected (R : Rules) (P : CChainParams) (env : LocalState) (tree : BlockTree)
    (s : ChainState) (hash : Uint256) (s' : ChainState) (prev : CBlockIndex)
    (rest : List CBlockIndex) (res : Connected) (undos : List (List CTxInUndo)) : Prop where
  chain : s.chain = prev :: rest
  notGenesis : hash ≠ P.hashGenesisBlock
  hashed : R.getHash (tree hash).toCBlockHeader = hash
  parent : (tree hash).hashPrevBlock = prev.phashBlock
  block : BlockConnected R P env ⟨some (prev.phashBlock, prev.nHeight), fun _ => none⟩ prev
    (tree hash) s.coins res undos
  state : s' = { chain := { indexOf hash (prev.nHeight + 1) (tree hash) with
                   nMint := res.nMint, nMoneySupply := res.nMoneySupply } :: prev :: rest
                 coins := res.view
                 undo := Function.update s.undo hash (some ((s.undo hash).getD res.vtxundo)) }

variable {env : LocalState} {s s' : ChainState} {hash : Uint256} {prev l : CBlockIndex}
  {v v' : CCoinsView} {U : List (List CTxInUndo)} {exact : Bool} {lost : Uint256 → Bool}

theorem connectTip_some {R : Rules} {P : CChainParams} {tree : BlockTree} (hv : s.coins.WF)
    (h : connectTip R P env tree s hash = some s') :
    ∃ prev rest res undos, TipConnected R P env tree s hash s' prev rest res undos := by
  unfold connectTip at h
  split at h
  · simp at h
  · rename_i prev rest hchain
    split at h
    · rename_i hcond
      obtain ⟨hg, hh, hp⟩ := hcond
      split at h
      · simp at h
      · rename_i res hres
        obtain ⟨prev', rest', undos, he, hb⟩ := connectBlock_ok hv (by rw [hh]; exact hg) hres
        obtain ⟨rfl, rfl⟩ := List.cons.inj he
        exact ⟨prev, rest, res, undos, hchain, hg, hh, hp, hb, (Option.some.inj h).symm⟩
    · simp at h

/-- What a successful `DisconnectTip` did. -/
structure TipDisconnected (tree : BlockTree) (s s' : ChainState) (pindexDelete prev : CBlockIndex)
    (rest : List CBlockIndex) (vtxundo : List (List CTxInUndo)) (coins : CCoinsView) : Prop where
  chain : s.chain = pindexDelete :: prev :: rest
  undo : s.undo pindexDelete.phashBlock = some vtxundo
  clean : disconnectCoins (tree pindexDelete.phashBlock).vtx vtxundo pindexDelete.nHeight s.coins
    = some (coins, true)
  state : s' = { s with chain := prev :: rest, coins := coins }

theorem disconnectTip_some {tree : BlockTree} (h : disconnectTip tree s = some s') :
    ∃ pindexDelete prev rest vtxundo coins,
      TipDisconnected tree s s' pindexDelete prev rest vtxundo coins := by
  unfold disconnectTip at h
  split at h
  · rename_i l prev rest hchain
    split at h
    · simp at h
    · rename_i U hU
      unfold disconnectBlock at h
      split at h
      · simp at h
      · rename_i coins hc
        split at hc
        · rename_i w hw
          rw [Option.some.injEq] at hc h
          subst hc
          exact ⟨l, prev, rest, U, w, hchain, hU, hw, h.symm⟩
        · simp at hc
  · simp at h

/-! ## What the coins ought to be -/

/-- The block of entry `l` connects on top of `prev`, taking the coins from `v` to `v'`. -/
structure Extends (P : CChainParams) (tree : BlockTree) (prev l : CBlockIndex) (v v' : CCoinsView)
    (U : List (List CTxInUndo)) : Prop where
  notGenesis : l.phashBlock ≠ P.hashGenesisBlock
  parent : (tree l.phashBlock).hashPrevBlock = prev.phashBlock
  height : l.nHeight = prev.nHeight + 1
  checked : LoopChecked v (tree l.phashBlock).vtx
  loop : connectLoop l.nHeight v (tree l.phashBlock).vtx = some (v', U)
  supply : l.nMoneySupply = wrap64 (prev.nMoneySupply + netCreated (tree l.phashBlock) U)

/-- The coins of a chain: connect its blocks on an empty view, genesis apart. -/
inductive Canon (P : CChainParams) (tree : BlockTree) : List CBlockIndex → CCoinsView → Prop
  | genesis : Canon P tree [indexOf P.hashGenesisBlock 0 (tree P.hashGenesisBlock)] fun _ => none
  | extend {l prev : CBlockIndex} {rest : List CBlockIndex} {v v' : CCoinsView}
      {U : List (List CTxInUndo)} : Canon P tree (prev :: rest) v →
      Extends P tree prev l v v' U → Canon P tree (l :: prev :: rest) v'

variable {R : Rules} {P : CChainParams} {tree : BlockTree}

theorem Extends.ready (hf : tree.Faithful) (h : Extends P tree prev l v v' U) :
    ∃ undos, connectTxs l.nHeight v (tree l.phashBlock).vtx = some (v', undos) ∧
      LoopReady v (tree l.phashBlock).vtx ∧ undos = [] :: U := by
  obtain ⟨undos, hu, rfl⟩ := connectLoop_eq h.loop
  have hr := h.checked.loopReady (hf.txids _) hu
  refine ⟨undos, hu, hr, ?_⟩
  obtain ⟨cb, rest, hvtx, hcb, _⟩ := h.checked.coinbase
  rw [hvtx] at hu
  obtain ⟨v1, u, us, rfl, hcbu, _⟩ := connectTxs_cons hu
  obtain ⟨w, hmid, _⟩ := updateCoins_cases h.checked.wf hcbu
  rw [hcb] at hmid
  simp only [if_true, Option.some.injEq, Prod.mk.injEq] at hmid
  rw [← hmid.2, List.tail_cons]

/-- **The tip's hash determines the chain below it**, its height and its coins. -/
theorem Canon.unique {l' : CBlockIndex} {c c' : List CBlockIndex} (h : Canon P tree (l :: c) v)
    (h' : Canon P tree (l' :: c') v') (he : l.phashBlock = l'.phashBlock) :
    l.nHeight = l'.nHeight ∧ v = v' := by
  generalize hk : l :: c = k at h
  induction h generalizing l c l' c' v' with
  | genesis =>
    obtain ⟨rfl, rfl⟩ := List.cons.inj hk
    cases h' with
    | genesis => exact ⟨rfl, rfl⟩
    | extend _ hx => exact absurd he.symm hx.notGenesis
  | @extend m prev rest v0 v1 U hc hx ih =>
    obtain ⟨rfl, rfl⟩ := List.cons.inj hk
    cases h' with
    | genesis => exact absurd he hx.notGenesis
    | @extend _ prev' rest' v0' _ U' hc' hx' =>
      have hprev : prev.phashBlock = prev'.phashBlock := by
        rw [← hx.parent, ← hx'.parent, he]
      obtain ⟨hh, rfl⟩ := ih hc' hprev rfl
      have hheight : l.nHeight = l'.nHeight := by rw [hx.height, hx'.height, hh]
      have hl := hx.loop
      rw [he, hheight, hx'.loop, Option.some.injEq, Prod.mk.injEq] at hl
      exact ⟨hheight, hl.1.symm⟩

/-! ## The invariant of a run -/

/--
The node's coins and undo data against what the chain says. `exact` is for runs in
which no coinstake's record was ever needed to disconnect a block.
-/
structure ChainInv (P : CChainParams) (tree : BlockTree) (exact : Bool) (s : ChainState)
    (v : CCoinsView) (lost : Uint256 → Bool) : Prop where
  canon : Canon P tree s.chain v
  sim : Sim lost s.coins v
  harmless : exact = true → Harmless lost v
  /-- Undo data on disk is that of the block's only place in any chain. -/
  undo : ∀ {prev l : CBlockIndex} {rest : List CBlockIndex} {v0 v1 : CCoinsView}
    {U U' : List (List CTxInUndo)}, Canon P tree (prev :: rest) v0 → Extends P tree prev l v0 v1 U →
    s.undo l.phashBlock = some U' →
    U'.map (List.map CTxInUndo.bare) = U.map (List.map CTxInUndo.bare) ∧ (exact = true → U' = U)

/-- A connected block is none of the two that BIP30 exempts by height and hash. -/
def BIP30Enforced (s : ChainState) : TipMove → Prop
  | .connect _ hash => ∀ prev rest, s.chain = prev :: rest →
      enforceBIP30 (prev.nHeight + 1) hash = true
  | .disconnect => True

/-- The block at the tip spent no coinstake's entry to its last output. -/
def NoStakeRecord (s : ChainState) : TipMove → Prop
  | .connect _ _ => True
  | .disconnect => ∀ l rest, s.chain = l :: rest → ∀ U, s.undo l.phashBlock = some U →
      ∀ us ∈ U, ∀ u ∈ us, u.fCoinStake = false

/-- The moves of a run that may lose flags, and of one that may not. -/
def Allowed (exact : Bool) (s : ChainState) (m : TipMove) : Prop :=
  BIP30Enforced s m ∧ (exact = true → NoStakeRecord s m)

theorem chainInv_genesis (exact : Bool) :
    ChainInv P tree exact (ChainState.genesis P tree) (fun _ => none) fun _ => false where
  canon := .genesis
  sim := Sim.refl WF.empty
  harmless _ k hk := by simp at hk
  undo _ _ hs := by simp [ChainState.genesis] at hs

theorem valueSpent_bare (us : List CTxInUndo) :
    valueSpent (us.map CTxInUndo.bare) = valueSpent us := by
  unfold valueSpent
  rw [List.map_map]
  rfl

theorem totalSpent_congr {U' : List (List CTxInUndo)}
    (h : U.map (List.map CTxInUndo.bare) = U'.map (List.map CTxInUndo.bare)) :
    totalSpent U = totalSpent U' := by
  have hbare : ∀ V : List (List CTxInUndo),
      totalSpent (V.map (List.map CTxInUndo.bare)) = totalSpent V := by
    intro V
    unfold totalSpent
    rw [List.map_map]
    congr 1
    exact List.map_congr_left fun us _ => valueSpent_bare us
  rw [← hbare U, h, hbare]

/-- **`ConnectTip` keeps the invariant.** -/
theorem chainInv_connect (hi : ChainInv P tree exact s v lost)
    (ha : BIP30Enforced s (.connect env hash)) (h : connectTip R P env tree s hash = some s') :
    ∃ v' lost', ChainInv P tree exact s' v' lost' := by
  obtain ⟨prev, rest, res, undos, hc⟩ := connectTip_some hi.sim.left h
  have hblock := hc.block
  have hchk := hblock.loopChecked hi.sim.left (by rw [hc.hashed]; exact ha prev rest hc.chain)
  have hcanon := hi.canon
  rw [hc.chain] at hcanon
  -- the same block on the coins the chain says
  have hchkv : LoopChecked v (tree hash).vtx := ⟨hi.sim.right, hchk.coinbase, hchk.nonneg, hchk.vin,
      fun tx htx => by rw [← hi.sim.isPruned]; exact hchk.bip30 tx htx⟩
  obtain ⟨v', us', lost', hv', hsim', hbare, hexact⟩ := hi.sim.connectTxs hchk.nonneg hblock.txs
  have hbtail : res.vtxundo.map (List.map CTxInUndo.bare)
      = us'.tail.map (List.map CTxInUndo.bare) := by
    rw [hblock.vtxundo, List.map_tail, List.map_tail, hbare]
  have hloop : connectLoop (prev.nHeight + 1) v (tree hash).vtx = some (v', us'.tail) := by
    rw [connectLoop, hv']
  have hx : Extends P tree prev { indexOf hash (prev.nHeight + 1) (tree hash) with
      nMint := res.nMint, nMoneySupply := res.nMoneySupply } v v' us'.tail := by
    refine ⟨hc.notGenesis, hc.parent, rfl, hchkv, hloop, ?_⟩
    show res.nMoneySupply = _
    rw [hblock.supply]
    simp only [netCreated, totalSpent_congr hbtail]
    rfl
  refine ⟨v', lost', ?_⟩
  rw [hc.state]
  refine ⟨.extend hcanon hx, hsim', fun he => (hexact (hi.harmless he)).2, ?_⟩
  intro prev' l rest' v0 v1 U U' hcan hext hU'
  dsimp only at hU'
  by_cases hl : l.phashBlock = hash
  · rw [hl, Function.update_self, Option.some.injEq] at hU'
    -- the hash fixes the parent, so this is the extension at hand
    obtain ⟨hh, rfl⟩ := Canon.unique hcan hcanon (by rw [← hext.parent, hl, hc.parent])
    have hloop' := hext.loop
    rw [hext.height, hh, hl, hloop, Option.some.injEq, Prod.mk.injEq] at hloop'
    cases hold : s.undo hash with
    | some U0 =>
      rw [hold, Option.getD_some] at hU'
      exact hU' ▸ hi.undo hcan hext (by rw [hl]; exact hold)
    | none =>
      rw [hold, Option.getD_none] at hU'
      rw [← hU', ← hloop'.2]
      refine ⟨hbtail, fun he => ?_⟩
      rw [hblock.vtxundo, (hexact (hi.harmless he)).1]
  · rw [Function.update_of_ne hl] at hU'
    exact hi.undo hcan hext hU'

theorem harmless_lostBy (hf : tree.Faithful) (hx : Extends P tree prev l v v' U)
    (hh : Harmless lost v') (hno : ∀ us ∈ U, ∀ u ∈ us, u.fCoinStake = false) :
    Harmless (lostBy lost v v') v := by
  obtain ⟨undos, hu, hr, hcb⟩ := hx.ready hf
  intro k hk
  cases hp : (v.get k).isPruned with
  | true => rw [entry_of_isPruned hp]
  | false =>
    rw [entry_of_not_isPruned hp]
    cases hp' : (v'.get k).isPruned with
    | true =>
      obtain ⟨us, hus, u, huu, he⟩ := connectTxs_emptied hr hu hp hp'
      rw [hcb] at hus
      rcases List.mem_cons.mp hus with rfl | hus
      · simp at huu
      · rw [← he]
        exact hno us hus u huu
    | false =>
      have hl : lost k = true := by simpa [lostBy, hp, hp'] using hk
      have hold := hh k hl
      obtain ⟨n, hn⟩ := CCoins.not_isPruned_iff.mp hp
      obtain ⟨hbl, _⟩ := connectTxs_blanked hr hu
      have hmeta := (hbl.meta_eq k).2.1
      rw [get_created_of_notMem (hr.notMem hn)] at hmeta
      rwa [entry_of_not_isPruned hp', hmeta] at hold

/-- **`DisconnectTip` keeps the invariant.** -/
theorem chainInv_disconnect (hf : tree.Faithful) (hi : ChainInv P tree exact s v lost)
    (ha : exact = true → NoStakeRecord s .disconnect) (h : disconnectTip tree s = some s') :
    ∃ v' lost', ChainInv P tree exact s' v' lost' := by
  obtain ⟨l, prev, rest, U', coins, hd⟩ := disconnectTip_some h
  have hcanon := hi.canon
  rw [hd.chain] at hcanon
  cases hcanon with
  | @extend _ _ _ v0 _ U hc hx =>
    obtain ⟨hbare, hexact⟩ := hi.undo hc hx hd.undo
    have hclean := hd.clean
    rw [disconnectCoins_congr hbare] at hclean
    obtain ⟨r, hr, _, hsim⟩ := disconnectCoins_connectLoop hx.checked (hf.txids _) hx.loop hi.sim
    rw [hr, Option.some.injEq] at hclean
    subst hclean
    refine ⟨v0, lostBy lost v0 v, ?_⟩
    rw [hd.state]
    refine ⟨hc, hsim rfl, fun he => ?_, fun hcan hext hu => hi.undo hcan hext hu⟩
    refine harmless_lostBy hf hx (hi.harmless he) fun us hus u hu => ?_
    rw [← hexact he] at hus
    exact ha he l (prev :: rest) hd.chain U' hd.undo us hus u hu

/-- **The invariant holds along every run.** -/
theorem chainInv_reachable (hf : tree.Faithful) (h : Reachable R P tree (Allowed exact) s) :
    ∃ v lost, ChainInv P tree exact s v lost := by
  induction h with
  | genesis => exact ⟨_, _, chainInv_genesis exact⟩
  | @move s s' m _ ha hm ih =>
    obtain ⟨v, lost, hi⟩ := ih
    cases m with
    | connect env hash => exact chainInv_connect hi ha.1 hm
    | disconnect => exact chainInv_disconnect hf hi ha.2 hm

end BitBlocks
