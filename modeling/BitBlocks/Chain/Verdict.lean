import BitBlocks.Chain.Accept
import BitBlocks.Validation.Alike

/-!
# Which blocks are invalid for good

`BLOCK_FAILED_VALID` is never taken back, so a verdict that sets it should be about the
block and its ancestors. What `CheckBlock` and `ConnectBlock` compute is that, three
checks and one branch apart: the block time against the local clock, the transactions
against SwiftTX locks, the payee against votes and budgets, and the branches of
`IsBlockValueValid` that accept any value. All of these are made on blocks whose mark is
then permanent.

Here the verdict that is about the block alone is defined (`Connectable`, `acceptable`:
the source's own functions, on a local state that has nothing against the block), and the
runs in which no local check fails and no value goes uncompared agree with it. Coins
count as history too: a disconnect that loses a coinstake's flag is excluded.
-/

namespace BitBlocks

open Checks

/-! ## A local state that has nothing against a block -/

/-- A synced node without sporks, votes, budgets or locks, whose clock shows the block's time. -/
def neutralState (block : CBlock) : LocalState :=
  { LocalState.bare 0 true true with nAdjustedTime := block.getBlockTime }

/-- Some tip; the neutral state does not look at it. -/
def anyTip : TipView := ⟨some (0, 0), fun _ => none⟩

/-- The checks of `CheckBlock` that read local state do not fail. -/
structure LocalChecks (R : Rules) (P : CChainParams) (env : LocalState) (tip : TipView)
    (block : CBlock) : Prop where
  time : checkTime env block = .ok ()
  locks : checkLocks env block = .ok ()
  payee : checkPayee R P env tip block = .ok ()

/-- `IsBlockValueValid` compares, instead of accepting any value. -/
def ComparesValue (P : CChainParams) (env : LocalState) (tip : TipView) (block : CBlock) : Prop :=
  ∀ nExpectedValue nMinted, isBlockValueValid P env tip block nExpectedValue nMinted
    = decide (nMinted ≤ nExpectedValue)

variable {R : Rules} {P : CChainParams}

theorem spork_neutral (block : CBlock) :
    (neutralState block).isSporkActive SPORK_3_SWIFTTX_BLOCK_FILTERING = false ∧
      (neutralState block).isSporkActive SPORK_13_ENABLE_SUPERBLOCKS = false := by
  show (LocalState.bare 0 true true).isSporkActive SPORK_3_SWIFTTX_BLOCK_FILTERING = false ∧
    (LocalState.bare 0 true true).isSporkActive SPORK_13_ENABLE_SUPERBLOCKS = false
  decide

theorem localChecks_neutral (tip : TipView) (block : CBlock) :
    LocalChecks R P (neutralState block) tip block where
  time := by
    unfold checkTime neutralState
    rw [failIf_eq_ok, decide_eq_false_iff_not]
    dsimp only
    split <;> omega
  locks := by
    unfold checkLocks
    rw [if_neg (by simp [spork_neutral])]
  payee := by
    unfold checkPayee
    split
    · rfl
    · rw [if_neg]
      rintro ⟨_, h⟩
      exact absurd h (by simp [neutralState, LocalState.bare])

theorem comparesValue_neutral {tip : TipView} (ht : tip.tip.isSome) (block : CBlock) :
    ComparesValue P (neutralState block) tip block := by
  intro x y
  obtain ⟨pindexPrev, hprev⟩ := Option.isSome_iff_exists.mp ht
  have hsynced : (neutralState block).fSynced = true := rfl
  simp [isBlockValueValid, hprev, hsynced, spork_neutral]

/-- **`CheckBlock` without the local checks** is the same for every local state. -/
theorem LocalChecks.checkBlock_eq {env : LocalState} {tip : TipView} {block : CBlock}
    (h : LocalChecks R P env tip block) (f : Bool) :
    checkBlock R P env tip block f = checkBlock R P (neutralState block) anyTip block f := by
  have hn := localChecks_neutral (R := R) (P := P) anyTip block
  unfold checkBlock
  rw [h.time, h.locks, h.payee, hn.time, hn.locks, hn.payee]

theorem LocalChecks.connectBlock_eq {env : LocalState} {tip : TipView} {block : CBlock}
    (h : LocalChecks R P env tip block) (hv : ComparesValue P env tip block)
    (pprev : List CBlockIndex) (view : CCoinsView) :
    connectBlock R P env tip pprev block view
      = connectBlock R P (neutralState block) anyTip pprev block view := by
  have hvalue : isBlockValueValid P env tip block
      = isBlockValueValid P (neutralState block) anyTip block := by
    funext x y
    rw [hv x y, comparesValue_neutral rfl block x y]
  unfold connectBlock
  rw [h.checkBlock_eq]
  unfold connectBody
  rw [hvalue]

/-! ## The verdicts -/

section Verdicts

variable {tree : BlockTree} {α : Type} (B : BlockMap R P tree α)

/-- The block connects on these coins, as far as the block itself is concerned. -/
def Connectable (b : α) (v : CCoinsView) : Prop :=
  ∃ res, connectBlock R P (neutralState (B.block b)) anyTip (B.pprev b) (B.block b) v = .ok res

/-- What `AcceptBlock` checks of the block itself. -/
def acceptable (b : α) : Except Fail Unit := do
  checkBlock R P (neutralState (B.block b)) anyTip (B.block b) true
  contextualCheckBlock P (B.pprev b) (B.block b)

/-- The coins of a block's branch, the block itself apart. -/
def CoinsBelow (b : α) (v : CCoinsView) : Prop :=
  ∃ c, Canon P tree c v ∧ c.map CBlockIndex.bare = B.pprev b

/-- A node's coins and active chain are right for each other, to the flags if `exact`. -/
def CoinsOf (exact : Bool) (chain : List α) (s : ChainState) : Prop :=
  s.chain.map CBlockIndex.bare = chain.map B.entry ∧ ∃ v lost, ChainInv P tree exact s v lost

/-- **The verdicts that are about the block and its ancestors.** -/
def objective : Verdicts α ChainState where
  connects b := ∃ v, CoinsBelow B b v ∧ Connectable B b v
  broken b := ∃ v, CoinsBelow B b v ∧ ¬ Connectable B b v
  stored b := acceptable B b = .ok ()
  refused b := acceptable B b ≠ .ok ()
  valid := CoinsOf B true

variable {B}

theorem CoinsBelow.unique {b : α} {v v' : CCoinsView} (h : CoinsBelow B b v)
    (h' : CoinsBelow B b v') : v = v' := by
  obtain ⟨c, hc, he⟩ := h
  obtain ⟨c', hc', he'⟩ := h'
  have hne : ∀ {c : List CBlockIndex} {v : CCoinsView}, Canon P tree c v →
      ∃ l rest, c = l :: rest := by
    intro c v hc
    cases hc with
    | genesis => exact ⟨_, _, rfl⟩
    | extend _ _ => exact ⟨_, _, rfl⟩
  obtain ⟨l, rest, rfl⟩ := hne hc
  obtain ⟨l', rest', rfl⟩ := hne hc'
  have hhead : l.bare = l'.bare := (List.cons.inj (he.trans he'.symm)).1
  exact (Canon.unique hc hc' (congrArg CBlockIndex.phashBlock hhead : l.bare.phashBlock = _)).2

theorem objective_consistent : (objective B).Consistent := by
  rintro b ⟨v, hv, hc⟩ ⟨v', hv', hn⟩
  exact hn (hv.unique hv' ▸ hc)

/-! ## Coins that follow the active chain -/

theorem pprev_of_parent {b t : α} (hp : B.parent b = some t) :
    B.pprev b = (B.branch t).map B.entry := by
  unfold BlockMap.pprev
  rw [hp]

section

variable {exact : Bool} {t b : α} {s s' : ChainState}

theorem CoinsOf.tip (h : CoinsOf B exact (B.branch t) s) :
    ∃ prev rest, s.chain = prev :: rest ∧ prev.phashBlock = B.hash t ∧
    prev.nHeight = B.depth t := by
  obtain ⟨hmap, _⟩ := h
  obtain ⟨above, hb⟩ := ParentTree.branch_eq_cons (T := B.toParentTree) t
  rw [hb] at hmap
  cases hs : s.chain with
  | nil => rw [hs] at hmap; simp at hmap
  | cons prev rest =>
    rw [hs] at hmap
    have hbare : prev.bare = B.entry t := (List.cons.inj hmap).1
    refine ⟨prev, rest, rfl, ?_, ?_⟩
    · simpa only [CBlockIndex.bare, BlockMap.entry, indexOf] using
        congrArg CBlockIndex.phashBlock hbare
    · simpa only [CBlockIndex.bare, BlockMap.entry, indexOf] using
        congrArg CBlockIndex.nHeight hbare

theorem CoinsOf.connect {env : LocalState} (hbip : ∀ b, enforceBIP30 (B.depth b) (B.hash b) = true)
    (hs : CoinsOf B exact (B.branch t) s) (hp : B.parent b = some t)
    (htip : connectTip R P env tree s (B.hash b) = some s') : CoinsOf B exact (B.branch b) s' := by
  obtain ⟨prev, rest, hchain, hhash, hheight⟩ := hs.tip
  obtain ⟨hmap, v0, lost, hinv⟩ := hs
  have hd := B.depth_parent hp
  have hallowed : BIP30Enforced s (.connect env (B.hash b)) := by
    intro prev' rest' hchain'
    rw [hchain] at hchain'
    obtain ⟨rfl, rfl⟩ := List.cons.inj hchain'
    have := hbip b
    rwa [hd, Nat.cast_add, Nat.cast_one, ← hheight] at this
  refine ⟨?_, chainInv_connect hinv hallowed htip⟩
  -- the new tip is the block's entry
  obtain ⟨prev', rest', res, undos, hcon⟩ := connectTip_some hinv.sim.left htip
  have hpr : prev' = prev := by
    have := hcon.chain
    rw [hchain] at this
    exact (List.cons.inj this).1.symm
  have htail : (prev' :: rest').map CBlockIndex.bare = (B.branch t).map B.entry := by
    rw [← hcon.chain, hmap]
  have hhead : (indexOf (B.hash b) (prev'.nHeight + 1) (tree (B.hash b))) = B.entry b := by
    rw [hpr, hheight, BlockMap.entry, BlockMap.block, hd, Nat.cast_add, Nat.cast_one]
  rw [hcon.state, ParentTree.branch_parent hp]
  show _ :: (prev' :: rest').map CBlockIndex.bare = B.entry b :: (B.branch t).map B.entry
  rw [htail, ← hhead]
  rfl

theorem CoinsOf.disconnect {p : α} (hf : tree.Faithful) (hs : CoinsOf B exact (B.branch t) s)
    (hp : B.parent t = some p) (ha : exact = true → NoStakeRecord s .disconnect)
    (hd : disconnectTip tree s = some s') : CoinsOf B exact (B.branch p) s' := by
  obtain ⟨hmap, v0, lost, hinv⟩ := hs
  refine ⟨?_, chainInv_disconnect hf hinv ha hd⟩
  obtain ⟨l, prev', rest', U, coins, hdis⟩ := disconnectTip_some hd
  rw [hdis.chain, ParentTree.branch_parent hp] at hmap
  rw [hdis.state]
  exact (List.cons.inj hmap).2

theorem tipOps_connected {env : ChainState → α → LocalState}
    (hc : (tipOps B env).connect s b = .connected s') :
    connectTip R P (env s b) tree s (B.hash b) = some s' := by
  simp only [tipOps] at hc
  split at hc
  · rename_i s1 h1
    rw [h1, TipResult.connected.inj hc]
  · split at hc <;> simp at hc

end

/-! ## Checks that are neutral agree with the verdicts -/

/--
The checks `ConnectBlock` makes of local state come out neutral for a child of the tip.
What `env` says of states the round never gets to is of no consequence.
-/
def NeutralConnect (B : BlockMap R P tree α) (env : ChainState → α → LocalState) : Prop :=
  ∀ s b prev rest, s.chain = prev :: rest →
    LocalChecks R P (env s b) ⟨some (prev.phashBlock, prev.nHeight), fun _ => none⟩ (B.block b) ∧
      ComparesValue P (env s b) ⟨some (prev.phashBlock, prev.nHeight), fun _ => none⟩ (B.block b)

/-- The record of a block's connection holds a coinstake's entry. -/
def stakeRecord (s : ChainState) (hash : Uint256) : Bool :=
  (s.undo hash).any fun U => U.any fun us => us.any CTxInUndo.fCoinStake

theorem stakeRecord_eq_false {s : ChainState} {hash : Uint256} : stakeRecord s hash = false ↔
      ∀ U, s.undo hash = some U → ∀ us ∈ U, ∀ u ∈ us, u.fCoinStake = false := by
  unfold stakeRecord
  cases s.undo hash with
  | none => simp
  | some U => simp

/-- `ConnectTip` and `DisconnectTip`, the latter refusing to lose a coinstake's flag. -/
def guardedOps (B : BlockMap R P tree α) (env : ChainState → α → LocalState) :
    TipOps α ChainState where
  connect := (tipOps B env).connect
  disconnect s b := if stakeRecord s (B.hash b) then none else (tipOps B env).disconnect s b

theorem connectVerdict_iff {env : ChainState → α → LocalState} (hn : NeutralConnect B env)
    {t b : α} {s : ChainState} (hs : CoinsOf B true (B.branch t) s) (hp : B.parent b = some t) :
    (∃ v, CoinsBelow B b v) ∧ ∀ v, CoinsBelow B b v →
      ((∃ res, connectVerdict R P (env s b) s (B.block b) = .ok res) ↔ Connectable B b v) := by
  obtain ⟨prev, rest, hchain, -, -⟩ := hs.tip
  obtain ⟨hmap, v0, lost, hinv⟩ := hs
  have hbelow : CoinsBelow B b v0 := ⟨s.chain, hinv.canon, by rw [hmap, pprev_of_parent hp]⟩
  refine ⟨⟨v0, hbelow⟩, fun v hv => ?_⟩
  obtain rfl := hbelow.unique hv
  have halike := hinv.sim.alike (hinv.harmless rfl)
  have hbare : s.chain.map CBlockIndex.bare = (B.pprev b).map CBlockIndex.bare := by
    rw [hmap, pprev_of_parent hp, List.map_map]
    rfl
  obtain ⟨hlocal, hvalue⟩ := hn s b prev rest hchain
  unfold connectVerdict
  rw [hchain]
  dsimp only
  rw [hlocal.connectBlock_eq hvalue, ← hchain]
  exact ⟨fun ⟨_, h⟩ => connectBlock_alike halike hbare h,
    fun ⟨_, h⟩ => connectBlock_alike halike.symm hbare.symm h⟩

theorem connectTip_verdict {env : LocalState} {s s' : ChainState} {hash : Uint256}
    (h : connectTip R P env tree s hash = some s') :
    ∃ res, connectVerdict R P env s (tree hash) = .ok res := by
  unfold connectTip at h
  unfold connectVerdict
  cases hchain : s.chain with
  | nil => simp [hchain] at h
  | cons prev rest =>
    rw [hchain] at h
    dsimp only at h ⊢
    split at h
    · split at h
      · simp at h
      · rename_i res hres
        exact ⟨res, hres⟩
    · simp at h

section

variable {env : ChainState → α → LocalState} {t b : α} {s s' : ChainState}

theorem guardedOps_connected (hbip : ∀ b, enforceBIP30 (B.depth b) (B.hash b) = true)
    (hn : NeutralConnect B env) (hs : CoinsOf B true (B.branch t) s) (hp : B.parent b = some t)
    (hc : (guardedOps B env).connect s b = .connected s') :
    (objective B).connects b ∧ CoinsOf B true (B.branch b) s' := by
  obtain ⟨⟨v, hv⟩, hiff⟩ := connectVerdict_iff hn hs hp
  have htip := tipOps_connected hc
  exact ⟨⟨v, hv, (hiff v hv).mp (connectTip_verdict htip)⟩, hs.connect hbip hp htip⟩

theorem guardedOps_invalid (hn : NeutralConnect B env) (hs : CoinsOf B true (B.branch t) s)
    (hp : B.parent b = some t) (hc : (guardedOps B env).connect s b = .invalid false) :
    (objective B).broken b := by
  obtain ⟨⟨v, hv⟩, hiff⟩ := connectVerdict_iff hn hs hp
  refine ⟨v, hv, fun hcon => ?_⟩
  obtain ⟨res, hres⟩ := (hiff v hv).mpr hcon
  simp only [guardedOps, tipOps] at hc
  split at hc
  · simp at hc
  · rw [hres] at hc
    simp at hc

theorem guardedOps_disconnect {p : α} (hf : tree.Faithful) (hs : CoinsOf B true (B.branch t) s)
    (hp : B.parent t = some p) (hd : (guardedOps B env).disconnect s t = some s') :
    CoinsOf B true (B.branch p) s' := by
  simp only [guardedOps, tipOps] at hd
  split at hd
  · simp at hd
  · rename_i hguard
    rw [Bool.not_eq_true] at hguard
    obtain ⟨prev, rest, hchain, hhash, -⟩ := hs.tip
    refine hs.disconnect hf hp (fun _ l rest' hchain' => ?_) hd
    rw [hchain] at hchain'
    obtain ⟨rfl, rfl⟩ := List.cons.inj hchain'
    rw [hhash]
    exact stakeRecord_eq_false.mp hguard

/-- **The guarded operations obey the objective verdicts.** -/
theorem guardedOps_obeys (hf : tree.Faithful)
    (hbip : ∀ b, enforceBIP30 (B.depth b) (B.hash b) = true) (hn : NeutralConnect B env) :
    (guardedOps B env).Obeys B.toIndexTree (objective B) where
  connected := guardedOps_connected hbip hn
  invalid := guardedOps_invalid hn
  disconnect := guardedOps_disconnect hf

end

/-- **`AcceptBlock` obeys them**, if no local check fails. -/
theorem acceptRules_obeys {S : StakeRules} [DecidableEq α]
    {env : Node α ChainState → LocalState} {view : Node α ChainState → StakeView R} {b : α}
    (h : ∀ n1, LocalChecks R P (env n1) (B.tipView n1) (B.block b)) (n : Node α ChainState) :
    (acceptRules S B env view).Obeys (objective B) n b := by
  have heq : ∀ n1, (acceptRules S B env view).checkBlock n1 b = acceptable B b := by
    intro n1
    simp only [acceptRules, acceptable]
    rw [(h n1).checkBlock_eq]
  refine ⟨fun n1 _ hok => ?_, fun n1 e he _ hok => ?_⟩
  · show acceptable B b = .ok ()
    rw [← heq n1]
    exact hok
  · rw [heq n1, hok] at he
    simp at he

end Verdicts

/-! ## Rounds that lose no flag -/

namespace Node

section Guarded

variable {α σ : Type} [DecidableEq α] {T : IndexTree α} {ops ops' : TipOps α σ}

theorem connectBlocks_congr (h : ops'.connect = ops.connect) {old : Option α} :
    ∀ (l : List α) (n : Node α σ), connectBlocks T ops' old l n = connectBlocks T ops old l n
  | [], _ => rfl
  | b :: l, n => by
    rw [connectBlocks, connectBlocks, h]
    simp only [connectBlocks_congr h l]

theorem connectBatches_congr (h : ops'.connect = ops.connect) {old : Option α} {m : α} :
    ∀ (k : Nat) (nHeight : Int) (n : Node α σ),
    connectBatches T ops' old m k nHeight n = connectBatches T ops old m k nHeight n
  | 0, _, _ => rfl
  | k + 1, nHeight, n => by
    rw [connectBatches, connectBatches]
    simp only [connectBlocks_congr h, connectBatches_congr h k]

/-- Down to the fork, operations that agree on the blocks above it do the same. -/
theorem disconnectTo_congr {f : Option α} {keeps : σ → α → Bool}
    (hkeep : ∀ s b s', ops.disconnect s b = some s' → ∀ c, keeps s' c = keeps s c)
    (hsame : ∀ s b, keeps s b = true → ops'.disconnect s b = ops.disconnect s b) :
    ∀ (chain : List α) (s : σ),
    (∀ c ∈ chain.takeWhile fun c => decide (some c ≠ f), keeps s c = true) →
    disconnectTo ops' f chain s = disconnectTo ops f chain s
  | [], _, _ => rfl
  | t :: rest, s, h => by
    rw [disconnectTo, disconnectTo]
    by_cases ht : some t = f
    · rw [if_pos ht, if_pos ht]
    · rw [if_neg ht, if_neg ht]
      rw [List.takeWhile_cons, if_pos (by simpa using ht)] at h
      rw [hsame s t (h t (by simp))]
      cases hd : ops.disconnect s t with
      | none => rfl
      | some s' =>
        refine disconnectTo_congr hkeep hsame rest s' fun c hc => ?_
        rw [hkeep s t s' hd]
        exact h c (List.mem_cons_of_mem _ hc)

theorem findMostWorkChain_keeps : ∀ (k : Nat) (n : Node α σ),
    (findMostWorkChain T k n).1.chainActive = n.chainActive ∧
      (findMostWorkChain T k n).1.state = n.state
  | 0, _ => ⟨rfl, rfl⟩
  | k + 1, n => by
    rw [findMostWorkChain]
    split
    · exact ⟨rfl, rfl⟩
    · rename_i m _
      split
      · exact ⟨rfl, rfl⟩
      · rename_i t _
        obtain ⟨h1, h2⟩ := findMostWorkChain_keeps k (n.discard T m t)
        rw [h1, h2]
        unfold discard
        dsimp only
        split <;> exact ⟨rfl, rfl⟩

/-- **A round does the same** with operations that agree on the blocks it disconnects. -/
theorem activateRound_congr {k : σ → α → Bool} {n : Node α σ} {t : α}
    (hconn : ops'.connect = ops.connect)
    (hkeep : ∀ s b s', ops.disconnect s b = some s' → ∀ c, k s' c = k s c)
    (hsame : ∀ s b, k s b = true → ops'.disconnect s b = ops.disconnect s b)
    (hchain : n.chainActive = T.branch t)
    (hn : ∀ m, (findMostWorkChain T n.setBlockIndexCandidates.length n).2 = some m →
      ∀ c ∈ n.chainActive, c ∉ T.branch m → k n.state c = true) :
    activateRound T ops' n = activateRound T ops n := by
  obtain ⟨h1, h2⟩ := findMostWorkChain_keeps (T := T) n.setBlockIndexCandidates.length n
  unfold activateRound
  cases hf : findMostWorkChain T n.setBlockIndexCandidates.length n with
  | mk n1 r =>
    rw [hf] at h1 h2 hn
    dsimp only at h1 h2 hn
    cases r with
    | none => rfl
    | some m =>
      have hstep : activateBestChainStep T ops' n1 m = activateBestChainStep T ops n1 m := by
        obtain ⟨f, hfork, hfm, hft, _⟩ := findFork_spec (m := m) (h1.trans hchain)
        obtain ⟨-, -, hhigh⟩ := ParentTree.find?_branch_eq hfork
        have hdis : disconnectTo ops' (some f) n1.chainActive n1.state
            = disconnectTo ops (some f) n1.chainActive n1.state := by
          refine disconnectTo_congr hkeep hsame _ _ fun c hc => ?_
          rw [h1, hchain] at hc
          have hc' : c ∈ (T.branch t).takeWhile fun a => decide (a ≠ f) := by
            simpa using hc
          obtain ⟨hct, hlt⟩ := (ParentTree.mem_takeWhile_branch hft).mp hc'
          rw [h2]
          refine hn m rfl c (hchain ▸ hct) fun hcm => ?_
          have := hhigh c hcm (by simp [h1, hchain, hct])
          omega
        unfold activateBestChainStep
        rw [hfork]
        dsimp only
        rw [hdis]
        simp only [connectBatches_congr hconn]
      dsimp only
      rw [hstep]

end Guarded

end Node

/-! ## Runs -/

section Runs

variable {tree : BlockTree} {α : Type} [DecidableEq α]

/-- A call of `AcceptBlock` in which no check of local state fails. -/
def AcceptsNeutral (S : StakeRules) (B : BlockMap R P tree α) (E : AcceptRules α ChainState)
    (_ : Node α ChainState) (b : α) : Prop :=
  ∃ env view, E = acceptRules S B env view ∧
    ∀ n1, LocalChecks R P (env n1) (B.tipView n1) (B.block b)

/--
A round in which the checks of local state are neutral, and which disconnects no block
that spent a coinstake's entry to its last output: the blocks it disconnects are those off
the branch that `FindMostWorkChain` returns.
-/
def ActivatesNeutral (B : BlockMap R P tree α) (ops : TipOps α ChainState)
    (n : Node α ChainState) : Prop :=
  ∃ env, ops = tipOps B env ∧ NeutralConnect B env ∧
    ∀ m, (Node.findMostWorkChain B.toIndexTree n.setBlockIndexCandidates.length n).2 = some m →
      ∀ c ∈ n.chainActive, c ∉ B.branch m → stakeRecord n.state (B.hash c) = false

/-- The nodes a run with such calls and rounds reaches. -/
abbrev ReachesNeutral (S : StakeRules) (B : BlockMap R P tree α) : Node α ChainState → Prop :=
  Node.Reaches B.toIndexTree P.nMaxReorganizationDepth (AcceptsNeutral S B) (ActivatesNeutral B)
    (ChainState.genesis P tree)

omit [DecidableEq α] in
theorem coinsOf_genesis (B : BlockMap R P tree α) (exact : Bool) :
    CoinsOf B exact [B.root] (ChainState.genesis P tree) := by
  refine ⟨?_, _, _, chainInv_genesis exact⟩
  simp only [ChainState.genesis, List.map_cons, List.map_nil, BlockMap.entry, BlockMap.block,
    B.hash_root, B.depth_root]
  rfl

/-- A round without a loss is one of the guarded operations. -/
theorem activateRound_guarded {B : BlockMap R P tree α} {env : ChainState → α → LocalState}
    {n : Node α ChainState} {t : α} (hchain : n.chainActive = B.branch t)
    (hn : ∀ m, (Node.findMostWorkChain B.toIndexTree n.setBlockIndexCandidates.length n).2 =
      some m →
      ∀ c ∈ n.chainActive, c ∉ B.branch m → stakeRecord n.state (B.hash c) = false) :
    Node.activateRound B.toIndexTree (guardedOps B env) n
      = Node.activateRound B.toIndexTree (tipOps B env) n := by
  refine Node.activateRound_congr (k := fun s b => !stakeRecord s (B.hash b)) rfl ?_ ?_ hchain ?_
  · intro s b s' hd c
    obtain ⟨l, prev, rest, U, coins, hdis⟩ := disconnectTip_some hd
    rw [hdis.state]
    rfl
  · intro s b hb
    rw [Bool.not_eq_true'] at hb
    simp [guardedOps, hb]
  · intro m hm c hc hcm
    rw [hn m hm c hc hcm]
    rfl

/-- **The invariant, with the objective verdicts**, along every such run. -/
theorem nodeInv_objective {S : StakeRules} {B : BlockMap R P tree α} (hf : tree.Faithful)
    (hbip : ∀ b, enforceBIP30 (B.depth b) (B.hash b) = true) {n : Node α ChainState}
    (h : ReachesNeutral S B n) : Node.NodeInv B.toIndexTree (objective B) [] n := by
  induction h with
  | genesis => exact Node.nodeInv_genesis _ (coinsOf_genesis B true)
  | accept _ ha ih =>
    obtain ⟨env, view, rfl, hl⟩ := ha
    exact Node.nodeInv_acceptBlock _ ih (acceptRules_obeys hl _)
  | activate _ ha ih =>
    obtain ⟨env, rfl, hn, hkeep⟩ := ha
    obtain ⟨t, hchain, _⟩ := ih.chain
    rw [← activateRound_guarded hchain hkeep]
    exact (Node.activateRound_spec (Node.nodeInv_moves (guardedOps_obeys hf hbip hn)) ih).1

/--
**Permanent invalidity is objective** between runs of which every check comes out neutral:
a block one of them marks is on no active chain of the other.
-/
theorem failedValid_objective {S : StakeRules} {B : BlockMap R P tree α} (hf : tree.Faithful)
    (hbip : ∀ b, enforceBIP30 (B.depth b) (B.hash b) = true) {n n' : Node α ChainState}
    (h : ReachesNeutral S B n) (h' : ReachesNeutral S B n') {b : α}
    (hb : (n.status b).fFailedValid = true) : b ∉ n'.chainActive := by
  have hi := nodeInv_objective hf hbip h
  have hi' := nodeInv_objective hf hbip h'
  obtain ⟨t, ht, hgt⟩ := hi'.chain
  intro hmem
  rw [ht] at hmem
  have hlinked := hi'.linked_branch hgt.1 hmem
  have hfailed : (n.status b).failed = true := by simp [BlockStatus.failed, hb]
  rcases hi.failed_cause b hfailed with hbr | ⟨hd, href⟩
  · exact hbr.not_connects objective_consistent (hgt.2.of_mem hmem)
  · -- the block has its data in the other run, so it was acceptable there
    have hroot : b ≠ B.root := by
      rintro rfl
      obtain ⟨t0, _, hg0⟩ := hi.chain
      have := hi.linked_data _ (hi.linked_branch hg0.1 (ParentTree.root_mem_branch t0))
      rw [hd] at this
      exact absurd this (by simp)
    exact href (hi'.stored b (hi'.linked_data b hlinked) hroot)

omit [DecidableEq α] in
theorem neutralConnect_neutral (B : BlockMap R P tree α) :
    NeutralConnect B fun _ b => neutralState (B.block b) :=
  fun _ _ _ _ _ => ⟨localChecks_neutral _ _, comparesValue_neutral rfl _⟩

/-- Two runs of the same calls, each with its own local state. -/
inductive Twins (S : StakeRules) (B : BlockMap R P tree α) :
    Node α ChainState → Node α ChainState → Prop
  | genesis : Twins S B (Node.genesis B.toIndexTree (ChainState.genesis P tree))
      (Node.genesis B.toIndexTree (ChainState.genesis P tree))
  | accept {n n' : Node α ChainState} (env env' : Node α ChainState → LocalState)
      (view : Node α ChainState → StakeView R) (b : α) : Twins S B n n' →
      Twins S B
        (n.acceptBlock B.toIndexTree P.nMaxReorganizationDepth (acceptRules S B env view) b).1
        (n'.acceptBlock B.toIndexTree P.nMaxReorganizationDepth (acceptRules S B env' view) b).1
  | activate {n n' : Node α ChainState} (env env' : ChainState → α → LocalState) : Twins S B n n' →
      Twins S B (n.activateRound B.toIndexTree (tipOps B env)).1
        (n'.activateRound B.toIndexTree (tipOps B env')).1

end Runs

/-! ### A coinbase of too much, and votes that come in between -/

/-- Every target is the same, and every hash hits it. -/
def easyStake : StakeRules where
  getNextWorkRequired _ _ := 0x1e0ffff0
  farFromRequired _ _ := false
  stakeHash _ _ _ _ := 0

def noStakes : StakeView Rules.transparent where
  mapBlockIndex _ := none
  index_hash h := by simp at h
  vChain := []
  chain_height h := by simp at h
  getTransaction _ := none
  readBlock _ := none
  disk_hash h := by simp at h
  fInitialBlockDownload := true

/-- A coinbase of this value, and nothing else. -/
def coinbaseOf (nValue : Int) (b : Fork) : List CTransaction :=
  [{ minedCoinbase b.number with vout := [⟨nValue, [0x51], -10⟩] }]

def receive (vtx : Fork → List CTransaction) (env : LocalState) (b : Fork) : Node Fork ChainState :=
  ((Node.genesis (Fork.blockMap false vtx).toIndexTree
      (ChainState.genesis mainParams (Fork.tree false vtx))).acceptBlock
    (Fork.blockMap false vtx).toIndexTree mainParams.nMaxReorganizationDepth
    (acceptRules easyStake (Fork.blockMap false vtx) (fun _ => env) fun _ => noStakes) b).1

/-- Then the node chooses the best chain. -/
def receiveAndActivate (vtx : Fork → List CTransaction) (env : LocalState)
    (env' : Fork → LocalState) (b : Fork) : Node Fork ChainState :=
  ((receive vtx env b).activateRound (Fork.blockMap false vtx).toIndexTree
    (tipOps (Fork.blockMap false vtx) fun _ => env')).1

/-- 170 million coins are more than the first block may create. -/
def overpaying : Fork → List CTransaction := coinbaseOf (170000000 * COIN)

/-- The block as the verdict about it alone sees it. -/
def overpaid (b : Fork) : Node Fork ChainState :=
  receiveAndActivate overpaying (neutralState ((Fork.blockMap false overpaying).block b))
    (fun b => neutralState ((Fork.blockMap false overpaying).block b)) b

theorem chainActive_receive : ∀ b : Fork,
    (receive overpaying (neutralState ((Fork.blockMap false overpaying).block b)) b).chainActive
      = [.genesis] := by
  decide +kernel

theorem reachesNeutral_overpaid (b : Fork) :
    ReachesNeutral easyStake (Fork.blockMap false overpaying) (overpaid b) := by
  refine .activate (.accept .genesis ⟨_, _, rfl, fun _ => localChecks_neutral _ _⟩)
    ⟨_, rfl, neutralConnect_neutral _, fun m _ c hc hm => ?_⟩
  -- only genesis is active, and that is on every branch
  obtain rfl := List.mem_singleton.mp (chainActive_receive b ▸ hc)
  exact absurd (ParentTree.root_mem_branch m) hm

/-- One run marks the block, the other does not connect it. -/
theorem failedValid_objective_overpaid :
    ((overpaid .first).status .first).fFailedValid = true ∧
    .first ∉ (overpaid .side).chainActive := by
  have hmark : ((overpaid .first).status .first).fFailedValid = true := by decide +kernel
  exact ⟨hmark, failedValid_objective (storedBlocks_faithful (by decide +kernel)) (by decide)
    (reachesNeutral_overpaid .first) (reachesNeutral_overpaid .side) hmark⟩

/-- A synced node, on which a payee has the votes for the first block. -/
def votedState : LocalState :=
  { LocalState.bare 1600010000 true false with
    mapSporksActive := fun k => if k = SPORK_8_MASTERNODE_PAYMENT_ENFORCEMENT then some 0 else none
    mapMasternodeBlocks := fun h => if h = 1 then some [⟨[0x52], 6⟩] else none }

/-- The same node before the votes arrived. -/
def unvotedState : LocalState := { votedState with mapMasternodeBlocks := fun _ => none }

/--
**Votes that arrive between the two checks of a block make it invalid for good**: on the
other node they arrived later, and the block is active there.
-/
theorem failedValid_not_objective :
    ¬ ∀ (R : Rules) (P : CChainParams) (tree : BlockTree) (S : StakeRules)
        (B : BlockMap R P tree Fork) (n n' : Node Fork ChainState) (b : Fork),
      tree.Faithful → (∀ b, enforceBIP30 (B.depth b) (B.hash b) = true) → Twins S B n n' →
      (n.status b).fFailedValid = true → b ∉ n'.chainActive := by
  intro h
  have hmark : ((receiveAndActivate (coinbaseOf (10 * COIN)) unvotedState (fun _ => votedState)
      .first).status .first).fFailedValid = true := by decide +kernel
  have hactive : .first ∈ (receiveAndActivate (coinbaseOf (10 * COIN)) unvotedState
      (fun _ => unvotedState) .first).chainActive := by decide +kernel
  refine h _ _ _ easyStake (Fork.blockMap false (coinbaseOf (10 * COIN))) _ _ Fork.first
    (storedBlocks_faithful (by decide +kernel)) (by decide) ?_ hmark hactive
  exact .activate (fun _ _ => votedState) (fun _ _ => unvotedState)
    (.accept (fun _ => unvotedState) (fun _ => unvotedState) (fun _ => noStakes)
      Fork.first .genesis)

end BitBlocks
