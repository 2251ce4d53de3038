import BitBlocks.Chain.Candidacy
import BitBlocks.Chain.Converge

/-!
# What `ReconsiderBlock` restores

`InvalidateBlock` looks at all entries when it has disconnected the block, so the
candidates are complete after it. `ReconsiderBlock` considers the block and its
descendants, and then only unmarks the ancestors: one that was marked, and is as good as
the tip, stays out (`LostAncestor`).
-/

namespace BitBlocks

namespace LevelNode

open Node

variable {α σ : Type} [DecidableEq α] {T : IndexTree α} {n m : LevelNode α σ}
  {ops : TipOps α σ}

variable {b : α} {calls : List (Call α σ)}

theorem mem_insertCandidates {bs : List α} : b ∈ (insertCandidates n bs).setBlockIndexCandidates ↔
      b ∈ n.setBlockIndexCandidates ∨ b ∈ bs := by
  unfold insertCandidates
  dsimp only
  rw [List.mem_append, List.mem_filter, decide_eq_true_eq]
  by_cases hb : b ∈ n.setBlockIndexCandidates <;> simp [hb]

omit [DecidableEq α] in
theorem linked_of_eligible (h : eligible n b = true) : n.Linked b := by
  unfold eligible at h
  rw [Bool.and_eq_true, decide_eq_true_eq] at h
  exact h.2

omit [DecidableEq α] in
theorem eligible_of_unmarked (hf : (n.status b).failed = false) :
    eligible n b = true ↔ n.Linked b ∧ BLOCK_VALID_TRANSACTIONS ≤ nValid n b := by
  unfold eligible isValid
  rw [hf, Bool.and_eq_true, Bool.and_eq_true, decide_eq_true_eq, decide_eq_true_eq]
  constructor
  · rintro ⟨⟨-, hlevel⟩, hl⟩
    exact ⟨hl, hlevel⟩
  · rintro ⟨hl, hlevel⟩
    exact ⟨⟨rfl, hlevel⟩, hl⟩

/-! ## `InvalidateBlock` -/

/-- What disconnecting tips leaves: an active branch without the block, as it was. -/
structure Backed (T : IndexTree α) (b : α) (n m : LevelNode α σ) : Prop where
  later : Later n m
  unlinked : m.mapBlocksUnlinked = n.mapBlocksUnlinked
  levels : m.state.2 = n.state.2
  chain : ∃ u ∈ n.chainActive, m.chainActive = T.branch u ∧ b ∉ T.branch u
  active : ∀ a ∈ m.chainActive, m.status a = n.status a

theorem later_setFailed (n : LevelNode α σ) (t : α) (f : BlockStatus → BlockStatus)
    (hf : ∀ s, (f s).nChainTx = s.nChainTx ∧ (f s).nSequenceId = s.nSequenceId ∧
      (f s).fHaveData = s.fHaveData ∧ (s.fFailedValid = true → (f s).fFailedValid = true))
    (p : α → Bool) (chain : List α) (s : σ × Levels α) :
    Later n ({ n.setStatus t f with
      setBlockIndexCandidates := n.setBlockIndexCandidates.filter p
      chainActive := chain
      state := s } : LevelNode α σ) := by
  have hst : ∀ c, (n.setStatus t f).status c = if c = t then f (n.status t) else n.status c :=
    fun c => setStatus_status n t c f
  refine ⟨rfl, fun c => ?_, fun c => ?_, fun c => ?_, fun c hc => ?_,
    fun _ hc => List.mem_of_mem_filter hc⟩
  · show ((n.setStatus t f).status c).nChainTx = _
    rw [hst]
    split
    · rename_i h; subst h; exact (hf _).1
    · rfl
  · show ((n.setStatus t f).status c).nSequenceId = _
    rw [hst]
    split
    · rename_i h; subst h; exact (hf _).2.1
    · rfl
  · show ((n.setStatus t f).status c).fHaveData = _
    rw [hst]
    split
    · rename_i h; subst h; exact (hf _).2.2.1
    · rfl
  · show ((n.setStatus t f).status c).fFailedValid = _
    rw [hst]
    split
    · rename_i h; subst h; exact (hf _).2.2.2 hc
    · exact hc

/-- **The loop that disconnects**, if it comes to its end. -/
theorem disconnectFrom_backed (t : α) : ∀ {n m : LevelNode α σ},
    n.chainActive = T.branch t → disconnectFrom T ops b (T.branch t) n = (m, true) →
    Backed T b n m := by
  induction t using ParentTree.branch_induction (T := T.toParentTree) with
  | hroot =>
    intro n m hchain hm
    rw [ParentTree.branch_root] at hchain hm
    rw [disconnectFrom] at hm
    split at hm
    · -- genesis cannot be disconnected
      dsimp only at hm
      rw [T.parent_root] at hm
      exact absurd (Prod.mk.inj hm).2 (by simp)
    · rename_i hb
      obtain rfl := (Prod.mk.inj hm).1
      exact ⟨Later.refl n, rfl, rfl, ⟨T.root, by rw [hchain]; simp,
        by rw [hchain, ParentTree.branch_root], by rw [ParentTree.branch_root]; exact hb⟩,
        fun _ _ => rfl⟩
  | hchild t p hp ih =>
    intro n m hchain hm
    rw [ParentTree.branch_parent hp, disconnectFrom] at hm
    split at hm
    · dsimp only at hm
      rw [hp, if_neg (by simp)] at hm
      split at hm
      · exact absurd (Prod.mk.inj hm).2 (by simp)
      · rename_i state hstate
        have hlevels : state.2 = n.state.2 := by
          obtain ⟨s', -, rfl⟩ := Option.map_eq_some_iff.mp hstate
          rfl
        have hback := ih rfl hm
        obtain ⟨u, hu, hmu, hbu⟩ := hback.chain
        have hne : ∀ a ∈ T.branch p, a ≠ t := by
          rintro a ha rfl
          have := T.depth_parent hp
          rcases ParentTree.depth_le_of_mem ha with heq | hlt
          · rw [heq] at this
            omega
          · omega
        have hmark := later_setFailed n t (fun s => { s with fFailedChild := true })
          (fun _ => ⟨rfl, rfl, rfl, fun h => h⟩) (fun c => decide (c ≠ t)) (T.branch p) state
        refine ⟨hmark.trans hback.later, hback.unlinked, hback.levels.trans hlevels,
          ⟨u, ?_, hmu, hbu⟩,
          fun a ha => ?_⟩
        · rw [hchain]
          exact ParentTree.mem_branch_trans (ParentTree.parent_mem_branch hp) hu
        · have hat : a ≠ t := hne a (ParentTree.mem_branch_trans hu (hmu ▸ ha))
          rw [hback.active a ha]
          exact (setStatus_status n t a fun s => { s with fFailedChild := true }).trans (if_neg hat)
    · rename_i hb
      obtain rfl := (Prod.mk.inj hm).1
      rw [← ParentTree.branch_parent hp] at hb
      exact ⟨Later.refl n, rfl, rfl,
        ⟨t, by rw [hchain]; exact ParentTree.self_mem_branch t, hchain, hb⟩, fun _ _ => rfl⟩

/-- **`InvalidateBlock`** leaves the candidates complete, if it goes through. -/
theorem Sound.invalidateBlock (h : Sound T [] n)
    (hr : (LevelNode.invalidateBlock T ops n b).2 = true) :
    Sound T [] (LevelNode.invalidateBlock T ops n b).1 ∧
      Complete T (LevelNode.invalidateBlock T ops n b).1 := by
  obtain ⟨t, ht, hg⟩ := h.inv.chain
  unfold LevelNode.invalidateBlock at hr ⊢
  dsimp only at hr ⊢
  rw [ht] at hr ⊢
  -- the block is marked, and the tips above it are disconnected
  obtain ⟨n1, hn1⟩ : ∃ n1 : LevelNode α σ, n1 =
      { n.setStatus b fun s => { s with fFailedValid := true } with
        setBlockIndexCandidates := n.setBlockIndexCandidates.filter fun c => decide (c ≠ b) } :=
    ⟨_, rfl⟩
  rw [← hn1] at hr ⊢
  cases hdis : disconnectFrom T ops b (T.branch t) n1 with
  | mk n2 ok =>
    rw [hdis] at hr
    cases ok with
    | false => exact absurd hr (by simp)
    | true =>
      dsimp only
      have hlater1 : Later n n1 := by
        rw [hn1]
        exact later_setFailed n b (fun s => { s with fFailedValid := true })
          (fun _ => ⟨rfl, rfl, rfl, fun _ => rfl⟩) (fun c => decide (c ≠ b)) n.chainActive n.state
      have hback := disconnectFrom_backed t (by rw [hn1]; exact ht) hdis
      have hlater := hlater1.trans hback.later
      obtain ⟨u, hu, hchain, hbu⟩ := hback.chain
      have hut : u ∈ T.branch t := by
        rw [hn1] at hu
        exact ht ▸ hu
      have hs : Sound T [] (insertCandidates n2 (n2.mapBlockIndex.filter fun c =>
          eligible n2 c && n2.tip.all fun tip => !n2.workLess T c tip)) := by
        refine h.reflag (fun c => ⟨hlater.chainTx c, hlater.data c⟩) hlater.index
          (hback.unlinked.trans (by rw [hn1]; rfl)) (fun c => ?_)
          ⟨u, hchain, h.inv.linked_branch hg.1 hut⟩ (fun c hc => ?_) fun c hc => ?_
        · show n.state.2 c ≤ n2.state.2 c
          rw [hback.levels, hn1]
          exact Nat.le_refl _
        · -- what is still active is not the block
          show (n2.status c).failed = false
          have hcu : c ∈ T.branch u := hchain ▸ hc
          have hcb : c ≠ b := fun hcb => hbu (hcb ▸ hcu)
          rw [hback.active c hc, hn1]
          have hst : (n.setStatus b fun s => { s with fFailedValid := true }).status c =
              n.status c := (setStatus_status n b c _).trans (if_neg hcb)
          exact (congrArg _ hst).trans (h.active c (ht ▸ ParentTree.mem_branch_trans hut hcu))
        · rcases mem_insertCandidates.mp hc with hc | hc
          · exact h.inv.candidates_linked c (hlater.candidates hc)
          · have he := (Bool.and_eq_true_iff.mp (List.mem_filter.mp hc).2).1
            exact (hlater.linked c).mp (linked_of_eligible he)
      refine ⟨hs, fun c hc he hw => mem_insertCandidates.mpr (Or.inr ?_)⟩
      refine List.mem_filter.mpr ⟨hc, Bool.and_eq_true_iff.mpr ⟨he, ?_⟩⟩
      have htip : n2.tip = some u := tip_branch hchain
      rw [htip, Option.all_some, Bool.not_eq_true']
      exact hw u htip

/-! ## `ReconsiderBlock` -/

/--
An ancestor that was marked, could be a better tip, and is no candidate: `ReconsiderBlock`
unmarks it and does not look at it again.
-/
def LostAncestor (T : IndexTree α) (n : LevelNode α σ) (b a : α) : Prop :=
  a ∈ T.branch b ∧ a ≠ b ∧ (n.status a).failed = true ∧ n.Linked a ∧
    BLOCK_VALID_TRANSACTIONS ≤ nValid n a ∧ NotWorse T n a ∧ a ∉ n.setBlockIndexCandidates

theorem reconsiderBlock_status (b c : α) : (reconsiderBlock T n b).status c =
    if c ∈ T.branch b ∨ (c ∈ n.mapBlockIndex ∧ isValid n BLOCK_VALID_TRANSACTIONS c = false ∧
      b ∈ T.branch c) then (n.status c).clearFailed else n.status c := by
  have hmem : c ∈ (n.mapBlockIndex.filter fun d =>
        !isValid n BLOCK_VALID_TRANSACTIONS d && decide (b ∈ T.branch d)) ↔
      c ∈ n.mapBlockIndex ∧ isValid n BLOCK_VALID_TRANSACTIONS c = false ∧ b ∈ T.branch c := by
    rw [List.mem_filter, Bool.and_eq_true, Bool.not_eq_true', decide_eq_true_eq]
  have hdesc : (reconsiderDescendants T n b).status c =
      if c ∈ n.mapBlockIndex ∧ isValid n BLOCK_VALID_TRANSACTIONS c = false ∧ b ∈ T.branch c then
        (n.status c).clearFailed else n.status c := if_congr hmem rfl rfl
  show (if c ∈ T.branch b then ((reconsiderDescendants T n b).status c).clearFailed
    else (reconsiderDescendants T n b).status c) = _
  rw [hdesc]
  by_cases h1 : c ∈ T.branch b
  · rw [if_pos h1, if_pos (Or.inl h1)]
    split <;> rfl
  · rw [if_neg h1]
    exact if_congr (by simp [h1]) rfl rfl

theorem reconsiderBlock_same (b c : α) :
    ((reconsiderBlock T n b).status c).nChainTx = (n.status c).nChainTx ∧
      ((reconsiderBlock T n b).status c).fHaveData = (n.status c).fHaveData ∧
      ((reconsiderBlock T n b).status c).nSequenceId = (n.status c).nSequenceId := by
  rw [reconsiderBlock_status]
  split <;> exact ⟨rfl, rfl, rfl⟩

theorem mem_reconsiderBlock {c : α} : c ∈ (reconsiderBlock T n b).setBlockIndexCandidates ↔
      c ∈ n.setBlockIndexCandidates ∨ (c ∈ n.mapBlockIndex ∧
        isValid n BLOCK_VALID_TRANSACTIONS c = false ∧ b ∈ T.branch c ∧ n.Linked c ∧
        BLOCK_VALID_TRANSACTIONS ≤ nValid n c ∧
        ∀ tip, n.tip = some tip → n.workLess T tip c = true) := by
  show c ∈ (reconsiderDescendants T n b).setBlockIndexCandidates ↔ _
  unfold reconsiderDescendants
  dsimp only
  -- the node with the flags of the descendants cleared
  obtain ⟨n1, hn1⟩ : ∃ n1 : LevelNode α σ, n1 = { n with status := fun d =>
      if d ∈ (n.mapBlockIndex.filter fun e => !isValid n BLOCK_VALID_TRANSACTIONS e &&
        decide (b ∈ T.branch e)) then (n.status d).clearFailed else n.status d } := ⟨_, rfl⟩
  rw [← hn1, mem_insertCandidates]
  have hless : ∀ d e, n1.workLess T d e = n.workLess T d e := by
    intro d e
    rw [hn1]
    exact workLess_congr (by dsimp only; split <;> rfl) (by dsimp only; split <;> rfl)
  have hcand : n1.setBlockIndexCandidates = n.setBlockIndexCandidates := by rw [hn1]
  have htip : n1.tip = n.tip := by rw [hn1]; rfl
  have hvalid : nValid n1 c = nValid n c := by rw [hn1]; rfl
  rw [hcand, htip]
  refine or_congr Iff.rfl ?_
  rw [List.mem_filter, Bool.and_eq_true]
  have hcleared : c ∈ (n.mapBlockIndex.filter fun e => !isValid n BLOCK_VALID_TRANSACTIONS e &&
      decide (b ∈ T.branch e)) → n1.status c = (n.status c).clearFailed := by
    intro hc
    rw [hn1]
    exact if_pos hc
  have heligible : c ∈ (n.mapBlockIndex.filter fun e => !isValid n BLOCK_VALID_TRANSACTIONS e &&
      decide (b ∈ T.branch e)) → (eligible n1 c = true ↔
        n.Linked c ∧ BLOCK_VALID_TRANSACTIONS ≤ nValid n c) := by
    intro hc
    rw [eligible_of_unmarked (by rw [hcleared hc]; rfl), hvalid, Linked, hcleared hc]
    rfl
  have hall : (n.tip.all fun tip => n1.workLess T tip c) = true ↔
      ∀ tip, n.tip = some tip → n.workLess T tip c = true := by
    cases n.tip with
    | none => simp
    | some tip => simp [hless]
  have hmem : c ∈ (n.mapBlockIndex.filter fun e => !isValid n BLOCK_VALID_TRANSACTIONS e &&
      decide (b ∈ T.branch e)) ↔ c ∈ n.mapBlockIndex ∧
        isValid n BLOCK_VALID_TRANSACTIONS c = false ∧ b ∈ T.branch c := by
    rw [List.mem_filter, Bool.and_eq_true, Bool.not_eq_true', decide_eq_true_eq]
  rw [hall]
  constructor
  · rintro ⟨hc, he, hbest⟩
    obtain ⟨hl, hlevel⟩ := (heligible hc).mp he
    obtain ⟨h1, h2, h3⟩ := hmem.mp hc
    exact ⟨h1, h2, h3, hl, hlevel, hbest⟩
  · rintro ⟨h1, h2, h3, hl, hlevel, hbest⟩
    have hc := hmem.mpr ⟨h1, h2, h3⟩
    exact ⟨hc, (heligible hc).mpr ⟨hl, hlevel⟩, hbest⟩

theorem reconsiderBlock_workLess (b c d : α) :
    (reconsiderBlock T n b).workLess T c d = n.workLess T c d :=
  workLess_congr (reconsiderBlock_same b c).2.2 (reconsiderBlock_same b d).2.2

theorem Sound.reconsiderBlock (h : Sound T [] n) (b : α) :
    Sound T [] (LevelNode.reconsiderBlock T n b) := by
  obtain ⟨t, ht, hg⟩ := h.inv.chain
  refine h.reflag (fun c => ⟨(reconsiderBlock_same b c).1, (reconsiderBlock_same b c).2.1⟩) rfl rfl
    (fun _ => Nat.le_refl _) ⟨t, ht, hg.1⟩ (fun c hc => ?_) fun c hc => ?_
  · rw [reconsiderBlock_status]
    split
    · rfl
    · exact h.active c hc
  · rcases mem_reconsiderBlock.mp hc with hc | ⟨-, -, -, hl, -⟩
    · exact h.inv.candidates_linked c hc
    · exact hl

/-- **`ReconsiderBlock`** keeps the candidates complete iff it loses no ancestor. -/
theorem Complete.reconsiderBlock_iff (h : Sound T [] n) (hc : Complete T n)
    (hb : b ∈ n.mapBlockIndex) :
    Complete T (LevelNode.reconsiderBlock T n b) ↔ ∀ a, ¬ LostAncestor T n b a := by
  have hs := h.reconsiderBlock b
  have hlinked : ∀ c, (LevelNode.reconsiderBlock T n b).Linked c ↔ n.Linked c := fun c => by
    unfold Linked
    rw [(reconsiderBlock_same b c).1]
  have hworse : ∀ c, NotWorse T (LevelNode.reconsiderBlock T n b) c ↔ NotWorse T n c := fun c =>
    forall_congr' fun tip => imp_congr Iff.rfl (by rw [reconsiderBlock_workLess])
  rw [hs.complete_iff]
  constructor
  · rintro hcomplete a ⟨ha, hab, -, hl, -, hw, hnot⟩
    have hclear : ((LevelNode.reconsiderBlock T n b).status a).failed = false := by
      rw [reconsiderBlock_status, if_pos (Or.inl ha)]
      rfl
    rcases mem_reconsiderBlock.mp (hcomplete a ((hlinked a).mpr hl) hclear ((hworse a).mpr hw))
      with hmem | ⟨-, -, hba, -⟩
    · exact hnot hmem
    · -- an ancestor is not a descendant as well
      rcases ParentTree.depth_le_of_mem ha with heq | hlt
      · exact hab heq
      · rcases ParentTree.depth_le_of_mem hba with heq | hlt'
        · exact hab heq.symm
        · omega
  · intro hlost c hl hf hw
    rw [hlinked] at hl
    rw [hworse] at hw
    have hlevel := h.level c (h.inv.linked_data c hl)
    have hknown := h.inv.known c (h.inv.linked_data c hl)
    refine mem_reconsiderBlock.mpr ?_
    cases hfn : (n.status c).failed with
    | false => exact Or.inl (h.complete_iff.mp hc c hl hfn hw)
    | true =>
      have hinvalid : isValid n BLOCK_VALID_TRANSACTIONS c = false := by
        unfold isValid
        rw [hfn]
        rfl
      by_cases hbc : b ∈ T.branch c
      · -- a descendant that is as good as the tip is better, since the tip is not marked
        refine Or.inr ⟨hknown, hinvalid, hbc, hl, hlevel, fun tip htip => ?_⟩
        by_contra hnot
        have heq := workLess_total (hw tip htip) (Bool.not_eq_true _ ▸ hnot)
        obtain ⟨t, ht, -⟩ := h.inv.chain
        have htt : t = tip := Option.some.inj ((tip_branch ht).symm.trans htip)
        have hact := h.active c (by rw [ht, heq, ← htt]; exact ParentTree.self_mem_branch t)
        rw [hfn] at hact
        exact absurd hact (by simp)
      · by_cases hcb : c ∈ T.branch b
        · by_contra hnot
          refine hlost c ⟨hcb, ?_, hfn, hl, hlevel, hw, fun hmem => hnot (Or.inl hmem)⟩
          rintro rfl
          exact hbc (ParentTree.self_mem_branch c)
        · -- the other entries keep their flags
          rw [reconsiderBlock_status, if_neg (by simp [hcb, hbc]), hfn] at hf
          exact absurd hf (by simp)

/-! ## Runs -/

/--
An `InvalidateBlock` that disconnects all it has to, and an `ActivateBestChain` that comes
to its end and rejects no block that was, or has become, active.
-/
def GoesThrough (T : IndexTree α) (n : LevelNode α σ) : Call α σ → Prop
  | .invalidateBlock ops b =>
    b ∈ n.mapBlockIndex → (LevelNode.invalidateBlock T ops n b).2 = true
  | .activateBestChain ops fuel =>
    (∃ m, n.activateBestChain T ops.raising fuel = some (m, true)) ∧ Steady T ops n
  | _ => True

def AllGoThrough (T : IndexTree α) : LevelNode α σ → List (Call α σ) → Prop
  | _, [] => True
  | n, c :: calls => GoesThrough T n c ∧ AllGoThrough T (next T n c) calls

theorem Sound.next (h : Sound T [] n) (hc : Complete T n) {c : Call α σ}
    (hgo : GoesThrough T n c) : Sound T [] (LevelNode.next T n c) ∧
      ((∀ b, c ≠ .reconsiderBlock b) → Complete T (LevelNode.next T n c)) := by
  have hkeep : ∀ {m : LevelNode α σ}, Sound T [] m ∧ Complete T m →
      Sound T [] m ∧ ((∀ b, c ≠ .reconsiderBlock b) → Complete T m) :=
    fun hm => ⟨hm.1, fun _ => hm.2⟩
  cases c with
  | addToBlockIndex b =>
    rw [LevelNode.next]
    split
    · rename_i hb
      exact hkeep (h.addToBlockIndex hc hb.1 BLOCK_VALID_TREE)
    · exact hkeep ⟨h, hc⟩
  | receivedBlockTransactions b =>
    rw [LevelNode.next]
    split
    · rename_i hb
      exact hkeep (h.receivedBlockTransactions hc hb.1 hb.2.1 hb.2.2.1 hb.2.2.2)
    · exact hkeep ⟨h, hc⟩
  | checkFailed b =>
    rw [LevelNode.next]
    split
    · rename_i hb
      exact hkeep (h.checkFailed hc hb.2)
    · exact hkeep ⟨h, hc⟩
  | invalidateBlock ops b =>
    rw [LevelNode.next]
    split
    · rename_i hb
      exact hkeep (h.invalidateBlock (hgo hb))
    · exact hkeep ⟨h, hc⟩
  | reconsiderBlock b =>
    rw [LevelNode.next]
    split
    · exact ⟨h.reconsiderBlock b, fun hne => absurd rfl (hne b)⟩
    · exact hkeep ⟨h, hc⟩
  | activateBestChain ops fuel =>
    obtain ⟨⟨m, hm⟩, hsteady⟩ := hgo
    rw [LevelNode.next, hm]
    exact hkeep (h.activateBestChain hc hsteady hm)

theorem sound_genesis (T : IndexTree α) (state : σ) :
    Sound T [] (genesis T state) ∧ Complete T (genesis T state) := by
  have hst : ∀ b, (genesis T state).status b = if b = T.root then
      { nChainTx := T.nTx T.root, nSequenceId := 1, fHaveData := true } else {} := by
    intro b
    by_cases hb : b = T.root
    · subst hb; simp [genesis, Node.genesis]
    · simp [genesis, Node.genesis, hb]
  have hdata : ∀ b, ((genesis T state).status b).fHaveData = true → b = T.root := by
    intro b hb
    rw [hst] at hb
    by_contra hne
    rw [if_neg hne] at hb
    exact absurd hb (by simp)
  have hinv := nodeInv_genesis (T := T) (V := noVerdicts)
    (state, Function.update (fun _ => 0) T.root BLOCK_VALID_TRANSACTIONS) trivial
  refine sound_and_complete_iff.mpr ⟨hinv, fun b a hb hp _ => ?_, fun b hb => ?_, fun b hb => ?_,
    fun b hl _ _ => ?_⟩
  · rw [hdata b hb, T.parent_root] at hp
    exact absurd hp (by simp)
  · rw [List.mem_singleton.mp hb, hst, if_pos rfl]
    rfl
  · rw [hdata b hb]
    show _ ≤ Function.update (fun _ => 0) T.root BLOCK_VALID_TRANSACTIONS T.root
    rw [Function.update_self]
  · rw [hdata b (hinv.linked_data b hl)]
    exact List.mem_singleton.mpr rfl

theorem afterCalls_concat (state : σ) (calls : List (Call α σ)) (c : Call α σ) :
    afterCalls T state (calls ++ [c]) = next T (afterCalls T state calls) c := by
  rw [afterCalls, List.foldl_append]
  rfl

theorem goesThrough_of_concat (state : σ) (hgo : AllGoThrough T (genesis T state) calls) :
    ∀ past c, past ++ [c] <+: calls → GoesThrough T (afterCalls T state past) c := by
  have hgen : ∀ (calls : List (Call α σ)) (n : LevelNode α σ), AllGoThrough T n calls →
      ∀ past c, past ++ [c] <+: calls → GoesThrough T (past.foldl (next T) n) c := by
    intro calls
    induction calls with
    | nil =>
      intro n _ past c hpre
      exact absurd (List.prefix_nil.mp hpre) (by simp)
    | cons d calls ih =>
      intro n hn past c hpre
      cases past with
      | nil =>
        obtain ⟨rfl, -⟩ := List.cons_prefix_cons.mp hpre
        exact hn.1
      | cons e past =>
        obtain ⟨rfl, hrest⟩ := List.cons_prefix_cons.mp hpre
        exact ih _ hn.2 past c hrest
  exact hgen calls _ hgo

/--
**The candidates along a run**: they are complete after every call iff no `ReconsiderBlock`
loses an ancestor.
-/
theorem complete_iff (state : σ) (hgo : AllGoThrough T (genesis T state) calls) :
    (∀ past, past <+: calls → Sound T [] (afterCalls T state past) ∧
        Complete T (afterCalls T state past)) ↔
      ∀ past c, past ++ [c] <+: calls → ∀ b, c = .reconsiderBlock b →
        b ∈ (afterCalls T state past).mapBlockIndex →
          ∀ a, ¬ LostAncestor T (afterCalls T state past) b a := by
  refine Machine.always_iff (P := fun past => Sound T [] (afterCalls T state past) ∧
      Complete T (afterCalls T state past))
    (C := fun past c => ∀ b, c = .reconsiderBlock b → b ∈ (afterCalls T state past).mapBlockIndex →
        ∀ a, ¬ LostAncestor T (afterCalls T state past) b a)
    (sound_genesis T state) calls fun past c hpre hpast => ?_
  obtain ⟨h, hc⟩ := hpast
  obtain ⟨hs, hother⟩ := h.next hc (goesThrough_of_concat state hgo past c hpre)
  rw [afterCalls_concat]
  constructor
  · rintro ⟨-, hcomplete⟩ b rfl hb
    rw [next, if_pos hb] at hcomplete
    exact (Complete.reconsiderBlock_iff h hc hb).mp hcomplete
  · intro hlost
    refine ⟨hs, ?_⟩
    by_cases hrec : ∃ b, c = .reconsiderBlock b
    · obtain ⟨b, rfl⟩ := hrec
      rw [next]
      split
      · rename_i hb
        exact (Complete.reconsiderBlock_iff h hc hb).mpr (hlost b rfl hb)
      · exact hc
    · exact hother fun b hb => hrec ⟨b, hb⟩

/--
**Reconsidering restores candidacy.** In every run whose `InvalidateBlock` and
`ActivateBestChain` calls go through: after each `ReconsiderBlock` every entry that is not
marked, linked, valid and as good as the tip is a candidate, iff no `ReconsiderBlock` finds
an ancestor that was marked and kept out.
-/
theorem reconsider_restores (T : IndexTree α) (state : σ) (calls : List (Call α σ))
    (hgo : AllGoThrough T (genesis T state) calls) :
    (∀ past b, past ++ [.reconsiderBlock b] <+: calls →
        Complete T (afterCalls T state (past ++ [.reconsiderBlock b]))) ↔
      ∀ past b, past ++ [.reconsiderBlock b] <+: calls →
        b ∈ (afterCalls T state past).mapBlockIndex →
          ∀ a, ¬ LostAncestor T (afterCalls T state past) b a := by
  constructor
  · intro hafter past b hpre hb
    -- up to here the candidates were complete
    have hpast : ∀ past, past <+: calls → Sound T [] (afterCalls T state past) ∧
        Complete T (afterCalls T state past) := by
      intro past hpre
      induction past using List.reverseRecOn with
      | nil => exact sound_genesis T state
      | append_singleton past c ih =>
        obtain ⟨h, hc⟩ := ih ((List.prefix_append past [c]).trans hpre)
        obtain ⟨hs, hother⟩ := h.next hc (goesThrough_of_concat state hgo past c hpre)
        rw [← afterCalls_concat] at hs hother
        refine ⟨hs, ?_⟩
        by_cases hrec : ∃ b, c = .reconsiderBlock b
        · obtain ⟨b, rfl⟩ := hrec
          exact hafter past b hpre
        · exact hother fun b hb => hrec ⟨b, hb⟩
    exact (complete_iff state hgo).mp hpast past _ hpre b rfl hb
  · intro hlost past b hpre
    exact ((complete_iff state hgo).mpr fun past c hpre b hc => by
      subst hc
      exact hlost past b hpre) _ hpre |>.2

/-! ### An ancestor that stays out -/

omit [DecidableEq α] in
theorem steady_fixedOps (n : LevelNode α Unit) : Steady T (fixedOps fun _ => true) n :=
  ⟨fixedVerdicts fun _ => true, fixedVerdicts_consistent _, fixedOps_obeys _, trivial,
    fun _ _ _ => rfl⟩

omit [DecidableEq α] in
theorem ends_of_map {r : Option (LevelNode α σ × Bool)} (h : r.map Prod.snd = some true) :
    ∃ m, r = some (m, true) := by
  obtain ⟨⟨m, ok⟩, rfl, hok⟩ := Option.map_eq_some_iff.mp h
  obtain rfl : ok = true := hok
  exact ⟨m, rfl⟩

/--
Block `1` is stored and active when the operator invalidates it; of block `2`, which comes
after it, only the header is known.
-/
def invalidated : List (Call Nat Unit) :=
  [.addToBlockIndex 1, .receivedBlockTransactions 1, .activateBestChain (fixedOps fun _ => true) 5,
    .addToBlockIndex 2, .invalidateBlock (fixedOps fun _ => true) 1]

theorem invalidated_goesThrough (b : Nat) : AllGoThrough (twoBranches 2)
    (genesis (twoBranches 2) ()) (invalidated ++ [.reconsiderBlock b]) :=
  ⟨trivial, trivial, ⟨ends_of_map (by decide), steady_fixedOps _⟩, trivial, fun _ => by decide,
    trivial, trivial⟩

/--
Reconsidering block `2` unmarks block `1`, which is stored and better than genesis, and
leaves it out of the candidates.
-/
theorem reconsider_restores_not : ¬ ∀ (past : List (Call Nat Unit)) (b : Nat),
    AllGoThrough (twoBranches 2) (genesis (twoBranches 2) ()) (past ++ [.reconsiderBlock b]) →
    Complete (twoBranches 2) (afterCalls (twoBranches 2) () (past ++ [.reconsiderBlock b])) := by
  intro hall
  have hcomplete := hall invalidated 2 (invalidated_goesThrough 2)
  have hworse : NotWorse (twoBranches 2)
      (afterCalls (twoBranches 2) () (invalidated ++ [.reconsiderBlock 2])) 1 := by
    intro tip htip
    obtain rfl : 0 = tip := Option.some.inj (Eq.trans (by decide) htip)
    decide
  exact absurd (hcomplete 1 (by decide) (by decide) hworse) (by decide)

/-- Reconsidering the block that was invalidated loses nothing. -/
theorem reconsider_restores_block : (∀ past b, past ++ [.reconsiderBlock b] <+:
      invalidated ++ [.reconsiderBlock 1] →
        Complete (twoBranches 2) (afterCalls (twoBranches 2) () (past ++ [.reconsiderBlock b]))) ↔
      ∀ past b, past ++ [.reconsiderBlock b] <+: invalidated ++ [.reconsiderBlock 1] →
        b ∈ (afterCalls (twoBranches 2) () past).mapBlockIndex →
          ∀ a, ¬ LostAncestor (twoBranches 2) (afterCalls (twoBranches 2) () past) b a :=
  reconsider_restores (twoBranches 2) () _ (invalidated_goesThrough 1)

end LevelNode

end BitBlocks
