import BitBlocks.Chain.Select

/-!
# The invariant of the block index

What ties the candidate set, the failure flags, `mapBlocksUnlinked` and the active
chain together (`NodeInv`), in every state that `AcceptBlock` and rounds of
`ActivateBestChain` reach.

The invariant is stated against a `Verdicts`: which blocks connect, which break, which
are stored and which are refused. A development that only cares about storage takes
`True` for the rest; chain selection takes a fixed verdict for each block. The heart
of the matter is `cover`: no linked entry whose whole branch connects is better than
every candidate of that kind.

While `ReceivedBlockTransactions` works off its queue the links of the index are
incomplete; `queue` is the part that is still missing, and it is empty otherwise.
-/

namespace BitBlocks

/-- What is known, or assumed, of the blocks of a tree. -/
structure Verdicts (α σ : Type) where
  /-- `ConnectTip` made the block the tip. -/
  connects : α → Prop
  /-- `ConnectTip` found it invalid. -/
  broken : α → Prop
  /-- It passed what `AcceptBlock` checks before it stores a block. -/
  stored : α → Prop
  /-- It failed the checks after which `AcceptBlock` marks it. -/
  refused : α → Prop
  /-- The validation state is right for this active chain. -/
  valid : List α → σ → Prop

/-- A block does not both connect and break. -/
def Verdicts.Consistent {α σ : Type} (V : Verdicts α σ) : Prop := ∀ b, V.connects b → ¬ V.broken b

/-- `ConnectTip` and `DisconnectTip` act as the verdicts say. -/
structure TipOps.Obeys {α σ : Type} (T : IndexTree α) (ops : TipOps α σ) (V : Verdicts α σ) :
    Prop where
  connected : ∀ {t b s s'}, V.valid (T.branch t) s → T.parent b = some t →
    ops.connect s b = .connected s' → V.connects b ∧ V.valid (T.branch b) s'
  invalid : ∀ {t b s}, V.valid (T.branch t) s → T.parent b = some t →
    ops.connect s b = .invalid false → V.broken b
  disconnect : ∀ {t p s s'}, V.valid (T.branch t) s → T.parent t = some p →
    ops.disconnect s t = some s' → V.valid (T.branch p) s'

/-- A call of `AcceptBlock` stores and refuses as the verdicts say. -/
structure AcceptRules.Obeys {α σ : Type} (E : AcceptRules α σ) (V : Verdicts α σ) (n : Node α σ)
    (b : α) : Prop where
  stored : ∀ n1, E.checkWork n b = .ok () → E.checkBlock n1 b = .ok () → V.stored b
  refused : ∀ n1 e, E.checkBlock n1 b = .error e → e.isPermanent = true → V.refused b

namespace Node

variable {α σ : Type} [DecidableEq α] {T : IndexTree α} {V : Verdicts α σ}

/-- The entry and all its ancestors have their transactions. -/
def Linked (n : Node α σ) (b : α) : Prop := (n.status b).nChainTx ≠ 0

def Connects (T : IndexTree α) (V : Verdicts α σ) (b : α) : Prop :=
  ∀ a ∈ T.branch b, a ≠ T.root → V.connects a

def Broken (T : IndexTree α) (V : Verdicts α σ) (b : α) : Prop :=
  ∃ a ∈ T.branch b, a ≠ T.root ∧ V.broken a

/-- A linked entry whose branch connects: one that could be the tip. -/
def Good (T : IndexTree α) (V : Verdicts α σ) (n : Node α σ) (b : α) : Prop :=
  n.Linked b ∧ Connects T V b

/-- Nothing that could be the tip is better than every candidate that could. -/
def Covered (T : IndexTree α) (V : Verdicts α σ) (n : Node α σ) : Prop :=
  ∀ b, n.Good T V b → ∃ y ∈ n.setBlockIndexCandidates, n.Good T V y ∧ n.workLess T y b = false

/-- The invariant, with `queue` still to be linked. -/
structure NodeInv (T : IndexTree α) (V : Verdicts α σ) (queue : List α) (n : Node α σ) : Prop where
  chain : ∃ t, n.chainActive = T.branch t ∧ n.Good T V t
  valid : V.valid n.chainActive n.state
  known : ∀ b, (n.status b).fHaveData = true → b ∈ n.mapBlockIndex
  parent_known : ∀ b a, (n.status b).fHaveData = true → T.parent b = some a → a ∈ n.mapBlockIndex
  linked_data : ∀ b, n.Linked b → (n.status b).fHaveData = true
  linked_parent : ∀ b a, n.Linked b → T.parent b = some a → n.Linked a
  /-- A block with data and a linked parent is linked, or about to be. -/
  data_linked : ∀ b, (n.status b).fHaveData = true → (∀ a, T.parent b = some a → n.Linked a) →
    n.Linked b ∨ b ∈ queue
  pending : ∀ b ∈ queue, (n.status b).fHaveData = true ∧ ¬ n.Linked b ∧
    ∀ a, T.parent b = some a → n.Linked a
  queue_nodup : queue.Nodup
  unlinked : ∀ e ∈ n.mapBlocksUnlinked, T.parent e.2 = some e.1 ∧
    (n.status e.2).fHaveData = true ∧ ¬ n.Linked e.2 ∧ e.2 ∉ queue
  unlinked_nodup : n.mapBlocksUnlinked.Nodup
  /-- A block that waits for its parent will be found, if the parent can still come. -/
  waiting : ∀ b a, (n.status b).fHaveData = true → T.parent b = some a → ¬ n.Linked a →
    (a, b) ∈ n.mapBlocksUnlinked ∨ ((n.status a).failed = true ∧ (n.status a).fHaveData = false)
  candidates_linked : ∀ b ∈ n.setBlockIndexCandidates, n.Linked b
  /-- A failed entry has a broken branch, or never gets its data. -/
  failed_cause : ∀ b, (n.status b).failed = true → Broken T V b ∨
    ((n.status b).fHaveData = false ∧ V.refused b)
  stored : ∀ b, (n.status b).fHaveData = true → b ≠ T.root → V.stored b
  cover : V.Consistent → n.Covered T V

section

omit [DecidableEq α]

theorem Broken.not_connects (hV : V.Consistent) {b : α} (h : Broken T V b) : ¬ Connects T V b := by
  obtain ⟨a, ha, hr, hb⟩ := h
  exact fun hc => hV a (hc a ha hr) hb

theorem Broken.of_mem {a b : α} (h : Broken T V a) (ha : a ∈ T.branch b) : Broken T V b := by
  obtain ⟨c, hc, hr, hb⟩ := h
  exact ⟨c, ParentTree.mem_branch_trans ha hc, hr, hb⟩

theorem Connects.of_mem {a b : α} (h : Connects T V b) (ha : a ∈ T.branch b) : Connects T V a :=
  fun c hc hr => h c (ParentTree.mem_branch_trans ha hc) hr

theorem Connects.child {b t : α} (h : Connects T V t) (hp : T.parent b = some t)
    (hb : V.connects b) : Connects T V b := by
  intro a ha hr
  rcases (ParentTree.mem_branch_parent hp).mp ha with rfl | ha
  · exact hb
  · exact h a ha hr

end

variable {queue : List α} {n : Node α σ}

omit [DecidableEq α] in
theorem NodeInv.linked_branch (h : NodeInv T V queue n) {b a : α} (hb : n.Linked b)
    (ha : a ∈ T.branch b) : n.Linked a := by
  induction b using ParentTree.branch_induction (T := T.toParentTree) with
  | hroot =>
    rw [ParentTree.branch_root, List.mem_singleton] at ha
    rw [ha]
    exact hb
  | hchild b p hp ih =>
    rcases (ParentTree.mem_branch_parent hp).mp ha with rfl | ha
    · exact hb
    · exact ih (h.linked_parent b p hb hp) ha

omit [DecidableEq α] in
theorem NodeInv.broken_of_failed (h : NodeInv T V queue n) {b : α} (hb : n.Linked b)
    (hf : (n.status b).failed = true) : Broken T V b := by
  rcases h.failed_cause b hf with hc | ⟨hd, _⟩
  · exact hc
  · rw [h.linked_data b hb] at hd
    exact absurd hd (by simp)

/-- No assumption on blocks and operations. -/
def noVerdicts : Verdicts α σ where
  connects _ := True
  broken _ := True
  stored _ := True
  refused _ := True
  valid _ _ := True

omit [DecidableEq α] in
theorem obeys_noVerdicts (ops : TipOps α σ) : ops.Obeys T noVerdicts :=
  ⟨fun _ _ _ => ⟨trivial, trivial⟩, fun _ _ _ => trivial, fun _ _ _ => trivial⟩

omit [DecidableEq α] in
theorem accept_obeys_noVerdicts (E : AcceptRules α σ) (n : Node α σ) (b : α) :
    E.Obeys noVerdicts n b := ⟨fun _ _ _ => trivial, fun _ _ _ _ => trivial⟩

/-! ## Rounds of `ActivateBestChain` -/

/-- The same blocks have their data, and are linked: only the flags may differ. -/
structure SameLinks (n n' : Node α σ) : Prop where
  index : n.mapBlockIndex ⊆ n'.mapBlockIndex
  unlinked : n'.mapBlocksUnlinked = n.mapBlocksUnlinked
  data : ∀ b, (n'.status b).fHaveData = (n.status b).fHaveData
  linked : ∀ b, n'.Linked b ↔ n.Linked b

section

variable {n' : Node α σ}

section

omit [DecidableEq α]

theorem SameLinks.good (hs : SameLinks n n') (b : α) : n'.Good T V b ↔ n.Good T V b := by
  rw [Good, Good, hs.linked]

theorem SameLinks.covered (hs : SameLinks n n') (hcover : n.Covered T V)
    (hkept : ∀ y ∈ n.setBlockIndexCandidates, n.Good T V y → y ∈ n'.setBlockIndexCandidates)
    (hless : ∀ a b, n.Linked a → n.Linked b → n'.workLess T a b = n.workLess T a b) :
    n'.Covered T V := by
  intro b hb
  have hgb := (hs.good b).mp hb
  obtain ⟨y, hy, hgy, hle⟩ := hcover b hgb
  exact ⟨y, hkept y hy hgy, (hs.good y).mpr hgy, (hless y b hgy.1 hgb.1).trans hle⟩

/--
The invariant where the links are the same: what is left to see is what the flags, the
active chain and the candidates have become.
-/
theorem NodeInv.sameLinks (h : NodeInv T V queue n) (hs : SameLinks n n')
    (hchain : ∃ t, n'.chainActive = T.branch t ∧ n.Good T V t)
    (hvalid : V.valid n'.chainActive n'.state)
    (hwaiting : ∀ b a, (n.status b).fHaveData = true → T.parent b = some a → ¬ n.Linked a →
      (a, b) ∈ n.mapBlocksUnlinked ∨ ((n.status a).failed = true → (n'.status a).failed = true))
    (hcandidates : ∀ b ∈ n'.setBlockIndexCandidates, n.Linked b)
    (hfailed : ∀ b, (n'.status b).failed = true →
      Broken T V b ∨ ((n.status b).fHaveData = false ∧ V.refused b))
    (hcover : V.Consistent → n'.Covered T V) : NodeInv T V queue n' where
  chain := hchain.imp fun t ht => ⟨ht.1, (hs.good t).mpr ht.2⟩
  valid := hvalid
  known b hb := hs.index (h.known b ((hs.data b).symm.trans hb))
  parent_known b a hb hp := hs.index (h.parent_known b a ((hs.data b).symm.trans hb) hp)
  linked_data b hb := (hs.data b).trans (h.linked_data b ((hs.linked b).mp hb))
  linked_parent b a hb hp := (hs.linked a).mpr (h.linked_parent b a ((hs.linked b).mp hb) hp)
  data_linked b hb hp := by
    rw [hs.linked]
    exact h.data_linked b ((hs.data b).symm.trans hb) fun a ha => (hs.linked a).mp (hp a ha)
  pending b hb := by
    rw [hs.data, hs.linked]
    obtain ⟨h1, h2, h3⟩ := h.pending b hb
    exact ⟨h1, h2, fun a ha => (hs.linked a).mpr (h3 a ha)⟩
  queue_nodup := h.queue_nodup
  unlinked e he := by
    rw [hs.unlinked] at he
    rw [hs.data, hs.linked]
    exact h.unlinked e he
  unlinked_nodup := hs.unlinked ▸ h.unlinked_nodup
  waiting b a hb hp hna := by
    rw [hs.data] at hb
    rw [hs.linked] at hna
    rw [hs.unlinked, hs.data]
    rcases h.waiting b a hb hp hna with hw | ⟨hf, hd⟩
    · exact Or.inl hw
    · exact (hwaiting b a hb hp hna).imp_right fun hstays => ⟨hstays hf, hd⟩
  candidates_linked b hb := (hs.linked b).mpr (hcandidates b hb)
  failed_cause b hb := by
    rw [hs.data]
    exact hfailed b hb
  stored b hb := h.stored b ((hs.data b).symm.trans hb)
  cover := hcover

end

end

/-- What a round changes about statuses: failures are added, and have a cause. -/
structure Marked (T : IndexTree α) (V : Verdicts α σ) (n n' : Node α σ) : Prop where
  later : Later n n'
  chain : n'.chainActive = n.chainActive
  state : n'.state = n.state
  unlinked : n'.mapBlocksUnlinked = n.mapBlocksUnlinked
  mono : ∀ b, (n.status b).failed = true → (n'.status b).failed = true
  cause : ∀ b, (n'.status b).failed = true → (n.status b).failed = true ∨ Broken T V b
  dropped : ∀ b ∈ n.setBlockIndexCandidates, b ∉ n'.setBlockIndexCandidates → Broken T V b

omit [DecidableEq α] in
theorem Later.linked {n n' : Node α σ} (h : Later n n') (b : α) : n'.Linked b ↔ n.Linked b := by
  unfold Linked
  rw [h.chainTx]

omit [DecidableEq α] in
theorem NodeInv.marked {n' : Node α σ} (h : NodeInv T V queue n) (hm : Marked T V n n') :
    NodeInv T V queue n' := by
  have hs : SameLinks n n' :=
    ⟨fun b hb => hm.later.index ▸ hb, hm.unlinked, hm.later.data, hm.later.linked⟩
  obtain ⟨t, ht, hg⟩ := h.chain
  refine h.sameLinks hs ⟨t, hm.chain.trans ht, hg⟩ (by rw [hm.chain, hm.state]; exact h.valid)
    (fun _ a _ _ _ => Or.inr (hm.mono a))
    (fun b hb => h.candidates_linked b (hm.later.candidates hb)) (fun b hb => ?_) fun hV => ?_
  · rcases hm.cause b hb with hf | hbr
    · exact h.failed_cause b hf
    · exact Or.inl hbr
  · refine hs.covered (h.cover hV) (fun y hy hg => ?_) fun a b _ _ => hm.later.workLess a b
    by_contra hdrop
    exact (hm.dropped y hy hdrop).not_connects hV hg.2

theorem mem_above {b t a : α} (ht : t ∈ T.branch b)
    (ha : a ∈ (T.branch b).takeWhile fun a => decide (a ≠ t)) : t ∈ T.branch a := by
  obtain ⟨hab, hlt⟩ := (ParentTree.mem_takeWhile_branch ht).mp ha
  exact ParentTree.mem_branch_of_depth_le ht hab (by omega)

theorem NodeInv.discard (h : NodeInv T V [] n) {b t : α} (hb : b ∈ n.setBlockIndexCandidates)
    (ht : t ∈ T.branch b) (hu : n.unusable t = true) : NodeInv T V [] (n.discard T b t) := by
  have hlt := h.linked_branch (h.candidates_linked b hb) ht
  have hft : (n.status t).failed = true := by
    simpa [unusable, h.linked_data t hlt] using hu
  have hbr := h.broken_of_failed hlt hft
  have habove : ∀ a ∈ t :: (T.branch b).takeWhile fun a => decide (a ≠ t), Broken T V a := by
    intro a ha
    rcases List.mem_cons.mp ha with rfl | ha
    · exact hbr
    · exact hbr.of_mem (mem_above ht ha)
  have hlater := later_discard (T := T) n b t
  unfold Node.discard at hlater ⊢
  dsimp only at hlater ⊢
  rw [if_pos hft] at hlater ⊢
  refine h.marked ⟨hlater, rfl, rfl, rfl, ?_, ?_, ?_⟩
  · intro a ha
    dsimp only
    split
    · simp [BlockStatus.failed]
    · exact ha
  · intro a ha
    dsimp only at ha
    split at ha
    · rename_i hin
      exact Or.inr (habove a (List.mem_cons_of_mem _ hin))
    · exact Or.inl ha
  · intro a ha hna
    by_contra hc
    refine hna (List.mem_filter.mpr ⟨ha, ?_⟩)
    simpa using fun hin => hc (habove a hin)

theorem NodeInv.invalidBlockFound (h : NodeInv T V [] n) {b t : α} (hp : T.parent b = some t)
    (hb : V.broken b) : NodeInv T V [] (n.invalidBlockFound b) := by
  have hbr : Broken T V b := by
    refine ⟨b, ParentTree.self_mem_branch b, ?_, hb⟩
    rintro rfl
    rw [T.parent_root] at hp
    exact absurd hp (by simp)
  refine h.marked ⟨later_invalidBlockFound n b, rfl, rfl, rfl, ?_, ?_, ?_⟩
  · intro a ha
    rw [invalidBlockFound_status]
    split
    · simp [BlockStatus.failed]
    · exact ha
  · intro a ha
    rw [invalidBlockFound_status] at ha
    split at ha
    · rename_i hab
      exact Or.inr (hab ▸ hbr)
    · exact Or.inl ha
  · intro a ha hna
    by_cases hab : a = b
    · exact hab ▸ hbr
    · exact absurd (List.mem_filter.mpr ⟨ha, by simpa using hab⟩) hna

omit [DecidableEq α] in
theorem NodeInv.disconnectTip (h : NodeInv T V [] n) {t p : α} {s : σ}
    (hchain : n.chainActive = T.branch t) (hp : T.parent t = some p)
    (hs : V.valid (T.branch p) s) :
    NodeInv T V [] { n with chainActive := T.branch p, state := s } := by
  obtain ⟨t', ht', hg⟩ := h.chain
  have htt : t = t' := ParentTree.branch_injective (hchain.symm.trans ht')
  subst htt
  exact { h with
    chain := ⟨p, rfl, h.linked_parent t p hg.1 hp, hg.2.of_mem (ParentTree.parent_mem_branch hp)⟩
    valid := hs }

omit [DecidableEq α] in
theorem NodeInv.connectTip (h : NodeInv T V [] n) {t b : α} {s : σ}
    (hchain : n.chainActive = T.branch t) (hp : T.parent b = some t)
    (hu : (n.status b).fHaveData = true) (hb : V.connects b) (hs : V.valid (T.branch b) s) :
    NodeInv T V [] (n.connectTip T b s) := by
  obtain ⟨t', ht', hg⟩ := h.chain
  have htt : t = t' := ParentTree.branch_injective (hchain.symm.trans ht')
  subst htt
  have hlb : n.Linked b := by
    rcases h.data_linked b hu (fun a ha => by rw [hp] at ha; rw [← Option.some.inj ha]; exact hg.1)
      with hl | hq
    · exact hl
    · simp at hq
  have hgb : n.Good T V b := ⟨hlb, hg.2.child hp hb⟩
  have hsame : SameLinks n (n.connectTip T b s) :=
    ⟨by simp, by simp, by simp, fun a => by simp [Linked]⟩
  have hgood := fun a => hsame.good (T := T) (V := V) a
  have hbranch : (n.connectTip T b s).chainActive = T.branch b := by
    rw [connectTip_chainActive, hchain, ParentTree.branch_parent hp]
  refine h.sameLinks hsame ⟨b, hbranch, hgb⟩ (by rw [hbranch, connectTip_state]; exact hs)
    (fun _ a _ _ _ => Or.inr fun hf => by simpa using hf)
    (fun c hc => h.candidates_linked c (mem_connectTip_candidates.mp hc).1)
    (fun c hc => h.failed_cause c (by simpa using hc)) ?_
  · -- a candidate worse than the new tip is replaced by one that covers the tip
    intro hV c hc
    have hless : ∀ x y, (n.connectTip T b s).workLess T x y = n.workLess T x y :=
      (later_connectTip n b s).workLess
    obtain ⟨y, hy, hgy, hle⟩ := h.cover hV c ((hgood c).mp hc)
    cases hyb : n.workLess T y b with
    | false =>
      exact ⟨y, mem_connectTip_candidates.mpr ⟨hy, hyb⟩,
        (hgood y).mpr hgy, by rw [hless]; exact hle⟩
    | true =>
      obtain ⟨z, hz, hgz, hzb⟩ := h.cover hV b hgb
      refine ⟨z, mem_connectTip_candidates.mpr ⟨hz, hzb⟩, (hgood z).mpr hgz, ?_⟩
      rw [hless]
      refine not_workLess_trans (b := y) hle ?_
      cases hzy : n.workLess T z y with
      | false => rfl
      | true =>
        rw [workLess_trans hzy hyb] at hzb
        exact absurd hzb (by simp)

/-- **Every move of a round keeps the invariant.** -/
theorem nodeInv_moves {ops : TipOps α σ} (ho : ops.Obeys T V) : Moves T ops (NodeInv T V []) where
  chain h := h.chain.imp fun _ ht => ht.1
  discard h hb ht _ hu := h.discard hb ht hu
  disconnect h hchain hp hd := by
    have hv := h.valid
    rw [hchain] at hv
    exact h.disconnectTip hchain hp (ho.disconnect hv hp hd)
  connect h hchain hp hu hc := by
    have hv := h.valid
    rw [hchain] at hv
    obtain ⟨h1, h2⟩ := ho.connected hv hp hc
    exact h.connectTip hchain hp hu.2 h1 h2
  invalid h hchain hp _ hc := by
    have hv := h.valid
    rw [hchain] at hv
    exact h.invalidBlockFound hp (ho.invalid hv hp hc)

/-! ## `ReceivedBlockTransactions` -/

theorem setStatus_status (n : Node α σ) (b a : α) (f : BlockStatus → BlockStatus) :
    (n.setStatus b f).status a = if a = b then f (n.status b) else n.status a := by
  unfold setStatus
  by_cases h : a = b
  · subst h; simp
  · simp [h]

/-- Linking an entry changes the entry, and perhaps makes it a candidate. -/
structure LinkedNow (T : IndexTree α) (n : Node α σ) (x : α) (n' : Node α σ) : Prop where
  index : n'.mapBlockIndex = n.mapBlockIndex
  chain : n'.chainActive = n.chainActive
  state : n'.state = n.state
  unlinked : n'.mapBlocksUnlinked = n.mapBlocksUnlinked
  linked : n'.Linked x
  other : ∀ b, b ≠ x → n'.status b = n.status b
  data : ∀ b, (n'.status b).fHaveData = (n.status b).fHaveData
  failed : ∀ b, (n'.status b).failed = (n.status b).failed
  candidates : ∀ b, b ≠ x → (b ∈ n'.setBlockIndexCandidates ↔ b ∈ n.setBlockIndexCandidates)
  /-- An entry as good as the tip becomes a candidate. -/
  considered : ∀ t, n.tip = some t → x ∈ n'.setBlockIndexCandidates ∨ n'.workLess T x t = true

theorem link_linkedNow (T : IndexTree α) (n : Node α σ) (x : α) : LinkedNow T n x (n.link T x) := by
  have hpos := T.nTx_pos x
  unfold link
  generalize n.prevChainTx T x = nPrev
  dsimp only
  obtain ⟨n1, hn1⟩ : ∃ n1, n1 = n.setStatus x fun s =>
      { s with nChainTx := nPrev + T.nTx x, nSequenceId := n.nBlockSequenceId } := ⟨_, rfl⟩
  have hst : ∀ b, n1.status b = if b = x then { n.status x with
      nChainTx := nPrev + T.nTx x, nSequenceId := n.nBlockSequenceId } else n.status b :=
    fun b => hn1 ▸ setStatus_status n x b _
  have hlinked : n1.Linked x := by
    unfold Linked
    rw [hst, if_pos rfl]
    show nPrev + T.nTx x ≠ 0
    omega
  have hother : ∀ b, b ≠ x → n1.status b = n.status b := fun b hb => (hst b).trans (if_neg hb)
  have hdata : ∀ b, (n1.status b).fHaveData = (n.status b).fHaveData := by
    intro b
    rw [hst]
    split
    · rename_i h; subst h; rfl
    · rfl
  have hfailed : ∀ b, (n1.status b).failed = (n.status b).failed := by
    intro b
    rw [hst]
    split
    · rename_i h; subst h; rfl
    · rfl
  rw [← hn1]
  have hsame : n1.mapBlockIndex = n.mapBlockIndex ∧ n1.chainActive = n.chainActive ∧
      n1.state = n.state ∧ n1.mapBlocksUnlinked = n.mapBlocksUnlinked ∧
      n1.setBlockIndexCandidates = n.setBlockIndexCandidates := by
    rw [hn1]
    exact ⟨rfl, rfl, rfl, rfl, rfl⟩
  obtain ⟨hindex, hchain, hstate, hunlinked, hcandidates⟩ := hsame
  split
  · refine ⟨hindex, hchain, hstate, hunlinked, hlinked, hother, hdata, hfailed, fun b hb => ?_,
      fun _ _ => Or.inl (by simp)⟩
    simp [hb, hcandidates]
  · rename_i hnot
    refine ⟨hindex, hchain, hstate, hunlinked, hlinked, hother, hdata, hfailed,
      fun b _ => by rw [hcandidates], fun t ht => Or.inr ?_⟩
    rw [tip, ← hchain] at ht
    simp only [tip, ht, Option.all_some, Bool.not_eq_true', Bool.not_eq_false] at hnot
    exact hnot

namespace LinkedNow

variable {n' : Node α σ} {x : α}

theorem linked_iff (hk : LinkedNow T n x n') (b : α) : n'.Linked b ↔ b = x ∨ n.Linked b := by
  by_cases hb : b = x
  · subst hb
    simp [hk.linked]
  · unfold Linked
    rw [hk.other b hb]
    simp [hb]

theorem good_iff (hk : LinkedNow T n x n') {b : α} (hb : b ≠ x) : n'.Good T V b ↔ n.Good T V b := by
  simp [Good, hk.linked_iff, hb]

omit [DecidableEq α] in
theorem workLess_eq (hk : LinkedNow T n x n') {a b : α} (ha : a ≠ x) (hb : b ≠ x) :
    n'.workLess T a b = n.workLess T a b :=
  workLess_congr (by rw [hk.other a ha]) (by rw [hk.other b hb])

end LinkedNow

theorem mem_waitingFor {l : List (α × α)} {x b : α} :
    b ∈ (l.filter fun e => decide (e.1 = x)).map Prod.snd ↔ (x, b) ∈ l := by
  simp only [List.mem_map, List.mem_filter, decide_eq_true_eq, Prod.exists]
  constructor
  · rintro ⟨a, c, ⟨hmem, rfl⟩, rfl⟩
    exact hmem
  · intro hmem
    exact ⟨x, b, ⟨hmem, rfl⟩, rfl⟩

theorem nodup_waitingFor {l : List (α × α)} (hl : l.Nodup) (x : α) :
    ((l.filter fun e => decide (e.1 = x)).map Prod.snd).Nodup := by
  refine List.Nodup.map_on (fun e he e' he' hee => ?_) (hl.filter _)
  have h1 := of_decide_eq_true (List.mem_filter.mp he).2
  have h2 := of_decide_eq_true (List.mem_filter.mp he').2
  exact Prod.ext (h1.trans h2.symm) hee

/-! What holds of the queue's first entry when it has been linked. -/

section

variable {n' : Node α σ} {x : α} (h : NodeInv T V (x :: queue) n) (hk : LinkedNow T n x n')
include h hk

theorem NodeInv.linkedNow_data_linked {b : α} (hb : (n.status b).fHaveData = true)
    (hp : ∀ a, T.parent b = some a → n'.Linked a) :
    n'.Linked b ∨ b ∈ queue ∨ (x, b) ∈ n.mapBlocksUnlinked := by
  obtain ⟨hxd, hxl, -⟩ := h.pending x List.mem_cons_self
  by_cases hbx : b = x
  · exact Or.inl ((hk.linked_iff b).mpr (Or.inl hbx))
  by_cases hpar : T.parent b = some x
  · rcases h.waiting b x hb hpar hxl with hw | ⟨_, hd⟩
    · exact Or.inr (Or.inr hw)
    · rw [hxd] at hd
      exact absurd hd (by simp)
  · have hbefore : ∀ a, T.parent b = some a → n.Linked a := by
      intro a ha
      rcases (hk.linked_iff a).mp (hp a ha) with rfl | hla
      · exact absurd ha hpar
      · exact hla
    rcases h.data_linked b hb hbefore with hlb | hq
    · exact Or.inl ((hk.linked_iff b).mpr (Or.inr hlb))
    · rcases List.mem_cons.mp hq with hq | hq
      · exact absurd hq hbx
      · exact Or.inr (Or.inl hq)

theorem NodeInv.linkedNow_pending {b : α} (hb : b ∈ queue ∨ (x, b) ∈ n.mapBlocksUnlinked) :
    (n'.status b).fHaveData = true ∧ ¬ n'.Linked b ∧ ∀ a, T.parent b = some a → n'.Linked a := by
  rw [hk.data, hk.linked_iff]
  rcases hb with hb | hb
  · obtain ⟨h1, h2, h3⟩ := h.pending b (List.mem_cons_of_mem _ hb)
    have hbx : b ≠ x := fun he => (List.nodup_cons.mp h.queue_nodup).1 (he ▸ hb)
    exact ⟨h1, fun hc => hc.elim hbx h2, fun a ha => (hk.linked_iff a).mpr (Or.inr (h3 a ha))⟩
  · obtain ⟨h1, h2, h3, h4⟩ := h.unlinked _ hb
    have hbx : b ≠ x := fun he => h4 (by simp [he])
    refine ⟨h2, fun hc => hc.elim hbx h3, fun a ha => ?_⟩
    exact (hk.linked_iff a).mpr (Or.inl (Option.some.inj (ha.symm.trans h1)))

theorem NodeInv.linkedNow_unlinked {e : α × α} (he : e ∈ n.mapBlocksUnlinked) (hne : e.1 ≠ x) :
    T.parent e.2 = some e.1 ∧ (n'.status e.2).fHaveData = true ∧ ¬ n'.Linked e.2 ∧
      e.2 ∉ queue ∧ (x, e.2) ∉ n.mapBlocksUnlinked := by
  obtain ⟨h1, h2, h3, h4⟩ := h.unlinked e he
  have hex : e.2 ≠ x := fun hc => h4 (by simp [hc])
  rw [hk.data, hk.linked_iff]
  refine ⟨h1, h2, fun hc => hc.elim hex h3, fun hq => h4 (List.mem_cons_of_mem _ hq), fun hx => ?_⟩
  exact hne (Option.some.inj (h1.symm.trans (h.unlinked _ hx).1))

theorem NodeInv.linkedNow_covered (hV : V.Consistent) : n'.Covered T V := by
  intro b hb
  obtain ⟨-, hxl, -⟩ := h.pending x List.mem_cons_self
  obtain ⟨t, ht, hgt⟩ := h.chain
  have htx : t ≠ x := by
    rintro rfl
    exact hxl hgt.1
  -- a candidate that covered something before covers it still
  have hold : ∀ c, c ≠ x → n.Good T V c → ∃ y ∈ n'.setBlockIndexCandidates,
      n'.Good T V y ∧ n'.workLess T y c = false := by
    intro c hcx hc
    obtain ⟨y, hy, hgy, hle⟩ := h.cover hV c hc
    have hyx : y ≠ x := by
      rintro rfl
      exact hxl hgy.1
    exact ⟨y, (hk.candidates y hyx).mpr hy, (hk.good_iff hyx).mpr hgy,
      by rw [hk.workLess_eq hyx hcx]; exact hle⟩
  by_cases hbx : b = x
  · subst hbx
    rcases hk.considered t (tip_branch ht) with hmem | hlt
    · exact ⟨b, hmem, hb, workLess_irrefl _ _⟩
    · obtain ⟨y, hy, hgy, hle⟩ := hold t htx hgt
      refine ⟨y, hy, hgy, ?_⟩
      cases hyb : n'.workLess T y b with
      | false => rfl
      | true =>
        rw [workLess_trans hyb hlt] at hle
        exact absurd hle (by simp)
  · exact hold b hbx ((hk.good_iff hbx).mp hb)

end

/-- **One round of the queue.** -/
theorem NodeInv.linkFirst {x : α} (h : NodeInv T V (x :: queue) n) : NodeInv T V
      (queue ++ ((n.link T x).mapBlocksUnlinked.filter fun e => decide (e.1 = x)).map Prod.snd)
      { n.link T x with mapBlocksUnlinked :=
          (n.link T x).mapBlocksUnlinked.filter fun e => decide (e.1 ≠ x) } := by
  have hk := link_linkedNow T n x
  obtain ⟨hxd, hxl, hxp⟩ := h.pending x List.mem_cons_self
  generalize n.link T x = n1 at hk
  obtain ⟨t, ht, hgt⟩ := h.chain
  rw [hk.unlinked]
  -- the new queue, and what is still unlinked
  have hqueue : ∀ b, b ∈ queue ++ (n.mapBlocksUnlinked.filter fun e =>
      decide (e.1 = x)).map Prod.snd ↔ b ∈ queue ∨ (x, b) ∈ n.mapBlocksUnlinked := fun b => by
    rw [List.mem_append, mem_waitingFor]
  have hstays : ∀ e, e ∈ (n.mapBlocksUnlinked.filter fun e => decide (e.1 ≠ x)) ↔
      e ∈ n.mapBlocksUnlinked ∧ e.1 ≠ x := fun e => by
    rw [List.mem_filter, decide_eq_true_eq]
  have hdata : ∀ {b}, (n1.status b).fHaveData = true → (n.status b).fHaveData = true :=
    fun {b} hb => by rwa [hk.data] at hb
  refine
    { chain := ⟨t, hk.chain.trans ht, (hk.good_iff ?_).mpr hgt⟩
      valid := ?valid, known := ?known, parent_known := ?parent_known
      linked_data := ?linked_data, linked_parent := ?linked_parent
      data_linked :=
        fun b hb hp => (h.linkedNow_data_linked hk (hdata hb) hp).imp_right (hqueue b).mpr
      pending := fun b hb => h.linkedNow_pending hk ((hqueue b).mp hb)
      queue_nodup := ?queue_nodup, unlinked := ?unlinked
      unlinked_nodup := h.unlinked_nodup.filter _
      waiting := ?waiting, candidates_linked := ?candidates_linked, failed_cause := ?failed_cause
      stored := fun b hb => h.stored b (hdata hb)
      cover := ?cover }
  · rintro rfl
    exact hxl hgt.1
  case valid =>
    show V.valid n1.chainActive n1.state
    rw [hk.chain, hk.state]
    exact h.valid
  case known =>
    intro b hb
    show b ∈ n1.mapBlockIndex
    rw [hk.index]
    exact h.known b (hdata hb)
  case parent_known =>
    intro b a hb hp
    show a ∈ n1.mapBlockIndex
    rw [hk.index]
    exact h.parent_known b a (hdata hb) hp
  case linked_data =>
    intro b hb
    show (n1.status b).fHaveData = true
    rw [hk.data]
    rcases (hk.linked_iff b).mp hb with rfl | hb
    · exact hxd
    · exact h.linked_data b hb
  case linked_parent =>
    intro b a hb hp
    refine (hk.linked_iff a).mpr (Or.inr ?_)
    rcases (hk.linked_iff b).mp hb with rfl | hb
    · exact hxp a hp
    · exact h.linked_parent b a hb hp
  case queue_nodup =>
    refine List.nodup_append.mpr
      ⟨(List.nodup_cons.mp h.queue_nodup).2, nodup_waitingFor h.unlinked_nodup x, ?_⟩
    rintro b hb _ hb' rfl
    exact (h.unlinked _ (mem_waitingFor.mp hb')).2.2.2 (List.mem_cons_of_mem _ hb)
  case unlinked =>
    intro e he
    obtain ⟨hmem, hne⟩ := (hstays e).mp he
    obtain ⟨h1, h2, h3, h4, h5⟩ := h.linkedNow_unlinked hk hmem hne
    exact ⟨h1, h2, h3, fun hq => ((hqueue e.2).mp hq).elim h4 h5⟩
  case waiting =>
    intro b a hb hp hna
    have hax : a ≠ x := fun he => hna ((hk.linked_iff a).mpr (Or.inl he))
    have hal : ¬ n.Linked a := fun hla => hna ((hk.linked_iff a).mpr (Or.inr hla))
    rcases h.waiting b a (hdata hb) hp hal with hw | hrefused
    · exact Or.inl ((hstays _).mpr ⟨hw, hax⟩)
    · refine Or.inr ?_
      show (n1.status a).failed = true ∧ (n1.status a).fHaveData = false
      rw [hk.failed, hk.data]
      exact hrefused
  case candidates_linked =>
    intro b hb
    by_cases hbx : b = x
    · exact (hk.linked_iff b).mpr (Or.inl hbx)
    · exact (hk.linked_iff b).mpr (Or.inr (h.candidates_linked b ((hk.candidates b hbx).mp hb)))
  case failed_cause =>
    intro b hb
    have hf : (n.status b).failed = true := by rw [← hk.failed]; exact hb
    show Broken T V b ∨ ((n1.status b).fHaveData = false ∧ V.refused b)
    rw [hk.data]
    exact h.failed_cause b hf
  case cover =>
    intro hV
    have hcovered := h.linkedNow_covered hk hV
    exact hcovered

/-- **The queue is worked off**: the fuel is enough, and nothing is left to be linked. -/
theorem NodeInv.linkQueue : ∀ {fuel : Nat} {queue : List α} {n : Node α σ},
    NodeInv T V queue n → queue.length + n.mapBlocksUnlinked.length ≤ fuel →
    NodeInv T V [] (linkQueue T fuel queue n)
  | 0, queue, n, h, hlen => by
    have hq : queue = [] := List.length_eq_zero_iff.mp (by omega)
    subst hq
    exact h
  | fuel + 1, [], n, h, _ => h
  | fuel + 1, x :: queue, n, h, hlen => by
    rw [Node.linkQueue]
    refine NodeInv.linkQueue h.linkFirst ?_
    have hunl := (link_linkedNow T n x).unlinked
    have hsplit := List.length_eq_length_filter_add (l := n.mapBlocksUnlinked)
      (fun e => decide (e.1 = x))
    have hneg : (n.mapBlocksUnlinked.filter fun e => !decide (e.1 = x)).length
        = (n.mapBlocksUnlinked.filter fun e => decide (e.1 ≠ x)).length := by
      congr 2
      funext e
      by_cases he : e.1 = x <;> simp [he]
    dsimp only
    rw [hunl, List.length_append, List.length_map]
    simp only [List.length_cons] at hlen
    omega

omit [DecidableEq α] in
theorem NodeInv.exists_parent (h : NodeInv T V queue n) {b : α}
    (hd : (n.status b).fHaveData = false) : ∃ a, T.parent b = some a := by
  cases hp : T.parent b with
  | some a => exact ⟨a, rfl⟩
  | none =>
    obtain ⟨t, _, hg⟩ := h.chain
    have hroot := h.linked_data _ (h.linked_branch hg.1 (ParentTree.root_mem_branch t))
    rw [← T.eq_root hp, hd] at hroot
    exact absurd hroot (by simp)

theorem linkQueue_frame : ∀ (fuel : Nat) (queue : List α) (n : Node α σ),
    (Node.linkQueue T fuel queue n).mapBlockIndex = n.mapBlockIndex ∧
      ∀ c, ((Node.linkQueue T fuel queue n).status c).fHaveData = (n.status c).fHaveData
  | 0, _, _ => ⟨rfl, fun _ => rfl⟩
  | _ + 1, [], _ => ⟨rfl, fun _ => rfl⟩
  | fuel + 1, x :: queue, n => by
    obtain ⟨hindex, hdata⟩ := linkQueue_frame fuel
      (queue ++ ((n.link T x).mapBlocksUnlinked.filter fun e => decide (e.1 = x)).map Prod.snd)
      { n.link T x with mapBlocksUnlinked :=
          (n.link T x).mapBlocksUnlinked.filter fun e => decide (e.1 ≠ x) }
    have hk := link_linkedNow T n x
    exact ⟨hindex.trans hk.index, fun c => (hdata c).trans (hk.data c)⟩

/-- The entry of a block that is stored now. -/
def haveData (n : Node α σ) (b : α) : Node α σ :=
  n.setStatus b fun s => { s with nChainTx := 0, fHaveData := true }

theorem haveData_status (n : Node α σ) (b c : α) : (n.haveData b).status c =
    if c = b then { n.status b with nChainTx := 0, fHaveData := true } else n.status c :=
  setStatus_status n b c _

theorem haveData_data (n : Node α σ) (b c : α) :
    ((n.haveData b).status c).fHaveData = true ↔ c = b ∨ (n.status c).fHaveData = true := by
  rw [haveData_status]
  by_cases hc : c = b <;> simp [hc]

theorem haveData_failed (n : Node α σ) (b c : α) :
    ((n.haveData b).status c).failed = (n.status c).failed := by
  rw [haveData_status]
  by_cases hc : c = b
  · subst hc; simp [BlockStatus.failed]
  · simp [hc]

theorem haveData_workLess (n : Node α σ) (b c d : α) :
    (n.haveData b).workLess T c d = n.workLess T c d := by
  refine workLess_congr ?_ ?_ <;>
  · rw [haveData_status]
    split
    · rename_i he; subst he; rfl
    · rfl

theorem NodeInv.haveData_linked (h : NodeInv T V queue n) {b : α}
    (hd : (n.status b).fHaveData = false) (c : α) : (n.haveData b).Linked c ↔ n.Linked c := by
  have hbl : ¬ n.Linked b := fun hl => by
    rw [h.linked_data b hl] at hd; exact absurd hd (by simp)
  have hchain0 : (n.status b).nChainTx = 0 := by simpa [Linked] using hbl
  unfold Linked
  rw [haveData_status]
  by_cases hc : c = b
  · subst hc; simp [hchain0]
  · simp [hc]

/--
The invariant, whatever is done with the entry: it is to be linked at once if its parent is,
and waits otherwise.
-/
theorem NodeInv.haveData (h : NodeInv T V [] n) {b a : α} (hb : b ∈ n.mapBlockIndex)
    (hd : (n.status b).fHaveData = false) (hf : (n.status b).failed = false)
    (hp : T.parent b = some a) (ha : a ∈ n.mapBlockIndex) (hs : V.stored b)
    {q : List α} {u : List (α × α)} (hq : ∀ c ∈ q, c = b ∧ n.Linked a) (hqnd : q.Nodup)
    (hin : n.Linked a → b ∈ q) (hwait : ¬ n.Linked a → (a, b) ∈ u)
    (hsub : ∀ e ∈ n.mapBlocksUnlinked, e ∈ u)
    (hu : ∀ e ∈ u, e ∈ n.mapBlocksUnlinked ∨ (e = (a, b) ∧ b ∉ q)) (hund : u.Nodup) :
    NodeInv T V q { n.haveData b with mapBlocksUnlinked := u } := by
  have hl := h.haveData_linked hd
  have hbl : ¬ n.Linked b := fun hl => by
    rw [h.linked_data b hl] at hd; exact absurd hd (by simp)
  have hdata := haveData_data n b
  have hgood : ∀ c, (n.haveData b).Good T V c ↔ n.Good T V c := fun c => by rw [Good, Good, hl]
  obtain ⟨t, ht, hg⟩ := h.chain
  refine
    { chain := ⟨t, ht, (hgood t).mpr hg⟩
      valid := h.valid
      known := ?known, parent_known := ?parent_known
      linked_data := fun c hc => (hdata c).mpr (Or.inr (h.linked_data c ((hl c).mp hc)))
      linked_parent := fun c d hc hpc => (hl d).mpr (h.linked_parent c d ((hl c).mp hc) hpc)
      data_linked := ?data_linked, pending := ?pending
      queue_nodup := hqnd
      unlinked := ?unlinked
      unlinked_nodup := hund
      waiting := ?waiting
      candidates_linked := fun c hc => (hl c).mpr (h.candidates_linked c hc)
      failed_cause := ?failed_cause, stored := ?stored, cover := ?cover }
  case known =>
    intro c hc
    rcases (hdata c).mp hc with rfl | hc
    · exact hb
    · exact h.known c hc
  case parent_known =>
    intro c d hc hpc
    rcases (hdata c).mp hc with rfl | hc
    · rw [hp] at hpc
      rw [← Option.some.inj hpc]; exact ha
    · exact h.parent_known c d hc hpc
  case data_linked =>
    intro c hc hpc
    rcases (hdata c).mp hc with rfl | hc
    · exact Or.inr (hin ((hl a).mp (hpc a hp)))
    · rcases h.data_linked c hc fun d hd => (hl d).mp (hpc d hd) with hlc | hq
      · exact Or.inl ((hl c).mpr hlc)
      · simp at hq
  case pending =>
    intro c hc
    obtain ⟨rfl, hla⟩ := hq c hc
    refine ⟨(hdata c).mpr (Or.inl rfl), fun hlc => hbl ((hl c).mp hlc), fun d hpd => ?_⟩
    rw [hp] at hpd
    rw [← Option.some.inj hpd]
    exact (hl a).mpr hla
  case unlinked =>
    intro e he
    rcases hu e he with he | ⟨rfl, hbq⟩
    · obtain ⟨h1, h2, h3, _⟩ := h.unlinked e he
      refine ⟨h1, (hdata e.2).mpr (Or.inr h2), fun hlc => h3 ((hl e.2).mp hlc), fun heq => ?_⟩
      rw [(hq e.2 heq).1, hd] at h2
      exact absurd h2 (by simp)
    · exact ⟨hp, (hdata b).mpr (Or.inl rfl), fun hlc => hbl ((hl b).mp hlc), hbq⟩
  case waiting =>
    intro c d hc hpc hnd
    have hnd' : ¬ n.Linked d := fun hld => hnd ((hl d).mpr hld)
    show (d, c) ∈ u ∨ (((n.haveData b).status d).failed = true ∧
      ((n.haveData b).status d).fHaveData = false)
    rcases (hdata c).mp hc with rfl | hc
    · rw [hp] at hpc
      obtain rfl := Option.some.inj hpc
      exact Or.inl (hwait hnd')
    · rcases h.waiting c d hc hpc hnd' with hw | ⟨hfd, hdd⟩
      · exact Or.inl (hsub _ hw)
      · -- a marked entry is not the one that is stored
        have hdb : d ≠ b := by
          rintro rfl
          rw [hf] at hfd; exact absurd hfd (by simp)
        refine Or.inr ⟨by rw [haveData_failed]; exact hfd, ?_⟩
        rw [haveData_status, if_neg hdb]; exact hdd
  case failed_cause =>
    intro c hc
    have hfc : (n.status c).failed = true := by rw [← haveData_failed]; exact hc
    have hcb : c ≠ b := by
      rintro rfl
      rw [hf] at hfc; exact absurd hfc (by simp)
    rcases h.failed_cause c hfc with hbr | ⟨hdc, hr⟩
    · exact Or.inl hbr
    · refine Or.inr ⟨?_, hr⟩
      show ((n.haveData b).status c).fHaveData = false
      rw [haveData_status, if_neg hcb]; exact hdc
  case stored =>
    intro c hc hr
    rcases (hdata c).mp hc with rfl | hc
    · exact hs
    · exact h.stored c hc hr
  case cover =>
    intro hV c hc
    obtain ⟨y, hy, hgy, hle⟩ := h.cover hV c ((hgood c).mp hc)
    exact ⟨y, hy, (hgood y).mpr hgy, (haveData_workLess n b y c).trans hle⟩

theorem receivedBlockTransactions_ind {motive : Node α σ → Prop} {b : α}
    (hlink : ∀ fuel, motive (linkQueue T fuel [b] (n.haveData b)))
    (hstop : motive (n.haveData b))
    (hwait : ∀ e, motive { n.haveData b with mapBlocksUnlinked := n.mapBlocksUnlinked ++ [e] }) :
    motive (n.receivedBlockTransactions T b) := by
  unfold Node.receivedBlockTransactions
  dsimp only
  rw [← Node.haveData]
  split
  · exact hlink _
  · split
    · exact hlink _
    · split
      · exact hstop
      · exact hwait _

theorem NodeInv.receivedBlockTransactions_linked (h : NodeInv T V queue n) {b a : α}
    (hd : (n.status b).fHaveData = false) (hp : T.parent b = some a) (hla : n.Linked a) :
    n.receivedBlockTransactions T b =
      Node.linkQueue T (n.mapBlocksUnlinked.length + 1) [b] (n.haveData b) := by
  unfold Node.receivedBlockTransactions
  rw [hp]
  dsimp only
  rw [← Node.haveData]
  exact if_pos ((h.haveData_linked hd a).mpr hla)

theorem NodeInv.receivedBlockTransactions_waiting (h : NodeInv T V queue n) {b a : α}
    (hd : (n.status b).fHaveData = false) (hp : T.parent b = some a) (hla : ¬ n.Linked a)
    (haf : (n.status a).failed = false) : n.receivedBlockTransactions T b =
      { n.haveData b with mapBlocksUnlinked := n.mapBlocksUnlinked ++ [(a, b)] } := by
  unfold Node.receivedBlockTransactions
  rw [hp]
  dsimp only
  rw [← Node.haveData]
  have hnone : ¬ ((n.haveData b).status a).nChainTx ≠ 0 :=
    fun hne => hla ((h.haveData_linked hd a).mp hne)
  rw [if_neg hnone, haveData_failed, haf, if_neg (by simp)]
  rfl

theorem receivedBlockTransactions_frame (n : Node α σ) (b : α) :
    (n.receivedBlockTransactions T b).mapBlockIndex = n.mapBlockIndex ∧
      ∀ c, ((n.receivedBlockTransactions T b).status c).fHaveData = true ↔
        c = b ∨ (n.status c).fHaveData = true := by
  have hlink := fun fuel => linkQueue_frame (T := T) fuel [b] (n.haveData b)
  have hdata := haveData_data n b
  refine receivedBlockTransactions_ind (T := T) (motive := fun n' =>
    n'.mapBlockIndex = n.mapBlockIndex ∧ ∀ c, (n'.status c).fHaveData = true ↔
      c = b ∨ (n.status c).fHaveData = true) (fun fuel => ?_) ⟨rfl, hdata⟩ fun _ => ⟨rfl, hdata⟩
  refine ⟨(hlink fuel).1, fun c => ?_⟩
  rw [(hlink fuel).2]
  exact hdata c

theorem NodeInv.haveData_linking (h : NodeInv T V [] n) {b a : α} (hb : b ∈ n.mapBlockIndex)
    (hd : (n.status b).fHaveData = false) (hf : (n.status b).failed = false)
    (hp : T.parent b = some a) (ha : a ∈ n.mapBlockIndex) (hs : V.stored b) (hla : n.Linked a) :
    NodeInv T V [b] (n.haveData b) :=
  h.haveData hb hd hf hp ha hs (u := n.mapBlocksUnlinked) (by simp [hla]) (by simp) (by simp)
    (fun hna => absurd hla hna) (fun _ he => he) (fun _ he => Or.inl he) h.unlinked_nodup

/-- **Storing a block that was not stored keeps the invariant.** -/
theorem NodeInv.receivedBlockTransactions (h : NodeInv T V [] n) {b a : α}
    (hb : b ∈ n.mapBlockIndex) (hd : (n.status b).fHaveData = false)
    (hf : (n.status b).failed = false) (hp : T.parent b = some a) (ha : a ∈ n.mapBlockIndex)
    (haf : (n.status a).failed = false) (hs : V.stored b) :
    NodeInv T V [] (n.receivedBlockTransactions T b) := by
  by_cases hla : n.Linked a
  · rw [h.receivedBlockTransactions_linked hd hp hla]
    exact (h.haveData_linking hb hd hf hp ha hs hla).linkQueue
      (Nat.le_of_eq (Nat.add_comm 1 n.mapBlocksUnlinked.length))
  · rw [h.receivedBlockTransactions_waiting hd hp hla haf]
    have hfresh : (a, b) ∉ n.mapBlocksUnlinked := by
      intro hmem
      rw [(h.unlinked _ hmem).2.1] at hd
      exact absurd hd (by simp)
    refine h.haveData hb hd hf hp ha hs (q := []) (u := n.mapBlocksUnlinked ++ [(a, b)]) (by simp)
      List.nodup_nil (fun hla' => absurd hla' hla) (fun _ => by simp) (fun e he => by simp [he])
      ?_ ?_
    · intro e he
      rcases List.mem_append.mp he with he | he
      · exact Or.inl he
      · exact Or.inr ⟨List.mem_singleton.mp he, by simp⟩
    · refine List.nodup_append.mpr ⟨h.unlinked_nodup, by simp, ?_⟩
      rintro e he _ he' rfl
      rw [List.mem_singleton.mp he'] at he
      exact hfresh he

/-! ## `AcceptBlock` -/

theorem addToBlockIndex_status (n : Node α σ) (b c : α) :
    (n.addToBlockIndex b).status c = if c = b then {} else n.status c := by
  unfold Node.addToBlockIndex
  by_cases hc : c = b
  · subst hc
    simp
  · simp [hc]

theorem NodeInv.addToBlockIndex (h : NodeInv T V [] n) {b : α} (hb : b ∉ n.mapBlockIndex) :
    NodeInv T V [] (n.addToBlockIndex b) := by
  have hd : (n.status b).fHaveData = false := by
    cases hq : (n.status b).fHaveData with
    | false => rfl
    | true => exact absurd (h.known b hq) hb
  have hbl : ¬ n.Linked b := fun hl => by
    rw [h.linked_data b hl] at hd; exact absurd hd (by simp)
  have hst := addToBlockIndex_status n b
  have hdata : ∀ c, ((n.addToBlockIndex b).status c).fHaveData = (n.status c).fHaveData := by
    intro c
    rw [hst]
    split
    · rename_i hc; subst hc; exact hd.symm
    · rfl
  have hl : ∀ c, (n.addToBlockIndex b).Linked c ↔ n.Linked c := by
    intro c
    unfold Linked
    rw [hst]
    by_cases hc : c = b
    · subst hc
      have : (n.status c).nChainTx = 0 := by simpa [Linked] using hbl
      simp [this]
    · simp [hc]
  have hsame : SameLinks n (n.addToBlockIndex b) :=
    ⟨fun c hc => List.mem_cons_of_mem _ hc, rfl, hdata, hl⟩
  refine h.sameLinks hsame h.chain h.valid (fun c a hc hp _ => Or.inr fun hf => ?_)
    h.candidates_linked (fun c hc => ?_) fun hV => ?_
  · -- the parent of a stored block has an entry
    have hab : a ≠ b := fun he => hb (he ▸ h.parent_known c a hc hp)
    rw [hst, if_neg hab]
    exact hf
  · rw [hst] at hc
    split at hc
    · simp [BlockStatus.failed] at hc
    · exact h.failed_cause c hc
  · refine hsame.covered (h.cover hV) (fun _ hy _ => hy) fun c d hc hd => ?_
    have hne : ∀ e, n.Linked e → e ≠ b := fun e hle he => hbl (he ▸ hle)
    exact workLess_congr (by rw [hst, if_neg (hne c hc)]) (by rw [hst, if_neg (hne d hd)])

theorem NodeInv.refuse (h : NodeInv T V [] n) {b : α} (hd : (n.status b).fHaveData = false)
    (hr : V.refused b) :
    NodeInv T V [] (n.setStatus b fun s => { s with fFailedValid := true }) := by
  have hst := fun c => setStatus_status n b c fun s => { s with fFailedValid := true }
  have hsame : SameLinks n (n.setStatus b fun s => { s with fFailedValid := true }) := by
    refine ⟨List.Subset.refl _, rfl, fun c => ?_, fun c => ?_⟩
    · rw [hst]
      split
      · rename_i hc; subst hc; rfl
      · rfl
    · unfold Linked
      rw [hst]
      split
      · rename_i hc; subst hc; rfl
      · rfl
  refine h.sameLinks hsame h.chain h.valid (fun _ a _ _ _ => Or.inr fun hf => ?_)
    h.candidates_linked (fun c hc => ?_) fun hV => ?_
  · rw [hst]
    split
    · rfl
    · exact hf
  · by_cases hcb : c = b
    · exact Or.inr (hcb ▸ ⟨hd, hr⟩)
    · rw [hst, if_neg hcb] at hc
      exact h.failed_cause c hc
  · refine hsame.covered (h.cover hV) (fun _ hy _ => hy) fun c d _ _ => workLess_congr ?_ ?_ <;>
    · rw [hst]
      split
      · rename_i hc; subst hc; rfl
      · rfl

/-- What `AcceptBlock` has established when the block has an index entry. -/
structure Entered (T : IndexTree α) (E : AcceptRules α σ) (n : Node α σ) (b : α)
    (n1 : Node α σ) : Prop where
  node : n1 = n ∨ (b ∉ n.mapBlockIndex ∧ n1 = n.addToBlockIndex b)
  known : b ∈ n1.mapBlockIndex
  fresh : (n1.status b).failed = false
  work : b ≠ T.root → E.checkWork n b = .ok ()
  prev : ∀ a, T.parent b = some a → a ∈ n1.mapBlockIndex ∧ (n1.status a).failed = false

theorem acceptEntry_ok {nMax : Int} {E : AcceptRules α σ} {b : α} {n1 : Node α σ}
    (h : n.acceptEntry T nMax E b = .ok n1) : Entered T E n b n1 := by
  unfold acceptEntry at h
  simp only [Checks.bind_eq_ok, Checks.exists_unit] at h
  obtain ⟨hprev, hwork, hheader⟩ := h
  have hp : ∀ a, T.parent b = some a → a ∈ n.mapBlockIndex ∧ (n.status a).failed = false := by
    intro a ha
    unfold checkPrev at hprev
    rw [ha] at hprev
    dsimp only at hprev
    split at hprev
    · simp at hprev
    · rename_i hmem
      split at hprev
      · simp at hprev
      · rename_i hf
        exact ⟨by simpa using hmem, by simpa using hf⟩
  have hw : b ≠ T.root → E.checkWork n b = .ok () := by
    intro hne
    unfold checkWorkUnlessGenesis at hwork
    rwa [if_neg hne] at hwork
  unfold acceptBlockHeader at hheader
  split at hheader
  · rename_i hmem
    split at hheader
    · simp at hheader
    · rename_i hf
      rw [Except.ok.injEq] at hheader
      subst hheader
      exact ⟨Or.inl rfl, hmem, by simpa using hf, hw, hp⟩
  · rename_i hmem
    simp only [Checks.bind_eq_ok, Checks.exists_unit, Except.ok.injEq] at hheader
    obtain ⟨_, _, _, _, rfl⟩ := hheader
    refine ⟨Or.inr ⟨hmem, rfl⟩, by simp [addToBlockIndex], ?_, hw, fun a ha => ?_⟩
    · simp [addToBlockIndex, BlockStatus.failed]
    · obtain ⟨h1, h2⟩ := hp a ha
      refine ⟨List.mem_cons_of_mem _ h1, ?_⟩
      have hab : a ≠ b := by
        rintro rfl
        exact hmem h1
      simp only [addToBlockIndex, Function.update_of_ne hab]
      exact h2

/-- **`AcceptBlock` keeps the invariant.** -/
theorem nodeInv_acceptBlock (nMax : Int) {E : AcceptRules α σ} {b : α} (h : NodeInv T V [] n)
    (hE : E.Obeys V n b) : NodeInv T V [] (n.acceptBlock T nMax E b).1 := by
  unfold acceptBlock
  cases he : n.acceptEntry T nMax E b with
  | error e => exact h
  | ok n1 =>
    have hen := acceptEntry_ok he
    have h1 : NodeInv T V [] n1 := by
      rcases hen.node with rfl | ⟨hb, rfl⟩
      · exact h
      · exact h.addToBlockIndex hb
    dsimp only
    split
    · exact h1
    · rename_i hd
      have hd : (n1.status b).fHaveData = false := by simpa using hd
      cases hc : E.checkBlock n1 b with
      | error e =>
        dsimp only
        split
        · rename_i hperm
          exact h1.refuse hd (hE.refused n1 e hc hperm)
        · exact h1
      | ok u =>
        dsimp only
        obtain ⟨a, ha⟩ := h1.exists_parent hd
        have hroot : b ≠ T.root := by
          rintro rfl
          rw [T.parent_root] at ha
          exact absurd ha (by simp)
        obtain ⟨hka, hfa⟩ := hen.prev a ha
        exact h1.receivedBlockTransactions hen.known hd hen.fresh ha hka hfa
          (hE.stored n1 (hen.work hroot) hc)

/-! ## Runs -/

theorem nodeInv_genesis (state : σ) (hv : V.valid [T.root] state) :
    NodeInv T V [] (Node.genesis T state) := by
  have hst : ∀ b, (Node.genesis T state).status b = if b = T.root then
      { nChainTx := T.nTx T.root, nSequenceId := 1, fHaveData := true } else {} := by
    intro b
    unfold Node.genesis
    by_cases hb : b = T.root
    · subst hb; simp
    · simp [hb]
  have hpos := T.nTx_pos T.root
  have hl : ∀ b, (Node.genesis T state).Linked b ↔ b = T.root := by
    intro b
    unfold Linked
    rw [hst]
    by_cases hb : b = T.root
    · simp [hb]; omega
    · simp [hb]
  have hd : ∀ b, ((Node.genesis T state).status b).fHaveData = true ↔ b = T.root := by
    intro b
    rw [hst]
    by_cases hb : b = T.root <;> simp [hb]
  have hf : ∀ b, ((Node.genesis T state).status b).failed = false := by
    intro b
    rw [hst]
    split <;> rfl
  have hgood : (Node.genesis T state).Good T V T.root := by
    refine ⟨(hl _).mpr rfl, fun a ha hr => ?_⟩
    rw [ParentTree.branch_root, List.mem_singleton] at ha
    exact absurd ha hr
  have hroot : ∀ {b a}, b = T.root → T.parent b ≠ some a := by
    rintro b a rfl hp
    rw [T.parent_root] at hp
    exact absurd hp (by simp)
  exact
    { chain := ⟨T.root, ParentTree.branch_root.symm, hgood⟩
      valid := hv
      known := fun b hb => by simp [Node.genesis, (hd b).mp hb]
      parent_known := fun b _ hb hp => absurd hp (hroot ((hd b).mp hb))
      linked_data := fun b hb => (hd b).mpr ((hl b).mp hb)
      linked_parent := fun b _ hb hp => absurd hp (hroot ((hl b).mp hb))
      data_linked := fun b hb _ => Or.inl ((hl b).mpr ((hd b).mp hb))
      pending := by simp
      queue_nodup := List.nodup_nil
      unlinked := by simp [Node.genesis]
      unlinked_nodup := by simp [Node.genesis]
      waiting := fun b _ hb hp _ => absurd hp (hroot ((hd b).mp hb))
      candidates_linked := fun b hb => (hl b).mpr (by simpa [Node.genesis] using hb)
      failed_cause := fun b hb => by
        rw [hf] at hb
        exact absurd hb (by simp)
      stored := fun b hb hr => absurd ((hd b).mp hb) hr
      cover := fun _ b hb => by
        obtain rfl := (hl b).mp hb.1
        exact ⟨T.root, by simp [Node.genesis], hgood, workLess_irrefl _ _⟩ }

/--
The nodes a run reaches. Calls of `AcceptBlock` and rounds of `ActivateBestChain` come in
any order; which rules and operations a step may use is a parameter of the run.
-/
inductive Reaches (T : IndexTree α) (nMaxReorganizationDepth : Int)
    (accepts : AcceptRules α σ → Node α σ → α → Prop) (activates : TipOps α σ → Node α σ → Prop)
    (state : σ) : Node α σ → Prop
  | genesis : Reaches T nMaxReorganizationDepth accepts activates state (Node.genesis T state)
  | accept {n : Node α σ} {E : AcceptRules α σ} {b : α} :
      Reaches T nMaxReorganizationDepth accepts activates state n → accepts E n b →
      Reaches T nMaxReorganizationDepth accepts activates state
        (n.acceptBlock T nMaxReorganizationDepth E b).1
  | activate {n : Node α σ} {ops : TipOps α σ} :
      Reaches T nMaxReorganizationDepth accepts activates state n → activates ops n →
      Reaches T nMaxReorganizationDepth accepts activates state (n.activateRound T ops).1

/-- **The invariant holds along every run.** -/
theorem nodeInv_reaches {nMax : Int} {accepts : AcceptRules α σ → Node α σ → α → Prop}
    {activates : TipOps α σ → Node α σ → Prop} {state : σ} (hv : V.valid [T.root] state)
    (hacc : ∀ E n b, accepts E n b → E.Obeys V n b)
    (hact : ∀ ops n, activates ops n → ops.Obeys T V) {n : Node α σ}
    (h : Reaches T nMax accepts activates state n) : NodeInv T V [] n := by
  induction h with
  | genesis => exact nodeInv_genesis state hv
  | accept _ ha ih => exact nodeInv_acceptBlock _ ih (hacc _ _ _ ha)
  | activate _ ha ih => exact (activateRound_spec (nodeInv_moves (hact _ _ ha)) ih).1

theorem Reaches.chain {nMax : Int} {accepts : AcceptRules α σ → Node α σ → α → Prop}
    {activates : TipOps α σ → Node α σ → Prop} {state : σ} {n : Node α σ}
    (h : Reaches T nMax accepts activates state n) : ∃ t, n.chainActive = T.branch t := by
  obtain ⟨t, ht, _⟩ := (nodeInv_reaches (V := noVerdicts) trivial
    (fun E n b _ => accept_obeys_noVerdicts E n b) (fun ops _ _ => obeys_noVerdicts ops) h).chain
  exact ⟨t, ht⟩

end Node

end BitBlocks
