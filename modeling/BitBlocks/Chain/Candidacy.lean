import BitBlocks.Chain.NodeInv
import BitBlocks.Chain.Reconsider
import BitBlocks.Lib.Machine

/-!
# Who is a candidate

`CheckBlockIndex` asserts that every entry that could be a better tip is in
`setBlockIndexCandidates`. Chain selection relies on it without looking: a candidate that
is missing is never considered again.

A call of `ActivateBestChain` drops entries that are worse than its tip and may then go
back to a lower one, so the candidates are not complete on the way. What they are complete
against is the best tip so far (`Anchor`), and the call does not return before it is at
least as good as that.
-/

namespace BitBlocks

namespace LevelNode

open Node

variable {α σ : Type} [DecidableEq α] {T : IndexTree α}

/-- What the flags leave alone: how entries are linked, and what is on the active chain. -/
structure Sound (T : IndexTree α) (queue : List α) (n : LevelNode α σ) : Prop where
  inv : NodeInv T noVerdicts queue n
  waiting : ∀ b a, (n.status b).fHaveData = true → T.parent b = some a → ¬ n.Linked a →
    (a, b) ∈ n.mapBlocksUnlinked
  active : ∀ b ∈ n.chainActive, (n.status b).failed = false
  level : ∀ b, (n.status b).fHaveData = true → BLOCK_VALID_TRANSACTIONS ≤ nValid n b

variable {queue : List α} {n m : LevelNode α σ}

section

omit [DecidableEq α]

theorem Sound.eligible_iff (h : Sound T queue n) {b : α} :
    eligible n b = true ↔ n.Linked b ∧ (n.status b).failed = false := by
  unfold eligible isValid
  rw [Bool.and_eq_true, Bool.and_eq_true, Bool.not_eq_true', decide_eq_true_eq, decide_eq_true_eq]
  constructor
  · rintro ⟨⟨hf, -⟩, hl⟩
    exact ⟨hl, hf⟩
  · rintro ⟨hl, hf⟩
    exact ⟨⟨hf, h.level b (h.inv.linked_data b hl)⟩, hl⟩

theorem Sound.complete_iff (h : Sound T queue n) : Complete T n ↔
    ∀ b, n.Linked b → (n.status b).failed = false → NotWorse T n b →
      b ∈ n.setBlockIndexCandidates := by
  constructor
  · intro hc b hl hf hw
    exact hc b (h.inv.known b (h.inv.linked_data b hl)) (h.eligible_iff.mpr ⟨hl, hf⟩) hw
  · intro hc b _ he hw
    obtain ⟨hl, hf⟩ := h.eligible_iff.mp he
    exact hc b hl hf hw

theorem noVerdicts_inconsistent (T : IndexTree α) : ¬ (noVerdicts : Verdicts α σ).Consistent :=
  fun h => h T.root trivial trivial

/-- **Flags come and go**, entries are connected and disconnected: the links stay. -/
theorem Sound.reflag (h : Sound T [] n) (hst : ∀ b, (m.status b).nChainTx = (n.status b).nChainTx ∧
      (m.status b).fHaveData = (n.status b).fHaveData)
    (hindex : m.mapBlockIndex = n.mapBlockIndex) (hunl : m.mapBlocksUnlinked = n.mapBlocksUnlinked)
    (hlevel : ∀ b, nValid n b ≤ nValid m b)
    (hchain : ∃ t, m.chainActive = T.branch t ∧ n.Linked t)
    (hactive : ∀ b ∈ m.chainActive, (m.status b).failed = false)
    (hcand : ∀ b ∈ m.setBlockIndexCandidates, n.Linked b) : Sound T [] m := by
  have hs : SameLinks n m := by
    refine ⟨fun b hb => hindex ▸ hb, hunl, fun b => (hst b).2, fun b => ?_⟩
    unfold Linked
    rw [(hst b).1]
  obtain ⟨t, ht, hlt⟩ := hchain
  refine ⟨h.inv.sameLinks hs ⟨t, ht, hlt, fun _ _ _ => trivial⟩ trivial
    (fun b a hb hp hna => Or.inl (h.waiting b a hb hp hna)) hcand (fun b hb => Or.inl ?_)
    fun hV => absurd hV (noVerdicts_inconsistent T), fun b a hb hp hna => ?_, hactive,
      fun b hb => ?_⟩
  · -- genesis is active, so nothing that is marked is genesis
    refine ⟨b, ParentTree.self_mem_branch b, ?_, trivial⟩
    rintro rfl
    rw [hactive T.root (ht ▸ ParentTree.root_mem_branch t)] at hb
    exact absurd hb (by simp)
  · rw [hs.unlinked]
    exact h.waiting b a (hs.data b ▸ hb) hp fun hla => hna ((hs.linked a).mpr hla)
  · exact (h.level b (hs.data b ▸ hb)).trans (hlevel b)

end

/-! ## `ActivateBestChain` -/

/-- The candidates are complete against an entry, and nothing is wrong with its branch. -/
structure Anchor (T : IndexTree α) (V : Verdicts α σ) (n : LevelNode α σ) (t : α) : Prop where
  linked : n.Linked t
  unmarked : ∀ a ∈ T.branch t, (n.status a).failed = false
  connects : Connects T V t
  complete : ∀ b, n.Linked b → (n.status b).failed = false → n.workLess T b t = false →
    b ∈ n.setBlockIndexCandidates

structure Anchored (T : IndexTree α) (V : Verdicts α σ) (n : LevelNode α σ) : Prop where
  sound : Sound T [] n
  valid : V.valid n.chainActive n.state.1
  connects : ∀ t, n.chainActive = T.branch t → Connects T V t
  anchor : ∃ t, Anchor T V n t

variable {V : Verdicts α σ} {ops : TipOps α σ}

/-- Marking entries whose branch does not connect, and dropping marked candidates. -/
theorem Anchored.marked (h : Anchored T V n) (hlater : Later n m)
    (hchain : m.chainActive = n.chainActive) (hstate : m.state = n.state)
    (hunl : m.mapBlocksUnlinked = n.mapBlocksUnlinked)
    (hmono : ∀ b, (n.status b).failed = true → (m.status b).failed = true)
    (hgood : ∀ t, (∀ a ∈ T.branch t, (n.status a).failed = false) → Connects T V t →
      ∀ a ∈ T.branch t, (m.status a).failed = false)
    (hdropped : ∀ b ∈ n.setBlockIndexCandidates, b ∉ m.setBlockIndexCandidates →
      (m.status b).failed = true) : Anchored T V m := by
  obtain ⟨t, ht, hgt⟩ := h.sound.inv.chain
  obtain ⟨u, hu⟩ := h.anchor
  refine ⟨h.sound.reflag (fun b => ⟨hlater.chainTx b, hlater.data b⟩) hlater.index hunl ?_
    ⟨t, hchain.trans ht, hgt.1⟩ ?_ fun b hb =>
      h.sound.inv.candidates_linked b (hlater.candidates hb),
    by rw [hchain, hstate]; exact h.valid, by rw [hchain]; exact h.connects,
    ⟨u, (hlater.linked u).mpr hu.linked, hgood u hu.unmarked hu.connects, hu.connects,
      fun b hl hf hw => ?_⟩⟩
  · intro b
    show n.state.2 b ≤ m.state.2 b
    rw [hstate]
  · rw [hchain, ht]
    exact hgood t (fun a ha => h.sound.active a (ht ▸ ha)) (h.connects t ht)
  · have hfn : (n.status b).failed = false := by
      by_contra hne
      rw [hmono b ((Bool.not_eq_false _).mp hne)] at hf
      exact absurd hf (by simp)
    have hb := hu.complete b ((hlater.linked b).mp hl) hfn ((hlater.workLess b u).symm.trans hw)
    by_contra hnot
    rw [hdropped b hb hnot] at hf
    exact absurd hf (by simp)

theorem Anchored.discard (h : Anchored T V n) {b t : α} (hb : b ∈ n.setBlockIndexCandidates)
    (ht : t ∈ T.branch b) (hu : n.unusable t = true) : Anchored T V (n.discard T b t) := by
  have hlt := h.sound.inv.linked_branch (h.sound.inv.candidates_linked b hb) ht
  have hft : (n.status t).failed = true := by
    simpa [unusable, h.sound.inv.linked_data t hlt] using hu
  have hlater := later_discard (T := T) n b t
  unfold Node.discard at hlater ⊢
  dsimp only at hlater ⊢
  rw [if_pos hft] at hlater ⊢
  refine h.marked hlater rfl rfl rfl (fun a ha => ?_) (fun u hunm _ a ha => ?_) fun a ha hna => ?_
  · dsimp only
    split
    · simp [BlockStatus.failed]
    · exact ha
  · dsimp only
    split
    · -- above a marked entry nothing has an unmarked branch
      rename_i hin
      have htu := ParentTree.mem_branch_trans ha (mem_above ht hin)
      rw [hunm t htu] at hft
      exact absurd hft (by simp)
    · exact hunm a ha
  · dsimp only
    by_cases hin : a ∈ (T.branch b).takeWhile fun a => decide (a ≠ t)
    · rw [if_pos hin]
      simp [BlockStatus.failed]
    · rw [if_neg hin]
      by_cases hat : a = t
      · exact hat ▸ hft
      · exact absurd (List.mem_filter.mpr ⟨ha, by simpa [hat] using hin⟩) hna

theorem Anchored.invalidBlockFound (hV : V.Consistent) (h : Anchored T V n) {b t : α}
    (hp : T.parent b = some t) (hb : V.broken b) : Anchored T V (n.invalidBlockFound b) := by
  have hroot : b ≠ T.root := by
    rintro rfl
    rw [T.parent_root] at hp
    exact absurd hp (by simp)
  refine h.marked (later_invalidBlockFound n b) rfl rfl rfl (fun a ha => ?_)
    (fun u hunm hc a ha => ?_) fun a ha hna => ?_
  · rw [invalidBlockFound_status]
    split
    · simp [BlockStatus.failed]
    · exact ha
  · rw [invalidBlockFound_status]
    split
    · rename_i hab
      exact absurd hb (hV b (hc b (hab ▸ ha) hroot))
    · exact hunm a ha
  · by_cases hab : a = b
    · rw [invalidBlockFound_status, if_pos hab]
      simp [BlockStatus.failed]
    · exact absurd (List.mem_filter.mpr ⟨ha, by simpa using hab⟩) hna

omit [DecidableEq α] in
theorem Anchored.disconnect (h : Anchored T V n) {t p : α} {s : σ}
    (hchain : n.chainActive = T.branch t) (hp : T.parent t = some p)
    (hs : V.valid (T.branch p) s) :
    Anchored T V
      ({ n with chainActive := T.branch p, state := (s, n.state.2) } : LevelNode α σ) := by
  obtain ⟨t', ht', hg⟩ := h.sound.inv.chain
  have htt : t = t' := ParentTree.branch_injective (hchain.symm.trans ht')
  subst htt
  refine ⟨h.sound.reflag (fun _ => ⟨rfl, rfl⟩) rfl rfl (fun _ => Nat.le_refl _)
    ⟨p, rfl, h.sound.inv.linked_parent t p hg.1 hp⟩ (fun a ha => h.sound.active a ?_)
    h.sound.inv.candidates_linked, hs, fun u hu => ?_, ?_⟩
  · rw [hchain]
    exact ParentTree.mem_branch_trans (ParentTree.parent_mem_branch hp) ha
  · obtain rfl : p = u := ParentTree.branch_injective hu
    exact (h.connects t hchain).of_mem (ParentTree.parent_mem_branch hp)
  · obtain ⟨u, hu⟩ := h.anchor
    exact ⟨u, hu.linked, hu.unmarked, hu.connects, hu.complete⟩

omit [DecidableEq α] in
theorem Anchor.connectTip {u b : α} {s : σ × Levels α} (hu : Anchor T V n u) (hlb : n.Linked b)
    (hunm : ∀ a ∈ T.branch b, (n.status a).failed = false) (hc : Connects T V b) :
    ∃ t, Anchor T V (n.connectTip T b s) t := by
  have hlater := later_connectTip (T := T) n b s
  have hst : ∀ a, ((n.connectTip T b s).status a).failed = (n.status a).failed := fun a => by
    rw [connectTip_status]
  -- what is kept is what is as good as the new tip
  have hkeep : ∀ c, n.workLess T c u = false → n.workLess T c b = false →
      (n.connectTip T b s).Linked c → ((n.connectTip T b s).status c).failed = false →
      c ∈ (n.connectTip T b s).setBlockIndexCandidates := by
    intro c hcu hcb hl hf
    exact mem_connectTip_candidates.mpr
      ⟨hu.complete c ((hlater.linked c).mp hl) ((hst c).symm.trans hf) hcu, hcb⟩
  cases hub : n.workLess T u b with
  | true =>
    have hbu : n.workLess T b u = false := by
      by_contra hne
      have hirr := workLess_trans hub ((Bool.not_eq_false _).mp hne)
      rw [workLess_irrefl] at hirr
      exact absurd hirr (by simp)
    refine ⟨b, (hlater.linked b).mpr hlb, fun a ha => (hst a).trans (hunm a ha), hc,
      fun c hl hf hw => ?_⟩
    rw [hlater.workLess] at hw
    exact hkeep c (not_workLess_trans hbu hw) hw hl hf
  | false =>
    refine ⟨u, (hlater.linked u).mpr hu.linked, fun a ha => (hst a).trans (hu.unmarked a ha),
      hu.connects, fun c hl hf hw => ?_⟩
    rw [hlater.workLess] at hw
    exact hkeep c hw (not_workLess_trans hub hw) hl hf

theorem Anchored.connect (h : Anchored T V n) {t b : α} {s : σ}
    (hchain : n.chainActive = T.branch t) (hp : T.parent b = some t) (hu : Usable n b)
    (hb : V.connects b) (hs : V.valid (T.branch b) s) :
    Anchored T V (n.connectTip T b (s, n.state.2.raise b BLOCK_VALID_SCRIPTS)) := by
  obtain ⟨t', ht', hg⟩ := h.sound.inv.chain
  have htt : t = t' := ParentTree.branch_injective (hchain.symm.trans ht')
  subst htt
  have hlb : n.Linked b := by
    rcases h.sound.inv.data_linked b hu.2
      (fun a ha => by rw [hp] at ha; rw [← Option.some.inj ha]; exact hg.1) with hl | hq
    · exact hl
    · simp at hq
  have hunm : ∀ a ∈ T.branch b, (n.status a).failed = false := by
    intro a ha
    rcases (ParentTree.mem_branch_parent hp).mp ha with rfl | ha
    · exact hu.1
    · exact h.sound.active a (hchain ▸ ha)
  have hc : Connects T V b := (h.connects t hchain).child hp hb
  have hlater := later_connectTip (T := T) n b (s, n.state.2.raise b BLOCK_VALID_SCRIPTS)
  have hbranch : (n.connectTip T b (s, n.state.2.raise b BLOCK_VALID_SCRIPTS)).chainActive =
      T.branch b := by rw [connectTip_chainActive, hchain, ParentTree.branch_parent hp]
  obtain ⟨u, hu⟩ := h.anchor
  refine ⟨h.sound.reflag (fun a => ⟨hlater.chainTx a, hlater.data a⟩) hlater.index (by simp)
    (fun a => ?_) ⟨b, hbranch, hlb⟩ (fun a ha => ?_)
    (fun a ha => h.sound.inv.candidates_linked a (hlater.candidates ha)), ?_, fun w hw => ?_,
    hu.connectTip hlb hunm hc⟩
  · -- levels are only raised
    show n.state.2 a ≤ _
    unfold nValid
    rw [connectTip_state]
    show _ ≤ Function.update n.state.2 b _ a
    by_cases hab : a = b
    · rw [hab, Function.update_self]
      exact Nat.le_max_left _ _
    · rw [Function.update_of_ne hab]
  · rw [connectTip_status]
    exact hunm a (hbranch ▸ ha)
  · rw [hbranch, connectTip_state]
    exact hs
  · obtain rfl : b = w := ParentTree.branch_injective (hbranch.symm.trans hw)
    exact hc

theorem connected_of_raising {x s : σ × Levels α} {b : α}
    (h : ops.raising.connect x b = .connected s) :
    ∃ s', ops.connect x.1 b = .connected s' ∧ s = (s', x.2.raise b BLOCK_VALID_SCRIPTS) := by
  unfold TipOps.raising at h
  dsimp only at h
  cases hres : ops.connect x.1 b with
  | connected s' =>
    rw [hres] at h
    exact ⟨s', rfl, (TipResult.connected.inj h).symm⟩
  | invalid c => rw [hres] at h; exact absurd h (by simp)
  | error => rw [hres] at h; exact absurd h (by simp)

theorem invalid_of_raising {x : σ × Levels α} {b : α} {c : Bool}
    (h : ops.raising.connect x b = .invalid c) : ops.connect x.1 b = .invalid c := by
  unfold TipOps.raising at h
  dsimp only at h
  cases hres : ops.connect x.1 b with
  | invalid c' =>
    rw [hres] at h
    exact congrArg _ (TipResult.invalid.inj h)
  | connected s' => rw [hres] at h; exact absurd h (by simp)
  | error => rw [hres] at h; exact absurd h (by simp)

theorem anchored_moves (hV : V.Consistent) (ho : ops.Obeys T V) :
    Moves T ops.raising (Anchored T V) where
  chain h := h.sound.inv.chain.imp fun _ ht => ht.1
  discard h hb ht _ hu := h.discard hb ht hu
  disconnect {n t p s} h hchain hp hd := by
    obtain ⟨s', hs', rfl⟩ := Option.map_eq_some_iff.mp hd
    have hv := h.valid
    rw [hchain] at hv
    exact h.disconnect hchain hp (ho.disconnect hv hp hs')
  connect {n t b s} h hchain hp hu hc := by
    have hv := h.valid
    rw [hchain] at hv
    obtain ⟨s', hs', rfl⟩ := connected_of_raising hc
    obtain ⟨h1, h2⟩ := ho.connected hv hp hs'
    exact h.connect hchain hp hu h1 h2
  invalid {n t b} h hchain hp _ hc := by
    have hv := h.valid
    rw [hchain] at hv
    exact h.invalidBlockFound hV hp (ho.invalid hv hp (invalid_of_raising hc))

omit [DecidableEq α] in
theorem Anchored.complete (h : Anchored T V n) (hend : n.setBlockIndexCandidates = [] ∨
      ∃ t, n.tip = some t ∧ ∀ b ∈ n.setBlockIndexCandidates, n.workLess T t b = false) :
    Complete T n := by
  obtain ⟨u, hu⟩ := h.anchor
  have humem : u ∈ n.setBlockIndexCandidates :=
    hu.complete u hu.linked (hu.unmarked u (ParentTree.self_mem_branch u)) (workLess_irrefl n u)
  rcases hend with hnil | ⟨t, ht, hbest⟩
  · rw [hnil] at humem
    simp at humem
  · refine h.sound.complete_iff.mpr fun b hl hf hw => ?_
    exact hu.complete b hl hf (not_workLess_trans (hbest u humem) (hw t ht))

/--
What `ConnectTip` and `DisconnectTip` have to be like in a call: there is a verdict on the
blocks by which none that is active, or gets connected, is found invalid.
-/
def Steady (T : IndexTree α) (ops : TipOps α σ) (n : LevelNode α σ) : Prop :=
  ∃ V : Verdicts α σ, V.Consistent ∧ ops.Obeys T V ∧ V.valid n.chainActive n.state.1 ∧
    ∀ b ∈ n.chainActive, b ≠ T.root → V.connects b

theorem Anchored.activateBestChain (hV : V.Consistent) (ho : ops.Obeys T V) :
    ∀ {fuel : Nat} {n m : LevelNode α σ}, Anchored T V n →
      n.activateBestChain T ops.raising fuel = some (m, true) → Sound T [] m ∧ Complete T m
  | 0, _, _, _, hr => by simp [Node.activateBestChain] at hr
  | fuel + 1, n, m, h, hr => by
    obtain ⟨h1, -, hend⟩ := activateRound_spec (anchored_moves hV ho) h
    rw [Node.activateBestChain] at hr
    cases hround : activateRound T ops.raising n with
    | mk n1 progress =>
      rw [hround] at hr h1 hend
      cases progress with
      | again => exact Anchored.activateBestChain hV ho h1 hr
      | returned success =>
        obtain ⟨rfl, rfl⟩ := Prod.mk.inj (Option.some.inj hr)
        exact ⟨h1.sound, h1.complete hend⟩

/-- **`ActivateBestChain`**: what was complete before is complete after. -/
theorem Sound.activateBestChain (h : Sound T [] n) (hc : Complete T n) (hsteady : Steady T ops n)
    {fuel : Nat} (hr : n.activateBestChain T ops.raising fuel = some (m, true)) :
    Sound T [] m ∧ Complete T m := by
  obtain ⟨V, hV, ho, hvalid, hconn⟩ := hsteady
  obtain ⟨t, ht, hg⟩ := h.inv.chain
  have hconnects : Connects T V t := fun a ha hroot => hconn a (ht ▸ ha) hroot
  refine Anchored.activateBestChain hV ho ⟨h, hvalid, fun u hu => ?_, t, ?_⟩ hr
  · obtain rfl : t = u := ParentTree.branch_injective (ht.symm.trans hu)
    exact hconnects
  · refine ⟨hg.1, fun a ha => h.active a (ht ▸ ha), hconnects, fun b hl hf hw => ?_⟩
    refine h.complete_iff.mp hc b hl hf fun tip htip => ?_
    rw [tip_branch ht] at htip
    exact Option.some.inj htip ▸ hw

/-! ## `ReceivedBlockTransactions` -/

/-- What working off the queue keeps, besides the links. -/
structure Kept (T : IndexTree α) (n : LevelNode α σ) : Prop where
  waiting : ∀ b a, (n.status b).fHaveData = true → T.parent b = some a → ¬ n.Linked a →
    (a, b) ∈ n.mapBlocksUnlinked
  active : ∀ b ∈ n.chainActive, (n.status b).failed = false
  level : ∀ b, (n.status b).fHaveData = true → BLOCK_VALID_TRANSACTIONS ≤ nValid n b
  complete : ∀ b, n.Linked b → (n.status b).failed = false → NotWorse T n b →
    b ∈ n.setBlockIndexCandidates

omit [DecidableEq α] in
theorem sound_and_complete_iff : Sound T queue n ∧ Complete T n ↔
    NodeInv T noVerdicts queue n ∧ Kept T n := by
  constructor
  · rintro ⟨h, hc⟩
    exact ⟨h.inv, h.waiting, h.active, h.level, h.complete_iff.mp hc⟩
  · rintro ⟨hinv, hk⟩
    have h : Sound T queue n := ⟨hinv, hk.waiting, hk.active, hk.level⟩
    exact ⟨h, h.complete_iff.mpr hk.complete⟩

/-- **One round of the queue.** -/
theorem Kept.linkFirst {x : α} (hinv : NodeInv T noVerdicts (x :: queue) n) (h : Kept T n) :
    Kept T { n.link T x with mapBlocksUnlinked :=
      (n.link T x).mapBlocksUnlinked.filter fun e => decide (e.1 ≠ x) } := by
  have hk := link_linkedNow T n x
  obtain ⟨-, hx, -⟩ := hinv.pending x (by simp)
  obtain ⟨t, ht, hg⟩ := hinv.chain
  have htx : t ≠ x := by
    rintro rfl
    exact hx hg.1
  have htip : n.tip = some t := tip_branch ht
  have htip' : (n.link T x).tip = some t := by
    rw [tip, hk.chain, ← tip]
    exact htip
  refine ⟨fun b a hb hp hna => ?_, fun b hb => ?_, fun b hb => ?_, fun b hl hf hw => ?_⟩
  · have hax : a ≠ x := by
      rintro rfl
      exact hna hk.linked
    have hna' : ¬ n.Linked a := fun hla => hna ((hk.linked_iff a).mpr (Or.inr hla))
    refine List.mem_filter.mpr ⟨?_, by simpa using hax⟩
    rw [hk.unlinked]
    exact h.waiting b a ((hk.data b).symm.trans hb) hp hna'
  · exact (hk.failed b).trans (h.active b (hk.chain ▸ hb))
  · show BLOCK_VALID_TRANSACTIONS ≤ (n.link T x).state.2 b
    rw [hk.state]
    exact h.level b ((hk.data b).symm.trans hb)
  · have hw := hw t htip'
    by_cases hbx : b = x
    · -- the entry is compared with the tip when it is linked
      subst hbx
      rcases hk.considered t htip with hmem | hless
      · exact hmem
      · exact absurd (hless.symm.trans hw) (by simp)
    · have hless := hk.workLess_eq hbx htx
      refine (hk.candidates b hbx).mpr (h.complete b ?_ ((hk.failed b).symm.trans hf) ?_)
      · exact ((hk.linked_iff b).mp hl).resolve_left hbx
      · intro tip htip1
        obtain rfl : t = tip := Option.some.inj (htip.symm.trans htip1)
        exact hless.symm.trans hw

theorem Kept.linkQueue : ∀ {fuel : Nat} {queue : List α} {n : LevelNode α σ},
    NodeInv T noVerdicts queue n → Kept T n → Kept T (Node.linkQueue T fuel queue n)
  | 0, _, _, _, h => h
  | _ + 1, [], _, _, h => h
  | _ + 1, _ :: _, _, hinv, h => by
    rw [Node.linkQueue]
    exact Kept.linkQueue hinv.linkFirst (h.linkFirst hinv)

theorem Kept.raiseValidity (h : Kept T n) (nUpTo : Nat) (b : α) :
    Kept T (LevelNode.raiseValidity n nUpTo b) := by
  unfold LevelNode.raiseValidity
  split
  · exact h
  · refine ⟨h.waiting, h.active, fun c hc => (h.level c hc).trans ?_, h.complete⟩
    show n.state.2 c ≤ Function.update n.state.2 b _ c
    by_cases hcb : c = b
    · rw [hcb, Function.update_self]
      exact Nat.le_max_left _ _
    · rw [Function.update_of_ne hcb]

theorem Kept.haveData (hinv : NodeInv T noVerdicts [] n) (h : Kept T n) {b a : α}
    (hd : (n.status b).fHaveData = false) (hp : T.parent b = some a)
    (hlevel : BLOCK_VALID_TRANSACTIONS ≤ nValid n b) {u : List (α × α)}
    (hsub : ∀ e ∈ n.mapBlocksUnlinked, e ∈ u) (hwait : ¬ n.Linked a → (a, b) ∈ u) :
    Kept T { n.haveData b with mapBlocksUnlinked := u } := by
  have hl := hinv.haveData_linked hd
  refine ⟨fun c d hcd hpc hnd => ?_, fun c hca => ?_, fun c hcd => ?_, fun c hlc hfc hw => ?_⟩
  · have hnd' : ¬ n.Linked d := fun hld => hnd ((hl d).mpr hld)
    rcases (haveData_data n b c).mp hcd with rfl | hcd
    · obtain rfl : a = d := Option.some.inj (hp.symm.trans hpc)
      exact hwait hnd'
    · exact hsub _ (h.waiting c d hcd hpc hnd')
  · exact (haveData_failed n b c).trans (h.active c hca)
  · rcases (haveData_data n b c).mp hcd with hcb | hcd
    · exact hcb ▸ hlevel
    · exact h.level c hcd
  · refine h.complete c ((hl c).mp hlc) ((haveData_failed n b c).symm.trans hfc) fun tip htip => ?_
    exact (haveData_workLess n b c tip).symm.trans (hw tip htip)

theorem Kept.receivedBlockTransactions (hinv : NodeInv T noVerdicts [] n) (h : Kept T n) {b a : α}
    (hb : b ∈ n.mapBlockIndex) (hd : (n.status b).fHaveData = false)
    (hf : (n.status b).failed = false) (hp : T.parent b = some a) (ha : a ∈ n.mapBlockIndex)
    (haf : (n.status a).failed = false) (hlevel : BLOCK_VALID_TRANSACTIONS ≤ nValid n b) :
    Kept T (n.receivedBlockTransactions T b) := by
  by_cases hla : n.Linked a
  · rw [hinv.receivedBlockTransactions_linked hd hp hla]
    have hk := h.haveData hinv hd hp hlevel (u := n.mapBlocksUnlinked) (fun _ he => he)
      fun hna => absurd hla hna
    exact hk.linkQueue (hinv.haveData_linking hb hd hf hp ha trivial hla)
  · rw [hinv.receivedBlockTransactions_waiting hd hp hla haf]
    exact h.haveData hinv hd hp hlevel (fun _ he => List.mem_append_left _ he) fun _ => by simp

theorem Sound.receivedBlockTransactions (h : Sound T [] n) (hc : Complete T n) {b : α}
    (hb : b ∈ n.mapBlockIndex) (hd : (n.status b).fHaveData = false)
    (hf : (n.status b).failed = false) (hprev : prevUsable T n b = true) :
    Sound T [] ((raiseValidity n BLOCK_VALID_TRANSACTIONS b).receivedBlockTransactions T b) ∧
      Complete T ((raiseValidity n BLOCK_VALID_TRANSACTIONS b).receivedBlockTransactions T b) := by
  obtain ⟨hinv, hk⟩ := sound_and_complete_iff.mp ⟨h, hc⟩
  obtain ⟨a, hp⟩ := hinv.exists_parent hd
  unfold prevUsable at hprev
  rw [hp, Option.all_some, Bool.and_eq_true, decide_eq_true_eq, Bool.not_eq_true'] at hprev
  have hk := hk.raiseValidity BLOCK_VALID_TRANSACTIONS b
  have hlevel : BLOCK_VALID_TRANSACTIONS ≤
      nValid (LevelNode.raiseValidity n BLOCK_VALID_TRANSACTIONS b) b := by
    rw [LevelNode.raiseValidity, if_neg (by simp [hf])]
    show _ ≤ Function.update n.state.2 b _ b
    rw [Function.update_self]
    exact Nat.le_max_right _ _
  rw [LevelNode.raiseValidity, if_neg (by simp [hf])] at hk hlevel ⊢
  have hinv' : NodeInv T noVerdicts [] { n with state :=
      (n.state.1, n.state.2.raise b BLOCK_VALID_TRANSACTIONS) } := { hinv with valid := trivial }
  exact sound_and_complete_iff.mpr
    ⟨hinv'.receivedBlockTransactions hb hd hf hp hprev.1 hprev.2 trivial,
      hk.receivedBlockTransactions hinv' hb hd hf hp hprev.1 hprev.2 hlevel⟩

/-! ## The other calls of `AcceptBlock` -/

theorem Sound.addToBlockIndex (h : Sound T [] n) (hc : Complete T n) {b : α}
    (hb : b ∉ n.mapBlockIndex) (nLevel : Nat) :
    Sound T [] ({ n.addToBlockIndex b with
        state := (n.state.1, Function.update n.state.2 b nLevel) } : LevelNode α σ) ∧
      Complete T ({ n.addToBlockIndex b with
        state := (n.state.1, Function.update n.state.2 b nLevel) } : LevelNode α σ) := by
  obtain ⟨hinv, hk⟩ := sound_and_complete_iff.mp ⟨h, hc⟩
  have hst : ∀ c, c ≠ b → (n.addToBlockIndex b).status c = n.status c := fun c hcb =>
    Function.update_of_ne hcb _ _
  have hnew : (n.addToBlockIndex b).status b = {} := Function.update_self _ _ _
  have hinv' := hinv.addToBlockIndex hb
  -- the entry has no data, so it is neither linked nor active
  have hdata : ∀ c, ((n.addToBlockIndex b).status c).fHaveData = true →
      c ≠ b ∧ (n.status c).fHaveData = true := by
    intro c hcd
    have hcb : c ≠ b := by
      rintro rfl
      rw [hnew] at hcd
      exact absurd hcd (by simp)
    exact ⟨hcb, hst c hcb ▸ hcd⟩
  have hne : ∀ c, n.Linked c → c ≠ b := fun c hl hcb =>
    hb (hcb ▸ h.inv.known c (h.inv.linked_data c hl))
  obtain ⟨t, ht, hg⟩ := h.inv.chain
  refine sound_and_complete_iff.mpr ⟨{ hinv' with valid := trivial }, fun c a hcd hp hna => ?_,
    fun c hca => ?_, fun c hcd => ?_, fun c hlc hfc hw => ?_⟩
  · obtain ⟨-, hcd⟩ := hdata c hcd
    have hab : a ≠ b := fun hab => hb (hab ▸ h.inv.parent_known c a hcd hp)
    refine hk.waiting c a hcd hp fun hla => hna ?_
    show ((n.addToBlockIndex b).status a).nChainTx ≠ 0
    rw [hst a hab]
    exact hla
  · have hlc : n.Linked c := h.inv.linked_branch hg.1 (ht ▸ hca)
    exact (congrArg _ (hst c (hne c hlc))).trans (hk.active c hca)
  · obtain ⟨hcb, hcd⟩ := hdata c hcd
    show _ ≤ Function.update n.state.2 b nLevel c
    rw [Function.update_of_ne hcb]
    exact hk.level c hcd
  · have hlc' : ((n.addToBlockIndex b).status c).nChainTx ≠ 0 := hlc
    have hcb : c ≠ b := by
      rintro rfl
      rw [hnew] at hlc'
      exact hlc' rfl
    rw [hst c hcb] at hlc'
    refine hk.complete c hlc' ((congrArg _ (hst c hcb)).symm.trans hfc) fun tip htip => ?_
    have htb : tip ≠ b := by
      refine hne tip ?_
      obtain rfl : t = tip := Option.some.inj ((tip_branch ht).symm.trans htip)
      exact hg.1
    exact (workLess_congr (T := T) (congrArg _ (hst c hcb)) (congrArg _ (hst tip htb))).symm.trans
      (hw tip htip)

theorem Sound.checkFailed (h : Sound T [] n) (hc : Complete T n) {b : α}
    (hd : (n.status b).fHaveData = false) :
    Sound T [] (n.setStatus b fun s => { s with fFailedValid := true }) ∧
      Complete T (n.setStatus b fun s => { s with fFailedValid := true }) := by
  have hst : ∀ c, (n.setStatus b fun s => { s with fFailedValid := true }).status c =
      if c = b then { n.status b with fFailedValid := true } else n.status c :=
    fun c => setStatus_status n b c _
  have hsame : ∀ c, ((n.setStatus b fun s => { s with fFailedValid := true }).status c).nChainTx =
        (n.status c).nChainTx ∧
      ((n.setStatus b fun s => { s with fFailedValid := true }).status c).fHaveData =
        (n.status c).fHaveData := by
    intro c
    rw [hst]
    split
    · rename_i hcb; subst hcb; exact ⟨rfl, rfl⟩
    · exact ⟨rfl, rfl⟩
  have hbl : ∀ c, n.Linked c → c ≠ b := by
    rintro c hl rfl
    rw [h.inv.linked_data c hl] at hd
    exact absurd hd (by simp)
  obtain ⟨t, ht, hg⟩ := h.inv.chain
  have hs : Sound T [] (n.setStatus b fun s => { s with fFailedValid := true }) := by
    refine h.reflag hsame rfl rfl (fun _ => Nat.le_refl _) ⟨t, ht, hg.1⟩ (fun c hca => ?_)
      h.inv.candidates_linked
    rw [hst, if_neg (hbl c (h.inv.linked_branch hg.1 (ht ▸ hca)))]
    exact h.active c hca
  refine ⟨hs, hs.complete_iff.mpr fun c hl hf hw => ?_⟩
  have hlc : n.Linked c := by
    unfold Linked at hl
    rw [(hsame c).1] at hl
    exact hl
  have hcb := hbl c hlc
  rw [hst, if_neg hcb] at hf
  refine h.complete_iff.mp hc c hlc hf fun tip htip => ?_
  have htb : tip ≠ b := by
    obtain rfl : t = tip := Option.some.inj ((tip_branch ht).symm.trans htip)
    exact hbl t hg.1
  exact (workLess_congr (T := T) (by rw [hst, if_neg hcb]) (by rw [hst, if_neg htb])).symm.trans
    (hw tip htip)

end LevelNode

end BitBlocks
