import BitBlocks.Chain.Node

/-!
# What chain selection does, move by move

A round of `ActivateBestChain` is made of five kinds of moves: it discards unusable
candidates, disconnects the tip, connects a block, or finds one invalid, and prunes
the candidates after each connection. `Moves` lists what a property has to survive to
hold after the round, and `activateRound_spec` is the one place where the loops are
walked: the property survives, the history only grows (`Later`), and the round ends
in one of the ways of `RoundEnd`.
-/

namespace BitBlocks

namespace Node

section Order

variable {α σ : Type} {T : IndexTree α}

/-! ## The comparator is a strict total order -/

variable {n n' : Node α σ} {a b c : α}

theorem workLess_iff : n.workLess T a b = true ↔ T.nChainWork a < T.nChainWork b ∨
      (T.nChainWork a = T.nChainWork b ∧ ((n.status b).nSequenceId < (n.status a).nSequenceId ∨
          ((n.status a).nSequenceId = (n.status b).nSequenceId ∧ T.address b < T.address a))) := by
  unfold workLess
  split
  · simp only [Bool.false_eq_true, false_iff]; omega
  split
  · simp only [true_iff]; omega
  split
  · simp only [Bool.false_eq_true, false_iff]; omega
  split
  · simp only [true_iff]; omega
  split
  · simp only [Bool.false_eq_true, false_iff]; omega
  · simp only [decide_eq_true_eq]; omega

theorem workLess_irrefl (n : Node α σ) (a : α) : n.workLess T a a = false := by
  rw [← Bool.not_eq_true, workLess_iff]; omega

theorem workLess_trans (h : n.workLess T a b = true) (h' : n.workLess T b c = true) :
    n.workLess T a c = true := by
  rw [workLess_iff] at *; omega

theorem workLess_total (h : n.workLess T a b = false) (h' : n.workLess T b a = false) : a = b := by
  rw [← Bool.not_eq_true, workLess_iff] at h h'
  exact T.address_injective (by omega)

theorem not_workLess_trans (h : n.workLess T b a = false) (h' : n.workLess T c b = false) :
    n.workLess T c a = false := by
  rw [← Bool.not_eq_true, workLess_iff] at *; omega

theorem workLess_congr (ha : (n'.status a).nSequenceId = (n.status a).nSequenceId)
    (hb : (n'.status b).nSequenceId = (n.status b).nSequenceId) :
    n'.workLess T a b = n.workLess T a b := by
  unfold workLess
  rw [ha, hb]

theorem greatest_eq_none {less : α → α → Bool} {l : List α} : greatest less l = none ↔ l = [] := by
  cases l with
  | nil => simp [greatest]
  | cons a l =>
    simp only [greatest, reduceCtorEq, iff_false]
    split
    · simp
    · split <;> simp

/-- **The greatest candidate** is one, and no candidate is better. -/
theorem greatest_spec {m : α} : ∀ {l : List α},
    greatest (n.workLess T) l = some m → m ∈ l ∧ ∀ b ∈ l, n.workLess T m b = false
  | [], h => by simp [greatest] at h
  | a :: l, h => by
    rw [greatest] at h
    cases hg : greatest (n.workLess T) l with
    | none =>
      rw [hg] at h
      rw [greatest_eq_none.mp hg]
      simp only [Option.some.injEq] at h
      subst h
      simp [workLess_irrefl]
    | some b =>
      obtain ⟨hb, hbest⟩ := greatest_spec hg
      rw [hg] at h
      dsimp only at h
      split at h
      · rename_i hlt
        rw [Option.some.injEq] at h
        subst h
        refine ⟨by simp, fun c hc => ?_⟩
        rcases List.mem_cons.mp hc with rfl | hc
        · exact workLess_irrefl n _
        · by_contra hne
          rw [Bool.not_eq_false] at hne
          have := workLess_trans hlt hne
          rw [hbest c hc] at this
          exact absurd this (by simp)
      · rename_i hlt
        rw [Option.some.injEq] at h
        subst h
        refine ⟨List.mem_cons_of_mem _ hb, fun c hc => ?_⟩
        rcases List.mem_cons.mp hc with rfl | hc
        · simpa using hlt
        · exact hbest c hc

/-! ## What only grows -/

/-- What chain selection leaves of the index: data and order stay, failures accumulate. -/
structure Later (n n' : Node α σ) : Prop where
  index : n'.mapBlockIndex = n.mapBlockIndex
  chainTx : ∀ b, (n'.status b).nChainTx = (n.status b).nChainTx
  sequence : ∀ b, (n'.status b).nSequenceId = (n.status b).nSequenceId
  data : ∀ b, (n'.status b).fHaveData = (n.status b).fHaveData
  failed : ∀ b, (n.status b).fFailedValid = true → (n'.status b).fFailedValid = true
  candidates : n'.setBlockIndexCandidates ⊆ n.setBlockIndexCandidates

theorem Later.refl (n : Node α σ) : Later n n :=
  ⟨rfl, fun _ => rfl, fun _ => rfl, fun _ => rfl, fun _ h => h, List.Subset.refl _⟩

theorem Later.trans {n1 n2 : Node α σ} (h : Later n n1) (h' : Later n1 n2) : Later n n2 :=
  ⟨h'.index.trans h.index, fun b => (h'.chainTx b).trans (h.chainTx b),
    fun b => (h'.sequence b).trans (h.sequence b), fun b => (h'.data b).trans (h.data b),
    fun b hb => h'.failed b (h.failed b hb), fun _ hc => h.candidates (h'.candidates hc)⟩

theorem Later.workLess (h : Later n n') (a b : α) : n'.workLess T a b = n.workLess T a b :=
  workLess_congr (h.sequence a) (h.sequence b)

@[simp] theorem prune_chainActive (n : Node α σ) :
    (n.pruneBlockIndexCandidates T).chainActive = n.chainActive := by
  unfold pruneBlockIndexCandidates; split <;> rfl

@[simp] theorem prune_status (n : Node α σ) :
    (n.pruneBlockIndexCandidates T).status = n.status := by
  unfold pruneBlockIndexCandidates; split <;> rfl

@[simp] theorem prune_state (n : Node α σ) : (n.pruneBlockIndexCandidates T).state = n.state := by
  unfold pruneBlockIndexCandidates; split <;> rfl

@[simp] theorem prune_mapBlockIndex (n : Node α σ) :
    (n.pruneBlockIndexCandidates T).mapBlockIndex = n.mapBlockIndex := by
  unfold pruneBlockIndexCandidates; split <;> rfl

@[simp] theorem prune_mapBlocksUnlinked (n : Node α σ) :
    (n.pruneBlockIndexCandidates T).mapBlocksUnlinked = n.mapBlocksUnlinked := by
  unfold pruneBlockIndexCandidates; split <;> rfl

@[simp] theorem connectTip_chainActive (n : Node α σ) (b : α) (s : σ) :
    (n.connectTip T b s).chainActive = b :: n.chainActive := by simp [connectTip]

@[simp] theorem connectTip_status (n : Node α σ) (b : α) (s : σ) :
    (n.connectTip T b s).status = n.status := by simp [connectTip]

@[simp] theorem connectTip_state (n : Node α σ) (b : α) (s : σ) :
    (n.connectTip T b s).state = s := by simp [connectTip]

@[simp] theorem connectTip_mapBlockIndex (n : Node α σ) (b : α) (s : σ) :
    (n.connectTip T b s).mapBlockIndex = n.mapBlockIndex := by simp [connectTip]

@[simp] theorem connectTip_mapBlocksUnlinked (n : Node α σ) (b : α) (s : σ) :
    (n.connectTip T b s).mapBlocksUnlinked = n.mapBlocksUnlinked := by simp [connectTip]

theorem mem_connectTip_candidates {s : σ} : c ∈ (n.connectTip T b s).setBlockIndexCandidates ↔
      c ∈ n.setBlockIndexCandidates ∧ n.workLess T c b = false := by
  rw [show (n.connectTip T b s).setBlockIndexCandidates
    = n.setBlockIndexCandidates.filter fun c => !n.workLess T c b from rfl, List.mem_filter]
  simp

end Order

variable {α σ : Type} [DecidableEq α] {T : IndexTree α} {ops : TipOps α σ}

theorem later_discard (n : Node α σ) (b t : α) : Later n (n.discard T b t) := by
  have hsub : ∀ p : α → Bool, n.setBlockIndexCandidates.filter p ⊆ n.setBlockIndexCandidates :=
    fun p _ h => List.mem_of_mem_filter h
  unfold discard
  dsimp only
  split
  · refine ⟨rfl, ?_, ?_, ?_, ?_, hsub _⟩
    all_goals
      intro a
      dsimp only
      split <;> simp
  · exact ⟨rfl, fun _ => rfl, fun _ => rfl, fun _ => rfl, fun _ h => h, hsub _⟩

omit [DecidableEq α] in
theorem later_connectTip (n : Node α σ) (b : α) (s : σ) : Later n (n.connectTip T b s) :=
  ⟨by simp, by simp, by simp, by simp, by simp, fun _ hc => (mem_connectTip_candidates.mp hc).1⟩

theorem invalidBlockFound_status (n : Node α σ) (b a : α) : (n.invalidBlockFound b).status a
      = if a = b then { n.status b with fFailedValid := true } else n.status a := by
  unfold invalidBlockFound setStatus
  by_cases h : a = b
  · subst h; simp
  · simp [h]

theorem later_invalidBlockFound (n : Node α σ) (b : α) : Later n (n.invalidBlockFound b) := by
  refine ⟨rfl, ?_, ?_, ?_, ?_, fun _ h => List.mem_of_mem_filter h⟩
  all_goals
    intro a
    rw [invalidBlockFound_status]
    split
    · rename_i h; subst h; simp
    · simp

/-- **A round takes its candidate out of the set**: it is on the path that is discarded. -/
theorem length_discard_lt {n : Node α σ} {m t : α} (hmem : m ∈ n.setBlockIndexCandidates)
    (ht : t ∈ T.branch m) :
    (n.discard T m t).setBlockIndexCandidates.length < n.setBlockIndexCandidates.length := by
  have hin : m ∈ t :: (T.branch m).takeWhile fun a => decide (a ≠ t) := by
    by_cases hmt : m = t
    · exact List.mem_cons.mpr (Or.inl hmt)
    · refine List.mem_cons_of_mem _ ((ParentTree.mem_takeWhile_branch ht).mpr ?_)
      refine ⟨ParentTree.self_mem_branch m, ?_⟩
      exact (ParentTree.depth_le_of_mem ht).resolve_left fun h => hmt h.symm
  have hgone : m ∉ (n.discard T m t).setBlockIndexCandidates := by
    unfold discard
    dsimp only
    split <;> simp only [List.mem_filter, not_and, decide_eq_true_eq,
      Decidable.not_not] <;> exact fun _ => hin
  have hfilter : ∃ p : α → Bool, (n.discard T m t).setBlockIndexCandidates
      = n.setBlockIndexCandidates.filter p := by
    unfold discard
    dsimp only
    split <;> exact ⟨_, rfl⟩
  obtain ⟨p, hp⟩ := hfilter
  rw [hp] at hgone ⊢
  refine List.length_filter_lt_length_iff_exists.mpr ⟨m, hmem, ?_⟩
  intro hpm
  exact hgone (List.mem_filter.mpr ⟨hmem, hpm⟩)

/-! ## The moves -/

/-- The entry is not marked failed, and its block is on disk. -/
def Usable (n : Node α σ) (b : α) : Prop :=
  (n.status b).failed = false ∧ (n.status b).fHaveData = true

omit [DecidableEq α] in
theorem not_unusable {n : Node α σ} {b : α} : n.unusable b = false ↔ Usable n b := by
  simp [unusable, Usable]

variable (T ops) in
/-- What a property of nodes has to survive to survive a round. -/
structure Moves (P : Node α σ → Prop) : Prop where
  /-- The property implies that the active chain is a branch. -/
  chain : ∀ {n}, P n → ∃ t, n.chainActive = T.branch t
  discard : ∀ {n b t}, P n → b ∈ n.setBlockIndexCandidates → t ∈ T.branch b →
    t ∉ n.chainActive → n.unusable t = true → P (n.discard T b t)
  disconnect : ∀ {n t p s}, P n → n.chainActive = T.branch t → T.parent t = some p →
    ops.disconnect n.state t = some s → P { n with chainActive := T.branch p, state := s }
  connect : ∀ {n t b s}, P n → n.chainActive = T.branch t → T.parent b = some t → Usable n b →
    ops.connect n.state b = .connected s → P (n.connectTip T b s)
  invalid : ∀ {n t b}, P n → n.chainActive = T.branch t → T.parent b = some t → Usable n b →
    ops.connect n.state b = .invalid false → P (n.invalidBlockFound b)

variable (ops) in
/-- Some operation on the tip did not give a plain answer. -/
def Stuck : Prop := (∃ s b, ops.disconnect s b = none) ∨
    ∃ s b, ops.connect s b = .error ∨ ops.connect s b = .invalid true

/-- A block that was not marked invalid now is. -/
def Broke (st st' : α → BlockStatus) : Prop :=
  ∃ b, (st b).fFailedValid = false ∧ (st b).fHaveData = true ∧ (st' b).fFailedValid = true

/-- The tip has more work than before. -/
def Improved (T : IndexTree α) (n n' : Node α σ) : Prop :=
  ∀ old, n.tip = some old → ∃ t, n'.tip = some t ∧ T.nChainWork old < T.nChainWork t

omit [DecidableEq α] in
theorem tip_branch {n : Node α σ} {t : α} (h : n.chainActive = T.branch t) : n.tip = some t := by
  rw [tip, h, ParentTree.head?_branch]

section Loops

variable {P : Node α σ → Prop}

/-- **`FindMostWorkChain`** returns the best candidate left, with a usable path to it. -/
theorem findMostWorkChain_spec (hm : Moves T ops P) : ∀ {k : Nat} {n : Node α σ}, P n →
    n.setBlockIndexCandidates.length ≤ k →
    P (findMostWorkChain T k n).1 ∧ Later n (findMostWorkChain T k n).1 ∧
      (findMostWorkChain T k n).1.chainActive = n.chainActive ∧
      (findMostWorkChain T k n).1.state = n.state ∧
      match (findMostWorkChain T k n).2 with
      | none => (findMostWorkChain T k n).1.setBlockIndexCandidates = []
      | some m => m ∈ (findMostWorkChain T k n).1.setBlockIndexCandidates ∧
          (∀ b ∈ (findMostWorkChain T k n).1.setBlockIndexCandidates,
            (findMostWorkChain T k n).1.workLess T m b = false) ∧
          ∀ c ∈ (findMostWorkChain T k n).1.offChain T m, Usable (findMostWorkChain T k n).1 c
  | 0, n, hP, hlen => by
    have hnil : n.setBlockIndexCandidates = [] := List.length_eq_zero_iff.mp (by omega)
    exact ⟨hP, Later.refl n, rfl, rfl, hnil⟩
  | k + 1, n, hP, hlen => by
    rw [findMostWorkChain]
    cases hg : greatest (n.workLess T) n.setBlockIndexCandidates with
    | none => exact ⟨hP, Later.refl n, rfl, rfl, greatest_eq_none.mp hg⟩
    | some m =>
      obtain ⟨hmem, hbest⟩ := greatest_spec hg
      dsimp only
      cases hf : (n.offChain T m).find? n.unusable with
      | none =>
        refine ⟨hP, Later.refl n, rfl, rfl, hmem, hbest, fun c hc => ?_⟩
        have := List.find?_eq_none.mp hf c hc
        exact not_unusable.mp (by simpa using this)
      | some t =>
        have htoff := List.mem_of_find?_eq_some hf
        have ht : t ∈ T.branch m := List.takeWhile_subset _ htoff
        have hoff : t ∉ n.chainActive := by simpa using List.mem_takeWhile_imp htoff
        have hP1 := hm.discard hP hmem ht hoff (List.find?_some hf)
        have hlt := length_discard_lt hmem ht
        obtain ⟨h1, h2, h3, h4, h5⟩ := findMostWorkChain_spec hm (k := k) hP1 (by omega)
        have hchain : (n.discard T m t).chainActive = n.chainActive := by
          unfold discard; dsimp only; split <;> rfl
        have hstate : (n.discard T m t).state = n.state := by
          unfold discard; dsimp only; split <;> rfl
        exact ⟨h1, (later_discard n m t).trans h2, h3.trans hchain, h4.trans hstate, h5⟩

variable {f m x : α} {pindexOldTip : Option α} {n : Node α σ}

/-- **Disconnecting down to an entry of the active chain.** -/
theorem disconnectTo_spec (hm : Moves T ops P) : ∀ (t : α) {n : Node α σ}, P n →
    n.chainActive = T.branch t → f ∈ T.branch t →
    P { n with
        chainActive := (disconnectTo ops (some f) (T.branch t) n.state).1
        state := (disconnectTo ops (some f) (T.branch t) n.state).2.1 } ∧
      ((disconnectTo ops (some f) (T.branch t) n.state).2.2 = true →
        (disconnectTo ops (some f) (T.branch t) n.state).1 = T.branch f) ∧
      ((disconnectTo ops (some f) (T.branch t) n.state).2.2 = false → Stuck ops) := by
  intro t
  induction t using ParentTree.branch_induction (T := T.toParentTree) with
  | hroot =>
    intro n hP hchain hf
    have hfr : f = T.root := by simpa [ParentTree.branch_root] using hf
    subst hfr
    rw [ParentTree.branch_root, disconnectTo, if_pos rfl]
    rw [ParentTree.branch_root] at hchain
    refine ⟨?_, fun _ => rfl, by simp⟩
    dsimp only
    rw [← hchain]
    exact hP
  | hchild t p hp ih =>
    intro n hP hchain hf
    rw [ParentTree.branch_parent hp, disconnectTo]
    by_cases hft : t = f
    · subst hft
      rw [if_pos rfl]
      refine ⟨?_, fun _ => (ParentTree.branch_parent hp).symm, by simp⟩
      dsimp only
      rw [← ParentTree.branch_parent hp, ← hchain]
      exact hP
    · rw [if_neg (by simpa using hft)]
      cases hd : ops.disconnect n.state t with
      | none =>
        refine ⟨?_, by simp, fun _ => Or.inl ⟨_, _, hd⟩⟩
        dsimp only
        rw [← ParentTree.branch_parent hp, ← hchain]
        exact hP
      | some s =>
        have hfp : f ∈ T.branch p :=
          ((ParentTree.mem_branch_parent hp).mp hf).resolve_left fun h => hft h.symm
        exact ih (hm.disconnect hP hchain hp hd) rfl hfp

/-- What `connectBlocks` returns: the end of the list, a better position, or a reason to stop. -/
def ConnectEnd (T : IndexTree α) (ops : TipOps α σ) (pindexOldTip : Option α)
    (st : α → BlockStatus) (c : α) (r : Node α σ × LoopEnd) : Prop :=
  match r.2 with
  | .more => r.1.chainActive = T.branch c ∧ r.1.status = st
  | .done => (∃ t, r.1.tip = some t ∧ ∀ old, pindexOldTip = some old →
        T.nChainWork old < T.nChainWork t) ∨ Broke st r.1.status ∨ Stuck ops
  | .error => Stuck ops

/-- **Connecting a list of blocks that leads up from the tip.** -/
theorem connectBlocks_spec (hm : Moves T ops P) {c : α} :
    ∀ {l : List α} {t : α} {n : Node α σ}, P n → n.chainActive = T.branch t → T.Climbs t l c →
    (∀ b ∈ l, Usable n b) →
    P (connectBlocks T ops pindexOldTip l n).1 ∧ Later n (connectBlocks T ops pindexOldTip l n).1 ∧
      ConnectEnd T ops pindexOldTip n.status c (connectBlocks T ops pindexOldTip l n)
  | [], t, n, hP, hchain, hc, _ => by
    cases hc
    exact ⟨hP, Later.refl n, hchain, rfl⟩
  | b :: l, t, n, hP, hchain, hc, hu => by
    cases hc with
    | cons hp hl =>
      rw [connectBlocks]
      cases hconn : ops.connect n.state b with
      | connected s =>
        have hP1 := hm.connect hP hchain hp (hu b (by simp)) hconn
        have hlater := later_connectTip (T := T) n b s
        have hchain1 : (n.connectTip T b s).chainActive = T.branch b := by
          rw [connectTip_chainActive, hchain, ParentTree.branch_parent hp]
        dsimp only
        split
        · rename_i hbetter
          refine ⟨hP1, hlater, Or.inl ⟨b, tip_branch hchain1, fun old hold => ?_⟩⟩
          rw [hold] at hbetter
          simpa using hbetter
        · have husable : ∀ d ∈ l, Usable (n.connectTip T b s) d := by
            intro d hd
            have := hu d (by simp [hd])
            simpa [Usable] using this
          obtain ⟨h1, h2, h3⟩ := connectBlocks_spec hm hP1 hchain1 hl husable
          rw [connectTip_status] at h3
          exact ⟨h1, hlater.trans h2, h3⟩
      | invalid corruptionPossible =>
        cases corruptionPossible with
        | true => exact ⟨hP, Later.refl n, Or.inr (Or.inr (Or.inr ⟨_, _, Or.inr hconn⟩))⟩
        | false =>
          refine ⟨hm.invalid hP hchain hp (hu b (by simp)) hconn,
            later_invalidBlockFound n b, Or.inr (Or.inl ⟨b, ?_⟩)⟩
          obtain ⟨h1, h2⟩ := hu b (by simp)
          simp only [BlockStatus.failed, Bool.or_eq_false_iff] at h1
          refine ⟨h1.1, h2, ?_⟩
          show ((n.invalidBlockFound b).status b).fFailedValid = true
          rw [invalidBlockFound_status, if_pos rfl]
      | error => exact ⟨hP, Later.refl n, Or.inr ⟨_, _, Or.inl hconn⟩⟩

omit [DecidableEq α] in
theorem climbs_vpindexToConnect {nTargetHeight : Nat} (hx : x ∈ T.branch m)
    (h1 : T.depth x ≤ nTargetHeight) (h2 : nTargetHeight ≤ T.depth m) :
    ∃ c ∈ T.branch m, T.depth c = nTargetHeight ∧
      T.Climbs x (vpindexToConnect T m (T.depth x) nTargetHeight) c := by
  obtain ⟨d, hd, hdd⟩ := ParentTree.exists_mem_branch_depth h2
  have hfind : ∃ c, getAncestor T m nTargetHeight = some c := by
    unfold getAncestor
    rw [← Option.isSome_iff_exists, List.find?_isSome]
    exact ⟨d, hd, by simp [hdd]⟩
  obtain ⟨c, hc⟩ := hfind
  have hcm : c ∈ T.branch m := List.mem_of_find?_eq_some hc
  have hcd : T.depth c = nTargetHeight := by
    have := List.find?_some hc
    simp only [decide_eq_true_eq] at this
    omega
  have hxc : x ∈ T.branch c := ParentTree.mem_branch_of_depth_le hx hcm (by omega)
  refine ⟨c, hcm, hcd, ?_⟩
  unfold vpindexToConnect
  rw [hc]
  have hdec : ∀ a : α, decide ((T.depth a : Int) ≠ (T.depth x : Int))
      = decide (T.depth a ≠ T.depth x) := fun a => decide_eq_decide.mpr (by omega)
  simp only [hdec]
  exact ParentTree.climbs_takeWhile hxc

omit [DecidableEq α] in
theorem climbs_nextBatch (hx : x ∈ T.branch m) (hdone : ¬ (T.depth x : Int) = T.depth m) :
    ∃ c ∈ T.branch m, (T.depth c : Int) = min ((T.depth x : Int) + 32) (T.depth m) ∧
      T.depth x < T.depth c ∧ T.Climbs x (vpindexToConnect T m (T.depth x)
        (min ((T.depth x : Int) + 32) (T.depth m))) c := by
  have hle := ParentTree.depth_le hx
  have htarget : min ((T.depth x : Int) + 32) (T.depth m)
      = ((min (T.depth x + 32) (T.depth m) : Nat) : Int) := by omega
  rw [htarget]
  obtain ⟨c, hc, hcd, hclimb⟩ := climbs_vpindexToConnect (T := T) hx
    (show T.depth x ≤ min (T.depth x + 32) (T.depth m) by omega) (by omega)
  exact ⟨c, hc, by omega, by omega, hclimb⟩

/-- **Connecting all batches up to `pindexMostWork`.** -/
theorem connectBatches_spec (hm : Moves T ops P) :
    ∀ {k : Nat} {x : α} {n : Node α σ}, P n → n.chainActive = T.branch x → x ∈ T.branch m →
    (∀ b ∈ T.branch m, T.depth x < T.depth b → Usable n b) → T.depth m < k + T.depth x →
    P (connectBatches T ops pindexOldTip m k (T.depth x) n).1 ∧
      Later n (connectBatches T ops pindexOldTip m k (T.depth x) n).1 ∧
      ConnectEnd T ops pindexOldTip n.status m (connectBatches T ops pindexOldTip m k (T.depth x) n)
  | 0, x, n, _, _, hx, _, hk => by
    have hle := ParentTree.depth_le hx
    omega
  | k + 1, x, n, hP, hchain, hx, hu, hk => by
    rw [connectBatches]
    by_cases hdone : (T.depth x : Int) = T.depth m
    · rw [if_pos hdone]
      obtain rfl := (ParentTree.depth_le_of_mem hx).resolve_right (by omega)
      exact ⟨hP, Later.refl n, hchain, rfl⟩
    · rw [if_neg hdone]
      obtain ⟨c, hc, hcd, hlt, hclimb⟩ := climbs_nextBatch hx hdone
      dsimp only
      rw [← hcd] at hclimb ⊢
      have husable : ∀ b ∈ vpindexToConnect T m (T.depth x) (T.depth c), Usable n b := by
        intro b hb
        obtain ⟨hbc, hbx⟩ := hclimb.between hb
        exact hu b (ParentTree.mem_branch_trans hc hbc) hbx
      obtain ⟨h1, h2, h3⟩ := connectBlocks_spec hm hP hchain hclimb husable
      cases hr : connectBlocks T ops pindexOldTip
          (vpindexToConnect T m (T.depth x) (T.depth c)) n with
      | mk n1 e =>
        rw [hr] at h1 h2 h3
        cases e with
        | more =>
          -- the batch is connected up to `c`, and the next one starts there
          obtain ⟨hchain1, hstatus⟩ := h3
          dsimp only at hchain1 hstatus ⊢
          obtain ⟨g1, g2, g3⟩ := connectBatches_spec hm (k := k) h1 hchain1 hc (fun b hb hlt' => by
              have := hu b hb (by omega)
              simpa [Usable, hstatus] using this) (by omega)
          rw [hstatus] at g3
          exact ⟨g1, h2.trans g2, g3⟩
        | done => exact ⟨h1, h2, h3⟩
        | error => exact ⟨h1, h2, h3⟩

theorem takeWhile_not_eq {p : α → Bool} : ∀ {l : List α}, l.find? p = some f →
    (l.takeWhile fun a => !p a) = l.takeWhile fun a => decide (a ≠ f)
  | [], h => by simp at h
  | a :: l, h => by
    rw [List.find?_cons] at h
    cases hp : p a with
    | true =>
      rw [hp] at h
      simp only [Option.some.injEq] at h
      subst h
      simp [hp]
    | false =>
      rw [hp] at h
      have hne : a ≠ f := by
        rintro rfl
        rw [List.find?_some h] at hp
        exact absurd hp (by simp)
      simp [hp, hne, takeWhile_not_eq h]

theorem findFork_spec {t : α} (hchain : n.chainActive = T.branch t) :
    ∃ f, n.findFork T m = some f ∧ f ∈ T.branch m ∧ f ∈ T.branch t ∧
      ∀ c, c ∈ n.offChain T m ↔ c ∈ T.branch m ∧ T.depth f < T.depth c := by
  have hex : ∃ f, n.findFork T m = some f := by
    unfold findFork
    rw [← Option.isSome_iff_exists, List.find?_isSome]
    refine ⟨T.root, ParentTree.root_mem_branch m, ?_⟩
    simp [hchain, ParentTree.root_mem_branch]
  obtain ⟨f, hf⟩ := hex
  obtain ⟨h1, h2, _⟩ := ParentTree.find?_branch_eq hf
  refine ⟨f, hf, h1, by simpa [hchain] using h2, fun c => ?_⟩
  have htake := takeWhile_not_eq hf
  unfold offChain
  simp only [decide_not] at htake ⊢
  rw [htake]
  simpa using ParentTree.mem_takeWhile_branch (c := c) h1

/-- How a step ends that was to make `m` the tip. -/
def StepEnd (T : IndexTree α) (ops : TipOps α σ) (n : Node α σ) (m : α)
    (r : Node α σ × Bool) : Prop :=
  (r.2 = true ∧ r.1.tip = some m) ∨ (r.2 = true ∧ (Improved T n r.1 ∨ Broke n.status r.1.status)) ∨
    Stuck ops

/-- **`ActivateBestChainStep`.** -/
theorem activateBestChainStep_spec (hm : Moves T ops P) (hP : P n)
    (hu : ∀ c ∈ n.offChain T m, Usable n c) :
    P (activateBestChainStep T ops n m).1 ∧ Later n (activateBestChainStep T ops n m).1 ∧
      StepEnd T ops n m (activateBestChainStep T ops n m) := by
  obtain ⟨t, hchain⟩ := hm.chain hP
  obtain ⟨f, hfork, hfm, hft, hoff⟩ := findFork_spec (m := m) hchain
  obtain ⟨d1, d2, d3⟩ := disconnectTo_spec hm t hP hchain hft
  unfold activateBestChainStep
  rw [hfork, hchain]
  dsimp only
  cases hd : disconnectTo ops (some f) (T.branch t) n.state with
  | mk chain rest =>
    obtain ⟨s, ok⟩ := rest
    rw [hd] at d1 d2 d3
    cases ok with
    | false =>
      exact ⟨d1, ⟨rfl, fun _ => rfl, fun _ => rfl, fun _ => rfl, fun _ h => h,
        List.Subset.refl _⟩, Or.inr (Or.inr (d3 rfl))⟩
    | true =>
      have hc : chain = T.branch f := d2 rfl
      subst hc
      obtain ⟨h1, h2, h3⟩ := connectBatches_spec hm (m := m) (k := T.depth m + 2) d1 rfl hfm
        (fun b hb hlt => hu b ((hoff b).mpr ⟨hb, hlt⟩)) (by omega)
      dsimp only
      refine ⟨h1, ⟨h2.index, h2.chainTx, h2.sequence, h2.data, h2.failed, h2.candidates⟩, ?_⟩
      unfold ConnectEnd at h3
      unfold StepEnd
      split at h3
      · rename_i he
        exact Or.inl ⟨by simp [he], tip_branch h3.1⟩
      · rename_i he
        rcases h3 with ⟨x, hx, hold⟩ | h3 | h3
        · exact Or.inr (Or.inl ⟨by simp [he], Or.inl fun old ho => ⟨x, hx, hold old ho⟩⟩)
        · exact Or.inr (Or.inl ⟨by simp [he], Or.inr h3⟩)
        · exact Or.inr (Or.inr h3)
      · exact Or.inr (Or.inr h3)

def RoundEnd (T : IndexTree α) (ops : TipOps α σ) (n : Node α σ) (r : Node α σ × Progress) : Prop :=
  match r.2 with
  | .returned true => r.1.setBlockIndexCandidates = [] ∨ ∃ t, r.1.tip = some t ∧
      ∀ b ∈ r.1.setBlockIndexCandidates, r.1.workLess T t b = false
  | .returned false => Stuck ops
  | .again => Improved T n r.1 ∨ Broke n.status r.1.status ∨ Stuck ops

omit [DecidableEq α] in
theorem later_failed {n' : Node α σ} (h : Later n n') {b : α}
    (hb : (n'.status b).fFailedValid = false) : (n.status b).fFailedValid = false := by
  cases hv : (n.status b).fFailedValid with
  | false => rfl
  | true => rw [h.failed b hv] at hb; exact absurd hb (by simp)

/-- **One round of `ActivateBestChain`.** -/
theorem activateRound_spec (hm : Moves T ops P) (hP : P n) :
    P (activateRound T ops n).1 ∧ Later n (activateRound T ops n).1 ∧
      RoundEnd T ops n (activateRound T ops n) := by
  obtain ⟨h1, h2, h3, _, h5⟩ := findMostWorkChain_spec hm hP (Nat.le_refl _)
  unfold activateRound
  cases hf : findMostWorkChain T n.setBlockIndexCandidates.length n with
  | mk n1 r =>
    rw [hf] at h1 h2 h3 h5
    cases r with
    | none => exact ⟨h1, h2, Or.inl h5⟩
    | some m =>
      dsimp only at h1 h2 h3 h5 ⊢
      obtain ⟨hmem, hbest, husable⟩ := h5
      by_cases htip : n1.tip = some m
      · rw [if_pos htip]
        exact ⟨h1, h2, Or.inr ⟨m, htip, hbest⟩⟩
      · rw [if_neg htip]
        obtain ⟨g1, g2, g3⟩ := activateBestChainStep_spec hm h1 husable
        cases hs : activateBestChainStep T ops n1 m with
        | mk n2 ok =>
          rw [hs] at g1 g2 g3
          cases ok with
          | false =>
            refine ⟨g1, h2.trans g2, ?_⟩
            rcases g3 with g3 | g3 | g3
            · exact absurd g3.1 (by simp)
            · exact absurd g3.1 (by simp)
            · exact g3
          | true =>
            refine ⟨g1, h2.trans g2, ?_⟩
            dsimp only
            by_cases htm : n2.tip = some m
            · rw [if_pos htm]
              refine Or.inr ⟨m, htm, fun b hb => ?_⟩
              rw [g2.workLess]
              exact hbest b (g2.candidates hb)
            · rw [if_neg htm]
              rcases g3 with g3 | ⟨_, g3 | ⟨b, hb1, hb2, hb3⟩⟩ | g3
              · exact absurd g3.2 htm
              · refine Or.inl fun old hold => g3 old ?_
                rw [← hold, tip, tip, h3]
              · exact Or.inr (Or.inl ⟨b, later_failed h2 hb1, by rw [← h2.data]; exact hb2, hb3⟩)
              · exact Or.inr (Or.inr g3)

end Loops

end Node

end BitBlocks
