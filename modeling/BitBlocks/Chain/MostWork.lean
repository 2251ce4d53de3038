import BitBlocks.Chain.Converge

/-!
# What `FindMostWorkChain` finds

It takes the best candidate, walks down to the active chain, and starts again without the
path when it meets an entry that failed or has no data. Every round takes a candidate away,
so that the loop ends; and whatever is taken away stands above an entry that could not be
used before the call, since the flags that are set on the way are set above such entries.

What is asked of the index are the assertions of `CheckBlockIndex`. By these a candidate has
no ancestor whose data is missing.
-/

namespace BitBlocks

namespace Node

variable {α σ : Type}

/-- `pindexFirstMissing != NULL`. -/
def Missing (T : IndexTree α) (n : Node α σ) (b : α) : Prop :=
  ∃ a ∈ T.branch b, (n.status a).fHaveData = false

/-- `pindexFirstInvalid != NULL`. -/
def Invalid (T : IndexTree α) (n : Node α σ) (b : α) : Prop :=
  ∃ a ∈ T.branch b, (n.status a).fFailedValid = true

/--
What `CheckBlockIndex` asserts when there is an active chain, of the fields that are modelled
here and can change.
-/
structure CheckBlockIndex (T : IndexTree α) (n : Node α σ) : Prop where
  active : ∃ t ∈ n.mapBlockIndex, n.chainActive = T.branch t
  /-- The traversal from the genesis block meets every entry. -/
  closed : ∀ b ∈ n.mapBlockIndex, ∀ a ∈ T.branch b, a ∈ n.mapBlockIndex
  /-- Candidates are entries. -/
  known : ∀ b ∈ n.setBlockIndexCandidates, b ∈ n.mapBlockIndex
  sequence : ∀ b ∈ n.mapBlockIndex, (n.status b).nChainTx = 0 → (n.status b).nSequenceId = 0
  chainTx : ∀ b ∈ n.mapBlockIndex, Missing T n b ↔ (n.status b).nChainTx = 0
  work : ∀ b ∈ n.mapBlockIndex, ∀ a, T.parent b = some a → T.nChainWork a ≤ T.nChainWork b
  valid : ∀ b ∈ n.mapBlockIndex, ¬ Invalid T n b → (n.status b).failed = false
  candidate : ∀ b ∈ n.mapBlockIndex, ∀ tip, n.tip = some tip → n.workLess T b tip = false →
    ¬ Missing T n b → ¬ Invalid T n b → b ∈ n.setBlockIndexCandidates
  notCandidate : ∀ b ∈ n.mapBlockIndex, ∀ tip, n.tip = some tip →
    n.workLess T b tip = true ∨ Missing T n b → b ∉ n.setBlockIndexCandidates
  unlinked : ∀ b ∈ n.mapBlockIndex, ∀ a, T.parent b = some a → (n.status b).fHaveData = true →
    Missing T n b → ¬ Invalid T n b → (a, b) ∈ n.mapBlocksUnlinked
  notUnlinked : ∀ b ∈ n.mapBlockIndex, ∀ a, T.parent b = some a →
    (n.status b).fHaveData = false ∨ ¬ Missing T n b → (a, b) ∉ n.mapBlocksUnlinked

variable {T : IndexTree α} {n n₀ : Node α σ}

variable {b a t c : α}

/-- **A candidate has all the data below it.** -/
theorem CheckBlockIndex.candidate_data (h : n.CheckBlockIndex T)
    (hb : b ∈ n.setBlockIndexCandidates) (ha : a ∈ T.branch b) :
    (n.status a).fHaveData = true ∧ (n.status a).nChainTx ≠ 0 := by
  obtain ⟨t, -, ht⟩ := h.active
  have hnone : ¬ Missing T n b := fun hm =>
    h.notCandidate b (h.known b hb) t (tip_branch ht) (Or.inr hm) hb
  constructor
  · by_contra hdata
    exact hnone ⟨a, ha, Bool.eq_false_iff.mpr hdata⟩
  · intro htx
    obtain ⟨c, hc, hdata⟩ := (h.chainTx a (h.closed b (h.known b hb) a ha)).mpr htx
    exact hnone ⟨c, ParentTree.mem_branch_trans ha hc, hdata⟩

variable [DecidableEq α]

/-- The path down to the active chain meets an entry that cannot be used. -/
def Blocked (T : IndexTree α) (n : Node α σ) (b : α) : Prop :=
  ∃ t ∈ n.offChain T b, n.unusable t = true

theorem mem_offChain (hchain : n.chainActive = T.branch t) (hc : c ∈ T.branch b)
    (hoff : c ∉ n.chainActive) : c ∈ n.offChain T b := by
  unfold offChain
  induction b using ParentTree.branch_induction (T := T.toParentTree) with
  | hroot =>
    rw [ParentTree.branch_root, List.mem_singleton] at hc
    subst hc
    rw [hchain] at hoff
    exact absurd (ParentTree.root_mem_branch t) hoff
  | hchild b p hp ih =>
    rw [ParentTree.branch_parent hp, List.takeWhile_cons]
    have hb : b ∉ n.chainActive := by
      intro hmem
      rw [hchain] at hmem hoff
      exact hoff (ParentTree.mem_branch_trans hmem hc)
    rw [if_pos (decide_eq_true hb)]
    rcases (ParentTree.mem_branch_parent hp).mp hc with rfl | hc
    · exact List.mem_cons_self
    · exact List.mem_cons_of_mem _ (ih hc)

theorem of_mem_offChain (hc : c ∈ n.offChain T b) : c ∈ T.branch b ∧ c ∉ n.chainActive :=
  ⟨List.takeWhile_subset _ hc, by simpa using List.mem_takeWhile_imp hc⟩

theorem Blocked.above (hchain : n.chainActive = T.branch t) (h : Blocked T n c)
    (hc : c ∈ T.branch b) : Blocked T n b := by
  obtain ⟨a, ha, hu⟩ := h
  obtain ⟨hmem, hoff⟩ := of_mem_offChain ha
  exact ⟨a, mem_offChain hchain (ParentTree.mem_branch_trans hc hmem) hoff, hu⟩

/-! ## The rounds -/

/-- What the rounds since `n₀` have done: what is marked or dropped was blocked then. -/
structure Discarded (T : IndexTree α) (n₀ n : Node α σ) : Prop where
  later : Later n₀ n
  active : ∃ t, n.chainActive = T.branch t
  chain : n.chainActive = n₀.chainActive
  failed : ∀ a, a ∉ n₀.chainActive → (n.status a).failed = true →
    (n₀.status a).failed = true ∨ Blocked T n₀ a
  dropped : ∀ b ∈ n₀.setBlockIndexCandidates, b ∉ n.setBlockIndexCandidates → Blocked T n₀ b
  mono : ∀ e ∈ n₀.mapBlocksUnlinked, e ∈ n.mapBlocksUnlinked

/-- **One round.** -/
theorem Discarded.discard (h : Discarded T n₀ n) (ht : t ∈ T.branch b) (hoff : t ∉ n.chainActive)
    (hu : n.unusable t = true) : Discarded T n₀ (n.discard T b t) := by
  obtain ⟨t0, hactive⟩ := h.active
  have hchain0 : n₀.chainActive = T.branch t0 := h.chain.symm.trans hactive
  have hoff0 : t ∉ n₀.chainActive := h.chain ▸ hoff
  -- the entry was no more usable before
  have hblocked : Blocked T n₀ t := by
    have hself : n₀.unusable t = true → Blocked T n₀ t := fun hu0 =>
      ⟨t, mem_offChain hchain0 (ParentTree.self_mem_branch t) hoff0, hu0⟩
    unfold unusable at hu
    rcases Bool.or_eq_true_iff.mp hu with hf | hd
    · rcases h.failed t hoff0 hf with hf0 | hbl
      · exact hself (by rw [unusable, hf0, Bool.true_or])
      · exact hbl
    · rw [h.later.data] at hd
      exact hself (by rw [unusable, hd, Bool.or_true])
  have habove : ∀ a ∈ t :: (T.branch b).takeWhile (fun a => decide (a ≠ t)), Blocked T n₀ a := by
    intro a ha
    rcases List.mem_cons.mp ha with rfl | ha
    · exact hblocked
    · exact hblocked.above hchain0 (mem_above ht ha)
  have hdropped : ∀ c ∈ n₀.setBlockIndexCandidates,
      c ∉ n.setBlockIndexCandidates.filter (fun a => decide
        (a ∉ t :: (T.branch b).takeWhile (fun a => decide (a ≠ t)))) → Blocked T n₀ c := by
    intro c hc hnot
    by_cases hin : c ∈ n.setBlockIndexCandidates
    · by_cases hab : c ∈ t :: (T.branch b).takeWhile (fun a => decide (a ≠ t))
      · exact habove c hab
      · exact absurd (List.mem_filter.mpr ⟨hin, decide_eq_true hab⟩) hnot
    · exact h.dropped c hc hin
  have hlater := h.later.trans (later_discard (T := T) n b t)
  unfold Node.discard at hlater ⊢
  dsimp only at hlater ⊢
  split
  · rename_i hf
    rw [if_pos hf] at hlater
    refine ⟨hlater, ⟨t0, hactive⟩, h.chain, fun a ha hfa => ?_, hdropped, h.mono⟩
    dsimp only at hfa
    split at hfa
    · rename_i hin
      exact Or.inr (habove a (List.mem_cons_of_mem _ hin))
    · exact h.failed a ha hfa
  · rename_i hf
    rw [if_neg hf] at hlater
    exact ⟨hlater, ⟨t0, hactive⟩, h.chain, h.failed, hdropped,
      fun e he => List.mem_append_left _ (h.mono e he)⟩

theorem mem_unlinked_discard {p : α} (hf : (n.status t).failed = false)
    (ha : a ∈ (T.branch b).takeWhile fun a => decide (a ≠ t)) (hp : T.parent a = some p) :
    (p, a) ∈ (n.discard T b t).mapBlocksUnlinked := by
  unfold Node.discard
  dsimp only
  rw [if_neg (by simp [hf])]
  refine List.mem_append_right _ (List.mem_filterMap.mpr ⟨a, ha, ?_⟩)
  rw [hp]
  rfl

/-- The rounds neither connect nor disconnect. -/
def idleTips : TipOps α σ := ⟨fun _ _ => .error, fun _ _ => none⟩

theorem moves_discarded (n₀ : Node α σ) : Moves T idleTips (Discarded T n₀) where
  chain h := h.active
  discard h _ ht hoff hu := h.discard ht hoff hu
  disconnect _ _ _ hd := by simp [idleTips] at hd
  connect _ _ _ _ hc := by simp [idleTips] at hc
  invalid _ _ _ _ hc := by simp [idleTips] at hc

/-- **The loop ends**: more rounds than there are candidates change nothing. -/
theorem findMostWorkChain_fuel {fuel : Nat} (h : n.setBlockIndexCandidates.length ≤ fuel) :
    findMostWorkChain T fuel n = findMostWorkChain T n.setBlockIndexCandidates.length n := by
  have key : ∀ (k : Nat) {n : Node α σ} {k' : Nat}, n.setBlockIndexCandidates.length ≤ k →
      n.setBlockIndexCandidates.length ≤ k' →
      findMostWorkChain T k n = findMostWorkChain T k' n := by
    intro k
    induction k with
    | zero =>
      intro n k' hk hk'
      have hnil : n.setBlockIndexCandidates = [] := List.length_eq_zero_iff.mp (by omega)
      cases k' with
      | zero => rfl
      | succ k' => rw [findMostWorkChain, findMostWorkChain, hnil, greatest]
    | succ k ih =>
      intro n k' hk hk'
      cases k' with
      | zero =>
        have hnil : n.setBlockIndexCandidates = [] := List.length_eq_zero_iff.mp (by omega)
        rw [findMostWorkChain, findMostWorkChain, hnil, greatest]
      | succ k' =>
        rw [findMostWorkChain, findMostWorkChain]
        cases hg : greatest (n.workLess T) n.setBlockIndexCandidates with
        | none => rfl
        | some m =>
          dsimp only
          cases hf : (n.offChain T m).find? n.unusable with
          | none => rfl
          | some t =>
            have ht := (of_mem_offChain (List.mem_of_find?_eq_some hf)).1
            have hlt := length_discard_lt (greatest_spec hg).1 ht
            exact ih (by omega) (by omega)
  exact key fuel h (le_refl _)

/-! ## What is found -/

/--
**`FindMostWorkChain` is right.** Where the assertions of `CheckBlockIndex` hold, its loop
ends, and its own assertion holds on every path it can walk. It returns nothing when all the
candidates had an entry that failed or lacked data on their path to the active chain, and
then no candidate is left. Otherwise it returns a candidate whose path has its data and no
failure; each candidate that compares better had such an entry on its path, and is a
candidate no longer. What was dropped for missing data is remembered under the entry that
lacks it. At any node whatever, a round that drops a path for missing data remembers each entry
of it under its parent, the lowest one under the entry that lacks it.
-/
theorem findMostWorkChain_best (h : n.CheckBlockIndex T) :
    (∀ fuel, n.setBlockIndexCandidates.length ≤ fuel →
      findMostWorkChain T fuel n = findMostWorkChain T n.setBlockIndexCandidates.length n) ∧
    (∀ b ∈ n.setBlockIndexCandidates, ∀ c ∈ n.offChain T b, (n.status c).nChainTx ≠ 0) ∧
    (match findMostWorkChain T n.setBlockIndexCandidates.length n with
    | (n', none) => n'.setBlockIndexCandidates = [] ∧ ∀ b ∈ n.setBlockIndexCandidates, Blocked T n b
    | (n', some m) => m ∈ n.setBlockIndexCandidates ∧ m ∈ n'.setBlockIndexCandidates ∧
        (∀ c ∈ n.offChain T m, (n'.status c).fHaveData = true ∧ (n'.status c).nChainTx ≠ 0 ∧
          (n'.status c).failed = false) ∧
        ∀ b ∈ n.setBlockIndexCandidates, n.workLess T m b = true →
          b ∉ n'.setBlockIndexCandidates ∧ Blocked T n b) ∧
    (∀ b ∈ n.setBlockIndexCandidates,
      b ∉ (findMostWorkChain T n.setBlockIndexCandidates.length n).1.setBlockIndexCandidates →
      ∀ t ∈ n.offChain T b, (n.status t).fHaveData = false → t ≠ b →
      (t, b) ∈ (findMostWorkChain T n.setBlockIndexCandidates.length n).1.mapBlocksUnlinked) ∧
    ∀ (n' : Node α σ) (b t a p : α), (n'.status t).failed = false →
      a ∈ (T.branch b).takeWhile (fun c => decide (c ≠ t)) → T.parent a = some p →
      (p, a) ∈ (n'.discard T b t).mapBlocksUnlinked := by
  obtain ⟨t, -, ht⟩ := h.active
  have hstart : Discarded T n n := ⟨Later.refl n, ⟨t, ht⟩, rfl, fun _ _ hf => Or.inl hf,
    fun b hb hnot => absurd hb hnot, fun _ he => he⟩
  have hdata : ∀ b ∈ n.setBlockIndexCandidates, ∀ c ∈ n.offChain T b,
      (n.status c).fHaveData = true ∧ (n.status c).nChainTx ≠ 0 := fun b hb c hc =>
    h.candidate_data hb (of_mem_offChain hc).1
  have hspec := findMostWorkChain_spec (moves_discarded n) hstart (le_refl _)
  refine ⟨fun fuel hfuel => findMostWorkChain_fuel hfuel, fun b hb c hc =>
    (hdata b hb c hc).2, ?_, ?_,
    fun n' b t a p hf ha hp => mem_unlinked_discard hf ha hp⟩
  · generalize findMostWorkChain T n.setBlockIndexCandidates.length n = r at hspec
    obtain ⟨n', found⟩ := r
    obtain ⟨hdisc, hlater, hchain, -, hend⟩ := hspec
    cases found with
    | none =>
      dsimp only at hdisc hend ⊢
      exact ⟨hend, fun b hb => hdisc.dropped b hb (by rw [hend]; exact List.not_mem_nil)⟩
    | some m =>
      dsimp only at hdisc hlater hchain hend ⊢
      obtain ⟨hmem, hbest, husable⟩ := hend
      have hmem₀ := hlater.candidates hmem
      refine ⟨hmem₀, hmem, fun c hc => ?_, fun b hb hless => ?_⟩
      · have hpath : c ∈ n'.offChain T m := by rwa [offChain, hchain]
        obtain ⟨hfailed, hhave⟩ := husable c hpath
        rw [hlater.chainTx]
        exact ⟨hhave, (hdata m hmem₀ c hc).2, hfailed⟩
      · have hgone : b ∉ n'.setBlockIndexCandidates := by
          intro hb'
          have hworse := hbest b hb'
          rw [hlater.workLess, hless] at hworse
          simp at hworse
        exact ⟨hgone, hdisc.dropped b hb hgone⟩
  · intro b hb _ t ht hmissing
    rw [(hdata b hb t ht).1] at hmissing
    simp at hmissing

/-- The tip is `2`, on `1`; beside them `4` failed, and `5` above it is still a candidate. -/
def failedBelow : Node Nat Unit where
  mapBlockIndex := [0, 1, 2, 3, 4, 5]
  status b := { nChainTx := b + 1, nSequenceId := b + 1, fHaveData := true, fFailedValid := b == 4 }
  chainActive := [2, 1, 0]
  setBlockIndexCandidates := [2, 5]
  mapBlocksUnlinked := []
  nBlockSequenceId := 7
  state := ()

theorem failedBelow_checked : failedBelow.CheckBlockIndex (twoBranches 2) := by
  have hdata : ∀ b, ¬ Missing (twoBranches 2) failedBelow b := by
    rintro b ⟨a, -, ha⟩
    simp [failedBelow] at ha
  have hinvalid : Invalid (twoBranches 2) failedBelow 4 := ⟨4, by decide, rfl⟩
  refine ⟨⟨2, by decide, by decide⟩, by decide, by decide, fun b _ h => ?_, fun b _ => ?_,
    fun b hb a ha => ?_, fun b hb hnot => ?_, fun b hb tip htip hle _ hnot => ?_,
    fun b hb tip htip hor => ?_, fun b _ a _ _ hm => absurd hm (hdata b), fun b _ a _ _ =>
    List.not_mem_nil⟩
  · simp [failedBelow] at h
  · exact iff_of_false (hdata b) (Nat.succ_ne_zero b)
  · have hwork : ∀ b ∈ failedBelow.mapBlockIndex, ∀ a ∈ (twoBranches 2).parent b,
        (twoBranches 2).nChainWork a ≤ (twoBranches 2).nChainWork b := by decide
    exact hwork b hb a ha
  · have hfailed : ∀ b ∈ failedBelow.mapBlockIndex, b = 4 ∨
        (failedBelow.status b).failed = false := by
      decide
    rcases hfailed b hb with rfl | h
    · exact absurd hinvalid hnot
    · exact h
  · obtain rfl := Option.some.inj htip
    have hcand : ∀ b ∈ failedBelow.mapBlockIndex, failedBelow.workLess (twoBranches 2) b 2 = false →
        b ∈ failedBelow.setBlockIndexCandidates := by decide
    exact hcand b hb hle
  · obtain rfl := Option.some.inj htip
    have hworse : ∀ b ∈ failedBelow.mapBlockIndex, failedBelow.workLess (twoBranches 2) b 2 = true →
        b ∉ failedBelow.setBlockIndexCandidates := by decide
    exact hworse b hb (hor.resolve_right (hdata b))

/-- The failed branch is dropped, and the tip is found again. -/
theorem findMostWorkChain_best_failed :
    (findMostWorkChain (twoBranches 2) 2 failedBelow).2 = some 2 ∧
      ∀ b ∈ failedBelow.setBlockIndexCandidates, failedBelow.workLess (twoBranches 2) 2 b = true →
        b ∉ (findMostWorkChain (twoBranches 2) 2 failedBelow).1.setBlockIndexCandidates ∧
          Blocked (twoBranches 2) failedBelow b := by
  have hfound : findMostWorkChain (twoBranches 2) 2 failedBelow =
      ((findMostWorkChain (twoBranches 2) 2 failedBelow).1, some 2) :=
    Prod.ext rfl (by decide)
  have hbest := (findMostWorkChain_best failedBelow_checked).2.2.1
  have hlen : failedBelow.setBlockIndexCandidates.length = 2 := rfl
  rw [hlen, hfound] at hbest
  exact ⟨by rw [hfound], hbest.2.2.2⟩

end Node

end BitBlocks
