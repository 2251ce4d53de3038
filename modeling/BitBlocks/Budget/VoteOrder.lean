import BitBlocks.Budget.Votes

/-!
# Budget votes in any order

A vote replaces an older one of its masternode if an hour lies between the two, and is
refused otherwise. So the newest vote of a masternode is sure to be held in the end, in
whatever order the votes come, just when all its other votes are an hour older.
-/

namespace BitBlocks

open Wrap

namespace VoteKind

variable {V : Type} (kind : VoteKind V)

/-- `mapVotes` after `AddOrUpdateVote`, whatever that returned. -/
def added (nNow : Int) (mapVotes : VoteMap V) (vote : V) : VoteMap V :=
  match kind.addOrUpdateVote nNow mapVotes vote with
  | .ok mapVotes' => mapVotes'
  | .error _ => mapVotes

/-- What `mapVotes` is after some votes; each comes with the time it is added at. -/
def votesAfter (mapVotes : VoteMap V) (run : List (Int × V)) : VoteMap V :=
  run.foldl (fun m x => kind.added x.1 m x.2) mapVotes

/-- Neither newer than the vote, nor too short a time before it. -/
def GivesWay (old vote : V) : Prop := ¬ kind.nTime old > kind.nTime vote ∧
    ¬ wrap64 (kind.nTime vote - kind.nTime old) < BUDGET_VOTE_UPDATE_MIN

instance : DecidableRel kind.GivesWay := fun _ _ => inferInstanceAs (Decidable (_ ∧ _))

/-- `AddOrUpdateVote` returns `true`. -/
def Accepts (nNow : Int) (mapVotes : VoteMap V) (vote : V) : Prop :=
  (∀ old, mapVotes.lookup (kind.prevoutHash vote) = some old → kind.GivesWay old vote) ∧
    kind.nTime vote ≤ nNow + 60 * 60

/-- The vote has the greatest time of its masternode's votes. -/
def IsNewest (votes : Finset V) (vote : V) : Prop := vote ∈ votes ∧
    ∀ w ∈ votes, kind.prevoutHash w = kind.prevoutHash vote → kind.nTime w ≤ kind.nTime vote

/-- All other votes of its masternode give way to the vote. -/
def IsApart (mapVotes : VoteMap V) (votes : Finset V) (vote : V) : Prop :=
  (∀ w ∈ votes, kind.prevoutHash w = kind.prevoutHash vote → w = vote ∨ kind.GivesWay w vote) ∧
    ∀ w, mapVotes.lookup (kind.prevoutHash vote) = some w → w = vote ∨ kind.GivesWay w vote

/-- The vote is held in the end, whatever the order; every vote is added at a time it is
not too far ahead of. -/
def AlwaysHeld (mapVotes : VoteMap V) (votes : Finset V) (vote : V) : Prop :=
  ∀ run : List (Int × V), (run.map Prod.snd).Perm votes.toList →
    (∀ x ∈ run, kind.nTime x.2 ≤ x.1 + 60 * 60) →
    (kind.votesAfter mapVotes run).lookup (kind.prevoutHash vote) = some vote

variable {kind} {mapVotes : VoteMap V} {votes : Finset V} {vote : V}

theorem GivesWay.asymm {a b : V} (hab : kind.GivesWay a b) : ¬ kind.GivesWay b a := by
  intro hba
  have heq : kind.nTime b - kind.nTime a = 0 := by
    have h1 := hab.1
    have h2 := hba.1
    omega
  refine hab.2 ?_
  rw [heq]
  decide

variable {nNow : Int} {m : VoteMap V}

theorem addOrUpdateVote_of_accepts (h : kind.Accepts nNow m vote) :
    kind.addOrUpdateVote nNow m vote = .ok (m.insert (kind.prevoutHash vote) vote) := by
  have hahead : ¬ kind.nTime vote > nNow + 60 * 60 := Int.not_lt.mpr h.2
  unfold addOrUpdateVote
  cases hold : m.lookup (kind.prevoutHash vote) with
  | none => exact if_neg hahead
  | some old =>
    obtain ⟨holder, hsoon⟩ := h.1 old hold
    dsimp only
    rw [if_neg holder, if_neg hsoon, if_neg hahead]

variable (kind) in
theorem addOrUpdateVote_of_not_accepts (h : ¬ kind.Accepts nNow m vote) :
    ∃ e, kind.addOrUpdateVote nNow m vote = .error e := by
  unfold addOrUpdateVote
  cases hold : m.lookup (kind.prevoutHash vote) with
  | none =>
    have hahead : kind.nTime vote > nNow + 60 * 60 :=
      Int.not_le.mp fun hle => h ⟨fun old ho => by simp [hold] at ho, hle⟩
    exact ⟨_, if_pos hahead⟩
  | some old =>
    dsimp only
    by_cases holder : kind.nTime old > kind.nTime vote
    · exact ⟨_, if_pos holder⟩
    · rw [if_neg holder]
      by_cases hsoon : wrap64 (kind.nTime vote - kind.nTime old) < BUDGET_VOTE_UPDATE_MIN
      · exact ⟨_, if_pos hsoon⟩
      · rw [if_neg hsoon]
        refine ⟨_, if_pos (Int.not_le.mp fun hle => h ⟨fun old' ho => ?_, hle⟩)⟩
        rw [hold] at ho
        exact Option.some.inj ho ▸ ⟨holder, hsoon⟩

theorem added_eq_put (m : VoteMap V) (hnow : kind.nTime vote ≤ nNow + 60 * 60) :
    kind.added nNow m vote = Newest.put kind.GivesWay kind.prevoutHash m vote := by
  unfold added Newest.put
  by_cases hnewer : Newest.newer kind.GivesWay (m.lookup (kind.prevoutHash vote)) vote = true
  · have hacc : kind.Accepts nNow m vote :=
      ⟨fun old hold => Newest.newer_some.mp (hold ▸ hnewer), hnow⟩
    rw [if_pos hnewer, addOrUpdateVote_of_accepts hacc]
  · have hacc : ¬ kind.Accepts nNow m vote := fun h => hnewer (Newest.newer_iff.mpr h.1)
    obtain ⟨e, he⟩ := addOrUpdateVote_of_not_accepts kind hacc
    rw [if_neg hnewer, he]

theorem lookup_votesAfter {run : List (Int × V)}
    (hrun : ∀ x ∈ run, kind.nTime x.2 ≤ x.1 + 60 * 60) (m : VoteMap V) (k : Uint256) :
    (kind.votesAfter m run).lookup k = Newest.held kind.GivesWay (m.lookup k)
      ((run.map Prod.snd).filter fun v => decide (kind.prevoutHash v = k)) := by
  have hfold : kind.votesAfter m run =
      (run.map Prod.snd).foldl (Newest.put kind.GivesWay kind.prevoutHash) m := by
    unfold votesAfter
    induction run generalizing m with
    | nil => rfl
    | cons x run ih =>
      rw [List.foldl_cons, added_eq_put m (hrun x List.mem_cons_self)]
      exact ih (fun y hy => hrun y (List.mem_cons_of_mem _ hy)) _
  rw [hfold, Newest.lookup_foldl_put]

/-- **A vote all others give way to is held.** -/
theorem alwaysHeld_of_isApart (hv : vote ∈ votes) (h : kind.IsApart mapVotes votes vote) :
    kind.AlwaysHeld mapVotes votes vote := by
  intro run hperm hrun
  rw [lookup_votesAfter hrun]
  refine Newest.held_eq_of_leads GivesWay.asymm ⟨fun w hw => ?_, h.2⟩ (Or.inl ?_)
  · obtain ⟨hw, hkey⟩ := List.mem_filter.mp hw
    exact h.1 w (Finset.mem_toList.mp (hperm.mem_iff.mp hw)) (of_decide_eq_true hkey)
  · exact List.mem_filter.mpr ⟨hperm.mem_iff.mpr (Finset.mem_toList.mpr hv), decide_eq_true rfl⟩

/-- **No other vote is sure to be**, if there was none before. -/
theorem isApart_of_alwaysHeld (hv : vote ∈ votes) (h : kind.AlwaysHeld ∅ votes vote) :
    kind.IsApart ∅ votes vote := by
  refine ⟨fun w hw hkey => ?_, fun w hw => by simp at hw⟩
  by_contra hnot
  obtain ⟨hne, hgives⟩ := not_or.mp hnot
  obtain ⟨p, hp⟩ : ∃ p : V → Bool, p = fun v =>
      decide (kind.prevoutHash v = kind.prevoutHash vote) :=
    ⟨_, rfl⟩
  have hpv : ∀ v, p v = true ↔ kind.prevoutHash v = kind.prevoutHash vote := by simp [hp]
  obtain ⟨l', hl', hheld⟩ := Newest.exists_perm_held_ne (votes.nodup_toList.filter p)
    (List.mem_filter.mpr ⟨Finset.mem_toList.mpr hv, (hpv vote).mpr rfl⟩)
    (List.mem_filter.mpr ⟨Finset.mem_toList.mpr hw, (hpv w).mpr hkey⟩) hne hgives
  -- the masternode's votes come in the bad order, and the other votes after them
  obtain ⟨order, horder⟩ : ∃ order, order = l' ++ votes.toList.filter fun v => !p v := ⟨_, rfl⟩
  have hperm : order.Perm votes.toList := by
    rw [horder]
    exact (hl'.append_right _).trans (List.filter_append_perm p _)
  have hown : order.filter p = l' := by
    rw [horder, List.filter_append, List.filter_eq_self.mpr, List.filter_eq_nil_iff.mpr,
      List.append_nil]
    · intro v hv
      simpa using (List.mem_filter.mp hv).2
    · intro v hv
      exact (List.mem_filter.mp (hl'.mem_iff.mp hv)).2
  have hsnd : (order.map fun v => (kind.nTime v, v)).map Prod.snd = order := by
    rw [List.map_map]
    exact List.map_id _
  have hnow : ∀ x ∈ order.map fun v => (kind.nTime v, v), kind.nTime x.2 ≤ x.1 + 60 * 60 := by
    intro x hx
    obtain ⟨v, -, rfl⟩ := List.mem_map.mp hx
    dsimp only
    omega
  have hlookup := h _ (hsnd.symm ▸ hperm) hnow
  rw [lookup_votesAfter hnow, hsnd, ← hp, hown] at hlookup
  exact hheld hlookup

end VoteKind

/--
**Votes in any order.** For proposals and for finalized budgets: the votes with the
greatest time are held in the end in every order, if there were none before, iff all other
votes of their masternodes give way to them; and also if there were some before, if those
give way too.
-/
theorem newest_votes_held_iff (H : BudgetHash) : (∀ votes : Finset CBudgetVote,
      ((∀ vote, (CBudgetVote.kind H).IsNewest votes vote →
          (CBudgetVote.kind H).AlwaysHeld ∅ votes vote) ↔
        ∀ vote, (CBudgetVote.kind H).IsNewest votes vote →
          (CBudgetVote.kind H).IsApart ∅ votes vote) ∧
      ∀ mapVotes vote, (CBudgetVote.kind H).IsNewest votes vote →
        (CBudgetVote.kind H).IsApart mapVotes votes vote →
          (CBudgetVote.kind H).AlwaysHeld mapVotes votes vote) ∧
    ∀ votes : Finset CFinalizedBudgetVote,
      ((∀ vote, (CFinalizedBudgetVote.kind H).IsNewest votes vote →
          (CFinalizedBudgetVote.kind H).AlwaysHeld ∅ votes vote) ↔
        ∀ vote, (CFinalizedBudgetVote.kind H).IsNewest votes vote →
          (CFinalizedBudgetVote.kind H).IsApart ∅ votes vote) ∧
      ∀ mapVotes vote, (CFinalizedBudgetVote.kind H).IsNewest votes vote →
        (CFinalizedBudgetVote.kind H).IsApart mapVotes votes vote →
          (CFinalizedBudgetVote.kind H).AlwaysHeld mapVotes votes vote := by
  refine ⟨fun votes => ⟨⟨fun h vote hn => ?_, fun h vote hn => ?_⟩, fun m vote hn h => ?_⟩,
    fun votes => ⟨⟨fun h vote hn => ?_, fun h vote hn => ?_⟩, fun m vote hn h => ?_⟩⟩
  · exact VoteKind.isApart_of_alwaysHeld hn.1 (h vote hn)
  · exact VoteKind.alwaysHeld_of_isApart hn.1 (h vote hn)
  · exact VoteKind.alwaysHeld_of_isApart hn.1 h
  · exact VoteKind.isApart_of_alwaysHeld hn.1 (h vote hn)
  · exact VoteKind.alwaysHeld_of_isApart hn.1 (h vote hn)
  · exact VoteKind.alwaysHeld_of_isApart hn.1 h

def sampleHash : BudgetHash where
  vote vin nProposalHash nVote nTime := vin.prevout.hash + nProposalHash + (nVote + nTime).toNat
  finalizedVote vin nBudgetHash nTime := vin.prevout.hash + nBudgetHash + nTime.toNat
  prevout o := o.hash + o.n

/-- A masternode's vote for proposal 7 at some time. -/
def voteAt (nTime : Int) : CBudgetVote := ⟨⟨⟨5, 0⟩, [], 0⟩, 7, 1, nTime, []⟩

/-- Of two votes half an hour apart the one that came first is held. -/
theorem voteAt_order :
    ((CBudgetVote.kind sampleHash).votesAfter ∅ [(9000, voteAt 1000), (9000, voteAt 2800)]).lookup
    5 =
        some (voteAt 1000) ∧
      ((CBudgetVote.kind sampleHash).votesAfter ∅
        [(9000, voteAt 2800), (9000, voteAt 1000)]).lookup 5 = some (voteAt 2800) ∧
      voteAt 1000 ≠ voteAt 2800 := by
  decide

end BitBlocks
