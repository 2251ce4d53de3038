import BitBlocks.Swift.Consensus

/-!
# Which votes a candidate holds

A vote is recorded under a hash of its masternode and its transaction before it is looked
at, and later votes with that hash are ignored. So of all the votes with one hash the
first one delivered decides: it is in the candidate if it is valid, and if it is not, no
vote of that masternode for that transaction will be.
-/

namespace BitBlocks

/-- A run in which only votes are delivered. -/
def voteRun (votes : List (SwiftEnv × CConsensusVote)) : List Delivery :=
  votes.map fun x => ⟨x.1, .txlvote x.2⟩

/-- The first vote with the hash that gets to the handler. -/
def firstWith (votes : List (SwiftEnv × CConsensusVote)) (hash : Uint256) :
    Option (SwiftEnv × CConsensusVote) :=
  votes.find? fun x => x.1.fActive && x.2.getHash == hash

theorem voteRun_concat (votes : List (SwiftEnv × CConsensusVote)) (x : SwiftEnv × CConsensusVote) :
    voteRun (votes ++ [x]) = voteRun votes ++ [⟨x.1, .txlvote x.2⟩] := by
  rw [voteRun, List.map_append]; rfl

theorem firstWith_concat (votes : List (SwiftEnv × CConsensusVote))
    (x : SwiftEnv × CConsensusVote) (hash : Uint256) :
    firstWith (votes ++ [x]) hash = (firstWith votes hash).or
        (if x.1.fActive = true ∧ x.2.getHash = hash then some x else none) := by
  rw [firstWith, List.find?_append, List.find?_singleton]
  simp [firstWith]

namespace SwiftState

/-- The candidate of the vote's transaction holds this vote of its masternode. -/
def Counts (s : SwiftState) (ctx : CConsensusVote) : Prop :=
  ∃ v ∈ s.votes ctx.txHash, v.vinMasternode.prevout = ctx.vinMasternode.prevout ∧
    v.nBlockHeight = ctx.nBlockHeight

theorem recorded_after (votes : List (SwiftEnv × CConsensusVote)) (hash : Uint256) :
    ((after (voteRun votes)).mapTxLockVote.lookup hash).isSome = (firstWith votes hash).isSome := by
  induction votes using List.reverseRecOn with
  | nil => rfl
  | append_singleton votes x ih =>
    rw [voteRun_concat, after_concat, Bool.eq_iff_iff, recorded_deliver_txlvote, ih,
      firstWith_concat, Option.isSome_or, Bool.or_eq_true]
    by_cases hx : x.1.fActive = true ∧ x.2.getHash = hash
    · rw [if_pos hx]
      simp [hx.1, hx.2]
    · rw [if_neg hx]
      simp only [Option.isSome_none, Bool.false_eq_true, or_false, or_iff_left_iff_imp]
      intro h
      exact absurd ⟨h.1, h.2.symm⟩ hx

/-- **The first vote with a hash decides.** -/
theorem mem_votes_after (votes : List (SwiftEnv × CConsensusVote)) (t : Uint256)
    (v : CConsensusVote) : v ∈ (after (voteRun votes)).votes t ↔
      v.txHash = t ∧ ∃ env, firstWith votes v.getHash = some (env, v) ∧ voteValid env v = true := by
  induction votes using List.reverseRecOn with
  | nil => simp [voteRun, after, SwiftState.votes, firstWith]
  | append_singleton votes x ih =>
    obtain ⟨env, ctx⟩ := x
    have hnew : (after (voteRun votes)).newVote env ctx = true ↔
        env.fActive = true ∧ firstWith votes ctx.getHash = none ∧ voteValid env ctx = true := by
      rw [newVote_iff, ← Option.isNone_iff_eq_none, ← Option.isNone_iff_eq_none,
        ← Option.not_isSome, ← Option.not_isSome, recorded_after]
    have hadd : v ∈ (after (voteRun (votes ++ [(env, ctx)]))).votes t ↔
        v ∈ (after (voteRun votes)).votes t ∨
          (after (voteRun votes)).newVote env ctx = true ∧ t = ctx.txHash ∧ v = ctx := by
      rw [voteRun_concat, after_concat, votes_deliver_txlvote]
      split
      · rename_i h
        simp [h]
      · rename_i h
        simp only [iff_self_or]
        intro h'
        exact absurd ⟨h'.1, h'.2.1⟩ h
    rw [hadd, ih, hnew, firstWith_concat]
    cases hf : firstWith votes v.getHash with
    | some y =>
      -- a vote with this hash came before, so this one is not added
      have hne : ¬ (env.fActive = true ∧ firstWith votes ctx.getHash = none ∧
          voteValid env ctx = true) ∨ v ≠ ctx := by
        by_cases hv : v = ctx
        · rw [← hv, hf]
          simp
        · exact Or.inr hv
      rw [Option.some_or, or_iff_left]
      intro h
      obtain ⟨h1, _, h2⟩ := h
      exact hne.elim (fun h => h h1) fun h => h h2
    | none =>
      rw [Option.none_or]
      constructor
      · intro h
        rcases h with ⟨_, e, h, _⟩ | ⟨⟨hactive, _, hv⟩, ht, rfl⟩
        · simp at h
        · exact ⟨ht.symm, env, by simp [hactive], hv⟩
      · intro h
        obtain ⟨ht, e, h, hv⟩ := h
        split at h
        · rename_i hg
          obtain ⟨rfl, rfl⟩ := Prod.mk.inj (Option.some.inj h)
          exact Or.inr ⟨⟨hg.1, hf, hv⟩, ht.symm, rfl⟩
        · simp at h

/-- The same masternode's vote for the same transaction and height, whatever its signature. -/
def SameVote (v ctx : CConsensusVote) : Prop :=
  v.vinMasternode.prevout = ctx.vinMasternode.prevout ∧ v.txHash = ctx.txHash ∧
    v.nBlockHeight = ctx.nBlockHeight

theorem counts_iff (votes : List (SwiftEnv × CConsensusVote)) (ctx : CConsensusVote) :
    (after (voteRun votes)).Counts ctx ↔
      ∃ x, firstWith votes ctx.getHash = some x ∧ voteValid x.1 x.2 = true ∧ SameVote x.2 ctx := by
  have hhash : ∀ v : CConsensusVote, v.vinMasternode.prevout = ctx.vinMasternode.prevout →
      v.txHash = ctx.txHash → v.getHash = ctx.getHash := by
    intro v hmn ht
    rw [CConsensusVote.getHash, CConsensusVote.getHash, hmn, ht]
  constructor
  · intro h
    obtain ⟨v, hv, hmn, hheight⟩ := h
    obtain ⟨ht, env, hf, hval⟩ := (mem_votes_after _ _ v).mp hv
    rw [hhash v hmn ht] at hf
    exact ⟨(env, v), hf, hval, hmn, ht, hheight⟩
  · intro h
    obtain ⟨⟨env, v⟩, hf, hval, hmn, ht, hheight⟩ := h
    rw [← hhash v hmn ht] at hf
    exact ⟨v, (mem_votes_after _ _ v).mpr ⟨ht, env, hf, hval⟩, hmn, hheight⟩

/--
**Forged votes.** A valid vote is counted once it was delivered iff no vote with its hash
was delivered before, or the first of those was a valid vote of the same masternode for
the same transaction and height.
-/
theorem counts_delivered_iff (votes : List (SwiftEnv × CConsensusVote)) {env : SwiftEnv}
    {ctx : CConsensusVote} (hactive : env.fActive = true) (hvalid : voteValid env ctx = true) :
    (after (voteRun (votes ++ [(env, ctx)]))).Counts ctx ↔
      ∀ x, firstWith votes ctx.getHash = some x → voteValid x.1 x.2 = true ∧ SameVote x.2 ctx := by
  rw [counts_iff, firstWith_concat, if_pos ⟨hactive, rfl⟩]
  cases firstWith votes ctx.getHash with
  | none =>
    rw [Option.none_or]
    constructor
    · intro _ x hx
      simp at hx
    · intro _
      exact ⟨(env, ctx), rfl, hvalid, rfl, rfl, rfl⟩
  | some y =>
    rw [Option.some_or]
    constructor
    · intro ⟨x, hx, h⟩ z hz
      rw [← Option.some.inj hz, Option.some.inj hx]
      exact h
    · intro h
      exact ⟨y, rfl, h y rfl⟩

end SwiftState

/-- The vote of a masternode for a transaction, signed as given. -/
def sampleVote (vchMasterNodeSignature : List UInt8) : CConsensusVote where
  vinMasternode := ⟨⟨1, 0⟩, [], 0⟩
  txHash := 7
  nBlockHeight := 99
  vchMasterNodeSignature := vchMasterNodeSignature

/-- One forged vote, and the masternode's own vote is ignored. -/
theorem forgedVote_suppresses : ¬ (SwiftState.after (voteRun ([(SwiftEnv.bare 0, sampleVote [])] ++
      [(SwiftEnv.bare 0, sampleVote [1])]))).Counts (sampleVote [1]) := by
  intro ⟨v, hv, _⟩
  have hnone : (SwiftState.after (voteRun ([(SwiftEnv.bare 0, sampleVote [])] ++
      [(SwiftEnv.bare 0, sampleVote [1])]))).votes 7 = [] := by decide
  rw [show (sampleVote [1]).txHash = 7 from rfl, hnone] at hv
  simp at hv

/-- Forged votes of another masternode and for another transaction, and the vote itself. -/
def earlierVotes : List (SwiftEnv × CConsensusVote) :=
  [(SwiftEnv.bare 0, { sampleVote [] with vinMasternode := ⟨⟨2, 0⟩, [], 0⟩ }),
    (SwiftEnv.bare 0, { sampleVote [] with txHash := 6 }),
    (SwiftEnv.bare 0, sampleVote [1])]

theorem counts_delivered_iff_first :
    (SwiftState.after (voteRun (earlierVotes ++ [(SwiftEnv.bare 60, sampleVote [1])]))).Counts
      (sampleVote [1]) := by
  have hfirst : firstWith earlierVotes (sampleVote [1]).getHash =
      some (SwiftEnv.bare 0, sampleVote [1]) := rfl
  refine (SwiftState.counts_delivered_iff earlierVotes (by decide) (by decide)).mpr fun x hx => ?_
  obtain rfl := Option.some.inj (hfirst.symm.trans hx)
  exact ⟨by decide, rfl, rfl, rfl⟩

end BitBlocks
