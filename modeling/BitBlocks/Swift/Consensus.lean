import BitBlocks.Lib.Machine
import BitBlocks.Swift.Step
import BitBlocks.Validation.CheckBlock

/-!
# Locks on complete consensus

An outpoint that is locked makes the memory pool and `CheckBlock` refuse every other
transaction that spends it, "only ... when it's based on complete consensus". The vote
handler locks with the sixth vote. The request handler locks what the memory pool rejects
without looking at the votes at all, and that is the only way a lock without consensus
comes about.
-/

namespace BitBlocks

open Table Checks

def SwiftState.after (past : List Delivery) : SwiftState := past.foldl SwiftState.deliver {}

theorem SwiftState.after_concat (past : List Delivery) (d : Delivery) :
    SwiftState.after (past ++ [d]) = (SwiftState.after past).deliver d := by
  rw [SwiftState.after, List.foldl_append]; rfl

/-- The vote was delivered with a valid signature, by a masternode that had the rank to vote. -/
def Vouched (past : List Delivery) (v : CConsensusVote) : Prop :=
  ∃ d ∈ past, d.message = .txlvote v ∧ d.env.fActive = true ∧ SwiftState.voteValid d.env v = true

theorem Vouched.concat {past : List Delivery} {v : CConsensusVote} (h : Vouched past v)
    (d : Delivery) : Vouched (past ++ [d]) v := by
  obtain ⟨e, he, hv⟩ := h
  exact ⟨e, List.mem_append_left _ he, hv⟩

namespace SwiftState

/-- The candidate counts the votes it needs, and its votes are different masternodes' own. -/
def Consensus (past : List Delivery) (s : SwiftState) (t : Uint256) : Prop :=
  ∃ lock, s.mapTxLocks.lookup t = some lock ∧ SWIFTTX_SIGNATURES_REQUIRED ≤ lock.countSignatures ∧
    (∀ v ∈ lock.vecConsensusVotes, v.txHash = t ∧ Vouched past v) ∧
    (lock.vecConsensusVotes.map fun v => v.vinMasternode.prevout).Nodup

/-- The outpoint is locked for another transaction, by consensus. -/
def LockedByConsensus (past : List Delivery) (s : SwiftState) (tx : CTransaction) : Prop :=
  ∃ o ∈ tx.prevouts, ∃ t, t ≠ tx.hash ∧ s.mapLockedInputs.lookup o = some t ∧ s.Consensus past t

/-- Every lock rests on consensus, and so does whatever is refused because of one. -/
structure LocksOnConsensus (past : List Delivery) (s : SwiftState) : Prop where
  locked : ∀ o t, s.mapLockedInputs.lookup o = some t → s.Consensus past t
  /-- `AcceptToMemoryPool`. -/
  pool : ∀ env tx, env.fAcceptable tx = true → s.acceptToMemoryPool env tx = false →
    s.LockedByConsensus past tx
  /-- `CheckBlock`. -/
  block : ∀ (env : LocalState) (block : CBlock) (e : Fail),
    env.mapLockedInputs = (fun o => s.mapLockedInputs.lookup o) →
    checkLocks env block = .error e → ∃ tx ∈ block.vtx, s.LockedByConsensus past tx

/-- A request that is rejected while it would lock something has its votes already. -/
def RejectsOnConsensus (s : SwiftState) (d : Delivery) : Prop :=
  ∀ tx, d.message = .ix tx → s.rejects d.env tx = true →
    (∃ o ∈ tx.prevouts, s.mapLockedInputs.lookup o = none) →
    s.rejectsComplete d.env tx = true

/-! ## Votes that are counted -/

/-- What candidates hold: votes for their transaction, vouched for, recorded, and no two alike. -/
structure Counted (past : List Delivery) (s : SwiftState) : Prop where
  vouched : ∀ t, ∀ v ∈ s.votes t, v.txHash = t ∧ Vouched past v
  recorded : ∀ t, ∀ v ∈ s.votes t, (s.mapTxLockVote.lookup v.getHash).isSome = true
  nodup : ∀ t, ((s.votes t).map CConsensusVote.getHash).Nodup
  /-- A request whose inputs are locked was seen, so its height stays. -/
  seen : ∀ o t, s.mapLockedInputs.lookup o = some t → s.requestSeen t = true

theorem counted_init : Counted [] {} where
  vouched t v hv := by simp [votes] at hv
  recorded t v hv := by simp [votes] at hv
  nodup t := by simp [votes]
  seen o t h := by simp at h

variable {past : List Delivery} {s : SwiftState} {t : Uint256}

/-- **Preserved by every message.** -/
theorem Counted.step (h : Counted past s) (d : Delivery) : Counted (past ++ [d]) (s.deliver d) := by
  have hd := delivered s d
  have hseen : ∀ o t, (s.deliver d).mapLockedInputs.lookup o = some t →
      (s.deliver d).requestSeen t = true := by
    intro o t ho
    rcases (hd.locked o t).mp ho with ho | ⟨-, ho⟩
    · exact (hd.seen t).mpr (Or.inl (h.seen o t ho))
    · exact (hd.seen t).mpr (Or.inr (notes_of_locks ho))
  obtain ⟨env, message⟩ := d
  cases message with
  | ix tx =>
    refine ⟨fun t v hv => ?_, fun t v hv => ?_, fun t => ?_, hseen⟩
    · rw [votes_deliver_ix] at hv
      exact ⟨(h.vouched t v hv).1, (h.vouched t v hv).2.concat _⟩
    · rw [votes_deliver_ix] at hv
      exact hd.vote _ (h.recorded t v hv)
    · rw [votes_deliver_ix]
      exact h.nodup t
  | txlvote ctx =>
    have hmem : ∀ t, ∀ v ∈ (s.deliver ⟨env, .txlvote ctx⟩).votes t,
        v ∈ s.votes t ∨ v = ctx ∧ t = ctx.txHash ∧ s.newVote env ctx = true := by
      intro t v hv
      rw [votes_deliver_txlvote] at hv
      split at hv
      · rename_i hnew
        rcases List.mem_append.mp hv with hv | hv
        · exact Or.inl hv
        · exact Or.inr ⟨List.mem_singleton.mp hv, hnew.2, hnew.1⟩
      · exact Or.inl hv
    refine ⟨fun t v hv => ?_, fun t v hv => ?_, fun t => ?_, hseen⟩
    · rcases hmem t v hv with hv | ⟨rfl, rfl, hnew⟩
      · exact ⟨(h.vouched t v hv).1, (h.vouched t v hv).2.concat _⟩
      · have hv := newVote_iff.mp hnew
        exact ⟨rfl, ⟨env, .txlvote v⟩, by simp, rfl, hv.1, hv.2.2⟩
    · rcases hmem t v hv with hv | ⟨rfl, -, hnew⟩
      · exact hd.vote _ (h.recorded t v hv)
      · rw [recorded_deliver_txlvote]
        exact Or.inr ⟨(newVote_iff.mp hnew).1, rfl⟩
    · rw [votes_deliver_txlvote]
      split
      · rename_i hnew
        rw [List.map_append, List.nodup_append]
        refine ⟨h.nodup t, List.nodup_singleton _, ?_⟩
        intro a ha b hb hab
        -- the votes of the candidate are recorded, the new one was not
        obtain ⟨v, hv, rfl⟩ := List.mem_map.mp ha
        have hrec := h.recorded t v hv
        rw [hab, List.mem_singleton.mp hb, (newVote_iff.mp hnew.1).2.1] at hrec
        simp at hrec
      · exact h.nodup t

theorem counted_after (past : List Delivery) : Counted past (after past) := by
  induction past using List.reverseRecOn with
  | nil => exact counted_init
  | append_singleton past d ih =>
    rw [after_concat]
    exact ih.step d

/-! ## Consensus is counting to six -/

theorem Counted.nodup_masternodes (h : Counted past s) (t : Uint256) :
    ((s.votes t).map fun v => v.vinMasternode.prevout).Nodup := by
  have hn := h.nodup t
  rw [List.Nodup, List.pairwise_map] at hn ⊢
  refine hn.imp_of_mem fun {v w} hv hw hne heq => hne ?_
  rw [CConsensusVote.getHash, CConsensusVote.getHash, heq, (h.vouched t v hv).1,
    (h.vouched t w hw).1]

theorem Counted.consensus_iff (h : Counted past s) (t : Uint256) :
    s.Consensus past t ↔ s.complete t = true := by
  rw [complete_eq]
  constructor
  · intro ⟨lock, hl, hn, _⟩
    rw [hl]
    exact decide_eq_true hn
  · intro hc
    cases hl : s.mapTxLocks.lookup t with
    | none => rw [hl] at hc; simp at hc
    | some lock =>
      rw [hl] at hc
      have hv : s.votes t = lock.vecConsensusVotes := by rw [votes, hl]; rfl
      have hvouched := h.vouched t
      have hnodup := h.nodup_masternodes t
      rw [hv] at hvouched hnodup
      exact ⟨lock, hl, of_decide_eq_true hc, hvouched, hnodup⟩

/-! ## One message -/

theorem countSignatures_withVote {ctx : CConsensusVote} {lock : CTransactionLock}
    (h : s.mapTxLocks.lookup ctx.txHash = some lock) (env : SwiftEnv) :
    lock.countSignatures ≤ (s.withVote env ctx).countSignatures := by
  unfold withVote CTransactionLock.countSignatures
  rw [h]
  dsimp only
  split
  · exact le_refl _
  · rw [List.countP_append]
    omega

theorem complete_deliver (hseen : s.requestSeen t = true) (h : s.complete t = true) (d : Delivery) :
    (s.deliver d).complete t = true := by
  have hcand := (delivered s d).candidate t
  rw [complete, hcand]
  obtain ⟨env, message⟩ := d
  unfold candidateAfter
  cases message with
  | ix tx =>
    dsimp only
    split
    · rename_i hnew
      rw [newRequest, ← hnew.2, hseen] at hnew
      simp at hnew
    · exact h
  | txlvote ctx =>
    dsimp only
    split
    · rename_i hnew
      rw [complete_eq] at h
      cases hl : s.mapTxLocks.lookup t with
      | none => rw [hl] at h; simp at h
      | some lock =>
        rw [hl] at h
        have hle := of_decide_eq_true h
        have hgrow := countSignatures_withVote (hnew.2 ▸ hl) env
        exact decide_eq_true (hle.trans hgrow)
    · exact h

theorem complete_of_locks {d : Delivery} {o : COutPoint} (h : s.locks d o t)
    (ho : s.mapLockedInputs.lookup o = none) (hon : s.RejectsOnConsensus d) :
    (s.deliver d).complete t = true := by
  rw [complete, (delivered s d).candidate]
  obtain ⟨env, message⟩ := d
  cases message with
  | ix tx =>
    obtain ⟨hrej, hin, rfl⟩ := h
    rw [candidateAfter_request (rejects_iff.mp hrej).1]
    exact (rejectsComplete_iff.mp (hon tx rfl hrej ⟨o, hin, ho⟩)).2
  | txlvote ctx =>
    obtain ⟨hcomp, rfl, -⟩ := h
    rw [candidateAfter_vote (completes_iff.mp hcomp).1]
    exact decide_eq_true (completes_iff.mp hcomp).2

/-- **One message** keeps every lock on consensus iff it rejects on consensus. -/
theorem complete_step_iff (hc : Counted past s)
    (h : ∀ o t, s.mapLockedInputs.lookup o = some t → s.complete t = true) (d : Delivery) :
    (∀ o t, (s.deliver d).mapLockedInputs.lookup o = some t → (s.deliver d).complete t = true) ↔
      s.RejectsOnConsensus d := by
  have hd := delivered s d
  constructor
  · intro h' tx hmsg hrej hex
    obtain ⟨o, hin, ho⟩ := hex
    obtain ⟨env, message⟩ := d
    obtain rfl : message = .ix tx := hmsg
    have hnew := h' o tx.hash ((hd.locked o tx.hash).mpr (Or.inr ⟨ho, hrej, hin, rfl⟩))
    rw [complete, hd.candidate, candidateAfter_request (rejects_iff.mp hrej).1] at hnew
    exact rejectsComplete_iff.mpr ⟨hrej, hnew⟩
  · intro hon o t ho
    rcases (hd.locked o t).mp ho with ho | ⟨ho, hl⟩
    · exact complete_deliver (hc.seen o t ho) (h o t ho) d
    · exact complete_of_locks hl ho hon

/-! ## What locks refuse -/

theorem exists_of_conflicting {tx : CTransaction} (h : s.conflicting tx = true) :
    ∃ o ∈ tx.prevouts, ∃ t, t ≠ tx.hash ∧ s.mapLockedInputs.lookup o = some t := by
  obtain ⟨txin, hin, hl⟩ := List.any_eq_true.mp h
  refine ⟨txin.prevout, List.mem_map_of_mem hin, ?_⟩
  unfold lockedByOther at hl
  cases ho : s.mapLockedInputs.lookup txin.prevout with
  | none => rw [ho] at hl; simp at hl
  | some t =>
    rw [ho] at hl
    exact ⟨t, by simpa using hl, rfl⟩

theorem locksOnConsensus_of_locked
    (h : ∀ o t, s.mapLockedInputs.lookup o = some t → s.Consensus past t) :
    s.LocksOnConsensus past := by
  refine ⟨h, fun env tx hok hpool => ?_, fun env block e hlocks => ?_⟩
  · have hconf : s.conflicting tx = true := by
      rw [acceptToMemoryPool, hok, Bool.and_true, Bool.not_eq_false'] at hpool
      exact hpool
    obtain ⟨o, hin, t, hne, ho⟩ := exists_of_conflicting hconf
    exact ⟨o, hin, t, hne, ho, h o t ho⟩
  · have honly : Only (fun _ : Fail => ∃ tx ∈ block.vtx, s.LockedByConsensus past tx)
        (checkLocks env block) := by
      unfold checkLocks
      split
      · refine Only.all fun tx htx => ?_
        split
        · exact Only.ok _
        · refine Only.all fun txin hin => ?_
          rw [hlocks]
          dsimp only
          cases ho : s.mapLockedInputs.lookup txin.prevout with
          | none => exact Only.ok _
          | some t =>
            intro e he
            have hne : t ≠ tx.hash := by simpa using (failIf_eq_error.mp he).1
            exact ⟨tx, htx, txin.prevout, List.mem_map_of_mem hin, t, hne, ho, h _ t ho⟩
      · exact Only.ok _
    exact honly e

/--
**Locks on consensus.** All through a run of messages every lock is on complete consensus,
and so is what the memory pool and `CheckBlock` refuse because of one, iff no request is
rejected that would lock an input while its candidate has not got its votes.
-/
theorem locksOnConsensus_iff (run : List Delivery) :
    (∀ past, past <+: run → (after past).LocksOnConsensus past) ↔
      ∀ past d, past ++ [d] <+: run → (after past).RejectsOnConsensus d := by
  have hiff : ∀ past, (after past).LocksOnConsensus past ↔
      ∀ o t, (after past).mapLockedInputs.lookup o = some t → (after past).complete t = true := by
    intro past
    have hc := counted_after past
    constructor
    · intro h o t ho
      exact (hc.consensus_iff t).mp (h.locked o t ho)
    · intro h
      exact locksOnConsensus_of_locked fun o t ho => (hc.consensus_iff t).mpr (h o t ho)
  refine Machine.always_iff ((hiff []).mpr fun o t ho => ?_) run fun past d _ hpast => ?_
  · simp [after] at ho
  · have hstep := complete_step_iff (counted_after past) ((hiff past).mp hpast) d
    rw [← after_concat, ← hiff] at hstep
    exact hstep

end SwiftState

/-- A request that spends an outpoint nobody has heard of, and pays the hash of a key. -/
def strayRequest : CTransaction where
  hash := 7
  vin := [⟨⟨1, 0⟩, [], 0⟩]
  vout := [⟨COIN, [0x76, 0xa9, 0x14] ++ List.replicate 20 0 ++ [0x88, 0xac], -10⟩]

/-- It is rejected, has no candidate and no votes, and its input is locked. -/
theorem strayRequest_locks_without_consensus :
    ¬ (SwiftState.after [⟨SwiftEnv.bare 0, .ix strayRequest⟩]).LocksOnConsensus
      [⟨SwiftEnv.bare 0, .ix strayRequest⟩] := by
  intro h
  obtain ⟨lock, hl, -⟩ := h.locked ⟨1, 0⟩ 7 (by decide)
  have hnone : (SwiftState.after [⟨SwiftEnv.bare 0, .ix strayRequest⟩]).mapTxLocks.lookup 7 =
      none := by decide
  rw [hnone] at hl
  simp at hl

end BitBlocks
