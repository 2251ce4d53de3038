import BitBlocks.Swift.Consensus

/-!
# What is stored as a request

Requests are stored under their own hash by the request handler. The vote handler looks
the request of a completed candidate up with `operator[]`, which stores an empty
transaction where there is none. That takes a request that was rejected without its votes:
before it arrived its candidate has no height, and none of its votes count.
-/

namespace BitBlocks

open Table

/-- A request for the transaction was delivered and got past the first checks. -/
def Requested (past : List Delivery) (tx : CTransaction) : Prop :=
  ∃ d ∈ past, d.message = .ix tx ∧ d.env.fActive = true ∧ SwiftState.requestValid d.env tx = true

theorem Requested.concat {past : List Delivery} {tx : CTransaction} (h : Requested past tx)
    (d : Delivery) : Requested (past ++ [d]) tx := by
  obtain ⟨e, he, hv⟩ := h
  exact ⟨e, List.mem_append_left _ he, hv⟩

theorem requested_concat (past : List Delivery) {s : SwiftState} {env : SwiftEnv}
    {tx : CTransaction} (h : s.newRequest env tx = true) :
    Requested (past ++ [⟨env, .ix tx⟩]) tx := by
  have hnew := SwiftState.newRequest_iff.mp h
  exact ⟨⟨env, .ix tx⟩, by simp, rfl, hnew.1, hnew.2.2⟩

namespace SwiftState

/-- What is stored under a hash has that hash and was requested, and nothing else is ignored. -/
structure KeyedByContent (past : List Delivery) (s : SwiftState) : Prop where
  stored : ∀ h tx, s.mapTxLockReq.lookup h = some tx → tx.hash = h ∧ Requested past tx
  /-- The first valid request for a hash is processed. -/
  processed : ∀ env tx, env.fActive = true → requestValid env tx = true →
    (∀ tx', Requested past tx' → tx'.hash ≠ tx.hash) → s.newRequest env tx = true

/-- A vote that completes a candidate finds the request stored. -/
def CompletesStored (s : SwiftState) (d : Delivery) : Prop :=
  ∀ ctx, d.message = .txlvote ctx → s.completes d.env ctx = true →
    (s.mapTxLockReq.lookup ctx.txHash).isSome = true

/-! ## Candidates without a request -/

theorem requestValid_default (env : SwiftEnv) : requestValid env CTransaction.default = false := by
  simp [requestValid, isIXTXValid, CTransaction.default]

/-- Until a request for it was seen, a candidate has no height; what was seen was requested. -/
structure Awaiting (past : List Delivery) (s : SwiftState) : Prop where
  height : ∀ t lock, s.candidate t = some lock → s.requestSeen t = false → lock.nBlockHeight = 0
  requested : ∀ t, s.requestSeen t = true → ∃ tx, tx.hash = t ∧ Requested past tx

theorem awaiting_init : Awaiting [] {} where
  height t lock h := by simp [candidate] at h
  requested t h := by simp [requestSeen] at h

variable {past : List Delivery} {s : SwiftState} {ctx : CConsensusVote}

theorem Awaiting.withVote_height (h : Awaiting past s) (hseen : s.requestSeen ctx.txHash = false)
    (env : SwiftEnv) : (s.withVote env ctx).nBlockHeight = 0 := by
  have hheight := h.height ctx.txHash
  unfold withVote
  cases hl : s.mapTxLocks.lookup ctx.txHash with
  | none => rfl
  | some lock => exact hheight lock.timeless (candidate_eq_some hl) hseen

theorem Awaiting.seen_of_completes (h : Awaiting past s) {env : SwiftEnv}
    (hc : s.completes env ctx = true) : s.requestSeen ctx.txHash = true := by
  by_contra hseen
  have hzero := h.withVote_height (by simpa using hseen) env
  have hcount := (completes_iff.mp hc).2
  rw [CTransactionLock.countSignatures, if_pos hzero] at hcount
  exact absurd hcount (by decide)

/-- **Preserved by every message.** -/
theorem Awaiting.step (h : Awaiting past s) (d : Delivery) :
    Awaiting (past ++ [d]) (s.deliver d) := by
  have hd := delivered s d
  constructor
  · intro t lock hlock hseen
    have hold : ¬ (s.requestSeen t = true ∨ s.notes d t) := by
      rw [← hd.seen, hseen]
      simp
    rw [not_or, Bool.not_eq_true] at hold
    rw [hd.candidate, candidateAfter] at hlock
    obtain ⟨env, message⟩ := d
    cases message with
    | ix tx =>
      dsimp only at hlock
      split at hlock
      · rename_i hnew
        exact absurd hnew hold.2
      · exact h.height t lock hlock hold.1
    | txlvote ctx =>
      dsimp only at hlock
      split at hlock
      · rename_i hnew
        rw [← Option.some.inj hlock]
        exact h.withVote_height (hnew.2 ▸ hold.1) env
      · exact h.height t lock hlock hold.1
  · intro t ht
    rcases (hd.seen t).mp ht with ht | ht
    · obtain ⟨tx, htx, hreq⟩ := h.requested t ht
      exact ⟨tx, htx, hreq.concat d⟩
    · obtain ⟨env, message⟩ := d
      cases message with
      | ix tx =>
        obtain ⟨hnew, rfl⟩ := ht
        exact ⟨tx, rfl, requested_concat past hnew⟩
      | txlvote ctx =>
        obtain ⟨hc, rfl⟩ := ht
        obtain ⟨tx, htx, hreq⟩ := h.requested _ (h.seen_of_completes hc)
        exact ⟨tx, htx, hreq.concat _⟩

theorem awaiting_after (past : List Delivery) : Awaiting past (after past) := by
  induction past using List.reverseRecOn with
  | nil => exact awaiting_init
  | append_singleton past d ih =>
    rw [after_concat]
    exact ih.step d

theorem Awaiting.iff_stored (h : Awaiting past s) : s.KeyedByContent past ↔
      ∀ t tx, s.mapTxLockReq.lookup t = some tx → tx.hash = t ∧ Requested past tx := by
  constructor
  · exact fun hk => hk.stored
  · intro hs
    refine ⟨hs, fun env tx hactive hvalid hnone => ?_⟩
    have hseen : s.requestSeen tx.hash = false := by
      by_contra hne
      obtain ⟨tx', htx, hreq⟩ := h.requested tx.hash (by simpa using hne)
      exact hnone tx' hreq htx
    simp [newRequest, hactive, hvalid, hseen]

/-! ## One message -/

/-- **One message** keeps what is stored genuine iff it completes no candidate without a request. -/
theorem stored_step_iff
    (h : ∀ t tx, s.mapTxLockReq.lookup t = some tx → tx.hash = t ∧ Requested past tx)
    (d : Delivery) :
    (∀ t tx, (s.deliver d).mapTxLockReq.lookup t = some tx →
      tx.hash = t ∧ Requested (past ++ [d]) tx) ↔ s.CompletesStored d := by
  have hd := delivered s d
  constructor
  · intro h' ctx hmsg hc
    by_contra hnone
    rw [Bool.not_eq_true, Option.isSome_eq_false_iff, Option.isNone_iff_eq_none] at hnone
    have hstore : s.stores d ctx.txHash CTransaction.default := by
      rw [stores, hmsg]
      exact ⟨hc, rfl, rfl⟩
    obtain ⟨-, e, -, -, -, hvalid⟩ := h' _ _ ((hd.request _ _).mpr (Or.inr ⟨hnone, hstore⟩))
    rw [requestValid_default] at hvalid
    simp at hvalid
  · intro hon t tx ht
    rcases (hd.request t tx).mp ht with ht | ⟨hnone, hstore⟩
    · exact ⟨(h t tx ht).1, (h t tx ht).2.concat d⟩
    · obtain ⟨env, message⟩ := d
      cases message with
      | ix tx' =>
        obtain ⟨hnew, rfl, rfl, -⟩ := hstore
        exact ⟨rfl, requested_concat past hnew⟩
      | txlvote ctx =>
        obtain ⟨hc, rfl, rfl⟩ := hstore
        have hsome := hon ctx rfl hc
        rw [hnone] at hsome
        simp at hsome

/--
**Requests by content.** All through a run of messages what is stored under a hash is the
request with that hash, and the first request for a hash is processed, iff no vote
completes a candidate whose request is not stored.
-/
theorem keyedByContent_iff (run : List Delivery) :
    (∀ past, past <+: run → (after past).KeyedByContent past) ↔
      ∀ past d, past ++ [d] <+: run → (after past).CompletesStored d := by
  refine Machine.always_iff ?_ run fun past d _ hpast => ?_
  · rw [(awaiting_after []).iff_stored]
    intro t tx ht
    simp [after] at ht
  · rw [(awaiting_after _).iff_stored, after_concat]
    exact stored_step_iff hpast.stored d

end SwiftState

/-- A node on which inputs are ten blocks old, and which rejects requests all the same. -/
def rejectingEnv : SwiftEnv := { SwiftEnv.bare 0 with getInputAge := fun _ => 10 }

/-- A rejected request, and six valid votes for it. -/
def outvotedRequest : List Delivery :=
  ⟨rejectingEnv, .ix strayRequest⟩ :: (List.range 6).map fun k =>
    ⟨rejectingEnv, .txlvote ⟨⟨⟨k, 0⟩, [], 0⟩, strayRequest.hash, 94, [1]⟩⟩

/-- The sixth vote stores an empty transaction under the hash of the request. -/
theorem outvotedRequest_stores_default :
    ¬ (SwiftState.after outvotedRequest).KeyedByContent outvotedRequest := by
  intro h
  have hreq : (SwiftState.after outvotedRequest).mapTxLockReq.lookup 7 =
      some CTransaction.default := by decide
  exact absurd (h.stored 7 _ hreq).1 (by decide)

end BitBlocks
