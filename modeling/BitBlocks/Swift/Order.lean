import BitBlocks.Swift.Votes

/-!
# A lock request and its votes in any order

Votes may come before the request they are for; the candidate collects them without a
height, and the request brings it. But whether a candidate has its votes is only looked
at when a vote comes. So the votes before the request count, and yet do nothing unless a
new one follows: the state after any part of a run is told by the hashes of the votes
that came before the request and of those that came after it.
-/

namespace BitBlocks

open Table

namespace SwiftState

/-- The height that `CreateNewLock` gives the request. -/
def requestHeight (env : SwiftEnv) (tx : CTransaction) : Int := (createNewLock {} env tx).2

/-- The node's own vote for the request is recorded under this hash. -/
def ownVote (env : SwiftEnv) (tx : CTransaction) (hash : Uint256) : Bool :=
  ((doConsensusVote {} env tx (requestHeight env tx)).mapTxLockVote.lookup hash).isSome

/-- A request that nothing is wrong with, as it meets the node. -/
structure GoodRequest (env : SwiftEnv) (tx : CTransaction) : Prop where
  active : env.fActive = true
  valid : requestValid env tx = true
  acceptable : env.fAcceptable tx = true
  inputs : tx.vin ≠ []
  /-- `GetInputAge` counts from the height of the coin, which is not negative. -/
  mature : ∀ i ∈ tx.vin, 5 ≤ env.getInputAge i ∧ env.getInputAge i ≤ env.nTipHeight + 1

/-- A valid vote for the transaction and the height, as it meets the node. -/
structure GoodVote (tx : CTransaction) (nBlockHeight : Int) (x : SwiftEnv × CConsensusVote) :
    Prop where
  active : x.1.fActive = true
  valid : voteValid x.1 x.2 = true
  hash : x.2.txHash = tx.hash
  height : x.2.nBlockHeight = nBlockHeight

/-- The node has met neither the request nor the votes, and nothing conflicts with them. -/
structure Unmet (s : SwiftState) (tx : CTransaction) (votes : List (SwiftEnv × CConsensusVote)) :
    Prop where
  unseen : s.requestSeen tx.hash = false
  candidate : s.mapTxLocks.lookup tx.hash = none
  unlocked : ∀ o ∈ tx.prevouts, s.mapLockedInputs.lookup o = none
  unrecorded : ∀ x ∈ votes, s.mapTxLockVote.lookup x.2.getHash = none

def lockRun (before : List (SwiftEnv × CConsensusVote)) (env : SwiftEnv) (tx : CTransaction)
    (after : List (SwiftEnv × CConsensusVote)) : List Delivery :=
  voteRun before ++ ⟨env, .ix tx⟩ :: voteRun after

/-- The hashes that votes are recorded under. -/
def hashes (votes : List (SwiftEnv × CConsensusVote)) : Finset Uint256 :=
  (votes.map fun x => x.2.getHash).toFinset

/-- The hashes of votes after the request that are not recorded by then. -/
def newHashes (before : List (SwiftEnv × CConsensusVote)) (env : SwiftEnv) (tx : CTransaction)
    (after : List (SwiftEnv × CConsensusVote)) : Finset Uint256 :=
  (hashes after).filter fun k => k ∉ hashes before ∧ ownVote env tx k = false

/-! ## The request -/

theorem inputAges_mature {env : SwiftEnv} {vin : List CTxIn} {nTxAge : Int}
    (h : ∀ i ∈ vin, 5 ≤ env.getInputAge i ∧ env.getInputAge i ≤ env.nTipHeight + 1)
    (hage : nTxAge ≤ env.nTipHeight + 1 ∨ vin ≠ []) :
    ∃ n, inputAges env nTxAge vin = some n ∧ n ≤ env.nTipHeight + 1 := by
  induction vin generalizing nTxAge with
  | nil => exact ⟨nTxAge, rfl, hage.resolve_right fun hne => hne rfl⟩
  | cons i vin ih =>
    have hi := h i List.mem_cons_self
    rw [inputAges, if_neg (by omega)]
    exact ih (fun j hj => h j (List.mem_cons_of_mem i hj)) (Or.inl hi.2)

theorem GoodRequest.ages {env : SwiftEnv} {tx : CTransaction} (h : GoodRequest env tx) :
    ∃ nTxAge, inputAges env 0 tx.vin.reverse = some nTxAge ∧
      requestHeight env tx = env.nTipHeight - nTxAge + 4 ∧ requestHeight env tx ≠ 0 := by
  have hmature : ∀ i ∈ tx.vin.reverse, 5 ≤ env.getInputAge i ∧
      env.getInputAge i ≤ env.nTipHeight + 1 :=
    fun i hi => h.mature i (List.mem_reverse.mp hi)
  obtain ⟨nTxAge, hages, hle⟩ := @inputAges_mature env tx.vin.reverse 0 hmature
    (Or.inr fun hnil => h.inputs (List.reverse_eq_nil_iff.mp hnil))
  have hheight : requestHeight env tx = env.nTipHeight - nTxAge + 4 := by
    unfold requestHeight createNewLock
    rw [hages]
  exact ⟨nTxAge, hages, hheight, by omega⟩

theorem recorded_doConsensusVote (s : SwiftState) (env : SwiftEnv) (tx : CTransaction)
    (nBlockHeight : Int) (hash : Uint256) :
    ((s.doConsensusVote env tx nBlockHeight).mapTxLockVote.lookup hash).isSome = true ↔
      (s.mapTxLockVote.lookup hash).isSome = true ∨
        ((doConsensusVote {} env tx nBlockHeight).mapTxLockVote.lookup hash).isSome = true := by
  unfold doConsensusVote
  cases env.activeMasternode with
  | none => simp
  | some vin =>
    dsimp only
    split_ifs
    · simp
    · simp
    · cases env.sign _ with
      | none => simp
      | some sig =>
        dsimp only
        split_ifs
        · simp
        · simp only [lookup_insert]
          split_ifs <;> simp

theorem createNewLock_height (s : SwiftState) (env : SwiftEnv) (tx : CTransaction) :
    (s.createNewLock env tx).2 = requestHeight env tx := by
  unfold requestHeight createNewLock
  cases inputAges env 0 tx.vin.reverse <;> rfl

/-! ## What a vote adds -/

section Orders

variable {tx : CTransaction} {nBlockHeight : Int} {s₀ s : SwiftState} {env : SwiftEnv}
  {ctx : CConsensusVote} {votes before after : List (SwiftEnv × CConsensusVote)}
  {K : Finset Uint256}

theorem hashes_concat (votes : List (SwiftEnv × CConsensusVote)) (x : SwiftEnv × CConsensusVote) :
    hashes (votes ++ [x]) = insert x.2.getHash (hashes votes) := by
  ext k
  simp [hashes]

/-- The candidate holds one vote for each hash, all for the height. -/
structure Collected (tx : CTransaction) (nBlockHeight : Int) (K : Finset Uint256) (s : SwiftState) :
    Prop where
  length : (s.votes tx.hash).length = K.card
  height : ∀ v ∈ s.votes tx.hash, v.nBlockHeight = nBlockHeight

theorem GoodVote.newVote_iff (hx : GoodVote tx nBlockHeight (env, ctx)) :
    s.newVote env ctx = true ↔ (s.mapTxLockVote.lookup ctx.getHash).isSome = false := by
  rw [SwiftState.newVote_iff, Option.isSome_eq_false_iff, Option.isNone_iff_eq_none]
  exact ⟨fun h => h.2.1, fun h => ⟨hx.active, h, hx.valid⟩⟩

theorem GoodVote.votes_deliver (hx : GoodVote tx nBlockHeight (env, ctx)) :
    (s.deliver ⟨env, .txlvote ctx⟩).votes tx.hash =
      if s.newVote env ctx = true then s.votes tx.hash ++ [ctx] else s.votes tx.hash := by
  have hhash : ctx.txHash = tx.hash := hx.hash
  rw [votes_deliver_txlvote, hhash]
  simp only [and_true]

theorem Collected.same (h : Collected tx nBlockHeight K s)
    (hx : GoodVote tx nBlockHeight (env, ctx)) (hold : s.newVote env ctx = false) :
    Collected tx nBlockHeight K (s.deliver ⟨env, .txlvote ctx⟩) := by
  have hvotes := hx.votes_deliver (s := s)
  rw [if_neg (by rw [hold]; decide)] at hvotes
  exact ⟨by rw [hvotes]; exact h.length, by rw [hvotes]; exact h.height⟩

theorem Collected.add (h : Collected tx nBlockHeight K s)
    (hx : GoodVote tx nBlockHeight (env, ctx)) (hnew : s.newVote env ctx = true)
    (hk : ctx.getHash ∉ K) :
    Collected tx nBlockHeight (insert ctx.getHash K) (s.deliver ⟨env, .txlvote ctx⟩) := by
  have hvotes := hx.votes_deliver (s := s)
  rw [if_pos hnew] at hvotes
  refine ⟨?_, fun v hv => ?_⟩
  · rw [hvotes, List.length_append, h.length, Finset.card_insert_of_notMem hk]
    rfl
  · rw [hvotes] at hv
    rcases List.mem_append.mp hv with hv | hv
    · exact h.height v hv
    · rw [List.mem_singleton.mp hv]
      exact hx.height

theorem withVote_height (hhash : ctx.txHash = tx.hash) : (s.withVote env ctx).nBlockHeight =
      (s.candidate tx.hash).elim 0 CTransactionLock.nBlockHeight := by
  unfold withVote candidate
  rw [hhash]
  cases s.mapTxLocks.lookup tx.hash <;> rfl

theorem GoodVote.candidate_deliver (hx : GoodVote tx nBlockHeight (env, ctx)) :
    (s.deliver ⟨env, .txlvote ctx⟩).candidate tx.hash =
      if s.newVote env ctx = true then some (s.withVote env ctx).timeless
      else s.candidate tx.hash := by
  have hhash : ctx.txHash = tx.hash := hx.hash
  rw [(delivered s ⟨env, .txlvote ctx⟩).candidate, candidateAfter]
  simp only [hhash, and_true]

/-! ## Votes before the request -/

/-- After votes with the hashes `K`, without the request. -/
structure Waiting (tx : CTransaction) (nBlockHeight : Int) (s₀ : SwiftState) (K : Finset Uint256)
    (s : SwiftState) : Prop where
  unseen : s.requestSeen tx.hash = false
  heightless : (s.candidate tx.hash).elim 0 CTransactionLock.nBlockHeight = 0
  collected : Collected tx nBlockHeight K s
  recorded : ∀ k, (s.mapTxLockVote.lookup k).isSome = true ↔
    (s₀.mapTxLockVote.lookup k).isSome = true ∨ k ∈ K
  unlocked : ∀ o ∈ tx.prevouts, s.mapLockedInputs.lookup o = none

theorem Unmet.waiting (h : Unmet s tx votes) : Waiting tx nBlockHeight s ∅ s := by
  have hnil : s.votes tx.hash = [] := by rw [SwiftState.votes, h.candidate]; rfl
  have hnone : s.candidate tx.hash = none := by rw [SwiftState.candidate, h.candidate]; rfl
  exact ⟨h.unseen, by rw [hnone]; rfl, ⟨by rw [hnil]; rfl, by simp [hnil]⟩, by simp, h.unlocked⟩

theorem Waiting.vote (h : Waiting tx nBlockHeight s₀ K s) (hx : GoodVote tx nBlockHeight (env, ctx))
    (hmet : s₀.mapTxLockVote.lookup ctx.getHash = none) :
    Waiting tx nBlockHeight s₀ (insert ctx.getHash K) (s.deliver ⟨env, .txlvote ctx⟩) := by
  have hd := delivered s ⟨env, .txlvote ctx⟩
  have hactive : env.fActive = true := hx.active
  have hzero : (s.withVote env ctx).nBlockHeight = 0 := (withVote_height hx.hash).trans h.heightless
  -- without a height no vote counts
  have hcomp : s.completes env ctx = false := by
    rw [completes, CTransactionLock.countSignatures, if_pos hzero, Bool.and_eq_false_iff]
    exact Or.inr (by decide)
  have hnew : s.newVote env ctx = true ↔ ctx.getHash ∉ K := by
    rw [hx.newVote_iff, ← Bool.not_eq_true, h.recorded]
    simp [hmet]
  constructor
  · rw [← Bool.not_eq_true, hd.seen]
    simp [h.unseen, notes, hcomp]
  · rw [hx.candidate_deliver]
    split
    · exact hzero
    · exact h.heightless
  · by_cases hk : ctx.getHash ∈ K
    · rw [Finset.insert_eq_of_mem hk]
      exact h.collected.same hx (Bool.eq_false_iff.mpr fun h' => hnew.mp h' hk)
    · exact h.collected.add hx (hnew.mpr hk) hk
  · intro k
    rw [recorded_deliver_txlvote, h.recorded, Finset.mem_insert]
    simp only [hactive, true_and]
    tauto
  · intro o ho
    rw [Option.eq_none_iff_forall_ne_some]
    intro t ht
    rw [hd.locked, h.unlocked o ho] at ht
    simp [SwiftState.locks, hcomp] at ht

/-- **The votes before the request are collected, and that is all.** -/
theorem waiting_before (h : Unmet s tx before) (hgood : ∀ x ∈ before, GoodVote tx nBlockHeight x) :
    Waiting tx nBlockHeight s (hashes before) ((voteRun before).foldl deliver s) := by
  induction before using List.reverseRecOn with
  | nil => exact h.waiting
  | append_singleton votes x ih =>
    have hlast : x ∈ votes ++ [x] := List.mem_append_right _ (List.mem_singleton.mpr rfl)
    have hvotes := ih ⟨h.unseen, h.candidate, h.unlocked, fun y hy =>
      h.unrecorded y (List.mem_append_left _ hy)⟩ fun y hy => hgood y (List.mem_append_left _ hy)
    rw [voteRun_concat, List.foldl_append, hashes_concat]
    exact hvotes.vote (hgood x hlast) (h.unrecorded x hlast)

/-! ## The request, and the votes after it -/

/-- After the request and the votes `after`. -/
structure Collecting (s₀ : SwiftState) (before : List (SwiftEnv × CConsensusVote)) (env : SwiftEnv)
    (tx : CTransaction) (after : List (SwiftEnv × CConsensusVote)) (s : SwiftState) : Prop where
  height : (s.candidate tx.hash).elim 0 CTransactionLock.nBlockHeight = requestHeight env tx
  collected : Collected tx (requestHeight env tx) (hashes before ∪ newHashes before env tx after) s
  request : s.mapTxLockReq.lookup tx.hash = some tx
  recorded : ∀ k, (s.mapTxLockVote.lookup k).isSome = true ↔
    (s₀.mapTxLockVote.lookup k).isSome = true ∨ k ∈ hashes before ∨ ownVote env tx k = true ∨
      k ∈ hashes after
  locked : ∀ o ∈ tx.prevouts, s.mapLockedInputs.lookup o =
    if (newHashes before env tx after).Nonempty ∧
        6 ≤ (hashes before ∪ newHashes before env tx after).card then some tx.hash else none

theorem Waiting.request (h : Waiting tx (requestHeight env tx) s₀ (hashes before) s)
    (hreq : GoodRequest env tx) :
    Collecting s₀ before env tx [] (s.deliver ⟨env, .ix tx⟩) := by
  obtain ⟨nTxAge, hages, hheight, -⟩ := hreq.ages
  have hd := delivered s ⟨env, .ix tx⟩
  have hnew : s.newRequest env tx = true := newRequest_iff.mpr ⟨hreq.active, h.unseen, hreq.valid⟩
  have hpool : s.acceptToMemoryPool env tx = true := by
    have hfree : tx.vin.any (s.lockedByOther tx) = false := by
      rw [List.any_eq_false]
      intro i hi
      rw [lockedByOther, h.unlocked i.prevout (List.mem_map.mpr ⟨i, hi, rfl⟩)]
      exact Bool.false_ne_true
    rw [acceptToMemoryPool, hfree, hreq.acceptable]
    rfl
  have hcand : (s.deliver ⟨env, .ix tx⟩).candidate tx.hash = s.requestCandidate env tx := by
    rw [hd.candidate, candidateAfter_request hnew]
  have hvotes := votes_deliver_ix s env tx tx.hash
  have hnil : newHashes before env tx [] = ∅ := rfl
  constructor
  · rw [hcand, requestCandidate, hages, hheight]
    cases s.candidate tx.hash <;> rfl
  · rw [hnil, Finset.union_empty]
    exact ⟨by rw [hvotes]; exact h.collected.length, by rw [hvotes]; exact h.collected.height⟩
  · rw [hd.request]
    have hnone : s.mapTxLockReq.lookup tx.hash = none := by
      have := h.unseen
      simp only [requestSeen, Bool.or_eq_false_iff, Option.isSome_eq_false_iff,
        Option.isNone_iff_eq_none] at this
      exact this.1
    exact Or.inr ⟨hnone, hnew, rfl, rfl, Or.inl hpool⟩
  · intro k
    obtain ⟨locks, hlocks, -⟩ := createNewLock_eq s env tx
    have hrun : (s.deliver ⟨env, .ix tx⟩).mapTxLockVote =
        ((s.createNewLock env tx).1.doConsensusVote env tx
          (requestHeight env tx)).mapTxLockVote := by
      rw [deliver_ix, if_pos hnew, if_pos hpool, createNewLock_height]
      rfl
    rw [hrun, recorded_doConsensusVote, hlocks, h.recorded]
    simp [hashes, ownVote, or_assoc]
  · intro o ho
    rw [hnil, if_neg (by simp), Option.eq_none_iff_forall_ne_some]
    intro t ht
    rw [hd.locked, h.unlocked o ho] at ht
    simp [SwiftState.locks, rejects, hpool] at ht

theorem Collecting.conflicting (h : Collecting s₀ before env tx after s) :
    s.conflicting tx = false := by
  rw [SwiftState.conflicting, List.any_eq_false]
  intro i hi
  rw [lockedByOther, h.locked i.prevout (List.mem_map.mpr ⟨i, hi, rfl⟩)]
  split_ifs <;> simp

theorem Collected.countSignatures_withVote (h : Collected tx nBlockHeight K s)
    (hx : GoodVote tx nBlockHeight (env, ctx))
    (hheight : (s.withVote env ctx).nBlockHeight = nBlockHeight) (hne : nBlockHeight ≠ 0) :
    (s.withVote env ctx).countSignatures = K.card + 1 := by
  have hhash : ctx.txHash = tx.hash := hx.hash
  have hvotes : (s.withVote env ctx).vecConsensusVotes = s.votes tx.hash ++ [ctx] :=
    hhash ▸ timeless_withVote s env ctx
  have hall : (s.votes tx.hash ++ [ctx]).countP (fun v => v.nBlockHeight == nBlockHeight) =
      (s.votes tx.hash ++ [ctx]).length := by
    refine List.countP_eq_length.mpr fun v hv => beq_iff_eq.mpr ?_
    rcases List.mem_append.mp hv with hv | hv
    · exact h.height v hv
    · rw [List.mem_singleton.mp hv]
      exact hx.height
  rw [CTransactionLock.countSignatures, hheight, if_neg hne, hvotes, hall, List.length_append,
    h.length]
  rfl

theorem newHashes_concat (before : List (SwiftEnv × CConsensusVote)) (env : SwiftEnv)
    (tx : CTransaction) (after : List (SwiftEnv × CConsensusVote)) (x : SwiftEnv × CConsensusVote) :
    newHashes before env tx (after ++ [x]) =
      if x.2.getHash ∉ hashes before ∧ ownVote env tx x.2.getHash = false then
        insert x.2.getHash (newHashes before env tx after) else newHashes before env tx after := by
  unfold newHashes
  rw [hashes_concat, Finset.filter_insert]

theorem Collecting.vote {env' : SwiftEnv} (h : Collecting s₀ before env tx after s)
    (hreq : GoodRequest env tx) (hx : GoodVote tx (requestHeight env tx) (env', ctx))
    (hmet : s₀.mapTxLockVote.lookup ctx.getHash = none) :
    Collecting s₀ before env tx (after ++ [(env', ctx)]) (s.deliver ⟨env', .txlvote ctx⟩) := by
  have hd := delivered s ⟨env', .txlvote ctx⟩
  have hactive : env'.fActive = true := hx.active
  have hhash : ctx.txHash = tx.hash := hx.hash
  obtain ⟨-, -, -, hne⟩ := hreq.ages
  have hheight : (s.withVote env' ctx).nBlockHeight = requestHeight env tx :=
    (withVote_height hhash).trans h.height
  have hnew : s.newVote env' ctx = true ↔ ctx.getHash ∉ hashes before ∧
      ownVote env tx ctx.getHash = false ∧ ctx.getHash ∉ hashes after := by
    rw [hx.newVote_iff, ← Bool.not_eq_true, h.recorded]
    simp [hmet]
  have hrecorded : ∀ k, ((s.deliver ⟨env', .txlvote ctx⟩).mapTxLockVote.lookup k).isSome = true ↔
      (s₀.mapTxLockVote.lookup k).isSome = true ∨ k ∈ hashes before ∨ ownVote env tx k = true ∨
        k ∈ hashes (after ++ [(env', ctx)]) := by
    intro k
    rw [recorded_deliver_txlvote, h.recorded, hashes_concat, Finset.mem_insert]
    simp only [hactive, true_and]
    tauto
  have hrequest : (s.deliver ⟨env', .txlvote ctx⟩).mapTxLockReq.lookup tx.hash = some tx :=
    (hd.request _ _).mpr (Or.inl h.request)
  have hcand := hx.candidate_deliver (s := s)
  cases hv : s.newVote env' ctx with
  | false =>
    have hsame : newHashes before env tx (after ++ [(env', ctx)]) =
        newHashes before env tx after := by
      rw [newHashes_concat]
      split
      · rename_i hfree
        have hafter : ctx.getHash ∈ hashes after := by
          by_contra hk
          exact absurd (hnew.mpr ⟨hfree.1, hfree.2, hk⟩) (by rw [hv]; decide)
        exact Finset.insert_eq_of_mem (Finset.mem_filter.mpr ⟨hafter, hfree⟩)
      · rfl
    rw [hv, if_neg (by decide)] at hcand
    refine ⟨by rw [hcand]; exact h.height, by rw [hsame]; exact h.collected.same hx hv, hrequest,
      hrecorded, fun o ho => ?_⟩
    rw [hsame, ← h.locked o ho]
    refine Option.ext fun t => ?_
    rw [hd.locked]
    simp [SwiftState.locks, completes, hv]
  | true =>
    obtain ⟨hbefore, hown, hafter⟩ := hnew.mp hv
    have hadd : newHashes before env tx (after ++ [(env', ctx)]) =
        insert ctx.getHash (newHashes before env tx after) := by
      rw [newHashes_concat, if_pos ⟨hbefore, hown⟩]
    have hk : ctx.getHash ∉ hashes before ∪ newHashes before env tx after := by
      rw [Finset.notMem_union]
      exact ⟨hbefore, fun hmem => hafter (Finset.mem_filter.mp hmem).1⟩
    have hunion : hashes before ∪ newHashes before env tx (after ++ [(env', ctx)]) =
        insert ctx.getHash (hashes before ∪ newHashes before env tx after) := by
      rw [hadd, Finset.union_insert]
    have hcard := Finset.card_insert_of_notMem hk
    have hcomp : s.completes env' ctx = true ↔
        6 ≤ (hashes before ∪ newHashes before env tx after).card + 1 := by
      rw [completes_iff, h.collected.countSignatures_withVote hx hheight hne,
        SWIFTTX_SIGNATURES_REQUIRED]
      simp only [hv, true_and]
      omega
    rw [hv, if_pos rfl] at hcand
    refine ⟨by rw [hcand]; exact hheight, by rw [hunion]; exact h.collected.add hx hv hk, hrequest,
      hrecorded, fun o ho => ?_⟩
    rw [hunion, hcard]
    have hnonempty : (newHashes before env tx (after ++ [(env', ctx)])).Nonempty := by
      rw [hadd]
      exact Finset.insert_nonempty _ _
    refine Option.ext fun t => ?_
    have hlocks : s.locks ⟨env', .txlvote ctx⟩ o t ↔
        6 ≤ (hashes before ∪ newHashes before env tx after).card + 1 ∧ t = tx.hash := by
      dsimp only [SwiftState.locks]
      rw [hcomp, hhash]
      constructor
      · intro hl
        exact ⟨hl.1, hl.2.1⟩
      · rintro ⟨hsix, rfl⟩
        exact ⟨hsix, rfl, tx, h.request, ho, h.conflicting⟩
    rw [hd.locked, h.locked o ho, hlocks]
    simp only [hnonempty, true_and]
    by_cases hsix : 6 ≤ (hashes before ∪ newHashes before env tx after).card + 1
    · rw [if_pos hsix]
      split_ifs <;> simp [hsix, eq_comm]
    · rw [if_neg hsix, if_neg fun h' => hsix (Nat.le_succ_of_le h'.2)]
      simp [hsix]

/-- **The votes after the request complete the lock**, once they are enough. -/
theorem collecting_after (h : Collecting s₀ before env tx [] s) (hreq : GoodRequest env tx)
    (hmet : ∀ x ∈ after, s₀.mapTxLockVote.lookup x.2.getHash = none)
    (hgood : ∀ x ∈ after, GoodVote tx (requestHeight env tx) x) :
    Collecting s₀ before env tx after ((voteRun after).foldl deliver s) := by
  induction after using List.reverseRecOn with
  | nil => exact h
  | append_singleton votes x ih =>
    have hlast : x ∈ votes ++ [x] := List.mem_append_right _ (List.mem_singleton.mpr rfl)
    have hvotes := ih (fun y hy => hmet y (List.mem_append_left _ hy))
      fun y hy => hgood y (List.mem_append_left _ hy)
    rw [voteRun_concat, List.foldl_append]
    exact hvotes.vote hreq (hgood x hlast) (hmet x hlast)

end Orders

/--
**Completion depends on the order.** The request and its valid votes leave every
input locked for the transaction iff a vote that is not recorded already follows
the request, and six hashes were recorded in time: those of the votes before the
request and those of the new votes after it.
-/
theorem lockedInAnyOrder_iff {s : SwiftState} {env : SwiftEnv} {tx : CTransaction}
    {before after : List (SwiftEnv × CConsensusVote)} (hmet : Unmet s tx (before ++ after))
    (hreq : GoodRequest env tx)
    (hgood : ∀ x ∈ before ++ after, GoodVote tx (requestHeight env tx) x) :
    (∀ i ∈ tx.vin, ((lockRun before env tx after).foldl deliver s).mapLockedInputs.lookup
      i.prevout =
      some tx.hash) ↔
      (newHashes before env tx after).Nonempty ∧
        6 ≤ (hashes before ∪ newHashes before env tx after).card := by
  have hwait :
      Waiting tx (requestHeight env tx) s (hashes before) ((voteRun before).foldl deliver s) :=
    waiting_before
    ⟨hmet.unseen, hmet.candidate, hmet.unlocked, fun x hx =>
      hmet.unrecorded x (List.mem_append_left _ hx)⟩ fun x hx => hgood x (List.mem_append_left _ hx)
  have hend := collecting_after (hwait.request hreq) hreq
    (fun x hx => hmet.unrecorded x (List.mem_append_right _ hx))
    fun x hx => hgood x (List.mem_append_right _ hx)
  have hrun : (lockRun before env tx after).foldl deliver s =
      (voteRun after).foldl deliver (((voteRun before).foldl deliver s).deliver ⟨env, .ix tx⟩) := by
    rw [lockRun, List.foldl_append]
    rfl
  rw [hrun]
  have hlocked := fun (i : CTxIn) (hi : i ∈ tx.vin) =>
    hend.locked i.prevout (List.mem_map.mpr ⟨i, hi, rfl⟩)
  constructor
  · intro h
    obtain ⟨i, hi⟩ := List.exists_mem_of_ne_nil _ hreq.inputs
    by_contra hc
    have hnone := h i hi
    rw [hlocked i hi, if_neg hc] at hnone
    exact absurd hnone (by simp)
  · intro hc i hi
    rw [hlocked i hi, if_pos hc]

end SwiftState

/-- A node on which inputs are ten blocks old and every transaction is acceptable. -/
def acceptingEnv : SwiftEnv :=
  { SwiftEnv.bare 0 with getInputAge := fun _ => 10, fAcceptable := fun _ => true }

/-- Six valid votes of different masternodes for the request. -/
def sixVotes : List (SwiftEnv × CConsensusVote) :=
  (List.range 6).map fun k => (acceptingEnv, ⟨⟨⟨k, 0⟩, [], 0⟩, strayRequest.hash, 94, [1]⟩)

theorem goodRequest_sample : SwiftState.GoodRequest acceptingEnv strayRequest :=
  ⟨by decide, by decide, by decide, by decide, by decide⟩

theorem goodVote_sixVotes : ∀ x ∈ sixVotes, SwiftState.GoodVote strayRequest
      (SwiftState.requestHeight acceptingEnv strayRequest) x := by
  intro x hx
  obtain ⟨k, -, rfl⟩ := List.mem_map.mp hx
  exact ⟨rfl, rfl, rfl, rfl⟩

theorem unmet_sample : SwiftState.Unmet {} strayRequest sixVotes :=
  ⟨by decide, by decide, by decide, by decide⟩

/-- Votes that come before the request do not complete its lock. -/
theorem earlyVotes_lock_nothing : SwiftState.Unmet {} strayRequest (sixVotes ++ []) ∧
      SwiftState.GoodRequest acceptingEnv strayRequest ∧
      (∀ x ∈ sixVotes ++ [], SwiftState.GoodVote strayRequest
        (SwiftState.requestHeight acceptingEnv strayRequest) x) ∧
      6 ≤ sixVotes.length ∧ (sixVotes.map fun x => x.2.vinMasternode.prevout).Nodup ∧
      ¬ ∀ i ∈ strayRequest.vin, ((SwiftState.lockRun sixVotes acceptingEnv strayRequest []).foldl
        SwiftState.deliver {}).mapLockedInputs.lookup i.prevout = some strayRequest.hash := by
  rw [List.append_nil]
  exact ⟨unmet_sample, goodRequest_sample, goodVote_sixVotes, by decide, by decide, by decide⟩

/-- Votes that come after the request complete it. -/
theorem lockedInAnyOrder_iff_late : strayRequest.vin ≠ [] ∧
      ∀ i ∈ strayRequest.vin, ((SwiftState.lockRun [] acceptingEnv strayRequest sixVotes).foldl
        SwiftState.deliver {}).mapLockedInputs.lookup i.prevout = some strayRequest.hash :=
  ⟨by decide, (SwiftState.lockedInAnyOrder_iff unmet_sample goodRequest_sample
    goodVote_sixVotes).mpr ⟨by decide, by decide⟩⟩

end BitBlocks
