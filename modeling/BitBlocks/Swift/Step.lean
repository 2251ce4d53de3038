import BitBlocks.Swift.SwiftTX

/-!
# What a message does to the maps

The handlers of `swifttx.cpp` read key by key. A message is either ignored, or it is a new
request or a new vote; which outpoints it locks, which request it stores and which votes
its candidate has afterwards is then said in terms of the maps before it. Everything about
runs is derived from this.

The times of a candidate are left out (`timeless`): only the expiry reads them.
-/

namespace BitBlocks

open Table

def CTransactionLock.timeless (lock : CTransactionLock) : CTransactionLock :=
  { lock with nExpiration := 0, nTimeout := 0 }

namespace SwiftState

def candidate (s : SwiftState) (t : Uint256) : Option CTransactionLock :=
  (s.mapTxLocks.lookup t).map CTransactionLock.timeless

variable {s s' : SwiftState} {t : Uint256} {env : SwiftEnv} {tx : CTransaction}
  {ctx : CConsensusVote} {d : Delivery}

theorem candidate_eq_some {lock : CTransactionLock} (h : s.mapTxLocks.lookup t = some lock) :
    s.candidate t = some lock.timeless := by
  rw [candidate, h]; rfl

/-- The votes collected for a transaction, counted or not. -/
def votes (s : SwiftState) (t : Uint256) : List CConsensusVote :=
  (s.mapTxLocks.lookup t).elim [] CTransactionLock.vecConsensusVotes

theorem votes_eq (s : SwiftState) (t : Uint256) :
    s.votes t = (s.candidate t).elim [] CTransactionLock.vecConsensusVotes := by
  unfold votes candidate
  cases s.mapTxLocks.lookup t <;> rfl

theorem exists_of_candidate {c : CTransactionLock} (h : s.candidate t = some c) :
    ∃ lock, s.mapTxLocks.lookup t = some lock ∧ lock.timeless = c := Option.map_eq_some_iff.mp h

theorem candidate_insert (s : SwiftState) (k t : Uint256) (lock : CTransactionLock) :
    candidate { s with mapTxLocks := s.mapTxLocks.insert k lock } t =
      if t = k then some lock.timeless else s.candidate t := by
  simp only [candidate, lookup_insert]
  split <;> rfl

/-! ## Messages that count -/

/-- The request gets past the first checks. -/
def newRequest (s : SwiftState) (env : SwiftEnv) (tx : CTransaction) : Bool :=
  env.fActive && !s.requestSeen tx.hash && requestValid env tx

/-- An input of the transaction is locked for another one. -/
def conflicting (s : SwiftState) (tx : CTransaction) : Bool := tx.vin.any (s.lockedByOther tx)

/-- The memory pool refuses the request. -/
def rejects (s : SwiftState) (env : SwiftEnv) (tx : CTransaction) : Bool :=
  s.newRequest env tx && !s.acceptToMemoryPool env tx

/-- The vote was not seen before, and meets the rules. -/
def newVote (s : SwiftState) (env : SwiftEnv) (ctx : CConsensusVote) : Bool :=
  env.fActive && (s.mapTxLockVote.lookup ctx.getHash).isNone && voteValid env ctx

/-- The vote leaves its candidate with the votes it needs. -/
def completes (s : SwiftState) (env : SwiftEnv) (ctx : CConsensusVote) : Bool :=
  s.newVote env ctx && decide (SWIFTTX_SIGNATURES_REQUIRED ≤ (s.withVote env ctx).countSignatures)

def complete (s : SwiftState) (t : Uint256) : Bool :=
  (s.candidate t).any fun lock => decide (SWIFTTX_SIGNATURES_REQUIRED ≤ lock.countSignatures)

/-- The candidate of a request that gets past the first checks. -/
def requestCandidate (s : SwiftState) (env : SwiftEnv) (tx : CTransaction) :
    Option CTransactionLock :=
  match inputAges env 0 tx.vin.reverse with
  | none => s.candidate tx.hash
  | some nTxAge =>
    let nBlockHeight := env.nTipHeight - nTxAge + 4
    match s.candidate tx.hash with
    | none =>
      some { nBlockHeight := nBlockHeight, txHash := tx.hash, nExpiration := 0, nTimeout := 0 }
    | some lock => some { lock with nBlockHeight := nBlockHeight }

/-- The request is rejected when its candidate has its votes already. -/
def rejectsComplete (s : SwiftState) (env : SwiftEnv) (tx : CTransaction) : Bool :=
  s.rejects env tx && (s.requestCandidate env tx).any fun lock =>
    decide (SWIFTTX_SIGNATURES_REQUIRED ≤ lock.countSignatures)

/-- The outpoint, if nothing is locked there, is locked for `t`. -/
def locks (s : SwiftState) (d : Delivery) (o : COutPoint) (t : Uint256) : Prop :=
  match d.message with
  | .ix tx => s.rejects d.env tx = true ∧ o ∈ tx.prevouts ∧ t = tx.hash
  | .txlvote ctx => s.completes d.env ctx = true ∧ t = ctx.txHash ∧
      ∃ tx, s.mapTxLockReq.lookup t = some tx ∧ o ∈ tx.prevouts ∧ s.conflicting tx = false

/-- The transaction, if nothing is stored under `t`, is stored there. -/
def stores (s : SwiftState) (d : Delivery) (t : Uint256) (tx : CTransaction) : Prop :=
  match d.message with
  | .ix tx' => s.newRequest d.env tx' = true ∧ t = tx'.hash ∧ tx = tx' ∧
      (s.acceptToMemoryPool d.env tx' = true ∨
        s.rejectsComplete d.env tx' = true ∧ s.conflicting tx' = false)
  | .txlvote ctx => s.completes d.env ctx = true ∧ t = ctx.txHash ∧ tx = CTransaction.default

/-- Requests for `t` have been seen from now on. -/
def notes (s : SwiftState) (d : Delivery) (t : Uint256) : Prop :=
  match d.message with
  | .ix tx => s.newRequest d.env tx = true ∧ t = tx.hash
  | .txlvote ctx => s.completes d.env ctx = true ∧ t = ctx.txHash

/-- The candidate of `t` afterwards. -/
def candidateAfter (s : SwiftState) (d : Delivery) (t : Uint256) : Option CTransactionLock :=
  match d.message with
  | .ix tx => if s.newRequest d.env tx = true ∧ t = tx.hash then s.requestCandidate d.env tx
      else s.candidate t
  | .txlvote ctx => if s.newVote d.env ctx = true ∧ t = ctx.txHash then
      some (s.withVote d.env ctx).timeless else s.candidate t

theorem newRequest_iff :
    s.newRequest env tx = true ↔ env.fActive = true ∧ s.requestSeen tx.hash = false ∧
      requestValid env tx = true := by
  simp [newRequest, and_assoc]

theorem rejects_iff : s.rejects env tx = true ↔
      s.newRequest env tx = true ∧ s.acceptToMemoryPool env tx = false := by
  simp [rejects]

theorem rejectsComplete_iff : s.rejectsComplete env tx = true ↔ s.rejects env tx = true ∧
      ((s.requestCandidate env tx).any fun lock =>
        decide (SWIFTTX_SIGNATURES_REQUIRED ≤ lock.countSignatures)) = true := by
  rw [rejectsComplete, Bool.and_eq_true]

theorem newVote_iff :
    s.newVote env ctx = true ↔ env.fActive = true ∧ s.mapTxLockVote.lookup ctx.getHash = none ∧
      voteValid env ctx = true := by
  simp [newVote, and_assoc]

theorem completes_iff : s.completes env ctx = true ↔ s.newVote env ctx = true ∧
      SWIFTTX_SIGNATURES_REQUIRED ≤ (s.withVote env ctx).countSignatures := by
  simp [completes]

theorem candidateAfter_request (h : s.newRequest env tx = true) :
    s.candidateAfter ⟨env, .ix tx⟩ tx.hash = s.requestCandidate env tx := if_pos ⟨h, rfl⟩

theorem candidateAfter_vote (h : s.newVote env ctx = true) :
    s.candidateAfter ⟨env, .txlvote ctx⟩ ctx.txHash = some (s.withVote env ctx).timeless :=
  if_pos ⟨h, rfl⟩

/-! ## The functions the handlers call -/

def Retimed (s s' : SwiftState) : Prop :=
  ∃ locks, s' = { s with mapTxLocks := locks } ∧ ∀ t, s'.candidate t = s.candidate t

theorem Retimed.refl (s : SwiftState) : Retimed s s := ⟨s.mapTxLocks, rfl, fun _ => rfl⟩

theorem Retimed.trans {s'' : SwiftState} (h : Retimed s s') (h' : Retimed s' s'') :
    Retimed s s'' := by
  obtain ⟨locks, rfl, hc⟩ := h
  obtain ⟨locks', rfl, hc'⟩ := h'
  exact ⟨locks', rfl, fun t => (hc' t).trans (hc t)⟩

theorem expire_retimed (s : SwiftState) (hash : Uint256) (nTime : Int) :
    Retimed s (s.expire hash nTime) := by
  unfold expire
  cases h : s.mapTxLocks.lookup hash with
  | none => exact Retimed.refl s
  | some lock =>
    refine ⟨_, rfl, fun t => ?_⟩
    dsimp only
    rw [candidate_insert]
    split
    · rename_i ht
      rw [ht, candidate_eq_some h]
      rfl
    · rfl

theorem checkForConflictingLocks_eq (s : SwiftState) (nTime : Int) (tx : CTransaction) :
    ∃ locks, s.checkForConflictingLocks nTime tx =
      ({ s with mapTxLocks := locks }, s.conflicting tx) ∧
      ∀ t, candidate { s with mapTxLocks := locks } t = s.candidate t := by
  unfold checkForConflictingLocks conflicting
  cases h : tx.vin.find? (s.lockedByOther tx) with
  | none =>
    have hany : tx.vin.any (s.lockedByOther tx) = false := by
      rw [List.find?_eq_none] at h
      simpa using h
    rw [hany]
    exact ⟨s.mapTxLocks, rfl, fun _ => rfl⟩
  | some txin =>
    have hany : tx.vin.any (s.lockedByOther tx) = true :=
      List.any_eq_true.mpr ⟨txin, List.mem_of_find?_eq_some h, List.find?_some h⟩
    rw [hany]
    have hre := fun other => (expire_retimed s tx.hash nTime).trans (expire_retimed _ other nTime)
    obtain ⟨locks, heq, hc⟩ := hre ((s.mapLockedInputs.lookup txin.prevout).getD 0)
    exact ⟨locks, congrArg (·, true) heq, fun t => by rw [← hc t, ← heq]⟩

theorem createNewLock_eq (s : SwiftState) (env : SwiftEnv) (tx : CTransaction) :
    ∃ locks, (s.createNewLock env tx).1 = { s with mapTxLocks := locks } ∧
      ∀ t, (s.createNewLock env tx).1.candidate t =
        if t = tx.hash then s.requestCandidate env tx else s.candidate t := by
  unfold createNewLock requestCandidate
  cases inputAges env 0 tx.vin.reverse with
  | none =>
    refine ⟨s.mapTxLocks, rfl, fun t => ?_⟩
    dsimp only
    split
    · rename_i ht; rw [ht]
    · rfl
  | some nTxAge =>
    refine ⟨_, rfl, fun t => ?_⟩
    dsimp only
    rw [candidate_insert]
    cases h : s.mapTxLocks.lookup tx.hash with
    | none =>
      have hc : s.candidate tx.hash = none := by rw [candidate, h]; rfl
      rw [hc]
      rfl
    | some lock => rw [candidate_eq_some h]; rfl

theorem doConsensusVote_eq (s : SwiftState) (env : SwiftEnv) (tx : CTransaction)
    (nBlockHeight : Int) : ∃ votes, s.doConsensusVote env tx nBlockHeight =
      { s with mapTxLockVote := votes } ∧
        ∀ h, (s.mapTxLockVote.lookup h).isSome = true → (votes.lookup h).isSome = true := by
  have hsame : ∃ votes, s = { s with mapTxLockVote := votes } ∧
      ∀ h, (s.mapTxLockVote.lookup h).isSome = true → (votes.lookup h).isSome = true :=
    ⟨s.mapTxLockVote, rfl, fun _ h => h⟩
  unfold doConsensusVote
  cases env.activeMasternode with
  | none => exact hsame
  | some vin =>
    dsimp only
    split
    · exact hsame
    · split
      · exact hsame
      · cases env.sign _ with
        | none => exact hsame
        | some sig =>
          dsimp only
          split
          · exact hsame
          · refine ⟨_, rfl, fun h hh => ?_⟩
            rw [lookup_insert]
            split
            · rfl
            · exact hh

theorem conflicting_congr (h : s'.mapLockedInputs = s.mapLockedInputs) (tx : CTransaction) :
    s'.conflicting tx = s.conflicting tx := by
  unfold conflicting lockedByOther
  rw [h]

theorem lookup_lockInputs (s : SwiftState) (vin : List CTxIn) (hash : Uint256) (o : COutPoint) :
    (s.lockInputs vin hash).mapLockedInputs.lookup o =
      if o ∈ vin.map CTxIn.prevout then some ((s.mapLockedInputs.lookup o).getD hash)
      else s.mapLockedInputs.lookup o :=
  lookup_foldl_insertNew _ _ _ _

theorem lockInputs_eq_some (s : SwiftState) (vin : List CTxIn) (hash : Uint256) (o : COutPoint)
    (t : Uint256) : (s.lockInputs vin hash).mapLockedInputs.lookup o = some t ↔
      s.mapLockedInputs.lookup o = some t ∨
        s.mapLockedInputs.lookup o = none ∧ o ∈ vin.map CTxIn.prevout ∧ t = hash := by
  rw [lookup_lockInputs]
  by_cases hin : o ∈ vin.map CTxIn.prevout
  · rw [if_pos hin]
    cases s.mapLockedInputs.lookup o with
    | none => simp [hin, eq_comm]
    | some hash => simp
  · rw [if_neg hin]
    simp [hin]

theorem conflicting_lockInputs (s : SwiftState) (tx : CTransaction) :
    (s.lockInputs tx.vin tx.hash).conflicting tx = s.conflicting tx := by
  refine List.any_congr rfl fun txin => ?_
  unfold lockedByOther
  rw [lookup_lockInputs]
  by_cases hin : txin.prevout ∈ tx.vin.map CTxIn.prevout
  · rw [if_pos hin]
    cases s.mapLockedInputs.lookup txin.prevout with
    | none => simp
    | some hash => rfl
  · rw [if_neg hin]

/-! ## The handlers -/

theorem complete_eq (s : SwiftState) (t : Uint256) :
    s.complete t = (s.mapTxLocks.lookup t).any fun lock =>
      decide (SWIFTTX_SIGNATURES_REQUIRED ≤ lock.countSignatures) := by
  unfold complete candidate
  cases s.mapTxLocks.lookup t <;> rfl

/-- A rejected request: its inputs are locked, and it is stored if its candidate has its votes. -/
theorem rejectRequest_eq (s : SwiftState) (env : SwiftEnv) (tx : CTransaction) :
    ∃ locks, s.rejectRequest env tx =
      { s.lockInputs tx.vin tx.hash with
        mapTxLocks := locks
        mapTxLockReqRejected := insertNew s.mapTxLockReqRejected tx.hash tx
        mapTxLockReq := if s.complete tx.hash = true ∧ s.conflicting tx = false then
          insertNew s.mapTxLockReq tx.hash tx else s.mapTxLockReq } ∧
      ∀ t, (s.rejectRequest env tx).candidate t = s.candidate t := by
  unfold rejectRequest
  dsimp only
  set s1 : SwiftState := lockInputs
    { s with mapTxLockReqRejected := insertNew s.mapTxLockReqRejected tx.hash tx } tx.vin tx.hash
    with hs1
  have hlocks : s1.mapTxLocks = s.mapTxLocks := rfl
  have hconf : s1.conflicting tx = s.conflicting tx :=
    (conflicting_congr (by rfl) tx).trans (conflicting_lockInputs s tx)
  rw [hlocks, complete_eq]
  cases h : s.mapTxLocks.lookup tx.hash with
  | none => exact ⟨s.mapTxLocks, by simp [hs1, lockInputs], fun _ => rfl⟩
  | some lock =>
    dsimp only [Option.any_some]
    by_cases hc : lock.countSignatures ≥ SWIFTTX_SIGNATURES_REQUIRED
    · obtain ⟨locks, h1, h2⟩ := checkForConflictingLocks_eq s1 env.nTime tx
      rw [if_pos hc, h1, hconf]
      cases hb : s.conflicting tx with
      | true => exact ⟨locks, by simp [hs1, lockInputs], h2⟩
      | false => exact ⟨locks, by simp [hs1, lockInputs, hc], h2⟩
    · rw [if_neg hc]
      exact ⟨s.mapTxLocks, by simp [hs1, lockInputs, hc], fun _ => rfl⟩

/-- A candidate that has its votes: the request is stored in any case, and locked if it may be. -/
theorem completeLock_eq (s : SwiftState) (env : SwiftEnv) (ctx : CConsensusVote) :
    ∃ locks inputs, s.completeLock env ctx =
      { s with
        mapTxLocks := locks
        mapTxLockReq := insertNew s.mapTxLockReq ctx.txHash CTransaction.default
        mapLockedInputs := inputs } ∧
      (∀ t, (s.completeLock env ctx).candidate t = s.candidate t) ∧
      ∀ o t, inputs.lookup o = some t ↔ s.mapLockedInputs.lookup o = some t ∨
        s.mapLockedInputs.lookup o = none ∧ t = ctx.txHash ∧
          ∃ tx, s.mapTxLockReq.lookup t = some tx ∧ o ∈ tx.prevouts ∧ s.conflicting tx = false := by
  set tx := (s.mapTxLockReq.lookup ctx.txHash).getD CTransaction.default with htx
  set s1 : SwiftState := { s with mapTxLockReq := insertNew s.mapTxLockReq ctx.txHash tx } with hs1
  have hreq : insertNew s.mapTxLockReq ctx.txHash tx =
      insertNew s.mapTxLockReq ctx.txHash CTransaction.default := by
    unfold insertNew
    cases h : s.mapTxLockReq.lookup ctx.txHash with
    | none => rw [htx, h]; rfl
    | some _ => rfl
  have hfound : (s1.mapTxLockReq.lookup ctx.txHash).isSome = true := by
    rw [hs1, lookup_insertNew, if_pos rfl]
    rfl
  have hconf : s1.conflicting tx = s.conflicting tx := conflicting_congr rfl tx
  -- the default transaction spends nothing, so it is no matter whether there was a request
  have hstored : ∀ o, (∃ tx', s.mapTxLockReq.lookup ctx.txHash = some tx' ∧ o ∈ tx'.prevouts ∧
      s.conflicting tx' = false) ↔ o ∈ tx.prevouts ∧ s.conflicting tx = false := by
    intro o
    rw [htx]
    cases s.mapTxLockReq.lookup ctx.txHash with
    | none => simp [CTransaction.prevouts, CTransaction.default]
    | some tx' => simp
  obtain ⟨locks, h1, h2⟩ := checkForConflictingLocks_eq s1 env.nTime tx
  unfold completeLock
  dsimp only
  rw [← htx, ← hs1, h1, hconf]
  cases hb : s.conflicting tx with
  | true =>
    refine ⟨locks, s.mapLockedInputs, by simp [hs1, hreq], h2, fun o t => ?_⟩
    constructor
    · exact Or.inl
    · intro h
      rcases h with h | ⟨_, rfl, h⟩
      · exact h
      · simp [(hstored o).mp h] at hb
  | false =>
    dsimp only
    rw [if_pos hfound]
    refine ⟨locks, (s.lockInputs tx.vin ctx.txHash).mapLockedInputs,
      by simp [hs1, hreq, lockInputs], h2, fun o t => ?_⟩
    rw [lockInputs_eq_some]
    constructor
    · intro h
      rcases h with h | ⟨h, hin, rfl⟩
      · exact Or.inl h
      · exact Or.inr ⟨h, rfl, (hstored o).mpr ⟨hin, hb⟩⟩
    · intro h
      rcases h with h | ⟨h, rfl, hin⟩
      · exact Or.inl h
      · exact Or.inr ⟨h, ((hstored o).mp hin).1, rfl⟩

theorem trackUnknownVote_eq (s : SwiftState) (env : SwiftEnv) (ctx : CConsensusVote) :
    ∃ votes, (s.trackUnknownVote env ctx).1 = { s with mapUnknownVotes := votes } := by
  unfold trackUnknownVote
  split
  · exact ⟨s.mapUnknownVotes, rfl⟩
  · dsimp only
    split
    · exact ⟨_, rfl⟩
    · exact ⟨_, rfl⟩

/-! ## One message -/

/-- What a message does to the maps, key by key. -/
structure Delivered (s : SwiftState) (d : Delivery) (s' : SwiftState) : Prop where
  locked : ∀ o t, s'.mapLockedInputs.lookup o = some t ↔
    s.mapLockedInputs.lookup o = some t ∨ s.mapLockedInputs.lookup o = none ∧ s.locks d o t
  request : ∀ t tx, s'.mapTxLockReq.lookup t = some tx ↔
    s.mapTxLockReq.lookup t = some tx ∨ s.mapTxLockReq.lookup t = none ∧ s.stores d t tx
  seen : ∀ t, s'.requestSeen t = true ↔ s.requestSeen t = true ∨ s.notes d t
  candidate : ∀ t, s'.candidate t = s.candidateAfter d t
  vote : ∀ h, (s.mapTxLockVote.lookup h).isSome = true → (s'.mapTxLockVote.lookup h).isSome = true

/-- A message that is ignored. -/
theorem Delivered.same
    (h : ∃ votes unknown, s' = { s with mapTxLockVote := votes, mapUnknownVotes := unknown } ∧
      ∀ h, (s.mapTxLockVote.lookup h).isSome = true → (votes.lookup h).isSome = true)
    (hlocks : ∀ o t, ¬ s.locks d o t) (hstores : ∀ t tx, ¬ s.stores d t tx)
    (hnotes : ∀ t, ¬ s.notes d t) (hcandidate : ∀ t, s.candidateAfter d t = s.candidate t) :
    Delivered s d s' := by
  obtain ⟨votes, unknown, rfl, hv⟩ := h
  refine ⟨fun o t => ?_, fun t tx => ?_, fun t => ?_, fun t => (hcandidate t).symm, hv⟩
  · simp [hlocks]
  · simp [hstores]
  · simp only [hnotes, or_false]
    rfl

theorem acceptToMemoryPool_congr (h : s'.mapLockedInputs = s.mapLockedInputs) (env : SwiftEnv)
    (tx : CTransaction) : s'.acceptToMemoryPool env tx = s.acceptToMemoryPool env tx := by
  unfold acceptToMemoryPool lockedByOther
  rw [h]

theorem deliver_ix (s : SwiftState) (env : SwiftEnv) (tx : CTransaction) : s.deliver ⟨env, .ix tx⟩ =
      if s.newRequest env tx then
        if s.acceptToMemoryPool env tx then
          (s.createNewLock env tx).1.acceptRequest env tx (s.createNewLock env tx).2
        else (s.createNewLock env tx).1.rejectRequest env tx
      else s := by
  obtain ⟨locks, h, -⟩ := createNewLock_eq s env tx
  have hpool : (s.createNewLock env tx).1.acceptToMemoryPool env tx =
      s.acceptToMemoryPool env tx := acceptToMemoryPool_congr (by rw [h]) env tx
  have hun : s.deliver ⟨env, .ix tx⟩ =
      if env.fActive then
        if s.requestSeen tx.hash then s
        else if !requestValid env tx then s
        else if (s.createNewLock env tx).1.acceptToMemoryPool env tx then
          (s.createNewLock env tx).1.acceptRequest env tx (s.createNewLock env tx).2
        else (s.createNewLock env tx).1.rejectRequest env tx
      else s := rfl
  rw [hun, hpool, newRequest]
  cases env.fActive <;> cases s.requestSeen tx.hash <;> cases requestValid env tx <;> simp

theorem requestSeen_iff (s : SwiftState) (t : Uint256) : s.requestSeen t = true ↔
    (s.mapTxLockReq.lookup t).isSome = true ∨ (s.mapTxLockReqRejected.lookup t).isSome = true := by
  rw [requestSeen, Bool.or_eq_true]

theorem delivered_accept (hnew : s.newRequest env tx = true)
    (hpool : s.acceptToMemoryPool env tx = true) :
    Delivered s ⟨env, .ix tx⟩ (s.deliver ⟨env, .ix tx⟩) := by
  obtain ⟨locks, h, hc⟩ := createNewLock_eq s env tx
  rw [deliver_ix, if_pos hnew, if_pos hpool]
  set s1 := (s.createNewLock env tx).1
  obtain ⟨votes, h1, hv⟩ := doConsensusVote_eq s1 env tx (s.createNewLock env tx).2
  have h2 : s1.acceptRequest env tx (s.createNewLock env tx).2 =
      { s with
        mapTxLocks := locks
        mapTxLockVote := votes
        mapTxLockReq := insertNew s.mapTxLockReq tx.hash tx } := by
    unfold acceptRequest
    rw [h1, h]
  have hvotes : s1.mapTxLockVote = s.mapTxLockVote := by rw [h]
  have hnorej : s.rejects env tx = false := by simp [rejects, hpool]
  rw [h2]
  refine ⟨fun o t => ?_, fun t tx' => ?_, fun t => ?_, fun t => ?_, fun hash hh => ?_⟩
  · simp [SwiftState.locks, hnorej]
  · simp only [insertNew_eq_some, stores, hnew, hpool, true_or, and_true, true_and]
  · simp only [requestSeen_iff, isSome_insertNew, notes, hnew, true_and]
    rw [or_right_comm]
  · have ht := hc t
    rw [h] at ht
    simp only [candidateAfter, hnew, true_and]
    exact ht
  · exact hv hash (by rw [hvotes]; exact hh)

theorem delivered_reject (hnew : s.newRequest env tx = true)
    (hpool : s.acceptToMemoryPool env tx = false) :
    Delivered s ⟨env, .ix tx⟩ (s.deliver ⟨env, .ix tx⟩) := by
  obtain ⟨locks, h, hc⟩ := createNewLock_eq s env tx
  have hp : ¬ s.acceptToMemoryPool env tx = true := by simp [hpool]
  have hrej : s.rejects env tx = true := by simp [rejects, hnew, hpool]
  rw [deliver_ix, if_pos hnew, if_neg hp]
  set s1 := (s.createNewLock env tx).1
  obtain ⟨locks', h1, hc1⟩ := rejectRequest_eq s1 env tx
  have hlock : (s1.lockInputs tx.vin tx.hash).mapLockedInputs =
      (s.lockInputs tx.vin tx.hash).mapLockedInputs := by rw [h]; rfl
  have hconf : s1.conflicting tx = s.conflicting tx := conflicting_congr (by rw [h]) tx
  have hcomp : s1.complete tx.hash = s.rejectsComplete env tx := by
    rw [complete, hc, if_pos rfl, rejectsComplete, hrej, Bool.true_and]
  have hreq : s1.mapTxLockReq = s.mapTxLockReq := by rw [h]
  have hrejd : s1.mapTxLockReqRejected = s.mapTxLockReqRejected := by rw [h]
  rw [hcomp, hconf, hreq, hrejd] at h1
  refine ⟨fun o t => ?_, fun t tx' => ?_, fun t => ?_, fun t => ?_, fun hash hh => ?_⟩
  · rw [h1]
    simp only [hlock, lockInputs_eq_some, SwiftState.locks, hrej, true_and]
    rfl
  · rw [h1]
    simp only [stores, hnew, hpool, true_and, Bool.false_eq_true, false_or]
    split
    · rename_i hst
      simp only [insertNew_eq_some, hst.1, hst.2, and_self, and_true]
    · rename_i hst
      simp only [hst, and_false, or_false]
  · rw [h1]
    simp only [requestSeen_iff, notes, hnew, true_and, isSome_insertNew]
    split
    · rw [isSome_insertNew, or_or_or_comm, or_self]
    · rw [or_assoc]
  · rw [hc1, hc]
    simp only [candidateAfter, hnew, true_and]
  · rw [h1]
    have hvotes : (s1.lockInputs tx.vin tx.hash).mapTxLockVote = s.mapTxLockVote := by rw [h]; rfl
    rw [hvotes]
    exact hh

theorem delivered_ix_ignored (hnew : s.newRequest env tx = false) :
    Delivered s ⟨env, .ix tx⟩ (s.deliver ⟨env, .ix tx⟩) := by
  have hn : ¬ s.newRequest env tx = true := by simp [hnew]
  rw [deliver_ix, if_neg hn]
  refine Delivered.same ⟨s.mapTxLockVote, s.mapUnknownVotes, rfl, fun _ h => h⟩ ?_ ?_ ?_ ?_
  · intro o t
    simp [SwiftState.locks, rejects, hnew]
  · intro t tx'
    simp [stores, hnew]
  · intro t
    simp [notes, hnew]
  · intro t
    simp [candidateAfter, hnew]

theorem deliver_txlvote (s : SwiftState) (env : SwiftEnv) (ctx : CConsensusVote) :
    s.deliver ⟨env, .txlvote ctx⟩ =
      if env.fActive && (s.mapTxLockVote.lookup ctx.getHash).isNone then
        let votes := s.mapTxLockVote.insert ctx.getHash ctx
        if voteValid env ctx then
          let lock := s.withVote env ctx
          let s1 : SwiftState :=
            { s with mapTxLockVote := votes, mapTxLocks := s.mapTxLocks.insert ctx.txHash lock }
          let s2 :=
            if SWIFTTX_SIGNATURES_REQUIRED ≤ lock.countSignatures then s1.completeLock env ctx
            else s1
          (s2.trackUnknownVote env ctx).1
        else { s with mapTxLockVote := votes }
      else s := by
  have hun : s.deliver ⟨env, .txlvote ctx⟩ =
      if env.fActive then (s.processVote env ctx).1 else s := rfl
  rw [hun]
  cases env.fActive with
  | false => rfl
  | true =>
    simp only [if_true, Bool.true_and, processVote, Option.isNone_iff_eq_none]
    cases h : s.mapTxLockVote.lookup ctx.getHash with
    | some _ => rfl
    | none =>
      simp only [Option.isSome_none, Bool.false_eq_true, if_false, if_true, processConsensusVote]
      set s1 : SwiftState := { s with mapTxLockVote := s.mapTxLockVote.insert ctx.getHash ctx }
      have hw : s1.withVote env ctx = s.withVote env ctx := rfl
      rw [hw]
      cases voteValid env ctx with
      | false => rfl
      | true =>
        by_cases hc : SWIFTTX_SIGNATURES_REQUIRED ≤ (s.withVote env ctx).countSignatures
        · simp only [Bool.not_true, Bool.false_eq_true, if_false, if_true, ge_iff_le, hc]
        · simp only [Bool.not_true, Bool.false_eq_true, if_false, if_true, ge_iff_le, hc]

theorem delivered_vote_ignored (hnew : s.newVote env ctx = false) :
    Delivered s ⟨env, .txlvote ctx⟩ (s.deliver ⟨env, .txlvote ctx⟩) := by
  refine Delivered.same ?_ ?_ ?_ ?_ ?_
  · rw [deliver_txlvote]
    split
    · rename_i hg
      have hv : ¬ voteValid env ctx = true := by
        rw [newVote, hg, Bool.true_and] at hnew
        simp [hnew]
      dsimp only
      rw [if_neg hv]
      refine ⟨_, s.mapUnknownVotes, rfl, fun hash hh => ?_⟩
      rw [lookup_insert]
      split
      · rfl
      · exact hh
    · exact ⟨s.mapTxLockVote, s.mapUnknownVotes, rfl, fun _ h => h⟩
  · intro o t
    simp [SwiftState.locks, completes, hnew]
  · intro t tx'
    simp [stores, completes, hnew]
  · intro t
    simp [notes, completes, hnew]
  · intro t
    simp [candidateAfter, hnew]

theorem delivered_vote (hnew : s.newVote env ctx = true) :
    Delivered s ⟨env, .txlvote ctx⟩ (s.deliver ⟨env, .txlvote ctx⟩) := by
  have hg : (env.fActive && (s.mapTxLockVote.lookup ctx.getHash).isNone) = true ∧
      voteValid env ctx = true := by
    rw [newVote, Bool.and_eq_true] at hnew
    exact hnew
  have hvote : ∀ hash, (s.mapTxLockVote.lookup hash).isSome = true →
      ((s.mapTxLockVote.insert ctx.getHash ctx).lookup hash).isSome = true := by
    intro hash hh
    rw [lookup_insert]
    split
    · rfl
    · exact hh
  rw [deliver_txlvote, if_pos hg.1]
  dsimp only
  rw [if_pos hg.2]
  set s1 : SwiftState := { s with
    mapTxLockVote := s.mapTxLockVote.insert ctx.getHash ctx
    mapTxLocks := s.mapTxLocks.insert ctx.txHash (s.withVote env ctx) }
  have hcand : ∀ t, s1.candidate t = s.candidateAfter ⟨env, .txlvote ctx⟩ t := by
    intro t
    simp only [candidateAfter, hnew, true_and]
    exact candidate_insert s _ _ _
  by_cases hc : SWIFTTX_SIGNATURES_REQUIRED ≤ (s.withVote env ctx).countSignatures
  · have hcomp : s.completes env ctx = true := by simp [completes, hnew, hc]
    obtain ⟨locks, inputs, h1, hc1, hin⟩ := completeLock_eq s1 env ctx
    obtain ⟨unknown, h2⟩ := trackUnknownVote_eq (s1.completeLock env ctx) env ctx
    rw [if_pos hc, h2]
    refine ⟨fun o t => ?_, fun t tx' => ?_, fun t => ?_, fun t => ?_, fun hash hh => ?_⟩
    · have hlock : (s1.completeLock env ctx).mapLockedInputs = inputs := by rw [h1]
      have hconf : ∀ tx, s1.conflicting tx = s.conflicting tx := conflicting_congr rfl
      simp only [hlock, hin, SwiftState.locks, hcomp, true_and, hconf]
      rfl
    · rw [h1]
      simp only [insertNew_eq_some, stores, hcomp, true_and]
      rfl
    · rw [h1]
      simp only [requestSeen_iff, isSome_insertNew, notes, hcomp, true_and]
      exact or_right_comm
    · exact (hc1 t).trans (hcand t)
    · rw [h1]
      exact hvote hash hh
  · have hcomp : s.completes env ctx = false := by simp [completes, hc]
    obtain ⟨unknown, h2⟩ := trackUnknownVote_eq s1 env ctx
    rw [if_neg hc, h2]
    refine ⟨fun o t => ?_, fun t tx' => ?_, fun t => ?_, hcand, hvote⟩
    · simp [SwiftState.locks, hcomp, s1]
    · simp [stores, hcomp, s1]
    · simp only [requestSeen_iff, notes, hcomp, Bool.false_eq_true, false_and, or_false]
      rfl

/-- **What a message does to the maps.** -/
theorem delivered (s : SwiftState) (d : Delivery) : Delivered s d (s.deliver d) := by
  obtain ⟨env, message⟩ := d
  cases message with
  | ix tx =>
    cases hnew : s.newRequest env tx with
    | false => exact delivered_ix_ignored hnew
    | true =>
      cases hpool : s.acceptToMemoryPool env tx with
      | false => exact delivered_reject hnew hpool
      | true => exact delivered_accept hnew hpool
  | txlvote ctx =>
    cases hnew : s.newVote env ctx with
    | false => exact delivered_vote_ignored hnew
    | true => exact delivered_vote hnew

theorem notes_of_locks {o : COutPoint} (h : s.locks d o t) : s.notes d t := by
  obtain ⟨env, message⟩ := d
  cases message with
  | ix tx =>
    obtain ⟨hrej, -, rfl⟩ := h
    exact ⟨(rejects_iff.mp hrej).1, rfl⟩
  | txlvote ctx => exact ⟨h.1, h.2.1⟩

/-! ## Votes -/

theorem timeless_withVote (s : SwiftState) (env : SwiftEnv) (ctx : CConsensusVote) :
    (s.withVote env ctx).timeless.vecConsensusVotes = s.votes ctx.txHash ++ [ctx] := by
  unfold withVote votes
  cases s.mapTxLocks.lookup ctx.txHash <;> rfl

theorem requestCandidate_votes (s : SwiftState) (env : SwiftEnv) (tx : CTransaction) :
    (s.requestCandidate env tx).elim [] CTransactionLock.vecConsensusVotes = s.votes tx.hash := by
  rw [votes_eq]
  unfold requestCandidate
  cases inputAges env 0 tx.vin.reverse with
  | none => rfl
  | some nTxAge => cases s.candidate tx.hash <;> rfl

theorem votes_deliver_ix (s : SwiftState) (env : SwiftEnv) (tx : CTransaction) (t : Uint256) :
    (s.deliver ⟨env, .ix tx⟩).votes t = s.votes t := by
  rw [votes_eq, (delivered s ⟨env, .ix tx⟩).candidate, candidateAfter, votes_eq]
  dsimp only
  split
  · rename_i h
    rw [requestCandidate_votes, h.2, votes_eq]
  · rfl

theorem votes_deliver_txlvote (s : SwiftState) (env : SwiftEnv) (ctx : CConsensusVote)
    (t : Uint256) : (s.deliver ⟨env, .txlvote ctx⟩).votes t =
      if s.newVote env ctx = true ∧ t = ctx.txHash then s.votes t ++ [ctx] else s.votes t := by
  rw [votes_eq, (delivered s ⟨env, .txlvote ctx⟩).candidate, candidateAfter]
  dsimp only
  split
  · rename_i h
    rw [h.2]
    exact timeless_withVote s env ctx
  · exact (votes_eq s t).symm

theorem completeLock_mapTxLockVote (s : SwiftState) (env : SwiftEnv) (ctx : CConsensusVote) :
    (s.completeLock env ctx).mapTxLockVote = s.mapTxLockVote := by
  obtain ⟨locks, inputs, h, -⟩ := completeLock_eq s env ctx
  rw [h]

theorem trackUnknownVote_mapTxLockVote (s : SwiftState) (env : SwiftEnv) (ctx : CConsensusVote) :
    (s.trackUnknownVote env ctx).1.mapTxLockVote = s.mapTxLockVote := by
  obtain ⟨unknown, h⟩ := trackUnknownVote_eq s env ctx
  rw [h]

theorem recorded_deliver_txlvote (s : SwiftState) (env : SwiftEnv) (ctx : CConsensusVote)
    (hash : Uint256) : ((s.deliver ⟨env, .txlvote ctx⟩).mapTxLockVote.lookup hash).isSome = true ↔
      (s.mapTxLockVote.lookup hash).isSome = true ∨ env.fActive = true ∧ hash = ctx.getHash := by
  have hinsert : ((s.mapTxLockVote.insert ctx.getHash ctx).lookup hash).isSome = true ↔
      (s.mapTxLockVote.lookup hash).isSome = true ∨ hash = ctx.getHash := by
    rw [lookup_insert]
    split <;> simp_all
  rw [deliver_txlvote]
  split
  · rename_i hg
    rw [Bool.and_eq_true] at hg
    simp only [hg.1, true_and]
    split
    · rw [trackUnknownVote_mapTxLockVote]
      split
      · rw [completeLock_mapTxLockVote]
        exact hinsert
      · exact hinsert
    · exact hinsert
  · rename_i hg
    constructor
    · exact Or.inl
    · intro h
      rcases h with h | ⟨hf, rfl⟩
      · exact h
      · rw [hf, Bool.true_and] at hg
        exact Option.ne_none_iff_isSome.mp (by simpa using hg)

end SwiftState

end BitBlocks
