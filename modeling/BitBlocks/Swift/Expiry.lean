import BitBlocks.Swift.Consensus

/-!
# The release of locks

`CleanTransactionLocksList` goes through the expired candidates, and releases what the
request stored for one of them spends. So a lock is released in time if the request it was
made for is stored (and its candidate is there to expire), and it is released too early
if another stored request spends the same outpoint.
-/

namespace BitBlocks

open Table

namespace SwiftState

/-! ## The cleaning loop -/

def Expired (s : SwiftState) (nTime : Int) (t : Uint256) : Prop :=
  ∃ lock, s.mapTxLocks.lookup t = some lock ∧ nTime > lock.nExpiration

/-- What is left of the maps when the candidates of a list are cleaned up. -/
structure Cleaned (s : SwiftState) (expired : Uint256 → Prop) (s' : SwiftState) : Prop where
  locks : ∀ t lock, s'.mapTxLocks.lookup t = some lock ↔
    s.mapTxLocks.lookup t = some lock ∧ ¬ expired t
  request : ∀ t tx, s'.mapTxLockReq.lookup t = some tx ↔
    s.mapTxLockReq.lookup t = some tx ∧ ¬ expired t
  inputs : ∀ o t, s'.mapLockedInputs.lookup o = some t ↔ s.mapLockedInputs.lookup o = some t ∧
    ∀ t' tx, expired t' → s.mapTxLockReq.lookup t' = some tx → o ∉ tx.prevouts

theorem cleaned_none (s : SwiftState) : Cleaned s (fun _ => False) s := ⟨by simp, by simp, by simp⟩

theorem Cleaned.trans {s s1 s2 : SwiftState} {p q : Uint256 → Prop} (h1 : Cleaned s p s1)
    (h2 : Cleaned s1 q s2) : Cleaned s (fun t => p t ∨ q t) s2 := by
  refine ⟨fun t lock => ?_, fun t tx => ?_, fun o t => ?_⟩
  · rw [h2.locks, h1.locks, not_or, and_assoc]
  · rw [h2.request, h1.request, not_or, and_assoc]
  · rw [h2.inputs, h1.inputs]
    constructor
    · intro ⟨⟨ho, hp⟩, hq⟩
      refine ⟨ho, fun t' tx hex htx => ?_⟩
      by_cases hpt : p t'
      · exact hp t' tx hpt htx
      · exact hq t' tx (hex.resolve_left hpt) ((h1.request t' tx).mpr ⟨htx, hpt⟩)
    · intro ⟨ho, h⟩
      exact ⟨⟨ho, fun t' tx hp htx => h t' tx (Or.inl hp) htx⟩,
        fun t' tx hq htx => h t' tx (Or.inr hq) ((h1.request t' tx).mp htx).1⟩

theorem cleaned_cleanLock (nTime : Int) (s : SwiftState)
    (x : Sigma fun _ : Uint256 => CTransactionLock) (hx : x.2.txHash = x.1) :
    Cleaned s (fun t => t = x.1 ∧ nTime > x.2.nExpiration) (cleanLock nTime s x) := by
  unfold cleanLock
  rw [hx]
  by_cases he : nTime > x.2.nExpiration
  · rw [if_pos he]
    cases hreq : s.mapTxLockReq.lookup x.1 with
    | none =>
      refine ⟨fun t lock => ?_, fun t tx => ?_, fun o t => ?_⟩
      · simp [erase_eq_some, he]
      · by_cases ht : t = x.1
        · rw [ht, hreq]; simp
        · simp [ht]
      · refine ⟨fun ho => ⟨ho, ?_⟩, fun h => h.1⟩
        intro t' tx ht htx
        rw [ht.1, hreq] at htx
        simp at htx
    | some tx =>
      refine ⟨fun t lock => ?_, fun t tx => ?_, fun o t => ?_⟩
      · simp [erase_eq_some, he]
      · simp [erase_eq_some, he]
      · dsimp only
        rw [foldl_erase_eq_some]
        refine and_congr_right fun _ => ⟨fun h t' tx' ht htx => ?_, fun h => ?_⟩
        · rw [ht.1, hreq] at htx
          rw [← Option.some.inj htx]
          exact h
        · exact h x.1 tx ⟨rfl, he⟩ hreq
  · rw [if_neg he]
    simpa [he] using cleaned_none s

theorem cleaned_foldl (nTime : Int) (l : List (Sigma fun _ : Uint256 => CTransactionLock))
    (hkey : ∀ x ∈ l, x.2.txHash = x.1) (s : SwiftState) :
    Cleaned s (fun t => ∃ x ∈ l, t = x.1 ∧ nTime > x.2.nExpiration)
      (l.foldl (cleanLock nTime) s) := by
  induction l generalizing s with
  | nil => simpa using cleaned_none s
  | cons x l ih =>
    have h1 := cleaned_cleanLock nTime s x (hkey x List.mem_cons_self)
    have h2 := ih (fun y hy => hkey y (List.mem_cons_of_mem _ hy)) (cleanLock nTime s x)
    simpa [List.exists_mem_cons_iff] using h1.trans h2

/-- **The cleaning** takes the expired candidates, their requests and what those spend. -/
theorem cleaned (s : SwiftState) (nTime : Int)
    (hkey : ∀ t lock, s.mapTxLocks.lookup t = some lock → lock.txHash = t) :
    Cleaned s (s.Expired nTime) (s.cleanTransactionLocksList true nTime) := by
  have hmem : ∀ x : Sigma fun _ : Uint256 => CTransactionLock,
      x ∈ s.mapTxLocks.entries ↔ s.mapTxLocks.lookup x.1 = some x.2 := fun x =>
    (AList.mem_lookup_iff (s := s.mapTxLocks)).symm
  have h := cleaned_foldl nTime s.mapTxLocks.entries (fun x hx => hkey _ _ ((hmem x).mp hx)) s
  have hexp : s.Expired nTime = fun t =>
      ∃ x ∈ s.mapTxLocks.entries, t = x.1 ∧ nTime > x.2.nExpiration := by
    funext t
    apply propext
    constructor
    · intro ⟨lock, hl, he⟩
      exact ⟨⟨t, lock⟩, (hmem _).mpr hl, rfl, he⟩
    · intro ⟨x, hx, ht, he⟩
      exact ⟨x.2, ht ▸ (hmem x).mp hx, he⟩
  rw [hexp]
  exact h

end SwiftState

/-! ## Runs -/

/-- A message, or a cleaning: whether there is a chain tip, and the time. -/
inductive SwiftStep where
  | deliver (d : Delivery)
  | clean (fTip : Bool) (nTime : Int)

namespace SwiftState

def step (s : SwiftState) : SwiftStep → SwiftState
  | .deliver d => s.deliver d
  | .clean fTip nTime => s.cleanTransactionLocksList fTip nTime

def afterSteps (past : List SwiftStep) : SwiftState := past.foldl step {}

theorem afterSteps_concat (past : List SwiftStep) (x : SwiftStep) :
    afterSteps (past ++ [x]) = (afterSteps past).step x := by
  rw [afterSteps, List.foldl_append]; rfl

/-- A cleaning of `s` releases what has expired, and nothing else. -/
structure Releases (s : SwiftState) (fTip : Bool) (nTime : Int) : Prop where
  released : ∀ o t, (s.cleanTransactionLocksList fTip nTime).mapLockedInputs.lookup o = some t →
    ∃ lock, (s.cleanTransactionLocksList fTip nTime).mapTxLocks.lookup t = some lock ∧
      ¬ nTime > lock.nExpiration
  kept : ∀ o t lock, s.mapLockedInputs.lookup o = some t → s.mapTxLocks.lookup t = some lock →
    ¬ nTime > lock.nExpiration →
    (s.cleanTransactionLocksList fTip nTime).mapLockedInputs.lookup o = some t

/-- No stored request but that of `t` spends what `tx` would lock. -/
def SpentByNoOther (s : SwiftState) (tx : CTransaction) (t : Uint256) : Prop :=
  ∀ o ∈ tx.prevouts, s.mapLockedInputs.lookup o = none →
    ∀ x ∈ s.mapTxLockReq.entries, o ∈ x.2.prevouts → x.1 = t

/-- The request is rejected while it would lock something, and so it is stored. -/
def StoredIfLocking (s : SwiftState) (env : SwiftEnv) (tx : CTransaction) : Prop :=
  (∃ o ∈ tx.prevouts, s.mapLockedInputs.lookup o = none) →
    s.rejectsComplete env tx = true ∧ s.conflicting tx = false

/-- What a step has to meet for locks to be released in time, and not before. -/
def LocksReleasably (s : SwiftState) : SwiftStep → Prop
  | .deliver ⟨env, .ix tx⟩ => s.rejects env tx = true →
      s.StoredIfLocking env tx ∧ s.SpentByNoOther tx tx.hash
  | .deliver ⟨env, .txlvote ctx⟩ => s.completes env ctx = true →
      ∀ tx ∈ s.mapTxLockReq.lookup ctx.txHash, s.conflicting tx = false →
        s.SpentByNoOther tx ctx.txHash
  | .clean fTip _ => fTip = true ∨ s.mapLockedInputs.entries = []

instance (s : SwiftState) (tx : CTransaction) (t : Uint256) : Decidable (s.SpentByNoOther tx t) :=
  inferInstanceAs (Decidable (∀ o ∈ tx.prevouts, s.mapLockedInputs.lookup o = none →
    ∀ x ∈ s.mapTxLockReq.entries, o ∈ x.2.prevouts → x.1 = t))

instance (s : SwiftState) (env : SwiftEnv) (tx : CTransaction) :
    Decidable (s.StoredIfLocking env tx) :=
  inferInstanceAs (Decidable ((∃ o ∈ tx.prevouts, s.mapLockedInputs.lookup o = none) →
    s.rejectsComplete env tx = true ∧ s.conflicting tx = false))

instance (s : SwiftState) : (x : SwiftStep) → Decidable (s.LocksReleasably x)
  | .deliver ⟨env, .ix tx⟩ => inferInstanceAs (Decidable (s.rejects env tx = true →
      s.StoredIfLocking env tx ∧ s.SpentByNoOther tx tx.hash))
  | .deliver ⟨env, .txlvote ctx⟩ => inferInstanceAs (Decidable (s.completes env ctx = true →
      ∀ tx ∈ s.mapTxLockReq.lookup ctx.txHash, s.conflicting tx = false →
        s.SpentByNoOther tx ctx.txHash))
  | .clean fTip _ => inferInstanceAs (Decidable (fTip = true ∨ s.mapLockedInputs.entries = []))

/-- A lock is for a stored request with a candidate, and no other stored request spends it. -/
structure Releasable (s : SwiftState) : Prop where
  key : ∀ t lock, s.candidate t = some lock → lock.txHash = t
  stored : ∀ o t, s.mapLockedInputs.lookup o = some t →
    (s.candidate t).isSome = true ∧ ∃ tx, s.mapTxLockReq.lookup t = some tx ∧ o ∈ tx.prevouts
  alone : ∀ o t t' tx, s.mapLockedInputs.lookup o = some t → s.mapTxLockReq.lookup t' = some tx →
    o ∈ tx.prevouts → t' = t

theorem releasable_init : Releasable {} where
  key t lock h := by simp [candidate] at h
  stored o t h := by simp at h
  alone o t t' tx h := by simp at h

variable {s : SwiftState} {t t' : Uint256} {tx : CTransaction} {o : COutPoint} {d : Delivery}

theorem Releasable.txHash_eq (h : Releasable s) (t : Uint256) (lock : CTransactionLock)
    (hl : s.mapTxLocks.lookup t = some lock) : lock.txHash = t :=
  h.key t lock.timeless (candidate_eq_some hl)

theorem Releasable.clean_inputs (h : Releasable s) {nTime : Int} (o : COutPoint) (t : Uint256) :
    (s.cleanTransactionLocksList true nTime).mapLockedInputs.lookup o = some t ↔
      s.mapLockedInputs.lookup o = some t ∧ ¬ s.Expired nTime t := by
  rw [(cleaned s nTime h.txHash_eq).inputs]
  refine and_congr_right fun ho => ⟨fun hno hex => ?_, fun hex t' tx hex' htx hin => ?_⟩
  · obtain ⟨-, tx, htx, hin⟩ := h.stored o t ho
    exact hno t tx hex htx hin
  · rw [h.alone o t t' tx ho htx hin] at hex'
    exact hex hex'

theorem Releasable.clean (h : Releasable s) (nTime : Int) :
    Releasable (s.cleanTransactionLocksList true nTime) := by
  have hc := cleaned s nTime h.txHash_eq
  refine ⟨fun t lock hl => ?_, fun o t ho => ?_, fun o t t' tx ho htx hin => ?_⟩
  · obtain ⟨lock', hl', rfl⟩ := exists_of_candidate hl
    exact h.txHash_eq t lock' ((hc.locks t lock').mp hl').1
  · obtain ⟨ho, hex⟩ := (h.clean_inputs o t).mp ho
    obtain ⟨hcand, tx, htx, hin⟩ := h.stored o t ho
    refine ⟨?_, tx, (hc.request t tx).mpr ⟨htx, hex⟩, hin⟩
    obtain ⟨c, hcand⟩ := Option.isSome_iff_exists.mp hcand
    obtain ⟨lock, hl, -⟩ := exists_of_candidate hcand
    rw [candidate_eq_some ((hc.locks t lock).mpr ⟨hl, hex⟩)]
    rfl
  · exact h.alone o t t' tx ((h.clean_inputs o t).mp ho).1 ((hc.request t' tx).mp htx).1 hin

/-- **A cleaning releases what has expired, and nothing else.** -/
theorem Releasable.releases (h : Releasable s) (nTime : Int) : s.Releases true nTime := by
  have hc := cleaned s nTime h.txHash_eq
  refine ⟨fun o t ho => ?_, fun o t lock ho hl hlate => ?_⟩
  · obtain ⟨ho, hex⟩ := (h.clean_inputs o t).mp ho
    obtain ⟨c, hcand⟩ := Option.isSome_iff_exists.mp (h.stored o t ho).1
    obtain ⟨lock, hl, -⟩ := exists_of_candidate hcand
    exact ⟨lock, (hc.locks t lock).mpr ⟨hl, hex⟩, fun hlate => hex ⟨lock, hl, hlate⟩⟩
  · refine (h.clean_inputs o t).mpr ⟨ho, fun ⟨lock', hl', hlate'⟩ => ?_⟩
    rw [hl] at hl'
    exact hlate (Option.some.inj hl' ▸ hlate')

/-! ## One message -/

theorem candidateAfter_key (h : ∀ t lock, s.candidate t = some lock → lock.txHash = t)
    (d : Delivery) (t : Uint256) (lock : CTransactionLock) (hl : s.candidateAfter d t = some lock) :
    lock.txHash = t := by
  obtain ⟨env, message⟩ := d
  unfold candidateAfter at hl
  cases message with
  | ix tx =>
    dsimp only at hl
    split at hl
    · rename_i hnew
      rw [hnew.2]
      unfold requestCandidate at hl
      split at hl
      · exact h _ _ hl
      · dsimp only at hl
        cases hc : s.candidate tx.hash with
        | none => rw [hc] at hl; rw [← Option.some.inj hl]
        | some lock' =>
          rw [hc] at hl
          rw [← Option.some.inj hl]
          exact h tx.hash lock' hc
    · exact h t lock hl
  | txlvote ctx =>
    dsimp only at hl
    split at hl
    · rename_i hnew
      rw [← Option.some.inj hl, hnew.2]
      have hkey := h ctx.txHash
      unfold withVote
      cases hc : s.mapTxLocks.lookup ctx.txHash with
      | none => rfl
      | some lock' => exact hkey lock'.timeless (candidate_eq_some hc)
    · exact h t lock hl

theorem candidateAfter_isSome (h : (s.candidate t).isSome = true) (d : Delivery) :
    (s.candidateAfter d t).isSome = true := by
  obtain ⟨c, hc⟩ := Option.isSome_iff_exists.mp h
  obtain ⟨env, message⟩ := d
  unfold candidateAfter
  cases message with
  | ix tx =>
    dsimp only
    split
    · rename_i hnew
      unfold requestCandidate
      split
      · rw [← hnew.2]; exact h
      · rw [← hnew.2, hc]; rfl
    · exact h
  | txlvote ctx =>
    dsimp only
    split
    · rfl
    · exact h

theorem SpentByNoOther.eq (h : s.SpentByNoOther tx t) (hin : o ∈ tx.prevouts)
    (ho : s.mapLockedInputs.lookup o = none) {tx' : CTransaction}
    (htx : s.mapTxLockReq.lookup t' = some tx') (hin' : o ∈ tx'.prevouts) : t' = t :=
  h o hin ho ⟨t', tx'⟩ (AList.mem_lookup_iff.mp htx) hin'

theorem LocksReleasably.alone (h : s.LocksReleasably (.deliver d)) (hl : s.locks d o t)
    (ho : s.mapLockedInputs.lookup o = none) (htx : s.mapTxLockReq.lookup t' = some tx)
    (hin : o ∈ tx.prevouts) : t' = t := by
  obtain ⟨env, message⟩ := d
  cases message with
  | ix tx' =>
    obtain ⟨hrej, hin', rfl⟩ := hl
    exact (h hrej).2.eq hin' ho htx hin
  | txlvote ctx =>
    obtain ⟨hcomp, rfl, tx', htx', hin', hconf⟩ := hl
    exact (h hcomp tx' htx' hconf).eq hin' ho htx hin

theorem LocksReleasably.stored (h : s.LocksReleasably (.deliver d)) (hl : s.locks d o t)
    (ho : s.mapLockedInputs.lookup o = none) :
    ((s.deliver d).candidate t).isSome = true ∧
      ∃ tx, (s.deliver d).mapTxLockReq.lookup t = some tx ∧ o ∈ tx.prevouts := by
  have hd := delivered s d
  rw [hd.candidate]
  obtain ⟨env, message⟩ := d
  cases message with
  | ix tx =>
    obtain ⟨hrej, hin, rfl⟩ := hl
    obtain ⟨hcomp, hconf⟩ := (h hrej).1 ⟨o, hin, ho⟩
    have hnew := (rejects_iff.mp hrej).1
    have hnone : s.mapTxLockReq.lookup tx.hash = none := by
      have hseen := (newRequest_iff.mp hnew).2.1
      rw [requestSeen, Bool.or_eq_false_iff] at hseen
      exact Option.not_isSome_iff_eq_none.mp (by rw [hseen.1]; simp)
    refine ⟨?_, tx, (hd.request _ _).mpr (Or.inr ⟨hnone, ?_⟩), hin⟩
    · rw [candidateAfter_request hnew]
      exact Option.isSome_of_any (rejectsComplete_iff.mp hcomp).2
    · exact ⟨hnew, rfl, rfl, Or.inr ⟨hcomp, hconf⟩⟩
  | txlvote ctx =>
    obtain ⟨hcomp, rfl, tx, htx, hin, -⟩ := hl
    refine ⟨?_, tx, (hd.request _ _).mpr (Or.inl htx), hin⟩
    rw [candidateAfter_vote (completes_iff.mp hcomp).1]
    rfl

theorem eq_of_stores (h : s.stores d t' tx) (hin : o ∈ tx.prevouts)
    (ho : s.mapLockedInputs.lookup o = some t) : t' = t := by
  obtain ⟨env, message⟩ := d
  cases message with
  | ix tx' =>
    obtain ⟨-, rfl, rfl, hconf⟩ := h
    have hno : s.conflicting tx = false := by
      rcases hconf with hpool | hconf
      · rw [acceptToMemoryPool, Bool.and_eq_true, Bool.not_eq_true'] at hpool
        exact hpool.1
      · exact hconf.2
    obtain ⟨txin, htxin, rfl⟩ := List.mem_map.mp hin
    have hother := List.any_eq_false.mp hno txin htxin
    rw [lockedByOther, ho] at hother
    simp only [bne_iff_ne, ne_eq, not_not] at hother
    exact hother.symm
  | txlvote ctx =>
    obtain ⟨-, -, rfl⟩ := h
    simp [CTransaction.prevouts, CTransaction.default] at hin

theorem eq_of_stores_of_locks (h : s.stores d t' tx) (hin : o ∈ tx.prevouts) (hl : s.locks d o t) :
    t' = t := by
  obtain ⟨env, message⟩ := d
  cases message with
  | ix tx' => exact h.2.1.trans hl.2.2.symm
  | txlvote ctx =>
    obtain ⟨-, -, rfl⟩ := h
    simp [CTransaction.prevouts, CTransaction.default] at hin

/-- **Preserved by every message** that locks releasably. -/
theorem Releasable.deliver (h : Releasable s) (hd' : s.LocksReleasably (.deliver d)) :
    Releasable (s.deliver d) := by
  have hd := delivered s d
  refine ⟨fun t lock hl => ?_, fun o t ho => ?_, fun o t t' tx ho htx hin => ?_⟩
  · exact candidateAfter_key h.key d t lock (hd.candidate t ▸ hl)
  · rcases (hd.locked o t).mp ho with ho | ⟨ho, hl⟩
    · obtain ⟨hc, tx, htx, hin⟩ := h.stored o t ho
      rw [hd.candidate]
      exact ⟨candidateAfter_isSome hc d, tx, (hd.request t tx).mpr (Or.inl htx), hin⟩
    · exact hd'.stored hl ho
  · rcases (hd.request t' tx).mp htx with htx | ⟨hnone, hstore⟩
    · rcases (hd.locked o t).mp ho with ho | ⟨ho, hl⟩
      · exact h.alone o t t' tx ho htx hin
      · exact hd'.alone hl ho htx hin
    · rcases (hd.locked o t).mp ho with ho | ⟨ho, hl⟩
      · exact eq_of_stores hstore hin ho
      · exact eq_of_stores_of_locks hstore hin hl

theorem releasable_afterSteps (past : List SwiftStep)
    (h : ∀ past' x, past' ++ [x] <+: past → (afterSteps past').LocksReleasably x) :
    Releasable (afterSteps past) := by
  induction past using List.reverseRecOn with
  | nil => exact releasable_init
  | append_singleton past x ih =>
    have hpast := ih fun past' x' h' => h past' x' (h'.trans (List.prefix_append past [x]))
    have hx := h past x List.prefix_rfl
    rw [afterSteps_concat]
    cases x with
    | deliver d => exact hpast.deliver hx
    | clean fTip nTime =>
      cases fTip with
      | true => exact hpast.clean nTime
      | false => exact hpast

/--
**Locks are released in time and not before.** In a run whose steps all lock releasably,
every cleaning leaves only locks whose candidate has not expired, and leaves all of those.
-/
theorem clean_releases (run : List SwiftStep)
    (h : ∀ past x, past ++ [x] <+: run → (afterSteps past).LocksReleasably x)
    (past : List SwiftStep) (fTip : Bool) (nTime : Int)
    (hclean : past ++ [.clean fTip nTime] <+: run) : (afterSteps past).Releases fTip nTime := by
  have hpast : Releasable (afterSteps past) := by
    refine releasable_afterSteps past fun past' x h' => h past' x ?_
    exact h'.trans ((List.prefix_append past _).trans hclean)
  cases fTip with
  | true => exact hpast.releases nTime
  | false =>
    -- without a chain tip nothing is cleaned, and nothing is locked
    have hempty : (afterSteps past).mapLockedInputs.entries = [] :=
      (h past _ hclean).resolve_left (by simp)
    have hnone : ∀ o, (afterSteps past).mapLockedInputs.lookup o = none := by
      intro o
      rw [AList.lookup, hempty]
      rfl
    refine ⟨fun o t ho => ?_, fun o t lock ho => ?_⟩
    · have ho' : (afterSteps past).mapLockedInputs.lookup o = some t := ho
      rw [hnone] at ho'
      simp at ho'
    · rw [hnone] at ho
      simp at ho

end SwiftState

/-- A request that is accepted, with old enough inputs, and the six votes that lock them. -/
def votedRequest : List SwiftStep :=
  let env := { SwiftEnv.bare 0 with getInputAge := fun _ => 10, fAcceptable := fun _ => true }
  .deliver ⟨env, .ix strayRequest⟩ :: (List.range 6).map fun k =>
    .deliver ⟨env, .txlvote ⟨⟨⟨k, 0⟩, [], 0⟩, strayRequest.hash, 94, [1]⟩⟩

theorem clean_releases_voted :
    (SwiftState.afterSteps votedRequest).mapLockedInputs.lookup ⟨1, 0⟩ = some 7 ∧
      (SwiftState.afterSteps votedRequest).Releases true 4000 :=
  ⟨by decide, SwiftState.clean_releases (votedRequest ++ [.clean true 4000])
    (Machine.forall_concat_iff.mpr (by decide)) _ _ _ List.prefix_rfl⟩

/-- What the rejected request has locked stays locked: it has no candidate that could expire. -/
theorem strayRequest_not_released :
    ¬ (SwiftState.afterSteps [.deliver ⟨SwiftEnv.bare 0, .ix strayRequest⟩]).Releases
    true 4000 := by
  intro h
  obtain ⟨lock, hl, -⟩ := h.released ⟨1, 0⟩ 7 (by decide)
  have hnone : ((SwiftState.afterSteps
      [.deliver ⟨SwiftEnv.bare 0, .ix strayRequest⟩]).cleanTransactionLocksList
      true 4000).mapTxLocks.lookup 7 = none := by decide
  rw [hnone] at hl
  simp at hl

end BitBlocks
