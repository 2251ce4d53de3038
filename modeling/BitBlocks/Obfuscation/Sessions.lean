import BitBlocks.Obfuscation.Pool

/-!
# The accounts of a mixing session

The number of users and the collaterals move together as long as they are set back
together, which is what `SetNull` does, or grow together, which is what a `dsa` does. An
entry comes in only when the session is full, so no session starts with the entries of
another. A refusal of `AddEntry` breaks this: it lowers the number of users, whoever sent
the message, and nothing else.
-/

namespace BitBlocks

open Checks

namespace PoolState

def run (R : PoolRules) (s : PoolState) (events : List (PoolEnv × PoolEvent)) : PoolState :=
  events.foldl (step R) s

/-- The users are those with a collateral, not too many, and the entries are theirs. -/
structure Accounted (R : PoolRules) (s : PoolState) : Prop where
  nonneg : 0 ≤ s.sessionUsers
  users : s.sessionUsers = s.vecSessionCollateral.length
  bounded : s.sessionUsers ≤ R.nPoolMaxTransactions
  entries : ∀ v ∈ s.entries, v.nSession = s.nSessions ∧ s.sessionID ≠ 0

/-- If the event is a `dsi` that is refused, the session does not change. -/
def Quiet (R : PoolRules) (s : PoolState) (x : PoolEnv × PoolEvent) : Prop :=
  match x.2 with
  | .dsi nVersion vin nAmount txCollateral vout =>
    (∃ e, (s.processDsi R x.1 nVersion vin nAmount txCollateral vout).2 = .error e) →
      (s.step R x).sessionUsers = s.sessionUsers ∧
      (s.step R x).vecSessionCollateral = s.vecSessionCollateral ∧
      (s.step R x).entries = s.entries
  | _ => True

/-- What `AddEntry` checks. -/
structure EntryFits (R : PoolRules) (env : PoolEnv) (s : PoolState) (vin : List CTxIn)
    (nAmount : Int) (txCollateral : CTransaction) : Prop where
  inputs : ∀ txin ∈ vin, txin.prevout.isNull = false ∧ 0 ≤ nAmount
  collateral : isCollateralValid env txCollateral = true
  room : (s.entries.length : Int) < R.nPoolMaxTransactions
  new : ∀ txin ∈ vin, s.hasInput txin = false

/-- A `dsi` that passes all checks before `AddEntry` passes those of `AddEntry` too. -/
def Fits (R : PoolRules) (s : PoolState) (x : PoolEnv × PoolEvent) : Prop :=
  match x.2 with
  | .dsi nVersion vin nAmount txCollateral vout =>
    x.1.fActive = true → s.checkEntry R x.1 nVersion vin vout = .ok () →
      EntryFits R x.1 s vin nAmount txCollateral
  | _ => True

/-! ## Which refusals change the session -/

variable {vin : List CTxIn} {nAmount nVersion : Int} {txCollateral : CTransaction}
  {x : PoolEnv × PoolEvent} {vout : List CTxOut}

theorem entryError_eq_none {R : PoolRules} {env : PoolEnv} {s : PoolState} :
    s.entryError R env vin nAmount txCollateral = none ↔
    EntryFits R env s vin nAmount txCollateral := by
  unfold entryError
  constructor
  · intro h
    split_ifs at h with h1 h2 h3 h4
    simp only [List.any_eq_true, Bool.or_eq_true, decide_eq_true_eq, not_exists, not_and, not_or,
      Bool.not_eq_true] at h1 h4
    refine ⟨fun txin hmem => ?_, by simpa using h2, by omega, h4⟩
    have := h1 txin hmem
    exact ⟨this.1, by omega⟩
  · intro ⟨h1, h2, h3, h4⟩
    have hinputs : ¬ (vin.any fun txin => txin.prevout.isNull || decide (nAmount < 0)) = true := by
      simp only [List.any_eq_true, Bool.or_eq_true, decide_eq_true_eq, not_exists, not_and]
      intro txin hmem hbad
      obtain ⟨hnull, hamount⟩ := h1 txin hmem
      rw [hnull] at hbad
      rcases hbad with hbad | hbad
      · exact absurd hbad (by simp)
      · omega
    have hnew : ¬ vin.any s.hasInput = true := by
      simp only [List.any_eq_true, not_exists, not_and]
      intro txin hmem
      rw [h4 txin hmem]
      simp
    have hcoll : ¬ (!isCollateralValid env txCollateral) = true := by rw [h2]; simp
    rw [if_neg hinputs, if_neg hcoll, if_neg (by omega), if_neg hnew]

variable {R : PoolRules} {env : PoolEnv} {s s' : PoolState}

/-- **A refused `dsi` leaves the session alone iff `AddEntry` was not the one to refuse it.** -/
theorem quiet_iff_fits : Quiet R s x ↔ Fits R s x := by
  obtain ⟨env, event⟩ := x
  cases event with
  | dsi nVersion vin nAmount txCollateral vout =>
    simp only [Quiet, Fits, step, processDsi, addEntry]
    cases hactive : env.fActive with
    | false => simp
    | true =>
      cases hcheck : s.checkEntry R env nVersion vin vout with
      | error e => simp
      | ok u =>
        rw [← entryError_eq_none]
        cases herror : s.entryError R env vin nAmount txCollateral with
        | none => simp
        | some e =>
          -- the users are one less
          simp only [if_true, reduceCtorEq, imp_false, not_true, iff_false]
          intro h
          have := (h ⟨e, rfl⟩).1
          omega
  | dsa nVersion nDenom txCollateral => exact Iff.rfl
  | dss nVersion sigs => exact Iff.rfl
  | checkTimeout => exact Iff.rfl
  | checkForCompleteQueue => exact Iff.rfl
  | reset => exact Iff.rfl

/-! ## The accounts -/

/-- What holds of the accounts, as long as only those who fit come in. -/
structure Balanced (R : PoolRules) (s : PoolState) : Prop where
  users : s.sessionUsers = s.vecSessionCollateral.length
  bounded : s.sessionUsers ≤ R.nPoolMaxTransactions
  opened : 0 < s.sessionUsers → s.sessionID ≠ 0
  /-- Entries are those of a session that is full. -/
  entries : ∀ n ∈ s.entries.map (·.nSession),
    n = s.nSessions ∧ s.sessionUsers = R.nPoolMaxTransactions

theorem Balanced.accounted (h : Balanced R s) : Accounted R s where
  nonneg := by rw [h.users]; omega
  users := h.users
  bounded := h.bounded
  entries := by
    intro v hv
    obtain ⟨hn, hfull⟩ := h.entries v.nSession (List.mem_map_of_mem hv)
    have := R.nPoolMaxTransactions_range
    exact ⟨hn, h.opened (by omega)⟩

/-- The two pools have the same session, and the second has no entries but those of the first. -/
structure SameSession (s s' : PoolState) : Prop where
  users : s'.sessionUsers = s.sessionUsers
  collaterals : s'.vecSessionCollateral = s.vecSessionCollateral
  id : s'.sessionID = s.sessionID
  number : s'.nSessions = s.nSessions
  entries : s'.entries.map (·.nSession) ⊆ s.entries.map (·.nSession)

theorem SameSession.refl (s : PoolState) : SameSession s s := ⟨rfl, rfl, rfl, rfl, fun _ h => h⟩

theorem Balanced.same (h : Balanced R s) (hs : SameSession s s') : Balanced R s' where
  users := by rw [hs.users, hs.collaterals]; exact h.users
  bounded := by rw [hs.users]; exact h.bounded
  opened := by rw [hs.users, hs.id]; exact h.opened
  entries := by
    intro n hn
    rw [hs.number, hs.users]
    exact h.entries n (hs.entries hn)

theorem balanced_setNull (R : PoolRules) (s : PoolState) (env : PoolEnv) :
    Balanced R (s.setNull env) where
  users := rfl
  bounded := by have := R.nPoolMaxTransactions_range; simp only [setNull]; omega
  opened := fun h => absurd h (by simp [setNull])
  entries := fun n h => absurd h (by simp [setNull])

theorem sameSession_updateState (s : PoolState) (env : PoolEnv) (newState : PoolStatus) :
    SameSession s (s.updateState env newState) := by
  refine ⟨by simp, by simp, by simp, by simp, ?_⟩
  rw [updateState_entries]
  exact fun _ h => h

/-! ## Checking -/

theorem sameSession_checkEntries (R : PoolRules) (env : PoolEnv) (s : PoolState) :
    SameSession s (s.checkEntries R env) := by
  unfold checkEntries
  split
  · exact sameSession_updateState s env _
  · exact SameSession.refl s

theorem sameSession_finalize (s : PoolState) (env : PoolEnv) : SameSession s (s.finalize env) := by
  unfold finalize
  split
  · obtain ⟨h1, h2, h3, h4, h5⟩ := sameSession_updateState s env .SIGNING
    exact ⟨h1, h2, h3, h4, h5⟩
  · exact SameSession.refl s

theorem Balanced.checkFinalTransaction (h : Balanced R s) (env : PoolEnv) :
    Balanced R (s.checkFinalTransaction env) := by
  unfold PoolState.checkFinalTransaction
  split_ifs
  · exact (balanced_setNull R s env).same (sameSession_updateState _ env _)
  · exact balanced_setNull R s env
  · exact h

theorem Balanced.transmit (h : Balanced R s) (env : PoolEnv) : Balanced R (s.transmit env) := by
  unfold PoolState.transmit
  split
  · exact (h.same (sameSession_updateState s env _)).checkFinalTransaction env
  · exact h

theorem Balanced.resetDone (h : Balanced R s) (env : PoolEnv) : Balanced R (s.resetDone env) := by
  unfold PoolState.resetDone
  split
  · exact balanced_setNull R s env
  · exact h

theorem Balanced.check (h : Balanced R s) (env : PoolEnv) : Balanced R (s.check R env) := by
  have hfinal := (h.same (sameSession_checkEntries R env s)).same (sameSession_finalize _ env)
  exact (hfinal.transmit env).resetDone env

/-! ## Messages -/

theorem Balanced.isCompatibleWithSession (h : Balanced R s) (env : PoolEnv) (nDenom : Int)
    (txCollateral : CTransaction) :
    Balanced R (s.isCompatibleWithSession R env nDenom txCollateral).1 := by
  have hmax := R.nPoolMaxTransactions_range
  have husers := h.users
  have hclamp : (if s.sessionUsers < 0 then { s with sessionUsers := 0 } else s) = s :=
    if_neg (by omega)
  unfold PoolState.isCompatibleWithSession
  simp only [hclamp]
  split_ifs with h1 h2 h3 h4
  · exact h
  · exact h
  · -- a new session: nobody had joined, so nothing is left of the one before
    have hcoll : s.vecSessionCollateral = [] := List.length_eq_zero_iff.mp (by omega)
    have hentries : s.entries = [] := by
      rw [List.eq_nil_iff_forall_not_mem]
      intro v hv
      have := (h.entries v.nSession (List.mem_map_of_mem hv)).2
      omega
    refine ⟨by simp [hcoll, h3], ?_, fun _ => ?_, fun n hn => ?_⟩
    · simp only [updateState_sessionUsers]
      omega
    · simp only [updateState_sessionID]
      omega
    · simp [hentries] at hn
  · exact h
  · exact h
  · exact h
  · refine ⟨?_, by simp only; omega, fun _ => h.opened (by omega), ?_⟩
    · show s.sessionUsers + 1 = ((s.vecSessionCollateral ++ [txCollateral]).length : Int)
      rw [List.length_append, List.length_singleton]
      omega
    intro n hn
    have := (h.entries n hn).2
    omega

theorem Balanced.processDsa (h : Balanced R s) (env : PoolEnv) (nVersion nDenom : Int)
    (txCollateral : CTransaction) :
    Balanced R (s.processDsa R env nVersion nDenom txCollateral).1 := by
  unfold PoolState.processDsa
  split
  · exact h
  split
  · exact h
  split
  · exact h
  · exact h.isCompatibleWithSession env nDenom txCollateral

theorem isSessionReady_of_checkEntry {u : Unit} (h : s.checkEntry R env nVersion vin vout = .ok u) :
    R.nPoolMaxTransactions ≤ s.sessionUsers := by
  simp only [checkEntry, bind_eq_ok, failIf_eq_ok, exists_unit] at h
  have hready := h.2.1
  simp only [isSessionReady, Bool.not_eq_false', decide_eq_true_eq] at hready
  exact hready

theorem Balanced.processDsi (h : Balanced R s)
    (hfits : s.checkEntry R env nVersion vin vout = .ok () →
      EntryFits R env s vin nAmount txCollateral) :
    Balanced R (s.processDsi R env nVersion vin nAmount txCollateral vout).1 := by
  unfold PoolState.processDsi
  cases hcheck : s.checkEntry R env nVersion vin vout with
  | error e => exact h
  | ok u =>
    have hready := isSessionReady_of_checkEntry hcheck
    have hbounded := h.bounded
    simp only [addEntry, entryError_eq_none.mpr (hfits hcheck)]
    have hadded : Balanced R { s with entries := s.entries ++
        [(CObfuScationEntry.add { nSession := s.nSessions } env.nTime vin nAmount txCollateral
          vout).1] } := by
      refine ⟨h.users, h.bounded, h.opened, fun n hn => ?_⟩
      rw [List.map_append] at hn
      rcases List.mem_append.mp hn with hn | hn
      · exact h.entries n hn
      · obtain rfl : n = s.nSessions := by simpa [CObfuScationEntry.add] using hn
        exact ⟨rfl, by simp only; omega⟩
    exact hadded.check env

theorem map_addSigs (newVin : CTxIn) (entries : List CObfuScationEntry) :
    (addSigs newVin entries).1.map (·.nSession) = entries.map (·.nSession) := by
  induction entries with
  | nil => rfl
  | cons v entries ih =>
    rw [addSigs]
    split
    · rfl
    · exact congrArg (v.nSession :: ·) ih

theorem sameSession_addScriptSig (R : PoolRules) (s : PoolState) (newVin : CTxIn) :
    SameSession s (s.addScriptSig R newVin).1 := by
  unfold addScriptSig
  split_ifs
  · exact SameSession.refl s
  · exact SameSession.refl s
  · refine ⟨rfl, rfl, rfl, rfl, fun n hn => ?_⟩
    rwa [map_addSigs] at hn

theorem Balanced.addScriptSigs (h : Balanced R s) (sigs : List CTxIn) :
    Balanced R (s.addScriptSigs R sigs).1 := by
  rw [addScriptSigs_fst]
  induction sigs generalizing s with
  | nil => exact h
  | cons newVin sigs ih => exact ih (h.same (sameSession_addScriptSig R s newVin))

theorem Balanced.processDss (h : Balanced R s) (env : PoolEnv) (nVersion : Int)
    (sigs : List CTxIn) : Balanced R (s.processDss R env nVersion sigs) := by
  have hsigs := h.addScriptSigs sigs
  unfold PoolState.processDss
  split
  · exact h
  simp only
  split
  · exact hsigs.check env
  · exact hsigs

/-! ## Timeouts -/

theorem Balanced.expireEntries (h : Balanced R s) (env : PoolEnv)
    (kept rest : List CObfuScationEntry) (hs : s.entries = kept ++ rest) :
    Balanced R (PoolState.expireEntries env s kept rest) := by
  induction rest generalizing s kept with
  | nil => exact h
  | cons v rest ih =>
    rw [PoolState.expireEntries]
    split
    · have hsub : SameSession s { s with entries := kept ++ rest } := by
        refine ⟨rfl, rfl, rfl, rfl, List.map_subset _ ?_⟩
        rw [hs]
        exact ((List.sublist_cons_self v rest).append_left kept).subset
      simp only
      split
      · rename_i hempty
        have hnil : kept ++ rest = [] := List.isEmpty_iff.mp hempty
        refine ih (balanced_setNull R _ env) kept ?_
        rw [hnil]
        rfl
      · exact ih (h.same hsub) kept rfl
    · exact ih h (kept ++ [v]) (by rw [hs]; simp)

theorem Balanced.checkQueueTimeout (h : Balanced R s) (env : PoolEnv) :
    Balanced R (s.checkQueueTimeout env) := by
  unfold PoolState.checkQueueTimeout
  split
  · simp only
    split
    · exact balanced_setNull R _ env
    · exact h.expireEntries env [] s.entries rfl
  split
  · exact (balanced_setNull R s env).same (sameSession_updateState _ env _)
  · exact h

theorem Balanced.checkTimeout (h : Balanced R s) (env : PoolEnv) :
    Balanced R (s.checkTimeout env) := by
  unfold PoolState.checkTimeout
  simp only
  split
  · exact (balanced_setNull R _ env).same (sameSession_updateState _ env _)
  · exact h.checkQueueTimeout env

theorem Balanced.checkForCompleteQueue (h : Balanced R s) (env : PoolEnv) :
    Balanced R (s.checkForCompleteQueue R env) := by
  unfold PoolState.checkForCompleteQueue
  split
  · exact h.same (sameSession_updateState s env _)
  · exact h

/-! ## Runs -/

/-- **Every event that fits keeps the accounts.** -/
theorem Balanced.step (h : Balanced R s) (hfits : Fits R s x) : Balanced R (s.step R x) := by
  obtain ⟨env, event⟩ := x
  cases event with
  | dsa nVersion nDenom txCollateral =>
    simp only [PoolState.step]
    split
    · exact h.processDsa env nVersion nDenom txCollateral
    · exact h
  | dsi nVersion vin nAmount txCollateral vout =>
    simp only [PoolState.step]
    split
    · rename_i hactive
      exact h.processDsi (hfits hactive)
    · exact h
  | dss nVersion sigs =>
    simp only [PoolState.step]
    split
    · exact h.processDss env nVersion sigs
    · exact h
  | checkTimeout => exact h.checkTimeout env
  | checkForCompleteQueue => exact h.checkForCompleteQueue env
  | reset => exact balanced_setNull R s env

theorem balanced_new (R : PoolRules) (nTimeMillis : Int) : Balanced R (new nTimeMillis) where
  users := rfl
  bounded := by have := R.nPoolMaxTransactions_range; simp only [new]; omega
  opened := fun h => absurd h (by simp [new])
  entries := fun n h => absurd h (by simp [new])

theorem Balanced.run (nTimeMillis : Int) {events : List (PoolEnv × PoolEvent)}
    (h : ∀ past x, past ++ [x] <+: events → Fits R (PoolState.run R (new nTimeMillis) past) x) :
    ∀ past, past <+: events → Balanced R (PoolState.run R (new nTimeMillis) past) := by
  intro past hpast
  induction past using List.reverseRecOn with
  | nil => exact balanced_new R nTimeMillis
  | append_singleton past x ih =>
    have hbefore := ih ((List.prefix_append past [x]).trans hpast)
    have hrun : PoolState.run R (new nTimeMillis) (past ++ [x]) =
        (PoolState.run R (new nTimeMillis) past).step R x := by
      rw [PoolState.run, List.foldl_append]
      rfl
    rw [hrun]
    exact hbefore.step (h past x hpast)

/--
**The session is accounted for iff every submission that is looked at fits.** In every run
of the pool: the users are as many as the collaterals and not too many, and the entries are
of the current session, all through it, and no refused `dsi` changes the session, if and
only if every `dsi` that `AddEntry` gets to see has inputs that are not null, a valid
collateral, room in the pool, and no input that is in it.
-/
theorem accounted_iff (R : PoolRules) (nTimeMillis : Int) (events : List (PoolEnv × PoolEvent)) :
    ((∀ past, past <+: events → Accounted R (PoolState.run R (new nTimeMillis) past)) ∧
      ∀ past x, past ++ [x] <+: events → Quiet R (PoolState.run R (new nTimeMillis) past) x) ↔
    ∀ past x, past ++ [x] <+: events → Fits R (PoolState.run R (new nTimeMillis) past) x := by
  constructor
  · intro h past x hpast
    exact quiet_iff_fits.mp (h.2 past x hpast)
  · intro h
    refine ⟨fun past hpast => (Balanced.run nTimeMillis h past hpast).accounted, ?_⟩
    intro past x hpast
    exact quiet_iff_fits.mpr (h past x hpast)

/-- Three clients have joined a pool of three, and another one submits an entry without a
collateral. -/
def outsiderRun : List (PoolEnv × PoolEvent) :=
  [joins 1, joins 2, joins 3, submits 100 { goodCollateral 4 with vout := [] }]

/-- The entry is refused, and the session is not complete any more. -/
theorem outsider_lowers_users :
    (run (.bare 3 (by decide)) (new 0) (outsiderRun.take 3)).sessionUsers = 3 ∧
    (run (.bare 3 (by decide)) (new 0) outsiderRun).sessionUsers = 2 ∧
    (run (.bare 3 (by decide)) (new 0) outsiderRun).vecSessionCollateral.length = 3 ∧
    (run (.bare 3 (by decide)) (new 0) outsiderRun).entries = [] ∧
    ¬ ((∀ past, past <+: outsiderRun →
        Accounted (.bare 3 (by decide)) (run (.bare 3 (by decide)) (new 0) past)) ∧
      ∀ past x, past ++ [x] <+: outsiderRun →
        Quiet (.bare 3 (by decide)) (run (.bare 3 (by decide)) (new 0) past) x) := by
  refine ⟨by decide, by decide, by decide, by decide, fun h => ?_⟩
  have husers := (h.1 outsiderRun (List.prefix_refl _)).users
  exact absurd husers (by decide)

end PoolState

end BitBlocks
