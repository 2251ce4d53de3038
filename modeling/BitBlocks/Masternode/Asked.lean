import BitBlocks.Masternode.Unique

/-!
# What the list asks of `AcceptableInputs`

A message, or a call of `Check`, puts a few inputs to `AcceptableInputs`, and what it does
to the list depends on these answers alone. An entry is marked spent only on the answer
that its input is not acceptable.
-/

namespace BitBlocks

open MasternodeState

def CheckEnv.answering (env : CheckEnv) (acceptableInputs : CTxIn → Bool) : CheckEnv :=
  { env with acceptableInputs := acceptableInputs }

def MasternodeEnv.answering (env : MasternodeEnv) (acceptableInputs : CTxIn → Bool) :
    MasternodeEnv :=
  { env with
    atPing := env.atPing.answering acceptableInputs
    atUpdate := env.atUpdate.answering acceptableInputs
    atAdd := env.atAdd.answering acceptableInputs }

/-! ## The inputs that are asked about -/

/-- By `Check`. -/
def CMasternode.asked (env : CheckEnv) (forceCheck : Bool) (mn : CMasternode) : List CTxIn :=
  if env.fShutdown then []
  else if !forceCheck && env.fRecent then []
  else if mn.activeState = MASTERNODE_VIN_SPENT then []
  else if !mn.isPingedWithin env.nAdjustedTime MASTERNODE_REMOVAL_SECONDS then []
  else if !mn.isPingedWithin env.nAdjustedTime MASTERNODE_EXPIRATION_SECONDS then []
  else if mn.unitTest || !env.fLockMain then []
  else [mn.vin]

section

variable (T : MasternodeText) (env : MasternodeEnv) (man : CMasternodeMan)

/-- By the check of an entry that a ping, or an update, found. -/
def CMasternodeMan.askedAt (vin : CTxIn) (env : CheckEnv) (forceCheck : Bool)
    (change : CMasternode → CMasternode) : List CTxIn :=
  match man.find vin with
  | none => []
  | some pmn => (change pmn).asked env forceCheck

/-- By a ping, of the entry that takes it. -/
def CMasternodePing.asked (mnp : CMasternodePing) (fRequireEnabled : Bool) : List CTxIn :=
  if (man.find mnp.vin).any fun pmn => mnp.isTaken T env pmn fRequireEnabled then
    man.askedAt mnp.vin env.atPing true fun mn => { mn with lastPing := mnp }
  else []

def CMasternodeMan.askedByPing (lastPing : CMasternodePing) : List CTxIn :=
  if lastPing.same CMasternodePing.null then [] else lastPing.asked T env man false

/-- By a broadcast, of the entry it renews. -/
def CMasternodeBroadcast.asked (mnb : CMasternodeBroadcast) : List CTxIn :=
  if man.renews T env mnb then
    (man.write mnb.vin (CMasternode.renew mnb)).askedByPing T env mnb.lastPing ++
      (man.renewEntry T env mnb).askedAt mnb.vin env.atUpdate false id
  else []

/-- By a broadcast, of the entry it would add. -/
def CMasternodeBroadcast.askedToAdd (mnb : CMasternodeBroadcast) : List CTxIn :=
  if env.fMasterNode && mnb.vin.prevout == env.activeVin &&
    mnb.pubKeyMasternode == env.activeKey then
    []
  else if (man.find mnb.vin).any CMasternode.isEnabled then []
  else if !env.atAdd.fLockMain then []
  else [mnb.vin]

/-- By the `mnb` message, of the entry it renews. -/
def CMasternodeMan.checkedByBroadcast (mnb : CMasternodeBroadcast) : List CTxIn :=
  if !env.fActive then []
  else if (man.mapSeenMasternodeBroadcast.lookup (mnb.getHash T)).isSome then []
  else mnb.asked T env (man.recordBroadcast T mnb)

/-- By the `mnb` message. -/
def CMasternodeMan.askedByBroadcast (mnb : CMasternodeBroadcast) : List CTxIn :=
  if !env.fActive then []
  else if (man.mapSeenMasternodeBroadcast.lookup (mnb.getHash T)).isSome then []
  else
    mnb.asked T env (man.recordBroadcast T mnb) ++
      match mnb.checkAndUpdate T env (man.recordBroadcast T mnb) with
      | (_, false) => []
      | (man, true) =>
        if !CMasternodeBroadcast.isVinAssociatedWithPubkey T env mnb.vin
            mnb.pubKeyCollateralAddress then []
        else mnb.askedToAdd env man

/-- By the `mnp` message. -/
def CMasternodeMan.askedByMnp (mnp : CMasternodePing) : List CTxIn :=
  if !env.fActive then []
  else if (man.mapSeenMasternodePing.lookup (mnp.getHash T)).isSome then []
  else mnp.asked T env (man.recordPing T mnp) true

end

/-! ## Nothing else of the answers matters -/

variable {T : MasternodeText} {env : MasternodeEnv} {man : CMasternodeMan}
  {acceptable acceptable' : CTxIn → Bool}

variable {forceCheck : Bool} {mn : CMasternode} {vin : CTxIn} {mnp : CMasternodePing}
  {mnb : CMasternodeBroadcast}

/-- **`Check`** depends on the answer to what it asks. -/
theorem CMasternode.check_answering {env : CheckEnv}
    (h : ∀ vin ∈ mn.asked env forceCheck, acceptable vin = acceptable' vin) :
    mn.check (env.answering acceptable) forceCheck =
      mn.check (env.answering acceptable') forceCheck := by
  unfold check CheckEnv.answering
  unfold asked at h
  by_cases hshutdown : env.fShutdown = true
  · rw [if_pos hshutdown, if_pos hshutdown]
  rw [if_neg hshutdown] at h
  rw [if_neg hshutdown, if_neg hshutdown]
  by_cases hrecent : (!forceCheck && env.fRecent) = true
  · rw [if_pos hrecent, if_pos hrecent]
  rw [if_neg hrecent] at h
  rw [if_neg hrecent, if_neg hrecent]
  by_cases hspent : mn.activeState = MASTERNODE_VIN_SPENT
  · rw [if_pos hspent, if_pos hspent]
  rw [if_neg hspent] at h
  rw [if_neg hspent, if_neg hspent]
  by_cases hremoval : (!mn.isPingedWithin env.nAdjustedTime MASTERNODE_REMOVAL_SECONDS) = true
  · rw [if_pos hremoval, if_pos hremoval]
  rw [if_neg hremoval] at h
  rw [if_neg hremoval, if_neg hremoval]
  by_cases hexpiration : (!mn.isPingedWithin env.nAdjustedTime MASTERNODE_EXPIRATION_SECONDS) = true
  · rw [if_pos hexpiration, if_pos hexpiration]
  rw [if_neg hexpiration] at h
  rw [if_neg hexpiration, if_neg hexpiration]
  cases hunit : mn.unitTest with
  | true => rfl
  | false =>
    cases hlock : env.fLockMain with
    | false => rfl
    | true =>
      have hvin := h mn.vin (by simp [hunit, hlock])
      simp only [hvin]

theorem CMasternodeMan.write_congr {f g : CMasternode → CMasternode}
    (h : ∀ pmn, man.find vin = some pmn → f pmn = g pmn) : man.write vin f = man.write vin g := by
  unfold write
  rw [Rows.writeFirst_congr h]

theorem CMasternodeMan.write_check {env : CheckEnv} {change : CMasternode → CMasternode}
    (h : ∀ vin' ∈ man.askedAt vin env forceCheck change, acceptable vin' = acceptable' vin') :
    (man.write vin fun mn => (change mn).check (env.answering acceptable) forceCheck) =
      man.write vin fun mn => (change mn).check (env.answering acceptable') forceCheck := by
  refine CMasternodeMan.write_congr ?_
  intro pmn hfind
  unfold askedAt at h
  rw [hfind] at h
  exact CMasternode.check_answering h

theorem CMasternodeMan.find_refreshBroadcast (man : CMasternodeMan) (hash : Uint256)
    (mnp : CMasternodePing) (vin : CTxIn) :
      (man.refreshBroadcast hash mnp).find vin = man.find vin := by
  unfold find
  rw [refreshBroadcast_vMasternodes]

/-- **A ping** depends on the answer to what it asks. -/
theorem CMasternodePing.checkAndUpdate_answering {fRequireEnabled : Bool}
    (h : ∀ vin ∈ mnp.asked T env man fRequireEnabled, acceptable vin = acceptable' vin) :
    mnp.checkAndUpdate T (env.answering acceptable) man fRequireEnabled =
      mnp.checkAndUpdate T (env.answering acceptable') man fRequireEnabled := by
  rw [checkAndUpdate_eq, checkAndUpdate_eq]
  have htaken : ∀ acceptable pmn, mnp.isTaken T (env.answering acceptable) pmn fRequireEnabled =
      mnp.isTaken T env pmn fRequireEnabled := fun _ _ => rfl
  unfold asked at h
  cases hfind : man.find mnp.vin with
  | none => rfl
  | some pmn =>
    dsimp only
    rw [htaken, htaken]
    rw [hfind, Option.any_some] at h
    cases hgood : mnp.isTaken T env pmn fRequireEnabled with
    | false => rfl
    | true =>
      rw [if_pos hgood] at h
      rw [if_pos rfl, if_pos rfl]
      unfold CMasternodeMan.askedAt at h
      rw [hfind] at h
      have hcheck : pmn.takePing (env.answering acceptable).atPing mnp =
          pmn.takePing (env.answering acceptable').atPing mnp :=
        CMasternode.check_answering h
      rw [hcheck]
      refine congrArg (Prod.mk · _) (CMasternodeMan.write_congr ?_)
      intro pmn' hfind'
      rw [CMasternodeMan.find_refreshBroadcast, hfind] at hfind'
      obtain rfl := Option.some.inj hfind'
      exact hcheck

theorem CMasternodeMan.renewEntry_answering
    (h : ∀ vin ∈ (man.write mnb.vin (CMasternode.renew mnb)).askedByPing T env mnb.lastPing,
      acceptable vin = acceptable' vin) :
    man.renewEntry T (env.answering acceptable) mnb =
      man.renewEntry T (env.answering acceptable') mnb := by
  have hping : (man.write mnb.vin (CMasternode.renew mnb)).checkPing T (env.answering acceptable)
        mnb.lastPing =
      (man.write mnb.vin (CMasternode.renew mnb)).checkPing T (env.answering acceptable')
        mnb.lastPing := by
    unfold checkPing
    unfold askedByPing at h
    split
    · rfl
    · rename_i hnull
      rw [if_neg hnull] at h
      exact CMasternodePing.checkAndUpdate_answering h
  unfold renewEntry
  rw [hping]

/-- **A broadcast that renews** an entry depends on the answers to what it asks. -/
theorem CMasternodeBroadcast.checkAndUpdate_answering
    (h : ∀ vin ∈ mnb.asked T (env.answering acceptable) man, acceptable vin = acceptable' vin) :
    mnb.checkAndUpdate T (env.answering acceptable) man =
      mnb.checkAndUpdate T (env.answering acceptable') man := by
  rw [checkAndUpdate_eq, checkAndUpdate_eq]
  have hrenews : ∀ acceptable, man.renews T (env.answering acceptable) mnb = man.renews T env mnb :=
    fun _ => rfl
  have hadmits : ∀ acceptable, man.admits T (env.answering acceptable) mnb = man.admits T env mnb :=
    fun _ => rfl
  unfold asked at h
  rw [hrenews] at h
  rw [hrenews, hrenews, hadmits, hadmits]
  cases hgood : man.renews T env mnb with
  | false => rfl
  | true =>
    rw [if_pos hgood] at h
    rw [if_pos rfl, if_pos rfl]
    have hentry : man.renewEntry T (env.answering acceptable) mnb =
        man.renewEntry T (env.answering acceptable') mnb :=
      CMasternodeMan.renewEntry_answering fun vin hvin => h vin (List.mem_append_left _ hvin)
    rw [← hentry]
    refine congrArg (Prod.mk · _) (CMasternodeMan.write_congr ?_)
    intro pmn hfind
    refine CMasternode.check_answering fun vin hvin => h vin (List.mem_append_right _ ?_)
    unfold CMasternodeMan.askedAt
    rw [hfind]
    exact hvin

/-- **An addition** depends on the answer to what it asks. -/
theorem CMasternodeBroadcast.checkInputsAndAdd_answering
    (h : ∀ vin ∈ mnb.askedToAdd env man, acceptable vin = acceptable' vin) :
    mnb.checkInputsAndAdd T (env.answering acceptable) man =
      mnb.checkInputsAndAdd T (env.answering acceptable') man := by
  have hinputs : acceptable mnb.vin = acceptable' mnb.vin ∨ env.atAdd.fLockMain = false →
      ∀ man, mnb.checkInputs T (env.answering acceptable) man =
        mnb.checkInputs T (env.answering acceptable') man := by
    intro heq man
    unfold checkInputs MasternodeEnv.answering CheckEnv.answering
    rcases heq with heq | hlock
    · simp only [heq]
    · simp only [hlock, Bool.not_false, if_true]
  unfold askedToAdd at h
  unfold checkInputsAndAdd
  have hown : ∀ acceptable, ((env.answering acceptable).fMasterNode &&
      mnb.vin.prevout == (env.answering acceptable).activeVin &&
      mnb.pubKeyMasternode == (env.answering acceptable).activeKey) =
      (env.fMasterNode && mnb.vin.prevout == env.activeVin &&
        mnb.pubKeyMasternode == env.activeKey) :=
    fun _ => rfl
  rw [hown, hown]
  split
  · rfl
  · rename_i hother
    rw [if_neg hother] at h
    have hlocked : (man.find mnb.vin).any CMasternode.isEnabled = false →
        acceptable mnb.vin = acceptable' mnb.vin ∨ env.atAdd.fLockMain = false := by
      intro henabled
      rw [if_neg (by rw [henabled]; exact Bool.false_ne_true)] at h
      cases hlock : env.atAdd.fLockMain with
      | false => exact Or.inr rfl
      | true => exact Or.inl (h mnb.vin (by simp [hlock]))
    cases hfind : man.find mnb.vin with
    | none => exact hinputs (hlocked (by rw [hfind]; rfl)) man
    | some pmn =>
      dsimp only
      cases henabled : pmn.isEnabled with
      | true => rfl
      | false => exact hinputs (hlocked (by rw [hfind]; exact henabled)) _

/-- **The `mnb` message** depends on the answers to what it asks. -/
theorem CMasternodeMan.processBroadcast_answering
    (h : ∀ vin ∈ man.askedByBroadcast T (env.answering acceptable) mnb,
      acceptable vin = acceptable' vin) :
    man.processBroadcast T (env.answering acceptable) mnb =
      man.processBroadcast T (env.answering acceptable') mnb := by
  unfold askedByBroadcast at h
  unfold processBroadcast
  have hactive : ∀ acceptable, (env.answering acceptable).fActive = env.fActive := fun _ => rfl
  rw [hactive] at h
  rw [hactive, hactive]
  split
  · rfl
  · rename_i hon
    rw [if_neg hon] at h
    split
    · rfl
    · rename_i hnew
      rw [if_neg hnew] at h
      have hupdate := CMasternodeBroadcast.checkAndUpdate_answering fun vin hvin =>
        h vin (List.mem_append_left _ hvin)
      rw [← hupdate]
      cases hstep : mnb.checkAndUpdate T (env.answering acceptable) (man.recordBroadcast T mnb) with
      | mk man' good =>
        cases good with
        | false => rfl
        | true =>
          dsimp only
          have hassociated : ∀ acceptable, CMasternodeBroadcast.isVinAssociatedWithPubkey T
              (env.answering acceptable) mnb.vin mnb.pubKeyCollateralAddress =
              CMasternodeBroadcast.isVinAssociatedWithPubkey T env mnb.vin
                mnb.pubKeyCollateralAddress := fun _ => rfl
          rw [hstep, hassociated] at h
          rw [hassociated, hassociated]
          split
          · rfl
          · rename_i hpays
            dsimp only at h
            rw [if_neg hpays] at h
            have hadd : mnb.checkInputsAndAdd T (env.answering acceptable) man' =
                mnb.checkInputsAndAdd T (env.answering acceptable') man' :=
              CMasternodeBroadcast.checkInputsAndAdd_answering fun vin hvin =>
                h vin (List.mem_append_right _ hvin)
            rw [hadd]

/-- **The `mnp` message** depends on the answer to what it asks. -/
theorem CMasternodeMan.processPing_answering
    (h : ∀ vin ∈ man.askedByMnp T env mnp, acceptable vin = acceptable' vin) :
    man.processPing T (env.answering acceptable) mnp =
      man.processPing T (env.answering acceptable') mnp := by
  unfold askedByMnp at h
  unfold processPing
  have hactive : ∀ acceptable, (env.answering acceptable).fActive = env.fActive := fun _ => rfl
  rw [hactive, hactive]
  split
  · rfl
  · rename_i hon
    rw [if_neg hon] at h
    split
    · rfl
    · rename_i hnew
      rw [if_neg hnew] at h
      rw [CMasternodePing.checkAndUpdate_answering h]
      rfl

/-! ## Entries that are marked spent -/

/-- Only an entry whose outpoint has the property is marked spent. -/
def CMasternode.Marked (G : COutPoint → Prop) (mn : CMasternode) : Prop :=
  mn.activeState = MASTERNODE_VIN_SPENT → G mn.vin.prevout

def CMasternodeMan.Marks (G : COutPoint → Prop) (man : CMasternodeMan) : Prop :=
  ∀ mn ∈ man.vMasternodes, mn.Marked G

variable {G : COutPoint → Prop}

/-- **`Check`** marks an entry on the answer that its input is not acceptable. -/
theorem CMasternode.Marked.check (h : mn.Marked G) {env : CheckEnv} (forceCheck : Bool)
    (hanswer : env.acceptableInputs mn.vin = false → G mn.vin.prevout) :
    (mn.check env forceCheck).Marked G := by
  unfold CMasternode.check
  split
  · exact h
  · split
    · exact h
    · split
      · exact h
      · split
        · intro hmark
          exact absurd hmark (by simp)
        · split
          · intro hmark
            exact absurd hmark (by simp)
          · split
            · exact h
            · split
              · rename_i hbad
                intro _
                exact hanswer (by simp at hbad; exact hbad.2)
              · intro hmark
                exact absurd hmark (by simp)

namespace CMasternodeMan

theorem Marks.write (h : man.Marks G) {vin : CTxIn} {f : CMasternode → CMasternode}
    (hf : ∀ mn, mn.Marked G → (f mn).Marked G) : (man.write vin f).Marks G := by
  intro mn hmn
  rcases Rows.mem_writeFirst hmn with hold | ⟨pmn, hpmn, rfl⟩
  · exact h mn hold
  · exact hf pmn (h pmn (Rows.mem_of_first hpmn))

theorem Marks.of_subset (h : man.Marks G) {man' : CMasternodeMan}
    (hsub : ∀ mn ∈ man'.vMasternodes, mn ∈ man.vMasternodes) : man'.Marks G :=
  fun mn hmn => h mn (hsub mn hmn)

variable (hacceptable : ∀ vin : CTxIn, acceptable vin = false → G vin.prevout)

include hacceptable

theorem Marks.ping (h : man.Marks G) (mnp : CMasternodePing) (fRequireEnabled : Bool) :
    (mnp.checkAndUpdate T (env.answering acceptable) man fRequireEnabled).1.Marks G := by
  rw [CMasternodePing.checkAndUpdate_eq]
  split
  · exact h
  · split
    · refine Marks.write (h.of_subset fun mn hmn => ?_) fun mn hmn => ?_
      · rw [refreshBroadcast_vMasternodes] at hmn
        exact hmn
      · have hping : ({ mn with lastPing := mnp } : CMasternode).Marked G := hmn
        exact hping.check true (hacceptable mn.vin)
    · exact h

theorem Marks.renewEntry (h : man.Marks G) (mnb : CMasternodeBroadcast) :
    (man.renewEntry T (env.answering acceptable) mnb).Marks G := by
  have hrenewed : (man.write mnb.vin (CMasternode.renew mnb)).Marks G := h.write fun _ hmn => hmn
  have hpinged : ((man.write mnb.vin (CMasternode.renew mnb)).checkPing T (env.answering acceptable)
      mnb.lastPing).1.Marks G := by
    unfold checkPing
    split
    · exact hrenewed
    · exact Marks.ping hacceptable hrenewed mnb.lastPing false
  unfold CMasternodeMan.renewEntry
  split
  · rename_i heq
    rw [heq] at hpinged
    exact hpinged
  · rename_i heq
    rw [heq] at hpinged
    exact Marks.write hpinged fun _ hmn => hmn

theorem Marks.broadcast (h : man.Marks G) (mnb : CMasternodeBroadcast) :
    (mnb.checkAndUpdate T (env.answering acceptable) man).1.Marks G := by
  rw [CMasternodeBroadcast.checkAndUpdate_eq]
  dsimp only
  split
  · refine (Marks.renewEntry hacceptable h mnb).write fun mn hmn => ?_
    exact hmn.check false (hacceptable mn.vin)
  · exact h

omit hacceptable in
theorem Marks.add (h : man.Marks G) (mn : CMasternode) : (man.add mn).1.Marks G := by
  unfold CMasternodeMan.add
  split
  · exact h
  · rename_i henabled
    split
    · intro mn' hmn'
      rcases List.mem_append.mp hmn' with hold | hnew
      · exact h mn' hold
      · rw [List.mem_singleton.mp hnew]
        intro hmark
        simp [CMasternode.isEnabled, hmark] at henabled
    · exact h

omit hacceptable in
theorem Marks.checkInputs (h : man.Marks G) (env : MasternodeEnv) (mnb : CMasternodeBroadcast) :
    (mnb.checkInputs T env man).1.Marks G := by
  unfold CMasternodeBroadcast.checkInputs
  split
  · exact h
  · split
    · exact h
    · split
      · exact h
      · split
        · exact h
        · exact h.add _

omit hacceptable in
theorem Marks.checkInputsAndAdd (h : man.Marks G) (env : MasternodeEnv)
    (mnb : CMasternodeBroadcast) : (mnb.checkInputsAndAdd T env man).1.Marks G := by
  unfold CMasternodeBroadcast.checkInputsAndAdd
  split
  · exact h
  · split
    · exact h.checkInputs env mnb
    · split
      · exact h
      · refine Marks.checkInputs (h.of_subset fun mn hmn => ?_) env mnb
        exact List.mem_of_mem_eraseP hmn

omit hacceptable

theorem exists_answers {asked : List CTxIn}
    (h : ∀ vin ∈ asked, acceptable vin = false → G vin.prevout) :
    ∃ acceptable' : CTxIn → Bool, (∀ vin ∈ asked, acceptable vin = acceptable' vin) ∧
      ∀ vin, acceptable' vin = false → G vin.prevout := by
  refine ⟨fun vin => acceptable vin || decide (vin ∉ asked), fun vin hvin => ?_, fun vin hbad => ?_⟩
  · simp [hvin]
  · obtain ⟨hanswer, hmem⟩ := Bool.or_eq_false_iff.mp hbad
    exact h vin (not_not.mp (of_decide_eq_false hmem)) hanswer

/-- **The `mnb` message** marks entries on the answers to what it asks of them only. -/
theorem Marks.processBroadcast (h : man.Marks G) (mnb : CMasternodeBroadcast)
    (hasked : ∀ vin ∈ man.checkedByBroadcast T (env.answering acceptable) mnb,
      acceptable vin = false → G vin.prevout) :
    (man.processBroadcast T (env.answering acceptable) mnb).1.Marks G := by
  unfold checkedByBroadcast at hasked
  unfold CMasternodeMan.processBroadcast
  split
  · exact h
  · rename_i hactive
    rw [if_neg hactive] at hasked
    split
    · exact h
    · rename_i hseen
      rw [if_neg hseen] at hasked
      obtain ⟨acceptable', hsame, hright⟩ := exists_answers hasked
      have hrecorded : (man.recordBroadcast T mnb).Marks G := h
      have hupdate : (mnb.checkAndUpdate T (env.answering acceptable)
          (man.recordBroadcast T mnb)).1.Marks G := by
        rw [CMasternodeBroadcast.checkAndUpdate_answering hsame]
        exact Marks.broadcast hright hrecorded mnb
      cases hstep : mnb.checkAndUpdate T (env.answering acceptable) (man.recordBroadcast T mnb) with
      | mk man' good =>
        rw [hstep] at hupdate
        cases good with
        | false => exact hupdate
        | true =>
          dsimp only
          split
          · exact hupdate
          · have hadd := Marks.checkInputsAndAdd (T := T) hupdate (env.answering acceptable) mnb
            split <;> rename_i heq <;> rw [heq] at hadd <;> exact hadd

/-- **The `mnp` message** marks the entry on the answer to what it asks of it only. -/
theorem Marks.processPing (h : man.Marks G) (mnp : CMasternodePing)
    (hasked : ∀ vin ∈ man.askedByMnp T env mnp, acceptable vin = false → G vin.prevout) :
    (man.processPing T (env.answering acceptable) mnp).1.Marks G := by
  obtain ⟨acceptable', hsame, hright⟩ := exists_answers hasked
  have hrecorded : (man.recordPing T mnp).Marks G := h
  have hping :
      (mnp.checkAndUpdate T (env.answering acceptable') (man.recordPing T mnp) true).1.Marks
      G := Marks.ping hright hrecorded mnp true
  rw [CMasternodeMan.processPing_answering hsame]
  unfold CMasternodeMan.processPing
  split
  · exact h
  · split
    · exact h
    · split <;> rename_i heq <;> rw [heq] at hping
      · exact hping
      · refine hping.of_subset fun mn hmn => ?_
        rw [pingFailed_vMasternodes] at hmn
        exact hmn

/-- **A check** of the entry that is found marks it on the answer to what it asks only. -/
theorem Marks.write_check (h : man.Marks G) {vin : CTxIn} {env : CheckEnv} {forceCheck : Bool}
    (hasked : ∀ vin' ∈ man.askedAt vin env forceCheck id, acceptable vin' = false →
      G vin'.prevout) :
    (man.write vin fun mn => mn.check (env.answering acceptable) forceCheck).Marks G := by
  obtain ⟨acceptable', hsame, hright⟩ := exists_answers hasked
  have hwrite : (man.write vin fun mn => mn.check (env.answering acceptable) forceCheck) =
      man.write vin fun mn => mn.check (env.answering acceptable') forceCheck :=
    CMasternodeMan.write_check hsame
  rw [hwrite]
  exact h.write fun mn hmn => hmn.check forceCheck (hright mn.vin)

end CMasternodeMan

end BitBlocks
