import BitBlocks.Masternode.Manager

/-!
# One entry a collateral

No two entries of the masternode list have one outpoint. Entries are only appended, and by
`Add`, which searches the list first; an update writes to an entry in place and leaves its
input alone, so the list of inputs is the same before and after.
-/

namespace BitBlocks

namespace CMasternodeMan

/-- The inputs of the entries, in order. -/
def vins (man : CMasternodeMan) : List CTxIn := man.vMasternodes.map CMasternode.vin

def Unique (man : CMasternodeMan) : Prop := (man.vMasternodes.map prevoutOf).Nodup

variable {T : MasternodeText} {env : MasternodeEnv} {man : CMasternodeMan}

theorem map_prevoutOf (man : CMasternodeMan) :
    man.vMasternodes.map prevoutOf = man.vins.map CTxIn.prevout := by
  rw [vins, List.map_map]
  rfl

variable {man' : CMasternodeMan} {mnb : CMasternodeBroadcast}

theorem Unique.congr (h : man.Unique) (hvins : man'.vins = man.vins) : man'.Unique := by
  unfold Unique at h ⊢
  rw [map_prevoutOf, hvins, ← map_prevoutOf]
  exact h

/-! ## Updates keep the inputs -/

/-- What does not look at the last ping and the state of an entry. -/
def Stable {β : Type} (g : CMasternode → β) : Prop := ∀ (mn : CMasternode) lastPing activeState,
    g { mn with lastPing := lastPing, activeState := activeState } = g mn

theorem Stable.check {β : Type} {g : CMasternode → β} (hg : Stable g) (mn : CMasternode)
    (env : CheckEnv) (forceCheck : Bool) : g (mn.check env forceCheck) = g mn := by
  obtain ⟨activeState, h⟩ := mn.check_eq env forceCheck
  rw [h]
  exact hg mn mn.lastPing activeState

theorem Stable.takePing {β : Type} {g : CMasternode → β} (hg : Stable g) (env : CheckEnv)
    (mnp : CMasternodePing) (mn : CMasternode) : g (mn.takePing env mnp) = g mn := by
  unfold CMasternode.takePing
  rw [hg.check]
  exact hg mn mnp mn.activeState

theorem stable_vin : Stable CMasternode.vin := fun _ _ _ => rfl

theorem write_map {β : Type} {g : CMasternode → β} {vin : CTxIn} {f : CMasternode → CMasternode}
    (hf : ∀ mn, g (f mn) = g mn) :
    (man.write vin f).vMasternodes.map g = man.vMasternodes.map g :=
  Rows.map_writeFirst hf

theorem refreshBroadcast_vMasternodes (man : CMasternodeMan) (hash : Uint256)
    (mnp : CMasternodePing) :
    (man.refreshBroadcast hash mnp).vMasternodes = man.vMasternodes := by
  unfold refreshBroadcast
  split <;> rfl

/-- **A ping** changes the last ping and the state of an entry. -/
theorem ping_map {β : Type} {g : CMasternode → β} (hg : Stable g) (T : MasternodeText)
    (env : MasternodeEnv) (man : CMasternodeMan) (mnp : CMasternodePing) (fRequireEnabled : Bool) :
    (mnp.checkAndUpdate T env man fRequireEnabled).1.vMasternodes.map g =
    man.vMasternodes.map g := by
  rw [CMasternodePing.checkAndUpdate_eq]
  cases man.find mnp.vin with
  | none => rfl
  | some pmn =>
    dsimp only
    split
    · rw [write_map (hg.takePing env.atPing mnp), refreshBroadcast_vMasternodes]
    · rfl

theorem checkPing_map {β : Type} {g : CMasternode → β} (hg : Stable g) (T : MasternodeText)
    (env : MasternodeEnv) (man : CMasternodeMan) (lastPing : CMasternodePing) :
    (man.checkPing T env lastPing).1.vMasternodes.map g = man.vMasternodes.map g := by
  unfold checkPing
  split
  · rfl
  · exact ping_map hg T env man lastPing false

theorem renewEntry_map {β : Type} {g : CMasternode → β} (hg : Stable g) (T : MasternodeText)
    (env : MasternodeEnv) (man : CMasternodeMan) (mnb : CMasternodeBroadcast) :
    (man.renewEntry T env mnb).vMasternodes.map g =
      (man.write mnb.vin (CMasternode.renew mnb)).vMasternodes.map g := by
  unfold renewEntry
  have hping := checkPing_map hg T env (man.write mnb.vin (CMasternode.renew mnb)) mnb.lastPing
  cases hchecked : (man.write mnb.vin (CMasternode.renew mnb)).checkPing T env mnb.lastPing with
  | mk man' good =>
    rw [hchecked] at hping
    cases good with
    | false => exact hping
    | true =>
      rw [← hping]
      have hwrite : ∀ mn : CMasternode, g { mn with lastPing := mnb.lastPing } = g mn :=
        fun mn => hg mn mnb.lastPing mn.activeState
      exact Rows.map_writeFirst hwrite

theorem renewEntry_vins (T : MasternodeText) (env : MasternodeEnv) (man : CMasternodeMan)
    (mnb : CMasternodeBroadcast) : (man.renewEntry T env mnb).vins = man.vins :=
  (renewEntry_map stable_vin T env man mnb).trans (write_map fun _ => rfl)

/-- **An update from a newer broadcast** keeps every entry's place and input. -/
theorem updateFromNewBroadcast_vins (T : MasternodeText) (env : MasternodeEnv)
    (man : CMasternodeMan) (pmn : CMasternode) (mnb : CMasternodeBroadcast) :
    (man.updateFromNewBroadcast T env pmn mnb).1.vins = man.vins := by
  unfold updateFromNewBroadcast
  split
  · exact renewEntry_vins T env man mnb
  · rfl

/-- **A broadcast that updates** an entry keeps its place and input, and those of the others. -/
theorem broadcast_vins (T : MasternodeText) (env : MasternodeEnv) (man : CMasternodeMan)
    (mnb : CMasternodeBroadcast) : (mnb.checkAndUpdate T env man).1.vins = man.vins := by
  rw [CMasternodeBroadcast.checkAndUpdate_eq]
  dsimp only
  split
  · exact (write_map fun mn => mn.check_vin env.atUpdate false).trans
      (renewEntry_vins T env man mnb)
  · rfl

theorem check_vins (man : CMasternodeMan) (env : CTxIn → CheckEnv) :
    (man.check env).vins = man.vins := by
  unfold check vins
  rw [List.map_map]
  refine List.map_congr_left ?_
  intro mn _
  exact mn.check_vin (env mn.vin) false

/-! ## Additions and removals -/

theorem Unique.add (h : man.Unique) (mn : CMasternode) : (man.add mn).1.Unique := by
  unfold CMasternodeMan.add
  split
  · exact h
  · cases hfind : man.find mn.vin with
    | some pmn => exact h
    | none =>
      have hnew : mn.vin.prevout ∉ man.vMasternodes.map prevoutOf := Rows.first_eq_none.mp hfind
      unfold Unique
      dsimp only
      rw [List.map_append, List.map_singleton]
      refine List.nodup_append.mpr ⟨h, List.nodup_singleton _, ?_⟩
      intro a ha b hb he
      rw [he, List.mem_singleton.mp hb] at ha
      exact hnew ha

theorem Unique.sublist (h : man.Unique) (hsub : man'.vMasternodes.Sublist man.vMasternodes) :
    man'.Unique :=
  (hsub.map prevoutOf).nodup h

theorem Unique.remove (h : man.Unique) (vin : CTxIn) : (man.remove vin).Unique :=
  h.sublist List.eraseP_sublist

theorem Unique.checkInputs (h : man.Unique) (mnb : CMasternodeBroadcast) :
    (mnb.checkInputs T env man).1.Unique := by
  unfold CMasternodeBroadcast.checkInputs
  split
  · exact h
  · split
    · exact h
    · split
      · exact h
      · split
        · exact h
        · exact h.add _

theorem Unique.checkInputsAndAdd (h : man.Unique) (T : MasternodeText) (env : MasternodeEnv)
    (mnb : CMasternodeBroadcast) :
    (mnb.checkInputsAndAdd T env man).1.Unique := by
  unfold CMasternodeBroadcast.checkInputsAndAdd
  split
  · exact h
  · cases man.find mnb.vin with
    | none => exact h.checkInputs mnb
    | some pmn =>
      dsimp only
      split
      · exact h
      · exact (h.remove pmn.vin).checkInputs mnb

/-! ## Every sequence of calls -/

inductive Call where
  | broadcast (env : MasternodeEnv) (mnb : CMasternodeBroadcast)
  | ping (env : MasternodeEnv) (mnp : CMasternodePing)
  | updateMasternodeList (env : MasternodeEnv) (mnb : CMasternodeBroadcast)
  | add (mn : CMasternode)
  | remove (vin : CTxIn)
  | check (env : CTxIn → CheckEnv)
  | checkAndRemove (env : CTxIn → CheckEnv) (nTime nMinProtocol : Int) (forceExpiredRemoval : Bool)

variable (T) in
def call (man : CMasternodeMan) : Call → CMasternodeMan
  | .broadcast env mnb => (man.processBroadcast T env mnb).1
  | .ping env mnp => (man.processPing T env mnp).1
  | .updateMasternodeList env mnb => man.updateMasternodeList T env mnb
  | .add mn => (man.add mn).1
  | .remove vin => man.remove vin
  | .check env => man.check env
  | .checkAndRemove env nTime nMinProtocol forceExpiredRemoval =>
    man.checkAndRemove env nTime nMinProtocol forceExpiredRemoval

variable (T) in
/-- The manager after a sequence of calls, from the empty list. -/
def afterCalls (calls : List Call) : CMasternodeMan := calls.foldl (call T) {}

theorem Unique.processBroadcast (h : man.Unique) (mnb : CMasternodeBroadcast) :
    (man.processBroadcast T env mnb).1.Unique := by
  unfold CMasternodeMan.processBroadcast
  split
  · exact h
  · split
    · exact h
    · have hupdate : (mnb.checkAndUpdate T env (man.recordBroadcast T mnb)).1.Unique :=
        h.congr (broadcast_vins T env (man.recordBroadcast T mnb) mnb)
      cases hupdated : mnb.checkAndUpdate T env (man.recordBroadcast T mnb) with
      | mk man' good =>
        rw [hupdated] at hupdate
        cases good with
        | false => exact hupdate
        | true =>
          dsimp only at hupdate ⊢
          split
          · exact hupdate
          · have hadd := hupdate.checkInputsAndAdd T env mnb
            cases hadded : mnb.checkInputsAndAdd T env man' with
            | mk man'' added =>
              rw [hadded] at hadd
              cases added <;> exact hadd

theorem processBroadcast_vins {pmn : CMasternode}
    (hfind : (mnb.checkAndUpdate T env (man.recordBroadcast T mnb)).1.find mnb.vin = some pmn)
    (henabled : pmn.isEnabled = true) : (man.processBroadcast T env mnb).1.vins = man.vins := by
  unfold processBroadcast
  split
  · rfl
  · split
    · rfl
    · have hupdate : (mnb.checkAndUpdate T env (man.recordBroadcast T mnb)).1.vins = man.vins :=
        broadcast_vins T env (man.recordBroadcast T mnb) mnb
      cases hupdated : mnb.checkAndUpdate T env (man.recordBroadcast T mnb) with
      | mk man' good =>
        rw [hupdated] at hupdate hfind
        dsimp only at hfind hupdate
        cases good with
        | false => exact hupdate
        | true =>
          dsimp only
          split
          · exact hupdate
          · have hsame : mnb.checkInputsAndAdd T env man' = (man', true) := by
              unfold CMasternodeBroadcast.checkInputsAndAdd
              rw [hfind]
              dsimp only
              rw [if_pos henabled, ite_self]
            rw [hsame]
            exact hupdate

theorem processPing_vins (T : MasternodeText) (env : MasternodeEnv) (man : CMasternodeMan)
    (mnp : CMasternodePing) : (man.processPing T env mnp).1.vins = man.vins := by
  unfold processPing
  split
  · rfl
  · split
    · rfl
    · have hping := ping_map stable_vin T env (man.recordPing T mnp) mnp true
      split <;> rename_i heq <;> rw [heq] at hping
      · exact hping
      · refine Eq.trans (congrArg (List.map _) ?_) hping
        exact pingFailed_vMasternodes env _ mnp _

theorem updateMasternodeList_vins (T : MasternodeText) (env : MasternodeEnv) {man : CMasternodeMan}
    (h : (man.find mnb.vin).isSome = true) :
    (man.updateMasternodeList T env mnb).vins = man.vins := by
  unfold updateMasternodeList
  dsimp only
  split
  · rename_i hnone
    have hnone' : man.find mnb.vin = none := hnone
    rw [hnone'] at h
    simp at h
  · exact updateFromNewBroadcast_vins T env _ _ mnb

theorem Unique.updateMasternodeList (h : man.Unique) (mnb : CMasternodeBroadcast) :
    (man.updateMasternodeList T env mnb).Unique := by
  unfold CMasternodeMan.updateMasternodeList
  dsimp only
  generalize hseen : ({ man with mapSeenMasternodeBroadcast := _, mapSeenMasternodePing := _ } :
    CMasternodeMan) = seen
  have hunique : seen.Unique := by
    rw [← hseen]
    exact h
  split
  · exact hunique.add _
  · exact hunique.congr (updateFromNewBroadcast_vins T env seen _ mnb)

theorem Unique.call (h : man.Unique) (c : Call) : (man.call T c).Unique := by
  cases c with
  | broadcast env mnb => exact h.processBroadcast mnb
  | ping env mnp => exact h.congr (processPing_vins T env man mnp)
  | updateMasternodeList env mnb => exact h.updateMasternodeList mnb
  | add mn => exact h.add mn
  | remove vin => exact h.remove vin
  | check env => exact h.congr (check_vins man env)
  | checkAndRemove env nTime nMinProtocol forceExpiredRemoval =>
    exact (h.congr (check_vins man env)).sublist List.filter_sublist

theorem unique_afterCalls (T : MasternodeText) (calls : List Call) :
    (afterCalls T calls).Unique := by
  induction calls using List.reverseRecOn with
  | nil => exact List.nodup_nil
  | append_singleton calls c ih =>
    rw [afterCalls, List.foldl_append]
    exact ih.call c

/--
**One entry a collateral.** After any sequence of calls no two entries have one outpoint;
and an update, be it from a broadcast, by the wallet or from a ping, keeps the place and the
input of every entry. So does a whole delivery of a broadcast that leaves its entry enabled;
a disabled one is taken out, and comes back at the end if its collateral is still good.
-/
theorem prevouts_nodup (T : MasternodeText) (calls : List Call) :
    let man := afterCalls T calls
    (man.vMasternodes.map prevoutOf).Nodup ∧ (∀ (env : MasternodeEnv) (mnb : CMasternodeBroadcast),
        (mnb.checkAndUpdate T env man).1.vins = man.vins) ∧
      (∀ (env : MasternodeEnv) (mnb : CMasternodeBroadcast) (pmn : CMasternode),
        (mnb.checkAndUpdate T env (man.recordBroadcast T mnb)).1.find mnb.vin = some pmn →
          pmn.isEnabled = true → (man.processBroadcast T env mnb).1.vins = man.vins) ∧
      (∀ (env : MasternodeEnv) (mnb : CMasternodeBroadcast), (man.find mnb.vin).isSome = true →
        (man.updateMasternodeList T env mnb).vins = man.vins) ∧
      ∀ (env : MasternodeEnv) (mnp : CMasternodePing),
        (man.processPing T env mnp).1.vins = man.vins := by
  refine ⟨unique_afterCalls T calls, ?_, ?_, ?_, ?_⟩
  · intro env mnb
    exact broadcast_vins T env _ mnb
  · intro env mnb pmn hfind henabled
    exact processBroadcast_vins hfind henabled
  · intro env mnb hfound
    exact updateMasternodeList_vins T env hfound
  · intro env mnp
    exact processPing_vins T env _ mnp

end CMasternodeMan

end BitBlocks
