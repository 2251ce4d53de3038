import BitBlocks.Lib.Machine
import BitBlocks.Masternode.Unique

/-!
# Messages that fail verification

A broadcast or a ping is entered as seen, under a hash that covers two of its fields,
before anything about it is checked; what comes later under that hash is dropped. So a
message with a bad signature suppresses the good one it shares its hash with, if it comes
first. A ping that fails has the peer asked for its entry, and a later one that fails does
not have it asked again within ten minutes. These, and a broadcast whose collateral check
comes too late to stop an update, are the only ways a message that fails verification has
an effect.

Two runs are compared, one of which never gets the messages that fail. Their lists are
always the same; what they have seen and asked for differs, but not on the hashes and the
outpoints still to come.
-/

namespace BitBlocks

open Table

inductive MasternodeMessage where
  | broadcast (mnb : CMasternodeBroadcast)
  | ping (mnp : CMasternodePing)

/-- A message and the node it arrives at. -/
structure MasternodeDelivery where
  env : MasternodeEnv
  message : MasternodeMessage

namespace CMasternodeMan

variable (T : MasternodeText)

def deliver (man : CMasternodeMan) (x : MasternodeDelivery) : CMasternodeMan × Handled :=
  match x.message with
  | .broadcast mnb => man.processBroadcast T x.env mnb
  | .ping mnp => man.processPing T x.env mnp

/--
The signature of the message is bad, or its collateral is not the sender's. A ping for a
masternode that is not in the list cannot be verified.
-/
def failsVerification (man : CMasternodeMan) (x : MasternodeDelivery) : Bool :=
  match x.message with
  | .broadcast mnb =>
    !x.env.verifyMessage mnb.pubKeyCollateralAddress mnb.sig (mnb.strMessage T) ||
      !CMasternodeBroadcast.isVinAssociatedWithPubkey T x.env mnb.vin mnb.pubKeyCollateralAddress
  | .ping mnp =>
    match man.find mnp.vin with
    | none => true
    | some pmn => !x.env.verifyMessage pmn.pubKeyMasternode mnp.vchSig (mnp.strMessage T)

def isRecorded (man : CMasternodeMan) (x : MasternodeDelivery) : Bool := x.env.fActive &&
    match x.message with
    | .broadcast mnb => !(man.mapSeenMasternodeBroadcast.lookup (mnb.getHash T)).isSome
    | .ping mnp => !(man.mapSeenMasternodePing.lookup (mnp.getHash T)).isSome

/-- Two messages of one kind with one hash. -/
def sharesHash : MasternodeMessage → MasternodeMessage → Bool
  | .broadcast a, .broadcast b => a.getHash T == b.getHash T
  | .ping a, .ping b => a.getHash T == b.getHash T
  | _, _ => false

/-- The ping is turned down, for something significant or because it is of no entry. -/
def getsToAsk (man : CMasternodeMan) (env : MasternodeEnv) (mnp : CMasternodePing) : Bool :=
  isRecorded T man ⟨env, .ping mnp⟩ &&
    match mnp.checkAndUpdate T env (man.recordPing T mnp) true with
    | (_, true) => false
    | (next, false) =>
      !decide (¬ mnp.nDos T env (man.recordPing T mnp) true > 0 ∧ (next.find mnp.vin).isSome)

/-- When the pings that are to be handled later get to ask, and for which outpoints. -/
def asksAhead : List (Bool × MasternodeDelivery) → CMasternodeMan → List (Int × COutPoint)
  | [], _ => []
  | (marked, x) :: later, man =>
    (match marked, x.message with
      | false, .ping mnp =>
        if getsToAsk T man x.env mnp then [(x.env.nTime, mnp.vin.prevout)] else []
      | _, _ => []) ++
    asksAhead later (man.deliver T x).1

/--
A message that fails verification does no harm: if it is entered as seen, it updates no
entry, and no message that is to be handled later has its hash; and if it asks for an entry,
no ping that comes later gets to ask for that one within ten minutes.
-/
structure Harmless (man : CMasternodeMan) (x : MasternodeDelivery)
    (later : List (Bool × MasternodeDelivery)) : Prop where
  noUpdate : isRecorded T man x = true → ∀ mnb, x.message = .broadcast mnb →
    man.renews T x.env mnb = false
  noClash : isRecorded T man x = true → ∀ y, (false, y) ∈ later → y.env.fActive = true →
    sharesHash T x.message y.message = false
  noAsk : ∀ mnp, x.message = .ping mnp → getsToAsk T man x.env mnp = true →
    man.askedRecently x.env.nTime mnp.vin.prevout = false →
    ∀ nTime, (nTime, mnp.vin.prevout) ∈ asksAhead T later (man.deliver T x).1 →
      x.env.nTime + MASTERNODE_MIN_MNP_SECONDS ≤ nTime

variable {T} {man man₁ man₂ : CMasternodeMan} {B P : Uint256 → Prop}
  {A : List (Int × COutPoint)}

/-! ## Messages without effect on the list -/

variable {mnp : CMasternodePing} {later : List (Bool × MasternodeDelivery)} {x : MasternodeDelivery}

theorem ping_eq_of_fails {env : MasternodeEnv} {fRequireEnabled : Bool}
    (h : failsVerification T man ⟨env, .ping mnp⟩ = true) :
    mnp.checkAndUpdate T env man fRequireEnabled = (man, false) := by
  unfold failsVerification at h
  rw [CMasternodePing.checkAndUpdate_eq]
  dsimp only at h
  cases hfind : man.find mnp.vin with
  | none => rfl
  | some pmn =>
    rw [hfind] at h
    dsimp only at h ⊢
    have hbad : env.verifyMessage pmn.pubKeyMasternode mnp.vchSig (mnp.strMessage T) = false := by
      simpa using h
    have hnot : mnp.isTaken T env pmn fRequireEnabled = false := by
      unfold CMasternodePing.isTaken
      rw [hbad, Bool.and_false, Bool.false_and]
    rw [hnot]
    rfl

/-! ## States that differ in what they have seen and asked for -/

/--
The states have one list, and have seen the same of the hashes in question, and asked for
the same of the outpoints at the times in question.
-/
structure Agree (B P : Uint256 → Prop) (A : List (Int × COutPoint))
    (man₁ man₂ : CMasternodeMan) : Prop where
  list : man₁.vMasternodes = man₂.vMasternodes
  broadcasts : ∀ hash, B hash → (man₁.mapSeenMasternodeBroadcast.lookup hash).isSome =
    (man₂.mapSeenMasternodeBroadcast.lookup hash).isSome
  pings : ∀ hash, P hash → (man₁.mapSeenMasternodePing.lookup hash).isSome =
    (man₂.mapSeenMasternodePing.lookup hash).isSome
  asked : ∀ nTime prevout, (nTime, prevout) ∈ A →
    man₁.askedRecently nTime prevout = man₂.askedRecently nTime prevout

/-- The results agree, and the answers are the same. -/
def Alike (B P : Uint256 → Prop) (A : List (Int × COutPoint)) {β : Type}
    (r₁ r₂ : CMasternodeMan × β) : Prop :=
  Agree B P A r₁.1 r₂.1 ∧ r₁.2 = r₂.2

theorem Agree.refl (B P : Uint256 → Prop) (A : List (Int × COutPoint)) (man : CMasternodeMan) :
    Agree B P A man man :=
  ⟨rfl, fun _ _ => rfl, fun _ _ => rfl, fun _ _ _ => rfl⟩

theorem Agree.mono {B' P' : Uint256 → Prop} {A' : List (Int × COutPoint)}
    (h : Agree B P A man₁ man₂) (hB : ∀ hash, B' hash → B hash) (hP : ∀ hash, P' hash → P hash)
    (hA : A' ⊆ A) : Agree B' P' A' man₁ man₂ where
  list := h.list
  broadcasts hash hh := h.broadcasts hash (hB hash hh)
  pings hash hh := h.pings hash (hP hash hh)
  asked nTime prevout ha := h.asked nTime prevout (hA ha)

theorem Agree.find (h : Agree B P A man₁ man₂) (vin : CTxIn) : man₁.find vin = man₂.find vin := by
  unfold CMasternodeMan.find
  rw [h.list]

theorem Agree.write (h : Agree B P A man₁ man₂) (vin : CTxIn) (f : CMasternode → CMasternode) :
    Agree B P A (man₁.write vin f) (man₂.write vin f) := by
  refine ⟨?_, h.broadcasts, h.pings, h.asked⟩
  unfold CMasternodeMan.write
  rw [h.list]

theorem isSome_insert {ν : Type} (m : AList fun _ : Uint256 => ν) (hash k : Uint256) (v : ν) :
    ((m.insert k v).lookup hash).isSome = (decide (hash = k) || (m.lookup hash).isSome) := by
  rw [lookup_insert]
  by_cases hk : hash = k <;> simp [hk]

theorem refreshBroadcast_isSome (man : CMasternodeMan) (hash k : Uint256) (mnp : CMasternodePing) :
    ((man.refreshBroadcast k mnp).mapSeenMasternodeBroadcast.lookup hash).isSome =
      (man.mapSeenMasternodeBroadcast.lookup hash).isSome := by
  unfold refreshBroadcast
  cases hk : man.mapSeenMasternodeBroadcast.lookup k with
  | none => rfl
  | some mnb =>
    dsimp only
    rw [isSome_insert]
    by_cases hsame : hash = k
    · rw [hsame, hk]
      simp
    · simp [hsame]

theorem refreshBroadcast_pings (man : CMasternodeMan) (k : Uint256) (mnp : CMasternodePing) :
    (man.refreshBroadcast k mnp).mapSeenMasternodePing = man.mapSeenMasternodePing := by
  unfold refreshBroadcast
  split <;> rfl

theorem refreshBroadcast_asked (man : CMasternodeMan) (k : Uint256) (mnp : CMasternodePing)
    (nTime : Int) (prevout : COutPoint) :
    (man.refreshBroadcast k mnp).askedRecently nTime prevout = man.askedRecently nTime prevout := by
  unfold refreshBroadcast
  split <;> rfl

theorem Agree.refreshBroadcast (h : Agree B P A man₁ man₂) (k : Uint256) (mnp : CMasternodePing) :
    Agree B P A (man₁.refreshBroadcast k mnp) (man₂.refreshBroadcast k mnp) := by
  constructor
  · rw [refreshBroadcast_vMasternodes, refreshBroadcast_vMasternodes, h.list]
  · intro hash hhash
    rw [refreshBroadcast_isSome, refreshBroadcast_isSome, h.broadcasts hash hhash]
  · intro hash hhash
    rw [refreshBroadcast_pings, refreshBroadcast_pings, h.pings hash hhash]
  · intro nTime prevout hcome
    rw [refreshBroadcast_asked, refreshBroadcast_asked, h.asked nTime prevout hcome]

theorem Agree.forgetBroadcast (h : Agree B P A man₁ man₂) (k : Uint256) :
    Agree B P A (man₁.forgetBroadcast k) (man₂.forgetBroadcast k) := by
  refine ⟨h.list, ?_, h.pings, h.asked⟩
  intro hash hhash
  unfold CMasternodeMan.forgetBroadcast
  dsimp only
  rw [lookup_erase, lookup_erase]
  split
  · rfl
  · exact h.broadcasts hash hhash

theorem Agree.recordBroadcast (h : Agree B P A man₁ man₂) (mnb : CMasternodeBroadcast) :
    Agree B P A (man₁.recordBroadcast T mnb) (man₂.recordBroadcast T mnb) := by
  refine ⟨h.list, ?_, h.pings, h.asked⟩
  intro hash hhash
  unfold CMasternodeMan.recordBroadcast
  rw [isSome_insert, isSome_insert, h.broadcasts hash hhash]

theorem Agree.recordPing (h : Agree B P A man₁ man₂) (mnp : CMasternodePing) :
    Agree B P A (man₁.recordPing T mnp) (man₂.recordPing T mnp) := by
  refine ⟨h.list, h.broadcasts, ?_, h.asked⟩
  intro hash hhash
  unfold CMasternodeMan.recordPing
  rw [isSome_insert, isSome_insert, h.pings hash hhash]

theorem Agree.remove (h : Agree B P A man₁ man₂) (vin : CTxIn) :
    Agree B P A (man₁.remove vin) (man₂.remove vin) := by
  refine ⟨?_, h.broadcasts, h.pings, h.asked⟩
  unfold CMasternodeMan.remove
  rw [h.list]

theorem Agree.add (h : Agree B P A man₁ man₂) (mn : CMasternode) :
    Agree B P A (man₁.add mn).1 (man₂.add mn).1 := by
  unfold CMasternodeMan.add
  rw [h.find mn.vin]
  split
  · exact h
  · split
    · refine ⟨?_, h.broadcasts, h.pings, h.asked⟩
      dsimp only
      rw [h.list]
    · exact h

/-! ## The handlers on states that agree -/

variable {env : MasternodeEnv}

theorem Agree.ping (h : Agree B P A man₁ man₂) (T : MasternodeText)
    (env : MasternodeEnv) (mnp : CMasternodePing) (fRequireEnabled : Bool) :
    Alike B P A (mnp.checkAndUpdate T env man₁ fRequireEnabled)
      (mnp.checkAndUpdate T env man₂ fRequireEnabled) := by
  rw [CMasternodePing.checkAndUpdate_eq, CMasternodePing.checkAndUpdate_eq, h.find mnp.vin]
  cases man₂.find mnp.vin with
  | none => exact ⟨h, rfl⟩
  | some pmn =>
    dsimp only
    split
    · exact ⟨(h.refreshBroadcast _ mnp).write mnp.vin _, rfl⟩
    · exact ⟨h, rfl⟩

theorem Agree.checkPing (h : Agree B P A man₁ man₂) (T : MasternodeText)
    (env : MasternodeEnv) (lastPing : CMasternodePing) :
    Alike B P A (man₁.checkPing T env lastPing) (man₂.checkPing T env lastPing) := by
  unfold CMasternodeMan.checkPing
  split
  · exact ⟨h, rfl⟩
  · exact h.ping T env lastPing false

theorem Agree.renewEntry (h : Agree B P A man₁ man₂) (mnb : CMasternodeBroadcast) :
    Agree B P A (man₁.renewEntry T env mnb) (man₂.renewEntry T env mnb) := by
  unfold CMasternodeMan.renewEntry
  have hping := (h.write mnb.vin (CMasternode.renew mnb)).checkPing T env mnb.lastPing
  cases h1 : (man₁.write mnb.vin (CMasternode.renew mnb)).checkPing T env mnb.lastPing with
  | mk next1 good1 =>
    cases h2 : (man₂.write mnb.vin (CMasternode.renew mnb)).checkPing T env mnb.lastPing with
    | mk next2 good2 =>
      rw [h1, h2] at hping
      obtain ⟨hagree, hgood⟩ := hping
      dsimp only at hagree hgood
      subst hgood
      cases good1 with
      | false => exact hagree
      | true =>
        refine ⟨(hagree.write mnb.vin _).list, hagree.broadcasts, ?_, hagree.asked⟩
        intro hash hhash
        unfold CMasternodeMan.write
        dsimp only
        rw [lookup_insertNew, lookup_insertNew]
        split
        · rfl
        · exact hagree.pings hash hhash

theorem Agree.broadcast (h : Agree B P A man₁ man₂) (T : MasternodeText)
    (env : MasternodeEnv) (mnb : CMasternodeBroadcast) :
    Alike B P A (mnb.checkAndUpdate T env man₁) (mnb.checkAndUpdate T env man₂) := by
  have hrenews : man₁.renews T env mnb = man₂.renews T env mnb := by
    unfold CMasternodeMan.renews
    rw [h.find mnb.vin]
  have hadmits : man₁.admits T env mnb = man₂.admits T env mnb := by
    unfold CMasternodeMan.admits
    rw [h.find mnb.vin]
  rw [CMasternodeBroadcast.checkAndUpdate_eq, CMasternodeBroadcast.checkAndUpdate_eq, hrenews]
  refine ⟨?_, hadmits⟩
  dsimp only
  split
  · exact (h.renewEntry mnb).write mnb.vin _
  · exact h

theorem Agree.checkInputs (h : Agree B P A man₁ man₂) (mnb : CMasternodeBroadcast) :
    Alike B P A (mnb.checkInputs T env man₁) (mnb.checkInputs T env man₂) := by
  unfold CMasternodeBroadcast.checkInputs
  split
  · exact ⟨h.forgetBroadcast _, rfl⟩
  · split
    · exact ⟨h, rfl⟩
    · split
      · exact ⟨h.forgetBroadcast _, rfl⟩
      · split
        · exact ⟨h, rfl⟩
        · exact ⟨h.add _, rfl⟩

theorem Agree.checkInputsAndAdd (h : Agree B P A man₁ man₂) (T : MasternodeText)
    (env : MasternodeEnv) (mnb : CMasternodeBroadcast) :
    Alike B P A (mnb.checkInputsAndAdd T env man₁) (mnb.checkInputsAndAdd T env man₂) := by
  unfold CMasternodeBroadcast.checkInputsAndAdd
  rw [h.find mnb.vin]
  split
  · exact ⟨h, rfl⟩
  · cases man₂.find mnb.vin with
    | none => exact h.checkInputs mnb
    | some pmn =>
      dsimp only
      split
      · exact ⟨h, rfl⟩
      · exact (h.remove pmn.vin).checkInputs mnb

theorem Agree.processBroadcast (h : Agree B P A man₁ man₂) (T : MasternodeText)
    (env : MasternodeEnv) (mnb : CMasternodeBroadcast)
    (hhash : env.fActive = true → B (mnb.getHash T)) :
    (man₁.processBroadcast T env mnb).2 = (man₂.processBroadcast T env mnb).2 ∧
      Agree B P A (man₁.processBroadcast T env mnb).1 (man₂.processBroadcast T env mnb).1 := by
  unfold CMasternodeMan.processBroadcast
  cases hactive : env.fActive with
  | false => exact ⟨rfl, h⟩
  | true =>
    rw [h.broadcasts _ (hhash hactive)]
    have hupdate := (h.recordBroadcast (T := T) mnb).broadcast T env mnb
    cases h1 : mnb.checkAndUpdate T env (man₁.recordBroadcast T mnb) with
    | mk next1 good1 =>
      cases h2 : mnb.checkAndUpdate T env (man₂.recordBroadcast T mnb) with
      | mk next2 good2 =>
        rw [h1, h2] at hupdate
        obtain ⟨hagree, hgood⟩ := hupdate
        dsimp only at hagree hgood
        subst hgood
        cases (man₂.mapSeenMasternodeBroadcast.lookup (mnb.getHash T)).isSome with
        | true => exact ⟨rfl, h⟩
        | false =>
          cases good1 with
          | false => exact ⟨rfl, hagree⟩
          | true =>
            have hadd := hagree.checkInputsAndAdd T env mnb
            cases h3 : mnb.checkInputsAndAdd T env next1 with
            | mk last1 added1 =>
              cases h4 : mnb.checkInputsAndAdd T env next2 with
              | mk last2 added2 =>
                rw [h3, h4] at hadd
                obtain ⟨hlast, hadded⟩ := hadd
                dsimp only at hlast hadded
                subst hadded
                cases CMasternodeBroadcast.isVinAssociatedWithPubkey T env mnb.vin
                  mnb.pubKeyCollateralAddress with
                | false => exact ⟨rfl, hagree⟩
                | true =>
                  simp only [Bool.not_true, Bool.false_eq_true, if_false, h3, h4]
                  cases added1 <;> exact ⟨rfl, hlast⟩

theorem askedRecently_insert (man : CMasternodeMan) (k prevout : COutPoint) (nTime t : Int) :
    ({ man with mWeAskedForMasternodeListEntry :=
        man.mWeAskedForMasternodeListEntry.insert k t } : CMasternodeMan).askedRecently
          nTime prevout =
      if prevout = k then decide (nTime < t) else man.askedRecently nTime prevout := by
  unfold askedRecently
  dsimp only
  rw [lookup_insert]
  split <;> rfl

theorem Agree.askForMN (h : Agree B P A man₁ man₂) {nTime : Int} {vin : CTxIn}
    (hcome : (nTime, vin.prevout) ∈ A) :
    Alike B P A (man₁.askForMN nTime vin) (man₂.askForMN nTime vin) := by
  unfold CMasternodeMan.askForMN
  rw [h.asked nTime vin.prevout hcome]
  split
  · exact ⟨h, rfl⟩
  · refine ⟨⟨h.list, h.broadcasts, h.pings, fun nTime' prevout hcome' => ?_⟩, rfl⟩
    rw [askedRecently_insert, askedRecently_insert, h.asked nTime' prevout hcome']

theorem Agree.pingFailed (h : Agree B P A man₁ man₂) (env : MasternodeEnv) (mnp : CMasternodePing)
    (nDoS : Int) (hcome : ¬ (¬ nDoS > 0 ∧ (man₁.find mnp.vin).isSome) →
      (env.nTime, mnp.vin.prevout) ∈ A) :
    Alike B P A (man₁.pingFailed env mnp nDoS) (man₂.pingFailed env mnp nDoS) := by
  unfold CMasternodeMan.pingFailed
  rw [← h.find mnp.vin]
  by_cases hknown : ¬ nDoS > 0 ∧ (man₁.find mnp.vin).isSome
  · rw [if_pos hknown, if_pos hknown]
    exact ⟨h, rfl⟩
  · rw [if_neg hknown, if_neg hknown]
    have hask := h.askForMN (hcome hknown)
    cases h1 : man₁.askForMN env.nTime mnp.vin with
    | mk next1 sent1 =>
      cases h2 : man₂.askForMN env.nTime mnp.vin with
      | mk next2 sent2 =>
        rw [h1, h2] at hask
        obtain ⟨hagree, hsent⟩ := hask
        dsimp only at hagree hsent
        subst hsent
        cases sent1 <;> exact ⟨hagree, rfl⟩

theorem Agree.nDos (h : Agree B P A man₁ man₂) (T : MasternodeText) (env : MasternodeEnv)
    (mnp : CMasternodePing) (fRequireEnabled : Bool) :
    mnp.nDos T env man₁ fRequireEnabled = mnp.nDos T env man₂ fRequireEnabled := by
  unfold CMasternodePing.nDos
  rw [h.find mnp.vin]

theorem Agree.processPing (h : Agree B P A man₁ man₂) (T : MasternodeText)
    (env : MasternodeEnv) (mnp : CMasternodePing)
    (hhash : env.fActive = true → P (mnp.getHash T))
    (hcome : getsToAsk T man₁ env mnp = true → (env.nTime, mnp.vin.prevout) ∈ A) :
    Alike B P A (man₁.processPing T env mnp) (man₂.processPing T env mnp) := by
  unfold getsToAsk isRecorded at hcome
  unfold CMasternodeMan.processPing
  cases hactive : env.fActive with
  | false => exact ⟨h, rfl⟩
  | true =>
    have hseen := h.pings _ (hhash hactive)
    have hrecorded := h.recordPing (T := T) mnp
    have hupdate := hrecorded.ping T env mnp true
    rw [← hrecorded.nDos T env mnp true, ← hseen]
    cases h1 : mnp.checkAndUpdate T env (man₁.recordPing T mnp) true with
    | mk next1 good1 =>
      cases h2 : mnp.checkAndUpdate T env (man₂.recordPing T mnp) true with
      | mk next2 good2 =>
        rw [h1, h2] at hupdate
        obtain ⟨hagree, hgood⟩ := hupdate
        dsimp only at hagree hgood
        subst hgood
        cases hnew : (man₁.mapSeenMasternodePing.lookup (mnp.getHash T)).isSome with
        | true => exact ⟨h, rfl⟩
        | false =>
          cases good1 with
          | true => exact ⟨hagree, rfl⟩
          | false =>
            refine hagree.pingFailed env mnp _ fun hask => hcome ?_
            dsimp only
            rw [hactive, hnew, h1]
            exact congrArg not (decide_eq_false hask)

/-! ## The two runs -/

variable (T) in
/-- The hash of a broadcast that is still to be handled, and of a ping. -/
def BroadcastToCome (later : List (Bool × MasternodeDelivery)) (hash : Uint256) : Prop :=
  ∃ env mnb, (false, ⟨env, .broadcast mnb⟩) ∈ later ∧ env.fActive = true ∧ hash = mnb.getHash T

variable (T) in
def PingToCome (later : List (Bool × MasternodeDelivery)) (hash : Uint256) : Prop :=
  ∃ env mnp, (false, ⟨env, .ping mnp⟩) ∈ later ∧ env.fActive = true ∧ hash = mnp.getHash T

/-- Agreement on the hashes and the outpoints to come. -/
abbrev AgreeAhead (T : MasternodeText) (later : List (Bool × MasternodeDelivery))
    (man₁ man₂ : CMasternodeMan) : Prop :=
  Agree (BroadcastToCome T later) (PingToCome T later) (asksAhead T later man₁) man₁ man₂

theorem Agree.tail {marked : Bool} {next1 next2 : CMasternodeMan}
    (h : Agree (BroadcastToCome T ((marked, x) :: later)) (PingToCome T ((marked, x) :: later))
      (asksAhead T ((marked, x) :: later) man) next1 next2) :
    Agree (BroadcastToCome T later) (PingToCome T later) (asksAhead T later (man.deliver T x).1)
      next1 next2 := by
  refine h.mono ?_ ?_ ?_
  · intro hash ⟨env, mnb, hmem, hrest⟩
    exact ⟨env, mnb, List.mem_cons_of_mem _ hmem, hrest⟩
  · intro hash ⟨env, mnp, hmem, hrest⟩
    exact ⟨env, mnp, List.mem_cons_of_mem _ hmem, hrest⟩
  · exact List.subset_append_right _ _

theorem renews_recordBroadcast (man : CMasternodeMan) (env : MasternodeEnv)
    (mnb other : CMasternodeBroadcast) :
    (man.recordBroadcast T other).renews T env mnb = man.renews T env mnb := rfl

theorem processBroadcast_of_fails {mnb : CMasternodeBroadcast}
    (hfails : failsVerification T man ⟨env, .broadcast mnb⟩ = true)
    (hrenews : isRecorded T man ⟨env, .broadcast mnb⟩ = true → man.renews T env mnb = false) :
    (man.processBroadcast T env mnb).1 =
      if isRecorded T man ⟨env, .broadcast mnb⟩ then man.recordBroadcast T mnb else man := by
  have hrecorded : isRecorded T man ⟨env, .broadcast mnb⟩ = (env.fActive &&
      !(man.mapSeenMasternodeBroadcast.lookup (mnb.getHash T)).isSome) := rfl
  rw [hrecorded] at hrenews ⊢
  unfold processBroadcast
  cases hactive : env.fActive with
  | false => rfl
  | true =>
    by_cases hseen : (man.mapSeenMasternodeBroadcast.lookup (mnb.getHash T)).isSome = true
    · rw [if_neg (by simp), if_pos hseen, hseen]
      rfl
    · have hseen' : (man.mapSeenMasternodeBroadcast.lookup (mnb.getHash T)).isSome = false := by
        simpa using hseen
      have hkept := hrenews (by rw [hactive, hseen']; rfl)
      rw [if_neg (by simp), if_neg hseen, hseen', CMasternodeBroadcast.checkAndUpdate_eq,
        renews_recordBroadcast, hkept]
      cases hadmits : (man.recordBroadcast T mnb).admits T env mnb with
      | false => rfl
      | true =>
        have hmessage : mnb.checkMessage T env = true := (Bool.and_eq_true_iff.mp hadmits).1
        have hsigned := CMasternodeBroadcast.verify_of_checkMessage hmessage
        unfold failsVerification at hfails
        dsimp only at hfails
        rw [hsigned, Bool.not_true, Bool.false_or, Bool.not_eq_true'] at hfails
        simp only [hfails, Bool.not_false, if_true]
        rfl

theorem processPing_of_fails (hfails : failsVerification T man ⟨env, .ping mnp⟩ = true) :
    (man.processPing T env mnp).1 =
      if isRecorded T man ⟨env, .ping mnp⟩ then
        ((man.recordPing T mnp).pingFailed env mnp (mnp.nDos T env (man.recordPing T mnp) true)).1
      else man := by
  have hrecorded : isRecorded T man ⟨env, .ping mnp⟩ = (env.fActive &&
      !(man.mapSeenMasternodePing.lookup (mnp.getHash T)).isSome) := rfl
  rw [hrecorded]
  unfold processPing
  have hfails' : failsVerification T (man.recordPing T mnp) ⟨env, .ping mnp⟩ = true := hfails
  rw [ping_eq_of_fails hfails']
  cases env.fActive with
  | false => rfl
  | true =>
    by_cases hseen : (man.mapSeenMasternodePing.lookup (mnp.getHash T)).isSome = true
    · rw [if_neg (by simp), if_pos hseen, hseen]
      rfl
    · rw [if_neg (by simp), if_neg hseen]
      simp [hseen]

/-- What a ping that was turned down wrote does not matter to pings of other entries, or later. -/
theorem pingFailed_asked (man : CMasternodeMan) (env : MasternodeEnv) (mnp : CMasternodePing)
    (nDoS nTime : Int) (prevout : COutPoint)
    (hlater : ¬ (¬ nDoS > 0 ∧ (man.find mnp.vin).isSome) →
      man.askedRecently env.nTime mnp.vin.prevout = false → prevout = mnp.vin.prevout →
        env.nTime + MASTERNODE_MIN_MNP_SECONDS ≤ nTime) :
    (man.pingFailed env mnp nDoS).1.askedRecently nTime prevout =
      man.askedRecently nTime prevout := by
  unfold pingFailed
  by_cases hknown : ¬ nDoS > 0 ∧ (man.find mnp.vin).isSome
  · rw [if_pos hknown]
  · rw [if_neg hknown]
    unfold askForMN
    cases hrecent : man.askedRecently env.nTime mnp.vin.prevout with
    | true => rfl
    | false =>
      rw [if_neg Bool.false_ne_true]
      dsimp only
      rw [askedRecently_insert]
      split
      · rename_i hprevout
        have htime := hlater hknown hrecent hprevout
        -- what was asked for before may be asked for again at the later time as well
        have hbefore : man.askedRecently nTime prevout = false := by
          unfold askedRecently at hrecent ⊢
          rw [hprevout]
          cases hlook : man.mWeAskedForMasternodeListEntry.lookup mnp.vin.prevout with
          | none => rfl
          | some t =>
            rw [hlook, Option.any_some, decide_eq_false_iff_not] at hrecent
            rw [Option.any_some, decide_eq_false_iff_not]
            unfold MASTERNODE_MIN_MNP_SECONDS at htime
            omega
        rw [hbefore]
        exact decide_eq_false (by omega)
      · rfl

theorem AgreeAhead.harmless (h : AgreeAhead T ((true, x) :: later) man₁ man₂)
    (hfails : failsVerification T man₁ x = true) (hharmless : Harmless T man₁ x later) :
    AgreeAhead T later (man₁.deliver T x).1 man₂ := by
  have htail := h.tail
  have hnoAsk := hharmless.noAsk
  unfold AgreeAhead
  generalize asksAhead T later (man₁.deliver T x).1 = ahead at htail hnoAsk ⊢
  obtain ⟨env, message⟩ := x
  cases message with
  | broadcast mnb =>
    have hnext : (man₁.deliver T ⟨env, .broadcast mnb⟩).1 =
        if isRecorded T man₁ ⟨env, .broadcast mnb⟩ then man₁.recordBroadcast T mnb else man₁ :=
      processBroadcast_of_fails hfails fun hrecorded => hharmless.noUpdate hrecorded mnb rfl
    rw [hnext]
    split
    · rename_i hrecorded
      refine ⟨htail.list, ?_, htail.pings, htail.asked⟩
      intro hash hcome
      have hne : hash ≠ mnb.getHash T := by
        intro he
        obtain ⟨env', mnb', hmem, hactive, hhash⟩ := hcome
        have hclash := hharmless.noClash hrecorded _ hmem hactive
        simp [sharesHash, ← hhash, he] at hclash
      unfold recordBroadcast
      rw [isSome_insert, decide_eq_false hne, Bool.false_or]
      exact htail.broadcasts hash hcome
    · exact htail
  | ping mnp =>
    have hnext : (man₁.deliver T ⟨env, .ping mnp⟩).1 =
        if isRecorded T man₁ ⟨env, .ping mnp⟩ then
          ((man₁.recordPing T mnp).pingFailed env mnp
            (mnp.nDos T env (man₁.recordPing T mnp) true)).1
        else man₁ := processPing_of_fails hfails
    unfold getsToAsk at hnoAsk
    have hfails' : failsVerification T (man₁.recordPing T mnp) ⟨env, .ping mnp⟩ = true := hfails
    have hnoAsk := hnoAsk mnp rfl
    rw [ping_eq_of_fails hfails'] at hnoAsk
    rw [hnext]
    split
    · rename_i hrecorded
      obtain ⟨asked, hwrites⟩ := pingFailed_writes env (man₁.recordPing T mnp) mnp
        (mnp.nDos T env (man₁.recordPing T mnp) true)
      refine ⟨?_, ?_, ?_, ?_⟩
      · rw [hwrites]
        exact htail.list
      · intro hash hcome
        rw [hwrites]
        exact htail.broadcasts hash hcome
      · intro hash hcome
        have hne : hash ≠ mnp.getHash T := by
          intro he
          obtain ⟨env', mnp', hmem, hactive, hhash⟩ := hcome
          have hclash := hharmless.noClash hrecorded _ hmem hactive
          simp [sharesHash, ← hhash, he] at hclash
        rw [hwrites]
        unfold recordPing
        rw [isSome_insert, decide_eq_false hne, Bool.false_or]
        exact htail.pings hash hcome
      · intro nTime prevout hcome
        have hsame := pingFailed_asked (man₁.recordPing T mnp) env mnp
          (mnp.nDos T env (man₁.recordPing T mnp) true) nTime prevout
          fun hask hrecent hprevout =>
            hnoAsk (by rw [hrecorded]; exact congrArg not (decide_eq_false hask)) hrecent nTime
              (hprevout ▸ hcome)
        rw [hsame]
        exact htail.asked nTime prevout hcome
    · exact htail

theorem AgreeAhead.kept (h : AgreeAhead T ((false, x) :: later) man₁ man₂) :
    (man₁.deliver T x).2 = (man₂.deliver T x).2 ∧
      AgreeAhead T later (man₁.deliver T x).1 (man₂.deliver T x).1 := by
  obtain ⟨env, message⟩ := x
  cases message with
  | broadcast mnb =>
    obtain ⟨hanswer, hagree⟩ := Agree.processBroadcast h T env mnb fun hactive =>
      ⟨env, mnb, List.mem_cons_self, hactive, rfl⟩
    exact ⟨hanswer, hagree.tail⟩
  | ping mnp =>
    obtain ⟨hagree, hanswer⟩ := Agree.processPing h T env mnp
      (fun hactive => ⟨env, mnp, List.mem_cons_self, hactive, rfl⟩)
      fun hask => List.mem_append_left _ (by simp [hask])
    exact ⟨hanswer, hagree.tail⟩

/-- A broadcast for it by the key `[7]`. -/
def sampleBroadcast (sigTime : Int) (sig : List UInt8) : MasternodeDelivery :=
  ⟨sampleEnv, .broadcast ⟨{
    vin := sampleVin, addr := ⟨[], 58697⟩, pubKeyCollateralAddress := [7], pubKeyMasternode := [8],
    sig := sig, sigTime := sigTime, protocolVersion := 70000,
    lastPing := ⟨sampleVin, 1, 9000, [1]⟩ }⟩⟩

end CMasternodeMan

end BitBlocks
