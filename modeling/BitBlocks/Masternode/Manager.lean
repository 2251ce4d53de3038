import BitBlocks.Lib.Table
import BitBlocks.Masternode.Masternode
import BitBlocks.Node.Params

/-!
# The masternode list

`CMasternodeMan` (`masternodeman.cpp`) with the two messages that change its list:
`CMasternodeBroadcast::CheckAndUpdate` and `CheckInputsAndAdd` for `mnb`, and
`CMasternodePing::CheckAndUpdate` for `mnp` (`masternode.cpp`). An entry is updated in
place, through the pointer `Find` returned.

A ping that fails has the peer asked for the entry with `dseg`, unless it was asked for
lately. Left out are the scores of peers, what is relayed, and the counts of
`masternodeSync`: none of them is read by these handlers.
-/

namespace BitBlocks

open Table MasternodeState

/-- What the handlers read of the rest of the node while one message is processed. -/
structure MasternodeEnv where
  /-- Not lite mode, and `masternodeSync.IsBlockchainSynced()`. -/
  fActive : Bool
  /-- `GetAdjustedTime()`. -/
  nAdjustedTime : Int
  /-- `GetTime()`. -/
  nTime : Int
  /-- `masternodePayments.GetMinMasternodePaymentsProto()`. -/
  nMinProtocol : Int
  /-- `obfuScationSigner.VerifyMessage`. -/
  verifyMessage : CPubKey → List UInt8 → List Char → Bool
  /-- `Params().NetworkID() == CBaseChainParams::MAIN`. -/
  fMain : Bool
  /-- The height of an indexed block, and `chainActive.Height()`. -/
  blockHeight : Uint256 → Option Int
  nChainHeight : Int
  /-- `fMasterNode`, and `vin.prevout` and `pubKeyMasternode` of `activeMasternode`. -/
  fMasterNode : Bool
  activeVin : COutPoint
  activeKey : CPubKey
  /-- The outputs of the transaction `GetTransaction` finds. -/
  getTransaction : Uint256 → Option (List CTxOut)
  /-- `GetInputAge`. -/
  getInputAge : CTxIn → Int
  /--
  The time of the block that gave the transaction its `MASTERNODE_MIN_CONFIRMATIONS`,
  if the block with the transaction is known.
  -/
  confTime : Uint256 → Option Int
  /-- The node at the `Check` of a ping, at that of a broadcast, and at the trial spend. -/
  atPing : CheckEnv
  atUpdate : CheckEnv
  atAdd : CheckEnv

/-- `Params().MasternodeCollateralLimit()`. -/
def nMasternodeCollateralLimit : Int := 150000

structure CMasternodeMan where
  vMasternodes : List CMasternode := []
  mapSeenMasternodeBroadcast : AList (fun _ : Uint256 => CMasternodeBroadcast) := ∅
  mapSeenMasternodePing : AList (fun _ : Uint256 => CMasternodePing) := ∅
  /-- The time from which an entry may be asked for again. -/
  mWeAskedForMasternodeListEntry : AList (fun _ : COutPoint => Int) := ∅

inductive Handled where
  | inactive
  | seen
  | failed
  /-- It failed, and the peer was sent a `dseg`. -/
  | asked
  | accepted
deriving DecidableEq, Repr

namespace CMasternodeMan

/-! ## Entries -/

def prevoutOf (mn : CMasternode) : COutPoint := mn.vin.prevout

/-- `Find` by the input of the collateral. -/
def find (man : CMasternodeMan) (vin : CTxIn) : Option CMasternode :=
  Rows.first prevoutOf vin.prevout man.vMasternodes

/-- A write through the pointer `Find` returns. -/
def write (man : CMasternodeMan) (vin : CTxIn) (f : CMasternode → CMasternode) : CMasternodeMan :=
  { man with vMasternodes := Rows.writeFirst prevoutOf vin.prevout f man.vMasternodes }

def add (man : CMasternodeMan) (mn : CMasternode) : CMasternodeMan × Bool :=
  if !mn.isEnabled then (man, false)
  else
    match man.find mn.vin with
    | none => ({ man with vMasternodes := man.vMasternodes ++ [mn] }, true)
    | some _ => (man, false)

/-- The first entry with the very input, not just its outpoint, goes. -/
def remove (man : CMasternodeMan) (vin : CTxIn) : CMasternodeMan :=
  { man with vMasternodes := man.vMasternodes.eraseP fun mn => mn.vin == vin }

/-- `mapSeenMasternodeBroadcast.erase`. -/
def forgetBroadcast (man : CMasternodeMan) (hash : Uint256) : CMasternodeMan :=
  { man with mapSeenMasternodeBroadcast := man.mapSeenMasternodeBroadcast.erase hash }

/-- `lastPing` of a broadcast that was seen is brought up to date. -/
def refreshBroadcast (man : CMasternodeMan) (hash : Uint256) (mnp : CMasternodePing) :
    CMasternodeMan :=
  match man.mapSeenMasternodeBroadcast.lookup hash with
  | none => man
  | some mnb =>
    { man with
      mapSeenMasternodeBroadcast := man.mapSeenMasternodeBroadcast.insert hash
        { mnb with lastPing := mnp } }

/-- The entry was asked for, and it is too soon to ask again. -/
def askedRecently (man : CMasternodeMan) (nTime : Int) (prevout : COutPoint) : Bool :=
  (man.mWeAskedForMasternodeListEntry.lookup prevout).any fun t => decide (nTime < t)

/-- `AskForMN`, and whether the peer is sent a `dseg`. -/
def askForMN (man : CMasternodeMan) (nTime : Int) (vin : CTxIn) : CMasternodeMan × Bool :=
  if man.askedRecently nTime vin.prevout then (man, false)
  else
    ({ man with
      mWeAskedForMasternodeListEntry := man.mWeAskedForMasternodeListEntry.insert vin.prevout
          (nTime + MASTERNODE_MIN_MNP_SECONDS) }, true)

end CMasternodeMan

/-! ## Pings -/

/-- The ping is the last one of the entry, which is checked at once. -/
def CMasternode.takePing (env : CheckEnv) (mnp : CMasternodePing) (mn : CMasternode) :
    CMasternode :=
  ({ mn with lastPing := mnp } : CMasternode).check env true

section

variable (T : MasternodeText) (env : MasternodeEnv)

/-- `CMasternodePing::CheckAndUpdate`. -/
def CMasternodePing.checkAndUpdate (man : CMasternodeMan) (mnp : CMasternodePing)
    (fRequireEnabled : Bool) : CMasternodeMan × Bool :=
  if mnp.sigTime > env.nAdjustedTime + 60 * 60 then (man, false)
  else if mnp.sigTime ≤ env.nAdjustedTime - 60 * 60 then (man, false)
  else
    match man.find mnp.vin with
    | none => (man, false)
    | some pmn =>
      if pmn.protocolVersion < env.nMinProtocol then (man, false)
      else if fRequireEnabled && !pmn.isEnabled then (man, false)
      else if pmn.isPingedWithin env.nAdjustedTime (MASTERNODE_MIN_MNP_SECONDS - 60)
        mnp.sigTime then
        (man, false)
      else if !env.verifyMessage pmn.pubKeyMasternode mnp.vchSig (mnp.strMessage T) then
        (man, false)
      else
        match env.blockHeight mnp.blockHash with
        | none => (man, false)
        | some nHeight =>
          if nHeight < env.nChainHeight - 24 then (man, false)
          else
            let man := man.refreshBroadcast (CMasternodeBroadcast.getHash T ⟨pmn⟩) mnp
            (man.write mnp.vin (CMasternode.takePing env.atPing mnp),
              (pmn.takePing env.atPing mnp).isEnabled)

/-- What `CMasternodePing::CheckAndUpdate` leaves in `nDos`. -/
def CMasternodePing.nDos (man : CMasternodeMan) (mnp : CMasternodePing) (fRequireEnabled : Bool) :
    Int :=
  if mnp.sigTime > env.nAdjustedTime + 60 * 60 then 1
  else if mnp.sigTime ≤ env.nAdjustedTime - 60 * 60 then 1
  else
    match man.find mnp.vin with
    | none => 0
    | some pmn =>
      if pmn.protocolVersion < env.nMinProtocol then 0
      else if fRequireEnabled && !pmn.isEnabled then 0
      else if pmn.isPingedWithin env.nAdjustedTime (MASTERNODE_MIN_MNP_SECONDS - 60)
        mnp.sigTime then
        0
      else if !env.verifyMessage pmn.pubKeyMasternode mnp.vchSig (mnp.strMessage T) then 33
      else 0

/-! ## Broadcasts -/

/-- The data of a newer broadcast, in the entry. -/
def CMasternode.renew (mnb : CMasternodeBroadcast) (mn : CMasternode) : CMasternode :=
  { mn with
    pubKeyMasternode := mnb.pubKeyMasternode
    pubKeyCollateralAddress := mnb.pubKeyCollateralAddress
    sigTime := mnb.sigTime
    sig := mnb.sig
    protocolVersion := mnb.protocolVersion
    addr := mnb.addr }

/-- The ping of a broadcast is good, or is the empty one. -/
def CMasternodeMan.checkPing (man : CMasternodeMan) (lastPing : CMasternodePing) :
    CMasternodeMan × Bool :=
  if lastPing.same CMasternodePing.null then (man, true)
  else lastPing.checkAndUpdate T env man false

/-- What `CMasternode::UpdateFromNewBroadcast` does with a newer broadcast. -/
def CMasternodeMan.renewEntry (man : CMasternodeMan) (mnb : CMasternodeBroadcast) :
    CMasternodeMan :=
  match (man.write mnb.vin (CMasternode.renew mnb)).checkPing T env mnb.lastPing with
  | (man, false) => man
  | (man, true) =>
    let man := man.write mnb.vin fun mn => { mn with lastPing := mnb.lastPing }
    { man with
      mapSeenMasternodePing :=
        insertNew man.mapSeenMasternodePing (mnb.lastPing.getHash T) mnb.lastPing }

/-- `CMasternode::UpdateFromNewBroadcast`, for the entry `pmn` found for the input of `mnb`. -/
def CMasternodeMan.updateFromNewBroadcast (man : CMasternodeMan) (pmn : CMasternode)
    (mnb : CMasternodeBroadcast) : CMasternodeMan × Bool :=
  if mnb.sigTime > pmn.sigTime then (man.renewEntry T env mnb, true) else (man, false)

namespace CMasternodeBroadcast

/-- The checks of `CheckAndUpdate` that look at the message alone, up to the signature. -/
def checkMessage (mnb : CMasternodeBroadcast) : Bool :=
  if mnb.sigTime > env.nAdjustedTime + 60 * 60 then false
  else if mnb.protocolVersion < env.nMinProtocol then false
  else if (T.scriptForKey mnb.pubKeyCollateralAddress).length ≠ 25 then false
  else if (T.scriptForKey mnb.pubKeyMasternode).length ≠ 25 then false
  else if !mnb.vin.scriptSig.isEmpty then false
  else if !env.verifyMessage mnb.pubKeyCollateralAddress mnb.sig (mnb.strMessage T) then false
  else if env.fMain then mnb.addr.port == 58697
  else mnb.addr.port != 58697

def checkAndUpdate (man : CMasternodeMan) (mnb : CMasternodeBroadcast) : CMasternodeMan × Bool :=
  if !mnb.checkMessage T env then (man, false)
  else
    match man.find mnb.vin with
    | none => (man, true)
    | some pmn =>
      -- this broadcast is older than the one we have
      if pmn.sigTime > mnb.sigTime then (man, false)
      else if !pmn.isEnabled then (man, true)
      else if pmn.pubKeyCollateralAddress = mnb.pubKeyCollateralAddress ∧
          !pmn.isBroadcastedWithin env.nAdjustedTime MASTERNODE_MIN_MNB_SECONDS then
        match man.updateFromNewBroadcast T env pmn mnb with
        | (man, true) => (man.write mnb.vin fun mn => mn.check env.atUpdate, true)
        | (man, false) => (man, true)
      else (man, true)

/-- The trial spend and what follows it. -/
def checkInputs (man : CMasternodeMan) (mnb : CMasternodeBroadcast) : CMasternodeMan × Bool :=
  if !env.atAdd.fLockMain then (man.forgetBroadcast (mnb.getHash T), false)
  else if !env.atAdd.acceptableInputs mnb.vin then (man, false)
  else if env.getInputAge mnb.vin < MASTERNODE_MIN_CONFIRMATIONS then
    (man.forgetBroadcast (mnb.getHash T), false)
  else if (env.confTime mnb.vin.prevout.hash).any fun nTime => decide (nTime > mnb.sigTime) then
    (man, false)
  else ((man.add (CMasternode.ofBroadcast mnb)).1, true)

def checkInputsAndAdd (man : CMasternodeMan) (mnb : CMasternodeBroadcast) : CMasternodeMan × Bool :=
  -- our own masternode
  if env.fMasterNode && mnb.vin.prevout == env.activeVin &&
    mnb.pubKeyMasternode == env.activeKey then
    (man, true)
  else
    match man.find mnb.vin with
    | none => mnb.checkInputs T env man
    | some pmn =>
      if pmn.isEnabled then (man, true)
      else mnb.checkInputs T env (man.remove pmn.vin)

/-- `CObfuScationSigner::IsVinAssociatedWithPubkey`. -/
def isVinAssociatedWithPubkey (vin : CTxIn) (pubkey : CPubKey) : Bool :=
  match env.getTransaction vin.prevout.hash with
  | none => false
  | some vout => vout.any fun out =>
    decide (out.nValue = nMasternodeCollateralLimit * COIN) &&
      decide (out.scriptPubKey = T.scriptForKey pubkey)

end CMasternodeBroadcast

/-! ## What the checks come down to -/

/-- The ping passes every check, for the entry found for its input. -/
def CMasternodePing.isTaken (mnp : CMasternodePing) (pmn : CMasternode) (fRequireEnabled : Bool) :
    Bool :=
  decide (mnp.sigTime ≤ env.nAdjustedTime + 60 * 60) &&
    decide (env.nAdjustedTime - 60 * 60 < mnp.sigTime) &&
    decide (env.nMinProtocol ≤ pmn.protocolVersion) && (!fRequireEnabled || pmn.isEnabled) &&
    !pmn.isPingedWithin env.nAdjustedTime (MASTERNODE_MIN_MNP_SECONDS - 60) mnp.sigTime &&
    env.verifyMessage pmn.pubKeyMasternode mnp.vchSig (mnp.strMessage T) &&
    (env.blockHeight mnp.blockHash).any fun nHeight => decide (env.nChainHeight - 24 ≤ nHeight)

/-- **A ping** is taken by the entry it finds, or changes nothing. -/
theorem CMasternodePing.checkAndUpdate_eq (man : CMasternodeMan) (mnp : CMasternodePing)
    (fRequireEnabled : Bool) : mnp.checkAndUpdate T env man fRequireEnabled =
      match man.find mnp.vin with
      | none => (man, false)
      | some pmn =>
        if mnp.isTaken T env pmn fRequireEnabled then
          ((man.refreshBroadcast (CMasternodeBroadcast.getHash T ⟨pmn⟩) mnp).write mnp.vin
            (CMasternode.takePing env.atPing mnp), (pmn.takePing env.atPing mnp).isEnabled)
        else (man, false) := by
  unfold CMasternodePing.checkAndUpdate
  cases man.find mnp.vin with
  | none => simp
  | some pmn =>
    dsimp only
    unfold isTaken
    by_cases hlate : mnp.sigTime > env.nAdjustedTime + 60 * 60
    · have hnot : ¬ mnp.sigTime ≤ env.nAdjustedTime + 60 * 60 := by omega
      rw [if_pos hlate, decide_eq_false hnot]
      rfl
    · by_cases hearly : mnp.sigTime ≤ env.nAdjustedTime - 60 * 60
      · have hnot : ¬ env.nAdjustedTime - 60 * 60 < mnp.sigTime := by omega
        rw [if_neg hlate, if_pos hearly, decide_eq_false hnot, Bool.and_false]
        rfl
      · by_cases hproto : pmn.protocolVersion < env.nMinProtocol
        · have hnot : ¬ env.nMinProtocol ≤ pmn.protocolVersion := by omega
          rw [if_neg hlate, if_neg hearly, if_pos hproto, decide_eq_false hnot, Bool.and_false]
          rfl
        · have hlate' : mnp.sigTime ≤ env.nAdjustedTime + 60 * 60 := by omega
          have hearly' : env.nAdjustedTime - 60 * 60 < mnp.sigTime := by omega
          have hproto' : env.nMinProtocol ≤ pmn.protocolVersion := by omega
          rw [if_neg hlate, if_neg hearly, if_neg hproto]
          simp only [hlate', hearly', hproto', decide_true, Bool.true_and]
          cases env.blockHeight mnp.blockHash with
          | none => simp
          | some nHeight =>
            dsimp only
            rw [Option.any_some]
            by_cases hold : nHeight < env.nChainHeight - 24
            · have hold' : ¬ env.nChainHeight - 24 ≤ nHeight := by omega
              simp [hold, hold']
            · have hold' : env.nChainHeight - 24 ≤ nHeight := by omega
              rw [if_neg hold, decide_eq_true hold', Bool.and_true]
              cases fRequireEnabled <;> cases pmn.isEnabled <;>
                cases pmn.isPingedWithin env.nAdjustedTime (MASTERNODE_MIN_MNP_SECONDS - 60)
                  mnp.sigTime <;>
                cases env.verifyMessage pmn.pubKeyMasternode mnp.vchSig (mnp.strMessage T) <;> rfl

theorem CMasternodeBroadcast.verify_of_checkMessage {T : MasternodeText} {env : MasternodeEnv}
    {mnb : CMasternodeBroadcast} (h : mnb.checkMessage T env = true) :
    env.verifyMessage mnb.pubKeyCollateralAddress mnb.sig (mnb.strMessage T) = true := by
  by_contra hbad
  simp [checkMessage, hbad] at h

/-- A broadcast that gets as far as to update the entry it finds, and is newer. -/
def CMasternodeMan.renews (man : CMasternodeMan) (mnb : CMasternodeBroadcast) : Bool :=
  mnb.checkMessage T env && (man.find mnb.vin).any fun pmn =>
    decide (pmn.sigTime < mnb.sigTime) && pmn.isEnabled &&
      decide (pmn.pubKeyCollateralAddress = mnb.pubKeyCollateralAddress) &&
      !pmn.isBroadcastedWithin env.nAdjustedTime MASTERNODE_MIN_MNB_SECONDS

/-- A good broadcast that is not older than the entry it finds, if it finds one. -/
def CMasternodeMan.admits (man : CMasternodeMan) (mnb : CMasternodeBroadcast) : Bool :=
  mnb.checkMessage T env && (man.find mnb.vin).all fun pmn => decide (pmn.sigTime ≤ mnb.sigTime)

/-- **A broadcast** renews the entry it finds, which is then checked, or changes nothing. -/
theorem CMasternodeBroadcast.checkAndUpdate_eq (man : CMasternodeMan) (mnb : CMasternodeBroadcast) :
    mnb.checkAndUpdate T env man =
      (if man.renews T env mnb then
        (man.renewEntry T env mnb).write mnb.vin fun mn => mn.check env.atUpdate
      else man, man.admits T env mnb) := by
  unfold CMasternodeBroadcast.checkAndUpdate CMasternodeMan.renews CMasternodeMan.admits
    CMasternodeMan.updateFromNewBroadcast
  cases mnb.checkMessage T env with
  | false => rfl
  | true =>
    rw [if_neg (by simp)]
    cases man.find mnb.vin with
    | none => rfl
    | some pmn =>
      dsimp only
      rw [Option.any_some, Option.all_some, Bool.true_and, Bool.true_and]
      by_cases hold : pmn.sigTime > mnb.sigTime
      · have hlt : ¬ pmn.sigTime < mnb.sigTime := by omega
        have hle : ¬ pmn.sigTime ≤ mnb.sigTime := by omega
        simp [hold, hlt, hle]
      · have hle : pmn.sigTime ≤ mnb.sigTime := by omega
        rw [if_neg hold]
        by_cases hlt : pmn.sigTime < mnb.sigTime
        · cases pmn.isEnabled <;>
            by_cases hkey : pmn.pubKeyCollateralAddress = mnb.pubKeyCollateralAddress <;>
            cases pmn.isBroadcastedWithin env.nAdjustedTime MASTERNODE_MIN_MNB_SECONDS <;>
            simp [hlt, hle, hkey]
        · cases pmn.isEnabled <;>
            by_cases hkey : pmn.pubKeyCollateralAddress = mnb.pubKeyCollateralAddress <;>
            cases pmn.isBroadcastedWithin env.nAdjustedTime MASTERNODE_MIN_MNB_SECONDS <;>
            simp [hlt, hle, hkey]

/-! ## The messages and the other calls -/

namespace CMasternodeMan

/-- `mapSeenMasternodeBroadcast.insert`, of a broadcast that was not seen. -/
def recordBroadcast (man : CMasternodeMan) (mnb : CMasternodeBroadcast) : CMasternodeMan :=
  { man with
    mapSeenMasternodeBroadcast := man.mapSeenMasternodeBroadcast.insert (mnb.getHash T) mnb }

/-- `mapSeenMasternodePing.insert`, of a ping that was not seen. -/
def recordPing (man : CMasternodeMan) (mnp : CMasternodePing) : CMasternodeMan :=
  { man with mapSeenMasternodePing := man.mapSeenMasternodePing.insert (mnp.getHash T) mnp }

/-- The `mnb` message. -/
def processBroadcast (man : CMasternodeMan) (mnb : CMasternodeBroadcast) :
    CMasternodeMan × Handled :=
  if !env.fActive then (man, .inactive)
  else if (man.mapSeenMasternodeBroadcast.lookup (mnb.getHash T)).isSome then (man, .seen)
  else
    match mnb.checkAndUpdate T env (man.recordBroadcast T mnb) with
    | (man, false) => (man, .failed)
    | (man, true) =>
      if !CMasternodeBroadcast.isVinAssociatedWithPubkey T env mnb.vin
        mnb.pubKeyCollateralAddress then
        (man, .failed)
      else
        match mnb.checkInputsAndAdd T env man with
        | (man, true) => (man, .accepted)
        | (man, false) => (man, .failed)

/-- What follows a ping that `CheckAndUpdate` turned down. -/
def pingFailed (man : CMasternodeMan) (mnp : CMasternodePing) (nDoS : Int) :
    CMasternodeMan × Handled :=
  -- nothing significant failed, and it's known: don't ask for the mnb
  if ¬ nDoS > 0 ∧ (man.find mnp.vin).isSome then (man, .failed)
  else
    match man.askForMN env.nTime mnp.vin with
    | (man, true) => (man, .asked)
    | (man, false) => (man, .failed)

/-- The `mnp` message. -/
def processPing (man : CMasternodeMan) (mnp : CMasternodePing) : CMasternodeMan × Handled :=
  if !env.fActive then (man, .inactive)
  else if (man.mapSeenMasternodePing.lookup (mnp.getHash T)).isSome then (man, .seen)
  else
    match mnp.checkAndUpdate T env (man.recordPing T mnp) true with
    | (man, true) => (man, .accepted)
    | (next, false) => next.pingFailed env mnp (mnp.nDos T env (man.recordPing T mnp) true)

theorem pingFailed_writes (man : CMasternodeMan) (mnp : CMasternodePing) (nDoS : Int) :
    ∃ asked, (man.pingFailed env mnp nDoS).1 =
      { man with mWeAskedForMasternodeListEntry := asked } := by
  unfold pingFailed askForMN
  split
  · exact ⟨_, rfl⟩
  · split <;> rename_i heq <;> split at heq <;> cases heq <;> exact ⟨_, rfl⟩

@[simp] theorem pingFailed_vMasternodes (man : CMasternodeMan) (mnp : CMasternodePing)
    (nDoS : Int) :
    (man.pingFailed env mnp nDoS).1.vMasternodes = man.vMasternodes := by
  obtain ⟨asked, hwrites⟩ := pingFailed_writes env man mnp nDoS
  rw [hwrites]

/-- Used by a wallet for the masternodes it starts. -/
def updateMasternodeList (man : CMasternodeMan) (mnb : CMasternodeBroadcast) : CMasternodeMan :=
  let man := { man with
    mapSeenMasternodePing :=
      insertNew man.mapSeenMasternodePing (mnb.lastPing.getHash T) mnb.lastPing
    mapSeenMasternodeBroadcast := insertNew man.mapSeenMasternodeBroadcast (mnb.getHash T) mnb }
  match man.find mnb.vin with
  | none => (man.add (CMasternode.ofBroadcast mnb)).1
  | some pmn => (man.updateFromNewBroadcast T env pmn mnb).1

/-- `CMasternodeMan::Check`; the node may change from one entry to the next. -/
def check (man : CMasternodeMan) (env : CTxIn → CheckEnv) : CMasternodeMan :=
  { man with vMasternodes := man.vMasternodes.map fun mn => mn.check (env mn.vin) }

/-- The test of the loop in `CheckAndRemove`. -/
def isRemoved (nMinProtocol : Int) (forceExpiredRemoval : Bool) (mn : CMasternode) : Bool :=
  mn.activeState == MASTERNODE_REMOVE || mn.activeState == MASTERNODE_VIN_SPENT ||
    (forceExpiredRemoval && mn.activeState == MASTERNODE_EXPIRED) ||
    decide (mn.protocolVersion < nMinProtocol)

/-- `nTime` is `GetTime()`. -/
def checkAndRemove (man : CMasternodeMan) (env : CTxIn → CheckEnv) (nTime nMinProtocol : Int)
    (forceExpiredRemoval : Bool) : CMasternodeMan :=
  let man := man.check env
  let removed := man.vMasternodes.filter (isRemoved nMinProtocol forceExpiredRemoval)
  let nOld := nTime - MASTERNODE_REMOVAL_SECONDS * 2
  { vMasternodes := man.vMasternodes.filter fun mn => !isRemoved nMinProtocol forceExpiredRemoval mn
    mapSeenMasternodeBroadcast := keep
      (fun x => !(removed.any fun mn => x.2.vin == mn.vin) && decide (nOld ≤ x.2.lastPing.sigTime))
      man.mapSeenMasternodeBroadcast
    mapSeenMasternodePing := keep (fun x => decide (nOld ≤ x.2.sigTime)) man.mapSeenMasternodePing
    mWeAskedForMasternodeListEntry := keep
      (fun x => !(removed.any fun mn => x.1 == mn.vin.prevout) && !decide (x.2 < nTime))
      man.mWeAskedForMasternodeListEntry }

/-! ## A small node -/

/-- Small hashes, and no text for addresses and inputs. -/
def sampleText : MasternodeText where
  broadcastHash sigTime pubkey := sigTime.toNat + 100000 * pubkey.length
  pingHash vin sigTime := sigTime.toNat + 100000 * vin.prevout.hash
  serviceToString _ := []
  txInToString _ := []
  getID pubkey := (pubkey ++ List.replicate 20 0).take 20

/-- A node that takes the signature `[1]` for good, and where every transaction is a collateral. -/
def sampleEnv : MasternodeEnv where
  fActive := true
  nAdjustedTime := 10000
  nTime := 10000
  nMinProtocol := 70000
  verifyMessage _ sig _ := sig == [1]
  fMain := true
  blockHeight _ := some 100
  nChainHeight := 100
  fMasterNode := false
  activeVin := COutPoint.null
  activeKey := []
  getTransaction _ := some [⟨nMasternodeCollateralLimit * COIN, sampleText.scriptForKey [7], -10⟩]
  getInputAge _ := 20
  confTime _ := none
  atPing := { nAdjustedTime := 10000, acceptableInputs := fun _ => true }
  atUpdate := { nAdjustedTime := 10000, acceptableInputs := fun _ => true }
  atAdd := { nAdjustedTime := 10000, acceptableInputs := fun _ => true }

/-- The input `5-0`. -/
def sampleVin : CTxIn := ⟨⟨5, 0⟩, [], 2 ^ 32 - 1⟩

end CMasternodeMan

end

end BitBlocks
