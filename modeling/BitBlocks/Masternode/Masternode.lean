import BitBlocks.Primitives.Transaction

/-!
# Masternodes

The entries of the masternode list and the two messages that keep it (`masternode.h`):
the broadcast `mnb`, which a collateral's key signs, and the ping `mnp`, which the
masternode's own key signs. `Check` decides the state of an entry from its last ping and a
trial spend of its collateral.
-/

namespace BitBlocks

def MASTERNODE_MIN_CONFIRMATIONS : Int := 15
def MASTERNODE_MIN_MNP_SECONDS : Int := 10 * 60
def MASTERNODE_MIN_MNB_SECONDS : Int := 5 * 60
def MASTERNODE_EXPIRATION_SECONDS : Int := 120 * 60
def MASTERNODE_REMOVAL_SECONDS : Int := 130 * 60

abbrev CPubKey := List UInt8

/-- An address of a node and its port. -/
structure CService where
  ip : List UInt8
  port : Nat
deriving DecidableEq, Repr

/-- What `CTxIn()` builds. -/
def CTxIn.null : CTxIn := ⟨COutPoint.null, [], 2 ^ 32 - 1⟩

structure CMasternodePing where
  vin : CTxIn
  blockHash : Uint256
  sigTime : Int
  vchSig : List UInt8
deriving DecidableEq, Repr

/-- What `CMasternodePing()` builds. -/
def CMasternodePing.null : CMasternodePing := ⟨CTxIn.null, 0, 0, []⟩

/-- `operator==`: the time and the signature are not compared. -/
def CMasternodePing.same (a b : CMasternodePing) : Bool :=
  decide (a.vin = b.vin) && decide (a.blockHash = b.blockHash)

/-- `CMasternode::state`. -/
inductive MasternodeState where
  | MASTERNODE_PRE_ENABLED
  | MASTERNODE_ENABLED
  | MASTERNODE_EXPIRED
  | MASTERNODE_OUTPOINT_SPENT
  | MASTERNODE_REMOVE
  | MASTERNODE_WATCHDOG_EXPIRED
  | MASTERNODE_POSE_BAN
  | MASTERNODE_VIN_SPENT
  | MASTERNODE_POS_ERROR
deriving DecidableEq, Repr

open MasternodeState

structure CMasternode where
  vin : CTxIn
  addr : CService
  pubKeyCollateralAddress : CPubKey
  pubKeyMasternode : CPubKey
  sig : List UInt8
  activeState : MasternodeState := MASTERNODE_ENABLED
  sigTime : Int
  unitTest : Bool := false
  protocolVersion : Int
  lastPing : CMasternodePing
deriving DecidableEq, Repr

structure CMasternodeBroadcast extends CMasternode
deriving DecidableEq, Repr

/-- What the two messages are hashed and signed as. -/
structure MasternodeText where
  /-- `CHashWriter` on `sigTime` and `pubKeyCollateralAddress`. -/
  broadcastHash : Int → CPubKey → Uint256
  /-- `CHashWriter` on `vin` and `sigTime`. -/
  pingHash : CTxIn → Int → Uint256
  /-- `CService::ToString` and `CTxIn::ToString`. -/
  serviceToString : CService → List Char
  txInToString : CTxIn → List Char
  /-- `CPubKey::GetID`, a hash of 160 bits. -/
  getID : CPubKey → List UInt8

/-- `GetScriptForDestination` of a key. -/
def MasternodeText.scriptForKey (T : MasternodeText) (pubkey : CPubKey) : CScript :=
  [0x76, 0xa9, 0x14] ++ T.getID pubkey ++ [0x88, 0xac]

/-- The bytes of a key as the characters of a string. -/
def CPubKey.chars (pubkey : CPubKey) : List Char := pubkey.map fun b => Char.ofNat b.toNat

/-! ## What is hashed, and what is signed -/

namespace CMasternodeBroadcast

variable (T : MasternodeText) (mnb : CMasternodeBroadcast)

def getHash : Uint256 := T.broadcastHash mnb.sigTime mnb.pubKeyCollateralAddress

/-- What the key of the collateral signs. -/
def strMessage : List Char :=
  T.serviceToString mnb.addr ++ Decimal.text mnb.sigTime ++ mnb.pubKeyCollateralAddress.chars ++
    mnb.pubKeyMasternode.chars ++ Decimal.text mnb.protocolVersion

end CMasternodeBroadcast

namespace CMasternodePing

variable (T : MasternodeText) (mnp : CMasternodePing)

def getHash : Uint256 := T.pingHash mnp.vin mnp.sigTime

/-- What the key of the masternode signs. -/
def strMessage : List Char :=
  T.txInToString mnp.vin ++ uint256ToString mnp.blockHash ++ Decimal.text mnp.sigTime

end CMasternodePing

/-! ## The state of an entry -/

/-- What one call of `CMasternode::Check` finds outside of the entry. -/
structure CheckEnv where
  /-- `ShutdownRequested()`. -/
  fShutdown : Bool := false
  /--
  `GetTime() - lastTimeChecked < MASTERNODE_CHECK_SECONDS`. Which entries have their
  `lastTimeChecked` set back depends on when the vector that holds them is copied.
  -/
  fRecent : Bool := false
  /-- `GetAdjustedTime()`. -/
  nAdjustedTime : Int
  /-- `cs_main` could be locked. -/
  fLockMain : Bool := true
  /-- `AcceptableInputs` of the transaction that would spend the input. -/
  acceptableInputs : CTxIn → Bool

namespace CMasternode

/-- `CMasternode(const CMasternodeBroadcast& mnb)`. -/
def ofBroadcast (mnb : CMasternodeBroadcast) : CMasternode :=
  { mnb.toCMasternode with activeState := MASTERNODE_ENABLED, unitTest := false }

variable (mn : CMasternode)

def isEnabled : Bool := mn.activeState == MASTERNODE_ENABLED

def isBroadcastedWithin (nAdjustedTime seconds : Int) : Bool :=
  decide (nAdjustedTime - mn.sigTime < seconds)

def isPingedWithin (nAdjustedTime seconds : Int) (now : Int := -1) : Bool :=
  let now := if now = -1 then nAdjustedTime else now
  if mn.lastPing.same CMasternodePing.null then false
  else decide (now - mn.lastPing.sigTime < seconds)

def check (env : CheckEnv) (forceCheck : Bool := false) : CMasternode :=
  if env.fShutdown then mn
  else if !forceCheck && env.fRecent then mn
  -- once spent, the checks stop
  else if mn.activeState = MASTERNODE_VIN_SPENT then mn
  else if !mn.isPingedWithin env.nAdjustedTime MASTERNODE_REMOVAL_SECONDS then
    { mn with activeState := MASTERNODE_REMOVE }
  else if !mn.isPingedWithin env.nAdjustedTime MASTERNODE_EXPIRATION_SECONDS then
    { mn with activeState := MASTERNODE_EXPIRED }
  else if !mn.unitTest && !env.fLockMain then mn
  else if !mn.unitTest && !env.acceptableInputs mn.vin then
    { mn with activeState := MASTERNODE_VIN_SPENT }
  else { mn with activeState := MASTERNODE_ENABLED }

theorem check_eq (env : CheckEnv) (forceCheck : Bool) :
    ∃ activeState, mn.check env forceCheck = { mn with activeState := activeState } := by
  unfold check
  split
  · exact ⟨mn.activeState, rfl⟩
  · split
    · exact ⟨mn.activeState, rfl⟩
    · split
      · exact ⟨mn.activeState, rfl⟩
      · split
        · exact ⟨MASTERNODE_REMOVE, rfl⟩
        · split
          · exact ⟨MASTERNODE_EXPIRED, rfl⟩
          · split
            · exact ⟨mn.activeState, rfl⟩
            · split
              · exact ⟨MASTERNODE_VIN_SPENT, rfl⟩
              · exact ⟨MASTERNODE_ENABLED, rfl⟩

@[simp] theorem check_vin (env : CheckEnv) (forceCheck : Bool) :
    (mn.check env forceCheck).vin = mn.vin := by
  obtain ⟨activeState, h⟩ := mn.check_eq env forceCheck
  rw [h]

theorem isPingedWithin_state (activeState : MasternodeState) (nAdjustedTime seconds now : Int) :
    ({ mn with activeState := activeState } : CMasternode).isPingedWithin nAdjustedTime
    seconds now =
      mn.isPingedWithin nAdjustedTime seconds now := rfl

theorem check_check (env : CheckEnv) (forceCheck : Bool) :
    (mn.check env forceCheck).check env forceCheck = mn.check env forceCheck := by
  by_cases hshutdown : env.fShutdown = true
  · simp [check, hshutdown]
  by_cases hrecent : (!forceCheck && env.fRecent) = true
  · simp [check, hrecent]
  by_cases hspent : mn.activeState = MASTERNODE_VIN_SPENT
  · simp [check, hspent]
  by_cases hremoval : (!mn.isPingedWithin env.nAdjustedTime MASTERNODE_REMOVAL_SECONDS) = true
  · simp [check, hshutdown, hrecent, hspent, hremoval, isPingedWithin_state]
  by_cases hexpiration : (!mn.isPingedWithin env.nAdjustedTime MASTERNODE_EXPIRATION_SECONDS) = true
  · simp [check, hshutdown, hrecent, hspent, hremoval, hexpiration, isPingedWithin_state]
  by_cases hunlocked : (!mn.unitTest && !env.fLockMain) = true
  · simp [check, hshutdown, hrecent, hspent, hremoval, hexpiration, hunlocked]
  by_cases hgone : (!mn.unitTest && !env.acceptableInputs mn.vin) = true
  · simp [check, hshutdown, hrecent, hspent, hremoval, hexpiration, hunlocked, hgone]
  · simp [check, hshutdown, hrecent, hspent, hremoval, hexpiration, hunlocked, hgone,
      isPingedWithin_state]

end CMasternode

end BitBlocks
