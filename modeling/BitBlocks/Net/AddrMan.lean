import BitBlocks.Lib.Checks
import BitBlocks.Lib.Reader
import BitBlocks.Lib.Hoare
import BitBlocks.Lib.Slots
import BitBlocks.Lib.Table
import BitBlocks.Net.Address

/-!
# The address manager (`addrman.h`, `addrman.cpp`)

Addresses that have not been tried are in up to eight of the "new" buckets,
addresses that have been reached in one of the "tried" buckets; which bucket and
where in it follows from a hash of the address and a secret key. Entries go by a
number, `nId`, and are kept in a map, with a second map from the address to the
number and a vector of all numbers in random order.

A failed assertion stops a program here, as does a number that is looked up in
`mapInfo` and is not there, and a counter of type `int` that would overflow.
-/

namespace BitBlocks

open Hoare

def ADDRMAN_TRIED_BUCKET_COUNT : Nat := 256
def ADDRMAN_NEW_BUCKET_COUNT : Nat := 1024
def ADDRMAN_BUCKET_SIZE : Nat := 64
def ADDRMAN_TRIED_BUCKETS_PER_GROUP : Nat := 8
def ADDRMAN_NEW_BUCKETS_PER_SOURCE_GROUP : Nat := 64
def ADDRMAN_NEW_BUCKETS_PER_ADDRESS : Int := 8
def ADDRMAN_HORIZON_DAYS : Int := 30
def ADDRMAN_RETRIES : Int := 3
def ADDRMAN_MAX_FAILURES : Int := 10
def ADDRMAN_MIN_FAIL_DAYS : Int := 7
def ADDRMAN_GETADDR_MAX_PCT : Nat := 23
def ADDRMAN_GETADDR_MAX : Nat := 2500

/-- Extended statistics about a `CAddress`. -/
structure CAddrInfo extends CAddress where
  /-- Where knowledge about this address first came from. -/
  source : CNetAddr
  /-- Last successful connection by us. -/
  nLastSuccess : Int := 0
  /-- Connection attempts since last successful attempt. -/
  nAttempts : Int := 0
  /-- Reference count in new sets. -/
  nRefCount : Int := 0
  fInTried : Bool := false
  /-- Position in `vRandom`. -/
  nRandomPos : Int := -1
deriving DecidableEq, Repr

/-- `CAddrInfo(addrIn, addrSource)`: the address is copied, and the statistics begin. -/
def CAddrInfo.create (addrIn : CAddress) (addrSource : CNetAddr) : CAddrInfo :=
  { toCAddress := { addrIn with nLastTry := 0 }, source := addrSource }

namespace CAddrInfo

-- `hash64` is the low 64 bits of the hash of what is written
variable (hash64 : List UInt8 → Nat) (nKey : Uint256) (info : CAddrInfo)

/-- A vector of bytes, as it is written. -/
def vch (bytes : List UInt8) : List UInt8 := CompactSize.writeList (fun ch => [ch]) bytes

def getTriedBucket : Nat :=
  let hash1 := hash64 (CompactSize.writeLE 32 nKey ++ vch info.getKey)
  let hash2 := hash64 (CompactSize.writeLE 32 nKey ++ vch (CNetAddr.getGroup info.ip) ++
    CompactSize.writeLE 8 (hash1 % ADDRMAN_TRIED_BUCKETS_PER_GROUP))
  hash2 % ADDRMAN_TRIED_BUCKET_COUNT

def getNewBucket (src : CNetAddr) : Nat :=
  let vchSourceGroupKey := CNetAddr.getGroup src
  let hash1 := hash64 (CompactSize.writeLE 32 nKey ++ vch (CNetAddr.getGroup info.ip) ++
    vch vchSourceGroupKey)
  let hash2 := hash64 (CompactSize.writeLE 32 nKey ++ vch vchSourceGroupKey ++
    CompactSize.writeLE 8 (hash1 % ADDRMAN_NEW_BUCKETS_PER_SOURCE_GROUP))
  hash2 % ADDRMAN_NEW_BUCKET_COUNT

def getBucketPosition (fNew : Bool) (nBucket : Nat) : Nat :=
  hash64 (CompactSize.writeLE 32 nKey ++ [if fNew then 0x4e else 0x4b] ++
    CompactSize.writeLE 4 nBucket ++ vch info.getKey) % ADDRMAN_BUCKET_SIZE

/-- The tried bucket and the position in it. -/
def triedPlace : Nat × Nat := (info.getTriedBucket hash64 nKey,
    info.getBucketPosition hash64 nKey false (info.getTriedBucket hash64 nKey))

def newPlace (nBucket : Nat) : Nat × Nat :=
  (nBucket, info.getBucketPosition hash64 nKey true nBucket)

/-- Whether the statistics about this entry are bad enough so that it can just be deleted. -/
def isTerrible (nNow : Int) : Bool :=
  -- never remove things tried in the last minute
  if info.nLastTry ≠ 0 ∧ info.nLastTry ≥ nNow - 60 then false
  -- came in a flying DeLorean
  else if (info.nTime : Int) > nNow + 10 * 60 then true
  -- not seen in recent history
  else if info.nTime = 0 ∨ nNow - info.nTime > ADDRMAN_HORIZON_DAYS * 24 * 60 * 60 then true
  -- tried N times and never a success
  else if info.nLastSuccess = 0 ∧ info.nAttempts ≥ ADDRMAN_RETRIES then true
  -- N successive failures in the last week
  else if nNow - info.nLastSuccess > ADDRMAN_MIN_FAIL_DAYS * 24 * 60 * 60 ∧
      info.nAttempts ≥ ADDRMAN_MAX_FAILURES then true
  else false

end CAddrInfo

/-- Buckets, by the bucket and the position in it; -1 where nothing is. -/
abbrev Buckets := Nat × Nat → Int

structure CAddrMan where
  /-- Secret key to randomize bucket select with. -/
  nKey : Uint256
  /-- Last used nId. -/
  nIdCount : Int := 0
  mapInfo : AList (fun _ : Int => CAddrInfo) := ∅
  mapAddr : AList (fun _ : CNetAddr => Int) := ∅
  /-- Randomly-ordered vector of all nIds. -/
  vRandom : List Int := []
  nTried : Int := 0
  vvTried : Buckets := fun _ => -1
  /-- Number of (unique) "new" entries. -/
  nNew : Int := 0
  vvNew : Buckets := fun _ => -1

inductive AddrFailure where
  | assertion
  | overflow
deriving DecidableEq, Repr

abbrev AddrM := Prog CAddrMan AddrFailure

namespace CAddrMan

def assert (c : Prop) [Decidable c] : AddrM Unit := if c then pure () else throw .assertion

/-- `n++`, of an `int`. -/
def increment (n : Int) : AddrM Int := if n = 2 ^ 31 - 1 then throw .overflow else pure (n + 1)

/-- `GetRandInt`, from what the random source gives. -/
def getRandInt (nMax draw : Nat) : Nat := if nMax = 0 then 0 else draw % nMax

/-- `mapInfo[nId]`, of a number that is there. -/
def infoAt (nId : Int) : AddrM CAddrInfo := do
  match (← get).mapInfo.lookup nId with
  | none => throw .assertion
  | some info => pure info

def setInfo (nId : Int) (info : CAddrInfo) : AddrM Unit :=
  modify fun s => { s with mapInfo := s.mapInfo.insert nId info }

/-- The number and the entry of an address. -/
def find (s : CAddrMan) (addr : CNetAddr) : Option (Int × CAddrInfo) :=
  match s.mapAddr.lookup addr with
  | none => none
  | some nId => (s.mapInfo.lookup nId).map fun info => (nId, info)

def create (addr : CAddress) (addrSource : CNetAddr) : AddrM Int := do
  let s ← get
  let nIdCount ← increment s.nIdCount
  set { s with
    nIdCount
    mapInfo := s.mapInfo.insert s.nIdCount
      { CAddrInfo.create addr addrSource with nRandomPos := s.vRandom.length }
    mapAddr := s.mapAddr.insert addr.ip s.nIdCount
    vRandom := s.vRandom ++ [s.nIdCount] }
  pure s.nIdCount

def swapRandom (nRndPos1 nRndPos2 : Nat) : AddrM Unit := do
  if nRndPos1 = nRndPos2 then pure ()
  else
    let s ← get
    match s.vRandom[nRndPos1]?, s.vRandom[nRndPos2]? with
    | some nId1, some nId2 =>
      let info1 ← infoAt nId1
      setInfo nId1 { info1 with nRandomPos := nRndPos2 }
      let info2 ← infoAt nId2
      setInfo nId2 { info2 with nRandomPos := nRndPos1 }
      modify fun s => { s with vRandom := (s.vRandom.set nRndPos1 nId2).set nRndPos2 nId1 }
    | _, _ => throw .assertion

/-- Delete an entry. It must not be in tried, and have refcount 0. -/
def delete (nId : Int) : AddrM Unit := do
  let info ← infoAt nId
  assert (info.fInTried = false)
  assert (info.nRefCount = 0)
  swapRandom info.nRandomPos.toNat ((← get).vRandom.length - 1)
  modify fun s => { s with
    vRandom := s.vRandom.dropLast
    mapAddr := s.mapAddr.erase info.ip
    mapInfo := s.mapInfo.erase nId
    nNew := s.nNew - 1 }

/-- Take the reference of a "new" place away from the entry. -/
def unref (place : Nat × Nat) (nId : Int) : AddrM CAddrInfo := do
  let info ← infoAt nId
  setInfo nId { info with nRefCount := info.nRefCount - 1 }
  modify fun s => { s with vvNew := Function.update s.vvNew place (-1) }
  pure info

/-- Clear a position in a "new" table. This is the only place where entries are actually deleted. -/
def clearNew (place : Nat × Nat) : AddrM Unit := do
  let nIdDelete := (← get).vvNew place
  if nIdDelete ≠ -1 then
    let infoDelete ← infoAt nIdDelete
    assert (infoDelete.nRefCount > 0)
    let infoDelete ← unref place nIdDelete
    if infoDelete.nRefCount - 1 = 0 then delete nIdDelete else pure ()
  else pure ()

/-- Give an entry a place in a "new" table. -/
def enterNew (place : Nat × Nat) (nId : Int) (nRefCount : Int) : AddrM Unit := do
  let info ← infoAt nId
  setInfo nId { info with nRefCount }
  modify fun s => { s with vvNew := Function.update s.vvNew place nId }

section Hashed

variable (hash64 : List UInt8 → Nat)

/-- One round of the loop that removes an entry from all new buckets. -/
def leaveBucket (nId : Int) (bucket : Nat) : AddrM Unit := do
  let s ← get
  let info ← infoAt nId
  if s.vvNew (info.newPlace hash64 s.nKey bucket) = nId then
    let _ ← unref (info.newPlace hash64 s.nKey bucket) nId
    pure ()
  else pure ()

/-- The existing tried entry at the place is moved to new, deleting whatever is there. -/
def evict (place : Nat × Nat) : AddrM Unit := do
  let s ← get
  let nIdEvict := s.vvTried place
  let infoOld ← infoAt nIdEvict
  -- remove the to-be-evicted item from the tried set
  set { s with
    mapInfo := s.mapInfo.insert nIdEvict { infoOld with fInTried := false }
    vvTried := Function.update s.vvTried place (-1)
    nTried := s.nTried - 1 }
  -- find which new bucket it belongs to
  let placeNew := infoOld.newPlace hash64 s.nKey (infoOld.getNewBucket hash64 s.nKey infoOld.source)
  clearNew placeNew
  assert ((← get).vvNew placeNew = -1)
  -- enter it into the new set again
  enterNew placeNew nIdEvict 1
  modify fun s => { s with nNew := s.nNew + 1 }

def makeSpace (place : Nat × Nat) : AddrM Unit := do
  if (← get).vvTried place ≠ -1 then evict hash64 place else pure ()

def makeTried (nId : Int) : AddrM Unit := do
  -- remove the entry from all new buckets
  (List.range ADDRMAN_NEW_BUCKET_COUNT).foldlM (fun _ bucket => leaveBucket hash64 nId bucket) ()
  modify fun s => { s with nNew := s.nNew - 1 }
  let info ← infoAt nId
  assert (info.nRefCount = 0)
  -- which tried bucket to move the entry to
  let place := info.triedPlace hash64 (← get).nKey
  makeSpace hash64 place
  assert ((← get).vvTried place = -1)
  let info ← infoAt nId
  modify fun s => { s with
    vvTried := Function.update s.vvTried place nId
    nTried := s.nTried + 1
    mapInfo := s.mapInfo.insert nId { info with fInTried := true } }

/-- Whether the search finds a bucket the entry is in now. -/
def inSomeBucket (s : CAddrMan) (nId : Int) (info : CAddrInfo) (nRnd : Nat) : Bool :=
  (List.range ADDRMAN_NEW_BUCKET_COUNT).any fun n =>
    s.vvNew (info.newPlace hash64 s.nKey ((n + nRnd) % ADDRMAN_NEW_BUCKET_COUNT)) == nId

def good_ (addr : CService) (nTime : Int) (draw : Nat) : AddrM Unit := do
  let s ← get
  match s.find addr.ip with
  | none => pure ()
  | some (nId, info) =>
    -- the exact same CService (including same port)
    if info.toCService ≠ addr then pure ()
    else
      setInfo nId { info with nLastSuccess := nTime, nLastTry := nTime, nAttempts := 0 }
      if info.fInTried then pure ()
      else if inSomeBucket hash64 s nId info (getRandInt ADDRMAN_NEW_BUCKET_COUNT draw) then
        makeTried hash64 nId
      else pure ()

/-- What is told about an address that is known: its time, and its services. -/
def CAddrInfo.refresh (info : CAddrInfo) (addr : CAddress) (nTimePenalty nNow : Int) : CAddrInfo :=
  let fCurrentlyOnline : Bool := nNow - addr.nTime < 24 * 60 * 60
  let nUpdateInterval : Int := if fCurrentlyOnline then 60 * 60 else 24 * 60 * 60
  { info with
    nTime :=
      if addr.nTime ≠ 0 ∧
          (info.nTime = 0 ∨ (info.nTime : Int) < addr.nTime - nUpdateInterval - nTimePenalty) then
        (max 0 ((addr.nTime : Int) - nTimePenalty) % 2 ^ 32).toNat
      else info.nTime
    nServices := info.nServices ||| addr.nServices }

/-- `fInsert`: the place is empty, or the existing entry is overwritten. -/
def mayInsert (place : Nat × Nat) (info : CAddrInfo) (nNow : Int) : AddrM Bool := do
  let s ← get
  if s.vvNew place = -1 then pure true
  else
    let infoExisting ← infoAt (s.vvNew place)
    pure (infoExisting.isTerrible nNow || (infoExisting.nRefCount > 1 && info.nRefCount == 0))

/-- The end of `Add_`, of an entry that is new or gets one more reference. -/
def addReference (nId : Int) (source : CNetAddr) (nNow : Int) : AddrM Unit := do
  let s ← get
  let info ← infoAt nId
  let place := info.newPlace hash64 s.nKey (info.getNewBucket hash64 s.nKey source)
  if s.vvNew place ≠ nId then
    let fInsert ← mayInsert place info nNow
    if fInsert then
      clearNew place
      let info ← infoAt nId
      enterNew place nId (info.nRefCount + 1)
    else if info.nRefCount = 0 then delete nId
    else pure ()
  else pure ()

def add_ (addr : CAddress) (source : CNetAddr) (nTimePenalty nNow : Int) (draw : Nat) :
    AddrM Bool := do
  if !CNetAddr.isRoutable addr.ip then pure false
  else
    let s ← get
    match s.find addr.ip with
    | some (nId, known) =>
      let info := CAddrInfo.refresh known addr nTimePenalty nNow
      setInfo nId info
      -- do not update if no new information is present
      if addr.nTime = 0 ∨ (info.nTime ≠ 0 ∧ addr.nTime ≤ info.nTime) then pure false
      -- do not update if the entry was already in the "tried" table
      else if info.fInTried then pure false
      -- do not update if the max reference count is reached
      else if info.nRefCount = ADDRMAN_NEW_BUCKETS_PER_ADDRESS then pure false
      -- stochastic test: previous nRefCount == N: 2^N times harder to increase it
      else if 2 ^ info.nRefCount.toNat > 1 ∧ getRandInt (2 ^ info.nRefCount.toNat) draw ≠ 0 then
        pure false
      else
        addReference hash64 nId source nNow
        pure false
    | none =>
      let nId ← create addr source
      let info ← infoAt nId
      setInfo nId { info with
        nTime := (max 0 ((info.nTime : Int) - nTimePenalty) % 2 ^ 32).toNat }
      modify fun s => { s with nNew := s.nNew + 1 }
      addReference hash64 nId source nNow
      pure true

def attempt_ (addr : CService) (nTime : Int) : AddrM Unit := do
  match (← get).find addr.ip with
  | none => pure ()
  | some (nId, info) =>
    if info.toCService ≠ addr then pure ()
    else
      let nAttempts ← increment info.nAttempts
      setInfo nId { info with nLastTry := nTime, nAttempts }

def connected_ (addr : CService) (nTime : Int) : AddrM Unit := do
  match (← get).find addr.ip with
  | none => pure ()
  | some (nId, info) =>
    if info.toCService ≠ addr then pure ()
    else if nTime - info.nTime > 20 * 60 then
      setInfo nId { info with nTime := (nTime % 2 ^ 32).toNat }
    else pure ()

/-- The search for a random entry of a table. A draw is a bucket, a position and what is compared
with the entry's chance, which goes up with every entry that was met; `none` while the search goes
on. -/
def selectFrom (chance : Nat → CAddrInfo → Nat) (table : Buckets) (nBuckets : Nat) :
    Nat → List (Nat × Nat × Nat) → AddrM (Option CAddrInfo)
  | _, [] => pure none
  | met, (bucket, pos, roll) :: draws => do
    let nId := table (getRandInt nBuckets bucket, getRandInt ADDRMAN_BUCKET_SIZE pos)
    if nId = -1 then selectFrom chance table nBuckets met draws
    else
      let info ← infoAt nId
      if getRandInt (2 ^ 30) roll < chance met info then pure (some info)
      else selectFrom chance table nBuckets (met + 1) draws

/-- A 50% chance for choosing between tried and new table entries. -/
def selectEntry (chance : Nat → CAddrInfo → Nat) (draw : Nat) (draws : List (Nat × Nat × Nat)) :
    AddrM (Option CAddrInfo) := do
  let s ← get
  if s.nTried > 0 ∧ (s.nNew = 0 ∨ getRandInt 2 draw = 0) then
    selectFrom chance s.vvTried ADDRMAN_TRIED_BUCKET_COUNT 0 draws
  else selectFrom chance s.vvNew ADDRMAN_NEW_BUCKET_COUNT 0 draws

def select_ (chance : Nat → CAddrInfo → Nat) (draw : Nat) (draws : List (Nat × Nat × Nat)) :
    AddrM (Option CAddress) := do
  if (← get).vRandom.length = 0 then pure (some { ip := List.replicate 16 0, port := 0 })
  else
    let chosen ← selectEntry chance draw draws
    pure (chosen.map CAddrInfo.toCAddress)

/-- One round of `GetAddr_`, with what the random source gives for it. -/
def gather (nNodes : Nat) (nNow : Int) (draws : Nat → Nat) (vAddr : List CAddress) (n : Nat) :
    AddrM (List CAddress) := do
  if vAddr.length ≥ nNodes then pure vAddr
  else
    swapRandom n (getRandInt ((← get).vRandom.length - n) (draws n) + n)
    match (← get).vRandom[n]? with
    | none => throw .assertion
    | some nId =>
      let ai ← infoAt nId
      if !ai.isTerrible nNow then pure (vAddr ++ [ai.toCAddress]) else pure vAddr

def getAddr_ (nNow : Int) (draws : Nat → Nat) : AddrM (List CAddress) := do
  let size := (← get).vRandom.length
  let nNodes := min (ADDRMAN_GETADDR_MAX_PCT * size / 100 % 2 ^ 32) ADDRMAN_GETADDR_MAX
  -- gather a list of random nodes, skipping those of low quality
  (List.range size).foldlM (gather nNodes nNow draws) []

/-! ## The consistency check -/

def triedPlaces : List (Nat × Nat) :=
  (List.range ADDRMAN_TRIED_BUCKET_COUNT).product (List.range ADDRMAN_BUCKET_SIZE)

def newPlaces : List (Nat × Nat) :=
  (List.range ADDRMAN_NEW_BUCKET_COUNT).product (List.range ADDRMAN_BUCKET_SIZE)

/-- What `CAddrInfo()` builds. -/
def CAddrInfo.empty : CAddrInfo :=
  CAddrInfo.create { ip := List.replicate 16 0, port := 0 } (List.replicate 16 0)

/-- The tried entries, and the reference counts of the others. -/
abbrev Gathered := Finset Int × AList fun _ : Int => Int

def gatherEntry (acc : Gathered) (x : Sigma fun _ : Int => CAddrInfo) : Except Int Gathered :=
  if x.2.fInTried then do
    Checks.failIf (x.2.nLastSuccess = 0) (-1)
    Checks.failIf (x.2.nRefCount ≠ 0) (-2)
    pure (insert x.1 acc.1, acc.2)
  else do
    Checks.failIf (x.2.nRefCount < 0 ∨ x.2.nRefCount > ADDRMAN_NEW_BUCKETS_PER_ADDRESS) (-3)
    Checks.failIf (x.2.nRefCount = 0) (-4)
    pure (acc.1, acc.2.insert x.1 x.2.nRefCount)

def checkEntry (s : CAddrMan) (acc : Gathered) (x : Sigma fun _ : Int => CAddrInfo) :
    Except Int Gathered := do
  let acc ← gatherEntry acc x
  -- `mapAddr[info]` is 0 for an address that is not there
  Checks.failIf ((s.mapAddr.lookup x.2.ip).getD 0 ≠ x.1) (-5)
  Checks.failIf (x.2.nRandomPos < 0 ∨ x.2.nRandomPos ≥ s.vRandom.length ∨
    s.vRandom[x.2.nRandomPos.toNat]? ≠ some x.1) (-14)
  Checks.failIf (x.2.nLastTry < 0) (-6)
  Checks.failIf (x.2.nLastSuccess < 0) (-8)
  pure acc

def checkTried (s : CAddrMan) (setTried : Finset Int) (place : Nat × Nat) :
    Except Int (Finset Int) :=
  if s.vvTried place = -1 then pure setTried
  else do
    Checks.failIf (s.vvTried place ∉ setTried) (-11)
    let info := (s.mapInfo.lookup (s.vvTried place)).getD CAddrInfo.empty
    Checks.failIf (info.getTriedBucket hash64 s.nKey ≠ place.1) (-17)
    Checks.failIf (info.getBucketPosition hash64 s.nKey false place.1 ≠ place.2) (-18)
    pure (setTried.erase (s.vvTried place))

def checkNew (s : CAddrMan) (mapNew : AList fun _ : Int => Int) (place : Nat × Nat) :
    Except Int (AList fun _ : Int => Int) :=
  if s.vvNew place = -1 then pure mapNew
  else do
    Checks.failIf ((mapNew.lookup (s.vvNew place)).isNone) (-12)
    let info := (s.mapInfo.lookup (s.vvNew place)).getD CAddrInfo.empty
    Checks.failIf (info.getBucketPosition hash64 s.nKey true place.1 ≠ place.2) (-19)
    Slots.tickDown (-12) mapNew (s.vvNew place)

def checks (s : CAddrMan) : Except Int Unit := do
  Checks.failIf ((s.vRandom.length : Int) ≠ s.nTried + s.nNew) (-7)
  let (setTried, mapNew) ← (s.mapInfo.entries.mergeSort fun x y => x.1 ≤ y.1).foldlM (checkEntry s)
    (∅, ∅)
  Checks.failIf ((setTried.card : Int) ≠ s.nTried) (-9)
  Checks.failIf ((mapNew.entries.length : Int) ≠ s.nNew) (-10)
  let setTried ← triedPlaces.foldlM (checkTried hash64 s) setTried
  let mapNew ← newPlaces.foldlM (checkNew hash64 s) mapNew
  Checks.failIf (setTried.card ≠ 0) (-13)
  Checks.failIf (mapNew.entries.length ≠ 0) (-15)
  Checks.failIf (s.nKey = 0) (-16)

def check_ (s : CAddrMan) : Int :=
  match checks hash64 s with
  | .ok _ => 0
  | .error err => err

/-! ## Runs -/

/-- A call, with what it reads of the clock and the random source. -/
inductive AddrCall where
  | add_ (addr : CAddress) (source : CNetAddr) (nTimePenalty nNow : Int) (draw : Nat)
  | good_ (addr : CService) (nTime : Int) (draw : Nat)
  | attempt_ (addr : CService) (nTime : Int)
  | connected_ (addr : CService) (nTime : Int)
  | select_ (chance : Nat → CAddrInfo → Nat) (draw : Nat) (draws : List (Nat × Nat × Nat))
  | getAddr_ (nNow : Int) (draws : Nat → Nat)

def call : AddrCall → AddrM Unit
  | .add_ addr source nTimePenalty nNow draw => do
    let _ ← add_ hash64 addr source nTimePenalty nNow draw
  | .good_ addr nTime draw => good_ hash64 addr nTime draw
  | .attempt_ addr nTime => attempt_ addr nTime
  | .connected_ addr nTime => connected_ addr nTime
  | .select_ chance draw draws => do
    let _ ← select_ chance draw draws
  | .getAddr_ nNow draws => do
    let _ ← getAddr_ nNow draws

def calls (l : List AddrCall) : AddrM Unit := l.foldlM (fun _ c => call hash64 c) ()

end Hashed

end CAddrMan

end BitBlocks
