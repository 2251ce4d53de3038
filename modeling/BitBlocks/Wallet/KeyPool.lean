import BitBlocks.Lib.Table
import BitBlocks.Masternode.Masternode
import BitBlocks.Script.SignatureHash

/-!
# The key pool (`wallet.cpp`)

Keys that were made and written to the wallet's file before they are needed. A key is
reserved by taking its index out of `setKeyPool`; it is kept, and its record erased, or
returned, and its index put back. The wallet does not know who holds a reservation: that is
`CReserveKey`, or a caller of `ReserveKeyFromKeyPool`.

The file gives back what was written to it. Times are left out, and what else a new key
does to a wallet.
-/

namespace BitBlocks

abbrev CKeyID := Uint256

/-- The keys a wallet makes, one after another, and what hashes them. -/
structure KeySource where
  makeNewKey : Nat → CPubKey
  getID : CPubKey → CKeyID
  valid : ∀ n, CPubKey.isValid (makeNewKey n) = true

/-- None of the first `N` keys is made twice. -/
def KeySource.Distinct (K : KeySource) (N : Nat) : Prop :=
  ∀ n < N, ∀ n' < N, K.makeNewKey n = K.makeNewKey n' → n = n'

instance (K : KeySource) (N : Nat) : Decidable (K.Distinct N) :=
  inferInstanceAs (Decidable (∀ n < N, ∀ n' < N, K.makeNewKey n = K.makeNewKey n' → n = n'))

/-- What `CWallet` has for the key pool. -/
structure WalletKeys where
  fFileBacked : Bool := true
  /-- `IsLocked()`. -/
  fLocked : Bool := false
  /-- `GetArg("-keypool", 1000)`. -/
  nKeyPoolArg : Int := 1000
  /-- `std::set<int64_t>`. -/
  setKeyPool : Finset Int := ∅
  /-- The `pool` records of the file. -/
  pool : AList (fun _ : Int => CPubKey) := ∅
  mapKeys : List CKeyID := []
  /-- How many keys have been made. -/
  nMade : Nat := 0

namespace WalletKeys

variable (K : KeySource)

def generateNewKey (w : WalletKeys) : WalletKeys × CPubKey :=
  ({ w with mapKeys := K.getID (K.makeNewKey w.nMade) :: w.mapKeys, nMade := w.nMade + 1 },
    K.makeNewKey w.nMade)

/-- The next index: behind the largest of the set. -/
def nEnd (w : WalletKeys) : Int :=
  if h : w.setKeyPool.Nonempty then w.setKeyPool.max' h + 1 else 1

/-- One round of `TopUpKeyPool`. -/
def addKey (w : WalletKeys) : WalletKeys :=
  let (w', key) := w.generateNewKey K
  { w' with
    pool := w'.pool.insert w.nEnd key
    setKeyPool := insert w.nEnd w'.setKeyPool }

/-- The loop of `TopUpKeyPool`, for as many rounds as a pool of `nTarget` keys can need. -/
def topUpLoop (nTarget : Nat) : Nat → WalletKeys → WalletKeys
  | 0, w => w
  | rounds + 1, w =>
    if w.setKeyPool.card < nTarget then topUpLoop nTarget rounds (w.addKey K) else w

/-- `nTargetSize + 1`, of `unsigned int`s. -/
def target (w : WalletKeys) (kpSize : Nat) : Nat :=
  ((if kpSize > 0 then kpSize else (max w.nKeyPoolArg 0).toNat % 2 ^ 32) + 1) % 2 ^ 32

def topUpKeyPool (w : WalletKeys) (kpSize : Nat) : WalletKeys × Bool :=
  if w.fLocked then (w, false)
  else (w.topUpLoop K (w.target kpSize) (w.target kpSize), true)

/--
`ReserveKeyFromKeyPool`: the wallet, `nIndex`, and the key or what was thrown. An index of
`-1` is an empty pool, `none` the failed assertion.
-/
def reserveKeyFromKeyPool (w : WalletKeys) : Option (WalletKeys × Int × Except String CPubKey) :=
  let w := if w.fLocked then w else (w.topUpKeyPool K 0).1
  if h : w.setKeyPool.Nonempty then
    -- get the oldest key
    let nIndex := w.setKeyPool.min' h
    let w := { w with setKeyPool := w.setKeyPool.erase nIndex }
    match w.pool.lookup nIndex with
    | none => some (w, nIndex, .error "ReserveKeyFromKeyPool() : read failed")
    | some key =>
      if K.getID key ∉ w.mapKeys then
        some (w, nIndex, .error "ReserveKeyFromKeyPool() : unknown key in key pool")
      else if CPubKey.isValid key then some (w, nIndex, .ok key)
      else none
  else some (w, -1, .ok [])

def keepKey (w : WalletKeys) (nIndex : Int) : WalletKeys :=
  if w.fFileBacked then { w with pool := w.pool.erase nIndex } else w

def returnKey (w : WalletKeys) (nIndex : Int) : WalletKeys :=
  { w with setKeyPool := insert nIndex w.setKeyPool }

end WalletKeys

/-- `CReserveKey`, or the local variables of another caller. -/
structure CReserveKey where
  nIndex : Int := -1
  vchPubKey : CPubKey := []
deriving DecidableEq

/-- What has become of a key that was obtained from the pool. -/
inductive Fate where
  | outstanding
  | kept
  | returned
deriving DecidableEq

/-- A key obtained from the pool; `holder` is none for `GetKeyFromPool`, which keeps it. -/
structure Obtained where
  holder : Option Nat
  nIndex : Int
  vchPubKey : CPubKey
  fate : Fate
deriving DecidableEq

/-- The wallet, those who reserve keys, and the keys obtained so far, in order. -/
structure KeyPoolRun where
  wallet : WalletKeys
  holders : Nat → CReserveKey := fun _ => {}
  log : List Obtained := []

inductive KeyPoolOp where
  | setLocked (fLocked : Bool)
  | topUpKeyPool (kpSize : Nat)
  /-- `CReserveKey::GetReservedKey`, or `ReserveKeyFromKeyPool` itself. -/
  | getReservedKey (holder : Nat)
  | keepKey (holder : Nat)
  /-- `ReturnKey`, or the destructor. -/
  | returnKey (holder : Nat)
  | getKeyFromPool
deriving DecidableEq

namespace KeyPoolRun

variable (K : KeySource)

def settle (log : List Obtained) (holder : Nat) (fate : Fate) : List Obtained := log.map fun o =>
    if o.holder = some holder ∧ o.fate = .outstanding then { o with fate := fate } else o

def getReservedKey (s : KeyPoolRun) (holder : Nat) : Option KeyPoolRun :=
  if (s.holders holder).nIndex = -1 then
    match s.wallet.reserveKeyFromKeyPool K with
    | none => none
    | some (w, nIndex, .error _) =>
      -- the index has been set by then, the key has not
      some { s with
        wallet := w
        holders := Function.update s.holders holder { s.holders holder with nIndex := nIndex } }
    | some (w, nIndex, .ok key) =>
      if nIndex = -1 then some { s with wallet := w }
      else some {
        wallet := w
        holders := Function.update s.holders holder ⟨nIndex, key⟩
        log := s.log ++ [⟨some holder, nIndex, key, .outstanding⟩] }
  else if CPubKey.isValid (s.holders holder).vchPubKey then some s
  else none

def keepKey (s : KeyPoolRun) (holder : Nat) : KeyPoolRun where
  wallet :=
    if (s.holders holder).nIndex = -1 then s.wallet else s.wallet.keepKey (s.holders holder).nIndex
  holders := Function.update s.holders holder {}
  log := settle s.log holder .kept

def returnKey (s : KeyPoolRun) (holder : Nat) : KeyPoolRun where
  wallet :=
    if (s.holders holder).nIndex = -1 then s.wallet
    else s.wallet.returnKey (s.holders holder).nIndex
  holders := Function.update s.holders holder {}
  log := settle s.log holder .returned

def getKeyFromPool (s : KeyPoolRun) : Option KeyPoolRun :=
  match s.wallet.reserveKeyFromKeyPool K with
  | none => none
  | some (w, _, .error _) => some { s with wallet := w }
  | some (w, nIndex, .ok key) =>
    if nIndex = -1 then
      if w.fLocked then some { s with wallet := w }
      else some { s with
        wallet := (w.generateNewKey K).1
        log := s.log ++ [⟨none, nIndex, (w.generateNewKey K).2, .kept⟩] }
    else some { s with
      wallet := w.keepKey nIndex
      log := s.log ++ [⟨none, nIndex, key, .kept⟩] }

/-- One operation; `none` is a failed assertion. -/
def step (s : KeyPoolRun) : KeyPoolOp → Option KeyPoolRun
  | .setLocked fLocked => some { s with wallet := { s.wallet with fLocked := fLocked } }
  | .topUpKeyPool kpSize => some { s with wallet := (s.wallet.topUpKeyPool K kpSize).1 }
  | .getReservedKey holder => s.getReservedKey K holder
  | .keepKey holder => some (s.keepKey holder)
  | .returnKey holder => some (s.returnKey holder)
  | .getKeyFromPool => s.getKeyFromPool K

end KeyPoolRun

end BitBlocks
