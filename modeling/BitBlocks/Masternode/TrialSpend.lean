import BitBlocks.Masternode.Manager
import BitBlocks.Mempool.TxMemPool

/-!
# The trial spend of a collateral

Whether a collateral is still there is decided by `AcceptableInputs` (`main.cpp`), asked
about a transaction that would spend it: one input, and one output of a hundredth of a coin
less than the collateral. It looks at the memory pool over the coins, and at the locks of
SwiftTX. What it accepts is worth at least that output; what it turns down need not be spent.
-/

namespace BitBlocks

open Wrap Checks

/-- The height of the coins of a transaction in the memory pool. -/
def MEMPOOL_HEIGHT : Int := 0x7fffffff

def MAX_TX_SIGOPS : Nat := MAX_BLOCK_SIGOPS / 5

/-- `CCoinsViewCache::HaveCoins`. -/
def CCoinsView.haveCoins (v : CCoinsView) (txid : Uint256) : Bool :=
  match v txid with
  | none => false
  | some coins => !coins.vout.isEmpty

/-- What `AcceptableInputs` reads: the memory pool, the coins of the tip, and the locks. -/
structure SpendState where
  pool : CTxMemPool := {}
  pcoinsTip : CCoinsView := fun _ => none
  /-- The height of the tip. -/
  nHeight : Int := 0
  mapLockedInputs : AList (fun _ : COutPoint => Uint256) := ∅

namespace SpendState

variable (R : Rules) (P : CChainParams) (s : SpendState)

/-- `CCoinsViewMemPool`. -/
def view : CCoinsView := fun txid =>
  match s.pool.mapTx.lookup txid with
  | some entry => some (CCoins.fromTx entry.tx MEMPOOL_HEIGHT)
  | none =>
    match s.pcoinsTip txid with
    | none => none
    | some coins => if coins.isPruned then none else some coins

/-- An input is locked for another transaction. -/
def locked (tx : CTransaction) (txin : CTxIn) : Bool :=
  match s.mapLockedInputs.lookup txin.prevout with
  | some hash => hash != tx.hash
  | none => false

/-- `AcceptableInputs`, with `fRejectInsaneFee` not set. -/
def acceptableInputs (tx : CTransaction) : Bool :=
  if !(checkTransaction R P tx).isOk then false
  -- coinbase is only valid in a block, not as a loose transaction
  else if tx.isCoinBase then false
  else if (s.pool.mapTx.lookup tx.hash).isSome then false
  else if tx.vin.any (s.locked tx) then false
  else if tx.vin.any fun txin => (s.pool.mapNextTx.lookup txin.prevout).isSome then false
  else if s.view.haveCoins tx.hash then false
  else if !tx.vin.all fun txin => s.view.haveCoins txin.prevout.hash then false
  else if !s.view.haveInputs tx then false
  else if R.getLegacySigOpCount tx + R.getP2SHSigOpCount tx (tx.vin.map s.view.getOutputFor) >
      MAX_TX_SIGOPS then false
  else (checkInputs R P tx s.view (s.nHeight + 1) false { standard := true }).isOk

end SpendState

/-- `((Params().MasternodeCollateralLimit() - 0.01)) * COIN`, a double that becomes an amount. -/
def nTrialValue : Int := nMasternodeCollateralLimit * COIN - COIN / 100

/-- The parts of the trial that are not its input. -/
structure TrialText where
  /-- `obfuScationPool.collateralPubKey`. -/
  collateralPubKey : CScript
  /-- The hash of the trial of an input. -/
  trialHash : CTxIn → Uint256

/-- The transaction that would spend the input. -/
def TrialText.trial (X : TrialText) (vin : CTxIn) : CTransaction :=
  { hash := X.trialHash vin, vin := [vin], vout := [⟨nTrialValue, X.collateralPubKey, -10⟩] }

namespace SpendState

variable {R : Rules} {P : CChainParams} {X : TrialText} {s : SpendState} {vin : CTxIn}

/-- The coin of an outpoint is there, and no transaction of the memory pool spends it. -/
def isUnspent (s : SpendState) (prevout : COutPoint) : Bool :=
  s.view.haveInput prevout && (s.pool.mapNextTx.lookup prevout).isNone

/-- The tests of `AcceptableInputs` that do not look for the coins of the inputs. -/
structure OtherTests (R : Rules) (P : CChainParams) (s : SpendState) (tx : CTransaction) :
    Prop where
  checked : (checkTransaction R P tx).isOk = true
  loose : tx.isCoinBase = false
  notInPool : (s.pool.mapTx.lookup tx.hash).isSome = false
  notLocked : tx.vin.any (s.locked tx) = false
  notInChain : s.view.haveCoins tx.hash = false
  sigOps : R.getLegacySigOpCount tx + R.getP2SHSigOpCount tx (tx.vin.map s.view.getOutputFor) ≤
    MAX_TX_SIGOPS
  /-- Maturity and amounts. -/
  inputs : (checkInputs R P tx s.view (s.nHeight + 1) false { standard := true }).isOk = true

theorem haveCoins_of_haveInput {v : CCoinsView} {prevout : COutPoint}
    (h : v.haveInput prevout = true) : v.haveCoins prevout.hash = true := by
  unfold CCoinsView.haveInput CCoinsView.get at h
  unfold CCoinsView.haveCoins
  cases hv : v prevout.hash with
  | none =>
    rw [hv] at h
    simp [CCoins.isAvailable] at h
  | some coins =>
    rw [hv, Option.getD_some] at h
    unfold CCoins.isAvailable at h
    have hlt : prevout.n < coins.vout.length := of_decide_eq_true (Bool.and_eq_true_iff.mp h).1
    dsimp only
    cases hvout : coins.vout with
    | nil =>
      rw [hvout] at hlt
      exact absurd hlt (Nat.not_lt_zero _)
    | cons out vout => rfl

/-- **What the trial decides**: that the output is unspent, and a good deal more. -/
theorem acceptableInputs_trial : s.acceptableInputs R P (X.trial vin) = true ↔
    s.isUnspent vin.prevout = true ∧ OtherTests R P s (X.trial vin) := by
  have hvin : (X.trial vin).vin = [vin] := rfl
  unfold acceptableInputs isUnspent
  simp only [guard_eq_true, hvin, List.any_cons, List.any_nil, List.all_cons, List.all_nil,
    Bool.or_false, Bool.and_true]
  constructor
  · intro ⟨hchecked, hloose, hpool, hlocked, hspent, hchain, _, hhave, hsigOps, hinputs⟩
    have hloose' : (X.trial vin).isCoinBase = false := by simpa using hloose
    refine ⟨?_, by simpa using hchecked, hloose', by simpa using hpool, ?_, by simpa using hchain,
      by rw [hvin]; omega, hinputs⟩
    · rw [Bool.not_eq_true', Bool.not_eq_false] at hhave
      unfold CCoinsView.haveInputs at hhave
      rw [hloose', hvin] at hhave
      rw [Bool.and_eq_true_iff]
      exact ⟨by simpa using hhave, by simpa using hspent⟩
    · rw [hvin]
      simpa using hlocked
  · intro ⟨hunspent, hother⟩
    obtain ⟨hcoin, hspent⟩ := Bool.and_eq_true_iff.mp hunspent
    have hlocked := hother.notLocked
    rw [hvin] at hlocked
    have hsigOps := hother.sigOps
    refine ⟨by simpa using hother.checked, by simp [hother.loose], by simp [hother.notInPool],
      by simpa using hlocked, by simpa using hspent, by simp [hother.notInChain],
      by simp [haveCoins_of_haveInput hcoin], ?_, by rw [hvin] at hsigOps; omega, hother.inputs⟩
    unfold CCoinsView.haveInputs
    rw [hother.loose, hvin]
    simp [hcoin]

end SpendState

end BitBlocks
