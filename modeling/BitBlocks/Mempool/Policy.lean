import BitBlocks.Masternode.TrialSpend
import BitBlocks.Chain.Accept
import BitBlocks.Script.Sign

/-!
# What the node relays (`IsStandardTx`, `AcceptToMemoryPool`)

A transaction that is valid may still be refused by the memory pool: policy asks for standard
scripts, for outputs that are worth spending and, from the node's own wallet, for a fee that is
not insane. Fees are a rate and a size.
-/

namespace BitBlocks

open CompactSize Checks

def MAX_STANDARD_TX_SIZE : Nat := 1000000
def MAX_P2SH_SIGOPS : Nat := 15

/-! ## Sizes and fees -/

def CTxIn.bytes (txin : CTxIn) : List UInt8 :=
  txin.prevout.bytes ++ CScript.bytes txin.scriptSig ++ writeLE 4 txin.nSequence

def CTransaction.bytes (tx : CTransaction) : List UInt8 :=
  writeInt 4 tx.nVersion ++ writeList CTxIn.bytes tx.vin ++ writeList CTxOut.bytes tx.vout ++
    writeLE 4 tx.nLockTime

/-- `GetSerializeSize`. -/
def CTransaction.size (tx : CTransaction) : Nat := tx.bytes.length

structure CFeeRate where
  nSatoshisPerK : Int
  deriving DecidableEq

/-- `GetFee`: the size is unsigned, and so is the product. -/
def CFeeRate.getFee (rate : CFeeRate) (nSize : Nat) : Int :=
  let nFee := rate.nSatoshisPerK * nSize % 2 ^ 64 / 1000
  if nFee = 0 ∧ rate.nSatoshisPerK > 0 then rate.nSatoshisPerK else nFee

/-- An output of this script is dust below: three times the fee for it and for spending it. -/
def CFeeRate.dustLimit (minRelayTxFee : CFeeRate) (scriptPubKey : CScript) : Int :=
  3 * minRelayTxFee.getFee ((CTxOut.bytes ⟨0, scriptPubKey, -10⟩).length + 148)

/-- `CTxOut::IsDust`. -/
def CTxOut.isDust (txout : CTxOut) (minRelayTxFee : CFeeRate) : Bool :=
  let nSize := txout.bytes.length + 148
  decide (txout.nValue < 3 * minRelayTxFee.getFee nSize)

/-! ## `IsStandardTx` -/

/-- The settings of the node that policy goes by. -/
structure RelayPolicy where
  minRelayTxFee : CFeeRate
  fIsBareMultisigStd : Bool := true
  /-- `-datacarrier` -/
  fDatacarrier : Bool := true
  nMaxDatacarrierBytes : Nat := 83
  /-- `Params().RequireStandard()` -/
  fRequireStandard : Bool := true

namespace RelayPolicy

variable (L : RelayPolicy)

/-- `::IsStandard`. -/
def isStandard (scriptPubKey : CScript) : Option TxnOutType :=
  scriptPubKey.isStandard L.fDatacarrier L.nMaxDatacarrierBytes

def checkIn (txin : CTxIn) : Except String Unit := do
  failIf (decide (txin.scriptSig.length > 1650)) "scriptsig-size"
  failIf (!txin.scriptSig.isPushOnly) "scriptsig-not-pushonly"

/-- The test of an output; `nDataOut` counts those that carry data, which may be dust. -/
def checkOut (nDataOut : Nat) (txout : CTxOut) : Except String Nat := do
  let whichType ← found? "scriptpubkey" (L.isStandard txout.scriptPubKey)
  if whichType = .nullData then .ok (nDataOut + 1)
  else do
    failIf (whichType == .multisig && !L.fIsBareMultisigStd) "bare-multisig"
    failIf (txout.isDust L.minRelayTxFee) "dust"
    .ok nDataOut

/-- `IsStandardTx`, and the reason if it is not; with the chain's height and `GetAdjustedTime`. -/
def isStandardTx (nHeight nAdjustedTime : Int) (tx : CTransaction) : Except String Unit := do
  failIf (decide (tx.nVersion > 1) || decide (tx.nVersion < 1)) "version"
  failIf (!isFinalTx tx (nHeight + 1) nAdjustedTime) "non-final"
  failIf (decide (tx.size ≥ MAX_STANDARD_TX_SIZE)) "tx-size"
  all tx.vin checkIn
  let nDataOut ← tx.vout.foldlM L.checkOut 0
  -- only one OP_RETURN txout is permitted
  failIf (decide (nDataOut > 1)) "multi-op-return"

/-- `nFees > ::minRelayTxFee.GetFee(nSize) * 10000` -/
def insaneFees (nSize : Nat) (nFees : Int) : Bool :=
  decide (nFees > L.minRelayTxFee.getFee nSize * 10000)

/-! ## `AcceptToMemoryPool` -/

/-- The number of pushes that an input of this type leaves; `none` where `AreInputsStandard`
answers at once. -/
def inputStandard (env : ScriptEnv) (txin : CTxIn) (prev : CTxOut) : Bool ⊕ Bool :=
  match prev.scriptPubKey.solver with
  | none => .inl false
  | some (whichType, vSolutions) =>
    match CScript.scriptSigArgsExpected whichType vSolutions with
    | none => .inl false
    | some nArgsExpected =>
      match evalScript env [] txin.scriptSig with
      | (.error _, _) => .inl false
      | (.ok _, s) =>
        if whichType = .scripthash then
          if s.stack = [] then .inl false
          else
            let subscript := s.stack.getLastD []
            match CScript.solver subscript with
            | some (whichType2, vSolutions2) =>
              match CScript.scriptSigArgsExpected whichType2 vSolutions2 with
              | none => .inl false
              | some tmpExpected => .inr (s.stack.length == nArgsExpected + tmpExpected)
            -- any other script with few sigops: that settles the other inputs too
            | none => .inl (decide (CScript.getSigOpCount subscript true ≤ MAX_P2SH_SIGOPS))
        else .inr (s.stack.length == nArgsExpected)

/-- `AreInputsStandard`, over the inputs with the outputs they spend. -/
def areInputsStandard (env : ScriptEnv) : List (CTxIn × CTxOut) → Bool
  | [] => true
  | (txin, prev) :: rest =>
    match inputStandard env txin prev with
    | .inl fRet => fRet
    | .inr fArgs => fArgs && areInputsStandard env rest

end RelayPolicy

namespace SpendState

variable (R : Rules) (P : CChainParams) (L : RelayPolicy) (env : ScriptEnv) (nAdjustedTime : Int)
  (s : SpendState)

/-- `AcceptToMemoryPool`, with `fRejectInsaneFee` set, as the wallet calls it. -/
def acceptToMemoryPool (tx : CTransaction) : Bool :=
  if !(checkTransaction R P tx).isOk then false
  -- coinbase and coinstake are only valid in a block, not as a loose transaction
  else if tx.isCoinBase then false
  else if tx.isCoinStake then false
  else if L.fRequireStandard && !(L.isStandardTx s.nHeight nAdjustedTime tx).isOk then false
  else if (s.pool.mapTx.lookup tx.hash).isSome then false
  else if tx.vin.any (s.locked tx) then false
  else if tx.vin.any fun txin => (s.pool.mapNextTx.lookup txin.prevout).isSome then false
  else if s.view.haveCoins tx.hash then false
  else if !tx.vin.all fun txin => s.view.haveCoins txin.prevout.hash then false
  else if !s.view.haveInputs tx then false
  else if L.fRequireStandard && !RelayPolicy.areInputsStandard
      { env with flags := 0, checkSig := fun _ _ _ => false }
      (tx.vin.map fun txin => (txin, s.view.getOutputFor txin)) then false
  else if R.getLegacySigOpCount tx + R.getP2SHSigOpCount tx (tx.vin.map s.view.getOutputFor) >
      MAX_TX_SIGOPS then false
  else
    match tx.getValueOut with
    | .error _ => false
    | .ok nValueOut =>
      if L.insaneFees tx.size (s.view.getValueIn tx - nValueOut) then false
      else if !(checkInputs R P tx s.view (s.nHeight + 1) true { standard := true }).isOk then false
      else (checkInputs R P tx s.view (s.nHeight + 1) true { p2sh := true }).isOk

end SpendState

/-! ## Sizes -/

theorem CTxOut.length_bytes (txout : CTxOut) :
    txout.bytes.length = 8 + (CScript.bytes txout.scriptPubKey).length := by
  rw [CTxOut.bytes, List.length_append, writeInt, length_writeLE]

theorem CTxOut.isDust_iff {txout : CTxOut} {minRelayTxFee : CFeeRate} :
    txout.isDust minRelayTxFee = true ↔
      txout.nValue < minRelayTxFee.dustLimit txout.scriptPubKey := by
  rw [CTxOut.isDust, CFeeRate.dustLimit, decide_eq_true_iff, CTxOut.length_bytes,
    CTxOut.length_bytes]

theorem CTxIn.le_length_bytes (txin : CTxIn) : 41 ≤ txin.bytes.length := by
  have hscript := one_le_length_write txin.scriptSig.length
  rw [CTxIn.bytes, COutPoint.bytes, CScript.bytes]
  simp only [List.length_append, length_writeLE]
  omega

theorem CTransaction.le_size (tx : CTransaction) :
    10 + 41 * tx.vin.length + (tx.vout.map fun txout => txout.bytes.length).sum ≤ tx.size := by
  have hin : 41 * tx.vin.length ≤ (tx.vin.map fun txin => txin.bytes.length).sum := by
    induction tx.vin with
    | nil => exact Nat.le_refl _
    | cons txin vin ih =>
      have := txin.le_length_bytes
      rw [List.length_cons, List.map_cons, List.sum_cons]
      omega
  have hvin := one_le_length_write tx.vin.length
  have hvout := one_le_length_write tx.vout.length
  rw [CTransaction.size, CTransaction.bytes]
  simp only [writeList, writeInt, List.length_append, length_writeLE, List.length_flatMap]
  omega

/-! ## Standard transactions -/

namespace RelayPolicy

variable {L : RelayPolicy}

/-- An output that `IsStandardTx` lets pass. -/
def Relays (L : RelayPolicy) (txout : CTxOut) : Prop :=
  ∃ whichType, L.isStandard txout.scriptPubKey = some whichType ∧ (whichType ≠ .nullData →
      (whichType = .multisig → L.fIsBareMultisigStd = true) ∧ txout.isDust L.minRelayTxFee = false)

def carriesData (L : RelayPolicy) (txout : CTxOut) : Bool :=
  L.isStandard txout.scriptPubKey == some .nullData

theorem checkOut_ok_iff {nDataOut n : Nat} {txout : CTxOut} : L.checkOut nDataOut txout = .ok n ↔
      L.Relays txout ∧ n = nDataOut + if L.carriesData txout then 1 else 0 := by
  unfold checkOut Relays carriesData
  simp only [bind_eq_ok, found?_eq_ok]
  cases htype : L.isStandard txout.scriptPubKey with
  | none => simp
  | some whichType =>
    simp only [Option.some.injEq, exists_eq_left', beq_iff_eq]
    by_cases hnull : whichType = .nullData
    · rw [if_pos hnull, if_pos hnull, Except.ok.injEq, eq_comm]
      exact ⟨fun h => ⟨fun hne => absurd hnull hne, h⟩, And.right⟩
    · rw [if_neg hnull, if_neg hnull]
      simp only [bind_eq_ok, exists_unit, failIf_eq_ok, Except.ok.injEq]
      have hbare : (whichType == .multisig && !L.fIsBareMultisigStd) = false ↔
          (whichType = .multisig → L.fIsBareMultisigStd = true) := by
        cases L.fIsBareMultisigStd <;> simp
      rw [hbare]
      exact ⟨fun h => ⟨fun _ => ⟨h.1, h.2.1⟩, h.2.2.symm⟩,
        fun h => ⟨(h.1 hnull).1, (h.1 hnull).2, h.2.symm⟩⟩

theorem foldlM_checkOut {vout : List CTxOut} : ∀ {nDataOut n : Nat},
    vout.foldlM L.checkOut nDataOut = .ok n ↔
      (∀ txout ∈ vout, L.Relays txout) ∧ n = nDataOut + vout.countP L.carriesData := by
  induction vout with
  | nil =>
    intro nDataOut n
    simp only [List.foldlM_nil, List.not_mem_nil, IsEmpty.forall_iff, implies_true, true_and,
      List.countP_nil, Nat.add_zero]
    exact ⟨fun h => (Except.ok.inj h).symm, fun h => by rw [h]; rfl⟩
  | cons txout vout ih =>
    intro nDataOut n
    rw [List.foldlM_cons, List.forall_mem_cons, List.countP_cons]
    constructor
    · intro h
      cases hout : L.checkOut nDataOut txout with
      | error e =>
        rw [hout] at h
        exact absurd h (by simp [bind, Except.bind])
      | ok k =>
        rw [hout] at h
        obtain ⟨hfirst, rfl⟩ := checkOut_ok_iff.mp hout
        obtain ⟨hrest, rfl⟩ := ih.mp h
        exact ⟨⟨hfirst, hrest⟩, by omega⟩
    · rintro ⟨⟨hfirst, hrest⟩, rfl⟩
      rw [checkOut_ok_iff.mpr ⟨hfirst, rfl⟩]
      exact ih.mpr ⟨hrest, by omega⟩

theorem checkIn_ok_iff {txin : CTxIn} : checkIn txin = .ok () ↔
    txin.scriptSig.length ≤ 1650 ∧ txin.scriptSig.isPushOnly = true := by
  unfold checkIn
  simp only [bind_eq_ok, exists_unit, failIf_eq_ok, decide_eq_false_iff_not, not_lt,
    Bool.not_eq_false']

/-- **When a transaction is standard.** -/
theorem isStandardTx_iff {nHeight nAdjustedTime : Int} {tx : CTransaction} :
    L.isStandardTx nHeight nAdjustedTime tx = .ok () ↔
      tx.nVersion = 1 ∧ isFinalTx tx (nHeight + 1) nAdjustedTime = true ∧
        tx.size < MAX_STANDARD_TX_SIZE ∧
        (∀ txin ∈ tx.vin, txin.scriptSig.length ≤ 1650 ∧ txin.scriptSig.isPushOnly = true) ∧
        (∀ txout ∈ tx.vout, L.Relays txout) ∧ tx.vout.countP L.carriesData ≤ 1 := by
  unfold isStandardTx
  simp only [bind_eq_ok, exists_unit, failIf_eq_ok, all_eq_ok, checkIn_ok_iff, foldlM_checkOut,
    Bool.or_eq_false_iff, decide_eq_false_iff_not, Bool.not_eq_false', Nat.zero_add]
  constructor
  · rintro ⟨hversion, hfinal, hsize, hin, n, ⟨hout, rfl⟩, hdata⟩
    exact ⟨by omega, hfinal, by omega, hin, hout, by omega⟩
  · rintro ⟨hversion, hfinal, hsize, hin, hout, hdata⟩
    exact ⟨by omega, hfinal, by omega, hin, _, ⟨hout, rfl⟩, by omega⟩

end RelayPolicy

namespace SpendState

variable {R : Rules} {P : CChainParams} {L : RelayPolicy} {env : ScriptEnv} {nAdjustedTime : Int}
  {s : SpendState} {tx : CTransaction}

/-- The tests of `AcceptToMemoryPool` but for those of policy on the transaction itself and on
its fee. -/
structure Admits (R : Rules) (P : CChainParams) (L : RelayPolicy) (env : ScriptEnv)
    (s : SpendState) (tx : CTransaction) : Prop where
  checked : (checkTransaction R P tx).isOk = true
  loose : tx.isCoinBase = false ∧ tx.isCoinStake = false
  notInPool : (s.pool.mapTx.lookup tx.hash).isSome = false
  notLocked : tx.vin.any (s.locked tx) = false
  noConflict : (tx.vin.any fun txin => (s.pool.mapNextTx.lookup txin.prevout).isSome) = false
  notInChain : s.view.haveCoins tx.hash = false
  coins : (tx.vin.all fun txin => s.view.haveCoins txin.prevout.hash) = true
  unspent : s.view.haveInputs tx = true
  inputs : L.fRequireStandard = true → RelayPolicy.areInputsStandard
    { env with flags := 0, checkSig := fun _ _ _ => false }
    (tx.vin.map fun txin => (txin, s.view.getOutputFor txin)) = true
  sigOps : R.getLegacySigOpCount tx + R.getP2SHSigOpCount tx (tx.vin.map s.view.getOutputFor) ≤
    MAX_TX_SIGOPS
  standardFlags : (checkInputs R P tx s.view (s.nHeight + 1) true { standard := true }).isOk = true
  mandatoryFlags : (checkInputs R P tx s.view (s.nHeight + 1) true { p2sh := true }).isOk = true

theorem standard_of_accepted (h : s.acceptToMemoryPool R P L env nAdjustedTime tx = true)
    (hrequire : L.fRequireStandard = true) :
    L.isStandardTx s.nHeight nAdjustedTime tx = .ok () := by
  unfold acceptToMemoryPool at h
  rw [guard_eq_true, guard_eq_true, guard_eq_true, guard_eq_true, hrequire] at h
  obtain ⟨-, -, -, hstandard, -⟩ := h
  cases hcase : L.isStandardTx s.nHeight nAdjustedTime tx with
  | ok u => rfl
  | error e =>
    rw [hcase] at hstandard
    exact absurd rfl hstandard

/-- **A transaction that is admitted otherwise is refused by policy only.** -/
theorem acceptToMemoryPool_iff (h : s.Admits R P L env tx) {nValueOut : Int}
    (hout : tx.getValueOut = .ok nValueOut) :
    s.acceptToMemoryPool R P L env nAdjustedTime tx = true ↔
      (L.fRequireStandard = true → L.isStandardTx s.nHeight nAdjustedTime tx = .ok ()) ∧
        L.insaneFees tx.size (s.view.getValueIn tx - nValueOut) = false := by
  have hstandard :
      ¬ (L.fRequireStandard && !(L.isStandardTx s.nHeight nAdjustedTime tx).isOk) = true ↔
      (L.fRequireStandard = true → L.isStandardTx s.nHeight nAdjustedTime tx = .ok ()) := by
    cases L.fRequireStandard with
    | false => simp
    | true =>
      cases L.isStandardTx s.nHeight nAdjustedTime tx with
      | ok u => simp [Except.isOk, Except.toBool]
      | error e => simp [Except.isOk, Except.toBool]
  have hinputs : ¬ (L.fRequireStandard && !RelayPolicy.areInputsStandard
      { env with flags := 0, checkSig := fun _ _ _ => false }
      (tx.vin.map fun txin => (txin, s.view.getOutputFor txin))) = true := by
    cases hreq : L.fRequireStandard with
    | false => simp
    | true => simp [h.inputs hreq]
  unfold acceptToMemoryPool
  rw [guard_eq_true, guard_eq_true, guard_eq_true, guard_eq_true, hstandard, guard_eq_true,
    guard_eq_true, guard_eq_true, guard_eq_true, guard_eq_true, guard_eq_true, guard_eq_true,
    guard_eq_true, hout]
  dsimp only
  rw [guard_eq_true, guard_eq_true, h.checked, h.loose.1, h.loose.2, h.notInPool, h.notLocked,
    h.noConflict, h.notInChain, h.coins, h.unspent, h.standardFlags, h.mandatoryFlags]
  have hsig := Nat.not_lt.mpr h.sigOps
  simp only [hinputs, Bool.not_true, Bool.false_eq_true, not_false_eq_true, true_and, and_true,
    Bool.not_eq_true, gt_iff_lt, hsig]

end SpendState

end BitBlocks
