import BitBlocks.Mempool.Policy
import BitBlocks.Wallet.CoinSelection
import BitBlocks.Wallet.Events

/-!
# Making a transaction (`CWallet::CreateTransaction`)

The outputs to the payees, the coins that pay for them, a change output and the signatures are
put together in passes. A pass knows the size of its transaction only at its end, and when the
fee it was given is not enough for it, the next one starts with more.

What is random in a pass, the order of a set of pointers and the key that the key pool reserves
are arguments. Amounts are integers: where a sum of them leaves 64 bits, the program has no
meaning. The priorities, which are doubles, are one question here.
-/

namespace BitBlocks

def MAX_FREE_TRANSACTION_CREATE_SIZE : Nat := 10000

/-- `CCoinControl`, with what `CreateTransaction` reads of it. -/
structure SendControl extends CCoinControl where
  destChange : CTxDestination := .noDestination
  fSplitBlock : Bool := false
  nSplitBlock : Int := 1

/-- The rules of the wallet, and what it goes by when it makes a transaction. -/
structure SendRules (K Key : Type) extends WalletRules K where
  signer : Signer Key
  keystore : K → CKeyStore Key
  /-- `CTransaction::UpdateHash`. -/
  txid : CTransaction → Uint256
  policy : RelayPolicy
  payTxFee : CFeeRate
  fPayAtLeastCustomFee : Bool := true
  /-- `mempool.estimateFee(nTxConfirmTarget)` -/
  estimateFee : CFeeRate
  minTxFee : CFeeRate := ⟨10000⟩
  maxTxFee : Int := 0
  fSendFreeTransactions : Bool := false
  /-- The priority of coins in a transaction of this size is high enough to send it for free. -/
  hasPriority : List COutput → Nat → Bool
  /-- `GetInputObfuscationRounds`. -/
  rounds : COutPoint → Int
  nObfuscationRounds : Int

structure PassDraws where
  select : SelectDraws
  /-- The order of the set of coins, which is that of addresses in memory. -/
  order : List COutput → List COutput
  order_perm : ∀ setCoins, (order setCoins).Perm setCoins
  /-- The key that `GetReservedKey` answers. -/
  reservedKey : Option Uint160
  /-- `GetRandInt`. -/
  rand : Nat

def COutput.scriptPubKey (out : COutput) : CScript :=
  (out.tx.tx.vout[out.i]?).elim [] CTxOut.scriptPubKey

/-- A transaction that was made, the fee that is reported, and the coins it spends. -/
structure Created where
  tx : CTransaction
  nFeeRet : Int
  coins : List COutput

inductive PassEnd where
  | failed (strFailReason : String)
  /-- An amount out of range throws. -/
  | threw
  /-- `assert(ret)` after `GetReservedKey`. -/
  | assertion
  | done (wtxNew : Created)
  /-- Include more fee and try again. -/
  | again (nFeeRet : Int)

/-! ## Fees -/

namespace SendRules

variable {K Key : Type} (S : SendRules K Key)

/-- `GetMinimumFee`. -/
def getMinimumFee (nTxBytes : Nat) : Int :=
  let nFeeNeeded := S.payTxFee.getFee nTxBytes
  let nFeeNeeded :=
    if S.fPayAtLeastCustomFee ∧ nFeeNeeded > 0 ∧ nFeeNeeded < S.payTxFee.getFee 1000 then
      S.payTxFee.getFee 1000
    else nFeeNeeded
  let nFeeNeeded := if nFeeNeeded = 0 then S.estimateFee.getFee nTxBytes else nFeeNeeded
  let nFeeNeeded := if nFeeNeeded = 0 then S.minTxFee.getFee nTxBytes else nFeeNeeded
  let nFeeNeeded :=
    if nFeeNeeded < S.policy.minRelayTxFee.getFee nTxBytes then
      S.policy.minRelayTxFee.getFee nTxBytes
    else nFeeNeeded
  -- but always obey the maximum
  if nFeeNeeded > S.maxTxFee then S.maxTxFee else nFeeNeeded

theorem getMinimumFee_le (nTxBytes : Nat) : S.getMinimumFee nTxBytes ≤ S.maxTxFee := by
  have hcap : ∀ nFeeNeeded : Int,
      (if nFeeNeeded > S.maxTxFee then S.maxTxFee else nFeeNeeded) ≤ S.maxTxFee := by
    intro nFeeNeeded
    split
    · exact Int.le_refl _
    · omega
  exact hcap _

end SendRules

/-! ## Outputs -/

/-- The outputs of one payee in a splitter transaction; the last one gets the remainder. -/
def splitOutputs (nSplitBlock : Int) (s : CScript × Int) : List CTxOut :=
  (List.range nSplitBlock.toNat).map fun (i : Nat) =>
    if (i : Int) = nSplitBlock - 1 then
      ⟨s.2.tdiv nSplitBlock + s.2.tmod nSplitBlock, s.1, -10⟩
    else ⟨s.2.tdiv nSplitBlock, s.1, -10⟩

def payeeOutputs (minRelayTxFee : CFeeRate) (coinControl : Option SendControl)
    (vecSend : List (CScript × Int)) : Except String (List CTxOut) :=
  let splitter (nSplitBlock : Int) := Except.ok (vecSend.flatMap (splitOutputs nSplitBlock))
  match coinControl with
  | none => splitter 1
  | some cc =>
    if cc.fSplitBlock then splitter cc.nSplitBlock
    else
      let vout := vecSend.map fun s => ⟨s.2, s.1, -10⟩
      if vout.any fun txout => txout.isDust minRelayTxFee then
        .error "Transaction amount too small"
      else .ok vout

/-- The script that change goes to; there may be no key for it. -/
def changeScript (coinControl : Option SendControl) (reservedKey : Option Uint160) :
    Option CScript :=
  match coinControl with
  | some { destChange := .keyID keyID, .. } => some (scriptForDestination (.keyID keyID))
  | some { destChange := .scriptID scriptID, .. } =>
    some (scriptForDestination (.scriptID scriptID))
  | _ => reservedKey.map fun keyID => scriptForDestination (.keyID keyID)

/-- The outputs with the change, and the fee with the change that would be dust. -/
def addChange (minRelayTxFee : CFeeRate) (coinControl : Option SendControl) (draws : PassDraws)
    (vout : List CTxOut) (nFeeRet nChange : Int) : Option (List CTxOut × Int) :=
  if nChange > 0 then
    match changeScript coinControl draws.reservedKey with
    | none => none
    | some scriptChange =>
      let newTxOut : CTxOut := ⟨nChange, scriptChange, -10⟩
      -- never create dust outputs; if we would, just add the dust to the fee
      if newTxOut.isDust minRelayTxFee then some (vout, nFeeRet + nChange)
      else some (vout.insertIdx (draws.rand % (vout.length + 1)) newTxOut, nFeeRet)
  else some (vout, nFeeRet)

/-- Why `SelectCoins` failed. -/
def insufficient (coin_type : AvailableCoinsType) (useIX : Bool) : String :=
  (match coin_type with
    | .allCoins => "Insufficient funds."
    | .onlyNot10000IfMn =>
      "Unable to locate enough funds for this transaction that are not equal 10000 BBK."
    | .onlyNondenominatedNot10000IfMn =>
      "Unable to locate enough Obfuscation non-denominated funds for this transaction that are " ++
        "not equal 10000 BBK."
    | _ =>
      "Unable to locate enough Obfuscation denominated funds for this transaction. " ++
        "Obfuscation uses exact denominated amounts to send funds, " ++
        "you might simply need to anonymize some more coins.") ++
  if useIX then
    " SwiftTX requires inputs with at least 6 confirmations, " ++
      "you might need to wait a few minutes and try again."
  else ""

namespace CWallet

variable {K Key : Type} (S : SendRules K Key) (node : NodeView) (pw : CWallet K)

/-- The loop that signs the inputs, from a coin on. -/
def signCoins : List COutput → Nat → CTransaction → Option CTransaction
  | [], _, txNew => some txNew
  | coin :: setCoins, nIn, txNew =>
    match S.signer.signSignature (S.keystore pw.keys) coin.scriptPubKey txNew nIn 1 with
    | none => none
    | some txNew => signCoins setCoins (nIn + 1) txNew

/-- The body of the `while` loop. -/
def createPass (vecSend : List (CScript × Int)) (nValue : Int) (coinControl : Option SendControl)
    (coin_type : AvailableCoinsType) (useIX : Bool) (nFeePay : Int) (draws : PassDraws)
    (nFeeRet : Int) : PassEnd :=
  match payeeOutputs S.policy.minRelayTxFee coinControl vecSend with
  | .error strFailReason => .failed strFailReason
  | .ok vout =>
  match pw.selectCoins S.toWalletRules node S.rounds S.nObfuscationRounds draws.select
      (nValue + nFeeRet) (coinControl.map SendControl.toCCoinControl) coin_type useIX with
  | none => .threw
  | some none => .failed (insufficient coin_type useIX)
  | some (some (setCoins, nValueIn)) =>
  let nChange := nValueIn - nValue - nFeeRet
  -- over pay for denominated transactions
  let (nFeeRet, nChange) :=
    if coin_type = .onlyDenominated then (nFeeRet + nChange, 0) else (nFeeRet, nChange)
  match addChange S.policy.minRelayTxFee coinControl draws vout nFeeRet nChange with
  | none => .assertion
  | some (vout, nFeeRet) =>
  let coins := draws.order setCoins
  let vin := coins.map fun coin => ⟨coin.prevout, [], 2 ^ 32 - 1⟩
  match pw.signCoins S coins 0 { hash := 0, vin, vout } with
  | none => .failed "Signing transaction failed"
  | some txNew =>
  let wtxNew := { txNew with hash := S.txid txNew }
  let nBytes := wtxNew.size
  if nBytes ≥ MAX_STANDARD_TX_SIZE then .failed "Transaction too large"
  else if S.fSendFreeTransactions ∧ nBytes ≤ MAX_FREE_TRANSACTION_CREATE_SIZE ∧
      S.hasPriority coins nBytes = true then
    .done ⟨wtxNew, nFeeRet, coins⟩
  else
    let nFeeNeeded := max nFeePay (S.getMinimumFee nBytes)
    if nFeeRet ≥ nFeeNeeded then .done ⟨wtxNew, nFeeRet, coins⟩
    else .again nFeeNeeded

/-- The `while` loop, for `nPasses` passes at most. -/
def createLoop (vecSend : List (CScript × Int)) (nValue : Int) (coinControl : Option SendControl)
    (coin_type : AvailableCoinsType) (useIX : Bool) (nFeePay : Int) (draws : Nat → PassDraws) :
    Nat → Int → PassEnd
  | 0, nFeeRet => .again nFeeRet
  | nPasses + 1, nFeeRet =>
    match pw.createPass S node vecSend nValue coinControl coin_type useIX nFeePay (draws nPasses)
        nFeeRet with
    | .again nFeeRet =>
      createLoop vecSend nValue coinControl coin_type useIX nFeePay draws nPasses nFeeRet
    | passEnd => passEnd

/-- The sum of the amounts; it must not be negative before one is added. -/
def sumPayees : Int → List (CScript × Int) → Option Int
  | nValue, [] => if nValue < 0 then none else some nValue
  | nValue, s :: vecSend => if nValue < 0 then none else sumPayees (nValue + s.2) vecSend

def feePay (useIX : Bool) (nFeePay : Int) : Int := if useIX ∧ nFeePay < CENT then CENT else nFeePay

/-- `CreateTransaction`. No run of the loop needs more passes than it is given here. -/
def createTransaction (vecSend : List (CScript × Int)) (coinControl : Option SendControl)
    (coin_type : AvailableCoinsType) (useIX : Bool) (nFeePay : Int) (draws : Nat → PassDraws) :
    PassEnd :=
  let nFeePay := feePay useIX nFeePay
  match sumPayees 0 vecSend with
  | none => .failed "Transaction amounts must be positive"
  | some nValue =>
    if vecSend.isEmpty then .failed "Transaction amounts must be positive"
    else
      pw.createLoop S node vecSend nValue coinControl coin_type useIX nFeePay draws
        ((max nFeePay S.maxTxFee).toNat + 1) (if nFeePay > 0 then nFeePay else 0)

/-- `CommitTransaction`: the wallet with the transaction recorded, and whether the node took it. -/
def commitTransaction (R : Rules) (s : SpendState) (wtxNew : CWalletTx) : CWallet K × Bool :=
  (pw.addToWallet wtxNew false,
    s.acceptToMemoryPool R S.params S.policy S.signer.env node.nAdjustedTime wtxNew.tx)

end CWallet

end BitBlocks
