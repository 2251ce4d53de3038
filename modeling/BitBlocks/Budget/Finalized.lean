import BitBlocks.Lib.Checks
import BitBlocks.Payments.Template
import BitBlocks.Script.SignatureHash

/-!
# Finalized budgets (`CFinalizedBudget::IsValid`)

A finalized budget lists payments, one for each block from its start on. It is checked once, when
it arrives: where it starts, how long it is, that its fee was paid, and that its payments together
are no more than the budget of the cycle. The amounts themselves are not looked at, and there is
no budget: `GetTotalBudget` returns 0.
-/

namespace BitBlocks

open Wrap Checks CompactSize

/-- `PROPOSAL_FEE_TX`. -/
def PROPOSAL_FEE_TX : Int := 50 * COIN

def BUDGET_FEE_CONFIRMATIONS : Int := 6

/-- What the checks of a budget or a proposal read of the chain and the pools. -/
structure CollateralView where
  /-- `GetTransaction`: the transaction, and the hash of the block it is in, or 0. -/
  getTransaction : Uint256 → Option (CTransaction × Uint256)
  /-- `GetIXConfirmations`. -/
  getIXConfirmations : Uint256 → Int
  /-- Height and time of a block of the active chain. -/
  activeBlock : Uint256 → Option (Int × Int)
  /-- The height of `chainActive.Tip()`. -/
  tip : Option Int
  /-- `ToString` of a transaction, and of the empty one. -/
  txText : Option CTransaction → String

/-- What `IsBudgetCollateralValid` returns, also through its reference arguments. -/
structure CollateralCheck where
  nTime : Int
  nConf : Int := 0
  result : Except String Unit

namespace CollateralView

variable (view : CollateralView)

/-- `chainActive.Height()`. -/
def height : Int := view.tip.getD (-1)

/-- The loop over the outputs: whether one pays the fee, and says for what. -/
def findOpReturn (txCollateral : CTransaction) (findScript : CScript) :
    Bool → List CTxOut → Except String Bool
  | foundOpReturn, [] => .ok foundOpReturn
  | foundOpReturn, o :: vout =>
    if !o.scriptPubKey.isNormalPaymentScript && !o.scriptPubKey.isUnspendable then
      .error ("Invalid Script " ++ view.txText (some txCollateral))
    else
      findOpReturn txCollateral findScript
        (foundOpReturn || o.scriptPubKey == findScript && decide (o.nValue ≥ PROPOSAL_FEE_TX)) vout

def isBudgetCollateralValid (nTxCollateralHash nExpectedHash : Uint256) (nTime : Int) :
    CollateralCheck :=
  match view.getTransaction nTxCollateralHash with
  | none => { nTime := nTime, result := .error ("Can't find collateral tx " ++ view.txText none) }
  | some (txCollateral, nBlockHash) =>
    if txCollateral.vout.length < 1 then { nTime := nTime, result := .error "" }
    else if txCollateral.nLockTime ≠ 0 then { nTime := nTime, result := .error "" }
    else
      let findScript := OP_RETURN :: CScript.push (writeLE 32 nExpectedHash)
      match view.findOpReturn txCollateral findScript false txCollateral.vout with
      | .error strError => { nTime := nTime, result := .error strError }
      | .ok false =>
        { nTime := nTime
          result := .error ("Couldn't find opReturn " ++
            String.ofList (uint256ToString nExpectedHash) ++ " in " ++
            view.txText (some txCollateral)) }
      | .ok true =>
        -- retrieve confirmations and nTime
        let (conf, nTime) :=
          match view.activeBlock nBlockHash with
          | none => (view.getIXConfirmations nTxCollateralHash, nTime)
          | some (nHeight, nBlockTime) =>
            if nBlockHash = 0 then (view.getIXConfirmations nTxCollateralHash, nTime)
            else (view.getIXConfirmations nTxCollateralHash + (view.height - nHeight + 1),
              nBlockTime)
        -- without SwiftTX information, confirmations of the block are enough
        { nTime := nTime, nConf := conf
          result := failIf (decide (conf < BUDGET_FEE_CONFIRMATIONS))
            ("Collateral requires at least " ++ toString BUDGET_FEE_CONFIRMATIONS ++
              " confirmations - " ++ toString conf ++ " confirmations") }

end CollateralView

/-- `CBudgetManager::GetTotalBudget`. -/
def getTotalBudget (_nHeight : Int) : Int := 0

/-- A finalized budget with the fields that only its check reads. -/
structure CFinalizedBudgetBroadcast extends CFinalizedBudget where
  strBudgetName : String
  nFeeTXHash : Uint256
  nTime : Int

namespace CFinalizedBudget

/-- `GetTotalPayout`. -/
def getTotalPayout (b : CFinalizedBudget) : Int :=
  sum64 0 (b.vecBudgetPayments.map CTxBudgetPayment.nAmount)

/-- Every payment pays something, and all of them together no more than the budget. -/
structure NeverOverpays (b : CFinalizedBudget) : Prop where
  positive : ∀ payment ∈ b.vecBudgetPayments, 0 < payment.nAmount
  total : (b.vecBudgetPayments.map CTxBudgetPayment.nAmount).sum ≤ getTotalBudget b.nBlockStart
  single : ∀ nBlockHeight payment, LocalState.getPayeeAndAmount b nBlockHeight = some payment →
    payment.nAmount ≤ getTotalBudget b.nBlockStart

end CFinalizedBudget

namespace CFinalizedBudgetBroadcast

variable (P : CChainParams) (getHash : CFinalizedBudgetBroadcast → Uint256)
  (view : CollateralView)

/-- The checks of `IsValid` before that of the total. -/
def checkTerms (b : CFinalizedBudgetBroadcast) : Except String Unit := do
  -- must be the correct block for payment to happen (once a month)
  failIf (b.nBlockStart.tmod P.getBudgetPaymentCycleBlocks != 0) "Invalid BlockStart"
  failIf (decide (b.getBlockEnd - b.nBlockStart > 100)) "Invalid BlockEnd"
  failIf (decide (b.vecBudgetPayments.length > 100)) "Invalid budget payments count (too many)"
  failIf (b.strBudgetName == "") "Invalid Budget Name"
  failIf (b.nBlockStart == 0) "Invalid BlockStart == 0"
  failIf (b.nFeeTXHash == 0) "Invalid FeeTx == 0"

def checkChain (b : CFinalizedBudgetBroadcast) (fCheckCollateral : Bool) : Except String Unit := do
  if fCheckCollateral then
    match (view.isBudgetCollateralValid b.nFeeTXHash (getHash b) b.nTime).result with
    | .error strError2 => .error ("Invalid Collateral : " ++ strError2)
    | .ok () => .ok ()
  match view.tip with
  | none => .ok ()
  | some nHeight => failIf (decide (b.nBlockStart < nHeight - 100)) "Older than current blockHeight"

/-- `CFinalizedBudget::IsValid`. -/
def isValid (b : CFinalizedBudgetBroadcast) (fCheckCollateral : Bool) : Except String Unit := do
  b.checkTerms P
  -- can only pay out 10% of the possible coins (min value of coins)
  failIf (decide (b.getTotalPayout > getTotalBudget b.nBlockStart)) "Invalid Payout (more than max)"
  b.checkChain getHash view fCheckCollateral

variable {P getHash view} {b : CFinalizedBudgetBroadcast} {fCheckCollateral : Bool}

theorem isValid_iff : b.isValid P getHash view fCheckCollateral = .ok () ↔ b.checkTerms P = .ok () ∧
      wrap64 (b.vecBudgetPayments.map CTxBudgetPayment.nAmount).sum ≤ 0 ∧
      b.checkChain getHash view fCheckCollateral = .ok () := by
  have htotal : b.getTotalPayout =
      wrap64 (b.vecBudgetPayments.map CTxBudgetPayment.nAmount).sum := by
    rw [CFinalizedBudget.getTotalPayout, sum64_of_wrapped rfl, Int.zero_add]
  rw [isValid]
  simp only [bind_eq_ok, exists_unit, failIf_eq_ok, htotal, getTotalBudget]
  simp

theorem neverOverpays_iff : b.NeverOverpays ↔ b.vecBudgetPayments = [] := by
  constructor
  · intro h
    cases hpayments : b.vecBudgetPayments with
    | nil => rfl
    | cons payment payments =>
      have hpos := h.positive payment (by rw [hpayments]; exact List.mem_cons_self)
      have hsingle := h.single b.nBlockStart payment (by
        rw [LocalState.getPayeeAndAmount, hpayments]
        simp)
      rw [getTotalBudget] at hsingle
      omega
  · intro h
    refine ⟨?_, ?_, fun nBlockHeight payment hpay => ?_⟩
    · rw [h]
      exact fun payment hmem => absurd hmem List.not_mem_nil
    · rw [h]
      exact Int.le_refl _
    · rw [LocalState.getPayeeAndAmount, h] at hpay
      simp at hpay

/--
**When a valid budget does not overpay.** Nothing keeps the amounts positive, or their sum from
wrapping, so what is refused is not what overpays: a budget that passes the other checks should
have no payments, or is refused for a sum that is positive in 64 bits.
-/
theorem valid_neverOverpays_iff (P : CChainParams) (getHash : CFinalizedBudgetBroadcast → Uint256)
    (view : CollateralView) (b : CFinalizedBudgetBroadcast) (fCheckCollateral : Bool) :
    (b.isValid P getHash view fCheckCollateral = .ok () → b.NeverOverpays) ↔
      (b.checkTerms P = .ok () → b.checkChain getHash view fCheckCollateral = .ok () →
        b.vecBudgetPayments = [] ∨
          0 < wrap64 (b.vecBudgetPayments.map CTxBudgetPayment.nAmount).sum) := by
  rw [isValid_iff, neverOverpays_iff]
  constructor
  · intro h hterms hchain
    by_cases hpos : 0 < wrap64 (b.vecBudgetPayments.map CTxBudgetPayment.nAmount).sum
    · exact .inr hpos
    · exact .inl (h ⟨hterms, by omega, hchain⟩)
  · rintro h ⟨hterms, hsum, hchain⟩
    rcases h hterms hchain with hempty | hpos
    · exact hempty
    · omega

/-! ### Two payments that cancel out -/

/-- A transaction that pays the fee of a budget with hash 7. -/
def feeTx : CTransaction where
  hash := 2
  nVersion := 1
  vin := []
  vout := [⟨50 * COIN, OP_RETURN :: CScript.push (writeLE 32 7), -10⟩]
  nLockTime := 0

def feePaid : CollateralView where
  getTransaction _ := some (feeTx, 3)
  getIXConfirmations _ := 0
  activeBlock _ := some (43000, 1000)
  tip := some 43100
  txText _ := ""

def cancelling : CFinalizedBudgetBroadcast where
  nBlockStart := 43200
  vecBudgetPayments := [⟨[1], 100 * COIN⟩, ⟨[2], -(100 * COIN)⟩]
  nVoteCount := 1
  strBudgetName := "main"
  nFeeTXHash := 2
  nTime := 0

theorem cancelling_valid : cancelling.isValid mainParams (fun _ => 7) feePaid true = .ok () ∧
    LocalState.getPayeeAndAmount cancelling.toCFinalizedBudget 43200 = some ⟨[1], 100 * COIN⟩ ∧
    ¬ cancelling.NeverOverpays := by
  refine ⟨rfl, rfl, ?_⟩
  rw [neverOverpays_iff]
  exact List.cons_ne_nil _ _

end CFinalizedBudgetBroadcast

end BitBlocks
