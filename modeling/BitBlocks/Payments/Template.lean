import BitBlocks.Node.Local

/-!
# Payees of a block template

What the node adds to the coinbase or the coinstake of a block of its own: the payment of
a masternode, or of a finalized budget (`masternode-payments.cpp`, `masternode-budget.cpp`).
Writing past the end of the outputs is undefined, and `none` here.
-/

namespace BitBlocks

structure CMutableTransaction where
  nVersion : Int := 1
  vin : List CTxIn
  vout : List CTxOut
  nLockTime : Nat := 0
deriving DecidableEq, Repr

/-- The transaction when it is done, with the hash it gets. -/
def CMutableTransaction.toTransaction (tx : CMutableTransaction) (hash : Uint256) : CTransaction :=
  { hash := hash, nVersion := tx.nVersion, vin := tx.vin, vout := tx.vout,
    nLockTime := tx.nLockTime }

/-- `vout.resize(n)`: outputs that are added are null. -/
def resizeOutputs (vout : List CTxOut) (n : Nat) : List CTxOut :=
  vout.take n ++ List.replicate (n - vout.length) CTxOut.null

theorem resizeOutputs_succ (vout : List CTxOut) :
    resizeOutputs vout (vout.length + 1) = vout ++ [CTxOut.null] := by
  simp [resizeOutputs]

theorem resizeOutputs_two (vout : List CTxOut) :
    ∃ out, resizeOutputs vout 2 = [vout.headD CTxOut.null, out] := by
  match vout with
  | [] => exact ⟨_, rfl⟩
  | [_] => exact ⟨_, rfl⟩
  | _ :: out :: _ => exact ⟨out, by simp [resizeOutputs]⟩

theorem modify_resizeOutputs (vout : List CTxOut) (f : CTxOut → CTxOut) :
    (resizeOutputs vout (vout.length + 1)).modify vout.length f = vout ++ [f CTxOut.null] := by
  rw [resizeOutputs_succ]
  induction vout with
  | nil => rfl
  | cons out vout ih => exact congrArg (out :: ·) ih

theorem modify_append_of_lt {vout vout' : List CTxOut} {i : Nat} (h : i < vout.length)
    (f : CTxOut → CTxOut) : (vout ++ vout').modify i f = vout.modify i f ++ vout' := by
  induction vout generalizing i with
  | nil => simp at h
  | cons out vout ih =>
    cases i with
    | zero => rfl
    | succ i => exact congrArg (out :: ·) (ih (by simpa using h))

/-! ## `GetMasternodePayment` -/

/-- `blockValue * (permille / 1000)`, exact, and cut off to an `int64_t`. -/
def partOf (blockValue permille : Int) : Int := (blockValue * permille).tdiv 1000

/-- The masternodes' part of a block, with exact percentages; the count is not used. -/
def getMasternodePayment (nHeight blockValue _nMasternodeCount : Int) : Int :=
  if nHeight < 101 then partOf blockValue 0
  else if nHeight < 20000 then partOf blockValue 600
  else if nHeight ≤ 40000 ∧ nHeight ≥ 20000 then partOf blockValue 650
  else if nHeight ≤ 60000 ∧ nHeight ≥ 40001 then partOf blockValue 700
  else if nHeight ≤ 80000 ∧ nHeight ≥ 60001 then partOf blockValue 750
  else if nHeight ≤ 100000 ∧ nHeight ≥ 80001 then partOf blockValue 800
  else if nHeight ≤ 400000 ∧ nHeight ≥ 100001 then partOf blockValue 700
  else if nHeight ≤ 700000 ∧ nHeight ≥ 400001 then partOf blockValue 705
  else if nHeight ≤ 1000000 ∧ nHeight ≥ 700001 then partOf blockValue 710
  else if nHeight ≤ 1200000 ∧ nHeight ≥ 1000001 then partOf blockValue 715
  else if nHeight ≤ 1500000 ∧ nHeight ≥ 1200001 then partOf blockValue 720
  else if nHeight ≤ 2000000 ∧ nHeight ≥ 1500001 then partOf blockValue 725
  else if nHeight ≤ 2500000 ∧ nHeight ≥ 2000001 then partOf blockValue 730
  else if nHeight ≤ 3000000 ∧ nHeight ≥ 2500001 then partOf blockValue 735
  else if nHeight ≤ 3500000 ∧ nHeight ≥ 3000001 then partOf blockValue 740
  else if nHeight ≤ 4000000 ∧ nHeight ≥ 3500001 then partOf blockValue 745
  else if nHeight ≤ 4500000 ∧ nHeight ≥ 4000001 then partOf blockValue 750
  else if nHeight ≤ 5000000 ∧ nHeight ≥ 4500001 then partOf blockValue 755
  else if nHeight ≤ 5500000 ∧ nHeight ≥ 5000001 then partOf blockValue 760
  else if nHeight ≤ 6000000 ∧ nHeight ≥ 5500001 then partOf blockValue 765
  else if nHeight ≤ 7000000 ∧ nHeight ≥ 6000001 then partOf blockValue 770
  else if nHeight ≤ 8000000 ∧ nHeight ≥ 7000001 then partOf blockValue 775
  else if nHeight ≤ 9000000 ∧ nHeight ≥ 8000001 then partOf blockValue 780
  else if nHeight ≤ 10000000 ∧ nHeight ≥ 9000001 then partOf blockValue 785
  else if nHeight ≤ 20000000 ∧ nHeight ≥ 10000001 then partOf blockValue 790
  else if nHeight ≤ 30000000 ∧ nHeight ≥ 20000001 then partOf blockValue 795
  else if nHeight ≤ 50000000 ∧ nHeight ≥ 30000001 then partOf blockValue 800
  else if nHeight ≥ 50000001 then partOf blockValue 900
  else partOf blockValue 700

/-- The rules with `GetMasternodePayment` read exactly. -/
def Rules.exact (R : Rules) : Rules :=
  { R with getMasternodePayment := BitBlocks.getMasternodePayment }

/-! ## Masternode payments -/

/-- `CMasternodeBlockPayees::GetPayee`: the first of those with the most votes. -/
def getPayee (vecPayments : List CMasternodePayee) : Option CScript :=
  let best := vecPayments.foldl (fun (best : Int × CScript) p =>
    if p.nVotes > best.1 then (p.nVotes, p.scriptPubKey) else best) (-1, [])
  if best.1 > -1 then some best.2 else none

namespace LocalState

/-- `CMasternodePayments::GetBlockPayee`. -/
def getBlockPayee (env : LocalState) (nBlockHeight : Int) : Option CScript :=
  (env.mapMasternodeBlocks nBlockHeight).bind getPayee

/-- `CMasternodePayments::FillBlockPayee`, given the payee of `GetCurrentMasterNode(1)`. -/
def fillMasternodePayee (env : LocalState) (R : Rules) (currentMasterNode : Option CScript)
    (tip : TipView) (txNew : CMutableTransaction) (fProofOfStake : Bool) :
    Option CMutableTransaction :=
  match tip.tip with
  | none => some txNew
  | some (_, nHeight) =>
    let blockValue := getBlockValue nHeight
    let masternodePayment := R.getMasternodePayment nHeight blockValue 0
    match (env.getBlockPayee (nHeight + 1)).or currentMasterNode with
    | some payee =>
      if fProofOfStake then
        let i := txNew.vout.length
        -- `vout[i - 1]`
        if i = 0 then none
        else
          let vout := (resizeOutputs txNew.vout (i + 1)).modify i fun out =>
            { out with scriptPubKey := payee, nValue := masternodePayment }
          -- subtract mn payment from the stake reward
          let vout := vout.modify (i - 1) fun out =>
            { out with nValue := out.nValue - masternodePayment }
          some { txNew with vout := vout }
      else
        let vout := (resizeOutputs txNew.vout 2).modify 1 fun out =>
          { out with scriptPubKey := payee, nValue := masternodePayment }
        let vout := vout.modify 0 fun out => { out with nValue := blockValue - masternodePayment }
        some { txNew with vout := vout }
    | none =>
      if txNew.vout.isEmpty then none
      else some { txNew with vout := txNew.vout.modify 0 fun out =>
        { out with nValue := blockValue } }

/-! ## Budget payments -/

/-- `CFinalizedBudget::GetPayeeAndAmount`. -/
def getPayeeAndAmount (b : CFinalizedBudget) (nBlockHeight : Int) : Option CTxBudgetPayment :=
  let i := nBlockHeight - b.nBlockStart
  if i < 0 then none
  else if i > b.vecBudgetPayments.length - 1 then none
  else b.vecBudgetPayments[i.toNat]?

/-- The payment of the budget with the most votes, and how many it has. -/
def highestPayment (env : LocalState) (nBlockHeight : Int) : Int × Option CTxBudgetPayment :=
  env.mapFinalizedBudgets.foldl (fun best b =>
    if decide (b.nVoteCount > best.1) && b.covers nBlockHeight then
      match getPayeeAndAmount b nBlockHeight with
      | some payment => (b.nVoteCount, some payment)
      | none => best
    else best) (0, none)

/-- `CBudgetManager::FillBlockPayee`. -/
def fillBudgetPayee (env : LocalState) (tip : TipView) (txNew : CMutableTransaction)
    (fProofOfStake : Bool) : Option CMutableTransaction :=
  match tip.tip with
  | none => some txNew
  | some (_, nHeight) =>
    let (nHighestCount, payment) := env.highestPayment (nHeight + 1)
    let payment := payment.getD { payee := [], nAmount := 0 }
    let pay := fun out : CTxOut =>
      { out with scriptPubKey := payment.payee, nValue := payment.nAmount }
    if fProofOfStake then
      if nHighestCount > 0 then
        let i := txNew.vout.length
        some { txNew with vout := (resizeOutputs txNew.vout (i + 1)).modify i pay }
      else some txNew
    else if txNew.vout.isEmpty then none
    else
      -- miners get the full amount on these blocks
      let vout := txNew.vout.modify 0 fun out => { out with nValue := getBlockValue nHeight }
      if nHighestCount > 0 then
        -- these are super blocks, so their value can be much larger than normal
        some { txNew with vout := (resizeOutputs vout 2).modify 1 pay }
      else some { txNew with vout := vout }

/-- `FillBlockPayee`. -/
def fillBlockPayee (env : LocalState) (R : Rules) (currentMasterNode : Option CScript)
    (tip : TipView) (txNew : CMutableTransaction) (fProofOfStake : Bool) :
    Option CMutableTransaction :=
  match tip.tip with
  | none => some txNew
  | some (_, nHeight) =>
    if env.isSporkActive SPORK_13_ENABLE_SUPERBLOCKS && env.isBudgetPaymentBlock (nHeight + 1) then
      env.fillBudgetPayee tip txNew fProofOfStake
    else env.fillMasternodePayee R currentMasterNode tip txNew fProofOfStake

end LocalState

end BitBlocks
