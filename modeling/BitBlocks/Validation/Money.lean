import BitBlocks.Lib.Reader
import BitBlocks.Validation.Connected

/-!
# Sums of money

`CheckTransaction`, `GetValueOut` and `CheckInputs` look at every partial sum, so no
addition for one transaction wraps. The three sums `ConnectBlock` keeps for a whole block
are looked at by nothing. A coin that is spent again and again in one block counts each
time, so they may leave the range of an `int64_t` in a block of a few kilobytes.
-/

namespace BitBlocks

open Checks Wrap LocalState CCoinsView

/-! ## One transaction -/

/-- The values of the outputs the inputs refer to. -/
def CCoinsView.inputValues (v : CCoinsView) (tx : CTransaction) : List Int :=
  tx.vin.map fun txin => (v.getOutputFor txin).nValue

def CCoinsView.valueIn (v : CCoinsView) (tx : CTransaction) : Int := (v.inputValues tx).sum

/-- What holds of the amounts of a transaction, and of the additions they are made with. -/
structure TxMoney (P : CChainParams) (view : CCoinsView) (tx : CTransaction) : Prop where
  nonneg : 0 ≤ valueOut tx
  balance : valueOut tx ≤ view.valueIn tx
  total : view.valueIn tx ≤ P.nMaxMoneyOut
  distinct : (tx.vin.map CTxIn.prevout).Nodup
  /-- In `CheckTransaction` and in `GetValueOut`. -/
  outputs : SumFits 0 (tx.vout.map CTxOut.nValue)
  /-- In `CheckInputs`. -/
  inputs : SumFits 0 (view.inputValues tx)
  /-- `nTxFee`, and `nFees`, which starts from zero. -/
  fee : Fits (view.valueIn tx - valueOut tx)

theorem CChainParams.nMaxMoneyOut_lt (P : CChainParams) : P.nMaxMoneyOut < 2 ^ 63 := by
  have hmax := P.nMaxMoneyOut_range.2
  unfold COIN at hmax
  omega

variable {P : CChainParams} {tx : CTransaction}

theorem TxChecked.sumFits (h : TxChecked P tx) : SumFits 0 (tx.vout.map CTxOut.nValue) := by
  refine sumFits_of_nonneg (Int.le_refl 0) ?_ ?_
  · intro x hx
    obtain ⟨o, ho, rfl⟩ := List.mem_map.mp hx
    exact h.nonneg o ho
  · have htotal := h.total
    have hmax := P.nMaxMoneyOut_lt
    unfold valueOut at htotal
    omega

/-- **Money never overflows in one transaction.** -/
theorem txMoney_of_checked {R : Rules} {view : CCoinsView} {nSpendHeight : Int}
    {fScriptChecks : Bool} {flags : ScriptFlags} (h : checkTransaction R P tx = .ok ())
    (h' : checkInputs R P tx view nSpendHeight fScriptChecks flags = .ok ())
    (hcb : tx.isCoinBase = false) (hcs : tx.isCoinStake = false) : TxMoney P view tx := by
  have htx := checkTransaction_ok h
  have hin := checkInputs_ok htx hcb h'
  have hnonneg := htx.valueOut_nonneg
  have hbalance : valueOut tx ≤ view.valueIn tx := hin.balance hcs
  have htotal : view.valueIn tx ≤ P.nMaxMoneyOut := hin.total
  have hmax := P.nMaxMoneyOut_lt
  refine ⟨hnonneg, hbalance, htotal, htx.distinct, htx.sumFits, ?_, ?_⟩
  · refine sumFits_of_nonneg (Int.le_refl 0) ?_ ?_
    · intro x hx
      obtain ⟨txin, htxin, rfl⟩ := List.mem_map.mp hx
      exact (hin.mature txin htxin).nonneg
    · unfold valueIn at htotal
      omega
  · constructor
    · omega
    · omega

/-! ## One block -/

section

variable (R : Rules) (P : CChainParams) (c : LoopContext) (st : LoopState) (tx : CTransaction)

/-- The round gets as far as to add what its transaction spends. -/
def addsInputs : Bool :=
  !decide (st.nSigOps + R.getLegacySigOpCount tx > MAX_BLOCK_SIGOPS) && !tx.isCoinBase &&
    st.view.haveInputs tx &&
    !(c.flags.p2sh && decide (st.nSigOps + R.getLegacySigOpCount tx +
      R.getP2SHSigOpCount tx (tx.vin.map st.view.getOutputFor) > MAX_BLOCK_SIGOPS))

/-- The round gets as far as to add what its transaction pays. -/
def addsOutputs : Bool := !decide (st.nSigOps + R.getLegacySigOpCount tx > MAX_BLOCK_SIGOPS) &&
    (connectInputs R P c st tx (st.nSigOps + R.getLegacySigOpCount tx)).isOk

structure RoundFits : Prop where
  /-- In `GetValueIn`. -/
  values : addsInputs R c st tx = true → SumFits 0 (st.view.inputValues tx)
  nFees : addsInputs R c st tx = true → tx.isCoinStake = false → ∀ nValueOut,
    tx.getValueOut = .ok nValueOut → Fits (st.view.getValueIn tx - nValueOut) ∧
      Fits (st.nFees + (st.view.getValueIn tx - nValueOut))
  nValueIn : addsInputs R c st tx = true → Fits (st.nValueIn + st.view.getValueIn tx)
  nValueOut : addsOutputs R P c st tx = true → ∀ nValueOut, tx.getValueOut = .ok nValueOut →
    Fits (st.nValueOut + nValueOut)

/-- What a round adds to `nValueIn`, and to `nValueOut`. -/
def roundIn : Int := if addsInputs R c st tx then st.view.valueIn tx else 0

def roundOut : Int := if addsOutputs R P c st tx then valueOut tx else 0

end

section

variable (R : Rules) (P : CChainParams) (c : LoopContext)

/-- No addition of the loop wraps, as far as the loop gets. -/
def RunFits : LoopState → List CTransaction → Prop
  | _, [] => True
  | st, tx :: vtx =>
    RoundFits R P c st tx ∧
      match connectTx R P c st tx with
      | .ok st => RunFits st vtx
      | .error _ => True

/-- The value of all coins that are spent, as far as the loop gets. -/
def spentFrom : LoopState → List CTransaction → Int
  | _, [] => 0
  | st, tx :: vtx =>
    roundIn R c st tx +
      match connectTx R P c st tx with
      | .ok st => spentFrom st vtx
      | .error _ => 0

/-- The value of all outputs, as far as the loop gets. -/
def paidFrom : LoopState → List CTransaction → Int
  | _, [] => 0
  | st, tx :: vtx =>
    roundOut R P c st tx +
      match connectTx R P c st tx with
      | .ok st => paidFrom st vtx
      | .error _ => 0

end

/-! ## What a round does to the sums -/

/-- No coin has a negative value: each is an output of a transaction that was checked. -/
def CCoinsView.NonnegCoins (v : CCoinsView) : Prop :=
  ∀ o : COutPoint, v.haveInput o = true → 0 ≤ ((v.get o.hash).out o.n).nValue

variable {R : Rules} {P : CChainParams} {c : LoopContext} {st st' : LoopState} {tx : CTransaction}

/-- The sums after a round that goes through. -/
structure Counted (R : Rules) (P : CChainParams) (c : LoopContext) (tx : CTransaction)
    (st st' : LoopState) : Prop where
  inputs : addsInputs R c st tx = !tx.isCoinBase
  outputs : addsOutputs R P c st tx = true
  nValueOut : st'.nValueOut = wrap64 (st.nValueOut + valueOut tx)
  nValueIn : st'.nValueIn =
    if tx.isCoinBase then st.nValueIn else wrap64 (st.nValueIn + st.view.getValueIn tx)
  nFees : st'.nFees = if tx.isCoinBase || tx.isCoinStake then st.nFees
    else wrap64 (st.nFees + wrap64 (st.view.getValueIn tx - valueOut tx))

theorem connectTx_counted (htx : TxChecked P tx) (h : connectTx R P c st tx = .ok st') :
    Counted R P c tx st st' := by
  unfold connectTx at h
  simp only [bind_eq_ok, exists_unit, failIf_eq_ok, htx.getValueOut_eq, Except.ok.injEq,
    exists_eq_left'] at h
  obtain ⟨hsigops, ⟨nSigOps, nFees, nValueIn⟩, hin, h⟩ := h
  have hout : addsOutputs R P c st tx = true := by
    unfold addsOutputs
    rw [hsigops, hin]
    rfl
  split at h
  · simp at h
  · rename_i view txundo hu
    rw [Except.ok.injEq] at h
    subst h
    unfold connectInputs at hin
    cases hcb : tx.isCoinBase with
    | true =>
      rw [hcb] at hin
      simp only [if_true, Except.ok.injEq, Prod.mk.injEq] at hin
      obtain ⟨-, rfl, rfl⟩ := hin
      refine ⟨?_, hout, rfl, ?_, ?_⟩
      · simp [addsInputs, hcb]
      · simp [hcb]
      · simp [hcb]
    | false =>
      rw [hcb] at hin
      simp only [Bool.false_eq_true, if_false, bind_eq_ok, exists_unit, failIf_eq_ok,
        Bool.not_eq_false', Except.ok.injEq, Prod.mk.injEq] at hin
      obtain ⟨hhave, hp2sh, fees, hfees, -, -, rfl, rfl⟩ := hin
      refine ⟨?_, hout, rfl, ?_, ?_⟩
      · unfold addsInputs
        rw [hsigops, hcb, hhave]
        cases hflag : c.flags.p2sh with
        | false => rfl
        | true =>
          rw [hflag] at hp2sh
          simpa using hp2sh
      · simp [hcb]
      · unfold addFees at hfees
        cases hst : tx.isCoinStake with
        | true =>
          rw [hst] at hfees
          simpa [hcb, hst] using hfees.symm
        | false =>
          rw [hst] at hfees
          simp only [Bool.false_eq_true, if_false, htx.getValueOut_eq, bind_eq_ok,
            Except.ok.injEq, exists_eq_left'] at hfees
          rw [hcb, Bool.or_self, if_neg (by simp)]
          exact hfees.symm

/-- What the loop starts from, and keeps as long as nothing wraps. -/
structure Summed (st : LoopState) : Prop where
  wf : st.view.WF
  coins : st.view.NonnegCoins
  nFees : 0 ≤ st.nFees
  nFees_le : st.nFees ≤ st.nValueIn
  nValueOut : 0 ≤ st.nValueOut

theorem inputValues_nonneg (hv : st.view.NonnegCoins) (h : addsInputs R c st tx = true) :
    ∀ x ∈ st.view.inputValues tx, 0 ≤ x := by
  intro x hx
  obtain ⟨txin, htxin, rfl⟩ := List.mem_map.mp hx
  unfold addsInputs at h
  rw [Bool.and_eq_true, Bool.and_eq_true, Bool.and_eq_true] at h
  obtain ⟨⟨⟨-, hcb⟩, hhave⟩, -⟩ := h
  unfold haveInputs at hhave
  rw [Bool.not_eq_true'] at hcb
  rw [hcb, Bool.false_or, List.all_eq_true] at hhave
  exact hv txin.prevout (hhave txin htxin)

theorem isCoinBase_of_addsInputs (h : addsInputs R c st tx = true) : tx.isCoinBase = false := by
  unfold addsInputs at h
  rw [Bool.and_eq_true, Bool.and_eq_true, Bool.and_eq_true] at h
  simpa using h.1.1.2

theorem getValueIn_eq (hcb : tx.isCoinBase = false) (h : SumFits 0 (st.view.inputValues tx)) :
    st.view.getValueIn tx = st.view.valueIn tx := by
  unfold CCoinsView.getValueIn
  rw [hcb, if_neg (by simp)]
  have hsum := h.sum64_eq
  rw [Int.zero_add] at hsum
  exact hsum

/-- **A round fits** just if the totals do. Of the fees nothing is asked. -/
theorem roundFits_iff (hs : Summed st) (htx : TxChecked P tx) : RoundFits R P c st tx ↔
      (addsInputs R c st tx = true → st.nValueIn + st.view.valueIn tx < 2 ^ 63) ∧
        (addsOutputs R P c st tx = true → st.nValueOut + valueOut tx < 2 ^ 63) := by
  have hout := htx.valueOut_nonneg
  have hmax := Int.lt_of_le_of_lt htx.total P.nMaxMoneyOut_lt
  have hfees := hs.nFees
  have hle := hs.nFees_le
  have hpaid := hs.nValueOut
  have hvalue : ∀ nValueOut, tx.getValueOut = .ok nValueOut ↔ nValueOut = valueOut tx := by
    intro nValueOut
    rw [htx.getValueOut_eq, Except.ok.injEq, eq_comm]
  constructor
  · intro h
    refine ⟨?_, ?_⟩
    · intro hadds
      have hexact := getValueIn_eq (isCoinBase_of_addsInputs hadds) (h.values hadds)
      rw [← hexact]
      exact (h.nValueIn hadds).2
    · intro hadds
      exact (h.nValueOut hadds _ ((hvalue _).mpr rfl)).2
  · rintro ⟨hin, hpays⟩
    have hvalues : addsInputs R c st tx = true → SumFits 0 (st.view.inputValues tx) := by
      intro hadds
      have htotal : st.nValueIn + (st.view.inputValues tx).sum < 2 ^ 63 := hin hadds
      exact sumFits_of_nonneg (Int.le_refl 0) (inputValues_nonneg hs.coins hadds) (by omega)
    have hsum : addsInputs R c st tx = true →
        st.view.getValueIn tx = st.view.valueIn tx ∧ 0 ≤ st.view.valueIn tx := by
      intro hadds
      exact ⟨getValueIn_eq (isCoinBase_of_addsInputs hadds) (hvalues hadds),
        List.sum_nonneg (inputValues_nonneg hs.coins hadds)⟩
    refine ⟨hvalues, ?_, ?_, ?_⟩
    · intro hadds _ nValueOut hvalueOut
      obtain ⟨hexact, hnonneg⟩ := hsum hadds
      have hlt := hin hadds
      rw [hexact, (hvalue _).mp hvalueOut]
      exact ⟨⟨by omega, by omega⟩, ⟨by omega, by omega⟩⟩
    · intro hadds
      obtain ⟨hexact, hnonneg⟩ := hsum hadds
      have hlt := hin hadds
      rw [hexact]
      exact ⟨by omega, by omega⟩
    · intro hadds nValueOut hvalueOut
      have hlt := hpays hadds
      rw [(hvalue _).mp hvalueOut]
      exact ⟨by omega, by omega⟩

/-! ## What a run does to them -/

theorem NonnegCoins.update {v v' : CCoinsView} {nHeight : Int} (hv : v.NonnegCoins)
    (htx : tx.OutputsNonneg) (h : TxApplied tx nHeight v v') : v'.NonnegCoins := by
  intro o ho
  have havailable := CCoins.isAvailable_iff.mp ho
  by_cases hown : o.hash = tx.hash
  · rw [hown, h.own, CCoins.out_fromTx htx] at havailable ⊢
    split at havailable
    · exact absurd havailable (by simp)
    · rename_i hspendable
      rw [if_neg hspendable]
      rw [List.getD_eq_getElem?_getD] at havailable ⊢
      cases hout : tx.vout[o.n]? with
      | none =>
        rw [hout] at havailable
        exact absurd havailable (by simp)
      | some out => exact htx out (List.mem_of_getElem? hout)
  · rw [h.out o.hash hown] at havailable ⊢
    split at havailable
    · exact absurd havailable (by simp)
    · rename_i hkept
      rw [if_neg hkept]
      exact hv o (CCoins.isAvailable_iff.mpr havailable)

theorem coins_connectTx (hv : st.view.WF) (hn : st.view.NonnegCoins) (htx : TxChecked P tx)
    (h : connectTx R P c st tx = .ok st') : st'.view.WF ∧ st'.view.NonnegCoins := by
  obtain ⟨txundo, hconnected⟩ := connectTx_ok hv htx h
  have happlied := updateCoins_applied hv htx.nonneg hconnected.update
  exact ⟨happlied.wf, NonnegCoins.update hn htx.nonneg happlied⟩

/-- **The step**: a round that goes through and fits adds what it should. -/
theorem Summed.connectTx (hs : Summed st) (htx : TxChecked P tx)
    (h : connectTx R P c st tx = .ok st') (hfits : RoundFits R P c st tx) :
    Summed st' ∧ st'.nValueIn = st.nValueIn + roundIn R c st tx ∧
      st'.nValueOut = st.nValueOut + roundOut R P c st tx := by
  have hcount := connectTx_counted htx h
  obtain ⟨txundo, hconnected⟩ := connectTx_ok hs.wf htx h
  obtain ⟨hwf, hcoins⟩ := coins_connectTx hs.wf hs.coins htx h
  have hfees := hs.nFees
  have hle := hs.nFees_le
  have hpaid := hs.nValueOut
  have hnonneg := htx.valueOut_nonneg
  have hvalueOut := hfits.nValueOut hcount.outputs _ htx.getValueOut_eq
  have hout : st'.nValueOut = st.nValueOut + valueOut tx := by
    rw [hcount.nValueOut, hvalueOut.wrap64_eq]
  have hround : roundOut R P c st tx = valueOut tx := if_pos hcount.outputs
  cases hcb : tx.isCoinBase with
  | true =>
    have hnone : roundIn R c st tx = 0 := by
      unfold roundIn
      rw [hcount.inputs, hcb]
      rfl
    have hin : st'.nValueIn = st.nValueIn := by rw [hcount.nValueIn, hcb, if_pos rfl]
    have hfee : st'.nFees = st.nFees := by rw [hcount.nFees, hcb, Bool.true_or, if_pos rfl]
    refine ⟨⟨hwf, hcoins, ?_, ?_, ?_⟩, ?_, ?_⟩
    · omega
    · omega
    · omega
    · omega
    · omega
  | false =>
    have hadds : addsInputs R c st tx = true := by rw [hcount.inputs, hcb, Bool.not_false]
    have hexact := getValueIn_eq hcb (hfits.values hadds)
    have hspent : roundIn R c st tx = st.view.valueIn tx := if_pos hadds
    have hin : st'.nValueIn = st.nValueIn + st.view.valueIn tx := by
      rw [hcount.nValueIn, hcb, if_neg (by simp), (hfits.nValueIn hadds).wrap64_eq, hexact]
    have hvalue : 0 ≤ st.view.valueIn tx := List.sum_nonneg (inputValues_nonneg hs.coins hadds)
    have hfee : 0 ≤ st'.nFees ∧ st'.nFees ≤ st'.nValueIn := by
      cases hcs : tx.isCoinStake with
      | true =>
        have hsame : st'.nFees = st.nFees := by
          rw [hcount.nFees, hcs, Bool.or_true, if_pos rfl]
        omega
      | false =>
        have hbalance : valueOut tx ≤ st.view.valueIn tx := (hconnected.inputs hcb).balance hcs
        obtain ⟨hdiff, hsum⟩ := hfits.nFees hadds hcs _ htx.getValueOut_eq
        have hadded : st'.nFees = st.nFees + (st.view.valueIn tx - valueOut tx) := by
          rw [hcount.nFees, hcb, hcs, Bool.or_self, if_neg (by simp), hdiff.wrap64_eq,
            hsum.wrap64_eq, hexact]
        omega
    refine ⟨⟨hwf, hcoins, hfee.1, hfee.2, ?_⟩, ?_, ?_⟩
    · omega
    · omega
    · omega

/-! ## The whole loop -/

theorem roundIn_nonneg (hn : st.view.NonnegCoins) : 0 ≤ roundIn R c st tx := by
  unfold roundIn
  split
  · rename_i hadds
    exact List.sum_nonneg (inputValues_nonneg hn hadds)
  · exact Int.le_refl 0

theorem roundOut_nonneg (htx : TxChecked P tx) : 0 ≤ roundOut R P c st tx := by
  unfold roundOut
  split
  · exact htx.valueOut_nonneg
  · exact Int.le_refl 0

variable {vtx : List CTransaction}

theorem totals_nonneg (hv : st.view.WF) (hn : st.view.NonnegCoins)
    (hvtx : ∀ tx ∈ vtx, TxChecked P tx) :
    0 ≤ spentFrom R P c st vtx ∧ 0 ≤ paidFrom R P c st vtx := by
  induction vtx generalizing st with
  | nil => exact ⟨Int.le_refl 0, Int.le_refl 0⟩
  | cons tx vtx ih =>
    have hin : 0 ≤ roundIn R c st tx := roundIn_nonneg hn
    have hout : 0 ≤ roundOut R P c st tx := roundOut_nonneg (hvtx tx List.mem_cons_self)
    unfold spentFrom paidFrom
    cases hround : connectTx R P c st tx with
    | error e =>
      dsimp only
      omega
    | ok st' =>
      obtain ⟨hv', hn'⟩ := coins_connectTx hv hn (hvtx tx List.mem_cons_self) hround
      have hrest := ih hv' hn' fun tx' h => hvtx tx' (List.mem_cons_of_mem _ h)
      dsimp only
      omega

/-- **The run**: the loop fits just if the totals do. -/
theorem runFits_iff (hs : Summed st) (hin : st.nValueIn < 2 ^ 63) (hout : st.nValueOut < 2 ^ 63)
    (hvtx : ∀ tx ∈ vtx, TxChecked P tx) :
    RunFits R P c st vtx ↔ st.nValueIn + spentFrom R P c st vtx < 2 ^ 63 ∧
      st.nValueOut + paidFrom R P c st vtx < 2 ^ 63 := by
  induction vtx generalizing st with
  | nil =>
    unfold RunFits spentFrom paidFrom
    exact ⟨fun _ => by omega, fun _ => trivial⟩
  | cons tx vtx ih =>
    have htx := hvtx tx List.mem_cons_self
    have hround : RoundFits R P c st tx ↔ st.nValueIn + roundIn R c st tx < 2 ^ 63 ∧
        st.nValueOut + roundOut R P c st tx < 2 ^ 63 := by
      rw [roundFits_iff hs htx]
      unfold roundIn roundOut
      cases addsInputs R c st tx <;> cases addsOutputs R P c st tx <;> simp <;> omega
    unfold RunFits spentFrom paidFrom
    rw [hround]
    cases hstep : connectTx R P c st tx with
    | error e =>
      dsimp only
      rw [and_true]
      omega
    | ok st' =>
      dsimp only
      have hvtx' : ∀ tx' ∈ vtx, TxChecked P tx' := fun tx' h => hvtx tx' (List.mem_cons_of_mem _ h)
      obtain ⟨hv', hn'⟩ := coins_connectTx hs.wf hs.coins htx hstep
      have hrest := totals_nonneg (R := R) (c := c) hv' hn' hvtx'
      constructor
      · rintro ⟨hfits, hrun⟩
        obtain ⟨hs', hin', hout'⟩ := hs.connectTx htx hstep (hround.mpr hfits)
        have htotals := (ih hs' (by omega) (by omega) hvtx').mp hrun
        omega
      · intro htotals
        have hfits : st.nValueIn + roundIn R c st tx < 2 ^ 63 ∧
            st.nValueOut + roundOut R P c st tx < 2 ^ 63 := by omega
        obtain ⟨hs', hin', hout'⟩ := hs.connectTx htx hstep (hround.mpr hfits)
        exact ⟨hfits, (ih hs' (by omega) (by omega) hvtx').mpr (by omega)⟩

/-! ## `ConnectBlock` -/

section

variable (R : Rules) (P : CChainParams) (env : LocalState) (tip : TipView) (prev : CBlockIndex)
  (pprev : List CBlockIndex) (block : CBlock) (view : CCoinsView) (nScriptCheckThreads : Nat)

def LoopState.start : LoopState := ⟨view, [], 0, 0, 0, 0⟩

/-- `ConnectBlock` gets as far as its loop. -/
structure ReachesLoop : Prop where
  checked : checkBlock R P env tip block true = .ok ()
  notGenesis : R.getHash block.toCBlockHeader ≠ P.hashGenesisBlock
  powUntil : prev.nHeight + 1 ≤ P.nLastPOWBlock → block.isProofOfStake = false
  posAfter : prev.nHeight + 1 > P.nLastPOWBlock → block.isProofOfWork = false
  bip30 : checkBIP30 view block (prev.nHeight + 1) (R.getHash block.toCBlockHeader) = .ok ()

/-- What the coins that the loop of `ConnectBlock` spends are worth, as far as it gets. -/
def spentInLoop : Int := spentFrom R P ((loopContext P prev pprev block).inLoop nScriptCheckThreads)
    (LoopState.start view) block.vtx

def paidInLoop : Int := paidFrom R P ((loopContext P prev pprev block).inLoop nScriptCheckThreads)
    (LoopState.start view) block.vtx

/-- No addition of money wraps: for any transaction, and in the loop of `ConnectBlock`. -/
structure MoneyFits : Prop where
  txs : ∀ (tx : CTransaction) (view : CCoinsView) (nSpendHeight : Int) (fScriptChecks : Bool)
    (flags : ScriptFlags), checkTransaction R P tx = .ok () →
    checkInputs R P tx view nSpendHeight fScriptChecks flags = .ok () →
    tx.isCoinBase = false → tx.isCoinStake = false → TxMoney P view tx
  block : ReachesLoop R P env tip prev block view →
    RunFits R P ((loopContext P prev pprev block).inLoop nScriptCheckThreads)
      (LoopState.start view) block.vtx

end

/--
**Money in validation** never overflows for a transaction. For a block it does not just if
the coins its transactions spend add up to less than `2 ^ 63`, and their outputs too. Where
the scripts are queued, the loop does not stop at one that fails.
-/
theorem moneyFits_iff (R : Rules) (P : CChainParams) (env : LocalState) (tip : TipView)
    (prev : CBlockIndex) (pprev : List CBlockIndex) (block : CBlock) {view : CCoinsView}
    (nScriptCheckThreads : Nat) (hv : view.WF) (hn : view.NonnegCoins) :
    MoneyFits R P env tip prev pprev block view nScriptCheckThreads ↔
      (ReachesLoop R P env tip prev block view →
        spentInLoop R P prev pprev block view nScriptCheckThreads < 2 ^ 63 ∧
        paidInLoop R P prev pprev block view nScriptCheckThreads < 2 ^ 63) := by
  have hs : Summed (LoopState.start view) := ⟨hv, hn, Int.le_refl 0, Int.le_refl 0, Int.le_refl 0⟩
  have hin : (LoopState.start view).nValueIn = 0 := rfl
  have hout : (LoopState.start view).nValueOut = 0 := rfl
  have hloop : ReachesLoop R P env tip prev block view →
      (RunFits R P ((loopContext P prev pprev block).inLoop nScriptCheckThreads)
          (LoopState.start view) block.vtx ↔
        spentInLoop R P prev pprev block view nScriptCheckThreads < 2 ^ 63 ∧
        paidInLoop R P prev pprev block view nScriptCheckThreads < 2 ^ 63) := by
    intro hreach
    have hrun := runFits_iff (R := R)
      (c := (loopContext P prev pprev block).inLoop nScriptCheckThreads) hs (by omega)
      (by omega) (checkBlock_ok hreach.checked).txs
    rw [hrun, hin, hout, Int.zero_add, Int.zero_add]
    rfl
  constructor
  · intro h hreach
    exact (hloop hreach).mp (h.block hreach)
  · intro h
    refine ⟨?_, ?_⟩
    · intro tx view nSpendHeight fScriptChecks flags htx hin hcb hcs
      exact txMoney_of_checked htx hin hcb hcs
    · intro hreach
      exact (hloop hreach).mpr (h hreach)

/-! ### A coin that is spent again and again -/

def CTxIn.serializeSize (txin : CTxIn) : Nat :=
  32 + 4 + (CompactSize.write txin.scriptSig.length).length + txin.scriptSig.length + 4

def CTxOut.serializeSize (txout : CTxOut) : Nat :=
  8 + (CompactSize.write txout.scriptPubKey.length).length + txout.scriptPubKey.length

def CTransaction.serializeSize (tx : CTransaction) : Nat :=
  4 + (CompactSize.write tx.vin.length).length + (tx.vin.map CTxIn.serializeSize).sum +
    (CompactSize.write tx.vout.length).length + (tx.vout.map CTxOut.serializeSize).sum + 4

/-- A proof-of-stake block carries a signature. -/
def CBlock.serializeSize (block : CBlock) : Nat :=
  80 + (CompactSize.write block.vtx.length).length +
    (block.vtx.map CTransaction.serializeSize).sum +
    if block.isProofOfStake then
      (CompactSize.write block.vchBlockSig.length).length + block.vchBlockSig.length
    else 0

/-- The transparent rules, with the sizes as they are. -/
def sizedRules : Rules :=
  { Rules.transparent with
    blockSize := CBlock.serializeSize
    txSize := CTransaction.serializeSize }

/-- What the first block after genesis may pay. -/
def premine : CTxOut := ⟨160000000 * COIN, [0x51], -10⟩

def premineView : CCoinsView := fun hash =>
  if hash = 5000 then some { fCoinBase := true, vout := [premine], nHeight := 1, nVersion := 1 }
  else none

/-- Spends it, or what the transaction before made of it. -/
def respendTx (i : Nat) : CTransaction where
  hash := 5001 + i
  vin := [⟨⟨5000 + i, 0⟩, [], 0⟩]
  vout := [premine]

def blockCoinbase : CTransaction where
  hash := 4000
  vin := [⟨COutPoint.null, [1, 2], 0⟩]
  vout := [⟨10 * COIN, [0x51], -10⟩]

def respendBlock (n : Nat) : CBlock :=
  let block : CBlock :=
    { nVersion := 3, hashPrevBlock := 100, hashMerkleRoot := 0, nTime := 1600000000,
      nBits := 0x1e0ffff0, nNonce := 101,
      vtx := blockCoinbase :: (List.range' 0 n).map respendTx }
  { block with hashMerkleRoot := (block.buildMerkleTree sizedRules.hash2).1 }

/-- The coins a transaction of the chain spends: of a mature coinbase, or of the one before. -/
def Respendable (v : CCoinsView) (i : Nat) : Prop :=
  ∃ fCoinBase nHeight, v.get (5000 + i) = ⟨fCoinBase, false, [premine], nHeight, 1⟩ ∧
    (fCoinBase = true → nHeight = 1)

variable {v : CCoinsView} {i : Nat}

theorem respendTx_isCoinBase (i : Nat) : (respendTx i).isCoinBase = false := by
  simp [respendTx, CTransaction.isCoinBase, COutPoint.isNull]

theorem Respendable.haveInputs (h : Respendable v i) : v.haveInputs (respendTx i) = true := by
  obtain ⟨fCoinBase, nHeight, hget, -⟩ := h
  simp [CCoinsView.haveInputs, haveInput, respendTx, hget, CCoins.isAvailable, CCoins.out, premine,
    CTxOut.isNull]
  exact Or.inr (by decide)

theorem Respendable.getOutputFor (h : Respendable v i) :
    v.getOutputFor ⟨⟨5000 + i, 0⟩, [], 0⟩ = premine := by
  obtain ⟨fCoinBase, nHeight, hget, -⟩ := h
  unfold CCoinsView.getOutputFor
  rw [hget]
  rfl

theorem Respendable.checkInputs (h : Respendable v i) (fScriptChecks : Bool) (flags : ScriptFlags) :
    checkInputs sizedRules mainParams (respendTx i) v 101 fScriptChecks flags = .ok () := by
  have hhave := h.haveInputs
  have hout := h.getOutputFor
  obtain ⟨fCoinBase, nHeight, hget, hold⟩ := h
  have hcoins : checkInputCoins mainParams v 101 0 (respendTx i).vin = .ok premine.nValue := by
    cases fCoinBase with
    | false =>
      simp [respendTx, checkInputCoins, hget, CCoins.out]
      decide
    | true =>
      obtain rfl := hold rfl
      simp [respendTx, checkInputCoins, hget, CCoins.out]
      decide
  have hscript : checkScript sizedRules v flags (respendTx i) ⟨⟨5000 + i, 0⟩, [], 0⟩ 0 =
      .ok () := by
    unfold checkScript
    rw [hout]
    rfl
  unfold BitBlocks.checkInputs
  rw [respendTx_isCoinBase, if_neg (by simp), hhave, hcoins]
  cases fScriptChecks with
  | false => rfl
  | true =>
    have hall : (respendTx i).vin.zipIdx = [(⟨⟨5000 + i, 0⟩, [], 0⟩, 0)] := rfl
    rw [hall]
    change (checkScript sizedRules v flags (respendTx i) ⟨⟨5000 + i, 0⟩, [], 0⟩ 0 >>=
      fun _ => Except.ok ()) = .ok ()
    rw [hscript]
    rfl

theorem Respendable.updateCoins (h : Respendable v i) : ∃ v' txundo,
    updateCoins (respendTx i) v 101 = some (v', txundo) ∧ Respendable v' (i + 1) := by
  obtain ⟨fCoinBase, nHeight, hget, -⟩ := h
  have hspend : ∃ coins txundo, spendInputs v (respendTx i).vin =
      some (v.modify (5000 + i) fun _ => coins, txundo) := by
    simp only [respendTx, spendInputs, hget]
    exact ⟨_, _, rfl⟩
  obtain ⟨coins, txundo, hspent⟩ := hspend
  unfold BitBlocks.updateCoins
  rw [respendTx_isCoinBase, if_neg (by simp), hspent]
  refine ⟨_, _, rfl, false, 101, ?_, fun hcb => absurd hcb (by simp)⟩
  have hhash : 5000 + (i + 1) = (respendTx i).hash := by
    change 5000 + (i + 1) = 5001 + i
    omega
  rw [get_modify, if_pos hhash]
  unfold CCoins.fromTx
  rw [respendTx_isCoinBase]
  rfl

theorem Respendable.getValueIn (h : Respendable v i) :
    v.inputValues (respendTx i) = [premine.nValue] ∧
    v.getValueIn (respendTx i) = premine.nValue := by
  have hout := h.getOutputFor
  have hvalues : v.inputValues (respendTx i) = [premine.nValue] :=
    congrArg (fun o : CTxOut => [o.nValue]) hout
  refine ⟨hvalues, ?_⟩
  unfold CCoinsView.getValueIn
  rw [respendTx_isCoinBase, if_neg (by simp)]
  change sum64 0 (v.inputValues (respendTx i)) = _
  rw [hvalues]
  decide

variable {c : LoopContext} {st : LoopState}

theorem Respendable.connectTx (h : Respendable st.view i) (hsigops : st.nSigOps = 0)
    (hheight : c.nHeight = 101) (hspend : c.nSpendHeight = 101) :
    roundIn sizedRules c st (respendTx i) = premine.nValue ∧
      ∃ st', connectTx sizedRules mainParams c st (respendTx i) = .ok st' ∧ st'.nSigOps = 0 ∧
        Respendable st'.view (i + 1) := by
  obtain ⟨hvalues, hvalue⟩ := h.getValueIn
  obtain ⟨view, txundo, hupdate, hnext⟩ := h.updateCoins
  have hin := h.checkInputs c.fScriptChecks c.flags
  have hout : (respendTx i).getValueOut = .ok premine.nValue := rfl
  constructor
  · have hadds : addsInputs sizedRules c st (respendTx i) = true := by
      unfold addsInputs
      rw [hsigops, respendTx_isCoinBase, h.haveInputs]
      cases c.flags.p2sh <;> rfl
    unfold roundIn
    rw [if_pos hadds]
    unfold CCoinsView.valueIn
    rw [hvalues, List.sum_singleton]
  · have hfees : addFees st (respendTx i) = .ok (wrap64 (st.nFees + wrap64 0)) := by
      have hcs : (respendTx i).isCoinStake = false := rfl
      unfold addFees
      rw [hcs, if_neg (by simp), hout, hvalue]
      rfl
    have hinputs : connectInputs sizedRules mainParams c st (respendTx i) 0 =
        .ok (0, wrap64 (st.nFees + wrap64 0), wrap64 (st.nValueIn + premine.nValue)) := by
      unfold connectInputs
      rw [respendTx_isCoinBase, if_neg (by simp), h.haveInputs, hfees, hspend, hin, hvalue]
      cases c.flags.p2sh <;> rfl
    unfold BitBlocks.connectTx
    rw [hsigops, hheight, hupdate, hout]
    change ∃ st', (connectInputs sizedRules mainParams c st (respendTx i) 0 >>= _) = .ok st' ∧ _
    rw [hinputs]
    exact ⟨_, rfl, rfl, hnext⟩

/-- **The chain of transactions** counts its coin once for each of them. -/
theorem Respendable.spentFrom {n : Nat} (h : Respendable st.view i) (hsigops : st.nSigOps = 0)
    (hheight : c.nHeight = 101) (hspend : c.nSpendHeight = 101) :
    spentFrom sizedRules mainParams c st ((List.range' i n).map respendTx) =
      n * premine.nValue := by
  induction n generalizing st i with
  | zero => simp [BitBlocks.spentFrom]
  | succ n ih =>
    obtain ⟨hround, st', hstep, hsigops', hnext⟩ := h.connectTx hsigops hheight hspend
    rw [List.range'_succ, List.map_cons]
    unfold BitBlocks.spentFrom
    rw [hround, hstep]
    dsimp only
    rw [ih hnext hsigops']
    push_cast
    ring

theorem premineView_wf : premineView.WF := by
  intro hash coins hcoins
  unfold premineView at hcoins
  split at hcoins
  · obtain rfl := Option.some.inj hcoins
    exact ⟨by decide, fun _ => rfl⟩
  · exact absurd hcoins (by simp)

theorem premineView_nonneg : premineView.NonnegCoins := by
  intro o ho
  have hmem := CCoins.isAvailable_iff.mp ho
  unfold CCoinsView.get premineView at hmem ⊢
  by_cases hhash : o.hash = 5000
  · rw [if_pos hhash] at hmem ⊢
    cases hn : o.n with
    | zero => decide
    | succ n =>
      rw [hn] at hmem
      exact absurd hmem (by simp [CCoins.out, CTxOut.null, CTxOut.isNull])
  · rw [if_neg hhash] at hmem
    exact absurd hmem (by simp [CCoins.out, CTxOut.null, CTxOut.isNull])

/-- The node that is asked, at the height 100. -/
def syncingNode : LocalState := LocalState.bare 1600000000 false true

def tipAt100 : TipView := ⟨some (100, 100), fun _ => none⟩

def indexAt100 : CBlockIndex := { phashBlock := 100, nHeight := 100 }

theorem moneyFits_respend :
    MoneyFits sizedRules mainParams syncingNode tipAt100 indexAt100 [] (respendBlock 1)
      premineView 4 :=
  (moneyFits_iff sizedRules mainParams syncingNode tipAt100 indexAt100 [] (respendBlock 1) 4
    premineView_wf premineView_nonneg).mpr fun _ => by decide +kernel

def respendContext : LoopContext :=
  (loopContext mainParams indexAt100 [] (respendBlock 577)).inLoop 4

/-- 577 transactions, in 35 kilobytes, that hand on one coin of 160 million. -/
theorem money_overflows : (respendBlock 577).serializeSize ≤ MAX_BLOCK_SIZE ∧
      ¬ MoneyFits sizedRules mainParams syncingNode tipAt100 indexAt100 [] (respendBlock 577)
        premineView 4 := by
  refine ⟨by decide +kernel, ?_⟩
  intro h
  have hreach : ReachesLoop sizedRules mainParams syncingNode tipAt100 indexAt100
      (respendBlock 577) premineView :=
    ⟨by decide +kernel, by decide +kernel, fun _ => by decide +kernel,
      fun hpos => absurd hpos (by decide), by decide +kernel⟩
  have hs : Summed (LoopState.start premineView) :=
    ⟨premineView_wf, premineView_nonneg, Int.le_refl 0, Int.le_refl 0, Int.le_refl 0⟩
  have hfits := (runFits_iff (c := respendContext) hs (by decide) (by decide)
    (checkBlock_ok hreach.checked).txs).mp (h.block hreach)
  -- the coinbase spends nothing and leaves the coin where it is
  have hcoinbase : ∃ st, connectTx sizedRules mainParams respendContext
      (LoopState.start premineView) blockCoinbase = .ok st ∧ st.nSigOps = 0 ∧
        Respendable st.view 0 :=
    ⟨_, rfl, rfl, true, 1, rfl, fun _ => rfl⟩
  obtain ⟨st, hstep, hsigops, hcoin⟩ := hcoinbase
  have htotal : spentFrom sizedRules mainParams respendContext (LoopState.start premineView)
      (respendBlock 577).vtx = (577 : Nat) * premine.nValue := by
    change spentFrom sizedRules mainParams _ _
      (blockCoinbase :: (List.range' 0 577).map respendTx) = _
    unfold spentFrom
    rw [hstep]
    dsimp only
    rw [hcoin.spentFrom hsigops rfl rfl]
    have hnone : roundIn sizedRules respendContext (LoopState.start premineView)
        blockCoinbase = 0 := rfl
    rw [hnone, Int.zero_add]
  rw [htotal] at hfits
  exact absurd hfits.1 (by decide)

end BitBlocks
