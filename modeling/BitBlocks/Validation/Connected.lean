import BitBlocks.Coins.Value
import BitBlocks.Validation.ConnectBlock

/-!
# What acceptance says

Inversion lemmas for the validation functions: what holds of a transaction that
passed `CheckTransaction`, of a block that passed `CheckBlock`, and of the coins
and sums after a block that passed `ConnectBlock`. Everything later in the
development goes through these and never unfolds a check again.

The sums are stated over the integers. `valueOut` and `valueSpent` are the exact
values; that a counter shows one of them modulo `2 ^ 64` is all the code gives.
-/

namespace BitBlocks

open Checks Wrap LocalState CCoinsView

/-! ## `CheckTransaction` -/

/-- What `CheckTransaction` establishes. -/
structure TxChecked (P : CChainParams) (tx : CTransaction) : Prop where
  vin : tx.vin ≠ []
  vout : tx.vout ≠ []
  nonneg : tx.OutputsNonneg
  total : valueOut tx ≤ P.nMaxMoneyOut
  distinct : (tx.vin.map CTxIn.prevout).Nodup
  /-- Only a coinbase refers to the null outpoint. -/
  prevout : tx.isCoinBase = false → ∀ txin ∈ tx.vin, txin.prevout.isNull = false

variable {P : CChainParams} {tx : CTransaction} {R : Rules} {block : CBlock}

theorem TxChecked.valueOut_nonneg (h : TxChecked P tx) : 0 ≤ valueOut tx := by
  refine List.sum_nonneg fun x hx => ?_
  obtain ⟨o, ho, rfl⟩ := List.mem_map.mp hx
  exact h.nonneg o ho

theorem checkOutputs_ok {P : CChainParams} {tx : CTransaction} :
    ∀ {vout : List CTxOut} {n : Int}, 0 ≤ n → n ≤ P.nMaxMoneyOut →
    checkOutputs P tx n vout = .ok () →
    (∀ o ∈ vout, 0 ≤ o.nValue) ∧ n + (vout.map CTxOut.nValue).sum ≤ P.nMaxMoneyOut
  | [], n, _, hn, _ => ⟨by simp, by simpa using hn⟩
  | o :: vout, n, h0, hn, h => by
    rw [checkOutputs] at h
    simp only [bind_eq_ok, exists_unit, failIf_eq_ok, decide_eq_false_iff_not,
      Bool.not_eq_false', CChainParams.moneyRange_iff] at h
    obtain ⟨_, hneg, hbig, hr, hrec⟩ := h
    have hM := P.nMaxMoneyOut_range.2
    have hex : wrap64 (n + o.nValue) = n + o.nValue :=
      wrap64_of_range (by omega) (by unfold COIN at hM; omega)
    rw [hex] at hr hrec
    obtain ⟨h1, h2⟩ := checkOutputs_ok hr.1 hr.2 hrec
    refine ⟨?_, by rw [List.map_cons, List.sum_cons]; omega⟩
    intro o' ho'
    rcases List.mem_cons.mp ho' with rfl | ho'
    · omega
    · exact h1 o' ho'

theorem checkTransaction_ok (h : checkTransaction R P tx = .ok ()) : TxChecked P tx := by
  unfold checkTransaction at h
  simp only [bind_eq_ok, exists_unit, failIf_eq_ok, List.isEmpty_eq_false_iff,
    Bool.not_eq_false', decide_eq_true_eq] at h
  obtain ⟨hvin, hvout, _, hout, hnd, hrest⟩ := h
  obtain ⟨h1, h2⟩ := checkOutputs_ok (Int.le_refl 0) P.nMaxMoneyOut_range.1 hout
  refine ⟨hvin, hvout, h1, by simpa [valueOut] using h2, hnd, fun hcb txin htxin => ?_⟩
  rw [hcb] at hrest
  simp only [Bool.false_eq_true, if_false, all_eq_ok, failIf_eq_ok] at hrest
  exact hrest txin htxin

/-! ## `CheckBlock` -/

/-- What `CheckBlock` establishes about the block alone. -/
structure BlockChecked (P : CChainParams) (block : CBlock) : Prop where
  coinbase : ∃ cb rest, block.vtx = cb :: rest ∧ cb.isCoinBase = true ∧
    ∀ tx ∈ rest, tx.isCoinBase = false
  txs : ∀ tx ∈ block.vtx, TxChecked P tx
  /-- A proof-of-stake block pays nothing in its coinbase and has one coinstake. -/
  stake : block.isProofOfStake = true → ∃ cb cs rest, block.vtx = cb :: cs :: rest ∧
    valueOut cb = 0 ∧ cs.isCoinStake = true ∧ ∀ tx ∈ rest, tx.isCoinStake = false

theorem checkShape_ok (h : checkShape R block = .ok ()) :
    (∃ cb rest, block.vtx = cb :: rest ∧ cb.isCoinBase = true ∧
      ∀ tx ∈ rest, tx.isCoinBase = false) ∧
    (block.isProofOfStake = true → ∃ cb cs rest, block.vtx = cb :: cs :: rest ∧
      valueOut cb = 0 ∧ cs.isCoinStake = true ∧ ∀ tx ∈ rest, tx.isCoinStake = false) := by
  unfold checkShape at h
  simp only [bind_eq_ok, exists_unit, failIf_eq_ok, at?_eq_ok, all_eq_ok, Bool.not_eq_false'] at h
  obtain ⟨_, _, cb, hcb, hcoin, hrest, hstake⟩ := h
  obtain ⟨rest, hvtx⟩ : ∃ rest, block.vtx = cb :: rest := by
    cases hv : block.vtx with
    | nil => rw [hv] at hcb; simp at hcb
    | cons a rest => rw [hv] at hcb; exact ⟨rest, by rw [Option.some.inj hcb]⟩
  refine ⟨⟨cb, rest, hvtx, hcoin, by simpa [hvtx] using hrest⟩, fun hpos => ?_⟩
  rw [hpos] at hstake
  simp only [if_true, bind_eq_ok, exists_unit, failIf_eq_ok, at?_eq_ok, all_eq_ok,
    Bool.not_eq_false', decide_eq_false_iff_not, Decidable.not_not] at hstake
  obtain ⟨cb', hcb', hone, o, ho, hempty, cs, hcs, hcoinstake, hothers⟩ := hstake
  rw [hcb, Option.some.injEq] at hcb'
  subst hcb'
  rw [hvtx] at hcs hothers
  obtain ⟨others, rfl⟩ : ∃ others, rest = cs :: others := by
    cases rest with
    | nil => simp at hcs
    | cons a others => exact ⟨others, by simp at hcs; rw [hcs]⟩
  refine ⟨cb, cs, others, hvtx, ?_, hcoinstake, by simpa using hothers⟩
  obtain ⟨o', hvo⟩ := List.length_eq_one_iff.mp hone
  rw [hvo] at ho
  simp only [List.getElem?_cons_zero, Option.some.injEq] at ho
  subst ho
  simp only [CTxOut.isEmpty, Bool.and_eq_true, beq_iff_eq] at hempty
  simp [valueOut, hvo, hempty.1]

theorem checkBlock_ok {env : LocalState} {tip : TipView} {f : Bool}
    (h : checkBlock R P env tip block f = .ok ()) : BlockChecked P block := by
  unfold checkBlock at h
  simp only [bind_eq_ok, exists_unit] at h
  obtain ⟨_, _, _, hshape, _, _, htxs⟩ := h
  obtain ⟨h1, h2⟩ := checkShape_ok hshape
  refine ⟨h1, fun tx htx => ?_, h2⟩
  unfold checkTransactions at htxs
  simp only [bind_eq_ok, exists_unit, all_eq_ok] at htxs
  exact checkTransaction_ok (htxs.1 tx htx)

end BitBlocks

/-!
## What `ConnectBlock` leaves behind

The loop of `ConnectBlock` interleaves three things: it moves coins, it checks
inputs, and it keeps three counters. `connectAll_ok` takes them apart: the coins
move as in `connectTxs`, each counter shows the exact sum modulo `2 ^ 64`, and every
transaction's in- and outflow is bounded (`TxFlow`).
-/

namespace BitBlocks

open Checks Wrap LocalState CCoinsView

/-! ## Values -/

/-- What an ordinary transaction leaves to the miner. -/
def fee (tx : CTransaction) (txundo : List CTxInUndo) : Int :=
  if tx.isCoinBase || tx.isCoinStake then 0 else valueSpent txundo - valueOut tx

def totalFees (vtx : List CTransaction) (vtxundo : List (List CTxInUndo)) : Int :=
  (List.zipWith fee vtx vtxundo).sum

@[simp] theorem totalFees_cons (tx : CTransaction) (vtx : List CTransaction) (u : List CTxInUndo)
    (us : List (List CTxInUndo)) :
    totalFees (tx :: vtx) (u :: us) = fee tx u + totalFees vtx us := by simp [totalFees]

@[simp] theorem totalFees_nil : totalFees [] [] = 0 := rfl

theorem getValueOutFrom_eq {P : CChainParams} : ∀ {vout : List CTxOut} {n : Int},
    (∀ o ∈ vout, 0 ≤ o.nValue) → 0 ≤ n → n + (vout.map CTxOut.nValue).sum ≤ P.nMaxMoneyOut →
    getValueOutFrom n vout = some (n + (vout.map CTxOut.nValue).sum)
  | [], n, _, _, _ => by simp [getValueOutFrom]
  | o :: vout, n, h, h0, hle => by
    rw [List.map_cons, List.sum_cons] at hle ⊢
    have ho := h o (by simp)
    have hrest : 0 ≤ (vout.map CTxOut.nValue).sum := by
      refine List.sum_nonneg fun x hx => ?_
      obtain ⟨o', ho', rfl⟩ := List.mem_map.mp hx
      exact h o' (by simp [ho'])
    have hM := P.nMaxMoneyOut_range.2
    unfold COIN at hM
    have hex : wrap64 (n + o.nValue) = n + o.nValue := wrap64_of_range (by omega) (by omega)
    rw [getValueOutFrom, if_neg (by omega), hex, if_neg (by omega),
      getValueOutFrom_eq (P := P) (fun o' ho' => h o' (by simp [ho'])) (by omega) (by omega)]
    congr 1
    omega

variable {P : CChainParams} {tx : CTransaction} {v view : CCoinsView} {R : Rules} {block : CBlock}
  {undos : List (List CTxInUndo)} {env : LocalState} {tip : TipView} {prev : CBlockIndex}
  {pprev : List CBlockIndex} {res : Connected}

theorem TxChecked.getValueOut_eq (h : TxChecked P tx) : tx.getValueOut = .ok (valueOut tx) := by
  have := getValueOutFrom_eq (P := P) (n := 0) h.nonneg (by omega)
      (by simpa [valueOut] using h.total)
  simp [CTransaction.getValueOut, this, valueOut]

/-- **The undo data records the outputs the inputs referred to.** -/
theorem spendInputs_txout : ∀ {vin : List CTxIn} {v v' : CCoinsView} {undos : List CTxInUndo},
    v.WF → spendInputs v vin = some (v', undos) →
    undos.map CTxInUndo.txout = vin.map v.getOutputFor
  | [], v, v', undos, _, h => by
    simp only [spendInputs, Option.some.injEq, Prod.mk.injEq] at h
    rw [← h.2]; rfl
  | txin :: vin, v, v', undos, hv, h => by
    obtain ⟨hbl, hnd, _⟩ := spendInputs_blanked hv h
    obtain ⟨c, u, us, hc, hrec, rfl⟩ := spendInputs_cons h
    have h1 := blanked_spend hv hc
    rw [List.map_cons, List.map_cons, spendInputs_txout h1.wf hrec]
    congr 1
    · exact ((hv.get _).spend_some hc).txout
    · -- a later input is a different outpoint, so the first spend did not touch it
      refine List.map_congr_left fun t ht => ?_
      rw [List.map_cons, List.nodup_cons] at hnd
      unfold CCoinsView.getOutputFor
      rw [h1.out, if_neg]
      rw [List.mem_singleton]
      intro he
      exact hnd.1 (List.mem_map.mpr ⟨t, ht, he⟩)

theorem valueSpent_eq {v' : CCoinsView} {vin : List CTxIn} {undos : List CTxInUndo} (hv : v.WF)
    (h : spendInputs v vin = some (v', undos)) :
    valueSpent undos = (vin.map fun txin => (v.getOutputFor txin).nValue).sum := by
  have := congrArg (List.map CTxOut.nValue) (spendInputs_txout hv h)
  rw [List.map_map, List.map_map] at this
  exact congrArg List.sum this

/-! ## `CheckInputs` -/

/-- An input that `CheckInputs` let through. -/
structure InputMature (P : CChainParams) (inputs : CCoinsView) (nSpendHeight : Int)
    (txin : CTxIn) : Prop where
  mature : ((inputs.get txin.prevout.hash).fCoinBase || (inputs.get txin.prevout.hash).fCoinStake)
    = true → (inputs.get txin.prevout.hash).nHeight ≤ nSpendHeight - P.nMaturity
  nonneg : 0 ≤ (inputs.getOutputFor txin).nValue

theorem checkInputCoins_ok {P : CChainParams} {inputs : CCoinsView} {nSpendHeight : Int} :
    ∀ {vin : List CTxIn} {n m : Int}, 0 ≤ n → n ≤ P.nMaxMoneyOut →
    checkInputCoins P inputs nSpendHeight n vin = .ok m →
    m = n + (vin.map fun txin => (inputs.getOutputFor txin).nValue).sum ∧ m ≤ P.nMaxMoneyOut ∧
      ∀ txin ∈ vin, InputMature P inputs nSpendHeight txin
  | [], n, m, _, hn, h => by
    rw [checkInputCoins, Except.ok.injEq] at h
    exact ⟨by simp [h], by omega, by simp⟩
  | txin :: vin, n, m, h0, hn, h => by
    rw [checkInputCoins] at h
    simp only [bind_eq_ok, exists_unit, failIf_eq_ok, Bool.and_eq_false_iff,
      decide_eq_false_iff_not, Bool.or_eq_false_iff, Bool.not_eq_false',
      CChainParams.moneyRange_iff] at h
    obtain ⟨hmat, ⟨hv, hr⟩, hrec⟩ := h
    have hM := P.nMaxMoneyOut_range.2
    unfold COIN at hM
    have hex : wrap64 (n + ((inputs.get txin.prevout.hash).out txin.prevout.n).nValue)
        = n + ((inputs.get txin.prevout.hash).out txin.prevout.n).nValue :=
      wrap64_of_range (by omega) (by omega)
    rw [hex] at hr hrec
    obtain ⟨h1, h2, h3⟩ := checkInputCoins_ok hr.1 hr.2 hrec
    refine ⟨?_, h2, fun t ht => ?_⟩
    · rw [h1, List.map_cons, List.sum_cons, Int.add_assoc]
      rfl
    · rcases List.mem_cons.mp ht with rfl | ht
      · refine ⟨fun hcb => ?_, hv.1⟩
        rcases hmat with hno | hno
        · rw [Bool.or_eq_true] at hcb
          rcases hcb with hcb | hcb
          · rw [hno.1] at hcb; exact absurd hcb (by simp)
          · rw [hno.2] at hcb; exact absurd hcb (by simp)
        · omega
      · exact h3 t ht

/-- What `CheckInputs` establishes of a transaction that is not a coinbase. -/
structure InputsChecked (P : CChainParams) (inputs : CCoinsView) (nSpendHeight : Int)
    (tx : CTransaction) : Prop where
  have_ : ∀ txin ∈ tx.vin, inputs.haveInput txin.prevout = true
  mature : ∀ txin ∈ tx.vin, InputMature P inputs nSpendHeight txin
  total : (tx.vin.map fun txin => (inputs.getOutputFor txin).nValue).sum ≤ P.nMaxMoneyOut
  /-- No more goes out than comes in, a coinstake apart. -/
  balance : tx.isCoinStake = false →
    valueOut tx ≤ (tx.vin.map fun txin => (inputs.getOutputFor txin).nValue).sum

theorem checkInputs_ok {inputs : CCoinsView} {nSpendHeight : Int} {fScriptChecks : Bool}
    {flags : ScriptFlags} (htx : TxChecked P tx) (hcb : tx.isCoinBase = false)
    (h : checkInputs R P tx inputs nSpendHeight fScriptChecks flags = .ok ()) :
    InputsChecked P inputs nSpendHeight tx := by
  unfold checkInputs at h
  rw [hcb] at h
  simp only [Bool.false_eq_true, if_false, bind_eq_ok, exists_unit, failIf_eq_ok,
    Bool.not_eq_false'] at h
  obtain ⟨hhave, m, hm, hfee, _⟩ := h
  obtain ⟨h1, h2, h3⟩ := checkInputCoins_ok (Int.le_refl 0) P.nMaxMoneyOut_range.1 hm
  rw [Int.zero_add] at h1
  refine ⟨?_, h3, by omega, fun hst => ?_⟩
  · simpa [haveInputs, hcb] using hhave
  · unfold checkFee at hfee
    rw [hst] at hfee
    simp only [Bool.false_eq_true, if_false, htx.getValueOut_eq, bind_eq_ok, Except.ok.injEq,
      exists_eq_left', exists_unit, failIf_eq_ok, decide_eq_false_iff_not] at hfee
    omega

/-! ## The loop -/

/-- The in- and outflow of one accepted transaction. -/
structure TxFlow (P : CChainParams) (tx : CTransaction) (txundo : List CTxInUndo) : Prop where
  out : 0 ≤ valueOut tx ∧ valueOut tx ≤ P.nMaxMoneyOut
  spent : 0 ≤ valueSpent txundo
  coinbase : tx.isCoinBase = true → txundo = []
  balance : tx.isCoinBase = false → tx.isCoinStake = false → valueOut tx ≤ valueSpent txundo

structure TxConnected (P : CChainParams) (c : LoopContext) (tx : CTransaction) (st st' : LoopState)
    (txundo : List CTxInUndo) : Prop where
  update : updateCoins tx st.view c.nHeight = some (st'.view, txundo)
  undo : st'.vtxundo = st.vtxundo ++ [txundo]
  nValueOut : wrap64 st'.nValueOut = wrap64 (st.nValueOut + valueOut tx)
  nValueIn : wrap64 st'.nValueIn = wrap64 (st.nValueIn + valueSpent txundo)
  nFees : wrap64 st'.nFees = wrap64 (st.nFees + fee tx txundo)
  flow : TxFlow P tx txundo
  inputs : tx.isCoinBase = false → InputsChecked P st.view c.nSpendHeight tx

theorem wrap64_getValueIn (hcb : tx.isCoinBase = false) : wrap64 (v.getValueIn tx)
      = wrap64 (tx.vin.map fun txin => (v.getOutputFor txin).nValue).sum := by
  unfold CCoinsView.getValueIn
  rw [hcb]
  simp only [Bool.false_eq_true, if_false, sum64_eq, Int.zero_add]

theorem connectTx_ok {c : LoopContext} {st st' : LoopState} (hv : st.view.WF) (htx : TxChecked P tx)
    (h : connectTx R P c st tx = .ok st') : ∃ txundo, TxConnected P c tx st st' txundo := by
  unfold connectTx at h
  simp only [bind_eq_ok, exists_unit, failIf_eq_ok, htx.getValueOut_eq, Except.ok.injEq,
    exists_eq_left'] at h
  obtain ⟨_, ⟨nSigOps, nFees, nValueIn⟩, hin, h⟩ := h
  split at h
  · simp at h
  · rename_i view txundo hu
    rw [Except.ok.injEq] at h
    subst h
    obtain ⟨w, hmid, _⟩ := updateCoins_cases hv hu
    unfold connectInputs at hin
    cases hcb : tx.isCoinBase with
    | true =>
      -- a coinbase spends nothing, and pays no fee
      rw [hcb] at hmid hin
      simp only [if_true, Option.some.injEq, Prod.mk.injEq] at hmid
      simp only [if_true, Except.ok.injEq, Prod.mk.injEq] at hin
      obtain ⟨_, rfl⟩ := hmid
      obtain ⟨_, rfl, rfl⟩ := hin
      refine ⟨[], ⟨hu, rfl, by simp, by simp [valueSpent], by simp [fee, hcb], ?_, by simp [hcb]⟩⟩
      exact ⟨⟨htx.valueOut_nonneg, htx.total⟩, by simp [valueSpent], fun _ => rfl,
        by simp [hcb]⟩
    | false =>
      rw [hcb] at hmid hin
      simp only [Bool.false_eq_true, if_false] at hmid
      simp only [Bool.false_eq_true, if_false, bind_eq_ok, exists_unit, failIf_eq_ok,
        Except.ok.injEq, Prod.mk.injEq] at hin
      obtain ⟨_, _, fees, hfees, hci, _, rfl, rfl⟩ := hin
      have hic := checkInputs_ok htx hcb hci
      have hsp := valueSpent_eq hv hmid
      have hvi := wrap64_getValueIn (v := st.view) hcb
      rw [← hsp] at hvi
      have hnonneg : 0 ≤ valueSpent txundo := by
        rw [hsp]
        refine List.sum_nonneg fun x hx => ?_
        obtain ⟨t, ht, rfl⟩ := List.mem_map.mp hx
        exact (hic.mature t ht).nonneg
      refine ⟨txundo, ⟨hu, rfl, by simp, ?_, ?_, ?_, fun _ => hic⟩⟩
      · -- the sums are kept in an `int64_t`, so they agree up to wrapping
        rw [wrap64_wrap64, ← wrap64_add_right, hvi, wrap64_add_right]
      · unfold addFees at hfees
        cases hst : tx.isCoinStake with
        | true =>
          rw [hst] at hfees
          simp only [if_true, Except.ok.injEq] at hfees
          simp [fee, hst, hfees]
        | false =>
          rw [hst] at hfees
          simp only [Bool.false_eq_true, if_false, htx.getValueOut_eq, bind_eq_ok,
            Except.ok.injEq, exists_eq_left'] at hfees
          rw [← hfees]
          simp only [wrap64_wrap64, wrap64_add_right, fee, hcb, hst, Bool.or_self,
            Bool.false_eq_true, if_false]
          rw [← wrap64_add_right, ← wrap64_sub_left, hvi, wrap64_sub_left, wrap64_add_right]
      · exact ⟨⟨htx.valueOut_nonneg, htx.total⟩, hnonneg, by simp [hcb],
          fun _ hst => by rw [hsp]; exact hic.balance hst⟩

structure AllConnected (P : CChainParams) (c : LoopContext) (vtx : List CTransaction)
    (st st' : LoopState) (undos : List (List CTxInUndo)) : Prop where
  txs : connectTxs c.nHeight st.view vtx = some (st'.view, undos)
  undo : st'.vtxundo = st.vtxundo ++ undos
  nValueOut : wrap64 st'.nValueOut = wrap64 (st.nValueOut + totalOut vtx)
  nValueIn : wrap64 st'.nValueIn = wrap64 (st.nValueIn + totalSpent undos)
  nFees : wrap64 st'.nFees = wrap64 (st.nFees + totalFees vtx undos)
  flow : List.Forall₂ (TxFlow P) vtx undos

/-- **The loop, taken apart**: coins, counters, and the flow of every transaction. -/
theorem connectAll_ok {R : Rules} {P : CChainParams} {c : LoopContext} :
    ∀ {vtx : List CTransaction} {st st' : LoopState}, st.view.WF → (∀ tx ∈ vtx, TxChecked P tx) →
    connectAll R P c st vtx = .ok st' → ∃ undos, AllConnected P c vtx st st' undos
  | [], st, st', _, _, h => by
    rw [connectAll, Except.ok.injEq] at h
    subst h
    exact ⟨[], ⟨rfl, by simp, by simp, by simp, by simp, .nil⟩⟩
  | tx :: vtx, st, st', hv, htx, h => by
    rw [connectAll] at h
    obtain ⟨st1, h1, hrec⟩ := bind_eq_ok.mp h
    obtain ⟨txundo, hc⟩ := connectTx_ok hv (htx tx (by simp)) h1
    have ha := updateCoins_applied hv (htx tx (by simp)).nonneg hc.update
    obtain ⟨undos, hr⟩ := connectAll_ok ha.wf (fun t ht => htx t (by simp [ht])) hrec
    refine ⟨txundo :: undos, ⟨?_, by rw [hr.undo, hc.undo]; simp, ?_, ?_, ?_,
      .cons hc.flow hr.flow⟩⟩
    · rw [connectTxs, hc.update]
      dsimp only
      rw [hr.txs]
    · rw [hr.nValueOut, ← wrap64_add_left, hc.nValueOut, wrap64_add_left, totalOut_cons,
        Int.add_assoc]
    · rw [hr.nValueIn, ← wrap64_add_left, hc.nValueIn, wrap64_add_left, totalSpent_cons,
        Int.add_assoc]
    · rw [hr.nFees, ← wrap64_add_left, hc.nFees, wrap64_add_left, totalFees_cons, Int.add_assoc]

/-! ## The block -/

/-- What the block created: everything it pays out less everything it spends. -/
def netCreated (block : CBlock) (vtxundo : List (List CTxInUndo)) : Int :=
  totalOut block.vtx - totalSpent vtxundo

/-- The value `ConnectBlock` compares the mint with. -/
def expectedMint (prev : CBlockIndex) (block : CBlock) (nFees : Int) : Int :=
  if block.isProofOfWork then wrap64 (getBlockValue prev.nHeight + nFees)
  else getBlockValue prev.nHeight

/-- **What an accepted block is and does.** `undos` includes the coinbase's empty record. -/
structure BlockConnected (R : Rules) (P : CChainParams) (env : LocalState) (tip : TipView)
    (prev : CBlockIndex) (block : CBlock) (view : CCoinsView) (res : Connected)
    (undos : List (List CTxInUndo)) : Prop where
  checked : BlockChecked P block
  powUntil : prev.nHeight + 1 ≤ P.nLastPOWBlock → block.isProofOfWork = true
  posAfter : prev.nHeight + 1 > P.nLastPOWBlock → block.isProofOfStake = true
  bip30 : enforceBIP30 (prev.nHeight + 1) (R.getHash block.toCBlockHeader) = true →
    ∀ tx ∈ block.vtx, (view.get tx.hash).isPruned = true
  txs : connectTxs (prev.nHeight + 1) view block.vtx = some (res.view, undos)
  vtxundo : res.vtxundo = undos.tail
  spent : totalSpent undos = totalSpent res.vtxundo
  flow : List.Forall₂ (TxFlow P) block.vtx undos
  supply : res.nMoneySupply = wrap64 (prev.nMoneySupply + netCreated block res.vtxundo)
  mint : res.nMint = wrap64 (netCreated block res.vtxundo)
  value : isBlockValueValid P env tip block (expectedMint prev block (totalFees block.vtx undos))
    res.nMint = true

theorem totalSpent_tail (hc : BlockChecked P block) (hf : List.Forall₂ (TxFlow P) block.vtx undos) :
    totalSpent undos = totalSpent undos.tail := by
  obtain ⟨cb, rest, hvtx, hcb, _⟩ := hc.coinbase
  rw [hvtx] at hf
  cases hf with
  | cons h _ =>
    rw [h.coinbase hcb, totalSpent_cons, List.tail_cons]
    simp [valueSpent]

theorem connectBody_ok (hv : view.WF) (hc : BlockChecked P block)
    (h : connectBody R P env tip prev pprev block view = .ok res) :
    ∃ undos, BlockConnected R P env tip prev block view res undos := by
  unfold connectBody at h
  simp only [bind_eq_ok, exists_unit, failIf_eq_ok, Bool.and_eq_false_iff,
    decide_eq_false_iff_not, Bool.not_eq_false', Except.ok.injEq] at h
  obtain ⟨hpow, hpos, hbip, st, hall, hval, rfl⟩ := h
  obtain ⟨undos, ha⟩ := connectAll_ok hv hc.txs hall
  have hundo : st.vtxundo = undos := by rw [ha.undo]; simp
  have hspent := totalSpent_tail hc ha.flow
  have hnet : ∀ x : Int, wrap64 (wrap64 (x + st.nValueOut) - st.nValueIn)
      = wrap64 (x + netCreated block undos.tail) := by
    intro x
    rw [wrap64_sub_left, ← wrap64_sub_right, ha.nValueIn, wrap64_sub_right, ← wrap64_sub_left,
      ← wrap64_add_right, ha.nValueOut, wrap64_add_right, wrap64_sub_left]
    congr 1
    simp only [netCreated, hspent]
    omega
  have hmint : wrap64 (wrap64 (wrap64 (prev.nMoneySupply + st.nValueOut) - st.nValueIn)
      - prev.nMoneySupply) = wrap64 (netCreated block undos.tail) := by
    rw [hnet, wrap64_sub_left]
    congr 1
    omega
  refine ⟨undos, ⟨hc, ?_, ?_, ?_, ha.txs, by rw [hundo], by rw [hundo, hspent], ha.flow,
    by rw [hundo]; exact hnet _, by rw [hundo]; exact hmint, ?_⟩⟩
  · intro hle
    rcases hpow with h' | h'
    · exact absurd hle h'
    · simp [CBlock.isProofOfWork, h']
  · intro hgt
    rcases hpos with h' | h'
    · exact absurd hgt h'
    · simpa [CBlock.isProofOfWork] using h'
  · intro hen tx htx
    unfold checkBIP30 at hbip
    rw [show (loopContext P prev pprev block).nHeight = prev.nHeight + 1 from rfl, if_pos hen,
      all_eq_ok] at hbip
    simpa using hbip tx htx
  · have hfees : wrap64 (getBlockValue prev.nHeight + st.nFees)
        = wrap64 (getBlockValue prev.nHeight + totalFees block.vtx undos) := by
      rw [← wrap64_add_right, ha.nFees, wrap64_add_right, Int.zero_add]
    rw [hfees] at hval
    exact hval

/-- **`ConnectBlock` on a block that is not genesis.** -/
theorem connectBlock_ok (hv : view.WF) (hg : R.getHash block.toCBlockHeader ≠ P.hashGenesisBlock)
    (h : connectBlock R P env tip pprev block view = .ok res) :
    ∃ prev rest undos, pprev = prev :: rest ∧
      BlockConnected R P env tip prev block view res undos := by
  unfold connectBlock at h
  rw [if_neg hg] at h
  obtain ⟨_, hcheck, hbody⟩ := bind_eq_ok.mp h
  split at hbody
  · simp at hbody
  · rename_i prev rest
    obtain ⟨undos, hb⟩ := connectBody_ok hv (checkBlock_ok hcheck) hbody
    exact ⟨prev, rest, undos, rfl, hb⟩

/-- The loop runs on what it was checked for, unless the block is exempt from BIP30. -/
theorem BlockConnected.loopChecked (hv : view.WF)
    (h : BlockConnected R P env tip prev block view res undos)
    (hen : enforceBIP30 (prev.nHeight + 1) (R.getHash block.toCBlockHeader) = true) :
    LoopChecked view block.vtx where
  wf := hv
  coinbase := h.checked.coinbase
  nonneg tx htx := (h.checked.txs tx htx).nonneg
  vin tx htx := (h.checked.txs tx htx).vin
  bip30 := h.bip30 hen

end BitBlocks
