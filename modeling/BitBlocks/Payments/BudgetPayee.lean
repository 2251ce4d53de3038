import BitBlocks.Payments.MasternodePayee
import BitBlocks.Validation.CheckBlock

/-!
# Own blocks and the budget payment

Builder and validator look for the finalized budget with the most votes in the same way.
The validator then takes every budget with more votes than that less a tenth of the
masternodes, "to assist in consensus". With fewer than ten masternodes a tenth is nothing,
and no budget has more votes than the best one.
-/

namespace BitBlocks

namespace LocalState

/-! ## Payments of a budget -/

variable {b : CFinalizedBudget} {nBlockHeight nHeight n : Int} {payment : CTxBudgetPayment}
  {txNew tx : CMutableTransaction} {env : LocalState} {fProofOfStake : Bool} {tip : TipView}
  {hashPrev : Uint256}

theorem exists_payment (h : b.covers nBlockHeight = true) :
    ∃ payment, getPayeeAndAmount b nBlockHeight = some payment ∧
      b.vecBudgetPayments[(nBlockHeight - b.nBlockStart).toNat]? = some payment := by
  rw [CFinalizedBudget.covers, Bool.and_eq_true, decide_eq_true_eq, decide_eq_true_eq,
    CFinalizedBudget.getBlockEnd] at h
  have hlt : (nBlockHeight - b.nBlockStart).toNat < b.vecBudgetPayments.length := by omega
  refine ⟨b.vecBudgetPayments[(nBlockHeight - b.nBlockStart).toNat], ?_,
    List.getElem?_eq_getElem hlt⟩
  unfold getPayeeAndAmount
  dsimp only
  rw [if_neg (by omega), if_neg (by omega), List.getElem?_eq_getElem hlt]

theorem budgetPays_of_mem (h : b.covers nBlockHeight = true)
    (hpay : getPayeeAndAmount b nBlockHeight = some payment) {txNew : CTransaction} {out : CTxOut}
    (hout : out ∈ txNew.vout) (hpayee : out.scriptPubKey = payment.payee)
    (hamount : out.nValue = payment.nAmount) : budgetPays b txNew nBlockHeight = true := by
  obtain ⟨payment', hpay', hget⟩ := exists_payment h
  rw [hpay] at hpay'
  rw [CFinalizedBudget.covers, Bool.and_eq_true, decide_eq_true_eq, decide_eq_true_eq] at h
  unfold budgetPays
  dsimp only
  rw [if_neg (by omega), hget, ← Option.some.inj hpay']
  dsimp only
  rw [List.any_eq_true]
  exact ⟨out, hout, by simp [hpayee, hamount]⟩

/-! ## The highest count -/

theorem highestPayment_eq (env : LocalState) (nBlockHeight : Int) :
    env.highestPayment nBlockHeight =
      Best.search (fun b => b.covers nBlockHeight) CFinalizedBudget.nVoteCount
        (fun b => getPayeeAndAmount b nBlockHeight) env.mapFinalizedBudgets (0, none) := by
  unfold highestPayment Best.search
  congr 1
  funext best b
  unfold Best.round
  split
  · rename_i h
    rw [Bool.and_eq_true] at h
    obtain ⟨payment, hpay, -⟩ := exists_payment h.2
    rw [hpay]
    exact congrArg (b.nVoteCount, ·) hpay.symm
  · rfl

theorem highestCount_eq {β : Type} (env : LocalState) (init nBlockHeight : Int)
    (val : CFinalizedBudget → β) (v : β) : env.highestCount init nBlockHeight =
      (Best.search (fun b => b.covers nBlockHeight) CFinalizedBudget.nVoteCount val
        env.mapFinalizedBudgets (init, v)).1 := by
  rw [Best.search_fst]
  rfl

theorem nVoteCount_le_highestCount (hb : b ∈ env.mapFinalizedBudgets)
    (hcovers : b.covers nBlockHeight = true) (init : Int) :
    b.nVoteCount ≤ env.highestCount init nBlockHeight := by
  rw [highestCount_eq env init nBlockHeight (fun _ => ()) ()]
  exact Best.score_le_search _ _ _ hb hcovers _

theorem highestCount_pos (h : 0 < env.highestCount (-1) nBlockHeight) :
    env.highestCount (-1) nBlockHeight ≤ env.highestCount 0 nBlockHeight := by
  have hsearch := highestCount_eq env (-1) nBlockHeight (fun _ => ()) ()
  rw [hsearch] at h
  obtain ⟨b, hb, hcovers, heq⟩ := Best.exists_of_lt_search (fun b => b.covers nBlockHeight)
    CFinalizedBudget.nVoteCount (fun _ => ()) (lt_trans (by decide : (-1 : Int) < 0) h)
  rw [hsearch, heq]
  exact nVoteCount_le_highestCount hb hcovers 0

theorem exists_highest (h : 0 < env.highestCount 0 nBlockHeight) :
    ∃ b ∈ env.mapFinalizedBudgets, b.covers nBlockHeight = true ∧
      b.nVoteCount = env.highestCount 0 nBlockHeight ∧
      ∃ payment, getPayeeAndAmount b nBlockHeight = some payment ∧
        env.highestPayment nBlockHeight = (b.nVoteCount, some payment) := by
  have hcount := highestCount_eq env 0 nBlockHeight (fun b => getPayeeAndAmount b nBlockHeight) none
  rw [hcount] at h
  obtain ⟨b, hb, hcovers, heq⟩ := Best.exists_of_lt_search _ _ _ h
  obtain ⟨payment, hpay, -⟩ := exists_payment hcovers
  rw [hcount, highestPayment_eq, heq, hpay]
  exact ⟨b, hb, hcovers, rfl, payment, hpay, rfl⟩

/-! ## The template -/

theorem exists_fillBudgetPayee (env : LocalState) (tip : TipView)
    (hcoinbase : fProofOfStake = false → txNew.vout ≠ []) :
    ∃ tx, env.fillBudgetPayee tip txNew fProofOfStake = some tx := by
  unfold fillBudgetPayee
  cases tip.tip with
  | none => exact ⟨_, rfl⟩
  | some pindexPrev =>
    dsimp only
    cases fProofOfStake with
    | true =>
      rw [if_pos rfl]
      split <;> exact ⟨_, rfl⟩
    | false =>
      have hne : ¬ txNew.vout.isEmpty = true := by
        rw [List.isEmpty_iff]
        exact hcoinbase rfl
      rw [if_neg (by simp), if_neg hne]
      split <;> exact ⟨_, rfl⟩

theorem fillBudgetPayee_pays (htip : tip.tip = some (hashPrev, nHeight))
    (hbest : env.highestPayment (nHeight + 1) = (n, some payment)) (hpos : n > 0)
    (hfill : env.fillBudgetPayee tip txNew fProofOfStake = some tx) :
    ∃ out ∈ tx.vout, out.scriptPubKey = payment.payee ∧ out.nValue = payment.nAmount := by
  unfold fillBudgetPayee at hfill
  rw [htip] at hfill
  dsimp only at hfill
  rw [hbest] at hfill
  dsimp only [Option.getD_some] at hfill
  cases fProofOfStake with
  | true =>
    rw [if_pos rfl, if_pos hpos, modify_resizeOutputs] at hfill
    rw [← Option.some.inj hfill]
    exact ⟨_, List.mem_append_right _ (List.mem_singleton.mpr rfl), rfl, rfl⟩
  | false =>
    rw [if_neg (by simp)] at hfill
    split at hfill
    · simp at hfill
    · obtain ⟨out, hout⟩ := resizeOutputs_two
        (txNew.vout.modify 0 fun out => { out with nValue := getBlockValue nHeight })
      rw [hout] at hfill
      rw [← Option.some.inj hfill]
      exact ⟨_, List.mem_cons_of_mem _ List.mem_cons_self, rfl, rfl⟩

theorem tdiv_ten_pos_iff (n : Int) : 0 < n.tdiv 10 ↔ 10 ≤ n := by
  rcases le_total 0 n with h | h
  · rw [Int.tdiv_eq_ediv_of_nonneg h]
    omega
  · have hneg : 0 ≤ (-n).tdiv 10 := Int.tdiv_nonneg (by omega) (by decide)
    rw [Int.neg_tdiv] at hneg
    omega

theorem fillBudgetPayee_valid (htip : tip.tip = some (hashPrev, nHeight))
    (hbudget : env.isBudgetPaymentBlock (nHeight + 1) = true) (hten : 10 ≤ env.nCountEnabled)
    (hfill : env.fillBudgetPayee tip txNew fProofOfStake = some tx) (hash : Uint256) :
    env.isBudgetTransactionValid (tx.toTransaction hash) (nHeight + 1) = true := by
  have htenth := (tdiv_ten_pos_iff _).mpr hten
  rw [isBudgetPaymentBlock, decide_eq_true_eq] at hbudget
  have hcount : 0 ≤ env.nCountEnabled.tdiv 20 := Int.tdiv_nonneg (by omega) (by decide)
  have hle := highestCount_pos (lt_of_le_of_lt hcount hbudget)
  have hpos : 0 < env.highestCount 0 (nHeight + 1) := by omega
  obtain ⟨b, hb, hcovers, hvotes, payment, hpay, hbest⟩ := exists_highest hpos
  obtain ⟨out, hout, hpayee, hamount⟩ := fillBudgetPayee_pays htip hbest (by omega) hfill
  unfold isBudgetTransactionValid
  dsimp only
  rw [if_neg (by omega), List.any_eq_true]
  refine ⟨b, hb, ?_⟩
  rw [Bool.and_eq_true, Bool.and_eq_true, decide_eq_true_eq]
  exact ⟨⟨by omega, hcovers⟩, budgetPays_of_mem hcovers hpay hout hpayee hamount⟩

theorem ten_le_of_isBudgetTransactionValid {txNew : CTransaction}
    (h : env.isBudgetTransactionValid txNew n = true) : 10 ≤ env.nCountEnabled := by
  rw [← tdiv_ten_pos_iff]
  unfold isBudgetTransactionValid at h
  dsimp only at h
  split at h
  · simp at h
  · obtain ⟨b, hb, h⟩ := List.any_eq_true.mp h
    rw [Bool.and_eq_true, Bool.and_eq_true, decide_eq_true_eq] at h
    have hle := nVoteCount_le_highestCount hb h.1.2 0
    omega

/--
**Own budget blocks.** At a budget payment block the template of a coinbase or a coinstake
is valid iff there are at least ten enabled masternodes.
-/
theorem fillBudgetPayee_valid_iff (env : LocalState) {tip : TipView} {hashPrev : Uint256}
    {nHeight : Int} (htip : tip.tip = some (hashPrev, nHeight))
    (hbudget : env.isBudgetPaymentBlock (nHeight + 1) = true) {txNew : CMutableTransaction}
    {fProofOfStake : Bool} (hcoinbase : fProofOfStake = false → txNew.vout ≠ []) :
    ∃ tx, env.fillBudgetPayee tip txNew fProofOfStake = some tx ∧
      ∀ hash, env.isBudgetTransactionValid (tx.toTransaction hash) (nHeight + 1) = true ↔
        10 ≤ env.nCountEnabled := by
  obtain ⟨tx, hfill⟩ := exists_fillBudgetPayee env tip hcoinbase
  exact ⟨tx, hfill, fun hash => ⟨ten_le_of_isBudgetTransactionValid,
    fun hten => fillBudgetPayee_valid htip hbudget hten hfill hash⟩⟩

end LocalState

/-- Some enabled masternodes, one of which has voted for a budget with a single payment. -/
def budgetEnv (nCountEnabled : Int) : LocalState :=
  { LocalState.bare 1 true false with
    nCountEnabled := nCountEnabled
    mapFinalizedBudgets := [⟨43200, [⟨[1], 500⟩], 1⟩] }

/-- A coinstake: the empty marker, and the stake. -/
def bareCoinstake : CMutableTransaction where
  vin := [⟨⟨1, 0⟩, [], 0⟩]
  vout := [⟨0, [], -10⟩, ⟨1000, [2], -10⟩]

theorem fillBudgetPayee_valid_ten :
    ∃ tx, (budgetEnv 10).fillBudgetPayee ⟨some (5, 43199), fun _ => none⟩ bareCoinstake true =
        some tx ∧
      ∀ hash, (budgetEnv 10).isBudgetTransactionValid (tx.toTransaction hash) 43200 = true := by
  obtain ⟨tx, hfill, hvalid⟩ := @LocalState.fillBudgetPayee_valid_iff (budgetEnv 10)
    ⟨some (5, 43199), fun _ => none⟩ 5 43199 rfl (by decide) bareCoinstake true (by simp)
  exact ⟨tx, hfill, fun hash => (hvalid hash).mpr (by decide)⟩

/-- With nine enabled masternodes the node's own budget block is invalid. -/
theorem fillBudgetPayee_invalid : (budgetEnv 9).isBudgetPaymentBlock 43200 = true ∧
    ∃ tx, (budgetEnv 9).fillBudgetPayee ⟨some (5, 43199), fun _ => none⟩ bareCoinstake true =
        some tx ∧
      (budgetEnv 9).isBudgetTransactionValid (tx.toTransaction 9) 43200 = false :=
  ⟨by decide, _, rfl, by decide⟩

end BitBlocks

/-!
## Own blocks and the payee check

The two payments together: what `FillBlockPayee` makes of a template passes
`IsBlockPayeeValid` of the same node, if the payment does not go up at its height and a
budget payment block has ten masternodes behind it.
-/

namespace BitBlocks

open Checks

namespace LocalState

variable {env : LocalState} {R : Rules} {currentMasterNode : Option CScript} {tip : TipView}
  {hashPrev : Uint256} {nHeight : Int} {txNew tx : CMutableTransaction} {fProofOfStake : Bool}

theorem fillMasternodePayee_valid (P : CChainParams) (htip : tip.tip = some (hashPrev, nHeight))
    (hrise : nHeight + 1 ∉ paymentRises) (hroom : fProofOfStake = true → txNew.vout ≠ [])
    (hfill : env.fillMasternodePayee R.exact currentMasterNode tip txNew fProofOfStake = some tx)
    (hash : Uint256) :
    env.isPaymentTransactionValid R.exact P (tx.toTransaction hash) (nHeight + 1) = true := by
  unfold isPaymentTransactionValid
  cases hblock : env.mapMasternodeBlocks (nHeight + 1) with
  | none => rfl
  | some vecPayments =>
    dsimp only
    by_cases hvoted : ∃ p ∈ vecPayments, p.nVotes ≥ MNPAYMENTS_SIGNATURES_REQUIRED
    · obtain ⟨payee, hpayee, hvotes, hget⟩ := getPayee_voted hvoted
      obtain ⟨out, hscript, hvalue, heq⟩ := fillMasternodePayee_eq env R currentMasterNode htip
        (by rw [getBlockPayee, hblock]; exact hget) txNew hroom
      rw [hfill] at heq
      rw [← paymentAt_lt_iff, not_lt, ← hvalue] at hrise
      rw [blockPayeesPaid_iff env R P hvoted, Option.some.inj heq]
      exact ⟨payee, hpayee, hvotes, out, List.mem_append_right _ (List.mem_singleton.mpr rfl),
        hscript.symm, hrise⟩
    · have hnone : (vecPayments.filter fun payee =>
          decide (payee.nVotes ≥ MNPAYMENTS_SIGNATURES_REQUIRED)) = [] := by
        rw [List.filter_eq_nil_iff]
        intro p hp hv
        exact hvoted ⟨p, hp, of_decide_eq_true hv⟩
      unfold blockPayeesPaid
      dsimp only
      rw [hnone]
      rfl

/-- **Own blocks.** A node's template passes the node's own payee check. -/
theorem fillBlockPayee_payeeValid (P : CChainParams) (htip : tip.tip = some (hashPrev, nHeight))
    (hrise : nHeight + 1 ∉ paymentRises)
    (hten : env.isBudgetPaymentBlock (nHeight + 1) = true → 10 ≤ env.nCountEnabled)
    (hroom : fProofOfStake = true → txNew.vout ≠ [])
    (hfill : env.fillBlockPayee R.exact currentMasterNode tip txNew fProofOfStake = some tx)
    {block : CBlock} {hash : Uint256}
    (hvtx : block.vtx[if nHeight + 1 > P.nLastPOWBlock then 1 else 0]? =
      some (tx.toTransaction hash)) :
    isBlockPayeeValid R.exact P env block (nHeight + 1) = .ok true := by
  unfold fillBlockPayee at hfill
  rw [htip] at hfill
  dsimp only at hfill
  unfold isBlockPayeeValid
  rw [at?_eq_ok.mpr hvtx]
  by_cases hbudget : (env.isSporkActive SPORK_13_ENABLE_SUPERBLOCKS &&
      env.isBudgetPaymentBlock (nHeight + 1)) = true
  · rw [if_pos hbudget] at hfill
    have hblock := (Bool.and_eq_true _ _ ▸ hbudget).2
    have hvalid := fillBudgetPayee_valid htip hblock (hten hblock) hfill hash
    cases env.fSynced with
    | false => rfl
    | true => simp [bind, Except.bind, hbudget, hvalid]
  · rw [if_neg hbudget] at hfill
    have hvalid := fillMasternodePayee_valid P htip hrise hroom hfill hash
    cases env.fSynced with
    | false => rfl
    | true => simp [bind, Except.bind, hbudget, hvalid]

end LocalState

/-- Superblocks are paid, and behind the one with the budget a masternode has the votes. -/
def superblockEnv : LocalState :=
  { budgetEnv 10 with
    mapSporksActive := fun nSporkID =>
      if nSporkID = SPORK_13_ENABLE_SUPERBLOCKS then some 0 else none
    mapMasternodeBlocks := fun nBlockHeight =>
      if nBlockHeight = 43201 then some [⟨[4], 2⟩, ⟨[3], 6⟩] else none }

def stakedBlock (tx : CMutableTransaction) : CBlock :=
  ⟨⟨3, 5, 0, 0, 0, 0⟩, [tx.toTransaction 8, tx.toTransaction 9], []⟩

/-- The budget is paid, and then the masternode. -/
theorem fillBlockPayee_payeeValid_ten : ∃ tx tx' : CMutableTransaction,
    (tx.vout.getLast? = some ⟨500, [1], -10⟩ ∧
      isBlockPayeeValid Rules.transparent.exact mainParams superblockEnv (stakedBlock tx)
        43200 = .ok true) ∧
    (tx'.vout.getLast?.map CTxOut.scriptPubKey = some [3] ∧
      isBlockPayeeValid Rules.transparent.exact mainParams superblockEnv (stakedBlock tx')
        43201 = .ok true) := by
  obtain ⟨tx, hfill, hpaid⟩ : ∃ tx, superblockEnv.fillBlockPayee Rules.transparent.exact none
      ⟨some (5, 43199), fun _ => none⟩ bareCoinstake true = some tx ∧
      tx.vout.getLast? = some ⟨500, [1], -10⟩ := ⟨_, rfl, by decide⟩
  obtain ⟨tx', hfill', hpaid'⟩ : ∃ tx, superblockEnv.fillBlockPayee Rules.transparent.exact none
      ⟨some (5, 43200), fun _ => none⟩ bareCoinstake true = some tx ∧
      tx.vout.getLast?.map CTxOut.scriptPubKey = some [3] := ⟨_, rfl, by decide⟩
  refine ⟨tx, tx', ⟨hpaid, ?_⟩, hpaid', ?_⟩
  · exact LocalState.fillBlockPayee_payeeValid mainParams rfl (by decide) (fun _ => by decide)
      (fun _ => by decide) hfill (rfl : (stakedBlock tx).vtx[1]? = some (tx.toTransaction 9))
  · exact LocalState.fillBlockPayee_payeeValid mainParams rfl (by decide) (fun _ => by decide)
      (fun _ => by decide) hfill' (rfl : (stakedBlock tx').vtx[1]? = some (tx'.toTransaction 9))

end BitBlocks
