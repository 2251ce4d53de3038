import BitBlocks.Lib.Best
import BitBlocks.Payments.Template

/-!
# Own blocks and the masternode payment

The builder reads the reward schedule at the height of the parent, the validator at the
height of the block. The two agree or the builder pays more, but for the seven heights at
which the payment goes up.
-/

namespace BitBlocks

/-! ## The schedule, one block on -/

/-- The heights after which one of the two schedules changes. -/
def scheduleBounds : List Int :=
  [-1, 0, 100, 19999, 40000, 60000, 80000, 100000, 400000, 700000, 1000000, 1200000, 1500000,
   2000000, 2500000, 3000000, 3500000, 4000000, 4500000, 5000000, 5500000, 6000000, 7000000,
   8000000, 9000000, 10000000, 20000000, 30000000, 50000000]

/-- The heights at which the masternodes' payment is higher than a block before. -/
def paymentRises : List Int := [101, 20000, 40001, 60001, 80001, 100001, 30000001]

/-- The masternodes' payment at a height. -/
def paymentAt (nHeight : Int) : Int := getMasternodePayment nHeight (getBlockValue nHeight) 0

theorem getBlockValue_succ {nHeight : Int} (h : nHeight ∉ scheduleBounds) :
    getBlockValue (nHeight + 1) = getBlockValue nHeight := by
  simp only [scheduleBounds, List.mem_cons, List.not_mem_nil, or_false, not_or] at h
  unfold getBlockValue
  iterate 26 refine if_congr (by omega) rfl ?_
  rfl

theorem getMasternodePayment_succ {nHeight : Int} (h : nHeight ∉ scheduleBounds)
    (blockValue n : Int) :
    getMasternodePayment (nHeight + 1) blockValue n =
    getMasternodePayment nHeight blockValue n := by
  simp only [scheduleBounds, List.mem_cons, List.not_mem_nil, or_false, not_or] at h
  unfold getMasternodePayment
  iterate 28 refine if_congr (by omega) rfl ?_
  rfl

theorem paymentAt_lt_iff (nHeight : Int) :
    paymentAt nHeight < paymentAt (nHeight + 1) ↔ nHeight + 1 ∈ paymentRises := by
  by_cases h : nHeight ∈ scheduleBounds
  · have hall : ∀ b ∈ scheduleBounds,
        (paymentAt b < paymentAt (b + 1) ↔ b + 1 ∈ paymentRises) := by decide
    exact hall nHeight h
  · rw [paymentAt, paymentAt, getBlockValue_succ h, getMasternodePayment_succ h]
    have hsub : ∀ b ∈ paymentRises, b - 1 ∈ scheduleBounds := by decide
    constructor
    · intro hlt
      exact absurd hlt (lt_irrefl _)
    · intro hr
      have hb := hsub _ hr
      rw [Int.add_sub_cancel] at hb
      exact absurd hb h

/-! ## The payee -/

theorem getPayee_eq (vecPayments : List CMasternodePayee) : getPayee vecPayments =
    let best := Best.search (fun _ => true) CMasternodePayee.nVotes CMasternodePayee.scriptPubKey
      vecPayments (-1, [])
    if best.1 > -1 then some best.2 else none := by
  have hround : (fun (best : Int × CScript) (p : CMasternodePayee) =>
      if p.nVotes > best.1 then (p.nVotes, p.scriptPubKey) else best) =
      Best.round (fun _ => true) CMasternodePayee.nVotes CMasternodePayee.scriptPubKey := by
    funext best p
    simp [Best.round]
  rw [getPayee, hround]
  rfl

theorem getPayee_voted {vecPayments : List CMasternodePayee}
    (h : ∃ p ∈ vecPayments, p.nVotes ≥ LocalState.MNPAYMENTS_SIGNATURES_REQUIRED) :
    ∃ payee ∈ vecPayments, payee.nVotes ≥ LocalState.MNPAYMENTS_SIGNATURES_REQUIRED ∧
      getPayee vecPayments = some payee.scriptPubKey := by
  obtain ⟨p, hp, hvotes⟩ := h
  have hle := Best.score_le_search (fun _ => true) CMasternodePayee.nVotes
    CMasternodePayee.scriptPubKey hp rfl (-1, [])
  have hbeat : (-1 : Int) < CMasternodePayee.nVotes p :=
    lt_of_lt_of_le (by decide : (-1 : Int) < LocalState.MNPAYMENTS_SIGNATURES_REQUIRED) hvotes
  obtain ⟨payee, hpayee, -, heq⟩ := Best.exists_of_lt_search _ _ _ (lt_of_lt_of_le hbeat hle)
  rw [heq] at hle
  refine ⟨payee, hpayee, hvotes.trans hle, ?_⟩
  rw [getPayee_eq, heq]
  exact if_pos (lt_of_lt_of_le hbeat hle)

namespace LocalState

/-- What the validator looks for, once a payee has the votes. -/
theorem blockPayeesPaid_iff (env : LocalState) (R : Rules) (P : CChainParams)
    {vecPayments : List CMasternodePayee}
    (h : ∃ p ∈ vecPayments, p.nVotes ≥ MNPAYMENTS_SIGNATURES_REQUIRED) (txNew : CTransaction)
    (nHeight : Int) : env.blockPayeesPaid R.exact P vecPayments txNew nHeight = true ↔
      ∃ payee ∈ vecPayments, payee.nVotes ≥ MNPAYMENTS_SIGNATURES_REQUIRED ∧
        ∃ out ∈ txNew.vout, payee.scriptPubKey = out.scriptPubKey ∧
          paymentAt nHeight ≤ out.nValue := by
  have hpay : ∀ n, R.exact.getMasternodePayment nHeight (getBlockValue nHeight) n =
      paymentAt nHeight := fun _ => rfl
  obtain ⟨p, hp, hvotes⟩ := h
  have hne : (vecPayments.filter fun payee =>
      decide (payee.nVotes ≥ MNPAYMENTS_SIGNATURES_REQUIRED)).isEmpty = false := by
    rw [List.isEmpty_eq_false_iff]
    exact List.ne_nil_of_mem (List.mem_filter.mpr ⟨hp, decide_eq_true hvotes⟩)
  unfold blockPayeesPaid
  dsimp only
  rw [hpay, hne, Bool.false_or, List.any_filter]
  simp

/-! ## The template -/

/-- The outputs of the template other than the payment, given the height of the parent. -/
def ownOutputs (nHeight : Int) (vout : List CTxOut) (fProofOfStake : Bool) : List CTxOut :=
  if fProofOfStake then
    vout.modify (vout.length - 1) fun out => { out with nValue := out.nValue - paymentAt nHeight }
  else
    [{ vout.headD CTxOut.null with nValue := getBlockValue nHeight - paymentAt nHeight }]

/-- The template: its own outputs, and the payment after them. -/
theorem fillMasternodePayee_eq (env : LocalState) (R : Rules) (currentMasterNode : Option CScript)
    {tip : TipView} {hashPrev : Uint256} {nHeight : Int} (htip : tip.tip = some (hashPrev, nHeight))
    {payee : CScript} (hpayee : env.getBlockPayee (nHeight + 1) = some payee)
    (txNew : CMutableTransaction) {fProofOfStake : Bool}
    (hroom : fProofOfStake = true → txNew.vout ≠ []) :
    ∃ out : CTxOut, out.scriptPubKey = payee ∧ out.nValue = paymentAt nHeight ∧
      env.fillMasternodePayee R.exact currentMasterNode tip txNew fProofOfStake =
        some { txNew with vout := ownOutputs nHeight txNew.vout fProofOfStake ++ [out] } := by
  have hpay : R.exact.getMasternodePayment nHeight (getBlockValue nHeight) 0 =
      paymentAt nHeight := rfl
  unfold fillMasternodePayee
  rw [htip]
  dsimp only
  rw [hpayee, hpay, Option.some_or]
  dsimp only
  cases fProofOfStake with
  | true =>
    have hlen : txNew.vout.length ≠ 0 := fun h => hroom rfl (List.length_eq_zero_iff.mp h)
    refine ⟨{ CTxOut.null with scriptPubKey := payee, nValue := paymentAt nHeight }, rfl, rfl, ?_⟩
    rw [if_pos rfl, if_neg hlen, modify_resizeOutputs, modify_append_of_lt (by omega)]
    rfl
  | false =>
    obtain ⟨out, hout⟩ := resizeOutputs_two txNew.vout
    refine ⟨{ out with scriptPubKey := payee, nValue := paymentAt nHeight }, rfl, rfl, ?_⟩
    rw [hout]
    rfl

/--
**Own masternode payments.** With a payee that has the votes, the template of a coinbase,
or of a coinstake with room for the payment, is valid at its height iff the payment does
not go up there, or another of its outputs happens to pay a voted payee enough.
-/
theorem fillMasternodePayee_valid_iff (env : LocalState) (R : Rules) (P : CChainParams)
    (currentMasterNode : Option CScript) {tip : TipView} {hashPrev : Uint256} {nHeight : Int}
    (htip : tip.tip = some (hashPrev, nHeight)) {vecPayments : List CMasternodePayee}
    (hblock : env.mapMasternodeBlocks (nHeight + 1) = some vecPayments)
    (hvoted : ∃ p ∈ vecPayments, p.nVotes ≥ MNPAYMENTS_SIGNATURES_REQUIRED)
    (txNew : CMutableTransaction) {fProofOfStake : Bool}
    (hroom : fProofOfStake = true →
      ∃ out, txNew.vout.getLast? = some out ∧ paymentAt nHeight ≤ out.nValue) :
    ∃ tx, env.fillMasternodePayee R.exact currentMasterNode tip txNew fProofOfStake = some tx ∧
      ∀ hash, env.isPaymentTransactionValid R.exact P (tx.toTransaction hash) (nHeight + 1) = true ↔
        nHeight + 1 ∉ paymentRises ∨
          ∃ payee ∈ vecPayments, payee.nVotes ≥ MNPAYMENTS_SIGNATURES_REQUIRED ∧
            ∃ out ∈ ownOutputs nHeight txNew.vout fProofOfStake,
              payee.scriptPubKey = out.scriptPubKey ∧ paymentAt (nHeight + 1) ≤ out.nValue := by
  obtain ⟨payee, hpayee, hvotes, hget⟩ := getPayee_voted hvoted
  have hne : fProofOfStake = true → txNew.vout ≠ [] := by
    intro h hnil
    obtain ⟨out, hlast, -⟩ := hroom h
    rw [hnil] at hlast
    simp at hlast
  obtain ⟨out, hscript, hvalue, hfill⟩ := fillMasternodePayee_eq env R currentMasterNode htip
    (by rw [getBlockPayee, hblock]; exact hget) txNew hne
  refine ⟨_, hfill, fun hash => ?_⟩
  rw [isPaymentTransactionValid, hblock]
  dsimp only
  rw [blockPayeesPaid_iff env R P hvoted, ← paymentAt_lt_iff, not_lt, ← hvalue]
  constructor
  · intro ⟨p, hp, hpv, o, ho, hs, hle⟩
    rcases List.mem_append.mp ho with ho | ho
    · exact Or.inr ⟨p, hp, hpv, o, ho, hs, hle⟩
    · rw [List.mem_singleton.mp ho] at hle
      exact Or.inl hle
  · intro h
    rcases h with hle | ⟨p, hp, hpv, o, ho, hs, hle⟩
    · exact ⟨payee, hpayee, hvotes, out, List.mem_append_right _ (List.mem_singleton.mpr rfl),
        hscript.symm, hle⟩
    · exact ⟨p, hp, hpv, o, List.mem_append_left _ ho, hs, hle⟩

end LocalState

/-- Masternode payments are enforced, and one payee has six votes for every height. -/
def votedEnv : LocalState :=
  { LocalState.bare 1 true false with
    mapSporksActive :=
      fun id => if id = SPORK_8_MASTERNODE_PAYMENT_ENFORCEMENT then some 0 else none
    mapMasternodeBlocks := fun _ => some [⟨[1], 6⟩] }

/-- A coinbase with nothing filled in but the miner's script. -/
def bareCoinbase : CMutableTransaction where
  vin := [⟨COutPoint.null, [], 0⟩]
  vout := [⟨0, [2], -10⟩]

theorem fillMasternodePayee_valid_plain :
    ∃ tx, votedEnv.fillMasternodePayee Rules.transparent.exact none ⟨some (5, 20000), fun _ => none⟩
        bareCoinbase false = some tx ∧
      ∀ hash, votedEnv.isPaymentTransactionValid Rules.transparent.exact mainParams
        (tx.toTransaction hash) 20001 = true := by
  obtain ⟨tx, hfill, hvalid⟩ := @LocalState.fillMasternodePayee_valid_iff votedEnv
    Rules.transparent mainParams none ⟨some (5, 20000), fun _ => none⟩ 5 20000 rfl [⟨[1], 6⟩] rfl
    ⟨⟨[1], 6⟩, by decide, by decide⟩ bareCoinbase false (by simp)
  exact ⟨tx, hfill, fun hash => (hvalid hash).mpr (Or.inl (by decide))⟩

/-- At height 20000 the coinbase of the node's own block pays six coins where 13 are due. -/
theorem fillMasternodePayee_invalid :
    ∃ tx, votedEnv.fillMasternodePayee Rules.transparent.exact none ⟨some (5, 19999), fun _ => none⟩
        bareCoinbase false = some tx ∧
      votedEnv.isPaymentTransactionValid Rules.transparent.exact mainParams
        (tx.toTransaction 9) 20000 = false :=
  ⟨_, rfl, by decide⟩

end BitBlocks
