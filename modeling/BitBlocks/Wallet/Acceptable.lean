import BitBlocks.Wallet.Passes

/-!
# Whether the node takes what its wallet makes

`CreateTransaction` and `AcceptToMemoryPool` go by the same policy in different words. The change
is never dust, and the signatures are always standard. The outputs to the payees are looked at
only when coin control is there and does not split, and the fee is not compared with what the
node takes for insane. So the outcome depends on the payees and on the fees the wallet may pay.
-/

namespace BitBlocks

/-- The fee that `AcceptToMemoryPool` finds: what the coins are worth beyond the outputs. -/
def Created.nFees (r : Created) : Int := (r.coins.map COutput.nValue).sum - valueOut r.tx

/-- **What the wallet's own node asks of a transaction that was made.** The tests that are not
about policy are those of `Admits`. -/
structure Acceptable {K Key : Type} (S : SendRules K Key) (node : NodeView) (pw : CWallet K)
    (r : Created) : Prop where
  noDust : ∀ txout ∈ r.tx.vout, txout.isDust S.policy.minRelayTxFee = false
  standard : S.policy.isStandardTx node.height node.nAdjustedTime r.tx = .ok ()
  sane : S.policy.insaneFees r.tx.size r.nFees = false
  /-- `CommitTransaction` does not fail on a node that has these coins. -/
  commits : ∀ (R : Rules) (s : SpendState), s.nHeight = node.height →
    s.Admits R S.params S.policy S.signer.env r.tx →
    s.view.getValueIn r.tx = (r.coins.map COutput.nValue).sum →
    (pw.commitTransaction S node R s { tx := r.tx }).2 = true

/-- **The payees can be paid as they are**, with `n` outputs each: a piece of an amount is not
dust, multisignature scripts are let pass if there are any, and one output carries data at most. -/
structure PayeesFit (L : RelayPolicy) (n : Nat) (vecSend : List (CScript × Int)) : Prop where
  dust : 0 < n → ∀ s ∈ vecSend, (share s n).isDust L.minRelayTxFee = false
  bare : 0 < n → L.fIsBareMultisigStd = false → ∀ s ∈ vecSend, L.isStandard s.1 ≠ some .multisig
  data : n * vecSend.countP (fun s => L.isStandard s.1 == some .nullData) ≤ 1

/-- A transaction with one input and `n` outputs to each payee is not smaller. -/
def leastSize (n : Nat) (vecSend : List (CScript × Int)) : Nat :=
  51 + n * (vecSend.map fun s => (share s n).bytes.length).sum

namespace CWallet

variable {K Key : Type} (S : SendRules K Key) (node : NodeView) (pw : CWallet K)
  (vecSend : List (CScript × Int)) (coinControl : Option SendControl)
  (coin_type : AvailableCoinsType) (useIX : Bool) (nFeePay : Int)

/--
The most that a transaction may pay when its fee was asked for a transaction of `nBytes`. The
coins are worth the amounts and the fee, and then there is change that is dust, or denominated
coins are overpaid, or all the coins selected by hand are. Payees that get no output leave their
amounts over.
-/
def mostPaid (nBytes : Nat) : Int :=
  let nValue := (vecSend.map Prod.snd).sum
  let nFeeRet := max (max 0 (feePay useIX nFeePay)) (S.getMinimumFee nBytes)
  let nValueIn :=
    if coin_type = .onlyDenominated then
      if (coinControl.map SendControl.toCCoinControl).any fun cc => !cc.setSelected.isEmpty then
        ((handPicked S.rounds S.nObfuscationRounds coin_type
          ((pw.availableCoins S.toWalletRules node true (coinControl.map SendControl.toCCoinControl)
            false coin_type useIX).getD [])).map COutput.nValue).sum
      else nValue + nFeeRet + COIN / 10 + 99
    else nValue + nFeeRet + max 0 (changeLimit S.policy.minRelayTxFee coinControl - 1)
  nValueIn - if copies coinControl = 0 then 0 else nValue

/-- **No fee that may be paid is insane**, whatever the sizes of the transactions. -/
def FeesFit : Prop := ∀ nBytes < MAX_STANDARD_TX_SIZE, ∀ nSize < MAX_STANDARD_TX_SIZE,
    leastSize (copies coinControl) vecSend ≤ nSize → S.policy.insaneFees nSize
        (pw.mostPaid S node vecSend coinControl coin_type useIX nFeePay nBytes) = false

variable {S node pw vecSend coinControl coin_type useIX nFeePay} {nFeeRet nValue : Int}
  {r : Created}

/-! ## Outputs -/

/-- The outputs are those to the payees and some change, which is always fit. -/
theorem Made.outputs (h : Made S node pw vecSend nValue coinControl coin_type useIX nFeeRet r) :
    ∃ change : List CTxOut,
      r.tx.vout.Perm (change ++ vecSend.flatMap (splitOutputs (copies coinControl))) ∧
        ∀ txout ∈ change, txout.isDust S.policy.minRelayTxFee = false ∧
          (S.policy.isStandard txout.scriptPubKey = some .pubkeyhash ∨
            S.policy.isStandard txout.scriptPubKey = some .scripthash) := by
  obtain ⟨vCoins, setCoins, nValueIn, -, -, -, hchange⟩ := h.funds
  unfold PassChange at hchange
  split at hchange
  · refine ⟨[], ?_, fun txout h => absurd h List.not_mem_nil⟩
    rw [hchange.1, List.nil_append]
  · generalize r.tx.vout = vout at hchange ⊢
    generalize r.nFeeRet = nFeeRet' at hchange
    cases hchange with
    | none => exact ⟨[], List.Perm.refl _, fun txout h => absurd h List.not_mem_nil⟩
    | dust => exact ⟨[], List.Perm.refl _, fun txout h => absurd h List.not_mem_nil⟩
    | @output txout vout' hvalue hdust htype hperm =>
      refine ⟨[txout], hperm, fun txout' h => ?_⟩
      obtain rfl := List.mem_singleton.mp h
      exact ⟨hdust, htype⟩

variable {n : Nat} {txout : CTxOut} {s : CScript × Int}

theorem payee_of_mem (hpos : ∀ s ∈ vecSend, 0 < s.2)
    (h : txout ∈ vecSend.flatMap (splitOutputs n)) :
    ∃ s ∈ vecSend, 0 < n ∧ txout.scriptPubKey = s.1 ∧ (share s n).nValue ≤ txout.nValue := by
  obtain ⟨s, hs, hmem⟩ := List.mem_flatMap.mp h
  have hn : 0 < n := by
    rw [← length_splitOutputs s n]
    exact List.length_pos_of_mem hmem
  exact ⟨s, hs, hn, script_of_mem_splitOutputs hmem,
    le_of_mem_splitOutputs (Int.le_of_lt (hpos s hs)) hmem⟩

theorem not_dust_of_share {minRelayTxFee : CFeeRate} (hscript : txout.scriptPubKey = s.1)
    (hvalue : (share s n).nValue ≤ txout.nValue) (h : (share s n).isDust minRelayTxFee = false) :
    txout.isDust minRelayTxFee = false := by
  rw [Bool.eq_false_iff, Ne, CTxOut.isDust_iff] at h ⊢
  rw [hscript]
  have hlow : ¬ (share s n).nValue < minRelayTxFee.dustLimit s.1 := h
  omega

theorem Made.share_mem (h : Made S node pw vecSend nValue coinControl coin_type useIX nFeeRet r)
    (hpos : ∀ s ∈ vecSend, 0 < s.2) (hn : 0 < copies coinControl) (hs : s ∈ vecSend) :
    share s (copies coinControl) ∈ r.tx.vout := by
  obtain ⟨change, hperm, -⟩ := h.outputs
  refine hperm.mem_iff.mpr (List.mem_append_right _ (List.mem_flatMap.mpr ⟨s, hs, ?_⟩))
  exact share_mem_splitOutputs (Int.le_of_lt (hpos s hs)) hn

theorem Made.countP_data (h : Made S node pw vecSend nValue coinControl coin_type useIX nFeeRet r) :
    r.tx.vout.countP S.policy.carriesData =
      copies coinControl * vecSend.countP fun s => S.policy.isStandard s.1 == some .nullData := by
  obtain ⟨change, hperm, hfit⟩ := h.outputs
  have hnone : change.countP S.policy.carriesData = 0 := by
    refine List.countP_eq_zero.mpr fun txout hmem => ?_
    unfold RelayPolicy.carriesData
    rcases (hfit txout hmem).2 with htype | htype
    · rw [htype]
      decide
    · rw [htype]
      decide
  have hpayees := countP_payees (copies coinControl) vecSend fun script =>
    S.policy.isStandard script == some .nullData
  rw [hperm.countP_eq, List.countP_append, hnone, Nat.zero_add, ← hpayees]
  rfl

/-- **A transaction that is acceptable has payees that fit.** -/
theorem Made.payeesFit (h : Made S node pw vecSend nValue coinControl coin_type useIX nFeeRet r)
    (hpos : ∀ s ∈ vecSend, 0 < s.2) (hok : Acceptable S node pw r) :
    PayeesFit S.policy (copies coinControl) vecSend := by
  obtain ⟨-, -, -, -, hrelays, hdata⟩ := RelayPolicy.isStandardTx_iff.mp hok.standard
  refine ⟨fun hn s hs => hok.noDust _ (h.share_mem hpos hn hs), fun hn hbare s hs htype => ?_, ?_⟩
  · obtain ⟨whichType, htype', hfit⟩ := hrelays _ (h.share_mem hpos hn hs)
    obtain rfl : .multisig = whichType := Option.some.inj (htype.symm.trans htype')
    have hflag := (hfit (by decide)).1 rfl
    rw [hbare] at hflag
    exact absurd hflag (by decide)
  · rw [← h.countP_data]
    exact hdata

theorem Made.noDust (h : Made S node pw vecSend nValue coinControl coin_type useIX nFeeRet r)
    (hpos : ∀ s ∈ vecSend, 0 < s.2) (hfit : PayeesFit S.policy (copies coinControl) vecSend) :
    ∀ txout ∈ r.tx.vout, txout.isDust S.policy.minRelayTxFee = false := by
  obtain ⟨change, hperm, hchange⟩ := h.outputs
  intro txout hmem
  rcases List.mem_append.mp (hperm.mem_iff.mp hmem) with hmem | hmem
  · exact (hchange txout hmem).1
  · obtain ⟨s, hs, hn, hscript, hvalue⟩ := payee_of_mem hpos hmem
    exact not_dust_of_share hscript hvalue (hfit.dust hn s hs)

/-- **Payees that fit make a standard transaction.** -/
theorem Made.standard (h : Made S node pw vecSend nValue coinControl coin_type useIX nFeeRet r)
    (hpay : ∀ s ∈ vecSend, (S.policy.isStandard s.1).isSome = true ∧ 0 < s.2)
    (hfit : PayeesFit S.policy (copies coinControl) vecSend) (nHeight nAdjustedTime : Int) :
    S.policy.isStandardTx nHeight nAdjustedTime r.tx = .ok () := by
  have hpos : ∀ s ∈ vecSend, 0 < s.2 := fun s hs => (hpay s hs).2
  have hdust := h.noDust hpos hfit
  have hfinal : isFinalTx r.tx (nHeight + 1) nAdjustedTime = true := by
    rw [isFinalTx, h.plain.2]
    rfl
  refine RelayPolicy.isStandardTx_iff.mpr ⟨h.plain.1, hfinal, h.size, h.inputs, ?_, ?_⟩
  · intro txout hmem
    obtain ⟨change, hperm, hchange⟩ := h.outputs
    rcases List.mem_append.mp (hperm.mem_iff.mp hmem) with hmem' | hmem'
    · rcases (hchange txout hmem').2 with htype | htype
      · exact ⟨_, htype, fun _ => ⟨fun h => absurd h (by decide), hdust txout hmem⟩⟩
      · exact ⟨_, htype, fun _ => ⟨fun h => absurd h (by decide), hdust txout hmem⟩⟩
    · obtain ⟨s, hs, hn, hscript, -⟩ := payee_of_mem hpos hmem'
      obtain ⟨whichType, htype⟩ := Option.isSome_iff_exists.mp (hpay s hs).1
      refine ⟨whichType, hscript ▸ htype, fun _ => ⟨fun hmulti => ?_, hdust txout hmem⟩⟩
      cases hbare : S.policy.fIsBareMultisigStd with
      | true => rfl
      | false => exact absurd (hmulti ▸ htype) (hfit.bare hn hbare s hs)
  · rw [h.countP_data]
    exact hfit.data

/-! ## Fees -/

theorem Made.nFees_le
    (h : Made S node pw vecSend (vecSend.map Prod.snd).sum coinControl coin_type useIX nFeeRet r)
    (hpos : 0 < (vecSend.map Prod.snd).sum) {nBytes : Nat} (hnonneg : 0 ≤ nFeeRet)
    (hfee : nFeeRet ≤ max (max 0 (feePay useIX nFeePay)) (S.getMinimumFee nBytes)) :
    r.nFees ≤ pw.mostPaid S node vecSend coinControl coin_type useIX nFeePay nBytes := by
  have hcoin : COIN = 100000000 := rfl
  obtain ⟨vCoins, setCoins, nValueIn, havail, hselected, hcoins, hchange⟩ := h.funds
  have hin : (r.coins.map COutput.nValue).sum = nValueIn := by
    rw [hselected.value, (hcoins.map COutput.nValue).sum_eq]
  have hpayees := sum_payees (copies coinControl) vecSend
  unfold Created.nFees mostPaid
  dsimp only
  rw [hin, valueOut, havail, Option.getD_some, ← hpayees]
  unfold PassChange at hchange
  split at hchange
  · rename_i hdenom
    rw [if_pos hdenom, hchange.1]
    cases hhand : (coinControl.map SendControl.toCCoinControl).any fun cc =>
        !cc.setSelected.isEmpty with
    | true =>
      rw [if_pos rfl, hselected.value, hselected.byHand hhand]
    | false =>
      have hclose := hselected.close hhand hdenom
      rw [if_neg (by decide)]
      omega
  · rename_i hdenom
    rw [if_neg hdenom]
    generalize r.tx.vout = vout at hchange ⊢
    generalize r.nFeeRet = nFeeRet' at hchange
    cases hchange with
    | none => omega
    | dust => omega
    | @output txout vout' hvalue hdust htype hperm =>
      rw [(hperm.map CTxOut.nValue).sum_eq, List.map_cons, List.sum_cons, hvalue]
      omega

theorem Made.leastSize_le
    (h : Made S node pw vecSend (vecSend.map Prod.snd).sum coinControl coin_type useIX nFeeRet r)
    (hpos : 0 < (vecSend.map Prod.snd).sum) (hnonneg : 0 ≤ nFeeRet) :
    leastSize (copies coinControl) vecSend ≤ r.tx.size := by
  obtain ⟨vCoins, setCoins, nValueIn, -, hselected, hcoins, -⟩ := h.funds
  have hvin : 1 ≤ r.tx.vin.length := by
    have hlen : r.tx.vin.length = r.coins.length := by
      rw [← List.length_map (f := CTxIn.prevout), h.spends, List.length_map]
    rw [hlen, hcoins.length_eq]
    refine List.length_pos_iff.mpr fun hnil => ?_
    have hzero : nValueIn = 0 := by rw [hselected.value, hnil]; rfl
    have hreached := hselected.reached
    omega
  obtain ⟨change, hperm, -⟩ := h.outputs
  have hsize := r.tx.le_size
  rw [(hperm.map fun txout => txout.bytes.length).sum_eq, List.map_append, List.sum_append,
    bytes_payees] at hsize
  unfold leastSize
  omega

/-! ## What the node says -/

/-- **A transaction that passes policy is committed.** -/
theorem commits_of_policy (hstandard : S.policy.isStandardTx node.height node.nAdjustedTime r.tx =
      .ok ()) (hsane : S.policy.insaneFees r.tx.size r.nFees = false) (R : Rules) (s : SpendState)
    (hheight : s.nHeight = node.height) (hadmits : s.Admits R S.params S.policy S.signer.env r.tx)
    (hcoins : s.view.getValueIn r.tx = (r.coins.map COutput.nValue).sum) :
    (pw.commitTransaction S node R s { tx := r.tx }).2 = true := by
  have hchecked : checkTransaction R S.params r.tx = .ok () := by
    cases hcheck : checkTransaction R S.params r.tx with
    | ok u => rfl
    | error e =>
      have hok := hadmits.checked
      rw [hcheck] at hok
      exact absurd hok (by simp [Except.isOk, Except.toBool])
  have hout := (checkTransaction_ok hchecked).getValueOut_eq
  refine (SpendState.acceptToMemoryPool_iff hadmits hout).mpr ⟨fun _ => ?_, ?_⟩
  · rw [hheight]
    exact hstandard
  · rw [hcoins]
    exact hsane

/--
**When the node takes what its wallet makes.** For payees with standard scripts and positive
amounts, a transaction that was made is acceptable exactly when its payees fit and its fee is not
insane; and that is so whenever no fee that the wallet may pay is.
-/
theorem created_acceptable (hpay : ∀ s ∈ vecSend, (S.policy.isStandard s.1).isSome = true ∧ 0 < s.2)
    {draws : Nat → PassDraws}
    (h : pw.createTransaction S node vecSend coinControl coin_type useIX nFeePay draws = .done r) :
    (pw.FeesFit S node vecSend coinControl coin_type useIX nFeePay →
        (Acceptable S node pw r ↔ PayeesFit S.policy (copies coinControl) vecSend)) ∧
      (Acceptable S node pw r ↔ PayeesFit S.policy (copies coinControl) vecSend ∧
        S.policy.insaneFees r.tx.size r.nFees = false) := by
  obtain ⟨hne, nFeeRet, hasked, hmade⟩ := createTransaction_done h
  have hpos : ∀ s ∈ vecSend, 0 < s.2 := fun s hs => (hpay s hs).2
  have hsum : 0 < (vecSend.map Prod.snd).sum := by
    refine List.sum_pos _ (fun x hx => ?_) (by simpa using hne)
    obtain ⟨s, hs, rfl⟩ := List.mem_map.mp hx
    exact hpos s hs
  have hiff : Acceptable S node pw r ↔ PayeesFit S.policy (copies coinControl) vecSend ∧
      S.policy.insaneFees r.tx.size r.nFees = false := by
    constructor
    · exact fun hok => ⟨hmade.payeesFit hpos hok, hok.sane⟩
    · rintro ⟨hfit, hsane⟩
      have hstandard := hmade.standard hpay hfit node.height node.nAdjustedTime
      exact ⟨hmade.noDust hpos hfit, hstandard, hsane, commits_of_policy hstandard hsane⟩
  refine ⟨fun hfees => ⟨fun hok => (hiff.mp hok).1, fun hfit => hiff.mpr ⟨hfit, ?_⟩⟩, hiff⟩
  obtain ⟨nBytes, hbytes, hbound⟩ := hasked.bounded
  have hle := hmade.nFees_le hsum hasked.nonneg hbound
  have hmost := hfees nBytes hbytes r.tx.size hmade.size (hmade.leastSize_le hsum hasked.nonneg)
  unfold RelayPolicy.insaneFees at hmost ⊢
  rw [decide_eq_false_iff_not] at hmost ⊢
  omega

/-! ## Paying with one coin -/

def payKey : Valtype := 2 :: List.replicate 32 7

def payScript : CScript := 33 :: payKey ++ [OP_CHECKSIG]

/-- The shortest signature there can be. -/
def paySig : Valtype := [0x30, 6, 2, 1, 1, 2, 1, 1]

/-- A wallet with one key, that signs in one way. -/
def payRules : SendRules Unit Unit where
  toWalletRules := { plainRules with
    isMine := fun _ script => if script = payScript then ISMINE_SPENDABLE else ISMINE_NO }
  signer :=
    { env := .idle 0
      sign := fun _ _ => some ⟨paySig, by decide⟩
      verify := fun _ _ vchSig => vchSig == paySig }
  keystore _ :=
    { getKey := fun _ => some (), getPubKey := fun _ => none, getCScript := fun _ => none }
  txid _ := 6
  policy := { minRelayTxFee := ⟨10000⟩ }
  payTxFee := ⟨0⟩
  estimateFee := ⟨0⟩
  hasPriority _ _ := false
  rounds _ := 0
  nObfuscationRounds := 2

/-- The wallet's coin of this amount, in the block `7`. -/
def payTx (nValue : Int) : CWalletTx where
  tx := { hash := 5, vin := [⟨⟨9, 0⟩, [], 0⟩], vout := [⟨nValue, payScript, -10⟩] }
  hashBlock := 7
  nIndex := 0

def payWallet (nValue : Int) : CWallet Unit :=
  { keys := (), mapWallet := AList.singleton 5 (payTx nValue) }

def payDraws : PassDraws where
  select := { shuffle := fun _ l => l, shuffle_perm := fun _ l => List.Perm.refl l,
              insecureRand := fun _ _ _ _ => false }
  order l := l
  order_perm l := List.Perm.refl l
  reservedKey := none
  rand := 0

/-- The coin, and the transaction that pays it on. -/
def payCoin (nValue : Int) : COutput := ⟨payTx nValue, 0, 16, true⟩

def paid (nValue : Int) : Created where
  tx := { hash := 6, vin := [⟨⟨5, 0⟩, 9 :: paySig ++ [1], 2 ^ 32 - 1⟩],
          vout := [⟨nValue, payScript, -10⟩] }
  nFeeRet := 0
  coins := [payCoin nValue]

/-- What the signature of this wallet is tested with, whatever it signs. -/
def payEnv : ScriptEnv :=
  { ScriptEnv.idle Signer.STANDARD_SCRIPT_VERIFY_FLAGS with
    checkSig := fun vchSig vchPubKey _ => CPubKey.isValid vchPubKey &&
      match vchSig.getLast? with
      | none => false
      | some _ => vchSig.dropLast == paySig }

theorem payEnv_eq (txTo : CTransaction) : payRules.signer.env.checker payRules.signer.verify
    Signer.STANDARD_SCRIPT_VERIFY_FLAGS txTo 0 = payEnv := rfl

theorem payEnv_verifies : (verifyScript payEnv (9 :: paySig ++ [1]) payScript).1 = .ok () := by
  have hsig : Hoare.exec (Eval.step payEnv (9 :: paySig ++ [1]))
      (EvalState.init [] (9 :: paySig ++ [1])) =
        (.ok [], { stack := [paySig ++ [1]], pbegincodehash := 9 :: paySig ++ [1] }) := by rfl
  have hkey : Hoare.exec (Eval.step payEnv payScript) (EvalState.init [paySig ++ [1]] payScript) =
        (.ok [OP_CHECKSIG], { stack := [paySig ++ [1], payKey], pbegincodehash := payScript }) := by
    rfl
  have hcheck : Hoare.exec (Eval.step payEnv [OP_CHECKSIG])
      { stack := [paySig ++ [1], payKey], pbegincodehash := payScript } =
        (.ok [], { stack := [[1]], nOpCount := 1, pbegincodehash := payScript, checks := 1 }) := by
    rfl
  have h1 : evalScript payEnv [] (9 :: paySig ++ [1]) =
      (.ok (), { stack := [paySig ++ [1]], pbegincodehash := 9 :: paySig ++ [1] }) :=
    evalScript_of_evalLoop (by decide)
      ((evalLoop_round (by decide) hsig).trans (evalLoop_nil _ _)) rfl
  have h2 : evalScript payEnv [paySig ++ [1]] payScript =
      (.ok (), { stack := [[1]], nOpCount := 1, pbegincodehash := payScript, checks := 1 }) :=
    evalScript_of_evalLoop (by decide) ((evalLoop_round (by decide) hkey).trans
      ((evalLoop_round (by decide) hcheck).trans (evalLoop_nil _ _))) rfl
  have hpushonly : payEnv.flag SCRIPT_VERIFY_SIGPUSHONLY = false := by rfl
  have hp2sh : payScript.isPayToScriptHash = false := by rfl
  rw [verifyScript, hpushonly, Bool.false_and, if_neg (by decide), h1]
  dsimp only
  rw [h2]
  dsimp only
  rw [if_neg (by decide), if_neg (by decide), hp2sh, Bool.and_false, if_neg (by decide)]

theorem pay_signs (nValue : Int) (vout : List CTxOut) :
    (payWallet nValue).signCoins payRules [payCoin nValue] 0
        { hash := 0, vin := [⟨⟨5, 0⟩, [], 2 ^ 32 - 1⟩], vout } =
      some { (paid nValue).tx with hash := 0, vout } := by
  have hscript : (payCoin nValue).scriptPubKey = payScript := rfl
  have hproduce : payRules.signer.produce (payRules.keystore (payWallet nValue).keys) payScript
      { hash := 0, vin := [⟨⟨5, 0⟩, [], 2 ^ 32 - 1⟩], vout } 0 1 =
        some (9 :: paySig ++ [1]) := by rfl
  rw [signCoins, Signer.signSignature, hscript, hproduce]
  dsimp only
  rw [payEnv_eq, payEnv_verifies]
  rfl

theorem pay_selects {nValue nTargetValue : Int}
    (havail : (payWallet nValue).availableCoins payRules.toWalletRules (stakeNode 15) true none
      false .allCoins false = some [payCoin nValue])
    (htry : (payWallet nValue).tryCoins payRules.toWalletRules payDraws.select 0 nTargetValue 1 6 0
      [payCoin nValue] = some (some [payCoin nValue])) :
    (payWallet nValue).selectCoins payRules.toWalletRules (stakeNode 15) payRules.rounds
      payRules.nObfuscationRounds payDraws.select nTargetValue none .allCoins false =
        some (some ([payCoin nValue], nValue)) := by
  have hsum : ([payCoin nValue].map COutput.nValue).sum = nValue := by
    rw [List.map_singleton, List.sum_singleton]
    rfl
  have hsel : (payWallet nValue).selectCoinsMinConf payRules.toWalletRules payDraws.select 0
      nTargetValue 1 6 [payCoin nValue] = some (some [payCoin nValue]) := by
    unfold selectCoinsMinConf
    rw [show payDraws.select.shuffle 0 [payCoin nValue] = [payCoin nValue] from rfl,
      List.mergeSort_singleton]
    dsimp only
    rw [htry]
  unfold selectCoins
  rw [havail]
  dsimp only
  rw [if_neg (by decide), if_neg (by decide), hsel]
  dsimp only
  rw [hsum]

/-- **The coin is paid on whole**, and no change is made. -/
theorem pay_creates {nValue : Int} (hpos : 0 < nValue)
    (havail : (payWallet nValue).availableCoins payRules.toWalletRules (stakeNode 15) true none
      false .allCoins false = some [payCoin nValue])
    (htry : (payWallet nValue).tryCoins payRules.toWalletRules payDraws.select 0 nValue 1 6 0
      [payCoin nValue] = some (some [payCoin nValue]))
    (hsize : (paid nValue).tx.size < MAX_STANDARD_TX_SIZE) :
    (payWallet nValue).createTransaction payRules (stakeNode 15) [(payScript, nValue)] none
      .allCoins false 0 (fun _ => payDraws) = .done (paid nValue) := by
  have hsum : sumPayees 0 [(payScript, nValue)] = some nValue := by
    rw [sumPayees, if_neg (by decide), sumPayees, Int.zero_add, if_neg (by omega)]
  have hpayees : payeeOutputs payRules.policy.minRelayTxFee none [(payScript, nValue)] =
      .ok [⟨nValue, payScript, -10⟩] := by
    have hsplit : splitOutputs 1 (payScript, nValue) = [⟨nValue, payScript, -10⟩] := by
      show [(⟨nValue.tdiv 1 + nValue.tmod 1, payScript, -10⟩ : CTxOut)] = _
      rw [Int.tdiv_one, Int.tmod_one, Int.add_zero]
    unfold payeeOutputs
    dsimp only
    rw [List.flatMap_singleton, hsplit]
  have hfee := payRules.getMinimumFee_le (paid nValue).tx.size
  have hmax : payRules.maxTxFee = 0 := rfl
  have hpaid : (0 : Int) ≥ max 0 (payRules.getMinimumFee (paid nValue).tx.size) := by omega
  have hfree : ¬ payRules.fSendFreeTransactions = true := by decide
  have hpass :
      (payWallet nValue).createPass payRules (stakeNode 15) [(payScript, nValue)] nValue none
      .allCoins false 0 payDraws 0 = .done (paid nValue) := by
    unfold createPass
    rw [hpayees]
    dsimp only
    rw [Int.add_zero, Option.map_none, pay_selects havail htry]
    dsimp only
    rw [if_neg (by decide), Int.sub_self, Int.sub_zero]
    dsimp only
    rw [addChange, if_neg (show ¬ (0 : Int) > 0 by decide)]
    dsimp only
    rw [show payDraws.order [payCoin nValue] = [payCoin nValue] from rfl, List.map_singleton,
      show (payCoin nValue).prevout = ⟨5, 0⟩ from rfl, pay_signs]
    dsimp only
    change (if (paid nValue).tx.size ≥ MAX_STANDARD_TX_SIZE then _
      else if payRules.fSendFreeTransactions = true ∧ _ then _
      else if (0 : Int) ≥ max 0 (payRules.getMinimumFee (paid nValue).tx.size) then
        PassEnd.done (paid nValue)
      else _) = _
    rw [if_neg (Nat.not_le.mpr hsize), if_neg fun h => hfree h.1, if_pos hpaid]
  unfold createTransaction
  dsimp only
  rw [hsum]
  dsimp only
  rw [if_neg (show ¬ [(payScript, nValue)].isEmpty = true from Bool.false_ne_true),
    show feePay false 0 = 0 from rfl, hmax]
  show createLoop _ _ _ _ _ _ _ _ _ _ 1 0 = _
  rw [createLoop, hpass]

theorem pay_payeesFit : PayeesFit payRules.policy 1 [(payScript, 100000)] where
  dust _ s hs := by
    obtain rfl := List.mem_singleton.mp hs
    decide
  bare _ h := absurd h (by decide)
  data := by decide

theorem pay_feesFit (nValue : Int) : (payWallet nValue).FeesFit payRules (stakeNode 15)
    [(payScript, nValue)] none .allCoins false 0 := by
  intro nBytes _ nSize hsize hleast
  have hstandard : MAX_STANDARD_TX_SIZE = 1000000 := rfl
  have hfee := payRules.getMinimumFee_le nBytes
  have hmax : payRules.maxTxFee = 0 := rfl
  have hlimit : changeLimit payRules.policy.minRelayTxFee none = 5460 := by decide
  have hpay : feePay false 0 = 0 := rfl
  have hlow : 51 ≤ nSize := (Nat.le_add_right 51 _).trans hleast
  have hrelay : 510 ≤ payRules.policy.minRelayTxFee.getFee nSize := by
    show (510 : Int) ≤ if (10000 : Int) * nSize % 2 ^ 64 / 1000 = 0 ∧ (10000 : Int) > 0 then 10000
      else (10000 : Int) * nSize % 2 ^ 64 / 1000
    rw [Int.emod_eq_of_lt (by omega) (by omega)]
    split <;> omega
  unfold RelayPolicy.insaneFees mostPaid
  dsimp only
  rw [decide_eq_false_iff_not, if_neg (by decide), hlimit, hpay, if_neg (by decide)]
  omega

/-- A payee that gets enough is paid in a transaction that the node takes. -/
theorem created_acceptable_of_enough :
    Acceptable payRules (stakeNode 15) (payWallet 100000) (paid 100000) := by
  have hmade : (payWallet 100000).createTransaction payRules (stakeNode 15) [(payScript, 100000)]
      none .allCoins false 0 (fun _ => payDraws) = .done (paid 100000) :=
    pay_creates (by decide) rfl rfl (by decide)
  exact ((created_acceptable (by decide) hmade).1 (pay_feesFit 100000)).mpr pay_payeesFit

/-- Without coin control a payee may get dust. The node does not take it, and then the transaction
is recorded already. -/
theorem dust_is_created :
    (payWallet 1000).createTransaction payRules (stakeNode 15) [(payScript, 1000)] none .allCoins
        false 0 (fun _ => payDraws) = .done (paid 1000) ∧
      (∀ s ∈ [(payScript, (1000 : Int))], (payRules.policy.isStandard s.1).isSome = true ∧
        0 < s.2) ∧
      (∃ txout ∈ (paid 1000).tx.vout, txout.isDust payRules.policy.minRelayTxFee = true) ∧
      ¬ Acceptable payRules (stakeNode 15) (payWallet 1000) (paid 1000) ∧
      ∀ (R : Rules) (s : SpendState), s.nHeight = (stakeNode 15).height →
        ((payWallet 1000).commitTransaction payRules (stakeNode 15) R s
          { tx := (paid 1000).tx }).2 =
          false := by
  have hdust : (⟨1000, payScript, -10⟩ : CTxOut).isDust payRules.policy.minRelayTxFee = true := by
    decide
  have htype : payRules.policy.isStandard payScript = some .pubkey := by decide
  refine ⟨pay_creates (by decide) rfl rfl (by decide), by decide, ⟨_, List.mem_cons_self, hdust⟩,
    fun hok => ?_, fun R s hheight => ?_⟩
  · have hno := hok.noDust _ List.mem_cons_self
    exact absurd (hdust.symm.trans hno) (by decide)
  · refine Bool.eq_false_iff.mpr fun haccept => ?_
    have hstandard := SpendState.standard_of_accepted haccept rfl
    obtain ⟨-, -, -, -, hrelays, -⟩ := RelayPolicy.isStandardTx_iff.mp hstandard
    obtain ⟨whichType, htype', hfit⟩ := hrelays _ List.mem_cons_self
    obtain rfl : .pubkey = whichType := Option.some.inj (htype.symm.trans htype')
    exact absurd (hdust.symm.trans (hfit (by decide)).2) (by decide)

end CWallet

end BitBlocks
