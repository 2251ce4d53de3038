import BitBlocks.Wallet.Acceptable
import BitBlocks.Wallet.MinConf

/-!
# What a transaction spends and pays

A transaction that `CreateTransaction` makes spends different coins of those on offer. Their
values are what it pays out and the fee: what a pass does not pay to the payees is change, and
the change is paid to the wallet, or added to the fee. The fee is that of the pass which
found it enough for the size it came to.
-/

namespace BitBlocks

namespace CWallet

section

variable {K : Type} {R : WalletRules K} {node : NodeView} {pw : CWallet K}
  {coinControl : Option CCoinControl} {coin_type : AvailableCoinsType} {useIX : Bool}
  {vCoins coins : List COutput} {nTargetValue nConfMine nConfTheirs : Int} {tryDenom : Nat}

/-! ## What is on offer is different -/

variable {fIncludeZeroValue : Bool} {draws : SelectDraws} {attempt : Nat}

theorem coin_spec {w : CWalletTx} {nDepth : Int} {txout : CTxOut} {i : Nat} {out : COutput}
    (h : pw.coin R node coinControl fIncludeZeroValue coin_type w nDepth txout i = some out) :
    out.prevout = ⟨w.tx.hash, i⟩ := by
  obtain ⟨-, hout⟩ := Option.ite_none_right_eq_some.mp h
  obtain rfl := Option.some.inj hout
  rfl

theorem txCoins_nodup (w : CWalletTx) (nDepth : Int) :
    ((pw.txCoins R node coinControl fIncludeZeroValue coin_type w nDepth).map
      COutput.prevout).Nodup := by
  have hsub : ((pw.txCoins R node coinControl fIncludeZeroValue coin_type w nDepth).map
      COutput.prevout).Sublist (w.tx.vout.zipIdx.map fun x => ⟨w.tx.hash, x.2⟩) := by
    rw [txCoins]
    induction w.tx.vout.zipIdx with
    | nil => exact List.Sublist.refl _
    | cons x l ih =>
      rw [List.filterMap_cons, List.map_cons]
      cases hcoin : pw.coin R node coinControl fIncludeZeroValue coin_type w nDepth x.1 x.2 with
      | none => exact ih.cons _
      | some out =>
        rw [List.map_cons, coin_spec hcoin]
        exact ih.cons_cons _
  refine List.Nodup.sublist hsub ?_
  have hindex : (w.tx.vout.zipIdx.map Prod.snd).Nodup := by
    rw [List.zipIdx_map_snd]
    exact List.nodup_range'
  have hinj : Function.Injective fun i : Nat => (⟨w.tx.hash, i⟩ : COutPoint) :=
    fun i j h => (COutPoint.mk.inj h).2
  have hmap := hindex.map hinj
  rwa [List.map_map] at hmap

/-- **No coin is on offer twice.** -/
theorem availableCoins_nodup (hkeyed : pw.Keyed) {fOnlyConfirmed : Bool}
    (h : pw.availableCoins R node fOnlyConfirmed coinControl fIncludeZeroValue coin_type useIX =
      some vCoins) : (vCoins.map COutput.prevout).Nodup := by
  refine List.Nodup.sublist ((availableCoins_sublist h).map COutput.prevout) ?_
  rw [List.map_flatMap, List.nodup_flatMap]
  refine ⟨fun x _ => txCoins_nodup x.2 _, ?_⟩
  have hkeys : pw.mapWallet.entries.Pairwise fun x y => x.1 ≠ y.1 :=
    List.nodupKeys_iff_pairwise.mp pw.mapWallet.nodupKeys
  refine hkeys.imp_of_mem fun {x y} hx hy hne o hox hoy => hne ?_
  have hhash {z : Sigma fun _ : Uint256 => CWalletTx} (hz : z ∈ pw.mapWallet.entries)
      (ho : o ∈ (pw.txCoins R node coinControl fIncludeZeroValue coin_type z.2
        (z.2.depth R node false)).map COutput.prevout) : o.hash = z.1 := by
    obtain ⟨out, hout, rfl⟩ := List.mem_map.mp ho
    obtain ⟨y, -, hcoin⟩ := List.mem_filterMap.mp hout
    rw [coin_spec hcoin]
    exact hkeyed z.1 z.2 (mem_entries.mp hz)
  exact (hhash hx hox).symm.trans (hhash hy hoy)

/-! ## What is selected is on offer -/

theorem scanCoins_kept {s : CoinScan} {r : CoinScan ⊕ COutput}
    (h : pw.scanCoins R nTargetValue nConfMine nConfTheirs tryDenom vCoins s = some r) :
    r.elim (fun s' => (∃ l, l.Sublist vCoins ∧ s'.vValue = s.vValue ++ l) ∧
      ∀ coin ∈ s'.coinLowestLarger, coin ∈ vCoins ∨ coin ∈ s.coinLowestLarger) (· ∈ vCoins) := by
  induction vCoins generalizing s with
  | nil =>
    obtain rfl := Option.some.inj h
    exact ⟨⟨[], List.Sublist.refl _, (List.append_nil _).symm⟩, fun coin hcoin => Or.inr hcoin⟩
  | cons output vCoins ih =>
    have hskip (h : pw.scanCoins R nTargetValue nConfMine nConfTheirs tryDenom vCoins s =
        some r) : r.elim (fun s' => (∃ l, l.Sublist (output :: vCoins) ∧
          s'.vValue = s.vValue ++ l) ∧ ∀ coin ∈ s'.coinLowestLarger,
            coin ∈ output :: vCoins ∨ coin ∈ s.coinLowestLarger) (· ∈ output :: vCoins) := by
      have hkept := ih h
      cases r with
      | inl s' =>
        obtain ⟨⟨l, hl, hvalue⟩, hlarger⟩ := hkept
        exact ⟨⟨l, hl.cons output, hvalue⟩,
          fun coin hcoin => (hlarger coin hcoin).imp_left (List.mem_cons_of_mem output)⟩
      | inr found => exact List.mem_cons_of_mem output hkept
    rw [scanCoins] at h
    split at h
    · exact hskip h
    split at h
    · cases h
    rename_i fFromMe _
    dsimp only at h
    generalize (if fFromMe = true then nConfMine else nConfTheirs) = nConf at h
    split at h
    · exact hskip h
    split at h
    · exact hskip h
    split at h
    · obtain rfl := Option.some.inj h
      exact List.mem_cons_self
    split at h
    · have hkept := ih h
      cases r with
      | inl s' =>
        obtain ⟨⟨l, hl, hvalue⟩, hlarger⟩ := hkept
        refine ⟨⟨output :: l, hl.cons_cons output, ?_⟩,
          fun coin hcoin => (hlarger coin hcoin).imp_left (List.mem_cons_of_mem output)⟩
        rw [hvalue, List.append_assoc, List.singleton_append]
      | inr found => exact List.mem_cons_of_mem output hkept
    split at h
    · have hkept := ih h
      cases r with
      | inl s' =>
        obtain ⟨⟨l, hl, hvalue⟩, hlarger⟩ := hkept
        refine ⟨⟨l, hl.cons output, hvalue⟩, fun coin hcoin => ?_⟩
        rcases hlarger coin hcoin with hmem | hmem
        · exact Or.inl (List.mem_cons_of_mem output hmem)
        · obtain rfl := Option.some.inj hmem
          exact Or.inl List.mem_cons_self
      | inr found => exact List.mem_cons_of_mem output hkept
    · exact hskip h

theorem tryCoins_subperm
    (h : pw.tryCoins R draws attempt nTargetValue nConfMine nConfTheirs tryDenom vCoins =
      some (some coins)) : coins.Subperm vCoins := by
  rw [tryCoins] at h
  split at h
  · cases h
  · rename_i output hscan
    obtain rfl := Option.some.inj (Option.some.inj h)
    exact List.singleton_subperm_iff.mpr (scanCoins_kept hscan)
  · rename_i s hscan
    obtain ⟨⟨l, hl, hvalue⟩, hlarger⟩ := scanCoins_kept hscan
    rw [List.nil_append] at hvalue
    refine settle_subperm draws attempt (hvalue ▸ hl) (fun coin hcoin => ?_) (Option.some.inj h)
    rcases hlarger coin hcoin with hmem | hmem
    · exact hmem
    · cases hmem

theorem selectCoinsMinConf_subperm
    (h : pw.selectCoinsMinConf R draws attempt nTargetValue nConfMine nConfTheirs vCoins =
      some (some coins)) : coins.Subperm vCoins := by
  rw [selectCoinsMinConf] at h
  have hperm : ((draws.shuffle attempt vCoins).mergeSort fun out1 out2 =>
      !lessThenDenom out2 out1).Perm vCoins :=
    (List.mergeSort_perm _ _).trans (draws.shuffle_perm attempt vCoins)
  split at h
  · cases h
  · rename_i coins' htry
    obtain rfl := Option.some.inj (Option.some.inj h)
    exact (tryCoins_subperm htry).trans hperm.subperm
  · exact (tryCoins_subperm h).trans hperm.subperm

section

variable {rounds : COutPoint → Int} {nObfuscationRounds : Int}

variable (rounds nObfuscationRounds nTargetValue) in
theorem takeDenomination_kept (v : Int) (vCoins : List COutput) (s : List COutput × Int) :
    ∃ l, l.Sublist (vCoins.filter fun out => out.nValue == v) ∧
      (takeDenomination rounds nObfuscationRounds nTargetValue vCoins s v).1 = s.1 ++ l := by
  rw [takeDenomination]
  induction vCoins generalizing s with
  | nil => exact ⟨[], List.Sublist.refl _, (List.append_nil _).symm⟩
  | cons out vCoins ih =>
    rw [List.foldl_cons, List.filter_cons]
    by_cases htake : out.nValue = v ∧ s.2 + out.nValue < nTargetValue + COIN / 10 + 100 ∧
        ¬ rounds ⟨out.tx.tx.hash, out.i⟩ < nObfuscationRounds
    · obtain ⟨l, hl, hkept⟩ := ih (s.1 ++ [out], s.2 + out.nValue)
      rw [if_pos htake, if_pos (beq_iff_eq.mpr htake.1)]
      refine ⟨out :: l, hl.cons_cons out, ?_⟩
      rw [hkept, List.append_assoc, List.singleton_append]
    · obtain ⟨l, hl, hkept⟩ := ih s
      rw [if_neg htake]
      split
      · exact ⟨l, hl.cons out, hkept⟩
      · exact ⟨l, hl, hkept⟩

variable (rounds nObfuscationRounds nTargetValue vCoins) in
theorem denominations_kept {ds : List Int} (hds : ds.Nodup) (s : List COutput × Int) :
    ∃ l, l.Subperm (vCoins.filter fun out => ds.contains out.nValue) ∧
      (ds.foldl (takeDenomination rounds nObfuscationRounds nTargetValue vCoins) s).1 =
        s.1 ++ l := by
  induction ds generalizing s with
  | nil => exact ⟨[], List.nil_subperm, (List.append_nil _).symm⟩
  | cons v ds ih =>
    obtain ⟨hv, hds⟩ := List.nodup_cons.mp hds
    obtain ⟨l1, hl1, hkept1⟩ := takeDenomination_kept nTargetValue rounds nObfuscationRounds v
      vCoins s
    obtain ⟨l2, hl2, hkept2⟩ := ih hds
      (takeDenomination rounds nObfuscationRounds nTargetValue vCoins s v)
    refine ⟨l1 ++ l2, ?_, by rw [List.foldl_cons, hkept2, hkept1, List.append_assoc]⟩
    have hsplit := List.filter_append_perm (fun out : COutput => out.nValue == v)
      (vCoins.filter fun out => (v :: ds).contains out.nValue)
    refine List.Subperm.trans (hl1.subperm.append hl2) (List.Perm.subperm ?_)
    refine List.Perm.trans (List.Perm.of_eq ?_) hsplit
    rw [List.filter_filter, List.filter_filter]
    congr 1
    · refine List.filter_congr fun out _ => ?_
      by_cases hout : out.nValue = v
      · simp [hout]
      · simp [hout]
    · refine List.filter_congr fun out _ => ?_
      by_cases hout : out.nValue = v
      · simp [hout, hv]
      · simp [hout]

/-- **What is selected is on offer**, each coin once. -/
theorem selectCoins_subperm {draws : SelectDraws} {nValueRet : Int}
    (h : pw.selectCoins R node rounds nObfuscationRounds draws nTargetValue coinControl coin_type
      useIX = some (some (coins, nValueRet))) :
    ∃ vCoins, pw.availableCoins R node true coinControl false coin_type useIX = some vCoins ∧
      coins.Subperm vCoins := by
  rw [selectCoins] at h
  split at h
  · cases h
  rename_i vCoins havail
  refine ⟨vCoins, havail, ?_⟩
  dsimp only at h
  split at h
  · replace h := Option.some.inj h
    split at h
    · obtain ⟨rfl, -⟩ := Prod.mk.inj (Option.some.inj h)
      exact List.filter_sublist.subperm
    · cases h
  split at h
  · have hds : obfuScationDenominations.Nodup := by decide
    obtain ⟨l, hl, hkept⟩ := denominations_kept vCoins nTargetValue rounds nObfuscationRounds hds
      ([], 0)
    replace h := Option.some.inj h
    split at h
    · rw [Option.some.inj h, List.nil_append] at hkept
      rw [show coins = l from hkept]
      exact hl.trans List.filter_sublist.subperm
    · cases h
  split at h
  · cases h
  · rename_i hsel
    obtain ⟨rfl, -⟩ := Prod.mk.inj (Option.some.inj (Option.some.inj h))
    exact selectCoinsMinConf_subperm hsel
  split at h
  · cases h
  · rename_i hsel
    obtain ⟨rfl, -⟩ := Prod.mk.inj (Option.some.inj (Option.some.inj h))
    exact selectCoinsMinConf_subperm hsel
  split at h
  · obtain ⟨found, hsel, hmap⟩ := Option.map_eq_some_iff.mp h
    obtain ⟨coins', rfl, heq⟩ := Option.map_eq_some_iff.mp hmap
    obtain ⟨rfl, -⟩ := Prod.mk.inj heq
    exact selectCoinsMinConf_subperm hsel
  · cases h

end

end

/-! ## What the outputs pay -/

def paidTo (script : CScript) (vout : List CTxOut) : Int :=
  ((vout.filter fun txout => txout.scriptPubKey == script).map CTxOut.nValue).sum

/-- What the payees with a script ask for. -/
def askedFor (script : CScript) (vecSend : List (CScript × Int)) : Int :=
  ((vecSend.filter fun s => s.1 == script).map Prod.snd).sum

theorem paidTo_payees (script : CScript) {n : Nat} (hn : n ≠ 0) (vecSend : List (CScript × Int)) :
    paidTo script (vecSend.flatMap (splitOutputs n)) = askedFor script vecSend := by
  induction vecSend with
  | nil => rfl
  | cons s vecSend ih =>
    rw [paidTo] at ih ⊢
    rw [List.flatMap_cons, List.filter_append, List.map_append, List.sum_append, ih, askedFor,
      askedFor, List.filter_cons]
    by_cases hs : (s.1 == script) = true
    · have hall : (splitOutputs n s).filter (fun txout => txout.scriptPubKey == script) =
          splitOutputs n s := by
        refine List.filter_eq_self.mpr fun txout htxout => ?_
        rw [script_of_mem_splitOutputs htxout]
        exact hs
      rw [if_pos hs, hall, sum_splitOutputs, if_neg hn, List.map_cons, List.sum_cons]
    · have hnone : (splitOutputs n s).filter (fun txout => txout.scriptPubKey == script) = [] := by
        refine List.filter_eq_nil_iff.mpr fun txout htxout => ?_
        rw [script_of_mem_splitOutputs htxout]
        exact hs
      rw [if_neg hs, hnone, List.map_nil, List.sum_nil, Int.zero_add]

section

variable {K Key : Type} {S : SendRules K Key} {node : NodeView} {pw : CWallet K}
  {vecSend : List (CScript × Int)} {nValue : Int} {coinControl : Option SendControl}
  {coin_type : AvailableCoinsType} {useIX : Bool} {nFeePay nFeeRet : Int} {r : Created}

/-- The outputs with the change: none or one more, to the wallet, and with it and the fee nothing of
the change is lost. -/
theorem addChange_spec {minRelayTxFee : CFeeRate} {draws : PassDraws} {vout vout' : List CTxOut}
    {nChange nFeeRet' : Int} (hchange : 0 ≤ nChange)
    (h : addChange minRelayTxFee coinControl draws vout nFeeRet nChange = some (vout', nFeeRet')) :
    ∃ change : List CTxOut, change.length ≤ 1 ∧ vout'.Perm (change ++ vout) ∧
      (∀ txout ∈ change, 0 < txout.nValue ∧
        changeScript coinControl draws.reservedKey = some txout.scriptPubKey) ∧
      (change.map CTxOut.nValue).sum + nFeeRet' = nFeeRet + nChange := by
  rw [addChange] at h
  split at h
  swap
  · obtain ⟨rfl, rfl⟩ := Prod.mk.inj (Option.some.inj h)
    refine ⟨[], Nat.zero_le 1, List.Perm.refl _, fun txout hout => absurd hout List.not_mem_nil, ?_⟩
    rw [List.map_nil, List.sum_nil]
    omega
  rename_i hpos
  split at h
  · cases h
  rename_i scriptChange hscript
  dsimp only at h
  split at h
  · obtain ⟨rfl, rfl⟩ := Prod.mk.inj (Option.some.inj h)
    refine ⟨[], Nat.zero_le 1, List.Perm.refl _, fun txout hout => absurd hout List.not_mem_nil, ?_⟩
    rw [List.map_nil, List.sum_nil, Int.zero_add]
  · obtain ⟨rfl, rfl⟩ := Prod.mk.inj (Option.some.inj h)
    have hindex : draws.rand % (vout.length + 1) ≤ vout.length :=
      Nat.lt_succ_iff.mp (Nat.mod_lt draws.rand (Nat.succ_pos vout.length))
    refine ⟨[⟨nChange, scriptChange, -10⟩], Nat.le_refl 1, List.perm_insertIdx _ _ hindex,
      fun txout hout => ?_, ?_⟩
    · obtain rfl := List.mem_singleton.mp hout
      exact ⟨hpos, hscript⟩
    · rw [List.map_singleton, List.sum_singleton, Int.add_comm]

variable (S) in
/-- A transaction of this size with these coins may go for free. -/
def mayBeFree (coins : List COutput) (nBytes : Nat) : Prop :=
  S.fSendFreeTransactions = true ∧ nBytes ≤ MAX_FREE_TRANSACTION_CREATE_SIZE ∧
    S.hasPriority coins nBytes = true

variable (S node pw) in
/-- What `CreateTransaction` promises of a transaction and its fee. -/
structure Balanced (vecSend : List (CScript × Int)) (coinControl : Option SendControl)
    (coin_type : AvailableCoinsType) (useIX : Bool) (nFeePay : Int) (draws : PassDraws)
    (r : Created) : Prop where
  spends : r.tx.vin.map CTxIn.prevout = r.coins.map COutput.prevout
  offered : ∃ vCoins, pw.availableCoins S.toWalletRules node true
    (coinControl.map SendControl.toCCoinControl) false coin_type useIX = some vCoins ∧
      r.coins.Subperm vCoins
  /-- What is spent is what is paid, and the fee. -/
  balance : (r.coins.map COutput.nValue).sum = (r.tx.vout.map CTxOut.nValue).sum + r.nFeeRet
  /-- Beyond the change, each script is paid what is asked for it. -/
  payees : ∃ change vout : List CTxOut, r.tx.vout.Perm (change ++ vout) ∧ change.length ≤ 1 ∧
    (∀ txout ∈ change, 0 < txout.nValue ∧
      changeScript coinControl draws.reservedKey = some txout.scriptPubKey) ∧
    ∀ script, paidTo script vout = askedFor script vecSend
  fee : mayBeFree S r.coins r.tx.size ∨ max nFeePay (S.getMinimumFee r.tx.size) ≤ r.nFeeRet

/-- **A pass that is done balances.** -/
theorem createPass_balanced {draws : PassDraws}
    (hsplit : ∀ cc, coinControl = some cc → cc.fSplitBlock = true → 1 ≤ cc.nSplitBlock)
    (hvalue : nValue = (vecSend.map Prod.snd).sum)
    (h : pw.createPass S node vecSend nValue coinControl coin_type useIX nFeePay draws nFeeRet =
      .done r) :
    Balanced S node pw vecSend coinControl coin_type useIX nFeePay draws r := by
  have hcopies : copies coinControl ≠ 0 := by
    unfold copies
    split
    · exact Nat.one_ne_zero
    · rename_i cc
      split
      · rename_i hcc
        have hpos := hsplit cc rfl hcc
        omega
      · exact Nat.one_ne_zero
  unfold createPass at h
  split at h
  · cases h
  rename_i vout hpayees
  obtain rfl := payeeOutputs_ok hpayees
  split at h
  · cases h
  · cases h
  rename_i setCoins nValueIn hselect
  obtain ⟨_, -, hselected⟩ := selectCoins_selected hselect
  have hreached := hselected.reached
  dsimp only at h
  split at h
  · cases h
  rename_i vout' nFeeRet' hadd
  have hchange : ∃ change : List CTxOut, change.length ≤ 1 ∧
      vout'.Perm (change ++ vecSend.flatMap (splitOutputs (copies coinControl))) ∧
      (∀ txout ∈ change, 0 < txout.nValue ∧
        changeScript coinControl draws.reservedKey = some txout.scriptPubKey) ∧
      (change.map CTxOut.nValue).sum + nFeeRet' = nValueIn - nValue := by
    split at hadd
    · obtain ⟨change, hlen, hperm, hscript, hsum⟩ := addChange_spec le_rfl hadd
      exact ⟨change, hlen, hperm, hscript, by omega⟩
    · obtain ⟨change, hlen, hperm, hscript, hsum⟩ := addChange_spec (by omega) hadd
      exact ⟨change, hlen, hperm, hscript, by omega⟩
  obtain ⟨change, hlen, hperm, hscript, hsum⟩ := hchange
  split at h
  · cases h
  rename_i txNew hsign
  have hsigned := signCoins_signed _ hsign
  split at h
  · cases h
  have hpaid := sum_payees (copies coinControl) vecSend
  rw [if_neg hcopies] at hpaid
  have hbalance : ((draws.order setCoins).map COutput.nValue).sum =
      (txNew.vout.map CTxOut.nValue).sum + nFeeRet' := by
    rw [((draws.order_perm setCoins).map COutput.nValue).sum_eq, ← hselected.value,
      hsigned.rest.2.1, (hperm.map CTxOut.nValue).sum_eq, List.map_append, List.sum_append, hpaid,
      ← hvalue]
    omega
  have hspends : txNew.vin.map CTxIn.prevout = (draws.order setCoins).map COutput.prevout := by
    rw [hsigned.prevouts, List.map_map]
    rfl
  have hbalanced (hfee : mayBeFree S (draws.order setCoins)
      ({ txNew with hash := S.txid txNew } : CTransaction).size ∨
        max nFeePay (S.getMinimumFee ({ txNew with hash := S.txid txNew } : CTransaction).size) ≤
          nFeeRet') :
      Balanced S node pw vecSend coinControl coin_type useIX nFeePay draws
        ⟨{ txNew with hash := S.txid txNew }, nFeeRet', draws.order setCoins⟩ := by
    obtain ⟨vCoins, havail, hsub⟩ := selectCoins_subperm hselect
    refine ⟨hspends, ⟨vCoins, havail, (draws.order_perm setCoins).subperm.trans hsub⟩, hbalance,
      ⟨change, _, ?_, hlen, hscript, fun script => paidTo_payees script hcopies vecSend⟩, hfee⟩
    change txNew.vout.Perm _
    rw [hsigned.rest.2.1]
    exact hperm
  split at h
  · rename_i hfree
    obtain rfl := PassEnd.done.inj h
    exact hbalanced (Or.inl hfree)
  split at h
  · rename_i hfee
    obtain rfl := PassEnd.done.inj h
    exact hbalanced (Or.inr hfee)
  · cases h

theorem createLoop_last {draws : Nat → PassDraws} {nPasses : Nat}
    (h : pw.createLoop S node vecSend nValue coinControl coin_type useIX nFeePay draws nPasses
      nFeeRet = .done r) :
    ∃ i nFeeRet', pw.createPass S node vecSend nValue coinControl coin_type useIX nFeePay (draws i)
      nFeeRet' = .done r := by
  induction nPasses generalizing nFeeRet with
  | zero => cases h
  | succ nPasses ih =>
    rw [createLoop] at h
    split at h
    · exact ih h
    · exact ⟨nPasses, nFeeRet, h⟩

/--
**Created transactions balance.** The passes end, and a transaction that they end with spends what
it pays and its fee, pays the payees what is asked for, and has a fee that is enough.
-/
theorem createTransaction_balanced (draws : Nat → PassDraws)
    (hsplit : ∀ cc, coinControl = some cc → cc.fSplitBlock = true → 1 ≤ cc.nSplitBlock) :
    (∀ nFeeRet, pw.createTransaction S node vecSend coinControl coin_type useIX nFeePay draws ≠
      .again nFeeRet) ∧
    ∀ r, pw.createTransaction S node vecSend coinControl coin_type useIX nFeePay draws = .done r →
      (pw.Keyed → (r.coins.map COutput.prevout).Nodup) ∧
      ∃ i, Balanced S node pw vecSend coinControl coin_type useIX (feePay useIX nFeePay) (draws i)
        r := by
  refine ⟨createTransaction_ends, fun r h => ?_⟩
  rw [createTransaction] at h
  split at h
  · cases h
  rename_i nValue hvalue
  split at h
  · cases h
  have hsum := sumPayees_eq hvalue
  rw [Int.zero_add] at hsum
  obtain ⟨i, nFeeRet', hpass⟩ := createLoop_last h
  have hbalanced := createPass_balanced hsplit hsum hpass
  refine ⟨fun hkeyed => ?_, i, hbalanced⟩
  obtain ⟨vCoins, havail, l, hl, hsub⟩ := hbalanced.offered
  exact (hl.map COutput.prevout).nodup_iff.mp
    ((availableCoins_nodup hkeyed havail).sublist (hsub.map COutput.prevout))

end

def feeRules : SendRules Unit Unit := { payRules with maxTxFee := 20000 }

def changeKey : Uint160 := ⟨List.replicate 20 4, rfl⟩

def changeDraws : PassDraws := { payDraws with reservedKey := some changeKey }

/-- Three coins' worth, of which one is paid on, and the rest comes back less the fee. -/
def changed (nFeeRet : Int) : Created where
  tx := { (paid (3 * COIN)).tx with
    vout := [⟨3 * COIN - COIN - nFeeRet, scriptForDestination (.keyID changeKey), -10⟩,
      ⟨COIN, payScript, -10⟩] }
  nFeeRet := nFeeRet
  coins := [payCoin (3 * COIN)]

theorem changed_pass {nFeeRet : Int}
    (htry : (payWallet (3 * COIN)).tryCoins payRules.toWalletRules payDraws.select 0
      (COIN + nFeeRet) 1 6 0 [payCoin (3 * COIN)] = some (some [payCoin (3 * COIN)]))
    (hchange : addChange payRules.policy.minRelayTxFee none changeDraws [⟨COIN, payScript, -10⟩]
      nFeeRet (3 * COIN - COIN - nFeeRet) = some ((changed nFeeRet).tx.vout, nFeeRet)) :
    (payWallet (3 * COIN)).createPass feeRules (stakeNode 15) [(payScript, COIN)] COIN none
        .allCoins false 0 changeDraws nFeeRet =
      if nFeeRet ≥ 1390 then .done (changed nFeeRet) else .again 1390 := by
  have hselect : (payWallet (3 * COIN)).selectCoins feeRules.toWalletRules (stakeNode 15)
      feeRules.rounds feeRules.nObfuscationRounds changeDraws.select (COIN + nFeeRet) none
      .allCoins false = some (some ([payCoin (3 * COIN)], 3 * COIN)) :=
    pay_selects rfl htry
  have hsign : (payWallet (3 * COIN)).signCoins feeRules [payCoin (3 * COIN)] 0
      { hash := 0, vin := [⟨⟨5, 0⟩, [], 2 ^ 32 - 1⟩], vout := (changed nFeeRet).tx.vout } =
        some { (changed nFeeRet).tx with hash := 0 } :=
    pay_signs (3 * COIN) (changed nFeeRet).tx.vout
  have hsize : (changed nFeeRet).tx.size = 139 := by rfl
  have hpayees : payeeOutputs feeRules.policy.minRelayTxFee none [(payScript, COIN)] =
      .ok [⟨COIN, payScript, -10⟩] := by rfl
  unfold createPass
  rw [hpayees]
  dsimp only
  rw [Option.map_none, hselect]
  dsimp only
  rw [if_neg (by decide)]
  dsimp only
  rw [show feeRules.policy.minRelayTxFee = payRules.policy.minRelayTxFee from rfl, hchange]
  dsimp only
  rw [show changeDraws.order [payCoin (3 * COIN)] = [payCoin (3 * COIN)] from rfl,
    List.map_singleton, show (payCoin (3 * COIN)).prevout = ⟨5, 0⟩ from rfl, hsign]
  dsimp only
  change (if (changed nFeeRet).tx.size ≥ MAX_STANDARD_TX_SIZE then _
    else if feeRules.fSendFreeTransactions = true ∧ _ then _
    else if nFeeRet ≥ max 0 (feeRules.getMinimumFee (changed nFeeRet).tx.size) then
      PassEnd.done (changed nFeeRet)
    else .again (max 0 (feeRules.getMinimumFee (changed nFeeRet).tx.size))) = _
  rw [hsize, if_neg (by decide), if_neg fun h => absurd h.1 (by decide),
    show max 0 (feeRules.getMinimumFee 139) = 1390 from rfl]

theorem changed_creates : (payWallet (3 * COIN)).createTransaction feeRules (stakeNode 15)
    [(payScript, COIN)] none .allCoins false 0 (fun _ => changeDraws) = .done (changed 1390) := by
  have hpasses : (payWallet (3 * COIN)).createTransaction feeRules (stakeNode 15)
      [(payScript, COIN)] none .allCoins false 0 (fun _ => changeDraws) =
        (payWallet (3 * COIN)).createLoop feeRules (stakeNode 15) [(payScript, COIN)] COIN none
          .allCoins false 0 (fun _ => changeDraws) (19999 + 1 + 1) 0 := by
    unfold createTransaction
    dsimp only
    rw [show sumPayees 0 [(payScript, COIN)] = some COIN from rfl]
    dsimp only
    rw [if_neg (show ¬ [(payScript, COIN)].isEmpty = true from Bool.false_ne_true)]
    rfl
  rw [hpasses]
  rw [createLoop, changed_pass rfl rfl, if_neg (by decide)]
  dsimp only
  rw [createLoop, changed_pass rfl rfl, if_pos (by decide)]

/-- Of three coins' worth one is paid on; with its change and its fee the transaction balances. -/
theorem createTransaction_balanced_change :
    ((changed 1390).coins.map COutput.nValue).sum =
        ((changed 1390).tx.vout.map CTxOut.nValue).sum + 1390 ∧
      (changed 1390).tx.vout.map CTxOut.nValue = [2 * COIN - 1390, COIN] := by
  obtain ⟨-, i, hbalanced⟩ := (createTransaction_balanced (fun _ => changeDraws)
    (fun cc h => by cases h)).2 (changed 1390) changed_creates
  exact ⟨hbalanced.balance, rfl⟩

end CWallet

end BitBlocks
