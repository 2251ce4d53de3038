import BitBlocks.Lib.Loops
import BitBlocks.Wallet.Partition

/-!
# Balances and coins

`AvailableCoins` offers coins and `GetBalance` counts them, each by its own tests. They agree
on all transactions but the coin stakes: `GetAvailableCredit` asks a coinbase alone for its
maturity, where `GetImmatureCredit` and `AvailableCoins` ask a coin stake too. An immature
coin stake counts in two balances at a time, and none of its coins can be spent.
-/

namespace BitBlocks

def COutput.nValue (out : COutput) : Int := (out.tx.tx.vout[out.i]?).elim 0 CTxOut.nValue

def COutput.prevout (out : COutput) : COutPoint := ⟨out.tx.tx.hash, out.i⟩

variable {K : Type} (R : WalletRules K) (node : NodeView) (pw : CWallet K)

namespace CWallet

/-- The wallet with none of its coins locked. -/
def unlocked : CWallet K := { pw with setLockedCoins := [] }

/--
The balances partition the coins: no unspent output of a transaction that is not conflicted
counts twice, and `GetBalance` is no more than the coins on offer, the locked ones included.
-/
structure Partitioned (nBalance : Int) : Prop where
  once : ∀ hash w i, pw.mapWallet.lookup hash = some w → 0 ≤ w.depth R node true →
    ⟨hash, i⟩ ∈ (pw.unspentOutputs R node w.tx).map Prod.fst → pw.timesCounted R node ⟨hash, i⟩ ≤ 1
  offered : ∃ vCoins, pw.unlocked.availableCoins R node true none false .allCoins false =
    some vCoins ∧ nBalance ≤ ((vCoins.filter COutput.fSpendable).map COutput.nValue).sum

/-- No immature coin stake has an unspent output in the chain, or one of value that is trusted. -/
def StakesMature : Prop := ∀ hash w, pw.mapWallet.lookup hash = some w → w.tx.isCoinStake = true →
    0 < w.blocksToMaturity R node → ∀ o ∈ pw.unspentOutputs R node w.tx,
      w.isInMainChain R node = false ∧ (w.isTrusted R node pw = some true → o.2 ≤ 0)

end CWallet

variable {R node pw} {nBalance nUnconfirmed nImmature : Int} {hash : Uint256} {w : CWalletTx}

namespace CWallet

/-! ## What is offered -/

section

variable {coinControl : Option CCoinControl} {coin_type : AvailableCoinsType}
  {fOnlyConfirmed fIncludeZeroValue useIX : Bool} {vCoins : List COutput}

/-- **What is on offer**, transaction by transaction. -/
theorem availableCoins_sublist
    (h : pw.availableCoins R node fOnlyConfirmed coinControl fIncludeZeroValue coin_type useIX =
      some vCoins) :
    vCoins.Sublist (pw.mapWallet.entries.flatMap fun x =>
      pw.txCoins R node coinControl fIncludeZeroValue coin_type x.2 (x.2.depth R node false)) := by
  rw [availableCoins] at h
  have hsub := Collecting.foldlM_sublist (g := fun x =>
    pw.txCoins R node coinControl fIncludeZeroValue coin_type x.2 (x.2.depth R node false))
    (fun vCoins x vCoins' hstep => ?_) h
  · rwa [List.nil_append] at hsub
  dsimp only at hstep
  have hskip : vCoins.Sublist (vCoins ++ pw.txCoins R node coinControl fIncludeZeroValue coin_type
      x.2 (x.2.depth R node false)) := List.sublist_append_left _ _
  have hkept {vCoins' : List COutput} (h : some vCoins = some vCoins') :
      vCoins'.Sublist (vCoins ++ pw.txCoins R node coinControl fIncludeZeroValue coin_type x.2
        (x.2.depth R node false)) := Option.some.inj h ▸ hskip
  have htested {vCoins' : List COutput} (h : (do
      if (x.2.tx.isCoinBase || x.2.tx.isCoinStake) && decide (0 < x.2.blocksToMaturity R node) then
        return vCoins
      if useIX && decide (x.2.depth R node false < 6) then return vCoins
      if x.2.depth R node false == 0 && !x.2.inMempool node then return vCoins
      return vCoins ++ pw.txCoins R node coinControl fIncludeZeroValue coin_type x.2
        (x.2.depth R node false) : Option (List COutput)) = some vCoins') :
      vCoins'.Sublist (vCoins ++ pw.txCoins R node coinControl fIncludeZeroValue coin_type x.2
        (x.2.depth R node false)) := by
    split_ifs at h
    · exact hkept h
    · exact hkept h
    · exact hkept h
    · exact Option.some.inj h ▸ List.Sublist.refl _
  cases hfinal : node.checkFinal x.2.tx with
  | false =>
    rw [hfinal, if_pos (by decide)] at hstep
    exact hkept hstep
  | true =>
    rw [hfinal, if_neg (by decide)] at hstep
    cases fOnlyConfirmed with
    | false =>
      rw [if_neg (by decide)] at hstep
      exact htested hstep
    | true =>
      rw [if_pos rfl] at hstep
      obtain ⟨fTrusted, -, hstep⟩ := Option.bind_eq_some_iff.mp hstep
      cases fTrusted with
      | false =>
        rw [if_pos (by decide)] at hstep
        exact hkept hstep
      | true =>
        rw [if_neg (by decide)] at hstep
        exact htested hstep

end

/-- The coins of one transaction that `AvailableCoins` offers by default. -/
def offeredCoins (R : WalletRules K) (node : NodeView) (pw : CWallet K) (w : CWalletTx) :
    List COutput :=
  if node.checkFinal w.tx ∧ w.isTrusted R node pw = some true ∧
      ¬ ((w.tx.isCoinBase || w.tx.isCoinStake) && decide (0 < w.blocksToMaturity R node)) then
    pw.unlocked.txCoins R node none false .allCoins w (w.depth R node false)
  else []

theorem inMempool_of_depth {enableIX : Bool} (h : w.depth R node enableIX = 0) :
    w.inMempool node = true := by
  by_contra hout
  have hfalse : w.inMempool node = false := Bool.eq_false_iff.mpr hout
  rw [CWalletTx.depth] at h
  by_cases h0 : w.depthInternal R node = 0
  · rw [if_pos ⟨h0, by simp [hfalse]⟩] at h
    omega
  · rw [if_neg fun hc => h0 hc.1] at h
    split at h <;> omega

/-- **What the wallet offers**, if each of its transactions is told trusted or not. -/
theorem availableCoins_eq (h : ∀ x ∈ pw.mapWallet.entries, (x.2.isTrusted R node pw).isSome) :
    pw.unlocked.availableCoins R node true none false .allCoins false =
      some (pw.mapWallet.entries.flatMap fun x => pw.offeredCoins R node x.2) := by
  have hgen : ∀ (l : List (Sigma fun _ : Uint256 => CWalletTx)) (vCoins : List COutput),
      (∀ x ∈ l, (x.2.isTrusted R node pw).isSome) → l.foldlM (fun vCoins x => do
        let w := x.2
        if !node.checkFinal w.tx then return vCoins
        if true then
          if !(← w.isTrusted R node pw.unlocked) then return vCoins
        if (w.tx.isCoinBase || w.tx.isCoinStake) && decide (0 < w.blocksToMaturity R node) then
          return vCoins
        let nDepth := w.depth R node false
        if false && decide (nDepth < 6) then return vCoins
        if nDepth == 0 && !w.inMempool node then return vCoins
        return vCoins ++ pw.unlocked.txCoins R node none false .allCoins w nDepth) vCoins =
      some (vCoins ++ l.flatMap fun x => pw.offeredCoins R node x.2) := by
    intro l
    induction l with
    | nil =>
      intro vCoins _
      simp
    | cons x l ih =>
      intro vCoins hall
      obtain ⟨hx, hl⟩ := List.forall_mem_cons.mp hall
      obtain ⟨b, hb⟩ := Option.isSome_iff_exists.mp hx
      have hb' : x.2.isTrusted R node pw.unlocked = some b := hb
      have hpool : (x.2.depth R node false == 0 && !x.2.inMempool node) = false := by
        by_cases h0 : x.2.depth R node false = 0
        · rw [inMempool_of_depth h0]
          simp
        · simp [h0]
      rw [List.foldlM_cons, List.flatMap_cons, ← List.append_assoc]
      refine Option.bind_eq_some_iff.mpr ⟨_, ?_, ih _ hl⟩
      dsimp only
      rw [hb', hpool, offeredCoins, hb]
      cases hfinal : node.checkFinal x.2.tx with
      | false => simp
      | true =>
        cases b with
        | false => simp
        | true =>
          by_cases hmature : ((x.2.tx.isCoinBase || x.2.tx.isCoinStake) &&
              decide (0 < x.2.blocksToMaturity R node)) = true
          · simp [hmature]
          · simp [Bool.eq_false_iff.mpr hmature]
  have hall := hgen _ [] h
  rwa [List.nil_append] at hall

/-- An output that is offered by default: not spent, the wallet's, and worth something. -/
theorem coin_unlocked (nDepth : Int) (txout : CTxOut) (i : Nat) :
    pw.unlocked.coin R node none false .allCoins w nDepth txout i =
      if pw.isSpent R node ⟨w.tx.hash, i⟩ = false ∧ pw.isMine R txout ≠ ISMINE_NO ∧
          0 < txout.nValue then
        some ⟨w, i, nDepth, pw.isMine R txout &&& ISMINE_SPENDABLE != 0⟩
      else none := by
  have hspent : pw.unlocked.isSpent R node ⟨w.tx.hash, i⟩ = pw.isSpent R node ⟨w.tx.hash, i⟩ := rfl
  have hmine : pw.unlocked.isMine R txout = pw.isMine R txout := rfl
  have hlocked : pw.unlocked.setLockedCoins = [] := rfl
  simp [coin, found, hspent, hmine, hlocked, and_assoc]

theorem txCoins_sum (nDepth : Int) (hnonneg : ∀ o ∈ pw.unspentOutputs R node w.tx, 0 ≤ o.2) :
    (((pw.unlocked.txCoins R node none false .allCoins w nDepth).filter
      COutput.fSpendable).map COutput.nValue).sum =
      ((pw.unspentOutputs R node w.tx).map Prod.snd).sum := by
  have hgen : ∀ outs : List (CTxOut × Nat), (∀ x ∈ outs, w.tx.vout[x.2]? = some x.1) →
      (∀ o ∈ pw.spendableOf R w.tx (outs.filter fun x => !pw.isSpent R node ⟨w.tx.hash, x.2⟩),
        0 ≤ o.2) →
      (((outs.filterMap fun x => pw.unlocked.coin R node none false .allCoins w nDepth x.1
        x.2).filter COutput.fSpendable).map COutput.nValue).sum =
      ((pw.spendableOf R w.tx
        (outs.filter fun x => !pw.isSpent R node ⟨w.tx.hash, x.2⟩)).map Prod.snd).sum := by
    intro outs
    induction outs with
    | nil =>
      intro _ _
      rfl
    | cons x outs ih =>
      intro hmem hpos
      obtain ⟨hx, hrest⟩ := List.forall_mem_cons.mp hmem
      rw [List.filterMap_cons, coin_unlocked]
      cases hspent : pw.isSpent R node ⟨w.tx.hash, x.2⟩ with
      | true =>
        rw [List.filter_cons_of_neg (by simp [hspent])] at hpos ⊢
        rw [if_neg fun hc => by cases hc.1]
        exact ih hrest hpos
      | false =>
        rw [List.filter_cons_of_pos (by simp [hspent])] at hpos ⊢
        by_cases hmine : pw.isMine R x.1 &&& ISMINE_SPENDABLE = 0
        · -- not spendable: at most offered to be watched
          rw [spendableOf_cons_of_neg hmine] at hpos ⊢
          rw [← ih hrest hpos]
          split
          · rename_i hnone
            rfl
          · rename_i out hsome
            split at hsome
            · obtain rfl := Option.some.inj hsome
              rw [List.filter_cons_of_neg (by simp [hmine])]
            · cases hsome
        · rw [spendableOf_cons_of_pos hmine] at hpos ⊢
          obtain ⟨hvalue, hpos⟩ := List.forall_mem_cons.mp hpos
          have hvalue : 0 ≤ x.1.nValue := hvalue
          have hno : pw.isMine R x.1 ≠ ISMINE_NO := by
            intro hno
            rw [hno] at hmine
            exact hmine (Nat.zero_and _)
          rw [List.map_cons, List.sum_cons, ← ih hrest hpos]
          by_cases h0 : 0 < x.1.nValue
          · rw [if_pos ⟨rfl, hno, h0⟩]
            dsimp only
            rw [List.filter_cons_of_pos (by simpa using hmine), List.map_cons, List.sum_cons,
              COutput.nValue]
            dsimp only
            rw [hx]
            rfl
          · rw [if_neg fun hc => h0 hc.2.2]
            dsimp only
            omega
  refine hgen _ (fun x hx => ?_) hnonneg
  exact List.mem_zipIdx_iff_getElem?.mp hx

/-! ## The two compared, transaction by transaction -/

theorem isFinalTx_of_le {tx : CTransaction} {h h' t : Int} (hle : h ≤ h')
    (hfinal : isFinalTx tx h t = true) : isFinalTx tx h' t = true := by
  rw [isFinalTx, Bool.or_eq_true, Bool.or_eq_true, decide_eq_true_eq] at hfinal ⊢
  rcases hfinal with (h0 | hlock) | hseq
  · exact Or.inl (Or.inl h0)
  · refine Or.inl (Or.inr ?_)
    split at hlock
    · rw [if_pos ‹_›]
      omega
    · rw [if_neg ‹_›]
      exact hlock
  · exact Or.inr hseq

theorem checkFinal_of_isFinal {tx : CTransaction} (h : node.isFinal tx 0 = true) :
    node.checkFinal tx = true := by
  rw [NodeView.isFinal, if_pos rfl] at h
  rw [NodeView.checkFinal, NodeView.isFinal]
  refine isFinalTx_of_le ?_ h
  split <;> omega

theorem isFinal_of_isTrusted (h : w.isTrusted R node pw = some true) :
    node.isFinal w.tx 0 = true := by
  by_contra hnot
  rw [CWalletTx.isTrusted, if_pos (by simpa using hnot)] at h
  cases h

def ImmatureStake (R : WalletRules K) (node : NodeView) (w : CWalletTx) : Prop :=
  w.tx.isCoinStake = true ∧ 0 < w.blocksToMaturity R node

theorem ImmatureStake.not_coinBase (h : ImmatureStake R node w) : w.tx.isCoinBase = false := by
  by_contra hbase
  have hnot := CTransaction.isCoinStake_of_isCoinBase (Bool.not_eq_false _ ▸ hbase)
  rw [h.1] at hnot
  cases hnot

theorem ImmatureStake.sums (h : ImmatureStake R node w) :
    pw.availableOutputs R node w = pw.unspentOutputs R node w.tx ∧
      pw.offeredCoins R node w = [] := by
  constructor
  · rw [availableOutputs, h.not_coinBase]
    rfl
  · rw [offeredCoins, if_neg]
    intro hc
    refine hc.2.2 ?_
    rw [h.1, Bool.or_true, Bool.true_and]
    exact decide_eq_true h.2

/-- **Any other transaction counts for what is offered of it.** -/
theorem offeredCoins_sum (h : ¬ ImmatureStake R node w)
    (hnonneg : w.isTrusted R node pw = some true → ∀ o ∈ pw.availableOutputs R node w, 0 ≤ o.2) :
    (((pw.offeredCoins R node w).filter COutput.fSpendable).map COutput.nValue).sum =
      ((pw.balanceOutputs R node w).map Prod.snd).sum := by
  rw [offeredCoins, balanceOutputs]
  by_cases htrust : w.isTrusted R node pw = some true
  · have hfinal := checkFinal_of_isFinal (isFinal_of_isTrusted htrust)
    rw [if_pos htrust]
    have hnonneg := hnonneg htrust
    by_cases hbase : (w.tx.isCoinBase && decide (0 < w.blocksToMaturity R node)) = true
    · obtain ⟨hb, hm⟩ := Bool.and_eq_true_iff.mp hbase
      rw [availableOutputs, if_pos hbase, if_neg]
      · rfl
      · intro hc
        refine hc.2.2 ?_
        rw [hb, Bool.true_or, Bool.true_and]
        exact hm
    · rw [availableOutputs, if_neg hbase] at hnonneg ⊢
      have hmature : ¬ ((w.tx.isCoinBase || w.tx.isCoinStake) &&
          decide (0 < w.blocksToMaturity R node)) = true := by
        intro hc
        obtain ⟨hkind, hm⟩ := Bool.and_eq_true_iff.mp hc
        rcases Bool.or_eq_true_iff.mp hkind with hb | hs
        · exact hbase (Bool.and_eq_true_iff.mpr ⟨hb, hm⟩)
        · exact h ⟨hs, of_decide_eq_true hm⟩
      rw [if_pos ⟨hfinal, htrust, hmature⟩]
      exact txCoins_sum _ hnonneg
  · rw [if_neg htrust, if_neg fun hc => htrust hc.2.1]
    rfl

/-! ## Who counts an output -/

theorem inMainChain_counts (h : w.isInMainChain R node = true) :
    w.isTrusted R node pw = some true ∨ pw.isUnconfirmed R node w = some true := by
  have hdepth : 1 ≤ w.depth R node true := by
    have hpos : 0 < w.depthInternal R node := of_decide_eq_true h
    rw [CWalletTx.depth, if_neg fun hc => by omega]
    split <;> omega
  cases hfinal : node.isFinal w.tx 0 with
  | true =>
    refine Or.inl ?_
    rw [CWalletTx.isTrusted, hfinal, if_neg (by simp), if_pos hdepth]
  | false =>
    refine Or.inr ?_
    rw [isUnconfirmed, hfinal]
    rfl

theorem isUnconfirmed_ne (h : w.isTrusted R node pw = some true) :
    pw.isUnconfirmed R node w ≠ some true := by
  rw [isUnconfirmed, isFinal_of_isTrusted h, h]
  simp

theorem availableOutputs_sublist :
    (pw.availableOutputs R node w).Sublist (pw.spendableOutputs R w.tx) := by
  rw [availableOutputs]
  split
  · exact List.nil_sublist _
  · exact ((List.filter_sublist).filter _).map _

theorem timesCounted_eq (hkeyed : pw.Keyed) (hw : pw.mapWallet.lookup hash = some w) (i : Nat) :
    pw.timesCounted R node ⟨hash, i⟩ = ((pw.balanceOutputs R node w).map Prod.fst).count ⟨hash, i⟩ +
        ((pw.unconfirmedOutputs R node w).map Prod.fst).count ⟨hash, i⟩ +
        ((pw.immatureOutputs R node w).map Prod.fst).count ⟨hash, i⟩ := by
  have hall : ∀ w : CWalletTx, ∀ o ∈ pw.spendableOutputs R w.tx, o.1.hash = w.tx.hash :=
    fun w o ho => spendableOf_mem ho
  have hav : ∀ w, ∀ o ∈ pw.availableOutputs R node w, o.1.hash = w.tx.hash :=
    fun w o ho => hall w o (availableOutputs_sublist.subset ho)
  rw [timesCounted, count_counted hkeyed hw, List.map_append, List.map_append, List.count_append,
    List.count_append]
  intro w o ho
  rcases List.mem_append.mp ho with ho | ho
  · rcases List.mem_append.mp ho with ho | ho
    · rw [balanceOutputs] at ho
      split at ho
      · exact hav w o ho
      · cases ho
    · rw [unconfirmedOutputs] at ho
      split at ho
      · exact hav w o ho
      · cases ho
  · rw [immatureOutputs] at ho
    split at ho
    · exact hall w o ho
    · cases ho

theorem spendableOutputs_nodup : ((pw.spendableOutputs R w.tx).map Prod.fst).Nodup :=
  spendableOf_nodup (List.Sublist.refl _)

/-- **No output of a transaction counts twice**, if it is no coin stake to be waited for. -/
theorem timesCounted_le (hkeyed : pw.Keyed) (hw : pw.mapWallet.lookup hash = some w)
    (h : ¬ (ImmatureStake R node w ∧ w.isInMainChain R node = true)) (i : Nat) :
    pw.timesCounted R node ⟨hash, i⟩ ≤ 1 := by
  have hav : ((pw.availableOutputs R node w).map Prod.fst).count ⟨hash, i⟩ ≤ 1 :=
    List.nodup_iff_count_le_one.mp
      ((availableOutputs_sublist.map Prod.fst).nodup spendableOutputs_nodup) _
  rw [timesCounted_eq hkeyed hw, immatureOutputs]
  by_cases himm : ((w.tx.isCoinBase || w.tx.isCoinStake) &&
      decide (0 < w.blocksToMaturity R node) && w.isInMainChain R node) = true
  · -- a coinbase: none of its outputs is available
    obtain ⟨hkind, hchain⟩ := Bool.and_eq_true_iff.mp himm
    obtain ⟨hkind, hm⟩ := Bool.and_eq_true_iff.mp hkind
    have hbase : w.tx.isCoinBase = true := by
      rcases Bool.or_eq_true_iff.mp hkind with hb | hs
      · exact hb
      · exact absurd ⟨⟨hs, of_decide_eq_true hm⟩, hchain⟩ h
    have hnone : pw.availableOutputs R node w = [] := by
      rw [availableOutputs, if_pos (Bool.and_eq_true_iff.mpr ⟨hbase, hm⟩)]
    have hone := List.nodup_iff_count_le_one.mp (@spendableOutputs_nodup K R pw w) ⟨hash, i⟩
    rw [balanceOutputs, unconfirmedOutputs, hnone, ite_self, ite_self, if_pos himm]
    simpa using hone
  · rw [if_neg himm, balanceOutputs, unconfirmedOutputs]
    by_cases htrust : w.isTrusted R node pw = some true
    · rw [if_pos htrust, if_neg (isUnconfirmed_ne htrust)]
      simpa using hav
    · rw [if_neg htrust]
      split
      · simpa using hav
      · simp

theorem ImmatureStake.timesCounted (h : ImmatureStake R node w) (hkeyed : pw.Keyed)
    (hw : pw.mapWallet.lookup hash = some w) (hchain : w.isInMainChain R node = true) {i : Nat}
    (hi : ⟨hash, i⟩ ∈ (pw.unspentOutputs R node w.tx).map Prod.fst) :
    2 ≤ pw.timesCounted R node ⟨hash, i⟩ := by
  have himm : 1 ≤ ((pw.immatureOutputs R node w).map Prod.fst).count ⟨hash, i⟩ := by
    rw [immatureOutputs, if_pos]
    · refine List.count_pos_iff.mpr ?_
      have hsub : (pw.unspentOutputs R node w.tx).Sublist (pw.spendableOutputs R w.tx) :=
        ((List.filter_sublist).filter _).map _
      exact (hsub.map Prod.fst).subset hi
    · rw [h.1, Bool.or_true, Bool.true_and, hchain, Bool.and_true]
      exact decide_eq_true h.2
  have hav : 1 ≤ ((pw.availableOutputs R node w).map Prod.fst).count ⟨hash, i⟩ := by
    rw [h.sums.1]
    exact List.count_pos_iff.mpr hi
  rw [timesCounted_eq hkeyed hw, balanceOutputs, unconfirmedOutputs]
  rcases @inMainChain_counts K R node pw w hchain with htrust | hun
  · rw [if_pos htrust]
    omega
  · rw [if_pos hun]
    omega

/-! ## The balances partition the coins -/

theorem offered_sum : (((pw.mapWallet.entries.flatMap fun x => pw.offeredCoins R node x.2).filter
        COutput.fSpendable).map COutput.nValue).sum =
      (pw.mapWallet.entries.map fun x =>
        (((pw.offeredCoins R node x.2).filter COutput.fSpendable).map COutput.nValue).sum).sum := by
  induction pw.mapWallet.entries with
  | nil => rfl
  | cons x l ih =>
    rw [List.flatMap_cons, List.filter_append, List.map_append, List.sum_append, ih, List.map_cons,
      List.sum_cons]

/-- **A balance is on offer** iff the immature coin stakes that are trusted are worth nothing. -/
theorem le_offered_iff (hsome : ∀ x ∈ pw.mapWallet.entries, (x.2.isTrusted R node pw).isSome)
    (hnonneg : ∀ hash w, pw.mapWallet.lookup hash = some w → w.isTrusted R node pw = some true →
      ∀ o ∈ pw.availableOutputs R node w, 0 ≤ o.2)
    (hb : nBalance = ((pw.counted (pw.balanceOutputs R node)).map Prod.snd).sum) :
    (∃ vCoins, pw.unlocked.availableCoins R node true none false .allCoins false = some vCoins ∧
        nBalance ≤ ((vCoins.filter COutput.fSpendable).map COutput.nValue).sum) ↔
      ∀ hash w, pw.mapWallet.lookup hash = some w → ImmatureStake R node w →
        w.isTrusted R node pw = some true → ∀ o ∈ pw.unspentOutputs R node w.tx, o.2 ≤ 0 := by
  -- what is offered of a transaction is no more than what counts
  have hle : ∀ x ∈ pw.mapWallet.entries,
      (((pw.offeredCoins R node x.2).filter COutput.fSpendable).map COutput.nValue).sum ≤
        ((pw.balanceOutputs R node x.2).map Prod.snd).sum := by
    intro x hx
    by_cases hstake : ImmatureStake R node x.2
    · rw [hstake.sums.2, balanceOutputs]
      split
      · refine List.sum_nonneg fun n hn => ?_
        obtain ⟨o, ho, rfl⟩ := List.mem_map.mp hn
        exact hnonneg _ _ (mem_entries.mp hx) ‹_› o ho
      · exact le_rfl
    · exact (offeredCoins_sum hstake (hnonneg _ _ (mem_entries.mp hx))).le
  rw [availableCoins_eq hsome, hb, counted_sum]
  have hsum : (∃ vCoins, some (pw.mapWallet.entries.flatMap fun x => pw.offeredCoins R node x.2) =
      some vCoins ∧ (pw.mapWallet.entries.map fun x =>
        ((pw.balanceOutputs R node x.2).map Prod.snd).sum).sum ≤
          ((vCoins.filter COutput.fSpendable).map COutput.nValue).sum) ↔
      ∀ x ∈ pw.mapWallet.entries, ((pw.balanceOutputs R node x.2).map Prod.snd).sum ≤
        (((pw.offeredCoins R node x.2).filter COutput.fSpendable).map COutput.nValue).sum := by
    rw [← sum_le_sum_iff hle, ← offered_sum]
    constructor
    · intro ⟨vCoins, hcoins, hval⟩
      rwa [← Option.some.inj hcoins] at hval
    · intro hval
      exact ⟨_, rfl, hval⟩
  rw [hsum]
  constructor
  · intro hall hash w hw hstake htrust o ho
    have hval := hall ⟨hash, w⟩ (mem_entries.mpr hw)
    dsimp only at hval
    rw [hstake.sums.2, balanceOutputs, if_pos htrust, hstake.sums.1] at hval
    have hpos : ∀ n ∈ (pw.unspentOutputs R node w.tx).map Prod.snd, 0 ≤ n := by
      intro n hn
      obtain ⟨o, ho, rfl⟩ := List.mem_map.mp hn
      exact hnonneg hash w hw htrust o (by rwa [hstake.sums.1])
    exact (List.single_le_sum hpos _ (List.mem_map_of_mem ho)).trans hval
  · intro hall x hx
    by_cases hstake : ImmatureStake R node x.2
    · rw [hstake.sums.2, balanceOutputs]
      split
      · have hworthless : ∀ o ∈ pw.unspentOutputs R node x.2.tx, o.2 ≤ 0 :=
          hall _ _ (mem_entries.mp hx) hstake ‹_›
        rw [hstake.sums.1]
        exact (List.sum_le_sum hworthless).trans (by simp)
      · exact le_rfl
    · exact (offeredCoins_sum hstake (hnonneg _ _ (mem_entries.mp hx))).ge

/--
**The balances partition the coins** iff no immature coin stake has something to count: one
in the chain counts in two balances at once, and one that is trusted counts in `GetBalance`
without being on offer. In any case the balances add up the outputs they count.
-/
theorem partitioned_iff (hkeyed : pw.Keyed) (hfresh : pw.Fresh R node)
    (hb : pw.getBalance R node = some nBalance)
    (hu : pw.getUnconfirmedBalance R node = some nUnconfirmed)
    (hi : pw.getImmatureBalance R node = some nImmature) :
    nBalance + nUnconfirmed + nImmature =
        ((pw.counted fun w => pw.balanceOutputs R node w ++ pw.unconfirmedOutputs R node w ++
          pw.immatureOutputs R node w).map Prod.snd).sum ∧
      (pw.Partitioned R node nBalance ↔ pw.StakesMature R node) := by
  have hget : ∀ hash w m, pw.mapWallet.lookup hash = some w →
      w.getAvailableCredit R node pw true = some m →
      m = ((pw.availableOutputs R node w).map Prod.snd).sum :=
    fun hash w m hw hm => (getAvailableCredit_eq_some (hfresh hash w hw) hm).1
  obtain ⟨hbsum, hball⟩ := balance_eq_some hget hb
  obtain ⟨husum, -⟩ := balance_eq_some hget hu
  obtain ⟨hisum, -⟩ := balance_eq_some
    (fun hash w m hw hm => getImmatureCredit_eq_some (hfresh hash w hw) hm) hi
  have hnonneg : ∀ hash w, pw.mapWallet.lookup hash = some w →
      w.isTrusted R node pw = some true → ∀ o ∈ pw.availableOutputs R node w, 0 ≤ o.2 := by
    intro hash w hw htrust
    obtain ⟨m, hm⟩ := Option.isSome_iff_exists.mp ((hball ⟨hash, w⟩ (mem_entries.mpr hw)).2 htrust)
    exact (getAvailableCredit_eq_some (hfresh hash w hw) hm).2
  refine ⟨?_, ?_⟩
  · have hisum : nImmature = ((pw.counted (pw.immatureOutputs R node)).map Prod.snd).sum := hisum
    have hbsum : nBalance = ((pw.counted (pw.balanceOutputs R node)).map Prod.snd).sum := hbsum
    have husum : nUnconfirmed = ((pw.counted (pw.unconfirmedOutputs R node)).map Prod.snd).sum :=
      husum
    rw [hbsum, husum, hisum, counted_sum, counted_sum, counted_sum, counted_sum, ← List.sum_map_add,
      ← List.sum_map_add]
    simp only [List.map_append, List.sum_append]
  have hoffer := le_offered_iff (fun x hx => (hball x hx).1) hnonneg hbsum
  constructor
  · intro ⟨honce, hoffered⟩ hash w hw hstake hm o ho
    have hout : o.1 = ⟨hash, o.1.n⟩ := by
      rw [← hkeyed hash w hw, ← spendableOf_mem ho]
    refine ⟨?_, fun htrust => hoffer.mp hoffered hash w hw ⟨hstake, hm⟩ htrust o ho⟩
    by_contra hchain
    have hchain := (Bool.not_eq_false _).mp hchain
    have hi : ⟨hash, o.1.n⟩ ∈ (pw.unspentOutputs R node w.tx).map Prod.fst := by
      rw [← hout]
      exact List.mem_map_of_mem ho
    have htwice := ImmatureStake.timesCounted ⟨hstake, hm⟩ hkeyed hw hchain hi
    have hpos : 0 ≤ w.depth R node true := by
      have hin : 0 < w.depthInternal R node := of_decide_eq_true hchain
      rw [CWalletTx.depth, if_neg fun hc => by omega]
      split <;> omega
    have hle := honce hash w o.1.n hw hpos hi
    omega
  · intro hmature
    refine ⟨fun hash w i hw _ hi => timesCounted_le hkeyed hw ?_ i, hoffer.mpr ?_⟩
    · intro ⟨hstake, hchain⟩
      obtain ⟨o, ho, -⟩ := List.mem_map.mp hi
      have hout := (hmature hash w hw hstake.1 hstake.2 o ho).1
      rw [hchain] at hout
      cases hout
    · intro hash w hw hstake htrust o ho
      exact (hmature hash w hw hstake.1 hstake.2 o ho).2 htrust

/-- Rules to evaluate on: the script `OP_1` is the wallet's. -/
def plainRules : WalletRules Unit where
  params := mainParams
  hash2 a b := 2 * a + 3 * b + 1
  isMine _ scriptPubKey := if scriptPubKey = [0x51] then ISMINE_SPENDABLE else ISMINE_NO
  bSpendZeroConfChange := true
  nSwiftTXDepth := 5
  fMasterNode := false
  nMasternodeCollateralLimit := 150000

/-- A coin stake of the wallet's, in the block `7` that holds nothing else. -/
def stakeTx : CWalletTx where
  tx := { hash := 5, vin := [⟨⟨9, 0⟩, [], 0⟩], vout := [⟨0, [], -10⟩, ⟨100, [0x51], -10⟩] }
  hashBlock := 7
  nIndex := 0

def stakeWallet : CWallet Unit := { keys := (), mapWallet := AList.singleton 5 stakeTx }

/-- The block of the coin stake, with `n` blocks on top of it. -/
def stakeNode (n : Nat) : NodeView := { chainActive := ⟨7, 5⟩ :: List.replicate n ⟨8, 0⟩ }

theorem stakeWallet_lookup (h : stakeWallet.mapWallet.lookup hash = some w) :
    hash = 5 ∧ w = stakeTx := by
  have hmem : (⟨hash, w⟩ : Sigma fun _ : Uint256 => CWalletTx) ∈ stakeWallet.mapWallet.entries :=
    mem_entries.mpr h
  have heq := List.mem_singleton.mp hmem
  cases heq
  exact ⟨rfl, rfl⟩

theorem stakeWallet_fresh (n : Nat) : stakeWallet.Fresh plainRules (stakeNode n) := by
  intro hash w hw
  obtain ⟨-, rfl⟩ := stakeWallet_lookup hw
  constructor <;> intro n hn <;> cases hn

/-- A coin stake with enough blocks on top of it counts once. -/
theorem partitioned_of_deep_stake : stakeWallet.Partitioned plainRules (stakeNode 15) 100 := by
  have hiff := @partitioned_iff Unit plainRules (stakeNode 15) stakeWallet 100 0 0
    (fun hash w hw => by obtain ⟨rfl, rfl⟩ := stakeWallet_lookup hw; rfl) (stakeWallet_fresh 15)
    (by decide) (by decide) (by decide)
  refine hiff.2.mpr fun hash w hw _ hm => ?_
  obtain ⟨-, rfl⟩ := stakeWallet_lookup hw
  exact absurd hm (by decide)

/-- A coin stake at the tip is available and immature at a time, and no coin is on offer. -/
theorem immature_stake_counts_twice : stakeWallet.getBalance plainRules (stakeNode 0) = some 100 ∧
      stakeWallet.getImmatureBalance plainRules (stakeNode 0) = some 100 ∧
      stakeWallet.timesCounted plainRules (stakeNode 0) ⟨5, 1⟩ = 2 ∧
      ((stakeWallet.unlocked.availableCoins plainRules (stakeNode 0) true none false .allCoins
        false).map List.length) = some 0 ∧
      ¬ stakeWallet.Partitioned plainRules (stakeNode 0) 100 := by
  refine ⟨by decide, by decide, by decide, by decide, fun h => ?_⟩
  have hle := h.once 5 stakeTx 1 (by decide) (by decide) (by decide)
  exact absurd hle (by decide)

end CWallet

end BitBlocks
