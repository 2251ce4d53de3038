import BitBlocks.Wallet.Balances

/-!
# What the balances count

Each of the three balances goes over the wallet and adds up outputs of the transactions that
pass its test. While the sums that are remembered are those that would be formed, a balance
is the sum of the outputs it counts, and how often an output counts is told by its
transaction alone.
-/

namespace BitBlocks

/-! ## Sums -/

theorem addUp_eq_some {P : CChainParams} {xs : List (Option Int)} {n : Int}
    (h : addUp P xs = some n) : n = (xs.map fun x => x.getD 0).sum ∧ ∀ x ∈ xs, x.isSome := by
  have hgen : ∀ (xs : List (Option Int)) (m : Int), xs.foldlM (fun n x => x.bind fun x =>
      if P.moneyRange (n + x) then some (n + x) else none) m = some n →
      n = m + (xs.map fun x => x.getD 0).sum ∧ ∀ x ∈ xs, x.isSome := by
    intro xs
    induction xs with
    | nil =>
      intro m hm
      obtain rfl := Option.some.inj hm
      simp
    | cons x xs ih =>
      intro m hm
      rw [List.foldlM_cons] at hm
      obtain ⟨m', hm', hrest⟩ := Option.bind_eq_some_iff.mp hm
      obtain ⟨a, rfl, ha⟩ := Option.bind_eq_some_iff.mp hm'
      split at ha
      · obtain rfl := Option.some.inj ha
        obtain ⟨heq, hall⟩ := ih _ hrest
        refine ⟨?_, List.forall_mem_cons.mpr ⟨rfl, hall⟩⟩
        rw [heq, List.map_cons, List.sum_cons, Option.getD_some, add_assoc]
      · cases ha
  have hsum := hgen xs 0 h
  rwa [zero_add] at hsum

/-- Terms that are never smaller than others add up to no less, and to no more only if none is
larger. -/
theorem sum_le_sum_iff {α : Type*} {f g : α → Int} {l : List α} (h : ∀ a ∈ l, g a ≤ f a) :
    (l.map f).sum ≤ (l.map g).sum ↔ ∀ a ∈ l, f a ≤ g a := by
  induction l with
  | nil => simp
  | cons a l ih =>
    obtain ⟨ha, hrest⟩ := List.forall_mem_cons.mp h
    have hle : (l.map g).sum ≤ (l.map f).sum := List.sum_le_sum hrest
    rw [List.forall_mem_cons, ← ih hrest, List.map_cons, List.map_cons, List.sum_cons,
      List.sum_cons]
    omega

variable {K : Type} (R : WalletRules K) (node : NodeView) (pw : CWallet K)

/-! ## What is counted -/

namespace CWallet

/-- The spendable ones of some outputs, with their values. -/
def spendableOf (tx : CTransaction) (outs : List (CTxOut × Nat)) : List (COutPoint × Int) :=
  (outs.filter fun x => pw.isMine R x.1 &&& ISMINE_SPENDABLE != 0).map fun x =>
    (⟨tx.hash, x.2⟩, x.1.nValue)

def spendableOutputs (tx : CTransaction) : List (COutPoint × Int) :=
  pw.spendableOf R tx tx.vout.zipIdx

def unspentOutputs (tx : CTransaction) : List (COutPoint × Int) :=
  pw.spendableOf R tx (tx.vout.zipIdx.filter fun x => !pw.isSpent R node ⟨tx.hash, x.2⟩)

/-- The outputs whose values `GetAvailableCredit` adds up. -/
def availableOutputs (w : CWalletTx) : List (COutPoint × Int) :=
  if w.tx.isCoinBase && decide (0 < w.blocksToMaturity R node) then []
  else pw.unspentOutputs R node w.tx

/-- The outputs of a transaction that count in `GetBalance`. -/
def balanceOutputs (w : CWalletTx) : List (COutPoint × Int) :=
  if w.isTrusted R node pw = some true then pw.availableOutputs R node w else []

/-- Those that count in `GetUnconfirmedBalance`. -/
def unconfirmedOutputs (w : CWalletTx) : List (COutPoint × Int) :=
  if pw.isUnconfirmed R node w = some true then pw.availableOutputs R node w else []

/-- Those that count in `GetImmatureBalance`, spent or not. -/
def immatureOutputs (w : CWalletTx) : List (COutPoint × Int) :=
  if (w.tx.isCoinBase || w.tx.isCoinStake) && decide (0 < w.blocksToMaturity R node) &&
      w.isInMainChain R node then
    pw.spendableOutputs R w.tx
  else []

/-- All outputs that count, over the whole wallet. -/
def counted (outs : CWalletTx → List (COutPoint × Int)) : List (COutPoint × Int) :=
  pw.mapWallet.entries.flatMap fun x => outs x.2

/-- How often an output counts in the three balances together. -/
def timesCounted (outpoint : COutPoint) : Nat :=
  ((pw.counted fun w => pw.balanceOutputs R node w ++ pw.unconfirmedOutputs R node w ++
    pw.immatureOutputs R node w).map Prod.fst).count outpoint

end CWallet

/-- The sums a transaction remembers are those it would form. -/
structure CWalletTx.Fresh (w : CWalletTx) : Prop where
  debit : ∀ n, w.nDebitCached = some n → pw.txDebit R ISMINE_SPENDABLE w.tx = some n
  watchDebit : ∀ n, w.nWatchDebitCached = some n → pw.txDebit R ISMINE_WATCH_ONLY w.tx = some n
  credit : ∀ n, w.nCreditCached = some n → pw.txCredit R ISMINE_SPENDABLE w.tx = some n
  watchCredit : ∀ n, w.nWatchCreditCached = some n → pw.txCredit R ISMINE_WATCH_ONLY w.tx = some n
  immatureCredit : ∀ n, w.nImmatureCreditCached = some n →
    pw.txCredit R ISMINE_SPENDABLE w.tx = some n
  availableCredit : ∀ n, w.nAvailableCreditCached = some n →
    pw.unspentCredit R node ISMINE_SPENDABLE w.tx = some n

namespace CWallet

def Fresh : Prop := ∀ hash w, pw.mapWallet.lookup hash = some w → w.Fresh R node pw

/-- Transactions are found under their ids. -/
def Keyed : Prop := ∀ hash w, pw.mapWallet.lookup hash = some w → w.tx.hash = hash

end CWallet

variable {R node pw} {nBalance nUnconfirmed nImmature n : Int} {hash : Uint256} {w : CWalletTx}

namespace CWallet

theorem mem_entries {x : Sigma fun _ : Uint256 => CWalletTx} :
    x ∈ pw.mapWallet.entries ↔ pw.mapWallet.lookup x.1 = some x.2 :=
  AList.mem_lookup_iff.symm

/-! ## The sums, output by output -/

variable {tx : CTransaction} {x : CTxOut × Nat} {outs : List (CTxOut × Nat)}

theorem spendableOf_cons_of_pos (h : pw.isMine R x.1 &&& ISMINE_SPENDABLE ≠ 0) :
    pw.spendableOf R tx (x :: outs) = (⟨tx.hash, x.2⟩, x.1.nValue) :: pw.spendableOf R tx outs := by
  rw [spendableOf, List.filter_cons_of_pos (by simpa using h)]
  rfl

theorem spendableOf_cons_of_neg (h : pw.isMine R x.1 &&& ISMINE_SPENDABLE = 0) :
    pw.spendableOf R tx (x :: outs) = pw.spendableOf R tx outs := by
  rw [spendableOf, List.filter_cons_of_neg (by simpa using h)]
  rfl

theorem spendableOf_sum {tx : CTransaction} {outs : List (CTxOut × Nat)}
    (h : ∀ x ∈ outs, (pw.outCredit R ISMINE_SPENDABLE x.1).isSome) :
    (outs.map fun x => (pw.outCredit R ISMINE_SPENDABLE x.1).getD 0).sum =
        ((pw.spendableOf R tx outs).map Prod.snd).sum ∧
      ∀ o ∈ pw.spendableOf R tx outs, 0 ≤ o.2 := by
  induction outs with
  | nil => simp [spendableOf]
  | cons x outs ih =>
    obtain ⟨hx, hrest⟩ := List.forall_mem_cons.mp h
    obtain ⟨hsum, hnonneg⟩ := ih hrest
    have hrange : R.params.moneyRange x.1.nValue = true := by
      by_contra hout
      rw [outCredit, if_neg hout] at hx
      cases hx
    rw [List.map_cons, List.sum_cons, hsum, outCredit, if_pos hrange, Option.getD_some]
    by_cases hmine : pw.isMine R x.1 &&& ISMINE_SPENDABLE ≠ 0
    · rw [if_pos hmine, spendableOf_cons_of_pos hmine]
      refine ⟨rfl, List.forall_mem_cons.mpr ⟨?_, hnonneg⟩⟩
      exact (CChainParams.moneyRange_iff.mp hrange).1
    · rw [if_neg hmine, spendableOf_cons_of_neg (not_not.mp hmine), zero_add]
      exact ⟨rfl, hnonneg⟩

theorem unspentCredit_eq_some (h : pw.unspentCredit R node ISMINE_SPENDABLE tx = some n) :
    n = ((pw.unspentOutputs R node tx).map Prod.snd).sum ∧
      ∀ o ∈ pw.unspentOutputs R node tx, 0 ≤ o.2 := by
  obtain ⟨hsum, hsome⟩ := addUp_eq_some h
  have hspend := @spendableOf_sum K R pw tx _ fun x hx => hsome _ (List.mem_map_of_mem hx)
  rw [List.map_map] at hsum
  exact ⟨hsum.trans hspend.1, hspend.2⟩

theorem txCredit_eq_some (h : pw.txCredit R ISMINE_SPENDABLE tx = some n) :
    n = ((pw.spendableOutputs R tx).map Prod.snd).sum := by
  obtain ⟨hsum, hsome⟩ := addUp_eq_some h
  have hzip : tx.vout.map (pw.outCredit R ISMINE_SPENDABLE) =
      tx.vout.zipIdx.map fun x => pw.outCredit R ISMINE_SPENDABLE x.1 := by
    conv_lhs => rw [← List.zipIdx_map_fst 0 tx.vout, List.map_map]
    rfl
  rw [hzip] at hsum hsome
  have hspend := @spendableOf_sum K R pw tx _ fun x hx => hsome _ (List.mem_map_of_mem hx)
  rw [List.map_map] at hsum
  exact hsum.trans hspend.1

theorem getAvailableCredit_eq_some (hfresh : w.Fresh R node pw)
    (h : w.getAvailableCredit R node pw true = some n) :
    n = ((pw.availableOutputs R node w).map Prod.snd).sum ∧
      ∀ o ∈ pw.availableOutputs R node w, 0 ≤ o.2 := by
  rw [CWalletTx.getAvailableCredit] at h
  rw [availableOutputs]
  split at h
  · obtain rfl := Option.some.inj h
    rw [if_pos ‹_›]
    simp
  · rw [if_neg ‹_›]
    refine unspentCredit_eq_some ?_
    cases hcached : w.nAvailableCreditCached with
    | some m =>
      have hm : m = n := by
        simpa [remembered, hcached] using h
      rw [← hm]
      exact hfresh.availableCredit m hcached
    | none => simpa [remembered, hcached] using h

theorem getImmatureCredit_eq_some (hfresh : w.Fresh R node pw)
    (h : w.getImmatureCredit R node pw true = some n) :
    n = ((pw.immatureOutputs R node w).map Prod.snd).sum := by
  rw [CWalletTx.getImmatureCredit] at h
  rw [immatureOutputs]
  split at h
  · rw [if_pos ‹_›]
    refine txCredit_eq_some ?_
    cases hcached : w.nImmatureCreditCached with
    | some m =>
      have hm : m = n := by
        simpa [remembered, hcached] using h
      rw [← hm]
      exact hfresh.immatureCredit m hcached
    | none => simpa [remembered, hcached] using h
  · obtain rfl := Option.some.inj h
    rw [if_neg ‹_›]
    rfl

/-- **A loop over the wallet** adds up what its getter gives where the test is passed. -/
theorem balance_eq_some {test : CWalletTx → Option Bool} {get : CWalletTx → Option Int}
    {outs : CWalletTx → List (COutPoint × Int)}
    (houts : ∀ hash w m, pw.mapWallet.lookup hash = some w → get w = some m →
      m = ((outs w).map Prod.snd).sum)
    (h : pw.balance test get = some n) :
    n = ((pw.counted fun w => if test w = some true then outs w else []).map Prod.snd).sum ∧
      ∀ x ∈ pw.mapWallet.entries, (test x.2).isSome ∧
        (test x.2 = some true → (get x.2).isSome) := by
  have hgen : ∀ (l : List (Sigma fun _ : Uint256 => CWalletTx)) (m : Int),
      (∀ x ∈ l, x ∈ pw.mapWallet.entries) → l.foldlM (fun nTotal x => do
        if ← test x.2 then return nTotal + (← get x.2) else return nTotal) m = some n →
      n = m + ((l.flatMap fun x => if test x.2 = some true then outs x.2 else []).map
        Prod.snd).sum ∧
        ∀ x ∈ l, (test x.2).isSome ∧ (test x.2 = some true → (get x.2).isSome) := by
    intro l
    induction l with
    | nil =>
      intro m _ hm
      obtain rfl := Option.some.inj hm
      simp
    | cons x l ih =>
      intro m hmem hm
      obtain ⟨hx, hl⟩ := List.forall_mem_cons.mp hmem
      rw [List.foldlM_cons] at hm
      obtain ⟨m', hm', hrest⟩ := Option.bind_eq_some_iff.mp hm
      obtain ⟨b, hb, hm'⟩ := Option.bind_eq_some_iff.mp hm'
      obtain ⟨heq, hall⟩ := ih m' hl hrest
      rw [List.flatMap_cons, List.map_append, List.sum_append, List.forall_mem_cons, hb, heq]
      cases b with
      | true =>
        obtain ⟨k, hk, hm'⟩ := Option.bind_eq_some_iff.mp hm'
        obtain rfl := Option.some.inj hm'
        have hsum := houts _ _ _ (mem_entries.mp hx) hk
        rw [if_pos rfl, ← hsum, hk]
        exact ⟨add_assoc _ _ _, ⟨rfl, fun _ => rfl⟩, hall⟩
      | false =>
        obtain rfl := Option.some.inj hm'
        refine ⟨?_, ⟨rfl, fun hne => by cases hne⟩, hall⟩
        simp
  have hsum := hgen _ 0 (fun x hx => hx) h
  rwa [zero_add] at hsum

/-! ## Counting -/

theorem spendableOf_mem {o : COutPoint × Int} (h : o ∈ pw.spendableOf R tx outs) :
    o.1.hash = tx.hash := by
  obtain ⟨x, -, rfl⟩ := List.mem_map.mp h
  rfl

theorem spendableOf_nodup (h : outs.Sublist tx.vout.zipIdx) :
    ((pw.spendableOf R tx outs).map Prod.fst).Nodup := by
  have hidx : (outs.map Prod.snd).Nodup := by
    refine (h.map Prod.snd).nodup ?_
    rw [List.zipIdx_map_snd]
    exact List.nodup_range'
  rw [spendableOf, List.map_map]
  refine List.Nodup.map_on ?_ ((List.filter_sublist).nodup (List.Nodup.of_map _ hidx))
  intro x hx y hy hxy
  have hn : x.2 = y.2 := (COutPoint.mk.inj hxy).2
  exact List.inj_on_of_nodup_map hidx (List.mem_of_mem_filter hx) (List.mem_of_mem_filter hy) hn

/-- **An output counts only where its transaction is.** -/
theorem count_counted (hkeyed : pw.Keyed) (hw : pw.mapWallet.lookup hash = some w)
    {outs : CWalletTx → List (COutPoint × Int)} (houts : ∀ w, ∀ o ∈ outs w, o.1.hash = w.tx.hash)
    (i : Nat) :
    ((pw.counted outs).map Prod.fst).count ⟨hash, i⟩ = ((outs w).map Prod.fst).count ⟨hash, i⟩ := by
  have htotal : ((pw.counted outs).map Prod.fst).count ⟨hash, i⟩ =
      Table.total (fun w => ((outs w).map Prod.fst).count ⟨hash, i⟩) pw.mapWallet := by
    rw [counted, List.map_flatMap, List.count_flatMap]
    rfl
  have hothers : Table.total (fun w => ((outs w).map Prod.fst).count ⟨hash, i⟩)
      (pw.mapWallet.erase hash) = 0 := by
    refine Table.total_eq_zero.mpr fun k v hk => ?_
    obtain ⟨hv, hne⟩ := Table.erase_eq_some.mp hk
    refine List.count_eq_zero.mpr fun hmem => ?_
    obtain ⟨o, ho, hfst⟩ := List.mem_map.mp hmem
    have hhash := houts v o ho
    rw [hfst, hkeyed k v hv] at hhash
    exact hne hhash.symm
  rw [htotal, Table.total_erase _ hw, hothers, add_zero]

theorem counted_sum (outs : CWalletTx → List (COutPoint × Int)) :
    ((pw.counted outs).map Prod.snd).sum =
      (pw.mapWallet.entries.map fun x => ((outs x.2).map Prod.snd).sum).sum := by
  rw [counted]
  induction pw.mapWallet.entries with
  | nil => rfl
  | cons x l ih =>
    rw [List.flatMap_cons, List.map_append, List.sum_append, ih, List.map_cons, List.sum_cons]

end CWallet

end BitBlocks
