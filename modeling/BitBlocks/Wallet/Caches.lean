import BitBlocks.Wallet.Events
import BitBlocks.Wallet.Partition

/-!
# What remembered sums depend on

A credit depends on the keys, a debit also on which of the spent transactions the wallet has,
and the available credit on the transactions that spend the outputs: on those of them that
are alive, in the chain or in the memory pool. A wallet that follows another has its
transactions, with nothing remembered that was not, and some more. What it remembers is still
right if no debit gains an output of the wallet's, and every transaction that comes alive or
ceases to be has made the wallet forget the available credit of those it spends from.
-/

namespace BitBlocks

variable {K : Type} (R : WalletRules K) (node : NodeView) (pw : CWallet K)

/-! ## Definitions -/

namespace CWalletTx

/-- Nothing but the remembered sums is left out. -/
def place (w : CWalletTx) : CTransaction × Uint256 × List Uint256 × Int × Bool :=
  (w.tx, w.hashBlock, w.vMerkleBranch, w.nIndex, w.fMerkleVerified)

/-- `w'` is about the same transaction, and remembers nothing that `w` does not. -/
structure Keeps (w w' : CWalletTx) : Prop where
  tx : w'.tx = w.tx
  debit : ∀ n, w'.nDebitCached = some n → w.nDebitCached = some n
  watchDebit : ∀ n, w'.nWatchDebitCached = some n → w.nWatchDebitCached = some n
  credit : ∀ n, w'.nCreditCached = some n → w.nCreditCached = some n
  watchCredit : ∀ n, w'.nWatchCreditCached = some n → w.nWatchCreditCached = some n
  immatureCredit : ∀ n, w'.nImmatureCreditCached = some n → w.nImmatureCreditCached = some n
  availableCredit : ∀ n, w'.nAvailableCreditCached = some n → w.nAvailableCreditCached = some n

def Blank (w : CWalletTx) : Prop := Keeps { tx := w.tx } w

end CWalletTx

namespace CWallet

/-- A transaction of the wallet that is in the chain or in the memory pool. -/
def alive (hash : Uint256) : Bool :=
  match pw.mapWallet.lookup hash with
  | some w => decide (0 ≤ w.depth R node true)
  | none => false

/-- No available credit is remembered of the transactions that `tx` spends from. -/
def ParentsForgotten (tx : CTransaction) : Prop :=
  ∀ o ∈ tx.prevouts, ∀ p, pw.mapWallet.lookup o.hash = some p → p.nAvailableCreditCached = none

/-- No debit is remembered that would be larger if `tx` was in the wallet. -/
def Heirless (tx : CTransaction) : Prop :=
  ∀ hash c, pw.mapWallet.lookup hash = some c → ∀ txin ∈ c.tx.vin, txin.prevout.hash = tx.hash →
    ∀ txout, tx.vout[txin.prevout.n]? = some txout →
      (c.nDebitCached.isSome → pw.isMine R txout &&& ISMINE_SPENDABLE = 0) ∧
        (c.nWatchDebitCached.isSome → pw.isMine R txout &&& ISMINE_WATCH_ONLY = 0)

variable (G : Uint256 → CTransaction)

/-- Transactions are found under their ids, and what they spend is written down. -/
structure Sound : Prop where
  named : ∀ hash w, pw.mapWallet.lookup hash = some w → w.tx = G hash ∧ (G hash).hash = hash
  spends : ∀ x ∈ pw.mapTxSpends, (pw.mapWallet.lookup x.2).isSome ∧
    (G x.2).isCoinBase = false ∧ x.1 ∈ (G x.2).prevouts
  complete : ∀ hash, (pw.mapWallet.lookup hash).isSome → (G hash).isCoinBase = false →
    ∀ o ∈ (G hash).prevouts, (o, hash) ∈ pw.mapTxSpends

/-- `pw'` has the transactions of `pw`, those with an id in `told` perhaps elsewhere or new. -/
structure Follows (pw' : CWallet K) (told : List Uint256) : Prop where
  keys : pw'.keys = pw.keys
  old : ∀ hash w, pw.mapWallet.lookup hash = some w → ∃ w', pw'.mapWallet.lookup hash = some w' ∧
    w.Keeps w' ∧ (hash ∉ told → w'.place = w.place)
  new : ∀ hash w', pw'.mapWallet.lookup hash = some w' → pw.mapWallet.lookup hash = none →
    hash ∈ told ∧ w'.tx = G hash ∧ (G hash).hash = hash ∧ w'.Blank
  spends : ∀ x, x ∈ pw'.mapTxSpends ↔ x ∈ pw.mapTxSpends ∨
    (pw.mapWallet.lookup x.2 = none ∧ (pw'.mapWallet.lookup x.2).isSome ∧
      (G x.2).isCoinBase = false ∧ x.1 ∈ (G x.2).prevouts)

end CWallet

variable {R node pw} {node' : NodeView} {pw' pw'' : CWallet K} {G : Uint256 → CTransaction}
  {told told' : List Uint256} {hash : Uint256} {w w' w'' : CWalletTx} {tx : CTransaction}
  {filter : Nat}

/-! ## Places -/

namespace CWalletTx

theorem depthInternal_congr (h : w'.place = w.place) :
    w'.depthInternal R node = w.depthInternal R node := by
  obtain ⟨htx, hblock, hbranch, hindex, hverified⟩ :
      w'.tx = w.tx ∧ w'.hashBlock = w.hashBlock ∧ w'.vMerkleBranch = w.vMerkleBranch ∧
        w'.nIndex = w.nIndex ∧ w'.fMerkleVerified = w.fMerkleVerified := by
    simpa [place] using h
  rw [depthInternal, depthInternal, htx, hblock, hbranch, hindex, hverified]

theorem depth_congr (htx : w'.tx = w.tx)
    (h : w'.depthInternal R node = w.depthInternal R node) (enableIX : Bool) :
    w'.depth R node enableIX = w.depth R node enableIX := by
  rw [depth, depth, h, inMempool, inMempool, htx]

theorem place_tx (h : w'.place = w.place) : w'.tx = w.tx := congrArg Prod.fst h

theorem verified_depth : (w.verified R node).depthInternal R node = w.depthInternal R node := by
  rw [verified]
  split
  · rename_i hpos
    rw [depthInternal] at hpos ⊢
    split at hpos
    · omega
    · rw [if_neg ‹_›]
      dsimp only
      rw [depthInternal, if_neg ‹_›]
      split at hpos
      · rfl
      · split at hpos
        · rw [Bool.true_or, if_pos rfl, if_pos ‹_›]
        · omega
  · rfl

theorem Keeps.refl (w : CWalletTx) : w.Keeps w :=
  ⟨rfl, fun _ h => h, fun _ h => h, fun _ h => h, fun _ h => h, fun _ h => h, fun _ h => h⟩

theorem Keeps.trans (h : w.Keeps w') (h' : w'.Keeps w'') : w.Keeps w'' :=
  ⟨h'.tx.trans h.tx, fun n hn => h.debit n (h'.debit n hn),
    fun n hn => h.watchDebit n (h'.watchDebit n hn), fun n hn => h.credit n (h'.credit n hn),
    fun n hn => h.watchCredit n (h'.watchCredit n hn),
    fun n hn => h.immatureCredit n (h'.immatureCredit n hn),
    fun n hn => h.availableCredit n (h'.availableCredit n hn)⟩

theorem Blank.keeps (h : w.Blank) (hk : w.Keeps w') : w'.Blank := by
  have htx := hk.tx
  rw [Blank, htx]
  exact Keeps.trans h hk

theorem Blank.keeps_of_tx (h : w'.Blank) (htx : w'.tx = w.tx) : w.Keeps w' := by
  refine ⟨htx, ?_, ?_, ?_, ?_, ?_, ?_⟩ <;> intro n hn
  · cases h.debit n hn
  · cases h.watchDebit n hn
  · cases h.credit n hn
  · cases h.watchCredit n hn
  · cases h.immatureCredit n hn
  · cases h.availableCredit n hn

theorem Blank.fresh (h : w.Blank) : w.Fresh R node pw := by
  constructor <;> intro n hn
  · cases h.debit n hn
  · cases h.watchDebit n hn
  · cases h.credit n hn
  · cases h.watchCredit n hn
  · cases h.immatureCredit n hn
  · cases h.availableCredit n hn

end CWalletTx

/-! ## Sums -/

namespace CWallet

theorem isSpent_eq (o : COutPoint) :
    pw.isSpent R node o = pw.mapTxSpends.any fun x => x.1 == o && pw.alive R node x.2 := rfl

theorem isMine_congr (h : pw'.keys = pw.keys) : pw'.isMine R = pw.isMine R := by
  funext txout
  rw [isMine, isMine, h]

theorem txCredit_congr (h : ∀ txout ∈ tx.vout,
    pw'.isMine R txout &&& filter ≠ 0 ↔ pw.isMine R txout &&& filter ≠ 0) :
    pw'.txCredit R filter tx = pw.txCredit R filter tx := by
  rw [txCredit, txCredit]
  refine congrArg _ (List.map_congr_left fun txout hout => ?_)
  rw [outCredit, outCredit, if_congr (h txout hout) rfl rfl]

theorem txDebit_congr (h : ∀ txin ∈ tx.vin, pw'.inDebit R filter txin = pw.inDebit R filter txin) :
    pw'.txDebit R filter tx = pw.txDebit R filter tx := by
  rw [txDebit, txDebit]
  exact congrArg _ (List.map_congr_left fun txin hin => congrArg some (h txin hin))

theorem unspentCredit_congr (hkeys : pw'.keys = pw.keys)
    (h : ∀ i, pw'.isSpent R node' ⟨tx.hash, i⟩ = pw.isSpent R node ⟨tx.hash, i⟩) :
    pw'.unspentCredit R node' filter tx = pw.unspentCredit R node filter tx := by
  have hcredit : pw'.outCredit R filter = pw.outCredit R filter := by
    funext txout
    rw [outCredit, outCredit, isMine_congr hkeys]
  rw [unspentCredit, unspentCredit, hcredit]
  refine congrArg _ (congrArg _ (List.filter_congr fun x _ => ?_))
  rw [h]

theorem inDebit_congr {txin : CTxIn} (hkeys : pw'.keys = pw.keys)
    (h : pw'.prevOut txin = pw.prevOut txin) :
    pw'.inDebit R filter txin = pw.inDebit R filter txin := by
  rw [inDebit, inDebit, h, isMine_congr hkeys]

/-! ## Wallets that follow each other -/

namespace Follows

theorem refl (pw : CWallet K) : pw.Follows G pw [] where
  keys := rfl
  old _ w hw := ⟨w, hw, .refl w, fun _ => rfl⟩
  new hash w' hw' hnone := by
    rw [hnone] at hw'
    cases hw'
  spends x := by
    constructor
    · intro hx
      exact Or.inl hx
    · intro hx
      rcases hx with hx | ⟨hnone, hsome, -⟩
      · exact hx
      · rw [hnone] at hsome
        cases hsome

variable (h : pw.Follows G pw' told)
include h

theorem isSome (hw : (pw.mapWallet.lookup hash).isSome) : (pw'.mapWallet.lookup hash).isSome := by
  obtain ⟨w, hw⟩ := Option.isSome_iff_exists.mp hw
  obtain ⟨w', hw', -⟩ := h.old hash w hw
  rw [hw']
  rfl

theorem trans (h' : pw'.Follows G pw'' told') : pw.Follows G pw'' (told ++ told') where
  keys := h'.keys.trans h.keys
  old hash w hw := by
    obtain ⟨w', hw', hkeeps, hplace⟩ := h.old hash w hw
    obtain ⟨w'', hw'', hkeeps', hplace'⟩ := h'.old hash w' hw'
    refine ⟨w'', hw'', hkeeps.trans hkeeps', fun hnot => ?_⟩
    rw [List.mem_append, not_or] at hnot
    exact (hplace' hnot.2).trans (hplace hnot.1)
  new hash w'' hw'' hnone := by
    cases hw' : pw'.mapWallet.lookup hash with
    | none =>
      obtain ⟨hmem, htx, hhash, hblank⟩ := h'.new hash w'' hw'' hw'
      exact ⟨List.mem_append_right _ hmem, htx, hhash, hblank⟩
    | some w' =>
      obtain ⟨hmem, htx, hhash, hblank⟩ := h.new hash w' hw' hnone
      obtain ⟨w2, hw2, hkeeps, -⟩ := h'.old hash w' hw'
      obtain rfl := Option.some.inj (hw2.symm.trans hw'')
      exact ⟨List.mem_append_left _ hmem, hkeeps.tx.trans htx, hhash, hblank.keeps hkeeps⟩
  spends x := by
    rw [h'.spends, h.spends]
    constructor
    · intro hx
      rcases hx with (hx | ⟨hnone, hsome, hbase, hprev⟩) | ⟨hnone, hsome, hbase, hprev⟩
      · exact Or.inl hx
      · exact Or.inr ⟨hnone, h'.isSome hsome, hbase, hprev⟩
      · refine Or.inr ⟨?_, hsome, hbase, hprev⟩
        by_contra hne
        have hin := h.isSome (Option.isSome_iff_ne_none.mpr hne)
        rw [hnone] at hin
        cases hin
    · intro hx
      rcases hx with hx | ⟨hnone, hsome, hbase, hprev⟩
      · exact Or.inl (Or.inl hx)
      · cases hw' : pw'.mapWallet.lookup x.2 with
        | none => exact Or.inr ⟨rfl, hsome, hbase, hprev⟩
        | some w' => exact Or.inl (Or.inr ⟨hnone, rfl, hbase, hprev⟩)

theorem sound (hs : pw.Sound G) : pw'.Sound G where
  named hash w' hw' := by
    cases hw : pw.mapWallet.lookup hash with
    | none =>
      obtain ⟨-, htx, hhash, -⟩ := h.new hash w' hw' hw
      exact ⟨htx, hhash⟩
    | some w =>
      obtain ⟨w1, hw1, hkeeps, -⟩ := h.old hash w hw
      obtain rfl := Option.some.inj (hw1.symm.trans hw')
      exact ⟨hkeeps.tx.trans (hs.named hash w hw).1, (hs.named hash w hw).2⟩
  spends x hx := by
    rcases (h.spends x).mp hx with hx | ⟨-, hsome, hbase, hprev⟩
    · obtain ⟨hsome, hbase, hprev⟩ := hs.spends x hx
      exact ⟨h.isSome hsome, hbase, hprev⟩
    · exact ⟨hsome, hbase, hprev⟩
  complete hash hsome hbase o ho := by
    refine (h.spends (o, hash)).mpr ?_
    cases hw : pw.mapWallet.lookup hash with
    | none => exact Or.inr ⟨rfl, hsome, hbase, ho⟩
    | some w => exact Or.inl (hs.complete hash (by rw [hw]; rfl) hbase o ho)

/-- **Spent outputs stay spent**, and others unspent, as long as their transaction remembers. -/
theorem isSpent (hs : pw.Sound G) (hquiet : ∀ hash, pw'.alive R node' hash = pw.alive R node hash ∨
      pw'.ParentsForgotten (G hash))
    (hw' : pw'.mapWallet.lookup hash = some w') (hcached : w'.nAvailableCreditCached.isSome)
    (i : Nat) : pw'.isSpent R node' ⟨hash, i⟩ = pw.isSpent R node ⟨hash, i⟩ := by
  -- who spends the output is as alive as before
  have halive : ∀ x ∈ pw'.mapTxSpends, x.1 = ⟨hash, i⟩ →
      pw'.alive R node' x.2 = pw.alive R node x.2 := by
    intro x hx hout
    rcases hquiet x.2 with heq | hforgot
    · exact heq
    · have hprev := ((h.sound hs).spends x hx).2.2
      have hnone := hforgot x.1 hprev w' (by rw [hout]; exact hw')
      rw [hnone] at hcached
      cases hcached
  rw [isSpent_eq, isSpent_eq, Bool.eq_iff_iff, List.any_eq_true, List.any_eq_true]
  constructor
  · intro ⟨x, hx, hxo⟩
    obtain ⟨hout, hlive⟩ := Bool.and_eq_true_iff.mp hxo
    have hout := beq_iff_eq.mp hout
    rw [halive x hx hout] at hlive
    refine ⟨x, ?_, Bool.and_eq_true_iff.mpr ⟨beq_iff_eq.mpr hout, hlive⟩⟩
    rcases (h.spends x).mp hx with hx | ⟨hnone, -⟩
    · exact hx
    · rw [alive, hnone] at hlive
      cases hlive
  · intro ⟨x, hx, hxo⟩
    obtain ⟨hout, hlive⟩ := Bool.and_eq_true_iff.mp hxo
    have hout := beq_iff_eq.mp hout
    have hx' := (h.spends x).mpr (Or.inl hx)
    rw [← halive x hx' hout] at hlive
    exact ⟨x, hx', Bool.and_eq_true_iff.mpr ⟨beq_iff_eq.mpr hout, hlive⟩⟩

/-- **A debit that is remembered gains nothing** from the transactions that are new. -/
theorem txDebit (hheir : ∀ hash', pw.mapWallet.lookup hash' = none →
      (pw'.mapWallet.lookup hash').isSome → ∀ txin ∈ tx.vin, txin.prevout.hash = hash' → ∀ txout,
        (G hash').vout[txin.prevout.n]? = some txout → pw.isMine R txout &&& filter = 0) :
    pw'.txDebit R filter tx = pw.txDebit R filter tx := by
  refine txDebit_congr fun txin hin => ?_
  cases hp : pw.mapWallet.lookup txin.prevout.hash with
  | some p =>
    obtain ⟨p', hp', hkeeps, -⟩ := h.old _ p hp
    refine inDebit_congr h.keys ?_
    rw [prevOut, prevOut, hp, hp', Option.bind_some, Option.bind_some, hkeeps.tx]
  | none =>
    cases hp' : pw'.mapWallet.lookup txin.prevout.hash with
    | none =>
      refine inDebit_congr h.keys ?_
      rw [prevOut, prevOut, hp, hp']
    | some p' =>
      obtain ⟨-, htx, -⟩ := h.new _ p' hp' hp
      have hbefore : pw.inDebit R filter txin = 0 := by
        rw [inDebit, prevOut, hp]
        rfl
      rw [hbefore, inDebit, prevOut, hp', Option.bind_some, htx]
      cases hout : (G txin.prevout.hash).vout[txin.prevout.n]? with
      | none => rfl
      | some txout =>
        have hmine := hheir _ hp (by rw [hp']; rfl) txin hin rfl txout hout
        dsimp only
        rw [isMine_congr h.keys, if_neg fun hne => hne hmine]

/--
**What follows a wallet is as right as it**, if no new transaction adds to a debit that is
remembered, and every transaction stays as alive as it was or its parents have forgotten.
-/
theorem fresh (hs : pw.Sound G) (hfresh : pw.Fresh R node)
    (hheir : ∀ hash ∈ told, pw.mapWallet.lookup hash = none → pw.Heirless R (G hash))
    (hquiet : ∀ hash, pw'.alive R node' hash = pw.alive R node hash ∨
      pw'.ParentsForgotten (G hash)) :
    pw'.Fresh R node' := by
  intro hash w' hw'
  have hspent : w'.nAvailableCreditCached.isSome →
      ∀ i, pw'.isSpent R node' ⟨hash, i⟩ = pw.isSpent R node ⟨hash, i⟩ :=
    h.isSpent hs hquiet hw'
  cases hw : pw.mapWallet.lookup hash with
  | none =>
    -- new: nothing is remembered
    obtain ⟨-, -, -, hblank⟩ := h.new hash w' hw' hw
    exact hblank.fresh
  | some w =>
    obtain ⟨w1, hw1, hkeeps, -⟩ := h.old hash w hw
    obtain rfl := Option.some.inj (hw1.symm.trans hw')
    have hold := hfresh hash w hw
    have hcredit : ∀ filter, pw'.txCredit R filter w1.tx = pw.txCredit R filter w.tx := by
      intro filter
      rw [hkeeps.tx]
      exact txCredit_congr fun txout _ => by rw [isMine_congr h.keys]
    have hnew : ∀ hash', pw.mapWallet.lookup hash' = none →
        (pw'.mapWallet.lookup hash').isSome → hash' ∈ told ∧ (G hash').hash = hash' := by
      intro hash' hnone hsome
      obtain ⟨v, hv⟩ := Option.isSome_iff_exists.mp hsome
      obtain ⟨hmem, -, hhash, -⟩ := h.new hash' v hv hnone
      exact ⟨hmem, hhash⟩
    refine ⟨fun n hn => ?_, fun n hn => ?_, fun n hn => ?_, fun n hn => ?_, fun n hn => ?_,
      fun n hn => ?_⟩
    · have hn := hkeeps.debit n hn
      rw [hkeeps.tx, h.txDebit, hold.debit n hn]
      intro hash' hnone hsome txin hin hprev txout hout
      obtain ⟨hmem, hhash⟩ := hnew hash' hnone hsome
      exact (hheir hash' hmem hnone hash w hw txin hin (hprev.trans hhash.symm) txout hout).1
        (by rw [hn]; rfl)
    · have hn := hkeeps.watchDebit n hn
      rw [hkeeps.tx, h.txDebit, hold.watchDebit n hn]
      intro hash' hnone hsome txin hin hprev txout hout
      obtain ⟨hmem, hhash⟩ := hnew hash' hnone hsome
      exact (hheir hash' hmem hnone hash w hw txin hin (hprev.trans hhash.symm) txout hout).2
        (by rw [hn]; rfl)
    · rw [hcredit, hold.credit n (hkeeps.credit n hn)]
    · rw [hcredit, hold.watchCredit n (hkeeps.watchCredit n hn)]
    · rw [hcredit, hold.immatureCredit n (hkeeps.immatureCredit n hn)]
    · rw [← hold.availableCredit n (hkeeps.availableCredit n hn), hkeeps.tx]
      refine unspentCredit_congr h.keys fun i => ?_
      have hhash : w.tx.hash = hash := by
        rw [(hs.named hash w hw).1, (hs.named hash w hw).2]
      rw [hhash]
      exact hspent (by rw [hn]; rfl) i

end Follows

end CWallet

end BitBlocks
