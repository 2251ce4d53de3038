import BitBlocks.Wallet.Offered

/-!
# Which unconfirmed transactions are trusted

`IsTrusted` is to trust an unconfirmed transaction "if all inputs are from us and are in the
mempool". It looks one level up: the transaction has to be in the pool, and each of its inputs
has to spend an output of the wallet's. Whether the transactions with these outputs are
confirmed or sent by the wallet is not asked. So trust reaches all ancestors as long as no
parent on the way is turned down, and starts afresh behind a payment from someone else.
-/

namespace BitBlocks

open Relation

variable {K : Type} (R : WalletRules K) (node : NodeView) (pw : CWallet K)

namespace CWallet

/-- All inputs spend outputs that the wallet owns, with a transaction it has. -/
def SpendsOwn (w : CWalletTx) : Prop := ∀ txin ∈ w.tx.vin, ∃ txout, pw.prevOut txin = some txout ∧
    pw.isMine R txout = ISMINE_SPENDABLE

/-- The depth is that of `IsTrusted`: a lock by the masternodes stands for blocks. -/
def Unconfirmed (w : CWalletTx) : Prop := w.depth R node true < 1

/-- An output of `p`, which is not confirmed, is spent by `w`. What spends its own outputs only
has all its unconfirmed parents in the wallet. -/
def UnconfirmedParent (w p : CWalletTx) : Prop :=
  (∃ txin ∈ w.tx.vin, pw.mapWallet.lookup txin.prevout.hash = some p) ∧ Unconfirmed R node p

/-- What is trusted has its unconfirmed ancestors in the pool, and they spend own outputs only. -/
def Hereditary : Prop :=
  ∀ hash w, pw.mapWallet.lookup hash = some w → w.isTrusted R node pw = some true →
    Unconfirmed R node w → ∀ a, ReflTransGen (pw.UnconfirmedParent R node) w a →
      a.inMempool node = true ∧ pw.SpendsOwn R a

/-- No trusted transaction spends an output of an unconfirmed one that is not trusted. -/
def TrustsParents : Prop :=
  ∀ hash w, pw.mapWallet.lookup hash = some w → w.isTrusted R node pw = some true →
    Unconfirmed R node w → ∀ p, pw.UnconfirmedParent R node w p → p.isTrusted R node pw = some true

/-- What is in the pool and spends own outputs passes the rest of what `IsTrusted` asks, too: it is
final at the tip's height, and its debit is positive. -/
def OwnPassRest : Prop :=
  ∀ hash p, pw.mapWallet.lookup hash = some p → p.inMempool node = true → pw.SpendsOwn R p →
    node.isFinal p.tx 0 = true ∧ p.isFromMe R pw ISMINE_ALL = some true

/-- The transactions that count for `GetBalance`. -/
def trusted : List CWalletTx :=
  (pw.mapWallet.entries.map Sigma.snd).filter fun w => w.isTrusted R node pw = some true

variable {R node pw} {w a : CWalletTx}

/-- **What trust is about**, for a transaction that is not confirmed. -/
theorem trusted_unconfirmed (htrusted : w.isTrusted R node pw = some true)
    (h : Unconfirmed R node w) : w.inMempool node = true ∧ pw.SpendsOwn R w := by
  rw [Unconfirmed] at h
  rw [CWalletTx.isTrusted] at htrusted
  split at htrusted
  · cases htrusted
  rw [if_neg (Int.not_le.mpr h)] at htrusted
  split at htrusted
  · cases htrusted
  rename_i hdepth
  split at htrusted
  · cases htrusted
  obtain ⟨fFromMe, -, hall⟩ := Option.map_eq_some_iff.mp htrusted
  rw [Bool.and_eq_true, List.all_eq_true] at hall
  have hzero : w.depth R node true = 0 := by omega
  refine ⟨inMempool_of_depth hzero, fun txin hin => ?_⟩
  have hparent := hall.2 txin hin
  cases hout : pw.prevOut txin with
  | none =>
    rw [hout] at hparent
    cases hparent
  | some txout =>
    rw [hout] at hparent
    exact ⟨txout, rfl, beq_iff_eq.mp hparent⟩

theorem bSpendZeroConfChange_of_trusted (htrusted : w.isTrusted R node pw = some true)
    (h : Unconfirmed R node w) : R.bSpendZeroConfChange = true := by
  rw [Unconfirmed] at h
  rw [CWalletTx.isTrusted, if_neg (Int.not_le.mpr h)] at htrusted
  by_contra hzero
  simp [Bool.eq_false_iff.mpr hzero] at htrusted

theorem depth_nonneg_of_inMempool (h : a.inMempool node = true) : 0 ≤ a.depth R node true := by
  rw [CWalletTx.depth, h]
  rw [if_neg fun hc => absurd hc.2 (by simp)]
  split <;> omega

theorem trusted_of_spendsOwn (hzero : R.bSpendZeroConfChange = true) (h : Unconfirmed R node a)
    (hpool : a.inMempool node = true) (hown : pw.SpendsOwn R a)
    (hfinal : node.isFinal a.tx 0 = true) (hfromMe : a.isFromMe R pw ISMINE_ALL = some true) :
    a.isTrusted R node pw = some true := by
  rw [CWalletTx.isTrusted, hfinal, hzero, hfromMe, if_neg (Int.not_le.mpr h),
    if_neg (Int.not_lt.mpr (depth_nonneg_of_inMempool hpool))]
  refine congrArg some (List.all_eq_true.mpr fun txin hin => ?_)
  obtain ⟨txout, hout, hmine⟩ := hown txin hin
  rw [hout]
  exact beq_iff_eq.mpr hmine

/-- **Trust is handed down** if it never skips a parent. -/
theorem TrustsParents.ancestor (hparents : pw.TrustsParents R node) {hash : Uint256}
    (hw : pw.mapWallet.lookup hash = some w) (htrusted : w.isTrusted R node pw = some true)
    (h : Unconfirmed R node w) (ha : ReflTransGen (pw.UnconfirmedParent R node) w a) :
    (∃ hash, pw.mapWallet.lookup hash = some a) ∧ a.isTrusted R node pw = some true ∧
      Unconfirmed R node a := by
  induction ha with
  | refl => exact ⟨⟨hash, hw⟩, htrusted, h⟩
  | tail _ hstep ih =>
    obtain ⟨⟨hash', hb⟩, htrusted', h'⟩ := ih
    obtain ⟨txin, -, hp⟩ := hstep.1
    exact ⟨⟨_, hp⟩, hparents hash' _ hb htrusted' h' _ hstep, hstep.2⟩

theorem TrustsParents.hereditary (hparents : pw.TrustsParents R node) : pw.Hereditary R node := by
  intro hash w hw htrusted h a ha
  obtain ⟨-, htrusted', h'⟩ := hparents.ancestor hw htrusted h ha
  exact trusted_unconfirmed htrusted' h'

theorem Hereditary.trustsParents (hall : pw.Hereditary R node) (hrest : pw.OwnPassRest R node) :
    pw.TrustsParents R node := by
  intro hash w hw htrusted h p hp
  obtain ⟨hpool, hown⟩ := hall hash w hw htrusted h p (.single hp)
  obtain ⟨txin, -, hlookup⟩ := hp.1
  obtain ⟨hfinal, hfromMe⟩ := hrest _ p hlookup hpool hown
  exact trusted_of_spendsOwn (bSpendZeroConfChange_of_trusted htrusted h) hp.2 hpool hown hfinal
    hfromMe

theorem getBalance_eq_some {n : Int} (h : pw.getBalance R node = some n) :
    n = ((pw.trusted R node).map fun w => (w.getAvailableCredit R node pw true).getD 0).sum := by
  let credit (w : CWalletTx) : Int := (w.getAvailableCredit R node pw true).getD 0
  have houts (hash : Uint256) (w : CWalletTx) (m : Int) (_ : pw.mapWallet.lookup hash = some w)
      (hm : w.getAvailableCredit R node pw true = some m) :
      m = ([((⟨w.tx.hash, 0⟩ : COutPoint), credit w)].map Prod.snd).sum := by
    have hcredit : credit w = m := by
      rw [show credit w = (w.getAvailableCredit R node pw true).getD 0 from rfl, hm]
      rfl
    rw [List.map_singleton, List.sum_singleton, hcredit]
  rw [(balance_eq_some houts h).1, counted, trusted]
  generalize pw.mapWallet.entries = entries
  induction entries with
  | nil => rfl
  | cons x entries ih =>
    rw [List.flatMap_cons, List.map_append, List.sum_append, ih, List.map_cons]
    by_cases htrusted : x.2.isTrusted R node pw = some true
    · rw [if_pos htrusted, List.filter_cons_of_pos (by simpa using htrusted),
        List.map_singleton, List.sum_singleton, List.map_cons, List.sum_cons]
    · rw [if_neg htrusted, List.filter_cons_of_neg (by simpa using htrusted), List.map_nil,
        List.sum_nil, zero_add]

end CWallet

/--
**Trust is hereditary** if no trusted transaction spends an output of an unconfirmed one that
is not trusted, and only then where transactions are turned down for their inputs or because
they are not in the pool. What `GetBalance` adds up are the trusted transactions.
-/
theorem trust_hereditary_iff (R : WalletRules K) (node : NodeView) (pw : CWallet K) :
    (pw.TrustsParents R node → pw.Hereditary R node) ∧
    (pw.OwnPassRest R node → (pw.Hereditary R node ↔ pw.TrustsParents R node)) ∧
    ∀ n, pw.getBalance R node = some n →
      n = ((pw.trusted R node).map fun w => (w.getAvailableCredit R node pw true).getD 0).sum :=
  ⟨CWallet.TrustsParents.hereditary,
    fun hrest => ⟨fun hall => hall.trustsParents hrest, CWallet.TrustsParents.hereditary⟩,
    fun _ => CWallet.getBalance_eq_some⟩

namespace CWallet

/-! ## A payment from someone else, paid on -/

def foreignTx : CWalletTx where
  tx := { hash := 5, vin := [⟨⟨9, 0⟩, [], 0⟩], vout := [⟨100, [0x51], -10⟩] }

def paidOnTx : CWalletTx where
  tx := { hash := 6, vin := [⟨⟨5, 0⟩, [], 0⟩], vout := [⟨90, [0x51], -10⟩] }

def paidOnWallet : CWallet Unit where
  keys := ()
  mapWallet := (AList.singleton 6 paidOnTx).insert 5 foreignTx
  mapTxSpends := [(⟨9, 0⟩, 5), (⟨5, 0⟩, 6)]

def paidOnNode : NodeView := { chainActive := [⟨7, 5⟩], mempool := [5, 6] }

/-- **Trust does not reach a payment from someone else** that was paid on, and its value is in the
balance. -/
theorem trusts_what_is_paid_on : ¬ paidOnWallet.Hereditary plainRules paidOnNode ∧
    foreignTx.isTrusted plainRules paidOnNode paidOnWallet = some false ∧
    paidOnWallet.getBalance plainRules paidOnNode = some 90 := by
  refine ⟨fun hall => ?_, by decide, by decide⟩
  have hparent : paidOnWallet.UnconfirmedParent plainRules paidOnNode paidOnTx foreignTx :=
    ⟨⟨⟨⟨5, 0⟩, [], 0⟩, by decide, by decide⟩, by unfold Unconfirmed; decide⟩
  obtain ⟨-, hown⟩ := hall 6 paidOnTx (by decide) (by decide) (by unfold Unconfirmed; decide)
    foreignTx (.single hparent)
  obtain ⟨txout, hout, -⟩ := hown ⟨⟨9, 0⟩, [], 0⟩ (by decide)
  exact absurd hout (by
    rw [show paidOnWallet.prevOut ⟨⟨9, 0⟩, [], 0⟩ = none by decide]
    simp)

def paidAgainTx : CWalletTx where
  tx := { hash := 7, vin := [⟨⟨6, 0⟩, [], 0⟩], vout := [⟨80, [0x51], -10⟩] }

/-- The payment from someone else is in a block. -/
def settledWallet : CWallet Unit where
  keys := ()
  mapWallet := ((AList.singleton 7 paidAgainTx).insert 6 paidOnTx).insert 5
    { foreignTx with hashBlock := 7, nIndex := 0 }
  mapTxSpends := [(⟨9, 0⟩, 5), (⟨5, 0⟩, 6), (⟨6, 0⟩, 7)]

def settledNode : NodeView := { chainActive := [⟨7, 5⟩], mempool := [6, 7] }

/-- Trust goes from the last payment to the one before, and ends at the block. -/
theorem trust_hereditary_settled : settledWallet.Hereditary plainRules settledNode ∧
      settledWallet.getBalance plainRules settledNode = some 80 ∧
      (80 : Int) = ((settledWallet.trusted plainRules settledNode).map fun w =>
        (w.getAvailableCredit plainRules settledNode settledWallet true).getD 0).sum := by
  have htrusted : ∀ x ∈ settledWallet.mapWallet.entries,
      x.2.isTrusted plainRules settledNode settledWallet = some true := by decide
  have hbalance : settledWallet.getBalance plainRules settledNode = some 80 := by decide
  obtain ⟨hhereditary, -, hsum⟩ := trust_hereditary_iff plainRules settledNode settledWallet
  refine ⟨hhereditary fun _ _ _ _ _ p hp => ?_, hbalance, hsum 80 hbalance⟩
  obtain ⟨txin, -, hlookup⟩ := hp.1
  exact htrusted ⟨_, p⟩ (mem_entries.mpr hlookup)

end CWallet

end BitBlocks
