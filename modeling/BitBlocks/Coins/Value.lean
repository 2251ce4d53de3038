import BitBlocks.Lib.Totals
import BitBlocks.Coins.Undo
import BitBlocks.Lib.Ledger

/-!
# The value of a coin view

The total of all unspent outputs, and how the coin operations move it: a spend
takes out what its undo record says, a transaction's entry brings in its outputs
less those `FromTx` drops as unspendable. Summed over a block this is the equation
behind the money supply (`connectTxs_value`).
-/

namespace BitBlocks

open Trimmed CCoinsView FinSum

def valueOut (tx : CTransaction) : Int := (tx.vout.map CTxOut.nValue).sum

/-- The value of the outputs recorded as spent. -/
def valueSpent (txundo : List CTxInUndo) : Int := (txundo.map fun u => u.txout.nValue).sum

/-- The value of the outputs that never enter the coin database. -/
def valueDropped (tx : CTransaction) : Int :=
  ((tx.vout.filter fun o => o.scriptPubKey.isUnspendable).map CTxOut.nValue).sum

/-- The outputs of all transactions of a list. -/
def totalOut (vtx : List CTransaction) : Int := (vtx.map valueOut).sum

def totalSpent (vtxundo : List (List CTxInUndo)) : Int := (vtxundo.map valueSpent).sum

def totalDropped (vtx : List CTransaction) : Int := (vtx.map valueDropped).sum

@[simp] theorem totalOut_nil : totalOut [] = 0 := rfl
@[simp] theorem totalSpent_nil : totalSpent [] = 0 := rfl
@[simp] theorem totalDropped_nil : totalDropped [] = 0 := rfl

@[simp] theorem totalOut_cons (tx : CTransaction) (vtx : List CTransaction) :
    totalOut (tx :: vtx) = valueOut tx + totalOut vtx := by simp [totalOut]

@[simp] theorem totalSpent_cons (u : List CTxInUndo) (us : List (List CTxInUndo)) :
    totalSpent (u :: us) = valueSpent u + totalSpent us := by simp [totalSpent]

@[simp] theorem totalDropped_cons (tx : CTransaction) (vtx : List CTransaction) :
    totalDropped (tx :: vtx) = valueDropped tx + totalDropped vtx := by simp [totalDropped]

namespace CCoins

/-- The value of the outputs an entry still holds. -/
def value (c : CCoins) : Int := (c.vout.map fun o => if o.isNull then 0 else o.nValue).sum

theorem value_congr {a b : CCoins} (ha : a.WF) (hb : b.WF) (h : ∀ i, a.out i = b.out i) :
    a.value = b.value := by
  unfold value
  rw [Normal.ext ha hb rfl h]

theorem value_of_isPruned {c : CCoins} (h : c.isPruned = true) : c.value = 0 := by
  refine List.sum_eq_zero fun x hx => ?_
  obtain ⟨o, ho, rfl⟩ := List.mem_map.mp hx
  rw [if_pos (List.all_eq_true.mp h o ho)]

theorem value_cleanup (c : CCoins) : c.cleanup.value = c.value := by
  obtain ⟨a, s, vout, h, v⟩ := c
  simp only [value, cleanup]
  induction vout using List.reverseRecOn with
  | nil => rfl
  | append_singleton l o ih =>
    rw [trim, List.rdropWhile_concat]
    split
    · rename_i ho
      rw [trim] at ih
      rw [ih, List.map_append, List.sum_append]
      simp [ho]
    · rfl

theorem value_set_null {c : CCoins} {n : Nat} (hn : n < c.vout.length)
    (ho : (c.out n).isNull = false) :
    value { c with vout := c.vout.set n CTxOut.null } = c.value - (c.out n).nValue := by
  have hget : c.out n = c.vout[n] := List.getD_eq_getElem _ _ hn
  unfold value
  rw [List.map_set, List.sum_set']
  simp only [CTxOut.isNull_null, if_true, List.length_map, hn, dif_pos, List.getElem_map]
  rw [hget] at ho ⊢
  simp only [ho, Bool.false_eq_true, if_false]
  omega

/-- **A spend takes out what its undo record says.** -/
theorem Spent.value_eq {c c' : CCoins} {n : Nat} {u : CTxInUndo} (hc : c.WF) (h : Spent c n c' u) :
    c'.value = c.value - u.txout.nValue := by
  have hn : n < c.vout.length := by
    have := h.avail
    simp only [CCoins.isAvailable, Bool.and_eq_true, decide_eq_true_eq] at this
    exact this.1
  have hcan := canonical_set_null hc n
  have heq : c'.value = (cleanup { c with vout := c.vout.set n CTxOut.null }).value := by
    refine value_congr h.wf hcan.cleanup fun i => ?_
    rw [h.out, hcan.out_cleanup]
    exact (getD_set hn _ _).symm
  rw [heq, value_cleanup, value_set_null hn (isAvailable_iff.mp h.avail), h.txout]

/-- **`FromTx` brings in the outputs, less the unspendable ones.** -/
theorem value_fromTx {tx : CTransaction} (htx : tx.OutputsNonneg) (nHeight : Int) :
    (fromTx tx nHeight).value = valueOut tx - valueDropped tx := by
  unfold fromTx clearUnspendable
  rw [value_cleanup]
  unfold value nullUnspendable valueOut valueDropped
  simp only [List.map_map]
  have hall : ∀ vout : List CTxOut, (∀ o ∈ vout, 0 ≤ o.nValue) →
      (vout.map ((fun o : CTxOut => if o.isNull then 0 else o.nValue) ∘
          fun o => if o.scriptPubKey.isUnspendable then CTxOut.null else o)).sum
        = (vout.map CTxOut.nValue).sum
          - ((vout.filter fun o => o.scriptPubKey.isUnspendable).map CTxOut.nValue).sum := by
    intro vout hv
    induction vout with
    | nil => rfl
    | cons o vout ih =>
      have ho := CTxOut.isNull_of_nonneg (hv o (by simp))
      have := ih fun o' ho' => hv o' (by simp [ho'])
      cases hu : o.scriptPubKey.isUnspendable with
      | true => simp [hu, this]
      | false => simp [hu, ho, this]; omega
  exact hall tx.vout htx

end CCoins

namespace CCoinsView

/-- The value of every unspent output. -/
noncomputable def value (v : CCoinsView) : Int := finsum fun h => (v.get h).value

/-- Only finitely many entries hold any value. -/
def FiniteCoins (v : CCoinsView) : Prop := FinSum.Finite fun h => (v.get h).value

theorem finiteCoins_empty : FiniteCoins fun _ => none := by
  have h0 : (fun h : Uint256 => (CCoinsView.get (fun _ => none) h).value) = fun _ => 0 := rfl
  unfold FiniteCoins
  rw [h0]
  exact finite_zero

theorem value_empty : value (fun _ => none) = 0 := by
  have h0 : (fun h : Uint256 => (CCoinsView.get (fun _ => none) h).value) = fun _ => 0 := rfl
  unfold value
  rw [h0, finsum_zero]

theorem value_modify {v : CCoinsView} (hf : v.FiniteCoins) {h : Uint256} {c : CCoins} (hc : c.WF) :
    (v.modify h fun _ => c).value = v.value + (c.value - (v.get h).value) ∧
      (v.modify h fun _ => c).FiniteCoins := by
  have hoff : ∀ k, k ≠ h → ((v.modify h fun _ => c).get k).value = (v.get k).value :=
    fun k hk => by rw [get_modify, if_neg hk]
  have hown : ((v.modify h fun _ => c).get h).value = c.value := by
    rw [get_modify, if_pos rfl, hc.cleanup_eq]
  refine ⟨?_, hf.of_eq_off hoff⟩
  have := finsum_of_eq_off hf hoff
  rw [hown] at this
  exact this

end CCoinsView

theorem Sim.value_eq {lost : Uint256 → Bool} {w v : CCoinsView}
    (h : Sim lost w v) : w.value = v.value := by
  unfold CCoinsView.value
  exact finsum_congr fun k => CCoins.value_congr (h.left.get k) (h.right.get k) (h.out k)

/-! ## Along a block -/

theorem spendInputs_value : ∀ {vin : List CTxIn} {v v' : CCoinsView} {undos : List CTxInUndo},
    v.WF → v.FiniteCoins → spendInputs v vin = some (v', undos) →
    v'.value = v.value - valueSpent undos ∧ v'.FiniteCoins
  | [], v, v', undos, _, hf, h => by
    simp only [spendInputs, Option.some.injEq, Prod.mk.injEq] at h
    obtain ⟨rfl, rfl⟩ := h
    exact ⟨by simp [valueSpent], hf⟩
  | txin :: vin, v, v', undos, hv, hf, h => by
    obtain ⟨c, u, us, hc, hrec, rfl⟩ := spendInputs_cons h
    have hs := (hv.get _).spend_some hc
    obtain ⟨h1, hf1⟩ := value_modify hf (h := txin.prevout.hash) hs.wf
    obtain ⟨h2, hf2⟩ := spendInputs_value (blanked_spend hv hc).wf hf1 hrec
    refine ⟨?_, hf2⟩
    rw [h2, h1, hs.value_eq (hv.get _)]
    simp only [valueSpent, List.map_cons, List.sum_cons]
    omega

/-- **One transaction**: what it spends goes out, what it creates comes in. -/
theorem updateCoins_value {tx : CTransaction} {v v' : CCoinsView} {nHeight : Int}
    {txundo : List CTxInUndo} (hv : v.WF) (hf : v.FiniteCoins) (htx : tx.OutputsNonneg)
    (hown : (v.get tx.hash).isPruned = true)
    (h : updateCoins tx v nHeight = some (v', txundo)) :
    v'.value = v.value - valueSpent txundo + (valueOut tx - valueDropped tx) ∧ v'.FiniteCoins := by
  obtain ⟨w, hmid, hbl, _, rfl⟩ := updateCoins_cases hv h
  have hw : w.value = v.value - valueSpent txundo ∧ w.FiniteCoins := by
    cases hcb : tx.isCoinBase with
    | true =>
      rw [hcb] at hmid
      simp only [if_true, Option.some.injEq, Prod.mk.injEq] at hmid
      obtain ⟨rfl, rfl⟩ := hmid
      exact ⟨by simp [valueSpent], hf⟩
    | false =>
      rw [hcb] at hmid
      simp only [Bool.false_eq_true, if_false] at hmid
      exact spendInputs_value hv hf hmid
  obtain ⟨h1, hf1⟩ := value_modify hw.2 (h := tx.hash) (CCoins.fromTx_wf htx nHeight)
  refine ⟨?_, hf1⟩
  rw [h1, hw.1, CCoins.value_of_isPruned (hbl.isPruned hown), CCoins.value_fromTx htx]
  omega

/-- **One block**: the total moves by what the block creates and does not drop. -/
theorem connectTxs_value {nHeight : Int} : ∀ {vtx : List CTransaction} {v v' : CCoinsView}
    {undos : List (List CTxInUndo)}, LoopReady v vtx → v.FiniteCoins →
    connectTxs nHeight v vtx = some (v', undos) →
    v'.value = v.value - totalSpent undos + (totalOut vtx - totalDropped vtx) ∧ v'.FiniteCoins
  | [], v, v', undos, _, hf, h => by
    simp only [connectTxs, Option.some.injEq, Prod.mk.injEq] at h
    obtain ⟨rfl, rfl⟩ := h
    exact ⟨by simp, hf⟩
  | tx :: vtx, v, v', undos, hr, hf, h => by
    obtain ⟨v1, u, us, rfl, hu, hrec⟩ := connectTxs_cons h
    have htx := hr.nonneg tx (by simp)
    obtain ⟨h1, hf1⟩ := updateCoins_value hr.wf hf htx (hr.bip30 tx (by simp)) hu
    obtain ⟨h2, hf2⟩ := connectTxs_value (hr.tail (updateCoins_applied hr.wf htx hu)) hf1 hrec
    refine ⟨?_, hf2⟩
    rw [h2, h1, totalSpent_cons, totalOut_cons, totalDropped_cons]
    omega

end BitBlocks

/-!
## The unspent outputs, as a ledger

What a view is for: the set of outpoints that can be spent. Transactions move it as a
`Ledger`, each taking out what it spends and putting in its outputs, and the loop of
`ConnectBlock` on a view is that, seen as a set (`connectTxs_unspent`).
-/

namespace BitBlocks

open CCoinsView Ledger

/-- The outpoints a transaction spends, as a set. -/
def CTransaction.spent (tx : CTransaction) : Set COutPoint := fun o => o ∈ tx.spends

/-- The outpoints a transaction creates: those of outputs that can be spent at all. -/
def CTransaction.created (tx : CTransaction) : Set COutPoint := fun o =>
  o.hash = tx.hash ∧ ∃ txout, tx.vout[o.n]? = some txout ∧ txout.scriptPubKey.isUnspendable = false

/-- The outpoints a view has coins for. -/
def CCoinsView.unspent (v : CCoinsView) : Set COutPoint := fun o => v.haveInput o = true

/-- The unspent outpoints after some transactions, from nothing. -/
def unspentAfter (vtx : List CTransaction) : Set COutPoint :=
  applyAll CTransaction.spent CTransaction.created ∅ vtx

theorem unspent_empty : CCoinsView.unspent (fun _ => none) = ∅ := by
  refine Set.eq_empty_iff_forall_notMem.mpr fun o ho => ?_
  have : CCoins.isAvailable {} o.n = true := ho
  simp [CCoins.isAvailable] at this

theorem isAvailable_fromTx {tx : CTransaction} (htx : tx.OutputsNonneg) (nHeight : Int) (n : Nat) :
    (CCoins.fromTx tx nHeight).isAvailable n = true ↔
      ∃ txout, tx.vout[n]? = some txout ∧ txout.scriptPubKey.isUnspendable = false := by
  rw [CCoins.isAvailable_iff, CCoins.out_fromTx htx]
  cases hout : tx.vout[n]? with
  | none => simp [List.getD_eq_getElem?_getD, hout, CScript.isUnspendable, CTxOut.null,
    CTxOut.isNull]
  | some txout =>
    have hnn := CTxOut.isNull_of_nonneg (htx txout (List.mem_of_getElem? hout))
    cases hu : txout.scriptPubKey.isUnspendable <;>
      simp [List.getD_eq_getElem?_getD, hout, hu, hnn]

/-- **One transaction moves the unspent outpoints as in the ledger.** -/
theorem TxApplied.unspent {tx : CTransaction} {nHeight : Int} {v v' : CCoinsView}
    (htx : tx.OutputsNonneg) (hown : (v.get tx.hash).isPruned = true)
    (h : TxApplied tx nHeight v v') :
    v'.unspent = apply CTransaction.spent CTransaction.created v.unspent tx := by
  ext o
  rw [mem_apply]
  show (v'.get o.hash).isAvailable o.n = true ↔
    ((v.get o.hash).isAvailable o.n = true ∧ o ∉ tx.spends) ∨ _
  by_cases ho : o.hash = tx.hash
  · have hgone : ¬ (v.get o.hash).isAvailable o.n = true := by
      rw [ho, CCoins.isAvailable_iff]
      simp [CCoins.isPruned_iff.mp hown o.n]
    rw [ho, h.own, isAvailable_fromTx htx, ← ho]
    exact ⟨fun hc => Or.inr ⟨ho, hc⟩, fun hc =>
      hc.elim (fun hc => absurd hc.1 hgone) fun hc => hc.2⟩
  · rw [CCoins.isAvailable_iff, CCoins.isAvailable_iff, h.out _ ho]
    by_cases hs : o ∈ tx.spends
    · rw [if_pos hs]
      exact ⟨fun hc => by simp at hc, fun hc => hc.elim (fun hc => absurd hs hc.2) fun hc =>
        absurd hc.1 ho⟩
    · rw [if_neg hs]
      exact ⟨fun hc => Or.inl ⟨hc, hs⟩, fun hc => hc.elim And.left fun hc => absurd hc.1 ho⟩

/-- **The loop of `ConnectBlock` moves them as in the ledger.** -/
theorem connectTxs_unspent {nHeight : Int} : ∀ {vtx : List CTransaction} {v v' : CCoinsView}
    {undos : List (List CTxInUndo)}, LoopReady v vtx →
    connectTxs nHeight v vtx = some (v', undos) →
    v'.unspent = applyAll CTransaction.spent CTransaction.created v.unspent vtx ∧
      Backed CTransaction.spent CTransaction.created v.unspent vtx
  | [], v, v', undos, _, h => by
    simp only [connectTxs, Option.some.injEq, Prod.mk.injEq] at h
    rw [← h.1, applyAll_nil]
    exact ⟨rfl, trivial⟩
  | tx :: vtx, v, v', undos, hr, h => by
    obtain ⟨v1, u, us, rfl, hu, hrec⟩ := connectTxs_cons h
    have ha := updateCoins_applied hr.wf (hr.nonneg tx (by simp)) hu
    obtain ⟨hrest, hbacked⟩ := connectTxs_unspent (hr.tail ha) hrec
    have hone := ha.unspent (hr.nonneg tx (by simp)) (hr.bip30 tx (by simp))
    rw [hone] at hrest hbacked
    exact ⟨hrest, ha.avail, hbacked⟩

end BitBlocks
