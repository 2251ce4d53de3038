import BitBlocks.Coins.Undo

/-!
# Disconnecting a block

The block-level half of the undo argument: `disconnectTxs`, run on a view that
simulates the one the loop of `ConnectBlock` left, is clean exactly when two
things held of every entry the block wrote or emptied (`Kept`), and then what it
leaves simulates the view the block was connected to.

The headline is `disconnectCoins_connectLoop_iff`: the round trip is exact unless
the block spends some entry to its last output whose undo record cannot say
enough about it.
-/

namespace BitBlocks

open Trimmed CCoinsView

/-- The undo data the disconnecting loop looks up for a transaction. -/
def undoFor (tx : CTransaction) (txundo : List CTxInUndo) : Option (List CTxInUndo) :=
  if tx.isCoinBase then none else some txundo

/-! ## One transaction -/

variable {lost : Uint256 → Bool} {w w1 v v1 v' w' : CCoinsView} {tx : CTransaction} {nHeight : Int}
  {txundo : List CTxInUndo} {vtx : List CTransaction} {U undos : List (List CTxInUndo)}

/-- **Removing the outputs** finds what `FromTx` wrote, unless a coinstake's flag was lost. -/
theorem removeOutputs_fromTx (htx : tx.OutputsNonneg) (hw : w.WF)
    (hown : (w.get tx.hash).isPruned = true)
    (hsim : Sim lost w1 (w.modify tx.hash fun _ => CCoins.fromTx tx nHeight)) :
    ((removeOutputs tx nHeight w1).2 = true ↔
        ((CCoins.fromTx tx nHeight).isPruned = false → tx.isCoinStake = true →
          lost tx.hash = false)) ∧
      Sim lost (removeOutputs tx nHeight w1).1 w := by
  have hfwf := CCoins.fromTx_wf htx nHeight
  have hget : (w.modify tx.hash fun _ => CCoins.fromTx tx nHeight).get tx.hash
      = CCoins.fromTx tx nHeight := by rw [get_modify, if_pos rfl, hfwf.cleanup_eq]
  refine ⟨?_, hsim.left.modify tx.hash (f := fun _ => {}) CCoins.WF.empty.canonical, hw,
    fun k => ?_⟩
  · have hpr : (w1.get tx.hash).isPruned = (CCoins.fromTx tx nHeight).isPruned := by
      rw [hsim.isPruned, hget]
    -- nothing unspendable is left to clear
    have hclear : (w1.get tx.hash).clearUnspendable = w1.get tx.hash := by
      refine (hsim.left.get _).clearUnspendable_eq fun i => ?_
      rw [hsim.out, hget]
      exact CCoins.out_fromTx_spendable htx nHeight i
    unfold removeOutputs
    dsimp only
    rw [hclear]
    cases hp : (CCoins.fromTx tx nHeight).isPruned with
    | true =>
      have : ∀ n : Int, (({ w1.get tx.hash with nVersion := n } : CCoins).isPruned) = true :=
        fun _ => hpr.trans hp
      split <;> simp [CCoins.eqv, hp, this]
    | false =>
      have hwe : w1.get tx.hash = (CCoins.fromTx tx nHeight).forget (lost tx.hash) := by
        rw [← entry_of_not_isPruned (hpr.trans hp), hsim.entry,
          entry_of_not_isPruned (by rw [hget]; exact hp), hget]
      have hver : (if (CCoins.fromTx tx nHeight).nVersion < 0 then
          { w1.get tx.hash with nVersion := (CCoins.fromTx tx nHeight).nVersion }
          else w1.get tx.hash) = w1.get tx.hash := by
        split
        · rw [hwe]; rfl
        · rfl
      rw [hver, hwe]
      cases hl : lost tx.hash <;> simp [CCoins.eqv, CCoins.forget, hp]
  · show (w1.modify tx.hash fun _ => {}).entry k = _
    rw [entry_modify CCoins.WF.empty]
    by_cases hk : k = tx.hash
    · subst hk
      rw [if_pos rfl, entry_of_isPruned hown]
      simp
    · rw [if_neg hk, hsim.entry]
      congr 1
      unfold CCoinsView.entry
      rw [get_modify, if_neg hk]

theorem disconnectTx_eq (nHeight : Int) (tx : CTransaction) (txundo : Option (List CTxInUndo))
    (w : CCoinsView) (b : Bool) :
    disconnectTx nHeight tx txundo (w, b) =
      match txundo with
      | none => some ((removeOutputs tx nHeight w).1, b && (removeOutputs tx nHeight w).2)
      | some vprevout =>
        if vprevout.length ≠ tx.vin.length then none
        else some (restoreInputs (tx.vin.zip vprevout)
          ((removeOutputs tx nHeight w).1, b && (removeOutputs tx nHeight w).2)) := rfl

/-- **Disconnecting one transaction undoes its `UpdateCoins`.** -/
theorem disconnectTx_updateCoins {b : Bool} (hv : v.WF) (htx : tx.OutputsNonneg)
    (hown : (v.get tx.hash).isPruned = true) (h : updateCoins tx v nHeight = some (v1, txundo))
    (hsim : Sim lost w1 v1) :
    ∃ r, disconnectTx nHeight tx (undoFor tx txundo) (w1, b) = some r ∧
      (r.2 = true ↔ b = true ∧ HeightsKept v v1 ∧
        ((CCoins.fromTx tx nHeight).isPruned = false → tx.isCoinStake = true →
          lost tx.hash = false)) ∧
      (r.2 = true → Sim (lostBy lost v v1) r.1 v) := by
  obtain ⟨w, hmid, hbl, _, rfl⟩ := updateCoins_cases hv h
  obtain ⟨hflag, hsimw⟩ := removeOutputs_fromTx htx hbl.wf (hbl.isPruned hown) hsim
  -- the transaction's own entry was empty before, so the view between tells the same losses
  have hne : ∀ k, (v.get k).isPruned = false →
      (w.modify tx.hash fun _ => CCoins.fromTx tx nHeight).get k = w.get k := by
    intro k hk
    rw [get_modify, if_neg]
    rintro rfl
    rw [hown] at hk
    exact absurd hk (by simp)
  have hheights : HeightsKept v (w.modify tx.hash fun _ => CCoins.fromTx tx nHeight) ↔
      HeightsKept v w :=
    forall_congr' fun k => imp_congr_right fun hk => by rw [hne k hk]
  have hlost : ∀ k, (v.get k).isPruned = false → lostBy lost v w k
      = lostBy lost v (w.modify tx.hash fun _ => CCoins.fromTx tx nHeight) k :=
    fun k hk => by simp only [lostBy, hne k hk]
  rw [hheights, disconnectTx_eq]
  unfold undoFor
  cases hcb : tx.isCoinBase with
  | true =>
    rw [hcb] at hmid
    simp only [if_true, Option.some.injEq, Prod.mk.injEq] at hmid
    obtain ⟨rfl, rfl⟩ := hmid
    have hk : HeightsKept v v := fun k hp hp' => by rw [hp] at hp'; exact absurd hp' (by simp)
    refine ⟨_, rfl, ?_, fun _ => ?_⟩
    · rw [Bool.and_eq_true, hflag]
      simp [hk]
    · exact (hsimw.congr fun k hk => by simp [lostBy, hk]).congr hlost
  | false =>
    rw [hcb] at hmid
    simp only [Bool.false_eq_true, if_false] at hmid
    have hlen := (spendInputs_blanked hv hmid).2.2
    simp only [Bool.false_eq_true, if_false, hlen, ne_eq, not_true_eq_false]
    obtain ⟨hf, hs⟩ := restoreInputs_spendInputs (b := b && (removeOutputs tx nHeight w1).2)
      hv hmid hsimw
    refine ⟨_, rfl, ?_, fun hr => (hs hr).congr hlost⟩
    rw [hf, Bool.and_eq_true, hflag, and_assoc]
    exact and_congr_right fun _ => and_comm

theorem restoreInputs_unclean : ∀ (l : List (CTxIn × CTxInUndo)) (w : CCoinsView),
    (restoreInputs l (w, false)).2 = false
  | [], _ => rfl
  | (txin, undo) :: rest, w => by
    rw [restoreInputs]
    simp [restoreInputs_unclean rest w]

theorem disconnectTx_unclean (w1 : CCoinsView) (hv : v.WF)
    (h : updateCoins tx v nHeight = some (v1, txundo)) :
    ∃ r, disconnectTx nHeight tx (undoFor tx txundo) (w1, false) = some r ∧ r.2 = false := by
  obtain ⟨w, hmid, _, _, _⟩ := updateCoins_cases hv h
  rw [disconnectTx_eq]
  unfold undoFor
  cases hcb : tx.isCoinBase with
  | true => exact ⟨_, rfl, by simp⟩
  | false =>
    rw [hcb] at hmid
    simp only [Bool.false_eq_true, if_false] at hmid
    simp only [Bool.false_eq_true, if_false, (spendInputs_blanked hv hmid).2.2, ne_eq,
      not_true_eq_false]
    exact ⟨_, rfl, restoreInputs_unclean _ _⟩

/-! ## The whole block -/

/--
The undo data can bring the entry for `k` back: if the block emptied it, it has a
height to be recognised by, and if it is the block's own coinstake, it is still
there and its flag has not been lost.
-/
def Kept (nHeight : Int) (vtx : List CTransaction) (v v' : CCoinsView) (lost : Uint256 → Bool)
    (k : Uint256) : Prop :=
  ((created nHeight vtx v).get k).isPruned = false →
    ((v'.get k).isPruned = true → ((created nHeight vtx v).get k).nHeight ≠ 0) ∧
    (k ∈ vtx.map CTransaction.hash → ((created nHeight vtx v).get k).fCoinStake = true →
      (v'.get k).isPruned = false ∧ lost k = false)

/-- What the block must keep is what its first transaction and the rest must keep. -/
theorem kept_cons (hr : LoopReady v (tx :: vtx)) (ha : TxApplied tx nHeight v v1)
    (hbl : Blanked (created nHeight vtx v1) v' (spendsOf vtx)) :
    (∀ k, Kept nHeight (tx :: vtx) v v' lost k) ↔
      (∀ k, Kept nHeight vtx v1 v' lost k) ∧ HeightsKept v v1 ∧
        ((CCoins.fromTx tx nHeight).isPruned = false → tx.isCoinStake = true →
          lostBy lost v1 v' tx.hash = false) := by
  have hown : (created nHeight (tx :: vtx) v).get tx.hash = CCoins.fromTx tx nHeight :=
    get_created_of_mem hr.nodup (by simp)
  have hnd := hr.nodup
  rw [List.map_cons, List.nodup_cons] at hnd
  have hempty : ∀ k ∈ (tx :: vtx).map CTransaction.hash, (v.get k).isPruned = true := by
    intro k hk
    obtain ⟨t, ht, rfl⟩ := List.mem_map.mp hk
    exact hr.bip30 t ht
  constructor
  · intro hk
    refine ⟨fun k hp => ?_, fun k hp hp1 => ?_, fun hp hst => ?_⟩
    · -- an entry that a later transaction makes is the same on both sides
      rcases ha.created_cases hr k with ⟨hm, he⟩ | ⟨hm, h1, h2⟩
      · rw [he] at hp ⊢
        exact ⟨(hk k hp).1, fun _ => (hk k hp).2 hm⟩
      · have hmeta := ha.meta_eq k fun he => hm (by simp [he])
        have hpv : (v.get k).isPruned = false := by
          rw [← h2]
          exact (TxApplied.blanked hr ha).not_isPruned hp
        refine ⟨fun hp' => ?_, fun hm' => absurd (List.mem_cons_of_mem _ hm') hm⟩
        have := (hk k (by rw [h2]; exact hpv)).1 hp'
        rwa [h2, ← hmeta.2.2.1, ← h1] at this
    · rcases ha.created_cases hr k with ⟨hm, _⟩ | ⟨hm, h1, h2⟩
      · rw [hempty k hm] at hp; exact absurd hp (by simp)
      · rw [← h2]
        exact (hk k (by rw [h2]; exact hp)).1 (hbl.isPruned (by rw [h1]; exact hp1))
    · have := (hk tx.hash (by rw [hown]; exact hp)).2 (by simp) (by rw [hown]; exact hst)
      simp [lostBy, this.1, this.2]
  · rintro ⟨hk, hh, hst⟩ k hp
    rcases ha.created_cases hr k with ⟨hm, he⟩ | ⟨hm, h1, h2⟩
    · have hk1 := hk k (by rw [he]; exact hp)
      rw [he] at hk1
      refine ⟨hk1.1, fun _ hstake => ?_⟩
      by_cases hkt : k = tx.hash
      · subst hkt
        rw [hown] at hp hstake
        have := hst hp hstake
        simp only [lostBy, ha.own, hp, Bool.not_false, Bool.true_and, Bool.or_eq_false_iff] at this
        exact ⟨this.2, this.1⟩
      · exact hk1.2 (by simp at hm ⊢; tauto) hstake
    · -- an entry of the view: this transaction empties it, or one of the rest does
      refine ⟨fun hp' => ?_, fun hm' => absurd hm' hm⟩
      rw [h2] at hp ⊢
      cases hp1 : (v1.get k).isPruned with
      | true => exact hh k hp hp1
      | false =>
        have := (hk k (by rw [h1]; exact hp1)).1 hp'
        rwa [h1, (ha.meta_eq k fun he => hm (by simp [he])).2.2.1] at this

/-- **Walking the transactions back undoes walking them forward.** -/
theorem disconnectTxs_connectTxs {b : Bool} : ∀ {vtx : List CTransaction} {v v' : CCoinsView}
    {undos : List (List CTxInUndo)}, LoopReady v vtx →
    connectTxs nHeight v vtx = some (v', undos) → Sim lost w' v' →
    ∃ r, disconnectTxs nHeight (vtx.zip (List.zipWith undoFor vtx undos)) (w', b) = some r ∧
      (r.2 = true ↔ b = true ∧ ∀ k, Kept nHeight vtx v v' lost k) ∧
      (r.2 = true → Sim (lostBy lost v v') r.1 v)
  | [], v, v', undos, hr, h, hsim => by
    simp only [connectTxs, Option.some.injEq, Prod.mk.injEq] at h
    obtain ⟨rfl, rfl⟩ := h
    refine ⟨_, rfl, ?_, fun _ => hsim.congr fun k hk => by simp [lostBy, hk]⟩
    simp only [iff_self_and]
    intro _ k hp
    have he : (created nHeight [] v).get k = v.get k := rfl
    rw [he] at hp
    exact ⟨fun hp' => by rw [hp] at hp'; exact absurd hp' (by simp), fun hm => by simp at hm⟩
  | tx :: vtx, v, v', undos, hr, h, hsim => by
    obtain ⟨v1, u, us, rfl, hu, hrec⟩ := connectTxs_cons h
    have htx := hr.nonneg tx (by simp)
    have ha := updateCoins_applied hr.wf htx hu
    obtain ⟨hbl, _⟩ := connectTxs_blanked (hr.tail ha) hrec
    obtain ⟨⟨w1, b1⟩, hd, hf, hs⟩ := disconnectTxs_connectTxs (b := b) (hr.tail ha) hrec hsim
    rw [List.zipWith_cons_cons, List.zip_cons_cons, disconnectTxs, hd]
    dsimp only
    dsimp only at hf hs
    cases b1 with
    | false =>
      obtain ⟨r, hr1, hr2⟩ := disconnectTx_unclean w1 hr.wf hu
      refine ⟨r, hr1, ?_, fun hrt => by rw [hr2] at hrt; exact absurd hrt (by simp)⟩
      rw [hr2, kept_cons hr ha hbl]
      simp only [Bool.false_eq_true, false_iff, not_and] at hf ⊢
      exact fun hb hk => absurd hk (hf hb)
    | true =>
      obtain ⟨r, hr1, hr2, hr3⟩ := disconnectTx_updateCoins (b := true) hr.wf htx
        (hr.bip30 tx (by simp)) hu (hs rfl)
      refine ⟨r, hr1, ?_, fun hrt => (hr3 hrt).congr fun k hk => ?_⟩
      · have hbk := hf.mp rfl
        rw [hr2, kept_cons hr ha hbl]
        tauto
      · -- an entry with coins left is not one of the block's own, so the rest only spends it
        refine lostBy_lostBy (fun hp => by rw [hk] at hp; exact absurd hp (by simp)) fun hp => ?_
        rcases ha.created_cases hr k with ⟨hm, _⟩ | ⟨_, h1, _⟩
        · obtain ⟨t, ht, rfl⟩ := List.mem_map.mp hm
          rw [hr.bip30 t ht] at hk
          exact absurd hk (by simp)
        · exact hbl.isPruned (by rw [h1]; exact hp)

theorem connectTxs_length : ∀ {vtx : List CTransaction} {v v' : CCoinsView}
    {undos : List (List CTxInUndo)}, connectTxs nHeight v vtx = some (v', undos) →
    undos.length = vtx.length
  | [], v, v', undos, h => by
    simp only [connectTxs, Option.some.injEq, Prod.mk.injEq] at h
    rw [← h.2]; rfl
  | tx :: vtx, v, v', undos, h => by
    obtain ⟨v1, u, us, rfl, _, hrec⟩ := connectTxs_cons h
    simp [connectTxs_length hrec]

theorem zipWith_undoFor : ∀ {vtx : List CTransaction} {undos : List (List CTxInUndo)},
    (∀ tx ∈ vtx, tx.isCoinBase = false) → undos.length = vtx.length →
    List.zipWith undoFor vtx undos = undos.map some
  | [], [], _, _ => rfl
  | tx :: vtx, u :: us, h, hl => by
    rw [List.zipWith_cons_cons, List.map_cons,
      zipWith_undoFor (fun t ht => h t (by simp [ht])) (by simpa using hl)]
    simp [undoFor, h tx (by simp)]

theorem connectLoop_eq (h : connectLoop nHeight v vtx = some (v', U)) :
    ∃ undos, connectTxs nHeight v vtx = some (v', undos) ∧ U = undos.tail := by
  unfold connectLoop at h
  split at h
  · simp at h
  · rename_i v2 us hus
    simp only [Option.some.injEq, Prod.mk.injEq] at h
    obtain ⟨rfl, rfl⟩ := h
    exact ⟨us, hus, rfl⟩

theorem disconnectCoins_eq (hc : LoopChecked v vtx)
    (h : connectTxs nHeight v vtx = some (v', undos)) :
    disconnectCoins vtx undos.tail nHeight w
      = disconnectTxs nHeight (vtx.zip (List.zipWith undoFor vtx undos)) (w, true) := by
  obtain ⟨cb, rest, rfl, hcb, hrest⟩ := hc.coinbase
  have hlen := connectTxs_length h
  obtain ⟨v1, u, us, rfl, _, _⟩ := connectTxs_cons h
  simp only [List.length_cons, Nat.add_right_cancel_iff] at hlen
  unfold disconnectCoins
  rw [if_neg (by simp [hlen]), List.zipWith_cons_cons, zipWith_undoFor hrest hlen]
  simp [undoFor, hcb]

/-- **Disconnecting a block from a view that simulates the one it left.** -/
theorem disconnectCoins_connectLoop (hc : LoopChecked v vtx) (hf : TxidsFaithful vtx)
    (h : connectLoop nHeight v vtx = some (v', U)) (hsim : Sim lost w' v') :
    ∃ r, disconnectCoins vtx U nHeight w' = some r ∧
      (r.2 = true ↔ ∀ k, Kept nHeight vtx v v' lost k) ∧
      (r.2 = true → Sim (lostBy lost v v') r.1 v) := by
  obtain ⟨undos, hu, rfl⟩ := connectLoop_eq h
  have hr := hc.loopReady hf hu
  obtain ⟨r, h1, h2, h3⟩ := disconnectTxs_connectTxs (b := true) hr hu hsim
  refine ⟨r, by rw [disconnectCoins_eq hc hu, h1], ?_, h3⟩
  simpa using h2

/--
The block spends everything there is to spend of the entry for `k`: what the view
holds of it, or what one of the block's own transactions creates.
-/
def SpentOut (nHeight : Int) (vtx : List CTransaction) (v : CCoinsView) (k : Uint256) : Prop :=
  ((created nHeight vtx v).get k).isPruned = false ∧
    ∀ n, ((created nHeight vtx v).get k).isAvailable n = true → ⟨k, n⟩ ∈ spendsOf vtx

theorem spentOut_iff (hr : LoopReady v vtx) (h : connectTxs nHeight v vtx = some (v', undos))
    (k : Uint256) :
    SpentOut nHeight vtx v k ↔
      ((created nHeight vtx v).get k).isPruned = false ∧ (v'.get k).isPruned = true := by
  obtain ⟨hbl, _⟩ := connectTxs_blanked hr h
  refine and_congr_right fun _ => ?_
  rw [← Bool.not_eq_false, CCoins.not_isPruned_iff]
  simp only [hbl.isAvailable, not_exists, not_and, Decidable.not_not]

/--
**When disconnecting a block exactly undoes connecting it**: precisely when the
block spends no coinstake's entry, and no entry created at height 0, to its last
output. The first kind comes back without `fCoinStake`; a record of the second
kind is taken for one without metadata, and the walk ends unclean.
-/
theorem disconnectCoins_connectLoop_iff {nHeight : Int} {v v' : CCoinsView}
    {vtx : List CTransaction} {U : List (List CTxInUndo)} (hc : LoopChecked v vtx)
    (hf : TxidsFaithful vtx) (h : connectLoop nHeight v vtx = some (v', U)) :
    (∃ w, disconnectCoins vtx U nHeight v' = some (w, true) ∧ Same w v) ↔
      ¬ ∃ k, SpentOut nHeight vtx v k ∧ (((created nHeight vtx v).get k).fCoinStake = true ∨
          ((created nHeight vtx v).get k).nHeight = 0) := by
  obtain ⟨undos, hu, rfl⟩ := connectLoop_eq h
  have hr := hc.loopReady hf hu
  have hv' := connectTxs_wf hr hu
  obtain ⟨⟨w, b⟩, hd, hflag, hsim⟩ := disconnectCoins_connectLoop hc hf h (Sim.refl hv')
  have hiff : (∃ w', disconnectCoins vtx undos.tail nHeight v' = some (w', true) ∧ Same w' v) ↔
      b = true ∧ Same w v := by
    rw [hd]
    constructor
    · rintro ⟨w', he, hs⟩
      obtain ⟨rfl, rfl⟩ := Prod.mk.inj (Option.some.inj he)
      exact ⟨rfl, hs⟩
    · rintro ⟨rfl, hs⟩
      exact ⟨w, rfl, hs⟩
  rw [hiff]
  constructor
  · rintro ⟨hb, hs⟩ ⟨k, hk, hbad⟩
    obtain ⟨hp, hp'⟩ := (spentOut_iff hr hu k).mp hk
    have hkept := hflag.mp hb k hp
    rcases hbad with hst | h0
    · by_cases hm : k ∈ vtx.map CTransaction.hash
      · rw [(hkept.2 hm hst).1] at hp'
        exact absurd hp' (by simp)
      · -- an entry of the view itself: it comes back, without its flag
        rw [get_created_of_notMem hm] at hp hst
        have := (hsim hb).same_iff.mp hs k (by simp [lostBy, hp, hp'])
        rw [entry_of_not_isPruned hp, hst] at this
        exact absurd this (by simp)
    · exact hkept.1 hp' h0
  · intro hno
    -- what is emptied has a height, and was no coinstake
    have hgood : ∀ k, ((created nHeight vtx v).get k).isPruned = false →
        (v'.get k).isPruned = true → ((created nHeight vtx v).get k).fCoinStake = false ∧
          ((created nHeight vtx v).get k).nHeight ≠ 0 := by
      intro k hp hp'
      have := fun hbad => hno ⟨k, (spentOut_iff hr hu k).mpr ⟨hp, hp'⟩, hbad⟩
      simpa using this
    have hb : b = true := by
      refine hflag.mpr fun k hp => ⟨fun hp' => (hgood k hp hp').2, fun _ hst => ⟨?_, rfl⟩⟩
      by_contra hp'
      rw [(hgood k hp (by simpa using hp')).1] at hst
      exact absurd hst (by simp)
    refine ⟨hb, (hsim hb).same_iff.mpr fun k hk => ?_⟩
    simp only [lostBy, Bool.false_or, Bool.and_eq_true, Bool.not_eq_true'] at hk
    have hm : k ∉ vtx.map CTransaction.hash := by
      intro hm
      obtain ⟨t, ht, rfl⟩ := List.mem_map.mp hm
      rw [hr.bip30 t ht] at hk
      exact absurd hk.1 (by simp)
    have hg : (created nHeight vtx v).get k = v.get k := get_created_of_notMem hm
    have := (hgood k (by rw [hg]; exact hk.1) hk.2).1
    rwa [hg, ← entry_of_not_isPruned hk.1] at this

/-! ### A coinstake spent to its last output -/

/-- One coinstake at height 10: the empty marker output and one with coins. -/
def stakedView : CCoinsView := fun h =>
  if h = 7 then
    some { fCoinStake := true, vout := [⟨0, [], -10⟩, ⟨5, [0x51], -10⟩], nHeight := 10,
           nVersion := 1 }
  else none

/-- A block at height 30 whose second transaction spends both. -/
def stakeSpendingBlock : List CTransaction :=
  [{ hash := 1, vin := [⟨COutPoint.null, [1, 30], 0⟩], vout := [⟨3, [0x51], -10⟩] },
   { hash := 2, vin := [⟨⟨7, 0⟩, [0x51], 0⟩, ⟨⟨7, 1⟩, [], 0⟩], vout := [⟨5, [0x51], -10⟩] }]

theorem stakedView_checked : LoopChecked stakedView stakeSpendingBlock where
  wf := by
    intro h c hc
    unfold stakedView at hc
    split at hc
    · rw [← Option.some.inj hc]
      exact ⟨by decide, by decide⟩
    · simp at hc
  coinbase := ⟨_, _, rfl, by decide, by decide⟩
  nonneg := by decide
  vin := by decide
  bip30 := by decide

/-- The condition is met by some blocks and not by others: here is one that connects and fails
it. -/
theorem disconnectCoins_connectLoop_iff_staked :
    ∃ v' U, connectLoop 30 stakedView stakeSpendingBlock = some (v', U) ∧
      ((∃ w, disconnectCoins stakeSpendingBlock U 30 v' = some (w, true) ∧ Same w stakedView) ↔
        ¬ ∃ k, SpentOut 30 stakeSpendingBlock stakedView k ∧
          (((created 30 stakeSpendingBlock stakedView).get k).fCoinStake = true ∨
            ((created 30 stakeSpendingBlock stakedView).get k).nHeight = 0)) := by
  obtain ⟨⟨v', U⟩, hr⟩ : ∃ r, connectLoop 30 stakedView stakeSpendingBlock = some r :=
    Option.isSome_iff_exists.mp (by decide)
  exact ⟨v', U, hr, disconnectCoins_connectLoop_iff stakedView_checked (by decide) hr⟩

/-- **The round trip is not exact**: this coinstake comes back as an ordinary transaction. -/
theorem disconnectCoins_forgets_coinstake :
    ¬ ∀ (nHeight : Int) (v v' : CCoinsView) (vtx : List CTransaction) (U : List (List CTxInUndo)),
      LoopChecked v vtx → TxidsFaithful vtx → connectLoop nHeight v vtx = some (v', U) →
      ∃ w, disconnectCoins vtx U nHeight v' = some (w, true) ∧ Same w v := by
  intro hall
  obtain ⟨⟨v', U⟩, hr⟩ : ∃ r, connectLoop 30 stakedView stakeSpendingBlock = some r :=
    Option.isSome_iff_exists.mp (by decide)
  obtain ⟨w, hw, hs⟩ := hall 30 _ _ _ _ stakedView_checked (by decide) hr
  have hrun : ((connectLoop 30 stakedView stakeSpendingBlock).bind fun r =>
      (disconnectCoins stakeSpendingBlock r.2 30 r.1).map fun q => (q.1.entry 7).fCoinStake)
        = some false := by decide
  rw [hr, Option.bind_some, hw, Option.map_some, hs 7] at hrun
  exact absurd hrun (by decide)

end BitBlocks
