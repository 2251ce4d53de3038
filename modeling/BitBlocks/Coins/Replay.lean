import BitBlocks.Coins.Disconnect

/-!
# Connecting on a view that forgot

After a disconnect the node's view may only simulate the one it should have
(`Sim`). This file says what happens when blocks are connected on top of it: the
same ones connect, the results simulate each other again, and the undo data
agrees in every field that `DisconnectBlock` reads. If nothing of consequence was
lost (`Harmless`), the undo data agrees outright and nothing is lost afterwards.
-/

namespace BitBlocks

open CCoinsView

/-- The record with its coinstake flag lost. -/
def CTxInUndo.forget (lost : Bool) (u : CTxInUndo) : CTxInUndo :=
  { u with fCoinStake := u.fCoinStake && !lost }

/-- The part of a record that `DisconnectBlock` reads. -/
def CTxInUndo.bare (u : CTxInUndo) : CTxInUndo := u.forget true

@[simp] theorem CTxInUndo.bare_forget (lost : Bool) (u : CTxInUndo) :
    (u.forget lost).bare = u.bare := by
  simp [CTxInUndo.bare, CTxInUndo.forget]

theorem CTxInUndo.forget_eq_self {u : CTxInUndo} {lost : Bool}
    (h : lost = true → u.fCoinStake = false) : u.forget lost = u := by
  cases lost with
  | false => simp [CTxInUndo.forget]
  | true => obtain ⟨o, b, s, n, v⟩ := u; simpa [CTxInUndo.forget] using h rfl

/-! ## `DisconnectBlock` does not read the flag -/

theorem restoreInputs_bare : ∀ (vin : List CTxIn) (undos : List CTxInUndo) (s : CCoinsView × Bool),
    restoreInputs (vin.zip undos) s = restoreInputs (vin.zip (undos.map CTxInUndo.bare)) s
  | [], _, _ => by simp
  | _ :: _, [], _ => by simp
  | txin :: vin, undo :: undos, s => by
    rw [List.map_cons, List.zip_cons_cons, List.zip_cons_cons, restoreInputs, restoreInputs,
      restoreInputs_bare vin undos s]
    rfl

theorem disconnectTx_bare (nHeight : Int) (tx : CTransaction) (undos : List CTxInUndo)
    (s : CCoinsView × Bool) :
    disconnectTx nHeight tx (some undos) s
      = disconnectTx nHeight tx (some (undos.map CTxInUndo.bare)) s := by
  obtain ⟨w, b⟩ := s
  rw [disconnectTx_eq, disconnectTx_eq]
  simp only [List.length_map]
  rw [restoreInputs_bare]

theorem disconnectTxs_bare (nHeight : Int) : ∀ (vtx : List CTransaction)
    (us : List (List CTxInUndo)) (s : CCoinsView × Bool),
    disconnectTxs nHeight (vtx.zip (us.map some)) s
      = disconnectTxs nHeight (vtx.zip ((us.map (List.map CTxInUndo.bare)).map some)) s
  | [], _, _ => by simp
  | _ :: _, [], _ => by simp
  | tx :: vtx, u :: us, s => by
    simp only [List.map_cons, List.zip_cons_cons, disconnectTxs]
    rw [disconnectTxs_bare nHeight vtx us s]
    split
    · rfl
    · exact disconnectTx_bare nHeight tx u _

/-- **`DisconnectBlock` reads every field of the undo data but `fCoinStake`.** -/
theorem disconnectCoins_bare (nHeight : Int) (vtx : List CTransaction)
    (U : List (List CTxInUndo)) (v : CCoinsView) :
    disconnectCoins vtx U nHeight v
      = disconnectCoins vtx (U.map (List.map CTxInUndo.bare)) nHeight v := by
  unfold disconnectCoins
  rw [List.length_map]
  split
  · rfl
  · cases vtx with
    | nil => rfl
    | cons tx vtx =>
      simp only [List.zip_cons_cons, disconnectTxs]
      rw [disconnectTxs_bare]

theorem disconnectCoins_congr {nHeight : Int} {vtx : List CTransaction}
    {U U' : List (List CTxInUndo)} {v : CCoinsView}
    (h : U.map (List.map CTxInUndo.bare) = U'.map (List.map CTxInUndo.bare)) :
    disconnectCoins vtx U nHeight v = disconnectCoins vtx U' nHeight v := by
  rw [disconnectCoins_bare, h, ← disconnectCoins_bare]

/-! ## `UpdateCoins` on a simulating view -/

namespace CCoins

theorem spend_forget (c : CCoins) (lost : Bool) (n : Nat) :
    (c.forget lost).spend n = (c.spend n).map fun r => (r.1.forget lost, r.2.forget lost) := by
  unfold CCoins.spend
  by_cases h1 : n ≥ c.vout.length
  · rw [if_pos h1, if_pos (show n ≥ (c.forget lost).vout.length from h1)]; rfl
  rw [if_neg h1, if_neg (show ¬ n ≥ (c.forget lost).vout.length from h1)]
  by_cases h2 : (c.out n).isNull = true
  · rw [if_pos h2, if_pos (show ((c.forget lost).out n).isNull = true from h2)]; rfl
  rw [if_neg h2, if_neg (show ¬ ((c.forget lost).out n).isNull = true from h2)]
  dsimp only
  by_cases h3 : (cleanup { c with vout := c.vout.set n CTxOut.null }).vout.length = 0
  · rw [if_pos h3, if_pos (show (cleanup { c.forget lost with
      vout := (c.forget lost).vout.set n CTxOut.null }).vout.length = 0 from h3)]
    rfl
  · rw [if_neg h3, if_neg (show ¬ (cleanup { c.forget lost with
      vout := (c.forget lost).vout.set n CTxOut.null }).vout.length = 0 from h3)]
    simp [CTxInUndo.forget, forget, cleanup, CCoins.out]

end CCoins

/-- No entry that lost its flag had one. -/
def Harmless (lost : Uint256 → Bool) (v : CCoinsView) : Prop :=
  ∀ k, lost k = true → (v.entry k).fCoinStake = false

variable {lost : Uint256 → Bool} {v : CCoinsView} {nHeight : Int}

theorem Harmless.blanked {v' : CCoinsView} {os : List COutPoint} (h : Harmless lost v)
    (hb : Blanked v v' os) : Harmless lost v' := by
  intro k hk
  cases hp : (v'.get k).isPruned with
  | true => rw [entry_of_isPruned hp]
  | false =>
    have hv := h k hk
    rw [entry_of_not_isPruned (hb.not_isPruned hp)] at hv
    rw [entry_of_not_isPruned hp, (hb.meta_eq k).2.1, hv]

theorem Sim.spendInputs : ∀ {vin : List CTxIn} {w v w' : CCoinsView}
    {us : List CTxInUndo}, Sim lost w v → BitBlocks.spendInputs w vin = some (w', us) →
    ∃ v' us', BitBlocks.spendInputs v vin = some (v', us') ∧ Sim lost w' v' ∧
      us.map CTxInUndo.bare = us'.map CTxInUndo.bare ∧ (Harmless lost v → us = us')
  | [], w, v, w', us, hsim, h => by
    simp only [BitBlocks.spendInputs, Option.some.injEq, Prod.mk.injEq] at h
    obtain ⟨rfl, rfl⟩ := h
    exact ⟨v, [], rfl, hsim, rfl, fun _ => rfl⟩
  | txin :: vin, w, v, w', us, hsim, h => by
    obtain ⟨c, u, us2, hc, hrec, rfl⟩ := spendInputs_cons h
    have hsw := (hsim.left.get _).spend_some hc
    have hnw : (w.get txin.prevout.hash).isPruned = false :=
      CCoins.not_isPruned_iff.mpr ⟨_, hsw.avail⟩
    have hnv : (v.get txin.prevout.hash).isPruned = false := by rw [← hsim.isPruned]; exact hnw
    have hget : w.get txin.prevout.hash
        = (v.get txin.prevout.hash).forget (lost txin.prevout.hash) := by
      rw [← entry_of_not_isPruned hnw, hsim.entry, entry_of_not_isPruned hnv]
    -- the same spend, on the entry that kept its flag
    rw [hget, CCoins.spend_forget] at hc
    obtain ⟨⟨c0, u0⟩, hc0, he⟩ := Option.map_eq_some_iff.mp hc
    obtain ⟨rfl, rfl⟩ := Prod.mk.inj he
    have hsv := (hsim.right.get _).spend_some hc0
    have hblv := blanked_spend hsim.right hc0
    have hsim1 : Sim lost (w.modify txin.prevout.hash fun _ => c0.forget (lost txin.prevout.hash))
        (v.modify txin.prevout.hash fun _ => c0) := by
      refine ⟨hsim.left.modify _ (hsv.wf.forget _).canonical, hblv.wf, fun k => ?_⟩
      rw [entry_modify (hsv.wf.forget _), entry_modify hsv.wf]
      by_cases hk : k = txin.prevout.hash
      · subst hk
        rw [if_pos rfl, if_pos rfl, CCoins.isPruned_forget]
        split
        · simp
        · rfl
      · rw [if_neg hk, if_neg hk, hsim.entry]
    obtain ⟨v2, us', hv2, hsim2, hbare, hex⟩ := Sim.spendInputs hsim1 hrec
    refine ⟨v2, u0 :: us', ?_, hsim2, ?_, fun hh => ?_⟩
    · rw [BitBlocks.spendInputs, hc0]
      dsimp only
      rw [hv2]
    · rw [List.map_cons, List.map_cons, hbare, CTxInUndo.bare_forget]
    · rw [hex (hh.blanked hblv), CTxInUndo.forget_eq_self]
      intro hl
      have hst := hh _ hl
      rw [entry_of_not_isPruned hnv] at hst
      cases hp : c0.isPruned with
      | true => rw [(hsv.last hp).2.1, hst]
      | false => rw [hsv.notLast hp]

theorem Sim.updateCoins {w w' : CCoinsView} {tx : CTransaction} {us : List CTxInUndo}
    (hsim : Sim lost w v) (htx : tx.OutputsNonneg)
    (h : BitBlocks.updateCoins tx w nHeight = some (w', us)) :
    ∃ v' us' lost', BitBlocks.updateCoins tx v nHeight = some (v', us') ∧ Sim lost' w' v' ∧
      us.map CTxInUndo.bare = us'.map CTxInUndo.bare ∧
      (Harmless lost v → us = us' ∧ Harmless lost' v') := by
  obtain ⟨w1, hmid, _, _, rfl⟩ := updateCoins_cases hsim.left h
  have hfwf := CCoins.fromTx_wf htx nHeight
  obtain ⟨v1, us', hv1, hsim1, hbare, hex, hhl⟩ : ∃ v1 us',
      (if tx.isCoinBase then some (v, []) else BitBlocks.spendInputs v tx.vin) = some (v1, us') ∧
      Sim lost w1 v1 ∧ us.map CTxInUndo.bare = us'.map CTxInUndo.bare ∧
      (Harmless lost v → us = us') ∧ (Harmless lost v → Harmless lost v1) := by
    cases hcb : tx.isCoinBase with
    | true =>
      rw [hcb] at hmid
      simp only [if_true, Option.some.injEq, Prod.mk.injEq] at hmid
      obtain ⟨rfl, rfl⟩ := hmid
      exact ⟨v, [], rfl, hsim, rfl, fun _ => rfl, id⟩
    | false =>
      rw [hcb] at hmid
      simp only [Bool.false_eq_true, if_false] at hmid ⊢
      obtain ⟨v1, us', hv1, hsim1, hbare, hex⟩ := hsim.spendInputs hmid
      exact ⟨v1, us', hv1, hsim1, hbare, hex,
        fun hh => hh.blanked (spendInputs_blanked hsim.right hv1).1⟩
  refine ⟨v1.modify tx.hash fun _ => CCoins.fromTx tx nHeight, us',
    fun k => lost k && (k != tx.hash), ?_, ⟨?_, ?_, fun k => ?_⟩, hbare, fun hh =>
    ⟨hex hh, fun k hk => ?_⟩⟩
  · unfold BitBlocks.updateCoins
    rw [hv1]
  · exact hsim1.left.modify _ hfwf.canonical
  · exact hsim1.right.modify _ hfwf.canonical
  · rw [entry_modify hfwf, entry_modify hfwf]
    by_cases hk : k = tx.hash
    · simp [hk]
    · have hl : (lost k && (k != tx.hash)) = lost k := by simp [hk]
      rw [if_neg hk, if_neg hk, hsim1.entry, hl]
  · simp only [Bool.and_eq_true, bne_iff_ne, ne_eq] at hk
    rw [entry_modify hfwf, if_neg hk.2]
    exact hhl hh k hk.1

/-- **The loop of `ConnectBlock` on a simulating view.** -/
theorem Sim.connectTxs : ∀ {vtx : List CTransaction} {lost : Uint256 → Bool}
    {w v w' : CCoinsView} {us : List (List CTxInUndo)}, Sim lost w v →
    (∀ tx ∈ vtx, tx.OutputsNonneg) → BitBlocks.connectTxs nHeight w vtx = some (w', us) →
    ∃ v' us' lost', BitBlocks.connectTxs nHeight v vtx = some (v', us') ∧ Sim lost' w' v' ∧
      us.map (List.map CTxInUndo.bare) = us'.map (List.map CTxInUndo.bare) ∧
      (Harmless lost v → us = us' ∧ Harmless lost' v')
  | [], lost, w, v, w', us, hsim, _, h => by
    simp only [BitBlocks.connectTxs, Option.some.injEq, Prod.mk.injEq] at h
    obtain ⟨rfl, rfl⟩ := h
    exact ⟨v, [], lost, rfl, hsim, rfl, fun hh => ⟨rfl, hh⟩⟩
  | tx :: vtx, lost, w, v, w', us, hsim, htx, h => by
    obtain ⟨w1, u, rest, rfl, hu, hrec⟩ := connectTxs_cons h
    obtain ⟨v1, u', lost1, hv1, hsim1, hb1, hh1⟩ := hsim.updateCoins (htx tx (by simp)) hu
    obtain ⟨v2, us', lost2, hv2, hsim2, hb2, hh2⟩ :=
      Sim.connectTxs hsim1 (fun t ht => htx t (by simp [ht])) hrec
    refine ⟨v2, u' :: us', lost2, ?_, hsim2, ?_, fun hh => ?_⟩
    · rw [BitBlocks.connectTxs, hv1]
      dsimp only
      rw [hv2]
    · rw [List.map_cons, List.map_cons, hb1, hb2]
    · obtain ⟨he1, hh1⟩ := hh1 hh
      obtain ⟨he2, hh2⟩ := hh2 hh1
      exact ⟨by rw [he1, he2], hh2⟩

/-! ## An emptied entry leaves a record -/

theorem spendInputs_emptied : ∀ {vin : List CTxIn} {v v' : CCoinsView} {undos : List CTxInUndo}
    {k : Uint256}, v.WF → BitBlocks.spendInputs v vin = some (v', undos) →
    (v.get k).isPruned = false → (v'.get k).isPruned = true →
    ∃ u ∈ undos, u.fCoinStake = (v.get k).fCoinStake
  | [], v, v', undos, k, _, h, hp, hp' => by
    simp only [BitBlocks.spendInputs, Option.some.injEq, Prod.mk.injEq] at h
    rw [h.1, hp'] at hp
    exact absurd hp (by simp)
  | txin :: vin, v, v', undos, k, hv, h, hp, hp' => by
    obtain ⟨c, u, us, hc, hrec, rfl⟩ := spendInputs_cons h
    have hs := (hv.get _).spend_some hc
    have hbl := blanked_spend hv hc
    cases hp1 : ((v.modify txin.prevout.hash fun _ => c).get k).isPruned with
    | false =>
      obtain ⟨u', hu', he⟩ := spendInputs_emptied hbl.wf hrec hp1 hp'
      exact ⟨u', List.mem_cons_of_mem _ hu', by rw [he, (hbl.meta_eq k).2.1]⟩
    | true =>
      rw [get_modify] at hp1
      by_cases hk : k = txin.prevout.hash
      · subst hk
        rw [if_pos rfl, hs.wf.cleanup_eq] at hp1
        exact ⟨u, by simp, (hs.last hp1).2.1⟩
      · rw [if_neg hk, hp] at hp1
        exact absurd hp1 (by simp)

/-- **If the block emptied an entry of the view, some record carries its flag.** -/
theorem connectTxs_emptied {k : Uint256} : ∀ {vtx : List CTransaction}
    {v v' : CCoinsView} {undos : List (List CTxInUndo)}, LoopReady v vtx →
    BitBlocks.connectTxs nHeight v vtx = some (v', undos) →
    (v.get k).isPruned = false → (v'.get k).isPruned = true →
    ∃ us ∈ undos, ∃ u ∈ us, u.fCoinStake = (v.get k).fCoinStake
  | [], v, v', undos, _, h, hp, hp' => by
    simp only [BitBlocks.connectTxs, Option.some.injEq, Prod.mk.injEq] at h
    rw [h.1, hp'] at hp
    exact absurd hp (by simp)
  | tx :: vtx, v, v', undos, hr, h, hp, hp' => by
    obtain ⟨v1, u, us, rfl, hu, hrec⟩ := connectTxs_cons h
    have htx := hr.nonneg tx (by simp)
    have ha := updateCoins_applied hr.wf htx hu
    have hne : k ≠ tx.hash := by
      rintro rfl
      rw [hr.bip30 tx (by simp)] at hp
      exact absurd hp (by simp)
    cases hp1 : (v1.get k).isPruned with
    | false =>
      obtain ⟨us', hus', u', hu', he⟩ := connectTxs_emptied (hr.tail ha) hrec hp1 hp'
      exact ⟨us', List.mem_cons_of_mem _ hus', u', hu', by rw [he, (ha.meta_eq k hne).2.1]⟩
    | true =>
      obtain ⟨w, hmid, _, _, rfl⟩ := updateCoins_cases hr.wf hu
      rw [get_modify, if_neg hne] at hp1
      cases hcb : tx.isCoinBase with
      | true =>
        rw [hcb] at hmid
        simp only [if_true, Option.some.injEq, Prod.mk.injEq] at hmid
        rw [← hmid.1, hp] at hp1
        exact absurd hp1 (by simp)
      | false =>
        rw [hcb] at hmid
        simp only [Bool.false_eq_true, if_false] at hmid
        obtain ⟨u', hu', he⟩ := spendInputs_emptied hr.wf hmid hp hp1
        exact ⟨u, by simp, u', hu', he⟩

end BitBlocks
