import BitBlocks.Coins.Effect

/-!
# How far `DisconnectBlock` undoes `ConnectBlock`

The two walks visit the same transactions and inputs in opposite orders, so the
relation between them is carried from the *later* view to the earlier one:
if the view being disconnected simulates the view after a step, then what the
disconnecting step leaves simulates the view before it.

*Simulates* has to allow for one loss. `DisconnectBlock` rebuilds a fully spent
entry from the undo record field by field and does not copy `fCoinStake`, so an
entry that was rebuilt may have forgotten that flag and nothing else (`Sim`).
Which entries those are is known exactly (`lostBy`): the ones the block spent to
the last output. A second record is overloaded: `nHeight = 0` is how the code
recognises a record without metadata, so an entry created at height 0 cannot be
rebuilt at all, and the walk reports it as unclean.
-/

namespace BitBlocks

open Trimmed CCoinsView

/-! ## Entries that may have forgotten `fCoinStake` -/

namespace CCoins

/-- The entry with its coinstake flag lost. -/
def forget (lost : Bool) (c : CCoins) : CCoins := { c with fCoinStake := c.fCoinStake && !lost }

@[simp] theorem forget_false (c : CCoins) : c.forget false = c := by
  simp [forget]

@[simp] theorem forget_empty (lost : Bool) : CCoins.forget lost {} = {} := by
  simp [forget]

@[simp] theorem out_forget (lost : Bool) (c : CCoins) (i : Nat) : (c.forget lost).out i = c.out i :=
  rfl

@[simp] theorem isPruned_forget (lost : Bool) (c : CCoins) :
    (c.forget lost).isPruned = c.isPruned := rfl

@[simp] theorem isAvailable_forget (lost : Bool) (c : CCoins) (i : Nat) :
    (c.forget lost).isAvailable i = c.isAvailable i := rfl

theorem WF.forget {c : CCoins} (h : c.WF) (lost : Bool) : (c.forget lost).WF := h

theorem forget_eq_self {c : CCoins} {lost : Bool} (h : lost = true → c.fCoinStake = false) :
    c.forget lost = c := by
  cases lost with
  | false => simp
  | true => obtain ⟨a, s, vo, hh, v⟩ := c; simpa [CCoins.forget] using h rfl

end CCoins

/--
`w` reads as `v`, except that the entries in `lost` may have forgotten that they
belong to a coinstake.
-/
structure Sim (lost : Uint256 → Bool) (w v : CCoinsView) : Prop where
  left : w.WF
  right : v.WF
  entry : ∀ h, w.entry h = (v.entry h).forget (lost h)

variable {v w : CCoinsView} {lost : Uint256 → Bool}

theorem Sim.refl (hv : v.WF) : Sim (fun _ => false) v v := ⟨hv, hv, by simp⟩

theorem Sim.isPruned (h : Sim lost w v) (k : Uint256) :
    (w.get k).isPruned = (v.get k).isPruned := by
  rw [← isPruned_entry, h.entry, CCoins.isPruned_forget, isPruned_entry]

theorem Sim.out (h : Sim lost w v) (k : Uint256) (i : Nat) : (w.get k).out i = (v.get k).out i := by
  rw [← h.left.out_entry, h.entry, CCoins.out_forget, h.right.out_entry]

theorem Sim.isAvailable (h : Sim lost w v) (k : Uint256) (i : Nat) :
    (w.get k).isAvailable i = (v.get k).isAvailable i := by
  rw [Bool.eq_iff_iff, CCoins.isAvailable_iff, CCoins.isAvailable_iff, h.out]

theorem Sim.congr {lost' : Uint256 → Bool} (h : Sim lost w v)
    (he : ∀ k, (v.get k).isPruned = false → lost k = lost' k) : Sim lost' w v := by
  refine ⟨h.left, h.right, fun k => ?_⟩
  rw [h.entry]
  cases hp : (v.get k).isPruned with
  | true => rw [entry_of_isPruned hp]; simp
  | false => rw [he k hp]

theorem Sim.same_iff (h : Sim lost w v) :
    Same w v ↔ ∀ k, lost k = true → (v.entry k).fCoinStake = false := by
  constructor
  · intro hs k hk
    have := h.entry k
    rw [hs k, hk] at this
    have := congrArg CCoins.fCoinStake this
    simpa [CCoins.forget] using this
  · intro hk k
    rw [h.entry, CCoins.forget_eq_self (hk k)]

/-- The losses, once `v'` has been walked back to `v`: the entries `v'` had emptied. -/
def lostBy (lost : Uint256 → Bool) (v v' : CCoinsView) (k : Uint256) : Bool :=
  lost k || (!(v.get k).isPruned && (v'.get k).isPruned)

/-! ## Putting the inputs back -/

/-! `c` is what `Spend` left of the entry of `v`, and `w'` reads as the view after it. -/

section

variable {lost : Uint256 → Bool} {v w' : CCoinsView} {o : COutPoint} {c : CCoins} {u : CTxInUndo}

theorem spend_get (hv : v.WF) (hsp : (v.get o.hash).spend o.n = some (c, u)) :
    (v.get o.hash).isPruned = false ∧ (v.modify o.hash fun _ => c).get o.hash = c := by
  have hs := (hv.get o.hash).spend_some hsp
  refine ⟨CCoins.not_isPruned_iff.mpr ⟨o.n, hs.avail⟩, ?_⟩
  rw [get_modify, if_pos rfl, hs.wf.cleanup_eq]

/-- The output put back into `d`, which holds the rest and what is known of the metadata. -/
theorem sim_putBack (hv : v.WF) (hsp : (v.get o.hash).spend o.n = some (c, u))
    (hsim : Sim lost w' (v.modify o.hash fun _ => c)) {d : CCoins} (hd : d.Canonical)
    (hdout : ∀ i, i ≠ o.n → d.out i = (v.get o.hash).out i)
    (hdmeta : CCoins.SameMeta d ((v.get o.hash).forget
      (lostBy lost v (v.modify o.hash fun _ => c) o.hash))) :
    Sim (lostBy lost v (v.modify o.hash fun _ => c)) (w'.modify o.hash fun _ =>
        { d with vout := (grow CTxOut.null (o.n + 1) d.vout).set o.n u.txout }) v := by
  have hs := (hv.get o.hash).spend_some hsp
  have hutx : u.txout.isNull = false := by
    rw [hs.txout]
    exact CCoins.isAvailable_iff.mp hs.avail
  have hcan := CCoins.canonical_restore hd o.n hutx
  refine ⟨hsim.left.modify o.hash hcan, hv, fun k => ?_⟩
  by_cases hk : k = o.hash
  · subst hk
    rw [entry_of_not_isPruned (spend_get hv hsp).1]
    have hout : ∀ i, (CCoins.cleanup { d with
        vout := (grow CTxOut.null (o.n + 1) d.vout).set o.n u.txout }).out i
        = (v.get o.hash).out i := by
      intro i
      rw [hcan.out_cleanup, CCoins.out_restore]
      split
      · rename_i hi; rw [hi, hs.txout]
      · rename_i hi; exact hdout i hi
    have hnp : (CCoins.cleanup { d with
        vout := (grow CTxOut.null (o.n + 1) d.vout).set o.n u.txout }).isPruned = false := by
      refine CCoins.not_isPruned_iff.mpr ⟨o.n, ?_⟩
      rw [CCoins.isAvailable_iff, hout]
      exact CCoins.isAvailable_iff.mp hs.avail
    rw [entry_of_not_isPruned (by rw [get_modify, if_pos rfl]; exact hnp), get_modify, if_pos rfl]
    exact CCoins.WF.ext hcan.cleanup ((hv.get _).forget _) hdmeta.1 hdmeta.2.1 hdmeta.2.2.1
      hdmeta.2.2.2 hout
  · -- the other entries are as they were
    have hne : ∀ (x : CCoinsView) (f : CCoins → CCoins),
        (x.modify o.hash f).get k = x.get k := fun x f => by rw [get_modify, if_neg hk]
    have hent : ∀ (x : CCoinsView) (f : CCoins → CCoins),
        (x.modify o.hash f).entry k = x.entry k := fun x f => by
      unfold CCoinsView.entry; rw [hne]
    rw [hent, hsim.entry, hent]
    congr 1
    simp [lostBy, hne]

theorem restore_spend_last (hv : v.WF) (hsp : (v.get o.hash).spend o.n = some (c, u))
    (hsim : Sim lost w' (v.modify o.hash fun _ => c)) (hcp : c.isPruned = true) :
    ((w'.get o.hash).restore o.n u).2 = !decide ((v.get o.hash).nHeight = 0) ∧
      (((w'.get o.hash).restore o.n u).2 = true → Sim (lostBy lost v (v.modify o.hash fun _ => c))
          (w'.modify o.hash fun _ => ((w'.get o.hash).restore o.n u).1) v) := by
  have hs := (hv.get o.hash).spend_some hsp
  obtain ⟨hnot, hget⟩ := spend_get hv hsp
  have hpr : (w'.get o.hash).isPruned = true := by rw [hsim.isPruned, hget, hcp]
  obtain ⟨hu1, _, hu3, hu4⟩ := hs.last hcp
  by_cases h0 : (v.get o.hash).nHeight = 0
  · -- the record looks like one without metadata, and there is nothing to add to
    have hok : ((w'.get o.hash).restore o.n u).2 = false := by
      simp [CCoins.restore, hu3, h0, hpr]
    exact ⟨by rw [hok]; simp [h0], by rw [hok]; simp⟩
  · have hr : (w'.get o.hash).restore o.n u =
        ({ fCoinBase := u.fCoinBase, nHeight := u.nHeight, nVersion := u.nVersion,
           vout := (grow CTxOut.null (o.n + 1) []).set o.n u.txout }, true) := by
      simp [CCoins.restore, hu3, h0, hpr, CCoins.isAvailable]
    refine ⟨by rw [hr]; simp [h0], fun _ => ?_⟩
    rw [hr]
    refine sim_putBack hv hsp hsim
      (d := { fCoinBase := u.fCoinBase, nHeight := u.nHeight, nVersion := u.nVersion })
      (by intro a ha; simp at ha) ?_ ?_
    · intro i hi
      have hci : (c.out i).isNull = true := CCoins.isPruned_iff.mp hcp i
      have hco := hs.out i
      rw [if_neg hi] at hco
      rw [hco] at hci
      rw [(hv.get o.hash).out_eq_null hci]
      simp [CCoins.out]
    · have hl : lostBy lost v (v.modify o.hash fun _ => c) o.hash = true := by
        simp [lostBy, hget, hcp, hnot]
      rw [hl]
      exact ⟨hu1, by simp [CCoins.forget], hu3, hu4⟩

theorem restore_spend_notLast (hv : v.WF) (hsp : (v.get o.hash).spend o.n = some (c, u))
    (hsim : Sim lost w' (v.modify o.hash fun _ => c)) (hcp : c.isPruned = false) :
    ((w'.get o.hash).restore o.n u).2 = true ∧ Sim (lostBy lost v (v.modify o.hash fun _ => c))
        (w'.modify o.hash fun _ => ((w'.get o.hash).restore o.n u).1) v := by
  have hs := (hv.get o.hash).spend_some hsp
  obtain ⟨-, hget⟩ := spend_get hv hsp
  have hpr : (w'.get o.hash).isPruned = false := by rw [hsim.isPruned, hget, hcp]
  have hwav : (w'.get o.hash).isAvailable o.n = false := by
    rw [hsim.isAvailable, hget]
    simpa using (hs.isAvailable (i := o.n)).not.mpr (by simp)
  have hr : (w'.get o.hash).restore o.n u =
      ({ w'.get o.hash with
         vout := (grow CTxOut.null (o.n + 1) (w'.get o.hash).vout).set o.n u.txout }, true) := by
    have : u.nHeight = 0 := by rw [hs.notLast hcp]
    simp [CCoins.restore, this, hpr, hwav]
  rw [hr]
  refine ⟨rfl, sim_putBack hv hsp hsim (hsim.left.get o.hash).canonical ?_ ?_⟩
  · intro i hi
    rw [hsim.out, hget, hs.out, if_neg hi]
  · have hl : lostBy lost v (v.modify o.hash fun _ => c) o.hash = lost o.hash := by
      simp [lostBy, hget, hcp]
    have hwe : w'.get o.hash = c.forget (lost o.hash) := by
      rw [← entry_of_not_isPruned hpr, hsim.entry,
        entry_of_not_isPruned (by rw [hget]; exact hcp), hget]
    rw [hl, hwe]
    exact ⟨hs.meta_eq.1, by simp [CCoins.forget, hs.meta_eq.2.1], hs.meta_eq.2.2.1,
      hs.meta_eq.2.2.2⟩

/-- **One restored input.** -/
theorem restore_spend (hv : v.WF) (hsp : (v.get o.hash).spend o.n = some (c, u))
    (hsim : Sim lost w' (v.modify o.hash fun _ => c)) :
    ((w'.get o.hash).restore o.n u).2 = !(c.isPruned && decide ((v.get o.hash).nHeight = 0)) ∧
      (((w'.get o.hash).restore o.n u).2 = true → Sim (lostBy lost v (v.modify o.hash fun _ => c))
          (w'.modify o.hash fun _ => ((w'.get o.hash).restore o.n u).1) v) := by
  cases hcp : c.isPruned with
  | true =>
    rw [Bool.true_and]
    exact restore_spend_last hv hsp hsim hcp
  | false =>
    obtain ⟨hok, hsim'⟩ := restore_spend_notLast hv hsp hsim hcp
    exact ⟨hok, fun _ => hsim'⟩

end

/-- Every entry emptied between the two views has a height its undo record can carry. -/
def HeightsKept (v v' : CCoinsView) : Prop :=
  ∀ k, (v.get k).isPruned = false → (v'.get k).isPruned = true → (v.get k).nHeight ≠ 0

theorem lostBy_lostBy {lost : Uint256 → Bool} {v v1 v' : CCoinsView} {k : Uint256}
    (h1 : (v.get k).isPruned = true → (v1.get k).isPruned = true)
    (h2 : (v1.get k).isPruned = true → (v'.get k).isPruned = true) :
    lostBy (lostBy lost v1 v') v v1 k = lostBy lost v v' k := by
  unfold lostBy
  cases hv : (v.get k).isPruned with
  | true => simp [h1 hv]
  | false =>
    cases hv1 : (v1.get k).isPruned with
    | true => simp [h2 hv1]
    | false => simp

/-- The heights that matter are those of the rest, and of the spent entry if it is now empty. -/
theorem heightsKept_spend {v v' : CCoinsView} {o : COutPoint} {c : CCoins} {u : CTxInUndo}
    (hv : v.WF) (hsp : (v.get o.hash).spend o.n = some (c, u))
    (hpruned : ∀ k, ((v.modify o.hash fun _ => c).get k).isPruned = true →
      (v'.get k).isPruned = true) :
    HeightsKept v v' ↔ HeightsKept (v.modify o.hash fun _ => c) v' ∧
      (c.isPruned = true → (v.get o.hash).nHeight ≠ 0) := by
  have hbl := blanked_spend hv hsp
  obtain ⟨hnot, hget⟩ := spend_get hv hsp
  constructor
  · intro hk
    refine ⟨fun k hp hp' => ?_, fun hcp => ?_⟩
    · rw [(hbl.meta_eq k).2.2.1]
      exact hk k (hbl.not_isPruned hp) hp'
    · exact hk _ hnot (hpruned _ (by rw [hget]; exact hcp))
  · rintro ⟨hk, hc0⟩ k hp hp'
    cases hp1 : ((v.modify o.hash fun _ => c).get k).isPruned with
    | false =>
      rw [← (hbl.meta_eq k).2.2.1]
      exact hk k hp1 hp'
    | true =>
      by_cases hke : k = o.hash
      · subst hke
        rw [hget] at hp1
        exact hc0 hp1
      · rw [get_modify, if_neg hke, hp] at hp1
        exact absurd hp1 (by simp)

/-- **Restoring the inputs of a transaction undoes spending them.** -/
theorem restoreInputs_spendInputs {lost : Uint256 → Bool} {w' : CCoinsView} {b : Bool} :
    ∀ {vin : List CTxIn} {v v' : CCoinsView} {undos : List CTxInUndo}, v.WF →
    spendInputs v vin = some (v', undos) → Sim lost w' v' →
    ((restoreInputs (vin.zip undos) (w', b)).2 = true ↔ b = true ∧ HeightsKept v v') ∧
      ((restoreInputs (vin.zip undos) (w', b)).2 = true →
        Sim (lostBy lost v v') (restoreInputs (vin.zip undos) (w', b)).1 v)
  | [], v, v', undos, hv, h, hsim => by
    simp only [spendInputs, Option.some.injEq, Prod.mk.injEq] at h
    obtain ⟨rfl, rfl⟩ := h
    refine ⟨?_, fun _ => ?_⟩
    · simp only [List.zip_nil_right, restoreInputs, iff_self_and]
      intro _ k hk hk'
      rw [hk] at hk'; exact absurd hk' (by simp)
    · simp only [List.zip_nil_right, restoreInputs]
      exact hsim.congr fun k hk => by simp [lostBy, hk]
  | txin :: vin, v, v', undos, hv, h, hsim => by
    obtain ⟨c, u, us, hc, hrec, rfl⟩ := spendInputs_cons h
    have hbl := blanked_spend hv hc
    have hbl2 := (spendInputs_blanked hbl.wf hrec).1
    obtain ⟨hflag, hsim1⟩ := restoreInputs_spendInputs (b := b) hbl.wf hrec hsim
    have hsplit := heightsKept_spend hv hc fun _ => hbl2.isPruned
    rw [List.zip_cons_cons, restoreInputs]
    dsimp only
    constructor
    · rw [Bool.and_eq_true, hflag, hsplit, and_assoc]
      refine and_congr_right fun hb => and_congr_right fun hk => ?_
      have hr := (restore_spend hv hc (hsim1 (hflag.mpr ⟨hb, hk⟩))).1
      rw [hr]
      cases c.isPruned <;> simp
    · rw [Bool.and_eq_true]
      rintro ⟨hf, hok⟩
      refine ((restore_spend hv hc (hsim1 hf)).2 hok).congr fun k _ => ?_
      exact lostBy_lostBy hbl.isPruned hbl2.isPruned

end BitBlocks
