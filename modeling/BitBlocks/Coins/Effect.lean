import BitBlocks.Coins.View

/-!
# What `UpdateCoins` does to a view

Spec lemmas for the forward direction, stated through `CCoins.out`: spending
blanks exactly the listed outpoints and touches no metadata, and a transaction
then writes exactly one entry, its own. Later files cite these and never unfold
the loops again.
-/

namespace BitBlocks

namespace CCoins

theorem WF.out_eq_null {c : CCoins} (hc : c.WF) {n : Nat} (h : (c.out n).isNull = true) :
    c.out n = CTxOut.null := by
  unfold CCoins.out at h ⊢
  rcases Nat.lt_or_ge n c.vout.length with hn | hn
  · rw [List.getD_eq_getElem _ _ hn] at h ⊢
    exact hc.canonical _ (List.getElem_mem hn) h
  · exact List.getD_eq_default _ _ hn

/-- The same transaction's entry, whatever is left of it. -/
def SameMeta (a b : CCoins) : Prop :=
  a.fCoinBase = b.fCoinBase ∧ a.fCoinStake = b.fCoinStake ∧ a.nHeight = b.nHeight
    ∧ a.nVersion = b.nVersion

theorem SameMeta.refl (c : CCoins) : SameMeta c c := ⟨rfl, rfl, rfl, rfl⟩

theorem SameMeta.trans {a b c : CCoins} (h : SameMeta a b) (h' : SameMeta b c) : SameMeta a c :=
  ⟨h.1.trans h'.1, h.2.1.trans h'.2.1, h.2.2.1.trans h'.2.2.1, h.2.2.2.trans h'.2.2.2⟩

end CCoins

namespace CCoinsView

/-- `w` is `v` with exactly the outpoints `os` blanked. -/
structure Blanked (v w : CCoinsView) (os : List COutPoint) : Prop where
  wf : w.WF
  /-- Every outpoint was there to be spent. -/
  avail : ∀ o ∈ os, (v.get o.hash).isAvailable o.n = true
  out : ∀ h n, (w.get h).out n = if ⟨h, n⟩ ∈ os then CTxOut.null else (v.get h).out n
  meta_eq : ∀ h, CCoins.SameMeta (w.get h) (v.get h)

variable {v : CCoinsView}

theorem Blanked.nil (hv : v.WF) : Blanked v v [] :=
  ⟨hv, by simp, by simp, fun _ => CCoins.SameMeta.refl _⟩

theorem blanked_spend (hv : v.WF) {o : COutPoint} {c : CCoins} {u : CTxInUndo}
    (h : (v.get o.hash).spend o.n = some (c, u)) : Blanked v (v.modify o.hash fun _ => c) [o] := by
  have hs := (hv.get o.hash).spend_some h
  refine ⟨hv.modify o.hash hs.wf.canonical, ?_, ?_, ?_⟩
  · intro o' ho'
    rw [List.mem_singleton.mp ho']
    exact hs.avail
  · intro h' n
    rw [get_modify]
    by_cases hh : h' = o.hash
    · subst hh
      rw [if_pos rfl, hs.wf.cleanup_eq, hs.out]
      refine if_congr ?_ rfl rfl
      rw [List.mem_singleton]
      constructor
      · rintro rfl; rfl
      · intro he; exact congrArg COutPoint.n he
    · rw [if_neg hh, if_neg]
      rw [List.mem_singleton]
      rintro rfl
      exact hh rfl
  · intro h'
    rw [get_modify]
    by_cases hh : h' = o.hash
    · subst hh
      rw [if_pos rfl, hs.wf.cleanup_eq]
      exact hs.meta_eq
    · rw [if_neg hh]; exact CCoins.SameMeta.refl _

variable {w : CCoinsView} {os : List COutPoint} {k : Uint256}

theorem Blanked.isAvailable (h : Blanked v w os) (k : Uint256) (n : Nat) :
    (w.get k).isAvailable n = true ↔ (v.get k).isAvailable n = true ∧ ⟨k, n⟩ ∉ os := by
  simp only [CCoins.isAvailable_iff, h.out]
  by_cases hm : (⟨k, n⟩ : COutPoint) ∈ os <;> simp [hm]

theorem Blanked.trans {x : CCoinsView} {os' : List COutPoint} (h : Blanked v w os)
    (h' : Blanked w x os') : Blanked v x (os ++ os') := by
  refine ⟨h'.wf, ?_, ?_, fun k => (h'.meta_eq k).trans (h.meta_eq k)⟩
  · intro o ho
    rcases List.mem_append.mp ho with hm | hm
    · exact h.avail o hm
    · exact ((h.isAvailable o.hash o.n).mp (h'.avail o hm)).1
  · intro k n
    rw [h'.out, h.out]
    by_cases h1 : (⟨k, n⟩ : COutPoint) ∈ os <;> by_cases h2 : (⟨k, n⟩ : COutPoint) ∈ os' <;>
      simp [h1, h2]

theorem Blanked.isPruned (h : Blanked v w os) (hp : (v.get k).isPruned = true) :
    (w.get k).isPruned = true := by
  rw [CCoins.isPruned_iff] at hp ⊢
  intro n
  rw [h.out]
  split
  · rfl
  · exact hp n

theorem Blanked.not_isPruned (h : Blanked v w os) (hp : (w.get k).isPruned = false) :
    (v.get k).isPruned = false := by
  by_contra hc
  rw [Bool.not_eq_false] at hc
  rw [h.isPruned hc] at hp
  exact absurd hp (by simp)

end CCoinsView

open CCoinsView

/-- **Spending the inputs blanks exactly their outpoints.** -/
theorem spendInputs_blanked : ∀ {vin : List CTxIn} {v v' : CCoinsView} {undos : List CTxInUndo},
    v.WF → spendInputs v vin = some (v', undos) →
    Blanked v v' (vin.map CTxIn.prevout) ∧ (vin.map CTxIn.prevout).Nodup ∧ undos.length = vin.length
  | [], v, v', undos, hv, h => by
    simp only [spendInputs, Option.some.injEq, Prod.mk.injEq] at h
    obtain ⟨rfl, rfl⟩ := h
    exact ⟨Blanked.nil hv, by simp, rfl⟩
  | txin :: vin, v, v', undos, hv, h => by
    obtain ⟨c, u, us, hc, hrec, rfl⟩ := spendInputs_cons h
    have h1 := blanked_spend hv hc
    obtain ⟨h2, hnd, hlen⟩ := spendInputs_blanked h1.wf hrec
    refine ⟨by simpa using h1.trans h2, ?_, by simp [hlen]⟩
    -- an outpoint listed twice would not be available the second time
    rw [List.map_cons, List.nodup_cons]
    refine ⟨fun hm => ?_, hnd⟩
    have := ((h1.isAvailable _ _).mp (h2.avail _ hm)).2
    exact this (by simp)

/-- The outpoints a transaction spends; a coinbase spends none. -/
def CTransaction.spends (tx : CTransaction) : List COutPoint :=
  if tx.isCoinBase then [] else tx.vin.map CTxIn.prevout

variable {v' : CCoinsView} {txundo : List CTxInUndo} {k : Uint256} {undos : List (List CTxInUndo)}

variable {tx : CTransaction} {v v1 : CCoinsView} {nHeight : Int} {vtx : List CTransaction}

theorem updateCoins_cases (hv : v.WF) (h : updateCoins tx v nHeight = some (v', txundo)) :
    ∃ w, (if tx.isCoinBase then some (v, []) else spendInputs v tx.vin) = some (w, txundo)
      ∧ Blanked v w tx.spends ∧ tx.spends.Nodup
      ∧ v' = w.modify tx.hash fun _ => CCoins.fromTx tx nHeight := by
  unfold updateCoins at h
  split at h
  · simp at h
  · rename_i w u hw
    simp only [Option.some.injEq, Prod.mk.injEq] at h
    obtain ⟨rfl, rfl⟩ := h
    unfold CTransaction.spends
    cases hcb : tx.isCoinBase with
    | true =>
      rw [hcb] at hw
      simp only [if_true, Option.some.injEq, Prod.mk.injEq] at hw
      obtain ⟨rfl, rfl⟩ := hw
      exact ⟨v, rfl, Blanked.nil hv, List.nodup_nil, rfl⟩
    | false =>
      rw [hcb] at hw
      simp only [Bool.false_eq_true, if_false] at hw
      have hs := spendInputs_blanked hv hw
      exact ⟨w, hw, hs.1, hs.2.1, rfl⟩

/-- **What one `UpdateCoins` does to a view**: blank what the transaction spends, write its
entry. -/
structure TxApplied (tx : CTransaction) (nHeight : Int) (v v' : CCoinsView) : Prop where
  wf : v'.WF
  nodup : tx.spends.Nodup
  avail : ∀ o ∈ tx.spends, (v.get o.hash).isAvailable o.n = true
  own : v'.get tx.hash = CCoins.fromTx tx nHeight
  out : ∀ k, k ≠ tx.hash → ∀ n,
    (v'.get k).out n = if ⟨k, n⟩ ∈ tx.spends then CTxOut.null else (v.get k).out n
  meta_eq : ∀ k, k ≠ tx.hash → CCoins.SameMeta (v'.get k) (v.get k)

theorem updateCoins_applied (hv : v.WF) (htx : tx.OutputsNonneg)
    (h : updateCoins tx v nHeight = some (v', txundo)) : TxApplied tx nHeight v v' := by
  obtain ⟨w, _, hbl, hnd, rfl⟩ := updateCoins_cases hv h
  have hwf := CCoins.fromTx_wf htx nHeight
  have hne : ∀ k, k ≠ tx.hash →
      (w.modify tx.hash fun _ => CCoins.fromTx tx nHeight).get k = w.get k :=
    fun k hk => by rw [get_modify, if_neg hk]
  refine ⟨hbl.wf.modify tx.hash hwf.canonical, hnd, hbl.avail, ?_, ?_, ?_⟩
  · rw [get_modify, if_pos rfl, hwf.cleanup_eq]
  · intro k hk n
    rw [hne k hk, hbl.out]
  · intro k hk
    rw [hne k hk]
    exact hbl.meta_eq k

/-! ## A whole block -/

/-- The outpoints a list of transactions spends. -/
def spendsOf (vtx : List CTransaction) : List COutPoint := vtx.flatMap CTransaction.spends

@[simp] theorem spendsOf_cons (tx : CTransaction) (vtx : List CTransaction) :
    spendsOf (tx :: vtx) = tx.spends ++ spendsOf vtx := by simp [spendsOf]

/-- The view with the entries of `vtx` written over it and nothing spent yet. -/
def created (nHeight : Int) (vtx : List CTransaction) (v : CCoinsView) : CCoinsView := fun k =>
  match vtx.find? fun tx => tx.hash == k with
  | some tx => some (CCoins.fromTx tx nHeight)
  | none => v k

/--
What `CheckBlock` and the BIP30 loop have established about a list of
transactions by the time it is connected.
-/
structure LoopReady (v : CCoinsView) (vtx : List CTransaction) : Prop where
  wf : v.WF
  nonneg : ∀ tx ∈ vtx, tx.OutputsNonneg
  /-- "tried to overwrite transaction": no txid of the block has coins left. -/
  bip30 : ∀ tx ∈ vtx, (v.get tx.hash).isPruned = true
  nodup : (vtx.map CTransaction.hash).Nodup

theorem get_created_of_notMem (h : k ∉ vtx.map CTransaction.hash) :
    (created nHeight vtx v).get k = v.get k := by
  have hf : vtx.find? (fun tx => tx.hash == k) = none := by
    refine List.find?_eq_none.mpr fun tx htx hk => ?_
    exact h (List.mem_map.mpr ⟨tx, htx, by simpa using hk⟩)
  simp only [created, CCoinsView.get, hf]

theorem get_created_of_mem (hnd : (vtx.map CTransaction.hash).Nodup) (h : tx ∈ vtx) :
    (created nHeight vtx v).get tx.hash = CCoins.fromTx tx nHeight := by
  have hf : vtx.find? (fun tx' => tx'.hash == tx.hash) = some tx := by
    cases hq : vtx.find? fun tx' => tx'.hash == tx.hash with
    | none =>
      have := List.find?_eq_none.mp hq tx h
      simp at this
    | some tx' =>
      have h1 : tx'.hash = tx.hash := by simpa using List.find?_some hq
      exact congrArg some (List.inj_on_of_nodup_map hnd (List.mem_of_find?_eq_some hq) h h1)
  simp only [created, CCoinsView.get, hf, Option.getD_some]

theorem created_wf (h : LoopReady v vtx) : (created nHeight vtx v).WF := by
  intro k c hc
  unfold created at hc
  split at hc
  · rename_i tx hf
    rw [← Option.some.inj hc]
    exact CCoins.fromTx_wf (h.nonneg tx (List.mem_of_find?_eq_some hf)) nHeight
  · exact h.wf k c hc

theorem LoopReady.notMem (h : LoopReady v vtx) {n : Nat} (ha : (v.get k).isAvailable n = true) :
    k ∉ vtx.map CTransaction.hash := by
  intro hk
  obtain ⟨tx, htx, rfl⟩ := List.mem_map.mp hk
  have := CCoins.not_isPruned_iff.mpr ⟨n, ha⟩
  rw [h.bip30 tx htx] at this
  exact absurd this (by simp)

theorem LoopReady.nil (hv : v.WF) : LoopReady v [] := ⟨hv, by simp, by simp, by simp⟩

theorem LoopReady.tail (h : LoopReady v (tx :: vtx)) (ha : TxApplied tx nHeight v v1) :
    LoopReady v1 vtx := by
  have hnd := h.nodup
  rw [List.map_cons, List.nodup_cons] at hnd
  refine ⟨ha.wf, fun t ht => h.nonneg t (by simp [ht]), fun t ht => ?_, hnd.2⟩
  have hne : t.hash ≠ tx.hash := fun he => hnd.1 (List.mem_map.mpr ⟨t, ht, he⟩)
  have hp := h.bip30 t (by simp [ht])
  rw [CCoins.isPruned_iff] at hp ⊢
  intro n
  rw [ha.out _ hne]
  split
  · rfl
  · exact hp n

/--
Moving one transaction from the overlay into the view changes the overlay at most
outside the block's own txids, and there it reads the view.
-/
theorem TxApplied.created_cases (h : LoopReady v (tx :: vtx)) (ha : TxApplied tx nHeight v v1)
    (k : Uint256) :
    (k ∈ (tx :: vtx).map CTransaction.hash ∧
        (created nHeight vtx v1).get k = (created nHeight (tx :: vtx) v).get k) ∨
      (k ∉ (tx :: vtx).map CTransaction.hash ∧ (created nHeight vtx v1).get k = v1.get k ∧
        (created nHeight (tx :: vtx) v).get k = v.get k) := by
  have hnd := h.nodup
  rw [List.map_cons, List.nodup_cons] at hnd
  by_cases hk : k ∈ (tx :: vtx).map CTransaction.hash
  · refine Or.inl ⟨hk, ?_⟩
    obtain ⟨t, ht, rfl⟩ := List.mem_map.mp hk
    rw [get_created_of_mem h.nodup ht]
    rcases List.mem_cons.mp ht with rfl | ht'
    · rw [get_created_of_notMem hnd.1, ha.own]
    · rw [get_created_of_mem hnd.2 ht']
  · refine Or.inr ⟨hk, ?_, get_created_of_notMem hk⟩
    exact get_created_of_notMem fun hk' => hk (List.mem_cons_of_mem _ hk')

theorem TxApplied.blanked (h : LoopReady v (tx :: vtx)) (ha : TxApplied tx nHeight v v1) :
    Blanked (created nHeight (tx :: vtx) v) (created nHeight vtx v1) tx.spends := by
  have hown : ∀ {k n}, k ∈ (tx :: vtx).map CTransaction.hash → (⟨k, n⟩ : COutPoint) ∉ tx.spends :=
    fun hk hm => h.notMem (ha.avail _ hm) hk
  refine ⟨created_wf (h.tail ha), ?_, ?_, ?_⟩
  · intro o ho
    rw [get_created_of_notMem (h.notMem (ha.avail o ho))]
    exact ha.avail o ho
  · intro k n
    rcases ha.created_cases h k with ⟨hk, he⟩ | ⟨hk, h1, h2⟩
    · rw [he, if_neg (hown hk)]
    · rw [h1, h2, ha.out k fun he => hk (by simp [he])]
  · intro k
    rcases ha.created_cases h k with ⟨_, he⟩ | ⟨hk, h1, h2⟩
    · rw [he]; exact CCoins.SameMeta.refl _
    · rw [h1, h2]; exact ha.meta_eq k fun he => hk (by simp [he])

theorem connectTxs_cons (h : connectTxs nHeight v (tx :: vtx) = some (v', undos)) :
    ∃ v1 txundo rest, undos = txundo :: rest ∧ updateCoins tx v nHeight = some (v1, txundo)
      ∧ connectTxs nHeight v1 vtx = some (v', rest) := by
  rw [connectTxs] at h
  split at h
  · simp at h
  · rename_i v1 u hu
    split at h
    · simp at h
    · rename_i v2 us hrec
      simp only [Option.some.injEq, Prod.mk.injEq] at h
      obtain ⟨rfl, rfl⟩ := h
      exact ⟨v1, u, us, rfl, hu, hrec⟩

/--
**What the loop of `ConnectBlock` does to a view.** It writes the entries of all
the block's transactions and blanks the outpoints they spend, each once; the
order, and which of them spend each other, has dropped out.
-/
theorem connectTxs_blanked {nHeight : Int} : ∀ {vtx : List CTransaction} {v v' : CCoinsView}
    {undos : List (List CTxInUndo)}, LoopReady v vtx →
    connectTxs nHeight v vtx = some (v', undos) →
    Blanked (created nHeight vtx v) v' (spendsOf vtx) ∧ (spendsOf vtx).Nodup
  | [], v, v', undos, hr, h => by
    simp only [connectTxs, Option.some.injEq, Prod.mk.injEq] at h
    obtain ⟨rfl, rfl⟩ := h
    exact ⟨Blanked.nil hr.wf, List.nodup_nil⟩
  | tx :: vtx, v, v', undos, hr, h => by
    obtain ⟨v1, u, us, rfl, hu, hrec⟩ := connectTxs_cons h
    have ha := updateCoins_applied hr.wf (hr.nonneg tx (by simp)) hu
    obtain ⟨hbl, hnd⟩ := connectTxs_blanked (hr.tail ha) hrec
    have h1 := TxApplied.blanked hr ha
    rw [spendsOf_cons]
    refine ⟨h1.trans hbl, List.nodup_append.mpr ⟨ha.nodup, hnd, ?_⟩⟩
    -- an outpoint spent earlier in the block is not available any more
    rintro o ho _ ho' rfl
    exact ((h1.isAvailable _ _).mp (hbl.avail o ho')).2 ho

theorem connectTxs_wf (hr : LoopReady v vtx) (h : connectTxs nHeight v vtx = some (v', undos)) :
    v'.WF :=
  (connectTxs_blanked hr h).1.wf

/-! ## No txid occurs twice in a block that connects -/

/--
With `done` applied and `vtx` to come: what was spent is gone and cannot come back, because
the only entries still to be written are empty.
-/
structure Underway (done vtx : List CTransaction) (v : CCoinsView) : Prop where
  fresh : ∀ tx ∈ vtx, tx.hash ∉ done.map CTransaction.hash → (v.get tx.hash).isPruned = true
  gone : ∀ o ∈ spendsOf done, (v.get o.hash).isAvailable o.n = false
  back : ∀ o ∈ spendsOf done, ∀ tx ∈ vtx, tx.hash = o.hash → tx.hash ∈ done.map CTransaction.hash

section

variable {done vtx : List CTransaction} {tx : CTransaction} {nHeight : Int} {v v1 : CCoinsView}

theorem Underway.new (h : Underway done (tx :: vtx) v) (hf : TxidsFaithful (done ++ tx :: vtx))
    (ha : TxApplied tx nHeight v v1) (hs : tx.spends ≠ []) :
    tx.hash ∉ done.map CTransaction.hash := by
  intro hm
  obtain ⟨p, hp, hpe⟩ := List.mem_map.mp hm
  obtain rfl : p = tx := hf p (by simp [hp]) tx (by simp) hpe
  obtain ⟨o, ho⟩ := List.exists_mem_of_ne_nil _ hs
  have hgone := h.gone o (List.mem_flatMap.mpr ⟨p, hp, ho⟩)
  rw [ha.avail o ho] at hgone
  exact absurd hgone (by simp)

theorem Underway.spends_done (h : Underway done (tx :: vtx) v) (ha : TxApplied tx nHeight v v1) :
    ∀ o ∈ tx.spends, ∀ t ∈ tx :: vtx, t.hash = o.hash → t.hash ∈ done.map CTransaction.hash := by
  intro o ho t ht he
  by_contra hc
  have hp := h.fresh t ht hc
  rw [he, ← Bool.not_eq_false] at hp
  exact hp (CCoins.not_isPruned_iff.mpr ⟨o.n, ha.avail o ho⟩)

/-- **One transaction.** -/
theorem Underway.step (h : Underway done (tx :: vtx) v) (ha : TxApplied tx nHeight v v1)
    (hnew : tx.hash ∉ done.map CTransaction.hash) : Underway (tx :: done) vtx v1 where
  fresh := by
    intro t ht hnt
    simp only [List.map_cons, List.mem_cons, not_or] at hnt
    have hp := h.fresh t (by simp [ht]) hnt.2
    rw [CCoins.isPruned_iff] at hp ⊢
    intro n
    rw [ha.out _ hnt.1]
    split
    · rfl
    · exact hp n
  gone := by
    intro o ho
    rw [spendsOf_cons, List.mem_append] at ho
    -- the transaction does not write what was spent
    have hoh : o.hash ≠ tx.hash := by
      intro he
      rcases ho with ho | ho
      · exact hnew (h.spends_done ha o ho tx (by simp) he.symm)
      · exact hnew (h.back o ho tx (by simp) he.symm)
    rw [← Bool.not_eq_true, CCoins.isAvailable_iff, ha.out _ hoh]
    rcases ho with ho | ho
    · rw [if_pos ho]; simp
    · split
      · simp
      · have hgone := h.gone o ho
        rwa [← Bool.not_eq_true, CCoins.isAvailable_iff] at hgone
  back := by
    intro o ho t ht he
    rw [spendsOf_cons, List.mem_append] at ho
    rcases ho with ho | ho
    · exact List.mem_cons_of_mem _ (h.spends_done ha o ho t (by simp [ht]) he)
    · exact List.mem_cons_of_mem _ (h.back o ho t (by simp [ht]) he)

end

theorem nodup_of_connectTxs {nHeight : Int} : ∀ (done : List CTransaction)
    {vtx : List CTransaction} {v v' : CCoinsView} {undos : List (List CTxInUndo)}, v.WF →
    (∀ tx ∈ vtx, tx.OutputsNonneg ∧ tx.spends ≠ []) → TxidsFaithful (done ++ vtx) →
    Underway done vtx v → connectTxs nHeight v vtx = some (v', undos) →
    (vtx.map CTransaction.hash).Nodup ∧ ∀ tx ∈ vtx, tx.hash ∉ done.map CTransaction.hash
  | done, [], v, v', undos, _, _, _, _, _ => ⟨List.nodup_nil, by simp⟩
  | done, tx :: vtx, v, v', undos, hv, htx, hf, hway, h => by
    obtain ⟨v1, u, us, rfl, hu, hrec⟩ := connectTxs_cons h
    have ha := updateCoins_applied hv (htx tx (by simp)).1 hu
    have hnew := hway.new hf ha (htx tx (by simp)).2
    have hrest := nodup_of_connectTxs (tx :: done) ha.wf (fun t ht => htx t (by simp [ht]))
      (hf.subset fun t ht => by simp at ht ⊢; tauto) (hway.step ha hnew) hrec
    refine ⟨List.nodup_cons.mpr ⟨fun hm => ?_, hrest.1⟩, fun t ht => ?_⟩
    · obtain ⟨t, ht, hte⟩ := List.mem_map.mp hm
      exact hrest.2 t ht (by simp [hte])
    · rcases List.mem_cons.mp ht with rfl | ht'
      · exact hnew
      · exact fun hm => hrest.2 t ht' (List.mem_cons_of_mem _ hm)

/--
What `CheckBlock`, `CheckTransaction` and the BIP30 loop have established when
the loop of `ConnectBlock` starts.
-/
structure LoopChecked (v : CCoinsView) (vtx : List CTransaction) : Prop where
  wf : v.WF
  /-- "first tx is not coinbase" and "more than one coinbase". -/
  coinbase : ∃ cb rest, vtx = cb :: rest ∧ cb.isCoinBase = true ∧ ∀ tx ∈ rest, tx.isCoinBase = false
  nonneg : ∀ tx ∈ vtx, tx.OutputsNonneg
  vin : ∀ tx ∈ vtx, tx.vin ≠ []
  bip30 : ∀ tx ∈ vtx, (v.get tx.hash).isPruned = true

theorem LoopChecked.loopReady {nHeight : Int} {v v' : CCoinsView} {vtx : List CTransaction}
    {undos : List (List CTxInUndo)} (h : LoopChecked v vtx) (hf : TxidsFaithful vtx)
    (hc : connectTxs nHeight v vtx = some (v', undos)) : LoopReady v vtx := by
  refine ⟨h.wf, h.nonneg, h.bip30, ?_⟩
  obtain ⟨cb, rest, rfl, hcb, hrest⟩ := h.coinbase
  obtain ⟨v1, u, us, rfl, hu, hrec⟩ := connectTxs_cons hc
  have ha := updateCoins_applied h.wf (h.nonneg cb (by simp)) hu
  have hspend : cb.spends = [] := by simp [CTransaction.spends, hcb]
  have hn := nodup_of_connectTxs [cb] ha.wf (fun t ht => ?_) hf
    ⟨?_, by simp [spendsOf, hspend], by simp [spendsOf, hspend]⟩ hrec
  · refine List.nodup_cons.mpr ⟨fun hm => ?_, hn.1⟩
    obtain ⟨t, ht, hte⟩ := List.mem_map.mp hm
    exact hn.2 t ht (by simp [hte])
  · refine ⟨h.nonneg t (by simp [ht]), ?_⟩
    simp only [CTransaction.spends, hrest t ht, Bool.false_eq_true, if_false, ne_eq,
      List.map_eq_nil_iff]
    exact h.vin t (by simp [ht])
  · intro t ht hnt
    have hne : t.hash ≠ cb.hash := fun he => hnt (by simp [he])
    have hp := h.bip30 t (by simp [ht])
    rw [CCoins.isPruned_iff] at hp ⊢
    intro n
    rw [ha.out _ hne, hspend]
    simpa using hp n

end BitBlocks
