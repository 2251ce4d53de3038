import BitBlocks.Coins.View

/-!
# Where an output comes from

An output that is there after a block was connected was there before, or the block created
it; after a block was disconnected it was there before, or the block had spent it. Nothing
is asked of the view or the block here: what is not there cannot be spent.
-/

namespace BitBlocks

open Trimmed

namespace CCoins

variable {c c' : CCoins} {n i : Nat} {undo : CTxInUndo}

theorem isAvailable_of_cleanup (h : c.cleanup.isAvailable i = true) : c.isAvailable i = true := by
  obtain ⟨rest, hrest⟩ := List.rdropWhile_prefix CTxOut.isNull c.vout
  unfold isAvailable out cleanup trim at h
  unfold isAvailable out
  dsimp only at h
  obtain ⟨hlt, hout⟩ := Bool.and_eq_true_iff.mp h
  have hlt := of_decide_eq_true hlt
  rw [← hrest, List.getD_append _ _ _ _ hlt, hout, Bool.and_true, decide_eq_true_eq,
    List.length_append]
  omega

theorem isAvailable_of_spend (h : c.spend n = some (c', undo)) (hi : c'.isAvailable i = true) :
    i ≠ n ∧ c.isAvailable i = true := by
  have hset : (CCoins.isAvailable { c with vout := c.vout.set n CTxOut.null } i) = true := by
    refine isAvailable_of_cleanup ?_
    unfold spend at h
    split at h
    · cases h
    · split at h
      · cases h
      · dsimp only at h
        split at h <;> obtain ⟨rfl, -⟩ := Prod.mk.inj (Option.some.inj h) <;> exact hi
  unfold isAvailable out at hset ⊢
  obtain ⟨hlt, hout⟩ := Bool.and_eq_true_iff.mp hset
  rw [List.length_set] at hlt
  have hlt' := of_decide_eq_true hlt
  rw [List.getD_eq_getElem _ _ (by rwa [List.length_set]), List.getElem_set] at hout
  split at hout
  · exact absurd hout (by decide)
  · rename_i hne
    rw [List.getD_eq_getElem _ _ hlt', hlt, hout]
    exact ⟨Ne.symm hne, rfl⟩

theorem isAvailable_of_restore (h : (c.restore n undo).1.isAvailable i = true) :
    i = n ∨ c.isAvailable i = true := by
  have hone : ∀ d : CCoins, CCoins.isAvailable
      { d with vout := (grow CTxOut.null (n + 1) d.vout).set n undo.txout } i = true →
        i = n ∨ d.isAvailable i = true := by
    intro d hd
    rw [isAvailable_iff, out_restore] at hd
    split at hd
    · exact Or.inl ‹_›
    · exact Or.inr (isAvailable_iff.mpr hd)
  unfold restore at h
  split at h
  rename_i coins fClean heq
  rcases hone coins h with hi | hi
  · exact Or.inl hi
  · split at heq <;> obtain ⟨rfl, -⟩ := Prod.mk.inj heq
    · exact absurd hi (by simp [isAvailable])
    · exact Or.inr hi

end CCoins

variable {v v' : CCoinsView} {tx : CTransaction} {vtx : List CTransaction} {vin : List CTxIn}
  {undos : List CTxInUndo} {nHeight : Int} {p : COutPoint}

theorem haveInput_of_modify {h : Uint256} {f : CCoins → CCoins}
    (hp : (v.modify h f).haveInput p = true) :
    if p.hash = h then (f (v.get h)).isAvailable p.n = true else v.haveInput p = true := by
  unfold CCoinsView.haveInput at hp ⊢
  rw [CCoinsView.get_modify] at hp
  split at hp <;> rename_i hh
  · rw [if_pos hh]
    exact CCoins.isAvailable_of_cleanup hp
  · rw [if_neg hh]
    exact hp

/-! ## A block is connected -/

theorem haveInput_of_spendInputs (h : spendInputs v vin = some (v', undos))
    (hp : v'.haveInput p = true) :
    v.haveInput p = true ∧ ∀ txin ∈ vin, txin.prevout ≠ p := by
  induction vin generalizing v undos with
  | nil =>
    obtain ⟨rfl, -⟩ := Prod.mk.inj (Option.some.inj h)
    exact ⟨hp, by simp⟩
  | cons txin vin ih =>
    obtain ⟨coins, undo, us, hspend, hrest, -⟩ := spendInputs_cons h
    obtain ⟨hthere, hothers⟩ := ih hrest
    have hbefore := haveInput_of_modify hthere
    split at hbefore
    · rename_i hhash
      obtain ⟨hne, hold⟩ := CCoins.isAvailable_of_spend hspend hbefore
      refine ⟨by rw [CCoinsView.haveInput, hhash]; exact hold, ?_⟩
      refine List.forall_mem_cons.mpr ⟨?_, hothers⟩
      rintro rfl
      exact hne rfl
    · rename_i hhash
      refine ⟨hbefore, List.forall_mem_cons.mpr ⟨?_, hothers⟩⟩
      rintro rfl
      exact hhash rfl

/-- The output is there after the transaction: created by it, or not spent by it. -/
def CTransaction.leaves (p : COutPoint) (fThere : Bool) (tx : CTransaction) : Bool :=
  if p.hash = tx.hash then (CCoins.fromTx tx 0).isAvailable p.n
  else fThere && (tx.isCoinBase || tx.vin.all fun txin => decide (txin.prevout ≠ p))

theorem haveInput_of_updateCoins (h : updateCoins tx v nHeight = some (v', undos))
    (hp : v'.haveInput p = true) : tx.leaves p (v.haveInput p) = true := by
  unfold updateCoins at h
  split at h
  · cases h
  · rename_i v1 us hspent
    obtain ⟨rfl, -⟩ := Prod.mk.inj (Option.some.inj h)
    have hbefore := haveInput_of_modify hp
    unfold CTransaction.leaves
    split at hbefore <;> rename_i hhash
    · rw [if_pos hhash]
      exact hbefore
    · rw [if_neg hhash]
      cases hcb : tx.isCoinBase with
      | true =>
        rw [hcb, if_pos rfl] at hspent
        obtain ⟨rfl, -⟩ := Prod.mk.inj (Option.some.inj hspent)
        rw [hbefore]
        rfl
      | false =>
        rw [hcb, if_neg Bool.false_ne_true] at hspent
        obtain ⟨hthere, hothers⟩ := haveInput_of_spendInputs hspent hbefore
        rw [hthere]
        simpa using hothers

theorem leaves_mono {b b' : Bool} (hb : b = true → b' = true) (h : tx.leaves p b = true) :
    tx.leaves p b' = true := by
  unfold CTransaction.leaves at h ⊢
  split at h <;> rename_i hhash
  · rw [if_pos hhash]
    exact h
  · rw [if_neg hhash]
    obtain ⟨hthere, hrest⟩ := Bool.and_eq_true_iff.mp h
    rw [hb hthere, hrest]
    rfl

theorem foldl_leaves_mono {b b' : Bool} (hb : b = true → b' = true)
    (h : vtx.foldl (CTransaction.leaves p) b = true) :
    vtx.foldl (CTransaction.leaves p) b' = true := by
  induction vtx generalizing b b' with
  | nil => exact hb h
  | cons tx vtx ih => exact ih (leaves_mono hb) h

/-- **An output that is there after a block** is what its transactions leave, one by one. -/
theorem haveInput_of_connectLoop {U : List (List CTxInUndo)}
    (h : connectLoop nHeight v vtx = some (v', U)) (hp : v'.haveInput p = true) :
    vtx.foldl (CTransaction.leaves p) (v.haveInput p) = true := by
  have hloop : ∀ {v us}, connectTxs nHeight v vtx = some (v', us) →
      vtx.foldl (CTransaction.leaves p) (v.haveInput p) = true := by
    clear h
    induction vtx with
    | nil =>
      intro v us h
      obtain ⟨rfl, -⟩ := Prod.mk.inj (Option.some.inj h)
      exact hp
    | cons tx vtx ih =>
      intro v us h
      rw [connectTxs] at h
      split at h
      · cases h
      · rename_i v1 txundo htx
        split at h
        · cases h
        · rename_i v2 rest hrest
          obtain ⟨rfl, -⟩ := Prod.mk.inj (Option.some.inj h)
          rw [List.foldl_cons]
          exact foldl_leaves_mono (haveInput_of_updateCoins htx) (ih hrest)
  unfold connectLoop at h
  split at h
  · cases h
  · rename_i v1 us hus
    obtain ⟨rfl, -⟩ := Prod.mk.inj (Option.some.inj h)
    exact hloop hus

/-! ## A block is disconnected -/

theorem haveInput_of_restoreInputs {l : List (CTxIn × CTxInUndo)} {s : CCoinsView × Bool}
    (hp : (restoreInputs l s).1.haveInput p = true) :
    s.1.haveInput p = true ∨ ∃ x ∈ l, x.1.prevout = p := by
  induction l with
  | nil => exact Or.inl hp
  | cons x l ih =>
    obtain ⟨txin, undo⟩ := x
    have hstep : (restoreInputs ((txin, undo) :: l) s).1 =
        (restoreInputs l s).1.modify txin.prevout.hash fun _ =>
          (((restoreInputs l s).1.get txin.prevout.hash).restore txin.prevout.n undo).1 := rfl
    rw [hstep] at hp
    have hbefore := haveInput_of_modify hp
    have hrest : (restoreInputs l s).1.haveInput p = true ∨ txin.prevout = p := by
      split at hbefore <;> rename_i hhash
      · rcases CCoins.isAvailable_of_restore hbefore with hn | hold
        · exact Or.inr (by rw [COutPoint.mk.injEq]; exact ⟨hhash.symm, hn.symm⟩)
        · exact Or.inl (by rw [CCoinsView.haveInput, hhash]; exact hold)
      · exact Or.inl hbefore
    rcases hrest with hrest | hfirst
    · rcases ih hrest with hthere | ⟨x, hx, hxp⟩
      · exact Or.inl hthere
      · exact Or.inr ⟨x, List.mem_cons_of_mem _ hx, hxp⟩
    · exact Or.inr ⟨_, List.mem_cons_self, hfirst⟩

/-- The output is there after the transaction is undone: put back by it, or not removed. -/
def CTransaction.returns (p : COutPoint) (tx : CTransaction) (fThere : Bool) : Bool :=
  (fThere && decide (p.hash ≠ tx.hash)) || tx.vin.any fun txin => decide (txin.prevout = p)

theorem haveInput_of_disconnectTx {txundo : Option (List CTxInUndo)} {s s' : CCoinsView × Bool}
    (h : disconnectTx nHeight tx txundo s = some s') (hp : s'.1.haveInput p = true) :
    tx.returns p (s.1.haveInput p) = true := by
  have hremoved : (s.1.modify tx.hash fun _ => {}).haveInput p = true →
      (s.1.haveInput p && decide (p.hash ≠ tx.hash)) = true := by
    intro hthere
    have hbefore := haveInput_of_modify hthere
    split at hbefore <;> rename_i hhash
    · exact absurd hbefore (by simp [CCoins.isAvailable])
    · rw [hbefore, decide_eq_true hhash]
      rfl
  unfold CTransaction.returns
  rw [Bool.or_eq_true_iff]
  unfold disconnectTx removeOutputs at h
  dsimp only at h
  split at h
  · obtain rfl := Option.some.inj h
    exact Or.inl (hremoved hp)
  · split at h
    · cases h
    · obtain rfl := Option.some.inj h
      rcases haveInput_of_restoreInputs hp with hthere | ⟨x, hx, hxp⟩
      · exact Or.inl (hremoved hthere)
      · exact Or.inr (List.any_eq_true.mpr ⟨x.1, (List.of_mem_zip hx).1, decide_eq_true hxp⟩)

/-- **An output that is there after a block is undone** is what its transactions return. -/
theorem haveInput_of_disconnectCoins {U : List (List CTxInUndo)} {b : Bool}
    (h : disconnectCoins vtx U nHeight v = some (v', b)) (hp : v'.haveInput p = true) :
    vtx.foldr (CTransaction.returns p) (v.haveInput p) = true := by
  have hloop : ∀ {l : List (CTransaction × Option (List CTxInUndo))} {s s' : CCoinsView × Bool},
      disconnectTxs nHeight l s = some s' → s'.1.haveInput p = true →
        (l.map Prod.fst).foldr (CTransaction.returns p) (s.1.haveInput p) = true := by
    intro l
    induction l with
    | nil =>
      intro s s' h hthere
      obtain rfl := Option.some.inj h
      exact hthere
    | cons x l ih =>
      obtain ⟨tx, txundo⟩ := x
      intro s s' h hthere
      rw [disconnectTxs] at h
      split at h
      · cases h
      · rename_i s1 hrest
        have hfirst := haveInput_of_disconnectTx h hthere
        unfold CTransaction.returns at hfirst
        rw [List.map_cons, List.foldr_cons, CTransaction.returns]
        cases hs1 : s1.1.haveInput p with
        | true =>
          rw [hs1] at hfirst
          rwa [ih hrest hs1]
        | false =>
          rw [hs1, Bool.false_and, Bool.false_or] at hfirst
          rw [hfirst, Bool.or_true]
  unfold disconnectCoins at h
  split at h
  · cases h
  · rename_i hlen
    have hall := hloop h hp
    rwa [List.map_fst_zip (by simp; omega)] at hall

end BitBlocks
