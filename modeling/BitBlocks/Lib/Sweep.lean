import Mathlib.Data.List.Sort
import BitBlocks.Lib.Table

/-!
# Sweeping a map

A loop goes through an ordered map with an iterator and erases where a test holds. What it
leaves behind is told by the keys that are dropped, of this map and of any other one that
loses a key in the same round.
-/

namespace Table

variable {κ ν : Type*} {m : AList fun _ : κ => ν} {k : κ} {ks ks' : List κ}
  {p q : (Sigma fun _ : κ => ν) → Bool}

theorem keep_congr (h : ∀ x ∈ m.entries, p x = q x) : keep p m = keep q m :=
  AList.ext (List.filter_congr h)

theorem keep_keep (p q : (Sigma fun _ : κ => ν) → Bool) (m : AList fun _ : κ => ν) :
    keep p (keep q m) = keep (fun x => p x && q x) m :=
  AList.ext List.filter_filter

def keysWhere (p : (Sigma fun _ : κ => ν) → Bool) (m : AList fun _ : κ => ν) : List κ :=
  (m.entries.filter p).map Sigma.fst

theorem mem_keysWhere : k ∈ keysWhere p m ↔ ∃ x ∈ m.entries, p x = true ∧ x.1 = k := by
  unfold keysWhere
  simp [and_assoc]

/-! ## The entries in the order of their keys -/

section

variable [LE κ] [DecidableLE κ]

def inOrder (m : AList fun _ : κ => ν) : List (Sigma fun _ : κ => ν) :=
  m.entries.mergeSort fun x y => decide (x.1 ≤ y.1)

theorem inOrder_perm (m : AList fun _ : κ => ν) : (inOrder m).Perm m.entries :=
  List.mergeSort_perm _ _

@[simp] theorem mem_inOrder {x : Sigma fun _ : κ => ν} : x ∈ inOrder m ↔ x ∈ m.entries :=
  (inOrder_perm m).mem_iff

theorem mem_keysWhere_inOrder : k ∈ ((inOrder m).filter p).map Sigma.fst ↔ k ∈ keysWhere p m :=
  (((inOrder_perm m).filter p).map Sigma.fst).mem_iff

end

/-! ## Dropping keys -/

variable [DecidableEq κ]

/-- The entries whose keys are not in a list. -/
def dropKeys (ks : List κ) (m : AList fun _ : κ => ν) : AList fun _ : κ => ν :=
  keep (fun x => decide (x.1 ∉ ks)) m

@[simp] theorem dropKeys_nil (m : AList fun _ : κ => ν) : dropKeys [] m = m :=
  AList.ext (List.filter_eq_self.mpr (by simp))

theorem dropKeys_dropKeys (ks ks' : List κ) (m : AList fun _ : κ => ν) :
    dropKeys ks (dropKeys ks' m) = dropKeys (ks' ++ ks) m := by
  unfold dropKeys
  rw [keep_keep]
  refine keep_congr ?_
  intro x _
  rw [← Bool.decide_and]
  refine decide_eq_decide.mpr ?_
  rw [List.mem_append, not_or, and_comm]

theorem dropKeys_eq_iff : dropKeys ks m = dropKeys ks' m ↔ ∀ k ∈ m, k ∈ ks ↔ k ∈ ks' := by
  constructor
  · intro h k hk
    obtain ⟨x, hx, rfl⟩ := List.mem_map.mp hk
    have hentries := congrArg AList.entries h
    have hmem := congrArg (x ∈ ·) hentries
    have hin : ∀ ks : List κ, x ∈ (dropKeys ks m).entries ↔ x.1 ∉ ks := by
      intro ks
      refine List.mem_filter.trans ?_
      simp [hx]
    have hiff : x.1 ∉ ks ↔ x.1 ∉ ks' := by
      rw [← hin ks, ← hin ks']
      exact iff_of_eq hmem
    exact not_iff_not.mp hiff
  · intro h
    refine keep_congr ?_
    intro x hx
    refine decide_eq_decide.mpr (not_congr (h x.1 ?_))
    exact List.mem_keys_of_mem hx

theorem erase_eq_dropKeys (k : κ) (m : AList fun _ : κ => ν) : m.erase k = dropKeys [k] m := by
  refine AList.ext ?_
  have hkeys : ∀ l : List (Sigma fun _ : κ => ν), l.NodupKeys →
      l.kerase k = l.filter fun x => decide (x.1 ∉ [k]) := by
    intro l
    induction l with
    | nil => intro _; rfl
    | cons x l ih =>
      intro hl
      obtain ⟨hx, hl'⟩ := List.nodupKeys_cons.mp hl
      by_cases hk : k = x.1
      · have hkeep : l.filter (fun y => decide (y.1 ∉ [k])) = l := by
          refine List.filter_eq_self.mpr ?_
          intro y hy
          refine decide_eq_true ?_
          intro hyk
          refine hx ?_
          rw [← hk, ← List.mem_singleton.mp hyk]
          exact List.mem_keys_of_mem hy
        rw [List.kerase_cons_eq hk, List.filter_cons_of_neg (by simp [hk]), hkeep]
      · rw [List.kerase_cons_ne hk, List.filter_cons_of_pos (by simp [Ne.symm hk]), ih hl']
  exact hkeys m.entries m.nodupKeys

theorem keep_not_eq_dropKeys (p : (Sigma fun _ : κ => ν) → Bool) (m : AList fun _ : κ => ν) :
    keep (fun x => !p x) m = dropKeys (keysWhere p m) m := by
  refine keep_congr ?_
  intro x hx
  rw [Bool.eq_iff_iff, decide_eq_true_iff, Bool.not_eq_true', mem_keysWhere]
  constructor
  · rintro hp ⟨y, hy, hpy, hyx⟩
    have hxy : y = x := m.nodupKeys.eq_of_fst_eq hy hx hyx
    rw [hxy, hp] at hpy
    exact Bool.false_ne_true hpy
  · intro h
    refine Bool.eq_false_iff.mpr ?_
    intro hp
    exact h ⟨x, hx, hp, rfl⟩

end Table
