import Mathlib.Algebra.BigOperators.Finprod
import Mathlib.Algebra.BigOperators.Group.Finset.Piecewise

/-!
# Totals of a map that is zero almost everywhere

A map from keys to amounts, with finitely many amounts that are not zero, has a
total. Writing one key moves the total by the difference at that key, and keeps
the map finite: that is all a development needs that only ever writes one key at
a time.
-/

namespace FinSum

variable {ι : Type*}

/-- Only finitely many keys hold anything. -/
def Finite (f : ι → Int) : Prop := (Function.support f).Finite

theorem finite_zero : Finite fun _ : ι => (0 : Int) := by
  simp [Finite]

theorem Finite.of_eq_off {f g : ι → Int} (hf : Finite f) {i : ι} (h : ∀ j, j ≠ i → g j = f j) :
    Finite g := by
  refine (hf.insert i).subset fun j hj => ?_
  by_cases hji : j = i
  · exact Set.mem_insert_iff.mpr (Or.inl hji)
  · refine Set.mem_insert_iff.mpr (Or.inr ?_)
    rw [Function.mem_support, ← h j hji]
    exact hj

/-- **Writing one key moves the total by the difference at that key.** -/
theorem finsum_of_eq_off {f g : ι → Int} (hf : Finite f) {i : ι} (h : ∀ j, j ≠ i → g j = f j) :
    finsum g = finsum f + (g i - f i) := by
  classical
  have hg : g = fun j => f j + (if j = i then g i - f i else 0) := by
    funext j
    by_cases hj : j = i
    · subst hj; simp
    · simp [hj, h j hj]
  have hone : (Function.support fun j => if j = i then g i - f i else 0).Finite := by
    refine (Set.finite_singleton i).subset fun j hj => ?_
    by_contra hne
    exact hj (if_neg hne)
  have hsingle : (finsum fun j => if j = i then g i - f i else 0) = g i - f i := by
    rw [finsum_eq_single _ i fun j hj => if_neg hj, if_pos rfl]
  calc finsum g = finsum fun j => f j + (if j = i then g i - f i else 0) := congrArg finsum hg
    _ = finsum f + finsum fun j => if j = i then g i - f i else 0 := finsum_add_distrib hf hone
    _ = finsum f + (g i - f i) := by rw [hsingle]

end FinSum

/-!
## Totals over workers

Some workers, each in a state of its own, and a total of what they hold. Only one worker
moves at a time: the others keep what they hold, and the total is that of the one that
moved and that of the others.
-/

namespace Workers

variable {ι α M : Type*}

section total

variable [Fintype ι] [AddCommMonoid M] (g : α → M)

def total (f : ι → α) : M := ∑ i, g (f i)

theorem total_eq_zero {f : ι → α} (h : ∀ i, g (f i) = 0) : total g f = 0 :=
  Finset.sum_eq_zero fun i _ => h i

variable [DecidableEq ι]

/-- What the workers other than `i` hold together. -/
def others (f : ι → α) (i : ι) : M := ∑ j ∈ Finset.univ.erase i, g (f j)

variable {f : ι → α} {i : ι} {a : α}

theorem total_eq (f : ι → α) (i : ι) : total g f = g (f i) + others g f i :=
  (Finset.add_sum_erase Finset.univ (fun j => g (f j)) (Finset.mem_univ i)).symm

theorem others_update : others g (Function.update f i a) i = others g f i := by
  refine Finset.sum_congr rfl fun j hj => ?_
  rw [Function.update_of_ne (Finset.ne_of_mem_erase hj)]

/-- **One worker moves**: the total is its own and that of the others. -/
theorem total_update : total g (Function.update f i a) = g a + others g f i := by
  rw [total_eq g _ i, Function.update_self, others_update]

theorem total_update_eq (h : g a = g (f i)) : total g (Function.update f i a) = total g f := by
  rw [total_update, total_eq g f i, h]

theorem eq_zero_of_total {g : α → Nat} (h : total g f = 0) (i : ι) : g (f i) = 0 := by
  have heq := total_eq g f i
  omega

end total

section every

variable [DecidableEq ι] {f : ι → α} {i : ι} {a : α} {P : α → Prop}

theorem forall_update : (∀ j, P (Function.update f i a j)) ↔ P a ∧ ∀ j, j ≠ i → P (f j) := by
  constructor
  · intro h
    refine ⟨?_, fun j hj => ?_⟩
    · have hi := h i
      rwa [Function.update_self] at hi
    · have hj' := h j
      rwa [Function.update_of_ne hj] at hj'
  · intro ⟨ha, hrest⟩ j
    by_cases hj : j = i
    · rw [hj, Function.update_self]
      exact ha
    · rw [Function.update_of_ne hj]
      exact hrest j hj

omit [DecidableEq ι] in
theorem forall_split (f : ι → α) (i : ι) : (∀ j, P (f j)) ↔ P (f i) ∧ ∀ j, j ≠ i → P (f j) := by
  constructor
  · intro h
    exact ⟨h i, fun j _ => h j⟩
  · intro ⟨hi, hrest⟩ j
    by_cases hj : j = i
    · rw [hj]
      exact hi
    · exact hrest j hj

end every

end Workers
