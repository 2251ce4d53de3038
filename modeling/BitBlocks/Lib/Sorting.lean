import Mathlib.Data.List.Sort

/-!
# Sorting by the order of a type

A list and any rearrangement of it sort to the same list, so a set can be gone through by
sorting what it was made of.
-/

namespace Sorting

variable {α : Type*} [LE α] [DecidableLE α] {l l' : List α} {x : α}

def sort (l : List α) : List α := l.mergeSort fun x y => decide (x ≤ y)

theorem sort_perm (l : List α) : (sort l).Perm l := List.mergeSort_perm _ _

@[simp] theorem mem_sort : x ∈ sort l ↔ x ∈ l := (sort_perm l).mem_iff

variable [Std.IsLinearOrder α]

theorem sorted_sort (l : List α) : (sort l).Pairwise (· ≤ ·) := by
  have hsorted := @List.pairwise_mergeSort α (fun x y : α => decide (x ≤ y)) (fun a b c hab hbc =>
      decide_eq_true (Std.le_trans (of_decide_eq_true hab) (of_decide_eq_true hbc)))
    (fun a b => by simpa using Std.le_total (a := a) (b := b)) l
  exact hsorted.imp of_decide_eq_true

/-- **The order of arrival does not matter.** -/
theorem sort_eq_of_perm (h : l.Perm l') : sort l = sort l' :=
  List.Perm.eq_of_pairwise (fun _ _ _ _ => Std.le_antisymm) (sorted_sort l) (sorted_sort l')
    ((sort_perm l).trans (h.trans (sort_perm l').symm))

end Sorting

/-!
## The element in the middle

In a sorted list the elements that pass a test which is handed down to what is smaller come
first. So the element at a place passes it just when more elements than the place says do, and
the one in the middle of an odd number lies wherever more than half of them lie.
-/

namespace Median

variable {α : Type*} {l : List α}

/-- More than half of the elements pass the test. -/
def MostOf (l : List α) (p : α → Bool) : Prop := l.length < 2 * l.countP p

instance (l : List α) (p : α → Bool) : Decidable (MostOf l p) :=
  inferInstanceAs (Decidable (l.length < 2 * l.countP p))

theorem mostOf_perm {l' : List α} {p : α → Bool} (h : l.Perm l') : MostOf l p ↔ MostOf l' p := by
  rw [MostOf, MostOf, h.length_eq, h.countP_eq]

variable [LE α] [Std.IsLinearOrder α]

/-- **What passes comes first.** -/
theorem getElem_passes_iff (hl : l.Pairwise (· ≤ ·)) {p : α → Bool}
    (hp : ∀ a b, a ≤ b → p b = true → p a = true) {k : Nat} (hk : k < l.length) :
    p l[k] = true ↔ k < l.countP p := by
  induction l generalizing k with
  | nil => exact absurd hk (Nat.not_lt_zero k)
  | cons x l ih =>
    obtain ⟨hx, hl⟩ := List.pairwise_cons.mp hl
    by_cases hpx : p x = true
    · rw [List.countP_cons_of_pos hpx]
      cases k with
      | zero => exact iff_of_true hpx (Nat.succ_pos _)
      | succ k =>
        rw [List.getElem_cons_succ, ih hl, Nat.succ_lt_succ_iff]
    · -- nothing behind `x` passes either
      have hnone : l.countP p = 0 := List.countP_eq_zero.mpr fun y hy hpy =>
        hpx (hp x y (hx y hy) hpy)
      rw [List.countP_cons_of_neg hpx, hnone]
      have hle : x ≤ (x :: l)[k] := by
        rcases List.mem_cons.mp (List.getElem_mem hk) with heq | hmem
        · rw [heq]
          exact Std.le_refl x
        · exact hx _ hmem
      exact iff_of_false (fun hpk => hpx (hp _ _ hle hpk)) (Nat.not_lt_zero k)

variable [DecidableLE α]

theorem le_middle_iff (hl : l.Pairwise (· ≤ ·)) {k : Nat} (hk : k < l.length) (b : α) :
    l[k] ≤ b ↔ k < l.countP fun x => decide (x ≤ b) := by
  have hdown (x y : α) (hxy : x ≤ y) (hy : decide (y ≤ b) = true) : decide (x ≤ b) = true :=
    decide_eq_true (Std.le_trans hxy (of_decide_eq_true hy))
  rw [← getElem_passes_iff hl hdown hk, decide_eq_true_eq]

/-- **The middle lies where most lie.** -/
theorem middle_mem (hl : l.Pairwise (· ≤ ·)) (hodd : l.length % 2 = 1) {a b : α}
    (hmost : MostOf l fun x => decide (a ≤ x) && decide (x ≤ b)) (hk : l.length / 2 < l.length) :
    a ≤ l[l.length / 2] ∧ l[l.length / 2] ≤ b := by
  rw [MostOf] at hmost
  constructor
  · -- otherwise the elements below `a` are more than half as well
    by_contra hlow
    have hdown (x y : α) (hxy : x ≤ y) (hy : (!decide (a ≤ y)) = true) :
        (!decide (a ≤ x)) = true := by
      rw [Bool.not_eq_true', decide_eq_false_iff_not] at hy ⊢
      exact fun hax => hy (Std.le_trans hax hxy)
    have hbelow : l.length / 2 < l.countP fun x => !decide (a ≤ x) := by
      rw [← getElem_passes_iff hl hdown hk, Bool.not_eq_true', decide_eq_false_iff_not]
      exact hlow
    have habove : (l.countP fun x => decide (a ≤ x) && decide (x ≤ b)) ≤
        l.countP fun x => decide (a ≤ x) :=
      List.countP_mono_left fun x _ hx => (Bool.and_eq_true _ _ ▸ hx).1
    have hsplit := List.length_eq_countP_add_countP (fun x => decide (a ≤ x)) (l := l)
    simp only [decide_eq_true_eq, decide_not] at hsplit
    omega
  · rw [le_middle_iff hl hk]
    have hwithin : (l.countP fun x => decide (a ≤ x) && decide (x ≤ b)) ≤
        l.countP fun x => decide (x ≤ b) :=
      List.countP_mono_left fun x _ hx => (Bool.and_eq_true _ _ ▸ hx).2
    omega

theorem middle_le_iff (hl : l.Pairwise (· ≤ ·)) (hodd : l.length % 2 = 1) {m : α}
    (hk : l.length / 2 < l.length) :
    l[l.length / 2] ≤ m ↔ MostOf l fun x => decide (x ≤ m) := by
  rw [le_middle_iff hl hk, MostOf]
  omega

end Median
