import Mathlib.Data.List.NodupEquivFin

/-!
# Matchings that keep the order

Every element of one list is to get a partner of its own in another, in the same order.
Taking the first partner that will do is enough: whatever else a matching takes for the first
element comes later, and exchanging it for the first leaves more for the others.
-/

namespace Matching

variable {α β : Type} (R : α → β → Bool)

/-- Every element takes the first one left that is related to it. -/
def greedy : List α → List β → Bool
  | [], _ => true
  | _ :: _, [] => false
  | x :: xs, y :: ys => if R x y then greedy xs ys else greedy (x :: xs) ys

/-- A partner for every element, in the same order. -/
def Assigned (xs : List α) (ys : List β) : Prop :=
  ∃ f : Fin xs.length → Fin ys.length, StrictMono f ∧ ∀ i, R (xs.get i) (ys.get (f i)) = true

variable {R} {xs : List α} {ys : List β}

theorem assigned_iff : Assigned R xs ys ↔
    ∃ zs, zs.Sublist ys ∧ List.Forall₂ (fun x y => R x y = true) xs zs := by
  constructor
  · rintro ⟨f, hmono, hrel⟩
    refine ⟨List.ofFn fun i => ys.get (f i), ?_, ?_⟩
    · rw [List.sublist_iff_exists_fin_orderEmbedding_get_eq]
      have hlength : (List.ofFn fun i => ys.get (f i)).length = xs.length := List.length_ofFn
      refine ⟨OrderEmbedding.ofStrictMono (fun i => f (Fin.cast hlength i)) ?_, ?_⟩
      · intro i j hij
        exact hmono hij
      · intro i
        rw [List.get_ofFn]
        rfl
    · rw [List.forall₂_iff_get]
      refine ⟨List.length_ofFn.symm, fun i hi hi' => ?_⟩
      rw [List.get_ofFn]
      exact hrel ⟨i, hi⟩
  · rintro ⟨zs, hsub, hrel⟩
    rw [List.sublist_iff_exists_fin_orderEmbedding_get_eq] at hsub
    rw [List.forall₂_iff_get] at hrel
    obtain ⟨f, hf⟩ := hsub
    obtain ⟨hlength, hrel⟩ := hrel
    refine ⟨fun i => f (Fin.cast hlength i), ?_, fun i => ?_⟩
    · intro i j hij
      exact f.strictMono hij
    · rw [← hf]
      exact hrel i i.isLt (hlength ▸ i.isLt)

theorem Assigned.length_le (h : Assigned R xs ys) : xs.length ≤ ys.length := by
  obtain ⟨zs, hsub, hrel⟩ := assigned_iff.mp h
  rw [hrel.length_eq]
  exact hsub.length_le

theorem assigned_reverse : Assigned R xs.reverse ys.reverse ↔ Assigned R xs ys := by
  rw [assigned_iff, assigned_iff]
  constructor
  · rintro ⟨zs, hsub, hrel⟩
    refine ⟨zs.reverse, ?_, ?_⟩
    · have hreverse := List.reverse_sublist.mpr hsub
      rwa [List.reverse_reverse] at hreverse
    · rw [← List.forall₂_reverse_iff, List.reverse_reverse]
      exact hrel
  · rintro ⟨zs, hsub, hrel⟩
    exact ⟨zs.reverse, List.reverse_sublist.mpr hsub, List.forall₂_reverse_iff.mpr hrel⟩

/-- **The greedy choice is enough.** -/
theorem greedy_iff : greedy R xs ys = true ↔ Assigned R xs ys := by
  rw [assigned_iff]
  induction ys generalizing xs with
  | nil =>
    cases xs with
    | nil => exact ⟨fun _ => ⟨[], List.Sublist.refl _, List.Forall₂.nil⟩, fun _ => rfl⟩
    | cons x xs =>
      refine ⟨fun h => absurd h Bool.false_ne_true, ?_⟩
      rintro ⟨zs, hsub, hrel⟩
      rw [List.sublist_nil.mp hsub] at hrel
      cases hrel
  | cons y ys ih =>
    cases xs with
    | nil => exact ⟨fun _ => ⟨[], List.nil_sublist _, List.Forall₂.nil⟩, fun _ => rfl⟩
    | cons x xs =>
      rw [greedy]
      split
      · next hxy =>
          rw [ih]
          constructor
          · rintro ⟨zs, hsub, hrel⟩
            exact ⟨y :: zs, hsub.cons_cons y, List.Forall₂.cons hxy hrel⟩
          · -- whatever the first element has is exchanged for `y`
            rintro ⟨zs, hsub, hrel⟩
            cases hrel with
            | cons hxz hrel =>
              exact ⟨_, hsub.tail, hrel⟩
      · next hxy =>
          rw [ih]
          constructor
          · rintro ⟨zs, hsub, hrel⟩
            exact ⟨zs, hsub.cons y, hrel⟩
          · rintro ⟨zs, hsub, hrel⟩
            cases hsub with
            | cons _ hsub => exact ⟨zs, hsub, hrel⟩
            | cons_cons _ hsub =>
              cases hrel with
              | cons hxz hrel => exact absurd hxz hxy

theorem greedy_of_length_lt (h : ys.length < xs.length) : greedy R xs ys = false := by
  rw [← Bool.not_eq_true, greedy_iff]
  exact fun hassigned => absurd hassigned.length_le (Nat.not_le.mpr h)

end Matching
