import Mathlib.Data.List.Nodup
import Mathlib.Data.List.TakeWhile
import Mathlib.Data.List.Induction

/-!
# Trees by parent pointers

A set in which everything but the root has a parent one level closer to the root.
An element stands for its *branch*, the list of it and its ancestors, and most of
what one wants to know about the tree is about such lists: an ancestor's branch is
the end of the branch, two ancestors of one element lie on each other's branches,
and two branches meet.

`Climbs` is the way back: a list of elements that leads from an ancestor up to a
descendant, one child at a time.
-/

/-- A tree given by parent pointers and a depth that certifies them. -/
structure ParentTree (α : Type) where
  root : α
  parent : α → Option α
  depth : α → Nat
  parent_root : parent root = none
  eq_root : ∀ {a}, parent a = none → a = root
  depth_root : depth root = 0
  depth_parent : ∀ {a b}, parent a = some b → depth a = depth b + 1

namespace ParentTree

variable {α : Type} (T : ParentTree α)

/-- The first `n` steps towards the root. -/
def branchUpTo : Nat → α → List α
  | 0, a => [a]
  | n + 1, a => a :: (match T.parent a with
      | none => []
      | some b => branchUpTo n b)

/-- An element and its ancestors, the root last. -/
def branch (a : α) : List α := T.branchUpTo (T.depth a) a

variable {T}

theorem branch_root : T.branch T.root = [T.root] := by
  rw [branch, T.depth_root, branchUpTo]

variable {a b c : α}

theorem branch_parent (h : T.parent a = some b) : T.branch a = a :: T.branch b := by
  rw [branch, T.depth_parent h, branchUpTo, h, branch]

@[elab_as_elim]
theorem branch_induction {p : α → Prop} (a : α) (hroot : p T.root)
    (hchild : ∀ a b, T.parent a = some b → p b → p a) : p a := by
  generalize hd : T.depth a = d
  induction d generalizing a with
  | zero =>
    cases hp : T.parent a with
    | none => rw [T.eq_root hp]; exact hroot
    | some b => rw [T.depth_parent hp] at hd; omega
  | succ d ih =>
    cases hp : T.parent a with
    | none => rw [T.eq_root hp]; exact hroot
    | some b => exact hchild a b hp (ih b (by rw [T.depth_parent hp] at hd; omega))

theorem branch_eq_cons (a : α) : ∃ rest, T.branch a = a :: rest := by
  cases hp : T.parent a with
  | none => rw [T.eq_root hp]; exact ⟨[], branch_root⟩
  | some b => exact ⟨_, branch_parent hp⟩

@[simp] theorem head?_branch (a : α) : (T.branch a).head? = some a := by
  obtain ⟨rest, h⟩ := branch_eq_cons (T := T) a
  rw [h]; rfl

theorem self_mem_branch (a : α) : a ∈ T.branch a := by
  obtain ⟨rest, h⟩ := branch_eq_cons (T := T) a
  rw [h]; simp

theorem mem_branch_parent (h : T.parent a = some b) : c ∈ T.branch a ↔ c = a ∨ c ∈ T.branch b := by
  rw [branch_parent h, List.mem_cons]

theorem parent_mem_branch (h : T.parent a = some b) : b ∈ T.branch a :=
  (mem_branch_parent h).mpr (Or.inr (self_mem_branch b))

theorem root_mem_branch (a : α) : T.root ∈ T.branch a := by
  induction a using branch_induction (T := T) with
  | hroot => exact self_mem_branch _
  | hchild a b h ih => exact (mem_branch_parent h).mpr (Or.inr ih)

theorem depth_le_of_mem (h : c ∈ T.branch a) : c = a ∨ T.depth c < T.depth a := by
  induction a using branch_induction (T := T) with
  | hroot => rw [branch_root, List.mem_singleton] at h; exact Or.inl h
  | hchild a b hp ih =>
    have hd := T.depth_parent hp
    rcases (mem_branch_parent hp).mp h with rfl | h
    · exact Or.inl rfl
    · rcases ih h with rfl | h
      · right; omega
      · right; omega

theorem depth_le (h : c ∈ T.branch a) : T.depth c ≤ T.depth a := by
  rcases depth_le_of_mem h with rfl | hlt
  · exact Nat.le_refl _
  · exact Nat.le_of_lt hlt

/-- **An ancestor's branch is the end of the branch.** -/
theorem branch_suffix (h : c ∈ T.branch a) : T.branch c <:+ T.branch a := by
  induction a using branch_induction (T := T) with
  | hroot =>
    rw [branch_root, List.mem_singleton] at h
    exact h ▸ List.suffix_refl _
  | hchild a b hp ih =>
    rcases (mem_branch_parent hp).mp h with rfl | h
    · exact List.suffix_refl _
    · rw [branch_parent hp]
      exact (ih h).trans (List.suffix_cons a _)

theorem mem_branch_trans (h : b ∈ T.branch a) (h' : c ∈ T.branch b) :
    c ∈ T.branch a := (branch_suffix h).subset h'

theorem mem_branch_of_depth_le (hb : b ∈ T.branch a) (hc : c ∈ T.branch a)
    (h : T.depth b ≤ T.depth c) : b ∈ T.branch c := by
  induction a using branch_induction (T := T) with
  | hroot =>
    rw [branch_root, List.mem_singleton] at hb hc
    rw [hb, hc]
    exact self_mem_branch _
  | hchild a p hp ih =>
    rcases (mem_branch_parent hp).mp hc with rfl | hc'
    · exact hb
    · rcases (mem_branch_parent hp).mp hb with rfl | hb'
      · have hd := T.depth_parent hp
        have hle := depth_le hc'
        omega
      · exact ih hb' hc'

theorem eq_of_depth_eq (hb : b ∈ T.branch a) (hc : c ∈ T.branch a) (h : T.depth b = T.depth c) :
    b = c := by
  rcases depth_le_of_mem (mem_branch_of_depth_le hb hc (by omega)) with rfl | hlt
  · rfl
  · omega

theorem exists_mem_branch_depth {d : Nat} (h : d ≤ T.depth a) :
    ∃ c ∈ T.branch a, T.depth c = d := by
  induction a using branch_induction (T := T) with
  | hroot =>
    rw [T.depth_root] at h
    exact ⟨T.root, self_mem_branch _, by rw [T.depth_root]; omega⟩
  | hchild a b hp ih =>
    by_cases hd : d = T.depth a
    · exact ⟨a, self_mem_branch a, hd.symm⟩
    · obtain ⟨c, hc, he⟩ := ih (by rw [T.depth_parent hp] at h hd; omega)
      exact ⟨c, (mem_branch_parent hp).mpr (Or.inr hc), he⟩

theorem length_branch (a : α) : (T.branch a).length = T.depth a + 1 := by
  induction a using branch_induction (T := T) with
  | hroot => rw [branch_root, T.depth_root]; rfl
  | hchild a b hp ih => rw [branch_parent hp, List.length_cons, ih, T.depth_parent hp]

theorem depth_of_getElem?_reverse : ∀ {i : Nat},
    (T.branch a).reverse[i]? = some c → T.depth c = i := by
  induction a using branch_induction with
  | hroot =>
    intro i h
    rw [branch_root, List.reverse_singleton, List.getElem?_singleton] at h
    split at h
    · rename_i hi
      rw [← Option.some.inj h, T.depth_root, hi]
    · simp at h
  | hchild a b hp ih =>
    intro i h
    rw [branch_parent hp, List.reverse_cons] at h
    rcases Nat.lt_or_ge i (T.branch b).length with hi | hi
    · rw [List.getElem?_append_left (by simpa using hi)] at h
      exact ih h
    · rw [List.getElem?_append_right (by simpa using hi), List.length_reverse,
        List.getElem?_singleton] at h
      split at h
      · rw [← Option.some.inj h, T.depth_parent hp]
        have := length_branch (T := T) b
        omega
      · simp at h

theorem branch_injective (h : T.branch a = T.branch b) : a = b := by
  have := congrArg List.head? h
  simpa using this

/-! ## Where branches meet -/

theorem find?_branch_eq {p : α → Bool} {f : α} (h : (T.branch b).find? p = some f) :
    f ∈ T.branch b ∧ p f = true ∧ ∀ c ∈ T.branch b, p c = true → T.depth c ≤ T.depth f := by
  refine ⟨List.mem_of_find?_eq_some h, List.find?_some h, fun c hc hpc => ?_⟩
  induction b using branch_induction (T := T) with
  | hroot =>
    have hf := List.mem_of_find?_eq_some h
    rw [branch_root, List.mem_singleton] at hc hf
    rw [hc, hf]
  | hchild b a hp ih =>
    rw [branch_parent hp, List.find?_cons] at h
    split at h
    · rw [← Option.some.inj h]
      exact depth_le hc
    · rename_i hpb
      rcases (mem_branch_parent hp).mp hc with rfl | hc'
      · rw [hpc] at hpb; exact absurd hpb (by simp)
      · exact ih h hc'

theorem mem_takeWhile_branch [DecidableEq α] {f : α} (hf : f ∈ T.branch b) :
    c ∈ (T.branch b).takeWhile (fun a => decide (a ≠ f)) ↔
      c ∈ T.branch b ∧ T.depth f < T.depth c := by
  induction b using branch_induction (T := T) with
  | hroot =>
    rw [branch_root, List.mem_singleton] at hf
    rw [branch_root, List.takeWhile_cons]
    simp only [hf, ne_eq, not_true_eq_false, decide_false, Bool.false_eq_true, if_false,
      List.not_mem_nil, List.mem_singleton, false_iff, not_and]
    rintro rfl
    omega
  | hchild b a hp ih =>
    rw [branch_parent hp, List.takeWhile_cons]
    by_cases hbf : b = f
    · subst hbf
      simp only [ne_eq, not_true_eq_false, decide_false, Bool.false_eq_true, if_false,
        List.not_mem_nil, false_iff, not_and]
      rw [← branch_parent hp]
      intro hc
      exact Nat.not_lt.mpr (depth_le hc)
    · have hfa : f ∈ T.branch a := by
        rcases (mem_branch_parent hp).mp hf with rfl | h
        · exact absurd rfl hbf
        · exact h
      have hd := T.depth_parent hp
      have hle : T.depth f < T.depth b := by
        have hlefa := depth_le hfa
        omega
      simp only [ne_eq, hbf, not_false_eq_true, decide_true, if_true, List.mem_cons, ih hfa]
      constructor
      · rintro (rfl | ⟨h1, h2⟩)
        · exact ⟨Or.inl rfl, hle⟩
        · exact ⟨Or.inr h1, h2⟩
      · rintro ⟨rfl | h1, h2⟩
        · exact Or.inl rfl
        · exact Or.inr ⟨h1, h2⟩

/-! ## Climbing back up -/

variable (T) in
/-- A list that leads from `a` to `b`, one child at a time. -/
inductive Climbs : α → List α → α → Prop
  | nil (a : α) : Climbs a [] a
  | cons {a b c : α} {l : List α} : T.parent b = some a → Climbs b l c → Climbs a (b :: l) c

theorem Climbs.snoc {l : List α} (h : T.Climbs a l b) (hp : T.parent c = some b) :
    T.Climbs a (l ++ [c]) c := by
  induction h with
  | nil a => exact .cons hp (.nil c)
  | cons h _ ih => exact .cons h (ih hp)

theorem Climbs.mem_branch {l : List α} (h : T.Climbs a l b) : a ∈ T.branch b := by
  induction h with
  | nil a => exact self_mem_branch a
  | cons hp _ ih => exact mem_branch_trans ih (parent_mem_branch hp)

theorem Climbs.between {l : List α} (h : T.Climbs a l b) (hc : c ∈ l) :
    c ∈ T.branch b ∧ T.depth a < T.depth c := by
  induction h with
  | nil a => simp at hc
  | cons hp hl ih =>
    have hd := T.depth_parent hp
    rcases List.mem_cons.mp hc with rfl | hc
    · exact ⟨hl.mem_branch, by omega⟩
    · have := ih hc
      exact ⟨this.1, by omega⟩

/-- **The part of a branch above an ancestor, turned around, leads up to it.** -/
theorem climbs_takeWhile {f : α} (hf : f ∈ T.branch a) :
    T.Climbs f ((T.branch a).takeWhile fun c => decide (T.depth c ≠ T.depth f)).reverse a := by
  induction a using branch_induction (T := T) with
  | hroot =>
    rw [branch_root, List.mem_singleton] at hf
    rw [branch_root, List.takeWhile_cons]
    simp only [hf, ne_eq, not_true_eq_false, decide_false, Bool.false_eq_true, if_false,
      List.reverse_nil]
    exact .nil _
  | hchild a b hp ih =>
    rw [branch_parent hp, List.takeWhile_cons]
    by_cases hd : T.depth a = T.depth f
    · have : f = a := eq_of_depth_eq hf (self_mem_branch a) hd.symm
      subst this
      simp only [ne_eq, not_true_eq_false, decide_false, Bool.false_eq_true, if_false,
        List.reverse_nil]
      exact .nil _
    · have hfb : f ∈ T.branch b := by
        rcases (mem_branch_parent hp).mp hf with rfl | h
        · exact absurd rfl hd
        · exact h
      simp only [ne_eq, hd, not_false_eq_true, decide_true, if_true, List.reverse_cons]
      exact (ih hfb).snoc hp

end ParentTree

/-!
## Recomputing along parent pointers

Entries that point to a parent, and a field of each that depends on the parent's. If every
entry comes after its parent, one pass over the entries computes the field: whatever
satisfies the recurrence is what the pass arrives at.
-/

namespace Recompute

variable {κ β : Type*} [DecidableEq κ]

/-- One entry, computed from its parent as the pass has left it. -/
def visit (parent : β → Option κ) (step : Option β → β → β) (f : κ → β) (k : κ) : κ → β :=
  Function.update f k (step ((parent (f k)).map f) (f k))

def pass (parent : β → Option κ) (step : Option β → β → β) (f : κ → β) (l : List κ) : κ → β :=
  l.foldl (visit parent step) f

/-- Every entry comes once, and after its parent. -/
structure ParentsFirst (parent : κ → Option κ) (l : List κ) : Prop where
  nodup : l.Nodup
  before : ∀ l₁ k l₂, l = l₁ ++ k :: l₂ → ∀ p, parent k = some p → p ∈ l₁

variable {parent : β → Option κ} {step : Option β → β → β} {f F : κ → β} {l : List κ}

omit [DecidableEq κ] in
theorem ParentsFirst.of_append {r : κ → Option κ} {l' : List κ} (h : ParentsFirst r (l ++ l')) :
    ParentsFirst r l := by
  refine ⟨h.nodup.of_append_left, fun l1 k l2 hl p hp => ?_⟩
  exact h.before l1 k (l2 ++ l') (by rw [hl, List.append_assoc, List.cons_append]) p hp

omit [DecidableEq κ] in
theorem ParentsFirst.of_sorted {r : κ → Option κ} {height : κ → Int} (hnodup : l.Nodup)
    (hsorted : l.Pairwise fun a b => height a ≤ height b)
    (hmem : ∀ k ∈ l, ∀ p, r k = some p → p ∈ l ∧ height p < height k) : ParentsFirst r l := by
  refine ⟨hnodup, fun l1 k l2 hl p hp => ?_⟩
  obtain ⟨hpl, hlt⟩ := hmem k (by rw [hl]; simp) p hp
  rw [hl] at hpl hsorted
  rcases List.mem_append.mp hpl with hp1 | hp2
  · exact hp1
  · -- what comes from `k` on is at least as high
    have hle := (List.pairwise_append.mp hsorted).2.1
    rcases List.mem_cons.mp hp2 with rfl | hp2
    · omega
    · have := (List.pairwise_cons.mp hle).1 p hp2
      omega

theorem pass_concat (k : κ) :
    pass parent step f (l ++ [k]) = visit parent step (pass parent step f l) k := by
  rw [pass, List.foldl_append]
  rfl

theorem pass_of_notMem {k : κ} (h : k ∉ l) : pass parent step f l k = f k := by
  induction l using List.reverseRecOn with
  | nil => rfl
  | append_singleton l a ih =>
    rw [List.mem_append, List.mem_singleton, not_or] at h
    rw [pass_concat, visit, Function.update_of_ne h.2]
    exact ih h.1

/-- **The pass solves the recurrence.** -/
theorem pass_eq (hl : ParentsFirst (fun k => parent (f k)) l)
    (hF : ∀ k ∈ l, step ((parent (f k)).map F) (f k) = F k) :
    ∀ k ∈ l, pass parent step f l k = F k := by
  induction l using List.reverseRecOn with
  | nil => intro k hk; simp at hk
  | append_singleton l a ih =>
    have ih := ih hl.of_append fun k hk => hF k (List.mem_append_left _ hk)
    have ha : a ∉ l := fun h => by
      have := (List.nodup_append.mp hl.nodup).2.2 a h a (by simp)
      exact this rfl
    intro k hk
    rw [pass_concat, visit, pass_of_notMem ha]
    by_cases hka : k = a
    · rw [hka, Function.update_self, ← hF a (by simp)]
      cases hp : parent (f a) with
      | none => rfl
      | some p => rw [Option.map_some, Option.map_some, ih p (hl.before l a [] rfl p hp)]
    · rw [Function.update_of_ne hka]
      refine ih k ?_
      rcases List.mem_append.mp hk with hk | hk
      · exact hk
      · exact absurd (List.mem_singleton.mp hk) hka

end Recompute
