import Mathlib.Algebra.Order.BigOperators.Group.List
import Mathlib.Algebra.Order.Group.Int
import Mathlib.Algebra.Ring.Int.Defs

/-!
# Loops over a list

Three loops that do not do the same to every element: one that may return before its end, one
that fills slots, and one that takes what fits.
-/

/-!
## A loop that may return before its end

Each element of a list lets the loop go on, or makes it answer yes or no; at the end
the answer is yes. Such an answer is no exactly because of an element that says so, and
comes out the same in every order, as long as not both answers are among the elements.
-/

inductive Outcome where
  | goOn
  | yes
  | no
  deriving DecidableEq, Repr

namespace Outcome

def verdict : List Outcome → Bool
  | [] => true
  | goOn :: l => verdict l
  | yes :: _ => true
  | no :: _ => false

variable {l : List Outcome}

theorem verdict_of_no_notMem (h : no ∉ l) : verdict l = true := by
  induction l with
  | nil => rfl
  | cons o l ih =>
    rw [List.mem_cons, not_or] at h
    cases o with
    | goOn => exact ih h.2
    | yes => rfl
    | no => exact absurd rfl h.1

theorem verdict_of_yes_notMem (h : yes ∉ l) : verdict l = true ↔ no ∉ l := by
  refine ⟨fun hv hno => ?_, verdict_of_no_notMem⟩
  induction l with
  | nil => exact absurd hno List.not_mem_nil
  | cons o l ih =>
    rw [List.mem_cons, not_or] at h
    cases o with
    | goOn =>
      rcases List.mem_cons.mp hno with heq | hmem
      · exact absurd heq (by decide)
      · exact ih h.2 hv hmem
    | yes => exact h.1 rfl
    | no => exact Bool.false_ne_true hv

/-- **The answer is that of all elements, in any order,** exactly as long as not both answers are
among them. -/
theorem verdict_faithful_iff {α : Type*} (f : α → Outcome) (l : List α) :
    ((verdict (l.map f) = true ↔ no ∉ l.map f) ∧
      ∀ l' : List α, l'.Perm l → (verdict (l'.map f) = true ↔ verdict (l.map f) = true)) ↔
      (no ∉ l.map f ∨ yes ∉ l.map f) := by
  constructor
  · rintro ⟨-, hperm⟩
    by_contra hboth
    rw [not_or, not_not, not_not, List.mem_map, List.mem_map] at hboth
    obtain ⟨⟨x, hx, hno⟩, y, hy, hyes⟩ := hboth
    -- one order starts with a yes, another one with a no
    have hfirst (z : α) (hz : z ∈ l) :
        ∃ rest, verdict (f z :: rest) = true ↔ verdict (l.map f) = true := by
      obtain ⟨before, after, hl⟩ := List.append_of_mem hz
      exact ⟨(before ++ after).map f, hperm (z :: (before ++ after)) (hl ▸ List.perm_middle.symm)⟩
    obtain ⟨rest, hrest⟩ := hfirst y hy
    obtain ⟨rest', hrest'⟩ := hfirst x hx
    rw [hyes] at hrest
    rw [hno] at hrest'
    exact Bool.false_ne_true (hrest'.mpr (hrest.mp rfl))
  · have hall (l' : List α) (h : no ∉ l'.map f ∨ yes ∉ l'.map f) :
        verdict (l'.map f) = true ↔ no ∉ l'.map f := by
      rcases h with hno | hyes
      · exact iff_of_true (verdict_of_no_notMem hno) hno
      · exact verdict_of_yes_notMem hyes
    intro h
    refine ⟨hall l h, fun l' hl => ?_⟩
    have hmem (o : Outcome) : o ∈ l'.map f ↔ o ∈ l.map f := (hl.map f).mem_iff
    rw [hall l h, hall l' (by rwa [hmem, hmem]), hmem]

end Outcome

/-!
## Filling slots first come, first served

Every element goes to the first slot that is free and accepts it. Where no element is accepted
by two slots, a slot ends up with the first element that it accepts, and the slots do not
get in each other's way.
-/

namespace FirstFit

variable {α β : Type*} [DecidableEq β] (R : α → β → Bool)

/-- The first slot that is free and accepts `x` takes it. -/
def put (held : β → Option α) (x : α) : List β → β → Option α
  | [] => held
  | y :: ys =>
    if (held y).isSome then put held x ys
    else if R x y then Function.update held y (some x) else put held x ys

/-- All elements, one after the other. -/
def fill (ys : List β) (held : β → Option α) (xs : List α) : β → Option α :=
  xs.foldl (fun held x => put R held x ys) held

variable {R} {held : β → Option α} {x : α} {xs : List α} {y : β} {ys : List β}

theorem put_of_kept (h : R x y = false ∨ (held y).isSome = true) : put R held x ys y = held y := by
  induction ys with
  | nil => rfl
  | cons z ys ih =>
    rw [put]
    split
    · exact ih
    · rename_i hfree
      split
      · rename_i hz
        have hne : y ≠ z := by
          rintro rfl
          rcases h with hno | hheld
          · exact Bool.false_ne_true (hno.symm.trans hz)
          · exact hfree hheld
        rw [Function.update_of_ne hne]
      · exact ih

theorem put_of_free (hone : ∀ y' ∈ ys, R x y' = true → y = y') (hy : y ∈ ys) (hR : R x y = true)
    (hfree : held y = none) : put R held x ys y = some x := by
  induction ys with
  | nil => exact absurd hy List.not_mem_nil
  | cons z ys ih =>
    rw [put]
    by_cases hyz : y = z
    · subst hyz
      rw [if_neg (by rw [hfree]; exact Bool.false_ne_true), if_pos hR, Function.update_self]
    · have hz : ¬ R x z = true := fun hz => hyz (hone z List.mem_cons_self hz)
      have hrest := ih (fun y' hy' => hone y' (List.mem_cons_of_mem z hy'))
        ((List.mem_cons.mp hy).resolve_left hyz)
      rw [if_neg hz, ite_self]
      exact hrest

theorem put_apply (hone : ∀ y ∈ ys, ∀ y' ∈ ys, R x y = true → R x y' = true → y = y')
    (hy : y ∈ ys) : put R held x ys y = (held y).or (if R x y then some x else none) := by
  by_cases hR : R x y = true
  · rw [if_pos hR]
    cases hheld : held y with
    | none => exact put_of_free (fun y' hy' => hone y hy y' hy' hR) hy hR hheld
    | some w =>
      rw [put_of_kept (Or.inr (by rw [hheld]; rfl)), hheld]
      rfl
  · rw [if_neg hR, put_of_kept (Or.inl (Bool.eq_false_iff.mpr hR)), Option.or_none]

/-- **A slot holds the first element it accepts.** -/
theorem fill_apply
    (hone : ∀ x ∈ xs, ∀ y ∈ ys, ∀ y' ∈ ys, R x y = true → R x y' = true → y = y') (hy : y ∈ ys) :
    fill R ys held xs y = (held y).or (xs.find? fun x => R x y) := by
  induction xs generalizing held with
  | nil => exact Option.or_none.symm
  | cons x xs ih =>
    have hstep := @ih (put R held x ys) fun x hx => hone x (List.mem_cons_of_mem _ hx)
    rw [fill, List.foldl_cons]
    rw [fill] at hstep
    rw [hstep, put_apply (hone x List.mem_cons_self) hy, Option.or_assoc, List.find?_cons]
    cases hR : R x y with
    | true => rfl
    | false => rfl

omit [DecidableEq β] in
theorem forall₂_held {P : α → β → Prop} {ys : List β} (h : ∀ y ∈ ys, ∀ x, held y = some x → P x y) :
    List.Forall₂ P (ys.filterMap held) (ys.filter fun y => (held y).isSome) := by
  induction ys with
  | nil => exact List.Forall₂.nil
  | cons y ys ih =>
    obtain ⟨hy, hys⟩ := List.forall_mem_cons.mp h
    cases hheld : held y with
    | none =>
      rw [List.filterMap_cons_none hheld, List.filter_cons_of_neg (by simp [hheld])]
      exact ih hys
    | some x =>
      rw [List.filterMap_cons_some hheld, List.filter_cons_of_pos (by simp [hheld])]
      exact List.Forall₂.cons (hy x hheld) (ih hys)

end FirstFit

/-!
## Taking what fits

The elements of a list are gone through, and each one that still fits under a maximum and
that someone says yes to is taken; who is asked may remember things from one question to the
next. What is taken stays under the maximum, and with room for everything all that is said yes
to is taken.
-/

namespace Fitting

variable {α σ : Type*} (value : α → Int) (nMax : Int) (ask : σ → α → Option (σ × Bool))

/-- The elements that are taken, when those before them come to `n`; `none` if there was no
answer. -/
def take : List α → σ → Int → Option (List α × σ)
  | [], s, _ => some ([], s)
  | x :: xs, s, n =>
    if n + value x > nMax then take xs s n
    else
      match ask s x with
      | none => none
      | some (s, false) => take xs s n
      | some (s, true) => (take xs s (n + value x)).map fun r => (x :: r.1, r.2)

variable {value nMax ask} {xs : List α} {s : σ} {n : Int} {r : List α × σ}

/-- **What is taken stays under the maximum.** -/
theorem sum_take_le (h : take value nMax ask xs s n = some r) (hn : n ≤ nMax) :
    n + (r.1.map value).sum ≤ nMax := by
  induction xs generalizing s n r with
  | nil =>
    obtain rfl := Option.some.inj h
    rw [List.map_nil, List.sum_nil, Int.add_zero]
    exact hn
  | cons x xs ih =>
    rw [take] at h
    by_cases hfits : n + value x > nMax
    · rw [if_pos hfits] at h
      exact ih h hn
    rw [if_neg hfits] at h
    rcases hask : ask s x with _ | ⟨s', _ | _⟩
    · rw [hask] at h
      cases h
    · rw [hask] at h
      exact ih h hn
    · rw [hask] at h
      obtain ⟨r', hr', rfl⟩ := Option.map_eq_some_iff.mp h
      have hrest := ih hr' (Int.not_lt.mp hfits)
      rw [List.map_cons, List.sum_cons]
      omega

theorem mem_take {I : σ → Prop} {P : α → Prop}
    (hask : ∀ s x s' b, I s → x ∈ xs → ask s x = some (s', b) → I s' ∧ (b = true → P x)) (hs : I s)
    (h : take value nMax ask xs s n = some r) : ∀ x ∈ r.1, x ∈ xs ∧ P x := by
  induction xs generalizing s n r with
  | nil =>
    obtain rfl := Option.some.inj h
    intro x hx
    cases hx
  | cons y xs ih =>
    have hask' : ∀ s x s' b, I s → x ∈ xs → ask s x = some (s', b) → I s' ∧ (b = true → P x) :=
      fun s x s' b hs hx => hask s x s' b hs (List.mem_cons_of_mem y hx)
    have hskip {s : σ} {r : List α × σ} (hs : I s) (h : take value nMax ask xs s n = some r) :
        ∀ x ∈ r.1, x ∈ y :: xs ∧ P x := by
      intro x hx
      obtain ⟨hmem, hP⟩ := ih hask' hs h x hx
      exact ⟨List.mem_cons_of_mem y hmem, hP⟩
    rw [take] at h
    by_cases hfits : n + value y > nMax
    · rw [if_pos hfits] at h
      exact hskip hs h
    rw [if_neg hfits] at h
    rcases hy : ask s y with _ | ⟨s', _ | _⟩
    · rw [hy] at h
      cases h
    · rw [hy] at h
      exact hskip (hask s y s' _ hs List.mem_cons_self hy).1 h
    · rw [hy] at h
      obtain ⟨r', hr', rfl⟩ := Option.map_eq_some_iff.mp h
      obtain ⟨hs', hP⟩ := hask s y s' _ hs List.mem_cons_self hy
      intro x hx
      rcases List.mem_cons.mp hx with rfl | hx
      · exact ⟨List.mem_cons_self, hP rfl⟩
      · obtain ⟨hmem, hPx⟩ := ih hask' hs' hr' x hx
        exact ⟨List.mem_cons_of_mem y hmem, hPx⟩

/-- **With room for everything** all that is said yes to is taken. -/
theorem exists_take {I : σ → Prop} {P : α → Prop}
    (hask : ∀ s x, I s → x ∈ xs → ∃ s' b, ask s x = some (s', b) ∧ I s' ∧ (P x → b = true))
    (hs : I s) (hroom : n + (xs.map fun x => max (value x) 0).sum ≤ nMax) :
    ∃ r, take value nMax ask xs s n = some r ∧ ∀ x ∈ xs, P x → x ∈ r.1 := by
  induction xs generalizing s n with
  | nil => exact ⟨_, rfl, fun x hx => by cases hx⟩
  | cons y xs ih =>
    have hask' : ∀ s x, I s → x ∈ xs → ∃ s' b, ask s x = some (s', b) ∧ I s' ∧ (P x → b = true) :=
      fun s x hs hx => hask s x hs (List.mem_cons_of_mem y hx)
    have hpos : 0 ≤ (xs.map fun x => max (value x) 0).sum := by
      refine List.sum_nonneg fun m hm => ?_
      obtain ⟨x, -, rfl⟩ := List.mem_map.mp hm
      exact le_max_right _ _
    rw [List.map_cons, List.sum_cons] at hroom
    have hvalue : value y ≤ max (value y) 0 := le_max_left _ _
    have hzero : 0 ≤ max (value y) 0 := le_max_right _ _
    obtain ⟨s', b, hy, hs', hb⟩ := hask s y hs List.mem_cons_self
    rw [take, if_neg (by omega), hy]
    cases b with
    | false =>
      obtain ⟨r, hr, hall⟩ := ih hask' hs' (n := n) (by omega)
      refine ⟨r, hr, fun x hx hP => ?_⟩
      rcases List.mem_cons.mp hx with rfl | hx
      · exact absurd (hb hP) Bool.false_ne_true
      · exact hall x hx hP
    | true =>
      obtain ⟨r, hr, hall⟩ := ih hask' hs' (n := n + value y) (by omega)
      refine ⟨_, by dsimp only; rw [hr]; rfl, fun x hx hP => ?_⟩
      rcases List.mem_cons.mp hx with rfl | hx
      · exact List.mem_cons_self
      · exact List.mem_cons_of_mem y (hall x hx hP)

variable (value ask) in
theorem exists_take_all (I : σ → Prop) (P : α → Prop) (xs : List α)
    (hask : ∀ s x, I s → x ∈ xs → ∃ s' b, ask s x = some (s', b) ∧ I s' ∧ (P x → b = true))
    (hs : I s) : ∃ r, take value (xs.map fun x => max (value x) 0).sum ask xs s 0 = some r ∧
      ∀ x ∈ xs, P x → x ∈ r.1 :=
  exists_take hask hs (Int.zero_add _).le

end Fitting

/-!
## Collecting

A loop that adds to a list, for each element, some of what the element has.
-/

namespace Collecting

theorem foldlM_sublist {α β : Type*} {f : List β → α → Option (List β)} {g : α → List β}
    (hstep : ∀ acc x acc', f acc x = some acc' → acc'.Sublist (acc ++ g x)) {l : List α}
    {acc r : List β} (h : l.foldlM f acc = some r) : r.Sublist (acc ++ l.flatMap g) := by
  induction l generalizing acc with
  | nil =>
    obtain rfl := Option.some.inj h
    rw [List.flatMap_nil, List.append_nil]
  | cons x l ih =>
    rw [List.foldlM_cons] at h
    obtain ⟨acc', hacc', hrest⟩ := Option.bind_eq_some_iff.mp h
    rw [List.flatMap_cons, ← List.append_assoc]
    exact (ih hrest).trans ((hstep acc x acc' hacc').append_right _)

end Collecting
