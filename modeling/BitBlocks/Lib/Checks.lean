import Mathlib.Data.List.Basic

/-!
# Sequences of checks

A validator is a chain of checks that stops at the first one that fails. In
`Except` that is plain `do` notation; this file has the inversion lemmas for it.
A successful chain passed every check, a failed one failed at one of them, and
"the only failures are of this kind" (`Only`) is preserved by sequencing.
-/

namespace Checks

variable {ε α β : Type}

/-- Fail with `e` when the condition holds. -/
def failIf (c : Bool) (e : ε) : Except ε Unit := if c then .error e else .ok ()

/-- The element at a position, or the given failure when there is none. -/
def at? (e : ε) (l : List α) (i : Nat) : Except ε α :=
  match l[i]? with
  | some a => .ok a
  | none => .error e

/-- What a lookup found, or the given failure. -/
def found? (e : ε) : Option α → Except ε α
  | some a => .ok a
  | none => .error e

/-- Run a check on every element, in order. -/
def all (l : List α) (f : α → Except ε Unit) : Except ε Unit :=
  match l with
  | [] => .ok ()
  | a :: l => f a >>= fun _ => all l f

/-- Every failure of the computation satisfies `p`. -/
def Only (p : ε → Prop) (x : Except ε α) : Prop := ∀ e, x = .error e → p e

variable {x : Except ε α} {f : α → Except ε β} {e e' : ε} {c : Bool} {u : Unit} {l : List α}
  {i : Nat} {a : α} {p : ε → Prop}

@[simp] theorem bind_eq_ok {b : β} : (x >>= f) = .ok b ↔ ∃ a, x = .ok a ∧ f a = .ok b := by
  cases x <;> simp [bind, Except.bind]

@[simp] theorem bind_eq_error :
    (x >>= f) = .error e ↔ x = .error e ∨ ∃ a, x = .ok a ∧ f a = .error e := by
  cases x <;> simp [bind, Except.bind]

@[simp] theorem exists_unit {p : Unit → Prop} : (∃ u, p u) ↔ p () :=
  ⟨fun ⟨(), h⟩ => h, fun h => ⟨(), h⟩⟩

@[simp] theorem failIf_eq_ok : failIf c e = .ok u ↔ c = false := by
  cases c <;> simp [failIf]

@[simp] theorem failIf_eq_error : failIf c e = .error e' ↔ c = true ∧ e = e' := by
  cases c <;> simp [failIf]

theorem guard_eq_true {c : Prop} [Decidable c] {b : Bool} :
    (if c then false else b) = true ↔ ¬ c ∧ b = true := by
  by_cases hc : c <;> simp [hc]

theorem at?_eq_ok : at? e l i = .ok a ↔ l[i]? = some a := by
  unfold at?
  cases l[i]? <;> simp

@[simp] theorem at?_eq_error : at? e l i = .error e' ↔ l.length ≤ i ∧ e = e' := by
  unfold at?
  rcases Nat.lt_or_ge i l.length with h | h
  · simp [List.getElem?_eq_getElem h, Nat.not_le.mpr h]
  · simp [h]

@[simp] theorem found?_eq_ok {o : Option α} : found? e o = .ok a ↔ o = some a := by
  cases o <;> simp [found?]

@[simp] theorem all_eq_ok {f : α → Except ε Unit} : all l f = .ok u ↔ ∀ a ∈ l, f a = .ok () := by
  induction l with
  | nil => simp [all]
  | cons a l ih => simp [all, ih, exists_unit]

theorem pass {c : Bool} (hc : c = false) (e : ε) (f : Unit → Except ε β) :
    (failIf c e >>= f) = f () := by
  rw [hc]
  rfl

theorem ok_bind (a : α) (f : α → Except ε β) : ((.ok a : Except ε α) >>= f) = f a := rfl

theorem bind_congr_ok {g : α → Except ε β} (h : ∀ a, x = .ok a → f a = g a) :
    (x >>= f) = (x >>= g) := by
  cases x with
  | error e => rfl
  | ok a => exact h a rfl

/-! ## What can fail -/

theorem Only.ok (a : α) : Only p (.ok a : Except ε α) := fun _ h => by simp at h

theorem Only.error (h : p e) : Only p (.error e : Except ε α) :=
  fun e' he => by rw [← Except.error.inj he]; exact h

theorem Only.bind (hx : Only p x) (hf : ∀ a, x = .ok a → Only p (f a)) : Only p (x >>= f) := by
  intro e he
  rcases bind_eq_error.mp he with h | ⟨a, ha, h⟩
  · exact hx e h
  · exact hf a ha e h

theorem Only.failIf (h : p e) : Only p (failIf c e) := by
  intro e' he
  rw [← (failIf_eq_error.mp he).2]
  exact h

theorem Only.at? (h : i < l.length) : Only p (at? e l i) := by
  intro e' he
  exact absurd (at?_eq_error.mp he).1 (Nat.not_le.mpr h)

theorem Only.all {f : α → Except ε Unit} (h : ∀ a ∈ l, Only p (f a)) : Only p (all l f) := by
  induction l with
  | nil => exact Only.ok ()
  | cons a l ih =>
    exact Only.bind (h a (by simp)) fun _ _ => ih fun b hb => h b (by simp [hb])

theorem Only.foldlM {σ : Type} {f : σ → α → Except ε σ} {s : σ} (h : ∀ s a, Only p (f s a)) :
    Only p (l.foldlM f s) := by
  induction l generalizing s with
  | nil => exact Only.ok s
  | cons a l ih => exact Only.bind (h s a) fun _ _ => ih

end Checks
