import Mathlib.Data.List.Basic

/-!
# Programs that may stop, and what they end in

A program reads and writes a state and may stop with a reason, at which point the
state is whatever it has become. `Wp m Q E s` says that `m` started in `s` ends
in `Q`, or stops in `E`. It is computed along the program: one equation for each
way to build one, so that a body is taken apart by rewriting, and one rule for
each kind of loop.
-/

namespace Hoare

variable {σ ε α β ι : Type}

/-- A program over the state `σ` that may stop with a reason in `ε`. -/
abbrev Prog (σ ε α : Type) : Type := ExceptT ε (StateM σ) α

/-- How a program started in `s` ends. -/
def exec (m : Prog σ ε α) (s : σ) : Except ε α × σ := StateT.run (ExceptT.run m) s

/-- From `s` the program ends in `Q`, or stops in `E`. -/
def Wp (m : Prog σ ε α) (Q : α → σ → Prop) (E : ε → σ → Prop) (s : σ) : Prop :=
  match exec m s with
  | (.ok a, s') => Q a s'
  | (.error e, s') => E e s'

variable {Q : α → σ → Prop} {E : ε → σ → Prop} {s : σ}

variable {a : α} {s' : σ} {m m' : Prog σ ε α} {f : α → Prog σ ε β} {c : Prop} {Q' : α → σ → Prop}
  {E' : ε → σ → Prop}

theorem wp_pure : Wp (pure a : Prog σ ε α) Q E s ↔ Q a s := Iff.rfl

theorem wp_get {Q : σ → σ → Prop} : Wp (get : Prog σ ε σ) Q E s ↔ Q s s := Iff.rfl

theorem wp_set {Q : PUnit → σ → Prop} : Wp (set s' : Prog σ ε PUnit) Q E s ↔ Q () s' := Iff.rfl

theorem wp_modify {Q : PUnit → σ → Prop} {f : σ → σ} :
    Wp (modify f : Prog σ ε PUnit) Q E s ↔ Q () (f s) := Iff.rfl

theorem exec_bind (m : Prog σ ε α) (f : α → Prog σ ε β) : exec (m >>= f) s =
      match exec m s with
      | (.ok a, s') => exec (f a) s'
      | (.error e, s') => (.error e, s') := by
  rcases h : exec m s with ⟨e | a, s'⟩ <;> unfold exec at h ⊢ <;>
    rw [ExceptT.run_bind, StateT.run_bind, h] <;> rfl

theorem wp_bind {Q : β → σ → Prop} :
    Wp (m >>= f) Q E s ↔ Wp m (fun a s' => Wp (f a) Q E s') E s := by
  unfold Wp
  rw [exec_bind]
  rcases exec m s with ⟨e | a, s'⟩ <;> rfl

theorem wp_ite [Decidable c] :
    Wp (if c then m else m') Q E s ↔ (c → Wp m Q E s) ∧ (¬ c → Wp m' Q E s) := by
  split <;> simp_all

theorem Wp.mono (h : Wp m Q E s) (hQ : ∀ a s', Q a s' → Q' a s') (hE : ∀ e s', E e s' → E' e s') :
    Wp m Q' E' s := by
  unfold Wp at h ⊢
  revert h
  rcases exec m s with ⟨e | a, s'⟩
  · exact hE e s'
  · exact hQ a s'

theorem Wp.and (h : Wp m Q E s) (h' : Wp m Q' E' s) :
    Wp m (fun a s' => Q a s' ∧ Q' a s') (fun e s' => E e s' ∧ E' e s') s := by
  unfold Wp at h h' ⊢
  revert h h'
  rcases exec m s with ⟨e | a, s'⟩ <;> exact And.intro

/-- **The loop rule.** What every round keeps, a loop over a list keeps. -/
theorem wp_foldlM {l : List ι} {f : α → ι → Prog σ ε α} {I : α → σ → Prop}
    (h : ∀ i ∈ l, ∀ a s, I a s → Wp (f a i) I E s) (hI : I a s) : Wp (l.foldlM f a) I E s := by
  induction l generalizing a s with
  | nil => exact hI
  | cons i l ih =>
    rw [List.foldlM_cons, wp_bind]
    refine (h i List.mem_cons_self a s hI).mono (fun a' s' hI' => ?_) fun _ _ hE => hE
    exact ih (fun j hj => h j (List.mem_cons_of_mem i hj)) hI'

/-- **The rule for a counting loop**: what holds after `i` rounds. -/
theorem wp_range {n : Nat} {f : Nat → Prog σ ε Unit} {I : Nat → σ → Prop}
    (h : ∀ i < n, ∀ s, I i s → Wp (f i) (fun _ => I (i + 1)) E s) (hI : I 0 s) :
    Wp ((List.range n).foldlM (fun _ i => f i) ()) (fun _ => I n) E s := by
  induction n with
  | zero => exact hI
  | succ n ih =>
    rw [List.range_succ, List.foldlM_append, wp_bind]
    refine (ih fun i hi => h i (Nat.lt_succ_of_lt hi)).mono (fun _ s' hs' => ?_) fun _ _ hE => hE
    rw [List.foldlM_cons, wp_bind]
    exact h n (Nat.lt_succ_self n) s' hs'

theorem Wp.of_exec (h : Wp m Q E s) (hm : exec m s = (.ok a, s')) : Q a s' := by
  unfold Wp at h
  rwa [hm] at h

theorem Wp.of_exec_error (h : Wp m Q E s) {e : ε} (hm : exec m s = (.error e, s')) : E e s' := by
  unfold Wp at h
  rwa [hm] at h

theorem Wp.exists_exec (h : Wp m Q (fun _ _ => False) s) :
    ∃ a s', exec m s = (.ok a, s') ∧ Q a s' := by
  unfold Wp at h
  rcases hm : exec m s with ⟨e | a, s'⟩
  · rw [hm] at h
    exact absurd h id
  · rw [hm] at h
    exact ⟨a, s', rfl, h⟩

theorem Wp.exists_exec_error (h : Wp m (fun _ _ => False) E s) :
    ∃ e s', exec m s = (.error e, s') ∧ E e s' := by
  unfold Wp at h
  rcases hm : exec m s with ⟨e | a, s'⟩
  · rw [hm] at h
    exact ⟨e, s', rfl, h⟩
  · rw [hm] at h
    exact absurd h id

/-! ## One program within another -/

/-- Where `m` does not stop, `m'` does the same. -/
def Within (m m' : Prog σ ε α) : Prop := ∀ s a s', exec m s = (.ok a, s') → exec m' s = (.ok a, s')

theorem Within.refl (m : Prog σ ε α) : Within m m := fun _ _ _ h => h

theorem Within.throw (e : ε) (m : Prog σ ε α) : Within (throw e) m := fun _ _ _ h => by cases h

theorem Within.bind {f' : α → Prog σ ε β} (h : Within m m') (hf : ∀ a, Within (f a) (f' a)) :
    Within (m >>= f) (m' >>= f') := by
  intro s b s'' hrun
  rw [exec_bind] at hrun ⊢
  rcases hm : exec m s with ⟨e | a, s'⟩
  · rw [hm] at hrun
    cases hrun
  · rw [hm] at hrun
    rw [h s a s' hm]
    exact hf a s' b s'' hrun

theorem Within.ite [Decidable c] {m1 m₁' m2 m₂' : Prog σ ε α} (h1 : Within m1 m₁')
    (h2 : Within m2 m₂') : Within (if c then m1 else m2) (if c then m₁' else m₂') := by
  split
  · exact h1
  · exact h2

theorem Within.guard {c' : Prop} [Decidable c] [Decidable c'] (e : ε) (hc : c' → c)
    (h : Within m m') :
    Within (if c then MonadExcept.throw e else m) (if c' then MonadExcept.throw e else m') := by
  by_cases hstop : c
  · rw [if_pos hstop]
    exact Within.throw e _
  · rw [if_neg hstop, if_neg fun h' => hstop (hc h')]
    exact h

end Hoare
