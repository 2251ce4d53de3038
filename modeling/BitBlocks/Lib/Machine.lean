import Mathlib.Data.Option.Basic
import Mathlib.Data.List.Induction

/-!
# Machines that answer, and specifications that check answers

A machine takes an operation in a state, moves on and answers; `none` is a run that was
aborted. A specification moves on under an operation and an answer, and refuses the
answers that are wrong. A relation that every pair of steps keeps makes every run of the
machine one that is never aborted and never refused.

A machine may also just move on. A quantity its steps never lower, and leave alone just
when they meet a condition, tells a run whose steps all met it.
-/

namespace Machine

variable {σ τ ι α : Type*}

/-- A run of the machine, with its answers in order. -/
def run (step : σ → ι → Option (σ × α)) : σ → List ι → Option (σ × List α)
  | s, [] => some (s, [])
  | s, i :: is =>
    match step s i with
    | none => none
    | some (s', a) =>
      match run step s' is with
      | none => none
      | some (s'', as) => some (s'', a :: as)

theorem forall_step_nil {Q : List ι → ι → Prop} : ∀ past i, past ++ [i] <+: [] → Q past i :=
  fun past i h => absurd (List.prefix_nil.mp h) (by simp)

theorem forall_step_cons {Q : List ι → ι → Prop} {j : ι} {is : List ι} (hj : Q [] j)
    (his : ∀ past i, past ++ [i] <+: is → Q (j :: past) i) :
    ∀ past i, past ++ [i] <+: j :: is → Q past i := by
  rintro (_ | ⟨k, past⟩) i h
  · obtain ⟨rfl, -⟩ := List.cons_prefix_cons.mp h
    exact hj
  · obtain ⟨rfl, hpast⟩ := List.cons_prefix_cons.mp h
    exact his past i hpast

/-- The specification on the operations and the answers of a run. -/
def accepts (check : τ → ι → α → Option τ) : τ → List ι → List α → Option τ
  | t, [], [] => some t
  | t, i :: is, a :: as =>
    match check t i a with
    | none => none
    | some t' => accepts check t' is as
  | _, _, _ => none

/-- Related states stay related, and the machine's answer is one the specification takes. -/
def Simulates (step : σ → ι → Option (σ × α)) (check : τ → ι → α → Option τ)
    (R : σ → τ → Prop) : Prop :=
  ∀ s t i, R s t → ∃ s' a t', step s i = some (s', a) ∧ check t i a = some t' ∧ R s' t'

variable {step : σ → ι → Option (σ × α)} {check : τ → ι → α → Option τ} {R : σ → τ → Prop}

/-- **A simulation carries over to runs.** -/
theorem Simulates.run (h : Simulates step check R) (is : List ι) {s : σ} {t : τ} (hR : R s t) :
    ∃ s' as t', Machine.run step s is = some (s', as) ∧ accepts check t is as = some t' ∧
      R s' t' := by
  induction is generalizing s t with
  | nil => exact ⟨s, [], t, rfl, rfl, hR⟩
  | cons i is ih =>
    obtain ⟨s1, a, t1, hs, ht, hR1⟩ := h s t i hR
    obtain ⟨s2, as, t2, hs', ht', hR2⟩ := ih hR1
    refine ⟨s2, a :: as, t2, ?_, ?_, hR2⟩
    · rw [Machine.run, hs]
      dsimp only
      rw [hs']
    · rw [accepts, ht]
      exact ht'

/-- **What every step keeps, every run keeps.** -/
theorem run_invariant {I : σ → Prop} (h : ∀ s i s' a, I s → step s i = some (s', a) → I s')
    {is : List ι} {s s' : σ} {as : List α} (hs : I s) (hr : Machine.run step s is = some (s', as)) :
    I s' := by
  induction is generalizing s as with
  | nil =>
    rw [Machine.run] at hr
    obtain rfl := (Prod.mk.inj (Option.some.inj hr)).1
    exact hs
  | cons i is ih =>
    rw [Machine.run] at hr
    cases h1 : step s i with
    | none =>
      rw [h1] at hr
      simp at hr
    | some p =>
      obtain ⟨s1, a⟩ := p
      rw [h1] at hr
      dsimp only at hr
      cases h2 : Machine.run step s1 is with
      | none =>
        rw [h2] at hr
        simp at hr
      | some q =>
        obtain ⟨s2, as'⟩ := q
        rw [h2] at hr
        obtain rfl := (Prod.mk.inj (Option.some.inj hr)).1
        exact ih (h s i s1 a hs h1) h2

/-! ## Machines without answers -/

section steps

variable (next : σ → ι → Option σ)

/-- A run, step after step; `none` if one of them is aborted. -/
def steps (s : σ) (is : List ι) : Option σ := is.foldlM next s

/-- Every step of a run meets the condition, in the state it is taken in. -/
def EveryStep (C : σ → ι → Prop) : σ → List ι → Prop
  | _, [] => True
  | s, i :: is => C s i ∧ ∀ s', next s i = some s' → EveryStep C s' is

variable {next} {I : σ → Prop} {C : σ → ι → Prop} {s s' : σ} {i : ι} {is : List ι}

@[simp] theorem steps_nil : steps next s [] = some s := rfl

theorem steps_cons_eq_some :
    steps next s (i :: is) = some s' ↔ ∃ s1, next s i = some s1 ∧ steps next s1 is = some s' := by
  rw [steps, List.foldlM_cons]
  exact Option.bind_eq_some_iff

theorem steps_append_eq_some {js : List ι} :
    steps next s (is ++ js) = some s' ↔ ∃ s1, steps next s is = some s1 ∧
    steps next s1 js = some s' := by
  rw [steps, List.foldlM_append]
  exact Option.bind_eq_some_iff

theorem steps_concat_eq_some :
    steps next s (is ++ [i]) = some s' ↔ ∃ s1, steps next s is = some s1 ∧ next s1 i = some s' := by
  rw [steps_append_eq_some]
  simp only [steps, List.foldlM_cons, List.foldlM_nil, bind_pure]

theorem EveryStep.imp {D : σ → ι → Prop} (h : ∀ s i, C s i → D s i) (hC : EveryStep next C s is) :
    EveryStep next D s is := by
  induction is generalizing s with
  | nil => trivial
  | cons i is ih => exact ⟨h s i hC.1, fun s' hs' => ih (hC.2 s' hs')⟩

/-- **What every step that meets the condition keeps** holds all through a run of them. -/
theorem EveryStep.invariant (h : ∀ s i s', I s → C s i → next s i = some s' → I s') (hs : I s)
    (hC : EveryStep next C s is) :
    EveryStep next (fun s i => I s ∧ C s i) s is ∧ ∀ s', steps next s is = some s' → I s' := by
  induction is generalizing s with
  | nil =>
    refine ⟨trivial, fun s' hr => ?_⟩
    obtain rfl := Option.some.inj hr
    exact hs
  | cons i is ih =>
    obtain ⟨hCi, hrest⟩ := hC
    refine ⟨⟨⟨hs, hCi⟩, fun s' hs' => (ih (h s i s' hs hCi hs') (hrest s' hs')).1⟩, ?_⟩
    intro s'' hr
    obtain ⟨s', hs', hr'⟩ := steps_cons_eq_some.mp hr
    exact (ih (h s i s' hs hCi hs') (hrest s' hs')).2 s'' hr'

/-- **Under an invariant that the steps keep**, two conditions that agree on one step agree on
runs. -/
theorem EveryStep.iff_of_invariant {D : σ → ι → Prop}
    (hkeep : ∀ s i s', I s → C s i → next s i = some s' → I s')
    (hiff : ∀ s i, I s → (C s i ↔ D s i)) (hs : I s) :
    EveryStep next C s is ↔ EveryStep next D s is := by
  induction is generalizing s with
  | nil => exact Iff.rfl
  | cons i is ih =>
    constructor
    · intro ⟨hC, hrest⟩
      exact ⟨(hiff s i hs).mp hC, fun s' hs' => (ih (hkeep s i s' hs hC hs')).mp (hrest s' hs')⟩
    · intro ⟨hD, hrest⟩
      have hC := (hiff s i hs).mpr hD
      exact ⟨hC, fun s' hs' => (ih (hkeep s i s' hs hC hs')).mpr (hrest s' hs')⟩

/--
**A drift that only grows** is zero at the end of a run iff it was zero at the start and
no step added to it.
-/
theorem steps_drift {e : σ → Int}
    (h : ∀ s i s', I s → next s i = some s' → I s' ∧ e s ≤ e s' ∧ (e s' = e s ↔ C s i))
    (hs : I s) (hnonneg : 0 ≤ e s) (hr : steps next s is = some s') :
    I s' ∧ (e s' = 0 ↔ e s = 0 ∧ EveryStep next C s is) := by
  induction is generalizing s with
  | nil =>
    obtain rfl := Option.some.inj hr
    exact ⟨hs, fun h0 => ⟨h0, trivial⟩, fun h0 => h0.1⟩
  | cons i is ih =>
    obtain ⟨s1, h1, h2⟩ := steps_cons_eq_some.mp hr
    obtain ⟨hI, hle, hC⟩ := h s i s1 hs h1
    obtain ⟨hI', hiff⟩ := ih hI (by omega) h2
    refine ⟨hI', ?_⟩
    rw [hiff]
    constructor
    · intro ⟨h0, hev⟩
      refine ⟨by omega, hC.mp (by omega), ?_⟩
      intro s2 hs2
      rw [h1] at hs2
      exact Option.some.inj hs2 ▸ hev
    · intro ⟨h0, hc, hev⟩
      have heq := hC.mpr hc
      exact ⟨by omega, hev s1 h1⟩

end steps

/-! ## What holds all through a run -/

/--
If a message keeps a property just when it meets a condition, the property holds all
through a run iff every message of it meets the condition.
-/
theorem always_iff {P : List ι → Prop} {C : List ι → ι → Prop} (h0 : P [])
    (is : List ι) (hstep : ∀ past i, past ++ [i] <+: is → P past → (P (past ++ [i]) ↔ C past i)) :
    (∀ past, past <+: is → P past) ↔ ∀ past i, past ++ [i] <+: is → C past i := by
  constructor
  · intro h past i his
    exact (hstep past i his (h past ((List.prefix_append past [i]).trans his))).mp (h _ his)
  · intro h past his
    induction past using List.reverseRecOn with
    | nil => exact h0
    | append_singleton past i ih =>
      have hpast := ih ((List.prefix_append past [i]).trans his)
      exact (hstep past i his hpast).mpr (h past i his)

theorem forall_concat_iff {C : List ι → ι → Prop} {is : List ι} :
    (∀ past i, past ++ [i] <+: is → C past i) ↔ ∀ n, ∀ h : n < is.length, C (is.take n) is[n] := by
  constructor
  · intro h n hn
    refine h _ _ ⟨is.drop (n + 1), ?_⟩
    rw [List.take_append_getElem, List.take_append_drop]
  · intro h past i ⟨rest, his⟩
    have hn : past.length < is.length := by rw [← his]; simp
    have hC := h past.length hn
    subst his
    simpa using hC

end Machine

/-!
## Two runs of a machine, one without some of its inputs

Some inputs of a run are marked to be left out. They do not affect the others if the
machine that gets them all and the one that never sees the marked ones answer each other
input alike, and look alike after every step. As for noninterference, that is shown by an
unwinding relation between the two states: a marked input keeps it on one side alone, the
others keep it on both. The relation may know the inputs still to come.
-/

namespace Unwinding

variable {σ ι α β : Type*} (step : σ → ι → σ × α) (view : σ → β)

/-- Every marked input of a run meets a condition on the state it finds and what is to come. -/
def Along (C : σ → ι → List (Bool × ι) → Prop) : σ → List (Bool × ι) → Prop
  | _, [] => True
  | s, (marked, i) :: rest => (marked = true → C s i rest) ∧ Along C (step s i).1 rest

variable {step view} {C : σ → ι → List (Bool × ι) → Prop} {R : List (Bool × ι) → σ → σ → Prop}

theorem Along.and {C' : σ → ι → List (Bool × ι) → Prop} {s : σ} {run : List (Bool × ι)}
    (h : Along step C s run) (h' : Along step C' s run) :
    Along step (fun s i rest => C s i rest ∧ C' s i rest) s run := by
  induction run generalizing s with
  | nil => trivial
  | cons x rest ih => exact ⟨fun hm => ⟨h.1 hm, h'.1 hm⟩, ih h.2 h'.2⟩

end Unwinding
