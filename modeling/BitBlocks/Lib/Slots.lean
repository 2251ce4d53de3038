import Mathlib.Data.Finset.Basic
import Mathlib.Data.List.AList

/-!
# Counting the places that hold a value

A table of finitely many places, each with a value in it, and for every value the
number of places that hold it. Writing one place changes two of the numbers by
one. Two ways to check such a table against what is expected of it, both by
ticking off what is met: a set from which each value is removed, and a map from
values to counts that are taken down to nothing.
-/

namespace Slots

variable {κ ι : Type} [DecidableEq ι]

/-- The number of places that hold a value. -/
def occ (places : List κ) (f : κ → ι) (x : ι) : Nat := (places.map f).count x

variable {places : List κ} {f : κ → ι} {x v : ι} {p : κ} {l : List ι}
  {left : AList fun _ : ι => Int}

theorem occ_pos : 0 < occ places f x ↔ ∃ p ∈ places, f p = x := by
  rw [occ, List.count_pos_iff, List.mem_map]

theorem occ_eq_zero : occ places f x = 0 ↔ ∀ p ∈ places, f p ≠ x := by
  rw [occ, List.count_eq_zero, List.mem_map]
  constructor
  · exact fun h p hp hx => h ⟨p, hp, hx⟩
  · rintro h ⟨p, hp, hx⟩
    exact h p hp hx

theorem occ_le {g : κ → ι} {y : ι} (h : ∀ p ∈ places, f p = x → g p = y) :
    occ places f x ≤ occ places g y := by
  rw [occ, occ, List.count, List.count, List.countP_map, List.countP_map]
  refine List.countP_mono_left fun p hp hx => ?_
  rw [Function.comp_apply, beq_iff_eq] at hx ⊢
  exact h p hp hx

theorem occ_update_of_notMem [DecidableEq κ] (hp : p ∉ places) (v x : ι) :
    occ places (Function.update f p v) x = occ places f x := by
  have hmap : places.map (Function.update f p v) = places.map f :=
    List.map_congr_left fun q hq => Function.update_of_ne (ne_of_mem_of_not_mem hq hp) _ _
  rw [occ, hmap, occ]

/-- **Writing a place** takes one off the count of what it held, and adds one to what is written. -/
theorem occ_update [DecidableEq κ] (hplaces : places.Nodup) (hp : p ∈ places) (v x : ι) :
    occ places (Function.update f p v) x + (if f p = x then 1 else 0) =
      occ places f x + if v = x then 1 else 0 := by
  induction places with
  | nil => exact absurd hp List.not_mem_nil
  | cons q places ih =>
    obtain ⟨hq, hplaces⟩ := List.nodup_cons.mp hplaces
    have hcons : ∀ g : κ → ι, occ (q :: places) g x =
        occ places g x + if g q = x then 1 else 0 := by
      intro g
      rw [occ, List.map_cons, List.count_cons]
      simp only [beq_iff_eq]
      rfl
    rw [hcons, hcons]
    rcases List.mem_cons.mp hp with rfl | hp
    · rw [occ_update_of_notMem hq, Function.update_self]
      omega
    · have hne : q ≠ p := fun h => hq (h ▸ hp)
      have hrest := ih hplaces hp
      rw [Function.update_of_ne hne]
      omega

theorem occ_update_of_ne [DecidableEq κ] (hplaces : places.Nodup) (hp : p ∈ places) (hold : f p ≠ x)
    (hv : v ≠ x) : occ places (Function.update f p v) x = occ places f x := by
  have hocc := occ_update hplaces (f := f) hp v x
  rwa [if_neg hold, if_neg hv, Nat.add_zero, Nat.add_zero] at hocc

theorem occ_update_self [DecidableEq κ] (hplaces : places.Nodup) (hp : p ∈ places) (hv : f p ≠ v) :
    occ places (Function.update f p v) v = occ places f v + 1 := by
  have hocc := occ_update hplaces (f := f) hp v v
  rwa [if_neg hv, if_pos rfl, Nat.add_zero] at hocc

/-! ## Ticking off -/

/-- Each value is removed from the set as it is met; one that is not there is an error. -/
def tick {ε : Type} (e : ε) (seen : Finset ι) (x : ι) : Except ε (Finset ι) :=
  if x ∈ seen then .ok (seen.erase x) else .error e

/-- **The set is ticked off** by values that are different, and all in it. -/
theorem foldlM_tick_eq_ok {ε : Type} {e : ε} {seen out : Finset ι} :
    l.foldlM (tick e) seen = .ok out ↔ l.Nodup ∧ (∀ x ∈ l, x ∈ seen) ∧ out = seen \ l.toFinset := by
  induction l generalizing seen with
  | nil =>
    have hnil : ([] : List ι).foldlM (tick e) seen = .ok seen := rfl
    rw [hnil, Except.ok.injEq]
    simp [eq_comm]
  | cons x l ih =>
    rw [List.foldlM_cons, List.nodup_cons, List.forall_mem_cons, List.toFinset_cons, tick]
    by_cases hx : x ∈ seen
    · have hstep : ((.ok (seen.erase x) : Except ε (Finset ι)) >>= fun s => l.foldlM (tick e) s) =
          l.foldlM (tick e) (seen.erase x) := rfl
      rw [if_pos hx, hstep, ih, Finset.erase_sdiff_comm, Finset.sdiff_insert]
      simp only [Finset.mem_erase]
      constructor
      · rintro ⟨hl, hmem, rfl⟩
        exact ⟨⟨fun hxl => (hmem x hxl).1 rfl, hl⟩, ⟨hx, fun y hy => (hmem y hy).2⟩, rfl⟩
      · rintro ⟨⟨hxl, hl⟩, ⟨-, hmem⟩, rfl⟩
        exact ⟨hl, fun y hy => ⟨fun hyx => hxl (hyx ▸ hy), hmem y hy⟩, rfl⟩
    · rw [if_neg hx]
      exact ⟨(nomatch ·), fun h => absurd h.2.1.1 hx⟩

theorem foldlM_guarded {ε σ : Type} {none : ι} {good : κ → Prop} {step : σ → ι → Except ε σ}
    {body : σ → κ → Except ε σ} (hbody : ∀ p s s', body s p = .ok s' ↔
      if f p = none then s' = s else good p ∧ step s (f p) = .ok s') {s s' : σ} :
    places.foldlM body s = .ok s' ↔ (∀ p ∈ places, f p ≠ none → good p) ∧
      ((places.map f).filter fun x => x ≠ none).foldlM step s = .ok s' := by
  induction places generalizing s with
  | nil => simp
  | cons p places ih =>
    have hbind {σ' : Type} {x : Except ε σ} {g : σ → Except ε σ'} {b : σ'} :
        (x >>= g) = .ok b ↔ ∃ a, x = .ok a ∧ g a = .ok b := by
      cases x <;> simp [bind, Except.bind]
    rw [List.foldlM_cons, hbind, List.map_cons, List.forall_mem_cons]
    simp only [hbody, ih]
    by_cases hp : f p = none
    · rw [List.filter_cons_of_neg (by simpa using hp)]
      simp [hp]
    · rw [List.filter_cons_of_pos (by simpa using hp), List.foldlM_cons, hbind]
      simp only [hp, if_false, ne_eq, not_false_eq_true, true_implies]
      constructor
      · rintro ⟨t, ⟨hgood, hstep⟩, hall, hrest⟩
        exact ⟨⟨hgood, hall⟩, t, hstep, hrest⟩
      · rintro ⟨⟨hgood, hall⟩, t, hstep, hrest⟩
        exact ⟨t, ⟨hgood, hstep⟩, hall, hrest⟩

/-- Each value has its count taken down by one as it is met, and is erased at zero; one that is not
there is an error. -/
def tickDown {ε : Type} (e : ε) (left : AList fun _ : ι => Int) (x : ι) :
    Except ε (AList fun _ : ι => Int) :=
  match left.lookup x with
  | none => .error e
  | some n => if n - 1 = 0 then .ok (left.erase x) else .ok (left.insert x (n - 1))

/-- The map holds how often each value is still to come. -/
def Left (left : AList fun _ : ι => Int) (l : List ι) : Prop :=
  ∀ x, left.lookup x = if l.count x = 0 then none else some (l.count x : Int)

theorem left_cons {ε : Type} {e : ε} {left' : AList fun _ : ι => Int}
    (hstep : tickDown e left x = .ok left') : Left left (x :: l) ↔ Left left' l := by
  rw [tickDown] at hstep
  cases hx : left.lookup x with
  | none =>
    rw [hx] at hstep
    exact nomatch hstep
  | some n =>
    rw [hx] at hstep
    have hother (y : ι) (hy : y ≠ x) : left'.lookup y = left.lookup y := by
      dsimp only at hstep
      split at hstep
      · obtain rfl := Except.ok.inj hstep
        exact AList.lookup_erase_ne hy
      · obtain rfl := Except.ok.inj hstep
        exact AList.lookup_insert_ne hy
    have hself : left'.lookup x = if n - 1 = 0 then none else some (n - 1) := by
      dsimp only at hstep
      split at hstep
      · obtain rfl := Except.ok.inj hstep
        rw [AList.lookup_erase, if_pos ‹_›]
      · obtain rfl := Except.ok.inj hstep
        rw [AList.lookup_insert, if_neg ‹_›]
    refine forall_congr' fun y => ?_
    by_cases hy : y = x
    · subst hy
      rw [hx, hself, List.count_cons_self, if_neg (Nat.succ_ne_zero _)]
      by_cases hlast : l.count y = 0
      · rw [if_pos hlast, hlast]
        split
        · simp only [Option.some.injEq, iff_true]
          omega
        · simp only [Option.some.injEq, reduceCtorEq, iff_false]
          omega
      · rw [if_neg hlast]
        split
        · simp only [Option.some.injEq, reduceCtorEq, iff_false]
          omega
        · simp only [Option.some.injEq]
          omega
    · rw [hother y hy, List.count_cons_of_ne (Ne.symm hy)]

/-- **The counts are ticked off** to the last one when they are those of the values. -/
theorem foldlM_tickDown_eq_ok {ε : Type} {e : ε} :
    (∃ out, l.foldlM (tickDown e) left = .ok out ∧ ∀ x, out.lookup x = none) ↔ Left left l := by
  induction l generalizing left with
  | nil =>
    constructor
    · rintro ⟨out, hout, hnone⟩
      obtain rfl := Except.ok.inj hout
      exact fun x => by rw [hnone, List.count_nil, if_pos rfl]
    · intro h
      exact ⟨left, rfl, fun x => by rw [h x, List.count_nil, if_pos rfl]⟩
  | cons x l ih =>
    rw [List.foldlM_cons]
    cases hstep : tickDown e left x with
    | error err =>
      constructor
      · rintro ⟨out, hout, -⟩
        exact nomatch hout
      · intro h
        have hx := h x
        rw [List.count_cons_self, if_neg (Nat.succ_ne_zero _)] at hx
        rw [tickDown, hx] at hstep
        dsimp only at hstep
        split at hstep <;> exact nomatch hstep
    | ok left' =>
      rw [left_cons hstep]
      exact ih

end Slots
