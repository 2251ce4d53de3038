import Mathlib.Algebra.Order.Group.Int
import BitBlocks.Lib.Table

/-!
# The search for the best

A loop over a list that keeps, of the elements it may choose, the first with the highest
score, and starts from a score that has to be beaten.
-/

namespace Best

variable {α β : Type*}

/-- One round: an element that may be chosen and is strictly better is kept. -/
def round (ok : α → Bool) (score : α → Int) (val : α → β) (best : Int × β) (a : α) : Int × β :=
  if decide (score a > best.1) && ok a then (score a, val a) else best

def search (ok : α → Bool) (score : α → Int) (val : α → β) (l : List α) (best : Int × β) :
    Int × β :=
  l.foldl (round ok score val) best

variable (ok : α → Bool) (score : α → Int) (val : α → β)

theorem le_round (best : Int × β) (a : α) : best.1 ≤ (round ok score val best a).1 := by
  unfold round
  split
  · rename_i h
    rw [Bool.and_eq_true, decide_eq_true_eq] at h
    exact le_of_lt h.1
  · exact le_refl _

theorem le_search (l : List α) (best : Int × β) : best.1 ≤ (search ok score val l best).1 := by
  induction l generalizing best with
  | nil => exact le_refl _
  | cons a l ih => exact (le_round ok score val best a).trans (ih _)

theorem score_le_search {l : List α} {a : α} (ha : a ∈ l) (hok : ok a = true) (best : Int × β) :
    score a ≤ (search ok score val l best).1 := by
  induction l generalizing best with
  | nil => simp at ha
  | cons b l ih =>
    rcases List.mem_cons.mp ha with rfl | ha
    · have hround : score a ≤ (round ok score val best a).1 := by
        unfold round
        by_cases h : score a > best.1
        · simp [h, hok]
        · simp only [h, decide_false, Bool.false_and, Bool.false_eq_true, if_false]
          omega
      exact hround.trans (le_search ok score val l _)
    · exact ih ha _

theorem search_cases (l : List α) (best : Int × β) : search ok score val l best = best ∨
      ∃ a ∈ l, ok a = true ∧ search ok score val l best = (score a, val a) := by
  induction l generalizing best with
  | nil => exact Or.inl rfl
  | cons b l ih =>
    have hstep : search ok score val (b :: l) best =
        search ok score val l (round ok score val best b) := rfl
    rw [hstep]
    rcases ih (round ok score val best b) with h | ⟨a, ha, hok, h⟩
    · rw [h]
      unfold round
      by_cases hb : (decide (score b > best.1) && ok b) = true
      · rw [if_pos hb]
        rw [Bool.and_eq_true] at hb
        exact Or.inr ⟨b, List.mem_cons_self, hb.2, rfl⟩
      · rw [if_neg hb]
        exact Or.inl rfl
    · exact Or.inr ⟨a, List.mem_cons_of_mem _ ha, hok, h⟩

theorem search_eq_or_lt (l : List α) (best : Int × β) :
    search ok score val l best = best ∨ best.1 < (search ok score val l best).1 := by
  induction l generalizing best with
  | nil => exact Or.inl rfl
  | cons a l ih =>
    have hstep : search ok score val (a :: l) best =
        search ok score val l (round ok score val best a) := rfl
    rw [hstep]
    by_cases hbetter : (decide (score a > best.1) && ok a) = true
    · have hround : round ok score val best a = (score a, val a) := if_pos hbetter
      rw [Bool.and_eq_true, decide_eq_true_eq] at hbetter
      have hle := le_search ok score val l (round ok score val best a)
      rw [hround] at hle ⊢
      exact Or.inr (lt_of_lt_of_le hbetter.1 hle)
    · have hround : round ok score val best a = best := if_neg hbetter
      rw [hround]
      exact ih best

theorem exists_of_lt_search {l : List α} {best : Int × β}
    (h : best.1 < (search ok score val l best).1) :
    ∃ a ∈ l, ok a = true ∧ search ok score val l best = (score a, val a) := by
  rcases search_cases ok score val l best with he | he
  · rw [he] at h
    exact absurd h (lt_irrefl _)
  · exact he

theorem search_fst (l : List α) (best : Int × β) : (search ok score val l best).1 =
    l.foldl (fun n a => if decide (score a > n) && ok a then score a else n) best.1 := by
  induction l generalizing best with
  | nil => rfl
  | cons a l ih =>
    have hround : (round ok score val best a).1 =
        if decide (score a > best.1) && ok a then score a else best.1 := by
      unfold round
      split <;> rfl
    rw [List.foldl_cons, ← hround]
    exact ih _

end Best

/-!
## The newest value under each key

A table that holds one value a key, and lets go of it only for a value that comes after
it. What comes after what is a relation on the values; it need not be total, nor
transitive. Values arrive in any order. A value that comes after all the others is held in
the end, whatever the order; a value that does not may find another one in its place
(`exists_perm_held_ne`).
-/

namespace Newest

variable {κ ν : Type*} (after : ν → ν → Prop) [DecidableRel after]

/-! ## One key -/

/-- Nothing is held, or something that gives way to the value. -/
def newer (h : Option ν) (v : ν) : Bool := h.all fun w => decide (after w v)

def hold (h : Option ν) (v : ν) : Option ν := if newer after h v then some v else h

/-- What is held after the values came one after the other. -/
def held (h : Option ν) (l : List ν) : Option ν := l.foldl (hold after) h

/-- All the other values that came, and what was held, give way to the value. -/
def Leads (v : ν) (h : Option ν) (l : List ν) : Prop :=
  (∀ w ∈ l, w = v ∨ after w v) ∧ ∀ w, h = some w → w = v ∨ after w v

variable {after} {h : Option ν} {l : List ν} {v w : ν}

@[simp] theorem newer_none : newer after none v = true := rfl

@[simp] theorem newer_some : newer after (some w) v = true ↔ after w v := by
  simp [newer]

theorem newer_iff : newer after h v = true ↔ ∀ w, h = some w → after w v := by
  cases h <;> simp [newer]

variable (after) in
theorem hold_cases (h : Option ν) (v : ν) : hold after h v = h ∨ hold after h v = some v := by
  unfold hold
  split
  · exact Or.inr rfl
  · exact Or.inl rfl

theorem held_cons (h : Option ν) (v : ν) (l : List ν) :
    held after h (v :: l) = held after (hold after h v) l := rfl

theorem held_append (h : Option ν) (l l' : List ν) :
    held after h (l ++ l') = held after (held after h l) l' := List.foldl_append

variable (after) in
theorem held_cases (h : Option ν) (l : List ν) :
    held after h l = h ∨ ∃ v ∈ l, held after h l = some v := by
  induction l generalizing h with
  | nil => exact Or.inl rfl
  | cons a l ih =>
    rw [held_cons]
    rcases ih (hold after h a) with he | ⟨v, hv, he⟩
    · rcases hold_cases after h a with ha | ha
      · exact Or.inl (he.trans ha)
      · exact Or.inr ⟨a, List.mem_cons_self, he.trans ha⟩
    · exact Or.inr ⟨v, List.mem_cons_of_mem _ hv, he⟩

theorem exists_held_ge {time : ν → Int} (htime : ∀ {a b : ν}, after a b → time a ≤ time b)
    (w : ν) (l : List ν) : ∃ v, held after (some w) l = some v ∧ time w ≤ time v := by
  induction l generalizing w with
  | nil => exact ⟨w, rfl, Int.le_refl _⟩
  | cons a l ih =>
    rw [held_cons, hold]
    split
    · rename_i hn
      have hle := htime (newer_some.mp hn)
      obtain ⟨v, hv, hav⟩ := ih a
      exact ⟨v, hv, by omega⟩
    · exact ih w

theorem hold_stays (hv : ¬ after w v) : hold after (some w) v = some w := by
  rw [hold, if_neg]
  rw [newer_some]
  exact hv

theorem held_stays (hl : ∀ v ∈ l, ¬ after w v) : held after (some w) l = some w := by
  induction l with
  | nil => rfl
  | cons a l ih =>
    rw [held_cons, hold_stays (hl a List.mem_cons_self)]
    exact ih fun v hv => hl v (List.mem_cons_of_mem _ hv)

theorem hold_self (v : ν) : hold after (some v) v = some v := by
  rcases hold_cases after (some v) v with he | he <;> exact he

variable (after) in
theorem hold_leads (hasymm : ∀ {a b : ν}, after a b → ¬ after b a) {a : ν}
    (ha : a = v ∨ after a v) (hh : ∀ w, h = some w → w = v ∨ after w v)
    (hav : a = v ∨ h = some v) : hold after h a = some v := by
  rcases hav with rfl | rfl
  · cases h with
    | none => rfl
    | some w =>
      rcases hh w rfl with rfl | hw
      · exact hold_self w
      · rw [hold, if_pos (newer_some.mpr hw)]
  · rcases ha with rfl | ha
    · exact hold_self a
    · exact hold_stays (hasymm ha)

/-- **A value all others give way to is held in the end**, in whatever order they came. -/
theorem held_eq_of_leads (hasymm : ∀ {a b : ν}, after a b → ¬ after b a)
    (hlead : Leads after v h l) (hv : v ∈ l ∨ h = some v) : held after h l = some v := by
  induction l generalizing h with
  | nil => exact hv.resolve_left (by simp)
  | cons a l ih =>
    obtain ⟨hl, hh⟩ := hlead
    have ha := hl a List.mem_cons_self
    have hl' : ∀ w ∈ l, w = v ∨ after w v := fun w hw => hl w (List.mem_cons_of_mem _ hw)
    rw [held_cons]
    by_cases hav : a = v ∨ h = some v
    · have hhold := hold_leads after hasymm ha hh hav
      exact ih ⟨hl', fun w hw => Or.inl (Option.some.inj (hw.symm.trans hhold))⟩ (Or.inr hhold)
    · -- the value is still to come
      have hvl : v ∈ l := by
        rcases hv with hv | hv
        · exact (List.mem_cons.mp hv).resolve_left fun he => hav (Or.inl he.symm)
        · exact absurd (Or.inr hv) hav
      refine ih ⟨hl', fun w hw => ?_⟩ (Or.inl hvl)
      rcases hold_cases after h a with he | he
      · exact hh w (he.symm.trans hw)
      · rw [he] at hw
        exact Option.some.inj hw ▸ ha

/--
**And no other one is sure to be**: if something that is to come does not give way to a
value, the values can come in an order that leaves another one.
-/
theorem exists_perm_held_ne (hnodup : l.Nodup) (hv : v ∈ l) (hw : w ∈ l) (hne : w ≠ v)
    (hnot : ¬ after w v) : ∃ l', l'.Perm l ∧ held after none l' ≠ some v := by
  classical
  have hwv : w ∈ l.erase v := (List.mem_erase_of_ne hne).mpr hw
  have hperm : (w :: v :: (l.erase v).erase w).Perm l :=
    ((List.Perm.swap v w _).trans ((List.perm_cons_erase hwv).symm.cons v)).trans
      (List.perm_cons_erase hv).symm
  have hnd := List.nodup_cons.mp (hperm.nodup_iff.mpr hnodup)
  have hvl : v ∉ (l.erase v).erase w := (List.nodup_cons.mp hnd.2).1
  refine ⟨_, hperm, ?_⟩
  -- the value comes second, and never again
  rw [held_cons, show hold after none w = some w from rfl, held_cons, hold_stays hnot]
  rcases held_cases after (some w) ((l.erase v).erase w) with he | ⟨u, hu, he⟩
  · rw [he]
    exact fun hc => hne (Option.some.inj hc)
  · rw [he]
    exact fun hc => hvl (Option.some.inj hc ▸ hu)

/-! ## A table -/

section table

variable [DecidableEq κ] (after) (key : ν → κ)

def put (m : AList fun _ : κ => ν) (v : ν) : AList fun _ : κ => ν :=
  if newer after (m.lookup (key v)) v then m.insert (key v) v else m

variable {after key}

theorem lookup_put (m : AList fun _ : κ => ν) (v : ν) (k : κ) : (put after key m v).lookup k =
      if key v = k then hold after (m.lookup k) v else m.lookup k := by
  unfold put
  by_cases hk : key v = k
  · subst hk
    rw [if_pos rfl, hold]
    split
    · rw [Table.lookup_insert, if_pos rfl]
    · rfl
  · rw [if_neg hk]
    split
    · rw [Table.lookup_insert, if_neg fun he => hk he.symm]
    · rfl

/-- **Keys do not meet**: what is under one is what its own values leave. -/
theorem lookup_foldl_put (l : List ν) (m : AList fun _ : κ => ν) (k : κ) :
    (l.foldl (put after key) m).lookup k =
      held after (m.lookup k) (l.filter fun v => decide (key v = k)) := by
  induction l generalizing m with
  | nil => rfl
  | cons a l ih =>
    rw [List.foldl_cons, ih, lookup_put]
    by_cases hk : key a = k
    · rw [if_pos hk, List.filter_cons_of_pos (by simpa using hk), held_cons]
    · rw [if_neg hk, List.filter_cons_of_neg (by simpa using hk)]

end table

end Newest
