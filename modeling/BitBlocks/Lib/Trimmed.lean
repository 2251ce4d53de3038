import Mathlib.Data.List.DropRight
import Mathlib.Data.List.GetD

/-!
# Lists with a default tail

A list over a type with a distinguished *null* value can be read as a total
function that is null almost everywhere: position `i` holds `l.getD i null`. Two
lists may spell the same function, because nulls at the end are invisible to
that reading. Dropping them gives a normal form.

This file is the small theory of that normal form: trimming does not change the
reading, and two trimmed lists with the same reading are equal. A structure that
stores such a list and re-trims it after every write can therefore be reasoned
about position by position, without ever mentioning lengths.
-/

namespace Trimmed

variable {α : Type*} (isNull : α → Bool) (null : α)

def trim (l : List α) : List α := l.rdropWhile isNull

/-- Extend with nulls to at least `n` entries; longer lists are left alone. -/
def grow (n : Nat) (l : List α) : List α := l ++ List.replicate (n - l.length) null

/-- The normal form: every null is *the* null, and the last entry is not one. -/
structure Normal (l : List α) : Prop where
  /-- Nulls carry no data. -/
  canonical : ∀ a ∈ l, isNull a = true → a = null
  /-- The last entry is not null. -/
  last : ∀ h : l ≠ [], isNull (l.getLast h) = false

variable {isNull null}

theorem normal_nil : Normal isNull null [] := ⟨by simp, by simp⟩

variable {l l' : List α} {n : Nat}

theorem normal_trim (h : ∀ a ∈ l, isNull a = true → a = null) :
    Normal isNull null (trim isNull l) where
  canonical a ha := h a ((List.rdropWhile_prefix isNull l).subset ha)
  last hne := by
    have := List.rdropWhile_last_not isNull l hne
    simpa [trim] using this

theorem trim_of_normal (h : Normal isNull null l) : trim isNull l = l :=
  List.rdropWhile_eq_self_iff.mpr fun hne => by simp [h.last hne]

/-- **Trimming does not change what a list says about any position.** -/
theorem getD_trim (h : ∀ a ∈ l, isNull a = true → a = null) (i : Nat) :
    (trim isNull l).getD i null = l.getD i null := by
  induction l using List.reverseRecOn with
  | nil => rfl
  | append_singleton l a ih =>
    rw [trim, List.rdropWhile_concat]
    split
    · rename_i ha
      have hl := ih fun b hb => h b (List.mem_append_left _ hb)
      rw [trim] at hl
      rw [hl]
      have hanull : a = null := h a (by simp) ha
      rcases Nat.lt_or_ge i l.length with hi | hi
      · rw [List.getD_append _ _ _ _ hi]
      · rw [List.getD_eq_default _ _ hi, List.getD_append_right _ _ _ _ hi, hanull]
        cases i - l.length <;> simp
    · rfl

theorem Normal.length_le (h : Normal isNull null l) (hn : isNull null = true)
    (heq : ∀ i, l.getD i null = l'.getD i null) : l.length ≤ l'.length := by
  rcases List.eq_nil_or_concat l with rfl | ⟨m, a, rfl⟩
  · simp
  · have hlast := h.last (by simp)
    have hm : (m.concat a).getD m.length null = a := by simp
    by_contra hlt
    have hle : l'.length ≤ m.length := by simp at hlt; omega
    have hnull : (m.concat a).getD m.length null = null := by
      rw [heq, List.getD_eq_default _ _ hle]
    rw [hm] at hnull
    simp only [List.concat_eq_append, List.getLast_append_singleton] at hlast
    rw [hnull, hn] at hlast
    exact absurd hlast (by simp)

/-- **Two lists in normal form that agree at every position are equal.** -/
theorem Normal.ext (h : Normal isNull null l) (h' : Normal isNull null l') (hn : isNull null = true)
    (heq : ∀ i, l.getD i null = l'.getD i null) : l = l' := by
  have hlen : l.length = l'.length :=
    Nat.le_antisymm (h.length_le hn heq) (h'.length_le hn fun i => (heq i).symm)
  refine List.ext_getElem hlen fun i hi hi' => ?_
  rw [← List.getD_eq_getElem l null hi, ← List.getD_eq_getElem l' null hi']
  exact heq i

theorem trim_eq_nil : trim isNull l = [] ↔ ∀ a ∈ l, isNull a = true := List.rdropWhile_eq_nil_iff

theorem getD_set (hn : n < l.length) (a : α) (i : Nat) :
    (l.set n a).getD i null = if i = n then a else l.getD i null := by
  rw [List.getD_eq_getElem?_getD, List.getElem?_set, List.getD_eq_getElem?_getD]
  split
  · rename_i h; subst h; simp
  · rename_i h; rw [if_neg (Ne.symm h)]

theorem length_grow (n : Nat) (l : List α) : (grow null n l).length = max n l.length := by
  simp [grow]; omega

/-- **Growing does not change what a list says about any position.** -/
theorem getD_grow (n : Nat) (l : List α) (i : Nat) :
    (grow null n l).getD i null = l.getD i null := by
  rw [grow]
  rcases Nat.lt_or_ge i l.length with hi | hi
  · rw [List.getD_append _ _ _ _ hi]
  · rw [List.getD_append_right _ _ _ _ hi, List.getD_eq_default _ _ hi]
    rcases Nat.lt_or_ge (i - l.length) (n - l.length) with h | h
    · exact List.getD_replicate _ h
    · exact List.getD_eq_default _ _ (by simpa using h)

theorem mem_grow {a : α} (h : a ∈ grow null n l) : a ∈ l ∨ a = null := by
  rcases List.mem_append.mp h with h | h
  · exact Or.inl h
  · exact Or.inr (List.eq_of_mem_replicate h)

end Trimmed
