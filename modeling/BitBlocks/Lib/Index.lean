import Mathlib.Data.Finset.Basic

/-!
# Secondary indexes

Rows that each refer to a list of objects, and an index from the objects back to the
rows. Two kinds: one where an object is referred to once in all, and the index names the
row and the place in it; and one where rows may share objects, and the index holds, for
each object, the set of keys of the rows that refer to it.
-/

namespace Index

/-! ## One reference an object -/

section unique

variable {ρ ο : Type*}

/-- The index is what the rows refer to, and nothing else. -/
def Exact (rows : Set ρ) (refs : ρ → List ο) (idx : ο → ρ → Nat → Prop) : Prop :=
  ∀ o r i, idx o r i ↔ r ∈ rows ∧ (refs r)[i]? = some o

/-- An object is looked up to at most one place. -/
def Functional (idx : ο → ρ → Nat → Prop) : Prop :=
  ∀ o r i r' i', idx o r i → idx o r' i' → r = r' ∧ i = i'

variable {rows : Set ρ} {refs : ρ → List ο} {idx idx' : ο → ρ → Nat → Prop} {r : ρ}

/-- **Rows share nothing**, and no row refers to an object twice. -/
theorem Exact.shared (h : Exact rows refs idx) (hf : Functional idx) {o : ο} {r r' : ρ} {i i' : Nat}
    (hr : r ∈ rows) (hr' : r' ∈ rows) (ho : (refs r)[i]? = some o) (ho' : (refs r')[i']? = some o) :
    r = r' ∧ i = i' :=
  hf o r i r' i' ((h o r i).mpr ⟨hr, ho⟩) ((h o r' i').mpr ⟨hr', ho'⟩)

theorem Exact.link (h : Exact rows refs idx) (hfresh : ∀ o ∈ refs r, ∀ r' i, ¬ idx o r' i)
    (hidx' : ∀ o r' i, idx' o r' i ↔ (r' = r ∧ (refs r)[i]? = some o) ∨ (o ∉ refs r ∧ idx o r' i)) :
    Exact (insert r rows) refs idx' := by
  intro o r' i
  rw [hidx', Set.mem_insert_iff]
  constructor
  · intro hor
    rcases hor with ⟨rfl, ho⟩ | ⟨-, ho⟩
    · exact ⟨Or.inl rfl, ho⟩
    · exact ⟨Or.inr ((h o r' i).mp ho).1, ((h o r' i).mp ho).2⟩
  · intro ⟨hmem, ho⟩
    rcases hmem with rfl | hmem
    · exact Or.inl ⟨rfl, ho⟩
    · have hio := (h o r' i).mpr ⟨hmem, ho⟩
      exact Or.inr ⟨fun hor => hfresh o hor r' i hio, hio⟩

theorem Exact.unlink (h : Exact rows refs idx) (hf : Functional idx) (hr : r ∈ rows)
    (hidx' : ∀ o r' i, idx' o r' i ↔ o ∉ refs r ∧ idx o r' i) :
    Exact (rows \ {r}) refs idx' := by
  intro o r' i
  rw [hidx', Set.mem_sdiff, Set.mem_singleton_iff]
  constructor
  · intro ⟨hor, ho⟩
    obtain ⟨hmem, hi⟩ := (h o r' i).mp ho
    refine ⟨⟨hmem, ?_⟩, hi⟩
    intro he
    subst he
    exact hor (List.mem_of_getElem? hi)
  · intro ⟨⟨hmem, hne⟩, hi⟩
    have ho := (h o r' i).mpr ⟨hmem, hi⟩
    refine ⟨?_, ho⟩
    intro hor
    obtain ⟨j, hj⟩ := List.mem_iff_getElem?.mp hor
    exact hne (h.shared hf hmem hr hi hj).1

end unique

/-! ## Many references an object -/

section shared

variable {κ ν ο : Type*} [DecidableEq κ]

/-- The index lists, under each object, the keys of the rows that refer to it. -/
def Inverse (rows : κ → Option ν) (refs : ν → List ο) (idx : ο → Finset κ) : Prop :=
  ∀ o k, k ∈ idx o ↔ ∃ v, rows k = some v ∧ o ∈ refs v

variable {rows rows' : κ → Option ν} {refs : ν → List ο} {idx idx' : ο → Finset κ} {k : κ} {v : ν}

theorem Inverse.link [DecidableEq ο] (h : Inverse rows refs idx) (hnew : rows k = none)
    (hrows : ∀ k', rows' k' = if k' = k then some v else rows k')
    (hidx : ∀ o, idx' o = if o ∈ refs v then insert k (idx o) else idx o) :
    Inverse rows' refs idx' := by
  intro o k'
  rw [hidx, hrows]
  by_cases hk : k' = k
  · subst hk
    have hnot : k' ∉ idx o := by
      intro hmem
      obtain ⟨v', hv', -⟩ := (h o k').mp hmem
      rw [hnew] at hv'
      simp at hv'
    by_cases ho : o ∈ refs v <;> simp [ho, hnot]
  · rw [if_neg hk, ← h o k']
    by_cases ho : o ∈ refs v <;> simp [ho, hk]

theorem Inverse.unlink [DecidableEq ο] (h : Inverse rows refs idx) (hrow : rows k = some v)
    (hrows : ∀ k', rows' k' = if k' = k then none else rows k')
    (hidx : ∀ o, idx' o = if o ∈ refs v then (idx o).erase k else idx o) :
    Inverse rows' refs idx' := by
  intro o k'
  rw [hidx, hrows]
  by_cases hk : k' = k
  · subst hk
    by_cases ho : o ∈ refs v
    · simp [ho]
    · have hnot : k' ∉ idx o := by
        intro hmem
        obtain ⟨v', hv', ho'⟩ := (h o k').mp hmem
        rw [hrow] at hv'
        obtain rfl := Option.some.inj hv'
        exact ho ho'
      simp [ho, hnot]
  · rw [if_neg hk, ← h o k']
    by_cases ho : o ∈ refs v <;> simp [ho, hk]

end shared

end Index
