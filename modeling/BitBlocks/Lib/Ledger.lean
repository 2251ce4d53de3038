import Mathlib.Data.Set.Basic
import Mathlib.Data.List.Induction

/-!
# Ledgers of things created and spent

Transactions that each spend and create a set of entries, applied one after the other
to the set of those that are unspent. Nothing is checked: a spend of an entry that is
not there changes nothing. Whether an entry is unspent in the end is decided by the last
transaction that mentions it (`mem_applyAll`).
-/

namespace Ledger

variable {τ ο : Type} (spends creates : τ → Set ο)

/-- The unspent entries after one transaction. -/
def apply (unspent : Set ο) (t : τ) : Set ο := unspent \ spends t ∪ creates t

/-- The unspent entries after a list of transactions. -/
def applyAll (unspent : Set ο) (l : List τ) : Set ο := l.foldl (apply spends creates) unspent

/-- Some transaction creates the entry, and none after it spends it. -/
def LastCreated (o : ο) (l : List τ) : Prop :=
  ∃ pre t post, l = pre ++ t :: post ∧ o ∈ creates t ∧ ∀ u ∈ post, o ∉ spends u

variable {spends creates} {unspent : Set ο} {o : ο} {t : τ} {l l' : List τ}

@[simp] theorem applyAll_nil : applyAll spends creates unspent [] = unspent := rfl

@[simp] theorem applyAll_cons : applyAll spends creates unspent (t :: l)
    = applyAll spends creates (apply spends creates unspent t) l := rfl

theorem applyAll_append : applyAll spends creates unspent (l ++ l')
    = applyAll spends creates (applyAll spends creates unspent l) l' := List.foldl_append

theorem mem_apply : o ∈ apply spends creates unspent t ↔
    (o ∈ unspent ∧ o ∉ spends t) ∨ o ∈ creates t := Iff.rfl

theorem not_lastCreated_nil : ¬ LastCreated spends creates o ([] : List τ) := by
  rintro ⟨pre, t, post, h, _⟩
  simp at h

theorem lastCreated_concat : LastCreated spends creates o (l ++ [t]) ↔
    (LastCreated spends creates o l ∧ o ∉ spends t) ∨ o ∈ creates t := by
  constructor
  · rintro ⟨pre, t', post, h, hc, hs⟩
    rcases List.eq_nil_or_concat post with rfl | ⟨post', u, rfl⟩
    · obtain ⟨-, htail⟩ := List.append_inj' h rfl
      obtain ⟨rfl, -⟩ := List.cons.inj htail
      exact Or.inr hc
    · rw [List.concat_eq_append, ← List.cons_append, ← List.append_assoc] at h
      obtain ⟨hl, htail⟩ := List.append_inj' h rfl
      obtain ⟨rfl, -⟩ := List.cons.inj htail
      exact Or.inl ⟨⟨pre, t', post', hl, hc, fun u hu => hs u (by simp [hu])⟩, hs t (by simp)⟩
  · rintro (⟨⟨pre, t', post, rfl, hc, hs⟩, ht⟩ | hc)
    · refine ⟨pre, t', post ++ [t], by simp, hc, fun u hu => ?_⟩
      rcases List.mem_append.mp hu with hu | hu
      · exact hs u hu
      · exact List.mem_singleton.mp hu ▸ ht
    · exact ⟨l, t, [], rfl, hc, by simp⟩

/-- **The last word on an entry**: it was created last, or it was there and is never spent. -/
theorem mem_applyAll : o ∈ applyAll spends creates unspent l ↔
    LastCreated spends creates o l ∨ (o ∈ unspent ∧ ∀ t ∈ l, o ∉ spends t) := by
  induction l using List.reverseRecOn with
  | nil => simp [not_lastCreated_nil]
  | append_singleton l t ih =>
    rw [applyAll_append, applyAll_cons, applyAll_nil, mem_apply, ih, lastCreated_concat]
    constructor
    · rintro (⟨h | ⟨h1, h2⟩, h3⟩ | h)
      · exact Or.inl (Or.inl ⟨h, h3⟩)
      · refine Or.inr ⟨h1, fun u hu => ?_⟩
        rcases List.mem_append.mp hu with hu | hu
        · exact h2 u hu
        · exact List.mem_singleton.mp hu ▸ h3
      · exact Or.inl (Or.inr h)
    · rintro ((⟨h1, h2⟩ | h) | ⟨h1, h2⟩)
      · exact Or.inl ⟨Or.inl h1, h2⟩
      · exact Or.inr h
      · exact Or.inl ⟨Or.inr ⟨h1, fun u hu => h2 u (by simp [hu])⟩, h2 t (by simp)⟩

theorem mem_applyAll_empty : o ∈ applyAll spends creates ∅ l ↔ LastCreated spends creates o l := by
  simp [mem_applyAll]

/-- Each transaction spends what is there. -/
def Backed (spends creates : τ → Set ο) : Set ο → List τ → Prop
  | _, [] => True
  | unspent, t :: l => spends t ⊆ unspent ∧ Backed spends creates (apply spends creates unspent t) l

theorem backed_append : Backed spends creates unspent (l ++ l') ↔
    Backed spends creates unspent l ∧
    Backed spends creates (applyAll spends creates unspent l) l' := by
  induction l generalizing unspent with
  | nil => simp [Backed]
  | cons t l ih => rw [List.cons_append, Backed, Backed, ih, and_assoc, applyAll_cons]

/-- **Nothing is spent twice**: it was created before, and not spent since. -/
theorem Backed.lastCreated (h : Backed spends creates ∅ (l ++ t :: l')) (ho : o ∈ spends t) :
    LastCreated spends creates o l :=
  mem_applyAll_empty.mp ((backed_append.mp h).2.1 ho)

end Ledger
