import Mathlib.Algebra.BigOperators.Group.List.Basic
import Mathlib.Algebra.GroupWithZero.Nat
import Mathlib.Data.List.AList

/-!
# Tables

Association lists with one entry a key, read through `lookup`.

A loop over the entries of a table may be followed key by key, if each round touches a
store at the entry's own key only: since no key occurs twice, every round finds its key
as it was before the loop, and what a round promises about one key, the whole loop
promises about all.
-/

namespace Table

/-! ## Reading after a write -/

theorem lookup_insert {κ ν : Type*} [DecidableEq κ] (m : AList fun _ : κ => ν) (k k' : κ) (v : ν) :
    (m.insert k v).lookup k' = if k' = k then some v else m.lookup k' := by
  by_cases h : k' = k
  · subst h; simp
  · rw [AList.lookup_insert_ne h, if_neg h]

theorem of_lookup_insert {κ ν : Type*} [DecidableEq κ] {m : AList fun _ : κ => ν} {k k' : κ}
    {v w : ν} (h : (m.insert k v).lookup k' = some w) :
    k' = k ∧ v = w ∨ k' ≠ k ∧ m.lookup k' = some w := by
  rw [lookup_insert] at h
  split at h
  · rename_i hk
    exact Or.inl ⟨hk, Option.some.inj h⟩
  · rename_i hk
    exact Or.inr ⟨hk, h⟩

theorem lookup_erase {κ ν : Type*} [DecidableEq κ] (m : AList fun _ : κ => ν) (k k' : κ) :
    (m.erase k).lookup k' = if k' = k then none else m.lookup k' := by
  by_cases h : k' = k
  · subst h; simp
  · rw [AList.lookup_erase_ne h, if_neg h]

theorem erase_eq_some {κ ν : Type*} [DecidableEq κ] {m : AList fun _ : κ => ν} {k k' : κ} {v : ν} :
    (m.erase k).lookup k' = some v ↔ m.lookup k' = some v ∧ k' ≠ k := by
  rw [lookup_erase]
  by_cases hk : k' = k <;> simp [hk]

/-- `map::insert`: a key that is there keeps its value. -/
def insertNew {κ ν : Type*} [DecidableEq κ] (m : AList fun _ : κ => ν) (k : κ) (v : ν) :
    AList fun _ : κ => ν :=
  match m.lookup k with
  | some _ => m
  | none => m.insert k v

theorem lookup_insertNew {κ ν : Type*} [DecidableEq κ] (m : AList fun _ : κ => ν) (k k' : κ)
    (v : ν) : (insertNew m k v).lookup k' =
      if k' = k then some ((m.lookup k).getD v) else m.lookup k' := by
  unfold insertNew
  cases h : m.lookup k with
  | some w =>
    by_cases hk : k' = k
    · subst hk; simp [h]
    · simp [hk]
  | none => rw [lookup_insert]; rfl

theorem insertNew_eq_some {κ ν : Type*} [DecidableEq κ] {m : AList fun _ : κ => ν} {k k' : κ}
    {v w : ν} : (insertNew m k v).lookup k' = some w ↔
      m.lookup k' = some w ∨ m.lookup k' = none ∧ k' = k ∧ w = v := by
  rw [lookup_insertNew]
  by_cases hk : k' = k
  · subst hk
    cases m.lookup k' <;> simp [eq_comm]
  · simp [hk]

theorem isSome_insertNew {κ ν : Type*} [DecidableEq κ] {m : AList fun _ : κ => ν} {k k' : κ}
    {v : ν} : ((insertNew m k v).lookup k').isSome = true ↔ (m.lookup k').isSome = true ∨
      k' = k := by
  rw [lookup_insertNew]
  by_cases hk : k' = k <;> simp [hk]

/-! ## Writing and erasing many keys -/

theorem lookup_foldl_insertNew {κ ν : Type*} [DecidableEq κ] (l : List κ)
    (m : AList fun _ : κ => ν) (v : ν) (k : κ) :
    (l.foldl (fun m x => insertNew m x v) m).lookup k =
      if k ∈ l then some ((m.lookup k).getD v) else m.lookup k := by
  induction l generalizing m with
  | nil => simp
  | cons a l ih =>
    rw [List.foldl_cons, ih, lookup_insertNew]
    by_cases hk : k = a
    · subst hk; simp
    · simp [hk]

theorem lookup_foldl_insert {κ ν : Type*} [DecidableEq κ] {l : List (κ × ν)}
    (hl : (l.map Prod.fst).Nodup) (m : AList fun _ : κ => ν) (k : κ) (v : ν) :
    (l.foldl (fun m x => m.insert x.1 x.2) m).lookup k = some v ↔
      (k, v) ∈ l ∨ (k ∉ l.map Prod.fst ∧ m.lookup k = some v) := by
  induction l generalizing m with
  | nil => simp
  | cons x l ih =>
    obtain ⟨hx, hl'⟩ := List.nodup_cons.mp hl
    obtain ⟨a, b⟩ := x
    rw [List.foldl_cons, ih hl', lookup_insert]
    by_cases hk : k = a
    · subst hk
      have hnot : (k, v) ∉ l := fun hmem => hx (List.mem_map.mpr ⟨(k, v), hmem, rfl⟩)
      simp [hnot, hx, eq_comm]
    · simp [hk]

theorem lookup_foldl_erase {κ ν : Type*} [DecidableEq κ] (l : List κ) (m : AList fun _ : κ => ν)
    (k : κ) : (l.foldl (fun m x => m.erase x) m).lookup k = if k ∈ l then none else m.lookup k := by
  induction l generalizing m with
  | nil => simp
  | cons a l ih =>
    rw [List.foldl_cons, ih, lookup_erase]
    by_cases hk : k = a <;> simp [hk]

theorem foldl_erase_eq_some {κ ν : Type*} [DecidableEq κ] {l : List κ} {m : AList fun _ : κ => ν}
    {k : κ} {v : ν} :
    (l.foldl (fun m x => m.erase x) m).lookup k = some v ↔ m.lookup k = some v ∧ k ∉ l := by
  rw [lookup_foldl_erase]
  by_cases hk : k ∈ l <;> simp [hk]

def keep {κ ν : Type*} (p : (Sigma fun _ : κ => ν) → Bool) (m : AList fun _ : κ => ν) :
    AList fun _ : κ => ν :=
  ⟨m.entries.filter p, (List.Sublist.map _ List.filter_sublist).nodup m.nodupKeys⟩

/-! ## Totals -/

/-- A quantity of the values, summed over the table. -/
def total {κ ν : Type*} (w : ν → Nat) (m : AList fun _ : κ => ν) : Nat :=
  (m.entries.map fun x => w x.2).sum

theorem total_erase {κ ν : Type*} [DecidableEq κ] (w : ν → Nat) {m : AList fun _ : κ => ν} {k : κ}
    {v : ν} (h : m.lookup k = some v) : total w m = w v + total w (m.erase k) := by
  have hmem : k ∈ m.entries.keys := AList.lookup_isSome.mp (by rw [h]; rfl)
  obtain ⟨b, l1, l2, hk, hm, he⟩ := List.exists_of_kerase hmem
  have hb : b = v := by
    have hbm : m.lookup k = some b := by
      refine AList.mem_lookup_iff.mpr ?_
      rw [hm]
      exact List.mem_append_right _ List.mem_cons_self
    exact Option.some.inj (hbm.symm.trans h)
  have herase : (m.erase k).entries = l1 ++ l2 := he
  rw [total, total, herase, hm, hb]
  simp only [List.map_append, List.map_cons, List.sum_append, List.sum_cons]
  omega

theorem total_insert {κ ν : Type*} [DecidableEq κ] (w : ν → Nat) (m : AList fun _ : κ => ν) (k : κ)
    (v : ν) : total w (m.insert k v) = w v + total w (m.erase k) := by
  rw [total, AList.entries_insert, List.map_cons, List.sum_cons]
  rfl

theorem total_write {κ ν : Type*} [DecidableEq κ] (w : ν → Nat) {m : AList fun _ : κ => ν} {k : κ}
    {v : ν} (h : m.lookup k = some v) (v' : ν) :
    total w (m.insert k v') + w v = total w m + w v' := by
  rw [total_insert, total_erase w h]
  omega

theorem total_insert_of_new {κ ν : Type*} [DecidableEq κ] (w : ν → Nat) {m : AList fun _ : κ => ν}
    {k : κ} (h : m.lookup k = none) (v : ν) : total w (m.insert k v) = w v + total w m := by
  rw [total, AList.entries_insert_of_notMem (AList.lookup_eq_none.mp h), List.map_cons,
    List.sum_cons,
    total]

theorem total_eq_zero {κ ν : Type*} [DecidableEq κ] {w : ν → Nat} {m : AList fun _ : κ => ν} :
    total w m = 0 ↔ ∀ k v, m.lookup k = some v → w v = 0 := by
  rw [total, List.sum_eq_zero_iff_forall_eq_nat]
  constructor
  · intro h k v hk
    exact h _ (List.mem_map.mpr ⟨_, AList.mem_lookup_iff.mp hk, rfl⟩)
  · intro h n hn
    obtain ⟨x, hx, rfl⟩ := List.mem_map.mp hn
    exact h x.1 x.2 (AList.mem_lookup_iff.mpr hx)

theorem total_eq_sum {κ ν : Type*} [DecidableEq κ] (w : ν → Nat) {m : AList fun _ : κ => ν}
    {l : List κ} (hl : l.Nodup) (hmem : ∀ k, k ∈ l ↔ (m.lookup k).isSome = true) :
    total w m = (l.map fun k => ((m.lookup k).map w).getD 0).sum := by
  have hperm : m.keys.Perm l := (List.perm_ext_iff_of_nodup m.keys_nodup hl).mpr fun k => by
      rw [hmem, AList.lookup_isSome, AList.mem_keys]
  rw [← (hperm.map _).sum_eq, total, AList.keys, List.keys, List.map_map]
  refine congrArg _ (List.map_congr_left fun x hx => ?_)
  have hlook : m.lookup x.1 = some x.2 := AList.mem_lookup_iff.mpr hx
  rw [Function.comp_apply, hlook]
  rfl

theorem total_foldl_erase {κ ν : Type*} [DecidableEq κ] {w : ν → Nat} (l : List κ)
    {m : AList fun _ : κ => ν} (h : ∀ k ∈ l, ∀ v, m.lookup k = some v → w v = 0) :
    total w (l.foldl (fun m x => m.erase x) m) = total w m := by
  induction l generalizing m with
  | nil => rfl
  | cons a l ih =>
    have herase : total w (m.erase a) = total w m := by
      cases ha : m.lookup a with
      | none =>
        have hentries : (m.erase a).entries = m.entries :=
          List.kerase_of_notMem_keys (AList.lookup_eq_none.mp ha)
        rw [total, total, hentries]
      | some v =>
        have htotal := total_erase w ha
        have hzero := h a List.mem_cons_self v ha
        omega
    rw [List.foldl_cons, ← herase]
    refine ih ?_
    intro k hk v hv
    exact h k (List.mem_cons_of_mem _ hk) v (erase_eq_some.mp hv).1

theorem entries_perm {κ ν : Type*} [DecidableEq κ] {m : AList fun _ : κ => ν} {k : κ} {v : ν}
    (h : m.lookup k = some v) : m.entries.Perm (⟨k, v⟩ :: (m.erase k).entries) := by
  have hmem : k ∈ m.entries.keys := AList.lookup_isSome.mp (by rw [h]; rfl)
  obtain ⟨b, l1, l2, hk, hm, he⟩ := List.exists_of_kerase hmem
  have herase : (m.erase k).entries = l1 ++ l2 := he
  have hv : m.lookup k = some b := by
    have hin : Sigma.mk k b ∈ m.entries := by
      rw [hm]
      exact List.mem_append_right _ List.mem_cons_self
    exact List.mem_dlookup m.nodupKeys hin
  obtain rfl := Option.some.inj (h.symm.trans hv)
  rw [herase, hm]
  exact List.perm_middle

theorem length_erase {κ ν : Type*} [DecidableEq κ] {m : AList fun _ : κ => ν} {k : κ}
    (h : (m.lookup k).isSome = true) : (m.erase k).entries.length + 1 = m.entries.length := by
  obtain ⟨v, hv⟩ := Option.isSome_iff_exists.mp h
  rw [(entries_perm hv).length_eq, List.length_cons]

/-! ## Loops over the entries -/

variable {κ μ ρ : Type*} {γ : κ → Type*}

/-- One round: it does not abort, does what it promises at its key, and nothing elsewhere. -/
def Round (read : μ → κ → ρ) (f : μ → Sigma γ → Option μ) (Pre : Sigma γ → ρ → Prop)
    (Post : Sigma γ → ρ → ρ → Prop) : Prop :=
  ∀ us x, Pre x (read us x.1) → ∃ us', f us x = some us' ∧
    Post x (read us x.1) (read us' x.1) ∧ ∀ k, k ≠ x.1 → read us' k = read us k

variable {read : μ → κ → ρ} {f : μ → Sigma γ → Option μ} {Pre : Sigma γ → ρ → Prop}
  {Post : Sigma γ → ρ → ρ → Prop}

/-- **The whole loop**: no abort, the promise at every key of the table, nothing elsewhere. -/
theorem Round.foldlM (h : Round read f Pre Post) {l : List (Sigma γ)} (hl : l.NodupKeys) (us : μ)
    (hpre : ∀ x ∈ l, Pre x (read us x.1)) :
    ∃ us', l.foldlM f us = some us' ∧ (∀ x ∈ l, Post x (read us x.1) (read us' x.1)) ∧
      ∀ k, k ∉ l.keys → read us' k = read us k := by
  induction l generalizing us with
  | nil => exact ⟨us, rfl, by simp, fun _ _ => rfl⟩
  | cons x l ih =>
    obtain ⟨hx, hl'⟩ := List.nodupKeys_cons.mp hl
    obtain ⟨us1, h1, hpost1, hoff1⟩ := h us x (hpre x List.mem_cons_self)
    have hkeep : ∀ y ∈ l, read us1 y.1 = read us y.1 := by
      intro y hy
      refine hoff1 y.1 fun he => hx ?_
      rw [← he]
      exact List.mem_keys_of_mem hy
    obtain ⟨us2, h2, hpost2, hoff2⟩ := ih hl' us1 fun y hy => by
      rw [hkeep y hy]; exact hpre y (List.mem_cons_of_mem _ hy)
    refine ⟨us2, ?_, ?_, ?_⟩
    · rw [List.foldlM_cons, h1]
      exact h2
    · intro y hy
      rcases List.mem_cons.mp hy with rfl | hy
      · rw [hoff2 _ hx]
        exact hpost1
      · rw [← hkeep y hy]
        exact hpost2 y hy
    · intro k hk
      rw [List.keys_cons, List.mem_cons, not_or] at hk
      rw [hoff2 k hk.2, hoff1 k hk.1]

end Table

/-!
## Rows of a list, found by a key

A list searched from the front for the first row with a key, whose rows are changed in
place. A change that keeps what a function reads of a row keeps the list of what it reads,
in order; and after it a search finds the changed row where it found the row before.
-/

namespace Rows

variable {α κ β : Type*} [DecidableEq κ] (key : α → κ)

def first (k : κ) (l : List α) : Option α := l.find? fun x => key x == k

/-- A change to the first row with the key. -/
def writeFirst (k : κ) (f : α → α) : List α → List α
  | [] => []
  | x :: l => if key x = k then f x :: l else x :: writeFirst k f l

variable {key} {k k' : κ} {f : α → α} {l : List α} {x y : α}

theorem first_cons : first key k (x :: l) = if key x = k then some x else first key k l := by
  unfold first
  by_cases hx : key x = k
  · rw [if_pos hx, List.find?_cons_of_pos (by simpa using hx)]
  · rw [if_neg hx, List.find?_cons_of_neg (by simpa using hx)]

theorem mem_of_first (h : first key k l = some x) : x ∈ l := List.mem_of_find?_eq_some h

theorem first_eq_none : first key k l = none ↔ k ∉ l.map key := by
  unfold first
  simp [List.find?_eq_none]

theorem map_writeFirst {g : α → β} (hf : ∀ x, g (f x) = g x) :
    (writeFirst key k f l).map g = l.map g := by
  induction l with
  | nil => rfl
  | cons x l ih =>
    unfold writeFirst
    split
    · rw [List.map_cons, List.map_cons, hf]
    · rw [List.map_cons, List.map_cons, ih]

theorem writeFirst_congr {g : α → α} (h : ∀ x, first key k l = some x → f x = g x) :
    writeFirst key k f l = writeFirst key k g l := by
  induction l with
  | nil => rfl
  | cons x l ih =>
    unfold writeFirst
    rw [first_cons] at h
    by_cases hx : key x = k
    · rw [if_pos hx] at h
      rw [if_pos hx, if_pos hx, h x rfl]
    · rw [if_neg hx] at h
      rw [if_neg hx, if_neg hx, ih h]

theorem mem_writeFirst (h : y ∈ writeFirst key k f l) :
    y ∈ l ∨ ∃ x, first key k l = some x ∧ y = f x := by
  induction l with
  | nil => simp [writeFirst] at h
  | cons x l ih =>
    unfold writeFirst at h
    rw [first_cons]
    by_cases hx : key x = k
    · rw [if_pos hx] at h
      rcases List.mem_cons.mp h with rfl | hmem
      · exact Or.inr ⟨x, if_pos hx, rfl⟩
      · exact Or.inl (List.mem_cons_of_mem _ hmem)
    · rw [if_neg hx] at h
      rw [if_neg hx]
      rcases List.mem_cons.mp h with rfl | hmem
      · exact Or.inl List.mem_cons_self
      · rcases ih hmem with hmem | hchanged
        · exact Or.inl (List.mem_cons_of_mem _ hmem)
        · exact Or.inr hchanged

theorem first_of_mem (hl : (l.map key).Nodup) (h : x ∈ l) : first key (key x) l = some x := by
  induction l with
  | nil => simp at h
  | cons y l ih =>
    obtain ⟨hy, hl'⟩ := List.nodup_cons.mp hl
    rw [first_cons]
    rcases List.mem_cons.mp h with rfl | hmem
    · rw [if_pos rfl]
    · have hne : key y ≠ key x := by
        intro he
        exact hy (List.mem_map.mpr ⟨x, hmem, he.symm⟩)
      rw [if_neg hne, ih hl' hmem]

end Rows
