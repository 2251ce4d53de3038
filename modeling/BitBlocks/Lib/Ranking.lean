import Mathlib.Data.List.Sort

/-!
# Ranks by a score

Rows are sorted by falling score, and a row's rank is its place in the sorted list. A sort
is known only as far as its order goes: rows of one score may come in any order, which may
be another one for the same rows in another list. So a rank depends on the rows alone just
when no two of them have one score.
-/

namespace Ranking

variable {α κ : Type*} [DecidableEq κ]

structure Sorting (score : α → Int) where
  sort : List α → List α
  perm : ∀ l, (sort l).Perm l
  sorted : ∀ l, (sort l).Pairwise fun a b => score b ≤ score a

/-- The place of the first row with a key. -/
def place (key : α → κ) (k : κ) (l : List α) : Option Nat := l.findIdx? fun x => key x == k

variable {score : α → Int} {key : α → κ} {l l' : List α} {a b x : α} {k : κ}

/-! ## Sorts -/

/-- The sort that leaves rows of one score in the order of the list. -/
def inOrder (score : α → Int) : Sorting score where
  sort l := l.insertionSort fun a b => score b ≤ score a
  perm l := l.perm_insertionSort _
  sorted l :=
    have : Std.Total fun a b : α => score b ≤ score a := ⟨fun _ _ => le_total _ _⟩
    have : IsTrans α fun a b => score b ≤ score a := ⟨fun _ _ _ hab hbc => hbc.trans hab⟩
    l.pairwise_insertionSort _

/-- The sort that turns their order round. -/
def reversed (score : α → Int) : Sorting score where
  sort l := (inOrder score).sort l.reverse
  perm l := ((inOrder score).perm l.reverse).trans l.reverse_perm
  sorted l := (inOrder score).sorted l.reverse

theorem inOrder_before (hab : score b ≤ score a) (h : [a, b].Sublist l) :
    [a, b].Sublist ((inOrder score).sort l) :=
  List.pair_sublist_insertionSort hab h

theorem before_or_after (ha : a ∈ l) (hb : b ∈ l) (hne : a ≠ b) :
    [a, b].Sublist l ∨ [b, a].Sublist l := by
  induction l with
  | nil => exact absurd ha (by simp)
  | cons x l ih =>
    rcases List.mem_cons.mp ha with rfl | ha'
    · rcases List.mem_cons.mp hb with rfl | hb'
      · exact absurd rfl hne
      · exact Or.inl ((List.singleton_sublist.mpr hb').cons_cons a)
    · rcases List.mem_cons.mp hb with rfl | hb'
      · exact Or.inr ((List.singleton_sublist.mpr ha').cons_cons b)
      · rcases ih ha' hb' with h | h
        · exact Or.inl (h.cons x)
        · exact Or.inr (h.cons x)

theorem exists_before (ha : a ∈ l) (hb : b ∈ l) (hne : a ≠ b) (hab : score b ≤ score a) :
    ∃ S : Sorting score, [a, b].Sublist (S.sort l) := by
  rcases before_or_after ha hb hne with h | h
  · exact ⟨inOrder score, inOrder_before hab h⟩
  · exact ⟨reversed score, inOrder_before hab (List.reverse_sublist.mpr h)⟩

theorem mem_sort {S : Sorting score} : x ∈ S.sort l ↔ x ∈ l := (S.perm l).mem_iff

/-- **Rows with different scores** can be sorted in one way only. -/
theorem sort_unique (S S' : Sorting score) (hl : (l.map score).Nodup) (h : l.Perm l') :
    S.sort l = S'.sort l' := by
  refine List.Perm.eq_of_pairwise ?_ (S.sorted l) (S'.sorted l')
    ((S.perm l).trans (h.trans (S'.perm l').symm))
  intro a b ha hb hab hba
  have hsame : score a = score b := le_antisymm hba hab
  exact List.inj_on_of_nodup_map hl (mem_sort.mp ha) (h.mem_iff.mpr (mem_sort.mp hb)) hsame

theorem filter_sort (S : Sorting score) (p : α → Bool) (hl : ((l.filter p).map score).Nodup) :
    (S.sort l).filter p = S.sort (l.filter p) := by
  have hperm : ((S.sort l).filter p).Perm (l.filter p) := (S.perm l).filter p
  refine List.Perm.eq_of_pairwise ?_ ((S.sorted l).sublist List.filter_sublist)
    (S.sorted (l.filter p)) (hperm.trans (S.perm (l.filter p)).symm)
  intro a b ha hb hab hba
  exact List.inj_on_of_nodup_map hl (hperm.mem_iff.mp ha) (mem_sort.mp hb) (le_antisymm hba hab)

theorem exists_sort_map {β : Type*} (S : Sorting score) {row : β → α} {find : α → Option β}
    {l : List β} (hfind : ∀ b ∈ l, find (row b) = some b) :
    ((S.sort (l.map row)).filterMap find).Perm l ∧
      ((S.sort (l.map row)).filterMap find).map row = S.sort (l.map row) := by
  have hperm := S.perm (l.map row)
  constructor
  · have hsome : ∀ b ∈ l, (find ∘ row) b = some b := hfind
    have hfound : (l.map row).filterMap find = l := by
      rw [List.filterMap_map, List.filterMap_congr hsome, List.filterMap_some]
    have hperm' := hperm.filterMap find
    rw [hfound] at hperm'
    exact hperm'
  · have hrows : ∀ x ∈ S.sort (l.map row), (find x).map row = some x := by
      intro x hx
      obtain ⟨b, hb, rfl⟩ := List.mem_map.mp (hperm.mem_iff.mp hx)
      rw [hfind b hb, Option.map_some]
    rw [List.map_filterMap, List.filterMap_congr hrows, List.filterMap_some]

/-! ## Places -/

theorem place_eq_some {n : Nat} (hl : (l.map key).Nodup) :
    place key k l = some n ↔ ∃ x, l[n]? = some x ∧ key x = k := by
  unfold place
  rw [List.findIdx?_eq_some_iff_getElem]
  constructor
  · intro ⟨hn, hkey, _⟩
    exact ⟨l[n], List.getElem?_eq_getElem hn, by simpa using hkey⟩
  · intro ⟨x, hx, hkey⟩
    obtain ⟨hn, hget⟩ := List.getElem?_eq_some_iff.mp hx
    refine ⟨hn, by simpa [hget] using hkey, ?_⟩
    intro j hj hsame
    have hjn : l[j] = l[n] := by
      refine List.inj_on_of_nodup_map hl (List.getElem_mem _) (List.getElem_mem _) ?_
      rw [hget, hkey]
      simpa using hsame
    have hplace : (⟨j, by omega⟩ : Fin l.length) = ⟨n, hn⟩ :=
      List.nodup_iff_injective_getElem.mp (hl.of_map key) hjn
    have hval := congrArg Fin.val hplace
    dsimp only at hval
    omega

theorem place_append {l1 l2 : List α} (hl : ((l1 ++ x :: l2).map key).Nodup) :
    place key (key x) (l1 ++ x :: l2) = some l1.length :=
  (place_eq_some hl).mpr ⟨x, by simp, rfl⟩

theorem place_lt (hl : (l.map key).Nodup) (h : [a, b].Sublist l) :
    ∃ m n, place key (key a) l = some m ∧ place key (key b) l = some n ∧ m < n := by
  obtain ⟨l1, l2, rfl, ha, hb⟩ := List.cons_sublist_iff.mp h
  obtain ⟨s, t, rfl⟩ := List.append_of_mem ha
  obtain ⟨u, v, rfl⟩ := List.append_of_mem (List.singleton_sublist.mp hb)
  have hfirst : (s ++ a :: t) ++ (u ++ b :: v) = s ++ a :: (t ++ (u ++ b :: v)) := by simp
  have hsecond : (s ++ a :: t) ++ (u ++ b :: v) = (s ++ a :: t ++ u) ++ b :: v := by simp
  refine ⟨s.length, (s ++ a :: t ++ u).length, ?_, ?_, ?_⟩
  · rw [hfirst] at hl ⊢
    exact place_append hl
  · rw [hsecond] at hl ⊢
    exact place_append hl
  · simp

theorem place_filter_lt {p : α → Bool} (hl : (l.map key).Nodup) (h : [a, b].Sublist l)
    (ha : p a = false) (hb : p b = true) :
    ∃ m n, place key (key b) (l.filter p) = some m ∧ place key (key b) l = some n ∧ m < n := by
  obtain ⟨l1, l2, rfl, ha', hb'⟩ := List.cons_sublist_iff.mp h
  obtain ⟨u, v, rfl⟩ := List.append_of_mem (List.singleton_sublist.mp hb')
  have hsplit : l1 ++ (u ++ b :: v) = (l1 ++ u) ++ b :: v := by simp
  have hfilter : ((l1 ++ u) ++ b :: v).filter p = (l1 ++ u).filter p ++ b :: v.filter p := by
    rw [List.filter_append, List.filter_cons_of_pos hb]
  have hshort : ((l1 ++ u).filter p).length < (l1 ++ u).length := by
    refine lt_of_le_of_ne (List.length_filter_le _ _) fun heq => ?_
    have hall := List.length_filter_eq_length_iff.mp heq
    have := hall a (List.mem_append_left _ ha')
    rw [ha] at this
    exact absurd this (by simp)
  rw [hsplit] at hl ⊢
  refine ⟨((l1 ++ u).filter p).length, (l1 ++ u).length, ?_, place_append hl, hshort⟩
  have hl' : ((((l1 ++ u) ++ b :: v).filter p).map key).Nodup :=
    hl.sublist (List.filter_sublist.map key)
  rw [hfilter] at hl' ⊢
  exact place_append hl'

theorem place_filter {p : α → Bool} {S : Sorting score} (hl : ((S.sort l).map key).Nodup)
    (hb : b ∈ l) (hpb : p b = true) (hlow : ∀ a ∈ l, p a = false → score a < score b) :
    place key (key b) ((S.sort l).filter p) = place key (key b) (S.sort l) := by
  obtain ⟨l1, l2, hsplit⟩ := List.append_of_mem ((mem_sort (S := S)).mpr hb)
  have hbefore : l1.filter p = l1 := by
    refine List.filter_eq_self.mpr fun a ha => ?_
    by_contra hpa
    have hmem : a ∈ S.sort l := by
      rw [hsplit]
      exact List.mem_append_left _ ha
    have hlt := hlow a (mem_sort.mp hmem) (by simpa using hpa)
    have hsorted := S.sorted l
    rw [hsplit] at hsorted
    have hge := (List.pairwise_append.mp hsorted).2.2 a ha b List.mem_cons_self
    omega
  have hfilter : (l1 ++ b :: l2).filter p = l1 ++ b :: l2.filter p := by
    rw [List.filter_append, List.filter_cons_of_pos hpb, hbefore]
  have hl' : (((S.sort l).filter p).map key).Nodup := hl.sublist (List.filter_sublist.map key)
  rw [hsplit] at hl hl' ⊢
  rw [hfilter] at hl' ⊢
  rw [place_append hl', place_append hl]

end Ranking
