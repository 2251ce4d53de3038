import Mathlib.Order.Lattice
import BitBlocks.Lib.Machine
import BitBlocks.Lib.Table

/-!
# The map that keeps the highest values (`limitedmap`)

`map` has the elements and `rmap` the same ones in the order of their values. The
class comment promises the N elements with the highest value. `insert` compares the
size of `map` with the maximum once the new element is in it, for equality, and
before the element is in `rmap`. So a full map holds N - 1 elements, for N = 1 the
victim is looked for in an empty `rmap`, the victim may be of a higher value than the
element that takes its place, and a map that `max_size` has filled to the brim
grows without end. What is promised holds as long as no new element comes when
fewer than two places are left.
-/

namespace BitBlocks

variable {K V : Type} [DecidableEq K] [LinearOrder V]

structure LimitedMap (K V : Type) where
  map : AList fun _ : K => V
  /-- The value of an element and its key, which stands for the iterator. -/
  rmap : List (V × K)
  /-- Zero is no limit. -/
  nMaxSize : Nat

namespace LimitedMap

def empty (nMaxSizeIn : Nat) : LimitedMap K V := ⟨∅, [], nMaxSizeIn⟩

def size (m : LimitedMap K V) : Nat := m.map.entries.length

/-- `multimap::insert`: behind the elements of the same value. -/
def rinsert (x : V × K) : List (V × K) → List (V × K)
  | [] => [x]
  | y :: rmap => if y.1 ≤ x.1 then y :: rinsert x rmap else x :: y :: rmap

/-- `none`: `rmap.begin()` is dereferenced although `rmap` is empty. -/
def insert (m : LimitedMap K V) (k : K) (v : V) : Option (LimitedMap K V) :=
  match m.map.lookup k with
  | some _ => some m
  | none =>
    let map := m.map.insert k v
    if m.nMaxSize ≠ 0 ∧ map.entries.length = m.nMaxSize then
      match m.rmap with
      | [] => none
      | x :: rmap => some { m with map := map.erase x.2, rmap := rinsert (v, k) rmap }
    else some { m with map := map, rmap := rinsert (v, k) m.rmap }

/-- `none`: no entry of `rmap` among those of the element's value is its own, `assert(0)`. -/
def erase (m : LimitedMap K V) (k : K) : Option (LimitedMap K V) :=
  match m.map.lookup k with
  | none => some m
  | some v =>
    if (v, k) ∈ m.rmap then some { m with map := m.map.erase k, rmap := m.rmap.erase (v, k) }
    else none

/-- At the element an iterator points to; `none` as in `erase`. -/
def update (m : LimitedMap K V) (k : K) (v : V) : Option (LimitedMap K V) :=
  match m.map.lookup k with
  | none => some m
  | some w =>
    if (w, k) ∈ m.rmap then
      some { m with map := m.map.insert k v, rmap := rinsert (v, k) (m.rmap.erase (w, k)) }
    else none

/-- Erase from the lowest value on while there are more than `s`; `none` as in `insert`. -/
def shrink (s : Nat) (map : AList fun _ : K => V) :
    List (V × K) → Option ((AList fun _ : K => V) × List (V × K))
  | [] => if map.entries.length > s then none else some (map, [])
  | x :: rmap =>
    if map.entries.length > s then shrink s (map.erase x.2) rmap else some (map, x :: rmap)

def setMaxSize (m : LimitedMap K V) (s : Nat) : Option (LimitedMap K V) :=
  if s ≠ 0 then
    (shrink s m.map m.rmap).map fun r => { map := r.1, rmap := r.2, nMaxSize := s }
  else some { m with nMaxSize := s }

inductive Call (K V : Type)
  | insert (k : K) (v : V)
  | erase (k : K)
  | update (k : K) (v : V)
  | maxSize (s : Nat)

def step (m : LimitedMap K V) : Call K V → Option (LimitedMap K V)
  | .insert k v => m.insert k v
  | .erase k => m.erase k
  | .update k v => m.update k v
  | .maxSize s => m.setMaxSize s

/-! ## The two maps -/

/-- `rmap` is `map` the other way round, in the order of the values. -/
structure Inverse (m : LimitedMap K V) : Prop where
  perm : m.rmap.Perm (m.map.entries.map fun e => (e.2, e.1))
  sorted : m.rmap.Pairwise fun x y => x.1 ≤ y.1

omit [DecidableEq K] in
theorem rinsert_perm (x : V × K) (rmap : List (V × K)) : (rinsert x rmap).Perm (x :: rmap) := by
  induction rmap with
  | nil => exact List.Perm.refl _
  | cons y rmap ih =>
    rw [rinsert]
    split
    · exact (List.Perm.cons y ih).trans (List.Perm.swap x y rmap)
    · exact List.Perm.refl _

omit [DecidableEq K] in
theorem rinsert_sorted {rmap : List (V × K)} (x : V × K)
    (h : rmap.Pairwise fun y z => y.1 ≤ z.1) : (rinsert x rmap).Pairwise fun y z => y.1 ≤ z.1 := by
  induction rmap with
  | nil => exact List.pairwise_singleton _ x
  | cons y rmap ih =>
    obtain ⟨hy, hrest⟩ := List.pairwise_cons.mp h
    rw [rinsert]
    split
    · rename_i hle
      refine List.pairwise_cons.mpr ⟨fun z hz => ?_, ih hrest⟩
      rcases List.mem_cons.mp ((rinsert_perm x rmap).subset hz) with rfl | hz
      · exact hle
      · exact hy z hz
    · rename_i hlt
      have hxy : x.1 ≤ y.1 := le_of_lt (not_le.mp hlt)
      refine List.pairwise_cons.mpr ⟨fun z hz => ?_, h⟩
      rcases List.mem_cons.mp hz with rfl | hz
      · exact hxy
      · exact hxy.trans (hy z hz)

variable {m m' : LimitedMap K V}

omit [DecidableEq K] in
theorem inverse_empty (n : Nat) : Inverse (empty n : LimitedMap K V) :=
  ⟨List.Perm.refl _, List.Pairwise.nil⟩

theorem Inverse.mem_iff (h : Inverse m) {k : K} {v : V} :
    (v, k) ∈ m.rmap ↔ m.map.lookup k = some v := by
  rw [h.perm.mem_iff, List.mem_map]
  constructor
  · rintro ⟨⟨k', v'⟩, he, heq⟩
    obtain ⟨rfl, rfl⟩ := Prod.mk.inj heq
    exact AList.mem_lookup_iff.mpr he
  · intro hk
    exact ⟨⟨k, v⟩, AList.mem_lookup_iff.mp hk, rfl⟩

omit [LinearOrder V] in
theorem perm_erase {map : AList fun _ : K => V} {rmap : List (V × K)} {k : K} {v : V}
    (hk : map.lookup k = some v)
    (h : ((v, k) :: rmap).Perm (map.entries.map fun e => (e.2, e.1))) :
    rmap.Perm ((map.erase k).entries.map fun e => (e.2, e.1)) := by
  have hentries := (Table.entries_perm hk).map fun e : Sigma fun _ : K => V => (e.2, e.1)
  exact (h.trans hentries).cons_inv

omit [LinearOrder V] in
theorem perm_tail {map : AList fun _ : K => V} {rmap : List (V × K)} {x : V × K}
    (h : (x :: rmap).Perm (map.entries.map fun e => (e.2, e.1))) :
    map.lookup x.2 = some x.1 ∧ rmap.Perm ((map.erase x.2).entries.map fun e => (e.2, e.1)) := by
  obtain ⟨v, k⟩ := x
  have hmem : (v, k) ∈ map.entries.map fun e => (e.2, e.1) := h.subset List.mem_cons_self
  obtain ⟨⟨k', v'⟩, he, heq⟩ := List.mem_map.mp hmem
  obtain ⟨rfl, rfl⟩ := Prod.mk.inj heq
  have hk : map.lookup k' = some v' := AList.mem_lookup_iff.mpr he
  exact ⟨hk, perm_erase hk h⟩

/-! ## What the operations do -/

theorem insert_of_mem {k : K} {v w : V} (h : m.map.lookup k = some w) : m.insert k v = some m := by
  rw [insert, h]

theorem insert_of_room (hm : Inverse m) {k : K} {v : V} (h : m.map.lookup k = none)
    (hroom : ¬ (m.nMaxSize ≠ 0 ∧ m.size + 1 = m.nMaxSize)) :
    ∃ m', m.insert k v = some m' ∧ Inverse m' ∧ m'.size = m.size + 1 ∧ m'.nMaxSize = m.nMaxSize ∧
      m'.map = m.map.insert k v := by
  have hnew : k ∉ m.map := AList.lookup_eq_none.mp h
  have hentries := AList.entries_insert_of_notMem (b := v) hnew
  refine ⟨{ m with map := m.map.insert k v, rmap := rinsert (v, k) m.rmap }, ?_, ?_, ?_, rfl, rfl⟩
  · have hlen : (m.map.insert k v).entries.length = m.size + 1 := by
      rw [hentries, List.length_cons, size]
    rw [insert, h]
    simp only [hlen]
    rw [if_neg hroom]
  · refine ⟨?_, rinsert_sorted _ hm.sorted⟩
    refine (rinsert_perm _ _).trans ?_
    rw [hentries, List.map_cons]
    exact List.Perm.cons _ hm.perm
  · rw [size, hentries, List.length_cons, size]

theorem erase_spec (hm : Inverse m) (k : K) :
    ∃ m', m.erase k = some m' ∧ Inverse m' ∧ m'.size ≤ m.size ∧ m'.nMaxSize = m.nMaxSize := by
  cases h : m.map.lookup k with
  | none => exact ⟨m, by rw [erase, h], hm, Nat.le_refl _, rfl⟩
  | some v =>
    have hmem := hm.mem_iff.mpr h
    refine ⟨{ m with map := m.map.erase k, rmap := m.rmap.erase (v, k) }, ?_, ?_, ?_, rfl⟩
    · rw [erase, h]
      exact if_pos hmem
    · exact ⟨perm_erase h ((List.perm_cons_erase hmem).symm.trans hm.perm),
        hm.sorted.sublist List.erase_sublist⟩
    · have hlen := Table.length_erase (m := m.map) (k := k) (by rw [h]; rfl)
      rw [size, size, ← hlen]
      exact Nat.le_succ _

theorem update_spec (hm : Inverse m) (k : K) (v : V) :
    ∃ m', m.update k v = some m' ∧ Inverse m' ∧ m'.size = m.size ∧ m'.nMaxSize = m.nMaxSize := by
  cases h : m.map.lookup k with
  | none => exact ⟨m, by rw [update, h], hm, rfl, rfl⟩
  | some w =>
    have hmem := hm.mem_iff.mpr h
    have hentries : (m.map.insert k v).entries = ⟨k, v⟩ :: (m.map.erase k).entries :=
      AList.entries_insert
    refine ⟨{ m with map := m.map.insert k v, rmap := rinsert (v, k) (m.rmap.erase (w, k)) },
      ?_, ?_, ?_, rfl⟩
    · rw [update, h]
      exact if_pos hmem
    · refine ⟨?_, rinsert_sorted _ (hm.sorted.sublist List.erase_sublist)⟩
      refine (rinsert_perm _ _).trans ?_
      rw [hentries, List.map_cons]
      exact List.Perm.cons _ (perm_erase h ((List.perm_cons_erase hmem).symm.trans hm.perm))
    · rw [size, hentries, List.length_cons, Table.length_erase (by rw [h]; rfl), size]

theorem shrink_spec {s : Nat} {map : AList fun _ : K => V} {rmap : List (V × K)}
    (hperm : rmap.Perm (map.entries.map fun e => (e.2, e.1)))
    (hsorted : rmap.Pairwise fun x y => x.1 ≤ y.1) :
    ∃ r, shrink s map rmap = some r ∧ r.2.Perm (r.1.entries.map fun e => (e.2, e.1)) ∧
      (r.2.Pairwise fun x y => x.1 ≤ y.1) ∧ r.1.entries.length ≤ s := by
  induction rmap generalizing map with
  | nil =>
    have hlen : map.entries.length = 0 := by
      have hlen := hperm.length_eq
      rw [List.length_map] at hlen
      exact hlen.symm
    exact ⟨(map, []), by rw [shrink, if_neg (by omega)], hperm, hsorted,
      hlen.le.trans (Nat.zero_le s)⟩
  | cons x rmap ih =>
    rw [shrink]
    split
    · exact ih (perm_tail hperm).2 (List.pairwise_cons.mp hsorted).2
    · rename_i hle
      exact ⟨(map, x :: rmap), rfl, hperm, hsorted, not_lt.mp hle⟩

theorem setMaxSize_spec (hm : Inverse m) (s : Nat) :
    ∃ m', m.setMaxSize s = some m' ∧ Inverse m' ∧ m'.nMaxSize = s ∧ (s ≠ 0 → m'.size ≤ s) := by
  by_cases hs : s ≠ 0
  · obtain ⟨r, hr, hperm, hsorted, hlen⟩ := shrink_spec (s := s) hm.perm hm.sorted
    exact ⟨⟨r.1, r.2, s⟩, by rw [setMaxSize, if_pos hs, hr]; rfl, ⟨hperm, hsorted⟩, rfl,
      fun _ => hlen⟩
  · exact ⟨{ m with nMaxSize := s }, by rw [setMaxSize, if_neg hs], ⟨hm.perm, hm.sorted⟩, rfl,
      fun h => absurd h hs⟩

/-! ## What the class promises -/

/-- The elements with values not smaller than `v`. -/
def countFrom (m : LimitedMap K V) (v : V) : Nat := m.map.entries.countP fun e => decide (v ≤ e.2)

/-- A call returns, both maps are inverse to each other, the limit is kept, and an element that
`insert` evicts leaves as many of no smaller value as the limit allows. -/
def Promised (m : LimitedMap K V) (c : Call K V) : Prop :=
  ∃ m', m.step c = some m' ∧ Inverse m' ∧ (m'.nMaxSize ≠ 0 → m'.size ≤ m'.nMaxSize) ∧
    ∀ k v, c = .insert k v → ∀ k' w, m.map.lookup k' = some w → m'.map.lookup k' = none →
      m.nMaxSize ≤ m'.countFrom w

/-- A new element comes only while two places are left. -/
def Room (m : LimitedMap K V) : Call K V → Prop
  | .insert k _ => k ∈ m.map ∨ m.nMaxSize = 0 ∨ m.size + 1 < m.nMaxSize
  | _ => True

structure Kept (m : LimitedMap K V) : Prop where
  inverse : Inverse m
  limit : m.nMaxSize ≠ 0 → m.size ≤ m.nMaxSize

theorem step_of_room (hm : Kept m) {c : Call K V} (hroom : Room m c) :
    ∃ m', m.step c = some m' ∧ Kept m' ∧
      ∀ k v, c = .insert k v → ∀ k' w, m.map.lookup k' = some w → m'.map.lookup k' ≠ none := by
  cases c with
  | insert k v =>
    by_cases hk : k ∈ m.map
    · obtain ⟨w, hw⟩ := Option.isSome_iff_exists.mp (AList.lookup_isSome.mpr hk)
      exact ⟨m, insert_of_mem hw, hm, fun _ _ _ k' u hu hnone => by simp [hu] at hnone⟩
    · have hlast : ¬ (m.nMaxSize ≠ 0 ∧ m.size + 1 = m.nMaxSize) := by
        rcases hroom with h | h | h
        · exact absurd h hk
        · exact fun hc => hc.1 h
        · omega
      obtain ⟨m', hstep, hinv, hsize, hmax, hmap⟩ :=
        insert_of_room (v := v) hm.inverse (AList.lookup_eq_none.mpr hk) hlast
      refine ⟨m', hstep, ⟨hinv, fun h0 => ?_⟩, fun _ _ _ k' u hu hnone => ?_⟩
      · rcases hroom with h | h | h
        · exact absurd h hk
        · exact absurd (hmax.trans h) h0
        · omega
      · rw [hmap, Table.lookup_insert] at hnone
        split at hnone
        · simp at hnone
        · simp [hu] at hnone
  | erase k =>
    obtain ⟨m', hstep, hinv, hsize, hmax⟩ := erase_spec hm.inverse k
    exact ⟨m', hstep, ⟨hinv, fun h0 => hmax ▸ hsize.trans (hm.limit (hmax ▸ h0))⟩,
      fun _ _ h => nomatch h⟩
  | update k v =>
    obtain ⟨m', hstep, hinv, hsize, hmax⟩ := update_spec hm.inverse k v
    exact ⟨m', hstep, ⟨hinv, fun h0 => hmax ▸ hsize ▸ hm.limit (hmax ▸ h0)⟩, fun _ _ h => nomatch h⟩
  | maxSize s =>
    obtain ⟨m', hstep, hinv, hmax, hsize⟩ := setMaxSize_spec hm.inverse s
    exact ⟨m', hstep, ⟨hinv, fun h0 => hmax ▸ hsize (hmax ▸ h0)⟩, fun _ _ h => nomatch h⟩

theorem not_promised_of_full (hm : Kept m) {k : K} {v : V} (hk : k ∉ m.map) (h0 : m.nMaxSize ≠ 0)
    (hfull : m.nMaxSize ≤ m.size + 1) : ¬ Promised m (.insert k v) := by
  rintro ⟨m', hstep, -, hlimit, hevict⟩
  have hnone : m.map.lookup k = none := AList.lookup_eq_none.mpr hk
  have hlen : (m.map.insert k v).entries.length = m.size + 1 := by
    rw [AList.entries_insert_of_notMem hk, List.length_cons, size]
  by_cases hlast : m.size + 1 = m.nMaxSize
  · -- the lowest goes, if there is one, and fewer than the limit are left
    rw [step, insert, hnone] at hstep
    simp only [hlen] at hstep
    rw [if_pos ⟨h0, hlast⟩] at hstep
    cases hr : m.rmap with
    | nil =>
      rw [hr] at hstep
      exact nomatch hstep
    | cons x rmap =>
      rw [hr] at hstep
      obtain rfl := Option.some.inj hstep
      have hx : m.map.lookup x.2 = some x.1 :=
        hm.inverse.mem_iff.mp (by rw [hr]; exact List.mem_cons_self)
      have hne : x.2 ≠ k := by
        intro heq
        rw [heq, hnone] at hx
        exact nomatch hx
      have hin : (m.map.insert k v).lookup x.2 = some x.1 := by
        rw [Table.lookup_insert, if_neg hne, hx]
      have hgone : ((m.map.insert k v).erase x.2).lookup x.2 = none := by
        rw [Table.lookup_erase, if_pos rfl]
      have hcount := hevict k v rfl x.2 x.1 hx hgone
      have hleft := Table.length_erase (m := m.map.insert k v) (k := x.2) (by rw [hin]; rfl)
      have hle := List.countP_le_length (p := fun e : Sigma fun _ : K => V => decide (x.1 ≤ e.2))
        (l := ((m.map.insert k v).erase x.2).entries)
      have hbound : m.nMaxSize ≤ ((m.map.insert k v).erase x.2).entries.length := hcount.trans hle
      omega
  · -- the size is past the limit already
    obtain ⟨m1, hstep1, -, hsize, hmax, -⟩ :=
      insert_of_room (v := v) hm.inverse hnone fun h => hlast h.2
    obtain rfl := Option.some.inj (hstep1.symm.trans hstep)
    have hle := hlimit (by rw [hmax]; exact h0)
    omega

theorem promised_iff (hm : Kept m) (c : Call K V) : Promised m c ↔ Room m c := by
  constructor
  · intro h
    cases c with
    | insert k v =>
      by_contra hroom
      rw [Room, not_or, not_or] at hroom
      exact not_promised_of_full hm hroom.1 hroom.2.1 (by omega) h
    | erase k => trivial
    | update k v => trivial
    | maxSize s => trivial
  · intro hroom
    obtain ⟨m', hstep, hkept, hevict⟩ := step_of_room hm hroom
    exact ⟨m', hstep, hkept.inverse, hkept.limit, fun k v hc k' w hw hnone =>
      absurd hnone (hevict k v hc k' w hw)⟩

/-- **The class keeps its promise in a run** iff no element that is new comes while there is a
limit and fewer than two places are left. -/
theorem promised_run_iff (nMaxSizeIn : Nat) (calls : List (Call K V)) :
    Machine.EveryStep step Promised (empty nMaxSizeIn) calls ↔
      Machine.EveryStep step Room (empty nMaxSizeIn) calls := by
  refine Machine.EveryStep.iff_of_invariant (I := Kept) ?_ (fun m c hm => promised_iff hm c) ?_
  · intro m c m' hm hc hstep
    obtain ⟨m₁, hstep₁, hkept, -⟩ := step_of_room hm ((promised_iff hm c).mp hc)
    exact Option.some.inj (hstep₁.symm.trans hstep) ▸ hkept
  · exact ⟨inverse_empty nMaxSizeIn, fun _ => Nat.zero_le _⟩

/-- With a limit of two, the second element takes the place of the first. -/
theorem limitedMap_evicts_early : ¬ ∀ nMaxSizeIn ≥ 1, ∀ calls : List (Call Nat Nat),
      Machine.EveryStep step Promised (empty nMaxSizeIn) calls := by
  intro h
  obtain ⟨-, hsecond⟩ := h 2 (by decide) [.insert 0 5, .insert 1 7]
  have hroom : Room (empty 2 : LimitedMap Nat Nat) (.insert 0 5) := Or.inr (Or.inr (by decide))
  obtain ⟨m₁, hstep, hkept, -⟩ := step_of_room ⟨inverse_empty 2, fun _ => Nat.zero_le _⟩ hroom
  have hm₁ : m₁ = ⟨(∅ : AList fun _ : Nat => Nat).insert 0 5, [(5, 0)], 2⟩ :=
    Option.some.inj (hstep.symm.trans rfl)
  refine not_promised_of_full hkept (k := 1) (v := 7) ?_ ?_ ?_ (hsecond m₁ hstep).1
  all_goals
    rw [hm₁]
    decide

end LimitedMap

end BitBlocks
