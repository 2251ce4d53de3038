import BitBlocks.Net.AddrConsistent

/-!
# What `Check_` tests

The check gathers the tried entries in a set and the reference counts of the others
in a map, and ticks both off along the places of the tables. It comes out right
exactly when every entry is in order and the set and the map are what the places
hold. A state that is kept is such a state.
-/

namespace BitBlocks

namespace CAddrMan

variable {hash64 : List UInt8 → Nat} {nKey : Uint256} {made : Nat} {s : CAddrMan} {nId : Int}
  {info : CAddrInfo}

/-! ## Gathering -/

/-- The entries in the order of their numbers. -/
def sorted (s : CAddrMan) : List (Sigma fun _ : Int => CAddrInfo) :=
  s.mapInfo.entries.mergeSort fun x y => x.1 ≤ y.1

variable {x : Sigma fun _ : Int => CAddrInfo} {acc acc' : Gathered} {places : List (Nat × Nat)}
  {table : Buckets}

theorem mem_sorted : x ∈ s.sorted ↔ s.mapInfo.lookup x.1 = some x.2 := by
  rw [sorted, List.mem_mergeSort]
  exact AList.mem_lookup_iff.symm

theorem nodup_sorted : (s.sorted.map Sigma.fst).Nodup := by
  have hperm : (s.sorted.map Sigma.fst).Perm (s.mapInfo.entries.map Sigma.fst) :=
    (List.mergeSort_perm _ _).map _
  exact hperm.nodup_iff.mpr s.mapInfo.nodupKeys

def gathered (acc : Gathered) (x : Sigma fun _ : Int => CAddrInfo) : Gathered :=
  if x.2.fInTried then (insert x.1 acc.1, acc.2) else (acc.1, acc.2.insert x.1 x.2.nRefCount)

structure EntryInOrder (s : CAddrMan) (nId : Int) (info : CAddrInfo) : Prop where
  tried : info.fInTried = true → info.nLastSuccess ≠ 0 ∧ info.nRefCount = 0
  untried : info.fInTried = false →
    1 ≤ info.nRefCount ∧ info.nRefCount ≤ ADDRMAN_NEW_BUCKETS_PER_ADDRESS
  -- `mapAddr[info]` is 0 for an address that is not there
  addr : (s.mapAddr.lookup info.ip).getD 0 = nId
  placed : ∃ i : Nat, info.nRandomPos = i ∧ s.vRandom[i]? = some nId
  nLastTry : 0 ≤ info.nLastTry
  nLastSuccess : 0 ≤ info.nLastSuccess

theorem ok_eq_ok {ε α : Type} {a b : α} : (pure a : Except ε α) = .ok b ↔ b = a :=
  ⟨fun h => (Except.ok.inj h).symm, fun h => congrArg Except.ok h.symm⟩

theorem gatherEntry_eq_ok : gatherEntry acc x = .ok acc' ↔
      ((x.2.fInTried = true → x.2.nLastSuccess ≠ 0 ∧ x.2.nRefCount = 0) ∧ (x.2.fInTried = false →
          1 ≤ x.2.nRefCount ∧ x.2.nRefCount ≤ ADDRMAN_NEW_BUCKETS_PER_ADDRESS)) ∧
      acc' = gathered acc x := by
  unfold gatherEntry gathered
  cases htried : x.2.fInTried with
  | true =>
    simp only [if_true, Checks.bind_eq_ok, Checks.exists_unit, Checks.failIf_eq_ok,
      decide_eq_false_iff_not, true_implies, reduceCtorEq, false_implies, and_true, ne_eq,
      not_not, and_assoc]
    exact and_congr_right fun _ => and_congr_right fun _ => ok_eq_ok
  | false =>
    have hrefs : (¬ (x.2.nRefCount < 0 ∨ x.2.nRefCount > ADDRMAN_NEW_BUCKETS_PER_ADDRESS) ∧
        ¬ x.2.nRefCount = 0) ↔
          1 ≤ x.2.nRefCount ∧ x.2.nRefCount ≤ ADDRMAN_NEW_BUCKETS_PER_ADDRESS := by
      omega
    simp only [Bool.false_eq_true, if_false, Checks.bind_eq_ok, Checks.exists_unit,
      Checks.failIf_eq_ok, decide_eq_false_iff_not, true_implies, false_implies, true_and]
    rw [← and_assoc, hrefs]
    exact and_congr_right fun _ => ok_eq_ok

/-- **An entry passes if it is in order**, and is gathered. -/
theorem checkEntry_eq_ok :
    checkEntry s acc x = .ok acc' ↔ EntryInOrder s x.1 x.2 ∧ acc' = gathered acc x := by
  have hplaced : ¬ (x.2.nRandomPos < 0 ∨ x.2.nRandomPos ≥ s.vRandom.length ∨
      s.vRandom[x.2.nRandomPos.toNat]? ≠ some x.1) ↔
        ∃ i : Nat, x.2.nRandomPos = i ∧ s.vRandom[i]? = some x.1 := by
    constructor
    · intro h
      exact ⟨x.2.nRandomPos.toNat, by omega, by_contra fun hne => h (Or.inr (Or.inr hne))⟩
    · rintro ⟨i, hi, hget⟩
      have hlt := (List.getElem?_eq_some_iff.mp hget).1
      rw [hi, Int.toNat_natCast, hget]
      simp
      omega
  unfold checkEntry
  simp only [Checks.bind_eq_ok, Checks.exists_unit, Checks.failIf_eq_ok, decide_eq_false_iff_not,
    gatherEntry_eq_ok, hplaced, ne_eq, not_not, Int.not_lt]
  constructor
  · rintro ⟨_, ⟨⟨htried, huntried⟩, rfl⟩, haddr, hpos, htry, hsuccess, hacc⟩
    exact ⟨⟨htried, huntried, haddr, hpos, htry, hsuccess⟩, (Except.ok.inj hacc).symm⟩
  · rintro ⟨h, rfl⟩
    exact ⟨_, ⟨⟨h.tried, h.untried⟩, rfl⟩, h.addr, h.placed, h.nLastTry, h.nLastSuccess, rfl⟩

theorem foldlM_checkEntry_eq_ok {l : List (Sigma fun _ : Int => CAddrInfo)} :
    l.foldlM (checkEntry s) acc = .ok acc' ↔
      (∀ x ∈ l, EntryInOrder s x.1 x.2) ∧ acc' = l.foldl gathered acc := by
  induction l generalizing acc with
  | nil =>
    have hnil : [].foldlM (checkEntry s) acc = .ok acc := rfl
    rw [hnil, Except.ok.injEq]
    simp [eq_comm]
  | cons x l ih =>
    rw [List.foldlM_cons, List.forall_mem_cons, List.foldl_cons]
    simp only [Checks.bind_eq_ok, checkEntry_eq_ok, ih]
    constructor
    · rintro ⟨_, ⟨hx, rfl⟩, hl, rfl⟩
      exact ⟨⟨hx, hl⟩, rfl⟩
    · rintro ⟨⟨hx, hl⟩, rfl⟩
      exact ⟨_, ⟨hx, rfl⟩, hl, rfl⟩

theorem foldl_gathered_fst (l : List (Sigma fun _ : Int => CAddrInfo)) (acc : Gathered) :
    (l.foldl gathered acc).1 =
      acc.1 ∪ ((l.filter fun x => x.2.fInTried).map Sigma.fst).toFinset := by
  induction l generalizing acc with
  | nil => simp
  | cons x l ih =>
    rw [List.foldl_cons, ih, gathered]
    cases htried : x.2.fInTried with
    | true =>
      simp only [List.filter_cons, htried, if_true, List.map_cons, List.toFinset_cons,
        Finset.insert_union, Finset.union_insert]
    | false =>
      simp only [List.filter_cons, htried, Bool.false_eq_true, if_false]

theorem foldl_gathered_snd (l : List (Sigma fun _ : Int => CAddrInfo)) (acc : Gathered) :
    (l.foldl gathered acc).2 =
      ((l.filter fun x => !x.2.fInTried).map fun x => (x.1, x.2.nRefCount)).foldl
        (fun m x => m.insert x.1 x.2) acc.2 := by
  induction l generalizing acc with
  | nil => rfl
  | cons x l ih =>
    rw [List.foldl_cons, ih, gathered]
    cases htried : x.2.fInTried with
    | true => rw [if_pos rfl, List.filter_cons_of_neg (by simp [htried])]
    | false =>
      rw [if_neg (by simp), List.filter_cons_of_pos (by simp [htried]), List.map_cons,
        List.foldl_cons]

theorem sum_indicator {α : Type} (p : α → Bool) (l : List α) :
    (l.map fun x => if p x then 1 else 0).sum = (l.filter p).length := by
  induction l with
  | nil => rfl
  | cons a l ih =>
    rw [List.map_cons, List.sum_cons, ih]
    cases hp : p a with
    | true =>
      rw [List.filter_cons_of_pos hp, List.length_cons, if_pos rfl]
      omega
    | false =>
      rw [List.filter_cons_of_neg (by simp [hp]), if_neg (by simp)]
      omega

def gatheredTried (s : CAddrMan) : Finset Int := (s.sorted.foldl gathered (∅, ∅)).1

def gatheredNew (s : CAddrMan) : AList fun _ : Int => Int := (s.sorted.foldl gathered (∅, ∅)).2

theorem mem_gatheredTried :
    nId ∈ s.gatheredTried ↔ ∃ info, s.mapInfo.lookup nId = some info ∧ info.fInTried = true := by
  rw [gatheredTried, foldl_gathered_fst, Finset.empty_union, List.mem_toFinset, List.mem_map]
  constructor
  · rintro ⟨x, hx, rfl⟩
    obtain ⟨hmem, htried⟩ := List.mem_filter.mp hx
    exact ⟨x.2, mem_sorted.mp hmem, htried⟩
  · rintro ⟨info, hinfo, htried⟩
    exact ⟨⟨nId, info⟩, List.mem_filter.mpr ⟨mem_sorted.mpr hinfo, htried⟩, rfl⟩

theorem card_gatheredTried : s.gatheredTried.card = Table.total isTried s.mapInfo := by
  have hnodup : ((s.sorted.filter fun x => x.2.fInTried).map Sigma.fst).Nodup :=
    (List.filter_sublist.map _).nodup nodup_sorted
  have hperm : (s.sorted.map fun x => isTried x.2).Perm
      (s.mapInfo.entries.map fun x => isTried x.2) :=
    (List.mergeSort_perm _ _).map _
  rw [gatheredTried, foldl_gathered_fst, Finset.empty_union, List.toFinset_card_of_nodup hnodup,
    List.length_map, Table.total, ← hperm.sum_eq]
  exact (sum_indicator _ _).symm

theorem nodup_new : ((s.sorted.filter fun x => !x.2.fInTried).map Sigma.fst).Nodup :=
  (List.filter_sublist.map _).nodup nodup_sorted

theorem lookup_gatheredNew {n : Int} : s.gatheredNew.lookup nId = some n ↔
    ∃ info, s.mapInfo.lookup nId = some info ∧ info.fInTried = false ∧ info.nRefCount = n := by
  have hkeys : (((s.sorted.filter fun x => !x.2.fInTried).map
      fun x => (x.1, x.2.nRefCount)).map Prod.fst).Nodup := by
    rw [List.map_map]
    exact nodup_new
  rw [gatheredNew, foldl_gathered_snd, Table.lookup_foldl_insert hkeys, AList.lookup_empty]
  constructor
  · rintro (hmem | ⟨-, hnone⟩)
    · obtain ⟨x, hx, heq⟩ := List.mem_map.mp hmem
      obtain ⟨rfl, rfl⟩ := Prod.mk.inj heq
      obtain ⟨hmem, hnew⟩ := List.mem_filter.mp hx
      exact ⟨x.2, mem_sorted.mp hmem, by simpa using hnew, rfl⟩
    · exact absurd hnone (by simp)
  · rintro ⟨info, hinfo, hnew, rfl⟩
    exact Or.inl (List.mem_map.mpr ⟨⟨nId, info⟩,
      List.mem_filter.mpr ⟨mem_sorted.mpr hinfo, by simp [hnew]⟩, rfl⟩)

theorem length_gatheredNew : s.gatheredNew.entries.length = Table.total isNew s.mapInfo := by
  have hperm : s.gatheredNew.keys.Perm
      ((s.sorted.filter fun x => !x.2.fInTried).map Sigma.fst) := by
    refine (List.perm_ext_iff_of_nodup s.gatheredNew.keys_nodup nodup_new).mpr fun x => ?_
    rw [← AList.mem_keys, ← AList.lookup_isSome, Option.isSome_iff_exists]
    constructor
    · rintro ⟨n, hn⟩
      obtain ⟨info, hinfo, hnew, -⟩ := lookup_gatheredNew.mp hn
      exact List.mem_map.mpr ⟨⟨x, info⟩,
        List.mem_filter.mpr ⟨mem_sorted.mpr hinfo, by simp [hnew]⟩, rfl⟩
    · intro hx
      obtain ⟨y, hy, rfl⟩ := List.mem_map.mp hx
      obtain ⟨hmem, hnew⟩ := List.mem_filter.mp hy
      exact ⟨_, lookup_gatheredNew.mpr ⟨y.2, mem_sorted.mp hmem, by simpa using hnew, rfl⟩⟩
  have hsorted : (s.sorted.map fun x => isNew x.2).Perm
      (s.mapInfo.entries.map fun x => isNew x.2) :=
    (List.mergeSort_perm _ _).map _
  have hlength : s.gatheredNew.entries.length = s.gatheredNew.keys.length :=
    (List.length_map _).symm
  rw [hlength, hperm.length_eq, List.length_map, Table.total, ← hsorted.sum_eq, ← sum_indicator]
  refine congrArg _ (List.map_congr_left fun x _ => ?_)
  rw [isNew]
  cases x.2.fInTried <;> rfl

/-! ## Ticking off -/

theorem nodup_slots (hplaces : places.Nodup)
    (hinj : ∀ p ∈ places, ∀ q ∈ places, table p ≠ -1 → table p = table q → p = q) :
    ((places.map table).filter fun x => x ≠ -1).Nodup := by
  rw [List.filter_map]
  refine (hplaces.filter _).map_on fun p hp q hq heq => ?_
  obtain ⟨hmem, hne⟩ := List.mem_filter.mp hp
  exact hinj p hmem q (List.mem_filter.mp hq).1 (by simpa using hne) heq

def held (places : List (Nat × Nat)) (table : Buckets) : List Int :=
  (places.map table).filter fun x => x ≠ -1

theorem mem_held : nId ∈ held places table ↔ (∃ p ∈ places, table p = nId) ∧ nId ≠ -1 := by
  rw [held, List.mem_filter, List.mem_map, decide_eq_true_eq]

theorem count_held (h : nId ≠ -1) : (held places table).count nId = Slots.occ places table nId :=
  List.count_filter (by simpa using h)

theorem foldlM_checkTried_eq_ok {seen out : Finset Int} :
    triedPlaces.foldlM (checkTried hash64 s) seen = .ok out ↔ (∀ p ∈ triedPlaces, s.vvTried p ≠ -1 →
        ((s.mapInfo.lookup (s.vvTried p)).getD CAddrInfo.empty).triedPlace hash64 s.nKey = p) ∧
      (held triedPlaces s.vvTried).Nodup ∧ (∀ x ∈ held triedPlaces s.vvTried, x ∈ seen) ∧
      out = seen \ (held triedPlaces s.vvTried).toFinset := by
  rw [held, ← Slots.foldlM_tick_eq_ok (e := (-11 : Int))]
  refine Slots.foldlM_guarded fun p seen out => ?_
  unfold checkTried
  by_cases hp : s.vvTried p = -1
  · rw [if_pos hp, if_pos hp]
    exact ok_eq_ok
  · rw [if_neg hp, if_neg hp, Slots.tick]
    simp only [Checks.bind_eq_ok, Checks.exists_unit, Checks.failIf_eq_ok, decide_eq_false_iff_not,
      ne_eq, not_not]
    constructor
    · rintro ⟨hmem, hbucket, hpos, hout⟩
      rw [if_pos hmem]
      exact ⟨Prod.ext hbucket (by rw [← hpos, ← hbucket]; rfl), hout⟩
    · rintro ⟨hplace, hout⟩
      split at hout
      · have hbucket := congrArg Prod.fst hplace
        have hpos := congrArg Prod.snd hplace
        refine ⟨‹_›, hbucket, ?_, hout⟩
        rw [← hbucket]
        exact hpos
      · cases hout

theorem foldlM_checkNew_eq_ok :
    (∃ left, newPlaces.foldlM (checkNew hash64 s) s.gatheredNew = .ok left ∧
      left.entries.length = 0) ↔
      (∀ p ∈ newPlaces, s.vvNew p ≠ -1 →
        ((s.mapInfo.lookup (s.vvNew p)).getD CAddrInfo.empty).newPlace hash64 s.nKey p.1 = p) ∧
      Slots.Left s.gatheredNew (held newPlaces s.vvNew) := by
  have hempty (left : AList fun _ : Int => Int) :
      left.entries.length = 0 ↔ ∀ x, left.lookup x = none := by
    rw [List.length_eq_zero_iff, List.eq_nil_iff_forall_not_mem]
    constructor
    · exact fun h x => Option.eq_none_iff_forall_ne_some.mpr fun n hn =>
        h ⟨x, n⟩ (AList.mem_lookup_iff.mp hn)
    · exact fun h x hx => absurd ((h x.1).symm.trans (AList.mem_lookup_iff.mpr hx)) (by simp)
  have hfold (left : AList fun _ : Int => Int) :
      newPlaces.foldlM (checkNew hash64 s) s.gatheredNew = .ok left ↔
        (∀ p ∈ newPlaces, s.vvNew p ≠ -1 →
          ((s.mapInfo.lookup (s.vvNew p)).getD CAddrInfo.empty).newPlace hash64 s.nKey p.1 = p) ∧
        (held newPlaces s.vvNew).foldlM (Slots.tickDown (-12 : Int)) s.gatheredNew = .ok left := by
    refine Slots.foldlM_guarded fun p left left' => ?_
    unfold checkNew
    by_cases hp : s.vvNew p = -1
    · rw [if_pos hp, if_pos hp]
      exact ok_eq_ok
    · rw [if_neg hp, if_neg hp]
      simp only [Checks.bind_eq_ok, Checks.exists_unit, Checks.failIf_eq_ok,
        decide_eq_false_iff_not, ne_eq, not_not]
      constructor
      · rintro ⟨-, hpos, hleft⟩
        exact ⟨Prod.ext rfl hpos, hleft⟩
      · rintro ⟨hplace, hleft⟩
        refine ⟨?_, congrArg Prod.snd hplace, hleft⟩
        unfold Slots.tickDown at hleft
        split at hleft
        · cases hleft
        · rename_i hlookup
          rw [hlookup]
          rfl
  simp only [hfold, hempty, and_assoc, exists_and_left]
  rw [← Slots.foldlM_tickDown_eq_ok (e := (-12 : Int))]

/-- **What the check tests of a state**, the key apart. -/
structure InOrder (hash64 : List UInt8 → Nat) (s : CAddrMan) : Prop where
  size : (s.vRandom.length : Int) = s.nTried + s.nNew
  entries : ∀ nId info, s.mapInfo.lookup nId = some info → EntryInOrder s nId info
  ids : ∀ nId info, s.mapInfo.lookup nId = some info → nId ≠ -1
  nTried : (Table.total isTried s.mapInfo : Int) = s.nTried
  nNew : (Table.total isNew s.mapInfo : Int) = s.nNew
  tried : ∀ nId info, s.mapInfo.lookup nId = some info → info.fInTried = true →
    s.vvTried (info.triedPlace hash64 s.nKey) = nId
  triedSlots : ∀ p ∈ triedPlaces, s.vvTried p ≠ -1 →
    ∃ info, s.mapInfo.lookup (s.vvTried p) = some info ∧ info.fInTried = true ∧
      info.triedPlace hash64 s.nKey = p
  refs : ∀ nId info, s.mapInfo.lookup nId = some info → info.fInTried = false →
    info.nRefCount = s.refs nId
  newSlots : ∀ p ∈ newPlaces, s.vvNew p ≠ -1 →
    ∃ info, s.mapInfo.lookup (s.vvNew p) = some info ∧ info.fInTried = false ∧
      info.newPlace hash64 s.nKey p.1 = p

theorem InOrder.ticked (h : InOrder hash64 s) :
    triedPlaces.foldlM (checkTried hash64 s) s.gatheredTried = .ok ∅ := by
  refine foldlM_checkTried_eq_ok.mpr ⟨fun p hp hne => ?_, ?_, fun x hx => ?_, ?_⟩
  · obtain ⟨info, hinfo, -, hplace⟩ := h.triedSlots p hp hne
    rw [hinfo, Option.getD_some, hplace]
  · refine nodup_slots nodup_triedPlaces fun p hp q hq hne heq => ?_
    obtain ⟨info, hinfo, -, hplace⟩ := h.triedSlots p hp hne
    obtain ⟨info', hinfo', -, hplace'⟩ := h.triedSlots q hq (heq ▸ hne)
    rw [← heq] at hinfo'
    obtain rfl := Option.some.inj (hinfo.symm.trans hinfo')
    exact hplace.symm.trans hplace'
  · obtain ⟨⟨p, hp, rfl⟩, hne⟩ := mem_held.mp hx
    obtain ⟨info, hinfo, htried, -⟩ := h.triedSlots p hp hne
    exact mem_gatheredTried.mpr ⟨info, hinfo, htried⟩
  · refine (Finset.sdiff_eq_empty_iff_subset.mpr fun x hx => ?_).symm
    obtain ⟨info, hinfo, htried⟩ := mem_gatheredTried.mp hx
    exact List.mem_toFinset.mpr (mem_held.mpr
      ⟨⟨_, triedPlace_mem info s.nKey, h.tried x info hinfo htried⟩, h.ids x info hinfo⟩)

theorem InOrder.left (h : InOrder hash64 s) :
    Slots.Left s.gatheredNew (held newPlaces s.vvNew) := by
  intro x
  rcases hx : s.gatheredNew.lookup x with _ | n
  · refine (if_pos (List.count_eq_zero.mpr fun hmem => ?_)).symm
    obtain ⟨⟨p, hp, rfl⟩, hne⟩ := mem_held.mp hmem
    obtain ⟨info, hinfo, hnew, -⟩ := h.newSlots p hp hne
    rw [lookup_gatheredNew.mpr ⟨info, hinfo, hnew, rfl⟩] at hx
    exact absurd hx (by simp)
  · obtain ⟨info, hinfo, hnew, rfl⟩ := lookup_gatheredNew.mp hx
    have hrefs := h.refs x info hinfo hnew
    have hone := ((h.entries x info hinfo).untried hnew).1
    have hcount : (held newPlaces s.vvNew).count x = s.refs x := count_held (h.ids x info hinfo)
    rw [hcount, if_neg (by omega), hrefs]

theorem InOrder.checkedNew (h : InOrder hash64 s) :
    ∃ left, newPlaces.foldlM (checkNew hash64 s) s.gatheredNew = .ok left ∧
      left.entries.length = 0 := by
  refine foldlM_checkNew_eq_ok.mpr ⟨fun p hp hne => ?_, h.left⟩
  obtain ⟨info, hinfo, -, hplace⟩ := h.newSlots p hp hne
  rw [hinfo, Option.getD_some, hplace]

/-- **A state that is in order passes the check**, up to the test of the key. -/
theorem InOrder.check (h : InOrder hash64 s) :
    check_ hash64 s = if s.nKey = 0 then -16 else 0 := by
  obtain ⟨left, hleft, hempty⟩ := h.checkedNew
  have hgather : (s.mapInfo.entries.mergeSort fun x y => x.1 ≤ y.1).foldlM (checkEntry s) (∅, ∅) =
      .ok (s.gatheredTried, s.gatheredNew) :=
    foldlM_checkEntry_eq_ok.mpr ⟨fun x hx => h.entries x.1 x.2 (mem_sorted.mp hx), rfl⟩
  have hcard : (s.gatheredTried.card : Int) = s.nTried := by
    rw [card_gatheredTried]
    exact h.nTried
  have hlength : (s.gatheredNew.entries.length : Int) = s.nNew := by
    rw [length_gatheredNew]
    exact h.nNew
  have hchecks : checks hash64 s = Checks.failIf (decide (s.nKey = 0)) (-16) := by
    unfold checks
    rw [Checks.pass (by simpa using h.size), hgather, Checks.ok_bind]
    dsimp only
    rw [Checks.pass (by simpa using hcard), Checks.pass (by simpa using hlength), h.ticked,
      Checks.ok_bind, hleft, Checks.ok_bind, Checks.pass (by simp),
      Checks.pass (by simpa using hempty)]
  rw [check_, hchecks]
  by_cases hkey : s.nKey = 0
  · rw [if_pos hkey]
    simp [hkey, Checks.failIf]
  · rw [if_neg hkey]
    simp [hkey, Checks.failIf]

/-- What a check that comes out right has been through. -/
theorem of_checks (h : checks hash64 s = .ok ()) : (s.vRandom.length : Int) = s.nTried + s.nNew ∧
      (∀ nId info, s.mapInfo.lookup nId = some info → EntryInOrder s nId info) ∧
      (Table.total isTried s.mapInfo : Int) = s.nTried ∧
      (Table.total isNew s.mapInfo : Int) = s.nNew ∧
      triedPlaces.foldlM (checkTried hash64 s) s.gatheredTried = .ok ∅ ∧
      (∃ left, newPlaces.foldlM (checkNew hash64 s) s.gatheredNew = .ok left ∧
        left.entries.length = 0) ∧ s.nKey ≠ 0 := by
  unfold checks at h
  simp only [Checks.bind_eq_ok, Checks.exists_unit, Checks.failIf_eq_ok, decide_eq_false_iff_not,
    ne_eq, not_not] at h
  obtain ⟨hsize, acc, hacc, hcard, hlength, seen, hseen, left, hleft, hnone, hempty, hkey⟩ := h
  obtain ⟨hl, rfl⟩ := foldlM_checkEntry_eq_ok.mp hacc
  obtain rfl := Finset.card_eq_zero.mp hnone
  refine ⟨hsize, fun nId info hinfo => hl ⟨nId, info⟩ (mem_sorted.mpr hinfo), ?_, ?_, hseen,
    ⟨left, hleft, hempty⟩, hkey⟩
  · rw [← card_gatheredTried]
    exact hcard
  · rw [← length_gatheredNew]
    exact hlength

theorem only_checks : Checks.Only (fun err => err ≠ 0) (checks hash64 s) := by
  have hfail {c : Bool} {err : Int} (herr : err ≠ 0) :
      Checks.Only (fun err => err ≠ 0) (Checks.failIf c err) := Checks.Only.failIf herr
  have hgather (acc : Gathered) (x : Sigma fun _ : Int => CAddrInfo) :
      Checks.Only (fun err => err ≠ 0) (gatherEntry acc x) := by
    unfold gatherEntry
    split
    · exact (hfail (by decide)).bind fun _ _ => (hfail (by decide)).bind fun _ _ => .ok _
    · exact (hfail (by decide)).bind fun _ _ => (hfail (by decide)).bind fun _ _ => .ok _
  refine (hfail (by decide)).bind fun _ _ => ?_
  refine (Checks.Only.foldlM fun acc x => ?_).bind fun acc _ => ?_
  · exact (hgather acc x).bind fun _ _ => (hfail (by decide)).bind fun _ _ =>
      (hfail (by decide)).bind fun _ _ => (hfail (by decide)).bind fun _ _ =>
        (hfail (by decide)).bind fun _ _ => .ok _
  refine (hfail (by decide)).bind fun _ _ => (hfail (by decide)).bind fun _ _ => ?_
  refine (Checks.Only.foldlM fun seen p => ?_).bind fun _ _ => ?_
  · unfold checkTried
    split
    · exact .ok _
    · exact (hfail (by decide)).bind fun _ _ => (hfail (by decide)).bind fun _ _ =>
        (hfail (by decide)).bind fun _ _ => .ok _
  refine (Checks.Only.foldlM fun left p => ?_).bind fun _ _ => ?_
  · unfold checkNew
    split
    · exact .ok _
    · refine (hfail (by decide)).bind fun _ _ => (hfail (by decide)).bind fun _ _ => ?_
      unfold Slots.tickDown
      split
      · exact .error (by decide)
      · split
        · exact .ok _
        · exact .ok _
  exact (hfail (by decide)).bind fun _ _ => (hfail (by decide)).bind fun _ _ => hfail (by decide)

theorem check_eq_zero : check_ hash64 s = 0 ↔ checks hash64 s = .ok () := by
  rw [check_]
  cases h : checks hash64 s with
  | ok u => simp
  | error err => simpa using only_checks err h

/-- **The check comes out right when the state is in order**, and its key is not the null one. -/
theorem check_eq_zero_iff : check_ hash64 s = 0 ↔ InOrder hash64 s ∧ s.nKey ≠ 0 := by
  constructor
  · intro h
    obtain ⟨hsize, hentries, hnTried, hnNew, htried, hnew, hkey⟩ := of_checks (check_eq_zero.mp h)
    obtain ⟨htriedSlots, -, hseen, hall⟩ := foldlM_checkTried_eq_ok.mp htried
    obtain ⟨hnewSlots, hleft⟩ := foldlM_checkNew_eq_ok.mp hnew
    have hslot (nId : Int) (info : CAddrInfo) (hinfo : s.mapInfo.lookup nId = some info)
        (hi : info.fInTried = true) : nId ∈ held triedPlaces s.vvTried :=
      List.mem_toFinset.mp (Finset.sdiff_eq_empty_iff_subset.mp hall.symm
        (mem_gatheredTried.mpr ⟨info, hinfo, hi⟩))
    have hcounted (nId : Int) (info : CAddrInfo) (hinfo : s.mapInfo.lookup nId = some info)
        (hi : info.fInTried = false) :
        0 < (held newPlaces s.vvNew).count nId ∧
          info.nRefCount = (held newPlaces s.vvNew).count nId := by
      have hx := hleft nId
      rw [lookup_gatheredNew.mpr ⟨info, hinfo, hi, rfl⟩] at hx
      split at hx
      · exact nomatch hx
      · exact ⟨by omega, Option.some.inj hx⟩
    refine ⟨⟨hsize, hentries, fun nId info hinfo => ?_, hnTried, hnNew, fun nId info hinfo hi => ?_,
      fun p hp hne => ?_, fun nId info hinfo hi => ?_, fun p hp hne => ?_⟩, hkey⟩
    · cases hi : info.fInTried with
      | true => exact (mem_held.mp (hslot nId info hinfo hi)).2
      | false =>
        exact (mem_held.mp (List.count_pos_iff.mp (hcounted nId info hinfo hi).1)).2
    · obtain ⟨⟨p, hp, rfl⟩, hne⟩ := mem_held.mp (hslot nId info hinfo hi)
      have hplace := htriedSlots p hp hne
      rw [hinfo, Option.getD_some] at hplace
      rw [hplace]
    · obtain ⟨info, hinfo, hi⟩ := mem_gatheredTried.mp (hseen _ (mem_held.mpr ⟨⟨p, hp, rfl⟩, hne⟩))
      have hplace := htriedSlots p hp hne
      rw [hinfo, Option.getD_some] at hplace
      exact ⟨info, hinfo, hi, hplace⟩
    · obtain ⟨hpos, hcount⟩ := hcounted nId info hinfo hi
      rw [count_held (mem_held.mp (List.count_pos_iff.mp hpos)).2] at hcount
      exact hcount
    · have hx := hleft (s.vvNew p)
      have hpos := List.count_pos_iff.mpr (mem_held.mpr ⟨⟨p, hp, rfl⟩, hne⟩)
      rw [if_neg (by omega)] at hx
      obtain ⟨info, hinfo, hi, -⟩ := lookup_gatheredNew.mp hx
      have hplace := hnewSlots p hp hne
      rw [hinfo, Option.getD_some] at hplace
      exact ⟨info, hinfo, hi, hplace⟩
  · rintro ⟨h, hkey⟩
    exact h.check.trans (if_neg hkey)

theorem total_isTried_isNew (s : CAddrMan) :
    Table.total isTried s.mapInfo + Table.total isNew s.mapInfo =
      Table.total (fun _ => 1) s.mapInfo := by
  rw [Table.total, Table.total, Table.total, ← List.sum_map_add]
  refine congrArg _ (List.map_congr_left fun x _ => ?_)
  rw [isTried, isNew]
  cases x.2.fInTried <;> rfl

/-- **What is kept is in order.** -/
theorem Kept.inOrder (h : Kept hash64 nKey made [] 0 s) : InOrder hash64 s := by
  have htotal := total_isTried_isNew s
  have hsize := h.directory.size
  have hnTried := h.tables.nTried
  have hnNew := h.tables.nNew
  refine ⟨by omega, fun nId info hinfo => ?_, fun nId info hinfo => ?_, hnTried, by omega,
    fun nId info hinfo hi => (h.tables.tried nId info hinfo hi).2, h.tables.triedSlots,
    fun nId info hinfo _ => h.tables.refs nId info hinfo, h.tables.newSlots⟩
  · have hstats := h.stats.entries nId info hinfo
    refine ⟨fun hi => ⟨hstats.tried hi, (h.tables.tried nId info hinfo hi).1⟩, fun hi => ?_, ?_,
      h.directory.placed nId info hinfo, hstats.nLastTry, hstats.nLastSuccess⟩
    · obtain ⟨hle, hpos⟩ := h.tables.untried nId info hinfo hi
      exact ⟨hpos.resolve_left List.not_mem_nil, hle⟩
    · rw [h.directory.known nId info hinfo]
      rfl
  · have hid := (h.directory.ids nId info hinfo).1
    omega

/-- **What is kept passes the check**, up to the test of the key. -/
theorem check_of_kept (h : Kept hash64 nKey made [] 0 s) :
    check_ hash64 s = if nKey = 0 then -16 else 0 := by
  rw [h.inOrder.check, h.stats.key]

/-! ## Runs -/

attribute [local irreducible] Hoare.Wp

theorem kept_fresh (nKey : Uint256) : Kept hash64 nKey 0 [] 0 { nKey } := by
  have hnone : ∀ x i, ({ nKey } : CAddrMan).mapInfo.lookup x ≠ some i := fun x i hx =>
    absurd hx (by simp)
  refine ⟨⟨fun x i hx => absurd hx (hnone x i), fun x i hx => absurd hx (hnone x i),
    fun a x hx => absurd hx (by simp), fun x i hx => absurd hx (hnone x i),
    fun k x hx => absurd hx (by simp), rfl, le_rfl⟩, ⟨fun x i hx => absurd hx (hnone x i),
    fun x i hx => absurd hx (hnone x i), fun x i hx => absurd hx (hnone x i),
    fun p _ hne => absurd rfl hne, fun p _ hne => absurd rfl hne, rfl, rfl⟩,
    ⟨fun x i hx => absurd hx (hnone x i), le_rfl, rfl⟩⟩

/-- **The address manager is consistent after every call**, and no assertion fails: the check passes
for every key but the null one, and a run stops only where a counter overflows. -/
theorem calls_consistent (hash64 : List UInt8 → Nat) (nKey : Uint256) {l : List AddrCall}
    (hl : ∀ c ∈ l, c.Positive) :
    Hoare.Wp (calls hash64 l) (fun _ s => Directory s ∧ Tables hash64 [] 0 s ∧
        check_ hash64 s = if nKey = 0 then -16 else 0)
      (fun e _ => e = .overflow ∧ 2 ^ 31 ≤ l.length) { nKey } := by
  refine (wp_calls hl (kept_fresh nKey)).mono (fun _ s hs => ?_) fun e s hE => ?_
  · exact ⟨hs.directory, hs.tables, check_of_kept hs⟩
  · rw [Nat.zero_add] at hE
    exact hE

/-- An address is told, and reached. -/
theorem addAndGood_consistent :
    Hoare.Wp (calls List.length [.add_ { ip := List.replicate 16 0x20, port := 8333 }
        (List.replicate 16 0x21) 0 100000000 7, .good_ ⟨List.replicate 16 0x20, 8333⟩ 1 5])
      (fun _ s => check_ List.length s = 0) (fun _ _ => False) { nKey := 1 } := by
  have hpositive : ∀ c ∈ ([.add_ { ip := List.replicate 16 0x20, port := 8333 }
      (List.replicate 16 0x21) 0 100000000 7, .good_ ⟨List.replicate 16 0x20, 8333⟩ 1 5] :
      List AddrCall), c.Positive := by
    intro c hc
    simp only [List.mem_cons, List.not_mem_nil, or_false] at hc
    rcases hc with rfl | rfl
    · trivial
    · exact Int.one_pos
  exact (calls_consistent List.length 1 hpositive).mono
    (fun _ s hs => hs.2.2.trans (if_neg Nat.one_ne_zero)) fun _ _ hE =>
      absurd hE.2 (by decide)

/-- With the null key the check fails, whatever is called. -/
theorem nullKey_check : Hoare.Wp (calls List.length [.attempt_ ⟨List.replicate 16 0x20, 8333⟩ 1])
      (fun _ s => check_ List.length s = -16) (fun _ _ => False) { nKey := 0 } := by
  have hpositive : ∀ c ∈ ([.attempt_ ⟨List.replicate 16 0x20, 8333⟩ 1] : List AddrCall),
      c.Positive := by
    intro c hc
    rw [List.mem_singleton.mp hc]
    exact Int.one_pos
  refine (wp_calls hpositive (kept_fresh 0)).mono (fun _ s hs => check_of_kept hs) fun _ _ hE => ?_
  have hmany := hE.2
  rw [List.length_singleton] at hmany
  omega

end CAddrMan

end BitBlocks
