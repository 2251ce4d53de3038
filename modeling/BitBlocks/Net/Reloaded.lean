import BitBlocks.Net.Reload

/-!
# What comes of a state that is read back

`Clear` empties the tables and the random order of the target, and leaves its map of
entries and its map of addresses. A new entry is read over what is there under its
number, and keeps its reference count and its flag; an entry under a number that is
not given out stays, and so does an address.

What is read is the state that was written, up to the numbers, exactly when all of
that is written over: when every number in use is that of a tried entry in the file,
and every address is one of the file.
-/

namespace BitBlocks

namespace CAddrMan

variable {hash64 : List UInt8 → Nat} {nRand : Uint256} {A B s s₀ : CAddrMan} {nId n : Int}
  {info : CAddrInfo} {x : Entry} {i : Nat}

/-- A state is another one, with other numbers for the entries. -/
structure Renumbered (number : Int → Int) (A s : CAddrMan) : Prop where
  none : number (-1) = -1
  injective : ∀ nId nId' info info', A.mapInfo.lookup nId = some info →
    A.mapInfo.lookup nId' = some info' → number nId = number nId' → nId = nId'
  kept : ∀ nId info, A.mapInfo.lookup nId = some info →
    ∃ info', s.mapInfo.lookup (number nId) = some info' ∧ info'.record = info.record ∧
      info'.fInTried = info.fInTried ∧ info'.nRefCount = info.nRefCount
  only : ∀ n info', s.mapInfo.lookup n = some info' →
    ∃ nId info, A.mapInfo.lookup nId = some info ∧ n = number nId
  vvNew : ∀ p ∈ newPlaces, s.vvNew p = number (A.vvNew p)
  vvTried : ∀ p ∈ triedPlaces, s.vvTried p = number (A.vvTried p)

def Knows (A : CAddrMan) (a : CNetAddr) : Prop :=
  ∃ nId info, A.mapInfo.lookup nId = some info ∧ info.ip = a

/-- **The state is consistent and the other one over again**, with the same addresses. -/
structure Reloaded (hash64 : List UInt8 → Nat) (A s : CAddrMan) : Prop where
  consistent : check_ hash64 s = 0
  renumbered : ∃ number, Renumbered number A s
  addresses : ∀ a, (s.mapAddr.lookup a).isSome = true ↔ A.Knows a
  nKey : s.nKey = A.nKey
  nNew : s.nNew = A.nNew
  nTried : s.nTried = A.nTried

/-- All that the target holds is written over. -/
structure Overwritten (A B : CAddrMan) : Prop where
  ids : ∀ n info, B.mapInfo.lookup n = some info → A.nNew ≤ n ∧ n < A.nNew + A.nTried
  addresses : ∀ a n, B.mapAddr.lookup a = some n → A.Knows a

/-! ## What is there in the end -/

theorem InOrder.length_written (hA : InOrder hash64 A) :
    (A.written.length : Int) = A.nNew + A.nTried := by
  rw [written, List.length_append, ← hA.length_newEntries, ← hA.length_triedEntries]
  push_cast
  rfl

theorem InOrder.nRefCount_eq (hA : InOrder hash64 A) (hinfo : A.mapInfo.lookup nId = some info) :
    info.nRefCount = A.refs nId := by
  cases hi : info.fInTried with
  | false => exact hA.refs nId info hinfo hi
  | true =>
    have hocc : A.refs nId = 0 := Slots.occ_eq_zero.mpr fun p hp hslot => by
      obtain ⟨info', hinfo', hnew, -⟩ := hA.newSlots p hp (hslot ▸ hA.ids nId info hinfo)
      rw [hslot, hinfo] at hinfo'
      obtain rfl := Option.some.inj hinfo'
      exact absurd hi (by simp [hnew])
    rw [((hA.entries nId info hinfo).tried hi).2, hocc]
    rfl

theorem gained_nonneg (s : CAddrMan) (n : Int) : 0 ≤ s.gained n := by
  rw [gained]
  split
  · exact le_rfl
  · exact Int.natCast_nonneg _

theorem filed_over {info0 : CAddrInfo} (hi : i < A.newEntries.length)
    (hinfo : B.mapInfo.lookup (i : Int) = some info0) :
    filed A B i info = { info0.read info.record with nRandomPos := i } := by
  rw [filed, base, if_pos hi, hinfo]
  rfl

theorem filed_new (hi : i < A.newEntries.length) (hnone : B.mapInfo.lookup (i : Int) = none) :
    filed A B i info = { CAddrInfo.empty.read info.record with nRandomPos := i } := by
  rw [filed, base, if_pos hi, hnone]
  rfl

theorem filed_tried (hi : ¬ i < A.newEntries.length) : filed A B i info =
      { CAddrInfo.empty.read info.record with fInTried := true, nRandomPos := i } := by
  rw [filed, base, if_neg hi]
  rfl

namespace Indexed

theorem lookup_written (h : Indexed A s₀ A.heldPlaces s) (h₀ : Filed A B A.written s₀)
    (hx : A.written[i]? = some x) :
    s.mapInfo.lookup (i : Int) = some (more (filed A B i x.2) (s.gained i)) := by
  rw [h.entry, h₀.entry i x hx, Option.map_some]

theorem lookup_left (h : Indexed A s₀ A.heldPlaces s) (h₀ : Filed A B A.written s₀)
    (hn : ∀ i : Nat, i < A.written.length → n ≠ i) :
    s.mapInfo.lookup n = (B.mapInfo.lookup n).map fun info => more info (s.gained n) := by
  rw [h.entry, h₀.left n hn]

theorem vvNew_eq (hA : InOrder hash64 A) (h₀ : Filed A B A.written s₀)
    (h : Indexed A s₀ A.heldPlaces s) (hx : A.written[i]? = some x)
    (hnew : i < A.newEntries.length) (hnone : B.mapInfo.lookup (i : Int) = none) {p : Nat × Nat}
    (hp : p ∈ newPlaces) (hslot : A.vvNew p = x.1) : s.vvNew p = i := by
  have hne : A.vvNew p ≠ -1 := hslot ▸ hA.ids x.1 x.2 (hA.mem_written.mp (List.mem_of_getElem? hx))
  have hnum : A.number (A.vvNew p) = i := hslot ▸ hA.number_eq hx
  have hheld : p ∈ A.heldPlaces := List.mem_filter.mpr ⟨hp, by simpa using hne⟩
  rw [h.granted p hheld fun info hinfo => ?_, hnum]
  rw [hnum, h₀.entry i x hx] at hinfo
  obtain rfl := Option.some.inj hinfo
  rw [filed_new hnew hnone]
  rfl

/-- **Nothing is pruned**, of what comes from a target whose entries are tried or have references:
every new entry of the file is given a place. -/
theorem unreferenced_eq_false (hA : InOrder hash64 A) (h₀ : Filed A B A.written s₀)
    (h : Indexed A s₀ A.heldPlaces s)
    (hB : ∀ n info, B.mapInfo.lookup n = some info → info.fInTried = true ∨ 0 < info.nRefCount) :
    s.unreferenced n = false := by
  suffices hkept : ∀ info, s.mapInfo.lookup n = some info →
      info.fInTried = true ∨ 0 < info.nRefCount by
    unfold unreferenced
    cases hlook : s.mapInfo.lookup n with
    | none => rfl
    | some info =>
      rcases hkept info hlook with htried | hpos
      · simp [htried]
      · have hne : info.nRefCount ≠ 0 := by omega
        simp [hne]
  intro info hinfo
  have hgained := gained_nonneg s n
  by_cases hn : ∃ i : Nat, i < A.written.length ∧ n = i
  · obtain ⟨i, hi, rfl⟩ := hn
    have hx : A.written[i]? = some A.written[i] := List.getElem?_eq_getElem hi
    rw [h.lookup_written h₀ hx] at hinfo
    obtain rfl := Option.some.inj hinfo
    by_cases hnew : i < A.newEntries.length
    · cases hbase : B.mapInfo.lookup (i : Int) with
      | none =>
        right
        have hinfo := hA.mem_written.mp (List.getElem_mem hi)
        have htried := hA.fInTried_eq hx
        rw [decide_eq_false (by omega)] at htried
        have hone := ((hA.entries _ _ hinfo).untried htried).1
        have hrefs := hA.refs _ _ hinfo htried
        have hpos : 0 < A.refs A.written[i].1 := by omega
        obtain ⟨p, hp, hslot⟩ := Slots.occ_pos.mp hpos
        have hgiven : 0 < s.refs i :=
          Slots.occ_pos.mpr ⟨p, hp, vvNew_eq hA h₀ h hx hnew hbase hp hslot⟩
        have hmany : s.gained i = s.refs i := if_neg (by omega)
        rw [filed_new hnew hbase, hmany]
        exact Int.add_pos_of_nonneg_of_pos le_rfl (Int.natCast_pos.mpr hgiven)
      | some info0 =>
        rw [filed_over hnew hbase]
        exact (hB i info0 hbase).imp_right fun hpos => Int.add_pos_of_pos_of_nonneg hpos hgained
    · rw [filed_tried hnew]
      exact Or.inl rfl
  · have hn' : ∀ i : Nat, i < A.written.length → n ≠ i := fun i hi heq => hn ⟨i, hi, heq⟩
    rw [h.lookup_left h₀ hn'] at hinfo
    obtain ⟨info0, hinfo0, rfl⟩ := Option.map_eq_some_iff.mp hinfo
    exact (hB n info0 hinfo0).imp_right fun hpos => Int.add_pos_of_pos_of_nonneg hpos hgained

end Indexed

/-! ## Over a target that is written over -/

namespace Overwritten

theorem lookup_new (hO : Overwritten A B) (hA : InOrder hash64 A)
    (hi : i < A.newEntries.length) : B.mapInfo.lookup (i : Int) = none := by
  have hlength := hA.length_newEntries
  refine Option.eq_none_iff_forall_ne_some.mpr fun info hinfo => ?_
  have hids := (hO.ids _ info hinfo).1
  omega

theorem lookup_left (hO : Overwritten A B) (hA : InOrder hash64 A)
    (hn : ∀ i : Nat, i < A.written.length → n ≠ i) : B.mapInfo.lookup n = none := by
  have hlength := hA.length_written
  have hnew := hA.length_newEntries
  refine Option.eq_none_iff_forall_ne_some.mpr fun info hinfo => ?_
  obtain ⟨hle, hlt⟩ := hO.ids n info hinfo
  exact hn n.toNat (by omega) (by omega)

section

variable (hO : Overwritten A B) (hA : InOrder hash64 A) (h₀ : Filed A B A.written s₀)
  (h : Indexed A s₀ A.heldPlaces s)

include hO hA h₀ h

theorem vvNew_number {p : Nat × Nat} (hp : p ∈ newPlaces) : s.vvNew p = A.number (A.vvNew p) := by
  by_cases hne : A.vvNew p = -1
  · have hnot : p ∉ A.heldPlaces := fun hmem => by simpa [hne] using (List.mem_filter.mp hmem).2
    rw [(h.slots p).resolve_right fun hx => hnot hx.1, hne, number, if_pos rfl]
  · obtain ⟨info, hinfo, hnew, -⟩ := hA.newSlots p hp hne
    obtain ⟨i, hi, hnum⟩ := hA.exists_getElem hinfo
    have htried := hA.fInTried_eq hi
    rw [hnew] at htried
    have hlt : i < A.newEntries.length := Nat.lt_of_not_le (of_decide_eq_false htried.symm)
    rw [Indexed.vvNew_eq hA h₀ h hi hlt (hO.lookup_new hA hlt) hp rfl, hnum]

theorem refs_eq (hx : A.written[i]? = some x) : s.refs i = A.refs x.1 := by
  have hlook := hA.mem_written.mp (List.mem_of_getElem? hx)
  have hnum := hA.number_eq hx
  refine le_antisymm (Slots.occ_le fun p hp hslot => ?_) (Slots.occ_le fun p hp hslot => ?_)
  · rw [vvNew_number hO hA h₀ h hp] at hslot
    have hne : A.vvNew p ≠ -1 := by
      intro hnone
      rw [hnone, number, if_pos rfl] at hslot
      omega
    obtain ⟨info, hinfo, -⟩ := hA.newSlots p hp hne
    exact hA.number_inj hinfo hlook (hslot.trans hnum.symm)
  · rw [vvNew_number hO hA h₀ h hp, hslot, hnum]

/-- **Every entry is there again**, under its number. -/
theorem exists_entry (hx : A.written[i]? = some x) :
    ∃ info', s.mapInfo.lookup (i : Int) = some info' ∧ info'.record = x.2.record ∧
      info'.fInTried = x.2.fInTried ∧ info'.nRefCount = x.2.nRefCount ∧ info'.nRandomPos = i ∧
      info'.nLastTry = 0 := by
  have hcount := hA.nRefCount_eq (hA.mem_written.mp (List.mem_of_getElem? hx))
  have hgained : s.gained i = A.refs x.1 := by
    rw [gained, if_neg (by omega), refs_eq hO hA h₀ h hx]
  refine ⟨_, h.lookup_written h₀ hx, ?_⟩
  rw [hA.fInTried_eq hx, hcount, hgained]
  by_cases hi : i < A.newEntries.length
  · rw [filed_new hi (hO.lookup_new hA hi), decide_eq_false (by omega)]
    exact ⟨rfl, rfl, Int.zero_add _, rfl, rfl⟩
  · rw [filed_tried hi, decide_eq_true (by omega)]
    exact ⟨rfl, rfl, Int.zero_add _, rfl, rfl⟩

theorem exists_written (hinfo : s.mapInfo.lookup n = some info) :
    ∃ (i : Nat) (x : Entry), n = i ∧ A.written[i]? = some x := by
  by_contra hnot
  have hn : ∀ i : Nat, i < A.written.length → n ≠ i := fun i hi heq =>
    hnot ⟨i, A.written[i], heq, List.getElem?_eq_getElem hi⟩
  rw [h.lookup_left h₀ hn, hO.lookup_left hA hn] at hinfo
  exact nomatch hinfo

omit hO in
theorem vvTried_number {p : Nat × Nat} (hp : p ∈ triedPlaces) :
    s.vvTried p = A.number (A.vvTried p) := by
  obtain ⟨mapInfo, vvNew, hframe⟩ := h.frame
  have hsame : s.vvTried = s₀.vvTried := by rw [hframe]
  rw [hsame, h₀.vvTried p hp]
  by_cases hne : A.vvTried p = -1
  · have hnot : A.vvTried p ∉ A.written.map Sigma.fst := fun hmem => by
      obtain ⟨x, hx, hfst⟩ := List.mem_map.mp hmem
      exact hA.ids x.1 x.2 (hA.mem_written.mp hx) (hfst.trans hne)
    rw [if_neg hnot, hne, number, if_pos rfl]
  · obtain ⟨info, hinfo, -⟩ := hA.triedSlots p hp hne
    exact if_pos (List.mem_map.mpr ⟨⟨_, info⟩, hA.mem_written.mpr hinfo, rfl⟩)

theorem renumbered : Renumbered A.number A s := by
  refine ⟨if_pos rfl, fun nId nId' info info' hinfo hinfo' heq => hA.number_inj hinfo hinfo' heq,
    fun nId info hinfo => ?_, fun n info' hinfo' => ?_,
    fun p hp => vvNew_number hO hA h₀ h hp, fun p hp => vvTried_number hA h₀ h hp⟩
  · obtain ⟨i, hi, hnum⟩ := hA.exists_getElem hinfo
    obtain ⟨info', hinfo', hrecord, htried, hcount, -⟩ := exists_entry hO hA h₀ h hi
    exact ⟨info', by rw [hnum, hinfo'], hrecord, htried, hcount⟩
  · obtain ⟨i, x, rfl, hx⟩ := exists_written hO hA h₀ h hinfo'
    exact ⟨x.1, x.2, hA.mem_written.mp (List.mem_of_getElem? hx), (hA.number_eq hx).symm⟩

theorem total_eq {w : CAddrInfo → Nat}
    (hw : ∀ info info' : CAddrInfo, info'.fInTried = info.fInTried → w info' = w info) :
    Table.total w s.mapInfo = Table.total w A.mapInfo := by
  have hkeys (k : Int) : k ∈ (List.range A.written.length).map Int.ofNat ↔
      (s.mapInfo.lookup k).isSome = true := by
    rw [List.mem_map, Option.isSome_iff_exists]
    constructor
    · rintro ⟨i, hi, rfl⟩
      obtain ⟨info', hinfo', -⟩ := exists_entry hO hA h₀ h
        (List.getElem?_eq_getElem (List.mem_range.mp hi))
      exact ⟨info', hinfo'⟩
    · rintro ⟨info', hinfo'⟩
      obtain ⟨i, x, rfl, hx⟩ := exists_written hO hA h₀ h hinfo'
      exact ⟨i, List.mem_range.mpr (List.getElem?_eq_some_iff.mp hx).1, rfl⟩
  have hkeys' (k : Int) : k ∈ A.written.map Sigma.fst ↔ (A.mapInfo.lookup k).isSome = true := by
    rw [List.mem_map, Option.isSome_iff_exists]
    constructor
    · rintro ⟨x, hx, rfl⟩
      exact ⟨x.2, hA.mem_written.mp hx⟩
    · rintro ⟨info, hinfo⟩
      exact ⟨⟨k, info⟩, hA.mem_written.mpr hinfo, rfl⟩
  rw [Table.total_eq_sum w (List.nodup_range.map fun _ _ heq => Int.ofNat.inj heq) hkeys,
    Table.total_eq_sum w hA.nodup_written hkeys', List.map_map, List.map_map]
  refine congrArg _ (List.ext_getElem (by simp) fun i hi hi' => ?_)
  rw [List.length_map] at hi'
  have hx : A.written[i]? = some A.written[i] := List.getElem?_eq_getElem hi'
  obtain ⟨info', hinfo', -, htried, -⟩ := exists_entry hO hA h₀ h hx
  have hlook := hA.mem_written.mp (List.getElem_mem hi')
  rw [List.getElem_map, List.getElem_map, List.getElem_range, Function.comp_apply,
    Function.comp_apply, hlook]
  have hinfo'' : s.mapInfo.lookup (Int.ofNat i) = some info' := hinfo'
  rw [hinfo'']
  exact hw _ _ htried

/-- **The state is in order.** -/
theorem inOrder : InOrder hash64 s := by
  obtain ⟨mapInfo, vvNew, hframe⟩ := h.frame
  have hnKey : s.nKey = A.nKey := by rw [hframe]; exact h₀.nKey
  have hnNew : s.nNew = A.nNew := by rw [hframe]; exact h₀.nNew
  have hnTried : s.nTried = A.nTried := by rw [hframe]; exact h₀.nTried
  have hmapAddr : s.mapAddr = s₀.mapAddr := by rw [hframe]
  have hrandom : s.vRandom = (List.range A.written.length).map Int.ofNat := by
    rw [hframe]
    exact h₀.random
  have hlength := hA.length_written
  refine ⟨?_, fun n info' hinfo' => ?_, fun n info' hinfo' => ?_, ?_, ?_,
    fun n info' hinfo' htried => ?_, fun p hp hne => ?_, fun n info' hinfo' hnew => ?_,
    fun p hp hne => ?_⟩
  · rw [hrandom, hnNew, hnTried, List.length_map, List.length_range]
    omega
  · obtain ⟨i, x, rfl, hx⟩ := exists_written hO hA h₀ h hinfo'
    have hold := hA.entries _ _ (hA.mem_written.mp (List.mem_of_getElem? hx))
    obtain ⟨info, hinfo, hrecord, htried, hcount, hpos, htry⟩ := exists_entry hO hA h₀ h hx
    obtain rfl := Option.some.inj (hinfo'.symm.trans hinfo)
    have hip : info'.ip = x.2.ip := congrArg (fun r => r.ip) hrecord
    have hsuccess : info'.nLastSuccess = x.2.nLastSuccess :=
      congrArg (fun r => r.nLastSuccess) hrecord
    refine ⟨fun hi => ?_, fun hi => ?_, ?_, ⟨i, hpos, ?_⟩, by omega, ?_⟩
    · rw [hsuccess, hcount]
      exact hold.tried (htried.symm.trans hi)
    · rw [hcount]
      exact hold.untried (htried.symm.trans hi)
    · rw [hmapAddr, hip, h₀.addr i x hx]
      rfl
    · have hi := (List.getElem?_eq_some_iff.mp hx).1
      rw [hrandom, List.getElem?_map, List.getElem?_range hi]
      rfl
    · rw [hsuccess]
      exact hold.nLastSuccess
  · obtain ⟨i, x, rfl, -⟩ := exists_written hO hA h₀ h hinfo'
    omega
  · rw [hnTried, ← hA.nTried, total_eq hO hA h₀ h
      fun info info' heq => by rw [isTried, isTried, heq]]
  · rw [hnNew, ← hA.nNew, total_eq hO hA h₀ h fun info info' heq => by rw [isNew, isNew, heq]]
  · obtain ⟨i, x, rfl, hx⟩ := exists_written hO hA h₀ h hinfo'
    obtain ⟨info, hinfo, hrecord, htried', -⟩ := exists_entry hO hA h₀ h hx
    obtain rfl := Option.some.inj (hinfo'.symm.trans hinfo)
    have hserv : info'.toCService = x.2.toCService := congrArg (fun r => r.toCService) hrecord
    rw [hnKey, triedPlace_congr hserv, vvTried_number hA h₀ h (triedPlace_mem _ _),
      hA.tried _ _ (hA.mem_written.mp (List.mem_of_getElem? hx)) (htried'.symm.trans htried),
      hA.number_eq hx]
  · have hnum := vvTried_number hA h₀ h hp
    obtain ⟨info, hinfo, htried, hplace⟩ := hA.triedSlots p hp
      fun hnone => hne (by rw [hnum, hnone, number, if_pos rfl])
    obtain ⟨i, hx, hi⟩ := hA.exists_getElem hinfo
    obtain ⟨info', hinfo', hrecord, htried', -⟩ := exists_entry hO hA h₀ h hx
    have hserv : info'.toCService = info.toCService := congrArg (fun r => r.toCService) hrecord
    refine ⟨info', by rw [hnum, hi, hinfo'], htried'.trans htried, ?_⟩
    rw [hnKey, triedPlace_congr hserv, hplace]
  · obtain ⟨i, x, rfl, hx⟩ := exists_written hO hA h₀ h hinfo'
    obtain ⟨info, hinfo, -, htried, hcount, -⟩ := exists_entry hO hA h₀ h hx
    obtain rfl := Option.some.inj (hinfo'.symm.trans hinfo)
    rw [hcount, refs_eq hO hA h₀ h hx]
    exact hA.refs _ _ (hA.mem_written.mp (List.mem_of_getElem? hx)) (htried.symm.trans hnew)
  · have hnum := vvNew_number hO hA h₀ h hp
    obtain ⟨info, hinfo, hnew, hplace⟩ := hA.newSlots p hp
      fun hnone => hne (by rw [hnum, hnone, number, if_pos rfl])
    obtain ⟨i, hx, hi⟩ := hA.exists_getElem hinfo
    obtain ⟨info', hinfo', hrecord, htried, -⟩ := exists_entry hO hA h₀ h hx
    have hserv : info'.toCService = info.toCService := congrArg (fun r => r.toCService) hrecord
    refine ⟨info', by rw [hnum, hi, hinfo'], htried.trans hnew, ?_⟩
    rw [hnKey, newPlace_congr hserv, hplace]

theorem reloaded (hkey : A.nKey ≠ 0) : Reloaded hash64 A s := by
  obtain ⟨mapInfo, vvNew, hframe⟩ := h.frame
  have hnKey : s.nKey = A.nKey := by rw [hframe]; exact h₀.nKey
  have hmapAddr : s.mapAddr = s₀.mapAddr := by rw [hframe]
  refine ⟨check_eq_zero_iff.mpr ⟨inOrder hO hA h₀ h, hnKey ▸ hkey⟩,
    ⟨A.number, renumbered hO hA h₀ h⟩, fun a => ?_, hnKey, by rw [hframe]; exact h₀.nNew,
    by rw [hframe]; exact h₀.nTried⟩
  rw [hmapAddr]
  by_cases ha : ∀ x ∈ A.written, x.2.ip ≠ a
  · rw [h₀.leftAddr a ha]
    constructor
    · intro hsome
      obtain ⟨n, hn⟩ := Option.isSome_iff_exists.mp hsome
      exact hO.addresses a n hn
    · rintro ⟨nId, info, hinfo, hip⟩
      exact absurd hip (ha ⟨nId, info⟩ (hA.mem_written.mpr hinfo))
  · push Not at ha
    obtain ⟨x, hx, rfl⟩ := ha
    obtain ⟨i, hi⟩ := List.mem_iff_getElem?.mp hx
    rw [h₀.addr i x hi]
    exact iff_of_true rfl ⟨x.1, x.2, hA.mem_written.mp hx, rfl⟩

end

end Overwritten

/-! ## Over any other target -/

/-- **What is not written over shows**: an entry that was there keeps its references or its flag,
one under another number has no random position, and an address is still found. -/
theorem overwritten_of_reloaded (hA : InOrder hash64 A) (h₀ : Filed A B A.written s₀)
    (h : Indexed A s₀ A.heldPlaces s)
    (hB : ∀ n info, B.mapInfo.lookup n = some info → info.fInTried = true ∨ 0 < info.nRefCount)
    (hreloaded : Reloaded hash64 A s) : Overwritten A B := by
  obtain ⟨mapInfo, vvNew, hframe⟩ := h.frame
  have hmapAddr : s.mapAddr = s₀.mapAddr := by rw [hframe]
  have hrandom : s.vRandom = (List.range A.written.length).map Int.ofNat := by
    rw [hframe]
    exact h₀.random
  obtain ⟨hs, -⟩ := check_eq_zero_iff.mp hreloaded.consistent
  have hlength := hA.length_written
  have hnews := hA.length_newEntries
  refine ⟨fun n info hinfo => ?_, fun a n hn => ?_⟩
  · by_cases hout : ∀ i : Nat, i < A.written.length → n ≠ i
    · -- it has no place in the random order
      have hlook := h.lookup_left h₀ hout
      rw [hinfo, Option.map_some] at hlook
      obtain ⟨i, -, hi⟩ := (hs.entries n _ hlook).placed
      rw [hrandom, List.getElem?_map] at hi
      obtain ⟨j, hj, hjn⟩ := Option.map_eq_some_iff.mp hi
      obtain ⟨hlt, rfl⟩ := List.getElem?_eq_some_iff.mp hj
      rw [List.length_range] at hlt
      rw [List.getElem_range] at hjn
      exact absurd hjn.symm (hout i hlt)
    · push Not at hout
      obtain ⟨i, hi, rfl⟩ := hout
      by_cases hnew : i < A.newEntries.length
      · exfalso
        have hx : A.written[i]? = some A.written[i] := List.getElem?_eq_getElem hi
        have hlook := h.lookup_written h₀ hx
        rw [filed_over hnew hinfo] at hlook
        cases hflag : info.fInTried with
        | true =>
          -- no tried place holds the number of a new entry
          have hslot := hs.tried i _ hlook hflag
          have hp : (more { info.read A.written[i].2.record with nRandomPos := i }
              (s.gained i)).triedPlace hash64 s.nKey ∈ triedPlaces := triedPlace_mem _ _
          have hnum := (Overwritten.vvTried_number hA h₀ h hp).symm.trans hslot
          obtain ⟨info', hinfo', htried, -⟩ := hA.triedSlots _ hp fun hnone => by
            rw [hnone, number, if_pos rfl] at hnum
            omega
          obtain ⟨j, hj, hjnum⟩ := hA.exists_getElem hinfo'
          have hdecide := hA.fInTried_eq hj
          rw [htried] at hdecide
          have hle := of_decide_eq_true hdecide.symm
          omega
        | false =>
          -- its places are not as many as its references
          have hcount : info.nRefCount + s.gained i = s.refs i := hs.refs i _ hlook hflag
          have hmany : s.gained i = s.refs i := if_neg (by omega)
          have hpos := (hB i info hinfo).resolve_left (by simp [hflag])
          omega
      · exact ⟨by omega, by omega⟩
  · by_cases ha : ∀ x ∈ A.written, x.2.ip ≠ a
    · refine (hreloaded.addresses a).mp ?_
      rw [hmapAddr, h₀.leftAddr a ha, hn]
      rfl
    · push Not at ha
      obtain ⟨x, hx, rfl⟩ := ha
      exact ⟨x.1, x.2, hA.mem_written.mp hx, rfl⟩

/-- **What a state that is in order is read back as**, over a target whose entries are tried or have
references. -/
theorem exists_unserialize (hA : InOrder hash64 A) (nRand : Uint256)
    (hB : ∀ n info, B.mapInfo.lookup n = some info → info.fInTried = true ∨ 0 < info.nRefCount) :
    ∃ fields s s₀, serialize A = some fields ∧
      (unserialize hash64 nRand B).run fields = some (s, []) ∧ Filed A B A.written s₀ ∧
      Indexed A s₀ A.heldPlaces s := by
  obtain ⟨s₀, h₀, h⟩ := exists_filed hA nRand B
  refine ⟨_, _, s₀, hA.serialize_eq, ?_, h₀, h⟩
  rw [hA.unserialize_eq hA.serialize_eq,
    exec_prune fun n => Indexed.unreferenced_eq_false hA h₀ h hB]

/-- **The address manager is read back as it was written exactly when all that the target holds is
written over**: where a number in use is not that of a tried entry of the file, or an address is not
one of the file, the target is not consistent or knows too much. -/
theorem reloaded_iff (hash64 : List UInt8 → Nat) (nRand : Uint256) (hA : check_ hash64 A = 0)
    (hB : ∀ n info, B.mapInfo.lookup n = some info → info.fInTried = true ∨ 0 < info.nRefCount) :
    (∃ fields s, serialize A = some fields ∧
      (unserialize hash64 nRand B).run fields = some (s, []) ∧ Reloaded hash64 A s) ↔
      Overwritten A B := by
  obtain ⟨hA, hkey⟩ := check_eq_zero_iff.mp hA
  obtain ⟨fields, s, s₀, hfields, hread, h₀, h⟩ := exists_unserialize hA nRand hB
  constructor
  · rintro ⟨fields', s', hfields', hread', hreloaded⟩
    obtain rfl := Option.some.inj (hfields.symm.trans hfields')
    obtain rfl := congrArg Prod.fst (Option.some.inj (hread.symm.trans hread'))
    exact overwritten_of_reloaded hA h₀ h hB hreloaded
  · intro hO
    exact ⟨fields, s, hfields, hread, hO.reloaded hA h₀ h hkey⟩

theorem overwritten_fresh (A : CAddrMan) (nKey : Uint256) : Overwritten A { nKey } :=
  ⟨fun _ _ hinfo => absurd hinfo (by simp), fun _ _ hn => absurd hn (by simp)⟩

/-- An address that has not been tried, with one place. -/
def peer : CAddrInfo :=
  { CAddrInfo.create { ip := List.replicate 16 0x20, port := 8333 } (List.replicate 16 0x21) with
    nRefCount := 1, nRandomPos := 0 }

def onePeer : CAddrMan where
  nKey := 1
  nIdCount := 1
  mapInfo := AList.insert 0 peer ∅
  mapAddr := AList.insert peer.ip 0 ∅
  vRandom := [0]
  nNew := 1
  vvNew := Function.update (fun _ => -1) (0, 0) 0

theorem lookup_onePeer (hinfo : onePeer.mapInfo.lookup n = some info) : n = 0 ∧ info = peer := by
  rw [onePeer, Table.lookup_insert, AList.lookup_empty] at hinfo
  split at hinfo
  · exact ⟨‹_›, (Option.some.inj hinfo).symm⟩
  · exact nomatch hinfo

theorem check_onePeer : check_ (fun _ => 0) onePeer = 0 := by
  have hmem : (0, 0) ∈ newPlaces := mem_newPlaces.mpr ⟨by decide, by decide⟩
  have hne : (fun _ : Nat × Nat => (-1 : Int)) (0, 0) ≠ 0 := by decide
  have hnone : Slots.occ newPlaces (fun _ => (-1 : Int)) 0 = 0 :=
    Slots.occ_eq_zero.mpr fun _ _ => hne
  have hrefs : onePeer.refs 0 = 1 := by
    rw [refs, onePeer, Slots.occ_update_self nodup_newPlaces hmem hne, hnone]
  refine check_eq_zero_iff.mpr ⟨⟨rfl, fun n info hinfo => ?_, fun n info hinfo => ?_, rfl, rfl,
    fun n info hinfo htried => ?_, fun p _ hne => absurd rfl hne, fun n info hinfo _ => ?_,
    fun p _ hne => ?_⟩, Nat.one_ne_zero⟩
  · obtain ⟨rfl, rfl⟩ := lookup_onePeer hinfo
    exact ⟨fun htried => absurd htried (by decide), fun _ => ⟨le_rfl, by decide⟩, rfl,
      ⟨0, rfl, rfl⟩, le_rfl, le_rfl⟩
  · rw [(lookup_onePeer hinfo).1]
    decide
  · rw [(lookup_onePeer hinfo).2] at htried
    cases htried
  · obtain ⟨rfl, rfl⟩ := lookup_onePeer hinfo
    rw [hrefs]
    rfl
  · by_cases hp : p = (0, 0)
    · subst hp
      exact ⟨peer, rfl, rfl, rfl⟩
    · have hempty : Function.update (fun _ : Nat × Nat => (-1 : Int)) (0, 0) 0 p = -1 := by
        rw [Function.update_of_ne hp]
      exact absurd hempty hne

/-- What is written of one address is read back over a fresh target. -/
theorem reloaded_iff_fresh : ∃ fields s, serialize onePeer = some fields ∧
    (unserialize (fun _ => 0) 5 { nKey := 7 }).run fields = some (s, []) ∧
    Reloaded (fun _ => 0) onePeer s :=
  (reloaded_iff (fun _ => 0) 5 check_onePeer fun _ _ hinfo => absurd hinfo (by simp)).mpr
    (overwritten_fresh onePeer 7)

/-- **What is written of a state without addresses is read back wrong** over one with an address:
the address stays. -/
theorem keeps_what_it_held : check_ (fun _ => 0) { nKey := 1 } = 0 ∧
    check_ (fun _ => 0) onePeer = 0 ∧
    ¬ ∃ fields s, serialize { nKey := 1 } = some fields ∧
      (unserialize (fun _ => 0) 5 onePeer).run fields = some (s, []) ∧
      Reloaded (fun _ => 0) { nKey := 1 } s := by
  have hA : check_ (fun _ => 0) { nKey := 1 } = 0 := check_of_kept (kept_fresh 1)
  have hB (n : Int) (info : CAddrInfo) (hinfo : onePeer.mapInfo.lookup n = some info) :
      info.fInTried = true ∨ 0 < info.nRefCount :=
    Or.inr ((lookup_onePeer hinfo).2 ▸ Int.one_pos)
  refine ⟨hA, check_onePeer, ?_⟩
  rintro ⟨fields', s', hfields', hread', hreloaded⟩
  obtain ⟨hA, -⟩ := check_eq_zero_iff.mp hA
  obtain ⟨fields, s, s₀, hfields, hread, h₀, h⟩ := exists_unserialize hA 5 hB
  obtain rfl := Option.some.inj (hfields.symm.trans hfields')
  obtain rfl := congrArg Prod.fst (Option.some.inj (hread.symm.trans hread'))
  have hids := (overwritten_of_reloaded hA h₀ h hB hreloaded).ids 0 peer rfl
  exact absurd hids.2 (by decide)

end CAddrMan

end BitBlocks
