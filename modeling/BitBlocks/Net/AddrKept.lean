import BitBlocks.Net.AddrMan

/-!
# What the address manager keeps

The state falls into three parts: the directory (numbers, addresses and random
positions are inverse to each other), the tables (every place holds an entry that
belongs there, and reference counts are counts of places) and the statistics. An
operation works on one of them at a time, through a few steps: a swap, a new
number, a number that is dropped, a place that is left or entered.

Between the steps an entry may be in no place at all (`free`), and the number of
new entries may be behind (`loose`).
-/

namespace BitBlocks

open Hoare

namespace CAddrMan

/-- The number of new places that hold an entry. -/
def refs (s : CAddrMan) (nId : Int) : Nat := Slots.occ newPlaces s.vvNew nId

def isTried (info : CAddrInfo) : Nat := if info.fInTried then 1 else 0

def isNew (info : CAddrInfo) : Nat := if info.fInTried then 0 else 1

/-- Numbers, addresses and random positions are inverse to each other. -/
structure Directory (s : CAddrMan) : Prop where
  ids : ∀ nId info, s.mapInfo.lookup nId = some info → 0 ≤ nId ∧ nId < s.nIdCount
  known : ∀ nId info, s.mapInfo.lookup nId = some info → s.mapAddr.lookup info.ip = some nId
  addr : ∀ a nId, s.mapAddr.lookup a = some nId →
    ∃ info, s.mapInfo.lookup nId = some info ∧ info.ip = a
  placed : ∀ nId info, s.mapInfo.lookup nId = some info →
    ∃ i : Nat, info.nRandomPos = i ∧ s.vRandom[i]? = some nId
  random : ∀ (i : Nat) nId, s.vRandom[i]? = some nId →
    ∃ info, s.mapInfo.lookup nId = some info ∧ info.nRandomPos = i
  size : s.vRandom.length = Table.total (fun _ => 1) s.mapInfo
  count : 0 ≤ s.nIdCount

/-- Places and entries belong to each other. -/
structure Tables (hash64 : List UInt8 → Nat) (free : List Int) (loose : Int) (s : CAddrMan) :
    Prop where
  refs : ∀ nId info, s.mapInfo.lookup nId = some info → info.nRefCount = s.refs nId
  untried : ∀ nId info, s.mapInfo.lookup nId = some info → info.fInTried = false →
    info.nRefCount ≤ 8 ∧ (nId ∈ free ∨ 1 ≤ info.nRefCount)
  tried : ∀ nId info, s.mapInfo.lookup nId = some info → info.fInTried = true →
    info.nRefCount = 0 ∧ s.vvTried (info.triedPlace hash64 s.nKey) = nId
  triedSlots : ∀ p ∈ triedPlaces, s.vvTried p ≠ -1 →
    ∃ info, s.mapInfo.lookup (s.vvTried p) = some info ∧ info.fInTried = true ∧
      info.triedPlace hash64 s.nKey = p
  newSlots : ∀ p ∈ newPlaces, s.vvNew p ≠ -1 →
    ∃ info, s.mapInfo.lookup (s.vvNew p) = some info ∧ info.fInTried = false ∧
      info.newPlace hash64 s.nKey p.1 = p
  nTried : (Table.total isTried s.mapInfo : Int) = s.nTried
  nNew : (Table.total isNew s.mapInfo : Int) = s.nNew + loose

/-- The statistics of an entry, after so many calls. -/
structure StatsOk (made : Nat) (info : CAddrInfo) : Prop where
  nLastTry : 0 ≤ info.nLastTry
  nLastSuccess : 0 ≤ info.nLastSuccess
  nAttempts : info.nAttempts ≤ made
  tried : info.fInTried = true → info.nLastSuccess ≠ 0

structure Stats (nKey : Uint256) (made : Nat) (s : CAddrMan) : Prop where
  entries : ∀ nId info, s.mapInfo.lookup nId = some info → StatsOk made info
  count : s.nIdCount ≤ made
  key : s.nKey = nKey

structure Kept (hash64 : List UInt8 → Nat) (nKey : Uint256) (made : Nat) (free : List Int)
    (loose : Int)
    (s : CAddrMan) : Prop where
  directory : Directory s
  tables : Tables hash64 free loose s
  stats : Stats nKey made s

variable {hash64 : List UInt8 → Nat} {nKey : Uint256} {made : Nat} {free : List Int} {loose : Int}
  {s : CAddrMan}
  {nId : Int} {info info' : CAddrInfo}

/-! ## The parts do not depend on each other -/

section Parts

variable {s' : CAddrMan} {loose' : Int}

theorem Directory.of_eq (h : Directory s) (hinfo : s'.mapInfo = s.mapInfo)
    (haddr : s'.mapAddr = s.mapAddr) (hrandom : s'.vRandom = s.vRandom)
    (hcount : s'.nIdCount = s.nIdCount) : Directory s' := by
  obtain ⟨nKey, nIdCount, mapInfo, mapAddr, vRandom, nTried, vvTried, nNew, vvNew⟩ := s'
  obtain rfl : mapInfo = s.mapInfo := hinfo
  obtain rfl : mapAddr = s.mapAddr := haddr
  obtain rfl : vRandom = s.vRandom := hrandom
  obtain rfl : nIdCount = s.nIdCount := hcount
  exact ⟨h.ids, h.known, h.addr, h.placed, h.random, h.size, h.count⟩

theorem Stats.of_eq (h : Stats nKey made s) (hinfo : s'.mapInfo = s.mapInfo)
    (hcount : s'.nIdCount = s.nIdCount) (hkey : s'.nKey = s.nKey) : Stats nKey made s' := by
  refine ⟨?_, ?_, hkey.trans h.key⟩
  · rw [hinfo]
    exact h.entries
  · rw [hcount]
    exact h.count

theorem Tables.of_eq (h : Tables hash64 free loose s) (hinfo : s'.mapInfo = s.mapInfo)
    (hkey : s'.nKey = s.nKey) (hvvTried : s'.vvTried = s.vvTried) (hvvNew : s'.vvNew = s.vvNew)
    (hnTried : s'.nTried = s.nTried) (hnNew : s'.nNew + loose' = s.nNew + loose) :
      Tables hash64 free loose' s' := by
  obtain ⟨nKey, nIdCount, mapInfo, mapAddr, vRandom, nTried, vvTried, nNew, vvNew⟩ := s'
  obtain rfl : mapInfo = s.mapInfo := hinfo
  obtain rfl : nKey = s.nKey := hkey
  obtain rfl : vvTried = s.vvTried := hvvTried
  obtain rfl : vvNew = s.vvNew := hvvNew
  obtain rfl : nTried = s.nTried := hnTried
  exact ⟨h.refs, h.untried, h.tried, h.triedSlots, h.newSlots, h.nTried, h.nNew.trans hnNew.symm⟩

end Parts

/-! ## Places -/

variable {p : Nat × Nat}

theorem mem_newPlaces : p ∈ newPlaces ↔
    p.1 < ADDRMAN_NEW_BUCKET_COUNT ∧ p.2 < ADDRMAN_BUCKET_SIZE := by
  obtain ⟨bucket, pos⟩ := p
  rw [newPlaces, List.pair_mem_product, List.mem_range, List.mem_range]

theorem mem_triedPlaces : p ∈ triedPlaces ↔
    p.1 < ADDRMAN_TRIED_BUCKET_COUNT ∧ p.2 < ADDRMAN_BUCKET_SIZE := by
  obtain ⟨bucket, pos⟩ := p
  rw [triedPlaces, List.pair_mem_product, List.mem_range, List.mem_range]

theorem nodup_newPlaces : newPlaces.Nodup := List.nodup_range.product List.nodup_range

theorem nodup_triedPlaces : triedPlaces.Nodup := List.nodup_range.product List.nodup_range

theorem newPlace_mem (info : CAddrInfo) (nKey : Uint256) {bucket : Nat}
    (h : bucket < ADDRMAN_NEW_BUCKET_COUNT) :
    info.newPlace hash64 nKey bucket ∈ newPlaces :=
  mem_newPlaces.mpr ⟨h, Nat.mod_lt _ (by decide)⟩

theorem getNewBucket_lt (info : CAddrInfo) (nKey : Uint256) (src : CNetAddr) :
    info.getNewBucket hash64 nKey src < ADDRMAN_NEW_BUCKET_COUNT := Nat.mod_lt _ (by decide)

theorem triedPlace_mem (info : CAddrInfo) (nKey : Uint256) :
    info.triedPlace hash64 nKey ∈ triedPlaces :=
  mem_triedPlaces.mpr ⟨Nat.mod_lt _ (by decide), Nat.mod_lt _ (by decide)⟩

theorem triedPlace_congr (h : info'.toCService = info.toCService) (nKey : Uint256) :
    info'.triedPlace hash64 nKey = info.triedPlace hash64 nKey := by
  unfold CAddrInfo.triedPlace CAddrInfo.getBucketPosition CAddrInfo.getTriedBucket
  rw [h]

theorem newPlace_congr (h : info'.toCService = info.toCService) (nKey : Uint256) (bucket : Nat) :
    info'.newPlace hash64 nKey bucket = info.newPlace hash64 nKey bucket := by
  unfold CAddrInfo.newPlace CAddrInfo.getBucketPosition
  rw [h]

theorem Tables.ne_of_no_refs (h : Tables hash64 free loose s)
    (hlook : s.mapInfo.lookup nId = some info) (hzero : info.nRefCount = 0) (hp : p ∈ newPlaces) :
    s.vvNew p ≠ nId := by
  have hrefs := h.refs nId info hlook
  have hocc : Slots.occ newPlaces s.vvNew nId = 0 := by
    have : s.refs nId = 0 := by omega
    exact this
  exact Slots.occ_eq_zero.mp hocc p hp

/-! ## An entry is written over -/

/-- The map with an entry written over. -/
def withInfo (s : CAddrMan) (nId : Int) (info : CAddrInfo) : CAddrMan :=
  { s with mapInfo := s.mapInfo.insert nId info }

theorem lookup_withInfo (s : CAddrMan) (nId : Int) (info : CAddrInfo) (x : Int) :
    (s.withInfo nId info).mapInfo.lookup x = if x = nId then some info else s.mapInfo.lookup x :=
  Table.lookup_insert _ _ _ _

theorem lookup_withInfo_ne {x : Int} {j : CAddrInfo} (hne : x ≠ nId)
    (hx : s.mapInfo.lookup x = some j) : (s.withInfo nId info).mapInfo.lookup x = some j := by
  rw [lookup_withInfo, if_neg hne, hx]

theorem Directory.write (h : Directory s) (hlook : s.mapInfo.lookup nId = some info)
    (info' : CAddrInfo) (hip : info'.ip = info.ip) (hpos : info'.nRandomPos = info.nRandomPos) :
    Directory (s.withInfo nId info') := by
  -- every entry of the map afterwards has one before it, with the same address and position
  have hback : ∀ x i, (s.withInfo nId info').mapInfo.lookup x = some i →
      ∃ j, s.mapInfo.lookup x = some j ∧ i.ip = j.ip ∧ i.nRandomPos = j.nRandomPos := by
    intro x i hx
    rcases Table.of_lookup_insert hx with ⟨hxn, rfl⟩ | ⟨-, hx⟩
    · exact ⟨info, hxn ▸ hlook, hip, hpos⟩
    · exact ⟨i, hx, rfl, rfl⟩
  have hforth : ∀ x j, s.mapInfo.lookup x = some j →
      ∃ i, (s.withInfo nId info').mapInfo.lookup x = some i ∧ i.ip = j.ip ∧
        i.nRandomPos = j.nRandomPos := by
    intro x j hx
    rw [lookup_withInfo]
    split
    · rename_i hxn
      rw [hxn, hlook] at hx
      obtain rfl := Option.some.inj hx
      exact ⟨info', rfl, hip, hpos⟩
    · exact ⟨j, hx, rfl, rfl⟩
  refine ⟨fun x i hx => ?_, fun x i hx => ?_, fun a x hx => ?_, fun x i hx => ?_,
    fun k x hx => ?_, ?_, h.count⟩
  · obtain ⟨j, hj, -, -⟩ := hback x i hx
    exact h.ids x j hj
  · obtain ⟨j, hj, hipj, -⟩ := hback x i hx
    rw [hipj]
    exact h.known x j hj
  · obtain ⟨j, hj, hipj⟩ := h.addr a x hx
    obtain ⟨i, hi, hii, -⟩ := hforth x j hj
    exact ⟨i, hi, hii.trans hipj⟩
  · obtain ⟨j, hj, -, hposj⟩ := hback x i hx
    obtain ⟨k, hk, hvk⟩ := h.placed x j hj
    exact ⟨k, hposj.trans hk, hvk⟩
  · obtain ⟨j, hj, hposj⟩ := h.random k x hx
    obtain ⟨i, hi, -, hposi⟩ := hforth x j hj
    exact ⟨i, hi, hposi.trans hposj⟩
  · have hsize := Table.total_write (fun _ => 1) hlook info'
    exact h.size.trans (Nat.add_right_cancel hsize).symm

theorem StatsOk.of_eq (h : StatsOk made info) (htry : info'.nLastTry = info.nLastTry)
    (hsuccess : info'.nLastSuccess = info.nLastSuccess)
    (hattempts : info'.nAttempts = info.nAttempts)
    (htried : info'.fInTried = info.fInTried) : StatsOk made info' := by
  refine ⟨?_, ?_, ?_, fun hi => ?_⟩
  · rw [htry]
    exact h.nLastTry
  · rw [hsuccess]
    exact h.nLastSuccess
  · rw [hattempts]
    exact h.nAttempts
  · rw [hsuccess]
    exact h.tried (htried ▸ hi)

theorem Stats.write (h : Stats nKey made s) (nId : Int) (info' : CAddrInfo)
    (hok : StatsOk made info') :
    Stats nKey made (s.withInfo nId info') := by
  refine ⟨fun x i hx => ?_, h.count, h.key⟩
  rcases Table.of_lookup_insert hx with ⟨-, rfl⟩ | ⟨-, hx⟩
  · exact hok
  · exact h.entries x i hx

theorem exists_withInfo (hlook : s.mapInfo.lookup nId = some info)
    (hserv : info'.toCService = info.toCService) (htried : info'.fInTried = info.fInTried) {x : Int}
    {j : CAddrInfo} (hx : s.mapInfo.lookup x = some j) :
    ∃ i, (s.withInfo nId info').mapInfo.lookup x = some i ∧ i.toCService = j.toCService ∧
      i.fInTried = j.fInTried := by
  rw [lookup_withInfo]
  split
  · rename_i hxn
    rw [hxn, hlook] at hx
    obtain rfl := Option.some.inj hx
    exact ⟨info', rfl, hserv, htried⟩
  · exact ⟨j, hx, rfl, rfl⟩

theorem total_withInfo (w : CAddrInfo → Nat) (hlook : s.mapInfo.lookup nId = some info)
    (info' : CAddrInfo) (hw : w info' = w info) :
    Table.total w (s.withInfo nId info').mapInfo = Table.total w s.mapInfo := by
  have htotal := Table.total_write w hlook info'
  rw [hw] at htotal
  exact Nat.add_right_cancel htotal

/-- **An entry changes its count, and with it the places that hold it.** -/
theorem Tables.rewrite (h : Tables hash64 free loose s) (hlook : s.mapInfo.lookup nId = some info)
    (info' : CAddrInfo) (hserv : info'.toCService = info.toCService)
    (htried : info'.fInTried = info.fInTried)
    (hcount : info.fInTried = true → info'.nRefCount = info.nRefCount) {vvNew : Buckets}
    (hself : info'.nRefCount = Slots.occ newPlaces vvNew nId)
    (hother : ∀ x i, x ≠ nId → s.mapInfo.lookup x = some i → Slots.occ newPlaces vvNew x = s.refs x)
    (hslots : ∀ p ∈ newPlaces, vvNew p = -1 ∨ vvNew p = s.vvNew p ∨
      (vvNew p = nId ∧ info.fInTried = false ∧ info.newPlace hash64 s.nKey p.1 = p))
    {free' : List Int} (hfree : ∀ x ∈ free, x ≠ nId → x ∈ free')
    (hnew : info.fInTried = false → info'.nRefCount ≤ 8 ∧ (nId ∈ free' ∨ 1 ≤ info'.nRefCount)) :
    Tables hash64 free' loose { s.withInfo nId info' with vvNew } := by
  refine ⟨fun x i hx => ?_, fun x i hx hi => ?_, fun x i hx hi => ?_, fun p hp hne => ?_,
    fun p hp hne => ?_, ?_, ?_⟩
  · rcases Table.of_lookup_insert hx with ⟨hxn, rfl⟩ | ⟨hxn, hx'⟩
    · rw [hxn]
      exact hself
    · exact (h.refs x i hx').trans (congrArg _ (hother x i hxn hx').symm)
  · rcases Table.of_lookup_insert hx with ⟨hxn, rfl⟩ | ⟨hxn, hx'⟩
    · rw [hxn]
      exact hnew (htried ▸ hi)
    · obtain ⟨hle, hpos⟩ := h.untried x i hx' hi
      exact ⟨hle, hpos.imp_left fun hmem => hfree x hmem hxn⟩
  · rcases Table.of_lookup_insert hx with ⟨hxn, rfl⟩ | ⟨-, hx'⟩
    · have hi' : info.fInTried = true := htried ▸ hi
      obtain ⟨hzero, hplace⟩ := h.tried nId info hlook hi'
      rw [hxn, hcount hi', triedPlace_congr hserv]
      exact ⟨hzero, hplace⟩
    · exact h.tried x i hx' hi
  · obtain ⟨j, hj, hi, hplace⟩ := h.triedSlots p hp hne
    obtain ⟨i, hx, hs, ht⟩ := exists_withInfo hlook hserv htried hj
    exact ⟨i, hx, ht.trans hi, (triedPlace_congr hs _).trans hplace⟩
  · rcases hslots p hp with hnone | hsame | ⟨hentered, hi, hplace⟩
    · exact absurd hnone hne
    · obtain ⟨j, hj, hi, hplace⟩ := h.newSlots p hp (hsame ▸ hne)
      obtain ⟨i, hx, hs, ht⟩ := exists_withInfo hlook hserv htried hj
      rw [← hsame] at hx
      exact ⟨i, hx, ht.trans hi, (newPlace_congr hs _ _).trans hplace⟩
    · obtain ⟨i, hx, hs, ht⟩ := exists_withInfo hlook hserv htried hlook
      refine ⟨i, ?_, ht.trans hi, (newPlace_congr hs _ _).trans hplace⟩
      exact (congrArg (fun x => (s.withInfo nId info').mapInfo.lookup x) hentered).trans hx
  · have hw : isTried info' = isTried info := by rw [isTried, isTried, htried]
    exact (congrArg _ (total_withInfo _ hlook info' hw)).trans h.nTried
  · have hw : isNew info' = isNew info := by rw [isNew, isNew, htried]
    exact (congrArg _ (total_withInfo _ hlook info' hw)).trans h.nNew

theorem Tables.write (h : Tables hash64 free loose s) (hlook : s.mapInfo.lookup nId = some info)
    (info' : CAddrInfo) (hserv : info'.toCService = info.toCService)
    (hrefs : info'.nRefCount = info.nRefCount)
    (htried : info'.fInTried = info.fInTried) : Tables hash64 free loose (s.withInfo nId info') :=
  h.rewrite hlook info' hserv htried (fun _ => hrefs) (hrefs.trans (h.refs nId info hlook))
    (fun _ _ _ _ => rfl) (fun _ _ => Or.inr (Or.inl rfl)) (fun _ hx _ => hx)
    fun hnew => hrefs ▸ h.untried nId info hlook hnew

theorem Tables.info_of_slot (h : Tables hash64 free loose s) (hp : p ∈ newPlaces)
    (hne : s.vvNew p ≠ -1) (hlook : s.mapInfo.lookup (s.vvNew p) = some info) :
    info.fInTried = false ∧ info.newPlace hash64 s.nKey p.1 = p := by
  obtain ⟨j, hj, hi, hplace⟩ := h.newSlots p hp hne
  obtain rfl := Option.some.inj (hj.symm.trans hlook)
  exact ⟨hi, hplace⟩

/-- **A place is left**: its entry has one reference less, and may have none. -/
theorem Tables.leave (h : Tables hash64 free loose s) (hd : Directory s) (hp : p ∈ newPlaces)
    (hplace : s.vvNew p = nId) (hlook : s.mapInfo.lookup nId = some info) (free' : List Int)
    (hfree : ∀ x ∈ free, x ≠ nId → x ∈ free') (hleft : nId ∈ free' ∨ 1 ≤ info.nRefCount - 1) :
    Tables hash64 free' loose { s.withInfo nId { info with nRefCount := info.nRefCount - 1 }
      with vvNew := Function.update s.vvNew p (-1) } := by
  have hid := (hd.ids nId info hlook).1
  have hrefs := h.refs nId info hlook
  obtain ⟨hnew, -⟩ := h.info_of_slot hp (by omega) (hplace ▸ hlook)
  have hocc := Slots.occ_update nodup_newPlaces (f := s.vvNew) hp (-1)
  refine h.rewrite hlook { info with nRefCount := info.nRefCount - 1 } rfl rfl
    (fun htried => absurd htried (by simp [hnew])) ?_ ?_ ?_ hfree fun _ => ?_
  · have hself := hocc nId
    rw [if_pos hplace, if_neg (by omega)] at hself
    have hrefs' : info.nRefCount = (Slots.occ newPlaces s.vvNew nId : Nat) := hrefs
    have hless : info.nRefCount - 1 =
        (Slots.occ newPlaces (Function.update s.vvNew p (-1)) nId : Nat) := by omega
    exact hless
  · intro x i hx hxi
    have hxid := (hd.ids x i hxi).1
    exact Slots.occ_update_of_ne nodup_newPlaces hp (hplace ▸ Ne.symm hx) (by omega)
  · intro q hq
    by_cases hqp : q = p
    · exact Or.inl (hqp ▸ Function.update_self _ _ _)
    · exact Or.inr (Or.inl (Function.update_of_ne hqp _ _))
  · obtain ⟨hle, -⟩ := h.untried nId info hlook hnew
    have hless : info.nRefCount - 1 ≤ 8 := by omega
    exact ⟨hless, hleft⟩

/-- **A place is entered**, by an entry that belongs there. -/
theorem Tables.enter (h : Tables hash64 free loose s) (hd : Directory s) (hp : p ∈ newPlaces)
    (hempty : s.vvNew p = -1) (hlook : s.mapInfo.lookup nId = some info)
    (hnew : info.fInTried = false) (hplace : info.newPlace hash64 s.nKey p.1 = p)
    (hcount : info.nRefCount < 8) (free' : List Int) (hfree : ∀ x ∈ free, x ≠ nId → x ∈ free') :
    Tables hash64 free' loose { s.withInfo nId { info with nRefCount := info.nRefCount + 1 }
      with vvNew := Function.update s.vvNew p nId } := by
  have hid := (hd.ids nId info hlook).1
  have hrefs := h.refs nId info hlook
  have hrefs' : info.nRefCount = (Slots.occ newPlaces s.vvNew nId : Nat) := hrefs
  refine h.rewrite hlook { info with nRefCount := info.nRefCount + 1 } rfl rfl
    (fun htried => absurd htried (by simp [hnew])) ?_ ?_ ?_ hfree
    fun _ => ?_
  · have hself := Slots.occ_update_self nodup_newPlaces (f := s.vvNew) hp (v := nId) (by omega)
    have hmore : info.nRefCount + 1 =
        (Slots.occ newPlaces (Function.update s.vvNew p nId) nId : Nat) := by omega
    exact hmore
  · intro x i hx hxi
    have hxid := (hd.ids x i hxi).1
    exact Slots.occ_update_of_ne nodup_newPlaces hp (by omega) (Ne.symm hx)
  · intro q hq
    by_cases hqp : q = p
    · exact Or.inr (Or.inr ⟨hqp ▸ Function.update_self _ _ _, hnew, hqp ▸ hplace⟩)
    · exact Or.inr (Or.inl (Function.update_of_ne hqp _ _))
  · have hpos : 0 ≤ info.nRefCount := by omega
    exact ⟨Int.add_one_le_of_lt hcount, Or.inr (Int.le_add_of_nonneg_left hpos)⟩

theorem Tables.newSlot_ne (h : Tables hash64 free loose s)
    (hlook : ∀ i, s.mapInfo.lookup nId = some i → i.fInTried = true ∨ i.nRefCount = 0)
    (hid : nId ≠ -1) (hp : p ∈ newPlaces) : s.vvNew p ≠ nId := by
  intro hslot
  obtain ⟨i, hi, hnew, -⟩ := h.newSlots p hp (hslot ▸ hid)
  rw [hslot] at hi
  rcases hlook i hi with htried | hzero
  · exact absurd hnew (by simp [htried])
  · exact h.ne_of_no_refs hi hzero hp hslot

theorem Tables.insert (h : Tables hash64 free loose s)
    (hlook : s.mapInfo.lookup nId = none) (hid : nId ≠ -1) (hnew : info.fInTried = false)
    (hzero : info.nRefCount = 0) :
    Tables hash64 (nId :: free) (loose + 1) (s.withInfo nId info) := by
  have hslot : ∀ p ∈ newPlaces, s.vvNew p ≠ nId := fun p hp =>
    h.newSlot_ne (fun i hi => absurd (hlook.symm.trans hi) (by simp)) hid hp
  have hold : ∀ x j, s.mapInfo.lookup x = some j →
      (s.withInfo nId info).mapInfo.lookup x = some j := by
    intro x j hx
    have hne : x ≠ nId := fun hxn => absurd (hlook.symm.trans (hxn ▸ hx)) (by simp)
    rw [lookup_withInfo, if_neg hne, hx]
  refine ⟨fun x i hx => ?_, fun x i hx hi => ?_, fun x i hx hi => ?_, fun p hp hne => ?_,
    fun p hp hne => ?_, ?_, ?_⟩
  · rcases Table.of_lookup_insert hx with ⟨hxn, rfl⟩ | ⟨-, hx⟩
    · have hocc : Slots.occ newPlaces s.vvNew nId = 0 := Slots.occ_eq_zero.mpr hslot
      have hrefs : (s.withInfo nId info).refs x = 0 := by rw [hxn]; exact hocc
      rw [hrefs, hzero]
      rfl
    · exact h.refs x i hx
  · rcases Table.of_lookup_insert hx with ⟨hxn, rfl⟩ | ⟨-, hx⟩
    · exact ⟨by omega, Or.inl (hxn ▸ List.mem_cons_self)⟩
    · obtain ⟨hle, hpos⟩ := h.untried x i hx hi
      exact ⟨hle, hpos.imp_left (List.mem_cons_of_mem nId)⟩
  · rcases Table.of_lookup_insert hx with ⟨-, rfl⟩ | ⟨-, hx⟩
    · exact absurd hi (by simp [hnew])
    · exact h.tried x i hx hi
  · obtain ⟨j, hj, hi, hplace⟩ := h.triedSlots p hp hne
    exact ⟨j, hold _ j hj, hi, hplace⟩
  · obtain ⟨j, hj, hi, hplace⟩ := h.newSlots p hp hne
    exact ⟨j, hold _ j hj, hi, hplace⟩
  · have htotal := Table.total_insert_of_new isTried hlook info
    have hw : isTried info = 0 := by rw [isTried, hnew]; rfl
    rw [hw, Nat.zero_add] at htotal
    exact (congrArg _ htotal).trans h.nTried
  · have htotal := Table.total_insert_of_new isNew hlook info
    have hw : isNew info = 1 := by rw [isNew, hnew]; rfl
    have hn := h.nNew
    have hgoal : (Table.total isNew (s.mapInfo.insert nId info) : Int) = s.nNew + (loose + 1) := by
      omega
    exact hgoal

theorem Tables.remove (h : Tables hash64 free loose s)
    (hlook : s.mapInfo.lookup nId = some info) (hnew : info.fInTried = false)
    (hzero : info.nRefCount = 0) (free' : List Int) (hfree : ∀ x ∈ free, x ≠ nId → x ∈ free') :
    Tables hash64 free' loose { s with mapInfo := s.mapInfo.erase nId, nNew := s.nNew - 1 } := by
  have hold : ∀ x i, (s.mapInfo.erase nId).lookup x = some i → s.mapInfo.lookup x = some i :=
    fun x i hx => (Table.erase_eq_some.mp hx).1
  have hkeep : ∀ x j, x ≠ nId → s.mapInfo.lookup x = some j →
      (s.mapInfo.erase nId).lookup x = some j :=
    fun x j hne hx => Table.erase_eq_some.mpr ⟨hx, hne⟩
  refine ⟨fun x i hx => h.refs x i (hold x i hx), fun x i hx hi => ?_,
    fun x i hx => h.tried x i (hold x i hx), fun p hp hne => ?_, fun p hp hne => ?_, ?_, ?_⟩
  · obtain ⟨hx, hne⟩ := Table.erase_eq_some.mp hx
    obtain ⟨hle, hpos⟩ := h.untried x i hx hi
    exact ⟨hle, hpos.imp_left fun hmem => hfree x hmem hne⟩
  · obtain ⟨j, hj, hi, hplace⟩ := h.triedSlots p hp hne
    refine ⟨j, hkeep _ j (fun heq => ?_) hj, hi, hplace⟩
    rw [heq] at hj
    obtain rfl := Option.some.inj (hj.symm.trans hlook)
    exact absurd hi (by simp [hnew])
  · obtain ⟨j, hj, hi, hplace⟩ := h.newSlots p hp hne
    exact ⟨j, hkeep _ j (h.ne_of_no_refs hlook hzero hp) hj, hi, hplace⟩
  · have htotal := Table.total_erase isTried hlook
    have hw : isTried info = 0 := by rw [isTried, hnew]; rfl
    rw [hw, Nat.zero_add] at htotal
    exact (congrArg _ htotal.symm).trans h.nTried
  · have htotal := Table.total_erase isNew hlook
    have hw : isNew info = 1 := by rw [isNew, hnew]; rfl
    have hn := h.nNew
    have hgoal : (Table.total isNew (s.mapInfo.erase nId) : Int) = s.nNew - 1 + loose := by omega
    exact hgoal

/-- **A tried entry leaves its place**, and has none then. -/
theorem Tables.untry (h : Tables hash64 free loose s) (hd : Directory s) (hp : p ∈ triedPlaces)
    (hplace : s.vvTried p = nId) (hlook : s.mapInfo.lookup nId = some info) :
    Tables hash64 (nId :: free) (loose + 1) { s.withInfo nId { info with fInTried := false } with
      vvTried := Function.update s.vvTried p (-1)
      nTried := s.nTried - 1 } := by
  have hid := (hd.ids nId info hlook).1
  obtain ⟨htried, hp'⟩ : info.fInTried = true ∧ info.triedPlace hash64 s.nKey = p := by
    obtain ⟨j, hj, hi, hpj⟩ := h.triedSlots p hp (by omega)
    rw [hplace] at hj
    obtain rfl := Option.some.inj (hj.symm.trans hlook)
    exact ⟨hi, hpj⟩
  obtain ⟨hzero, -⟩ := h.tried nId info hlook htried
  refine ⟨fun x i hx => ?_, fun x i hx hi => ?_, fun x i hx hi => ?_, fun q hq hne => ?_,
    fun q hq hne => ?_, ?_, ?_⟩
  · rcases Table.of_lookup_insert hx with ⟨hxn, rfl⟩ | ⟨-, hx'⟩
    · rw [hxn]
      exact h.refs nId info hlook
    · exact h.refs x i hx'
  · rcases Table.of_lookup_insert hx with ⟨hxn, rfl⟩ | ⟨-, hx'⟩
    · have hle : info.nRefCount ≤ 8 := by omega
      exact ⟨hle, Or.inl (hxn ▸ List.mem_cons_self)⟩
    · obtain ⟨hle, hpos⟩ := h.untried x i hx' hi
      exact ⟨hle, hpos.imp_left (List.mem_cons_of_mem nId)⟩
  · rcases Table.of_lookup_insert hx with ⟨-, rfl⟩ | ⟨hxn, hx'⟩
    · exact absurd hi (by simp)
    · obtain ⟨hz, hpx⟩ := h.tried x i hx' hi
      have hne : i.triedPlace hash64 s.nKey ≠ p := by
        intro heq
        rw [heq, hplace] at hpx
        exact hxn hpx.symm
      exact ⟨hz, (Function.update_of_ne hne _ _).trans hpx⟩
  · have hqp : q ≠ p := fun heq => hne (heq ▸ Function.update_self _ _ _)
    have hsame : Function.update s.vvTried p (-1) q = s.vvTried q := Function.update_of_ne hqp _ _
    obtain ⟨j, hj, hi, hpj⟩ := h.triedSlots q hq (hsame ▸ hne)
    have hother : s.vvTried q ≠ nId := by
      intro heq
      rw [heq] at hj
      obtain rfl := Option.some.inj (hj.symm.trans hlook)
      exact hqp (hpj.symm.trans hp')
    have hslot : (s.withInfo nId { info with fInTried := false }).mapInfo.lookup
        (Function.update s.vvTried p (-1) q) = some j := by
      rw [hsame]
      exact lookup_withInfo_ne hother hj
    exact ⟨j, hslot, hi, hpj⟩
  · obtain ⟨j, hj, hi, hpj⟩ := h.newSlots q hq hne
    exact ⟨j, lookup_withInfo_ne (h.ne_of_no_refs hlook hzero hq) hj, hi, hpj⟩
  · have htotal := Table.total_write isTried hlook { info with fInTried := false }
    have hw : isTried info = 1 := by rw [isTried, htried]; rfl
    have hw' : isTried { info with fInTried := false } = 0 := rfl
    have hn := h.nTried
    have hgoal :
        (Table.total isTried (s.mapInfo.insert nId { info with fInTried := false }) : Int) =
        s.nTried - 1 := by omega
    exact hgoal
  · have htotal := Table.total_write isNew hlook { info with fInTried := false }
    have hw : isNew info = 0 := by rw [isNew, htried]; rfl
    have hw' : isNew { info with fInTried := false } = 1 := rfl
    have hn := h.nNew
    have hgoal : (Table.total isNew (s.mapInfo.insert nId { info with fInTried := false }) : Int) =
        s.nNew + (loose + 1) := by omega
    exact hgoal

/-- **An entry without a place becomes a tried one**, at its place. -/
theorem Tables.enterTried (h : Tables hash64 free loose s) (hd : Directory s)
    (hp : info.triedPlace hash64 s.nKey = p) (hempty : s.vvTried p = -1)
    (hlook : s.mapInfo.lookup nId = some info) (hnew : info.fInTried = false)
    (hzero : info.nRefCount = 0) (free' : List Int) (hfree : ∀ x ∈ free, x ≠ nId → x ∈ free') :
    Tables hash64 free' (loose - 1) { s.withInfo nId { info with fInTried := true } with
      vvTried := Function.update s.vvTried p nId
      nTried := s.nTried + 1 } := by
  refine ⟨fun x i hx => ?_, fun x i hx hi => ?_, fun x i hx hi => ?_, fun q hq hne => ?_,
    fun q hq hne => ?_, ?_, ?_⟩
  · rcases Table.of_lookup_insert hx with ⟨hxn, rfl⟩ | ⟨-, hx'⟩
    · rw [hxn]
      exact h.refs nId info hlook
    · exact h.refs x i hx'
  · rcases Table.of_lookup_insert hx with ⟨-, rfl⟩ | ⟨hxn, hx'⟩
    · exact absurd hi (by simp)
    · obtain ⟨hle, hpos⟩ := h.untried x i hx' hi
      exact ⟨hle, hpos.imp_left fun hmem => hfree x hmem hxn⟩
  · rcases Table.of_lookup_insert hx with ⟨hxn, rfl⟩ | ⟨hxn, hx'⟩
    · refine ⟨hzero, ?_⟩
      have hplace : ({ info with fInTried := true } : CAddrInfo).triedPlace hash64 s.nKey = p := hp
      exact (congrArg _ hplace).trans ((Function.update_self _ _ _).trans hxn.symm)
    · obtain ⟨hz, hpx⟩ := h.tried x i hx' hi
      have hne : i.triedPlace hash64 s.nKey ≠ p := by
        intro heq
        rw [heq, hempty] at hpx
        have hidx := (hd.ids x i hx').1
        omega
      exact ⟨hz, (Function.update_of_ne hne _ _).trans hpx⟩
  · by_cases hqp : q = p
    · have hslot : (s.withInfo nId { info with fInTried := true }).mapInfo.lookup
          (Function.update s.vvTried p nId q) = some { info with fInTried := true } := by
        rw [hqp, Function.update_self, lookup_withInfo, if_pos rfl]
      exact ⟨_, hslot, rfl, hp.trans hqp.symm⟩
    · have hsame : Function.update s.vvTried p nId q = s.vvTried q := Function.update_of_ne hqp _ _
      obtain ⟨j, hj, hi, hpj⟩ := h.triedSlots q hq (hsame ▸ hne)
      have hother : s.vvTried q ≠ nId := by
        intro heq
        rw [heq] at hj
        obtain rfl := Option.some.inj (hj.symm.trans hlook)
        exact absurd hi (by simp [hnew])
      have hslot : (s.withInfo nId { info with fInTried := true }).mapInfo.lookup
          (Function.update s.vvTried p nId q) = some j := by
        rw [hsame]
        exact lookup_withInfo_ne hother hj
      exact ⟨j, hslot, hi, hpj⟩
  · obtain ⟨j, hj, hi, hpj⟩ := h.newSlots q hq hne
    exact ⟨j, lookup_withInfo_ne (h.ne_of_no_refs hlook hzero hq) hj, hi, hpj⟩
  · have htotal := Table.total_write isTried hlook { info with fInTried := true }
    have hw : isTried info = 0 := by rw [isTried, hnew]; rfl
    have hw' : isTried { info with fInTried := true } = 1 := rfl
    have hn := h.nTried
    have hgoal : (Table.total isTried (s.mapInfo.insert nId { info with fInTried := true }) : Int) =
        s.nTried + 1 := by omega
    exact hgoal
  · have htotal := Table.total_write isNew hlook { info with fInTried := true }
    have hw : isNew info = 1 := by rw [isNew, hnew]; rfl
    have hw' : isNew { info with fInTried := true } = 0 := rfl
    have hn := h.nNew
    have hgoal : (Table.total isNew (s.mapInfo.insert nId { info with fInTried := true }) : Int) =
        s.nNew + (loose - 1) := by omega
    exact hgoal

end CAddrMan

end BitBlocks
