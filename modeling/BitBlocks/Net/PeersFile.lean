import BitBlocks.Net.AddrCheck

/-!
# The file of known peers (`addrman.h`)

The address manager is written as its new entries, its tried entries and, bucket by
bucket, the indexes of the new entries in it. Numbers are given out anew: the new
entries come first, in the order of their old numbers. The tried places, the map of
the addresses and the random order are not written, they are made again as the file
is read.

The stream is one of fields, not of bytes. `nVersion` of a `CAddress` is written
before its time and read over the parameter, which is not looked at again.
-/

namespace BitBlocks

/-- What is written of a `CAddrInfo`. -/
structure AddrRecord extends CService where
  nTime : Nat
  nServices : Nat
  source : CNetAddr
  nLastSuccess : Int
  nAttempts : Int
deriving DecidableEq, Repr

namespace CAddrInfo

def record (info : CAddrInfo) : AddrRecord :=
  { toCService := info.toCService
    nTime := info.nTime
    nServices := info.nServices
    source := info.source
    nLastSuccess := info.nLastSuccess
    nAttempts := info.nAttempts }

/-- `s >> info`. The `CAddress` is initialised first, what is in memory only of the `CAddrInfo`
stays as it is. -/
def read (info : CAddrInfo) (r : AddrRecord) : CAddrInfo :=
  { info with
    toCAddress :=
      { toCService := r.toCService, nServices := r.nServices, nTime := r.nTime, nLastTry := 0 }
    source := r.source
    nLastSuccess := r.nLastSuccess
    nAttempts := r.nAttempts }

end CAddrInfo

inductive PeersField where
  | uchar (ch : UInt8)
  | hash (hash : Uint256)
  | int (n : Int)
  | info (r : AddrRecord)
deriving DecidableEq, Repr

/-- `^`, of two `int`s. -/
def xorInt (m n : Int) : Int := (BitVec.ofInt 32 m ^^^ BitVec.ofInt 32 n).toInt

namespace CAddrMan

/-! ## Writing -/

/-- One round of the loop over the new entries: what is written so far, the index of every entry
(of the others too, it is the next one that is given out), and how many there are. -/
def writeNew (s : CAddrMan) (acc : List PeersField × (AList fun _ : Int => Int) × Int)
    (x : Sigma fun _ : Int => CAddrInfo) :
    Option (List PeersField × (AList fun _ : Int => Int) × Int) :=
  let (fields, mapUnkIds, nIds) := acc
  let mapUnkIds := mapUnkIds.insert x.1 nIds
  if x.2.nRefCount ≠ 0 then
    -- this means nNew was wrong, oh ow
    if nIds = s.nNew then none
    else some (fields ++ [.info x.2.record], mapUnkIds, nIds + 1)
  else some (fields, mapUnkIds, nIds)

/-- One round of the loop over the tried entries. -/
def writeTried (s : CAddrMan) (acc : List PeersField × Int) (x : Sigma fun _ : Int => CAddrInfo) :
    Option (List PeersField × Int) :=
  let (fields, nIds) := acc
  if x.2.fInTried then
    -- this means nTried was wrong, oh ow
    if nIds = s.nTried then none
    else some (fields ++ [.info x.2.record], nIds + 1)
  else some (fields, nIds)

def bucketIds (s : CAddrMan) (bucket : Nat) : List Int :=
  ((List.range ADDRMAN_BUCKET_SIZE).map fun i => s.vvNew (bucket, i)).filter fun nId => nId ≠ -1

/-- A bucket: its size, and the indexes. -/
def writeBucket (s : CAddrMan) (mapUnkIds : AList fun _ : Int => Int) (bucket : Nat) :
    List PeersField :=
  .int (s.bucketIds bucket).length ::
    (s.bucketIds bucket).map fun nId => .int ((mapUnkIds.lookup nId).getD 0)

def serialize (s : CAddrMan) : Option (List PeersField) := do
  let nVersion : UInt8 := 1
  let nUBuckets := xorInt ADDRMAN_NEW_BUCKET_COUNT (2 ^ 30)
  let (fNew, mapUnkIds, _) ← s.sorted.foldlM (writeNew s) ([], ∅, 0)
  let (fTried, _) ← s.sorted.foldlM (writeTried s) ([], 0)
  pure ([.uchar nVersion, .uchar 32, .hash s.nKey, .int s.nNew, .int s.nTried, .int nUBuckets] ++
    fNew ++ fTried ++ (List.range ADDRMAN_NEW_BUCKET_COUNT).flatMap (writeBucket s mapUnkIds))

/-! ## Reading -/

/-- A field that is not there, or not of the kind asked for, is an exception. -/
abbrev PeersReader := StateT (List PeersField) Option

def getUchar : PeersReader UInt8 := fun fields =>
  match fields with
  | .uchar ch :: fields => some (ch, fields)
  | _ => none

def getHash : PeersReader Uint256 := fun fields =>
  match fields with
  | .hash hash :: fields => some (hash, fields)
  | _ => none

def getInt : PeersReader Int := fun fields =>
  match fields with
  | .int n :: fields => some (n, fields)
  | _ => none

def getInfo : PeersReader AddrRecord := fun fields =>
  match fields with
  | .info r :: fields => some (r, fields)
  | _ => none

/-- `Clear`. The maps of the entries and of the addresses are not cleared. -/
def clear (nRand : Uint256) (s : CAddrMan) : CAddrMan :=
  { s with
    vRandom := []
    nKey := nRand
    vvNew := fun _ => -1
    vvTried := fun _ => -1
    nIdCount := 0
    nTried := 0
    nNew := 0 }

section Hashed

variable (hash64 : List UInt8 → Nat)

/-- One entry of the new table. `fIndexed` says that the indexes of the file can be used. -/
def readNew (fIndexed : Bool) (s : CAddrMan) (n : Int) (r : AddrRecord) : CAddrMan :=
  -- `mapInfo[n]` is what is there already
  let info := ((s.mapInfo.lookup n).getD CAddrInfo.empty).read r
  let info := { info with nRandomPos := s.vRandom.length }
  let s := { s with
    mapInfo := s.mapInfo.insert n info
    mapAddr := s.mapAddr.insert info.ip n
    vRandom := s.vRandom ++ [n] }
  if fIndexed then s
  else
    -- try to give them a reference based on their primary source address
    let place := info.newPlace hash64 s.nKey (info.getNewBucket hash64 s.nKey info.source)
    if s.vvNew place = -1 then
      { s with
        vvNew := Function.update s.vvNew place n
        mapInfo := s.mapInfo.insert n { info with nRefCount := info.nRefCount + 1 } }
    else s

def readTried (acc : CAddrMan × Int) (r : AddrRecord) : CAddrMan × Int :=
  let (s, nLost) := acc
  let info := CAddrInfo.empty.read r
  let place := info.triedPlace hash64 s.nKey
  if s.vvTried place = -1 then
    ({ s with
      mapInfo := s.mapInfo.insert s.nIdCount
        { info with nRandomPos := s.vRandom.length, fInTried := true }
      mapAddr := s.mapAddr.insert info.ip s.nIdCount
      vRandom := s.vRandom ++ [s.nIdCount]
      vvTried := Function.update s.vvTried place s.nIdCount
      nIdCount := s.nIdCount + 1 }, nLost)
  else (s, nLost + 1)

def readIndex (fIndexed : Bool) (bucket : Nat) (s : CAddrMan) (nIndex : Int) : CAddrMan :=
  if 0 ≤ nIndex ∧ nIndex < s.nNew then
    let info := (s.mapInfo.lookup nIndex).getD CAddrInfo.empty
    let place := info.newPlace hash64 s.nKey bucket
    if fIndexed ∧ s.vvNew place = -1 ∧ info.nRefCount < ADDRMAN_NEW_BUCKETS_PER_ADDRESS then
      { s with
        mapInfo := s.mapInfo.insert nIndex { info with nRefCount := info.nRefCount + 1 }
        vvNew := Function.update s.vvNew place nIndex }
    else s
  else s

def readBucket (fIndexed : Bool) (s : CAddrMan) (bucket : Nat) : PeersReader CAddrMan := do
  let nSize ← getInt
  (List.range nSize.toNat).foldlM
    (fun s _ => do return readIndex hash64 fIndexed bucket s (← getInt)) s

/-- Whether a new entry has no reference, as a result of collisions. -/
def unreferenced (s : CAddrMan) (nId : Int) : Bool :=
  match s.mapInfo.lookup nId with
  | none => false
  | some info => !info.fInTried && info.nRefCount == 0

/-- Prune new entries with refcount 0. -/
def prune : AddrM Unit := do
  ((← get).sorted.map Sigma.fst).foldlM (fun _ nId => do
    if (← get).unreferenced nId then delete nId else pure ()) ()

def readTables (fIndexed : Bool) (nUBuckets : Int) (s : CAddrMan) : PeersReader CAddrMan := do
  -- entries from the new table
  let s ← (List.range s.nNew.toNat).foldlM
    (fun s (n : Nat) => do return readNew hash64 fIndexed s n (← getInfo)) s
  -- entries from the tried table
  let (s, nLost) ← (List.range s.nTried.toNat).foldlM
    (fun acc _ => do return readTried hash64 acc (← getInfo)) ({ s with nIdCount := s.nNew }, 0)
  -- positions in the new table
  let s ← (List.range nUBuckets.toNat).foldlM (readBucket hash64 fIndexed)
    { s with nTried := s.nTried - nLost }
  match Hoare.exec prune s with
  | (.ok _, s) => pure s
  | (.error _, _) => failure

def unserialize (nRand : Uint256) (s : CAddrMan) : PeersReader CAddrMan := do
  let s := s.clear nRand
  let nVersion ← getUchar
  let nKeySize ← getUchar
  if nKeySize ≠ 32 then failure
  else
    let nKey ← getHash
    let nNew ← getInt
    let nTried ← getInt
    let nUBuckets ← getInt
    let nUBuckets := if nVersion ≠ 0 then xorInt nUBuckets (2 ^ 30) else nUBuckets
    readTables hash64 (nVersion = 1 ∧ nUBuckets = ADDRMAN_NEW_BUCKET_COUNT) nUBuckets
      { s with nKey, nNew, nTried }

end Hashed

end CAddrMan

end BitBlocks

/-!
## The numbers in the file

What is written of a state that is in order: its entries, the new ones first, each
in the order of their numbers. Where an entry stands in this list is its number
once the file is read, and the index under which the buckets name it.
-/

namespace BitBlocks

namespace CAddrMan

abbrev Entry := Sigma fun _ : Int => CAddrInfo

variable {hash64 : List UInt8 → Nat} {s : CAddrMan} {nId : Int} {info : CAddrInfo} {x : Entry}

def newEntries (s : CAddrMan) : List Entry := s.sorted.filter fun x => x.2.nRefCount ≠ 0

def triedEntries (s : CAddrMan) : List Entry := s.sorted.filter fun x => x.2.fInTried

def written (s : CAddrMan) : List Entry := s.newEntries ++ s.triedEntries

/-- The number an entry is given in the file; an empty place stays empty. -/
def number (s : CAddrMan) (nId : Int) : Int :=
  if nId = -1 then -1 else (s.written.map Sigma.fst).idxOf nId

theorem nodup_fst {p : Entry → Bool} : ((s.sorted.filter p).map Sigma.fst).Nodup :=
  (List.filter_sublist.map _).nodup nodup_sorted

/-! ## What is in order -/

theorem mem_triedEntries :
    x ∈ s.triedEntries ↔ s.mapInfo.lookup x.1 = some x.2 ∧ x.2.fInTried = true := by
  rw [triedEntries, List.mem_filter, mem_sorted]

namespace InOrder

theorem referenced (h : InOrder hash64 s) (hinfo : s.mapInfo.lookup nId = some info) :
    info.nRefCount ≠ 0 ↔ info.fInTried = false := by
  have hentry := h.entries nId info hinfo
  cases hi : info.fInTried with
  | true => simpa using (hentry.tried hi).2
  | false =>
    have hone := (hentry.untried hi).1
    simp only [ne_eq, iff_true]
    omega

theorem mem_newEntries (h : InOrder hash64 s) :
    x ∈ s.newEntries ↔ s.mapInfo.lookup x.1 = some x.2 ∧ x.2.fInTried = false := by
  rw [newEntries, List.mem_filter, mem_sorted, decide_eq_true_eq]
  exact and_congr_right fun hx => h.referenced hx

theorem mem_written (h : InOrder hash64 s) : x ∈ s.written ↔ s.mapInfo.lookup x.1 = some x.2 := by
  rw [written, List.mem_append, h.mem_newEntries, mem_triedEntries, ← and_or_left]
  cases x.2.fInTried <;> simp

theorem nodup_written (h : InOrder hash64 s) : (s.written.map Sigma.fst).Nodup := by
  rw [written, List.map_append]
  refine List.Nodup.append nodup_fst nodup_fst fun nId hnew htried => ?_
  obtain ⟨x, hx, rfl⟩ := List.mem_map.mp hnew
  obtain ⟨y, hy, hfst⟩ := List.mem_map.mp htried
  obtain ⟨hlook, hi⟩ := h.mem_newEntries.mp hx
  obtain ⟨hlook', hi'⟩ := mem_triedEntries.mp hy
  rw [hfst, hlook] at hlook'
  obtain heq := Option.some.inj hlook'
  rw [← heq, hi] at hi'
  exact nomatch hi'

theorem nodup_ip (h : InOrder hash64 s) : (s.written.map fun x => x.2.ip).Nodup := by
  refine List.Nodup.map_on (fun x hx y hy hip => ?_) h.nodup_written.of_map
  have hx' := (h.entries x.1 x.2 (h.mem_written.mp hx)).addr
  have hy' := (h.entries y.1 y.2 (h.mem_written.mp hy)).addr
  rw [hip] at hx'
  exact List.inj_on_of_nodup_map h.nodup_written hx hy (hx'.symm.trans hy')

theorem length_newEntries (h : InOrder hash64 s) : (s.newEntries.length : Int) = s.nNew := by
  have hsame : s.newEntries = s.sorted.filter fun x => !x.2.fInTried :=
    List.filter_congr fun x hx => by
      rw [Bool.eq_iff_iff, decide_eq_true_eq, h.referenced (mem_sorted.mp hx)]
      simp
  have hsorted : (s.sorted.map fun x => isNew x.2).Perm
      (s.mapInfo.entries.map fun x => isNew x.2) :=
    (List.mergeSort_perm _ _).map _
  rw [← h.nNew, hsame, Table.total, ← hsorted.sum_eq, ← sum_indicator]
  refine congrArg _ (congrArg _ (List.map_congr_left fun x _ => ?_))
  rw [isNew]
  cases x.2.fInTried <;> rfl

theorem length_triedEntries (h : InOrder hash64 s) : (s.triedEntries.length : Int) = s.nTried := by
  have hsorted : (s.sorted.map fun x => isTried x.2).Perm
      (s.mapInfo.entries.map fun x => isTried x.2) :=
    (List.mergeSort_perm _ _).map _
  rw [← h.nTried, triedEntries, Table.total, ← hsorted.sum_eq, ← sum_indicator]
  rfl

theorem number_eq (h : InOrder hash64 s) {i : Nat} (hx : s.written[i]? = some x) :
    s.number x.1 = i := by
  obtain ⟨hi, rfl⟩ := List.getElem?_eq_some_iff.mp hx
  have hne : s.written[i].1 ≠ -1 := h.ids _ _ (h.mem_written.mp (List.getElem_mem hi))
  have hidx := h.nodup_written.idxOf_getElem i (by simpa using hi)
  rw [List.getElem_map] at hidx
  rw [number, if_neg hne, hidx]

theorem exists_getElem (h : InOrder hash64 s) (hinfo : s.mapInfo.lookup nId = some info) :
    ∃ i : Nat, s.written[i]? = some ⟨nId, info⟩ ∧ s.number nId = i := by
  obtain ⟨i, hi⟩ := List.mem_iff_getElem?.mp (h.mem_written.mpr hinfo : ⟨nId, info⟩ ∈ s.written)
  exact ⟨i, hi, h.number_eq hi⟩

theorem fInTried_eq (h : InOrder hash64 s) {i : Nat} (hx : s.written[i]? = some x) :
    x.2.fInTried = decide (s.newEntries.length ≤ i) := by
  rw [written, List.getElem?_append] at hx
  split at hx
  · rw [(h.mem_newEntries.mp (List.mem_of_getElem? hx)).2]
    exact (decide_eq_false (by omega)).symm
  · rw [(mem_triedEntries.mp (List.mem_of_getElem? hx)).2]
    exact (decide_eq_true (by omega)).symm

theorem number_inj (h : InOrder hash64 s) {nId' : Int} {info' : CAddrInfo}
    (hinfo : s.mapInfo.lookup nId = some info) (hinfo' : s.mapInfo.lookup nId' = some info')
    (heq : s.number nId = s.number nId') : nId = nId' := by
  obtain ⟨i, hi, hnum⟩ := h.exists_getElem hinfo
  obtain ⟨j, hj, hnum'⟩ := h.exists_getElem hinfo'
  obtain rfl : i = j := by omega
  rw [hi] at hj
  exact congrArg Sigma.fst (Option.some.inj hj)

end InOrder

/-! ## What is written -/

def infoFields (l : List Entry) : List PeersField := l.map fun x => .info x.2.record

def bucketFields (s : CAddrMan) (bucket : Nat) : List PeersField :=
  .int (s.bucketIds bucket).length :: (s.bucketIds bucket).map fun nId => .int (s.number nId)

/-- **The first loop** writes the new entries of a list and counts them; the assertion does not fail
while there are no more of them than there should be. -/
theorem foldlM_writeNew {l : List Entry} (hl : (l.map Sigma.fst).Nodup) (fields : List PeersField)
    {m : AList fun _ : Int => Int} {k : Int}
    (hk : k + (l.filter fun x => x.2.nRefCount ≠ 0).length ≤ s.nNew) :
    ∃ m' k', l.foldlM (writeNew s) (fields, m, k) =
        some (fields ++ infoFields (l.filter fun x => x.2.nRefCount ≠ 0), m', k') ∧
      (∀ nId ∉ l.map Sigma.fst, m'.lookup nId = m.lookup nId) ∧
      ∀ nId ∈ (l.filter fun x => x.2.nRefCount ≠ 0).map Sigma.fst, m'.lookup nId =
        some (k + ((l.filter fun x => x.2.nRefCount ≠ 0).map Sigma.fst).idxOf nId) := by
  induction l generalizing fields m k with
  | nil => exact ⟨m, k, by simp [infoFields], fun _ _ => rfl, fun _ h => absurd h (by simp)⟩
  | cons x l ih =>
    rw [List.map_cons, List.nodup_cons] at hl
    obtain ⟨hx, hl⟩ := hl
    rw [List.foldlM_cons, writeNew]
    by_cases hrefs : x.2.nRefCount ≠ 0
    · rw [List.filter_cons_of_pos (by simpa using hrefs)] at hk ⊢
      rw [List.length_cons] at hk
      obtain ⟨m', k', hfold, hother, hnew⟩ := ih hl (fields ++ [.info x.2.record])
        (m := m.insert x.1 k) (k := k + 1) (by omega)
      refine ⟨m', k', ?_, fun nId hnId => ?_, fun nId hnId => ?_⟩
      · rw [if_pos hrefs, if_neg (by omega)]
        refine hfold.trans ?_
        rw [infoFields, infoFields, List.map_cons, List.append_assoc, List.singleton_append]
      · rw [List.map_cons, List.mem_cons, not_or] at hnId
        rw [hother nId hnId.2, AList.lookup_insert_ne hnId.1]
      · rw [List.map_cons] at hnId ⊢
        by_cases heq : nId = x.1
        · subst heq
          rw [hother x.1 hx, AList.lookup_insert, List.idxOf_cons_self]
          simp
        · rw [hnew nId ((List.mem_cons.mp hnId).resolve_left heq),
            List.idxOf_cons_ne _ (Ne.symm heq)]
          exact congrArg some (by push_cast; omega)
    · rw [List.filter_cons_of_neg (by simpa using hrefs)] at hk ⊢
      obtain ⟨m', k', hfold, hother, hnew⟩ := ih hl fields (m := m.insert x.1 k) hk
      refine ⟨m', k', ?_, fun nId hnId => ?_, hnew⟩
      · rw [if_neg hrefs]
        exact hfold
      · rw [List.map_cons, List.mem_cons, not_or] at hnId
        rw [hother nId hnId.2, AList.lookup_insert_ne hnId.1]

theorem foldlM_writeTried {l : List Entry} (fields : List PeersField) {k : Int}
    (hk : k + (l.filter fun x => x.2.fInTried).length ≤ s.nTried) :
    ∃ k', l.foldlM (writeTried s) (fields, k) =
      some (fields ++ infoFields (l.filter fun x => x.2.fInTried), k') := by
  induction l generalizing fields k with
  | nil => exact ⟨k, by simp [infoFields]⟩
  | cons x l ih =>
    rw [List.foldlM_cons, writeTried]
    cases hi : x.2.fInTried with
    | true =>
      rw [List.filter_cons_of_pos (by simpa using hi)] at hk ⊢
      rw [List.length_cons] at hk
      obtain ⟨k', hfold⟩ := ih (fields ++ [.info x.2.record]) (k := k + 1) (by omega)
      refine ⟨k', ?_⟩
      rw [if_pos rfl, if_neg (by omega)]
      refine hfold.trans ?_
      rw [infoFields, infoFields, List.map_cons, List.append_assoc, List.singleton_append]
    | false =>
      rw [List.filter_cons_of_neg (by simp [hi])] at hk ⊢
      rw [if_neg (by simp)]
      exact ih fields hk

/-- **What is written of a state in order**: no assertion fails. -/
theorem InOrder.serialize_eq (h : InOrder hash64 s) :
    serialize s = some ([.uchar 1, .uchar 32, .hash s.nKey, .int s.nNew, .int s.nTried,
      .int (xorInt ADDRMAN_NEW_BUCKET_COUNT (2 ^ 30))] ++ infoFields s.newEntries ++
      infoFields s.triedEntries ++
      (List.range ADDRMAN_NEW_BUCKET_COUNT).flatMap s.bucketFields) := by
  have hnNew := h.length_newEntries
  have hnTried := h.length_triedEntries
  rw [newEntries] at hnNew
  rw [triedEntries] at hnTried
  obtain ⟨m, k, hfold, -, hindex⟩ := foldlM_writeNew (s := s) (l := s.sorted)
    nodup_sorted [] (m := ∅) (k := 0) (by omega)
  obtain ⟨k', hfold'⟩ := foldlM_writeTried (s := s) (l := s.sorted) [] (k := 0) (by omega)
  have hbucket (bucket : Nat) (hb : bucket ∈ List.range ADDRMAN_NEW_BUCKET_COUNT) :
      writeBucket s m bucket = s.bucketFields bucket := by
    rw [writeBucket, bucketFields]
    refine congrArg _ (List.map_congr_left fun nId hnId => ?_)
    obtain ⟨hmem, hne⟩ := List.mem_filter.mp hnId
    obtain ⟨i, hi, rfl⟩ := List.mem_map.mp hmem
    have hp : (bucket, i) ∈ newPlaces := List.pair_mem_product.mpr ⟨hb, hi⟩
    rw [decide_eq_true_eq] at hne
    obtain ⟨info, hinfo, htried, -⟩ := h.newSlots _ hp hne
    have hnew : s.vvNew (bucket, i) ∈ s.newEntries.map Sigma.fst :=
      List.mem_map.mpr ⟨⟨_, info⟩, h.mem_newEntries.mpr ⟨hinfo, htried⟩, rfl⟩
    rw [hindex _ hnew, number, if_neg hne, written, List.map_append, List.idxOf_append_of_mem hnew]
    simp [newEntries]
  unfold serialize
  rw [hfold, hfold']
  simp only [List.nil_append, Option.pure_def, Option.bind_eq_bind, Option.bind_some, newEntries,
    triedEntries, Option.some.injEq, List.append_cancel_left_eq, List.append_assoc]
  exact List.flatMap_congr hbucket

end CAddrMan

end BitBlocks
