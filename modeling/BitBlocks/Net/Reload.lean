import BitBlocks.Net.PeersFile

/-!
# The file is read

A state that is in order is written, and the file read over any target. The fields
come in the order the loops ask for them, so that reading is three loops over plain
states: the entries are filed one by one, under the next number, over what is there;
then the indexes give them their places.

An entry that was filed over one with references may get fewer places than it had,
all others get the same.
-/

namespace BitBlocks

namespace CAddrMan

variable {hash64 : List UInt8 → Nat} {nRand : Uint256} {A B s : CAddrMan} {nId : Int}
  {info : CAddrInfo} {x : Entry}

/-! ## The stream -/

/-- A loop that reads one field in every round. -/
theorem run_foldlM_read {α β σ : Type} (get : PeersReader α) (field : β → PeersField)
    (value : β → α) (hget : ∀ b rest, get.run (field b :: rest) = some (value b, rest))
    (f : σ → Nat → α → σ) {ns : List Nat} {l : List β} (hl : ns.length = l.length) (s : σ)
    (rest : List PeersField) :
    (ns.foldlM (fun s n => do return f s n (← get)) s : PeersReader σ).run (l.map field ++ rest) =
      some ((ns.zip l).foldl (fun s y => f s y.1 (value y.2)) s, rest) := by
  induction ns generalizing l s with
  | nil =>
    obtain rfl := List.length_eq_zero_iff.mp hl.symm
    rfl
  | cons n ns ih =>
    cases l with
    | nil => exact absurd hl (by simp)
    | cons b l =>
      rw [List.foldlM_cons, StateT.run_bind, List.map_cons, List.cons_append, StateT.run_bind,
        hget, List.zip_cons_cons, List.foldl_cons]
      exact ih (Nat.succ.inj hl) _

section Loops

variable (hash64)

def loadNew (A s : CAddrMan) : CAddrMan := ((List.range A.newEntries.length).zip A.newEntries).foldl
    (fun s y => readNew hash64 true s y.1 y.2.2.record) s

def loadTried (A s : CAddrMan) : CAddrMan × Int :=
  A.triedEntries.foldl (fun acc x => readTried hash64 acc x.2.record) (s, 0)

def loadIndexes (A s : CAddrMan) : CAddrMan :=
  (List.range ADDRMAN_NEW_BUCKET_COUNT).foldl (fun s bucket =>
    ((A.bucketIds bucket).map A.number).foldl (readIndex hash64 true bucket) s) s

/-- All three; what is left is to prune the entries that have no reference. -/
def loadTables (A s : CAddrMan) : CAddrMan :=
  let s := loadNew hash64 A s
  let acc := loadTried hash64 A { s with nIdCount := s.nNew }
  loadIndexes hash64 A { acc.1 with nTried := acc.1.nTried - acc.2 }

end Loops

/-- What is there before the new entries. -/
def header (nRand : Uint256) (A B : CAddrMan) : CAddrMan :=
  { B.clear nRand with nKey := A.nKey, nNew := A.nNew, nTried := A.nTried }

theorem run_readBucket (s : CAddrMan) (bucket : Nat) (rest : List PeersField) :
    (readBucket hash64 true s bucket).run (A.bucketFields bucket ++ rest) =
      some (((A.bucketIds bucket).map A.number).foldl (readIndex hash64 true bucket) s, rest) := by
  have hloop := run_foldlM_read getInt (fun nId => .int (A.number nId)) A.number
    (fun _ _ => rfl) (fun s _ nIndex => readIndex hash64 true bucket s nIndex)
    (List.length_range (n := (A.bucketIds bucket).length)) s rest
  have hzip : ((List.range (A.bucketIds bucket).length).zip (A.bucketIds bucket)).map Prod.snd =
      A.bucketIds bucket := List.map_snd_zip (by simp)
  rw [List.foldl_map]
  refine hloop.trans (congrArg (fun s => some (s, rest)) ?_)
  conv_rhs => rw [← hzip, List.foldl_map]

theorem run_buckets {buckets : List Nat} (s : CAddrMan) (rest : List PeersField) :
    (buckets.foldlM (readBucket hash64 true) s).run (buckets.flatMap A.bucketFields ++ rest) =
      some (buckets.foldl (fun s bucket =>
        ((A.bucketIds bucket).map A.number).foldl (readIndex hash64 true bucket) s) s, rest) := by
  induction buckets generalizing s with
  | nil => rfl
  | cons bucket buckets ih =>
    rw [List.foldlM_cons, StateT.run_bind, List.flatMap_cons, List.append_assoc, run_readBucket]
    exact ih _

theorem run_news (s : CAddrMan) (rest : List PeersField) : ((List.range A.newEntries.length).foldlM
      (fun s (n : Nat) => do return readNew hash64 true s n (← getInfo)) s : PeersReader _).run
        (infoFields A.newEntries ++ rest) = some (loadNew hash64 A s, rest) :=
  run_foldlM_read getInfo (fun x : Entry => .info x.2.record) (fun x => x.2.record) (fun _ _ => rfl)
    (fun s n r => readNew hash64 true s (n : Int) r) List.length_range s rest

theorem run_trieds (s : CAddrMan) (rest : List PeersField) :
    ((List.range A.triedEntries.length).foldlM
      (fun acc _ => do return readTried hash64 acc (← getInfo)) (s, 0) : PeersReader _).run
        (infoFields A.triedEntries ++ rest) = some (loadTried hash64 A s, rest) := by
  have hloop := run_foldlM_read getInfo (fun x : Entry => .info x.2.record) (fun x => x.2.record)
    (fun _ _ => rfl) (fun acc _ r => readTried hash64 acc r)
    (List.length_range (n := A.triedEntries.length)) (s, 0) rest
  have hsnd : ((List.range A.triedEntries.length).zip A.triedEntries).map Prod.snd =
      A.triedEntries := List.map_snd_zip (by simp)
  refine hloop.trans (congrArg (fun acc => some (acc, rest)) ?_)
  rw [loadTried]
  conv_rhs => rw [← hsnd, List.foldl_map]

theorem loadNew_nTried (s : CAddrMan) : (loadNew hash64 A s).nTried = s.nTried := by
  have hfold (l : List (Nat × Entry)) (s : CAddrMan) :
      (l.foldl (fun s y => readNew hash64 true s y.1 y.2.2.record) s).nTried = s.nTried := by
    induction l generalizing s with
    | nil => rfl
    | cons y l ih => exact ih _
  exact hfold _ _

theorem InOrder.run_readTables (h : InOrder hash64 A) (s : CAddrMan) (hnNew : s.nNew = A.nNew)
    (hnTried : s.nTried = A.nTried) :
    (readTables hash64 true ADDRMAN_NEW_BUCKET_COUNT s).run (infoFields A.newEntries ++
      (infoFields A.triedEntries ++ (List.range ADDRMAN_NEW_BUCKET_COUNT).flatMap A.bucketFields)) =
      match Hoare.exec prune (loadTables hash64 A s) with
      | (.ok _, s) => some (s, [])
      | (.error _, _) => none := by
  have hnews : s.nNew.toNat = A.newEntries.length := by
    have := h.length_newEntries
    omega
  have htrieds : (loadNew hash64 A s).nTried.toNat = A.triedEntries.length := by
    have := h.length_triedEntries
    rw [loadNew_nTried]
    omega
  rw [readTables, StateT.run_bind, hnews, run_news, Option.bind_eq_bind, Option.bind_some]
  dsimp only
  rw [htrieds, StateT.run_bind, run_trieds, Option.bind_eq_bind, Option.bind_some]
  dsimp only
  rw [StateT.run_bind, Int.toNat_natCast, ← List.append_nil (List.flatMap _ _), run_buckets,
    Option.bind_eq_bind, Option.bind_some]
  unfold loadTables loadIndexes
  dsimp only
  generalize Hoare.exec prune _ = out
  rcases out with ⟨err | u, s⟩
  · rfl
  · rfl

/-- **What is written is read** field by field, by the loops. -/
theorem InOrder.unserialize_eq (h : InOrder hash64 A) {fields : List PeersField}
    (hfields : serialize A = some fields) :
    (unserialize hash64 nRand B).run fields =
      match Hoare.exec prune (loadTables hash64 A (header nRand A B)) with
      | (.ok _, s) => some (s, [])
      | (.error _, _) => none := by
  obtain rfl := Option.some.inj (h.serialize_eq.symm.trans hfields)
  have hxor : xorInt (xorInt ADDRMAN_NEW_BUCKET_COUNT (2 ^ 30)) (2 ^ 30) =
      ADDRMAN_NEW_BUCKET_COUNT := by decide
  have hhead (rest : List PeersField) : (unserialize hash64 nRand B).run
      ([.uchar 1, .uchar 32, .hash A.nKey, .int A.nNew, .int A.nTried,
        .int (xorInt ADDRMAN_NEW_BUCKET_COUNT (2 ^ 30))] ++ rest) =
      (readTables hash64
        ((1 : UInt8) = 1 ∧ xorInt (xorInt ADDRMAN_NEW_BUCKET_COUNT (2 ^ 30)) (2 ^ 30) =
          (ADDRMAN_NEW_BUCKET_COUNT : Int))
        (xorInt (xorInt ADDRMAN_NEW_BUCKET_COUNT (2 ^ 30)) (2 ^ 30)) (header nRand A B)).run
        rest := rfl
  rw [List.append_assoc, List.append_assoc, hhead, hxor, decide_eq_true ⟨rfl, rfl⟩]
  exact h.run_readTables _ rfl rfl

/-! ## The entries -/

/-- What is read over: a new entry over what is there already under its number, a tried one over a
fresh one. -/
def base (A B : CAddrMan) (i : Nat) : CAddrInfo :=
  if i < A.newEntries.length then (B.mapInfo.lookup (i : Int)).getD CAddrInfo.empty
  else { CAddrInfo.empty with fInTried := true }

/-- The entry that is there once it is read. -/
def filed (A B : CAddrMan) (i : Nat) (info : CAddrInfo) : CAddrInfo :=
  { (base A B i).read info.record with nRandomPos := i }

/-- Some entries have been read: they have their numbers, what was there before is left. -/
structure Filed (A B : CAddrMan) (done : List Entry) (s : CAddrMan) : Prop where
  entry : ∀ (i : Nat) x, done[i]? = some x → s.mapInfo.lookup (i : Int) = some (filed A B i x.2)
  left : ∀ n : Int, (∀ i : Nat, i < done.length → n ≠ i) → s.mapInfo.lookup n = B.mapInfo.lookup n
  addr : ∀ (i : Nat) x, done[i]? = some x → s.mapAddr.lookup x.2.ip = some (i : Int)
  leftAddr : ∀ a, (∀ x ∈ done, x.2.ip ≠ a) → s.mapAddr.lookup a = B.mapAddr.lookup a
  random : s.vRandom = (List.range done.length).map Int.ofNat
  nKey : s.nKey = A.nKey
  nNew : s.nNew = A.nNew
  nTried : s.nTried = A.nTried
  vvNew : s.vvNew = fun _ => -1
  vvTried : ∀ p ∈ triedPlaces, s.vvTried p =
    if A.vvTried p ∈ done.map Sigma.fst then A.number (A.vvTried p) else -1

theorem filed_header : Filed A B [] (header nRand A B) :=
  ⟨fun _ _ hx => absurd hx (by simp), fun _ _ => rfl, fun _ _ hx => absurd hx (by simp),
    fun _ _ => rfl, rfl, rfl, rfl, rfl, rfl, fun _ _ => by simp [header, clear]⟩

variable {done todo : List Entry} {p : Nat × Nat}

/-- **One entry more**, under the next number. -/
theorem Filed.push (h : Filed A B done s) (hip : ((done ++ [x]).map fun x => x.2.ip).Nodup)
    {s' : CAddrMan}
    (hinfo : s'.mapInfo = s.mapInfo.insert (done.length : Int) (filed A B done.length x.2))
    (haddr : s'.mapAddr = s.mapAddr.insert x.2.ip (done.length : Int))
    (hrandom : s'.vRandom = s.vRandom ++ [(done.length : Int)]) (hnKey : s'.nKey = s.nKey)
    (hnNew : s'.nNew = s.nNew) (hnTried : s'.nTried = s.nTried) (hvvNew : s'.vvNew = s.vvNew)
    (hvvTried : ∀ p ∈ triedPlaces, s'.vvTried p =
      if A.vvTried p ∈ (done ++ [x]).map Sigma.fst then A.number (A.vvTried p) else -1) :
    Filed A B (done ++ [x]) s' := by
  have hget (i : Nat) (y : Entry) (hy : (done ++ [x])[i]? = some y) :
      done[i]? = some y ∧ i < done.length ∨ i = done.length ∧ y = x := by
    rcases Nat.lt_trichotomy i done.length with hi | rfl | hi
    · rw [List.getElem?_append_left hi] at hy
      exact Or.inl ⟨hy, hi⟩
    · rw [List.getElem?_concat_length] at hy
      exact Or.inr ⟨rfl, (Option.some.inj hy).symm⟩
    · rw [List.getElem?_eq_none (by simpa using hi)] at hy
      exact nomatch hy
  have hother (y : Entry) (hy : y ∈ done) : y.2.ip ≠ x.2.ip := by
    rw [List.map_append, List.nodup_append] at hip
    exact hip.2.2 _ (List.mem_map_of_mem hy) _ (by simp)
  refine ⟨fun i y hy => ?_, fun n hn => ?_, fun i y hy => ?_, fun a ha => ?_, ?_,
    hnKey.trans h.nKey, hnNew.trans h.nNew, hnTried.trans h.nTried, hvvNew.trans h.vvNew, hvvTried⟩
  · rw [hinfo, Table.lookup_insert]
    rcases hget i y hy with ⟨hy, hi⟩ | ⟨rfl, rfl⟩
    · rw [if_neg (by omega)]
      exact h.entry i y hy
    · rw [if_pos rfl]
  · rw [List.length_append, List.length_singleton] at hn
    rw [hinfo, Table.lookup_insert, if_neg (hn done.length (by omega))]
    exact h.left n fun i hi => hn i (by omega)
  · rw [haddr, Table.lookup_insert]
    rcases hget i y hy with ⟨hy, hi⟩ | ⟨rfl, rfl⟩
    · rw [if_neg (hother y (List.mem_of_getElem? hy))]
      exact h.addr i y hy
    · rw [if_pos rfl]
  · rw [haddr, Table.lookup_insert, if_neg (ha x (by simp)).symm]
    exact h.leftAddr a fun y hy => ha y (List.mem_append_left _ hy)
  · rw [hrandom, h.random, List.length_append, List.length_singleton, List.range_succ,
      List.map_append]
    rfl

theorem InOrder.nodup_ip_push (hA : InOrder hash64 A) (hl : done ++ x :: todo = A.written) :
    ((done ++ [x]).map fun x => x.2.ip).Nodup := by
  have hsub : (done ++ [x]).Sublist A.written := by
    rw [← hl]
    exact ((List.nil_sublist todo).cons_cons x).append_left done
  exact (hsub.map _).nodup hA.nodup_ip

theorem InOrder.number_push (hA : InOrder hash64 A) (hl : done ++ x :: todo = A.written) :
    A.number x.1 = done.length := by
  refine hA.number_eq ?_
  rw [← hl, List.getElem?_append_right le_rfl, Nat.sub_self]
  rfl

theorem Filed.pushNew (hA : InOrder hash64 A) (hl : done ++ x :: todo = A.newEntries)
    (h : Filed A B done s) :
    Filed A B (done ++ [x]) (readNew hash64 true s done.length x.2.record) := by
  have hwritten : done ++ x :: (todo ++ A.triedEntries) = A.written := by
    rw [written, ← hl, List.append_assoc, List.cons_append]
  have hlt : done.length < A.newEntries.length := by
    rw [← hl, List.length_append, List.length_cons]
    omega
  have hlength : s.vRandom.length = done.length := by rw [h.random]; simp
  obtain ⟨hinfo, hnew⟩ := hA.mem_newEntries.mp
    (hl ▸ List.mem_append_right _ List.mem_cons_self : x ∈ A.newEntries)
  refine h.push (hA.nodup_ip_push hwritten) ?_ rfl rfl rfl rfl rfl rfl fun p hp => ?_
  · have hleft := h.left done.length fun i hi heq => absurd (Int.ofNat_inj.mp heq) (by omega)
    unfold readNew filed base
    rw [if_pos hlt, hleft, hlength]
    rfl
  · have hne : A.vvTried p ≠ x.1 := by
      intro heq
      obtain ⟨info, hlook, htried, -⟩ := hA.triedSlots p hp (heq ▸ hA.ids x.1 x.2 hinfo)
      rw [heq, hinfo] at hlook
      obtain rfl := Option.some.inj hlook
      exact absurd htried (by simp [hnew])
    simp only [List.map_append, List.map_singleton, List.mem_append, List.mem_singleton, hne,
      or_false]
    exact h.vvTried p hp

theorem Filed.pushTried (hA : InOrder hash64 A) (hl : done ++ x :: todo = A.written)
    (hx : x ∈ A.triedEntries) (hnews : A.newEntries.length ≤ done.length) (h : Filed A B done s)
    (hcount : s.nIdCount = done.length) :
    ∃ s', readTried hash64 (s, 0) x.2.record = (s', 0) ∧ Filed A B (done ++ [x]) s' ∧
      s'.nIdCount = (done ++ [x]).length := by
  obtain ⟨hinfo, htried⟩ := mem_triedEntries.mp hx
  have hplace : (CAddrInfo.empty.read x.2.record).triedPlace hash64 s.nKey =
      x.2.triedPlace hash64 A.nKey := by
    rw [h.nKey]
    exact triedPlace_congr rfl _
  have hslot := hA.tried x.1 x.2 hinfo htried
  have hnotMem : x.1 ∉ done.map Sigma.fst := by
    have hnodup := hA.nodup_written
    rw [← hl, List.map_append, List.map_cons, List.nodup_append] at hnodup
    exact fun hmem => hnodup.2.2 _ hmem _ List.mem_cons_self rfl
  have hempty : s.vvTried (x.2.triedPlace hash64 A.nKey) = -1 := by
    rw [h.vvTried _ (triedPlace_mem _ _), hslot, if_neg hnotMem]
  have hlength : s.vRandom.length = done.length := by rw [h.random]; simp
  unfold readTried
  dsimp only
  rw [hplace, if_pos hempty]
  refine ⟨_, rfl, h.push (hA.nodup_ip_push hl) ?_ ?_ ?_ rfl rfl rfl rfl fun p hp => ?_, ?_⟩
  · unfold filed base
    rw [if_neg (by omega), hcount, hlength]
    rfl
  · rw [hcount]
    rfl
  · rw [hcount]
  · dsimp only
    simp only [List.map_append, List.map_singleton, List.mem_append, List.mem_singleton]
    rw [hcount]
    by_cases hpx : p = x.2.triedPlace hash64 A.nKey
    · rw [hpx, Function.update_self, hslot, if_pos (Or.inr rfl), hA.number_push hl]
    · have hne : A.vvTried p ≠ x.1 := by
        intro heq
        obtain ⟨info, hlook, -, hplace'⟩ := hA.triedSlots p hp (heq ▸ hA.ids x.1 x.2 hinfo)
        rw [heq, hinfo] at hlook
        obtain rfl := Option.some.inj hlook
        exact hpx hplace'.symm
      rw [Function.update_of_ne hpx, h.vvTried p hp]
      simp only [hne, or_false]
  · dsimp only
    rw [hcount, List.length_append, List.length_singleton]
    push_cast
    rfl

theorem filed_loadNew (hA : InOrder hash64 A) (h : Filed A B [] s) :
    Filed A B A.newEntries (loadNew hash64 A s) := by
  have hrun (todo done : List Entry) (s : CAddrMan) (hl : done ++ todo = A.newEntries)
      (h : Filed A B done s) :
      Filed A B A.newEntries (((List.range' done.length todo.length).zip todo).foldl
        (fun s y => readNew hash64 true s y.1 y.2.2.record) s) := by
    induction todo generalizing done s with
    | nil =>
      rw [List.append_nil] at hl
      exact hl ▸ h
    | cons x todo ih =>
      have hstep := h.pushNew hA hl
      have hrest := ih (done ++ [x]) _ (by rw [← hl, List.append_assoc]; rfl) hstep
      rw [List.length_append, List.length_singleton] at hrest
      rw [List.length_cons, List.range'_succ, List.zip_cons_cons, List.foldl_cons]
      exact hrest
  rw [loadNew, List.range_eq_range']
  exact hrun A.newEntries [] s rfl h

theorem filed_loadTried (hA : InOrder hash64 A) (h : Filed A B A.newEntries s)
    (hcount : s.nIdCount = s.nNew) :
    ∃ s', loadTried hash64 A s = (s', 0) ∧ Filed A B A.written s' := by
  have hrun (todo done : List Entry) (s : CAddrMan) (hl : done ++ todo = A.triedEntries)
      (h : Filed A B (A.newEntries ++ done) s)
      (hcount : s.nIdCount = (A.newEntries ++ done).length) :
      ∃ s', todo.foldl (fun acc x => readTried hash64 acc x.2.record) (s, 0) = (s', 0) ∧
        Filed A B A.written s' := by
    induction todo generalizing done s with
    | nil =>
      rw [List.append_nil] at hl
      exact ⟨s, rfl, by rw [written, ← hl]; exact h⟩
    | cons x todo ih =>
      have hwritten : A.newEntries ++ done ++ x :: todo = A.written := by
        rw [written, ← hl, List.append_assoc]
      obtain ⟨s1, hstep, h1, hcount1⟩ := h.pushTried hA hwritten
        (hl ▸ List.mem_append_right _ List.mem_cons_self) (by simp) hcount
      rw [List.append_assoc] at h1 hcount1
      rw [List.foldl_cons, hstep]
      exact ih (done ++ [x]) s1 (by rw [← hl, List.append_assoc]; rfl) h1 hcount1
  refine hrun A.triedEntries [] s rfl (by rwa [List.append_nil]) ?_
  rw [hcount, h.nNew, List.append_nil, hA.length_newEntries]

/-! ## The indexes -/

/-- The new places that hold an entry. -/
def heldPlaces (A : CAddrMan) : List (Nat × Nat) := newPlaces.filter fun p => A.vvNew p ≠ -1

theorem loadIndexes_eq (A s : CAddrMan) : loadIndexes hash64 A s =
    A.heldPlaces.foldl (fun s p => readIndex hash64 true p.1 s (A.number (A.vvNew p))) s := by
  have hbucket (bucket : Nat) (s : CAddrMan) :
      ((A.bucketIds bucket).map A.number).foldl (readIndex hash64 true bucket) s =
        (((List.range ADDRMAN_BUCKET_SIZE).map (Prod.mk bucket)).filter fun p =>
          A.vvNew p ≠ -1).foldl
          (fun s p => readIndex hash64 true p.1 s (A.number (A.vvNew p))) s := by
    rw [bucketIds, List.filter_map, List.filter_map, List.foldl_map, List.foldl_map, List.foldl_map]
    rfl
  have hplaces : A.heldPlaces = (List.range ADDRMAN_NEW_BUCKET_COUNT).flatMap fun bucket =>
      ((List.range ADDRMAN_BUCKET_SIZE).map (Prod.mk bucket)).filter fun p => A.vvNew p ≠ -1 :=
    List.filter_flatMap
  rw [loadIndexes, hplaces, List.foldl_flatMap]
  exact List.foldl_ext _ _ _ fun s bucket _ => hbucket bucket s

def more (info : CAddrInfo) (n : Int) : CAddrInfo := { info with nRefCount := info.nRefCount + n }

theorem readIndex_eq {bucket : Nat} (hinfo : s.mapInfo.lookup nId = some info)
    (hnId : 0 ≤ nId ∧ nId < s.nNew) (hplace : info.newPlace hash64 s.nKey bucket = p) :
    readIndex hash64 true bucket s nId =
      if s.vvNew p = -1 ∧ info.nRefCount < 8 then
        { s with
          mapInfo := s.mapInfo.insert nId (more info 1)
          vvNew := Function.update s.vvNew p nId }
      else s := by
  unfold readIndex
  rw [if_pos hnId, hinfo]
  simp only [Option.getD_some, true_and, hplace]
  rfl

/-- The references an entry has been given. -/
def gained (s : CAddrMan) (nId : Int) : Int := if nId = -1 then 0 else s.refs nId

theorem gained_update (hp : p ∈ newPlaces) (hempty : s.vvNew p = -1) (hnId : nId ≠ -1)
    (mapInfo : AList fun _ : Int => CAddrInfo) (n : Int) :
    gained { s with mapInfo, vvNew := Function.update s.vvNew p nId } n =
      s.gained n + if n = nId then 1 else 0 := by
  unfold gained refs
  dsimp only
  by_cases hn : n = -1
  · rw [if_pos hn, if_pos hn, if_neg fun h : n = nId => hnId (h.symm.trans hn)]
    rfl
  · rw [if_neg hn, if_neg hn]
    by_cases heq : n = nId
    · rw [if_pos heq, heq, Slots.occ_update_self nodup_newPlaces hp
        (by rw [hempty]; exact hnId.symm)]
      push_cast
      rfl
    · rw [if_neg heq, Int.add_zero, Slots.occ_update_of_ne nodup_newPlaces hp
        (by rw [hempty]; exact Ne.symm hn) (Ne.symm heq)]

structure Indexed (A s₀ : CAddrMan) (done : List (Nat × Nat)) (s : CAddrMan) : Prop where
  frame : ∃ mapInfo vvNew, s = { s₀ with mapInfo, vvNew }
  entry : ∀ n, s.mapInfo.lookup n = (s₀.mapInfo.lookup n).map fun info => more info (s.gained n)
  slots : ∀ p, s.vvNew p = -1 ∨ p ∈ done ∧ s.vvNew p = A.number (A.vvNew p)
  granted : ∀ p ∈ done, (∀ info, s₀.mapInfo.lookup (A.number (A.vvNew p)) = some info →
    info.nRefCount = 0) → s.vvNew p = A.number (A.vvNew p)

theorem indexed_nil (h : s.vvNew = fun _ => -1) : Indexed A s [] s := by
  refine ⟨⟨s.mapInfo, s.vvNew, rfl⟩, fun n => ?_, fun p => Or.inl (congrFun h p),
    fun p hp => absurd hp (by simp)⟩
  have hzero : s.gained n = 0 := by
    rw [gained]
    split
    · rfl
    · rename_i hn
      have hocc : Slots.occ newPlaces s.vvNew n = 0 :=
        Slots.occ_eq_zero.mpr fun p _ => by rw [h]; exact Ne.symm hn
      exact congrArg Int.ofNat hocc
  simp only [hzero, more, Int.add_zero, Option.map_id']

/-- **One index more**: the entry is given the place, unless it has come with references. -/
theorem Indexed.push (hA : InOrder hash64 A) {s0 : CAddrMan} (h0 : Filed A B A.written s0)
    {done : List (Nat × Nat)} (h : Indexed A s0 done s) (hp : p ∈ newPlaces) (hne : A.vvNew p ≠ -1)
    (hdone : p ∉ done) :
    Indexed A s0 (done ++ [p]) (readIndex hash64 true p.1 s (A.number (A.vvNew p))) := by
  obtain ⟨info, hinfo, hnew, hplace⟩ := hA.newSlots p hp hne
  obtain ⟨i, hi, hnum⟩ := hA.exists_getElem hinfo
  have hlt : ¬ A.newEntries.length ≤ i := by
    have hi' := hA.fInTried_eq hi
    rw [hnew] at hi'
    exact of_decide_eq_false hi'.symm
  obtain ⟨mapInfo, vvNew, hframe⟩ := h.frame
  have hkey : s.nKey = A.nKey := by rw [hframe]; exact h0.nKey
  have hcount : s.nNew = A.nNew := by rw [hframe]; exact h0.nNew
  have hlength := hA.length_newEntries
  have hempty : s.vvNew p = -1 := (h.slots p).resolve_right fun hx => hdone hx.1
  have hentry := h.entry i
  rw [h0.entry i _ hi, Option.map_some] at hentry
  have hpos : (filed A B i info).newPlace hash64 A.nKey p.1 = p :=
    (newPlace_congr rfl _ _).trans hplace
  -- all places that hold its number are places of the entry
  have hless : s.refs i + 1 ≤ A.refs (A.vvNew p) := by
    have hupdate := Slots.occ_update_self nodup_newPlaces (f := s.vvNew) hp (v := (i : Int))
      (by omega)
    have hle : Slots.occ newPlaces (Function.update s.vvNew p (i : Int)) i ≤
        Slots.occ newPlaces A.vvNew (A.vvNew p) := by
      refine Slots.occ_le fun q hq hqi => ?_
      by_cases hqp : q = p
      · rw [hqp]
      · rw [Function.update_of_ne hqp] at hqi
        rcases h.slots q with hnone | ⟨-, hsame⟩
        · omega
        · have hqne : A.vvNew q ≠ -1 := by
            intro hnone
            rw [hsame, hnone, number, if_pos rfl] at hqi
            omega
          obtain ⟨info', hinfo', -⟩ := hA.newSlots q hq hqne
          exact hA.number_inj hinfo' hinfo (by rw [← hsame, hqi, hnum])
    rw [CAddrMan.refs, CAddrMan.refs]
    omega
  have hgained : s.gained i = s.refs i := if_neg (by omega)
  have hrefs := hA.refs _ info hinfo hnew
  have hmax : info.nRefCount ≤ 8 := ((hA.entries _ info hinfo).untried hnew).2
  have hstep : readIndex hash64 true p.1 s i =
      if s.vvNew p = -1 ∧ (filed A B i info).nRefCount + s.gained i < 8 then
        { s with
          mapInfo := s.mapInfo.insert (i : Int) (more (more (filed A B i info) (s.gained i)) 1)
          vvNew := Function.update s.vvNew p (i : Int) }
      else s :=
    readIndex_eq hentry ⟨by omega, by omega⟩ ((newPlace_congr rfl _ _).trans (hkey ▸ hpos))
  rw [hnum, hstep]
  by_cases hfree : (filed A B i info).nRefCount + s.gained i < 8
  · rw [if_pos ⟨hempty, hfree⟩]
    refine ⟨⟨_, _, by rw [hframe]⟩, fun n => ?_, fun q => ?_, fun q hq hzero => ?_⟩
    · rw [gained_update hp hempty (by omega), Table.lookup_insert]
      by_cases hn : n = i
      · rw [if_pos hn, if_pos hn, hn, h0.entry i _ hi, Option.map_some, more, more, more,
          Int.add_assoc]
      · rw [if_neg hn, if_neg hn, Int.add_zero]
        exact h.entry n
    · by_cases hqp : q = p
      · exact Or.inr ⟨hqp ▸ List.mem_append_right _ List.mem_cons_self,
          by rw [hqp, hnum]; exact Function.update_self _ _ _⟩
      · rcases h.slots q with hnone | ⟨hq, hsame⟩
        · exact Or.inl ((Function.update_of_ne hqp _ _).trans hnone)
        · exact Or.inr ⟨List.mem_append_left _ hq, (Function.update_of_ne hqp _ _).trans hsame⟩
    · rcases List.mem_append.mp hq with hq | hq
      · exact (Function.update_of_ne (ne_of_mem_of_not_mem hq hdone) _ _).trans
          (h.granted q hq hzero)
      · obtain rfl := List.mem_singleton.mp hq
        rw [hnum]
        exact Function.update_self _ _ _
  · rw [if_neg fun hc => hfree hc.2]
    refine ⟨h.frame, h.entry, fun q => ?_, fun q hq hzero => ?_⟩
    · exact (h.slots q).imp_right fun hx => ⟨List.mem_append_left _ hx.1, hx.2⟩
    · rcases List.mem_append.mp hq with hq | hq
      · exact h.granted q hq hzero
      · -- without references of its own it has less than eight of them
        obtain rfl := List.mem_singleton.mp hq
        have hnone := hzero _ (hnum ▸ h0.entry i _ hi)
        dsimp only at hnone
        omega

theorem indexed_loadIndexes (hA : InOrder hash64 A) (h : Filed A B A.written s) :
    Indexed A s A.heldPlaces (loadIndexes hash64 A s) := by
  have hrun (todo done : List (Nat × Nat)) (s1 : CAddrMan) (hl : done ++ todo = A.heldPlaces)
      (h1 : Indexed A s done s1) : Indexed A s A.heldPlaces
        (todo.foldl (fun s p => readIndex hash64 true p.1 s (A.number (A.vvNew p))) s1) := by
    induction todo generalizing done s1 with
    | nil =>
      rw [List.append_nil] at hl
      exact hl ▸ h1
    | cons p todo ih =>
      have hmem : p ∈ A.heldPlaces := hl ▸ List.mem_append_right _ List.mem_cons_self
      obtain ⟨hp, hne⟩ := List.mem_filter.mp hmem
      have hdone : p ∉ done := by
        have hnodup : A.heldPlaces.Nodup := by
          rw [heldPlaces]
          exact nodup_newPlaces.filter _
        rw [← hl, List.nodup_append] at hnodup
        exact fun hp => hnodup.2.2 p hp p List.mem_cons_self rfl
      exact ih (done ++ [p]) _ (by rw [← hl, List.append_assoc]; rfl)
        (h1.push hA h hp (by simpa using hne) hdone)
  rw [loadIndexes_eq]
  exact hrun A.heldPlaces [] s (List.nil_append _) (indexed_nil h.vvNew)

/-! ## All of it -/

/-- **The tables are loaded**: the entries are filed, and the indexes read. -/
theorem exists_filed (hA : InOrder hash64 A) (nRand : Uint256) (B : CAddrMan) :
    ∃ s0, Filed A B A.written s0 ∧
      Indexed A s0 A.heldPlaces (loadTables hash64 A (header nRand A B)) := by
  have hheader : Filed A B [] (header nRand A B) := filed_header
  have hnews := filed_loadNew hA hheader
  have hcounted : Filed A B A.newEntries { loadNew hash64 A (header nRand A B) with
      nIdCount := (loadNew hash64 A (header nRand A B)).nNew } :=
    ⟨hnews.entry, hnews.left, hnews.addr, hnews.leftAddr, hnews.random, hnews.nKey, hnews.nNew,
      hnews.nTried, hnews.vvNew, hnews.vvTried⟩
  obtain ⟨s, hs, h⟩ := filed_loadTried hA hcounted rfl
  have hlost : Filed A B A.written { s with nTried := s.nTried - 0 } :=
    ⟨h.entry, h.left, h.addr, h.leftAddr, h.random, h.nKey, h.nNew,
      (Int.sub_zero _).trans h.nTried, h.vvNew, h.vvTried⟩
  refine ⟨_, hlost, ?_⟩
  rw [loadTables, hs]
  exact indexed_loadIndexes hA hlost

theorem exec_prune (h : ∀ n, s.unreferenced n = false) : Hoare.exec prune s = (.ok (), s) := by
  have hround (nId : Int) : Hoare.exec (do
      if (← get).unreferenced nId then delete nId else pure () : AddrM Unit) s = (.ok (), s) := by
    have hget : Hoare.exec (do
        if (← get).unreferenced nId then delete nId else pure () : AddrM Unit) s =
        Hoare.exec (if s.unreferenced nId then delete nId else pure ()) s := rfl
    rw [hget, h nId]
    rfl
  have hrun (l : List Int) : Hoare.exec (l.foldlM (fun _ nId => do
      if (← get).unreferenced nId then delete nId else pure ()) ()) s = (.ok (), s) := by
    induction l with
    | nil => rfl
    | cons nId l ih =>
      rw [List.foldlM_cons, Hoare.exec_bind, hround]
      exact ih
  exact hrun _

end CAddrMan

end BitBlocks
