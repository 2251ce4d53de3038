import BitBlocks.Net.AddrSteps

/-!
# The address manager is consistent

What every call keeps, whatever it is called with, and that it is what `Check_`
tests: a state that keeps it passes, but for the one test of the secret key, which
is never set again.
-/

namespace BitBlocks

open Hoare

namespace CAddrMan

variable {hash64 : List UInt8 → Nat} {nKey : Uint256} {made : Nat} {free : List Int} {loose : Int}
  {s : CAddrMan}
  {nId : Int} {info info' : CAddrInfo} {E : AddrFailure → CAddrMan → Prop}

/-! ## Finding an entry -/

theorem lookup_of_find {addr : CNetAddr} (h : s.find addr = some (nId, info)) :
    s.mapInfo.lookup nId = some info := by
  unfold find at h
  split at h
  · exact absurd h (by simp)
  · obtain ⟨i, hi, heq⟩ := Option.map_eq_some_iff.mp h
    obtain ⟨rfl, rfl⟩ := Prod.mk.inj heq
    exact hi

theorem Directory.of_find_none (h : Directory s) {addr : CNetAddr} (hfind : s.find addr = none) :
    s.mapAddr.lookup addr = none := by
  unfold find at hfind
  split at hfind
  · assumption
  · rename_i x hx
    obtain ⟨i, hi, -⟩ := h.addr addr x hx
    rw [hi] at hfind
    exact absurd hfind (by simp)

/-! ## The calls -/

-- so that no loop over the buckets is ever run
attribute [local irreducible] ADDRMAN_NEW_BUCKET_COUNT

theorem Tables.weaken (h : Tables hash64 free loose s) (free' : List Int)
    (hfree : ∀ x ∈ free, x ∈ free') : Tables hash64 free' loose s := by
  refine ⟨h.refs, fun x i hx hi => ?_, h.tried, h.triedSlots, h.newSlots, h.nTried, h.nNew⟩
  obtain ⟨hle, hpos⟩ := h.untried x i hx hi
  exact ⟨hle, hpos.imp_left (hfree x)⟩

theorem wp_makeTried (h : Kept hash64 nKey made [] 0 s) (hlook : s.mapInfo.lookup nId = some info)
    (hnew : info.fInTried = false) (hsuccess : info.nLastSuccess ≠ 0) :
    Wp (makeTried hash64 nId) (fun _ => Kept hash64 nKey made [] 0) E s := by
  have hstart : Leaving hash64 nKey made nId info 0 s :=
    ⟨⟨h.directory, h.tables.weaken [nId] fun x hx => absurd hx List.not_mem_nil, h.stats⟩,
      ⟨info.nRefCount, hlook⟩, fun b hb => absurd hb (Nat.not_lt_zero b)⟩
  unfold makeTried
  have hloop : Wp ((List.range ADDRMAN_NEW_BUCKET_COUNT).foldlM
      (fun _ bucket => leaveBucket hash64 nId bucket) ())
      (fun _ => Leaving hash64 nKey made nId info ADDRMAN_NEW_BUCKET_COUNT) E s :=
    wp_range (fun _ hb _ ht => wp_leaveBucket hb ht) hstart
  refine wp_bind.mpr (hloop.mono (fun _ t ht => ?_) fun _ _ hE => hE)
  have hout : ({ t with nNew := t.nNew - 1 } : CAddrMan).mapInfo.lookup nId =
      some { info with nRefCount := 0 } := ht.done
  have hless : t.nNew - 1 + 1 = t.nNew + 0 := by omega
  have hkept : Kept hash64 nKey made [nId] 1 { t with nNew := t.nNew - 1 } :=
    ⟨ht.kept.directory.of_eq rfl rfl rfl rfl, ht.kept.tables.of_eq rfl rfl rfl rfl rfl hless,
      ht.kept.stats.of_eq rfl rfl rfl⟩
  refine wp_bind.mpr (wp_modify.mpr (wp_bind.mpr ((wp_infoAt hout).mpr (wp_bind.mpr ?_))))
  refine (wp_assert rfl).mpr (wp_bind.mpr (wp_get.mpr (wp_bind.mpr ?_)))
  have hplace : ({ info with nRefCount := 0 } : CAddrInfo).triedPlace hash64 t.nKey ∈ triedPlaces :=
    triedPlace_mem _ t.nKey
  have hspace : Wp (makeSpace hash64
      (({ info with nRefCount := 0 } : CAddrInfo).triedPlace hash64 t.nKey))
      (fun _ u => Kept hash64 nKey made [nId] 1 u ∧ u.nKey = t.nKey ∧
        u.vvTried (({ info with nRefCount := 0 } : CAddrInfo).triedPlace hash64 t.nKey) = -1 ∧
        ∃ k, u.mapInfo.lookup nId = some { info with nRefCount := 0, nRandomPos := k }) E
      { t with nNew := t.nNew - 1 } := by
    unfold makeSpace
    refine wp_bind.mpr (wp_get.mpr (wp_ite.mpr ⟨fun hne => ?_, fun hempty => ?_⟩))
    · exact wp_evict hkept hout hnew rfl hplace hne
    · exact ⟨hkept, rfl, not_not.mp hempty, info.nRandomPos, hout⟩
  refine hspace.mono (fun _ u hu => ?_) fun _ _ hE => hE
  obtain ⟨hkept', hkey, hempty, k, hk⟩ := hu
  refine wp_bind.mpr (wp_get.mpr (wp_bind.mpr ((wp_assert hempty).mpr (wp_bind.mpr ?_))))
  refine (wp_infoAt hk).mpr (wp_modify.mpr ?_)
  have hthere :
      ({ info with nRefCount := 0, nRandomPos := k } : CAddrInfo).triedPlace hash64 u.nKey =
      ({ info with nRefCount := 0 } : CAddrInfo).triedPlace hash64 t.nKey := by
    rw [hkey]
    rfl
  have htables := hkept'.tables.enterTried hkept'.directory hthere hempty hk hnew rfl []
    fun x hx hne => absurd (List.mem_singleton.mp hx) hne
  have hdir := hkept'.directory.write hk
    { info with nRefCount := 0, nRandomPos := k, fInTried := true } rfl rfl
  have hok := hkept'.stats.entries nId _ hk
  have hstats := hkept'.stats.write nId
    { info with nRefCount := 0, nRandomPos := k, fInTried := true }
    ⟨hok.nLastTry, hok.nLastSuccess, hok.nAttempts, fun _ => hsuccess⟩
  exact ⟨hdir.of_eq rfl rfl rfl rfl, htables, hstats.of_eq rfl rfl rfl⟩

theorem Kept.write (h : Kept hash64 nKey made free loose s)
    (hlook : s.mapInfo.lookup nId = some info)
    (info' : CAddrInfo) (hserv : info'.toCService = info.toCService)
    (hrefs : info'.nRefCount = info.nRefCount) (htried : info'.fInTried = info.fInTried)
    (hpos : info'.nRandomPos = info.nRandomPos) (hok : StatsOk made info') :
    Kept hash64 nKey made free loose (s.withInfo nId info') :=
  ⟨h.directory.write hlook info' (congrArg CService.ip hserv) hpos,
    h.tables.write hlook info' hserv hrefs htried, h.stats.write nId info' hok⟩

theorem wp_good_ (h : Kept hash64 nKey made [] 0 s) (addr : CService) {nTime : Int}
    (htime : 0 < nTime)
    (draw : Nat) : Wp (good_ hash64 addr nTime draw) (fun _ => Kept hash64 nKey made [] 0) E s := by
  unfold good_
  refine wp_bind.mpr (wp_get.mpr ?_)
  rcases hfind : s.find addr.ip with _ | ⟨nId, info⟩
  · exact h
  · have hlook := lookup_of_find hfind
    refine wp_ite.mpr ⟨fun _ => h, fun _ => wp_bind.mpr (wp_setInfo.mpr ?_)⟩
    have hkept := h.write hlook
      { info with nLastSuccess := nTime, nLastTry := nTime, nAttempts := 0 } rfl rfl rfl rfl
      ⟨htime.le, htime.le, Int.natCast_nonneg made, fun _ => htime.ne'⟩
    refine wp_ite.mpr ⟨fun _ => hkept, fun huntried => wp_ite.mpr ⟨fun _ => ?_, fun _ => hkept⟩⟩
    exact wp_makeTried hkept ((lookup_withInfo _ _ _ nId).trans (if_pos rfl))
      (Bool.eq_false_of_not_eq_true huntried) htime.ne'

theorem wp_addReference (h : Kept hash64 nKey made [nId] 0 s)
    (hlook : s.mapInfo.lookup nId = some info)
    (hnew : info.fInTried = false) (hcount : info.nRefCount < 8) (source : CNetAddr) (nNow : Int) :
    Wp (addReference hash64 nId source nNow) (fun _ => Kept hash64 nKey made [] 0) E s := by
  have hbucket : info.getNewBucket hash64 s.nKey source < ADDRMAN_NEW_BUCKET_COUNT :=
    getNewBucket_lt info s.nKey source
  have hplace : info.newPlace hash64 s.nKey (info.getNewBucket hash64 s.nKey source) ∈ newPlaces :=
    newPlace_mem info s.nKey hbucket
  have hfree : ∀ x ∈ [nId], x ≠ nId → x ∈ ([] : List Int) := fun x hx hne =>
    absurd (List.mem_singleton.mp hx) hne
  -- where nothing is done for it, the entry has a reference
  have hsettle : 1 ≤ info.nRefCount → Kept hash64 nKey made [] 0 s := by
    intro hpos
    refine ⟨h.directory, ⟨h.tables.refs, fun x i hx hi => ?_, h.tables.tried, h.tables.triedSlots,
      h.tables.newSlots, h.tables.nTried, h.tables.nNew⟩, h.stats⟩
    obtain ⟨hle, hmem⟩ := h.tables.untried x i hx hi
    refine ⟨hle, Or.inr (hmem.elim (fun hx' => ?_) id)⟩
    rw [List.mem_singleton.mp hx'] at hx
    obtain rfl := Option.some.inj (hx.symm.trans hlook)
    exact hpos
  have hrefs := h.tables.refs nId info hlook
  unfold addReference
  refine wp_bind.mpr (wp_get.mpr (wp_bind.mpr ((wp_infoAt hlook).mpr ?_)))
  refine wp_ite.mpr ⟨fun hother => ?_, fun hhere => ?_⟩
  · refine wp_bind.mpr ?_
    have hchoice :
        Wp (mayInsert (info.newPlace hash64 s.nKey (info.getNewBucket hash64 s.nKey source))
        info nNow) (fun _ t => t = s) E s := by
      unfold mayInsert
      refine wp_bind.mpr (wp_get.mpr (wp_ite.mpr ⟨fun _ => rfl, fun hne => ?_⟩))
      obtain ⟨i, hi, -⟩ := h.tables.newSlots _ hplace hne
      exact wp_bind.mpr ((wp_infoAt hi).mpr rfl)
    refine hchoice.mono (fun fInsert t ht => ?_) fun _ _ hE => hE
    subst ht
    refine wp_ite.mpr ⟨fun _ => wp_bind.mpr ?_, fun _ =>
      wp_ite.mpr ⟨fun hzero => ?_, fun hpos => ?_⟩⟩
    · refine (wp_clearNew h hplace).mono (fun _ u hu => ?_) fun _ _ hE => hE
      obtain ⟨hkept, hempty, hkey, -, hentries⟩ := hu
      obtain ⟨k, hk⟩ := hentries nId info hother.symm hlook
      refine wp_bind.mpr ((wp_infoAt hk).mpr ?_)
      have hthere : ({ info with nRandomPos := k } : CAddrInfo).newPlace hash64 u.nKey
          (info.getNewBucket hash64 t.nKey source) =
          info.newPlace hash64 t.nKey (info.getNewBucket hash64 t.nKey source) := by
        rw [hkey]
        rfl
      exact (wp_enterNew hkept hplace hempty hk hnew hthere hcount rfl [] hfree).mono
        (fun _ _ hv => hv.1) fun _ _ hE => hE
    · exact (wp_delete h hlook hnew hzero [] hfree).mono (fun _ _ hv => hv.1) fun _ _ hE => hE
    · exact hsettle (by omega)
  · have hocc : 0 < s.refs nId := Slots.occ_pos.mpr ⟨_, hplace, not_not.mp hhere⟩
    exact hsettle (by omega)

theorem Kept.mono (h : Kept hash64 nKey made free loose s) :
    Kept hash64 nKey (made + 1) free loose s := by
  refine ⟨h.directory, h.tables, fun x i hx => ?_, ?_, h.stats.key⟩
  · have hok := h.stats.entries x i hx
    have hattempts := hok.nAttempts
    exact ⟨hok.nLastTry, hok.nLastSuccess, by omega, hok.tried⟩
  · have hcount := h.stats.count
    omega

theorem wp_create (h : Kept hash64 nKey made [] 0 s) (addr : CAddress) (source : CNetAddr)
    (haddr : s.mapAddr.lookup addr.ip = none) :
    Wp (create addr source) (fun nId t => Kept hash64 nKey (made + 1) [nId] 1 t ∧
      ∃ k, t.mapInfo.lookup nId = some { CAddrInfo.create addr source with nRandomPos := k })
      (Overflow made) s := by
  have hcount := h.stats.count
  have hlow := h.directory.count
  have hfresh : s.mapInfo.lookup s.nIdCount = none := by
    rcases hl : s.mapInfo.lookup s.nIdCount with _ | i
    · rfl
    · exact absurd (h.directory.ids _ i hl).2 (lt_irrefl _)
  unfold create
  refine wp_bind.mpr (wp_get.mpr (wp_bind.mpr (wp_increment hcount ?_)))
  refine wp_bind.mpr (wp_set.mpr (wp_pure.mpr ?_))
  generalize hinfo : ({ CAddrInfo.create addr source with nRandomPos := s.vRandom.length } :
    CAddrInfo) = info
  have htables : Tables hash64 [s.nIdCount] (0 + 1) (s.withInfo s.nIdCount info) :=
    h.tables.insert hfresh (by omega) (by rw [← hinfo]; rfl) (by rw [← hinfo]; rfl)
  have hstats := h.mono.stats.write s.nIdCount info (by
    rw [← hinfo]
    exact ⟨le_rfl, le_rfl, Int.natCast_nonneg _, fun hi => absurd hi (by simp [CAddrInfo.create])⟩)
  refine ⟨⟨h.directory.create haddr (by rw [← hinfo]; rfl) (by rw [← hinfo]),
    htables.of_eq rfl rfl rfl rfl rfl rfl, ⟨hstats.entries, ?_, h.stats.key⟩⟩, s.vRandom.length, ?_⟩
  · have hmore : s.nIdCount + 1 ≤ (made + 1 : Nat) := by omega
    exact hmore
  · rw [hinfo]
    exact AList.lookup_insert _

theorem wp_add_ (h : Kept hash64 nKey made [] 0 s) (addr : CAddress) (source : CNetAddr)
    (nTimePenalty nNow : Int) (draw : Nat) :
    Wp (add_ hash64 addr source nTimePenalty nNow draw)
      (fun _ => Kept hash64 nKey (made + 1) [] 0) (Overflow made) s := by
  unfold add_
  refine wp_ite.mpr ⟨fun _ => h.mono, fun _ => wp_bind.mpr (wp_get.mpr ?_)⟩
  rcases hfind : s.find addr.ip with _ | ⟨nId, known⟩
  · -- a new entry
    refine wp_bind.mpr ((wp_create h addr source (h.directory.of_find_none hfind)).mono
      (fun nId t ht => ?_) fun _ _ hE => hE)
    obtain ⟨hkept, k, hk⟩ := ht
    refine wp_bind.mpr ((wp_infoAt hk).mpr (wp_bind.mpr (wp_setInfo.mpr (wp_bind.mpr ?_))))
    generalize hinfo : ({ CAddrInfo.create addr source with
      nTime := (max 0 (((CAddrInfo.create addr source).nTime : Int) - nTimePenalty) % 2 ^ 32).toNat
      nRandomPos := k } : CAddrInfo) = info
    have hwritten := hkept.write hk info (by rw [← hinfo]) (by rw [← hinfo]) (by rw [← hinfo])
      (by rw [← hinfo]) ((hkept.stats.entries nId _ hk).of_eq (by rw [← hinfo]) (by rw [← hinfo])
        (by rw [← hinfo]) (by rw [← hinfo]))
    have hless : t.nNew + 1 + 0 = t.nNew + 1 := by omega
    have hcounted : Kept hash64 nKey (made + 1) [nId] 0
        { t.withInfo nId info with nNew := t.nNew + 1 } :=
      ⟨hwritten.directory.of_eq rfl rfl rfl rfl, hwritten.tables.of_eq rfl rfl rfl rfl rfl hless,
        hwritten.stats.of_eq rfl rfl rfl⟩
    have hlook : ({ t.withInfo nId info with nNew := t.nNew + 1 } : CAddrMan).mapInfo.lookup nId =
        some info := AList.lookup_insert _
    have hnew : info.fInTried = false := by rw [← hinfo]; rfl
    have hzero : info.nRefCount = 0 := by rw [← hinfo]; rfl
    refine wp_modify.mpr (wp_bind.mpr ?_)
    exact (wp_addReference hcounted hlook hnew (by omega) source nNow).mono
      (fun _ _ hu => wp_pure.mpr hu) fun _ _ hE => hE
  · -- an entry that is known
    have hlook := lookup_of_find hfind
    dsimp only
    generalize hinfo : CAddrInfo.refresh known addr nTimePenalty nNow = info
    have hwritten := h.write hlook info (by rw [← hinfo]; rfl) (by rw [← hinfo]; rfl)
      (by rw [← hinfo]; rfl) (by rw [← hinfo]; rfl)
      ((h.stats.entries nId known hlook).of_eq (by rw [← hinfo]; rfl) (by rw [← hinfo]; rfl)
        (by rw [← hinfo]; rfl) (by rw [← hinfo]; rfl))
    have hself : (s.withInfo nId info).mapInfo.lookup nId = some info := AList.lookup_insert _
    refine wp_bind.mpr (wp_setInfo.mpr (wp_ite.mpr ⟨fun _ => hwritten.mono, fun _ => ?_⟩))
    refine wp_ite.mpr ⟨fun _ => hwritten.mono, fun huntried => ?_⟩
    have hnew : info.fInTried = false := Bool.eq_false_of_not_eq_true huntried
    refine wp_ite.mpr ⟨fun _ => hwritten.mono, fun hfull => ?_⟩
    refine wp_ite.mpr ⟨fun _ => hwritten.mono, fun _ => wp_bind.mpr ?_⟩
    have hcount : info.nRefCount < 8 := by
      obtain ⟨hle, -⟩ := hwritten.tables.untried nId info hself hnew
      exact lt_of_le_of_ne hle hfull
    have hloose : Kept hash64 nKey made [nId] 0 (s.withInfo nId info) :=
      ⟨hwritten.directory, hwritten.tables.weaken [nId] fun x hx => absurd hx List.not_mem_nil,
        hwritten.stats⟩
    exact (wp_addReference hloose hself hnew hcount source nNow).mono
      (fun _ _ hu => wp_pure.mpr hu.mono) fun _ _ hE => hE

theorem wp_attempt_ (h : Kept hash64 nKey made [] 0 s) (addr : CService) {nTime : Int}
    (htime : 0 < nTime) : Wp (attempt_ addr nTime) (fun _ => Kept hash64 nKey (made + 1) [] 0)
      (Overflow made) s := by
  unfold attempt_
  refine wp_bind.mpr (wp_get.mpr ?_)
  rcases hfind : s.find addr.ip with _ | ⟨nId, info⟩
  · exact h.mono
  · have hlook := lookup_of_find hfind
    have hok := h.stats.entries nId info hlook
    have hattempts := hok.nAttempts
    refine wp_ite.mpr ⟨fun _ => h.mono, fun _ => wp_bind.mpr (wp_increment hattempts ?_)⟩
    refine wp_setInfo.mpr (h.mono.write hlook _ rfl rfl rfl rfl
      ⟨htime.le, hok.nLastSuccess, ?_, hok.tried⟩)
    have hmore : info.nAttempts + 1 ≤ (made + 1 : Nat) := by omega
    exact hmore

theorem wp_connected_ (h : Kept hash64 nKey made [] 0 s) (addr : CService) (nTime : Int) :
    Wp (connected_ addr nTime) (fun _ => Kept hash64 nKey made [] 0) E s := by
  unfold connected_
  refine wp_bind.mpr (wp_get.mpr ?_)
  rcases hfind : s.find addr.ip with _ | ⟨nId, info⟩
  · exact h
  · have hlook := lookup_of_find hfind
    refine wp_ite.mpr ⟨fun _ => h, fun _ => wp_ite.mpr ⟨fun _ => wp_setInfo.mpr ?_, fun _ => h⟩⟩
    exact h.write hlook _ rfl rfl rfl rfl ((h.stats.entries nId info hlook).of_eq rfl rfl rfl rfl)

/-- The search meets entries only, and changes nothing. -/
theorem wp_selectFrom (chance : Nat → CAddrInfo → Nat) {table : Buckets} {nBuckets : Nat}
    (hbuckets : 0 < nBuckets)
    (htable : ∀ bucket < nBuckets, ∀ pos < ADDRMAN_BUCKET_SIZE, table (bucket, pos) ≠ -1 →
      ∃ info, s.mapInfo.lookup (table (bucket, pos)) = some info) (met : Nat)
    (draws : List (Nat × Nat × Nat)) :
    Wp (selectFrom chance table nBuckets met draws) (fun _ t => t = s) E s := by
  have hrand : ∀ n draw, 0 < n → getRandInt n draw < n := by
    intro n draw hn
    rw [getRandInt, if_neg hn.ne']
    exact Nat.mod_lt _ hn
  induction draws generalizing met with
  | nil => rfl
  | cons d draws ih =>
    obtain ⟨bucket, pos, roll⟩ := d
    rw [selectFrom]
    refine wp_ite.mpr ⟨fun _ => ih met, fun hne => ?_⟩
    obtain ⟨info, hinfo⟩ := htable _ (hrand nBuckets bucket hbuckets) _
      (hrand ADDRMAN_BUCKET_SIZE pos (by decide)) hne
    refine wp_bind.mpr ((wp_infoAt hinfo).mpr (wp_ite.mpr ⟨fun _ => rfl, fun _ => ih (met + 1)⟩))

theorem wp_select_ (h : Kept hash64 nKey made [] 0 s) (chance : Nat → CAddrInfo → Nat) (draw : Nat)
    (draws : List (Nat × Nat × Nat)) :
    Wp (select_ chance draw draws) (fun _ => Kept hash64 nKey made [] 0) E s := by
  have htried : ∀ bucket < ADDRMAN_TRIED_BUCKET_COUNT, ∀ pos < ADDRMAN_BUCKET_SIZE,
      s.vvTried (bucket, pos) ≠ -1 →
      ∃ info, s.mapInfo.lookup (s.vvTried (bucket, pos)) = some info := by
    intro bucket hbucket pos hpos hne
    obtain ⟨info, hinfo, -⟩ := h.tables.triedSlots _ (mem_triedPlaces.mpr ⟨hbucket, hpos⟩) hne
    exact ⟨info, hinfo⟩
  have hnew : ∀ bucket < ADDRMAN_NEW_BUCKET_COUNT, ∀ pos < ADDRMAN_BUCKET_SIZE,
      s.vvNew (bucket, pos) ≠ -1 → ∃ info, s.mapInfo.lookup (s.vvNew (bucket, pos)) =
      some info := by
    intro bucket hbucket pos hpos hne
    obtain ⟨info, hinfo, -⟩ := h.tables.newSlots _ (mem_newPlaces.mpr ⟨hbucket, hpos⟩) hne
    exact ⟨info, hinfo⟩
  have hentry : Wp (selectEntry chance draw draws) (fun _ t => t = s) E s := by
    unfold selectEntry
    refine wp_bind.mpr (wp_get.mpr (wp_ite.mpr ⟨fun _ => ?_, fun _ => ?_⟩))
    · exact wp_selectFrom chance (by decide) htried 0 draws
    · exact wp_selectFrom chance (by unfold ADDRMAN_NEW_BUCKET_COUNT; decide) hnew 0 draws
  unfold select_
  refine wp_bind.mpr (wp_get.mpr (wp_ite.mpr ⟨fun _ => h, fun _ => wp_bind.mpr ?_⟩))
  refine hentry.mono (fun _ t ht => ?_) fun _ _ hE => hE
  subst ht
  exact h

theorem wp_getAddr_ (h : Kept hash64 nKey made [] 0 s) (nNow : Int) (draws : Nat → Nat) :
    Wp (getAddr_ nNow draws) (fun _ => Kept hash64 nKey made [] 0) E s := by
  unfold getAddr_
  refine wp_bind.mpr (wp_get.mpr ?_)
  refine (wp_foldlM (I := fun _ t => Kept hash64 nKey made [] 0 t ∧
    t.vRandom.length = s.vRandom.length) (fun n hn vAddr t ht => ?_) ⟨h, rfl⟩).mono
    (fun _ _ ht => ht.1) fun _ _ hE => hE
  obtain ⟨hkept, hsize⟩ := ht
  have hlt : n < t.vRandom.length := by
    rw [hsize]
    exact List.mem_range.mp hn
  have hrand : getRandInt (t.vRandom.length - n) (draws n) + n < t.vRandom.length := by
    rw [getRandInt, if_neg (by omega)]
    have hmod := Nat.mod_lt (draws n) (show 0 < t.vRandom.length - n by omega)
    omega
  unfold gather
  refine wp_ite.mpr ⟨fun _ => ⟨hkept, hsize⟩, fun _ => wp_bind.mpr (wp_get.mpr (wp_bind.mpr ?_))⟩
  refine (wp_swapRandom hkept hlt hrand).mono (fun _ u hu => ?_) fun _ _ hE => hE
  obtain ⟨hkept', hmoved, -⟩ := hu
  have hlt' : n < u.vRandom.length := by
    rw [hmoved.size]
    exact hlt
  have hget := List.getElem?_eq_getElem hlt'
  obtain ⟨ai, hai, -⟩ := hkept'.directory.random n _ hget
  refine wp_bind.mpr (wp_get.mpr ?_)
  rw [hget]
  refine wp_bind.mpr ((wp_infoAt hai).mpr ?_)
  exact wp_ite.mpr ⟨fun _ => ⟨hkept', hmoved.size.trans hsize⟩,
    fun _ => ⟨hkept', hmoved.size.trans hsize⟩⟩

def AddrCall.Positive : AddrCall → Prop
  | .good_ _ nTime _ => 0 < nTime
  | .attempt_ _ nTime => 0 < nTime
  | .connected_ _ nTime => 0 < nTime
  | _ => True

/-- **A call keeps what there is.** -/
theorem wp_call (h : Kept hash64 nKey made [] 0 s) {c : AddrCall} (hc : c.Positive) :
    Wp (call hash64 c) (fun _ => Kept hash64 nKey (made + 1) [] 0) (Overflow made) s := by
  cases c with
  | add_ addr source nTimePenalty nNow draw =>
    exact wp_bind.mpr ((wp_add_ h addr source nTimePenalty nNow draw).mono
      (fun _ _ ht => wp_pure.mpr ht) fun _ _ hE => hE)
  | good_ addr nTime draw =>
    exact (wp_good_ h addr hc draw).mono (fun _ _ ht => ht.mono) fun _ _ hE => hE
  | attempt_ addr nTime => exact wp_attempt_ h addr hc
  | connected_ addr nTime =>
    exact (wp_connected_ h addr nTime).mono (fun _ _ ht => ht.mono) fun _ _ hE => hE
  | select_ chance draw draws =>
    exact wp_bind.mpr ((wp_select_ h chance draw draws).mono
      (fun _ _ ht => wp_pure.mpr ht.mono) fun _ _ hE => hE)
  | getAddr_ nNow draws =>
    exact wp_bind.mpr ((wp_getAddr_ h nNow draws).mono
      (fun _ _ ht => wp_pure.mpr ht.mono) fun _ _ hE => hE)

/-- **So does a run.** -/
theorem wp_calls {l : List AddrCall} (hl : ∀ c ∈ l, c.Positive) (h : Kept hash64 nKey made [] 0 s) :
    Wp (calls hash64 l) (fun _ => Kept hash64 nKey (made + l.length) [] 0)
      (fun e _ => e = .overflow ∧ 2 ^ 31 ≤ made + l.length) s := by
  unfold calls
  induction l generalizing made s with
  | nil => exact h
  | cons c l ih =>
    rw [List.foldlM_cons, wp_bind]
    refine (wp_call h (hl c List.mem_cons_self)).mono (fun _ t ht => ?_) fun e _ hE => ?_
    · have hrest := ih (fun c' hc' => hl c' (List.mem_cons_of_mem c hc')) ht
      rw [List.length_cons, Nat.add_comm l.length, ← Nat.add_assoc]
      exact hrest
    · obtain ⟨rfl, hmany⟩ := hE
      rw [List.length_cons]
      exact ⟨rfl, by omega⟩

end CAddrMan

end BitBlocks
