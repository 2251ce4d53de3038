import BitBlocks.Lib.Sweep
import BitBlocks.Masternode.Manager
import BitBlocks.Net.Address

/-!
# Cleaning up the masternode list

The loops of `CMasternodeMan::CheckAndRemove` (`masternodeman.cpp`), which erase from the
maps they go through. A broadcast of a masternode that is removed takes its hash out of
`masternodeSync.mapSeenSyncMNB` before it goes. One that has expired goes first, and the
hash is then read through an iterator that has moved on.
-/

namespace BitBlocks

open Table

@[ext]
structure SeenMaps where
  man : CMasternodeMan
  mAskedUsForMasternodeList : AList fun _ : CNetAddr => Int := ∅
  mWeAskedForMasternodeList : AList fun _ : CNetAddr => Int := ∅
  /-- Of `masternodeSync`. -/
  mapSeenSyncMNB : AList fun _ : Uint256 => Int := ∅

namespace SeenMaps

/-- An entry of `mapSeenMasternodeBroadcast`. -/
abbrev SeenEntry := Sigma fun _ : Uint256 => CMasternodeBroadcast

variable (T : MasternodeText) (env : CTxIn → CheckEnv) (nTime nMinProtocol : Int)
  (forceExpiredRemoval : Bool)

/-- One round of the loop over the broadcasts, for a masternode that is removed. -/
def forgetEntry (vin : CTxIn) (s : SeenMaps) (it3 : SeenEntry) : SeenMaps :=
  if it3.2.vin = vin then
    { s with
      mapSeenSyncMNB := s.mapSeenSyncMNB.erase it3.1
      man := s.man.forgetBroadcast it3.1 }
  else s

def forgetMasternode (s : SeenMaps) (mn : CMasternode) : SeenMaps :=
  let s := (inOrder s.man.mapSeenMasternodeBroadcast).foldl (forgetEntry mn.vin) s
  -- allow us to ask for this masternode again if we see another ping
  { s with
    man := { s.man with
      mWeAskedForMasternodeListEntry :=
        s.man.mWeAskedForMasternodeListEntry.erase mn.vin.prevout } }

/-- The loop over `vMasternodes`, and what it leaves of the list. -/
def removeLoop : List CMasternode → SeenMaps → List CMasternode × SeenMaps
  | [], s => ([], s)
  | it :: rest, s =>
    if CMasternodeMan.isRemoved nMinProtocol forceExpiredRemoval it then
      removeLoop rest (s.forgetMasternode it)
    else
      let (vMasternodes, s) := removeLoop rest s
      (it :: vMasternodes, s)

/-- The last ping is older than twice the time after which a masternode is removed. -/
def isExpired (it3 : SeenEntry) : Bool :=
  decide (it3.2.lastPing.sigTime < nTime - MASTERNODE_REMOVAL_SECONDS * 2)

/-- The loop over the expired broadcasts. There is no result where `it3` is read at the end. -/
def expireLoop : List SeenEntry → SeenMaps → Option SeenMaps
  | [], s => some s
  | it3 :: rest, s =>
    if isExpired nTime it3 then
      -- `erase(it3++)`, and `*it3` is the entry after the one that went
      match rest.head? with
      | none => none
      | some next =>
        expireLoop rest
          { s with
            man := s.man.forgetBroadcast it3.1
            mapSeenSyncMNB := s.mapSeenSyncMNB.erase (next.2.getHash T) }
    else expireLoop rest s

/-- `nTime` is `GetTime()`, all along. -/
def checkAndRemove (s : SeenMaps) : Option SeenMaps :=
  let man := s.man.check env
  let (vMasternodes, s) :=
    removeLoop nMinProtocol forceExpiredRemoval man.vMasternodes { s with man := man }
  let s := { s with
    man := { s.man with
      vMasternodes := vMasternodes
      mWeAskedForMasternodeListEntry :=
        keep (fun x => !decide (x.2 < nTime)) s.man.mWeAskedForMasternodeListEntry }
    mAskedUsForMasternodeList := keep (fun x => !decide (x.2 < nTime)) s.mAskedUsForMasternodeList
    mWeAskedForMasternodeList := keep (fun x => !decide (x.2 < nTime)) s.mWeAskedForMasternodeList }
  match expireLoop T nTime (inOrder s.man.mapSeenMasternodeBroadcast) s with
  | none => none
  | some s =>
    some { s with
      man := { s.man with
        mapSeenMasternodePing :=
          keep (fun x => !decide (x.2.sigTime < nTime - MASTERNODE_REMOVAL_SECONDS * 2))
            s.man.mapSeenMasternodePing } }

/-! ## What is to go -/

def removed (s : SeenMaps) : List CMasternode := (s.man.check env).vMasternodes.filter
    (CMasternodeMan.isRemoved nMinProtocol forceExpiredRemoval)

def isOwned (mns : List CMasternode) (it3 : SeenEntry) : Bool :=
  mns.any fun mn => it3.2.vin == mn.vin

/-- The hashes of the broadcasts of masternodes that are removed. -/
def ownedHashes (s : SeenMaps) : List Uint256 :=
  keysWhere (isOwned (s.removed env nMinProtocol forceExpiredRemoval))
    s.man.mapSeenMasternodeBroadcast

/-- The hashes of all broadcasts that are to go. -/
def goneHashes (s : SeenMaps) : List Uint256 := keysWhere
    (fun x => isOwned (s.removed env nMinProtocol forceExpiredRemoval) x || isExpired nTime x)
    s.man.mapSeenMasternodeBroadcast

/-- Nothing past an end is read, and both maps lose these hashes and no others. -/
def CleansExactly (s : SeenMaps) : Prop :=
  ∃ s', s.checkAndRemove T env nTime nMinProtocol forceExpiredRemoval = some s' ∧
    s'.man.mapSeenMasternodeBroadcast =
      dropKeys (s.goneHashes env nTime nMinProtocol forceExpiredRemoval)
        s.man.mapSeenMasternodeBroadcast ∧
    s'.mapSeenSyncMNB =
      dropKeys (s.goneHashes env nTime nMinProtocol forceExpiredRemoval) s.mapSeenSyncMNB

/-- The other broadcasts, in the order of the map. -/
def others (s : SeenMaps) : List SeenEntry :=
  inOrder (dropKeys (s.ownedHashes env nMinProtocol forceExpiredRemoval)
    s.man.mapSeenMasternodeBroadcast)

/-- The hashes of the broadcasts that come next after an expired one. -/
def nextHashes (entries : List SeenEntry) : List Uint256 :=
  ((entries.zip entries.tail).filter fun x => isExpired nTime x.1).map fun x => x.2.2.getHash T

/--
The last of the other broadcasts has not expired, and any other hash that is in
`mapSeenSyncMNB` is that of an expired one just if it is that of one that comes next after
an expired one.
-/
structure NextExpires (s : SeenMaps) : Prop where
  last : (s.others env nMinProtocol forceExpiredRemoval).getLast?.any (isExpired nTime) = false
  next : ∀ hash ∈ s.mapSeenSyncMNB,
    hash ∉ s.ownedHashes env nMinProtocol forceExpiredRemoval →
    (hash ∈ nextHashes T nTime (s.others env nMinProtocol forceExpiredRemoval) ↔
      ∃ x ∈ s.others env nMinProtocol forceExpiredRemoval, isExpired nTime x = true ∧ x.1 = hash)

variable {T env nTime nMinProtocol forceExpiredRemoval} {s : SeenMaps}

/-! ## The loops, by the keys they drop -/

/-- Broadcasts are erased from both maps. -/
def drop (ks ks' : List Uint256) (s : SeenMaps) : SeenMaps :=
  { s with
    man := { s.man with mapSeenMasternodeBroadcast := dropKeys ks s.man.mapSeenMasternodeBroadcast }
    mapSeenSyncMNB := dropKeys ks' s.mapSeenSyncMNB }

theorem drop_nil (s : SeenMaps) : s.drop [] [] = s := by
  unfold drop
  rw [dropKeys_nil, dropKeys_nil]

theorem drop_drop (ks ks' js js' : List Uint256) (s : SeenMaps) :
    (s.drop ks ks').drop js js' = s.drop (ks ++ js) (ks' ++ js') := by
  simp only [drop, dropKeys_dropKeys]

theorem erase_eq_drop (k k' : Uint256) (s : SeenMaps) :
    { s with man := s.man.forgetBroadcast k, mapSeenSyncMNB := s.mapSeenSyncMNB.erase k' } =
      s.drop [k] [k'] := by
  unfold drop CMasternodeMan.forgetBroadcast
  rw [erase_eq_dropKeys, erase_eq_dropKeys]

theorem drop_congr {ks ks' js js' : List Uint256} (h : ∀ k, k ∈ ks ↔ k ∈ js)
    (h' : ∀ k, k ∈ ks' ↔ k ∈ js') : s.drop ks ks' = s.drop js js' := by
  unfold drop
  rw [dropKeys_eq_iff.mpr fun k _ => h k, dropKeys_eq_iff.mpr fun k _ => h' k]

theorem foldl_forgetEntry (vin : CTxIn) (entries : List SeenEntry) (s : SeenMaps) :
    entries.foldl (forgetEntry vin) s =
      s.drop ((entries.filter fun x => decide (x.2.vin = vin)).map Sigma.fst)
        ((entries.filter fun x => decide (x.2.vin = vin)).map Sigma.fst) := by
  induction entries generalizing s with
  | nil => exact (drop_nil s).symm
  | cons x entries ih =>
    rw [List.foldl_cons, ih]
    unfold forgetEntry
    by_cases hvin : x.2.vin = vin
    · rw [if_pos hvin, List.filter_cons_of_pos (by simpa using hvin), erase_eq_drop, drop_drop]
      rfl
    · rw [if_neg hvin, List.filter_cons_of_neg (by simpa using hvin)]

/-- The hashes of broadcasts and the outpoints of the masternodes they are of are forgotten. -/
def forget (owned : List Uint256) (prevouts : List COutPoint) (s : SeenMaps) : SeenMaps :=
  { s.drop owned owned with
    man := { (s.drop owned owned).man with
      mWeAskedForMasternodeListEntry := dropKeys prevouts s.man.mWeAskedForMasternodeListEntry } }

theorem forget_nil (s : SeenMaps) : s.forget [] [] = s := by
  unfold forget
  rw [drop_nil, dropKeys_nil]

theorem forget_forget (owned owned' : List Uint256) (prevouts prevouts' : List COutPoint)
    (s : SeenMaps) : (s.forget owned prevouts).forget owned' prevouts' =
      s.forget (owned ++ owned') (prevouts ++ prevouts') := by
  simp only [forget, drop, dropKeys_dropKeys]

theorem forget_congr {owned owned' : List Uint256} (h : ∀ k, k ∈ owned ↔ k ∈ owned')
    (prevouts : List COutPoint) : s.forget owned prevouts = s.forget owned' prevouts := by
  unfold forget
  rw [drop_congr h h]

theorem forgetMasternode_eq (s : SeenMaps) (mn : CMasternode) : s.forgetMasternode mn =
      s.forget (keysWhere (isOwned [mn]) s.man.mapSeenMasternodeBroadcast) [mn.vin.prevout] := by
  have htest : ∀ k, k ∈ ((inOrder s.man.mapSeenMasternodeBroadcast).filter fun x =>
      decide (x.2.vin = mn.vin)).map Sigma.fst ↔
        k ∈ keysWhere (isOwned [mn]) s.man.mapSeenMasternodeBroadcast := by
    intro k
    rw [mem_keysWhere_inOrder, mem_keysWhere, mem_keysWhere]
    simp [isOwned]
  unfold forgetMasternode forget
  rw [foldl_forgetEntry, drop_congr htest htest]
  dsimp only
  rw [erase_eq_dropKeys]
  rfl

theorem mem_keysWhere_isOwned_cons {k : Uint256} (mn : CMasternode) (mns : List CMasternode)
    (m : AList fun _ : Uint256 => CMasternodeBroadcast) :
    k ∈ keysWhere (isOwned [mn]) m ++
        keysWhere (isOwned mns) (dropKeys (keysWhere (isOwned [mn]) m) m) ↔
      k ∈ keysWhere (isOwned (mn :: mns)) m := by
  rw [List.mem_append]
  constructor
  · rintro (h | h)
    · obtain ⟨x, hx, howned, rfl⟩ := mem_keysWhere.mp h
      refine mem_keysWhere.mpr ⟨x, hx, ?_, rfl⟩
      have hvin : x.2.vin = mn.vin := by simpa [isOwned] using howned
      simp [isOwned, hvin]
    · obtain ⟨x, hx, howned, rfl⟩ := mem_keysWhere.mp h
      refine mem_keysWhere.mpr ⟨x, (List.mem_filter.mp hx).1, ?_, rfl⟩
      unfold isOwned at howned ⊢
      rw [List.any_cons, howned, Bool.or_true]
  · intro h
    obtain ⟨x, hx, howned, rfl⟩ := mem_keysWhere.mp h
    by_cases hfirst : x.1 ∈ keysWhere (isOwned [mn]) m
    · exact Or.inl hfirst
    · refine Or.inr (mem_keysWhere.mpr ⟨x, ?_, ?_, rfl⟩)
      · exact List.mem_filter.mpr ⟨hx, decide_eq_true hfirst⟩
      · by_contra hnot
        refine hfirst (mem_keysWhere.mpr ⟨x, hx, ?_, rfl⟩)
        unfold isOwned at howned hnot ⊢
        rw [List.any_cons, Bool.eq_false_iff.mpr hnot, Bool.or_false] at howned
        rw [List.any_cons, howned, Bool.true_or]

/-- **The masternodes that are removed** take their broadcasts out of both maps. -/
theorem removeLoop_eq (mns : List CMasternode) (s : SeenMaps) :
    removeLoop nMinProtocol forceExpiredRemoval mns s =
      let removed := mns.filter (CMasternodeMan.isRemoved nMinProtocol forceExpiredRemoval)
      (mns.filter fun mn => !CMasternodeMan.isRemoved nMinProtocol forceExpiredRemoval mn,
        s.forget (keysWhere (isOwned removed) s.man.mapSeenMasternodeBroadcast)
          (removed.map fun mn => mn.vin.prevout)) := by
  induction mns generalizing s with
  | nil =>
    have hnone : keysWhere (isOwned []) s.man.mapSeenMasternodeBroadcast = [] := by
      simp [keysWhere, isOwned]
    dsimp only
    rw [List.filter_nil, List.filter_nil, hnone, List.map_nil, forget_nil]
    rfl
  | cons mn mns ih =>
    unfold removeLoop
    by_cases hmn : CMasternodeMan.isRemoved nMinProtocol forceExpiredRemoval mn = true
    · rw [if_pos hmn, ih, forgetMasternode_eq]
      dsimp only
      rw [List.filter_cons_of_pos hmn, List.filter_cons_of_neg (by simp [hmn]), forget_forget,
        List.map_cons, List.singleton_append]
      exact congrArg _ (forget_congr
        (fun k => mem_keysWhere_isOwned_cons mn _ s.man.mapSeenMasternodeBroadcast) _)
    · rw [if_neg hmn, ih]
      dsimp only
      rw [List.filter_cons_of_neg hmn, List.filter_cons_of_pos (by simpa using hmn)]

/-! ## The expired broadcasts -/

theorem nextHashes_cons (x : SeenEntry) (entries : List SeenEntry) :
    nextHashes T nTime (x :: entries) =
      match entries.head? with
      | none => []
      | some next =>
        (if isExpired nTime x then [next.2.getHash T] else []) ++ nextHashes T nTime entries := by
  cases entries with
  | nil => rfl
  | cons next entries =>
    unfold nextHashes
    cases hx : isExpired nTime x with
    | true => simp [hx]
    | false => simp [hx]

/-- **The loop over the expired broadcasts** drops their own hashes from one map only. -/
theorem expireLoop_eq (entries : List SeenEntry) (s : SeenMaps) : expireLoop T nTime entries s =
      if entries.getLast?.any (isExpired nTime) then none
      else some (s.drop ((entries.filter (isExpired nTime)).map Sigma.fst)
        (nextHashes T nTime entries)) := by
  induction entries generalizing s with
  | nil => exact congrArg some (drop_nil s).symm
  | cons x entries ih =>
    unfold expireLoop
    rw [nextHashes_cons]
    cases entries with
    | nil =>
      cases hx : isExpired nTime x with
      | true => simp [hx]
      | false => simp [hx, expireLoop, drop_nil]
    | cons next entries =>
      rw [List.head?_cons, List.getLast?_cons_cons]
      dsimp only
      by_cases hx : isExpired nTime x = true
      · rw [if_pos hx, if_pos hx, ih, erase_eq_drop, drop_drop, List.filter_cons_of_pos hx]
        rfl
      · rw [if_neg hx, if_neg hx, ih, List.filter_cons_of_neg hx, List.nil_append]

/-! ## The whole call -/

theorem mem_goneHashes {k : Uint256} : k ∈ s.goneHashes env nTime nMinProtocol forceExpiredRemoval ↔
      k ∈ s.ownedHashes env nMinProtocol forceExpiredRemoval ∨
        ∃ x ∈ s.others env nMinProtocol forceExpiredRemoval, isExpired nTime x = true ∧
        x.1 = k := by
  unfold goneHashes others
  rw [mem_keysWhere]
  constructor
  · rintro ⟨x, hx, hgone, rfl⟩
    by_cases howned : x.1 ∈ s.ownedHashes env nMinProtocol forceExpiredRemoval
    · exact Or.inl howned
    · refine Or.inr ⟨x, ?_, ?_, rfl⟩
      · rw [mem_inOrder]
        exact List.mem_filter.mpr ⟨hx, decide_eq_true howned⟩
      · rcases Bool.or_eq_true_iff.mp hgone with h | h
        · exact absurd (mem_keysWhere.mpr ⟨x, hx, h, rfl⟩) howned
        · exact h
  · rintro (h | ⟨x, hx, hexpired, rfl⟩)
    · obtain ⟨x, hx, howned, rfl⟩ := mem_keysWhere.mp h
      exact ⟨x, hx, by rw [howned, Bool.true_or], rfl⟩
    · rw [mem_inOrder] at hx
      exact ⟨x, (List.mem_filter.mp hx).1, by rw [hexpired, Bool.or_true], rfl⟩

theorem mapSeen_checkAndRemove (s : SeenMaps) :
    (s.man.checkAndRemove env nTime nMinProtocol forceExpiredRemoval).mapSeenMasternodeBroadcast =
      dropKeys (s.goneHashes env nTime nMinProtocol forceExpiredRemoval)
        s.man.mapSeenMasternodeBroadcast := by
  unfold goneHashes
  rw [← keep_not_eq_dropKeys]
  refine keep_congr ?_
  intro x _
  rw [Bool.not_or]
  congr 1
  unfold isExpired
  rw [← decide_not]
  exact decide_eq_decide.mpr not_lt.symm

/--
**`CheckAndRemove`, loop by loop**: the manager is left with what is not to go. Of the
hashes in `mapSeenSyncMNB`, those that go are the ones that come next.
-/
theorem checkAndRemove_eq (s : SeenMaps) :
    s.checkAndRemove T env nTime nMinProtocol forceExpiredRemoval =
      if (s.others env nMinProtocol forceExpiredRemoval).getLast?.any (isExpired nTime) then none
      else some
        { man := s.man.checkAndRemove env nTime nMinProtocol forceExpiredRemoval
          mAskedUsForMasternodeList := keep (fun x => !decide (x.2 < nTime))
            s.mAskedUsForMasternodeList
          mWeAskedForMasternodeList := keep (fun x => !decide (x.2 < nTime))
            s.mWeAskedForMasternodeList
          mapSeenSyncMNB := dropKeys (s.ownedHashes env nMinProtocol forceExpiredRemoval ++
              nextHashes T nTime (s.others env nMinProtocol forceExpiredRemoval))
            s.mapSeenSyncMNB } := by
  have hseen : dropKeys (((s.others env nMinProtocol forceExpiredRemoval).filter
        (isExpired nTime)).map Sigma.fst)
      (dropKeys (s.ownedHashes env nMinProtocol forceExpiredRemoval)
        s.man.mapSeenMasternodeBroadcast) =
      (s.man.checkAndRemove env nTime nMinProtocol
        forceExpiredRemoval).mapSeenMasternodeBroadcast := by
    rw [dropKeys_dropKeys, mapSeen_checkAndRemove]
    refine dropKeys_eq_iff.mpr ?_
    intro k _
    rw [mem_goneHashes, List.mem_append]
    simp [and_assoc]
  unfold checkAndRemove
  dsimp only
  rw [removeLoop_eq]
  change (match expireLoop T nTime (s.others env nMinProtocol forceExpiredRemoval) _ with
    | none => none
    | some s => some _) = _
  rw [expireLoop_eq]
  by_cases hlast :
      (s.others env nMinProtocol forceExpiredRemoval).getLast?.any (isExpired nTime) = true
  · rw [if_pos hlast, if_pos hlast]
  · rw [if_neg hlast, if_neg hlast]
    have hpings : keep (fun x => !decide (x.2.sigTime < nTime - MASTERNODE_REMOVAL_SECONDS * 2))
          s.man.mapSeenMasternodePing =
        (s.man.checkAndRemove env nTime nMinProtocol
          forceExpiredRemoval).mapSeenMasternodePing := by
      refine keep_congr ?_
      intro x _
      rw [← decide_not]
      exact decide_eq_decide.mpr not_lt
    have hasked : keep (fun x => !decide (x.2 < nTime))
          (dropKeys ((s.removed env nMinProtocol forceExpiredRemoval).map fun mn => mn.vin.prevout)
            s.man.mWeAskedForMasternodeListEntry) =
        (s.man.checkAndRemove env nTime nMinProtocol
          forceExpiredRemoval).mWeAskedForMasternodeListEntry := by
      unfold dropKeys
      rw [keep_keep]
      refine keep_congr ?_
      intro x _
      rw [Bool.and_comm, Bool.eq_iff_iff]
      simp [removed, @eq_comm _ x.1]
    refine congrArg some (SeenMaps.ext ?_ rfl rfl (dropKeys_dropKeys _ _ _))
    refine Eq.trans ?_ (congrArg₂ (fun seen asked => CMasternodeMan.mk _ seen _ asked) hseen hasked)
    exact congrArg (fun pings => CMasternodeMan.mk _ _ pings _) hpings

/--
**Cleaning up** is exact just if the last broadcast that no removed masternode owns has not
expired, and the hashes next to the expired ones are their own as far as `mapSeenSyncMNB`
goes.
-/
theorem cleansExactly_iff (T : MasternodeText) (env : CTxIn → CheckEnv) (nTime nMinProtocol : Int)
    (forceExpiredRemoval : Bool) (s : SeenMaps) :
    s.CleansExactly T env nTime nMinProtocol forceExpiredRemoval ↔
      s.NextExpires T env nTime nMinProtocol forceExpiredRemoval := by
  unfold CleansExactly
  rw [checkAndRemove_eq]
  by_cases hlast :
      (s.others env nMinProtocol forceExpiredRemoval).getLast?.any (isExpired nTime) = true
  · rw [if_pos hlast]
    constructor
    · rintro ⟨s', hs', -⟩
      exact absurd hs' (by simp)
    · intro h
      exact absurd hlast (by simp [h.last])
  · rw [if_neg hlast]
    -- the hashes that go besides those of removed masternodes are what matters
    have hsync : dropKeys (s.ownedHashes env nMinProtocol forceExpiredRemoval ++
          nextHashes T nTime (s.others env nMinProtocol forceExpiredRemoval)) s.mapSeenSyncMNB =
        dropKeys (s.goneHashes env nTime nMinProtocol forceExpiredRemoval) s.mapSeenSyncMNB ↔
        ∀ hash ∈ s.mapSeenSyncMNB, hash ∉ s.ownedHashes env nMinProtocol forceExpiredRemoval →
          (hash ∈ nextHashes T nTime (s.others env nMinProtocol forceExpiredRemoval) ↔
            ∃ x ∈ s.others env nMinProtocol forceExpiredRemoval,
              isExpired nTime x = true ∧ x.1 = hash) := by
      rw [dropKeys_eq_iff]
      refine forall₂_congr ?_
      intro hash _
      rw [List.mem_append, mem_goneHashes]
      by_cases howned : hash ∈ s.ownedHashes env nMinProtocol forceExpiredRemoval
      · simp [howned]
      · simp [howned]
    constructor
    · rintro ⟨s', hs', -, hgone⟩
      obtain rfl := Option.some.inj hs'
      exact ⟨Bool.eq_false_iff.mpr hlast, hsync.mp hgone⟩
    · intro h
      exact ⟨_, rfl, mapSeen_checkAndRemove s, hsync.mpr h.next⟩

/-- A broadcast that is filed under the time of its signature. -/
def sampleBroadcast (sigTime pingTime : Int) : CMasternodeBroadcast where
  vin := CTxIn.null
  addr := ⟨[], 0⟩
  pubKeyCollateralAddress := []
  pubKeyMasternode := []
  sig := []
  sigTime := sigTime
  protocolVersion := 70000
  lastPing := { CMasternodePing.null with sigTime := pingTime }

/-- No masternodes, and one broadcast, which has expired at the time 100000. -/
def sampleLast : SeenMaps where
  man := { mapSeenMasternodeBroadcast := AList.singleton 1 (sampleBroadcast 1 0) }

/-- One that has expired before one that has not, both in `mapSeenSyncMNB`. -/
def sampleNext : SeenMaps where
  man := { mapSeenMasternodeBroadcast :=
    (AList.singleton 2 (sampleBroadcast 2 100000)).insert 1 (sampleBroadcast 1 0) }
  mapSeenSyncMNB := (AList.singleton 2 1).insert 1 1

/-- An iterator is read at its end, or the hash of a broadcast that stays is forgotten. -/
theorem expired_broadcast_misnamed :
    ¬ sampleLast.CleansExactly CMasternodeMan.sampleText (fun _ => CMasternodeMan.sampleEnv.atPing)
        100000 0 false ∧
      ¬ sampleNext.CleansExactly CMasternodeMan.sampleText
        (fun _ => CMasternodeMan.sampleEnv.atPing) 100000 0 false := by
  constructor
  · have hothers : sampleLast.others (fun _ => CMasternodeMan.sampleEnv.atPing) 0 false =
        [⟨1, sampleBroadcast 1 0⟩] := List.mergeSort_singleton _
    rintro ⟨s', hs', -⟩
    rw [checkAndRemove_eq, hothers] at hs'
    exact absurd hs' (by simp [isExpired, sampleBroadcast, MASTERNODE_REMOVAL_SECONDS])
  · have hothers : sampleNext.others (fun _ => CMasternodeMan.sampleEnv.atPing) 0 false =
        [⟨1, sampleBroadcast 1 0⟩, ⟨2, sampleBroadcast 2 100000⟩] :=
      List.mergeSort_of_pairwise (by decide)
    rintro ⟨s', hs', -, hsync⟩
    rw [checkAndRemove_eq, hothers, if_neg (by decide)] at hs'
    obtain rfl := Option.some.inj hs'
    have hfirst := (dropKeys_eq_iff.mp hsync) 1 (by decide)
    exact absurd hfirst (by decide)

end SeenMaps

end BitBlocks
