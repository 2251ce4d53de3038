import BitBlocks.Lib.Ranking
import BitBlocks.Masternode.Score
import BitBlocks.Masternode.Unique

/-!
# Ranks of masternodes

`GetMasternodeRank` and `GetMasternodeByRank` (`masternodeman.cpp`) sort the masternodes by
their scores for a height. What is compared are not the scores of 256 bits but what
`GetCompact` leaves of them, and `std::sort` may put equal ones in any order. The two
functions do not count the same masternodes: only the first leaves out the young ones.
-/

namespace BitBlocks

open Ranking

/-- What ranking reads of the rest of the node. -/
structure RankEnv where
  text : ScoreText
  /-- The active chain does not change while masternodes are ranked. -/
  hashes : BlockHashes
  /-- `GetSporkValue(SPORK_16_MN_WINNER_MINIMUM_AGE)`. -/
  nMasternode_Min_Age : Int
  /-- `IsSporkActive(SPORK_8_MASTERNODE_PAYMENT_ENFORCEMENT)`. -/
  fEnforced : Bool
  /-- `GetAdjustedTime()`. -/
  nAdjustedTime : Int
  /-- The node at the `Check` of each entry. -/
  check : CTxIn → CheckEnv

namespace CMasternodeMan

/-- A score and the input of a masternode. -/
abbrev ScoreRow := Int × CTxIn

variable (S : Sorting (Prod.fst : ScoreRow → Int)) (env : RankEnv) (nBlockHeight minProtocol : Int)
  (fOnlyActive : Bool)

def score (mn : CMasternode) : Int :=
  getCompact (mn.calculateScore env.text env.hashes nBlockHeight) false

/-- A masternode that was activated a short time ago. -/
def isTooYoung (mn : CMasternode) : Bool :=
  env.fEnforced && decide (env.nAdjustedTime - mn.sigTime < env.nMasternode_Min_Age)

/-- One round of the loops over the list, with a test of the entry that only one of them has. -/
def scanEntry (skip : CMasternode → Bool) (mn : CMasternode) : CMasternode × Option ScoreRow :=
  if mn.protocolVersion < minProtocol then (mn, none)
  else if skip mn then (mn, none)
  else
    let mn := if fOnlyActive then mn.check (env.check mn.vin) else mn
    if fOnlyActive && !mn.isEnabled then (mn, none)
    else (mn, some (score env nBlockHeight mn, mn.vin))

/-- The list after such a loop, and `vecMasternodeScores`. -/
def scan (skip : CMasternode → Bool) (man : CMasternodeMan) : CMasternodeMan × List ScoreRow :=
  ({ man with
      vMasternodes := man.vMasternodes.map fun mn =>
        (scanEntry env nBlockHeight minProtocol fOnlyActive skip mn).1 },
    man.vMasternodes.filterMap fun mn =>
      (scanEntry env nBlockHeight minProtocol fOnlyActive skip mn).2)

/-- The loop over the sorted scores that looks for an outpoint. -/
def rankLoop (prevout : COutPoint) : Int → List ScoreRow → Int
  | _, [] => -1
  | rank, s :: rows => if s.2.prevout = prevout then rank + 1 else rankLoop prevout (rank + 1) rows

/-- The loop over the sorted scores that looks for a rank. -/
def byRankLoop (nRank : Int) : Int → List ScoreRow → Option CTxIn
  | _, [] => none
  | rank, s :: rows => if rank + 1 = nRank then some s.2 else byRankLoop nRank (rank + 1) rows

def getMasternodeRank (man : CMasternodeMan) (vin : CTxIn) : CMasternodeMan × Int :=
  -- make sure we know about this block
  match (env.hashes.getBlockHash (nBlockHeight.bmod (2 ^ 32))).2 with
  | none => (man, -1)
  | some _ =>
    let (man, vecMasternodeScores) :=
      man.scan env nBlockHeight minProtocol fOnlyActive (isTooYoung env)
    (man, rankLoop vin.prevout 0 (S.sort vecMasternodeScores))

def getMasternodeByRank (man : CMasternodeMan) (nRank : Int) :
    CMasternodeMan × Option CMasternode :=
  let (man, vecMasternodeScores) :=
    man.scan env nBlockHeight minProtocol fOnlyActive fun _ => false
  match byRankLoop nRank 0 (S.sort vecMasternodeScores) with
  | none => (man, none)
  | some vin => (man, man.find vin)

/-! ## The masternodes that are scored -/

/-- Neither obsolete nor, where that is asked for, inactive. -/
def isEligible (mn : CMasternode) : Bool := decide (minProtocol ≤ mn.protocolVersion) &&
    (!fOnlyActive || (mn.check (env.check mn.vin)).isEnabled)

def scoreRow (mn : CMasternode) : ScoreRow := (score env nBlockHeight mn, mn.vin)

def rowKey (s : ScoreRow) : COutPoint := s.2.prevout

/-- The masternodes `GetMasternodeRank` counts. -/
def counted (man : CMasternodeMan) : List CMasternode :=
  match (env.hashes.getBlockHash (nBlockHeight.bmod (2 ^ 32))).2 with
  | none => []
  | some _ => man.vMasternodes.filter fun mn =>
    isEligible env minProtocol fOnlyActive mn && !isTooYoung env mn

/-- Different masternodes have different scores, and a young one is below all that count. -/
structure Distinguished (man : CMasternodeMan) : Prop where
  scores : ((man.counted env nBlockHeight minProtocol fOnlyActive).map
    (score env nBlockHeight)).Nodup
  young : ∀ mn ∈ man.vMasternodes, isEligible env minProtocol fOnlyActive mn = true →
    isTooYoung env mn = true → ∀ mn' ∈ man.counted env nBlockHeight minProtocol fOnlyActive,
      score env nBlockHeight mn < score env nBlockHeight mn'

/-- The ranks are those of every node with these masternodes, one for each, and can be undone. -/
structure RanksAgree (man : CMasternodeMan) : Prop where
  same : ∀ (S S' : Sorting (Prod.fst : ScoreRow → Int)) (man' : CMasternodeMan),
    man.vMasternodes.Perm man'.vMasternodes → ∀ vin,
      (man.getMasternodeRank S env nBlockHeight minProtocol fOnlyActive vin).2 =
        (man'.getMasternodeRank S' env nBlockHeight minProtocol fOnlyActive vin).2
  bijective : ∀ S : Sorting (Prod.fst : ScoreRow → Int), Set.BijOn (fun mn : CMasternode =>
        (man.getMasternodeRank S env nBlockHeight minProtocol fOnlyActive mn.vin).2)
      {mn | mn ∈ man.counted env nBlockHeight minProtocol fOnlyActive}
      {n | 1 ≤ n ∧ n ≤ ((man.counted env nBlockHeight minProtocol fOnlyActive).length : Int)}
  inverse : ∀ (S : Sorting (Prod.fst : ScoreRow → Int)),
    ∀ mn ∈ man.counted env nBlockHeight minProtocol fOnlyActive,
      let ranked := man.getMasternodeRank S env nBlockHeight minProtocol fOnlyActive mn.vin
      (ranked.1.getMasternodeByRank S env nBlockHeight minProtocol fOnlyActive ranked.2).2.map
        CMasternode.vin = some mn.vin

variable {S env nBlockHeight minProtocol fOnlyActive} {man : CMasternodeMan}

theorem rankLoop_eq (prevout : COutPoint) (rank : Int) (rows : List ScoreRow) :
    rankLoop prevout rank rows =
      match place rowKey prevout rows with
      | none => -1
      | some n => rank + n + 1 := by
  induction rows generalizing rank with
  | nil => rfl
  | cons s rows ih =>
    unfold rankLoop
    unfold place at ih ⊢
    rw [List.findIdx?_cons]
    by_cases hs : s.2.prevout = prevout
    · have hkey : (rowKey s == prevout) = true := by simpa [rowKey] using hs
      rw [if_pos hs, hkey]
      simp
    · have hkey : (rowKey s == prevout) = false := by simpa [rowKey] using hs
      rw [if_neg hs, hkey, ih]
      cases List.findIdx? (fun x => rowKey x == prevout) rows with
      | none => rfl
      | some n =>
        simp
        omega

theorem byRankLoop_eq (n : Nat) (rank : Int) (rows : List ScoreRow) :
    byRankLoop (rank + n + 1) rank rows = (rows[n]?).map Prod.snd := by
  induction rows generalizing rank n with
  | nil => rfl
  | cons s rows ih =>
    unfold byRankLoop
    cases n with
    | zero => simp
    | succ n =>
      rw [if_neg (by omega)]
      have hnext : rank + ((n + 1 : Nat) : Int) + 1 = (rank + 1) + n + 1 := by omega
      rw [hnext, ih]
      simp

/-! ## The rows of a scan -/

variable {mn : CMasternode} {skip : CMasternode → Bool}

theorem scoreRow_check (env : RankEnv) (nBlockHeight : Int) (mn : CMasternode) (checkEnv : CheckEnv)
    (forceCheck : Bool) :
    scoreRow env nBlockHeight (mn.check checkEnv forceCheck) = scoreRow env nBlockHeight mn := by
  obtain ⟨activeState, h⟩ := mn.check_eq checkEnv forceCheck
  rw [h]
  rfl

theorem scanEntry_snd : (scanEntry env nBlockHeight minProtocol fOnlyActive skip mn).2 =
      if isEligible env minProtocol fOnlyActive mn && !skip mn then
        some (scoreRow env nBlockHeight mn)
      else none := by
  have hscore := congrArg Prod.fst (scoreRow_check env nBlockHeight mn (env.check mn.vin) false)
  unfold scoreRow at hscore
  unfold scanEntry isEligible
  by_cases hold : mn.protocolVersion < minProtocol
  · have hnot : ¬ minProtocol ≤ mn.protocolVersion := by omega
    simp [hold, hnot]
  · have hproto : minProtocol ≤ mn.protocolVersion := by omega
    rw [if_neg hold, decide_eq_true hproto, Bool.true_and]
    cases hskip : skip mn with
    | true => simp
    | false =>
      cases fOnlyActive with
      | false => simp [scoreRow]
      | true =>
        cases henabled : (mn.check (env.check mn.vin)).isEnabled with
        | false => simp [henabled]
        | true => simpa [henabled, scoreRow] using hscore

theorem scan_snd (man : CMasternodeMan) :
    (man.scan env nBlockHeight minProtocol fOnlyActive skip).2 =
      (man.vMasternodes.filter fun mn => isEligible env minProtocol fOnlyActive mn && !skip mn).map
        (scoreRow env nBlockHeight) := by
  unfold scan
  rw [← List.filterMap_eq_filter, List.map_filterMap]
  refine List.filterMap_congr fun mn _ => ?_
  rw [scanEntry_snd]
  by_cases hcounts : (isEligible env minProtocol fOnlyActive mn && !skip mn) = true
  · simp [hcounts]
  · simp [hcounts]

theorem scanEntry_scanEntry : (scanEntry env nBlockHeight minProtocol fOnlyActive (fun _ => false)
        (scanEntry env nBlockHeight minProtocol fOnlyActive skip mn).1).2 =
      (scanEntry env nBlockHeight minProtocol fOnlyActive (fun _ => false) mn).2 := by
  have hentry : (scanEntry env nBlockHeight minProtocol fOnlyActive skip mn).1 = mn ∨
      (scanEntry env nBlockHeight minProtocol fOnlyActive skip mn).1 =
        mn.check (env.check mn.vin) := by
    unfold scanEntry
    split
    · exact Or.inl rfl
    · split
      · exact Or.inl rfl
      · cases fOnlyActive with
        | false => exact Or.inl rfl
        | true =>
          dsimp only
          rw [if_pos rfl]
          split <;> exact Or.inr rfl
  rcases hentry with heq | heq
  · rw [heq]
  · have hsame : isEligible env minProtocol fOnlyActive (mn.check (env.check mn.vin)) =
        isEligible env minProtocol fOnlyActive mn := by
      unfold isEligible
      rw [CMasternode.check_vin, CMasternode.check_check]
      obtain ⟨activeState, h⟩ := mn.check_eq (env.check mn.vin) false
      rw [h]
    rw [heq, scanEntry_snd, scanEntry_snd, scoreRow_check, hsame]

theorem scan_scan_snd (man : CMasternodeMan) :
    ((man.scan env nBlockHeight minProtocol fOnlyActive skip).1.scan env nBlockHeight minProtocol
        fOnlyActive fun _ => false).2 =
      (man.scan env nBlockHeight minProtocol fOnlyActive fun _ => false).2 := by
  unfold scan
  rw [List.filterMap_map]
  exact List.filterMap_congr fun mn _ => scanEntry_scanEntry

theorem scan_vins (man : CMasternodeMan) :
    (man.scan env nBlockHeight minProtocol fOnlyActive skip).1.vins = man.vins := by
  unfold scan vins
  rw [List.map_map]
  refine List.map_congr_left fun mn _ => ?_
  rw [Function.comp_apply]
  unfold scanEntry
  split
  · rfl
  · split
    · rfl
    · dsimp only
      split <;> (split <;> simp)

theorem Unique.find_vin (h : man.Unique) {vin : CTxIn} (hvin : vin ∈ man.vins) :
    (man.find vin).map CMasternode.vin = some vin := by
  obtain ⟨mn, hmn, rfl⟩ := List.mem_map.mp hvin
  have hfound : man.find mn.vin = some mn := Rows.first_of_mem h hmn
  rw [hfound]
  rfl

/-! ## The rows that are sorted -/

/-- The rows `GetMasternodeByRank` sorts. -/
def allRows (env : RankEnv) (nBlockHeight minProtocol : Int) (fOnlyActive : Bool)
    (man : CMasternodeMan) : List ScoreRow :=
  (man.vMasternodes.filter (isEligible env minProtocol fOnlyActive)).map (scoreRow env nBlockHeight)

/-- The rows `GetMasternodeRank` sorts. -/
def countedRows (env : RankEnv) (nBlockHeight minProtocol : Int) (fOnlyActive : Bool)
    (man : CMasternodeMan) : List ScoreRow :=
  (man.counted env nBlockHeight minProtocol fOnlyActive).map (scoreRow env nBlockHeight)

/-- The rows of the masternodes that are counted, among all. -/
def isCounted (env : RankEnv) (nBlockHeight minProtocol : Int) (fOnlyActive : Bool)
    (man : CMasternodeMan) (s : ScoreRow) : Bool :=
  decide (s ∈ countedRows env nBlockHeight minProtocol fOnlyActive man)

theorem Unique.nodup_map (h : man.Unique) {l : List CMasternode}
    (hl : l.Sublist man.vMasternodes) : ((l.map (scoreRow env nBlockHeight)).map rowKey).Nodup := by
  rw [List.map_map]
  exact List.Nodup.sublist (hl.map prevoutOf) h

theorem Unique.row_inj (h : man.Unique) {mn mn' : CMasternode} (hmn : mn ∈ man.vMasternodes)
    (hmn' : mn' ∈ man.vMasternodes)
    (heq : scoreRow env nBlockHeight mn = scoreRow env nBlockHeight mn') : mn = mn' :=
  List.inj_on_of_nodup_map h hmn hmn' (congrArg rowKey heq)

theorem counted_sublist :
    (man.counted env nBlockHeight minProtocol fOnlyActive).Sublist man.vMasternodes := by
  unfold counted
  split
  · exact List.nil_sublist _
  · exact List.filter_sublist

section

variable {hash : Uint256}
  (hhash : (env.hashes.getBlockHash (nBlockHeight.bmod (2 ^ 32))).2 = some hash)

include hhash

theorem mem_counted (mn : CMasternode) : mn ∈ man.counted env nBlockHeight minProtocol fOnlyActive ↔
      mn ∈ man.vMasternodes ∧ isEligible env minProtocol fOnlyActive mn = true ∧
        isTooYoung env mn = false := by
  unfold counted
  rw [hhash]
  simp

theorem isCounted_scoreRow (h : man.Unique) (hmn : mn ∈ man.vMasternodes) :
    isCounted env nBlockHeight minProtocol fOnlyActive man (scoreRow env nBlockHeight mn) =
      (isEligible env minProtocol fOnlyActive mn && !isTooYoung env mn) := by
  unfold isCounted countedRows
  rw [Bool.eq_iff_iff, decide_eq_true_eq, List.mem_map]
  constructor
  · intro ⟨mn', hmn', heq⟩
    have hboth := (mem_counted hhash mn').mp hmn'
    obtain rfl := h.row_inj hboth.1 hmn heq
    rw [hboth.2.1, hboth.2.2]
    rfl
  · intro hcounts
    obtain ⟨heligible, hold⟩ := Bool.and_eq_true_iff.mp hcounts
    exact ⟨mn, (mem_counted hhash mn).mpr ⟨hmn, heligible, by simpa using hold⟩, rfl⟩

theorem filter_allRows (h : man.Unique) :
    (allRows env nBlockHeight minProtocol fOnlyActive man).filter
        (isCounted env nBlockHeight minProtocol fOnlyActive man) =
      countedRows env nBlockHeight minProtocol fOnlyActive man := by
  unfold allRows countedRows
  rw [List.filter_map, List.filter_filter]
  unfold counted
  rw [hhash]
  refine congrArg (List.map _) (List.filter_congr fun mn hmn => ?_)
  rw [Function.comp_apply, isCounted_scoreRow hhash h hmn]
  cases isEligible env minProtocol fOnlyActive mn <;> cases isTooYoung env mn <;> rfl

/-- **The rank** of an outpoint is its place among the sorted rows, counted from one. -/
theorem getMasternodeRank_eq (man : CMasternodeMan) (vin : CTxIn) :
    (man.getMasternodeRank S env nBlockHeight minProtocol fOnlyActive vin).2 =
      match place rowKey vin.prevout
        (S.sort (countedRows env nBlockHeight minProtocol fOnlyActive man)) with
      | none => -1
      | some n => n + 1 := by
  unfold getMasternodeRank countedRows counted
  rw [hhash]
  dsimp only
  rw [rankLoop_eq, scan_snd]
  split <;> simp

/-- **The masternode of a rank**, asked for after a rank was. -/
theorem getMasternodeByRank_eq (h : man.Unique) (vin : CTxIn) (n : Nat) :
    ((man.getMasternodeRank S env nBlockHeight minProtocol fOnlyActive vin).1.getMasternodeByRank S
        env nBlockHeight minProtocol fOnlyActive (n + 1)).2.map CMasternode.vin =
      (S.sort (allRows env nBlockHeight minProtocol fOnlyActive man))[n]?.map Prod.snd := by
  have hrows : ((man.scan env nBlockHeight minProtocol fOnlyActive (isTooYoung env)).1.scan env
        nBlockHeight minProtocol fOnlyActive fun _ => false).2 =
      allRows env nBlockHeight minProtocol fOnlyActive man := by
    rw [scan_scan_snd, scan_snd]
    simp [allRows]
  have hvins : ((man.scan env nBlockHeight minProtocol fOnlyActive (isTooYoung env)).1.scan env
        nBlockHeight minProtocol fOnlyActive fun _ => false).1.vins = man.vins := by
    rw [scan_vins, scan_vins]
  have hrank : (0 : Int) + n + 1 = n + 1 := by omega
  unfold getMasternodeRank getMasternodeByRank
  rw [hhash]
  dsimp only
  rw [hrows, ← hrank, byRankLoop_eq]
  cases hrow : (S.sort (allRows env nBlockHeight minProtocol fOnlyActive man))[n]? with
  | none => rfl
  | some s =>
    rw [Option.map_some]
    dsimp only
    have hmem : s ∈ allRows env nBlockHeight minProtocol fOnlyActive man :=
      mem_sort.mp (List.mem_of_getElem? hrow)
    obtain ⟨mn, hmn, rfl⟩ := List.mem_map.mp hmem
    have hvin : mn.vin ∈ man.vins := List.mem_map.mpr ⟨mn, (List.mem_filter.mp hmn).1, rfl⟩
    rw [← hvins] at hvin
    exact (h.congr hvins).find_vin hvin

end

/-! ## When ranks agree -/

theorem scores_countedRows :
    (countedRows env nBlockHeight minProtocol fOnlyActive man).map Prod.fst =
      (man.counted env nBlockHeight minProtocol fOnlyActive).map (score env nBlockHeight) := by
  unfold countedRows
  rw [List.map_map]
  rfl

theorem nodup_countedRows (h : man.Unique) :
    ((countedRows env nBlockHeight minProtocol fOnlyActive man).map rowKey).Nodup :=
  h.nodup_map counted_sublist

theorem nodup_allRows (h : man.Unique) :
    ((allRows env nBlockHeight minProtocol fOnlyActive man).map rowKey).Nodup :=
  h.nodup_map List.filter_sublist

theorem nodup_sort {l : List ScoreRow} (hl : (l.map rowKey).Nodup) :
    ((S.sort l).map rowKey).Nodup :=
  ((S.perm l).map rowKey).nodup_iff.mpr hl

theorem rank_perm (h : ((man.counted env nBlockHeight minProtocol fOnlyActive).map
      (score env nBlockHeight)).Nodup) (S S' : Sorting (Prod.fst : ScoreRow → Int))
    {man' : CMasternodeMan} (hperm : man.vMasternodes.Perm man'.vMasternodes) (vin : CTxIn) :
    (man.getMasternodeRank S env nBlockHeight minProtocol fOnlyActive vin).2 =
      (man'.getMasternodeRank S' env nBlockHeight minProtocol fOnlyActive vin).2 := by
  cases hhash : (env.hashes.getBlockHash (nBlockHeight.bmod (2 ^ 32))).2 with
  | none =>
    unfold getMasternodeRank
    rw [hhash]
  | some hash =>
    have hrows : (countedRows env nBlockHeight minProtocol fOnlyActive man).Perm
        (countedRows env nBlockHeight minProtocol fOnlyActive man') := by
      unfold countedRows counted
      rw [hhash]
      exact (hperm.filter _).map _
    have hscores : ((countedRows env nBlockHeight minProtocol fOnlyActive man).map
        Prod.fst).Nodup := by
      rw [scores_countedRows]
      exact h
    rw [getMasternodeRank_eq hhash, getMasternodeRank_eq hhash, sort_unique S S' hscores hrows]

/-- A rank is the place of the row with the outpoint, counted from one. -/
theorem rank_eq_iff {hash : Uint256}
    (hhash : (env.hashes.getBlockHash (nBlockHeight.bmod (2 ^ 32))).2 = some hash) (h : man.Unique)
    (vin : CTxIn) (n : Nat) :
    (man.getMasternodeRank S env nBlockHeight minProtocol fOnlyActive vin).2 = n + 1 ↔
      ∃ s, (S.sort (countedRows env nBlockHeight minProtocol fOnlyActive man))[n]? = some s ∧
        rowKey s = vin.prevout := by
  rw [getMasternodeRank_eq hhash, ← place_eq_some (nodup_sort (nodup_countedRows h))]
  cases place rowKey vin.prevout
      (S.sort (countedRows env nBlockHeight minProtocol fOnlyActive man)) with
  | none =>
    constructor
    · intro hrank
      dsimp only at hrank
      omega
    · intro hplace
      exact absurd hplace (by simp)
  | some m =>
    rw [Option.some.injEq]
    constructor
    · intro hrank
      have hsame : (m : Int) + 1 = n + 1 := hrank
      omega
    · intro hplace
      rw [hplace]

theorem rank_bijOn (h : man.Unique) (S : Sorting (Prod.fst : ScoreRow → Int)) : Set.BijOn
      (fun mn : CMasternode =>
        (man.getMasternodeRank S env nBlockHeight minProtocol fOnlyActive mn.vin).2)
      {mn | mn ∈ man.counted env nBlockHeight minProtocol fOnlyActive}
      {n | 1 ≤ n ∧ n ≤ ((man.counted env nBlockHeight minProtocol fOnlyActive).length : Int)} := by
  cases hhash : (env.hashes.getBlockHash (nBlockHeight.bmod (2 ^ 32))).2 with
  | none =>
    have hnone : man.counted env nBlockHeight minProtocol fOnlyActive = [] := by
      unfold counted
      rw [hhash]
    rw [hnone]
    refine ⟨fun mn hmn => absurd hmn (by simp), fun mn hmn => absurd hmn (by simp), ?_⟩
    intro n ⟨hlow, hhigh⟩
    simp at hhigh
    omega
  | some hash =>
    have hlength : (S.sort (countedRows env nBlockHeight minProtocol fOnlyActive man)).length =
        (man.counted env nBlockHeight minProtocol fOnlyActive).length := by
      rw [(S.perm _).length_eq]
      exact List.length_map _
    -- the rank of a masternode that is counted, and its row
    have hranked : ∀ mn ∈ man.counted env nBlockHeight minProtocol fOnlyActive, ∃ n : Nat,
        (S.sort (countedRows env nBlockHeight minProtocol fOnlyActive man))[n]? =
            some (scoreRow env nBlockHeight mn) ∧
          (man.getMasternodeRank S env nBlockHeight minProtocol fOnlyActive mn.vin).2 = n + 1 := by
      intro mn hmn
      have hmem : scoreRow env nBlockHeight mn ∈
          S.sort (countedRows env nBlockHeight minProtocol fOnlyActive man) :=
        mem_sort.mpr (List.mem_map.mpr ⟨mn, hmn, rfl⟩)
      obtain ⟨n, hn⟩ := List.mem_iff_getElem?.mp hmem
      exact ⟨n, hn, (rank_eq_iff hhash h mn.vin n).mpr ⟨_, hn, rfl⟩⟩
    refine ⟨?_, ?_, ?_⟩
    · intro mn hmn
      obtain ⟨n, hn, hrank⟩ := hranked mn hmn
      have hlt := (List.getElem?_eq_some_iff.mp hn).1
      rw [hlength] at hlt
      have hrange : (1 : Int) ≤ n + 1 ∧
          (n : Int) + 1 ≤ (man.counted env nBlockHeight minProtocol fOnlyActive).length := by
        omega
      rw [← hrank] at hrange
      exact hrange
    · intro mn hmn mn' hmn' hsame
      obtain ⟨n, hn, hrank⟩ := hranked mn hmn
      obtain ⟨n', hn', hrank'⟩ := hranked mn' hmn'
      dsimp only at hsame
      rw [hrank, hrank'] at hsame
      obtain rfl : n = n' := by omega
      rw [hn, Option.some.injEq] at hn'
      exact h.row_inj (counted_sublist.subset hmn) (counted_sublist.subset hmn') hn'
    · intro rank hrank
      obtain ⟨hlow, hhigh⟩ := hrank
      have hlt : (rank - 1).toNat <
          (S.sort (countedRows env nBlockHeight minProtocol fOnlyActive man)).length := by omega
      obtain ⟨mn, hmn, hrow⟩ := List.mem_map.mp (mem_sort.mp (List.getElem_mem hlt))
      refine ⟨mn, hmn, ?_⟩
      have hat := (rank_eq_iff hhash h mn.vin (rank - 1).toNat).mpr
        ⟨_, List.getElem?_eq_getElem hlt, by rw [← hrow]; rfl⟩
      dsimp only
      rw [hat]
      omega

/-- With the young ones below, the masternode of a rank is the one that has it. -/
theorem byRank_rank (h : man.Unique)
    (hdist : Distinguished env nBlockHeight minProtocol fOnlyActive man)
    (S : Sorting (Prod.fst : ScoreRow → Int)) (mn : CMasternode)
    (hmn : mn ∈ man.counted env nBlockHeight minProtocol fOnlyActive) :
    let ranked := man.getMasternodeRank S env nBlockHeight minProtocol fOnlyActive mn.vin
    (ranked.1.getMasternodeByRank S env nBlockHeight minProtocol fOnlyActive ranked.2).2.map
      CMasternode.vin = some mn.vin := by
  cases hhash : (env.hashes.getBlockHash (nBlockHeight.bmod (2 ^ 32))).2 with
  | none =>
    unfold counted at hmn
    rw [hhash] at hmn
    exact absurd hmn (by simp)
  | some hash =>
    obtain ⟨hlist, heligible, hold⟩ := (mem_counted hhash mn).mp hmn
    have hscores : ((countedRows env nBlockHeight minProtocol fOnlyActive man).map
        Prod.fst).Nodup := by
      rw [scores_countedRows]
      exact hdist.scores
    have hrow : scoreRow env nBlockHeight mn ∈
        allRows env nBlockHeight minProtocol fOnlyActive man :=
      List.mem_map.mpr ⟨mn, List.mem_filter.mpr ⟨hlist, heligible⟩, rfl⟩
    -- only rows of young masternodes are left out, and they come after
    have hlow : ∀ s ∈ allRows env nBlockHeight minProtocol fOnlyActive man,
        isCounted env nBlockHeight minProtocol fOnlyActive man s = false →
          s.1 < (scoreRow env nBlockHeight mn).1 := by
      intro s hs hleft
      obtain ⟨mn', hmn', rfl⟩ := List.mem_map.mp hs
      obtain ⟨hlist', heligible'⟩ := List.mem_filter.mp hmn'
      rw [isCounted_scoreRow hhash h hlist', heligible', Bool.true_and] at hleft
      exact hdist.young mn' hlist' heligible' (by simpa using hleft) mn hmn
    have hplace := place_filter (nodup_sort (S := S) (nodup_allRows h)) hrow
      (by rw [isCounted_scoreRow hhash h hlist, heligible, hold]; rfl) hlow
    rw [filter_sort S _ (by rw [filter_allRows hhash h]; exact hscores), filter_allRows hhash h]
      at hplace
    obtain ⟨n, hn⟩ := List.mem_iff_getElem?.mp ((mem_sort (S := S)).mpr hrow)
    have hall := (place_eq_some (nodup_sort (S := S) (nodup_allRows h))).mpr ⟨_, hn, rfl⟩
    rw [hall] at hplace
    have hrank : (man.getMasternodeRank S env nBlockHeight minProtocol fOnlyActive mn.vin).2 =
        n + 1 := by
      rw [getMasternodeRank_eq hhash]
      have hkey : rowKey (scoreRow env nBlockHeight mn) = mn.vin.prevout := rfl
      rw [← hkey, hplace]
    dsimp only
    rw [hrank, getMasternodeByRank_eq hhash h, hn]
    rfl

theorem RanksAgree.scores (h : man.Unique)
    (hagree : RanksAgree env nBlockHeight minProtocol fOnlyActive man) :
    ((man.counted env nBlockHeight minProtocol fOnlyActive).map
      (score env nBlockHeight)).Nodup := by
  have hnodup : (man.counted env nBlockHeight minProtocol fOnlyActive).Nodup :=
    List.Nodup.of_map prevoutOf (List.Nodup.sublist (counted_sublist.map prevoutOf) h)
  refine List.Nodup.map_on ?_ hnodup
  intro mn hmn mn' hmn' hscore
  by_contra hne
  cases hhash : (env.hashes.getBlockHash (nBlockHeight.bmod (2 ^ 32))).2 with
  | none =>
    unfold counted at hmn
    rw [hhash] at hmn
    exact absurd hmn (by simp)
  | some hash =>
    have hrow : scoreRow env nBlockHeight mn ∈
        countedRows env nBlockHeight minProtocol fOnlyActive man :=
      List.mem_map.mpr ⟨mn, hmn, rfl⟩
    have hrow' : scoreRow env nBlockHeight mn' ∈
        countedRows env nBlockHeight minProtocol fOnlyActive man :=
      List.mem_map.mpr ⟨mn', hmn', rfl⟩
    have hrows : scoreRow env nBlockHeight mn ≠ scoreRow env nBlockHeight mn' := fun heq =>
      hne (h.row_inj (counted_sublist.subset hmn) (counted_sublist.subset hmn') heq)
    obtain ⟨S, hbefore⟩ : ∃ S : Sorting (Prod.fst : ScoreRow → Int),
        [scoreRow env nBlockHeight mn, scoreRow env nBlockHeight mn'].Sublist (S.sort _) :=
      exists_before hrow hrow' hrows (le_of_eq hscore.symm)
    obtain ⟨S', hafter⟩ : ∃ S : Sorting (Prod.fst : ScoreRow → Int),
        [scoreRow env nBlockHeight mn', scoreRow env nBlockHeight mn].Sublist (S.sort _) :=
      exists_before hrow' hrow hrows.symm (le_of_eq hscore)
    obtain ⟨m, n, hm, hn, hlt⟩ := place_lt (nodup_sort (nodup_countedRows h)) hbefore
    obtain ⟨n', m', hn', hm', hlt'⟩ := place_lt (nodup_sort (nodup_countedRows h)) hafter
    have hkey : ∀ mn, rowKey (scoreRow env nBlockHeight mn) = mn.vin.prevout := fun _ => rfl
    have hsame := hagree.same S S' man (List.Perm.refl _) mn.vin
    have hsame' := hagree.same S S' man (List.Perm.refl _) mn'.vin
    rw [getMasternodeRank_eq hhash, getMasternodeRank_eq hhash, ← hkey, hm, hm'] at hsame
    rw [getMasternodeRank_eq hhash, getMasternodeRank_eq hhash, ← hkey, hn, hn'] at hsame'
    have hm1 : (m : Int) + 1 = m' + 1 := hsame
    have hn1 : (n : Int) + 1 = n' + 1 := hsame'
    omega

/-- A young masternode that is not below takes the rank from one that counts. -/
theorem RanksAgree.young (h : man.Unique)
    (hagree : RanksAgree env nBlockHeight minProtocol fOnlyActive man) {mn mn' : CMasternode}
    (hmn : mn ∈ man.vMasternodes) (heligible : isEligible env minProtocol fOnlyActive mn = true)
    (hyoung : isTooYoung env mn = true)
    (hmn' : mn' ∈ man.counted env nBlockHeight minProtocol fOnlyActive) :
    score env nBlockHeight mn < score env nBlockHeight mn' := by
  by_contra hhigh
  have hle : score env nBlockHeight mn' ≤ score env nBlockHeight mn := by omega
  cases hhash : (env.hashes.getBlockHash (nBlockHeight.bmod (2 ^ 32))).2 with
  | none =>
    unfold counted at hmn'
    rw [hhash] at hmn'
    exact absurd hmn' (by simp)
  | some hash =>
    obtain ⟨hlist, heligible', hold⟩ := (mem_counted hhash mn').mp hmn'
    have hrow : scoreRow env nBlockHeight mn ∈
        allRows env nBlockHeight minProtocol fOnlyActive man :=
      List.mem_map.mpr ⟨mn, List.mem_filter.mpr ⟨hmn, heligible⟩, rfl⟩
    have hrow' : scoreRow env nBlockHeight mn' ∈
        allRows env nBlockHeight minProtocol fOnlyActive man :=
      List.mem_map.mpr ⟨mn', List.mem_filter.mpr ⟨hlist, heligible'⟩, rfl⟩
    have hleft : isCounted env nBlockHeight minProtocol fOnlyActive man
        (scoreRow env nBlockHeight mn) = false := by
      rw [isCounted_scoreRow hhash h hmn, heligible, hyoung]
      rfl
    have hcounts : isCounted env nBlockHeight minProtocol fOnlyActive man
        (scoreRow env nBlockHeight mn') = true := by
      rw [isCounted_scoreRow hhash h hlist, heligible', hold]
      rfl
    have hrows : scoreRow env nBlockHeight mn ≠ scoreRow env nBlockHeight mn' := by
      intro heq
      rw [heq, hcounts] at hleft
      exact absurd hleft (by simp)
    obtain ⟨S, hbefore⟩ : ∃ S : Sorting (Prod.fst : ScoreRow → Int),
        [scoreRow env nBlockHeight mn, scoreRow env nBlockHeight mn'].Sublist (S.sort _) :=
      exists_before hrow hrow' hrows hle
    obtain ⟨m, n, hm, hn, hlt⟩ :=
      place_filter_lt (nodup_sort (nodup_allRows h)) hbefore hleft hcounts
    have hscores : ((countedRows env nBlockHeight minProtocol fOnlyActive man).map
        Prod.fst).Nodup := by
      rw [scores_countedRows]
      exact RanksAgree.scores h hagree
    rw [filter_sort S _ (by rw [filter_allRows hhash h]; exact hscores), filter_allRows hhash h]
      at hm
    have hrank : (man.getMasternodeRank S env nBlockHeight minProtocol fOnlyActive mn'.vin).2 =
        m + 1 := by
      rw [getMasternodeRank_eq hhash]
      have hkey : rowKey (scoreRow env nBlockHeight mn') = mn'.vin.prevout := rfl
      rw [← hkey, hm]
    have hinverse := hagree.inverse S mn' hmn'
    dsimp only at hinverse
    rw [hrank, getMasternodeByRank_eq hhash h] at hinverse
    -- the row at the rank is another one
    obtain ⟨s, hs, hvin⟩ := Option.map_eq_some_iff.mp hinverse
    have hat := (place_eq_some (nodup_sort (nodup_allRows h))).mpr
      ⟨s, hs, congrArg CTxIn.prevout hvin⟩
    have hkey : rowKey (scoreRow env nBlockHeight mn') = mn'.vin.prevout := rfl
    rw [← hkey, hn, Option.some.injEq] at hat
    omega

/--
**Ranks agree** just when no two of the masternodes that are counted have one score, as
`GetCompact` leaves it, and all that are only left out for their age have lower ones.
-/
theorem ranksAgree_iff (env : RankEnv) (nBlockHeight minProtocol : Int) (fOnlyActive : Bool)
    (man : CMasternodeMan) (h : man.Unique) :
    RanksAgree env nBlockHeight minProtocol fOnlyActive man ↔
      Distinguished env nBlockHeight minProtocol fOnlyActive man := by
  constructor
  · intro hagree
    refine ⟨RanksAgree.scores h hagree, ?_⟩
    intro mn hmn heligible hyoung mn' hmn'
    exact RanksAgree.young h hagree hmn heligible hyoung hmn'
  · intro hdist
    refine ⟨?_, rank_bijOn h, ?_⟩
    · intro S S' man' hperm vin
      exact rank_perm hdist.scores S S' hperm vin
    · intro S mn hmn
      exact byRank_rank h hdist S mn hmn

/-! ## A few masternodes -/

/-- A node on a short chain; the scores are large numbers that differ in their last bits. -/
def sampleRankEnv : RankEnv where
  text := ⟨fun _ => 0, fun _ aux => 2 ^ 200 + aux⟩
  hashes := { chain := BlockHashes.sampleChain 101 102 }
  nMasternode_Min_Age := 8000
  fEnforced := true
  nAdjustedTime := 20000
  check _ := { nAdjustedTime := 20000, acceptableInputs := fun _ => true }

/-- A masternode with the collateral `5-n`. -/
def sampleMasternode (n : Nat) : CMasternode where
  vin := ⟨⟨5, n⟩, [], 2 ^ 32 - 1⟩
  addr := ⟨[], 58697⟩
  pubKeyCollateralAddress := [7]
  pubKeyMasternode := [8]
  sig := [1]
  sigTime := 9000
  protocolVersion := 70000
  lastPing := ⟨⟨⟨5, n⟩, [], 2 ^ 32 - 1⟩, 0, 19990, [1]⟩

/-- Four masternodes; the second one is young. -/
def sampleRanked : CMasternodeMan where
  vMasternodes := [sampleMasternode 2, { sampleMasternode 0 with sigTime := 15000 },
    sampleMasternode 1, sampleMasternode 3]

/-- The same node with scores that are far apart. -/
def distinctRankEnv : RankEnv :=
  { sampleRankEnv with text := ⟨fun _ => 0, fun _ aux => 2 ^ 200 * aux⟩ }

/-- The young one has the lowest score, and the other three have the ranks of theirs. -/
theorem ranksAgree_iff_ranked : RanksAgree distinctRankEnv 2 70000 true sampleRanked ∧
      sampleRanked.vMasternodes.map (fun mn =>
        (sampleRanked.getMasternodeRank (inOrder _) distinctRankEnv 2 70000 true mn.vin).2)
        = [2, -1, 3, 1] := by
  have hunique : (sampleRanked.vMasternodes.map prevoutOf).Nodup := by decide
  exact ⟨(ranksAgree_iff distinctRankEnv 2 70000 true sampleRanked hunique).mpr
    ⟨by decide, by decide⟩, by decide⟩

/-- **Two masternodes change ranks** with their places in the list. -/
theorem ranks_follow_list :
    let man : CMasternodeMan := { vMasternodes := [sampleMasternode 0, sampleMasternode 1] }
    let man' : CMasternodeMan := { vMasternodes := [sampleMasternode 1, sampleMasternode 0] }
    (man.getMasternodeRank (inOrder _) sampleRankEnv 2 70000 true (sampleMasternode 0).vin).2 = 1 ∧
      (man'.getMasternodeRank (inOrder _) sampleRankEnv 2 70000 true (sampleMasternode 0).vin).2 =
        2 := by
  decide

end CMasternodeMan

end BitBlocks
