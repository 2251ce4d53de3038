import BitBlocks.Stake.Kernel

/-!
# The next stake modifier

`ComputeNextStakeModifier` collects a bit from each of up to 64 blocks: a round selects the
candidate with the smallest selection hash among those up to a time that moves on from
round to round. The time is no more than a preference. A round that has selected nothing
yet does not stop at it, so it finds a block as long as one is left.
-/

namespace BitBlocks

/-- What the modifier rules take from outside. -/
structure ModifierRules where
  /-- `Params().ModifierUpgradeBlock()`. -/
  modifierUpgradeBlock : Int
  /-- `Hash` of a proof hash and a modifier. -/
  hashSelection : Uint256 → Nat → Uint256
  /-- `uint64_t("stakemodifier")`: the address of the literal. -/
  stakemodifier : Nat

inductive ModifierError where
  /-- "GetLastStakeModifier: null pindex" -/
  | nullPindex
  /-- "GetLastStakeModifier: no generation at genesis block" -/
  | noGeneration
  /-- "SelectBlockFromCandidates: failed to find block index for candidate block" -/
  | missingCandidate
  /-- "ComputeNextStakeModifier: unable to select block at round" -/
  | unableToSelect (nRound : Nat)
deriving DecidableEq, Repr

/-- `GetStakeEntropyBit`. -/
def CBlockIndex.getStakeEntropyBit (pindex : CBlockIndex) : Nat := pindex.phashBlock % 2

/-- `GetLastStakeModifier`: the modifier and the time it was generated at. -/
def getLastStakeModifier : List CBlockIndex → Except ModifierError (Nat × Int)
  | [] => .error .nullPindex
  | [pindex] =>
    if pindex.fGeneratedStakeModifier then .ok (pindex.nStakeModifier, pindex.getBlockTime)
    else .error .noGeneration
  | pindex :: pprev :: rest =>
    if pindex.fGeneratedStakeModifier then .ok (pindex.nStakeModifier, pindex.getBlockTime)
    else getLastStakeModifier (pprev :: rest)

section

variable (M : ModifierRules) (mapBlockIndex : Uint256 → Option CBlockIndex)

/-- The selection hash; a proof-of-stake block is always favored. -/
def selectionHash (fModifierV2 : Bool) (nStakeModifierPrev : Nat) (pindex : CBlockIndex) :
    Uint256 :=
  let hashProof :=
    if fModifierV2 then pindex.phashBlock
    else if pindex.fProofOfStake then 0 else pindex.phashBlock
  let hashSelection := M.hashSelection hashProof nStakeModifierPrev
  if pindex.fProofOfStake then hashSelection / 2 ^ 32 else hashSelection

/--
The loop of `SelectBlockFromCandidates`. `fModifierV2` is settled by the first block; the
best block so far comes with its hash, and is `none` while `fSelected` is not set.
-/
def selectFrom (mapSelectedBlocks : List Uint256) (nSelectionIntervalStop : Int)
    (nStakeModifierPrev : Nat) : Option Bool → Option (Uint256 × CBlockIndex) →
    List (Int × Uint256) → Except ModifierError (Option CBlockIndex)
  | _, best, [] => .ok (best.map Prod.snd)
  | fModifierV2, best, item :: rest =>
    match mapBlockIndex item.2 with
    | none => .error .missingCandidate
    | some pindex =>
      if best.isSome && decide (pindex.getBlockTime > nSelectionIntervalStop) then
        .ok (best.map Prod.snd)
      else
        let fV2 := fModifierV2.getD (decide (pindex.nHeight ≥ M.modifierUpgradeBlock))
        if mapSelectedBlocks.contains pindex.phashBlock then
          selectFrom mapSelectedBlocks nSelectionIntervalStop nStakeModifierPrev
            (some fV2) best rest
        else
          let hashSelection := selectionHash M fV2 nStakeModifierPrev pindex
          let best' :=
            match best with
            | none => (hashSelection, pindex)
            | some (hashBest, pindexSelected) =>
              if hashSelection < hashBest then (hashSelection, pindex)
              else (hashBest, pindexSelected)
          selectFrom mapSelectedBlocks nSelectionIntervalStop nStakeModifierPrev (some fV2)
            (some best') rest

/-- `SelectBlockFromCandidates`. -/
def selectBlockFromCandidates (vSortedByTimestamp : List (Int × Uint256))
    (mapSelectedBlocks : List Uint256) (nSelectionIntervalStop : Int) (nStakeModifierPrev : Nat) :
    Except ModifierError (Option CBlockIndex) :=
  selectFrom M mapBlockIndex mapSelectedBlocks nSelectionIntervalStop nStakeModifierPrev none none
    vSortedByTimestamp

/-- What a round reads and writes; the selected blocks by their hash, the last one first. -/
structure RoundState where
  nSelectionIntervalStop : Int
  mapSelectedBlocks : List Uint256 := []
  nStakeModifierNew : Nat := 0
deriving DecidableEq, Repr

/-- Add an interval section to the current selection round. -/
def RoundState.nextStop (st : RoundState) (nRound : Nat) : Int :=
  st.nSelectionIntervalStop + getStakeModifierSelectionIntervalSection nRound

/-- Write the entropy bit of the selected block, and add it to the selected ones. -/
def RoundState.select (st : RoundState) (nRound : Nat) (pindex : CBlockIndex) : RoundState where
  nSelectionIntervalStop := st.nextStop nRound
  mapSelectedBlocks := pindex.phashBlock :: st.mapSelectedBlocks
  nStakeModifierNew := st.nStakeModifierNew ||| pindex.getStakeEntropyBit <<< nRound

def modifierRound (vSortedByTimestamp : List (Int × Uint256)) (nStakeModifier : Nat)
    (st : RoundState) (nRound : Nat) : Except ModifierError RoundState :=
  match selectBlockFromCandidates M mapBlockIndex vSortedByTimestamp st.mapSelectedBlocks
    (st.nextStop nRound) nStakeModifier with
  | .error e => .error e
  | .ok none => .error (.unableToSelect nRound)
  | .ok (some pindex) => .ok (st.select nRound pindex)

/-- The first rounds, from the start of the selection interval. -/
def afterRounds (vSortedByTimestamp : List (Int × Uint256)) (nStakeModifier : Nat)
    (nSelectionIntervalStart : Int) (nRounds : Nat) : Except ModifierError RoundState :=
  (List.range nRounds).foldlM (modifierRound M mapBlockIndex vSortedByTimestamp nStakeModifier)
    { nSelectionIntervalStop := nSelectionIntervalStart }

/-- `nSelectionIntervalStart`. -/
def selectionIntervalStart (pindexPrev : CBlockIndex) : Int :=
  (pindexPrev.getBlockTime).tdiv MODIFIER_INTERVAL * MODIFIER_INTERVAL -
    getStakeModifierSelectionInterval

/-- The order of `pair<int64_t, uint256>`. -/
def pairLe (a b : Int × Uint256) : Prop := a.1 < b.1 ∨ a.1 = b.1 ∧ a.2 ≤ b.2

instance : DecidableRel pairLe := fun _ _ => inferInstanceAs (Decidable (_ ∨ _))

/-- `vSortedByTimestamp`: the entries down to the first one before the interval. -/
def sortedCandidates (nSelectionIntervalStart : Int) (pindexPrev : List CBlockIndex) :
    List (Int × Uint256) :=
  ((pindexPrev.takeWhile fun pindex =>
      decide (pindex.getBlockTime ≥ nSelectionIntervalStart)).map
    fun pindex => (pindex.getBlockTime, pindex.phashBlock)).reverse.insertionSort pairLe

/-- `ComputeNextStakeModifier`: the modifier, and whether it is a new one. -/
def computeNextStakeModifier : List CBlockIndex → Except ModifierError (Nat × Bool)
  | [] => .ok (0, true)
  | pindexPrev :: rest =>
    if pindexPrev.nHeight = 0 then .ok (M.stakemodifier, true)
    else
      match getLastStakeModifier (pindexPrev :: rest) with
      | .error e => .error e
      | .ok (nStakeModifier, nModifierTime) =>
        if nModifierTime.tdiv MODIFIER_INTERVAL ≥
            (pindexPrev.getBlockTime).tdiv MODIFIER_INTERVAL then .ok (nStakeModifier, false)
        else
          let nSelectionIntervalStart := selectionIntervalStart pindexPrev
          let vSortedByTimestamp := sortedCandidates nSelectionIntervalStart (pindexPrev :: rest)
          match afterRounds M mapBlockIndex vSortedByTimestamp nStakeModifier
            nSelectionIntervalStart (min 64 vSortedByTimestamp.length) with
          | .error e => .error e
          | .ok st => .ok (st.nStakeModifierNew, true)

end

/-! ## Chains of a block index -/

/-- The entries of a block index from one of them down to genesis. -/
structure IndexedBranch where
  mapBlockIndex : Uint256 → Option CBlockIndex
  /-- The newest first. -/
  entries : List CBlockIndex
  indexed : ∀ pindex ∈ entries, mapBlockIndex pindex.phashBlock = some pindex
  height : entries.Pairwise fun pindex ancestor => ancestor.nHeight < pindex.nHeight

namespace IndexedBranch

variable (branch : IndexedBranch)

theorem nodup_hash : (branch.entries.map CBlockIndex.phashBlock).Nodup := by
  rw [List.Nodup, List.pairwise_map]
  refine branch.height.imp_of_mem fun {a b} ha hb hlt he => ?_
  have hsame : a = b := by
    have h := branch.indexed a ha
    rw [he, branch.indexed b hb] at h
    exact (Option.some.inj h).symm
  rw [hsame] at hlt
  exact Int.lt_irrefl _ hlt

end IndexedBranch

/-! ## A modifier is found -/

theorem exists_getLastStakeModifier {entries : List CBlockIndex}
    (h : ∃ pindex ∈ entries, pindex.fGeneratedStakeModifier = true) :
    ∃ last, getLastStakeModifier entries = .ok last := by
  induction entries with
  | nil => exact absurd h (by simp)
  | cons pindex rest ih =>
    by_cases hgen : pindex.fGeneratedStakeModifier = true
    · cases rest <;> exact ⟨_, if_pos hgen⟩
    · -- the loop goes on to the parent
      have hrest : ∃ p ∈ rest, p.fGeneratedStakeModifier = true := by
        obtain ⟨p, hp, hpgen⟩ := h
        rcases List.mem_cons.mp hp with rfl | hp
        · exact absurd hpgen hgen
        · exact ⟨p, hp, hpgen⟩
      obtain ⟨last, hlast⟩ := ih hrest
      cases rest with
      | nil => exact absurd hrest (by simp)
      | cons pprev rest => exact ⟨last, (if_neg hgen).trans hlast⟩

/-! ## A round finds a block -/

section

variable {M : ModifierRules} {mapBlockIndex : Uint256 → Option CBlockIndex}
  {items : List (Int × Uint256)} {selected : List Uint256}

/-- Every candidate is in the block index, under its own hash. -/
def CandidatesIndexed (mapBlockIndex : Uint256 → Option CBlockIndex)
    (items : List (Int × Uint256)) : Prop :=
  ∀ item ∈ items, ∃ pindex, mapBlockIndex item.2 = some pindex ∧ pindex.phashBlock = item.2

/-- **The loop of a round** ends with the block it had, or one that was not selected. -/
theorem exists_selectFrom (hindexed : CandidatesIndexed mapBlockIndex items) (stop : Int)
    (prev : Nat)
    (fModifierV2 : Option Bool) (best : Option (Uint256 × CBlockIndex))
    (hleft : best.isSome = true ∨ ∃ item ∈ items, item.2 ∉ selected) :
    ∃ pindex, selectFrom M mapBlockIndex selected stop prev fModifierV2 best items =
        .ok (some pindex) ∧
      (best.map Prod.snd = some pindex ∨
        pindex.phashBlock ∉ selected ∧ pindex.phashBlock ∈ items.map Prod.snd) := by
  induction items generalizing fModifierV2 best with
  | nil =>
    obtain ⟨b, hb⟩ := Option.isSome_iff_exists.mp (hleft.resolve_right (by simp))
    refine ⟨b.2, ?_, ?_⟩ <;> rw [hb]
    · rfl
    · exact Or.inl rfl
  | cons item rest ih =>
    obtain ⟨pindex, hpindex, hhash⟩ := hindexed item List.mem_cons_self
    have hrest : CandidatesIndexed mapBlockIndex rest :=
      fun i hi => hindexed i (List.mem_cons_of_mem _ hi)
    rw [selectFrom, hpindex]
    dsimp only
    split
    · -- something is selected, and the blocks from here on are too late
      rename_i hbreak
      obtain ⟨b, hb⟩ := Option.isSome_iff_exists.mp (Bool.and_eq_true_iff.mp hbreak).1
      exact ⟨b.2, by rw [hb]; rfl, Or.inl (by rw [hb]; rfl)⟩
    · split
      · -- selected in an earlier round
        rename_i hcontains
        have hsel : item.2 ∈ selected := by simpa [hhash] using hcontains
        have hleft' : best.isSome = true ∨ ∃ i ∈ rest, i.2 ∉ selected := by
          refine hleft.imp_right fun ⟨i, hi, hnot⟩ => ?_
          rcases List.mem_cons.mp hi with rfl | hi
          · exact absurd hsel hnot
          · exact ⟨i, hi, hnot⟩
        obtain ⟨p, hp, hfrom⟩ := ih hrest _ best hleft'
        exact ⟨p, hp, hfrom.imp_right fun h => ⟨h.1, List.mem_cons_of_mem _ h.2⟩⟩
      · -- a fresh block, so something is selected from here on
        rename_i hcontains
        have hnot : pindex.phashBlock ∉ selected := by simpa using hcontains
        obtain ⟨p, hp, hfrom⟩ := ih hrest _ (some _) (Or.inl rfl)
        refine ⟨p, hp, ?_⟩
        rcases hfrom with hbest | ⟨hp1, hp2⟩
        · -- the block of this item, or the one before it
          have hown : pindex.phashBlock ∈ (item :: rest).map Prod.snd := by simp [hhash]
          cases best with
          | none =>
            obtain rfl := Option.some.inj hbest
            exact Or.inr ⟨hnot, hown⟩
          | some b =>
            obtain ⟨hashBest, pindexSelected⟩ := b
            dsimp only at hbest
            split at hbest <;> obtain rfl := Option.some.inj hbest
            · exact Or.inr ⟨hnot, hown⟩
            · exact Or.inl rfl
        · exact Or.inr ⟨hp1, List.mem_cons_of_mem _ hp2⟩

theorem exists_not_selected (hitems : (items.map Prod.snd).Nodup)
    (hlen : selected.length < items.length) : ∃ item ∈ items, item.2 ∉ selected := by
  by_contra hall
  have hsub : items.map Prod.snd ⊆ selected := by
    intro h hh
    obtain ⟨item, hitem, rfl⟩ := List.mem_map.mp hh
    by_contra hnot
    exact hall ⟨item, hitem, hnot⟩
  have hle := (hitems.subperm hsub).length_le
  rw [List.length_map] at hle
  omega

/-- **A round** selects a candidate that was not selected before. -/
theorem exists_modifierRound (hindexed : CandidatesIndexed mapBlockIndex items)
    (hitems : (items.map Prod.snd).Nodup) (st : RoundState)
    (hlen : st.mapSelectedBlocks.length < items.length) (prev nRound : Nat) :
    ∃ st' hash, modifierRound M mapBlockIndex items prev st nRound = .ok st' ∧
      hash ∉ st.mapSelectedBlocks ∧ hash ∈ items.map Prod.snd ∧
      st'.mapSelectedBlocks = hash :: st.mapSelectedBlocks := by
  obtain ⟨pindex, hp, hfrom⟩ := exists_selectFrom (M := M) hindexed
    (st.nextStop nRound) prev none none
    (Or.inr (exists_not_selected hitems hlen))
  obtain ⟨hnot, hmem⟩ := hfrom.resolve_left (by simp)
  refine ⟨st.select nRound pindex, pindex.phashBlock, ?_, hnot, hmem, rfl⟩
  unfold modifierRound selectBlockFromCandidates
  rw [hp]

theorem afterRounds_succ (prev : Nat) (start : Int) (k : Nat) :
    afterRounds M mapBlockIndex items prev start (k + 1) =
      (afterRounds M mapBlockIndex items prev start k).bind fun st =>
        modifierRound M mapBlockIndex items prev st k := by
  unfold afterRounds
  rw [List.range_succ, List.foldlM_append]
  cases (List.range k).foldlM (modifierRound M mapBlockIndex items prev)
      { nSelectionIntervalStop := start } with
  | error e => rfl
  | ok st =>
    show (List.foldlM _ st [k] : Except ModifierError RoundState) = _
    rw [List.foldlM_cons]
    show Except.bind (modifierRound M mapBlockIndex items prev st k) _ =
      modifierRound M mapBlockIndex items prev st k
    cases modifierRound M mapBlockIndex items prev st k <;> rfl

/-- **All the rounds**: after `k` of them `k` candidates are selected, none of them twice. -/
theorem exists_afterRounds (hindexed : CandidatesIndexed mapBlockIndex items)
    (hitems : (items.map Prod.snd).Nodup) (prev : Nat) (start : Int) {k : Nat}
    (hk : k ≤ items.length) :
    ∃ st, afterRounds M mapBlockIndex items prev start k = .ok st ∧
      st.mapSelectedBlocks.length = k ∧ st.mapSelectedBlocks.Nodup ∧
      ∀ hash ∈ st.mapSelectedBlocks, hash ∈ items.map Prod.snd := by
  induction k with
  | zero => exact ⟨_, rfl, rfl, List.nodup_nil, by simp⟩
  | succ k ih =>
    obtain ⟨st, hst, hlen, hnodup, hmem⟩ := ih (by omega)
    obtain ⟨st', hash, hround, hnot, hhash, hsel⟩ :=
      exists_modifierRound (M := M) hindexed hitems st (by omega) prev k
    refine ⟨st', ?_, ?_, ?_, ?_⟩
    · rw [afterRounds_succ, hst]
      exact hround
    · rw [hsel, List.length_cons, hlen]
    · rw [hsel]
      exact List.nodup_cons.mpr ⟨hnot, hnodup⟩
    · rw [hsel]
      exact List.forall_mem_cons.mpr ⟨hhash, hmem⟩

/-! ## Which block index is asked does not matter -/

variable {map map' : Uint256 → Option CBlockIndex}

theorem selectFrom_congr (h : ∀ item ∈ items, map item.2 = map' item.2) (stop : Int) (prev : Nat)
    (fModifierV2 : Option Bool) (best : Option (Uint256 × CBlockIndex)) :
    selectFrom M map selected stop prev fModifierV2 best items =
      selectFrom M map' selected stop prev fModifierV2 best items := by
  induction items generalizing fModifierV2 best with
  | nil => rfl
  | cons item rest ih =>
    have hrest := fun i hi => h i (List.mem_cons_of_mem item hi)
    rw [selectFrom, selectFrom, h item List.mem_cons_self]
    simp only [ih hrest]

theorem afterRounds_congr (h : ∀ item ∈ items, map item.2 = map' item.2) (prev : Nat) (start : Int)
    (k : Nat) : afterRounds M map items prev start k = afterRounds M map' items prev start k := by
  have hround : modifierRound M map items prev = modifierRound M map' items prev := by
    funext st nRound
    unfold modifierRound selectBlockFromCandidates
    rw [selectFrom_congr h]
  unfold afterRounds
  rw [hround]

end

namespace IndexedBranch

variable (M : ModifierRules) (branch : IndexedBranch)

theorem sortedCandidates_perm (start : Int) :
    ((sortedCandidates start branch.entries).map Prod.snd).Perm
      ((branch.entries.takeWhile fun pindex => decide (pindex.getBlockTime ≥ start)).map
        CBlockIndex.phashBlock) := by
  unfold sortedCandidates
  refine ((List.perm_insertionSort pairLe _).map Prod.snd).trans ?_
  refine ((List.reverse_perm _).map Prod.snd).trans ?_
  rw [List.map_map]
  exact List.Perm.refl _

theorem nodup_sortedCandidates (start : Int) :
    ((sortedCandidates start branch.entries).map Prod.snd).Nodup :=
  (branch.sortedCandidates_perm start).nodup_iff.mpr
    (branch.nodup_hash.sublist ((List.takeWhile_sublist _).map _))

variable {branch' : IndexedBranch}

theorem mapBlockIndex_candidate (he : branch'.entries = branch.entries) {start : Int}
    {item : Int × Uint256} (h : item ∈ sortedCandidates start branch.entries) :
    ∃ pindex ∈ branch.entries, branch'.mapBlockIndex item.2 = some pindex ∧
      pindex.phashBlock = item.2 := by
  have hmem := (branch.sortedCandidates_perm start).mem_iff.mp (List.mem_map.mpr ⟨item, h, rfl⟩)
  obtain ⟨pindex, hp, hhash⟩ := List.mem_map.mp hmem
  have hentry := (List.takeWhile_sublist _).subset hp
  exact ⟨pindex, hentry, hhash ▸ branch'.indexed pindex (he ▸ hentry), hhash⟩

theorem candidatesIndexed (start : Int) :
    CandidatesIndexed branch.mapBlockIndex (sortedCandidates start branch.entries) := by
  intro item hitem
  obtain ⟨pindex, -, hmap, hhash⟩ := branch.mapBlockIndex_candidate rfl hitem
  exact ⟨pindex, hmap, hhash⟩

theorem computeNextStakeModifier_congr (he : branch'.entries = branch.entries) :
    computeNextStakeModifier M branch'.mapBlockIndex branch'.entries =
      computeNextStakeModifier M branch.mapBlockIndex branch.entries := by
  have hrounds : ∀ prev start start' k,
      afterRounds M branch'.mapBlockIndex (sortedCandidates start branch.entries) prev start' k =
        afterRounds M branch.mapBlockIndex (sortedCandidates start branch.entries) prev
        start' k := by
    intro prev start start' k
    refine afterRounds_congr (fun item hitem => ?_) prev start' k
    obtain ⟨pindex, hentry, hmap, hhash⟩ := branch.mapBlockIndex_candidate he hitem
    rw [hmap, ← hhash]
    exact (branch.indexed pindex hentry).symm
  rw [he]
  cases hentries : branch.entries with
  | nil => rfl
  | cons pindexPrev rest =>
    rw [hentries] at hrounds
    unfold computeNextStakeModifier
    simp only [hrounds]

/-- The candidates for the modifier after the entry. -/
abbrev candidates (pindexPrev : CBlockIndex) : List (Int × Uint256) :=
  sortedCandidates (selectionIntervalStart pindexPrev) branch.entries

/-- The first rounds for the modifier after the entry. -/
abbrev rounds (pindexPrev : CBlockIndex) (nStakeModifier nRounds : Nat) :
    Except ModifierError RoundState :=
  afterRounds M branch.mapBlockIndex (branch.candidates pindexPrev) nStakeModifier
    (selectionIntervalStart pindexPrev) nRounds

/-- The next modifier is the last one while that is recent, and else that of the rounds. -/
theorem computeNextStakeModifier_cases {pindexPrev : CBlockIndex}
    (hprev : branch.entries.head? = some pindexPrev) (hgenesis : pindexPrev.nHeight ≠ 0)
    (hgen : ∃ pindex ∈ branch.entries, pindex.fGeneratedStakeModifier = true) :
    ∃ nStakeModifier nModifierTime,
      getLastStakeModifier branch.entries = .ok (nStakeModifier, nModifierTime) ∧
      (nModifierTime.tdiv MODIFIER_INTERVAL ≥ (pindexPrev.getBlockTime).tdiv MODIFIER_INTERVAL →
        computeNextStakeModifier M branch.mapBlockIndex branch.entries
          = .ok (nStakeModifier, false)) ∧
      (nModifierTime.tdiv MODIFIER_INTERVAL < (pindexPrev.getBlockTime).tdiv MODIFIER_INTERVAL →
        ∃ st, branch.rounds M pindexPrev nStakeModifier
            (min 64 (branch.candidates pindexPrev).length) = .ok st ∧
          computeNextStakeModifier M branch.mapBlockIndex branch.entries
            = .ok (st.nStakeModifierNew, true)) := by
  obtain ⟨⟨nStakeModifier, nModifierTime⟩, hlast⟩ := exists_getLastStakeModifier hgen
  refine ⟨nStakeModifier, nModifierTime, hlast, ?_⟩
  obtain ⟨rest, hentries⟩ := List.head?_eq_some_iff.mp hprev
  obtain ⟨st, hst, -⟩ := exists_afterRounds (M := M)
    (branch.candidatesIndexed (selectionIntervalStart pindexPrev))
    (branch.nodup_sortedCandidates _) nStakeModifier (selectionIntervalStart pindexPrev)
    (Nat.min_le_right 64 _)
  rw [rounds, candidates]
  rw [hentries] at hlast hst ⊢
  unfold computeNextStakeModifier
  dsimp only
  rw [if_neg hgenesis, hlast]
  dsimp only
  constructor
  · exact fun hrecent => if_pos hrecent
  · intro hold
    rw [if_neg (Int.not_le_of_gt hold), hst]
    exact ⟨st, rfl, rfl⟩

/-- A round selects a candidate that was not selected before. -/
theorem rounds_succ {pindexPrev : CBlockIndex} (nStakeModifier : Nat) {k : Nat}
    (hk : k < min 64 (branch.candidates pindexPrev).length) :
    ∃ st st' hash, branch.rounds M pindexPrev nStakeModifier k = .ok st ∧
      branch.rounds M pindexPrev nStakeModifier (k + 1) = .ok st' ∧
      hash ∈ (branch.candidates pindexPrev).map Prod.snd ∧
      hash ∉ st.mapSelectedBlocks ∧ st'.mapSelectedBlocks = hash :: st.mapSelectedBlocks := by
  rw [candidates] at hk
  obtain ⟨st, hst, hlen, -⟩ := exists_afterRounds (M := M)
    (branch.candidatesIndexed (selectionIntervalStart pindexPrev))
    (branch.nodup_sortedCandidates _) nStakeModifier (selectionIntervalStart pindexPrev)
    (show k ≤ _ by omega)
  obtain ⟨st', hash, hround, hnot, hmem, hsel⟩ := exists_modifierRound (M := M)
    (branch.candidatesIndexed (selectionIntervalStart pindexPrev))
    (branch.nodup_sortedCandidates _) st (by omega) nStakeModifier k
  refine ⟨st, st', hash, hst, ?_, hmem, hnot, hsel⟩
  rw [rounds, afterRounds_succ, hst]
  exact hround

/--
**The next stake modifier.** For every entry but genesis with a generated modifier at it or
before it, a modifier is found. It is the one generated last, if that is recent, and else
a new one after `min 64 n` rounds on the `n` candidates; each round selects a candidate that
was not selected before; and nothing of the block index counts but the entries of the branch.
-/
theorem computeNextStakeModifier_canonical {pindexPrev : CBlockIndex}
    (hprev : branch.entries.head? = some pindexPrev) (hgenesis : pindexPrev.nHeight ≠ 0)
    (hgen : ∃ pindex ∈ branch.entries, pindex.fGeneratedStakeModifier = true) :
    (∃ nStakeModifier nModifierTime,
      getLastStakeModifier branch.entries = .ok (nStakeModifier, nModifierTime) ∧
      (nModifierTime.tdiv MODIFIER_INTERVAL ≥ (pindexPrev.getBlockTime).tdiv MODIFIER_INTERVAL →
        computeNextStakeModifier M branch.mapBlockIndex branch.entries
          = .ok (nStakeModifier, false)) ∧
      (nModifierTime.tdiv MODIFIER_INTERVAL < (pindexPrev.getBlockTime).tdiv MODIFIER_INTERVAL →
        ∃ st, branch.rounds M pindexPrev nStakeModifier
            (min 64 (branch.candidates pindexPrev).length) = .ok st ∧
          computeNextStakeModifier M branch.mapBlockIndex branch.entries
            = .ok (st.nStakeModifierNew, true))) ∧
    (∀ nStakeModifier k, k < min 64 (branch.candidates pindexPrev).length →
      ∃ st st' hash, branch.rounds M pindexPrev nStakeModifier k = .ok st ∧
        branch.rounds M pindexPrev nStakeModifier (k + 1) = .ok st' ∧
        hash ∈ (branch.candidates pindexPrev).map Prod.snd ∧
        hash ∉ st.mapSelectedBlocks ∧ st'.mapSelectedBlocks = hash :: st.mapSelectedBlocks) ∧
    ∀ branch' : IndexedBranch, branch'.entries = branch.entries →
      computeNextStakeModifier M branch'.mapBlockIndex branch'.entries =
        computeNextStakeModifier M branch.mapBlockIndex branch.entries :=
  ⟨branch.computeNextStakeModifier_cases M hprev hgenesis hgen,
    fun nStakeModifier _ hk => branch.rounds_succ M nStakeModifier hk,
    fun _ he => branch.computeNextStakeModifier_congr M he⟩

/-- Genesis, a block with a modifier, and one a few minutes later. -/
def sampleEntries : List CBlockIndex :=
  [{ phashBlock := 12, nHeight := 2, nTime := 400, fProofOfStake := true },
   { phashBlock := 11, nHeight := 1, nTime := 60, fGeneratedStakeModifier := true,
     nStakeModifier := 7 },
   { phashBlock := 10, nHeight := 0 }]

def sampleBranch : IndexedBranch where
  mapBlockIndex hash := sampleEntries.find? fun pindex => pindex.phashBlock == hash
  entries := sampleEntries
  indexed := by decide
  height := by decide

/-- The hash of a proof and a modifier, for the sample. -/
def sampleRules : ModifierRules := ⟨0, fun hash prev => hash + prev, 5⟩

/-- Three rounds make a new modifier, and the second one selects what the first one did not. -/
theorem computeNextStakeModifier_canonical_sample :
    (∃ st, sampleBranch.rounds sampleRules sampleEntries[0] 7 3 = .ok st ∧
      computeNextStakeModifier sampleRules sampleBranch.mapBlockIndex sampleEntries
        = .ok (st.nStakeModifierNew, true)) ∧
    ∃ st st' hash, sampleBranch.rounds sampleRules sampleEntries[0] 7 1 = .ok st ∧
      sampleBranch.rounds sampleRules sampleEntries[0] 7 2 = .ok st' ∧
      hash ∉ st.mapSelectedBlocks ∧ st'.mapSelectedBlocks = hash :: st.mapSelectedBlocks := by
  obtain ⟨⟨nStakeModifier, nModifierTime, hlast, -, hnew⟩, hround, -⟩ :=
    sampleBranch.computeNextStakeModifier_canonical sampleRules
      (rfl : sampleBranch.entries.head? = some sampleEntries[0])
      (by decide) ⟨_, List.mem_cons_of_mem _ List.mem_cons_self, rfl⟩
  obtain ⟨rfl, rfl⟩ : 7 = nStakeModifier ∧ 60 = nModifierTime := Prod.mk.inj (Except.ok.inj hlast)
  refine ⟨hnew (by decide), ?_⟩
  obtain ⟨st, st', hash, hst, hst', -, hfresh, hsel⟩ := hround 7 1 (by decide)
  exact ⟨st, st', hash, hst, hst', hfresh, hsel⟩

end IndexedBranch

end BitBlocks
