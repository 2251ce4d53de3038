import BitBlocks.Chain.Converge
import BitBlocks.Lib.Machine
import BitBlocks.Lib.Table

/-!
# One stake, one block

`ProcessNewBlock` drops a proof-of-stake block from a peer if another block was seen with
its stake and time. `mapStakeSeenRecent` is to hold the first block accepted for each
stake; it is filled when `AcceptBlock` has succeeded, and cleared when it grows too large.

A block that is in the index already is not stopped, and takes the entry of its stake over
when it comes again. `Segment` is what was accepted from peers since the last clearing,
beside the state: the map says of each stake which block came last, not which came first.
-/

namespace BitBlocks

open Table

def MAX_STAKE_SEEN_RECENT : Nat := 5000

/-- A kernel's outpoint, and the time of the block. -/
abbrev Stake := COutPoint × Nat

/-- A block that arrives; `hash` is its entry, if it gets one. -/
structure StakeArrival (α σ : Type) where
  hash : α
  /-- `pfrom != NULL`. -/
  fFrom : Bool
  fProofOfStake : Bool
  getProofOfStake : Stake
  /-- What `CheckBlock` and `CheckBlockSignature` say. -/
  fChecked : Bool
  fSignature : Bool
  rules : AcceptRules α σ

structure StakeState (α σ : Type) where
  node : Node α σ
  mapStakeSeenRecent : AList fun _ : Stake => α := ∅

/-- A block that was accepted from a peer, and whether it was new to the index then. -/
structure AcceptedStake (α : Type) where
  stake : Stake
  hash : α
  fNew : Bool
deriving DecidableEq

/-- What was accepted from peers since the map was cleared, in order. -/
abbrev Segment (α : Type) := List (AcceptedStake α)

variable {α σ : Type} [DecidableEq α]

namespace StakeState

/-- Another block was seen with that stake, and this one is not in the index. -/
def duplicate (s : StakeState α σ) (a : StakeArrival α σ) : Bool :=
  ((s.mapStakeSeenRecent.lookup a.getProofOfStake).any fun hash => decide (hash ≠ a.hash)) &&
    decide (a.hash ∉ s.node.mapBlockIndex)

/-- The previous block is not in the index. -/
def prevUnknown (T : IndexTree α) (s : StakeState α σ) (hash : α) : Bool :=
  decide (hash ≠ T.root) && !(T.parent hash).any fun prev => decide (prev ∈ s.node.mapBlockIndex)

/-- The insertion into `mapStakeSeenRecent`. -/
def claim (s : StakeState α σ) (a : StakeArrival α σ) : AList fun _ : Stake => α :=
  (if s.mapStakeSeenRecent.entries.length > MAX_STAKE_SEEN_RECENT then ∅
    else s.mapStakeSeenRecent).insert a.getProofOfStake a.hash

/-- `ProcessNewBlock` up to `ActivateBestChain`; the flag is whether it gets there. -/
def processNewBlock (T : IndexTree α) (nMax : Int) (s : StakeState α σ) (a : StakeArrival α σ) :
    StakeState α σ × Bool :=
  if a.fFrom && a.fProofOfStake && s.duplicate a then (s, false)
  else if !a.fSignature then (s, false)
  else if a.fFrom && s.prevUnknown T a.hash then (s, false)
  else if !a.fChecked then (s, false)
  else
    match s.node.acceptBlock T nMax a.rules a.hash with
    | (node, .error _) => ({ s with node := node }, false)
    | (node, .ok _) =>
      if a.fFrom && a.fProofOfStake then ({ node := node, mapStakeSeenRecent := s.claim a }, true)
      else ({ s with node := node }, true)

/-! ## Runs -/

/--
A block arrives, or anything else happens to the node: entries are added to the index, and
nothing else of it is kept.
-/
inductive Event (α σ : Type) where
  | block (a : StakeArrival α σ)
  | other (node : Node α σ)

/-- The block is accepted from a peer. -/
def accepts (T : IndexTree α) (nMax : Int) (s : StakeState α σ) (a : StakeArrival α σ) : Bool :=
  (s.processNewBlock T nMax a).2 && (a.fFrom && a.fProofOfStake)

def next (T : IndexTree α) (nMax : Int) (s : StakeState α σ) : Event α σ → StakeState α σ
  | .block a => (s.processNewBlock T nMax a).1
  | .other node =>
    { s with node := { node with mapBlockIndex := node.mapBlockIndex ++ s.node.mapBlockIndex } }

def nextSegment (T : IndexTree α) (nMax : Int) (s : StakeState α σ) (segment : Segment α) :
    Event α σ → Segment α
  | .block a =>
    if s.accepts T nMax a then
      (if s.mapStakeSeenRecent.entries.length > MAX_STAKE_SEEN_RECENT then [] else segment) ++
        [⟨a.getProofOfStake, a.hash, decide (a.hash ∉ s.node.mapBlockIndex)⟩]
    else segment
  | .other _ => segment

/-- The state and the segment after a run from a node with an empty map. -/
def afterEvents (T : IndexTree α) (nMax : Int) (node : Node α σ) (run : List (Event α σ)) :
    StakeState α σ × Segment α :=
  run.foldl (fun x e => (x.1.next T nMax e, x.1.nextSegment T nMax x.2 e)) ({ node := node }, [])

/-! ## What always holds -/

variable {T : IndexTree α} {nMax : Int} {s : StakeState α σ} {a : StakeArrival α σ}
  {segment : Segment α}

variable (T nMax) in
theorem acceptBlock_mapBlockIndex (n : Node α σ) (E : AcceptRules α σ) (b : α) :
    n.mapBlockIndex ⊆ (n.acceptBlock T nMax E b).1.mapBlockIndex ∧
      ((n.acceptBlock T nMax E b).2 = .ok () → b ∈ (n.acceptBlock T nMax E b).1.mapBlockIndex) := by
  unfold Node.acceptBlock
  cases hentry : n.acceptEntry T nMax E b with
  | error e => exact ⟨List.Subset.refl _, fun h => by simp at h⟩
  | ok n1 =>
    have hen := Node.acceptEntry_ok hentry
    have hgrow : n.mapBlockIndex ⊆ n1.mapBlockIndex := by
      rcases hen.node with rfl | ⟨-, rfl⟩
      · exact List.Subset.refl _
      · exact List.subset_cons_self _ _
    dsimp only
    split
    · exact ⟨hgrow, fun _ => hen.known⟩
    · cases E.checkBlock n1 b with
      | error e =>
        dsimp only
        refine ⟨?_, fun h => by simp at h⟩
        split <;> exact hgrow
      | ok u =>
        dsimp only
        rw [(Node.receivedBlockTransactions_frame n1 b).1]
        exact ⟨hgrow, fun _ => hen.known⟩

/-- What `ProcessNewBlock` does, by what it accepts. -/
theorem processNewBlock_cases (T : IndexTree α) (nMax : Int) (s : StakeState α σ)
    (a : StakeArrival α σ) :
    s.node.mapBlockIndex ⊆ (s.processNewBlock T nMax a).1.node.mapBlockIndex ∧
      ((s.processNewBlock T nMax a).1.mapStakeSeenRecent =
        if s.accepts T nMax a then s.claim a else s.mapStakeSeenRecent) ∧
      (s.accepts T nMax a = true → s.duplicate a = false ∧
        a.hash ∈ (s.processNewBlock T nMax a).1.node.mapBlockIndex) := by
  have hdrop : ∀ {r : StakeState α σ × Bool}, r = (s, false) →
      s.node.mapBlockIndex ⊆ r.1.node.mapBlockIndex ∧ (r.1.mapStakeSeenRecent =
          if r.2 && (a.fFrom && a.fProofOfStake) then s.claim a else s.mapStakeSeenRecent) ∧
        ((r.2 && (a.fFrom && a.fProofOfStake)) = true → s.duplicate a = false ∧
          a.hash ∈ r.1.node.mapBlockIndex) := by
    rintro r rfl
    exact ⟨List.Subset.refl _, rfl, fun h => absurd h (by simp)⟩
  unfold accepts
  by_cases h1 : (a.fFrom && a.fProofOfStake && s.duplicate a) = true
  · exact hdrop (by rw [processNewBlock, if_pos h1])
  by_cases h2 : (!a.fSignature) = true
  · exact hdrop (by rw [processNewBlock, if_neg h1, if_pos h2])
  by_cases h3 : (a.fFrom && s.prevUnknown T a.hash) = true
  · exact hdrop (by rw [processNewBlock, if_neg h1, if_neg h2, if_pos h3])
  by_cases h4 : (!a.fChecked) = true
  · exact hdrop (by rw [processNewBlock, if_neg h1, if_neg h2, if_neg h3, if_pos h4])
  obtain ⟨hgrow, hok⟩ := acceptBlock_mapBlockIndex T nMax s.node a.rules a.hash
  rw [processNewBlock, if_neg h1, if_neg h2, if_neg h3, if_neg h4]
  cases hacc : s.node.acceptBlock T nMax a.rules a.hash with
  | mk node result =>
    rw [hacc] at hgrow hok
    cases result with
    | error e => exact ⟨hgrow, rfl, fun h => absurd h (by simp)⟩
    | ok u =>
      cases hpeer : a.fFrom && a.fProofOfStake with
      | false => exact ⟨hgrow, rfl, fun h => absurd h (by simp)⟩
      | true =>
        rw [hpeer] at h1
        exact ⟨hgrow, rfl, fun _ => ⟨by simpa using h1, hok rfl⟩⟩

/-- The block of a stake that came last in a segment. -/
def lastFor (stake : Stake) (segment : Segment α) : Option α :=
  ((segment.filter fun x => decide (x.stake = stake)).getLast?).map AcceptedStake.hash

/-- The block of a stake that came first. -/
def firstFor (stake : Stake) (segment : Segment α) : Option α :=
  (segment.find? fun x => decide (x.stake = stake)).map AcceptedStake.hash

/-- How the state and the segment go together, whatever arrives. -/
structure Tracks (s : StakeState α σ) (segment : Segment α) : Prop where
  size : s.mapStakeSeenRecent.entries.length ≤ MAX_STAKE_SEEN_RECENT + 1
  last : ∀ stake, s.mapStakeSeenRecent.lookup stake = lastFor stake segment
  indexed : ∀ x ∈ segment, x.hash ∈ s.node.mapBlockIndex
  /-- A block that is new is the first one of its stake. -/
  new : segment.Pairwise fun x y => x.stake = y.stake → y.fNew = false

section

omit [DecidableEq α]

theorem lastFor_concat (stake : Stake) (segment : Segment α) (y : AcceptedStake α) :
    lastFor stake (segment ++ [y]) =
    if y.stake = stake then some y.hash else lastFor stake segment := by
  unfold lastFor
  rw [List.filter_append]
  split
  · rename_i hy
    rw [List.filter_cons_of_pos (by simpa using hy)]
    simp
  · rename_i hy
    rw [List.filter_cons_of_neg (by simpa using hy)]
    simp

theorem exists_of_lastFor {stake : Stake} {segment : Segment α} {hash : α}
    (h : lastFor stake segment = some hash) : ∃ x ∈ segment, x.stake = stake ∧ x.hash = hash := by
  obtain ⟨x, hx, rfl⟩ := Option.map_eq_some_iff.mp h
  obtain ⟨hmem, hstake⟩ := List.mem_filter.mp (List.mem_of_getLast? hx)
  exact ⟨x, hmem, of_decide_eq_true hstake, rfl⟩

theorem lastFor_ne_none {segment : Segment α} {x : AcceptedStake α} (hx : x ∈ segment) :
    ∃ hash, lastFor x.stake segment = some hash := by
  have hne : (segment.filter fun y => decide (y.stake = x.stake)) ≠ [] :=
    List.ne_nil_of_mem (List.mem_filter.mpr ⟨hx, decide_eq_true rfl⟩)
  exact ⟨_, by rw [lastFor, List.getLast?_eq_some_getLast hne]; rfl⟩

theorem length_insert_le (m : AList fun _ : Stake => α) (stake : Stake) (hash : α) :
    (m.insert stake hash).entries.length ≤ m.entries.length + 1 := by
  rw [AList.entries_insert, List.length_cons]
  exact Nat.succ_le_succ (List.kerase_sublist stake m.entries).length_le

end

theorem accepts_eq_nextSegment (T : IndexTree α) (nMax : Int) (s : StakeState α σ)
    (segment : Segment α) (hacc : s.accepts T nMax a = true) :
    s.nextSegment T nMax segment (.block a) =
      (if s.mapStakeSeenRecent.entries.length > MAX_STAKE_SEEN_RECENT then [] else segment) ++
        [⟨a.getProofOfStake, a.hash, decide (a.hash ∉ s.node.mapBlockIndex)⟩] := if_pos hacc

theorem of_not_duplicate (hdup : s.duplicate a = false) {hash : α}
    (hhash : s.mapStakeSeenRecent.lookup a.getProofOfStake = some hash) :
    a.hash ∈ s.node.mapBlockIndex ∨ hash = a.hash := by
  unfold duplicate at hdup
  rw [hhash] at hdup
  by_cases hnew : a.hash ∈ s.node.mapBlockIndex
  · exact Or.inl hnew
  · exact Or.inr (by simpa [hnew] using hdup)

theorem Tracks.known_of_stake (h : Tracks s segment) (hdup : s.duplicate a = false)
    {x : AcceptedStake α} (hx : x ∈ segment) (hstake : x.stake = a.getProofOfStake) :
    a.hash ∈ s.node.mapBlockIndex := by
  obtain ⟨hash, hhash⟩ := lastFor_ne_none hx
  obtain ⟨z, hz, -, hzhash⟩ := exists_of_lastFor hhash
  rw [← h.last, hstake] at hhash
  rcases of_not_duplicate hdup hhash with hknown | hsame
  · exact hknown
  · exact hsame ▸ hzhash ▸ h.indexed z hz

/-- **One event**: the map is bounded, and says what came last. -/
theorem Tracks.next (h : Tracks s segment) (e : Event α σ) :
    Tracks (s.next T nMax e) (s.nextSegment T nMax segment e) := by
  cases e with
  | other node =>
    exact ⟨h.size, h.last, fun x hx => List.mem_append_right _ (h.indexed x hx), h.new⟩
  | block a =>
    obtain ⟨hgrow, hmap, hin⟩ := processNewBlock_cases T nMax s a
    by_cases hacc : s.accepts T nMax a = true
    · rw [if_pos hacc] at hmap
      obtain ⟨hdup, hin⟩ := hin hacc
      rw [accepts_eq_nextSegment T nMax s segment hacc]
      show Tracks (s.processNewBlock T nMax a).1 _
      -- the segment that the block joins, and the map it is entered in
      obtain ⟨base, hbase⟩ : ∃ base : Segment α, base =
          if s.mapStakeSeenRecent.entries.length > MAX_STAKE_SEEN_RECENT then [] else segment :=
        ⟨_, rfl⟩
      have hsub : base.Sublist segment := by
        rw [hbase]
        split
        · exact List.nil_sublist _
        · exact List.Sublist.refl _
      have hlast : ∀ stake, (if s.mapStakeSeenRecent.entries.length > MAX_STAKE_SEEN_RECENT then ∅
          else s.mapStakeSeenRecent : AList fun _ : Stake => α).lookup stake =
            lastFor stake base := by
        intro stake
        rw [hbase]
        split
        · rfl
        · exact h.last stake
      rw [← hbase]
      refine ⟨?_, fun stake => ?_, fun x hx => ?_, ?_⟩
      · rw [hmap, claim]
        refine (length_insert_le _ _ _).trans (Nat.succ_le_succ ?_)
        split
        · exact Nat.zero_le _
        · rename_i hle
          exact Nat.le_of_not_lt hle
      · rw [hmap, claim, lookup_insert, lastFor_concat, hlast]
        exact if_congr eq_comm rfl rfl
      · rcases List.mem_append.mp hx with hx | hx
        · exact hgrow (h.indexed x (hsub.subset hx))
        · rw [List.mem_singleton.mp hx]
          exact hin
      · refine List.pairwise_append.mpr
          ⟨h.new.sublist hsub, List.pairwise_singleton _ _, fun x hx y hy => ?_⟩
        obtain rfl := List.mem_singleton.mp hy
        intro hstake
        exact decide_eq_false (not_not.mpr (h.known_of_stake hdup (hsub.subset hx) hstake))
    · rw [if_neg hacc] at hmap
      have hsegment : s.nextSegment T nMax segment (.block a) = segment := if_neg hacc
      rw [hsegment]
      refine ⟨?_, fun stake => ?_, fun x hx => hgrow (h.indexed x hx), h.new⟩
      · show (s.processNewBlock T nMax a).1.mapStakeSeenRecent.entries.length ≤ _
        rw [hmap]
        exact h.size
      · show (s.processNewBlock T nMax a).1.mapStakeSeenRecent.lookup stake = _
        rw [hmap]
        exact h.last stake

theorem afterEvents_concat (node : Node α σ) (run : List (Event α σ)) (e : Event α σ) :
    afterEvents T nMax node (run ++ [e]) = ((afterEvents T nMax node run).1.next T nMax e,
        (afterEvents T nMax node run).1.nextSegment T nMax (afterEvents T nMax node run).2 e) := by
  rw [afterEvents, List.foldl_append]
  rfl

variable (T nMax) in
/-- **A run.** -/
theorem tracks_afterEvents (node : Node α σ) (run : List (Event α σ)) :
    Tracks (afterEvents T nMax node run).1 (afterEvents T nMax node run).2 := by
  induction run using List.reverseRecOn with
  | nil => exact ⟨Nat.zero_le _, fun _ => rfl, fun x hx => by simp [afterEvents] at hx,
    List.Pairwise.nil⟩
  | append_singleton run e ih =>
    rw [afterEvents_concat]
    exact ih.next e

/-! ## What holds if no block comes back -/

/-- One block a stake, and the map says which. -/
structure Lawful (s : StakeState α σ) (segment : Segment α) : Prop where
  one : ∀ x ∈ segment, ∀ y ∈ segment, x.stake = y.stake → x.hash = y.hash
  first : ∀ stake, s.mapStakeSeenRecent.lookup stake = firstFor stake segment

/-- A block that is in the index comes from a peer, is accepted, and its stake is another's. -/
def Overwrites (T : IndexTree α) (nMax : Int) (s : StakeState α σ) : Event α σ → Prop
  | .block a =>
    a.hash ∈ s.node.mapBlockIndex ∧ s.accepts T nMax a = true ∧
      s.mapStakeSeenRecent.entries.length ≤ MAX_STAKE_SEEN_RECENT ∧
      ∃ hash, s.mapStakeSeenRecent.lookup a.getProofOfStake = some hash ∧ hash ≠ a.hash
  | .other _ => False

section

omit [DecidableEq α]

theorem firstFor_concat (stake : Stake) (segment : Segment α) (y : AcceptedStake α) :
    firstFor stake (segment ++ [y]) =
      (firstFor stake segment).or (if y.stake = stake then some y.hash else none) := by
  unfold firstFor
  rw [List.find?_append]
  cases segment.find? fun x => decide (x.stake = stake) with
  | some x => rfl
  | none =>
    by_cases hy : y.stake = stake <;> simp [hy]

theorem firstFor_of_mem {segment : Segment α} {x : AcceptedStake α} (hx : x ∈ segment) :
    ∃ y ∈ segment, y.stake = x.stake ∧ firstFor x.stake segment = some y.hash := by
  unfold firstFor
  cases hfind : segment.find? fun y => decide (y.stake = x.stake) with
  | none => exact absurd (decide_eq_true rfl) (List.find?_eq_none.mp hfind x hx)
  | some y =>
    exact ⟨y, List.mem_of_find?_eq_some hfind, of_decide_eq_true (List.find?_some
        (p := fun y : AcceptedStake α => decide (y.stake = x.stake)) hfind), rfl⟩

theorem Lawful.concat_iff (h : Lawful s segment) {t : StakeState α σ} {y : AcceptedStake α}
    (hmap : t.mapStakeSeenRecent = s.mapStakeSeenRecent.insert y.stake y.hash) :
    Lawful t (segment ++ [y]) ↔
      ∀ hash, s.mapStakeSeenRecent.lookup y.stake = some hash → hash = y.hash := by
  constructor
  · intro h' hash hhash
    have hfirst := h'.first y.stake
    rw [hmap, lookup_insert, if_pos rfl, firstFor_concat, ← h.first, hhash] at hfirst
    exact (Option.some.inj hfirst).symm
  · intro hsame
    have hold : ∀ x ∈ segment, x.stake = y.stake → x.hash = y.hash := by
      intro x hx hstake
      obtain ⟨z, hz, hzstake, hzfirst⟩ := firstFor_of_mem hx
      rw [h.one x hx z hz hzstake.symm]
      exact hsame z.hash (by rw [h.first, ← hstake, hzfirst])
    refine ⟨fun x hx z hz hstake => ?_, fun stake => ?_⟩
    · rcases List.mem_append.mp hx with hx | hx <;> rcases List.mem_append.mp hz with hz | hz
      · exact h.one x hx z hz hstake
      · rw [List.mem_singleton.mp hz] at hstake ⊢
        exact hold x hx hstake
      · rw [List.mem_singleton.mp hx] at hstake ⊢
        exact (hold z hz hstake.symm).symm
      · rw [List.mem_singleton.mp hx, List.mem_singleton.mp hz]
    · rw [hmap, lookup_insert, firstFor_concat, ← h.first]
      by_cases hstake : stake = y.stake
      · rw [if_pos hstake, if_pos hstake.symm, hstake]
        cases hlookup : s.mapStakeSeenRecent.lookup y.stake with
        | none => rfl
        | some hash => rw [hsame hash hlookup]; rfl
      · rw [if_neg hstake, if_neg fun he => hstake he.symm]
        cases s.mapStakeSeenRecent.lookup stake <;> rfl

end

/-- **One event** keeps the law iff it overwrites no other block. -/
theorem Lawful.next_iff (h : Lawful s segment) (e : Event α σ) :
    Lawful (s.next T nMax e) (s.nextSegment T nMax segment e) ↔ ¬ s.Overwrites T nMax e := by
  cases e with
  | other node => exact ⟨fun _ hno => hno, fun _ => ⟨h.one, h.first⟩⟩
  | block a =>
    obtain ⟨-, hmap, hin⟩ := processNewBlock_cases T nMax s a
    by_cases hacc : s.accepts T nMax a = true
    · rw [if_pos hacc, claim] at hmap
      rw [accepts_eq_nextSegment T nMax s segment hacc]
      by_cases hfull : s.mapStakeSeenRecent.entries.length > MAX_STAKE_SEEN_RECENT
      · -- the map was cleared: the block is the only one
        rw [if_pos hfull] at hmap
        rw [if_pos hfull]
        have hempty : Lawful ({ s with mapStakeSeenRecent := ∅ } : StakeState α σ) [] :=
          ⟨fun x hx => by simp at hx, fun _ => rfl⟩
        have hlaw := (hempty.concat_iff (t := (s.processNewBlock T nMax a).1)
          (y := ⟨a.getProofOfStake, a.hash, decide (a.hash ∉ s.node.mapBlockIndex)⟩) hmap).mpr
          fun hash hhash => by simp at hhash
        exact ⟨fun _ hover => absurd hover.2.2.1 (by omega), fun _ => hlaw⟩
      · rw [if_neg hfull] at hmap
        rw [if_neg hfull]
        refine (h.concat_iff (t := (s.processNewBlock T nMax a).1) hmap).trans ?_
        constructor
        · rintro hsame ⟨-, -, -, hash, hhash, hne⟩
          exact hne (hsame hash hhash)
        · intro hover hash hhash
          by_contra hne
          refine hover ⟨?_, hacc, Nat.le_of_not_lt hfull, hash, hhash, hne⟩
          -- a block that is not in the index would have been dropped
          exact (of_not_duplicate (hin hacc).1 hhash).resolve_right hne
    · rw [if_neg hacc] at hmap
      have hsegment : s.nextSegment T nMax segment (.block a) = segment := if_neg hacc
      rw [hsegment]
      refine ⟨fun _ hover => hacc hover.2.1, fun _ => ⟨h.one, fun stake => ?_⟩⟩
      show (s.processNewBlock T nMax a).1.mapStakeSeenRecent.lookup stake = _
      rw [hmap]
      exact h.first stake

/--
**One stake, one block.** In every run: the map has at most one entry more than its
maximum, a block that is not accepted from a peer changes no entry, and of the blocks that
were accepted with a stake since the last clearing at most one was new. All of them are one
block, and the map says which, throughout the run iff no block that was in the index came
back to overwrite another's entry.
-/
theorem one_stake_one_block (T : IndexTree α) (nMax : Int) (node : Node α σ)
    (run : List (Event α σ)) :
    ((∀ past, past <+: run →
        Lawful (afterEvents T nMax node past).1 (afterEvents T nMax node past).2) ↔
      ∀ past e, past ++ [e] <+: run → ¬ (afterEvents T nMax node past).1.Overwrites T nMax e) ∧
    (afterEvents T nMax node run).1.mapStakeSeenRecent.entries.length ≤ MAX_STAKE_SEEN_RECENT + 1 ∧
    (∀ a, (afterEvents T nMax node run).1.accepts T nMax a = false →
      ((afterEvents T nMax node run).1.next T nMax (.block a)).mapStakeSeenRecent =
        (afterEvents T nMax node run).1.mapStakeSeenRecent) ∧
    ∀ x ∈ (afterEvents T nMax node run).2, ∀ y ∈ (afterEvents T nMax node run).2,
      x.stake = y.stake → x.fNew = true → y.fNew = true → x.hash = y.hash := by
  have htracks := tracks_afterEvents T nMax node run
  refine ⟨?_, htracks.size, fun a hacc => ?_, fun x hx y hy hstake hxnew hynew => ?_⟩
  · refine Machine.always_iff
      (P := fun past => Lawful (afterEvents T nMax node past).1 (afterEvents T nMax node past).2)
      (C := fun past e => ¬ (afterEvents T nMax node past).1.Overwrites T nMax e)
      ⟨fun x hx => by simp [afterEvents] at hx, fun _ => rfl⟩ run fun past e _ h => ?_
    rw [afterEvents_concat]
    exact h.next_iff e
  · have hmap := (processNewBlock_cases T nMax (afterEvents T nMax node run).1 a).2.1
    rw [if_neg (by simpa using hacc)] at hmap
    exact hmap
  · have hone : (afterEvents T nMax node run).2.Pairwise fun x y =>
        x.stake = y.stake → x.fNew = true → y.fNew = true → x.hash = y.hash :=
      htracks.new.imp fun h hstake _ hy => absurd hy (by simp [h hstake])
    have hflip := hone.imp (S := flip fun x y : AcceptedStake α =>
        x.stake = y.stake → x.fNew = true → y.fNew = true → x.hash = y.hash)
      fun h hstake hy hx => (h hstake.symm hx hy).symm
    exact hone.forall_of_forall_of_flip (fun _ _ _ _ _ => rfl) hflip hx hy hstake hxnew hynew

/-! ### A miner that races itself -/

/-- A block with the one stake of the race, from a peer or from the own miner. -/
def race (fFrom : Bool) (hash : Nat) : Event Nat Unit :=
  .block ⟨hash, fFrom, true, (⟨0, 1⟩, 1600000000), true, true, Node.passRules _ _⟩

/--
Block `2` is mined here, block `1` with the same stake is relayed by a peer, and then block
`2` is relayed back.
-/
def raceRun : List (Event Nat Unit) := [race false 2, race true 1, race true 2]

/-- Both blocks were accepted from a peer, and the map names the second. -/
theorem overwritten_stake :
    ¬ ∀ (T : IndexTree Nat) (nMax : Int) (node : Node Nat Unit) (run : List (Event Nat Unit)),
      Lawful (afterEvents T nMax node run).1 (afterEvents T nMax node run).2 := by
  intro h
  have hlaw := h (Node.twoBranches 1) 100 (Node.genesis (Node.twoBranches 1) ()) raceRun
  exact absurd (hlaw.one ⟨(⟨0, 1⟩, 1600000000), 1, true⟩ (by decide)
    ⟨(⟨0, 1⟩, 1600000000), 2, false⟩ (by decide) rfl) (by decide)

end StakeState

end BitBlocks
