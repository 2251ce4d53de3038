import BitBlocks.Chain.BlockIndex
import BitBlocks.Lib.Table
import BitBlocks.Masternode.Masternode

/-!
# Scores, and the block hashes they are made of

The score of a masternode for a height is made of the hash of the block below it, which
`GetBlockHash` (`masternode.cpp`) looks for down from the tip. What it found it keeps in
`mapCacheBlockHashes`, under the height alone. Nothing takes it out again when the active
chain changes, so the first answer for a height is the answer for good.
-/

namespace BitBlocks

open Table

/-- The active chain, and the hashes that were found. -/
structure BlockHashes where
  chain : ActiveChain := {}
  mapCacheBlockHashes : AList (fun _ : Int => Uint256) := ∅

/-- The loop of `GetBlockHash`, from the entry it reads. -/
def readBack (nBlocksAgo : Int) : Int → List CBlockIndex → Option Uint256
  | _, [] => none
  | n, pindex :: pprev =>
    if pindex.nHeight > 0 then
      if n ≥ nBlocksAgo then some pindex.phashBlock else readBack nBlocksAgo (n + 1) pprev
    else none

namespace BlockHashes

/-- `GetBlockHash`. -/
def getBlockHash (s : BlockHashes) (nBlockHeight : Int) : BlockHashes × Option Uint256 :=
  match s.chain.blocks with
  | [] => (s, none)
  | tip :: pprev =>
    let nBlockHeight := if nBlockHeight = 0 then tip.nHeight else nBlockHeight
    match s.mapCacheBlockHashes.lookup nBlockHeight with
    | some hash => (s, some hash)
    | none =>
      if tip.nHeight = 0 ∨ tip.nHeight + 1 < nBlockHeight then (s, none)
      else
        let nBlocksAgo := if nBlockHeight > 0 then tip.nHeight + 1 - nBlockHeight else 0
        match readBack nBlocksAgo 0 (tip :: pprev) with
        | none => (s, none)
        | some hash =>
          ({ s with mapCacheBlockHashes := s.mapCacheBlockHashes.insert nBlockHeight hash },
            some hash)

end BlockHashes

/-- `CHashWriter` on one, and on two, numbers of 256 bits. -/
structure ScoreText where
  hashOne : Uint256 → Uint256
  hashTwo : Uint256 → Uint256 → Uint256

/-- `CalculateScore`: the height, a 64-bit one, is handed on as an `int`. -/
def CMasternode.calculateScore (H : ScoreText) (mn : CMasternode) (s : BlockHashes)
    (nBlockHeight : Int) : Uint256 :=
  if s.chain.blocks.isEmpty then 0
  else
    let aux := (mn.vin.prevout.hash + mn.vin.prevout.n) % 2 ^ 256
    match (s.getBlockHash (nBlockHeight.bmod (2 ^ 32))).2 with
    | none => 0
    | some hash =>
      let hash2 := H.hashOne hash
      let hash3 := H.hashTwo hash aux
      if hash3 > hash2 then hash3 - hash2 else hash2 - hash3

/-! ## What a call finds -/

variable {chain : ActiveChain} {s : BlockHashes} {nBlockHeight : Int}

theorem readBack_eq {nBlocksAgo n : Int} {blocks : List CBlockIndex} (hheights : Heights blocks)
    (hn : n ≤ nBlocksAgo) :
    readBack nBlocksAgo n blocks =
      if 0 < (blocks.length : Int) - 1 - (nBlocksAgo - n) then
        (blocks.find? fun pindex =>
          pindex.nHeight == (blocks.length : Int) - 1 - (nBlocksAgo - n)).map CBlockIndex.phashBlock
      else none := by
  induction blocks generalizing n with
  | nil =>
    rw [if_neg (by rw [List.length_nil]; omega)]
    rfl
  | cons pindex pprev ih =>
    obtain ⟨hheight, hrest⟩ := hheights
    unfold readBack
    have hlength : ((pindex :: pprev).length : Int) = pprev.length + 1 := by simp
    rw [hlength, hheight]
    by_cases hgenesis : (pprev.length : Int) > 0
    · rw [if_pos hgenesis]
      by_cases hfound : n ≥ nBlocksAgo
      · -- this is the block
        have htop : (pprev.length : Int) + 1 - 1 - (nBlocksAgo - n) = pprev.length := by omega
        rw [if_pos hfound, htop, if_pos hgenesis, List.find?_cons_of_pos (by simpa using hheight)]
        rfl
      · -- the block is further down
        have hbelow : (pprev.length : Int) + 1 - 1 - (nBlocksAgo - n) =
            pprev.length - 1 - (nBlocksAgo - (n + 1)) := by omega
        have hother : pindex.nHeight ≠ (pprev.length : Int) - 1 - (nBlocksAgo - (n + 1)) := by omega
        rw [if_neg hfound, hbelow, List.find?_cons_of_neg (by simpa using hother)]
        exact ih hrest (by omega)
    · rw [if_neg hgenesis, if_neg (by omega)]

namespace ActiveChain

/-- What is found for a height that has no hash yet: the block below it, but not genesis. -/
def below (chain : ActiveChain) (nBlockHeight : Int) : Option Uint256 :=
  if 1 < nBlockHeight then chain.blockAt (nBlockHeight - 1) else none

/-- The height that is meant: zero is the height of the tip. -/
def meant (chain : ActiveChain) (nBlockHeight : Int) : Int :=
  if nBlockHeight = 0 then chain.height else nBlockHeight

theorem below_of_empty (h : chain.blocks = []) : chain.below nBlockHeight = none := by
  unfold below blockAt
  rw [h]
  split <;> rfl

theorem blockAt_above (h : chain.height < nBlockHeight) : chain.blockAt nBlockHeight = none := by
  have hbound : ∀ blocks, Heights blocks → ∀ pindex ∈ blocks,
      pindex.nHeight < (blocks.length : Int) := by
    intro blocks hblocks
    induction blocks with
    | nil => simp
    | cons pindex pprev ih =>
      obtain ⟨hheight, hrest⟩ := hblocks
      intro other hother
      rw [List.length_cons]
      rcases List.mem_cons.mp hother with rfl | hmem
      · omega
      · have := ih hrest other hmem
        omega
  unfold blockAt
  rw [Option.map_eq_none_iff, List.find?_eq_none]
  intro pindex hmem
  have hlt := hbound chain.blocks chain.heights pindex hmem
  have hne : pindex.nHeight ≠ nBlockHeight := by
    unfold height at h
    omega
  simpa using hne

end ActiveChain

namespace BlockHashes

def keep (s : BlockHashes) (nBlockHeight : Int) (hash : Uint256) : BlockHashes :=
  { s with mapCacheBlockHashes := s.mapCacheBlockHashes.insert nBlockHeight hash }

/-- **One call**: what is kept for the height, or else the block below it, which is kept. -/
theorem getBlockHash_eq (h : 0 ≤ s.chain.meant nBlockHeight) : s.getBlockHash nBlockHeight =
      if s.chain.blocks = [] then (s, none)
      else
        match s.mapCacheBlockHashes.lookup (s.chain.meant nBlockHeight) with
        | some hash => (s, some hash)
        | none =>
          match s.chain.below (s.chain.meant nBlockHeight) with
          | none => (s, none)
          | some hash => (s.keep (s.chain.meant nBlockHeight) hash, some hash) := by
  unfold getBlockHash
  cases hblocks : s.chain.blocks with
  | nil => rfl
  | cons tip pprev =>
    have hheights := s.chain.heights
    rw [hblocks] at hheights
    have htip : tip.nHeight = pprev.length := hheights.1
    have hheight : s.chain.height = tip.nHeight := by
      unfold ActiveChain.height
      rw [hblocks, htip]
      simp
    have hmeant : s.chain.meant nBlockHeight =
        if nBlockHeight = 0 then tip.nHeight else nBlockHeight := by
      unfold ActiveChain.meant
      rw [hheight]
    rw [if_neg (List.cons_ne_nil tip pprev)]
    dsimp only
    rw [← hmeant]
    cases s.mapCacheBlockHashes.lookup (s.chain.meant nBlockHeight) with
    | some hash => rfl
    | none =>
      dsimp only
      by_cases hunknown : tip.nHeight = 0 ∨ tip.nHeight + 1 < s.chain.meant nBlockHeight
      · have hnone : s.chain.below (s.chain.meant nBlockHeight) = none := by
          unfold ActiveChain.below
          split
          · exact ActiveChain.blockAt_above (by omega)
          · rfl
        rw [if_pos hunknown, hnone]
      · have hpos : s.chain.meant nBlockHeight > 0 := by
          by_cases hzero : nBlockHeight = 0
          · rw [if_pos hzero] at hmeant
            omega
          · rw [if_neg hzero] at hmeant
            omega
        have hago : 0 ≤ tip.nHeight + 1 - s.chain.meant nBlockHeight := by omega
        have hread := readBack_eq hheights hago
        have hbelow : ((tip :: pprev).length : Int) - 1 -
            (tip.nHeight + 1 - s.chain.meant nBlockHeight - 0) =
            s.chain.meant nBlockHeight - 1 := by
          rw [List.length_cons, htip]
          omega
        rw [hbelow] at hread
        have hsame : readBack (tip.nHeight + 1 - s.chain.meant nBlockHeight) 0 (tip :: pprev) =
            s.chain.below (s.chain.meant nBlockHeight) := by
          rw [hread]
          unfold ActiveChain.below ActiveChain.blockAt
          rw [hblocks]
          by_cases habove : 1 < s.chain.meant nBlockHeight
          · rw [if_pos habove, if_pos (by omega)]
          · rw [if_neg habove, if_neg (by omega)]
        rw [if_neg hunknown, if_pos hpos, hsame]
        rfl

theorem getBlockHash_fst (s : BlockHashes) (nBlockHeight : Int) :
    (s.getBlockHash nBlockHeight).1 = s ∨
      ∃ hash, (s.getBlockHash nBlockHeight).1 = s.keep (s.chain.meant nBlockHeight) hash := by
  unfold getBlockHash ActiveChain.meant ActiveChain.height
  cases hblocks : s.chain.blocks with
  | nil => exact Or.inl rfl
  | cons tip pprev =>
    have hheights := s.chain.heights
    rw [hblocks] at hheights
    have htip : ((tip :: pprev).length : Int) - 1 = tip.nHeight := by
      rw [hheights.1, List.length_cons]
      omega
    rw [htip]
    dsimp only
    generalize (if nBlockHeight = 0 then tip.nHeight else nBlockHeight) = nMeant
    split
    · exact Or.inl rfl
    · split
      · exact Or.inl rfl
      · split
        · exact Or.inl rfl
        · exact Or.inr ⟨_, rfl⟩

@[simp] theorem getBlockHash_chain (s : BlockHashes) (nBlockHeight : Int) :
    (s.getBlockHash nBlockHeight).1.chain = s.chain := by
  rcases s.getBlockHash_fst nBlockHeight with heq | ⟨hash, heq⟩ <;> rw [heq]
  rfl

theorem lookup_getBlockHash {h : Int} (hpos : 0 < h) :
    (s.getBlockHash nBlockHeight).1.mapCacheBlockHashes.lookup h =
      (s.mapCacheBlockHashes.lookup h).or
        (if s.chain.meant nBlockHeight = h then s.chain.below h else none) := by
  by_cases hmeant : s.chain.meant nBlockHeight = h
  · subst hmeant
    rw [getBlockHash_eq (by omega), if_pos rfl]
    by_cases hempty : s.chain.blocks = []
    · rw [if_pos hempty, ActiveChain.below_of_empty hempty, Option.or_none]
    · rw [if_neg hempty]
      cases hkept : s.mapCacheBlockHashes.lookup (s.chain.meant nBlockHeight) with
      | some hash =>
        dsimp only
        rw [hkept, Option.some_or]
      | none =>
        rw [Option.none_or]
        cases hbelow : s.chain.below (s.chain.meant nBlockHeight) with
        | none => exact hkept
        | some hash =>
          unfold keep
          dsimp only
          rw [lookup_insert, if_pos rfl]
  · -- nothing is written under another height
    rw [if_neg hmeant, Option.or_none]
    rcases s.getBlockHash_fst nBlockHeight with heq | ⟨hash, heq⟩
    · rw [heq]
    · rw [heq]
      unfold keep
      dsimp only
      rw [lookup_insert, if_neg (Ne.symm hmeant)]

end BlockHashes

/-! ## Runs -/

/-- The active chain becomes another one, or the hash for a height is asked for. -/
inductive ScoreEvent where
  | updateTip (chain : ActiveChain)
  | getBlockHash (nBlockHeight : Int)

namespace BlockHashes

def step (s : BlockHashes) : ScoreEvent → BlockHashes
  | .updateTip chain => { s with chain := chain }
  | .getBlockHash nBlockHeight => (s.getBlockHash nBlockHeight).1

def afterEvents (events : List ScoreEvent) : BlockHashes := events.foldl step {}

/-- The block below a height, as it was when a call first found one for that height. -/
def firstFound (h : Int) (chain : ActiveChain) : List ScoreEvent → Option Uint256
  | [] => none
  | .updateTip chain :: rest => firstFound h chain rest
  | .getBlockHash nBlockHeight :: rest =>
    if chain.meant nBlockHeight = h ∧ (chain.below h).isSome then chain.below h
    else firstFound h chain rest

theorem lookup_foldl_step {h : Int} (hpos : 0 < h) (events : List ScoreEvent) (s : BlockHashes) :
    (events.foldl step s).mapCacheBlockHashes.lookup h =
      (s.mapCacheBlockHashes.lookup h).or (firstFound h s.chain events) := by
  induction events generalizing s with
  | nil => exact (Option.or_none).symm
  | cons event rest ih =>
    rw [List.foldl_cons, ih]
    cases event with
    | updateTip chain => rfl
    | getBlockHash nBlockHeight =>
      rw [step, firstFound, lookup_getBlockHash hpos, getBlockHash_chain, Option.or_assoc]
      by_cases hmeant : s.chain.meant nBlockHeight = h
      · rw [if_pos hmeant]
        cases hbelow : s.chain.below h with
        | none => rw [Option.none_or, if_neg (by simp)]
        | some hash => rw [Option.some_or, if_pos (by simp [hmeant])]
      · rw [if_neg hmeant, if_neg (by simp [hmeant]), Option.none_or]

/-- **What a node keeps** for a height is what it first found for it. -/
theorem lookup_afterEvents {h : Int} (hpos : 0 < h) (events : List ScoreEvent) :
    (afterEvents events).mapCacheBlockHashes.lookup h = firstFound h {} events := by
  unfold afterEvents
  rw [lookup_foldl_step hpos, AList.lookup_empty, Option.none_or]

variable {events events' : List ScoreEvent} {h : Int}

/-- The hash a node answers with is that of the block below the height in its active chain. -/
def FollowsChain (events : List ScoreEvent) (h : Int) : Prop :=
  ∀ hash, ((afterEvents events).getBlockHash h).2 = some hash →
    (afterEvents events).chain.blockAt (h - 1) = some hash

/-- The block that was first found for the height is still where it was. -/
def StillThere (events : List ScoreEvent) (h : Int) : Prop :=
  (afterEvents events).chain.blocks ≠ [] → ∀ hash, firstFound h {} events = some hash →
    (afterEvents events).chain.blockAt (h - 1) = some hash

theorem meant_of_pos (hpos : 0 < h) (chain : ActiveChain) : chain.meant h = h := by
  unfold ActiveChain.meant
  rw [if_neg (by omega)]

theorem answer_afterEvents (hpos : 0 < h) (events : List ScoreEvent) :
    ((afterEvents events).getBlockHash h).2 =
      if (afterEvents events).chain.blocks = [] then none
      else (firstFound h {} events).or ((afterEvents events).chain.below h) := by
  have hmeant := meant_of_pos hpos (afterEvents events).chain
  rw [getBlockHash_eq (by omega), hmeant, lookup_afterEvents hpos]
  split
  · rfl
  · cases firstFound h {} events with
    | some hash => rfl
    | none =>
      cases (afterEvents events).chain.below h <;> rfl

theorem firstFound_above (chain : ActiveChain) (events : List ScoreEvent) {hash : Uint256}
    (hfound : firstFound h chain events = some hash) : 1 < h := by
  induction events generalizing chain with
  | nil => exact absurd hfound (by simp [firstFound])
  | cons event rest ih =>
    cases event with
    | updateTip chain' => exact ih chain' hfound
    | getBlockHash nBlockHeight =>
      rw [firstFound] at hfound
      split at hfound
      · unfold ActiveChain.below at hfound
        by_contra hlow
        rw [if_neg hlow] at hfound
        exact absurd hfound (by simp)
      · exact ih chain hfound

theorem answer_of_stillThere (hpos : 0 < h) (hthere : StillThere events h) :
    ((afterEvents events).getBlockHash h).2 = (afterEvents events).chain.below h := by
  rw [answer_afterEvents hpos]
  by_cases hempty : (afterEvents events).chain.blocks = []
  · rw [if_pos hempty, ActiveChain.below_of_empty hempty]
  · rw [if_neg hempty]
    cases hfound : firstFound h {} events with
    | none => rfl
    | some hash =>
      unfold ActiveChain.below
      rw [Option.some_or, if_pos (firstFound_above _ _ hfound)]
      exact (hthere hempty hash hfound).symm

theorem followsChain_iff (hpos : 0 < h) : FollowsChain events h ↔ StillThere events h := by
  constructor
  · intro hfollows hempty hash hfound
    apply hfollows hash
    rw [answer_afterEvents hpos, if_neg hempty, hfound, Option.some_or]
  · intro hthere hash hanswer
    rw [answer_of_stillThere hpos hthere] at hanswer
    unfold ActiveChain.below at hanswer
    split at hanswer
    · exact hanswer
    · exact absurd hanswer (by simp)

/--
**Block hashes follow the active chain** just when the block that was first found for the
height is still there; and two nodes on one chain, for both of which it is, compute the
same scores for the height.
-/
theorem followsChain_iff_stillThere (events events' : List ScoreEvent) (hpos : 0 < h) :
    (FollowsChain events h ↔ StillThere events h) ∧ (StillThere events h → StillThere events' h →
        (afterEvents events).chain = (afterEvents events').chain →
          ∀ (H : ScoreText) (mn : CMasternode) (nBlockHeight : Int),
          nBlockHeight.bmod (2 ^ 32) = h →
            mn.calculateScore H (afterEvents events) nBlockHeight =
              mn.calculateScore H (afterEvents events') nBlockHeight) := by
  refine ⟨followsChain_iff hpos, ?_⟩
  intro hthere hthere' hchain H mn nBlockHeight hheight
  unfold CMasternode.calculateScore
  rw [hheight, answer_of_stillThere hpos hthere, answer_of_stillThere hpos hthere', hchain]

def sampleChain (hash₁ hash₂ : Uint256) : ActiveChain where
  blocks := [⟨hash₂, 2, 3, 0, 0, 0, 0, false, false, 0⟩, ⟨hash₁, 1, 3, 0, 0, 0, 0, false, false, 0⟩,
    ⟨100, 0, 3, 0, 0, 0, 0, false, false, 0⟩]
  heights := ⟨rfl, rfl, rfl, trivial⟩

/-- A node that has been asked for the height two, and one that has not. -/
theorem followsChain_iff_stillThere_sample :
    FollowsChain [.updateTip (sampleChain 101 102), .getBlockHash 2] 2 ∧
      ∀ (H : ScoreText) (mn : CMasternode),
        mn.calculateScore H (afterEvents [.updateTip (sampleChain 101 102), .getBlockHash 2]) 2 =
          mn.calculateScore H (afterEvents [.updateTip (sampleChain 101 102)]) 2 := by
  have hasked : StillThere [.updateTip (sampleChain 101 102), .getBlockHash 2] 2 := by
    intro _ hash hfound
    have hhash : 101 = hash := Option.some.inj hfound
    rw [← hhash]
    rfl
  have hnew : StillThere [.updateTip (sampleChain 101 102)] 2 :=
    fun _ hash hfound => absurd hfound (by simp [firstFound])
  have hboth := followsChain_iff_stillThere [.updateTip (sampleChain 101 102), .getBlockHash 2]
    [.updateTip (sampleChain 101 102)] (h := 2) (by omega)
  exact ⟨hboth.1.mpr hasked, fun H mn => hboth.2 hasked hnew rfl H mn 2 (by decide)⟩

/-- After a reorganisation the hash is still that of the block that was left. -/
theorem stale_hash_after_reorganisation :
    ((afterEvents [.updateTip (sampleChain 101 102), .getBlockHash 2,
        .updateTip (sampleChain 201 202)]).getBlockHash 2).2 = some 101 ∧
      (sampleChain 201 202).blockAt 1 = some 201 := by
  decide

end BlockHashes

end BitBlocks
