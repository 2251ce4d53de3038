import BitBlocks.Chain.StakeSeen
import BitBlocks.Net.InFlight

/-!
# The block that arrives is taken off the books

`ProcessNewBlock` calls `MarkBlockAsReceived` before it looks at what `CheckBlock` said, so
that a block that was asked for is not waited for any longer, whatever is wrong with it. Three
checks stand before the call. A block that one of them stops stays in flight: it is not
fetched from another peer, and in the end the peer that sent it is dropped for stalling.
-/

namespace BitBlocks

/-- What `ProcessNewBlock` works on, and the bookkeeping of the downloads. -/
structure ArrivalState (σ : Type) where
  stakes : StakeState Uint256 σ
  download : DownloadState

namespace DownloadState

/-- The block is off the books, and nothing else is. -/
structure Released (s : DownloadState) (hash : Uint256) (s' : DownloadState) : Prop where
  notInFlight : s'.mapBlocksInFlight.lookup hash = none
  others : ∀ hash', hash' ≠ hash →
    s'.mapBlocksInFlight.lookup hash' = s.mapBlocksInFlight.lookup hash'
  /-- The queues have lost the entries of the block, and every counter counts its queue. -/
  cells : ∀ nodeid it entry, s'.Cell nodeid it entry ↔ s.Cell nodeid it entry ∧ entry.hash ≠ hash
  inv : s'.Inv
  drift : s'.drift = s.drift
  /-- The peer it came from does not stall. -/
  stalling : ∀ nodeid it, s.mapBlocksInFlight.lookup hash = some (nodeid, it) →
    ∃ state, s'.mapNodeState.lookup nodeid = some state ∧ state.nStallingSince = 0

variable {s : DownloadState} {hash : Uint256}

theorem Inv.released_self (h : s.Inv) (hb : s.mapBlocksInFlight.lookup hash = none) :
    s.Released hash s where
  notInFlight := hb
  others _ _ := rfl
  cells nodeid it entry := by
    refine ⟨fun hcell => ⟨hcell, ?_⟩, And.left⟩
    intro he
    have hlook := (h.blocks hash nodeid it).mpr ⟨entry, hcell, he⟩
    rw [hb] at hlook
    cases hlook
  inv := h
  drift := rfl
  stalling nodeid it hlook := by
    rw [hb] at hlook
    cases hlook

/-- **`MarkBlockAsReceived` releases the block.** -/
theorem Inv.released (h : s.Inv) (hash : Uint256) :
    ∃ s', s.markBlockAsReceived hash = some s' ∧ s.Released hash s' := by
  cases hb : s.mapBlocksInFlight.lookup hash with
  | none =>
    refine ⟨s, ?_, h.released_self hb⟩
    rw [DownloadState.markBlockAsReceived, hb]
  | some p =>
    obtain ⟨nodeid, it⟩ := p
    obtain ⟨s', state', hs', hinv, hdrift, hblocks, hcells, -, hmap, hstalling⟩ := h.received hb
    refine ⟨s', hs', ?_, ?_, ?_, hinv, hdrift, ?_⟩
    · rw [hblocks]
      exact AList.lookup_erase _ _
    · intro hash' hne
      rw [hblocks, Table.lookup_erase, if_neg hne]
    · -- the entries of the block are the one cell it is mapped to
      intro n a e
      rw [hcells n a e]
      refine and_congr_right fun hcell => not_congr ?_
      constructor
      · intro hsame
        obtain ⟨rfl, rfl⟩ := Prod.mk.inj hsame
        obtain ⟨entry, hentry, he⟩ := (h.blocks hash n a).mp hb
        rw [h.cell_inj hcell hentry, he]
      · intro he
        have hlook := (h.blocks hash n a).mpr ⟨e, hcell, he⟩
        exact Option.some.inj (hlook.symm.trans hb)
    · intro n a hlook
      obtain ⟨rfl, -⟩ := Prod.mk.inj (Option.some.inj (hb.symm.trans hlook))
      refine ⟨state', ?_, hstalling⟩
      rw [hmap, Table.lookup_insert, if_pos rfl]

theorem not_released_self {p : NodeId × Address}
    (hb : s.mapBlocksInFlight.lookup hash = some p) : ¬ s.Released hash s := by
  intro h
  rw [h.notInFlight] at hb
  cases hb

end DownloadState

namespace ArrivalState

variable {σ : Type}

/-- `ProcessNewBlock` up to `ActivateBestChain`; the flag is whether it gets there. What follows
does not change the bookkeeping. -/
def processNewBlock (T : IndexTree Uint256) (nMax : Int) (s : ArrivalState σ)
    (a : StakeArrival Uint256 σ) : Option (ArrivalState σ × Bool) :=
  -- Limited duplicity on stake
  if a.fFrom && a.fProofOfStake && s.stakes.duplicate a then some (s, false)
  -- check proof-of-stake block signature
  else if !a.fSignature then some (s, false)
  -- check if the prev block is our prev block
  else if a.fFrom && s.stakes.prevUnknown T a.hash then some (s, false)
  else
    match s.download.markBlockAsReceived a.hash with
    | none => none
    | some download =>
      if !a.fChecked then some ({ s with download := download }, false)
      else
        match s.stakes.node.acceptBlock T nMax a.rules a.hash with
        | (node, .error _) => some (⟨{ s.stakes with node := node }, download⟩, false)
        | (node, .ok _) =>
          if a.fFrom && a.fProofOfStake then
            some (⟨{ node := node, mapStakeSeenRecent := s.stakes.claim a }, download⟩, true)
          else some (⟨{ s.stakes with node := node }, download⟩, true)

/-- None of the checks before `MarkBlockAsReceived` stops the block. -/
def reachesRelease (T : IndexTree Uint256) (s : ArrivalState σ) (a : StakeArrival Uint256 σ) :
    Bool :=
  !(a.fFrom && a.fProofOfStake && s.stakes.duplicate a) && a.fSignature &&
    !(a.fFrom && s.stakes.prevUnknown T a.hash)

variable {T : IndexTree Uint256} {nMax : Int} {s : ArrivalState σ} {a : StakeArrival Uint256 σ}

theorem processNewBlock_stopped (h : s.reachesRelease T a = false) :
    s.processNewBlock T nMax a = some (s, false) := by
  rw [processNewBlock]
  by_cases hdup : (a.fFrom && a.fProofOfStake && s.stakes.duplicate a) = true
  · rw [if_pos hdup]
  by_cases hsig : (!a.fSignature) = true
  · rw [if_neg hdup, if_pos hsig]
  by_cases hprev : (a.fFrom && s.stakes.prevUnknown T a.hash) = true
  · rw [if_neg hdup, if_neg hsig, if_pos hprev]
  · rw [Bool.not_eq_true] at hdup hsig hprev
    rw [Bool.not_eq_false'] at hsig
    rw [reachesRelease, hdup, hsig, hprev] at h
    exact absurd h (by decide)

variable (nMax) in
/-- **Whatever `AcceptBlock` says**, the bookkeeping is that of `MarkBlockAsReceived`. -/
theorem processNewBlock_reaches (h : s.reachesRelease T a = true) {download : DownloadState}
    (hdownload : s.download.markBlockAsReceived a.hash = some download) :
    ∃ stakes fRet, s.processNewBlock T nMax a = some (⟨stakes, download⟩, fRet) := by
  rw [reachesRelease, Bool.and_eq_true, Bool.and_eq_true, Bool.not_eq_true', Bool.not_eq_true'] at h
  obtain ⟨⟨hdup, hsig⟩, hprev⟩ := h
  rw [processNewBlock, hdup, hsig, hprev, hdownload, if_neg Bool.false_ne_true,
    if_neg (by decide), if_neg Bool.false_ne_true]
  dsimp only
  by_cases hchecked : (!a.fChecked) = true
  · rw [if_pos hchecked]
    exact ⟨_, _, rfl⟩
  rw [if_neg hchecked]
  rcases s.stakes.node.acceptBlock T nMax a.rules a.hash with ⟨node, e | u⟩
  · exact ⟨_, _, rfl⟩
  · dsimp only
    by_cases hstake : (a.fFrom && a.fProofOfStake) = true
    · rw [if_pos hstake]
      exact ⟨_, _, rfl⟩
    · rw [if_neg hstake]
      exact ⟨_, _, rfl⟩

/--
**A block is released iff it gets that far.** `ProcessNewBlock` returns, and the block is off the
books, with the counters of the peer it was asked from, just when it was not on them or none
of the checks before the release stops it.
-/
theorem processNewBlock_releases_iff (T : IndexTree Uint256) (nMax : Int) (s : ArrivalState σ)
    (hs : s.download.Inv) (a : StakeArrival Uint256 σ) :
    ∃ s' fRet, s.processNewBlock T nMax a = some (s', fRet) ∧
      (s.download.Released a.hash s'.download ↔
        s.download.mapBlocksInFlight.lookup a.hash = none ∨ s.reachesRelease T a = true) := by
  cases hreach : s.reachesRelease T a with
  | true =>
    obtain ⟨download, hdownload, hreleased⟩ := hs.released a.hash
    obtain ⟨stakes, fRet, hprocess⟩ := processNewBlock_reaches nMax hreach hdownload
    exact ⟨_, _, hprocess, iff_of_true hreleased (Or.inr rfl)⟩
  | false =>
    refine ⟨_, _, processNewBlock_stopped hreach, ?_⟩
    cases hb : s.download.mapBlocksInFlight.lookup a.hash with
    | none => exact iff_of_true (hs.released_self hb) (Or.inl rfl)
    | some p => exact iff_of_false (DownloadState.not_released_self hb) (by simp)

/-! ### A block with a bad signature -/

/-- Block `1` is in flight from peer `1`. -/
def awaited : ArrivalState Unit where
  stakes := { node := Node.genesis (Node.twoBranches 1) () }
  download := (({} : DownloadState).initializeNode 1).enqueue 1 1 (some 1) 0 |>.getD {}

/-- Block `1`, as the peer sends it. -/
def signedBlock (fSignature : Bool) : StakeArrival Uint256 Unit :=
  ⟨1, true, true, (⟨0, 1⟩, 1600000000), true, fSignature, Node.passRules _ _⟩

theorem inv_awaited : awaited.download.Inv := by
  obtain ⟨hinv, -⟩ := DownloadState.Inv.empty.initializeNode 1
  exact (@DownloadState.Inv.enqueue _ _ 1 1 hinv rfl (some 1) 0 rfl).1

/-- With a good signature it is released. -/
theorem processNewBlock_releases_iff_signed :
    ∃ s' fRet, awaited.processNewBlock (Node.twoBranches 1) 100 (signedBlock true) =
        some (s', fRet) ∧ awaited.download.Released 1 s'.download := by
  obtain ⟨s', fRet, hprocess, hiff⟩ := processNewBlock_releases_iff (Node.twoBranches 1) 100 awaited
    inv_awaited (signedBlock true)
  exact ⟨s', fRet, hprocess, hiff.mpr (Or.inr (by decide))⟩

/-- With a bad one it stays in flight. -/
theorem block_stays_in_flight :
    ¬ ∀ (T : IndexTree Uint256) (nMax : Int) (s : ArrivalState Unit), s.download.Inv →
      s.download.drift = 0 → ∀ a : StakeArrival Uint256 Unit, a.fFrom = true →
      ∃ s' fRet, s.processNewBlock T nMax a = some (s', fRet) ∧
        s'.download.mapBlocksInFlight.lookup a.hash = none := by
  intro h
  obtain ⟨s', fRet, hprocess, hnone⟩ := h (Node.twoBranches 1) 100 awaited inv_awaited rfl
    (signedBlock false) rfl
  have hstopped : awaited.processNewBlock (Node.twoBranches 1) 100 (signedBlock false) =
      some (awaited, false) := processNewBlock_stopped (by decide)
  obtain ⟨rfl, -⟩ := Prod.mk.inj (Option.some.inj (hstopped.symm.trans hprocess))
  exact absurd hnone (by decide)

end ArrivalState

end BitBlocks
