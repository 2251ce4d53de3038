import BitBlocks.Lib.Machine
import BitBlocks.Mempool.Orphans

/-!
# Blocks in flight

The download bookkeeping of `main.cpp`: each peer's queue of requested blocks, the map
from a block's hash to the queue entry, and the global number of blocks requested with
validated headers, which the download timeout is computed from.

The map holds list iterators. A queue is a list of cells with an address each, and an
iterator is the address of a cell: following one that is not in the list it was taken
from is undefined, as is using the state of an unknown peer, and both are `none`.
-/

namespace BitBlocks

structure QueuedBlock where
  hash : Uint256
  /-- Optional. -/
  pindex : Option Uint256
  /-- Time of "getdata" request. -/
  nTime : Int
  /-- Number of blocks queued with validated headers at the time this one is requested. -/
  nValidatedQueuedBefore : Int
  /-- Whether this block has validated headers at the time of request. -/
  fValidatedHeaders : Bool
deriving DecidableEq, Repr

/-- `list<QueuedBlock>::iterator`. -/
abbrev Address := Nat

/-- What is kept of a peer, as far as downloads go. -/
structure CNodeState where
  fSyncStarted : Bool := false
  nStallingSince : Int := 0
  vBlocksInFlight : List (Address × QueuedBlock) := []
  nBlocksInFlight : Int := 0
  fPreferredDownload : Bool := false
deriving DecidableEq, Repr

structure DownloadState where
  mapNodeState : AList (fun _ : NodeId => CNodeState) := ∅
  mapBlocksInFlight : AList (fun _ : Uint256 => NodeId × Address) := ∅
  /-- Number of blocks in flight with validated headers. -/
  nQueuedValidatedHeaders : Int := 0
  nPreferredDownload : Int := 0
  nSyncStarted : Int := 0
  orphans : OrphanPool := {}
  /-- Addresses from here on have not been handed out. -/
  nextAddress : Address := 0

/-- A `bool` in a sum. -/
def boolInt (b : Bool) : Int := if b then 1 else 0

namespace DownloadState

/-- `InitializeNode`: a peer that is known stays as it is. -/
def initializeNode (s : DownloadState) (nodeid : NodeId) : DownloadState :=
  match s.mapNodeState.lookup nodeid with
  | some _ => s
  | none => { s with mapNodeState := s.mapNodeState.insert nodeid {} }

/-- `FinalizeNode`. -/
def finalizeNode (s : DownloadState) (nodeid : NodeId) : Option DownloadState :=
  match s.mapNodeState.lookup nodeid with
  | none => none
  | some state => some
      { s with
        nSyncStarted := s.nSyncStarted - boolInt state.fSyncStarted
        mapBlocksInFlight := (state.vBlocksInFlight.map fun entry => entry.2.hash).foldl
          (fun m hash => m.erase hash) s.mapBlocksInFlight
        orphans := s.orphans.eraseOrphansFor nodeid
        nPreferredDownload := s.nPreferredDownload - boolInt state.fPreferredDownload
        mapNodeState := s.mapNodeState.erase nodeid }

/-- `MarkBlockAsReceived`. -/
def markBlockAsReceived (s : DownloadState) (hash : Uint256) : Option DownloadState :=
  match s.mapBlocksInFlight.lookup hash with
  | none => some s
  | some (nodeid, it) =>
    match s.mapNodeState.lookup nodeid with
    | none => none
    | some state =>
      match state.vBlocksInFlight.find? fun cell => cell.1 == it with
      | none => none
      | some cell => some
          { s with
            nQueuedValidatedHeaders := s.nQueuedValidatedHeaders - boolInt cell.2.fValidatedHeaders
            mapNodeState := s.mapNodeState.insert nodeid
              { state with
                vBlocksInFlight := state.vBlocksInFlight.eraseP fun cell => cell.1 == it
                nBlocksInFlight := state.nBlocksInFlight - 1
                nStallingSince := 0 }
            mapBlocksInFlight := s.mapBlocksInFlight.erase hash }

/-- `MarkBlockAsInFlight`, once the block is not listed somewhere already. -/
def enqueue (s : DownloadState) (nodeid : NodeId) (hash : Uint256) (pindex : Option Uint256)
    (nTime : Int) : Option DownloadState :=
  match s.mapNodeState.lookup nodeid with
  | none => none
  | some state =>
    let newentry : QueuedBlock :=
      { hash := hash, pindex := pindex, nTime := nTime
        nValidatedQueuedBefore := s.nQueuedValidatedHeaders
        fValidatedHeaders := pindex.isSome }
    some
      { s with
        nQueuedValidatedHeaders := s.nQueuedValidatedHeaders + boolInt newentry.fValidatedHeaders
        mapNodeState := s.mapNodeState.insert nodeid
          { state with
            vBlocksInFlight := state.vBlocksInFlight ++ [(s.nextAddress, newentry)]
            nBlocksInFlight := state.nBlocksInFlight + 1 }
        mapBlocksInFlight := s.mapBlocksInFlight.insert hash (nodeid, s.nextAddress)
        nextAddress := s.nextAddress + 1 }

/-- `MarkBlockAsInFlight`. -/
def markBlockAsInFlight (s : DownloadState) (nodeid : NodeId) (hash : Uint256)
    (pindex : Option Uint256) (nTime : Int) : Option DownloadState :=
  match s.mapNodeState.lookup nodeid with
  | none => none
  | some _ =>
    match s.markBlockAsReceived hash with
    | none => none
    | some s => s.enqueue nodeid hash pindex nTime

end DownloadState

inductive DownloadOp where
  | initializeNode (nodeid : NodeId)
  | finalizeNode (nodeid : NodeId)
  | markBlockAsReceived (hash : Uint256)
  /-- With the time of the request. -/
  | markBlockAsInFlight (nodeid : NodeId) (hash : Uint256) (pindex : Option Uint256) (nTime : Int)
deriving DecidableEq, Repr

def DownloadState.step (s : DownloadState) : DownloadOp → Option DownloadState
  | .initializeNode nodeid => some (s.initializeNode nodeid)
  | .finalizeNode nodeid => s.finalizeNode nodeid
  | .markBlockAsReceived hash => s.markBlockAsReceived hash
  | .markBlockAsInFlight nodeid hash pindex nTime => s.markBlockAsInFlight nodeid hash pindex nTime

end BitBlocks

/-!
## What the download bookkeeping adds up to

The map of blocks in flight is exact in every reachable state, and so is each peer's own
counter. The global counter is not: `FinalizeNode` drops a peer's queue without taking
its validated blocks off the counter, so it runs ahead by the number of these, and never
gets back.
-/

namespace BitBlocks

/-- The validated blocks of one queue. -/
def CNodeState.nValidated (state : CNodeState) : Nat :=
  state.vBlocksInFlight.countP fun cell => cell.2.fValidatedHeaders

namespace DownloadState

/-- The validated blocks of all queues. -/
def nValidated (s : DownloadState) : Nat := Table.total CNodeState.nValidated s.mapNodeState

/-- A peer's queue has this entry at this address. -/
def Cell (s : DownloadState) (nodeid : NodeId) (it : Address) (entry : QueuedBlock) : Prop :=
  ∃ state, s.mapNodeState.lookup nodeid = some state ∧ (it, entry) ∈ state.vBlocksInFlight

/-- A hash is mapped to the cell that holds it, and to nothing if there is none. -/
def BlocksExact (s : DownloadState) : Prop :=
  ∀ hash nodeid it, s.mapBlocksInFlight.lookup hash = some (nodeid, it) ↔
    ∃ entry, s.Cell nodeid it entry ∧ entry.hash = hash

structure Accounted (s : DownloadState) : Prop where
  queued : s.nQueuedValidatedHeaders = s.nValidated
  inFlight : ∀ nodeid state, s.mapNodeState.lookup nodeid = some state →
    state.nBlocksInFlight = state.vBlocksInFlight.length
  blocks : s.BlocksExact
  /-- No queue holds a block twice. -/
  once : ∀ nodeid state, s.mapNodeState.lookup nodeid = some state →
    (state.vBlocksInFlight.map fun cell => cell.2.hash).Nodup

/-- What holds of a peer in every reachable state. -/
structure PeerOk (nextAddress : Address) (state : CNodeState) : Prop where
  inFlight : state.nBlocksInFlight = state.vBlocksInFlight.length
  fresh : ∀ cell ∈ state.vBlocksInFlight, cell.1 < nextAddress
  nodup : (state.vBlocksInFlight.map Prod.fst).Nodup

/-- What holds in every reachable state. -/
structure Inv (s : DownloadState) : Prop where
  peers : ∀ nodeid state, s.mapNodeState.lookup nodeid = some state → PeerOk s.nextAddress state
  blocks : s.BlocksExact

/-- How far the global counter is ahead. -/
def drift (s : DownloadState) : Int := s.nQueuedValidatedHeaders - s.nValidated

/-- A peer is not let go while blocks with validated headers are in flight from it. -/
def LeavesNothing (s : DownloadState) : DownloadOp → Prop
  | .finalizeNode nodeid => ∀ state, s.mapNodeState.lookup nodeid = some state →
      ∀ cell ∈ state.vBlocksInFlight, cell.2.fValidatedHeaders = false
  | _ => True

variable {s s' : DownloadState} {nodeid : NodeId} {hash : Uint256} {it : Address}
  {state : CNodeState} {entry : QueuedBlock}

theorem boolInt_eq (b : Bool) : boolInt b = ((if b then 1 else 0 : Nat) : Int) := by
  cases b <;> rfl

/-! ## Cells -/

variable {l l₁ l₂ : List (Address × QueuedBlock)} {state' : CNodeState} {pindex : Option Uint256}
  {nTime : Int}

/-- An address is the address of one cell. -/
theorem cell_unique (hl : (l.map Prod.fst).Nodup) {cell cell' : Address × QueuedBlock}
    (h : cell ∈ l) (h' : cell' ∈ l) (he : cell.1 = cell'.1) :
    cell = cell' := List.inj_on_of_nodup_map hl h h' he

theorem find?_cell (hl : (l.map Prod.fst).Nodup) (hmem : (it, entry) ∈ l) :
    ∃ l₁ l₂, l = l₁ ++ (it, entry) :: l₂ ∧ (l.find? fun cell => cell.1 == it) = some (it, entry) ∧
      (l.eraseP fun cell => cell.1 == it) = l₁ ++ l₂ := by
  obtain ⟨l₁, l₂, rfl⟩ := List.append_of_mem hmem
  have hne : ∀ cell ∈ l₁, ¬ (cell.1 == it) = true := by
    intro cell hcell he
    rw [List.map_append, List.map_cons, List.nodup_append] at hl
    exact hl.2.2 cell.1 (List.mem_map_of_mem hcell) it List.mem_cons_self (beq_iff_eq.mp he)
  refine ⟨l₁, l₂, rfl, ?_, ?_⟩
  · rw [List.find?_append, List.find?_eq_none.mpr hne, Option.none_or, List.find?_cons_of_pos]
    exact beq_self_eq_true it
  · rw [List.eraseP_append_right _ hne, List.eraseP_cons_of_pos]
    exact beq_self_eq_true it

theorem mem_of_split (hl : ((l₁ ++ (it, entry) :: l₂).map Prod.fst).Nodup)
    (cell : Address × QueuedBlock) :
    cell ∈ l₁ ++ l₂ ↔ cell ∈ l₁ ++ (it, entry) :: l₂ ∧ cell.1 ≠ it := by
  have hperm : List.Perm (l₁ ++ (it, entry) :: l₂) ((it, entry) :: (l₁ ++ l₂)) := List.perm_middle
  have hnot : it ∉ (l₁ ++ l₂).map Prod.fst :=
    (List.nodup_cons.mp ((hperm.map Prod.fst).nodup_iff.mp hl)).1
  rw [hperm.mem_iff, List.mem_cons]
  constructor
  · intro h
    refine ⟨Or.inr h, ?_⟩
    intro he
    exact hnot (he ▸ List.mem_map_of_mem h)
  · intro ⟨h, hne⟩
    rcases h with rfl | h
    · exact absurd rfl hne
    · exact h

theorem Inv.cell_inj (h : s.Inv) {entry' : QueuedBlock} (hc : s.Cell nodeid it entry)
    (hc' : s.Cell nodeid it entry') : entry = entry' := by
  obtain ⟨state, hs, hmem⟩ := hc
  obtain ⟨state', hs', hmem'⟩ := hc'
  obtain rfl := Option.some.inj (hs.symm.trans hs')
  exact congrArg Prod.snd (cell_unique (h.peers nodeid state hs).nodup hmem hmem' rfl)

theorem Inv.accounted_iff_drift (h : s.Inv) : s.Accounted ↔ s.drift = 0 := by
  constructor
  · intro ha
    rw [drift, ha.queued, Int.sub_self]
  · intro hd
    refine ⟨?_, fun nodeid state hs => (h.peers nodeid state hs).inFlight, h.blocks, ?_⟩
    · rw [drift] at hd
      omega
    · intro nodeid state hs
      have hp := h.peers nodeid state hs
      refine List.Nodup.map_on ?_ hp.nodup.of_map
      intro cell hcell cell' hcell' he
      have hm := (h.blocks cell.2.hash nodeid cell.1).mpr ⟨cell.2, ⟨state, hs, hcell⟩, rfl⟩
      have hm' := (h.blocks cell.2.hash nodeid cell'.1).mpr ⟨cell'.2, ⟨state, hs, hcell'⟩, he.symm⟩
      have haddr := Option.some.inj (hm.symm.trans hm')
      exact cell_unique hp.nodup hcell hcell' (Prod.mk.inj haddr).2

/-! ## One peer's queue replaced -/

theorem cell_insert (hmap : s'.mapNodeState = s.mapNodeState.insert nodeid state) (n : NodeId)
    (a : Address) (e : QueuedBlock) :
    s'.Cell n a e ↔ if n = nodeid then (a, e) ∈ state.vBlocksInFlight else s.Cell n a e := by
  simp only [Cell, hmap, Table.lookup_insert]
  by_cases hn : n = nodeid
  · simp [hn]
  · simp [hn]

theorem nValidated_insert {old : CNodeState} (hl : s.mapNodeState.lookup nodeid = some old)
    (hmap : s'.mapNodeState = s.mapNodeState.insert nodeid state) :
    s'.nValidated + old.nValidated = s.nValidated + state.nValidated := by
  have hold := Table.total_erase CNodeState.nValidated hl
  rw [nValidated, nValidated, hmap, Table.total_insert, hold]
  omega

theorem Inv.peers_insert (h : s.Inv) (hmap : s'.mapNodeState = s.mapNodeState.insert nodeid state)
    (hnext : s.nextAddress ≤ s'.nextAddress) (hp : PeerOk s'.nextAddress state) :
    ∀ n st, s'.mapNodeState.lookup n = some st → PeerOk s'.nextAddress st := by
  intro n st hst
  rw [hmap, Table.lookup_insert] at hst
  split at hst
  · obtain rfl := Option.some.inj hst
    exact hp
  · have hold := h.peers n st hst
    exact ⟨hold.inFlight, fun cell hc => Nat.lt_of_lt_of_le (hold.fresh cell hc) hnext, hold.nodup⟩

/-! ## The operations -/

theorem Inv.empty : Inv {} where
  peers nodeid state h := by simp at h
  blocks hash nodeid it := by simp [Cell]

theorem Inv.initializeNode (h : s.Inv) (nodeid : NodeId) :
    (s.initializeNode nodeid).Inv ∧ (s.initializeNode nodeid).drift = s.drift := by
  rw [DownloadState.initializeNode]
  cases hl : s.mapNodeState.lookup nodeid with
  | some state => exact ⟨h, rfl⟩
  | none =>
    refine ⟨⟨?_, ?_⟩, ?_⟩
    · intro n st hst
      rcases Table.of_lookup_insert hst with ⟨-, rfl⟩ | ⟨-, hst⟩
      · exact ⟨rfl, by simp, by simp⟩
      · exact h.peers n st hst
    · intro hash n it
      rw [h.blocks hash n it]
      refine exists_congr fun entry => and_congr_left fun _ => ?_
      simp only [Cell, Table.lookup_insert]
      by_cases hn : n = nodeid
      · subst hn
        simp [hl]
      · simp [hn]
    · have ht := Table.total_insert_of_new CNodeState.nValidated hl {}
      simp only [drift, nValidated, ht]
      have h0 : CNodeState.nValidated {} = 0 := rfl
      omega

theorem Inv.finalizeNode (h : s.Inv) (hs : s.finalizeNode nodeid = some s') :
    s'.Inv ∧ s.drift ≤ s'.drift ∧
      (s'.drift = s.drift ↔ s.LeavesNothing (.finalizeNode nodeid)) := by
  rw [DownloadState.finalizeNode] at hs
  cases hl : s.mapNodeState.lookup nodeid with
  | none =>
    rw [hl] at hs
    simp at hs
  | some state =>
    rw [hl] at hs
    obtain rfl := Option.some.inj hs
    have htotal := Table.total_erase CNodeState.nValidated hl
    refine ⟨⟨?_, ?_⟩, ?_, ?_⟩
    · intro n st hst
      rw [Table.lookup_erase] at hst
      split at hst
      · simp at hst
      · exact h.peers n st hst
    · intro hash n it
      simp only [Cell, Table.lookup_foldl_erase, Table.lookup_erase]
      constructor
      · intro hlook
        split at hlook
        · simp at hlook
        · rename_i hnot
          obtain ⟨entry, ⟨st, hst, hmem⟩, he⟩ := (h.blocks hash n it).mp hlook
          refine ⟨entry, ⟨st, ?_, hmem⟩, he⟩
          rw [if_neg, hst]
          intro hn
          subst hn
          obtain rfl := Option.some.inj (hl.symm.trans hst)
          exact hnot (List.mem_map.mpr ⟨_, hmem, he⟩)
      · intro ⟨entry, ⟨st, hst, hmem⟩, he⟩
        split at hst
        · simp at hst
        · rename_i hn
          have hlook := (h.blocks hash n it).mpr ⟨entry, ⟨st, hst, hmem⟩, he⟩
          rw [if_neg, hlook]
          intro hin
          -- the same block would be in the queue that was dropped
          obtain ⟨cell, hcell, hch⟩ := List.mem_map.mp hin
          have hlook' := (h.blocks hash nodeid cell.1).mpr ⟨cell.2, ⟨state, hl, hcell⟩, hch⟩
          exact hn (Prod.mk.inj (Option.some.inj (hlook.symm.trans hlook'))).1
    · simp only [drift, nValidated]
      omega
    · have hzero : state.nValidated = 0 ↔ s.LeavesNothing (.finalizeNode nodeid) := by
        rw [CNodeState.nValidated, List.countP_eq_zero]
        simp only [LeavesNothing, hl, Option.some.injEq, Bool.not_eq_true]
        constructor
        · intro hall st hst cell hcell
          exact hall cell (hst ▸ hcell)
        · intro hall
          exact hall state rfl
      rw [← hzero]
      simp only [drift, nValidated]
      omega

/-- What `MarkBlockAsReceived` writes, when the block is in flight. -/
theorem markBlockAsReceived_eq (hb : s.mapBlocksInFlight.lookup hash = some (nodeid, it))
    (hl : s.mapNodeState.lookup nodeid = some state)
    (hfind : (state.vBlocksInFlight.find? fun cell => cell.1 == it) = some (it, entry))
    (herase : (state.vBlocksInFlight.eraseP fun cell => cell.1 == it) = l₁ ++ l₂) :
    ∃ s' state', s.markBlockAsReceived hash = some s' ∧
      s'.mapNodeState = s.mapNodeState.insert nodeid state' ∧
      state'.vBlocksInFlight = l₁ ++ l₂ ∧ state'.nBlocksInFlight = state.nBlocksInFlight - 1 ∧
      state'.nStallingSince = 0 ∧ s'.mapBlocksInFlight = s.mapBlocksInFlight.erase hash ∧
      s'.nQueuedValidatedHeaders = s.nQueuedValidatedHeaders - boolInt entry.fValidatedHeaders ∧
      s'.nextAddress = s.nextAddress := by
  rw [DownloadState.markBlockAsReceived, hb]
  dsimp only
  rw [hl]
  dsimp only
  rw [hfind]
  exact ⟨_, _, rfl, rfl, herase, rfl, rfl, rfl, rfl, rfl⟩

theorem PeerOk.removed {next : Address} (hp : PeerOk next state)
    (hsplit : state.vBlocksInFlight = l₁ ++ (it, entry) :: l₂)
    (hqueue : state'.vBlocksInFlight = l₁ ++ l₂)
    (hcount : state'.nBlocksInFlight = state.nBlocksInFlight - 1) : PeerOk next state' := by
  have hsub : List.Sublist state'.vBlocksInFlight state.vBlocksInFlight := by
    rw [hqueue, hsplit]
    exact (List.sublist_cons_self _ _).append_left _
  refine ⟨?_, fun cell hc => hp.fresh cell (hsub.subset hc), hp.nodup.sublist (hsub.map Prod.fst)⟩
  have hlen := hp.inFlight
  rw [hsplit, List.length_append, List.length_cons] at hlen
  rw [hcount, hqueue, List.length_append]
  omega

theorem Inv.blocks_removed (h : s.Inv) (hcell : s.Cell nodeid it entry) (hentry : entry.hash = hash)
    (hcells : ∀ n a e, s'.Cell n a e ↔ s.Cell n a e ∧ (n, a) ≠ (nodeid, it))
    (hblocks : s'.mapBlocksInFlight = s.mapBlocksInFlight.erase hash) : s'.BlocksExact := by
  intro hash' n a
  simp only [hblocks, Table.lookup_erase, hcells]
  constructor
  · intro hlook
    split at hlook
    · simp at hlook
    · rename_i hne
      obtain ⟨e, hc, he⟩ := (h.blocks hash' n a).mp hlook
      refine ⟨e, ⟨hc, ?_⟩, he⟩
      -- at the address that went, there was the block that arrived
      intro hna
      obtain ⟨rfl, rfl⟩ := Prod.mk.inj hna
      exact hne (by rw [← he, h.cell_inj hc hcell, hentry])
  · intro ⟨e, ⟨hc, hne⟩, he⟩
    have hlook := (h.blocks hash' n a).mpr ⟨e, hc, he⟩
    rw [if_neg, hlook]
    -- the arrived block was mapped to one address only
    intro hh
    subst hh
    rw [(h.blocks hash' nodeid it).mpr ⟨entry, hcell, hentry⟩] at hlook
    exact hne (Option.some.inj hlook).symm

theorem nValidated_split (hsplit : state.vBlocksInFlight = l₁ ++ (it, entry) :: l₂)
    (hqueue : state'.vBlocksInFlight = l₁ ++ l₂) :
    state.nValidated = state'.nValidated + if entry.fValidatedHeaders then 1 else 0 := by
  rw [CNodeState.nValidated, CNodeState.nValidated, hqueue, hsplit, List.countP_append,
    List.countP_cons, List.countP_append, Nat.add_assoc]

/-- What a block in flight leaves when it arrives. -/
theorem Inv.received (h : s.Inv) (hb : s.mapBlocksInFlight.lookup hash = some (nodeid, it)) :
    ∃ s' state', s.markBlockAsReceived hash = some s' ∧ s'.Inv ∧ s'.drift = s.drift ∧
      s'.mapBlocksInFlight = s.mapBlocksInFlight.erase hash ∧
      (∀ n a e, s'.Cell n a e ↔ s.Cell n a e ∧ (n, a) ≠ (nodeid, it)) ∧
      (s.mapNodeState.lookup nodeid).isSome = true ∧
      s'.mapNodeState = s.mapNodeState.insert nodeid state' ∧ state'.nStallingSince = 0 := by
  -- the map is exact, so the iterator can be followed
  obtain ⟨entry, hcell, hentry⟩ := (h.blocks hash nodeid it).mp hb
  obtain ⟨state, hl, hmem⟩ := id hcell
  have hp := h.peers nodeid state hl
  obtain ⟨l₁, l₂, hsplit, hfind, herase⟩ := find?_cell hp.nodup hmem
  obtain ⟨s', state', hs', hmap, hqueue, hcount, hstalling, hblocks, hqueued, hnext⟩ :=
    markBlockAsReceived_eq hb hl hfind herase
  have hpeer : PeerOk s'.nextAddress state' := hnext.symm ▸ hp.removed hsplit hqueue hcount
  have hcells : ∀ n a e, s'.Cell n a e ↔ s.Cell n a e ∧ (n, a) ≠ (nodeid, it) := by
    intro n a e
    rw [cell_insert hmap, hqueue, mem_of_split (hsplit ▸ hp.nodup), ← hsplit]
    by_cases hn : n = nodeid
    · subst hn
      simp [Cell, hl]
    · simp [hn]
  have hinv : s'.Inv := ⟨h.peers_insert hmap (Nat.le_of_eq hnext.symm) hpeer,
    h.blocks_removed hcell hentry hcells hblocks⟩
  have hdrift : s'.drift = s.drift := by
    have htotal := nValidated_insert hl hmap
    have hold := nValidated_split hsplit hqueue
    rw [drift, drift, hqueued, boolInt_eq]
    omega
  exact ⟨s', state', hs', hinv, hdrift, hblocks, hcells, by rw [hl]; rfl, hmap, hstalling⟩

/-- **A block arrives**: its one cell goes, and is taken off the books. -/
theorem Inv.markBlockAsReceived (h : s.Inv) (hash : Uint256) :
    ∃ s', s.markBlockAsReceived hash = some s' ∧ s'.Inv ∧ s'.drift = s.drift ∧
      s'.mapBlocksInFlight.lookup hash = none ∧
      ∀ n, (s'.mapNodeState.lookup n).isSome = (s.mapNodeState.lookup n).isSome := by
  cases hb : s.mapBlocksInFlight.lookup hash with
  | none =>
    refine ⟨s, ?_, h, rfl, hb, fun _ => rfl⟩
    rw [DownloadState.markBlockAsReceived, hb]
  | some p =>
    obtain ⟨nodeid, it⟩ := p
    obtain ⟨s', state', hs', hinv, hdrift, hblocks, -, hknown, hmap, -⟩ := h.received hb
    refine ⟨s', hs', hinv, hdrift, ?_, ?_⟩
    · rw [hblocks]
      exact AList.lookup_erase _ _
    · intro n
      rw [hmap, Table.lookup_insert]
      split
      · rename_i hn
        rw [hn, hknown]
        rfl
      · rfl

/-- What `MarkBlockAsInFlight` writes. -/
theorem enqueue_eq (hs : s.enqueue nodeid hash pindex nTime = some s') :
    ∃ state state' entry, s.mapNodeState.lookup nodeid = some state ∧ entry.hash = hash ∧
      s'.mapNodeState = s.mapNodeState.insert nodeid state' ∧
      state'.vBlocksInFlight = state.vBlocksInFlight ++ [(s.nextAddress, entry)] ∧
      state'.nBlocksInFlight = state.nBlocksInFlight + 1 ∧
      s'.mapBlocksInFlight = s.mapBlocksInFlight.insert hash (nodeid, s.nextAddress) ∧
      s'.nQueuedValidatedHeaders = s.nQueuedValidatedHeaders + boolInt entry.fValidatedHeaders ∧
      s'.nextAddress = s.nextAddress + 1 := by
  rw [DownloadState.enqueue] at hs
  cases hl : s.mapNodeState.lookup nodeid with
  | none =>
    rw [hl] at hs
    simp at hs
  | some state =>
    rw [hl] at hs
    obtain rfl := Option.some.inj hs
    exact ⟨state, _, _, rfl, rfl, rfl, rfl, rfl, rfl, rfl, rfl⟩

theorem PeerOk.added (hp : PeerOk it state)
    (hqueue : state'.vBlocksInFlight = state.vBlocksInFlight ++ [(it, entry)])
    (hcount : state'.nBlocksInFlight = state.nBlocksInFlight + 1) : PeerOk (it + 1) state' := by
  have hnew : it ∉ state.vBlocksInFlight.map Prod.fst := by
    intro hmem
    obtain ⟨cell, hc, he⟩ := List.mem_map.mp hmem
    exact Nat.lt_irrefl _ (he ▸ hp.fresh cell hc)
  refine ⟨?_, ?_, ?_⟩
  · have hlen := hp.inFlight
    rw [hcount, hqueue, List.length_append, List.length_singleton]
    omega
  · intro cell hc
    rw [hqueue, List.mem_append, List.mem_singleton] at hc
    rcases hc with hc | rfl
    · exact Nat.lt_succ_of_lt (hp.fresh cell hc)
    · exact Nat.lt_succ_self _
  · rw [hqueue, List.map_append, List.map_cons, List.map_nil]
    exact hp.nodup.append (List.nodup_singleton _) (List.disjoint_singleton.mpr hnew)

theorem Inv.blocks_added (h : s.Inv) (hfree : s.mapBlocksInFlight.lookup hash = none)
    (hentry : entry.hash = hash)
    (hcells : ∀ n a e, s'.Cell n a e ↔ s.Cell n a e ∨ (n = nodeid ∧ a = it ∧ e = entry))
    (hblocks : s'.mapBlocksInFlight = s.mapBlocksInFlight.insert hash (nodeid, it)) :
    s'.BlocksExact := by
  intro hash' n a
  simp only [hblocks, Table.lookup_insert, hcells]
  by_cases hh : hash' = hash
  · subst hh
    rw [if_pos rfl, Option.some.injEq, Prod.mk.injEq]
    constructor
    · intro ⟨hn, ha⟩
      exact ⟨entry, Or.inr ⟨hn.symm, ha.symm, rfl⟩, hentry⟩
    · intro ⟨e, hc, he⟩
      rcases hc with hc | ⟨hn, ha, -⟩
      -- an old cell with this block would be mapped, and the hash was free
      · have hlook := (h.blocks hash' n a).mpr ⟨e, hc, he⟩
        rw [hfree] at hlook
        simp at hlook
      · exact ⟨hn.symm, ha.symm⟩
  · rw [if_neg hh, h.blocks hash' n a]
    constructor
    · intro ⟨e, hc, he⟩
      exact ⟨e, Or.inl hc, he⟩
    · intro ⟨e, hc, he⟩
      rcases hc with hc | ⟨-, -, rfl⟩
      · exact ⟨e, hc, he⟩
      · exact absurd (he.symm.trans hentry) hh

/-- **A block is requested** that is not in flight: a new cell, counted and mapped. -/
theorem Inv.enqueue (h : s.Inv) (hfree : s.mapBlocksInFlight.lookup hash = none)
    {pindex : Option Uint256} {nTime : Int} (hs : s.enqueue nodeid hash pindex nTime = some s') :
    s'.Inv ∧ s'.drift = s.drift := by
  obtain ⟨state, state', entry, hl, hentry, hmap, hqueue, hcount, hblocks, hqueued, hnext⟩ :=
    enqueue_eq hs
  have hpeer : PeerOk s'.nextAddress state' :=
    hnext.symm ▸ (h.peers nodeid state hl).added hqueue hcount
  have hcells : ∀ n a e, s'.Cell n a e ↔
      s.Cell n a e ∨ (n = nodeid ∧ a = s.nextAddress ∧ e = entry) := by
    intro n a e
    rw [cell_insert hmap, hqueue, List.mem_append, List.mem_singleton]
    by_cases hn : n = nodeid
    · subst hn
      simp [Cell, hl]
    · simp [hn]
  refine ⟨⟨h.peers_insert hmap (hnext ▸ Nat.le_succ _) hpeer,
    h.blocks_added hfree hentry hcells hblocks⟩, ?_⟩
  have htotal := nValidated_insert hl hmap
  have hold : state'.nValidated = state.nValidated + if entry.fValidatedHeaders then 1 else 0 := by
    rw [CNodeState.nValidated, CNodeState.nValidated, hqueue, List.countP_append,
      List.countP_singleton]
  rw [drift, drift, hqueued, boolInt_eq]
  omega

theorem Inv.markBlockAsInFlight (h : s.Inv)
    (hs : s.markBlockAsInFlight nodeid hash pindex nTime = some s') :
    s'.Inv ∧ s'.drift = s.drift := by
  rw [DownloadState.markBlockAsInFlight] at hs
  cases hl : s.mapNodeState.lookup nodeid with
  | none =>
    rw [hl] at hs
    simp at hs
  | some state =>
    rw [hl] at hs
    obtain ⟨s1, hs1, hinv, hdrift, hfree, -⟩ := h.markBlockAsReceived hash
    rw [hs1] at hs
    obtain ⟨hinv', hdrift'⟩ := hinv.enqueue hfree hs
    exact ⟨hinv', hdrift'.trans hdrift⟩

/-! ## Runs -/

/-- **One operation**: the map stays exact, and only `FinalizeNode` adds to the drift. -/
theorem Inv.step {op : DownloadOp} (h : s.Inv) (hs : s.step op = some s') :
    s'.Inv ∧ s.drift ≤ s'.drift ∧ (s'.drift = s.drift ↔ s.LeavesNothing op) := by
  cases op with
  | initializeNode nodeid =>
    obtain rfl := Option.some.inj hs
    obtain ⟨hinv, hdrift⟩ := h.initializeNode nodeid
    exact ⟨hinv, Int.le_of_eq hdrift.symm, iff_of_true hdrift trivial⟩
  | finalizeNode nodeid => exact h.finalizeNode hs
  | markBlockAsReceived hash =>
    obtain ⟨s1, hs1, hinv, hdrift, -⟩ := h.markBlockAsReceived hash
    obtain rfl := Option.some.inj (hs1.symm.trans hs)
    exact ⟨hinv, Int.le_of_eq hdrift.symm, iff_of_true hdrift trivial⟩
  | markBlockAsInFlight nodeid hash pindex nTime =>
    obtain ⟨hinv, hdrift⟩ := h.markBlockAsInFlight hs
    exact ⟨hinv, Int.le_of_eq hdrift.symm, iff_of_true hdrift trivial⟩

/--
**The books balance as long as no peer is let go with validated blocks in flight**, and
never after one was.
-/
theorem accounted_iff_leavesNothing {ops : List DownloadOp}
    (hr : Machine.steps DownloadState.step {} ops = some s) :
    s.Accounted ↔ Machine.EveryStep DownloadState.step LeavesNothing {} ops := by
  obtain ⟨hinv, hdrift⟩ := Machine.steps_drift (e := drift) (fun _ _ _ h hs => Inv.step h hs)
    Inv.empty (Int.le_refl 0) hr
  rw [hinv.accounted_iff_drift, hdrift]
  exact and_iff_right rfl

/-- The requested block arrives before the peer is let go. -/
theorem accounted_iff_leavesNothing_of_received :
    let ops : List DownloadOp := [.initializeNode 1, .markBlockAsInFlight 1 7 (some 7) 0,
      .markBlockAsReceived 7, .finalizeNode 1]
    ∃ s, Machine.steps DownloadState.step {} ops = some s ∧ s.Accounted := by
  intro ops
  have hev : Machine.EveryStep DownloadState.step LeavesNothing {} ops := by
    refine ⟨trivial, fun s₁ h₁ => ?_⟩
    obtain rfl := Option.some.inj h₁
    refine ⟨trivial, fun s₂ h₂ => ?_⟩
    obtain rfl := Option.some.inj h₂
    refine ⟨trivial, fun s₃ h₃ => ?_⟩
    obtain rfl := Option.some.inj h₃
    refine ⟨fun state hs cell hc => ?_, fun _ _ => trivial⟩
    obtain rfl := Option.some.inj hs
    exact absurd hc List.not_mem_nil
  have hr : Machine.steps DownloadState.step {} ops = some _ := rfl
  exact ⟨_, hr, (accounted_iff_leavesNothing hr).mpr hev⟩

/-- A peer is let go with one block in flight: nothing is queued, and one is counted. -/
theorem not_accounted_of_finalizeNode : ∃ s, Machine.steps DownloadState.step {}
        [.initializeNode 1, .markBlockAsInFlight 1 7 (some 7) 0, .finalizeNode 1] = some s ∧
      s.nQueuedValidatedHeaders = 1 ∧ s.nValidated = 0 ∧ ¬ s.Accounted := by
  refine ⟨_, rfl, rfl, rfl, fun h => ?_⟩
  exact absurd h.queued (by decide)

end DownloadState

end BitBlocks
