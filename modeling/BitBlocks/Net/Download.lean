import BitBlocks.Chain.Skip
import BitBlocks.Chain.NodeInv
import BitBlocks.Net.InFlight

/-!
# Which blocks to download (`FindNextBlocksToDownload`)

What a node knows of the blocks a peer has: the best one it announced, and the last one on the
way there that both have. From there the blocks up to the best one are looked at in batches, each
filled from its end, until enough of them were found that are missing and not asked for yet, or
the window ends.

A pointer that is followed though it is `NULL` is `none`.
-/

namespace BitBlocks

/-- The entries of `mapBlockIndex`, with the pointers and hashes they are found by. -/
structure HeaderTree (α : Type) extends IndexTree α where
  pskip : α → Option α
  skips : ∀ b, b ≠ root → Skip.SkipsTo toParentTree pskip b
  hash : α → Uint256
  find : Uint256 → Option α
  find_hash : ∀ b, find (hash b) = some b

/-- The part of `CNodeState` on the blocks a peer has. -/
structure PeerBlocks (α : Type) where
  /-- The best known block we know this peer has announced. -/
  pindexBestKnownBlock : Option α := none
  /-- The hash of the last unknown block this peer has announced. -/
  hashLastUnknownBlock : Uint256 := 0
  /-- The last full block we both have. -/
  pindexLastCommonBlock : Option α := none

/-- The state that a call of `FindNextBlocksToDownload` reads, and two of its arguments. -/
structure FetchCall (α σ : Type) where
  node : Node α σ
  /-- `(nStatus & BLOCK_VALID_MASK) >= BLOCK_VALID_TREE`. -/
  validTree : α → Bool
  mapBlocksInFlight : AList fun _ : Uint256 => NodeId × Address
  nodeid : NodeId
  count : Nat

structure Fetch (α : Type) where
  pindexLastCommonBlock : α
  vBlocks : List α
  waitingfor : NodeId := -1
  nodeStaller : NodeId

structure FetchResult (α : Type) where
  state : PeerBlocks α
  vBlocks : List α
  nodeStaller : NodeId

def BLOCK_DOWNLOAD_WINDOW : Int := 1024

variable {α σ : Type} [DecidableEq α]

/-- `chainActive[nHeight]`. -/
def Node.chainAt (n : Node α σ) (nHeight : Int) : Option α :=
  if nHeight < 0 ∨ nHeight ≥ n.chainActive.length then none
  else n.chainActive.reverse[nHeight.toNat]?

omit [DecidableEq α] in
theorem HeaderTree.skips_branch (T : HeaderTree α) (b : α) : Skip.Skips T.toParentTree T.pskip b :=
  fun a _ hne => T.skips a hne

variable (T : HeaderTree α)

namespace PeerBlocks

variable (n : Node α σ)

/-- `mapBlockIndex.find`. -/
def find (hash : Uint256) : Option α := (T.find hash).filter fun b => decide (b ∈ n.mapBlockIndex)

/-- A block the peer has, which may be its best one. -/
def offer (state : PeerBlocks α) (b : α) : PeerBlocks α :=
  match state.pindexBestKnownBlock with
  | none => { state with pindexBestKnownBlock := some b }
  | some best =>
    if T.nChainWork b ≥ T.nChainWork best then { state with pindexBestKnownBlock := some b }
    else state

/-- `ProcessBlockAvailability`: check whether the last unknown block a peer advertised is known. -/
def processBlockAvailability (state : PeerBlocks α) : PeerBlocks α :=
  if state.hashLastUnknownBlock ≠ 0 then
    match find T n state.hashLastUnknownBlock with
    | none => state
    | some itOld =>
      if T.nChainWork itOld > 0 then { offer T state itOld with hashLastUnknownBlock := 0 }
      else state
  else state

/-- `UpdateBlockAvailability`. -/
def updateBlockAvailability (hash : Uint256) (state : PeerBlocks α) : PeerBlocks α :=
  let state := processBlockAvailability T n state
  match (find T n hash).filter fun it => decide (T.nChainWork it > 0) with
  -- an actually better block was announced
  | some it => offer T state it
  -- an unknown block was announced; just assume that the latest one is the best one
  | none => { state with hashLastUnknownBlock := hash }

omit [DecidableEq α] in
theorem offer_common (state : PeerBlocks α) (b : α) :
    (state.offer T b).pindexLastCommonBlock = state.pindexLastCommonBlock := by
  unfold offer
  split
  · rfl
  · split <;> rfl

theorem processBlockAvailability_common (state : PeerBlocks α) :
    (state.processBlockAvailability T n).pindexLastCommonBlock = state.pindexLastCommonBlock := by
  unfold processBlockAvailability
  split
  · split
    · rfl
    · split
      · exact offer_common T state _
      · rfl
  · rfl

theorem updateBlockAvailability_common (hash : Uint256) (state : PeerBlocks α) :
    (state.updateBlockAvailability T n hash).pindexLastCommonBlock =
      state.pindexLastCommonBlock := by
  unfold updateBlockAvailability
  dsimp only
  split
  · rw [offer_common, processBlockAvailability_common]
  · exact processBlockAvailability_common T n state

end PeerBlocks

namespace FetchCall

variable (C : FetchCall α σ)

/-- `IsValid(BLOCK_VALID_TREE)`. -/
def isValid (pindex : α) : Bool := !(C.node.status pindex).failed && C.validTree pindex

/-- The body of the loop over `vToFetch`, and whether it returned. -/
def visit (nWindowEnd : Int) (pindex : α) (s : Fetch α) : Fetch α × Bool :=
  -- we consider the chain that this peer is on invalid
  if !C.isValid pindex then (s, true)
  else if (C.node.status pindex).fHaveData then
    (if (C.node.status pindex).nChainTx ≠ 0 then { s with pindexLastCommonBlock := pindex } else s,
      false)
  else
    match C.mapBlocksInFlight.lookup (T.hash pindex) with
    | none =>
      -- the block is not already downloaded, and not yet in flight
      if T.depth pindex > nWindowEnd then
        -- we reached the end of the window
        (if s.vBlocks.length = 0 ∧ s.waitingfor ≠ C.nodeid then
          { s with nodeStaller := s.waitingfor } else s, true)
      else
        ({ s with vBlocks := s.vBlocks ++ [pindex] }, (s.vBlocks ++ [pindex]).length == C.count)
    | some (first, _) =>
      -- the first already-in-flight block
      (if s.waitingfor = -1 then { s with waitingfor := first } else s, false)

def visitAll (nWindowEnd : Int) : List α → Fetch α → Fetch α × Bool
  | [], s => (s, false)
  | pindex :: vToFetch, s =>
    match C.visit T nWindowEnd pindex s with
    | (s, true) => (s, true)
    | (s, false) => visitAll nWindowEnd vToFetch s

/-- The entries of `vToFetch` below the one that is there, filled backwards. -/
def fillBack : Nat → α → List α → Option (List α)
  | 0, _, vToFetch => some vToFetch
  | i + 1, pindex, vToFetch =>
    match T.parent pindex with
    | none => none
    | some pprev => fillBack i pprev (pprev :: vToFetch)

/--
How many successors to read: up to 128, or more if more blocks than that are needed. The number
that is needed is unsigned, and becomes an `int`.
-/
@[irreducible] def nToFetch (nMaxHeight : Int) (pindexWalk : α) (size : Nat) : Int :=
  min (nMaxHeight - T.depth pindexWalk) (max (((C.count : Int) - size).bmod (2 ^ 32)) 128)

/-- The next `vToFetch`, and its last entry. -/
def nextBatch (pindexBest : α) (nMaxHeight : Int) (pindexWalk : α) (size : Nat) :
    Option (α × List α) :=
  let nToFetch := C.nToFetch T nMaxHeight pindexWalk size
  match Skip.getAncestor T.toParentTree T.pskip pindexBest (T.depth pindexWalk + nToFetch) with
  | some (some pindexWalk) =>
    (fillBack T (nToFetch.toNat - 1) pindexWalk [pindexWalk]).map fun vToFetch =>
      (pindexWalk, vToFetch)
  | _ => none

/-- The loop over the batches; each but the last goes up, so the height bounds the rounds. -/
def walk (pindexBest : α) (nWindowEnd nMaxHeight : Int) : Nat → α → Fetch α → Option (Fetch α)
  | 0, _, _ => none
  | fuel + 1, pindexWalk, s =>
    if (T.depth pindexWalk : Int) < nMaxHeight then
      match C.nextBatch T pindexBest nMaxHeight pindexWalk s.vBlocks.length with
      | none => none
      | some (pindexWalk, vToFetch) =>
        match C.visitAll T nWindowEnd vToFetch s with
        | (s, true) => some s
        | (s, false) => walk pindexBest nWindowEnd nMaxHeight fuel pindexWalk s
    else some s

/-- `pindexLastCommonBlock` where the loop starts. -/
def commonBlock (state : PeerBlocks α) (pindexBest : α) : Option α :=
  -- bootstrap quickly by guessing a parent of our best tip is the forking point
  let last := state.pindexLastCommonBlock.or
    (C.node.chainAt (min (T.depth pindexBest : Int) C.node.height))
  -- the peer may have reorganized
  last.bind fun last =>
    (Skip.lastCommonAncestor T.toParentTree T.pskip last pindexBest).bind id

/-- `FindNextBlocksToDownload`. -/
def findNextBlocksToDownload (state : PeerBlocks α) (vBlocks : List α) (nodeStaller : NodeId) :
    Option (FetchResult α) :=
  if C.count = 0 then some ⟨state, vBlocks, nodeStaller⟩
  else
    -- make sure pindexBestKnownBlock is up to date, we'll need it
    let state := state.processBlockAvailability T C.node
    match state.pindexBestKnownBlock with
    | none => some ⟨state, vBlocks, nodeStaller⟩
    | some best =>
      match C.node.tip with
      | none => none
      | some tip =>
        -- this peer has nothing interesting
        if T.nChainWork best < T.nChainWork tip then some ⟨state, vBlocks, nodeStaller⟩
        else
          match C.commonBlock T state best with
          | none => none
          | some last =>
            let state := { state with pindexLastCommonBlock := some last }
            if last = best then some ⟨state, vBlocks, nodeStaller⟩
            else
              -- one more than the window is for the detection of stalling
              let nWindowEnd := ((T.depth last : Int) + BLOCK_DOWNLOAD_WINDOW).bmod (2 ^ 32)
              let nMaxHeight := min (T.depth best : Int) ((nWindowEnd + 1).bmod (2 ^ 32))
              (C.walk T best nWindowEnd nMaxHeight (T.depth best - T.depth last + 1) last
                { pindexLastCommonBlock := last, vBlocks := vBlocks
                  nodeStaller := nodeStaller }).map fun s =>
                ⟨{ state with pindexLastCommonBlock := some s.pindexLastCommonBlock },
                  s.vBlocks, s.nodeStaller⟩

/-! ## The batches -/

variable {T} {C}

section

omit [DecidableEq α]

theorem visitAll_append (nWindowEnd : Int) (l l' : List α) (s : Fetch α) :
    C.visitAll T nWindowEnd (l ++ l') s =
      match C.visitAll T nWindowEnd l s with
      | (s, true) => (s, true)
      | (s, false) => C.visitAll T nWindowEnd l' s := by
  induction l generalizing s with
  | nil => rfl
  | cons b l ih =>
    rw [List.cons_append, visitAll, visitAll]
    cases C.visit T nWindowEnd b s with
    | mk s returned =>
      cases returned with
      | true => rfl
      | false => exact ih s

theorem fillBack_spec {i : Nat} {a b c : α} {l : List α} (hup : T.up (i + 1) b = some a)
    (hl : T.Climbs b l c) : ∃ l', fillBack T i b (b :: l) = some l' ∧ T.Climbs a l' c := by
  induction i generalizing b l with
  | zero =>
    refine ⟨b :: l, rfl, .cons ?_ hl⟩
    rw [ParentTree.up, Option.bind_eq_some_iff] at hup
    obtain ⟨p, hp, hup⟩ := hup
    rw [hp]
    exact hup
  | succ i ih =>
    rw [ParentTree.up, Option.bind_eq_some_iff] at hup
    obtain ⟨p, hp, hup⟩ := hup
    rw [fillBack, hp]
    exact ih hup (.cons hp hl)

theorem nToFetch_spec {top b : α} (h : (T.depth b : Int) < T.depth top) (size : Nat) :
    ∃ k : Nat, C.nToFetch T (T.depth top) b size = (k + 1 : Nat) ∧
      T.depth b + (k + 1) ≤ T.depth top := by
  rw [nToFetch]
  generalize ((C.count : Int) - size).bmod (2 ^ 32) = room
  exact ⟨(min ((T.depth top : Int) - T.depth b) (max room 128)).toNat - 1, by omega, by omega⟩

theorem nextBatch_spec {best top b : α} (htop : top ∈ T.branch best) (hb : b ∈ T.branch top)
    (hlt : (T.depth b : Int) < T.depth top) (size : Nat) :
    ∃ c vToFetch, C.nextBatch T best (T.depth top) b size = some (c, vToFetch) ∧
      T.Climbs b vToFetch c ∧ c ∈ T.branch top ∧ T.depth b < T.depth c := by
  obtain ⟨k, hk, hle⟩ := nToFetch_spec (C := C) hlt size
  have htopbest := ParentTree.depth_le htop
  obtain ⟨c, hup⟩ := ParentTree.exists_up (T := T.toParentTree) (a := best)
    (n := T.depth best - (T.depth b + (k + 1))) (by omega)
  obtain ⟨hcbest, hdepth⟩ := ParentTree.up_eq_some.mp hup
  have hctop : c ∈ T.branch top := ParentTree.mem_branch_of_depth_le hcbest htop (by omega)
  have hbc : b ∈ T.branch c := ParentTree.mem_branch_of_depth_le hb hctop (by omega)
  obtain ⟨vToFetch, hfill, hclimbs⟩ := fillBack_spec (T := T) (i := k)
    (ParentTree.up_eq_some.mpr ⟨hbc, by omega⟩) (ParentTree.Climbs.nil c)
  refine ⟨c, vToFetch, ?_, hclimbs, hctop, by omega⟩
  have hanc : Skip.getAncestor T.toParentTree T.pskip best ((T.depth b : Int) + (k + 1 : Nat)) =
      some (some c) := by
    rw [← Int.natCast_add, Skip.getAncestor_eq (T.skips_branch best) (by omega), hup]
  rw [nextBatch, hk, hanc]
  dsimp only
  rw [Int.toNat_natCast, Nat.add_sub_cancel, hfill]
  rfl

/-- **The batches together are the way up**, or the part of it that was looked at. -/
theorem walk_eq {best top b : α} {nWindowEnd : Int} {fuel : Nat} {s : Fetch α}
    (htop : top ∈ T.branch best) (hb : b ∈ T.branch top) (hfuel : T.depth top < fuel + T.depth b) :
    ∃ path, T.Climbs b path top ∧ C.walk T best nWindowEnd (T.depth top) fuel b s =
      some (C.visitAll T nWindowEnd path s).1 := by
  induction fuel generalizing b s with
  | zero =>
    have := ParentTree.depth_le hb
    omega
  | succ fuel ih =>
    by_cases hlt : (T.depth b : Int) < T.depth top
    · rw [walk, if_pos hlt]
      obtain ⟨c, vToFetch, hbatch, hclimbs, hctop, hup⟩ :=
        nextBatch_spec (C := C) htop hb hlt s.vBlocks.length
      rw [hbatch]
      dsimp only
      cases hvisit : C.visitAll T nWindowEnd vToFetch s with
      | mk s' returned =>
        cases returned with
        | true =>
          obtain ⟨rest, hrest⟩ := ParentTree.exists_climbs hctop
          refine ⟨vToFetch ++ rest, hclimbs.append hrest, ?_⟩
          rw [visitAll_append, hvisit]
        | false =>
          obtain ⟨rest, hrest, heq⟩ := ih (s := s') hctop (by omega)
          refine ⟨vToFetch ++ rest, hclimbs.append hrest, ?_⟩
          rw [visitAll_append, hvisit]
          exact heq
    · rw [walk, if_neg hlt]
      have hle := ParentTree.depth_le hb
      obtain rfl : b = top :=
        ParentTree.eq_of_depth_eq hb (ParentTree.self_mem_branch top) (by omega)
      exact ⟨[], .nil b, rfl⟩

end

/-! ## What is picked -/

variable (T) (C) in
/-- The loop at `b`: what it has picked, and the last common block, are on the way to `b`. -/
structure Picked (start : α) (nWindowEnd : Int) (vBlocks : List α) (b : α) (s : Fetch α) :
    Prop where
  common : s.pindexLastCommonBlock ∈ T.branch b
  linked : C.node.Linked s.pindexLastCommonBlock
  start : start ∈ T.branch s.pindexLastCommonBlock
  picks : ∃ new, s.vBlocks = vBlocks ++ new ∧ new.Pairwise (fun a c => T.depth a < T.depth c) ∧
    ∀ x ∈ new, x ∈ T.branch b ∧ T.depth s.pindexLastCommonBlock < T.depth x ∧
      (T.depth x : Int) ≤ nWindowEnd ∧ (C.node.status x).fHaveData = false ∧
      C.mapBlocksInFlight.lookup (T.hash x) = none
  room : s.vBlocks.length ≤ C.count

section

omit [DecidableEq α]

theorem Picked.mono {start b c : α} {nWindowEnd : Int} {vBlocks : List α} {s : Fetch α}
    (h : C.Picked T start nWindowEnd vBlocks b s) (hc : b ∈ T.branch c) :
    C.Picked T start nWindowEnd vBlocks c s := by
  obtain ⟨new, heq, hpair, hnew⟩ := h.picks
  refine ⟨ParentTree.mem_branch_trans hc h.common, h.linked, h.start,
    ⟨new, heq, hpair, fun x hx => ?_⟩, h.room⟩
  obtain ⟨hmem, hrest⟩ := hnew x hx
  exact ⟨ParentTree.mem_branch_trans hc hmem, hrest⟩

/-- **One entry**: a linked one has nothing that is missing below it. -/
theorem Picked.visit {V : Verdicts α σ} (hn : C.node.NodeInv T.toIndexTree V []) {start b c : α}
    {nWindowEnd : Int} {vBlocks : List α} {s : Fetch α}
    (h : C.Picked T start nWindowEnd vBlocks b s) (hp : T.parent c = some b)
    (hroom : s.vBlocks.length < C.count) :
    C.Picked T start nWindowEnd vBlocks c (C.visit T nWindowEnd c s).1 ∧
      ((C.visit T nWindowEnd c s).2 = false →
        (C.visit T nWindowEnd c s).1.vBlocks.length < C.count) := by
  have hdepth := T.depth_parent hp
  have hstay := h.mono (ParentTree.parent_mem_branch hp)
  have hcommon := ParentTree.depth_le h.common
  unfold FetchCall.visit
  split
  · exact ⟨hstay, fun _ => hroom⟩
  split
  · split
    · rename_i hlinked
      refine ⟨?_, fun _ => hroom⟩
      obtain ⟨new, heq, -, hnew⟩ := h.picks
      have hnone : new = [] := by
        refine List.eq_nil_iff_forall_not_mem.mpr fun x hx => ?_
        obtain ⟨hmem, -, -, hdata, -⟩ := hnew x hx
        have hlink := hn.linked_branch (b := c) hlinked
          ((ParentTree.mem_branch_parent hp).mpr (Or.inr hmem))
        rw [hn.linked_data x hlink] at hdata
        exact absurd hdata (by simp)
      refine ⟨ParentTree.self_mem_branch c, hlinked, ?_, ⟨new, heq, ?_, ?_⟩, h.room⟩
      · exact ParentTree.mem_branch_trans
          ((ParentTree.mem_branch_parent hp).mpr (Or.inr h.common)) h.start
      · rw [hnone]
        exact List.Pairwise.nil
      · rw [hnone]
        exact fun x hx => absurd hx List.not_mem_nil
    · exact ⟨hstay, fun _ => hroom⟩
  rename_i hdata
  rw [Bool.not_eq_true] at hdata
  split
  · rename_i hflight
    split
    · split
      · exact ⟨⟨hstay.common, hstay.linked, hstay.start, hstay.picks, hstay.room⟩, nofun⟩
      · exact ⟨hstay, nofun⟩
    · rename_i hwindow
      refine ⟨⟨hstay.common, hstay.linked, hstay.start, ?_, ?_⟩, fun hmore => ?_⟩
      · obtain ⟨new, heq, hpair, hnew⟩ := h.picks
        refine ⟨new ++ [c], by rw [heq, List.append_assoc], ?_, fun x hx => ?_⟩
        · refine List.pairwise_append.mpr ⟨hpair, List.pairwise_singleton _ _, fun x hx y hy => ?_⟩
          have hle := ParentTree.depth_le (hnew x hx).1
          rw [List.mem_singleton.mp hy]
          omega
        · rcases List.mem_append.mp hx with hx | hx
          · obtain ⟨hmem, hrest⟩ := hnew x hx
            exact ⟨(ParentTree.mem_branch_parent hp).mpr (Or.inr hmem), hrest⟩
          · rw [List.mem_singleton.mp hx]
            exact ⟨ParentTree.self_mem_branch c, by dsimp only; omega, by omega, hdata, hflight⟩
      · rw [List.length_append, List.length_singleton]
        omega
      · rw [beq_eq_false_iff_ne] at hmore
        rw [List.length_append, List.length_singleton] at hmore ⊢
        omega
  · split
    · exact ⟨⟨hstay.common, hstay.linked, hstay.start, hstay.picks, hstay.room⟩, fun _ => hroom⟩
    · exact ⟨hstay, fun _ => hroom⟩

theorem Picked.visitAll {V : Verdicts α σ} (hn : C.node.NodeInv T.toIndexTree V []) {start b c : α}
    {nWindowEnd : Int} {vBlocks path : List α} {s : Fetch α} (hpath : T.Climbs b path c)
    (h : C.Picked T start nWindowEnd vBlocks b s) (hroom : s.vBlocks.length < C.count) :
    C.Picked T start nWindowEnd vBlocks c (C.visitAll T nWindowEnd path s).1 := by
  induction hpath generalizing s with
  | nil => exact h
  | cons hp hpath ih =>
    obtain ⟨hvisit, hmore⟩ := h.visit hn hp hroom
    rw [FetchCall.visitAll]
    split
    · rename_i heq
      rw [heq] at hvisit
      exact hvisit.mono hpath.mem_branch
    · rename_i heq
      rw [heq] at hvisit hmore
      exact ih hvisit (hmore rfl)

theorem walk_picked {V : Verdicts α σ} (hn : C.node.NodeInv T.toIndexTree V []) {start best : α}
    {nWindowEnd nMaxHeight : Int} {vBlocks : List α} {s : Fetch α} (hstart : start ∈ T.branch best)
    (hmax : nMaxHeight ≤ T.depth best) (h : C.Picked T start nWindowEnd vBlocks start s)
    (hroom : s.vBlocks.length < C.count) :
    ∃ s', C.walk T best nWindowEnd nMaxHeight (T.depth best - T.depth start + 1) start s = some s' ∧
      C.Picked T start nWindowEnd vBlocks best s' := by
  by_cases hlt : (T.depth start : Int) < nMaxHeight
  · obtain ⟨top, htop, hdepth⟩ := ParentTree.exists_mem_branch_depth (T := T.toParentTree)
      (a := best) (d := nMaxHeight.toNat) (by omega)
    obtain rfl : nMaxHeight = T.depth top := by omega
    have hmem := ParentTree.mem_branch_of_depth_le hstart htop (by omega)
    obtain ⟨path, hpath, hwalk⟩ : ∃ path, T.Climbs start path top ∧
        C.walk T best nWindowEnd (T.depth top) (T.depth best - T.depth start + 1) start s =
          some (C.visitAll T nWindowEnd path s).1 := walk_eq htop hmem (by omega)
    exact ⟨_, hwalk, (h.visitAll hn hpath hroom).mono htop⟩
  · exact ⟨s, by rw [walk, if_neg hlt], h.mono hstart⟩

end

/-! ## A call -/

theorem commonBlock_spec {V : Verdicts α σ} (hn : C.node.NodeInv T.toIndexTree V [])
    {state : PeerBlocks α} (best : α)
    (hlinked : ∀ b, state.pindexLastCommonBlock = some b → C.node.Linked b) :
    ∃ start, C.commonBlock T state best = some start ∧ start ∈ T.branch best ∧
      C.node.Linked start := by
  obtain ⟨last, hlast, hll⟩ : ∃ last, state.pindexLastCommonBlock.or
      (C.node.chainAt (min (T.depth best : Int) C.node.height)) = some last ∧
        C.node.Linked last := by
    cases hstate : state.pindexLastCommonBlock with
    | some last => exact ⟨last, rfl, hlinked last hstate⟩
    | none =>
      obtain ⟨t, hchain, hgood⟩ := hn.chain
      have hlen : C.node.chainActive.length = T.depth t + 1 := by
        rw [hchain, ParentTree.length_branch]
      have hmin : min (T.depth best : Int) C.node.height =
          (min (T.depth best) (T.depth t) : Nat) := by
        rw [Node.height, hlen]
        omega
      have hlt : min (T.depth best) (T.depth t) < C.node.chainActive.reverse.length := by
        rw [List.length_reverse, hlen]
        omega
      refine ⟨C.node.chainActive.reverse[min (T.depth best) (T.depth t)], ?_, ?_⟩
      · rw [Option.none_or, hmin, Node.chainAt, if_neg (by rw [hlen]; omega), Int.toNat_natCast,
          List.getElem?_eq_getElem hlt]
      · refine hn.linked_branch hgood.1 ?_
        rw [← hchain, ← List.mem_reverse]
        exact List.getElem_mem hlt
  obtain ⟨start, hstart, hcommon⟩ :=
    Skip.lastCommonAncestor_spec (T.skips_branch last) (T.skips_branch best)
  refine ⟨start, ?_, hcommon.right, hn.linked_branch hll hcommon.left⟩
  rw [commonBlock, hlast, Option.bind_some, hstart]
  rfl

theorem bmod_le {x : Int} (h : 0 ≤ x) : x.bmod (2 ^ 32) ≤ x := by
  rw [Int.bmod_def]
  split <;> omega

variable (T) (C) in
/-- What a call may leave, given the state it found. -/
structure Needed (state : PeerBlocks α) (vBlocks : List α) (out : FetchResult α) : Prop where
  /-- Blocks of the peer's best branch, that are missing and not in flight, in the window. -/
  picks : ∃ new, out.vBlocks = vBlocks ++ new ∧ new.length ≤ C.count ∧ new.Nodup ∧
    new.Pairwise (fun a b => T.depth a < T.depth b) ∧ ∀ b ∈ new,
      (C.node.status b).fHaveData = false ∧ C.mapBlocksInFlight.lookup (T.hash b) = none ∧
      ∃ best start last, out.state.pindexBestKnownBlock = some best ∧ b ∈ T.branch best ∧
        C.commonBlock T (state.processBlockAvailability T C.node) best = some start ∧
        (T.depth b : Int) ≤ T.depth start + BLOCK_DOWNLOAD_WINDOW ∧
        out.state.pindexLastCommonBlock = some last ∧ start ∈ T.branch last ∧
        T.depth last < T.depth b
  /-- Where the last common block is moved, both have everything. -/
  common : out.state.pindexLastCommonBlock = state.pindexLastCommonBlock ∨
    ∃ best last, out.state.pindexBestKnownBlock = some best ∧
      out.state.pindexLastCommonBlock = some last ∧ last ∈ T.branch best ∧
      ∀ a ∈ T.branch last, (C.node.status a).fHaveData = true ∧ C.node.Linked a

theorem Needed.same {state : PeerBlocks α} {vBlocks : List α} {out : FetchResult α}
    (hblocks : out.vBlocks = vBlocks)
    (hcommon : out.state.pindexLastCommonBlock = state.pindexLastCommonBlock) :
    C.Needed T state vBlocks out :=
  ⟨⟨[], by rw [hblocks, List.append_nil], Nat.zero_le _, List.nodup_nil,
    List.Pairwise.nil, fun _ hb => absurd hb List.not_mem_nil⟩, .inl hcommon⟩

/-- **What a call leaves is what is needed**, if the last common block was right before. -/
theorem findNextBlocksToDownload_spec {V : Verdicts α σ}
    (hn : C.node.NodeInv T.toIndexTree V []) {state : PeerBlocks α} {vBlocks : List α}
    (hlinked : ∀ b, state.pindexLastCommonBlock = some b → C.node.Linked b)
    (hroom : 0 < C.count → vBlocks.length < C.count) (nodeStaller : NodeId) :
    ∃ out, C.findNextBlocksToDownload T state vBlocks nodeStaller = some out ∧
      C.Needed T state vBlocks out := by
  have hsame := PeerBlocks.processBlockAvailability_common T C.node state
  unfold findNextBlocksToDownload
  split
  · exact ⟨_, rfl, .same rfl rfl⟩
  rename_i hcount
  dsimp only
  cases hbest : (state.processBlockAvailability T C.node).pindexBestKnownBlock with
  | none => exact ⟨_, rfl, .same rfl hsame⟩
  | some best =>
    obtain ⟨t, hchain, -⟩ := hn.chain
    rw [Node.tip_branch hchain]
    dsimp only
    split
    · exact ⟨_, rfl, .same rfl hsame⟩
    rw [← hsame] at hlinked
    obtain ⟨start, hstart, hmem, hlink⟩ := commonBlock_spec hn best hlinked
    rw [hstart]
    dsimp only
    -- where a last common block may be moved
    have hmoved : ∀ last, last ∈ T.branch best → C.node.Linked last →
        ∀ a ∈ T.branch last, (C.node.status a).fHaveData = true ∧ C.node.Linked a := by
      intro last _ hl a ha
      have := hn.linked_branch hl ha
      exact ⟨hn.linked_data a this, this⟩
    split
    · refine ⟨_, rfl, ⟨[], (List.append_nil _).symm, Nat.zero_le _, List.nodup_nil,
        List.Pairwise.nil, fun _ hb => absurd hb List.not_mem_nil⟩,
        .inr ⟨best, start, rfl, rfl, hmem, ?_⟩⟩
      exact hmoved start hmem hlink
    · generalize hend : ((T.depth start : Int) + BLOCK_DOWNLOAD_WINDOW).bmod (2 ^ 32) = nWindowEnd
      have hwindow : nWindowEnd ≤ T.depth start + BLOCK_DOWNLOAD_WINDOW := by
        rw [← hend]
        exact bmod_le (by rw [BLOCK_DOWNLOAD_WINDOW]; omega)
      have hinit : C.Picked T start nWindowEnd vBlocks start
          { pindexLastCommonBlock := start, vBlocks := vBlocks, nodeStaller := nodeStaller } :=
        ⟨ParentTree.self_mem_branch start, hlink, ParentTree.self_mem_branch start,
          ⟨[], (List.append_nil _).symm, List.Pairwise.nil, fun _ hb => absurd hb List.not_mem_nil⟩,
          Nat.le_of_lt (hroom (Nat.pos_of_ne_zero hcount))⟩
      obtain ⟨s, hwalk, hpicked⟩ := walk_picked hn hmem (Int.min_le_left _ _) hinit
        (hroom (Nat.pos_of_ne_zero hcount))
      rw [hwalk]
      obtain ⟨new, heq, hpair, hnew⟩ := hpicked.picks
      have hnodup : new.Nodup := hpair.imp fun hlt heq => Nat.ne_of_lt hlt (congrArg T.depth heq)
      refine ⟨_, rfl, ⟨new, heq, ?_, hnodup, hpair, fun b hb => ?_⟩, .inr ⟨best, _, rfl, rfl,
        hpicked.common, hmoved _ hpicked.common hpicked.linked⟩⟩
      · have := hpicked.room
        rw [heq, List.length_append] at this
        omega
      · obtain ⟨hb, habove, hend', hdata, hflight⟩ := hnew b hb
        exact ⟨hdata, hflight, best, start, _, rfl, hb, hstart, by omega, rfl, hpicked.start,
          habove⟩

end FetchCall

/-! ## Runs -/

namespace Node

variable {T : IndexTree α} {n : Node α σ}

theorem Linked.linkQueue {c : α} : ∀ {fuel : Nat} {queue : List α} {n : Node α σ}, n.Linked c →
    (Node.linkQueue T fuel queue n).Linked c
  | 0, _, _, h => h
  | _ + 1, [], _, h => h
  | _ + 1, x :: _, n, h => by
    have hnext : (n.link T x).Linked c := ((link_linkedNow T n x).linked_iff c).mpr (.inr h)
    rw [Node.linkQueue]
    exact Linked.linkQueue (n := { n.link T x with mapBlocksUnlinked := _ }) hnext

/-- **What is linked stays linked.** -/
theorem Linked.acceptBlock {V : Verdicts α σ} (hn : NodeInv T V [] n) (nMax : Int)
    {E : AcceptRules α σ} {b c : α} (h : n.Linked c) : (n.acceptBlock T nMax E b).1.Linked c := by
  unfold Node.acceptBlock
  cases he : n.acceptEntry T nMax E b with
  | error e => exact h
  | ok n1 =>
    have h1 : n1.Linked c ∧ NodeInv T V [] n1 := by
      rcases (acceptEntry_ok he).node with rfl | ⟨hb, rfl⟩
      · exact ⟨h, hn⟩
      · refine ⟨?_, hn.addToBlockIndex hb⟩
        have hcb : c ≠ b := by
          rintro rfl
          exact hb (hn.known c (hn.linked_data c h))
        show (Function.update n.status b {} c).nChainTx ≠ 0
        rw [Function.update_of_ne hcb]
        exact h
    obtain ⟨hl, hn1⟩ := h1
    dsimp only
    split
    · exact hl
    rename_i hd
    rw [Bool.not_eq_true] at hd
    cases E.checkBlock n1 b with
    | error e =>
      dsimp only
      split
      · rw [Linked, setStatus_status]
        split
        · rename_i hc
          subst hc
          exact hl
        · exact hl
      · exact hl
    | ok u =>
      have hstored := (hn1.haveData_linked hd c).mpr hl
      dsimp only
      exact receivedBlockTransactions_ind (motive := fun n' => n'.Linked c)
        (fun _ => hstored.linkQueue) hstored fun _ => hstored

end Node

/--
A node and what it knows of a peer. The node accepts blocks and connects them, in any order; the
peer connects, announces blocks, and is asked for some.
-/
inductive Downloads (T : HeaderTree α) (nMax : Int) : Node α σ → PeerBlocks α → Prop
  | genesis (state : σ) : Downloads T nMax (Node.genesis T.toIndexTree state) {}
  | accept {n : Node α σ} {p : PeerBlocks α} (E : AcceptRules α σ) (b : α) :
      Downloads T nMax n p → Downloads T nMax (n.acceptBlock T.toIndexTree nMax E b).1 p
  | activate {n : Node α σ} {p : PeerBlocks α} (ops : TipOps α σ) :
      Downloads T nMax n p → Downloads T nMax (n.activateRound T.toIndexTree ops).1 p
  | connect {n : Node α σ} {p : PeerBlocks α} : Downloads T nMax n p → Downloads T nMax n {}
  | announce {n : Node α σ} {p : PeerBlocks α} (hash : Uint256) :
      Downloads T nMax n p → Downloads T nMax n (p.updateBlockAvailability T n hash)
  | download {C : FetchCall α σ} {p : PeerBlocks α} {vBlocks : List α} {nodeStaller : NodeId}
      {out : FetchResult α} : Downloads T nMax C.node p →
      C.findNextBlocksToDownload T p vBlocks nodeStaller = some out →
      (0 < C.count → vBlocks.length < C.count) → Downloads T nMax C.node out.state

namespace Downloads

open Node

variable {T : HeaderTree α} {nMax : Int} {n : Node α σ} {p : PeerBlocks α}

/-- **Along every run, the last common block has its transactions, and so have its ancestors.** -/
theorem inv (h : Downloads T nMax n p) : NodeInv T.toIndexTree noVerdicts [] n ∧
    ∀ b, p.pindexLastCommonBlock = some b → n.Linked b := by
  induction h with
  | genesis state => exact ⟨nodeInv_genesis state trivial, nofun⟩
  | accept E b _ ih =>
    obtain ⟨hn, hlinked⟩ := ih
    exact ⟨nodeInv_acceptBlock nMax hn (accept_obeys_noVerdicts E _ b),
      fun c hc => (hlinked c hc).acceptBlock hn nMax⟩
  | activate ops _ ih =>
    obtain ⟨hn, hlinked⟩ := ih
    obtain ⟨hround, hlater, -⟩ := activateRound_spec (nodeInv_moves (obeys_noVerdicts ops)) hn
    exact ⟨hround, fun c hc => (hlater.linked c).mpr (hlinked c hc)⟩
  | connect _ ih => exact ⟨ih.1, nofun⟩
  | announce hash _ ih =>
    refine ⟨ih.1, fun c hc => ih.2 c ?_⟩
    rwa [PeerBlocks.updateBlockAvailability_common] at hc
  | download _ hcall hroom ih =>
    obtain ⟨hn, hlinked⟩ := ih
    refine ⟨hn, fun c hc => ?_⟩
    obtain ⟨out, hout, hneeded⟩ := FetchCall.findNextBlocksToDownload_spec hn hlinked hroom _
    obtain rfl := Option.some.inj (hcall.symm.trans hout)
    rcases hneeded.common with hsame | ⟨best, last, -, hlast, -, hhave⟩
    · exact hlinked c (hsame ▸ hc)
    · obtain rfl := Option.some.inj (hlast.symm.trans hc)
      exact (hhave _ (ParentTree.self_mem_branch _)).2

end Downloads

/--
**Parallel download picks only needed blocks.** In every state of a run the call ends, whatever
is in flight, if there is room in the list it is given; what it appends is needed, and it moves
the last common block only to where the node has everything.
-/
theorem findNextBlocksToDownload_needed (T : HeaderTree α) {nMax : Int} {C : FetchCall α σ}
    {state : PeerBlocks α} {vBlocks : List α} (h : Downloads T nMax C.node state)
    (hroom : 0 < C.count → vBlocks.length < C.count) (nodeStaller : NodeId) :
    ∃ out, C.findNextBlocksToDownload T state vBlocks nodeStaller = some out ∧
      C.Needed T state vBlocks out := by
  obtain ⟨hn, hlinked⟩ := h.inv
  exact FetchCall.findNextBlocksToDownload_spec hn hlinked hroom nodeStaller

/-! ### One header -/

namespace OneHeader

/-- Genesis, and a block on top of it. -/
def headers : HeaderTree Bool where
  root := false
  parent b := if b then some false else none
  depth b := b.toNat
  parent_root := rfl
  eq_root {a} h := by
    cases a with
    | false => rfl
    | true => exact absurd h (by simp)
  depth_root := rfl
  depth_parent {a b} h := by
    cases a with
    | false => exact absurd h (by simp)
    | true =>
      obtain rfl := Option.some.inj h
      rfl
  nChainWork b := b.toNat + 1
  nTx _ := 1
  nTx_pos _ := Nat.one_pos
  address b := b.toNat
  address_injective {a b} h := by
    cases a <;> cases b <;> simp_all
  pskip b := if b then some false else none
  skips b hne := by
    cases b with
    | false => exact absurd rfl hne
    | true => rfl
  hash b := if b then 2 else 1
  find hash := if hash = 1 then some false else if hash = 2 then some true else none
  find_hash b := by cases b <;> rfl

/-- A header arrives, and its block is damaged on the way. -/
def headersFirst : AcceptRules Bool Unit where
  checkWork _ _ := .ok ()
  checkBlockHeader _ := .ok ()
  contextualCheckBlockHeader _ _ := .ok ()
  checkBlock _ _ := .error (.corrupt 100 "bad-txnmrklroot")

def call : FetchCall Bool Unit where
  node := ((Node.genesis headers.toIndexTree ()).acceptBlock headers.toIndexTree 100 headersFirst
    true).1
  validTree _ := true
  mapBlocksInFlight := ∅
  nodeid := 0
  count := 16

def peer : PeerBlocks Bool := PeerBlocks.updateBlockAvailability headers call.node 2 {}

theorem commonBlock_eq : call.commonBlock headers peer true = some false := by
  obtain ⟨start, hstart, hlast⟩ := Skip.lastCommonAncestor_spec (headers.skips_branch false)
    (headers.skips_branch true)
  obtain rfl : start = false := List.mem_singleton.mp hlast.left
  rw [FetchCall.commonBlock, show peer.pindexLastCommonBlock = none from rfl,
    show call.node.chainAt (min (headers.depth true : Int) call.node.height) = some false by decide]
  exact congrArg (Option.bind · id) hstart

theorem nextBatch_eq : call.nextBatch headers true 1 false 0 = some (true, [true]) := by
  have hone : call.nToFetch headers 1 false 0 = 1 := by
    rw [FetchCall.nToFetch]
    decide
  have htop : Skip.getAncestor headers.toParentTree headers.pskip true ((1 : Nat) : Int) =
      some (some true) := Skip.getAncestor_eq (headers.skips_branch true) (le_refl _)
  rw [FetchCall.nextBatch, hone,
    show ((headers.depth false : Nat) : Int) + 1 = ((1 : Nat) : Int) from rfl, htop]
  rfl

theorem walk_eq : call.walk headers true 1024 1 2 false ⟨false, [], -1, -1⟩ =
    some ⟨false, [true], -1, -1⟩ := by
  rw [FetchCall.walk, if_pos (by decide)]
  dsimp only
  rw [List.length_nil, nextBatch_eq]
  dsimp only
  rw [show call.visitAll headers 1024 [true] ⟨false, [], -1, -1⟩ = (⟨false, [true], -1, -1⟩, false)
    from rfl]
  dsimp only
  rw [FetchCall.walk, if_neg (by decide)]

theorem vBlocks_eq : (call.findNextBlocksToDownload headers peer [] (-1)).map FetchResult.vBlocks =
    some [true] := by
  have hstate : peer.processBlockAvailability headers call.node = peer := rfl
  rw [FetchCall.findNextBlocksToDownload, if_neg (by decide), hstate]
  dsimp only
  rw [show peer.pindexBestKnownBlock = some true by decide,
    show call.node.tip = some false by decide]
  dsimp only
  rw [if_neg (by decide), commonBlock_eq]
  dsimp only
  rw [if_neg (by decide),
    show (((headers.depth false : Nat) : Int) + BLOCK_DOWNLOAD_WINDOW).bmod (2 ^ 32) =
    1024 by decide,
    show min ((headers.depth true : Nat) : Int) ((1024 + 1 : Int).bmod (2 ^ 32)) = 1 by decide,
    show headers.depth true - headers.depth false + 1 = 2 by decide, walk_eq]
  rfl

end OneHeader

open OneHeader in
/-- The block whose header is there is picked. -/
theorem findNextBlocksToDownload_needed_header :
    ∃ out, call.findNextBlocksToDownload headers peer [] (-1) = some out ∧ out.vBlocks = [true] ∧
      (call.node.status true).fHaveData = false ∧
      ∃ best, out.state.pindexBestKnownBlock = some best ∧ true ∈ headers.branch best := by
  have hreached : Downloads headers 100 call.node peer :=
    .announce 2 (.accept headersFirst true (.genesis ()))
  have hroom : 0 < call.count → ([] : List Bool).length < call.count := fun h => h
  obtain ⟨out, hout, hneeded⟩ := findNextBlocksToDownload_needed headers hreached hroom (-1)
  have hpicked := vBlocks_eq
  rw [hout] at hpicked
  have hblocks := Option.some.inj hpicked
  obtain ⟨new, hnew, -, -, -, hneed⟩ := hneeded.picks
  obtain rfl : [true] = new := hblocks.symm.trans hnew
  obtain ⟨hmissing, -, best, _, _, hbest, hbranch, -⟩ := hneed true List.mem_cons_self
  exact ⟨out, hout, hblocks, hmissing, best, hbest, hbranch⟩

end BitBlocks
