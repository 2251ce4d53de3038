import BitBlocks.Chain.IndexEntry

/-!
# The block index of a running node

Entries as `AcceptBlock` and `ActivateBestChain` leave them: what the node keeps of them,
and the data beside it. Whatever the calls, an entry's data follow from its block and its
ancestors (`EntryRight`), except for the amounts and positions, and the number of
transactions of a linked branch adds up (`Counted`).
-/

namespace BitBlocks

/-- A tree whose blocks a node can have in its index. -/
structure IndexedTree (R : Rules) (P : CChainParams) (tree : BlockTree) (α : Type) extends
    BlockMap R P tree α where
  hash_ne_zero : ∀ a, hash a ≠ 0
  hashPrevBlock_root : (tree (hash root)).hashPrevBlock = 0
  nTx_block : ∀ a, nTx a = (tree (hash a)).vtx.length
  nChainWork_block : ∀ a, nChainWork a =
    (((parent a).map nChainWork).getD 0 + getBlockProof (tree (hash a)).nBits) % 2 ^ 256

structure IndexState (α σ : Type) where
  node : Node α σ
  entry : α → EntryData

variable {R : Rules} {P : CChainParams} {tree : BlockTree} {α σ : Type} [DecidableEq α]

namespace IndexState

variable (B : IndexedTree R P tree α) (H : ChecksumHash)

/-- `pindex->pprev`. -/
def pprev (s : IndexState α σ) (b : α) : Option EntryData := (B.parent b).map s.entry

def update (s : IndexState α σ) (b : α) (e : EntryData) : IndexState α σ :=
  { s with entry := Function.update s.entry b e }

/-- `AcceptBlock`: the entry is written if it is new, and again if the block is stored. -/
def acceptBlock (nMax : Int) (E : AcceptRules α σ) (s : IndexState α σ) (b : α) (x : IndexInput) :
    IndexState α σ :=
  let node := (s.node.acceptBlock B.toIndexTree nMax E b).1
  let fAdded := decide (b ∉ s.node.mapBlockIndex) && decide (b ∈ node.mapBlockIndex)
  let fStored := (node.status b).fHaveData && !(s.node.status b).fHaveData
  let added :=
    if fAdded then EntryData.addToBlockIndex H (B.hash b) (B.block b) x (s.pprev B b) else s.entry b
  let stored :=
    if fStored then added.receivedBlockTransactions (B.block b) x (node.status b).failed else added
  { node := node, entry := Function.update s.entry b stored }

/-- A round of `ActivateBestChain`. What it connects writes to the entries on its own. -/
def activateRound (ops : TipOps α σ) (s : IndexState α σ) : IndexState α σ :=
  { s with node := (s.node.activateRound B.toIndexTree ops).1 }

def connectBlock (s : IndexState α σ) (b : α) (x : ConnectInput) : IndexState α σ :=
  s.update b ((s.entry b).connectBlock x (s.node.status b).failed (s.pprev B b))

/-- After the genesis block was accepted and connected. -/
def genesis (state : σ) (x : IndexInput) : IndexState α σ where
  node := Node.genesis B.toIndexTree state
  entry b := EntryData.receivedBlockTransactions (B.block b) x false
    (EntryData.addToBlockIndex H (B.hash b) (B.block b) x none)

/-- The indexes that blocks lead to which are accepted and connected in any order. -/
inductive Reached (nMax : Int) : IndexState α σ → Prop
  | genesis (state : σ) (x : IndexInput) : Reached nMax (genesis B H state x)
  | accept {s : IndexState α σ} (E : AcceptRules α σ) (b : α) (x : IndexInput) :
      Reached nMax s → Reached nMax (s.acceptBlock B H nMax E b x)
  | activate {s : IndexState α σ} (ops : TipOps α σ) :
      Reached nMax s → Reached nMax (s.activateRound B ops)
  | connect {s : IndexState α σ} (b : α) (x : ConnectInput) :
      Reached nMax s → b ∈ s.node.mapBlockIndex → Reached nMax (s.connectBlock B b x)

end IndexState

/-! ## The node -/

namespace Node

variable {T : IndexTree α} {n : Node α σ}

/-- The transactions of a linked branch add up, and numbers are given out in order. -/
structure Counted (T : IndexTree α) (n : Node α σ) : Prop where
  count : ∀ b, n.Linked b → (n.status b).nChainTx = n.prevChainTx T b + T.nTx b
  sequence : ∀ b, (n.status b).nSequenceId < n.nBlockSequenceId
  nodup : n.mapBlockIndex.Nodup
  root : T.root ∈ n.mapBlockIndex
  parent : ∀ b ∈ n.mapBlockIndex, ∀ a, T.parent b = some a → a ∈ n.mapBlockIndex

omit [DecidableEq α] in
theorem Counted.congr {m : Node α σ} (h : Counted T n)
    (hst : ∀ b, (m.status b).nChainTx = (n.status b).nChainTx ∧
      (m.status b).nSequenceId = (n.status b).nSequenceId)
    (hindex : m.mapBlockIndex = n.mapBlockIndex)
    (hnext : m.nBlockSequenceId = n.nBlockSequenceId) : Counted T m := by
  refine ⟨fun b hb => ?_, fun b => ?_, hindex ▸ h.nodup, hindex ▸ h.root, hindex ▸ h.parent⟩
  · have hprev : m.prevChainTx T b = n.prevChainTx T b := by
      unfold prevChainTx
      cases T.parent b with
      | none => rfl
      | some a => exact (hst a).1
    unfold Linked at hb
    rw [(hst b).1] at hb ⊢
    rw [hprev]
    exact h.count b hb
  · rw [(hst b).2, hnext]
    exact h.sequence b

theorem counted_moves (ops : TipOps α σ) :
    Moves T ops fun n => NodeInv T noVerdicts [] n ∧ Counted T n where
  chain h := (nodeInv_moves (obeys_noVerdicts ops)).chain h.1
  discard {n b t} h hb ht hact hu :=
    have hlater := later_discard (T := T) n b t
    ⟨(nodeInv_moves (obeys_noVerdicts ops)).discard h.1 hb ht hact hu,
      h.2.congr (fun b => ⟨hlater.chainTx b, hlater.sequence b⟩) hlater.index
        (by unfold discard; dsimp only; split <;> rfl)⟩
  disconnect h hchain hp hd := ⟨(nodeInv_moves (obeys_noVerdicts ops)).disconnect h.1 hchain hp hd,
      h.2.congr (fun _ => ⟨rfl, rfl⟩) rfl rfl⟩
  connect {n t b s} h hchain hp hu hc :=
    ⟨(nodeInv_moves (obeys_noVerdicts ops)).connect h.1 hchain hp hu hc,
      h.2.congr (fun b => by simp) (by simp)
        (by unfold connectTip pruneBlockIndexCandidates; split <;> rfl)⟩
  invalid {n t b} h hchain hp hu hc :=
    have hlater := later_invalidBlockFound n b
    ⟨(nodeInv_moves (obeys_noVerdicts ops)).invalid h.1 hchain hp hu hc,
      h.2.congr (fun b => ⟨hlater.chainTx b, hlater.sequence b⟩) hlater.index rfl⟩

theorem link_status (x b : α) : (n.link T x).status b =
    if b = x then { n.status x with nChainTx := n.prevChainTx T x + T.nTx x
                                    nSequenceId := n.nBlockSequenceId }
    else n.status b := by
  unfold link
  dsimp only
  split <;> exact setStatus_status n x b fun s =>
    { s with nChainTx := n.prevChainTx T x + T.nTx x, nSequenceId := n.nBlockSequenceId }

theorem link_nBlockSequenceId (x : α) : (n.link T x).nBlockSequenceId = n.nBlockSequenceId + 1 := by
  unfold link
  dsimp only
  split <;> rfl

theorem Counted.link {V : Verdicts α σ} {x : α} {queue : List α} {unlinked : List (α × α)}
    (hinv : NodeInv T V (x :: queue) n) (h : Counted T n) :
    Counted T { n.link T x with mapBlocksUnlinked := unlinked } := by
  have hindex := (link_linkedNow T n x).index
  obtain ⟨-, hx, -⟩ := hinv.pending x (by simp)
  refine ⟨fun b hb => ?_, fun b => ?_, hindex ▸ h.nodup, hindex ▸ h.root, hindex ▸ h.parent⟩
  · -- the parent is not the entry that is linked now
    have hprev : ∀ b, (∀ a, T.parent b = some a → a ≠ x) →
        prevChainTx T { n.link T x with mapBlocksUnlinked := unlinked } b = n.prevChainTx T b := by
      intro b hne
      unfold prevChainTx
      cases hp : T.parent b with
      | none => rfl
      | some a =>
        show ((n.link T x).status a).nChainTx = _
        rw [link_status, if_neg (hne a hp)]
    unfold Linked at hb
    change ((n.link T x).status b).nChainTx ≠ 0 at hb
    show ((n.link T x).status b).nChainTx = _
    rw [link_status] at hb ⊢
    by_cases hbx : b = x
    · rw [if_pos hbx, hbx, hprev x]
      intro a hp hax
      have := T.depth_parent hp
      rw [hax] at this
      omega
    · rw [if_neg hbx] at hb ⊢
      rw [hprev b]
      · exact h.count b hb
      · rintro a hp rfl
        exact hx (hinv.linked_parent b a hb hp)
  · show ((n.link T x).status b).nSequenceId < (n.link T x).nBlockSequenceId
    have := h.sequence b
    rw [link_status, link_nBlockSequenceId]
    split
    · exact Nat.lt_succ_self _
    · omega

theorem Counted.linkQueue {V : Verdicts α σ} : ∀ {fuel : Nat} {queue : List α} {n : Node α σ},
    NodeInv T V queue n → Counted T n → Counted T (linkQueue T fuel queue n)
  | 0, _, _, _, h => h
  | _ + 1, [], _, _, h => h
  | _ + 1, _ :: _, _, hinv, h => by
    rw [Node.linkQueue]
    exact Counted.linkQueue hinv.linkFirst (h.link hinv)

theorem Counted.receivedBlockTransactions {b a : α} (hinv : NodeInv T noVerdicts [] n)
    (h : Counted T n) (hb : b ∈ n.mapBlockIndex) (hd : (n.status b).fHaveData = false)
    (hf : (n.status b).failed = false) (hp : T.parent b = some a) (ha : a ∈ n.mapBlockIndex) :
    Counted T (n.receivedBlockTransactions T b) := by
  have hl := hinv.haveData_linked hd
  have hbl : (n.status b).nChainTx = 0 := by
    by_contra hne
    rw [hinv.linked_data b hne] at hd
    exact absurd hd (by simp)
  have h1 : Counted T (n.haveData b) := by
    refine h.congr (fun c => ?_) rfl rfl
    rw [haveData_status]
    split
    · rename_i hc
      subst hc
      exact ⟨hbl.symm, rfl⟩
    · exact ⟨rfl, rfl⟩
  unfold Node.receivedBlockTransactions
  rw [hp]
  dsimp only
  rw [← haveData]
  split
  · rename_i hla
    exact h1.linkQueue (hinv.haveData_linking hb hd hf hp ha trivial ((hl a).mp hla))
  · split
    · exact h1
    · exact h1.congr (fun _ => ⟨rfl, rfl⟩) rfl rfl

theorem Counted.addToBlockIndex {b : α} (hinv : NodeInv T noVerdicts [] n) (h : Counted T n)
    (hb : b ∉ n.mapBlockIndex) (hp : ∀ a, T.parent b = some a → a ∈ n.mapBlockIndex) :
    Counted T (n.addToBlockIndex b) := by
  have hst := addToBlockIndex_status n b
  refine ⟨fun c hc => ?_, fun c => ?_, List.nodup_cons.mpr ⟨hb, h.nodup⟩,
    List.mem_cons_of_mem _ h.root, fun c hc a hca => ?_⟩
  · unfold Linked at hc
    rw [hst] at hc ⊢
    by_cases hcb : c = b
    · rw [if_pos hcb] at hc
      exact absurd rfl hc
    · rw [if_neg hcb] at hc ⊢
      rw [h.count c hc]
      unfold prevChainTx
      cases hca : T.parent c with
      | none => rfl
      | some a =>
        -- a linked entry has its parent in the index, so that is not the new one
        have hab : a ≠ b := by
          rintro rfl
          exact hb (hinv.parent_known c a (hinv.linked_data c hc) hca)
        dsimp only
        rw [hst, if_neg hab]
  · rw [hst]
    split
    · exact Nat.lt_of_le_of_lt (Nat.zero_le _) (h.sequence c)
    · exact h.sequence c
  · rcases List.mem_cons.mp hc with rfl | hc
    · exact List.mem_cons_of_mem _ (hp a hca)
    · exact List.mem_cons_of_mem _ (h.parent c hc a hca)

/-- **`AcceptBlock` keeps the counts.** -/
theorem counted_acceptBlock {nMax : Int} {E : AcceptRules α σ} {b : α}
    (hinv : NodeInv T noVerdicts [] n) (h : Counted T n) :
    Counted T (n.acceptBlock T nMax E b).1 := by
  unfold acceptBlock
  cases he : n.acceptEntry T nMax E b with
  | error e => exact h
  | ok n1 =>
    have hen := acceptEntry_ok he
    have h1 : NodeInv T noVerdicts [] n1 ∧ Counted T n1 := by
      rcases hen.node with rfl | ⟨hb, rfl⟩
      · exact ⟨hinv, h⟩
      · refine ⟨hinv.addToBlockIndex hb, h.addToBlockIndex hinv hb fun a ha => ?_⟩
        rcases List.mem_cons.mp (hen.prev a ha).1 with hab | hmem
        · have := T.depth_parent ha
          rw [hab] at this
          omega
        · exact hmem
    obtain ⟨hinv1, h1⟩ := h1
    dsimp only
    split
    · exact h1
    · rename_i hd
      have hd : (n1.status b).fHaveData = false := by simpa using hd
      cases hc : E.checkBlock n1 b with
      | error e =>
        dsimp only
        split
        · refine h1.congr (fun c => ?_) rfl rfl
          rw [setStatus_status]
          split
          · rename_i hc; subst hc; exact ⟨rfl, rfl⟩
          · exact ⟨rfl, rfl⟩
        · exact h1
      | ok u =>
        dsimp only
        obtain ⟨a, ha⟩ := hinv1.exists_parent hd
        exact h1.receivedBlockTransactions hinv1 hen.known hd hen.fresh ha (hen.prev a ha).1

theorem counted_genesis (state : σ) : Counted T (Node.genesis T state) := by
  have hst : ∀ b, (Node.genesis T state).status b =
      if b = T.root then { nChainTx := T.nTx T.root, nSequenceId := 1, fHaveData := true }
      else {} := by
    intro b
    by_cases hb : b = T.root
    · subst hb; simp [Node.genesis]
    · simp [Node.genesis, hb]
  refine ⟨fun b hb => ?_, fun b => ?_, List.nodup_singleton _, List.mem_singleton.mpr rfl,
    fun b hb a ha => ?_⟩
  · unfold Linked at hb
    rw [hst] at hb ⊢
    by_cases hbr : b = T.root
    · rw [if_pos hbr, hbr, prevChainTx, T.parent_root]
      exact (Nat.zero_add _).symm
    · rw [if_neg hbr] at hb
      exact absurd rfl hb
  · rw [hst]
    split
    · exact Nat.one_lt_two
    · exact Nat.two_pos
  · rw [List.mem_singleton.mp hb, T.parent_root] at ha
    exact absurd ha (by simp)

end Node

/-! ## The entries -/

namespace EntryData

theorem raiseValidity_eq (failed : Bool) (nUpTo : Nat) (e : EntryData) :
    ∃ nValid, raiseValidity failed nUpTo e = { e with nValid := nValid } := by
  unfold raiseValidity
  split
  · exact ⟨e.nValid, rfl⟩
  · split
    · exact ⟨nUpTo, rfl⟩
    · exact ⟨e.nValid, rfl⟩

theorem getBlockTrust_congr {e f : EntryData} (hbits : e.nBits = f.nBits)
    (hstake : e.fProofOfStake = f.fProofOfStake) : e.getBlockTrust = f.getBlockTrust := by
  unfold getBlockTrust
  rw [hbits, hstake]

theorem getBlockTrust_lt (e : EntryData) : e.getBlockTrust < 2 ^ 256 := by
  unfold getBlockTrust
  dsimp only
  split
  · norm_num
  · split
    · rw [Nat.mod_self, Nat.zero_div]
      norm_num
    · split
      · exact Nat.lt_of_le_of_lt ((Nat.div_le_self _ _).trans (Nat.div_le_self _ _)) (by norm_num)
      · norm_num

@[simp] theorem ofBlock_phashBlock (hash : Uint256) (block : CBlock) :
    (ofBlock hash block).phashBlock = hash := by
  unfold ofBlock; dsimp only; split <;> rfl

@[simp] theorem ofBlock_fProofOfStake (hash : Uint256) (block : CBlock) :
    (ofBlock hash block).fProofOfStake = block.isProofOfStake := by
  unfold ofBlock; dsimp only; split <;> simp_all [null]

end EntryData

namespace IndexedTree

variable (B : IndexedTree R P tree α)

/-- What a block adds to the trust of its chain. -/
def blockTrust (b : α) : Uint256 := (EntryData.ofBlock (B.hash b) (B.block b)).getBlockTrust

/-- The trust of a chain, from the block after genesis on. -/
def chainTrust (b : α) : Uint256 := ((B.branch b).dropLast.map B.blockTrust).sum % 2 ^ 256

variable {B}

section

omit [DecidableEq α]

theorem chainTrust_root : B.chainTrust B.root = 0 := by
  rw [chainTrust, ParentTree.branch_root]
  rfl

theorem chainTrust_parent {a b : α} (h : B.parent b = some a) :
    B.chainTrust b = (B.chainTrust a + B.blockTrust b) % 2 ^ 256 := by
  have hne : B.branch a ≠ [] := List.ne_nil_of_mem (ParentTree.self_mem_branch a)
  rw [chainTrust, ParentTree.branch_parent h, List.dropLast_cons_of_ne_nil hne, List.map_cons,
    List.sum_cons, chainTrust, Nat.mod_add_mod, Nat.add_comm]

theorem chainTrust_eq_zero {index : List α}
    (hparent : ∀ b ∈ index, ∀ a, B.parent b = some a → a ∈ index) :
    (∀ b ∈ index, B.chainTrust b = 0) ↔ ∀ b ∈ index, b ≠ B.root → B.blockTrust b = 0 := by
  constructor
  · intro h b hb hroot
    cases hp : B.parent b with
    | none => exact absurd (B.eq_root hp) hroot
    | some a =>
      have hsum := chainTrust_parent hp
      have hlt : B.blockTrust b < 2 ^ 256 := EntryData.getBlockTrust_lt _
      rw [h b hb, h a (hparent b hb a hp), Nat.zero_add, Nat.mod_eq_of_lt hlt] at hsum
      exact hsum.symm
  · intro h b
    induction b using ParentTree.branch_induction (T := B.toParentTree) with
    | hroot => intro _; exact chainTrust_root
    | hchild b a hp ih =>
      intro hb
      have hroot : b ≠ B.root := by
        rintro rfl
        rw [B.parent_root] at hp
        exact absurd hp (by simp)
      rw [chainTrust_parent hp, ih (hparent b hb a hp), h b hb hroot]
      rfl

end

end IndexedTree

/-- What an entry says of its block and its ancestors. -/
structure EntryRight (B : IndexedTree R P tree α) (b : α) (e : EntryData) : Prop where
  hash : e.phashBlock = B.hash b
  height : e.nHeight = B.depth b
  version : e.nVersion = (B.block b).nVersion
  merkle : e.hashMerkleRoot = (B.block b).hashMerkleRoot
  time : e.nTime = (B.block b).nTime
  bits : e.nBits = (B.block b).nBits
  nonce : e.nNonce = (B.block b).nNonce
  stake : e.fProofOfStake = (B.block b).isProofOfStake
  /-- A proof-of-work entry carries no kernel. -/
  kernel : e.fProofOfStake = false →
    e.prevoutStake = COutPoint.null ∧ e.nStakeTime = 0 ∧ e.hashProofOfStake = 0
  work : e.nChainWork = B.nChainWork b
  trust : e.bnChainTrust = B.chainTrust b
  /-- Genesis gets neither a proof hash nor a checksum. -/
  genesis : b = B.root → e.hashProofOfStake = 0 ∧ e.nStakeModifierChecksum = 0

namespace EntryRight

variable {B : IndexedTree R P tree α} {b : α} {e : EntryData}

section

omit [DecidableEq α]

theorem raiseValidity (h : EntryRight B b e) (failed : Bool) (nUpTo : Nat) :
    EntryRight B b (e.raiseValidity failed nUpTo) := by
  obtain ⟨nValid, he⟩ := EntryData.raiseValidity_eq failed nUpTo e
  rw [he]
  exact { h with }

theorem receivedBlockTransactions (h : EntryRight B b e) (x : IndexInput) (failed : Bool) :
    EntryRight B b (e.receivedBlockTransactions (B.block b) x failed) := by
  have hstake : (e.fProofOfStake || (B.block b).isProofOfStake) = e.fProofOfStake := by
    rw [h.stake, Bool.or_self]
  refine EntryRight.raiseValidity (e := { e with
    fProofOfStake := e.fProofOfStake || (B.block b).isProofOfStake
    nTx := (B.block b).vtx.length
    nFile := x.nFile
    nDataPos := x.nPos
    nUndoPos := 0 }) ?_ failed _
  rw [hstake]
  exact { h with }

theorem connectBlock (h : EntryRight B b e) (x : ConnectInput) (failed : Bool)
    (pprev : Option EntryData) : EntryRight B b (e.connectBlock x failed pprev) := by
  unfold EntryData.connectBlock
  dsimp only
  split
  · exact { h with }
  · refine EntryRight.raiseValidity ?_ failed _
    split
    · exact { h with }
    · exact { h with }

theorem ofBlock (B : IndexedTree R P tree α) (b : α) :
    let e := EntryData.ofBlock (B.hash b) (B.block b)
    e.nHeight = 0 ∧ e.bnChainTrust = 0 ∧ e.nStakeModifierChecksum = 0 ∧ e.hashProofOfStake = 0 ∧
      e.nVersion = (B.block b).nVersion ∧ e.hashMerkleRoot = (B.block b).hashMerkleRoot ∧
      e.nTime = (B.block b).nTime ∧ e.nBits = (B.block b).nBits ∧
      e.nNonce = (B.block b).nNonce ∧ (e.fProofOfStake = false →
        e.prevoutStake = COutPoint.null ∧ e.nStakeTime = 0) := by
  unfold EntryData.ofBlock
  dsimp only
  split
  · exact ⟨rfl, rfl, rfl, rfl, rfl, rfl, rfl, rfl, rfl, fun h => absurd h (by simp)⟩
  · exact ⟨rfl, rfl, rfl, rfl, rfl, rfl, rfl, rfl, rfl, fun _ => ⟨rfl, rfl⟩⟩

/-- **A new entry is right if its parent's is.** -/
theorem addToBlockIndex (H : ChecksumHash) (x : IndexInput) {pprev : Option EntryData}
    (hnone : pprev = none → B.parent b = none)
    (hsome : ∀ p, pprev = some p → ∃ a, B.parent b = some a ∧ EntryRight B a p) :
    EntryRight B b (EntryData.addToBlockIndex H (B.hash b) (B.block b) x pprev) := by
  obtain ⟨hheight, htrust, hsum, hproof, hversion, hmerkle, htime, hbits, hnonce, hkernel⟩ :=
    ofBlock B b
  unfold EntryData.addToBlockIndex
  refine EntryRight.raiseValidity ?_ false _
  cases pprev with
  | none =>
    have hroot := B.eq_root (hnone rfl)
    refine ⟨by simp, ?_, hversion, hmerkle, htime, hbits, hnonce, by simp,
      fun hpow => ⟨(hkernel hpow).1, (hkernel hpow).2, hproof⟩, ?_, ?_, fun _ => ⟨hproof, hsum⟩⟩
    · show (EntryData.ofBlock (B.hash b) (B.block b)).nHeight = _
      rw [hheight, hroot, B.depth_root]
      rfl
    · show (0 + getBlockProof (EntryData.ofBlock (B.hash b) (B.block b)).nBits) % 2 ^ 256 = _
      rw [hbits, B.nChainWork_block b, hnone rfl]
      rfl
    · show (EntryData.ofBlock (B.hash b) (B.block b)).bnChainTrust = _
      rw [htrust, hroot, IndexedTree.chainTrust_root]
  | some p =>
    obtain ⟨a, hp, hright⟩ := hsome p rfl
    have hne : b ≠ B.root := by
      rintro rfl
      rw [B.parent_root] at hp
      exact absurd hp (by simp)
    refine ⟨by simp [EntryData.onPrev], ?_, hversion, hmerkle, htime, hbits, hnonce,
      by simp [EntryData.onPrev], fun hpow => ⟨(hkernel hpow).1, (hkernel hpow).2, ?_⟩, ?_, ?_,
      fun hroot => absurd hroot hne⟩
    · rw [B.depth_parent hp, Nat.cast_succ, ← hright.height]
      rfl
    · have hpow : (EntryData.ofBlock (B.hash b) (B.block b)).fProofOfStake = false := hpow
      show (if (EntryData.ofBlock (B.hash b) (B.block b)).fProofOfStake = true then _ else _) = _
      rw [hpow]
      exact hproof
    · show (p.nChainWork + getBlockProof (EntryData.ofBlock (B.hash b) (B.block b)).nBits) %
        2 ^ 256 = _
      rw [hbits, B.nChainWork_block b, hp, hright.work]
      rfl
    · rw [IndexedTree.chainTrust_parent hp, ← hright.trust]
      show (p.bnChainTrust + EntryData.getBlockTrust _) % 2 ^ 256 = _
      rw [IndexedTree.blockTrust, EntryData.getBlockTrust_congr]
      · rfl
      · rfl

end

end EntryRight

/-! ## Runs -/

namespace Node

variable {T : IndexTree α} {n : Node α σ}

/-- What `AcceptBlock` may change of the index, and of what is stored. -/
structure Accepted (T : IndexTree α) (n : Node α σ) (b : α) (m : Node α σ) : Prop where
  index : m.mapBlockIndex = n.mapBlockIndex ∨
    b ∉ n.mapBlockIndex ∧ m.mapBlockIndex = b :: n.mapBlockIndex
  parent : b ∈ m.mapBlockIndex → ∀ a, T.parent b = some a → a ∈ n.mapBlockIndex
  data : ∀ c, c ≠ b → (m.status c).fHaveData = (n.status c).fHaveData

theorem acceptBlock_accepted (nMax : Int) (E : AcceptRules α σ) (b : α) (h : Counted T n) :
    Accepted T n b (n.acceptBlock T nMax E b).1 := by
  have hsame : Accepted T n b n := ⟨Or.inl rfl, fun hb a ha => h.parent b hb a ha, fun _ _ => rfl⟩
  unfold acceptBlock
  cases he : n.acceptEntry T nMax E b with
  | error e => exact hsame
  | ok n1 =>
    have hen := acceptEntry_ok he
    have h1 : Accepted T n b n1 := by
      rcases hen.node with rfl | ⟨hb, rfl⟩
      · exact hsame
      · refine ⟨Or.inr ⟨hb, rfl⟩, fun _ a ha => ?_, fun c hc => ?_⟩
        · rcases List.mem_cons.mp (hen.prev a ha).1 with hab | hmem
          · have := T.depth_parent ha
            rw [hab] at this
            omega
          · exact hmem
        · show (Function.update n.status b {} c).fHaveData = _
          rw [Function.update_of_ne hc]
    dsimp only
    split
    · exact h1
    · cases E.checkBlock n1 b with
      | error e =>
        dsimp only
        split
        · refine ⟨h1.index, h1.parent, fun c hc => ?_⟩
          rw [setStatus_status, if_neg hc]
          exact h1.data c hc
        · exact h1
      | ok u =>
        dsimp only
        obtain ⟨hindex, hdata⟩ := receivedBlockTransactions_frame (T := T) n1 b
        refine ⟨by rw [hindex]; exact h1.index, by rw [hindex]; exact h1.parent, fun c hc => ?_⟩
        rw [← h1.data c hc, Bool.eq_iff_iff, hdata c]
        simp [hc]

end Node

open Node in
/-- **The index of a node**: every entry is right, and its transactions are counted. -/
structure IndexRight (B : IndexedTree R P tree α) (s : IndexState α σ) : Prop where
  inv : NodeInv B.toIndexTree noVerdicts [] s.node
  counted : Counted B.toIndexTree s.node
  entries : ∀ b ∈ s.node.mapBlockIndex, EntryRight B b (s.entry b)
  stored : ∀ b, (s.node.status b).fHaveData = true → (s.entry b).nTx = B.nTx b

namespace IndexRight

open IndexState

variable {B : IndexedTree R P tree α} {s : IndexState α σ} {H : ChecksumHash}

omit [DecidableEq α] in
theorem receivedBlockTransactions_nTx (block : CBlock) (x : IndexInput) (failed : Bool)
    (e : EntryData) : (e.receivedBlockTransactions block x failed).nTx = block.vtx.length := by
  unfold EntryData.receivedBlockTransactions
  obtain ⟨nValid, he⟩ := EntryData.raiseValidity_eq failed BLOCK_VALID_TRANSACTIONS { e with
    fProofOfStake := e.fProofOfStake || block.isProofOfStake
    nTx := block.vtx.length
    nFile := x.nFile
    nDataPos := x.nPos
    nUndoPos := 0 }
  rw [he]

omit [DecidableEq α] in
theorem connectBlock_nTx (x : ConnectInput) (failed : Bool) (pprev : Option EntryData)
    (e : EntryData) : (e.connectBlock x failed pprev).nTx = e.nTx := by
  unfold EntryData.connectBlock
  dsimp only
  split
  · rfl
  · rename_i nPos hundo
    split
    · obtain ⟨nValid, he⟩ := EntryData.raiseValidity_eq failed BLOCK_VALID_SCRIPTS
        { e with
          nMoneySupply := ((pprev.map fun p => p.nMoneySupply).getD 0) + x.nValueOut - x.nValueIn
          nMint := ((pprev.map fun p => p.nMoneySupply).getD 0) + x.nValueOut - x.nValueIn -
            ((pprev.map fun p => p.nMoneySupply).getD 0) }
      rw [he]
    · unfold EntryData.raiseValidity
      split
      · rfl
      · split <;> rfl

theorem genesis (H : ChecksumHash) (state : σ) (x : IndexInput) :
    IndexRight B (IndexState.genesis B H state x) := by
  refine ⟨Node.nodeInv_genesis state trivial, Node.counted_genesis state, fun b hb => ?_,
    fun b _ => ?_⟩
  · obtain rfl := List.mem_singleton.mp hb
    exact (EntryRight.addToBlockIndex H x (fun _ => B.parent_root) fun p hp => by simp at hp)
      |>.receivedBlockTransactions x false
  · exact (receivedBlockTransactions_nTx _ _ _ _).trans (B.nTx_block b).symm

theorem acceptBlock (h : IndexRight B s) (nMax : Int) (E : AcceptRules α σ) (b : α)
    (x : IndexInput) :
    IndexRight B (s.acceptBlock B H nMax E b x) := by
  obtain ⟨hindex, hparent, hdata⟩ := Node.acceptBlock_accepted nMax E b h.counted
  have hinv := Node.nodeInv_acceptBlock nMax h.inv (Node.accept_obeys_noVerdicts E s.node b)
  refine ⟨hinv, Node.counted_acceptBlock h.inv h.counted, fun c hc => ?_, fun c hc => ?_⟩
  · by_cases hcb : c = b
    · subst hcb
      -- the entry is right before it is written for the second time
      have hadded : EntryRight B c (if (decide (c ∉ s.node.mapBlockIndex) && decide
          (c ∈ (s.node.acceptBlock B.toIndexTree nMax E c).1.mapBlockIndex)) = true then
            EntryData.addToBlockIndex H (B.hash c) (B.block c) x (s.pprev B c) else s.entry c) := by
        split
        · refine EntryRight.addToBlockIndex H x (fun hn => ?_) fun p hp => ?_
          · exact Option.map_eq_none_iff.mp hn
          · obtain ⟨a, ha, rfl⟩ := Option.map_eq_some_iff.mp hp
            exact ⟨a, ha, h.entries a (hparent hc a ha)⟩
        · rename_i hold
          have hmem : c ∈ (s.node.acceptBlock B.toIndexTree nMax E c).1.mapBlockIndex := hc
          refine h.entries c ?_
          by_contra hnot
          exact hold (by simp [hnot, hmem])
      show EntryRight B c (Function.update s.entry c _ c)
      rw [Function.update_self]
      split
      · exact hadded.receivedBlockTransactions x _
      · exact hadded
    · show EntryRight B c (Function.update s.entry b _ c)
      rw [Function.update_of_ne hcb]
      refine h.entries c ?_
      rcases hindex with hindex | ⟨-, hindex⟩
      · exact hindex ▸ hc
      · rcases List.mem_cons.mp (hindex ▸ hc) with hcb' | hc
        · exact absurd hcb' hcb
        · exact hc
  · by_cases hcb : c = b
    · subst hcb
      show (Function.update s.entry c _ c).nTx = _
      rw [Function.update_self]
      split
      · exact (receivedBlockTransactions_nTx _ _ _ _).trans (B.nTx_block c).symm
      · rename_i hstored
        have hnew : ((s.node.acceptBlock B.toIndexTree nMax E c).1.status c).fHaveData = true := hc
        have hold : (s.node.status c).fHaveData = true := by
          by_contra hnot
          exact hstored (by simp [hnot, hnew])
        rw [if_neg (by simp [h.inv.known c hold])]
        exact h.stored c hold
    · show (Function.update s.entry b _ c).nTx = _
      rw [Function.update_of_ne hcb]
      exact h.stored c ((hdata c hcb).symm.trans hc)

theorem activateRound (h : IndexRight B s) (ops : TipOps α σ) :
    IndexRight B (s.activateRound B ops) := by
  obtain ⟨⟨hinv, hcounted⟩, hlater, -⟩ :=
    Node.activateRound_spec (Node.counted_moves (T := B.toIndexTree) ops) ⟨h.inv, h.counted⟩
  refine ⟨hinv, hcounted, fun b hb => h.entries b ?_, fun b hb => h.stored b ?_⟩
  · exact hlater.index ▸ hb
  · exact (hlater.data b).symm.trans hb

theorem connectBlock (h : IndexRight B s) {b : α} (hb : b ∈ s.node.mapBlockIndex)
    (x : ConnectInput) :
    IndexRight B (s.connectBlock B b x) := by
  refine ⟨h.inv, h.counted, fun c hc => ?_, fun c hc => ?_⟩
  · show EntryRight B c (Function.update s.entry b _ c)
    by_cases hcb : c = b
    · rw [hcb, Function.update_self]
      exact (h.entries b hb).connectBlock x _ _
    · rw [Function.update_of_ne hcb]
      exact h.entries c hc
  · show (Function.update s.entry b _ c).nTx = _
    by_cases hcb : c = b
    · rw [hcb, Function.update_self, connectBlock_nTx]
      exact h.stored b (hcb ▸ hc)
    · rw [Function.update_of_ne hcb]
      exact h.stored c hc

/-- **Every reachable index.** -/
theorem reached {nMax : Int} (h : Reached B H nMax s) : IndexRight B s := by
  induction h with
  | genesis state x => exact genesis H state x
  | accept E b x _ ih => exact ih.acceptBlock nMax E b x
  | activate ops _ ih => exact ih.activateRound ops
  | connect b x _ hb ih => exact ih.connectBlock hb x

end IndexRight

end BitBlocks
