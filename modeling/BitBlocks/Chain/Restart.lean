import BitBlocks.Chain.DiskIndex
import BitBlocks.Chain.Converge

/-!
# A restart

What loading the index makes of the records of a running node. Each record gives back the
entry it was written from, up to the three fields that are lost (`restored`), in whatever
order the records come.

So a restart goes unnoticed just when there is nothing to lose. The checksum of a later
block covers its parent's, and comes out different; chain selection, which compares work
and the order of arrival, does not.
-/

namespace BitBlocks

variable {R : Rules} {P : CChainParams} {tree : BlockTree} {α σ : Type} [DecidableEq α]

namespace IndexState

variable (B : IndexedTree R P tree α)

def pindex (s : IndexState α σ) (b : α) : IndexEntry where
  data := s.entry b
  status := s.node.status b
  pprev := (B.parent b).map B.hash

def record (s : IndexState α σ) (b : α) : CDiskBlockIndex := CDiskBlockIndex.ofEntry (s.pindex B b)

/-- The entry after `LoadBlockIndexGuts`. -/
def readBack (s : IndexState α σ) (b : α) : IndexEntry :=
  (s.record B b).fill (IndexEntry.null (B.hash b))

/-- The entry after `LoadBlockIndexDB`. -/
def restored (s : IndexState α σ) (b : α) : IndexEntry :=
  { s.readBack B b with
    data := { (s.readBack B b).data with nChainWork := B.nChainWork b }
    status := { (s.readBack B b).status with nChainTx := (s.node.status b).nChainTx } }

/-- The check of `LoadBlockIndexGuts`. -/
def Proven (b : α) : Prop :=
  (B.depth b : Int) ≤ P.nLastPOWBlock → R.checkProofOfWork (B.hash b) (B.block b).nBits = true

variable {B} {s : IndexState α σ} {b : α}

section

omit [DecidableEq α]

theorem fill_pprev (hprev : Uint256) (d : CDiskBlockIndex) (e : IndexEntry)
    (h : d.header.hashPrevBlock = hprev) :
    (d.fill e).pprev = if hprev = 0 then none else some hprev := by
  rw [← h]
  rfl

theorem readBack_pprev (s : IndexState α σ) (b : α) :
    (s.readBack B b).pprev = (B.parent b).map B.hash := by
  rw [readBack, fill_pprev (((B.parent b).map B.hash).getD 0) _ _ rfl]
  cases B.parent b with
  | none => rfl
  | some a => exact if_neg (B.hash_ne_zero a)

theorem record_header (h : IndexRight B s) (hb : b ∈ s.node.mapBlockIndex) :
    (s.record B b).header = (B.block b).toCBlockHeader := by
  have hentry := h.entries b hb
  have hprev : ((B.parent b).map B.hash).getD 0 = (B.block b).hashPrevBlock := by
    cases hp : B.parent b with
    | none =>
      rw [B.eq_root hp]
      exact B.hashPrevBlock_root.symm
    | some a => exact (B.hashPrevBlock hp).symm
  show CBlockHeader.mk _ _ _ _ _ _ = _
  rw [show (s.pindex B b).pprev = (B.parent b).map B.hash from rfl, hprev,
    show (s.pindex B b).data = s.entry b from rfl, hentry.version, hentry.merkle, hentry.time,
    hentry.bits, hentry.nonce]

theorem getHash_record (h : IndexRight B s) (hb : b ∈ s.node.mapBlockIndex) :
    R.getHash (s.record B b).header = B.hash b := by
  rw [record_header h hb]
  exact B.hash_block b

end

end IndexState

/-! ## `LoadBlockIndexGuts` -/

open IndexState

/-- The index while it is loaded: `done` are the records that were read. -/
structure Loaded (B : IndexedTree R P tree α) (s : IndexState α σ) (done : List α)
    (m : LoadedIndex) : Prop where
  known : ∀ hash ∈ m.mapBlockIndex, ∃ b ∈ s.node.mapBlockIndex, B.hash b = hash
  nodup : m.mapBlockIndex.Nodup
  filled : ∀ b ∈ done, B.hash b ∈ m.mapBlockIndex ∧ m.entry (B.hash b) = s.readBack B b
  /-- An entry that was made for a child has its hash and nothing else. -/
  blank : ∀ hash, (∀ b ∈ done, B.hash b ≠ hash) → m.entry hash = IndexEntry.null hash

namespace Loaded

variable {B : IndexedTree R P tree α} {s : IndexState α σ} {done : List α} {m : LoadedIndex}

omit [DecidableEq α] in
theorem insertBlockIndex (h : Loaded B s done m) (hash : Uint256)
    (hknown : hash ≠ 0 → ∃ b ∈ s.node.mapBlockIndex, B.hash b = hash) :
    Loaded B s done (m.insertBlockIndex hash) ∧
      (hash ≠ 0 → hash ∈ (m.insertBlockIndex hash).mapBlockIndex) ∧
      m.mapBlockIndex ⊆ (m.insertBlockIndex hash).mapBlockIndex := by
  unfold LoadedIndex.insertBlockIndex
  split
  · rename_i hzero
    exact ⟨h, fun hne => absurd hzero hne, List.Subset.refl _⟩
  · rename_i hne
    split
    · rename_i hmem
      exact ⟨h, fun _ => hmem, List.Subset.refl _⟩
    · rename_i hnot
      refine ⟨⟨fun x hx => ?_, ?_, fun b hb => ?_, fun x hx => ?_⟩, fun _ => by simp,
        List.subset_append_left _ _⟩
      · rcases List.mem_append.mp hx with hx | hx
        · exact h.known x hx
        · rw [List.mem_singleton.mp hx]
          exact hknown hne
      · refine List.nodup_append.mpr ⟨h.nodup, List.nodup_singleton _, ?_⟩
        rintro x hx _ hy rfl
        rw [List.mem_singleton.mp hy] at hx
        exact hnot hx
      · obtain ⟨hmem, hentry⟩ := h.filled b hb
        refine ⟨List.mem_append_left _ hmem, ?_⟩
        show Function.update m.entry hash _ (B.hash b) = _
        rw [Function.update_of_ne fun he : B.hash b = hash => hnot (he ▸ hmem)]
        exact hentry
      · show Function.update m.entry hash _ x = _
        by_cases hxh : x = hash
        · rw [hxh, Function.update_self]
        · rw [Function.update_of_ne hxh]
          exact h.blank x hx

/-- **One record.** -/
theorem loadRecord (hs : IndexRight B s) (h : Loaded B s done m) {b : α}
    (hb : b ∈ s.node.mapBlockIndex) (hnew : b ∉ done) :
    (Proven B b → ∃ m', m.loadRecord R P (s.record B b) = some m' ∧ Loaded B s (done ++ [b]) m') ∧
      (¬ Proven B b → m.loadRecord R P (s.record B b) = none) := by
  have hhash := getHash_record hs hb
  have hbits : (s.record B b).header.nBits = (B.block b).nBits := by rw [record_header hs hb]
  have hheight : (s.record B b).nHeight = B.depth b := (hs.entries b hb).height
  have hproof : (decide ((s.record B b).nHeight ≤ P.nLastPOWBlock) &&
      !R.checkProofOfWork (B.hash b) (s.record B b).header.nBits) = false ↔ Proven B b := by
    rw [hheight, hbits, Proven]
    cases R.checkProofOfWork (B.hash b) (B.block b).nBits <;> simp
  have hprev : (s.record B b).header.hashPrevBlock = ((B.parent b).map B.hash).getD 0 := rfl
  unfold LoadedIndex.loadRecord
  dsimp only
  rw [hhash]
  obtain ⟨h1, hmem, -⟩ := h.insertBlockIndex (B.hash b) fun _ => ⟨b, hb, rfl⟩
  have hmem := hmem (B.hash_ne_zero b)
  obtain ⟨h2, -, hsub⟩ := h1.insertBlockIndex (s.record B b).header.hashPrevBlock fun hne => by
      rw [hprev] at hne ⊢
      cases hp : B.parent b with
      | none => rw [hp] at hne; exact absurd rfl hne
      | some a => exact ⟨a, hs.counted.parent b hb a hp, rfl⟩
  -- `hashNext` is zero
  obtain ⟨h3, -, hsub'⟩ := h2.insertBlockIndex (s.record B b).hashNext fun hne => absurd rfl hne
  refine ⟨fun hp => ?_, fun hp => ?_⟩
  · rw [hproof.mpr hp]
    refine ⟨_, rfl, h3.known, h3.nodup, fun c hc => ?_, fun x hx => ?_⟩
    · show B.hash c ∈ _ ∧ Function.update _ (B.hash b) _ (B.hash c) = _
      by_cases hcb : c = b
      · refine ⟨hcb ▸ hsub' (hsub hmem), ?_⟩
        rw [hcb, Function.update_self, h3.blank]
        · rfl
        · intro d hd he
          exact hnew (B.hash_injective he ▸ hd)
      · rcases List.mem_append.mp hc with hc | hc
        · refine ⟨(h3.filled c hc).1, ?_⟩
          rw [Function.update_of_ne fun he => hcb (B.hash_injective he)]
          exact (h3.filled c hc).2
        · exact absurd (List.mem_singleton.mp hc) hcb
    · show Function.update _ (B.hash b) _ x = _
      rw [Function.update_of_ne fun he => hx b (by simp) he.symm]
      exact h3.blank x fun c hc => hx c (List.mem_append_left _ hc)
  · have hfail := (Bool.not_eq_false _).mp fun hf => hp (hproof.mp hf)
    rw [hfail]
    rfl

/-- **All records.** -/
theorem foldlM (hs : IndexRight B s) : ∀ (rest done : List α) (m : LoadedIndex),
    Loaded B s done m → (done ++ rest).Nodup → (∀ b ∈ rest, b ∈ s.node.mapBlockIndex) →
    ((∀ b ∈ rest, Proven B b) → ∃ m',
        (rest.map (s.record B)).foldlM (LoadedIndex.loadRecord R P) m = some m' ∧
          Loaded B s (done ++ rest) m') ∧
      ((∃ b ∈ rest, ¬ Proven B b) →
        (rest.map (s.record B)).foldlM (LoadedIndex.loadRecord R P) m = none)
  | [], done, m, h, _, _ =>
    ⟨fun _ => ⟨m, rfl, by rw [List.append_nil]; exact h⟩, fun ⟨_, hb, _⟩ => absurd hb (by simp)⟩
  | b :: rest, done, m, h, hnodup, hmem => by
    have hnew : b ∉ done := fun hb =>
      (List.nodup_append.mp hnodup).2.2 b hb b (by simp) rfl
    obtain ⟨hload, hfail⟩ := h.loadRecord hs (hmem b (by simp)) hnew
    rw [List.map_cons, List.foldlM_cons]
    by_cases hp : Proven B b
    · obtain ⟨m1, hm1, h1⟩ := hload hp
      rw [hm1]
      obtain ⟨hsome, hnone⟩ := foldlM hs rest (done ++ [b]) m1 h1
        (by rw [List.append_assoc]; exact hnodup) fun c hc => hmem c (List.mem_cons_of_mem _ hc)
      rw [List.append_assoc] at hsome
      refine ⟨fun hall => hsome fun c hc => hall c (List.mem_cons_of_mem _ hc), ?_⟩
      rintro ⟨c, hc, hnp⟩
      rcases List.mem_cons.mp hc with rfl | hc
      · exact absurd hp hnp
      · exact hnone ⟨c, hc, hnp⟩
    · rw [hfail hp]
      exact ⟨fun hall => absurd (hall b (by simp)) hp, fun _ => rfl⟩

end Loaded

/-! ## `LoadBlockIndexDB` -/

namespace LoadedIndex

theorem foldl_visit_entry (m : LoadedIndex) (l : List Uint256) :
    (l.foldl visit m).entry = Recompute.pass IndexEntry.pprev compute m.entry l :=
  (List.foldl_hom entry fun _ _ => rfl).symm

theorem foldl_visit_mapBlockIndex (m : LoadedIndex) (l : List Uint256) :
    (l.foldl visit m).mapBlockIndex = m.mapBlockIndex := by
  induction l generalizing m with
  | nil => rfl
  | cons hash l ih => exact ih (m.visit hash)

theorem vSortedByHeight_perm (m : LoadedIndex) : m.vSortedByHeight.Perm m.mapBlockIndex :=
  List.mergeSort_perm _ _

theorem vSortedByHeight_sorted (m : LoadedIndex) : m.vSortedByHeight.Pairwise fun a b =>
    (m.entry a).data.nHeight ≤ (m.entry b).data.nHeight := by
  obtain ⟨le, hle⟩ : ∃ le : Uint256 → Uint256 → Bool, le =
      fun a b => decide ((m.entry a).data.nHeight ≤ (m.entry b).data.nHeight) := ⟨_, rfl⟩
  have htrans : ∀ a b c, le a b = true → le b c = true → le a c = true := by
    rw [hle]
    exact fun a b c hab hbc =>
      decide_eq_true ((of_decide_eq_true hab).trans (of_decide_eq_true hbc))
  have htotal : ∀ a b, (le a b || le b a) = true := by
    intro a b
    rw [hle]
    rcases Int.le_total (m.entry a).data.nHeight (m.entry b).data.nHeight with h | h
    · simp [h]
    · simp [h]
  have h := List.pairwise_mergeSort htrans htotal m.mapBlockIndex
  rw [hle] at h
  exact h.imp fun hab => of_decide_eq_true hab

end LoadedIndex

namespace Loaded

variable {B : IndexedTree R P tree α} {s : IndexState α σ} {done : List α} {m : LoadedIndex}

section

omit [DecidableEq α]

/-- The number of transactions is what the loop makes of the parent's. -/
theorem nChainTx_eq (hs : IndexRight B s) (b : α) : (s.node.status b).nChainTx =
    if (s.node.status b).fHaveData then
      match B.parent b with
      | none => B.nTx b
      | some a =>
        if (s.node.status a).nChainTx ≠ 0 then (s.node.status a).nChainTx + B.nTx b else 0
    else 0 := by
  have hcount := hs.counted.count b
  have hlinked := hs.inv.data_linked b
  unfold Node.prevChainTx at hcount
  cases hd : (s.node.status b).fHaveData with
  | false =>
    by_contra hne
    rw [hs.inv.linked_data b hne] at hd
    exact absurd hd (by simp)
  | true =>
    rw [if_pos rfl]
    cases hp : B.parent b with
    | none =>
      rw [hp] at hcount
      have hl := (hlinked hd fun a ha => by rw [hp] at ha; simp at ha).resolve_right (by simp)
      exact (hcount hl).trans (Nat.zero_add _)
    | some a =>
      rw [hp] at hcount
      dsimp only
      by_cases ha : (s.node.status a).nChainTx = 0
      · -- an entry is not linked before its parent
        rw [if_neg (not_not.mpr ha)]
        by_contra hne
        exact hs.inv.linked_parent b a hne hp ha
      · rw [if_pos ha]
        have hl := (hlinked hd fun c hc => by
          rw [hp] at hc
          exact Option.some.inj hc ▸ ha).resolve_right (by simp)
        exact hcount hl

/-- **The recurrence**: a restored entry is computed from its restored parent. -/
theorem compute_readBack (hs : IndexRight B s) {b : α} (hb : b ∈ s.node.mapBlockIndex) :
    LoadedIndex.compute ((B.parent b).map (s.restored B)) (s.readBack B b) = s.restored B b := by
  have hbits : (s.readBack B b).data.nBits = (tree (B.hash b)).nBits := (hs.entries b hb).bits
  have hwork : (((B.parent b).map (s.restored B)).map fun p => p.data.nChainWork) =
      (B.parent b).map B.nChainWork := by rw [Option.map_map]; rfl
  have hdata : (s.readBack B b).status.fHaveData = (s.node.status b).fHaveData := rfl
  have hnTx : (s.node.status b).fHaveData = true → (s.readBack B b).data.nTx = B.nTx b :=
    hs.stored b
  show _ = { s.readBack B b with
    data := { (s.readBack B b).data with nChainWork := B.nChainWork b }
    status := { (s.readBack B b).status with nChainTx := (s.node.status b).nChainTx } }
  unfold LoadedIndex.compute
  rw [hwork, hbits, ← B.nChainWork_block b, hdata, nChainTx_eq hs b]
  cases hd : (s.node.status b).fHaveData with
  | false => rfl
  | true =>
    rw [if_pos rfl, if_pos rfl, hnTx hd]
    cases B.parent b with
    | none => rfl
    | some a => rfl

/-- **Every entry is restored.** -/
theorem restored (hs : IndexRight B s) (h : Loaded B s done m)
    (hdone : ∀ b, b ∈ s.node.mapBlockIndex ↔ b ∈ done) :
    ∀ b ∈ s.node.mapBlockIndex,
      (m.vSortedByHeight.foldl LoadedIndex.visit m).entry (B.hash b) = s.restored B b := by
  -- the entry of a hash, should it be restored already
  let F : Uint256 → IndexEntry := fun hash =>
    ((s.node.mapBlockIndex.find? fun b => decide (B.hash b = hash)).map (s.restored B)).getD
      (IndexEntry.null hash)
  have hF : ∀ b ∈ s.node.mapBlockIndex, F (B.hash b) = s.restored B b := by
    intro b hb
    show ((s.node.mapBlockIndex.find? fun c => decide (B.hash c = B.hash b)).map _).getD _ = _
    cases hfind : s.node.mapBlockIndex.find? fun c => decide (B.hash c = B.hash b) with
    | none => exact absurd (decide_eq_true rfl) (List.find?_eq_none.mp hfind b hb)
    | some c =>
      have hc := List.find?_some (p := fun c => decide (B.hash c = B.hash b)) hfind
      rw [B.hash_injective (of_decide_eq_true hc)]
      rfl
  have hread : ∀ b ∈ s.node.mapBlockIndex, m.entry (B.hash b) = s.readBack B b :=
    fun b hb => (h.filled b ((hdone b).mp hb)).2
  have hmem : ∀ hash, hash ∈ m.vSortedByHeight ↔ ∃ b ∈ s.node.mapBlockIndex, B.hash b = hash := by
    intro hash
    rw [m.vSortedByHeight_perm.mem_iff]
    refine ⟨h.known hash, ?_⟩
    rintro ⟨b, hb, rfl⟩
    exact (h.filled b ((hdone b).mp hb)).1
  -- heights put every entry after its parent
  have hfirst : Recompute.ParentsFirst (fun hash => (m.entry hash).pprev) m.vSortedByHeight := by
    refine Recompute.ParentsFirst.of_sorted (m.vSortedByHeight_perm.nodup_iff.mpr h.nodup)
      m.vSortedByHeight_sorted fun hash hhash p hp => ?_
    obtain ⟨b, hb, rfl⟩ := (hmem hash).mp hhash
    rw [hread b hb, readBack_pprev] at hp
    obtain ⟨a, ha, rfl⟩ := Option.map_eq_some_iff.mp hp
    have hia := hs.counted.parent b hb a ha
    refine ⟨(hmem _).mpr ⟨a, hia, rfl⟩, ?_⟩
    rw [hread b hb, hread a hia]
    show (s.entry a).nHeight < (s.entry b).nHeight
    rw [(hs.entries a hia).height, (hs.entries b hb).height, B.depth_parent ha]
    omega
  intro b hb
  rw [LoadedIndex.foldl_visit_entry, Recompute.pass_eq (F := F) hfirst ?_ (B.hash b)
    ((hmem _).mpr ⟨b, hb, rfl⟩), hF b hb]
  intro hash hhash
  obtain ⟨c, hc, rfl⟩ := (hmem hash).mp hhash
  rw [hread c hc, readBack_pprev, hF c hc, Option.map_map, ← compute_readBack hs hc]
  congr 1
  cases hp : B.parent c with
  | none => rfl
  | some a => exact congrArg some (hF a (hs.counted.parent c hc a hp))

end

end Loaded

/-! ## What a restart changes -/

/-- The fields of an entry that come back. -/
structure Survives (e f : IndexEntry) : Prop where
  nChainWork : f.data.nChainWork = e.data.nChainWork
  nChainTx : f.status.nChainTx = e.status.nChainTx
  nStakeModifier : f.data.nStakeModifier = e.data.nStakeModifier
  prevoutStake : f.data.prevoutStake = e.data.prevoutStake
  nStakeTime : f.data.nStakeTime = e.data.nStakeTime
  nMint : f.data.nMint = e.data.nMint
  nMoneySupply : f.data.nMoneySupply = e.data.nMoneySupply
  /-- `nStatus`. -/
  nValid : f.data.nValid = e.data.nValid
  fHaveData : f.status.fHaveData = e.status.fHaveData
  fHaveUndo : f.data.fHaveUndo = e.data.fHaveUndo
  fFailedValid : f.status.fFailedValid = e.status.fFailedValid
  fFailedChild : f.status.fFailedChild = e.status.fFailedChild
  nFlags : f.data.nFlags = e.data.nFlags

/-- The fields of an entry that a restart is to keep. -/
structure SameEntry (e f : IndexEntry) : Prop extends Survives e f where
  bnChainTrust : f.data.bnChainTrust = e.data.bnChainTrust
  nStakeModifierChecksum : f.data.nStakeModifierChecksum = e.data.nStakeModifierChecksum
  hashProofOfStake : f.data.hashProofOfStake = e.data.hashProofOfStake

/-- What chain selection sees of a block that comes later, on top of an entry. -/
def IndexEntry.child (pprev : IndexEntry) (nBits nSequenceId : Nat) : IndexEntry where
  data := { EntryData.null 0 with
    nBits := nBits
    nChainWork := (pprev.data.nChainWork + getBlockProof nBits) % 2 ^ 256 }
  status := { nSequenceId := nSequenceId }

section

variable (B : IndexedTree R P tree α) (H : ChecksumHash) (s : IndexState α σ) (m : LoadedIndex)

/-- The checksum of a later block is what it would have been. -/
def ChecksumsAlike : Prop := ∀ p ∈ s.node.mapBlockIndex, ∀ pindexNew : EntryData,
    pindexNew.getStakeModifierChecksum H (some (m.entry (B.hash p)).data) =
      pindexNew.getStakeModifierChecksum H (some (s.entry p))

/--
So is every comparison of a later block with an entry, wherever the two are in memory: the
numbers start again at one, and the entries have none.
-/
def ComparesAlike : Prop :=
  ∀ p ∈ s.node.mapBlockIndex, ∀ c ∈ s.node.mapBlockIndex, ∀ nBits nSequenceId nSequenceIdLoaded,
    s.node.nBlockSequenceId ≤ nSequenceId → 1 ≤ nSequenceIdLoaded → ∀ fBelow fBelowLoaded,
      IndexEntry.workLess fBelowLoaded ((m.entry (B.hash p)).child nBits nSequenceIdLoaded)
          (m.entry (B.hash c)) =
        IndexEntry.workLess fBelow ((s.pindex B p).child nBits nSequenceId) (s.pindex B c) ∧
      IndexEntry.workLess fBelowLoaded (m.entry (B.hash c))
          ((m.entry (B.hash p)).child nBits nSequenceIdLoaded) =
        IndexEntry.workLess fBelow (s.pindex B c) ((s.pindex B p).child nBits nSequenceId)

/-- The index was loaded, and has the same blocks. -/
def Loads (records : List CDiskBlockIndex) : Prop :=
  LoadedIndex.loadBlockIndexDB R P records = some m ∧
    ∀ hash, hash ∈ m.mapBlockIndex ↔ ∃ b ∈ s.node.mapBlockIndex, B.hash b = hash

/-- A restart goes unnoticed, in whatever order the records are read. -/
def Transparent : Prop := ∀ order : List α, order.Perm s.node.mapBlockIndex →
    ∃ m, Loads B s m (order.map (s.record B)) ∧
      (∀ b ∈ s.node.mapBlockIndex, SameEntry (s.pindex B b) (m.entry (B.hash b))) ∧
      ChecksumsAlike B H s m ∧ ComparesAlike B s m

/-- There is nothing to lose: no trust, no proof hash, no checksum. -/
def NothingLost : Prop := ∀ b ∈ s.node.mapBlockIndex, b ≠ B.root → B.blockTrust b = 0 ∧
    (s.entry b).hashProofOfStake = 0 ∧ (s.entry b).nStakeModifierChecksum = 0

end

namespace IndexRight

variable {B : IndexedTree R P tree α} {H : ChecksumHash} {s : IndexState α σ} {m : LoadedIndex}

/-- **The load**: it restores every entry, or fails if a proof of work does not check. -/
theorem load (h : IndexRight B s) {order : List α} (horder : order.Perm s.node.mapBlockIndex) :
    ((∀ b ∈ s.node.mapBlockIndex, Proven B b) → ∃ m, Loads B s m (order.map (s.record B)) ∧
        ∀ b ∈ s.node.mapBlockIndex, m.entry (B.hash b) = s.restored B b) ∧
      ((∃ b ∈ s.node.mapBlockIndex, ¬ Proven B b) →
        LoadedIndex.loadBlockIndexDB R P (order.map (s.record B)) = none) := by
  have hempty : Loaded B s [] {} :=
    ⟨fun _ hx => by simp at hx, List.nodup_nil, fun _ hb => by simp at hb, fun _ _ => rfl⟩
  obtain ⟨hload, hfail⟩ := Loaded.foldlM h order [] {} hempty
    (horder.nodup_iff.mpr h.counted.nodup) fun b hb => horder.mem_iff.mp hb
  constructor
  · intro hproven
    obtain ⟨m, hm, hloaded⟩ := hload fun b hb => hproven b (horder.mem_iff.mp hb)
    refine ⟨m.vSortedByHeight.foldl LoadedIndex.visit m, ⟨?_, fun hash => ?_⟩,
      hloaded.restored h fun b => horder.mem_iff.symm⟩
    · rw [LoadedIndex.loadBlockIndexDB, LoadedIndex.loadBlockIndexGuts, hm]
      rfl
    · rw [LoadedIndex.foldl_visit_mapBlockIndex]
      refine ⟨hloaded.known hash, ?_⟩
      rintro ⟨b, hb, rfl⟩
      exact (hloaded.filled b (horder.mem_iff.mpr hb)).1
  · rintro ⟨b, hb, hnot⟩
    rw [LoadedIndex.loadBlockIndexDB, LoadedIndex.loadBlockIndexGuts,
      hfail ⟨b, horder.mem_iff.mpr hb, hnot⟩]
    rfl

omit [DecidableEq α] in
theorem survives_restored (h : IndexRight B s) {b : α} (hb : b ∈ s.node.mapBlockIndex) :
    Survives (s.pindex B b) (s.restored B b) := by
  have hentry := h.entries b hb
  have hstake : (s.record B b).stake = if (s.entry b).fProofOfStake then
      some ((s.entry b).prevoutStake, (s.entry b).nStakeTime) else none := rfl
  refine ⟨hentry.work.symm, rfl, rfl, ?_, ?_, rfl, rfl, rfl, rfl, rfl, rfl, rfl, rfl⟩
  · show ((s.record B b).stake.map Prod.fst).getD COutPoint.null = (s.entry b).prevoutStake
    rw [hstake]
    cases hpos : (s.entry b).fProofOfStake with
    | true => rfl
    | false => exact (hentry.kernel hpos).1.symm
  · show ((s.record B b).stake.map Prod.snd).getD 0 = (s.entry b).nStakeTime
    rw [hstake]
    cases hpos : (s.entry b).fProofOfStake with
    | true => rfl
    | false => exact (hentry.kernel hpos).2.1.symm

end IndexRight

namespace IndexEntry

theorem workLess_later {x c : IndexEntry} (h : c.status.nSequenceId < x.status.nSequenceId)
    (fBelow : Bool) : workLess fBelow x c = decide (x.data.nChainWork ≤ c.data.nChainWork) ∧
      workLess fBelow c x = decide (c.data.nChainWork < x.data.nChainWork) := by
  unfold workLess
  rcases Nat.lt_trichotomy x.data.nChainWork c.data.nChainWork with hlt | heq | hgt
  · simp [hlt, Nat.le_of_lt hlt, Nat.lt_asymm hlt]
  · simp [heq, h, Nat.lt_asymm h]
  · simp [hgt, Nat.not_le_of_lt hgt, Nat.le_of_lt hgt]

end IndexEntry

namespace IndexRight

variable {B : IndexedTree R P tree α} {H : ChecksumHash} {s : IndexState α σ} {m : LoadedIndex}

omit [DecidableEq α] in
theorem comparesAlike (h : IndexRight B s)
    (hm : ∀ b ∈ s.node.mapBlockIndex, m.entry (B.hash b) = s.restored B b) :
    ComparesAlike B s m := by
  intro p hp c hc nBits nSequenceId nSequenceIdLoaded hseq hloaded fBelow fBelowLoaded
  have hwork : ∀ b ∈ s.node.mapBlockIndex,
      (s.restored B b).data.nChainWork = (s.pindex B b).data.nChainWork :=
    fun b hb => (h.survives_restored hb).nChainWork
  have hbefore : (s.pindex B c).status.nSequenceId <
      ((s.pindex B p).child nBits nSequenceId).status.nSequenceId :=
    Nat.lt_of_lt_of_le (h.counted.sequence c) hseq
  have hafter : (s.restored B c).status.nSequenceId <
      ((s.restored B p).child nBits nSequenceIdLoaded).status.nSequenceId :=
    Nat.lt_of_lt_of_le Nat.zero_lt_one hloaded
  have hchild : ((s.restored B p).child nBits nSequenceIdLoaded).data.nChainWork =
      ((s.pindex B p).child nBits nSequenceId).data.nChainWork := by
    show ((s.restored B p).data.nChainWork + _) % _ = _
    rw [hwork p hp]
    rfl
  rw [hm p hp, hm c hc, (IndexEntry.workLess_later hafter _).1,
    (IndexEntry.workLess_later hafter _).2,
    (IndexEntry.workLess_later hbefore _).1, (IndexEntry.workLess_later hbefore _).2, hchild,
    hwork c hc]
  exact ⟨rfl, rfl⟩

/-- **A restart goes unnoticed iff nothing is lost.** -/
theorem transparent_iff (h : IndexRight B s) :
    Transparent B H s ↔ (∀ b ∈ s.node.mapBlockIndex, Proven B b) ∧ NothingLost B s := by
  have hparent := h.counted.parent
  constructor
  · intro ht
    obtain ⟨m, ⟨hload, -⟩, hsame, -, -⟩ := ht s.node.mapBlockIndex (List.Perm.refl _)
    obtain ⟨hrestored, hfail⟩ := h.load (List.Perm.refl s.node.mapBlockIndex)
    have hproven : ∀ b ∈ s.node.mapBlockIndex, Proven B b := by
      intro b hb
      by_contra hnot
      rw [hfail ⟨b, hb, hnot⟩] at hload
      exact absurd hload (by simp)
    obtain ⟨m', ⟨hload', -⟩, hentry⟩ := hrestored hproven
    obtain rfl : m = m' := Option.some.inj (hload.symm.trans hload')
    -- what was loaded has none of the three
    have hzero : ∀ b ∈ s.node.mapBlockIndex, (s.entry b).bnChainTrust = 0 ∧
        (s.entry b).hashProofOfStake = 0 ∧ (s.entry b).nStakeModifierChecksum = 0 := by
      intro b hb
      have hb' := hsame b hb
      rw [hentry b hb] at hb'
      exact ⟨hb'.bnChainTrust.symm, hb'.hashProofOfStake.symm, hb'.nStakeModifierChecksum.symm⟩
    have htrust := (IndexedTree.chainTrust_eq_zero hparent).mp
      fun b hb => (h.entries b hb).trust.symm.trans (hzero b hb).1
    exact ⟨hproven, fun b hb hroot => ⟨htrust b hb hroot, (hzero b hb).2⟩⟩
  · rintro ⟨hproven, hlost⟩ order horder
    obtain ⟨m, hload, hentry⟩ := (h.load horder).1 hproven
    have htrust := (IndexedTree.chainTrust_eq_zero hparent).mpr fun b hb hroot =>
        (hlost b hb hroot).1
    have hzero : ∀ b ∈ s.node.mapBlockIndex,
        (s.entry b).hashProofOfStake = 0 ∧ (s.entry b).nStakeModifierChecksum = 0 := by
      intro b hb
      by_cases hroot : b = B.root
      · exact (h.entries b hb).genesis hroot
      · exact (hlost b hb hroot).2
    refine ⟨m, hload, fun b hb => ?_, fun p hp pindexNew => ?_, h.comparesAlike hentry⟩
    · rw [hentry b hb]
      exact ⟨h.survives_restored hb, ((h.entries b hb).trust.trans (htrust b hb)).symm,
        (hzero b hb).2.symm, (hzero b hb).1.symm⟩
    · rw [hentry p hp]
      unfold EntryData.getStakeModifierChecksum
      rw [Option.map_some, Option.map_some, (hzero p hp).2]
      rfl

end IndexRight

/--
**Restart transparency.** For every index that accepting and connecting blocks leads to: a
restart goes unnoticed iff no entry has anything of what is lost, and the proofs of work of
the early blocks check. If they do, the index is loaded, all other fields come back, and
later blocks compare with it as they would have done.
-/
theorem restart_transparent {B : IndexedTree R P tree α} {H : ChecksumHash} {nMax : Int}
    {s : IndexState α σ} (h : Reached B H nMax s) :
    (Transparent B H s ↔ (∀ b ∈ s.node.mapBlockIndex, Proven B b) ∧ NothingLost B s) ∧
    ((∀ b ∈ s.node.mapBlockIndex, Proven B b) → ∀ order : List α, order.Perm s.node.mapBlockIndex →
        ∃ m, Loads B s m (order.map (s.record B)) ∧
          (∀ b ∈ s.node.mapBlockIndex, Survives (s.pindex B b) (m.entry (B.hash b))) ∧
          ComparesAlike B s m) := by
  have hs := IndexRight.reached h
  refine ⟨hs.transparent_iff, fun hproven order horder => ?_⟩
  obtain ⟨m, hload, hentry⟩ := (hs.load horder).1 hproven
  refine ⟨m, hload, fun b hb => ?_, hs.comparesAlike hentry⟩
  rw [hentry b hb]
  exact hs.survives_restored hb

/-! ### The first block after genesis -/

namespace Fork

/-- Every block of the fork has this many bits, and no more than its coinbase. -/
def coinbaseOnly (b : Fork) : List CTransaction := [minedCoinbase b.number]

theorem nTx_fork (b : Fork) : 1 = (Fork.tree false coinbaseOnly b.hash).vtx.length := by
  cases b <;> rfl

theorem hash_ne_zero (b : Fork) : b.hash ≠ 0 := by
  cases b <;> decide

/-- The chain work, all blocks having the same number of bits. -/
def work (b : Fork) : Nat := (b.height false + 1) * getBlockProof 0x1e0ffff0

theorem nBits_fork (vtx : Fork → List CTransaction) (b : Fork) :
    (Fork.tree false vtx b.hash).nBits = 0x1e0ffff0 := by
  cases b <;> rfl

theorem work_fork (vtx : Fork → List CTransaction) (b : Fork) :
    b.work = (((b.parent false).map work).getD 0 +
      getBlockProof (Fork.tree false vtx b.hash).nBits) % 2 ^ 256 := by
  rw [nBits_fork]
  cases b <;> decide

def indexed : IndexedTree Rules.transparent mainParams (Fork.tree false coinbaseOnly) Fork where
  toBlockMap := { blockMap false coinbaseOnly with nChainWork := work }
  hash_ne_zero := hash_ne_zero
  hashPrevBlock_root := rfl
  nTx_block := nTx_fork
  nChainWork_block := work_fork _

/-- A checksum that adds up what it covers. -/
def sumHash : ChecksumHash := fun nPrev nFlags hashProof nModifier =>
  (nPrev.getD 0 + nFlags + hashProof + nModifier) * 2 ^ (256 - 32)

def noInput : IndexInput := ⟨0, 0, false, 0, 0⟩

def oneBlock : IndexState Fork Unit :=
  (IndexState.genesis indexed sumHash () noInput).acceptBlock indexed sumHash 100
    (Node.passRules _ _) first noInput

theorem reached_oneBlock : Reached indexed sumHash 100 oneBlock :=
  .accept _ _ _ (.genesis () noInput)

/-- The block is connected, and one beside it arrives, which gets a modifier. -/
def twoBranches : IndexState Fork Unit :=
  (oneBlock.connectBlock indexed first ⟨0, 10 * COIN, some 80⟩).acceptBlock indexed sumHash 100
    (Node.passRules _ _) side ⟨0, 7, true, 0, 500⟩

theorem reached_twoBranches : Reached indexed sumHash 100 twoBranches :=
  .accept _ _ _ (.connect _ _ reached_oneBlock (by decide))

end Fork

/-- The trust of both blocks is lost, and what connecting the first one wrote is not. -/
theorem restart_transparent_twoBranches : ¬ Transparent Fork.indexed Fork.sumHash Fork.twoBranches ∧
      (Fork.twoBranches.entry .first).nMoneySupply = 10 * COIN ∧
      ∃ m, Loads Fork.indexed Fork.twoBranches m
          ([Fork.side, .genesis, .first].map (Fork.twoBranches.record Fork.indexed)) ∧
        (∀ b ∈ Fork.twoBranches.node.mapBlockIndex,
          Survives (Fork.twoBranches.pindex Fork.indexed b) (m.entry b.hash)) ∧
        ComparesAlike Fork.indexed Fork.twoBranches m := by
  obtain ⟨hiff, hload⟩ := restart_transparent Fork.reached_twoBranches
  have hproven : ∀ b ∈ Fork.twoBranches.node.mapBlockIndex, Proven Fork.indexed b :=
    fun _ _ _ => rfl
  refine ⟨fun ht => ?_, by decide, hload hproven _ (by decide)⟩
  have htrust := ((hiff.mp ht).2 Fork.first (by decide) (by decide)).1
  exact absurd htrust (by decide)

/-- The trust of a first proof-of-work block is gone after a restart. -/
theorem trust_lost : ¬ ∀ s : IndexState Fork Unit, Reached Fork.indexed Fork.sumHash 100 s →
    Transparent Fork.indexed Fork.sumHash s := by
  intro h
  have hlost := ((IndexRight.reached Fork.reached_oneBlock).transparent_iff.mp
    (h _ Fork.reached_oneBlock)).2
  have htrust := (hlost Fork.first (by decide) (by decide)).1
  exact absurd htrust (by decide)

end BitBlocks
