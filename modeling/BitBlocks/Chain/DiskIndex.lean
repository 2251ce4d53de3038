import BitBlocks.Chain.IndexState

/-!
# The block index on disk

`CDiskBlockIndex` is what is written of an entry. `LoadBlockIndexGuts` makes an entry of
each record, in the order of the keys, and `LoadBlockIndexDB` computes along the heights
what depends on the previous block.

Three fields are neither written nor computed: the trust of the chain, the checksum of the
stake modifier and the proof hash. They are zero after a restart; everything else that
`AcceptBlock` and `ConnectBlock` put in an entry comes back.
-/

namespace BitBlocks

/-- An entry with its pointer to the previous block. -/
structure IndexEntry where
  data : EntryData
  status : BlockStatus := {}
  pprev : Option Uint256 := none
deriving DecidableEq

namespace IndexEntry

def null (hash : Uint256) : IndexEntry := { data := EntryData.null hash }

/-- `IsValid`. -/
def isValid (nUpTo : Nat) (pindex : IndexEntry) : Bool :=
  !pindex.status.failed && decide (pindex.data.nValid ≥ nUpTo)

/-- `CBlockIndexWorkComparator`; the flag is whether the first entry has the lower address. -/
def workLess (fBelow : Bool) (pa pb : IndexEntry) : Bool :=
  if pa.data.nChainWork > pb.data.nChainWork then false
  else if pa.data.nChainWork < pb.data.nChainWork then true
  else if pa.status.nSequenceId < pb.status.nSequenceId then false
  else if pa.status.nSequenceId > pb.status.nSequenceId then true
  else !fBelow

end IndexEntry

/-! ## Records -/

/-- What `SerializationOp` writes; a field that is not always written is an option. -/
structure CDiskBlockIndex where
  nHeight : Int
  /-- `nStatus`. -/
  nValid : Nat
  fHaveData : Bool
  fHaveUndo : Bool
  fFailedValid : Bool
  fFailedChild : Bool
  nTx : Nat
  nFile : Option Nat
  nDataPos : Option Nat
  nUndoPos : Option Nat
  nMint : Int
  nMoneySupply : Int
  /-- `nFlags`. -/
  fProofOfStake : Bool
  fStakeEntropy : Bool
  fGeneratedStakeModifier : Bool
  nStakeModifier : Nat
  /-- `prevoutStake` and `nStakeTime` of a proof-of-stake block. -/
  stake : Option (COutPoint × Nat)
  /-- The block header, with `hashPrev` in it. -/
  header : CBlockHeader
  hashNext : Uint256

namespace CDiskBlockIndex

/-- `CDiskBlockIndex(pindex)`, serialized. It does not set `hashNext`. -/
def ofEntry (pindex : IndexEntry) : CDiskBlockIndex where
  nHeight := pindex.data.nHeight
  nValid := pindex.data.nValid
  fHaveData := pindex.status.fHaveData
  fHaveUndo := pindex.data.fHaveUndo
  fFailedValid := pindex.status.fFailedValid
  fFailedChild := pindex.status.fFailedChild
  nTx := pindex.data.nTx
  nFile := if pindex.status.fHaveData || pindex.data.fHaveUndo then some pindex.data.nFile else none
  nDataPos := if pindex.status.fHaveData then some pindex.data.nDataPos else none
  nUndoPos := if pindex.data.fHaveUndo then some pindex.data.nUndoPos else none
  nMint := pindex.data.nMint
  nMoneySupply := pindex.data.nMoneySupply
  fProofOfStake := pindex.data.fProofOfStake
  fStakeEntropy := pindex.data.fStakeEntropy
  fGeneratedStakeModifier := pindex.data.fGeneratedStakeModifier
  nStakeModifier := pindex.data.nStakeModifier
  stake := if pindex.data.fProofOfStake then some (pindex.data.prevoutStake, pindex.data.nStakeTime)
    else none
  header :=
    { nVersion := pindex.data.nVersion
      hashPrevBlock := pindex.pprev.getD 0
      hashMerkleRoot := pindex.data.hashMerkleRoot
      nTime := pindex.data.nTime
      nBits := pindex.data.nBits
      nNonce := pindex.data.nNonce }
  hashNext := 0

/-- The assignments of `LoadBlockIndexGuts`, to an entry that has no more than its hash. -/
def fill (diskindex : CDiskBlockIndex) (pindexNew : IndexEntry) : IndexEntry where
  data := { pindexNew.data with
    nHeight := diskindex.nHeight
    nFile := diskindex.nFile.getD 0
    nDataPos := diskindex.nDataPos.getD 0
    nUndoPos := diskindex.nUndoPos.getD 0
    nVersion := diskindex.header.nVersion
    hashMerkleRoot := diskindex.header.hashMerkleRoot
    nTime := diskindex.header.nTime
    nBits := diskindex.header.nBits
    nNonce := diskindex.header.nNonce
    nValid := diskindex.nValid
    fHaveUndo := diskindex.fHaveUndo
    nTx := diskindex.nTx
    nMint := diskindex.nMint
    nMoneySupply := diskindex.nMoneySupply
    fProofOfStake := diskindex.fProofOfStake
    fStakeEntropy := diskindex.fStakeEntropy
    fGeneratedStakeModifier := diskindex.fGeneratedStakeModifier
    nStakeModifier := diskindex.nStakeModifier
    prevoutStake := (diskindex.stake.map Prod.fst).getD COutPoint.null
    nStakeTime := (diskindex.stake.map Prod.snd).getD 0
    -- it is assigned, but it is not serialized
    hashProofOfStake := 0 }
  status := { pindexNew.status with
    fHaveData := diskindex.fHaveData
    fFailedValid := diskindex.fFailedValid
    fFailedChild := diskindex.fFailedChild }
  pprev := if diskindex.header.hashPrevBlock = 0 then none else some diskindex.header.hashPrevBlock

end CDiskBlockIndex

/-! ## Loading -/

/-- `mapBlockIndex` and what `LoadBlockIndexDB` collects. -/
structure LoadedIndex where
  mapBlockIndex : List Uint256 := []
  entry : Uint256 → IndexEntry := IndexEntry.null
  setBlockIndexCandidates : List Uint256 := []
  mapBlocksUnlinked : List (Uint256 × Uint256) := []

namespace LoadedIndex

/-- `InsertBlockIndex`. -/
def insertBlockIndex (m : LoadedIndex) (hash : Uint256) : LoadedIndex :=
  if hash = 0 then m
  else if hash ∈ m.mapBlockIndex then m
  else
    { m with
      mapBlockIndex := m.mapBlockIndex ++ [hash]
      entry := Function.update m.entry hash (IndexEntry.null hash) }

variable (R : Rules) (P : CChainParams)

/-- One round of `LoadBlockIndexGuts`. -/
def loadRecord (m : LoadedIndex) (diskindex : CDiskBlockIndex) : Option LoadedIndex :=
  let hash := R.getHash diskindex.header
  let m := ((m.insertBlockIndex hash).insertBlockIndex diskindex.header.hashPrevBlock)
    |>.insertBlockIndex diskindex.hashNext
  if decide (diskindex.nHeight ≤ P.nLastPOWBlock) &&
    !R.checkProofOfWork hash diskindex.header.nBits then
    none
  else some { m with entry := Function.update m.entry hash (diskindex.fill (m.entry hash)) }

/-- `LoadBlockIndexGuts`, on the records in the order of their keys. -/
def loadBlockIndexGuts (records : List CDiskBlockIndex) : Option LoadedIndex :=
  records.foldlM (loadRecord R P) {}

/-- `vSortedByHeight`. -/
def vSortedByHeight (m : LoadedIndex) : List Uint256 :=
  m.mapBlockIndex.mergeSort fun a b => decide ((m.entry a).data.nHeight ≤ (m.entry b).data.nHeight)

/-- What `LoadBlockIndexDB` computes of an entry. -/
def compute (pprev : Option IndexEntry) (pindex : IndexEntry) : IndexEntry :=
  { pindex with
    data := { pindex.data with nChainWork :=
      ((pprev.map fun p => p.data.nChainWork).getD 0 + getBlockProof pindex.data.nBits) % 2 ^ 256 }
    status :=
      if pindex.status.fHaveData then
        { pindex.status with nChainTx :=
          match pprev with
          | none => pindex.data.nTx
          | some pprev =>
            if pprev.status.nChainTx ≠ 0 then pprev.status.nChainTx + pindex.data.nTx else 0 }
      else pindex.status }

/-- One round of the loop of `LoadBlockIndexDB`. -/
def visit (m : LoadedIndex) (hash : Uint256) : LoadedIndex :=
  let pprev := (m.entry hash).pprev
  let pindex := compute (pprev.map m.entry) (m.entry hash)
  { m with
    entry := Function.update m.entry hash pindex
    mapBlocksUnlinked :=
      match pprev with
      | some prev =>
        if pindex.status.fHaveData && decide ((m.entry prev).status.nChainTx = 0) then
          m.mapBlocksUnlinked ++ [(prev, hash)]
        else m.mapBlocksUnlinked
      | none => m.mapBlocksUnlinked
    setBlockIndexCandidates :=
      if pindex.isValid BLOCK_VALID_TRANSACTIONS &&
          (decide (pindex.status.nChainTx ≠ 0) || pprev.isNone) then
        hash :: m.setBlockIndexCandidates
      else m.setBlockIndexCandidates }

/-- `LoadBlockIndexDB`, as far as the index is concerned. -/
def loadBlockIndexDB (records : List CDiskBlockIndex) : Option LoadedIndex :=
  (loadBlockIndexGuts R P records).map fun m => m.vSortedByHeight.foldl visit m

end LoadedIndex

end BitBlocks
