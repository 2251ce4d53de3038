import BitBlocks.Chain.Accept

/-!
# What an index entry holds

The fields of a `CBlockIndex` that chain selection does not read: `AddToBlockIndex` fills
them in, `ReceivedBlockTransactions` and `ConnectBlock` write some of them again. The node
holds the others; an `IndexState` is both.
-/

namespace BitBlocks

/-- The flags of `nStatus` are in the `BlockStatus`, its validity level is here. -/
structure EntryData extends CBlockIndex where
  bnChainTrust : Uint256 := 0
  nChainWork : Uint256 := 0
  nTx : Nat := 0
  /-- `nStatus & BLOCK_VALID_MASK`. -/
  nValid : Nat := 0
  /-- `BLOCK_HAVE_UNDO` of `nStatus`. -/
  fHaveUndo : Bool := false
  nFile : Nat := 0
  nDataPos : Nat := 0
  nUndoPos : Nat := 0
  /-- `BLOCK_STAKE_ENTROPY` of `nFlags`. -/
  fStakeEntropy : Bool := false
  nStakeModifierChecksum : Nat := 0
  prevoutStake : COutPoint := COutPoint.null
  nStakeTime : Nat := 0
  hashProofOfStake : Uint256 := 0
  hashMerkleRoot : Uint256 := 0
  nNonce : Nat := 0
deriving DecidableEq, Repr

/-- What the stake code says of a new block, and where the block is stored. -/
structure IndexInput where
  /-- `mapProofOfStake[hash]`. -/
  hashProofOfStake : Uint256
  /-- The outcome of `ComputeNextStakeModifier`. -/
  nStakeModifier : Nat
  fGeneratedStakeModifier : Bool
  nFile : Nat
  nPos : Nat

/-- What `ConnectBlock` writes: the amounts, and where the undo data went. -/
structure ConnectInput where
  nValueIn : Int
  nValueOut : Int
  /-- The position that was found, if `ConnectBlock` came that far. -/
  undo : Option Nat

/-- `Hash` of a checksum, the flags, a proof hash and a modifier. -/
abbrev ChecksumHash := Option Nat → Nat → Uint256 → Nat → Uint256

/-- `uint256::SetCompact` says that the number is negative. -/
def compactNegative (nCompact : Nat) : Bool :=
  let nSize := nCompact / 2 ^ 24
  let nWord := if nSize ≤ 3 then nCompact % 2 ^ 23 / 2 ^ (8 * (3 - nSize)) else nCompact % 2 ^ 23
  decide (nWord ≠ 0) && decide (nCompact / 2 ^ 23 % 2 ≠ 0)

/-- `uint256::SetCompact` says that the number is too large. -/
def compactOverflow (nCompact : Nat) : Bool :=
  let nSize := nCompact / 2 ^ 24
  let nWord := if nSize ≤ 3 then nCompact % 2 ^ 23 / 2 ^ (8 * (3 - nSize)) else nCompact % 2 ^ 23
  decide (nWord ≠ 0) && (decide (nSize > 34) || (decide (nWord > 0xff) && decide (nSize > 33)) ||
    (decide (nWord > 0xffff) && decide (nSize > 32)))

/-- `GetBlockProof`: `2 ** 256 / (bnTarget + 1)` in 256 bits. -/
def getBlockProof (nBits : Nat) : Uint256 :=
  let bnTarget := setCompact nBits
  if compactNegative nBits || compactOverflow nBits || decide (bnTarget = 0) then 0
  else ((2 ^ 256 - 1 - bnTarget) / ((bnTarget + 1) % 2 ^ 256) + 1) % 2 ^ 256

namespace EntryData

/-- `GetBlockTrust`; the dividend of the first division does not fit in 256 bits. -/
def getBlockTrust (pindex : EntryData) : Uint256 :=
  let bnTarget := setCompact pindex.nBits
  if bnTarget ≤ 0 then 0
  else if pindex.fProofOfStake then 2 ^ 256 % 2 ^ 256 / ((bnTarget + 1) % 2 ^ 256)
  else
    let bnPoWTrust := (2 ^ 256 - 1) / 2 ^ 20 / ((bnTarget + 1) % 2 ^ 256)
    if bnPoWTrust > 1 then bnPoWTrust else 1

/-- `nFlags`, as a number. -/
def nFlags (pindex : EntryData) : Nat :=
  pindex.fProofOfStake.toNat + 2 * pindex.fStakeEntropy.toNat +
    4 * pindex.fGeneratedStakeModifier.toNat

/-- `GetStakeModifierChecksum`: the first 32 bits of the hash. -/
def getStakeModifierChecksum (H : ChecksumHash) (pprev : Option EntryData) (pindex : EntryData) :
    Nat :=
  H (pprev.map nStakeModifierChecksum) pindex.nFlags pindex.hashProofOfStake
    pindex.nStakeModifier / 2 ^ (256 - 32) % 2 ^ 32

/-- `CBlockIndex::SetNull`. -/
def null (hash : Uint256) : EntryData := { phashBlock := hash, nHeight := 0, nVersion := 0 }

/-- `CBlockIndex(const CBlock& block)`. -/
def ofBlock (hash : Uint256) (block : CBlock) : EntryData :=
  let pindex := { null hash with
    nVersion := block.nVersion
    hashMerkleRoot := block.hashMerkleRoot
    nTime := block.nTime
    nBits := block.nBits
    nNonce := block.nNonce }
  if block.isProofOfStake then
    { pindex with
      fProofOfStake := true
      prevoutStake :=
        ((block.vtx[1]?.bind fun tx => tx.vin[0]?).map CTxIn.prevout).getD COutPoint.null
      nStakeTime := block.nTime }
  else pindex

/-- `RaiseValidity`. -/
def raiseValidity (failed : Bool) (nUpTo : Nat) (pindex : EntryData) : EntryData :=
  if failed then pindex
  else if pindex.nValid < nUpTo then { pindex with nValid := nUpTo } else pindex

/-- The part of `AddToBlockIndex` that needs the previous block. -/
def onPrev (H : ChecksumHash) (x : IndexInput) (pprev pindexNew : EntryData) : EntryData :=
  let placed := { pindexNew with nHeight := pprev.nHeight + 1 }
  let trusted := { placed with
    -- ppcoin: compute chain trust score
    bnChainTrust := (pprev.bnChainTrust + placed.getBlockTrust) % 2 ^ 256
    -- ppcoin: compute stake entropy bit for stake modifier
    fStakeEntropy := decide (placed.toCBlockIndex.phashBlock % 2 = 1)
    -- ppcoin: record proof-of-stake hash value
    hashProofOfStake :=
      if placed.fProofOfStake then x.hashProofOfStake else placed.hashProofOfStake }
  let modified := { trusted with
    nStakeModifier := x.nStakeModifier
    fGeneratedStakeModifier := x.fGeneratedStakeModifier }
  { modified with nStakeModifierChecksum := modified.getStakeModifierChecksum H (some pprev) }

/-- `AddToBlockIndex`: the new entry. -/
def addToBlockIndex (H : ChecksumHash) (hash : Uint256) (block : CBlock) (x : IndexInput)
    (pprev : Option EntryData) : EntryData :=
  let pindexNew := match pprev with
    | none => ofBlock hash block
    | some pprev => onPrev H x pprev (ofBlock hash block)
  raiseValidity false BLOCK_VALID_TREE
    { pindexNew with nChainWork :=
        ((pprev.map nChainWork).getD 0 + getBlockProof pindexNew.nBits) % 2 ^ 256 }

/-- `ReceivedBlockTransactions`: what it writes to the entry itself. -/
def receivedBlockTransactions (block : CBlock) (x : IndexInput) (failed : Bool)
    (pindexNew : EntryData) : EntryData :=
  raiseValidity failed BLOCK_VALID_TRANSACTIONS
    { pindexNew with
      fProofOfStake := pindexNew.fProofOfStake || block.isProofOfStake
      nTx := block.vtx.length
      nFile := x.nFile
      nDataPos := x.nPos
      nUndoPos := 0 }

/-- `ConnectBlock`: what it writes to the entry. -/
def connectBlock (x : ConnectInput) (failed : Bool) (pprev : Option EntryData)
    (pindex : EntryData) : EntryData :=
  let nMoneySupplyPrev := (pprev.map fun p => p.nMoneySupply).getD 0
  let nMoneySupply := nMoneySupplyPrev + x.nValueOut - x.nValueIn
  let minted :=
    { pindex with nMoneySupply := nMoneySupply, nMint := nMoneySupply - nMoneySupplyPrev }
  match x.undo with
  | none => minted
  | some nPos =>
    raiseValidity failed BLOCK_VALID_SCRIPTS
      (if minted.fHaveUndo then minted else { minted with nUndoPos := nPos, fHaveUndo := true })

end EntryData

end BitBlocks
