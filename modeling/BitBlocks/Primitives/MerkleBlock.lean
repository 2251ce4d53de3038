import BitBlocks.Lib.Bitmap
import BitBlocks.Node.Params

/-!
# Partial merkle trees (`merkleblock.h`, `merkleblock.cpp`)

A subset of the transaction ids of a block, in a form that gives back the ids and
the merkle root. The tree is traversed depth first; a flag bit is stored for every
node that is met, and a hash for every node below which there is nothing to look
for. The one who reads it makes the same traversal, of a tree whose size the
sender has told.
-/

namespace BitBlocks

structure CPartialMerkleTree where
  /-- The total number of transactions in the block. -/
  nTransactions : Nat
  /-- Node-is-parent-of-matched-txid bits. -/
  vBits : List Bool
  /-- Txids and internal hashes. -/
  vHash : List Uint256
  /-- Set when encountering invalid data. -/
  fBad : Bool
deriving DecidableEq, Repr

/-- How far a traversal has come, and the matched ids it has met. -/
structure Traversal where
  nBitsUsed : Nat := 0
  nHashUsed : Nat := 0
  vMatch : List Uint256 := []
  fBad : Bool
deriving DecidableEq, Repr

/-- The number of nodes at a height, in `unsigned int` arithmetic. -/
def calcTreeWidth (nTransactions height : Nat) : Nat :=
  (nTransactions + 2 ^ height - 1) % 2 ^ 32 / 2 ^ height

/-- `while (CalcTreeWidth(nHeight) > 1) nHeight++;` -/
def calcTreeHeightFrom (nTransactions : Nat) : (rounds nHeight : Nat) → Nat
  | 0, nHeight => nHeight
  | rounds + 1, nHeight =>
    if calcTreeWidth nTransactions nHeight > 1 then
      calcTreeHeightFrom nTransactions rounds (nHeight + 1)
    else nHeight

/-- A number of 32 bits is halved away in 32 rounds. -/
def calcTreeHeight (nTransactions : Nat) : Nat := calcTreeHeightFrom nTransactions 32 0

namespace CPartialMerkleTree

variable (hash2 : Uint256 → Uint256 → Uint256)

/-- The hash of a node, at leaf level the ids themselves. -/
def calcHash (nTransactions : Nat) (vTxid : List Uint256) : (height pos : Nat) → Uint256
  | 0, pos => vTxid.getD pos 0
  | height + 1, pos =>
    let left := calcHash nTransactions vTxid height (pos * 2)
    -- the right hash if not beyond the end of the array, the left hash otherwise
    let right :=
      if pos * 2 + 1 < calcTreeWidth nTransactions height then
        calcHash nTransactions vTxid height (pos * 2 + 1)
      else left
    hash2 left right

/-- Whether a node is the parent of at least one matched id. -/
def parentOfMatch (nTransactions : Nat) (vMatch : List Bool) (height pos : Nat) : Bool :=
  (List.range' (pos * 2 ^ height)
    (min ((pos + 1) * 2 ^ height) nTransactions - pos * 2 ^ height)).any
      fun p => vMatch.getD p false

def pushBit (t : CPartialMerkleTree) (fParentOfMatch : Bool) : CPartialMerkleTree :=
  { t with vBits := t.vBits ++ [fParentOfMatch] }

def pushHash (t : CPartialMerkleTree) (hash : Uint256) : CPartialMerkleTree :=
  { t with vHash := t.vHash ++ [hash] }

def traverseAndBuild (vTxid : List Uint256) (vMatch : List Bool) :
    (height pos : Nat) → CPartialMerkleTree → CPartialMerkleTree
  | 0, pos, t =>
    (t.pushBit (parentOfMatch t.nTransactions vMatch 0 pos)).pushHash
      (calcHash hash2 t.nTransactions vTxid 0 pos)
  | height + 1, pos, t =>
    let fParentOfMatch := parentOfMatch t.nTransactions vMatch (height + 1) pos
    let built := t.pushBit fParentOfMatch
    if !fParentOfMatch then built.pushHash (calcHash hash2 t.nTransactions vTxid (height + 1) pos)
    else
      -- don't store any hash, but descend into the subtrees
      let built := traverseAndBuild vTxid vMatch height (pos * 2) built
      if pos * 2 + 1 < calcTreeWidth t.nTransactions height then
        traverseAndBuild vTxid vMatch height (pos * 2 + 1) built
      else built

/-- The constructor from the ids of a block and a mask that selects some of them. -/
def build (vTxid : List Uint256) (vMatch : List Bool) : CPartialMerkleTree :=
  traverseAndBuild hash2 vTxid vMatch (calcTreeHeight vTxid.length) 0
    { nTransactions := vTxid.length, vBits := [], vHash := [], fBad := false }

/-- Use a stored hash, of a matched id or not, and do not descend. -/
def useHash (t : CPartialMerkleTree) (fMatched : Bool) (s : Traversal) : Uint256 × Traversal :=
  match t.vHash[s.nHashUsed]? with
  | none => (0, { s with fBad := true })
  | some hash =>
    (hash, { s with
      nHashUsed := s.nHashUsed + 1
      vMatch := if fMatched then s.vMatch ++ [hash] else s.vMatch })

def traverseAndExtract (t : CPartialMerkleTree) :
    (height pos : Nat) → Traversal → Uint256 × Traversal
  | 0, _, s =>
    match t.vBits[s.nBitsUsed]? with
    | none => (0, { s with fBad := true })
    | some fParentOfMatch =>
      t.useHash fParentOfMatch { s with nBitsUsed := s.nBitsUsed + 1 }
  | height + 1, pos, s =>
    match t.vBits[s.nBitsUsed]? with
    | none => (0, { s with fBad := true })
    | some false => t.useHash false { s with nBitsUsed := s.nBitsUsed + 1 }
    | some true =>
      let (left, s) :=
        traverseAndExtract t height (pos * 2) { s with nBitsUsed := s.nBitsUsed + 1 }
      if pos * 2 + 1 < calcTreeWidth t.nTransactions height then
        let (right, s) := traverseAndExtract t height (pos * 2 + 1) s
        (hash2 left right, s)
      else (hash2 left left, s)

/-- `ExtractMatches`: the merkle root, or 0 in case of failure, with `vMatch` and `fBad` as they
are left. -/
def extractMatches (t : CPartialMerkleTree) : Uint256 × Traversal :=
  let s : Traversal := { fBad := t.fBad }
  -- an empty set will not work
  if t.nTransactions = 0 then (0, s)
  -- 60 is the lower bound for the size of a serialized CTransaction
  else if t.nTransactions > MAX_BLOCK_SIZE / 60 then (0, s)
  -- there can never be more hashes provided than one for every txid
  else if t.vHash.length > t.nTransactions then (0, s)
  -- there must be at least one bit per node in the partial tree, and at least one node per hash
  else if t.vBits.length < t.vHash.length then (0, s)
  else
    let (hashMerkleRoot, s) := traverseAndExtract hash2 t (calcTreeHeight t.nTransactions) 0 s
    if s.fBad then (0, s)
    -- all bits were consumed, except for the padding
    else if (s.nBitsUsed + 7) / 8 ≠ (t.vBits.length + 7) / 8 then (0, s)
    -- all hashes were consumed
    else if s.nHashUsed ≠ t.vHash.length then (0, s)
    else (hashMerkleRoot, s)

/-! ## The serialized form -/

/-- The flag bits, packed per 8 in a byte, least significant bit first. -/
def packBits (vBits : List Bool) : List UInt8 := (List.range ((vBits.length + 7) / 8)).map fun i =>
    Bitmap.packByte fun j => vBits.getD (i * 8 + j) false

def serialize (t : CPartialMerkleTree) : List UInt8 := CompactSize.writeLE 4 t.nTransactions ++
    (CompactSize.writeList (CompactSize.writeLE 32) t.vHash ++
      CompactSize.writeList (fun ch => [ch]) (packBits t.vBits))

def unserialize : Reader CPartialMerkleTree := do
  let nTransactions ← CompactSize.readLE 4
  let vHash ← CompactSize.readList MAX_SIZE (CompactSize.readLE 32)
  let vBytes ← CompactSize.readList MAX_SIZE Reader.byte
  pure { nTransactions, vBits := vBytes.flatMap Bitmap.bits, vHash, fBad := false }

end CPartialMerkleTree

end BitBlocks
