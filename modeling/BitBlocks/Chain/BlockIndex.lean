import BitBlocks.Node.Params

/-!
# Block index entries

The data of a `CBlockIndex` that validation reads. A function of the source that
is handed `pindexPrev` and walks `pprev` is handed the branch here: the entries
from the parent down to genesis, newest first.
-/

namespace BitBlocks

/-! The validity levels of `nStatus` that the modelled code raises entries to. -/

def BLOCK_VALID_TREE : Nat := 2

def BLOCK_VALID_TRANSACTIONS : Nat := 3

def BLOCK_VALID_SCRIPTS : Nat := 5

structure CBlockIndex where
  phashBlock : Uint256
  nHeight : Int
  nVersion : Int := 3
  nTime : Nat := 0
  nBits : Nat := 0
  nMint : Int := 0
  nMoneySupply : Int := 0
  /-- `BLOCK_PROOF_OF_STAKE` and `BLOCK_STAKE_MODIFIER` of `nFlags`. -/
  fProofOfStake : Bool := false
  fGeneratedStakeModifier : Bool := false
  nStakeModifier : Nat := 0
deriving DecidableEq, Repr

def CBlockIndex.getBlockTime (pindex : CBlockIndex) : Int := pindex.nTime

/-- Every entry is one above the next, and the last is at height zero. -/
def Heights : List CBlockIndex → Prop
  | [] => True
  | pindex :: pprev => pindex.nHeight = pprev.length ∧ Heights pprev

/-- `chainActive`, from the tip down to genesis. -/
structure ActiveChain where
  blocks : List CBlockIndex := []
  heights : Heights blocks := by trivial

namespace ActiveChain

def height (chain : ActiveChain) : Int := (chain.blocks.length : Int) - 1

/-- The hash of the block at a height. -/
def blockAt (chain : ActiveChain) (nHeight : Int) : Option Uint256 :=
  (chain.blocks.find? fun pindex => pindex.nHeight == nHeight).map CBlockIndex.phashBlock

end ActiveChain

/-- `IsSuperMajority`: enough of the last blocks have at least this version. -/
def isSuperMajority (P : CChainParams) (minVersion : Int) (pstart : List CBlockIndex)
    (nRequired : Nat) : Bool :=
  decide (((pstart.take P.nToCheckBlockUpgradeMajority).filter
    fun pindex => decide (pindex.nVersion ≥ minVersion)).length ≥ nRequired)

/-- `GetMedianTimePast`: the median of the last eleven block times. -/
def getMedianTimePast (pindex : List CBlockIndex) : Int :=
  let pmedian := ((pindex.take 11).map CBlockIndex.getBlockTime).insertionSort (· ≤ ·)
  pmedian.getD (pmedian.length / 2) 0

end BitBlocks
