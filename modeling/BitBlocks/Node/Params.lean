import BitBlocks.Primitives.Transaction

/-!
# Consensus parameters, and the primitives validation is built on

`CChainParams` has the fields of `chainparams.h` that the modelled code reads.
`Rules` collects the functions it calls and does not look into: hashing, sizes,
signature-operation counts, script verification. Nothing is assumed of them, so
every result holds whatever they return, unless it says otherwise.
-/

namespace BitBlocks

/-- The number of base units in one coin. -/
def COIN : Int := 100000000

def CENT : Int := 1000000

def MAX_BLOCK_SIZE : Nat := 1000000

def MAX_SIZE : Nat := 0x02000000

/-- The maximum allowed number of signature check operations in a block. -/
def MAX_BLOCK_SIGOPS : Nat := MAX_BLOCK_SIZE / 50

/-- `CChainParams`. -/
structure CChainParams where
  hashGenesisBlock : Uint256
  /-- `NetworkID() == CBaseChainParams::MAIN`. -/
  networkMain : Bool
  nLastPOWBlock : Int
  nMaturity : Int
  nMaxMoneyOut : Int
  /-- The main network has the largest limit, far from the range of an `int64_t`. -/
  nMaxMoneyOut_range : 0 ≤ nMaxMoneyOut ∧ nMaxMoneyOut ≤ 584000000 * COIN
  nMaxReorganizationDepth : Int
  nEnforceBlockUpgradeMajority : Nat
  nRejectBlockOutdatedMajority : Nat
  nToCheckBlockUpgradeMajority : Nat
  nMasternodeCountDrift : Int
  nModifierUpdateBlock : Int
  /-- `Checkpoints::GetTotalBlocksEstimate()`: the height of the last checkpoint. -/
  nTotalBlocksEstimate : Int
  /-- `Checkpoints::CheckBlock`'s table: heights with a hard-coded hash. -/
  mapCheckpoints : List (Int × Uint256)

/-- `CMainParams`. -/
def mainParams : CChainParams where
  hashGenesisBlock := 0x0000072fa90af55d6d2e8c4ddefef154787e152b85b37e8a1bcfd20daf88cb78
  networkMain := true
  nLastPOWBlock := 500
  nMaturity := 15
  nMaxMoneyOut := 584000000 * COIN
  nMaxMoneyOut_range := by decide
  nMaxReorganizationDepth := 100
  nEnforceBlockUpgradeMajority := 750
  nRejectBlockOutdatedMajority := 950
  nToCheckBlockUpgradeMajority := 1000
  nMasternodeCountDrift := 20
  nModifierUpdateBlock := 615800
  nTotalBlocksEstimate := 4100000
  mapCheckpoints := [(58482, 0x05878445b7877aea2ef3d7e52a7cbfbd5a4d12eaf5103d1ccdc02561b6170f78),
     (70774, 0x1600a54444d64672652f4d32d26ef099c2d80822fd68836e1d819dc5aa9e8db2),
     (200154, 0xf2ac17e26dfdf09c46ee78c1712899f32becae9b28145cfe11ced3107cc9a454),
     (645690, 0x1f481c78eb7bd136a70cca5a709a7eb0e1f17ee5a4af6724c9a4f0941244af63),
     (925690, 0x7eddd7815a9014271d50d1385ad64f7f5bc7cd8fd9b78b2b4984672fefa047f4),
     (1520623, 0x8a7b6d89dc9159246543ddef90c5cdd8751df6a998f98756ea28bd432271ba76),
     (1820623, 0x6317adddf2635964924e327caa8db289625106fbe1a0b87841f6656442737c79),
     (2500000, 0x4d13a16a6fdf9912a1ad933008c2a17dbd644c389fe5042482d932cac8488ba0),
     (3000000, 0x240ba7086366818c6bb3ae94576d9e452c37f4666c7bb1def429faeca8d48902),
     (3500000, 0xc18ae698b3c715f503cafdce96847c8deb7f22a4f29b21c0409da35f92ec4e74),
     (3685080, 0x51896e4e2c945550ce3722bb5fe793fb0cc076a4d437f5dd805e97d0bc05b4e9),
     (4000000, 0x29fdaf42489ad9b1292bbdfcf71f343846f941c7f54283da0f87e215c4344259),
     (4100000, 0x367b5e764fc8eb18896e2be92a5d739a4c8d98f981b7b832e14ca1d7246381ad)]

/-- `GetBudgetPaymentCycleBlocks`. -/
def CChainParams.getBudgetPaymentCycleBlocks (P : CChainParams) : Int :=
  if P.networkMain then 43200 else 144

/-- `MoneyRange`. -/
def CChainParams.moneyRange (P : CChainParams) (nValueOut : Int) : Bool :=
  decide (nValueOut ≥ 0) && decide (nValueOut ≤ P.nMaxMoneyOut)

theorem CChainParams.moneyRange_iff {P : CChainParams} {x : Int} :
    P.moneyRange x = true ↔ 0 ≤ x ∧ x ≤ P.nMaxMoneyOut := by
  simp [moneyRange]

/-- Script verification flags, as the set that is passed. -/
structure ScriptFlags where
  p2sh : Bool := false
  dersig : Bool := false
  /-- The whole of `STANDARD_SCRIPT_VERIFY_FLAGS`. -/
  standard : Bool := false
deriving DecidableEq, Repr

/-- The functions validation calls on hashes, sizes and scripts. -/
structure Rules where
  /-- `CBlockHeader::GetHash`. -/
  getHash : CBlockHeader → Uint256
  /-- `Hash` of two concatenated hashes. -/
  hash2 : Uint256 → Uint256 → Uint256
  /-- `GetSerializeSize` of a block and of a transaction. -/
  blockSize : CBlock → Nat
  txSize : CTransaction → Nat
  getLegacySigOpCount : CTransaction → Nat
  /-- `GetP2SHSigOpCount`, given the outputs the inputs refer to. -/
  getP2SHSigOpCount : CTransaction → List CTxOut → Nat
  /-- `CheckProofOfWork(hash, nBits)`. -/
  checkProofOfWork : Uint256 → Nat → Bool
  /-- `VerifyScript(scriptSig, scriptPubKey, flags, checker of (tx, nIn))`. -/
  verifyScript : CScript → CScript → ScriptFlags → CTransaction → Nat → Bool
  /-- `Solver` and `CPubKey::Verify`, as `CheckBlockSignature` combines them on the
  staked output's script. -/
  verifyBlockSig : CScript → Uint256 → List UInt8 → Bool
  /-- `GetMasternodePayment(nHeight, blockValue, nMasternodeCount)`, a floating-point table. -/
  getMasternodePayment : Int → Int → Int → Int

/--
A set of rules to evaluate on: hashes are read off the nonce, sizes count
transactions, and the only scripts are `OP_TRUE` and the empty one.
-/
def Rules.transparent : Rules where
  getHash h := h.nNonce
  hash2 a b := 2 * a + 3 * b + 1
  blockSize block := 100 * block.vtx.length
  txSize tx := tx.vin.length + tx.vout.length
  getLegacySigOpCount _ := 0
  getP2SHSigOpCount _ _ := 0
  checkProofOfWork _ _ := true
  verifyScript scriptSig scriptPubKey _ _ _ :=
    scriptPubKey == [0x51] || (scriptPubKey == [] && scriptSig == [0x51])
  verifyBlockSig _ _ vchBlockSig := !vchBlockSig.isEmpty
  getMasternodePayment _ _ _ := 0

/-! ## `GetBlockValue` -/

def getBlockValue (nHeight : Int) : Int :=
  if nHeight = 0 then 160000000 * COIN
  else if nHeight < 20000 ∧ nHeight > 0 then 10 * COIN
  else if nHeight ≤ 40000 ∧ nHeight ≥ 20000 then 20 * COIN
  else if nHeight ≤ 60000 ∧ nHeight ≥ 40001 then 40 * COIN
  else if nHeight ≤ 80000 ∧ nHeight ≥ 60001 then 60 * COIN
  else if nHeight ≤ 100000 ∧ nHeight ≥ 80001 then 80 * COIN
  else if nHeight ≤ 400000 ∧ nHeight ≥ 100001 then 100 * COIN
  else if nHeight ≤ 700000 ∧ nHeight ≥ 400001 then 90 * COIN
  else if nHeight ≤ 1000000 ∧ nHeight ≥ 700001 then 80 * COIN
  else if nHeight ≤ 1200000 ∧ nHeight ≥ 1000001 then 70 * COIN
  else if nHeight ≤ 1500000 ∧ nHeight ≥ 1200001 then 60 * COIN
  else if nHeight ≤ 2000000 ∧ nHeight ≥ 1500001 then 50 * COIN
  else if nHeight ≤ 2500000 ∧ nHeight ≥ 2000001 then 45 * COIN
  else if nHeight ≤ 3000000 ∧ nHeight ≥ 2500001 then 40 * COIN
  else if nHeight ≤ 3500000 ∧ nHeight ≥ 3000001 then 35 * COIN
  else if nHeight ≤ 4000000 ∧ nHeight ≥ 3500001 then 30 * COIN
  else if nHeight ≤ 4500000 ∧ nHeight ≥ 4000001 then 25 * COIN
  else if nHeight ≤ 5000000 ∧ nHeight ≥ 4500001 then 20 * COIN
  else if nHeight ≤ 5500000 ∧ nHeight ≥ 5000001 then 15 * COIN
  else if nHeight ≤ 6000000 ∧ nHeight ≥ 5500001 then 10 * COIN
  else if nHeight ≤ 7000000 ∧ nHeight ≥ 6000001 then 8 * COIN
  else if nHeight ≤ 8000000 ∧ nHeight ≥ 7000001 then 6 * COIN
  else if nHeight ≤ 9000000 ∧ nHeight ≥ 8000001 then 4 * COIN
  else if nHeight ≤ 10000000 ∧ nHeight ≥ 9000001 then 2 * COIN
  else if nHeight ≤ 20000000 ∧ nHeight ≥ 10000001 then 1 * COIN
  else if nHeight ≤ 50000000 ∧ nHeight ≥ 20000001 then COIN / 2
  else COIN / 10

theorem getBlockValue_range (nHeight : Int) :
    0 ≤ getBlockValue nHeight ∧ getBlockValue nHeight ≤ 160000000 * COIN := by
  have hite : ∀ (c : Prop) [Decidable c] (a b : Int), (0 ≤ a ∧ a ≤ 160000000 * COIN) →
      (0 ≤ b ∧ b ≤ 160000000 * COIN) →
      0 ≤ (if c then a else b) ∧ (if c then a else b) ≤ 160000000 * COIN := by
    intro c _ a b ha hb
    by_cases hc : c
    · rwa [if_pos hc]
    · rwa [if_neg hc]
  unfold getBlockValue
  repeat' apply hite
  all_goals decide

end BitBlocks
