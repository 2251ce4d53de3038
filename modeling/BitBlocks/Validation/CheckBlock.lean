import BitBlocks.Lib.Checks
import BitBlocks.Lib.Wrap
import BitBlocks.Node.Local

/-!
# `CheckBlock`

The checks a block has to pass before it is stored, and again when it is
connected. Each stage of the source is a definition of its own, because later
files need to tell them apart: three of them read the node's local state
(`checkTime`, `checkLocks`, `checkPayee`), the others are about the block alone.

A vector access is `at?`, which fails with `outOfRange` where the source would
read past the end. That is how "never indexes out of bounds" becomes a statement:
`outOfRange` is a value these functions do not return.
-/

namespace BitBlocks

open Checks Wrap LocalState

/-- Why a validation function did not return true. -/
inductive Fail where
  /-- `state.DoS` or `state.Invalid`: score, reject code, reason, `corruptionPossible`. -/
  | invalid (nDoS : Nat) (chRejectCode : Nat) (strRejectReason : String) (corruptionPossible : Bool)
  /-- `return error(...)` with the state untouched. -/
  | error
  /-- A vector was indexed past its end. -/
  | outOfRange
  /-- A C++ exception. -/
  | exception
  /-- An `assert` failed. -/
  | assertion
deriving DecidableEq, Repr

def REJECT_INVALID : Nat := 0x10
def REJECT_OBSOLETE : Nat := 0x11
def REJECT_NONSTANDARD : Nat := 0x40
def REJECT_CHECKPOINT : Nat := 0x43

/-- `state.DoS(nDoS, error(..), REJECT_INVALID, reason)`. -/
def Fail.dos (nDoS : Nat) (reason : String) : Fail := .invalid nDoS REJECT_INVALID reason false

/-- The same with `corruptionIn = true`: the block may have been damaged on its way. -/
def Fail.corrupt (nDoS : Nat) (reason : String) : Fail := .invalid nDoS REJECT_INVALID reason true

/-- `state.DoS(nDoS, error(..))`, without code or reason. -/
def Fail.plain (nDoS : Nat) : Fail := .invalid nDoS 0 "" false

/-! ## `CheckTransaction` -/

/-- The value loop of `CheckTransaction`. -/
def checkOutputs (P : CChainParams) (tx : CTransaction) (nValueOut : Int) :
    List CTxOut → Except Fail Unit
  | [] => .ok ()
  | txout :: vout => do
    failIf (txout.isEmpty && !tx.isCoinBase && !tx.isCoinStake) (.plain 100)
    failIf (decide (txout.nValue < 0)) (.dos 100 "bad-txns-vout-negative")
    failIf (decide (txout.nValue > P.nMaxMoneyOut)) (.dos 100 "bad-txns-vout-toolarge")
    failIf (!P.moneyRange (wrap64 (nValueOut + txout.nValue)))
      (.dos 100 "bad-txns-txouttotal-toolarge")
    checkOutputs P tx (wrap64 (nValueOut + txout.nValue)) vout

/-- `CheckTransaction`: basic checks that don't depend on any context. -/
def checkTransaction (R : Rules) (P : CChainParams) (tx : CTransaction) : Except Fail Unit := do
  failIf tx.vin.isEmpty (.dos 10 "bad-txns-vin-empty")
  failIf tx.vout.isEmpty (.dos 10 "bad-txns-vout-empty")
  failIf (decide (R.txSize tx > MAX_BLOCK_SIZE)) (.dos 100 "bad-txns-oversize")
  checkOutputs P tx 0 tx.vout
  failIf (!decide (tx.vin.map CTxIn.prevout).Nodup) (.dos 100 "bad-txns-inputs-duplicate")
  if tx.isCoinBase then do
    let txin ← at? .outOfRange tx.vin 0
    failIf (decide (txin.scriptSig.length < 2) || decide (txin.scriptSig.length > 150))
      (.dos 100 "bad-cb-length")
  else all tx.vin fun txin => failIf txin.prevout.isNull (.dos 10 "bad-txns-prevout-null")

/-! ## The payee check -/

/--
`IsBlockPayeeValid`. Which transaction pays is decided by the height alone; the
block's own shape is not consulted.
-/
def isBlockPayeeValid (R : Rules) (P : CChainParams) (env : LocalState) (block : CBlock)
    (nBlockHeight : Int) : Except Fail Bool :=
  if !env.fSynced then .ok true
  else do
    let txNew ← at? .outOfRange block.vtx (if nBlockHeight > P.nLastPOWBlock then 1 else 0)
    if env.isSporkActive SPORK_13_ENABLE_SUPERBLOCKS && env.isBudgetPaymentBlock nBlockHeight then
      if env.isBudgetTransactionValid txNew nBlockHeight then .ok true
      else .ok (!env.isSporkActive SPORK_9_MASTERNODE_BUDGET_ENFORCEMENT)
    else if env.isPaymentTransactionValid R P txNew nBlockHeight then .ok true
    else .ok (!env.isSporkActive SPORK_8_MASTERNODE_PAYMENT_ENFORCEMENT)

/-! ## The stages of `CheckBlock` -/

/-- `CheckBlockHeader`. -/
def checkBlockHeader (R : Rules) (block : CBlockHeader) (fCheckPOW : Bool) : Except Fail Unit :=
  failIf (fCheckPOW && !R.checkProofOfWork (R.getHash block) block.nBits) (.dos 50 "high-hash")

/-- Check that the header is valid: any failure is reported as possible corruption. -/
def checkHeader (R : Rules) (block : CBlock) : Except Fail Unit :=
  match checkBlockHeader R block.toCBlockHeader block.isProofOfWork with
  | .ok _ => .ok ()
  | .error _ => .error (.corrupt 100 "bad-header")

/-- Check timestamp, with three minutes of future drift for proof-of-stake. -/
def checkTime (env : LocalState) (block : CBlock) : Except Fail Unit :=
  failIf (decide (block.getBlockTime > env.nAdjustedTime +
    (if block.isProofOfStake then 180 else 7200)))
    (.invalid 0 REJECT_INVALID "time-too-new" false)

/-- Check the merkle root, and for the malleability of the tree. -/
def checkMerkle (R : Rules) (block : CBlock) (fCheckMerkleRoot : Bool) : Except Fail Unit :=
  if fCheckMerkleRoot then do
    let (hashMerkleRoot2, mutated) := block.buildMerkleTree R.hash2
    failIf (block.hashMerkleRoot != hashMerkleRoot2) (.corrupt 100 "bad-txnmrklroot")
    failIf mutated (.corrupt 100 "bad-txns-duplicate")
  else .ok ()

/-- Size limits, and which transactions are coinbase and coinstake. -/
def checkShape (R : Rules) (block : CBlock) : Except Fail Unit := do
  failIf (block.vtx.isEmpty || decide (block.vtx.length > MAX_BLOCK_SIZE) ||
    decide (R.blockSize block > MAX_BLOCK_SIZE)) (.dos 100 "bad-blk-length")
  -- first transaction must be coinbase, the rest must not be
  failIf block.vtx.isEmpty (.dos 100 "bad-cb-missing")
  let tx0 ← at? .outOfRange block.vtx 0
  failIf (!tx0.isCoinBase) (.dos 100 "bad-cb-missing")
  all (block.vtx.drop 1) fun tx => failIf tx.isCoinBase (.dos 100 "bad-cb-multiple")
  if block.isProofOfStake then do
    -- coinbase output should be empty if proof-of-stake block
    let tx0 ← at? .outOfRange block.vtx 0
    failIf (decide (tx0.vout.length ≠ 1)) (.plain 100)
    let txout ← at? .outOfRange tx0.vout 0
    failIf (!txout.isEmpty) (.plain 100)
    -- second transaction must be coinstake, the rest must not be
    let tx1 ← at? .outOfRange block.vtx 1
    failIf (!tx1.isCoinStake) (.plain 100)
    all (block.vtx.drop 2) fun tx => failIf tx.isCoinStake (.plain 100)
  else .ok ()

def checkLocks (env : LocalState) (block : CBlock) : Except Fail Unit :=
  if env.isSporkActive SPORK_3_SWIFTTX_BLOCK_FILTERING then
    all block.vtx fun tx =>
      if tx.isCoinBase then .ok ()
      else all tx.vin fun txin =>
        match env.mapLockedInputs txin.prevout with
        | some hash => failIf (hash != tx.hash) (.dos 0 "conflicting-tx-ix")
        | none => .ok ()
  else .ok ()

def checkPayee (R : Rules) (P : CChainParams) (env : LocalState) (tip : TipView) (block : CBlock) :
    Except Fail Unit :=
  match tip.tip with
  | none => .ok ()
  | some pindexPrev =>
    let nHeight := tip.heightOf pindexPrev block.hashPrevBlock
    if nHeight ≠ 0 ∧ env.fInitialBlockDownload = false then do
      let valid ← isBlockPayeeValid R P env block nHeight
      failIf (!valid) (.dos 0 "bad-cb-payee")
    else .ok ()

/-- Check transactions, and the total of their signature operations. -/
def checkTransactions (R : Rules) (P : CChainParams) (block : CBlock) : Except Fail Unit := do
  all block.vtx (checkTransaction R P)
  failIf (decide ((block.vtx.map R.getLegacySigOpCount).sum > MAX_BLOCK_SIGOPS))
    (.corrupt 100 "bad-blk-sigops")

/-- `CheckBlock`. -/
def checkBlock (R : Rules) (P : CChainParams) (env : LocalState) (tip : TipView) (block : CBlock)
    (fCheckMerkleRoot : Bool) : Except Fail Unit := do
  checkHeader R block
  checkTime env block
  checkMerkle R block fCheckMerkleRoot
  checkShape R block
  checkLocks env block
  checkPayee R P env tip block
  checkTransactions R P block

/-! ## Block signature and stake -/

/-- `CBlock::CheckBlockSignature`. -/
def checkBlockSignature (R : Rules) (block : CBlock) : Except Fail Bool :=
  if block.isProofOfWork then .ok block.vchBlockSig.isEmpty
  else do
    let tx1 ← at? .outOfRange block.vtx 1
    let txout ← at? .outOfRange tx1.vout 1
    .ok (R.verifyBlockSig txout.scriptPubKey (R.getHash block.toCBlockHeader) block.vchBlockSig)

/-- `CBlock::GetProofOfStake`. -/
def getProofOfStake (block : CBlock) : Except Fail (COutPoint × Nat) :=
  if block.isProofOfStake then do
    let tx1 ← at? .outOfRange block.vtx 1
    let txin ← at? .outOfRange tx1.vin 0
    .ok (txin.prevout, block.nTime)
  else .ok (COutPoint.null, 0)

end BitBlocks
