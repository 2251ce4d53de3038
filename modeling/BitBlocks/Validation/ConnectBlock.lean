import BitBlocks.Chain.BlockIndex
import BitBlocks.Coins.Disconnect
import BitBlocks.Validation.CheckBlock

/-!
# `ConnectBlock` and `DisconnectBlock`

Connecting a block re-runs `CheckBlock`, walks the transactions through
`CheckInputs` and `UpdateCoins`, and compares what the block created with the
schedule. The three running sums (`nFees`, `nValueIn`, `nValueOut`) are 64-bit
counters and are wrapped here where the source adds to them.

The modelled path is the one `ConnectTip` takes (`fJustCheck` false), with script
checks run inline (`nScriptCheckThreads = 0`) and disk writes succeeding.
-/

namespace BitBlocks

open Checks Wrap LocalState CCoinsView

/-! ## Values -/

/-- `CTransaction::GetValueOut`; `none` is the exception it throws. -/
def getValueOutFrom (nValueOut : Int) : List CTxOut → Option Int
  | [] => some nValueOut
  | txout :: vout =>
    if txout.nValue < 0 then none
    else if wrap64 (nValueOut + txout.nValue) < nValueOut then none
    else getValueOutFrom (wrap64 (nValueOut + txout.nValue)) vout

def CTransaction.getValueOut (tx : CTransaction) : Except Fail Int :=
  match getValueOutFrom 0 tx.vout with
  | some nValueOut => .ok nValueOut
  | none => .error .exception

/-- `GetOutputFor`. -/
def CCoinsView.getOutputFor (v : CCoinsView) (txin : CTxIn) : CTxOut :=
  (v.get txin.prevout.hash).out txin.prevout.n

/-- `GetValueIn`. -/
def CCoinsView.getValueIn (v : CCoinsView) (tx : CTransaction) : Int :=
  if tx.isCoinBase then 0 else sum64 0 (tx.vin.map fun txin => (v.getOutputFor txin).nValue)

/-! ## `CheckInputs` -/

/-- The loop over the inputs: maturity, then value range. Returns `nValueIn`. -/
def checkInputCoins (P : CChainParams) (inputs : CCoinsView) (nSpendHeight : Int)
    (nValueIn : Int) : List CTxIn → Except Fail Int
  | [] => .ok nValueIn
  | txin :: vin => do
    let coins := inputs.get txin.prevout.hash
    let nValue := (coins.out txin.prevout.n).nValue
    -- if prev is coinbase, check that it's matured
    failIf ((coins.fCoinBase || coins.fCoinStake) &&
        decide (nSpendHeight - coins.nHeight < P.nMaturity))
      (.invalid 0 REJECT_INVALID "bad-txns-premature-spend-of-coinbase" false)
    failIf (!P.moneyRange nValue || !P.moneyRange (wrap64 (nValueIn + nValue)))
      (.dos 100 "bad-txns-inputvalues-outofrange")
    checkInputCoins P inputs nSpendHeight (wrap64 (nValueIn + nValue)) vin

/-- The fee checks; a coinstake may pay out more than it takes in. -/
def checkFee (P : CChainParams) (tx : CTransaction) (nValueIn : Int) : Except Fail Unit :=
  if tx.isCoinStake then .ok ()
  else do
    let nValueOut ← tx.getValueOut
    failIf (decide (nValueIn < nValueOut)) (.dos 100 "bad-txns-in-belowout")
    failIf (decide (wrap64 (nValueIn - nValueOut) < 0)) (.dos 100 "bad-txns-fee-negative")
    failIf (!P.moneyRange (wrap64 (nValueIn - nValueOut))) (.dos 100 "bad-txns-fee-outofrange")

/-- One input's script; a failure under the non-mandatory flags only scores nothing. -/
def checkScript (R : Rules) (inputs : CCoinsView) (flags : ScriptFlags) (tx : CTransaction)
    (txin : CTxIn) (nIn : Nat) : Except Fail Unit :=
  let scriptPubKey := (inputs.getOutputFor txin).scriptPubKey
  if R.verifyScript txin.scriptSig scriptPubKey flags tx nIn then .ok ()
  else if flags.dersig &&
      R.verifyScript txin.scriptSig scriptPubKey { flags with dersig := false } tx nIn then
    .error (.invalid 0 REJECT_NONSTANDARD "non-mandatory-script-verify-flag" false)
  else .error (.dos 100 "mandatory-script-verify-flag-failed")

/-- `CheckInputs`. -/
def checkInputs (R : Rules) (P : CChainParams) (tx : CTransaction) (inputs : CCoinsView)
    (nSpendHeight : Int) (fScriptChecks : Bool) (flags : ScriptFlags) : Except Fail Unit :=
  if tx.isCoinBase then .ok ()
  else do
    failIf (!inputs.haveInputs tx) (.plain 0)
    let nValueIn ← checkInputCoins P inputs nSpendHeight 0 tx.vin
    checkFee P tx nValueIn
    if fScriptChecks then
      all tx.vin.zipIdx fun (txin, nIn) => checkScript R inputs flags tx txin nIn
    else .ok ()

/-! ## `ConnectBlock` -/

/-- What the loop of `ConnectBlock` carries from one transaction to the next. -/
structure LoopState where
  view : CCoinsView
  /-- The undo data of every transaction so far, the coinbase's included. -/
  vtxundo : List (List CTxInUndo)
  nFees : Int
  nValueIn : Int
  nValueOut : Int
  nSigOps : Nat

/-- What every round of the loop is given. -/
structure LoopContext where
  nHeight : Int
  nSpendHeight : Int
  fScriptChecks : Bool
  flags : ScriptFlags

/-- `nFees += view.GetValueIn(tx) - tx.GetValueOut()`, unless the transaction is a coinstake. -/
def addFees (st : LoopState) (tx : CTransaction) : Except Fail Int :=
  if tx.isCoinStake then .ok st.nFees
  else do
    let nValueOut ← tx.getValueOut
    .ok (wrap64 (st.nFees + wrap64 (st.view.getValueIn tx - nValueOut)))

/-- The part of a round that a coinbase skips; returns `nSigOps`, `nFees` and `nValueIn`. -/
def connectInputs (R : Rules) (P : CChainParams) (c : LoopContext) (st : LoopState)
    (tx : CTransaction) (nSigOps : Nat) : Except Fail (Nat × Int × Int) :=
  if tx.isCoinBase then .ok (nSigOps, st.nFees, st.nValueIn)
  else do
    failIf (!st.view.haveInputs tx) (.dos 100 "bad-txns-inputs-missingorspent")
    let nSigOps := if c.flags.p2sh then
        nSigOps + R.getP2SHSigOpCount tx (tx.vin.map st.view.getOutputFor) else nSigOps
    failIf (c.flags.p2sh && decide (nSigOps > MAX_BLOCK_SIGOPS)) (.dos 100 "bad-blk-sigops")
    let nFees ← addFees st tx
    checkInputs R P tx st.view c.nSpendHeight c.fScriptChecks c.flags
    .ok (nSigOps, nFees, wrap64 (st.nValueIn + st.view.getValueIn tx))

def connectTx (R : Rules) (P : CChainParams) (c : LoopContext) (st : LoopState)
    (tx : CTransaction) : Except Fail LoopState := do
  failIf (decide (st.nSigOps + R.getLegacySigOpCount tx > MAX_BLOCK_SIGOPS))
    (.dos 100 "bad-blk-sigops")
  let (nSigOps, nFees, nValueIn) ←
    connectInputs R P c st tx (st.nSigOps + R.getLegacySigOpCount tx)
  let nValueOut ← tx.getValueOut
  match updateCoins tx st.view c.nHeight with
  | none => .error .assertion
  | some (view, txundo) =>
    .ok { view := view
          vtxundo := st.vtxundo ++ [txundo]
          nFees := nFees
          nValueIn := nValueIn
          nValueOut := wrap64 (st.nValueOut + nValueOut)
          nSigOps := nSigOps }

/-- The loop of `ConnectBlock`. -/
def connectAll (R : Rules) (P : CChainParams) (c : LoopContext) :
    LoopState → List CTransaction → Except Fail LoopState
  | st, [] => .ok st
  | st, tx :: vtx => connectTx R P c st tx >>= fun st' => connectAll R P c st' vtx

/-- `fEnforceBIP30`: two blocks of another chain are exempt, by height and hash. -/
def enforceBIP30 (nHeight : Int) (hash : Uint256) : Bool := !((nHeight == 91842 &&
      hash == 0x00000000000a4d0a398161ffc163c503763b1f4360639393e0e4c8e300e0caec) ||
    (nHeight == 91880 &&
      hash == 0x00000000000743f190a18c5577a3c2d2a1f610ae9601ac046a38084ccb7cd721))

/-- "tried to overwrite transaction": no txid of the block may have coins left. -/
def checkBIP30 (view : CCoinsView) (block : CBlock) (nHeight : Int) (hash : Uint256) :
    Except Fail Unit :=
  if enforceBIP30 nHeight hash then
    all block.vtx fun tx => failIf (!(view.get tx.hash).isPruned) (.dos 100 "bad-txns-BIP30")
  else .ok ()

/-- `IsBlockValueValid`. -/
def isBlockValueValid (P : CChainParams) (env : LocalState) (tip : TipView) (block : CBlock)
    (nExpectedValue nMinted : Int) : Bool :=
  match tip.tip with
  | none => true
  | some pindexPrev =>
    let nHeight := tip.heightOf pindexPrev block.hashPrevBlock
    if !env.fSynced then
      -- super blocks will always be on these blocks, max 100 per budgeting
      if nHeight.tmod P.getBudgetPaymentCycleBlocks < 100 then true
      else decide (nMinted ≤ nExpectedValue)
    else if !env.isSporkActive SPORK_13_ENABLE_SUPERBLOCKS then
      decide (nMinted ≤ nExpectedValue)
    else if env.isBudgetPaymentBlock nHeight then true
    else decide (nMinted ≤ nExpectedValue)

/-- What a connected block leaves behind: the coins, the undo data, and its index entry's totals. -/
structure Connected where
  view : CCoinsView
  vtxundo : List (List CTxInUndo)
  nMoneySupply : Int
  nMint : Int

/-- The verification flags and heights `ConnectBlock` derives from the block's position. -/
def loopContext (P : CChainParams) (prev : CBlockIndex) (pprev : List CBlockIndex)
    (block : CBlock) : LoopContext where
  nHeight := prev.nHeight + 1
  nSpendHeight := prev.nHeight + 1
  fScriptChecks := decide (prev.nHeight + 1 ≥ P.nTotalBlocksEstimate)
  flags :=
    { p2sh := decide (block.getBlockTime ≥ 1333238400)
      dersig := decide (block.nVersion ≥ 3) &&
        isSuperMajority P 3 pprev P.nEnforceBlockUpgradeMajority }

/-- With threads for the script checks, the loop queues the scripts and runs none. -/
def LoopContext.inLoop (c : LoopContext) (nScriptCheckThreads : Nat) : LoopContext :=
  { c with fScriptChecks := c.fScriptChecks && decide (nScriptCheckThreads = 0) }

/--
`ConnectBlock` after `CheckBlock`, on a block that has a parent. Whether the scripts are run
in the loop or queued makes a difference to the order of the failures only.
-/
def connectBody (R : Rules) (P : CChainParams) (env : LocalState) (tip : TipView)
    (prev : CBlockIndex) (pprev : List CBlockIndex) (block : CBlock) (view : CCoinsView) :
    Except Fail Connected := do
  let c := loopContext P prev pprev block
  failIf (decide (c.nHeight ≤ P.nLastPOWBlock) && block.isProofOfStake) (.dos 100 "PoS-early")
  failIf (decide (c.nHeight > P.nLastPOWBlock) && block.isProofOfWork) (.dos 100 "PoW-ended")
  checkBIP30 view block c.nHeight (R.getHash block.toCBlockHeader)
  let st ← connectAll R P c ⟨view, [], 0, 0, 0, 0⟩ block.vtx
  let nMoneySupply := wrap64 (wrap64 (prev.nMoneySupply + st.nValueOut) - st.nValueIn)
  let nMint := wrap64 (nMoneySupply - prev.nMoneySupply)
  -- PoW phase redistributed fees to miner. PoS stage destroys fees.
  let nExpectedMint := if block.isProofOfWork then wrap64 (getBlockValue prev.nHeight + st.nFees)
    else getBlockValue prev.nHeight
  failIf (!isBlockValueValid P env tip block nExpectedMint nMint) (.dos 100 "bad-cb-amount")
  .ok ⟨st.view, st.vtxundo.tail, nMoneySupply, nMint⟩

/--
`ConnectBlock`. The genesis block's transactions are skipped; any other block
needs a parent, or the first `assert` fails.
-/
def connectBlock (R : Rules) (P : CChainParams) (env : LocalState) (tip : TipView)
    (pprev : List CBlockIndex) (block : CBlock) (view : CCoinsView) : Except Fail Connected := do
  checkBlock R P env tip block true
  if R.getHash block.toCBlockHeader = P.hashGenesisBlock then .ok ⟨view, [], 0, 0⟩
  else match pprev with
    | [] => .error .assertion
    | prev :: _ => connectBody R P env tip prev pprev block view

/-- `DisconnectBlock` as `DisconnectTip` calls it: an unclean result is a failure. -/
def disconnectBlock (block : CBlock) (vtxundo : List (List CTxInUndo)) (nHeight : Int)
    (view : CCoinsView) : Option CCoinsView :=
  match disconnectCoins block.vtx vtxundo nHeight view with
  | some (view', true) => some view'
  | _ => none

end BitBlocks
