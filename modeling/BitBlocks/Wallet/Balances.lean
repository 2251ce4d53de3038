import BitBlocks.Lib.Table
import BitBlocks.Chain.Accept
import BitBlocks.Obfuscation.Pool
import BitBlocks.Primitives.MerkleBranch

/-!
# The balances of the wallet

The wallet keeps the transactions that concern it. What it makes of one of them depends on
where the transaction is: how deep in the chain, in the memory pool, or in neither. Credits
and debits are summed up once and remembered in the transaction, until `MarkDirty` forgets
them.

A getter that throws returns `none`. A remembered sum is one that may be missing, in the
place of a flag and a number. What the getters remember is written down in the steps of the
wallet, and so is `fMerkleVerified`; here they only read.
-/

namespace BitBlocks

/-! ## The data -/

/-- `isminetype`, and the filters made of it. -/
def ISMINE_NO : Nat := 0
def ISMINE_WATCH_ONLY : Nat := 3
def ISMINE_SPENDABLE : Nat := 4
def ISMINE_ALL : Nat := 7

/-- A block of `chainActive`, as far as the wallet looks at it. -/
structure ChainBlock where
  hash : Uint256
  hashMerkleRoot : Uint256
  deriving DecidableEq, Repr

/-- What the wallet sees of the node: the chain from genesis on, the ids of the memory pool. -/
structure NodeView where
  chainActive : List ChainBlock
  mempool : List Uint256 := []
  /-- `GetAdjustedTime()`. -/
  nAdjustedTime : Int := 0
  /-- `GetTransactionLockSignatures`. -/
  nLockSignatures : Uint256 → Int := fun _ => -1

/-- A transaction of the wallet, with its merkle branch and the sums it remembers. -/
structure CWalletTx where
  tx : CTransaction
  hashBlock : Uint256 := 0
  vMerkleBranch : List Uint256 := []
  nIndex : Int := -1
  fMerkleVerified : Bool := false
  nDebitCached : Option Int := none
  nWatchDebitCached : Option Int := none
  nCreditCached : Option Int := none
  nWatchCreditCached : Option Int := none
  nImmatureCreditCached : Option Int := none
  nAvailableCreditCached : Option Int := none
  deriving DecidableEq, Repr

/-- The wallet: a key store, its transactions by their ids, and who spends what. -/
structure CWallet (K : Type) where
  keys : K
  mapWallet : AList (fun _ : Uint256 => CWalletTx) := ∅
  mapTxSpends : List (COutPoint × Uint256) := []
  setLockedCoins : List COutPoint := []

/-- The rules and settings the wallet goes by. -/
structure WalletRules (K : Type) where
  params : CChainParams
  /-- `Hash` of two concatenated hashes. -/
  hash2 : Uint256 → Uint256 → Uint256
  /-- `IsMine(keystore, scriptPubKey)`. -/
  isMine : K → CScript → Nat
  bSpendZeroConfChange : Bool
  nSwiftTXDepth : Nat
  fMasterNode : Bool
  nMasternodeCollateralLimit : Int

/-- `CCoinControl`, as far as `AvailableCoins` reads it. -/
structure CCoinControl where
  setSelected : List COutPoint
  fAllowOtherInputs : Bool
  fAllowWatchOnly : Bool

inductive AvailableCoinsType where
  | allCoins
  | onlyDenominated
  | onlyNot10000IfMn
  | onlyNondenominatedNot10000IfMn
  | only10000
  deriving DecidableEq

/-- `COutput`. -/
structure COutput where
  tx : CWalletTx
  i : Nat
  nDepth : Int
  fSpendable : Bool

variable {K : Type} (R : WalletRules K) (node : NodeView) (pw : CWallet K)

/-! ## Depth -/

namespace NodeView

/-- `chainActive.Height()`. -/
def height : Int := node.chainActive.length - 1

/-- `IsFinalTx`; a height of zero stands for that of the chain. -/
def isFinal (tx : CTransaction) (nBlockHeight : Int) : Bool :=
  isFinalTx tx (if nBlockHeight = 0 then node.height else nBlockHeight) node.nAdjustedTime

/-- `CheckFinalTx`. -/
def checkFinal (tx : CTransaction) : Bool := node.isFinal tx (node.height + 1)

end NodeView

namespace CWalletTx

variable (w : CWalletTx)

/-- `GetDepthInMainChainINTERNAL`. -/
def depthInternal : Nat :=
  if w.hashBlock = 0 ∨ w.nIndex = -1 then 0
  else
    match node.chainActive.zipIdx.find? fun x => x.1.hash == w.hashBlock with
    | none => 0
    | some (block, nHeight) =>
      if w.fMerkleVerified ||
          checkMerkleBranch R.hash2 w.tx.hash w.vMerkleBranch w.nIndex == block.hashMerkleRoot then
        node.chainActive.length - nHeight
      else 0

/-- `mempool.exists(GetHash())`. -/
def inMempool : Bool := node.mempool.contains w.tx.hash

/-- `GetDepthInMainChain`. -/
def depth (enableIX : Bool) : Int :=
  let nResult := w.depthInternal R node
  if nResult = 0 ∧ !w.inMempool node then -1
  else if enableIX ∧ nResult < 6 ∧ 6 ≤ node.nLockSignatures w.tx.hash then
    R.nSwiftTXDepth + nResult
  else nResult

/-- `IsInMainChain`. -/
def isInMainChain : Bool := decide (0 < w.depthInternal R node)

/-- `GetBlocksToMaturity`. -/
def blocksToMaturity : Int :=
  if w.tx.isCoinBase || w.tx.isCoinStake then max 0 (R.params.nMaturity + 1 - w.depth R node true)
  else 0

end CWalletTx

/-! ## Credit and debit -/

/-- Amounts added up, each sum being checked. -/
def addUp (P : CChainParams) (xs : List (Option Int)) : Option Int :=
  xs.foldlM (fun n x => x.bind fun x => if P.moneyRange (n + x) then some (n + x) else none) 0

namespace CWallet

/-- `IsMine(txout)`. -/
def isMine (txout : CTxOut) : Nat := R.isMine pw.keys txout.scriptPubKey

/-- `GetCredit(txout, filter)`. -/
def outCredit (filter : Nat) (txout : CTxOut) : Option Int :=
  if R.params.moneyRange txout.nValue then
    some (if pw.isMine R txout &&& filter ≠ 0 then txout.nValue else 0)
  else none

/-- `GetCredit(tx, filter)`. -/
def txCredit (filter : Nat) (tx : CTransaction) : Option Int :=
  addUp R.params (tx.vout.map (pw.outCredit R filter))

/-- The output an input spends, if the wallet has it. -/
def prevOut (txin : CTxIn) : Option CTxOut :=
  (pw.mapWallet.lookup txin.prevout.hash).bind fun prev => prev.tx.vout[txin.prevout.n]?

/-- `GetDebit(txin, filter)`. -/
def inDebit (filter : Nat) (txin : CTxIn) : Int :=
  match pw.prevOut txin with
  | some txout => if pw.isMine R txout &&& filter ≠ 0 then txout.nValue else 0
  | none => 0

/-- `GetDebit(tx, filter)`. -/
def txDebit (filter : Nat) (tx : CTransaction) : Option Int :=
  addUp R.params (tx.vin.map fun txin => some (pw.inDebit R filter txin))

/-- `IsSpent`: some transaction that is not conflicted spends the output. -/
def isSpent (outpoint : COutPoint) : Bool := pw.mapTxSpends.any fun x =>
    x.1 == outpoint &&
      match pw.mapWallet.lookup x.2 with
      | some w => decide (0 ≤ w.depth R node true)
      | none => false

/-- The credit of the outputs that are not spent. -/
def unspentCredit (filter : Nat) (tx : CTransaction) : Option Int :=
  addUp R.params ((tx.vout.zipIdx.filter fun x => !pw.isSpent R node ⟨tx.hash, x.2⟩).map fun x =>
    pw.outCredit R filter x.1)

end CWallet

/-- A sum that is remembered is not formed again. -/
def remembered (cached : Option Int) (sum : Option Int) : Option Int :=
  match cached with
  | some n => some n
  | none => sum

namespace CWalletTx

variable (w : CWalletTx)

/-- A credit or a debit, by the parts the filter asks for. -/
def byFilter (filter : Nat) (spendable watchOnly : Option Int) : Option Int := do
  let x ← if filter &&& ISMINE_SPENDABLE ≠ 0 then spendable else some 0
  let y ← if filter &&& ISMINE_WATCH_ONLY ≠ 0 then watchOnly else some 0
  return x + y

/-- `GetDebit`. -/
def getDebit (filter : Nat) : Option Int :=
  if w.tx.vin.isEmpty then some 0
  else
    byFilter filter (remembered w.nDebitCached (pw.txDebit R ISMINE_SPENDABLE w.tx))
      (remembered w.nWatchDebitCached (pw.txDebit R ISMINE_WATCH_ONLY w.tx))

/-- `GetCredit`. -/
def getCredit (filter : Nat) : Option Int :=
  -- must wait until coinbase is safely deep enough in the chain before valuing it
  if w.tx.isCoinBase && decide (0 < w.blocksToMaturity R node) then some 0
  else
    byFilter filter (remembered w.nCreditCached (pw.txCredit R ISMINE_SPENDABLE w.tx))
      (remembered w.nWatchCreditCached (pw.txCredit R ISMINE_WATCH_ONLY w.tx))

/-- `GetImmatureCredit`. -/
def getImmatureCredit (fUseCache : Bool) : Option Int :=
  if (w.tx.isCoinBase || w.tx.isCoinStake) && decide (0 < w.blocksToMaturity R node) &&
      w.isInMainChain R node then
    remembered (if fUseCache then w.nImmatureCreditCached else none)
      (pw.txCredit R ISMINE_SPENDABLE w.tx)
  else some 0

/-- `GetAvailableCredit`. -/
def getAvailableCredit (fUseCache : Bool) : Option Int :=
  -- must wait until coinbase is safely deep enough in the chain before valuing it
  if w.tx.isCoinBase && decide (0 < w.blocksToMaturity R node) then some 0
  else
    remembered (if fUseCache then w.nAvailableCreditCached else none)
      (pw.unspentCredit R node ISMINE_SPENDABLE w.tx)

/-- `IsFromMe`. -/
def isFromMe (filter : Nat) : Option Bool := (w.getDebit R pw filter).map fun n => decide (0 < n)

/-- `IsTrusted`. -/
def isTrusted : Option Bool :=
  if !node.isFinal w.tx 0 then some false
  else if 1 ≤ w.depth R node true then some true
  else if w.depth R node true < 0 then some false
  else if !R.bSpendZeroConfChange then some false
  else
    -- trusted if all inputs are from us
    (w.isFromMe R pw ISMINE_ALL).map fun fFromMe =>
      fFromMe && w.tx.vin.all fun txin =>
        match pw.prevOut txin with
        | some parentOut => pw.isMine R parentOut == ISMINE_SPENDABLE
        | none => false

end CWalletTx

/-! ## Balances and coins -/

namespace CWallet

/-- The sum of a getter over the transactions that pass a test. -/
def balance (test : CWalletTx → Option Bool) (get : CWalletTx → Option Int) : Option Int :=
  pw.mapWallet.entries.foldlM (fun nTotal x => do
    if ← test x.2 then return nTotal + (← get x.2) else return nTotal) 0

/-- `GetBalance`. -/
def getBalance : Option Int :=
  pw.balance (fun w => w.isTrusted R node pw) fun w => w.getAvailableCredit R node pw true

/-- What `GetUnconfirmedBalance` counts. -/
def isUnconfirmed (w : CWalletTx) : Option Bool :=
  if !node.isFinal w.tx 0 then some true
  else (w.isTrusted R node pw).map fun fTrusted => !fTrusted && w.depth R node true == 0

/-- `GetUnconfirmedBalance`. -/
def getUnconfirmedBalance : Option Int :=
  pw.balance (pw.isUnconfirmed R node) fun w => w.getAvailableCredit R node pw true

/-- `GetImmatureBalance`. -/
def getImmatureBalance : Option Int :=
  pw.balance (fun _ => some true) fun w => w.getImmatureCredit R node pw true

/-- `IsCollateralAmount`. -/
def isCollateralAmount (nInputAmount : Int) : Bool :=
  nInputAmount != 0 && nInputAmount % (10 * COIN) == 0 && decide (nInputAmount < 10 * COIN * 5) &&
    decide (nInputAmount > 10 * COIN)

/-- Whether coins of this amount are asked for. -/
def found (nCoinType : AvailableCoinsType) (nValue : Int) : Bool :=
  match nCoinType with
  | .allCoins => true
  | .onlyDenominated => obfuScationDenominations.contains nValue
  | .onlyNot10000IfMn =>
    !(R.fMasterNode && nValue == R.nMasternodeCollateralLimit * COIN)
  | .onlyNondenominatedNot10000IfMn =>
    !isCollateralAmount nValue && !obfuScationDenominations.contains nValue &&
      !(R.fMasterNode && nValue == R.nMasternodeCollateralLimit * COIN)
  | .only10000 => nValue == R.nMasternodeCollateralLimit * COIN

/-- The coin that an output is, if `AvailableCoins` offers it. -/
def coin (coinControl : Option CCoinControl) (fIncludeZeroValue : Bool)
    (nCoinType : AvailableCoinsType) (w : CWalletTx) (nDepth : Int) (txout : CTxOut) (i : Nat) :
    Option COutput :=
  let mine := pw.isMine R txout
  if found R nCoinType txout.nValue && !pw.isSpent R node ⟨w.tx.hash, i⟩ && mine != ISMINE_NO &&
      (!pw.setLockedCoins.contains ⟨w.tx.hash, i⟩ || nCoinType == .only10000) &&
      (decide (0 < txout.nValue) || fIncludeZeroValue) &&
      (match coinControl with
      | none => true
      | some cc => cc.setSelected.isEmpty || cc.fAllowOtherInputs ||
          cc.setSelected.contains ⟨w.tx.hash, i⟩) then
    some ⟨w, i, nDepth, mine &&& ISMINE_SPENDABLE != 0 ||
      (match coinControl with
      | none => false
      | some cc => cc.fAllowWatchOnly && mine &&& 2 != 0)⟩
  else none

/-- The outputs of one transaction that `AvailableCoins` offers. -/
def txCoins (coinControl : Option CCoinControl) (fIncludeZeroValue : Bool)
    (nCoinType : AvailableCoinsType) (w : CWalletTx) (nDepth : Int) : List COutput :=
  w.tx.vout.zipIdx.filterMap fun x =>
    pw.coin R node coinControl fIncludeZeroValue nCoinType w nDepth x.1 x.2

/-- `AvailableCoins`. -/
def availableCoins (fOnlyConfirmed : Bool) (coinControl : Option CCoinControl)
    (fIncludeZeroValue : Bool) (nCoinType : AvailableCoinsType) (fUseIX : Bool) :
    Option (List COutput) :=
  pw.mapWallet.entries.foldlM (fun vCoins x => do
    let w := x.2
    if !node.checkFinal w.tx then return vCoins
    if fOnlyConfirmed then
      if !(← w.isTrusted R node pw) then return vCoins
    if (w.tx.isCoinBase || w.tx.isCoinStake) && decide (0 < w.blocksToMaturity R node) then
      return vCoins
    let nDepth := w.depth R node false
    -- do not use IX for inputs that have less then 6 blockchain confirmations
    if fUseIX && decide (nDepth < 6) then return vCoins
    -- it is possible for coins not in our mempool to be conflicted via their ancestors
    if nDepth == 0 && !w.inMempool node then return vCoins
    return vCoins ++ pw.txCoins R node coinControl fIncludeZeroValue nCoinType w nDepth) []

end CWallet

end BitBlocks
