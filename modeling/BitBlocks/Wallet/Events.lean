import BitBlocks.Wallet.Balances

/-!
# What happens to the wallet

The getters remember the sums they form. `MarkDirty` forgets those of a transaction, but for
its immature credit. The node tells the wallet about transactions with `SyncTransaction`:
those that enter the memory pool, those of a block that is connected or disconnected, and
those that conflict with a connected block.

An event runs under the locks of the node and the wallet, so that nothing is read within one.
An exception that a sum throws aborts it. Writing to disk is taken to succeed, and what a
remembered merkle branch comes to is written down in an event of its own.
-/

namespace BitBlocks

/-- A block, as the wallet is told of it. -/
structure WalletBlock where
  hash : Uint256
  hashMerkleRoot : Uint256
  vtx : List CTransaction
  /-- `GetMerkleBranch`. -/
  getMerkleBranch : Nat → List Uint256 := fun _ => []

variable {K : Type} (R : WalletRules K) (node : NodeView) (pw : CWallet K)

/-! ## One transaction -/

namespace CWalletTx

/-- `MarkDirty`: the immature credit stays. -/
def markDirty (w : CWalletTx) : CWalletTx :=
  { w with
    nCreditCached := none
    nAvailableCreditCached := none
    nWatchDebitCached := none
    nWatchCreditCached := none
    nDebitCached := none }

/-- `SetMerkleBranch`. -/
def setMerkleBranch (w : CWalletTx) (block : WalletBlock) : CWalletTx :=
  match block.vtx.findIdx? fun tx => tx.hash == w.tx.hash with
  | some nIndex =>
    { w with
      hashBlock := block.hash
      nIndex := nIndex
      vMerkleBranch := block.getMerkleBranch nIndex }
  | none => { w with hashBlock := block.hash, nIndex := -1, vMerkleBranch := [] }

/-- The merge of `AddToWallet` with what is in the wallet. -/
def merge (w wtxIn : CWalletTx) : CWalletTx :=
  let w := if wtxIn.hashBlock ≠ 0 ∧ wtxIn.hashBlock ≠ w.hashBlock then
    { w with hashBlock := wtxIn.hashBlock } else w
  if wtxIn.nIndex ≠ -1 ∧ (wtxIn.vMerkleBranch ≠ w.vMerkleBranch ∨ wtxIn.nIndex ≠ w.nIndex) then
    { w with vMerkleBranch := wtxIn.vMerkleBranch, nIndex := wtxIn.nIndex }
  else w

/-- A sum that is asked for is remembered, if it can be formed. -/
def remember (asked : Bool) (cached sum : Option Int) : Option Int :=
  if asked then remembered cached sum else cached

/-- What `GetDebit` leaves behind. -/
def afterDebit (w : CWalletTx) (filter : Nat) : CWalletTx :=
  let spendable := filter &&& ISMINE_SPENDABLE != 0
  let nDebit := remember spendable w.nDebitCached (pw.txDebit R ISMINE_SPENDABLE w.tx)
  if w.tx.vin.isEmpty then w
  else
    { w with
      nDebitCached := nDebit
      nWatchDebitCached :=
        remember (filter &&& ISMINE_WATCH_ONLY != 0 && (!spendable || nDebit.isSome))
          w.nWatchDebitCached (pw.txDebit R ISMINE_WATCH_ONLY w.tx) }

/-- What `GetCredit` leaves behind. -/
def afterCredit (w : CWalletTx) (filter : Nat) : CWalletTx :=
  let spendable := filter &&& ISMINE_SPENDABLE != 0
  let nCredit := remember spendable w.nCreditCached (pw.txCredit R ISMINE_SPENDABLE w.tx)
  if w.tx.isCoinBase && decide (0 < w.blocksToMaturity R node) then w
  else
    { w with
      nCreditCached := nCredit
      nWatchCreditCached :=
        remember (filter &&& ISMINE_WATCH_ONLY != 0 && (!spendable || nCredit.isSome))
          w.nWatchCreditCached (pw.txCredit R ISMINE_WATCH_ONLY w.tx) }

/-- A getter with one sum: an exception leaves what was remembered. -/
def renew (fUseCache : Bool) (cached sum : Option Int) : Option Int :=
  match remembered (if fUseCache then cached else none) sum with
  | some n => some n
  | none => cached

/-- What `GetImmatureCredit` leaves behind. -/
def afterImmatureCredit (w : CWalletTx) (fUseCache : Bool) : CWalletTx :=
  if (w.tx.isCoinBase || w.tx.isCoinStake) && decide (0 < w.blocksToMaturity R node) &&
      w.isInMainChain R node then
    { w with
      nImmatureCreditCached :=
        renew fUseCache w.nImmatureCreditCached (pw.txCredit R ISMINE_SPENDABLE w.tx) }
  else w

/-- What `GetAvailableCredit` leaves behind. -/
def afterAvailableCredit (w : CWalletTx) (fUseCache : Bool) : CWalletTx :=
  if w.tx.isCoinBase && decide (0 < w.blocksToMaturity R node) then w
  else
    { w with
      nAvailableCreditCached :=
        renew fUseCache w.nAvailableCreditCached (pw.unspentCredit R node ISMINE_SPENDABLE w.tx) }

/-- `fMerkleVerified`, once the merkle branch was found to connect to the block. -/
def verified (w : CWalletTx) : CWalletTx :=
  if 0 < w.depthInternal R node then { w with fMerkleVerified := true } else w

end CWalletTx

/-! ## The wallet -/

namespace CWallet

/-- A transaction of the wallet changes, if it is there. -/
def modify (hash : Uint256) (f : CWalletTx → CWalletTx) : CWallet K :=
  match pw.mapWallet.lookup hash with
  | some w => { pw with mapWallet := pw.mapWallet.insert hash (f w) }
  | none => pw

/-- `MarkDirty`. -/
def markDirty : CWallet K :=
  (pw.mapWallet.entries.map Sigma.fst).foldl (fun pw hash => pw.modify hash CWalletTx.markDirty) pw

/-- `MarkDirty` of the transactions whose outputs are spent. -/
def markParents (tx : CTransaction) : CWallet K :=
  tx.vin.foldl (fun pw txin => pw.modify txin.prevout.hash CWalletTx.markDirty) pw

/-- A transaction is written down, with what it spends; a coinbase spends nothing. -/
def store (w : CWalletTx) : CWallet K :=
  { pw with
    mapWallet := pw.mapWallet.insert w.tx.hash w
    mapTxSpends := pw.mapTxSpends ++
      if w.tx.isCoinBase then [] else w.tx.prevouts.map fun o => (o, w.tx.hash) }

/-- `AddToWallet`. -/
def addToWallet (wtxIn : CWalletTx) (fFromLoadWallet : Bool) : CWallet K :=
  if fFromLoadWallet then pw.store wtxIn.markDirty
  else
    match pw.mapWallet.lookup wtxIn.tx.hash with
    | none => pw.store wtxIn.markDirty
    | some _ => pw.modify wtxIn.tx.hash fun w => (w.markDirty.merge wtxIn).markDirty

/-- Whether a transaction is in the wallet already, pays to it or is paid from it. -/
def involvesMe (tx : CTransaction) : Option Bool :=
  if (pw.mapWallet.lookup tx.hash).isSome ∨ tx.vout.any fun txout => pw.isMine R txout != ISMINE_NO
  then some true
  else (pw.txDebit R ISMINE_ALL tx).map fun nDebit => decide (0 < nDebit)

/-- The transaction that `AddToWalletIfInvolvingMe` makes. -/
def newTx (tx : CTransaction) : Option WalletBlock → CWalletTx
  | some block => CWalletTx.setMerkleBranch { tx := tx } block
  | none => { tx := tx }

/-- `SyncTransaction`. -/
def syncTransaction (tx : CTransaction) (pblock : Option WalletBlock) : Option (CWallet K) :=
  (pw.involvesMe R tx).map fun fInvolved =>
    if fInvolved then (pw.addToWallet (newTx tx pblock) false).markParents tx else pw

/-- `SyncWithWallets`, for one transaction after the other. -/
def syncAll (txs : List CTransaction) (pblock : Option WalletBlock) : Option (CWallet K) :=
  txs.foldlM (fun pw tx => pw.syncTransaction R tx pblock) pw

end CWallet

/-! ## Events -/

structure WalletRun (K : Type) where
  node : NodeView
  pw : CWallet K

/-- What becomes of a transaction of a disconnected block. -/
inductive Resurrected where
  /-- It is back in the memory pool. -/
  | accepted
  /-- It is not, and `remove` took these out of the pool. -/
  | removed (hashes : List Uint256)

inductive WalletEvent (K : Type) where
  | getDebit (hash : Uint256) (filter : Nat)
  | getCredit (hash : Uint256) (filter : Nat)
  | getImmatureCredit (hash : Uint256) (fUseCache : Bool)
  | getAvailableCredit (hash : Uint256) (fUseCache : Bool)
  | verify (hash : Uint256)
  | addToWallet (wtxIn : CWalletTx) (fFromLoadWallet : Bool)
  /-- `AcceptToMemoryPool` succeeds. -/
  | acceptToMemoryPool (tx : CTransaction)
  /-- `ConnectTip`, with what `removeForBlock` found in conflict with the block. -/
  | connectTip (block : WalletBlock) (txConflicted : List CTransaction)
  /-- `DisconnectTip`, with what `removeCoinbaseSpends` took out of the pool. -/
  | disconnectTip (vtx : List (CTransaction × Resurrected)) (spends : List Uint256)
  /-- `CommitTransaction`, accepted into the memory pool or not. -/
  | commitTransaction (wtxNew : CWalletTx) (fAccepted : Bool)
  /-- Keys or scripts to watch are imported, and `MarkDirty` is called. -/
  | importKeys (keys : K)

namespace NodeView

/-- Transactions leave the memory pool. -/
def leave (hashes : List Uint256) : NodeView :=
  { node with mempool := node.mempool.filter fun hash => !hashes.contains hash }

/-- A transaction enters the memory pool. -/
def enter (hash : Uint256) : NodeView := { node with mempool := hash :: node.mempool }

end NodeView

namespace WalletRun

variable (s : WalletRun K)

/-- A getter is called on a transaction of the wallet. -/
def get (hash : Uint256) (f : CWalletTx → CWalletTx) : WalletRun K :=
  { s with pw := s.pw.modify hash f }

/-- `AcceptToMemoryPool`, for a transaction that passes. -/
def accept (tx : CTransaction) : Option (WalletRun K) :=
  (s.pw.syncTransaction R tx none).map fun pw => ⟨s.node.enter tx.hash, pw⟩

/-- The loop of `DisconnectTip` over the transactions of the block. -/
def resurrect : List (CTransaction × Resurrected) → WalletRun K → Option (WalletRun K)
  | [], s => some s
  | (tx, .accepted) :: vtx, s => (s.accept R tx).bind (resurrect vtx)
  | (_, .removed hashes) :: vtx, s => resurrect vtx { s with node := s.node.leave hashes }

/-- One event; `none` is one that an exception aborts. -/
def next : WalletEvent K → Option (WalletRun K)
  | .getDebit hash filter => some (s.get hash fun w => w.afterDebit R s.pw filter)
  | .getCredit hash filter => some (s.get hash fun w => w.afterCredit R s.node s.pw filter)
  | .getImmatureCredit hash fUseCache =>
    some (s.get hash fun w => w.afterImmatureCredit R s.node s.pw fUseCache)
  | .getAvailableCredit hash fUseCache =>
    some (s.get hash fun w => w.afterAvailableCredit R s.node s.pw fUseCache)
  | .verify hash => some (s.get hash fun w => w.verified R s.node)
  | .addToWallet wtxIn fFromLoadWallet =>
    some { s with pw := s.pw.addToWallet wtxIn fFromLoadWallet }
  | .acceptToMemoryPool tx => s.accept R tx
  | .connectTip block txConflicted => do
    let pw ← s.pw.syncAll R txConflicted none
    let pw ← pw.syncAll R block.vtx (some block)
    let node := s.node.leave ((block.vtx ++ txConflicted).map CTransaction.hash)
    return ⟨{ node with chainActive := node.chainActive ++ [⟨block.hash, block.hashMerkleRoot⟩] },
      pw⟩
  | .disconnectTip vtx spends => do
    let s ← resurrect R vtx s
    let pw ← s.pw.syncAll R (vtx.map Prod.fst) none
    let node := s.node.leave spends
    return ⟨{ node with chainActive := node.chainActive.dropLast }, pw⟩
  | .commitTransaction wtxNew fAccepted =>
    -- the inputs are coins of the wallet, so that each is found there
    let s' := { s with pw := (s.pw.addToWallet wtxNew false).markParents wtxNew.tx }
    if fAccepted then s'.accept R wtxNew.tx else some s'
  | .importKeys keys => some { s with pw := { s.pw with keys := keys }.markDirty }

end WalletRun

end BitBlocks
