import BitBlocks.Chain.DiskIndex
import BitBlocks.Lib.Reader
import BitBlocks.Validation.Inflation

/-!
# Connecting a block without connecting it

`ConnectBlock` with `fJustCheck`, and what it writes: the block index database, the undo
files and the transaction index. `TestBlockValidity` calls it for a block template, with an
index entry of its own that has no hash. The record of the entry is written ahead of the
last checks, and ahead of the return for `fJustCheck`. Where there are threads for the
scripts, what they find is only asked for after it.

The message that is logged, the signals, the times that are added up and the space set
aside in a file are left out.
-/

namespace BitBlocks

open Checks Wrap

/-- A file, a position, and the offset of a transaction after the header. -/
structure CDiskTxPos where
  nFile : Int
  nPos : Nat
  nTxOffset : Nat
deriving DecidableEq, Repr

/-- What `ConnectBlock` writes to that outlasts it, on disk or on its way there. -/
structure BlockStore where
  /-- The `b` records of `pblocktree`. -/
  blockIndex : Uint256 → Option CDiskBlockIndex
  /-- The `t` records of `pblocktree`. -/
  txIndex : Uint256 → Option CDiskTxPos
  /-- `rev?????.dat`: undo data by file and position, with the hash in its checksum. -/
  undoFiles : Nat → Nat → Option (List (List CTxInUndo) × Uint256)
  /-- `vinfoBlockFile[nFile].nUndoSize`. -/
  nUndoSize : Nat → Nat
  setDirtyFileInfo : List Nat := []
  /-- The entries of `setDirtyBlockIndex`, by their hashes. -/
  setDirtyBlockIndex : List Uint256 := []

structure WritesThrough where
  writeBlockIndex : Bool := true
  findUndoPos : Bool := true
  writeUndo : Bool := true
  writeTxIndex : Bool := true

/-- What else decides where things are written. -/
structure StoreRules where
  fTxIndex : Bool
  /-- `GetSerializeSize(blockundo)`. -/
  undoSize : List (List CTxInUndo) → Nat

namespace BlockStore

/-- `WriteBlockIndex`: the key is the hash of the header in the record. -/
def writeBlockIndex (R : Rules) (disk : BlockStore) (diskindex : CDiskBlockIndex) : BlockStore :=
  { disk with
    blockIndex := Function.update disk.blockIndex (R.getHash diskindex.header) (some diskindex) }

/-- `FindUndoPos`, when there is room. -/
def findUndoPos (disk : BlockStore) (nFile nAddSize : Nat) : BlockStore × Nat :=
  ({ disk with
      nUndoSize := Function.update disk.nUndoSize nFile ((disk.nUndoSize nFile + nAddSize) % 2 ^ 32)
      setDirtyFileInfo := nFile :: disk.setDirtyFileInfo },
    disk.nUndoSize nFile)

/-- `CBlockUndo::WriteToDisk`: the data stands behind eight bytes. -/
def writeUndo (disk : BlockStore) (nFile nPos : Nat) (vtxundo : List (List CTxInUndo))
    (hashBlock : Uint256) : BlockStore :=
  { disk with
    undoFiles := Function.update disk.undoFiles nFile
      (Function.update (disk.undoFiles nFile) (nPos + 8) (some (vtxundo, hashBlock))) }

/-- `WriteTxIndex`. -/
def writeTxIndex (disk : BlockStore) (vPos : List (Uint256 × CDiskTxPos)) : BlockStore :=
  { disk with
    txIndex := vPos.foldl (fun txIndex x => Function.update txIndex x.1 (some x.2)) disk.txIndex }

end BlockStore

/-- Where the transactions of a block stand, behind an offset. -/
def txPositions (R : Rules) (pos : CDiskTxPos) : List CTransaction → List (Uint256 × CDiskTxPos)
  | [] => []
  | tx :: vtx =>
    (tx.hash, pos) ::
      txPositions R { pos with nTxOffset := (pos.nTxOffset + R.txSize tx) % 2 ^ 32 } vtx

/-! ## The scripts -/

structure CScriptCheck where
  scriptPubKey : CScript
  ptxTo : CTransaction
  nIn : Nat
  nFlags : ScriptFlags

/-- `operator()`. The input is there. -/
def CScriptCheck.run (R : Rules) (check : CScriptCheck) : Bool :=
  (check.ptxTo.vin[check.nIn]?).all fun txin =>
    R.verifyScript txin.scriptSig check.scriptPubKey check.nFlags check.ptxTo check.nIn

/-- `vChecks` of a round, if `CheckInputs` is given it to fill. -/
def vChecks (c : LoopContext) (st : LoopState) (tx : CTransaction) : List CScriptCheck :=
  if tx.isCoinBase || !c.fScriptChecks then []
  else tx.vin.zipIdx.map fun (txin, nIn) =>
    ⟨(st.view.getOutputFor txin).scriptPubKey, tx, nIn, c.flags⟩

/-- What the loop has put into the queue at its end. -/
def queuedChecks (R : Rules) (P : CChainParams) (nScriptCheckThreads : Nat) (c : LoopContext) :
    LoopState → List CTransaction → List CScriptCheck
  | _, [] => []
  | st, tx :: vtx =>
    match connectTx R P (c.inLoop nScriptCheckThreads) st tx with
    | .error _ => []
    | .ok st' => vChecks c st tx ++ queuedChecks R P nScriptCheckThreads c st' vtx

/-- `control.Wait()`: without a queue it is true, and with one iff all its checks passed. -/
def controlWait (R : Rules) (P : CChainParams) (nScriptCheckThreads : Nat) (c : LoopContext)
    (st : LoopState) (vtx : List CTransaction) : Bool :=
  decide (nScriptCheckThreads = 0) ||
    (queuedChecks R P nScriptCheckThreads c st vtx).all (CScriptCheck.run R)

section queue

variable {R : Rules} {P : CChainParams} {c : LoopContext}

theorem checkScript_eq_ok {view : CCoinsView} {flags : ScriptFlags} {tx : CTransaction}
    {txin : CTxIn} {nIn : Nat} : checkScript R view flags tx txin nIn = .ok () ↔
      R.verifyScript txin.scriptSig (view.getOutputFor txin).scriptPubKey flags tx nIn = true := by
  unfold checkScript
  dsimp only
  cases R.verifyScript txin.scriptSig (view.getOutputFor txin).scriptPubKey flags tx nIn with
  | true => simp
  | false =>
    rw [if_neg Bool.false_ne_true]
    split <;> simp

theorem vChecks_all {st : LoopState} {tx : CTransaction} (hcb : tx.isCoinBase = false)
    (hc : c.fScriptChecks = true) : (vChecks c st tx).all (CScriptCheck.run R) = true ↔
      all tx.vin.zipIdx (fun (txin, nIn) => checkScript R st.view c.flags tx txin nIn) =
      .ok () := by
  unfold vChecks
  rw [hcb, hc, List.all_eq_true, all_eq_ok]
  simp only [Bool.not_true, Bool.or_self, Bool.false_eq_true, if_false, List.forall_mem_map]
  refine forall₂_congr fun x hx => ?_
  have hin : tx.vin[x.2]? = some x.1 :=
    List.getElem?_eq_some_iff.mpr ⟨_, (List.mem_zipIdx' hx).2.symm⟩
  rw [CScriptCheck.run, hin]
  exact checkScript_eq_ok.symm

theorem checkInputs_iff_queued (st : LoopState) (tx : CTransaction) {n : Nat} (hn : n ≠ 0) :
    checkInputs R P tx st.view c.nSpendHeight c.fScriptChecks c.flags = .ok () ↔
      checkInputs R P tx st.view c.nSpendHeight (c.inLoop n).fScriptChecks c.flags = .ok () ∧
        (vChecks c st tx).all (CScriptCheck.run R) = true := by
  have hnone : (c.inLoop n).fScriptChecks = false := by
    simp [LoopContext.inLoop, hn]
  rw [hnone]
  unfold checkInputs
  cases hcb : tx.isCoinBase with
  | true => simp [vChecks, hcb]
  | false =>
    cases hc : c.fScriptChecks with
    | false => simp [vChecks, hc]
    | true =>
      rw [vChecks_all hcb hc]
      simp only [Bool.false_eq_true, if_false, if_true, bind_eq_ok, exists_unit]
      constructor
      · rintro ⟨hhave, nValueIn, hvalue, hfee, hscripts⟩
        exact ⟨⟨hhave, nValueIn, hvalue, hfee, trivial⟩, hscripts⟩
      · rintro ⟨⟨hhave, nValueIn, hvalue, hfee, -⟩, hscripts⟩
        exact ⟨hhave, nValueIn, hvalue, hfee, hscripts⟩

theorem connectTx_iff_queued {st st' : LoopState} {tx : CTransaction} {n : Nat} (hn : n ≠ 0) :
    connectTx R P c st tx = .ok st' ↔ connectTx R P (c.inLoop n) st tx = .ok st' ∧
      (vChecks c st tx).all (CScriptCheck.run R) = true := by
  have hinputs : ∀ nSigOps x, connectInputs R P c st tx nSigOps = .ok x ↔
      connectInputs R P (c.inLoop n) st tx nSigOps = .ok x ∧
        (vChecks c st tx).all (CScriptCheck.run R) = true := by
    intro nSigOps x
    unfold connectInputs
    cases hcb : tx.isCoinBase with
    | true => simp [vChecks, hcb]
    | false =>
      simp only [Bool.false_eq_true, if_false, bind_eq_ok, exists_unit,
        checkInputs_iff_queued (R := R) (P := P) (c := c) st tx hn]
      constructor
      · rintro ⟨hhave, hsigops, nFees, hfees, ⟨hin, hscripts⟩, hx⟩
        exact ⟨⟨hhave, hsigops, nFees, hfees, hin, hx⟩, hscripts⟩
      · rintro ⟨⟨hhave, hsigops, nFees, hfees, hin, hx⟩, hscripts⟩
        exact ⟨hhave, hsigops, nFees, hfees, ⟨hin, hscripts⟩, hx⟩
  unfold connectTx
  simp only [bind_eq_ok, exists_unit, hinputs]
  constructor
  · rintro ⟨hsigops, x, ⟨hin, hscripts⟩, hrest⟩
    exact ⟨⟨hsigops, x, hin, hrest⟩, hscripts⟩
  · rintro ⟨⟨hsigops, x, hin, hrest⟩, hscripts⟩
    exact ⟨hsigops, x, ⟨hin, hscripts⟩, hrest⟩

/-- **The loop with a queue** comes to the verdict of the one that runs the scripts itself. -/
theorem connectAll_iff_queued (n : Nat) {st st' : LoopState} {vtx : List CTransaction} :
    connectAll R P c st vtx = .ok st' ↔
      connectAll R P (c.inLoop n) st vtx = .ok st' ∧ controlWait R P n c st vtx = true := by
  by_cases hn : n = 0
  · have hsame : c.inLoop n = c := by simp [LoopContext.inLoop, hn]
    rw [hsame, controlWait, decide_eq_true hn, Bool.true_or, eq_self, and_true]
  simp only [controlWait, hn, decide_false, Bool.false_or]
  induction vtx generalizing st with
  | nil => simp [connectAll, queuedChecks]
  | cons tx vtx ih =>
    simp only [connectAll, bind_eq_ok]
    constructor
    · rintro ⟨st1, hround, hrest⟩
      obtain ⟨hstep, hscripts⟩ := (connectTx_iff_queued hn).mp hround
      obtain ⟨hloop, hqueued⟩ := ih.mp hrest
      rw [queuedChecks, hstep]
      dsimp only
      rw [List.all_append, hscripts, hqueued]
      exact ⟨⟨st1, rfl, hloop⟩, rfl⟩
    · rintro ⟨⟨st1, hstep, hloop⟩, hqueued⟩
      rw [queuedChecks, hstep] at hqueued
      dsimp only at hqueued
      rw [List.all_append, Bool.and_eq_true] at hqueued
      exact ⟨st1, (connectTx_iff_queued hn).mpr ⟨hstep, hqueued.1⟩, ih.mpr ⟨hloop, hqueued.2⟩⟩

end queue

/-- How a call of `ConnectBlock` ends. -/
structure ConnectEnd where
  /-- The view and the hash of its best block, or the failure. -/
  result : Except Fail (CCoinsView × Option Uint256)
  pindex : IndexEntry
  disk : BlockStore

section connect

variable (R : Rules) (P : CChainParams) (nScriptCheckThreads : Nat) (W : WritesThrough)
  (S : StoreRules) (env : LocalState) (tip : TipView)

/--
`ConnectBlock` up to the end of its loop: the parent, what the loop carries, and what
`control.Wait()` will say; none for the genesis block. The entry of a template has no hash,
and no exemption from BIP30. Only the genesis block has no parent, whose pointer would be
followed later on.
-/
def connectChecks (phashBlock : Option Uint256) (pprev : List CBlockIndex) (block : CBlock)
    (view : CCoinsView) (hashBestBlock : Uint256) (fJustCheck : Bool) :
    Except Fail (Option (CBlockIndex × LoopState × Bool)) := do
  checkBlock R P env tip block (!fJustCheck)
  -- verify that the view's current state corresponds to the previous block
  failIf (decide ((pprev.head?.map CBlockIndex.phashBlock).getD 0 ≠ hashBestBlock)) .assertion
  if R.getHash block.toCBlockHeader = P.hashGenesisBlock then .ok none
  else match pprev with
    | [] => .error .assertion
    | prev :: _ => do
      let c := loopContext P prev pprev block
      failIf (decide (c.nHeight ≤ P.nLastPOWBlock) && block.isProofOfStake) (.dos 100 "PoS-early")
      failIf (decide (c.nHeight > P.nLastPOWBlock) && block.isProofOfWork) (.dos 100 "PoW-ended")
      if phashBlock.elim true (enforceBIP30 c.nHeight) then
        all block.vtx fun tx => failIf (!(view.get tx.hash).isPruned) (.dos 100 "bad-txns-BIP30")
      else .ok ()
      let start : LoopState := ⟨view, [], 0, 0, 0, 0⟩
      let st ← connectAll R P (c.inLoop nScriptCheckThreads) start block.vtx
      .ok (some (prev, st, controlWait R P nScriptCheckThreads c start block.vtx))

/-- The money supply and the mint of the entry, which are written to it first. -/
def mintedEntry (prev : CBlockIndex) (st : LoopState) (pindex : IndexEntry) : IndexEntry :=
  let nMoneySupply := wrap64 (wrap64 (prev.nMoneySupply + st.nValueOut) - st.nValueIn)
  { pindex with
    data := { pindex.data with
      nMoneySupply := nMoneySupply
      nMint := wrap64 (nMoneySupply - prev.nMoneySupply) } }

/-- The undo data is written, unless the entry has some already. -/
def connectUndo (pindex : IndexEntry) (prev : CBlockIndex) (vtxundo : List (List CTxInUndo))
    (disk : BlockStore) : Except Fail Unit × IndexEntry × BlockStore :=
  let key := R.getHash (CDiskBlockIndex.ofEntry pindex).header
  let raise (e : IndexEntry) : IndexEntry :=
    { e with data := EntryData.raiseValidity e.status.failed BLOCK_VALID_SCRIPTS e.data }
  if pindex.data.fHaveUndo then
    if pindex.isValid BLOCK_VALID_SCRIPTS then (.ok (), pindex, disk)
    else (.ok (), raise pindex, { disk with setDirtyBlockIndex := key :: disk.setDirtyBlockIndex })
  else
    let (disk, nPos) := disk.findUndoPos pindex.data.nFile (S.undoSize vtxundo + 40)
    if !W.findUndoPos then (.error .error, pindex, disk)
    else if !W.writeUndo then (.error .error, pindex, disk)
    else
      let disk := disk.writeUndo pindex.data.nFile nPos vtxundo prev.phashBlock
      let pindex := { pindex with
        data := { pindex.data with nUndoPos := nPos + 8, fHaveUndo := true } }
      (.ok (), raise pindex, { disk with setDirtyBlockIndex := key :: disk.setDirtyBlockIndex })

/-- `ConnectBlock`, with what it writes; `pprev` are the entries below `pindex`. -/
def connectBlockDisk (phashBlock : Option Uint256) (pindex : IndexEntry) (pprev : List CBlockIndex)
    (block : CBlock) (view : CCoinsView) (hashBestBlock : Uint256) (fJustCheck : Bool)
    (disk : BlockStore) : ConnectEnd :=
  match connectChecks R P nScriptCheckThreads env tip phashBlock pprev block view hashBestBlock
    fJustCheck with
  | .error e => ⟨.error e, pindex, disk⟩
  | .ok none => ⟨.ok (view, phashBlock), pindex, disk⟩
  | .ok (some (prev, st, fWait)) =>
    let pindex := mintedEntry prev st pindex
    if !W.writeBlockIndex then ⟨.error .error, pindex, disk⟩
    else
      let disk := disk.writeBlockIndex R (CDiskBlockIndex.ofEntry pindex)
      -- PoW phase redistributed fees to miner. PoS stage destroys fees.
      let nExpectedMint :=
        if block.isProofOfWork then wrap64 (getBlockValue prev.nHeight + st.nFees)
        else getBlockValue prev.nHeight
      if !isBlockValueValid P env tip block nExpectedMint pindex.data.nMint then
        ⟨.error (.dos 100 "bad-cb-amount"), pindex, disk⟩
      else if !fWait then ⟨.error (.plain 100), pindex, disk⟩
      else if fJustCheck then ⟨.ok (st.view, none), pindex, disk⟩
      else
        let pos : CDiskTxPos :=
          if pindex.status.fHaveData then
            ⟨pindex.data.nFile, pindex.data.nDataPos, (CompactSize.write block.vtx.length).length⟩
          else ⟨-1, 0, (CompactSize.write block.vtx.length).length⟩
        match connectUndo R W S pindex prev st.vtxundo.tail disk with
        | (.error e, pindex, disk) => ⟨.error e, pindex, disk⟩
        | (.ok (), pindex, disk) =>
          if !S.fTxIndex then ⟨.ok (st.view, phashBlock), pindex, disk⟩
          else if !W.writeTxIndex then ⟨.error .error, pindex, disk⟩
          else ⟨.ok (st.view, phashBlock), pindex, disk.writeTxIndex (txPositions R pos block.vtx)⟩

/-- `indexDummy` of `TestBlockValidity`. -/
def indexDummy (block : CBlock) (pindexPrev : CBlockIndex) : IndexEntry where
  data := { EntryData.ofBlock 0 block with nHeight := pindexPrev.nHeight + 1 }
  pprev := some pindexPrev.phashBlock

/-- `TestBlockValidity` of a block on the tip, `pcoinsTip` being a view of the coins there. -/
def testBlockValidity (indexHeight : Uint256 → Option Int) (pindexPrev : CBlockIndex)
    (pprev : List CBlockIndex) (block : CBlock) (pcoinsTip : CCoinsView) (hashBestBlock : Uint256)
    (fCheckMerkleRoot : Bool) (disk : BlockStore) : Except Fail Unit × BlockStore :=
  let checks : Except Fail Unit := do
    if R.getHash block.toCBlockHeader = P.hashGenesisBlock then .ok ()
    else contextualCheckBlockHeader R P indexHeight (pindexPrev :: pprev) block.toCBlockHeader
    checkBlock R P env tip block fCheckMerkleRoot
    contextualCheckBlock P (pindexPrev :: pprev) block
  match checks with
  | .error e => (.error e, disk)
  | .ok () =>
    let r := connectBlockDisk R P nScriptCheckThreads W S env tip none
      (indexDummy block pindexPrev) (pindexPrev :: pprev) block pcoinsTip hashBestBlock true disk
    (r.result.map fun _ => (), r.disk)

end connect

/-! ## What a dry run leaves behind -/

section dry

variable {R : Rules} {P : CChainParams} {nScriptCheckThreads : Nat} {W : WritesThrough}
  {S : StoreRules} {env : LocalState} {tip : TipView} {phashBlock : Option Uint256}
  {pindex : IndexEntry} {pprev : List CBlockIndex}
  {block : CBlock} {view : CCoinsView} {hashBestBlock : Uint256} {disk : BlockStore}

theorem BlockStore.writeBlockIndex_eq_self (diskindex : CDiskBlockIndex) :
    disk.writeBlockIndex R diskindex = disk ↔
      disk.blockIndex (R.getHash diskindex.header) = some diskindex := by
  constructor
  · intro h
    rw [← h]
    exact Function.update_self _ _ _
  · intro h
    have hsame : Function.update disk.blockIndex (R.getHash diskindex.header) (some diskindex) =
        disk.blockIndex := by
      rw [← h]
      exact Function.update_eq_self _ _
    rw [writeBlockIndex, hsame]

/-- **All that a dry run writes** is the record of the entry, once its checks are passed. -/
theorem connectBlockDisk_dry :
    (connectBlockDisk R P nScriptCheckThreads W S env tip phashBlock pindex pprev block view
        hashBestBlock true disk).disk =
      match connectChecks R P nScriptCheckThreads env tip phashBlock pprev block view hashBestBlock
        true with
      | .ok (some (prev, st, _)) =>
        if W.writeBlockIndex then
          disk.writeBlockIndex R (CDiskBlockIndex.ofEntry (mintedEntry prev st pindex))
        else disk
      | _ => disk := by
  unfold connectBlockDisk
  cases connectChecks R P nScriptCheckThreads env tip phashBlock pprev block view hashBestBlock
    true with
  | error e => rfl
  | ok loop =>
    cases loop with
    | none => rfl
    | some x =>
      obtain ⟨prev, st, fWait⟩ := x
      dsimp only
      cases W.writeBlockIndex with
      | false => rfl
      | true =>
        simp only [Bool.not_true, Bool.false_eq_true, if_false, if_true]
        -- the amount is refused, or a script, or none is
        generalize isBlockValueValid P env tip block _ _ = fValueValid
        cases fValueValid with
        | false => rfl
        | true => cases fWait <;> rfl

/--
**When a dry run has no effect.** `ConnectBlock` with `fJustCheck` leaves the databases and
the undo files as they were iff it does not get as far as writing the entry's record (a check
of the block or of its transactions refuses it, it is the genesis block, or the write does
not go through), or that record is in the database already. A queued script refuses nothing
before that.
-/
theorem dryRun_unchanged_iff :
    (connectBlockDisk R P nScriptCheckThreads W S env tip phashBlock pindex pprev block view
        hashBestBlock true disk).disk = disk ↔
      ∀ prev st fWait,
        connectChecks R P nScriptCheckThreads env tip phashBlock pprev block view hashBestBlock true
          = .ok (some (prev, st, fWait)) →
        W.writeBlockIndex = true →
        disk.blockIndex (R.getHash (CDiskBlockIndex.ofEntry (mintedEntry prev st pindex)).header) =
          some (CDiskBlockIndex.ofEntry (mintedEntry prev st pindex)) := by
  rw [connectBlockDisk_dry]
  cases connectChecks R P nScriptCheckThreads env tip phashBlock pprev block view hashBestBlock
    true with
  | error e => simp
  | ok loop =>
    cases loop with
    | none => simp
    | some x =>
      obtain ⟨prev, st, fWait⟩ := x
      dsimp only
      constructor
      · intro h prev' st' fWait' hx hwrite
        obtain ⟨rfl, hrest⟩ := Prod.mk.inj (Option.some.inj (Except.ok.inj hx))
        obtain ⟨rfl, rfl⟩ := Prod.mk.inj hrest
        rw [if_pos hwrite] at h
        exact (BlockStore.writeBlockIndex_eq_self _).mp h
      · intro h
        split
        · rename_i hwrite
          exact (BlockStore.writeBlockIndex_eq_self _).mpr (h prev st fWait rfl hwrite)
        · rfl

/-- The store of a node that has nothing written. -/
def BlockStore.empty : BlockStore :=
  ⟨fun _ => none, fun _ => none, fun _ _ => none, fun _ => 0, [], []⟩

/-- A coin whose script is never met, and a transaction that spends it. -/
def lockedView : CCoinsView := fun hash =>
  if hash = 7 then
    some { fCoinBase := false, vout := [⟨COIN, [0x52], -10⟩], nHeight := 1, nVersion := 1 }
  else none

def unlockingBlock : CBlock :=
  { payingBlock (10 * COIN) with
    vtx := (payingBlock (10 * COIN)).vtx ++
      [{ hash := 8, vin := [⟨⟨7, 0⟩, [], 0⟩], vout := [⟨COIN, [0x51], -10⟩] }] }

/-- `CreateNewBlock` asks a node at the height 299, without checkpoints, for its opinion. -/
def testTemplate (nScriptCheckThreads : Nat) (block : CBlock) : Except Fail Unit × BlockStore :=
  testBlockValidity Rules.transparent { mainParams with nTotalBlocksEstimate := 0 }
    nScriptCheckThreads {} ⟨false, fun _ => 0⟩ (LocalState.bare 1600000100 true false)
    ⟨some (1, 299), fun _ => none⟩ (fun _ => none) { phashBlock := 1, nHeight := 299 } [] block
    lockedView 1 false .empty

theorem ne_empty_of_indexed {disk : BlockStore} (hash : Uint256)
    (h : (disk.blockIndex hash).isSome = true) : disk ≠ .empty := by
  rintro rfl
  exact absurd h (by simp [BlockStore.empty])

/--
**A template that passes is in the block index database**, though no such block was mined.
One whose only fault is a script is there too if the script was queued, though it is refused.
-/
theorem template_is_indexed : (testTemplate 4 (payingBlock (10 * COIN))).1 = .ok () ∧
      (testTemplate 4 (payingBlock (10 * COIN))).2 ≠ .empty ∧
      (testTemplate 4 unlockingBlock).1 = .error (.plain 100) ∧
      (testTemplate 4 unlockingBlock).2 ≠ .empty :=
  ⟨by decide +kernel, ne_empty_of_indexed 2 (by decide +kernel), by decide +kernel,
    ne_empty_of_indexed 2 (by decide +kernel)⟩

end dry

end BitBlocks
