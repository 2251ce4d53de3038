import BitBlocks.Chain.BlockIndex
import BitBlocks.Validation.CheckBlock

/-!
# The proof-of-stake kernel

`CheckProofOfStake` and what it calls. The kernel hash covers a stake modifier that is
found by walking forward from the block of the staked coin, along the *active* chain,
until a selection interval has passed. The comment at the end of `CheckProofOfStake`
takes the consequence: a kernel "can fail for an entirely honest block", and then the
peer is not punished unless the block builds on the tip.

So the verdict is no function of the block's own history
(`checkProofOfStake_not_objective`). It is one of that and of the active chain at the
heights the walk reads (`checkProofOfStake_congr`).
-/

namespace BitBlocks

open Checks

/-- The functions of the stake rules that are not looked into. -/
structure StakeRules where
  /-- `GetNextWorkRequired(pindexPrev, pblock)`, given the branch. -/
  getNextWorkRequired : List CBlockIndex → CBlockHeader → Nat
  /-- `abs(n1 - n2) > n1 * 0.5`, with both difficulties as floating-point numbers. -/
  farFromRequired : Nat → Nat → Bool
  /-- `stakeHash`: modifier, time of the block from, outpoint, time of the transaction. -/
  stakeHash : Nat → Nat → COutPoint → Nat → Uint256

/-- What the stake checks read of a node. -/
structure StakeView (R : Rules) where
  mapBlockIndex : Uint256 → Option CBlockIndex
  index_hash : ∀ {h e}, mapBlockIndex h = some e → e.phashBlock = h
  /-- The active chain, genesis first: `chainActive[h]` is the entry of height `h`. -/
  vChain : List CBlockIndex
  chain_height : ∀ {i : Nat} {e : CBlockIndex}, vChain[i]? = some e → e.nHeight = i
  /-- `GetTransaction`: the transaction, and the hash of the block it is in. -/
  getTransaction : Uint256 → Option (CTransaction × Uint256)
  /-- `ReadBlockFromDisk`, at the position the entry of that hash has. -/
  readBlock : Uint256 → Option CBlock
  disk_hash : ∀ {h block}, readBlock h = some block → R.getHash block.toCBlockHeader = h
  fInitialBlockDownload : Bool

/-! ## The stake modifier -/

def MODIFIER_INTERVAL : Nat := 60

def MODIFIER_INTERVAL_RATIO : Nat := 3

/-- `nStakeMinAge`, one hour. -/
def nStakeMinAge : Nat := 60 * 60

/-- `GetStakeModifierSelectionIntervalSection`. -/
def getStakeModifierSelectionIntervalSection (nSection : Nat) : Nat :=
  MODIFIER_INTERVAL * 63 / (63 + (63 - nSection) * ( MODIFIER_INTERVAL_RATIO - 1))

/-- `GetStakeModifierSelectionInterval`. -/
def getStakeModifierSelectionInterval : Nat :=
  ((List.range 64).map getStakeModifierSelectionIntervalSection).sum

/--
The loop of `GetKernelStakeModifier`: from the last entry passed and the last time a
modifier was generated, along the entries that come next. `none` is "Null pindexNext".
-/
def modifierWalk (stop : Int) : CBlockIndex → Int → List CBlockIndex → Option CBlockIndex
  | pindex, nStakeModifierTime, [] => if nStakeModifierTime < stop then none else some pindex
  | pindex, nStakeModifierTime, pindexNext :: rest =>
    if nStakeModifierTime < stop then
      modifierWalk stop pindexNext
        (if pindexNext.fGeneratedStakeModifier then pindexNext.getBlockTime
         else nStakeModifierTime) rest
    else some pindex

/-- When the walk from a block may stop. -/
def modifierStop (pindexFrom : CBlockIndex) : Int :=
  pindexFrom.getBlockTime + getStakeModifierSelectionInterval

/-- The active chain above the height of an entry, which need not be on it. -/
def StakeView.above {R : Rules} (s : StakeView R) (pindexFrom : CBlockIndex) : List CBlockIndex :=
  s.vChain.drop (pindexFrom.nHeight.toNat + 1)

/-- `GetKernelStakeModifier`. -/
def getKernelStakeModifier {R : Rules} (s : StakeView R) (hashBlockFrom : Uint256) : Option Nat :=
  match s.mapBlockIndex hashBlockFrom with
  | none => none
  | some pindexFrom =>
    (modifierWalk (modifierStop pindexFrom) pindexFrom pindexFrom.getBlockTime
      (s.above pindexFrom)).map CBlockIndex.nStakeModifier

/-! ## The kernel -/

/-- `uint256::SetCompact`. -/
def setCompact (nCompact : Nat) : Uint256 :=
  let nSize := nCompact / 2 ^ 24
  let nWord := nCompact % 2 ^ 23
  if nSize ≤ 3 then nWord / 2 ^ (8 * (3 - nSize)) else nWord * 2 ^ (8 * (nSize - 3)) % 2 ^ 256

/-- `stakeTargetHit`; the weight is the amount, and the product has 256 bits. -/
def stakeTargetHit (hashProofOfStake : Uint256) (nValueIn : Int) (bnTargetPerCoinDay : Uint256) :
    Bool :=
  let bnCoinDayWeight := (nValueIn % 2 ^ 64).toNat / 100
  decide (hashProofOfStake < bnCoinDayWeight * bnTargetPerCoinDay % 2 ^ 256)

/--
`CheckStakeKernelHash` with `fCheck` set: `hashProofOfStake`, which stays zero if it is
not computed, and the result. The caller has checked that the output exists.
-/
def checkStakeKernelHash {R : Rules} (S : StakeRules) (s : StakeView R) (nBits : Nat)
    (blockFrom : CBlock) (txPrev : CTransaction) (prevout : COutPoint) (nTimeTx : Nat) :
    Uint256 × Bool :=
  let nValueIn := ((txPrev.vout[prevout.n]?).map CTxOut.nValue).getD 0
  let nTimeBlockFrom := blockFrom.nTime
  -- transaction timestamp violation, and min age requirement
  if nTimeTx < nTimeBlockFrom ∨ (nTimeBlockFrom + nStakeMinAge) % 2 ^ 32 > nTimeTx then (0, false)
  else match getKernelStakeModifier s (R.getHash blockFrom.toCBlockHeader) with
    | none => (0, false)
    | some nStakeModifier =>
      let hashProofOfStake := S.stakeHash nStakeModifier nTimeBlockFrom prevout nTimeTx
      (hashProofOfStake, stakeTargetHit hashProofOfStake nValueIn (setCompact nBits))

/-- `STANDARD_SCRIPT_VERIFY_FLAGS`. -/
def STANDARD_SCRIPT_VERIFY_FLAGS : ScriptFlags := ⟨true, true, true⟩

/-- What `CheckProofOfStake` hands to `CheckStakeKernelHash`. -/
structure KernelInput where
  blockFrom : CBlock
  txPrev : CTransaction
  prevout : COutPoint

/-- `CheckProofOfStake` up to the kernel hash. -/
def kernelInput {R : Rules} (s : StakeView R) (block : CBlock) : Except Fail KernelInput := do
  let tx ← at? .outOfRange block.vtx 1
  failIf (!tx.isCoinStake) (.dos 100 "bad-pos-not-coinstake")
  -- kernel (input 0) must match the stake hash target
  let txin ← at? .outOfRange tx.vin 0
  let (txPrev, hashBlock) ← found? (.dos 0 "bad-pos-prevout-missing")
    (s.getTransaction txin.prevout.hash)
  -- the prevout index is attacker controlled
  let txout ← at? (.dos 100 "bad-pos-prevout-index") txPrev.vout txin.prevout.n
  failIf (!R.verifyScript txin.scriptSig txout.scriptPubKey STANDARD_SCRIPT_VERIFY_FLAGS tx 0)
    (.dos 100 "bad-pos-scriptsig")
  let pindex ← found? (.dos 0 "bad-pos-blockfrom") (s.mapBlockIndex hashBlock)
  let blockFrom ← found? (.dos 0 "bad-pos-blockfrom-read") (s.readBlock pindex.phashBlock)
  .ok ⟨blockFrom, txPrev, txin.prevout⟩

/-- Only punish when our view is authoritative: synced, and building on our tip. -/
def kernelScore {R : Rules} (s : StakeView R) (pprev : List CBlockIndex) : Nat :=
  if !s.fInitialBlockDownload && !pprev.isEmpty &&
      s.vChain.getLast?.map CBlockIndex.phashBlock == pprev.head?.map
      CBlockIndex.phashBlock then 100
  else 0

/-- `CheckProofOfStake`: `hashProofOfStake` as it leaves it, and the result. -/
def checkProofOfStake {R : Rules} (S : StakeRules) (s : StakeView R) (pprev : List CBlockIndex)
    (block : CBlock) : Uint256 × Except Fail Unit :=
  match kernelInput s block with
  | .error e => (0, .error e)
  | .ok k =>
    let r := checkStakeKernelHash S s block.nBits k.blockFrom k.txPrev k.prevout block.nTime
    (r.1, failIf (!r.2) (.dos (kernelScore s pprev) "bad-pos-kernel"))

/-! ## What the verdict depends on -/

/-- How many entries of the active chain the walk reads, a missing one included. -/
def modifierSteps (stop : Int) : Int → List CBlockIndex → Nat
  | nStakeModifierTime, [] => if nStakeModifierTime < stop then 1 else 0
  | nStakeModifierTime, pindexNext :: rest =>
    if nStakeModifierTime < stop then
      modifierSteps stop (if pindexNext.fGeneratedStakeModifier then pindexNext.getBlockTime
        else nStakeModifierTime) rest + 1
    else 0

/-- **The walk depends only on the entries it reads.** -/
theorem modifierWalk_congr {stop : Int} : ∀ {l l' : List CBlockIndex} {pindex : CBlockIndex}
    {nStakeModifierTime : Int},
    (∀ i < modifierSteps stop nStakeModifierTime l, l[i]? = l'[i]?) →
    modifierWalk stop pindex nStakeModifierTime l = modifierWalk stop pindex nStakeModifierTime l'
  | [], l', pindex, t, h => by
    rw [modifierSteps] at h
    by_cases ht : t < stop
    · rw [if_pos ht] at h
      have hnil : l' = [] := by
        have := h 0 (by omega)
        cases l' with
        | nil => rfl
        | cons a l' => simp at this
      rw [hnil]
    · cases l' <;> simp [modifierWalk, ht]
  | a :: l, l', pindex, t, h => by
    rw [modifierSteps] at h
    by_cases ht : t < stop
    · rw [if_pos ht] at h
      obtain ⟨rest, rfl⟩ : ∃ rest, l' = a :: rest := by
        have := h 0 (by omega)
        cases l' with
        | nil => simp at this
        | cons b rest => exact ⟨rest, by simpa using this.symm⟩
      rw [modifierWalk, modifierWalk, if_pos ht, if_pos ht]
      refine modifierWalk_congr fun i hi => ?_
      simpa using h (i + 1) (by omega)
    · cases l' <;> simp [modifierWalk, ht]

/-- The outpoint a proof-of-stake block stakes: `vtx[1].vin[0].prevout`. -/
def CBlock.kernelPrevout (block : CBlock) : Option COutPoint :=
  (block.vtx[1]?).bind fun tx => (tx.vin[0]?).map CTxIn.prevout

/-- The block's kernel transaction is in the block of that hash. -/
def StakeView.KernelIn {R : Rules} (s : StakeView R) (block : CBlock) (hashBlock : Uint256) :
    Prop :=
  ∃ prevout txPrev, block.kernelPrevout = some prevout ∧
    s.getTransaction prevout.hash = some (txPrev, hashBlock)

/-- Two nodes have the same transaction and block for the kernel input. -/
structure SameKernel {R : Rules} (s s' : StakeView R) (block : CBlock) : Prop where
  tx : ∀ prevout, block.kernelPrevout = some prevout →
    s.getTransaction prevout.hash = s'.getTransaction prevout.hash
  index : ∀ hashBlock, s.KernelIn block hashBlock →
    s.mapBlockIndex hashBlock = s'.mapBlockIndex hashBlock
  disk : ∀ hashBlock, s.KernelIn block hashBlock → s.readBlock hashBlock = s'.readBlock hashBlock

/-- The active chains have the same blocks at the heights the walk reads. -/
def SameWalk {R : Rules} (s s' : StakeView R) (block : CBlock) : Prop :=
  ∀ hashBlock pindexFrom, s.KernelIn block hashBlock → s.mapBlockIndex hashBlock = some pindexFrom →
    ∀ i < modifierSteps (modifierStop pindexFrom) pindexFrom.getBlockTime (s.above pindexFrom),
      s.vChain[pindexFrom.nHeight.toNat + 1 + i]? = s'.vChain[pindexFrom.nHeight.toNat + 1 + i]?

def Fail.unscored : Fail → Fail
  | .invalid _ chRejectCode strRejectReason corruptionPossible =>
    .invalid 0 chRejectCode strRejectReason corruptionPossible
  | e => e

variable {R : Rules} {block : CBlock} {k : KernelInput} {hashBlock : Uint256}

variable {s s' : StakeView R}

/-- What `kernelInput` has established when it succeeds. -/
theorem kernelInput_ok (h : kernelInput s block = .ok k) : ∃ hashBlock tx txin txout,
      block.vtx[1]? = some tx ∧ tx.isCoinStake = true ∧ tx.vin[0]? = some txin ∧
      k.prevout = txin.prevout ∧ s.getTransaction k.prevout.hash = some (k.txPrev, hashBlock) ∧
      k.txPrev.vout[k.prevout.n]? = some txout ∧
      R.getHash k.blockFrom.toCBlockHeader = hashBlock ∧
      (∃ pindex, s.mapBlockIndex hashBlock = some pindex) ∧
      R.verifyScript txin.scriptSig txout.scriptPubKey STANDARD_SCRIPT_VERIFY_FLAGS tx 0 =
      true := by
  unfold kernelInput at h
  simp only [bind_eq_ok, exists_unit, failIf_eq_ok, at?_eq_ok, found?_eq_ok, Except.ok.injEq,
    Prod.exists, Bool.not_eq_false'] at h
  obtain ⟨tx, htx, hcs, txin, htxin, txPrev, hashBlock, hget, txout, hout, hscript, pindex, hidx,
    blockFrom, hread, rfl⟩ := h
  refine ⟨hashBlock, tx, txin, txout, htx, hcs, htxin, rfl, hget, hout, ?_, ⟨pindex, hidx⟩, hscript⟩
  rw [s.disk_hash hread, s.index_hash hidx]

theorem kernelIn_of_ok (h : kernelInput s block = .ok k) :
    s.KernelIn block (R.getHash k.blockFrom.toCBlockHeader) := by
  obtain ⟨hashBlock, tx, txin, txout, htx, _, htxin, hp, hget, _, rfl, _⟩ := kernelInput_ok h
  refine ⟨k.prevout, k.txPrev, ?_, hget⟩
  simp [CBlock.kernelPrevout, htx, htxin, hp]

/-- **Everything before the kernel hash is the same in both nodes.** -/
theorem kernelInput_congr (h : SameKernel s s' block) :
    kernelInput s block = kernelInput s' block := by
  unfold kernelInput
  refine bind_congr_ok fun tx htx => bind_congr_ok fun _ _ => bind_congr_ok fun txin htxin => ?_
  have hp : block.kernelPrevout = some txin.prevout := by
    rw [at?_eq_ok] at htx htxin
    simp [CBlock.kernelPrevout, htx, htxin]
  rw [← h.tx _ hp]
  refine bind_congr_ok fun ⟨txPrev, hashBlock⟩ hget => ?_
  have hin : s.KernelIn block hashBlock := ⟨_, _, hp, by simpa using hget⟩
  dsimp only
  refine bind_congr_ok fun txout _ => bind_congr_ok fun _ _ => ?_
  rw [← h.index _ hin]
  refine bind_congr_ok fun pindex hidx => ?_
  have hhash : pindex.phashBlock = hashBlock := s.index_hash (by simpa using hidx)
  rw [hhash, h.disk _ hin]

theorem getKernelStakeModifier_congr (h : SameKernel s s' block) (hw : SameWalk s s' block)
    (hin : s.KernelIn block hashBlock) :
    getKernelStakeModifier s hashBlock = getKernelStakeModifier s' hashBlock := by
  unfold getKernelStakeModifier
  rw [← h.index _ hin]
  cases hidx : s.mapBlockIndex hashBlock with
  | none => rfl
  | some pindexFrom =>
    dsimp only
    rw [modifierWalk_congr fun i hi => ?_]
    have := hw hashBlock pindexFrom hin hidx i hi
    simpa [StakeView.above, List.getElem?_drop] using this

/--
**The verdict is a function of the kernel and of the walk.** Two nodes that have the same
transaction and block for the kernel input, and whose active chains have the same blocks
at the heights the modifier walk reads, come to the same verdict, the ban score aside,
and the same `hashProofOfStake`.
-/
theorem checkProofOfStake_congr {R : Rules} {S : StakeRules} {s s' : StakeView R}
    {pprev : List CBlockIndex} {block : CBlock} (h : SameKernel s s' block)
    (hw : SameWalk s s' block) :
    (checkProofOfStake S s pprev block).1 = (checkProofOfStake S s' pprev block).1 ∧
      (checkProofOfStake S s pprev block).2.mapError Fail.unscored
        = (checkProofOfStake S s' pprev block).2.mapError Fail.unscored := by
  unfold checkProofOfStake
  rw [← kernelInput_congr h]
  cases hk : kernelInput s block with
  | error e => exact ⟨rfl, rfl⟩
  | ok k =>
    have hm := getKernelStakeModifier_congr h hw (kernelIn_of_ok hk)
    have hr : checkStakeKernelHash S s block.nBits k.blockFrom k.txPrev k.prevout block.nTime
        = checkStakeKernelHash S s' block.nBits k.blockFrom k.txPrev k.prevout block.nTime := by
      unfold checkStakeKernelHash
      rw [hm]
    dsimp only
    rw [hr]
    refine ⟨rfl, ?_⟩
    generalize (checkStakeKernelHash S s' block.nBits k.blockFrom k.txPrev k.prevout
      block.nTime).2 = hit
    cases hit <;> rfl

/-! ### Two nodes on two branches -/

/-- Entries of height `0` and `1`, and two of height `2` with different modifiers. -/
def forkIndex (h : Uint256) : Option CBlockIndex :=
  if h < 4 then
    some { phashBlock := h
           nHeight := min h 2
           nTime := 1000 + 3000 * h
           fGeneratedStakeModifier := true
           nStakeModifier := h }
  else none

/-- A stake of one coin, in the block of height `1`. -/
def stakedTx : CTransaction where
  hash := 50
  vin := []
  vout := [⟨100, [0x51], -10⟩]

/-- A block that stakes it, on top of entry `2`. -/
def stakingBlock (nTime : Nat) : CBlock where
  nVersion := 3
  hashPrevBlock := 2
  hashMerkleRoot := 0
  nTime := nTime
  nBits := 0x03000003
  nNonce := 9
  vtx := [{ hash := 51, vin := [⟨COutPoint.null, [1, 1], 0⟩], vout := [⟨0, [], -10⟩] },
     { hash := 52, vin := [⟨⟨50, 0⟩, [0x51], 0⟩], vout := [⟨0, [], -10⟩, ⟨110, [0x51], -10⟩] }]

/-- A block by its nonce, which is its hash under the transparent rules. -/
def forkBlock (h : Uint256) : CBlock where
  nVersion := 3
  hashPrevBlock := 0
  hashMerkleRoot := 0
  nTime := 1000 + 3000 * h
  nBits := 0
  nNonce := h
  vtx := [stakedTx]

/-- A node whose active chain has entry `tip` at height `2`, and `above` on top. -/
def forkView (tip : Uint256) (above : List CBlockIndex) (h : ∀ {i : Nat} {e : CBlockIndex},
      ((forkIndex 0).toList ++ (forkIndex 1).toList ++ (forkIndex tip).toList ++ above)[i]? =
      some e →
      e.nHeight = i) : StakeView Rules.transparent where
  mapBlockIndex := forkIndex
  index_hash := by
    intro h e he
    unfold forkIndex at he
    split at he
    · rw [← Option.some.inj he]
    · simp at he
  vChain := (forkIndex 0).toList ++ (forkIndex 1).toList ++ (forkIndex tip).toList ++ above
  chain_height := h
  getTransaction h := if h = 50 then some (stakedTx, 1) else none
  readBlock h := if h < 4 then some (forkBlock h) else none
  disk_hash := by
    intro h block hb
    split at hb
    · rw [← Option.some.inj hb]; rfl
    · simp at hb
  fInitialBlockDownload := false

def modifierStake : StakeRules where
  getNextWorkRequired _ _ := 0x03000003
  farFromRequired _ _ := false
  stakeHash nStakeModifier _ _ _ := nStakeModifier

theorem chain_height_of_all {l : List CBlockIndex}
    (h : ∀ p ∈ l.zipIdx, p.1.nHeight = (p.2 : Int)) {i : Nat} {e : CBlockIndex}
    (he : l[i]? = some e) : e.nHeight = i :=
  h (e, i) (List.mk_mem_zipIdx_iff_getElem?.mpr he)

def nodeOn2 : StakeView Rules.transparent := forkView 2 [] (chain_height_of_all (by decide))

def nodeOn3 : StakeView Rules.transparent := forkView 3 [] (chain_height_of_all (by decide))

/-- The node on branch `2` after one more block. -/
def nodeAbove2 : StakeView Rules.transparent :=
  forkView 2 [{ phashBlock := 7, nHeight := 3, nTime := 9000, fGeneratedStakeModifier := true }]
    (chain_height_of_all (by decide))

theorem kernelIn_stakingBlock {nTime : Nat} (hs : s.getTransaction 50 = some (stakedTx, 1))
    (hin : s.KernelIn (stakingBlock nTime) hashBlock) : hashBlock = 1 := by
  obtain ⟨prevout, txPrev, hp, hget⟩ := hin
  have hp : prevout = ⟨50, 0⟩ := by
    simpa [CBlock.kernelPrevout, stakingBlock, eq_comm] using hp
  subst hp
  rw [hs] at hget
  simp only [Option.some.injEq, Prod.mk.injEq] at hget
  exact hget.2.symm

/-- Another block on top changes nothing. -/
theorem checkProofOfStake_congr_above :
    ((checkProofOfStake modifierStake nodeOn2 [] (stakingBlock 12000)).1
        = (checkProofOfStake modifierStake nodeAbove2 [] (stakingBlock 12000)).1 ∧
      (checkProofOfStake modifierStake nodeOn2 [] (stakingBlock 12000)).2.mapError Fail.unscored
        = (checkProofOfStake modifierStake nodeAbove2 [] (stakingBlock 12000)).2.mapError
            Fail.unscored) ∧
    checkProofOfStake modifierStake nodeOn2 [] (stakingBlock 12000) = (2, .ok ()) := by
  refine ⟨checkProofOfStake_congr ⟨fun _ _ => rfl, fun _ _ => rfl, fun _ _ => rfl⟩ ?_, by decide⟩
  intro hashBlock pindexFrom hin hidx
  obtain rfl := kernelIn_stakingBlock rfl hin
  obtain rfl : (forkIndex 1).get (by decide) = pindexFrom := Option.get_of_mem _ hidx
  decide

/-- The node has the block's ancestors in its index. -/
def Indexed {R : Rules} (s : StakeView R) (pprev : List CBlockIndex) (block : CBlock) : Prop :=
  pprev.head?.map CBlockIndex.phashBlock = some block.hashPrevBlock ∧
    ∀ pindex ∈ pprev, s.mapBlockIndex pindex.phashBlock = some pindex

instance {R : Rules} (s : StakeView R) (pprev : List CBlockIndex) (block : CBlock) :
    Decidable (Indexed s pprev block) :=
  inferInstanceAs (Decidable (_ ∧ ∀ pindex ∈ pprev, _))

/--
**The verdict depends on the active chain.** Two nodes know the same blocks, but only the
one on the block's own branch finds the modifier the block was made with.
-/
theorem checkProofOfStake_not_objective :
    ¬ ∀ (R : Rules) (S : StakeRules) (s s' : StakeView R) (pprev : List CBlockIndex)
      (block : CBlock), Indexed s pprev block → Indexed s' pprev block → SameKernel s s' block →
      (checkProofOfStake S s pprev block).1 = (checkProofOfStake S s' pprev block).1 ∧
        (checkProofOfStake S s pprev block).2.mapError Fail.unscored
          = (checkProofOfStake S s' pprev block).2.mapError Fail.unscored := by
  intro h
  have := h _ modifierStake nodeOn2 nodeOn3
    ((forkIndex 2).toList ++ (forkIndex 1).toList ++ (forkIndex 0).toList) (stakingBlock 12000)
    (by decide) (by decide) ⟨fun _ _ => rfl, fun _ _ => rfl, fun _ _ => rfl⟩
  exact absurd this (by decide)

end BitBlocks
