import BitBlocks.Validation.CheckBlock

/-!
# Where validation can index out of bounds

Every vector access on the way of a received block is guarded, except one.
`IsBlockPayeeValid` picks the paying transaction by height: above the last
proof-of-work height it reads `block.vtx[1]`. A block with a single transaction
is never proof-of-stake, and the rule that proof-of-work has ended at that height
is in `ConnectBlock`, which runs after `CheckBlock`. So the access is past the end
for exactly those blocks that get that far (`ReachesPayeeWithOneTx`).
-/

namespace BitBlocks

open Checks Wrap LocalState

/-- The failures that are verdicts, not accidents. -/
abbrev InBounds (e : Fail) : Prop := e ≠ .outOfRange

variable {tx cb : CTransaction} {R : Rules} {P : CChainParams} {env : LocalState} {block : CBlock}
  {tip : TipView} {f : Bool}

theorem CTransaction.vin_ne_nil_of_isCoinBase (h : tx.isCoinBase = true) : 0 < tx.vin.length := by
  unfold isCoinBase at h
  split at h
  · rename_i heq; simp [heq]
  · simp at h

theorem CTransaction.of_isCoinStake (h : tx.isCoinStake = true) :
    0 < tx.vin.length ∧ 1 < tx.vout.length := by
  unfold isCoinStake at h
  split at h
  · rename_i hi ho; simp [hi, ho]
  · simp at h

/-! ## The guarded accesses -/

theorem checkOutputs_inBounds (P : CChainParams) (tx : CTransaction) :
    ∀ (vout : List CTxOut) (nValueOut : Int), Only InBounds (checkOutputs P tx nValueOut vout)
  | [], _ => Only.ok ()
  | txout :: vout, nValueOut => by
    rw [checkOutputs]
    refine Only.bind (Only.failIf (by simp [Fail.plain])) fun _ _ => ?_
    refine Only.bind (Only.failIf (by simp [Fail.dos])) fun _ _ => ?_
    refine Only.bind (Only.failIf (by simp [Fail.dos])) fun _ _ => ?_
    refine Only.bind (Only.failIf (by simp [Fail.dos])) fun _ _ => ?_
    exact checkOutputs_inBounds P tx vout _

theorem checkTransaction_inBounds (R : Rules) (P : CChainParams) (tx : CTransaction) :
    Only InBounds (checkTransaction R P tx) := by
  unfold checkTransaction
  refine Only.bind (Only.failIf (by simp [Fail.dos])) fun _ _ => ?_
  refine Only.bind (Only.failIf (by simp [Fail.dos])) fun _ _ => ?_
  refine Only.bind (Only.failIf (by simp [Fail.dos])) fun _ _ => ?_
  refine Only.bind (checkOutputs_inBounds P tx _ _) fun _ _ => ?_
  refine Only.bind (Only.failIf (by simp [Fail.dos])) fun _ _ => ?_
  split
  · rename_i hcb
    refine Only.bind (Only.at? (CTransaction.vin_ne_nil_of_isCoinBase hcb)) fun _ _ => ?_
    exact Only.failIf (by simp [Fail.dos])
  · exact Only.all fun _ _ => Only.failIf (by simp [Fail.dos])

theorem checkHeader_inBounds (R : Rules) (block : CBlock) :
    Only InBounds (checkHeader R block) := by
  unfold checkHeader
  split
  · exact Only.ok ()
  · exact Only.error (by simp [Fail.corrupt])

theorem checkMerkle_inBounds (R : Rules) (block : CBlock) (f : Bool) :
    Only InBounds (checkMerkle R block f) := by
  unfold checkMerkle
  split
  · refine Only.bind (Only.failIf (by simp [Fail.corrupt])) fun _ _ => ?_
    exact Only.failIf (by simp [Fail.corrupt])
  · exact Only.ok ()

theorem checkShape_inBounds (R : Rules) (block : CBlock) : Only InBounds (checkShape R block) := by
  unfold checkShape
  refine Only.bind (Only.failIf (by simp [Fail.dos])) fun _ _ => ?_
  refine Only.bind (Only.failIf (by simp [Fail.dos])) fun _ hne => ?_
  have hlen : 0 < block.vtx.length := List.length_pos_iff.mpr (by simpa using hne)
  refine Only.bind (Only.at? hlen) fun tx0 _ => ?_
  refine Only.bind (Only.failIf (by simp [Fail.dos])) fun _ _ => ?_
  refine Only.bind (Only.all fun _ _ => Only.failIf (by simp [Fail.dos])) fun _ _ => ?_
  split
  · rename_i hpos
    refine Only.bind (Only.at? hlen) fun tx0 _ => ?_
    refine Only.bind (Only.failIf (by simp [Fail.plain])) fun _ hone => ?_
    have hlen0 : 0 < tx0.vout.length := by simp at hone; omega
    refine Only.bind (Only.at? hlen0) fun _ _ => ?_
    refine Only.bind (Only.failIf (by simp [Fail.plain])) fun _ _ => ?_
    obtain ⟨tx1, htx1, _⟩ := CBlock.isProofOfStake_iff.mp hpos
    have hlen1 : 1 < block.vtx.length := (List.getElem?_eq_some_iff.mp htx1).1
    refine Only.bind (Only.at? hlen1) fun _ _ => ?_
    refine Only.bind (Only.failIf (by simp [Fail.plain])) fun _ _ => ?_
    exact Only.all fun _ _ => Only.failIf (by simp [Fail.plain])
  · exact Only.ok ()

theorem checkLocks_inBounds (env : LocalState) (block : CBlock) :
    Only InBounds (checkLocks env block) := by
  unfold checkLocks
  split
  · refine Only.all fun tx _ => ?_
    split
    · exact Only.ok ()
    · refine Only.all fun txin _ => ?_
      split
      · exact Only.failIf (by simp [Fail.dos])
      · exact Only.ok ()
  · exact Only.ok ()

theorem checkTransactions_inBounds (R : Rules) (P : CChainParams) (block : CBlock) :
    Only InBounds (checkTransactions R P block) := by
  unfold checkTransactions
  refine Only.bind (Only.all fun tx _ => checkTransaction_inBounds R P tx) fun _ _ => ?_
  exact Only.failIf (by simp [Fail.corrupt])

theorem checkBlockSignature_inBounds (R : Rules) (block : CBlock) :
    Only InBounds (checkBlockSignature R block) := by
  unfold checkBlockSignature
  split
  · exact Only.ok _
  · rename_i hpow
    have hpos : block.isProofOfStake = true := by simpa [CBlock.isProofOfWork] using hpow
    obtain ⟨tx1, htx1, hst⟩ := CBlock.isProofOfStake_iff.mp hpos
    refine Only.bind (Only.at? (List.getElem?_eq_some_iff.mp htx1).1) fun tx h => ?_
    rw [at?_eq_ok, htx1, Option.some.injEq] at h
    subst h
    refine Only.bind (Only.at? (CTransaction.of_isCoinStake hst).2) fun _ _ => ?_
    exact Only.ok _

theorem getProofOfStake_inBounds (block : CBlock) : Only InBounds (getProofOfStake block) := by
  unfold getProofOfStake
  split
  · rename_i hpos
    obtain ⟨tx1, htx1, hst⟩ := CBlock.isProofOfStake_iff.mp hpos
    refine Only.bind (Only.at? (List.getElem?_eq_some_iff.mp htx1).1) fun tx h => ?_
    rw [at?_eq_ok, htx1, Option.some.injEq] at h
    subst h
    refine Only.bind (Only.at? (CTransaction.of_isCoinStake hst).1) fun _ _ => ?_
    exact Only.ok _
  · exact Only.ok _

/-! ## The unguarded one -/

theorem isBlockPayeeValid_outOfRange {nBlockHeight : Int} :
    isBlockPayeeValid R P env block nBlockHeight = .error .outOfRange ↔ env.fSynced = true ∧
        block.vtx.length ≤ (if nBlockHeight > P.nLastPOWBlock then 1 else 0) := by
  unfold isBlockPayeeValid
  cases hs : env.fSynced with
  | false => simp
  | true =>
    have htail : ∀ tx, ¬ (if env.isSporkActive SPORK_13_ENABLE_SUPERBLOCKS &&
        env.isBudgetPaymentBlock nBlockHeight then
        if env.isBudgetTransactionValid tx nBlockHeight then Except.ok true
        else .ok (!env.isSporkActive SPORK_9_MASTERNODE_BUDGET_ENFORCEMENT)
      else if env.isPaymentTransactionValid R P tx nBlockHeight then .ok true
      else .ok (!env.isSporkActive SPORK_8_MASTERNODE_PAYMENT_ENFORCEMENT))
        = (.error .outOfRange : Except Fail Bool) := by
      intro tx
      split <;> split <;> simp
    simp only [Bool.not_true, Bool.false_eq_true, if_false, bind_eq_error, at?_eq_error,
      and_true, htail, and_false, exists_false, or_false, true_and]

/--
The block gets as far as the payee check with one transaction, above the last
proof-of-work height, on a node that is synced and knows its parent.
-/
structure ReachesPayeeWithOneTx (R : Rules) (P : CChainParams) (env : LocalState) (tip : TipView)
    (block : CBlock) (fCheckMerkleRoot : Bool) : Prop where
  single : ∃ cb, block.vtx = [cb] ∧ cb.isCoinBase = true ∧
    (fCheckMerkleRoot = true → block.hashMerkleRoot = cb.hash)
  pow : R.checkProofOfWork (R.getHash block.toCBlockHeader) block.nBits = true
  time : block.getBlockTime ≤ env.nAdjustedTime + 7200
  size : R.blockSize block ≤ MAX_BLOCK_SIZE
  synced : env.fSynced = true ∧ env.fInitialBlockDownload = false
  height : ∃ pindexPrev, tip.tip = some pindexPrev ∧
    tip.heightOf pindexPrev block.hashPrevBlock ≠ 0 ∧
    tip.heightOf pindexPrev block.hashPrevBlock > P.nLastPOWBlock

theorem checkPayee_outOfRange (hne : block.vtx ≠ []) :
    checkPayee R P env tip block = .error .outOfRange ↔
      (env.fSynced = true ∧ env.fInitialBlockDownload = false) ∧ block.vtx.length = 1 ∧
      ∃ pindexPrev, tip.tip = some pindexPrev ∧ tip.heightOf pindexPrev block.hashPrevBlock ≠ 0 ∧
        tip.heightOf pindexPrev block.hashPrevBlock > P.nLastPOWBlock := by
  have hpos := List.length_pos_iff.mpr hne
  unfold checkPayee
  cases ht : tip.tip with
  | none => simp
  | some t =>
    dsimp only
    split
    · rename_i hc
      simp only [bind_eq_error, isBlockPayeeValid_outOfRange, failIf_eq_error, Fail.dos,
        reduceCtorEq, and_false, exists_false, or_false, Option.some.injEq,
        exists_eq_left', hc.2, and_true, ne_eq, hc.1, not_false_eq_true, true_and]
      split <;> rename_i hh <;> simp [hh] <;> intros <;> omega
    · rename_i hc
      simp only [reduceCtorEq, Option.some.injEq, exists_eq_left', false_iff, not_and]
      intro hs _ hh
      exact absurd ⟨hh, hs.2⟩ hc

theorem checkShape_single (h : block.vtx = [cb]) :
    checkShape R block = .ok () ↔ R.blockSize block ≤ MAX_BLOCK_SIZE ∧ cb.isCoinBase = true := by
  have hpos : block.isProofOfStake = false := by simp [CBlock.isProofOfStake, h]
  unfold checkShape
  simp [h, hpos, at?, all, MAX_BLOCK_SIZE]

theorem checkMerkle_single (h : block.vtx = [cb]) :
    checkMerkle R block f = .ok () ↔ (f = true → block.hashMerkleRoot = cb.hash) := by
  have hroot : block.buildMerkleTree R.hash2 = (cb.hash, false) := by
    simp [CBlock.buildMerkleTree, h, merkleLoop]
  unfold checkMerkle
  rw [hroot]
  cases f <;> simp

theorem checkHeader_eq_ok : checkHeader R block = .ok () ↔ (block.isProofOfWork = true →
        R.checkProofOfWork (R.getHash block.toCBlockHeader) block.nBits = true) := by
  unfold checkHeader checkBlockHeader failIf
  cases block.isProofOfWork <;>
    cases R.checkProofOfWork (R.getHash block.toCBlockHeader) block.nBits <;> simp

theorem checkLocks_single (h : block.vtx = [cb]) (hcb : cb.isCoinBase = true) :
    checkLocks env block = .ok () := by
  unfold checkLocks
  split <;> simp [h, hcb]

theorem checkTime_inBounds (env : LocalState) (block : CBlock) :
    Only InBounds (checkTime env block) := Only.failIf (by simp)

/-- **`CheckBlock` reads past the end exactly on a single-transaction block that reaches
the payee check.** -/
theorem checkBlock_outOfRange_iff : checkBlock R P env tip block f = .error .outOfRange ↔
      ReachesPayeeWithOneTx R P env tip block f := by
  unfold checkBlock
  constructor
  · intro h
    rcases bind_eq_error.mp h with h | ⟨_, h1, h⟩
    · exact absurd rfl (checkHeader_inBounds R block _ h)
    rcases bind_eq_error.mp h with h | ⟨_, h2, h⟩
    · exact absurd rfl (checkTime_inBounds env block _ h)
    rcases bind_eq_error.mp h with h | ⟨_, h3, h⟩
    · exact absurd rfl (checkMerkle_inBounds R block f _ h)
    rcases bind_eq_error.mp h with h | ⟨_, h4, h⟩
    · exact absurd rfl (checkShape_inBounds R block _ h)
    rcases bind_eq_error.mp h with h | ⟨_, h5, h⟩
    · exact absurd rfl (checkLocks_inBounds env block _ h)
    rcases bind_eq_error.mp h with h | ⟨_, h6, h⟩
    swap
    · exact absurd rfl (checkTransactions_inBounds R P block _ h)
    have hne : block.vtx ≠ [] := by
      intro he
      simp [checkShape, he] at h4
    obtain ⟨hsync, hlen, hheight⟩ := (checkPayee_outOfRange hne).mp h
    obtain ⟨cb, hcb⟩ := List.length_eq_one_iff.mp hlen
    have hpos : block.isProofOfStake = false := by simp [CBlock.isProofOfStake, hcb]
    obtain ⟨hsize, hcoin⟩ := (checkShape_single hcb).mp h4
    refine ⟨⟨cb, hcb, hcoin, (checkMerkle_single hcb).mp h3⟩, ?_, ?_, hsize, hsync, hheight⟩
    · exact checkHeader_eq_ok.mp h1 (by simp [CBlock.isProofOfWork, hpos])
    · simpa [checkTime, hpos] using h2
  · intro h
    obtain ⟨cb, hcb, hcoin, hroot⟩ := h.single
    have hpos : block.isProofOfStake = false := by simp [CBlock.isProofOfStake, hcb]
    have h1 : checkHeader R block = .ok () := checkHeader_eq_ok.mpr fun _ => h.pow
    have h2 : checkTime env block = .ok () := by simpa [checkTime, hpos] using h.time
    have h3 : checkMerkle R block f = .ok () := (checkMerkle_single hcb).mpr hroot
    have h4 : checkShape R block = .ok () := (checkShape_single hcb).mpr ⟨h.size, hcoin⟩
    have h6 : checkPayee R P env tip block = .error .outOfRange :=
      (checkPayee_outOfRange (by simp [hcb])).mpr ⟨h.synced, by simp [hcb], h.height⟩
    simp [h1, h2, h3, h4, checkLocks_single hcb hcoin, h6]

/--
**When the validation of a received block stays in bounds.** `CheckBlockSignature`
and `GetProofOfStake` always do; `CheckBlock` does unless the block is a
single coinbase that reaches the payee check above the last proof-of-work height.
-/
theorem received_block_inBounds_iff (R : Rules) (P : CChainParams) (env : LocalState)
    (tip : TipView) (block : CBlock) (fCheckMerkleRoot : Bool) :
    (checkBlock R P env tip block fCheckMerkleRoot ≠ .error .outOfRange ∧
        checkBlockSignature R block ≠ .error .outOfRange ∧
        getProofOfStake block ≠ .error .outOfRange) ↔
      ¬ ReachesPayeeWithOneTx R P env tip block fCheckMerkleRoot := by
  have h1 : checkBlockSignature R block ≠ .error .outOfRange :=
    fun h => checkBlockSignature_inBounds R block _ h rfl
  have h2 : getProofOfStake block ≠ .error .outOfRange :=
    fun h => getProofOfStake_inBounds block _ h rfl
  rw [ne_eq, checkBlock_outOfRange_iff]
  tauto

/-- A block with nothing but a coinbase, built on block `1`. -/
def loneCoinbase : CBlock where
  nVersion := 3
  hashPrevBlock := 1
  hashMerkleRoot := 9
  nTime := 1600000000
  nBits := 0x1e0ffff0
  nNonce := 2
  vtx := [{ hash := 9, vin := [⟨COutPoint.null, [1, 2], 0⟩], vout := [⟨0, [0x51], -10⟩] }]

/-- **One such block, received by a synced node at height 4200000, is read past its end.** -/
theorem received_block_outOfBounds :
    ¬ ∀ (R : Rules) (P : CChainParams) (env : LocalState) (tip : TipView) (block : CBlock)
        (fCheckMerkleRoot : Bool),
      checkBlock R P env tip block fCheckMerkleRoot ≠ .error .outOfRange ∧
        checkBlockSignature R block ≠ .error .outOfRange ∧
        getProofOfStake block ≠ .error .outOfRange := by
  intro hall
  have h := (hall Rules.transparent mainParams (LocalState.bare 1600000100 true false)
    ⟨some (1, 4199999), fun _ => none⟩ loneCoinbase true).1
  exact h (by decide)

end BitBlocks
