import BitBlocks.Validation.Connected

/-!
# What a block can create

`ConnectBlock` bounds the mint by comparing a 64-bit counter with the schedule,
in `IsBlockValueValid`. Three of that function's branches compare nothing: without
an active chain, in the first hundred blocks of a budget cycle while the node is
not synced, and on a budget payment block with superblocks enabled. Outside them
(`ScheduleEnforced`) the comparison is made, and the counter can be trusted when
the block cannot wrap it.
-/

namespace BitBlocks

open Wrap LocalState

/-- `IsBlockValueValid` gets as far as comparing the mint with the schedule. -/
def ScheduleEnforced (P : CChainParams) (env : LocalState) (tip : TipView) (block : CBlock) :
    Prop :=
  ∃ pindexPrev, tip.tip = some pindexPrev ∧
    let nHeight := tip.heightOf pindexPrev block.hashPrevBlock
    if env.fSynced then
      env.isSporkActive SPORK_13_ENABLE_SUPERBLOCKS = false ∨
        env.isBudgetPaymentBlock nHeight = false
    else nHeight.tmod P.getBudgetPaymentCycleBlocks ≥ 100

variable {P : CChainParams} {block : CBlock}

theorem isBlockValueValid_le {env : LocalState} {tip : TipView} {nExpectedValue nMinted : Int}
    (he : ScheduleEnforced P env tip block)
    (h : isBlockValueValid P env tip block nExpectedValue nMinted = true) :
    nMinted ≤ nExpectedValue := by
  obtain ⟨t, ht, hcase⟩ := he
  unfold isBlockValueValid at h
  rw [ht] at h
  dsimp only at h hcase
  cases hs : env.fSynced with
  | false =>
    rw [hs] at h hcase
    simp only [Bool.false_eq_true, if_false] at hcase
    simpa [Int.not_lt.mpr hcase] using h
  | true =>
    rw [hs] at h hcase
    simp only [if_true] at hcase
    rcases hcase with hoff | hno
    · simpa [hoff] using h
    · simpa [hno] using h

/-- The transactions that may pay out more than they take in. -/
def minting (vtx : List CTransaction) : List CTransaction :=
  vtx.filter fun tx => tx.isCoinBase || tx.isCoinStake

/-- **Ordinary transactions create nothing**, so the minting ones bound the block. -/
theorem net_le_minting : ∀ {vtx : List CTransaction}
    {undos : List (List CTxInUndo)}, List.Forall₂ (TxFlow P) vtx undos →
    totalOut vtx - totalSpent undos ≤ totalOut (minting vtx)
  | _, _, .nil => by simp [minting]
  | tx :: vtx, u :: us, .cons h ht => by
    have ih := net_le_minting ht
    rw [totalOut_cons, totalSpent_cons]
    unfold minting at ih ⊢
    cases hm : tx.isCoinBase || tx.isCoinStake with
    | true =>
      rw [List.filter_cons_of_pos (by simpa using hm), totalOut_cons]
      have := h.spent
      omega
    | false =>
      rw [List.filter_cons_of_neg (by simp [hm])]
      rw [Bool.or_eq_false_iff] at hm
      have := h.balance hm.1 hm.2
      omega

theorem BlockChecked.minting_le (hc : BlockChecked P block) (hpos : block.isProofOfStake = true) :
    totalOut (minting block.vtx) ≤ P.nMaxMoneyOut := by
  obtain ⟨cb, cs, rest, hvtx, hzero, hst, hrest⟩ := hc.stake hpos
  obtain ⟨cb', rest', hvtx', hcb, hothers⟩ := hc.coinbase
  rw [hvtx] at hvtx'
  obtain ⟨rfl, rfl⟩ := List.cons.inj hvtx'
  have hnone : minting rest = [] := by
    refine List.filter_eq_nil_iff.mpr fun tx htx => ?_
    simp [hothers tx (by simp [htx]), hrest tx htx]
  have hcs := (hc.txs cs (by simp [hvtx])).total
  have hsplit : minting (cb :: cs :: rest) = cb :: cs :: minting rest := by
    simp [minting, hcb, hst]
  rw [hvtx, hsplit, hnone, totalOut_cons, totalOut_cons, totalOut_nil, hzero]
  omega

/--
**No inflation, where the schedule is compared at all.** An accepted block that is
proof-of-stake, or that pays no fees and whose minting transactions stay within the
range of the counter, creates at most the scheduled subsidy.
-/
theorem connectBlock_netCreated_le {R : Rules} {P : CChainParams} {env : LocalState}
    {tip : TipView} {prev : CBlockIndex} {rest : List CBlockIndex} {block : CBlock}
    {view : CCoinsView} {res : Connected} (hv : view.WF)
    (hg : R.getHash block.toCBlockHeader ≠ P.hashGenesisBlock)
    (h : connectBlock R P env tip (prev :: rest) block view = .ok res)
    (he : ScheduleEnforced P env tip block)
    (hkind : block.isProofOfStake = true ∨
      (totalFees block.vtx ([] :: res.vtxundo) = 0 ∧ totalOut (minting block.vtx) < 2 ^ 63)) :
    netCreated block res.vtxundo ≤ getBlockValue prev.nHeight := by
  obtain ⟨prev', rest', undos, hp, hb⟩ := connectBlock_ok hv hg h
  obtain ⟨rfl, rfl⟩ := List.cons.inj hp
  obtain ⟨hsub0, hsub1⟩ := getBlockValue_range prev.nHeight
  have hM := P.nMaxMoneyOut_range.2
  unfold COIN at hM hsub1
  -- the counter of the block cannot exceed the range
  have hnet : netCreated block res.vtxundo < 2 ^ 63 := by
    have hle := net_le_minting hb.flow
    rw [hb.spent] at hle
    unfold netCreated
    rcases hkind with hpos | ⟨_, hlt⟩
    · have := hb.checked.minting_le hpos
      omega
    · omega
  -- the comparison is with the subsidy
  have hexp : expectedMint prev block (totalFees block.vtx undos) = getBlockValue prev.nHeight := by
    unfold expectedMint
    rcases hkind with hpos | ⟨hfee, _⟩
    · simp [CBlock.isProofOfWork, hpos]
    · have hund : undos = [] :: res.vtxundo := by
        obtain ⟨cb, vtx, hvtx, hcb, _⟩ := hb.checked.coinbase
        have hf := hb.flow
        rw [hvtx] at hf
        rw [hb.vtxundo]
        cases hf with
        | cons hcbf _ => rw [hcbf.coinbase hcb]; rfl
      rw [hund, hfee, Int.add_zero, wrap64_of_range (by omega) (by omega)]
      simp
  have hval := isBlockValueValid_le he hb.value
  rw [hexp, hb.mint] at hval
  by_cases hlow : -(2 ^ 63) ≤ netCreated block res.vtxundo
  · rwa [wrap64_of_range hlow hnet] at hval
  · omega

/-- The payments that finalized budgets have due at a height, on a budget payment block. -/
def budgetDue (env : LocalState) (nBlockHeight : Int) : Int :=
  if env.isBudgetPaymentBlock nBlockHeight then
    ((env.mapFinalizedBudgets.filter fun b => b.covers nBlockHeight).map fun b =>
      ((b.vecBudgetPayments[(nBlockHeight - b.nBlockStart).toNat]?).map
        CTxBudgetPayment.nAmount).getD 0).sum
  else 0

/-- A proof-of-work block whose coinbase pays `nValue`. -/
def payingBlock (nValue : Int) : CBlock where
  nVersion := 3
  hashPrevBlock := 1
  hashMerkleRoot := 9
  nTime := 1600000000
  nBits := 0x1e0ffff0
  nNonce := 2
  vtx := [{ hash := 9, vin := [⟨COutPoint.null, [1, 2], 0⟩], vout := [⟨nValue, [0x51], -10⟩] }]

/-- The bound is met, and met exactly: a synced node accepts a block that mints the subsidy. -/
theorem connectBlock_netCreated_le_subsidy : ∃ res,
    connectBlock Rules.transparent mainParams (LocalState.bare 1600000100 true false)
      ⟨some (1, 299), fun _ => none⟩ [{ phashBlock := 1, nHeight := 299 }]
      (payingBlock (10 * COIN)) (fun _ => none) = .ok res ∧
    netCreated (payingBlock (10 * COIN)) res.vtxundo ≤ getBlockValue 299 := by
  have hrun : ((connectBlock Rules.transparent mainParams (LocalState.bare 1600000100 true false)
      ⟨some (1, 299), fun _ => none⟩ [{ phashBlock := 1, nHeight := 299 }]
      (payingBlock (10 * COIN)) (fun _ => none)).toOption.map fun r => r.vtxundo) = some [] := by
    decide
  cases hc : connectBlock Rules.transparent mainParams (LocalState.bare 1600000100 true false)
      ⟨some (1, 299), fun _ => none⟩ [{ phashBlock := 1, nHeight := 299 }]
      (payingBlock (10 * COIN)) (fun _ => none) with
  | error e => rw [hc] at hrun; simp [Except.toOption] at hrun
  | ok res =>
    rw [hc] at hrun
    simp only [Except.toOption, Option.map_some, Option.some.injEq] at hrun
    refine ⟨res, rfl, connectBlock_netCreated_le CCoinsView.WF.empty (by decide) hc
      ⟨_, rfl, by decide⟩ (Or.inr ?_)⟩
    rw [hrun]
    decide

/-- **A node that is not synced accepts any amount** in the first blocks of a budget cycle. -/
theorem connectBlock_exceeds_schedule :
    ¬ ∀ (R : Rules) (P : CChainParams) (env : LocalState) (tip : TipView) (prev : CBlockIndex)
        (rest : List CBlockIndex) (block : CBlock) (view : CCoinsView) (res : Connected), view.WF →
      R.getHash block.toCBlockHeader ≠ P.hashGenesisBlock →
      connectBlock R P env tip (prev :: rest) block view = .ok res →
      netCreated block res.vtxundo ≤
        getBlockValue prev.nHeight + budgetDue env (prev.nHeight + 1) := by
  intro hall
  have hrun : ((connectBlock Rules.transparent mainParams (LocalState.bare 1600000100 false true)
      ⟨some (1, 49), fun _ => none⟩ [{ phashBlock := 1, nHeight := 49 }]
      (payingBlock (1000000 * COIN)) (fun _ => none)).toOption.map fun r =>
        netCreated (payingBlock (1000000 * COIN)) r.vtxundo) = some (1000000 * COIN) := by decide
  cases hc : connectBlock Rules.transparent mainParams (LocalState.bare 1600000100 false true)
      ⟨some (1, 49), fun _ => none⟩ [{ phashBlock := 1, nHeight := 49 }]
      (payingBlock (1000000 * COIN)) (fun _ => none) with
  | error e => rw [hc] at hrun; simp [Except.toOption] at hrun
  | ok res =>
    rw [hc] at hrun
    simp only [Except.toOption, Option.map_some, Option.some.injEq] at hrun
    have hle := hall _ _ _ _ _ _ _ _ _ CCoinsView.WF.empty (by decide) hc
    rw [hrun] at hle
    exact absurd hle (by decide)

end BitBlocks
