import BitBlocks.Stake.Kernel

/-!
# The target of a stake (`GetNextWorkRequired`, `stakeTargetHit`)

A stake hits if its hash is below the product of its weight and the target. The product
has 256 bits, the target up to 232 of them and the weight of a large amount 49: it wraps,
and a larger stake may miss where a smaller one hits. That does not happen just as long as
the largest weight there can be does not wrap.
-/

namespace BitBlocks

open Wrap

/-! ## Compact numbers -/

theorem setCompact_lt (nCompact : Nat) : setCompact nCompact < 2 ^ 256 := by
  unfold setCompact
  simp only
  split
  · exact Nat.lt_of_le_of_lt (Nat.div_le_self _ _) (by omega)
  · exact Nat.mod_lt _ (by decide)

/-! ## `GetNextWorkRequired` -/

/-- What the target rules read of the chain parameters. -/
structure WorkParams where
  bnProofOfWorkLimit : Uint256
  nTargetTimespan : Int
  nTargetSpacing : Int
  nTargetSpacingPOW : Int

/-- `CMainParams`. -/
def mainWork : WorkParams where
  bnProofOfWorkLimit := 2 ^ 236 - 1
  nTargetTimespan := 60 * 40
  nTargetSpacing := 1 * 60
  nTargetSpacingPOW := 1 * 30

/-- `operator*=`, whose factor is a `uint32_t`. -/
def mulWord (x : Uint256) (b : Int) : Uint256 := x * (b % 2 ^ 32).toNat % 2 ^ 256

/-- `operator/=`, whose divisor is made from a `uint64_t`. -/
def divWord (x : Uint256) (b : Int) : Uint256 := x / (b % 2 ^ 64).toNat

/-- The rule for stakes: exponential moving toward the target spacing. -/
def stakeTarget (W : WorkParams) (pindexLast : CBlockIndex) (pprev : List CBlockIndex) : Nat :=
  let bnTargetLimit : Uint256 := 2 ^ 232 - 1
  let nActualSpacing :=
    match pprev with
    | [] => 0
    | prev :: _ => pindexLast.getBlockTime - prev.getBlockTime
  let nActualSpacing := if nActualSpacing < 0 then 1 else nActualSpacing
  let nInterval := W.nTargetTimespan.tdiv W.nTargetSpacing
  let bnNew := mulWord (setCompact pindexLast.nBits)
    ((nInterval - 1) * W.nTargetSpacing + nActualSpacing + nActualSpacing)
  let bnNew := divWord bnNew ((nInterval + 1) * W.nTargetSpacing)
  getCompact (if bnNew ≤ 0 ∨ bnNew > bnTargetLimit then bnTargetLimit else bnNew) false

/-- The variables of the loop over the past blocks. -/
structure DarkGravity where
  nActualTimespan : Int := 0
  LastBlockTime : Int := 0
  CountBlocks : Nat := 0
  PastDifficultyAverage : Uint256 := 0

/-- One round; the average before it is the one of the last round. -/
def DarkGravity.round (st : DarkGravity) (BlockReading : CBlockIndex) : DarkGravity where
  CountBlocks := st.CountBlocks + 1
  PastDifficultyAverage :=
    if st.CountBlocks + 1 = 1 then setCompact BlockReading.nBits
    else
      (st.PastDifficultyAverage * (st.CountBlocks + 1) % 2 ^ 256 + setCompact BlockReading.nBits) %
        2 ^ 256 / (st.CountBlocks + 2)
  nActualTimespan :=
    if st.LastBlockTime > 0 then
      st.nActualTimespan + (st.LastBlockTime - BlockReading.getBlockTime)
    else st.nActualTimespan
  LastBlockTime := BlockReading.getBlockTime

/-- The loop, over as many past blocks as are left, and not over the genesis block. -/
def DarkGravity.loop : Nat → DarkGravity → List CBlockIndex → DarkGravity
  | 0, st, _ => st
  | _ + 1, st, [] => st
  | n + 1, st, BlockReading :: pprev =>
    if BlockReading.nHeight > 0 then loop n (st.round BlockReading) pprev else st

def workTarget (W : WorkParams) (pindexLast : List CBlockIndex) : Nat :=
  let st := DarkGravity.loop 24 {} pindexLast
  let nTargetTimespan := st.CountBlocks * W.nTargetSpacingPOW
  let nActualTimespan := max st.nActualTimespan (nTargetTimespan.tdiv 3)
  let nActualTimespan := min nActualTimespan (nTargetTimespan * 3)
  let bnNew := divWord (mulWord st.PastDifficultyAverage nActualTimespan) nTargetTimespan
  getCompact (min bnNew W.bnProofOfWorkLimit) false

/-- `GetNextWorkRequired`, given the branch; it does not read the new block. -/
def getNextWorkRequired (P : CChainParams) (W : WorkParams) (branch : List CBlockIndex) : Nat :=
  match branch with
  | [] => getCompact W.bnProofOfWorkLimit false
  | pindexLast :: pprev =>
    if pindexLast.nHeight < 24 then getCompact W.bnProofOfWorkLimit false
    else if pindexLast.nHeight > P.nLastPOWBlock then stakeTarget W pindexLast pprev
    else workTarget W branch

/-! ## Products that wrap -/

theorem stakeTargetHit_iff {hash : Uint256} {nValueIn : Int} {bnTarget : Uint256}
    (h : 0 ≤ nValueIn) (h' : nValueIn < 2 ^ 63) : stakeTargetHit hash nValueIn bnTarget = true ↔
      hash < nValueIn.toNat / 100 * bnTarget % 2 ^ 256 := by
  have hmod : nValueIn % 2 ^ 64 = nValueIn := Int.emod_eq_of_lt h (by omega)
  simp only [stakeTargetHit, hmod, decide_eq_true_eq]

/--
**A larger stake never hurts iff no stake wraps.** For every branch: whatever the hash and
the amounts, up to all the money there can be, an amount that is not smaller hits the
required target too, if and only if the largest weight times the target stays below
`2 ^ 256`.
-/
theorem largerStake_iff (P : CChainParams) (W : WorkParams) (branch : List CBlockIndex) :
    (∀ (hashProofOfStake : Uint256) (v₁ v₂ : Int), 0 ≤ v₁ → v₁ ≤ v₂ → v₂ ≤ P.nMaxMoneyOut →
      stakeTargetHit hashProofOfStake v₁ (setCompact (getNextWorkRequired P W branch)) = true →
      stakeTargetHit hashProofOfStake v₂ (setCompact (getNextWorkRequired P W branch)) = true) ↔
    P.nMaxMoneyOut.toNat / 100 * setCompact (getNextWorkRequired P W branch) < 2 ^ 256 := by
  generalize getNextWorkRequired P W branch = nBits
  obtain ⟨hnonneg, hmax⟩ := P.nMaxMoneyOut_range
  have hrange : P.nMaxMoneyOut < 2 ^ 63 := by
    rw [COIN] at hmax
    omega
  rw [← mulMod_mono_iff (setCompact_lt nBits)]
  constructor
  · intro h a b hab hb
    by_contra hlt
    -- the hash that only the smaller stake hits
    have h₁ :=
      h (b * setCompact nBits % 2 ^ 256) (100 * a) (100 * b) (by omega) (by omega) (by omega)
    rw [stakeTargetHit_iff (by omega) (by omega), stakeTargetHit_iff (by omega) (by omega)] at h₁
    have ha : (100 * a : Int).toNat / 100 = a := by omega
    have hb' : (100 * b : Int).toNat / 100 = b := by omega
    rw [ha, hb'] at h₁
    exact absurd (h₁ (Nat.not_le.mp hlt)) (Nat.lt_irrefl _)
  · intro h hash v₁ v₂ h₁ h₁₂ h₂ hhit
    rw [stakeTargetHit_iff h₁ (by omega)] at hhit
    rw [stakeTargetHit_iff (by omega) (by omega)]
    exact Nat.lt_of_lt_of_le hhit (h _ _ (Nat.div_le_div_right (by omega))
      (Nat.div_le_div_right (by omega)))

/-- Two stakes on the main network, ten thousand seconds apart: the target is at its limit. -/
def slowStakes : List CBlockIndex :=
  [{ phashBlock := 2, nHeight := 4000001, nTime := 1600010000, nBits := 0x1e00ffff },
    { phashBlock := 1, nHeight := 4000000, nTime := 1600000000, nBits := 0x1e00ffff }]

/-- Of two stakes of about 16.8 coins, the larger one misses. -/
theorem largerStake_misses : getNextWorkRequired mainParams mainWork slowStakes = 0x1e00ffff ∧
    stakeTargetHit (16777473 * (65535 * 2 ^ 216) - 2 ^ 256) 1677747200
      (setCompact (getNextWorkRequired mainParams mainWork slowStakes)) = true ∧
    stakeTargetHit (16777473 * (65535 * 2 ^ 216) - 2 ^ 256) 1677747300
      (setCompact (getNextWorkRequired mainParams mainWork slowStakes)) = false ∧
    (1677747300 : Int) ≤ mainParams.nMaxMoneyOut := by
  decide

end BitBlocks
