import BitBlocks.Arith.Compact
import BitBlocks.Stake.Target

/-!
# Retargeting after a stall

Past the phase of work, the next target is the last one times the last spacing, averaged over
forty of them. A slower block should make the next one easier. The factor is cut to 32 bits
and the product to 256 of them, so after a long stall the target can fall instead; and a
target so small that the quotient is zero is replaced by the limit. Without either, and that
is a matter of the last target and the spacing alone, a slower block never makes the next
one harder.
-/

namespace BitBlocks

/-- `~uint256(0) >> 24`. -/
def bnTargetLimit : Nat := 2 ^ 232 - 1

/-- `(nInterval - 1) * nTargetSpacing + nActualSpacing + nActualSpacing`. -/
def spacingFactor (nActualSpacing : Nat) : Nat := 39 * 60 + nActualSpacing + nActualSpacing

/-- `(nInterval + 1) * nTargetSpacing`. -/
def spacingDivisor : Nat := 41 * 60

/-- What is encoded: `bnNew`, or the limit. -/
def clampTarget (bnNew : Nat) : Nat :=
  if bnNew ≤ 0 ∨ bnNew > bnTargetLimit then bnTargetLimit else bnNew

/-- A branch whose last block has a time. -/
def spacedBranch (pindexLast prev : CBlockIndex) (pprev : List CBlockIndex) (nSpacing : Nat) :
    List CBlockIndex :=
  { pindexLast with nTime := prev.nTime + nSpacing } :: prev :: pprev

/-! ## The target for a spacing -/

theorem clampTarget_pos (bnNew : Nat) : 0 < clampTarget bnNew := by
  unfold clampTarget
  split
  · decide
  · omega

theorem clampTarget_le (bnNew : Nat) : clampTarget bnNew ≤ bnTargetLimit := by
  unfold clampTarget
  split
  · exact Nat.le_refl _
  · omega

theorem clampTarget_mono {q q' : Nat} (hq : 0 < q) (h : q ≤ q') :
    clampTarget q ≤ clampTarget q' := by
  unfold clampTarget
  split <;> split <;> omega

theorem compactValue_getCompact_pos {n : Nat} (hn : 0 < n) :
    0 < compactValue (getCompact n false) := by
  have herror := compactValue_getCompact_error hn
  omega

theorem mulWord_eq_iff {t m : Nat} (ht : 0 < t) :
    mulWord t (m : Int) = (t * m : Nat) ↔ m < 2 ^ 32 ∧ t * m < 2 ^ 256 := by
  have hfactor : ((m : Int) % 2 ^ 32).toNat = m % 2 ^ 32 := by omega
  unfold mulWord
  rw [hfactor]
  constructor
  · intro h
    have hle : t * m ≤ t * (m % 2 ^ 32) := by
      calc t * m = t * (m % 2 ^ 32) % 2 ^ 256 := h.symm
        _ ≤ t * (m % 2 ^ 32) := Nat.mod_le _ _
    have hsmall : m ≤ m % 2 ^ 32 := Nat.le_of_mul_le_mul_left hle ht
    have hm : m < 2 ^ 32 := Nat.lt_of_le_of_lt hsmall (Nat.mod_lt m (by decide))
    refine ⟨hm, ?_⟩
    calc t * m = t * (m % 2 ^ 32) % 2 ^ 256 := h.symm
      _ < 2 ^ 256 := Nat.mod_lt _ (by decide)
  · rintro ⟨hm, hprod⟩
    rw [Nat.mod_eq_of_lt hm]
    exact Nat.mod_eq_of_lt hprod

section

variable {P : CChainParams} {W : WorkParams} {pindexLast prev : CBlockIndex}
  {pprev : List CBlockIndex}

/-- **`GetNextWorkRequired` past the phase of work**, for a spacing. -/
theorem getNextWorkRequired_spaced (hspan : W.nTargetTimespan = 60 * 40)
    (hspacing : W.nTargetSpacing = 1 * 60) (hmin : 24 ≤ pindexLast.nHeight)
    (hpow : P.nLastPOWBlock < pindexLast.nHeight) (s : Nat) :
    getNextWorkRequired P W (spacedBranch pindexLast prev pprev s) = getCompact (clampTarget
        (mulWord (setCompact pindexLast.nBits) (spacingFactor s : Nat) / spacingDivisor))
          false := by
  have hgap : ((prev.nTime + s : Nat) : Int) - prev.nTime = s := by omega
  have hnonneg : ¬ (s : Int) < 0 := by omega
  have hinterval : (60 * 40 : Int).tdiv (1 * 60) = 40 := by decide
  have hfactor : (40 - 1) * (1 * 60) + (s : Int) + s = (spacingFactor s : Nat) := by
    unfold spacingFactor
    omega
  have hdivisor : ((40 + 1) * (1 * 60) : Int) = (spacingDivisor : Nat) := rfl
  simp only [getNextWorkRequired, spacedBranch, if_neg (Int.not_lt.mpr hmin), gt_iff_lt,
    if_pos hpow, stakeTarget, CBlockIndex.getBlockTime, hgap, if_neg hnonneg, hspan, hspacing,
    hinterval, hfactor, hdivisor]
  rfl

/-- The target that the next block has to meet. -/
def nextTarget (P : CChainParams) (W : WorkParams) (pindexLast prev : CBlockIndex)
    (pprev : List CBlockIndex) (nSpacing : Nat) : Nat :=
  setCompact (getNextWorkRequired P W (spacedBranch pindexLast prev pprev nSpacing))

theorem nextTarget_eq (hspan : W.nTargetTimespan = 60 * 40) (hspacing : W.nTargetSpacing = 1 * 60)
    (hmin : 24 ≤ pindexLast.nHeight) (hpow : P.nLastPOWBlock < pindexLast.nHeight) (s : Nat) :
    nextTarget P W pindexLast prev pprev s = compactValue (getCompact (clampTarget
      (mulWord (setCompact pindexLast.nBits) (spacingFactor s : Nat) / spacingDivisor)) false) := by
  have hfits : clampTarget (mulWord (setCompact pindexLast.nBits) (spacingFactor s : Nat) /
      spacingDivisor) < 2 ^ 256 := Nat.lt_of_le_of_lt (clampTarget_le _) (by decide)
  rw [nextTarget, getNextWorkRequired_spaced hspan hspacing hmin hpow, setCompact_getCompact hfits]

/-- **In range**, whether something wraps or not. -/
theorem nextTarget_range (hspan : W.nTargetTimespan = 60 * 40)
    (hspacing : W.nTargetSpacing = 1 * 60) (hmin : 24 ≤ pindexLast.nHeight)
    (hpow : P.nLastPOWBlock < pindexLast.nHeight) (s : Nat) :
    0 < nextTarget P W pindexLast prev pprev s ∧
      nextTarget P W pindexLast prev pprev s ≤ bnTargetLimit := by
  rw [nextTarget_eq hspan hspacing hmin hpow]
  exact ⟨compactValue_getCompact_pos (clampTarget_pos _),
    Nat.le_trans (compactValue_getCompact_le _) (clampTarget_le _)⟩

theorem small_target_lt {q : Nat} (hpos : 0 < q) (hq : q < 2 ^ 32) :
    compactValue (getCompact (clampTarget q) false) <
      compactValue (getCompact (clampTarget 0) false) := by
  have hlimit : compactValue (getCompact (clampTarget 0) false) = 65535 * 2 ^ 216 := by decide
  have hclamp : clampTarget q = q := by
    have hsmall : ¬ (q ≤ 0 ∨ q > bnTargetLimit) := by
      unfold bnTargetLimit
      omega
    exact if_neg hsmall
  have hle := compactValue_getCompact_le (clampTarget q)
  rw [hclamp] at hle ⊢
  rw [hlimit]
  omega

/--
**A slower block makes the next one no harder iff nothing wraps and no quotient is cut to
zero.** For two spacings: the targets are in order and in range, and neither the factor nor
the product wraps, if and only if the factor of the longer one has 32 bits, its product with
the last target 256, and the quotients of both are zero or of neither.
-/
theorem retarget_iff (hspan : W.nTargetTimespan = 60 * 40) (hspacing : W.nTargetSpacing = 1 * 60)
    (hmin : 24 ≤ pindexLast.nHeight) (hpow : P.nLastPOWBlock < pindexLast.nHeight)
    (ht : 0 < setCompact pindexLast.nBits) {a b : Nat} (hab : a ≤ b) :
    (nextTarget P W pindexLast prev pprev a ≤ nextTarget P W pindexLast prev pprev b ∧
      (∀ s, s = a ∨ s = b → 0 < nextTarget P W pindexLast prev pprev s ∧
        nextTarget P W pindexLast prev pprev s ≤ bnTargetLimit ∧
        mulWord (setCompact pindexLast.nBits) (spacingFactor s : Nat) =
          (setCompact pindexLast.nBits * spacingFactor s : Nat))) ↔
    spacingFactor b < 2 ^ 32 ∧ setCompact pindexLast.nBits * spacingFactor b < 2 ^ 256 ∧
      (setCompact pindexLast.nBits * spacingFactor b < spacingDivisor ∨
        spacingDivisor ≤ setCompact pindexLast.nBits * spacingFactor a) := by
  have hrange := @nextTarget_range P W pindexLast prev pprev hspan hspacing hmin hpow
  have hfactor : spacingFactor a ≤ spacingFactor b := by
    unfold spacingFactor
    omega
  rw [nextTarget_eq hspan hspacing hmin hpow, nextTarget_eq hspan hspacing hmin hpow]
  generalize setCompact pindexLast.nBits = t at ht ⊢
  have hprod : t * spacingFactor a ≤ t * spacingFactor b := Nat.mul_le_mul_left t hfactor
  constructor
  · rintro ⟨hle, hs⟩
    have ha := (hs a (Or.inl rfl)).2.2
    have hb := (hs b (Or.inr rfl)).2.2
    obtain ⟨hword, hfits⟩ := (mulWord_eq_iff ht).mp hb
    refine ⟨hword, hfits, ?_⟩
    by_contra hcut
    rw [not_or, Nat.not_lt, Nat.not_le] at hcut
    -- the shorter spacing gets the limit
    have hzero : t * spacingFactor a / spacingDivisor = 0 := Nat.div_eq_of_lt hcut.2
    have hpos : 0 < t * spacingFactor b / spacingDivisor := Nat.div_pos hcut.1 (by decide)
    have hone : t = 1 := by
      have hlow : t * 2340 ≤ t * spacingFactor a :=
        Nat.mul_le_mul_left t (by unfold spacingFactor; omega)
      have hhigh : t * spacingFactor a < 2460 := hcut.2
      have ht' : (0 : Nat) < t := ht
      exact Nat.le_antisymm (Nat.lt_succ_iff.mp (Nat.lt_of_mul_lt_mul_right
        (Nat.lt_of_le_of_lt hlow (Nat.lt_trans hhigh (by decide : 2460 < 2 * 2340))))) ht'
    have hsmall : t * spacingFactor b / spacingDivisor < 2 ^ 32 := by
      rw [hone, Nat.one_mul]
      exact Nat.lt_of_le_of_lt (Nat.div_le_self _ _) hword
    rw [ha, hb, hzero] at hle
    exact absurd hle (Nat.not_le.mpr (small_target_lt hpos hsmall))
  · rintro ⟨hword, hfits, hcut⟩
    have hb := (mulWord_eq_iff ht).mpr ⟨hword, hfits⟩
    have ha := (mulWord_eq_iff ht).mpr
      ⟨Nat.lt_of_le_of_lt hfactor hword, Nat.lt_of_le_of_lt hprod hfits⟩
    constructor
    · rw [ha, hb]
      rcases hcut with hzero | hpos
      · rw [Nat.div_eq_of_lt hzero, Nat.div_eq_of_lt (Nat.lt_of_le_of_lt hprod hzero)]
      · exact compactValue_getCompact_mono
          (clampTarget_mono (Nat.div_pos hpos (by decide)) (Nat.div_le_div_right hprod))
    · rintro s (rfl | rfl)
      · exact ⟨(hrange s).1, (hrange s).2, ha⟩
      · exact ⟨(hrange s).1, (hrange s).2, hb⟩

end

/-- The last two blocks of a branch on the main network, at the limit. -/
def stalledLast : CBlockIndex := { phashBlock := 2, nHeight := 4000001, nBits := 0x1e00ffff }

def stalledPrev : CBlockIndex :=
  { phashBlock := 1, nHeight := 4000000, nTime := 1600000000, nBits := 0x1e00ffff }

/-- Spacings of one and of two minutes. -/
theorem retarget_iff_minutes : nextTarget mainParams mainWork stalledLast stalledPrev [] 60 ≤
      nextTarget mainParams mainWork stalledLast stalledPrev [] 120 :=
  ((@retarget_iff mainParams mainWork stalledLast stalledPrev [] rfl rfl (by decide) (by decide)
    (by decide) 60 120 (by decide)).mpr (by decide)).1

/-- After 97 days the product wraps, and the next block is much harder to find. -/
theorem retarget_stalled :
    24 ≤ stalledLast.nHeight ∧ mainParams.nLastPOWBlock < stalledLast.nHeight ∧
    stalledPrev.nTime + 8387567 < 2 ^ 32 ∧ 0 < setCompact stalledLast.nBits ∧
    setCompact stalledLast.nBits ≤ bnTargetLimit ∧
    nextTarget mainParams mainWork stalledLast stalledPrev [] 8387567 <
      nextTarget mainParams mainWork stalledLast stalledPrev [] 60 := by
  decide

end BitBlocks
