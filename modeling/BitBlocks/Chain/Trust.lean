import BitBlocks.Chain.Restart
import BitBlocks.Stake.Target

/-!
# The trust of a chain

`bnChainTrust` adds up what `GetBlockTrust` says of each block. For a proof-of-stake block that
is the quotient of a number that does not fit in 256 bits, which is zero there: such a block adds
nothing. A proof-of-work block adds one at least, and the sum wraps at 256 bits, which takes two
million blocks of the smallest target.
-/

namespace BitBlocks

variable {R : Rules} {P : CChainParams} {tree : BlockTree} {α σ : Type} [DecidableEq α]

namespace EntryData

/-- What a proof-of-work block of this target adds. -/
def powTrust (bnTarget : Nat) : Nat := max 1 ((2 ^ 256 - 1) / 2 ^ 20 / (bnTarget + 1))

theorem one_le_powTrust (bnTarget : Nat) : 1 ≤ powTrust bnTarget := le_max_left _ _

theorem getBlockTrust_stake {e : EntryData} (h : e.fProofOfStake = true) : e.getBlockTrust = 0 := by
  unfold getBlockTrust
  dsimp only
  rw [h, if_pos rfl, Nat.mod_self, Nat.zero_div, ite_self]

theorem getBlockTrust_work {e : EntryData} (h : e.fProofOfStake = false)
    (hpos : 0 < setCompact e.nBits) (hlt : setCompact e.nBits + 1 < 2 ^ 256) :
    e.getBlockTrust = powTrust (setCompact e.nBits) := by
  unfold getBlockTrust powTrust
  dsimp only
  rw [if_neg (Nat.not_le_of_lt hpos), h, if_neg (by simp), Nat.mod_eq_of_lt hlt]
  generalize (2 ^ 256 - 1) / 2 ^ 20 / (setCompact e.nBits + 1) = bnPoWTrust
  split
  · rename_i hone
    exact (max_eq_right (Nat.le_of_lt hone)).symm
  · rename_i hone
    exact (max_eq_left (Nat.le_of_not_lt hone)).symm

theorem lt_add_mod_iff {bnTrust bnAdded : Nat} (htrust : bnTrust < 2 ^ 256)
    (hadded : bnAdded < 2 ^ 256) (hone : 1 ≤ bnAdded) :
    bnTrust < (bnTrust + bnAdded) % 2 ^ 256 ↔ bnTrust + bnAdded < 2 ^ 256 := by
  omega

/-- The target is one that difficulty rules allow. -/
def HasTarget (W : WorkParams) (pindex : EntryData) : Prop :=
  0 < setCompact pindex.nBits ∧ setCompact pindex.nBits ≤ W.bnProofOfWorkLimit

instance (W : WorkParams) (pindex : EntryData) : Decidable (HasTarget W pindex) :=
  inferInstanceAs (Decidable (_ ∧ _))

/-- A proof-of-work block, and room for its trust on top of that of its parent. -/
structure AddsTrust (pprev pindex : EntryData) : Prop where
  work : pindex.fProofOfStake = false
  fits : pprev.bnChainTrust + powTrust (setCompact pindex.nBits) < 2 ^ 256

end EntryData

namespace IndexRight

open IndexState EntryData

variable {B : IndexedTree R P tree α} {s : IndexState α σ} {a b : α} {W : WorkParams}

section

omit [DecidableEq α]

theorem getBlockTrust_eq (h : IndexRight B s) (hb : b ∈ s.node.mapBlockIndex) :
    (s.entry b).getBlockTrust = B.blockTrust b := by
  have hright := h.entries b hb
  refine getBlockTrust_congr ?_ ?_
  · rw [hright.bits]
    exact (EntryRight.ofBlock B b).2.2.2.2.2.2.2.1.symm
  · rw [hright.stake, ofBlock_fProofOfStake]

theorem bnChainTrust_eq (h : IndexRight B s) (hb : b ∈ s.node.mapBlockIndex)
    (hp : B.parent b = some a) : (s.entry b).bnChainTrust =
      ((s.entry a).bnChainTrust + (s.entry b).getBlockTrust) % 2 ^ 256 := by
  have ha := h.counted.parent b hb a hp
  rw [(h.entries b hb).trust, IndexedTree.chainTrust_parent hp, (h.entries a ha).trust,
    h.getBlockTrust_eq hb]

theorem grows_iff (h : IndexRight B s) (hW : W.bnProofOfWorkLimit + 1 < 2 ^ 256)
    (hb : b ∈ s.node.mapBlockIndex) (hp : B.parent b = some a)
    (htarget : HasTarget W (s.entry b)) :
    (1 ≤ (s.entry b).getBlockTrust ∧ (s.entry a).bnChainTrust < (s.entry b).bnChainTrust) ↔
      AddsTrust (s.entry a) (s.entry b) := by
  obtain ⟨hpos, hlimit⟩ := htarget
  have hsum := h.bnChainTrust_eq hb hp
  have hlt : (s.entry b).getBlockTrust < 2 ^ 256 := getBlockTrust_lt _
  have hparent : (s.entry a).bnChainTrust < 2 ^ 256 := by
    rw [(h.entries a (h.counted.parent b hb a hp)).trust]
    exact Nat.mod_lt _ (by norm_num)
  cases hstake : (s.entry b).fProofOfStake with
  | true =>
    rw [getBlockTrust_stake hstake]
    refine ⟨fun hle => absurd hle.1 (Nat.not_succ_le_zero 0), fun hadds => ?_⟩
    rw [hadds.work] at hstake
    exact absurd hstake (by simp)
  | false =>
    have htrust := getBlockTrust_work hstake hpos (Nat.lt_of_le_of_lt (Nat.succ_le_succ hlimit) hW)
    have hone := one_le_powTrust (setCompact (s.entry b).nBits)
    rw [htrust] at hsum hlt ⊢
    rw [hsum, and_iff_right hone, lt_add_mod_iff hparent hlt hone]
    exact ⟨fun hfits => ⟨hstake, hfits⟩, AddsTrust.fits⟩

end

end IndexRight

open IndexState EntryData in
/--
**When the trust of a chain grows.** In every index that blocks lead to, a block with an allowed
target has trust, and adds to that of its parent, just if it is a proof-of-work block whose trust
still fits; and where all blocks on the way do, a block has more trust than any ancestor.
-/
theorem trust_grows_iff {B : IndexedTree R P tree α} {H : ChecksumHash} {s : IndexState α σ}
    {nMax : Int} {W : WorkParams} (hW : W.bnProofOfWorkLimit + 1 < 2 ^ 256)
    (h : Reached B H nMax s) :
    (∀ b ∈ s.node.mapBlockIndex, ∀ a, B.parent b = some a → HasTarget W (s.entry b) →
      ((1 ≤ (s.entry b).getBlockTrust ∧ (s.entry a).bnChainTrust < (s.entry b).bnChainTrust) ↔
        AddsTrust (s.entry a) (s.entry b))) ∧
    ∀ b ∈ s.node.mapBlockIndex, ∀ c ∈ B.branch b, c ≠ b →
      (∀ d ∈ B.branch b, B.depth c < B.depth d → ∀ a, B.parent d = some a →
        HasTarget W (s.entry d) ∧ AddsTrust (s.entry a) (s.entry d)) →
      (s.entry c).bnChainTrust < (s.entry b).bnChainTrust := by
  have hright := IndexRight.reached h
  refine ⟨fun b hb a hp htarget => hright.grows_iff hW hb hp htarget, fun b => ?_⟩
  induction b using ParentTree.branch_induction (T := B.toParentTree) with
  | hroot =>
    intro _ c hc hne
    rw [ParentTree.branch_root, List.mem_singleton] at hc
    exact absurd hc hne
  | hchild b a hp ih =>
    intro hb c hc hne hall
    have ha := hright.counted.parent b hb a hp
    have hca : c ∈ B.branch a := ((ParentTree.mem_branch_parent hp).mp hc).resolve_left hne
    have hdepth : B.depth c < B.depth b := (ParentTree.depth_le_of_mem hc).resolve_left hne
    obtain ⟨htarget, hadds⟩ := hall b (ParentTree.self_mem_branch b) hdepth a hp
    have hstep := ((hright.grows_iff hW hb hp htarget).mpr hadds).2
    by_cases heq : c = a
    · rw [heq]
      exact hstep
    · refine Nat.lt_trans (ih ha c hca heq fun d hd hlt => ?_) hstep
      exact hall d ((ParentTree.mem_branch_parent hp).mpr (Or.inr hd)) hlt

/-! ### A first block of either kind -/

namespace Fork

open EntryData IndexState

theorem addsTrust_first : HasTarget mainWork (oneBlock.entry first) ∧
    AddsTrust (oneBlock.entry genesis) (oneBlock.entry first) :=
  ⟨by decide, by decide, by decide⟩

/-- The first block is a proof-of-stake block. -/
def firstStaked : Fork → List CTransaction
  | .first => [{ minedCoinbase 1 with vout := [⟨0, [], -10⟩] },
      { hash := 2000, vin := [⟨⟨1001, 0⟩, [0x51], 0⟩],
        vout := [⟨0, [], -10⟩, ⟨COIN, [0x51], -10⟩] }]
  | b => [minedCoinbase b.number]

def stakedIndexed :
    IndexedTree Rules.transparent mainParams (Fork.tree false firstStaked) Fork where
  toBlockMap := { blockMap false firstStaked with
    nChainWork := work
    nTx := fun b => (firstStaked b).length
    nTx_pos := fun b => by cases b <;> decide }
  hash_ne_zero := hash_ne_zero
  hashPrevBlock_root := rfl
  nTx_block := fun b => by cases b <;> rfl
  nChainWork_block := work_fork _

def oneStake : IndexState Fork Unit :=
  (IndexState.genesis stakedIndexed sumHash () noInput).acceptBlock stakedIndexed sumHash 100
    (Node.passRules _ _) first noInput

theorem reached_oneStake : Reached stakedIndexed sumHash 100 oneStake :=
  .accept _ _ _ (.genesis () noInput)

end Fork

open EntryData in
/-- A first proof-of-work block. -/
theorem trust_grows_work : 1 ≤ (Fork.oneBlock.entry .first).getBlockTrust ∧
      (Fork.oneBlock.entry .genesis).bnChainTrust < (Fork.oneBlock.entry .first).bnChainTrust :=
  ((trust_grows_iff (W := mainWork) (by decide) Fork.reached_oneBlock).1 .first (by decide) .genesis
    rfl Fork.addsTrust_first.1).mpr Fork.addsTrust_first.2

open EntryData in
/-- A first proof-of-stake block has an allowed target, and no trust. -/
theorem stake_adds_nothing : IndexState.Reached Fork.stakedIndexed Fork.sumHash 100 Fork.oneStake ∧
      Fork.first ∈ Fork.oneStake.node.mapBlockIndex ∧
      HasTarget mainWork (Fork.oneStake.entry .first) ∧
      (Fork.oneStake.entry .first).getBlockTrust = 0 ∧
      (Fork.oneStake.entry .first).bnChainTrust = (Fork.oneStake.entry .genesis).bnChainTrust := by
  refine ⟨Fork.reached_oneStake, ?_⟩
  decide

end BitBlocks
