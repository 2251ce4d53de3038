import BitBlocks.Chain.Maturity

/-!
# The money supply and the coins

Along a chain the total of the coins moves, block by block, by what the block
creates less what it drops, and `nMoneySupply` moves by what it creates, modulo
`2 ^ 64`. So the two never part except by wrapping: the supply of the tip *shows*
the total (`moneySupply_wraps`), and is the total as long as that fits
(`moneySupply_eq_iff`). A reorganisation changes nothing about this, because a flag
that was lost is not a value.
-/

namespace BitBlocks

open CCoinsView Wrap

variable {R : Rules} {P : CChainParams} {tree : BlockTree}

/-- The value of the outputs that transactions of the chain above genesis dropped. -/
def chainDropped (tree : BlockTree) (chain : List CBlockIndex) : Int :=
  (chain.dropLast.map fun l => totalDropped (tree l.phashBlock).vtx).sum

@[simp] theorem chainDropped_cons (l prev : CBlockIndex) (rest : List CBlockIndex) :
    chainDropped tree (l :: prev :: rest)
      = totalDropped (tree l.phashBlock).vtx + chainDropped tree (prev :: rest) := by
  simp [chainDropped, List.dropLast]

theorem valueDropped_nonneg {tx : CTransaction} (h : tx.OutputsNonneg) : 0 ≤ valueDropped tx := by
  refine List.sum_nonneg fun x hx => ?_
  obtain ⟨o, ho, rfl⟩ := List.mem_map.mp hx
  exact h o (List.mem_filter.mp ho).1

variable {vtx : List CTransaction} {v v' : CCoinsView} {rest : List CBlockIndex}

theorem totalDropped_nonneg (h : ∀ tx ∈ vtx, tx.OutputsNonneg) : 0 ≤ totalDropped vtx := by
  refine List.sum_nonneg fun x hx => ?_
  obtain ⟨tx, htx, rfl⟩ := List.mem_map.mp hx
  exact valueDropped_nonneg (h tx htx)

/-- Every stored output is null or worth something. -/
def NonnegCoins (v : CCoinsView) : Prop :=
  ∀ k i, (v.get k).out i = CTxOut.null ∨ 0 ≤ ((v.get k).out i).nValue

theorem NonnegCoins.value (h : NonnegCoins v) : 0 ≤ v.value := by
  refine finsum_nonneg fun k => List.sum_nonneg fun x hx => ?_
  obtain ⟨o, ho, rfl⟩ := List.mem_map.mp hx
  obtain ⟨i, hi, rfl⟩ := List.mem_iff_getElem.mp ho
  have hout := h k i
  rw [CCoins.out, List.getD_eq_getElem _ _ hi] at hout
  rcases hout with hnull | hpos
  · rw [hnull]; simp
  · split
    · exact Int.le_refl 0
    · exact hpos

theorem nonnegCoins_connectTxs {nHeight : Int} {undos : List (List CTxInUndo)}
    (hr : LoopReady v vtx) (h : connectTxs nHeight v vtx = some (v', undos)) (hn : NonnegCoins v) :
    NonnegCoins v' := by
  obtain ⟨hbl, _⟩ := connectTxs_blanked hr h
  intro k i
  rw [hbl.out]
  split
  · exact Or.inl rfl
  · by_cases hm : k ∈ vtx.map CTransaction.hash
    · obtain ⟨tx, htx, rfl⟩ := List.mem_map.mp hm
      have hnn := hr.nonneg tx htx
      rw [get_created_of_mem hr.nodup htx, CCoins.out_fromTx hnn]
      split
      · exact Or.inl rfl
      · rcases Nat.lt_or_ge i tx.vout.length with hi | hi
        · rw [List.getD_eq_getElem _ _ hi]
          exact Or.inr (hnn _ (List.getElem_mem hi))
        · exact Or.inl (List.getD_eq_default _ _ hi)
    · rw [get_created_of_notMem hm]
      exact hn k i

/-- What a chain's coins are worth, against the supply of its tip. -/
structure Worth (tree : BlockTree) (tip : CBlockIndex) (rest : List CBlockIndex)
    (v : CCoinsView) : Prop where
  finite : v.FiniteCoins
  coins : NonnegCoins v
  dropped : 0 ≤ chainDropped tree (tip :: rest)
  supply : tip.nMoneySupply = wrap64 (v.value + chainDropped tree (tip :: rest))

/-- **Each block moves the coins and the supply by the same amount.** -/
theorem Extends.worth {prev l : CBlockIndex} {U : List (List CTxInUndo)} (hf : tree.Faithful)
    (hx : Extends P tree prev l v v' U) (hw : Worth tree prev rest v) :
    Worth tree l (prev :: rest) v' := by
  obtain ⟨undos, hu, hr, rfl⟩ := hx.ready hf
  obtain ⟨hval, hfin⟩ := connectTxs_value hr hw.finite hu
  have hspent : totalSpent ([] :: U) = totalSpent U := by simp [valueSpent]
  refine ⟨hfin, nonnegCoins_connectTxs hr hu hw.coins, ?_, ?_⟩
  · have := totalDropped_nonneg hx.checked.nonneg
    have := hw.dropped
    rw [chainDropped_cons]
    omega
  · rw [hx.supply, hw.supply, wrap64_add_left, hval, hspent, chainDropped_cons]
    congr 1
    unfold netCreated
    omega

theorem Canon.worth (hf : tree.Faithful) : ∀ {tip : CBlockIndex} {rest : List CBlockIndex}
    {v : CCoinsView}, Canon P tree (tip :: rest) v → Worth tree tip rest v
  | _, _, _, .genesis =>
    { finite := finiteCoins_empty
      coins := fun _ _ => Or.inl rfl
      dropped := by simp [chainDropped]
      supply := by rw [value_empty]; rfl }
  | _, _, _, .extend hc hx => hx.worth hf (Canon.worth hf hc)

/-- **The supply of the tip shows the total of the coins**, modulo `2 ^ 64`. -/
theorem moneySupply_wraps {s : ChainState} {tip : CBlockIndex} (hf : tree.Faithful)
    (hr : Reachable R P tree BIP30Enforced s) (hs : s.chain = tip :: rest) :
    0 ≤ s.coins.value + chainDropped tree s.chain ∧
      tip.nMoneySupply = wrap64 (s.coins.value + chainDropped tree s.chain) := by
  have hr' : Reachable R P tree (Allowed false) s := by
    clear hs
    induction hr with
    | genesis => exact .genesis
    | move _ ha hm ih => exact .move ih ⟨ha, by simp⟩ hm
  obtain ⟨v, lost, hi⟩ := chainInv_reachable hf hr'
  have hcanon := hi.canon
  rw [hs] at hcanon ⊢
  have hw := hcanon.worth hf
  rw [hi.sim.value_eq]
  have := hw.coins.value
  have := hw.dropped
  exact ⟨by omega, hw.supply⟩

/--
**When the money supply equals the coins**: in every state a run reaches, exactly as
long as the total of the unspent and the dropped outputs fits into an `int64_t`.
-/
theorem moneySupply_eq_iff {s : ChainState} {tip : CBlockIndex} {rest : List CBlockIndex}
    (hf : tree.Faithful) (hr : Reachable R P tree BIP30Enforced s) (hs : s.chain = tip :: rest) :
    tip.nMoneySupply = s.coins.value + chainDropped tree s.chain ↔
      s.coins.value + chainDropped tree s.chain < 2 ^ 63 := by
  obtain ⟨hnn, hsupply⟩ := moneySupply_wraps hf hr hs
  rw [hsupply, wrap64_eq_self_iff]
  omega

/-- The equivalence, on the chain of the previous file at height 15. -/
theorem moneySupply_eq_iff_small : ∃ s tip rest,
    Reachable Rules.transparent mainParams sweptTree BIP30Enforced s ∧ s.chain = tip :: rest ∧
    tip.nMoneySupply = 150 * COIN ∧
    (tip.nMoneySupply = s.coins.value + chainDropped sweptTree s.chain ↔
      s.coins.value + chainDropped sweptTree s.chain < 2 ^ 63) := by
  have hrun : (moveTips Rules.transparent mainParams sweptTree
      (ChainState.genesis mainParams sweptTree) (connectUpTo unsynced 15)).map (fun s =>
        s.chain.head?.map CBlockIndex.nMoneySupply) = some (some (150 * COIN)) := by decide +kernel
  obtain ⟨s, hs, htip⟩ := Option.map_eq_some_iff.mp hrun
  obtain ⟨tip, hhead, hsupply⟩ := Option.map_eq_some_iff.mp htip
  obtain ⟨rest, hchain⟩ := List.head?_eq_some_iff.mp hhead
  have hr : Reachable Rules.transparent mainParams sweptTree BIP30Enforced s :=
    Reachable.run .genesis
      (fun m hm s => (show Allowed true s m from connectUpTo_allowed (by decide) hm s).1) hs
  exact ⟨s, tip, rest, hr, hchain, hsupply, moneySupply_eq_iff sweptTree_faithful hr hchain⟩

/-! ### A supply that wraps -/

/-- A synced node with superblocks enabled and one budget voted for blocks 1 to 158. -/
def superblockNode : LocalState :=
  { LocalState.bare 1600000000 true false with
    mapSporksActive :=
      fun nSporkID => if nSporkID = SPORK_13_ENABLE_SUPERBLOCKS then some 0 else none
    mapFinalizedBudgets := [⟨1, List.replicate 158 ⟨[0x51], COIN⟩, 1⟩] }

/-- 158 blocks whose coinbases pay the largest amount a transaction may. -/
def richBlocks : List CBlock := (List.range 158).map fun i =>
    minedBlock (i + 1) (if i = 0 then mainParams.hashGenesisBlock else i)
      [{ minedCoinbase (i + 1) with vout := [⟨mainParams.nMaxMoneyOut, [0x51], -10⟩] }]

def richTree : BlockTree := storedBlocks richBlocks

/-- **The supply of a chain can wrap**: here it is negative, and the coins are not. -/
theorem moneySupply_overflows :
    ¬ ∀ (R : Rules) (P : CChainParams) (tree : BlockTree) (s : ChainState) (tip : CBlockIndex)
        (rest : List CBlockIndex), tree.Faithful → Reachable R P tree (fun _ _ => True) s →
      s.chain = tip :: rest →
      tip.nMoneySupply = s.coins.value + chainDropped tree s.chain := by
  intro hall
  have hrun : (moveTips Rules.transparent mainParams richTree
      (ChainState.genesis mainParams richTree) (connectUpTo superblockNode 158)).map (fun s =>
        s.chain.head?.map CBlockIndex.nMoneySupply) =
      some (some (-9219544073709551616)) := by decide +kernel
  obtain ⟨s, hs, htip⟩ := Option.map_eq_some_iff.mp hrun
  obtain ⟨tip, hhead, hsupply⟩ := Option.map_eq_some_iff.mp htip
  obtain ⟨rest, hchain⟩ := List.head?_eq_some_iff.mp hhead
  have hf : richTree.Faithful := storedBlocks_faithful (by decide +kernel)
  have hr : Reachable Rules.transparent mainParams richTree BIP30Enforced s :=
    Reachable.run .genesis
      (fun m hm s => (show Allowed true s m from connectUpTo_allowed (by decide) hm s).1) hs
  have heq := hall _ _ _ s tip rest hf (Reachable.run .genesis (fun _ _ _ => trivial) hs) hchain
  obtain ⟨hnn, _⟩ := moneySupply_wraps hf hr hchain
  omega

end BitBlocks
