import BitBlocks.Primitives.PartialMerkle

/-!
# Merkle branches (`primitives/block.cpp`)

`BuildMerkleTree` puts all levels of the tree into one vector, the transactions first;
`GetMerkleBranch` picks from it what stands beside the way from a transaction to the root, and
`CheckMerkleBranch` goes that way again with nothing but what was picked. A root does not tell
where a level was filled up with its own last entry: two lists whose trees are equally high have
the same root only if one of them was filled up so by hand, and that is what is reported.
-/

namespace BitBlocks

open Pairing CPartialMerkleTree

variable (hash2 : Uint256 → Uint256 → Uint256)

/-! ## The tree as a vector -/

/-- A round of the inner loop of `BuildMerkleTree`, with `i` twice the number of rounds before. -/
def merklePair (j nSize : Nat) (s : List Uint256 × Bool) (k : Nat) : List Uint256 × Bool :=
  let i := 2 * k
  let i2 := min (i + 1) (nSize - 1)
  let left := s.1.getD (j + i) 0
  let right := s.1.getD (j + i2) 0
  -- two identical hashes at the end of the list at a particular level
  (s.1 ++ [hash2 left right], s.2 || (i2 == i + 1 && i2 + 1 == nSize && left == right))

/-- The loop over the levels; each is half as long, so the length of the first bounds the rounds. -/
def merkleLevels : Nat → Nat → Nat → List Uint256 × Bool → List Uint256 × Bool
  | 0, _, _, s => s
  | fuel + 1, nSize, j, s =>
    if nSize > 1 then
      merkleLevels fuel ((nSize + 1) / 2) (j + nSize)
        ((List.range ((nSize + 1) / 2)).foldl (merklePair hash2 j nSize) s)
    else s

/-- `vMerkleTree` after `BuildMerkleTree`, and what that reports in `fMutated`. -/
def CBlock.vMerkleTree (block : CBlock) : List Uint256 × Bool :=
  merkleLevels hash2 block.vtx.length block.vtx.length 0 (block.vtx.map CTransaction.hash, false)

def merkleBranchLoop (vMerkleTree : List Uint256) : Nat → Nat → Nat → Nat → List Uint256
  | 0, _, _, _ => []
  | fuel + 1, nSize, j, nIndex =>
    if nSize > 1 then
      let i := min (nIndex ^^^ 1) (nSize - 1)
      vMerkleTree.getD (j + i) 0 ::
        merkleBranchLoop vMerkleTree fuel ((nSize + 1) / 2) (j + nSize) (nIndex / 2)
    else []

/-- `GetMerkleBranch`, given what `vMerkleTree` holds at the time. -/
def CBlock.getMerkleBranch (block : CBlock) (vMerkleTree : List Uint256) (nIndex : Nat) :
    List Uint256 :=
  let vMerkleTree := if vMerkleTree.isEmpty then (block.vMerkleTree hash2).1 else vMerkleTree
  merkleBranchLoop vMerkleTree block.vtx.length block.vtx.length 0 nIndex

/-- `CBlock::CheckMerkleBranch`. -/
def checkMerkleBranch (hash2 : Uint256 → Uint256 → Uint256) (hash : Uint256)
    (vMerkleBranch : List Uint256) (nIndex : Int) : Uint256 :=
  if nIndex = -1 then 0
  else
    (vMerkleBranch.foldl (fun s x =>
      (if s.2 % 2 = 1 then hash2 x s.1 else hash2 s.1 x, s.2 / 2)) (hash, nIndex)).1

/-! ## The levels in the vector -/

variable {hash2}

/-- **The inner loop** adds the level above, entry by entry, and looks at the end of the level. -/
theorem foldl_merklePair {before level : List Uint256} (mutated : Bool) {k : Nat}
    (hk : k ≤ (level.length + 1) / 2) :
    ((List.range k).foldl (merklePair hash2 before.length level.length)
      (before ++ level, mutated)).1 = before ++ level ++ (pairUp hash2 level).take k ∧
    (((List.range k).foldl (merklePair hash2 before.length level.length)
      (before ++ level, mutated)).2 = true ↔ mutated = true ∨
        ∃ k' < k, 2 * k' + 2 = level.length ∧ level[2 * k']? = level[2 * k' + 1]?) := by
  induction k with
  | zero => simp
  | succ k ih =>
    obtain ⟨htree, hflag⟩ := ih (by omega)
    rw [List.range_succ, List.foldl_append, List.foldl_cons, List.foldl_nil]
    generalize (List.range k).foldl (merklePair hash2 before.length level.length)
      (before ++ level, mutated) = s at htree hflag
    have hread : ∀ i < level.length, s.1.getD (before.length + i) 0 = level.getD i 0 := by
      intro i hi
      rw [htree, List.append_assoc, List.getD_eq_getElem?_getD, List.getD_eq_getElem?_getD,
        List.getElem?_append_right (by omega), Nat.add_sub_cancel_left,
        List.getElem?_append_left hi]
    have hlt : 2 * k < level.length := by omega
    have habove := getElem?_pairUp_of_lt hash2 hlt 0
    rw [Nat.mul_div_cancel_left k (by decide), Nat.mul_mod_right, if_neg (by decide),
      Nat.xor_one_of_even (Nat.even_mul.mpr (Or.inl (by decide)))] at habove
    unfold merklePair
    dsimp only
    rw [hread _ hlt, hread _ (by omega), List.getD_eq_getElem _ _ hlt]
    constructor
    · rw [htree, List.take_add_one, habove, ← List.append_assoc]
      rfl
    · rw [Bool.or_eq_true, hflag]
      have hhere : (min (2 * k + 1) (level.length - 1) == 2 * k + 1 &&
          min (2 * k + 1) (level.length - 1) + 1 == level.length &&
          level[2 * k] == level.getD (min (2 * k + 1) (level.length - 1)) 0) = true ↔
          2 * k + 2 = level.length ∧ level[2 * k]? = level[2 * k + 1]? := by
        rw [Bool.and_eq_true, Bool.and_eq_true, beq_iff_eq, beq_iff_eq, beq_iff_eq]
        constructor
        · rintro ⟨⟨hnext, hlast⟩, heq⟩
          have hin : 2 * k + 1 < level.length := by omega
          rw [hnext, List.getD_eq_getElem _ _ hin] at heq
          refine ⟨by omega, ?_⟩
          rw [List.getElem?_eq_getElem hlt, List.getElem?_eq_getElem hin, heq]
        · rintro ⟨hlast, heq⟩
          have hin : 2 * k + 1 < level.length := by omega
          have hnext : min (2 * k + 1) (level.length - 1) = 2 * k + 1 := by omega
          rw [List.getElem?_eq_getElem hlt, List.getElem?_eq_getElem hin] at heq
          rw [hnext, List.getD_eq_getElem _ _ hin]
          exact ⟨⟨rfl, hlast⟩, Option.some.inj heq⟩
      rw [hhere, or_assoc]
      refine or_congr_right ?_
      constructor
      · rintro (⟨k', hk', hends⟩ | hends)
        · exact ⟨k', by omega, hends⟩
        · exact ⟨k, Nat.lt_succ_self k, hends⟩
      · rintro ⟨k', hk', hends⟩
        rcases Nat.lt_succ_iff_lt_or_eq.mp hk' with hlt' | rfl
        · exact Or.inl ⟨k', hlt', hends⟩
        · exact Or.inr hends

/-- **A round of the outer loop** adds the level above. -/
theorem foldl_merklePair_all {before level : List Uint256} (mutated : Bool) :
    (List.range ((level.length + 1) / 2)).foldl (merklePair hash2 before.length level.length)
      (before ++ level, mutated) =
        (before ++ level ++ pairUp hash2 level, mutated || endsTwice level) := by
  obtain ⟨htree, hflag⟩ := @foldl_merklePair hash2 before level mutated _ (Nat.le_refl _)
  refine Prod.ext ?_ ?_
  · rw [htree, List.take_of_length_le]
    rw [length_pairUp]
  · rw [Bool.eq_iff_iff, hflag, Bool.or_eq_true, endsTwice_iff]
    refine or_congr_right ⟨?_, ?_⟩
    · rintro ⟨k, -, hends⟩
      exact ⟨k, hends⟩
    · rintro ⟨k, hlen, heq⟩
      exact ⟨k, by omega, hlen, heq⟩

/-- **`BuildMerkleTree`** puts one level behind another. -/
theorem merkleLevels_eq {height : Nat} {before level : List Uint256}
    (h : IsHeight level.length height) {fuel : Nat} (hfuel : height ≤ fuel) (mutated : Bool) :
    merkleLevels hash2 fuel level.length before.length (before ++ level, mutated) =
      (before ++ tower hash2 height level, mutated || repeats hash2 height level) := by
  induction height generalizing before level fuel mutated with
  | zero =>
    have hend : merkleLevels hash2 fuel level.length before.length (before ++ level, mutated) =
        (before ++ level, mutated) := by
      cases fuel with
      | zero => rfl
      | succ fuel => exact if_neg h.not_long
    rw [hend, tower, repeats, Bool.or_false]
  | succ height ih =>
    obtain ⟨fuel, rfl⟩ : ∃ f, fuel = f + 1 := ⟨fuel - 1, by omega⟩
    have habove := h.half
    rw [← length_pairUp hash2 level] at habove
    rw [merkleLevels, if_pos h.long, foldl_merklePair_all, ← List.length_append,
      ← length_pairUp hash2 level, ih habove (by omega), tower, repeats, List.append_assoc,
      Bool.or_assoc]

theorem merkleLevel_snd : ∀ level : List Uint256, (merkleLevel hash2 level).2 = endsTwice level
  | [] => rfl
  | [_] => rfl
  | [_, _] => rfl
  | a :: b :: c :: rest => by
    rw [merkleLevel, endsTwice]
    · exact merkleLevel_snd (c :: rest)
    · simp
    · simp

theorem merkleLoop_snd {height : Nat} {level : List Uint256} (h : IsHeight level.length height)
    {fuel : Nat} (hfuel : height ≤ fuel) (mutated : Bool) :
    (merkleLoop hash2 fuel level mutated).2 = (mutated || repeats hash2 height level) := by
  induction height generalizing fuel level mutated with
  | zero =>
    have hend : merkleLoop hash2 fuel level mutated = (level.headD 0, mutated) := by
      cases fuel with
      | zero => rfl
      | succ fuel => exact if_pos (Nat.not_lt.mp h.not_long)
    rw [hend, repeats, Bool.or_false]
  | succ height ih =>
    obtain ⟨fuel, rfl⟩ : ∃ f, fuel = f + 1 := ⟨fuel - 1, by omega⟩
    have habove := h.half
    rw [← length_pairUp hash2 level, ← merkleLevel_fst] at habove
    rw [merkleLoop, if_neg (Nat.not_le.mpr h.long), repeats]
    dsimp only
    rw [ih habove (by omega), merkleLevel_snd, merkleLevel_fst, Bool.or_assoc]

theorem isHeight_txids (block : CBlock) :
    IsHeight (block.vtx.map CTransaction.hash).length (Nat.clog 2 block.vtx.length) := by
  rw [List.length_map]
  exact isHeight_clog _

theorem vMerkleTree_eq (block : CBlock) : block.vMerkleTree hash2 =
    (tower hash2 (Nat.clog 2 block.vtx.length) (block.vtx.map CTransaction.hash),
      repeats hash2 (Nat.clog 2 block.vtx.length) (block.vtx.map CTransaction.hash)) := by
  have htree := @merkleLevels_eq hash2 _ [] _ (isHeight_txids block) _
    (isHeight_clog block.vtx.length).height_le false
  rw [List.length_map] at htree
  exact htree

theorem buildMerkleTree_eq (block : CBlock) : block.buildMerkleTree hash2 =
    (((pairUp hash2)^[Nat.clog 2 block.vtx.length] (block.vtx.map CTransaction.hash)).headD 0,
      repeats hash2 (Nat.clog 2 block.vtx.length) (block.vtx.map CTransaction.hash)) := by
  have hfuel := (isHeight_clog block.vtx.length).height_le
  exact Prod.ext (merkleLoop_fst (isHeight_txids block) hfuel false)
    (merkleLoop_snd (isHeight_txids block) hfuel false)

/-- **The vector ends in the root**, and both ways over the levels report the same. -/
theorem vMerkleTree_root (block : CBlock) :
    (block.vMerkleTree hash2).1.getLast?.getD 0 = (block.buildMerkleTree hash2).1 ∧
      (block.vMerkleTree hash2).2 = (block.buildMerkleTree hash2).2 := by
  rw [vMerkleTree_eq, buildMerkleTree_eq]
  refine ⟨?_, rfl⟩
  rw [getLast?_tower hash2 (isHeight_txids block), List.headD_eq_head?_getD]

/-! ## Branches -/

/-- **`GetMerkleBranch`** takes from the vector what stands beside the way up. -/
theorem merkleBranchLoop_eq {height : Nat} {before level : List Uint256}
    (h : IsHeight level.length height) {fuel : Nat} (hfuel : height ≤ fuel) (nIndex : Nat) :
    merkleBranchLoop (before ++ tower hash2 height level) fuel level.length before.length nIndex =
      siblings hash2 0 height level nIndex := by
  induction height generalizing before level fuel nIndex with
  | zero =>
    cases fuel with
    | zero => rfl
    | succ fuel => exact if_neg h.not_long
  | succ height ih =>
    obtain ⟨fuel, rfl⟩ : ∃ f, fuel = f + 1 := ⟨fuel - 1, by omega⟩
    have hlong := h.long
    have habove := h.half
    rw [← length_pairUp hash2 level] at habove
    have hbeside : (before ++ tower hash2 (height + 1) level).getD
        (before.length + min (nIndex ^^^ 1) (level.length - 1)) 0 =
        level.getD (min (nIndex ^^^ 1) (level.length - 1)) 0 := by
      rw [tower, List.getD_eq_getElem?_getD, List.getD_eq_getElem?_getD,
        List.getElem?_append_right (by omega), Nat.add_sub_cancel_left,
        List.getElem?_append_left (by omega)]
    rw [merkleBranchLoop, if_pos hlong, siblings]
    dsimp only
    rw [hbeside, tower, ← List.append_assoc, ← List.length_append, ← length_pairUp hash2 level,
      ih habove (by omega)]

/-- **`CheckMerkleBranch`** goes up to the top again. -/
theorem foldl_siblings {height : Nat} {level : List Uint256} (h : IsHeight level.length height)
    {nIndex : Nat} (hin : nIndex < level.length) :
    some ((siblings hash2 0 height level nIndex).foldl (fun s x =>
      (if s.2 % 2 = 1 then hash2 x s.1 else hash2 s.1 x, s.2 / 2))
      (level[nIndex], (nIndex : Int))).1 = ((pairUp hash2)^[height] level).head? := by
  induction height generalizing level nIndex with
  | zero =>
    have hzero : nIndex = 0 := by
      have hshort := h.not_long
      omega
    subst hzero
    rw [List.head?_eq_getElem?]
    exact (List.getElem?_eq_getElem hin).symm
  | succ height ih =>
    have habove := h.half
    rw [← length_pairUp hash2 level] at habove
    have hup := getElem?_pairUp_of_lt hash2 hin 0
    have hin' : nIndex / 2 < (pairUp hash2 level).length := by
      rw [length_pairUp]
      omega
    rw [List.getElem?_eq_getElem hin', Option.some.injEq] at hup
    have hrest := ih habove hin'
    rw [hup] at hrest
    rw [Function.iterate_succ_apply, ← hrest, siblings, List.foldl_cons]
    have hhalf : ((nIndex : Int) / 2) = ((nIndex / 2 : Nat) : Int) := by omega
    have hodd : ((nIndex : Int) % 2 = 1) ↔ nIndex % 2 = 1 := by omega
    simp only [hhalf, hodd]

theorem length_siblings (height : Nat) (level : List Uint256) (nIndex : Nat) :
    (siblings hash2 0 height level nIndex).length = height := by
  induction height generalizing level nIndex with
  | zero => rfl
  | succ height ih => rw [siblings, List.length_cons, ih]

theorem getMerkleBranch_eq {block : CBlock} {vMerkleTree : List Uint256}
    (h : vMerkleTree = [] ∨ vMerkleTree = (block.vMerkleTree hash2).1) (nIndex : Nat) :
    block.getMerkleBranch hash2 vMerkleTree nIndex =
      siblings hash2 0 (Nat.clog 2 block.vtx.length) (block.vtx.map CTransaction.hash) nIndex := by
  have htree : (if vMerkleTree.isEmpty then (block.vMerkleTree hash2).1 else vMerkleTree) =
      (block.vMerkleTree hash2).1 := by
    rcases h with rfl | rfl
    · rfl
    · split
      · rfl
      · rfl
  have hbranch := @merkleBranchLoop_eq hash2 _ [] _ (isHeight_txids block) _
    (isHeight_clog block.vtx.length).height_le nIndex
  rw [List.length_map] at hbranch
  unfold CBlock.getMerkleBranch
  dsimp only
  rw [htree, vMerkleTree_eq]
  exact hbranch

/-! ## What a root tells -/

/--
**Merkle branches and roots.** The branch of any transaction leads to the root. Two lists of
transaction ids with trees of as many levels and with the same root are equal, if no mutation is
reported for either, as long as the hash of a pair tells the pair.
-/
theorem merkleBranch_root (hash2 : Uint256 → Uint256 → Uint256) :
    (∀ (block : CBlock) (vMerkleTree : List Uint256),
      vMerkleTree = [] ∨ vMerkleTree = (block.vMerkleTree hash2).1 →
      ∀ (nIndex : Nat) (_ : nIndex < block.vtx.length),
        checkMerkleBranch hash2 block.vtx[nIndex].hash
          (block.getMerkleBranch hash2 vMerkleTree nIndex) nIndex =
            (block.buildMerkleTree hash2).1) ∧
    (Function.Injective2 hash2 → ∀ block block' : CBlock, block.vtx ≠ [] → block'.vtx ≠ [] →
      (block.getMerkleBranch hash2 [] 0).length = (block'.getMerkleBranch hash2 [] 0).length →
      (block.buildMerkleTree hash2).1 = (block'.buildMerkleTree hash2).1 →
      (block.buildMerkleTree hash2).2 = false → (block'.buildMerkleTree hash2).2 = false →
      block.vtx.map CTransaction.hash = block'.vtx.map CTransaction.hash) := by
  constructor
  · intro block vMerkleTree htree nIndex hin
    have hin' : nIndex < (block.vtx.map CTransaction.hash).length := by
      rw [List.length_map]
      exact hin
    have htop := @foldl_siblings hash2 _ _ (isHeight_txids block) _ hin'
    rw [List.getElem_map] at htop
    rw [getMerkleBranch_eq htree, buildMerkleTree_eq, List.headD_eq_head?_getD, ← htop]
    exact if_neg (by omega)
  · intro hinj block block' hne hne' hlevels hroot hmutated hmutated'
    rw [getMerkleBranch_eq (Or.inl rfl), getMerkleBranch_eq (Or.inl rfl), length_siblings,
      length_siblings] at hlevels
    rw [buildMerkleTree_eq] at hroot hmutated
    rw [buildMerkleTree_eq, ← hlevels] at hroot hmutated'
    have hheight' := isHeight_txids block'
    rw [← hlevels] at hheight'
    refine eq_of_iterate_eq hinj hmutated hmutated' ?_
    rw [iterate_eq_singleton hash2 (isHeight_txids block) (by simpa using hne) 0,
      iterate_eq_singleton hash2 hheight' (by simpa using hne') 0]
    exact congrArg (fun root => [root]) hroot

/-- The last of three transactions, which stands alone; and in another order they have another
root. -/
theorem merkleBranch_root_three :
    checkMerkleBranch Nat.pair (numberedBlock 3).vtx[2].hash
      ((numberedBlock 3).getMerkleBranch Nat.pair [] 2) 2 =
        ((numberedBlock 3).buildMerkleTree Nat.pair).1 ∧
    ((numberedBlock 3).buildMerkleTree Nat.pair).1 ≠
      ({ numberedBlock 3 with vtx := (numberedBlock 3).vtx.reverse }.buildMerkleTree
        Nat.pair).1 := by
  have hinj : Function.Injective2 Nat.pair := fun _ _ _ _ h => Nat.pair_eq_pair.mp h
  refine ⟨(merkleBranch_root Nat.pair).1 (numberedBlock 3) [] (Or.inl rfl) 2 (by decide), ?_⟩
  intro hroot
  have hids := (merkleBranch_root Nat.pair).2 hinj (numberedBlock 3)
    { numberedBlock 3 with vtx := (numberedBlock 3).vtx.reverse } (by decide) (by decide)
    (by decide) hroot (by decide) (by decide)
  exact absurd hids (by decide)

end BitBlocks
