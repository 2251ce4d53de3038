import BitBlocks.Primitives.PartialMerkle

/-!
# What a received partial merkle tree proves

Whatever a peer sends, an accepted traversal has read a tree that fits the number
of transactions the peer has told. Its root is compared with one that is built
level by level from a list, and an injective pair hash then makes every node of
the tree an entry of a level: the node it stands for, and both its children.

What is not told by the root is how many levels lie below it. A number of
transactions whose tree has another height makes inner nodes out to be ids.
-/

namespace BitBlocks

open Pairing

namespace CPartialMerkleTree

variable {hash2 : Uint256 → Uint256 → Uint256} {t : CPartialMerkleTree} {height pos : Nat}

/-! ## What was read -/

theorem useHash_inv {fMatched : Bool} {s : Traversal} (h : (t.useHash fMatched s).2.fBad = false) :
    s.fBad = false ∧ ((t.useHash fMatched s).2.vMatch =
        s.vMatch ++ (PartialTree.leaf fMatched (t.useHash fMatched s).1).matched) := by
  unfold useHash at h ⊢
  rcases hhash : t.vHash[s.nHashUsed]? with _ | hash
  · rw [hhash] at h
    exact absurd h (by simp)
  · rw [hhash] at h
    refine ⟨h, ?_⟩
    cases fMatched
    · exact (List.append_nil _).symm
    · rfl

/-- **An accepted traversal has read a tree that fits.** -/
theorem traverseAndExtract_inv {s : Traversal}
    (h : (traverseAndExtract hash2 t height pos s).2.fBad = false) :
    s.fBad = false ∧ ∃ tree : PartialTree, tree.Fits t.nTransactions height pos ∧
      (traverseAndExtract hash2 t height pos s).1 = tree.root hash2 ∧
      (traverseAndExtract hash2 t height pos s).2.vMatch = s.vMatch ++ tree.matched := by
  induction height generalizing pos s with
  | zero =>
    unfold traverseAndExtract at h ⊢
    rcases hbit : t.vBits[s.nBitsUsed]? with _ | fParentOfMatch
    · rw [hbit] at h
      exact absurd h (by simp)
    · rw [hbit] at h
      obtain ⟨hgood, hmatch⟩ := useHash_inv h
      exact ⟨hgood, _, .leaf fParentOfMatch _, rfl, hmatch⟩
  | succ height ih =>
    unfold traverseAndExtract at h ⊢
    rcases hbit : t.vBits[s.nBitsUsed]? with _ | _ | _
    · rw [hbit] at h
      exact absurd h (by simp)
    · rw [hbit] at h
      obtain ⟨hgood, hmatch⟩ := useHash_inv h
      exact ⟨hgood, _, .pruned _, rfl, hmatch⟩
    · rw [hbit] at h
      dsimp only at h ⊢
      split_ifs at h ⊢ with hnext
      · obtain ⟨hgood, right, hright, hrootr, hmatchr⟩ := ih h
        obtain ⟨hgood, left, hleft, hrootl, hmatchl⟩ := ih hgood
        refine ⟨hgood, _, .both hnext hleft hright, ?_, ?_⟩
        · rw [PartialTree.root, ← hrootl, ← hrootr]
        · rw [hmatchr, hmatchl, PartialTree.matched, List.append_assoc]
      · obtain ⟨hgood, child, hchild, hroot, hmatch⟩ := ih h
        refine ⟨hgood, _, .only hnext hchild, ?_, hmatch⟩
        rw [PartialTree.root, ← hroot]

theorem extractMatches_inv (h : (extractMatches hash2 t).1 ≠ 0) :
    ∃ tree : PartialTree, tree.Fits t.nTransactions (calcTreeHeight t.nTransactions) 0 ∧
      (extractMatches hash2 t).1 = tree.root hash2 ∧
      (extractMatches hash2 t).2.vMatch = tree.matched ∧
      t.nTransactions ≤ MAX_BLOCK_SIZE / 60 := by
  unfold extractMatches at h ⊢
  dsimp only at h ⊢
  split_ifs at h ⊢ with _ hmax _ _ hbad _ _
  all_goals try exact absurd rfl h
  obtain ⟨-, tree, hfits, hroot, hmatch⟩ :=
    traverseAndExtract_inv (Bool.eq_false_of_not_eq_true hbad)
  exact ⟨tree, hfits, hroot, hmatch, Nat.not_lt.mp hmax⟩

end CPartialMerkleTree

/-! ## Against the levels of a list -/

namespace PartialTree

variable {hash2 : Uint256 → Uint256 → Uint256} {n height pos : Nat} {tree : PartialTree}

variable {ids : List Uint256}

/-- **Every matched id is an entry of the level that lies as far below as the tree is tall.** -/
theorem matched_mem_level (hinj : Function.Injective2 hash2) (hfits : tree.Fits n height pos)
    {d : Nat} (hroot : tree.root hash2 ∈ (pairUp hash2)^[d + height] ids) :
    ∀ id ∈ tree.matched, id ∈ (pairUp hash2)^[d] ids := by
  induction hfits with
  | leaf fMatched hash =>
    intro id hid
    cases fMatched with
    | false => exact absurd hid List.not_mem_nil
    | true =>
      rw [List.mem_singleton.mp hid]
      exact hroot
  | pruned hash => exact fun id hid => absurd hid List.not_mem_nil
  | only hlast _ ih =>
    rw [← Nat.add_assoc, Function.iterate_succ_apply'] at hroot
    obtain ⟨a, ha, b, hb, hab⟩ := mem_pairUp hash2 hroot
    obtain ⟨rfl, -⟩ := hinj hab
    exact ih ha
  | both hnext _ _ ihl ihr =>
    rw [← Nat.add_assoc, Function.iterate_succ_apply'] at hroot
    obtain ⟨a, ha, b, hb, hab⟩ := mem_pairUp hash2 hroot
    obtain ⟨rfl, rfl⟩ := hinj hab
    intro id hid
    rcases List.mem_append.mp hid with hid | hid
    · exact ihl ha id hid
    · exact ihr hb id hid

theorem pair_of_matched (hfits : tree.Fits n height pos) (hinj : Function.Injective2 hash2)
    {e : Nat} (he : e < height) (hroot : tree.root hash2 ∈ (pairUp hash2)^[e] ids)
    (hmatched : tree.matched ≠ []) : ∃ id ∈ ids, ∃ a b, id = hash2 a b := by
  induction hfits generalizing e with
  | leaf => exact absurd he (Nat.not_lt_zero e)
  | pruned => exact absurd rfl hmatched
  | only hlast _ ih =>
    cases e with
    | zero => exact ⟨_, hroot, _, _, rfl⟩
    | succ e =>
      rw [Function.iterate_succ_apply'] at hroot
      obtain ⟨a, ha, b, hb, hab⟩ := mem_pairUp hash2 hroot
      obtain ⟨rfl, -⟩ := hinj hab
      exact ih (by omega) ha hmatched
  | @both height pos left right hnext _ _ ihl ihr =>
    cases e with
    | zero => exact ⟨_, hroot, _, _, rfl⟩
    | succ e =>
      rw [Function.iterate_succ_apply'] at hroot
      obtain ⟨a, ha, b, hb, hab⟩ := mem_pairUp hash2 hroot
      obtain ⟨rfl, rfl⟩ := hinj hab
      by_cases hleft : left.matched = []
      · refine ihr (by omega) hb fun hright => hmatched ?_
        rw [PartialTree.matched, hleft, hright, List.append_nil]
      · exact ihl (by omega) ha hleft

/-- **A tree of no more ids than the list matches them where they stand**, each place once. -/
theorem matched_sublist (hinj : Function.Injective2 hash2) (hn : n ≤ 2 ^ 31) (hle : n ≤ ids.length)
    (hheight : height ≤ 31) (hfits : tree.Fits n height pos)
    (hroot : ((pairUp hash2)^[height] ids)[pos]? = some (tree.root hash2)) :
    tree.matched.Sublist (slice ids height pos) := by
  induction hfits with
  | @leaf pos fMatched hash =>
    obtain ⟨hlt, hget⟩ := List.getElem?_eq_some_iff.mp hroot
    have hlt' : pos < ids.length := hlt
    have hget' : ids[pos] = hash := hget
    have hslice : slice ids 0 pos = [hash] := by
      rw [slice, Nat.pow_zero, Nat.mul_one, List.drop_eq_getElem_cons hlt', List.take_succ_cons,
        List.take_zero, hget']
    rw [hslice]
    cases fMatched
    · exact List.nil_sublist _
    · exact List.Sublist.refl _
  | pruned hash => exact List.nil_sublist _
  | only hlast _ ih =>
    rw [Function.iterate_succ_apply', getElem?_pairUp, Nat.mul_comm 2] at hroot
    obtain ⟨a, ha, hab⟩ := Option.map_eq_some_iff.mp hroot
    obtain ⟨rfl, -⟩ := hinj hab
    rw [slice_succ]
    exact (ih (by omega) ha).trans (List.sublist_append_left _ _)
  | @both height pos left right hnext _ _ ihl ihr =>
    rw [CPartialMerkleTree.calcTreeWidth_eq hn (by omega)] at hnext
    have hlevel : ((pairUp hash2)^[height] ids).length = width ids.length height :=
      length_iterate hash2 ids height
    have hwider := width_mono hle height
    have hright : pos * 2 + 1 < ((pairUp hash2)^[height] ids).length := by omega
    rw [Function.iterate_succ_apply', getElem?_pairUp, Nat.mul_comm 2,
      List.getElem?_eq_getElem hright] at hroot
    obtain ⟨a, ha, hab⟩ := Option.map_eq_some_iff.mp hroot
    obtain ⟨rfl, hb⟩ := hinj hab
    rw [slice_succ]
    refine (ihl (by omega) ha).append (ihr (by omega) ?_)
    rw [List.getElem?_eq_getElem hright, ← hb]
    rfl

end PartialTree

namespace CPartialMerkleTree

variable {hash2 : Uint256 → Uint256 → Uint256}

theorem getElem?_root {block : CBlock} (hne : (block.buildMerkleTree hash2).1 ≠ 0) :
    ((pairUp hash2)^[Nat.clog 2 block.vtx.length] (block.vtx.map CTransaction.hash))[0]? =
      some (block.buildMerkleTree hash2).1 := by
  have hlen : (block.vtx.map CTransaction.hash).length = block.vtx.length := List.length_map _
  have hheight := isHeight_clog (block.vtx.map CTransaction.hash).length
  have hfuel := hheight.height_le
  rw [CBlock.buildMerkleTree, hlen.symm, merkleLoop_fst hheight (by omega)] at hne ⊢
  generalize (pairUp hash2)^[Nat.clog 2 (block.vtx.map CTransaction.hash).length]
    (block.vtx.map CTransaction.hash) = level at hne ⊢
  cases level with
  | nil => exact absurd rfl hne
  | cons root level => rfl

/-- **A partial merkle tree with the root of a block reports ids of the block**, if the number of
transactions it tells has a tree as tall as the block's; otherwise it reports nodes of the block's
tree, unless an id of the block is itself a pair hash. -/
theorem reported_in_block (hinj : Function.Injective2 hash2) (t : CPartialMerkleTree)
    (block : CBlock) (hroot : (extractMatches hash2 t).1 = (block.buildMerkleTree hash2).1)
    (hne : (block.buildMerkleTree hash2).1 ≠ 0) :
    (Nat.clog 2 t.nTransactions = Nat.clog 2 block.vtx.length →
      (∀ id ∈ (extractMatches hash2 t).2.vMatch, id ∈ block.vtx.map CTransaction.hash) ∧
      (t.nTransactions ≤ block.vtx.length → ∀ id,
        (extractMatches hash2 t).2.vMatch.count id ≤ (block.vtx.map CTransaction.hash).count id)) ∧
    ∀ id ∈ (extractMatches hash2 t).2.vMatch,
      (Nat.clog 2 t.nTransactions ≤ Nat.clog 2 block.vtx.length ∧
        id ∈ (pairUp hash2)^[Nat.clog 2 block.vtx.length - Nat.clog 2 t.nTransactions]
          (block.vtx.map CTransaction.hash)) ∨
      ∃ id' ∈ block.vtx.map CTransaction.hash, ∃ a b, id' = hash2 a b := by
  have hlen : (block.vtx.map CTransaction.hash).length = block.vtx.length := List.length_map _
  have hlimit : MAX_BLOCK_SIZE / 60 = 16666 := rfl
  obtain ⟨tree, hfits, htree, hmatch, hmax⟩ := extractMatches_inv (hroot ▸ hne)
  obtain ⟨hheight, hle⟩ := isHeight_calcTreeHeight (n := t.nTransactions) (by omega)
  rw [hheight.eq_clog] at hfits hle
  have htop : ((pairUp hash2)^[Nat.clog 2 block.vtx.length] (block.vtx.map CTransaction.hash))[0]? =
      some (tree.root hash2) := by
    rw [← htree, hroot]
    exact getElem?_root hne
  rw [hmatch]
  generalize Nat.clog 2 block.vtx.length = height at htop ⊢
  generalize Nat.clog 2 t.nTransactions = claimed at hfits hle ⊢
  refine ⟨?_, fun id hid => ?_⟩
  · rintro rfl
    refine ⟨PartialTree.matched_mem_level (d := 0) hinj hfits ?_, fun hfew id => ?_⟩
    · rw [Nat.zero_add]
      exact List.mem_of_getElem? htop
    · have hsub := PartialTree.matched_sublist hinj (by omega) (by omega) hle hfits htop
      exact (hsub.trans ((List.take_sublist _ _).trans (List.drop_sublist _ _))).count_le id
  · rcases Nat.lt_or_ge height claimed with htall | hshort
    · exact Or.inr (PartialTree.pair_of_matched hfits hinj htall (List.mem_of_getElem? htop)
        (List.ne_nil_of_mem hid))
    · refine Or.inl ⟨hshort, PartialTree.matched_mem_level hinj hfits ?_ id hid⟩
      rw [Nat.sub_add_cancel hshort]
      exact List.mem_of_getElem? htop

def samplePair (a b : Uint256) : Uint256 := Nat.pair a b + 1

theorem samplePair_injective : Function.Injective2 samplePair := fun _ _ _ _ h =>
  Nat.pair_eq_pair.mp (Nat.succ_injective h)

/-- Three ids, of which the last is matched. -/
theorem lastOfThree_in_block :
    (extractMatches samplePair (build samplePair [1, 2, 3] [false, false, true])).2.vMatch ≠ [] ∧
      ∀ id ∈ (extractMatches samplePair (build samplePair [1, 2, 3] [false, false, true])).2.vMatch,
        id ∈ (numberedBlock 3).vtx.map CTransaction.hash :=
  ⟨by decide, ((reported_in_block samplePair_injective
    (build samplePair [1, 2, 3] [false, false, true]) (numberedBlock 3) (by decide)
    (by decide)).1 rfl).1⟩

/-- Where one transaction is claimed and there are two, the root is reported, and is no id. Where
four are claimed and there are three, the last one is reported twice. -/
theorem innerNode_reported : Function.Injective2 samplePair ∧
    ((extractMatches samplePair ⟨1, [true], [samplePair 1 2], false⟩).1 =
        ((numberedBlock 2).buildMerkleTree samplePair).1 ∧
      ((numberedBlock 2).buildMerkleTree samplePair).1 ≠ 0 ∧
      ¬ ∀ id ∈ (extractMatches samplePair ⟨1, [true], [samplePair 1 2], false⟩).2.vMatch,
        id ∈ (numberedBlock 2).vtx.map CTransaction.hash) ∧
    (extractMatches samplePair (build samplePair [1, 2, 3, 3] [false, false, true, true])).1 =
      ((numberedBlock 3).buildMerkleTree samplePair).1 ∧
    ((numberedBlock 3).buildMerkleTree samplePair).1 ≠ 0 ∧
    (extractMatches samplePair
      (build samplePair [1, 2, 3, 3] [false, false, true, true])).2.vMatch.count 3 = 2 ∧
    ((numberedBlock 3).vtx.map CTransaction.hash).count 3 = 1 :=
  ⟨samplePair_injective, by decide, by decide⟩

end CPartialMerkleTree

end BitBlocks
