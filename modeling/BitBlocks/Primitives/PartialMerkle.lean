import BitBlocks.Lib.Pairing
import BitBlocks.Primitives.MerkleBlock

/-!
# What a partial merkle tree stands for

The part of the tree that is traversed is a tree of its own: leaves, which carry
hashes, nodes with both children, and at the end of an odd level nodes with an
only child. The encoder writes such a tree, the decoder reads one, and they agree
on its shape because it follows from the number of transactions (`Fits`). The
flags are one for each node and the hashes one for each leaf, so an only child is
what costs a flag more than a leaf brings.
-/

namespace BitBlocks

open Pairing

inductive PartialTree
  | leaf (fMatched : Bool) (hash : Uint256)
  | only (child : PartialTree)
  | both (left right : PartialTree)

namespace PartialTree

def bits : PartialTree → List Bool
  | leaf fMatched _ => [fMatched]
  | only child => true :: child.bits
  | both left right => true :: (left.bits ++ right.bits)

def hashes : PartialTree → List Uint256
  | leaf _ hash => [hash]
  | only child => child.hashes
  | both left right => left.hashes ++ right.hashes

def matched : PartialTree → List Uint256
  | leaf fMatched hash => if fMatched then [hash] else []
  | only child => child.matched
  | both left right => left.matched ++ right.matched

def root (hash2 : Uint256 → Uint256 → Uint256) : PartialTree → Uint256
  | leaf _ hash => hash
  | only child => hash2 (child.root hash2) (child.root hash2)
  | both left right => hash2 (left.root hash2) (right.root hash2)

def leaves : PartialTree → Nat
  | leaf _ _ => 1
  | only child => child.leaves
  | both left right => left.leaves + right.leaves

/-- The number of nodes with an only child. -/
def onlyChildren : PartialTree → Nat
  | leaf _ _ => 0
  | only child => child.onlyChildren + 1
  | both left right => left.onlyChildren + right.onlyChildren

theorem length_hashes (tree : PartialTree) : tree.hashes.length = tree.leaves := by
  induction tree with
  | leaf => rfl
  | only child ih => exact ih
  | both left right ihl ihr => rw [hashes, List.length_append, ihl, ihr, leaves]

/-- **A flag for every node**: two for a leaf but one, and one more for every only child. -/
theorem length_bits (tree : PartialTree) :
    tree.bits.length + 1 = 2 * tree.leaves + tree.onlyChildren := by
  induction tree with
  | leaf => rfl
  | only child ih =>
    rw [bits, List.length_cons, leaves, onlyChildren]
    omega
  | both left right ihl ihr =>
    rw [bits, List.length_cons, List.length_append, leaves, onlyChildren]
    omega

theorem leaves_pos (tree : PartialTree) : 0 < tree.leaves := by
  induction tree with
  | leaf => exact Nat.one_pos
  | only child ih => exact ih
  | both left right ihl ihr => exact Nat.add_pos_left ihl _

/-- The shape follows from the number of transactions. -/
inductive Fits (nTransactions : Nat) : (height pos : Nat) → PartialTree → Prop
  | leaf {pos : Nat} (fMatched : Bool) (hash : Uint256) :
    Fits nTransactions 0 pos (.leaf fMatched hash)
  | pruned {height pos : Nat} (hash : Uint256) :
      Fits nTransactions (height + 1) pos (.leaf false hash)
  | only {height pos : Nat} {child : PartialTree}
      (hlast : ¬ pos * 2 + 1 < calcTreeWidth nTransactions height)
      (hchild : Fits nTransactions height (pos * 2) child) :
      Fits nTransactions (height + 1) pos (.only child)
  | both {height pos : Nat} {left right : PartialTree}
      (hnext : pos * 2 + 1 < calcTreeWidth nTransactions height)
      (hleft : Fits nTransactions height (pos * 2) left)
      (hright : Fits nTransactions height (pos * 2 + 1) right) :
      Fits nTransactions (height + 1) pos (.both left right)

end PartialTree

/-- How a traversal goes on from a tree it has read. -/
def Traversal.past (s : Traversal) (tree : PartialTree) : Traversal where
  nBitsUsed := s.nBitsUsed + tree.bits.length
  nHashUsed := s.nHashUsed + tree.hashes.length
  vMatch := s.vMatch ++ tree.matched
  fBad := s.fBad

namespace CPartialMerkleTree

variable {hash2 : Uint256 → Uint256 → Uint256} {t : CPartialMerkleTree} {height pos : Nat}

/-! ## The decoder -/

/-- The tree stands where the traversal is. -/
def At (t : CPartialMerkleTree) (s : Traversal) (tree : PartialTree) : Prop :=
  tree.bits <+: t.vBits.drop s.nBitsUsed ∧ tree.hashes <+: t.vHash.drop s.nHashUsed

theorem getElem?_of_isPrefix {α : Type} {a : α} {l l' : List α} {i : Nat}
    (h : a :: l <+: l'.drop i) :
    l'[i]? = some a ∧ l <+: l'.drop (i + 1) := by
  obtain ⟨rest, hrest⟩ := h
  constructor
  · have hget : (l'.drop i)[0]? = some a := by rw [← hrest]; rfl
    rwa [List.getElem?_drop, Nat.add_zero] at hget
  · refine ⟨rest, ?_⟩
    rw [← List.drop_drop, ← hrest]
    rfl

theorem isPrefix_append {α : Type} {l1 l2 l : List α} {i : Nat} (h : l1 ++ l2 <+: l.drop i) :
    l1 <+: l.drop i ∧ l2 <+: l.drop (i + l1.length) := by
  refine ⟨(List.prefix_append l1 l2).trans h, ?_⟩
  obtain ⟨rest, hrest⟩ := h
  refine ⟨rest, ?_⟩
  rw [← List.drop_drop, ← hrest, List.append_assoc, List.drop_left]

theorem useHash_at {s : Traversal} {hash : Uint256} {fMatched : Bool}
    (h : [hash] <+: t.vHash.drop s.nHashUsed) :
    t.useHash fMatched s = (hash, { s with
      nHashUsed := s.nHashUsed + 1
      vMatch := s.vMatch ++ if fMatched then [hash] else [] }) := by
  rw [useHash, (getElem?_of_isPrefix h).1]
  cases fMatched
  · simp
  · rfl

/-- **The decoder reads a tree that fits**, and finds its root and its matched ids. -/
theorem traverseAndExtract_at (hash2 : Uint256 → Uint256 → Uint256) {tree : PartialTree}
    (hfits : tree.Fits t.nTransactions height pos)
    {s : Traversal} (hat : t.At s tree) :
    traverseAndExtract hash2 t height pos s = (tree.root hash2, s.past tree) := by
  generalize hn : t.nTransactions = n at hfits
  induction hfits generalizing s with
  | leaf fMatched hash =>
    rw [traverseAndExtract, (getElem?_of_isPrefix hat.1).1]
    exact useHash_at hat.2
  | pruned hash =>
    rw [traverseAndExtract, (getElem?_of_isPrefix hat.1).1]
    exact useHash_at hat.2
  | @only height pos child hlast _ ih =>
    obtain ⟨hbit, hbits⟩ := getElem?_of_isPrefix hat.1
    have hchild := ih (s := { s with nBitsUsed := s.nBitsUsed + 1 }) ⟨hbits, hat.2⟩
    rw [traverseAndExtract, hbit]
    simp only [hchild, hn, if_neg hlast]
    rw [Traversal.past, Traversal.past, PartialTree.bits, List.length_cons]
    simp only [Nat.add_assoc, Nat.add_comm 1]
    rfl
  | @both height pos left right hnext _ _ ihl ihr =>
    obtain ⟨hbit, hbits⟩ := getElem?_of_isPrefix hat.1
    obtain ⟨hbitsl, hbitsr⟩ := isPrefix_append hbits
    obtain ⟨hhashesl, hhashesr⟩ := isPrefix_append hat.2
    have hleft := ihl (s := { s with nBitsUsed := s.nBitsUsed + 1 }) ⟨hbitsl, hhashesl⟩
    have hright := ihr (s := Traversal.past { s with nBitsUsed := s.nBitsUsed + 1 } left)
      ⟨hbitsr, hhashesr⟩
    rw [traverseAndExtract, hbit]
    simp only [hleft, hn, if_pos hnext, hright]
    simp only [Traversal.past, PartialTree.bits, PartialTree.hashes, PartialTree.matched,
      PartialTree.root, List.length_cons, List.length_append, List.append_assoc, Nat.add_assoc,
      Nat.add_comm 1]

/-! ## The encoder -/

/-- The part of the tree that is traversed. -/
def partialTree (hash2 : Uint256 → Uint256 → Uint256) (vTxid : List Uint256) (vMatch : List Bool) :
    (height pos : Nat) → PartialTree
  | 0, pos => .leaf (parentOfMatch vTxid.length vMatch 0 pos)
    (calcHash hash2 vTxid.length vTxid 0 pos)
  | height + 1, pos =>
    if !parentOfMatch vTxid.length vMatch (height + 1) pos then
      .leaf false (calcHash hash2 vTxid.length vTxid (height + 1) pos)
    else if pos * 2 + 1 < calcTreeWidth vTxid.length height then
      .both (partialTree hash2 vTxid vMatch height (pos * 2))
        (partialTree hash2 vTxid vMatch height (pos * 2 + 1))
    else .only (partialTree hash2 vTxid vMatch height (pos * 2))

section Encoder

variable {vTxid : List Uint256} {vMatch : List Bool}

theorem fits_partialTree (height pos : Nat) :
    (partialTree hash2 vTxid vMatch height pos).Fits vTxid.length height pos := by
  induction height generalizing pos with
  | zero => exact .leaf _ _
  | succ height ih =>
    rw [partialTree]
    split_ifs with hflag hnext
    · exact .pruned _
    · exact .both hnext (ih _) (ih _)
    · exact .only hnext (ih _)

theorem root_partialTree (height pos : Nat) :
    (partialTree hash2 vTxid vMatch height pos).root hash2 =
      calcHash hash2 vTxid.length vTxid height pos := by
  induction height generalizing pos with
  | zero => rfl
  | succ height ih =>
    rw [partialTree]
    split_ifs with hflag hnext
    · rfl
    · rw [PartialTree.root, ih, ih, calcHash, if_pos hnext]
    · rw [PartialTree.root, ih, calcHash, if_neg hnext]

/-- **The encoder writes the part that is traversed.** -/
theorem traverseAndBuild_eq (height pos : Nat) (vBits : List Bool) (vHash : List Uint256)
    (fBad : Bool) :
    traverseAndBuild hash2 vTxid vMatch height pos ⟨vTxid.length, vBits, vHash, fBad⟩ =
      ⟨vTxid.length, vBits ++ (partialTree hash2 vTxid vMatch height pos).bits,
        vHash ++ (partialTree hash2 vTxid vMatch height pos).hashes, fBad⟩ := by
  induction height generalizing pos vBits vHash with
  | zero => rfl
  | succ height ih =>
    rw [traverseAndBuild, partialTree]
    dsimp only
    cases hflag : parentOfMatch vTxid.length vMatch (height + 1) pos with
    | false => rfl
    | true =>
      simp only [Bool.not_true, Bool.false_eq_true, if_false, pushBit, ih]
      split_ifs <;> simp [PartialTree.bits, PartialTree.hashes]

end Encoder

/-! ## Heights -/

theorem calcTreeWidth_eq {n height : Nat} (hn : n ≤ 2 ^ 31) (hheight : height ≤ 31) :
    calcTreeWidth n height = width n height := by
  have hpow : 2 ^ height ≤ 2 ^ 31 := Nat.pow_le_pow_right (by omega) hheight
  have hpos : 0 < 2 ^ height := Nat.two_pow_pos height
  rw [calcTreeWidth, width, Nat.mod_eq_of_lt (by omega)]

theorem width_thirtyone {n : Nat} (hn : n ≤ 2 ^ 31) : width n 31 ≤ 1 := by
  unfold width
  omega

theorem isHeight_calcTreeHeightFrom {n rounds nHeight : Nat} (hn : n ≤ 2 ^ 31)
    (hrounds : nHeight + rounds = 32) (hbelow : ∀ k < nHeight, 1 < width n k) :
    IsHeight n (calcTreeHeightFrom n rounds nHeight) ∧
    calcTreeHeightFrom n rounds nHeight ≤ 31 := by
  induction rounds generalizing nHeight with
  | zero =>
    have hwide := hbelow 31 (by omega)
    have hone := width_thirtyone hn
    omega
  | succ rounds ih =>
    rw [calcTreeHeightFrom, calcTreeWidth_eq hn (by omega)]
    split
    · rename_i hwide
      refine ih (by omega) fun k hk => ?_
      rcases Nat.lt_succ_iff_lt_or_eq.mp hk with hk | rfl
      · exact hbelow k hk
      · exact hwide
    · rename_i hone
      exact ⟨⟨Nat.not_lt.mp hone, hbelow⟩, by omega⟩

theorem isHeight_calcTreeHeight {n : Nat} (hn : n ≤ 2 ^ 31) :
    IsHeight n (calcTreeHeight n) ∧ calcTreeHeight n ≤ 31 :=
  isHeight_calcTreeHeightFrom hn rfl fun _ hk => absurd hk (Nat.not_lt_zero _)

/-! ## The hashes of the nodes are those of `BuildMerkleTree` -/

theorem merkleLevel_fst : ∀ level : List Uint256, (merkleLevel hash2 level).1 = pairUp hash2 level
  | [] => rfl
  | [_] => rfl
  | [_, _] => rfl
  | a :: b :: c :: rest => by
    rw [merkleLevel, pairUp]
    · exact congrArg _ (merkleLevel_fst (c :: rest))
    · simp

theorem merkleLoop_fst {height : Nat} {level : List Uint256} (h : IsHeight level.length height)
    {fuel : Nat} (hfuel : height ≤ fuel) (mutated : Bool) :
    (merkleLoop hash2 fuel level mutated).1 = ((pairUp hash2)^[height] level).headD 0 := by
  induction height generalizing fuel level mutated with
  | zero =>
    have hle : level.length ≤ 1 := by
      have := h.le
      rwa [width_zero] at this
    cases fuel with
    | zero => rfl
    | succ fuel => rw [merkleLoop, if_pos hle]; rfl
  | succ height ih =>
    obtain ⟨fuel, rfl⟩ : ∃ f, fuel = f + 1 := ⟨fuel - 1, by omega⟩
    have hlong : ¬ level.length ≤ 1 := by
      have := h.below 0 (Nat.succ_pos _)
      rw [width_zero] at this
      omega
    rw [merkleLoop, if_neg hlong, Function.iterate_succ_apply, ← merkleLevel_fst]
    refine ih ?_ (by omega) _
    rw [merkleLevel_fst, length_pairUp]
    exact h.half

/-- **The hash of a node is the entry of its level.** -/
theorem getElem?_iterate (vTxid : List Uint256) (hn : vTxid.length ≤ 2 ^ 31) {height pos : Nat}
    (hheight : height ≤ 31) (hpos : pos < width vTxid.length height) :
    ((pairUp hash2)^[height] vTxid)[pos]? =
    some (calcHash hash2 vTxid.length vTxid height pos) := by
  induction height generalizing pos with
  | zero =>
    rw [width_zero] at hpos
    rw [calcHash, List.getD_eq_getElem _ _ hpos]
    exact List.getElem?_eq_getElem hpos
  | succ height ih =>
    have hwidth := width_succ vTxid.length height
    have hlevel : ((pairUp hash2)^[height] vTxid).length = width vTxid.length height :=
      length_iterate hash2 vTxid height
    have hleft : ((pairUp hash2)^[height] vTxid)[pos * 2]? =
        some (calcHash hash2 vTxid.length vTxid height (pos * 2)) := ih (by omega) (by omega)
    rw [Function.iterate_succ_apply', getElem?_pairUp, Nat.mul_comm 2 pos, hleft, calcHash,
      calcTreeWidth_eq hn (by omega)]
    split_ifs with hnext
    · rw [ih (by omega) hnext]
      rfl
    · rw [List.getElem?_eq_none (by omega)]
      rfl

theorem calcHash_root (hash2 : Uint256 → Uint256 → Uint256) (block : CBlock)
    (hn : block.vtx.length ≤ 2 ^ 31) (hpos : block.vtx ≠ []) :
    calcHash hash2 (block.vtx.map CTransaction.hash).length (block.vtx.map CTransaction.hash)
      (calcTreeHeight (block.vtx.map CTransaction.hash).length) 0 =
      (block.buildMerkleTree hash2).1 := by
  have hlen : (block.vtx.map CTransaction.hash).length = block.vtx.length := List.length_map _
  obtain ⟨hheight, hle⟩ := isHeight_calcTreeHeight (n := (block.vtx.map CTransaction.hash).length)
    (by omega)
  have hfuel := hheight.height_le
  have hwidth : 0 < width (block.vtx.map CTransaction.hash).length
      (calcTreeHeight (block.vtx.map CTransaction.hash).length) :=
    width_pos (by rw [hlen]; exact List.length_pos_iff.mpr hpos) _
  rw [CBlock.buildMerkleTree, merkleLoop_fst hheight (by omega), List.headD_eq_head?_getD,
    List.head?_eq_getElem?, getElem?_iterate _ (by omega) hle hwidth]
  rfl

/-! ## The matched ids -/

section Matched

variable {vTxid : List Uint256} {vMatch : List Bool}

/-- The ids below a node, with their marks. -/
def below (vTxid : List Uint256) (vMatch : List Bool) (height pos : Nat) : List (Uint256 × Bool) :=
  slice (vTxid.zip vMatch) height pos

def marked (l : List (Uint256 × Bool)) : List Uint256 := (l.filter fun x => x.2).map fun x => x.1

theorem below_succ (height pos : Nat) : below vTxid vMatch (height + 1) pos =
    below vTxid vMatch height (pos * 2) ++ below vTxid vMatch height (pos * 2 + 1) :=
  slice_succ _ height pos

theorem parentOfMatch_eq (hlen : vMatch.length = vTxid.length) (height pos : Nat) :
    parentOfMatch vTxid.length vMatch height pos =
    (below vTxid vMatch height pos).any fun x => x.2 := by
  have hend : (pos + 1) * 2 ^ height = pos * 2 ^ height + 2 ^ height := by ring
  rw [parentOfMatch, hend, Bool.eq_iff_iff, List.any_eq_true, List.any_eq_true, below, slice]
  generalize pos * 2 ^ height = start
  constructor
  · rintro ⟨p, hp, hmark⟩
    obtain ⟨hlow, hhigh⟩ := List.mem_range'_1.mp hp
    have hpv : p < vMatch.length := by omega
    have hpt : p < vTxid.length := by omega
    refine ⟨(vTxid[p], vMatch[p]), List.mem_iff_getElem?.mpr ⟨p - start, ?_⟩, ?_⟩
    · rw [List.getElem?_take_of_lt (by omega), List.getElem?_drop, Nat.add_sub_of_le hlow,
        List.getElem?_zip_eq_some]
      exact ⟨List.getElem?_eq_getElem hpt, List.getElem?_eq_getElem hpv⟩
    · rwa [List.getD_eq_getElem _ _ hpv] at hmark
  · rintro ⟨⟨id, mark⟩, hmem, hmark⟩
    obtain ⟨i, hi⟩ := List.mem_iff_getElem?.mp hmem
    rw [List.getElem?_take] at hi
    split at hi
    · rename_i hlt
      rw [List.getElem?_drop, List.getElem?_zip_eq_some] at hi
      have hlength := (List.getElem?_eq_some_iff.mp hi.1).1
      refine ⟨start + i, List.mem_range'_1.mpr ⟨by omega, by omega⟩, ?_⟩
      rw [List.getD_eq_getElem?_getD, hi.2]
      exact hmark
    · exact absurd hi (by simp)

theorem below_eq_nil (hlen : vMatch.length = vTxid.length) {height pos : Nat}
    (hpos : width vTxid.length height ≤ pos) : below vTxid vMatch height pos = [] := by
  have hzip : (vTxid.zip vMatch).length = vTxid.length := by
    rw [List.length_zip, hlen, Nat.min_self]
  have hle : ¬ pos * 2 ^ height < vTxid.length := fun h => absurd (lt_width_iff.mpr h) (by omega)
  rw [below, slice, List.drop_eq_nil_of_le (by omega), List.take_nil]

theorem marked_append (l l' : List (Uint256 × Bool)) :
    marked (l ++ l') = marked l ++ marked l' := by
  rw [marked, List.filter_append, List.map_append]
  rfl

theorem marked_eq_nil {l : List (Uint256 × Bool)} (h : (l.any fun x => x.2) = false) :
    marked l = [] := by
  rw [List.any_eq_false] at h
  rw [marked, List.filter_eq_nil_iff.mpr h, List.map_nil]

/-- **What is matched in the part that is traversed is all that is marked below it.** -/
theorem matched_partialTree (hlen : vMatch.length = vTxid.length) (hn : vTxid.length ≤ 2 ^ 31)
    {height : Nat} (hheight : height ≤ 31) {pos : Nat} (hpos : pos < width vTxid.length height) :
    (partialTree hash2 vTxid vMatch height pos).matched =
    marked (below vTxid vMatch height pos) := by
  induction height generalizing pos with
  | zero =>
    rw [width_zero] at hpos
    have hbelow : below vTxid vMatch 0 pos = [(vTxid.getD pos 0, vMatch.getD pos false)] := by
      have hzip : pos < (vTxid.zip vMatch).length := by
        rw [List.length_zip, hlen, Nat.min_self]
        exact hpos
      rw [below, slice, Nat.pow_zero, Nat.mul_one, List.drop_eq_getElem_cons hzip,
        List.take_succ_cons,
        List.take_zero, List.getElem_zip, List.getD_eq_getElem _ _ hpos,
        List.getD_eq_getElem _ _ (hlen ▸ hpos)]
    rw [partialTree, parentOfMatch_eq hlen, hbelow]
    cases vMatch.getD pos false <;> rfl
  | succ height ih =>
    have hwidth := width_succ vTxid.length height
    rw [partialTree, calcTreeWidth_eq hn (by omega), below_succ, marked_append]
    split_ifs with hflag hnext
    · rw [Bool.not_eq_true', parentOfMatch_eq hlen, below_succ, List.any_append,
        Bool.or_eq_false_iff] at hflag
      rw [marked_eq_nil hflag.1, marked_eq_nil hflag.2]
      rfl
    · rw [PartialTree.matched, ih (by omega) (by omega), ih (by omega) hnext]
    · have hnil : below vTxid vMatch height (pos * 2 + 1) = [] := below_eq_nil hlen (by omega)
      rw [PartialTree.matched, ih (by omega) (by omega), hnil]
      exact (List.append_nil _).symm

theorem parentOfMatch_succ (hlen : vMatch.length = vTxid.length) (height pos : Nat) :
    parentOfMatch vTxid.length vMatch (height + 1) pos =
      (parentOfMatch vTxid.length vMatch height (pos * 2) ||
        parentOfMatch vTxid.length vMatch height (pos * 2 + 1)) := by
  rw [parentOfMatch_eq hlen, parentOfMatch_eq hlen, parentOfMatch_eq hlen, below_succ,
    List.any_append]

theorem lt_width_of_parentOfMatch (hlen : vMatch.length = vTxid.length) {height pos : Nat}
    (h : parentOfMatch vTxid.length vMatch height pos = true) :
      pos < width vTxid.length height := by
  by_contra hle
  rw [parentOfMatch_eq hlen, below_eq_nil hlen (Nat.not_lt.mp hle)] at h
  exact Bool.false_ne_true h

/-! ## Sizes -/

theorem leaves_le_below (hlen : vMatch.length = vTxid.length) (hn : vTxid.length ≤ 2 ^ 31)
    {height : Nat} (hheight : height ≤ 31) {pos : Nat} (hpos : pos < width vTxid.length height) :
    (partialTree hash2 vTxid vMatch height pos).leaves ≤
    (below vTxid vMatch height pos).length := by
  have hone : ∀ k p, p < width vTxid.length k → 1 ≤ (below vTxid vMatch k p).length := by
    intro k p hp
    have hlt := lt_width_iff.mp hp
    have hpow : 0 < 2 ^ k := Nat.two_pow_pos k
    rw [below, slice, List.length_take, List.length_drop, List.length_zip, hlen]
    omega
  induction height generalizing pos with
  | zero => exact hone 0 pos hpos
  | succ height ih =>
    have hwidth := width_succ vTxid.length height
    rw [partialTree, calcTreeWidth_eq hn (by omega)]
    split_ifs with hflag hnext
    · exact hone (height + 1) pos hpos
    · rw [PartialTree.leaves, below_succ, List.length_append]
      exact Nat.add_le_add (ih (by omega) (by omega)) (ih (by omega) hnext)
    · rw [PartialTree.leaves, below_succ, List.length_append]
      exact (ih (by omega) (by omega)).trans (Nat.le_add_right _ _)

theorem length_bits_lt (height pos : Nat) :
    (partialTree hash2 vTxid vMatch height pos).bits.length < 2 ^ (height + 1) := by
  induction height generalizing pos with
  | zero => exact Nat.one_lt_two
  | succ height ih =>
    have hleft := ih (pos * 2)
    have hright := ih (pos * 2 + 1)
    rw [partialTree]
    split_ifs
    · exact Nat.one_lt_two_pow (by omega)
    · rw [PartialTree.bits, List.length_cons, List.length_append]
      omega
    · rw [PartialTree.bits, List.length_cons]
      omega

theorem exists_of_onlyChildren {nHeight pos : Nat}
    (h : (partialTree hash2 vTxid vMatch nHeight pos).onlyChildren ≠ 0) :
    ∃ height < nHeight, ∃ q, parentOfMatch vTxid.length vMatch (height + 1) q = true ∧
      ¬ q * 2 + 1 < calcTreeWidth vTxid.length height := by
  induction nHeight generalizing pos with
  | zero => exact absurd rfl h
  | succ nHeight ih =>
    have hup : ∀ p, (partialTree hash2 vTxid vMatch nHeight p).onlyChildren ≠ 0 →
        ∃ height < nHeight + 1, ∃ q, parentOfMatch vTxid.length vMatch (height + 1) q = true ∧
          ¬ q * 2 + 1 < calcTreeWidth vTxid.length height := by
      intro p hp
      obtain ⟨height, hlt, hq⟩ := ih hp
      exact ⟨height, by omega, hq⟩
    rw [partialTree] at h
    split_ifs at h with hflag hnext
    · exact absurd rfl h
    · rw [PartialTree.onlyChildren] at h
      by_cases hleft : (partialTree hash2 vTxid vMatch nHeight (pos * 2)).onlyChildren = 0
      · exact hup (pos * 2 + 1) (by omega)
      · exact hup (pos * 2) hleft
    · rw [Bool.not_eq_true', Bool.not_eq_false] at hflag
      exact ⟨nHeight, by omega, pos, hflag, hnext⟩

theorem onlyChildren_above (hash2 : Uint256 → Uint256 → Uint256)
    (hlen : vMatch.length = vTxid.length) (hn : vTxid.length ≤ 2 ^ 31)
    {height pos : Nat} (hmatch : parentOfMatch vTxid.length vMatch (height + 1) pos = true)
    (hlast : ¬ pos * 2 + 1 < calcTreeWidth vTxid.length height) (d : Nat) :
    parentOfMatch vTxid.length vMatch (height + 1 + d) (pos / 2 ^ d) = true ∧ (height + 1 + d ≤ 31 →
        (partialTree hash2 vTxid vMatch (height + 1 + d) (pos / 2 ^ d)).onlyChildren ≠ 0) := by
  induction d with
  | zero =>
    rw [Nat.pow_zero, Nat.div_one, Nat.add_zero]
    refine ⟨hmatch, fun _ => ?_⟩
    rw [partialTree, hmatch, if_neg (by decide), if_neg hlast]
    exact Nat.succ_ne_zero _
  | succ d ih =>
    obtain ⟨hbelow, hcount⟩ := ih
    have hhalf : pos / 2 ^ (d + 1) = pos / 2 ^ d / 2 := by
      rw [Nat.pow_succ, Nat.div_div_eq_div_mul]
    rw [hhalf]
    generalize pos / 2 ^ d = p at hbelow hcount
    -- `p` is the left child of its parent or the right one
    have hp : p = p / 2 * 2 ∨ p = p / 2 * 2 + 1 := by omega
    have hparent : parentOfMatch vTxid.length vMatch (height + 1 + d + 1) (p / 2) = true := by
      rw [parentOfMatch_succ hlen, Bool.or_eq_true]
      rcases hp with hp | hp
      · exact Or.inl (hp ▸ hbelow)
      · exact Or.inr (hp ▸ hbelow)
    refine ⟨hparent, fun hle => ?_⟩
    have hcount := hcount (by omega)
    rw [← Nat.add_assoc, partialTree, hparent, if_neg (by decide), calcTreeWidth_eq hn (by omega)]
    rcases hp with hp | hp
    · rw [← hp]
      split_ifs
      · exact fun hzero => hcount (Nat.eq_zero_of_add_eq_zero hzero).1
      · exact Nat.succ_ne_zero _
    · have hnext := lt_width_of_parentOfMatch hlen hbelow
      rw [← hp, if_pos hnext]
      exact fun hzero => hcount (Nat.eq_zero_of_add_eq_zero hzero).2

/-- **The whole tree is free of only children** iff no node above a marked id has one. -/
theorem onlyChildren_eq_zero_iff (hlen : vMatch.length = vTxid.length) (hn : vTxid.length ≤ 2 ^ 31)
    {nHeight : Nat} (hheight : IsHeight vTxid.length nHeight) (hle : nHeight ≤ 31) :
    (partialTree hash2 vTxid vMatch nHeight 0).onlyChildren = 0 ↔
      ∀ height < nHeight, ∀ pos, parentOfMatch vTxid.length vMatch (height + 1) pos = true →
        pos * 2 + 1 < calcTreeWidth vTxid.length height := by
  constructor
  · intro hzero height hlt pos hmatch
    by_contra hlast
    obtain ⟨hroot, hcount⟩ := onlyChildren_above hash2 hlen hn hmatch hlast (nHeight - (height + 1))
    have htop : height + 1 + (nHeight - (height + 1)) = nHeight := by omega
    rw [htop] at hroot hcount
    have hpos := lt_width_of_parentOfMatch hlen hroot
    have hz : pos / 2 ^ (nHeight - (height + 1)) = 0 := Nat.lt_one_iff.mp (hpos.trans_le hheight.le)
    rw [hz] at hcount
    exact hcount hle hzero
  · intro h
    by_contra hne
    obtain ⟨height, hlt, q, hmatch, hlast⟩ := exists_of_onlyChildren hne
    exact hlast (h height hlt q hmatch)

end Matched

/-! ## The serialized form -/

theorem unpack_packBits (vBits : List Bool) : (packBits vBits).flatMap Bitmap.bits =
      vBits ++ List.replicate ((vBits.length + 7) / 8 * 8 - vBits.length) false := by
  have hpacked := Bitmap.bits_packed (fun p => vBits.getD p false) ((vBits.length + 7) / 8)
  rw [packBits, hpacked]
  refine List.ext_getElem? fun p => ?_
  rw [List.getElem?_map]
  by_cases hp : p < vBits.length
  · rw [List.getElem?_range (by omega), List.getElem?_append_left hp, Option.map_some,
      List.getD_eq_getElem _ _ hp, List.getElem?_eq_getElem hp]
  · rw [List.getElem?_append_right (by omega), List.getElem?_replicate]
    by_cases hpad : p < (vBits.length + 7) / 8 * 8
    · rw [List.getElem?_range hpad, if_pos (by omega), Option.map_some,
        List.getD_eq_default _ _ (by omega)]
    · rw [List.getElem?_eq_none (by rw [List.length_range]; omega), if_neg (by omega)]
      rfl

/-- **What is written is read back**, up to the padding of the flag bits. -/
theorem reads_serialize (hn : t.nTransactions < 2 ^ 32) (hhash : ∀ hash ∈ t.vHash, hash < 2 ^ 256)
    (hhashes : t.vHash.length ≤ MAX_SIZE) (hbits : (t.vBits.length + 7) / 8 ≤ MAX_SIZE) :
    Reader.Reads unserialize t.serialize
      { nTransactions := t.nTransactions
        vBits := t.vBits ++ List.replicate ((t.vBits.length + 7) / 8 * 8 - t.vBits.length) false
        vHash := t.vHash
        fBad := false } := by
  have hsize : MAX_SIZE < 256 ^ 8 := by decide
  have hbytes : (packBits t.vBits).length = (t.vBits.length + 7) / 8 := by
    rw [packBits, List.length_map, List.length_range]
  rw [serialize, ← unpack_packBits]
  refine (CompactSize.reads_writeLE (by omega)).bind ?_
  refine (CompactSize.reads_list (fun hash hmem => CompactSize.reads_writeLE (hhash hash hmem))
    hhashes (by omega)).bind ?_
  exact (CompactSize.reads_list (fun ch _ => Reader.reads_byte ch) (by omega)
    (by omega)).bind_pure _

/-! ## The round trip -/

section RoundTrip

variable {vTxid : List Uint256} {vMatch : List Bool}

theorem calcHash_lt (hhash : ∀ a b, hash2 a b < 2 ^ 256) (hids : ∀ id ∈ vTxid, id < 2 ^ 256)
    (height pos : Nat) : calcHash hash2 vTxid.length vTxid height pos < 2 ^ 256 := by
  cases height with
  | zero =>
    rw [calcHash, List.getD_eq_getElem?_getD]
    rcases hget : vTxid[pos]? with _ | id
    · exact Nat.two_pow_pos 256
    · exact hids id (List.mem_of_getElem? hget)
  | succ height => exact hhash _ _

theorem hashes_lt (hhash : ∀ a b, hash2 a b < 2 ^ 256) (hids : ∀ id ∈ vTxid, id < 2 ^ 256)
    (height pos : Nat) :
    ∀ hash ∈ (partialTree hash2 vTxid vMatch height pos).hashes, hash < 2 ^ 256 := by
  have hleaf : ∀ k p, ∀ hash ∈ [calcHash hash2 vTxid.length vTxid k p], hash < 2 ^ 256 := by
    intro k p hash hmem
    rw [List.mem_singleton.mp hmem]
    exact calcHash_lt hhash hids k p
  induction height generalizing pos with
  | zero => exact hleaf 0 pos
  | succ height ih =>
    rw [partialTree]
    split_ifs
    · exact hleaf (height + 1) pos
    · intro hash hmem
      rcases List.mem_append.mp hmem with hmem | hmem
      · exact ih _ hash hmem
      · exact ih _ hash hmem
    · exact ih _

theorem build_eq (vTxid : List Uint256) (vMatch : List Bool) :
    build hash2 vTxid vMatch = ⟨vTxid.length,
      (partialTree hash2 vTxid vMatch (calcTreeHeight vTxid.length) 0).bits,
      (partialTree hash2 vTxid vMatch (calcTreeHeight vTxid.length) 0).hashes, false⟩ :=
  traverseAndBuild_eq _ _ [] [] false

/-- **`ExtractMatches` accepts the tree**, with its flag bits padded to bytes. -/
theorem extractMatches_padded {tree : PartialTree} {n : Nat} (hn : n ≠ 0)
    (hmax : n ≤ MAX_BLOCK_SIZE / 60) (hfits : tree.Fits n (calcTreeHeight n) 0)
    (hleaves : tree.leaves ≤ n) :
    extractMatches hash2 ⟨n, tree.bits ++ List.replicate
      ((tree.bits.length + 7) / 8 * 8 - tree.bits.length) false, tree.hashes, false⟩ =
      (tree.root hash2, ⟨tree.bits.length, tree.hashes.length, tree.matched, false⟩) := by
  have hlength := tree.length_bits
  have hhashes := tree.length_hashes
  have hread := traverseAndExtract_at hash2 (t := ⟨n, tree.bits ++ List.replicate
    ((tree.bits.length + 7) / 8 * 8 - tree.bits.length) false, tree.hashes, false⟩)
    (s := { fBad := false }) hfits ⟨List.prefix_append _ _, List.prefix_refl _⟩
  simp only [extractMatches, hread, Traversal.past, Nat.zero_add, List.nil_append,
    List.length_append, List.length_replicate]
  rw [if_neg hn, if_neg (by omega), if_neg (by omega), if_neg (by omega), if_neg (by decide),
    if_neg (by omega), if_neg (by omega)]

/-- The round trip of a block's ids and a mask: the merkle root and the matched ids come back. -/
def RoundTrips (hash2 : Uint256 → Uint256 → Uint256) (block : CBlock) (vMatch : List Bool) : Prop :=
  ∃ t, unserialize.run (build hash2 (block.vtx.map CTransaction.hash) vMatch).serialize =
    some (t, []) ∧
    (extractMatches hash2 t).1 = (block.buildMerkleTree hash2).1 ∧
    (extractMatches hash2 t).2.vMatch = marked ((block.vtx.map CTransaction.hash).zip vMatch)

theorem roundTrips (hhash : ∀ a b, hash2 a b < 2 ^ 256) (block : CBlock)
    (hids : ∀ tx ∈ block.vtx, tx.hash < 2 ^ 256) (hne : block.vtx ≠ [])
    (hmax : block.vtx.length ≤ MAX_BLOCK_SIZE / 60) (hlen : vMatch.length = block.vtx.length) :
    RoundTrips hash2 block vMatch := by
  have hlimit : MAX_BLOCK_SIZE / 60 = 16666 := rfl
  have hsize : MAX_SIZE = 33554432 := rfl
  have hroot := calcHash_root hash2 block (by omega) hne
  have hlength : (block.vtx.map CTransaction.hash).length = block.vtx.length := List.length_map _
  unfold RoundTrips
  have hids' : ∀ id ∈ block.vtx.map CTransaction.hash, id < 2 ^ 256 := by
    intro id hid
    obtain ⟨tx, htx, rfl⟩ := List.mem_map.mp hid
    exact hids tx htx
  have hpos := List.length_pos_iff.mpr hne
  generalize block.vtx.map CTransaction.hash = vTxid at hroot hlength hids' ⊢
  obtain ⟨hheight, -⟩ := isHeight_calcTreeHeight (n := vTxid.length) (by omega)
  have hheight15 : calcTreeHeight vTxid.length ≤ 15 := hheight.le_of_width (by unfold width; omega)
  have hwidth := width_pos (n := vTxid.length) (by omega) (calcTreeHeight vTxid.length)
  have hfits : (partialTree hash2 vTxid vMatch (calcTreeHeight vTxid.length) 0).Fits vTxid.length
      (calcTreeHeight vTxid.length) 0 := fits_partialTree _ _
  have hmatched : (partialTree hash2 vTxid vMatch (calcTreeHeight vTxid.length) 0).matched =
      marked (below vTxid vMatch (calcTreeHeight vTxid.length) 0) :=
    matched_partialTree (by omega) (by omega) (by omega) hwidth
  have hleaves : (partialTree hash2 vTxid vMatch (calcTreeHeight vTxid.length) 0).leaves ≤
      (below vTxid vMatch (calcTreeHeight vTxid.length) 0).length :=
    leaves_le_below (by omega) (by omega) (by omega) hwidth
  have hbits : (partialTree hash2 vTxid vMatch (calcTreeHeight vTxid.length) 0).bits.length <
      2 ^ (calcTreeHeight vTxid.length + 1) := length_bits_lt _ _
  have hroot' : (partialTree hash2 vTxid vMatch (calcTreeHeight vTxid.length) 0).root hash2 =
      calcHash hash2 vTxid.length vTxid (calcTreeHeight vTxid.length) 0 := root_partialTree _ _
  have hwide : ∀ hash ∈ (partialTree hash2 vTxid vMatch (calcTreeHeight vTxid.length) 0).hashes,
      hash < 2 ^ 256 := hashes_lt hhash hids' _ 0
  have hall : below vTxid vMatch (calcTreeHeight vTxid.length) 0 = vTxid.zip vMatch := by
    have htop : ¬ 1 * 2 ^ calcTreeHeight vTxid.length < vTxid.length := fun h =>
      absurd (lt_width_iff.mpr h) (Nat.not_lt.mpr hheight.le)
    rw [below, slice, Nat.zero_mul, List.drop_zero, List.take_of_length_le]
    rw [List.length_zip]
    omega
  rw [hall] at hmatched hleaves
  rw [hroot] at hroot'
  rw [List.length_zip] at hleaves
  have hpow : 2 ^ (calcTreeHeight vTxid.length + 1) ≤ 2 ^ 16 :=
    Nat.pow_le_pow_right (by omega) (by omega)
  rw [build_eq]
  generalize partialTree hash2 vTxid vMatch (calcTreeHeight vTxid.length) 0 = tree at *
  have hhashes := tree.length_hashes
  have hn32 : vTxid.length < 2 ^ 32 := by omega
  have hmaxHashes : tree.hashes.length ≤ MAX_SIZE := by omega
  have hmaxBytes : (tree.bits.length + 7) / 8 ≤ MAX_SIZE := by omega
  have hread := reads_serialize (t := ⟨vTxid.length, tree.bits, tree.hashes, false⟩)
    hn32 hwide hmaxHashes hmaxBytes
  refine ⟨_, by simpa using hread [], ?_⟩
  rw [extractMatches_padded (by omega) (by omega) hfits (by omega)]
  exact ⟨hroot', hmatched⟩

/-- The tree that is built, as `N` leaves. -/
def leafNodes (hash2 : Uint256 → Uint256 → Uint256) (vTxid : List Uint256) (vMatch : List Bool) :
    Nat :=
  (partialTree hash2 vTxid vMatch (calcTreeHeight vTxid.length) 0).leaves

theorem build_sizes (vTxid : List Uint256) (vMatch : List Bool) :
    ((build hash2 vTxid vMatch).vBits.length ≤ 2 * leafNodes hash2 vTxid vMatch - 1 ∧
      (build hash2 vTxid vMatch).vHash.length = leafNodes hash2 vTxid vMatch) ↔
      (partialTree hash2 vTxid vMatch (calcTreeHeight vTxid.length) 0).onlyChildren = 0 := by
  rw [build_eq, leafNodes]
  generalize partialTree hash2 vTxid vMatch (calcTreeHeight vTxid.length) 0 = tree
  have hbits := tree.length_bits
  have hhashes := tree.length_hashes
  have hpos := tree.leaves_pos
  constructor
  · intro ⟨hle, _⟩
    have hle' : tree.bits.length ≤ 2 * tree.leaves - 1 := hle
    omega
  · intro hzero
    have hle : tree.bits.length ≤ 2 * tree.leaves - 1 := by omega
    exact ⟨hle, hhashes⟩

/-- **A partial merkle tree round-trips, and keeps the bound on its flag bits iff no node above a
matched id has an only child.** -/
theorem roundTrips_within_bounds_iff (hhash : ∀ a b, hash2 a b < 2 ^ 256) (block : CBlock)
    (hids : ∀ tx ∈ block.vtx, tx.hash < 2 ^ 256) (hne : block.vtx ≠ [])
    (hmax : block.vtx.length ≤ MAX_BLOCK_SIZE / 60) (hlen : vMatch.length = block.vtx.length) :
    (RoundTrips hash2 block vMatch ∧
      (build hash2 (block.vtx.map CTransaction.hash) vMatch).vBits.length ≤
        2 * leafNodes hash2 (block.vtx.map CTransaction.hash) vMatch - 1 ∧
      (build hash2 (block.vtx.map CTransaction.hash) vMatch).vHash.length =
        leafNodes hash2 (block.vtx.map CTransaction.hash) vMatch) ↔
      ∀ height < calcTreeHeight block.vtx.length, ∀ pos,
        parentOfMatch block.vtx.length vMatch (height + 1) pos = true →
          pos * 2 + 1 < calcTreeWidth block.vtx.length height := by
  have hlimit : MAX_BLOCK_SIZE / 60 = 16666 := rfl
  have hlength : (block.vtx.map CTransaction.hash).length = block.vtx.length := List.length_map _
  obtain ⟨hheight, hle⟩ := isHeight_calcTreeHeight (n := (block.vtx.map CTransaction.hash).length)
    (by omega)
  rw [build_sizes, and_iff_right (roundTrips hhash block hids hne hmax hlen),
    onlyChildren_eq_zero_iff (by omega) (by omega) hheight hle, hlength]

/-- A pair hash of 256 bits, and a block whose transactions have the ids 1, 2, and so on. -/
def sampleHash2 (a b : Uint256) : Uint256 := (3 * a + 5 * b) % 2 ^ 256

def numberedBlock (n : Nat) : CBlock where
  nVersion := 3
  hashPrevBlock := 0
  hashMerkleRoot := 0
  nTime := 0
  nBits := 0
  nNonce := 0
  vtx := (List.range n).map fun i => { hash := i + 1, vin := [], vout := [] }

/-- Five ids and a match of the second one. -/
theorem secondOfFive_within_bounds :
    (RoundTrips sampleHash2 (numberedBlock 5) [false, true, false, false, false] ∧
      (build sampleHash2 ((numberedBlock 5).vtx.map CTransaction.hash)
          [false, true, false, false, false]).vBits.length ≤
        2 * leafNodes sampleHash2 ((numberedBlock 5).vtx.map CTransaction.hash)
          [false, true, false, false, false] - 1 ∧
      (build sampleHash2 ((numberedBlock 5).vtx.map CTransaction.hash)
          [false, true, false, false, false]).vHash.length =
        leafNodes sampleHash2 ((numberedBlock 5).vtx.map CTransaction.hash)
          [false, true, false, false, false]) ↔
      ∀ height < calcTreeHeight 5, ∀ pos,
        parentOfMatch 5 [false, true, false, false, false] (height + 1) pos = true →
          pos * 2 + 1 < calcTreeWidth 5 height :=
  roundTrips_within_bounds_iff (fun _ _ => Nat.mod_lt _ (Nat.two_pow_pos 256)) (numberedBlock 5)
    (fun tx htx => by
      obtain ⟨i, hi, rfl⟩ := List.mem_map.mp htx
      have hlt : i < 5 := List.mem_range.mp hi
      exact lt_of_le_of_lt (Nat.succ_le_of_lt hlt) (by decide))
    (by decide) (by decide) rfl

/-- Five ids and a match of the last one, with two only children above it: five flag bits for two
leaves. -/
theorem lastOfFive_over_bound :
    ¬ (RoundTrips sampleHash2 (numberedBlock 5) [false, false, false, false, true] ∧
      (build sampleHash2 ((numberedBlock 5).vtx.map CTransaction.hash)
          [false, false, false, false, true]).vBits.length ≤
        2 * leafNodes sampleHash2 ((numberedBlock 5).vtx.map CTransaction.hash)
          [false, false, false, false, true] - 1 ∧
      (build sampleHash2 ((numberedBlock 5).vtx.map CTransaction.hash)
          [false, false, false, false, true]).vHash.length =
        leafNodes sampleHash2 ((numberedBlock 5).vtx.map CTransaction.hash)
          [false, false, false, false, true]) :=
  fun h => absurd h.2.1 (by decide)

end RoundTrip

end CPartialMerkleTree

end BitBlocks
