import Mathlib.Data.Nat.Bitwise
import BitBlocks.Lib.Ancestor

/-!
# Skip pointers (`GetAncestor`, `BuildSkip`, `LastCommonAncestor`)

An entry has a pointer to its predecessor and one that skips back further. `GetAncestor` takes
either, whichever looks better; where the second leads was found by `GetAncestor` when the entry
was made, from the pointers of the entries below. All that matters is that a skip goes back, and
that it goes where it says.

A pointer may be `NULL`, which is an inner `none`. Following one that is, and an assertion that
fails, is an outer `none`.
-/

namespace BitBlocks

/-- Turn the lowest '1' bit in the binary representation of a number into a '0'. -/
def invertLowestOne (n : Nat) : Nat := n &&& (n - 1)

/-- `GetSkipHeight`: what height to jump back to. -/
def getSkipHeight (height : Nat) : Nat :=
  if height < 2 then 0
  else if height % 2 = 1 then invertLowestOne (invertLowestOne (height - 1)) + 1
  else invertLowestOne height

theorem invertLowestOne_le (n : Nat) : invertLowestOne n ≤ n - 1 := Nat.and_le_right

/-- **A skip goes back.** -/
theorem getSkipHeight_lt {height : Nat} (h : 0 < height) : getSkipHeight height < height := by
  have hone := invertLowestOne_le (height - 1)
  have htwo := invertLowestOne_le (invertLowestOne (height - 1))
  have heven := invertLowestOne_le height
  unfold getSkipHeight
  split
  · exact h
  split
  · omega
  · omega

variable {α : Type} (T : ParentTree α)

namespace Skip

/-- Follow the skip pointer, unless that of the predecessor is better for this height. -/
def followsSkip (height heightWalk : Nat) : Bool :=
  let heightSkip := getSkipHeight heightWalk
  let heightSkipPrev := getSkipHeight (heightWalk - 1)
  heightSkip == height || (decide (heightSkip > height) &&
    !(decide ((heightSkipPrev : Int) < heightSkip - 2) && decide (heightSkipPrev ≥ height)))

/-- The loop of `GetAncestor`. -/
def getAncestorLoop (pskip : α → Option α) (height : Nat) (pindexWalk : Option α)
    (heightWalk : Nat) : Option (Option α) :=
  if _h : heightWalk > height then
    match pindexWalk with
    | none => none
    | some pindexWalk =>
      if followsSkip height heightWalk then
        getAncestorLoop pskip height (pskip pindexWalk) (getSkipHeight heightWalk)
      else
        getAncestorLoop pskip height (T.parent pindexWalk) (heightWalk - 1)
  else some pindexWalk
termination_by heightWalk
decreasing_by
  · exact getSkipHeight_lt (by omega)
  · omega

/-- `CBlockIndex::GetAncestor`. -/
def getAncestor (pskip : α → Option α) (pindex : α) (height : Int) : Option (Option α) :=
  if height > T.depth pindex ∨ height < 0 then some none
  else getAncestorLoop T pskip height.toNat (some pindex) (T.depth pindex)

/-- `CBlockIndex::BuildSkip`. -/
def buildSkip [DecidableEq α] (pskip : α → Option α) (pindex : α) : Option (α → Option α) :=
  match T.parent pindex with
  | none => some pskip
  | some pprev =>
    (getAncestor T pskip pprev (getSkipHeight (T.depth pindex))).map (Function.update pskip pindex)

/-- `BuildSkip` on one entry after another. -/
def buildSkips [DecidableEq α] (pskip : α → Option α) (order : List α) : Option (α → Option α) :=
  order.foldlM (buildSkip T) pskip

/-- The loop of `LastCommonAncestor`. -/
def meet [DecidableEq α] (pa pb : Option α) : Option α × Option α :=
  match pa, pb with
  | some a, some b => if a = b then (some a, some b) else meet (T.parent a) (T.parent b)
  | _, _ => (pa, pb)
termination_by pa.elim 0 fun a => T.depth a + 1
decreasing_by
  cases hp : T.parent a with
  | none => exact Nat.succ_pos _
  | some p =>
    have := T.depth_parent hp
    simp only [Option.elim_some]
    omega

/-- The higher of two entries goes back to the height of the other. -/
def lower (pskip : α → Option α) (pa : α) (nHeight : Nat) : Option (Option α) :=
  if T.depth pa > nHeight then getAncestor T pskip pa nHeight else some (some pa)

/-- `LastCommonAncestor`. -/
def lastCommonAncestor [DecidableEq α] (pskip : α → Option α) (pa pb : α) : Option (Option α) :=
  (lower T pskip pa (T.depth pb)).bind fun pa' =>
    (lower T pskip pb (T.depth pa)).bind fun pb' =>
      let (pa, pb) := meet T pa' pb'
      -- eventually all chain branches meet at the genesis block
      if pa = pb then some pa else none

/-! ## The walk -/

/-- The skip pointer leads to the ancestor at the height it is for. -/
def SkipsTo (pskip : α → Option α) (b : α) : Prop :=
  pskip b = T.up (T.depth b - getSkipHeight (T.depth b)) b

/-- So do those of all entries of a branch, but for the root, which is never left. -/
def Skips (pskip : α → Option α) (b : α) : Prop := ∀ a ∈ T.branch b, a ≠ T.root → SkipsTo T pskip a

variable {T} {pskip : α → Option α} {a b p : α}

theorem Skips.mono (h : Skips T pskip b) (ha : a ∈ T.branch b) : Skips T pskip a :=
  fun c hc => h c (ParentTree.mem_branch_trans ha hc)

theorem Skips.child (h : Skips T pskip p) (hp : T.parent b = some p) (hb : SkipsTo T pskip b) :
    Skips T pskip b := by
  intro a ha hne
  rcases (ParentTree.mem_branch_parent hp).mp ha with rfl | ha
  · exact hb
  · exact h a ha hne

theorem skips_root : Skips T pskip T.root := by
  intro a ha hne
  rw [ParentTree.branch_root, List.mem_singleton] at ha
  exact absurd ha hne

/-- **Either pointer is a number of plain steps**, and the walk ends where they do. -/
theorem getAncestorLoop_eq (h : Skips T pskip b) {height : Nat} (hle : height ≤ T.depth b) :
    getAncestorLoop T pskip height (some b) (T.depth b) = some (T.up (T.depth b - height) b) := by
  induction hn : T.depth b using Nat.strong_induction_on generalizing b with
  | h n ih =>
    subst hn
    rw [getAncestorLoop]
    split
    · rename_i hlt
      have hne : b ≠ T.root := by
        rintro rfl
        rw [T.depth_root] at hlt
        omega
      -- the rest of the walk, from an ancestor that is `k` steps away
      have hrest : ∀ k c, 0 < k → T.up k b = some c → height ≤ T.depth c →
          getAncestorLoop T pskip height (some c) (T.depth c) =
            some (T.up (T.depth b - height) b) := by
        intro k c hk hup hc
        obtain ⟨hmem, hdepth⟩ := ParentTree.up_eq_some.mp hup
        rw [ih (T.depth c) (by omega) (h.mono hmem) hc rfl, ← ParentTree.up_add hup]
        congr 2
        omega
      split
      · rename_i hskip
        have hback : getSkipHeight (T.depth b) < T.depth b := getSkipHeight_lt (by omega)
        have hheight : height ≤ getSkipHeight (T.depth b) := by
          simp only [followsSkip, Bool.or_eq_true, beq_iff_eq, Bool.and_eq_true,
            decide_eq_true_eq] at hskip
          omega
        obtain ⟨c, hup⟩ := ParentTree.exists_up (T := T) (a := b)
          (n := T.depth b - getSkipHeight (T.depth b)) (by omega)
        have hdepth := (ParentTree.up_eq_some.mp hup).2
        have hc : getSkipHeight (T.depth b) = T.depth c := by omega
        rw [h b (ParentTree.self_mem_branch b) hne, hup, hc]
        exact hrest _ c (by omega) hup (by omega)
      · cases hp : T.parent b with
        | none => exact absurd (T.eq_root hp) hne
        | some p =>
          have hdepth := T.depth_parent hp
          have hup : T.up 1 b = some p := by
            rw [ParentTree.up, hp]
            rfl
          rw [show T.depth b - 1 = T.depth p by omega]
          exact hrest 1 p Nat.one_pos hup (by omega)
    · rw [show T.depth b - height = 0 by omega]
      rfl

theorem getAncestor_eq (h : Skips T pskip b) {height : Nat} (hle : height ≤ T.depth b) :
    getAncestor T pskip b height = some (T.up (T.depth b - height) b) := by
  rw [getAncestor, if_neg (by omega), Int.toNat_natCast]
  exact getAncestorLoop_eq h hle

variable [DecidableEq α]

/-! ## Building -/

variable (T) in
/-- Every entry comes after its predecessor; genesis may be left out. -/
def PredecessorsFirst (order : List α) : Prop :=
  ∀ l₁ b l₂, order = l₁ ++ b :: l₂ → ∀ p, T.parent b = some p → p = T.root ∨ p ∈ l₁

omit [DecidableEq α] in
theorem PredecessorsFirst.of_append {order order' : List α}
    (h : PredecessorsFirst T (order ++ order')) : PredecessorsFirst T order := by
  intro l1 b l2 hl
  exact h l1 b (l2 ++ order') (by rw [hl, List.append_assoc, List.cons_append])

theorem buildSkip_spec (hp : T.parent b = some p) (hskips : Skips T pskip p) :
    ∃ pskip', buildSkip T pskip b = some pskip' ∧ Skips T pskip' b ∧
      ∀ a, Skips T pskip a → Skips T pskip' a := by
  have hdepth := T.depth_parent hp
  have hback : getSkipHeight (T.depth b) < T.depth b := getSkipHeight_lt (by omega)
  have hbuild : getAncestor T pskip p (getSkipHeight (T.depth b)) =
      some (T.up (T.depth b - getSkipHeight (T.depth b)) b) := by
    have hup : T.up 1 b = some p := by
      rw [ParentTree.up, hp]
      rfl
    rw [getAncestor_eq hskips (by omega), ← ParentTree.up_add hup]
    congr 2
    omega
  have hto : SkipsTo T (Function.update pskip b
      (T.up (T.depth b - getSkipHeight (T.depth b)) b)) b := Function.update_self ..
  have hkeep : ∀ a, Skips T pskip a → Skips T (Function.update pskip b
      (T.up (T.depth b - getSkipHeight (T.depth b)) b)) a := by
    intro a ha c hc hne
    by_cases hcb : c = b
    · rw [hcb]
      exact hto
    · rw [SkipsTo, Function.update_of_ne hcb]
      exact ha c hc hne
  refine ⟨_, ?_, (hkeep p hskips).child hp hto, hkeep⟩
  rw [buildSkip, hp]
  dsimp only
  rw [hbuild]
  rfl

/-- **After the calls, all pointers are right**, whatever they were before. -/
theorem buildSkips_spec (pskip : α → Option α) {order : List α} (h : PredecessorsFirst T order) :
    ∃ pskip', buildSkips T pskip order = some pskip' ∧
      ∀ b, b = T.root ∨ b ∈ order → Skips T pskip' b := by
  induction order using List.reverseRecOn with
  | nil =>
    refine ⟨pskip, rfl, ?_⟩
    rintro b (rfl | hb)
    · exact skips_root
    · exact absurd hb List.not_mem_nil
  | append_singleton order b ih =>
    obtain ⟨pskip', hbuilt, hskips⟩ := ih h.of_append
    have hlast : buildSkips T pskip (order ++ [b]) = buildSkip T pskip' b := by
      unfold buildSkips at hbuilt ⊢
      rw [List.foldlM_append, hbuilt]
      simp
    rw [hlast]
    cases hp : T.parent b with
    | none =>
      refine ⟨pskip', by rw [buildSkip, hp], ?_⟩
      rintro a (rfl | ha)
      · exact skips_root
      rcases List.mem_append.mp ha with ha | ha
      · exact hskips a (Or.inr ha)
      · rw [List.mem_singleton.mp ha, T.eq_root hp]
        exact skips_root
    | some p =>
      obtain ⟨pskip'', hbuild, hb, hkeep⟩ := buildSkip_spec hp (hskips p (h order b [] rfl p hp))
      refine ⟨pskip'', hbuild, ?_⟩
      rintro a (rfl | ha)
      · exact skips_root
      rcases List.mem_append.mp ha with ha | ha
      · exact hkeep a (hskips a (Or.inr ha))
      · rw [List.mem_singleton.mp ha]
        exact hb

/-! ## Where two branches meet -/

theorem meet_spec (hd : T.depth a = T.depth b) :
    ∃ c, meet T (some a) (some b) = (some c, some c) ∧ T.LastCommon a b c := by
  induction hn : T.depth a generalizing a b with
  | zero =>
    have hroot : ∀ x, T.depth x = 0 → x = T.root := by
      intro x hx
      cases hp : T.parent x with
      | none => exact T.eq_root hp
      | some y =>
        rw [T.depth_parent hp] at hx
        omega
    obtain rfl := (hroot a hn).trans (hroot b (by omega)).symm
    exact ⟨a, by rw [meet, if_pos rfl], .of_mem (ParentTree.self_mem_branch a)⟩
  | succ n ih =>
    rw [meet]
    split
    · rename_i hab
      subst hab
      exact ⟨a, rfl, .of_mem (ParentTree.self_mem_branch a)⟩
    rename_i hab
    have hparent : ∀ x, T.depth x = n + 1 → ∃ y, T.parent x = some y ∧ T.depth y = n := by
      intro x hx
      cases hp : T.parent x with
      | none =>
        rw [T.eq_root hp, T.depth_root] at hx
        omega
      | some y => exact ⟨y, rfl, by have := T.depth_parent hp; omega⟩
    obtain ⟨a', ha, hda⟩ := hparent a hn
    obtain ⟨b', hb, hdb⟩ := hparent b (by omega)
    obtain ⟨c, hmeet, hc⟩ := ih (hda.trans hdb.symm) hda
    rw [ha, hb]
    refine ⟨c, hmeet, (ParentTree.mem_branch_parent ha).mpr (Or.inr hc.left),
      (ParentTree.mem_branch_parent hb).mpr (Or.inr hc.right), fun d hd1 hd2 => ?_⟩
    have hda' : d ∈ T.branch a' := by
      rcases (ParentTree.mem_branch_parent ha).mp hd1 with rfl | h
      · -- an entry of this height is on the other branch only if it is that entry
        exact absurd (ParentTree.eq_of_depth_eq hd2 (ParentTree.self_mem_branch b) hd) hab
      · exact h
    have hdb' : d ∈ T.branch b' := by
      rcases (ParentTree.mem_branch_parent hb).mp hd2 with rfl | h
      · exact absurd (ParentTree.eq_of_depth_eq hd1 (ParentTree.self_mem_branch a) hd.symm).symm hab
      · exact h
    exact hc.last d hda' hdb'

omit [DecidableEq α] in
theorem lower_eq (ha : Skips T pskip a) (nHeight : Nat) :
    ∃ a', lower T pskip a nHeight = some (some a') ∧ a' ∈ T.branch a ∧
      T.depth a' = min (T.depth a) nHeight := by
  rw [lower]
  split
  · rename_i hlt
    obtain ⟨a', hup⟩ := ParentTree.exists_up (T := T) (a := a) (n := T.depth a - nHeight) (by omega)
    obtain ⟨hmem, hdepth⟩ := ParentTree.up_eq_some.mp hup
    exact ⟨a', by rw [getAncestor_eq ha (Nat.le_of_lt hlt), hup], hmem, by omega⟩
  · exact ⟨a, rfl, ParentTree.self_mem_branch a, by omega⟩

theorem lastCommonAncestor_spec (ha : Skips T pskip a) (hb : Skips T pskip b) :
    ∃ c, lastCommonAncestor T pskip a b = some (some c) ∧ T.LastCommon a b c := by
  obtain ⟨a', ha', hmema, hda⟩ := lower_eq ha (T.depth b)
  obtain ⟨b', hb', hmemb, hdb⟩ := lower_eq hb (T.depth a)
  obtain ⟨c, hmeet, hc⟩ := meet_spec (T := T) (a := a') (b := b') (by omega)
  refine ⟨c, ?_, ParentTree.mem_branch_trans hmema hc.left,
    ParentTree.mem_branch_trans hmemb hc.right, ?_⟩
  · rw [lastCommonAncestor, ha', Option.bind_some, hb', Option.bind_some, hmeet]
    exact if_pos rfl
  · intro d hd1 hd2
    -- a shared ancestor is no higher than either entry
    have hle1 := ParentTree.depth_le hd1
    have hle2 := ParentTree.depth_le hd2
    exact hc.last d (ParentTree.mem_branch_of_depth_le hd1 hmema (by omega))
      (ParentTree.mem_branch_of_depth_le hd2 hmemb (by omega))

end Skip

open Skip in
/--
**Skip pointers change nothing but the speed.** When `BuildSkip` was called on the entries of a
tree, each after its predecessor, `GetAncestor` ends for every height up to an entry's own with
the entry that so many plain steps lead to, and `LastCommonAncestor` with the deepest entry that
two branches share.
-/
theorem getAncestor_eq_plain_walk [DecidableEq α] (T : ParentTree α) (pskip : α → Option α)
    {order : List α} (hfirst : PredecessorsFirst T order) :
    ∃ pskip', buildSkips T pskip order = some pskip' ∧
      (∀ b, b = T.root ∨ b ∈ order → ∀ height : Nat, height ≤ T.depth b →
        ∃ a, T.up (T.depth b - height) b = some a ∧ getAncestor T pskip' b height = some (some a)) ∧
      ∀ a b, (a = T.root ∨ a ∈ order) → (b = T.root ∨ b ∈ order) →
        ∃ c, lastCommonAncestor T pskip' a b = some (some c) ∧ T.LastCommon a b c := by
  obtain ⟨pskip', hbuilt, hskips⟩ := buildSkips_spec pskip hfirst
  refine ⟨pskip', hbuilt, fun b hb height hle => ?_, fun a b ha hb => ?_⟩
  · obtain ⟨a, hup⟩ := ParentTree.exists_up (T := T) (a := b) (n := T.depth b - height) (by omega)
    exact ⟨a, hup, by rw [getAncestor_eq (hskips b hb) hle, hup]⟩
  · exact lastCommonAncestor_spec (hskips a ha) (hskips b hb)

theorem Skip.predecessorsFirst_of_sorted {r : α → α → Prop} {T : ParentTree α} {order : List α}
    (hasymm : ∀ {a b}, r a b → ¬ r b a) (hsorted : order.Pairwise r)
    (hback : ∀ b ∈ order, ∀ p, T.parent b = some p → p ∈ order ∧ r p b) :
    PredecessorsFirst T order := by
  rintro l1 b l2 rfl p hp
  obtain ⟨hmem, hpb⟩ := hback b (by simp) p hp
  refine Or.inr ?_
  rcases List.mem_append.mp hmem with hbefore | hafter
  · exact hbefore
  -- the entry itself and what comes after it are not in front of it
  rcases List.mem_cons.mp hafter with rfl | hafter
  · exact absurd hpb (hasymm hpb)
  · have hbp := (List.pairwise_cons.mp (List.pairwise_append.mp hsorted).2.1).1 p hafter
    exact absurd hpb (hasymm hbp)

/-! ### A chain of six entries -/

/-- A chain without branches, its entries numbered by height. -/
def Skip.line : ParentTree Nat where
  root := 0
  parent b := if b = 0 then none else some (b - 1)
  depth b := b
  parent_root := rfl
  eq_root h := by
    by_contra hne
    rw [if_neg hne] at h
    exact absurd h (by simp)
  depth_root := rfl
  depth_parent {b a} h := by
    split at h
    · exact absurd h (by simp)
    · obtain rfl := Option.some.inj h
      omega

open Skip in
theorem getAncestor_eq_plain_walk_line :
    ∃ pskip, buildSkips line (fun _ => none) [0, 1, 2, 3, 4, 5] = some pskip ∧
      getAncestor line pskip 5 2 = some (some 2) := by
  have hfirst : PredecessorsFirst line [0, 1, 2, 3, 4, 5] :=
    predecessorsFirst_of_sorted (r := (· < ·)) Nat.lt_asymm (by decide) fun b hb p hp => by
      have hb' : b < 6 := by revert hb; simp; omega
      have hdepth : b = p + 1 := line.depth_parent hp
      exact ⟨by simp; omega, by omega⟩
  obtain ⟨pskip, hbuilt, hwalk, -⟩ := getAncestor_eq_plain_walk line (fun _ => none) hfirst
  obtain ⟨a, hup, hanc⟩ := hwalk 5 (Or.inr (by decide)) 2 (by decide)
  obtain rfl : 2 = a := Option.some.inj hup
  exact ⟨pskip, hbuilt, hanc⟩

end BitBlocks
