import BitBlocks.Lib.Branch

/-!
# Ancestors by their depth

In a tree given by parent pointers, an ancestor is so many steps towards the root, and its depth
says how many. Two lists of ancestors are kept by programs that walk such trees: a table of a
whole branch by depth, and a sample of it that gets sparser towards the root.
-/

namespace ParentTree

variable {α : Type} {T : ParentTree α}

/-! ## Steps towards the root -/

variable (T) in
/-- The parent's parent's parent, so many times. -/
def up : Nat → α → Option α
  | 0, a => some a
  | n + 1, a => (T.parent a).bind (up n)

variable {n h : Nat} {a c b : α} {l : List α}

theorem up_eq_some : T.up n a = some c ↔ c ∈ T.branch a ∧ T.depth c + n = T.depth a := by
  induction n generalizing a with
  | zero =>
    rw [up, Option.some.injEq]
    constructor
    · rintro rfl
      exact ⟨self_mem_branch a, rfl⟩
    · rintro ⟨hc, hd⟩
      exact eq_of_depth_eq (self_mem_branch a) hc hd.symm
  | succ n ih =>
    rw [up, Option.bind_eq_some_iff]
    constructor
    · rintro ⟨b, hp, hup⟩
      obtain ⟨hc, hd⟩ := ih.mp hup
      have := T.depth_parent hp
      exact ⟨(mem_branch_parent hp).mpr (Or.inr hc), by omega⟩
    · rintro ⟨hc, hd⟩
      cases hp : T.parent a with
      | none =>
        rw [T.eq_root hp, T.depth_root] at hd
        omega
      | some b =>
        have hdepth := T.depth_parent hp
        rcases (mem_branch_parent hp).mp hc with rfl | hcb
        · omega
        · exact ⟨b, rfl, ih.mpr ⟨hcb, by omega⟩⟩

theorem exists_up (h : n ≤ T.depth a) : ∃ c, T.up n a = some c := by
  obtain ⟨c, hc, hd⟩ := exists_mem_branch_depth (T := T) (a := a) (d := T.depth a - n) (by omega)
  exact ⟨c, up_eq_some.mpr ⟨hc, by omega⟩⟩

theorem up_add {m : Nat} (h : T.up m a = some b) : T.up (m + n) a = T.up n b := by
  induction m generalizing a with
  | zero =>
    obtain rfl := Option.some.inj h
    rw [Nat.zero_add]
  | succ m ih =>
    obtain ⟨c, hp, hup⟩ := Option.bind_eq_some_iff.mp h
    rw [Nat.succ_add, up, hp]
    exact ih hup

theorem Climbs.append {l' : List α} (h : T.Climbs a l b) (h' : T.Climbs b l' c) :
    T.Climbs a (l ++ l') c := by
  induction h with
  | nil a => exact h'
  | cons hp _ ih => exact .cons hp (ih h')

theorem exists_climbs (h : c ∈ T.branch a) : ∃ l, T.Climbs c l a := ⟨_, climbs_takeWhile h⟩

/-! ## The last common ancestor -/

variable (T) in
structure LastCommon (a b c : α) : Prop where
  left : c ∈ T.branch a
  right : c ∈ T.branch b
  last : ∀ d ∈ T.branch a, d ∈ T.branch b → d ∈ T.branch c

theorem LastCommon.of_mem (h : a ∈ T.branch b) : T.LastCommon a b a :=
  ⟨self_mem_branch a, h, fun _ hd _ => hd⟩

theorem LastCommon.mem_iff {d : α} (h : T.LastCommon a b c) (hd : d ∈ T.branch a) :
    d ∈ T.branch b ↔ T.depth d ≤ T.depth c := by
  constructor
  · intro hb
    exact depth_le (h.last d hd hb)
  · intro hle
    exact mem_branch_trans h.right (mem_branch_of_depth_le hd h.left hle)

theorem exists_lastCommon (a b : α) : ∃ c, T.LastCommon a b c := by
  induction a using branch_induction (T := T) with
  | hroot => exact ⟨T.root, .of_mem (root_mem_branch b)⟩
  | hchild a p hp ih =>
    by_cases hab : a ∈ T.branch b
    · exact ⟨a, .of_mem hab⟩
    · obtain ⟨c, hc⟩ := ih
      refine ⟨c, (mem_branch_parent hp).mpr (Or.inr hc.left), hc.right, fun d ha hb => ?_⟩
      rcases (mem_branch_parent hp).mp ha with rfl | ha
      · exact absurd hb hab
      · exact hc.last d ha hb

/-! ## Sparse lists of ancestors -/

variable (T) in
/--
Ancestors from `a` down to the root, for a start at depth `h`: each step is at most one longer
than the way that was made before it, so a depth that is passed over is passed by no more than it
is away from the start.
-/
structure Sparse (h : Nat) (a : α) (l : List α) : Prop where
  head : l.head? = some a
  last : l.getLast? = some T.root
  mem : ∀ b ∈ l, b ∈ T.branch a
  falls : l.Pairwise fun b c => T.depth c < T.depth b
  finds : ∀ f ≤ h, f + f ≤ h + T.depth a → ∃ l₁ b l₂, l = l₁ ++ b :: l₂ ∧
    (∀ d ∈ l₁, f < T.depth d) ∧ T.depth b ≤ f ∧ f + f ≤ h + T.depth b

theorem Sparse.root (ha : T.depth a = 0) : T.Sparse h a [a] where
  head := rfl
  last := by
    cases hp : T.parent a with
    | none => rw [T.eq_root hp]; rfl
    | some b =>
      rw [T.depth_parent hp] at ha
      omega
  mem b hb := by
    rw [List.mem_singleton.mp hb]
    exact self_mem_branch a
  falls := List.pairwise_singleton _ _
  finds f _ hf := ⟨[], a, [], rfl, by simp, by omega, hf⟩

theorem Sparse.step (hup : T.up n a = some c) (hn : 0 < n) (hshort : n + T.depth a ≤ h + 1)
    (hl : T.Sparse h c l) : T.Sparse h a (a :: l) := by
  obtain ⟨hmem, hdepth⟩ := up_eq_some.mp hup
  refine ⟨rfl, ?_, ?_, ?_, ?_⟩
  · rw [List.getLast?_cons, hl.last]
    rfl
  · intro b hb
    rcases List.mem_cons.mp hb with rfl | hb
    · exact self_mem_branch b
    · exact mem_branch_trans hmem (hl.mem b hb)
  · refine List.pairwise_cons.mpr ⟨fun b hb => ?_, hl.falls⟩
    have := depth_le (hl.mem b hb)
    omega
  · intro f hf hroom
    by_cases hle : T.depth a ≤ f
    · exact ⟨[], a, l, rfl, by simp, hle, hroom⟩
    · obtain ⟨l1, b, l2, rfl, habove, hb, hfar⟩ := hl.finds f hf (by omega)
      refine ⟨a :: l1, b, l2, rfl, fun d hd => ?_, hb, hfar⟩
      rcases List.mem_cons.mp hd with rfl | hd
      · omega
      · exact habove d hd

/-- **What a search from the start finds**, if it looks for ancestors down from depth `f`. -/
theorem Sparse.find? {f : Nat} {p : α → Bool} (hl : T.Sparse (T.depth a) a l) (hf : f ≤ T.depth a)
    (hp : ∀ b ∈ T.branch a, p b = true ↔ T.depth b ≤ f) :
    ∃ b ∈ T.branch a, l.find? p = some b ∧ T.depth b ≤ f ∧ f - T.depth b ≤ T.depth a - f := by
  obtain ⟨l1, b, l2, rfl, habove, hb, hfar⟩ := hl.finds f hf (by omega)
  have hmem : b ∈ T.branch a := hl.mem b (by simp)
  refine ⟨b, hmem, ?_, hb, by omega⟩
  rw [List.find?_append, List.find?_eq_none.mpr, Option.none_or, List.find?_cons,
    (hp b hmem).mpr hb]
  intro d hd hpd
  have := (hp d (hl.mem d (List.mem_append_left _ hd))).mp hpd
  have := habove d hd
  omega

end ParentTree
