import BitBlocks.Chain.Skip
import BitBlocks.Primitives.Transaction

/-!
# Locators (`CChain`, `FindForkInGlobalIndex`)

A chain is a vector of entries by height. `SetTip` writes the branch of a new tip into it, from
the tip down, until it meets what is there already. A locator names entries of a branch from a
tip down to genesis: the first ones all, and then with a step that doubles each time. It never
gets longer than the way that was made, which bounds how far below the fork the first entry of
a locator is that the chain has.
-/

namespace BitBlocks

/--
The entries of `mapBlockIndex`: heights, and the lengths of chains, are `int`s, every entry had
`BuildSkip` called on it, and is filed under its hash.
-/
structure GlobalIndex (α : Type) extends ParentTree α where
  nHeight_lt : ∀ b, depth b + 1 < 2 ^ 31
  pskip : α → Option α
  skips : ∀ b, b ≠ root → Skip.SkipsTo toParentTree pskip b
  hash : α → Uint256
  /-- `mapBlockIndex.find`. -/
  find : Uint256 → Option α
  find_hash : ∀ b, find (hash b) = some b

/-- `CChain`; a pointer of the vector may be `NULL`. -/
structure CChain (α : Type) where
  vChain : List (Option α) := []

variable {α : Type} [DecidableEq α]

namespace GlobalIndex

variable (G : GlobalIndex α)

/-- `GetAncestor`, with the pointers of the index. -/
def getAncestor (pindex : α) (height : Int) : Option (Option α) :=
  Skip.getAncestor G.toParentTree G.pskip pindex height

/-- **Every tree has such an index**: `BuildSkip` is called on its entries as they come. -/
def ofTree (T : ParentTree α) (order : List α) (hfirst : Skip.PredecessorsFirst T order)
    (hall : ∀ b, b = T.root ∨ b ∈ order) (hheight : ∀ b, T.depth b + 1 < 2 ^ 31)
    (hash : α → Uint256) (find : Uint256 → Option α) (hfind : ∀ b, find (hash b) = some b) :
    GlobalIndex α where
  toParentTree := T
  nHeight_lt := hheight
  pskip := (Skip.buildSkips T (fun _ => none) order).getD fun _ => none
  skips b hne := by
    obtain ⟨pskip, hbuilt, hskips⟩ := Skip.buildSkips_spec (fun _ => none) hfirst
    rw [hbuilt]
    exact hskips b (hall b) b (ParentTree.self_mem_branch b) hne
  hash := hash
  find := find
  find_hash := hfind

variable {G} in
omit [DecidableEq α] in
theorem getAncestor_eq {b : α} {height : Nat} (hle : height ≤ G.depth b) :
    G.getAncestor b height = some (G.up (G.depth b - height) b) :=
  Skip.getAncestor_eq (fun a _ hne => G.skips a hne) hle

end GlobalIndex

namespace CChain

variable (G : GlobalIndex α) (chain : CChain α)

def genesis : Option α := chain.vChain.head?.join

def tip : Option α := chain.vChain.getLast?.join

/-- `operator[]`. -/
def entry (nHeight : Int) : Option α :=
  if nHeight < 0 ∨ nHeight ≥ chain.vChain.length then none
  else chain.vChain[nHeight.toNat]?.join

def contains (pindex : α) : Bool := chain.entry (G.depth pindex) == some pindex

def height : Int := chain.vChain.length - 1

/-- The loop of `SetTip`. -/
def setTipLoop (vChain : List (Option α)) (pindex : Option α) : List (Option α) :=
  match pindex with
  | none => vChain
  | some pindex =>
    if vChain[G.depth pindex]? = some (some pindex) then vChain
    else setTipLoop (vChain.set (G.depth pindex) (some pindex)) (G.parent pindex)
termination_by pindex.elim 0 fun b => G.depth b + 1
decreasing_by
  cases hp : G.parent pindex with
  | none => exact Nat.succ_pos _
  | some p =>
    have := G.depth_parent hp
    simp only [Option.elim_some]
    omega

/-- `resize` of the vector, which fills up with `NULL`. -/
def resize (n : Nat) (vChain : List (Option α)) : List (Option α) :=
  vChain.take n ++ List.replicate (n - vChain.length) none

/-- `CChain::SetTip`. -/
def setTip (pindex : Option α) : CChain α :=
  match pindex with
  | none => ⟨[]⟩
  | some pindex => ⟨setTipLoop G (resize (G.depth pindex + 1) chain.vChain) (some pindex)⟩

/-- A chain that had its tip set, time and again. -/
def setTips (tips : List (Option α)) : CChain α := tips.foldl (setTip G) {}

/--
The loop of `GetLocator`. The step is an `int`, and is doubled once the locator is longer than
ten. Each round but the last goes down, so the height bounds the rounds.
-/
def getLocatorLoop : Nat → Option α → Int → List Uint256 → Option (List Uint256)
  | 0, _, _, _ => none
  | _ + 1, none, _, vHave => some vHave
  | fuel + 1, some pindex, nStep, vHave =>
    let vHave := vHave ++ [G.hash pindex]
    -- stop when we have added the genesis block
    if G.depth pindex = 0 then some vHave
    else
      -- exponentially larger steps back, plus the genesis block
      let nHeight := max (G.depth pindex - nStep) 0
      let next :=
        if chain.contains G pindex then some (chain.entry nHeight)
        else G.getAncestor pindex nHeight
      let nStep := if vHave.length > 10 then (nStep * 2).bmod (2 ^ 32) else nStep
      match next with
      | none => none
      | some pindex => getLocatorLoop fuel pindex nStep vHave

/-- `CChain::GetLocator`. -/
def getLocator (pindex : Option α) : Option (List Uint256) :=
  let pindex := if pindex.isNone then chain.tip else pindex
  chain.getLocatorLoop G (pindex.elim 1 fun b => G.depth b + 1) pindex 1 []

/-- The loop of `FindFork`. -/
def findForkLoop (pindex : Option α) : Option α :=
  match pindex with
  | none => none
  | some pindex =>
    if chain.contains G pindex then some pindex else findForkLoop (G.parent pindex)
termination_by pindex.elim 0 fun b => G.depth b + 1
decreasing_by
  cases hp : G.parent pindex with
  | none => exact Nat.succ_pos _
  | some p =>
    have := G.depth_parent hp
    simp only [Option.elim_some]
    omega

/-- `CChain::FindFork`. -/
def findFork (pindex : α) : Option (Option α) :=
  if G.depth pindex > chain.height then
    (G.getAncestor pindex chain.height).map (chain.findForkLoop G)
  else some (chain.findForkLoop G (some pindex))

/-- `FindForkInGlobalIndex`: the first block the caller has in the main chain. -/
def findForkInGlobalIndex : List Uint256 → Option α
  | [] => chain.genesis
  | hash :: vHave =>
    match G.find hash with
    | none => findForkInGlobalIndex vHave
    | some pindex => if chain.contains G pindex then some pindex else findForkInGlobalIndex vHave

/-! ## `SetTip` -/

/-- The vector holds the branch of the tip, by height. -/
structure Holds (t : α) : Prop where
  length : chain.vChain.length = G.depth t + 1
  entry' : ∀ b ∈ G.branch t, chain.vChain[G.depth b]? = some (some b)

/-- What the vector has up to a height, it has all the way down. -/
def Filled (nHeight : Nat) (vChain : List (Option α)) : Prop :=
  ∀ b, G.depth b ≤ nHeight → vChain[G.depth b]? = some (some b) →
    ∀ c ∈ G.branch b, vChain[G.depth c]? = some (some c)

variable {G} {chain} {t b : α}

theorem setTipLoop_spec {vChain : List (Option α)} (hlen : G.depth t < vChain.length)
    (hfilled : Filled G (G.depth t) vChain) :
    (setTipLoop G vChain (some t)).length = vChain.length ∧
      (∀ b ∈ G.branch t, (setTipLoop G vChain (some t))[G.depth b]? = some (some b)) ∧
      ∀ i, G.depth t < i → (setTipLoop G vChain (some t))[i]? = vChain[i]? := by
  induction hn : G.depth t generalizing t vChain with
  | zero =>
    have hroot : t = G.root := by
      cases hp : G.parent t with
      | none => exact G.eq_root hp
      | some p =>
        rw [G.depth_parent hp] at hn
        omega
    rw [setTipLoop]
    split
    · rename_i hthere
      exact ⟨rfl, hfilled t (Nat.le_refl _) hthere, fun _ _ => rfl⟩
    · rw [hroot, G.parent_root, setTipLoop]
      refine ⟨List.length_set, fun b hb => ?_, fun i hi => ?_⟩
      · rw [ParentTree.branch_root, List.mem_singleton] at hb
        rw [hb, List.getElem?_set_self (by rw [← hroot]; exact hlen)]
      · rw [G.depth_root, List.getElem?_set_ne (by omega)]
  | succ n ih =>
    rw [setTipLoop]
    split
    · rename_i hthere
      exact ⟨rfl, hfilled t (Nat.le_refl _) hthere, fun _ _ => rfl⟩
    cases hp : G.parent t with
    | none =>
      rw [G.eq_root hp, G.depth_root] at hn
      omega
    | some p =>
      have hdepth := G.depth_parent hp
      -- the entry of the tip is above all that the rest of the loop looks at
      have hbelow : ∀ i, i ≤ G.depth p → (vChain.set (G.depth t) (some t))[i]? = vChain[i]? := by
        intro i hi
        exact List.getElem?_set_ne (by omega)
      have hfilled' : Filled G (G.depth p) (vChain.set (G.depth t) (some t)) := by
        intro b hb hthere c hc
        have hcb : G.depth c ≤ G.depth b := ParentTree.depth_le hc
        rw [hbelow _ hb] at hthere
        rw [hbelow _ (by omega)]
        exact hfilled b (by omega) hthere c hc
      obtain ⟨hlength, hbranch, habove⟩ := ih (by rw [List.length_set]; omega) hfilled' (by omega)
      refine ⟨by rw [hlength, List.length_set], fun b hb => ?_, fun i hi => ?_⟩
      · rcases (ParentTree.mem_branch_parent hp).mp hb with rfl | hb
        · rw [habove _ (by omega), List.getElem?_set_self (by omega)]
        · exact hbranch b hb
      · rw [habove i (by omega), List.getElem?_set_ne (by omega)]

/-- **The vector holds the branch of the tip that was set**, if it held one before or was empty. -/
theorem setTip_holds (h : chain.vChain = [] ∨ ∃ t, chain.Holds G t) (t : α) :
    (chain.setTip G (some t)).Holds G t := by
  have hlen : (resize (G.depth t + 1) chain.vChain).length = G.depth t + 1 := by
    rw [resize, List.length_append, List.length_take, List.length_replicate]
    omega
  -- an entry of the resized vector was there before
  have hold : ∀ b : α, (resize (G.depth t + 1) chain.vChain)[G.depth b]? = some (some b) →
      chain.vChain[G.depth b]? = some (some b) ∧ G.depth b < G.depth t + 1 := by
    intro b hb
    have hlt : G.depth b < G.depth t + 1 := by
      by_contra hnot
      rw [List.getElem?_eq_none (by omega)] at hb
      exact absurd hb (by simp)
    refine ⟨?_, hlt⟩
    rw [resize, List.getElem?_append] at hb
    split at hb
    · rwa [List.getElem?_take_of_lt hlt] at hb
    · rw [List.getElem?_replicate] at hb
      split at hb <;> simp at hb
  have hfilled : Filled G (G.depth t) (resize (G.depth t + 1) chain.vChain) := by
    intro b _ hb c hc
    obtain ⟨hbefore, hlt⟩ := hold b hb
    have hcb : G.depth c ≤ G.depth b := ParentTree.depth_le hc
    rcases h with hempty | ⟨t', ht'⟩
    · rw [hempty] at hbefore
      exact absurd hbefore (by simp)
    · have hbt : b ∈ G.branch t' := by
        have hle : G.depth b ≤ G.depth t' := by
          have := (List.getElem?_eq_some_iff.mp hbefore).1
          have := ht'.length
          omega
        obtain ⟨d, hd, hdd⟩ := ParentTree.exists_mem_branch_depth hle
        have hthere := ht'.entry' d hd
        rw [hdd, hbefore] at hthere
        rw [Option.some.inj (Option.some.inj hthere)]
        exact hd
      have hcthere := ht'.entry' c (ParentTree.mem_branch_trans hbt hc)
      have hclen := (List.getElem?_eq_some_iff.mp hcthere).1
      rw [resize, List.getElem?_append_left (by rw [List.length_take]; omega),
        List.getElem?_take_of_lt (by omega)]
      exact hcthere
  obtain ⟨hlength, hbranch, -⟩ := setTipLoop_spec (by omega) hfilled
  exact ⟨hlength.trans hlen, hbranch⟩

theorem setTips_holds (tips : List (Option α)) :
    (setTips G tips).vChain = [] ∨ ∃ t, (setTips G tips).Holds G t := by
  induction tips using List.reverseRecOn with
  | nil => exact .inl rfl
  | append_singleton tips tip ih =>
    have hlast : setTips G (tips ++ [tip]) = (setTips G tips).setTip G tip := by
      rw [setTips, List.foldl_append]
      rfl
    rw [hlast]
    cases tip with
    | none => exact .inl rfl
    | some t => exact .inr ⟨t, setTip_holds ih t⟩

theorem setTips_concat (tips : List (Option α)) (t : α) :
    (setTips G (tips ++ [some t])).Holds G t := by
  have hlast : setTips G (tips ++ [some t]) = (setTips G tips).setTip G (some t) := by
    rw [setTips, List.foldl_append]
    rfl
  rw [hlast]
  exact setTip_holds (setTips_holds tips) t

/-! ## Reading a chain -/

omit [DecidableEq α] in
theorem Holds.entry_eq (h : chain.Holds G t) {nHeight : Nat} (hle : nHeight ≤ G.depth t) :
    chain.entry nHeight = G.up (G.depth t - nHeight) t := by
  obtain ⟨c, hc, hd⟩ := ParentTree.exists_mem_branch_depth hle
  have hthere := h.entry' c hc
  have hlen := h.length
  rw [ParentTree.up_eq_some.mpr ⟨hc, by omega⟩, CChain.entry, if_neg (by omega), Int.toNat_natCast,
    ← hd, hthere]
  rfl

theorem Holds.contains_iff (h : chain.Holds G t) : chain.contains G b = true ↔ b ∈ G.branch t := by
  rw [contains, beq_iff_eq]
  constructor
  · intro hat
    have hle : G.depth b ≤ G.depth t := by
      by_contra hnot
      have hlen := h.length
      rw [CChain.entry, if_pos (by omega)] at hat
      exact absurd hat (by simp)
    rw [h.entry_eq hle] at hat
    exact (ParentTree.up_eq_some.mp hat).1
  · intro hmem
    have hle : G.depth b ≤ G.depth t := ParentTree.depth_le hmem
    rw [h.entry_eq hle]
    exact ParentTree.up_eq_some.mpr ⟨hmem, by omega⟩

theorem Holds.entry_of_contains (h : chain.Holds G t) (hb : chain.contains G b = true)
    {nHeight : Nat}
    (hle : nHeight ≤ G.depth b) : chain.entry nHeight = G.up (G.depth b - nHeight) b := by
  have hmem := h.contains_iff.mp hb
  have hbt : G.depth b ≤ G.depth t := ParentTree.depth_le hmem
  obtain ⟨c, hc⟩ := ParentTree.exists_up (T := G.toParentTree) (a := b) (n := G.depth b - nHeight)
    (by omega)
  obtain ⟨hcb, hdepth⟩ := ParentTree.up_eq_some.mp hc
  rw [h.entry_eq (by omega), hc]
  exact ParentTree.up_eq_some.mpr ⟨ParentTree.mem_branch_trans hmem hcb, by omega⟩

/-! ## `GetLocator` -/

/--
The loop of `GetLocator`, started at height `H`: the step and the height that is left are never
more than `H + 1`, as the way made so far is at least as long as the next step, bar one. Until the
locator is long the step stays at one, so the doubling starts late enough for this.
-/
theorem getLocatorLoop_eq (hread : ∀ b, chain.contains G b = true → ∀ nHeight ≤ G.depth b,
      chain.entry nHeight = G.up (G.depth b - nHeight) b)
    {H fuel : Nat} {nStep : Int} {vHave : List Uint256} (hH : H + 1 < 2 ^ 31)
    (hfuel : G.depth b < fuel)
    (hstep : G.depth b ≠ 0 → ∃ n : Nat, nStep = n ∧ 0 < n ∧ n + G.depth b ≤ H + 1) :
    ∃ visited : List α, chain.getLocatorLoop G fuel (some b) nStep vHave =
      some (vHave ++ visited.map G.hash) ∧ G.Sparse H b visited := by
  induction fuel generalizing b nStep vHave with
  | zero => omega
  | succ fuel ih =>
    rw [getLocatorLoop]
    by_cases hzero : G.depth b = 0
    · rw [if_pos hzero]
      exact ⟨[b], rfl, .root hzero⟩
    rw [if_neg hzero]
    obtain ⟨n, rfl, hn, hroom⟩ := hstep hzero
    clear hstep
    obtain ⟨c, hc⟩ := ParentTree.exists_up (T := G.toParentTree) (a := b)
      (n := min n (G.depth b)) (by omega)
    obtain ⟨-, hdepth⟩ := ParentTree.up_eq_some.mp hc
    -- both ways to the next entry lead to the same ancestor
    have hheight : max ((G.depth b : Int) - n) 0 = (G.depth c : Nat) := by omega
    have hup : G.up (G.depth b - G.depth c) b = some c := by
      rw [← hc]
      congr 1
      omega
    have hnext : (if chain.contains G b then some (chain.entry (G.depth c))
        else G.getAncestor b (G.depth c)) = some (some c) := by
      split
      · rename_i hmem
        rw [hread b hmem _ (by omega), hup]
      · rw [GlobalIndex.getAncestor_eq (by omega), hup]
    simp only [hheight, hnext]
    have hdouble : G.depth c ≠ 0 →
        ((n : Int) * 2).bmod (2 ^ 32) = (n * 2 : Nat) ∧ n * 2 + G.depth c ≤ H + 1 := by
      intro hpos
      have hle : n * 2 + G.depth c ≤ H + 1 := by omega
      refine ⟨?_, hle⟩
      rw [Int.bmod_eq_of_le (by omega) (by omega)]
      rfl
    have hnext : G.depth c ≠ 0 → ∃ m : Nat,
        (if (vHave ++ [G.hash b]).length > 10 then ((n : Int) * 2).bmod (2 ^ 32) else n) = m ∧
          0 < m ∧ m + G.depth c ≤ H + 1 := by
      intro hpos
      obtain ⟨hwrap, hle⟩ := hdouble hpos
      split
      · exact ⟨n * 2, hwrap, by omega, hle⟩
      · exact ⟨n, rfl, hn, by omega⟩
    obtain ⟨visited, heq, hsparse⟩ := @ih c _ (vHave ++ [G.hash b]) (by omega) hnext
    refine ⟨b :: visited, ?_, ParentTree.Sparse.step hc (by omega) (by omega) hsparse⟩
    rw [heq, List.map_cons, List.append_assoc]
    rfl

theorem getLocator_eq (tips : List (Option α)) (t : α) :
    ∃ visited : List α, (setTips G tips).getLocator G (some t) = some (visited.map G.hash) ∧
      G.Sparse (G.depth t) t visited := by
  have hread : ∀ b, (setTips G tips).contains G b = true → ∀ nHeight ≤ G.depth b,
      (setTips G tips).entry nHeight = G.up (G.depth b - nHeight) b := by
    intro b hb nHeight hle
    rcases setTips_holds (G := G) tips with hempty | ⟨a, ha⟩
    · rw [contains, entry, hempty, if_pos (by right; exact Int.natCast_nonneg _)] at hb
      exact absurd hb (by simp)
    · exact ha.entry_of_contains hb hle
  exact getLocatorLoop_eq hread (G.nHeight_lt t) (Nat.lt_succ_self _)
    fun _ => ⟨1, rfl, by omega, by omega⟩

/-! ## The fork -/

theorem findForkInGlobalIndex_map (visited : List α) :
    chain.findForkInGlobalIndex G (visited.map G.hash) =
      (visited.find? (chain.contains G)).or chain.genesis := by
  induction visited with
  | nil => rfl
  | cons b visited ih =>
    simp only [List.map_cons, findForkInGlobalIndex, G.find_hash, List.find?_cons]
    cases chain.contains G b with
    | true => rfl
    | false => exact ih

theorem findForkLoop_eq {a c : α} (h : chain.Holds G a) (hc : G.LastCommon b a c) :
    chain.findForkLoop G (some b) = some c := by
  induction b using ParentTree.branch_induction (T := G.toParentTree) with
  | hroot =>
    have hroot := ParentTree.root_mem_branch (T := G.toParentTree) a
    have hcroot : c = G.root := by
      have := hc.left
      rwa [ParentTree.branch_root, List.mem_singleton] at this
    rw [findForkLoop, if_pos (h.contains_iff.mpr hroot), hcroot]
  | hchild b p hp ih =>
    rw [findForkLoop]
    split
    · rename_i hb
      rw [h.contains_iff] at hb
      rw [ParentTree.eq_of_depth_eq (ParentTree.self_mem_branch b) hc.left]
      have hle := (hc.mem_iff (ParentTree.self_mem_branch b)).mp hb
      have := ParentTree.depth_le hc.left
      omega
    · rename_i hb
      rw [hp]
      refine ih ⟨?_, hc.right, fun d hd hda => ?_⟩
      · rcases (ParentTree.mem_branch_parent hp).mp hc.left with rfl | hcp
        · exact absurd (h.contains_iff.mpr hc.right) hb
        · exact hcp
      · exact hc.last d ((ParentTree.mem_branch_parent hp).mpr (Or.inr hd)) hda

theorem findFork_eq {a c : α} (h : chain.Holds G a) (hc : G.LastCommon t a c) :
    chain.findFork G t = some (some c) := by
  have hheight : chain.height = G.depth a := by
    rw [height, h.length]
    omega
  have hca : G.depth c ≤ G.depth a := ParentTree.depth_le hc.right
  rw [findFork, hheight]
  split
  · rename_i hlow
    obtain ⟨d, hd⟩ := ParentTree.exists_up (T := G.toParentTree) (a := t)
      (n := G.depth t - G.depth a) (by omega)
    obtain ⟨hdt, hdepth⟩ := ParentTree.up_eq_some.mp hd
    rw [GlobalIndex.getAncestor_eq (by omega), hd, Option.map_some]
    refine congrArg some (findForkLoop_eq h ⟨?_, hc.right, fun e he hea => ?_⟩)
    · exact ParentTree.mem_branch_of_depth_le hc.left hdt (by omega)
    · exact hc.last e (ParentTree.mem_branch_trans hdt he) hea
  · rw [findForkLoop_eq h hc]

/--
**Locators find the fork.** The locator of any block falls strictly down to genesis; what the
global index finds of it in the active chain is on both branches, no higher than the fork, and no
further below the fork than the fork is below the block.
-/
theorem locator_finds_fork (G : GlobalIndex α) (tips : List (Option α)) (a t : α) :
    ∃ (visited : List α) (fork found : α),
      (setTips G (tips ++ [some a])).getLocator G (some t) = some (visited.map G.hash) ∧
      visited.Pairwise (fun b c => G.depth c < G.depth b) ∧
      visited.head? = some t ∧ visited.getLast? = some G.root ∧
      (setTips G (tips ++ [some a])).findFork G t = some (some fork) ∧
      G.LastCommon t a fork ∧
      (setTips G (tips ++ [some a])).findForkInGlobalIndex G (visited.map G.hash) = some found ∧
      (setTips G (tips ++ [some a])).contains G found = true ∧ found ∈ G.branch t ∧
      G.depth found ≤ G.depth fork ∧
      G.depth fork - G.depth found ≤ G.depth t - G.depth fork := by
  have hholds := setTips_concat (G := G) tips a
  obtain ⟨visited, hlocator, hsparse⟩ := getLocator_eq (G := G) (tips ++ [some a]) t
  obtain ⟨fork, hfork⟩ := ParentTree.exists_lastCommon (T := G.toParentTree) t a
  have hbelow : G.depth fork ≤ G.depth t := ParentTree.depth_le hfork.left
  have hcontains : ∀ b ∈ G.branch t,
      (setTips G (tips ++ [some a])).contains G b = true ↔ G.depth b ≤ G.depth fork := by
    intro b hb
    rw [hholds.contains_iff]
    exact hfork.mem_iff hb
  obtain ⟨found, hmem, hfind, hle, hnear⟩ := hsparse.find? hbelow hcontains
  refine ⟨visited, fork, found, hlocator, hsparse.falls, hsparse.head, hsparse.last,
    findFork_eq hholds hfork, hfork, ?_, (hcontains found hmem).mpr hle, hmem, hle, hnear⟩
  rw [findForkInGlobalIndex_map, hfind]
  rfl

/-! ### A long branch beside the chain -/

/-- A chain of 40 entries, and ten more that start from the entry at the height 30. -/
def forkedTree : ParentTree (Fin 50) where
  root := 0
  parent b := if b = 0 then none else if b = 40 then some 30 else some (b - 1)
  depth b := if b < 40 then b else b - 9
  parent_root := rfl
  eq_root {a} := by
    revert a
    decide
  depth_root := rfl
  depth_parent {a b} := by
    revert a b
    decide +kernel

def forkedIndex : GlobalIndex (Fin 50) := GlobalIndex.ofTree forkedTree (List.finRange 50)
    (Skip.predecessorsFirst_of_sorted Fin.lt_asymm (List.pairwise_lt_finRange 50)
      (by decide +kernel))
    (fun b => Or.inr (List.mem_finRange b)) (by decide) (fun b => b.val)
    (fun hash => if h : hash < 50 then some ⟨hash, h⟩ else none) fun b => dif_pos b.isLt

/-- The locator of the branch's tip, when the chain was on the branch and came back. -/
theorem locator_finds_fork_side : ∃ (visited : List (Fin 50)) (found : Fin 50),
      (setTips forkedIndex [some 49, some 39]).getLocator forkedIndex (some 49)
        = some (visited.map Fin.val) ∧
      visited.head? = some 49 ∧ visited.getLast? = some 0 ∧
      (setTips forkedIndex [some 49, some 39]).findFork forkedIndex 49 = some (some 30) ∧
      (setTips forkedIndex [some 49, some 39]).findForkInGlobalIndex forkedIndex
        (visited.map Fin.val) = some found ∧
      30 - forkedTree.depth found ≤ 10 := by
  obtain ⟨visited, fork, found, hlocator, -, hhead, hlast, hfork, hcommon, hfound, -, -,
      -, hnear⟩ :=
    locator_finds_fork forkedIndex [some 49] 39 49
  obtain rfl : fork = 30 := by
    have h30 := hcommon.last 30 (by decide) (by decide)
    have hone : ∀ fork : Fin 50, fork ∈ forkedTree.branch 49 → fork ∈ forkedTree.branch 39 →
        30 ∈ forkedTree.branch fork → fork = 30 := by decide +kernel
    exact hone fork hcommon.left hcommon.right h30
  exact ⟨visited, found, hlocator, hhead, hlast, hfork, hfound, hnear⟩

end CChain

end BitBlocks
