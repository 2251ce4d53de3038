import BitBlocks.Chain.Converge

/-!
# How deep a reorganisation goes

`ContextualCheckBlockHeader` means to refuse forks that leave the active chain too far
below the tip, but what it compares with the tip is the height of the new block, not of
the fork. A branch that is fed while the active chain grows passes that check with every
block, however deep its fork has become by then.

The bound does hold in runs where no such block is stored. The invariant is `Shallow`:
whatever is better than the tip leaves the active chain close to the tip, unless
something better still extends the tip. A round switches to the best linked entry, and
for that one the second case means that nothing is disconnected.
-/

namespace BitBlocks

namespace Node

variable {α σ : Type} [DecidableEq α] {T : IndexTree α} {ops : TipOps α σ} {n : Node α σ}

/-! ## The blocks a round disconnects -/

/-- The blocks of the active chain that are no longer in it afterwards. -/
def disconnected (n n' : Node α σ) : List α :=
  n.chainActive.filter fun b => decide (b ∉ n'.chainActive)

variable {n' n1 : Node α σ} {t c f m b : α} {E : AcceptRules α σ} {nMax : Int} {V : Verdicts α σ}

theorem length_disconnected_le {n : Node α σ} (h : n.chainActive = T.branch t)
    (h' : n'.chainActive = T.branch c) (hft : f ∈ T.branch t) (hfc : f ∈ T.branch c) :
    (disconnected n n').length ≤ T.depth t - T.depth f := by
  obtain ⟨above, habove⟩ := ParentTree.branch_suffix hft
  have hlen := congrArg List.length habove
  rw [List.length_append, ParentTree.length_branch, ParentTree.length_branch] at hlen
  unfold disconnected
  rw [h, h', ← habove, List.filter_append]
  have hnil : (T.branch f).filter (fun b => decide (b ∉ T.branch c)) = [] := by
    rw [List.filter_eq_nil_iff]
    intro b hb
    simpa using ParentTree.mem_branch_trans hfc hb
  rw [hnil, List.append_nil]
  have := List.length_filter_le (fun b => decide (b ∉ T.branch c)) above
  omega

theorem disconnectTo_chain (t : α) (hf : f ∈ T.branch t) : ∀ s : σ,
    ∃ c ∈ T.branch t, f ∈ T.branch c ∧ (disconnectTo ops (some f) (T.branch t) s).1 = T.branch c ∧
      ((disconnectTo ops (some f) (T.branch t) s).2.2 = true → c = f) := by
  induction t using ParentTree.branch_induction (T := T.toParentTree) with
  | hroot =>
    intro s
    have hfr : f = T.root := by simpa [ParentTree.branch_root] using hf
    refine ⟨T.root, ParentTree.self_mem_branch _, hf, ?_⟩
    rw [ParentTree.branch_root, disconnectTo, if_pos (by rw [hfr])]
    exact ⟨rfl, fun _ => hfr.symm⟩
  | hchild t p hp ih =>
    intro s
    rw [ParentTree.branch_parent hp, disconnectTo]
    by_cases hft : t = f
    · rw [if_pos (by rw [hft]), ← ParentTree.branch_parent hp]
      exact ⟨t, ParentTree.self_mem_branch t, hf, rfl, fun _ => hft⟩
    · have hne : ¬ some t = some f := by simpa using hft
      rw [if_neg hne]
      cases ops.disconnect s t with
      | none =>
        rw [← ParentTree.branch_parent hp]
        exact ⟨t, ParentTree.self_mem_branch t, hf, rfl, by simp⟩
      | some s' =>
        have hfp : f ∈ T.branch p :=
          ((ParentTree.mem_branch_parent hp).mp hf).resolve_left fun h => hft h.symm
        obtain ⟨c, hc, hfc, h1, h2⟩ := ih hfp s'
        rw [← ParentTree.branch_parent hp]
        exact ⟨c, (ParentTree.mem_branch_parent hp).mpr (Or.inr hc), hfc, h1, h2⟩

theorem connectBlocks_chain {old : Option α} {c : α} : ∀ {l : List α} {t : α} {n : Node α σ},
    n.chainActive = T.branch t → T.Climbs t l c →
    ∃ d ∈ T.branch c, t ∈ T.branch d ∧ (connectBlocks T ops old l n).1.chainActive = T.branch d ∧
      ((connectBlocks T ops old l n).2 = .more → d = c)
  | [], t, n, hchain, hc => by
    cases hc
    exact ⟨c, ParentTree.self_mem_branch c, ParentTree.self_mem_branch c, hchain, fun _ => rfl⟩
  | b :: l, t, n, hchain, hc => by
    have htc := hc.mem_branch
    cases hc with
    | cons hp hl =>
      rw [connectBlocks]
      cases ops.connect n.state b with
      | connected s =>
        have hchain1 : (n.connectTip T b s).chainActive = T.branch b := by
          rw [connectTip_chainActive, hchain, ParentTree.branch_parent hp]
        dsimp only
        split
        · exact ⟨b, hl.mem_branch, ParentTree.parent_mem_branch hp, hchain1, by simp⟩
        · obtain ⟨d, h1, h2, h3, h4⟩ := connectBlocks_chain hchain1 hl
          exact ⟨d, h1, ParentTree.mem_branch_trans h2 (ParentTree.parent_mem_branch hp), h3, h4⟩
      | invalid corruptionPossible =>
        refine ⟨t, htc, ParentTree.self_mem_branch t, ?_, by simp⟩
        cases corruptionPossible <;> exact hchain
      | error => exact ⟨t, htc, ParentTree.self_mem_branch t, hchain, by simp⟩

theorem connectBatches_chain {old : Option α} {m : α} : ∀ {k : Nat} {x : α} {n : Node α σ},
    n.chainActive = T.branch x → x ∈ T.branch m →
    ∃ d ∈ T.branch m, x ∈ T.branch d ∧
      (connectBatches T ops old m k (T.depth x) n).1.chainActive = T.branch d
  | 0, x, n, hchain, hx => ⟨x, hx, ParentTree.self_mem_branch x, hchain⟩
  | k + 1, x, n, hchain, hx => by
    rw [connectBatches]
    by_cases hdone : (T.depth x : Int) = T.depth m
    · rw [if_pos hdone]
      exact ⟨x, hx, ParentTree.self_mem_branch x, hchain⟩
    · rw [if_neg hdone]
      obtain ⟨c, hc, hcd, -, hclimb⟩ := climbs_nextBatch hx hdone
      dsimp only
      rw [← hcd] at hclimb ⊢
      obtain ⟨d, h1, h2, h3, h4⟩ := connectBlocks_chain hchain hclimb
      cases hr : connectBlocks T ops old (vpindexToConnect T m (T.depth x) (T.depth c)) n with
      | mk n1 e =>
        rw [hr] at h3 h4
        cases e with
        | more =>
          obtain rfl := h4 rfl
          dsimp only
          obtain ⟨e, g1, g2, g3⟩ := connectBatches_chain (k := k) h3 hc
          exact ⟨e, g1, ParentTree.mem_branch_trans g2 h2, g3⟩
        | done => exact ⟨d, ParentTree.mem_branch_trans hc h1, h2, h3⟩
        | error => exact ⟨d, ParentTree.mem_branch_trans hc h1, h2, h3⟩

/--
**Where `ActivateBestChainStep` leaves the chain**: on the new branch, or still on the
old one if a block could not be disconnected; never below the fork.
-/
theorem activateBestChainStep_chain (hchain : n.chainActive = T.branch t) :
    ∃ f c, n.findFork T m = some f ∧ f ∈ T.branch c ∧
      (activateBestChainStep T ops n m).1.chainActive = T.branch c ∧
      (c ∈ T.branch m ∨ (c ∈ T.branch t ∧ (activateBestChainStep T ops n m).2 = false)) := by
  obtain ⟨f, hfork, hfm, hft, _⟩ := findFork_spec (m := m) hchain
  obtain ⟨c, hc, hfc, h1, h2⟩ := disconnectTo_chain t hft n.state
  unfold activateBestChainStep
  rw [hfork, hchain]
  dsimp only
  cases hd : disconnectTo ops (some f) (T.branch t) n.state with
  | mk chain rest =>
    obtain ⟨s, ok⟩ := rest
    rw [hd] at h1 h2
    dsimp only at h1 h2
    cases ok with
    | false => exact ⟨f, c, rfl, hfc, h1, Or.inr ⟨hc, rfl⟩⟩
    | true =>
      obtain rfl := h2 rfl
      obtain ⟨d, g1, g2, g3⟩ := connectBatches_chain (T := T)
        (k := T.depth m + 2) (n := { n with chainActive := chain, state := s }) h1 hfm
      exact ⟨c, d, rfl, g2, g3, Or.inl g1⟩

/-! ## Valid blocks -/

/-- No block is found invalid when it is connected. -/
def ValidOps (ops : TipOps α σ) : Prop := ∀ s b, ops.connect s b ≠ .invalid false

/-- No block is found invalid when it is stored. -/
def ValidRules (E : AcceptRules α σ) : Prop :=
  ∀ n b e, E.checkBlock n b = .error e → e.isPermanent = false

/-- The verdicts then: nothing breaks. -/
def validVerdicts (α σ : Type) : Verdicts α σ where
  connects _ := True
  broken _ := False
  stored _ := True
  refused _ := False
  valid _ _ := True

omit [DecidableEq α] in
theorem ValidOps.obeys (h : ValidOps ops) : ops.Obeys T (validVerdicts α σ) where
  connected _ _ _ := ⟨trivial, trivial⟩
  invalid _ _ hc := h _ _ hc
  disconnect _ _ _ := trivial

omit [DecidableEq α] in
theorem ValidRules.obeys (h : ValidRules E) (n : Node α σ) (b : α) :
    E.Obeys (validVerdicts α σ) n b where
  stored _ _ _ := trivial
  refused n1 e he hp := by
    rw [h n1 b e he] at hp
    exact absurd hp (by simp)

def Best (T : IndexTree α) (n : Node α σ) (m : α) : Prop :=
  n.Linked m ∧ ∀ b, n.Linked b → n.workLess T m b = false

omit [DecidableEq α] in
theorem Later.best {n : Node α σ} (h : Later n n') : Best T n' m ↔ Best T n m := by
  simp only [Best, h.linked, h.workLess]

omit [DecidableEq α] in
theorem Best.unique {y : α} (h : Best T n m) (hy : n.Linked y) (hle : n.workLess T y m = false) :
    y = m :=
  workLess_total hle (h.2 y hy)

/--
**One round, seen from the active chain.** Either the chain stays, or the round works
towards the best linked entry.
-/
theorem activateRound_chain (ho : ValidOps ops) (h : NodeInv T (validVerdicts α σ) [] n)
    (hchain : n.chainActive = T.branch t) :
    ((activateRound T ops n).1.chainActive = T.branch t ∧
      ∃ success, (activateRound T ops n).2 = .returned success) ∨
    ∃ m f c, Best T n m ∧ t ≠ m ∧ n.findFork T m = some f ∧ f ∈ T.branch c ∧
      (activateRound T ops n).1.chainActive = T.branch c ∧
      (c ∈ T.branch m ∨ (c ∈ T.branch t ∧ (activateRound T ops n).2 = .returned false)) := by
  obtain ⟨h1, h2, h3, _, h5⟩ := findMostWorkChain_spec (nodeInv_moves ho.obeys) h (Nat.le_refl _)
  unfold activateRound
  cases hf : findMostWorkChain T n.setBlockIndexCandidates.length n with
  | mk n1 r =>
    rw [hf] at h1 h2 h3 h5
    dsimp only at h1 h2 h3 h5
    cases r with
    | none => exact Or.inl ⟨h3.trans hchain, true, rfl⟩
    | some m =>
      obtain ⟨hmem, hbest, _⟩ := h5
      have hchain1 := h3.trans hchain
      dsimp only
      by_cases htip : n1.tip = some m
      · rw [if_pos htip]
        exact Or.inl ⟨hchain1, true, rfl⟩
      · rw [if_neg htip]
        have htm : t ≠ m := by
          rintro rfl
          exact htip (tip_branch hchain1)
        -- no linked entry is better than the best candidate
        have hm : Best T n m := by
          refine h2.best.mp ⟨h1.candidates_linked m hmem, fun b hb => ?_⟩
          obtain ⟨y, hy, _, hle⟩ := h1.cover (fun _ _ hbr => hbr) b ⟨hb, fun _ _ _ => trivial⟩
          exact not_workLess_trans hle (hbest y hy)
        obtain ⟨f, c, hfork, hfc, hc, hend⟩ := activateBestChainStep_chain (m := m) hchain1
        have hfork' : n.findFork T m = some f := by
          rw [← hfork, findFork, findFork, h3]
        refine Or.inr ⟨m, f, c, hm, htm, hfork', hfc, ?_⟩
        cases hs : activateBestChainStep T ops n1 m with
        | mk n2 ok =>
          rw [hs] at hc hend
          cases ok with
          | false => exact ⟨hc, hend.imp_right fun hct => ⟨hct.1, rfl⟩⟩
          | true =>
            refine ⟨hc, Or.inl (hend.resolve_right ?_)⟩
            rintro ⟨_, hfalse⟩
            exact absurd hfalse (by simp)

/-! ## What is better than the tip forks off nearby -/

/-- The branches of `t` and `x` part less than `nMax` blocks below `t`. -/
def Within (T : IndexTree α) (nMax : Int) (t x : α) : Prop :=
  ∃ g ∈ T.branch x, g ∈ T.branch t ∧ (T.depth t : Int) - T.depth g < nMax

/-- Something at least as good as `x` extends `t`. -/
def Outrun (T : IndexTree α) (n : Node α σ) (t x : α) : Prop :=
  ∃ y, n.Linked y ∧ n.workLess T y x = false ∧ t ∈ T.branch y

/-- Whatever is better than the tip forks off nearby, or will not be switched to. -/
def Shallow (T : IndexTree α) (nMax : Int) (n : Node α σ) : Prop :=
  ∀ t, n.chainActive = T.branch t → ∀ x, n.Linked x → n.workLess T t x = true →
    Within T nMax t x ∨ Outrun T n t x

omit [DecidableEq α] in
theorem Within.of_mem {x : α} (h : Within T nMax t x) (hc : c ∈ T.branch t) :
    Within T nMax c x ∨ c ∈ T.branch x := by
  obtain ⟨g, hgx, hgt, hlt⟩ := h
  rcases Nat.le_total (T.depth g) (T.depth c) with hle | hle
  · refine Or.inl ⟨g, hgx, ParentTree.mem_branch_of_depth_le hgt hc hle, ?_⟩
    have hct := ParentTree.depth_le hc
    omega
  · exact Or.inr (ParentTree.mem_branch_trans hgx (ParentTree.mem_branch_of_depth_le hc hgt hle))

/-- **A round keeps the invariant.** -/
theorem Shallow.activateRound {nMax : Int} (ho : ValidOps ops)
    (h : NodeInv T (validVerdicts α σ) [] n) (hs : Shallow T nMax n) :
    Shallow T nMax (activateRound T ops n).1 := by
  obtain ⟨t, hchain, ht, _⟩ := h.chain
  have hl := (activateRound_spec (nodeInv_moves ho.obeys) h).2.1
  intro c hc x hx hlt
  rw [hl.linked] at hx
  rw [hl.workLess] at hlt
  have hout : ∀ {d}, Outrun T n d x → Outrun T (Node.activateRound T ops n).1 d x := by
    rintro d ⟨y, hy, hle, hd⟩
    exact ⟨y, (hl.linked y).mpr hy, by rw [hl.workLess]; exact hle, hd⟩
  rcases activateRound_chain ho h hchain with ⟨hsame, _⟩ | ⟨m, f, c', hm, _, _, _, hc', hend⟩
  · obtain rfl : t = c := ParentTree.branch_injective (hsame.symm.trans hc)
    exact (hs t hchain x hx hlt).imp_right hout
  · obtain rfl : c' = c := ParentTree.branch_injective (hc'.symm.trans hc)
    rcases hend with hcm | ⟨hct, _⟩
    · -- the new tip is on the branch of the best entry
      exact Or.inr (hout ⟨m, hm.1, hm.2 x hx, hcm⟩)
    · cases htx : n.workLess T t x with
      | false => exact Or.inr (hout ⟨t, ht, htx, hct⟩)
      | true =>
        rcases hs t hchain x hx htx with hw | ⟨y, hy, hle, hty⟩
        · rcases hw.of_mem hct with hw | hcx
          · exact Or.inl hw
          · exact Or.inr (hout ⟨x, hx, workLess_irrefl _ _, hcx⟩)
        · exact Or.inr (hout ⟨y, hy, hle, ParentTree.mem_branch_trans hty hct⟩)

/-- **A round disconnects few blocks.** -/
theorem Shallow.disconnected_lt (ho : ValidOps ops) (h : NodeInv T (validVerdicts α σ) [] n)
    (hs : Shallow T nMax n) (hpos : disconnected n (Node.activateRound T ops n).1 ≠ []) :
    ((disconnected n (Node.activateRound T ops n).1).length : Int) < nMax := by
  obtain ⟨t, hchain, ht, _⟩ := h.chain
  have hlen := List.length_pos_iff.mpr hpos
  rcases activateRound_chain ho h hchain with ⟨hsame, _⟩ | ⟨m, f, c, hm, htm, hfork, hfc, hc, _⟩
  · have := length_disconnected_le hchain hsame (ParentTree.self_mem_branch t)
      (ParentTree.self_mem_branch t)
    omega
  · obtain ⟨hfm, hft, hhigh⟩ := ParentTree.find?_branch_eq hfork
    have hft : f ∈ T.branch t := by simpa [hchain] using hft
    have hle := length_disconnected_le hchain hc hft hfc
    have htm' : n.workLess T t m = true := by
      by_contra hne
      rw [Bool.not_eq_true] at hne
      exact htm (hm.unique ht hne)
    rcases hs t hchain m hm.1 htm' with ⟨g, hgm, hgt, hlt⟩ | ⟨y, hy, hym, hty⟩
    · have := hhigh g hgm (by simpa [hchain] using hgt)
      omega
    · -- the best entry extends the tip: the fork is the tip itself
      obtain rfl := hm.unique hy hym
      have := hhigh t hty (by simp [hchain, ParentTree.self_mem_branch])
      omega

/-! ## Storing a block -/

/-- How far below the tip the branch of a block leaves the active chain. -/
def forkDepth (T : IndexTree α) (n : Node α σ) (b : α) : Int :=
  n.height - (n.findFork T b).elim (-1) fun f => (T.depth f : Int)

/--
A new block that `AcceptBlock` has nothing against: its parent is known and its height is
near that of the tip. But its branch leaves the active chain `nMax` blocks down, or more.
-/
def Overlooked (T : IndexTree α) (nMax : Int) (n : Node α σ) (b : α) : Prop :=
  (n.status b).fHaveData = false ∧ n.checkPrev T b = .ok () ∧
    (b ∈ n.mapBlockIndex ∨ n.checkReorgDepth T nMax b = .ok ()) ∧ nMax ≤ n.forkDepth T b

instance (T : IndexTree α) (nMax : Int) (n : Node α σ) (b : α) :
    Decidable (Overlooked T nMax n b) :=
  inferInstanceAs (Decidable (_ ∧ _ ∧ _ ∧ _))

theorem within_of_forkDepth (hchain : n.chainActive = T.branch t) (h : n.forkDepth T b < nMax) :
    Within T nMax t b := by
  obtain ⟨f, hfork, hfb, hft, _⟩ := findFork_spec (m := b) hchain
  refine ⟨f, hfb, hft, ?_⟩
  unfold forkDepth at h
  rw [hfork, height, hchain, ParentTree.length_branch] at h
  dsimp only [Option.elim] at h
  omega

omit [DecidableEq α] in
theorem Within.extend {nMax : Int} {t b x : α} (h : Within T nMax t b) (hb : b ∈ T.branch x) :
    Within T nMax t x := by
  obtain ⟨g, hgb, hgt, hlt⟩ := h
  exact ⟨g, ParentTree.mem_branch_trans hb hgb, hgt, hlt⟩

theorem acceptEntry_checks (h : n.acceptEntry T nMax E b = .ok n1) :
    n.checkPrev T b = .ok () ∧ (b ∈ n.mapBlockIndex ∨ n.checkReorgDepth T nMax b = .ok ()) := by
  unfold acceptEntry at h
  simp only [Checks.bind_eq_ok, Checks.exists_unit] at h
  obtain ⟨hprev, _, hheader⟩ := h
  refine ⟨hprev, ?_⟩
  unfold acceptBlockHeader at hheader
  split at hheader
  · rename_i hmem
    exact Or.inl hmem
  · simp only [Checks.bind_eq_ok, Checks.exists_unit] at hheader
    exact Or.inr hheader.2.2.1

omit [DecidableEq α] in
/-- A block without data is not linked. -/
theorem NodeInv.not_linked (h : NodeInv T V [] n) (hd : (n.status b).fHaveData = false) :
    ¬ n.Linked b := fun hl => by
  rw [h.linked_data b hl] at hd
  exact absurd hd (by simp)

theorem Entered.linked (hen : Entered T E n b n1) (h : NodeInv T V [] n) :
    n1.chainActive = n.chainActive ∧ (∀ c, n.Linked c ↔ n1.Linked c) ∧
      (∀ c, n.Linked c → n1.status c = n.status c) ∧
      (n1.status b).fHaveData = (n.status b).fHaveData := by
  rcases hen.node with rfl | ⟨hb, rfl⟩
  · exact ⟨rfl, fun _ => Iff.rfl, fun _ _ => rfl, rfl⟩
  · have hd : (n.status b).fHaveData = false := by
      cases hq : (n.status b).fHaveData with
      | false => rfl
      | true => exact absurd (h.known b hq) hb
    have hbl := h.not_linked hd
    have hother : ∀ c, n.Linked c → c ≠ b := by
      rintro c hc rfl
      exact hbl hc
    have hzero : (n.status b).nChainTx = 0 := by simpa [Linked] using hbl
    refine ⟨rfl, fun c => ?_, fun c hc => ?_, by simp [Node.addToBlockIndex, hd]⟩
    · by_cases hcb : c = b
      · subst hcb; simp [Linked, Node.addToBlockIndex, hzero]
      · simp [Linked, Node.addToBlockIndex, hcb]
    · simp [Node.addToBlockIndex, hother c hc]

/-- A call leaves alone what has nothing to do with a block, and the chain. -/
structure Untouched (T : IndexTree α) (b : α) (n n' : Node α σ) : Prop where
  chain : n'.chainActive = n.chainActive
  status : ∀ c, b ∉ T.branch c → n'.status c = n.status c

theorem untouched_linkQueue {b : α} : ∀ {k : Nat} {l : List α} {n : Node α σ},
    (∀ q ∈ l, b ∈ T.branch q) → (∀ e ∈ n.mapBlocksUnlinked, T.parent e.2 = some e.1) →
    Untouched T b n (linkQueue T k l n)
  | 0, _, _, _, _ => ⟨rfl, fun _ _ => rfl⟩
  | _ + 1, [], _, _, _ => ⟨rfl, fun _ _ => rfl⟩
  | k + 1, x :: l, n, hq, hu => by
    have hk := link_linkedNow T n x
    have hbx := hq x (by simp)
    rw [linkQueue]
    obtain ⟨h1, h2⟩ := untouched_linkQueue (b := b) (k := k) (l := l ++
        ((n.link T x).mapBlocksUnlinked.filter fun e => decide (e.1 = x)).map Prod.snd)
      (n := { n.link T x with mapBlocksUnlinked :=
        (n.link T x).mapBlocksUnlinked.filter fun e => decide (e.1 ≠ x) })
      (fun q hmem => by
        rcases List.mem_append.mp hmem with hmem | hmem
        · exact hq q (List.mem_cons_of_mem _ hmem)
        · -- an entry that waited for `x` is its child
          obtain ⟨e, he, rfl⟩ := List.mem_map.mp hmem
          obtain ⟨hmem', hex⟩ := List.mem_filter.mp he
          rw [hk.unlinked] at hmem'
          have hp := hu e hmem'
          rw [of_decide_eq_true hex] at hp
          exact (ParentTree.mem_branch_parent hp).mpr (Or.inr hbx))
      (fun e he => by
        have hmem := (List.mem_filter.mp he).1
        rw [hk.unlinked] at hmem
        exact hu e hmem)
    refine ⟨h1.trans hk.chain, fun c hc => ?_⟩
    have hcx : c ≠ x := by
      rintro rfl
      exact hc hbx
    exact (h2 c hc).trans (hk.other c hcx)

theorem untouched_receivedBlockTransactions {a : α} (hp : T.parent b = some a)
    (hu : ∀ e ∈ n.mapBlocksUnlinked, T.parent e.2 = some e.1) :
    Untouched T b n (n.receivedBlockTransactions T b) := by
  have hst : ∀ c, b ∉ T.branch c → (n.haveData b).status c = n.status c := by
    intro c hc
    rw [haveData_status, if_neg]
    rintro rfl
    exact hc (ParentTree.self_mem_branch _)
  refine receivedBlockTransactions_ind (fun fuel => ?_) ⟨rfl, hst⟩ fun _ => ⟨rfl, hst⟩
  obtain ⟨hchain, hkept⟩ := untouched_linkQueue (b := b) (k := fuel) (l := [b])
    (n := n.haveData b) (by simp [ParentTree.self_mem_branch]) hu
  exact ⟨hchain, fun c hc => (hkept c hc).trans (hst c hc)⟩

omit [DecidableEq α] in
theorem Shallow.untouched (hs : Shallow T nMax n) (h : NodeInv T (validVerdicts α σ) [] n)
    (hbl : ¬ n.Linked b) (hchain : n.chainActive = T.branch t) (hu : Untouched T b n n')
    (hw : Within T nMax t b) : Shallow T nMax n' := by
  have hoff : ∀ c, n.Linked c → b ∉ T.branch c := fun c hc hb => hbl (h.linked_branch hc hb)
  have hlinked : ∀ c, b ∉ T.branch c → (n'.Linked c ↔ n.Linked c) := fun c hc => by
    rw [Linked, Linked, hu.status c hc]
  have hless : ∀ c d, b ∉ T.branch c → b ∉ T.branch d → n'.workLess T c d = n.workLess T c d :=
    fun c d hc hd => workLess_congr (by rw [hu.status c hc]) (by rw [hu.status d hd])
  obtain ⟨t0, ht0, ht, _⟩ := h.chain
  obtain rfl : t0 = t := ParentTree.branch_injective (ht0.symm.trans hchain)
  intro t' ht' x hx hlt
  obtain rfl : t0 = t' := ParentTree.branch_injective ((hu.chain.trans ht0).symm.trans ht')
  by_cases hbx : b ∈ T.branch x
  · exact Or.inl (hw.extend hbx)
  · rw [hlinked x hbx] at hx
    rw [hless t0 x (hoff t0 ht) hbx] at hlt
    rcases hs t0 ht0 x hx hlt with hwx | ⟨y, hy, hle, hty⟩
    · exact Or.inl hwx
    · exact Or.inr ⟨y, (hlinked y (hoff y hy)).mpr hy,
        by rw [hless y x (hoff y hy) hbx]; exact hle, hty⟩

/-- **`AcceptBlock` keeps the invariant**, unless it overlooks a deep fork. -/
theorem Shallow.acceptBlock (hE : ValidRules E) (h : NodeInv T (validVerdicts α σ) [] n)
    (hs : Shallow T nMax n) (ho : ¬ Overlooked T nMax n b) :
    Shallow T nMax (n.acceptBlock T nMax E b).1 := by
  unfold Node.acceptBlock
  cases he : n.acceptEntry T nMax E b with
  | error e => exact hs
  | ok n1 =>
    have hen := acceptEntry_ok he
    have h1 : NodeInv T (validVerdicts α σ) [] n1 := by
      rcases hen.node with rfl | ⟨hb, rfl⟩
      · exact h
      · exact h.addToBlockIndex hb
    obtain ⟨hchain1, hlink1, hstat1, hdata1⟩ := hen.linked h
    have hs1 : Shallow T nMax n1 := by
      intro t ht x hx hlt
      rw [hchain1] at ht
      obtain ⟨t0, ht0, htl, _⟩ := h.chain
      obtain rfl : t0 = t := ParentTree.branch_injective (ht0.symm.trans ht)
      have hless : ∀ c d, n.Linked c → n.Linked d → n1.workLess T c d = n.workLess T c d :=
        fun c d hc hd => workLess_congr (by rw [hstat1 c hc]) (by rw [hstat1 d hd])
      have hx := (hlink1 x).mpr hx
      rw [hless t0 x htl hx] at hlt
      rcases hs t0 ht0 x hx hlt with hw | ⟨y, hy, hle, hty⟩
      · exact Or.inl hw
      · exact Or.inr ⟨y, (hlink1 y).mp hy, by rw [hless y x hy hx]; exact hle, hty⟩
    dsimp only
    split
    · exact hs1
    · rename_i hd
      have hd : (n1.status b).fHaveData = false := by simpa using hd
      cases hc : E.checkBlock n1 b with
      | error e =>
        dsimp only
        rw [hE n1 b e hc]
        exact hs1
      | ok u =>
        dsimp only
        obtain ⟨t, ht, _⟩ := h.chain
        have hnear : n.forkDepth T b < nMax := by
          by_contra hne
          exact ho ⟨hdata1 ▸ hd, (acceptEntry_checks he).1, (acceptEntry_checks he).2, by omega⟩
        obtain ⟨a, ha⟩ : ∃ a, T.parent b = some a := by
          cases hp : T.parent b with
          | some a => exact ⟨a, rfl⟩
          | none =>
            obtain ⟨t1, _, hg⟩ := h1.chain
            have := h1.linked_data _ (h1.linked_branch hg.1 (ParentTree.root_mem_branch t1))
            rw [← T.eq_root hp, hd] at this
            exact absurd this (by simp)
        exact hs1.untouched h1 (h1.not_linked hd) (hchain1.trans ht)
          (untouched_receivedBlockTransactions ha fun e he' => (h1.unlinked e he').1)
          (within_of_forkDepth ht hnear)

/-! ## Runs -/

theorem shallow_genesis (state : σ) : Shallow T nMax (Node.genesis T state) := by
  intro t ht x hx hlt
  have hx : x = T.root := by
    by_contra hne
    exact hx (by simp [Node.genesis, hne])
  have ht : T.root = t := by
    refine ParentTree.branch_injective (T := T.toParentTree) ?_
    rw [← ht, ParentTree.branch_root]
    rfl
  rw [hx, ht, workLess_irrefl] at hlt
  exact absurd hlt (by simp)

/-- A call that stores only valid blocks and overlooks no deep fork. -/
def AcceptsNear (T : IndexTree α) (nMax : Int) (E : AcceptRules α σ) (n : Node α σ) (b : α) :
    Prop :=
  ValidRules E ∧ ¬ Overlooked T nMax n b

/-- **Both invariants hold along every run.** -/
theorem shallow_reaches {state : σ}
    (h : Reaches T nMax (AcceptsNear T nMax) (fun ops _ => ValidOps ops) state n) :
    NodeInv T (validVerdicts α σ) [] n ∧ Shallow T nMax n := by
  have hinv : ∀ {n : Node α σ},
      Reaches T nMax (AcceptsNear T nMax) (fun ops _ => ValidOps ops) state n →
      NodeInv T (validVerdicts α σ) [] n := fun h =>
    nodeInv_reaches trivial (fun _ n b ha => ha.1.obeys n b) (fun _ _ ha => ha.obeys) h
  refine ⟨hinv h, ?_⟩
  induction h with
  | genesis => exact shallow_genesis state
  | accept hr ha ih => exact ih.acceptBlock ha.1 (hinv hr) ha.2
  | activate hr ha ih => exact ih.activateRound ha (hinv hr)

/-! ## Whole calls of `ActivateBestChain` -/

/-- The tip is on the branch of the best linked entry. -/
def Heading (T : IndexTree α) (n : Node α σ) : Prop :=
  ∃ t m, n.chainActive = T.branch t ∧ Best T n m ∧ t ∈ T.branch m

theorem heading_of_again (ho : ValidOps ops) (h : NodeInv T (validVerdicts α σ) [] n)
    (hr : (activateRound T ops n).2 = .again) : Heading T (activateRound T ops n).1 := by
  obtain ⟨t, hchain, _⟩ := h.chain
  have hl := (activateRound_spec (nodeInv_moves ho.obeys) h).2.1
  rcases activateRound_chain ho h hchain with ⟨_, _, hret⟩ | ⟨m, _, c, hm, _, _, _, hc, hend⟩
  · rw [hr] at hret
    exact absurd hret (by simp)
  · refine ⟨c, m, hc, hl.best.mpr hm, hend.resolve_right ?_⟩
    rintro ⟨_, hret⟩
    rw [hr] at hret
    exact absurd hret (by simp)

theorem Heading.chain_subset (ho : ValidOps ops) (h : NodeInv T (validVerdicts α σ) [] n)
    (hh : Heading T n) : n.chainActive ⊆ (activateRound T ops n).1.chainActive := by
  obtain ⟨t, m, hchain, hm, htm⟩ := hh
  rcases activateRound_chain ho h hchain with ⟨hsame, _⟩ | ⟨m', f, c, hm', _, hfork, hfc, hc, _⟩
  · rw [hchain, hsame]
    exact List.Subset.refl _
  · obtain rfl := hm'.unique hm.1 (hm.2 m' hm'.1)
    obtain ⟨_, hft, hhigh⟩ := ParentTree.find?_branch_eq hfork
    have hft : f ∈ T.branch t := by simpa [hchain] using hft
    have hle := hhigh t htm (by simp [hchain, ParentTree.self_mem_branch])
    have htf : f = t := (ParentTree.depth_le_of_mem hft).resolve_right (by omega)
    rw [hchain, hc]
    exact fun b hb => ParentTree.mem_branch_trans hfc (htf ▸ hb)

theorem Heading.activateBestChain (ho : ValidOps ops) : ∀ {k : Nat} {n n' : Node α σ} {r : Bool},
    NodeInv T (validVerdicts α σ) [] n → Heading T n →
    Node.activateBestChain T ops k n = some (n', r) → n.chainActive ⊆ n'.chainActive
  | 0, _, _, _, _, _, he => by simp [Node.activateBestChain] at he
  | k + 1, n, n', r, h, hh, he => by
    have hsub := hh.chain_subset ho h
    have h1 := (activateRound_spec (nodeInv_moves ho.obeys) h).1
    have hagain := heading_of_again ho h
    rw [Node.activateBestChain] at he
    cases hr : activateRound T ops n with
    | mk n1 p =>
      rw [hr] at he hsub h1 hagain
      cases p with
      | returned success =>
        dsimp only at he
        rw [Option.some.injEq, Prod.mk.injEq] at he
        rw [← he.1]
        exact hsub
      | again =>
        exact fun b hb => Heading.activateBestChain ho h1 (hagain rfl) he (hsub hb)

theorem disconnected_subset {n n2 : Node α σ} (h : n1.chainActive ⊆ n2.chainActive) :
    (disconnected n n2).length ≤ (disconnected n n1).length := by
  refine List.Sublist.length_le (List.monotone_filter_right _ fun b hb => ?_)
  simp only [decide_eq_true_eq] at hb ⊢
  exact fun hb1 => hb (h hb1)

/-- **A whole call disconnects no more than its first round.** -/
theorem disconnected_activateBestChain (ho : ValidOps ops) {k : Nat} {r : Bool}
    (h : NodeInv T (validVerdicts α σ) [] n)
    (he : Node.activateBestChain T ops k n = some (n', r)) :
    (disconnected n n').length ≤ (disconnected n (activateRound T ops n).1).length := by
  cases k with
  | zero => simp [Node.activateBestChain] at he
  | succ k =>
    have h1 := (activateRound_spec (nodeInv_moves ho.obeys) h).1
    have hagain := heading_of_again ho h
    rw [Node.activateBestChain] at he
    cases hr : activateRound T ops n with
    | mk n1 p =>
      rw [hr] at he h1 hagain
      cases p with
      | returned success =>
        dsimp only at he
        rw [Option.some.injEq, Prod.mk.injEq] at he
        rw [he.1]
      | again =>
        exact disconnected_subset (Heading.activateBestChain ho h1 (hagain rfl) he)

/-- A reorganisation of that many blocks is within the bound. -/
def Bounded (nMaxReorganizationDepth : Int) (n n' : Node α σ) : Prop :=
  disconnected n n' ≠ [] → ((disconnected n n').length : Int) < nMaxReorganizationDepth

/--
**Reorganisations are bounded**, if no deep fork is overlooked: neither a round of
`ActivateBestChain` nor a whole call of it disconnects `MaxReorganizationDepth` blocks
of the active chain it starts with.
-/
theorem activateBestChain_bounded {nMax : Int} {state : σ} (ho : ValidOps ops)
    (h : Reaches T nMax (AcceptsNear T nMax) (fun ops _ => ValidOps ops) state n) :
    Bounded nMax n (activateRound T ops n).1 ∧
      ∀ k n' r, activateBestChain T ops k n = some (n', r) → Bounded nMax n n' := by
  obtain ⟨hinv, hs⟩ := shallow_reaches h
  refine ⟨hs.disconnected_lt ho hinv, fun k n' r he hne => ?_⟩
  have hle := disconnected_activateBestChain ho hinv he
  have hpos := List.length_pos_iff.mpr hne
  have := hs.disconnected_lt ho hinv (by
    rw [← List.length_pos_iff]
    omega)
  omega

/-- A branch of three that replaces a branch of two. -/
def shallowRun : Node Nat Unit :=
  let accept (n : Node Nat Unit) (b : Nat) :=
    (n.acceptBlock (twoBranches 2) 100 (passRules _ _) b).1
  let round (n : Node Nat Unit) := (activateRound (twoBranches 2) (fixedOps fun _ => true) n).1
  accept (accept (accept (round (accept (round (accept (Node.genesis (twoBranches 2) ()) 1)) 2)) 3)
    4) 5

omit [DecidableEq α] in
theorem passRules_valid : ValidRules (passRules α σ) := by
  intro n b e h
  simp [passRules] at h

omit [DecidableEq α] in
theorem fixedOps_valid : ValidOps (fixedOps fun _ : α => true) := by
  intro s b h
  simp [fixedOps] at h

theorem reaches_shallowRun : Reaches (twoBranches 2) 100 (AcceptsNear (twoBranches 2) 100)
    (fun ops _ => ValidOps ops) () shallowRun := by
  refine .accept (.accept (.accept (.activate (.accept (.activate (.accept .genesis ?_)
    fixedOps_valid) ?_) fixedOps_valid) ?_) ?_) ?_
  all_goals exact ⟨passRules_valid, by decide⟩

/-- Two blocks are disconnected there. -/
theorem activateBestChain_bounded_shallow :
    (Bounded 100 shallowRun (activateRound (twoBranches 2) (fixedOps fun _ => true) shallowRun).1 ∧
      ∀ k n' r, activateBestChain (twoBranches 2) (fixedOps fun _ => true) k shallowRun =
      some (n', r) →
        Bounded 100 shallowRun n') ∧
    disconnected shallowRun (activateRound (twoBranches 2) (fixedOps fun _ => true) shallowRun).1
      = [2, 1] :=
  ⟨activateBestChain_bounded fixedOps_valid reaches_shallowRun, by decide⟩

/-! ### Two branches that grow in turn -/

/-- The first branch gets a block, chain selection runs, and the second one gets a block. -/
def turns (k : Nat) : Nat → Node Nat Unit
  | 0 => Node.genesis (twoBranches k) ()
  | j + 1 =>
    let n1 := (activateRound (twoBranches k) (fixedOps fun _ => true)
      ((turns k j).acceptBlock (twoBranches k) mainParams.nMaxReorganizationDepth
        (passRules _ _) (j + 1)).1).1
    (n1.acceptBlock (twoBranches k) mainParams.nMaxReorganizationDepth
      (passRules _ _) (k + j + 1)).1

/-- Then the second branch gets one more. -/
def overtaken (k : Nat) : Node Nat Unit :=
  ((turns k k).acceptBlock (twoBranches k) mainParams.nMaxReorganizationDepth
    (passRules _ _) (2 * k + 1)).1

theorem reaches_turns (k j : Nat) : Reaches (twoBranches k) mainParams.nMaxReorganizationDepth
    (fun E _ _ => ValidRules E) (fun ops _ => ValidOps ops) () (turns k j) := by
  induction j with
  | zero => exact .genesis
  | succ j ih =>
    exact .accept (.activate (.accept ih passRules_valid) fixedOps_valid) passRules_valid

set_option maxRecDepth 100000 in
theorem disconnected_overtaken : (disconnected (overtaken 110)
    (activateRound (twoBranches 110) (fixedOps fun _ => true) (overtaken 110)).1).length = 110 := by
  decide +kernel

/-- **One round disconnects 110 blocks**, though every block passed the check of the depth. -/
theorem activateRound_unbounded :
    ¬ ∀ (T : IndexTree Nat) (n : Node Nat Unit) (ops : TipOps Nat Unit), ValidOps ops →
      Reaches T mainParams.nMaxReorganizationDepth (fun E _ _ => ValidRules E)
        (fun ops _ => ValidOps ops) () n →
      Bounded mainParams.nMaxReorganizationDepth n (activateRound T ops n).1 := by
  intro h
  have hb := h (twoBranches 110) (overtaken 110) (fixedOps fun _ => true) fixedOps_valid
    (.accept (reaches_turns 110 110) passRules_valid)
  have hlen := disconnected_overtaken
  have := hb (by
    rw [← List.length_pos_iff]
    omega)
  rw [hlen] at this
  exact absurd this (by decide)

end Node

end BitBlocks
