import BitBlocks.Chain.NodeInv

/-!
# Chain selection converges

With a fixed verdict for every block, `ActivateBestChain` comes to an end, and the tip
it ends with is beaten by nothing that could be the tip.

It ends because every round that asks for another either marks a block invalid that
was not, or leaves a tip with more work (`progress`); the blocks of the index bound
both. It ends well because the tip is then the best candidate, and `Covered` says the
candidates are enough to look at.
-/

namespace BitBlocks

namespace Node

variable {α σ : Type} [DecidableEq α] {T : IndexTree α} {V : Verdicts α σ} {ops : TipOps α σ}

/-! ## Termination -/

/-- How many blocks can still be found invalid. -/
def alive (n : Node α σ) : Nat :=
  (n.mapBlockIndex.filter fun b => !(n.status b).fFailedValid).length

def mostWork (T : IndexTree α) (n : Node α σ) : Nat :=
  (n.mapBlockIndex.map T.nChainWork).foldr max 0

def tipWork (T : IndexTree α) (n : Node α σ) : Nat := (n.tip.map T.nChainWork).getD 0

/-- What a round that asks for another uses up. -/
def remaining (T : IndexTree α) (n : Node α σ) : Nat :=
  n.alive * (n.mostWork T + 1) + (n.mostWork T - n.tipWork T)

section

omit [DecidableEq α]

theorem nChainWork_le_mostWork {n : Node α σ} {b : α} (hb : b ∈ n.mapBlockIndex) :
    T.nChainWork b ≤ n.mostWork T := by
  have hall : ∀ l : List Nat, ∀ x ∈ l, x ≤ l.foldr max 0 := by
    intro l
    induction l with
    | nil => simp
    | cons y l ih =>
      intro x hx
      rw [List.foldr_cons]
      rcases List.mem_cons.mp hx with rfl | hx
      · exact Nat.le_max_left _ _
      · exact Nat.le_trans (ih x hx) (Nat.le_max_right _ _)
  exact hall _ _ (List.mem_map.mpr ⟨b, hb, rfl⟩)

theorem Later.mostWork {n n' : Node α σ} (h : Later n n') : n'.mostWork T = n.mostWork T := by
  rw [Node.mostWork, Node.mostWork, h.index]

theorem Later.alive_le {n n' : Node α σ} (h : Later n n') : n'.alive ≤ n.alive := by
  unfold alive
  rw [h.index]
  refine List.Sublist.length_le (List.monotone_filter_right _ fun b hb => ?_)
  simp only [Bool.not_eq_true'] at hb ⊢
  exact later_failed h hb

theorem Later.alive_lt {n n' : Node α σ} (h : Later n n') (hb : Broke n.status n'.status)
    (hknown : ∀ b, (n.status b).fHaveData = true → b ∈ n.mapBlockIndex) : n'.alive < n.alive := by
  obtain ⟨b, hb1, hb2, hb3⟩ := hb
  unfold alive
  rw [h.index]
  have heq : (n.mapBlockIndex.filter fun b => !(n'.status b).fFailedValid)
      = (n.mapBlockIndex.filter fun b => !(n.status b).fFailedValid).filter
          fun b => !(n'.status b).fFailedValid := by
    rw [List.filter_filter]
    refine List.filter_congr fun c _ => ?_
    cases hc : (n'.status c).fFailedValid with
    | true => simp
    | false => simp [later_failed h hc]
  rw [heq]
  refine List.length_filter_lt_length_iff_exists.mpr ⟨b, ?_, by simp [hb3]⟩
  exact List.mem_filter.mpr ⟨hknown b hb2, by simp [hb1]⟩

theorem NodeInv.tip_known {n : Node α σ} (h : NodeInv T V [] n) :
    ∃ t, n.tip = some t ∧ n.Good T V t ∧ t ∈ n.mapBlockIndex := by
  obtain ⟨t, ht, hg⟩ := h.chain
  exact ⟨t, tip_branch ht, hg, h.known t (h.linked_data t hg.1)⟩

/-- **Progress**: a new failure or more work is less to do. -/
theorem remaining_lt {n n' : Node α σ} (h : NodeInv T V [] n) (h' : NodeInv T V [] n')
    (hl : Later n n') (hp : Improved T n n' ∨ Broke n.status n'.status) :
    n'.remaining T < n.remaining T := by
  obtain ⟨t, ht, _, hk⟩ := h.tip_known
  obtain ⟨t', ht', _, hk'⟩ := h'.tip_known
  have hle := nChainWork_le_mostWork (T := T) hk
  have hle' := nChainWork_le_mostWork (T := T) hk'
  have hw : n.tipWork T = T.nChainWork t := by simp [tipWork, ht]
  have hw' : n'.tipWork T = T.nChainWork t' := by simp [tipWork, ht']
  unfold remaining
  rw [hl.mostWork] at hle' ⊢
  rw [hw, hw']
  rcases hp with himp | hbr
  · obtain ⟨t'', ht'', hlt⟩ := himp t ht
    rw [ht'] at ht''
    obtain rfl := Option.some.inj ht''
    have := Nat.mul_le_mul_right (n.mostWork T + 1) hl.alive_le
    omega
  · have hlt := hl.alive_lt hbr h.known
    have := Nat.mul_le_mul_right (n.mostWork T + 1) (Nat.succ_le_of_lt hlt)
    rw [Nat.succ_mul] at this
    omega

end

/-- The tip is the best of the candidates. -/
def AtBest (T : IndexTree α) (n : Node α σ) : Prop :=
  ∃ t, n.tip = some t ∧ ∀ b ∈ n.setBlockIndexCandidates, n.workLess T t b = false

/-- **`ActivateBestChain` ends**, at the best candidate, if nothing gets stuck. -/
theorem activateBestChain_ends (hV : V.Consistent) (ho : ops.Obeys T V) (hs : ¬ Stuck ops) :
    ∀ {k : Nat} {n : Node α σ}, NodeInv T V [] n → n.remaining T ≤ k →
    ∃ n', (∀ fuel, k < fuel → activateBestChain T ops fuel n = some (n', true)) ∧
      NodeInv T V [] n' ∧ Later n n' ∧ AtBest T n'
  | k, n, h, hk => by
    obtain ⟨h1, h2, h3⟩ := activateRound_spec (nodeInv_moves ho) h
    cases hr : activateRound T ops n with
    | mk n1 r =>
      rw [hr] at h1 h2 h3
      dsimp only at h1 h2
      cases r with
      | returned success =>
        cases success with
        | false => exact absurd h3 hs
        | true =>
          refine ⟨n1, fun fuel hf => ?_, h1, h2, ?_⟩
          · obtain ⟨f, rfl⟩ : ∃ f, fuel = f + 1 := ⟨fuel - 1, by omega⟩
            rw [activateBestChain, hr]
          · rcases h3 with hnil | hbest
            · -- there is always a candidate as good as the tip
              obtain ⟨t, _, hg, _⟩ := h1.tip_known
              obtain ⟨y, hy, _⟩ := h1.cover hV t hg
              rw [hnil] at hy
              simp at hy
            · exact hbest
      | again =>
        have hlt : n1.remaining T < n.remaining T := by
          rcases h3 with h3 | h3 | h3
          · exact remaining_lt h h1 h2 (Or.inl h3)
          · exact remaining_lt h h1 h2 (Or.inr h3)
          · exact absurd h3 hs
        obtain ⟨n', hn', g1, g2, g3⟩ := activateBestChain_ends hV ho hs (k := k - 1) h1 (by omega)
        refine ⟨n', fun fuel hf => ?_, g1, h2.trans g2, g3⟩
        obtain ⟨f, rfl⟩ : ∃ f, fuel = f + 1 := ⟨fuel - 1, by omega⟩
        rw [activateBestChain, hr]
        exact hn' f (by omega)
  termination_by _ n => n.remaining T

/-! ## The tip it ends with -/

omit [DecidableEq α] in
theorem NodeInv.linked_of_data {n : Node α σ} (h : NodeInv T V [] n) {b : α}
    (hb : ∀ a ∈ T.branch b, (n.status a).fHaveData = true) : n.Linked b := by
  induction b using ParentTree.branch_induction (T := T.toParentTree) with
  | hroot =>
    rcases h.data_linked T.root (hb _ (ParentTree.self_mem_branch _)) (fun a ha => by
      rw [T.parent_root] at ha; exact absurd ha (by simp)) with hl | hq
    · exact hl
    · simp at hq
  | hchild b a hp ih =>
    have ha := ih fun c hc => hb c ((ParentTree.mem_branch_parent hp).mpr (Or.inr hc))
    rcases h.data_linked b (hb b (ParentTree.self_mem_branch b)) (fun c hc => by
      rw [hp] at hc; rw [← Option.some.inj hc]; exact ha) with hl | hq
    · exact hl
    · simp at hq

omit [DecidableEq α] in
/-- **Nothing that could be the tip is better than the best candidate.** -/
theorem NodeInv.not_workLess_tip {n : Node α σ} (hV : V.Consistent) (h : NodeInv T V [] n)
    (hbest : AtBest T n) {b : α} (hb : n.Good T V b) :
    ∃ t, n.tip = some t ∧ n.workLess T t b = false := by
  obtain ⟨t, ht, hle⟩ := hbest
  obtain ⟨y, hy, _, hyb⟩ := h.cover hV b hb
  exact ⟨t, ht, not_workLess_trans hyb (hle y hy)⟩

/-! ## A fixed verdict for every block -/

/-- `ConnectTip` with a fixed verdict, and a `DisconnectTip` that succeeds. -/
def fixedOps (verdict : α → Bool) : TipOps α Unit where
  connect _ b := if verdict b then .connected () else .invalid false
  disconnect _ _ := some ()

/-- The verdicts of that; what is stored or refused is left open. -/
def fixedVerdicts (verdict : α → Bool) : Verdicts α Unit where
  connects b := verdict b = true
  broken b := verdict b = false
  stored _ := True
  refused _ := True
  valid _ _ := True

section

omit [DecidableEq α]

theorem fixedVerdicts_consistent (verdict : α → Bool) : (fixedVerdicts verdict).Consistent := by
  intro b hb hbr
  simp only [fixedVerdicts] at hb hbr
  rw [hb] at hbr
  exact absurd hbr (by simp)

theorem fixedOps_obeys (verdict : α → Bool) :
    (fixedOps verdict).Obeys T (fixedVerdicts verdict) where
  connected _ _ h := by
    unfold fixedOps at h
    dsimp only at h
    split at h
    · rename_i hv; exact ⟨hv, trivial⟩
    · simp at h
  invalid _ _ h := by
    unfold fixedOps at h
    dsimp only at h
    split at h
    · simp at h
    · rename_i hv; simpa [fixedVerdicts] using hv
  disconnect _ _ _ := trivial

theorem fixedOps_not_stuck (verdict : α → Bool) : ¬ Stuck (fixedOps verdict) := by
  rintro (⟨_, _, h⟩ | ⟨_, b, h | h⟩)
  · simp [fixedOps] at h
  all_goals
    unfold fixedOps at h
    dsimp only at h
    split at h <;> simp at h

end

theorem nodeInv_fixed {nMax : Int} {verdict : α → Bool} {n : Node α Unit}
    (h : Reaches T nMax (fun _ _ _ => True) (fun ops _ => ops = fixedOps verdict) () n) :
    NodeInv T (fixedVerdicts verdict) [] n :=
  nodeInv_reaches trivial (fun _ _ _ _ => ⟨fun _ _ _ => trivial, fun _ _ _ _ => trivial⟩)
    (fun _ _ he => he ▸ fixedOps_obeys verdict) h

/--
**Chain selection converges.** Whatever `AcceptBlock` accepted, stored or refused, and
however its calls and rounds of chain selection were interleaved, `ActivateBestChain`
ends; and no entry whose whole branch has its data and connects is better than the
tip it leaves, the old tip included.
-/
theorem activateBestChain_converges {nMax : Int} {verdict : α → Bool} {n : Node α Unit}
    (h : Reaches T nMax (fun _ _ _ => True) (fun ops _ => ops = fixedOps verdict) () n) :
    ∃ k n' tip', (∀ fuel, k < fuel →
        activateBestChain T (fixedOps verdict) fuel n = some (n', true)) ∧
      n'.tip = some tip' ∧
      (∀ b, (∀ a ∈ T.branch b, (n'.status a).fHaveData = true ∧
        (a = T.root ∨ verdict a = true)) → n'.workLess T tip' b = false) ∧
      ∀ old, n.tip = some old → n'.workLess T tip' old = false := by
  have hinv := nodeInv_fixed h
  have hV := fixedVerdicts_consistent verdict
  obtain ⟨n', hn', h1, h2, h3⟩ := activateBestChain_ends hV (fixedOps_obeys verdict)
    (fixedOps_not_stuck verdict) hinv (Nat.le_refl _)
  obtain ⟨t, ht, hle⟩ := h3
  have hgood : ∀ b, n'.Good T (fixedVerdicts verdict) b → n'.workLess T t b = false := by
    intro b hb
    obtain ⟨t', ht', hlt⟩ := h1.not_workLess_tip hV ⟨t, ht, hle⟩ hb
    rw [ht] at ht'
    rw [Option.some.inj ht']
    exact hlt
  refine ⟨_, n', t, hn', ht, fun b hb => hgood b ⟨?_, ?_⟩, fun old hold => ?_⟩
  · exact h1.linked_of_data fun a ha => (hb a ha).1
  · exact fun a ha hr => (hb a ha).2.resolve_left hr
  · obtain ⟨t0, ht0, hg0, _⟩ := hinv.tip_known
    rw [hold] at ht0
    obtain rfl := Option.some.inj ht0
    exact hgood old ⟨(h2.linked old).mpr hg0.1, hg0.2⟩

/-! ### Two branches -/

/-- Entries `1` to `k` in a row, and the rest in a row beside them. -/
def twoBranches (k : Nat) : IndexTree Nat where
  root := 0
  parent n := if n = 0 then none else if n = k + 1 then some 0 else some (n - 1)
  depth n := if n ≤ k then n else n - k
  parent_root := rfl
  eq_root := by
    intro a h
    by_contra hne
    rw [if_neg hne] at h
    split at h <;> simp at h
  depth_root := rfl
  depth_parent := by
    intro a b h
    split at h
    · simp at h
    · split at h
      · rw [← Option.some.inj h]
        split <;> split <;> omega
      · rw [← Option.some.inj h]
        split <;> split <;> omega
  nChainWork n := if n ≤ k then n else n - k
  nTx _ := 1
  nTx_pos _ := by omega
  address n := n
  address_injective h := h

def passRules (α σ : Type) : AcceptRules α σ where
  checkWork _ _ := .ok ()
  checkBlockHeader _ := .ok ()
  contextualCheckBlockHeader _ _ := .ok ()
  checkBlock _ _ := .ok ()

/-- A longer branch that breaks in the middle: block `4` of `3, 4, 5`, beside `1, 2`. -/
def brokenRun : Node Nat Unit :=
  let accept (n : Node Nat Unit) (b : Nat) :=
    (n.acceptBlock (twoBranches 2) 100 (passRules _ _) b).1
  let n1 := (activateRound (twoBranches 2) (fixedOps fun b => b ≠ 4)
    (accept (accept (Node.genesis (twoBranches 2) ()) 1) 2)).1
  accept (accept (accept n1 3) 4) 5

theorem reaches_brokenRun : Reaches (twoBranches 2) 100 (fun _ _ _ => True)
    (fun ops _ => ops = fixedOps fun b => decide (b ≠ 4)) () brokenRun :=
  .accept (.accept (.accept (.activate (.accept (.accept .genesis trivial) trivial) rfl)
    trivial) trivial) trivial

/-- On that run the tip stays where it was. -/
theorem activateBestChain_converges_broken :
    (∃ k n' tip', (∀ fuel, k < fuel → activateBestChain (twoBranches 2)
        (fixedOps fun b => decide (b ≠ 4)) fuel brokenRun = some (n', true)) ∧
      n'.tip = some tip' ∧
      (∀ b, (∀ a ∈ (twoBranches 2).branch b, (n'.status a).fHaveData = true ∧
        (a = (twoBranches 2).root ∨ decide (a ≠ 4) = true)) →
        n'.workLess (twoBranches 2) tip' b = false) ∧
      ∀ old, brokenRun.tip = some old → n'.workLess (twoBranches 2) tip' old = false) ∧
    ((activateBestChain (twoBranches 2) (fixedOps fun b => decide (b ≠ 4)) 5 brokenRun).map
      fun r => (r.1.chainActive, r.2)) = some ([2, 1, 0], true) :=
  ⟨activateBestChain_converges reaches_brokenRun, by decide⟩

end Node

end BitBlocks
