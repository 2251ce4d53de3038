import BitBlocks.Budget.Finalized
import BitBlocks.Budget.Votes

/-!
# Proposals and the budget of a cycle (`CBudgetManager::GetBudget`)

The proposals of the next cycle are taken by falling number of votes, each if it fits into what is
left of the budget. The amount of a proposal is signed and no check on its way in looks at it, and
what was taken so far is kept in 64 bits. As there is no budget, what fits is what asks for
nothing, or for less.
-/

namespace BitBlocks

open Wrap Checks

structure CBudgetProposal where
  nAlloted : Int := 0
  fValid : Bool := true
  nBlockStart : Int
  nBlockEnd : Int
  nAmount : Int
  address : CScript
  nTime : Int
  nFeeTXHash : Uint256
  /-- Every vote with its `fValid`. -/
  mapVotes : List (CBudgetVote × Bool)
  /-- `CAmount` has 64 bits. -/
  nAmount_range : -(2 ^ 63) ≤ nAmount ∧ nAmount < 2 ^ 63

/-- What the budget reads of the rest of the node. -/
structure BudgetEnv extends VoteEnv where
  P : CChainParams
  kind : VoteKind CBudgetVote
  getHash : CBudgetProposal → Uint256
  /-- `mnodeman.CountEnabled(ActiveProtocol())`. -/
  nCountEnabled : Nat
  view : CollateralView

namespace CBudgetProposal

variable (env : BudgetEnv) (p : CBudgetProposal)

/-- `CBudgetVote::SignatureValid`. -/
def signatureValid (fSignatureCheck : Bool) (vote : CBudgetVote) : Bool :=
  if fSignatureCheck then env.kind.signatureValid env.toVoteEnv vote
  else (env.find vote.vin.prevout).isSome

/-- `CleanAndRemove`: if a masternode that voted is now invalid, its vote does not count. -/
def cleanAndRemove (fSignatureCheck : Bool) : CBudgetProposal :=
  { p with mapVotes := p.mapVotes.map fun v => (v.1, signatureValid env fSignatureCheck v.1) }

/-- `GetYeas`, `GetNays`. -/
def countVotes (nVote : Int) : Int := (p.mapVotes.filter fun v => v.1.nVote == nVote && v.2).length

def getYeas : Int := p.countVotes 1

def getNays : Int := p.countVotes 2

/-- `IsEstablished`: proposals must be at least a day old to make it into a budget. -/
def isEstablished : Bool :=
  if env.P.networkMain then decide (p.nTime < env.nNow - 60 * 60 * 24)
  -- for testing purposes
  else decide (p.nTime < env.nNow - 60 * 5)

def isValid (fCheckCollateral : Bool) : Except String Unit := do
  failIf (decide (p.getNays - p.getYeas > (env.nCountEnabled : Int).tdiv 10)) "Active removal"
  failIf (decide (p.nBlockStart < 0)) "Invalid Proposal"
  failIf (decide (p.nBlockEnd < p.nBlockStart)) "Invalid nBlockEnd (end before start)"
  failIf (p.address == []) "Invalid Payment Address"
  if fCheckCollateral then
    match (env.view.isBudgetCollateralValid p.nFeeTXHash (env.getHash p) p.nTime).result with
    | .error _ => .error "Invalid collateral"
    | .ok () => .ok ()
  failIf p.address.isPayToScriptHash "Multisig is not currently supported."
  match env.view.tip with
  | none => .ok ()
  | some nHeight =>
    failIf (decide (p.nBlockEnd < nHeight - env.P.getBudgetPaymentCycleBlocks.tdiv 2))
      "Invalid nBlockEnd (end too early)"

/-- What `IsValid` checks that does not change once a proposal is there. -/
def WellFormed : Prop := 0 ≤ p.nBlockStart ∧ p.address ≠ [] ∧ p.address.isPayToScriptHash = false

end CBudgetProposal

/-- `sortProposalsByVotes`: sort by votes, if there's a tie sort by their feeHash TX. -/
def sortProposalsByVotes (left right : CBudgetProposal × Int) : Bool :=
  if left.2 ≠ right.2 then decide (left.2 > right.2)
  else decide (left.1.nFeeTXHash > right.1.nFeeTXHash)

/-- `std::sort` by a comparison. What compares equal may come in any order. -/
structure Sorter {α : Type} (less : α → α → Bool) where
  sort : List α → List α
  perm : ∀ l, (sort l).Perm l
  sorted : ∀ l, (sort l).Pairwise fun a b => less b a = false

namespace BudgetEnv

variable (env : BudgetEnv)

/-- The first block of the next cycle. -/
def nextBlockStart (nHeight : Int) : Int :=
  nHeight - nHeight.tmod env.P.getBudgetPaymentCycleBlocks + env.P.getBudgetPaymentCycleBlocks

/-- A proposal that is considered: start and end should be inside this period. -/
def eligible (nBlockStart : Int) (p : CBudgetProposal) : Bool :=
  let nBlockEnd := nBlockStart + env.P.getBudgetPaymentCycleBlocks - 1
  p.fValid && decide (p.nBlockStart ≤ nBlockStart) && decide (p.nBlockEnd ≥ nBlockEnd) &&
    decide (p.getYeas - p.getNays > (env.nCountEnabled : Int).tdiv 10) && p.isEstablished env

/--
The loop that grabs the proposals in order: each as it is left, and whether it goes into the
result.
-/
def grab (nBlockStart : Int) : Int → List CBudgetProposal → List (CBudgetProposal × Bool)
  | _, [] => []
  | nBudgetAllocated, p :: rest =>
    if env.eligible nBlockStart p then
      if wrap64 (p.nAmount + nBudgetAllocated) ≤ getTotalBudget nBlockStart then
        ({ p with nAlloted := p.nAmount }, true) ::
          grab nBlockStart (wrap64 (nBudgetAllocated + p.nAmount)) rest
      else ({ p with nAlloted := 0 }, false) :: grab nBlockStart nBudgetAllocated rest
    else (p, false) :: grab nBlockStart nBudgetAllocated rest

/-- The proposals by votes, after their votes were checked. -/
def ordered (S : Sorter sortProposalsByVotes) (mapProposals : List CBudgetProposal) :
    List CBudgetProposal :=
  (S.sort (mapProposals.map fun p =>
    let p := p.cleanAndRemove env false
    (p, p.getYeas - p.getNays))).map Prod.fst

/-- What becomes of the proposals in `GetBudget`, in the order they are considered in. -/
def considered (S : Sorter sortProposalsByVotes) (mapProposals : List CBudgetProposal) :
    List (CBudgetProposal × Bool) :=
  match env.view.tip with
  | none => (env.ordered S mapProposals).map fun p => (p, false)
  | some nHeight => env.grab (env.nextBlockStart nHeight) 0 (env.ordered S mapProposals)

def funded (rows : List (CBudgetProposal × Bool)) : List CBudgetProposal :=
  (rows.filter Prod.snd).map Prod.fst

/-- `CBudgetManager::GetBudget`. -/
def getBudget (S : Sorter sortProposalsByVotes) (mapProposals : List CBudgetProposal) :
    List CBudgetProposal := funded (env.considered S mapProposals)

def allotted (l : List CBudgetProposal) : Int := (l.map CBudgetProposal.nAlloted).sum

/-- **The allotment is sound**, for the cycle from `nBlockStart` on. -/
structure Sound (nBlockStart : Int) (rows : List (CBudgetProposal × Bool)) : Prop where
  nonneg : ∀ p ∈ funded rows, 0 ≤ p.nAlloted
  total : allotted (funded rows) ≤ getTotalBudget nBlockStart
  valid : ∀ p ∈ funded rows, p.fValid = true ∧ p.isValid env false = .ok () ∧
    p.getYeas - p.getNays > (env.nCountEnabled : Int).tdiv 10
  /-- An eligible proposal that was passed over for one with fewer votes did not fit. -/
  fair : ∀ l₁ p l₂, rows = l₁ ++ (p, false) :: l₂ → env.eligible nBlockStart p = true →
    (∃ q ∈ funded rows, q.getYeas - q.getNays < p.getYeas - p.getNays) →
    getTotalBudget nBlockStart - allotted (funded l₁) < p.nAmount

/-- The same of a call; without a tip there is no cycle, and nothing is taken. -/
def AllotsSoundly (S : Sorter sortProposalsByVotes) (mapProposals : List CBudgetProposal) : Prop :=
  match env.view.tip with
  | none => env.getBudget S mapProposals = []
  | some nHeight => env.Sound (env.nextBlockStart nHeight) (env.considered S mapProposals)

variable {env} {S : Sorter sortProposalsByVotes} {mapProposals : List CBudgetProposal}
  {nBlockStart nHeight : Int} {p : CBudgetProposal} {l : List CBudgetProposal}

/-! ## Proposals that are considered -/

theorem mem_ordered : p ∈ env.ordered S mapProposals ↔
    ∃ q ∈ mapProposals, p = q.cleanAndRemove env false := by
  rw [ordered, List.mem_map]
  constructor
  · rintro ⟨row, hrow, rfl⟩
    obtain ⟨q, hq, rfl⟩ := List.mem_map.mp ((S.perm _).mem_iff.mp hrow)
    exact ⟨q, hq, rfl⟩
  · rintro ⟨q, hq, rfl⟩
    exact ⟨_, (S.perm _).mem_iff.mpr (List.mem_map.mpr ⟨q, hq, rfl⟩), rfl⟩

theorem cycle_pos (P : CChainParams) : 0 < P.getBudgetPaymentCycleBlocks := by
  rw [CChainParams.getBudgetPaymentCycleBlocks]
  split <;> decide

theorem eligible_iff : env.eligible nBlockStart p = true ↔ p.fValid = true ∧
    p.nBlockStart ≤ nBlockStart ∧
    nBlockStart + env.P.getBudgetPaymentCycleBlocks - 1 ≤ p.nBlockEnd ∧
    (env.nCountEnabled : Int).tdiv 10 < p.getYeas - p.getNays ∧ p.isEstablished env = true := by
  simp only [eligible, Bool.and_eq_true, decide_eq_true_eq, ge_iff_le, gt_iff_lt, and_assoc]

theorem isValid_iff_of_eligible (htip : env.view.tip = some nHeight)
    (h : env.eligible (env.nextBlockStart nHeight) p = true) :
    p.isValid env false = .ok () ↔ p.WellFormed := by
  obtain ⟨-, hstart, hend, hvotes, -⟩ := eligible_iff.mp h
  have hcycle := cycle_pos env.P
  have htmod := Int.tmod_lt_of_pos nHeight hcycle
  have hhalf : 0 ≤ env.P.getBudgetPaymentCycleBlocks.tdiv 2 := Int.tdiv_nonneg hcycle.le (by decide)
  have htenth : 0 ≤ (env.nCountEnabled : Int).tdiv 10 :=
    Int.tdiv_nonneg (Int.natCast_nonneg _) (by decide)
  rw [nextBlockStart] at hstart hend
  have hvotes' : ¬ p.getNays - p.getYeas > (env.nCountEnabled : Int).tdiv 10 := by omega
  have hend' : ¬ p.nBlockEnd < p.nBlockStart := by omega
  have hlate : ¬ p.nBlockEnd < nHeight - env.P.getBudgetPaymentCycleBlocks.tdiv 2 := by omega
  rw [CBudgetProposal.isValid, htip, CBudgetProposal.WellFormed]
  simp only [bind_eq_ok, exists_unit, failIf_eq_ok, decide_eq_false hvotes', decide_eq_false hend',
    decide_eq_false hlate, decide_eq_false_iff_not, Bool.false_eq_true, if_false, Int.not_lt,
    beq_eq_false_iff_ne, ne_eq, true_and, and_true]

theorem isValid_allotted (x : Int) :
    ({ p with nAlloted := x } : CBudgetProposal).isValid env false = p.isValid env false := by
  simp only [CBudgetProposal.isValid, Bool.false_eq_true, if_false]
  rfl

/-! ## What is taken -/

/-- A proposal that asks for nothing is taken, and one that asks for something is not. -/
def grabbed (nBlockStart : Int) (p : CBudgetProposal) : CBudgetProposal × Bool :=
  if env.eligible nBlockStart p then
    if p.nAmount = 0 then ({ p with nAlloted := p.nAmount }, true) else
      ({ p with nAlloted := 0 }, false)
  else (p, false)

theorem wrap64_nAmount (p : CBudgetProposal) : wrap64 p.nAmount = p.nAmount :=
  wrap64_of_range p.nAmount_range.1 p.nAmount_range.2

/-- **Without negative amounts the budget stays at nothing**, and so does what is taken. -/
theorem grab_eq (h : ∀ p ∈ l, env.eligible nBlockStart p = true → 0 ≤ p.nAmount) :
    env.grab nBlockStart 0 l = l.map (@grabbed env nBlockStart) := by
  induction l with
  | nil => rfl
  | cons p l ih =>
    have ih := ih fun q hq => h q (List.mem_cons_of_mem _ hq)
    rw [grab, List.map_cons, grabbed, ih]
    split
    · rename_i heligible
      have hpos := h p List.mem_cons_self heligible
      rw [Int.add_zero, wrap64_nAmount, getTotalBudget]
      by_cases hzero : p.nAmount = 0
      · have hnext : wrap64 (0 + p.nAmount) = 0 := by rw [Int.zero_add, wrap64_nAmount, hzero]
        rw [if_pos (by omega), if_pos hzero, hnext, ih]
      · rw [if_neg (by omega), if_neg hzero]
    · rfl

theorem nonneg_of_grab (h : ∀ p ∈ funded (env.grab nBlockStart 0 l), 0 ≤ p.nAlloted) :
    ∀ p ∈ l, env.eligible nBlockStart p = true → 0 ≤ p.nAmount := by
  induction l with
  | nil => exact fun p hp => absurd hp List.not_mem_nil
  | cons p l ih =>
    rw [grab] at h
    by_cases heligible : env.eligible nBlockStart p = true
    · rw [if_pos heligible, Int.add_zero, wrap64_nAmount, getTotalBudget] at h
      by_cases hle : p.nAmount ≤ 0
      · rw [if_pos hle] at h
        have hpos : 0 ≤ p.nAmount := h { p with nAlloted := p.nAmount } List.mem_cons_self
        have hzero : p.nAmount = 0 := Int.le_antisymm hle hpos
        have hnext : wrap64 (0 + p.nAmount) = 0 := by rw [Int.zero_add, wrap64_nAmount, hzero]
        rw [hnext] at h
        intro q hq hqe
        rcases List.mem_cons.mp hq with rfl | hq
        · exact hpos
        · exact ih (fun r hr => h r (List.mem_cons_of_mem _ hr)) q hq hqe
      · rw [if_neg hle] at h
        intro q hq hqe
        rcases List.mem_cons.mp hq with rfl | hq
        · omega
        · exact ih h q hq hqe
    · rw [if_neg heligible] at h
      intro q hq hqe
      rcases List.mem_cons.mp hq with rfl | hq
      · exact absurd hqe heligible
      · exact ih h q hq hqe

theorem mem_funded {rows : List (CBudgetProposal × Bool)} : p ∈ funded rows ↔ (p, true) ∈ rows := by
  rw [funded, List.mem_map]
  constructor
  · rintro ⟨⟨q, b⟩, hrow, rfl⟩
    obtain ⟨hmem, hb⟩ := List.mem_filter.mp hrow
    obtain rfl : b = true := hb
    exact hmem
  · intro h
    exact ⟨(p, true), List.mem_filter.mpr ⟨h, rfl⟩, rfl⟩

theorem allotted_eq_zero (h : ∀ p ∈ l, p.nAlloted = 0) : allotted l = 0 := by
  rw [allotted]
  refine List.sum_eq_zero fun x hx => ?_
  obtain ⟨p, hp, rfl⟩ := List.mem_map.mp hx
  exact h p hp

theorem grabbed_true (h : (p, true) ∈ l.map (@grabbed env nBlockStart)) :
    ∃ q ∈ l, env.eligible nBlockStart q = true ∧ q.nAmount = 0 ∧
      p = { q with nAlloted := q.nAmount } := by
  obtain ⟨q, hq, hp⟩ := List.mem_map.mp h
  unfold grabbed at hp
  split at hp
  · rename_i heligible
    split at hp
    · rename_i hzero
      exact ⟨q, hq, heligible, hzero, (congrArg Prod.fst hp).symm⟩
    · exact absurd (congrArg Prod.snd hp) (by simp)
  · exact absurd (congrArg Prod.snd hp) (by simp)

theorem grabbed_false (h : (p, false) ∈ l.map (@grabbed env nBlockStart))
    (heligible : env.eligible nBlockStart p = true) :
    ∃ q ∈ l, env.eligible nBlockStart q = true ∧ q.nAmount ≠ 0 ∧ p.nAmount = q.nAmount := by
  obtain ⟨q, hq, hp⟩ := List.mem_map.mp h
  unfold grabbed at hp
  split at hp
  · rename_i hqe
    split at hp
    · exact absurd (congrArg Prod.snd hp) (by simp)
    · rename_i hzero
      have hpq := congrArg Prod.fst hp
      dsimp only at hpq
      exact ⟨q, hq, hqe, hzero, by rw [← hpq]⟩
  · rename_i hqe
    obtain rfl : q = p := congrArg Prod.fst hp
    exact absurd heligible hqe

/-- **When an allotment is sound.** -/
theorem sound_iff (htip : env.view.tip = some nHeight) :
    env.Sound (env.nextBlockStart nHeight) (env.grab (env.nextBlockStart nHeight) 0 l) ↔
      ∀ p ∈ l, env.eligible (env.nextBlockStart nHeight) p = true →
        0 ≤ p.nAmount ∧ (p.nAmount = 0 → p.WellFormed) := by
  constructor
  · intro h
    have hnonneg := nonneg_of_grab h.nonneg
    intro p hp heligible
    refine ⟨hnonneg p hp heligible, fun hzero => ?_⟩
    have hfunded : ({ p with nAlloted := p.nAmount } : CBudgetProposal) ∈
        funded (env.grab (env.nextBlockStart nHeight) 0 l) := by
      rw [mem_funded, grab_eq hnonneg, List.mem_map]
      exact ⟨p, hp, by rw [grabbed, if_pos heligible, if_pos hzero]⟩
    have hvalid := (h.valid _ hfunded).2.1
    rw [isValid_allotted] at hvalid
    exact (isValid_iff_of_eligible htip heligible).mp hvalid
  · intro h
    have hnonneg := fun p hp he => (h p hp he).1
    rw [grab_eq hnonneg]
    have hzero : ∀ p, (p, true) ∈ l.map (@grabbed env (env.nextBlockStart nHeight)) →
        p.nAlloted = 0 := by
      intro p hp
      obtain ⟨q, -, -, hq, rfl⟩ := grabbed_true hp
      exact hq
    refine ⟨fun p hp => ?_, ?_, fun p hp => ?_, fun l1 p l2 hrows heligible _ => ?_⟩
    · rw [hzero p (mem_funded.mp hp)]
    · rw [allotted_eq_zero fun p hp => hzero p (mem_funded.mp hp), getTotalBudget]
    · obtain ⟨q, hq, heligible, hamount, rfl⟩ := grabbed_true (mem_funded.mp hp)
      obtain ⟨hvalid, -, -, hvotes, -⟩ := eligible_iff.mp heligible
      refine ⟨hvalid, ?_, hvotes⟩
      rw [isValid_allotted]
      exact (isValid_iff_of_eligible htip heligible).mpr ((h q hq heligible).2 hamount)
    · have hfirst : allotted (funded l1) = 0 := by
        refine allotted_eq_zero fun q hq => hzero q ?_
        rw [hrows]
        exact List.mem_append_left _ (mem_funded.mp hq)
      obtain ⟨q, hq, hqe, hne, hamount⟩ := grabbed_false (by rw [hrows]; simp) heligible
      have := hnonneg q hq hqe
      rw [hfirst, getTotalBudget]
      omega

/--
**When the allotment stays within the budget.** The budget is nothing, so the loop is sound just
when no eligible proposal asks for less than nothing; the ones that ask for nothing are funded,
and have to be valid, which `AddProposal` sees to.
-/
theorem getBudget_sound_iff (env : BudgetEnv) (S : Sorter sortProposalsByVotes)
    (mapProposals : List CBudgetProposal) : env.AllotsSoundly S mapProposals ↔
      ∀ nHeight, env.view.tip = some nHeight → ∀ p ∈ mapProposals,
        env.eligible (env.nextBlockStart nHeight) (p.cleanAndRemove env false) = true →
          0 ≤ p.nAmount ∧ (p.nAmount = 0 → p.WellFormed) := by
  unfold AllotsSoundly
  cases htip : env.view.tip with
  | none =>
    refine ⟨fun _ nHeight hnone => absurd hnone (by simp), fun _ => ?_⟩
    refine List.eq_nil_iff_forall_not_mem.mpr fun p hp => ?_
    rw [getBudget, considered, htip, mem_funded] at hp
    obtain ⟨q, -, hq⟩ := List.mem_map.mp hp
    exact absurd (congrArg Prod.snd hq) (by simp)
  | some nHeight =>
    rw [considered, htip]
    dsimp only
    rw [sound_iff htip]
    constructor
    · rintro h nHeight' htip' q hq heligible
      obtain rfl := Option.some.inj htip'
      exact h (q.cleanAndRemove env false) (mem_ordered.mpr ⟨q, hq, rfl⟩) heligible
    · intro h p hp heligible
      obtain ⟨q, hq, rfl⟩ := mem_ordered.mp hp
      exact h nHeight rfl q hq heligible

end BudgetEnv

/-! ### A proposal that pays for another one -/

theorem lexicographic_eq_false {x y : Int} {m n : Nat} :
    (if x ≠ y then decide (x > y) else decide (m > n)) = false ↔ x < y ∨ x = y ∧ m ≤ n := by
  split <;> (rw [decide_eq_false_iff_not]; omega)

theorem sortProposalsByVotes_eq_false {a b : CBudgetProposal × Int} :
    sortProposalsByVotes b a = false ↔
      b.2 < a.2 ∨ b.2 = a.2 ∧ b.1.nFeeTXHash ≤ a.1.nFeeTXHash := lexicographic_eq_false

theorem lexicographic_total (x y : Int) (m n : Nat) :
    (y < x ∨ y = x ∧ n ≤ m) ∨ (x < y ∨ x = y ∧ m ≤ n) := by omega

theorem lexicographic_trans {x y z : Int} {l m n : Nat} (hab : y < x ∨ y = x ∧ m ≤ l)
    (hbc : z < y ∨ z = y ∧ n ≤ m) : z < x ∨ z = x ∧ n ≤ l := by omega

/-- The sort that leaves what compares equal in order. -/
def votesInOrder : Sorter sortProposalsByVotes where
  sort l := l.insertionSort fun a b => sortProposalsByVotes b a = false
  perm l := l.perm_insertionSort _
  sorted l :=
    have : Std.Total fun a b : CBudgetProposal × Int => sortProposalsByVotes b a = false :=
      ⟨fun a b => by
        rw [sortProposalsByVotes_eq_false, sortProposalsByVotes_eq_false]
        exact lexicographic_total _ _ _ _⟩
    have : IsTrans (CBudgetProposal × Int) fun a b => sortProposalsByVotes b a = false :=
      ⟨fun a b c hab hbc => by
        rw [sortProposalsByVotes_eq_false] at hab hbc ⊢
        exact lexicographic_trans hab hbc⟩
    l.pairwise_insertionSort _

def allotEnv : BudgetEnv where
  fActive := true
  fSynced := true
  nNow := 1000000
  find _ := some []
  verifyMessage _ _ _ := true
  P := mainParams
  kind := CBudgetVote.kind ⟨fun _ _ _ _ => 0, fun _ _ _ => 0, fun _ => 0⟩
  getHash _ := 0
  nCountEnabled := 0
  view := CFinalizedBudgetBroadcast.feePaid

def yes (n : Nat) : CBudgetVote × Bool := (⟨⟨⟨n, 0⟩, [], 0⟩, 7, 1, 1000, []⟩, true)

def refund : CBudgetProposal where
  nBlockStart := 0
  nBlockEnd := 1000000
  nAmount := -10000000000
  address := [1]
  nTime := 0
  nFeeTXHash := 2
  mapVotes := [yes 1, yes 2]
  nAmount_range := by omega

def expense : CBudgetProposal where
  nBlockStart := 0
  nBlockEnd := 1000000
  nAmount := 10000000000
  address := [2]
  nTime := 0
  nFeeTXHash := 3
  mapVotes := [yes 1]
  nAmount_range := by omega

theorem refund_funds_expense :
    (allotEnv.getBudget votesInOrder [refund, expense]).map CBudgetProposal.nAlloted =
      [-10000000000, 10000000000] ∧ ¬ allotEnv.AllotsSoundly votesInOrder [refund, expense] := by
  have hallotted : (allotEnv.getBudget votesInOrder [refund, expense]).map
      CBudgetProposal.nAlloted = [-10000000000, 10000000000] := rfl
  refine ⟨hallotted, fun h => ?_⟩
  have hmem : (-10000000000 : Int) ∈ (allotEnv.getBudget votesInOrder [refund, expense]).map
      CBudgetProposal.nAlloted := by
    rw [hallotted]
    exact List.mem_cons_self
  obtain ⟨p, hp, hneg⟩ := List.mem_map.mp hmem
  have hsound : allotEnv.Sound 43200 (allotEnv.considered votesInOrder [refund, expense]) := h
  have hnonneg := hsound.nonneg p hp
  omega

end BitBlocks
