import Mathlib.Data.Rat.Floor
import Mathlib.Data.Int.Log
import BitBlocks.Lib.Best
import BitBlocks.Lib.Ranking
import BitBlocks.Masternode.Score
import BitBlocks.Masternode.Unique
import BitBlocks.Payments.Template
import BitBlocks.Payments.Winners

/-!
# The queue for payment

`GetNextMasternodeInQueueForPayment` (`masternodeman.cpp`) sorts the masternodes that may
be paid by the time since their last payment, and takes the one with the best score of the
first tenth of the network. A score has to be above zero, and zero is what `CalculateScore`
answers when there is no block to make a score of.
-/

namespace BitBlocks

open Ranking

/-- The `double` nearest to a number, of two the even one. The exponents do not run out. -/
def toDouble (q : ℚ) : ℚ :=
  if q = 0 then 0
  else
    let unit : ℚ := 2 ^ (Int.log 2 |q| - 52)
    let n := ⌊q / unit⌋
    let rest := q / unit - n
    if rest < 1 / 2 ∨ rest = 1 / 2 ∧ n % 2 = 0 then n * unit else (n + 1) * unit

/-- What the queue reads of the rest of the node, which stays the same meanwhile. -/
structure QueueEnv where
  text : MasternodeText
  scores : ScoreText
  /-- The active chain, and the hashes that were found. -/
  hashes : BlockHashes
  payments : CMasternodePayments
  /-- `CHashWriter` on `vin` and `sigTime`. -/
  entryHash : CTxIn → Int → Uint256
  /-- `GetAdjustedTime()`. -/
  nAdjustedTime : Int
  /-- `masternodePayments.GetMinMasternodePaymentsProto()`. -/
  nMinProtocol : Int
  /-- The node at the `Check` of each entry. -/
  check : CTxIn → CheckEnv
  /-- `IsScheduled` could lock `cs_main`. -/
  fLockMain : Bool
  /-- `GetInputAge`. -/
  getInputAge : CTxIn → Int
  /-- `cacheInputAge` and `cacheInputAgeBlock` of an entry. -/
  cacheInputAge : CTxIn → Int × Int

namespace QueueEnv

variable (env : QueueEnv)

/-- `chainActive`, from the tip. -/
def blocks : List CBlockIndex := env.hashes.chain.blocks

/-- The script a masternode is paid to. -/
def mnpayee (mn : CMasternode) : CScript := env.text.scriptForKey mn.pubKeyCollateralAddress

/-- `CMasternodeBlockPayees::HasPayeeWithVotes`. -/
def hasPayeeWithVotes (vecPayments : List CMasternodePayee) (payee : CScript) (nVotesReq : Int) :
    Bool :=
  vecPayments.any fun p => decide (p.nVotes ≥ nVotesReq) && p.scriptPubKey == payee

/-- `CMasternodePayments::IsScheduled`. -/
def isScheduled (mn : CMasternode) (nNotBlockHeight : Int) : Bool :=
  match env.fLockMain, env.blocks with
  | false, _ => false
  | true, [] => false
  | true, tip :: _ =>
    (List.range 9).any fun i =>
      decide (tip.nHeight + i ≠ nNotBlockHeight) &&
        ((env.payments.mapMasternodeBlocks.lookup (tip.nHeight + i)).bind getPayee ==
          some (env.mnpayee mn))

/-- The loop of `GetLastPaid`, from the block it reads. -/
def lastPaidLoop (mnpayee : CScript) (nMnCount nOffset : Int) : Int → List CBlockIndex → Int
  | _, [] => 0
  | n, blockReading :: pprev =>
    if blockReading.nHeight > 0 then
      if n ≥ nMnCount then 0
      -- at least 2 votes
      else if (env.payments.mapMasternodeBlocks.lookup blockReading.nHeight).any
          (hasPayeeWithVotes · mnpayee 2) then blockReading.nTime + nOffset
      else lastPaidLoop mnpayee nMnCount nOffset (n + 1) pprev
    else 0

/-- `GetLastPaid`, with the count of enabled masternodes. -/
def getLastPaid (nEnabled : Nat) (mn : CMasternode) : Int :=
  -- a deterministic offset to break a tie
  let nOffset : Int := (getCompact (env.entryHash mn.vin mn.sigTime) false % 150 : Nat)
  env.lastPaidLoop (env.mnpayee mn) (5 * nEnabled / 4 : Nat) nOffset 0 env.blocks

/-- `SecondsSincePayment`. -/
def secondsSincePayment (nEnabled : Nat) (mn : CMasternode) : Int :=
  let sec := env.nAdjustedTime - env.getLastPaid nEnabled mn
  let month := 60 * 60 * 24 * 30
  if sec < month then sec
  else month + (getCompact (env.entryHash mn.vin mn.sigTime) false : Nat)

/-- `GetMasternodeInputAge`. What is kept in the cache is what would be found again. -/
def getMasternodeInputAge (mn : CMasternode) : Int :=
  match env.blocks with
  | [] => 0
  | tip :: _ =>
    let (cacheInputAge, cacheInputAgeBlock) :=
      if (env.cacheInputAge mn.vin).1 = 0 then (env.getInputAge mn.vin, tip.nHeight)
      else env.cacheInputAge mn.vin
    cacheInputAge + (tip.nHeight - cacheInputAgeBlock)

/-- It's too new, wait for a cycle. The sum is made of `double`s. -/
def isTooNew (nMnCount : Nat) (mn : CMasternode) : Bool :=
  let cycle := toDouble (toDouble (nMnCount * toDouble (26 / 10)) * 60)
  decide (toDouble (toDouble mn.sigTime + cycle) > toDouble env.nAdjustedTime)

end QueueEnv

namespace CMasternodeMan

/-- The time since the last payment, and the input. -/
abbrev LastPaidRow := Int × CTxIn

variable (S : Sorting (Prod.fst : LastPaidRow → Int)) (env : QueueEnv) (nBlockHeight : Int)

/-- `CountEnabled`. -/
def countEnabled (man : CMasternodeMan) : CMasternodeMan × Nat :=
  let man := man.check env.check
  (man, (man.vMasternodes.filter fun mn =>
    !(decide (mn.protocolVersion < env.nMinProtocol) || !mn.isEnabled)).length)

/-- One round of the loop that makes `vecMasternodeLastPaid`. -/
def queueEntry (fFilterSigTime : Bool) (nMnCount : Nat) (mn : CMasternode) : Option LastPaidRow :=
  let mn := mn.check (env.check mn.vin)
  if !mn.isEnabled then none
  else if mn.protocolVersion < env.nMinProtocol then none
  else if env.isScheduled mn nBlockHeight then none
  else if fFilterSigTime && env.isTooNew nMnCount mn then none
  else if env.getMasternodeInputAge mn < nMnCount then none
  else some (env.secondsSincePayment nMnCount mn, mn.vin)

/-- `CalculateScore` of an entry of the queue. -/
def queueScore (mn : CMasternode) : Uint256 :=
  mn.calculateScore env.scores env.hashes (nBlockHeight - 100)

def payLoop (man : CMasternodeMan) (nTenthNetwork : Nat) :
    Nat → Uint256 → Option CMasternode → List LastPaidRow → Option CMasternode
  | _, _, pBestMasternode, [] => pBestMasternode
  | nCountTenth, nHigh, pBestMasternode, s :: rows =>
    match man.find s.2 with
    | none => pBestMasternode
    | some pmn =>
      let n := queueScore env nBlockHeight pmn
      let (nHigh, pBestMasternode) :=
        if n > nHigh then (n, some pmn) else (nHigh, pBestMasternode)
      if nCountTenth + 1 ≥ nTenthNetwork then pBestMasternode
      else payLoop man nTenthNetwork (nCountTenth + 1) nHigh pBestMasternode rows

/-- The list after the checks, the masternode to pay, and `nCount`. -/
def getNextMasternodeInQueueForPayment (man : CMasternodeMan) (fFilterSigTime : Bool) :
    CMasternodeMan × Option CMasternode × Nat :=
  let (man, nMnCount) := man.countEnabled env
  let vecMasternodeLastPaid :=
    man.vMasternodes.filterMap (queueEntry env nBlockHeight fFilterSigTime nMnCount)
  let nCount := vecMasternodeLastPaid.length
  -- when the network is in the process of upgrading, don't penalize nodes that recently restarted
  if _h : fFilterSigTime = true ∧ nCount < nMnCount / 3 then
    getNextMasternodeInQueueForPayment man false
  else
    let nTenthNetwork := (man.countEnabled env).2 / 10
    (man, payLoop env nBlockHeight man nTenthNetwork 0 0 none (S.sort vecMasternodeLastPaid),
      nCount)
termination_by fFilterSigTime.toNat
decreasing_by
  rw [_h.1]
  exact Nat.zero_lt_one

/-! ## Who is to be paid -/

/-- Enabled, of a current protocol, not scheduled, old enough if that is asked, and deep enough. -/
def mayBePaid (fFilterSigTime : Bool) (nMnCount : Nat) (mn : CMasternode) : Bool :=
  mn.isEnabled && decide (env.nMinProtocol ≤ mn.protocolVersion) &&
    !env.isScheduled mn nBlockHeight && !(fFilterSigTime && env.isTooNew nMnCount mn) &&
    decide ((nMnCount : Int) ≤ env.getMasternodeInputAge mn)

variable (man : CMasternodeMan) (fFilterSigTime : Bool)

/-- The number of enabled masternodes. -/
def nEnabled : Nat := (man.countEnabled env).2

def eligibleWith : List CMasternode := (man.check env.check).vMasternodes.filter
    (mayBePaid env nBlockHeight fFilterSigTime (man.nEnabled env))

/-- The age filter is in force. It is dropped where it leaves less than a third of the network. -/
def filters : Bool := fFilterSigTime &&
    !decide ((man.eligibleWith env nBlockHeight true).length < man.nEnabled env / 3)

def eligible : List CMasternode :=
  man.eligibleWith env nBlockHeight (man.filters env nBlockHeight fFilterSigTime)

def nLookedAt : Nat := max 1 (man.nEnabled env / 10)

def lastPaidRow (mn : CMasternode) : LastPaidRow :=
  (env.secondsSincePayment (man.nEnabled env) mn, mn.vin)

/-- Those with the longest time since their last payment, as they were sorted. -/
def lookedAt : List CMasternode :=
  ((S.sort ((man.eligible env nBlockHeight fFilterSigTime).map (man.lastPaidRow env))).take
    (man.nLookedAt env)).filterMap fun s => (man.check env.check).find s.2

def toPay : Option CMasternode :=
  (man.getNextMasternodeInQueueForPayment S env nBlockHeight fFilterSigTime).2.1

/--
A masternode is paid just if one may be, and it has the best score of as many as are looked
at, none of the others having waited for longer.
-/
structure PaysFairly : Prop where
  paid : (man.toPay S env nBlockHeight fFilterSigTime).isSome = true ↔
    ∃ mn, mn ∈ man.eligible env nBlockHeight fFilterSigTime
  best : ∀ mn, man.toPay S env nBlockHeight fFilterSigTime = some mn →
    ∃ oldest rest : List CMasternode,
    (oldest ++ rest).Perm (man.eligible env nBlockHeight fFilterSigTime) ∧
      oldest.length =
        min (man.nLookedAt env) (man.eligible env nBlockHeight fFilterSigTime).length ∧
      (∀ mn' ∈ oldest, ∀ mn'' ∈ rest, env.secondsSincePayment (man.nEnabled env) mn'' ≤
        env.secondsSincePayment (man.nEnabled env) mn') ∧
      mn ∈ oldest ∧
      ∀ mn' ∈ oldest, queueScore env nBlockHeight mn' ≤ queueScore env nBlockHeight mn

variable {S env nBlockHeight man fFilterSigTime}

/-! ## One check is enough -/

theorem check_check_eq (env : CTxIn → CheckEnv) (man : CMasternodeMan) :
    (man.check env).check env = man.check env := by
  unfold check
  dsimp only
  rw [List.map_map]
  congr 1
  refine List.map_congr_left ?_
  intro mn _
  rw [Function.comp_apply, CMasternode.check_vin, CMasternode.check_check]

theorem countEnabled_check : (man.check env.check).countEnabled env = man.countEnabled env := by
  unfold countEnabled
  rw [check_check_eq]

theorem nEnabled_check : (man.check env.check).nEnabled env = man.nEnabled env := by
  unfold nEnabled
  rw [countEnabled_check]

variable {mn : CMasternode}

theorem check_of_mem (h : mn ∈ (man.check env.check).vMasternodes) :
    mn.check (env.check mn.vin) = mn := by
  obtain ⟨mn', -, rfl⟩ := List.mem_map.mp h
  rw [CMasternode.check_vin, CMasternode.check_check]

/-! ## The rows -/

theorem queueEntry_eq (h : mn.check (env.check mn.vin) = mn) (nMnCount : Nat) :
    queueEntry env nBlockHeight fFilterSigTime nMnCount mn =
      if mayBePaid env nBlockHeight fFilterSigTime nMnCount mn then
        some (env.secondsSincePayment nMnCount mn, mn.vin)
      else none := by
  unfold queueEntry mayBePaid
  rw [h]
  dsimp only
  have hproto : decide (env.nMinProtocol ≤ mn.protocolVersion) =
      !decide (mn.protocolVersion < env.nMinProtocol) := by
    rw [← decide_not]
    exact decide_eq_decide.mpr not_lt.symm
  have hage : decide ((nMnCount : Int) ≤ env.getMasternodeInputAge mn) =
      !decide (env.getMasternodeInputAge mn < (nMnCount : Int)) := by
    rw [← decide_not]
    exact decide_eq_decide.mpr not_lt.symm
  rw [hproto, hage]
  cases mn.isEnabled with
  | false => rfl
  | true =>
    by_cases hold : mn.protocolVersion < env.nMinProtocol
    · simp [hold]
    · cases hscheduled : env.isScheduled mn nBlockHeight with
      | true => simp [hold]
      | false =>
        cases hnew : fFilterSigTime && env.isTooNew nMnCount mn with
        | true => simp [hold]
        | false =>
          by_cases hyoung : env.getMasternodeInputAge mn < (nMnCount : Int)
          · simp [hold, hyoung]
          · simp [hold, hyoung]

theorem filterMap_queueEntry : (man.check env.check).vMasternodes.filterMap
        (queueEntry env nBlockHeight fFilterSigTime (man.nEnabled env)) =
      (man.eligibleWith env nBlockHeight fFilterSigTime).map (man.lastPaidRow env) := by
  unfold eligibleWith
  rw [← List.filterMap_eq_map, List.filterMap_filter]
  refine List.filterMap_congr ?_
  intro mn hmn
  rw [queueEntry_eq (check_of_mem hmn)]
  rfl

theorem eligibleWith_check : (man.check env.check).eligibleWith env nBlockHeight fFilterSigTime =
    man.eligibleWith env nBlockHeight fFilterSigTime := by
  unfold eligibleWith
  rw [check_check_eq, nEnabled_check]

theorem lastPaidRow_check : (man.check env.check).lastPaidRow env = man.lastPaidRow env := by
  unfold lastPaidRow
  rw [nEnabled_check]

/-! ## The loop over the sorted rows -/

theorem toPay_of_enough (h : ¬ (fFilterSigTime = true ∧
      (man.eligibleWith env nBlockHeight fFilterSigTime).length < man.nEnabled env / 3)) :
    man.toPay S env nBlockHeight fFilterSigTime =
      payLoop env nBlockHeight (man.check env.check) (man.nEnabled env / 10) 0 0 none
        (S.sort ((man.eligibleWith env nBlockHeight fFilterSigTime).map
          (man.lastPaidRow env))) := by
  have hcount : man.countEnabled env = (man.check env.check, man.nEnabled env) := rfl
  unfold toPay
  rw [getNextMasternodeInQueueForPayment, hcount]
  dsimp only
  rw [filterMap_queueEntry, List.length_map, dif_neg h, countEnabled_check]
  rfl

theorem toPay_of_few (h : (man.eligibleWith env nBlockHeight true).length < man.nEnabled env / 3) :
    man.toPay S env nBlockHeight true = (man.check env.check).toPay S env nBlockHeight false := by
  have hcount : man.countEnabled env = (man.check env.check, man.nEnabled env) := rfl
  unfold toPay
  rw [getNextMasternodeInQueueForPayment, hcount]
  dsimp only
  rw [filterMap_queueEntry, List.length_map, dif_pos ⟨rfl, h⟩]

theorem toPay_eq : man.toPay S env nBlockHeight fFilterSigTime =
    payLoop env nBlockHeight (man.check env.check) (man.nEnabled env / 10) 0 0 none
      (S.sort ((man.eligible env nBlockHeight fFilterSigTime).map (man.lastPaidRow env))) := by
  unfold eligible filters
  cases fFilterSigTime with
  | false => exact toPay_of_enough (by simp)
  | true =>
    rw [Bool.true_and]
    by_cases hfew : (man.eligibleWith env nBlockHeight true).length < man.nEnabled env / 3
    · rw [toPay_of_few hfew, toPay_of_enough (by simp), check_check_eq, nEnabled_check,
        eligibleWith_check, lastPaidRow_check, decide_eq_true hfew]
      rfl
    · rw [decide_eq_false hfew]
      exact toPay_of_enough (fun h => hfew h.2)

/-- The loop, over masternodes that are all found, is a search for the best of the first. -/
theorem payLoop_eq {row : CMasternode → LastPaidRow} {found : List CMasternode}
    (hfound : ∀ mn ∈ found, man.find (row mn).2 = some mn) (nTenthNetwork nCountTenth : Nat)
    (nHigh : Uint256) (pBestMasternode : Option CMasternode) :
    payLoop env nBlockHeight man nTenthNetwork nCountTenth nHigh pBestMasternode (found.map row) =
      (Best.search (fun _ => true) (fun mn => (queueScore env nBlockHeight mn : Int)) some
        (found.take (max 1 (nTenthNetwork - nCountTenth))) ((nHigh : Int), pBestMasternode)).2 := by
  induction found generalizing nCountTenth nHigh pBestMasternode with
  | nil => simp [payLoop, Best.search]
  | cons mn found ih =>
    have hstep : ∀ (l : List CMasternode) (best : Int × Option CMasternode),
        Best.search (fun _ => true) (fun mn => (queueScore env nBlockHeight mn : Int)) some
          (mn :: l) best =
        Best.search (fun _ => true) (fun mn => (queueScore env nBlockHeight mn : Int)) some l
          (Best.round (fun _ => true) (fun mn => (queueScore env nBlockHeight mn : Int)) some
            best mn) := fun _ _ => rfl
    have hround : Best.round (fun _ => true) (fun mn => (queueScore env nBlockHeight mn : Int)) some
          ((nHigh : Int), pBestMasternode) mn =
        (((if queueScore env nBlockHeight mn > nHigh then
            (queueScore env nBlockHeight mn, some mn) else (nHigh, pBestMasternode)).1 : Int),
          (if queueScore env nBlockHeight mn > nHigh then
            (queueScore env nBlockHeight mn, some mn) else (nHigh, pBestMasternode)).2) := by
      unfold Best.round
      by_cases hbetter : queueScore env nBlockHeight mn > nHigh
      · simp [hbetter]
      · simp [hbetter]
    have hsize : max 1 (nTenthNetwork - nCountTenth) =
        max 1 (nTenthNetwork - nCountTenth) - 1 + 1 := by omega
    rw [List.map_cons]
    unfold payLoop
    rw [hfound mn List.mem_cons_self, hsize, List.take_succ_cons, hstep, hround]
    dsimp only
    by_cases hlast : nCountTenth + 1 ≥ nTenthNetwork
    · have hone : max 1 (nTenthNetwork - nCountTenth) - 1 = 0 := by omega
      rw [if_pos hlast, hone]
      rfl
    · have hmore : max 1 (nTenthNetwork - nCountTenth) - 1 =
          max 1 (nTenthNetwork - (nCountTenth + 1)) := by omega
      rw [if_neg hlast, ih (fun mn' h => hfound mn' (List.mem_cons_of_mem _ h)), hmore]

/-! ## The best of those that are looked at -/

theorem find_of_mem (h : man.Unique) (hmn : mn ∈ man.vMasternodes) :
    man.find mn.vin = some mn := Rows.first_of_mem h hmn

theorem Unique.check (h : man.Unique) (env : CTxIn → CheckEnv) : (man.check env).Unique :=
  h.congr (check_vins man env)

theorem eligible_subset (h : mn ∈ man.eligible env nBlockHeight fFilterSigTime) :
    mn ∈ (man.check env.check).vMasternodes := (List.mem_filter.mp h).1

theorem lookedAt_eq (h : man.Unique) : ∃ found : List CMasternode,
    found.Perm (man.eligible env nBlockHeight fFilterSigTime) ∧
      S.sort ((man.eligible env nBlockHeight fFilterSigTime).map (man.lastPaidRow env)) =
        found.map (man.lastPaidRow env) ∧
      man.lookedAt S env nBlockHeight fFilterSigTime = found.take (man.nLookedAt env) := by
  have hfind : ∀ mn ∈ man.eligible env nBlockHeight fFilterSigTime,
      (man.check env.check).find (man.lastPaidRow env mn).2 = some mn :=
    fun mn hmn => find_of_mem (h.check env.check) (eligible_subset hmn)
  obtain ⟨hperm, hsorted⟩ := @exists_sort_map _ _ _ S (man.lastPaidRow env)
    (fun s => (man.check env.check).find s.2) _ hfind
  refine ⟨_, hperm, hsorted.symm, ?_⟩
  have hfound : ∀ mn ∈ ((S.sort ((man.eligible env nBlockHeight fFilterSigTime).map
        (man.lastPaidRow env))).filterMap fun s => (man.check env.check).find s.2).take
          (man.nLookedAt env),
      ((fun s : LastPaidRow => (man.check env.check).find s.2) ∘ man.lastPaidRow env) mn =
        some mn :=
    fun mn hmn => hfind mn (hperm.mem_iff.mp (List.mem_of_mem_take hmn))
  unfold lookedAt
  nth_rewrite 1 [← hsorted]
  rw [← List.map_take, List.filterMap_map, List.filterMap_congr hfound, List.filterMap_some]

/--
**The masternode that is paid** is the best of those that are looked at, if one of them has
a score above zero.
-/
theorem toPay_search (h : man.Unique) : man.toPay S env nBlockHeight fFilterSigTime =
    (Best.search (fun _ => true) (fun mn => (queueScore env nBlockHeight mn : Int)) some
      (man.lookedAt S env nBlockHeight fFilterSigTime) (0, none)).2 := by
  obtain ⟨found, hperm, hsorted, hlooked⟩ := lookedAt_eq (S := S) h
  have hfound : ∀ mn ∈ found, (man.check env.check).find (man.lastPaidRow env mn).2 = some mn := by
    intro mn hmn
    exact find_of_mem (h.check env.check) (eligible_subset (hperm.mem_iff.mp hmn))
  rw [toPay_eq, hsorted, payLoop_eq hfound, hlooked]
  rfl

theorem lookedAt_subset (h : man.Unique)
    (hmn : mn ∈ man.lookedAt S env nBlockHeight fFilterSigTime) :
    mn ∈ man.eligible env nBlockHeight fFilterSigTime := by
  obtain ⟨found, hperm, -, hlooked⟩ := lookedAt_eq (S := S) h
  rw [hlooked] at hmn
  exact hperm.mem_iff.mp (List.mem_of_mem_take hmn)

/-- **Those that are looked at** are as many as they should be, and no other waited for longer. -/
theorem exists_oldest (h : man.Unique) : ∃ rest : List CMasternode,
    (man.lookedAt S env nBlockHeight fFilterSigTime ++ rest).Perm
        (man.eligible env nBlockHeight fFilterSigTime) ∧
      (man.lookedAt S env nBlockHeight fFilterSigTime).length =
        min (man.nLookedAt env) (man.eligible env nBlockHeight fFilterSigTime).length ∧
      ∀ mn ∈ man.lookedAt S env nBlockHeight fFilterSigTime, ∀ mn' ∈ rest,
        env.secondsSincePayment (man.nEnabled env) mn' ≤
          env.secondsSincePayment (man.nEnabled env) mn := by
  obtain ⟨found, hperm, hrows, hlooked⟩ := lookedAt_eq (S := S) h
  have hsorted : found.Pairwise fun a b => env.secondsSincePayment (man.nEnabled env) b ≤
      env.secondsSincePayment (man.nEnabled env) a := by
    have hpairs := S.sorted
      ((man.eligible env nBlockHeight fFilterSigTime).map (man.lastPaidRow env))
    rw [hrows, List.pairwise_map] at hpairs
    exact hpairs
  rw [hlooked]
  refine ⟨found.drop (man.nLookedAt env), ?_, ?_, ?_⟩
  · rw [List.take_append_drop]
    exact hperm
  · rw [List.length_take, hperm.length_eq]
  · rw [← List.take_append_drop (man.nLookedAt env) found, List.pairwise_append] at hsorted
    exact hsorted.2.2

/--
**The queue for payment** pays whom it should just if nobody may be paid, or one of those
that are looked at has a score above zero.
-/
theorem paysFairly_iff (S : Sorting (Prod.fst : LastPaidRow → Int)) (env : QueueEnv)
    (nBlockHeight : Int) (fFilterSigTime : Bool) {man : CMasternodeMan} (h : man.Unique) :
    man.PaysFairly S env nBlockHeight fFilterSigTime ↔
      (∀ mn, mn ∉ man.eligible env nBlockHeight fFilterSigTime) ∨
        ∃ mn ∈ man.lookedAt S env nBlockHeight fFilterSigTime,
        queueScore env nBlockHeight mn ≠ 0 := by
  have hsearch : man.toPay S env nBlockHeight fFilterSigTime =
      (Best.search (fun _ => true) (fun mn => (queueScore env nBlockHeight mn : Int)) some
        (man.lookedAt S env nBlockHeight fFilterSigTime) (0, none)).2 := toPay_search h
  constructor
  · intro hfair
    by_contra hnone
    obtain ⟨hsome, hzero⟩ := not_or.mp hnone
    rw [not_forall_not] at hsome
    have hpaid := hfair.paid.mpr hsome
    rw [hsearch] at hpaid
    rcases Best.search_eq_or_lt (fun _ => true)
        (fun mn => (queueScore env nBlockHeight mn : Int)) some
        (man.lookedAt S env nBlockHeight fFilterSigTime) (0, none) with hkept | hbeaten
    · rw [hkept] at hpaid
      exact absurd hpaid (by simp)
    · obtain ⟨mn, hmn, -, hbest⟩ := Best.exists_of_lt_search _ _ _ hbeaten
      rw [hbest] at hbeaten
      refine hzero ⟨mn, hmn, ?_⟩
      exact (Int.natCast_pos.mp hbeaten).ne'
  · rintro (hnone | ⟨mn, hmn, hscore⟩)
    · have hempty : man.lookedAt S env nBlockHeight fFilterSigTime = [] :=
        List.eq_nil_iff_forall_not_mem.mpr fun mn hmn => hnone mn (lookedAt_subset h hmn)
      rw [hempty] at hsearch
      have hnobody : man.toPay S env nBlockHeight fFilterSigTime = none := hsearch
      refine ⟨?_, ?_⟩
      · rw [hnobody]
        exact ⟨fun hpaid => absurd hpaid (by simp), fun ⟨mn, hmn⟩ => absurd hmn (hnone mn)⟩
      · intro mn hmn
        rw [hnobody] at hmn
        exact absurd hmn (by simp)
    · have hle := Best.score_le_search (fun _ => true)
        (fun mn => (queueScore env nBlockHeight mn : Int)) some hmn rfl (0, none)
      have hpos : (0 : Int) < queueScore env nBlockHeight mn := by
        exact Int.natCast_pos.mpr (Nat.pos_of_ne_zero hscore)
      obtain ⟨best, hbest, -, hfound⟩ := Best.exists_of_lt_search _ _ _ (lt_of_lt_of_le hpos hle)
      rw [hfound] at hsearch
      have hpays : man.toPay S env nBlockHeight fFilterSigTime = some best := hsearch
      refine ⟨?_, ?_⟩
      · rw [hpays]
        exact ⟨fun _ => ⟨best, lookedAt_subset h hbest⟩, fun _ => rfl⟩
      · intro mn' hmn'
        rw [hpays] at hmn'
        obtain rfl := Option.some.inj hmn'
        obtain ⟨rest, hperm, hlength, htimes⟩ := exists_oldest (S := S) h
        refine ⟨_, rest, hperm, hlength, htimes, hbest, ?_⟩
        intro mn'' hmn''
        have hle' := Best.score_le_search (fun _ => true)
          (fun mn => (queueScore env nBlockHeight mn : Int)) some hmn'' rfl (0, none)
        rw [hfound] at hle'
        exact Int.ofNat_le.mp hle'

def sampleQueueEnv : QueueEnv where
  text := sampleText
  scores := ⟨fun x => x, fun x y => x + y + 1⟩
  hashes := { chain := BlockHashes.sampleChain 101 102 }
  payments := {}
  entryHash _ sigTime := sigTime.toNat
  nAdjustedTime := 10000
  nMinProtocol := 70000
  check _ := { nAdjustedTime := 10000, acceptableInputs := fun _ => true }
  fLockMain := true
  getInputAge _ := 20
  cacheInputAge _ := (0, 0)

def sampleQueued : CMasternode where
  vin := sampleVin
  addr := ⟨[1, 2, 3, 4], 58697⟩
  pubKeyCollateralAddress := [7]
  pubKeyMasternode := [8]
  sig := [1]
  sigTime := 9000
  protocolVersion := 70000
  lastPing := ⟨sampleVin, 101, 9500, [1]⟩

def sampleQueue : CMasternodeMan where
  vMasternodes := [sampleQueued]

theorem unique_sampleQueue : sampleQueue.Unique := List.nodup_singleton _

def queuedAt (n : Nat) : CMasternode :=
  { sampleQueued with
    vin := ⟨⟨5 + n, 0⟩, [], 2 ^ 32 - 1⟩
    pubKeyCollateralAddress := [7, UInt8.ofNat n] }

def sampleNetwork : CMasternodeMan where
  vMasternodes := (List.range 20).map queuedAt

/-- The votes for the block that pays a masternode. -/
def votesFor (mn : CMasternode) : List CMasternodePayee := [⟨sampleQueueEnv.mnpayee mn, 2⟩]

/-- The first was paid at the height one, the second is scheduled, and the third is not deep
enough. -/
def sampleNetworkEnv : QueueEnv :=
  { sampleQueueEnv with
    payments.mapMasternodeBlocks :=
      AList.insert 1 (votesFor (queuedAt 0)) (AList.insert 2 (votesFor (queuedAt 1)) ∅)
    getInputAge := fun vin => if vin.prevout.hash = 7 then 3 else 20 }

theorem unique_sampleNetwork : sampleNetwork.Unique := by
  unfold Unique
  decide

/-- All are too new, so the age is not looked at; of the two looked at the better one is paid. -/
theorem paysFairly_twenty : sampleNetwork.PaysFairly (inOrder _) sampleNetworkEnv 102 true ∧
    sampleNetwork.toPay (inOrder _) sampleNetworkEnv 102 true = some (queuedAt 4) := by
  constructor
  · refine (paysFairly_iff (inOrder _) sampleNetworkEnv 102 true unique_sampleNetwork).mpr ?_
    exact Or.inr ⟨queuedAt 4, by decide +kernel, by decide⟩
  · rw [toPay_search unique_sampleNetwork]
    decide +kernel

/-- For the height 101 there is no block to make a score of: genesis is not read. -/
theorem queue_pays_nobody : ¬ sampleQueue.PaysFairly (inOrder _) sampleQueueEnv 101 false := by
  intro hfair
  have hpaid := hfair.paid.mpr ⟨sampleQueued, by decide⟩
  rw [toPay_search unique_sampleQueue] at hpaid
  exact absurd hpaid (by decide)

end CMasternodeMan

end BitBlocks
