import BitBlocks.Payments.Winners

/-!
# Payee tallies

`mapMasternodeBlocks` counts, for each height, the votes of each payee that
`mapMasternodePayeeVotes` stores. The counts are raised vote by vote and dropped height by
height, while `CleanPaymentList` walks the votes: halfway through its loop a height may have
votes left and no counts. Whether a vote is erased depends on its height alone, so by the end
of the loop a height has kept all of its votes or none, and the counts agree again.
-/

namespace BitBlocks

open Table

namespace CMasternodePayments

/-! ## Cleaning -/

/-- Up to five cycles are kept: `std::max(int(mnodeman.size() * 1.25), 1000)`. -/
def nLimit (nSize : Nat) : Int := max ((5 * nSize / 4 : Nat) : Int) 1000

/-- The test of the cleaning loop, on the height of a vote. -/
def isOld (nHeight : Int) (nSize : Nat) (nBlockHeight : Int) : Bool :=
  decide (nHeight - nBlockHeight > nLimit nSize)

def cleanVote (nHeight : Int) (nSize : Nat) (payments : CMasternodePayments)
    (x : Sigma fun _ : Uint256 => CMasternodePaymentWinner) : CMasternodePayments :=
  if isOld nHeight nSize x.2.nBlockHeight then
    { payments with
      mapMasternodePayeeVotes := payments.mapMasternodePayeeVotes.erase x.1
      mapMasternodeBlocks := payments.mapMasternodeBlocks.erase x.2.nBlockHeight }
  else payments

/--
`nHeight` is the height of the tip, if there is one and `cs_main` could be locked;
`nSize` is `mnodeman.size()`.
-/
def cleanPaymentList (payments : CMasternodePayments) (nHeight : Option Int) (nSize : Nat) :
    CMasternodePayments :=
  match nHeight with
  | none => payments
  | some nHeight =>
    payments.mapMasternodePayeeVotes.entries.foldl (cleanVote nHeight nSize) payments

/-- The calls that change the two maps. -/
inductive Call where
  | addWinningMasternode (env : WinnerEnv) (winnerIn : CMasternodePaymentWinner)
  | cleanPaymentList (nHeight : Option Int) (nSize : Nat)

variable (T : WinnerText)

def call (payments : CMasternodePayments) : Call → CMasternodePayments
  | .addWinningMasternode env winnerIn => (payments.addWinningMasternode T env winnerIn).1
  | .cleanPaymentList nHeight nSize => payments.cleanPaymentList nHeight nSize

/-- The maps after a sequence of calls, from the empty ones a node starts with. -/
def afterCalls (calls : List Call) : CMasternodePayments := calls.foldl (call T) {}

/-! ## Counting -/

/-- The votes counted for a payee in `vecPayments`; nothing for one that is not there. -/
def votesOf (payeeIn : CScript) (vecPayments : List CMasternodePayee) : Int :=
  match vecPayments.find? (fun payee => payee.scriptPubKey == payeeIn) with
  | some payee => payee.nVotes
  | none => 0

/-- The vote count of a payee in `mapMasternodeBlocks[nBlockHeight]`. -/
def tally (payments : CMasternodePayments) (nBlockHeight : Int) (payee : CScript) : Int :=
  votesOf payee ((payments.mapMasternodeBlocks.lookup nBlockHeight).getD [])

/-- One for a vote for the height and the payee. -/
def countsFor (nBlockHeight : Int) (payee : CScript) (winner : CMasternodePaymentWinner) : Nat :=
  if winner.nBlockHeight = nBlockHeight ∧ winner.payee = payee then 1 else 0

/-- The number of stored votes for the height and the payee. -/
def storedVotes (payments : CMasternodePayments) (nBlockHeight : Int) (payee : CScript) : Nat :=
  total (countsFor nBlockHeight payee) payments.mapMasternodePayeeVotes

def NoVotesAt (payments : CMasternodePayments) (nBlockHeight : Int) : Prop :=
  ∀ hash winner, payments.mapMasternodePayeeVotes.lookup hash = some winner →
    winner.nBlockHeight ≠ nBlockHeight

/-- The counts are those of the stored votes. -/
structure Tallied (payments : CMasternodePayments) : Prop where
  count : ∀ nBlockHeight payee,
    payments.tally nBlockHeight payee = payments.storedVotes nBlockHeight payee
  cleaned : ∀ nBlockHeight, payments.NoVotesAt nBlockHeight →
    payments.mapMasternodeBlocks.lookup nBlockHeight = none
  /-- No payee is counted twice for a height. -/
  once : ∀ nBlockHeight vecPayments,
    payments.mapMasternodeBlocks.lookup nBlockHeight = some vecPayments →
      (vecPayments.map CMasternodePayee.scriptPubKey).Nodup

variable {T} {payments : CMasternodePayments}

/-! ## Adding a vote -/

theorem votesOf_addPayee (payeeIn payee : CScript) (vecPayments : List CMasternodePayee) :
    votesOf payee (addPayee payeeIn 1 vecPayments) =
      votesOf payee vecPayments + if payeeIn = payee then 1 else 0 := by
  induction vecPayments with
  | nil =>
    by_cases hp : payeeIn = payee <;> simp [votesOf, addPayee, hp]
  | cons first rest ih =>
    unfold votesOf at ih ⊢
    unfold addPayee
    by_cases hin : first.scriptPubKey = payeeIn
    · rw [if_pos hin]
      by_cases hp : payeeIn = payee
      · have hfirst : first.scriptPubKey = payee := hin.trans hp
        simp [hfirst, hp]
      · have hfirst : first.scriptPubKey ≠ payee := fun he => hp (hin.symm.trans he)
        simp [hfirst, hp]
    · rw [if_neg hin]
      by_cases hp : first.scriptPubKey = payee
      · have hne : payeeIn ≠ payee := fun he => hin (hp.trans he.symm)
        simp [hp, hne]
      · rw [List.find?_cons_of_neg (by simpa using hp), List.find?_cons_of_neg (by simpa using hp)]
        exact ih

theorem map_addPayee (payeeIn : CScript) (vecPayments : List CMasternodePayee) :
    (addPayee payeeIn 1 vecPayments).map CMasternodePayee.scriptPubKey =
      if payeeIn ∈ vecPayments.map CMasternodePayee.scriptPubKey then
        vecPayments.map CMasternodePayee.scriptPubKey
      else vecPayments.map CMasternodePayee.scriptPubKey ++ [payeeIn] := by
  induction vecPayments with
  | nil => simp [addPayee]
  | cons first rest ih =>
    unfold addPayee
    by_cases hin : first.scriptPubKey = payeeIn
    · simp [hin]
    · have hne : payeeIn ≠ first.scriptPubKey := fun he => hin he.symm
      rw [if_neg hin, List.map_cons, List.map_cons, ih]
      by_cases hmem : payeeIn ∈ rest.map CMasternodePayee.scriptPubKey
      · rw [if_pos hmem, if_pos (List.mem_cons_of_mem _ hmem)]
      · rw [if_neg hmem, if_neg (by simpa [hne] using hmem), List.cons_append]

variable {vecPayments : List CMasternodePayee} {nHeight nBlockHeight : Int} {nSize : Nat}

theorem nodup_addPayee {payeeIn : CScript}
    (h : (vecPayments.map CMasternodePayee.scriptPubKey).Nodup) :
    ((addPayee payeeIn 1 vecPayments).map CMasternodePayee.scriptPubKey).Nodup := by
  rw [map_addPayee]
  split
  · exact h
  · rename_i hnew
    exact List.nodup_append.mpr ⟨h, List.nodup_singleton _, by
      intro a ha b hb he
      rw [List.mem_singleton.mp hb] at he
      exact hnew (he ▸ ha)⟩

/-- **A vote that is added** is counted once, at its height, for its payee. -/
theorem Tallied.addWinningMasternode (h : payments.Tallied) (env : WinnerEnv)
    (winnerIn : CMasternodePaymentWinner) :
    (payments.addWinningMasternode T env winnerIn).1.Tallied := by
  unfold CMasternodePayments.addWinningMasternode
  split
  · exact h
  · split
    · exact h
    · rename_i hstored
      have hnew : payments.mapMasternodePayeeVotes.lookup (winnerIn.getHash T) = none := by
        simpa using hstored
      constructor
      · intro nBlockHeight payee
        unfold tally storedVotes
        dsimp only
        rw [total_insert_of_new _ hnew, lookup_insert]
        have hcount := h.count nBlockHeight payee
        unfold tally storedVotes at hcount
        by_cases hheight : nBlockHeight = winnerIn.nBlockHeight
        · subst hheight
          rw [if_pos rfl, Option.getD_some, votesOf_addPayee, hcount]
          by_cases hp : winnerIn.payee = payee
          · simp [countsFor, hp, Int.add_comm]
          · simp [countsFor, hp]
        · have hheight' : winnerIn.nBlockHeight ≠ nBlockHeight := fun he => hheight he.symm
          rw [if_neg hheight, hcount]
          simp [countsFor, hheight']
      · intro nBlockHeight hnone
        dsimp only
        rw [lookup_insert]
        have hheight : nBlockHeight ≠ winnerIn.nBlockHeight := by
          intro he
          refine hnone (winnerIn.getHash T) winnerIn ?_ he.symm
          rw [AList.lookup_insert]
        rw [if_neg hheight]
        refine h.cleaned nBlockHeight ?_
        intro hash winner hwinner
        refine hnone hash winner ?_
        dsimp only
        rw [lookup_insert, if_neg ?_]
        · exact hwinner
        · intro he
          rw [he, hnew] at hwinner
          simp at hwinner
      · intro nBlockHeight vecPayments hvec
        dsimp only at hvec
        rw [lookup_insert] at hvec
        split at hvec
        · rw [← Option.some.inj hvec]
          refine nodup_addPayee ?_
          cases hlookup : payments.mapMasternodeBlocks.lookup winnerIn.nBlockHeight with
          | none => simp
          | some vecPayments => exact h.once _ _ hlookup
        · exact h.once _ _ hvec

/-! ## Cleaning old heights -/

/-- The loop over the votes, map by map. -/
theorem foldl_cleanVote (nHeight : Int) (nSize : Nat)
    (l : List (Sigma fun _ : Uint256 => CMasternodePaymentWinner))
    (payments : CMasternodePayments) :
    let old := l.filter (fun x => isOld nHeight nSize x.2.nBlockHeight)
    l.foldl (cleanVote nHeight nSize) payments =
      { payments with
        mapMasternodePayeeVotes := (old.map Sigma.fst).foldl (fun m hash => m.erase hash)
          payments.mapMasternodePayeeVotes
        mapMasternodeBlocks := (old.map (fun x => x.2.nBlockHeight)).foldl (fun m h => m.erase h)
          payments.mapMasternodeBlocks } := by
  induction l generalizing payments with
  | nil => rfl
  | cons x l ih =>
    dsimp only at ih ⊢
    rw [List.foldl_cons, ih]
    unfold cleanVote
    cases hold : isOld nHeight nSize x.2.nBlockHeight with
    | false => rw [List.filter_cons_of_neg (by simp [hold])]; rfl
    | true => rw [List.filter_cons_of_pos (by simp [hold])]; rfl

theorem cleanPaymentList_votes {hash : Uint256} {winner : CMasternodePaymentWinner} :
    (payments.cleanPaymentList (some nHeight) nSize).mapMasternodePayeeVotes.lookup hash =
        some winner ↔
      payments.mapMasternodePayeeVotes.lookup hash = some winner ∧
        isOld nHeight nSize winner.nBlockHeight = false := by
  unfold cleanPaymentList
  dsimp only
  rw [foldl_cleanVote]
  dsimp only
  rw [foldl_erase_eq_some]
  refine and_congr_right fun hlookup => ?_
  constructor
  · intro hnot
    by_contra hold
    refine hnot (List.mem_map.mpr ⟨⟨hash, winner⟩, List.mem_filter.mpr ⟨?_, ?_⟩, rfl⟩)
    · exact AList.mem_lookup_iff.mp hlookup
    · simpa using hold
  · intro hold hmem
    obtain ⟨x, hx, rfl⟩ := List.mem_map.mp hmem
    obtain ⟨hx, hxold⟩ := List.mem_filter.mp hx
    have hsame : x.2 = winner := Option.some.inj ((AList.mem_lookup_iff.mpr hx).symm.trans hlookup)
    rw [hsame, hold] at hxold
    exact Bool.false_ne_true hxold

theorem cleanPaymentList_blocks :
    (payments.cleanPaymentList (some nHeight) nSize).mapMasternodeBlocks.lookup nBlockHeight =
        some vecPayments ↔
      payments.mapMasternodeBlocks.lookup nBlockHeight = some vecPayments ∧
        (isOld nHeight nSize nBlockHeight = true → payments.NoVotesAt nBlockHeight) := by
  unfold cleanPaymentList
  dsimp only
  rw [foldl_cleanVote]
  dsimp only
  rw [foldl_erase_eq_some]
  refine and_congr_right fun _ => ?_
  constructor
  · intro hnot hold hash winner hwinner hheight
    refine hnot (List.mem_map.mpr ⟨⟨hash, winner⟩, List.mem_filter.mpr ⟨?_, ?_⟩, hheight⟩)
    · exact AList.mem_lookup_iff.mp hwinner
    · rw [← hheight] at hold
      exact hold
  · intro hnone hmem
    obtain ⟨x, hx, rfl⟩ := List.mem_map.mp hmem
    obtain ⟨hx, hxold⟩ := List.mem_filter.mp hx
    exact hnone hxold x.1 x.2 (AList.mem_lookup_iff.mpr hx) rfl

theorem noVotesAt_cleanPaymentList (hold : isOld nHeight nSize nBlockHeight = true) :
    (payments.cleanPaymentList (some nHeight) nSize).NoVotesAt nBlockHeight := by
  intro hash winner hwinner hheight
  have hkept := (cleanPaymentList_votes.mp hwinner).2
  rw [hheight, hold] at hkept
  exact Bool.false_ne_true hkept.symm

theorem storedVotes_cleanPaymentList (nHeight : Int) (nSize : Nat) (nBlockHeight : Int)
    (payee : CScript) :
    (payments.cleanPaymentList (some nHeight) nSize).storedVotes nBlockHeight payee =
      if isOld nHeight nSize nBlockHeight then 0 else payments.storedVotes nBlockHeight payee := by
  cases hold : isOld nHeight nSize nBlockHeight with
  | true =>
    rw [if_pos rfl]
    refine total_eq_zero.mpr ?_
    intro hash winner hwinner
    have hne := noVotesAt_cleanPaymentList hold hash winner hwinner
    simp [countsFor, hne]
  | false =>
    rw [if_neg Bool.false_ne_true]
    unfold storedVotes cleanPaymentList
    dsimp only
    rw [foldl_cleanVote]
    refine total_foldl_erase _ ?_
    intro hash hmem winner hwinner
    obtain ⟨x, hx, rfl⟩ := List.mem_map.mp hmem
    obtain ⟨hx, hxold⟩ := List.mem_filter.mp hx
    have hsame : x.2 = winner := Option.some.inj ((AList.mem_lookup_iff.mpr hx).symm.trans hwinner)
    have hne : winner.nBlockHeight ≠ nBlockHeight := by
      intro he
      rw [hsame, he, hold] at hxold
      exact Bool.false_ne_true hxold
    simp [countsFor, hne]

theorem tally_eq_zero_of_none (h : payments.mapMasternodeBlocks.lookup nBlockHeight = none)
    (payee : CScript) : payments.tally nBlockHeight payee = 0 := by
  unfold tally
  rw [h]
  rfl

/-- **The cleaning** drops the counts of a height with its votes. -/
theorem Tallied.cleanPaymentList (h : payments.Tallied) (nHeight : Option Int) (nSize : Nat) :
    (payments.cleanPaymentList nHeight nSize).Tallied := by
  cases nHeight with
  | none => exact h
  | some nHeight =>
    have hgone : ∀ nBlockHeight, isOld nHeight nSize nBlockHeight = true →
        (payments.cleanPaymentList (some nHeight) nSize).mapMasternodeBlocks.lookup
          nBlockHeight = none := by
      intro nBlockHeight hold
      refine Option.eq_none_iff_forall_ne_some.mpr ?_
      intro vecPayments hvec
      obtain ⟨hvec, hnone⟩ := cleanPaymentList_blocks.mp hvec
      rw [h.cleaned nBlockHeight (hnone hold)] at hvec
      simp at hvec
    have hkept : ∀ nBlockHeight, isOld nHeight nSize nBlockHeight = false →
        (payments.cleanPaymentList (some nHeight) nSize).mapMasternodeBlocks.lookup
          nBlockHeight = payments.mapMasternodeBlocks.lookup nBlockHeight := by
      intro nBlockHeight hold
      refine Option.ext fun vecPayments => cleanPaymentList_blocks.trans ?_
      simp [hold]
    constructor
    · intro nBlockHeight payee
      rw [storedVotes_cleanPaymentList]
      cases hold : isOld nHeight nSize nBlockHeight with
      | true =>
        rw [if_pos rfl, tally_eq_zero_of_none (hgone nBlockHeight hold)]
        rfl
      | false =>
        rw [if_neg Bool.false_ne_true, ← h.count, tally, hkept nBlockHeight hold, ← tally]
    · intro nBlockHeight hnone
      cases hold : isOld nHeight nSize nBlockHeight with
      | true => exact hgone nBlockHeight hold
      | false =>
        rw [hkept nBlockHeight hold]
        refine h.cleaned nBlockHeight ?_
        intro hash winner hwinner hheight
        refine hnone hash winner ?_ hheight
        exact cleanPaymentList_votes.mpr ⟨hwinner, by rw [hheight]; exact hold⟩
    · intro nBlockHeight vecPayments hvec
      cases hold : isOld nHeight nSize nBlockHeight with
      | true =>
        rw [hgone nBlockHeight hold] at hvec
        simp at hvec
      | false =>
        rw [hkept nBlockHeight hold] at hvec
        exact h.once nBlockHeight vecPayments hvec

/-! ## Every sequence of calls -/

theorem tallied_empty : ({} : CMasternodePayments).Tallied := by
  constructor
  · intro nBlockHeight payee
    rfl
  · intro nBlockHeight _
    rfl
  · intro nBlockHeight vecPayments hvec
    simp at hvec

theorem Tallied.call (h : payments.Tallied) (c : Call) : (payments.call T c).Tallied := by
  cases c with
  | addWinningMasternode env winnerIn => exact h.addWinningMasternode env winnerIn
  | cleanPaymentList nHeight nSize => exact h.cleanPaymentList nHeight nSize

theorem tallied_afterCalls (T : WinnerText) (calls : List Call) : (afterCalls T calls).Tallied := by
  induction calls using List.reverseRecOn with
  | nil => exact tallied_empty
  | append_singleton calls c ih =>
    rw [afterCalls, List.foldl_append]
    exact ih.call c

/--
**Tallies match the stored votes.** After any sequence of calls, the count of a payee at a
height is the number of the stored votes for the two; a height without votes has no payees;
and after a cleaning no old height has votes or payees.
-/
theorem tally_eq_storedVotes (T : WinnerText) (calls : List Call) :
    (∀ nBlockHeight payee, (afterCalls T calls).tally nBlockHeight payee =
        (afterCalls T calls).storedVotes nBlockHeight payee) ∧
      (∀ nBlockHeight, (afterCalls T calls).NoVotesAt nBlockHeight →
        (afterCalls T calls).mapMasternodeBlocks.lookup nBlockHeight = none) ∧
      (∀ nBlockHeight vecPayments,
        (afterCalls T calls).mapMasternodeBlocks.lookup nBlockHeight = some vecPayments →
          (vecPayments.map CMasternodePayee.scriptPubKey).Nodup) ∧
      ∀ nHeight nSize nBlockHeight, isOld nHeight nSize nBlockHeight = true →
        let payments := afterCalls T (calls ++ [.cleanPaymentList (some nHeight) nSize])
        payments.NoVotesAt nBlockHeight ∧
          payments.mapMasternodeBlocks.lookup nBlockHeight = none := by
  have h := tallied_afterCalls T calls
  refine ⟨h.count, h.cleaned, h.once, ?_⟩
  intro nHeight nSize nBlockHeight hold
  have hclean : afterCalls T (calls ++ [.cleanPaymentList (some nHeight) nSize]) =
      (afterCalls T calls).cleanPaymentList (some nHeight) nSize := by
    rw [afterCalls, List.foldl_append]
    rfl
  dsimp only
  rw [hclean]
  have hnone :
      ((afterCalls T calls).cleanPaymentList (some nHeight) nSize).NoVotesAt nBlockHeight :=
    noVotesAt_cleanPaymentList hold
  exact ⟨hnone, (h.cleanPaymentList (some nHeight) nSize).cleaned nBlockHeight hnone⟩

end CMasternodePayments

end BitBlocks
