import BitBlocks.Budget.VoteOrder

/-!
# Votes that were seen

A vote is remembered by its hash before its signature is looked at, and the signature is
not part of the hash. So a genuine vote is recorded just when nothing with its hash came
before it in the name of a masternode, genuine or not.

The two halves of `CBudgetManager` run side by side: a run of messages is a run of
`BookOp`s for each of them (`proposals_after`, `finalizedBudgets_after`).
-/

namespace BitBlocks

open Table

/-- What a message does to one half of the manager. -/
inductive BookOp (V : Type) where
  | vote (env : VoteEnv) (vote : V)
  | object (fActive fCollateral fValid : Bool) (hash : Uint256)
  | check (env : VoteEnv)

namespace VoteKind

variable {V : Type} (kind : VoteKind V)

def applyOp (book : VoteBook V) : BookOp V → VoteBook V
  | .vote env vote => kind.processVote env book vote
  | .object fActive fCollateral fValid hash =>
    (book.processObject fActive fCollateral fValid hash).1
  | .check env => kind.checkOrphanVotes env book

def bookAfter (book : VoteBook V) (ops : List (BookOp V)) : VoteBook V :=
  ops.foldl kind.applyOp book

/-- The votes that are delivered, with the node they arrive at. -/
def delivered (ops : List (BookOp V)) : List (VoteEnv × V) := ops.filterMap fun
    | .vote env vote => some (env, vote)
    | _ => none

/-- The vote gets as far as being remembered, if it is new. -/
def isListed (x : VoteEnv × V) : Bool := x.1.fActive && (x.1.find (kind.vin x.2).prevout).isSome

/-- A vote with that hash was remembered at the start, or came later. -/
def SeenBefore (book : VoteBook V) (votes : List (VoteEnv × V)) (hash : Uint256) : Prop :=
  (book.mapSeenVotes.lookup hash).isSome ∨
    ∃ x ∈ votes, kind.isListed x = true ∧ kind.getHash x.2 = hash

/-- An enabled masternode's signed vote for a known object, at a time its other votes allow. -/
structure Genuine (env : VoteEnv) (book : VoteBook V) (vote : V) : Prop where
  active : env.fActive = true
  signed : kind.signatureValid env vote = true
  known : ∃ mapVotes, book.mapObjects.lookup (kind.objectHash vote) = some mapVotes ∧
    kind.Accepts env.nNow mapVotes vote

/-- The vote is in the `mapVotes` of its object. -/
def Recorded (book : VoteBook V) (vote : V) : Prop :=
  ∃ mapVotes, book.mapObjects.lookup (kind.objectHash vote) = some mapVotes ∧
    mapVotes.lookup (kind.prevoutHash vote) = some vote

variable {kind} {book : VoteBook V} {env : VoteEnv} {vote : V} {ops : List (BookOp V)}

theorem delivered_append (ops ops' : List (BookOp V)) :
    delivered (ops ++ ops') = delivered ops ++ delivered ops' := List.filterMap_append

theorem bookAfter_append (book : VoteBook V) (ops ops' : List (BookOp V)) :
    kind.bookAfter book (ops ++ ops') = kind.bookAfter (kind.bookAfter book ops) ops' :=
  List.foldl_append

theorem isSome_find_of_signatureValid (h : kind.signatureValid env vote = true) :
    (env.find (kind.vin vote).prevout).isSome = true := by
  unfold signatureValid at h
  split at h
  · exact absurd h (by simp)
  · rename_i hfind
    rw [hfind]
    rfl

/-! ## What the operations leave alone -/

variable (kind) in
theorem update_mapSeenVotes (env : VoteEnv) (fFrom : Bool) (book : VoteBook V) (vote : V) :
    (kind.update env fFrom book vote).1.mapSeenVotes = book.mapSeenVotes := by
  unfold update
  split
  · cases fFrom <;> cases env.fSynced <;> rfl
  · split <;> rfl

theorem checkOrphan_mapSeenVotes (env : VoteEnv) (book : VoteBook V)
    (entry : Sigma fun _ : Uint256 => V) :
    (kind.checkOrphan env book entry).mapSeenVotes = book.mapSeenVotes := by
  have h := update_mapSeenVotes kind env false book entry.2
  unfold checkOrphan
  split <;> rename_i heq <;> rw [heq] at h <;> exact h

theorem checkOrphanVotes_mapSeenVotes (env : VoteEnv) (book : VoteBook V) :
    (kind.checkOrphanVotes env book).mapSeenVotes = book.mapSeenVotes := by
  unfold checkOrphanVotes
  generalize book.mapOrphanVotes.entries = entries
  induction entries generalizing book with
  | nil => rfl
  | cons entry entries ih => rw [List.foldl_cons, ih, checkOrphan_mapSeenVotes]

theorem addObject_mapSeenVotes (fValid : Bool) (book : VoteBook V) (hash : Uint256) :
    (book.addObject fValid hash).mapSeenVotes = book.mapSeenVotes := by
  unfold VoteBook.addObject
  split
  · rfl
  · split <;> rfl

theorem processObject_mapSeenVotes (fActive fCollateral fValid : Bool) (book : VoteBook V)
    (hash : Uint256) :
    (book.processObject fActive fCollateral fValid hash).1.mapSeenVotes = book.mapSeenVotes := by
  unfold VoteBook.processObject
  split
  · rfl
  · split
    · rfl
    · split
      · rfl
      · dsimp only
        split
        · rfl
        · rw [addObject_mapSeenVotes]

/-! ## What is remembered -/

theorem processVote_of_dropped (h : kind.isListed (env, vote) = false ∨
    (book.mapSeenVotes.lookup (kind.getHash vote)).isSome = true) :
    kind.processVote env book vote = book := by
  unfold isListed at h
  unfold processVote
  cases hactive : env.fActive with
  | false => rfl
  | true =>
    by_cases hseen : (book.mapSeenVotes.lookup (kind.getHash vote)).isSome = true
    · simp [hseen]
    · have hfind : env.find (kind.vin vote).prevout = none := by
        simpa [hactive, hseen] using h
      simp [hseen, hfind]

/-- A new one is remembered, and taken further if the signature is valid. -/
theorem processVote_of_new (hlisted : kind.isListed (env, vote) = true)
    (hseen : book.mapSeenVotes.lookup (kind.getHash vote) = none) :
    kind.processVote env book vote =
      if kind.signatureValid env vote then
        (kind.update env true
          { book with mapSeenVotes := insertNew book.mapSeenVotes (kind.getHash vote) vote } vote).1
      else
        { book with mapSeenVotes := insertNew book.mapSeenVotes (kind.getHash vote) vote } := by
  obtain ⟨hactive, hfind⟩ := Bool.and_eq_true_iff.mp hlisted
  obtain ⟨key, hkey⟩ := Option.isSome_iff_exists.mp hfind
  unfold processVote
  rw [hactive, hseen, hkey]
  cases kind.signatureValid env vote <;> rfl

theorem isSome_processVote (env : VoteEnv) (book : VoteBook V) (vote : V) (hash : Uint256) :
    ((kind.processVote env book vote).mapSeenVotes.lookup hash).isSome = true ↔
      (book.mapSeenVotes.lookup hash).isSome = true ∨
        kind.isListed (env, vote) = true ∧ kind.getHash vote = hash := by
  by_cases hdrop : kind.isListed (env, vote) = false ∨
      (book.mapSeenVotes.lookup (kind.getHash vote)).isSome = true
  · rw [processVote_of_dropped hdrop]
    refine ⟨Or.inl, fun h => h.elim id fun ⟨hlisted, hhash⟩ => ?_⟩
    exact hhash ▸ hdrop.resolve_left (by simp [hlisted])
  · obtain ⟨hlisted, hseen⟩ := not_or.mp hdrop
    have hlisted : kind.isListed (env, vote) = true := by simpa using hlisted
    have hmap : (kind.processVote env book vote).mapSeenVotes =
        insertNew book.mapSeenVotes (kind.getHash vote) vote := by
      rw [processVote_of_new hlisted (by simpa using hseen)]
      split
      · rw [update_mapSeenVotes]
      · rfl
    rw [hmap, isSome_insertNew, hlisted, eq_self_iff_true, true_and]
    exact or_congr_right eq_comm

/-- **What a run remembers**: every vote of a masternode that was in the list. -/
theorem isSome_bookAfter (book : VoteBook V) (ops : List (BookOp V)) (hash : Uint256) :
    ((kind.bookAfter book ops).mapSeenVotes.lookup hash).isSome = true ↔
      kind.SeenBefore book (delivered ops) hash := by
  induction ops using List.reverseRecOn with
  | nil => simp [bookAfter, SeenBefore, delivered]
  | append_singleton ops op ih =>
    rw [bookAfter_append, delivered_append]
    cases op with
    | vote env vote =>
      show ((kind.processVote env _ vote).mapSeenVotes.lookup hash).isSome = true ↔ _
      rw [isSome_processVote, ih]
      unfold SeenBefore delivered
      constructor
      · rintro ((h | ⟨x, hx, hx'⟩) | h)
        · exact Or.inl h
        · exact Or.inr ⟨x, List.mem_append_left _ hx, hx'⟩
        · exact Or.inr ⟨(env, vote), List.mem_append_right _ List.mem_cons_self, h⟩
      · rintro (h | ⟨x, hx, hx'⟩)
        · exact Or.inl (Or.inl h)
        · rcases List.mem_append.mp hx with hx | hx
          · exact Or.inl (Or.inr ⟨x, hx, hx'⟩)
          · obtain rfl := List.mem_singleton.mp hx
            exact Or.inr hx'
    | object fActive fCollateral fValid h =>
      show (((VoteBook.processObject fActive fCollateral fValid _ h).1).mapSeenVotes.lookup
        hash).isSome = true ↔ _
      rw [processObject_mapSeenVotes, ih]
      simp [delivered]
    | check env =>
      show ((kind.checkOrphanVotes env _).mapSeenVotes.lookup hash).isSome = true ↔ _
      rw [checkOrphanVotes_mapSeenVotes, ih]
      simp [delivered]

/-! ## Genuine votes -/

theorem recorded_update {fFrom : Bool} {mapVotes : VoteMap V}
    (hknown : book.mapObjects.lookup (kind.objectHash vote) = some mapVotes)
    (hacc : kind.Accepts env.nNow mapVotes vote) :
    kind.Recorded (kind.update env fFrom book vote).1 vote := by
  unfold update
  rw [hknown]
  dsimp only
  rw [addOrUpdateVote_of_accepts hacc]
  exact ⟨_, by rw [lookup_insert, if_pos rfl], by rw [lookup_insert, if_pos rfl]⟩

/-- **A genuine vote is recorded iff its hash is new.** -/
theorem Genuine.recorded_iff (h : kind.Genuine env book vote) :
    kind.Recorded (kind.processVote env book vote) vote ↔
      ¬ (book.mapSeenVotes.lookup (kind.getHash vote)).isSome = true := by
  obtain ⟨mapVotes, hknown, hacc⟩ := h.known
  by_cases hseen : (book.mapSeenVotes.lookup (kind.getHash vote)).isSome = true
  · rw [processVote_of_dropped (Or.inr hseen)]
    refine ⟨fun ⟨mapVotes', hknown', hvote⟩ => ?_, fun hno => absurd hseen hno⟩
    -- a vote that is recorded already does not give way to itself
    obtain rfl := Option.some.inj (hknown.symm.trans hknown')
    have hself := hacc.1 vote hvote
    exact absurd hself hself.asymm
  · have hlisted : kind.isListed (env, vote) = true := by
      rw [isListed, h.active, isSome_find_of_signatureValid h.signed]
      rfl
    refine ⟨fun _ => hseen, fun _ => ?_⟩
    rw [processVote_of_new hlisted (by simpa using hseen), if_pos h.signed]
    exact recorded_update hknown hacc

end VoteKind

/-! ## The manager -/

namespace CBudgetManager

def mvotes (run : List (VoteEnv × BudgetMessage)) : List (VoteEnv × CBudgetVote) :=
  run.filterMap fun
    | (env, .mvote vote) => some (env, vote)
    | _ => none

def fbvotes (run : List (VoteEnv × BudgetMessage)) : List (VoteEnv × CFinalizedBudgetVote) :=
  run.filterMap fun
    | (env, .fbvote vote) => some (env, vote)
    | _ => none

variable {H : BudgetHash} {budget : CBudgetManager}

variable (H) (budget) in
theorem proposals_processMessage (env : VoteEnv) (message : BudgetMessage) : ∃ ops,
    (budget.processMessage H env message).proposals =
        (CBudgetVote.kind H).bookAfter budget.proposals ops ∧
      VoteKind.delivered ops = mvotes [(env, message)] := by
  cases message with
  | mvote vote => exact ⟨[.vote env vote], rfl, rfl⟩
  | fbvote vote => exact ⟨[], rfl, rfl⟩
  | mprop hash fCollateral fValid =>
    simp only [processMessage]
    cases hcheck : (budget.proposals.processObject env.fActive fCollateral fValid hash).2 with
    | true => exact ⟨[.object env.fActive fCollateral fValid hash, .check env], rfl, rfl⟩
    | false => exact ⟨[.object env.fActive fCollateral fValid hash], rfl, rfl⟩
  | fbs hash fCollateral fValid =>
    simp only [processMessage]
    cases hcheck :
      (budget.finalizedBudgets.processObject env.fActive fCollateral fValid hash).2 with
    | true => exact ⟨[.check env], rfl, rfl⟩
    | false => exact ⟨[], rfl, rfl⟩

variable (H) (budget) in
theorem finalizedBudgets_processMessage (env : VoteEnv) (message : BudgetMessage) : ∃ ops,
    (budget.processMessage H env message).finalizedBudgets =
        (CFinalizedBudgetVote.kind H).bookAfter budget.finalizedBudgets ops ∧
      VoteKind.delivered ops = fbvotes [(env, message)] := by
  cases message with
  | mvote vote => exact ⟨[], rfl, rfl⟩
  | fbvote vote => exact ⟨[.vote env vote], rfl, rfl⟩
  | mprop hash fCollateral fValid =>
    simp only [processMessage]
    cases hcheck : (budget.proposals.processObject env.fActive fCollateral fValid hash).2 with
    | true => exact ⟨[.check env], rfl, rfl⟩
    | false => exact ⟨[], rfl, rfl⟩
  | fbs hash fCollateral fValid =>
    simp only [processMessage]
    cases hcheck :
      (budget.finalizedBudgets.processObject env.fActive fCollateral fValid hash).2 with
    | true => exact ⟨[.object env.fActive fCollateral fValid hash, .check env], rfl, rfl⟩
    | false => exact ⟨[.object env.fActive fCollateral fValid hash], rfl, rfl⟩

/-- One half of the manager in a run, if a message is a few operations for it. -/
theorem book_after {V : Type} {kind : VoteKind V} {book : CBudgetManager → VoteBook V}
    {votes : VoteEnv × BudgetMessage → Option (VoteEnv × V)}
    (hmessage : ∀ budget x, ∃ ops,
      book (processMessage H x.1 budget x.2) = kind.bookAfter (book budget) ops ∧
        VoteKind.delivered ops = [x].filterMap votes)
    (budget : CBudgetManager) (run : List (VoteEnv × BudgetMessage)) : ∃ ops,
    book (budget.after H run) = kind.bookAfter (book budget) ops ∧
      VoteKind.delivered ops = run.filterMap votes := by
  induction run generalizing budget with
  | nil => exact ⟨[], rfl, rfl⟩
  | cons x run ih =>
    obtain ⟨ops, hops, hvotes⟩ := hmessage budget x
    obtain ⟨ops', hops', hvotes'⟩ := ih (processMessage H x.1 budget x.2)
    refine ⟨ops ++ ops', ?_, ?_⟩
    · rw [VoteKind.bookAfter_append, ← hops, ← hops']
      rfl
    · rw [VoteKind.delivered_append, hvotes, hvotes']
      exact List.filterMap_append.symm

/-- **The proposals' half of a run.** -/
theorem proposals_after (H : BudgetHash) (budget : CBudgetManager)
    (run : List (VoteEnv × BudgetMessage)) : ∃ ops,
    (budget.after H run).proposals = (CBudgetVote.kind H).bookAfter budget.proposals ops ∧
      VoteKind.delivered ops = mvotes run :=
  book_after (fun budget x => proposals_processMessage H budget x.1 x.2) budget run

/-- **The finalized budgets' half.** -/
theorem finalizedBudgets_after (H : BudgetHash) (budget : CBudgetManager)
    (run : List (VoteEnv × BudgetMessage)) : ∃ ops,
    (budget.after H run).finalizedBudgets =
        (CFinalizedBudgetVote.kind H).bookAfter budget.finalizedBudgets ops ∧
      VoteKind.delivered ops = fbvotes run :=
  book_after (fun budget x => finalizedBudgets_processMessage H budget x.1 x.2) budget run

/--
**Genuine votes.** After any run, a genuine vote that is delivered is recorded iff nothing
with its hash came before in the name of a masternode in the list: a forged vote with its
hash is enough to suppress it.
-/
theorem genuine_recorded_iff (H : BudgetHash) (budget : CBudgetManager)
    (run : List (VoteEnv × BudgetMessage)) :
    (∀ env vote, (CBudgetVote.kind H).Genuine env (budget.after H run).proposals vote →
      ((CBudgetVote.kind H).Recorded
          ((budget.after H run).processMessage H env (.mvote vote)).proposals vote ↔
        ¬ (CBudgetVote.kind H).SeenBefore budget.proposals (mvotes run)
          ((CBudgetVote.kind H).getHash vote))) ∧
    ∀ env vote,
      (CFinalizedBudgetVote.kind H).Genuine env (budget.after H run).finalizedBudgets vote →
      ((CFinalizedBudgetVote.kind H).Recorded
          ((budget.after H run).processMessage H env (.fbvote vote)).finalizedBudgets vote ↔
        ¬ (CFinalizedBudgetVote.kind H).SeenBefore budget.finalizedBudgets (fbvotes run)
          ((CFinalizedBudgetVote.kind H).getHash vote)) := by
  constructor
  · intro env vote h
    obtain ⟨ops, hops, hvotes⟩ := proposals_after H budget run
    refine h.recorded_iff.trans (not_congr ?_)
    rw [hops, VoteKind.isSome_bookAfter, hvotes]
  · intro env vote h
    obtain ⟨ops, hops, hvotes⟩ := finalizedBudgets_after H budget run
    refine h.recorded_iff.trans (not_congr ?_)
    rw [hops, VoteKind.isSome_bookAfter, hvotes]

/-- One masternode, whose signature is good if it is `[1]`. -/
def sampleEnv : VoteEnv where
  fActive := true
  fSynced := true
  nNow := 9000
  find o := if o = ⟨5, 0⟩ then some [] else none
  verifyMessage _ vchSig _ := vchSig == [1]

def sampleBudget : CBudgetManager where
  proposals := { mapObjects := (∅ : AList fun _ : Uint256 => VoteMap CBudgetVote).insert 7 ∅ }

/-- The masternode's vote for it, with some signature. -/
def signedVote (vchSig : List UInt8) : CBudgetVote := { voteAt 1000 with vchSig := vchSig }

theorem genuine_signedVote : (CBudgetVote.kind sampleHash).Genuine sampleEnv
    sampleBudget.proposals (signedVote [1]) where
  active := rfl
  signed := by decide
  known := ⟨∅, rfl, by simp, by decide⟩

/-- The masternode's vote for finalized budget 9, with some signature. -/
def signedBudgetVote (vchSig : List UInt8) : CFinalizedBudgetVote :=
  ⟨⟨⟨5, 0⟩, [], 0⟩, 9, 5000, vchSig⟩

def laterVote : CBudgetVote := { signedVote [1] with nTime := 5000 }

/--
The objects arrive, then the votes forged while the masternode is not in the list, forged
votes for other objects, and the masternode's first vote.
-/
def earlierRun : List (VoteEnv × BudgetMessage) :=
  [(sampleEnv, .mprop 8 true true), (sampleEnv, .fbs 9 true true),
    ({ sampleEnv with find := fun _ => none }, .mvote { laterVote with vchSig := [2] }),
    ({ sampleEnv with find := fun _ => none }, .fbvote (signedBudgetVote [2])),
    (sampleEnv, .mvote { laterVote with nProposalHash := 8, vchSig := [2] }),
    (sampleEnv, .fbvote { signedBudgetVote [2] with nBudgetHash := 10 }),
    (sampleEnv, .mvote (signedVote [1]))]

theorem genuine_laterVote : (CBudgetVote.kind sampleHash).Genuine sampleEnv
    (sampleBudget.after sampleHash earlierRun).proposals laterVote where
  active := rfl
  signed := by decide
  known := ⟨(∅ : VoteMap CBudgetVote).insert 5 (signedVote [1]), rfl, by decide, by decide⟩

theorem genuine_signedBudgetVote : (CFinalizedBudgetVote.kind sampleHash).Genuine sampleEnv
    (sampleBudget.after sampleHash earlierRun).finalizedBudgets (signedBudgetVote [1]) where
  active := rfl
  signed := by decide
  known := ⟨∅, rfl, by simp, by decide⟩

/-- The first that come with their hashes in the name of a masternode in the list. -/
theorem genuine_recorded_iff_of_first :
    (CBudgetVote.kind sampleHash).Recorded
        ((sampleBudget.after sampleHash earlierRun).processMessage sampleHash sampleEnv
          (.mvote laterVote)).proposals laterVote ∧
      (CFinalizedBudgetVote.kind sampleHash).Recorded
        ((sampleBudget.after sampleHash earlierRun).processMessage sampleHash sampleEnv
          (.fbvote (signedBudgetVote [1]))).finalizedBudgets (signedBudgetVote [1]) := by
  obtain ⟨hmvote, hfbvote⟩ := genuine_recorded_iff sampleHash sampleBudget earlierRun
  refine ⟨(hmvote _ _ genuine_laterVote).mpr ?_, (hfbvote _ _ genuine_signedBudgetVote).mpr ?_⟩
  · rintro (h | ⟨x, hx, hlisted, hhash⟩)
    · simp [sampleBudget] at h
    · revert x
      decide
  · rintro (h | ⟨x, hx, hlisted, hhash⟩)
    · simp [sampleBudget] at h
    · revert x
      decide

/-- A forged vote with its hash comes first, and the genuine one is dropped. -/
theorem forged_suppresses :
    (CBudgetVote.kind sampleHash).signatureValid sampleEnv (signedVote [2]) = false ∧
      (CBudgetVote.kind sampleHash).Genuine sampleEnv
        (sampleBudget.after sampleHash [(sampleEnv, .mvote (signedVote [2]))]).proposals
        (signedVote [1]) ∧
      ¬ (CBudgetVote.kind sampleHash).Recorded
        (sampleBudget.after sampleHash [(sampleEnv, .mvote (signedVote [2])),
          (sampleEnv, .mvote (signedVote [1]))]).proposals (signedVote [1]) := by
  refine ⟨by decide, ⟨rfl, by decide, ∅, rfl, by simp, by decide⟩, fun ⟨m, hm, hvote⟩ => ?_⟩
  have hnone : (sampleBudget.after sampleHash [(sampleEnv, .mvote (signedVote [2])),
      (sampleEnv, .mvote (signedVote [1]))]).proposals.mapObjects.lookup 7 = some ∅ := rfl
  obtain rfl := Option.some.inj (hnone.symm.trans hm)
  simp at hvote

end CBudgetManager

end BitBlocks
