import BitBlocks.Budget.Seen

/-!
# Votes that come before their object

A vote for a proposal that is not known is parked under the proposal's hash, if the node
is synced, and tried again once the proposal is added. There is room for one vote under a
hash: of two votes for an unknown proposal one is lost, whoever sent them.
-/

namespace BitBlocks

open Table

namespace VoteKind

variable {V : Type} (kind : VoteKind V)

/-- The signed votes, each where it is first delivered; `seen` are the hashes before. -/
def firstVotes (seen : Uint256 → Bool) : List (VoteEnv × V) → List (VoteEnv × V)
  | [] => []
  | x :: xs =>
    if kind.isListed x && !seen (kind.getHash x.2) then
      (if kind.signatureValid x.1 x.2 then [x] else []) ++
        firstVotes (fun hash => hash == kind.getHash x.2 || seen hash) xs
    else firstVotes seen xs

def votesFor (hash : Uint256) (seen : Uint256 → Bool) (votes : List (VoteEnv × V)) :
    List (VoteEnv × V) :=
  (kind.firstVotes seen votes).filter fun x => kind.objectHash x.2 == hash

/-- There is no vote, or a single one, parked and not too far ahead when it is tried again. -/
def NoneOrOne (env : VoteEnv) : List (VoteEnv × V) → Prop
  | [] => True
  | [x] => x.1.fSynced = true ∧ kind.nTime x.2 ≤ env.nNow + 60 * 60
  | _ => False

/-- An orphan vote is parked under its object. -/
def Filed (book : VoteBook V) : Prop :=
  ∀ hash vote, book.mapOrphanVotes.lookup hash = some vote → kind.objectHash vote = hash

def seenIn (book : VoteBook V) (hash : Uint256) : Bool := (book.mapSeenVotes.lookup hash).isSome

variable {kind} {book : VoteBook V} {env : VoteEnv} {vote : V} {hash : Uint256}

/-! ## One vote -/

theorem lookup_update (env : VoteEnv) (fFrom : Bool) (book : VoteBook V) (vote : V)
    (hash : Uint256) : (kind.update env fFrom book vote).1.mapObjects.lookup hash =
      if hash = kind.objectHash vote then
        (book.mapObjects.lookup hash).map fun mapVotes => kind.added env.nNow mapVotes vote
      else book.mapObjects.lookup hash := by
  unfold update added
  cases hobj : book.mapObjects.lookup (kind.objectHash vote) with
  | none =>
    have hsame : (if hash = kind.objectHash vote then
        (book.mapObjects.lookup hash).map fun mapVotes => kind.added env.nNow mapVotes vote
        else book.mapObjects.lookup hash) = book.mapObjects.lookup hash := by
      split
      · rename_i he
        rw [he, hobj]
        rfl
      · rfl
    unfold added at hsame
    rw [hsame]
    cases fFrom <;> cases env.fSynced <;> rfl
  | some mapVotes =>
    dsimp only
    cases hadd : kind.addOrUpdateVote env.nNow mapVotes vote with
    | error e =>
      dsimp only
      split
      · rename_i he
        rw [he, hobj, Option.map_some, hadd]
      · rfl
    | ok mapVotes' =>
      dsimp only
      rw [lookup_insert]
      split
      · rename_i he
        rw [he, hobj, Option.map_some, hadd]
      · rfl

theorem update_true_mapOrphanVotes (env : VoteEnv) (book : VoteBook V) (vote : V) :
    (kind.update env true book vote).1.mapOrphanVotes =
      if book.mapObjects.lookup (kind.objectHash vote) = none ∧ env.fSynced = true then
        book.mapOrphanVotes.insert (kind.objectHash vote) vote
      else book.mapOrphanVotes := by
  unfold update
  cases hobj : book.mapObjects.lookup (kind.objectHash vote) with
  | none => cases env.fSynced <;> rfl
  | some mapVotes =>
    have hknown : ¬ ((some mapVotes : Option (VoteMap V)) = none ∧ env.fSynced = true) :=
      fun h => Option.some_ne_none _ h.1
    rw [if_neg hknown]
    dsimp only
    split <;> rfl

variable (kind) in
theorem update_false_mapOrphanVotes (env : VoteEnv) (book : VoteBook V) (vote : V) :
    (kind.update env false book vote).1.mapOrphanVotes = book.mapOrphanVotes := by
  unfold update
  split
  · rfl
  · split <;> rfl

theorem update_snd_eq_none {fFrom : Bool} (h : (kind.update env fFrom book vote).2 = none) :
    (book.mapObjects.lookup (kind.objectHash vote)).isSome = true := by
  unfold update at h
  split at h
  · cases fFrom <;> cases hs : env.fSynced <;> simp [hs] at h
  · rename_i hobj
    rw [hobj]
    rfl

variable (kind) in
/-- The votes are those of `UpdateProposal`, and the orphan is gone if that worked. -/
theorem checkOrphan_eq (env : VoteEnv) (book : VoteBook V) (entry : Sigma fun _ : Uint256 => V) :
    (kind.checkOrphan env book entry).mapObjects =
        (kind.update env false book entry.2).1.mapObjects ∧
      ((kind.checkOrphan env book entry).mapOrphanVotes = book.mapOrphanVotes ∨
        (kind.checkOrphan env book entry).mapOrphanVotes = book.mapOrphanVotes.erase entry.1 ∧
          (book.mapObjects.lookup (kind.objectHash entry.2)).isSome = true) := by
  have horphan := update_false_mapOrphanVotes kind env book entry.2
  unfold checkOrphan
  cases hup : kind.update env false book entry.2 with
  | mk book' error =>
    rw [hup] at horphan
    cases error with
    | none => exact ⟨rfl, Or.inr ⟨by rw [← horphan], update_snd_eq_none (by rw [hup])⟩⟩
    | some e => exact ⟨rfl, Or.inl horphan⟩

/-! ## All orphan votes -/

def readAt (book : VoteBook V) (hash : Uint256) : Option (VoteMap V) × Option V :=
  (book.mapObjects.lookup hash, book.mapOrphanVotes.lookup hash)

theorem checkOrphan_round (kind : VoteKind V) (env : VoteEnv) :
    Round readAt (fun book entry => some (kind.checkOrphan env book entry))
      (fun entry _ => kind.objectHash entry.2 = entry.1)
      fun entry r r' => r'.1 = r.1.map (fun mapVotes => kind.added env.nNow mapVotes entry.2) ∧
        (r'.2 = r.2 ∨ r'.2 = none ∧ r.1.isSome = true) := by
  intro book entry hfiled
  obtain ⟨hobjects, horphans⟩ := checkOrphan_eq kind env book entry
  refine ⟨_, rfl, ⟨?_, ?_⟩, fun k hk => ?_⟩
  · show (kind.checkOrphan env book entry).mapObjects.lookup entry.1 = _
    rw [hobjects, lookup_update, if_pos hfiled.symm]
    rfl
  · show (kind.checkOrphan env book entry).mapOrphanVotes.lookup entry.1 = _ ∨
      (kind.checkOrphan env book entry).mapOrphanVotes.lookup entry.1 = _ ∧ _
    rcases horphans with he | ⟨he, hsome⟩
    · exact Or.inl (by rw [he]; rfl)
    · exact Or.inr ⟨by rw [he, lookup_erase, if_pos rfl], hfiled ▸ hsome⟩
  · have hobj : (kind.checkOrphan env book entry).mapObjects.lookup k =
        book.mapObjects.lookup k := by
      rw [hobjects, lookup_update, if_neg fun he => hk (he.trans hfiled)]
    have horph : (kind.checkOrphan env book entry).mapOrphanVotes.lookup k =
        book.mapOrphanVotes.lookup k := by
      rcases horphans with he | ⟨he, -⟩
      · rw [he]
      · rw [he, lookup_erase, if_neg hk]
    exact Prod.ext hobj horph

/--
**`CheckOrphanVotes`**, hash by hash: an orphan vote is added to its object, if that is
known, and no orphan vote for an unknown object goes away.
-/
theorem checkOrphanVotes_spec (env : VoteEnv) (hfiled : kind.Filed book) (hash : Uint256) :
    (kind.checkOrphanVotes env book).mapObjects.lookup hash =
        (match book.mapOrphanVotes.lookup hash with
          | none => book.mapObjects.lookup hash
          | some vote =>
            (book.mapObjects.lookup hash).map fun mapVotes => kind.added env.nNow mapVotes vote) ∧
      ((kind.checkOrphanVotes env book).mapOrphanVotes.lookup hash =
        book.mapOrphanVotes.lookup hash ∨
        (kind.checkOrphanVotes env book).mapOrphanVotes.lookup hash = none ∧
          (book.mapObjects.lookup hash).isSome = true) := by
  have hpre : ∀ entry ∈ book.mapOrphanVotes.entries, kind.objectHash entry.2 = entry.1 := by
    intro entry hentry
    exact hfiled _ _ (AList.mem_lookup_iff.mpr hentry)
  obtain ⟨book', hfold, hon, hoff⟩ :=
    (checkOrphan_round kind env).foldlM book.mapOrphanVotes.nodupKeys book hpre
  have hbook' : kind.checkOrphanVotes env book = book' := by
    have hpure : book.mapOrphanVotes.entries.foldlM
        (fun book entry => some (kind.checkOrphan env book entry)) book =
          some (kind.checkOrphanVotes env book) := List.foldlM_pure (m := Option)
    exact Option.some.inj (hpure.symm.trans hfold)
  rw [hbook']
  cases horphan : book.mapOrphanVotes.lookup hash with
  | none =>
    have hread := hoff hash (AList.lookup_eq_none.mp horphan)
    exact ⟨congrArg Prod.fst hread, Or.inl ((congrArg Prod.snd hread).trans horphan)⟩
  | some vote =>
    have hread := hon ⟨hash, vote⟩ (AList.mem_lookup_iff.mp horphan)
    exact ⟨hread.1, hread.2.imp_left fun he => he.trans horphan⟩

/-! ## A run -/

variable (kind) in
theorem processVote_cases (env : VoteEnv) (book : VoteBook V) (vote : V) :
    kind.processVote env book vote = book ∧
        (kind.isListed (env, vote) && !seenIn book (kind.getHash vote)) = false ∨
      (kind.isListed (env, vote) && !seenIn book (kind.getHash vote)) = true ∧
        ∃ seen, kind.processVote env book vote =
          if kind.signatureValid env vote then
            (kind.update env true { book with mapSeenVotes := seen } vote).1
          else { book with mapSeenVotes := seen } := by
  by_cases hdrop : kind.isListed (env, vote) = false ∨
      (book.mapSeenVotes.lookup (kind.getHash vote)).isSome = true
  · refine Or.inl ⟨processVote_of_dropped hdrop, ?_⟩
    rcases hdrop with h | h <;> simp [seenIn, h]
  · obtain ⟨hlisted, hseen⟩ := not_or.mp hdrop
    have hlisted : kind.isListed (env, vote) = true := by simpa using hlisted
    refine Or.inr ⟨by simp [seenIn, hlisted, hseen], _,
      processVote_of_new hlisted (by simpa using hseen)⟩

theorem isSome_processVote_mapObjects (env : VoteEnv) (book : VoteBook V) (vote : V)
    (hash : Uint256) : ((kind.processVote env book vote).mapObjects.lookup hash).isSome =
      (book.mapObjects.lookup hash).isSome := by
  rcases processVote_cases kind env book vote with ⟨he, -⟩ | ⟨-, seen, he⟩
  · rw [he]
  · rw [he]
    split
    · rw [lookup_update]
      split
      · rw [Option.isSome_map]
      · rfl
    · rfl

theorem isSome_addObject {fValid : Bool} (h : (book.mapObjects.lookup hash).isSome = true)
    (added : Uint256) : ((book.addObject fValid added).mapObjects.lookup hash).isSome = true := by
  unfold VoteBook.addObject
  split
  · exact h
  · split
    · exact h
    · dsimp only
      rw [lookup_insert]
      split
      · rfl
      · exact h

theorem isSome_processObject {fActive fCollateral fValid : Bool}
    (h : (book.mapObjects.lookup hash).isSome = true) (added : Uint256) :
    (((book.processObject fActive fCollateral fValid added).1).mapObjects.lookup hash).isSome =
      true := by
  unfold VoteBook.processObject
  split
  · exact h
  · split
    · exact h
    · split
      · exact h
      · dsimp only
        split
        · exact h
        · refine isSome_addObject ?_ added
          exact h

theorem addObject_mapOrphanVotes (fValid : Bool) (book : VoteBook V) (added : Uint256) :
    (book.addObject fValid added).mapOrphanVotes = book.mapOrphanVotes := by
  unfold VoteBook.addObject
  split
  · rfl
  · split <;> rfl

theorem processObject_mapOrphanVotes (fActive fCollateral fValid : Bool) (book : VoteBook V)
    (added : Uint256) : (book.processObject fActive fCollateral fValid added).1.mapOrphanVotes =
      book.mapOrphanVotes := by
  unfold VoteBook.processObject
  split
  · rfl
  · split
    · rfl
    · split
      · rfl
      · dsimp only
        split
        · rfl
        · rw [addObject_mapOrphanVotes]

theorem isSome_applyOp (hfiled : kind.Filed book) (op : BookOp V)
    (h : (book.mapObjects.lookup hash).isSome = true) :
    ((kind.applyOp book op).mapObjects.lookup hash).isSome = true := by
  cases op with
  | vote env vote => exact (isSome_processVote_mapObjects env book vote hash).trans h
  | object fActive fCollateral fValid added => exact isSome_processObject h added
  | check env =>
    show ((kind.checkOrphanVotes env book).mapObjects.lookup hash).isSome = true
    rw [(checkOrphanVotes_spec env hfiled hash).1]
    split
    · exact h
    · rw [Option.isSome_map]
      exact h

variable (kind) in
/-- What is parked under a hash after a vote came. -/
theorem lookup_processVote_mapOrphanVotes (env : VoteEnv) (book : VoteBook V) (vote : V)
    (hash : Uint256) : (kind.processVote env book vote).mapOrphanVotes.lookup hash =
      if ((kind.isListed (env, vote) && !seenIn book (kind.getHash vote)) = true ∧
          kind.signatureValid env vote = true) ∧
          (book.mapObjects.lookup (kind.objectHash vote) = none ∧ env.fSynced = true) ∧
          hash = kind.objectHash vote then some vote
      else book.mapOrphanVotes.lookup hash := by
  rcases processVote_cases kind env book vote with ⟨he, hnew⟩ | ⟨hnew, seen, he⟩
  · rw [he, hnew]
    simp
  · rw [he, hnew]
    cases kind.signatureValid env vote with
    | false => simp
    | true =>
      rw [if_pos rfl, update_true_mapOrphanVotes]
      by_cases hpark : book.mapObjects.lookup (kind.objectHash vote) = none ∧ env.fSynced = true
      · rw [if_pos hpark, lookup_insert]
        simp [hpark]
      · rw [if_neg hpark, if_neg fun h => hpark h.2.1]

theorem filed_applyOp (hfiled : kind.Filed book) (op : BookOp V) :
    kind.Filed (kind.applyOp book op) := by
  intro hash parked hparked
  cases op with
  | vote env vote =>
    have hlookup := (lookup_processVote_mapOrphanVotes kind env book vote hash).symm.trans hparked
    split at hlookup
    · rename_i h
      rw [← Option.some.inj hlookup, h.2.2]
    · exact hfiled hash parked hlookup
  | object fActive fCollateral fValid added =>
    refine hfiled hash parked ?_
    rw [← processObject_mapOrphanVotes fActive fCollateral fValid book added]
    exact hparked
  | check env =>
    have hlookup : (kind.checkOrphanVotes env book).mapOrphanVotes.lookup hash = some parked :=
      hparked
    rcases (checkOrphanVotes_spec env hfiled hash).2 with he | ⟨he, -⟩
    · exact hfiled hash parked (he.symm.trans hlookup)
    · rw [he] at hlookup
      exact absurd hlookup (by simp)

theorem seenIn_processVote (env : VoteEnv) (book : VoteBook V) (vote : V)
    (hlisted : kind.isListed (env, vote) = true) :
    seenIn (kind.processVote env book vote) =
      fun hash => hash == kind.getHash vote || seenIn book hash := by
  funext hash
  rw [Bool.eq_iff_iff, seenIn, isSome_processVote, hlisted, Bool.or_eq_true, beq_iff_eq, seenIn]
  simp only [true_and]
  rw [or_comm, eq_comm]

theorem votesFor_cons (kind : VoteKind V) (hash : Uint256) (seen : Uint256 → Bool)
    (x : VoteEnv × V) (xs : List (VoteEnv × V)) : kind.votesFor hash seen (x :: xs) =
      if kind.isListed x && !seen (kind.getHash x.2) then
        (if kind.signatureValid x.1 x.2 = true ∧ hash = kind.objectHash x.2 then [x] else []) ++
          kind.votesFor hash (fun h => h == kind.getHash x.2 || seen h) xs
      else kind.votesFor hash seen xs := by
  unfold votesFor
  rw [firstVotes]
  split
  · rw [List.filter_append]
    congr 1
    cases kind.signatureValid x.1 x.2 with
    | false => rfl
    | true =>
      by_cases hobj : hash = kind.objectHash x.2
      · rw [if_pos rfl, if_pos ⟨rfl, hobj⟩, List.filter_cons_of_pos (by simp [hobj])]
        rfl
      · rw [if_pos rfl, if_neg fun h => hobj h.2,
          List.filter_cons_of_neg (by simpa using fun he => hobj he.symm)]
        rfl
  · rfl

theorem isSome_bookAfter_mapObjects (hfiled : kind.Filed book) (ops : List (BookOp V))
    (h : (book.mapObjects.lookup hash).isSome = true) :
    ((kind.bookAfter book ops).mapObjects.lookup hash).isSome = true := by
  induction ops generalizing book with
  | nil => exact h
  | cons op ops ih => exact ih (filed_applyOp hfiled op) (isSome_applyOp hfiled op h)

theorem unknown_of_bookAfter (hfiled : kind.Filed book) {ops : List (BookOp V)}
    (h : (kind.bookAfter book ops).mapObjects.lookup hash = none) :
    book.mapObjects.lookup hash = none := by
  by_contra hknown
  have hsome := isSome_bookAfter_mapObjects hfiled ops (Option.isSome_iff_ne_none.mpr hknown)
  rw [h] at hsome
  exact absurd hsome (by simp)

theorem filed_bookAfter (hfiled : kind.Filed book) (ops : List (BookOp V)) :
    kind.Filed (kind.bookAfter book ops) := by
  induction ops generalizing book with
  | nil => exact hfiled
  | cons op ops ih => exact ih (filed_applyOp hfiled op)

/-- The synced vote that came last, or what was there before. -/
def lastSynced (votes : List (VoteEnv × V)) (before : Option V) : Option V :=
  ((votes.filter fun x => x.1.fSynced).getLast?.map Prod.snd).or before

theorem lastSynced_cons (x : VoteEnv × V) (xs : List (VoteEnv × V)) (before : Option V) :
    lastSynced (x :: xs) before = lastSynced xs (if x.1.fSynced then some x.2 else before) := by
  unfold lastSynced
  cases hx : x.1.fSynced with
  | false => rw [List.filter_cons_of_neg (by simp [hx])]; rfl
  | true =>
    rw [List.filter_cons_of_pos (by simpa using hx), List.getLast?_cons]
    cases (xs.filter fun x => x.1.fSynced).getLast? <;> rfl

/--
**What is parked for an unknown object**: the last of the votes for it that came while the
node was synced.
-/
theorem lookup_bookAfter_mapOrphanVotes (hfiled : kind.Filed book) {ops : List (BookOp V)}
    (hunknown : (kind.bookAfter book ops).mapObjects.lookup hash = none) :
    (kind.bookAfter book ops).mapOrphanVotes.lookup hash =
      lastSynced (kind.votesFor hash (seenIn book) (delivered ops))
        (book.mapOrphanVotes.lookup hash) := by
  induction ops generalizing book with
  | nil => rfl
  | cons op ops ih =>
    have hbook := unknown_of_bookAfter hfiled hunknown
    have hrest := ih (filed_applyOp hfiled op) hunknown
    refine hrest.trans ?_
    cases op with
    | vote env vote =>
      show lastSynced (kind.votesFor hash (seenIn (kind.processVote env book vote))
        (delivered ops)) ((kind.processVote env book vote).mapOrphanVotes.lookup hash) =
        lastSynced (kind.votesFor hash (seenIn book) ((env, vote) :: delivered ops)) _
      rw [votesFor_cons]
      by_cases hnew : (kind.isListed (env, vote) && !seenIn book (kind.getHash vote)) = true
      · rw [if_pos hnew, seenIn_processVote env book vote (Bool.and_eq_true_iff.mp hnew).1]
        by_cases hvote : kind.signatureValid env vote = true ∧ hash = kind.objectHash vote
        · -- the vote is one of those for the object: it is parked if the node is synced
          obtain ⟨hsigned, rfl⟩ := hvote
          rw [if_pos ⟨hsigned, rfl⟩, List.singleton_append, lastSynced_cons,
            lookup_processVote_mapOrphanVotes]
          congr 1
          simp only [hnew, hsigned, hbook, true_and, and_true]
        · rw [if_neg hvote, List.nil_append, lookup_processVote_mapOrphanVotes,
            if_neg fun h => hvote ⟨h.1.2, h.2.2⟩]
      · -- a vote that is seen, or of nobody in the list, is dropped
        rw [if_neg hnew]
        have hsame : kind.processVote env book vote = book := by
          rcases processVote_cases kind env book vote with ⟨he, -⟩ | ⟨h, -⟩
          · exact he
          · exact absurd h hnew
        rw [hsame]
    | object fActive fCollateral fValid added =>
      show lastSynced (kind.votesFor hash
          (seenIn (book.processObject fActive fCollateral fValid added).1) (delivered ops))
        ((book.processObject fActive fCollateral fValid added).1.mapOrphanVotes.lookup hash) = _
      rw [processObject_mapOrphanVotes]
      unfold seenIn
      rw [processObject_mapSeenVotes]
      rfl
    | check env =>
      have horphan : (kind.checkOrphanVotes env book).mapOrphanVotes.lookup hash =
          book.mapOrphanVotes.lookup hash := by
        refine (checkOrphanVotes_spec env hfiled hash).2.resolve_right fun h => ?_
        rw [hbook] at h
        exact absurd h.2 (by simp)
      show lastSynced (kind.votesFor hash (seenIn (kind.checkOrphanVotes env book))
        (delivered ops)) ((kind.checkOrphanVotes env book).mapOrphanVotes.lookup hash) = _
      rw [horphan]
      unfold seenIn
      rw [checkOrphanVotes_mapSeenVotes]
      rfl

/-! ## The object is added -/

theorem firstVotes_hash_ne (kind : VoteKind V) (seen : Uint256 → Bool)
    (votes : List (VoteEnv × V)) :
    (∀ x ∈ kind.firstVotes seen votes, seen (kind.getHash x.2) = false) ∧
      (kind.firstVotes seen votes).Pairwise fun x y => kind.getHash x.2 ≠ kind.getHash y.2 := by
  induction votes generalizing seen with
  | nil => exact ⟨by simp [firstVotes], List.Pairwise.nil⟩
  | cons x xs ih =>
    rw [firstVotes]
    split
    · rename_i hnew
      obtain ⟨hseen, hpair⟩ := ih fun hash => hash == kind.getHash x.2 || seen hash
      have hx : seen (kind.getHash x.2) = false := by
        simpa using (Bool.and_eq_true_iff.mp hnew).2
      have hrest : ∀ y ∈ kind.firstVotes (fun hash => hash == kind.getHash x.2 || seen hash) xs,
          kind.getHash y.2 ≠ kind.getHash x.2 ∧ seen (kind.getHash y.2) = false := by
        intro y hy
        simpa using hseen y hy
      cases kind.signatureValid x.1 x.2 with
      | false => exact ⟨fun y hy => (hrest y hy).2, hpair⟩
      | true =>
        refine ⟨fun y hy => ?_, List.pairwise_cons.mpr ⟨fun y hy => (hrest y hy).1.symm, hpair⟩⟩
        rcases List.mem_cons.mp hy with rfl | hy
        · exact hx
        · exact (hrest y hy).2
    · exact ih seen

theorem added_empty (kind : VoteKind V) (nNow : Int) (vote : V) : kind.added nNow ∅ vote =
      if kind.nTime vote ≤ nNow + 60 * 60 then
        (∅ : VoteMap V).insert (kind.prevoutHash vote) vote
      else ∅ := by
  unfold added
  split <;> rename_i hadd
  · rename_i m
    by_cases htime : kind.nTime vote ≤ nNow + 60 * 60
    · rw [addOrUpdateVote_of_accepts ⟨by simp, htime⟩] at hadd
      rw [if_pos htime, Except.ok.inj hadd]
    · obtain ⟨e, he⟩ := addOrUpdateVote_of_not_accepts kind (m := ∅) fun h => htime h.2
      rw [he] at hadd
      exact absurd hadd (by simp)
  · by_cases htime : kind.nTime vote ≤ nNow + 60 * 60
    · rw [addOrUpdateVote_of_accepts ⟨by simp, htime⟩] at hadd
      exact absurd hadd (by simp)
    · rw [if_neg htime]

theorem recorded_checkOrphanVotes (hfiled : kind.Filed book)
    (hunknown : book.mapObjects.lookup hash = none) (hvote : kind.objectHash vote = hash) :
    kind.Recorded (kind.checkOrphanVotes env (book.addObject true hash)) vote ↔
      book.mapOrphanVotes.lookup hash = some vote ∧ kind.nTime vote ≤ env.nNow + 60 * 60 := by
  have hadd : book.addObject true hash =
      { book with mapObjects := book.mapObjects.insert hash ∅ } := by
    unfold VoteBook.addObject
    rw [hunknown]
    rfl
  have hfiled' : kind.Filed { book with mapObjects := book.mapObjects.insert hash ∅ } := hfiled
  have hspec := (checkOrphanVotes_spec env hfiled' hash).1
  dsimp only at hspec
  rw [lookup_insert, if_pos rfl] at hspec
  unfold Recorded
  rw [hvote, hadd, hspec]
  cases book.mapOrphanVotes.lookup hash with
  | none => simp
  | some parked =>
    dsimp only
    rw [Option.map_some, added_empty]
    constructor
    · rintro ⟨m, hm, hlookup⟩
      obtain rfl := Option.some.inj hm
      split at hlookup
      · rename_i htime
        rcases Table.of_lookup_insert hlookup with ⟨-, rfl⟩ | ⟨-, hlookup⟩
        · exact ⟨rfl, htime⟩
        · simp at hlookup
      · simp at hlookup
    · rintro ⟨hparked, htime⟩
      obtain rfl := Option.some.inj hparked
      exact ⟨_, rfl, by rw [if_pos htime, lookup_insert, if_pos rfl]⟩

/--
**One orphan vote survives.** All the votes for an object are recorded once it is added
and the orphan votes are checked iff there was none, or one that was parked.
-/
theorem recorded_iff_noneOrOne (kind : VoteKind V) (env : VoteEnv) (ops : List (BookOp V))
    (hunknown : (kind.bookAfter {} ops).mapObjects.lookup hash = none) :
    (∀ x ∈ kind.votesFor hash (fun _ => false) (delivered ops), kind.Recorded
          (kind.checkOrphanVotes env ((kind.bookAfter {} ops).addObject true hash)) x.2) ↔
      kind.NoneOrOne env (kind.votesFor hash (fun _ => false) (delivered ops)) := by
  have hfiled : kind.Filed ({} : VoteBook V) := fun _ _ h => by simp at h
  have hparked := lookup_bookAfter_mapOrphanVotes hfiled hunknown
  have hpair := (firstVotes_hash_ne kind (fun _ => false) (delivered ops)).2.filter
    fun x => kind.objectHash x.2 == hash
  have hobj : ∀ x ∈ kind.votesFor hash (fun _ => false) (delivered ops),
      kind.objectHash x.2 = hash := fun x hx => by simpa using (List.mem_filter.mp hx).2
  have hrecorded : ∀ x ∈ kind.votesFor hash (fun _ => false) (delivered ops),
      (kind.Recorded (kind.checkOrphanVotes env ((kind.bookAfter {} ops).addObject true hash)) x.2 ↔
        lastSynced (kind.votesFor hash (fun _ => false) (delivered ops)) none = some x.2 ∧
          kind.nTime x.2 ≤ env.nNow + 60 * 60) := by
    intro x hx
    rw [recorded_checkOrphanVotes (filed_bookAfter hfiled ops) hunknown (hobj x hx), hparked]
    rfl
  rw [forall₂_congr hrecorded]
  change ((kind.votesFor hash (fun _ => false) (delivered ops)).Pairwise _) at hpair
  generalize kind.votesFor hash (fun _ => false) (delivered ops) = votes at hpair
  match votes, hpair with
  | [], _ => simp [NoneOrOne]
  | [x], _ =>
    rw [NoneOrOne, lastSynced_cons]
    cases hsynced : x.1.fSynced <;> simp [lastSynced]
  | x :: y :: rest, hpair =>
    -- only one vote is parked
    refine ⟨fun h => ?_, fun h => h.elim⟩
    have hx := (h x List.mem_cons_self).1
    have hy := (h y (List.mem_cons_of_mem _ List.mem_cons_self)).1
    have hsame : x.2 = y.2 := Option.some.inj (hx.symm.trans hy)
    have hne := (List.pairwise_cons.mp hpair).1 y List.mem_cons_self
    exact hne (congrArg kind.getHash hsame)

end VoteKind

namespace CBudgetManager

/--
**Orphan votes.** However the votes for an unknown proposal or finalized budget came, they
are all recorded once it is added and `CheckOrphanVotes` has run iff there was none, or
a single one, which came while the node was synced and is not too far ahead by then.
-/
theorem orphans_recorded_iff (H : BudgetHash) (run : List (VoteEnv × BudgetMessage))
    (env : VoteEnv) (hash : Uint256) :
    ((({} : CBudgetManager).after H run).proposals.mapObjects.lookup hash = none →
      ((∀ x ∈ (CBudgetVote.kind H).votesFor hash (fun _ => false) (mvotes run),
          (CBudgetVote.kind H).Recorded
            (((({} : CBudgetManager).after H run).addProposal true hash).checkOrphanVotes H
              env).proposals x.2) ↔
        (CBudgetVote.kind H).NoneOrOne env
          ((CBudgetVote.kind H).votesFor hash (fun _ => false) (mvotes run)))) ∧
    ((({} : CBudgetManager).after H run).finalizedBudgets.mapObjects.lookup hash = none →
      ((∀ x ∈ (CFinalizedBudgetVote.kind H).votesFor hash (fun _ => false) (fbvotes run),
          (CFinalizedBudgetVote.kind H).Recorded
            (((({} : CBudgetManager).after H run).addFinalizedBudget true hash).checkOrphanVotes H
              env).finalizedBudgets x.2) ↔
        (CFinalizedBudgetVote.kind H).NoneOrOne env
          ((CFinalizedBudgetVote.kind H).votesFor hash (fun _ => false) (fbvotes run)))) := by
  constructor
  · intro hunknown
    obtain ⟨ops, hops, hvotes⟩ := proposals_after H {} run
    rw [hops] at hunknown
    have hiff := VoteKind.recorded_iff_noneOrOne (CBudgetVote.kind H) env ops hunknown
    rw [hvotes] at hiff
    unfold checkOrphanVotes addProposal
    rw [hops]
    exact hiff
  · intro hunknown
    obtain ⟨ops, hops, hvotes⟩ := finalizedBudgets_after H {} run
    rw [hops] at hunknown
    have hiff := VoteKind.recorded_iff_noneOrOne (CFinalizedBudgetVote.kind H) env ops hunknown
    rw [hvotes] at hiff
    unfold checkOrphanVotes addFinalizedBudget
    rw [hops]
    exact hiff

def manyMasternodes : VoteEnv := { sampleEnv with find := fun _ => some [] }

/-- The vote of one of them for proposal 7, signed. -/
def voteOf (hash : Uint256) : CBudgetVote := ⟨⟨⟨hash, 0⟩, [], 0⟩, 7, 1, 1000, [1]⟩

/-- The only vote is recorded. -/
theorem orphans_recorded_iff_of_one : (CBudgetVote.kind sampleHash).Recorded
    (((({} : CBudgetManager).after sampleHash [(manyMasternodes, .mvote (voteOf 5))]).addProposal
      true 7).checkOrphanVotes sampleHash manyMasternodes).proposals (voteOf 5) :=
  ((orphans_recorded_iff sampleHash [(manyMasternodes, .mvote (voteOf 5))] manyMasternodes 7).1
    rfl).mpr ⟨rfl, by decide⟩ (manyMasternodes, voteOf 5) (List.mem_singleton.mpr rfl)

/-- Of the votes of two masternodes the first one is lost. -/
theorem orphan_lost :
    (CBudgetVote.kind sampleHash).signatureValid manyMasternodes (voteOf 5) = true ∧
      (CBudgetVote.kind sampleHash).signatureValid manyMasternodes (voteOf 6) = true ∧
      (CBudgetVote.kind sampleHash).prevoutHash (voteOf 5) ≠
        (CBudgetVote.kind sampleHash).prevoutHash (voteOf 6) ∧
      ¬ (CBudgetVote.kind sampleHash).Recorded
        (((({} : CBudgetManager).after sampleHash [(manyMasternodes, .mvote (voteOf 5)),
          (manyMasternodes, .mvote (voteOf 6))]).addProposal true 7).checkOrphanVotes sampleHash
            manyMasternodes).proposals (voteOf 5) := by
  refine ⟨by decide, by decide, by decide, fun ⟨m, hm, hvote⟩ => ?_⟩
  obtain rfl := Option.some.inj hm
  exact absurd hvote (by decide)

end CBudgetManager

end BitBlocks
