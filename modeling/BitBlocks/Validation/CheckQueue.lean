import Mathlib.Data.Fintype.Option
import BitBlocks.Lib.Machine
import BitBlocks.Lib.Totals

/-!
# The queue of script checks

Script checks go through a queue that a master fills and worker threads empty. Each thread
is in `Loop` or outside of it; in `Loop` it takes a batch with the mutex held, works on it
without, and accounts for it at the next turn, with the mutex held again. The master goes
through the same loop in `Wait`, and leaves it when nothing is left to do.

What is done with the mutex held is one step. So is each check, since only the thread that
holds a batch sees it. A thread blocked on its condition variable may wake at any time. The
counters are numbers without an end: none exceeds the number of checks or of threads.
-/

namespace BitBlocks

/-- A check that was added, with its number. -/
structure Check (χ : Type) where
  number : Nat
  check : χ
  deriving DecidableEq

/-- Where a thread is: not in `Loop`, blocked on its condition variable, or at its batch. -/
inductive LoopThread (χ : Type) where
  | outside
  | waiting
  /-- The checks of the batch that are left, its size, and whether all went well so far. -/
  | working (vChecks : List (Check χ)) (nNow : Nat) (fOk : Bool)

/-- The members of the queue; `queue` ends with the element that is taken first. -/
structure CCheckQueue (χ : Type) where
  queue : List (Check χ) := []
  nIdle : Nat := 0
  nTotal : Nat := 0
  fAllOk : Bool := true
  nTodo : Nat := 0
  fQuit : Bool := false
  nBatchSize : Nat

namespace CCheckQueue

variable {χ : Type}

/-- How many of the checks a thread takes. -/
def nNow (q : CCheckQueue χ) : Nat :=
  max 1 (min q.nBatchSize (q.queue.length / (q.nTotal + q.nIdle + 1)))

/-- The clean-up of the previous turn; a batch of none is the first turn. -/
def cleanUp (q : CCheckQueue χ) (nNow : Nat) (fOk : Bool) : CCheckQueue χ :=
  if nNow ≠ 0 then { q with fAllOk := q.fAllOk && fOk, nTodo := q.nTodo - nNow }
  else { q with nTotal := q.nTotal + 1 }

inductive Turn (χ : Type) where
  | returns (fRet : Bool)
  | waits
  | takes (vChecks : List (Check χ)) (nNow : Nat) (fOk : Bool)

/-- The rest of the critical section: leave, wait, or take a batch from the queue's end. -/
def turn (q : CCheckQueue χ) (fMaster : Bool) : CCheckQueue χ × Turn χ :=
  if q.queue = [] then
    if (fMaster || q.fQuit) && q.nTodo == 0 then
      ({ q with nTotal := q.nTotal - 1, fAllOk := if fMaster then true else q.fAllOk },
        .returns q.fAllOk)
    else ({ q with nIdle := q.nIdle + 1 }, .waits)
  else
    ({ q with queue := q.queue.take (q.queue.length - q.nNow) },
      .takes (q.queue.drop (q.queue.length - q.nNow)).reverse q.nNow q.fAllOk)

/-- `Add`. -/
def add (q : CCheckQueue χ) (vChecks : List (Check χ)) : CCheckQueue χ :=
  { q with queue := q.queue ++ vChecks, nTodo := q.nTodo + vChecks.length }

/-- `IsIdle`, which the constructor of `CCheckQueueControl` asserts. -/
def isIdle (q : CCheckQueue χ) : Bool := q.nTotal == q.nIdle && q.nTodo == 0 && q.fAllOk == true

end CCheckQueue

/--
The queue with its threads, the master being `none`. Of the checks added since `Wait` last
returned, `executed` were run and `skipped` were passed over; `past` were run before that.
-/
structure CheckRun (χ : Type) (n : Nat) where
  pqueue : CCheckQueue χ
  threads : Option (Fin n) → LoopThread χ := fun _ => .outside
  nAdded : Nat := 0
  added : List (Check χ) := []
  executed : List (Check χ) := []
  skipped : List (Check χ) := []
  past : List (Check χ) := []

/-- The steps: the master adds checks or asks whether the queue is idle, or a thread moves. -/
inductive CheckStep (χ : Type) (n : Nat) where
  | add (vChecks : List χ)
  | isIdle
  /-- The critical section, on entering `Loop` or with a batch worked off. -/
  | lock (t : Option (Fin n))
  /-- `cond.wait` returns, with the mutex. -/
  | wake (t : Option (Fin n))
  /-- The next check of a batch. -/
  | execute (t : Option (Fin n))

inductive CheckAnswer where
  | none
  | isIdle (fIdle : Bool)
  | wait (fRet : Bool)
  deriving DecidableEq

namespace CheckRun

variable {χ : Type} {n : Nat}

/-- The checks of one `Add`, numbered from `k`. -/
def numbered (k : Nat) (vChecks : List χ) : List (Check χ) :=
  (vChecks.zipIdx k).map fun p => ⟨p.2, p.1⟩

/-- Thread `t` goes through a turn with the queue as `q`. -/
def turn (s : CheckRun χ n) (t : Option (Fin n)) (q : CCheckQueue χ) : CheckRun χ n × CheckAnswer :=
  match q.turn t.isNone with
  | (q', .takes vChecks nNow fOk) =>
    ({ s with
        pqueue := q'
        threads := Function.update s.threads t (.working vChecks nNow fOk) }, .none)
  | (q', .waits) =>
    ({ s with pqueue := q', threads := Function.update s.threads t .waiting }, .none)
  | (q', .returns fRet) =>
    let s' := { s with pqueue := q', threads := Function.update s.threads t .outside }
    if t.isNone then
      ({ s' with added := [], executed := [], skipped := [], past := s.past ++ s.executed },
        .wait fRet)
    else (s', .none)

/-- A check is run only while the batch went well. -/
def execute (ok : χ → Bool) (s : CheckRun χ n) (t : Option (Fin n)) (c : Check χ)
    (vChecks : List (Check χ)) (nNow : Nat) (fOk : Bool) : CheckRun χ n :=
  if fOk then
    { s with
      threads := Function.update s.threads t (.working vChecks nNow (ok c.check))
      executed := s.executed ++ [c] }
  else
    { s with
      threads := Function.update s.threads t (.working vChecks nNow fOk)
      skipped := s.skipped ++ [c] }

/-- One step; `none` is one that cannot be taken. -/
def step (ok : χ → Bool) (s : CheckRun χ n) : CheckStep χ n → Option (CheckRun χ n × CheckAnswer)
  | .add vChecks =>
    match s.threads none with
    | .outside =>
      some ({ s with
        pqueue := s.pqueue.add (numbered s.nAdded vChecks)
        nAdded := s.nAdded + vChecks.length
        added := s.added ++ numbered s.nAdded vChecks }, .none)
    | _ => none
  | .isIdle =>
    match s.threads none with
    | .outside => some (s, .isIdle s.pqueue.isIdle)
    | _ => none
  | .lock t =>
    match s.threads t with
    | .outside => some (s.turn t (s.pqueue.cleanUp 0 true))
    | .working [] nNow fOk => some (s.turn t (s.pqueue.cleanUp nNow fOk))
    | _ => none
  | .wake t =>
    match s.threads t with
    | .waiting => some (s.turn t { s.pqueue with nIdle := s.pqueue.nIdle - 1 })
    | _ => none
  | .execute t =>
    match s.threads t with
    | .working (c :: vChecks) nNow fOk => some (s.execute ok t c vChecks nNow fOk, .none)
    | _ => none

/-- The queue as it is constructed, with no thread in it. -/
def init (nBatchSize : Nat) : CheckRun χ n := { pqueue := { nBatchSize } }

end CheckRun

end BitBlocks
