import Mathlib.Tactic.Abel
import BitBlocks.Validation.CheckQueue

/-!
# The verdict of the script checks

The counters of the queue are totals over its threads, and every check that was added is in
the queue, in somebody's batch, or dealt with. A failure is kept by the thread that saw it
until its next turn, and in `fAllOk` from then on: as long as neither tells of one, every
check that was run went well, and none was passed over. When `Wait` returns, no thread has a
batch, so `fAllOk` is the conjunction.
-/

namespace BitBlocks

variable {χ : Type} {n : Nat}

namespace LoopThread

/-- Whether the thread is in `Loop`, as a number. -/
def entered : LoopThread χ → Nat
  | .outside => 0
  | _ => 1

def idle : LoopThread χ → Nat
  | .waiting => 1
  | _ => 0

def nNow : LoopThread χ → Nat
  | .working _ nNow _ => nNow
  | _ => 0

def vChecks : LoopThread χ → List (Check χ)
  | .working vChecks _ _ => vChecks
  | _ => []

def fOk : LoopThread χ → Bool
  | .working _ _ fOk => fOk
  | _ => true

/-- The checks left in the thread's batch, in no order. -/
def jobs (p : LoopThread χ) : Multiset (Check χ) := p.vChecks

/-- A batch is never empty when it is taken. -/
def Busy : LoopThread χ → Prop
  | .working _ nNow _ => 1 ≤ nNow
  | _ => True

theorem Busy.rest {p : LoopThread χ} (h : p.Busy) (h0 : p.nNow = 0) :
    p.entered = p.idle ∧ p.fOk = true := by
  cases p with
  | outside => exact ⟨rfl, rfl⟩
  | waiting => exact ⟨rfl, rfl⟩
  | working vChecks nNow fOk =>
    have hpos : 1 ≤ nNow := h
    have hzero : nNow = 0 := h0
    omega

end LoopThread

namespace CheckRun

variable {ok : χ → Bool} {s s' : CheckRun χ n} {t : Option (Fin n)} {q : CCheckQueue χ}

/-- No failure is known of: not in `fAllOk`, and not to a thread at its batch. -/
def NoFailure (s : CheckRun χ n) : Prop := s.pqueue.fAllOk = true ∧ ∀ t, (s.threads t).fOk = true

/-- What holds in every reachable state. -/
structure Sound (ok : χ → Bool) (s : CheckRun χ n) : Prop where
  nTotal : s.pqueue.nTotal = Workers.total LoopThread.entered s.threads
  nIdle : s.pqueue.nIdle = Workers.total LoopThread.idle s.threads
  nTodo : s.pqueue.nTodo = s.pqueue.queue.length + Workers.total LoopThread.nNow s.threads
  busy : ∀ t, (s.threads t).Busy
  fits : ∀ t, (s.threads t).vChecks.length ≤ (s.threads t).nNow
  jobs : (s.pqueue.queue : Multiset (Check χ)) + Workers.total LoopThread.jobs s.threads +
    (s.executed ++ s.skipped : List (Check χ)) = s.added
  bounded : s.pqueue.nTodo ≤ s.added.length
  distinct : ((s.past ++ s.added).map Check.number).Nodup
  below : ∀ c ∈ s.past ++ s.added, c.number < s.nAdded
  verdict : s.NoFailure ↔ ∀ c ∈ s.executed, ok c.check = true
  skipped : s.skipped ≠ [] → ∃ c ∈ s.executed, ok c.check = false
  fQuit : s.pqueue.fQuit = false

/-! ## The threads -/

/-- Thread `t` holds the mutex, and has cleaned up: the queue is `q`. -/
structure Locked (s : CheckRun χ n) (t : Option (Fin n)) (q : CCheckQueue χ) : Prop where
  nTotal : q.nTotal + (s.threads t).entered = s.pqueue.nTotal + 1
  nIdle : q.nIdle + (s.threads t).idle = s.pqueue.nIdle
  nTodo : q.nTodo + (s.threads t).nNow = s.pqueue.nTodo
  queue : q.queue = s.pqueue.queue
  fAllOk : q.fAllOk = true ↔ s.pqueue.fAllOk = true ∧ (s.threads t).fOk = true
  vChecks : (s.threads t).vChecks = []
  fQuit : q.fQuit = s.pqueue.fQuit

theorem Sound.locked_outside (hp : s.threads t = .outside) :
    s.Locked t (s.pqueue.cleanUp 0 true) := by
  refine ⟨?_, ?_, ?_, rfl, ?_, ?_, rfl⟩ <;> rw [hp]
  · rfl
  · rfl
  · rfl
  · exact (and_iff_left rfl).symm
  · rfl

theorem Sound.locked_working (h : Sound ok s) {nNow : Nat} {fOk : Bool}
    (hp : s.threads t = .working [] nNow fOk) : s.Locked t (s.pqueue.cleanUp nNow fOk) := by
  have hpos : 1 ≤ nNow := by
    have hbusy := h.busy t
    rwa [hp] at hbusy
  have hle : nNow ≤ s.pqueue.nTodo := by
    have htodo := h.nTodo
    have htot := Workers.total_eq LoopThread.nNow s.threads t
    rw [hp] at htot
    have hval : Workers.total LoopThread.nNow s.threads =
      nNow + Workers.others LoopThread.nNow s.threads t := htot
    omega
  have hne : nNow ≠ 0 := by omega
  rw [CCheckQueue.cleanUp, if_pos hne]
  refine ⟨?_, ?_, ?_, rfl, ?_, ?_, rfl⟩ <;> rw [hp]
  · rfl
  · rfl
  · exact Nat.sub_add_cancel hle
  · exact Bool.and_eq_true_iff
  · rfl

theorem Sound.locked_waiting (h : Sound ok s) (hp : s.threads t = .waiting) :
    s.Locked t { s.pqueue with nIdle := s.pqueue.nIdle - 1 } := by
  have hle : 1 ≤ s.pqueue.nIdle := by
    have htot := Workers.total_eq LoopThread.idle s.threads t
    rw [hp] at htot
    have hval : Workers.total LoopThread.idle s.threads =
      1 + Workers.others LoopThread.idle s.threads t := htot
    have hidle := h.nIdle
    omega
  refine ⟨?_, ?_, ?_, rfl, ?_, ?_, rfl⟩ <;> rw [hp]
  · rfl
  · exact Nat.sub_add_cancel hle
  · rfl
  · exact (and_iff_left rfl).symm
  · rfl

/-- **A thread lets go of the mutex**: it holds what the queue gave up. -/
theorem Sound.unlock (h : Sound ok s) (hl : s.Locked t q) {p : LoopThread χ} {q' : CCheckQueue χ}
    (hTotal : q'.nTotal + 1 = q.nTotal + p.entered) (hIdle : q'.nIdle = q.nIdle + p.idle)
    (hTodo : q'.nTodo = q.nTodo) (hlen : q.queue.length = q'.queue.length + p.nNow)
    (hjobs : (q'.queue : Multiset (Check χ)) + p.vChecks = q.queue) (hbusy : p.Busy)
    (hfits : p.vChecks.length ≤ p.nNow) (hAllOk : q'.fAllOk = q.fAllOk)
    (hfOk : q.fAllOk = true → p.fOk = true) (hQuit : q'.fQuit = q.fQuit) :
    Sound ok { s with pqueue := q', threads := Function.update s.threads t p } where
  nTotal := by
    have hs := h.nTotal
    have hlock := hl.nTotal
    rw [Workers.total_eq _ _ t] at hs
    show q'.nTotal = Workers.total LoopThread.entered (Function.update s.threads t p)
    rw [Workers.total_update]
    omega
  nIdle := by
    have hs := h.nIdle
    have hlock := hl.nIdle
    rw [Workers.total_eq _ _ t] at hs
    show q'.nIdle = Workers.total LoopThread.idle (Function.update s.threads t p)
    rw [Workers.total_update]
    omega
  nTodo := by
    have hs := h.nTodo
    have hlock := hl.nTodo
    have hqueue := congrArg List.length hl.queue
    rw [Workers.total_eq _ _ t] at hs
    show q'.nTodo = q'.queue.length + Workers.total LoopThread.nNow (Function.update s.threads t p)
    rw [Workers.total_update]
    omega
  busy := Workers.forall_update.mpr ⟨hbusy, fun u _ => h.busy u⟩
  fits := (Workers.forall_update
    (P := fun p : LoopThread χ => p.vChecks.length ≤ p.nNow)).mpr ⟨hfits, fun u _ => h.fits u⟩
  jobs := by
    have hs := h.jobs
    have hnone : (s.threads t).jobs = 0 := by
      rw [LoopThread.jobs, hl.vChecks]
      rfl
    rw [Workers.total_eq _ _ t, hnone, zero_add, ← hl.queue, ← hjobs] at hs
    show (q'.queue : Multiset (Check χ)) +
      Workers.total LoopThread.jobs (Function.update s.threads t p) + _ = _
    rw [Workers.total_update, ← hs, ← add_assoc]
    rfl
  bounded := by
    have hs := h.bounded
    have hlock := hl.nTodo
    show q'.nTodo ≤ s.added.length
    omega
  distinct := h.distinct
  below := h.below
  verdict := by
    rw [← h.verdict]
    have hafter : (∀ u, (Function.update s.threads t p u).fOk = true) ↔ _ :=
      Workers.forall_update (P := fun p : LoopThread χ => p.fOk = true)
    have hbefore : (∀ u, (s.threads u).fOk = true) ↔ _ :=
      Workers.forall_split (P := fun p : LoopThread χ => p.fOk = true) s.threads t
    rw [NoFailure, NoFailure, hafter, hbefore]
    show q'.fAllOk = true ∧ _ ↔ _
    rw [hAllOk, hl.fAllOk]
    constructor
    · intro ⟨⟨hall, hmine⟩, _, hothers⟩
      exact ⟨hall, hmine, hothers⟩
    · intro ⟨hall, hmine, hothers⟩
      exact ⟨⟨hall, hmine⟩, hfOk (hl.fAllOk.mpr ⟨hall, hmine⟩), hothers⟩
  skipped := h.skipped
  fQuit := hQuit.trans (hl.fQuit.trans h.fQuit)

/-! ## What `Wait` returns -/

/-- What is known when `Wait` returns `fRet`, after the checks `added` since it last did. -/
structure Waited (ok : χ → Bool) (added : List (Check χ)) (s' : CheckRun χ n) (fRet : Bool) :
    Prop where
  nTodo : s'.pqueue.nTodo = 0
  queue : s'.pqueue.queue = []
  fRet : fRet = true ↔ ∀ c ∈ added, ok c.check = true
  executed : ∀ c ∈ added, c ∉ s'.past → ∃ d ∈ added, d ∈ s'.past ∧ ok d.check = false
  fAllOk : s'.pqueue.fAllOk = true
  idle : s'.pqueue.nTotal = s'.pqueue.nIdle

/-- **With nothing left to do no thread has a batch**, and every check is dealt with. -/
theorem Sound.nothing_left (h : Sound ok s) (h0 : s.pqueue.nTodo = 0) :
    s.pqueue.queue = [] ∧ (∀ t, (s.threads t).nNow = 0) ∧
      Workers.total LoopThread.jobs s.threads = 0 ∧
      ((s.executed ++ s.skipped : List (Check χ)) : Multiset (Check χ)) = s.added := by
  have htodo := h.nTodo
  have hqueue : s.pqueue.queue = [] := List.eq_nil_of_length_eq_zero (by omega)
  have hnone : ∀ t, (s.threads t).nNow = 0 :=
    Workers.eq_zero_of_total (by omega : Workers.total LoopThread.nNow s.threads = 0)
  have hjobs : Workers.total LoopThread.jobs s.threads = 0 := by
    refine Workers.total_eq_zero _ fun t => ?_
    have hfits := h.fits t
    rw [hnone t] at hfits
    rw [LoopThread.jobs, List.eq_nil_of_length_eq_zero (Nat.le_zero.mp hfits)]
    rfl
  refine ⟨hqueue, hnone, hjobs, ?_⟩
  have hs := h.jobs
  rw [hqueue, hjobs] at hs
  simpa using hs

theorem total_idle {threads : Option (Fin n) → LoopThread χ} (hbusy : ∀ t, (threads t).Busy)
    (h0 : ∀ t, (threads t).nNow = 0) :
    Workers.total LoopThread.entered threads = Workers.total LoopThread.idle threads :=
  Finset.sum_congr rfl fun t _ => ((hbusy t).rest (h0 t)).1

/-- **A queue whose checks have been waited for is idle.** -/
theorem Sound.isIdle (h : Sound ok s) (hnone : s.added = []) : s.pqueue.isIdle = true := by
  have h0 : s.pqueue.nTodo = 0 := by
    have hbounded := h.bounded
    rw [hnone] at hbounded
    exact Nat.le_zero.mp hbounded
  obtain ⟨hqueue, hnow, -, hjobs⟩ := h.nothing_left h0
  have hexec : s.executed = [] := by
    rw [hnone] at hjobs
    have hnil := Multiset.coe_eq_coe.mp hjobs
    exact (List.append_eq_nil_iff.mp hnil.eq_nil).1
  have hok : s.pqueue.fAllOk = true := by
    refine (h.verdict.mpr ?_).1
    rw [hexec]
    simp
  have hidle : s.pqueue.nTotal = s.pqueue.nIdle := by
    rw [h.nTotal, h.nIdle]
    exact total_idle h.busy hnow
  simp [CCheckQueue.isIdle, hidle, h0, hok]

theorem Sound.executed_le (h : Sound ok s) :
    (s.executed : Multiset (Check χ)) ≤ (s.added : Multiset (Check χ)) := by
  rw [← h.jobs, ← Multiset.coe_add, ← add_assoc]
  exact (Multiset.le_add_left _ _).trans (Multiset.le_add_right _ _)

/-- **No check is run twice.** -/
theorem Sound.once (h : Sound ok s) : ((s.past ++ s.executed).map Check.number).Nodup := by
  have hle : ((s.past ++ s.executed : List (Check χ)) : Multiset (Check χ)) ≤
      (s.past ++ s.added : List (Check χ)) := by
    rw [← Multiset.coe_add, ← Multiset.coe_add]
    exact add_le_add_right h.executed_le _
  exact Multiset.coe_nodup.mp (Multiset.nodup_of_le (Multiset.map_le_map hle) h.distinct)

theorem nNow_le (h : q.queue ≠ []) : 1 ≤ q.nNow ∧ q.nNow ≤ q.queue.length := by
  have hpos : 0 < q.queue.length := List.length_pos_iff.mpr h
  have hdiv : q.queue.length / (q.nTotal + q.nIdle + 1) ≤ q.queue.length := Nat.div_le_self _ _
  rw [CCheckQueue.nNow]
  omega

theorem Sound.takes (h : Sound ok s) (hl : s.Locked t q) (hne : q.queue ≠ []) :
    Sound ok { s with
      pqueue := { q with queue := q.queue.take (q.queue.length - q.nNow) }
      threads := Function.update s.threads t
        (.working (q.queue.drop (q.queue.length - q.nNow)).reverse q.nNow q.fAllOk) } := by
  obtain ⟨hpos, hle⟩ := nNow_le hne
  have hdrop : (q.queue.drop (q.queue.length - q.nNow)).length = q.nNow := by
    rw [List.length_drop]
    omega
  refine h.unlock hl rfl rfl rfl ?_ ?_ hpos ?_ rfl (fun hok => hok) rfl
  · show q.queue.length = (q.queue.take (q.queue.length - q.nNow)).length + q.nNow
    rw [List.length_take]
    omega
  · show ((q.queue.take (q.queue.length - q.nNow) : List (Check χ)) : Multiset (Check χ)) +
      ((q.queue.drop (q.queue.length - q.nNow)).reverse : List (Check χ)) = q.queue
    rw [Multiset.coe_reverse, Multiset.coe_add, List.take_append_drop]
  · show (q.queue.drop (q.queue.length - q.nNow)).reverse.length ≤ q.nNow
    rw [List.length_reverse, hdrop]

theorem Sound.waits (h : Sound ok s) (hl : s.Locked t q) :
    Sound ok { s with
      pqueue := { q with nIdle := q.nIdle + 1 }
      threads := Function.update s.threads t .waiting } :=
  h.unlock hl rfl rfl rfl rfl (add_zero _) trivial le_rfl rfl (fun _ => rfl) rfl

theorem Sound.leaves (h : Sound ok s) (hl : s.Locked t q) (hone : 1 ≤ q.nTotal) :
    Sound ok { s with
      pqueue := { q with nTotal := q.nTotal - 1 }
      threads := Function.update s.threads t .outside } :=
  h.unlock hl (Nat.sub_add_cancel hone) rfl rfl rfl (add_zero _) trivial le_rfl rfl
    (fun _ => rfl) rfl

/-- **The master leaves with the verdict**, and the next checks start afresh. -/
theorem Sound.returns (h : Sound ok s) (h0 : s.pqueue.nTodo = 0) :
    let s' := { s with
      pqueue := { s.pqueue with fAllOk := true }
      added := [], executed := [], skipped := [], past := s.past ++ s.executed }
    Sound ok s' ∧ Waited ok s.added s' s.pqueue.fAllOk := by
  obtain ⟨hqueue, hnow, hnil, hjobs⟩ := h.nothing_left h0
  have hidle := total_idle h.busy hnow
  have hmem : ∀ c, c ∈ s.added ↔ c ∈ s.executed ∨ c ∈ s.skipped := by
    intro c
    rw [← Multiset.mem_coe, ← hjobs, Multiset.mem_coe, List.mem_append]
  have hfOk : ∀ t, (s.threads t).fOk = true := fun t => ((h.busy t).rest (hnow t)).2
  have hverdict : s.pqueue.fAllOk = true ↔ ∀ c ∈ s.executed, ok c.check = true := by
    rw [← h.verdict]
    exact (and_iff_left hfOk).symm
  have hrun : ∀ c ∈ s.added, c ∉ s.executed → ∃ d ∈ s.executed, ok d.check = false := by
    intro c hc hnot
    refine h.skipped (List.ne_nil_of_mem (a := c) ?_)
    exact ((hmem c).mp hc).resolve_left hnot
  refine ⟨⟨h.nTotal, h.nIdle, h.nTodo, h.busy, h.fits, ?_, h0.le, ?_, ?_, ?_, ?_, h.fQuit⟩, h0,
    hqueue,
    ?_, ?_, rfl, ?_⟩
  · show (s.pqueue.queue : Multiset (Check χ)) + Workers.total LoopThread.jobs s.threads + _ = _
    rw [hqueue, hnil]
    rfl
  · show ((s.past ++ s.executed ++ []).map Check.number).Nodup
    rw [List.append_nil]
    exact h.once
  · intro c hc
    rw [List.append_nil] at hc
    refine h.below c (List.mem_append.mpr ?_)
    rcases List.mem_append.mp hc with hc | hc
    · exact Or.inl hc
    · exact Or.inr ((hmem c).mpr (Or.inl hc))
  · exact ⟨fun _ c hc => absurd hc (List.not_mem_nil), fun _ => ⟨rfl, hfOk⟩⟩
  · intro hne
    exact absurd rfl hne
  · rw [hverdict]
    constructor
    · intro hall c hc
      by_contra hbad
      obtain ⟨d, hd, hfail⟩ := hrun c hc fun hexec => hbad (hall c hexec)
      rw [hall d hd] at hfail
      cases hfail
    · intro hall c hc
      exact hall c ((hmem c).mpr (Or.inl hc))
  · intro c hc hnot
    have hexec : c ∉ s.executed := fun hin => hnot (List.mem_append_right _ hin)
    obtain ⟨d, hd, hfail⟩ := hrun c hc hexec
    exact ⟨d, (hmem d).mpr (Or.inl hd), List.mem_append_right _ hd, hfail⟩
  · show s.pqueue.nTotal = s.pqueue.nIdle
    rw [h.nTotal, h.nIdle]
    exact hidle

/-- **A turn** of the loop, by a thread that holds the mutex. -/
theorem Sound.turn (h : Sound ok s) (hl : s.Locked t q) : Sound ok (s.turn t q).1 ∧
      ∀ fRet, (s.turn t q).2 = .wait fRet → Waited ok s.added (s.turn t q).1 fRet := by
  rw [CheckRun.turn, CCheckQueue.turn]
  by_cases hempty : q.queue = []
  · rw [if_pos hempty]
    by_cases hdone : ((t.isNone || q.fQuit) && q.nTodo == 0) = true
    · -- only the master leaves, since nobody asks the workers to quit
      have hquit : q.fQuit = false := hl.fQuit.trans h.fQuit
      obtain ⟨hmaster, h0⟩ : t.isNone = true ∧ q.nTodo = 0 := by
        simpa [hquit] using hdone
      have hone : 1 ≤ q.nTotal := by
        have hlock := hl.nTotal
        have htot := Workers.total_eq LoopThread.entered s.threads t
        have hs := h.nTotal
        omega
      obtain ⟨hsound, hwaited⟩ := (h.leaves hl hone).returns h0
      rw [if_pos hdone]
      dsimp only
      rw [if_pos hmaster, if_pos hmaster]
      refine ⟨hsound, fun fRet hret => ?_⟩
      cases hret
      exact hwaited
    · rw [if_neg hdone]
      exact ⟨h.waits hl, fun fRet hret => by cases hret⟩
  · rw [if_neg hempty]
    exact ⟨h.takes hl hempty, fun fRet hret => by cases hret⟩

/-! ## The other steps -/

theorem numbered_map (k : Nat) (vChecks : List χ) :
    (numbered k vChecks).map Check.number = List.range' k vChecks.length := by
  rw [numbered, List.map_map]
  exact List.zipIdx_map_snd k vChecks

/-- **Adding checks.** -/
theorem Sound.add (h : Sound ok s) (vChecks : List χ) :
    Sound ok { s with
      pqueue := s.pqueue.add (numbered s.nAdded vChecks)
      nAdded := s.nAdded + vChecks.length
      added := s.added ++ numbered s.nAdded vChecks } where
  nTotal := h.nTotal
  nIdle := h.nIdle
  nTodo := by
    have hs := h.nTodo
    simp only [CCheckQueue.add, List.length_append]
    omega
  busy := h.busy
  fits := h.fits
  jobs := by
    have hs := h.jobs
    simp only [CCheckQueue.add, ← Multiset.coe_add] at hs ⊢
    rw [← hs]
    abel
  bounded := by
    have hs := h.bounded
    simp only [CCheckQueue.add, List.length_append]
    omega
  distinct := by
    dsimp only
    rw [← List.append_assoc, List.map_append, List.nodup_append]
    refine ⟨h.distinct, ?_, fun a ha b hb hab => ?_⟩
    · rw [numbered_map]
      exact List.nodup_range'
    · obtain ⟨c, hc, rfl⟩ := List.mem_map.mp ha
      rw [numbered_map, List.mem_range'_1] at hb
      have hlt := h.below c hc
      omega
  below := by
    dsimp only
    intro c hc
    rw [← List.append_assoc, List.mem_append] at hc
    rcases hc with hc | hc
    · have hlt := h.below c hc
      omega
    · have hnum : c.number ∈ (numbered s.nAdded vChecks).map Check.number := List.mem_map_of_mem hc
      rw [numbered_map, List.mem_range'_1] at hnum
      exact hnum.2
  verdict := h.verdict
  skipped := h.skipped
  fQuit := h.fQuit

section execute

variable {c : Check χ} {vChecks : List (Check χ)} {nNow : Nat} {fOk : Bool}

/-- What does not depend on whether the check at the head of a batch is run. -/
theorem Sound.pass (h : Sound ok s) (hp : s.threads t = .working (c :: vChecks) nNow fOk)
    (fOk' : Bool) {executed skipped : List (Check χ)}
    (hjobs : ((executed ++ skipped : List (Check χ)) : Multiset (Check χ)) =
      c ::ₘ ((s.executed ++ s.skipped : List (Check χ)) : Multiset (Check χ)))
    (hverdict : (fOk' = true ∧ s.pqueue.fAllOk = true ∧ ∀ u, u ≠ t → (s.threads u).fOk = true) ↔
      ∀ d ∈ executed, ok d.check = true)
    (hskipped : skipped ≠ [] → ∃ d ∈ executed, ok d.check = false) :
    Sound ok { s with
      threads := Function.update s.threads t (.working vChecks nNow fOk')
      executed := executed
      skipped := skipped } where
  nTotal := by
    rw [h.nTotal]
    exact (Workers.total_update_eq LoopThread.entered (by rw [hp]; rfl)).symm
  nIdle := by
    rw [h.nIdle]
    exact (Workers.total_update_eq LoopThread.idle (by rw [hp]; rfl)).symm
  nTodo := by
    rw [h.nTodo]
    exact congrArg _ (Workers.total_update_eq LoopThread.nNow (by rw [hp]; rfl)).symm
  busy := by
    refine Workers.forall_update.mpr ⟨?_, fun u _ => h.busy u⟩
    have hbusy := h.busy t
    rwa [hp] at hbusy
  fits := by
    refine (Workers.forall_update
      (P := fun p : LoopThread χ => p.vChecks.length ≤ p.nNow)).mpr ⟨?_, fun u _ => h.fits u⟩
    have hfits := h.fits t
    rw [hp] at hfits
    exact (Nat.le_succ _).trans hfits
  jobs := by
    have hs := h.jobs
    have hhead : (s.threads t).jobs = c ::ₘ (vChecks : Multiset (Check χ)) := by
      rw [hp]
      rfl
    rw [Workers.total_eq _ _ t, hhead, ← Multiset.singleton_add] at hs
    show (s.pqueue.queue : Multiset (Check χ)) + Workers.total LoopThread.jobs
      (Function.update s.threads t (.working vChecks nNow fOk')) + _ = _
    rw [Workers.total_update, hjobs, ← Multiset.singleton_add, ← hs, LoopThread.jobs]
    dsimp only [LoopThread.vChecks]
    abel
  bounded := h.bounded
  distinct := h.distinct
  below := h.below
  verdict := by
    rw [← hverdict, NoFailure]
    have hafter : (∀ u, (Function.update s.threads t (.working vChecks nNow fOk') u).fOk = true) ↔
        fOk' = true ∧ ∀ u, u ≠ t → (s.threads u).fOk = true :=
      Workers.forall_update (P := fun p : LoopThread χ => p.fOk = true)
    rw [hafter]
    tauto
  skipped := hskipped
  fQuit := h.fQuit

/-- **The next check of a batch.** -/
theorem Sound.execute (h : Sound ok s) (hp : s.threads t = .working (c :: vChecks) nNow fOk) :
    Sound ok (s.execute ok t c vChecks nNow fOk) := by
  have hbefore : (∀ u, (s.threads u).fOk = true) ↔
      fOk = true ∧ ∀ u, u ≠ t → (s.threads u).fOk = true := by
    rw [Workers.forall_split (P := fun p : LoopThread χ => p.fOk = true) s.threads t, hp]
    rfl
  have hverdict := h.verdict
  rw [NoFailure, hbefore] at hverdict
  cases fOk with
  | true =>
    refine h.pass hp (ok c.check) ?_ ?_ ?_
    · rw [← Multiset.coe_add, ← Multiset.coe_add, ← Multiset.coe_add, ← Multiset.singleton_add,
        ← Multiset.coe_singleton]
      abel
    · rw [List.forall_mem_append, List.forall_mem_singleton, ← hverdict]
      tauto
    · intro hne
      obtain ⟨d, hd, hfail⟩ := h.skipped hne
      exact ⟨d, List.mem_append_left _ hd, hfail⟩
  | false =>
    -- the batch has seen a failure, or was taken after one
    have hfailed : ∃ d ∈ s.executed, ok d.check = false := by
      by_contra hnone
      have hall : ∀ d ∈ s.executed, ok d.check = true := by
        intro d hd
        by_contra hbad
        exact hnone ⟨d, hd, Bool.eq_false_iff.mpr hbad⟩
      have hok := (hverdict.mpr hall).2.1
      cases hok
    refine h.pass hp false ?_ ?_ fun _ => hfailed
    · rw [← Multiset.coe_add, ← Multiset.coe_add, ← Multiset.coe_add, ← Multiset.singleton_add,
        ← Multiset.coe_singleton]
      abel
    · rw [← hverdict]
      tauto

end execute

/-! ## Runs -/

/-- **One step keeps the accounts**, and `Wait` returns the conjunction. -/
theorem Sound.step (h : Sound ok s) {i : CheckStep χ n} {a : CheckAnswer}
    (hs : CheckRun.step ok s i = some (s', a)) :
    Sound ok s' ∧ ∀ fRet, a = .wait fRet → Waited ok s.added s' fRet := by
  cases i with
  | add vChecks =>
    rw [CheckRun.step] at hs
    split at hs
    · cases hs
      exact ⟨h.add vChecks, fun fRet hret => by cases hret⟩
    · cases hs
  | isIdle =>
    rw [CheckRun.step] at hs
    split at hs
    · cases hs
      exact ⟨h, fun fRet hret => by cases hret⟩
    · cases hs
  | lock t =>
    rw [CheckRun.step] at hs
    split at hs
    · rename_i hp
      have hturn := h.turn (Sound.locked_outside hp)
      rw [Option.some.inj hs] at hturn
      exact hturn
    · rename_i nNow fOk hp
      have hturn := h.turn (h.locked_working hp)
      rw [Option.some.inj hs] at hturn
      exact hturn
    · cases hs
  | wake t =>
    rw [CheckRun.step] at hs
    split at hs
    · rename_i hp
      have hturn := h.turn (h.locked_waiting hp)
      rw [Option.some.inj hs] at hturn
      exact hturn
    · cases hs
  | execute t =>
    rw [CheckRun.step] at hs
    split at hs
    · rename_i c vChecks nNow fOk hp
      cases hs
      exact ⟨h.execute hp, fun fRet hret => by cases hret⟩
    · cases hs

theorem sound_init (ok : χ → Bool) (nBatchSize : Nat) :
    Sound ok (init nBatchSize : CheckRun χ n) where
  nTotal := (Workers.total_eq_zero _ fun _ => rfl).symm
  nIdle := (Workers.total_eq_zero _ fun _ => rfl).symm
  nTodo := by
    have hnone : Workers.total LoopThread.nNow (init nBatchSize : CheckRun χ n).threads = 0 :=
      Workers.total_eq_zero _ fun _ => rfl
    rw [hnone]
    rfl
  busy _ := trivial
  fits _ := le_rfl
  jobs := by
    have hnone : Workers.total LoopThread.jobs (init nBatchSize : CheckRun χ n).threads = 0 :=
      Workers.total_eq_zero _ fun _ => rfl
    rw [hnone]
    rfl
  bounded := le_rfl
  distinct := List.nodup_nil
  below c hc := absurd hc List.not_mem_nil
  verdict := ⟨fun _ c hc => absurd hc List.not_mem_nil, fun _ => ⟨rfl, fun _ => rfl⟩⟩
  skipped hne := absurd rfl hne
  fQuit := rfl

/--
**The check queue returns the conjunction**, for every interleaving and every batch size: no
check is run twice, and one is passed over only if another, added since `Wait` last returned,
failed. When `Wait` returns nothing is left to do, and it returns whether all the checks added
since it last returned are good; from then on the queue is idle until more are added.
-/
theorem wait_returns_conjunction (ok : χ → Bool) {nBatchSize : Nat} {is : List (CheckStep χ n)}
    {as : List CheckAnswer} (hr : Machine.run (step ok) (init nBatchSize) is = some (s, as)) :
    ((s.past ++ s.executed).map Check.number).Nodup ∧
      (s.skipped ≠ [] → ∃ c ∈ s.added, c ∈ s.executed ∧ ok c.check = false) ∧
      (s.added = [] → s.pqueue.isIdle = true) ∧
      ∀ i s' fRet, step ok s i = some (s', .wait fRet) → Waited ok s.added s' fRet := by
  have h : Sound ok s := Machine.run_invariant
    (fun s i s' a hs hstep => (Sound.step hs hstep).1) (sound_init ok nBatchSize) hr
  refine ⟨h.once, fun hne => ?_, h.isIdle, fun i s' fRet hs => (h.step hs).2 fRet rfl⟩
  obtain ⟨c, hc, hfail⟩ := h.skipped hne
  exact ⟨c, Multiset.mem_coe.mp (Multiset.mem_of_le h.executed_le (Multiset.mem_coe.mpr hc)), hc,
    hfail⟩

/-- A worker and the master share three checks, of which the second fails. -/
def failedSteps : List (CheckStep Bool 1) :=
  [.lock (some 0), .add [true, false, true], .wake (some 0), .lock none, .execute (some 0),
    .execute none, .lock none, .execute none, .lock none, .lock (some 0)]

/-- The first of the three is passed over. -/
theorem wait_returns_conjunction_of_failed :
    ∃ s as, Machine.run (step id) (init 2) failedSteps = some (s, as) ∧
      s.skipped = [⟨0, true⟩] ∧ (∃ c ∈ s.added, c ∈ s.executed ∧ id c.check = false) ∧
      ∃ s', step id s (.wake none) = some (s', .wait false) ∧ Waited id s.added s' false := by
  have hr : Machine.run (step id) (init 2) failedSteps = _ := rfl
  refine ⟨_, _, hr, rfl, ?_, _, rfl, ?_⟩
  · exact (wait_returns_conjunction id hr).2.1 (List.cons_ne_nil _ _)
  · exact (wait_returns_conjunction id hr).2.2.2 (.wake none) _ _ rfl

end CheckRun

end BitBlocks
