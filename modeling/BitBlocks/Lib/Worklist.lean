import Mathlib.Data.List.Nodup
import Mathlib.Data.Set.Insert

/-!
# Work queues over a graph

A loop that empties a queue: a node that is no longer there is passed over, and one that is
there is taken away, and what it leads to and is still there is queued behind. However many
ways lead to a node, it is taken once, and the nodes taken are those that can be reached
from the first queue.
-/

namespace Worklist

variable {α : Type*}

/-- What can be reached from `start` inside `all`. -/
inductive Reach (E : α → α → Prop) (start all : Set α) : α → Prop
  | start {x : α} (h : x ∈ start) (hx : x ∈ all) : Reach E start all x
  | step {x y : α} (h : Reach E start all x) (hxy : E x y) (hy : y ∈ all) : Reach E start all y

/-- The loop with a queue, when `taken` have been taken of `all` and `rest` is left. -/
structure Inv (E : α → α → Prop) (start all rest : Set α) (queue taken : List α) : Prop where
  nodup : taken.Nodup
  parts : ∀ x, x ∈ rest ↔ x ∈ all ∧ x ∉ taken
  sound : ∀ x ∈ taken, Reach E start all x
  queued : ∀ x ∈ queue, x ∈ all → Reach E start all x
  starts : ∀ x ∈ start, x ∈ rest → x ∈ queue
  closed : ∀ x ∈ taken, ∀ y, E x y → y ∈ rest → y ∈ queue

variable {E : α → α → Prop} {start all rest : Set α} {queue taken : List α} {x : α}

theorem Inv.init (h : ∀ x ∈ all, x ∈ queue ↔ x ∈ start) : Inv E start all all queue [] where
  nodup := List.nodup_nil
  parts x := by simp
  sound x hx := absurd hx List.not_mem_nil
  queued x hx hall := .start ((h x hall).mp hx) hall
  starts x hx hall := (h x hall).mpr hx
  closed x hx := absurd hx List.not_mem_nil

theorem Inv.skip (h : Inv E start all rest (x :: queue) taken) (hx : x ∉ rest) :
    Inv E start all rest queue taken := by
  have hqueue : ∀ y ∈ rest, y ∈ x :: queue → y ∈ queue := by
    intro y hy hmem
    rcases List.mem_cons.mp hmem with rfl | hmem
    · exact absurd hy hx
    · exact hmem
  exact ⟨h.nodup, h.parts, h.sound, fun y hy => h.queued y (List.mem_cons_of_mem x hy),
    fun y hy hrest => hqueue y hrest (h.starts y hy hrest),
    fun z hz y hzy hrest => hqueue y hrest (h.closed z hz y hzy hrest)⟩

theorem Inv.take (h : Inv E start all rest (x :: queue) taken) (hx : x ∈ rest) {new : List α}
    (hnew : ∀ y ∈ new, E x y) (hall : ∀ y ∈ rest, E x y → y ∈ new) :
    Inv E start all (rest \ {x}) (queue ++ new) (taken ++ [x]) := by
  obtain ⟨hxall, hxtaken⟩ := (h.parts x).mp hx
  have hreach : Reach E start all x := h.queued x List.mem_cons_self hxall
  have hqueue : ∀ y, y ≠ x → y ∈ x :: queue → y ∈ queue ++ new := by
    intro y hne hmem
    rcases List.mem_cons.mp hmem with rfl | hmem
    · exact absurd rfl hne
    · exact List.mem_append_left new hmem
  refine ⟨?_, fun y => ?_, fun y hy => ?_, fun y hy hyall => ?_, fun y hy hrest => ?_,
    fun z hz y hzy hrest => ?_⟩
  · refine List.nodup_append.mpr ⟨h.nodup, List.nodup_singleton x, ?_⟩
    intro a ha b hb hab
    rw [hab, List.mem_singleton.mp hb] at ha
    exact hxtaken ha
  · rw [Set.mem_sdiff, h.parts, Set.mem_singleton_iff, List.mem_append, List.mem_singleton, not_or,
      and_assoc]
  · rcases List.mem_append.mp hy with hy | hy
    · exact h.sound y hy
    · rw [List.mem_singleton.mp hy]
      exact hreach
  · rcases List.mem_append.mp hy with hy | hy
    · exact h.queued y (List.mem_cons_of_mem x hy) hyall
    · exact .step hreach (hnew y hy) hyall
  · exact hqueue y hrest.2 (h.starts y hy hrest.1)
  · rcases List.mem_append.mp hz with hz | hz
    · exact hqueue y hrest.2 (h.closed z hz y hzy hrest.1)
    · rw [List.mem_singleton.mp hz] at hzy
      exact List.mem_append_right queue (hall y hrest.1 hzy)

/-- **The queue is empty**: what has been taken is what can be reached. -/
theorem Inv.done (h : Inv E start all rest [] taken) (x : α) : x ∈ taken ↔ Reach E start all x := by
  refine ⟨h.sound x, fun hx => ?_⟩
  induction hx with
  | start hs hall =>
    by_contra hnot
    exact absurd (h.starts _ hs ((h.parts _).mpr ⟨hall, hnot⟩)) List.not_mem_nil
  | step _ hxy hall ih =>
    by_contra hnot
    exact absurd (h.closed _ ih _ hxy ((h.parts _).mpr ⟨hall, hnot⟩)) List.not_mem_nil

end Worklist
