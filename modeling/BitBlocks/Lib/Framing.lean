import Mathlib.Data.List.Basic

/-!
# Messages in a stream

A message is a header of a fixed length and data whose length the header announces. A
reader that takes one element at a time does not depend on how the stream was cut, since it
never sees a cut. A reader that takes blocks is compared with it block by block: up to the
end of a header, or of the data, a block is taken as a whole.
-/

namespace Framing

variable {β : Type}

/-- How long headers are, how much data they announce, and which ones are refused. -/
structure Format (β : Type) where
  headerSize : Nat
  size : List β → Nat
  refused : List β → Bool

/-- The messages read, and what there is of the next one. -/
structure Frames (β : Type) where
  done : List (List β × List β) := []
  head : List β := []
  body : List β := []
  /-- The header that is there was refused. -/
  failed : Bool := false

variable (F : Format β)

/-- The message is done as soon as all its data is there. -/
def settle (f : Frames β) : Frames β :=
  if f.body.length = F.size f.head then
    { f with done := f.done ++ [(f.head, f.body)], head := [], body := [] }
  else f

def endHead (f : Frames β) : Frames β :=
  if F.refused f.head then { f with failed := true } else settle F f

def feedOne (f : Frames β) (x : β) : Frames β :=
  if f.failed then f
  else if f.head.length < F.headerSize then
    if f.head.length + 1 < F.headerSize then { f with head := f.head ++ [x] }
    else endHead F { f with head := f.head ++ [x] }
  else settle F { f with body := f.body ++ [x] }

def feed (f : Frames β) (xs : List β) : Frames β := xs.foldl (feedOne F) f

variable {F} {f : Frames β} {xs : List β}

@[simp] theorem feed_nil : feed F f [] = f := rfl

theorem feed_append (xs ys : List β) : feed F f (xs ++ ys) = feed F (feed F f xs) ys :=
  List.foldl_append

theorem feed_of_failed (h : f.failed = true) (xs : List β) : feed F f xs = f := by
  induction xs with
  | nil => rfl
  | cons x xs ih =>
    rw [feed, List.foldl_cons, feedOne, if_pos h]
    exact ih

/-! ## Blocks -/

theorem feed_head (hf : f.failed = false) (h : f.head.length + xs.length < F.headerSize) :
    feed F f xs = { f with head := f.head ++ xs } := by
  induction xs generalizing f with
  | nil => rw [List.append_nil, feed_nil]
  | cons x xs ih =>
    rw [List.length_cons] at h
    rw [feed, List.foldl_cons, feedOne, if_neg (by simp [hf]), if_pos (by omega), if_pos (by omega)]
    refine (ih (f := { f with head := f.head ++ [x] }) hf ?_).trans ?_
    · rw [List.length_append, List.length_singleton]
      omega
    · rw [List.append_assoc]
      rfl

theorem feed_head_end (hf : f.failed = false) (hxs : xs ≠ [])
    (h : f.head.length + xs.length = F.headerSize) :
    feed F f xs = endHead F { f with head := f.head ++ xs } := by
  obtain ⟨ys, y, rfl⟩ := List.eq_nil_or_concat xs |>.resolve_left hxs
  simp only [List.concat_eq_append, List.length_append, List.length_singleton] at h ⊢
  rw [feed_append, feed_head hf (by omega), feed, List.foldl_cons, List.foldl_nil, feedOne,
    if_neg (by simp [hf])]
  simp only [List.length_append]
  rw [if_pos (by omega), if_neg (by omega), List.append_assoc]

theorem feed_body (hf : f.failed = false) (hhead : F.headerSize ≤ f.head.length)
    (h : f.body.length + xs.length < F.size f.head) :
    feed F f xs = { f with body := f.body ++ xs } := by
  induction xs generalizing f with
  | nil => rw [List.append_nil, feed_nil]
  | cons x xs ih =>
    rw [List.length_cons] at h
    have hlen : (f.body ++ [x]).length ≠ F.size f.head := by
      rw [List.length_append, List.length_singleton]
      omega
    rw [feed, List.foldl_cons, feedOne, if_neg (by simp [hf]), if_neg (by omega), settle,
      if_neg hlen]
    refine (ih (f := { f with body := f.body ++ [x] }) hf hhead ?_).trans ?_
    · show (f.body ++ [x]).length + xs.length < F.size f.head
      rw [List.length_append, List.length_singleton]
      omega
    · rw [List.append_assoc]
      rfl

theorem feed_body_end (hf : f.failed = false) (hhead : F.headerSize ≤ f.head.length) (hxs : xs ≠ [])
    (h : f.body.length + xs.length = F.size f.head) :
    feed F f xs =
      { f with done := f.done ++ [(f.head, f.body ++ xs)], head := [], body := [] } := by
  obtain ⟨ys, y, rfl⟩ := List.eq_nil_or_concat xs |>.resolve_left hxs
  simp only [List.concat_eq_append, List.length_append, List.length_singleton] at h ⊢
  rw [feed_append, feed_body hf hhead (by omega), feed, List.foldl_cons, List.foldl_nil, feedOne,
    if_neg (by simp [hf]), if_neg (by simpa using hhead), settle, if_pos]
  · rw [List.append_assoc]
  · rw [List.length_append, List.length_append, List.length_singleton]
    omega

/-! ## What was read -/

def Frames.read (f : Frames β) : List β := f.done.flatMap (fun m => m.1 ++ m.2) ++ f.head ++ f.body

theorem read_settle (F : Format β) (f : Frames β) : (settle F f).read = f.read := by
  unfold settle
  split
  · simp [Frames.read]
  · rfl

theorem read_endHead (F : Format β) (f : Frames β) : (endHead F f).read = f.read := by
  unfold endHead
  split
  · rfl
  · exact read_settle F f

def Frames.Ordered (F : Format β) (f : Frames β) : Prop :=
  f.head.length < F.headerSize → f.body = []

theorem ordered_feedOne (h : f.Ordered F) (x : β) : (feedOne F f x).Ordered F := by
  have hsettle : ∀ f : Frames β, f.Ordered F → (settle F f).Ordered F := by
    intro f hf
    unfold settle
    split
    · exact fun _ => rfl
    · exact hf
  unfold feedOne
  split_ifs with h1 h2 h3
  · exact h
  · exact fun _ => h h2
  · unfold endHead
    split
    · exact fun _ => h h2
    · exact hsettle _ fun _ => h h2
  · exact hsettle _ fun hlt => absurd hlt h2

theorem read_feedOne (h : f.Ordered F) (hf : f.failed = false) (x : β) :
    (feedOne F f x).read = f.read ++ [x] := by
  unfold feedOne
  rw [if_neg (by simp [hf])]
  split_ifs with h1 h2
  · simp [Frames.read, h h1]
  · rw [read_endHead]
    simp [Frames.read, h h1]
  · rw [read_settle]
    simp [Frames.read]

/-- **What was read is a prefix of the stream**, and all of it unless a header was refused. -/
theorem read_feed (h : f.Ordered F) (xs : List β) : (feed F f xs).read <+: f.read ++ xs ∧
      ((feed F f xs).failed = false → (feed F f xs).read = f.read ++ xs) := by
  induction xs generalizing f with
  | nil => simp
  | cons x xs ih =>
    cases hf : f.failed with
    | true =>
      rw [feed_of_failed hf]
      exact ⟨List.prefix_append _ _, fun h => absurd (hf.symm.trans h) (by simp)⟩
    | false =>
      have hnext := ih (ordered_feedOne h x)
      rw [read_feedOne h hf, List.append_assoc] at hnext
      exact hnext

end Framing
