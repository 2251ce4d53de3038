import BitBlocks.Lib.Machine
import BitBlocks.Lib.Sorting
import BitBlocks.Net.Address

/-!
# The clocks of the peers (`timedata.h`, `timedata.cpp`)

Every peer tells its time once, and the node keeps how far the last 200 of them are
from its own clock. While their number is odd the median becomes the offset of the
adjusted time, unless it is 70 minutes or more away from zero.

The median lies where most of the samples lie, whatever the others are. But the test
of its distance takes the absolute value of the least number of 64 bits for a
negative one, so the offset is bounded just as long as most of the samples are never
that number.
-/

namespace BitBlocks

open Median

/-! ## `CMedianFilter` -/

/-- Median filter over a stream of values. -/
structure CMedianFilter (T : Type) [LE T] where
  vValues : List T
  vSorted : List T
  nSize : Nat
  perm : vSorted.Perm vValues
  sorted : vSorted.Pairwise (· ≤ ·)
  nonempty : vValues ≠ []

namespace CMedianFilter

section

variable {T : Type} [LE T] [DecidableLE T] [Std.IsLinearOrder T]

def create (size : Nat) (initial_value : T) : CMedianFilter T where
  vValues := [initial_value]
  vSorted := [initial_value]
  nSize := size
  perm := List.Perm.refl _
  sorted := List.pairwise_singleton _ _
  nonempty := List.cons_ne_nil _ _

def input (f : CMedianFilter T) (value : T) : CMedianFilter T :=
  let vValues := (if f.vValues.length = f.nSize then f.vValues.tail else f.vValues) ++ [value]
  { vValues
    vSorted := Sorting.sort vValues
    nSize := f.nSize
    perm := Sorting.sort_perm _
    sorted := Sorting.sorted_sort _
    nonempty := List.append_ne_nil_of_right_ne_nil _ (List.cons_ne_nil _ _) }

end

variable {T : Type} [LE T] (f : CMedianFilter T)

def size : Nat := f.vValues.length

theorem length_vSorted : f.vSorted.length = f.size := f.perm.length_eq

theorem half_lt (n : Nat) (hn : n ≤ f.vSorted.length / 2) : n < f.vSorted.length := by
  have hpos : 0 < f.vSorted.length := by
    rw [f.length_vSorted]
    exact List.length_pos_of_ne_nil f.nonempty
  omega

/-- The assertion that there is a value holds of every filter. -/
def median [Add T] [Div T] [OfNat T 2] : T :=
  let size := f.vSorted.length
  if size % 2 = 1 then f.vSorted.get ⟨size / 2, f.half_lt _ le_rfl⟩
  else
    (f.vSorted.get ⟨size / 2 - 1, f.half_lt _ (Nat.sub_le _ _)⟩ +
      f.vSorted.get ⟨size / 2, f.half_lt _ le_rfl⟩) / 2

theorem median_of_odd [Add T] [Div T] [OfNat T 2] (hodd : f.size % 2 = 1) :
    f.median = f.vSorted.get ⟨f.vSorted.length / 2, f.half_lt _ le_rfl⟩ := by
  rw [median, if_pos (f.length_vSorted ▸ hodd)]

end CMedianFilter

/-! ## `AddTimeData` -/

/-- In two's complement: the least number is its own. -/
def abs64 (n : Int64) : Int64 := if n ≥ 0 then n else -n

/-- What `timedata.cpp` keeps. -/
structure TimeData where
  nTimeOffset : Int64 := 0
  setKnown : List CNetAddr := []
  vTimeOffsets : CMedianFilter Int64 := CMedianFilter.create 200 0
  fDone : Bool := false
  strMiscWarning : String := ""

/-- A call of `AddTimeData`, with what `GetTime()` says then. -/
structure TimeCall where
  ip : CNetAddr
  nTime : Int64
  now : Int64

namespace TimeData

def strMessage : String :=
  "Warning: Please check that your computer's date and time are correct! " ++
    "If your clock is wrong BitBlocks Core will not work properly."

/-- The offset is too far away: nobody may have a time within 5 minutes of ours. -/
def warn (s : TimeData) (vSorted : List Int64) : TimeData :=
  if s.fDone then s
  else
    let fMatch := vSorted.any fun nOffset => nOffset != 0 && decide (abs64 nOffset < 5 * 60)
    if fMatch then s else { s with fDone := true, strMiscWarning := strMessage }

/-- The filter has an odd number of samples, and enough of them. -/
def Counts (f : CMedianFilter Int64) : Prop := f.size ≥ 5 ∧ f.size % 2 = 1

instance (f : CMedianFilter Int64) : Decidable (Counts f) :=
  inferInstanceAs (Decidable (f.size ≥ 5 ∧ f.size % 2 = 1))

def addTimeData (s : TimeData) (c : TimeCall) : TimeData :=
  let nOffsetSample := c.nTime - c.now
  -- ignore duplicates
  if s.setKnown.contains c.ip then s
  else
    let s := { s with
      setKnown := c.ip :: s.setKnown
      vTimeOffsets := s.vTimeOffsets.input nOffsetSample }
    if Counts s.vTimeOffsets then
      let nMedian := s.vTimeOffsets.median
      let vSorted := s.vTimeOffsets.vSorted
      -- only let other nodes change our time by so much
      if abs64 nMedian < 70 * 60 then { s with nTimeOffset := nMedian }
      else { s with nTimeOffset := 0 }.warn vSorted
    else s

/-- A node that has taken the calls in order. -/
def after (calls : List TimeCall) : TimeData := calls.foldl addTimeData {}

/-! ## The median -/

/-- The call is that of a new peer, and leaves an odd number of samples. -/
def Updates (s : TimeData) (c : TimeCall) : Prop :=
  c.ip ∉ s.setKnown ∧ Counts (s.vTimeOffsets.input (c.nTime - c.now))

/-- The samples in the filter when the median is taken. -/
def samples (s : TimeData) (c : TimeCall) : List Int64 :=
  (s.vTimeOffsets.input (c.nTime - c.now)).vValues

/-- The offset is set while most of the samples are the least number. -/
def Poisoned (s : TimeData) (c : TimeCall) : Prop :=
  s.Updates c ∧ MostOf (s.samples c) fun x => x == Int64.minValue

instance (s : TimeData) (c : TimeCall) : Decidable (s.Updates c) :=
  inferInstanceAs (Decidable (_ ∧ _))

instance (s : TimeData) (c : TimeCall) : Decidable (s.Poisoned c) :=
  inferInstanceAs (Decidable (_ ∧ _))

theorem abs64_lt_iff (n : Int64) :
    abs64 n < 70 * 60 ↔ |n.toInt| < 70 * 60 ∨ n = Int64.minValue := by
  have hbound : (70 * 60 : Int64).toInt = 70 * 60 := rfl
  have hleast : Int64.minValue.toInt = -2 ^ 63 := rfl
  have hlow := Int64.le_toInt n
  have hhigh := Int64.toInt_lt n
  rw [abs64, ← Int64.toInt_inj, hleast]
  split
  · rename_i hn
    have hpos : 0 ≤ n.toInt := Int64.le_iff_toInt_le.mp hn
    rw [Int64.lt_iff_toInt_lt, hbound, abs_of_nonneg hpos]
    omega
  · rename_i hn
    have hneg : n.toInt < 0 := by
      have h0 : (0 : Int64).toInt = 0 := rfl
      rw [ge_iff_le, Int64.le_iff_toInt_le, h0] at hn
      omega
    rw [Int64.lt_iff_toInt_lt, hbound, Int64.toInt_neg, abs_of_neg hneg]
    by_cases hmin : n.toInt = -2 ^ 63
    · rw [hmin]
      decide
    · rw [Int.bmod_eq_of_le (by omega) (by omega)]
      omega

variable {s : TimeData} {c : TimeCall}

theorem addTimeData_of_not_updates (h : ¬ s.Updates c) :
    (s.addTimeData c).nTimeOffset = s.nTimeOffset := by
  rw [addTimeData]
  dsimp only
  split
  · rfl
  · rename_i hnew
    rw [if_neg fun hcounts => h ⟨mt List.contains_iff_mem.mpr hnew, hcounts⟩]

theorem warn_nTimeOffset (s : TimeData) (vSorted : List Int64) :
    (s.warn vSorted).nTimeOffset = s.nTimeOffset := by
  rw [warn]
  split
  · rfl
  · dsimp only
    split <;> rfl

theorem warn_vTimeOffsets (s : TimeData) (vSorted : List Int64) :
    (s.warn vSorted).vTimeOffsets = s.vTimeOffsets := by
  rw [warn]
  split
  · rfl
  · dsimp only
    split <;> rfl

theorem addTimeData_of_updates (h : s.Updates c) : (s.addTimeData c).nTimeOffset =
      if abs64 (s.vTimeOffsets.input (c.nTime - c.now)).median < 70 * 60 then
        (s.vTimeOffsets.input (c.nTime - c.now)).median else 0 := by
  rw [addTimeData]
  dsimp only
  rw [if_neg (mt List.contains_iff_mem.mp h.1), if_pos h.2]
  split
  · rfl
  · rw [warn_nTimeOffset]

theorem addTimeData_vTimeOffsets (hnew : c.ip ∉ s.setKnown) :
    (s.addTimeData c).vTimeOffsets = s.vTimeOffsets.input (c.nTime - c.now) := by
  rw [addTimeData]
  dsimp only
  rw [if_neg (mt List.contains_iff_mem.mp hnew)]
  split
  · split
    · rfl
    · rw [warn_vTimeOffsets]
  · rfl

/-- **The median lies where most samples lie.** -/
theorem median_mem (f : CMedianFilter Int64) (hodd : f.size % 2 = 1) {a b : Int64}
    (hmost : MostOf f.vValues fun x => decide (a ≤ x) && decide (x ≤ b)) :
    a ≤ f.median ∧ f.median ≤ b := by
  rw [f.median_of_odd hodd]
  exact middle_mem f.sorted (f.length_vSorted ▸ hodd) ((mostOf_perm f.perm).mpr hmost)
    (f.half_lt _ le_rfl)

theorem median_eq_least_iff (f : CMedianFilter Int64) (hodd : f.size % 2 = 1) :
    f.median = Int64.minValue ↔ MostOf f.vValues fun x => x == Int64.minValue := by
  have hleast (x : Int64) : x ≤ Int64.minValue ↔ x = Int64.minValue :=
    ⟨fun h => Std.le_antisymm h (Int64.minValue_le x), fun h => h ▸ Std.le_refl _⟩
  have hsame : (fun x : Int64 => x == Int64.minValue) = fun x => decide (x ≤ Int64.minValue) :=
    funext fun x => by rw [Bool.eq_iff_iff, beq_iff_eq, decide_eq_true_eq, hleast]
  rw [hsame, ← mostOf_perm f.perm, ← middle_le_iff f.sorted (f.length_vSorted ▸ hodd)
    (f.half_lt _ le_rfl), f.median_of_odd hodd, hleast]
  rfl

/-! ## One call -/

/-- **A call keeps the offset bounded** just when most samples are not the least number. -/
theorem bounded_addTimeData_iff (hs : |s.nTimeOffset.toInt| < 70 * 60) :
    |(s.addTimeData c).nTimeOffset.toInt| < 70 * 60 ↔ ¬ s.Poisoned c := by
  by_cases h : s.Updates c
  · rw [addTimeData_of_updates h, Poisoned, samples, ← median_eq_least_iff _ h.2.2]
    have hleast : ¬ |Int64.minValue.toInt| < 70 * 60 := by decide
    split
    · rename_i hmedian
      rcases (abs64_lt_iff _).mp hmedian with hlt | hmin
      · refine iff_of_true hlt fun hp => hleast ?_
        rw [← hp.2]
        exact hlt
      · rw [hmin]
        exact iff_of_false hleast (not_not.mpr ⟨h, rfl⟩)
    · rename_i hmedian
      refine iff_of_true (by decide) fun hp => hmedian ?_
      exact (abs64_lt_iff _).mpr (Or.inr hp.2)
  · rw [addTimeData_of_not_updates h]
    exact iff_of_true hs fun hp => h hp.1

/-- **Where most samples lie, the offset goes**, or to zero. -/
theorem addTimeData_mem (h : (s.addTimeData c).nTimeOffset ≠ s.nTimeOffset) {a b : Int64}
    (hmost : MostOf (s.addTimeData c).vTimeOffsets.vValues fun x =>
      decide (a ≤ x) && decide (x ≤ b)) :
    (s.addTimeData c).nTimeOffset = 0 ∨
      (a ≤ (s.addTimeData c).nTimeOffset ∧ (s.addTimeData c).nTimeOffset ≤ b) := by
  have hupdates : s.Updates c := by
    by_contra hnot
    exact h (addTimeData_of_not_updates hnot)
  rw [addTimeData_vTimeOffsets hupdates.1] at hmost
  rw [addTimeData_of_updates hupdates]
  split
  · exact Or.inr (median_mem _ hupdates.2.2 hmost)
  · exact Or.inl rfl

/-! ## Runs -/

theorem after_concat (past : List TimeCall) (c : TimeCall) :
    after (past ++ [c]) = (after past).addTimeData c := List.foldl_concat ..

/-- **The offset is bounded, and where most samples are, exactly as long as no call finds most of
its samples to be the least number** of 64 bits. -/
theorem offset_bounded_iff (calls : List TimeCall) :
    ((∀ past, past <+: calls → |(after past).nTimeOffset.toInt| < 70 * 60) ∧
      ∀ past c, past ++ [c] <+: calls →
        (after (past ++ [c])).nTimeOffset ≠ (after past).nTimeOffset →
        ∀ a b, (MostOf (after (past ++ [c])).vTimeOffsets.vValues fun x =>
            decide (a ≤ x) && decide (x ≤ b)) →
          (after (past ++ [c])).nTimeOffset = 0 ∨
            (a ≤ (after (past ++ [c])).nTimeOffset ∧ (after (past ++ [c])).nTimeOffset ≤ b)) ↔
      ∀ past c, past ++ [c] <+: calls → ¬ (after past).Poisoned c := by
  have hbounded := Machine.always_iff (P := fun past => |(after past).nTimeOffset.toInt| < 70 * 60)
    (C := fun past c => ¬ (after past).Poisoned c) (by decide) calls fun past c _ hs => by
      rw [after_concat]
      exact bounded_addTimeData_iff hs
  rw [← hbounded, and_iff_left_iff_imp]
  intro _ past c _ hchanged a b hmost
  rw [after_concat] at hchanged hmost ⊢
  exact addTimeData_mem hchanged hmost

/-- Four peers whose clock is 2^63 seconds behind ours. -/
def leastTimes : List TimeCall := [[1], [2], [3], [4]].map fun ip =>
    { ip, nTime := Int64.minValue + 1600000000, now := 1600000000 }

/-- **Four peers move the clock by 2^63 seconds.** -/
theorem clock_is_moved : (after leastTimes).nTimeOffset = Int64.minValue ∧
    ¬ |(after leastTimes).nTimeOffset.toInt| < 70 * 60 := by
  have hfour : leastTimes = leastTimes.take 3 ++ [⟨[4], Int64.minValue + 1600000000, 1600000000⟩] :=
    rfl
  have hupdates :
      (after (leastTimes.take 3)).Updates ⟨[4], Int64.minValue + 1600000000, 1600000000⟩ := by
    decide
  have hmedian := (median_eq_least_iff _ hupdates.2.2).mpr (by decide)
  have hoffset : (after leastTimes).nTimeOffset = Int64.minValue := by
    rw [hfour, after_concat, addTimeData_of_updates hupdates, hmedian]
    rfl
  refine ⟨hoffset, ?_⟩
  rw [hoffset]
  decide

/-! ## A full filter -/

theorem size_input (f : CMedianFilter Int64) (value : Int64) (h : f.size = f.nSize)
    (hpos : 0 < f.nSize) : (f.input value).size = f.nSize := by
  rw [CMedianFilter.size] at h
  rw [CMedianFilter.size, CMedianFilter.input]
  dsimp only
  rw [if_pos h, List.length_append, List.length_tail, List.length_singleton]
  omega

/-- **A filter that is full moves nothing any more**, since 200 is even. -/
theorem full_filter_stays (calls : List TimeCall) (hsize : s.vTimeOffsets.size = 200)
    (hn : s.vTimeOffsets.nSize = 200) :
    (calls.foldl addTimeData s).nTimeOffset = s.nTimeOffset := by
  induction calls generalizing s with
  | nil => rfl
  | cons c calls ih =>
    have hinput := size_input s.vTimeOffsets (c.nTime - c.now) (by omega) (by omega)
    have hsame : (s.addTimeData c).nTimeOffset = s.nTimeOffset := by
      refine addTimeData_of_not_updates fun h => ?_
      have hodd := h.2.2
      omega
    rw [List.foldl_cons, ← hsame]
    by_cases hnew : c.ip ∈ s.setKnown
    · have hknown : s.addTimeData c = s := by
        rw [addTimeData]
        dsimp only
        rw [if_pos (List.contains_iff_mem.mpr hnew)]
      rw [hknown]
      exact ih hsize hn
    · have hfilter := addTimeData_vTimeOffsets hnew
      exact ih (by rw [hfilter]; omega) (by rw [hfilter]; exact hn)

def zeros : CMedianFilter Int64 := ⟨.replicate 200 0, .replicate 200 0, 200, .refl _,
    List.pairwise_replicate.2 (.inr (by decide)), List.cons_ne_nil _ _⟩

theorem full_filter_stays_zeros :
    (leastTimes.foldl addTimeData { vTimeOffsets := zeros }).nTimeOffset = 0 :=
  full_filter_stays leastTimes rfl rfl

end TimeData

end BitBlocks
