import Mathlib.Algebra.Order.BigOperators.Group.List
import Mathlib.Tactic.Ring

/-!
# Two's complement accumulators

A 64-bit signed counter holds the representative of an integer modulo `2 ^ 64`
that lies in `[-2 ^ 63, 2 ^ 63)`. Adding to a counter and adding to the integer
it stands for commute, so a chain of updates can be computed exactly and wrapped
once at the end; and the counter *is* the integer as long as that stays in range.
-/

namespace Wrap

/-- The value a 64-bit signed counter shows for `x`. -/
def wrap64 (x : Int) : Int := x.bmod (2 ^ 64)

@[simp] theorem wrap64_add_left (x y : Int) : wrap64 (wrap64 x + y) = wrap64 (x + y) := by
  simp [wrap64]

@[simp] theorem wrap64_add_right (x y : Int) : wrap64 (x + wrap64 y) = wrap64 (x + y) := by
  simp [wrap64]

@[simp] theorem wrap64_sub_left (x y : Int) : wrap64 (wrap64 x - y) = wrap64 (x - y) := by
  simp [wrap64]

@[simp] theorem wrap64_sub_right (x y : Int) : wrap64 (x - wrap64 y) = wrap64 (x - y) := by
  simp [wrap64]

@[simp] theorem wrap64_wrap64 (x : Int) : wrap64 (wrap64 x) = wrap64 x := by
  simp [wrap64]

variable {x acc : Int} {l : List Int}

/-- **A counter in range shows its value.** -/
theorem wrap64_of_range (h : -(2 ^ 63) ≤ x) (h' : x < 2 ^ 63) : wrap64 x = x := by
  unfold wrap64
  rw [Int.bmod_eq_of_le] <;> omega

theorem wrap64_range (x : Int) : -(2 ^ 63) ≤ wrap64 x ∧ wrap64 x < 2 ^ 63 := by
  have h1 := Int.le_bmod (x := x) (m := 2 ^ 64) (by omega)
  have h2 := Int.bmod_lt (x := x) (m := 2 ^ 64) (by omega)
  unfold wrap64
  omega

theorem wrap64_eq_self_iff : wrap64 x = x ↔ -(2 ^ 63) ≤ x ∧ x < 2 ^ 63 := by
  refine ⟨fun h => ?_, fun h => wrap64_of_range h.1 h.2⟩
  rw [← h]
  exact wrap64_range x

def sum64 (acc : Int) (l : List Int) : Int := l.foldl (fun a x => wrap64 (a + x)) acc

/-- **Wrapping at every step is wrapping once.** -/
theorem sum64_eq (acc : Int) (l : List Int) : wrap64 (sum64 acc l) = wrap64 (acc + l.sum) := by
  induction l generalizing acc with
  | nil => simp [sum64]
  | cons x l ih =>
    show wrap64 (sum64 (wrap64 (acc + x)) l) = _
    rw [ih, List.sum_cons, wrap64_add_left, Int.add_assoc]

theorem sum64_of_wrapped (h : wrap64 acc = acc) (l : List Int) :
    sum64 acc l = wrap64 (acc + l.sum) := by
  induction l generalizing acc with
  | nil => simp [sum64, h]
  | cons x l ih =>
    show sum64 (wrap64 (acc + x)) l = _
    rw [ih (wrap64_wrap64 _), List.sum_cons, wrap64_add_left, Int.add_assoc]

/-! ## Sums that fit -/

def Fits (x : Int) : Prop := -(2 ^ 63) ≤ x ∧ x < 2 ^ 63

/-- No addition wraps when a list is added up from a value. -/
def SumFits (acc : Int) (l : List Int) : Prop := ∀ pre, pre <+: l → Fits (acc + pre.sum)

theorem Fits.wrap64_eq (h : Fits x) : wrap64 x = x := wrap64_of_range h.1 h.2

theorem SumFits.total (h : SumFits acc l) : Fits (acc + l.sum) := h l (List.prefix_refl l)

theorem SumFits.sum64_eq (h : SumFits acc l) : sum64 acc l = acc + l.sum := by
  have hacc : Fits acc := by simpa using h [] List.nil_prefix
  rw [sum64_of_wrapped hacc.wrap64_eq, h.total.wrap64_eq]

/-- **Where nothing is taken away**, all additions fit if the total does. -/
theorem sumFits_of_nonneg (h : 0 ≤ acc) (hl : ∀ x ∈ l, 0 ≤ x) (htotal : acc + l.sum < 2 ^ 63) :
    SumFits acc l := by
  rintro pre ⟨suf, rfl⟩
  have hpre : 0 ≤ pre.sum := List.sum_nonneg fun x hx => hl x (List.mem_append_left _ hx)
  have hsuf : 0 ≤ suf.sum := List.sum_nonneg fun x hx => hl x (List.mem_append_right _ hx)
  rw [List.sum_append] at htotal
  constructor
  · omega
  · omega

/-! ## Products that wrap -/

/-- **Multiples keep their order modulo `m` just as long as the largest does not wrap.** -/
theorem mulMod_mono_iff {m t n : Nat} (ht : t < m) :
    (∀ a b, a ≤ b → b ≤ n → a * t % m ≤ b * t % m) ↔ n * t < m := by
  constructor
  · intro h
    by_contra hwrap
    have hex : ∃ b, m ≤ b * t := ⟨n, Nat.not_lt.mp hwrap⟩
    -- the first multiple that wraps, and the one before it
    let b := Nat.find hex
    have hb : m ≤ b * t := Nat.find_spec hex
    have hbn : b ≤ n := Nat.find_min' hex (Nat.not_lt.mp hwrap)
    have hpos : 0 < b := by
      rcases Nat.eq_zero_or_pos b with hz | hpos
      · rw [hz, Nat.zero_mul] at hb
        omega
      · exact hpos
    have hprev : (b - 1) * t < m := Nat.not_le.mp (Nat.find_min hex (Nat.sub_lt hpos Nat.one_pos))
    have hmul : b * t = (b - 1) * t + t := by
      conv_lhs => rw [← Nat.sub_add_cancel hpos, Nat.add_mul, Nat.one_mul]
    have hmod : b * t % m = b * t - m := by
      rw [Nat.mod_eq_sub_mod hb, Nat.mod_eq_of_lt (by omega)]
    have := h (b - 1) b (Nat.sub_le b 1) hbn
    rw [hmod, Nat.mod_eq_of_lt hprev] at this
    omega
  · intro h a b hab hbn
    have hb : b * t < m := Nat.lt_of_le_of_lt (Nat.mul_le_mul_right t hbn) h
    have ha : a * t ≤ b * t := Nat.mul_le_mul_right t hab
    rw [Nat.mod_eq_of_lt hb, Nat.mod_eq_of_lt (Nat.lt_of_le_of_lt ha hb)]
    exact ha

end Wrap
