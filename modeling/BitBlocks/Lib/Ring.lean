import Mathlib.Data.Nat.ModEq
import Mathlib.Data.List.Basic

/-!
# A ring of cells that holds the end of a sequence

A sequence is written into a ring of `B` cells, each element into the cell of its place modulo
`B`. Whatever the pieces are that it is written in, as long as none of them goes over the end of
the ring, the last `B` elements that were written can be read again.
-/

namespace Ring

variable {α : Type*} {B n q k : Nat} {cells : Nat → α} {xs chunk : List α}

/-- A piece is written from a cell on. -/
def put (cells : Nat → α) (pos : Nat) (chunk : List α) : Nat → α := fun i =>
  if pos ≤ i then (chunk[i - pos]?).getD (cells i) else cells i

def slice (cells : Nat → α) (pos k : Nat) : List α := (List.range k).map fun i => cells (pos + i)

/-- Of the `n` elements that were written, the last `B` are in their cells. -/
def Holds (B : Nat) (cells : Nat → α) (xs : List α) (n : Nat) : Prop :=
  ∀ q < n, n ≤ q + B → xs[q]? = some (cells (q % B))

theorem holds_zero (B : Nat) (cells : Nat → α) (xs : List α) : Holds B cells xs 0 :=
  fun q hq => absurd hq (Nat.not_lt_zero q)

theorem put_inside {pos i : Nat} {x : α} (h : chunk[i]? = some x) :
    put cells pos chunk (pos + i) = x := by
  rw [put, if_pos (Nat.le_add_right pos i), Nat.add_sub_cancel_left, h, Option.getD_some]

theorem put_outside {pos i : Nat} (h : i < pos ∨ pos + chunk.length ≤ i) :
    put cells pos chunk i = cells i := by
  rw [put]
  rcases h with h | h
  · rw [if_neg (Nat.not_le.mpr h)]
  · rw [if_pos ((Nat.le_add_right _ _).trans h), List.getElem?_eq_none (by omega), Option.getD_none]

/-- **The next piece is written**, without going over the end of the ring. -/
theorem Holds.put (h : Holds B cells xs n) (hroom : n % B + chunk.length ≤ B)
    (hchunk : ∀ j < chunk.length, xs[n + j]? = chunk[j]?) :
    Holds B (put cells (n % B) chunk) xs (n + chunk.length) := by
  intro q hq hlast
  rcases Nat.lt_or_ge q n with hold | hnew
  · rw [h q hold (by omega)]
    -- a cell that is written over held what is too far back
    have hother : q % B < n % B ∨ n % B + chunk.length ≤ q % B := by
      by_contra hin
      rw [not_or, Nat.not_lt, Nat.not_le] at hin
      obtain ⟨j, hj⟩ := Nat.exists_eq_add_of_le hin.1
      have hmod : q % B = (n + j) % B := by
        rw [Nat.add_mod, Nat.mod_eq_of_lt (a := j) (by omega), ← hj, Nat.mod_mod]
      have hdvd : B ∣ n + j - q := (Nat.modEq_iff_dvd' (by omega)).mp hmod
      have hle := Nat.le_of_dvd (by omega) hdvd
      omega
    rw [put_outside hother]
  · obtain ⟨j, rfl⟩ := Nat.exists_eq_add_of_le hnew
    have hj : j < chunk.length := by omega
    have hmod : (n + j) % B = n % B + j := by
      rw [Nat.add_mod, Nat.mod_eq_of_lt (a := j) (by omega), Nat.mod_eq_of_lt (by omega)]
    rw [hchunk j hj, hmod, put_inside (List.getElem?_eq_getElem hj), List.getElem?_eq_getElem hj]

/-- **What is read** of the last elements, without going over the end of the ring. -/
theorem Holds.slice_eq (h : Holds B cells xs n) (hback : n ≤ q + B) (hlast : q + k ≤ n)
    (hroom : q % B + k ≤ B) : slice cells (q % B) k = (xs.drop q).take k := by
  refine List.ext_getElem? fun i => ?_
  rw [List.getElem?_take, List.getElem?_drop, slice, List.getElem?_map]
  by_cases hi : i < k
  · have hmod : (q + i) % B = q % B + i := by
      rw [Nat.add_mod, Nat.mod_eq_of_lt (a := i) (by omega), Nat.mod_eq_of_lt (by omega)]
    rw [if_pos hi, List.getElem?_range hi, Option.map_some, h (q + i) (by omega) (by omega), hmod]
  · rw [if_neg hi, List.getElem?_eq_none (by rw [List.length_range]; omega), Option.map_none]

end Ring
