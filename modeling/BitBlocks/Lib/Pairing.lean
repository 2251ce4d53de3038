import Mathlib.Data.List.Basic
import Mathlib.Tactic.Ring
import Mathlib.Data.Nat.Bitwise
import Mathlib.Data.Nat.Log

/-!
# Lists folded level by level

A level is made of the one below by combining neighbours, the last entry with
itself if it has none. The levels get half as long each time, so they end in one
entry, and an entry is told by its level and its position: what it is made of
stands at twice the position one level below.
-/

namespace Pairing

variable {α : Type} (f : α → α → α)

def pairUp : List α → List α
  | [] => []
  | [a] => [f a a]
  | a :: b :: rest => f a b :: pairUp rest

/-- The length of a level, of a list of `n`. -/
def width (n height : Nat) : Nat := (n + 2 ^ height - 1) / 2 ^ height

theorem length_pairUp : ∀ l : List α, (pairUp f l).length = (l.length + 1) / 2
  | [] => by simp [pairUp]
  | [_] => by simp [pairUp]
  | a :: b :: rest => by
    rw [pairUp, List.length_cons, length_pairUp rest, List.length_cons, List.length_cons]
    omega

/-- **What an entry is made of.** -/
theorem getElem?_pairUp : ∀ (l : List α) (i : Nat),
    (pairUp f l)[i]? = l[2 * i]?.map fun a => f a (l[2 * i + 1]?.getD a)
  | [], _ => by simp [pairUp]
  | [a], 0 => rfl
  | [a], i + 1 => by simp [pairUp, show 2 * (i + 1) = 2 * i + 1 + 1 by omega]
  | a :: b :: rest, 0 => rfl
  | a :: b :: rest, i + 1 => by
    have h := getElem?_pairUp rest i
    rw [pairUp, List.getElem?_cons_succ, h, show 2 * (i + 1) = 2 * i + 1 + 1 by omega,
      show 2 * i + 1 + 1 + 1 = 2 * i + 1 + 1 + 1 from rfl]
    simp only [List.getElem?_cons_succ]

variable {l : List α} {n height : Nat}

theorem mem_pairUp {x : α} (h : x ∈ pairUp f l) : ∃ a ∈ l, ∃ b ∈ l, x = f a b := by
  obtain ⟨i, hi⟩ := List.mem_iff_getElem?.mp h
  rw [getElem?_pairUp] at hi
  obtain ⟨a, ha, rfl⟩ := Option.map_eq_some_iff.mp hi
  have hmem := List.mem_of_getElem? ha
  refine ⟨a, hmem, l[2 * i + 1]?.getD a, ?_, rfl⟩
  rcases hb : l[2 * i + 1]? with _ | b
  · exact hmem
  · exact List.mem_of_getElem? hb

theorem xor_one (i : Nat) : i ^^^ 1 = if i % 2 = 1 then i - 1 else i + 1 := by
  split
  · rename_i h
    exact Nat.xor_one_of_odd (Nat.odd_iff.mpr h)
  · rename_i h
    exact Nat.xor_one_of_even (Nat.even_iff.mpr (by omega))

theorem getElem?_pairUp_of_lt {i : Nat} (h : i < l.length) (d : α) :
    (pairUp f l)[i / 2]? = some (if i % 2 = 1 then f (l.getD (min (i ^^^ 1) (l.length - 1)) d) l[i]
      else f l[i] (l.getD (min (i ^^^ 1) (l.length - 1)) d)) := by
  rw [getElem?_pairUp, xor_one]
  by_cases hodd : i % 2 = 1
  · have hleft : 2 * (i / 2) = i - 1 := by omega
    have hmin : min (i - 1) (l.length - 1) = i - 1 := by omega
    have hnext : i - 1 + 1 = i := by omega
    rw [hleft, hnext, if_pos hodd, if_pos hodd, hmin, List.getElem?_eq_getElem h,
      List.getElem?_eq_getElem (show i - 1 < l.length by omega),
      List.getD_eq_getElem _ _ (by omega)]
    rfl
  · have hleft : 2 * (i / 2) = i := by omega
    rw [hleft, if_neg hodd, if_neg hodd, List.getElem?_eq_getElem h, Option.map_some]
    rcases Nat.lt_or_ge (i + 1) l.length with hin | hout
    · rw [List.getElem?_eq_getElem hin, Nat.min_eq_left (by omega), List.getD_eq_getElem _ _ hin]
      rfl
    · have hlast : min (i + 1) (l.length - 1) = i := by omega
      rw [List.getElem?_eq_none hout, hlast, List.getD_eq_getElem _ _ h]
      rfl

theorem width_zero (n : Nat) : width n 0 = n := by simp [width]

theorem width_succ (n height : Nat) : width n (height + 1) = (width n height + 1) / 2 := by
  have hpos : 0 < 2 ^ height := Nat.two_pow_pos height
  unfold width
  rw [Nat.pow_succ, ← Nat.div_div_eq_div_mul]
  congr 1
  rw [← Nat.add_div_right _ hpos]
  congr 1
  omega

theorem width_half (n height : Nat) : width ((n + 1) / 2) height = width n (height + 1) := by
  induction height with
  | zero => rw [width_zero, width_succ, width_zero]
  | succ height ih => rw [width_succ, ih, width_succ n (height + 1)]

theorem width_pos (h : 0 < n) (height : Nat) : 0 < width n height := by
  have hpos : 0 < 2 ^ height := Nat.two_pow_pos height
  exact Nat.div_pos (by omega) hpos

theorem lt_width_iff {pos : Nat} : pos < width n height ↔ pos * 2 ^ height < n := by
  have hpos : 0 < 2 ^ height := Nat.two_pow_pos height
  have hmul : (pos + 1) * 2 ^ height = pos * 2 ^ height + 2 ^ height := Nat.succ_mul _ _
  rw [width, ← Nat.succ_le_iff, Nat.le_div_iff_mul_le hpos]
  simp only [Nat.succ_eq_add_one]
  omega

theorem width_mono {m : Nat} (h : n ≤ m) (height : Nat) : width n height ≤ width m height :=
  Nat.div_le_div_right (by omega)

theorem length_iterate (l : List α) (height : Nat) :
    ((pairUp f)^[height] l).length = width l.length height := by
  induction height with
  | zero => rw [width_zero]; rfl
  | succ height ih => rw [Function.iterate_succ_apply', length_pairUp, ih, width_succ]

/-- What stands below the entry at a height and a position. -/
def slice (l : List α) (height pos : Nat) : List α := (l.drop (pos * 2 ^ height)).take (2 ^ height)

theorem slice_succ (l : List α) (height pos : Nat) :
    slice l (height + 1) pos = slice l height (pos * 2) ++ slice l height (pos * 2 + 1) := by
  have hstart : pos * 2 ^ (height + 1) = pos * 2 * 2 ^ height := by
    rw [Nat.pow_succ]
    ring
  have hmid : (pos * 2 + 1) * 2 ^ height = pos * 2 * 2 ^ height + 2 ^ height := by ring
  have hsize : 2 ^ (height + 1) = 2 ^ height + 2 ^ height := by
    rw [Nat.pow_succ]
    ring
  rw [slice, slice, slice, hstart, hmid, hsize, List.take_add, List.drop_drop]

/-- The level at which a list of `n` has one entry, the first one. -/
structure IsHeight (n height : Nat) : Prop where
  le : width n height ≤ 1
  below : ∀ k < height, 1 < width n k

theorem IsHeight.unique {height' : Nat} (h : IsHeight n height) (h' : IsHeight n height') :
    height = height' := by
  rcases Nat.lt_trichotomy height height' with hlt | heq | hgt
  · exact absurd h.le (Nat.not_le.mpr (h'.below height hlt))
  · exact heq
  · exact absurd h'.le (Nat.not_le.mpr (h.below height' hgt))

theorem IsHeight.not_long (h : IsHeight n 0) : ¬ n > 1 := by
  have hle := h.le
  rw [width_zero] at hle
  omega

theorem IsHeight.long (h : IsHeight n (height + 1)) : n > 1 := by
  have hlt := h.below 0 (Nat.succ_pos height)
  rwa [width_zero] at hlt

theorem IsHeight.half (h : IsHeight n (height + 1)) : IsHeight ((n + 1) / 2) height where
  le := by rw [width_half]; exact h.le
  below k hk := by rw [width_half]; exact h.below (k + 1) (by omega)

theorem IsHeight.le_of_width {k : Nat} (h : IsHeight n height) (hk : width n k ≤ 1) : height ≤ k :=
  Nat.not_lt.mp fun hlt => absurd hk (Nat.not_le.mpr (h.below k hlt))

theorem IsHeight.height_le (h : IsHeight n height) : height ≤ n := by
  have hpow : n < 2 ^ n := Nat.lt_two_pow_self
  have hone : width n n < 2 := Nat.div_lt_of_lt_mul (by omega)
  exact h.le_of_width (Nat.lt_succ_iff.mp hone)

theorem isHeight_clog (n : Nat) : IsHeight n (Nat.clog 2 n) where
  le := by
    have hle := Nat.le_pow_clog Nat.one_lt_two n
    rw [← Nat.not_lt, lt_width_iff, Nat.one_mul]
    omega
  below k hk := by
    rw [lt_width_iff, Nat.one_mul]
    exact Nat.pow_lt_of_lt_clog hk

theorem IsHeight.eq_clog (h : IsHeight n height) : height = Nat.clog 2 n :=
  h.unique (isHeight_clog n)

theorem iterate_eq_singleton (h : IsHeight l.length height) (hne : l ≠ []) (d : α) :
    (pairUp f)^[height] l = [((pairUp f)^[height] l).headD d] := by
  have hlen := length_iterate f l height
  have hle := h.le
  have hpos := width_pos (List.length_pos_iff.mpr hne) height
  obtain ⟨a, ha⟩ := List.length_eq_one_iff.mp (show ((pairUp f)^[height] l).length = 1 by omega)
  rw [ha]
  rfl

/-! ## The levels, one after another -/

/-- A list and the levels above it, up to a height. -/
def tower : Nat → List α → List α
  | 0, l => l
  | height + 1, l => l ++ tower height (pairUp f l)

theorem getLast?_tower (h : IsHeight l.length height) :
    (tower f height l).getLast? = ((pairUp f)^[height] l).head? := by
  induction height generalizing l with
  | zero =>
    have hshort := h.not_long
    match l with
    | [] => rfl
    | [_] => rfl
    | _ :: _ :: _ => exact absurd (by simp) hshort
  | succ height ih =>
    have habove := h.half
    rw [← length_pairUp f l] at habove
    have hlong := h.long
    have hne : 0 < ((pairUp f)^[height] (pairUp f l)).length := by
      rw [length_iterate, length_pairUp]
      exact width_pos (by omega) height
    have hsome : (((pairUp f)^[height] (pairUp f l)).head?).isSome = true := by
      rw [List.head?_eq_getElem?, List.getElem?_eq_getElem hne]
      rfl
    rw [tower, List.getLast?_append, ih habove, Function.iterate_succ_apply,
      Option.or_of_isSome hsome]

/-- What stands beside an entry and those above it; the last entry of an odd level stands alone. -/
def siblings (d : α) : Nat → List α → Nat → List α
  | 0, _, _ => []
  | height + 1, l, i =>
    l.getD (min (i ^^^ 1) (l.length - 1)) d :: siblings d height (pairUp f l) (i / 2)

/-! ## Lists with the same levels above -/

section Twice

variable [DecidableEq α]

/-- The last two entries of an even level are equal. -/
def endsTwice : List α → Bool
  | [] => false
  | [_] => false
  | [a, b] => a == b
  | _ :: _ :: rest => endsTwice rest

/-- Some level below a height ends so. -/
def repeats : Nat → List α → Bool
  | 0, _ => false
  | height + 1, l => endsTwice l || repeats height (pairUp f l)

theorem endsTwice_iff : ∀ {l : List α},
    endsTwice l = true ↔ ∃ k, 2 * k + 2 = l.length ∧ l[2 * k]? = l[2 * k + 1]?
  | [] => by simp [endsTwice]
  | [_] => by simp [endsTwice]
  | [a, b] => by
    constructor
    · intro h
      exact ⟨0, rfl, congrArg some (of_decide_eq_true h)⟩
    · rintro ⟨k, hk, heq⟩
      have hzero : k = 0 := by
        rw [List.length_cons, List.length_singleton] at hk
        omega
      subst hzero
      exact decide_eq_true (Option.some.inj heq)
  | a :: b :: c :: rest => by
    rw [endsTwice, endsTwice_iff]
    · constructor
      · rintro ⟨k, hk, heq⟩
        refine ⟨k + 1, ?_, heq⟩
        simp only [List.length_cons] at hk ⊢
        omega
      · rintro ⟨k, hk, heq⟩
        obtain ⟨k, rfl⟩ : ∃ k', k = k' + 1 := by
          refine ⟨k - 1, ?_⟩
          simp only [List.length_cons] at hk
          omega
        refine ⟨k, ?_, heq⟩
        simp only [List.length_cons] at hk ⊢
        omega
    · simp

variable {f}

theorem eq_of_pairUp_eq (hf : Function.Injective2 f) : ∀ {l l' : List α},
    endsTwice l = false → endsTwice l' = false → pairUp f l = pairUp f l' → l = l'
  | [], [], _, _, _ => rfl
  | [], [_], _, _, heq => absurd heq (by simp [pairUp])
  | [], _ :: _ :: _, _, _, heq => absurd heq (by simp [pairUp])
  | [_], [], _, _, heq => absurd heq (by simp [pairUp])
  | _ :: _ :: _, [], _, _, heq => absurd heq (by simp [pairUp])
  | [a], [b], _, _, heq => by
    obtain ⟨rfl, -⟩ := hf (List.head_eq_of_cons_eq heq)
    rfl
  | [a], b :: c :: rest, _, h', heq => by
    obtain ⟨rfl, rfl⟩ := hf (List.head_eq_of_cons_eq heq)
    cases rest with
    | nil => exact absurd h' (by simp [endsTwice])
    | cons d rest => exact absurd (List.tail_eq_of_cons_eq heq) (by cases rest <;> simp [pairUp])
  | a :: b :: rest, [c], h, _, heq => by
    obtain ⟨rfl, rfl⟩ := hf (List.head_eq_of_cons_eq heq)
    cases rest with
    | nil => exact absurd h (by simp [endsTwice])
    | cons d rest => exact absurd (List.tail_eq_of_cons_eq heq) (by cases rest <;> simp [pairUp])
  | a :: b :: rest, c :: d :: rest', h, h', heq => by
    obtain ⟨rfl, rfl⟩ := hf (List.head_eq_of_cons_eq heq)
    have htail := List.tail_eq_of_cons_eq heq
    have hrest : endsTwice rest = false := by
      cases rest with
      | nil => rfl
      | cons x rest => exact h
    have hrest' : endsTwice rest' = false := by
      cases rest' with
      | nil => rfl
      | cons x rest' => exact h'
    rw [eq_of_pairUp_eq hf hrest hrest' htail]
/-- **A level tells the list below it**, if no level in between ends twice. -/
theorem eq_of_iterate_eq (hf : Function.Injective2 f) {height : Nat} {l l' : List α}
    (h : repeats f height l = false) (h' : repeats f height l' = false)
    (heq : (pairUp f)^[height] l = (pairUp f)^[height] l') : l = l' := by
  induction height generalizing l l' with
  | zero => exact heq
  | succ height ih =>
    unfold repeats at h h'
    rw [Bool.or_eq_false_iff] at h h'
    rw [Function.iterate_succ_apply, Function.iterate_succ_apply] at heq
    exact eq_of_pairUp_eq hf h.1 h'.1 (ih h.2 h'.2 heq)

end Twice

end Pairing
