import Mathlib.Data.Nat.Digits.Lemmas
import Mathlib.Data.Nat.Size

/-!
# Arithmetic on the words of a number

A number of a fixed width is a list of words, the lowest first, and `Nat.ofDigits` is the
number. A carry that runs through columns of any size leaves the words of their sum, and the
last carry is what the width loses. Comparison and length are decided by the highest word
that differs, or that is not zero. Long division subtracts the shifted divisor from the top.
-/

namespace Limbs

open Nat (ofDigits)

/-! ## Carries -/

/-- The words that remain when a carry runs through the columns; the last carry is dropped. -/
def ripple (B : Nat) : Nat → List Nat → List Nat
  | _, [] => []
  | carry, c :: cs => (carry + c) % B :: ripple B ((carry + c) / B) cs

/-- **A carry adds up the columns**, modulo the width. -/
theorem ofDigits_ripple (B carry : Nat) (cs : List Nat) :
    ofDigits B (ripple B carry cs) = (carry + ofDigits B cs) % B ^ cs.length := by
  induction cs generalizing carry with
  | nil => rw [ripple, Nat.ofDigits_nil, List.length_nil, Nat.pow_zero, Nat.mod_one]
  | cons c cs ih =>
    rw [ripple, Nat.ofDigits_cons, ih, Nat.ofDigits_cons, List.length_cons, Nat.pow_succ',
      Nat.mod_mul, ← Nat.add_assoc, Nat.add_mul_mod_self_left]
    rcases Nat.eq_zero_or_pos B with rfl | hpos
    · simp
    · rw [Nat.add_mul_div_left _ _ hpos]

/-! ## Single words -/

variable {B : Nat} {ds : List Nat}

theorem ofDigits_lt (h : ∀ d ∈ ds, d < B) : ofDigits B ds < B ^ ds.length := by
  induction ds with
  | nil => exact Nat.one_pos
  | cons d ds ih =>
    have hd := h d List.mem_cons_self
    have hds := ih fun x hx => h x (List.mem_cons_of_mem d hx)
    rw [Nat.ofDigits_cons, List.length_cons, Nat.pow_succ']
    calc d + B * ofDigits B ds < B + B * ofDigits B ds := by omega
      _ = B * (ofDigits B ds + 1) := by rw [Nat.mul_add, Nat.mul_one, Nat.add_comm]
      _ ≤ B * B ^ ds.length := Nat.mul_le_mul_left B hds

theorem ofDigits_take_add_drop (n : Nat) (ds : List Nat) (h : n ≤ ds.length) :
    ofDigits B ds = ofDigits B (ds.take n) + B ^ n * ofDigits B (ds.drop n) := by
  have happ := @Nat.ofDigits_append B (ds.take n) (ds.drop n)
  rwa [List.take_append_drop, List.length_take, Nat.min_eq_left h] at happ

theorem ofDigits_take_succ {n : Nat} (h : n < ds.length) :
    ofDigits B (ds.take (n + 1)) = ofDigits B (ds.take n) + B ^ n * ds.getD n 0 := by
  rw [List.take_add_one, List.getElem?_eq_getElem h, Option.toList_some, Nat.ofDigits_append,
    Nat.ofDigits_singleton, List.length_take, Nat.min_eq_left (Nat.le_of_lt h),
    List.getD_eq_getElem?_getD, List.getElem?_eq_getElem h, Option.getD_some]

theorem ofDigits_take_lt (h : ∀ d ∈ ds, d < B) {n : Nat} (hn : n ≤ ds.length) :
    ofDigits B (ds.take n) < B ^ n := by
  have hlt : ofDigits B (ds.take n) < B ^ (ds.take n).length :=
    ofDigits_lt fun d hd => h d (List.mem_of_mem_take hd)
  rwa [List.length_take, Nat.min_eq_left hn] at hlt

theorem testBit_ofDigits {w : Nat} (hw : 0 < w) (h : ∀ d ∈ ds, d < 2 ^ w) (i : Nat) :
    (ofDigits (2 ^ w) ds).testBit i = (ds.getD (i / w) 0).testBit (i % w) := by
  induction ds generalizing i with
  | nil => rw [Nat.ofDigits_nil, List.getD_nil, Nat.zero_testBit, Nat.zero_testBit]
  | cons d ds ih =>
    have ih := ih fun x hx => h x (List.mem_cons_of_mem d hx)
    rw [Nat.ofDigits_cons, Nat.add_comm, Nat.testBit_two_pow_mul_add _ (h d List.mem_cons_self)]
    split
    · next hlow => rw [Nat.div_eq_of_lt hlow, Nat.mod_eq_of_lt hlow, List.getD_cons_zero]
    · next hhigh =>
        have hdiv : i / w = (i - w) / w + 1 := by
          rw [Nat.div_eq_sub_div hw (Nat.not_lt.mp hhigh)]
        rw [ih, hdiv, List.getD_cons_succ, ← Nat.mod_eq_sub_mod (Nat.not_lt.mp hhigh)]

/-! ## A row of a product -/

theorem ofDigits_zipWith {ps ys : List Nat} (h : ps.length ≤ ys.length) (c : Nat) :
    ofDigits B (List.zipWith (fun p y => p + c * y) ps ys) =
      ofDigits B ps + c * ofDigits B (ys.take ps.length) := by
  induction ps generalizing ys with
  | nil => rfl
  | cons p ps ih =>
    cases ys with
    | nil => exact absurd h (Nat.not_succ_le_zero _)
    | cons y ys =>
      rw [List.zipWith_cons_cons, Nat.ofDigits_cons, ih (Nat.le_of_succ_le_succ h),
        List.length_cons, List.take_succ_cons, Nat.ofDigits_cons, Nat.ofDigits_cons]
      ring

/-- **A row** adds a multiple to a number, from its word `j` on. -/
theorem ofDigits_row {es : List Nat} (h : ∀ d ∈ ds, d < B) (hlength : es.length = ds.length)
    {j : Nat} (hj : j ≤ ds.length) (c : Nat) :
    ofDigits B (ds.take j ++ ripple B 0 (List.zipWith (fun p y => p + c * y) (ds.drop j) es)) =
      (ofDigits B ds + B ^ j * (c * ofDigits B es)) % B ^ ds.length := by
  have hlow := ofDigits_take_lt h hj
  have hdrop : (ds.drop j).length = ds.length - j := List.length_drop
  have hcut : List.length (List.zipWith (fun p y => p + c * y) (ds.drop j) es) = ds.length - j := by
    rw [List.length_zipWith, hdrop, hlength]
    omega
  have hpow : B ^ ds.length = B ^ j * B ^ (ds.length - j) := by
    rw [← Nat.pow_add, Nat.add_sub_cancel' hj]
  -- the words of the factor that do not fit
  have hes := @ofDigits_take_add_drop B (ds.length - j) es (by omega)
  have hsum : ofDigits B ds + B ^ j * (c * ofDigits B es) =
      ofDigits B (ds.take j) + B ^ j * (ofDigits B (ds.drop j) +
        c * ofDigits B (es.take (ds.length - j))) +
        B ^ j * B ^ (ds.length - j) * (c * ofDigits B (es.drop (ds.length - j))) := by
    rw [hes, ofDigits_take_add_drop j ds hj]
    ring
  rw [Nat.ofDigits_append, ofDigits_ripple, hcut, Nat.zero_add,
    ofDigits_zipWith (by rw [hdrop, hlength]; omega), hdrop, List.length_take,
    Nat.min_eq_left hj, hsum, hpow, Nat.add_mul_mod_self_left, Nat.mod_mul,
    Nat.add_mul_mod_self_left, Nat.mod_eq_of_lt hlow,
    Nat.add_mul_div_left _ _ (Nat.zero_lt_of_lt hlow), Nat.div_eq_of_lt hlow, Nat.zero_add]

/-! ## The highest word -/

/-- The order of two numbers, as a sign. -/
def sign (x y : Nat) : Int := if x < y then -1 else if x > y then 1 else 0

theorem sign_of_high {k x y d e : Nat} (hx : x < k) (hy : y < k) :
    sign (x + k * d) (y + k * e) = if d < e then -1 else if d > e then 1 else sign x y := by
  rcases Nat.lt_trichotomy d e with hlt | rfl | hgt
  · rw [if_pos hlt]
    have hstep : k * (d + 1) ≤ k * e := Nat.mul_le_mul_left k hlt
    rw [Nat.mul_add] at hstep
    exact if_pos (by omega)
  · rw [if_neg (Nat.lt_irrefl d), if_neg (Nat.lt_irrefl d)]
    unfold sign
    simp only [Nat.add_lt_add_iff_right, gt_iff_lt]
  · rw [if_neg (by omega), if_pos hgt]
    have hstep : k * (e + 1) ≤ k * d := Nat.mul_le_mul_left k hgt
    rw [Nat.mul_add] at hstep
    exact (if_neg (by omega)).trans (if_pos (by omega))

theorem size_of_high {k x d : Nat} (hx : x < 2 ^ k) (hd : d ≠ 0) :
    Nat.size (x + 2 ^ k * d) = k + Nat.size d := by
  apply Nat.le_antisymm
  · rw [Nat.size_le, Nat.pow_add]
    have hlt : 2 ^ k * (d + 1) ≤ 2 ^ k * 2 ^ Nat.size d :=
      Nat.mul_le_mul_left _ (Nat.lt_size_self d)
    rw [Nat.mul_add] at hlt
    omega
  · obtain ⟨s, hs⟩ : ∃ s, Nat.size d = s + 1 :=
      Nat.exists_eq_succ_of_ne_zero fun h => hd (Nat.size_eq_zero.mp h)
    have hle : 2 ^ s ≤ d := Nat.lt_size.mp (by omega)
    rw [hs, ← Nat.add_assoc, Nat.succ_le_iff, Nat.lt_size, Nat.pow_add]
    exact Nat.le_trans (Nat.mul_le_mul_left _ hle) (Nat.le_add_left _ _)

/-! ## Long division -/

/-- `n` bits of a quotient, from the highest, added to `quot`. -/
def divide (b : Nat) : (n num quot : Nat) → Nat
  | 0, _, quot => quot
  | n + 1, num, quot =>
    if b * 2 ^ n ≤ num then divide b n (num - b * 2 ^ n) (quot + 2 ^ n) else divide b n num quot

/-- **Long division** finds the quotient if that has so many bits only. -/
theorem divide_eq {b n num : Nat} (h : num < b * 2 ^ n) (quot : Nat) :
    divide b n num quot = quot + num / b := by
  induction n generalizing num quot with
  | zero =>
    rw [Nat.pow_zero, Nat.mul_one] at h
    rw [divide, Nat.div_eq_of_lt h, Nat.add_zero]
  | succ n ih =>
    rw [Nat.pow_succ, ← Nat.mul_assoc] at h
    unfold divide
    split
    · next hle =>
        have hpos : 0 < b := by
          rcases Nat.eq_zero_or_pos b with rfl | hpos
          · omega
          · exact hpos
        have hdiv : num / b = (num - b * 2 ^ n) / b + 2 ^ n := by
          conv_lhs => rw [← Nat.sub_add_cancel hle, Nat.add_mul_div_left _ _ hpos]
        rw [ih (by omega), hdiv]
        omega
    · next hlt => exact ih (Nat.not_le.mp hlt) quot

end Limbs

/-!
## The leading digits of a number

A number is stored as an exponent and the digits in front of it, `n * S / B ^ k`, where
`S` is the power of the base that a mantissa has its point at. The mantissa is normal if it
has its first digit where it should: at least `L`, and less than `B * L`. Then the exponent
is determined, what is lost is less than `n / L`, and the order of numbers is kept.
-/

namespace Leading

/-- The mantissa of `n` for the exponent `k`. -/
def mantissa (B S n k : Nat) : Nat := n * S / B ^ k

/-- The number that a mantissa and an exponent stand for. -/
def restored (B S m k : Nat) : Nat := m * B ^ k / S

/-- The exponent `k` puts the first digit of `n` where it should be. -/
structure Normal (B S L n k : Nat) : Prop where
  le : L ≤ mantissa B S n k
  lt : mantissa B S n k < B * L

variable {B S L n n' k k' : Nat}

section

variable (hB : 0 < B)

include hB

theorem Normal.mul_le (h : Normal B S L n k) : L * B ^ k ≤ n * S :=
  (Nat.le_div_iff_mul_le (Nat.pow_pos hB)).mp h.le

theorem Normal.lt_mul (h : Normal B S L n k) : n * S < L * B ^ (k + 1) := by
  have hlt := (Nat.div_lt_iff_lt_mul (Nat.pow_pos hB)).mp h.lt
  have hpow : B * L * B ^ k = L * B ^ (k + 1) := by ring
  rwa [hpow] at hlt

theorem Normal.exponent_le (h : Normal B S L n k) (h' : Normal B S L n' k') (hn : n ≤ n') :
    k ≤ k' := by
  by_contra hlt
  have hpow : B ^ (k' + 1) ≤ B ^ k := Nat.pow_le_pow_right hB (Nat.not_le.mp hlt)
  have hchain : n' * S < n * S :=
    calc n' * S < L * B ^ (k' + 1) := h'.lt_mul hB
      _ ≤ L * B ^ k := Nat.mul_le_mul_left L hpow
      _ ≤ n * S := h.mul_le hB
  exact absurd (Nat.mul_le_mul_right S hn) (Nat.not_le.mpr hchain)

theorem Normal.exponent_unique (h : Normal B S L n k) (h' : Normal B S L n k') : k = k' :=
  Nat.le_antisymm (h.exponent_le hB h' (Nat.le_refl n)) (h'.exponent_le hB h (Nat.le_refl n))

end

theorem restored_mantissa_le (hS : 0 < S) (n k : Nat) : restored B S (mantissa B S n k) k ≤ n := by
  have hle : n * S / B ^ k * B ^ k / S ≤ n * S / S := Nat.div_le_div_right (Nat.div_mul_le_self _ _)
  rwa [Nat.mul_div_cancel n hS] at hle

theorem restored_mantissa (hS : 0 < S) (h : B ^ k ∣ n * S) :
    restored B S (mantissa B S n k) k = n := by
  rw [restored, mantissa, Nat.div_mul_cancel h, Nat.mul_div_cancel n hS]

theorem mantissa_restored (hB : 0 < B) {m : Nat} (h : S ∣ m * B ^ k) :
    mantissa B S (restored B S m k) k = m := by
  rw [restored, mantissa, Nat.div_mul_cancel h, Nat.mul_div_cancel m (Nat.pow_pos hB)]

/-- **The relative error** is less than one in `L`. -/
theorem Normal.error_lt (hB : 0 < B) (hL : 0 < L) (h : Normal B S L n k)
    (hdvd : S ∣ mantissa B S n k * B ^ k) :
    (n - restored B S (mantissa B S n k) k) * L < n := by
  have hlost : (n - restored B S (mantissa B S n k) k) * S < B ^ k := by
    have hpos : 0 < B ^ k := Nat.pow_pos hB
    have hdiv : n * S < n * S / B ^ k * B ^ k + B ^ k := Nat.lt_div_mul_add hpos
    rw [Nat.sub_mul, restored, Nat.div_mul_cancel hdvd, mantissa]
    omega
  have hscaled : (n - restored B S (mantissa B S n k) k) * L * S < n * S :=
    calc (n - restored B S (mantissa B S n k) k) * L * S
        = L * ((n - restored B S (mantissa B S n k) k) * S) := by ring
      _ < L * B ^ k := Nat.mul_lt_mul_of_pos_left hlost hL
      _ ≤ n * S := h.mul_le hB
  exact Nat.lt_of_mul_lt_mul_right hscaled

theorem Normal.dvd_of_digits {w p q : Nat} (h : Normal (2 ^ w) (2 ^ p) (2 ^ q) n k) {m j : Nat}
    (hm : m < 2 ^ (q + 1)) (hn : n = m * 2 ^ j) : (2 ^ w) ^ k ∣ n * 2 ^ p := by
  have hle := h.mul_le (Nat.two_pow_pos w)
  have hscaled : n * 2 ^ p = m * 2 ^ (j + p) := by rw [hn, Nat.mul_assoc, Nat.pow_add]
  rw [hscaled, ← Nat.pow_mul] at hle ⊢
  have hlt : 2 ^ (q + w * k) < 2 ^ (q + 1 + (j + p)) :=
    calc 2 ^ (q + w * k) = 2 ^ q * 2 ^ (w * k) := Nat.pow_add _ _ _
      _ ≤ m * 2 ^ (j + p) := hle
      _ < 2 ^ (q + 1) * 2 ^ (j + p) := Nat.mul_lt_mul_of_pos_right hm (Nat.two_pow_pos _)
      _ = 2 ^ (q + 1 + (j + p)) := (Nat.pow_add _ _ _).symm
  have hexp := (Nat.pow_lt_pow_iff_right (by decide)).mp hlt
  exact Nat.dvd_mul_left_of_dvd (Nat.pow_dvd_pow 2 (by omega)) m

/-- **The order is kept.** -/
theorem Normal.restored_mono (hB : 0 < B) (hS : 0 < S) (h : Normal B S L n k)
    (h' : Normal B S L n' k') (hn : n ≤ n') :
    restored B S (mantissa B S n k) k ≤ restored B S (mantissa B S n' k') k' := by
  rcases Nat.lt_or_eq_of_le (h.exponent_le hB h' hn) with hlt | rfl
  · -- one number is below what the other exponent stands for, the other is above
    have hbelow : n * S < L * B ^ k' :=
      Nat.lt_of_lt_of_le (h.lt_mul hB) (Nat.mul_le_mul_left L (Nat.pow_le_pow_right hB hlt))
    calc restored B S (mantissa B S n k) k ≤ n := restored_mantissa_le hS n k
      _ = n * S / S := (Nat.mul_div_cancel n hS).symm
      _ ≤ L * B ^ k' / S := Nat.div_le_div_right (Nat.le_of_lt hbelow)
      _ ≤ restored B S (mantissa B S n' k') k' :=
          Nat.div_le_div_right (Nat.mul_le_mul_right _ h'.le)
  · exact Nat.div_le_div_right
      (Nat.mul_le_mul_right _ (Nat.div_le_div_right (Nat.mul_le_mul_right S hn)))

end Leading
