import Mathlib.Data.Nat.Digits.Lemmas

/-!
# Changing the base of a number, digit by digit

A number is fed to a buffer of fixed length that holds it in another base, the
leading digit first: for each digit the buffer is multiplied by the old base and
the digit is added, a carry going from the last place to the first. Nothing is
carried out of a buffer with enough places, and what it holds in the end, without
the zeros in front, is the number in the new base.
-/

namespace Radix

/-- The number of a row of digits, the leading one first. -/
def value (b : Nat) (ds : List Nat) : Nat := Nat.ofDigits b ds.reverse

/-- `ds * m + carry`, from the last place on, and what is carried out of the first. -/
def mulAdd (m b carry : Nat) (ds : List Nat) : List Nat × Nat :=
  ds.foldr (fun d s => ((s.2 + m * d) % b :: s.1, (s.2 + m * d) / b)) ([], carry)

/-- Feed digits of base `m` to a buffer of base `b`; `none` if something is carried out. -/
def feed (m b : Nat) : List Nat → List Nat → Option (List Nat)
  | [], buf => some buf
  | d :: ds, buf =>
    let s := mulAdd m b d buf
    if s.2 = 0 then feed m b ds s.1 else none

def significant (ds : List Nat) : List Nat := ds.dropWhile (· == 0)

variable {m b : Nat}

@[simp] theorem value_nil : value b [] = 0 := rfl

theorem value_cons (d : Nat) (ds : List Nat) :
    value b (d :: ds) = value b ds + b ^ ds.length * d := by
  rw [value, List.reverse_cons, Nat.ofDigits_append, Nat.ofDigits_singleton, List.length_reverse]
  rfl

variable {ds : List Nat} {n : Nat}

theorem value_lt (hb : 1 < b) (h : ∀ d ∈ ds, d < b) : value b ds < b ^ ds.length := by
  have hlt := Nat.ofDigits_lt_base_pow_length hb (l := ds.reverse) fun d hd =>
    h d (List.mem_reverse.mp hd)
  rwa [List.length_reverse] at hlt

@[simp] theorem value_replicate_zero (n : Nat) : value b (List.replicate n 0) = 0 := by
  induction n with
  | zero => rfl
  | succ n ih => rw [List.replicate_succ, value_cons, ih, Nat.mul_zero]

/-! ## One digit -/

theorem mulAdd_cons (carry d : Nat) (ds : List Nat) : mulAdd m b carry (d :: ds) =
      (((mulAdd m b carry ds).2 + m * d) % b :: (mulAdd m b carry ds).1,
        ((mulAdd m b carry ds).2 + m * d) / b) := rfl

theorem length_mulAdd (carry : Nat) (ds : List Nat) :
    (mulAdd m b carry ds).1.length = ds.length := by
  induction ds with
  | nil => rfl
  | cons d ds ih => rw [mulAdd_cons, List.length_cons, List.length_cons, ih]

theorem mulAdd_lt (hb : 0 < b) (carry : Nat) (ds : List Nat) :
    ∀ d ∈ (mulAdd m b carry ds).1, d < b := by
  induction ds with
  | nil => simp [mulAdd]
  | cons d ds ih =>
    rw [mulAdd_cons, List.forall_mem_cons]
    exact ⟨Nat.mod_lt _ hb, ih⟩

theorem value_mulAdd (carry : Nat) (ds : List Nat) :
    value b (mulAdd m b carry ds).1 + b ^ ds.length * (mulAdd m b carry ds).2 =
      m * value b ds + carry := by
  induction ds with
  | nil => simp [mulAdd]
  | cons d ds ih =>
    have hlen := length_mulAdd (m := m) (b := b) carry ds
    rw [mulAdd_cons, value_cons, value_cons, hlen, List.length_cons]
    generalize hs : mulAdd m b carry ds = s at *
    have hdiv := Nat.mod_add_div (s.2 + m * d) b
    calc value b s.1 + b ^ ds.length * ((s.2 + m * d) % b) +
          b ^ (ds.length + 1) * ((s.2 + m * d) / b)
        = value b s.1 + b ^ ds.length * ((s.2 + m * d) % b + b * ((s.2 + m * d) / b)) := by ring
      _ = value b s.1 + b ^ ds.length * s.2 + m * (b ^ ds.length * d) := by rw [hdiv]; ring
      _ = m * (value b ds + b ^ ds.length * d) + carry := by rw [ih]; ring

theorem mulAdd_fits {carry : Nat} (h : m * value b ds + carry < b ^ ds.length) :
    (mulAdd m b carry ds).2 = 0 ∧ value b (mulAdd m b carry ds).1 = m * value b ds + carry := by
  have hval := value_mulAdd (m := m) (b := b) carry ds
  have hzero : (mulAdd m b carry ds).2 = 0 := by
    by_contra hne
    have hle : b ^ ds.length * 1 ≤ b ^ ds.length * (mulAdd m b carry ds).2 :=
      Nat.mul_le_mul_left _ (Nat.one_le_iff_ne_zero.mpr hne)
    omega
  rw [hzero, Nat.mul_zero, Nat.add_zero] at hval
  exact ⟨hzero, hval⟩

/-! ## All digits -/

theorem feed_eq {buf : List Nat} (hm : 0 < m)
    (h : value b buf * m ^ ds.length + value m ds < b ^ buf.length) (hb : 0 < b)
    (hbuf : ∀ d ∈ buf, d < b) :
    ∃ out, feed m b ds buf = some out ∧ (∀ d ∈ out, d < b) ∧
      value b out = value b buf * m ^ ds.length + value m ds := by
  induction ds generalizing buf with
  | nil => exact ⟨buf, rfl, hbuf, by simp⟩
  | cons d ds ih =>
    have hsplit : value b buf * m ^ (d :: ds).length + value m (d :: ds) =
        (m * value b buf + d) * m ^ ds.length + value m ds := by
      rw [value_cons, List.length_cons]
      ring
    rw [hsplit] at h ⊢
    have hone : m * value b buf + d < b ^ buf.length := by
      have hpos := Nat.pow_pos (n := ds.length) hm
      have hle := Nat.le_mul_of_pos_right (m * value b buf + d) hpos
      omega
    obtain ⟨hcarry, hval⟩ := mulAdd_fits hone
    rw [← hval, ← length_mulAdd d buf] at h
    have htail := ih h (mulAdd_lt hb d buf)
    rw [hval] at htail
    rw [feed]
    simp only [hcarry, if_true]
    exact htail

/-- **A buffer of zeros with enough places takes the whole number.** -/
theorem feed_zeros (hm : 1 < m) (hb : 0 < b) (hds : ∀ d ∈ ds, d < m) (hn : m ^ ds.length ≤ b ^ n) :
    ∃ out, feed m b ds (List.replicate n 0) = some out ∧ (∀ d ∈ out, d < b) ∧
      value b out = value m ds := by
  have hlt := value_lt hm hds
  have hroom : value b (List.replicate n 0) * m ^ ds.length + value m ds <
      b ^ (List.replicate n 0).length := by
    rw [value_replicate_zero, Nat.zero_mul, Nat.zero_add, List.length_replicate]
    omega
  obtain ⟨out, hout, hdigits, hval⟩ := feed_eq (by omega) hroom hb (by simp; omega)
  exact ⟨out, hout, hdigits, by simpa using hval⟩

theorem pow_le_pow_of_rate {p q k : Nat} (hb : 0 < b) (hp : p ≠ 0) (hrate : m ^ p ≤ b ^ q)
    (h : q * k ≤ p * n) : m ^ k ≤ b ^ n := by
  refine (Nat.pow_le_pow_iff_left hp).mp ?_
  calc (m ^ k) ^ p = (m ^ p) ^ k := by rw [← Nat.pow_mul, ← Nat.pow_mul, Nat.mul_comm]
    _ ≤ (b ^ q) ^ k := Nat.pow_le_pow_left hrate k
    _ = b ^ (q * k) := (Nat.pow_mul b q k).symm
    _ ≤ b ^ (p * n) := Nat.pow_le_pow_right hb h
    _ = (b ^ n) ^ p := by rw [← Nat.pow_mul, Nat.mul_comm]

/-! ## The leading zeros -/

theorem value_significant (ds : List Nat) : value b (significant ds) = value b ds := by
  induction ds with
  | nil => rfl
  | cons d ds ih =>
    rw [significant, List.dropWhile_cons]
    split
    · rename_i hd
      rw [beq_iff_eq.mp hd, value_cons, Nat.mul_zero, Nat.add_zero]
      exact ih
    · rfl

theorem head_significant : (significant ds).head? ≠ some 0 := by
  intro h
  have hhead := List.head?_dropWhile_not (· == 0) ds
  rw [significant] at h
  rw [h] at hhead
  exact absurd hhead (by simp)

/-- **Digits without a leading zero are the digits of their value.** -/
theorem eq_digits (hb : 1 < b) (hds : ∀ d ∈ ds, d < b) (hhead : ds.head? ≠ some 0) :
    ds = (Nat.digits b (value b ds)).reverse := by
  have hlast : ∀ hne : ds.reverse ≠ [], ds.reverse.getLast hne ≠ 0 := by
    intro hne h0
    apply hhead
    rw [← List.getLast?_reverse, List.getLast?_eq_some_getLast hne, h0]
  rw [value, Nat.digits_ofDigits b hb ds.reverse (fun d hd => hds d (List.mem_reverse.mp hd)) hlast,
    List.reverse_reverse]

/-- **Without the zeros in front there are the digits of the value.** -/
theorem significant_eq (hb : 1 < b) (hds : ∀ d ∈ ds, d < b) :
    significant ds = (Nat.digits b (value b ds)).reverse := by
  have hsig : ∀ d ∈ significant ds, d < b := fun d hd =>
    hds d ((List.dropWhile_sublist _).subset hd)
  rw [eq_digits hb hsig head_significant, value_significant]

theorem value_digits (n : Nat) : value b (Nat.digits b n).reverse = n := by
  rw [value, List.reverse_reverse, Nat.ofDigits_digits]

theorem head_digits (n : Nat) : (Nat.digits b n).reverse.head? ≠ some 0 := by
  intro h
  rw [List.head?_reverse] at h
  by_cases hn : n = 0
  · rw [hn, Nat.digits_zero] at h
    simp at h
  · have hne : Nat.digits b n ≠ [] := Nat.digits_ne_nil_iff_ne_zero.mpr hn
    rw [List.getLast?_eq_some_getLast hne] at h
    exact Nat.getLast_digit_ne_zero b hn (Option.some.inj h)

end Radix
