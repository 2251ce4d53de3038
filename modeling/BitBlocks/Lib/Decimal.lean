import Mathlib.Data.Nat.Digits.Lemmas

/-!
# Decimal numbers as text

How an integer is written in decimal, and which rows of characters are an integer
written so: digits without a leading zero, after a minus sign if it is negative. Every
row is the text of at most one integer (`read_eq_some`).
-/

namespace Decimal

/-! ## Digits -/

def digitValue (c : Char) : Nat := c.toNat - '0'.toNat

variable {d n : Nat} {c : Char} {s : List Char}

theorem digitValue_digitChar (h : d < 10) : digitValue d.digitChar = d := by
  interval_cases d <;> rfl

theorem digitValue_lt (h : c.isDigit = true) : digitValue c < 10 := by
  have hle : c.toNat ≤ 57 := (Char.isDigit_iff_toNat.mp h).2
  have h0 : '0'.toNat = 48 := rfl
  rw [digitValue, h0]
  omega

theorem digitChar_digitValue (h : c.isDigit = true) : (digitValue c).digitChar = c := by
  obtain ⟨h1, h2⟩ := Char.isDigit_iff_toNat.mp h
  have hc : c = Char.ofNat c.toNat := (Char.ofNat_toNat c).symm
  rw [digitValue, show '0'.toNat = 48 from rfl]
  generalize c.toNat = k at *
  subst hc
  have h1' : 48 ≤ k := h1
  have h2' : k ≤ 57 := h2
  interval_cases k <;> rfl

/-! ## Natural numbers -/

def natText (n : Nat) : List Char :=
  if n = 0 then ['0'] else (Nat.digits 10 n).reverse.map Nat.digitChar

def natValue (s : List Char) : Nat := Nat.ofDigits 10 (s.reverse.map digitValue)

/-- Digits, at least one, and no leading zero. -/
def isNatText (s : List Char) : Bool :=
  s.all Char.isDigit && (s == ['0'] || s.head?.any fun c => c != '0')

theorem natValue_natText (n : Nat) : natValue (natText n) = n := by
  unfold natText natValue
  split
  · rename_i h
    rw [h]
    rfl
  · have hid : (Nat.digits 10 n).map (digitValue ∘ Nat.digitChar) = Nat.digits 10 n := by
      rw [List.map_congr_left (g := id), List.map_id]
      intro d hd
      exact digitValue_digitChar (Nat.digits_lt_base (by decide) hd)
    rw [← List.map_reverse, List.reverse_reverse, List.map_map, hid, Nat.ofDigits_digits]

theorem isNatText_natText (n : Nat) : isNatText (natText n) = true := by
  unfold natText isNatText
  split
  · rfl
  · rename_i h
    have hne : Nat.digits 10 n ≠ [] := Nat.digits_ne_nil_iff_ne_zero.mpr h
    have hlast : (Nat.digits 10 n).getLast hne ≠ 0 := Nat.getLast_digit_ne_zero 10 h
    have hlt : ∀ d ∈ Nat.digits 10 n, d < 10 := fun d hd => Nat.digits_lt_base (by decide) hd
    rw [Bool.and_eq_true, List.all_eq_true, Bool.or_eq_true]
    refine ⟨?_, Or.inr ?_⟩
    · intro c hc
      obtain ⟨d, hd, rfl⟩ := List.mem_map.mp hc
      rw [Nat.isDigit_digitChar, decide_eq_true_eq]
      exact hlt d (List.mem_reverse.mp hd)
    · -- the leading digit is the last one of the list
      rw [List.head?_map, List.head?_reverse, List.getLast?_eq_some_getLast hne]
      have hd := hlt _ (List.getLast_mem hne)
      generalize (Nat.digits 10 n).getLast hne = d at hlast hd
      interval_cases d
      · exact absurd rfl hlast
      all_goals rfl

/-- **A row of digits without a leading zero is the text of its value.** -/
theorem natText_natValue (h : isNatText s = true) : natText (natValue s) = s := by
  rw [isNatText, Bool.and_eq_true, List.all_eq_true, Bool.or_eq_true] at h
  obtain ⟨hdigit, hzero | hlead⟩ := h
  · rw [beq_iff_eq.mp hzero]
    rfl
  · obtain ⟨c, rest, rfl⟩ : ∃ c rest, s = c :: rest := by
      cases s with
      | nil => simp at hlead
      | cons c rest => exact ⟨c, rest, rfl⟩
    have hc : c ≠ '0' := by simpa using hlead
    obtain ⟨L, hL⟩ : ∃ L, L = (c :: rest).reverse.map digitValue := ⟨_, rfl⟩
    have hlt : ∀ d ∈ L, d < 10 := by
      intro d hd
      rw [hL] at hd
      obtain ⟨e, he, rfl⟩ := List.mem_map.mp hd
      exact digitValue_lt (hdigit e (List.mem_reverse.mp he))
    have hlast : ∀ hne : L ≠ [], L.getLast hne ≠ 0 := by
      intro hne h0
      have hcL : L.getLast hne = digitValue c := by
        subst hL
        simp
      have hd := digitChar_digitValue (hdigit c List.mem_cons_self)
      rw [← hcL, h0] at hd
      exact hc hd.symm
    have hdigits : Nat.digits 10 (Nat.ofDigits 10 L) = L :=
      Nat.digits_ofDigits 10 (by decide) L hlt hlast
    have hback : L.reverse.map Nat.digitChar = c :: rest := by
      rw [hL, ← List.map_reverse, List.reverse_reverse, List.map_map, List.map_congr_left (g := id),
        List.map_id]
      intro e he
      exact digitChar_digitValue (hdigit e he)
    have hvalue : natValue (c :: rest) = Nat.ofDigits 10 L := by rw [natValue, hL]
    have hne : Nat.ofDigits 10 L ≠ 0 := by
      intro h0
      rw [h0, Nat.digits_zero] at hdigits
      rw [← hdigits] at hback
      simp at hback
    rw [hvalue, natText, if_neg hne, hdigits, hback]

theorem natValue_append (s t : List Char) :
    natValue (s ++ t) = natValue s * 10 ^ t.length + natValue t := by
  rw [natValue, List.reverse_append, List.map_append, Nat.ofDigits_append, List.length_map,
    List.length_reverse, Nat.add_comm, Nat.mul_comm]
  rfl

@[simp] theorem natValue_zeros (n : Nat) : natValue (List.replicate n '0') = 0 := by
  induction n with
  | zero => rfl
  | succ n ih =>
    have hone : natValue ['0'] = 0 := rfl
    rw [List.replicate_succ, ← List.singleton_append, natValue_append, hone, ih, Nat.zero_mul]

theorem isDigit_natText (n : Nat) : ∀ c ∈ natText n, c.isDigit = true := by
  have h := isNatText_natText n
  rw [isNatText, Bool.and_eq_true, List.all_eq_true] at h
  exact h.1

theorem natValue_lt_of_isDigit (h : ∀ c ∈ s, c.isDigit = true) : natValue s < 10 ^ s.length := by
  have hlt : ∀ d ∈ s.reverse.map digitValue, d < 10 := by
    intro d hd
    obtain ⟨c, hc, rfl⟩ := List.mem_map.mp hd
    exact digitValue_lt (h c (List.mem_reverse.mp hc))
  have hpow := Nat.ofDigits_lt_base_pow_length (by decide : 1 < 10) hlt
  rwa [List.length_map, List.length_reverse] at hpow

theorem length_natText_le {k : Nat} (hk : 0 < k) (h : n < 10 ^ k) : (natText n).length ≤ k := by
  unfold natText
  split
  · exact hk
  · rw [List.length_map, List.length_reverse]
    exact (Nat.digits_length_le_iff (by decide) n).mpr h

/-! ## Integers -/

/-- As `std::to_string` writes it. -/
def text (n : Int) : List Char := if n < 0 then '-' :: natText n.natAbs else natText n.natAbs

@[simp] theorem text_natCast (n : Nat) : text n = natText n := by
  rw [text, if_neg (by omega), Int.natAbs_natCast]

/-- The integer a row of characters is the text of. -/
def read (s : List Char) : Option Int :=
  match s with
  | '-' :: s =>
    -- there is no negative zero
    if isNatText s && s != ['0'] then some (-(natValue s : Int)) else none
  | s => if isNatText s then some (natValue s : Int) else none

theorem natText_eq_zero : natText n = ['0'] ↔ n = 0 := by
  constructor
  · intro h
    rw [← natValue_natText n, h]
    rfl
  · rintro rfl
    rfl

theorem head_natText (n : Nat) : ∀ s, natText n ≠ '-' :: s := by
  intro s h
  have hd := isNatText_natText n
  rw [h, isNatText, Bool.and_eq_true, List.all_eq_true] at hd
  exact absurd (hd.1 '-' List.mem_cons_self) (by decide)

theorem read_natText (n : Nat) : read (natText n) = some (n : Int) := by
  rw [read]
  · rw [if_pos (isNatText_natText n), natValue_natText]
  · exact head_natText n

theorem read_neg (h : n ≠ 0) : read ('-' :: natText n) = some (-(n : Int)) := by
  have hne : (natText n != ['0']) = true := by simpa [natText_eq_zero] using h
  rw [read, isNatText_natText, hne, natValue_natText]
  rfl

/-- **What is read is what was written**, and nothing else can be read. -/
theorem read_eq_some {n : Int} : read s = some n ↔ text n = s := by
  constructor
  · intro h
    unfold read at h
    split at h
    · rename_i r
      split at h
      · rename_i hr
        rw [Bool.and_eq_true] at hr
        obtain rfl := Option.some.inj h
        have hne : natValue r ≠ 0 := by
          intro h0
          have hr0 := natText_natValue hr.1
          rw [h0] at hr0
          exact absurd hr.2 (by rw [← hr0]; decide)
        rw [text, if_pos (by omega), Int.natAbs_neg, Int.natAbs_natCast, natText_natValue hr.1]
      · simp at h
    · split at h
      · rename_i hs
        obtain rfl := Option.some.inj h
        rw [text, if_neg (by omega), Int.natAbs_natCast, natText_natValue hs]
      · simp at h
  · rintro rfl
    unfold text
    split
    · rw [read_neg (by omega)]
      congr 1
      omega
    · rw [read_natText]
      congr 1
      omega

theorem text_ne_nil (n : Int) : text n ≠ [] := by
  intro h
  exact absurd (read_eq_some.mpr h) (by simp [read, isNatText])

theorem text_injective {m n : Int} (h : text m = text n) : m = n :=
  Option.some.inj ((read_eq_some.mpr rfl).symm.trans (read_eq_some.mpr h.symm))

end Decimal
