import Mathlib.Data.List.DropRight

/-!
# C strings

The characters in front of a NUL, walked with a pointer: what the pointer has not
passed is the rest of the list. Space and digits are those of the "C" locale.
-/

/-- What a `const char*` points to, up to the NUL. -/
structure CString where
  chars : List Char
  noNul : Char.ofNat 0 ∉ chars

namespace CString

/-- What `std::string::c_str` is read as: a NUL inside the string ends it. -/
def ofString (s : List Char) : CString where
  chars := s.takeWhile (· != Char.ofNat 0)
  noNul := fun h => absurd (List.mem_takeWhile_imp h) (by simp)

theorem chars_ofString {s : List Char} (h : Char.ofNat 0 ∉ s) : (ofString s).chars = s := by
  refine List.takeWhile_eq_self_iff.mpr fun c hc => ?_
  have hne : c ≠ Char.ofNat 0 := fun heq => h (heq ▸ hc)
  exact bne_iff_ne.mpr hne

/-- Space, tab, newline, vertical tab, form feed, carriage return. -/
def isspace (c : Char) : Bool := c.toNat == 32 || (9 ≤ c.toNat && c.toNat ≤ 13)

def trim (s : List Char) : List Char := (s.dropWhile isspace).rdropWhile isspace

theorem isspace_eq_false_of_isDigit {c : Char} (h : c.isDigit = true) : isspace c = false := by
  have hge : 48 ≤ c.toNat := (Char.isDigit_iff_toNat.mp h).1
  rw [isspace, Bool.or_eq_false_iff, Bool.and_eq_false_iff]
  refine ⟨?_, Or.inr ?_⟩
  · rw [beq_eq_false_iff_ne]
    omega
  · rw [decide_eq_false_iff_not]
    omega

variable {α : Type} {p : α → Bool}

theorem dropWhile_append {pre s : List α} (hpre : ∀ c ∈ pre, p c = true) :
    (pre ++ s).dropWhile p = s.dropWhile p := by
  rw [List.dropWhile_append, if_pos (by simpa [List.isEmpty_iff] using hpre)]

theorem dropWhile_eq_self {s : List α} (h : ∀ c, s.head? = some c → p c = false) :
    s.dropWhile p = s := by
  cases s with
  | nil => rfl
  | cons c s => rw [List.dropWhile_cons, if_neg (by simpa using h c rfl)]

theorem takeWhile_append {pre s : List α} (hpre : ∀ c ∈ pre, p c = true)
    (h : ∀ c, s.head? = some c → p c = false) : (pre ++ s).takeWhile p = pre := by
  rw [List.takeWhile_append_of_pos hpre]
  cases s with
  | nil => exact List.append_nil pre
  | cons c s => rw [List.takeWhile_cons, if_neg (by simpa using h c rfl), List.append_nil]

theorem head_dropWhile {s : List α} {c : α} (h : (s.dropWhile p).head? = some c) : p c = false := by
  have hhead := List.head?_dropWhile_not p s
  rw [h] at hhead
  simpa using hhead

theorem dropWhile_isspace {pre core post : List Char} (hpre : ∀ c ∈ pre, isspace c = true)
    (hcore : ∀ c ∈ core, isspace c = false) (hpost : ∀ c ∈ post, isspace c = true) :
    ∃ post', (∀ c ∈ post', isspace c = true) ∧
      (pre ++ (core ++ post)).dropWhile isspace = core ++ post' := by
  rw [dropWhile_append hpre]
  cases core with
  | nil => exact ⟨[], by simp, List.dropWhile_eq_nil_iff.mpr hpost⟩
  | cons c core =>
    refine ⟨post, hpost, dropWhile_eq_self fun d hd => ?_⟩
    obtain rfl := Option.some.inj hd
    exact hcore c List.mem_cons_self

theorem trim_append {pre core post : List Char} (hpre : ∀ c ∈ pre, isspace c = true)
    (hcore : ∀ c ∈ core, isspace c = false) (hpost : ∀ c ∈ post, isspace c = true) :
    trim (pre ++ (core ++ post)) = core := by
  obtain ⟨post', hpost', hdrop⟩ := dropWhile_isspace hpre hcore hpost
  have hself : core.reverse.dropWhile isspace = core.reverse :=
    dropWhile_eq_self fun c hc => hcore c (List.mem_reverse.mp (List.mem_of_head? hc))
  rw [trim, hdrop, List.rdropWhile, List.reverse_append,
    dropWhile_append (fun c hc => hpost' c (List.mem_reverse.mp hc)), hself, List.reverse_reverse]

end CString
