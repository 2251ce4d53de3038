import BitBlocks.Lib.CString
import BitBlocks.Node.Params

/-!
# Amounts as text (`FormatMoney`, `ParseMoney`)

An amount is written with eight decimals, of which zeros at the end are taken away
while there are more than two. The scanner that reads it back takes at most eight
decimals and at most ten digits in front of the point, so that what it computes
stays below `10 ^ 18` and no `int64_t` overflows. Either row of digits may be
empty: the text of a numeral stands for its digits as a whole over a power of ten.
-/

namespace BitBlocks

open CString

/-! ## Writing -/

/-- `%08d` of a number that is not negative. -/
def pad8 (r : Nat) : List Char :=
  List.replicate (8 - (Decimal.natText r).length) '0' ++ Decimal.natText r

/-- Zeros at the end from `str[i]` on, while a digit is two places in front. The point ends the
loop before `i - 2` is negative. -/
def trimFrom (str : List Char) : (i : Nat) → Nat
  | i + 2 =>
    if str[i + 2]? = some '0' ∧ str[i]?.any Char.isDigit = true then trimFrom str (i + 1) + 1 else 0
  | _ => 0

def formatMoney (n : Int) (fPlus : Bool) : List Char :=
  let n_abs := if n > 0 then n else -n
  let quotient := n_abs / COIN
  let remainder := n_abs % COIN
  let str := Decimal.text quotient ++ '.' :: pad8 remainder.toNat
  let nTrim := trimFrom str (str.length - 1)
  let str := str.take (str.length - nTrim)
  if n < 0 then '-' :: str else if fPlus && n > 0 then '+' :: str else str

/-! ## Reading -/

/-- How parsing ends without a result: the function returns false, or an `int64_t` overflows. -/
inductive MoneyFailure
  | rejected
  | overflow
  deriving DecidableEq, Repr

/-- The result of an operation on `int64_t`. -/
def int64 (n : Int) : Except MoneyFailure Int :=
  if -2 ^ 63 ≤ n ∧ n < 2 ^ 63 then .ok n else .error .overflow

/-- The digits behind the point, the first worth `nMult`. -/
def scanUnits : (p : List Char) → (nUnits nMult : Int) → Except MoneyFailure (Int × List Char)
  | [], nUnits, _ => .ok (nUnits, [])
  | c :: p, nUnits, nMult =>
    if c.isDigit = true ∧ nMult > 0 then do
      let add ← int64 (nMult * Decimal.digitValue c)
      let nUnits ← int64 (nUnits + add)
      scanUnits p nUnits (nMult / 10)
    else .ok (nUnits, c :: p)

/-- Digits, a point, space: the digits go to `strWhole`, and at a point those behind it are added
up. -/
def scanWhole : (p strWhole : List Char) → Except MoneyFailure (List Char × Int × List Char)
  | [], strWhole => .ok (strWhole, 0, [])
  | c :: p, strWhole =>
    if c = '.' then (scanUnits p 0 (CENT * 10)).map fun s => (strWhole, s)
    else if isspace c then .ok (strWhole, 0, c :: p)
    else if !c.isDigit then .error .rejected
    else scanWhole p (strWhole ++ [c])

/-- `strtoll(str, NULL, 10)`: space, a sign, digits; a number past the type is its largest or
smallest value. -/
def atoi64 (str : List Char) : Int :=
  match str.dropWhile isspace with
  | '-' :: s => max (-2 ^ 63) (-(Decimal.natValue (s.takeWhile Char.isDigit) : Int))
  | '+' :: s => min (2 ^ 63 - 1) (Decimal.natValue (s.takeWhile Char.isDigit) : Int)
  | s => min (2 ^ 63 - 1) (Decimal.natValue (s.takeWhile Char.isDigit) : Int)

def parseMoney (pszIn : CString) : Except MoneyFailure Int := do
  let (strWhole, nUnits, p) ← scanWhole (pszIn.chars.dropWhile isspace) []
  if !p.all isspace then .error .rejected
  -- guard against 63 bit overflow
  else if strWhole.length > 10 then .error .rejected
  else if nUnits < 0 || nUnits > COIN then .error .rejected
  else do
    let nWhole ← int64 (atoi64 strWhole * COIN)
    int64 (nWhole + nUnits)

/-! ## Numerals -/

/-- Digits, and further digits behind a point if there is one. -/
structure Numeral where
  whole : List Char
  frac : Option (List Char)

namespace Numeral

def text (m : Numeral) : List Char :=
  m.whole ++ match m.frac with
    | none => []
    | some f => '.' :: f

def decimals (m : Numeral) : List Char := m.frac.getD []

def value (m : Numeral) : Rat :=
  (Decimal.natValue (m.whole ++ m.decimals) : Rat) / 10 ^ m.decimals.length

/-- What `ParseMoney` takes. -/
structure Fits (m : Numeral) : Prop where
  whole : ∀ c ∈ m.whole, c.isDigit = true
  decimals : ∀ c ∈ m.decimals, c.isDigit = true
  length_whole : m.whole.length ≤ 10
  length_decimals : m.decimals.length ≤ 8

def units (m : Numeral) : Int :=
  Decimal.natValue m.whole * COIN + Decimal.natValue m.decimals * 10 ^ (8 - m.decimals.length)

variable {m : Numeral}

/-- **The units are the number written times `COIN`.** -/
theorem units_eq (hm : m.Fits) : (m.units : Rat) = m.value * COIN := by
  have hpow : (10 : Rat) ^ (8 - m.decimals.length) * 10 ^ m.decimals.length = COIN := by
    rw [← pow_add, Nat.sub_add_cancel hm.length_decimals, COIN]
    norm_num
  have hne : (10 : Rat) ^ m.decimals.length ≠ 0 := pow_ne_zero _ (by norm_num)
  rw [units, value, Decimal.natValue_append, div_mul_eq_mul_div, eq_div_iff hne, ← hpow]
  push_cast
  rw [← hpow]
  ring

theorem units_bounds (hm : m.Fits) : 0 ≤ m.units ∧ m.units < 2 ^ 63 := by
  have hw := Decimal.natValue_lt_of_isDigit hm.whole
  have hf := Decimal.natValue_lt_of_isDigit hm.decimals
  have hw10 : Decimal.natValue m.whole < 10 ^ 10 :=
    lt_of_lt_of_le hw (Nat.pow_le_pow_right (by decide) hm.length_whole)
  have hf8 : Decimal.natValue m.decimals * 10 ^ (8 - m.decimals.length) < 10 ^ 8 := by
    calc Decimal.natValue m.decimals * 10 ^ (8 - m.decimals.length)
        < 10 ^ m.decimals.length * 10 ^ (8 - m.decimals.length) :=
          Nat.mul_lt_mul_of_pos_right hf (Nat.pow_pos (by decide))
      _ = 10 ^ 8 := by rw [← Nat.pow_add, Nat.add_sub_cancel' hm.length_decimals]
  have hcast : m.units = ((Decimal.natValue m.whole * 100000000 +
      Decimal.natValue m.decimals * 10 ^ (8 - m.decimals.length) : Nat) : Int) := by
    rw [units, COIN]
    push_cast
    rfl
  rw [hcast]
  omega

end Numeral

/-! ## What is read -/

variable {n nUnits : Int} {f rest w : List Char} {k : Nat} {psz : CString}

theorem int64_eq (h : -2 ^ 63 ≤ n ∧ n < 2 ^ 63) : int64 n = .ok n := if_pos h

/-- What the place after `k` more decimals is worth: nothing behind the eighth. -/
def place : (k : Nat) → Int
  | 0 => 0
  | k + 1 => 10 ^ k

theorem place_div (k : Nat) : place (k + 1) / 10 = place k := by
  cases k with
  | zero => rfl
  | succ k =>
    rw [place, place, pow_succ]
    exact Int.mul_ediv_cancel _ (by decide)

/-- The scan behind the point takes `k` digits at most, and what it adds stays below the place in
front of them. -/
theorem scanUnits_eq (hf : ∀ c ∈ f, c.isDigit = true) (hlen : f.length ≤ k)
    (hrest : ∀ c, rest.head? = some c → f.length < k → c.isDigit = false) (h0 : 0 ≤ nUnits)
    (hroom : nUnits + 10 ^ k ≤ 2 ^ 63) :
    scanUnits (f ++ rest) nUnits (place k) =
      .ok (nUnits + Decimal.natValue f * 10 ^ (k - f.length), rest) := by
  induction f generalizing k nUnits with
  | nil =>
    have hval : Decimal.natValue [] = 0 := rfl
    rw [List.nil_append, hval, Nat.cast_zero, Int.zero_mul, Int.add_zero]
    cases rest with
    | nil => rfl
    | cons c rest =>
      rw [scanUnits, if_neg]
      rintro ⟨hc, hplace⟩
      cases k with
      | zero => exact absurd hplace (by decide)
      | succ k => exact absurd hc (by simp [hrest c rfl (by simp)])
  | cons c f ih =>
    obtain ⟨k, rfl⟩ : ∃ k', k = k' + 1 := ⟨k - 1, by simp at hlen; omega⟩
    have hpos : (0 : Int) < 10 ^ k := by positivity
    have hd : (Decimal.digitValue c : Int) < 10 := by
      exact_mod_cast Decimal.digitValue_lt (hf c List.mem_cons_self)
    have hpow : (10 : Int) ^ (k + 1) = 10 * 10 ^ k := by rw [pow_succ, mul_comm]
    have hadd : (10 : Int) ^ k * Decimal.digitValue c ≤ 10 ^ k * 9 :=
      Int.mul_le_mul_of_nonneg_left (by omega) hpos.le
    have hadd0 : 0 ≤ (10 : Int) ^ k * Decimal.digitValue c := by positivity
    rw [hpow] at hroom
    rw [List.cons_append, scanUnits, if_pos ⟨hf c List.mem_cons_self, hpos⟩, place,
      int64_eq ⟨by omega, by omega⟩]
    show (int64 (nUnits + 10 ^ k * Decimal.digitValue c) >>= fun n =>
      scanUnits (f ++ rest) n (place (k + 1) / 10)) = _
    rw [int64_eq ⟨by omega, by omega⟩, place_div]
    show scanUnits (f ++ rest) (nUnits + 10 ^ k * Decimal.digitValue c) (place k) = _
    rw [List.length_cons] at hlen hrest
    rw [ih (fun d hd => hf d (List.mem_cons_of_mem c hd)) (by omega)
      (fun d hd hlt => hrest d hd (by omega)) (by omega) (by omega),
      ← List.singleton_append (l := f), Decimal.natValue_append, List.length_append,
      List.length_singleton]
    have hone : Decimal.natValue [c] = Decimal.digitValue c := by
      rw [Decimal.natValue, List.reverse_singleton, List.map_singleton, Nat.ofDigits_singleton]
    have hsplit : (10 : Int) ^ k = 10 ^ f.length * 10 ^ (k - f.length) := by
      rw [← pow_add, Nat.add_sub_cancel' (by omega)]
    have hexp : k + 1 - (1 + f.length) = k - f.length := by omega
    rw [hone, hexp, hsplit]
    push_cast
    congr 2
    ring

theorem scanWhole_digits (hw : ∀ c ∈ w, c.isDigit = true) (rest strWhole : List Char) :
    scanWhole (w ++ rest) strWhole = scanWhole rest (strWhole ++ w) := by
  induction w generalizing strWhole with
  | nil => rw [List.nil_append, List.append_nil]
  | cons c w ih =>
    have hc := hw c List.mem_cons_self
    have hpoint : c ≠ '.' := by
      rintro rfl
      exact absurd hc (by decide)
    rw [List.cons_append, scanWhole, if_neg hpoint, isspace_eq_false_of_isDigit hc, hc,
      if_neg (by decide), if_neg (by decide), ih fun d hd => hw d (List.mem_cons_of_mem c hd),
      List.append_assoc, List.singleton_append]

theorem scanUnits_point (hf : ∀ c ∈ f, c.isDigit = true) (hlen : f.length ≤ 8)
    (hrest : ∀ c, rest.head? = some c → f.length < 8 → c.isDigit = false) :
    scanUnits (f ++ rest) 0 (CENT * 10) = .ok (Decimal.natValue f * 10 ^ (8 - f.length), rest) := by
  have hscan := scanUnits_eq (k := 8) hf hlen hrest (le_refl 0) (by norm_num)
  rwa [Int.zero_add] at hscan

theorem atoi64_eq {s : List Char} (hs : ∀ c ∈ s, c.isDigit = true) (hlen : s.length ≤ 10) :
    atoi64 s = Decimal.natValue s := by
  have hval : Decimal.natValue s < 10 ^ 10 :=
    lt_of_lt_of_le (Decimal.natValue_lt_of_isDigit hs) (Nat.pow_le_pow_right (by decide) hlen)
  have hskip : s.dropWhile isspace = s := dropWhile_eq_self fun c hc =>
    isspace_eq_false_of_isDigit (hs c (List.mem_of_head? hc))
  rw [atoi64, hskip]
  split
  · exact absurd (hs '-' List.mem_cons_self) (by decide)
  · exact absurd (hs '+' List.mem_cons_self) (by decide)
  · rw [List.takeWhile_eq_self_iff.mpr hs]
    omega

theorem parseMoney_of_scan {p : List Char}
    (hscan : scanWhole (psz.chars.dropWhile isspace) [] = .ok (w, nUnits, p))
    (hw : ∀ c ∈ w, c.isDigit = true) (h0 : 0 ≤ nUnits) (hlt : nUnits < COIN) :
    parseMoney psz = if p.all isspace = true ∧ w.length ≤ 10 then
      .ok (Decimal.natValue w * COIN + nUnits) else .error .rejected := by
  have hguard : (decide (nUnits < 0) || decide (nUnits > COIN)) = false := by
    rw [Bool.or_eq_false_iff, decide_eq_false_iff_not, decide_eq_false_iff_not]
    exact ⟨by omega, by omega⟩
  have hparse : parseMoney psz =
      if !p.all isspace then .error .rejected
      else if w.length > 10 then .error .rejected
      else if decide (nUnits < 0) || decide (nUnits > COIN) then .error .rejected
      else int64 (atoi64 w * COIN) >>= fun nWhole => int64 (nWhole + nUnits) := by
    rw [parseMoney, hscan]
    rfl
  rw [hparse, hguard]
  by_cases hp : p.all isspace = true
  · by_cases hlen : w.length ≤ 10
    · have hval : Decimal.natValue w < 10 ^ 10 :=
        lt_of_lt_of_le (Decimal.natValue_lt_of_isDigit hw) (Nat.pow_le_pow_right (by decide) hlen)
      rw [COIN] at hlt
      rw [if_neg (by simpa using hp), if_neg (by omega), if_neg (by decide), if_pos ⟨hp, hlen⟩,
        atoi64_eq hw hlen, COIN, int64_eq ⟨by omega, by omega⟩]
      exact int64_eq ⟨by omega, by omega⟩
    · rw [if_neg (by simpa using hp), if_pos (by omega), if_neg fun h => hlen h.2]
  · rw [if_pos (by simpa using hp), if_neg fun h => hp h.1]

theorem units_lt_coin (hf : ∀ c ∈ f, c.isDigit = true) (hlen : f.length ≤ 8) :
    (Decimal.natValue f * 10 ^ (8 - f.length) : Int) < COIN := by
  have hval := Decimal.natValue_lt_of_isDigit hf
  have hlt : Decimal.natValue f * 10 ^ (8 - f.length) < 10 ^ f.length * 10 ^ (8 - f.length) :=
    Nat.mul_lt_mul_of_pos_right hval (Nat.pow_pos (by decide))
  rw [← Nat.pow_add, Nat.add_sub_cancel' hlen] at hlt
  rw [COIN]
  exact_mod_cast hlt

theorem isDigit_eq_false_of_isspace {c : Char} (h : isspace c = true) : c.isDigit = false := by
  by_contra hd
  rw [isspace_eq_false_of_isDigit (Bool.not_eq_false _ ▸ hd)] at h
  exact absurd h (by decide)

/-- **A numeral that fits is read as its units**, with space around it. -/
theorem parseMoney_eq {pre post : List Char} {m : Numeral}
    (hpsz : psz.chars = pre ++ (m.text ++ post)) (hpre : ∀ c ∈ pre, isspace c = true)
    (hpost : ∀ c ∈ post, isspace c = true) (hm : m.Fits) : parseMoney psz = .ok m.units := by
  obtain ⟨w, frac⟩ := m
  have hcore : ∀ c ∈ Numeral.text ⟨w, frac⟩, isspace c = false := by
    intro c hc
    rcases List.mem_append.mp hc with hc | hc
    · exact isspace_eq_false_of_isDigit (hm.whole c hc)
    · cases frac with
      | none => simp at hc
      | some f =>
        rcases List.mem_cons.mp hc with rfl | hc
        · rfl
        · exact isspace_eq_false_of_isDigit (hm.decimals c hc)
  obtain ⟨post', hpost', hskip⟩ := dropWhile_isspace hpre hcore hpost
  have hhead : ∀ c, post'.head? = some c → c.isDigit = false := fun c hc =>
    isDigit_eq_false_of_isspace (hpost' c (List.mem_of_head? hc))
  rw [← hpsz, Numeral.text, List.append_assoc] at hskip
  have hscan : scanWhole (psz.chars.dropWhile isspace) [] = .ok (w,
      Decimal.natValue (Numeral.decimals ⟨w, frac⟩) *
        10 ^ (8 - (Numeral.decimals ⟨w, frac⟩).length), post') := by
    rw [hskip, scanWhole_digits hm.whole, List.nil_append]
    cases frac with
    | none =>
      have hzero : (Decimal.natValue (Numeral.decimals ⟨w, none⟩) : Int) = 0 := rfl
      rw [hzero, Int.zero_mul, List.nil_append]
      cases post' with
      | nil => rfl
      | cons c q =>
        have hc := hpost' c List.mem_cons_self
        have hpoint : c ≠ '.' := by
          rintro rfl
          exact absurd hc (by decide)
        rw [scanWhole, if_neg hpoint, if_pos hc]
    | some f =>
      have hunits := scanUnits_point (f := f) hm.decimals hm.length_decimals
        fun c hc _ => hhead c hc
      rw [List.cons_append, scanWhole, if_pos rfl, hunits]
      rfl
  rw [parseMoney_of_scan hscan hm.whole (by positivity)
    (units_lt_coin hm.decimals hm.length_decimals),
      if_pos ⟨List.all_eq_true.mpr hpost', hm.length_whole⟩]
  rfl

/-- **All other text is rejected**, and nothing overflows. -/
theorem parseMoney_cases (psz : CString) : parseMoney psz = .error .rejected ∨
    ∃ pre m post, psz.chars = pre ++ (Numeral.text m ++ post) ∧ (∀ c ∈ pre, isspace c = true) ∧
      (∀ c ∈ post, isspace c = true) ∧ m.Fits := by
  obtain ⟨s, hs⟩ : ∃ s, s = psz.chars.dropWhile isspace := ⟨_, rfl⟩
  obtain ⟨w, hw⟩ : ∃ w, w = s.takeWhile Char.isDigit := ⟨_, rfl⟩
  obtain ⟨r, hr⟩ : ∃ r, r = s.dropWhile Char.isDigit := ⟨_, rfl⟩
  have hdigits : ∀ c ∈ w, c.isDigit = true := fun c hc => List.mem_takeWhile_imp (hw ▸ hc)
  have hpre : ∀ c ∈ psz.chars.takeWhile isspace, isspace c = true := fun c hc =>
    List.mem_takeWhile_imp hc
  have hchars : psz.chars = psz.chars.takeWhile isspace ++ (w ++ r) := by
    rw [hw, hr, List.takeWhile_append_dropWhile, hs, List.takeWhile_append_dropWhile]
  have hrun : scanWhole s [] = scanWhole r w := by
    have happ := scanWhole_digits hdigits r []
    rwa [hw, hr, List.takeWhile_append_dropWhile, List.nil_append, ← hw, ← hr] at happ
  -- the scan has found a numeral with `p` behind it
  have hnumeral : ∀ (m : Numeral) (p : List Char), m.whole = w → m.text ++ p = w ++ r →
      (∀ c ∈ m.decimals, c.isDigit = true) → m.decimals.length ≤ 8 →
      scanWhole r w = .ok (w, Decimal.natValue m.decimals * 10 ^ (8 - m.decimals.length), p) →
      parseMoney psz = .error .rejected ∨
      ∃ pre m post, psz.chars = pre ++ (Numeral.text m ++ post) ∧ (∀ c ∈ pre, isspace c = true) ∧
        (∀ c ∈ post, isspace c = true) ∧ m.Fits := by
    rintro m p rfl htext hdec hlen hscan
    by_cases hp : p.all isspace = true ∧ m.whole.length ≤ 10
    · have hpost := List.all_eq_true.mp hp.1
      exact Or.inr ⟨_, m, p, htext ▸ hchars, hpre, hpost, hdigits, hdec, hp.2, hlen⟩
    · left
      rw [parseMoney_of_scan (hs ▸ hrun.trans hscan) hdigits (by positivity)
        (units_lt_coin hdec hlen), if_neg hp]
  have hzero : (Decimal.natValue (Numeral.decimals ⟨w, none⟩) : Int) = 0 := rfl
  cases r with
  | nil =>
    refine hnumeral ⟨w, none⟩ [] rfl (by simp [Numeral.text]) (by simp [Numeral.decimals])
      (Nat.zero_le _) ?_
    rw [hzero, Int.zero_mul]
    rfl
  | cons c q =>
    have hc : c.isDigit = false := head_dropWhile (p := Char.isDigit) (s := s) (by rw [← hr]; rfl)
    rw [scanWhole] at hnumeral
    by_cases hpoint : c = '.'
    · obtain rfl := hpoint
      obtain ⟨f, hf⟩ : ∃ f, f = (q.takeWhile Char.isDigit).take 8 := ⟨_, rfl⟩
      have hfd : ∀ d ∈ f, d.isDigit = true := fun d hd =>
        List.mem_takeWhile_imp ((List.take_subset 8 _) (hf ▸ hd))
      have hlen : f.length ≤ 8 := by
        rw [hf]
        exact List.length_take_le 8 _
      obtain ⟨p, hp⟩ : ∃ p, q = f ++ p := by
        refine ⟨(q.takeWhile Char.isDigit).drop 8 ++ q.dropWhile Char.isDigit, ?_⟩
        rw [hf, ← List.append_assoc, List.take_append_drop, List.takeWhile_append_dropWhile]
      have hhead : ∀ d, p.head? = some d → f.length < 8 → d.isDigit = false := by
        intro d hd hlt
        rw [hf, List.length_take] at hlt
        have hall : f = q.takeWhile Char.isDigit := by
          rw [hf, List.take_of_length_le (by omega)]
        have hsame : f ++ p = f ++ q.dropWhile Char.isDigit := by
          rw [← hp, hall, List.takeWhile_append_dropWhile]
        rw [List.append_cancel_left hsame] at hd
        exact head_dropWhile hd
      refine hnumeral ⟨w, some f⟩ p rfl (by simp [Numeral.text, hp]) hfd hlen ?_
      rw [if_pos rfl, hp, scanUnits_point hfd hlen hhead]
      rfl
    · rw [if_neg hpoint] at hnumeral
      by_cases hsp : isspace c = true
      · refine hnumeral ⟨w, none⟩ (c :: q) rfl (by simp [Numeral.text]) (by simp [Numeral.decimals])
          (Nat.zero_le _) ?_
        rw [if_pos hsp, hzero, Int.zero_mul]
      · left
        have hrej : scanWhole (c :: q) w = .error .rejected := by
          rw [scanWhole, if_neg hpoint, if_neg hsp, hc, if_pos (by decide)]
        rw [parseMoney, ← hs, hrun, hrej]
        rfl

/-! ## What is written is read back -/

theorem trimFrom_zeros (str : List Char) (i : Nat) : trimFrom str i ≤ i + 1 ∧
      str.take (i + 1) = str.take (i + 1 - trimFrom str i) ++
      List.replicate (trimFrom str i) '0' := by
  induction i with
  | zero => simp [trimFrom]
  | succ i ih =>
    cases i with
    | zero => simp [trimFrom]
    | succ i =>
      rw [trimFrom]
      split
      · rename_i h
        obtain ⟨hle, htake⟩ := ih
        refine ⟨by omega, ?_⟩
        have hsub : i + 1 + 1 + 1 - (trimFrom str (i + 1) + 1) =
            i + 1 + 1 - trimFrom str (i + 1) := by omega
        rw [hsub, List.replicate_succ', ← List.append_assoc, ← htake, List.take_add_one, h.1]
        rfl
      · simp

theorem trimFrom_le {str : List Char} (hpoint : str[k]? = some '.') (j : Nat) :
    trimFrom str (k + 2 + j) ≤ j := by
  induction j with
  | zero =>
    rw [Nat.add_zero, trimFrom, hpoint, if_neg]
    rintro ⟨-, h⟩
    exact absurd h (by decide)
  | succ j ih =>
    have hindex : k + 2 + (j + 1) = k + j + 1 + 2 := by omega
    have hindex' : k + 2 + j = k + j + 1 + 1 := by omega
    rw [hindex'] at ih
    rw [hindex, trimFrom]
    split
    · omega
    · exact Nat.zero_le _

theorem pad8_spec {r : Nat} (h : r < 10 ^ 8) :
    (pad8 r).length = 8 ∧ Decimal.natValue (pad8 r) = r ∧ ∀ c ∈ pad8 r, c.isDigit = true := by
  have hlen := Decimal.length_natText_le (by decide) h
  refine ⟨?_, ?_, ?_⟩
  · rw [pad8, List.length_append, List.length_replicate]
    omega
  · rw [pad8, Decimal.natValue_append, Decimal.natValue_zeros, Nat.zero_mul, Nat.zero_add,
      Decimal.natValue_natText]
  · intro c hc
    rcases List.mem_append.mp hc with hc | hc
    · rw [List.eq_of_mem_replicate hc]
      rfl
    · exact Decimal.isDigit_natText r c hc

theorem formatMoney_eq (h : 0 ≤ n) : ∃ f k, pad8 (n % COIN).toNat = f ++ List.replicate k '0' ∧
      formatMoney n false = Decimal.natText (n / COIN).toNat ++ '.' :: f := by
  obtain ⟨w, hw⟩ : ∃ w, w = Decimal.natText (n / COIN).toNat := ⟨_, rfl⟩
  obtain ⟨p, hp⟩ : ∃ p, p = pad8 (n % COIN).toNat := ⟨_, rfl⟩
  obtain ⟨str, hstr⟩ : ∃ str, str = w ++ '.' :: p := ⟨_, rfl⟩
  have hlen : p.length = 8 := by
    rw [hp]
    refine (pad8_spec ?_).1
    rw [COIN]
    omega
  have hsize : str.length - 1 = w.length + 2 + 6 := by
    rw [hstr, List.length_append, List.length_cons, hlen]
    omega
  have hpoint : str[w.length]? = some '.' := by
    rw [hstr, List.getElem?_append_right (Nat.le_refl _), Nat.sub_self]
    rfl
  obtain ⟨k, hk⟩ : ∃ k, k = trimFrom str (str.length - 1) := ⟨_, rfl⟩
  have hk6 : k ≤ 6 := by
    rw [hk, hsize]
    exact trimFrom_le hpoint 6
  -- what is kept reaches two places behind the point at least
  have hkept : str.take (str.length - k) = w ++ '.' :: p.take (8 - k) := by
    have hplace : str.length - k = w.length + (8 - k + 1) := by omega
    rw [hplace, hstr, List.take_length_add_append, List.take_succ_cons]
  have hall := (trimFrom_zeros str (str.length - 1)).2
  have hone : str.length - 1 + 1 = str.length := by omega
  rw [hone, List.take_length, ← hk, hkept, hstr, List.append_assoc, List.cons_append] at hall
  refine ⟨p.take (8 - k), k, ?_, ?_⟩
  · rw [← hp]
    exact (List.cons.inj (List.append_cancel_left hall)).2
  · have habs : (if n > 0 then n else -n) = n := by
      split
      · rfl
      · omega
    have hquot : Decimal.text (n / COIN) = w := by
      have hnat : ((n / COIN).toNat : Int) = n / COIN := by
        rw [COIN]
        omega
      rw [hw, ← hnat, Decimal.text_natCast, Int.toNat_natCast]
    rw [formatMoney]
    simp only [habs, hquot, ← hp, ← hstr, ← hk, hkept]
    rw [if_neg (by omega), if_neg (by simp), hw]

/-- **What is written is read back.** -/
theorem parseMoney_formatMoney (h : 0 ≤ n) (hdigits : n / COIN < 10 ^ 10) :
    parseMoney (ofString (formatMoney n false)) = .ok n := by
  obtain ⟨f, k, hpad, hformat⟩ := formatMoney_eq h
  have hlt : (n % COIN).toNat < 10 ^ 8 := by
    rw [COIN]
    omega
  have hquot : (n / COIN).toNat < 10 ^ 10 := by omega
  obtain ⟨hlen, hval, hdig⟩ := pad8_spec hlt
  rw [hpad] at hlen hval hdig
  rw [List.length_append, List.length_replicate] at hlen
  rw [Decimal.natValue_append, Decimal.natValue_zeros, Nat.add_zero, List.length_replicate] at hval
  have hfits : Numeral.Fits ⟨Decimal.natText (n / COIN).toNat, some f⟩ := {
    whole := Decimal.isDigit_natText _
    decimals := fun c hc => hdig c (List.mem_append_left _ hc)
    length_whole := Decimal.length_natText_le (by decide) hquot
    length_decimals := by
      show f.length ≤ 8
      omega }
  have hnul : Char.ofNat 0 ∉ formatMoney n false := by
    intro h0
    rw [hformat] at h0
    have hd : (Char.ofNat 0).isDigit = false := by decide
    rcases List.mem_append.mp h0 with h0 | h0
    · exact absurd (Decimal.isDigit_natText _ _ h0) (by rw [hd]; decide)
    · rcases List.mem_cons.mp h0 with h0 | h0
      · exact absurd h0 (by decide)
      · exact absurd (hfits.decimals _ h0) (by rw [hd]; decide)
  have hchars : (ofString (formatMoney n false)).chars =
      [] ++ (Numeral.text ⟨Decimal.natText (n / COIN).toNat, some f⟩ ++ []) := by
    rw [chars_ofString hnul, hformat, List.append_nil, List.nil_append, Numeral.text]
  have hk : k = 8 - f.length := by omega
  rw [parseMoney_eq hchars (by simp) (by simp) hfits]
  refine congrArg Except.ok ?_
  have hunits : Numeral.units ⟨Decimal.natText (n / COIN).toNat, some f⟩ =
      ((n / COIN).toNat : Int) * COIN + ((n % COIN).toNat : Int) := by
    rw [Numeral.units, Decimal.natValue_natText, ← hval, hk]
    push_cast
    rfl
  rw [hunits, COIN]
  omega

/-- **Amounts go round, and what is read is the number written**: it is not negative, nothing
overflows on the way, and it is the decimal number times `COIN`. -/
theorem money_round_trip : (∀ n : Int, 0 ≤ n → n / COIN < 10 ^ 10 →
      parseMoney (ofString (formatMoney n false)) = .ok n) ∧
    (∀ psz v, parseMoney psz = .ok v → 0 ≤ v ∧ v < 2 ^ 63 ∧
      ∃ pre m post, psz.chars = pre ++ (Numeral.text m ++ post) ∧
        (∀ c ∈ pre, isspace c = true) ∧ (∀ c ∈ post, isspace c = true) ∧
        (∀ c ∈ m.whole ++ m.decimals, c.isDigit = true) ∧ m.decimals.length ≤ 8 ∧
        (v : Rat) = m.value * COIN) ∧
    (∀ psz, parseMoney psz ≠ .error .overflow) := by
  refine ⟨fun n => parseMoney_formatMoney, fun psz v hv => ?_, fun psz hover => ?_⟩
  · rcases parseMoney_cases psz with hrej | ⟨pre, m, post, hchars, hpre, hpost, hm⟩
    · rw [hrej] at hv
      exact nomatch hv
    · rw [parseMoney_eq hchars hpre hpost hm] at hv
      obtain rfl := Except.ok.inj hv
      obtain ⟨h0, hlt⟩ := Numeral.units_bounds hm
      refine ⟨h0, hlt, pre, m, post, hchars, hpre, hpost, fun c hc => ?_, hm.length_decimals,
        Numeral.units_eq hm⟩
      exact (List.mem_append.mp hc).elim (hm.whole c) (hm.decimals c)
  · rcases parseMoney_cases psz with hrej | ⟨pre, m, post, hchars, hpre, hpost, hm⟩
    · rw [hrej] at hover
      exact nomatch hover
    · rw [parseMoney_eq hchars hpre hpost hm] at hover
      exact nomatch hover

example : formatMoney 1234567890000 false =
    ['1', '2', '3', '4', '5', '.', '6', '7', '8', '9'] := by decide

end BitBlocks
