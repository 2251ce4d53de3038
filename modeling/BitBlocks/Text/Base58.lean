import BitBlocks.Lib.CString
import BitBlocks.Lib.Radix

/-!
# Base58 text (`EncodeBase58`, `DecodeBase58`)

A byte vector is a number in base 256, and its text the number in base 58, both
with their leading zeros kept: a zero byte is a `1` and back. Each way a buffer is
allocated at a rate that is a little over the logarithm of one base in the other,
so nothing is ever carried out of it (`256 ^ 100 ≤ 58 ^ 138`, and
`58 ^ 71 ≤ 256 ^ 52` with `52 / 71` below `733 / 1000`).
-/

namespace BitBlocks

open CString

/-- All alphanumeric characters except for `0`, `I`, `O` and `l`. -/
def pszBase58 : List Char :=
  ['1', '2', '3', '4', '5', '6', '7', '8', '9', 'A', 'B', 'C', 'D', 'E', 'F', 'G', 'H', 'J', 'K',
    'L', 'M', 'N', 'P', 'Q', 'R', 'S', 'T', 'U', 'V', 'W', 'X', 'Y', 'Z', 'a', 'b', 'c', 'd', 'e',
    'f', 'g', 'h', 'i', 'j', 'k', 'm', 'n', 'o', 'p', 'q', 'r', 's', 't', 'u', 'v', 'w', 'x', 'y',
    'z']

/-- How decoding ends without a result: the function returns false, or `assert(carry == 0)`
fails. -/
inductive Base58Failure
  | rejected
  | assertion
  deriving DecidableEq, Repr

/-- Process the characters up to a space or the end. -/
def decodeLoop : (psz : List Char) → (b256 : List Nat) → Except Base58Failure (List Char × List Nat)
  | [], b256 => .ok ([], b256)
  | c :: psz, b256 =>
    if isspace c then .ok (c :: psz, b256)
    else
      match pszBase58.idxOf? c with
      | none => .error .rejected
      | some ch =>
        let s := Radix.mulAdd 58 256 ch b256
        if s.2 = 0 then decodeLoop psz s.1 else .error .assertion

def decodeBase58 (psz : CString) : Except Base58Failure (List UInt8) :=
  let psz := psz.chars.dropWhile isspace
  let zeroes := (psz.takeWhile (· == '1')).length
  let psz := psz.dropWhile (· == '1')
  match decodeLoop psz (List.replicate (psz.length * 733 / 1000 + 1) 0) with
  | .error e => .error e
  | .ok (psz, b256) =>
    if psz.dropWhile isspace ≠ [] then .error .rejected
    else .ok (List.replicate zeroes 0 ++ (Radix.significant b256).map UInt8.ofNat)

def symbols (b58 : List Nat) : List Char := b58.map fun d => pszBase58.getD d '1'

/-- `none` where `assert(carry == 0)` fails. -/
def encodeBase58 (vch : List UInt8) : Option (List Char) :=
  let zeroes := (vch.takeWhile (· == 0)).length
  let vch := vch.dropWhile (· == 0)
  (Radix.feed 256 58 (vch.map UInt8.toNat) (List.replicate (vch.length * 138 / 100 + 1) 0)).map
    fun b58 => List.replicate zeroes '1' ++ symbols (Radix.significant b58)

/-! ## The characters -/

theorem isspace_pszBase58 : ∀ c ∈ pszBase58, isspace c = false ∧ c ≠ Char.ofNat 0 := by
  have hall : pszBase58.all (fun c => !isspace c && c != Char.ofNat 0) = true := by decide
  simpa using hall

variable {d z : Nat} {ds : List Nat} {psz : CString} {bs : List UInt8}

theorem symbol_mem (h : d < 58) : pszBase58.getD d '1' ∈ pszBase58 := by
  have hget : pszBase58[d]? = some (pszBase58.getD d '1') := by
    rw [List.getD_eq_getElem?_getD, List.getElem?_eq_getElem h, Option.getD_some]
  exact List.mem_of_getElem? hget

theorem idxOf?_symbol (h : d < 58) : pszBase58.idxOf? (pszBase58.getD d '1') = some d := by
  have hall : ∀ e ∈ List.range 58, pszBase58.idxOf? (pszBase58.getD e '1') = some e := by decide
  exact hall d (List.mem_range.mpr h)

theorem symbol_of_idxOf? {c : Char} (h : pszBase58.idxOf? c = some d) :
    d < 58 ∧ pszBase58.getD d '1' = c := by
  obtain ⟨hd, hget, -⟩ := List.idxOf?_eq_some_iff.mp h
  exact ⟨hd, by rw [List.getD_eq_getElem?_getD, List.getElem?_eq_getElem hd, hget,
    Option.getD_some]⟩

theorem symbol_eq_one_iff (h : d < 58) : pszBase58.getD d '1' = '1' ↔ d = 0 := by
  constructor
  · intro h1
    have hidx := idxOf?_symbol h
    rw [h1] at hidx
    exact (Option.some.inj hidx).symm
  · rintro rfl
    rfl

theorem mem_symbols (hds : ∀ d ∈ ds, d < 58) : ∀ c ∈ symbols ds, c ∈ pszBase58 := by
  intro c hc
  obtain ⟨d, hd, rfl⟩ := List.mem_map.mp hc
  exact symbol_mem (hds d hd)

theorem isspace_symbols (hds : ∀ d ∈ ds, d < 58) : ∀ c ∈ symbols ds, isspace c = false :=
  fun c hc => (isspace_pszBase58 c (mem_symbols hds c hc)).1

theorem symbols_injective {es : List Nat} (hds : ∀ d ∈ ds, d < 58) (hes : ∀ d ∈ es, d < 58)
    (h : symbols ds = symbols es) : ds = es := by
  have hidx : ∀ l : List Nat, (∀ d ∈ l, d < 58) →
      (symbols l).map pszBase58.idxOf? = l.map some := by
    intro l hl
    rw [symbols, List.map_map]
    exact List.map_congr_left fun d hd => idxOf?_symbol (hl d hd)
  have hsome := congrArg (List.map pszBase58.idxOf?) h
  rw [hidx ds hds, hidx es hes] at hsome
  exact List.map_injective_iff.mpr (Option.some_injective Nat) hsome

/-! ## Decoding -/

def word (psz : List Char) : List Char := psz.takeWhile fun c => !isspace c

/-- With room for all the characters nothing is carried out: the loop stops at a character that is
no digit, or it has read the digits up to a space or the end. -/
theorem decodeLoop_spec {psz : List Char} {b256 : List Nat} (hb : ∀ d ∈ b256, d < 256)
    (hroom : (Radix.value 256 b256 + 1) * 58 ^ psz.length ≤ 256 ^ b256.length) :
    (decodeLoop psz b256 = .error .rejected ∧ ∃ c ∈ word psz, c ∉ pszBase58) ∨
    ∃ ds out, decodeLoop psz b256 = .ok (psz.dropWhile fun c => !isspace c, out) ∧
      (∀ d ∈ ds, d < 58) ∧ word psz = symbols ds ∧ (∀ d ∈ out, d < 256) ∧
      Radix.value 256 out = Radix.value 256 b256 * 58 ^ ds.length + Radix.value 58 ds := by
  induction psz generalizing b256 with
  | nil => exact Or.inr ⟨[], b256, rfl, by simp, rfl, hb, by simp⟩
  | cons c psz ih =>
    by_cases hc : isspace c = true
    · refine Or.inr ⟨[], b256, ?_, by simp, ?_, hb, by simp⟩
      · rw [decodeLoop, if_pos hc, List.dropWhile_cons, if_neg (by simp [hc])]
      · rw [word, List.takeWhile_cons, if_neg (by simp [hc])]
        rfl
    · have hword : word (c :: psz) = c :: word psz := by
        rw [word, List.takeWhile_cons, if_pos (by simpa using hc)]
        rfl
      have hdrop : (c :: psz).dropWhile (fun c => !isspace c) =
          psz.dropWhile fun c => !isspace c := by
        rw [List.dropWhile_cons, if_pos (by simpa using hc)]
      rw [decodeLoop, if_neg hc, hword, hdrop]
      cases hidx : pszBase58.idxOf? c with
      | none => exact Or.inl ⟨rfl, c, List.mem_cons_self, List.idxOf?_eq_none_iff.mp hidx⟩
      | some ch =>
        obtain ⟨hch, hsym⟩ := symbol_of_idxOf? hidx
        rw [List.length_cons, Nat.pow_succ'] at hroom
        -- the value after this character, with the room it leaves for the others
        have hnext : (58 * Radix.value 256 b256 + ch + 1) * 58 ^ psz.length ≤
            256 ^ b256.length := by
          refine le_trans (Nat.mul_le_mul_right _ ?_) (by rwa [← Nat.mul_assoc] at hroom)
          omega
        have hone : 58 * Radix.value 256 b256 + ch < 256 ^ b256.length := by
          have hle := Nat.le_mul_of_pos_right (58 * Radix.value 256 b256 + ch + 1)
            (Nat.pow_pos (n := psz.length) (show 0 < 58 by omega))
          omega
        obtain ⟨hcarry, hval⟩ := Radix.mulAdd_fits hone
        simp only [hcarry, if_true]
        have hlen := Radix.length_mulAdd (m := 58) (b := 256) ch b256
        rcases ih (Radix.mulAdd_lt (by decide) ch b256) (by rw [hval, hlen]; exact hnext) with
          ⟨hloop, d, hd, hnot⟩ | ⟨ds, out, hloop, hds, hsyms, hout, hv⟩
        · exact Or.inl ⟨hloop, d, List.mem_cons_of_mem c hd, hnot⟩
        · refine Or.inr ⟨ch :: ds, out, hloop, ?_, ?_, hout, ?_⟩
          · exact List.forall_mem_cons.mpr ⟨hch, hds⟩
          · rw [hsyms, symbols, symbols, List.map_cons, hsym]
          · rw [hv, hval, Radix.value_cons, List.length_cons, Nat.pow_succ]
            ring

/-- The bytes of a number, the leading one first. -/
def numberBytes (n : Nat) : List UInt8 := (Nat.digits 256 n).reverse.map UInt8.ofNat

theorem decode_room (n : Nat) : 58 ^ n ≤ 256 ^ (n * 733 / 1000 + 1) :=
  Radix.pow_le_pow_of_rate (p := 71) (q := 52) (by decide) (by decide) (by norm_num) (by omega)

/-- What the loop is started on has room for all the characters. -/
theorem decodeLoop_zeros (psz : List Char) :
    (decodeLoop psz (List.replicate (psz.length * 733 / 1000 + 1) 0) = .error .rejected ∧
      ∃ c ∈ word psz, c ∉ pszBase58) ∨
    ∃ ds out, decodeLoop psz (List.replicate (psz.length * 733 / 1000 + 1) 0) =
        .ok (psz.dropWhile fun c => !isspace c, out) ∧
      (∀ d ∈ ds, d < 58) ∧ word psz = symbols ds ∧
      (Radix.significant out).map UInt8.ofNat = numberBytes (Radix.value 58 ds) := by
  have hroom : (Radix.value 256 (List.replicate (psz.length * 733 / 1000 + 1) 0) + 1) *
      58 ^ psz.length ≤ 256 ^ (List.replicate (psz.length * 733 / 1000 + 1) 0).length := by
    rw [Radix.value_replicate_zero, Nat.zero_add, Nat.one_mul, List.length_replicate]
    exact decode_room psz.length
  rcases decodeLoop_spec (by simp) hroom with h | ⟨ds, out, hloop, hds, hword, hout, hval⟩
  · exact Or.inl h
  · rw [Radix.value_replicate_zero, Nat.zero_mul, Nat.zero_add] at hval
    refine Or.inr ⟨ds, out, hloop, hds, hword, ?_⟩
    rw [Radix.significant_eq (by decide) hout, hval, numberBytes]

theorem isspace_ones_symbols (hds : ∀ d ∈ ds, d < 58) (z : Nat) :
    ∀ c ∈ List.replicate z '1' ++ symbols ds, isspace c = false := by
  intro c hc
  rcases List.mem_append.mp hc with hone | hsym
  · rw [List.eq_of_mem_replicate hone]
    rfl
  · exact isspace_symbols hds c hsym

/-- **Text that is accepted**: ones, digits of base 58 the first of which is not zero, and space
around them. -/
theorem decodeBase58_eq {pre post : List Char}
    (hpsz : psz.chars = pre ++ ((List.replicate z '1' ++ symbols ds) ++ post))
    (hpre : ∀ c ∈ pre, isspace c = true) (hpost : ∀ c ∈ post, isspace c = true)
    (hds : ∀ d ∈ ds, d < 58) (hhead : ds.head? ≠ some 0) :
    decodeBase58 psz = .ok (List.replicate z 0 ++ numberBytes (Radix.value 58 ds)) := by
  obtain ⟨post', hafter, hskip⟩ := dropWhile_isspace hpre (isspace_ones_symbols hds z) hpost
  -- neither the digits nor the space behind them start with a one
  have hbody : ∀ c, (symbols ds ++ post').head? = some c → (c == '1') = false := by
    intro c hc
    rw [beq_eq_false_iff_ne]
    rintro rfl
    cases ds with
    | nil => exact absurd (hafter '1' (List.mem_of_head? hc)) (by decide)
    | cons d ds =>
      have hd := (symbol_eq_one_iff (hds d List.mem_cons_self)).mp (Option.some.inj hc)
      exact hhead (congrArg some hd)
  have hones : ∀ c ∈ List.replicate z '1', (c == '1') = true := fun c hc =>
    beq_iff_eq.mpr (List.eq_of_mem_replicate hc)
  have hsp : ∀ c, post'.head? = some c → (!isspace c) = false := fun c hc => by
    rw [hafter c (List.mem_of_head? hc)]
    rfl
  have hns : ∀ c ∈ symbols ds, (!isspace c) = true := fun c hc => by
    rw [isspace_symbols hds c hc]
    rfl
  have hword : word (symbols ds ++ post') = symbols ds := CString.takeWhile_append hns hsp
  have hrest : (symbols ds ++ post').dropWhile (fun c => !isspace c) = post' := by
    rw [CString.dropWhile_append hns, dropWhile_eq_self hsp]
  rw [decodeBase58, hpsz, hskip, List.append_assoc, CString.takeWhile_append hones hbody,
    CString.dropWhile_append hones, dropWhile_eq_self hbody, List.length_replicate]
  rcases decodeLoop_zeros (symbols ds ++ post') with
    ⟨-, c, hc, hnot⟩ | ⟨es, out, hloop, hes, hsyms, hout⟩
  · rw [hword] at hc
    exact absurd (mem_symbols hds c hc) hnot
  · obtain rfl := symbols_injective hds hes (hword.symm.trans hsyms)
    simp only [hloop, hrest, List.dropWhile_eq_nil_iff.mpr hafter, hout, ne_eq,
      not_true_eq_false, if_false]

/-- **All other text is rejected**, and no assertion fails. -/
theorem decodeBase58_cases (psz : CString) : decodeBase58 psz = .error .rejected ∨
    ∃ pre z ds post, psz.chars = pre ++ ((List.replicate z '1' ++ symbols ds) ++ post) ∧
      (∀ c ∈ pre, isspace c = true) ∧ (∀ c ∈ post, isspace c = true) ∧ (∀ d ∈ ds, d < 58) ∧
      ds.head? ≠ some 0 := by
  obtain ⟨s, hs⟩ : ∃ s, s = psz.chars.dropWhile isspace := ⟨_, rfl⟩
  obtain ⟨t, ht⟩ : ∃ t, t = s.dropWhile (· == '1') := ⟨_, rfl⟩
  rcases decodeLoop_zeros t with ⟨hloop, -⟩ | ⟨ds, out, hloop, hds, hword, -⟩
  · left
    rw [decodeBase58, ← hs, ← ht]
    simp only [hloop]
  · by_cases hend : (t.dropWhile fun c => !isspace c).dropWhile isspace = []
    · right
      refine ⟨psz.chars.takeWhile isspace, (s.takeWhile (· == '1')).length, ds,
        t.dropWhile fun c => !isspace c, ?_, fun c hc => List.mem_takeWhile_imp hc, ?_, hds, ?_⟩
      · have hones : s.takeWhile (· == '1') = List.replicate (s.takeWhile (· == '1')).length '1' :=
          List.eq_replicate_iff.mpr ⟨rfl, fun c hc =>
              beq_iff_eq.mp (List.mem_takeWhile_imp (p := fun d => d == '1') hc)⟩
        rw [← hones, ← hword, word, List.append_assoc, List.takeWhile_append_dropWhile, ht,
          List.takeWhile_append_dropWhile, hs, List.takeWhile_append_dropWhile]
      · exact List.dropWhile_eq_nil_iff.mp hend
      · intro hzero
        obtain ⟨es, rfl⟩ : ∃ es, ds = 0 :: es := by
          cases ds with
          | nil => simp at hzero
          | cons d es => exact ⟨es, by rw [Option.some.inj hzero]⟩
        -- a leading zero would be one more of the ones that were skipped
        have hhead : t.head? = some '1' := by
          have hmem : (word t).head? = some '1' := by
            rw [hword]
            rfl
          cases t with
          | nil => simp [word] at hmem
          | cons c t =>
            rw [word, List.takeWhile_cons] at hmem
            split at hmem
            · exact hmem
            · simp at hmem
        have hne := head_dropWhile (ht ▸ hhead)
        exact absurd hne (by decide)
    · left
      rw [decodeBase58, ← hs, ← ht]
      simp only [hloop, ne_eq, hend, not_false_eq_true, if_true]

/-! ## Encoding -/

theorem encode_room (n : Nat) : 256 ^ n ≤ 58 ^ (n * 138 / 100 + 1) :=
  Radix.pow_le_pow_of_rate (p := 100) (q := 138) (by decide) (by decide) (by norm_num) (by omega)

theorem encodeBase58_eq (hhead : bs.head? ≠ some 0) :
    encodeBase58 (List.replicate z 0 ++ bs) = some (List.replicate z '1' ++
      symbols (Nat.digits 58 (Radix.value 256 (bs.map UInt8.toNat))).reverse) := by
  have hzeros : ∀ b ∈ List.replicate z (0 : UInt8), (b == 0) = true := fun b hb =>
    beq_iff_eq.mpr (List.eq_of_mem_replicate hb)
  have hbs : ∀ b, bs.head? = some b → (b == 0) = false := by
    intro b hb
    rw [beq_eq_false_iff_ne]
    rintro rfl
    exact hhead hb
  have hlt : ∀ d ∈ bs.map UInt8.toNat, d < 256 := by
    intro d hd
    obtain ⟨b, -, rfl⟩ := List.mem_map.mp hd
    exact b.toNat_lt
  have hroom : 256 ^ (bs.map UInt8.toNat).length ≤ 58 ^ (bs.length * 138 / 100 + 1) := by
    rw [List.length_map]
    exact encode_room bs.length
  obtain ⟨out, hfeed, hout, hval⟩ := Radix.feed_zeros (b := 58) (by decide) (by decide) hlt hroom
  rw [encodeBase58, CString.takeWhile_append hzeros hbs, CString.dropWhile_append hzeros,
    dropWhile_eq_self hbs, List.length_replicate]
  simp only [hfeed, Option.map_some, Radix.significant_eq (by decide) hout, hval]

theorem toNat_numberBytes (n : Nat) :
    (numberBytes n).map UInt8.toNat = (Nat.digits 256 n).reverse := by
  rw [numberBytes, List.map_map]
  refine (List.map_congr_left (g := id) fun d hd => ?_).trans (List.map_id _)
  have hlt := Nat.digits_lt_base (by decide) (List.mem_reverse.mp hd)
  exact UInt8.toNat_ofNat_of_lt' hlt

theorem head_numberBytes (n : Nat) : (numberBytes n).head? ≠ some 0 := by
  intro h
  have hmap := congrArg (Option.map UInt8.toNat) h
  rw [← List.head?_map, toNat_numberBytes] at hmap
  exact Radix.head_digits n hmap

theorem numberBytes_value (hhead : bs.head? ≠ some 0) :
    numberBytes (Radix.value 256 (bs.map UInt8.toNat)) = bs := by
  have hlt : ∀ d ∈ bs.map UInt8.toNat, d < 256 := by
    intro d hd
    obtain ⟨b, -, rfl⟩ := List.mem_map.mp hd
    exact b.toNat_lt
  have hmap : (bs.map UInt8.toNat).head? ≠ some 0 := by
    intro h
    rw [List.head?_map] at h
    obtain ⟨b, hb, h0⟩ := Option.map_eq_some_iff.mp h
    exact hhead (hb.trans (congrArg some (UInt8.toNat_inj.mp h0)))
  rw [numberBytes, ← Radix.eq_digits (by decide) hlt hmap, List.map_map]
  refine (List.map_congr_left (g := id) fun b hb => ?_).trans (List.map_id _)
  exact UInt8.ofNat_toNat

theorem exists_zeros (vch : List UInt8) :
    ∃ z bs, vch = List.replicate z 0 ++ bs ∧ bs.head? ≠ some 0 := by
  refine ⟨(vch.takeWhile (· == 0)).length, vch.dropWhile (· == 0), ?_, ?_⟩
  · have hzeros : vch.takeWhile (· == 0) = List.replicate (vch.takeWhile (· == 0)).length 0 :=
      List.eq_replicate_iff.mpr ⟨rfl, fun b hb =>
        beq_iff_eq.mp (List.mem_takeWhile_imp (p := fun c => c == 0) hb)⟩
    rw [← hzeros, List.takeWhile_append_dropWhile]
  · intro h
    exact absurd (head_dropWhile h) (by decide)

/-- **What is encoded is decoded to the same bytes.** -/
theorem decodeBase58_encodeBase58 (vch : List UInt8) :
    ∃ str, encodeBase58 vch = some str ∧ decodeBase58 (ofString str) = .ok vch := by
  obtain ⟨z, bs, rfl, hhead⟩ := exists_zeros vch
  refine ⟨_, encodeBase58_eq hhead, ?_⟩
  obtain ⟨ds, hdef⟩ : ∃ ds, ds = (Nat.digits 58 (Radix.value 256 (bs.map UInt8.toNat))).reverse :=
    ⟨_, rfl⟩
  have hds : ∀ d ∈ ds, d < 58 := by
    intro d hd
    rw [hdef, List.mem_reverse] at hd
    exact Nat.digits_lt_base (by decide) hd
  have hval : Radix.value 58 ds = Radix.value 256 (bs.map UInt8.toNat) := by
    rw [hdef, Radix.value_digits]
  have hnul : Char.ofNat 0 ∉ List.replicate z '1' ++ symbols ds := by
    intro h0
    rcases List.mem_append.mp h0 with hone | hsym
    · exact absurd (List.eq_of_mem_replicate hone) (by decide)
    · exact (isspace_pszBase58 _ (mem_symbols hds _ hsym)).2 rfl
  have hchars : (ofString (List.replicate z '1' ++ symbols ds)).chars =
      [] ++ ((List.replicate z '1' ++ symbols ds) ++ []) := by
    rw [chars_ofString hnul, List.append_nil, List.nil_append]
  rw [← hdef, decodeBase58_eq hchars (by simp) (by simp) hds (hdef ▸ Radix.head_digits _), hval,
    numberBytes_value hhead]

/-- **What is decoded is encoded to the same text**, without the space around it. -/
theorem encodeBase58_decodeBase58 {vch : List UInt8} (h : decodeBase58 psz = .ok vch) :
    encodeBase58 vch = some (trim psz.chars) := by
  rcases decodeBase58_cases psz with hrej | ⟨pre, z, ds, post, hchars, hpre, hpost, hds, hhead⟩
  · rw [hrej] at h
    exact nomatch h
  · rw [decodeBase58_eq hchars hpre hpost hds hhead] at h
    obtain rfl := Except.ok.inj h
    rw [encodeBase58_eq (head_numberBytes _), toNat_numberBytes, Radix.value_digits,
      ← Radix.eq_digits (by decide) hds hhead, hchars,
      trim_append hpre (isspace_ones_symbols hds z) hpost]

/-- **Base58 text goes round both ways**, and neither direction runs out of its buffer. -/
theorem base58_round_trip :
    (∀ vch, ∃ str, encodeBase58 vch = some str ∧ decodeBase58 (ofString str) = .ok vch) ∧
    (∀ psz vch, decodeBase58 psz = .ok vch → encodeBase58 vch = some (trim psz.chars)) ∧
    (∀ psz, decodeBase58 psz ≠ .error .assertion) := by
  refine ⟨decodeBase58_encodeBase58, fun psz vch => encodeBase58_decodeBase58, fun psz h => ?_⟩
  rcases decodeBase58_cases psz with hrej | ⟨pre, z, ds, post, hchars, hpre, hpost, hds, hhead⟩
  · rw [hrej] at h
    exact nomatch h
  · rw [decodeBase58_eq hchars hpre hpost hds hhead] at h
    exact nomatch h

example : encodeBase58 [0x00, 0x61] = some ['1', '2', 'g'] := by decide

end BitBlocks
