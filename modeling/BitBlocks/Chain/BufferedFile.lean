import BitBlocks.Lib.Machine
import BitBlocks.Lib.Ring

/-!
# A file that can be rewound (`CBufferedFile` of `streams.h`)

A file is read through a ring buffer, so that one can go back in it. What was read last is in
the buffer, and what a call delivers are the file's bytes. How far one can go back is told from
how far the file was read into the buffer. The buffer is filled ahead of the reader, so this may
be less than what is promised: going back to where the reader has been, and no further than
`nRewind`, works just when the buffer was not filled too far ahead.

Positions are of 64 bits and the places in the buffer that are computed of 32, with the sums
and differences as they come out in them.
-/

namespace BitBlocks

structure SourceFile where
  bytes : List UInt8
  /-- A position in it is an `off_t`. -/
  length_lt : bytes.length < 2 ^ 63

structure CBufferedFile where
  src : SourceFile
  /-- `feof(src)`. -/
  feof : Bool := false
  nSrcPos : Nat := 0
  nReadPos : Nat := 0
  nReadLimit : Nat := 2 ^ 64 - 1
  nRewind : Nat
  /-- `vchBuf.size()`. -/
  nBufSize : Nat
  vchBuf : Nat → UInt8 := fun _ => 0

inductive FileFault where
  /-- `std::ios_base::failure`. -/
  | failure (what : String)
  /-- It reaches outside of the buffer, or of the destination. -/
  | outside
  /-- A loop goes on for ever. -/
  | endless
  deriving DecidableEq, Repr

namespace CBufferedFile

def init (fileIn : SourceFile) (nBufSize nRewindIn : Nat) : CBufferedFile :=
  { src := fileIn, nRewind := nRewindIn, nBufSize }

/-- `Fill`. -/
def fill (s : CBufferedFile) : Except FileFault Bool × CBufferedFile :=
  let pos := s.nSrcPos % s.nBufSize % 2 ^ 32
  let readNow := (s.nBufSize - pos) % 2 ^ 32
  let nAvail := (((s.nBufSize : Int) - (s.nSrcPos - s.nReadPos) - s.nRewind) % 2 ^ 32).toNat
  let readNow := if nAvail < readNow then nAvail else readNow
  if readNow = 0 then (.ok false, s)
  else
    -- `fread`
    let chunk := (s.src.bytes.drop s.nSrcPos).take readNow
    let s := { s with feof := s.feof || decide (chunk.length < readNow) }
    if chunk.length = 0 then
      (.error (.failure (if s.feof then "CBufferedFile::Fill : end of file"
        else "CBufferedFile::Fill : fread failed")), s)
    else (.ok true, { s with
      nSrcPos := s.nSrcPos + chunk.length
      vchBuf := Ring.put s.vchBuf pos chunk })

/-- `eof`. -/
def eof (s : CBufferedFile) : Bool := s.nReadPos == s.nSrcPos && s.feof

/-- The loop of `read`. A round that does not get on leaves everything as it is, and so does the
next one. -/
def readLoop : Nat → CBufferedFile → Nat → List UInt8 →
    Except FileFault (List UInt8) × CBufferedFile
  | 0, s, nSize, pch => (if nSize = 0 then .ok pch else .error .endless, s)
  | rounds + 1, s, nSize, pch =>
    if nSize = 0 then (.ok pch, s)
    else
      match if s.nReadPos = s.nSrcPos then s.fill else (.ok true, s) with
      | (.error e, s) => (.error e, s)
      | (.ok _, s) =>
        let pos := s.nReadPos % s.nBufSize % 2 ^ 32
        let nNow := nSize
        let nNow := if (nNow + pos) % 2 ^ 64 > s.nBufSize then s.nBufSize - pos else nNow
        let nNow := if (nNow + s.nReadPos) % 2 ^ 64 > s.nSrcPos then
            (2 ^ 64 + s.nSrcPos - s.nReadPos) % 2 ^ 64 else nNow
        if pos + nNow > s.nBufSize ∨ nNow > nSize then (.error .outside, s)
        else readLoop rounds { s with nReadPos := (s.nReadPos + nNow) % 2 ^ 64 }
          (nSize - nNow) (pch ++ Ring.slice s.vchBuf pos nNow)

/-- `read`. -/
def read (s : CBufferedFile) (nSize : Nat) : Except FileFault (List UInt8) × CBufferedFile :=
  if (nSize + s.nReadPos) % 2 ^ 64 > s.nReadLimit then
    (.error (.failure "Read attempted past buffer limit"), s)
  else if (nSize + s.nRewind) % 2 ^ 64 > s.nBufSize then
    (.error (.failure "Read larger than buffer size"), s)
  else readLoop nSize s nSize []

/-- `SetPos`. -/
def setPos (s : CBufferedFile) (nPos : Nat) : Bool × CBufferedFile :=
  if (nPos + s.nRewind) % 2 ^ 64 < s.nSrcPos then
    (false, { s with nReadPos := (2 ^ 64 + s.nSrcPos - s.nRewind) % 2 ^ 64 })
  else if nPos > s.nSrcPos then (false, { s with nReadPos := s.nSrcPos })
  else (true, { s with nReadPos := nPos })

/-- `SetLimit`. -/
def setLimit (s : CBufferedFile) (nPos : Nat) : Bool × CBufferedFile :=
  if nPos < s.nReadPos then (false, s) else (true, { s with nReadLimit := nPos })

/-- The loop of `FindByte`. -/
def findLoop (ch : UInt8) : Nat → CBufferedFile → Except FileFault Unit × CBufferedFile
  | 0, s => (.error .endless, s)
  | rounds + 1, s =>
    match if s.nReadPos = s.nSrcPos then s.fill else (.ok true, s) with
    | (.error e, s) => (.error e, s)
    | (.ok _, s) =>
      if s.vchBuf (s.nReadPos % s.nBufSize) = ch then (.ok (), s)
      else findLoop ch rounds { s with nReadPos := (s.nReadPos + 1) % 2 ^ 64 }

/-- `FindByte`. Within as many rounds the byte is found, or the file ends, or every place of the
buffer was looked at. -/
def findByte (s : CBufferedFile) (ch : UInt8) : Except FileFault Unit × CBufferedFile :=
  findLoop ch (s.src.bytes.length + s.nBufSize + 2) s

/-! ## The buffer holds the end of what was read -/

/-- `Fill` gets on wherever it is called: sizes fit 32 bits, or the file ends before the place where
they do not. -/
structure Fillable (nBufSize nRewind nLength : Nat) : Prop where
  rewind_lt : nRewind < nBufSize
  /-- A vector has as many elements at most. -/
  size_lt : nBufSize < 2 ^ 63
  avail : ((nBufSize : Int) - nRewind) % 2 ^ 32 ≠ 0
  place : nBufSize < 2 ^ 32 ∨ nLength < nBufSize % 2 ^ 32

structure Inv (s : CBufferedFile) : Prop where
  fillable : Fillable s.nBufSize s.nRewind s.src.bytes.length
  read_le : s.nReadPos ≤ s.nSrcPos
  src_le : s.nSrcPos ≤ s.src.bytes.length
  behind : s.nSrcPos ≤ s.nReadPos + s.nBufSize
  holds : Ring.Holds s.nBufSize s.vchBuf s.src.bytes s.nSrcPos

/-- The file is the same, and it was not read less far. -/
structure Onward (s s' : CBufferedFile) : Prop where
  src : s'.src = s.src
  rewind : s'.nRewind = s.nRewind
  size : s'.nBufSize = s.nBufSize
  srcPos : s.nSrcPos ≤ s'.nSrcPos

theorem Onward.refl (s : CBufferedFile) : Onward s s := ⟨rfl, rfl, rfl, Nat.le_refl _⟩

theorem Onward.trans {s s' s'' : CBufferedFile} (h : Onward s s') (h' : Onward s' s'') :
    Onward s s'' where
  src := h'.src.trans h.src
  rewind := h'.rewind.trans h.rewind
  size := h'.size.trans h.size
  srcPos := h.srcPos.trans h'.srcPos

variable {s : CBufferedFile}

theorem init_inv {fileIn : SourceFile} {nBufSize nRewindIn : Nat}
    (h : Fillable nBufSize nRewindIn fileIn.bytes.length) : (init fileIn nBufSize nRewindIn).Inv :=
  ⟨h, Nat.le_refl _, Nat.zero_le _, Nat.zero_le _, Ring.holds_zero _ _ _⟩

theorem Inv.nSrcPos_lt (h : s.Inv) : s.nSrcPos < 2 ^ 63 := h.src_le.trans_lt s.src.length_lt

theorem Inv.nRewind_lt (h : s.Inv) : s.nRewind < 2 ^ 63 :=
  h.fillable.rewind_lt.trans h.fillable.size_lt

theorem Fillable.at {nBufSize nRewind nLength q : Nat} (h : Fillable nBufSize nRewind nLength)
    (hq : q ≤ nLength) :
    q % nBufSize % 2 ^ 32 = q % nBufSize ∧ 0 < (nBufSize - q % nBufSize) % 2 ^ 32 ∧
      (nBufSize - q % nBufSize) % 2 ^ 32 ≤ nBufSize - q % nBufSize := by
  have hpos : 0 < nBufSize := Nat.zero_lt_of_lt h.rewind_lt
  have hlt := Nat.mod_lt q hpos
  refine ⟨?_, ?_, Nat.mod_le _ _⟩
  · rcases h.place with hsize | hshort
    · exact Nat.mod_eq_of_lt (by omega)
    · have hle := Nat.mod_le nBufSize (2 ^ 32)
      rw [Nat.mod_eq_of_lt (show q < nBufSize by omega)]
      exact Nat.mod_eq_of_lt (by omega)
  · rcases h.place with hsize | hshort
    · rw [Nat.mod_eq_of_lt (by omega)]
      omega
    · have hle := Nat.mod_le nBufSize (2 ^ 32)
      rw [Nat.mod_eq_of_lt (show q < nBufSize by omega)]
      omega

/-- **`Fill` reads on**, or the file has ended. -/
theorem fill_spec (h : s.Inv) (hat : s.nReadPos = s.nSrcPos) :
    (s.nSrcPos = s.src.bytes.length ∧ s.fill =
      (.error (.failure "CBufferedFile::Fill : end of file"), { s with feof := true })) ∨
    ∃ s', s.fill = (.ok true, s') ∧ s'.Inv ∧ Onward s s' ∧ s'.nReadPos = s.nReadPos ∧
      s.nSrcPos < s'.nSrcPos := by
  obtain ⟨hplace, hroom, hle⟩ := h.fillable.at h.src_le
  have havail :
      0 < (((s.nBufSize : Int) - (s.nSrcPos - s.nReadPos) - s.nRewind) % 2 ^ 32).toNat := by
    have hne := h.fillable.avail
    have hnonneg :=
      Int.emod_nonneg ((s.nBufSize : Int) - s.nRewind) (show (2 : Int) ^ 32 ≠ 0 by decide)
    rw [hat, Int.sub_self, Int.sub_zero]
    omega
  rw [fill, hplace]
  dsimp only
  generalize hnow :
    (if (((s.nBufSize : Int) - (s.nSrcPos - s.nReadPos) - s.nRewind) % 2 ^ 32).toNat <
      (s.nBufSize - s.nSrcPos % s.nBufSize) % 2 ^ 32 then
        (((s.nBufSize : Int) - (s.nSrcPos - s.nReadPos) - s.nRewind) % 2 ^ 32).toNat
      else (s.nBufSize - s.nSrcPos % s.nBufSize) % 2 ^ 32) = readNow
  have hpos : 0 < readNow ∧ readNow ≤ s.nBufSize - s.nSrcPos % s.nBufSize := by
    rw [← hnow]
    split <;> omega
  have hlen : ((s.src.bytes.drop s.nSrcPos).take readNow).length =
      min readNow (s.src.bytes.length - s.nSrcPos) := by
    rw [List.length_take, List.length_drop]
  rw [if_neg (by omega)]
  by_cases hend : s.nSrcPos = s.src.bytes.length
  · have hzero : ((s.src.bytes.drop s.nSrcPos).take readNow).length = 0 := by omega
    have hshort : decide (((s.src.bytes.drop s.nSrcPos).take readNow).length < readNow) = true :=
      decide_eq_true (by omega)
    rw [if_pos hzero, hshort, Bool.or_true, if_pos rfl]
    exact Or.inl ⟨hend, rfl⟩
  · have hsrc := h.src_le
    rw [if_neg (by omega)]
    refine Or.inr ⟨_, rfl, ?_, ⟨rfl, rfl, rfl, Nat.le_add_right _ _⟩, rfl, ?_⟩
    · have hsize := Nat.mod_lt s.nSrcPos (Nat.zero_lt_of_lt h.fillable.rewind_lt)
      refine ⟨h.fillable, ?_, ?_, ?_, ?_⟩
      · exact h.read_le.trans (Nat.le_add_right _ _)
      · change s.nSrcPos + _ ≤ s.src.bytes.length
        omega
      · change s.nSrcPos + _ ≤ s.nReadPos + s.nBufSize
        omega
      · refine h.holds.put (by omega) fun j hj => ?_
        rw [List.getElem?_take, if_pos (by omega), List.getElem?_drop]
    · change s.nSrcPos < s.nSrcPos + _
      omega

theorem refill_spec (h : s.Inv) :
    (s.nReadPos = s.src.bytes.length ∧ (if s.nReadPos = s.nSrcPos then s.fill else (.ok true, s)) =
      (.error (.failure "CBufferedFile::Fill : end of file"), { s with feof := true })) ∨
    ∃ s', (if s.nReadPos = s.nSrcPos then s.fill else (.ok true, s)) = (.ok true, s') ∧ s'.Inv ∧
      Onward s s' ∧ s'.nReadPos = s.nReadPos ∧ s'.nReadPos < s'.nSrcPos := by
  by_cases hat : s.nReadPos = s.nSrcPos
  · rw [if_pos hat]
    rcases fill_spec h hat with ⟨hend, hfill⟩ | ⟨s', hfill, hinv, honward, hread, hsrc⟩
    · exact Or.inl ⟨hat.trans hend, hfill⟩
    · exact Or.inr ⟨s', hfill, hinv, honward, hread, by omega⟩
  · have hle := h.read_le
    rw [if_neg hat]
    exact Or.inr ⟨s, rfl, h, Onward.refl s, rfl, by omega⟩

theorem Inv.moved (h : s.Inv) {nPos : Nat} (hread : s.nReadPos ≤ nPos) (hsrc : nPos ≤ s.nSrcPos) :
    Inv { s with nReadPos := nPos } :=
  ⟨h.fillable, hsrc, h.src_le, h.behind.trans (Nat.add_le_add_right hread _), h.holds⟩

theorem Onward.moved {s' : CBufferedFile} (h : Onward s s') (nPos : Nat) :
    Onward s { s' with nReadPos := nPos } :=
  ⟨h.src, h.rewind, h.size, h.srcPos⟩

theorem Inv.ended (h : s.Inv) : Inv { s with feof := true } :=
  ⟨h.fillable, h.read_le, h.src_le, h.behind, h.holds⟩

/-- How much is copied in a round: no more than is asked for, or left of the buffer, or filled. -/
theorem nNow_spec (h : s.Inv) (hlt : s.nReadPos < s.nSrcPos) {nSize : Nat}
    (hsize : nSize < 2 ^ 63) :
    (if ((if (nSize + s.nReadPos % s.nBufSize) % 2 ^ 64 > s.nBufSize then
          s.nBufSize - s.nReadPos % s.nBufSize else nSize) + s.nReadPos) % 2 ^ 64 > s.nSrcPos then
        (2 ^ 64 + s.nSrcPos - s.nReadPos) % 2 ^ 64
      else if (nSize + s.nReadPos % s.nBufSize) % 2 ^ 64 > s.nBufSize then
        s.nBufSize - s.nReadPos % s.nBufSize else nSize) =
      min (min nSize (s.nBufSize - s.nReadPos % s.nBufSize)) (s.nSrcPos - s.nReadPos) := by
  have hmod := Nat.mod_lt s.nReadPos (Nat.zero_lt_of_lt h.fillable.rewind_lt)
  have hbuf := h.fillable.size_lt
  have hlen := s.src.length_lt
  have hsrc := h.src_le
  have hfirst : (if (nSize + s.nReadPos % s.nBufSize) % 2 ^ 64 > s.nBufSize then
      s.nBufSize - s.nReadPos % s.nBufSize else nSize) =
        min nSize (s.nBufSize - s.nReadPos % s.nBufSize) := by
    rw [Nat.mod_eq_of_lt (by omega)]
    split <;> omega
  rw [hfirst, Nat.mod_eq_of_lt (show min nSize (s.nBufSize - s.nReadPos % s.nBufSize) + s.nReadPos <
    2 ^ 64 by omega)]
  have hdiff : (2 ^ 64 + s.nSrcPos - s.nReadPos) % 2 ^ 64 = s.nSrcPos - s.nReadPos := by omega
  rw [hdiff]
  split <;> omega

/-- **`read` delivers the file's bytes** from the reader's position on, if there are as many. -/
theorem readLoop_spec {rounds nSize : Nat} (h : s.Inv) (hrounds : nSize ≤ rounds)
    (hsize : nSize < 2 ^ 63) (pch : List UInt8) :
    ∃ s', s'.Inv ∧ Onward s s' ∧
      ((s.nReadPos + nSize ≤ s.src.bytes.length ∧ s'.nReadPos = s.nReadPos + nSize ∧
          readLoop rounds s nSize pch =
            (.ok (pch ++ (s.src.bytes.drop s.nReadPos).take nSize), s')) ∨
        (s.src.bytes.length < s.nReadPos + nSize ∧ s'.nReadPos = s.src.bytes.length ∧
          s'.feof = true ∧ readLoop rounds s nSize pch =
            (.error (.failure "CBufferedFile::Fill : end of file"), s'))) := by
  induction rounds generalizing s nSize pch with
  | zero =>
    obtain rfl := Nat.le_zero.mp hrounds
    have hle := h.read_le.trans h.src_le
    refine ⟨s, h, Onward.refl s, Or.inl ⟨hle, rfl, ?_⟩⟩
    rw [readLoop, if_pos rfl, List.take_zero, List.append_nil]
  | succ rounds ih =>
    rw [readLoop]
    by_cases hzero : nSize = 0
    · subst hzero
      have hle := h.read_le.trans h.src_le
      refine ⟨s, h, Onward.refl s, Or.inl ⟨hle, rfl, ?_⟩⟩
      rw [if_pos rfl, List.take_zero, List.append_nil]
    rw [if_neg hzero]
    rcases refill_spec h with ⟨hend, hfill⟩ | ⟨s1, hfill, h1, honward, hread, hlt⟩
    · rw [hfill]
      exact ⟨{ s with feof := true }, h.ended, ⟨rfl, rfl, rfl, Nat.le_refl _⟩,
        Or.inr ⟨by omega, hend, rfl, rfl⟩⟩
    rw [hfill]
    dsimp only
    obtain ⟨hplace, -, -⟩ := h1.fillable.at (h1.read_le.trans h1.src_le)
    have hmod := Nat.mod_lt s1.nReadPos (Nat.zero_lt_of_lt h1.fillable.rewind_lt)
    have hlen := s1.src.length_lt
    have hsrc := h1.src_le
    rw [hplace, nNow_spec h1 hlt hsize]
    generalize hnow : min (min nSize (s1.nBufSize - s1.nReadPos % s1.nBufSize))
      (s1.nSrcPos - s1.nReadPos) = nNow
    have hnext : (s1.nReadPos + nNow) % 2 ^ 64 = s1.nReadPos + nNow := Nat.mod_eq_of_lt (by omega)
    have hslice := h1.holds.slice_eq h1.behind (show s1.nReadPos + nNow ≤ s1.nSrcPos by omega)
      (by omega)
    rw [if_neg (by omega), hnext, hslice]
    have hmoved := h1.moved (Nat.le_add_right s1.nReadPos nNow) (by omega)
    obtain ⟨s', hinv, honward', hr⟩ := ih hmoved (show nSize - nNow ≤ rounds by omega)
      (by omega) (pch ++ (s1.src.bytes.drop s1.nReadPos).take nNow)
    refine ⟨s', hinv, (honward.moved _).trans honward', ?_⟩
    rw [honward.src, hread] at hr
    have hbytes : pch ++ (s.src.bytes.drop s.nReadPos).take nNow ++
        (s.src.bytes.drop (s.nReadPos + nNow)).take (nSize - nNow) =
          pch ++ (s.src.bytes.drop s.nReadPos).take nSize := by
      rw [List.append_assoc, ← List.drop_drop, ← List.take_add, Nat.add_sub_of_le (by omega)]
    rcases hr with ⟨hin, hpos, hr⟩ | ⟨hout, hpos, heof, hr⟩
    · refine Or.inl ⟨by dsimp only at hin; omega, by dsimp only at hpos; omega, ?_⟩
      dsimp only at hr
      rw [hbytes] at hr
      rw [honward.src, hread]
      exact hr
    · refine Or.inr ⟨by dsimp only at hout; omega, hpos, heof, ?_⟩
      rw [honward.src, hread]
      exact hr

/-- There are not as many bytes to read: the limit, or what the buffer keeps for going back, or the
end of the file is in between. -/
def Beyond (s : CBufferedFile) (nSize : Nat) : Prop :=
  s.nReadLimit < nSize + s.nReadPos ∨ s.nBufSize < nSize + s.nRewind ∨
    s.src.bytes.length < s.nReadPos + nSize

variable {nSize nPos : Nat}

theorem read_spec (h : s.Inv) (hsize : nSize < 2 ^ 63) :
    ∃ s', s'.Inv ∧ Onward s s' ∧ s.nReadPos ≤ s'.nReadPos ∧
      ((s.nReadPos + nSize ≤ s.src.bytes.length ∧ s'.nReadPos = s.nReadPos + nSize ∧
          s.read nSize = (.ok ((s.src.bytes.drop s.nReadPos).take nSize), s')) ∨
        (s.Beyond nSize ∧ ∃ what, s.read nSize = (.error (.failure what), s'))) := by
  have hle := h.read_le
  have hsrc := h.nSrcPos_lt
  have hrewind := h.nRewind_lt
  rw [read, Nat.mod_eq_of_lt (show nSize + s.nReadPos < 2 ^ 64 by omega),
    Nat.mod_eq_of_lt (show nSize + s.nRewind < 2 ^ 64 by omega)]
  by_cases hlimit : nSize + s.nReadPos > s.nReadLimit
  · rw [if_pos hlimit]
    exact ⟨s, h, Onward.refl s, Nat.le_refl _, Or.inr ⟨Or.inl hlimit, _, rfl⟩⟩
  rw [if_neg hlimit]
  by_cases hlarge : nSize + s.nRewind > s.nBufSize
  · rw [if_pos hlarge]
    exact ⟨s, h, Onward.refl s, Nat.le_refl _, Or.inr ⟨Or.inr (Or.inl hlarge), _, rfl⟩⟩
  rw [if_neg hlarge]
  obtain ⟨s', hinv, honward, hr⟩ := readLoop_spec h (Nat.le_refl nSize) hsize []
  have hend := h.src_le
  rcases hr with ⟨hin, hpos, hr⟩ | ⟨hout, hpos, -, hr⟩
  · exact ⟨s', hinv, honward, by omega, Or.inl ⟨hin, hpos, hr⟩⟩
  · exact ⟨s', hinv, honward, by omega, Or.inr ⟨Or.inr (Or.inr hout), _, hr⟩⟩

/-- **`FindByte` stops at the next such byte**, or the file ends without one. -/
theorem findLoop_spec {ch : UInt8} {rounds : Nat} (h : s.Inv)
    (hrounds : s.src.bytes.length < s.nReadPos + rounds) :
    ∃ s', s'.Inv ∧ Onward s s' ∧ s.nReadPos ≤ s'.nReadPos ∧
      (∀ q, s.nReadPos ≤ q → q < s'.nReadPos → s.src.bytes[q]? ≠ some ch) ∧
      ((s.src.bytes[s'.nReadPos]? = some ch ∧ s'.nReadPos < s'.nSrcPos ∧
          findLoop ch rounds s = (.ok (), s')) ∨
        (s'.nReadPos = s.src.bytes.length ∧ findLoop ch rounds s =
          (.error (.failure "CBufferedFile::Fill : end of file"), s'))) := by
  induction rounds generalizing s with
  | zero =>
    have hle := h.read_le.trans h.src_le
    omega
  | succ rounds ih =>
    rw [findLoop]
    rcases refill_spec h with ⟨hend, hfill⟩ | ⟨s1, hfill, h1, honward, hread, hlt⟩
    · rw [hfill]
      exact ⟨{ s with feof := true }, h.ended, ⟨rfl, rfl, rfl, Nat.le_refl _⟩, Nat.le_refl _,
        fun q hq hq' => absurd hq (Nat.not_le.mpr hq'), Or.inr ⟨hend, rfl⟩⟩
    rw [hfill]
    dsimp only
    have hcell := h1.holds s1.nReadPos hlt h1.behind
    rw [honward.src, hread] at hcell
    rw [hread]
    by_cases hch : s1.vchBuf (s.nReadPos % s1.nBufSize) = ch
    · rw [if_pos hch]
      refine ⟨s1, h1, honward, hread.ge, fun q hq hq' => by omega, Or.inl ⟨?_, hlt, rfl⟩⟩
      rw [hread, hcell, hch]
    · have hsrc := h1.src_le
      have hlen := s1.src.length_lt
      have hnext : (s.nReadPos + 1) % 2 ^ 64 = s.nReadPos + 1 := Nat.mod_eq_of_lt (by omega)
      have hmoved := h1.moved (show s1.nReadPos ≤ s.nReadPos + 1 by omega) (by omega)
      obtain ⟨s', hinv, honward', hle, hnone, hr⟩ := ih hmoved (by
        change s1.src.bytes.length < s.nReadPos + 1 + rounds
        rw [honward.src]
        omega)
      rw [if_neg hch, hnext]
      refine ⟨s', hinv, (honward.moved _).trans honward', by dsimp only at hle; omega,
        fun q hq hq' => ?_, ?_⟩
      · rcases Nat.eq_or_lt_of_le hq with rfl | hq
        · rw [hcell]
          exact fun hsome => hch (Option.some.inj hsome)
        · rw [← honward.src]
          exact hnone q hq hq'
      · rw [← honward.src]
        exact hr

/-- The sum in `SetPos` wraps around and comes out below what was read. -/
def Wraps (s : CBufferedFile) (nPos : Nat) : Prop :=
  2 ^ 64 ≤ nPos + s.nRewind ∧ nPos + s.nRewind - 2 ^ 64 < s.nSrcPos ∧ s.nSrcPos < s.nRewind

/-- **`SetPos` stays in the buffer**, unless its sum wraps around. -/
theorem setPos_inside (h : s.Inv) (hpos : nPos < 2 ^ 64) :
    (s.setPos nPos).2.nReadPos ≤ s.nSrcPos ↔ ¬ s.Wraps nPos := by
  have hsrc := h.nSrcPos_lt
  have hrewind := h.nRewind_lt
  rw [setPos, Wraps]
  split
  · dsimp only
    omega
  split
  · dsimp only
    omega
  · dsimp only
    omega

theorem Inv.not_wraps (h : s.Inv) (hpos : nPos ≤ s.nSrcPos) : ¬ s.Wraps nPos := by
  have hrewind := h.nRewind_lt
  rw [Wraps]
  omega

theorem setPos_onward (nPos : Nat) : Onward s (s.setPos nPos).2 := by
  rw [setPos]
  split
  · exact ⟨rfl, rfl, rfl, Nat.le_refl _⟩
  split
  · exact ⟨rfl, rfl, rfl, Nat.le_refl _⟩
  · exact ⟨rfl, rfl, rfl, Nat.le_refl _⟩

theorem setPos_srcPos (nPos : Nat) : (s.setPos nPos).2.nSrcPos = s.nSrcPos := by
  rw [setPos]
  split
  · rfl
  split
  · rfl
  · rfl

theorem Inv.setPos (h : s.Inv) (hpos : nPos < 2 ^ 64) (hwrap : ¬ s.Wraps nPos) :
    (s.setPos nPos).2.Inv := by
  have hinside := (setPos_inside h hpos).mpr hwrap
  have hlt := h.nSrcPos_lt
  have hrewind := h.fillable.rewind_lt
  have hsize := h.fillable.size_lt
  rw [CBufferedFile.setPos] at hinside ⊢
  split at hinside
  · rename_i hlow
    rw [if_pos hlow]
    refine ⟨h.fillable, hinside, h.src_le, ?_, h.holds⟩
    dsimp only at hinside ⊢
    omega
  · rename_i hlow
    rw [if_neg hlow]
    split at hinside
    · rename_i hhigh
      rw [if_pos hhigh]
      exact ⟨h.fillable, Nat.le_refl _, h.src_le, Nat.le_add_right _ _, h.holds⟩
    · rename_i hhigh
      rw [if_neg hhigh]
      refine ⟨h.fillable, hinside, h.src_le, ?_, h.holds⟩
      dsimp only at hinside ⊢
      omega

/-- **Going back works** where the buffer was not filled further ahead than `nRewind`. -/
theorem setPos_reaches (h : s.Inv) (hpos : nPos ≤ s.nSrcPos) :
    (s.setPos nPos).2.nReadPos = nPos ↔ s.nSrcPos ≤ nPos + s.nRewind := by
  have hsrc := h.nSrcPos_lt
  have hrewind := h.nRewind_lt
  rw [CBufferedFile.setPos, Nat.mod_eq_of_lt (show nPos + s.nRewind < 2 ^ 64 by omega)]
  by_cases hlow : nPos + s.nRewind < s.nSrcPos
  · rw [if_pos hlow]
    dsimp only
    omega
  · rw [if_neg hlow, if_neg (by omega)]
    exact iff_of_true rfl (by omega)

theorem setPos_iff (h : s.Inv) (hpos : nPos ≤ s.nSrcPos) :
    ((s.setPos nPos).1 = true ∧ (s.setPos nPos).2.nReadPos = nPos) ↔
      s.nSrcPos ≤ nPos + s.nRewind := by
  rw [setPos_reaches h hpos, and_iff_right_iff_imp]
  intro hback
  have hsrc := h.nSrcPos_lt
  have hrewind := h.nRewind_lt
  have hmod := Nat.mod_eq_of_lt (show nPos + s.nRewind < 2 ^ 64 by omega)
  rw [CBufferedFile.setPos, if_neg (by omega), if_neg (by omega)]

theorem Inv.setLimit (h : s.Inv) (nPos : Nat) : (s.setLimit nPos).2.Inv := by
  rw [CBufferedFile.setLimit]
  split
  · exact h
  · exact ⟨h.fillable, h.read_le, h.src_le, h.behind, h.holds⟩

theorem setLimit_onward (nPos : Nat) : Onward s (s.setLimit nPos).2 := by
  rw [CBufferedFile.setLimit]
  split
  · exact Onward.refl s
  · exact ⟨rfl, rfl, rfl, Nat.le_refl _⟩

theorem setLimit_nReadPos (nPos : Nat) : (s.setLimit nPos).2.nReadPos = s.nReadPos := by
  rw [CBufferedFile.setLimit]
  split
  · rfl
  · rfl

theorem findByte_spec (h : s.Inv) (ch : UInt8) :
    ∃ s', s'.Inv ∧ Onward s s' ∧ s.nReadPos ≤ s'.nReadPos ∧
      (∀ q, s.nReadPos ≤ q → q < s'.nReadPos → s.src.bytes[q]? ≠ some ch) ∧
      ((s.src.bytes[s'.nReadPos]? = some ch ∧ s'.nReadPos < s'.nSrcPos ∧
          s.findByte ch = (.ok (), s')) ∨
        (s'.nReadPos = s.src.bytes.length ∧ s.findByte ch =
          (.error (.failure "CBufferedFile::Fill : end of file"), s'))) :=
  findLoop_spec h (by omega)

end CBufferedFile

/-! ## Runs of calls -/

/-- The file and the furthest position that was read. -/
structure FileRun where
  file : CBufferedFile
  nFurthest : Nat := 0

inductive FileCall where
  /-- A destination has fewer bytes than half of what addresses there are. -/
  | read (nSize : Nat) (h : nSize < 2 ^ 63)
  | findByte (ch : UInt8)
  | setPos (nPos : UInt64)
  | setLimit (nPos : UInt64)
  | getPos

namespace FileRun

open CBufferedFile

/-- After a call that reads; `none` where it did what is not defined, or goes on for ever. -/
def moved {α : Type} (r : FileRun) : Except FileFault α × CBufferedFile → Option FileRun
  | (.error .outside, _) => none
  | (.error .endless, _) => none
  | (_, file) => some { file, nFurthest := max r.nFurthest file.nReadPos }

def next (r : FileRun) : FileCall → Option FileRun
  | .read nSize _ => r.moved (r.file.read nSize)
  | .findByte ch => r.moved (r.file.findByte ch)
  | .setPos nPos => some { r with file := (r.file.setPos nPos.toNat).2 }
  | .setLimit nPos => some { r with file := (r.file.setLimit nPos.toNat).2 }
  | .getPos => some r

def Answers (r : FileRun) : FileCall → Prop
  | .read nSize _ =>
    (∃ s, r.file.read nSize = (.ok ((r.file.src.bytes.drop r.file.nReadPos).take nSize), s) ∧
      r.file.nReadPos + nSize ≤ r.file.src.bytes.length ∧
      s.nReadPos = r.file.nReadPos + nSize) ∨
    (r.file.Beyond nSize ∧ ∃ what s, r.file.read nSize = (.error (.failure what), s))
  | .findByte ch =>
    (∃ s, r.file.findByte ch = (.ok (), s) ∧ r.file.nReadPos ≤ s.nReadPos ∧
      r.file.src.bytes[s.nReadPos]? = some ch ∧
      ∀ q, r.file.nReadPos ≤ q → q < s.nReadPos → r.file.src.bytes[q]? ≠ some ch) ∨
    ((∀ q, r.file.nReadPos ≤ q → r.file.src.bytes[q]? ≠ some ch) ∧
      ∃ what s, r.file.findByte ch = (.error (.failure what), s))
  | .setPos nPos =>
    nPos.toNat ≤ r.nFurthest → r.nFurthest ≤ nPos.toNat + r.file.nRewind →
      (r.file.setPos nPos.toNat).1 = true ∧ (r.file.setPos nPos.toNat).2.nReadPos = nPos.toNat
  | .setLimit _ => True
  | .getPos => True

/-- What is promised of a call: its answer, and that the reader is in what was read. -/
def Promised (r : FileRun) (c : FileCall) : Prop :=
  r.Answers c ∧ ∀ r', r.next c = some r' → r'.file.nReadPos ≤ r'.file.nSrcPos

/-- The sum of `SetPos` does not wrap around to less than what was read, and where it is promised to
go back, the buffer was not filled further ahead than that. -/
def InReach (r : FileRun) : FileCall → Prop
  | .setPos nPos => ¬ r.file.Wraps nPos.toNat ∧
      (nPos.toNat ≤ r.nFurthest → r.nFurthest ≤ nPos.toNat + r.file.nRewind →
        r.file.nSrcPos ≤ nPos.toNat + r.file.nRewind)
  | _ => True

structure Inv (r : FileRun) : Prop where
  file : r.file.Inv
  furthest_le : r.nFurthest ≤ r.file.nSrcPos

variable {r r' : FileRun} {c : FileCall}

theorem answers_iff (h : r.Inv) : r.Answers c ↔
    match c with
    | .setPos nPos => nPos.toNat ≤ r.nFurthest → r.nFurthest ≤ nPos.toNat + r.file.nRewind →
        r.file.nSrcPos ≤ nPos.toNat + r.file.nRewind
    | _ => True := by
  cases c with
  | read nSize hsize =>
    obtain ⟨s, -, -, -, hr⟩ := read_spec h.file hsize
    refine iff_of_true ?_ trivial
    rcases hr with ⟨hin, hpos, hr⟩ | ⟨hout, what, hr⟩
    · exact Or.inl ⟨s, hr, hin, hpos⟩
    · exact Or.inr ⟨hout, what, s, hr⟩
  | findByte ch =>
    obtain ⟨s, -, -, hle, hnone, hr⟩ := findByte_spec h.file ch
    refine iff_of_true ?_ trivial
    rcases hr with ⟨hsome, -, hr⟩ | ⟨hend, hr⟩
    · exact Or.inl ⟨s, hr, hle, hsome, hnone⟩
    · refine Or.inr ⟨fun q hq => ?_, _, s, hr⟩
      rcases Nat.lt_or_ge q s.nReadPos with hlt | hge
      · exact hnone q hq hlt
      · rw [List.getElem?_eq_none (hend ▸ hge)]
        exact Option.some_ne_none ch |>.symm
  | setPos nPos =>
    have hle := h.furthest_le
    exact forall_congr' fun hpos => forall_congr' fun _ => setPos_iff h.file (hpos.trans hle)
  | setLimit nPos => exact Iff.rfl
  | getPos => exact Iff.rfl

theorem moved_inv {α : Type} {x : Except FileFault α × CBufferedFile} (h : r.Inv) (hinv : x.2.Inv)
    (honward : Onward r.file x.2) (hr : r.moved x = some r') : r'.Inv := by
  have hle := h.furthest_le.trans honward.srcPos
  have hmax := max_le hle hinv.read_le
  obtain ⟨a, s⟩ := x
  cases a with
  | ok a =>
    obtain rfl := Option.some.inj hr
    exact ⟨hinv, hmax⟩
  | error e =>
    cases e with
    | failure what =>
      obtain rfl := Option.some.inj hr
      exact ⟨hinv, hmax⟩
    | outside => exact absurd hr.symm (Option.some_ne_none r')
    | endless => exact absurd hr.symm (Option.some_ne_none r')

/-- **A call within reach** leaves the buffer as it should be. -/
theorem Inv.next (h : r.Inv) (hreach : r.InReach c) (hr : r.next c = some r') : r'.Inv := by
  cases c with
  | read nSize hsize =>
    obtain ⟨s, hinv, honward, -, hread⟩ := read_spec h.file hsize
    have hs : (r.file.read nSize).2 = s := by
      rcases hread with ⟨-, -, hread⟩ | ⟨-, what, hread⟩ <;> rw [hread]
    exact moved_inv h (hs ▸ hinv) (hs ▸ honward) hr
  | findByte ch =>
    obtain ⟨s, hinv, honward, -, -, hfind⟩ := findByte_spec h.file ch
    have hs : (r.file.findByte ch).2 = s := by
      rcases hfind with ⟨-, -, hfind⟩ | ⟨-, hfind⟩ <;> rw [hfind]
    exact moved_inv h (hs ▸ hinv) (hs ▸ honward) hr
  | setPos nPos =>
    obtain rfl := Option.some.inj hr
    exact ⟨h.file.setPos nPos.toNat_lt hreach.1,
      h.furthest_le.trans (setPos_onward nPos.toNat).srcPos⟩
  | setLimit nPos =>
    obtain rfl := Option.some.inj hr
    exact ⟨h.file.setLimit _, h.furthest_le.trans (setLimit_onward _).srcPos⟩
  | getPos =>
    obtain rfl := Option.some.inj hr
    exact h

theorem inReach_iff (h : r.Inv) : r.InReach c ↔ r.Promised c := by
  rw [Promised, answers_iff h]
  by_cases hset : ∃ nPos, c = .setPos nPos
  · obtain ⟨nPos, rfl⟩ := hset
    have hinside := setPos_inside h.file nPos.toNat_lt
    have hsame := setPos_srcPos (s := r.file) nPos.toNat
    rw [InReach, and_comm]
    refine and_congr_right fun _ => ?_
    rw [← hinside, ← hsame]
    exact ⟨fun hle r' hr => Option.some.inj hr ▸ hle, fun hall => hall _ rfl⟩
  · have hreach : r.InReach c := by
      cases c with
      | setPos nPos => exact absurd ⟨nPos, rfl⟩ hset
      | _ => trivial
    refine iff_of_true hreach ⟨?_, fun r' hr => (h.next hreach hr).file.read_le⟩
    cases c with
    | setPos nPos => exact absurd ⟨nPos, rfl⟩ hset
    | _ => trivial

/-- **Every call of a run keeps its promise** just when every call of it is within reach. -/
theorem promised_iff {calls : List FileCall} (h : r.Inv) :
    Machine.EveryStep next InReach r calls ↔ Machine.EveryStep next Promised r calls :=
  Machine.EveryStep.iff_of_invariant (I := Inv) (fun _ _ _ hI hC hs => hI.next hC hs)
    (fun _ _ hI => inReach_iff hI) h

end FileRun

end BitBlocks
