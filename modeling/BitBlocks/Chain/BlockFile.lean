import BitBlocks.Chain.BufferedFile
import BitBlocks.Lib.Reader
import BitBlocks.Node.Params

/-!
# Blocks from a file (`LoadExternalBlockFile` of `main.cpp`)

Records are looked for in a file that may be damaged. Each round finds where the next one seems
to begin, and where it does not parse as a block, the next round is to look on one byte behind.
That byte may be out of reach then, and at the end of the file there is no next round.

What is done with a block that parses counts here only by whether it ends the whole.
-/

namespace BitBlocks

open CompactSize

/-- What `Unserialize` does on a stream: it reads, and what it reads next, and whether it gives
up, is up to the bytes it was given. -/
inductive Deser (α : Type) where
  | done (obj : α)
  | fail (what : String)
  | read (nSize : Nat) (h : nSize < 2 ^ 63) (next : List UInt8 → Deser α)

namespace Deser

open CBufferedFile

variable {α : Type}

def run : Deser α → CBufferedFile → Except FileFault α × CBufferedFile
  | .done obj, s => (.ok obj, s)
  | .fail what, s => (.error (.failure what), s)
  | .read nSize _ next, s =>
    match s.read nSize with
    | (.error e, s) => (.error e, s)
    | (.ok pch, s) => (next pch).run s

/-- **Nothing but a failure** comes out of a read from a buffer that is as it should be. -/
theorem run_spec (d : Deser α) {s : CBufferedFile} (h : s.Inv) : ∃ s', s'.Inv ∧ Onward s s' ∧
      ((∃ obj, d.run s = (.ok obj, s')) ∨ ∃ what, d.run s = (.error (.failure what), s')) := by
  induction d generalizing s with
  | done obj => exact ⟨s, h, Onward.refl s, Or.inl ⟨obj, rfl⟩⟩
  | fail what => exact ⟨s, h, Onward.refl s, Or.inr ⟨what, rfl⟩⟩
  | read nSize hsize next ih =>
    obtain ⟨s1, h1, honward, -, hr⟩ := read_spec h hsize
    rcases hr with ⟨-, -, hr⟩ | ⟨-, what, hr⟩
    · obtain ⟨s', hinv, honward', hnext⟩ := ih _ h1
      rw [run, hr]
      exact ⟨s', hinv, honward.trans honward', hnext⟩
    · rw [run, hr]
      exact ⟨s1, h1, honward, Or.inr ⟨what, rfl⟩⟩

end Deser

def MESSAGE_START_SIZE : Nat := 4

structure BlockFile where
  blkdat : CBufferedFile
  nRewind : Nat
  /-- Where the record began that the round before could not parse. -/
  nFailed : Option Nat := none

namespace BlockFile

open CBufferedFile

def init (fileIn : SourceFile) : BlockFile where
  blkdat := CBufferedFile.init fileIn (2 * MAX_BLOCK_SIZE) (MAX_BLOCK_SIZE + 8)
  nRewind := 0

/-- What is before a block, and the size in it; `none` for what is no record. -/
def header (pchMessageStart : Vector UInt8 MESSAGE_START_SIZE) : Deser (Option Nat) :=
  .read MESSAGE_START_SIZE (by decide) fun buf =>
    if buf ≠ pchMessageStart.toList then .done none
    else .read 4 (by decide) fun bytes =>
      let nSize := leValue bytes
      if nSize < 80 ∨ nSize > MAX_BLOCK_SIZE then .done none else .done (some nSize)

variable {α : Type}

/-- Where a round looks for its record. -/
def seek (s : BlockFile) : CBufferedFile := ((s.blkdat.setPos s.nRewind).2.setLimit (2 ^ 64 - 1)).2

/-- A round of `LoadExternalBlockFile`; `none` when it is over. What `nRewind` is set to first, is
replaced as soon as the byte is found. `ends` is whether the processing of the block ends it. -/
def loadRound (pchMessageStart : Vector UInt8 MESSAGE_START_SIZE) (block : Deser α)
    (s : BlockFile) (ends : Bool) : Except FileFault (Option BlockFile) :=
  if s.blkdat.eof then .ok none
  else
    match s.seek.findByte (pchMessageStart.get ⟨0, by decide⟩) with
    | (.error (.failure _), _) => .ok none
    | (.error e, _) => .error e
    | (.ok _, blkdat) =>
      let nStart := blkdat.nReadPos
      let nRewind := nStart + 1
      match (header pchMessageStart).run blkdat with
      | (.error (.failure _), _) => .ok none
      | (.error e, _) => .error e
      | (.ok none, blkdat) => .ok (some { blkdat, nRewind })
      | (.ok (some nSize), blkdat) =>
        let nBlockPos := blkdat.nReadPos
        let blkdat := (blkdat.setLimit (nBlockPos + nSize)).2
        let blkdat := (blkdat.setPos nBlockPos).2
        match block.run blkdat with
        | (.error (.failure _), blkdat) =>
          .ok (some { blkdat, nRewind, nFailed := some nStart })
        | (.error e, _) => .error e
        | (.ok _, blkdat) =>
          if ends then .ok none else .ok (some { blkdat, nRewind := blkdat.nReadPos })

/-! ## Rounds -/

section rounds

variable (pchMessageStart : Vector UInt8 MESSAGE_START_SIZE) (block : Deser α)

def next (s : BlockFile) (ends : Bool) : Option BlockFile :=
  match loadRound pchMessageStart block s ends with
  | .ok s' => s'
  | .error _ => none

/-- What is promised of a round: it does nothing that is not defined and does not go on for ever,
and behind a record that did not parse it looks on one byte after its start. -/
def Promised (s : BlockFile) (ends : Bool) : Prop :=
  (∃ s', loadRound pchMessageStart block s ends = .ok s') ∧
    ∀ nStart, s.nFailed = some nStart → s.blkdat.eof = false ∧ s.seek.nReadPos = nStart + 1

end rounds

/-- There is more of the file to read, and the buffer was not filled too far ahead to go back behind
the start of the record that did not parse. -/
def InReach (s : BlockFile) (_ends : Bool) : Prop := ∀ nStart, s.nFailed = some nStart →
    s.blkdat.eof = false ∧ s.blkdat.nSrcPos ≤ nStart + 1 + (MAX_BLOCK_SIZE + 8)

structure Inv (s : BlockFile) : Prop where
  blkdat : s.blkdat.Inv
  rewind : s.blkdat.nRewind = MAX_BLOCK_SIZE + 8
  rewind_le : s.nRewind ≤ s.blkdat.nSrcPos
  failed : ∀ nStart, s.nFailed = some nStart → s.nRewind = nStart + 1

variable {pchMessageStart : Vector UInt8 MESSAGE_START_SIZE} {block : Deser α} {s s' : BlockFile}
  {ends : Bool}

theorem init_inv (fileIn : SourceFile) : (init fileIn).Inv where
  blkdat := CBufferedFile.init_inv ⟨by decide, by decide, by decide, Or.inl (by decide)⟩
  rewind := rfl
  rewind_le := Nat.le_refl 0
  failed := fun _ h => absurd h.symm (Option.some_ne_none _)

theorem seek_spec (h : s.Inv) : s.seek.Inv ∧ Onward s.blkdat s.seek := by
  have hlt : s.nRewind < 2 ^ 64 := by
    have hsrc := h.blkdat.nSrcPos_lt
    have hle := h.rewind_le
    omega
  have hset := h.blkdat.setPos hlt (h.blkdat.not_wraps h.rewind_le)
  exact ⟨hset.setLimit _, (setPos_onward _).trans (setLimit_onward _)⟩

/-- **A round** ends with all as it should be for the next. -/
theorem loadRound_spec (h : s.Inv) (pchMessageStart : Vector UInt8 MESSAGE_START_SIZE)
    (block : Deser α) (ends : Bool) :
    ∃ next, loadRound pchMessageStart block s ends = .ok next ∧ ∀ s', next = some s' → s'.Inv := by
  rw [loadRound]
  by_cases heof : s.blkdat.eof = true
  · rw [if_pos heof]
    exact ⟨none, rfl, nofun⟩
  rw [if_neg heof]
  obtain ⟨hseek, honward⟩ := seek_spec h
  obtain ⟨s1, h1, honward1, -, -, hfind⟩ := findByte_spec hseek (pchMessageStart.get ⟨0, by decide⟩)
  rcases hfind with ⟨-, hstart, hfind⟩ | ⟨-, hfind⟩
  · rw [hfind]
    dsimp only
    obtain ⟨s2, h2, honward2, hhead⟩ := (header pchMessageStart).run_spec h1
    have hrewind := ((honward.trans honward1).trans honward2).rewind.trans h.rewind
    have hsrc2 := honward2.srcPos
    rcases hhead with ⟨nSize, hhead⟩ | ⟨what, hhead⟩
    · rw [hhead]
      cases nSize with
      | none =>
        refine ⟨_, rfl, fun s' hs' => ?_⟩
        obtain rfl := Option.some.inj hs'
        exact ⟨h2, hrewind, by dsimp only; omega, nofun⟩
      | some nSize =>
        dsimp only
        have hlimit := h2.setLimit (s2.nReadPos + nSize)
        have honlimit := setLimit_onward (s := s2) (s2.nReadPos + nSize)
        have hpos : s2.nReadPos ≤ (s2.setLimit (s2.nReadPos + nSize)).2.nSrcPos :=
          h2.read_le.trans honlimit.srcPos
        have hlt : s2.nReadPos < 2 ^ 64 := by
          have hsrc := h2.nSrcPos_lt
          have hle := h2.read_le
          omega
        have hset := hlimit.setPos hlt (hlimit.not_wraps hpos)
        obtain ⟨s3, h3, honward3, hblock⟩ := block.run_spec hset
        have honward' := (honlimit.trans (setPos_onward _)).trans honward3
        have hrewind' := honward'.rewind.trans hrewind
        have hsrc3 := honward'.srcPos
        rcases hblock with ⟨obj, hblock⟩ | ⟨what, hblock⟩
        · rw [hblock]
          cases ends with
          | true => exact ⟨none, rfl, nofun⟩
          | false =>
            refine ⟨_, rfl, fun s' hs' => ?_⟩
            obtain rfl := Option.some.inj hs'
            exact ⟨h3, hrewind', h3.read_le, nofun⟩
        · rw [hblock]
          refine ⟨_, rfl, fun s' hs' => ?_⟩
          obtain rfl := Option.some.inj hs'
          refine ⟨h3, hrewind', by dsimp only; omega, fun nStart hstart => ?_⟩
          obtain rfl := Option.some.inj hstart
          rfl
    · rw [hhead]
      exact ⟨none, rfl, nofun⟩
  · rw [hfind]
    exact ⟨none, rfl, nofun⟩

theorem Inv.next (h : s.Inv) (hn : next pchMessageStart block s ends = some s') : s'.Inv := by
  obtain ⟨r, hr, hinv⟩ := loadRound_spec h pchMessageStart block ends
  rw [BlockFile.next, hr] at hn
  exact hinv s' hn

theorem inReach_iff (h : s.Inv) : s.InReach ends ↔ s.Promised pchMessageStart block ends := by
  obtain ⟨r, hr, -⟩ := loadRound_spec h pchMessageStart block ends
  rw [Promised, and_iff_right ⟨r, hr⟩, InReach]
  refine forall_congr' fun nStart => forall_congr' fun hfailed => and_congr_right fun _ => ?_
  rw [seek, setLimit_nReadPos, ← h.failed nStart hfailed, ← h.rewind]
  exact (setPos_reaches h.blkdat h.rewind_le).symm

/-- **Every round of the file keeps its promise** just when every round is within reach. -/
theorem promised_iff {rounds : List Bool} (h : s.Inv) :
    Machine.EveryStep (next pchMessageStart block) InReach s rounds ↔
      Machine.EveryStep (next pchMessageStart block) (Promised pchMessageStart block) s rounds :=
  Machine.EveryStep.iff_of_invariant (I := Inv) (fun _ _ _ hI _ hs => hI.next hs)
    (fun _ _ hI => inReach_iff hI) h

end BlockFile

/--
**What is promised of the rewinding reader**, of each call of a run on a file, holds just when each
call is within reach. In the same way the rounds of `LoadExternalBlockFile` go on one byte
behind the start of a record that did not parse just when they are within reach of it.
-/
theorem CBufferedFile.promises_iff {fileIn : SourceFile} {nBufSize nRewindIn : Nat}
    (h : Fillable nBufSize nRewindIn fileIn.bytes.length) (calls : List FileCall) {α : Type}
    (pchMessageStart : Vector UInt8 MESSAGE_START_SIZE) (block : Deser α) (rounds : List Bool) :
    (Machine.EveryStep FileRun.next FileRun.InReach
      { file := init fileIn nBufSize nRewindIn } calls ↔
      Machine.EveryStep FileRun.next FileRun.Promised { file := init fileIn nBufSize nRewindIn }
        calls) ∧
    (Machine.EveryStep (BlockFile.next pchMessageStart block) BlockFile.InReach
        (BlockFile.init fileIn) rounds ↔
      Machine.EveryStep (BlockFile.next pchMessageStart block)
        (BlockFile.Promised pchMessageStart block) (BlockFile.init fileIn) rounds) :=
  ⟨FileRun.promised_iff ⟨init_inv h, Nat.le_refl 0⟩,
    BlockFile.promised_iff (BlockFile.init_inv fileIn)⟩

/-- A record with a size, and nothing that is a block in it. -/
def brokenRecord : SourceFile where
  bytes := [1, 2, 3, 4, 80, 0, 0, 0] ++ List.replicate 80 7
  length_lt := by decide

theorem brokenRecord_promises : Machine.EveryStep FileRun.next FileRun.Promised
      { file := CBufferedFile.init brokenRecord 10 8 } [.read 1 (by decide), .setPos 0] ∧
    Machine.EveryStep (BlockFile.next ⟨#[1, 2, 3, 4], rfl⟩ (Deser.fail (α := Unit) "version"))
      (BlockFile.Promised ⟨#[1, 2, 3, 4], rfl⟩ (Deser.fail (α := Unit) "version"))
      (BlockFile.init brokenRecord) [false, false] := by
  have hfill : CBufferedFile.Fillable 10 8 brokenRecord.bytes.length :=
    ⟨by decide, by decide, by decide, Or.inl (by decide)⟩
  obtain ⟨hcalls, hrounds⟩ := CBufferedFile.promises_iff hfill [.read 1 (by decide), .setPos 0]
    ⟨#[1, 2, 3, 4], rfl⟩ (Deser.fail (α := Unit) "version") [false, false]
  refine ⟨hcalls.mp ⟨trivial, fun r hr => ?_⟩, hrounds.mp ⟨nofun, fun s hs => ?_⟩⟩
  · obtain rfl := Option.some.inj hr
    exact ⟨⟨fun hwrap => absurd hwrap.1 (by decide), fun _ _ => by decide⟩, fun _ _ => trivial⟩
  · have hround : (BlockFile.next ⟨#[1, 2, 3, 4], rfl⟩ (Deser.fail (α := Unit) "version")
        (BlockFile.init brokenRecord) false).map
          (fun s => (s.nFailed, s.blkdat.eof, s.blkdat.nSrcPos)) = some (some 0, false, 88) := by
      decide +kernel
    rw [hs, Option.map_some] at hround
    obtain ⟨hfailed, heof, hsrc⟩ := by simpa only [Option.some.injEq, Prod.mk.injEq] using hround
    have hback : 88 ≤ MAX_BLOCK_SIZE + 8 := by decide
    exact ⟨fun nStart _ => ⟨heof, by omega⟩, fun _ _ => trivial⟩

/-- The buffer takes eight bytes at once, and two are kept to go back. -/
theorem brokenRecord_not_promised : ¬ ∀ (fileIn : SourceFile) (nBufSize nRewindIn : Nat),
    nRewindIn < nBufSize → ∀ calls : List FileCall, Machine.EveryStep FileRun.next FileRun.Promised
        { file := CBufferedFile.init fileIn nBufSize nRewindIn } calls := by
  intro h
  have hrun := h brokenRecord 10 2 (by decide) [.read 1 (by decide), .setPos 0]
  have hset := (hrun.2 _ rfl).1.1 (by decide) (by decide)
  exact absurd hset.1 (by decide)

end BitBlocks
