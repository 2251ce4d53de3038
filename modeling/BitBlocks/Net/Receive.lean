import BitBlocks.Lib.Reader
import BitBlocks.Lib.Framing
import BitBlocks.Node.Params

/-!
# Receiving messages (`CNode::ReceiveMsgBytes`)

What the socket gives is copied into the last message of a queue, first into the buffer for
its header and then into that for its data, which grows ahead of what has come. A copy
beyond the end of a buffer is undefined, and `none` here, as is a loop that does not end.
Whatever the buffers look like, the messages are those of a reader that takes one byte at a
time.
-/

namespace BitBlocks

open CompactSize Framing

def MAX_PROTOCOL_MESSAGE_LENGTH : Nat := 2 * 1024 * 1024

/-- A difference of two `unsigned int`s. -/
def sub32 (a b : Nat) : Nat := (a + 2 ^ 32 - b) % 2 ^ 32

theorem sub32_of_le {a b : Nat} (h : b ≤ a) (h' : a < 2 ^ 32) : sub32 a b = a - b := by
  unfold sub32
  omega

/-! ## Messages -/

structure CMessageHeader where
  pchMessageStart : List UInt8
  pchCommand : List UInt8
  nMessageSize : Nat
  nChecksum : Nat
deriving DecidableEq, Repr

namespace CMessageHeader

/-- `CMessageHeader()` on the main network. -/
def new : CMessageHeader := ⟨[0x08, 0x02, 0xf0, 0xf8], List.replicate 12 0, 2 ^ 32 - 1, 0⟩

def serialize (hdr : CMessageHeader) : List UInt8 :=
  hdr.pchMessageStart ++ hdr.pchCommand ++ writeLE 4 hdr.nMessageSize ++ writeLE 4 hdr.nChecksum

def ofBytes (b : List UInt8) : CMessageHeader where
  pchMessageStart := b.take 4
  pchCommand := (b.drop 4).take 12
  nMessageSize := leValue ((b.drop 16).take 4)
  nChecksum := leValue ((b.drop 20).take 4)

/-- **A header of 24 bytes is written the way it was read.** -/
theorem serialize_ofBytes {b : List UInt8} (h : b.length = 24) : (ofBytes b).serialize = b := by
  have hfour : ∀ k, k + 4 ≤ 24 → writeLE 4 (leValue ((b.drop k).take 4)) = (b.drop k).take 4 := by
    intro k hk
    have hlen : ((b.drop k).take 4).length = 4 := by
      rw [List.length_take, List.length_drop]
      omega
    conv_lhs => rw [← hlen]
    rw [hlen]
    have := writeLE_leValue ((b.drop k).take 4)
    rwa [hlen] at this
  have hlast : (b.drop 20).take 4 = b.drop 20 := List.take_of_length_le (by simp [h])
  unfold serialize ofBytes
  simp only [hfour 16 (by omega), hfour 20 (by omega)]
  rw [hlast]
  have h16 : (b.drop 16).take 4 ++ b.drop 20 = b.drop 16 := by
    rw [show b.drop 20 = (b.drop 16).drop 4 by rw [List.drop_drop]]
    exact List.take_append_drop 4 _
  have h4 : (b.drop 4).take 12 ++ b.drop 16 = b.drop 4 := by
    rw [show b.drop 16 = (b.drop 4).drop 12 by rw [List.drop_drop]]
    exact List.take_append_drop 12 _
  rw [List.append_assoc, List.append_assoc, h16, h4, List.take_append_drop]

end CMessageHeader

/-- `memcpy(&buf[pos], pch, n)` for `n` bytes. -/
def memcpy (buf : List UInt8) (pos : Nat) (pch : List UInt8) : Option (List UInt8) :=
  if pos + pch.length ≤ buf.length then
    some (buf.take pos ++ pch ++ buf.drop (pos + pch.length))
  else none

/-- `resize`: bytes that are added are zero. -/
def resizeBytes (buf : List UInt8) (n : Nat) : List UInt8 :=
  buf.take n ++ List.replicate (n - buf.length) 0

structure CNetMessage where
  /-- Parsing header (false) or data (true). -/
  in_data : Bool := false
  /-- Partially received header. -/
  hdrbuf : List UInt8 := List.replicate 24 0
  hdr : CMessageHeader := .new
  nHdrPos : Nat := 0
  /-- Received message data. -/
  vRecv : List UInt8 := []
  nDataPos : Nat := 0
deriving DecidableEq, Repr

namespace CNetMessage

def complete (msg : CNetMessage) : Bool := msg.in_data && msg.hdr.nMessageSize == msg.nDataPos

/-- `readHeader`: how many bytes were taken, `none` for -1. -/
def readHeader (msg : CNetMessage) (pch : List UInt8) : Option (CNetMessage × Option Nat) := do
  -- copy data to temporary parsing buffer
  let nRemaining := sub32 24 msg.nHdrPos
  let nCopy := min nRemaining pch.length
  let hdrbuf ← memcpy msg.hdrbuf msg.nHdrPos (pch.take nCopy)
  let msg := { msg with hdrbuf := hdrbuf, nHdrPos := msg.nHdrPos + nCopy }
  if msg.nHdrPos < 24 then some (msg, some nCopy)
  -- deserialize to CMessageHeader; reading past the end throws
  else if msg.hdrbuf.length < 24 then some (msg, none)
  else
    let msg := { msg with hdr := .ofBytes msg.hdrbuf, hdrbuf := msg.hdrbuf.drop 24 }
    -- reject messages larger than MAX_SIZE
    if msg.hdr.nMessageSize > MAX_SIZE then some (msg, none)
    else some ({ msg with in_data := true }, some nCopy)

/-- `readData`. -/
def readData (msg : CNetMessage) (pch : List UInt8) : Option (CNetMessage × Option Nat) := do
  let nRemaining := sub32 msg.hdr.nMessageSize msg.nDataPos
  let nCopy := min nRemaining pch.length
  -- allocate up to 256 KiB ahead, but never more than the total message size
  let vRecv :=
    if msg.vRecv.length < (msg.nDataPos + nCopy) % 2 ^ 32 then
      resizeBytes msg.vRecv
        (min msg.hdr.nMessageSize ((msg.nDataPos + nCopy + 256 * 1024) % 2 ^ 32))
    else msg.vRecv
  let vRecv ← memcpy vRecv msg.nDataPos (pch.take nCopy)
  some ({ msg with vRecv := vRecv, nDataPos := msg.nDataPos + nCopy }, some nCopy)

def absorb (msg : CNetMessage) (pch : List UInt8) : Option (CNetMessage × Option Nat) :=
  if !msg.in_data then msg.readHeader pch else msg.readData pch

end CNetMessage

/-- The current incomplete message, or a new one, and those before it. -/
def currentMessage (vRecvMsg : List CNetMessage) : List CNetMessage × CNetMessage :=
  match vRecvMsg.getLast? with
  | none => (vRecvMsg, {})
  | some msg => if msg.complete then (vRecvMsg, {}) else (vRecvMsg.dropLast, msg)

/-- The loop of `ReceiveMsgBytes`, in at most so many rounds. -/
def receiveLoop : Nat → List CNetMessage → List UInt8 → Option (List CNetMessage × Bool)
  | _, vRecvMsg, [] => some (vRecvMsg, true)
  | 0, _, _ :: _ => none
  | rounds + 1, vRecvMsg, b :: pch => do
    let (before, msg) := currentMessage vRecvMsg
    let (msg, handled) ← msg.absorb (b :: pch)
    match handled with
    | none => some (before ++ [msg], false)
    | some handled =>
      -- an oversized message
      if msg.in_data && msg.hdr.nMessageSize > MAX_PROTOCOL_MESSAGE_LENGTH then
        some (before ++ [msg], false)
      else receiveLoop rounds (before ++ [msg]) ((b :: pch).drop handled)

/-- `ReceiveMsgBytes`: every round takes a byte at least. -/
def receiveMsgBytes (vRecvMsg : List CNetMessage) (pch : List UInt8) :
    Option (List CNetMessage × Bool) :=
  receiveLoop pch.length vRecvMsg pch

/-- One chunk after the other, until the peer is disconnected. -/
def receiveChunks : List CNetMessage → List (List UInt8) → Option (List CNetMessage × Bool)
  | vRecvMsg, [] => some (vRecvMsg, true)
  | vRecvMsg, pch :: chunks => do
    let (vRecvMsg, fOk) ← receiveMsgBytes vRecvMsg pch
    if fOk then receiveChunks vRecvMsg chunks else some (vRecvMsg, false)

/-! ## What is observed -/

/-- The complete messages, as their headers and their data. -/
def completeMessages (vRecvMsg : List CNetMessage) : List (List UInt8 × List UInt8) :=
  (vRecvMsg.filter CNetMessage.complete).map fun msg => (msg.hdr.serialize, msg.vRecv)

/-- What there is of the message that is not complete. -/
def pendingBytes (vRecvMsg : List CNetMessage) : List UInt8 :=
  match vRecvMsg.getLast? with
  | none => []
  | some msg =>
    if msg.complete then []
    else if msg.in_data then msg.hdr.serialize ++ msg.vRecv.take msg.nDataPos
    else msg.hdrbuf.take msg.nHdrPos

def wire : Format UInt8 where
  headerSize := 24
  size h := (CMessageHeader.ofBytes h).nMessageSize
  refused h := decide (MAX_PROTOCOL_MESSAGE_LENGTH < (CMessageHeader.ofBytes h).nMessageSize)

/-! ## Buffers -/

theorem memcpy_of_le (buf pch : List UInt8) (pos : Nat) (h : pos + pch.length ≤ buf.length) :
    ∃ buf', memcpy buf pos pch = some buf' ∧ buf'.length = buf.length ∧
      buf'.take (pos + pch.length) = buf.take pos ++ pch := by
  have hpos : (buf.take pos).length = pos := by
    rw [List.length_take]
    omega
  refine ⟨_, if_pos h, ?_, ?_⟩
  · simp only [List.length_append, List.length_take, List.length_drop]
    omega
  · have hlen : (buf.take pos ++ pch).length = pos + pch.length := by
      rw [List.length_append, hpos]
    rw [List.take_append_of_le_length (by omega)]
    exact List.take_of_length_le (by omega)

theorem take_resizeBytes {buf : List UInt8} {n k : Nat} (h : k ≤ n) (h' : k ≤ buf.length) :
    (resizeBytes buf n).take k = buf.take k := by
  unfold resizeBytes
  rw [List.take_append_of_le_length (by rw [List.length_take]; omega), List.take_take,
    Nat.min_eq_left h]

theorem length_resizeBytes (buf : List UInt8) (n : Nat) : (resizeBytes buf n).length = n := by
  unfold resizeBytes
  rw [List.length_append, List.length_take, List.length_replicate]
  omega

/-! ## One message -/

/-- A message of which the header `h` and the data `b` have come, and more is to come. -/
inductive Partial (msg : CNetMessage) : List UInt8 → List UInt8 → Prop
  | header (h : List UInt8) (hdata : msg.in_data = false) (hbuf : msg.hdrbuf.length = 24)
      (hpos : msg.nHdrPos = h.length) (hlt : h.length < 24) (htake : msg.hdrbuf.take h.length = h)
      (hrecv : msg.vRecv = []) (hdatapos : msg.nDataPos = 0) : Partial msg h []
  | data (h b : List UInt8) (hdata : msg.in_data = true) (hlen : h.length = 24)
      (hhdr : msg.hdr = .ofBytes h) (hpos : msg.nDataPos = b.length)
      (hlt : b.length < msg.hdr.nMessageSize)
      (hmax : msg.hdr.nMessageSize ≤ MAX_PROTOCOL_MESSAGE_LENGTH)
      (htake : msg.vRecv.take b.length = b) (hle : b.length ≤ msg.vRecv.length)
      (hrecv : msg.vRecv.length ≤ msg.hdr.nMessageSize) : Partial msg h b

structure Whole (msg : CNetMessage) (m : List UInt8 × List UInt8) : Prop where
  complete : msg.complete = true
  header : msg.hdr.serialize = m.1
  data : msg.vRecv = m.2
  size : msg.vRecv.length = msg.hdr.nMessageSize

theorem partial_new : Partial {} [] [] := .header [] rfl (by simp) rfl (by simp) rfl rfl rfl

variable {msg : CNetMessage} {h b pch : List UInt8} {ms vRecvMsg : List CNetMessage}
  {done : List (List UInt8 × List UInt8)} {f : Frames UInt8}

theorem Partial.not_complete (hp : Partial msg h b) : msg.complete = false := by
  cases hp with
  | header hdata => simp [CNetMessage.complete, hdata]
  | data _ hdata hlen hhdr hpos hlt =>
    have : msg.hdr.nMessageSize ≠ msg.nDataPos := by omega
    simp [CNetMessage.complete, this]

/-- The message announces more than the node takes. -/
def CNetMessage.oversized (msg : CNetMessage) : Bool :=
  msg.in_data && decide (msg.hdr.nMessageSize > MAX_PROTOCOL_MESSAGE_LENGTH)

/-- What comes of the front of a chunk, compared with the reader of single bytes. -/
inductive Absorbed (pch h b : List UInt8) : Option (CNetMessage × Option Nat) → Prop
  | more (msg : CNetMessage) (n : Nat) (hn : 1 ≤ n) (hle : n ≤ pch.length)
      (hsize : msg.oversized = false) (h' b' : List UInt8) (hp : Partial msg h' b')
      (hfeed : ∀ done, feed wire { done, head := h, body := b } (pch.take n) =
        { done, head := h', body := b' }) : Absorbed pch h b (some (msg, some n))
  | whole (msg : CNetMessage) (n : Nat) (hn : 1 ≤ n) (hle : n ≤ pch.length)
      (hsize : msg.oversized = false) (m : List UInt8 × List UInt8) (hm : Whole msg m)
      (hfeed : ∀ done, feed wire { done, head := h, body := b } (pch.take n) =
        { done := done ++ [m] }) : Absorbed pch h b (some (msg, some n))
  | refused (msg : CNetMessage) (handled : Option Nat)
      (hstop : handled = none ∨ msg.oversized = true) (hinc : msg.complete = false) (n : Nat)
      (h' : List UInt8)
      (hfeed : ∀ done, feed wire { done, head := h, body := b } (pch.take n) =
        { done, head := h', failed := true }) : Absorbed pch h b (some (msg, handled))

theorem absorbed_header (hp : Partial msg h []) (hdata : msg.in_data = false) (hne : pch ≠ []) :
    Absorbed pch h [] (msg.readHeader pch) := by
  cases hp with
  | data _ hdata' => exact absurd (hdata.symm.trans hdata') (by simp)
  | header _ hbuf hpos hlt htake hrecv hdatapos =>
    have hpch := List.length_pos_iff.mpr hne
    have hrem : sub32 24 msg.nHdrPos = 24 - h.length := by
      rw [hpos]
      exact sub32_of_le (by omega) (by omega)
    obtain ⟨n, hn⟩ : ∃ n, n = min (24 - h.length) pch.length := ⟨_, rfl⟩
    have hx : (pch.take n).length = n := by
      rw [List.length_take]
      omega
    have hxne : pch.take n ≠ [] := List.ne_nil_of_length_pos (by omega)
    obtain ⟨hdrbuf, hcopy, hlen, htake'⟩ := memcpy_of_le msg.hdrbuf (pch.take n)
      msg.nHdrPos (by omega)
    rw [hx, hpos, htake] at htake'
    unfold CNetMessage.readHeader
    simp only [hrem, ← hn, hcopy, Option.bind_eq_bind, Option.bind_some]
    rw [hpos]
    by_cases hshort : h.length + n < 24
    · rw [if_pos hshort]
      have hlen' : (h ++ pch.take n).length = h.length + n := by rw [List.length_append, hx]
      refine .more _ n (by omega) (by omega) (by simp [CNetMessage.oversized, hdata])
        (h ++ pch.take n)
        [] (.header _ hdata (by simp only; omega) ?_ (by omega) ?_ hrecv hdatapos) fun done => ?_
      · simp only [hlen']
      · simp only [hlen']
        exact htake'
      · exact feed_head (F := wire) rfl (by simp only [wire]; omega)
    · rw [if_neg hshort]
      have hfull : h.length + n = 24 := by omega
      rw [hfull, List.take_of_length_le (by omega)] at htake'
      rw [if_neg (by omega), htake']
      have hlen24 : (h ++ pch.take n).length = 24 := by rw [List.length_append, hx, hfull]
      have hend : ∀ done, feed wire { done, head := h, body := [] } (pch.take n) =
          endHead wire { done, head := h ++ pch.take n } := fun done =>
        feed_head_end (F := wire) rfl hxne (by simp only [wire]; omega)
      by_cases hmax : MAX_PROTOCOL_MESSAGE_LENGTH <
          (CMessageHeader.ofBytes (h ++ pch.take n)).nMessageSize
      · -- refused, here or by the caller
        have hfeed : ∀ done, feed wire { done, head := h, body := [] } (pch.take n) =
            { done, head := h ++ pch.take n, failed := true } := by
          intro done
          rw [hend done, endHead, if_pos (by simpa [wire] using hmax)]
        split
        · exact .refused _ _ (Or.inl rfl) (by simp [CNetMessage.complete, hdata]) n _ hfeed
        · refine .refused _ _ (Or.inr ?_) ?_ n _ hfeed
          · simpa [CNetMessage.oversized] using hmax
          · simp only [CNetMessage.complete, hdatapos, Bool.true_and, beq_eq_false_iff_ne]
            omega
      · have hmax' : ¬ (CMessageHeader.ofBytes (h ++ pch.take n)).nMessageSize > MAX_SIZE := by
          rw [MAX_PROTOCOL_MESSAGE_LENGTH] at hmax
          rw [MAX_SIZE]
          omega
        rw [if_neg hmax']
        have hsettle : ∀ done, feed wire { done, head := h, body := [] } (pch.take n) =
            settle wire { done, head := h ++ pch.take n } := by
          intro done
          rw [hend done, endHead, if_neg (by simpa [wire] using hmax)]
        have hsize : (CNetMessage.oversized
            { msg with
              hdrbuf := (h ++ pch.take n).drop 24, nHdrPos := 24
              hdr := .ofBytes (h ++ pch.take n), in_data := true }) = false := by
          simpa [CNetMessage.oversized] using hmax
        by_cases hzero : (CMessageHeader.ofBytes (h ++ pch.take n)).nMessageSize = 0
        · refine .whole _ n (by omega) (by omega) ?_ (h ++ pch.take n, []) ⟨?_, ?_, hrecv, ?_⟩
            fun done => ?_
          · rw [hfull]
            exact hsize
          · simp [CNetMessage.complete, hdatapos, hzero]
          · exact CMessageHeader.serialize_ofBytes hlen24
          · simp [hrecv, hzero]
          · rw [hsettle done, settle, if_pos (by simp [wire, hzero])]
        · refine .more _ n (by omega) (by omega) ?_ (h ++ pch.take n) []
            (.data _ _ rfl hlen24 rfl (by simp [hdatapos]) ?_ ?_ ?_ ?_ ?_) fun done => ?_
          · rw [hfull]
            exact hsize
          · simp only [List.length_nil]
            omega
          · simpa using hmax
          · rfl
          · exact Nat.zero_le _
          · simp [hrecv]
          · rw [hsettle done, settle, if_neg]
            simp only [wire, List.length_nil]
            omega

theorem absorbed_data (hp : Partial msg h b) (hdata : msg.in_data = true) (hne : pch ≠ []) :
    Absorbed pch h b (msg.readData pch) := by
  cases hp with
  | header hdata' => exact absurd (hdata.symm.trans hdata') (by simp)
  | data _ hdata' hlen hhdr hpos hlt hmax htake hle hrecv =>
    have hpch := List.length_pos_iff.mpr hne
    have h32 : MAX_PROTOCOL_MESSAGE_LENGTH = 2097152 := by decide
    have hrem : sub32 msg.hdr.nMessageSize msg.nDataPos = msg.hdr.nMessageSize - b.length := by
      rw [hpos]
      exact sub32_of_le (by omega) (by omega)
    obtain ⟨n, hn⟩ : ∃ n, n = min (msg.hdr.nMessageSize - b.length) pch.length := ⟨_, rfl⟩
    have hx : (pch.take n).length = n := by
      rw [List.length_take]
      omega
    have hxne : pch.take n ≠ [] := List.ne_nil_of_length_pos (by omega)
    unfold CNetMessage.readData
    simp only [hrem, ← hn]
    rw [hpos, Nat.mod_eq_of_lt (by omega), Nat.mod_eq_of_lt (by omega)]
    -- the buffer after it has grown
    obtain ⟨vRecv, hgrown, htake0, hge, hle0⟩ : ∃ vRecv,
        (if msg.vRecv.length < b.length + n then
          resizeBytes msg.vRecv (min msg.hdr.nMessageSize (b.length + n + 256 * 1024))
        else msg.vRecv) = vRecv ∧ vRecv.take b.length = b ∧ b.length + n ≤ vRecv.length ∧
          vRecv.length ≤ msg.hdr.nMessageSize := by
      by_cases hshort : msg.vRecv.length < b.length + n
      · refine ⟨_, if_pos hshort, ?_, ?_, ?_⟩
        · rw [take_resizeBytes (by omega) hle, htake]
        · rw [length_resizeBytes]
          omega
        · rw [length_resizeBytes]
          omega
      · exact ⟨_, if_neg hshort, htake, by omega, hrecv⟩
    rw [hgrown]
    obtain ⟨vRecv', hcopy, hlen', htake'⟩ := memcpy_of_le vRecv (pch.take n) b.length (by omega)
    rw [hx, htake0] at htake'
    simp only [hcopy, Option.bind_eq_bind, Option.bind_some]
    have hsize : wire.size h = msg.hdr.nMessageSize := by rw [hhdr]; rfl
    have hlenb : (b ++ pch.take n).length = b.length + n := by rw [List.length_append, hx]
    have hover : (CNetMessage.oversized { msg with vRecv := vRecv', nDataPos := b.length + n }) =
        false := by
      simp only [CNetMessage.oversized, hdata, Bool.true_and, decide_eq_false_iff_not]
      omega
    by_cases hmore : b.length + n < msg.hdr.nMessageSize
    · refine .more _ n (by omega) (by omega) hover h (b ++ pch.take n)
        (.data h _ hdata hlen hhdr hlenb.symm (by simp only; omega) hmax ?_ (by simp only; omega)
          (by simp only; omega)) fun done => ?_
      · simp only [hlenb]
        exact htake'
      · refine feed_body (F := wire) rfl (by simp only [wire]; omega) ?_
        simp only [hsize]
        omega
    · have hfull : b.length + n = msg.hdr.nMessageSize := by omega
      have hwhole : vRecv' = b ++ pch.take n := by
        rw [hfull, List.take_of_length_le (by omega)] at htake'
        exact htake'
      refine .whole _ n (by omega) (by omega) hover (h, b ++ pch.take n) ⟨?_, ?_, hwhole, ?_⟩
        fun done => ?_
      · simp [CNetMessage.complete, hdata, hfull]
      · simp only [hhdr]
        exact CMessageHeader.serialize_ofBytes hlen
      · simp only [hwhole, hlenb, hfull]
      · refine (feed_body_end (F := wire) rfl (by simp only [wire]; omega) hxne ?_).trans rfl
        simp only [hsize]
        omega

theorem absorbed_absorb (hp : Partial msg h b) (hne : pch ≠ []) :
    Absorbed pch h b (msg.absorb pch) := by
  unfold CNetMessage.absorb
  cases hdata : msg.in_data with
  | true => exact absorbed_data hp hdata hne
  | false =>
    cases hp with
    | header => exact absorbed_header (.header _ ‹_› ‹_› ‹_› ‹_› ‹_› ‹_› ‹_›) hdata hne
    | data _ hdata' => exact absurd (hdata.symm.trans hdata') (by simp)

/-! ## The queue -/

/-- The queue holds the messages that were read, and then the one that is being read. -/
def Queued (vRecvMsg : List CNetMessage) (f : Frames UInt8) : Prop :=
  ∃ ms, List.Forall₂ Whole ms f.done ∧
    (vRecvMsg = ms ∧ f.head = [] ∧ f.body = [] ∧ f.failed = false ∨
      ∃ msg, vRecvMsg = ms ++ [msg] ∧ msg.complete = false ∧
        (f.failed = false → Partial msg f.head f.body))

theorem whole_of_mem (h : List.Forall₂ Whole ms done) (hmem : msg ∈ ms) : ∃ m, Whole msg m := by
  induction h with
  | nil => exact absurd hmem (by simp)
  | cons hm _ ih =>
    rcases List.mem_cons.mp hmem with rfl | hmem
    · exact ⟨_, hm⟩
    · exact ih hmem

theorem Queued.current (h : Queued vRecvMsg f) (hf : f.failed = false) :
    List.Forall₂ Whole (currentMessage vRecvMsg).1 f.done ∧
      Partial (currentMessage vRecvMsg).2 f.head f.body := by
  obtain ⟨ms, hms, ⟨rfl, hhead, hbody, -⟩ | ⟨msg, rfl, hinc, hpartial⟩⟩ := h
  · rw [hhead, hbody]
    unfold currentMessage
    cases hlast : vRecvMsg.getLast? with
    | none => exact ⟨hms, partial_new⟩
    | some msg =>
      obtain ⟨m, hm⟩ := whole_of_mem hms (List.mem_of_getLast? hlast)
      simp only [hm.complete, if_true]
      exact ⟨hms, partial_new⟩
  · unfold currentMessage
    simp only [List.getLast?_append, List.getLast?_singleton, Option.some_or, hinc,
      Bool.false_eq_true, if_false, List.dropLast_concat]
    exact ⟨hms, hpartial hf⟩

theorem forall₂_concat (h : List.Forall₂ Whole ms done) {m : List UInt8 × List UInt8}
    (hm : Whole msg m) : List.Forall₂ Whole (ms ++ [msg]) (done ++ [m]) := by
  induction h with
  | nil => exact .cons hm .nil
  | cons hm' _ ih => exact .cons hm' ih

/-- **The rounds of the loop are those of the reader of single bytes**, and enough of them. -/
theorem receiveLoop_eq {rounds : Nat} (hrounds : pch.length ≤ rounds) (h : Queued vRecvMsg f)
    (hf : f.failed = false) :
    ∃ vRecvMsg', receiveLoop rounds vRecvMsg pch = some (vRecvMsg', !(feed wire f pch).failed) ∧
      Queued vRecvMsg' (feed wire f pch) := by
  induction rounds generalizing vRecvMsg pch f with
  | zero =>
    obtain rfl : pch = [] := List.length_eq_zero_iff.mp (Nat.le_zero.mp hrounds)
    exact ⟨vRecvMsg, by rw [receiveLoop, feed_nil, hf]; rfl, h⟩
  | succ rounds ih =>
    cases pch with
    | nil => exact ⟨vRecvMsg, by rw [receiveLoop, feed_nil, hf]; rfl, h⟩
    | cons x pch =>
      obtain ⟨hbefore, hpartial⟩ := h.current hf
      have habs := absorbed_absorb hpartial (List.cons_ne_nil x pch)
      rw [receiveLoop]
      generalize currentMessage vRecvMsg = current at hbefore hpartial habs
      obtain ⟨before, msg⟩ := current
      simp only [Option.bind_eq_bind] at habs ⊢
      have hff : f = { done := f.done, head := f.head, body := f.body } := by
        rw [← hf]
      generalize msg.absorb (x :: pch) = result at habs
      have hsplit (n : Nat) : feed wire f (x :: pch) =
          feed wire (feed wire f ((x :: pch).take n)) ((x :: pch).drop n) := by
        rw [← feed_append, List.take_append_drop]
      cases habs with
      | more msg' n hn hle hsize h' b' hp hfeed =>
        have hnext := hfeed f.done
        rw [← hff] at hnext
        have hq : Queued (before ++ [msg']) { done := f.done, head := h', body := b' } :=
          ⟨before, hbefore, Or.inr ⟨msg', rfl, hp.not_complete, fun _ => hp⟩⟩
        have hless : ((x :: pch).drop n).length ≤ rounds := by
          rw [List.length_drop]
          omega
        obtain ⟨v, hv, hq'⟩ := ih hless hq rfl
        rw [hsplit n, hnext]
        refine ⟨v, ?_, hq'⟩
        rw [Option.bind_some]
        exact (if_neg (by rw [Bool.not_eq_true]; exact hsize)).trans hv
      | whole msg' n hn hle hsize m hm hfeed =>
        have hnext := hfeed f.done
        rw [← hff] at hnext
        have hq : Queued (before ++ [msg']) { done := f.done ++ [m] } :=
          ⟨before ++ [msg'], forall₂_concat hbefore hm, Or.inl ⟨rfl, rfl, rfl, rfl⟩⟩
        have hless : ((x :: pch).drop n).length ≤ rounds := by
          rw [List.length_drop]
          omega
        obtain ⟨v, hv, hq'⟩ := ih hless hq rfl
        rw [hsplit n, hnext]
        refine ⟨v, ?_, hq'⟩
        rw [Option.bind_some]
        exact (if_neg (by rw [Bool.not_eq_true]; exact hsize)).trans hv
      | refused msg' handled hstop hinc n h' hfeed =>
        have hnext := hfeed f.done
        rw [← hff] at hnext
        rw [hsplit n, hnext, feed_of_failed rfl]
        refine ⟨before ++ [msg'], ?_, before, hbefore,
          Or.inr ⟨msg', rfl, hinc, fun hc => absurd hc (by simp)⟩⟩
        rw [Option.bind_some]
        cases handled with
        | none => rfl
        | some n' =>
          have hover := hstop.resolve_left (by simp)
          exact if_pos hover

/-- **The chunks are those of the reader of single bytes.** -/
theorem receiveChunks_eq (h : Queued vRecvMsg f) (hf : f.failed = false)
    (chunks : List (List UInt8)) :
    ∃ vRecvMsg', receiveChunks vRecvMsg chunks =
        some (vRecvMsg', !(feed wire f chunks.flatten).failed) ∧
      Queued vRecvMsg' (feed wire f chunks.flatten) := by
  induction chunks generalizing vRecvMsg f with
  | nil => exact ⟨vRecvMsg, by rw [receiveChunks, List.flatten_nil, feed_nil, hf]; rfl, h⟩
  | cons pch chunks ih =>
    obtain ⟨v, hv, hq⟩ := receiveLoop_eq (Nat.le_refl pch.length) h hf
    rw [receiveChunks, receiveMsgBytes, hv, List.flatten_cons, feed_append]
    cases hfail : (feed wire f pch).failed with
    | true =>
      rw [feed_of_failed hfail, hfail]
      exact ⟨v, rfl, hq⟩
    | false => exact ih hq hfail

theorem completeMessages_wholes (h : List.Forall₂ Whole ms done) : completeMessages ms = done := by
  induction h with
  | nil => rfl
  | @cons msg m ms done hm _ ih =>
    have hcons : completeMessages (msg :: ms) =
        (msg.hdr.serialize, msg.vRecv) :: completeMessages ms := by
      unfold completeMessages
      rw [List.filter_cons_of_pos hm.complete, List.map_cons]
    rw [hcons, hm.header, hm.data, ih]

theorem Queued.completeMessages (h : Queued vRecvMsg f) : completeMessages vRecvMsg = f.done := by
  obtain ⟨ms, hms, ⟨rfl, -⟩ | ⟨msg, rfl, hinc, -⟩⟩ := h
  · exact completeMessages_wholes hms
  · have hlast : BitBlocks.completeMessages (ms ++ [msg]) = BitBlocks.completeMessages ms := by
      unfold BitBlocks.completeMessages
      rw [List.filter_append, List.filter_singleton, hinc]
      simp
    rw [hlast]
    exact completeMessages_wholes hms

theorem Queued.size (h : Queued vRecvMsg f) (hmem : msg ∈ vRecvMsg) (hc : msg.complete = true) :
    msg.vRecv.length = msg.hdr.nMessageSize := by
  obtain ⟨ms, hms, ⟨rfl, -⟩ | ⟨last, rfl, hinc, -⟩⟩ := h
  · obtain ⟨m, hm⟩ := whole_of_mem hms hmem
    exact hm.size
  · rcases List.mem_append.mp hmem with hmem | hmem
    · obtain ⟨m, hm⟩ := whole_of_mem hms hmem
      exact hm.size
    · obtain rfl := List.mem_singleton.mp hmem
      exact absurd (hc.symm.trans hinc) (by simp)

theorem Queued.pendingBytes (h : Queued vRecvMsg f) (hf : f.failed = false) :
    pendingBytes vRecvMsg = f.head ++ f.body := by
  obtain ⟨ms, hms, ⟨rfl, hhead, hbody, -⟩ | ⟨msg, rfl, hinc, hpartial⟩⟩ := h
  · rw [hhead, hbody]
    unfold BitBlocks.pendingBytes
    cases hlast : vRecvMsg.getLast? with
    | none => rfl
    | some msg =>
      obtain ⟨m, hm⟩ := whole_of_mem hms (List.mem_of_getLast? hlast)
      simp [hm.complete]
  · unfold BitBlocks.pendingBytes
    simp only [List.getLast?_append, List.getLast?_singleton, Option.some_or, hinc,
      Bool.false_eq_true, if_false]
    have hp := hpartial hf
    generalize f.head = h, f.body = b at hp
    cases hp with
    | header hdata hbuf hpos hlt htake => simp [hdata, hpos, htake]
    | data _ hdata hlen hhdr hpos hlt hmax htake =>
      rw [hdata, if_pos rfl, hhdr, CMessageHeader.serialize_ofBytes hlen, hpos, htake]

/--
**How the stream is cut does not matter.** Two ways of cutting a stream give the same
complete messages and the same verdict; no copy leaves its buffer and no loop runs on; a
complete message has the size its header announces; and the complete messages, with what
there is of the next one, are the stream, or start it if a header was refused.
-/
theorem receive_cut (chunks chunks' : List (List UInt8)) (hcut : chunks.flatten = chunks'.flatten) :
    ∃ vRecvMsg vRecvMsg' fOk, receiveChunks [] chunks = some (vRecvMsg, fOk) ∧
      receiveChunks [] chunks' = some (vRecvMsg', fOk) ∧
      completeMessages vRecvMsg = completeMessages vRecvMsg' ∧
      (∀ msg ∈ vRecvMsg, msg.complete = true → msg.vRecv.length = msg.hdr.nMessageSize) ∧
      (completeMessages vRecvMsg).flatMap (fun m => m.1 ++ m.2) <+: chunks.flatten ∧
      (fOk = true → (completeMessages vRecvMsg).flatMap (fun m => m.1 ++ m.2) ++
        pendingBytes vRecvMsg = chunks.flatten) := by
  have hempty : Queued [] {} := ⟨[], .nil, Or.inl ⟨rfl, rfl, rfl, rfl⟩⟩
  obtain ⟨v, hv, hq⟩ := receiveChunks_eq hempty rfl chunks
  obtain ⟨v', hv', hq'⟩ := receiveChunks_eq hempty rfl chunks'
  rw [← hcut] at hv' hq'
  have hread := read_feed (F := wire) (f := {}) (fun _ => rfl) chunks.flatten
  refine ⟨v, v', _, hv, hv', ?_, fun msg hmem hc => hq.size hmem hc, ?_, fun hok => ?_⟩
  · rw [hq.completeMessages, hq'.completeMessages]
  · rw [hq.completeMessages]
    have hprefix : (feed wire {} chunks.flatten).done.flatMap (fun m => m.1 ++ m.2) <+:
        (feed wire {} chunks.flatten).read := by
      unfold Frames.read
      rw [List.append_assoc]
      exact List.prefix_append _ _
    exact hprefix.trans hread.1
  · have hf : (feed wire {} chunks.flatten).failed = false := by simpa using hok
    rw [hq.completeMessages, hq.pendingBytes hf, ← List.append_assoc]
    exact hread.2 hf

/-- A message of two bytes and the start of another one, in one chunk and in three. -/
theorem receive_cut_sample : ∃ vRecvMsg vRecvMsg' fOk,
      receiveChunks [] [List.replicate 16 65 ++ [2, 0, 0, 0, 9, 9, 9, 9, 7, 8, 1]] =
        some (vRecvMsg, fOk) ∧
      receiveChunks [] [List.replicate 16 65 ++ [2, 0], [0, 0, 9, 9, 9, 9, 7], [8, 1]] =
        some (vRecvMsg', fOk) ∧
      completeMessages vRecvMsg = completeMessages vRecvMsg' := by
  obtain ⟨v, v', fOk, h, h', heq, -⟩ := receive_cut
    [List.replicate 16 65 ++ [2, 0, 0, 0, 9, 9, 9, 9, 7, 8, 1]]
    [List.replicate 16 65 ++ [2, 0], [0, 0, 9, 9, 9, 9, 7], [8, 1]] (by decide)
  exact ⟨v, v', fOk, h, h', heq⟩

end BitBlocks
