import Mathlib.Data.List.MinMax
import BitBlocks.Lib.Decimal
import BitBlocks.Lib.Best

/-!
# Sporks

Switches for consensus rules that are set over the network (`spork.cpp`). A message sets
one spork, is signed with the spork key, and replaces what is active if it was signed
later.
-/

namespace BitBlocks

/-- A spork message: an `int` and two `int64_t`, and the signature over them. -/
structure CSporkMessage where
  vchSig : List UInt8
  nSporkID : Int
  nValue : Int
  nTimeSigned : Int
  nSporkID_range : -(2 ^ 31) ≤ nSporkID ∧ nSporkID < 2 ^ 31 := by decide
  nValue_range : -(2 ^ 63) ≤ nValue ∧ nValue < 2 ^ 63 := by decide
  nTimeSigned_range : -(2 ^ 63) ≤ nTimeSigned ∧ nTimeSigned < 2 ^ 63 := by decide
deriving DecidableEq

namespace CSporkMessage

/-- The text `Sign` signs and `CheckSignature` checks. -/
def strMessage (spork : CSporkMessage) : List Char :=
  Decimal.text spork.nSporkID ++ Decimal.text spork.nValue ++ Decimal.text spork.nTimeSigned

def SameContent (a b : CSporkMessage) : Prop :=
  a.nSporkID = b.nSporkID ∧ a.nValue = b.nValue ∧ a.nTimeSigned = b.nTimeSigned

end CSporkMessage

/-- What `ProcessSpork` reads of the rest of the node. -/
structure SporkEnv where
  fLiteMode : Bool := false
  /-- `obfuScationSigner.VerifyMessage`, with `Params().SporkKey()`. -/
  verifyMessage : List UInt8 → List Char → Bool

/-- `CSporkManager::CheckSignature`. -/
def SporkEnv.checkSignature (env : SporkEnv) (spork : CSporkMessage) : Bool :=
  env.verifyMessage spork.vchSig spork.strMessage

/-- `mapSporksActive`. -/
abbrev SporksActive := AList fun _ : Int => CSporkMessage

/-- The `spork` message; the flag is whether the chain has a tip. -/
def processSpork (env : SporkEnv) (mapSporksActive : SporksActive) (fTip : Bool)
    (spork : CSporkMessage) : SporksActive :=
  if env.fLiteMode then mapSporksActive
  else if !fTip then mapSporksActive
  else if (mapSporksActive.lookup spork.nSporkID).any fun active =>
      decide (active.nTimeSigned ≥ spork.nTimeSigned) then
    -- seen
    mapSporksActive
  else if !env.checkSignature spork then mapSporksActive
  else mapSporksActive.insert spork.nSporkID spork

end BitBlocks

/-!
## Sporks converge

Which sporks are active in the end depends on the messages a node heard and not on their
order, as long as no spork has two messages signed in its last second. Of two such
messages the node keeps the one it heard first.
-/

namespace BitBlocks

/-- The sporks after some messages; each comes with whether the chain has a tip by then. -/
def sporksAfter (env : SporkEnv) (run : List (Bool × CSporkMessage)) : SporksActive :=
  run.foldl (fun m x => processSpork env m x.1 x.2) ∅

/-- The node gets as far as comparing the message with what is active. -/
def SporkEnv.hears (env : SporkEnv) (x : Bool × CSporkMessage) : Bool :=
  !env.fLiteMode && x.1 && env.checkSignature x.2

/-- The validly signed messages that reached the node. -/
def heard (env : SporkEnv) (run : List (Bool × CSporkMessage)) : List CSporkMessage :=
  (run.filter env.hears).map Prod.snd

/-- For every spork, only one of the messages is the newest. -/
def UniqueNewest (sporks : List CSporkMessage) : Prop :=
  ∀ a ∈ sporks, ∀ b ∈ sporks, a.nSporkID = b.nSporkID → a.nTimeSigned = b.nTimeSigned →
    (∀ c ∈ sporks, c.nSporkID = a.nSporkID → c.nTimeSigned ≤ a.nTimeSigned) → a = b

/-- A spork gives way to one signed later. -/
def signedLater (active spork : CSporkMessage) : Prop := active.nTimeSigned < spork.nTimeSigned

instance : DecidableRel signedLater := fun _ _ => inferInstanceAs (Decidable (_ < _))

variable {env : SporkEnv} {run run' : List (Bool × CSporkMessage)}

theorem processSpork_eq (env : SporkEnv) (m : SporksActive) (x : Bool × CSporkMessage) :
    processSpork env m x.1 x.2 =
      if env.hears x then Newest.put signedLater CSporkMessage.nSporkID m x.2
      else m := by
  have hnewer : Newest.newer signedLater (m.lookup x.2.nSporkID) x.2 =
      !(m.lookup x.2.nSporkID).any fun active =>
        decide (active.nTimeSigned ≥ x.2.nTimeSigned) := by
    cases m.lookup x.2.nSporkID with
    | none => rfl
    | some active =>
      simp only [Newest.newer, Option.all_some, Option.any_some, ← decide_not]
      exact decide_eq_decide.mpr Int.not_le.symm
  unfold processSpork SporkEnv.hears Newest.put
  rw [hnewer]
  cases env.fLiteMode <;> cases x.1 <;> cases env.checkSignature x.2 <;>
    cases (m.lookup x.2.nSporkID).any fun active =>
      decide (active.nTimeSigned ≥ x.2.nTimeSigned) <;> rfl

theorem lookup_sporksAfter (run : List (Bool × CSporkMessage)) (id : Int) :
    (sporksAfter env run).lookup id = Newest.held signedLater none
      ((heard env run).filter fun spork => decide (spork.nSporkID = id)) := by
  have hfold : ∀ m, run.foldl (fun m x => processSpork env m x.1 x.2) m =
      (heard env run).foldl (Newest.put signedLater CSporkMessage.nSporkID) m := by
    unfold heard
    induction run with
    | nil => exact fun _ => rfl
    | cons x run ih =>
      intro m
      rw [List.foldl_cons, processSpork_eq, ih]
      cases hx : env.hears x with
      | true => rw [List.filter_cons_of_pos hx]; rfl
      | false => rw [List.filter_cons_of_neg (by simp [hx])]; rfl
  rw [sporksAfter, hfold, Newest.lookup_foldl_put]
  rfl

theorem exists_newest : ∀ {l : List CSporkMessage}, l ≠ [] →
    ∃ a ∈ l, ∀ c ∈ l, c.nTimeSigned ≤ a.nTimeSigned := by
  intro l hl
  obtain ⟨a, ha⟩ : ∃ a, l.argmax CSporkMessage.nTimeSigned = some a :=
    Option.ne_none_iff_exists'.mp (mt List.argmax_eq_none.mp hl)
  exact ⟨a, List.argmax_mem ha, fun c hc => List.le_of_mem_argmax hc ha⟩

variable {a : CSporkMessage}

theorem lookup_sporksAfter_of_newest (hu : UniqueNewest (heard env run)) (ha : a ∈ heard env run)
    (hmax : ∀ c ∈ heard env run, c.nSporkID = a.nSporkID → c.nTimeSigned ≤ a.nTimeSigned) :
    (sporksAfter env run).lookup a.nSporkID = some a := by
  rw [lookup_sporksAfter]
  refine Newest.held_eq_of_leads (fun hab hba => Int.lt_asymm hab hba) ⟨fun c hc => ?_, by simp⟩
    (Or.inl (by simp [ha]))
  obtain ⟨hc, hid⟩ := List.mem_filter.mp hc
  have hid : c.nSporkID = a.nSporkID := of_decide_eq_true hid
  have hle := hmax c hc hid
  by_cases htime : c.nTimeSigned = a.nTimeSigned
  · exact Or.inl (hu a ha c hc hid.symm htime.symm hmax).symm
  · exact Or.inr (lt_of_le_of_ne hle htime)

theorem heard_append (earlier later : List (Bool × CSporkMessage)) :
    heard env (earlier ++ later) = heard env earlier ++ heard env later := by
  rw [heard, List.filter_append, List.map_append]
  rfl

variable (run) in
theorem heard_map {sporks : List CSporkMessage} (hs : ∀ spork ∈ sporks, spork ∈ heard env run) :
    heard env (sporks.map fun spork => (true, spork)) = sporks := by
  have hall : ∀ x ∈ sporks.map fun spork => (true, spork), env.hears x = true := by
    intro x hx
    obtain ⟨spork, hspork, rfl⟩ := List.mem_map.mp hx
    obtain ⟨y, hy, rfl⟩ := List.mem_map.mp (hs spork hspork)
    have hhears := (List.mem_filter.mp hy).2
    unfold SporkEnv.hears at hhears ⊢
    rw [Bool.and_eq_true, Bool.and_eq_true] at hhears ⊢
    exact ⟨⟨hhears.1.1, rfl⟩, hhears.2⟩
  rw [heard, List.filter_eq_self.mpr hall, List.map_map]
  exact List.map_id _

theorem lookup_sporksAfter_cons (ha : a ∈ heard env run)
    (hmax : ∀ c ∈ heard env run, c.nSporkID = a.nSporkID → c.nTimeSigned ≤ a.nTimeSigned) :
    (sporksAfter env ((a :: heard env run).map fun spork => (true, spork))).lookup a.nSporkID =
      some a := by
  rw [lookup_sporksAfter, heard_map run (by simpa using ha),
    List.filter_cons_of_pos (by simp)]
  refine Newest.held_stays fun c hc => ?_
  obtain ⟨hc, hid⟩ := List.mem_filter.mp hc
  exact Int.not_lt.mpr (hmax c hc (of_decide_eq_true hid))

theorem sporksAfter_eq (hu : UniqueNewest (heard env run))
    (hsame : ∀ spork, spork ∈ heard env run' ↔ spork ∈ heard env run) (id : Int) :
    (sporksAfter env run').lookup id = (sporksAfter env run).lookup id := by
  have hu' : UniqueNewest (heard env run') := by
    intro a ha b hb hid htime hmax
    exact hu a ((hsame a).mp ha) b ((hsame b).mp hb) hid htime fun c hc => hmax c ((hsame c).mpr hc)
  by_cases hnone : (heard env run).filter (fun spork => decide (spork.nSporkID = id)) = []
  · have hnone' : (heard env run').filter (fun spork => decide (spork.nSporkID = id)) = [] := by
      rw [List.filter_eq_nil_iff] at hnone ⊢
      exact fun spork hspork => hnone spork ((hsame spork).mp hspork)
    rw [lookup_sporksAfter, lookup_sporksAfter, hnone, hnone']
  · obtain ⟨a, ha, hmax⟩ := exists_newest hnone
    obtain ⟨hheard, hid⟩ := List.mem_filter.mp ha
    obtain rfl := of_decide_eq_true hid
    have hmax : ∀ c ∈ heard env run, c.nSporkID = a.nSporkID → c.nTimeSigned ≤ a.nTimeSigned :=
      fun c hc hc' => hmax c (List.mem_filter.mpr ⟨hc, decide_eq_true hc'⟩)
    rw [lookup_sporksAfter_of_newest hu hheard hmax,
      lookup_sporksAfter_of_newest hu' ((hsame a).mpr hheard) fun c hc => hmax c ((hsame c).mp hc)]

theorem nTimeSigned_mono {id : Int} (ha : (sporksAfter env run).lookup id = some a)
    (later : List (Bool × CSporkMessage)) :
    ∃ b, (sporksAfter env (run ++ later)).lookup id = some b ∧ a.nTimeSigned ≤ b.nTimeSigned := by
  rw [lookup_sporksAfter] at ha ⊢
  rw [heard_append, List.filter_append, Newest.held_append, ha]
  exact Newest.exists_held_ge (fun hab => Int.le_of_lt hab) a _

/--
**Sporks converge.** All the runs in which a node hears the same messages leave the same
active sporks iff no spork has two newest messages; and along a run the time of an active
spork never goes back.
-/
theorem sporks_converge_iff (env : SporkEnv) (run : List (Bool × CSporkMessage)) :
    ((∀ run', (∀ spork, spork ∈ heard env run' ↔ spork ∈ heard env run) →
        ∀ id, (sporksAfter env run').lookup id = (sporksAfter env run).lookup id) ↔
      UniqueNewest (heard env run)) ∧
    ∀ earlier later, run = earlier ++ later → ∀ id a, (sporksAfter env earlier).lookup id = some a →
        ∃ b, (sporksAfter env run).lookup id = some b ∧ a.nTimeSigned ≤ b.nTimeSigned := by
  refine ⟨⟨fun h => ?_, fun hu run' hsame => sporksAfter_eq hu hsame⟩, ?_⟩
  · intro a ha b hb hid htime hmax
    -- of two newest messages, whichever comes first is active in the end
    have hmaxb : ∀ c ∈ heard env run, c.nSporkID = b.nSporkID → c.nTimeSigned ≤ b.nTimeSigned :=
      fun c hc hc' => htime ▸ hmax c hc (hc'.trans hid.symm)
    have hfirst : ∀ c ∈ heard env run, ∀ id,
        (sporksAfter env ((c :: heard env run).map fun spork => (true, spork))).lookup id =
          (sporksAfter env run).lookup id := by
      intro c hc
      refine h _ fun spork => ?_
      rw [heard_map run (by simpa using hc)]
      simpa using fun he => he ▸ hc
    have hea := hfirst a ha a.nSporkID
    have heb := hfirst b hb b.nSporkID
    rw [lookup_sporksAfter_cons ha hmax] at hea
    rw [lookup_sporksAfter_cons hb hmaxb] at heb
    exact Option.some.inj (hea.trans (hid ▸ heb.symm))
  · intro earlier later hrun id a ha
    subst hrun
    exact nTimeSigned_mono ha later

def switchOn : CSporkMessage where
  vchSig := []
  nSporkID := 10008
  nValue := 0
  nTimeSigned := 1540000000

def switchOff : CSporkMessage := { switchOn with nValue := 4102444800, nValue_range := by decide }

/-- Two nodes that hear both messages, in one order and in the other, do not agree. -/
theorem switchOn_switchOff_diverge :
    switchOn ∈ heard ⟨false, fun _ _ => true⟩ [(true, switchOn), (true, switchOff)] ∧
      switchOff ∈ heard ⟨false, fun _ _ => true⟩ [(true, switchOn), (true, switchOff)] ∧
      (sporksAfter ⟨false, fun _ _ => true⟩ [(true, switchOn), (true, switchOff)]).lookup 10008 =
        some switchOn ∧
      (sporksAfter ⟨false, fun _ _ => true⟩ [(true, switchOff), (true, switchOn)]).lookup 10008 =
        some switchOff ∧
      switchOn ≠ switchOff := by
  decide

end BitBlocks

/-!
## What a spork signature binds

The signed text is the three numbers in decimal, one after the other with nothing in
between, so a text may be cut into numbers in more than one way. The message a signature
was made for is bound by it just when its text cannot be cut elsewhere.
-/

namespace BitBlocks

namespace CSporkMessage

/-- A row of characters that is the text of a signed integer of this many bits. -/
def isNumeral (bits : Nat) (s : List Char) : Bool :=
  (Decimal.read s).any fun n => decide (-(2 ^ (bits - 1)) ≤ n ∧ n < 2 ^ (bits - 1))

/-- Cut to these widths, the text is an `int` and two `int64_t`. -/
def cutsInto (s : List Char) (i j : Nat) : Bool :=
  isNumeral 32 (s.take i) && isNumeral 64 ((s.drop i).take j) && isNumeral 64 (s.drop (i + j))

/-- The widths of the id and the value. -/
def widths (spork : CSporkMessage) : Nat × Nat :=
  ((Decimal.text spork.nSporkID).length, (Decimal.text spork.nValue).length)

def cutsElsewhere (spork : CSporkMessage) : Bool :=
  let s := spork.strMessage
  (List.range (s.length + 1)).any fun i => (List.range (s.length + 1)).any fun j =>
    decide ((i, j) ≠ spork.widths) && cutsInto s i j

/-- A signature for the message is none for another one. -/
structure Bound (spork : CSporkMessage) : Prop where
  text : ∀ other : CSporkMessage, other.strMessage = spork.strMessage → other.SameContent spork
  signature : ∀ env : SporkEnv, (∀ s, env.verifyMessage spork.vchSig s = true →
    s = spork.strMessage) →
    ∀ other : CSporkMessage, other.vchSig = spork.vchSig → env.checkSignature other = true →
    other.SameContent spork

variable {spork other : CSporkMessage}

theorem isNumeral_iff {bits : Nat} {s : List Char} : isNumeral bits s = true ↔
    ∃ n : Int, Decimal.text n = s ∧ -(2 ^ (bits - 1)) ≤ n ∧ n < 2 ^ (bits - 1) := by
  unfold isNumeral
  rw [Option.any_eq_true]
  constructor
  · intro ⟨n, hn, hr⟩
    exact ⟨n, Decimal.read_eq_some.mp hn, of_decide_eq_true hr⟩
  · intro ⟨n, hn, hr⟩
    exact ⟨n, Decimal.read_eq_some.mpr hn, decide_eq_true hr⟩

theorem cutsInto_iff {s : List Char} {i j : Nat} :
    cutsInto s i j = true ↔ ∃ other : CSporkMessage, other.strMessage = s ∧
    other.widths = (i, j) := by
  rw [cutsInto, Bool.and_eq_true, Bool.and_eq_true, isNumeral_iff, isNumeral_iff, isNumeral_iff]
  constructor
  · intro ⟨⟨⟨a, ha, hra⟩, b, hb, hrb⟩, c, hc, hrc⟩
    -- no number has an empty text, so the cuts are inside
    have hlen : i + j < s.length := by
      by_contra hle
      rw [List.drop_eq_nil_of_le (Nat.le_of_not_lt hle)] at hc
      exact Decimal.text_ne_nil c hc
    refine ⟨⟨[], a, b, c, hra, hrb, hrc⟩, ?_, ?_⟩
    · rw [strMessage, ha, hb, hc, List.append_assoc, ← List.drop_drop, List.take_append_drop,
        List.take_append_drop]
    · rw [widths, ha, hb, List.length_take_of_le (by omega), List.length_take_of_le]
      rw [List.length_drop]
      omega
  · intro ⟨other, htext, hw⟩
    subst htext
    obtain ⟨hwi, hwj⟩ := Prod.mk.inj hw
    have htake : other.strMessage.take i = Decimal.text other.nSporkID := by
      rw [strMessage, List.append_assoc, List.take_left' hwi]
    have hdrop : other.strMessage.drop i =
        Decimal.text other.nValue ++ Decimal.text other.nTimeSigned := by
      rw [strMessage, List.append_assoc, List.drop_left' hwi]
    refine ⟨⟨⟨_, htake.symm, other.nSporkID_range⟩, _, ?_, other.nValue_range⟩, _, ?_,
      other.nTimeSigned_range⟩
    · rw [hdrop, List.take_left' hwj]
    · rw [← List.drop_drop, hdrop, List.drop_left' hwj]

theorem SameContent.of_widths (htext : other.strMessage = spork.strMessage)
    (hw : other.widths = spork.widths) : other.SameContent spork := by
  obtain ⟨hwi, hwj⟩ := Prod.mk.inj hw
  rw [strMessage, strMessage, List.append_assoc, List.append_assoc] at htext
  obtain ⟨hid, hrest⟩ := List.append_inj htext hwi
  obtain ⟨hvalue, htime⟩ := List.append_inj hrest hwj
  exact ⟨Decimal.text_injective hid, Decimal.text_injective hvalue, Decimal.text_injective htime⟩

theorem SameContent.widths (h : other.SameContent spork) : other.widths = spork.widths := by
  rw [CSporkMessage.widths, CSporkMessage.widths, h.1, h.2.1]

theorem cutsElsewhere_iff : spork.cutsElsewhere = true ↔
    ∃ other : CSporkMessage, other.strMessage = spork.strMessage ∧ ¬ other.SameContent spork := by
  unfold cutsElsewhere
  simp only [List.any_eq_true, List.mem_range, Bool.and_eq_true, decide_eq_true_eq, cutsInto_iff]
  constructor
  · intro ⟨i, _, j, _, hne, other, htext, hw⟩
    exact ⟨other, htext, fun h => hne (hw.symm.trans h.widths)⟩
  · intro ⟨other, htext, hne⟩
    have hlen : other.widths.1 + other.widths.2 ≤ spork.strMessage.length := by
      rw [← htext, strMessage, List.length_append, List.length_append]
      exact Nat.le_add_right _ _
    exact ⟨other.widths.1, by omega, other.widths.2, by omega,
      fun hw => hne (.of_widths htext hw), other, htext, rfl⟩

/--
**What a signature binds.** It is good for no other message iff the text it is made over
cannot be cut elsewhere.
-/
theorem bound_iff_not_cutsElsewhere (spork : CSporkMessage) :
    spork.Bound ↔ spork.cutsElsewhere = false := by
  rw [← Bool.not_eq_true, cutsElsewhere_iff]
  constructor
  · intro h ⟨other, htext, hne⟩
    exact hne (h.text other htext)
  · intro h
    have htext : ∀ other : CSporkMessage, other.strMessage = spork.strMessage →
        other.SameContent spork := by
      intro other ho
      by_contra hne
      exact h ⟨other, ho, hne⟩
    exact ⟨htext, fun env hsig other hvch hcheck =>
      htext other (hsig _ (hvch ▸ hcheck))⟩

theorem checkSignature_replay (env : SporkEnv) (htext : other.strMessage = spork.strMessage) :
    env.checkSignature { other with vchSig := spork.vchSig } = env.checkSignature spork :=
  congrArg (env.verifyMessage spork.vchSig) htext

end CSporkMessage

/-- Masternode payment enforcement is off until 2099. -/
def enforcementOff : CSporkMessage where
  vchSig := [1]
  nSporkID := 10007
  nValue := 4070908800
  nTimeSigned := 1530000000

/-- It is on since 1970, says a message from the far future. -/
def enforcementOn : CSporkMessage where
  vchSig := [1]
  nSporkID := 10007
  nValue := 40
  nTimeSigned := 709088001530000000

/-- One signature is good for both. -/
theorem enforcementOff_not_bound : enforcementOn.strMessage = enforcementOff.strMessage ∧
      (∀ env : SporkEnv, env.checkSignature enforcementOn = env.checkSignature enforcementOff) ∧
      ¬ enforcementOff.Bound := by
  have htext : enforcementOn.strMessage = enforcementOff.strMessage := by decide
  refine ⟨htext, fun env => CSporkMessage.checkSignature_replay env htext, fun h => ?_⟩
  exact absurd (h.text enforcementOn htext).2.1 (by decide)

end BitBlocks
