import BitBlocks.Script.Building
import BitBlocks.Script.Standard
import BitBlocks.Swift.SwiftTX

/-!
# What `IsNormalPaymentScript` lets through

The test looks at the opcodes by their number and at the length of the script, 25
bytes. It does not look at what the third instruction pushes, nor at how many
instructions there are. A push of 22 bytes may take the script to its end, one of 21
bytes may leave room for `OP_EQUALVERIFY` only, and a size behind the opcode takes
room from the data. The `ix` handler takes such an output for a payment to a key.
-/

namespace BitBlocks

namespace CScript

/-- The script of a payment to the hash of a key. -/
def IsPayToPubkeyHash (script : CScript) : Prop :=
  ∃ keyID : Uint160, script = scriptForDestination (.keyID keyID)

/-- What may follow the third instruction. -/
def endings : List CScript := [[], [OP_EQUALVERIFY], [OP_EQUALVERIFY, OP_CHECKSIG]]

/-- 25 bytes that end behind the third instruction, or where the pattern goes on behind it, the
third not being a push of 20 bytes with its size for an opcode. -/
def SlipsThrough (script : CScript) : Prop :=
  script.length = 25 ∧ ∃ (i : Instruction) (rest : CScript),
    script = OP_DUP :: OP_HASH160 :: (i.bytes ++ rest) ∧ rest ∈ endings ∧ i.opcode ≠ 0x14

/-! ## What the loop follows -/

variable {s script : CScript}

theorem follows_op {o : UInt8} {os : List (Option UInt8)} (ho : OP_PUSHDATA4 < o)
    (hvalid : o ≠ OP_INVALIDOPCODE) (hs : s ≠ []) :
    follows (some o :: os) s = true ↔ ∃ pc, s = o :: pc ∧ follows os pc = true := by
  obtain ⟨b, pc, rfl⟩ := List.exists_cons_of_ne_nil hs
  rw [follows]
  have hop : getOp (o :: pc) = some (o, [], pc) := by
    rw [getOp, if_neg (UInt8.not_le.mpr ho)]
  cases h : getOp (b :: pc) with
  | none =>
    have hne : (some o == some OP_INVALIDOPCODE) = false := by simpa using hvalid
    rw [hne]
    constructor
    · intro hf
      simp at hf
    · rintro ⟨pc', heq, -⟩
      obtain ⟨rfl, rfl⟩ := List.cons.inj heq
      rw [hop] at h
      cases h
  | some r =>
    obtain ⟨opcode, vch, pc'⟩ := r
    obtain ⟨i, rfl, -, hbytes⟩ := Instruction.exists_of_getOp h
    obtain rfl : b = i.opcode := (List.cons.inj hbytes).1
    simp only [Option.isNone_some, Bool.false_or]
    constructor
    · intro hf
      rw [Bool.and_eq_true, beq_iff_eq] at hf
      obtain ⟨heq, hf⟩ := hf
      obtain rfl := Option.some.inj heq
      obtain ⟨-, -, rfl⟩ := getOp_unique h hop
      exact ⟨_, rfl, hf⟩
    · rintro ⟨pc'', heq, hf⟩
      obtain ⟨rfl, rfl⟩ := List.cons.inj heq
      obtain ⟨-, -, rfl⟩ := getOp_unique h hop
      rw [Bool.and_eq_true, beq_iff_eq]
      exact ⟨rfl, hf⟩

theorem follows_nil : follows [] s = true ↔ s = [] := by
  cases s <;> simp [follows]

theorem follows_endings :
    follows [some OP_EQUALVERIFY, some OP_CHECKSIG] s = true ↔ s ∈ endings := by
  by_cases hs : s = []
  · subst hs
    simp [follows, endings]
  rw [follows_op (by decide) (by decide) hs]
  constructor
  · rintro ⟨pc, rfl, hf⟩
    by_cases hpc : pc = []
    · rw [hpc]
      simp [endings]
    · obtain ⟨pc', rfl, hf'⟩ := (follows_op (by decide) (by decide) hpc).mp hf
      rw [follows_nil.mp hf']
      simp [endings]
  · intro hmem
    simp only [endings, List.mem_cons, hs, List.not_mem_nil, or_false, false_or] at hmem
    rcases hmem with rfl | rfl
    · exact ⟨[], rfl, rfl⟩
    · exact ⟨[OP_CHECKSIG], rfl, by decide⟩

theorem length_endings (h : s ∈ endings) : s.length ≤ 2 := by
  simp only [endings, List.mem_cons, List.not_mem_nil, or_false] at h
  rcases h with rfl | rfl | rfl
  all_goals decide

theorem length_le_stuck (pc : CScript) : pc.length ≤ (stuck pc).length + 5 := by
  cases pc with
  | nil => exact Nat.zero_le _
  | cons b pc =>
    rw [stuck, getSize_eq]
    have hsize : sizeBytes b ≤ 4 := by
      unfold sizeBytes
      split
      · decide
      · split <;> decide
    split
    · rw [List.length_cons]
      omega
    · rename_i heq
      split at heq
      · obtain ⟨-, rfl⟩ := Prod.mk.inj (Option.some.inj heq)
        rw [List.length_cons]
        omega
      · split at heq
        · cases heq
        · obtain ⟨-, rfl⟩ := Prod.mk.inj (Option.some.inj heq)
          rw [List.length_cons, List.length_drop]
          omega

/-- **What the test accepts**: 25 bytes, `OP_DUP`, `OP_HASH160`, any instruction, and the pattern
as far as the script goes. -/
theorem isNormalPaymentScript_eq_true : isNormalPaymentScript script = true ↔ script.length = 25 ∧
      ∃ (i : Instruction) (rest : CScript),
        script = OP_DUP :: OP_HASH160 :: (i.bytes ++ rest) ∧ rest ∈ endings := by
  rw [isNormalPaymentScript, Bool.and_eq_true, beq_iff_eq]
  refine and_congr_right fun hlen => ?_
  have hne : ∀ {s : CScript}, 0 < s.length → s ≠ [] := fun h => List.ne_nil_of_length_pos h
  rw [follows_op (by decide) (by decide) (hne (by omega))]
  constructor
  · rintro ⟨pc, rfl, hf⟩
    rw [List.length_cons] at hlen
    obtain ⟨s, rfl, hthird⟩ := (follows_op (by decide) (by decide) (hne (by omega))).mp hf
    rw [List.length_cons] at hlen
    obtain ⟨b, r, rfl⟩ := List.exists_cons_of_ne_nil (hne (s := s) (by omega))
    rw [follows] at hthird
    cases hop : getOp (b :: r) with
    | none =>
      -- the bytes behind a push that is cut short are too many for the rest of the pattern
      rw [hop, Bool.and_eq_true] at hthird
      have hmem := length_endings (follows_endings.mp hthird.2)
      have hstuck := length_le_stuck (b :: r)
      omega
    | some x =>
      obtain ⟨opcode, vch, rest⟩ := x
      rw [hop, Bool.and_eq_true] at hthird
      obtain ⟨i, -, -, hbytes⟩ := Instruction.exists_of_getOp hop
      exact ⟨i, rest, by rw [hbytes], follows_endings.mp hthird.2⟩
  · rintro ⟨i, rest, rfl, hrest⟩
    refine ⟨_, rfl, (follows_op (by decide) (by decide) (List.cons_ne_nil _ _)).mpr ⟨_, rfl, ?_⟩⟩
    rw [List.length_cons, List.length_cons, List.length_append, Instruction.bytes,
      List.length_cons, List.length_append] at hlen
    have hop : getOp (i.bytes ++ rest) = some (i.opcode, i.vch, rest) := by
      rw [Instruction.getOp_bytes, if_neg]
      rw [Nat.mod_eq_of_lt (by omega)]
      omega
    rw [Instruction.bytes, List.cons_append, follows]
    rw [Instruction.bytes, List.cons_append] at hop
    rw [hop]
    simpa using follows_endings.mpr hrest

theorem push_keyID (keyID : Uint160) : push keyID.1 = 0x14 :: keyID.1 := by
  rw [push_eq, if_pos (by rw [keyID.2]; decide), keyID.2]
  rfl

theorem isPayToPubkeyHash_iff :
    IsPayToPubkeyHash script ↔ script.length = 25 ∧ ∃ (i : Instruction) (rest : CScript),
      script = OP_DUP :: OP_HASH160 :: (i.bytes ++ rest) ∧ rest ∈ endings ∧ i.opcode = 0x14 := by
  constructor
  · rintro ⟨keyID, rfl⟩
    have hform : scriptForDestination (.keyID keyID) =
        OP_DUP :: OP_HASH160 :: ((0x14 :: keyID.1) ++ [OP_EQUALVERIFY, OP_CHECKSIG]) := by
      rw [scriptForDestination, push_keyID]
      rfl
    have hoperand : Operand 0x14 keyID.1 := by
      rw [Operand, if_pos (by decide), keyID.2]
      rfl
    refine ⟨?_, ⟨0x14, keyID.1, hoperand⟩, [OP_EQUALVERIFY, OP_CHECKSIG], hform, ?_, rfl⟩
    · simp [hform, keyID.2]
    · simp [endings]
  · rintro ⟨hlen, i, rest, rfl, hrest, hop⟩
    have hdirect : i.opcode < OP_PUSHDATA1 := by
      rw [hop]
      decide
    have hvch : i.vch.length = 20 := by
      have hoperand := i.operand
      rwa [Operand, if_pos hdirect, hop] at hoperand
    have hbytes : i.bytes = 0x14 :: i.vch := by
      rw [Instruction.bytes, Instruction.size, if_pos (Or.inl hdirect), hop]
      rfl
    rw [hbytes] at hlen ⊢
    have hrest2 : rest.length = 2 := by
      simp only [List.length_cons, List.length_append, hvch] at hlen
      omega
    refine ⟨⟨i.vch, hvch⟩, ?_⟩
    simp only [endings, List.mem_cons, List.not_mem_nil, or_false] at hrest
    rcases hrest with rfl | rfl | rfl
    · exact absurd hrest2 (by decide)
    · exact absurd hrest2 (by decide)
    · rw [scriptForDestination, push_keyID]
      rfl

theorem isNormalPaymentScript_or (script : CScript) :
    (isNormalPaymentScript script = true ↔ IsPayToPubkeyHash script ∨ SlipsThrough script) ∧
      ¬ (IsPayToPubkeyHash script ∧ SlipsThrough script) := by
  rw [isNormalPaymentScript_eq_true, isPayToPubkeyHash_iff, SlipsThrough]
  constructor
  · constructor
    · rintro ⟨hlen, i, rest, hform, hrest⟩
      by_cases hop : i.opcode = 0x14
      · exact Or.inl ⟨hlen, i, rest, hform, hrest, hop⟩
      · exact Or.inr ⟨hlen, i, rest, hform, hrest, hop⟩
    · rintro (⟨hlen, i, rest, hform, hrest, -⟩ | ⟨hlen, i, rest, hform, hrest, -⟩)
      · exact ⟨hlen, i, rest, hform, hrest⟩
      · exact ⟨hlen, i, rest, hform, hrest⟩
  · rintro ⟨⟨-, i, rest, rfl, -, hop⟩, ⟨-, j, rest', hform, -, hop'⟩⟩
    have hbytes := (List.cons.inj (List.cons.inj hform).2).2
    exact hop' ((List.cons.inj hbytes).1 ▸ hop)

theorem SlipsThrough.isUnspendable (h : SlipsThrough script) : script.isUnspendable = false := by
  obtain ⟨-, i, rest, rfl, -, -⟩ := h
  rfl

end CScript

/-- The node reads scripts as `IsNormalPaymentScript` does. -/
def SwiftEnv.readingScripts (env : SwiftEnv) : SwiftEnv :=
  { env with isNormalPaymentScript := CScript.isNormalPaymentScript }

theorem requestValid_of_taken {s : SwiftState} {env : SwiftEnv} {tx : CTransaction}
    (h : s.processMessage env (.ix tx) ≠ s) : SwiftState.requestValid env tx = true := by
  by_contra hvalid
  refine h ?_
  rw [SwiftState.processMessage]
  split
  · rw [SwiftState.processRequest]
    split
    · rfl
    · rw [if_pos (by simpa using hvalid)]
  · rfl

/-- **The test accepts payments to the hash of a key, and no more**, iff the script does not slip
through; and what the `ix` handler takes up pays such hashes or nobody iff no output slips
through. -/
theorem isNormalPaymentScript_exact_iff (script : CScript) (s : SwiftState) (env : SwiftEnv)
    (tx : CTransaction) :
    ((CScript.isNormalPaymentScript script = true ↔ CScript.IsPayToPubkeyHash script) ↔
      ¬ CScript.SlipsThrough script) ∧
    (s.processMessage env.readingScripts (.ix tx) ≠ s →
      ((∀ o ∈ tx.vout, CScript.IsPayToPubkeyHash o.scriptPubKey ∨
          o.scriptPubKey.isUnspendable = true) ↔
        ∀ o ∈ tx.vout, ¬ CScript.SlipsThrough o.scriptPubKey)) := by
  constructor
  · obtain ⟨hor, hnot⟩ := CScript.isNormalPaymentScript_or script
    rw [hor]
    constructor
    · intro hiff hslips
      exact hnot ⟨hiff.mp (Or.inr hslips), hslips⟩
    · intro hslips
      exact ⟨fun h => h.resolve_right hslips, Or.inl⟩
  · intro htaken
    have hvalid := requestValid_of_taken htaken
    rw [SwiftState.requestValid, Bool.and_eq_true, List.all_eq_true] at hvalid
    refine forall₂_congr fun o ho => ?_
    obtain ⟨hor, hnot⟩ := CScript.isNormalPaymentScript_or o.scriptPubKey
    have hpass : CScript.isNormalPaymentScript o.scriptPubKey = true ∨
        o.scriptPubKey.isUnspendable = true := by
      have h := hvalid.2 o ho
      rwa [Bool.or_eq_true] at h
    constructor
    · rintro (hpay | hun) hslips
      · exact hnot ⟨hpay, hslips⟩
      · rw [hslips.isUnspendable] at hun
        exact nomatch hun
    · intro hslips
      rcases hpass with hnormal | hun
      · exact Or.inl ((hor.mp hnormal).resolve_right hslips)
      · exact Or.inr hun

/-- A push of 22 bytes to the end of the script. -/
theorem isNormalPaymentScript_accepts_long_push :
    ¬ ∀ script, CScript.isNormalPaymentScript script = true ↔ CScript.IsPayToPubkeyHash script := by
  intro h
  have haccepts : CScript.isNormalPaymentScript
      (OP_DUP :: OP_HASH160 :: 0x16 :: List.replicate 22 0x00) = true := by decide
  obtain ⟨-, i, rest, hform, -, hop⟩ := CScript.isPayToPubkeyHash_iff.mp ((h _).mp haccepts)
  have hbytes := (List.cons.inj (List.cons.inj hform).2).2
  have hfirst : 0x16 = i.opcode := (List.cons.inj hbytes).1
  rw [hop] at hfirst
  exact absurd hfirst (by decide)

end BitBlocks
