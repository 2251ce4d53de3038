import BitBlocks.Script.Instructions

/-!
# A run of the interpreter stays inside its bounds

The instructions are put together in the order of the source: the `switch`, a
round of the loop, the loop. A round adds to what an instruction keeps the bound
on the two stacks together, which is only checked when the instruction is done.
What every round keeps holds in every state that the loop reaches, and the loop
stops only where a round does.
-/

namespace BitBlocks

open Hoare Eval

/-- `n` calls of the checker are enough for the instruction on this stack. -/
structure Charged (env : ScriptEnv) (opcode : UInt8) (stack : List Valtype) (n : Nat) : Prop where
  sig : opcode = OP_CHECKSIG ∨ opcode = OP_CHECKSIGVERIFY → 1 ≤ n
  multisig : opcode = OP_CHECKMULTISIG ∨ opcode = OP_CHECKMULTISIGVERIFY →
    ∀ m, CScriptNum.ofVch (fromEnd stack 1) (env.flag SCRIPT_VERIFY_MINIMALDATA) = .ok m →
      CScriptNum.getint m ≤ 20 → CScriptNum.getint m ≤ n

theorem charged_twenty (env : ScriptEnv) (opcode : UInt8) (stack : List Valtype) :
    Charged env opcode stack 20 :=
  ⟨fun _ => by omega, fun _ _ _ h => h⟩

section Round

variable {env : ScriptEnv} {opcode : UInt8} {pc : CScript} {s : EvalState} {n : Nat}

/-- **The `switch`**, one line for each of its cases. -/
theorem wp_execOp (hn : Charged env opcode s.stack n) :
    Wp (execOp env opcode pc) (After s n) (Stopped env s n) s := by
  have hc : s.checks ≤ s.checks + n := Nat.le_add_right _ _
  refine wp_ite.mpr ⟨fun _ => keeps_opPushNumber n s, fun _ => ?_⟩
  refine wp_ite.mpr ⟨fun _ => wp_pure.mpr ⟨id, hc⟩, fun _ => ?_⟩
  refine wp_ite.mpr ⟨fun _ => keeps_opUpgradableNop n s, fun _ => ?_⟩
  refine wp_ite.mpr ⟨fun _ => keeps_opIf n s, fun _ => ?_⟩
  refine wp_ite.mpr ⟨fun _ => keeps_opElse n s, fun _ => ?_⟩
  refine wp_ite.mpr ⟨fun _ => keeps_opEndIf n s, fun _ => ?_⟩
  refine wp_ite.mpr ⟨fun _ => keeps_opVerify n s, fun _ => ?_⟩
  refine wp_ite.mpr ⟨fun _ => wp_fail (by decide) hc, fun _ => ?_⟩
  refine wp_ite.mpr ⟨fun _ => keeps_opToAltStack n s, fun _ => ?_⟩
  refine wp_ite.mpr ⟨fun _ => keeps_opFromAltStack n s, fun _ => ?_⟩
  refine wp_ite.mpr ⟨fun _ => keeps_op2Drop n s, fun _ => ?_⟩
  refine wp_ite.mpr ⟨fun _ => keeps_op2Dup n s, fun _ => ?_⟩
  refine wp_ite.mpr ⟨fun _ => keeps_op3Dup n s, fun _ => ?_⟩
  refine wp_ite.mpr ⟨fun _ => keeps_op2Over n s, fun _ => ?_⟩
  refine wp_ite.mpr ⟨fun _ => keeps_op2Rot n s, fun _ => ?_⟩
  refine wp_ite.mpr ⟨fun _ => keeps_op2Swap n s, fun _ => ?_⟩
  refine wp_ite.mpr ⟨fun _ => keeps_opIfDup n s, fun _ => ?_⟩
  refine wp_ite.mpr ⟨fun _ => keeps_opDepth n s, fun _ => ?_⟩
  refine wp_ite.mpr ⟨fun _ => keeps_opDrop n s, fun _ => ?_⟩
  refine wp_ite.mpr ⟨fun _ => keeps_opDup n s, fun _ => ?_⟩
  refine wp_ite.mpr ⟨fun _ => keeps_opNip n s, fun _ => ?_⟩
  refine wp_ite.mpr ⟨fun _ => keeps_opOver n s, fun _ => ?_⟩
  refine wp_ite.mpr ⟨fun _ => keeps_opPickRoll n s, fun _ => ?_⟩
  refine wp_ite.mpr ⟨fun _ => keeps_opRot n s, fun _ => ?_⟩
  refine wp_ite.mpr ⟨fun _ => keeps_opSwap n s, fun _ => ?_⟩
  refine wp_ite.mpr ⟨fun _ => keeps_opTuck n s, fun _ => ?_⟩
  refine wp_ite.mpr ⟨fun _ => keeps_opSize n s, fun _ => ?_⟩
  refine wp_ite.mpr ⟨fun _ => keeps_opEqual n s, fun _ => ?_⟩
  refine wp_ite.mpr ⟨fun hop => keeps_opUnary hop n s, fun _ => ?_⟩
  refine wp_ite.mpr ⟨fun hop => keeps_opBinary hop n s, fun _ => ?_⟩
  refine wp_ite.mpr ⟨fun _ => keeps_opWithin n s, fun _ => ?_⟩
  refine wp_ite.mpr ⟨fun _ => keeps_opHash n s, fun _ => ?_⟩
  refine wp_ite.mpr ⟨fun _ => keeps_opCodeSeparator n s, fun _ => ?_⟩
  refine wp_ite.mpr ⟨fun hop => wp_opCheckSig (hn.sig hop), fun _ => ?_⟩
  exact wp_ite.mpr ⟨fun hop => wp_opCheckMultiSig (hn.multisig hop), fun _ =>
    wp_fail (by decide) hc⟩

theorem wp_charge {Q : Unit → EvalState → Prop}
    (h : ∀ c, (s.Sound → c ≤ 201) → Q () { s with nOpCount := c }) :
    Wp (charge opcode) Q (Stopped env s n) s := by
  refine wp_ite.mpr ⟨fun _ => ?_, fun _ => h s.nOpCount EvalState.Sound.opCount⟩
  refine wp_bind.mpr (wp_modify.mpr (wp_bind.mpr (wp_get.mpr ?_)))
  exact wp_failIf (by decide) (Nat.le_add_right _ _) fun hcount =>
    h _ fun _ => Int.not_lt.mp hcount

theorem charged_of_conditional (hop : OP_IF ≤ opcode ∧ opcode ≤ OP_ENDIF) (stack : List Valtype) :
    Charged env opcode stack n := by
  refine ⟨fun h => ?_, fun h => ?_⟩ <;> rcases h with rfl | rfl <;> exact absurd hop (by decide)

theorem wp_pushOrExec (pc : CScript) {vchPushValue : Valtype}
    (hpush : vchPushValue.length ≤ MAX_SCRIPT_ELEMENT_SIZE)
    {fExec : Bool} (hn : fExec = true → Charged env opcode s.stack n) :
    Wp (pushOrExec env fExec opcode vchPushValue pc) (After s n) (Stopped env s n) s := by
  have hc : s.checks ≤ s.checks + n := Nat.le_add_right _ _
  refine wp_ite.mpr ⟨fun _ => ?_, fun _ => wp_ite.mpr ⟨fun hexec => ?_, fun _ => ?_⟩⟩
  · refine wp_bind.mpr (wp_failIf (by decide) hc fun _ => ?_)
    exact wp_pushBack ⟨fun hs => hs.push hpush, hc⟩
  · exact wp_execOp (hexec.elim hn fun hop => charged_of_conditional hop s.stack)
  · exact wp_pure.mpr ⟨id, hc⟩

/-- **A round of the loop** leaves at most 1000 elements on the two stacks. -/
theorem wp_stepOp (pc : CScript) (vchPushValue : Valtype)
    (hn : s.fExec = true → Charged env opcode s.stack n) :
    Wp (stepOp env opcode vchPushValue pc)
      (fun _ s' => After s n () s' ∧ s'.stack.length + s'.altstack.length ≤ 1000)
      (Stopped env s n) s := by
  have hc : s.checks ≤ s.checks + n := Nat.le_add_right _ _
  refine wp_bind.mpr (wp_get.mpr (wp_bind.mpr (wp_failIf (by decide) hc fun hpush => ?_)))
  refine wp_bind.mpr (wp_charge fun c hcount => wp_bind.mpr (wp_failIf (by decide) hc fun _ => ?_))
  have hinstr := wp_pushOrExec (s := { s with nOpCount := c }) pc (Nat.not_lt.mp hpush) hn
  refine wp_bind.mpr (hinstr.mono (fun _ s' hafter => ?_) fun _ _ hE => hE)
  refine wp_bind.mpr (wp_get.mpr (wp_failIf (by decide) hafter.2 fun hsize => ?_))
  refine ⟨⟨fun hs => hafter.1 ⟨hs.stack, hs.altstack, hcount hs⟩, hafter.2⟩, Nat.not_lt.mp hsize⟩

end Round

/-! ## The states of a run -/

/-- The states between rounds, with the part of the script that is left. -/
inductive Reaches (env : ScriptEnv) (script : CScript) (s₀ : EvalState) : CScript → EvalState → Prop
  | start : Reaches env script s₀ script s₀
  | round {pc pc' : CScript} {s s' : EvalState} (h : Reaches env script s₀ pc s)
      (hrun : exec (step env pc) s = (.ok pc', s')) : Reaches env script s₀ pc' s'

structure EvalState.Bounded (s : EvalState) : Prop extends s.Sound where
  size : s.stack.length + s.altstack.length ≤ 1000

section Run

variable {env : ScriptEnv} {script pc pc' : CScript} {s₀ s s' : EvalState}

theorem Reaches.head (hrun : exec (step env script) s₀ = (.ok pc, s))
    (h : Reaches env pc s pc' s') : Reaches env script s₀ pc' s' := by
  induction h with
  | start => exact Reaches.start.round hrun
  | round _ hrun' ih => exact ih.round hrun'

/-- **The loop ends with the script, or where a round stops.** -/
theorem evalLoop_cases (env : ScriptEnv) (pc : CScript) (s : EvalState) :
    ∃ pc' s', Reaches env pc s pc' s' ∧ ((pc' = [] ∧ evalLoop env pc s = (.ok (), s')) ∨
        ∃ e s'', exec (step env pc') s' = (.error e, s'') ∧
          evalLoop env pc s = (.error e, s'')) := by
  fun_induction evalLoop env pc s with
  | case1 s => exact ⟨[], s, .start, Or.inl ⟨rfl, rfl⟩⟩
  | case2 pc s _ e s' hrun => exact ⟨pc, s, .start, Or.inr ⟨e, s', hrun, rfl⟩⟩
  | case3 pc s _ pc1 s1 hrun ih =>
    obtain ⟨pc', s', hreach, hend⟩ := ih
    exact ⟨pc', s', hreach.head hrun, hend⟩

theorem bounded_step (hs : s.Bounded) (hrun : exec (step env pc) s = (.ok pc', s')) :
    s'.Bounded := by
  obtain ⟨opcode, vch, -, hop⟩ := exec_step hrun
  obtain ⟨hafter, hsize⟩ := (wp_stepOp _ _ fun _ => charged_twenty env opcode s.stack).of_exec hop
  exact ⟨hafter.1 hs.toSound, hsize⟩

/-- **The bounds hold between all rounds.** -/
theorem Reaches.bounded (h : Reaches env script s₀ pc s) (hs : s₀.Bounded) : s.Bounded := by
  induction h with
  | start => exact hs
  | round _ hrun ih => exact bounded_step ih hrun

theorem bounded_init {stack : List Valtype} (hlen : stack.length ≤ 1000) (helem : Elements stack) :
    (EvalState.init stack script).Bounded where
  stack := helem
  altstack := fun _ hmem => absurd hmem List.not_mem_nil
  opCount := (by decide : (0 : Int) ≤ 201)
  size := hlen

/-- **A round stops with an error it sets, or on a bad operand.** -/
theorem allowed_step {e : Stop} (hrun : exec (step env pc) s = (.error e, s')) :
    AllowedStop env s.stack e := by
  obtain ⟨-, rfl, -⟩ | ⟨opcode, vch, pc', -, hop⟩ := exec_step_error hrun
  · exact .error (by decide)
  · exact ((wp_stepOp _ _ fun _ => charged_twenty env opcode s.stack).of_exec_error hop).1

end Run

/-! ## The verdict -/

/-- How an evaluation ends: it answers, and it answers `UNKNOWN_ERROR` only where a round threw. -/
theorem evalScript_cases (env : ScriptEnv) (stack : List Valtype) (script : CScript) :
    (evalScript env stack script).1 = .ok () ∨
      (∃ e, e ≠ .UNKNOWN_ERROR ∧ (evalScript env stack script).1 = .error (.error e)) ∨
      ((evalScript env stack script).1 = .error (.error .UNKNOWN_ERROR) ∧
        ∃ pc s e s', Reaches env script (EvalState.init stack script) pc s ∧
          exec (step env pc) s = (.error (.thrown (.scriptNum e)), s') ∧
          BadOperand env s.stack e) := by
  unfold evalScript
  split
  · exact Or.inr (Or.inl ⟨.SCRIPT_SIZE, by decide, rfl⟩)
  obtain ⟨pc, s, hreach, ⟨-, hend⟩ | ⟨e, s', hrun, hend⟩⟩ :=
    evalLoop_cases env script (EvalState.init stack script)
  · rw [hend]
    simp only
    split
    · exact Or.inr (Or.inl ⟨.UNBALANCED_CONDITIONAL, by decide, rfl⟩)
    · exact Or.inl rfl
  · rw [hend]
    cases allowed_step hrun with
    | error he => exact Or.inr (Or.inl ⟨_, he, rfl⟩)
    | operand hbad => exact Or.inr (Or.inr ⟨rfl, pc, s, _, s', hreach, hrun, hbad⟩)

theorem evalScript_ne_assertion (env : ScriptEnv) (stack : List Valtype) (script : CScript) :
    (evalScript env stack script).1 ≠ .error .assertion := by
  intro h
  rcases evalScript_cases env stack script with hend | ⟨e, -, hend⟩ | ⟨hend, -⟩ <;>
    exact absurd (h.symm.trans hend) (by simp)

theorem evalScript_payToScriptHash_nil {env : ScriptEnv} {scriptPubKey : CScript}
    (h : scriptPubKey.isPayToScriptHash = true) : (evalScript env [] scriptPubKey).1 ≠ .ok () := by
  simp only [CScript.isPayToScriptHash, Bool.and_eq_true, beq_iff_eq] at h
  obtain ⟨⟨⟨hlen, hop⟩, -⟩, -⟩ := h
  obtain ⟨opcode, rest, rfl⟩ := List.exists_cons_of_length_pos (by omega : 0 < scriptPubKey.length)
  obtain rfl : opcode = OP_HASH160 := hop
  have hrun : (exec (step env (OP_HASH160 :: rest)) (EvalState.init [] (OP_HASH160 :: rest))).1 =
      .error (.error .INVALID_STACK_OPERATION) := rfl
  unfold evalScript
  rw [if_neg (by omega), evalLoop, if_neg (List.cons_ne_nil _ _)]
  rcases hexec : exec (step env (OP_HASH160 :: rest)) (EvalState.init [] (OP_HASH160 :: rest)) with
    ⟨e | pc, s⟩
  · rw [hexec] at hrun
    obtain rfl := Except.error.inj hrun
    simp
  · rw [hexec] at hrun
    exact absurd hrun (by simp)

/-- **`assert(!stackCopy.empty())` holds**: without an element the output script would have
failed. -/
theorem verifyScript_ne_assertion (env : ScriptEnv) (scriptSig scriptPubKey : CScript) :
    (verifyScript env scriptSig scriptPubKey).1 ≠ .error .assertion := by
  have hmark := fun stack script => evalScript_ne_assertion env stack script
  unfold verifyScript
  split
  · simp
  split
  · rename_i e s1 h1
    have := hmark [] scriptSig
    rwa [h1] at this
  rename_i s1 h1
  dsimp only
  split
  · rename_i e s2 h2
    have := hmark s1.stack scriptPubKey
    rwa [h2] at this
  rename_i s2 h2
  split
  · simp
  split
  · simp
  split
  · rename_i hp2sh
    obtain ⟨hflag, hp2sh⟩ := (Bool.and_eq_true _ _).mp hp2sh
    rw [if_pos hflag]
    split
    · simp
    split
    · rename_i hnil
      rw [hnil] at h2
      exact absurd (congrArg Prod.fst h2) (evalScript_payToScriptHash_nil hp2sh)
    split
    · rename_i e s3 h3
      have := hmark s1.stack.dropLast (s1.stack.getLastD [])
      rwa [h3] at this
    · split_ifs <;> simp
  · simp

/--
**Evaluation is safe and bounded.** Between all rounds the two stacks hold at
most 1000 elements of at most 520 bytes and at most 201 operations are charged; a
round stops with an error it sets or throws about a bad operand, never at an
access, an iterator or an assertion; `EvalScript` answers, with `UNKNOWN_ERROR`
only for such an operand; and `VerifyScript` passes its assertion.
-/
theorem evalScript_safe (env : ScriptEnv) (stack : List Valtype) (script : CScript)
    (hlen : stack.length ≤ 1000) (helem : ∀ vch ∈ stack, vch.length ≤ MAX_SCRIPT_ELEMENT_SIZE) :
    (∀ pc s, Reaches env script (EvalState.init stack script) pc s →
      s.stack.length + s.altstack.length ≤ 1000 ∧
      (∀ vch ∈ s.stack ++ s.altstack, vch.length ≤ MAX_SCRIPT_ELEMENT_SIZE) ∧
      s.nOpCount ≤ 201 ∧
      ∀ e s', exec (step env pc) s = (.error e, s') → AllowedStop env s.stack e) ∧
    ((evalScript env stack script).1 = .ok () ∨
      ∃ e, (evalScript env stack script).1 = .error (.error e)) ∧
    ((evalScript env stack script).1 = .error (.error .UNKNOWN_ERROR) →
      ∃ pc s e s', Reaches env script (EvalState.init stack script) pc s ∧
        exec (step env pc) s = (.error (.thrown (.scriptNum e)), s') ∧
        BadOperand env s.stack e) ∧
    ∀ scriptSig scriptPubKey, (verifyScript env scriptSig scriptPubKey).1 ≠ .error .assertion := by
  refine ⟨fun pc s hreach => ?_, ?_, fun hunknown => ?_, verifyScript_ne_assertion env⟩
  · have hs := hreach.bounded (bounded_init hlen helem)
    exact ⟨hs.size, hs.stack.append hs.altstack, hs.opCount, fun _ _ => allowed_step⟩
  · rcases evalScript_cases env stack script with hend | ⟨e, -, hend⟩ | ⟨hend, -⟩
    · exact Or.inl hend
    · exact Or.inr ⟨e, hend⟩
    · exact Or.inr ⟨_, hend⟩
  · rcases evalScript_cases env stack script with hend | ⟨e, he, hend⟩ | ⟨-, hbad⟩
    · exact absurd (hunknown.symm.trans hend) (by simp)
    · have := Except.error.inj (hunknown.symm.trans hend)
      exact absurd (Stop.error.inj this).symm he
    · exact hbad

/-- Flags, a checker that accepts nothing and hash functions that are never asked below. -/
def ScriptEnv.idle (flags : UInt32) : ScriptEnv where
  flags := flags
  checkSig _ _ _ := false
  ripemd160 _ := ⟨List.replicate 20 0, length_zero160⟩
  sha1 _ := ⟨List.replicate 20 0, length_zero160⟩
  sha256 _ := ⟨List.replicate 32 0, length_zero256⟩
  hash160 _ := ⟨List.replicate 20 0, length_zero160⟩
  hash256 _ := ⟨List.replicate 32 0, length_zero256⟩

/-- An operand of five bytes is the reason for `UNKNOWN_ERROR`. -/
theorem evalScript_safe_sample :
    (evalScript (.idle 0) [[0, 0, 0, 0, 1]] [OP_1ADD]).1 = .error (.error .UNKNOWN_ERROR) ∧
      ∃ pc s e s', Reaches (.idle 0) [OP_1ADD] (EvalState.init [[0, 0, 0, 0, 1]] [OP_1ADD]) pc s ∧
        exec (step (.idle 0) pc) s = (.error (.thrown (.scriptNum e)), s') ∧
        BadOperand (.idle 0) s.stack e := by
  have hrun : (evalScript (.idle 0) [[0, 0, 0, 0, 1]] [OP_1ADD]).1 =
      .error (.error .UNKNOWN_ERROR) := by
    rw [evalScript, if_neg (by decide), evalLoop]
    rfl
  exact ⟨hrun, (evalScript_safe (.idle 0) [[0, 0, 0, 0, 1]] [OP_1ADD] (by decide)
    (by decide)).2.2.1 hrun⟩

end BitBlocks
