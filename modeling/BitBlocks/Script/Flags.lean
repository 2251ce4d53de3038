import BitBlocks.Script.Sign
import BitBlocks.Validation.ConnectBlock

/-!
# Fewer flags accept more

A script verification flag makes `EvalScript` stop where it would go on, or adds an evaluation
to `VerifyScript`. It changes nothing else: a run that does not stop goes through the same
states without the flag. So what `VerifyScript` accepts under some flags it accepts under
fewer, and the branch of `AcceptToMemoryPool` that reports a bug, for a transaction that
passes the standard flags and fails the mandatory ones, is never taken on account of scripts.
-/

namespace BitBlocks

open Hoare Eval Checks

variable {env : ScriptEnv} {flags : UInt32}

/-- The flags are among those of the environment. -/
def Among (flags : UInt32) (env : ScriptEnv) : Prop := flags &&& env.flags = flags

theorem Among.test (h : Among flags env) {mask : UInt32} (hmask : (flags &&& mask != 0) = true) :
    (env.flags &&& mask != 0) = true := by
  rw [bne_iff_ne] at hmask ⊢
  intro hzero
  rw [← h, UInt32.and_assoc, hzero, UInt32.and_zero] at hmask
  exact hmask rfl

theorem Among.flag (h : Among flags env) {f : UInt32}
    (hf : ({ env with flags } : ScriptEnv).flag f = true) : env.flag f = true := h.test hf

theorem within_failIf {c c' : Prop} [Decidable c] [Decidable c'] (e : ScriptError) (hc : c' → c) :
    Within (failIf c e) (failIf c' e) := Within.guard _ hc (.refl _)

/-! ## Encodings -/

variable (h : Among flags env)
include h

theorem checkSignatureEncoding_none {vchSig : Valtype}
    (hnone : checkSignatureEncoding vchSig env.flags = none) :
    checkSignatureEncoding vchSig flags = none := by
  unfold checkSignatureEncoding at hnone ⊢
  by_cases hempty : vchSig = []
  · rw [if_pos hempty]
  rw [if_neg hempty] at hnone ⊢
  split_ifs at hnone with hder hlow hhash
  · rw [hnone, Option.isSome_none, Bool.and_false] at hlow
    exact absurd hlow Bool.false_ne_true
  · rw [if_neg fun hc => hder ?_, if_neg fun hc => hlow ?_, if_neg fun hc => hhash ?_]
    all_goals
      rw [Bool.and_eq_true] at hc ⊢
      exact ⟨h.test hc.1, hc.2⟩

theorem checkPubKeyEncoding_none {vchPubKey : Valtype}
    (hnone : checkPubKeyEncoding vchPubKey env.flags = none) :
    checkPubKeyEncoding vchPubKey flags = none := by
  unfold checkPubKeyEncoding at hnone ⊢
  split_ifs at hnone with hkey
  rw [if_neg]
  intro hc
  rw [Bool.and_eq_true] at hc hkey
  exact hkey ⟨h.test hc.1, hc.2⟩

/-! ## Instructions -/

theorem within_scriptNum (vch : Valtype) :
    Within (scriptNum env vch) (scriptNum { env with flags } vch) := by
  unfold scriptNum CScriptNum.ofVch
  by_cases hlong : vch.length > CScriptNum.nMaxNumSize
  · rw [if_pos hlong, if_pos hlong]
    exact .refl _
  rw [if_neg hlong, if_neg hlong]
  by_cases hstrict : (env.flag SCRIPT_VERIFY_MINIMALDATA && !CScriptNum.isMinimal vch) = true
  · rw [if_pos hstrict]
    exact .throw _ _
  · rw [if_neg hstrict, if_neg]
    · exact .refl _
    · intro hweak
      rw [Bool.and_eq_true] at hweak hstrict
      exact hstrict ⟨h.flag hweak.1, hweak.2⟩

theorem within_opUpgradableNop :
    Within (opUpgradableNop env) (opUpgradableNop { env with flags }) :=
  within_failIf _ h.flag

theorem within_opPickRoll (opcode : UInt8) :
    Within (opPickRoll env opcode) (opPickRoll { env with flags } opcode) :=
  .bind (.refl _) fun _ => .bind (.refl _) fun vch =>
    .bind (within_scriptNum h vch) fun _ => .refl _

theorem within_opUnary (opcode : UInt8) :
    Within (opUnary env opcode) (opUnary { env with flags } opcode) :=
  .bind (.refl _) fun _ => .bind (.refl _) fun vch =>
    .bind (within_scriptNum h vch) fun _ => .refl _

theorem within_opBinary (opcode : UInt8) :
    Within (opBinary env opcode) (opBinary { env with flags } opcode) :=
  .bind (.refl _) fun _ => .bind (.refl _) fun vch1 => .bind (within_scriptNum h vch1) fun _ =>
    .bind (.refl _) fun vch2 => .bind (within_scriptNum h vch2) fun _ => .refl _

theorem within_opWithin : Within (opWithin env) (opWithin { env with flags }) :=
  .bind (.refl _) fun _ => .bind (.refl _) fun vch1 => .bind (within_scriptNum h vch1) fun _ =>
    .bind (.refl _) fun vch2 => .bind (within_scriptNum h vch2) fun _ =>
      .bind (.refl _) fun vch3 => .bind (within_scriptNum h vch3) fun _ => .refl _

theorem within_checkSig (vchSig vchPubKey : Valtype) (scriptCode : CScript) :
    Within (Eval.checkSig env vchSig vchPubKey scriptCode)
      (Eval.checkSig { env with flags } vchSig vchPubKey scriptCode) := by
  unfold Eval.checkSig
  cases hsig : checkSignatureEncoding vchSig env.flags with
  | some e => exact .throw _ _
  | none =>
    rw [checkSignatureEncoding_none h hsig]
    cases hkey : checkPubKeyEncoding vchPubKey env.flags with
    | some e => exact .throw _ _
    | none =>
      rw [checkPubKeyEncoding_none h hkey]
      exact .refl _

theorem within_opCheckSig (opcode : UInt8) :
    Within (opCheckSig env opcode) (opCheckSig { env with flags } opcode) :=
  .bind (.refl _) fun _ => .bind (.refl _) fun vchSig => .bind (.refl _) fun vchPubKey =>
    .bind (.refl _) fun _ => .bind (within_checkSig h vchSig vchPubKey _) fun _ => .refl _

theorem within_multisigLoop (scriptCode : CScript) (isig ikey : Nat) (nSigsCount nKeysCount : Int) :
    Within (multisigLoop env scriptCode isig ikey nSigsCount nKeysCount)
      (multisigLoop { env with flags } scriptCode isig ikey nSigsCount nKeysCount) := by
  induction hn : (nKeysCount + 1).toNat using Nat.strong_induction_on
    generalizing isig ikey nSigsCount nKeysCount with
  | h n ih =>
    rw [multisigLoop.eq_def env, multisigLoop.eq_def { env with flags }]
    by_cases hpos : nSigsCount > 0
    · rw [if_pos hpos, if_pos hpos]
      refine .bind (.refl _) fun vchSig => .bind (.refl _) fun vchPubKey =>
        .bind (within_checkSig h vchSig vchPubKey scriptCode) fun fOk => ?_
      dsimp only
      by_cases hmore : (if fOk = true then nSigsCount - 1 else nSigsCount) > nKeysCount - 1
      · rw [if_pos hmore, if_pos hmore]
        exact .refl _
      · rw [if_neg hmore, if_neg hmore]
        refine ih _ ?_ _ _ _ _ rfl
        split at hmore <;> omega
    · rw [if_neg hpos, if_neg hpos]
      exact .refl _

theorem within_nullDummy : Within (nullDummy env) (nullDummy { env with flags }) := by
  have hlook : Within (do failIf ((← stacktop 1).length ≠ 0) .SIG_NULLDUMMY) (pure ()) := by
    intro s a s' hrun
    have hs : s' = s := by
      refine Wp.of_exec (Q := fun _ s' => s' = s) (E := fun _ _ => True) ?_ hrun
      refine wp_bind.mpr (wp_bind.mpr (wp_get.mpr (wp_ite.mpr ⟨fun _ => ?_, fun _ => trivial⟩)))
      exact wp_pure.mpr (wp_ite.mpr ⟨fun _ => trivial, fun _ => rfl⟩)
    rw [hs]
    rfl
  unfold nullDummy
  by_cases hweak : ({ env with flags } : ScriptEnv).flag SCRIPT_VERIFY_NULLDUMMY = true
  · rw [if_pos hweak, if_pos (h.flag hweak)]
    exact .refl _
  rw [if_neg hweak]
  by_cases hstrict : env.flag SCRIPT_VERIFY_NULLDUMMY = true
  · rw [if_pos hstrict]
    exact hlook
  · rw [if_neg hstrict]
    exact .refl _

theorem within_verifyMultiSig (opcode : UInt8) (i isig ikey : Nat) (nSigsCount nKeysCount : Int) :
    Within (verifyMultiSig env opcode i isig ikey nSigsCount nKeysCount)
      (verifyMultiSig { env with flags } opcode i isig ikey nSigsCount nKeysCount) :=
  .bind (.refl _) fun _ => .bind (.refl _) fun scriptCode =>
    .bind (within_multisigLoop h scriptCode isig ikey nSigsCount nKeysCount) fun _ =>
      .bind (.refl _) fun _ => .bind (.refl _) fun _ => .bind (within_nullDummy h) fun _ => .refl _

theorem within_opCheckMultiSig (opcode : UInt8) :
    Within (opCheckMultiSig env opcode) (opCheckMultiSig { env with flags } opcode) :=
  .bind (.refl _) fun _ => .bind (.refl _) fun vch => .bind (within_scriptNum h vch) fun _ =>
    .bind (.refl _) fun _ => .bind (.refl _) fun _ => .bind (.refl _) fun _ =>
    .bind (.refl _) fun _ => .bind (.refl _) fun _ => .bind (.refl _) fun vch' =>
    .bind (within_scriptNum h vch') fun _ => .bind (.refl _) fun _ => .bind (.refl _) fun _ =>
      within_verifyMultiSig h opcode _ _ _ _ _

/-! ## The loop -/

theorem within_execOp (opcode : UInt8) (pc : CScript) :
    Within (execOp env opcode pc) (execOp { env with flags } opcode pc) := by
  unfold execOp
  refine .ite (.refl _) (.ite (.refl _) (.ite (within_opUpgradableNop h) ?_))
  iterate 19 refine .ite (.refl _) ?_
  refine .ite (within_opPickRoll h opcode) ?_
  iterate 5 refine .ite (.refl _) ?_
  refine .ite (within_opUnary h opcode) (.ite (within_opBinary h opcode) ?_)
  refine .ite (within_opWithin h) (.ite (.refl _) (.ite (.refl _) ?_))
  exact .ite (within_opCheckSig h opcode) (.ite (within_opCheckMultiSig h opcode) (.refl _))

theorem within_stepOp (opcode : UInt8) (vchPushValue : Valtype) (pc : CScript) :
    Within (stepOp env opcode vchPushValue pc)
    (stepOp { env with flags } opcode vchPushValue pc) := by
  have hpush : ∀ fExec, Within (pushOrExec env fExec opcode vchPushValue pc)
      (pushOrExec { env with flags } fExec opcode vchPushValue pc) := fun fExec =>
    .ite (.bind (within_failIf _ fun hc => ⟨h.flag hc.1, hc.2⟩) fun _ => .refl _)
      (.ite (within_execOp h opcode pc) (.refl _))
  exact .bind (.refl _) fun _ => .bind (.refl _) fun _ => .bind (.refl _) fun _ =>
    .bind (.refl _) fun _ => .bind (hpush _) fun _ => .refl _

theorem within_step (pc : CScript) : Within (step env pc) (step { env with flags } pc) := by
  unfold step
  split
  · exact .refl _
  · exact .bind (within_stepOp h _ _ _) fun _ => .refl _

/-- **A run of the loop that does not stop** is the same run under fewer flags. -/
theorem evalLoop_fewer {pc : CScript} {s s' : EvalState}
    (hrun : evalLoop env pc s = (.ok (), s')) :
      evalLoop { env with flags } pc s = (.ok (), s') := by
  induction hn : pc.length using Nat.strong_induction_on generalizing pc s with
  | h n ih =>
    rw [evalLoop] at hrun ⊢
    by_cases hend : pc = []
    · rwa [if_pos hend] at hrun ⊢
    · rw [if_neg hend] at hrun ⊢
      split at hrun
      · cases hrun
      · rename_i pc' s1 hstep
        have hsame := within_step h pc s pc' s1 hstep
        obtain ⟨_, _, hop, _⟩ := exec_step hstep
        split
        · rename_i hother
          rw [hsame] at hother
          cases hother
        · rename_i hother
          rw [hsame] at hother
          obtain ⟨hpc, rfl⟩ := Prod.mk.inj hother
          obtain rfl := Except.ok.inj hpc
          exact ih pc'.length (hn ▸ CScript.length_getOp hop) hrun rfl

theorem evalScript_fewer {stack : List Valtype} {script : CScript}
    {s : EvalState} (hrun : evalScript env stack script = (.ok (), s)) :
    evalScript { env with flags } stack script = (.ok (), s) := by
  unfold evalScript at hrun ⊢
  by_cases hlong : script.length > 10000
  · rw [if_pos hlong] at hrun
    cases hrun
  rw [if_neg hlong] at hrun ⊢
  rcases hloop : evalLoop env script (EvalState.init stack script) with ⟨e | u, s1⟩
  · rw [hloop] at hrun
    cases e <;> cases hrun
  · rw [hloop] at hrun
    rw [evalLoop_fewer h hloop]
    exact hrun

omit h in
theorem passed {c : Prop} [Decidable c] {e : Stop} {l : List EvalState}
    {r : Except Stop Unit × List EvalState}
    (hok : (if c then (.error e, l) else r).1 = .ok ()) : ¬ c ∧ r.1 = .ok () := by
  split at hok
  · cases hok
  · exact ⟨‹_›, hok⟩

theorem verifyScript_fewer {scriptSig scriptPubKey : CScript}
    (hok : (verifyScript env scriptSig scriptPubKey).1 = .ok ()) :
    (verifyScript { env with flags } scriptSig scriptPubKey).1 = .ok () := by
  unfold verifyScript at hok ⊢
  obtain ⟨hpush, hok⟩ := passed hok
  rw [if_neg fun hweak => hpush ?_]
  swap
  · rw [Bool.and_eq_true] at hweak ⊢
    exact ⟨h.flag hweak.1, hweak.2⟩
  rcases h1 : evalScript env [] scriptSig with ⟨e | u, s1⟩
  · rw [h1] at hok
    cases hok
  rw [h1] at hok
  rw [evalScript_fewer h h1]
  dsimp only at hok ⊢
  rcases h2 : evalScript env s1.stack scriptPubKey with ⟨e | u, s2⟩
  · rw [h2] at hok
    cases hok
  rw [h2] at hok
  rw [evalScript_fewer h h2]
  dsimp only at hok ⊢
  obtain ⟨hempty, hok⟩ := passed hok
  obtain ⟨hfalse, hok⟩ := passed hok
  rw [if_neg hempty, if_neg hfalse]
  by_cases hweak : (({ env with flags } : ScriptEnv).flag SCRIPT_VERIFY_P2SH &&
      scriptPubKey.isPayToScriptHash) = true
  · -- both run the serialized script, on the same copy of the stack
    have hp2sh := Bool.and_eq_true_iff.mp hweak
    rw [if_pos (Bool.and_eq_true_iff.mpr ⟨h.flag hp2sh.1, hp2sh.2⟩), h.flag hp2sh.1] at hok
    rw [if_pos hweak, hp2sh.1]
    rw [if_pos rfl] at hok ⊢
    obtain ⟨hpush', hok⟩ := passed hok
    obtain ⟨hcopy, hok⟩ := passed hok
    rw [if_neg hpush', if_neg hcopy]
    rcases h3 : evalScript env s1.stack.dropLast (s1.stack.getLastD []) with ⟨e | u, s3⟩
    · rw [h3] at hok
      cases hok
    rw [h3] at hok
    rw [evalScript_fewer h h3]
    exact hok
  · rw [if_neg hweak]

omit h

/-! ## `CheckInputs` under two sets of flags -/

def SCRIPT_VERIFY_NONE : UInt32 := 0

def ScriptFlags.bits (flags : ScriptFlags) : UInt32 :=
  (if flags.p2sh then SCRIPT_VERIFY_P2SH else SCRIPT_VERIFY_NONE) |||
    (if flags.dersig then SCRIPT_VERIFY_DERSIG else SCRIPT_VERIFY_NONE) |||
    (if flags.standard then Signer.STANDARD_SCRIPT_VERIFY_FLAGS else SCRIPT_VERIFY_NONE)

/-- The rules with the interpreter in them, by the functions it calls. -/
def Rules.withScripts (R : Rules) (env : ScriptEnv) (verify : Valtype → Valtype → Valtype → Bool) :
    Rules where
  __ := R
  verifyScript scriptSig scriptPubKey flags tx nIn :=
    (BitBlocks.verifyScript (env.checker verify flags.bits tx nIn) scriptSig scriptPubKey).1.isOk

theorem ScriptFlags.bits_among (flags : ScriptFlags) {env : ScriptEnv}
    (henv : env.flags = Signer.STANDARD_SCRIPT_VERIFY_FLAGS) : Among flags.bits env := by
  obtain ⟨p2sh, dersig, standard⟩ := flags
  rw [Among, henv]
  cases p2sh <;> cases dersig <;> cases standard <;> decide

section CheckInputs

variable {R : Rules} {P : CChainParams} {verify : Valtype → Valtype → Valtype → Bool}
  {inputs : CCoinsView} {tx : CTransaction}

theorem checkScript_fewer {txin : CTxIn} {nIn : Nat} (flags : ScriptFlags)
    (h : checkScript (R.withScripts env verify) inputs { standard := true } tx txin nIn = .ok ()) :
    checkScript (R.withScripts env verify) inputs flags tx txin nIn = .ok () := by
  unfold checkScript at h ⊢
  dsimp only at h ⊢
  have hstandard : (R.withScripts env verify).verifyScript txin.scriptSig
      (inputs.getOutputFor txin).scriptPubKey { standard := true } tx nIn = true := by
    by_contra hrefused
    rw [if_neg hrefused] at h
    simp at h
  rw [if_pos]
  simp only [Rules.withScripts] at hstandard ⊢
  cases hok : (verifyScript (env.checker verify ({ standard := true } : ScriptFlags).bits tx nIn)
      txin.scriptSig (inputs.getOutputFor txin).scriptPubKey).1 with
  | error e =>
    rw [hok] at hstandard
    exact absurd hstandard (by simp [Except.isOk, Except.toBool])
  | ok u =>
    have hfewer := verifyScript_fewer (flags.bits_among rfl) hok
    exact (congrArg Except.isOk hfewer).trans rfl

/--
**Fewer flags accept more.** A spend that `VerifyScript` accepts under some flags it accepts under
any of them, with any signature checker. So a transaction whose inputs pass under the standard
flags passes under the mandatory ones, and under those of any block: the bug that
`AcceptToMemoryPool` is to report does not occur.
-/
theorem checkInputs_fewer (nSpendHeight : Int) (flags : ScriptFlags) :
    (∀ (env : ScriptEnv) (fewer : UInt32) (scriptSig scriptPubKey : CScript),
      Among fewer env ∧ (verifyScript env scriptSig scriptPubKey).1 = .ok () →
        (verifyScript { env with flags := fewer } scriptSig scriptPubKey).1 = .ok ()) ∧
    ((checkInputs (R.withScripts env verify) P tx inputs nSpendHeight true
        { standard := true }).isOk &&
      !(checkInputs (R.withScripts env verify) P tx inputs nSpendHeight true flags).isOk) =
        false := by
  refine ⟨fun env fewer scriptSig scriptPubKey h => verifyScript_fewer h.1 h.2, ?_⟩
  cases hstandard : checkInputs (R.withScripts env verify) P tx inputs nSpendHeight true
      { standard := true } with
  | error e => rfl
  | ok u =>
    have hfewer : checkInputs (R.withScripts env verify) P tx inputs nSpendHeight true flags =
        .ok u := by
      unfold checkInputs at hstandard ⊢
      by_cases hcoinbase : tx.isCoinBase = true
      · rw [if_pos hcoinbase]
      · rw [if_neg hcoinbase] at hstandard ⊢
        simp only [bind_eq_ok, failIf_eq_ok, if_true, all_eq_ok] at hstandard ⊢
        obtain ⟨u₁, hhave, nValueIn, hcoins, u₂, hfee, hall⟩ := hstandard
        exact ⟨u₁, hhave, nValueIn, hcoins, u₂, hfee,
          fun x hx => checkScript_fewer flags (hall x hx)⟩
    rw [hfewer]
    rfl

end CheckInputs

end BitBlocks
