import BitBlocks.Script.Safety

/-!
# Signature operations are not undercounted

`GetSigOpCount` scans a script without running it. What the scan has still to
count is a potential: a round of the interpreter asks the checker at most as
often as the scan counts for the instruction. For `CHECKMULTISIG` the scan goes
by the instruction before. It may, because a number that was pushed by the
instruction before is on top of the stack: either both are executed or neither.
-/

namespace BitBlocks

open Hoare Eval

namespace CScript

/-- What the scan counts from an instruction on, without the width of its counter. -/
def sigOpTotal (fAccurate : Bool) (lastOpcode : UInt8) (pc : CScript) : Nat :=
  match _h : getOp pc with
  | none => 0
  | some (opcode, _, pc') =>
    sigOpCost fAccurate lastOpcode opcode + sigOpTotal fAccurate opcode pc'
termination_by pc.length
decreasing_by exact length_getOp _h

section Scan

variable {fAccurate : Bool} {lastOpcode opcode : UInt8} {vch : Valtype} {pc pc' : CScript}

theorem sigOpTotal_stop (h : getOp pc = none) : sigOpTotal fAccurate lastOpcode pc = 0 := by
  rw [sigOpTotal]
  split
  · rfl
  · rename_i hop
    exact absurd (h.symm.trans hop) (by simp)

theorem sigOpTotal_op (h : getOp pc = some (opcode, vch, pc')) :
    sigOpTotal fAccurate lastOpcode pc =
      sigOpCost fAccurate lastOpcode opcode + sigOpTotal fAccurate opcode pc' := by
  rw [sigOpTotal]
  split
  · rename_i hop
    exact absurd (h.symm.trans hop) (by simp)
  · rename_i hop
    obtain ⟨rfl, -, rfl⟩ := getOp_unique h hop
    rfl

theorem sigOpLoop_eq {n : Nat} (hn : n < 2 ^ 32) :
    sigOpLoop fAccurate lastOpcode n pc = (n + sigOpTotal fAccurate lastOpcode pc) % 2 ^ 32 := by
  fun_induction sigOpLoop fAccurate lastOpcode n pc with
  | case1 lastOpcode n pc h => rw [sigOpTotal_stop h, Nat.add_zero, Nat.mod_eq_of_lt hn]
  | case2 lastOpcode n pc opcode vch pc' h ih =>
    rw [ih (Nat.mod_lt _ (by decide)), sigOpTotal_op h, Nat.mod_add_mod, Nat.add_assoc]

/-- **The counter is the count modulo its width.** -/
theorem getSigOpCount_eq (script : CScript) (fAccurate : Bool) :
    getSigOpCount script fAccurate = sigOpTotal fAccurate OP_INVALIDOPCODE script % 2 ^ 32 := by
  rw [getSigOpCount, sigOpLoop_eq (by decide), Nat.zero_add]

theorem decodeOP_N_le (h : opcode ≤ OP_16) : decodeOP_N opcode ≤ 16 := by
  have hle : opcode.toNat ≤ OP_16.toNat := UInt8.le_iff_toNat_le.mp h
  have h16 : OP_16.toNat - (OP_1.toNat - 1) = 16 := rfl
  unfold decodeOP_N
  omega

theorem sigOpCost_le (fAccurate : Bool) (lastOpcode opcode : UInt8) :
    sigOpCost fAccurate lastOpcode opcode ≤ sigOpCost false lastOpcode opcode ∧
      sigOpCost fAccurate lastOpcode opcode ≤ 20 := by
  unfold sigOpCost
  split_ifs with _ _ hN hF hF
  · omega
  · exact absurd hF.1 id
  · have hle := decodeOP_N_le hN.2.2
    omega
  · exact absurd hF.1 id
  all_goals omega

/-- **The accurate count is the lower one**, as long as the counter does not wrap around. -/
theorem sigOpTotal_le (fAccurate : Bool) (pc : CScript) : ∀ lastOpcode : UInt8,
    sigOpTotal fAccurate lastOpcode pc ≤ sigOpTotal false lastOpcode pc ∧
      sigOpTotal fAccurate lastOpcode pc ≤ 20 * pc.length := by
  intro lastOpcode
  fun_induction sigOpTotal fAccurate lastOpcode pc with
  | case1 lastOpcode pc h => exact ⟨Nat.zero_le _, Nat.zero_le _⟩
  | case2 lastOpcode pc opcode vch pc' h ih =>
    have hcost := sigOpCost_le fAccurate lastOpcode opcode
    have hlen := length_getOp h
    rw [sigOpTotal_op h]
    omega

end Scan

end CScript

/-! ## The interpreter pays with the potential -/

/-- The number the instruction before has pushed is still on top. -/
def Guessed (lastOpcode : UInt8) (s : EvalState) : Prop :=
  OP_1 ≤ lastOpcode ∧ lastOpcode ≤ OP_16 → s.fExec = true →
    fromEnd s.stack 1 = CScriptNum.serialize (lastOpcode.toNat - (OP_1.toNat - 1 : Int))

theorem guessed_init (stack : List Valtype) (script : CScript) :
    Guessed OP_INVALIDOPCODE (EvalState.init stack script) :=
  fun h _ => absurd h.2 (by decide)

theorem getint_small {n : Nat} (hlow : 1 ≤ n) (hhigh : n ≤ 16) {fRequireMinimal : Bool} {m : Int}
    (h : CScriptNum.ofVch (CScriptNum.serialize n) fRequireMinimal = .ok m) :
    CScriptNum.getint m = n := by
  interval_cases n <;> cases fRequireMinimal <;> cases h <;> rfl

section Round

variable {env : ScriptEnv} {lastOpcode opcode : UInt8} {vch : Valtype} {pc pc' : CScript}
  {s s' : EvalState}

/-- **What the scan counts for an instruction is enough.** -/
theorem charged_of_guessed (hlast : Guessed lastOpcode s) (hexec : s.fExec = true) :
    Charged env opcode s.stack (CScript.sigOpCost true lastOpcode opcode) where
  sig hop := by rw [CScript.sigOpCost, if_pos hop]
  multisig hop m hm hle := by
    have hsig : ¬(opcode = OP_CHECKSIG ∨ opcode = OP_CHECKSIGVERIFY) := by
      rcases hop with rfl | rfl <;> decide
    rw [CScript.sigOpCost, if_neg hsig, if_pos hop]
    split
    · rename_i hN
      have hlow : OP_1.toNat ≤ lastOpcode.toNat := UInt8.le_iff_toNat_le.mp hN.2.1
      have h1 : OP_1.toNat = 81 := rfl
      have hsmall := CScript.decodeOP_N_le hN.2.2
      have hnum : (lastOpcode.toNat - (OP_1.toNat - 1 : Int)) = CScript.decodeOP_N lastOpcode := by
        unfold CScript.decodeOP_N
        omega
      rw [hlast hN.2 hexec, hnum] at hm
      exact (getint_small (by unfold CScript.decodeOP_N; omega) hsmall hm).le
    · exact hle

theorem fromEnd_push (stack : List Valtype) (vch : Valtype) : fromEnd (stack ++ [vch]) 1 = vch := by
  simp [fromEnd]

theorem guessed_stepOp :
    Wp (stepOp env opcode vch pc) (fun _ s' => Guessed opcode s') (fun _ _ => True) s := by
  by_cases hN : OP_1 ≤ opcode ∧ opcode ≤ OP_16
  · have hc : s.checks ≤ s.checks + 0 := Nat.le_refl _
    have hfree : ¬ opcode > OP_16 := UInt8.not_lt.mpr hN.2
    have hnum : ¬ opcode ≤ OP_PUSHDATA4 := fun h =>
      absurd (UInt8.le_trans hN.1 h) (by decide)
    suffices Wp (stepOp env opcode vch pc) (fun _ s' => Guessed opcode s') (Stopped env s 0) s from
      this.mono (fun _ _ h => h) fun _ _ _ => trivial
    refine wp_bind.mpr (wp_get.mpr (wp_bind.mpr (wp_failIf (by decide) hc fun _ => ?_)))
    refine wp_bind.mpr (wp_ite.mpr ⟨fun h => absurd h hfree, fun _ => wp_pure.mpr ?_⟩)
    refine wp_bind.mpr (wp_failIf (by decide) hc fun _ => wp_bind.mpr ?_)
    refine wp_ite.mpr ⟨fun h => absurd h.2 hnum, fun _ => wp_ite.mpr ⟨fun _ => ?_, fun hskip => ?_⟩⟩
    · refine wp_ite.mpr ⟨fun _ => wp_pushBack (wp_bind.mpr (wp_get.mpr ?_)), fun h =>
        absurd (Or.inr hN) h⟩
      exact wp_failIf (by decide) hc fun _ _ _ => fromEnd_push _ _
    · refine wp_pure.mpr (wp_bind.mpr (wp_get.mpr (wp_failIf (by decide) hc fun _ => ?_)))
      exact fun _ hexec => absurd (Or.inl hexec) hskip
  · have hstep := wp_stepOp pc vch fun _ => charged_twenty env opcode s.stack
    exact hstep.mono (fun _ _ _ h => absurd h hN) fun _ _ _ => trivial

/-- **A round asks at most as often as the scan counts**, whether it stops or not. -/
theorem checks_stepOp (hlast : Guessed lastOpcode s) : Wp (stepOp env opcode vch pc)
      (fun _ s' => s'.checks ≤ s.checks + CScript.sigOpCost true lastOpcode opcode ∧
        Guessed opcode s')
      (fun _ s' => s'.checks ≤ s.checks + CScript.sigOpCost true lastOpcode opcode) s := by
  refine ((wp_stepOp _ _ (charged_of_guessed hlast)).and guessed_stepOp).mono ?_ ?_
  · rintro _ s' ⟨⟨hafter, -⟩, hguess⟩
    exact ⟨hafter.2, hguess⟩
  · rintro e s' ⟨hstopped, -⟩
    exact hstopped.2

/-- **The calls made and the calls the scan has still to count never grow together.** -/
theorem checks_evalLoop (env : ScriptEnv) (pc : CScript) (hlast : Guessed lastOpcode s) :
    (evalLoop env pc s).2.checks ≤ s.checks + CScript.sigOpTotal true lastOpcode pc := by
  fun_induction evalLoop env pc s generalizing lastOpcode with
  | case1 s => exact Nat.le_add_right _ _
  | case2 pc s _ e s' hrun =>
    obtain ⟨-, -, rfl⟩ | ⟨opcode, vch, pc', hop, hexec⟩ := exec_step_error hrun
    · exact Nat.le_add_right _ _
    · have hround := (checks_stepOp hlast).of_exec_error hexec
      rw [CScript.sigOpTotal_op hop]
      exact hround.trans (by omega)
  | case3 pc s _ pc1 s1 hrun ih =>
    obtain ⟨opcode, vch, hop, hexec⟩ := exec_step hrun
    have hround := (checks_stepOp hlast).of_exec hexec
    have := ih hround.2
    rw [CScript.sigOpTotal_op hop]
    omega

end Round

/-- **An evaluation asks at most as often as the scan counts**, whatever its verdict. -/
theorem checks_evalScript (env : ScriptEnv) (stack : List Valtype) (script : CScript) :
    (evalScript env stack script).2.checks ≤ script.getSigOpCount true := by
  unfold evalScript
  split
  · exact Nat.zero_le _
  rename_i hlen
  have htotal := (CScript.sigOpTotal_le true script OP_INVALIDOPCODE).2
  have hle := checks_evalLoop env script (guessed_init stack script)
  have hinit : (EvalState.init stack script).checks = 0 := rfl
  rw [CScript.getSigOpCount_eq, Nat.mod_eq_of_lt (by omega)]
  rw [hinit, Nat.zero_add] at hle
  rcases hloop : evalLoop env script (EvalState.init stack script) with ⟨e | _, s⟩
  · rw [hloop] at hle
    cases e <;> exact hle
  · rw [hloop] at hle
    simp only
    split <;> exact hle

/-! ## Scripts that only push -/

section PushOnly

variable {env : ScriptEnv} {opcode : UInt8} {vch data : Valtype} {pc : CScript} {s s' : EvalState}

theorem sigOpCount_number (h : opcode = OP_1NEGATE ∨ (OP_1 ≤ opcode ∧ opcode ≤ OP_16)) :
    CScript.getSigOpCount (CScriptNum.serialize (opcode.toNat - (OP_1.toNat - 1 : Int))) true =
    0 := by
  rw [CScript.getSigOpCount_eq]
  rcases h with rfl | ⟨hlow, hhigh⟩
  · have hop : CScript.getOp (CScriptNum.serialize (OP_1NEGATE.toNat - (OP_1.toNat - 1 : Int))) =
        some (OP_RIGHT, [], []) := rfl
    rw [CScript.sigOpTotal_op hop, CScript.sigOpTotal_stop rfl]
    rfl
  · have hlow : 81 ≤ opcode.toNat := UInt8.le_iff_toNat_le.mp hlow
    have hhigh : opcode.toNat ≤ 96 := UInt8.le_iff_toNat_le.mp hhigh
    generalize opcode.toNat = n at hlow hhigh
    have hop : CScript.getOp (CScriptNum.serialize (n - (OP_1.toNat - 1 : Int))) = none := by
      interval_cases n <;> rfl
    rw [CScript.sigOpTotal_stop hop]
    rfl

theorem eq_reserved (hdata : ¬ opcode ≤ OP_PUSHDATA4)
    (hN : ¬(opcode = OP_1NEGATE ∨ (OP_1 ≤ opcode ∧ opcode ≤ OP_16))) (hpush : opcode ≤ OP_16) :
    opcode = OP_RESERVED := by
  have hlow : 78 < opcode.toNat := UInt8.lt_iff_toNat_lt.mp (UInt8.not_le.mp hdata)
  have hhigh : opcode.toNat ≤ 96 := UInt8.le_iff_toNat_le.mp hpush
  have hne : opcode.toNat ≠ 79 := fun h => hN (Or.inl (UInt8.toNat_inj.mp h))
  have hlt : ¬ 81 ≤ opcode.toNat := fun h => hN (Or.inr ⟨UInt8.le_iff_toNat_le.mpr h, hpush⟩)
  exact UInt8.toNat_inj.mp (by omega : opcode.toNat = 80)

/-- What is on top counts for no more than what was read. -/
def Covers (data : Valtype) (s : EvalState) : Prop :=
  s.vfExec = [] ∧ CScript.getSigOpCount (fromEnd s.stack 1) true ≤ CScript.getSigOpCount data true

theorem covers_push {vch' : Valtype} (hs : s.vfExec = [])
    (hle : CScript.getSigOpCount vch' true ≤ CScript.getSigOpCount data true) :
    Covers data { s with stack := s.stack ++ [vch'] } :=
  ⟨hs, (fromEnd_push s.stack vch').symm ▸ hle⟩

theorem covers_stepOp (hs : s.vfExec = []) (hpush : opcode ≤ OP_16) :
    Wp (stepOp env opcode vch pc) (fun _ s' => Covers vch s') (fun _ _ => True) s := by
  have hc : s.checks ≤ s.checks + 0 := Nat.le_refl _
  have hexec : s.fExec = true := by rw [EvalState.fExec, hs]; rfl
  suffices Wp (stepOp env opcode vch pc) (fun _ s' => Covers vch s') (Stopped env s 0) s from
    this.mono (fun _ _ h => h) fun _ _ _ => trivial
  refine wp_bind.mpr (wp_get.mpr (wp_bind.mpr (wp_failIf (by decide) hc fun _ => ?_)))
  refine wp_bind.mpr (wp_ite.mpr ⟨fun h => absurd h (UInt8.not_lt.mpr hpush), fun _ => ?_⟩)
  refine wp_pure.mpr (wp_bind.mpr (wp_failIf (by decide) hc fun _ => wp_bind.mpr ?_))
  refine wp_ite.mpr ⟨fun _ => ?_, fun hdata => wp_ite.mpr ⟨fun _ => ?_, fun h => ?_⟩⟩
  · refine wp_bind.mpr (wp_failIf (by decide) hc fun _ => wp_pushBack (wp_bind.mpr (wp_get.mpr ?_)))
    exact wp_failIf (by decide) hc fun _ => covers_push hs (Nat.le_refl _)
  · refine wp_ite.mpr ⟨fun hN => wp_pushBack (wp_bind.mpr (wp_get.mpr ?_)), fun hN => ?_⟩
    · refine wp_failIf (by decide) hc fun _ => covers_push hs ?_
      rw [sigOpCount_number hN]
      exact Nat.zero_le _
    · obtain rfl : opcode = OP_RESERVED := eq_reserved (fun h => hdata ⟨hexec, h⟩) hN hpush
      exact wp_fail (e := .BAD_OPCODE) (by decide) hc
  · exact absurd (Or.inl hexec) h

theorem isPushOnly_op (hop : CScript.getOp pc = some (opcode, vch, pc')) :
    CScript.isPushOnly pc = true ↔ opcode ≤ OP_16 ∧ CScript.isPushOnly pc' = true := by
  rw [CScript.isPushOnly, if_neg (CScript.ne_nil_of_getOp hop)]
  split
  · rename_i hop'
    exact absurd (hop.symm.trans hop') (by simp)
  rename_i hop'
  obtain ⟨rfl, -, rfl⟩ := CScript.getOp_unique hop hop'
  split
  · rename_i hgt
    exact ⟨fun h => absurd h (by simp), fun h => absurd hgt (UInt8.not_lt.mpr h.1)⟩
  · rename_i hle
    exact ⟨fun h => ⟨UInt8.not_lt.mp hle, h⟩, And.right⟩

theorem lastPush_op (hop : CScript.getOp pc = some (opcode, vch, pc')) (hle : opcode ≤ OP_16) :
    CScript.lastPush data pc = CScript.lastPush vch pc' := by
  rw [CScript.lastPush, if_neg (CScript.ne_nil_of_getOp hop)]
  split
  · rename_i hop'
    exact absurd (hop.symm.trans hop') (by simp)
  rename_i hop'
  obtain ⟨rfl, rfl, rfl⟩ := CScript.getOp_unique hop hop'
  exact if_neg (UInt8.not_lt.mpr hle)

/-- **The last push of the scan is what the evaluation leaves on top.** -/
theorem covers_evalLoop (hs : Covers data s) (hpush : CScript.isPushOnly pc = true)
    (hrun : evalLoop env pc s = (.ok (), s')) :
    ∃ data', CScript.lastPush data pc = some data' ∧ Covers data' s' := by
  induction hn : pc.length using Nat.strong_induction_on generalizing pc s data with
  | h n ih =>
    rw [evalLoop] at hrun
    split at hrun
    · rename_i hnil
      obtain ⟨-, rfl⟩ := Prod.mk.inj hrun
      refine ⟨data, ?_, hs⟩
      rw [CScript.lastPush, if_pos hnil]
    split at hrun
    · exact absurd (Prod.mk.inj hrun).1 (by simp)
    · rename_i pc1 s1 hround
      obtain ⟨opcode, vch, hop, hexec⟩ := exec_step hround
      obtain ⟨hle, hpush1⟩ := (isPushOnly_op hop).mp hpush
      have hcovers := (covers_stepOp hs.1 hle).of_exec hexec
      rw [lastPush_op hop hle]
      exact ih _ (hn ▸ CScript.length_getOp hop) hcovers hpush1 hrun rfl

theorem checks_redeem {scriptSig : CScript} (hpush : scriptSig.isPushOnly = true)
    (hok : (evalScript env [] scriptSig).1 = .ok ()) :
    ∃ data, CScript.lastPush [] scriptSig = some data ∧
      CScript.getSigOpCount (fromEnd (evalScript env [] scriptSig).2.stack 1) true ≤
        CScript.getSigOpCount data true := by
  have hinit : Covers [] (EvalState.init [] scriptSig) := ⟨rfl, Nat.le_refl _⟩
  revert hok
  unfold evalScript
  split
  · simp
  rcases hloop : evalLoop env scriptSig (EvalState.init [] scriptSig) with ⟨e | _, s⟩
  · cases e <;> simp
  · intro _
    obtain ⟨data, hlast, hcovers⟩ := covers_evalLoop hinit hpush hloop
    refine ⟨data, hlast, ?_⟩
    simp only
    split <;> exact hcovers.2

end PushOnly

theorem verifyScript_third {env : ScriptEnv} {scriptSig scriptPubKey : CScript} {s3 : EvalState}
    (h : (verifyScript env scriptSig scriptPubKey).2[2]? = some s3) :
    (evalScript env [] scriptSig).1 = .ok () ∧
      ∃ stack, s3 = (evalScript env stack (fromEnd (evalScript env [] scriptSig).2.stack 1)).2 := by
  revert h
  unfold verifyScript
  split
  · simp
  split
  · simp
  rename_i s1 h1
  dsimp only
  split
  · simp
  split
  · simp
  split
  · simp
  split
  · rename_i hp2sh
    obtain ⟨hflag, -⟩ := (Bool.and_eq_true _ _).mp hp2sh
    rw [if_pos hflag]
    split
    · simp
    split
    · simp
    rw [h1]
    have htop : s1.stack.getLastD [] = fromEnd s1.stack 1 := by
      simp [fromEnd, List.getLast?_eq_getElem?]
    rw [htop]
    intro h
    refine ⟨rfl, s1.stack.dropLast, ?_⟩
    revert h
    split
    · rename_i e s h3
      rw [h3]
      simp [eq_comm]
    · rename_i s h3
      rw [h3]
      split_ifs <;> simp [eq_comm]
  · simp

/-! ## Runs on fixed scripts -/

/-- `k` times `OP_1 OP_CHECKMULTISIG`. -/
def multisigs : Nat → CScript
  | 0 => []
  | k + 1 => OP_1 :: OP_CHECKMULTISIG :: multisigs k

theorem sigOpTotal_multisigs (fAccurate : Bool) (k : Nat) (lastOpcode : UInt8) :
    (multisigs k).sigOpTotal fAccurate lastOpcode = (if fAccurate then 1 else 20) * k := by
  induction k generalizing lastOpcode with
  | zero => exact CScript.sigOpTotal_stop rfl
  | succ k ih =>
    have h1 : CScript.getOp (multisigs (k + 1)) =
        some (OP_1, [], OP_CHECKMULTISIG :: multisigs k) := rfl
    have h2 : CScript.getOp (OP_CHECKMULTISIG :: multisigs k) =
        some (OP_CHECKMULTISIG, [], multisigs k) := rfl
    have hcost : CScript.sigOpCost fAccurate lastOpcode OP_1 = 0 := rfl
    have hcost' : CScript.sigOpCost fAccurate OP_1 OP_CHECKMULTISIG =
        if fAccurate then 1 else 20 := by cases fAccurate <;> rfl
    rw [CScript.sigOpTotal_op h1, CScript.sigOpTotal_op h2, ih, hcost, hcost', Nat.mul_succ]
    omega

theorem evalLoop_round {env : ScriptEnv} {pc pc' : CScript} {s s' : EvalState} (hne : pc ≠ [])
    (hrun : exec (step env pc) s = (.ok pc', s')) : evalLoop env pc s = evalLoop env pc' s' := by
  rw [evalLoop, if_neg hne]
  split
  · rename_i h
    exact absurd (Prod.mk.inj (hrun.symm.trans h)).1 (by simp)
  · rename_i h
    obtain ⟨hpc, rfl⟩ := Prod.mk.inj (hrun.symm.trans h)
    rw [Except.ok.inj hpc]

theorem evalLoop_nil (env : ScriptEnv) (s : EvalState) : evalLoop env [] s = (.ok (), s) := by
  rw [evalLoop, if_pos rfl]

theorem evalScript_of_evalLoop {env : ScriptEnv} {stack : List Valtype} {script : CScript}
    {s : EvalState} (hlen : ¬ script.length > 10000)
    (h : evalLoop env script (EvalState.init stack script) = (.ok (), s)) (hexec : s.vfExec = []) :
    evalScript env stack script = (.ok (), s) := by
  rw [evalScript, if_neg hlen, h]
  exact if_neg (not_not_intro hexec)

section Sample

def sampleEnv : ScriptEnv := .idle SCRIPT_VERIFY_P2SH

/-- An empty signature and key, and a redeem script that checks them. -/
def sampleSig : CScript := [OP_0, OP_0, 1, OP_CHECKSIG]

def samplePubKey : CScript := OP_HASH160 :: 0x14 :: List.replicate 20 0 ++ [OP_EQUAL]

theorem isPushOnly_sampleSig : sampleSig.isPushOnly = true := by
  have hnil : CScript.isPushOnly [] = true := by rw [CScript.isPushOnly, if_pos rfl]
  exact (isPushOnly_op rfl).mpr ⟨by decide, (isPushOnly_op rfl).mpr ⟨by decide,
    (isPushOnly_op rfl).mpr ⟨by decide, hnil⟩⟩⟩

theorem verifyScript_sample : (verifyScript sampleEnv sampleSig samplePubKey).2[2]? =
    some { stack := [[]], nOpCount := 1, pbegincodehash := [OP_CHECKSIG], checks := 1 } := by
  have h1 : evalScript sampleEnv [] sampleSig =
      (.ok (), { stack := [[], [], [OP_CHECKSIG]], pbegincodehash := sampleSig }) :=
    evalScript_of_evalLoop (by decide) ((evalLoop_round (by decide) rfl).trans
      ((evalLoop_round (by decide) rfl).trans
        ((evalLoop_round (by decide) rfl).trans (evalLoop_nil _ _)))) rfl
  have h2 : evalScript sampleEnv [[], [], [OP_CHECKSIG]] samplePubKey =
      (.ok (), { stack := [[], [], [1]], nOpCount := 2, pbegincodehash := samplePubKey }) :=
    evalScript_of_evalLoop (by decide) ((evalLoop_round (by decide) rfl).trans
      ((evalLoop_round (by decide) rfl).trans
        ((evalLoop_round (by decide) rfl).trans (evalLoop_nil _ _)))) rfl
  have h3 : evalScript sampleEnv ([[], [], [OP_CHECKSIG]] : List Valtype).dropLast
      (([[], [], [OP_CHECKSIG]] : List Valtype).getLastD []) =
      (.ok (), { stack := [[]], nOpCount := 1, pbegincodehash := [OP_CHECKSIG], checks := 1 }) :=
    evalScript_of_evalLoop (by decide) ((evalLoop_round (by decide) rfl).trans
      (evalLoop_nil _ _)) rfl
  rw [verifyScript, if_neg (by decide), h1]
  dsimp only
  rw [if_pos (by decide : sampleEnv.flag SCRIPT_VERIFY_P2SH = true), h2]
  dsimp only
  rw [if_neg (by decide), if_neg (by decide), if_pos (by decide), isPushOnly_sampleSig,
    if_neg (by decide), if_neg (by decide), h3]
  rfl

end Sample

/-! ## The counts are bounds -/

/--
**Signature operations are not undercounted**: an evaluation asks the checker at
most as often as the accurate scan counts, which is at most the other count as
long as that fits its counter, and the redeem script of a pay-to-script-hash
output at most as often as is counted for the pair.
-/
theorem checks_le_getSigOpCount (env : ScriptEnv) :
    (∀ stack script, (evalScript env stack script).2.checks ≤ script.getSigOpCount true) ∧
      (∀ script : CScript, script.sigOpTotal false OP_INVALIDOPCODE < 2 ^ 32 →
        script.getSigOpCount true ≤ script.getSigOpCount false) ∧
      ∀ (scriptSig scriptPubKey : CScript) (s₃ : EvalState),
        scriptPubKey.isPayToScriptHash = true → scriptSig.isPushOnly = true →
        (verifyScript env scriptSig scriptPubKey).2[2]? = some s₃ →
          s₃.checks ≤ scriptPubKey.getSigOpCountP2SH scriptSig := by
  refine ⟨checks_evalScript env, fun script hfits => ?_, fun scriptSig scriptPubKey s₃ => ?_⟩
  · have hle := (CScript.sigOpTotal_le true script OP_INVALIDOPCODE).1
    rw [CScript.getSigOpCount_eq, CScript.getSigOpCount_eq, Nat.mod_eq_of_lt hfits,
      Nat.mod_eq_of_lt (by omega)]
    exact hle
  · intro hp2sh hpush hthird
    obtain ⟨hok, stack, rfl⟩ := verifyScript_third hthird
    obtain ⟨data, hlast, hcount⟩ := checks_redeem hpush hok
    have hle := checks_evalScript env stack (fromEnd (evalScript env [] scriptSig).2.stack 1)
    unfold CScript.getSigOpCountP2SH
    rw [hp2sh, hlast]
    exact hle.trans hcount

/-- A redeem script that asks once, and a count that fits. -/
theorem checks_le_getSigOpCount_sample : 1 ≤ samplePubKey.getSigOpCountP2SH sampleSig ∧
      (multisigs 3).getSigOpCount true ≤ (multisigs 3).getSigOpCount false :=
  ⟨(checks_le_getSigOpCount sampleEnv).2.2 sampleSig samplePubKey _ (by decide) isPushOnly_sampleSig
      verifyScript_sample,
    (checks_le_getSigOpCount sampleEnv).2.1 (multisigs 3) (by rw [sigOpTotal_multisigs]; decide)⟩

/-- The counter of the inaccurate scan wraps around first. -/
theorem sigOpCount_wraps :
    ¬ ∀ script : CScript, script.getSigOpCount true ≤ script.getSigOpCount false := by
  intro h
  have := h (multisigs 214748365)
  rw [CScript.getSigOpCount_eq, CScript.getSigOpCount_eq, sigOpTotal_multisigs,
    sigOpTotal_multisigs] at this
  exact absurd this (by decide)

end BitBlocks
