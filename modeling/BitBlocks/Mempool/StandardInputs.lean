import BitBlocks.Lib.Loops
import BitBlocks.Mempool.Policy

/-!
# What `AreInputsStandard` lets pass

An input is standard if its scriptSig leaves as many values as the spent script asks
for, and the redeem script with it, or if its redeem script is of no standard type and
has few signature operations. An input of the latter kind makes the loop return, so the
inputs behind it are not looked at. The answer is that of all inputs, in any order, as
long as there is no such input or all of them are standard.
-/

namespace BitBlocks

open RelayPolicy

/-- `GetOutputFor`; `none` where the assertion fails. -/
def CCoinsView.spentOutput (v : CCoinsView) (txin : CTxIn) : Option CTxOut :=
  if v.haveInput txin.prevout then some (v.getOutputFor txin) else none

/-- `BaseSignatureChecker`, and no flags. -/
def ScriptEnv.unchecked (env : ScriptEnv) : ScriptEnv :=
  { env with flags := 0, checkSig := fun _ _ _ => false }

namespace CTransaction

section

variable (env : ScriptEnv) (mapInputs : CCoinsView)

/-- The loop of `AreInputsStandard`; `none` where an assertion fails. -/
def standardLoop : List CTxIn → Option Bool
  | [] => some true
  | txin :: vin =>
    match mapInputs.spentOutput txin with
    | none => none
    | some prev =>
      match inputStandard env.unchecked txin prev with
      | .inl fRet => some fRet
      | .inr fArgs => if fArgs then standardLoop vin else some false

def areInputsStandard (tx : CTransaction) : Option Bool :=
  -- coinbases don't use vin normally
  if tx.isCoinBase then some true else standardLoop env mapInputs tx.vin

/-- What the loop does at an input, as far as its answer may be true. -/
def outcome (txin : CTxIn) : Outcome :=
  match mapInputs.spentOutput txin with
  | none => .no
  | some prev =>
    match inputStandard env.unchecked txin prev with
    | .inl true => .yes
    | .inl false => .no
    | .inr true => .goOn
    | .inr false => .no

/-- What the scriptSig leaves, and what is on top of it: the redeem script of a script hash. -/
def argsLeft (txin : CTxIn) : List Valtype := (evalScript env.unchecked [] txin.scriptSig).2.stack

def redeemScript (txin : CTxIn) : CScript := (argsLeft env txin).getLastD []

/-- The spent script is of a type, and the scriptSig is run to its end; `n` values are expected. -/
def Spends (txin : CTxIn) (whichType : TxnOutType) (n : Nat) : Prop :=
  ∃ prev vSolutions, mapInputs.spentOutput txin = some prev ∧
    prev.scriptPubKey.solver = some (whichType, vSolutions) ∧
    CScript.scriptSigArgsExpected whichType vSolutions = some n ∧
    (evalScript env.unchecked [] txin.scriptSig).1 = .ok ()

/-- Exactly the expected values are left, those of a standard redeem script included. -/
def ExactArgs (txin : CTxIn) : Prop :=
  (∃ whichType n, Spends env mapInputs txin whichType n ∧ whichType ≠ .scripthash ∧
    (argsLeft env txin).length = n) ∨
  ∃ n whichType2 vSolutions2 tmpExpected, Spends env mapInputs txin .scripthash n ∧
    argsLeft env txin ≠ [] ∧
    (redeemScript env txin).solver = some (whichType2, vSolutions2) ∧
    CScript.scriptSigArgsExpected whichType2 vSolutions2 = some tmpExpected ∧
    (argsLeft env txin).length = n + tmpExpected

/-- The redeem script is of no standard type, and has few signature operations. -/
def FewSigOps (txin : CTxIn) : Prop :=
  (∃ n, Spends env mapInputs txin .scripthash n) ∧ argsLeft env txin ≠ [] ∧
    (redeemScript env txin).solver = none ∧
    (redeemScript env txin).getSigOpCount true ≤ MAX_P2SH_SIGOPS

/-- **An input that is standard.** -/
def StandardInput (txin : CTxIn) : Prop :=
  ExactArgs env mapInputs txin ∨ FewSigOps env mapInputs txin

end

variable {env : ScriptEnv} {mapInputs : CCoinsView} {txin : CTxIn} {prev : CTxOut}

/-! ## One input -/

variable {n : Nat} {vin : List CTxIn}

/-- What the loop does where the spent script is of a type and the scriptSig is run to its end. -/
theorem inputStandard_of_solver {whichType : TxnOutType} {vSolutions : List Valtype}
    (hsolver : prev.scriptPubKey.solver = some (whichType, vSolutions))
    (hargs : CScript.scriptSigArgsExpected whichType vSolutions = some n)
    (hrun : (evalScript env.unchecked [] txin.scriptSig).1 = .ok ()) :
    inputStandard env.unchecked txin prev =
      if whichType = .scripthash then
        if argsLeft env txin = [] then .inl false
        else
          match (redeemScript env txin).solver with
          | some (whichType2, vSolutions2) =>
            match CScript.scriptSigArgsExpected whichType2 vSolutions2 with
            | none => .inl false
            | some tmpExpected => .inr ((argsLeft env txin).length == n + tmpExpected)
          | none => .inl (decide ((redeemScript env txin).getSigOpCount true ≤ MAX_P2SH_SIGOPS))
      else .inr ((argsLeft env txin).length == n) := by
  rw [inputStandard, hsolver]
  dsimp only
  rw [hargs]
  dsimp only
  rw [redeemScript, argsLeft]
  revert hrun
  generalize evalScript env.unchecked [] txin.scriptSig = r
  intro hrun
  obtain ⟨res, s⟩ := r
  obtain rfl : res = .ok () := hrun
  rfl

theorem inputStandard_of_not_spends (hspent : mapInputs.spentOutput txin = some prev)
    (h : ∀ whichType n, ¬ Spends env mapInputs txin whichType n) :
    inputStandard env.unchecked txin prev = .inl false := by
  rw [inputStandard]
  cases hsolver : prev.scriptPubKey.solver with
  | none => rfl
  | some r =>
    obtain ⟨whichType, vSolutions⟩ := r
    dsimp only
    cases hargs : CScript.scriptSigArgsExpected whichType vSolutions with
    | none => rfl
    | some n =>
      dsimp only
      have hrun : (evalScript env.unchecked [] txin.scriptSig).1 ≠ .ok () := fun hrun =>
        h whichType n ⟨prev, vSolutions, hspent, hsolver, hargs, hrun⟩
      revert hrun
      generalize evalScript env.unchecked [] txin.scriptSig = r
      intro hrun
      obtain ⟨res, s⟩ := r
      cases res with
      | error e => rfl
      | ok u => exact absurd rfl hrun

theorem outcome_of_not_spends (h : ∀ whichType n, ¬ Spends env mapInputs txin whichType n) :
    outcome env mapInputs txin = .no := by
  rw [outcome]
  cases hspent : mapInputs.spentOutput txin with
  | none => rfl
  | some prev =>
    dsimp only
    rw [inputStandard_of_not_spends hspent h]

theorem outcome_of_plain {whichType : TxnOutType} (h : Spends env mapInputs txin whichType n)
    (hplain : whichType ≠ .scripthash) :
    outcome env mapInputs txin = if (argsLeft env txin).length = n then .goOn else .no := by
  obtain ⟨prev, vSolutions, hspent, hsolver, hargs, hrun⟩ := h
  rw [outcome, hspent]
  dsimp only
  rw [inputStandard_of_solver hsolver hargs hrun, if_neg hplain]
  by_cases hlen : (argsLeft env txin).length = n
  · rw [if_pos hlen, beq_iff_eq.mpr hlen]
  · rw [if_neg hlen, beq_eq_false_iff_ne.mpr hlen]

theorem outcome_of_scripthash (h : Spends env mapInputs txin .scripthash n) :
    outcome env mapInputs txin =
      if argsLeft env txin = [] then .no
      else
        match (redeemScript env txin).solver with
        | some (whichType2, vSolutions2) =>
          match CScript.scriptSigArgsExpected whichType2 vSolutions2 with
          | none => .no
          | some tmpExpected =>
            if (argsLeft env txin).length = n + tmpExpected then .goOn else .no
        | none =>
          if (redeemScript env txin).getSigOpCount true ≤ MAX_P2SH_SIGOPS then .yes else .no := by
  obtain ⟨prev, vSolutions, hspent, hsolver, hargs, hrun⟩ := h
  rw [outcome, hspent]
  dsimp only
  rw [inputStandard_of_solver hsolver hargs hrun, if_pos rfl]
  by_cases hstack : argsLeft env txin = []
  · rw [if_pos hstack, if_pos hstack]
  · rw [if_neg hstack, if_neg hstack]
    cases (redeemScript env txin).solver with
    | none =>
      dsimp only
      by_cases hfew : (redeemScript env txin).getSigOpCount true ≤ MAX_P2SH_SIGOPS
      · rw [if_pos hfew, decide_eq_true hfew]
      · rw [if_neg hfew, decide_eq_false hfew]
    | some r =>
      obtain ⟨whichType2, vSolutions2⟩ := r
      dsimp only
      cases CScript.scriptSigArgsExpected whichType2 vSolutions2 with
      | none => rfl
      | some tmpExpected =>
        dsimp only
        by_cases hlen : (argsLeft env txin).length = n + tmpExpected
        · rw [if_pos hlen, beq_iff_eq.mpr hlen]
        · rw [if_neg hlen, beq_eq_false_iff_ne.mpr hlen]

/-- **The loop returns true at an input** just when its redeem script is let off. -/
theorem outcome_eq_yes_iff : outcome env mapInputs txin = .yes ↔ FewSigOps env mapInputs txin := by
  constructor
  · intro hyes
    by_cases h : ∃ whichType n, Spends env mapInputs txin whichType n
    · obtain ⟨whichType, n, h⟩ := h
      by_cases hplain : whichType = .scripthash
      · subst hplain
        rw [outcome_of_scripthash h] at hyes
        split at hyes
        · exact absurd hyes (by decide)
        rename_i hstack
        split at hyes
        · split at hyes
          · exact absurd hyes (by decide)
          · split at hyes
            · exact absurd hyes (by decide)
            · exact absurd hyes (by decide)
        · rename_i hsolver
          split at hyes
          · exact ⟨⟨n, h⟩, hstack, hsolver, ‹_›⟩
          · exact absurd hyes (by decide)
      · rw [outcome_of_plain h hplain] at hyes
        split at hyes
        · exact absurd hyes (by decide)
        · exact absurd hyes (by decide)
    · rw [outcome_of_not_spends fun whichType n hs => h ⟨whichType, n, hs⟩] at hyes
      exact absurd hyes (by decide)
  · rintro ⟨⟨n, h⟩, hstack, hsolver, hfew⟩
    rw [outcome_of_scripthash h, if_neg hstack, hsolver]
    exact if_pos hfew

/-- **It goes on** just when the arguments are as expected. -/
theorem outcome_eq_goOn_iff :
    outcome env mapInputs txin = .goOn ↔ ExactArgs env mapInputs txin := by
  constructor
  · intro hgo
    by_cases h : ∃ whichType n, Spends env mapInputs txin whichType n
    · obtain ⟨whichType, n, h⟩ := h
      by_cases hplain : whichType = .scripthash
      · subst hplain
        rw [outcome_of_scripthash h] at hgo
        split at hgo
        · exact absurd hgo (by decide)
        rename_i hstack
        split at hgo
        · rename_i whichType2 vSolutions2 hsolver
          split at hgo
          · exact absurd hgo (by decide)
          · rename_i tmpExpected hargs
            split at hgo
            · exact Or.inr ⟨n, whichType2, vSolutions2, tmpExpected, h, hstack, hsolver, hargs, ‹_›⟩
            · exact absurd hgo (by decide)
        · split at hgo
          · exact absurd hgo (by decide)
          · exact absurd hgo (by decide)
      · rw [outcome_of_plain h hplain] at hgo
        split at hgo
        · exact Or.inl ⟨whichType, n, h, hplain, ‹_›⟩
        · exact absurd hgo (by decide)
    · rw [outcome_of_not_spends fun whichType n hs => h ⟨whichType, n, hs⟩] at hgo
      exact absurd hgo (by decide)
  · rintro (⟨whichType, n, h, hplain, hlen⟩ | ⟨n, whichType2, vSolutions2, m, h, hstack, hsolver,
      hargs, hlen⟩)
    · rw [outcome_of_plain h hplain, if_pos hlen]
    · rw [outcome_of_scripthash h, if_neg hstack, hsolver]
      dsimp only
      rw [hargs]
      exact if_pos hlen

theorem outcome_ne_no_iff :
    outcome env mapInputs txin ≠ .no ↔ StandardInput env mapInputs txin := by
  rw [StandardInput, ← outcome_eq_goOn_iff, ← outcome_eq_yes_iff]
  cases outcome env mapInputs txin <;> decide

/-! ## All inputs -/

theorem standardLoop_eq_true (vin : List CTxIn) : standardLoop env mapInputs vin = some true ↔
      Outcome.verdict (vin.map (outcome env mapInputs)) = true := by
  induction vin with
  | nil => exact iff_of_true rfl rfl
  | cons txin vin ih =>
    rw [standardLoop, List.map_cons, outcome]
    cases mapInputs.spentOutput txin with
    | none => exact iff_of_false (by simp) Bool.false_ne_true
    | some prev =>
      dsimp only
      rcases inputStandard env.unchecked txin prev with fRet | fArgs
      · cases fRet with
        | true => exact iff_of_true rfl rfl
        | false => exact iff_of_false (by simp) Bool.false_ne_true
      · cases fArgs with
        | true => exact ih
        | false => exact iff_of_false (by simp) Bool.false_ne_true

theorem no_notMem_iff : .no ∉ vin.map (outcome env mapInputs) ↔
    ∀ txin ∈ vin, StandardInput env mapInputs txin := by
  simp only [List.mem_map, not_exists, not_and, ← outcome_ne_no_iff, ne_eq]

theorem yes_notMem_iff : .yes ∉ vin.map (outcome env mapInputs) ↔
    ∀ txin ∈ vin, ¬ FewSigOps env mapInputs txin := by
  simp only [List.mem_map, not_exists, not_and, ← outcome_eq_yes_iff]

theorem isCoinBase_perm (tx : CTransaction) (h : vin.Perm tx.vin) :
    CTransaction.isCoinBase { tx with vin } = tx.isCoinBase := by
  by_cases hone : tx.vin.length = 1
  · obtain ⟨txin, hvin⟩ := List.length_eq_one_iff.mp hone
    rw [hvin, List.perm_singleton] at h
    rw [isCoinBase, isCoinBase, hvin, h]
  · have hmany (vin : List CTxIn) (hlen : vin.length ≠ 1) :
        CTransaction.isCoinBase { tx with vin } = false := by
      rw [isCoinBase]
      split
      · rename_i txin hvin
        exact absurd (congrArg List.length hvin) hlen
      · rfl
    have hsame := hmany tx.vin hone
    exact (hmany vin (h.length_eq ▸ hone)).trans hsame.symm

/-- **The answer is that of all inputs, in any order,** exactly as long as the redeem script of none
is let off for its few signature operations, or all inputs are standard. -/
theorem areInputsStandard_iff (env : ScriptEnv) (mapInputs : CCoinsView) (tx : CTransaction) :
    ((tx.areInputsStandard env mapInputs = some true ↔
        tx.isCoinBase = true ∨ ∀ txin ∈ tx.vin, StandardInput env mapInputs txin) ∧
      ∀ vin : List CTxIn, vin.Perm tx.vin →
        (CTransaction.areInputsStandard env mapInputs { tx with vin } = some true ↔
          tx.areInputsStandard env mapInputs = some true)) ↔
      (tx.isCoinBase = true ∨ (∀ txin ∈ tx.vin, StandardInput env mapInputs txin) ∨
        ∀ txin ∈ tx.vin, ¬ FewSigOps env mapInputs txin) := by
  by_cases hcoinbase : tx.isCoinBase = true
  · have htrue : tx.areInputsStandard env mapInputs = some true := if_pos hcoinbase
    refine iff_of_true ⟨iff_of_true htrue (Or.inl hcoinbase), fun vin h => ?_⟩ (Or.inl hcoinbase)
    exact iff_of_true (if_pos ((tx.isCoinBase_perm h).trans hcoinbase)) htrue
  · have hloop (vin : List CTxIn) (h : vin.Perm tx.vin) :
        CTransaction.areInputsStandard env mapInputs { tx with vin } = some true ↔
          Outcome.verdict (vin.map (outcome env mapInputs)) = true := by
      rw [areInputsStandard, tx.isCoinBase_perm h, if_neg hcoinbase, standardLoop_eq_true]
    have hsame := hloop tx.vin (List.Perm.refl _)
    rw [or_iff_right hcoinbase, or_iff_right hcoinbase, ← no_notMem_iff, ← yes_notMem_iff,
      ← Outcome.verdict_faithful_iff]
    refine and_congr (iff_congr hsame Iff.rfl)
      (forall_congr' fun vin => imp_congr_right fun h => ?_)
    exact iff_congr (hloop vin h) hsame

/-! ## An input that hides another one -/

/-- The redeem script `OP_1`, as a scriptSig pushes it. -/
def pushOne : CScript := [1, OP_1]

/-- An output to a script hash, and one whose script is of no standard type. -/
def oddCoins : CCoins where
  nHeight := 1
  vout := [⟨1, OP_HASH160 :: 0x14 :: List.replicate 20 0 ++ [OP_EQUAL], -10⟩, ⟨1, [OP_1], -10⟩]

def oddView : CCoinsView := fun txid => if txid = 7 then some oddCoins else none

def redeemIn : CTxIn := ⟨⟨7, 0⟩, pushOne, 0⟩

def oddIn : CTxIn := ⟨⟨7, 1⟩, [], 0⟩

def oddSpend : CTransaction := { hash := 8, vin := [redeemIn, oddIn], vout := [] }

theorem evalScript_pushOne : evalScript (ScriptEnv.idle 0).unchecked [] pushOne =
    (.ok (), { stack := [[OP_1]], pbegincodehash := pushOne }) :=
  evalScript_of_evalLoop (by decide) ((evalLoop_round (by decide) rfl).trans (evalLoop_nil _ _)) rfl

theorem fewSigOps_redeemIn : FewSigOps (.idle 0) oddView redeemIn := by
  have hspends : Spends (.idle 0) oddView redeemIn .scripthash 1 :=
    ⟨_, _, rfl, rfl, rfl, congrArg Prod.fst evalScript_pushOne⟩
  have hleft : argsLeft (.idle 0) redeemIn = [[OP_1]] :=
    congrArg (fun r => r.2.stack) evalScript_pushOne
  have hredeem : redeemScript (.idle 0) redeemIn = [OP_1] := by
    rw [redeemScript, hleft]
    rfl
  refine ⟨⟨1, hspends⟩, ?_, ?_, ?_⟩
  · rw [hleft]
    exact List.cons_ne_nil _ _
  · rw [hredeem]
    rfl
  · rw [hredeem, CScript.getSigOpCount_eq, CScript.sigOpTotal_op rfl, CScript.sigOpTotal_stop rfl]
    decide

theorem outcome_oddIn : outcome (.idle 0) oddView oddIn = .no := by
  refine outcome_of_not_spends fun whichType n h => ?_
  obtain ⟨prev, vSolutions, hspent, hsolver, -⟩ := h
  obtain rfl := Option.some.inj hspent
  have hnone : CScript.solver [OP_1] = none := rfl
  exact absurd (hnone.symm.trans hsolver) (by simp)

/-- **An input that is not standard passes behind one** with an odd redeem script, and not in front
of it. -/
theorem odd_input_is_hidden : oddSpend.areInputsStandard (.idle 0) oddView = some true ∧
      ¬ StandardInput (.idle 0) oddView oddIn ∧
      CTransaction.areInputsStandard (.idle 0) oddView { oddSpend with vin := [oddIn, redeemIn] } ≠
        some true := by
  have hyes := outcome_eq_yes_iff.mpr fewSigOps_redeemIn
  refine ⟨?_, fun h => outcome_ne_no_iff.mpr h outcome_oddIn, fun h => ?_⟩
  · rw [areInputsStandard, if_neg (by decide), standardLoop_eq_true, oddSpend, List.map_cons, hyes]
    rfl
  · rw [areInputsStandard, if_neg (by decide), standardLoop_eq_true, List.map_cons,
      outcome_oddIn] at h
    exact Bool.false_ne_true h

end CTransaction

end BitBlocks
