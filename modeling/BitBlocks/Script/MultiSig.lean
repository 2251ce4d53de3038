import BitBlocks.Lib.Matching
import BitBlocks.Script.Instructions

/-!
# What `OP_CHECKMULTISIG` finds

The arguments lie on the stack as the dummy element, the signatures, their number, the keys,
their number. The loop takes both lists from the top and gives every signature the first key
that is left and verifies it; when more signatures are left than keys it gives up. So it
succeeds iff the signatures have keys that verify them in the same order, and what it leaves
on the stack is what lay below the dummy element, and the verdict.
-/

namespace BitBlocks

open Hoare Eval Matching

/-! ## The stack from its top -/

section

variable {stack : List Valtype} {x : Valtype} {xs : List Valtype} {i : Nat}

theorem fromEnd_of_prefix (h : (x :: xs) <+: stack.reverse.drop i) :
    fromEnd stack (i + 1) = x ∧ 1 ≤ i + 1 ∧ i + 1 ≤ stack.length ∧
      xs <+: stack.reverse.drop (i + 1) := by
  obtain ⟨rest, hrest⟩ := h
  have hget : stack.reverse[i]? = some x := by
    rw [← Nat.add_zero i, ← List.getElem?_drop, ← hrest]
    rfl
  have hi : i < stack.reverse.length := (List.getElem?_eq_some_iff.mp hget).1
  have hlength : i < stack.length := by rwa [List.length_reverse] at hi
  rw [List.getElem?_reverse hlength] at hget
  refine ⟨?_, Nat.le_add_left 1 i, hlength, ⟨rest, ?_⟩⟩
  · have hindex : stack.length - (i + 1) = stack.length - 1 - i := by omega
    rw [fromEnd, List.getD_eq_getElem?_getD, hindex, hget, Option.getD_some]
  · rw [← List.drop_drop, ← hrest]
    rfl

end

/-! ## The parts of the instruction -/

section

variable {env : ScriptEnv} {s : EvalState} {E : Stop → EvalState → Prop}

variable {Q : Unit → EvalState → Prop} {scriptCode : CScript}

theorem wp_failIf_of_not {c : Prop} [Decidable c] {e : ScriptError} (hc : ¬ c) (h : Q () s) :
    Wp (failIf c e) Q E s :=
  wp_ite.mpr ⟨fun hc' => absurd hc' hc, fun _ => h⟩

theorem wp_needs_of_le {k : Nat} (hk : k ≤ s.stack.length) (h : Q () s) : Wp (needs k) Q E s :=
  wp_bind.mpr (wp_failIf_of_not (Nat.not_lt.mpr hk) h)

theorem wp_scriptNum_ok {Q : Int → EvalState → Prop} {vch : Valtype} {m : Int}
    (hm : CScriptNum.ofVch vch (env.flag SCRIPT_VERIFY_MINIMALDATA) = .ok m) (h : Q m s) :
    Wp (scriptNum env vch) Q E s := by
  unfold scriptNum
  rw [hm]
  exact h

theorem wp_checkSig_valid {Q : Bool → EvalState → Prop} {vchSig vchPubKey : Valtype}
    (hsig : checkSignatureEncoding vchSig env.flags = none)
    (hkey : checkPubKeyEncoding vchPubKey env.flags = none)
    (h : Q (env.checkSig vchSig vchPubKey scriptCode) { s with checks := s.checks + 1 }) :
    Wp (checkSig env vchSig vchPubKey scriptCode) Q E s := by
  unfold checkSig
  rw [hsig, hkey]
  exact h

theorem wp_popMany_take : ∀ {k : Nat} {s : EvalState}, k ≤ s.stack.length →
      Q () { s with stack := s.stack.take (s.stack.length - k) } → Wp (popMany k) Q E s
  | 0, s, _, h => by
    have hall : s.stack.take (s.stack.length - 0) = s.stack := List.take_length
    rw [hall] at h
    exact h
  | k + 1, s, hk, h => by
    refine wp_bind.mpr (wp_popstack (by omega) ?_)
    refine wp_popMany_take (by rw [List.length_dropLast]; omega) ?_
    have htake : s.stack.dropLast.take (s.stack.dropLast.length - k) =
        s.stack.take (s.stack.length - (k + 1)) := by
      rw [List.dropLast_eq_take, List.take_take, List.length_take]
      congr 1
      omega
    rw [htake]
    exact h

/-- The signatures are deleted from the script code, from the last on. -/
def dropSignatures (scriptCode : CScript) (sigs : List Valtype) : CScript :=
  sigs.foldl (fun scriptCode vchSig => (scriptCode.findAndDelete (CScript.push vchSig)).2)
    scriptCode

theorem wp_dropSignatures {Q : CScript → EvalState → Prop} {sigs : List Valtype} {i : Nat}
    (hsigs : sigs <+: s.stack.reverse.drop i) {n : Nat} (hn : n ≤ sigs.length)
    (h : Q (dropSignatures scriptCode (sigs.take n)) s) :
    Wp ((List.range n).foldlM (fun scriptCode k => do
      let vchSig ← stacktop (i + 1 + k)
      pure (CScript.findAndDelete scriptCode (CScript.push vchSig)).2) scriptCode) Q E s := by
  induction n generalizing Q with
  | zero => exact h
  | succ n ih =>
    rw [List.range_succ, List.foldlM_append, wp_bind]
    refine ih (by omega) ?_
    have hn' : n < sigs.length := hn
    have hnext : (sigs[n] :: sigs.drop (n + 1)) <+: s.stack.reverse.drop (i + n) := by
      rw [← List.drop_eq_getElem_cons hn', ← List.drop_drop]
      exact hsigs.drop n
    obtain ⟨htop, hpos, hle, -⟩ := fromEnd_of_prefix hnext
    have hindex : i + 1 + n = i + n + 1 := by omega
    rw [List.foldlM_cons, hindex]
    refine wp_bind.mpr (wp_bind.mpr (wp_stacktop ⟨hpos, hle⟩ ?_))
    rw [htop]
    rw [dropSignatures, ← List.take_concat_get' sigs n hn', List.foldl_append] at h
    exact h

/--
**The loop is greedy.** Of `sigs` and `keys`, both from the top, every signature gets the first
key left that verifies it.
-/
theorem wp_multisigLoop_greedy {Q : Bool → EvalState → Prop} :
    ∀ (keys : List Valtype) {sigs : List Valtype} {i j : Nat} {s : EvalState},
      sigs.length ≤ keys.length → sigs <+: s.stack.reverse.drop i →
      keys <+: s.stack.reverse.drop j →
      (∀ vchSig ∈ sigs, checkSignatureEncoding vchSig env.flags = none) →
      (∀ vchPubKey ∈ keys, checkPubKeyEncoding vchPubKey env.flags = none) →
      (∀ c, Q (greedy (fun vchSig vchPubKey => env.checkSig vchSig vchPubKey scriptCode) sigs keys)
        { s with checks := c }) →
      Wp (multisigLoop env scriptCode (i + 1) (j + 1) sigs.length keys.length) Q E s := by
  intro keys
  induction keys with
  | nil =>
    intro sigs i j s hle _ _ _ _ h
    have hnil : sigs = [] := List.eq_nil_of_length_eq_zero (Nat.le_zero.mp hle)
    subst hnil
    rw [multisigLoop]
    exact wp_ite.mpr ⟨fun hpos => absurd hpos (by decide), fun _ => h s.checks⟩
  | cons vchPubKey keys ih =>
    intro sigs i j s hle hsigs hkeys hsigEnc hkeyEnc h
    cases sigs with
    | nil =>
      rw [multisigLoop]
      exact wp_ite.mpr ⟨fun hpos => absurd hpos (by simp), fun _ => h s.checks⟩
    | cons vchSig sigs =>
      obtain ⟨hsig, hsigPos, hsigLe, hsigs'⟩ := fromEnd_of_prefix hsigs
      obtain ⟨hkey, hkeyPos, hkeyLe, hkeys'⟩ := fromEnd_of_prefix hkeys
      have hkeyEnc' := fun k hk => hkeyEnc k (List.mem_cons_of_mem vchPubKey hk)
      have hsigEnc' := fun v hv => hsigEnc v (List.mem_cons_of_mem vchSig hv)
      have hkeysLeft : ((vchPubKey :: keys).length : Int) - 1 = keys.length := by
        rw [List.length_cons]
        omega
      have hsigsLeft : ((vchSig :: sigs).length : Int) - 1 = sigs.length := by
        rw [List.length_cons]
        omega
      rw [List.length_cons, List.length_cons] at hle
      rw [multisigLoop]
      refine wp_ite.mpr ⟨fun _ => ?_, fun hn => absurd (by rw [List.length_cons]; omega) hn⟩
      refine wp_bind.mpr (wp_stacktop ⟨hsigPos, hsigLe⟩ ?_)
      refine wp_bind.mpr (wp_stacktop ⟨hkeyPos, hkeyLe⟩ ?_)
      rw [hsig, hkey]
      refine wp_bind.mpr (wp_checkSig_valid (hsigEnc _ List.mem_cons_self)
        (hkeyEnc _ List.mem_cons_self) ?_)
      rw [hkeysLeft, hsigsLeft]
      cases hok : env.checkSig vchSig vchPubKey scriptCode with
      | true =>
        simp only [greedy, hok, if_true] at h
        refine wp_ite.mpr ⟨fun hmore => absurd hmore (by simp; omega), fun _ => ?_⟩
        exact ih (by omega) hsigs' hkeys' hsigEnc' hkeyEnc' fun c => h c
      | false =>
        simp only [greedy, hok, if_neg Bool.false_ne_true] at h
        refine wp_ite.mpr ⟨fun hmore => ?_, fun hmore => ?_⟩
        · -- more signatures are left than keys
          have hlt : keys.length < (vchSig :: sigs).length := by
            rw [List.length_cons] at hmore ⊢
            simp at hmore
            omega
          have hgreedy := h (s.checks + 1)
          rw [greedy_of_length_lt hlt] at hgreedy
          exact hgreedy
        · have hle' : (vchSig :: sigs).length ≤ keys.length := by
            rw [List.length_cons] at hmore ⊢
            simp at hmore
            omega
          exact ih hle' hsigs hkeys' hsigEnc hkeyEnc' fun c => h c

end

/-! ## The instruction -/

/-- The arguments as they lie on the stack, the last at its top. -/
def multisigArguments (dummy : Valtype) (sigs : List Valtype) (vchSigs : Valtype)
    (keys : List Valtype) (vchKeys : Valtype) : List Valtype :=
  dummy :: sigs ++ vchSigs :: keys ++ [vchKeys]

/-- The flags that ask for a check of encodings. -/
def encodingFlags : UInt32 :=
  SCRIPT_VERIFY_DERSIG ||| SCRIPT_VERIFY_LOW_S ||| SCRIPT_VERIFY_STRICTENC

/-- Encodings are not checked, or all of them are valid. -/
def EncodingsPass (env : ScriptEnv) (sigs keys : List Valtype) : Prop :=
  env.flag encodingFlags = false ∨
  (∀ vchSig ∈ sigs, checkSignatureEncoding vchSig env.flags = none) ∧
    ∀ vchPubKey ∈ keys, checkPubKeyEncoding vchPubKey env.flags = none

theorem EncodingsPass.valid {env : ScriptEnv} {sigs keys : List Valtype}
    (h : EncodingsPass env sigs keys) :
    (∀ vchSig ∈ sigs, checkSignatureEncoding vchSig env.flags = none) ∧
      ∀ vchPubKey ∈ keys, checkPubKeyEncoding vchPubKey env.flags = none := by
  rcases h with hoff | h
  · have hall : env.flags &&& encodingFlags = 0 := by
      unfold ScriptEnv.flag at hoff
      rwa [bne_eq_false_iff_eq] at hoff
    have hone : ∀ f : UInt32, encodingFlags &&& f = f → env.flags &&& f = 0 := by
      intro f hf
      rw [← hf, ← UInt32.and_assoc, hall, UInt32.zero_and]
    have hlow := hone SCRIPT_VERIFY_LOW_S (by decide)
    have hstrict := hone SCRIPT_VERIFY_STRICTENC (by decide)
    unfold encodingFlags at hall
    constructor
    · intro vchSig _
      simp [checkSignatureEncoding, hall, hlow, hstrict]
    · intro vchPubKey _
      simp [checkPubKeyEncoding, hstrict]
  · exact h

theorem getint_of_le {n : Nat} (h : n ≤ 20) : CScriptNum.getint n = n := by
  unfold CScriptNum.getint
  rw [if_neg (by omega), if_neg (by omega)]

theorem lt_getint {n m : Nat} (h : m < n) (hm : m ≤ 20) : (m : Int) < CScriptNum.getint n := by
  unfold CScriptNum.getint
  split
  · omega
  · rw [if_neg (by omega)]
    omega

section

variable {env : ScriptEnv} {s : EvalState} {below sigs keys : List Valtype}
  {dummy vchSigs vchKeys : Valtype}

/-- Where the arguments are, counted from the top. -/
theorem multisigArguments_reverse
    (hstack : s.stack = below ++ multisigArguments dummy sigs vchSigs keys vchKeys) :
    [vchKeys] <+: s.stack.reverse.drop 0 ∧ keys.reverse <+: s.stack.reverse.drop 1 ∧
      [vchSigs] <+: s.stack.reverse.drop (1 + keys.length) ∧
      sigs.reverse <+: s.stack.reverse.drop (2 + keys.length) ∧
      s.stack.length = below.length + 1 + sigs.length + 1 + keys.length + 1 := by
  have hreverse : s.stack.reverse =
      [vchKeys] ++ (keys.reverse ++ ([vchSigs] ++ (sigs.reverse ++ (dummy :: below.reverse)))) := by
    rw [hstack]
    simp [multisigArguments]
  refine ⟨?_, ?_, ?_, ?_, ?_⟩
  · rw [List.drop_zero, hreverse]
    exact List.prefix_append _ _
  · rw [hreverse]
    exact List.prefix_append _ _
  · have hdrop : s.stack.reverse.drop (1 + keys.length) =
        [vchSigs] ++ (sigs.reverse ++ (dummy :: below.reverse)) := by
      rw [hreverse, ← List.drop_drop]
      exact List.drop_left' List.length_reverse
    rw [hdrop]
    exact List.prefix_append _ _
  · have hdrop : s.stack.reverse.drop (2 + keys.length) =
        sigs.reverse ++ (dummy :: below.reverse) := by
      have hindex : 2 + keys.length = 1 + (keys.length + 1) := by omega
      rw [hreverse, hindex, ← List.drop_drop, ← List.drop_drop]
      exact congrArg (List.drop 1) (List.drop_left' List.length_reverse)
    rw [hdrop]
    exact List.prefix_append _ _
  · rw [hstack]
    simp [multisigArguments]
    omega

/-- The key a signature is checked with, on the script code without the signatures. -/
def verifiedBy (env : ScriptEnv) (s : EvalState) (sigs : List Valtype)
    (vchSig vchPubKey : Valtype) :
    Bool :=
  env.checkSig vchSig vchPubKey (dropSignatures s.pbegincodehash sigs.reverse)

/-- With no more signatures than keys, the instruction ends and pushes what the loop found. -/
theorem wp_verifyMultiSig_matches {E : Stop → EvalState → Prop}
    (hstack : s.stack = below ++ multisigArguments dummy sigs vchSigs keys vchKeys)
    (hle : sigs.length ≤ keys.length)
    (hdummy : env.flag SCRIPT_VERIFY_NULLDUMMY = true → dummy = [])
    (henc : EncodingsPass env sigs keys) :
    Wp (verifyMultiSig env OP_CHECKMULTISIG (2 + keys.length + 1 + sigs.length)
        (2 + keys.length + 1) 2 sigs.length keys.length)
      (fun _ s' => ∃ c, s' = { s with
        stack := below ++
          [if greedy (verifiedBy env s sigs) sigs.reverse keys.reverse then vchTrue else vchFalse]
        checks := c }) E s := by
  obtain ⟨-, hkeys, -, hsigs, hlength⟩ := multisigArguments_reverse hstack
  obtain ⟨hsigEnc, hkeyEnc⟩ := henc.valid
  have hsigsLen : sigs.length = sigs.reverse.length := List.length_reverse.symm
  have hkeysLen : keys.length = keys.reverse.length := List.length_reverse.symm
  refine wp_bind.mpr (wp_get.mpr (wp_bind.mpr ?_))
  refine wp_dropSignatures hsigs (by rw [List.length_reverse, Int.toNat_natCast]) ?_
  rw [List.take_of_length_le (by rw [List.length_reverse, Int.toNat_natCast])]
  rw [wp_bind, hsigsLen, hkeysLen]
  refine wp_multisigLoop_greedy keys.reverse
    (by rw [List.length_reverse, List.length_reverse]; exact hle)
    (by rw [List.length_reverse]; exact hsigs) hkeys
    (fun v hv => hsigEnc v (List.mem_reverse.mp hv))
    (fun v hv => hkeyEnc v (List.mem_reverse.mp hv)) fun c => ?_
  have hpop : 2 + keys.reverse.length + 1 + sigs.reverse.length - 1 ≤ s.stack.length := by
    rw [List.length_reverse, List.length_reverse]
    omega
  refine wp_bind.mpr (wp_popMany_take hpop ?_)
  have hrest :
      s.stack.take (s.stack.length - (2 + keys.reverse.length + 1 + sigs.reverse.length - 1)) =
      below ++ [dummy] := by
    have hcount : s.stack.length - (2 + keys.reverse.length + 1 + sigs.reverse.length - 1) =
        (below ++ [dummy]).length := by
      rw [List.length_reverse, List.length_reverse, List.length_append, List.length_singleton]
      omega
    have hsplit : s.stack = (below ++ [dummy]) ++ (sigs ++ vchSigs :: keys ++ [vchKeys]) := by
      rw [hstack]
      simp [multisigArguments]
    rw [hcount, hsplit]
    exact List.take_left
  rw [hrest]
  have hone : 1 ≤ (below ++ [dummy]).length := by
    rw [List.length_append, List.length_singleton]
    omega
  refine wp_bind.mpr (wp_needs_of_le hone (wp_bind.mpr ?_))
  have htop : fromEnd (below ++ [dummy]) 1 = dummy := by
    simp [fromEnd]
  have hnull : ∀ {Q : Unit → EvalState → Prop} {s' : EvalState}, s'.stack = below ++ [dummy] →
      Q () s' → Wp (nullDummy env) Q E s' := by
    intro Q s' hs' h
    refine wp_ite.mpr ⟨fun hflag =>
      wp_bind.mpr (wp_stacktop ⟨by decide, by rw [hs']; exact hone⟩ ?_),
      fun _ => h⟩
    rw [hs', htop, hdummy hflag]
    exact wp_failIf_of_not (by decide) h
  refine hnull rfl (wp_bind.mpr (wp_popstack hone ?_))
  refine wp_bind.mpr
    (wp_pushBack (wp_ite.mpr ⟨fun hverify => absurd hverify (by decide), fun _ => ?_⟩))
  refine ⟨c, ?_⟩
  simp only [List.dropLast_concat]
  rfl

/-- Up to the comparison of the counts. -/
theorem wp_opCheckMultiSig_counts {Q : Unit → EvalState → Prop} {E : Stop → EvalState → Prop}
    (hstack : s.stack = below ++ multisigArguments dummy sigs vchSigs keys vchKeys)
    (hkeys : CScriptNum.ofVch vchKeys (env.flag SCRIPT_VERIFY_MINIMALDATA) = .ok keys.length)
    (hsigs : CScriptNum.ofVch vchSigs (env.flag SCRIPT_VERIFY_MINIMALDATA) = .ok sigs.length)
    (hmax : keys.length ≤ 20) (hops : s.nOpCount + keys.length ≤ 201)
    (hmore : keys.length < sigs.length →
      E (.error .SIG_COUNT) { s with nOpCount := s.nOpCount + keys.length })
    (hle : sigs.length ≤ keys.length →
      Wp (verifyMultiSig env OP_CHECKMULTISIG (2 + keys.length + 1 + sigs.length)
        (2 + keys.length + 1) 2 sigs.length keys.length) Q E
        { s with nOpCount := s.nOpCount + keys.length }) :
    Wp (opCheckMultiSig env OP_CHECKMULTISIG) Q E s := by
  obtain ⟨htop, -, hmid, -, hlength⟩ := multisigArguments_reverse hstack
  obtain ⟨hvchKeys, hpos, htopLe, -⟩ := fromEnd_of_prefix htop
  obtain ⟨hvchSigs, hmidPos, hmidLe, -⟩ := fromEnd_of_prefix hmid
  have hindex : 2 + keys.length = 1 + keys.length + 1 := by omega
  refine wp_bind.mpr (wp_needs_of_le htopLe (wp_bind.mpr (wp_stacktop ⟨hpos, htopLe⟩ ?_)))
  rw [hvchKeys]
  refine wp_bind.mpr (wp_scriptNum_ok hkeys ?_)
  rw [getint_of_le hmax]
  refine wp_bind.mpr (wp_failIf_of_not (by omega) ?_)
  refine wp_bind.mpr (wp_modify.mpr (wp_bind.mpr (wp_get.mpr (wp_bind.mpr ?_))))
  refine wp_failIf_of_not (Int.not_lt.mpr hops) ?_
  rw [Int.toNat_natCast]
  refine wp_bind.mpr (wp_needs_of_le (by rw [hindex]; exact hmidLe) ?_)
  refine wp_bind.mpr (wp_stacktop (by rw [hindex]; exact ⟨hmidPos, hmidLe⟩) ?_)
  rw [hindex]
  rw [hvchSigs, ← hindex]
  refine wp_bind.mpr (wp_scriptNum_ok hsigs ?_)
  rcases Nat.lt_or_ge keys.length sigs.length with hlt | hge
  · refine wp_bind.mpr (wp_ite.mpr ⟨fun _ => hmore hlt, fun hn => absurd ?_ hn⟩)
    exact Or.inr (lt_getint hlt hmax)
  · rw [getint_of_le (Nat.le_trans hge hmax)]
    refine wp_bind.mpr (wp_failIf_of_not (by omega) ?_)
    rw [Int.toNat_natCast]
    refine wp_bind.mpr (wp_needs_of_le ?_ (hle hge))
    change _ ≤ s.stack.length
    omega

/-- With no more signatures than keys, it ends with the verdict. -/
theorem opCheckMultiSig_matches
    (hstack : s.stack = below ++ multisigArguments dummy sigs vchSigs keys vchKeys)
    (hkeys : CScriptNum.ofVch vchKeys (env.flag SCRIPT_VERIFY_MINIMALDATA) = .ok keys.length)
    (hsigs : CScriptNum.ofVch vchSigs (env.flag SCRIPT_VERIFY_MINIMALDATA) = .ok sigs.length)
    (hmax : keys.length ≤ 20) (hops : s.nOpCount + keys.length ≤ 201)
    (hdummy : env.flag SCRIPT_VERIFY_NULLDUMMY = true → dummy = [])
    (henc : EncodingsPass env sigs keys) (hle : sigs.length ≤ keys.length) :
    ∃ (fSuccess : Bool) (c : Nat),
      exec (opCheckMultiSig env OP_CHECKMULTISIG) s = (.ok (), { s with
        stack := below ++ [if fSuccess then vchTrue else vchFalse]
        nOpCount := s.nOpCount + keys.length
        checks := c }) ∧
      (fSuccess = true ↔ Assigned (verifiedBy env s sigs) sigs keys) := by
  have hwp : Wp (opCheckMultiSig env OP_CHECKMULTISIG) (fun _ s' => ∃ c, s' = { s with
      stack := below ++
        [if greedy (verifiedBy env s sigs) sigs.reverse keys.reverse then vchTrue else vchFalse]
      nOpCount := s.nOpCount + keys.length
      checks := c }) (fun _ _ => False) s :=
    wp_opCheckMultiSig_counts hstack hkeys hsigs hmax hops
      (fun hlt => absurd hle (Nat.not_le.mpr hlt))
      fun _ => wp_verifyMultiSig_matches hstack hle hdummy henc
  obtain ⟨_, s', hexec, c, rfl⟩ := hwp.exists_exec
  exact ⟨_, c, hexec, greedy_iff.trans assigned_reverse⟩

/--
**`OP_CHECKMULTISIG` finds a matching whenever there is one.** With at most 20 keys, encodings
that pass and a dummy element that does, it ends, and leaves the elements below the dummy
element and the verdict, which is true iff every signature has a key of its own that verifies
it, in the same order. With more signatures than keys there is none, and it fails.
-/
theorem opCheckMultiSig_iff
    (hstack : s.stack = below ++ multisigArguments dummy sigs vchSigs keys vchKeys)
    (hkeys : CScriptNum.ofVch vchKeys (env.flag SCRIPT_VERIFY_MINIMALDATA) = .ok keys.length)
    (hsigs : CScriptNum.ofVch vchSigs (env.flag SCRIPT_VERIFY_MINIMALDATA) = .ok sigs.length)
    (hmax : keys.length ≤ 20) (hops : s.nOpCount + keys.length ≤ 201)
    (hdummy : env.flag SCRIPT_VERIFY_NULLDUMMY = true → dummy = [])
    (henc : EncodingsPass env sigs keys) :
    (sigs.length ≤ keys.length → ∃ (fSuccess : Bool) (c : Nat),
      exec (opCheckMultiSig env OP_CHECKMULTISIG) s = (.ok (), { s with
        stack := below ++ [if fSuccess then vchTrue else vchFalse]
        nOpCount := s.nOpCount + keys.length
        checks := c }) ∧
      (fSuccess = true ↔ Assigned (verifiedBy env s sigs) sigs keys)) ∧
    (keys.length < sigs.length → exec (opCheckMultiSig env OP_CHECKMULTISIG) s =
      (.error (.error .SIG_COUNT), { s with nOpCount := s.nOpCount + keys.length }) ∧
      ¬ Assigned (verifiedBy env s sigs) sigs keys) := by
  constructor
  · exact opCheckMultiSig_matches hstack hkeys hsigs hmax hops hdummy henc
  · intro hlt
    have hwp : Wp (opCheckMultiSig env OP_CHECKMULTISIG) (fun _ _ => False)
        (fun e s' => e = .error .SIG_COUNT ∧ s' = { s with nOpCount := s.nOpCount + keys.length })
        s :=
      wp_opCheckMultiSig_counts hstack hkeys hsigs hmax hops (fun _ => ⟨rfl, rfl⟩)
        fun hle => absurd hle (Nat.not_le.mpr hlt)
    obtain ⟨_, _, hexec, rfl, rfl⟩ := hwp.exists_exec_error
    exact ⟨hexec, fun hassigned => absurd hassigned.length_le (Nat.not_le.mpr hlt)⟩

end

/-- A checker for which a key verifies just the signature that equals it. -/
def equalityEnv : ScriptEnv where
  flags := 0
  checkSig vchSig vchPubKey _ := vchSig == vchPubKey
  ripemd160 _ := ⟨_, length_zero160⟩
  sha1 _ := ⟨_, length_zero160⟩
  sha256 _ := ⟨_, length_zero256⟩
  hash160 _ := ⟨_, length_zero160⟩
  hash256 _ := ⟨_, length_zero256⟩

/-- Two of three keys verify. -/
theorem opCheckMultiSig_iff_twoOfThree : ∃ (fSuccess : Bool) (c : Nat),
    exec (opCheckMultiSig equalityEnv OP_CHECKMULTISIG)
      { stack := [[9], [], [5], [7], [2], [5], [6], [7], [3]], pbegincodehash := [] } =
      (.ok (), {
        stack := [[9], if fSuccess then vchTrue else vchFalse]
        nOpCount := 3
        checks := c
        pbegincodehash := [] }) ∧
    (fSuccess = true ↔ Assigned (verifiedBy equalityEnv
      { stack := [[9], [], [5], [7], [2], [5], [6], [7], [3]], pbegincodehash := [] }
      [[5], [7]]) [[5], [7]] [[5], [6], [7]]) :=
  (@opCheckMultiSig_iff equalityEnv
    { stack := [[9], [], [5], [7], [2], [5], [6], [7], [3]], pbegincodehash := [] }
    [[9]] [[5], [7]] [[5], [6], [7]] [] [2] [3] rfl rfl rfl (by decide) (by decide)
    (fun _ => rfl) (Or.inl rfl)).1 (by decide)

end BitBlocks
