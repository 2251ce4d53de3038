import BitBlocks.Script.Interpreter

/-!
# What an instruction can do

One statement for every instruction (`Keeps`): it leaves elements of at most 520
bytes and at most 201 charged operations if it found them so; it asks the
signature checker at most as often as it is charged for; and when it stops, it
returns an error other than `UNKNOWN_ERROR` or throws about a number that was on
the stack. No other exception, iterator or assertion is left, since every access
is behind a check of the stack's size; the sizes are all an instruction's proof
is about.
-/

namespace BitBlocks

open Hoare Eval

def Elements (stack : List Valtype) : Prop := ∀ vch ∈ stack, vch.length ≤ MAX_SCRIPT_ELEMENT_SIZE

structure EvalState.Sound (s : EvalState) : Prop where
  stack : Elements s.stack
  altstack : Elements s.altstack
  opCount : s.nOpCount ≤ 201

/-- A number could not be made of an operand on the stack, for the reason that was given. -/
inductive BadOperand (env : ScriptEnv) (stack : List Valtype) : CScriptNum.Error → Prop
  | overflow {vch : Valtype} (hmem : vch ∈ stack) (hlen : CScriptNum.nMaxNumSize < vch.length) :
      BadOperand env stack (.overflow vch)
  | nonMinimal {vch : Valtype} (hmem : vch ∈ stack)
      (hflag : env.flag SCRIPT_VERIFY_MINIMALDATA = true)
      (hmin : CScriptNum.isMinimal vch = false) : BadOperand env stack (.nonMinimal vch)

/-- The ways an instruction may stop, on a stack. -/
inductive AllowedStop (env : ScriptEnv) (stack : List Valtype) : Stop → Prop
  | error {e : ScriptError} (he : e ≠ .UNKNOWN_ERROR) : AllowedStop env stack (.error e)
  | operand {e : CScriptNum.Error} (hbad : BadOperand env stack e) :
      AllowedStop env stack (.thrown (.scriptNum e))

/-- How an instruction leaves the state, with at most `n` calls of the checker. -/
def After (s : EvalState) (n : Nat) (_ : Unit) (s' : EvalState) : Prop :=
  (s.Sound → s'.Sound) ∧ s'.checks ≤ s.checks + n

def Stopped (env : ScriptEnv) (s : EvalState) (n : Nat) (e : Stop) (s' : EvalState) : Prop :=
  AllowedStop env s.stack e ∧ s'.checks ≤ s.checks + n

/-- An instruction that does not ask the checker keeps the bounds and stops for a reason. -/
def Keeps (env : ScriptEnv) (m : Eval Unit) : Prop := ∀ n s, Wp m (After s n) (Stopped env s n) s

/-! ## Elements -/

namespace Elements

variable {stack stack' : List Valtype}

theorem append (h : Elements stack) (h' : Elements stack') : Elements (stack ++ stack') :=
  fun vch hvch => (List.mem_append.mp hvch).elim (h vch) (h' vch)

theorem push {vch : Valtype} (h : Elements stack) (hvch : vch.length ≤ MAX_SCRIPT_ELEMENT_SIZE) :
    Elements (stack ++ [vch]) :=
  h.append fun _ hmem => List.mem_singleton.mp hmem ▸ hvch

theorem subset (h : Elements stack) (hsub : stack' ⊆ stack) : Elements stack' :=
  fun vch hvch => h vch (hsub hvch)

theorem dropLast (h : Elements stack) : Elements stack.dropLast :=
  h.subset (List.dropLast_subset stack)

theorem set {vch : Valtype} (h : Elements stack) (hvch : vch.length ≤ MAX_SCRIPT_ELEMENT_SIZE)
    (i : Nat) : Elements (stack.set i vch) :=
  fun v hv => (List.mem_or_eq_of_mem_set hv).elim (h v) fun heq => heq ▸ hvch

theorem fromEnd (h : Elements stack) (i : Nat) :
    (BitBlocks.fromEnd stack i).length ≤ MAX_SCRIPT_ELEMENT_SIZE := by
  rw [BitBlocks.fromEnd, List.getD_eq_getElem?_getD]
  rcases hget : stack[stack.length - i]? with _ | vch
  · exact Nat.zero_le _
  · exact h vch (List.mem_of_getElem? hget)

end Elements

theorem fromEnd_mem {stack : List Valtype} {i : Nat} (h : 1 ≤ i ∧ i ≤ stack.length) :
    fromEnd stack i ∈ stack := by
  rw [fromEnd, List.getD_eq_getElem _ _ (by omega)]
  exact List.getElem_mem _

theorem length_serialize_le (value : Int) :
    (CScriptNum.serialize value).length ≤ MAX_SCRIPT_ELEMENT_SIZE :=
  (CScriptNum.length_serialize value).trans (by decide)

/-! ## What instructions are made of -/

section Primitives

variable {env : ScriptEnv} {s s₀ : EvalState} {n : Nat} {α : Type} {E : Stop → EvalState → Prop}

variable {e : ScriptError} {c : Prop} {i j : Nat} {vch : Valtype}

theorem wp_fail {Q : α → EvalState → Prop} (he : e ≠ .UNKNOWN_ERROR)
    (hc : s.checks ≤ s₀.checks + n) :
    Wp (fail e : Eval α) Q (Stopped env s₀ n) s :=
  ⟨.error he, hc⟩

variable {Q : Unit → EvalState → Prop}

theorem wp_failIf [Decidable c] (he : e ≠ .UNKNOWN_ERROR) (hc : s.checks ≤ s₀.checks + n)
    (h : ¬ c → Q () s) : Wp (failIf c e) Q (Stopped env s₀ n) s :=
  wp_ite.mpr ⟨fun _ => wp_fail he hc, h⟩

theorem wp_needs {k : Nat} (hc : s.checks ≤ s₀.checks + n) (h : k ≤ s.stack.length → Q () s) :
    Wp (needs k) Q (Stopped env s₀ n) s :=
  wp_bind.mpr (wp_failIf (by decide) hc fun hlen => h (Nat.not_lt.mp hlen))

theorem wp_stacktop {Q : Valtype → EvalState → Prop} (hi : 1 ≤ i ∧ i ≤ s.stack.length)
    (h : Q (fromEnd s.stack i) s) : Wp (stacktop i) Q E s :=
  wp_bind.mpr (wp_ite.mpr ⟨fun _ => h, fun hn => absurd hi hn⟩)

theorem wp_altstacktop {Q : Valtype → EvalState → Prop} (hi : 1 ≤ i ∧ i ≤ s.altstack.length)
    (h : Q (fromEnd s.altstack i) s) : Wp (altstacktop i) Q E s :=
  wp_bind.mpr (wp_ite.mpr ⟨fun _ => h, fun hn => absurd hi hn⟩)

theorem wp_popstack (hlen : 1 ≤ s.stack.length) (h : Q () { s with stack := s.stack.dropLast }) :
    Wp popstack Q E s :=
  wp_bind.mpr (wp_ite.mpr ⟨fun hnil => absurd hlen (by rw [hnil]; decide), fun _ => h⟩)

theorem wp_popaltstack (hlen : 1 ≤ s.altstack.length)
    (h : Q () { s with altstack := s.altstack.dropLast }) : Wp popaltstack Q E s :=
  wp_bind.mpr (wp_ite.mpr ⟨fun hnil => absurd hlen (by rw [hnil]; decide), fun _ => h⟩)

theorem wp_pushBack (h : Q () { s with stack := s.stack ++ [vch] }) : Wp (pushBack vch) Q E s := h

theorem wp_pushBackAlt (h : Q () { s with altstack := s.altstack ++ [vch] }) :
    Wp (pushBackAlt vch) Q E s := h

theorem wp_swapTop (hi : 1 ≤ i ∧ i ≤ s.stack.length) (hj : 1 ≤ j ∧ j ≤ s.stack.length)
    (h : Q () { s with
      stack := (s.stack.set (s.stack.length - i) (fromEnd s.stack j)).set
        (s.stack.length - j) (fromEnd s.stack i) }) : Wp (swapTop i j) Q E s :=
  wp_bind.mpr (wp_stacktop hi (wp_bind.mpr (wp_stacktop hj h)))

theorem wp_erase (hij : j ≤ i ∧ i ≤ s.stack.length) (h : Q () { s with
      stack := s.stack.take (s.stack.length - i) ++ s.stack.drop (s.stack.length - j) }) :
    Wp (erase i j) Q E s :=
  wp_bind.mpr (wp_ite.mpr ⟨fun _ => h, fun hn => absurd hij hn⟩)

theorem wp_insert (hi : i ≤ s.stack.length) (h : Q () { s with
      stack := s.stack.take (s.stack.length - i) ++ vch :: s.stack.drop (s.stack.length - i) }) :
    Wp (insert i vch) Q E s :=
  wp_bind.mpr (wp_ite.mpr ⟨fun _ => h, fun hn => absurd hi hn⟩)

theorem wp_assert [Decidable c] (hc : c) (h : Q () s) : Wp (Eval.assert c) Q E s :=
  wp_ite.mpr ⟨fun _ => h, fun hn => absurd hc hn⟩

theorem wp_scriptNum {Q : Int → EvalState → Prop} (hmem : vch ∈ s₀.stack)
    (hc : s.checks ≤ s₀.checks + n)
    (h : ∀ m, CScriptNum.ofVch vch (env.flag SCRIPT_VERIFY_MINIMALDATA) = .ok m → Q m s) :
    Wp (scriptNum env vch) Q (Stopped env s₀ n) s := by
  unfold scriptNum
  split
  · rename_i m hm
    exact h m hm
  · rename_i e he
    refine ⟨.operand ?_, hc⟩
    rcases CScriptNum.of_ofVch_error he with ⟨rfl, hlen⟩ | ⟨rfl, hflag, hmin⟩
    · exact .overflow hmem hlen
    · exact .nonMinimal hmem hflag hmin

theorem wp_topNum {f : Int → Eval Unit} {Q : Unit → EvalState → Prop}
    (hi : 1 ≤ i ∧ i ≤ s.stack.length)
    (h : ∀ m, CScriptNum.ofVch (fromEnd s.stack i) (env.flag SCRIPT_VERIFY_MINIMALDATA) = .ok m →
      Wp (f m) Q (Stopped env s n) s) :
    Wp (stacktop i >>= fun vch => scriptNum env vch >>= f) Q (Stopped env s n) s :=
  wp_bind.mpr (wp_stacktop hi (wp_bind.mpr
    (wp_scriptNum (fromEnd_mem hi) (Nat.le_add_right _ _) h)))

theorem Keeps.of_needs {k : Nat} {m : Unit → Eval Unit}
    (h : ∀ n s, k ≤ s.stack.length → Wp (m ()) (After s n) (Stopped env s n) s) :
    Keeps env (needs k >>= m) :=
  fun n s => wp_bind.mpr (wp_needs (Nat.le_add_right _ _) (h n s))

end Primitives

/-! ## The bounds on states with another stack -/

namespace EvalState.Sound

variable {s : EvalState} {stack : List Valtype}

theorem withStack (h : s.Sound) (hstack : Elements stack) :
    EvalState.Sound { s with stack := stack } := ⟨hstack, h.altstack, h.opCount⟩

theorem withAltstack (h : s.Sound) {altstack : List Valtype} (halt : Elements altstack) :
    EvalState.Sound { s with altstack := altstack } := ⟨h.stack, halt, h.opCount⟩

theorem withExec (h : s.Sound) (vfExec : List Bool) :
    EvalState.Sound { s with vfExec := vfExec } := ⟨h.stack, h.altstack, h.opCount⟩

theorem withChecks (h : s.Sound) (c : Nat) : EvalState.Sound { s with checks := c } :=
  ⟨h.stack, h.altstack, h.opCount⟩

theorem push (h : s.Sound) {vch : Valtype} (hvch : vch.length ≤ MAX_SCRIPT_ELEMENT_SIZE) :
    EvalState.Sound { s with stack := s.stack ++ [vch] } := h.withStack (h.stack.push hvch)

theorem pop (h : s.Sound) : EvalState.Sound { s with stack := s.stack.dropLast } :=
  h.withStack h.stack.dropLast

end EvalState.Sound

/-! ## The instructions -/

variable {env : ScriptEnv} {opcode : UInt8}

theorem keeps_opPushNumber : Keeps env (opPushNumber opcode) := by
  intro n s
  exact wp_pushBack ⟨fun hs => hs.push (length_serialize_le _), Nat.le_add_right _ _⟩

theorem keeps_opUpgradableNop : Keeps env (opUpgradableNop env) := by
  intro n s
  exact wp_failIf (by decide) (Nat.le_add_right _ _) fun _ => ⟨id, Nat.le_add_right _ _⟩

theorem keeps_opIf : Keeps env (opIf opcode) := by
  intro n s
  refine wp_bind.mpr (wp_bind.mpr (wp_get.mpr (wp_ite.mpr ⟨fun _ => ?_, fun _ => ?_⟩)))
  · refine wp_bind.mpr (wp_failIf (by decide) (Nat.le_add_right _ _) fun hlen => ?_)
    refine wp_bind.mpr (wp_stacktop (by omega) ?_)
    refine wp_bind.mpr (wp_popstack (by omega) ?_)
    exact ⟨fun hs => hs.pop.withExec _, Nat.le_add_right _ _⟩
  · exact ⟨fun hs => hs.withExec _, Nat.le_add_right _ _⟩

theorem keeps_opElse : Keeps env opElse := by
  intro n s
  refine wp_bind.mpr (wp_get.mpr (wp_bind.mpr ?_))
  refine wp_failIf (by decide) (Nat.le_add_right _ _) fun _ => ?_
  exact ⟨fun hs => hs.withExec _, Nat.le_add_right _ _⟩

theorem keeps_opEndIf : Keeps env opEndIf := by
  intro n s
  refine wp_bind.mpr (wp_get.mpr (wp_bind.mpr ?_))
  refine wp_failIf (by decide) (Nat.le_add_right _ _) fun _ => ?_
  exact ⟨fun hs => hs.withExec _, Nat.le_add_right _ _⟩

theorem keeps_opVerify : Keeps env opVerify := by
  refine Keeps.of_needs fun n s hlen => ?_
  refine wp_bind.mpr (wp_stacktop (by omega) ?_)
  refine wp_ite.mpr ⟨fun _ => ?_, fun _ => wp_fail (by decide) (Nat.le_add_right _ _)⟩
  exact wp_popstack hlen ⟨fun hs => hs.pop, Nat.le_add_right _ _⟩

theorem keeps_opToAltStack : Keeps env opToAltStack := by
  refine Keeps.of_needs fun n s hlen => ?_
  refine wp_bind.mpr (wp_stacktop (by omega) ?_)
  refine wp_bind.mpr (wp_pushBackAlt (wp_popstack hlen ⟨fun hs => ?_, Nat.le_add_right _ _⟩))
  exact (hs.withAltstack (hs.altstack.push (hs.stack.fromEnd 1))).pop

theorem keeps_opFromAltStack : Keeps env opFromAltStack := by
  intro n s
  refine wp_bind.mpr (wp_get.mpr (wp_bind.mpr ?_))
  refine wp_failIf (by decide) (Nat.le_add_right _ _) fun hlen => ?_
  refine wp_bind.mpr (wp_altstacktop (by omega) (wp_bind.mpr (wp_pushBack ?_)))
  refine wp_popaltstack (Nat.not_lt.mp hlen) ⟨fun hs => ?_, Nat.le_add_right _ _⟩
  exact (hs.push (hs.altstack.fromEnd 1)).withAltstack hs.altstack.dropLast

theorem keeps_op2Drop : Keeps env op2Drop := by
  refine Keeps.of_needs fun n s hlen => ?_
  refine wp_bind.mpr (wp_popstack (by omega) (wp_popstack ?_ ⟨?_, Nat.le_add_right _ _⟩))
  · rw [List.length_dropLast]
    omega
  · exact fun hs => hs.pop.pop

theorem keeps_op2Dup : Keeps env op2Dup := by
  refine Keeps.of_needs fun n s hlen => ?_
  refine wp_bind.mpr (wp_stacktop (by omega) (wp_bind.mpr (wp_stacktop (by omega) ?_)))
  refine wp_bind.mpr (wp_pushBack (wp_pushBack ⟨fun hs => ?_, Nat.le_add_right _ _⟩))
  exact (hs.push (hs.stack.fromEnd 2)).push (hs.stack.fromEnd 1)

theorem keeps_op3Dup : Keeps env op3Dup := by
  refine Keeps.of_needs fun n s hlen => ?_
  refine wp_bind.mpr (wp_stacktop (by omega) (wp_bind.mpr (wp_stacktop (by omega) ?_)))
  refine wp_bind.mpr (wp_stacktop (by omega) (wp_bind.mpr (wp_pushBack ?_)))
  refine wp_bind.mpr (wp_pushBack (wp_pushBack ⟨fun hs => ?_, Nat.le_add_right _ _⟩))
  exact ((hs.push (hs.stack.fromEnd 3)).push (hs.stack.fromEnd 2)).push (hs.stack.fromEnd 1)

theorem keeps_op2Over : Keeps env op2Over := by
  refine Keeps.of_needs fun n s hlen => ?_
  refine wp_bind.mpr (wp_stacktop (by omega) (wp_bind.mpr (wp_stacktop (by omega) ?_)))
  refine wp_bind.mpr (wp_pushBack (wp_pushBack ⟨fun hs => ?_, Nat.le_add_right _ _⟩))
  exact (hs.push (hs.stack.fromEnd 4)).push (hs.stack.fromEnd 3)

variable {stack : List Valtype} {s : EvalState} {Q : Int → EvalState → Prop}
  {E : Stop → EvalState → Prop}

theorem elements_erase (h : Elements stack) (i j : Nat) : Elements (stack.take i ++ stack.drop j) :=
  (h.subset (List.take_subset i stack)).append (h.subset (List.drop_subset j stack))

theorem keeps_op2Rot : Keeps env op2Rot := by
  refine Keeps.of_needs fun n s hlen => ?_
  refine wp_bind.mpr (wp_stacktop (by omega) (wp_bind.mpr (wp_stacktop (by omega) ?_)))
  refine wp_bind.mpr (wp_erase (by omega) (wp_bind.mpr (wp_pushBack ?_)))
  refine wp_pushBack ⟨fun hs => ?_, Nat.le_add_right _ _⟩
  exact ((hs.withStack (elements_erase hs.stack _ _)).push (hs.stack.fromEnd 6)).push
    (hs.stack.fromEnd 5)

theorem elements_swap (h : Elements stack) (i j k l : Nat) :
    Elements ((stack.set i (fromEnd stack k)).set j (fromEnd stack l)) :=
  (h.set (h.fromEnd k) i).set (h.fromEnd l) j

theorem keeps_op2Swap : Keeps env op2Swap := by
  refine Keeps.of_needs fun n s hlen => ?_
  refine wp_bind.mpr (wp_swapTop (by omega) (by omega) ?_)
  refine wp_swapTop ?_ ?_ ⟨fun hs => ?_, Nat.le_add_right _ _⟩
  · simp only [List.length_set]
    omega
  · simp only [List.length_set]
    omega
  · exact hs.withStack (elements_swap (elements_swap hs.stack _ _ _ _) _ _ _ _)

theorem keeps_opIfDup : Keeps env opIfDup := by
  refine Keeps.of_needs fun n s hlen => ?_
  refine wp_bind.mpr (wp_stacktop (by omega) (wp_ite.mpr ⟨fun _ => ?_, fun _ => ?_⟩))
  · exact wp_pushBack ⟨fun hs => hs.push (hs.stack.fromEnd 1), Nat.le_add_right _ _⟩
  · exact ⟨id, Nat.le_add_right _ _⟩

theorem keeps_opDepth : Keeps env opDepth := by
  intro n s
  refine wp_bind.mpr (wp_get.mpr (wp_pushBack ⟨fun hs => ?_, Nat.le_add_right _ _⟩))
  exact hs.push (length_serialize_le _)

theorem keeps_opDrop : Keeps env opDrop := by
  refine Keeps.of_needs fun n s hlen => ?_
  exact wp_popstack hlen ⟨fun hs => hs.pop, Nat.le_add_right _ _⟩

theorem keeps_opDup : Keeps env opDup := by
  refine Keeps.of_needs fun n s hlen => ?_
  refine wp_bind.mpr (wp_stacktop (by omega) (wp_pushBack ⟨fun hs => ?_, Nat.le_add_right _ _⟩))
  exact hs.push (hs.stack.fromEnd 1)

theorem keeps_opNip : Keeps env opNip := by
  refine Keeps.of_needs fun n s hlen => ?_
  refine wp_erase (by omega) ⟨fun hs => ?_, Nat.le_add_right _ _⟩
  exact hs.withStack (elements_erase hs.stack _ _)

theorem keeps_opOver : Keeps env opOver := by
  refine Keeps.of_needs fun n s hlen => ?_
  refine wp_bind.mpr (wp_stacktop (by omega) (wp_pushBack ⟨fun hs => ?_, Nat.le_add_right _ _⟩))
  exact hs.push (hs.stack.fromEnd 2)

theorem keeps_opRot : Keeps env opRot := by
  refine Keeps.of_needs fun n s hlen => ?_
  refine wp_bind.mpr (wp_swapTop (by omega) (by omega) ?_)
  refine wp_swapTop ?_ ?_ ⟨fun hs => ?_, Nat.le_add_right _ _⟩
  · simp only [List.length_set]
    omega
  · simp only [List.length_set]
    omega
  · exact hs.withStack (elements_swap (elements_swap hs.stack _ _ _ _) _ _ _ _)

theorem keeps_opSwap : Keeps env opSwap := by
  refine Keeps.of_needs fun n s hlen => ?_
  refine wp_swapTop (by omega) (by omega) ⟨fun hs => ?_, Nat.le_add_right _ _⟩
  exact hs.withStack (elements_swap hs.stack _ _ _ _)

theorem keeps_opTuck : Keeps env opTuck := by
  refine Keeps.of_needs fun n s hlen => ?_
  refine wp_bind.mpr (wp_stacktop (by omega) (wp_insert hlen ⟨fun hs => ?_, Nat.le_add_right _ _⟩))
  have htop : Elements [fromEnd s.stack 1] := fun _ hmem =>
    List.mem_singleton.mp hmem ▸ hs.stack.fromEnd 1
  exact hs.withStack ((hs.stack.subset (List.take_subset _ _)).append
    (htop.append (hs.stack.subset (List.drop_subset _ _))))

theorem keeps_opSize : Keeps env opSize := by
  refine Keeps.of_needs fun n s hlen => ?_
  refine wp_bind.mpr (wp_stacktop (by omega) (wp_pushBack ⟨fun hs => ?_, Nat.le_add_right _ _⟩))
  exact hs.push (length_serialize_le _)

theorem keeps_opPickRoll : Keeps env (opPickRoll env opcode) := by
  refine Keeps.of_needs fun n s hlen => ?_
  refine wp_topNum (by omega) fun m _ => ?_
  refine wp_bind.mpr (wp_popstack (by omega) (wp_bind.mpr (wp_get.mpr (wp_bind.mpr ?_))))
  refine wp_failIf (by decide) (Nat.le_add_right _ _) fun hrange => ?_
  obtain ⟨hlow, hhigh⟩ := not_or.mp hrange
  -- the depth is one of the stack that is left
  have hdepth : (CScriptNum.getint m).toNat + 1 ≤ s.stack.dropLast.length := by
    simp only at hhigh
    omega
  refine wp_bind.mpr (wp_stacktop ⟨by omega, hdepth⟩ (wp_bind.mpr (wp_ite.mpr ⟨?_, ?_⟩)))
  · intro _
    refine wp_erase ⟨by omega, hdepth⟩ (wp_pushBack ⟨fun hs => ?_, Nat.le_add_right _ _⟩)
    exact (hs.withStack (elements_erase hs.pop.stack _ _)).push (hs.pop.stack.fromEnd _)
  · intro _
    refine wp_pure.mpr (wp_pushBack ⟨fun hs => ?_, Nat.le_add_right _ _⟩)
    exact hs.pop.push (hs.pop.stack.fromEnd _)

theorem wp_pushVerdict {s₀ : EvalState} {n : Nat} {f : Bool} {verify : Prop} [Decidable verify]
    {e : ScriptError} (he : e ≠ .UNKNOWN_ERROR) (hs : s₀.Sound → s.Sound)
    (hc : s.checks ≤ s₀.checks + n) :
    Wp (pushVerdict f verify e) (After s₀ n) (Stopped env s₀ n) s := by
  have hverdict : (if f then vchTrue else vchFalse).length ≤ MAX_SCRIPT_ELEMENT_SIZE := by
    cases f <;> decide
  have hlen : 1 ≤ (s.stack ++ [if f then vchTrue else vchFalse]).length := by simp
  refine wp_bind.mpr (wp_pushBack (wp_ite.mpr ⟨fun _ => wp_ite.mpr ⟨fun _ => ?_, fun _ => ?_⟩, ?_⟩))
  · exact wp_popstack hlen ⟨fun hs0 => ((hs hs0).push hverdict).pop, hc⟩
  · exact wp_fail he hc
  · exact fun _ => ⟨fun hs0 => (hs hs0).push hverdict, hc⟩

theorem keeps_opEqual : Keeps env (opEqual opcode) := by
  refine Keeps.of_needs fun n s hlen => ?_
  refine wp_bind.mpr (wp_stacktop (by omega) (wp_bind.mpr (wp_stacktop (by omega) ?_)))
  refine wp_bind.mpr (wp_popstack (by omega) (wp_bind.mpr (wp_popstack ?_ ?_)))
  · rw [List.length_dropLast]
    omega
  · exact wp_pushVerdict (by decide) (fun hs => hs.pop.pop) (Nat.le_add_right _ _)

theorem wp_unary {bn : Int} (hop : isUnary opcode = true) (hbn : bn.natAbs < 2 ^ 33)
    (h : ∀ m, Q m s) : Wp (unary opcode bn) Q E s := by
  have hneg : Wp (negate bn) Q E s := wp_bind.mpr (wp_assert (by omega) (h _))
  have hadd : Wp (addAssign bn 1) Q E s := wp_bind.mpr (wp_assert (by omega) (h _))
  have hsub : Wp (subAssign bn 1) Q E s := wp_bind.mpr (wp_assert (by omega) (h _))
  refine wp_ite.mpr ⟨fun _ => hadd, fun h1 => wp_ite.mpr ⟨fun _ => hsub, fun h2 => ?_⟩⟩
  refine wp_ite.mpr ⟨fun _ => hneg, fun h3 => wp_ite.mpr ⟨fun _ => ?_, fun h4 => ?_⟩⟩
  · exact wp_ite.mpr ⟨fun _ => hneg, fun _ => h _⟩
  refine wp_ite.mpr ⟨fun _ => h _, fun h5 => wp_ite.mpr ⟨fun _ => h _, fun h6 => ?_⟩⟩
  simp [isUnary, h1, h2, h3, h4, h5, h6] at hop

theorem keeps_opUnary (hop : isUnary opcode = true) : Keeps env (opUnary env opcode) := by
  refine Keeps.of_needs fun n s hlen => ?_
  refine wp_topNum (by omega) fun bn hbn => ?_
  refine wp_bind.mpr (wp_unary hop (CScriptNum.ofVch_lt hbn) fun m => ?_)
  refine wp_bind.mpr (wp_popstack hlen (wp_pushBack ⟨fun hs => ?_, Nat.le_add_right _ _⟩))
  exact hs.pop.push (length_serialize_le _)

theorem wp_binary {bn1 bn2 : Int} (hop : isBinary opcode = true) (h : ∀ m, Q m s) :
    Wp (binary opcode bn1 bn2) Q E s := by
  refine wp_ite.mpr ⟨fun _ => h _, fun h1 => wp_ite.mpr ⟨fun _ => h _, fun h2 => ?_⟩⟩
  refine wp_ite.mpr ⟨fun _ => h _, fun h3 => wp_ite.mpr ⟨fun _ => h _, fun h4 => ?_⟩⟩
  refine wp_ite.mpr ⟨fun _ => h _, fun h5 => wp_ite.mpr ⟨fun _ => h _, fun h6 => ?_⟩⟩
  refine wp_ite.mpr ⟨fun _ => h _, fun h7 => wp_ite.mpr ⟨fun _ => h _, fun h8 => ?_⟩⟩
  refine wp_ite.mpr ⟨fun _ => h _, fun h9 => wp_ite.mpr ⟨fun _ => h _, fun h10 => ?_⟩⟩
  refine wp_ite.mpr ⟨fun _ => h _, fun h11 => wp_ite.mpr ⟨fun _ => h _, fun h12 => ?_⟩⟩
  refine wp_ite.mpr ⟨fun _ => h _, fun h13 => ?_⟩
  simp [isBinary, h1, h2, h3, h4, h5, h6, h7, h8, h9, h10, h11, h12, h13] at hop

theorem keeps_opBinary (hop : isBinary opcode = true) : Keeps env (opBinary env opcode) := by
  refine Keeps.of_needs fun n s hlen => ?_
  refine wp_topNum (by omega) fun bn1 _ => ?_
  refine wp_topNum (by omega) fun bn2 _ => ?_
  refine wp_bind.mpr (wp_binary hop fun bn => wp_bind.mpr (wp_popstack (by omega) ?_))
  refine wp_bind.mpr (wp_popstack (by rw [List.length_dropLast]; omega) ?_)
  have hsound := fun hs : s.Sound => hs.pop.pop.push (length_serialize_le bn)
  refine wp_bind.mpr (wp_pushBack (wp_ite.mpr ⟨fun _ => ?_, fun _ => ?_⟩))
  · have hone : 1 ≤ (s.stack.dropLast.dropLast ++ [CScriptNum.serialize bn]).length := by simp
    refine wp_bind.mpr (wp_stacktop ⟨by omega, hone⟩ (wp_ite.mpr ⟨fun _ => ?_, fun _ => ?_⟩))
    · exact wp_popstack hone ⟨fun hs => (hsound hs).pop, Nat.le_add_right _ _⟩
    · exact wp_fail (by decide) (Nat.le_add_right _ _)
  · exact ⟨hsound, Nat.le_add_right _ _⟩

theorem keeps_opWithin : Keeps env (opWithin env) := by
  refine Keeps.of_needs fun n s hlen => ?_
  refine wp_topNum (by omega) fun bn1 _ => ?_
  refine wp_topNum (by omega) fun bn2 _ => ?_
  refine wp_topNum (by omega) fun bn3 _ => ?_
  refine wp_bind.mpr (wp_popstack (by omega) ?_)
  refine wp_bind.mpr (wp_popstack (by rw [List.length_dropLast]; omega) ?_)
  refine wp_bind.mpr (wp_popstack (by simp only [List.length_dropLast]; omega) ?_)
  refine wp_pushBack ⟨fun hs => hs.pop.pop.pop.push ?_, Nat.le_add_right _ _⟩
  split <;> decide

theorem keeps_opHash : Keeps env (opHash env opcode) := by
  refine Keeps.of_needs fun n s hlen => ?_
  refine wp_bind.mpr (wp_stacktop (by omega) (wp_bind.mpr (wp_popstack hlen ?_)))
  refine wp_pushBack ⟨fun hs => hs.pop.push ?_, Nat.le_add_right _ _⟩
  have h20 : ∀ h : { vchHash : Valtype // vchHash.length = 20 },
      h.1.length ≤ MAX_SCRIPT_ELEMENT_SIZE := fun h => h.2.le.trans (by decide)
  have h32 : ∀ h : { vchHash : Valtype // vchHash.length = 32 },
      h.1.length ≤ MAX_SCRIPT_ELEMENT_SIZE := fun h => h.2.le.trans (by decide)
  unfold Eval.hash
  split_ifs
  exacts [h20 _, h20 _, h32 _, h20 _, h32 _]

theorem keeps_opCodeSeparator {pc : CScript} : Keeps env (opCodeSeparator pc) := by
  intro n s
  exact ⟨fun hs => ⟨hs.stack, hs.altstack, hs.opCount⟩, Nat.le_add_right _ _⟩

/-! ## The signature checker -/

section Checks

variable {s s₀ : EvalState} {n : Nat}

variable {Q : Bool → EvalState → Prop} {scriptCode : CScript}

theorem wp_checkSig {vchSig vchPubKey : Valtype} (hc : s.checks + 1 ≤ s₀.checks + n)
    (h : ∀ f, Q f { s with checks := s.checks + 1 }) :
    Wp (checkSig env vchSig vchPubKey scriptCode) Q (Stopped env s₀ n) s := by
  unfold checkSig
  split
  · rename_i e he
    exact wp_fail (encoding_error he) (by omega)
  · exact h _

theorem wp_opCheckSig (hn : 1 ≤ n) :
    Wp (opCheckSig env opcode) (After s n) (Stopped env s n) s := by
  refine wp_bind.mpr (wp_needs (Nat.le_add_right _ _) fun hlen => ?_)
  refine wp_bind.mpr (wp_stacktop (by omega) (wp_bind.mpr (wp_stacktop (by omega) ?_)))
  refine wp_bind.mpr (wp_get.mpr (wp_bind.mpr (wp_checkSig (by omega) fun f => ?_)))
  have hone : 1 ≤ s.stack.length := by omega
  have htwo : 1 ≤ s.stack.dropLast.length := by rw [List.length_dropLast]; omega
  refine wp_bind.mpr (wp_popstack hone (wp_bind.mpr (wp_popstack htwo ?_)))
  exact wp_pushVerdict (by decide) (fun hs => (hs.withChecks _).pop.pop) (Nat.add_le_add_left hn _)

/--
The loop asks once for each key it tries, and both its positions stay inside the
arguments: `isig` moves past the signatures that are left, `ikey` past the keys.
-/
theorem wp_multisigLoop : ∀ (nKeysCount : Nat) {isig ikey : Nat} {nSigsCount : Int} {s : EvalState},
      0 ≤ nSigsCount → nSigsCount ≤ nKeysCount → 1 ≤ isig → 1 ≤ ikey →
      isig + nSigsCount ≤ s.stack.length + 1 → ikey + nKeysCount ≤ s.stack.length + 1 →
      s.checks + nKeysCount ≤ s₀.checks + n →
      (∀ f c, c ≤ s₀.checks + n → Q f { s with checks := c }) →
      Wp (multisigLoop env scriptCode isig ikey nSigsCount nKeysCount) Q (Stopped env s₀ n) s := by
  intro nKeysCount
  induction nKeysCount with
  | zero =>
    intro isig ikey nSigsCount s hlow hle _ _ _ _ hc h
    rw [multisigLoop]
    exact wp_ite.mpr ⟨fun hpos => by omega, fun _ => h true s.checks (by omega)⟩
  | succ nKeysCount ih =>
    intro isig ikey nSigsCount s hlow hle hisig hikey hsigs hkeys hc h
    rw [multisigLoop]
    refine wp_ite.mpr ⟨fun hpos => ?_, fun _ => h true s.checks (by omega)⟩
    refine wp_bind.mpr (wp_stacktop (by omega) (wp_bind.mpr (wp_stacktop (by omega) ?_)))
    refine wp_bind.mpr (wp_checkSig (by omega) fun fOk => ?_)
    refine wp_ite.mpr ⟨fun _ => h false _ (by omega), fun hmore => ?_⟩
    have hkeysLeft : ((nKeysCount + 1 : Nat) : Int) - 1 = nKeysCount := by omega
    rw [hkeysLeft] at hmore ⊢
    have hc' : s.checks + 1 + nKeysCount ≤ s₀.checks + n := by omega
    have hkeys' : ikey + 1 + nKeysCount ≤ s.stack.length + 1 := by omega
    cases fOk with
    | true =>
      have hlow' : 0 ≤ nSigsCount - 1 := by omega
      have hsigs' : ((isig + 1 : Nat) : Int) + (nSigsCount - 1) ≤ s.stack.length + 1 := by omega
      have hmore : nSigsCount - 1 ≤ nKeysCount := Int.not_lt.mp hmore
      exact ih hlow' hmore (Nat.le_add_left 1 isig) (Nat.le_add_left 1 ikey) hsigs' hkeys' hc' h
    | false =>
      have hmore : nSigsCount ≤ nKeysCount := Int.not_lt.mp hmore
      exact ih hlow hmore hisig (Nat.le_add_left 1 ikey) hsigs hkeys' hc' h

theorem wp_popMany {Q : Unit → EvalState → Prop} {E : Stop → EvalState → Prop} :
    ∀ {k : Nat} {s : EvalState}, k ≤ s.stack.length →
      (∀ stack, stack ⊆ s.stack → stack.length = s.stack.length - k →
        Q () { s with stack := stack }) →
      Wp (popMany k) Q E s
  | 0, s, _, h => h s.stack (List.Subset.refl _) rfl
  | k + 1, s, hlen, h => by
    refine wp_bind.mpr (wp_popstack (by omega) ?_)
    refine wp_popMany (by rw [List.length_dropLast]; omega) fun stack hsub hlength => ?_
    refine h stack (List.Subset.trans hsub (List.dropLast_subset _)) ?_
    rw [hlength, List.length_dropLast]
    omega

theorem wp_nullDummy {Q : Unit → EvalState → Prop} (hlen : 1 ≤ s.stack.length)
    (hc : s.checks ≤ s₀.checks + n) (h : Q () s) :
    Wp (nullDummy env) Q (Stopped env s₀ n) s := by
  refine wp_ite.mpr ⟨fun _ => wp_bind.mpr (wp_stacktop (by omega) ?_), fun _ => h⟩
  exact wp_failIf (by decide) hc fun _ => h

theorem wp_verifyMultiSig {i isig ikey : Nat} {nSigsCount nKeysCount : Int}
    (hs : s₀.Sound → s.Sound) (hc : s.checks + nKeysCount.toNat ≤ s₀.checks + n)
    (hlow : 0 ≤ nSigsCount) (hle : nSigsCount ≤ nKeysCount) (hikey : 1 ≤ ikey) (hisig : 1 ≤ isig)
    (hkeys : ikey + nKeysCount ≤ s.stack.length + 1) (hi : i = isig + nSigsCount.toNat)
    (hlen : i ≤ s.stack.length) :
    Wp (verifyMultiSig env opcode i isig ikey nSigsCount nKeysCount) (After s₀ n)
      (Stopped env s₀ n) s := by
  have hc' : s.checks ≤ s₀.checks + n := by omega
  refine wp_bind.mpr (wp_get.mpr (wp_bind.mpr ?_))
  have hdelete : Wp ((List.range nSigsCount.toNat).foldlM
      (fun scriptCode k => do
        let vchSig ← stacktop (isig + k)
        pure (CScript.findAndDelete scriptCode (CScript.push vchSig)).2) s.pbegincodehash)
      (fun _ s' => s' = s) (Stopped env s₀ n) s := by
    refine wp_foldlM (fun k hk scriptCode s' hs' => ?_) rfl
    have hk := List.mem_range.mp hk
    subst hs'
    exact wp_bind.mpr (wp_stacktop (by omega) (wp_pure.mpr rfl))
  refine hdelete.mono (fun scriptCode s' hs' => ?_) fun _ _ hE => hE
  subst hs'
  obtain ⟨keys, rfl⟩ : ∃ keys : Nat, nKeysCount = keys := ⟨nKeysCount.toNat, by omega⟩
  have hkeys : ikey + keys ≤ s'.stack.length + 1 := by omega
  have hsigs : (isig : Int) + nSigsCount ≤ s'.stack.length + 1 := by omega
  refine wp_bind.mpr (wp_multisigLoop keys hlow hle hisig hikey hsigs hkeys (by omega) ?_)
  intro fSuccess c hc1
  have hpop : i - 1 ≤ s'.stack.length := by omega
  refine wp_bind.mpr (wp_popMany hpop fun stack hsub hlength => ?_)
  have hone : 1 ≤ stack.length := by
    simp only at hlength
    omega
  refine wp_bind.mpr (wp_needs hc1 fun _ => wp_bind.mpr (wp_nullDummy hone hc1 ?_))
  refine wp_bind.mpr (wp_popstack hone (wp_pushVerdict (by decide) (fun hs0 => ?_) hc1))
  exact (((hs hs0).withChecks c).withStack ((hs hs0).stack.subset hsub)).pop

theorem wp_opCheckMultiSig
    (hkeys : ∀ m, CScriptNum.ofVch (fromEnd s.stack 1) (env.flag SCRIPT_VERIFY_MINIMALDATA) =
      .ok m →
      CScriptNum.getint m ≤ 20 → CScriptNum.getint m ≤ n) :
    Wp (opCheckMultiSig env opcode) (After s n) (Stopped env s n) s := by
  refine wp_bind.mpr (wp_needs (Nat.le_add_right _ _) fun hlen => ?_)
  refine wp_topNum (by omega) fun m hm => ?_
  have hn := hkeys m hm
  generalize CScriptNum.getint m = nKeysCount at hn ⊢
  refine wp_bind.mpr (wp_failIf (by decide) (Nat.le_add_right _ _) fun hrange => ?_)
  refine wp_bind.mpr (wp_modify.mpr (wp_bind.mpr (wp_get.mpr (wp_bind.mpr ?_))))
  refine wp_failIf (by decide) (Nat.le_add_right _ _) fun hcount => ?_
  refine wp_bind.mpr (wp_needs (Nat.le_add_right _ _) fun hkeysLen => ?_)
  have hkeysLen : 2 + nKeysCount.toNat ≤ s.stack.length := hkeysLen
  have htop : 1 ≤ 2 + nKeysCount.toNat ∧ 2 + nKeysCount.toNat ≤ s.stack.length :=
    ⟨by omega, hkeysLen⟩
  refine wp_bind.mpr (wp_stacktop htop (wp_bind.mpr ?_))
  refine wp_scriptNum (fromEnd_mem htop) (Nat.le_add_right _ _) fun m' _ => ?_
  generalize CScriptNum.getint m' = nSigsCount
  refine wp_bind.mpr (wp_failIf (by decide) (Nat.le_add_right _ _) fun hsigs => ?_)
  refine wp_bind.mpr (wp_needs (Nat.le_add_right _ _) fun hsigsLen => ?_)
  have hcharge : s.checks + nKeysCount.toNat ≤ s.checks + n := by omega
  have hkeysEnd : ((2 : Nat) : Int) + nKeysCount ≤ s.stack.length + 1 := by omega
  refine wp_verifyMultiSig (fun hs => ⟨hs.stack, hs.altstack, Int.not_lt.mp hcount⟩) hcharge
    (by omega) (by omega) (by omega) (by omega) hkeysEnd rfl hsigsLen

end Checks

end BitBlocks
