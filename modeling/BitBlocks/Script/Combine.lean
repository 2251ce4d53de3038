import BitBlocks.Lib.Loops
import BitBlocks.Lib.Sorting
import BitBlocks.Script.MultiSig
import BitBlocks.Script.Solver

/-!
# Combining signatures (`CombineSignatures` of `script/sign.cpp`)

Two people who each sign a part of a transaction have two scripts for one input. Of a
multisignature script the signatures of both are thrown together, each one is given to
the first key that has none yet and verifies it, and what the keys have is written down
in the order of the keys. As long as no signature verifies for two keys, what a key gets
is the least of its signatures, whoever it comes from. So nothing is lost, and it does
not matter which of the two scripts comes first.
-/

namespace BitBlocks

open Matching Eval Hoare

namespace CScript

/-- What `Solver` leaves in `typeRet` and `vSolutionsRet`, whatever it returns: a multisignature
script whose numbers do not fit keeps its type and its solutions. -/
def solved (scriptPubKey : CScript) : TxnOutType × List Valtype :=
  match scriptPubKey.solver with
  | some r => r
  | none =>
    match matchTemplate [OP_SMALLINTEGER, OP_PUBKEYS, OP_SMALLINTEGER, OP_CHECKMULTISIG]
        scriptPubKey [] with
    | some vSolutions => (.multisig, vSolutions)
    | none => (.nonstandard, [])

/-- The keys among the solutions of a multisignature script. -/
def multisigKeys (vSolutions : List Valtype) : List Valtype := vSolutions.tail.dropLast

section

variable (check : Valtype → Valtype → CScript → Bool)

/-- `allsigs`: a set, in the order it is gone through. -/
def allSigs (sigs1 sigs2 : List Valtype) : List Valtype :=
  Sorting.sort ((sigs1 ++ sigs2).filter fun v => v ≠ []).dedup

/-- The loop that writes the signatures down; with how many there are. -/
def pushSigs (nSigsRequired : Nat) (sigs : Valtype → Option Valtype) :
    List Valtype → Nat → CScript → Nat × CScript
  | [], nSigsHave, result => (nSigsHave, result)
  | pubkey :: keys, nSigsHave, result =>
    if nSigsHave < nSigsRequired then
      match sigs pubkey with
      | some sig => pushSigs nSigsRequired sigs keys (nSigsHave + 1) (result ++ push sig)
      | none => pushSigs nSigsRequired sigs keys nSigsHave result
    else (nSigsHave, result)

/-- `CombineMultisig`. -/
def combineMultisig (scriptPubKey : CScript) (vSolutions sigs1 sigs2 : List Valtype) : CScript :=
  let nSigsRequired := firstNumber vSolutions
  let keys := multisigKeys vSolutions
  -- match sigs to pubkeys
  let sigs := FirstFit.fill (fun sig pubkey => check sig pubkey scriptPubKey) keys (fun _ => none)
    (allSigs sigs1 sigs2)
  -- pop-one-too-many workaround
  let (nSigsHave, result) := pushSigs nSigsRequired sigs keys 0 [OP_0]
  -- fill any missing with OP_0
  result ++ List.replicate (nSigsRequired - nSigsHave) OP_0

/-- `CombineSignatures` of two stacks. -/
def combineStacks (scriptPubKey : CScript) (txType : TxnOutType)
    (vSolutions sigs1 sigs2 : List Valtype) : CScript :=
  match txType with
  | .nonstandard | .nullData =>
    -- don't know anything about this, assume bigger one is correct
    if sigs1.length ≥ sigs2.length then pushAll sigs1 else pushAll sigs2
  | .pubkey | .pubkeyhash =>
    -- signatures are bigger than placeholders or empty scripts
    if sigs1 = [] ∨ sigs1.headD [] = [] then pushAll sigs2 else pushAll sigs1
  | .scripthash =>
    if _h : sigs1 = [] ∨ sigs1.getLastD [] = [] then pushAll sigs2
    else if sigs2 = [] ∨ sigs2.getLastD [] = [] then pushAll sigs1
    else
      let spk := sigs1.getLastD []
      let (txType2, vSolutions2) := solved spk
      combineStacks spk txType2 vSolutions2 sigs1.dropLast sigs2.dropLast ++ push spk
  | .multisig => combineMultisig check scriptPubKey vSolutions sigs1 sigs2
termination_by sigs1.length
decreasing_by
  have hpos := List.length_pos_iff.mpr (not_or.mp _h).1
  rw [List.length_dropLast]
  omega

end

/-- `CombineSignatures` of two scripts, for an input of a transaction. The scripts are run as far as
they go, with `BaseSignatureChecker`. -/
def combineSignatures (env : ScriptEnv) (verify : Valtype → Valtype → Valtype → Bool)
    (txTo : CTransaction) (nIn : Nat) (scriptPubKey scriptSig1 scriptSig2 : CScript) : CScript :=
  let (txType, vSolutions) := solved scriptPubKey
  let base := { env with flags := SCRIPT_VERIFY_STRICTENC, checkSig := fun _ _ _ => false }
  let stack1 := (evalScript base [] scriptSig1).2.stack
  let stack2 := (evalScript base [] scriptSig2).2.stack
  combineStacks (checkSig env verify txTo nIn) scriptPubKey txType vSolutions stack1 stack2

/-! ## What the loops do -/

theorem mem_allSigs {sigs1 sigs2 : List Valtype} {sig : Valtype} :
    sig ∈ allSigs sigs1 sigs2 ↔ (sig ∈ sigs1 ∨ sig ∈ sigs2) ∧ sig ≠ [] := by
  rw [allSigs, Sorting.mem_sort, List.mem_dedup, List.mem_filter, List.mem_append,
    decide_eq_true_eq]

/-- **It does not matter which stack comes first.** -/
theorem allSigs_comm (sigs1 sigs2 : List Valtype) : allSigs sigs1 sigs2 = allSigs sigs2 sigs1 :=
  Sorting.sort_eq_of_perm (List.perm_append_comm.filter _).dedup

theorem push_nil : push [] = [OP_0] := rfl

theorem pushAll_cons (value : Valtype) (values : List Valtype) :
    pushAll (value :: values) = push value ++ pushAll values := rfl

theorem pushAll_append (values values' : List Valtype) :
    pushAll (values ++ values') = pushAll values ++ pushAll values' := List.flatMap_append

theorem pushAll_replicate_nil (n : Nat) :
    pushAll (List.replicate n []) = List.replicate n OP_0 := by
  induction n with
  | zero => rfl
  | succ n ih =>
    rw [List.replicate_succ, List.replicate_succ, ← ih]
    rfl

/-- **What is written down**: what the keys have, in their order, up to the number required. -/
theorem pushSigs_eq (nSigsRequired : Nat) (sigs : Valtype → Option Valtype) (keys : List Valtype)
    {nSigsHave : Nat} (hle : nSigsHave ≤ nSigsRequired) (result : CScript) :
    pushSigs nSigsRequired sigs keys nSigsHave result =
      (nSigsHave + ((keys.filterMap sigs).take (nSigsRequired - nSigsHave)).length,
        result ++ pushAll ((keys.filterMap sigs).take (nSigsRequired - nSigsHave))) := by
  induction keys generalizing nSigsHave result with
  | nil => simp [pushSigs, pushAll]
  | cons pubkey keys ih =>
    rw [pushSigs]
    by_cases hlt : nSigsHave < nSigsRequired
    · rw [if_pos hlt]
      cases hsig : sigs pubkey with
      | none =>
        rw [List.filterMap_cons_none hsig]
        exact ih hle result
      | some sig =>
        have hroom : nSigsRequired - nSigsHave = nSigsRequired - (nSigsHave + 1) + 1 := by omega
        rw [List.filterMap_cons_some hsig, hroom, List.take_succ_cons]
        dsimp only
        rw [ih (show nSigsHave + 1 ≤ nSigsRequired from hlt), List.length_cons,
          List.append_assoc, Nat.add_right_comm, Nat.add_assoc]
        rfl
    · have hnone : nSigsRequired - nSigsHave = 0 := by omega
      rw [if_neg hlt, hnone, List.take_zero, List.length_nil, Nat.add_zero, pushAll,
        List.flatMap_nil, List.append_nil]

/-! ## What the keys get -/

section

variable (check : Valtype → Valtype → CScript → Bool)

/-- No signature verifies for two keys. -/
def OneKeyEach (scriptPubKey : CScript) (keys : List Valtype) : Prop :=
  ∀ sig, ∀ pubkey ∈ keys, ∀ pubkey' ∈ keys, check sig pubkey scriptPubKey = true →
    check sig pubkey' scriptPubKey = true → pubkey = pubkey'

/-- A signature one of the stacks has for a key; a placeholder is none. -/
def SignedBy (scriptPubKey : CScript) (sigs1 sigs2 : List Valtype) (sig pubkey : Valtype) : Prop :=
  (sig ∈ sigs1 ∨ sig ∈ sigs2) ∧ sig ≠ [] ∧ check sig pubkey scriptPubKey = true

/-- The keys one of the stacks has a valid signature for. -/
def signedKeys (scriptPubKey : CScript) (keys sigs1 sigs2 : List Valtype) : List Valtype :=
  keys.filter fun pubkey =>
    (sigs1 ++ sigs2).any fun sig => sig ≠ [] && check sig pubkey scriptPubKey

/-- One valid signature for each of the first keys there is one for, as many as are required. -/
def Merged (scriptPubKey : CScript) (vSolutions sigs1 sigs2 chosen : List Valtype) : Prop :=
  List.Forall₂ (SignedBy check scriptPubKey sigs1 sigs2) chosen
    ((signedKeys check scriptPubKey (multisigKeys vSolutions) sigs1 sigs2).take
      (firstNumber vSolutions))

/-- The stack that is written down: the dummy element, the signatures, and empty ones for those that
are missing. -/
def padded (nSigsRequired : Nat) (chosen : List Valtype) : List Valtype :=
  [] :: (chosen ++ List.replicate (nSigsRequired - chosen.length) [])

/-- What the loop over the signatures gives the keys. -/
def heldSigs (scriptPubKey : CScript) (keys sigs1 sigs2 : List Valtype) :
    Valtype → Option Valtype :=
  FirstFit.fill (fun sig pubkey => check sig pubkey scriptPubKey) keys (fun _ => none)
    (allSigs sigs1 sigs2)

end

section

variable {check : Valtype → Valtype → CScript → Bool} {scriptPubKey : CScript}
  {vSolutions keys sigs1 sigs2 : List Valtype}

variable {pubkey : Valtype}

theorem heldSigs_apply (hone : OneKeyEach check scriptPubKey keys) (hmem : pubkey ∈ keys) :
    heldSigs check scriptPubKey keys sigs1 sigs2 pubkey =
      (allSigs sigs1 sigs2).find? fun sig => check sig pubkey scriptPubKey :=
  FirstFit.fill_apply (fun sig _ => hone sig) hmem

theorem signedBy_of_held (hone : OneKeyEach check scriptPubKey keys) {sig : Valtype}
    (hmem : pubkey ∈ keys) (h : heldSigs check scriptPubKey keys sigs1 sigs2 pubkey = some sig) :
    SignedBy check scriptPubKey sigs1 sigs2 sig pubkey := by
  rw [heldSigs_apply hone hmem] at h
  obtain ⟨hstack, hne⟩ := mem_allSigs.mp (List.mem_of_find?_eq_some h)
  have hcheck := List.find?_some h
  exact ⟨hstack, hne, hcheck⟩

/-- **Every key there is a signature for has one.** -/
theorem isSome_held_iff (hone : OneKeyEach check scriptPubKey keys) (hmem : pubkey ∈ keys) :
    (heldSigs check scriptPubKey keys sigs1 sigs2 pubkey).isSome =
      (sigs1 ++ sigs2).any fun sig => sig ≠ [] && check sig pubkey scriptPubKey := by
  rw [Bool.eq_iff_iff, heldSigs_apply hone hmem, List.find?_isSome, List.any_eq_true]
  constructor
  · rintro ⟨sig, hsig, hcheck⟩
    obtain ⟨hstack, hne⟩ := mem_allSigs.mp hsig
    refine ⟨sig, List.mem_append.mpr hstack, ?_⟩
    rw [hcheck, Bool.and_true, decide_eq_true_eq]
    exact hne
  · rintro ⟨sig, hstack, hboth⟩
    obtain ⟨hne, hcheck⟩ := (Bool.and_eq_true _ _).mp hboth
    exact ⟨sig, mem_allSigs.mpr ⟨List.mem_append.mp hstack, of_decide_eq_true hne⟩, hcheck⟩

/-- The signatures that are written down. -/
def chosenSigs (check : Valtype → Valtype → CScript → Bool) (scriptPubKey : CScript)
    (vSolutions sigs1 sigs2 : List Valtype) : List Valtype :=
  ((multisigKeys vSolutions).filterMap
    (heldSigs check scriptPubKey (multisigKeys vSolutions) sigs1 sigs2)).take
    (firstNumber vSolutions)

theorem merged_chosenSigs (hone : OneKeyEach check scriptPubKey (multisigKeys vSolutions)) :
    Merged check scriptPubKey vSolutions sigs1 sigs2
      (chosenSigs check scriptPubKey vSolutions sigs1 sigs2) := by
  have hkeys : signedKeys check scriptPubKey (multisigKeys vSolutions) sigs1 sigs2 =
      (multisigKeys vSolutions).filter fun pubkey =>
        (heldSigs check scriptPubKey (multisigKeys vSolutions) sigs1 sigs2 pubkey).isSome := by
    refine List.filter_congr fun pubkey hmem => ?_
    exact (isSome_held_iff hone hmem).symm
  rw [Merged, hkeys]
  refine List.forall₂_take _ ?_
  exact FirstFit.forall₂_held fun pubkey hmem sig hheld => signedBy_of_held hone hmem hheld

/-- **The result, as a stack.** -/
theorem combineMultisig_eq : combineMultisig check scriptPubKey vSolutions sigs1 sigs2 =
    pushAll (padded (firstNumber vSolutions)
      (chosenSigs check scriptPubKey vSolutions sigs1 sigs2)) := by
  have hpush := pushSigs_eq (firstNumber vSolutions)
    (heldSigs check scriptPubKey (multisigKeys vSolutions) sigs1 sigs2) (multisigKeys vSolutions)
    (Nat.zero_le _) [OP_0]
  rw [Nat.sub_zero, Nat.zero_add] at hpush
  rw [combineMultisig]
  change (pushSigs (firstNumber vSolutions)
    (heldSigs check scriptPubKey (multisigKeys vSolutions) sigs1 sigs2) (multisigKeys vSolutions) 0
    [OP_0]).2 ++ List.replicate (firstNumber vSolutions - (pushSigs (firstNumber vSolutions)
    (heldSigs check scriptPubKey (multisigKeys vSolutions) sigs1 sigs2) (multisigKeys vSolutions) 0
    [OP_0]).1) OP_0 = _
  rw [hpush, padded, pushAll_cons, pushAll_append, pushAll_replicate_nil, push_nil,
    List.append_assoc]
  rfl

theorem chosenSigs_comm (scriptPubKey : CScript) (vSolutions sigs1 sigs2 : List Valtype) :
    chosenSigs check scriptPubKey vSolutions sigs1 sigs2 =
      chosenSigs check scriptPubKey vSolutions sigs2 sigs1 := by
  rw [chosenSigs, chosenSigs, heldSigs, heldSigs, allSigs_comm]

/-- `sigs.empty() || sigs.back().empty()`. -/
def Blank (sigs : List Valtype) : Prop := sigs = [] ∨ sigs.getLastD [] = []

/-- **A stack without a script** to redeem does not count. -/
theorem combineStacks_blank {sigs1 sigs2 : List Valtype} :
    (Blank sigs1 → combineStacks check scriptPubKey .scripthash vSolutions sigs1 sigs2
      = pushAll sigs2) ∧
    (¬ Blank sigs1 → Blank sigs2 →
      combineStacks check scriptPubKey .scripthash vSolutions sigs1 sigs2 = pushAll sigs1) := by
  refine ⟨fun h1 => ?_, fun h1 h2 => ?_⟩
  · rw [Blank] at h1
    rw [combineStacks, dif_pos h1]
  · rw [Blank] at h1 h2
    rw [combineStacks, dif_neg h1, if_pos h2]

theorem combineStacks_multisig (vSolutions : List Valtype) :
    combineStacks check scriptPubKey .multisig vSolutions sigs1 sigs2 =
      pushAll (padded (firstNumber vSolutions)
        (chosenSigs check scriptPubKey vSolutions sigs1 sigs2)) := by
  rw [combineStacks, combineMultisig_eq]

/-- **The script that is redeemed is taken off both stacks** and written down again. -/
theorem combineStacks_scripthash {script : CScript}
    (hscript : script.solver = some (.multisig, vSolutions)) (hne : script ≠ [])
    (scriptPubKey : CScript) (vSolutions' : List Valtype) :
    combineStacks check scriptPubKey .scripthash vSolutions' (sigs1 ++ [script])
        (sigs2 ++ [script]) =
      pushAll (padded (firstNumber vSolutions) (chosenSigs check script vSolutions sigs1 sigs2) ++
        [script]) := by
  have hsolved : solved script = (.multisig, vSolutions) := by
    rw [solved, hscript]
  have hguard (sigs : List Valtype) :
      ¬ (sigs ++ [script] = [] ∨ (sigs ++ [script]).getLastD [] = []) := by
    rw [List.getLastD_concat]
    exact not_or.mpr ⟨List.concat_ne_nil _ _, hne⟩
  rw [combineStacks, dif_neg (hguard sigs1), if_neg (hguard sigs2)]
  dsimp only
  rw [List.getLastD_concat, List.dropLast_concat, List.dropLast_concat, hsolved,
    combineStacks_multisig, pushAll_append]
  congr 1
  exact (List.append_nil _).symm

end

/-! ## `OP_CHECKMULTISIG` on the result -/

variable {pc : CScript} {ops : List (UInt8 × Valtype)} {sig : Valtype}

theorem length_of_instructions (h : instructions pc = some ops) (size : Nat)
    (hsize : ∀ op ∈ ops, op.2.length ≤ size) : pc.length ≤ (size + 5) * ops.length := by
  induction ops generalizing pc with
  | nil =>
    rw [instructions_eq_nil.mp h]
    exact Nat.zero_le _
  | cons op ops ih =>
    obtain ⟨pc', hop, hops⟩ := instructions_eq_cons.mp h
    obtain ⟨hop2, hsize'⟩ := List.forall_mem_cons.mp hsize
    obtain ⟨i, -, hvch, rfl⟩ := Instruction.exists_of_getOp hop
    have hrest := ih hops hsize'
    have hbytes : i.bytes.length ≤ i.vch.length + 5 := by
      rw [Instruction.bytes, List.length_cons, List.length_append, Instruction.size]
      split_ifs
      · rw [List.length_nil]
        omega
      · rw [CompactSize.length_writeLE, sizeBytes]
        split_ifs <;> omega
    rw [hvch] at hbytes
    rw [List.length_append, List.length_cons, Nat.mul_succ]
    omega

theorem not_front_push (h : instructions pc = some ops) (hlen : pc.length ≤ 0xffff)
    (hsig : ∀ op ∈ ops, op.2 ≠ sig) : ¬ push sig <+: pc := by
  rintro ⟨rest, rfl⟩
  have hle : sig.length ≤ (push sig).length := by
    rw [push, List.length_append]
    exact Nat.le_add_left _ _
  rw [List.length_append] at hlen
  obtain ⟨opcode, hget, -⟩ := @getOp_push sig (by omega) rest
    (by rw [List.length_append]; omega)
  rw [instructions_op hget] at h
  obtain ⟨ops', -, rfl⟩ := Option.map_eq_some_iff.mp h
  exact hsig (opcode, sig) List.mem_cons_self rfl

variable {script : CScript}

theorem findAndDelete_push (h : instructions script = some ops) (hlen : script.length ≤ 0xffff)
    (hsig : ∀ op ∈ ops, op.2 ≠ sig) : (findAndDelete script (push sig)).2 = script := by
  rw [findAndDelete]
  split
  · rfl
  rename_i hne
  induction ops generalizing script with
  | nil =>
    obtain rfl := instructions_eq_nil.mp h
    rw [findAndDeleteLoop_snd, eraseFront_eq_self hne (not_front_push h hlen hsig)]
    rfl
  | cons op ops ih =>
    obtain ⟨pc', hget, hops⟩ := instructions_eq_cons.mp h
    have hshort := length_getOp hget
    have hloop := ih hops (by omega) fun op' hop' => hsig op' (List.mem_cons_of_mem _ hop')
    obtain ⟨i, -, -, hbytes⟩ := Instruction.exists_of_getOp hget
    rw [findAndDeleteLoop_snd, eraseFront_eq_self hne (not_front_push h hlen hsig), hget]
    dsimp only
    rw [hloop, hbytes, List.length_append, Nat.add_sub_cancel, List.take_left]

/-- **Nothing is deleted from the script code.** -/
theorem dropSignatures_eq (h : instructions script = some ops) (hlen : script.length ≤ 0xffff)
    {sigs : List Valtype} (hsigs : ∀ sig ∈ sigs, ∀ op ∈ ops, op.2 ≠ sig) :
    dropSignatures script sigs = script := by
  induction sigs with
  | nil => rfl
  | cons sig sigs ih =>
    obtain ⟨hsig, hsigs'⟩ := List.forall_mem_cons.mp hsigs
    rw [dropSignatures, List.foldl_cons, findAndDelete_push h hlen hsig]
    exact ih hsigs'

/-- What a multisignature script is made of. -/
theorem multisig_form {vSolutions : List Valtype}
    (h : script.solver = some (.multisig, vSolutions)) :
    ∃ ops, instructions script = some ops ∧ script ≠ [] ∧ script.length ≤ 0xffff ∧
      (∀ op ∈ ops, op.2 = [] ∨ op.2 ∈ multisigKeys vSolutions) ∧
      1 ≤ firstNumber vSolutions ∧ firstNumber vSolutions ≤ (multisigKeys vSolutions).length ∧
      (multisigKeys vSolutions).length ≤ 16 ∧
      vSolutions = [UInt8.ofNat (firstNumber vSolutions)] :: (multisigKeys vSolutions ++
        [[UInt8.ofNat (multisigKeys vSolutions).length]]) := by
  have hrecognised := solver_sound h
  rw [Recognised, if_neg (by decide)] at hrecognised
  obtain ⟨ops, hops, m, n, keys, hm, hmn, hn, hcount, hkeys, hform, rfl⟩ := hrecognised
  have hmultisig : multisigKeys ([UInt8.ofNat m] :: (keys.map Prod.snd ++ [[UInt8.ofNat n]])) =
      keys.map Prod.snd := List.dropLast_concat
  have hfirst : firstNumber ([UInt8.ofNat m] :: (keys.map Prod.snd ++ [[UInt8.ofNat n]])) = m := by
    change (UInt8.ofNat m).toNat = m
    rw [UInt8.toNat_ofNat']
    omega
  have hlength : ops.length = keys.length + 3 := by
    rw [hform]
    simp
  have hdata : ∀ op ∈ ops, op.2 = [] ∨ op ∈ keys := by
    intro op hop
    rw [hform] at hop
    rcases List.mem_cons.mp hop with rfl | hop
    · exact Or.inl rfl
    rcases List.mem_append.mp hop with hop | hop
    · exact Or.inr hop
    · rcases List.mem_pair.mp hop with rfl | rfl
      · exact Or.inl rfl
      · exact Or.inl rfl
  refine ⟨ops, hops, ?_, ?_, ?_, ?_⟩
  · rintro rfl
    rw [Option.some.inj (hops.symm.trans instructions_nil)] at hlength
    exact absurd hlength (by simp)
  · have hsize := length_of_instructions hops 65 fun op hop => by
      rcases hdata op hop with hnil | hkey
      · rw [hnil]
        exact Nat.zero_le _
      · exact (hkeys op hkey).2
    omega
  · intro op hop
    rw [hmultisig]
    exact (hdata op hop).imp_right List.mem_map_of_mem
  · rw [hmultisig, hfirst, List.length_map, hcount]
    exact ⟨hm, hmn, hn, rfl⟩

theorem ofVch_small {n : Nat} (hlow : 1 ≤ n) (hhigh : n ≤ 16) (fRequireMinimal : Bool) :
    CScriptNum.ofVch [UInt8.ofNat n] fRequireMinimal = .ok (n : Int) := by
  interval_cases n <;> cases fRequireMinimal <;> rfl

section

variable {check : Valtype → Valtype → CScript → Bool} {script : CScript}
  {vSolutions sigs1 sigs2 chosen : List Valtype}

theorem Merged.assigned (h : Merged check script vSolutions sigs1 sigs2 chosen) :
    Assigned (fun sig pubkey => check sig pubkey script) chosen (multisigKeys vSolutions) :=
  assigned_iff.mpr ⟨_, (List.take_sublist _ _).trans List.filter_sublist,
    h.imp fun _ _ hsigned => hsigned.2.2⟩

theorem Merged.length_eq (h : Merged check script vSolutions sigs1 sigs2 chosen) :
    chosen.length = min (firstNumber vSolutions)
      (signedKeys check script (multisigKeys vSolutions) sigs1 sigs2).length := by
  rw [List.Forall₂.length_eq h, List.length_take]

theorem Merged.signed (h : Merged check script vSolutions sigs1 sigs2 chosen) {sig : Valtype}
    (hsig : sig ∈ chosen) :
    sig ≠ [] ∧ ∃ pubkey ∈ multisigKeys vSolutions, check sig pubkey script = true := by
  obtain ⟨i, hi, rfl⟩ := List.getElem_of_mem hsig
  obtain ⟨hlen, hget⟩ := List.forall₂_iff_get.mp h
  obtain ⟨-, hne, hcheck⟩ := hget i hi (hlen ▸ hi)
  exact ⟨hne, _, List.mem_of_mem_filter (List.mem_of_mem_take (List.getElem_mem _)), hcheck⟩

/-- **What is complete passes**, if no signature is a key: it would be deleted from the script. -/
theorem Merged.passes (h : Merged check script vSolutions sigs1 sigs2 chosen)
    (hscript : script.solver = some (.multisig, vSolutions))
    (hkeys : ∀ sig ∈ chosen, sig ∉ multisigKeys vSolutions)
    (hcomplete : firstNumber vSolutions ≤
      (signedKeys check script (multisigKeys vSolutions) sigs1 sigs2).length)
    {env : ScriptEnv} (henv : env.checkSig = check) {s : EvalState}
    (hcode : s.pbegincodehash = script) {below : List Valtype}
    (hstack : s.stack = below ++ (padded (firstNumber vSolutions) chosen ++ vSolutions))
    (hops : s.nOpCount + (multisigKeys vSolutions).length ≤ 201)
    (henc : EncodingsPass env chosen (multisigKeys vSolutions)) :
    ∃ c, exec (opCheckMultiSig env OP_CHECKMULTISIG) s = (.ok (), { s with
      stack := below ++ [vchTrue]
      nOpCount := s.nOpCount + (multisigKeys vSolutions).length
      checks := c }) := by
  obtain ⟨ops, hinstructions, -, hsize, hdata, hm, hmn, hn, hsolutions⟩ := multisig_form hscript
  have hlength : chosen.length = firstNumber vSolutions := by
    rw [h.length_eq, Nat.min_eq_left hcomplete]
  have harguments : s.stack = below ++ multisigArguments [] chosen
      [UInt8.ofNat (firstNumber vSolutions)] (multisigKeys vSolutions)
      [UInt8.ofNat (multisigKeys vSolutions).length] := by
    have hpadded : padded (firstNumber vSolutions) chosen = [] :: chosen := by
      rw [padded, hlength, Nat.sub_self, List.replicate_zero, List.append_nil]
    rw [hstack, hpadded, multisigArguments]
    conv_lhs => rw [hsolutions]
    simp
  have hcodehash : dropSignatures s.pbegincodehash chosen.reverse = script := by
    rw [hcode]
    refine dropSignatures_eq hinstructions hsize fun sig hsig op hop => ?_
    rintro rfl
    have hmem := List.mem_reverse.mp hsig
    exact (hdata op hop).elim (h.signed hmem).1 (hkeys _ hmem)
  have hverified : verifiedBy env s chosen = fun sig pubkey => check sig pubkey script := by
    funext sig pubkey
    rw [verifiedBy, henv, hcodehash]
  obtain ⟨fSuccess, c, hexec, hiff⟩ := opCheckMultiSig_matches harguments
    (ofVch_small (by omega) hn _) (by rw [hlength]; exact ofVch_small hm (by omega) _) (by omega)
    hops (fun _ => rfl) henc (by omega)
  rw [hverified] at hiff
  rw [hiff.mpr h.assigned] at hexec
  exact ⟨c, hexec⟩

end

end CScript

open CScript

/--
**Combining loses no signature.** Of a multisignature script, bare or redeemed by the hash of
a script that ends both stacks, the result has one valid signature for each of the first keys
that either stack has one for, in the order of the keys, and an empty one for each that is
missing; whichever stack comes first. What is complete passes `OP_CHECKMULTISIG`, unless one of
the signatures is itself a key. Next to a stack without a script, the other one is returned.
-/
theorem combineStacks_keeps_signatures {check : Valtype → Valtype → CScript → Bool}
    {script : CScript} {vSolutions : List Valtype}
    (hscript : script.solver = some (.multisig, vSolutions))
    (hone : OneKeyEach check script (multisigKeys vSolutions)) (sigs1 sigs2 : List Valtype) :
    (∃ chosen, Merged check script vSolutions sigs1 sigs2 chosen ∧
      (combineStacks check script .multisig vSolutions sigs1 sigs2 =
          pushAll (padded (firstNumber vSolutions) chosen) ∧
        combineStacks check script .multisig vSolutions sigs2 sigs1 =
          pushAll (padded (firstNumber vSolutions) chosen)) ∧
      (∀ scriptPubKey vSolutions',
        combineStacks check scriptPubKey .scripthash vSolutions' (sigs1 ++ [script])
            (sigs2 ++ [script]) =
          pushAll (padded (firstNumber vSolutions) chosen ++ [script]) ∧
        combineStacks check scriptPubKey .scripthash vSolutions' (sigs2 ++ [script])
            (sigs1 ++ [script]) =
          pushAll (padded (firstNumber vSolutions) chosen ++ [script])) ∧
      (firstNumber vSolutions ≤
          (signedKeys check script (multisigKeys vSolutions) sigs1 sigs2).length →
        (∀ sig ∈ chosen, sig ∉ multisigKeys vSolutions) →
        ∀ (env : ScriptEnv) (s : EvalState) (below : List Valtype), env.checkSig = check →
          s.pbegincodehash = script →
          s.stack = below ++ (padded (firstNumber vSolutions) chosen ++ vSolutions) →
          s.nOpCount + (multisigKeys vSolutions).length ≤ 201 →
          EncodingsPass env chosen (multisigKeys vSolutions) →
          ∃ c, exec (opCheckMultiSig env OP_CHECKMULTISIG) s = (.ok (), { s with
            stack := below ++ [vchTrue]
            nOpCount := s.nOpCount + (multisigKeys vSolutions).length
            checks := c }))) ∧
    ∀ scriptPubKey vSolutions',
      (Blank sigs1 → combineStacks check scriptPubKey .scripthash vSolutions' sigs1 sigs2
        = pushAll sigs2) ∧
      (¬ Blank sigs1 → Blank sigs2 →
        combineStacks check scriptPubKey .scripthash vSolutions' sigs1 sigs2 = pushAll sigs1) := by
  have hmerged : Merged check script vSolutions sigs1 sigs2
      (chosenSigs check script vSolutions sigs1 sigs2) := merged_chosenSigs hone
  have hne : script ≠ [] := by
    obtain ⟨_, -, hne, -⟩ := multisig_form hscript
    exact hne
  refine ⟨⟨_, hmerged, ⟨combineStacks_multisig _, ?_⟩,
    fun scriptPubKey vSolutions' => ⟨?_, ?_⟩, ?_⟩, fun _ _ => combineStacks_blank⟩
  · rw [chosenSigs_comm]
    exact combineStacks_multisig _
  · exact combineStacks_scripthash hscript hne scriptPubKey vSolutions'
  · rw [chosenSigs_comm]
    exact combineStacks_scripthash hscript hne scriptPubKey vSolutions'
  · intro hcomplete hkeys env s below henv hcode hstack hops henc
    exact hmerged.passes hscript hkeys hcomplete henv hcode hstack hops henc

/-- What `CombineSignatures` gets from a script that holds signatures. -/
def signatureStack (env : ScriptEnv) (scriptSig : CScript) : List Valtype :=
  (evalScript { env with flags := SCRIPT_VERIFY_STRICTENC, checkSig := fun _ _ _ => false } []
    scriptSig).2.stack

/-- **Of two scripts**, the signatures on the stacks they leave are combined. -/
theorem combineSignatures_multisig (env : ScriptEnv) (verify : Valtype → Valtype → Valtype → Bool)
    (txTo : CTransaction) (nIn : Nat) {script : CScript} {vSolutions : List Valtype}
    (hscript : script.solver = some (.multisig, vSolutions))
    (hone : OneKeyEach (checkSig env verify txTo nIn) script (multisigKeys vSolutions))
    (scriptSig1 scriptSig2 : CScript) :
    ∃ chosen, Merged (checkSig env verify txTo nIn) script vSolutions
        (signatureStack env scriptSig1) (signatureStack env scriptSig2) chosen ∧
      combineSignatures env verify txTo nIn script scriptSig1 scriptSig2 =
        pushAll (padded (firstNumber vSolutions) chosen) ∧
      combineSignatures env verify txTo nIn script scriptSig2 scriptSig1 =
        pushAll (padded (firstNumber vSolutions) chosen) := by
  have hstacks : ∀ scriptSig scriptSig', combineSignatures env verify txTo nIn script scriptSig
      scriptSig' = combineStacks (checkSig env verify txTo nIn) script .multisig vSolutions
        (signatureStack env scriptSig) (signatureStack env scriptSig') := by
    intro scriptSig scriptSig'
    rw [combineSignatures, solved, hscript]
    rfl
  refine ⟨_, merged_chosenSigs hone, ?_, ?_⟩
  · rw [hstacks, combineStacks_multisig]
  · rw [hstacks, combineStacks_multisig, chosenSigs_comm]

section Sample

def sampleKeys : List Valtype := [2 :: List.replicate 32 0, 3 :: List.replicate 32 0]

def sampleMultisig : CScript := scriptForMultisig 2 sampleKeys

def sampleSolutions : List Valtype := [[2], 2 :: List.replicate 32 0, 3 :: List.replicate 32 0, [2]]

/-- The key and its signature have the first byte in common. -/
def sampleCheck (sig pubkey : Valtype) (_ : CScript) : Bool :=
  sig.length == 1 && sig.head? == pubkey.head?

theorem solver_sampleMultisig : sampleMultisig.solver = some (.multisig, sampleSolutions) :=
  solver_scriptForMultisig (by decide) (by decide) (by decide) (by decide)

theorem oneKeyEach_sample :
    OneKeyEach sampleCheck sampleMultisig (multisigKeys sampleSolutions) := by
  intro sig pubkey hpubkey pubkey' hpubkey' h h'
  obtain ⟨-, hhead⟩ := (Bool.and_eq_true _ _).mp h
  obtain ⟨-, hhead'⟩ := (Bool.and_eq_true _ _).mp h'
  have hsame : pubkey.head? = pubkey'.head? := (beq_iff_eq.mp hhead).symm.trans
    (beq_iff_eq.mp hhead')
  rcases List.mem_pair.mp hpubkey with rfl | rfl <;>
    rcases List.mem_pair.mp hpubkey' with rfl | rfl
  · rfl
  · exact absurd hsame (by decide)
  · exact absurd hsame (by decide)
  · rfl

/-- Each of the two stacks has one of the signatures; and next to an empty stack. -/
theorem combineStacks_keeps_signatures_two :
    (∃ chosen, combineStacks sampleCheck sampleMultisig .multisig sampleSolutions [[], [3]]
        [[], [2]] = pushAll (padded 2 chosen) ∧
      ∃ c, exec (opCheckMultiSig { equalityEnv with checkSig := sampleCheck } OP_CHECKMULTISIG)
        { stack := padded 2 chosen ++ sampleSolutions, pbegincodehash := sampleMultisig } =
        (.ok (),
          { stack := [vchTrue], nOpCount := 2, pbegincodehash := sampleMultisig, checks := c })) ∧
    combineStacks sampleCheck [] .scripthash [] [] [[], [2], sampleMultisig] =
      pushAll [[], [2], sampleMultisig] := by
  constructor
  · obtain ⟨⟨chosen, hmerged, ⟨hcombine, -⟩, -, hpass⟩, -⟩ :=
      combineStacks_keeps_signatures solver_sampleMultisig oneKeyEach_sample [[], [3]] [[], [2]]
    have hkeys : ∀ sig ∈ chosen, sig ∉ multisigKeys sampleSolutions := by
      intro sig hsig hmem
      obtain ⟨-, pubkey, -, hcheck⟩ := hmerged.signed hsig
      obtain ⟨hlength, -⟩ := (Bool.and_eq_true _ _).mp hcheck
      rcases List.mem_pair.mp hmem with rfl | rfl
      · exact absurd hlength (by decide)
      · exact absurd hlength (by decide)
    exact ⟨chosen, hcombine, hpass (by decide) hkeys { equalityEnv with checkSig := sampleCheck }
      { stack := padded 2 chosen ++ sampleSolutions, pbegincodehash := sampleMultisig } [] rfl rfl
      rfl (show (0 : Int) + ((2 : Nat) : Int) ≤ 201 by decide) (Or.inl rfl)⟩
  · exact ((combineStacks_keeps_signatures solver_sampleMultisig oneKeyEach_sample []
      [[], [2], sampleMultisig]).2 [] []).1 (Or.inl rfl)

/-- The only key of a script, which is also the only signature that verifies for it there. -/
def selfKey : Valtype := 2 :: List.replicate 32 0

def selfMultisig : CScript := scriptForMultisig 1 [selfKey]

def selfCheck (sig pubkey : Valtype) (scriptCode : CScript) : Bool :=
  sig == selfKey && pubkey == selfKey && scriptCode == selfMultisig

def selfSolutions : List Valtype := [[1], selfKey, [1]]

/-- `OP_CHECKMULTISIG` deletes the signature from the script, and the key with it. -/
theorem selfMultisig_fails : selfMultisig.solver = some (.multisig, selfSolutions) ∧
      OneKeyEach selfCheck selfMultisig (multisigKeys selfSolutions) ∧
      Merged selfCheck selfMultisig selfSolutions [[], selfKey] [] [selfKey] ∧
      (exec (opCheckMultiSig { equalityEnv with checkSig := selfCheck } OP_CHECKMULTISIG)
        { stack := padded 1 [selfKey] ++ selfSolutions, pbegincodehash := selfMultisig }).2.stack
        = [vchFalse] := by
  refine ⟨solver_scriptForMultisig (by decide) (by decide) (by decide) (by decide), ?_, ?_,
    by decide +kernel⟩
  · intro sig pubkey hpubkey pubkey' hpubkey' _ _
    rw [List.mem_singleton.mp hpubkey, List.mem_singleton.mp hpubkey']
  · have hkeys : (signedKeys selfCheck selfMultisig (multisigKeys selfSolutions) [[], selfKey]
        []).take (firstNumber selfSolutions) = [selfKey] := by decide
    rw [Merged, hkeys]
    exact .cons ⟨Or.inl (by decide), by decide, by decide⟩ .nil

/-- Next to an empty stack, a stack that ends with the script is taken as it is: what is missing is
not filled up. And what is complete does not pass if the signature is a key of the script. -/
theorem combineStacks_keeps_incomplete :
    (¬ ∀ (check : Valtype → Valtype → CScript → Bool) (script : CScript)
      (vSolutions : List Valtype), script.solver = some (.multisig, vSolutions) →
      OneKeyEach check script (multisigKeys vSolutions) → (multisigKeys vSolutions).Nodup →
      ∀ (scriptPubKey : CScript) (vSolutions' sigs1 sigs2 : List Valtype),
        sigs2.getLast? = some script →
        ∃ chosen, Merged check script vSolutions sigs1 sigs2 chosen ∧
          combineStacks check scriptPubKey .scripthash vSolutions' sigs1 sigs2 =
            pushAll (padded (firstNumber vSolutions) chosen ++ [script])) ∧
    ¬ ∀ (check : Valtype → Valtype → CScript → Bool) (script : CScript)
      (vSolutions : List Valtype), script.solver = some (.multisig, vSolutions) →
      OneKeyEach check script (multisigKeys vSolutions) → (multisigKeys vSolutions).Nodup →
      ∀ sigs1 sigs2 chosen, Merged check script vSolutions sigs1 sigs2 chosen →
        firstNumber vSolutions ≤
          (signedKeys check script (multisigKeys vSolutions) sigs1 sigs2).length →
        ∀ (env : ScriptEnv) (s : EvalState), env.checkSig = check → s.pbegincodehash = script →
          s.stack = padded (firstNumber vSolutions) chosen ++ vSolutions →
          s.nOpCount + (multisigKeys vSolutions).length ≤ 201 →
          EncodingsPass env chosen (multisigKeys vSolutions) →
          (exec (opCheckMultiSig env OP_CHECKMULTISIG) s).2.stack = [vchTrue] := by
  refine ⟨fun hall => ?_, fun hall => ?_⟩
  · obtain ⟨chosen, hmerged, hcombine⟩ := hall sampleCheck sampleMultisig sampleSolutions
      solver_sampleMultisig oneKeyEach_sample (by decide) [] [] [] [[], [2], sampleMultisig] rfl
    have hkeys : (signedKeys sampleCheck sampleMultisig (multisigKeys sampleSolutions) []
        [[], [2], sampleMultisig]).take (firstNumber sampleSolutions) =
        [2 :: List.replicate 32 0] := by decide
    rw [Merged, hkeys] at hmerged
    cases hmerged with
    | cons hsigned hrest =>
      cases hrest with
      | nil =>
        obtain ⟨hmem, hne, hcheck⟩ := hsigned
        obtain ⟨hlength, -⟩ := (Bool.and_eq_true _ _).mp hcheck
        rename_i sig
        have hone : sig.length = 1 := beq_iff_eq.mp hlength
        have hpush : (push sig).length = 2 := by rw [length_push (by omega), hone]
        have hpadded : padded (firstNumber sampleSolutions) [sig] ++ [sampleMultisig] =
            [[], sig, [], sampleMultisig] := rfl
        rw [combineStacks, dif_pos (Or.inl rfl), hpadded] at hcombine
        have hsize := congrArg List.length hcombine
        have hlonger : (pushAll [[], sig, [], sampleMultisig]).length = 76 := by
          rw [pushAll_cons, pushAll_cons, List.length_append, List.length_append, hpush]
          decide
        rw [hlonger] at hsize
        exact absurd hsize (by decide)
  · obtain ⟨hsolver, hone, hmerged, hfails⟩ := selfMultisig_fails
    have hpasses := hall selfCheck selfMultisig selfSolutions hsolver hone (by decide) _ _ _ hmerged
      (by decide) { equalityEnv with checkSig := selfCheck }
      { stack := padded 1 [selfKey] ++ selfSolutions, pbegincodehash := selfMultisig } rfl rfl rfl
      (show (0 : Int) + ((1 : Nat) : Int) ≤ 201 by decide) (Or.inl rfl)
    rw [hfails] at hpasses
    exact absurd hpasses (by decide)

end Sample

end BitBlocks
