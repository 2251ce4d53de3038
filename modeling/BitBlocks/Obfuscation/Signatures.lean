import BitBlocks.Obfuscation.Sessions

/-!
# The signatures of a mixing session

`AddScriptSig` refuses a signature that an input of the pool already has, and then asks
`SignatureValid`, which looks for the input by an equality that includes the signature. So
it never finds one, and what it does not find is valid: no signature is ever verified. What
follows says which signatures would have to be sent for the final transaction to come out
right. A signature does not commit to other signatures, so those that are right when they
come stay right.
-/

namespace BitBlocks

open Checks CObfuScationEntry

namespace PoolState

variable {R : PoolRules} {script : COutPoint → CScript} {env : PoolEnv} {s : PoolState}
  {newVin : CTxIn}

/-! ## No signature is looked at -/

theorem findInput_eq_none {sevs : List CTxDSIn} (h : ∀ i ∈ sevs, i.toCTxIn ≠ newVin) :
    findInput newVin sevs = none := by
  unfold findInput
  generalize 0 = k
  induction sevs generalizing k with
  | nil => rfl
  | cons i sevs ih =>
    rw [List.zipIdx_cons, List.foldl_cons, if_neg (h i List.mem_cons_self)]
    exact ih (fun j hj => h j (List.mem_cons_of_mem i hj)) (k + 1)

/-- **Where `AddScriptSig` asks whether a signature is valid, every signature is.** -/
theorem signatureValid_of_new (R : PoolRules) (h : ∀ i ∈ s.inputs, i.scriptSig ≠ newVin.scriptSig) :
    s.signatureValid R newVin.scriptSig newVin = true := by
  have hnone : findInput newVin s.inputs = none := by
    refine findInput_eq_none fun i hi heq => h i hi ?_
    rw [← heq]
  unfold signatureValid
  rw [hnone]

variable {i : CTxDSIn} {txin : CTxIn} {sev sev' : List CTxDSIn} {result : List CTxDSIn × Bool}
  {vin sigs : List CTxIn} {s' : PoolState} {nVersion : Int} {x : PoolEnv × PoolEvent}
  {events : List (PoolEnv × PoolEvent)}

theorem addScriptSig_of_old (R : PoolRules) (hi : i ∈ s.inputs)
    (h : i.scriptSig = newVin.scriptSig) :
    s.addScriptSig R newVin = (s, false) := by
  have hany : (s.inputs.any fun i => i.scriptSig == newVin.scriptSig) = true := by
    rw [List.any_eq_true]
    exact ⟨i, hi, by simp [h]⟩
  unfold addScriptSig
  rw [if_pos hany]

theorem addScriptSig_of_new (R : PoolRules) (h : ∀ i ∈ s.inputs, i.scriptSig ≠ newVin.scriptSig) :
    s.addScriptSig R newVin =
      ({ s with
        finalTransaction :=
          { s.finalTransaction with vin := setScriptSig newVin s.finalTransaction.vin }
        entries := (addSigs newVin s.entries).1 }, (addSigs newVin s.entries).2) := by
  have hany : ¬ (s.inputs.any fun i => i.scriptSig == newVin.scriptSig) = true := by
    simp only [List.any_eq_true, beq_iff_eq, not_exists, not_and]
    exact h
  unfold addScriptSig
  rw [if_neg hany, if_neg (by rw [signatureValid_of_new R h]; simp)]

/-! ## Which input takes a signature -/

def key (txin : CTxIn) : COutPoint × Nat := (txin.prevout, txin.nSequence)

theorem sameInput_iff {txin' : CTxIn} : sameInput txin txin' = true ↔ key txin = key txin' := by
  simp [sameInput, key, Prod.ext_iff]

def signed (newVin : CTxIn) (i : CTxDSIn) : CTxDSIn :=
  { i with scriptSig := newVin.scriptSig, prevPubKey := newVin.prevPubKey, fHasSig := true }

/-- The first of two lists of inputs becomes the second when a signature is added. -/
inductive Added (newVin : CTxIn) (sev : List CTxDSIn) : List CTxDSIn × Bool → Prop
  | unknown (h : ∀ i ∈ sev, key i.toCTxIn ≠ key newVin) : Added newVin sev (sev, false)
  | taken (i : CTxDSIn) (hi : i ∈ sev) (hkey : key i.toCTxIn = key newVin) (h : i.fHasSig = true) :
      Added newVin sev (sev, false)
  | added (l r : List CTxDSIn) (i : CTxDSIn) (hsev : sev = l ++ i :: r)
      (hkey : key i.toCTxIn = key newVin) (h : i.fHasSig = false) :
      Added newVin sev (l ++ signed newVin i :: r, true)

theorem added_addSigLoop (newVin : CTxIn) (sev : List CTxDSIn) :
    Added newVin sev (addSigLoop newVin sev) := by
  induction sev with
  | nil => exact .unknown fun i hi => absurd hi (by simp)
  | cons i sev ih =>
    rw [addSigLoop]
    split_ifs with hsame hsig
    · exact .taken i List.mem_cons_self (sameInput_iff.mp hsame) hsig
    · exact .added [] sev i rfl (sameInput_iff.mp hsame) (by simpa using hsig)
    · have hne : key i.toCTxIn ≠ key newVin := fun h => hsame (sameInput_iff.mpr h)
      generalize addSigLoop newVin sev = result at ih
      cases ih with
      | unknown h =>
        refine .unknown fun j hj => ?_
        rcases List.mem_cons.mp hj with rfl | hj
        · exact hne
        · exact h j hj
      | taken j hj hkey h => exact .taken j (List.mem_cons_of_mem i hj) hkey h
      | added l r j hsev hkey h => exact .added (i :: l) r j (by rw [hsev]; rfl) hkey h

theorem Added.fst_eq (h : Added newVin sev (sev', false)) : sev' = sev := by
  cases h <;> rfl

theorem Added.append_right (h : Added newVin sev (sev', true)) (rest : List CTxDSIn) :
    Added newVin (sev ++ rest) (sev' ++ rest, true) := by
  cases h with
  | added l r i hsev hkey hi =>
    rw [List.append_assoc]
    exact .added l (r ++ rest) i (by rw [hsev, List.append_assoc]; rfl) hkey hi

theorem Added.append_left {rest : List CTxDSIn} (h : Added newVin sev (sev, false))
    (h' : Added newVin rest result) : Added newVin (sev ++ rest) (sev ++ result.1, result.2) := by
  cases h' with
  | unknown hrest =>
    generalize hr : (sev, false) = r at h
    cases h with
    | unknown hsev =>
      refine .unknown fun i hi => ?_
      rcases List.mem_append.mp hi with hi | hi
      · exact hsev i hi
      · exact hrest i hi
    | taken i hi hkey hsig => exact .taken i (List.mem_append_left rest hi) hkey hsig
    | added l r i hsev hkey hsig => exact absurd (Prod.mk.inj hr).2 (by simp)
  | taken i hi hkey hsig => exact .taken i (List.mem_append_right sev hi) hkey hsig
  | added l r i hrest hkey hsig =>
    have hadded : Added newVin (sev ++ rest) (sev ++ l ++ signed newVin i :: r, true) :=
      .added (sev ++ l) r i (by rw [hrest, List.append_assoc]) hkey hsig
    rwa [List.append_assoc] at hadded

theorem added_addSigs (newVin : CTxIn) (entries : List CObfuScationEntry) :
    Added newVin (entries.flatMap (·.sev))
      ((addSigs newVin entries).1.flatMap (·.sev), (addSigs newVin entries).2) := by
  induction entries with
  | nil => exact .unknown fun i hi => absurd hi (by simp)
  | cons v entries ih =>
    have hv : Added newVin v.sev ((v.addSig newVin).1.sev, (v.addSig newVin).2) :=
      added_addSigLoop newVin v.sev
    rw [addSigs]
    cases hsig : (v.addSig newVin).2 with
    | true =>
      rw [hsig] at hv
      exact hv.append_right _
    | false =>
      rw [hsig] at hv
      have hsev := hv.fst_eq
      rw [hsev] at hv
      simp only [Bool.false_eq_true, if_false, List.flatMap_cons, hsev]
      exact hv.append_left ih

theorem length_addSigs (newVin : CTxIn) (entries : List CObfuScationEntry) :
    (addSigs newVin entries).1.length = entries.length := by
  have := congrArg List.length (map_addSigs newVin entries)
  simpa using this

theorem addSigs_of_false {entries : List CObfuScationEntry}
    (h : (addSigs newVin entries).2 = false) :
    (addSigs newVin entries).1 = entries := by
  induction entries with
  | nil => rfl
  | cons v entries ih =>
    have hv : Added newVin v.sev ((v.addSig newVin).1.sev, (v.addSig newVin).2) :=
      added_addSigLoop newVin v.sev
    rw [addSigs] at h ⊢
    cases hsig : (v.addSig newVin).2 with
    | true =>
      rw [hsig] at h
      exact absurd h (by simp)
    | false =>
      rw [hsig] at h hv
      simp only [Bool.false_eq_true, if_false] at h ⊢
      have heq : (v.addSig newVin).1 = v := by
        have hsev : (addSigLoop newVin v.sev).1 = v.sev := hv.fst_eq
        rw [addSig, hsev]
      rw [heq, ih h]

/-! ## The final transaction -/

theorem key_signed (newVin : CTxIn) (i : CTxDSIn) : key (signed newVin i).toCTxIn = key i.toCTxIn :=
  rfl

theorem getElem?_setScriptSig {n : Nat} (h : (setScriptSig newVin vin)[n]? = some txin) :
    ∃ txin0, vin[n]? = some txin0 ∧ key txin = key txin0 ∧
      txin.scriptSig = if key txin0 = key newVin then newVin.scriptSig else txin0.scriptSig := by
  unfold setScriptSig at h
  rw [List.getElem?_map] at h
  obtain ⟨txin0, htxin0, rfl⟩ := Option.map_eq_some_iff.mp h
  refine ⟨txin0, htxin0, ?_⟩
  have hiff : (newVin.prevout = txin0.prevout ∧ txin0.nSequence = newVin.nSequence) ↔
      key txin0 = key newVin := by
    rw [key, key, Prod.mk.injEq]
    exact ⟨fun h => ⟨h.1.symm, h.2⟩, fun h => ⟨h.1.symm, h.2⟩⟩
  by_cases hkey : key txin0 = key newVin
  · rw [if_pos (hiff.mpr hkey), if_pos hkey]
    exact ⟨rfl, rfl⟩
  · rw [if_neg (fun hc => hkey (hiff.mp hc)), if_neg hkey]
    exact ⟨rfl, rfl⟩

theorem map_key_setScriptSig (newVin : CTxIn) (vin : List CTxIn) :
    (setScriptSig newVin vin).map key = vin.map key := by
  unfold setScriptSig
  rw [List.map_map]
  refine List.map_congr_left fun txin _ => ?_
  rw [Function.comp_apply]
  split <;> rfl

theorem setScriptSig_of_unknown (h : ∀ txin ∈ vin, key txin ≠ key newVin) :
    setScriptSig newVin vin = vin := by
  unfold setScriptSig
  refine (List.map_congr_left fun txin hmem => ?_).trans (List.map_id vin)
  rw [if_neg]
  · rfl
  · intro ⟨hprevout, hseq⟩
    exact h txin hmem (by rw [key, key, hprevout, hseq])

/-- **Signatures elsewhere do not matter** to whether an input verifies. -/
theorem verifies_setScriptSig (tx : CMutableTransaction) (newVin : CTxIn) (n : Nat)
    (scriptSig scriptPubKey : CScript) :
    verifies R { tx with vin := setScriptSig newVin tx.vin } n scriptSig scriptPubKey =
      verifies R tx n scriptSig scriptPubKey := by
  have hblank : (CMutableTransaction.toTransaction
      { tx with vin := setScriptSig newVin tx.vin } 0).blank = (tx.toTransaction 0).blank := by
    have hvin : (setScriptSig newVin tx.vin).map CTxIn.blank = tx.vin.map CTxIn.blank := by
      unfold setScriptSig
      rw [List.map_map]
      refine List.map_congr_left fun txin _ => ?_
      rw [Function.comp_apply]
      split <;> rfl
    simp only [CTransaction.blank, CMutableTransaction.toTransaction, hvin]
  have hchecker : checker R { tx with vin := setScriptSig newVin tx.vin } n = checker R tx n := by
    unfold checker
    rw [← ScriptEnv.checker_blank, hblank, ScriptEnv.checker_blank]
  unfold verifies
  rw [hchecker]

/-! ## What mixing promises -/

/-- The input of the final transaction that a pool input is, has a signature that verifies. -/
def InputVerifies (R : PoolRules) (script : COutPoint → CScript) (s : PoolState) (i : CTxDSIn) :
    Prop :=
  (∃ txin ∈ s.finalTransaction.vin, key txin = key i.toCTxIn) ∧
    ∀ n txin, s.finalTransaction.vin[n]? = some txin → key txin = key i.toCTxIn →
      verifies R s.finalTransaction n txin.scriptSig (script i.prevout) = true

/-- Every input that counts as signed verifies. -/
def SignedVerify (R : PoolRules) (script : COutPoint → CScript) (s : PoolState) : Prop :=
  ∀ i ∈ s.inputs, i.fHasSig = true → InputVerifies R script s i

/-- When all signatures are there, the final transaction has its scripts valid. -/
def CompleteVerifies (R : PoolRules) (script : COutPoint → CScript) (s : PoolState) : Prop :=
  s.signaturesComplete = true → ∀ n txin, s.finalTransaction.vin[n]? = some txin →
    verifies R s.finalTransaction n txin.scriptSig (script txin.prevout) = true

/-- The signature makes the inputs of the final transaction that it names verify. -/
def ValidFor (R : PoolRules) (script : COutPoint → CScript) (s : PoolState) (newVin : CTxIn) :
    Prop :=
  (∃ txin ∈ s.finalTransaction.vin, key txin = key newVin) ∧
    ∀ n txin, s.finalTransaction.vin[n]? = some txin → key txin = key newVin →
      verifies R s.finalTransaction n newVin.scriptSig (script newVin.prevout) = true

/-- A signature that an input has already, or for an input that is not in the pool, or valid. -/
def Harmless (R : PoolRules) (script : COutPoint → CScript) (s : PoolState) (newVin : CTxIn) :
    Prop :=
  (∃ i ∈ s.inputs, i.scriptSig = newVin.scriptSig) ∨
    (∀ i ∈ s.inputs, key i.toCTxIn ≠ key newVin) ∨ ValidFor R script s newVin

/-- Every signature of the event meets the condition when its turn comes. -/
def EverySignature (R : PoolRules) (C : PoolState → CTxIn → Prop) (s : PoolState)
    (x : PoolEnv × PoolEvent) : Prop :=
  match x.2 with
  | .dss nVersion sigs =>
    x.1.fActive = true → ¬ nVersion < x.1.nActiveProtocol →
      Machine.EveryStep (fun s newVin => some (s.addScriptSig R newVin).1) C s sigs
  | _ => True

/-- An invalid signature does not change the pool. -/
def Ignored (R : PoolRules) (script : COutPoint → CScript) (s : PoolState) (newVin : CTxIn) :
    Prop :=
  ¬ ValidFor R script s newVin → (s.addScriptSig R newVin).1 = s

/-- What counts as signed verifies, and the final transaction if all of it is signed. -/
structure Sound (R : PoolRules) (script : COutPoint → CScript) (s : PoolState) : Prop where
  signed : SignedVerify R script s
  complete : CompleteVerifies R script s

/-- An invalid signature is ignored, and the pool is sound after any. -/
def Safe (R : PoolRules) (script : COutPoint → CScript) (s : PoolState) (newVin : CTxIn) : Prop :=
  Ignored R script s newVin ∧ Sound R script (s.addScriptSig R newVin).1

/-- The pool as it is when `Check` asks whether all signatures are there. -/
def asked (R : PoolRules) (s : PoolState) (x : PoolEnv × PoolEvent) : Option PoolState :=
  match x.2 with
  | .dsi nVersion vin nAmount txCollateral vout =>
    if x.1.fActive then
      match s.checkEntry R x.1 nVersion vin vout,
        s.addEntry R x.1 vin nAmount txCollateral vout with
      | .ok (), (s, .ok _) => some ((s.checkEntries R x.1).finalize x.1)
      | _, _ => none
    else none
  | .dss nVersion sigs =>
    if x.1.fActive = true ∧ ¬ nVersion < x.1.nActiveProtocol ∧
      (s.addScriptSigs R sigs).2 = true then
      some (((s.addScriptSigs R sigs).1.checkEntries R x.1).finalize x.1)
    else none
  | _ => none

/-! ## The invariant -/

/-- The final transaction has been made. -/
def Built (s : PoolState) : Prop := s.state = .SIGNING ∨ s.state = .TRANSMISSION

/-- What holds of the pool as long as only harmless signatures come. -/
structure Merged (R : PoolRules) (script : COutPoint → CScript) (s : PoolState) : Prop where
  /-- A refused entry takes one user off a session that is full. -/
  users : s.entries ≠ [] → R.nPoolMaxTransactions - 1 ≤ s.sessionUsers
  passing : s.state ≠ .FINALIZE_TRANSACTION ∧ s.state ≠ .ERROR ∧ s.state ≠ .SUCCESS
  unbuilt : ¬ s.Built → s.finalTransaction.vin = [] ∧ ∀ i ∈ s.inputs, i.fHasSig = false
  full : s.Built → R.nPoolMaxTransactions ≤ s.entries.length
  keys : s.Built → (s.finalTransaction.vin.map key).Perm (s.inputs.map fun i => key i.toCTxIn)
  signed : SignedVerify R script s

/-- The states in which the session is waiting for users and entries. -/
def Early (s : PoolState) : Prop :=
  s.state = .IDLE ∨ s.state = .QUEUE ∨ s.state = .ACCEPTING_ENTRIES

theorem Early.not_built (h : s.Early) : ¬ s.Built := by
  intro hbuilt
  rcases hbuilt with h' | h' <;> rcases h with h | h | h <;> simp [h] at h'

theorem Early.passing (h : s.Early) :
    s.state ≠ .FINALIZE_TRANSACTION ∧ s.state ≠ .ERROR ∧ s.state ≠ .SUCCESS := by
  rcases h with h | h | h <;> simp [h]

theorem early_setNull (s : PoolState) (env : PoolEnv) : (s.setNull env).Early := Or.inl rfl

theorem early_accepting (s : PoolState) (env : PoolEnv) :
    (s.updateState env .ACCEPTING_ENTRIES).Early :=
  Or.inr (Or.inr (updateState_state (by simp) (by simp)))

theorem Merged.of_unbuilt (husers : s.entries ≠ [] → R.nPoolMaxTransactions - 1 ≤ s.sessionUsers)
    (hpassing : s.state ≠ .FINALIZE_TRANSACTION ∧ s.state ≠ .ERROR ∧ s.state ≠ .SUCCESS)
    (hbuilt : ¬ s.Built) (hvin : s.finalTransaction.vin = [])
    (hsig : ∀ i ∈ s.inputs, i.fHasSig = false) : Merged R script s where
  users := husers
  passing := hpassing
  unbuilt := fun _ => ⟨hvin, hsig⟩
  full := fun h => absurd h hbuilt
  keys := fun h => absurd h hbuilt
  signed := by
    intro i hi h
    rw [hsig i hi] at h
    exact absurd h (by simp)

theorem Merged.key_mem (h : Merged R script s) (hmem : txin ∈ s.finalTransaction.vin) :
    ∃ i ∈ s.inputs, key i.toCTxIn = key txin := by
  by_cases hbuilt : s.Built
  · have := (h.keys hbuilt).subset (List.mem_map_of_mem hmem)
    obtain ⟨i, hi, hkey⟩ := List.mem_map.mp this
    exact ⟨i, hi, hkey⟩
  · rw [(h.unbuilt hbuilt).1] at hmem
    exact absurd hmem (by simp)

theorem Merged.completeVerifies (h : Merged R script s) : CompleteVerifies R script s := by
  intro hcomplete n txin htxin
  obtain ⟨i, hi, hkey⟩ := h.key_mem (List.mem_of_getElem? htxin)
  have hsig : i.fHasSig = true := by
    obtain ⟨v, hv, hi⟩ := List.mem_flatMap.mp hi
    exact List.all_eq_true.mp (List.all_eq_true.mp hcomplete v hv) i hi
  have hprevout : i.prevout = txin.prevout := congrArg Prod.fst hkey
  rw [← hprevout]
  exact (h.signed i hi hsig).2 n txin htxin hkey.symm

theorem Merged.sound (h : Merged R script s) : Sound R script s := ⟨h.signed, h.completeVerifies⟩

theorem merged_setNull (R : PoolRules) (script : COutPoint → CScript) (s : PoolState)
    (env : PoolEnv) : Merged R script (s.setNull env) :=
  Merged.of_unbuilt (fun h => absurd rfl h) (early_setNull s env).passing
    (early_setNull s env).not_built rfl fun i hi => absurd hi (by simp [inputs, setNull])

/-! ## One signature -/

theorem inputs_addScriptSig (R : PoolRules) (h : ∀ i ∈ s.inputs, i.scriptSig ≠ newVin.scriptSig) :
    Added newVin s.inputs ((s.addScriptSig R newVin).1.inputs, (s.addScriptSig R newVin).2) := by
  rw [addScriptSig_of_new R h]
  exact added_addSigs newVin s.entries

theorem Merged.addScriptSig_of_unknown (h : Merged R script s)
    (hunknown : ∀ i ∈ s.inputs, key i.toCTxIn ≠ key newVin) :
    s.addScriptSig R newVin = (s, false) := by
  by_cases hold : ∃ i ∈ s.inputs, i.scriptSig = newVin.scriptSig
  · obtain ⟨i, hi, hsig⟩ := hold
    exact addScriptSig_of_old R hi hsig
  have hnew : ∀ i ∈ s.inputs, i.scriptSig ≠ newVin.scriptSig := fun i hi hsig => hold ⟨i, hi, hsig⟩
  have hvin : setScriptSig newVin s.finalTransaction.vin = s.finalTransaction.vin := by
    refine setScriptSig_of_unknown fun txin hmem hkey => ?_
    obtain ⟨i, hi, hi'⟩ := h.key_mem hmem
    exact hunknown i hi (hi'.trans hkey)
  have hfalse : (addSigs newVin s.entries).2 = false := by
    have hadded := added_addSigs newVin s.entries
    generalize hr : ((addSigs newVin s.entries).1.flatMap (·.sev), (addSigs newVin s.entries).2) = r
      at hadded
    cases hadded with
    | unknown _ => exact (Prod.mk.inj hr).2
    | taken i hi hkey _ => exact absurd hkey (hunknown i hi)
    | added l r i hsev hkey _ =>
      exact absurd hkey (hunknown i (by rw [inputs, hsev]; simp))
  rw [addScriptSig_of_new R hnew, hvin, addSigs_of_false hfalse, hfalse]

theorem Added.map_key (h : Added newVin sev result) :
    (result.1.map fun i => key i.toCTxIn) = sev.map fun i => key i.toCTxIn := by
  cases h with
  | unknown _ => rfl
  | taken _ _ _ _ => rfl
  | added l r i hsev _ _ =>
    rw [hsev, List.map_append, List.map_append, List.map_cons, List.map_cons, key_signed]

theorem Added.mem (h : Added newVin sev result) (hi : i ∈ result.1) :
    i ∈ sev ∨ key i.toCTxIn = key newVin := by
  cases h with
  | unknown _ => exact Or.inl hi
  | taken _ _ _ _ => exact Or.inl hi
  | added l r j hsev hkey _ =>
    rw [hsev]
    rcases List.mem_append.mp hi with hi | hi
    · exact Or.inl (List.mem_append_left _ hi)
    · rcases List.mem_cons.mp hi with rfl | hi
      · exact Or.inr hkey
      · exact Or.inl (List.mem_append_right l (List.mem_cons_of_mem j hi))

theorem ValidFor.inputVerifies (hvalid : ValidFor R script s newVin) (hfinal : s'.finalTransaction =
      { s.finalTransaction with vin := setScriptSig newVin s.finalTransaction.vin })
    (hi : key i.toCTxIn = key newVin ∨ InputVerifies R script s i) :
    InputVerifies R script s' i := by
  have hkeys : s'.finalTransaction.vin.map key = s.finalTransaction.vin.map key := by
    rw [hfinal]
    exact map_key_setScriptSig newVin s.finalTransaction.vin
  have hthere : ∃ txin ∈ s.finalTransaction.vin, key txin = key i.toCTxIn := by
    rcases hi with hi | hi
    · rw [hi]
      exact hvalid.1
    · exact hi.1
  refine ⟨?_, fun n txin htxin hkey => ?_⟩
  · obtain ⟨txin, hmem, hkey⟩ := hthere
    have hmem' := List.mem_map_of_mem (f := key) hmem
    rw [← hkeys] at hmem'
    obtain ⟨txin', hmem', hkey'⟩ := List.mem_map.mp hmem'
    exact ⟨txin', hmem', hkey'.trans hkey⟩
  · rw [hfinal] at htxin ⊢
    rw [verifies_setScriptSig]
    obtain ⟨txin0, htxin0, hkey0, hsig⟩ := getElem?_setScriptSig htxin
    rw [hsig]
    by_cases hnew : key txin0 = key newVin
    · have hprevout : i.prevout = newVin.prevout :=
        congrArg Prod.fst (hkey.symm.trans (hkey0.trans hnew))
      rw [if_pos hnew, hprevout]
      exact hvalid.2 n txin0 htxin0 hnew
    · rw [if_neg hnew]
      rcases hi with hi | hi
      · exact absurd (hkey0.symm.trans (hkey.trans hi)) hnew
      · exact hi.2 n txin0 htxin0 (hkey0.symm.trans hkey)

/-- **A harmless signature keeps the invariant.** -/
theorem Merged.addScriptSig (h : Merged R script s) (hharm : Harmless R script s newVin) :
    Merged R script (s.addScriptSig R newVin).1 := by
  by_cases hold : ∃ i ∈ s.inputs, i.scriptSig = newVin.scriptSig
  · obtain ⟨i, hi, hsig⟩ := hold
    rw [addScriptSig_of_old R hi hsig]
    exact h
  have hnew : ∀ i ∈ s.inputs, i.scriptSig ≠ newVin.scriptSig := fun i hi hsig => hold ⟨i, hi, hsig⟩
  rcases hharm with hsame | hunknown | hvalid
  · exact absurd hsame hold
  · rw [h.addScriptSig_of_unknown hunknown]
    exact h
  have hadded := inputs_addScriptSig R hnew
  rw [addScriptSig_of_new R hnew] at hadded ⊢
  -- there is a final transaction, since it has the input
  have hbuilt : s.Built := by
    by_contra hnot
    obtain ⟨txin, hmem, -⟩ := hvalid.1
    rw [(h.unbuilt hnot).1] at hmem
    exact absurd hmem (by simp)
  have hlen := length_addSigs newVin s.entries
  refine ⟨fun hne => h.users fun hnil => hne ?_, h.passing, fun hnot => absurd hbuilt hnot,
    fun _ => ?_, fun _ => ?_, fun i hi hsig => ?_⟩
  · rw [hnil]
    rfl
  · simp only [hlen]
    exact h.full hbuilt
  · rw [map_key_setScriptSig, hadded.map_key]
    exact h.keys hbuilt
  · refine hvalid.inputVerifies rfl ?_
    rcases hadded.mem hi with hmem | hkey
    · exact Or.inr (h.signed i hmem hsig)
    · exact Or.inl hkey

/--
**An invalid signature is harmless iff it changes nothing.** One that is for an input of
the pool and has not been seen is written into that input, or, if that is signed already,
over the signature that verified.
-/
theorem Merged.ignored_iff (h : Merged R script s) :
    Ignored R script s newVin ↔ Harmless R script s newVin := by
  constructor
  · intro hignored
    by_contra hharm
    simp only [Harmless, not_or, not_exists, not_and, not_forall] at hharm
    obtain ⟨hnew, ⟨i, hi, hkey⟩, hvalid⟩ := hharm
    have hkey : key i.toCTxIn = key newVin := not_not.mp hkey
    have hsame := hignored hvalid
    have hadded := inputs_addScriptSig R hnew
    have hfinal : setScriptSig newVin s.finalTransaction.vin = s.finalTransaction.vin := by
      have := congrArg (fun s => s.finalTransaction.vin) hsame
      rwa [addScriptSig_of_new R hnew] at this
    rw [hsame] at hadded
    generalize hr : (s.inputs, (s.addScriptSig R newVin).2) = r at hadded
    cases hadded with
    | unknown hunknown => exact hunknown i hi hkey
    | taken j hj hkeyj hsig =>
      have hver := h.signed j hj hsig
      have hprevout : j.prevout = newVin.prevout := congrArg Prod.fst hkeyj
      refine hvalid ⟨?_, fun n txin htxin hkeyn => ?_⟩
      · rw [← hkeyj]
        exact hver.1
      · have hset := htxin
        rw [← hfinal] at hset
        obtain ⟨txin0, htxin0, -, hscript⟩ := getElem?_setScriptSig hset
        obtain rfl : txin0 = txin := Option.some.inj (htxin0.symm.trans htxin)
        rw [if_pos hkeyn] at hscript
        rw [← hscript, ← hprevout]
        exact hver.2 n txin0 htxin (hkeyn.trans hkeyj.symm)
    | added l r j hsev hkeyj hsig =>
      have hlist := (Prod.mk.inj hr).1
      rw [hsev] at hlist
      have hj := (List.cons.inj (List.append_cancel_left hlist)).1
      rw [hj] at hsig
      exact absurd hsig (by simp [PoolState.signed])
  · intro hharm hvalid
    rcases hharm with ⟨i, hi, hsig⟩ | hunknown | hvalid'
    · rw [addScriptSig_of_old R hi hsig]
    · rw [h.addScriptSig_of_unknown hunknown]
    · exact absurd hvalid' hvalid

/-! ## Checking -/

theorem Merged.finalize_checkEntries (h : Merged R script s) (env : PoolEnv) :
    Merged R script ((s.checkEntries R env).finalize env) := by
  unfold PoolState.checkEntries
  split
  · rename_i hready
    obtain ⟨hstate, hfull⟩ := hready
    have hfinal : (s.updateState env .FINALIZE_TRANSACTION).state = .FINALIZE_TRANSACTION :=
      updateState_state (by simp) (by simp)
    have hsigning : ((s.updateState env .FINALIZE_TRANSACTION).updateState env .SIGNING).state =
        .SIGNING := updateState_state (by simp) (by simp)
    have hunbuilt : ¬ s.Built := by simp [Built, hstate]
    unfold PoolState.finalize
    rw [if_pos hfinal]
    refine ⟨?_, ?_, fun hnot => absurd (Or.inl hsigning) hnot, fun _ => ?_, fun _ => ?_,
      fun i hi hsig => ?_⟩
    · simpa using h.users
    · simp only [hsigning]
      simp
    · simpa using hfull
    · -- the shuffled inputs are those of the entries
      have hperm := (env.shuffle_perm (s.inputs.map CTxDSIn.toCTxIn)).map key
      rw [List.map_map] at hperm
      simp only [mergeEntries, inputs, updateState_entries] at hperm ⊢
      exact hperm
    · have hi : i ∈ s.inputs := by simpa [inputs] using hi
      rw [(h.unbuilt hunbuilt).2 i hi] at hsig
      exact absurd hsig (by simp)
  · unfold PoolState.finalize
    rw [if_neg h.passing.1]
    exact h

theorem Merged.checkFinalTransaction (h : Merged R script s) (env : PoolEnv) :
    Merged R script (s.checkFinalTransaction env) := by
  unfold PoolState.checkFinalTransaction
  split_ifs
  · have hearly := early_accepting (s.setNull env) env
    refine Merged.of_unbuilt (fun hne => absurd ?_ hne) hearly.passing hearly.not_built ?_ ?_
    · simp [setNull]
    · simp [setNull]
    · simp [inputs, setNull]
  · exact merged_setNull R script s env
  · exact h

theorem Merged.transmit (h : Merged R script s) (env : PoolEnv) :
    Merged R script (s.transmit env) := by
  unfold PoolState.transmit
  split
  · rename_i hready
    have hstate : (s.updateState env .TRANSMISSION).state = .TRANSMISSION :=
      updateState_state (by simp) (by simp)
    have hbuilt : s.Built := Or.inl hready.1
    refine Merged.checkFinalTransaction ⟨?_, ?_, fun hnot => absurd (Or.inr hstate) hnot,
      fun _ => ?_,
      fun _ => ?_, fun i hi hsig => ?_⟩ env
    · simpa using h.users
    · simp [hstate]
    · simpa using h.full hbuilt
    · simpa [inputs] using h.keys hbuilt
    · have hi : i ∈ s.inputs := by simpa [inputs] using hi
      simpa [InputVerifies] using h.signed i hi hsig
  · exact h

theorem Merged.check (h : Merged R script s) (env : PoolEnv) : Merged R script (s.check R env) := by
  have hdone := (h.finalize_checkEntries env).transmit env
  unfold PoolState.check PoolState.resetDone
  split
  · exact merged_setNull R script _ env
  · exact hdone

/-! ## Messages -/

theorem Merged.isCompatibleWithSession (h : Merged R script s) (env : PoolEnv) (nDenom : Int)
    (txCollateral : CTransaction) :
    Merged R script (s.isCompatibleWithSession R env nDenom txCollateral).1 := by
  have hmax := R.nPoolMaxTransactions_range
  -- the users as they are after the clamp
  have hclamp : ∃ n : Int, (if s.sessionUsers < 0 then { s with sessionUsers := 0 } else s) =
      { s with sessionUsers := n } ∧ s.sessionUsers ≤ n ∧ (n = 0 → s.sessionUsers ≤ 0) := by
    by_cases hneg : s.sessionUsers < 0
    · exact ⟨0, if_pos hneg, by omega, fun _ => by omega⟩
    · exact ⟨s.sessionUsers, if_neg hneg, by omega, fun _ => by omega⟩
  obtain ⟨n, hn, hle, hzero⟩ := hclamp
  have hkept : Merged R script { s with sessionUsers := n } :=
    ⟨fun hne => (h.users hne).trans hle, h.passing, h.unbuilt, h.full, h.keys, h.signed⟩
  unfold PoolState.isCompatibleWithSession
  simp only [hn]
  split_ifs with h1 h2 h3 h4
  · exact h
  · exact h
  · -- nobody is left in the session, so there are no entries and no final transaction
    have hentries : s.entries = [] := by
      by_contra hne
      have := h.users hne
      have := hzero h3
      omega
    have hunbuilt : ¬ s.Built := by
      intro hbuilt
      have := h.full hbuilt
      rw [hentries, List.length_nil] at this
      omega
    refine Merged.of_unbuilt (fun hne => absurd ?_ hne) (Early.passing ?hearly)
      (Early.not_built ?hearly) ?_ ?_
    case hearly => exact Or.inr (Or.inl (updateState_state (by simp) (by simp)))
    · simpa using hentries
    · simpa using (h.unbuilt hunbuilt).1
    · simpa [inputs] using (h.unbuilt hunbuilt).2
  · exact hkept
  · exact hkept
  · exact hkept
  · exact ⟨fun hne => (hkept.users hne).trans (by simp only; omega), h.passing, h.unbuilt, h.full,
      h.keys, h.signed⟩

theorem Merged.processDsa (h : Merged R script s) (env : PoolEnv) (nVersion nDenom : Int)
    (txCollateral : CTransaction) :
    Merged R script (s.processDsa R env nVersion nDenom txCollateral).1 := by
  unfold PoolState.processDsa
  split
  · exact h
  split
  · exact h
  split
  · exact h
  · exact h.isCompatibleWithSession env nDenom txCollateral

theorem Merged.addEntry (h : Merged R script s) {vout : List CTxOut} {u : Unit}
    (hcheck : s.checkEntry R env nVersion vin vout = .ok u) (nAmount : Int)
    (txCollateral : CTransaction) :
    Merged R script (s.addEntry R env vin nAmount txCollateral vout).1 := by
  have hready := isSessionReady_of_checkEntry hcheck
  unfold PoolState.addEntry
  cases herror : s.entryError R env vin nAmount txCollateral with
  | some e =>
    exact ⟨fun _ => by simp only; omega, h.passing, h.unbuilt, h.full, h.keys, h.signed⟩
  | none =>
    -- there is room for an entry, so the final transaction is not made yet
    have hroom := (entryError_eq_none.mp herror).room
    have hunbuilt : ¬ s.Built := fun hbuilt => by
      have := h.full hbuilt
      omega
    obtain ⟨hvin, hsig⟩ := h.unbuilt hunbuilt
    refine Merged.of_unbuilt (fun _ => by simp only; omega) h.passing hunbuilt hvin ?_
    intro i hi
    simp only [inputs, List.flatMap_append, List.mem_append, CObfuScationEntry.add] at hi
    rcases hi with hi | hi
    · exact hsig i hi
    · obtain ⟨txin, -, rfl⟩ : ∃ txin ∈ vin, CTxDSIn.ofTxIn txin = i := by simpa using hi
      rfl

theorem Merged.processDsi (h : Merged R script s) (env : PoolEnv) (nVersion : Int)
    (vin : List CTxIn) (nAmount : Int) (txCollateral : CTransaction) (vout : List CTxOut) :
    Merged R script (s.processDsi R env nVersion vin nAmount txCollateral vout).1 := by
  unfold PoolState.processDsi
  cases hcheck : s.checkEntry R env nVersion vin vout with
  | error e => exact h
  | ok u =>
    have hadded := h.addEntry hcheck nAmount txCollateral
    simp only
    split
    · rename_i heq
      rw [heq] at hadded
      exact hadded.check env
    · rename_i heq
      rw [heq] at hadded
      exact hadded

theorem Merged.addScriptSigs (h : Merged R script s)
    (hharm : Machine.EveryStep (fun s newVin => some (PoolState.addScriptSig R s newVin).1)
      (Harmless R script) s sigs) : Merged R script (s.addScriptSigs R sigs).1 := by
  rw [addScriptSigs_fst]
  induction sigs generalizing s with
  | nil => exact h
  | cons newVin sigs ih => exact ih (h.addScriptSig hharm.1) (hharm.2 _ rfl)

theorem Merged.every_iff (h : Merged R script s) (sigs : List CTxIn) :
    Machine.EveryStep (fun s newVin => some (PoolState.addScriptSig R s newVin).1)
        (Safe R script) s sigs ↔
      Machine.EveryStep (fun s newVin => some (PoolState.addScriptSig R s newVin).1)
        (Harmless R script) s sigs := by
  induction sigs generalizing s with
  | nil => exact Iff.rfl
  | cons newVin sigs ih =>
    constructor
    · intro ⟨hsafe, hrest⟩
      have hharm := h.ignored_iff.mp hsafe.1
      refine ⟨hharm, fun s' hs' => ?_⟩
      obtain rfl := Option.some.inj hs'
      exact (ih (h.addScriptSig hharm)).mp (hrest _ rfl)
    · intro ⟨hharm, hrest⟩
      have hnext := h.addScriptSig hharm
      refine ⟨⟨h.ignored_iff.mpr hharm, hnext.sound⟩, fun s' hs' => ?_⟩
      obtain rfl := Option.some.inj hs'
      exact (ih hnext).mpr (hrest _ rfl)

theorem Merged.processDss (h : Merged R script s) (env : PoolEnv)
    (hharm : ¬ nVersion < env.nActiveProtocol →
      Machine.EveryStep (fun s newVin => some (PoolState.addScriptSig R s newVin).1)
        (Harmless R script) s sigs) : Merged R script (s.processDss R env nVersion sigs) := by
  unfold PoolState.processDss
  split
  · exact h
  rename_i hversion
  have hsigs := h.addScriptSigs (hharm hversion)
  simp only
  split
  · exact hsigs.check env
  · exact hsigs

/-! ## Timeouts -/

theorem Merged.expireEntries (h : Merged R script s) (env : PoolEnv)
    (hstate : ¬ s.Built) (kept rest : List CObfuScationEntry) (hs : s.entries = kept ++ rest) :
    Merged R script (PoolState.expireEntries env s kept rest) := by
  induction rest generalizing s kept with
  | nil => exact h
  | cons v rest ih =>
    rw [PoolState.expireEntries]
    split
    · simp only
      split
      · rename_i hempty
        refine ih (merged_setNull R script _ env) (early_setNull _ env).not_built kept ?_
        rw [List.isEmpty_iff.mp hempty]
        rfl
      · obtain ⟨hvin, hsig⟩ := h.unbuilt hstate
        have hsub : kept ++ rest ⊆ s.entries := by
          rw [hs]
          exact ((List.sublist_cons_self v rest).append_left kept).subset
        have hless : Merged R script { s with entries := kept ++ rest } := by
          refine Merged.of_unbuilt (fun hne => h.users ?_) h.passing hstate hvin fun i hi => ?_
          · rw [hs]
            simp
          · obtain ⟨w, hw, hi⟩ := List.mem_flatMap.mp hi
            exact hsig i (List.mem_flatMap.mpr ⟨w, hsub hw, hi⟩)
        exact ih hless hstate kept rfl
    · exact ih h hstate (kept ++ [v]) (by rw [hs]; simp)

theorem Merged.checkQueueTimeout (h : Merged R script s) (env : PoolEnv) :
    Merged R script (s.checkQueueTimeout env) := by
  unfold PoolState.checkQueueTimeout
  split
  · rename_i hstate
    simp only
    split
    · exact merged_setNull R script _ env
    · refine h.expireEntries env ?_ [] s.entries rfl
      rcases hstate with hstate | hstate <;> simp [Built, hstate]
  split
  · exact merged_setNull R script s env
  · exact h

theorem Merged.checkTimeout (h : Merged R script s) (env : PoolEnv) :
    Merged R script (s.checkTimeout env) := by
  unfold PoolState.checkTimeout
  simp only
  split
  · exact merged_setNull R script _ env
  · exact h.checkQueueTimeout env

theorem Merged.checkForCompleteQueue (h : Merged R script s) (env : PoolEnv) :
    Merged R script (s.checkForCompleteQueue R env) := by
  unfold PoolState.checkForCompleteQueue
  split
  · rename_i hqueue
    have hunbuilt : ¬ s.Built := by simp [Built, hqueue.1]
    have hearly := early_accepting s env
    refine Merged.of_unbuilt ?_ hearly.passing hearly.not_built ?_ ?_
    · simpa using h.users
    · simpa using (h.unbuilt hunbuilt).1
    · simpa [inputs] using (h.unbuilt hunbuilt).2
  · exact h

/-! ## Runs -/

/-- **An event whose signatures are harmless keeps the invariant.** -/
theorem Merged.step (h : Merged R script s) (hharm : EverySignature R (Harmless R script) s x) :
    Merged R script (s.step R x) := by
  obtain ⟨env, event⟩ := x
  cases event with
  | dsa nVersion nDenom txCollateral =>
    simp only [PoolState.step]
    split
    · exact h.processDsa env nVersion nDenom txCollateral
    · exact h
  | dsi nVersion vin nAmount txCollateral vout =>
    simp only [PoolState.step]
    split
    · exact h.processDsi env nVersion vin nAmount txCollateral vout
    · exact h
  | dss nVersion sigs =>
    simp only [PoolState.step]
    split
    · rename_i hactive
      exact h.processDss env (hharm hactive)
    · exact h
  | checkTimeout => exact h.checkTimeout env
  | checkForCompleteQueue => exact h.checkForCompleteQueue env
  | reset => exact merged_setNull R script s env

theorem Merged.asked (h : Merged R script s) (hharm : EverySignature R (Harmless R script) s x)
    (hs' : PoolState.asked R s x = some s') : Merged R script s' := by
  obtain ⟨env, event⟩ := x
  cases event with
  | dsi nVersion vin nAmount txCollateral vout =>
    simp only [PoolState.asked] at hs'
    split at hs'
    · split at hs'
      · rename_i hcheck heq
        obtain rfl := Option.some.inj hs'
        have hadded := h.addEntry hcheck nAmount txCollateral
        rw [heq] at hadded
        exact hadded.finalize_checkEntries env
      · exact absurd hs' (by simp)
    · exact absurd hs' (by simp)
  | dss nVersion sigs =>
    simp only [PoolState.asked] at hs'
    split at hs'
    · rename_i hdone
      obtain rfl := Option.some.inj hs'
      exact (h.addScriptSigs (hharm hdone.1 hdone.2.1)).finalize_checkEntries env
    · exact absurd hs' (by simp)
  | dsa _ _ _ => exact absurd hs' (by simp [PoolState.asked])
  | checkTimeout => exact absurd hs' (by simp [PoolState.asked])
  | checkForCompleteQueue => exact absurd hs' (by simp [PoolState.asked])
  | reset => exact absurd hs' (by simp [PoolState.asked])

theorem Merged.everySignature_iff (h : Merged R script s) :
    EverySignature R (Safe R script) s x ↔ EverySignature R (Harmless R script) s x := by
  obtain ⟨env, event⟩ := x
  cases event with
  | dss nVersion sigs =>
    exact forall_congr' fun _ => forall_congr' fun _ => h.every_iff sigs
  | dsa _ _ _ => exact Iff.rfl
  | dsi _ _ _ _ _ => exact Iff.rfl
  | checkTimeout => exact Iff.rfl
  | checkForCompleteQueue => exact Iff.rfl
  | reset => exact Iff.rfl

theorem merged_new (R : PoolRules) (script : COutPoint → CScript) (nTimeMillis : Int) :
    Merged R script (new nTimeMillis) := by
  have hearly : (new nTimeMillis).Early := Or.inl rfl
  exact Merged.of_unbuilt (fun h => absurd rfl h) hearly.passing hearly.not_built rfl
    fun i hi => absurd hi (by simp [inputs, new])

theorem run_concat (R : PoolRules) (s : PoolState) (past : List (PoolEnv × PoolEvent))
    (x : PoolEnv × PoolEvent) : run R s (past ++ [x]) = (run R s past).step R x := by
  rw [run, List.foldl_append]
  rfl

/-- **The invariant holds all through a run** whose signatures are harmless. -/
theorem Merged.run (nTimeMillis : Int) (h : ∀ past x, past ++ [x] <+: events →
      Merged R script (PoolState.run R (new nTimeMillis) past) →
      EverySignature R (Harmless R script) (PoolState.run R (new nTimeMillis) past) x) :
    ∀ past, past <+: events → Merged R script (PoolState.run R (new nTimeMillis) past) := by
  intro past hpast
  induction past using List.reverseRecOn with
  | nil => exact merged_new R script nTimeMillis
  | append_singleton past x ih =>
    have hbefore := ih ((List.prefix_append past [x]).trans hpast)
    rw [run_concat]
    exact hbefore.step (h past x hpast hbefore)

theorem harmless_of_safe (nTimeMillis : Int) (h : ∀ past x, past ++ [x] <+: events →
      EverySignature R (Safe R script) (PoolState.run R (new nTimeMillis) past) x) :
    ∀ past x, past ++ [x] <+: events →
      EverySignature R (Harmless R script) (PoolState.run R (new nTimeMillis) past) x := by
  have hmerged : ∀ past, past <+: events →
      Merged R script (PoolState.run R (new nTimeMillis) past) :=
    Merged.run nTimeMillis fun past x hpast hbefore =>
      hbefore.everySignature_iff.mp (h past x hpast)
  intro past x hpast
  have hbefore := hmerged past ((List.prefix_append past [x]).trans hpast)
  exact hbefore.everySignature_iff.mp (h past x hpast)

/--
**Mixing is sound iff every signature is harmless.** In every run of the pool, whatever the
scripts of the coins: what counts as signed has a signature in the final transaction that
verifies, the final transaction is valid whenever it counts as complete, in particular when
`Check` asks, and no invalid signature changes the pool, if and only if every signature
that is new and names an input of the pool comes when the final transaction is made and
verifies there.
-/
theorem mixing_sound_iff (R : PoolRules) (script : COutPoint → CScript) (nTimeMillis : Int)
    (events : List (PoolEnv × PoolEvent)) :
    ((∀ past, past <+: events → Sound R script (PoolState.run R (new nTimeMillis) past)) ∧
      ∀ past x, past ++ [x] <+: events →
        EverySignature R (Safe R script) (PoolState.run R (new nTimeMillis) past) x ∧
        ∀ s', PoolState.asked R (PoolState.run R (new nTimeMillis) past) x = some s' →
          Sound R script s') ↔
    ∀ past x, past ++ [x] <+: events →
      EverySignature R (Harmless R script) (PoolState.run R (new nTimeMillis) past) x := by
  constructor
  · intro h
    exact harmless_of_safe nTimeMillis fun past x hpast => (h.2 past x hpast).1
  · intro h
    have hmerged := Merged.run nTimeMillis fun past x hpast _ => h past x hpast
    refine ⟨fun past hpast => (hmerged past hpast).sound, fun past x hpast => ?_⟩
    have hbefore := hmerged past ((List.prefix_append past [x]).trans hpast)
    refine ⟨hbefore.everySignature_iff.mpr (h past x hpast), fun s' hs' => ?_⟩
    exact (hbefore.asked (h past x hpast) hs').sound

/-! ## A signature that is none -/

theorem verifies_invalidOpcode (R : PoolRules) (tx : CMutableTransaction) (n : Nat)
    (scriptPubKey : CScript) : verifies R tx n [OP_INVALIDOPCODE] scriptPubKey = false := by
  have hpush : ((checker R tx n).flag SCRIPT_VERIFY_SIGPUSHONLY) = false := by
    simp only [ScriptEnv.flag, checker, ScriptEnv.checker]
    decide
  have heval : (evalScript (checker R tx n) [] [OP_INVALIDOPCODE]).1 =
      .error (.error .BAD_OPCODE) := by
    rw [evalScript, if_neg (by decide), evalLoop]
    rfl
  unfold verifies verifyScript
  rw [hpush]
  generalize evalScript (checker R tx n) [] [OP_INVALIDOPCODE] = result at heval
  obtain ⟨verdict, s1⟩ := result
  obtain rfl : verdict = .error (.error .BAD_OPCODE) := heval
  rfl

/-- Two clients fill a pool of two, and somebody signs the input of one of them with a byte
that is no script. -/
def garbageRun : List (PoolEnv × PoolEvent) :=
  [joins 1, joins 2, ⟨.bare, .checkForCompleteQueue⟩, submits 100 (goodCollateral 1),
    submits 101 (goodCollateral 2),
    ⟨.bare, .dss 70000 [⟨⟨100, 0⟩, [OP_INVALIDOPCODE], 0xffffffff⟩]⟩]

/-- The input counts as signed. -/
theorem garbage_is_signed : ¬ ((∀ past, past <+: garbageRun →
        Sound (.bare 2 (by decide)) (fun _ => normalPayment)
          (PoolState.run (.bare 2 (by decide)) (new 0) past)) ∧
      ∀ past x, past ++ [x] <+: garbageRun →
        EverySignature (.bare 2 (by decide)) (Safe (.bare 2 (by decide)) fun _ => normalPayment)
          (PoolState.run (.bare 2 (by decide)) (new 0) past) x ∧
        ∀ s', PoolState.asked (.bare 2 (by decide))
            (PoolState.run (.bare 2 (by decide)) (new 0) past) x = some s' →
          Sound (.bare 2 (by decide)) (fun _ => normalPayment) s') := by
  intro h
  have hsound := h.1 garbageRun (List.prefix_refl _)
  have hver := (hsound.signed ⟨⟨⟨100, 0⟩, [OP_INVALIDOPCODE], 0xffffffff⟩, [], true⟩ (by decide)
    rfl).2 0 ⟨⟨100, 0⟩, [OP_INVALIDOPCODE], 0xffffffff⟩ (by decide) rfl
  rw [verifies_invalidOpcode] at hver
  exact absurd hver (by simp)

end PoolState

end BitBlocks
