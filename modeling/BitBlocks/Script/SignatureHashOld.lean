import BitBlocks.Mempool.Policy
import BitBlocks.Payments.Template
import BitBlocks.Script.Building

/-!
# The signature hash by an edited copy

`SignatureHash` writes the transaction with the edits of the hash type made on the fly; the
tests have the construction it came from, which edits a copy and writes that. They hash the same
bytes if the instructions of the script go to its end. Otherwise they need not: behind an
instruction that is cut short the one stops, the other goes on to the end of the script.
-/

namespace BitBlocks

open CompactSize

/-! ## The script without separators -/

namespace CScript

/-- Every instruction of the script is whole. -/
def Parses (script : CScript) : Prop := (readItems script).2 = []

/-- The second loop of `SerializeScriptCode`, which writes what is between two separators at
once; `itBegin` is behind the last separator. -/
def writeScriptCode (itBegin it : CScript) : List UInt8 :=
  match _h : getOp it with
  | none => if itBegin ≠ [] then itBegin.take (itBegin.length - (stuck it).length) else []
  | some (opcode, _, it') =>
    if opcode = OP_CODESEPARATOR then
      itBegin.take (itBegin.length - it'.length - 1) ++ writeScriptCode it' it'
    else writeScriptCode itBegin it'
termination_by it.length
decreasing_by all_goals exact length_getOp _h

theorem getOp_separator (pc : CScript) :
    getOp (OP_CODESEPARATOR :: pc) = some (OP_CODESEPARATOR, [], pc) := rfl

variable {pc pc' script : CScript} {opcode : UInt8} {vch : Valtype}

theorem eq_cons_of_getOp (h : getOp pc = some (opcode, vch, pc')) :
    ∃ rest, pc = opcode :: rest := by
  obtain ⟨i, rfl, -, rfl⟩ := Instruction.exists_of_getOp h
  exact ⟨_, rfl⟩

theorem getOp_eq_separator (h : getOp pc = some (OP_CODESEPARATOR, vch, pc')) :
    pc = OP_CODESEPARATOR :: pc' := by
  obtain ⟨rest, rfl⟩ := eq_cons_of_getOp h
  obtain ⟨-, -, rfl⟩ := getOp_unique h (getOp_separator rest)
  rfl

theorem skipSeparators_stop (h : getOp pc = none) :
    skipSeparators pc = pc.take (pc.length - (stuck pc).length) := by
  rw [skipSeparators]
  split
  · rfl
  · next hop => exact absurd (h.symm.trans hop) (by simp)

theorem skipSeparators_op (h : getOp pc = some (opcode, vch, pc')) : skipSeparators pc =
      (if opcode = OP_CODESEPARATOR then [] else pc.take (pc.length - pc'.length)) ++
        skipSeparators pc' := by
  rw [skipSeparators]
  split
  · next hop => exact absurd (h.symm.trans hop) (by simp)
  · next hop =>
      obtain ⟨rfl, -, rfl⟩ := getOp_unique h hop
      rfl

theorem codeSeparators_stop (h : getOp pc = none) : codeSeparators pc = 0 := by
  rw [codeSeparators]
  split
  · rfl
  · next hop => exact absurd (h.symm.trans hop) (by simp)

theorem codeSeparators_op (h : getOp pc = some (opcode, vch, pc')) :
    codeSeparators pc = (if opcode = OP_CODESEPARATOR then 1 else 0) + codeSeparators pc' := by
  rw [codeSeparators]
  split
  · next hop => exact absurd (h.symm.trans hop) (by simp)
  · next hop =>
      obtain ⟨rfl, -, rfl⟩ := getOp_unique h hop
      rfl

theorem suffix_of_getOp (h : getOp pc = some (opcode, vch, pc')) : pc' <:+ pc := by
  obtain ⟨i, -, -, rfl⟩ := Instruction.exists_of_getOp h
  exact List.suffix_append i.bytes pc'

theorem parses_stop (h : getOp pc = none) : Parses pc ↔ pc = [] := by
  rw [Parses, readItems_stop h]

theorem parses_op (h : getOp pc = some (opcode, vch, pc')) : Parses pc ↔ Parses pc' := by
  rw [Parses, readItems_op h, Parses]

/-- **The chunks that are written are the instructions** that are not separators. -/
theorem writeScriptCode_eq {front it : CScript} :
    writeScriptCode (front ++ it) it = front ++ skipSeparators it := by
  induction hn : it.length using Nat.strong_induction_on generalizing front it with
  | h n ih =>
    rw [writeScriptCode]
    split
    · next hop =>
        rw [skipSeparators_stop hop]
        have hstuck := length_stuck it
        by_cases hnil : front ++ it = []
        · obtain ⟨rfl, rfl⟩ := List.append_eq_nil_iff.mp hnil
          rfl
        · have hcount : (front ++ it).length - (stuck it).length =
              front.length + (it.length - (stuck it).length) := by
            rw [List.length_append]
            omega
          rw [if_pos hnil, hcount, List.take_length_add_append]
    · next opcode vch it' hop =>
        have hlt := length_getOp hop
        rw [skipSeparators_op hop]
        by_cases hsep : opcode = OP_CODESEPARATOR
        · subst hsep
          obtain rfl := getOp_eq_separator hop
          have hself : writeScriptCode it' it' = skipSeparators it' := by
            rw [← List.nil_append (skipSeparators it'), ← ih it'.length (by omega) rfl]
            rfl
          have hcount : (front ++ OP_CODESEPARATOR :: it').length - it'.length - 1 =
              front.length := by
            rw [List.length_append, List.length_cons]
            omega
          rw [if_pos rfl, if_pos rfl, hself, hcount, List.take_left]
          rfl
        · rw [if_neg hsep, if_neg hsep]
          obtain ⟨op, rfl⟩ := suffix_of_getOp hop
          have hcount : (op ++ it').length - it'.length = op.length := by
            rw [List.length_append, Nat.add_sub_cancel]
          rw [← List.append_assoc, ih it'.length (by omega) rfl, List.append_assoc, hcount,
            List.take_left]

/-- **What `SerializeScriptCode` writes**, by its two loops. -/
theorem serializeScriptCode_eq_loops (scriptCode : CScript) : serializeScriptCode scriptCode =
      CompactSize.write (scriptCode.length - scriptCode.codeSeparators) ++
        writeScriptCode scriptCode scriptCode := by
  have hloop : writeScriptCode ([] ++ scriptCode) scriptCode = [] ++ skipSeparators scriptCode :=
    writeScriptCode_eq
  rw [List.nil_append, List.nil_append] at hloop
  rw [serializeScriptCode, hloop]

theorem eraseFront_cons_separator (hne : [OP_CODESEPARATOR] ≠ []) (pc : CScript) :
    (eraseFront [OP_CODESEPARATOR] hne (OP_CODESEPARATOR :: pc)).2 =
      (eraseFront [OP_CODESEPARATOR] hne pc).2 := by
  have hfront : [OP_CODESEPARATOR].length ≤ (OP_CODESEPARATOR :: pc).length ∧
      (OP_CODESEPARATOR :: pc).take [OP_CODESEPARATOR].length = [OP_CODESEPARATOR] :=
    ⟨Nat.succ_le_succ (Nat.zero_le _), rfl⟩
  rw [eraseFront, dif_pos hfront]
  rfl

theorem eraseFront_of_ne (hne : [OP_CODESEPARATOR] ≠ [])
    (h : ∀ rest, pc ≠ OP_CODESEPARATOR :: rest) :
    (eraseFront [OP_CODESEPARATOR] hne pc).2 = pc := by
  have hfront : ¬ [OP_CODESEPARATOR] <+: pc := by
    rintro ⟨rest, hrest⟩
    exact h rest hrest.symm
  rw [eraseFront_eq_self hne hfront]

theorem findAndDeleteLoop_separator (hne : [OP_CODESEPARATOR] ≠ []) (h : Parses pc) :
    (findAndDeleteLoop [OP_CODESEPARATOR] hne pc).2 = skipSeparators pc := by
  induction hn : pc.length using Nat.strong_induction_on generalizing pc with
  | h n ih =>
    by_cases hsep : ∃ rest, pc = OP_CODESEPARATOR :: rest
    · obtain ⟨rest, rfl⟩ := hsep
      have hop := getOp_separator rest
      rw [findAndDeleteLoop_snd, eraseFront_cons_separator, ← findAndDeleteLoop_snd,
        skipSeparators_op hop, if_pos rfl, List.nil_append]
      exact ih rest.length (by rw [List.length_cons] at hn; omega) ((parses_op hop).mp h) rfl
    · have hfront := eraseFront_of_ne hne (not_exists.mp hsep)
      rw [findAndDeleteLoop_snd, hfront]
      cases hop : getOp pc with
      | none =>
        obtain rfl := (parses_stop hop).mp h
        exact (skipSeparators_stop hop).symm
      | some r =>
        obtain ⟨opcode, vch, pc'⟩ := r
        have hne' : opcode ≠ OP_CODESEPARATOR := by
          rintro rfl
          exact hsep ⟨pc', getOp_eq_separator hop⟩
        have hlt := length_getOp hop
        rw [skipSeparators_op hop, if_neg hne', ← ih pc'.length (by omega)
          ((parses_op hop).mp h) rfl]

/-- **`FindAndDelete` of the separator**, in a script whose instructions are whole. -/
theorem findAndDelete_separator (h : Parses script) :
    (findAndDelete script [OP_CODESEPARATOR]).2 = skipSeparators script := by
  rw [findAndDelete, dif_neg (List.cons_ne_nil _ _)]
  exact findAndDeleteLoop_separator _ h

/-- **The size that is written first** is that of the bytes that follow. -/
theorem length_skipSeparators (h : Parses script) :
    (skipSeparators script).length + codeSeparators script = script.length := by
  induction hn : script.length using Nat.strong_induction_on generalizing script with
  | h n ih =>
    cases hop : getOp script with
    | none =>
      obtain rfl := (parses_stop hop).mp h
      rw [skipSeparators_stop hop, codeSeparators_stop hop, ← hn]
      rfl
    | some r =>
      obtain ⟨opcode, vch, script'⟩ := r
      have hlt := length_getOp hop
      have hrest := ih script'.length (by omega) ((parses_op hop).mp h) rfl
      rw [skipSeparators_op hop, codeSeparators_op hop, List.length_append]
      by_cases hsep : opcode = OP_CODESEPARATOR
      · subst hsep
        have hlen := congrArg List.length (getOp_eq_separator hop)
        rw [List.length_cons] at hlen
        rw [if_pos rfl, if_pos rfl, List.length_nil]
        omega
      · rw [if_neg hsep, if_neg hsep, List.length_take]
        omega

theorem serializeScriptCode_eq {scriptCode : CScript} (h : Parses scriptCode) :
    serializeScriptCode scriptCode =
      CScript.bytes (findAndDelete scriptCode [OP_CODESEPARATOR]).2 := by
  rw [findAndDelete_separator h, serializeScriptCode, CScript.bytes, ← length_skipSeparators h,
    Nat.add_sub_cancel]

end CScript

/-! ## The edited copy -/

def CMutableTransaction.bytes (tx : CMutableTransaction) : List UInt8 :=
  writeInt 4 tx.nVersion ++ writeList CTxIn.bytes tx.vin ++ writeList CTxOut.bytes tx.vout ++
    writeLE 4 tx.nLockTime

namespace SignatureHashOld

/-- Blank out other inputs' signatures. -/
def signInput (scriptCode : CScript) (nIn : Nat) (vin : List CTxIn) : List CTxIn :=
  (vin.map fun txin => { txin with scriptSig := [] }).modify nIn
    fun txin => { txin with scriptSig := scriptCode }

def letOthersUpdate (nIn : Nat) (vin : List CTxIn) : List CTxIn :=
  vin.mapIdx fun i txin => if i ≠ nIn then { txin with nSequence := 0 } else txin

/-- The first input is overwritten, and the rest go. -/
def onlyInput (nIn : Nat) (vin : List CTxIn) : List CTxIn :=
  match vin[nIn]? with
  | some txin => (vin.set 0 txin).take 1
  | none => vin

/-- The outputs up to `nOut`, the others of them null. -/
def onlyOutput (nOut : Nat) (vout : List CTxOut) : List CTxOut :=
  (vout.take (nOut + 1)).mapIdx fun i txout => if i < nOut then CTxOut.null else txout

/-- Blank out some of the outputs; nothing if the index is out of range. -/
def blankOutputs (nIn nHashType : Nat) (tx : CMutableTransaction) : Option CMutableTransaction :=
  if nHashType &&& 0x1f = SIGHASH_NONE then
    -- Wildcard payee
    some { tx with vout := [], vin := letOthersUpdate nIn tx.vin }
  else if nHashType &&& 0x1f = SIGHASH_SINGLE then
    -- Only lock-in the txout payee at same index as txin
    if tx.vout.length ≤ nIn then none
    else some { tx with vout := onlyOutput nIn tx.vout, vin := letOthersUpdate nIn tx.vin }
  else some tx

/-- Blank out other inputs completely, not recommended for open transactions. -/
def blankInputs (nIn nHashType : Nat) (tx : CMutableTransaction) : CMutableTransaction :=
  if nHashType &&& SIGHASH_ANYONECANPAY ≠ 0 then { tx with vin := onlyInput nIn tx.vin } else tx

/-- `txTmp`, the copy with its edits; nothing where an index is out of range. -/
def txTmp (scriptCode : CScript) (txTo : CTransaction) (nIn nHashType : Nat) :
    Option CMutableTransaction :=
  if txTo.vin.length ≤ nIn then none
  else
    let scriptCode := (scriptCode.findAndDelete [OP_CODESEPARATOR]).2
    (blankOutputs nIn nHashType
      ⟨txTo.nVersion, signInput scriptCode nIn txTo.vin, txTo.vout, txTo.nLockTime⟩).map
        (blankInputs nIn nHashType)

end SignatureHashOld

/-- The bytes that `SignatureHashOld` hashes. -/
def signatureBytesOld (scriptCode : CScript) (txTo : CTransaction) (nIn nHashType : Nat) :
    Option (List UInt8) :=
  (SignatureHashOld.txTmp scriptCode txTo nIn nHashType).map
    fun txTmp => txTmp.bytes ++ writeLE 4 nHashType

def signatureHashOld (env : ScriptEnv) (scriptCode : CScript) (txTo : CTransaction)
    (nIn nHashType : Nat) : Valtype :=
  (signatureBytesOld scriptCode txTo nIn nHashType).elim uint256One fun bytes =>
    (env.hash256 bytes).1

/-- The bytes that `SignatureHash` hashes; nothing where an index is out of range. -/
def signatureBytes (scriptCode : CScript) (txTo : CTransaction) (nIn nHashType : Nat) :
    Option (List UInt8) :=
  if txTo.vin.length ≤ nIn then none
  else if nHashType &&& 0x1f = SIGHASH_SINGLE ∧ txTo.vout.length ≤ nIn then none
  else
    some (CTransactionSignatureSerializer.serialize ⟨txTo, scriptCode, nIn, nHashType⟩ ++
      writeLE 4 nHashType)

theorem signatureHash_eq_elim (env : ScriptEnv) (scriptCode : CScript) (txTo : CTransaction)
    (nIn nHashType : Nat) :
    signatureHash env scriptCode txTo nIn nHashType =
      (signatureBytes scriptCode txTo nIn nHashType).elim uint256One fun bytes =>
      (env.hash256 bytes).1 := by
  unfold signatureHash signatureBytes
  split
  · rfl
  · split <;> rfl

/-! ## The same bytes -/

namespace CTransactionSignatureSerializer

variable (s : CTransactionSignatureSerializer)

/-- An input as it is after the edits, from what it was and its number. -/
def editInput (x : CTxIn × Nat) : CTxIn where
  prevout := x.1.prevout
  scriptSig :=
    if x.2 ≠ s.nIn then [] else (s.scriptCode.findAndDelete [OP_CODESEPARATOR]).2
  nSequence := if x.2 ≠ s.nIn ∧ (s.fHashSingle || s.fHashNone) = true then 0 else x.1.nSequence

/-- An output as it is after the edits. -/
def editOutput (x : CTxOut × Nat) : CTxOut :=
  if s.fHashSingle = true ∧ x.2 ≠ s.nIn then CTxOut.null else x.1

variable {s}

/-- **An input is written as it is after the edits.** -/
theorem serializeInput_eq (h : s.scriptCode.Parses) (x : CTxIn × Nat) :
    s.serializeInput x.1 x.2 = (s.editInput x).bytes := by
  have hscript : (if x.2 ≠ s.nIn then CScript.bytes [] else serializeScriptCode s.scriptCode) =
      CScript.bytes (s.editInput x).scriptSig := by
    rw [CScript.serializeScriptCode_eq h, editInput]
    split <;> rfl
  have hsequence : (if x.2 ≠ s.nIn ∧ (s.fHashSingle || s.fHashNone) = true then writeLE 4 0
      else writeLE 4 x.1.nSequence) = writeLE 4 (s.editInput x).nSequence := by
    rw [editInput]
    split <;> rfl
  rw [serializeInput, hscript, hsequence]
  rfl

theorem serializeOutput_eq (x : CTxOut × Nat) :
    s.serializeOutput x.1 x.2 = (s.editOutput x).bytes := by
  rw [serializeOutput, editOutput]
  split <;> rfl

def edited (s : CTransactionSignatureSerializer) : CMutableTransaction :=
  ⟨s.txTo.nVersion, s.inputs.map s.editInput, s.outputs.map s.editOutput, s.txTo.nLockTime⟩

/-- **The serializer writes the transaction after the edits.** -/
theorem serialize_eq_edited (h : s.scriptCode.Parses) : s.serialize = s.edited.bytes := by
  have hvin : writeList (fun x => s.serializeInput x.1 x.2) s.inputs =
      writeList CTxIn.bytes (s.inputs.map s.editInput) := by
    rw [writeList, writeList, List.length_map, List.flatMap_map]
    simp only [serializeInput_eq h]
  have hvout : writeList (fun x => s.serializeOutput x.1 x.2) s.outputs =
      writeList CTxOut.bytes (s.outputs.map s.editOutput) := by
    rw [writeList, writeList, List.length_map, List.flatMap_map]
    simp only [serializeOutput_eq]
  rw [serialize, hvin, hvout]
  rfl

/-! ## The edits -/

/-- The inputs after the edits that are made to all of them. -/
def editedInputs (s : CTransactionSignatureSerializer) : List CTxIn :=
  let vin := SignatureHashOld.signInput (s.scriptCode.findAndDelete [OP_CODESEPARATOR]).2 s.nIn
    s.txTo.vin
  if (s.fHashSingle || s.fHashNone) = true then SignatureHashOld.letOthersUpdate s.nIn vin else vin

theorem editedInputs_eq : s.editedInputs = s.txTo.vin.zipIdx.map s.editInput := by
  refine List.ext_getElem? fun i => ?_
  have hsign : (SignatureHashOld.signInput (s.scriptCode.findAndDelete [OP_CODESEPARATOR]).2 s.nIn
      s.txTo.vin)[i]? = s.txTo.vin[i]?.map fun txin =>
        { txin with scriptSig :=
            if i ≠ s.nIn then [] else (s.scriptCode.findAndDelete [OP_CODESEPARATOR]).2 } := by
    rw [SignatureHashOld.signInput, List.getElem?_modify, List.getElem?_map]
    by_cases hi : s.nIn = i
    · subst hi
      cases s.txTo.vin[s.nIn]? <;> simp
    · have hi' : i ≠ s.nIn := Ne.symm hi
      cases s.txTo.vin[i]? <;> simp [hi, hi']
  rw [List.getElem?_map, List.getElem?_zipIdx, Nat.zero_add, editedInputs]
  by_cases hothers : (s.fHashSingle || s.fHashNone) = true
  · rw [if_pos hothers, SignatureHashOld.letOthersUpdate, List.getElem?_mapIdx, hsign]
    cases s.txTo.vin[i]? with
    | none => rfl
    | some txin =>
      by_cases hi : i = s.nIn
      · simp [editInput, hi]
      · simp [editInput, hi, hothers]
  · rw [if_neg hothers, hsign]
    cases s.txTo.vin[i]? with
    | none => rfl
    | some txin => simp [editInput, hothers]

theorem filter_zipIdx {α : Type} (l : List α) (n k : Nat) :
    (l.zipIdx k).filter (·.2 == k + n) = (l[n]?.map fun a => (a, k + n)).toList := by
  induction l generalizing n k with
  | nil => rfl
  | cons a l ih =>
    rw [List.zipIdx_cons]
    cases n with
    | zero =>
      have hrest : (l.zipIdx (k + 1)).filter (·.2 == k + 0) = [] := by
        refine List.filter_eq_nil_iff.mpr fun x hx => ?_
        have hle := List.le_snd_of_mem_zipIdx hx
        simp
        omega
      rw [List.filter_cons_of_pos (by simp), hrest]
      rfl
    | succ n =>
      rw [List.filter_cons_of_neg (by simp), ← Nat.add_assoc, Nat.add_right_comm, ih,
        List.getElem?_cons_succ]

/-- **Of the inputs only one is left**, the one that is signed. -/
theorem onlyInput_eq {vin : List CTxIn} {nIn : Nat} (f : CTxIn × Nat → CTxIn)
    (h : nIn < vin.length) :
    SignatureHashOld.onlyInput nIn (vin.zipIdx.map f) = (vin.zipIdx.filter (·.2 == nIn)).map f := by
  have hget : (vin.zipIdx.map f)[nIn]? = some (f (vin[nIn], nIn)) := by
    rw [List.getElem?_map, List.getElem?_zipIdx, List.getElem?_eq_getElem h, Nat.zero_add]
    rfl
  have hfilter := filter_zipIdx vin nIn 0
  rw [Nat.zero_add, List.getElem?_eq_getElem h] at hfilter
  rw [SignatureHashOld.onlyInput, hget, hfilter]
  cases vin with
  | nil => exact absurd h (Nat.not_lt_zero _)
  | cons txin vin => rfl

theorem onlyOutput_eq {vout : List CTxOut} (hsingle : s.fHashSingle = true) :
    SignatureHashOld.onlyOutput s.nIn vout = (vout.zipIdx.take (s.nIn + 1)).map s.editOutput := by
  refine List.ext_getElem ?_ fun i hi hi' => ?_
  · simp [SignatureHashOld.onlyOutput]
  · have hle : i ≤ s.nIn := by
      simp [SignatureHashOld.onlyOutput] at hi
      omega
    simp only [SignatureHashOld.onlyOutput, List.getElem_mapIdx, List.getElem_take,
      List.getElem_map, List.getElem_zipIdx, editOutput, hsingle, Nat.zero_add, true_and]
    by_cases hi : i < s.nIn
    · rw [if_pos hi, if_pos (Nat.ne_of_lt hi)]
    · rw [if_neg hi, if_neg (by omega)]

theorem blankInputs_eq (h : s.nIn < s.txTo.vin.length) (vout : List CTxOut) :
    SignatureHashOld.blankInputs s.nIn s.nHashType
        ⟨s.txTo.nVersion, s.editedInputs, vout, s.txTo.nLockTime⟩ =
      ⟨s.txTo.nVersion, s.inputs.map s.editInput, vout, s.txTo.nLockTime⟩ := by
  have hany : s.fAnyoneCanPay = true ↔ s.nHashType &&& SIGHASH_ANYONECANPAY ≠ 0 := by
    simp [fAnyoneCanPay]
  rw [editedInputs_eq, inputs, SignatureHashOld.blankInputs]
  by_cases hflag : s.fAnyoneCanPay = true
  · rw [if_pos (hany.mp hflag), if_pos hflag, onlyInput_eq s.editInput h]
  · rw [if_neg (mt hany.mpr hflag), if_neg hflag]

/-- **The edits by the base of the hash type**: none of the outputs, one of them, or all. -/
theorem blankOutputs_eq (s : CTransactionSignatureSerializer) :
    SignatureHashOld.blankOutputs s.nIn s.nHashType ⟨s.txTo.nVersion, SignatureHashOld.signInput
          (s.scriptCode.findAndDelete [OP_CODESEPARATOR]).2 s.nIn s.txTo.vin, s.txTo.vout,
          s.txTo.nLockTime⟩ =
      if s.nHashType &&& 0x1f = SIGHASH_SINGLE ∧ s.txTo.vout.length ≤ s.nIn then none
      else some ⟨s.txTo.nVersion, s.editedInputs, s.outputs.map s.editOutput,
        s.txTo.nLockTime⟩ := by
  have hsingle : s.fHashSingle = true ↔ s.nHashType &&& 0x1f = SIGHASH_SINGLE := by
    simp [fHashSingle]
  have hnone : s.fHashNone = true ↔ s.nHashType &&& 0x1f = SIGHASH_NONE := by
    simp [fHashNone]
  unfold SignatureHashOld.blankOutputs editedInputs outputs
  dsimp only
  by_cases hbase : s.nHashType &&& 0x1f = SIGHASH_NONE
  · have hother : ¬ s.nHashType &&& 0x1f = SIGHASH_SINGLE := by
      rw [hbase]
      decide
    have hothers : (s.fHashSingle || s.fHashNone) = true := by
      rw [hnone.mpr hbase, Bool.or_true]
    rw [if_pos hbase, if_neg fun h => hother h.1, if_pos hothers, if_pos (hnone.mpr hbase)]
    rfl
  rw [if_neg hbase, if_neg (mt hnone.mp hbase)]
  by_cases hone : s.nHashType &&& 0x1f = SIGHASH_SINGLE
  · have hothers : (s.fHashSingle || s.fHashNone) = true := by
      rw [hsingle.mpr hone, Bool.true_or]
    rw [if_pos hone, if_pos hothers, if_pos (hsingle.mpr hone), onlyOutput_eq (hsingle.mpr hone)]
    simp only [hone, true_and]
  · have hothers : ¬ (s.fHashSingle || s.fHashNone) = true := by
      rw [Bool.or_eq_true, not_or]
      exact ⟨mt hsingle.mp hone, mt hnone.mp hbase⟩
    have hall : s.txTo.vout.zipIdx.map s.editOutput = s.txTo.vout := by
      have hedit : s.editOutput = Prod.fst := funext fun x => if_neg fun h => hone (hsingle.mp h.1)
      rw [hedit, List.zipIdx_map_fst]
    rw [if_neg hone, if_neg fun h => hone h.1, if_neg hothers, if_neg (mt hsingle.mp hone), hall]

/-- **The copy is the transaction after the edits**, unless an index is out of range. -/
theorem txTmp_eq (s : CTransactionSignatureSerializer) :
    SignatureHashOld.txTmp s.scriptCode s.txTo s.nIn s.nHashType =
      if s.txTo.vin.length ≤ s.nIn then none
      else if s.nHashType &&& 0x1f = SIGHASH_SINGLE ∧ s.txTo.vout.length ≤ s.nIn then none
      else some s.edited := by
  by_cases hin : s.txTo.vin.length ≤ s.nIn
  · rw [if_pos hin, SignatureHashOld.txTmp, if_pos hin]
  rw [if_neg hin, SignatureHashOld.txTmp, if_neg hin]
  dsimp only
  rw [blankOutputs_eq]
  split
  · rfl
  · rw [Option.map_some, blankInputs_eq (Nat.lt_of_not_le hin)]
    rfl

end CTransactionSignatureSerializer

/--
**The streaming signature hash is that of the edited copy**: for a script whose instructions are
whole, the same bytes are hashed, and the hash is 1 for the same indices.
-/
theorem signatureHash_eq_signatureHashOld {scriptCode : CScript} (h : scriptCode.Parses)
    (txTo : CTransaction) (nIn nHashType : Nat) :
    signatureBytes scriptCode txTo nIn nHashType = signatureBytesOld scriptCode txTo nIn nHashType ∧
      ∀ env, signatureHash env scriptCode txTo nIn nHashType =
        signatureHashOld env scriptCode txTo nIn nHashType := by
  have hbytes : signatureBytes scriptCode txTo nIn nHashType =
      signatureBytesOld scriptCode txTo nIn nHashType := by
    rw [signatureBytes, signatureBytesOld,
      CTransactionSignatureSerializer.txTmp_eq ⟨txTo, scriptCode, nIn, nHashType⟩,
      CTransactionSignatureSerializer.serialize_eq_edited h]
    dsimp only
    split
    · rfl
    · split <;> rfl
  refine ⟨hbytes, fun env => ?_⟩
  rw [signatureHash_eq_elim, hbytes]
  rfl

/-- A script with a separator, for the second input and its output alone. -/
theorem signatureHash_eq_signatureHashOld_single :
    signatureBytes [OP_DUP, OP_CODESEPARATOR, OP_CHECKSIG]
        ⟨7, 1, [⟨⟨5, 0⟩, [], 1⟩, ⟨⟨6, 1⟩, [], 2⟩], [⟨10, [], -10⟩, ⟨20, [], -10⟩], 0⟩ 1 0x83 =
      signatureBytesOld [OP_DUP, OP_CODESEPARATOR, OP_CHECKSIG]
        ⟨7, 1, [⟨⟨5, 0⟩, [], 1⟩, ⟨⟨6, 1⟩, [], 2⟩], [⟨10, [], -10⟩, ⟨20, [], -10⟩], 0⟩ 1 0x83 :=
  have hparses : CScript.Parses [OP_DUP, OP_CODESEPARATOR, OP_CHECKSIG] :=
    (CScript.parses_op rfl).mpr ((CScript.parses_op rfl).mpr ((CScript.parses_op rfl).mpr
      ((CScript.parses_stop rfl).mpr rfl)))
  (signatureHash_eq_signatureHashOld hparses _ 1 0x83).1

end BitBlocks
