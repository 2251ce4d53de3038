import BitBlocks.Wallet.Acceptable

/-!
# The final transaction, as a client sees it

The masternode merges the entries of all clients and sends the result to each of them. A client
looks for its own inputs in it and signs those it finds, after a test of the outputs: it counts
how often one of them is found, and compares the values. An input that is not found is passed
over. And an output that is found twice counts twice, so it can stand in for one that is missing
if they are worth the same, as the outputs of a mixing session are.
-/

namespace BitBlocks

open Wrap

/-! ## What `SignSignature` leaves in the input -/

namespace Signer

variable {Key : Type} (G : Signer Key) (keystore : CKeyStore Key)

/-- The script `Solver` with a key store has made when it returns, whatever it returns. -/
def solveInPlace (scriptPubKey : CScript) (hash : Valtype) (nHashType : UInt8) : CScript :=
  match scriptPubKey.solver with
  | some (.multisig, vSolutions) =>
    (G.signNLoop keystore hash nHashType (CScript.firstNumber vSolutions)
      vSolutions.tail.dropLast 0 [OP_0]).2
  | _ => (G.solve keystore scriptPubKey hash nHashType).elim [] Prod.fst

/-- The signature script in the input when `SignSignature` returns, whatever it returns. -/
def produceInPlace (fromPubKey : CScript) (txTo : CTransaction) (nIn : Nat) (nHashType : UInt8) :
    CScript :=
  let hash := signatureHash G.env fromPubKey txTo nIn nHashType.toNat
  match G.solve keystore fromPubKey hash nHashType with
  | none => G.solveInPlace keystore fromPubKey hash nHashType
  | some (scriptSig, whichType) =>
    if whichType = .scripthash then
      let subscript := scriptSig
      let hash2 := signatureHash G.env subscript txTo nIn nHashType.toNat
      -- append serialized subscript whether or not it is completely signed
      G.solveInPlace keystore subscript hash2 nHashType ++ CScript.push subscript
    else scriptSig

/-- The transaction when `SignSignature` returns. -/
def signInPlace (fromPubKey : CScript) (txTo : CMutableTransaction) (nIn : Nat)
    (nHashType : UInt8) : CMutableTransaction :=
  { txTo with
    vin := txTo.vin.modify nIn fun txin =>
      { txin with
        scriptSig := G.produceInPlace keystore fromPubKey (txTo.toTransaction 0) nIn nHashType } }

variable {G keystore}

end Signer

/-! ## `SignFinalTransaction` -/

namespace PoolState

/-- `mine`, the place of an input among those of the transaction, the last one if there are
more. -/
def lastIndex (s : CTxIn) (vin : List CTxIn) : Option Nat :=
  vin.zipIdx.foldl (fun mine x => if x.1 = s then some x.2 else mine) none

/-- The equal pairs of an output of the transaction and an own one. -/
def found (vout mine : List CTxOut) : List CTxOut :=
  vout.flatMap fun out => mine.filter fun o => decide (out = o)

/-- My entries are not correct: `foundOutputs` and `nValue1` are of the pairs. -/
def refuses (vout mine : List CTxOut) : Bool := decide ((found vout mine).length < mine.length) ||
    sumValueOut (found vout mine) != sumValueOut mine

section

variable {Key : Type} (G : Signer Key) (keystore : CKeyStore Key)

/-- The body of the loop over the inputs of an entry, which has the outputs `vout`. The input is
added to the signatures whether or not `SignSignature` succeeds. -/
def signInput (vout : List CTxOut) (r : CMutableTransaction × List CTxIn) (s : CTxDSIn) :
    Option (CMutableTransaction × List CTxIn) :=
  match lastIndex s.toCTxIn r.1.vin with
  | none => some r
  | some mine =>
    if refuses r.1.vout vout then none
    else
      -- SIGHASH_ALL | SIGHASH_ANYONECANPAY
      let tx := G.signInPlace keystore s.prevPubKey r.1 mine 0x81
      some (tx, r.2 ++ tx.vin[mine]?.toList)

/-- The loop over the entries: the transaction as it is signed, and the signatures. -/
def signEntries (entries : List CObfuScationEntry) (tx : CMutableTransaction) :
    Option (CMutableTransaction × List CTxIn) :=
  entries.foldlM (fun r e => e.sev.foldlM (signInput G keystore e.vout) r) (tx, [])

/-- `SignFinalTransaction`, with the signatures that are pushed to the masternode. -/
def signFinalTransaction (fMasterNode : Bool) (env : PoolEnv) (s : PoolState)
    (finalTransactionNew : CMutableTransaction) : PoolState × Bool × List CTxIn :=
  if fMasterNode then (s, false, [])
  else
    match signEntries G keystore s.entries finalTransactionNew with
    | none => ({ s with finalTransaction := finalTransactionNew }.setNull env, false, [])
    | some (finalTransaction, sigs) => ({ s with finalTransaction }, true, sigs)

end

/-! ## One input -/

theorem lastIndex_zipIdx (s : CTxIn) (xs : List (CTxIn × Nat)) (acc : Option Nat) :
    (xs.foldl (fun mine x => if x.1 = s then some x.2 else mine) acc = none ↔
      acc = none ∧ ∀ x ∈ xs, x.1 ≠ s) ∧
    ∀ mine, xs.foldl (fun mine x => if x.1 = s then some x.2 else mine) acc = some mine →
      acc = some mine ∨ (s, mine) ∈ xs := by
  induction xs generalizing acc with
  | nil => exact ⟨by simp, fun mine h => Or.inl h⟩
  | cons x xs ih =>
    rw [List.foldl_cons, List.forall_mem_cons]
    by_cases hx : x.1 = s
    · rw [if_pos hx]
      obtain ⟨hnone, hsome⟩ := ih (some x.2)
      refine ⟨?_, fun mine h => ?_⟩
      · rw [hnone]
        constructor
        · exact fun h => nomatch h.1
        · exact fun h => absurd hx h.2.1
      · rcases hsome mine h with heq | hmem
        · right
          rw [← hx, ← Option.some.inj heq]
          exact List.mem_cons_self
        · exact Or.inr (List.mem_cons_of_mem x hmem)
    · rw [if_neg hx]
      obtain ⟨hnone, hsome⟩ := ih acc
      refine ⟨?_, fun mine h => ?_⟩
      · rw [hnone]
        exact ⟨fun h => ⟨h.1, hx, h.2⟩, fun h => ⟨h.1, h.2.2⟩⟩
      · exact (hsome mine h).imp_right (List.mem_cons_of_mem x)

variable {s : CTxIn} {vin : List CTxIn}

theorem lastIndex_eq_none : lastIndex s vin = none ↔ s ∉ vin := by
  rw [lastIndex, (lastIndex_zipIdx s vin.zipIdx none).1]
  constructor
  · rintro ⟨-, hne⟩ hmem
    obtain ⟨k, hk⟩ := List.mem_iff_getElem?.mp hmem
    exact hne (s, k) (List.mk_mem_zipIdx_iff_getElem?.mpr hk) rfl
  · intro hnot
    refine ⟨rfl, fun x hx heq => hnot ?_⟩
    rw [← heq]
    exact List.mem_of_getElem? (List.mk_mem_zipIdx_iff_getElem?.mp hx)

theorem lastIndex_eq_some {mine : Nat} (h : lastIndex s vin = some mine) : vin[mine]? = some s := by
  rcases (lastIndex_zipIdx s vin.zipIdx none).2 mine h with hnone | hmem
  · exact nomatch hnone
  · exact List.mk_mem_zipIdx_iff_getElem?.mp hmem

section

variable {Key : Type} {G : Signer Key} {keystore : CKeyStore Key}

/-- The next state of the loop when an input is signed: other inputs are as they were. -/
structure Signs (s : CTxDSIn) (r r' : CMutableTransaction × List CTxIn) : Prop where
  vout : r'.1.vout = r.1.vout
  others : ∀ txin : CTxIn, txin.prevout ≠ s.prevout → (txin ∈ r'.1.vin ↔ txin ∈ r.1.vin)
  sigs : r'.2.map CTxIn.prevout = r.2.map CTxIn.prevout ++ [s.prevout]

theorem signs_of_match {s : CTxDSIn} {r : CMutableTransaction × List CTxIn} {mine : Nat}
    (h : r.1.vin[mine]? = some s.toCTxIn) (scriptSig : CScript) :
    Signs s r ({ r.1 with vin := r.1.vin.modify mine fun txin => { txin with scriptSig } },
      r.2 ++ (r.1.vin.modify mine fun txin => { txin with scriptSig })[mine]?.toList) where
  vout := rfl
  others txin hne := by
    rw [List.mem_iff_getElem?, List.mem_iff_getElem?]
    refine exists_congr fun k => ?_
    by_cases hk : mine = k
    · -- the input that was signed is still of the same coin
      subst hk
      rw [List.getElem?_modify_eq, h]
      constructor
      · intro heq
        exact absurd (congrArg CTxIn.prevout (Option.some.inj heq)).symm hne
      · intro heq
        exact absurd (congrArg CTxIn.prevout (Option.some.inj heq)).symm hne
    · rw [List.getElem?_modify_ne _ _ hk]
  sigs := by
    rw [List.getElem?_modify_eq, h, List.map_append]
    rfl

/-- **One input**: it is passed over, it is refused, or it is signed. -/
theorem signInput_cases (G : Signer Key) (keystore : CKeyStore Key) (vout : List CTxOut)
    (r : CMutableTransaction × List CTxIn) (s : CTxDSIn) :
    (s.toCTxIn ∉ r.1.vin ∧ signInput G keystore vout r s = some r) ∨
    (s.toCTxIn ∈ r.1.vin ∧ refuses r.1.vout vout = true ∧ signInput G keystore vout r s = none) ∨
    (s.toCTxIn ∈ r.1.vin ∧ refuses r.1.vout vout = false ∧
      ∃ r', signInput G keystore vout r s = some r' ∧ Signs s r r') := by
  cases hmine : lastIndex s.toCTxIn r.1.vin with
  | none =>
    left
    exact ⟨lastIndex_eq_none.mp hmine, by rw [signInput, hmine]⟩
  | some mine =>
    right
    have hget := lastIndex_eq_some hmine
    have hmem := List.mem_of_getElem? hget
    cases hrefuses : refuses r.1.vout vout with
    | true =>
      left
      exact ⟨hmem, rfl, by simp only [signInput, hmine, hrefuses, if_true]⟩
    | false =>
      right
      refine ⟨hmem, rfl, _, ?_, signs_of_match hget
        (G.produceInPlace keystore s.prevPubKey (r.1.toTransaction 0) mine 0x81)⟩
      simp only [signInput, hmine, hrefuses]
      rfl

/-! ## All inputs -/

/-- The own inputs, each with the outputs of its entry. -/
def ownInputs (entries : List CObfuScationEntry) : List (List CTxOut × CTxDSIn) :=
  entries.flatMap fun e => e.sev.map fun s => (e.vout, s)

theorem signEntries_eq (entries : List CObfuScationEntry) (r : CMutableTransaction × List CTxIn) :
    entries.foldlM (fun r e => e.sev.foldlM (signInput G keystore e.vout) r) r =
      (ownInputs entries).foldlM (fun r p => signInput G keystore p.1 r p.2) r := by
  induction entries generalizing r with
  | nil => rfl
  | cons e entries ih =>
    rw [List.foldlM_cons, ownInputs, List.flatMap_cons, List.foldlM_append, List.foldlM_map]
    exact congrArg _ (funext ih)

/-- **The inputs of different coins do not meddle with each other**: each is dealt with as if the
transaction were still the one that was received. -/
theorem signInputs_eq (G : Signer Key) (keystore : CKeyStore Key)
    {ps : List (List CTxOut × CTxDSIn)} (hnodup : (ps.map (·.2.prevout)).Nodup)
    (r : CMutableTransaction × List CTxIn) :
    ((∃ p ∈ ps, p.2.toCTxIn ∈ r.1.vin ∧ refuses r.1.vout p.1 = true) ∧
      ps.foldlM (fun r p => signInput G keystore p.1 r p.2) r = none) ∨
    ((∀ p ∈ ps, p.2.toCTxIn ∈ r.1.vin → refuses r.1.vout p.1 = false) ∧
      ∃ r', ps.foldlM (fun r p => signInput G keystore p.1 r p.2) r = some r' ∧
        r'.2.map CTxIn.prevout = r.2.map CTxIn.prevout ++
          (ps.filter fun p => p.2.toCTxIn ∈ r.1.vin).map (·.2.prevout)) := by
  induction ps generalizing r with
  | nil => exact Or.inr ⟨by simp, r, rfl, by simp⟩
  | cons p ps ih =>
    rw [List.map_cons, List.nodup_cons] at hnodup
    obtain ⟨hnew, hnodup'⟩ := hnodup
    rw [List.foldlM_cons]
    rcases signInput_cases G keystore p.1 r p.2 with
      ⟨hnot, hstep⟩ | ⟨hmem, hrefuses, hstep⟩ | ⟨hmem, hrefuses, r1, hstep, hsigns⟩
    · rw [hstep]
      rcases ih hnodup' r with ⟨⟨q, hq, hfails⟩, hrun⟩ | ⟨hall, r', hrun, hsigs⟩
      · exact Or.inl ⟨⟨q, List.mem_cons_of_mem p hq, hfails⟩, hrun⟩
      · right
        refine ⟨List.forall_mem_cons.mpr ⟨fun hmem => absurd hmem hnot, hall⟩, r', hrun, ?_⟩
        rw [hsigs, List.filter_cons_of_neg (by simpa using hnot)]
    · rw [hstep]
      exact Or.inl ⟨⟨p, List.mem_cons_self, hmem, hrefuses⟩, rfl⟩
    · have hsame (q : List CTxOut × CTxDSIn) (hq : q ∈ ps) :
          q.2.toCTxIn ∈ r1.1.vin ↔ q.2.toCTxIn ∈ r.1.vin := by
        refine hsigns.others q.2.toCTxIn fun heq => hnew ?_
        rw [← heq]
        exact List.mem_map_of_mem hq
      rw [hstep]
      rcases ih hnodup' r1 with ⟨⟨q, hq, hin, hfails⟩, hrun⟩ | ⟨hall, r', hrun, hsigs⟩
      · left
        rw [hsigns.vout] at hfails
        exact ⟨⟨q, List.mem_cons_of_mem p hq, (hsame q hq).mp hin, hfails⟩, hrun⟩
      · right
        refine ⟨List.forall_mem_cons.mpr ⟨fun _ => hrefuses, fun q hq hin => ?_⟩, r', hrun, ?_⟩
        · rw [← hsigns.vout]
          exact hall q hq ((hsame q hq).mpr hin)
        · have hfilter : (ps.filter fun q => q.2.toCTxIn ∈ r1.1.vin) =
              ps.filter fun q => q.2.toCTxIn ∈ r.1.vin :=
            List.filter_congr fun q hq => decide_eq_decide.mpr (hsame q hq)
          rw [hsigs, hsigns.sigs, hfilter, List.filter_cons_of_pos (by simpa using hmem),
            List.map_cons, List.append_assoc, List.singleton_append]

/-! ## The outputs -/

theorem length_filter_eq_sum (out : CTxOut) (mine : List CTxOut) :
    (mine.filter fun o => decide (out = o)).length =
      (mine.map fun o => if out == o then 1 else 0).sum := by
  induction mine with
  | nil => rfl
  | cons o mine ih =>
    rw [List.map_cons, List.sum_cons, ← ih]
    by_cases h : out = o
    · rw [List.filter_cons_of_pos (by simpa using h), if_pos (by simpa using h), List.length_cons,
        Nat.add_comm]
    · rw [List.filter_cons_of_neg (by simpa using h), if_neg (by simpa using h), Nat.zero_add]

theorem length_found (vout mine : List CTxOut) :
    (found vout mine).length = (mine.map fun o => vout.count o).sum := by
  induction vout with
  | nil => simp [found]
  | cons out vout ih =>
    have hcount : (mine.map fun o => (out :: vout).count o) =
        mine.map fun o => vout.count o + if out == o then 1 else 0 :=
      List.map_congr_left fun o _ => List.count_cons
    rw [found] at ih
    rw [found, List.flatMap_cons, List.length_append, ih, length_filter_eq_sum, hcount,
      List.sum_map_add, Nat.add_comm]

/-- **An output that is missing is made up for by another**, if the test of the count passes. -/
theorem exists_twice {vout mine : List CTxOut} (hrefuses : refuses vout mine = false)
    {o : CTxOut} (ho : o ∈ mine) (hmissing : o ∉ vout) : ∃ o' ∈ mine, 1 < vout.count o' := by
  by_contra hnone
  have hone (o' : CTxOut) (ho' : o' ∈ mine) : vout.count o' ≤ 1 := by
    by_contra hgt
    exact hnone ⟨o', ho', Nat.lt_of_not_le hgt⟩
  have hless : (mine.map fun o' => vout.count o').sum < (mine.map fun _ => 1).sum := by
    refine List.sum_lt_sum _ _ hone ⟨o, ho, ?_⟩
    rw [List.count_eq_zero_of_not_mem hmissing]
    exact Nat.one_pos
  have henough : ¬ (found vout mine).length < mine.length := by
    rw [refuses, Bool.or_eq_false_iff, decide_eq_false_iff_not] at hrefuses
    exact hrefuses.1
  rw [List.map_const', List.sum_replicate, smul_eq_mul, Nat.mul_one, ← length_found] at hless
  exact henough hless

/-! ## What is signed -/

/-- A signature for an input of the entry is among those. -/
def IsSigned (sigs : List CTxIn) (e : CObfuScationEntry) : Prop :=
  ∃ s ∈ e.sev, ∃ sig ∈ sigs, sig.prevout = s.prevout

instance (sigs : List CTxIn) (e : CObfuScationEntry) : Decidable (IsSigned sigs e) :=
  inferInstanceAs (Decidable (∃ s ∈ e.sev, ∃ sig ∈ sigs, sig.prevout = s.prevout))

/-- **Only what was agreed to is signed**: of an entry with a signature all inputs are there, and
the outputs of all these entries are among the outputs, as often as they were asked for. -/
def SignsOnlyAgreed (entries : List CObfuScationEntry) (tx : CMutableTransaction)
    (sigs : List CTxIn) : Prop :=
  (∀ e ∈ entries, IsSigned sigs e → ∀ s ∈ e.sev, ∃ txin ∈ tx.vin, txin.prevout = s.prevout) ∧
  ((entries.filter fun e => IsSigned sigs e).flatMap (·.vout)).Subperm tx.vout

/-- The client spends each of its coins once, and asks for each output with a key of its own. -/
structure OwnEntries (entries : List CObfuScationEntry) : Prop where
  inputs : ((entries.flatMap (·.sev)).map (·.prevout)).Nodup
  outputs : ((entries.flatMap (·.vout)).map (·.scriptPubKey)).Nodup

/-- An input of the entry is found in the transaction. -/
def TakesPart (tx : CMutableTransaction) (e : CObfuScationEntry) : Prop :=
  ∃ s ∈ e.sev, s.toCTxIn ∈ tx.vin

/-- No input of the entry is left out, and no output is replaced by another one of the entry. -/
def NothingReplaced (tx : CMutableTransaction) (e : CObfuScationEntry) : Prop :=
  (∀ s ∈ e.sev, ∃ txin ∈ tx.vin, txin.prevout = s.prevout) ∧
  ((∃ o ∈ e.vout, o ∉ tx.vout) → ∀ o ∈ e.vout, tx.vout.count o ≤ 1)

theorem map_prevout_ownInputs (entries : List CObfuScationEntry) :
    (ownInputs entries).map (·.2.prevout) = (entries.flatMap (·.sev)).map (·.prevout) := by
  simp only [ownInputs, List.map_flatMap, List.map_map, Function.comp_def]

variable {entries : List CObfuScationEntry}

theorem mem_ownInputs {p : List CTxOut × CTxDSIn} :
    p ∈ ownInputs entries ↔ ∃ e ∈ entries, p.2 ∈ e.sev ∧ p.1 = e.vout := by
  rw [ownInputs, List.mem_flatMap]
  refine exists_congr fun e => and_congr_right fun _ => ?_
  rw [List.mem_map]
  constructor
  · rintro ⟨s, hs, rfl⟩
    exact ⟨hs, rfl⟩
  · rintro ⟨hs, hvout⟩
    exact ⟨p.2, hs, by rw [← hvout]⟩

/-- **What `SignFinalTransaction` sends**: nothing, if an entry that takes part is refused;
otherwise the signatures of the entries that take part. -/
theorem signFinalTransaction_cases (G : Signer Key) (keystore : CKeyStore Key)
    (hown : OwnEntries entries) (tx : CMutableTransaction) :
    ((∃ e ∈ entries, TakesPart tx e ∧ refuses tx.vout e.vout = true) ∧
      signEntries G keystore entries tx = none) ∨
    ((∀ e ∈ entries, TakesPart tx e → refuses tx.vout e.vout = false) ∧
      ∃ r, signEntries G keystore entries tx = some r ∧
        ∀ e ∈ entries, IsSigned r.2 e ↔ TakesPart tx e) := by
  have hnodup := hown.inputs
  rw [← map_prevout_ownInputs] at hnodup
  rw [signEntries, signEntries_eq]
  rcases signInputs_eq G keystore hnodup (tx, []) with
    ⟨⟨p, hp, hin, hrefuses⟩, hrun⟩ | ⟨hall, r, hrun, hsigs⟩
  · left
    obtain ⟨e, he, hs, hvout⟩ := mem_ownInputs.mp hp
    rw [hvout] at hrefuses
    exact ⟨⟨e, he, ⟨p.2, hs, hin⟩, hrefuses⟩, hrun⟩
  · right
    refine ⟨?_, r, hrun, ?_⟩
    · rintro e he ⟨s, hs, hin⟩
      exact hall (e.vout, s) (mem_ownInputs.mpr ⟨e, he, hs, rfl⟩) hin
    · intro e he
      have hprevouts : r.2.map CTxIn.prevout = ((ownInputs entries).filter fun p =>
          p.2.toCTxIn ∈ tx.vin).map (·.2.prevout) := hsigs
      constructor
      · rintro ⟨s, hs, sig, hsig, hprevout⟩
        have hmem : s.prevout ∈ r.2.map CTxIn.prevout := hprevout ▸ List.mem_map_of_mem hsig
        rw [hprevouts, List.mem_map] at hmem
        obtain ⟨p, hp, hsame⟩ := hmem
        obtain ⟨hown', hin⟩ := List.mem_filter.mp hp
        -- the coins are spent once, so it is this input that was found
        have hps : p = (e.vout, s) :=
          List.inj_on_of_nodup_map hnodup hown' (mem_ownInputs.mpr ⟨e, he, hs, rfl⟩) hsame
        rw [hps, decide_eq_true_eq] at hin
        exact ⟨s, hs, hin⟩
      · rintro ⟨s, hs, hin⟩
        have hmem : s.prevout ∈ r.2.map CTxIn.prevout := by
          rw [hprevouts]
          refine List.mem_map.mpr ⟨(e.vout, s), List.mem_filter.mpr ⟨?_, by simpa using hin⟩, rfl⟩
          exact mem_ownInputs.mpr ⟨e, he, hs, rfl⟩
        obtain ⟨sig, hsig, hprevout⟩ := List.mem_map.mp hmem
        exact ⟨s, hs, sig, hsig, hprevout⟩

/-- **The client signs only what it agreed to, unless something is replaced**: an own input is
left out, or an output gives way to a second copy of another one that is worth the same. -/
theorem signFinalTransaction_agreed_iff (fMasterNode : Bool) (env : PoolEnv) (s : PoolState)
    (hown : OwnEntries s.entries) (tx : CMutableTransaction) :
    SignsOnlyAgreed s.entries tx (signFinalTransaction G keystore fMasterNode env s tx).2.2 ↔
      fMasterNode = true ∨
      (∃ e ∈ s.entries, TakesPart tx e ∧ refuses tx.vout e.vout = true) ∨
      ∀ e ∈ s.entries, TakesPart tx e → NothingReplaced tx e := by
  have hnothing : SignsOnlyAgreed s.entries tx [] := by
    have hnot (e : CObfuScationEntry) : ¬ IsSigned [] e := by
      rintro ⟨_, -, _, hsig, -⟩
      exact absurd hsig (by simp)
    refine ⟨fun e _ h => absurd h (hnot e), ?_⟩
    rw [List.filter_eq_nil_iff.mpr (fun e _ => by simpa using hnot e)]
    exact List.nil_subperm
  cases fMasterNode with
  | true => exact ⟨fun _ => Or.inl rfl, fun _ => hnothing⟩
  | false =>
    rw [signFinalTransaction, if_neg (by decide)]
    rcases signFinalTransaction_cases G keystore hown tx with
      ⟨hrefused, hrun⟩ | ⟨hall, r, hrun, hsigned⟩
    · rw [hrun]
      exact ⟨fun _ => Or.inr (Or.inl hrefused), fun _ => hnothing⟩
    · rw [hrun]
      constructor
      · rintro ⟨hinputs, houtputs⟩
        refine Or.inr (Or.inr fun e he htakes => ?_)
        have hsig := (hsigned e he).mpr htakes
        refine ⟨hinputs e he hsig, ?_⟩
        rintro ⟨o, ho, hmissing⟩
        refine absurd (houtputs.subset ?_) hmissing
        exact List.mem_flatMap.mpr ⟨e, List.mem_filter.mpr ⟨he, by simpa using hsig⟩, ho⟩
      · rintro (hmaster | ⟨e, he, htakes, hrefuses⟩ | hnone)
        · exact nomatch hmaster
        · rw [hall e he htakes] at hrefuses
          exact nomatch hrefuses
        · refine ⟨fun e he hsig => (hnone e he ((hsigned e he).mp hsig)).1, ?_⟩
          have hsub : ((s.entries.filter fun e => IsSigned r.2 e).flatMap (·.vout)).Sublist
              (s.entries.flatMap (·.vout)) := List.filter_sublist.flatMap _
          refine List.subperm_of_subset (hsub.nodup hown.outputs.of_map) fun o ho => ?_
          obtain ⟨e, he, hmem⟩ := List.mem_flatMap.mp ho
          obtain ⟨he', hsig⟩ := List.mem_filter.mp he
          have htakes := (hsigned e he').mp (by simpa using hsig)
          by_contra hmissing
          obtain ⟨o', ho', htwice⟩ := exists_twice (hall e he' htakes) hmem hmissing
          exact absurd ((hnone e he' htakes).2 ⟨o, hmem, hmissing⟩ o' ho') (Nat.not_le_of_lt htwice)

end

/-! ## A transaction with one output twice -/

/-- A coin goes in, and two scripts are to get the same. -/
def splitCoin : CObfuScationEntry where
  isSet := true
  sev := [{ prevout := ⟨5, 0⟩, scriptSig := [], nSequence := 2 ^ 32 - 1,
            prevPubKey := CWallet.payScript, fHasSig := false }]
  vout := [⟨10, [1], -10⟩, ⟨10, [2], -10⟩]

def submitted : PoolState := { entries := [splitCoin], lastTimeChanged := 0 }

def bothToOne : CMutableTransaction where
  vin := [⟨⟨5, 0⟩, [], 2 ^ 32 - 1⟩]
  vout := [⟨10, [1], -10⟩, ⟨10, [1], -10⟩]

def eachToItsOwn : CMutableTransaction :=
  { bothToOne with vout := [⟨10, [2], -10⟩, ⟨10, [1], -10⟩] }

theorem ownEntries_submitted : OwnEntries submitted.entries := ⟨by decide, by decide⟩

/-- Where nothing is replaced, what the client signs is what it asked for. -/
theorem signFinalTransaction_agreed_iff_own :
    SignsOnlyAgreed submitted.entries eachToItsOwn (signFinalTransaction CWallet.payRules.signer
      (CWallet.payRules.keystore ()) false .bare submitted eachToItsOwn).2.2 := by
  refine (signFinalTransaction_agreed_iff false .bare submitted ownEntries_submitted _).mpr ?_
  refine Or.inr (Or.inr fun e he _ => ?_)
  obtain rfl := List.mem_singleton.mp he
  exact ⟨by decide, fun _ => by decide⟩

/-- **A client signs a transaction that keeps back one of its outputs**, which is there once less
than it asked for. -/
theorem signs_what_was_not_agreed : OwnEntries submitted.entries ∧
    ∃ sigs, (signFinalTransaction CWallet.payRules.signer (CWallet.payRules.keystore ()) false
        .bare submitted bothToOne).2 = (true, sigs) ∧
      sigs = [⟨⟨5, 0⟩, 9 :: CWallet.paySig ++ [0x81], 2 ^ 32 - 1⟩] ∧
      ¬ SignsOnlyAgreed submitted.entries bothToOne sigs := by
  refine ⟨ownEntries_submitted, _, rfl, rfl, ?_⟩
  rintro ⟨-, hsub⟩
  have hmem : (⟨10, [2], -10⟩ : CTxOut) ∈ bothToOne.vout := hsub.subset (by decide)
  exact absurd hmem (by decide)

end PoolState

end BitBlocks
