import BitBlocks.Wallet.CoinSelection

/-!
# How often a coin was mixed (`GetInputObfuscationRounds`)

An output of a denominated transaction was mixed once more than the least mixed of the
wallet's outputs that the transaction spends. The recursion remembers what it finds of each
output, and it is cut off at a depth of 16, where it answers 15 whatever is there. What is
computed from that answer is remembered like anything else. So what is known of an output may
depend on where the recursion started that came by it first.
-/

namespace BitBlocks

variable {K : Type} (R : WalletRules K) (pw : CWallet K)

/-- `mDenomWtxes`: the rounds of the outputs of the transactions that were come by. -/
abbrev DenomMemo := AList fun _ : Uint256 => List Int

/-- `mDenomWtxes[hash].vout[nout].nRounds = n` -/
def DenomMemo.write (memo : DenomMemo) (prevout : COutPoint) (n : Int) : DenomMemo :=
  memo.insert prevout.hash (((memo.lookup prevout.hash).getD []).set prevout.n n)

namespace CWallet

/-- `IsMine(txin)`. -/
def isMineIn (txin : CTxIn) : Bool :=
  match pw.prevOut txin with
  | some txout => pw.isMine R txout != ISMINE_NO
  | none => false

/-- The rounds of an output, where the transaction itself tells them. -/
def ownRounds (tx : CTransaction) (txout : CTxOut) : Option Int :=
  if isCollateralAmount txout.nValue then some (-3)
  -- make sure the final output is non-denominate
  else if !isDenominatedAmount txout.nValue then some (-2)
  -- this one is denominated but there is another non-denominated output found in the same tx
  else if !tx.vout.all fun out => isDenominatedAmount out.nValue then some 0
  else none

/-- `nShortest` and `fDenomFound`, after one more input. -/
def seeRounds (x : Int × Bool) (n : Int) : Int × Bool :=
  if n ≥ 0 ∧ (n < x.1 ∨ x.1 = -10) then (n, true) else x

/-- One round more than the shortest chain, but only 16 rounds max allowed. -/
def afterInputs (x : Int × Bool) : Int :=
  if x.2 then (if x.1 ≥ 15 then 16 else x.1 + 1) else 0

def inputRounds (rec : DenomMemo → COutPoint → Option (Int × DenomMemo)) :
    List CTxIn → Int × Bool → DenomMemo → Option ((Int × Bool) × DenomMemo)
  | [], x, memo => some (x, memo)
  | txin :: vin, x, memo =>
    if pw.isMineIn R txin then
      match rec memo txin.prevout with
      | none => none
      | some (n, memo) => inputRounds rec vin (seeRounds x n) memo
    else inputRounds rec vin x memo

/-- The rounds of an output that are not known yet. -/
def newRounds (rec : DenomMemo → COutPoint → Option (Int × DenomMemo)) (wtx : CWalletTx)
    (memo : DenomMemo) (prevout : COutPoint) : Option (Int × DenomMemo) :=
  match wtx.tx.vout[prevout.n]? with
  | none => some (-4, memo)
  | some txout =>
    match ownRounds wtx.tx txout with
    | some n => some (n, memo.write prevout n)
    | none =>
      match inputRounds R pw rec wtx.tx.vin (-10, false) memo with
      | none => none
      | some (x, memo) => some (afterInputs x, memo.write prevout (afterInputs x))

/-- `GetRealInputObfuscationRounds`, with `16 - rounds` levels left; `none` is a read outside of a
vector. -/
def getRealInputObfuscationRounds : (left : Nat) → DenomMemo → COutPoint → Option (Int × DenomMemo)
  | 0, memo, _ => some (15, memo)
  | left + 1, memo, prevout =>
    match pw.mapWallet.lookup prevout.hash with
    | none => some (16 - (left + 1) - 1, memo)
    | some wtx =>
      match memo.lookup prevout.hash with
      | none =>
        -- not known yet, let's add it
        newRounds R pw (getRealInputObfuscationRounds left) wtx
          (memo.insert prevout.hash (wtx.tx.vout.map CTxOut.nRounds)) prevout
      | some vout =>
        match vout[prevout.n]? with
        | none => none
        | some n =>
          -- found and it's not an initial value, just return it
          if n ≠ -10 then some (n, memo)
          else newRounds R pw (getRealInputObfuscationRounds left) wtx memo prevout

/-- `GetInputObfuscationRounds`. -/
def getInputObfuscationRounds (nObfuscationRounds : Int) (memo : DenomMemo) (prevout : COutPoint) :
    Option (DenomMemo × Int) :=
  match pw.getRealInputObfuscationRounds R 16 memo prevout with
  | none => none
  | some (realObfuscationRounds, memo) =>
    some (memo, if realObfuscationRounds > nObfuscationRounds then nObfuscationRounds
      else realObfuscationRounds)

/-! ## The recursion without a memo -/

/-- The outputs of the wallet that a transaction spends. -/
def ownInputs (tx : CTransaction) : List COutPoint :=
  (tx.vin.filter fun txin => pw.isMineIn R txin).map CTxIn.prevout

/-- A transaction comes after those whose outputs it spends. -/
structure Acyclic : Prop where
  wf : WellFounded fun parent child : Uint256 => ∃ wtx, pw.mapWallet.lookup child = some wtx ∧
    ∃ o ∈ pw.ownInputs R wtx.tx, o.hash = parent

variable {R pw}

/-- The rounds of an output: the recursion evaluated without a memo and without a depth. -/
def realRounds (h : pw.Acyclic R) (o : COutPoint) : Int :=
  match hwtx : pw.mapWallet.lookup o.hash with
  | none => -1
  | some wtx =>
    match wtx.tx.vout[o.n]? with
    | none => -4
    | some txout =>
      match ownRounds wtx.tx txout with
      | some n => n
      | none => afterInputs (((pw.ownInputs R wtx.tx).attach.map fun o' =>
        realRounds h o'.1).foldl seeRounds (-10, false))
termination_by h.wf.wrap o.hash
decreasing_by exact ⟨wtx, hwtx, o'.1, o'.2, rfl⟩

theorem realRounds_of_tx (h : pw.Acyclic R) {o : COutPoint} {wtx : CWalletTx}
    (hwtx : pw.mapWallet.lookup o.hash = some wtx) {txout : CTxOut}
    (htxout : wtx.tx.vout[o.n]? = some txout) :
    realRounds h o = (ownRounds wtx.tx txout).getD (afterInputs
      (((pw.ownInputs R wtx.tx).map (realRounds h)).foldl seeRounds (-10, false))) := by
  rw [realRounds]
  split
  · rename_i hnone
    rw [hwtx] at hnone
    cases hnone
  · rename_i wtx' hwtx'
    obtain rfl := Option.some.inj (hwtx.symm.trans hwtx')
    rw [htxout]
    dsimp only
    cases ownRounds wtx.tx txout with
    | some n => rfl
    | none =>
      dsimp only
      rw [List.attach_map_val, Option.getD_none]

theorem realRounds_of_none (h : pw.Acyclic R) {o : COutPoint}
    (hnone : pw.mapWallet.lookup o.hash = none) : realRounds h o = -1 := by
  rw [realRounds]
  split
  · rfl
  · rename_i hwtx
    rw [hnone] at hwtx
    cases hwtx

theorem realRounds_of_outside (h : pw.Acyclic R) {o : COutPoint} {wtx : CWalletTx}
    (hwtx : pw.mapWallet.lookup o.hash = some wtx) (hout : wtx.tx.vout[o.n]? = none) :
    realRounds h o = -4 := by
  rw [realRounds]
  split
  · rename_i hnone
    rw [hwtx] at hnone
    cases hnone
  · rename_i wtx' hwtx'
    obtain rfl := Option.some.inj (hwtx.symm.trans hwtx')
    rw [hout]

/-! ## What the memo holds -/

variable (R pw)

/-- An output has no rounds before its transaction is come by: none is built or read with any. -/
def Unrated : Prop :=
  ∀ hash wtx, pw.mapWallet.lookup hash = some wtx → ∀ txout ∈ wtx.tx.vout, txout.nRounds = -10

/-- The memo has the rounds of the output. -/
def Known (memo : DenomMemo) (o : COutPoint) : Prop :=
  ∃ vout n, memo.lookup o.hash = some vout ∧ vout[o.n]? = some n ∧ n ≠ -10

/-- An answer is in the memo for every output of a transaction of the wallet's, or nothing is;
what is there is as `P` says. -/
structure MemoHolds (P : COutPoint → Int → Prop) (memo : DenomMemo) : Prop where
  size : ∀ hash wtx vout, pw.mapWallet.lookup hash = some wtx → memo.lookup hash = some vout →
    vout.length = wtx.tx.vout.length
  holds : ∀ o vout n, (pw.mapWallet.lookup o.hash).isSome → memo.lookup o.hash = some vout →
    vout[o.n]? = some n → n ≠ -10 → P o n

structure Grows (memo memo' : DenomMemo) : Prop where
  known : ∀ o, Known memo o → Known memo' o
  entries : ∀ hash, (memo.lookup hash).isSome → (memo'.lookup hash).isSome

variable {R pw} {P : COutPoint → Int → Prop} {memo memo' : DenomMemo} {o : COutPoint}
  {wtx : CWalletTx} {txout : CTxOut}

theorem MemoHolds.empty : pw.MemoHolds P ∅ := by
  constructor
  · intro hash wtx vout _ h
    cases h
  · intro o vout n _ h
    cases h

theorem MemoHolds.insert (h : pw.MemoHolds P memo) (hwtx : pw.mapWallet.lookup o.hash = some wtx)
    (hinitial : ∀ txout ∈ wtx.tx.vout, txout.nRounds = -10) :
    pw.MemoHolds P (memo.insert o.hash (wtx.tx.vout.map CTxOut.nRounds)) := by
  constructor
  · intro hash wtx' vout hwtx' hlook
    rw [Table.lookup_insert] at hlook
    split at hlook
    · rename_i heq
      subst heq
      obtain rfl := Option.some.inj hlook
      obtain rfl := Option.some.inj (hwtx.symm.trans hwtx')
      exact List.length_map _
    · exact h.size hash wtx' vout hwtx' hlook
  · intro o' vout n hknown hlook hn hne
    rcases Table.of_lookup_insert hlook with ⟨-, rfl⟩ | ⟨-, hlook⟩
    · rw [List.getElem?_map] at hn
      obtain ⟨txout, htxout, rfl⟩ := Option.map_eq_some_iff.mp hn
      exact absurd (hinitial txout (List.mem_of_getElem? htxout)) hne
    · exact h.holds o' vout n hknown hlook hn hne

theorem Grows.refl (memo : DenomMemo) : Grows memo memo := ⟨fun _ h => h, fun _ h => h⟩

theorem Grows.trans {memo'' : DenomMemo} (h : Grows memo memo') (h' : Grows memo' memo'') :
    Grows memo memo'' :=
  ⟨fun o ho => h'.known o (h.known o ho), fun hash hh => h'.entries hash (h.entries hash hh)⟩

theorem isSome_lookup_insert {hash : Uint256} (hh : (memo.lookup hash).isSome) (vout : List Int) :
    ((memo.insert o.hash vout).lookup hash).isSome := by
  rw [Table.lookup_insert]
  split
  · rfl
  · exact hh

theorem grows_insert (hnone : memo.lookup o.hash = none) (vout : List Int) :
    Grows memo (memo.insert o.hash vout) := by
  refine ⟨?_, fun hash hh => isSome_lookup_insert hh vout⟩
  rintro o' ⟨vout', n, hlook, hn, hne⟩
  refine ⟨vout', n, ?_, hn, hne⟩
  rw [Table.lookup_insert, if_neg, hlook]
  intro heq
  rw [heq, hnone] at hlook
  cases hlook

variable {n : Int} {x : Int × Bool}

theorem MemoHolds.write (h : pw.MemoHolds P memo) (hn : P o n)
    (hlook : (memo.lookup o.hash).isSome) :
    pw.MemoHolds P (memo.write o n) := by
  obtain ⟨vout, hvout⟩ := Option.isSome_iff_exists.mp hlook
  have hwrite : memo.write o n = memo.insert o.hash (vout.set o.n n) := by
    rw [DenomMemo.write, hvout]
    rfl
  rw [hwrite]
  constructor
  · intro hash wtx' vout' hwtx' hlook'
    rw [Table.lookup_insert] at hlook'
    split at hlook'
    · rename_i heq
      subst heq
      obtain rfl := Option.some.inj hlook'
      rw [List.length_set]
      exact h.size _ _ _ hwtx' hvout
    · exact h.size hash wtx' vout' hwtx' hlook'
  · intro o' vout' m hknown hlook' hm hne
    rcases Table.of_lookup_insert hlook' with ⟨heq, rfl⟩ | ⟨-, hlook'⟩
    · rw [List.getElem?_set] at hm
      split at hm
      · rename_i hindex
        have hsame : o' = o := by
          cases o
          cases o'
          simp_all
        split at hm
        · obtain rfl := Option.some.inj hm
          rwa [hsame]
        · cases hm
      · exact h.holds o' vout m hknown (heq ▸ hvout) hm hne
    · exact h.holds o' vout' m hknown hlook' hm hne

theorem grows_write (hlook : (memo.lookup o.hash).isSome) (hn : n ≠ -10) :
    Grows memo (memo.write o n) := by
  obtain ⟨vout, hvout⟩ := Option.isSome_iff_exists.mp hlook
  refine ⟨?_, fun hash hh => isSome_lookup_insert hh _⟩
  rintro o' ⟨vout', m, hlook', hm, hne⟩
  rw [Known, DenomMemo.write, hvout]
  simp only [Table.lookup_insert, Option.getD_some]
  by_cases heq : o'.hash = o.hash
  · obtain rfl := Option.some.inj (hvout.symm.trans (heq ▸ hlook'))
    rw [if_pos heq]
    by_cases hindex : o.n = o'.n
    · refine ⟨_, n, rfl, ?_, hn⟩
      have hlt : o.n < vout.length := by
        rw [hindex]
        exact (List.getElem?_eq_some_iff.mp hm).1
      rw [← hindex, List.getElem?_set_self hlt]
    · exact ⟨_, m, rfl, by rw [List.getElem?_set_ne hindex, hm], hne⟩
  · rw [if_neg heq]
    exact ⟨vout', m, hlook', hm, hne⟩

/-! ## Evaluation with a memo -/

theorem afterInputs_bounds (h : x.2 = true → 0 ≤ x.1) : 0 ≤ afterInputs x ∧ afterInputs x ≤ 16 := by
  rw [afterInputs]
  split
  · rename_i hfound
    have hpos := h hfound
    split <;> omega
  · omega

theorem seeRounds_found (h : x.2 = true → 0 ≤ x.1) (n : Int) :
    (seeRounds x n).2 = true → 0 ≤ (seeRounds x n).1 := by
  rw [seeRounds]
  split
  · rename_i hn
    exact fun _ => hn.1
  · exact h

theorem foldl_seeRounds_found (ns : List Int) (h : x.2 = true → 0 ≤ x.1) :
    (ns.foldl seeRounds x).2 = true → 0 ≤ (ns.foldl seeRounds x).1 := by
  induction ns generalizing x with
  | nil => exact h
  | cons n ns ih => exact ih (seeRounds_found h n)

theorem afterInputs_foldl (ns : List Int) : 0 ≤ afterInputs (ns.foldl seeRounds (-10, false)) ∧
      afterInputs (ns.foldl seeRounds (-10, false)) ≤ 16 :=
  afterInputs_bounds (foldl_seeRounds_found ns fun h => absurd h Bool.false_ne_true)

theorem ownRounds_bounds {tx : CTransaction} (h : ownRounds tx txout = some n) :
    -3 ≤ n ∧ n ≤ 0 := by
  rw [ownRounds] at h
  split_ifs at h <;> obtain rfl := Option.some.inj h <;> decide

variable (R pw) in
/--
Answers as `P` has them can be given to whoever may ask with so many levels left, `Q`: there is
one for what the transaction tells, and one for what follows from the answers of the inputs. At
the depth where the recursion is cut off the answer need not be one.
-/
structure Answers (P : COutPoint → Int → Prop) (Q : DenomMemo → Nat → COutPoint → Prop) : Prop where
  mono : ∀ memo memo' left o, Grows memo memo' → Q memo left o → Q memo' left o
  unknown : ∀ memo left o, Q memo (left + 1) o → pw.mapWallet.lookup o.hash = none →
    P o (16 - (left + 1) - 1)
  inside : ∀ memo left o wtx, Q memo (left + 1) o → pw.mapWallet.lookup o.hash = some wtx →
    wtx.tx.vout[o.n]? ≠ none
  own : ∀ o wtx txout n, pw.mapWallet.lookup o.hash = some wtx → wtx.tx.vout[o.n]? = some txout →
    ownRounds wtx.tx txout = some n → P o n
  chain : ∀ memo left o wtx txout, Q memo (left + 1) o → ¬ Known memo o →
    pw.mapWallet.lookup o.hash = some wtx → wtx.tx.vout[o.n]? = some txout →
    ownRounds wtx.tx txout = none →
    (∀ c ∈ pw.ownInputs R wtx.tx, Q memo left c) ∧
      ∀ ns, List.Forall₂ (fun c n => left ≠ 0 → P c n) (pw.ownInputs R wtx.tx) ns →
        P o (afterInputs (ns.foldl seeRounds (-10, false)))

structure Answered (pw : CWallet K) (P : COutPoint → Int → Prop) (memo memo' : DenomMemo) :
    Prop where
  holds : pw.MemoHolds P memo'
  grows : Grows memo memo'

section

variable {Q : DenomMemo → Nat → COutPoint → Prop} {left : Nat}

/-- The loop over the inputs gets an answer for each of them. -/
theorem inputRounds_answered (hA : pw.Answers R P Q)
    (hrec : ∀ memo o, Q memo left o → pw.MemoHolds P memo → ∃ n memo',
      pw.getRealInputObfuscationRounds R left memo o = some (n, memo') ∧ (left ≠ 0 → P o n) ∧
        pw.Answered P memo memo') (vin : List CTxIn) (x : Int × Bool) (hmemo : pw.MemoHolds P memo)
    (hQ : ∀ txin ∈ vin, pw.isMineIn R txin = true → Q memo left txin.prevout) :
    ∃ ns memo', inputRounds R pw (pw.getRealInputObfuscationRounds R left) vin x memo =
        some (ns.foldl seeRounds x, memo') ∧
      List.Forall₂ (fun c n => left ≠ 0 → P c n)
        ((vin.filter fun txin => pw.isMineIn R txin).map CTxIn.prevout) ns ∧
      pw.Answered P memo memo' := by
  induction vin generalizing x memo with
  | nil => exact ⟨[], memo, rfl, List.Forall₂.nil, hmemo, Grows.refl memo⟩
  | cons txin vin ih =>
    obtain ⟨hQ', hQvin⟩ := List.forall_mem_cons.mp hQ
    rw [inputRounds]
    cases hmine : pw.isMineIn R txin with
    | false =>
      rw [if_neg Bool.false_ne_true, List.filter_cons_of_neg (by rw [hmine]; decide)]
      exact ih x hmemo hQvin
    | true =>
      obtain ⟨n, memo1, hget, hP, hanswered⟩ := hrec memo txin.prevout (hQ' hmine) hmemo
      obtain ⟨ns, memo2, hloop, hforall, hrest⟩ := ih (seeRounds x n) hanswered.holds
        fun txin' hmem hmine' => hA.mono _ _ _ _ hanswered.grows (hQvin txin' hmem hmine')
      refine ⟨n :: ns, memo2, ?_, ?_, hrest.holds, hanswered.grows.trans hrest.grows⟩
      · rw [if_pos rfl, hget]
        exact hloop
      · rw [List.filter_cons_of_pos hmine, List.map_cons]
        exact List.Forall₂.cons hP hforall

/-- What is computed anew is written down. -/
theorem newRounds_answered (hA : pw.Answers R P Q)
    (hrec : ∀ memo o, Q memo left o → pw.MemoHolds P memo → ∃ n memo',
      pw.getRealInputObfuscationRounds R left memo o = some (n, memo') ∧ (left ≠ 0 → P o n) ∧
        pw.Answered P memo memo')
    (hwtx : pw.mapWallet.lookup o.hash = some wtx) (htxout : wtx.tx.vout[o.n]? = some txout)
    (hmemo : pw.MemoHolds P memo) (hQ : Q memo (left + 1) o) (hnew : ¬ Known memo o)
    (hlook : (memo.lookup o.hash).isSome) :
    ∃ n memo', newRounds R pw (pw.getRealInputObfuscationRounds R left) wtx memo o =
      some (n, memo') ∧ P o n ∧ pw.Answered P memo memo' := by
  rw [newRounds, htxout]
  dsimp only
  cases hown : ownRounds wtx.tx txout with
  | some n =>
    have hP := hA.own o wtx txout n hwtx htxout hown
    have hne : n ≠ -10 := by
      have hbounds := ownRounds_bounds hown
      omega
    exact ⟨n, _, rfl, hP, hmemo.write hP hlook, grows_write hlook hne⟩
  | none =>
    obtain ⟨hQinputs, hchain⟩ := hA.chain memo left o wtx txout hQ hnew hwtx htxout hown
    obtain ⟨ns, memo', hloop, hforall, hanswered⟩ := inputRounds_answered hA hrec wtx.tx.vin
      (-10, false) hmemo fun txin hmem hmine => hQinputs _
        (List.mem_map_of_mem (List.mem_filter.mpr ⟨hmem, hmine⟩))
    have hP := hchain ns hforall
    have hlook' := hanswered.grows.entries o.hash hlook
    have hne : afterInputs (ns.foldl seeRounds (-10, false)) ≠ -10 := by
      have hbounds := afterInputs_foldl ns
      omega
    rw [hloop]
    exact ⟨_, _, rfl, hP, hanswered.holds.write hP hlook',
      hanswered.grows.trans (grows_write hlook' hne)⟩

/-- **Evaluation with a memo gives the answers**, and leaves a memo of answers. -/
theorem getReal_answered (hA : pw.Answers R P Q)
    (hinitial : pw.Unrated) (left : Nat) (memo : DenomMemo) (o : COutPoint) (hQ : Q memo left o)
    (hmemo : pw.MemoHolds P memo) :
    ∃ n memo', pw.getRealInputObfuscationRounds R left memo o = some (n, memo') ∧
      (left ≠ 0 → P o n) ∧ pw.Answered P memo memo' := by
  induction left generalizing memo o with
  | zero => exact ⟨15, memo, rfl, fun h => absurd rfl h, hmemo, Grows.refl memo⟩
  | succ left ih =>
    rw [getRealInputObfuscationRounds]
    cases hwtx : pw.mapWallet.lookup o.hash with
    | none => exact ⟨_, memo, rfl, fun _ => hA.unknown memo left o hQ hwtx, hmemo, Grows.refl memo⟩
    | some wtx =>
      dsimp only
      cases hlook : memo.lookup o.hash with
      | none =>
        have hgrows := grows_insert hlook (wtx.tx.vout.map CTxOut.nRounds)
        have hinsert := hmemo.insert hwtx (hinitial o.hash wtx hwtx)
        dsimp only
        cases htxout : wtx.tx.vout[o.n]? with
        | none =>
          exact absurd htxout (hA.inside memo left o wtx hQ hwtx)
        | some txout =>
          have hnew : ¬ Known (memo.insert o.hash (wtx.tx.vout.map CTxOut.nRounds)) o := by
            rintro ⟨vout, n, hvout, hn, hne⟩
            rw [Table.lookup_insert, if_pos rfl] at hvout
            obtain rfl := Option.some.inj hvout
            rw [List.getElem?_map, htxout] at hn
            obtain rfl := Option.some.inj hn
            exact hne (hinitial o.hash wtx hwtx txout (List.mem_of_getElem? htxout))
          have hsome : ((memo.insert o.hash (wtx.tx.vout.map CTxOut.nRounds)).lookup
              o.hash).isSome := by
            rw [Table.lookup_insert, if_pos rfl]
            rfl
          obtain ⟨n, memo', hget, hP, hanswered⟩ := newRounds_answered hA ih hwtx htxout
            hinsert (hA.mono _ _ _ _ hgrows hQ) hnew hsome
          exact ⟨n, memo', hget, fun _ => hP, hanswered.holds, hgrows.trans hanswered.grows⟩
      | some vout =>
        have hsize := hmemo.size o.hash wtx vout hwtx hlook
        dsimp only
        cases htxout : wtx.tx.vout[o.n]? with
        | none =>
          exact absurd htxout (hA.inside memo left o wtx hQ hwtx)
        | some txout =>
          have hlt : o.n < vout.length := by
            rw [hsize]
            exact (List.getElem?_eq_some_iff.mp htxout).1
          have hn := List.getElem?_eq_getElem hlt
          rw [hn]
          dsimp only
          by_cases hne : vout[o.n] ≠ -10
          · rw [if_pos hne]
            exact ⟨_, memo, rfl, fun _ => hmemo.holds o vout _ (by rw [hwtx]; rfl) hlook hn hne,
              hmemo, Grows.refl memo⟩
          · rw [if_neg hne]
            have hnew : ¬ Known memo o := by
              rintro ⟨vout', m, hvout, hm, hne'⟩
              obtain rfl := Option.some.inj (hlook.symm.trans hvout)
              obtain rfl := Option.some.inj (hn.symm.trans hm)
              exact hne hne'
            obtain ⟨n, memo', hget, hP, hanswered⟩ := newRounds_answered hA ih hwtx htxout
              hmemo hQ hnew (by rw [hlook]; rfl)
            exact ⟨n, memo', hget, fun _ => hP, hanswered⟩

end

/-! ## Evaluation that is not cut off -/

variable (R pw) in
/-- What the memo knows taken for granted, an output of the wallet's is evaluated in fewer levels
than are left. -/
def Within (memo : DenomMemo) : Nat → COutPoint → Prop
  | 0, _ => False
  | left + 1, o => ∃ wtx txout, pw.mapWallet.lookup o.hash = some wtx ∧
      wtx.tx.vout[o.n]? = some txout ∧ (Known memo o ∨
        (ownRounds wtx.tx txout = none → ∀ c ∈ pw.ownInputs R wtx.tx, Within memo left c))

variable (R pw) in
/-- A call that is answered right: of an output that is evaluated in 16 levels, of one that its
transaction does not have and that transaction was not come by, or of an unknown transaction. -/
def Answerable (memo : DenomMemo) (o : COutPoint) : Prop :=
  pw.mapWallet.lookup o.hash = none ∨ pw.Within R memo 16 o ∨
    ∃ wtx, pw.mapWallet.lookup o.hash = some wtx ∧ wtx.tx.vout[o.n]? = none ∧
      memo.lookup o.hash = none

theorem Within.mono (hgrows : Grows memo memo') {left : Nat} (h : pw.Within R memo left o) :
    pw.Within R memo' left o := by
  induction left generalizing o with
  | zero => exact h
  | succ left ih =>
    obtain ⟨wtx, txout, hwtx, htxout, hknown | hinputs⟩ := h
    · exact ⟨wtx, txout, hwtx, htxout, Or.inl (hgrows.known o hknown)⟩
    · exact ⟨wtx, txout, hwtx, htxout, Or.inr fun hown c hc => ih (hinputs hown c hc)⟩

theorem Within.asked (h : pw.Within R ∅ 16 o) (memo : DenomMemo) : pw.Answerable R memo o := by
  refine Or.inr (Or.inl (h.mono ⟨?_, ?_⟩))
  · rintro o' ⟨vout, n, hlook, -⟩
    cases hlook
  · intro hash hh
    cases hh

theorem eq_map_of_forall₂ {left : Nat} {f : COutPoint → Int} {cs : List COutPoint} {ns : List Int}
    (h : List.Forall₂ (fun c n => left ≠ 0 → f c = n) cs ns) (hleft : ∀ c ∈ cs, left ≠ 0) :
    ns = cs.map f := by
  induction h with
  | nil => rfl
  | cons hc _ ih =>
    obtain ⟨hne, hleft'⟩ := List.forall_mem_cons.mp hleft
    rw [List.map_cons, hc hne, ih hleft']

theorem answers_realRounds (h : pw.Acyclic R) :
    pw.Answers R (fun o n => realRounds h o = n) fun memo left o =>
      pw.Within R memo left o ∨ left = 16 ∧ pw.mapWallet.lookup o.hash = none where
  mono memo memo' left o hgrows hQ := hQ.imp_left (Within.mono hgrows)
  unknown memo left o hQ hnone := by
    rcases hQ with ⟨wtx, -, hwtx, -⟩ | ⟨hleft, -⟩
    · rw [hnone] at hwtx
      cases hwtx
    · obtain rfl : left = 15 := Nat.succ.inj hleft
      exact realRounds_of_none h hnone
  inside memo left o wtx hQ hwtx := by
    rcases hQ with ⟨wtx', txout, hwtx', htxout, -⟩ | ⟨-, hnone⟩
    · obtain rfl := Option.some.inj (hwtx.symm.trans hwtx')
      rw [htxout]
      exact Option.some_ne_none txout
    · rw [hnone] at hwtx
      cases hwtx
  own o wtx txout n hwtx htxout hown := by
    rw [realRounds_of_tx h hwtx htxout, hown]
    rfl
  chain memo left o wtx txout hQ hnew hwtx htxout hown := by
    have hinputs : ∀ c ∈ pw.ownInputs R wtx.tx, pw.Within R memo left c := by
      rcases hQ with ⟨wtx', txout', hwtx', htxout', hor⟩ | ⟨-, hnone⟩
      · obtain rfl := Option.some.inj (hwtx.symm.trans hwtx')
        obtain rfl := Option.some.inj (htxout.symm.trans htxout')
        exact hor.resolve_left hnew hown
      · rw [hnone] at hwtx
        cases hwtx
    refine ⟨fun c hc => Or.inl (hinputs c hc), fun ns hns => ?_⟩
    have hreal : ns = (pw.ownInputs R wtx.tx).map (realRounds h) := by
      refine eq_map_of_forall₂ hns fun c hc hleft => ?_
      subst hleft
      exact hinputs c hc
    rw [realRounds_of_tx h hwtx htxout, hown, Option.getD_none, hreal]

/-- **A call**: it is answered right, and leaves what is right in the memo. -/
theorem getInput_answered (h : pw.Acyclic R) (hinitial : pw.Unrated) (nObfuscationRounds : Int)
    (hasked : pw.Answerable R memo o)
    (hmemo : pw.MemoHolds (fun o n => realRounds h o = n) memo) :
    ∃ memo', pw.getInputObfuscationRounds R nObfuscationRounds memo o =
        some (memo', min nObfuscationRounds (realRounds h o)) ∧
      pw.MemoHolds (fun o n => realRounds h o = n) memo' := by
  have hmin : (if realRounds h o > nObfuscationRounds then nObfuscationRounds else realRounds h o) =
      min nObfuscationRounds (realRounds h o) := by
    rw [min_def]
    split_ifs <;> omega
  suffices ∃ memo', pw.getRealInputObfuscationRounds R 16 memo o =
      some (realRounds h o, memo') ∧ pw.MemoHolds (fun o n => realRounds h o = n) memo' by
    obtain ⟨memo', hget, hholds⟩ := this
    refine ⟨memo', ?_, hholds⟩
    rw [getInputObfuscationRounds, hget, ← hmin]
  have hlevels : ∀ hQ : pw.Within R memo 16 o ∨ 16 = 16 ∧ pw.mapWallet.lookup o.hash = none,
      ∃ memo', pw.getRealInputObfuscationRounds R 16 memo o =
        some (realRounds h o, memo') ∧ pw.MemoHolds (fun o n => realRounds h o = n) memo' := by
    intro hQ
    obtain ⟨n, memo', hget, hP, hanswered⟩ := getReal_answered (answers_realRounds h) hinitial 16
      memo o hQ hmemo
    obtain rfl := hP (by decide)
    exact ⟨memo', hget, hanswered.holds⟩
  rcases hasked with hnone | hwithin | ⟨wtx, hwtx, hout, hlook⟩
  · exact hlevels (Or.inr ⟨rfl, hnone⟩)
  · exact hlevels (Or.inl hwithin)
  · refine ⟨memo.insert o.hash (wtx.tx.vout.map CTxOut.nRounds), ?_,
      hmemo.insert hwtx (hinitial o.hash wtx hwtx)⟩
    rw [getRealInputObfuscationRounds, hwtx, realRounds_of_outside h hwtx hout]
    dsimp only
    rw [hlook]
    dsimp only
    rw [newRounds, hout]

abbrev inputRoundsRun (R : WalletRules K) (pw : CWallet K) (nObfuscationRounds : Int) :
    DenomMemo → List COutPoint → Option (DenomMemo × List Int) :=
  Machine.run (pw.getInputObfuscationRounds R nObfuscationRounds)

def afterCall (R : WalletRules K) (pw : CWallet K) (nObfuscationRounds : Int) (memo : DenomMemo)
    (o : COutPoint) : Option DenomMemo :=
  (pw.getInputObfuscationRounds R nObfuscationRounds memo o).map Prod.fst

/-- **Every call of a run is answered right.** -/
theorem inputRoundsRun_answered (h : pw.Acyclic R) (hinitial : pw.Unrated)
    (nObfuscationRounds : Int) (calls : List COutPoint)
    (hasked : Machine.EveryStep (pw.afterCall R nObfuscationRounds) (pw.Answerable R) memo calls)
    (hmemo : pw.MemoHolds (fun o n => realRounds h o = n) memo) :
    ∃ memo', inputRoundsRun R pw nObfuscationRounds memo calls =
      some (memo', calls.map fun o => min nObfuscationRounds (realRounds h o)) := by
  induction calls generalizing memo with
  | nil => exact ⟨memo, rfl⟩
  | cons o calls ih =>
    obtain ⟨ho, hcalls⟩ := hasked
    obtain ⟨memo1, hget, hmemo1⟩ := getInput_answered h hinitial nObfuscationRounds ho hmemo
    have hafter : pw.afterCall R nObfuscationRounds memo o = some memo1 := by
      rw [afterCall, hget]
      rfl
    obtain ⟨memo2, hrun⟩ := ih (hcalls memo1 hafter) hmemo1
    rw [inputRoundsRun] at hrun
    refine ⟨memo2, ?_⟩
    rw [inputRoundsRun, Machine.run, hget]
    dsimp only
    rw [hrun]
    rfl

/--
**The rounds do not depend on the order of the queries**, as long as no call reaches the depth at
which the recursion is cut off or asks a transaction that was come by for an output it does not
have: the last call of every run is answered with the real rounds of its output, up to the
rounds that are asked for, and nothing outside of the memo is read.
-/
theorem rounds_do_not_depend_on_queries (h : pw.Acyclic R) (hinitial : pw.Unrated)
    (nObfuscationRounds : Int) (calls : List COutPoint) (o : COutPoint)
    (hasked : Machine.EveryStep (pw.afterCall R nObfuscationRounds) (pw.Answerable R) ∅
      (calls ++ [o])) :
    ∃ memo ns, inputRoundsRun R pw nObfuscationRounds ∅ (calls ++ [o]) =
      some (memo, ns ++ [min nObfuscationRounds (realRounds h o)]) := by
  obtain ⟨memo, hrun⟩ := inputRoundsRun_answered h hinitial nObfuscationRounds (calls ++ [o]) hasked
    MemoHolds.empty
  rw [List.map_append] at hrun
  exact ⟨memo, _, hrun⟩

/-! ## Evaluation that may be cut off -/

variable (pw) in
/-- What the rounds of an output say of its amount, however they were come by. -/
def RoundsFit (o : COutPoint) (n : Int) : Prop :=
  ∀ wtx txout, pw.mapWallet.lookup o.hash = some wtx → wtx.tx.vout[o.n]? = some txout →
    if isDenominatedAmount txout.nValue then 0 ≤ n ∧ n ≤ 16 else -3 ≤ n ∧ n ≤ -2

theorem not_isCollateralAmount {nValue : Int} (h : isDenominatedAmount nValue = true) :
    isCollateralAmount nValue = false := by
  have hall : ∀ d ∈ obfuScationDenominations, isCollateralAmount d = false := by decide
  exact hall nValue (List.contains_iff_mem.mp h)

theorem ownRounds_fit {tx : CTransaction} {n : Int} (h : ownRounds tx txout = some n) :
    if isDenominatedAmount txout.nValue then 0 ≤ n ∧ n ≤ 16 else -3 ≤ n ∧ n ≤ -2 := by
  rw [ownRounds] at h
  cases hdenom : isDenominatedAmount txout.nValue with
  | true =>
    rw [not_isCollateralAmount hdenom, hdenom, if_neg Bool.false_ne_true, if_neg (by decide)] at h
    rw [if_pos rfl]
    split at h
    · obtain rfl := Option.some.inj h
      decide
    · cases h
  | false =>
    rw [if_neg Bool.false_ne_true]
    rw [hdenom] at h
    split at h
    · obtain rfl := Option.some.inj h
      decide
    · obtain rfl := Option.some.inj h
      decide

def HasOutput (pw : CWallet K) (o : COutPoint) : Prop :=
  ∃ wtx txout, pw.mapWallet.lookup o.hash = some wtx ∧ wtx.tx.vout[o.n]? = some txout

theorem hasOutput_of_ownInputs {tx : CTransaction} {c : COutPoint} (hc : c ∈ pw.ownInputs R tx) :
    pw.HasOutput c := by
  obtain ⟨txin, htxin, rfl⟩ := List.mem_map.mp hc
  have hmine := (List.mem_filter.mp htxin).2
  rw [isMineIn] at hmine
  cases hprev : pw.prevOut txin with
  | none =>
    rw [hprev] at hmine
    cases hmine
  | some txout =>
    obtain ⟨wtx, hwtx, htxout⟩ := Option.bind_eq_some_iff.mp hprev
    exact ⟨wtx, txout, hwtx, htxout⟩

/-- The rounds of an output that the wallet has fit its amount, whether the recursion is cut off or
not. -/
theorem answers_roundsFit : pw.Answers R pw.RoundsFit fun _ _ o => pw.HasOutput o where
  mono _ _ _ _ _ hQ := hQ
  unknown _ _ o hQ hnone := by
    obtain ⟨wtx, _, hwtx, -⟩ := hQ
    rw [hnone] at hwtx
    cases hwtx
  inside _ _ o wtx hQ hwtx := by
    obtain ⟨wtx', txout, hwtx', htxout⟩ := hQ
    obtain rfl := Option.some.inj (hwtx.symm.trans hwtx')
    rw [htxout]
    exact Option.some_ne_none txout
  own o wtx txout n hwtx htxout hown := by
    intro wtx' txout' hwtx' htxout'
    obtain rfl := Option.some.inj (hwtx.symm.trans hwtx')
    obtain rfl := Option.some.inj (htxout.symm.trans htxout')
    exact ownRounds_fit hown
  chain _ _ o wtx txout _ _ hwtx htxout hown := by
    refine ⟨fun c hc => hasOutput_of_ownInputs hc, fun ns _ => ?_⟩
    intro wtx' txout' hwtx' htxout'
    obtain rfl := Option.some.inj (hwtx.symm.trans hwtx')
    obtain rfl := Option.some.inj (htxout.symm.trans htxout')
    -- without rounds of its own it is denominated
    rw [ownRounds] at hown
    split_ifs at hown with _ hdenom
    rw [Bool.not_eq_true, Bool.not_eq_false'] at hdenom
    rw [if_pos hdenom]
    exact afterInputs_foldl ns

/-- **A call for an output that the wallet has** is answered, and the answer fits the amount. -/
theorem getInput_fits (hinitial : pw.Unrated) {nObfuscationRounds : Int}
    (hrounds : 0 ≤ nObfuscationRounds) (ho : pw.HasOutput o)
    (hmemo : pw.MemoHolds pw.RoundsFit memo) :
    ∃ memo' n, pw.getInputObfuscationRounds R nObfuscationRounds memo o = some (memo', n) ∧
      pw.RoundsFit o n ∧ pw.MemoHolds pw.RoundsFit memo' := by
  obtain ⟨n, memo', hget, hfit, hanswered⟩ := getReal_answered (answers_roundsFit (R := R)) hinitial
    16 memo o ho hmemo
  refine ⟨memo', _, by rw [getInputObfuscationRounds, hget], ?_, hanswered.holds⟩
  intro wtx txout hwtx htxout
  have hn := hfit (by decide) wtx txout hwtx htxout
  by_cases hdenom : isDenominatedAmount txout.nValue = true
  · rw [if_pos hdenom] at hn ⊢
    split <;> omega
  · rw [if_neg hdenom] at hn ⊢
    split <;> omega

/-! ### A chain of seventeen denominated transactions -/

/-- The transaction `hash` of a chain; the first spends what is not the wallet's. -/
def chainTx (hash : Nat) : CWalletTx where
  tx := { hash := hash, vin := [⟨⟨hash - 1, 0⟩, [], 0⟩]
          vout := [⟨obfuScationDenominations.headD 0, [0x51], -10⟩] }

def chainWallet : CWallet Unit where
  keys := ()
  mapWallet := (List.range 17).foldl (fun m i => m.insert (i + 1) (chainTx (i + 1))) ∅

theorem chainWallet_lookup {hash : Uint256} {wtx : CWalletTx}
    (h : chainWallet.mapWallet.lookup hash = some wtx) : 0 < hash ∧ wtx = chainTx hash := by
  have hentries : ∀ x ∈ chainWallet.mapWallet.entries, 0 < x.1 ∧ x.2 = chainTx x.1 := by decide
  exact hentries ⟨hash, wtx⟩ (AList.mem_lookup_iff.mp h)

theorem acyclic_chainWallet : chainWallet.Acyclic plainRules := by
  refine ⟨Subrelation.wf ?_ Nat.lt_wfRel.wf⟩
  rintro parent child ⟨wtx, hwtx, o, ho, rfl⟩
  obtain ⟨hpos, rfl⟩ := chainWallet_lookup hwtx
  obtain ⟨txin, htxin, rfl⟩ := List.mem_map.mp ho
  obtain rfl := List.mem_singleton.mp (List.mem_of_mem_filter htxin)
  exact Nat.sub_lt hpos Nat.one_pos

theorem unrated_chainWallet : chainWallet.Unrated := by
  intro hash wtx hwtx txout htxout
  obtain ⟨-, rfl⟩ := chainWallet_lookup hwtx
  obtain rfl := List.mem_singleton.mp htxout
  rfl

theorem within_chainWallet (left : Nat) {hash : Nat} (hpos : 0 < hash) (hle : hash ≤ left)
    (hlast : hash ≤ 17) : chainWallet.Within plainRules ∅ left ⟨hash, 0⟩ := by
  induction left generalizing hash with
  | zero => omega
  | succ left ih =>
    have hall : ∀ i ∈ List.range 17,
        chainWallet.mapWallet.lookup (i + 1) = some (chainTx (i + 1)) := by decide
    have hwtx := hall (hash - 1) (List.mem_range.mpr (by omega))
    rw [Nat.sub_add_cancel hpos] at hwtx
    refine ⟨chainTx hash, _, hwtx, rfl, Or.inr fun _ c hc => ?_⟩
    obtain ⟨txin, htxin, rfl⟩ := List.mem_map.mp hc
    obtain ⟨hmem, hmine⟩ := List.mem_filter.mp htxin
    obtain rfl := List.mem_singleton.mp hmem
    refine ih ?_ (by omega) (by omega)
    -- what is the wallet's is in the chain
    rw [isMineIn, prevOut] at hmine
    cases hprev : chainWallet.mapWallet.lookup (hash - 1) with
    | none =>
      rw [hprev] at hmine
      exact absurd hmine Bool.false_ne_true
    | some prev => exact (chainWallet_lookup hprev).1

/-- The last but one of the chain, after another. -/
theorem rounds_do_not_depend_on_queries_chain :
    ∃ memo ns, inputRoundsRun plainRules chainWallet 8 ∅ ([⟨3, 0⟩] ++ [⟨16, 0⟩]) =
      some (memo, ns ++ [min 8 (realRounds acyclic_chainWallet ⟨16, 0⟩)]) :=
  rounds_do_not_depend_on_queries acyclic_chainWallet unrated_chainWallet 8 [⟨3, 0⟩] ⟨16, 0⟩
    ⟨(within_chainWallet 16 (by decide) (by decide) (by decide)).asked ∅, fun memo _ =>
      ⟨(within_chainWallet 16 (by decide) (by decide) (by decide)).asked memo, fun _ _ => trivial⟩⟩

/-- The second transaction of the chain was mixed once. After the last one was asked for, it counts
as mixed twice. -/
theorem rounds_depend_on_queries :
    ¬ ∀ (pw : CWallet Unit), pw.Acyclic plainRules → ∀ (nObfuscationRounds : Int)
      (calls calls' : List COutPoint) (o : COutPoint) (memo memo' : DenomMemo) (ns ns' : List Int)
      (n n' : Int),
      inputRoundsRun plainRules pw nObfuscationRounds ∅ (calls ++ [o]) = some (memo, ns ++ [n]) →
      inputRoundsRun plainRules pw nObfuscationRounds ∅ (calls' ++ [o]) =
      some (memo', ns' ++ [n']) →
      n = n' := by
  intro hall
  have h₁ : (inputRoundsRun plainRules chainWallet 2 ∅ [⟨2, 0⟩]).map Prod.snd = some [1] := by
    decide
  have h₂ : (inputRoundsRun plainRules chainWallet 2 ∅ [⟨17, 0⟩, ⟨2, 0⟩]).map Prod.snd =
      some [2, 2] := by
    decide
  obtain ⟨⟨memo, ns⟩, hrun₁, rfl⟩ := Option.map_eq_some_iff.mp h₁
  obtain ⟨⟨memo', ns'⟩, hrun₂, rfl⟩ := Option.map_eq_some_iff.mp h₂
  exact absurd (hall chainWallet acyclic_chainWallet 2 [] [⟨17, 0⟩] ⟨2, 0⟩ memo memo' [] [2] 1 2
    hrun₁ hrun₂) (by decide)

end CWallet

end BitBlocks
