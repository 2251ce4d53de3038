import BitBlocks.Coins.Missing
import BitBlocks.Masternode.Asked
import BitBlocks.Masternode.TrialSpend
import BitBlocks.Swift.SwiftTX

/-!
# Entries marked as spent

A masternode is marked `MASTERNODE_VIN_SPENT` when the trial spend of its collateral is
turned down, and the mark is not looked at again. The trial looks at more than whether the
output is there: its own hash, the age and the amount of the output, the locks of SwiftTX.
So the mark is true as long as all that is in order for the outputs that are there, and no
block brings back an output that is gone.

The locks are in everybody's hands: a SwiftTX request that is not accepted locks its inputs,
whatever they are, and the trial spend of a locked input is turned down.

The blocks that a request has the node reprocess are steps of a run like any others.
-/

namespace BitBlocks

open MasternodeState Machine Wrap Checks

/-- What decides the mark of an entry: the coins, the memory pool, the locks, the list. -/
structure CollateralNode where
  pool : CTxMemPool := {}
  pcoinsTip : CCoinsView
  nHeight : Int
  swift : SwiftState := {}
  man : CMasternodeMan := {}

inductive CollateralStep where
  /-- A transaction, and what `AcceptToMemoryPool` makes of it but for the pool and the locks. -/
  | tx (tx : CTransaction) (fAccept : Bool)
  | ix (env : SwiftEnv) (tx : CTransaction)
  | txlvote (env : SwiftEnv) (ctx : CConsensusVote)
  | cleanTransactionLocksList (nTime : Int)
  | mnb (env : MasternodeEnv) (mnb : CMasternodeBroadcast)
  | mnp (env : MasternodeEnv) (mnp : CMasternodePing)
  /-- `CMasternode::Check` of the entry of an input. -/
  | check (env : CheckEnv) (vin : CTxIn) (forceCheck : Bool)
  | connectBlock (vtx : List CTransaction)
  /-- The undo data of the block, and what becomes of its transactions. -/
  | disconnectBlock (vtx : List CTransaction) (vtxundo : List (List CTxInUndo))
      (fAccept : CTransaction → Bool)

/-- The output is spent or missing in the chain, or is spent in the memory pool. -/
def SpendState.isGone (s : SpendState) (prevout : COutPoint) : Bool :=
  !s.pcoinsTip.haveInput prevout || (s.pool.mapNextTx.lookup prevout).isSome

def CollateralStep.isBlock : CollateralStep → Bool
  | .connectBlock _ => true
  | .disconnectBlock _ _ _ => true
  | _ => false

namespace CollateralNode

variable (T : MasternodeText) (R : Rules) (P : CChainParams) (X : TrialText)

/-- What `AcceptableInputs` reads. -/
def spend (s : CollateralNode) : SpendState where
  pool := s.pool
  pcoinsTip := s.pcoinsTip
  nHeight := s.nHeight
  mapLockedInputs := s.swift.mapLockedInputs

def acceptableInputs (s : CollateralNode) (vin : CTxIn) : Bool :=
  s.spend.acceptableInputs R P (X.trial vin)

/-- The pool after `AcceptToMemoryPool`, and its answer. -/
def acceptToMemoryPool (s : CollateralNode) (pool : CTxMemPool) (tx : CTransaction)
    (fAccept : Bool) : CTxMemPool × Bool :=
  pool.acceptToMemoryPool R P tx (!tx.vin.any (s.swift.lockedByOther tx) && fAccept)

/-- The pool is part of what a request is checked against. -/
def swiftEnv (s : CollateralNode) (env : SwiftEnv) : SwiftEnv :=
  { env with fAcceptable := fun tx => (s.pool.acceptToMemoryPool R P tx (env.fAcceptable tx)).2 }

/-- A transaction of a disconnected block returns to the memory pool. -/
def resurrect (s : CollateralNode) (fAccept : CTransaction → Bool) (pool : CTxMemPool)
    (tx : CTransaction) : CTxMemPool :=
  if tx.isCoinBase || tx.isCoinStake then (pool.remove tx [] true).1
  else
    match s.acceptToMemoryPool R P pool tx (fAccept tx) with
    | (pool, true) => pool
    | (pool, false) => (pool.remove tx [] true).1

/-- `none` is a failed assertion. -/
def step (s : CollateralNode) : CollateralStep → Option CollateralNode
  | .tx tx fAccept => some { s with pool := (s.acceptToMemoryPool R P s.pool tx fAccept).1 }
  | .ix env tx =>
    some { s with
      swift := s.swift.processMessage (s.swiftEnv R P env) (.ix tx)
      pool :=
        if env.fActive && !s.swift.requestSeen tx.hash && SwiftState.requestValid env tx then
          (s.acceptToMemoryPool R P s.pool tx (env.fAcceptable tx)).1
        else s.pool }
  | .txlvote env ctx =>
    some { s with swift := s.swift.processMessage (s.swiftEnv R P env) (.txlvote ctx) }
  | .cleanTransactionLocksList nTime =>
    some { s with swift := s.swift.cleanTransactionLocksList true nTime }
  | .mnb env mnb =>
    some
      { s with man := (s.man.processBroadcast T (env.answering (s.acceptableInputs R P X)) mnb).1 }
  | .mnp env mnp =>
    some { s with man := (s.man.processPing T (env.answering (s.acceptableInputs R P X)) mnp).1 }
  | .check env vin forceCheck =>
    some { s with
      man := s.man.write vin fun mn =>
        mn.check (env.answering (s.acceptableInputs R P X)) forceCheck }
  | .connectBlock vtx =>
    match connectLoop (s.nHeight + 1) s.pcoinsTip vtx with
    | none => some s
    | some (view, _) =>
      some { s with
        pcoinsTip := view
        pool := (s.pool.removeForBlock vtx []).1
        nHeight := s.nHeight + 1 }
  | .disconnectBlock vtx vtxundo fAccept =>
    match disconnectCoins vtx vtxundo s.nHeight s.pcoinsTip with
    | some (view, true) =>
      match (vtx.foldl (s.resurrect R P fAccept) s.pool).removeCoinbaseSpends P view
          s.nHeight.toNat with
      | none => none
      | some pool => some { s with pcoinsTip := view, pool := pool, nHeight := s.nHeight - 1 }
    | _ => some s

/-! ## What makes a mark true -/

/-- Only the entries of outputs that are gone are marked. -/
def Truthful (s : CollateralNode) : Prop := s.man.Marks fun prevout => s.spend.isGone prevout = true

/-- The inputs that a step asks `AcceptableInputs` about. -/
def asked (s : CollateralNode) : CollateralStep → List CTxIn
  | .mnb env mnb => s.man.askedByBroadcast T (env.answering (s.acceptableInputs R P X)) mnb
  | .mnp env mnp => s.man.askedByMnp T env mnp
  | .check env vin forceCheck => s.man.askedAt vin env forceCheck id
  | _ => []

/-- Those of entries, which are marked by the answer. -/
def checked (s : CollateralNode) : CollateralStep → List CTxIn
  | .mnb env mnb => s.man.checkedByBroadcast T (env.answering (s.acceptableInputs R P X)) mnb
  | i => s.asked T R P X i

/-- A block leaves the output in the chain, and nothing in the memory pool that spends it. -/
def leaves (s : CollateralNode) : CollateralStep → COutPoint → Bool
  | .connectBlock vtx, p =>
    (connectLoop (s.nHeight + 1) s.pcoinsTip vtx).isSome &&
      vtx.foldl (CTransaction.leaves p) (s.pcoinsTip.haveInput p) &&
      ((s.pool.removeForBlock vtx []).1.mapNextTx.lookup p).isNone
  | .disconnectBlock vtx vtxundo fAccept, p =>
    match disconnectCoins vtx vtxundo s.nHeight s.pcoinsTip with
    | some (view, true) =>
      vtx.foldr (CTransaction.returns p) (s.pcoinsTip.haveInput p) &&
        ((vtx.foldl (s.resurrect R P fAccept) s.pool).removeCoinbaseSpends P view
          s.nHeight.toNat).any fun pool => (pool.mapNextTx.lookup p).isNone
    | _ => false
  | _, _ => false

/-- All that the trial of an output in the chain looks at, but for the output being unspent. -/
structure TrialReady (s : SpendState) (vin : CTxIn) : Prop where
  checked : (checkTransaction R P (X.trial vin)).isOk = true
  loose : (X.trial vin).isCoinBase = false
  notInPool : (s.pool.mapTx.lookup (X.trialHash vin)).isSome = false
  notInChain : s.view.haveCoins (X.trialHash vin) = false
  /-- No lock of SwiftTX is on the input. -/
  unlocked : s.locked (X.trial vin) vin = false
  /-- The transaction of the output is not in the memory pool as well. -/
  confirmed : s.pool.mapTx.lookup vin.prevout.hash = none
  sigOps : R.getLegacySigOpCount (X.trial vin) +
    R.getP2SHSigOpCount (X.trial vin) [s.pcoinsTip.getOutputFor vin] ≤ MAX_TX_SIGOPS
  mature : InputMature P s.pcoinsTip (s.nHeight + 1) vin
  value : nTrialValue ≤ (s.pcoinsTip.getOutputFor vin).nValue ∧
    (s.pcoinsTip.getOutputFor vin).nValue ≤ P.nMaxMoneyOut

/-- As if no message of SwiftTX had come. -/
def unheard (s : CollateralNode) : CollateralNode := { s with swift := {} }

/--
The entries a step checks have outputs that are gone, or whose trial is ready; no input it
asks about is turned down for a lock alone; and no block brings back the output of an entry
that is marked.
-/
structure Meets (s : CollateralNode) (i : CollateralStep) : Prop where
  ready : ∀ vin ∈ s.checked T R P X i, s.spend.isGone vin.prevout = false →
    TrialReady R P X s.spend vin
  unlocked : ∀ vin ∈ s.asked T R P X i, s.unheard.acceptableInputs R P X vin = true →
    s.spend.locked (X.trial vin) vin = false
  gone : ∀ mn ∈ s.man.vMasternodes, mn.activeState = MASTERNODE_VIN_SPENT →
    s.leaves R P i mn.vin.prevout = false

/-- The step leaves the list as it would have if no message of SwiftTX had come. -/
def SwiftBlind (s : CollateralNode) (i : CollateralStep) : Prop :=
  ∀ s' s'', s.step T R P X i = some s' → s.unheard.step T R P X i = some s'' → s'.man = s''.man

variable {T R P X} {s s' : CollateralNode} {i : CollateralStep}

/-! ## Outputs that are gone -/

theorem isSome_foldl_insert {κ ν : Type*} [DecidableEq κ] (l : List (κ × ν))
    {m : AList fun _ : κ => ν} {k : κ} (h : (m.lookup k).isSome = true) :
    ((l.foldl (fun m x => m.insert x.1 x.2) m).lookup k).isSome = true := by
  induction l generalizing m with
  | nil => exact h
  | cons x l ih =>
    refine ih ?_
    rw [Table.lookup_insert]
    split
    · rfl
    · exact h

theorem isGone_acceptToMemoryPool {tx : CTransaction} {fAccept : Bool} {prevout : COutPoint}
    (h : s.spend.isGone prevout = true) {s' : CollateralNode} (hcoins : s'.pcoinsTip = s.pcoinsTip)
    (hpool : s'.pool = (s.acceptToMemoryPool R P s.pool tx fAccept).1) :
    s'.spend.isGone prevout = true := by
  unfold SpendState.isGone spend at h ⊢
  dsimp only at h ⊢
  rw [hcoins, hpool]
  rcases Bool.or_eq_true_iff.mp h with hmissing | hspent
  · rw [hmissing, Bool.true_or]
  · rw [Bool.or_eq_true_iff]
    refine Or.inr ?_
    unfold acceptToMemoryPool CTxMemPool.acceptToMemoryPool
    split
    · exact hspent
    · split
      · exact hspent
      · split
        · exact hspent
        · split
          · exact hspent
          · exact isSome_foldl_insert _ hspent

/-! ## The answers of the trial -/

variable {vin : CTxIn}

theorem getD_view {s : SpendState} {p : COutPoint} (hthere : s.pcoinsTip.haveInput p = true)
    (hconfirmed : s.pool.mapTx.lookup p.hash = none) :
      s.view.get p.hash = s.pcoinsTip.get p.hash := by
  unfold CCoinsView.haveInput CCoinsView.get at hthere
  unfold CCoinsView.get SpendState.view
  rw [hconfirmed]
  cases hcoins : s.pcoinsTip p.hash with
  | none => rfl
  | some coins =>
    rw [hcoins, Option.getD_some] at hthere
    have hpruned : coins.isPruned = false := CCoins.not_isPruned_iff.mpr ⟨p.n, hthere⟩
    dsimp only
    rw [hpruned]
    rfl

theorem TrialReady.checkInputs {s : SpendState} (h : TrialReady R P X s vin)
    (hthere : s.pcoinsTip.haveInput vin.prevout = true) :
    (checkInputs R P (X.trial vin) s.view (s.nHeight + 1) false { standard := true }).isOk =
    true := by
  have hview := getD_view hthere h.confirmed
  have hchecked : checkTransaction R P (X.trial vin) = .ok () := by
    have hok := h.checked
    cases hc : checkTransaction R P (X.trial vin) with
    | ok _ => rfl
    | error e =>
      rw [hc] at hok
      exact absurd hok (by simp [Except.isOk, Except.toBool])
  obtain ⟨hvalue, hrange⟩ := h.value
  have hout := (checkTransaction_ok hchecked).getValueOut_eq
  have htotal : valueOut (X.trial vin) = nTrialValue := by
    simp [valueOut, TrialText.trial]
  have hmax := P.nMaxMoneyOut_range.2
  have hpos : 0 ≤ nTrialValue := by decide
  unfold COIN at hmax
  -- neither the amount nor the fee leaves the range of amounts
  have hin : wrap64 (0 + (s.pcoinsTip.getOutputFor vin).nValue) =
      (s.pcoinsTip.getOutputFor vin).nValue := by
    rw [Int.zero_add]
    exact wrap64_of_range (by omega) (by omega)
  have hfee : wrap64 ((s.pcoinsTip.getOutputFor vin).nValue - nTrialValue) =
      (s.pcoinsTip.getOutputFor vin).nValue - nTrialValue :=
    wrap64_of_range (by omega) (by omega)
  have hcoin : s.view.haveInputs (X.trial vin) = true := by
    unfold CCoinsView.haveInputs
    rw [h.loose, Bool.false_or, TrialText.trial, List.all_cons, List.all_nil, Bool.and_true,
      CCoinsView.haveInput, hview]
    exact hthere
  have hcoins : checkInputCoins P s.view (s.nHeight + 1) 0 (X.trial vin).vin =
      .ok (s.pcoinsTip.getOutputFor vin).nValue := by
    have hold : ((s.pcoinsTip.get vin.prevout.hash).fCoinBase ||
        (s.pcoinsTip.get vin.prevout.hash).fCoinStake) = false ∨
        ¬ s.nHeight + 1 - (s.pcoinsTip.get vin.prevout.hash).nHeight < P.nMaturity := by
      cases hmint : (s.pcoinsTip.get vin.prevout.hash).fCoinBase ||
          (s.pcoinsTip.get vin.prevout.hash).fCoinStake with
      | false => exact Or.inl rfl
      | true =>
        have hmature := h.mature.mature hmint
        exact Or.inr (by omega)
    unfold CCoinsView.getOutputFor at hin hvalue hrange ⊢
    rw [TrialText.trial, checkInputCoins, checkInputCoins, hview, hin]
    simp only [bind_eq_ok, exists_unit, failIf_eq_ok, Bool.and_eq_false_iff,
      decide_eq_false_iff_not, Bool.or_eq_false_iff, Bool.not_eq_false',
      CChainParams.moneyRange_iff, and_true, and_self]
    exact ⟨by simpa using hold, by omega, hrange⟩
  have hfees : checkFee P (X.trial vin) (s.pcoinsTip.getOutputFor vin).nValue = .ok () := by
    unfold checkFee
    have hstake : (X.trial vin).isCoinStake = false ∨ (X.trial vin).isCoinStake = true :=
      (Bool.eq_false_or_eq_true _).symm
    rcases hstake with hstake | hstake
    · rw [hstake, hout, htotal]
      simp only [Bool.false_eq_true, if_false, bind_eq_ok, Except.ok.injEq, exists_eq_left',
        exists_unit, failIf_eq_ok, decide_eq_false_iff_not, hfee, Bool.not_eq_false',
        CChainParams.moneyRange_iff]
      exact ⟨by omega, by omega, by omega, by omega⟩
    · rw [hstake]
      rfl
  have hok : BitBlocks.checkInputs R P (X.trial vin) s.view (s.nHeight + 1) false
      { standard := true } = .ok () := by
    unfold BitBlocks.checkInputs
    rw [h.loose, hcoin, hcoins]
    simp only [Bool.false_eq_true, if_false, bind_eq_ok, exists_unit, failIf_eq_ok, Bool.not_true,
      true_and, Except.ok.injEq, exists_eq_left']
    exact ⟨hfees, trivial⟩
  rw [hok]
  rfl

/-- **An output that is there** passes the trial that is ready. -/
theorem TrialReady.accepted {s : SpendState} (h : TrialReady R P X s vin)
    (hthere : s.isGone vin.prevout = false) : s.acceptableInputs R P (X.trial vin) = true := by
  obtain ⟨hcoin, hspent⟩ := Bool.or_eq_false_iff.mp hthere
  have hcoin : s.pcoinsTip.haveInput vin.prevout = true := by simpa using hcoin
  have hview := getD_view hcoin h.confirmed
  have houtput : s.view.getOutputFor vin = s.pcoinsTip.getOutputFor vin := by
    unfold CCoinsView.getOutputFor
    rw [hview]
  refine SpendState.acceptableInputs_trial.mpr
    ⟨?_, h.checked, h.loose, h.notInPool, ?_, h.notInChain,
    ?_, h.checkInputs hcoin⟩
  · unfold SpendState.isUnspent CCoinsView.haveInput
    rw [hview]
    unfold CCoinsView.haveInput at hcoin
    rw [hcoin]
    simpa using hspent
  · simpa [TrialText.trial] using h.unlocked
  · have hsigOps := h.sigOps
    rwa [← houtput] at hsigOps

theorem acceptableInputs_unheard (h : s.unheard.acceptableInputs R P X vin = true →
    s.spend.locked (X.trial vin) vin = false) :
    s.acceptableInputs R P X vin = s.unheard.acceptableInputs R P X vin := by
  rw [Bool.eq_iff_iff]
  constructor
  · intro hgood
    obtain ⟨hunspent, hchecked, hloose, hpool, -, hchain, hsigOps, hinputs⟩ :=
      SpendState.acceptableInputs_trial.mp hgood
    refine SpendState.acceptableInputs_trial.mpr ⟨hunspent, hchecked, hloose, hpool, ?_, hchain,
      hsigOps, hinputs⟩
    refine List.any_eq_false.mpr fun txin _ => ?_
    unfold SpendState.locked
    exact Bool.false_ne_true
  · intro hgood
    obtain ⟨hunspent, hchecked, hloose, hpool, -, hchain, hsigOps, hinputs⟩ :=
      SpendState.acceptableInputs_trial.mp hgood
    refine SpendState.acceptableInputs_trial.mpr ⟨hunspent, hchecked, hloose, hpool, ?_, hchain,
      hsigOps, hinputs⟩
    simpa [TrialText.trial] using h hgood

/-! ## A step -/

theorem Meets.isGone (h : Meets T R P X s i) (hvin : vin ∈ s.checked T R P X i)
    (hanswer : s.acceptableInputs R P X vin = false) : s.spend.isGone vin.prevout = true := by
  by_contra hthere
  have hready := h.ready vin hvin (Bool.eq_false_iff.mpr hthere)
  have hgood : s.acceptableInputs R P X vin = true := hready.accepted (Bool.eq_false_iff.mpr hthere)
  exact Bool.false_ne_true (hanswer.symm.trans hgood)

theorem Truthful.mono (h : s.Truthful) (hman : s'.man = s.man)
    (hgone : ∀ prevout, s.spend.isGone prevout = true → s'.spend.isGone prevout = true) :
    s'.Truthful := by
  intro mn hmn hmark
  rw [hman] at hmn
  exact hgone _ (h mn hmn hmark)

theorem block_man (hi : i.isBlock = true) (hstep : s.step T R P X i = some s') :
    s'.man = s.man := by
  unfold CollateralNode.step at hstep
  cases i with
  | connectBlock vtx =>
    dsimp only at hstep
    split at hstep <;> obtain rfl := Option.some.inj hstep <;> rfl
  | disconnectBlock vtx vtxundo fAccept =>
    dsimp only at hstep
    split at hstep
    · split at hstep
      · exact absurd hstep (by simp)
      · obtain rfl := Option.some.inj hstep
        rfl
    · obtain rfl := Option.some.inj hstep
      rfl
  | _ => exact absurd hi (by simp [CollateralStep.isBlock])

theorem isGone_block {p : COutPoint} (hi : i.isBlock = true) (hstep : s.step T R P X i = some s')
    (hgone : s.spend.isGone p = true) (hleaves : s.leaves R P i p = false) :
    s'.spend.isGone p = true := by
  by_contra hthere
  obtain ⟨hcoin, hspent⟩ := Bool.or_eq_false_iff.mp (Bool.eq_false_iff.mpr hthere)
  have hcoin : s'.pcoinsTip.haveInput p = true := (Bool.not_eq_false' _).mp hcoin
  have hspent : (s'.pool.mapNextTx.lookup p).isNone = true := Option.isSome_eq_false_iff.mp hspent
  refine Bool.false_ne_true (hleaves.symm.trans ?_)
  unfold CollateralNode.step at hstep
  unfold leaves
  cases i with
  | connectBlock vtx =>
    dsimp only at hstep ⊢
    split at hstep
    · obtain rfl := Option.some.inj hstep
      exact absurd hgone hthere
    · rename_i view undos hloop
      obtain rfl := Option.some.inj hstep
      rw [hloop, haveInput_of_connectLoop hloop hcoin, hspent]
      rfl
  | disconnectBlock vtx vtxundo fAccept =>
    dsimp only at hstep ⊢
    split at hstep
    · rename_i view hcoins
      split at hstep
      · exact absurd hstep (by simp)
      · rename_i pool hpool
        obtain rfl := Option.some.inj hstep
        rw [hpool, haveInput_of_disconnectCoins hcoins hcoin, Option.any_some, hspent]
        rfl
    · obtain rfl := Option.some.inj hstep
      exact absurd hgone hthere
  | _ => exact absurd hi (by simp [CollateralStep.isBlock])

/-- **A step** that meets the conditions keeps the marks true. -/
theorem Truthful.step (h : s.Truthful) (hmeets : Meets T R P X s i)
    (hstep : s.step T R P X i = some s') : s'.Truthful := by
  have hblock : i.isBlock = true → s'.Truthful := by
    intro hi mn hmn hmark
    rw [block_man hi hstep] at hmn
    exact isGone_block hi hstep (h mn hmn hmark) (hmeets.gone mn hmn hmark)
  cases i with
  | tx tx fAccept =>
    obtain rfl := Option.some.inj hstep
    exact h.mono rfl fun _ hgone => isGone_acceptToMemoryPool hgone rfl rfl
  | ix env tx =>
    obtain rfl := Option.some.inj hstep
    refine h.mono rfl fun prevout hgone => ?_
    by_cases hnew : (env.fActive && !s.swift.requestSeen tx.hash &&
        SwiftState.requestValid env tx) = true
    · exact isGone_acceptToMemoryPool hgone rfl (if_pos hnew)
    · unfold SpendState.isGone spend at hgone ⊢
      dsimp only
      rw [if_neg hnew]
      exact hgone
  | txlvote env ctx =>
    obtain rfl := Option.some.inj hstep
    exact h
  | cleanTransactionLocksList nTime =>
    obtain rfl := Option.some.inj hstep
    exact h
  | mnb env mnb =>
    obtain rfl := Option.some.inj hstep
    exact CMasternodeMan.Marks.processBroadcast h mnb fun vin hvin => hmeets.isGone hvin
  | mnp env mnp =>
    obtain rfl := Option.some.inj hstep
    exact CMasternodeMan.Marks.processPing h mnp fun vin hvin => hmeets.isGone hvin
  | check env vin forceCheck =>
    obtain rfl := Option.some.inj hstep
    exact CMasternodeMan.Marks.write_check h fun vin' hvin => hmeets.isGone hvin
  | connectBlock vtx => exact hblock rfl
  | disconnectBlock vtx vtxundo fAccept => exact hblock rfl

/-- **A step** that meets the conditions does to the list what it would without SwiftTX. -/
theorem Meets.swiftBlind (h : Meets T R P X s i) : SwiftBlind T R P X s i := by
  intro s' s'' hs' hs''
  cases i with
  | tx tx fAccept =>
    obtain rfl := Option.some.inj hs'
    obtain rfl := Option.some.inj hs''
    rfl
  | ix env tx =>
    obtain rfl := Option.some.inj hs'
    obtain rfl := Option.some.inj hs''
    rfl
  | txlvote env ctx =>
    obtain rfl := Option.some.inj hs'
    obtain rfl := Option.some.inj hs''
    rfl
  | cleanTransactionLocksList nTime =>
    obtain rfl := Option.some.inj hs'
    obtain rfl := Option.some.inj hs''
    rfl
  | mnb env mnb =>
    obtain rfl := Option.some.inj hs'
    obtain rfl := Option.some.inj hs''
    have hsame : s.man.processBroadcast T (env.answering (s.acceptableInputs R P X)) mnb =
        s.man.processBroadcast T (env.answering (s.unheard.acceptableInputs R P X)) mnb :=
      CMasternodeMan.processBroadcast_answering fun vin hvin =>
        acceptableInputs_unheard (h.unlocked vin hvin)
    exact congrArg Prod.fst hsame
  | mnp env mnp =>
    obtain rfl := Option.some.inj hs'
    obtain rfl := Option.some.inj hs''
    have hsame : s.man.processPing T (env.answering (s.acceptableInputs R P X)) mnp =
        s.man.processPing T (env.answering (s.unheard.acceptableInputs R P X)) mnp :=
      CMasternodeMan.processPing_answering fun vin hvin =>
        acceptableInputs_unheard (h.unlocked vin hvin)
    exact congrArg Prod.fst hsame
  | check env vin forceCheck =>
    obtain rfl := Option.some.inj hs'
    obtain rfl := Option.some.inj hs''
    exact CMasternodeMan.write_check fun vin' hvin =>
      acceptableInputs_unheard (h.unlocked vin' hvin)
  | connectBlock vtx =>
    have hman := block_man rfl hs'
    have hman' := block_man rfl hs''
    exact hman.trans hman'.symm
  | disconnectBlock vtx vtxundo fAccept =>
    have hman := block_man rfl hs'
    have hman' := block_man rfl hs''
    exact hman.trans hman'.symm

/-! ## A run -/

/--
**The marks are true** in every state of a run whose steps meet the conditions, and SwiftTX
has no part in what the steps do to the list.
-/
theorem truthful_steps {is : List CollateralStep} (h : s.Truthful)
    (hmeets : EveryStep (step T R P X) (Meets T R P X) s is) :
    EveryStep (step T R P X) (fun s i => s.Truthful ∧ SwiftBlind T R P X s i) s is ∧
      ∀ s', steps (step T R P X) s is = some s' → s'.Truthful := by
  have hrun := EveryStep.invariant (I := Truthful) (fun _ _ _ h hC hs => h.step hC hs) h hmeets
  refine ⟨hrun.1.imp ?_, hrun.2⟩
  intro s i ⟨htrue, hC⟩
  exact ⟨htrue, hC.swiftBlind⟩

/-! ## A node with one masternode -/

def sampleTrial : TrialText := ⟨[0x51], fun vin => 900 + vin.prevout.n⟩

/-- Its collateral is in the chain, and unspent. -/
def sampleNode : CollateralNode where
  pcoinsTip txid :=
    if txid = 5 then
      some { vout := [⟨nMasternodeCollateralLimit * COIN, [0x51], -10⟩], nHeight := 50 }
    else none
  nHeight := 100
  man := { vMasternodes :=
    [{ vin := CMasternodeMan.sampleVin, addr := ⟨[], 58697⟩, pubKeyCollateralAddress := [7]
       pubKeyMasternode := [8], sig := [1], sigTime := 9000, protocolVersion := 70000
       lastPing := ⟨CMasternodeMan.sampleVin, 0, 9990, [1]⟩ }] }

/-- Somebody's transaction that would spend an output; nobody has signed it. -/
def strayTx (hash : Uint256) (prevout : COutPoint) : CTransaction where
  hash := hash
  vin := [⟨prevout, [], 2 ^ 32 - 1⟩]
  vout := [⟨1, [0x76, 0xa9, 0x14] ++ List.replicate 20 0 ++ [0x88, 0xac], -10⟩]

def sampleCheck : CollateralStep :=
  .check { nAdjustedTime := 10000, acceptableInputs := fun _ => true }
    CMasternodeMan.sampleVin false

/-- A broadcast of an output that is not in the chain. -/
def strayBroadcast : CollateralStep :=
  .mnb CMasternodeMan.sampleEnv ⟨{
    vin := ⟨⟨6, 0⟩, [], 2 ^ 32 - 1⟩, addr := ⟨[], 58697⟩, pubKeyCollateralAddress := [7],
    pubKeyMasternode := [8], sig := [1], sigTime := 9000, protocolVersion := 70000,
    lastPing := CMasternodePing.null }⟩

abbrev sampleStep : CollateralNode → CollateralStep → Option CollateralNode :=
  step CMasternodeMan.sampleText Rules.transparent mainParams sampleTrial

abbrev SampleMeets : CollateralNode → CollateralStep → Prop :=
  Meets CMasternodeMan.sampleText Rules.transparent mainParams sampleTrial

/--
A request that is not accepted locks an output, and the broadcast of it is refused. The
masternode is checked while its collateral is there, and once it is spent, in the memory
pool and then in a block.
-/
def sampleRun : List CollateralStep :=
  [.ix (SwiftEnv.bare 1000) (strayTx 78 ⟨6, 0⟩), strayBroadcast, sampleCheck,
    .tx (strayTx 77 ⟨5, 0⟩) true, sampleCheck, .connectBlock [strayTx 77 ⟨5, 0⟩]]

/-- A step that checks no entry and asks about no input that only a lock is in the way of. -/
theorem sampleMeets {s : CollateralNode} {i : CollateralStep}
    (hchecked : s.checked CMasternodeMan.sampleText Rules.transparent mainParams sampleTrial i = [])
    (hasked : ∀ vin ∈ s.asked CMasternodeMan.sampleText Rules.transparent mainParams sampleTrial i,
      s.unheard.acceptableInputs Rules.transparent mainParams sampleTrial vin = false)
    (hgone : ∀ mn ∈ s.man.vMasternodes, mn.activeState = MASTERNODE_VIN_SPENT →
      s.leaves Rules.transparent mainParams i mn.vin.prevout = false) : SampleMeets s i where
  ready vin hvin := absurd hvin (by rw [hchecked]; exact List.not_mem_nil)
  unlocked vin hvin hgood := absurd hgood (by rw [hasked vin hvin]; exact Bool.false_ne_true)
  gone := hgone

theorem truthful_steps_sample :
    EveryStep sampleStep (fun s i => s.Truthful ∧ SwiftBlind CMasternodeMan.sampleText
        Rules.transparent mainParams sampleTrial s i) sampleNode sampleRun ∧
      ∀ s', steps sampleStep sampleNode sampleRun = some s' → s'.Truthful := by
  refine truthful_steps ?_ ⟨sampleMeets rfl (by decide) (by decide), fun s₁ hs₁ => ?_⟩
  · intro mn hmn hmark
    rw [List.mem_singleton.mp hmn] at hmark
    exact absurd hmark (by decide)
  obtain rfl := Option.some.inj hs₁
  refine ⟨sampleMeets (by decide) (by decide) (by decide), fun s₂ hs₂ => ?_⟩
  obtain rfl := Option.some.inj hs₂
  refine ⟨⟨fun vin hvin _ => ?_, by decide, by decide⟩, fun s₃ hs₃ => ?_⟩
  · have hvin : vin ∈ [CMasternodeMan.sampleVin] := hvin
    rw [List.mem_singleton.mp hvin]
    exact ⟨by decide, by decide, by decide, by decide, by decide, by decide, by decide,
      ⟨by decide, by decide⟩, by decide⟩
  obtain rfl := Option.some.inj hs₃
  refine ⟨sampleMeets rfl (by decide) (by decide), fun s₄ hs₄ => ?_⟩
  obtain rfl := Option.some.inj hs₄
  refine ⟨⟨fun vin hvin hthere => ?_, by decide, by decide⟩, fun s₅ hs₅ => ?_⟩
  · have hvin : vin ∈ [CMasternodeMan.sampleVin] := hvin
    rw [List.mem_singleton.mp hvin] at hthere
    exact absurd hthere (by decide)
  obtain rfl := Option.some.inj hs₅
  exact ⟨sampleMeets rfl (by decide) (by decide), fun _ _ => trivial⟩

/-- **A request that is not accepted** has the masternode marked, whose collateral is not gone. -/
theorem stray_request_marks : ((steps sampleStep sampleNode
        [.ix (SwiftEnv.bare 1000) (strayTx 77 ⟨5, 0⟩), sampleCheck]).map fun s =>
      (s.man.vMasternodes.map CMasternode.activeState, s.spend.isGone ⟨5, 0⟩)) =
      some ([MASTERNODE_VIN_SPENT], false) := by
  decide

end CollateralNode

end BitBlocks
