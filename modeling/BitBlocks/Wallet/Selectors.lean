import BitBlocks.Wallet.Rounds

/-!
# Coins that are selected without being asked for

Staking and mixing select coins by themselves, each with its own tests. What is on offer has
the watch-only outputs among it, marked as not spendable; `SelectCoins` passes over them, the
four selectors here do not look. The selectors for mixing give the type of coin they want in
the place of another argument, so that they are offered coins of every type; their tests on
the amount and on the rounds make up for it.
-/

namespace BitBlocks

open Fitting

variable {K : Type} (R : WalletRules K) (node : NodeView) (pw : CWallet K)

/-- `COutput::Priority`. -/
def COutput.priority (out : COutput) : Int :=
  if isDenominatedAmount out.nValue then 10000
  else if out.nValue < 1 * COIN then 20000
  -- nondenom return largest first
  else -(out.nValue / COIN)

namespace CWallet

/-! ## Coins to stake -/

def stakeReady (nTime nStakeMinAge : Int) (getTxTime : CWalletTx → Int) (out : COutput) : Bool :=
  -- check for min age
  !(decide (nTime - getTxTime out.tx < nStakeMinAge)) &&
    -- check that it is matured
    !(decide (out.nDepth < if out.tx.tx.isCoinStake then (R.params.nMaturity : Int) else 10))

/-- `SelectStakeCoins`, at `nTime`. -/
def selectStakeCoins (nTime nStakeMinAge : Int) (getTxTime : CWalletTx → Int)
    (nTargetAmount : Int) : Option (List COutput) := do
  let vCoins ← pw.availableCoins R node true none false .allCoins false
  let (setCoins, ()) ← take COutput.nValue nTargetAmount
    (fun _ out => some ((), stakeReady R nTime nStakeMinAge getTxTime out)) vCoins () 0
  return setCoins

/-! ## Coins to mix -/

/-- The conversion of an `AvailableCoinsType` to a `bool`: none of them is zero. -/
def coinTypeBool (_ : AvailableCoinsType) : Bool := true

/-- What `SelectCoinsDark` wants. -/
def darkType (nObfuscationRoundsMin : Int) : AvailableCoinsType :=
  if nObfuscationRoundsMin < 0 then .onlyNondenominatedNot10000IfMn else .onlyDenominated

/-- The tests of `SelectCoinsDark` on the amount. -/
def darkAmount (nValue : Int) : Bool :=
  -- do not allow inputs less than 1 CENT
  !(decide (nValue < CENT)) &&
    -- do not allow collaterals to be selected
    !isCollateralAmount nValue &&
    -- masternode input
    !(R.fMasterNode && nValue == R.nMasternodeCollateralLimit * COIN)

def askRounds (nObfuscationRounds nObfuscationRoundsMin nObfuscationRoundsMax : Int)
    (memo : DenomMemo) (out : COutput) : Option (DenomMemo × Bool) :=
  match pw.getInputObfuscationRounds R nObfuscationRounds memo out.prevout with
  | none => none
  | some (memo, rounds) => some (memo,
      !(decide (rounds ≥ nObfuscationRoundsMax)) && !(decide (rounds < nObfuscationRoundsMin)))

/-- `sort(vCoins.rbegin(), vCoins.rend(), CompareByPriority())`: an order with the lowest priority
first. -/
structure DarkOrder where
  order : List COutput → List COutput
  order_perm : ∀ vCoins, (order vCoins).Perm vCoins
  order_sorted : ∀ vCoins, (order vCoins).Pairwise fun out1 out2 => out1.priority ≤ out2.priority

/-- `SelectCoinsDark`. -/
def selectCoinsDark (nObfuscationRounds : Int) (memo : DenomMemo) (o : DarkOrder)
    (nValueMin nValueMax nObfuscationRoundsMin nObfuscationRoundsMax : Int) :
    Option (Bool × List COutput × DenomMemo) := do
  let vCoins ← pw.availableCoins R node true none (coinTypeBool (darkType nObfuscationRoundsMin))
    .allCoins false
  -- order the array so largest nondenom are first, then denominations, then very small inputs
  let (setCoinsRet, memo) ← take COutput.nValue nValueMax
    (pw.askRounds R nObfuscationRounds nObfuscationRoundsMin nObfuscationRoundsMax)
    ((o.order vCoins).filter fun out => darkAmount R out.nValue) memo 0
  -- if it's more than min, we're good to return
  return (decide ((setCoinsRet.map COutput.nValue).sum ≥ nValueMin), setCoinsRet, memo)

/-- The denomination of an amount, if its bit is on. -/
def denomIndex (nDenom : Int) (nValue : Int) : Option Nat :=
  (obfuScationDenominations.zipIdx.find? fun x =>
    nDenom / 2 ^ x.2 % 2 == 1 && nValue == x.1).map Prod.snd

/-- What one call of `SelectCoinsByDenominations` draws. -/
structure DenomDraws where
  shuffle : List COutput → List COutput
  shuffle_perm : ∀ vCoins, (shuffle vCoins).Perm vCoins
  /-- `rand()`, call by call. -/
  rand : Nat → Nat

/-- The variables of `SelectCoinsByDenominations`. -/
structure DenomState where
  memo : DenomMemo
  nValueMax : Int
  nValueRet : Int := 0
  vCoinsRet2 : List COutput := []
  /-- `fFound10000` and so on. -/
  fFound : List Bool
  /-- How often `rand` was called. -/
  nRand : Nat := 0

/-- Mark denominations that are off as fulfilled. -/
def DenomState.init (memo : DenomMemo) (nDenom nValueMax : Int) : DenomState where
  memo := memo
  nValueMax := nValueMax
  fFound := (List.range 6).map fun i => !(nDenom / 2 ^ i % 2 == 1)

namespace DenomState

def accept (s : DenomState) (out : COutput) : DenomState :=
  { s with nValueRet := s.nValueRet + out.nValue, vCoinsRet2 := s.vCoinsRet2 ++ [out] }

/-- With all denominations fulfilled: whether to return what there is, with less of the maximum
left; `none` is a division by zero. -/
def submit (s : DenomState) (nValueMin : Int) (nCoins : Nat) (rand : Nat → Nat) :
    Option (Bool × DenomState) :=
  if s.nValueRet ≥ nValueMin then
    if s.nValueMax.tdiv 5 = 0 then none
    else
      -- random reduce the max amount we'll submit for anonymity
      let nValueMax := s.nValueMax - Int.tmod (rand s.nRand) (s.nValueMax.tdiv 5)
      -- on average use 50% of the inputs or less
      some (decide (s.vCoinsRet2.length > rand (s.nRand + 1) % nCoins),
        { s with nValueMax := nValueMax, nRand := s.nRand + 2 })
  else some (false, s)

end DenomState

/-- The loop of `SelectCoinsByDenominations`; whether it returned, and its variables. -/
def denomLoop (nObfuscationRounds nDenom nValueMin nRoundsMin nRoundsMax : Int) (nCoins : Nat)
    (rand : Nat → Nat) : List COutput → DenomState → Option (Bool × DenomState)
  | [], s => some (false, s)
  | out :: vCoins, s =>
    let next := denomLoop nObfuscationRounds nDenom nValueMin nRoundsMin nRoundsMax nCoins rand
      vCoins
    if s.nValueRet + out.nValue ≤ s.nValueMax then
      match pw.askRounds R nObfuscationRounds nRoundsMin nRoundsMax s.memo out with
      | none => none
      | some (memo, false) => next { s with memo := memo }
      | some (memo, true) =>
        if s.fFound.all id then
          match DenomState.submit { s with memo := memo } nValueMin nCoins rand with
          | none => none
          | some (true, s) => some (true, s)
          | some (false, s) =>
            -- Denomination criterion has been met, we can take any matching denominations
            match denomIndex nDenom out.nValue with
            | none => next s
            | some _ => next (s.accept out)
        else
          -- Criterion has not been satisfied, we will only take 1 of each until it is.
          match denomIndex nDenom out.nValue with
          | none => next { s with memo := memo }
          | some i => next ({ s with memo := memo, fFound := s.fFound.set i true }.accept out)
    else next s

/-- `SelectCoinsByDenominations`. -/
def selectCoinsByDenominations (nObfuscationRounds : Int) (memo : DenomMemo) (d : DenomDraws)
    (nDenom nValueMin nValueMax nRoundsMin nRoundsMax : Int) :
    Option (Bool × List COutput × DenomMemo) := do
  let vCoins ← pw.availableCoins R node true none (coinTypeBool .onlyDenominated) .allCoins false
  let (fReturned, s) ← pw.denomLoop R nObfuscationRounds nDenom nValueMin nRoundsMin nRoundsMax
    vCoins.length d.rand (d.shuffle vCoins) (.init memo nDenom nValueMax)
  return (fReturned || (decide (s.nValueRet ≥ nValueMin) && s.fFound.all id), s.vCoinsRet2, s.memo)

/-! ## A coin for the collateral -/

/-- `SelectCoinsCollateral`. -/
def selectCoinsCollateral : Option (List COutput) := do
  let vCoins ← pw.availableCoins R node true none false .allCoins false
  -- collateral inputs will always be a multiple of DARSEND_COLLATERAL, up to five
  return (vCoins.find? fun out => isCollateralAmount out.nValue).toList

/-! ## What is on offer -/

/-- What a selector may return: coins the wallet can sign for, of the type that was wanted, and no
more than the maximum. -/
structure WellSelected (nCoinType : AvailableCoinsType) (nMax : Int) (coins : List COutput) :
    Prop where
  spendable : ∀ out ∈ coins, out.fSpendable = true
  type : ∀ out ∈ coins, found R nCoinType out.nValue = true
  le_max : 0 ≤ nMax → (coins.map COutput.nValue).sum ≤ nMax

/-- `SelectStakeCoins` selects well, whatever the target. -/
def StakesWell (nTime nStakeMinAge : Int) (getTxTime : CWalletTx → Int) : Prop :=
  ∀ nTargetAmount setCoins, pw.selectStakeCoins R node nTime nStakeMinAge getTxTime
    nTargetAmount = some setCoins → WellSelected R .allCoins nTargetAmount setCoins

/-- `SelectCoinsByDenominations` selects well, whatever the arguments and the draws. -/
def DenominatesWell (nObfuscationRounds : Int) : Prop :=
  ∀ memo d nDenom nValueMin nValueMax nRoundsMin nRoundsMax fRet coins memo',
    pw.MemoHolds pw.RoundsFit memo →
    pw.selectCoinsByDenominations R node nObfuscationRounds memo d nDenom nValueMin nValueMax
      nRoundsMin nRoundsMax = some (fRet, coins, memo') →
    WellSelected R .onlyDenominated nValueMax coins

/-- `SelectCoinsDark` selects well for the rounds of `window`. -/
def MixesWell (nObfuscationRounds : Int) (window : Int → Int → Prop) : Prop :=
  ∀ memo o nValueMin nValueMax nRoundsMin nRoundsMax fRet coins memo',
    pw.MemoHolds pw.RoundsFit memo → window nRoundsMin nRoundsMax →
    pw.selectCoinsDark R node nObfuscationRounds memo o nValueMin nValueMax nRoundsMin
      nRoundsMax = some (fRet, coins, memo') →
    WellSelected R (darkType nRoundsMin) nValueMax coins

/-- The rounds of a window are of one kind. -/
def OneKind (nRoundsMin nRoundsMax : Int) : Prop := 0 ≤ nRoundsMin ∨ nRoundsMax ≤ 0

/-- `SelectCoinsCollateral` selects well. -/
def CollateralizesWell : Prop := ∀ setCoinsRet, pw.selectCoinsCollateral R node = some setCoinsRet →
    WellSelected R .allCoins (5 * OBFUSCATION_COLLATERAL) setCoinsRet

/-- A coin on offer that passes the test is as `P` says. -/
def Offers (fIncludeZeroValue : Bool) (test : COutput → Bool) (P : COutput → Prop) : Prop :=
  ∀ vCoins, pw.availableCoins R node true none fIncludeZeroValue .allCoins false = some vCoins →
    ∀ out ∈ vCoins, test out = true → P out

/-- So is the first on offer that passes it. -/
def OffersFirst (test : COutput → Bool) (P : COutput → Prop) : Prop :=
  ∀ vCoins, pw.availableCoins R node true none false .allCoins false = some vCoins →
    ∀ before out after, vCoins = before ++ out :: after → test out = true →
      (∀ x ∈ before, test x = false) → P out

variable {R node pw} {vCoins : List COutput} {out : COutput}

variable {fIncludeZeroValue : Bool}

theorem mem_txCoins {w : CWalletTx} {nDepth : Int}
    (h : out ∈ pw.txCoins R node none fIncludeZeroValue .allCoins w nDepth) :
    out.tx = w ∧ (∃ txout, w.tx.vout[out.i]? = some txout ∧ out.nValue = txout.nValue ∧
      out.fSpendable = (pw.isMine R txout &&& ISMINE_SPENDABLE != 0)) := by
  obtain ⟨x, hx, hcoin⟩ := List.mem_filterMap.mp h
  rw [coin] at hcoin
  split at hcoin
  · obtain rfl := Option.some.inj hcoin
    have htxout := List.mem_zipIdx_iff_getElem?.mp hx
    refine ⟨rfl, x.1, htxout, ?_, ?_⟩
    · rw [COutput.nValue]
      dsimp only
      rw [htxout]
      rfl
    · exact Bool.or_false _
  · cases hcoin

/-- **What is on offer** is an output of a transaction of the wallet's, and marked as spendable if
it is. -/
theorem mem_availableCoins
    (h : pw.availableCoins R node true none fIncludeZeroValue .allCoins false = some vCoins)
    (hout : out ∈ vCoins) :
    ∃ hash w, pw.mapWallet.lookup hash = some w ∧ out.tx = w ∧
      ∃ txout, w.tx.vout[out.i]? = some txout ∧ out.nValue = txout.nValue ∧
        out.fSpendable = (pw.isMine R txout &&& ISMINE_SPENDABLE != 0) := by
  obtain ⟨x, hx, hmem⟩ := List.mem_flatMap.mp ((availableCoins_sublist h).subset hout)
  obtain ⟨htx, htxout⟩ := mem_txCoins hmem
  exact ⟨x.1, x.2, mem_entries.mp hx, htx, htxout⟩

theorem offered_fits (hkeyed : pw.Keyed)
    (h : pw.availableCoins R node true none fIncludeZeroValue .allCoins false = some vCoins)
    (hout : out ∈ vCoins) :
    pw.HasOutput out.prevout ∧ ∀ n, pw.RoundsFit out.prevout n →
      if isDenominatedAmount out.nValue then 0 ≤ n ∧ n ≤ 16 else -3 ≤ n ∧ n ≤ -2 := by
  obtain ⟨hash, w, hw, htx, txout, htxout, hvalue, -⟩ := mem_availableCoins h hout
  have hlook : pw.mapWallet.lookup out.prevout.hash = some w := by
    rw [COutput.prevout, htx, hkeyed hash w hw]
    exact hw
  refine ⟨⟨w, txout, hlook, htxout⟩, fun n hn => ?_⟩
  rw [hvalue]
  exact hn w txout hlook htxout

/-! ## Coins to stake, and for the collateral -/

theorem stake_iff (nTime nStakeMinAge : Int) (getTxTime : CWalletTx → Int) :
    pw.StakesWell R node nTime nStakeMinAge getTxTime ↔
      pw.Offers R node false (stakeReady R nTime nStakeMinAge getTxTime)
        fun out => out.fSpendable = true := by
  constructor
  · intro hall vCoins hoffer out hout hready
    obtain ⟨r, htake, hmem⟩ := exists_take_all COutput.nValue
      (fun (_ : Unit) out => some ((), stakeReady R nTime nStakeMinAge getTxTime out))
      (fun _ => True) (fun out => stakeReady R nTime nStakeMinAge getTxTime out = true) vCoins
      (fun _ x _ _ => ⟨(), _, rfl, trivial, id⟩) trivial
    have hselect : pw.selectStakeCoins R node nTime nStakeMinAge getTxTime
        (vCoins.map fun x => max x.nValue 0).sum = some r.1 := by
      rw [selectStakeCoins, hoffer]
      change (take _ _ _ vCoins () 0).bind _ = _
      rw [htake]
      rfl
    exact (hall _ _ hselect).spendable out (hmem out hout hready)
  · intro hready nTargetAmount setCoins hselect
    rw [selectStakeCoins] at hselect
    obtain ⟨vCoins, hoffer, hselect⟩ := Option.bind_eq_some_iff.mp hselect
    obtain ⟨r, htake, hr⟩ := Option.bind_eq_some_iff.mp hselect
    obtain rfl := Option.some.inj hr
    have hmem := mem_take (I := fun _ => True)
      (P := fun out => stakeReady R nTime nStakeMinAge getTxTime out = true)
      (fun _ x _ b _ _ hask => by
        obtain ⟨-, rfl⟩ := Prod.mk.inj (Option.some.inj hask)
        exact ⟨trivial, id⟩) trivial htake
    refine ⟨fun out hout => ?_, fun _ _ => rfl, fun hpos => ?_⟩
    · obtain ⟨hin, hout⟩ := hmem out hout
      exact hready vCoins hoffer out hin hout
    · have hsum := sum_take_le htake hpos
      rwa [Int.zero_add] at hsum

theorem collateral_iff : pw.CollateralizesWell R node ↔
      pw.OffersFirst R node (fun out => isCollateralAmount out.nValue)
        fun out => out.fSpendable = true := by
  constructor
  · intro hall vCoins hoffer before out after hsplit hamount hbefore
    have hfind : (vCoins.find? fun out => isCollateralAmount out.nValue) = some out := by
      refine List.find?_eq_some_iff_append.mpr ⟨hamount, before, after, hsplit, fun x hx => ?_⟩
      have hnot : isCollateralAmount x.nValue = false := hbefore x hx
      rw [hnot]
      rfl
    have hselect : pw.selectCoinsCollateral R node = some [out] := by
      rw [selectCoinsCollateral, hoffer]
      change some (vCoins.find? _).toList = _
      rw [hfind]
      rfl
    exact (hall [out] hselect).spendable out (List.mem_singleton_self out)
  · intro hfirst setCoinsRet hselect
    rw [selectCoinsCollateral] at hselect
    obtain ⟨vCoins, hoffer, hselect⟩ := Option.bind_eq_some_iff.mp hselect
    obtain rfl := Option.some.inj hselect
    cases hfind : vCoins.find? fun out => isCollateralAmount out.nValue with
    | none =>
      rw [Option.toList_none]
      exact ⟨fun out hout => absurd hout List.not_mem_nil, fun _ _ => rfl, fun hpos => hpos⟩
    | some out =>
      obtain ⟨hamount, before, after, hsplit, hbefore⟩ := List.find?_eq_some_iff_append.mp hfind
      refine ⟨fun out' hout => ?_, fun _ _ => rfl, fun _ => ?_⟩
      · obtain rfl := List.mem_singleton.mp hout
        refine hfirst vCoins hoffer before _ after hsplit hamount fun x hx => ?_
        have hnot := hbefore x hx
        rwa [Bool.not_eq_true'] at hnot
      · have hlt : out.nValue < 10 * COIN * 5 := by
          rw [isCollateralAmount, Bool.and_eq_true, Bool.and_eq_true, Bool.and_eq_true] at hamount
          exact of_decide_eq_true hamount.1.2
        have hmax : 5 * OBFUSCATION_COLLATERAL = 10 * COIN * 5 := rfl
        rw [Option.toList_some, List.map_singleton, List.sum_singleton, hmax]
        exact hlt.le

/-! ## Coins to mix -/

section

variable {nObfuscationRounds nValueMin nValueMax nRoundsMin nRoundsMax : Int} {memo : DenomMemo}

variable (nRoundsMin nRoundsMax) in
/-- A coin on offer is asked for its rounds, which are in the window or not. -/
theorem askRounds_offered (hkeyed : pw.Keyed) (hinitial : pw.Unrated)
    (hrounds : 0 ≤ nObfuscationRounds) {fIncludeZeroValue : Bool}
    (h : pw.availableCoins R node true none fIncludeZeroValue .allCoins false = some vCoins)
    (hout : out ∈ vCoins) (hmemo : pw.MemoHolds pw.RoundsFit memo) :
    ∃ memo' n, pw.askRounds R nObfuscationRounds nRoundsMin nRoundsMax memo out =
        some (memo', !(decide (n ≥ nRoundsMax)) && !(decide (n < nRoundsMin))) ∧
      (if isDenominatedAmount out.nValue then 0 ≤ n ∧ n ≤ 16 else -3 ≤ n ∧ n ≤ -2) ∧
      pw.MemoHolds pw.RoundsFit memo' := by
  obtain ⟨ho, hfits⟩ := offered_fits hkeyed h hout
  obtain ⟨memo', n, hget, hn, hmemo'⟩ := getInput_fits (R := R) hinitial hrounds ho hmemo
  refine ⟨memo', n, ?_, hfits n hn, hmemo'⟩
  rw [askRounds, hget]

/-- **What `SelectCoinsDark` returns** passes its tests, and its rounds are in the window. -/
theorem mem_selectCoinsDark (hkeyed : pw.Keyed) (hinitial : pw.Unrated)
    (hrounds : 0 ≤ nObfuscationRounds) (hmemo : pw.MemoHolds pw.RoundsFit memo) {o : DarkOrder}
    {fRet : Bool} {coins : List COutput} {memo' : DenomMemo}
    (h : pw.selectCoinsDark R node nObfuscationRounds memo o nValueMin nValueMax nRoundsMin
      nRoundsMax = some (fRet, coins, memo')) :
    (0 ≤ nValueMax → (coins.map COutput.nValue).sum ≤ nValueMax) ∧
      ∃ vCoins, pw.availableCoins R node true none true .allCoins false = some vCoins ∧
        ∀ out ∈ coins, out ∈ vCoins ∧ darkAmount R out.nValue = true ∧ ∃ n,
          nRoundsMin ≤ n ∧ n < nRoundsMax ∧
          if isDenominatedAmount out.nValue then 0 ≤ n ∧ n ≤ 16 else -3 ≤ n ∧ n ≤ -2 := by
  rw [selectCoinsDark] at h
  obtain ⟨vCoins, hoffer, h⟩ := Option.bind_eq_some_iff.mp h
  obtain ⟨r, htake, hr⟩ := Option.bind_eq_some_iff.mp h
  obtain ⟨-, hr⟩ := Prod.mk.inj (Option.some.inj hr)
  obtain ⟨rfl, -⟩ := Prod.mk.inj hr
  have hordered : ∀ x ∈ (o.order vCoins).filter fun out => darkAmount R out.nValue,
      x ∈ vCoins ∧ darkAmount R x.nValue = true := by
    intro x hx
    obtain ⟨hmem, hamount⟩ := List.mem_filter.mp hx
    exact ⟨(o.order_perm vCoins).mem_iff.mp hmem, hamount⟩
  have hmem := mem_take (I := pw.MemoHolds pw.RoundsFit) (P := fun out => ∃ n,
      nRoundsMin ≤ n ∧ n < nRoundsMax ∧
        if isDenominatedAmount out.nValue then 0 ≤ n ∧ n ≤ 16 else -3 ≤ n ∧ n ≤ -2)
    (fun memo x memo' b hmemo hx hask => by
      obtain ⟨memo1, n, hget, hn, hmemo1⟩ := askRounds_offered nRoundsMin nRoundsMax
        hkeyed hinitial hrounds hoffer (hordered x hx).1 hmemo
      obtain ⟨rfl, rfl⟩ := Prod.mk.inj (Option.some.inj (hget.symm.trans hask))
      refine ⟨hmemo1, fun hb => ⟨n, ?_, ?_, hn⟩⟩
      · have hlow := ((Bool.and_eq_true _ _).mp hb).2
        rw [Bool.not_eq_true', decide_eq_false_iff_not] at hlow
        omega
      · have hhigh := ((Bool.and_eq_true _ _).mp hb).1
        rw [Bool.not_eq_true', decide_eq_false_iff_not] at hhigh
        omega) hmemo htake
  refine ⟨fun hpos => ?_, vCoins, hoffer, fun out hout => ?_⟩
  · have hsum := sum_take_le htake hpos
    rwa [Int.zero_add] at hsum
  · obtain ⟨hin, hn⟩ := hmem out hout
    obtain ⟨hoffered, hamount⟩ := hordered out hin
    exact ⟨hoffered, hamount, hn⟩

variable (nValueMin nRoundsMin nRoundsMax) in
/-- **With a maximum large enough** all coins with rounds in the window are returned. -/
theorem exists_selectCoinsDark (hkeyed : pw.Keyed) (hinitial : pw.Unrated)
    (hrounds : 0 ≤ nObfuscationRounds) (hmemo : pw.MemoHolds pw.RoundsFit memo) (o : DarkOrder)
    (hoffer : pw.availableCoins R node true none true .allCoins false = some vCoins)
    (hout : out ∈ vCoins) (hamount : darkAmount R out.nValue = true)
    (hwindow : ∀ n, (if isDenominatedAmount out.nValue then 0 ≤ n ∧ n ≤ 16 else -3 ≤ n ∧ n ≤ -2) →
      nRoundsMin ≤ n ∧ n < nRoundsMax) :
    ∃ nValueMax fRet coins memo', pw.selectCoinsDark R node nObfuscationRounds memo o nValueMin
      nValueMax nRoundsMin nRoundsMax = some (fRet, coins, memo') ∧ out ∈ coins := by
  obtain ⟨r, htake, hmem⟩ := exists_take_all COutput.nValue
    (pw.askRounds R nObfuscationRounds nRoundsMin nRoundsMax) (pw.MemoHolds pw.RoundsFit)
    (fun x => isDenominatedAmount x.nValue = isDenominatedAmount out.nValue)
    ((o.order vCoins).filter fun out => darkAmount R out.nValue)
    (fun memo x hmemo hx => by
      have hmem := (o.order_perm vCoins).mem_iff.mp (List.mem_of_mem_filter hx)
      obtain ⟨memo', n, hget, hn, hmemo'⟩ := askRounds_offered nRoundsMin nRoundsMax
        hkeyed hinitial hrounds hoffer hmem hmemo
      refine ⟨memo', _, hget, hmemo', fun hsame => ?_⟩
      rw [hsame] at hn
      obtain ⟨hlow, hhigh⟩ := hwindow n hn
      rw [Bool.and_eq_true, Bool.not_eq_true', Bool.not_eq_true', decide_eq_false_iff_not,
        decide_eq_false_iff_not]
      omega) hmemo
  have hselect : pw.selectCoinsDark R node nObfuscationRounds memo o nValueMin
      (((o.order vCoins).filter fun out => darkAmount R out.nValue).map
        fun x => max x.nValue 0).sum nRoundsMin nRoundsMax =
      some (decide ((r.1.map COutput.nValue).sum ≥ nValueMin), r.1, r.2) := by
    rw [selectCoinsDark, coinTypeBool, hoffer]
    change (take _ _ _ _ memo 0).bind _ = _
    rw [htake]
    rfl
  exact ⟨_, _, _, _, hselect, hmem out (List.mem_filter.mpr
    ⟨(o.order_perm vCoins).mem_iff.mpr hout, hamount⟩) rfl⟩

/-- Coins in the order of their priority. -/
def DarkOrder.byPriority : DarkOrder where
  order vCoins := vCoins.mergeSort fun out1 out2 => decide (out1.priority ≤ out2.priority)
  order_perm vCoins := List.mergeSort_perm vCoins _
  order_sorted vCoins := by
    refine (List.pairwise_mergeSort (fun a b c hab hbc => ?_) (fun a b => ?_) vCoins).imp
      fun h => of_decide_eq_true h
    · exact decide_eq_true ((of_decide_eq_true hab).trans (of_decide_eq_true hbc))
    · rw [Bool.or_eq_true, decide_eq_true_eq, decide_eq_true_eq]
      exact le_total _ _

/-- A coin that passes the tests on the amount is of the type that is neither denominated nor a
masternode's, or denominated. -/
theorem found_of_darkAmount (hamount : darkAmount R out.nValue = true) :
    found R .onlyNondenominatedNot10000IfMn out.nValue = !isDenominatedAmount out.nValue := by
  rw [darkAmount, Bool.and_eq_true, Bool.and_eq_true] at hamount
  obtain ⟨⟨-, hcollateral⟩, hmasternode⟩ := hamount
  rw [found, hcollateral, hmasternode, Bool.true_and, Bool.and_true]
  rfl

theorem dark_iff (hkeyed : pw.Keyed) (hinitial : pw.Unrated) (hrounds : 0 ≤ nObfuscationRounds) :
    pw.MixesWell R node nObfuscationRounds OneKind ↔
      pw.Offers R node true (fun out => darkAmount R out.nValue)
        fun out => out.fSpendable = true := by
  constructor
  · intro hall vCoins hoffer out hout hamount
    by_cases hdenom : isDenominatedAmount out.nValue = true
    · obtain ⟨nValueMax, fRet, coins, memo', hselect, hmem⟩ := exists_selectCoinsDark
        0 0 17 hkeyed hinitial hrounds
        MemoHolds.empty DarkOrder.byPriority hoffer hout hamount
        (fun n hn => by
          rw [if_pos hdenom] at hn
          omega)
      exact (hall _ _ _ _ _ _ _ _ _ MemoHolds.empty (Or.inl le_rfl) hselect).spendable out hmem
    · obtain ⟨nValueMax, fRet, coins, memo', hselect, hmem⟩ := exists_selectCoinsDark
        0 (-3) 0 hkeyed hinitial hrounds
        MemoHolds.empty DarkOrder.byPriority hoffer hout hamount
        (fun n hn => by
          rw [if_neg hdenom] at hn
          omega)
      exact (hall _ _ _ _ _ _ _ _ _ MemoHolds.empty (Or.inr le_rfl) hselect).spendable out hmem
  · intro hspendable memo o nValueMin nValueMax nRoundsMin nRoundsMax fRet coins memo' hmemo hwindow
      hselect
    obtain ⟨hsum, vCoins, hoffer, hmem⟩ := mem_selectCoinsDark hkeyed hinitial hrounds hmemo hselect
    rw [OneKind] at hwindow
    refine ⟨fun out hout => ?_, fun out hout => ?_, hsum⟩
    · obtain ⟨hin, hamount, -⟩ := hmem out hout
      exact hspendable vCoins hoffer out hin hamount
    · obtain ⟨-, hamount, n, hlow, hhigh, hn⟩ := hmem out hout
      rw [darkType]
      by_cases hdenom : isDenominatedAmount out.nValue = true
      · rw [if_pos hdenom] at hn
        rw [if_neg (by omega)]
        exact hdenom
      · rw [if_neg hdenom] at hn
        rw [if_pos (by omega), found_of_darkAmount hamount, Bool.not_eq_true']
        exact Bool.not_eq_true _ ▸ hdenom

theorem dark_all_iff (hkeyed : pw.Keyed) (hinitial : pw.Unrated)
    (hrounds : 0 ≤ nObfuscationRounds) :
    pw.MixesWell R node nObfuscationRounds (fun _ _ => True) ↔
      pw.Offers R node true (fun out => darkAmount R out.nValue)
        fun out => out.fSpendable = true ∧ isDenominatedAmount out.nValue = false := by
  constructor
  · intro hall vCoins hoffer out hout hamount
    refine ⟨(dark_iff hkeyed hinitial hrounds).mp (fun memo o nValueMin nValueMax nRoundsMin
      nRoundsMax fRet coins memo' hmemo _ hselect => hall memo o nValueMin nValueMax nRoundsMin
      nRoundsMax fRet coins memo' hmemo trivial hselect) vCoins hoffer out hout hamount, ?_⟩
    obtain ⟨nValueMax, fRet, coins, memo', hselect, hmem⟩ := exists_selectCoinsDark
      0 (-3) 17 hkeyed hinitial hrounds
      MemoHolds.empty DarkOrder.byPriority hoffer hout hamount
      (fun n hn => by split at hn <;> omega)
    have htype := (hall _ _ _ _ _ _ _ _ _ MemoHolds.empty trivial hselect).type out hmem
    rw [darkType, if_pos (by decide), found_of_darkAmount hamount] at htype
    rwa [Bool.not_eq_true'] at htype
  · intro hgood memo o nValueMin nValueMax nRoundsMin nRoundsMax fRet coins memo' hmemo _ hselect
    obtain ⟨hsum, vCoins, hoffer, hmem⟩ := mem_selectCoinsDark hkeyed hinitial hrounds hmemo hselect
    refine ⟨fun out hout => ?_, fun out hout => ?_, hsum⟩
    · obtain ⟨hin, hamount, -⟩ := hmem out hout
      exact (hgood vCoins hoffer out hin hamount).1
    · obtain ⟨hin, hamount, n, hlow, -, hn⟩ := hmem out hout
      have hdenom := (hgood vCoins hoffer out hin hamount).2
      rw [hdenom, if_neg Bool.false_ne_true] at hn
      rw [darkType, if_pos (by omega), found_of_darkAmount hamount, hdenom]
      rfl

variable {nDenom nValue : Int} {nCoins : Nat} {rand : Nat → Nat} {rest : List COutput}

theorem isDenominatedAmount_of_denomIndex {i : Nat} (h : denomIndex nDenom nValue = some i) :
    isDenominatedAmount nValue = true := by
  obtain ⟨x, hfind, -⟩ := Option.map_eq_some_iff.mp h
  have hmem := List.mem_zipIdx_iff_getElem?.mp (List.mem_of_find?_eq_some hfind)
  have hx := List.find?_some hfind
  have hvalue := beq_iff_eq.mp ((Bool.and_eq_true _ _).mp hx).2
  rw [hvalue]
  exact List.contains_iff_mem.mpr (List.mem_of_getElem? hmem)

theorem exists_denomIndex (h : isDenominatedAmount nValue = true) :
    ∃ i, denomIndex 63 nValue = some i := by
  have hall : ∀ d ∈ obfuScationDenominations, (denomIndex 63 d).isSome := by decide
  exact Option.isSome_iff_exists.mp (hall nValue (List.contains_iff_mem.mp h))

/-- What the loop of `SelectCoinsByDenominations` keeps. -/
structure DenomState.Fits (vCoins : List COutput) (nMax : Int) (s : DenomState) : Prop where
  denominated : ∀ out ∈ s.vCoinsRet2, out ∈ vCoins ∧ isDenominatedAmount out.nValue = true
  sum : s.nValueRet = (s.vCoinsRet2.map COutput.nValue).sum
  max_le : s.nValueMax ≤ nMax
  le_max : 0 ≤ nMax → s.nValueRet ≤ nMax

theorem DenomState.init_fits (vCoins : List COutput) (memo : DenomMemo) (nDenom nValueMax : Int) :
    (DenomState.init memo nDenom nValueMax).Fits vCoins nValueMax where
  denominated _ hx := absurd hx List.not_mem_nil
  sum := rfl
  max_le := le_rfl
  le_max h := h

variable {nMax : Int} {s s' : DenomState}

theorem DenomState.Fits.withMemo (h : s.Fits vCoins nMax) (memo : DenomMemo) :
    DenomState.Fits vCoins nMax { s with memo := memo } :=
  ⟨h.denominated, h.sum, h.max_le, h.le_max⟩

theorem DenomState.Fits.accept (h : s.Fits vCoins nMax) (hout : out ∈ vCoins)
    (hdenom : isDenominatedAmount out.nValue = true) (hle : s.nValueRet + out.nValue ≤ nMax)
    (fFound : List Bool) : DenomState.Fits vCoins nMax
      (DenomState.accept { s with fFound := fFound } out) where
  denominated x hx := by
    rcases List.mem_append.mp hx with hx | hx
    · exact h.denominated x hx
    · obtain rfl := List.mem_singleton.mp hx
      exact ⟨hout, hdenom⟩
  sum := by
    change s.nValueRet + out.nValue = ((s.vCoinsRet2 ++ [out]).map COutput.nValue).sum
    rw [List.map_append, List.sum_append, List.map_singleton, List.sum_singleton, h.sum]
  max_le := h.max_le
  le_max _ := hle

theorem DenomState.Fits.submit (h : s.Fits vCoins nMax) {fReturn : Bool}
    (hsubmit : s.submit nValueMin nCoins rand = some (fReturn, s')) :
    s'.Fits vCoins nMax ∧ s'.nValueRet = s.nValueRet := by
  rw [DenomState.submit] at hsubmit
  split at hsubmit
  · split at hsubmit
    · cases hsubmit
    · obtain ⟨-, rfl⟩ := Prod.mk.inj (Option.some.inj hsubmit)
      refine ⟨⟨h.denominated, h.sum, ?_, h.le_max⟩, rfl⟩
      have hnonneg := Int.tmod_nonneg (s.nValueMax.tdiv 5) (Int.natCast_nonneg (rand s.nRand))
      have hmax := h.max_le
      change s.nValueMax - Int.tmod (rand s.nRand) (s.nValueMax.tdiv 5) ≤ nMax
      omega
  · obtain ⟨-, rfl⟩ := Prod.mk.inj (Option.some.inj hsubmit)
    exact ⟨h, rfl⟩

theorem denomLoop_fits {fReturned : Bool} (hsub : rest ⊆ vCoins) (hs : s.Fits vCoins nMax)
    (h : pw.denomLoop R nObfuscationRounds nDenom nValueMin nRoundsMin nRoundsMax nCoins rand rest
      s = some (fReturned, s')) : s'.Fits vCoins nMax := by
  induction rest generalizing s with
  | nil =>
    obtain ⟨-, rfl⟩ := Prod.mk.inj (Option.some.inj h)
    exact hs
  | cons out rest ih =>
    obtain ⟨hout, hsub'⟩ := List.cons_subset.mp hsub
    rw [denomLoop] at h
    split at h
    swap
    · exact ih hsub' hs h
    rename_i hroom
    have hle : s.nValueRet + out.nValue ≤ nMax := hroom.trans hs.max_le
    split at h
    · cases h
    · exact ih hsub' (hs.withMemo _) h
    rename_i memo1 _
    split at h
    · split at h
      · cases h
      · rename_i hsubmit
        obtain ⟨-, rfl⟩ := Prod.mk.inj (Option.some.inj h)
        exact ((hs.withMemo _).submit hsubmit).1
      · rename_i s1 hsubmit
        obtain ⟨hs1, hvalue⟩ := (hs.withMemo _).submit hsubmit
        split at h
        · exact ih hsub' hs1 h
        · rename_i hindex
          refine ih hsub' (hs1.accept hout (isDenominatedAmount_of_denomIndex hindex) ?_ _) h
          rw [hvalue]
          exact hle
    · split at h
      · exact ih hsub' (hs.withMemo _) h
      · rename_i hindex
        refine ih hsub' ?_ h
        exact (hs.withMemo memo1).accept hout (isDenominatedAmount_of_denomIndex hindex) hle _

variable (nValueMin) in
/-- With nothing left of the maximum nothing more is taken. -/
theorem denomLoop_full (hkeyed : pw.Keyed) (hinitial : pw.Unrated)
    (hrounds : 0 ≤ nObfuscationRounds)
    (hoffer : pw.availableCoins R node true none true .allCoins false = some vCoins) (nDenom : Int)
    (nCoins : Nat) (rand : Nat → Nat) (hsub : rest ⊆ vCoins)
    (hmemo : pw.MemoHolds pw.RoundsFit s.memo) (hfull : s.nValueRet = s.nValueMax) :
    ∃ memo', pw.denomLoop R nObfuscationRounds nDenom nValueMin 0 17 nCoins rand rest s =
      some (false, { s with memo := memo' }) := by
  induction rest generalizing s with
  | nil => exact ⟨s.memo, rfl⟩
  | cons out rest ih =>
    obtain ⟨hout, hsub'⟩ := List.cons_subset.mp hsub
    rw [denomLoop]
    by_cases hroom : s.nValueRet + out.nValue ≤ s.nValueMax
    · -- what is worth nothing is not denominated
      have hdenom : isDenominatedAmount out.nValue = false := by
        by_contra hdenom
        have hall : ∀ d ∈ obfuScationDenominations, 0 < d := by decide
        have hpos := hall out.nValue (List.contains_iff_mem.mp ((Bool.not_eq_false _).mp hdenom))
        omega
      obtain ⟨memo', n, hget, hn, hmemo'⟩ := askRounds_offered 0 17 hkeyed hinitial
        hrounds hoffer hout hmemo
      rw [hdenom, if_neg Bool.false_ne_true] at hn
      have hbelow : decide (n < 0) = true := decide_eq_true (by omega)
      rw [hbelow, Bool.not_true, Bool.and_false] at hget
      rw [if_pos hroom, hget]
      exact ih hsub' hmemo' hfull
    · rw [if_neg hroom]
      exact ih hsub' hmemo hfull

/-- **Any denominated coin may be the one that is returned.** -/
theorem exists_selectCoinsByDenominations (hkeyed : pw.Keyed) (hinitial : pw.Unrated)
    (hrounds : 0 ≤ nObfuscationRounds)
    (hoffer : pw.availableCoins R node true none true .allCoins false = some vCoins)
    (hout : out ∈ vCoins) (hdenom : isDenominatedAmount out.nValue = true) :
    ∃ d fRet memo', pw.selectCoinsByDenominations R node nObfuscationRounds ∅ d 63 0 out.nValue 0
      17 = some (fRet, [out], memo') := by
  obtain ⟨before, after, rfl⟩ := List.append_of_mem hout
  let d : DenomDraws := ⟨fun vCoins => vCoins.rotate before.length,
    fun vCoins => List.rotate_perm vCoins before.length, fun _ => 0⟩
  have hshuffle : d.shuffle (before ++ out :: after) = out :: (after ++ before) :=
    List.rotate_append_length_eq before (out :: after)
  have hsub : after ++ before ⊆ before ++ out :: after := by
    intro x hx
    rcases List.mem_append.mp hx with hx | hx
    · exact List.mem_append_right _ (List.mem_cons_of_mem _ hx)
    · exact List.mem_append_left _ hx
  obtain ⟨memo1, n, hget, hn, hmemo1⟩ := askRounds_offered 0 17 hkeyed hinitial
    hrounds hoffer hout MemoHolds.empty
  rw [if_pos hdenom] at hn
  have hlow : decide (n < 0) = false := decide_eq_false (by omega)
  have hhigh : decide (n ≥ 17) = false := decide_eq_false (by omega)
  rw [hlow, hhigh, Bool.not_false, Bool.and_true] at hget
  obtain ⟨i, hi⟩ := exists_denomIndex hdenom
  have hmemo₁' : pw.MemoHolds pw.RoundsFit (DenomState.accept
      { DenomState.init memo1 63 out.nValue with
        fFound := (DenomState.init memo1 63 out.nValue).fFound.set i true } out).memo := hmemo1
  obtain ⟨memo2, hloop⟩ := denomLoop_full 0 hkeyed hinitial hrounds hoffer 63
    (before ++ out :: after).length (fun _ => 0) hsub hmemo₁' (Int.zero_add _)
  refine ⟨d, decide (0 + out.nValue ≥ 0) &&
    ((DenomState.init memo1 63 out.nValue).fFound.set i true).all id, memo2, ?_⟩
  rw [selectCoinsByDenominations, coinTypeBool, hoffer]
  change (pw.denomLoop R nObfuscationRounds 63 0 0 17 (before ++ out :: after).length
    (fun _ => 0) (d.shuffle (before ++ out :: after)) (.init ∅ 63 out.nValue)).bind _ = _
  rw [hshuffle, denomLoop]
  have hroom : (DenomState.init ∅ 63 out.nValue).nValueRet + out.nValue ≤
      (DenomState.init ∅ 63 out.nValue).nValueMax := (Int.zero_add _).le
  have hopen : (DenomState.init ∅ 63 out.nValue).fFound.all id = false := rfl
  have hmemo : (DenomState.init ∅ 63 out.nValue).memo = ∅ := rfl
  rw [if_pos hroom, hmemo, hget]
  dsimp only
  rw [hopen, if_neg Bool.false_ne_true, hi]
  exact (congrArg (fun r => Option.bind r _) hloop).trans rfl

theorem denom_iff (hkeyed : pw.Keyed) (hinitial : pw.Unrated) (hrounds : 0 ≤ nObfuscationRounds) :
    pw.DenominatesWell R node nObfuscationRounds ↔
      pw.Offers R node true (fun out => isDenominatedAmount out.nValue)
        fun out => out.fSpendable = true := by
  constructor
  · intro hall vCoins hoffer out hout hdenom
    obtain ⟨d, fRet, memo', hselect⟩ := exists_selectCoinsByDenominations hkeyed hinitial hrounds
      hoffer hout hdenom
    exact (hall _ _ _ _ _ _ _ _ _ _ MemoHolds.empty hselect).spendable out
      (List.mem_singleton_self out)
  · intro hspendable memo d nDenom nValueMin nValueMax nRoundsMin nRoundsMax fRet coins
      memo' _ hselect
    rw [selectCoinsByDenominations] at hselect
    obtain ⟨vCoins, hoffer, hselect⟩ := Option.bind_eq_some_iff.mp hselect
    obtain ⟨⟨fReturned, s⟩, hloop, hr⟩ := Option.bind_eq_some_iff.mp hselect
    obtain ⟨-, hr⟩ := Prod.mk.inj (Option.some.inj hr)
    obtain ⟨rfl, -⟩ := Prod.mk.inj hr
    have hfits := denomLoop_fits (d.shuffle_perm vCoins).subset
      (DenomState.init_fits vCoins memo nDenom nValueMax) hloop
    refine ⟨fun out hout => ?_, fun out hout => (hfits.denominated out hout).2, fun hpos => ?_⟩
    · obtain ⟨hin, hdenom⟩ := hfits.denominated out hout
      exact hspendable vCoins hoffer out hin hdenom
    · rw [← hfits.sum]
      exact hfits.le_max hpos

end

/--
Each selector selects well exactly if no coin on offer that passes its own tests is watched only.
With rounds of both kinds in the window, none may be denominated either.
-/
theorem selectors_iff (hkeyed : pw.Keyed) (hinitial : pw.Unrated) {nObfuscationRounds : Int}
    (hrounds : 0 ≤ nObfuscationRounds) (nTime nStakeMinAge : Int) (getTxTime : CWalletTx → Int) :
    (pw.StakesWell R node nTime nStakeMinAge getTxTime ↔
        pw.Offers R node false (stakeReady R nTime nStakeMinAge getTxTime)
          fun out => out.fSpendable = true) ∧
      (pw.DenominatesWell R node nObfuscationRounds ↔
        pw.Offers R node true (fun out => isDenominatedAmount out.nValue)
          fun out => out.fSpendable = true) ∧
      (pw.MixesWell R node nObfuscationRounds OneKind ↔
        pw.Offers R node true (fun out => darkAmount R out.nValue)
          fun out => out.fSpendable = true) ∧
      (pw.MixesWell R node nObfuscationRounds (fun _ _ => True) ↔
        pw.Offers R node true (fun out => darkAmount R out.nValue)
          fun out => out.fSpendable = true ∧ isDenominatedAmount out.nValue = false) ∧
      (pw.CollateralizesWell R node ↔
        pw.OffersFirst R node (fun out => isCollateralAmount out.nValue)
          fun out => out.fSpendable = true) :=
  ⟨stake_iff nTime nStakeMinAge getTxTime, denom_iff hkeyed hinitial hrounds,
    dark_iff hkeyed hinitial hrounds, dark_all_iff hkeyed hinitial hrounds, collateral_iff⟩

theorem offers_iff_getD {fIncludeZeroValue : Bool} {test : COutput → Bool} {P : COutput → Prop} :
    pw.Offers R node fIncludeZeroValue test P ↔
      ∀ out ∈ (pw.availableCoins R node true none fIncludeZeroValue .allCoins false).getD [],
        test out = true → P out := by
  unfold Offers
  cases pw.availableCoins R node true none fIncludeZeroValue .allCoins false with
  | none => simp
  | some vCoins => simp

theorem Offers.first {test : COutput → Bool} {P : COutput → Prop}
    (h : pw.Offers R node false test P) : pw.OffersFirst R node test P := by
  intro vCoins hoffer before out after hsplit htest _
  exact h vCoins hoffer out (hsplit ▸ List.mem_append_right _ List.mem_cons_self) htest

/-- Rules to evaluate on: besides, the script `OP_2` is watched only. -/
def mixedRules : WalletRules Unit :=
  { plainRules with isMine := fun keys scriptPubKey =>
      if scriptPubKey = [0x52] then 2 else plainRules.isMine keys scriptPubKey }

/-- A coin of every kind, and a small one that is watched only. -/
def mixedTx : CWalletTx where
  tx := { hash := 6, vin := [⟨⟨9, 1⟩, [], 0⟩], vout := [⟨COIN + 1000, [0x51], -10⟩,
    ⟨3 * COIN, [0x51], -10⟩, ⟨20 * COIN, [0x51], -10⟩, ⟨500, [0x52], -10⟩] }
  hashBlock := 10
  nIndex := 0

/-- The transaction next to a coin stake. -/
def mixedWallet : CWallet Unit :=
  { keys := (), mapWallet := (AList.singleton 5 stakeTx).insert 6 mixedTx }

def mixedNode : NodeView := { chainActive := ⟨7, 5⟩ :: ⟨10, 6⟩ :: List.replicate 15 ⟨8, 0⟩ }

theorem mixedWallet_lookup {hash : Uint256} {w : CWalletTx}
    (h : mixedWallet.mapWallet.lookup hash = some w) :
    (hash = 6 ∧ w = mixedTx) ∨ (hash = 5 ∧ w = stakeTx) := by
  have hmem : (⟨hash, w⟩ : Sigma fun _ : Uint256 => CWalletTx) ∈ mixedWallet.mapWallet.entries :=
    mem_entries.mpr h
  rcases List.mem_cons.mp hmem with heq | hmem
  · cases heq
    exact Or.inl ⟨rfl, rfl⟩
  · cases List.mem_singleton.mp hmem
    exact Or.inr ⟨rfl, rfl⟩

/-- The coin that is watched only is too young to be staked, and too small for the others. With
rounds of both kinds in the window, the denominated coin is in the way. -/
theorem mixedWallet_selects_well :
    (mixedWallet.StakesWell mixedRules mixedNode 1000 60
      (fun w => if w.tx.hash = 6 then 990 else 0) ∧
      mixedWallet.DenominatesWell mixedRules mixedNode 2) ∧
    (mixedWallet.MixesWell mixedRules mixedNode 2 OneKind ∧
      ¬ mixedWallet.MixesWell mixedRules mixedNode 2 fun _ _ => True) ∧
    mixedWallet.CollateralizesWell mixedRules mixedNode := by
  obtain ⟨hstake, hdenom, hdark, hall, hcollateral⟩ :=
    @selectors_iff Unit mixedRules mixedNode mixedWallet
    (fun hash w hw => by rcases mixedWallet_lookup hw with ⟨rfl, rfl⟩ | ⟨rfl, rfl⟩ <;> rfl)
    (fun hash w hw => by rcases mixedWallet_lookup hw with ⟨-, rfl⟩ | ⟨-, rfl⟩ <;> decide)
    2 (by decide) 1000 60 fun w => if w.tx.hash = 6 then 990 else 0
  rw [hstake, hdenom, hdark, hall, hcollateral]
  refine ⟨⟨?_, ?_⟩, ⟨?_, ?_⟩, ?_⟩
  · exact offers_iff_getD.mpr (by decide +kernel)
  · exact offers_iff_getD.mpr (by decide +kernel)
  · exact offers_iff_getD.mpr (by decide +kernel)
  · intro hoffers
    have hnone : ∀ out ∈ (mixedWallet.availableCoins mixedRules mixedNode true none true .allCoins
        false).getD [], darkAmount mixedRules out.nValue = true →
          isDenominatedAmount out.nValue = false :=
      fun out hout hdark => (offers_iff_getD.mp hoffers out hout hdark).2
    exact absurd hnone (by decide +kernel)
  · exact (offers_iff_getD.mpr (by decide +kernel)).first

/-- Rules to evaluate on: the script `OP_1` is watched only. -/
def watchRules : WalletRules Unit :=
  { plainRules with isMine := fun _ scriptPubKey => if scriptPubKey = [0x51] then 2 else 0 }

/-- A coin stake that is watched only is selected for staking. -/
theorem watched_coin_is_staked :
    ((stakeWallet.selectStakeCoins watchRules (stakeNode 15) 1000 60 (fun _ => 0) 100).map
        fun setCoins => setCoins.map fun out => (out.prevout, out.fSpendable)) =
      some [(⟨5, 1⟩, false)] ∧
      ¬ stakeWallet.StakesWell watchRules (stakeNode 15) 1000 60 fun _ => 0 := by
  have hselect : ((stakeWallet.selectStakeCoins watchRules (stakeNode 15) 1000 60 (fun _ => 0)
      100).map fun setCoins => setCoins.map fun out => (out.prevout, out.fSpendable)) =
        some [(⟨5, 1⟩, false)] := by decide
  refine ⟨hselect, fun hwell => ?_⟩
  obtain ⟨setCoins, hcoins, hmap⟩ := Option.map_eq_some_iff.mp hselect
  have hlisted : ((⟨5, 1⟩, false) : COutPoint × Bool) ∈
      setCoins.map fun out => (out.prevout, out.fSpendable) := by
    rw [hmap]
    exact List.mem_singleton_self _
  obtain ⟨out, hout, hfalse⟩ := List.mem_map.mp hlisted
  have hspendable := (hwell 100 setCoins hcoins).spendable out hout
  rw [(Prod.mk.inj hfalse).2] at hspendable
  cases hspendable

end CWallet

end BitBlocks
