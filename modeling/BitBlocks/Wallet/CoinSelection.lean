import BitBlocks.Wallet.Offered

/-!
# Selecting coins (`CWallet::SelectCoins`)

The coins that pay for an amount. Coins selected by hand are all taken; denominated ones are
taken from the largest denomination on; otherwise `SelectCoinsMinConf` looks for one coin or a
set of coins close to the amount, with confirmations that are asked for in three attempts. The
set is found by trial, and what is random in it is an argument here.

A set of coins is the list of its elements. They are different outputs of different
transactions.
-/

namespace BitBlocks

/-- `IsDenominatedAmount`. -/
def isDenominatedAmount (nInputAmount : Int) : Bool :=
  obfuScationDenominations.contains nInputAmount

/-- `less_then_denom`. -/
def lessThenDenom (out1 out2 : COutput) : Bool :=
  !isDenominatedAmount out1.nValue && isDenominatedAmount out2.nValue

/-- What one call of `SelectCoins` draws. -/
structure SelectDraws where
  /-- `std::shuffle`, by the attempt. -/
  shuffle : Nat → List COutput → List COutput
  shuffle_perm : ∀ attempt vCoins, (shuffle attempt vCoins).Perm vCoins
  /-- `insecure_rand() & 1`, by the attempt, the call, the repetition and the coin. -/
  insecureRand : Nat → Bool → Nat → Nat → Bool

/-! ## `ApproximateBestSubset` -/

structure SubsetState where
  vfIncluded : Nat → Bool
  nTotal : Int
  fReachedTarget : Bool
  vfBest : Nat → Bool
  nBest : Int

/-- The sum of the values, from the first to the one before `n`, that are marked. -/
def markedSum (value : Nat → Int) (vf : Nat → Bool) : Nat → Int
  | 0 => 0
  | n + 1 => markedSum value vf n + if vf n then value n else 0

namespace SubsetState

variable (value : Nat → Int) (nTargetValue : Int)

/-- The value `i` is added, and taken out again when the target is reached with it. -/
def add (s : SubsetState) (i : Nat) : SubsetState :=
  let nTotal := s.nTotal + value i
  let vfIncluded := Function.update s.vfIncluded i true
  if nTotal ≥ nTargetValue then
    let (nBest, vfBest) :=
      if nTotal < s.nBest then (nTotal, vfIncluded) else (s.nBest, s.vfBest)
    { vfIncluded := Function.update vfIncluded i false, nTotal := nTotal - value i,
      fReachedTarget := true, vfBest, nBest }
  else { s with vfIncluded, nTotal }

/-- A pass over the values before `n`. -/
def pass (take : SubsetState → Nat → Bool) (n : Nat) (s : SubsetState) : SubsetState :=
  (List.range n).foldl (fun s i => if take s i then s.add value nTargetValue i else s) s

/-- A repetition: a pass over values drawn, then one over those left out, until the target is
reached. -/
def rep (bit : Nat → Bool) (n : Nat) (s : SubsetState) : SubsetState :=
  let s := { s with vfIncluded := fun _ => false, nTotal := 0, fReachedTarget := false }
  let s := s.pass value nTargetValue (fun _ i => bit i) n
  if s.fReachedTarget then s else s.pass value nTargetValue (fun s i => !s.vfIncluded i) n

/-- The repetitions from `nRep` on. -/
def reps (bit : Nat → Nat → Bool) (n : Nat) : Nat → Nat → SubsetState → SubsetState
  | 0, _, s => s
  | iterations + 1, nRep, s =>
    if s.nBest ≠ nTargetValue then
      reps bit n iterations (nRep + 1) (s.rep value nTargetValue (bit nRep) n)
    else s

end SubsetState

/-- `ApproximateBestSubset`: the marks and their sum. -/
def approximateBestSubset (vValue : List COutput) (nTotalLower nTargetValue : Int)
    (bit : Nat → Nat → Bool) (iterations : Nat) : (Nat → Bool) × Int :=
  let s := SubsetState.reps (fun i => (vValue[i]?).elim 0 COutput.nValue) nTargetValue bit
    vValue.length iterations 0 ⟨fun _ => false, 0, false, fun _ => true, nTotalLower⟩
  (s.vfBest, s.nBest)

/-! ## `SelectCoinsMinConf` -/

/-- The variables that the loop over the coins fills. -/
structure CoinScan where
  vValue : List COutput := []
  nTotalLower : Int := 0
  coinLowestLarger : Option COutput := none

namespace CoinScan

/-- The approximation, with a second one for some change if the first is not exact. -/
def marks (draws : SelectDraws) (attempt : Nat) (nTargetValue : Int) (s : CoinScan)
    (vValue : List COutput) : (Nat → Bool) × Int :=
  let (vfBest, nBest) := approximateBestSubset vValue s.nTotalLower nTargetValue
    (draws.insecureRand attempt false) 1000
  if nBest ≠ nTargetValue ∧ s.nTotalLower ≥ nTargetValue + CENT then
    approximateBestSubset vValue s.nTotalLower (nTargetValue + CENT)
      (draws.insecureRand attempt true) 1000
  else (vfBest, nBest)

/-- The subset that the approximation finds, or the next bigger coin. -/
def best (draws : SelectDraws) (attempt : Nat) (nTargetValue : Int) (s : CoinScan) : List COutput :=
  let vValue := s.vValue.mergeSort fun out1 out2 => decide (out2.nValue ≤ out1.nValue)
  let (vfBest, nBest) := s.marks draws attempt nTargetValue vValue
  let subset := (vValue.zipIdx.filter fun x => vfBest x.2).map Prod.fst
  match s.coinLowestLarger with
  | none => subset
  | some coin =>
    if (nBest ≠ nTargetValue ∧ nBest < nTargetValue + CENT) ∨ coin.nValue ≤ nBest then [coin]
    else subset

/-- What is done with the coins that were scanned; `none` when there is not enough. -/
def settle (draws : SelectDraws) (attempt : Nat) (nTargetValue : Int) (s : CoinScan) :
    Option (List COutput) :=
  if s.nTotalLower = nTargetValue then some s.vValue
  else if s.nTotalLower < nTargetValue then s.coinLowestLarger.map fun coin => [coin]
  else some (s.best draws attempt nTargetValue)

end CoinScan

namespace CWallet

variable {K : Type} (R : WalletRules K) (node : NodeView) (pw : CWallet K)

/-- The loop over the coins; it stops at a coin of exactly the target. -/
def scanCoins (nTargetValue : Int) (nConfMine nConfTheirs : Int) (tryDenom : Nat) :
    List COutput → CoinScan → Option (CoinScan ⊕ COutput)
  | [], s => some (.inl s)
  | output :: vCoins, s =>
    if !output.fSpendable then scanCoins nTargetValue nConfMine nConfTheirs tryDenom vCoins s
    else
      match output.tx.isFromMe R pw ISMINE_ALL with
      | none => none
      | some fFromMe =>
        let n := output.nValue
        if output.nDepth < (if fFromMe then nConfMine else nConfTheirs) then
          scanCoins nTargetValue nConfMine nConfTheirs tryDenom vCoins s
        -- no denom values on the first run
        else if tryDenom = 0 ∧ isDenominatedAmount n = true then
          scanCoins nTargetValue nConfMine nConfTheirs tryDenom vCoins s
        else if n = nTargetValue then some (.inr output)
        else if n < nTargetValue + CENT then
          scanCoins nTargetValue nConfMine nConfTheirs tryDenom vCoins
            { s with vValue := s.vValue ++ [output], nTotalLower := s.nTotalLower + n }
        else if n < s.coinLowestLarger.elim (2 ^ 63 - 1) COutput.nValue then
          scanCoins nTargetValue nConfMine nConfTheirs tryDenom vCoins
            { s with coinLowestLarger := some output }
        else scanCoins nTargetValue nConfMine nConfTheirs tryDenom vCoins s

/-- A run over the coins, and what is done with them. -/
def tryCoins (draws : SelectDraws) (attempt : Nat) (nTargetValue nConfMine nConfTheirs : Int)
    (tryDenom : Nat) (vCoins : List COutput) : Option (Option (List COutput)) :=
  match pw.scanCoins R nTargetValue nConfMine nConfTheirs tryDenom vCoins {} with
  | none => none
  | some (.inr output) => some (some [output])
  | some (.inl s) => some (s.settle draws attempt nTargetValue)

/-- `SelectCoinsMinConf`; the outer `none` is an amount that throws. -/
def selectCoinsMinConf (draws : SelectDraws) (attempt : Nat)
    (nTargetValue nConfMine nConfTheirs : Int) (vCoins : List COutput) :
    Option (Option (List COutput)) :=
  let vCoins := (draws.shuffle attempt vCoins).mergeSort fun out1 out2 => !lessThenDenom out2 out1
  match pw.tryCoins R draws attempt nTargetValue nConfMine nConfTheirs 0 vCoins with
  | none => none
  | some (some coins) => some (some coins)
  | some none => pw.tryCoins R draws attempt nTargetValue nConfMine nConfTheirs 1 vCoins

/-! ## `SelectCoins` -/

/-- The coins that are selected by hand and can be spent for this purpose. -/
def handPicked (rounds : COutPoint → Int) (nObfuscationRounds : Int)
    (coin_type : AvailableCoinsType) (vCoins : List COutput) : List COutput :=
  vCoins.filter fun out => out.fSpendable && (coin_type != .onlyDenominated ||
      !decide (rounds ⟨out.tx.tx.hash, out.i⟩ < nObfuscationRounds))

/-- One denomination: the coins of this amount that still fit under the limit. The limit is
formed in doubles, which are exact up to `2 ^ 53`. -/
def takeDenomination (rounds : COutPoint → Int) (nObfuscationRounds nTargetValue : Int)
    (vCoins : List COutput) (s : List COutput × Int) (v : Int) : List COutput × Int :=
  vCoins.foldl (fun s out =>
    if out.nValue = v ∧ s.2 + out.nValue < nTargetValue + COIN / 10 + 100 ∧
        ¬ rounds ⟨out.tx.tx.hash, out.i⟩ < nObfuscationRounds then
      (s.1 ++ [out], s.2 + out.nValue)
    else s) s

/-- `SelectCoins`: the coins and their value, if it reaches the target. -/
def selectCoins (rounds : COutPoint → Int) (nObfuscationRounds : Int) (draws : SelectDraws)
    (nTargetValue : Int) (coinControl : Option CCoinControl) (coin_type : AvailableCoinsType)
    (useIX : Bool) : Option (Option (List COutput × Int)) :=
  match pw.availableCoins R node true coinControl false coin_type useIX with
  | none => none
  | some vCoins =>
    let reached (s : List COutput × Int) := if s.2 ≥ nTargetValue then some s else none
    if coinControl.any fun cc => !cc.setSelected.isEmpty then
      let coins := handPicked rounds nObfuscationRounds coin_type vCoins
      some (reached (coins, (coins.map COutput.nValue).sum))
    else if coin_type = .onlyDenominated then
      some (reached (obfuScationDenominations.foldl
        (takeDenomination rounds nObfuscationRounds nTargetValue vCoins) ([], 0)))
    else
      let valued (coins : List COutput) := (coins, (coins.map COutput.nValue).sum)
      match pw.selectCoinsMinConf R draws 0 nTargetValue 1 6 vCoins with
      | none => none
      | some (some coins) => some (some (valued coins))
      | some none =>
        match pw.selectCoinsMinConf R draws 1 nTargetValue 1 1 vCoins with
        | none => none
        | some (some coins) => some (some (valued coins))
        | some none =>
          if R.bSpendZeroConfChange then
            (pw.selectCoinsMinConf R draws 2 nTargetValue 0 1 vCoins).map (·.map valued)
          else some none

end CWallet

/-! ## Marks -/

section Marks

variable {value : Nat → Int} {vf : Nat → Bool} {i n : Nat}

theorem markedSum_congr {value' : Nat → Int} {vf' : Nat → Bool}
    (h : ∀ j < n, vf' j = vf j ∧ value' j = value j) :
    markedSum value' vf' n = markedSum value vf n := by
  induction n with
  | zero => rfl
  | succ n ih =>
    have hn := h n (Nat.lt_succ_self n)
    rw [markedSum, markedSum, ih fun j hj => h j (Nat.lt_succ_of_lt hj), hn.1, hn.2]

theorem markedSum_none (n : Nat) : markedSum value (fun _ => false) n = 0 := by
  induction n with
  | zero => rfl
  | succ n ih =>
    rw [markedSum, ih]
    rfl

theorem markedSum_mark (hi : i < n) (hvf : vf i = false) :
    markedSum value (Function.update vf i true) n = markedSum value vf n + value i := by
  induction n with
  | zero => exact absurd hi (Nat.not_lt_zero i)
  | succ n ih =>
    rw [markedSum, markedSum]
    by_cases hin : i = n
    · subst hin
      have hbelow : markedSum value (Function.update vf i true) i = markedSum value vf i :=
        markedSum_congr fun j hj => ⟨Function.update_of_ne (by omega) _ _, rfl⟩
      rw [hbelow, Function.update_self, hvf, if_pos rfl, if_neg (by decide)]
      omega
    · rw [ih (by omega), Function.update_of_ne (Ne.symm hin)]
      omega

theorem update_false (hvf : vf i = false) :
    Function.update (Function.update vf i true) i false = vf := by
  rw [Function.update_idem, ← hvf, Function.update_eq_self]

theorem sum_marked (vf : Nat → Bool) (l : List COutput) :
    (((l.zipIdx.filter fun x => vf x.2).map Prod.fst).map COutput.nValue).sum =
      markedSum (fun i => (l[i]?).elim 0 COutput.nValue) vf l.length := by
  induction l using List.reverseRecOn with
  | nil => rfl
  | append_singleton l out ih =>
    have hrest : markedSum (fun i => ((l ++ [out])[i]?).elim 0 COutput.nValue) vf l.length =
        markedSum (fun i => (l[i]?).elim 0 COutput.nValue) vf l.length :=
      markedSum_congr fun j hj => ⟨rfl, by rw [List.getElem?_append_left hj]⟩
    have hlast : ((l ++ [out])[l.length]?).elim 0 COutput.nValue = out.nValue := by
      rw [List.getElem?_append_right (Nat.le_refl _), Nat.sub_self]
      rfl
    rw [List.length_append, List.length_singleton, markedSum, hrest, hlast, ← ih,
      List.zipIdx_append, List.filter_append, List.map_append, List.map_append, List.sum_append]
    by_cases hout : vf l.length = true
    · simp [hout]
    · simp [hout]

theorem markedSum_all (l : List COutput) :
    markedSum (fun i => (l[i]?).elim 0 COutput.nValue) (fun _ => true) l.length =
      (l.map COutput.nValue).sum := by
  rw [← sum_marked]
  simp

end Marks

/-! ## The approximation reaches the target -/

namespace SubsetState

variable {value : Nat → Int} {nTargetValue : Int} {n : Nat} {s : SubsetState}

/-- The total is that of the marks, and the best marks reach the target. -/
structure Sound (value : Nat → Int) (nTargetValue : Int) (n : Nat) (s : SubsetState) : Prop where
  total : s.nTotal = markedSum value s.vfIncluded n
  reached : nTargetValue ≤ markedSum value s.vfBest n

theorem Sound.add {i : Nat} (h : s.Sound value nTargetValue n) (hi : i < n)
    (hout : s.vfIncluded i = false) :
    (s.add value nTargetValue i).Sound value nTargetValue n ∧
      ∀ j, j ≠ i → (s.add value nTargetValue i).vfIncluded j = s.vfIncluded j := by
  have hmark : s.nTotal + value i = markedSum value (Function.update s.vfIncluded i true) n := by
    rw [markedSum_mark hi hout, h.total]
  unfold SubsetState.add
  dsimp only
  split
  · rename_i hge
    rw [update_false hout]
    refine ⟨⟨?_, ?_⟩, fun j _ => rfl⟩
    · show s.nTotal + value i - value i = markedSum value s.vfIncluded n
      rw [← h.total]
      omega
    · show nTargetValue ≤ markedSum value
        (if s.nTotal + value i < s.nBest then _ else _ : Int × _).2 n
      split
      · rw [← hmark]
        exact hge
      · exact h.reached
  · exact ⟨⟨hmark, h.reached⟩, fun j hj => Function.update_of_ne hj _ _⟩

theorem Sound.pass {take : SubsetState → Nat → Bool} (h : s.Sound value nTargetValue n)
    (htake : ∀ (s' : SubsetState) (i : Nat), (∀ j, i ≤ j → s'.vfIncluded j = s.vfIncluded j) →
      take s' i = true → s'.vfIncluded i = false) :
    (s.pass value nTargetValue take n).Sound value nTargetValue n := by
  have hupto : ∀ k ≤ n, (s.pass value nTargetValue take k).Sound value nTargetValue n ∧
      ∀ j, k ≤ j → (s.pass value nTargetValue take k).vfIncluded j = s.vfIncluded j := by
    intro k
    induction k with
    | zero => exact fun _ => ⟨h, fun j _ => rfl⟩
    | succ k ih =>
      intro hk
      obtain ⟨hs, hlater⟩ := ih (by omega)
      unfold SubsetState.pass at hs hlater ⊢
      rw [List.range_succ, List.foldl_append, List.foldl_cons, List.foldl_nil]
      split
      · rename_i htaken
        obtain ⟨hs', hsame⟩ := hs.add (by omega) (htake _ k hlater htaken)
        exact ⟨hs', fun j hj => (hsame j (by omega)).trans (hlater j (by omega))⟩
      · exact ⟨hs, fun j hj => hlater j (by omega)⟩
  exact (hupto n (Nat.le_refl n)).1

theorem Sound.rep (bit : Nat → Bool) (h : s.Sound value nTargetValue n) :
    (s.rep value nTargetValue bit n).Sound value nTargetValue n := by
  have hstart : Sound value nTargetValue n
      { s with vfIncluded := fun _ => false, nTotal := 0, fReachedTarget := false } :=
    ⟨(markedSum_none n).symm, h.reached⟩
  have hfirst := @Sound.pass _ _ _ _ (fun _ i => bit i) hstart fun s' i hs' _ =>
    hs' i (Nat.le_refl i)
  unfold SubsetState.rep
  dsimp only
  split
  · exact hfirst
  · refine hfirst.pass fun s' i _ htake => ?_
    rwa [Bool.not_eq_true'] at htake

theorem Sound.reps (bit : Nat → Nat → Bool) : ∀ (iterations nRep : Nat) {s : SubsetState},
    s.Sound value nTargetValue n →
      (SubsetState.reps value nTargetValue bit n iterations nRep s).Sound value nTargetValue n
  | 0, _, _, h => h
  | iterations + 1, nRep, s, h => by
    rw [SubsetState.reps]
    split
    · exact Sound.reps bit iterations (nRep + 1) (h.rep (bit nRep))
    · exact h

end SubsetState

/-- **The approximation reaches its target** when all the values together do. -/
theorem approximateBestSubset_reaches {vValue : List COutput} {nTotalLower nTargetValue : Int}
    (htotal : nTargetValue ≤ (vValue.map COutput.nValue).sum) (bit : Nat → Nat → Bool)
    (iterations : Nat) :
    nTargetValue ≤ (((vValue.zipIdx.filter fun x =>
      (approximateBestSubset vValue nTotalLower nTargetValue bit iterations).1 x.2).map
        Prod.fst).map COutput.nValue).sum := by
  rw [sum_marked]
  refine (SubsetState.Sound.reps bit iterations 0 ⟨?_, ?_⟩).reached
  · exact (markedSum_none _).symm
  · rw [markedSum_all]
    exact htotal

/-! ## What is selected reaches the target -/

namespace CoinScan

variable {nTargetValue : Int} {s : CoinScan}

structure Sound (nTargetValue : Int) (s : CoinScan) : Prop where
  total : s.nTotalLower = (s.vValue.map COutput.nValue).sum
  larger : ∀ coin ∈ s.coinLowestLarger, nTargetValue + CENT ≤ coin.nValue

theorem marks_reach (draws : SelectDraws) (attempt : Nat) {vValue : List COutput}
    (hlower : nTargetValue ≤ s.nTotalLower)
    (hsum : (vValue.map COutput.nValue).sum = s.nTotalLower) :
    nTargetValue ≤ (((vValue.zipIdx.filter fun x =>
      (s.marks draws attempt nTargetValue vValue).1 x.2).map Prod.fst).map COutput.nValue).sum := by
  have hcent : CENT = 1000000 := rfl
  unfold CoinScan.marks
  dsimp only
  split
  · rename_i hagain
    have := @approximateBestSubset_reaches vValue s.nTotalLower (nTargetValue + CENT)
      (hsum ▸ hagain.2) (draws.insecureRand attempt true) 1000
    omega
  · exact approximateBestSubset_reaches (hsum ▸ hlower) _ _

theorem Sound.best (draws : SelectDraws) (attempt : Nat) (h : s.Sound nTargetValue)
    (hlower : nTargetValue ≤ s.nTotalLower) :
    nTargetValue ≤ ((s.best draws attempt nTargetValue).map COutput.nValue).sum := by
  have hcent : CENT = 1000000 := rfl
  unfold CoinScan.best
  dsimp only
  generalize hsorted : (s.vValue.mergeSort fun out1 out2 => decide (out2.nValue ≤ out1.nValue)) =
    vValue
  have hsum : (vValue.map COutput.nValue).sum = s.nTotalLower := by
    have hperm : vValue.Perm s.vValue := hsorted ▸ List.mergeSort_perm _ _
    rw [h.total, (hperm.map COutput.nValue).sum_eq]
  have hsubset := marks_reach draws attempt hlower hsum
  generalize s.marks draws attempt nTargetValue vValue = found at hsubset ⊢
  split
  · exact hsubset
  · rename_i coin hcoin
    have hlarge := h.larger coin hcoin
    split
    · rw [List.map_singleton, List.sum_singleton]
      omega
    · exact hsubset

theorem Sound.settle (draws : SelectDraws) (attempt : Nat) {coins : List COutput}
    (h : s.Sound nTargetValue) (hsettle : s.settle draws attempt nTargetValue = some coins) :
    nTargetValue ≤ (coins.map COutput.nValue).sum := by
  have hcent : CENT = 1000000 := rfl
  unfold CoinScan.settle at hsettle
  split at hsettle
  · rename_i hexact
    obtain rfl := Option.some.inj hsettle
    rw [← h.total, hexact]
  split at hsettle
  · obtain ⟨coin, hcoin, rfl⟩ := Option.map_eq_some_iff.mp hsettle
    have hlarge := h.larger coin hcoin
    rw [List.map_singleton, List.sum_singleton]
    omega
  · obtain rfl := Option.some.inj hsettle
    exact h.best draws attempt (by omega)

end CoinScan

namespace CWallet

variable {K : Type} {R : WalletRules K} {node : NodeView} {pw : CWallet K}
  {nTargetValue nConfMine nConfTheirs : Int} {tryDenom : Nat}

theorem scanCoins_sound : ∀ (vCoins : List COutput) {s : CoinScan} {r : CoinScan ⊕ COutput},
    s.Sound nTargetValue →
    pw.scanCoins R nTargetValue nConfMine nConfTheirs tryDenom vCoins s = some r →
      r.elim (CoinScan.Sound nTargetValue) fun output => output.nValue = nTargetValue := by
  intro vCoins
  induction vCoins with
  | nil =>
    intro s r hs h
    obtain rfl := Option.some.inj h
    exact hs
  | cons output vCoins ih =>
    intro s r hs h
    rw [scanCoins] at h
    split at h
    · exact ih hs h
    split at h
    · exact absurd h (by simp)
    rename_i fFromMe _
    dsimp only at h
    generalize (if fFromMe = true then nConfMine else nConfTheirs) = nConf at h
    split at h
    · exact ih hs h
    split at h
    · exact ih hs h
    split at h
    · rename_i hexact
      obtain rfl := Option.some.inj h
      exact hexact
    split at h
    · refine ih ?_ h
      refine ⟨?_, hs.larger⟩
      dsimp only
      rw [List.map_append, List.sum_append, List.map_singleton, List.sum_singleton, ← hs.total]
    split at h
    · rename_i hlarge _
      refine ih ?_ h
      refine ⟨hs.total, fun coin hcoin => ?_⟩
      obtain rfl := Option.some.inj hcoin
      omega
    · exact ih hs h

variable {draws : SelectDraws} {attempt : Nat} {vCoins coins : List COutput}

theorem tryCoins_reaches
    (h : pw.tryCoins R draws attempt nTargetValue nConfMine nConfTheirs tryDenom vCoins =
      some (some coins)) : nTargetValue ≤ (coins.map COutput.nValue).sum := by
  have hstart : CoinScan.Sound nTargetValue {} := ⟨rfl, fun _ h => absurd h (by simp)⟩
  unfold tryCoins at h
  split at h
  · exact absurd h (by simp)
  · rename_i output hscan
    have hexact : output.nValue = nTargetValue := scanCoins_sound vCoins hstart hscan
    obtain rfl := Option.some.inj (Option.some.inj h)
    rw [List.map_singleton, List.sum_singleton, hexact]
  · rename_i s hscan
    have hs : s.Sound nTargetValue := scanCoins_sound vCoins hstart hscan
    exact hs.settle draws attempt (Option.some.inj h)

theorem selectCoinsMinConf_reaches
    (h : pw.selectCoinsMinConf R draws attempt nTargetValue nConfMine nConfTheirs vCoins =
      some (some coins)) : nTargetValue ≤ (coins.map COutput.nValue).sum := by
  unfold selectCoinsMinConf at h
  dsimp only at h
  split at h
  · exact absurd h (by simp)
  · rename_i coins' htry
    obtain rfl := Option.some.inj (Option.some.inj h)
    exact tryCoins_reaches htry
  · exact tryCoins_reaches h

/-- What `SelectCoins` promises about the coins and their value. -/
structure Selected (rounds : COutPoint → Int) (nObfuscationRounds nTargetValue : Int)
    (coinControl : Option CCoinControl) (coin_type : AvailableCoinsType) (vCoins : List COutput)
    (coins : List COutput) (nValueRet : Int) : Prop where
  value : nValueRet = (coins.map COutput.nValue).sum
  reached : nTargetValue ≤ nValueRet
  /-- Coins selected by hand are all taken. -/
  byHand : (coinControl.any fun cc => !cc.setSelected.isEmpty) = true →
    coins = handPicked rounds nObfuscationRounds coin_type vCoins
  /-- Denominated coins stay close to the target otherwise. -/
  close : (coinControl.any fun cc => !cc.setSelected.isEmpty) = false →
    coin_type = .onlyDenominated → nValueRet < max 1 (nTargetValue + COIN / 10 + 100)

theorem takeDenomination_spec (rounds : COutPoint → Int) (nObfuscationRounds : Int)
    (vCoins : List COutput) (v : Int) : ∀ {s : List COutput × Int},
    (s.2 = (s.1.map COutput.nValue).sum ∧ s.2 < max 1 (nTargetValue + COIN / 10 + 100)) →
      (takeDenomination rounds nObfuscationRounds nTargetValue vCoins s v).2 =
          ((takeDenomination rounds nObfuscationRounds nTargetValue vCoins s v).1.map
            COutput.nValue).sum ∧
        (takeDenomination rounds nObfuscationRounds nTargetValue vCoins s v).2 <
          max 1 (nTargetValue + COIN / 10 + 100) := by
  unfold takeDenomination
  induction vCoins with
  | nil => exact fun h => h
  | cons out vCoins ih =>
    intro s h
    rw [List.foldl_cons]
    split
    · rename_i htake
      refine ih ⟨?_, by omega⟩
      rw [List.map_append, List.sum_append, List.map_singleton, List.sum_singleton, ← h.1]
    · exact ih h

theorem denominations_spec (rounds : COutPoint → Int) (nObfuscationRounds : Int)
    (vCoins : List COutput) (denominations : List Int) : ∀ {s : List COutput × Int},
    (s.2 = (s.1.map COutput.nValue).sum ∧ s.2 < max 1 (nTargetValue + COIN / 10 + 100)) →
      (denominations.foldl (takeDenomination rounds nObfuscationRounds nTargetValue vCoins) s).2 =
          ((denominations.foldl (takeDenomination rounds nObfuscationRounds nTargetValue vCoins)
            s).1.map COutput.nValue).sum ∧
        (denominations.foldl (takeDenomination rounds nObfuscationRounds nTargetValue vCoins) s).2 <
          max 1 (nTargetValue + COIN / 10 + 100) := by
  induction denominations with
  | nil => exact fun h => h
  | cons v denominations ih =>
    intro s h
    rw [List.foldl_cons]
    exact ih (takeDenomination_spec rounds nObfuscationRounds vCoins v h)

/-- **What is selected is worth the target**, and it is worth what the caller is told. -/
theorem selectCoins_selected {rounds : COutPoint → Int} {nObfuscationRounds : Int}
    {coinControl : Option CCoinControl} {coin_type : AvailableCoinsType} {useIX : Bool}
    {nValueRet : Int}
    (h : pw.selectCoins R node rounds nObfuscationRounds draws nTargetValue coinControl coin_type
      useIX = some (some (coins, nValueRet))) :
    ∃ vCoins, pw.availableCoins R node true coinControl false coin_type useIX = some vCoins ∧
      Selected rounds nObfuscationRounds nTargetValue coinControl coin_type vCoins coins
        nValueRet := by
  unfold selectCoins at h
  split at h
  · exact absurd h (by simp)
  rename_i vCoins havail
  refine ⟨vCoins, havail, ?_⟩
  dsimp only at h
  split at h
  · rename_i hhand
    replace h := Option.some.inj h
    split at h
    · rename_i hge
      obtain ⟨rfl, rfl⟩ := Prod.mk.inj (Option.some.inj h)
      exact ⟨rfl, hge, fun _ => rfl, fun hno => absurd (hhand.symm.trans hno) (by decide)⟩
    · exact absurd h (by simp)
  rename_i hhand
  split at h
  · have hspec := @denominations_spec nTargetValue rounds nObfuscationRounds vCoins
      obfuScationDenominations ([], 0) ⟨rfl, by dsimp only; omega⟩
    replace h := Option.some.inj h
    split at h
    · rename_i hge
      rw [Option.some.inj h] at hspec hge
      exact ⟨hspec.1, hge, fun hyes => absurd hyes hhand, fun _ _ => hspec.2⟩
    · exact absurd h (by simp)
  · rename_i hdenom
    -- the three attempts differ in the confirmations they ask for
    have hvalued : ∀ {coins' : List COutput}, nTargetValue ≤ (coins'.map COutput.nValue).sum →
        (coins', (coins'.map COutput.nValue).sum) = (coins, nValueRet) →
          Selected rounds nObfuscationRounds nTargetValue coinControl coin_type vCoins coins
            nValueRet := by
      intro coins' hreach heq
      obtain ⟨rfl, rfl⟩ := Prod.mk.inj heq
      exact ⟨rfl, hreach, fun hyes => absurd hyes hhand, fun _ hyes => absurd hyes hdenom⟩
    split at h
    · exact absurd h (by simp)
    · rename_i coins' hsel
      exact hvalued (selectCoinsMinConf_reaches hsel) (Option.some.inj (Option.some.inj h))
    split at h
    · exact absurd h (by simp)
    · rename_i coins' hsel
      exact hvalued (selectCoinsMinConf_reaches hsel) (Option.some.inj (Option.some.inj h))
    split at h
    · obtain ⟨found, hsel, hmap⟩ := Option.map_eq_some_iff.mp h
      obtain ⟨coins', rfl, heq⟩ := Option.map_eq_some_iff.mp hmap
      exact hvalued (selectCoinsMinConf_reaches hsel) heq
    · exact absurd h (by simp)

end CWallet

end BitBlocks
