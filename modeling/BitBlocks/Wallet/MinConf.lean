import BitBlocks.Wallet.CoinSelection

/-!
# What `SelectCoinsMinConf` finds

The coins that can be spent and are deep enough are gone through at most twice, the first time
without the denominated ones. Whatever is drawn, an answer is made of such coins, each of them
once, and there is one exactly if all of them together are worth the target: with less the
second time through ends with nothing, and with that much there is a larger coin, or the
smaller ones are enough.
-/

namespace BitBlocks

/-- The set that is returned, and its value. -/
structure CoinsRet where
  setCoinsRet : List COutput := []
  nValueRet : Int := 0

/-- `setCoinsRet.insert(coin.second)` and `nValueRet += coin.first`. -/
def CoinsRet.insert (ret : CoinsRet) (coin : COutput) : CoinsRet where
  setCoinsRet := if (ret.setCoinsRet.map COutput.prevout).contains coin.prevout then ret.setCoinsRet
    else ret.setCoinsRet ++ [coin]
  nValueRet := ret.nValueRet + coin.nValue

theorem CoinsRet.insert_all (coins : List COutput) (ret : CoinsRet)
    (hnodup : ((ret.setCoinsRet ++ coins).map COutput.prevout).Nodup) :
    coins.foldl CoinsRet.insert ret =
      ⟨ret.setCoinsRet ++ coins, ret.nValueRet + (coins.map COutput.nValue).sum⟩ := by
  induction coins generalizing ret with
  | nil => rw [List.foldl_nil, List.append_nil, List.map_nil, List.sum_nil, Int.add_zero]
  | cons coin coins ih =>
    have hnew : (ret.setCoinsRet.map COutput.prevout).contains coin.prevout = false := by
      rw [List.map_append, List.map_cons] at hnodup
      have hdisjoint := (List.nodup_append.mp hnodup).2.2
      rw [← Bool.not_eq_true, List.contains_iff_mem]
      intro hmem
      exact hdisjoint _ hmem _ List.mem_cons_self rfl
    have hinsert : ret.insert coin = ⟨ret.setCoinsRet ++ [coin], ret.nValueRet + coin.nValue⟩ := by
      rw [CoinsRet.insert, hnew, if_neg Bool.false_ne_true]
    have happend : ret.setCoinsRet ++ [coin] ++ coins = ret.setCoinsRet ++ coin :: coins := by
      rw [List.append_assoc, List.singleton_append]
    rw [List.foldl_cons, hinsert, ih, happend, List.map_cons, List.sum_cons, Int.add_assoc]
    rw [happend]
    exact hnodup

namespace CoinScan

variable {nTargetValue : Int} {s : CoinScan} {output : COutput}

/-- The loop sees a coin that is not exactly the target. -/
def see (nTargetValue : Int) (s : CoinScan) (output : COutput) : CoinScan :=
  if output.nValue < nTargetValue + CENT then
    { s with vValue := s.vValue ++ [output], nTotalLower := s.nTotalLower + output.nValue }
  else if output.nValue < s.coinLowestLarger.elim (2 ^ 63 - 1) COutput.nValue then
    { s with coinLowestLarger := some output }
  else s

theorem see_small (h : output.nValue < nTargetValue + CENT) :
    (s.see nTargetValue output).vValue = s.vValue ++ [output] ∧
      (s.see nTargetValue output).coinLowestLarger = s.coinLowestLarger := by
  rw [see, if_pos h]
  exact ⟨rfl, rfl⟩

theorem see_large (h : ¬ output.nValue < nTargetValue + CENT) (hmax : output.nValue < 2 ^ 63 - 1) :
    (s.see nTargetValue output).vValue = s.vValue ∧
      ∃ coin, (s.see nTargetValue output).coinLowestLarger = some coin ∧
        (coin = output ∨ s.coinLowestLarger = some coin) := by
  rw [see, if_neg h]
  by_cases hless : output.nValue < s.coinLowestLarger.elim (2 ^ 63 - 1) COutput.nValue
  · rw [if_pos hless]
    exact ⟨rfl, output, rfl, Or.inl rfl⟩
  · rw [if_neg hless]
    cases hlarger : s.coinLowestLarger with
    | none =>
      rw [hlarger] at hless
      exact absurd hmax hless
    | some coin => exact ⟨rfl, coin, rfl, Or.inr rfl⟩

end CoinScan

namespace CWallet

variable {K : Type} (R : WalletRules K) (pw : CWallet K)

/-- `SelectCoinsMinConf`, with what it returns; `none` is an amount that throws. -/
def selectCoinsMinConfRet (draws : SelectDraws) (attempt : Nat)
    (nTargetValue nConfMine nConfTheirs : Int) (vCoins : List COutput) : Option (Bool × CoinsRet) :=
  match pw.selectCoinsMinConf R draws attempt nTargetValue nConfMine nConfTheirs vCoins with
  | none => none
  | some none => some (false, {})
  | some (some coins) => some (true, coins.foldl CoinsRet.insert {})

/-- A coin that can be spent and is deep enough. -/
def eligible (nConfMine nConfTheirs : Int) (output : COutput) : Bool :=
  output.fSpendable && match output.tx.isFromMe R pw ISMINE_ALL with
    | none => false
    | some fFromMe => !decide (output.nDepth < if fFromMe then nConfMine else nConfTheirs)

/-- One of the coins that a run over them looks at: no denominated ones on the first. -/
def considered (nConfMine nConfTheirs : Int) (tryDenom : Nat) (output : COutput) : Bool :=
  pw.eligible R nConfMine nConfTheirs output &&
    !(decide (tryDenom = 0) && isDenominatedAmount output.nValue)

variable {R pw} {nTargetValue nConfMine nConfTheirs : Int} {tryDenom : Nat} {s s' : CoinScan}
  {vCoins coins : List COutput} {output : COutput}

/-! ## A run over the coins -/

theorem considered_iff {fFromMe : Bool}
    (hfrom : output.tx.isFromMe R pw ISMINE_ALL = some fFromMe) :
    pw.considered R nConfMine nConfTheirs tryDenom output = true ↔ output.fSpendable = true ∧
        ¬ output.nDepth < (if fFromMe then nConfMine else nConfTheirs) ∧
        ¬ (tryDenom = 0 ∧ isDenominatedAmount output.nValue = true) := by
  rw [considered, eligible, hfrom, Bool.and_eq_true, Bool.and_eq_true, Bool.not_eq_true',
    Bool.not_eq_true', decide_eq_false_iff_not, ← Bool.not_eq_true, Bool.and_eq_true,
    decide_eq_true_eq, and_assoc]

/-- What the loop does with the next coin. -/
theorem scanCoins_cons (hdebit : (output.tx.isFromMe R pw ISMINE_ALL).isSome = true) :
    pw.scanCoins R nTargetValue nConfMine nConfTheirs tryDenom (output :: vCoins) s =
      if pw.considered R nConfMine nConfTheirs tryDenom output = true then
        if output.nValue = nTargetValue then some (.inr output)
        else pw.scanCoins R nTargetValue nConfMine nConfTheirs tryDenom vCoins
          (s.see nTargetValue output)
      else pw.scanCoins R nTargetValue nConfMine nConfTheirs tryDenom vCoins s := by
  obtain ⟨fFromMe, hfrom⟩ := Option.isSome_iff_exists.mp hdebit
  have hiff : pw.considered R nConfMine nConfTheirs tryDenom output = true ↔ _ :=
    considered_iff hfrom
  rw [scanCoins, hfrom]
  dsimp only
  by_cases hspend : output.fSpendable = true
  swap
  · have hno : (!output.fSpendable) = true := by rwa [Bool.not_eq_true', ← Bool.not_eq_true]
    rw [if_pos hno, if_neg fun hlook => hspend (hiff.mp hlook).1]
  rw [if_neg (by rw [hspend]; decide)]
  by_cases hdepth : output.nDepth < if fFromMe = true then nConfMine else nConfTheirs
  · rw [if_pos hdepth, if_neg fun hlook => (hiff.mp hlook).2.1 hdepth]
  rw [if_neg hdepth]
  by_cases hdenom : tryDenom = 0 ∧ isDenominatedAmount output.nValue = true
  · rw [if_pos hdenom, if_neg fun hlook => (hiff.mp hlook).2.2 hdenom]
  rw [if_neg hdenom, if_pos (hiff.mpr ⟨hspend, hdepth, hdenom⟩), CoinScan.see]
  split_ifs <;> rfl

/-- What was scanned: the coins below the target and some change, and none or one of those above. -/
structure Scanned (nTargetValue : Int) (vCoins : List COutput) (s s' : CoinScan) : Prop where
  lower : s'.vValue = s.vValue ++ vCoins.filter fun out => out.nValue < nTargetValue + CENT
  larger : ∀ coin ∈ s'.coinLowestLarger, coin ∈ vCoins ∨ coin ∈ s.coinLowestLarger
  none_larger : s'.coinLowestLarger = none → ∀ out ∈ vCoins, out.nValue < nTargetValue + CENT

/-- **The run ends** at a coin of exactly the target, or with everything scanned. -/
theorem scanCoins_scanned (hdebit : ∀ out ∈ vCoins, (out.tx.isFromMe R pw ISMINE_ALL).isSome = true)
    (hmax : ∀ out ∈ vCoins, out.nValue < 2 ^ 63 - 1) (s : CoinScan) :
    (∃ output ∈ vCoins.filter (pw.considered R nConfMine nConfTheirs tryDenom),
      pw.scanCoins R nTargetValue nConfMine nConfTheirs tryDenom vCoins s = some (.inr output)) ∨
    ∃ s', pw.scanCoins R nTargetValue nConfMine nConfTheirs tryDenom vCoins s = some (.inl s') ∧
      (s.coinLowestLarger ≠ none → s'.coinLowestLarger ≠ none) ∧
      Scanned nTargetValue (vCoins.filter (pw.considered R nConfMine nConfTheirs tryDenom)) s
      s' := by
  induction vCoins generalizing s with
  | nil =>
    exact Or.inr ⟨s, rfl, id, (List.append_nil _).symm, fun coin hcoin => Or.inr hcoin,
      fun _ out hout => absurd hout List.not_mem_nil⟩
  | cons output vCoins ih =>
    obtain ⟨hout, hdebit⟩ := List.forall_mem_cons.mp hdebit
    obtain ⟨hlt, hmax⟩ := List.forall_mem_cons.mp hmax
    rw [scanCoins_cons hout]
    by_cases hlook : pw.considered R nConfMine nConfTheirs tryDenom output = true
    swap
    · rw [if_neg hlook, List.filter_cons_of_neg hlook]
      exact ih hdebit hmax s
    rw [if_pos hlook, List.filter_cons_of_pos hlook]
    by_cases hexact : output.nValue = nTargetValue
    · rw [if_pos hexact]
      exact Or.inl ⟨output, List.mem_cons_self, rfl⟩
    rw [if_neg hexact]
    rcases ih hdebit hmax _ with ⟨found, hfound, hscan⟩ | ⟨s', hscan, hkept, hs'⟩
    · exact Or.inl ⟨found, List.mem_cons_of_mem output hfound, hscan⟩
    refine Or.inr ⟨s', hscan, ?_⟩
    by_cases hsmall : output.nValue < nTargetValue + CENT
    · obtain ⟨hvalue, hlarger⟩ := CoinScan.see_small (s := s) hsmall
      rw [hlarger] at hkept
      refine ⟨hkept, ?_, fun coin hcoin => ?_, fun hnone out hmem => ?_⟩
      · rw [hs'.lower, hvalue, List.filter_cons, if_pos (decide_eq_true hsmall), List.append_assoc,
          List.singleton_append]
      · have hin := hs'.larger coin hcoin
        rw [hlarger] at hin
        exact hin.imp_left (List.mem_cons_of_mem output)
      · rcases List.mem_cons.mp hmem with rfl | hmem
        · exact hsmall
        · exact hs'.none_larger hnone out hmem
    · obtain ⟨hvalue, larger, hlarger, horigin⟩ := CoinScan.see_large (s := s) hsmall hlt
      have hsome : s'.coinLowestLarger ≠ none :=
        hkept (by rw [hlarger]; exact Option.some_ne_none _)
      refine ⟨fun _ => hsome, ?_, fun coin hcoin => ?_, fun hnone => absurd hnone hsome⟩
      · rw [hs'.lower, hvalue, List.filter_cons, if_neg (by rwa [decide_eq_true_eq])]
      · rcases hs'.larger coin hcoin with hmem | hmem
        · exact Or.inl (List.mem_cons_of_mem output hmem)
        · rw [hlarger] at hmem
          obtain rfl := Option.some.inj hmem
          rcases horigin with rfl | hold
          · exact Or.inl List.mem_cons_self
          · exact Or.inr hold

/-! ## What is done with the coins -/

theorem marked_sublist {α : Type} (l : List α) (p : α × Nat → Bool) :
    ((l.zipIdx.filter p).map Prod.fst).Sublist l := by
  have hsub : ((l.zipIdx.filter p).map Prod.fst).Sublist (l.zipIdx.map Prod.fst) :=
    List.filter_sublist.map Prod.fst
  rwa [List.zipIdx_map_fst] at hsub

theorem settle_subperm (draws : SelectDraws) (attempt : Nat) {l : List COutput}
    (hlower : s.vValue.Sublist l) (hlarger : ∀ coin ∈ s.coinLowestLarger, coin ∈ l)
    (h : s.settle draws attempt nTargetValue = some coins) : coins.Subperm l := by
  rw [CoinScan.settle] at h
  split at h
  · obtain rfl := Option.some.inj h
    exact hlower.subperm
  split at h
  · obtain ⟨coin, hcoin, rfl⟩ := Option.map_eq_some_iff.mp h
    exact List.singleton_subperm_iff.mpr (hlarger coin hcoin)
  obtain rfl := Option.some.inj h
  rw [CoinScan.best]
  dsimp only
  have hsubset (p : COutput × Nat → Bool) : (((s.vValue.mergeSort fun out1 out2 =>
      decide (out2.nValue ≤ out1.nValue)).zipIdx.filter p).map Prod.fst).Subperm l :=
    (marked_sublist _ p).subperm.trans
      ((List.mergeSort_perm s.vValue _).subperm.trans hlower.subperm)
  split
  · exact hsubset _
  · rename_i coin hcoin
    split
    · exact List.singleton_subperm_iff.mpr (hlarger coin hcoin)
    · exact hsubset _

variable (tryDenom) in
/-- **One time through**: an answer made of the coins that are looked at, or less than the target
in all of them. -/
theorem tryCoins_answer (draws : SelectDraws) (attempt : Nat)
    (hdebit : ∀ out ∈ vCoins, (out.tx.isFromMe R pw ISMINE_ALL).isSome = true)
    (hmax : ∀ out ∈ vCoins, out.nValue < 2 ^ 63 - 1) :
    (∃ coins, pw.tryCoins R draws attempt nTargetValue nConfMine nConfTheirs tryDenom vCoins =
        some (some coins) ∧
      coins.Subperm (vCoins.filter (pw.considered R nConfMine nConfTheirs tryDenom))) ∨
    (pw.tryCoins R draws attempt nTargetValue nConfMine nConfTheirs tryDenom vCoins = some none ∧
      ((vCoins.filter (pw.considered R nConfMine nConfTheirs tryDenom)).map COutput.nValue).sum <
        nTargetValue) := by
  rcases scanCoins_scanned hdebit hmax {} with ⟨output, hout, hscan⟩ | ⟨s, hscan, -, hs⟩
  · refine Or.inl ⟨[output], ?_, List.singleton_subperm_iff.mpr hout⟩
    rw [tryCoins, hscan]
  have hstart : CoinScan.Sound nTargetValue {} := ⟨rfl, fun _ h => absurd h (by simp)⟩
  have hsound : s.Sound nTargetValue := scanCoins_sound vCoins hstart hscan
  have hvalue := hs.lower
  rw [List.nil_append] at hvalue
  have hin : ∀ coin ∈ s.coinLowestLarger,
      coin ∈ vCoins.filter (pw.considered R nConfMine nConfTheirs tryDenom) := by
    intro coin hcoin
    rcases hs.larger coin hcoin with hmem | hmem
    · exact hmem
    · cases hmem
  rw [tryCoins, hscan]
  dsimp only
  cases hsettle : s.settle draws attempt nTargetValue with
  | some coins =>
    refine Or.inl ⟨coins, rfl, settle_subperm draws attempt ?_ hin hsettle⟩
    rw [hvalue]
    exact List.filter_sublist
  | none =>
    refine Or.inr ⟨rfl, ?_⟩
    rw [CoinScan.settle] at hsettle
    split at hsettle
    · cases hsettle
    split at hsettle
    · rename_i hless
      -- with none larger the smaller ones are all
      have hall := hs.none_larger (Option.map_eq_none_iff.mp hsettle)
      rw [hsound.total, hvalue, List.filter_eq_self.mpr fun out hout =>
        decide_eq_true (hall out hout)] at hless
      exact hless
    · cases hsettle

/-! ## The two times through -/

/-- **An answer is made of eligible coins, or they are worth less than the target.** -/
theorem selectCoinsMinConf_answer (draws : SelectDraws) (attempt : Nat)
    (hdebit : ∀ out ∈ vCoins, (out.tx.isFromMe R pw ISMINE_ALL).isSome = true)
    (hmax : ∀ out ∈ vCoins, out.nValue < 2 ^ 63 - 1) :
    (∃ coins, pw.selectCoinsMinConf R draws attempt nTargetValue nConfMine nConfTheirs vCoins =
        some (some coins) ∧ coins.Subperm (vCoins.filter (pw.eligible R nConfMine nConfTheirs))) ∨
    (pw.selectCoinsMinConf R draws attempt nTargetValue nConfMine nConfTheirs vCoins = some none ∧
      ((vCoins.filter (pw.eligible R nConfMine nConfTheirs)).map COutput.nValue).sum <
        nTargetValue) := by
  rw [selectCoinsMinConf]
  generalize hsorted : ((draws.shuffle attempt vCoins).mergeSort fun out1 out2 =>
    !lessThenDenom out2 out1) = order
  have hperm : order.Perm vCoins :=
    hsorted ▸ (List.mergeSort_perm _ _).trans (draws.shuffle_perm attempt vCoins)
  have hfilter := hperm.filter (pw.eligible R nConfMine nConfTheirs)
  have hdebit' : ∀ out ∈ order, (out.tx.isFromMe R pw ISMINE_ALL).isSome = true :=
    fun out hout => hdebit out (hperm.mem_iff.mp hout)
  have hmax' : ∀ out ∈ order, out.nValue < 2 ^ 63 - 1 :=
    fun out hout => hmax out (hperm.mem_iff.mp hout)
  have hlook (tryDenom : Nat) : (order.filter (pw.considered R nConfMine nConfTheirs
      tryDenom)).Sublist (order.filter (pw.eligible R nConfMine nConfTheirs)) :=
    List.monotone_filter_right order fun out hout => ((Bool.and_eq_true _ _).mp hout).1
  have hsecond : pw.considered R nConfMine nConfTheirs 1 = pw.eligible R nConfMine nConfTheirs := by
    funext out
    rw [considered, decide_eq_false Nat.one_ne_zero, Bool.false_and, Bool.not_false, Bool.and_true]
  rcases tryCoins_answer 0 draws attempt hdebit' hmax' with
    ⟨coins, htry, hsub⟩ | ⟨htry, -⟩
  · rw [htry]
    exact Or.inl ⟨coins, rfl, hsub.trans ((hlook 0).subperm.trans hfilter.subperm)⟩
  rw [htry]
  rcases tryCoins_answer 1 draws attempt hdebit' hmax' with
    ⟨coins, htry, hsub⟩ | ⟨htry, hless⟩
  · exact Or.inl ⟨coins, htry, hsub.trans ((hlook 1).subperm.trans hfilter.subperm)⟩
  · rw [hsecond, (hfilter.map COutput.nValue).sum_eq] at hless
    exact Or.inr ⟨htry, hless⟩

/--
**Coin selection is sound and complete.** `SelectCoinsMinConf` answers yes exactly if the eligible
coins are worth the target. Then the set is of eligible coins, the value that is returned is
theirs, and it reaches the target.
-/
theorem selectCoinsMinConf_complete (draws : SelectDraws) (attempt : Nat)
    (hdistinct : (vCoins.map COutput.prevout).Nodup) (hpos : ∀ out ∈ vCoins, 0 < out.nValue)
    (hmoney : (vCoins.map COutput.nValue).sum ≤ R.params.nMaxMoneyOut)
    (hdebit : ∀ out ∈ vCoins, (out.tx.isFromMe R pw ISMINE_ALL).isSome = true) :
    ∃ fRet ret, pw.selectCoinsMinConfRet R draws attempt nTargetValue nConfMine nConfTheirs
        vCoins = some (fRet, ret) ∧
      (fRet = true ↔ nTargetValue ≤
        ((vCoins.filter (pw.eligible R nConfMine nConfTheirs)).map COutput.nValue).sum) ∧
      (fRet = true → ret.setCoinsRet ⊆ vCoins.filter (pw.eligible R nConfMine nConfTheirs) ∧
        (ret.setCoinsRet.map COutput.prevout).Nodup ∧
        ret.nValueRet = (ret.setCoinsRet.map COutput.nValue).sum ∧
        nTargetValue ≤ ret.nValueRet) := by
  have hmax : ∀ out ∈ vCoins, out.nValue < 2 ^ 63 - 1 := by
    intro out hout
    have hle : out.nValue ≤ (vCoins.map COutput.nValue).sum := List.single_le_sum (fun n hn => by
        obtain ⟨x, hx, rfl⟩ := List.mem_map.mp hn
        exact (hpos x hx).le) _ (List.mem_map_of_mem hout)
    have hrange := R.params.nMaxMoneyOut_range.2
    rw [COIN] at hrange
    omega
  rcases selectCoinsMinConf_answer draws attempt hdebit hmax with
    ⟨coins, hselect, hsub⟩ | ⟨hselect, hless⟩
  · have hreach := selectCoinsMinConf_reaches hselect
    obtain ⟨l, hl, hsubl⟩ := hsub
    have hnodup : (coins.map COutput.prevout).Nodup := by
      have hdistinct' := (hdistinct.sublist (List.filter_sublist.map _)).sublist
        (hsubl.map COutput.prevout)
      exact (hl.map COutput.prevout).nodup_iff.mp hdistinct'
    have hsum : (coins.map COutput.nValue).sum ≤
        ((vCoins.filter (pw.eligible R nConfMine nConfTheirs)).map COutput.nValue).sum := by
      rw [← (hl.map COutput.nValue).sum_eq]
      refine (hsubl.map COutput.nValue).sum_le_sum fun n hn => ?_
      obtain ⟨x, hx, rfl⟩ := List.mem_map.mp hn
      exact (hpos x (List.mem_of_mem_filter hx)).le
    have hret := CoinsRet.insert_all coins {} hnodup
    rw [List.nil_append, Int.zero_add] at hret
    refine ⟨true, coins.foldl CoinsRet.insert {}, ?_, iff_of_true rfl (hreach.trans hsum), ?_⟩
    · rw [selectCoinsMinConfRet, hselect]
    · intro _
      rw [hret]
      exact ⟨fun out hout => hsubl.subset (hl.symm.subset hout), hnodup, rfl, hreach⟩
  · refine ⟨false, {}, ?_, iff_of_false Bool.false_ne_true (by omega), fun h => ?_⟩
    · rw [selectCoinsMinConfRet, hselect]
    · cases h

/-- A transaction of someone else's with outputs of 25, 40, 500 and 70. -/
def receivedTx : CWalletTx where
  tx := { hash := 6, vin := [⟨⟨9, 1⟩, [], 0⟩], vout := [⟨25, [0x51], -10⟩, ⟨40, [0x51], -10⟩,
    ⟨500, [0x51], -10⟩, ⟨70, [0x51], -10⟩] }

/-- Three coins, one that may not be spent, and one that is not deep enough. -/
def severalCoins : List COutput := [⟨stakeTx, 1, 16, true⟩, ⟨receivedTx, 0, 16, true⟩,
  ⟨receivedTx, 1, 16, true⟩, ⟨receivedTx, 2, 16, false⟩, ⟨receivedTx, 3, 2, true⟩]

def reversed : SelectDraws where
  shuffle _ vCoins := vCoins.reverse
  shuffle_perm _ vCoins := vCoins.reverse_perm
  insecureRand _ _ nRep i := decide ((nRep + i) % 2 = 0)

/-- The three pay 150, and they do not pay 170. -/
theorem selectCoinsMinConf_complete_several :
    (∃ ret, stakeWallet.selectCoinsMinConfRet plainRules reversed 0 150 1 6 severalCoins =
        some (true, ret) ∧ ret.setCoinsRet ⊆ severalCoins.take 3 ∧ 150 ≤ ret.nValueRet) ∧
      ∃ ret, stakeWallet.selectCoinsMinConfRet plainRules reversed 0 170 1 6 severalCoins =
        some (false, ret) := by
  have heligible : severalCoins.filter (stakeWallet.eligible plainRules 1 6) =
      severalCoins.take 3 := by rfl
  constructor
  · obtain ⟨fRet, ret, hselect, hiff, hret⟩ := @selectCoinsMinConf_complete Unit plainRules
      stakeWallet 150 1 6 severalCoins reversed 0 (by decide) (by decide) (by decide) (by decide)
    rw [heligible] at hiff hret
    obtain rfl := hiff.mpr (by decide)
    exact ⟨ret, hselect, (hret rfl).1, (hret rfl).2.2.2⟩
  · obtain ⟨fRet, ret, hselect, hiff, -⟩ := @selectCoinsMinConf_complete Unit plainRules
      stakeWallet 170 1 6 severalCoins reversed 0 (by decide) (by decide) (by decide) (by decide)
    rw [heligible] at hiff
    cases fRet with
    | true => exact absurd (hiff.mp rfl) (by decide)
    | false => exact ⟨ret, hselect⟩

end CWallet

end BitBlocks
