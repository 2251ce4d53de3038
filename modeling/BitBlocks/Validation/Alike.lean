import BitBlocks.Coins.Replay
import BitBlocks.Validation.Connected

/-!
# Validation reads coins, not entries

Two views with the same coins may differ in how they store an entry without any: as
pruned, or not at all. `ConnectBlock` does not tell them apart, because it asks whether
the outputs are there before it reads anything else. What it makes of the two views is
alike again.
-/

namespace BitBlocks

open Checks CCoinsView

/-- Two well-formed views with the same coins. -/
structure Alike (w v : CCoinsView) : Prop where
  left : w.WF
  right : v.WF
  same : Same w v

variable {w v : CCoinsView} {P : CChainParams} {R : Rules} {c : LoopContext} {st : LoopState}
  {tx : CTransaction} {prev prev' : CBlockIndex} {pprev pprev' : List CBlockIndex} {block : CBlock}
  {env : LocalState} {tip : TipView} {res : Connected}

theorem Alike.symm (h : Alike w v) : Alike v w := ⟨h.right, h.left, h.same.symm⟩

theorem Alike.sim (h : Alike w v) : Sim (fun _ => false) w v :=
  ⟨h.left, h.right, fun k => by rw [h.same k, CCoins.forget_eq_self (by simp)]⟩

/-- A view that lost nothing of consequence has the same coins. -/
theorem Sim.alike {lost : Uint256 → Bool} (h : Sim lost w v) (hh : Harmless lost v) :
    Alike w v := ⟨h.left, h.right, h.same_iff.mpr hh⟩

theorem Alike.isPruned (h : Alike w v) (k : Uint256) :
    (w.get k).isPruned = (v.get k).isPruned := h.sim.isPruned k

theorem Alike.haveInput (h : Alike w v) (o : COutPoint) : w.haveInput o = v.haveInput o := by
  rw [Bool.eq_iff_iff, h.left.haveInput_iff, h.right.haveInput_iff, h.same]

theorem Alike.haveInputs (h : Alike w v) (tx : CTransaction) :
    w.haveInputs tx = v.haveInputs tx := by
  simp only [CCoinsView.haveInputs, h.haveInput]

theorem Alike.getOutputFor (h : Alike w v) (txin : CTxIn) :
    w.getOutputFor txin = v.getOutputFor txin := by
  rw [CCoinsView.getOutputFor, CCoinsView.getOutputFor, ← h.left.out_entry, h.same,
    h.right.out_entry]

theorem Alike.getValueIn (h : Alike w v) (tx : CTransaction) :
    w.getValueIn tx = v.getValueIn tx := by
  simp only [CCoinsView.getValueIn, h.getOutputFor]

theorem Alike.get (h : Alike w v) {o : COutPoint} (ho : v.haveInput o = true) :
    w.get o.hash = v.get o.hash := by
  have hv := CCoins.not_isPruned_iff.mpr ⟨o.n, ho⟩
  have hw := hv
  rw [← h.isPruned] at hw
  rw [← entry_of_not_isPruned hw, ← entry_of_not_isPruned hv, h.same]

/-! ## `CheckInputs` -/

theorem checkInputCoins_alike (h : Alike w v) {nSpendHeight : Int} :
    ∀ {vin : List CTxIn} {nValueIn : Int},
    (∀ txin ∈ vin, v.haveInput txin.prevout = true) →
    checkInputCoins P w nSpendHeight nValueIn vin = checkInputCoins P v nSpendHeight nValueIn vin
  | [], _, _ => rfl
  | txin :: vin, nValueIn, hv => by
    rw [checkInputCoins, checkInputCoins, h.get (hv txin (by simp))]
    refine bind_congr_ok fun _ _ => bind_congr_ok fun _ _ => ?_
    exact checkInputCoins_alike h fun t ht => hv t (by simp [ht])

theorem checkInputs_alike (h : Alike w v) (tx : CTransaction) (nSpendHeight : Int)
    (fScriptChecks : Bool) (flags : ScriptFlags) :
    checkInputs R P tx w nSpendHeight fScriptChecks flags
      = checkInputs R P tx v nSpendHeight fScriptChecks flags := by
  unfold checkInputs
  by_cases hcb : tx.isCoinBase = true
  · rw [if_pos hcb, if_pos hcb]
  · rw [if_neg hcb, if_neg hcb, h.haveInputs]
    refine bind_congr_ok fun _ hhave => ?_
    have hin : ∀ txin ∈ tx.vin, v.haveInput txin.prevout = true := by
      rw [failIf_eq_ok, Bool.not_eq_false', CCoinsView.haveInputs, Bool.or_eq_true] at hhave
      exact List.all_eq_true.mp (hhave.resolve_left hcb)
    rw [checkInputCoins_alike h hin]
    refine bind_congr_ok fun _ _ => bind_congr_ok fun _ _ => ?_
    simp only [checkScript, h.getOutputFor]

/-! ## The loop -/

theorem connectInputs_alike (h : Alike st.view v) (tx : CTransaction) (nSigOps : Nat) :
    connectInputs R P c st tx nSigOps = connectInputs R P c { st with view := v } tx nSigOps := by
  have hout : st.view.getOutputFor = v.getOutputFor := funext h.getOutputFor
  simp only [connectInputs, addFees, h.haveInputs, hout, h.getValueIn, checkInputs_alike h]

theorem Alike.updateCoins {w' : CCoinsView} {nHeight : Int} {us : List CTxInUndo} (h : Alike w v)
    (htx : tx.OutputsNonneg) (hu : BitBlocks.updateCoins tx w nHeight = some (w', us)) :
    ∃ v', BitBlocks.updateCoins tx v nHeight = some (v', us) ∧ Alike w' v' := by
  obtain ⟨v', us', lost', hv', hsim, _, hex⟩ := h.sim.updateCoins htx hu
  obtain ⟨rfl, hh⟩ := hex fun k hk => absurd hk (by simp)
  exact ⟨v', hv', hsim.alike hh⟩

/-- **One round of the loop on two views that are alike.** -/
theorem connectTx_alike {st' : LoopState} (h : Alike st.view v) (htx : tx.OutputsNonneg)
    (hc : connectTx R P c st tx = .ok st') :
    ∃ v', connectTx R P c { st with view := v } tx = .ok { st' with view := v' } ∧
      Alike st'.view v' := by
  unfold connectTx at hc ⊢
  rw [connectInputs_alike h] at hc
  simp only [bind_eq_ok, exists_unit] at hc ⊢
  obtain ⟨hsig, r, hr, nValueOut, hout, hc⟩ := hc
  cases hu : BitBlocks.updateCoins tx st.view c.nHeight with
  | none => rw [hu] at hc; simp at hc
  | some p =>
    obtain ⟨w', us⟩ := p
    rw [hu, Except.ok.injEq] at hc
    subst hc
    obtain ⟨v', hv', halike⟩ := h.updateCoins htx hu
    refine ⟨v', ⟨hsig, r, hr, nValueOut, hout, ?_⟩, halike⟩
    rw [hv']

theorem connectAll_alike :
    ∀ {vtx : List CTransaction} {st st' : LoopState} {v : CCoinsView}, Alike st.view v →
    (∀ tx ∈ vtx, tx.OutputsNonneg) → connectAll R P c st vtx = .ok st' →
    ∃ v', connectAll R P c { st with view := v } vtx = .ok { st' with view := v' } ∧
      Alike st'.view v'
  | [], st, st', v, h, _, hc => by
    rw [connectAll, Except.ok.injEq] at hc
    subst hc
    exact ⟨v, rfl, h⟩
  | tx :: vtx, st, st', v, h, htx, hc => by
    obtain ⟨st1, h1, hrec⟩ := bind_eq_ok.mp hc
    obtain ⟨v1, hv1, halike⟩ := connectTx_alike h (htx tx (by simp)) h1
    obtain ⟨v', hv', h'⟩ := connectAll_alike halike (fun t ht => htx t (by simp [ht])) hrec
    exact ⟨v', bind_eq_ok.mpr ⟨_, hv1, hv'⟩, h'⟩

/-! ## The block -/

/-- An index entry without the totals that `ConnectBlock` writes into it. -/
def CBlockIndex.bare (e : CBlockIndex) : CBlockIndex := { e with nMint := 0, nMoneySupply := 0 }

theorem isSuperMajority_bare (P : CChainParams) (minVersion : Int) (pstart : List CBlockIndex)
    (nRequired : Nat) :
    isSuperMajority P minVersion (pstart.map CBlockIndex.bare) nRequired
      = isSuperMajority P minVersion pstart nRequired := by
  unfold isSuperMajority
  rw [← List.map_take, List.filter_map, List.length_map]
  rfl

theorem loopContext_congr (hh : prev.nHeight = prev'.nHeight)
    (hp : pprev.map CBlockIndex.bare = pprev'.map CBlockIndex.bare) :
    loopContext P prev pprev block = loopContext P prev' pprev' block := by
  unfold loopContext
  rw [hh, ← isSuperMajority_bare P 3 pprev, hp, isSuperMajority_bare]

theorem mint_eq (supply x y : Int) :
    Wrap.wrap64 (Wrap.wrap64 (Wrap.wrap64 (supply + x) - y) - supply) = Wrap.wrap64 (x - y) := by
  rw [Wrap.wrap64_sub_left, show Wrap.wrap64 (supply + x) - y - supply
    = Wrap.wrap64 (supply + x) - (y + supply) by omega, Wrap.wrap64_sub_left]
  congr 1
  omega

theorem connectBody_alike (h : Alike w v) (hh : prev.nHeight = prev'.nHeight)
    (hp : pprev.map CBlockIndex.bare = pprev'.map CBlockIndex.bare)
    (htxs : ∀ tx ∈ block.vtx, tx.OutputsNonneg)
    (hc : connectBody R P env tip prev pprev block w = .ok res) :
    ∃ res', connectBody R P env tip prev' pprev' block v = .ok res' := by
  unfold connectBody at hc ⊢
  rw [loopContext_congr hh hp] at hc
  simp only [bind_eq_ok, exists_unit] at hc ⊢
  obtain ⟨hpow, hpos, hbip, st, hall, hval, -⟩ := hc
  obtain ⟨v', hv', -⟩ := connectAll_alike h htxs hall
  have hbip' : checkBIP30 v block (loopContext P prev' pprev' block).nHeight
      (R.getHash block.toCBlockHeader) = .ok () := by
    unfold checkBIP30 at hbip ⊢
    simpa only [h.isPruned] using hbip
  rw [mint_eq, hh] at hval
  refine ⟨_, hpow, hpos, hbip', _, hv', ?_, rfl⟩
  rw [mint_eq]
  exact hval

/--
**`ConnectBlock` accepts the same blocks** on views that are alike, whatever totals the
entries of the branch have.
-/
theorem connectBlock_alike (h : Alike w v)
    (hp : pprev.map CBlockIndex.bare = pprev'.map CBlockIndex.bare)
    (hc : connectBlock R P env tip pprev block w = .ok res) :
    ∃ res', connectBlock R P env tip pprev' block v = .ok res' := by
  unfold connectBlock at hc ⊢
  obtain ⟨u, hcheck, hbody⟩ := bind_eq_ok.mp hc
  have htxs := (checkBlock_ok hcheck).txs
  refine Exists.imp (fun _ hres => bind_eq_ok.mpr ⟨u, hcheck, hres⟩) ?_
  by_cases hg : R.getHash block.toCBlockHeader = P.hashGenesisBlock
  · rw [if_pos hg]
    exact ⟨_, rfl⟩
  · rw [if_neg hg] at hbody ⊢
    cases pprev with
    | nil => simp at hbody
    | cons prev rest =>
      cases pprev' with
      | nil => simp at hp
      | cons prev' rest' =>
        have hbare : prev.bare = prev'.bare := (List.cons.inj hp).1
        have hh : prev.nHeight = prev'.nHeight := by
          simpa only [CBlockIndex.bare] using congrArg CBlockIndex.nHeight hbare
        have hnonneg : ∀ tx ∈ block.vtx, tx.OutputsNonneg := fun tx htx => (htxs tx htx).nonneg
        dsimp only at hbody ⊢
        exact connectBody_alike h hh hp hnonneg hbody

end BitBlocks
