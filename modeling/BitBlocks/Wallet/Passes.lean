import BitBlocks.Wallet.Create

/-!
# What a pass makes

What a transaction has when a pass ends with it: the outputs to the payees and one of change at
most, inputs that are signed, coins that are worth the amounts and the fee, and what is left
over of them. And the passes end, since each one that fails for its fee asks for more, and no
more than the wallet may pay.
-/

namespace BitBlocks

/-! ## Outputs to the payees -/

def copies (coinControl : Option SendControl) : Nat :=
  match coinControl with
  | none => 1
  | some cc => if cc.fSplitBlock then cc.nSplitBlock.toNat else 1

/-- What an output pays at least when it is one of `n`. -/
def share (s : CScript × Int) (n : Nat) : CTxOut := ⟨s.2 / n, s.1, -10⟩

section Split

variable {s : CScript × Int} {n : Nat}

theorem splitOutputs_toNat (nSplitBlock : Int) (s : CScript × Int) :
    splitOutputs nSplitBlock s = splitOutputs nSplitBlock.toNat s := by
  rcases Int.le_total 0 nSplitBlock with h | h
  · rw [Int.toNat_of_nonneg h]
  · have hzero : nSplitBlock.toNat = 0 := Int.toNat_of_nonpos h
    rw [splitOutputs, splitOutputs, hzero]
    rfl

theorem splitOutputs_succ (s : CScript × Int) (n : Nat) : splitOutputs (n + 1 : Nat) s =
      List.replicate n ⟨s.2.tdiv (n + 1 : Nat), s.1, -10⟩ ++
        [⟨s.2.tdiv (n + 1 : Nat) + s.2.tmod (n + 1 : Nat), s.1, -10⟩] := by
  have hlast : ((n : Nat) : Int) = ((n + 1 : Nat) : Int) - 1 := by omega
  rw [splitOutputs, Int.toNat_natCast, List.range_succ, List.map_append, List.map_singleton,
    if_pos hlast]
  congr 1
  refine List.eq_replicate_iff.mpr ⟨by rw [List.length_map, List.length_range], fun o ho => ?_⟩
  obtain ⟨i, hi, rfl⟩ := List.mem_map.mp ho
  have hlt := List.mem_range.mp hi
  exact if_neg (by omega)

theorem length_splitOutputs (s : CScript × Int) (n : Nat) : (splitOutputs n s).length = n := by
  rw [splitOutputs, List.length_map, List.length_range, Int.toNat_natCast]

theorem script_of_mem_splitOutputs {nSplitBlock : Int} {txout : CTxOut}
    (h : txout ∈ splitOutputs nSplitBlock s) : txout.scriptPubKey = s.1 := by
  obtain ⟨i, -, rfl⟩ := List.mem_map.mp h
  split <;> rfl

theorem sum_splitOutputs (s : CScript × Int) (n : Nat) :
    ((splitOutputs n s).map CTxOut.nValue).sum = if n = 0 then 0 else s.2 := by
  cases n with
  | zero => rfl
  | succ n =>
    have hdiv := Int.tmod_add_mul_tdiv s.2 ((n + 1 : Nat) : Int)
    rw [splitOutputs_succ, List.map_append, List.sum_append, List.map_replicate,
      List.sum_replicate, List.map_singleton, List.sum_singleton, if_neg (by omega), nsmul_eq_mul]
    dsimp only
    push_cast at hdiv ⊢
    linarith

theorem le_of_mem_splitOutputs {txout : CTxOut} (hs : 0 ≤ s.2) (h : txout ∈ splitOutputs n s) :
    (share s n).nValue ≤ txout.nValue := by
  cases n with
  | zero => exact absurd h List.not_mem_nil
  | succ n =>
    have hdiv : s.2.tdiv ((n + 1 : Nat) : Int) = s.2 / ((n + 1 : Nat) : Int) :=
      Int.tdiv_eq_ediv_of_nonneg hs
    have hmod : s.2.tmod ((n + 1 : Nat) : Int) = s.2 % ((n + 1 : Nat) : Int) :=
      Int.tmod_eq_emod_of_nonneg hs
    have hnonneg := Int.emod_nonneg s.2 (b := ((n + 1 : Nat) : Int)) (by omega)
    rw [splitOutputs_succ] at h
    rcases List.mem_append.mp h with h | h
    · rw [List.eq_of_mem_replicate h, share, hdiv]
    · rw [List.mem_singleton.mp h, share, hdiv, hmod]
      dsimp only
      omega

theorem share_mem_splitOutputs (hs : 0 ≤ s.2) (hn : 0 < n) : share s n ∈ splitOutputs n s := by
  cases n with
  | zero => exact absurd hn (Nat.lt_irrefl 0)
  | succ n =>
    have hdiv : s.2.tdiv ((n + 1 : Nat) : Int) = s.2 / ((n + 1 : Nat) : Int) :=
      Int.tdiv_eq_ediv_of_nonneg hs
    rw [splitOutputs_succ, share, hdiv]
    cases n with
    | zero =>
      have hone : s.2.tmod ((0 + 1 : Nat) : Int) = 0 := by
        rw [Int.tmod_eq_emod_of_nonneg hs]
        omega
      rw [hone, Int.add_zero]
      exact List.mem_append_right _ List.mem_cons_self
    | succ n =>
      exact List.mem_append_left _ (List.mem_replicate.mpr ⟨by omega, rfl⟩)

end Split

variable {minRelayTxFee : CFeeRate} {coinControl : Option SendControl} {vout : List CTxOut}
  {script : CScript} {tx tx' : CTransaction}

theorem payeeOutputs_ok {vecSend : List (CScript × Int)}
    (h : payeeOutputs minRelayTxFee coinControl vecSend = .ok vout) :
    vout = vecSend.flatMap (splitOutputs (copies coinControl)) := by
  have hone : ∀ s : CScript × Int, splitOutputs (1 : Nat) s = [⟨s.2, s.1, -10⟩] := by
    intro s
    rw [splitOutputs_succ s 0]
    show [(⟨s.2.tdiv 1 + s.2.tmod 1, s.1, -10⟩ : CTxOut)] = _
    rw [Int.tdiv_one, Int.tmod_one, Int.add_zero]
  unfold payeeOutputs at h
  dsimp only at h
  split at h
  · exact (Except.ok.inj h).symm
  rename_i cc
  split at h
  · rename_i hsplit
    rw [copies, if_pos hsplit, ← Except.ok.inj h]
    congr 1
    exact funext (splitOutputs_toNat cc.nSplitBlock)
  · rename_i hsplit
    split at h
    · exact absurd h (by simp)
    · rw [copies, if_neg hsplit, ← Except.ok.inj h, List.map_eq_flatMap]
      congr 1
      exact funext fun s => (hone s).symm

theorem sum_payees (n : Nat) (vecSend : List (CScript × Int)) :
    ((vecSend.flatMap (splitOutputs n)).map CTxOut.nValue).sum =
      if n = 0 then 0 else (vecSend.map Prod.snd).sum := by
  induction vecSend with
  | nil => simp
  | cons s vecSend ih =>
    rw [List.flatMap_cons, List.map_append, List.sum_append, ih, sum_splitOutputs, List.map_cons,
      List.sum_cons]
    split <;> omega

theorem countP_payees (n : Nat) (vecSend : List (CScript × Int)) (p : CScript → Bool) :
    (vecSend.flatMap (splitOutputs n)).countP (fun txout => p txout.scriptPubKey) =
      n * vecSend.countP fun s => p s.1 := by
  induction vecSend with
  | nil => simp
  | cons s vecSend ih =>
    have hpieces : (splitOutputs n s).countP (fun txout => p txout.scriptPubKey) =
        if p s.1 then n else 0 := by
      have hsame : (splitOutputs n s).countP (fun txout => p txout.scriptPubKey) =
          (splitOutputs n s).countP fun _ => p s.1 :=
        List.countP_congr fun txout h => by rw [script_of_mem_splitOutputs h]
      rw [hsame]
      cases p s.1 with
      | true => rw [List.countP_true, length_splitOutputs, if_pos rfl]
      | false =>
        rw [List.countP_false, if_neg (by decide)]
        rfl
    rw [List.flatMap_cons, List.countP_append, ih, hpieces, List.countP_cons, Nat.mul_add]
    split <;> omega

theorem bytes_payees (n : Nat) (vecSend : List (CScript × Int)) :
    ((vecSend.flatMap (splitOutputs n)).map fun txout => txout.bytes.length).sum =
      n * (vecSend.map fun s => (share s n).bytes.length).sum := by
  induction vecSend with
  | nil => simp
  | cons s vecSend ih =>
    have hsame : (splitOutputs n s).map (fun txout => txout.bytes.length) =
        (splitOutputs n s).map fun _ => (share s n).bytes.length :=
      List.map_congr_left fun txout hmem => by
        rw [CTxOut.length_bytes, CTxOut.length_bytes, script_of_mem_splitOutputs hmem, share]
    rw [List.flatMap_cons, List.map_append, List.sum_append, ih, hsame, List.map_const',
      List.sum_replicate, length_splitOutputs, smul_eq_mul, List.map_cons, List.sum_cons,
      Nat.mul_add]

/-! ## Change -/

/-- What change to this destination is dust below. -/
def changeLimit (minRelayTxFee : CFeeRate) (coinControl : Option SendControl) : Int :=
  match coinControl with
  | some { destChange := .scriptID scriptID, .. } =>
    minRelayTxFee.dustLimit (scriptForDestination (.scriptID scriptID))
  | _ => minRelayTxFee.dustLimit (scriptForDestination (.keyID (toUint160 [])))

theorem dustLimit_congr {script' : CScript} (h : script.length = script'.length) :
    minRelayTxFee.dustLimit script = minRelayTxFee.dustLimit script' := by
  simp only [CFeeRate.dustLimit, CTxOut.length_bytes, CScript.bytes, List.length_append, h]

theorem dustLimit_keyID (minRelayTxFee : CFeeRate) (keyID keyID' : Uint160) :
    minRelayTxFee.dustLimit (scriptForDestination (.keyID keyID)) =
      minRelayTxFee.dustLimit (scriptForDestination (.keyID keyID')) :=
  dustLimit_congr (by
    rw [CScript.length_scriptForDestination_keyID, CScript.length_scriptForDestination_keyID])

theorem changeScript_some {reservedKey : Option Uint160}
    (h : changeScript coinControl reservedKey = some script) (L : RelayPolicy) :
    (L.isStandard script = some .pubkeyhash ∨ L.isStandard script = some .scripthash) ∧
      ∀ minRelayTxFee : CFeeRate, minRelayTxFee.dustLimit script =
        changeLimit minRelayTxFee coinControl := by
  unfold changeScript at h
  unfold changeLimit
  split at h
  · obtain rfl := Option.some.inj h
    exact ⟨.inl (CScript.isStandard_keyID _ _ _), fun fee => dustLimit_keyID fee _ _⟩
  · obtain rfl := Option.some.inj h
    exact ⟨.inr (CScript.isStandard_scriptID _ _ _), fun fee => rfl⟩
  · rename_i hkey hscript
    obtain ⟨keyID, -, rfl⟩ := Option.map_eq_some_iff.mp h
    refine ⟨.inl (CScript.isStandard_keyID _ _ _), fun fee => ?_⟩
    split
    · exact (hscript _ _ _ _ _ _ rfl).elim
    · exact dustLimit_keyID fee _ _

/-- The change that is added: none, or one output that is worth spending. -/
inductive ChangeAdded (L : RelayPolicy) (coinControl : Option SendControl) (vout : List CTxOut)
    (nFeeRet nChange : Int) : List CTxOut → Int → Prop where
  | none (h : nChange ≤ 0) : ChangeAdded L coinControl vout nFeeRet nChange vout nFeeRet
  | dust (hpos : 0 < nChange) (h : nChange < changeLimit L.minRelayTxFee coinControl) :
      ChangeAdded L coinControl vout nFeeRet nChange vout (nFeeRet + nChange)
  | output {txout : CTxOut} {vout' : List CTxOut} (hvalue : txout.nValue = nChange)
      (hdust : txout.isDust L.minRelayTxFee = false)
      (htype : L.isStandard txout.scriptPubKey = some .pubkeyhash ∨
        L.isStandard txout.scriptPubKey = some .scripthash)
      (hperm : vout'.Perm (txout :: vout)) :
      ChangeAdded L coinControl vout nFeeRet nChange vout' nFeeRet

theorem addChange_added {L : RelayPolicy} {draws : PassDraws} {vout' : List CTxOut}
    {nFeeRet nFeeRet' nChange : Int}
    (h : addChange L.minRelayTxFee coinControl draws vout nFeeRet nChange =
      some (vout', nFeeRet')) :
    ChangeAdded L coinControl vout nFeeRet nChange vout' nFeeRet' := by
  unfold addChange at h
  split at h
  swap
  · obtain ⟨rfl, rfl⟩ := Prod.mk.inj (Option.some.inj h)
    exact .none (by omega)
  rename_i hpos
  split at h
  · exact absurd h (by simp)
  rename_i script hscript
  obtain ⟨htype, hlimit⟩ := changeScript_some hscript L
  dsimp only at h
  split at h
  · rename_i hdust
    obtain ⟨rfl, rfl⟩ := Prod.mk.inj (Option.some.inj h)
    have hlow := CTxOut.isDust_iff.mp hdust
    dsimp only at hlow
    rw [hlimit] at hlow
    exact .dust hpos hlow
  · rename_i hdust
    obtain ⟨rfl, rfl⟩ := Prod.mk.inj (Option.some.inj h)
    have hindex : draws.rand % (vout.length + 1) ≤ vout.length :=
      Nat.lt_succ_iff.mp (Nat.mod_lt draws.rand (Nat.succ_pos vout.length))
    exact .output rfl (by simpa using hdust) htype (List.perm_insertIdx _ _ hindex)

/-! ## Signatures -/

/-- What signing leaves alone, and what it makes of the inputs. -/
structure SignedFrom (tx tx' : CTransaction) : Prop where
  rest : tx'.nVersion = tx.nVersion ∧ tx'.vout = tx.vout ∧ tx'.nLockTime = tx.nLockTime
  prevouts : tx'.vin.map CTxIn.prevout = tx.vin.map CTxIn.prevout
  inputs : ∀ txin ∈ tx'.vin, txin ∈ tx.vin ∨
    (txin.scriptSig.length ≤ 1650 ∧ txin.scriptSig.isPushOnly = true)

theorem SignedFrom.trans {tx'' : CTransaction} (h : SignedFrom tx tx') (h' : SignedFrom tx' tx'') :
    SignedFrom tx tx'' where
  rest := ⟨h'.rest.1.trans h.rest.1, h'.rest.2.1.trans h.rest.2.1, h'.rest.2.2.trans h.rest.2.2⟩
  prevouts := h'.prevouts.trans h.prevouts
  inputs txin htxin := by
    rcases h'.inputs txin htxin with hold | hnew
    · exact h.inputs txin hold
    · exact .inr hnew

theorem mem_of_mem_modify {α : Type} {f : α → α} {l : List α} {i : Nat} {a : α}
    (h : a ∈ l.modify i f) : a ∈ l ∨ ∃ b ∈ l, a = f b := by
  obtain ⟨j, hj, rfl⟩ := List.mem_iff_getElem.mp h
  rw [List.getElem_modify]
  rw [List.length_modify] at hj
  split
  · exact .inr ⟨l[j], List.getElem_mem hj, rfl⟩
  · exact .inl (List.getElem_mem hj)

theorem signSignature_signed {Key : Type} {G : Signer Key} {keystore : CKeyStore Key}
    {fromPubKey : CScript} {nIn : Nat} {nHashType : UInt8}
    (h : G.signSignature keystore fromPubKey tx nIn nHashType = some tx') : SignedFrom tx tx' := by
  unfold Signer.signSignature at h
  split at h
  · exact absurd h (by simp)
  rename_i scriptSig hproduce
  obtain ⟨hpush, hlen⟩ := Signer.produce_standard hproduce
  dsimp only at h
  split at h
  swap
  · exact absurd h (by simp)
  obtain rfl := Option.some.inj h
  refine ⟨⟨rfl, rfl, rfl⟩, ?_, fun txin htxin => ?_⟩
  · refine List.ext_getElem (by simp) fun i hi hi' => ?_
    simp only [List.getElem_map, List.getElem_modify]
    split <;> rfl
  · rcases mem_of_mem_modify htxin with hold | ⟨txin', -, rfl⟩
    · exact .inl hold
    · exact .inr ⟨hlen, hpush⟩

namespace CWallet

variable {K Key : Type} {S : SendRules K Key} {node : NodeView} {pw : CWallet K}

theorem signCoins_signed : ∀ (setCoins : List COutput) {nIn : Nat} {tx tx' : CTransaction},
    pw.signCoins S setCoins nIn tx = some tx' → SignedFrom tx tx' := by
  intro setCoins
  induction setCoins with
  | nil =>
    intro nIn tx tx' h
    obtain rfl := Option.some.inj h
    exact ⟨⟨rfl, rfl, rfl⟩, rfl, fun txin htxin => .inl htxin⟩
  | cons coin setCoins ih =>
    intro nIn tx tx' h
    rw [signCoins] at h
    split at h
    · exact absurd h (by simp)
    · rename_i txNew hsign
      exact (signSignature_signed hsign).trans (ih h)

/-! ## A pass -/

variable {vecSend : List (CScript × Int)} {nValue : Int} {coinControl : Option SendControl}
  {coin_type : AvailableCoinsType} {useIX : Bool} {nFeePay nFeeRet : Int} {draws : PassDraws}

/-- The change of a pass; denominated coins have none, and what is left over is paid. -/
def PassChange (L : RelayPolicy) (coinControl : Option SendControl)
    (coin_type : AvailableCoinsType) (vout : List CTxOut) (nFeeRet nChange : Int)
    (vout' : List CTxOut) (nFeeRet' : Int) : Prop :=
  if coin_type = .onlyDenominated then vout' = vout ∧ nFeeRet' = nFeeRet + nChange
  else ChangeAdded L coinControl vout nFeeRet nChange vout' nFeeRet'

/-- What a transaction is made of when a pass comes to its size. -/
structure Made (S : SendRules K Key) (node : NodeView) (pw : CWallet K)
    (vecSend : List (CScript × Int)) (nValue : Int) (coinControl : Option SendControl)
    (coin_type : AvailableCoinsType) (useIX : Bool) (nFeeRet : Int) (r : Created) : Prop where
  funds : ∃ vCoins setCoins nValueIn,
    pw.availableCoins S.toWalletRules node true (coinControl.map SendControl.toCCoinControl) false
        coin_type useIX = some vCoins ∧
      Selected S.rounds S.nObfuscationRounds (nValue + nFeeRet)
        (coinControl.map SendControl.toCCoinControl) coin_type vCoins setCoins nValueIn ∧
      r.coins.Perm setCoins ∧
      PassChange S.policy coinControl coin_type
      (vecSend.flatMap (splitOutputs (copies coinControl)))
        nFeeRet (nValueIn - nValue - nFeeRet) r.tx.vout r.nFeeRet
  plain : r.tx.nVersion = 1 ∧ r.tx.nLockTime = 0
  spends : r.tx.vin.map CTxIn.prevout = r.coins.map COutput.prevout
  inputs : ∀ txin ∈ r.tx.vin, txin.scriptSig.length ≤ 1650 ∧ txin.scriptSig.isPushOnly = true
  size : r.tx.size < MAX_STANDARD_TX_SIZE

/-- **How a pass ends**: with the transaction it made, or with more fee than that one's. -/
theorem createPass_cases
    (h : ∀ strFailReason, pw.createPass S node vecSend nValue coinControl coin_type useIX nFeePay
      draws nFeeRet ≠ .failed strFailReason)
    (hthrew : pw.createPass S node vecSend nValue coinControl coin_type useIX nFeePay draws
      nFeeRet ≠ .threw)
    (hassert : pw.createPass S node vecSend nValue coinControl coin_type useIX nFeePay draws
      nFeeRet ≠ .assertion) :
    ∃ r, Made S node pw vecSend nValue coinControl coin_type useIX nFeeRet r ∧
      (pw.createPass S node vecSend nValue coinControl coin_type useIX nFeePay draws nFeeRet =
          .done r ∨
        (r.nFeeRet < max nFeePay (S.getMinimumFee r.tx.size) ∧
          pw.createPass S node vecSend nValue coinControl coin_type useIX nFeePay draws nFeeRet =
            .again (max nFeePay (S.getMinimumFee r.tx.size)))) := by
  unfold createPass at *
  revert h hthrew hassert
  split
  · exact fun h _ _ => absurd rfl (h _)
  rename_i vout hpayees
  obtain rfl := payeeOutputs_ok hpayees
  split
  · exact fun _ h _ => absurd rfl h
  · exact fun h _ _ => absurd rfl (h _)
  rename_i setCoins nValueIn hselect
  obtain ⟨vCoins, havail, hselected⟩ := selectCoins_selected hselect
  dsimp only
  split
  · exact fun _ _ h => absurd rfl h
  rename_i vout' nFeeRet' hchange
  have hpass : PassChange S.policy coinControl coin_type
      (vecSend.flatMap (splitOutputs (copies coinControl))) nFeeRet (nValueIn - nValue - nFeeRet)
      vout' nFeeRet' := by
    unfold PassChange
    split at hchange
    · rename_i hdenom
      rw [if_pos hdenom]
      rw [addChange, if_neg (show ¬ (0 : Int) > 0 by decide)] at hchange
      obtain ⟨rfl, rfl⟩ := Prod.mk.inj (Option.some.inj hchange)
      exact ⟨rfl, rfl⟩
    · rename_i hdenom
      rw [if_neg hdenom]
      exact addChange_added hchange
  split
  · exact fun h _ _ => absurd rfl (h _)
  rename_i txNew hsign
  have hsigned := signCoins_signed _ hsign
  intro h _ _
  by_cases hsize : ({ txNew with hash := S.txid txNew } : CTransaction).size ≥ MAX_STANDARD_TX_SIZE
  · rw [if_pos hsize] at h
    exact absurd rfl (h _)
  have hmade : Made S node pw vecSend nValue coinControl coin_type useIX nFeeRet
      ⟨{ txNew with hash := S.txid txNew }, nFeeRet', draws.order setCoins⟩ := by
    refine ⟨⟨vCoins, setCoins, nValueIn, havail, hselected, draws.order_perm setCoins,
      ?_⟩, ⟨hsigned.rest.1, hsigned.rest.2.2⟩, ?_, fun txin htxin => ?_, Nat.lt_of_not_ge hsize⟩
    · show PassChange _ _ _ _ _ _ txNew.vout nFeeRet'
      rw [hsigned.rest.2.1]
      exact hpass
    · show txNew.vin.map CTxIn.prevout = _
      rw [hsigned.prevouts, List.map_map]
      rfl
    · rcases hsigned.inputs txin htxin with hold | hnew
      · obtain ⟨coin, -, rfl⟩ := List.mem_map.mp hold
        exact ⟨Nat.zero_le _, CScript.isPushOnly_nil⟩
      · exact hnew
  refine ⟨_, hmade, ?_⟩
  rw [if_neg hsize]
  split
  · exact .inl rfl
  split
  · exact .inl rfl
  · rename_i hfee
    exact .inr ⟨Int.lt_of_not_ge hfee, rfl⟩

theorem Made.fee_le {r : Created}
    (h : Made S node pw vecSend nValue coinControl coin_type useIX nFeeRet r) :
    nFeeRet ≤ r.nFeeRet := by
  obtain ⟨vCoins, setCoins, nValueIn, -, hselected, -, hchange⟩ := h.funds
  have hreached := hselected.reached
  unfold PassChange at hchange
  split at hchange
  · obtain ⟨-, hfee⟩ := hchange
    omega
  · generalize r.tx.vout = vout at hchange
    generalize r.nFeeRet = nFeeRet' at hchange ⊢
    cases hchange with
    | none => exact Int.le_refl _
    | dust hpos => omega
    | output => exact Int.le_refl _

/-! ## The passes -/

/-- The fee that a pass may start with: what the caller pays, or what a transaction of some size
needs. -/
structure Asked (S : SendRules K Key) (nFeePay nFeeRet : Int) : Prop where
  nonneg : 0 ≤ nFeeRet
  bounded : ∃ nBytes < MAX_STANDARD_TX_SIZE, nFeeRet ≤ max (max 0 nFeePay) (S.getMinimumFee nBytes)

/-- **A turn of the loop** that does not fail: its pass made a transaction, and the loop ends with
that one, or goes on with a fee that is enough for it. -/
theorem createLoop_succ {draws : Nat → PassDraws} {nPasses : Nat} {nFeeRet : Int}
    {passEnd : PassEnd}
    (h : pw.createLoop S node vecSend nValue coinControl coin_type useIX nFeePay draws
      (nPasses + 1) nFeeRet = passEnd)
    (hends : (∃ r, passEnd = .done r) ∨ ∃ nFeeRet', passEnd = .again nFeeRet') :
    ∃ r, Made S node pw vecSend nValue coinControl coin_type useIX nFeeRet r ∧ (passEnd = .done r ∨
        r.nFeeRet < max nFeePay (S.getMinimumFee r.tx.size) ∧
          pw.createLoop S node vecSend nValue coinControl coin_type useIX nFeePay draws nPasses
            (max nFeePay (S.getMinimumFee r.tx.size)) = passEnd) := by
  rw [createLoop] at h
  have hcases := @createPass_cases _ _ S node pw vecSend nValue coinControl coin_type useIX
    nFeePay nFeeRet (draws nPasses)
  generalize pw.createPass S node vecSend nValue coinControl coin_type useIX nFeePay
    (draws nPasses) nFeeRet = last at h hcases
  cases last with
  | failed strFailReason => exact absurd hends (by simp [← h])
  | threw => exact absurd hends (by simp [← h])
  | assertion => exact absurd hends (by simp [← h])
  | done r' =>
    obtain ⟨r, hmade, heq | ⟨-, heq⟩⟩ := hcases (by simp) (by simp) (by simp)
    · exact ⟨r, hmade, Or.inl (h.symm.trans heq)⟩
    · exact absurd heq (by simp)
  | again nFeeRet' =>
    obtain ⟨r, hmade, heq | ⟨hmore, heq⟩⟩ := hcases (by simp) (by simp) (by simp)
    · exact absurd heq (by simp)
    · obtain rfl := PassEnd.again.inj heq
      exact ⟨r, hmade, Or.inr ⟨hmore, h⟩⟩

/-- A transaction that the loop ends with is made in a pass whose fee was asked for. -/
theorem createLoop_done {draws : Nat → PassDraws} {r : Created} : ∀ (nPasses : Nat)
    {nFeeRet : Int}, Asked S nFeePay nFeeRet →
    pw.createLoop S node vecSend nValue coinControl coin_type useIX nFeePay draws nPasses nFeeRet =
      .done r →
    ∃ nFeeRet', Asked S nFeePay nFeeRet' ∧
      Made S node pw vecSend nValue coinControl coin_type useIX nFeeRet' r := by
  intro nPasses
  induction nPasses with
  | zero => exact fun _ h => absurd h (by simp [createLoop])
  | succ nPasses ih =>
    intro nFeeRet hasked h
    obtain ⟨r', hmade, heq | ⟨hmore, hrest⟩⟩ := createLoop_succ h (Or.inl ⟨r, rfl⟩)
    · obtain rfl := PassEnd.done.inj heq
      exact ⟨nFeeRet, hasked, hmade⟩
    · have hstart := hmade.fee_le
      have hnonneg := hasked.nonneg
      exact ih ⟨by omega, _, hmade.size, by omega⟩ hrest

/-- **The passes end**: every pass that is not the last raises the fee, and never above what the
caller or the wallet allows. -/
theorem createLoop_ends {draws : Nat → PassDraws} : ∀ (nPasses : Nat) {nFeeRet : Int},
    0 < nPasses → max nFeePay S.maxTxFee < nFeeRet + nPasses → ∀ nFeeRet',
    pw.createLoop S node vecSend nValue coinControl coin_type useIX nFeePay draws nPasses nFeeRet ≠
      .again nFeeRet' := by
  intro nPasses
  induction nPasses with
  | zero => exact fun h => absurd h (Nat.lt_irrefl 0)
  | succ nPasses ih =>
    intro nFeeRet _ hbound nFeeRet' h
    obtain ⟨r, hmade, heq | ⟨hmore, hrest⟩⟩ := createLoop_succ h (Or.inr ⟨nFeeRet', rfl⟩)
    · exact absurd heq (by simp)
    · have hstart := hmade.fee_le
      have hmax := S.getMinimumFee_le r.tx.size
      exact ih (by omega) (by omega) nFeeRet' hrest

theorem createTransaction_ends {draws : Nat → PassDraws} (nFeeRet : Int) :
    pw.createTransaction S node vecSend coinControl coin_type useIX nFeePay draws ≠
      .again nFeeRet := by
  unfold createTransaction
  dsimp only
  split
  · exact fun h => absurd h (by simp)
  split
  · exact fun h => absurd h (by simp)
  · refine createLoop_ends _ (Nat.succ_pos _) ?_ nFeeRet
    split <;> omega

theorem sumPayees_eq {n : Int} (h : sumPayees n vecSend = some nValue) :
    nValue = n + (vecSend.map Prod.snd).sum := by
  induction vecSend generalizing n with
  | nil =>
    rw [sumPayees] at h
    split at h
    · exact absurd h (by simp)
    · rw [← Option.some.inj h, List.map_nil, List.sum_nil, Int.add_zero]
  | cons s vecSend ih =>
    rw [sumPayees] at h
    split at h
    · exact absurd h (by simp)
    · rw [ih h, List.map_cons, List.sum_cons, Int.add_assoc]

theorem createTransaction_done {draws : Nat → PassDraws} {r : Created}
    (h : pw.createTransaction S node vecSend coinControl coin_type useIX nFeePay draws = .done r) :
    vecSend ≠ [] ∧ ∃ nFeeRet, Asked S (feePay useIX nFeePay) nFeeRet ∧
      Made S node pw vecSend (vecSend.map Prod.snd).sum coinControl coin_type useIX nFeeRet r := by
  unfold createTransaction at h
  dsimp only at h
  split at h
  · exact absurd h (by simp)
  rename_i nValue hvalue
  split at h
  · exact absurd h (by simp)
  rename_i hsome
  obtain rfl := sumPayees_eq hvalue
  rw [Int.zero_add] at h
  refine ⟨fun hnil => hsome (by rw [hnil]; rfl), createLoop_done _ ⟨?_, 0, by decide, ?_⟩ h⟩
  · split <;> omega
  · split <;> omega

end CWallet

end BitBlocks
