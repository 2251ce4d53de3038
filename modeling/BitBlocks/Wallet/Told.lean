import BitBlocks.Wallet.Caches

/-!
# What the wallet is told

A transaction that the wallet is told of is marked dirty, and so are those it spends from:
whatever became of it, nothing wrong is remembered. What remains is what the wallet is not
told: transactions that leave the memory pool with another one when a block is disconnected,
a transaction that is put into the wallet after one that spends it, one that is put there
without a word to those it spends from, and keys, since `MarkDirty` lets the immature credit
stay.
-/

namespace BitBlocks

variable {K : Type} {R : WalletRules K} {node node' : NodeView} {pw pw' : CWallet K}
  {G : Uint256 → CTransaction} {told : List Uint256} {hash : Uint256} {w w' : CWalletTx}
  {tx : CTransaction} {f : CWalletTx → CWalletTx}

/-! ## One transaction changes -/

theorem CWalletTx.keeps_markDirty (w : CWalletTx) : w.Keeps w.markDirty := by
  refine ⟨rfl, ?_, ?_, ?_, ?_, fun _ h => h, ?_⟩ <;> intro n hn <;> cases hn

theorem CWalletTx.keeps_merge (w wtxIn : CWalletTx) : w.Keeps (w.merge wtxIn) := by
  rw [merge]
  split <;> split <;> exact ⟨rfl, fun _ h => h, fun _ h => h, fun _ h => h, fun _ h => h,
    fun _ h => h, fun _ h => h⟩

theorem CWalletTx.blank_markDirty (h : w.nImmatureCreditCached = none) : w.markDirty.Blank := by
  refine ⟨rfl, fun _ h => h, fun _ h => h, fun _ h => h, fun _ h => h, fun n hn => ?_, fun _ h => h⟩
  have hn : w.nImmatureCreditCached = some n := hn
  rw [h] at hn
  cases hn

namespace CWallet

@[simp] theorem modify_keys : (pw.modify hash f).keys = pw.keys := by
  rw [modify]
  split <;> rfl

@[simp] theorem modify_spends : (pw.modify hash f).mapTxSpends = pw.mapTxSpends := by
  rw [modify]
  split <;> rfl

theorem modify_lookup (k : Uint256) : (pw.modify hash f).mapWallet.lookup k =
      if k = hash then (pw.mapWallet.lookup hash).map f else pw.mapWallet.lookup k := by
  rw [modify]
  split
  · rename_i w hw
    rw [Table.lookup_insert, hw]
    rfl
  · rename_i hw
    split
    · rename_i hk
      rw [hk, hw]
      rfl
    · rfl

theorem follows_modify (hkeeps : ∀ w : CWalletTx, w.Keeps (f w))
    (hplace : hash ∉ told → ∀ w, (f w).place = w.place) :
    pw.Follows G (pw.modify hash f) told where
  keys := modify_keys
  old k w hw := by
    by_cases hk : k = hash
    · refine ⟨f w, ?_, hkeeps w, fun hnot => hplace (hk ▸ hnot) w⟩
      rw [modify_lookup, if_pos hk, ← hk, hw]
      rfl
    · refine ⟨w, ?_, .refl w, fun _ => rfl⟩
      rw [modify_lookup, if_neg hk, hw]
  new k w' hw' hnone := by
    rw [modify_lookup] at hw'
    by_cases hk : k = hash
    · rw [if_pos hk, ← hk, hnone] at hw'
      cases hw'
    · rw [if_neg hk, hnone] at hw'
      cases hw'
  spends x := by
    rw [modify_spends]
    refine ⟨Or.inl, fun hx => ?_⟩
    rcases hx with hx | ⟨hnone, hsome, -⟩
    · exact hx
    · rw [modify_lookup] at hsome
      by_cases hk : x.2 = hash
      · rw [if_pos hk, ← hk, hnone] at hsome
        cases hsome
      · rw [if_neg hk, hnone] at hsome
        cases hsome

theorem Follows.weaken {told' : List Uint256} (h : pw.Follows G pw' told) (hsub : told ⊆ told') :
    pw.Follows G pw' told' where
  keys := h.keys
  old hash w hw := by
    obtain ⟨w', hw', hkeeps, hplace⟩ := h.old hash w hw
    exact ⟨w', hw', hkeeps, fun hnot => hplace fun hin => hnot (hsub hin)⟩
  new hash w' hw' hnone := by
    obtain ⟨hmem, hrest⟩ := h.new hash w' hw' hnone
    exact ⟨hsub hmem, hrest⟩
  spends := h.spends

theorem Follows.parentsForgotten (h : pw.Follows G pw' told) (hp : pw.ParentsForgotten tx) :
    pw'.ParentsForgotten tx := by
  intro o ho p' hp'
  cases hw : pw.mapWallet.lookup o.hash with
  | none =>
    obtain ⟨-, -, -, hblank⟩ := h.new _ p' hp' hw
    by_contra hne
    obtain ⟨n, hn⟩ := Option.ne_none_iff_exists'.mp hne
    cases hblank.availableCredit n hn
  | some p =>
    obtain ⟨p1, hp1, hkeeps, -⟩ := h.old _ p hw
    obtain rfl := Option.some.inj (hp1.symm.trans hp')
    by_contra hne
    obtain ⟨n, hn⟩ := Option.ne_none_iff_exists'.mp hne
    have hsome := hkeeps.availableCredit n hn
    rw [hp o ho p hw] at hsome
    cases hsome

/-- **The parents of a transaction forget.** -/
theorem markParents_spec (pw : CWallet K) (tx : CTransaction) :
    pw.Follows G (pw.markParents tx) [] ∧ (pw.markParents tx).ParentsForgotten tx := by
  have hgen : ∀ (l : List CTxIn) (pw : CWallet K),
      let pw' := l.foldl (fun pw txin => pw.modify txin.prevout.hash CWalletTx.markDirty) pw
      pw.Follows G pw' [] ∧ ∀ txin ∈ l, ∀ p, pw'.mapWallet.lookup txin.prevout.hash = some p →
        p.nAvailableCreditCached = none := by
    intro l
    induction l with
    | nil =>
      intro pw
      exact ⟨Follows.refl pw, fun txin hin => by cases hin⟩
    | cons txin l ih =>
      intro pw
      have hone : pw.Follows G (pw.modify txin.prevout.hash CWalletTx.markDirty) [] :=
        follows_modify CWalletTx.keeps_markDirty fun _ _ => rfl
      obtain ⟨hrest, hforgot⟩ := ih (pw.modify txin.prevout.hash CWalletTx.markDirty)
      refine ⟨hone.trans hrest, List.forall_mem_cons.mpr ⟨fun p hp => ?_, hforgot⟩⟩
      -- marked dirty first, and forgotten since
      have hfirst : (pw.modify txin.prevout.hash CWalletTx.markDirty).ParentsForgotten
          ⟨0, 1, [txin], [], 0⟩ := by
        intro o ho q hq
        obtain rfl := List.mem_singleton.mp ho
        rw [modify_lookup, if_pos rfl] at hq
        obtain ⟨w, -, rfl⟩ := Option.map_eq_some_iff.mp hq
        rfl
      exact hrest.parentsForgotten hfirst txin.prevout (List.mem_singleton_self _) p hp
  obtain ⟨hfollows, hforgot⟩ := hgen tx.vin pw
  refine ⟨hfollows, fun o ho p hp => ?_⟩
  obtain ⟨txin, hin, rfl⟩ := List.mem_map.mp ho
  exact hforgot txin hin p hp

/-! ## A transaction is added -/

theorem follows_store (hs : pw.Sound G) (hname : G w.tx.hash = w.tx) (hblank : w.Blank) :
    pw.Follows G (pw.store w) [w.tx.hash] where
  keys := rfl
  old k v hv := by
    have hlook : (pw.store w).mapWallet.lookup k =
        if k = w.tx.hash then some w else pw.mapWallet.lookup k := Table.lookup_insert _ _ _ _
    by_cases hk : k = w.tx.hash
    · rw [if_pos hk] at hlook
      refine ⟨w, hlook, ?_, fun hnot => absurd (hk ▸ List.mem_singleton_self _) hnot⟩
      have htx : w.tx = v.tx := by
        rw [(hs.named k v hv).1, hk, hname]
      exact hblank.keeps_of_tx htx
    · rw [if_neg hk, hv] at hlook
      exact ⟨v, hlook, .refl v, fun _ => rfl⟩
  new k w' hw' hnone := by
    have hlook : (pw.store w).mapWallet.lookup k =
        if k = w.tx.hash then some w else pw.mapWallet.lookup k := Table.lookup_insert _ _ _ _
    rw [hlook] at hw'
    by_cases hk : k = w.tx.hash
    · rw [if_pos hk] at hw'
      obtain rfl := Option.some.inj hw'
      refine ⟨hk ▸ List.mem_singleton_self _, ?_, ?_, hblank⟩
      · rw [hk, hname]
      · rw [hk, hname]
    · rw [if_neg hk, hnone] at hw'
      cases hw'
  spends x := by
    have hlook : (pw.store w).mapWallet.lookup x.2 =
        if x.2 = w.tx.hash then some w else pw.mapWallet.lookup x.2 := Table.lookup_insert _ _ _ _
    rw [hlook]
    simp only [store, List.mem_append]
    constructor
    · intro hx
      rcases hx with hx | hx
      · exact Or.inl hx
      · split at hx
        · cases hx
        · rename_i hbase
          obtain ⟨o, ho, rfl⟩ := List.mem_map.mp hx
          have hbase : (G w.tx.hash).isCoinBase = false := by
            rw [hname]
            simpa using hbase
          cases hold : pw.mapWallet.lookup w.tx.hash with
          | none => exact Or.inr ⟨rfl, by simp, hbase, by rwa [hname]⟩
          | some v =>
            exact Or.inl (hs.complete _ (by rw [hold]; rfl) hbase o (by rwa [hname]))
    · intro hx
      rcases hx with hx | ⟨hnone, hsome, hbase, hprev⟩
      · exact Or.inl hx
      · by_cases hk : x.2 = w.tx.hash
        · rw [hk, hname] at hbase hprev
          refine Or.inr ?_
          rw [if_neg (by simp [hbase])]
          exact List.mem_map.mpr ⟨x.1, hprev, by rw [← hk]⟩
        · rw [if_neg hk, hnone] at hsome
          cases hsome

/-- **`AddToWallet`.** -/
theorem follows_addToWallet {wtxIn : CWalletTx} (hs : pw.Sound G)
    (hname : G wtxIn.tx.hash = wtxIn.tx) (himm : wtxIn.nImmatureCreditCached = none)
    (fFromLoadWallet : Bool) :
    pw.Follows G (pw.addToWallet wtxIn fFromLoadWallet) [wtxIn.tx.hash] := by
  have hstore : pw.Follows G (pw.store wtxIn.markDirty) [wtxIn.tx.hash] :=
    follows_store hs hname (CWalletTx.blank_markDirty himm)
  rw [addToWallet]
  split
  · exact hstore
  · split
    · exact hstore
    · refine follows_modify (fun w => ?_) fun hnot => absurd (List.mem_singleton_self _) hnot
      exact (w.keeps_markDirty.trans (w.markDirty.keeps_merge wtxIn)).trans
        (w.markDirty.merge wtxIn).keeps_markDirty

/-! ## The wallet is told -/

/-- A transaction the wallet was told of: if it is there, its parents have forgotten. -/
def Informed (pw : CWallet K) (tx : CTransaction) : Prop :=
  (pw.mapWallet.lookup tx.hash).isSome → pw.ParentsForgotten tx

theorem newTx_tx (tx : CTransaction) (pblock : Option WalletBlock) : (newTx tx pblock).tx = tx := by
  cases pblock with
  | none => rfl
  | some block =>
    rw [newTx, CWalletTx.setMerkleBranch]
    split <;> rfl

theorem newTx_immature (tx : CTransaction) (pblock : Option WalletBlock) :
    (newTx tx pblock).nImmatureCreditCached = none := by
  cases pblock with
  | none => rfl
  | some block =>
    rw [newTx, CWalletTx.setMerkleBranch]
    split <;> rfl

/-- **`SyncTransaction`.** -/
theorem follows_syncTransaction {pblock : Option WalletBlock} (hs : pw.Sound G)
    (hname : G tx.hash = tx) (h : pw.syncTransaction R tx pblock = some pw') :
    pw.Follows G pw' [tx.hash] ∧ pw'.Informed tx := by
  obtain ⟨fInvolved, hinvolved, rfl⟩ := Option.map_eq_some_iff.mp h
  cases fInvolved with
  | true =>
    have hadd := @follows_addToWallet K pw G (newTx tx pblock) hs
      (by rw [newTx_tx, hname]) (newTx_immature tx pblock) false
    rw [newTx_tx] at hadd
    obtain ⟨hmark, hforgot⟩ := markParents_spec (G := G) (pw.addToWallet (newTx tx pblock) false) tx
    exact ⟨hadd.trans hmark, fun _ => hforgot⟩
  | false =>
    refine ⟨(Follows.refl pw).weaken (List.nil_subset _), fun hsome => ?_⟩
    -- what is in the wallet involves it
    have hin : pw.involvesMe R tx = some true := if_pos (Or.inl hsome)
    rw [hinvolved] at hin
    cases hin

theorem Follows.informed_of_told {txs : List CTransaction}
    (h : pw.Follows G pw' (txs.map CTransaction.hash)) (hnames : ∀ tx ∈ txs, G tx.hash = tx)
    (htxs : ∀ tx ∈ txs, pw'.Informed tx) (hname : G tx.hash = tx) (hi : pw.Informed tx) :
    pw'.Informed tx := by
  intro hsome
  by_cases hin : (pw.mapWallet.lookup tx.hash).isSome
  · exact h.parentsForgotten (hi hin)
  · -- it came in with a later one, which is the same
    obtain ⟨w', hw'⟩ := Option.isSome_iff_exists.mp hsome
    obtain ⟨hmem, -⟩ := h.new _ w' hw' (Option.not_isSome_iff_eq_none.mp hin)
    obtain ⟨tx', hin', hhash⟩ := List.mem_map.mp hmem
    have heq : tx' = tx := by
      rw [← hnames tx' hin', hhash, hname]
    exact heq ▸ htxs tx' hin' (by rw [heq]; exact hsome)

/-- **The wallet is told of one transaction after the other.** -/
theorem follows_syncAll {pblock : Option WalletBlock} (txs : List CTransaction) :
    ∀ {pw pw' : CWallet K}, pw.Sound G → (∀ tx ∈ txs, G tx.hash = tx) →
      pw.syncAll R txs pblock = some pw' →
        pw.Follows G pw' (txs.map CTransaction.hash) ∧ ∀ tx ∈ txs, pw'.Informed tx := by
  induction txs with
  | nil =>
    intro pw pw' _ _ h
    obtain rfl := Option.some.inj h
    exact ⟨Follows.refl pw, fun tx hin => by cases hin⟩
  | cons tx txs ih =>
    intro pw pw' hs hnames h
    obtain ⟨hname, hrest⟩ := List.forall_mem_cons.mp hnames
    obtain ⟨pw1, h1, h2⟩ := Option.bind_eq_some_iff.mp h
    obtain ⟨hf1, hi1⟩ := follows_syncTransaction hs hname h1
    obtain ⟨hf2, hi2⟩ := ih (hf1.sound hs) hrest h2
    exact ⟨hf1.trans hf2, List.forall_mem_cons.mpr ⟨hf2.informed_of_told hrest hi2 hname hi1, hi2⟩⟩

/-- No transaction comes alive, or ceases to be, of which the wallet is not told. -/
def Unnoticed (R : WalletRules K) (node node' : NodeView) (pw : CWallet K) (told : List Uint256) :
    Prop :=
  ∀ hash w, pw.mapWallet.lookup hash = some w → hash ∉ told →
    (0 ≤ w.depth R node' true ↔ 0 ≤ w.depth R node true) ∨ pw.ParentsForgotten w.tx

/-- **Who is told of all that changes** has forgotten what it must. -/
theorem Follows.quiet (h : pw.Follows G pw' told) (hs : pw.Sound G)
    (htold : ∀ hash ∈ told, pw'.Informed (G hash) ∧ (G hash).hash = hash)
    (hun : Unnoticed R node node' pw told) (hash : Uint256) :
    pw'.alive R node' hash = pw.alive R node hash ∨ pw'.ParentsForgotten (G hash) := by
  by_cases hmem : hash ∈ told
  · obtain ⟨hinformed, hhash⟩ := htold hash hmem
    cases hw' : pw'.mapWallet.lookup hash with
    | some w' =>
      refine Or.inr (hinformed ?_)
      rw [hhash, hw']
      rfl
    | none =>
      refine Or.inl ?_
      cases hw : pw.mapWallet.lookup hash with
      | none => rw [alive, alive, hw, hw']
      | some w =>
        have hsome : (pw'.mapWallet.lookup hash).isSome = true := h.isSome (by rw [hw]; rfl)
        rw [hw'] at hsome
        cases hsome
  · cases hw : pw.mapWallet.lookup hash with
    | none =>
      refine Or.inl ?_
      cases hw' : pw'.mapWallet.lookup hash with
      | none => rw [alive, alive, hw, hw']
      | some w' => exact absurd (h.new hash w' hw' hw).1 hmem
    | some w =>
      obtain ⟨w', hw', -, hplace⟩ := h.old hash w hw
      have hplace := hplace hmem
      have hdepth : w'.depth R node' true = w.depth R node' true :=
        CWalletTx.depth_congr (CWalletTx.place_tx hplace)
          (CWalletTx.depthInternal_congr hplace) true
      rcases hun hash w hw hmem with hsame | hforgot
      · refine Or.inl ?_
        rw [alive, alive, hw, hw']
        dsimp only
        rw [hdepth]
        exact decide_eq_decide.mpr hsame
      · refine Or.inr (h.parentsForgotten ?_)
        rwa [← (hs.named hash w hw).1]

end CWallet

end BitBlocks
