import BitBlocks.Wallet.Told

/-!
# Remembered sums over whole runs

What a getter returns with the sums that are remembered is what it would form without, in
every run whose events are untroubled: nothing happens to the wallet without its being told
that would change a sum. Two troubles show in runs of their own: a key is imported that makes
an immature credit larger, and a transaction leaves the memory pool with the one it spends.
-/

namespace BitBlocks

variable {K : Type} {R : WalletRules K} {node node' : NodeView} {pw pw' : CWallet K}
  {G : Uint256 → CTransaction} {hash : Uint256} {w : CWalletTx} {tx : CTransaction}
  {f : CWalletTx → CWalletTx}

/-! ## Getters -/

namespace CWallet

section modify

variable (htx : ∀ w, (f w).tx = w.tx)
include htx

theorem modify_lookup_tx (k : Uint256) : ((pw.modify hash f).mapWallet.lookup k).map CWalletTx.tx =
      (pw.mapWallet.lookup k).map CWalletTx.tx := by
  rw [modify_lookup]
  by_cases hk : k = hash
  · rw [if_pos hk, hk, Option.map_map]
    exact congrArg (fun g => Option.map g _) (funext htx)
  · rw [if_neg hk]

theorem modify_prevOut (txin : CTxIn) : (pw.modify hash f).prevOut txin = pw.prevOut txin := by
  have hbind : ∀ m : Option CWalletTx, (m.bind fun p => p.tx.vout[txin.prevout.n]?) =
      (m.map CWalletTx.tx).bind fun tx => tx.vout[txin.prevout.n]? := by
    intro m
    cases m <;> rfl
  rw [prevOut, prevOut, hbind, hbind, modify_lookup_tx htx]

theorem Sound.modify (hs : pw.Sound G) : (pw.modify hash f).Sound G := by
  have hsome : ∀ k, ((pw.modify hash f).mapWallet.lookup k).isSome =
      (pw.mapWallet.lookup k).isSome := by
    intro k
    rw [← Option.isSome_map (f := CWalletTx.tx), modify_lookup_tx htx, Option.isSome_map]
  refine ⟨fun k v hv => ?_, fun x hx => ?_, fun k hk hbase o ho => ?_⟩
  · have hv' := @modify_lookup_tx K pw hash f htx k
    rw [hv] at hv'
    obtain ⟨u, hu, hutx⟩ := Option.map_eq_some_iff.mp hv'.symm
    rw [← hutx]
    exact hs.named k u hu
  · rw [modify_spends] at hx
    rw [hsome]
    exact hs.spends x hx
  · rw [hsome] at hk
    rw [modify_spends]
    exact hs.complete k hk hbase o ho

variable (hdepth : ∀ w : CWalletTx, (f w).depthInternal R node = w.depthInternal R node)
include hdepth

theorem modify_isSpent (o : COutPoint) :
    (pw.modify hash f).isSpent R node o = pw.isSpent R node o := by
  have halive : ∀ k, (pw.modify hash f).alive R node k = pw.alive R node k := by
    intro k
    rw [alive, alive, modify_lookup]
    by_cases hk : k = hash
    · rw [if_pos hk, hk]
      cases pw.mapWallet.lookup hash with
      | none => rfl
      | some w =>
        dsimp only [Option.map_some]
        rw [CWalletTx.depth_congr (htx w) (hdepth w)]
    · rw [if_neg hk]
  rw [isSpent_eq, isSpent_eq, modify_spends]
  simp only [halive]

/-- **A transaction that remembers what is right** leaves the wallet right. -/
theorem Fresh.modify (hfresh : pw.Fresh R node)
    (hf : ∀ w : CWalletTx, w.Fresh R node pw → (f w).Fresh R node pw) :
    (pw.modify hash f).Fresh R node := by
  -- what was right about a transaction still is
  have hkept : ∀ w : CWalletTx, w.Fresh R node pw → w.Fresh R node (pw.modify hash f) := by
    intro w hw
    have hcredit : ∀ filter, (pw.modify hash f).txCredit R filter w.tx =
        pw.txCredit R filter w.tx :=
      fun filter => txCredit_congr fun txout _ => by rw [isMine_congr modify_keys]
    have hdebit : ∀ filter, (pw.modify hash f).txDebit R filter w.tx = pw.txDebit R filter w.tx :=
      fun filter => txDebit_congr fun txin _ =>
        inDebit_congr modify_keys (modify_prevOut htx txin)
    have hunspent : (pw.modify hash f).unspentCredit R node ISMINE_SPENDABLE w.tx =
        pw.unspentCredit R node ISMINE_SPENDABLE w.tx :=
      unspentCredit_congr modify_keys fun i => modify_isSpent htx hdepth _
    constructor <;> intro n hn
    · rw [hdebit, hw.debit n hn]
    · rw [hdebit, hw.watchDebit n hn]
    · rw [hcredit, hw.credit n hn]
    · rw [hcredit, hw.watchCredit n hn]
    · rw [hcredit, hw.immatureCredit n hn]
    · rw [hunspent, hw.availableCredit n hn]
  intro k v hv
  refine hkept v ?_
  rw [modify_lookup] at hv
  by_cases hk : k = hash
  · rw [if_pos hk] at hv
    obtain ⟨u, hu, rfl⟩ := Option.map_eq_some_iff.mp hv
    exact hf u (hfresh hash u hu)
  · rw [if_neg hk] at hv
    exact hfresh k v hv

end modify

end CWallet

namespace CWalletTx

theorem remember_eq_some {asked : Bool} {cached sum : Option Int} {n : Int}
    (hcached : ∀ n, cached = some n → sum = some n) (h : remember asked cached sum = some n) :
    sum = some n := by
  rw [remember] at h
  split at h
  · cases hc : cached with
    | none => rwa [hc] at h
    | some m =>
      rw [hc] at h
      obtain rfl := Option.some.inj h
      exact hcached m hc
  · exact hcached n h

theorem renew_eq_some {fUseCache : Bool} {cached sum : Option Int} {n : Int}
    (hcached : ∀ n, cached = some n → sum = some n) (h : renew fUseCache cached sum = some n) :
    sum = some n := by
  rw [renew] at h
  split at h
  · rename_i m hm
    obtain rfl := Option.some.inj h
    cases fUseCache with
    | true => exact @remember_eq_some true _ _ _ hcached hm
    | false => exact hm
  · exact hcached n h

theorem afterDebit_place (w : CWalletTx) (filter : Nat) :
    (w.afterDebit R pw filter).place = w.place := by
  rw [afterDebit]
  split <;> rfl

theorem afterCredit_place (w : CWalletTx) (filter : Nat) :
    (w.afterCredit R node pw filter).place = w.place := by
  rw [afterCredit]
  split <;> rfl

theorem afterImmatureCredit_place (w : CWalletTx) (fUseCache : Bool) :
    (w.afterImmatureCredit R node pw fUseCache).place = w.place := by
  rw [afterImmatureCredit]
  split <;> rfl

theorem afterAvailableCredit_place (w : CWalletTx) (fUseCache : Bool) :
    (w.afterAvailableCredit R node pw fUseCache).place = w.place := by
  rw [afterAvailableCredit]
  split <;> rfl

variable (h : w.Fresh R node pw)
include h

theorem Fresh.afterDebit (filter : Nat) : (w.afterDebit R pw filter).Fresh R node pw := by
  rw [CWalletTx.afterDebit]
  split
  · exact h
  · exact ⟨fun n hn => remember_eq_some h.debit hn, fun n hn => remember_eq_some h.watchDebit hn,
      h.credit, h.watchCredit, h.immatureCredit, h.availableCredit⟩

theorem Fresh.afterCredit (filter : Nat) : (w.afterCredit R node pw filter).Fresh R node pw := by
  rw [CWalletTx.afterCredit]
  split
  · exact h
  · exact ⟨h.debit, h.watchDebit, fun n hn => remember_eq_some h.credit hn,
      fun n hn => remember_eq_some h.watchCredit hn, h.immatureCredit, h.availableCredit⟩

theorem Fresh.afterImmatureCredit (fUseCache : Bool) :
    (w.afterImmatureCredit R node pw fUseCache).Fresh R node pw := by
  rw [CWalletTx.afterImmatureCredit]
  split
  · exact ⟨h.debit, h.watchDebit, h.credit, h.watchCredit,
      fun n hn => renew_eq_some h.immatureCredit hn, h.availableCredit⟩
  · exact h

theorem Fresh.afterAvailableCredit (fUseCache : Bool) :
    (w.afterAvailableCredit R node pw fUseCache).Fresh R node pw := by
  rw [CWalletTx.afterAvailableCredit]
  split
  · exact h
  · exact ⟨h.debit, h.watchDebit, h.credit, h.watchCredit, h.immatureCredit,
      fun n hn => renew_eq_some h.availableCredit hn⟩

theorem Fresh.verified : (w.verified R node).Fresh R node pw := by
  rw [CWalletTx.verified]
  split
  · exact ⟨h.debit, h.watchDebit, h.credit, h.watchCredit, h.immatureCredit, h.availableCredit⟩
  · exact h

end CWalletTx

/-! ## Keys -/

namespace CWallet

/-- **`MarkDirty`** reaches every transaction. -/
theorem markDirty_spec (pw : CWallet K) :
    pw.markDirty.keys = pw.keys ∧ pw.markDirty.mapTxSpends = pw.mapTxSpends ∧
      ∀ k, pw.markDirty.mapWallet.lookup k = (pw.mapWallet.lookup k).map CWalletTx.markDirty := by
  have hgen : ∀ (l : List Uint256) (pw : CWallet K),
      let pw' := l.foldl (fun pw hash => pw.modify hash CWalletTx.markDirty) pw
      pw'.keys = pw.keys ∧ pw'.mapTxSpends = pw.mapTxSpends ∧ ∀ k, pw'.mapWallet.lookup k =
        if k ∈ l then (pw.mapWallet.lookup k).map CWalletTx.markDirty else
        pw.mapWallet.lookup k := by
    intro l
    induction l with
    | nil =>
      intro pw
      exact ⟨rfl, rfl, fun k => (if_neg List.not_mem_nil).symm⟩
    | cons hash l ih =>
      intro pw
      obtain ⟨hkeys, hspends, hlook⟩ := ih (pw.modify hash CWalletTx.markDirty)
      refine ⟨hkeys.trans modify_keys, hspends.trans modify_spends, fun k => ?_⟩
      have hk' := hlook k
      rw [modify_lookup] at hk'
      rw [List.foldl_cons, hk']
      by_cases hk : k = hash
      · subst hk
        rw [if_pos rfl, if_pos List.mem_cons_self, Option.map_map, ite_eq_right_iff.mpr]
        intro _
        rfl
      · rw [if_neg hk]
        exact if_congr (by simp [hk]) rfl rfl
  obtain ⟨hkeys, hspends, hlook⟩ := hgen (pw.mapWallet.entries.map Sigma.fst) pw
  refine ⟨hkeys, hspends, fun k => ?_⟩
  have hk' := hlook k
  rw [markDirty, hk']
  split
  · rfl
  · rename_i hnot
    rw [AList.lookup_eq_none.mpr hnot]
    rfl

/-- An imported key is none that an immature credit which is remembered would gain from. -/
def NoImmatureGain (R : WalletRules K) (pw : CWallet K) (keys : K) : Prop :=
  ∀ hash w, pw.mapWallet.lookup hash = some w → w.nImmatureCreditCached.isSome →
    ∀ txout ∈ w.tx.vout, R.isMine keys txout.scriptPubKey &&& ISMINE_SPENDABLE ≠ 0 ↔
      pw.isMine R txout &&& ISMINE_SPENDABLE ≠ 0

/-- **Imported keys**: all that is left is the immature credit. -/
theorem Fresh.importKeys (hs : pw.Sound G) (hfresh : pw.Fresh R node) {keys : K}
    (hkeys : NoImmatureGain R pw keys) :
    ({ pw with keys := keys }.markDirty).Sound G ∧
      ({ pw with keys := keys }.markDirty).Fresh R node := by
  obtain ⟨hnew, hspends, hlook⟩ := markDirty_spec { pw with keys := keys }
  have hlook : ∀ k, ({ pw with keys := keys }.markDirty).mapWallet.lookup k =
      (pw.mapWallet.lookup k).map CWalletTx.markDirty := hlook
  refine ⟨⟨fun k v hv => ?_, fun x hx => ?_, fun k hk hbase o ho => ?_⟩, fun k v hv => ?_⟩
  · rw [hlook] at hv
    obtain ⟨w, hw, rfl⟩ := Option.map_eq_some_iff.mp hv
    exact hs.named k w hw
  · rw [hspends] at hx
    rw [hlook, Option.isSome_map]
    exact hs.spends x hx
  · rw [hlook, Option.isSome_map] at hk
    rw [hspends]
    exact hs.complete k hk hbase o ho
  · rw [hlook] at hv
    obtain ⟨w, hw, rfl⟩ := Option.map_eq_some_iff.mp hv
    refine ⟨fun n hn => ?_, fun n hn => ?_, fun n hn => ?_, fun n hn => ?_, fun n hn => ?_,
      fun n hn => ?_⟩
    · cases hn
    · cases hn
    · cases hn
    · cases hn
    · have hn : w.nImmatureCreditCached = some n := hn
      rw [← (hfresh k w hw).immatureCredit n hn]
      refine txCredit_congr fun txout hout => ?_
      rw [isMine, hnew]
      exact hkeys k w hw (by rw [hn]; rfl) txout hout
    · cases hn

end CWallet

/-! ## Events -/

namespace WalletEvent

/-- The transactions the wallet is told of. -/
def told : WalletEvent K → List CTransaction
  | .addToWallet wtxIn _ => [wtxIn.tx]
  | .acceptToMemoryPool tx => [tx]
  | .connectTip block txConflicted => txConflicted ++ block.vtx
  | .disconnectTip vtx _ => vtx.map Prod.fst
  | .commitTransaction wtxNew _ => [wtxNew.tx]
  | _ => []

/-- The memory pool after the loop of `DisconnectTip`. -/
def poolAfter : List (CTransaction × Resurrected) → NodeView → NodeView
  | [], node => node
  | (tx, .accepted) :: vtx, node => poolAfter vtx (node.enter tx.hash)
  | (_, .removed hashes) :: vtx, node => poolAfter vtx (node.leave hashes)

def nodeAfter (node : NodeView) : WalletEvent K → NodeView
  | .acceptToMemoryPool tx => node.enter tx.hash
  | .connectTip block txConflicted =>
    let node := node.leave ((block.vtx ++ txConflicted).map CTransaction.hash)
    { node with chainActive := node.chainActive ++ [⟨block.hash, block.hashMerkleRoot⟩] }
  | .disconnectTip vtx spends =>
    let node := (poolAfter vtx node).leave spends
    { node with chainActive := node.chainActive.dropLast }
  | .commitTransaction wtxNew true => node.enter wtxNew.tx.hash
  | _ => node

/-- No debit that is remembered gains from a transaction that is new to the wallet. -/
def NewHeirless (R : WalletRules K) (pw : CWallet K) (e : WalletEvent K) : Prop :=
  ∀ tx ∈ e.told, pw.mapWallet.lookup tx.hash = none → pw.Heirless R tx

/-- An event after which no sum is remembered that is not what would be formed. -/
def Untroubled (R : WalletRules K) (s : WalletRun K) (e : WalletEvent K) : Prop :=
  e.NewHeirless R s.pw ∧
    match e with
    | .addToWallet wtxIn fFromLoadWallet =>
      wtxIn.nImmatureCreditCached = none ∧ (s.pw.ParentsForgotten wtxIn.tx ∨
        (s.pw.addToWallet wtxIn fFromLoadWallet).alive R s.node wtxIn.tx.hash =
          s.pw.alive R s.node wtxIn.tx.hash)
    | .commitTransaction wtxNew _ => wtxNew.nImmatureCreditCached = none
    | .connectTip _ _ => CWallet.Unnoticed R s.node (nodeAfter s.node e) s.pw
        (e.told.map CTransaction.hash)
    | .disconnectTip _ _ => CWallet.Unnoticed R s.node (nodeAfter s.node e) s.pw
        (e.told.map CTransaction.hash)
    | .importKeys keys => s.pw.NoImmatureGain R keys
    | _ => True

end WalletEvent

namespace WalletRun

variable {s s' : WalletRun K} {e : WalletEvent K}

/-- Every transaction an event is about is the one that its id names. -/
def Names (G : Uint256 → CTransaction) (e : WalletEvent K) : Prop := ∀ tx ∈ e.told, G tx.hash = tx

theorem unnoticed_enter (hs : pw.Sound G) (hash : Uint256) :
    CWallet.Unnoticed R node (node.enter hash) pw [hash] := by
  intro k w hw hnot
  refine Or.inl ?_
  have hne : w.tx.hash ≠ hash := by
    rw [(hs.named k w hw).1, (hs.named k w hw).2]
    exact fun heq => hnot (List.mem_singleton.mpr heq)
  have hpool : w.inMempool (node.enter hash) = w.inMempool node := by
    simp [CWalletTx.inMempool, NodeView.enter, hne]
  have hdepth : w.depth R (node.enter hash) true = w.depth R node true := by
    rw [CWalletTx.depth, hpool]
    rfl
  rw [hdepth]

theorem accept_spec (hs : s.pw.Sound G) (hname : G tx.hash = tx) (h : s.accept R tx = some s') :
    s.pw.Follows G s'.pw [tx.hash] ∧ s'.pw.Informed tx ∧ s'.node = s.node.enter tx.hash := by
  obtain ⟨pw, hpw, rfl⟩ := Option.map_eq_some_iff.mp h
  obtain ⟨hf, hi⟩ := CWallet.follows_syncTransaction hs hname hpw
  exact ⟨hf, hi, rfl⟩

theorem resurrect_spec (vtx : List (CTransaction × Resurrected)) :
    ∀ {s s' : WalletRun K}, s.pw.Sound G → (∀ tx ∈ vtx.map Prod.fst, G tx.hash = tx) →
      resurrect R vtx s = some s' →
        s.pw.Follows G s'.pw ((vtx.map Prod.fst).map CTransaction.hash) ∧
          s'.node = WalletEvent.poolAfter vtx s.node := by
  induction vtx with
  | nil =>
    intro s s' _ _ h
    obtain rfl := Option.some.inj h
    exact ⟨CWallet.Follows.refl _, rfl⟩
  | cons x vtx ih =>
    intro s s' hs hnames h
    obtain ⟨tx, fate⟩ := x
    obtain ⟨hname, hrest⟩ := List.forall_mem_cons.mp hnames
    cases fate with
    | accepted =>
      obtain ⟨s1, h1, h2⟩ := Option.bind_eq_some_iff.mp h
      obtain ⟨hf1, -, hnode1⟩ := accept_spec hs hname h1
      obtain ⟨hf2, hnode2⟩ := ih (hf1.sound hs) hrest h2
      refine ⟨hf1.trans hf2, ?_⟩
      rw [hnode2, hnode1]
      rfl
    | removed hashes =>
      obtain ⟨hf, hnode⟩ := ih (s := { s with node := s.node.leave hashes }) hs hrest h
      exact ⟨hf.weaken (List.subset_cons_self _ _), hnode⟩

/-- **A wallet that was told of all that changed is right.** -/
theorem fresh_of_told (hs : pw.Sound G) (hfresh : pw.Fresh R node) (hnames : Names G e)
    (hheir : e.NewHeirless R pw) (hf : pw.Follows G pw' (e.told.map CTransaction.hash))
    (hinformed : ∀ tx ∈ e.told, pw'.Informed tx)
    (hun : CWallet.Unnoticed R node node' pw (e.told.map CTransaction.hash)) :
    pw'.Sound G ∧ pw'.Fresh R node' := by
  refine ⟨hf.sound hs, hf.fresh hs hfresh (fun hash hmem hnone => ?_) (hf.quiet hs ?_ hun)⟩
  · obtain ⟨tx, hin, rfl⟩ := List.mem_map.mp hmem
    rw [hnames tx hin]
    exact hheir tx hin hnone
  · intro hash hmem
    obtain ⟨tx, hin, rfl⟩ := List.mem_map.mp hmem
    rw [hnames tx hin]
    exact ⟨hinformed tx hin, rfl⟩

/-- **A getter** leaves what is remembered right. -/
theorem get_fresh (hs : s.pw.Sound G) (hfresh : s.pw.Fresh R s.node)
    (hplace : ∀ w, (f w).place = w.place)
    (hf : ∀ w : CWalletTx, w.Fresh R s.node s.pw → (f w).Fresh R s.node s.pw) :
    (s.get hash f).pw.Sound G ∧ (s.get hash f).pw.Fresh R (s.get hash f).node := by
  have htx : ∀ w, (f w).tx = w.tx := fun w => CWalletTx.place_tx (hplace w)
  exact ⟨hs.modify htx, hfresh.modify htx (fun w => CWalletTx.depthInternal_congr (hplace w)) hf⟩

/-- **An untroubled event** leaves what is remembered right. -/
theorem next_fresh (hs : s.pw.Sound G) (hfresh : s.pw.Fresh R s.node) (hnames : Names G e)
    (hun : e.Untroubled R s) (h : s.next R e = some s') :
    s'.pw.Sound G ∧ s'.pw.Fresh R s'.node := by
  obtain ⟨hheir, hun⟩ := hun
  cases e with
  | getDebit hash filter =>
    obtain rfl := Option.some.inj h
    exact get_fresh hs hfresh (fun w => w.afterDebit_place filter) fun w hw => hw.afterDebit filter
  | getCredit hash filter =>
    obtain rfl := Option.some.inj h
    exact get_fresh hs hfresh (fun w => w.afterCredit_place filter) fun w hw =>
      hw.afterCredit filter
  | getImmatureCredit hash fUseCache =>
    obtain rfl := Option.some.inj h
    exact get_fresh hs hfresh (fun w => w.afterImmatureCredit_place fUseCache) fun w hw =>
      hw.afterImmatureCredit fUseCache
  | getAvailableCredit hash fUseCache =>
    obtain rfl := Option.some.inj h
    exact get_fresh hs hfresh (fun w => w.afterAvailableCredit_place fUseCache) fun w hw =>
      hw.afterAvailableCredit fUseCache
  | verify hash =>
    obtain rfl := Option.some.inj h
    have htx : ∀ w : CWalletTx, (w.verified R s.node).tx = w.tx := by
      intro w
      rw [CWalletTx.verified]
      split <;> rfl
    exact ⟨hs.modify htx, hfresh.modify htx (fun w => CWalletTx.verified_depth) fun w hw =>
      hw.verified⟩
  | addToWallet wtxIn fFromLoadWallet =>
    obtain rfl := Option.some.inj h
    obtain ⟨himm, hquiet⟩ := hun
    have hname := hnames wtxIn.tx (List.mem_singleton_self _)
    have hf := CWallet.follows_addToWallet hs hname himm fFromLoadWallet
    refine ⟨hf.sound hs, hf.fresh hs hfresh (fun hash hmem hnone => ?_) fun hash => ?_⟩
    · rw [List.mem_singleton.mp hmem] at hnone ⊢
      rw [hname]
      exact hheir wtxIn.tx (List.mem_singleton_self _) hnone
    · by_cases hk : hash = wtxIn.tx.hash
      · rw [hk]
        rcases hquiet with hforgot | hsame
        · refine Or.inr (hf.parentsForgotten ?_)
          rwa [hname]
        · exact Or.inl hsame
      · -- the others are where they were
        refine Or.inl ?_
        have hnot : hash ∉ [wtxIn.tx.hash] := fun hmem => hk (List.mem_singleton.mp hmem)
        show CWallet.alive R s.node (s.pw.addToWallet wtxIn fFromLoadWallet) hash = _
        rw [CWallet.alive, CWallet.alive]
        cases hw : s.pw.mapWallet.lookup hash with
        | none =>
          cases hw' : (s.pw.addToWallet wtxIn fFromLoadWallet).mapWallet.lookup hash with
          | none => rfl
          | some w' => exact absurd (hf.new hash w' hw' hw).1 hnot
        | some w =>
          obtain ⟨w', hw', -, hplace⟩ := hf.old hash w hw
          have hplace := hplace hnot
          rw [hw']
          dsimp only
          rw [CWalletTx.depth_congr (CWalletTx.place_tx hplace)
            (CWalletTx.depthInternal_congr hplace)]
  | acceptToMemoryPool tx =>
    obtain ⟨hf, hi, hnode⟩ := accept_spec hs (hnames tx (List.mem_singleton_self _)) h
    rw [hnode]
    exact fresh_of_told (e := .acceptToMemoryPool tx) hs hfresh hnames hheir hf
      (List.forall_mem_singleton.mpr hi) (unnoticed_enter hs tx.hash)
  | connectTip block txConflicted =>
    obtain ⟨pw1, h1, h⟩ := Option.bind_eq_some_iff.mp h
    obtain ⟨pw2, h2, h⟩ := Option.bind_eq_some_iff.mp h
    obtain rfl := Option.some.inj h
    obtain ⟨hf1, hi1⟩ := CWallet.follows_syncAll txConflicted hs
      (fun tx hin => hnames tx (List.mem_append_left _ hin)) h1
    obtain ⟨hf2, hi2⟩ := CWallet.follows_syncAll block.vtx (hf1.sound hs)
      (fun tx hin => hnames tx (List.mem_append_right _ hin)) h2
    have hf := hf1.trans hf2
    rw [← List.map_append] at hf
    refine fresh_of_told (e := .connectTip block txConflicted) hs hfresh hnames hheir hf
      (fun tx hin => ?_) hun
    rcases List.mem_append.mp hin with hin | hin
    · exact hf2.informed_of_told (fun tx hin => hnames tx (List.mem_append_right _ hin)) hi2
        (hnames tx (List.mem_append_left _ hin)) (hi1 tx hin)
    · exact hi2 tx hin
  | disconnectTip vtx spends =>
    obtain ⟨s1, h1, h⟩ := Option.bind_eq_some_iff.mp h
    obtain ⟨pw2, h2, h⟩ := Option.bind_eq_some_iff.mp h
    obtain rfl := Option.some.inj h
    obtain ⟨hf1, hnode⟩ := resurrect_spec vtx hs hnames h1
    obtain ⟨hf2, hi2⟩ := CWallet.follows_syncAll (vtx.map Prod.fst) (hf1.sound hs) hnames h2
    have hf := (hf1.trans hf2).weaken (List.append_subset.mpr ⟨List.Subset.refl _,
      List.Subset.refl _⟩)
    dsimp only
    rw [hnode]
    exact fresh_of_told (e := .disconnectTip vtx spends) hs hfresh hnames hheir hf hi2 hun
  | commitTransaction wtxNew fAccepted =>
    have hname := hnames wtxNew.tx (List.mem_singleton_self _)
    have hadd := CWallet.follows_addToWallet hs hname hun false
    obtain ⟨hmark, hforgot⟩ := CWallet.markParents_spec (G := G)
      (s.pw.addToWallet wtxNew false) wtxNew.tx
    have hf := hadd.trans hmark
    cases fAccepted with
    | true =>
      obtain ⟨hf', hi, hnode⟩ := accept_spec (hf.sound hs) hname h
      have hf : s.pw.Follows G s'.pw [wtxNew.tx.hash] :=
        (hf.trans hf').weaken fun k hk => by simpa using hk
      rw [hnode]
      exact fresh_of_told (e := .commitTransaction wtxNew true) hs hfresh hnames hheir hf
        (List.forall_mem_singleton.mpr hi) (unnoticed_enter hs wtxNew.tx.hash)
    | false =>
      obtain rfl := Option.some.inj h
      exact fresh_of_told (e := .commitTransaction wtxNew false) hs hfresh hnames hheir hf
        (List.forall_mem_singleton.mpr fun _ => hforgot) fun _ _ _ _ => Or.inl Iff.rfl
  | importKeys keys =>
    obtain rfl := Option.some.inj h
    exact CWallet.Fresh.importKeys hs hfresh hun

end WalletRun

/-! ## Runs -/

/-- The transaction with all it remembers forgotten. -/
def CWalletTx.forget (w : CWalletTx) : CWalletTx :=
  { w with
    nDebitCached := none
    nWatchDebitCached := none
    nCreditCached := none
    nWatchCreditCached := none
    nImmatureCreditCached := none
    nAvailableCreditCached := none }

/-- Each getter returns with caching the value it would compute without. -/
structure CWalletTx.Agrees (R : WalletRules K) (node : NodeView) (pw : CWallet K) (w : CWalletTx) :
    Prop where
  debit : ∀ filter, w.getDebit R pw filter = w.forget.getDebit R pw filter
  credit : ∀ filter, w.getCredit R node pw filter = w.forget.getCredit R node pw filter
  immatureCredit : w.getImmatureCredit R node pw true = w.getImmatureCredit R node pw false
  availableCredit : w.getAvailableCredit R node pw true = w.getAvailableCredit R node pw false

theorem remembered_eq {cached sum : Option Int} (h : ∀ n, cached = some n → sum = some n) :
    remembered cached sum = sum := by
  cases hc : cached with
  | none => rfl
  | some n => exact (h n hc).symm

theorem CWalletTx.Fresh.agrees (h : w.Fresh R node pw) : w.Agrees R node pw where
  debit filter := by
    rw [getDebit, getDebit, remembered_eq h.debit, remembered_eq h.watchDebit]
    rfl
  credit filter := by
    rw [getCredit, getCredit, remembered_eq h.credit, remembered_eq h.watchCredit]
    rfl
  immatureCredit := by
    rw [getImmatureCredit, getImmatureCredit, if_pos rfl, remembered_eq h.immatureCredit]
    rfl
  availableCredit := by
    rw [getAvailableCredit, getAvailableCredit, if_pos rfl, remembered_eq h.availableCredit]
    rfl

namespace WalletRun

/--
**Remembered sums are never stale** in a run whose events are untroubled, from a wallet that
remembers nothing: each getter returns with caching the value it would compute without.
-/
theorem getters_agree (G : Uint256 → CTransaction) {s s' : WalletRun K} {is : List (WalletEvent K)}
    (hs : s.pw.Sound G) (hblank : ∀ hash w, s.pw.mapWallet.lookup hash = some w → w.Blank)
    (hun : Machine.EveryStep (next R) (fun s e => Names G e ∧ e.Untroubled R s) s is)
    (hr : Machine.steps (next R) s is = some s') :
    ∀ hash w, s'.pw.mapWallet.lookup hash = some w → w.Agrees R s'.node s'.pw := by
  have hfresh : s.pw.Fresh R s.node := fun hash w hw => (hblank hash w hw).fresh
  have hrun := hun.invariant (I := fun s : WalletRun K => s.pw.Sound G ∧ s.pw.Fresh R s.node)
    (fun s e s' hI hC h => next_fresh hI.1 hI.2 hC.1 hC.2 h) ⟨hs, hfresh⟩
  intro hash w hw
  exact ((hrun.2 s' hr).2 hash w hw).agrees

/-- Rules to evaluate on: the keys are the scripts that are the wallet's. -/
def keyRules : WalletRules (List CScript) where
  params := mainParams
  hash2 a b := 2 * a + 3 * b + 1
  isMine keys scriptPubKey := if scriptPubKey ∈ keys then ISMINE_SPENDABLE else ISMINE_NO
  bSpendZeroConfChange := true
  nSwiftTXDepth := 5
  fMasterNode := false
  nMasternodeCollateralLimit := 150000

/-- An empty wallet with one key, and a chain with one block. -/
def emptyWallet : WalletRun (List CScript) := ⟨{ chainActive := [⟨1, 0⟩] }, { keys := [[0x51]] }⟩

/-- A coinbase that pays to the wallet's key and to another. -/
def rewardTx : CTransaction :=
  { hash := 5, vin := [⟨COutPoint.null, [], 0⟩],
    vout := [⟨100, [0x51], -10⟩, ⟨200, [0x52], -10⟩] }

/-- Its block, and its immature credit is asked for. -/
def rewardSteps : List (WalletEvent (List CScript)) :=
  [.connectTip ⟨7, 5, [rewardTx], fun _ => []⟩ [], .getImmatureCredit 5 true]

/-- The credit that is remembered of a block reward is right. -/
theorem getters_agree_of_reward :
    ∃ s w, Machine.steps (next keyRules) emptyWallet rewardSteps = some s ∧
      s.pw.mapWallet.lookup 5 = some w ∧ w.nImmatureCreditCached = some 100 ∧
      w.Agrees keyRules s.node s.pw := by
  have hr : Machine.steps (next keyRules) emptyWallet rewardSteps = some _ := rfl
  have hun : Machine.EveryStep (next keyRules)
      (fun s e => Names (fun _ => rewardTx) e ∧ e.Untroubled keyRules s) emptyWallet
      rewardSteps := by
    refine ⟨⟨?_, ?_, ?_⟩, fun s₁ _ => ⟨⟨?_, ?_, trivial⟩, fun _ _ => trivial⟩⟩
    · exact List.forall_mem_singleton.mpr rfl
    · intro tx _ _ hash c hc
      cases hc
    · intro hash w hw
      cases hw
    · intro tx hin
      cases hin
    · intro tx hin
      cases hin
  have hs : emptyWallet.pw.Sound fun _ => rewardTx := by
    constructor
    · intro hash w hw
      cases hw
    · intro x hx
      cases hx
    · intro hash hsome
      cases hsome
  exact ⟨_, _, hr, rfl, rfl,
    getters_agree (fun _ => rewardTx) hs (fun _ _ h => by cases h) hun hr 5 _ rfl⟩

/-- The other key is imported: `MarkDirty` lets the immature credit stay as it was. -/
theorem imported_key_is_missed : ∃ s w, Machine.steps (next keyRules) emptyWallet
        (rewardSteps ++ [.importKeys [[0x51], [0x52]]]) = some s ∧
      s.pw.mapWallet.lookup 5 = some w ∧
      w.getImmatureCredit keyRules s.node s.pw true = some 100 ∧
      w.getImmatureCredit keyRules s.node s.pw false = some 300 ∧
      ¬ w.Agrees keyRules s.node s.pw := by
  refine ⟨_, _, rfl, rfl, by decide, by decide, fun h => ?_⟩
  exact absurd h.immatureCredit (by decide)

end WalletRun

end BitBlocks
