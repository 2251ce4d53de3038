import BitBlocks.Chain.Run

/-!
# Maturity across reorganisations

`CheckInputs` decides from the flags and height of the entry it finds. In the coins
a chain ought to have, an entry with coins left carries the flags of the
transaction that created it and the height of its *last* inclusion (`Recorded`), so
the check is right there. On the node's own coins it is right as long as no flag
was lost on the way (`checkInputs_mature`), and wrong after a single disconnect
that lost one (`checkInputs_immature`).
-/

namespace BitBlocks

open Checks CCoinsView

variable {R : Rules} {P : CChainParams} {tree : BlockTree}

/-- Entries with coins left say what their transaction is and when it was last included. -/
def Recorded (included : CTransaction → Int → Prop) (v : CCoinsView) : Prop :=
  ∀ tx k, included tx k → (v.get tx.hash).isPruned = false →
    (v.get tx.hash).fCoinBase = tx.isCoinBase ∧ (v.get tx.hash).fCoinStake = tx.isCoinStake ∧
      k ≤ (v.get tx.hash).nHeight

variable {included : CTransaction → Int → Prop} {vtx pre : List CTransaction} {v w : CCoinsView}

/-- **Connecting transactions keeps the record**, and adds theirs to it. -/
theorem recorded_connectTxs {nHeight : Int} {v' : CCoinsView} {undos : List (List CTxInUndo)}
    (hr : LoopReady v vtx) (h : connectTxs nHeight v vtx = some (v', undos))
    (hf : ∀ tx k, included tx k → ∀ t ∈ vtx, t.hash = tx.hash → t = tx)
    (hh : ∀ tx k, included tx k → k ≤ nHeight) (hrec : Recorded included v) :
    Recorded (fun tx k => included tx k ∨ (tx ∈ vtx ∧ k = nHeight)) v' := by
  obtain ⟨hbl, _⟩ := connectTxs_blanked hr h
  intro tx k hin hp
  have hmeta := hbl.meta_eq tx.hash
  have hcreated := hbl.not_isPruned hp
  have hle : k ≤ nHeight := hin.elim (hh tx k) fun h => Int.le_of_eq h.2
  rw [hmeta.1, hmeta.2.1, hmeta.2.2.1]
  by_cases hm : tx.hash ∈ vtx.map CTransaction.hash
  · -- the entry is the block's own, and the transaction is the one that wrote it
    obtain ⟨t, ht, hte⟩ := List.mem_map.mp hm
    have heq : t = tx := hin.elim (fun h => hf tx k h t ht hte) fun h =>
      List.inj_on_of_nodup_map hr.nodup ht h.1 hte
    rw [← heq, get_created_of_mem hr.nodup ht]
    exact ⟨rfl, rfl, hle⟩
  · rw [get_created_of_notMem hm] at hcreated ⊢
    rcases hin with hin | hin
    · exact hrec tx k hin hcreated
    · exact absurd (List.mem_map.mpr ⟨tx, hin.1, rfl⟩) hm

/-- The transaction is in the chain, in a block of the given height. -/
def Included (tree : BlockTree) (chain : List CBlockIndex) (tx : CTransaction) (k : Int) : Prop :=
  ∃ l ∈ chain, tx ∈ (tree l.phashBlock).vtx ∧ k = l.nHeight

theorem Canon.height_le : ∀ {l : CBlockIndex} {c : List CBlockIndex} {v : CCoinsView},
    Canon P tree (l :: c) v → ∀ m ∈ l :: c, m.nHeight ≤ l.nHeight
  | _, _, _, .genesis, m, hm => by simp at hm; rw [hm]
  | _, _, _, .extend hc hx, m, hm => by
    rcases List.mem_cons.mp hm with rfl | hm
    · exact Int.le_refl _
    · have := Canon.height_le hc m hm
      have := hx.height
      omega

/-- **The coins of a chain record every transaction of the chain.** -/
theorem Canon.recorded (hf : tree.Faithful) {c : List CBlockIndex} (h : Canon P tree c v) :
    Recorded (Included tree c) v := by
  induction h with
  | genesis =>
    intro tx k _ hp
    simp [CCoinsView.get, CCoins.isPruned] at hp
  | extend hc hx ih =>
    obtain ⟨undos, hu, hr, _⟩ := hx.ready hf
    have hrec := recorded_connectTxs hr hu (fun tx k hin t ht he => by
        obtain ⟨m, _, htx, _⟩ := hin
        exact hf _ _ t ht tx htx he)
      (fun tx k hin => by
        obtain ⟨m, hm, _, hk⟩ := hin
        have := hc.height_le m hm
        have := hx.height
        omega) ih
    intro tx k hin hp
    obtain ⟨m, hm, htx, rfl⟩ := hin
    rcases List.mem_cons.mp hm with rfl | hm
    · exact hrec tx _ (Or.inr ⟨htx, rfl⟩) hp
    · exact hrec tx _ (Or.inl ⟨m, hm, htx, rfl⟩) hp

theorem Recorded.of_sim {lost : Uint256 → Bool} (hs : Sim lost w v) (hh : Harmless lost v)
    (hr : Recorded included v) : Recorded included w := by
  intro tx k hin hp
  have hpv : (v.get tx.hash).isPruned = false := by rw [← hs.isPruned]; exact hp
  have he : w.get tx.hash = v.get tx.hash := by
    rw [← entry_of_not_isPruned hp, ← entry_of_not_isPruned hpv]
    exact hs.same_iff.mpr hh tx.hash
  rw [he]
  exact hr tx k hin hpv

theorem LoopChecked.initial (h : LoopChecked v vtx) (hpre : pre <+: vtx) (hne : pre ≠ []) :
    LoopChecked v pre := by
  have hsub := hpre.subset
  refine ⟨h.wf, ?_, fun tx htx => h.nonneg tx (hsub htx), fun tx htx => h.vin tx (hsub htx),
    fun tx htx => h.bip30 tx (hsub htx)⟩
  obtain ⟨cb, rest, rfl, hcb, hrest⟩ := h.coinbase
  obtain ⟨tx, pre', rfl⟩ := List.exists_cons_of_ne_nil hne
  obtain ⟨rfl, hpre'⟩ := List.cons_prefix_cons.mp hpre
  exact ⟨tx, pre', rfl, hcb, fun t ht => hrest t (hpre'.subset ht)⟩

/--
What `CheckInputs` sees in the middle of `ConnectBlock`: the first transactions of the
block being connected have been applied to the node's coins. `pre` may be empty.
-/
structure MidBlock (tree : BlockTree) (s : ChainState) (nHeight : Int) (hash : Uint256)
    (pre : List CTransaction) (w : CCoinsView) : Prop where
  sub : pre <+: (tree hash).vtx
  checked : pre ≠ [] → LoopChecked s.coins (tree hash).vtx
  applied : ∃ undos, connectTxs nHeight s.coins pre = some (w, undos)

theorem recorded_midBlock {s : ChainState} {tip : CBlockIndex} {rest : List CBlockIndex}
    {hash : Uint256} (hf : tree.Faithful) (hr : Reachable R P tree (Allowed true) s)
    (hs : s.chain = tip :: rest) (hm : MidBlock tree s (tip.nHeight + 1) hash pre w) :
    Recorded (fun tx k => Included tree s.chain tx k ∨ (tx ∈ pre ∧ k = tip.nHeight + 1)) w := by
  obtain ⟨v, lost, hi⟩ := chainInv_reachable hf hr
  have hrec := (hi.canon.recorded hf).of_sim hi.sim (hi.harmless rfl)
  obtain ⟨undos, happ⟩ := hm.applied
  have hcanon := hi.canon
  rw [hs] at hcanon
  have hready : LoopReady s.coins pre := by
    by_cases hne : pre = []
    · rw [hne]; exact LoopReady.nil hi.sim.left
    · exact ((hm.checked hne).initial hm.sub hne).loopReady
        ((hf.txids hash).subset hm.sub.subset) happ
  refine recorded_connectTxs hready happ ?_ ?_ hrec
  · rintro tx k ⟨l, _, htx, _⟩ t ht he
    exact hf _ _ t (hm.sub.subset ht) tx htx he
  · rintro tx k ⟨l, hl, _, rfl⟩
    have := hcanon.height_le l (hs ▸ hl)
    omega

theorem checkInputs_mature_entry {tx : CTransaction} {nSpendHeight : Int} {fScriptChecks : Bool}
    {flags : ScriptFlags} (hcb : tx.isCoinBase = false)
    (h : checkInputs R P tx w nSpendHeight fScriptChecks flags = .ok ()) :
    ∀ txin ∈ tx.vin, w.haveInput txin.prevout = true ∧ InputMature P w nSpendHeight txin := by
  unfold checkInputs at h
  rw [hcb] at h
  simp only [Bool.false_eq_true, if_false, bind_eq_ok, exists_unit, failIf_eq_ok,
    Bool.not_eq_false'] at h
  obtain ⟨hhave, m, hm, _⟩ := h
  obtain ⟨_, _, hmat⟩ := checkInputCoins_ok (Int.le_refl 0) P.nMaxMoneyOut_range.1 hm
  rw [haveInputs, hcb, Bool.false_or, List.all_eq_true] at hhave
  exact fun txin ht => ⟨hhave txin ht, hmat txin ht⟩

/--
**Maturity across reorganisations**, in every run that disconnects no block whose
undo data holds a coinstake's record: an input that `CheckInputs` accepts, and that
refers to a coinbase or coinstake of the chain (or of the block being connected),
refers to one included deep enough.
-/
theorem checkInputs_mature {s : ChainState} {tip : CBlockIndex} {rest : List CBlockIndex}
    {hash : Uint256} {pre : List CTransaction} {w : CCoinsView} {tx : CTransaction}
    {nSpendHeight : Int} {fScriptChecks : Bool} {flags : ScriptFlags} (hf : tree.Faithful)
    (hr : Reachable R P tree (Allowed true) s) (hs : s.chain = tip :: rest)
    (hm : MidBlock tree s (tip.nHeight + 1) hash pre w)
    (h : checkInputs R P tx w nSpendHeight fScriptChecks flags = .ok ()) :
    ∀ txin ∈ tx.vin, txin.prevout.isNull = false → ∀ t k,
      (Included tree s.chain t k ∨ (t ∈ pre ∧ k = tip.nHeight + 1)) →
      t.hash = txin.prevout.hash → (t.isCoinBase || t.isCoinStake) = true →
      k ≤ nSpendHeight - P.nMaturity := by
  intro txin ht hnn t k hin he hstake
  have hcb : tx.isCoinBase = false := by
    unfold CTransaction.isCoinBase
    split
    · rename_i txin' hvin
      rw [hvin, List.mem_singleton] at ht
      rw [← ht, hnn]
    · rfl
  obtain ⟨hhave, hmat⟩ := checkInputs_mature_entry hcb h txin ht
  have hp : (w.get t.hash).isPruned = false := by
    rw [he]
    exact CCoins.not_isPruned_iff.mpr ⟨_, hhave⟩
  obtain ⟨h1, h2, h3⟩ := recorded_midBlock hf hr hs hm t k hin hp
  have hold := hmat.mature (by rw [← he, h1, h2]; exact hstake)
  rw [← he] at hold
  omega

/-! ### A run that loses a flag -/

/-- A block whose header carries its hash in the nonce and commits to its transactions. -/
def minedBlock (hash hashPrevBlock : Uint256) (vtx : List CTransaction) : CBlock :=
  let block : CBlock :=
    { nVersion := 3, hashPrevBlock := hashPrevBlock, hashMerkleRoot := 0, nTime := 1600000000,
      nBits := 0x1e0ffff0, nNonce := hash, vtx := vtx }
  { block with hashMerkleRoot := (block.buildMerkleTree Rules.transparent.hash2).1 }

/-- The coinbase of block `n`. -/
def minedCoinbase (n : Nat) : CTransaction where
  hash := 1000 + n
  vin := [⟨COutPoint.null, [1, 2], 0⟩]
  vout := [⟨10 * COIN, [0x51], -10⟩]

/-- Spends the first coinbase, and pays into two outputs. -/
def splitTx : CTransaction where
  hash := 2001
  vin := [⟨⟨1001, 0⟩, [0x51], 0⟩]
  vout := [⟨5 * COIN, [0x51], -10⟩, ⟨5 * COIN, [0x51], -10⟩]

/-- A coinstake: its first output is empty. -/
def stakeTx : CTransaction where
  hash := 2002
  vin := [⟨⟨2001, 0⟩, [0x51], 0⟩]
  vout := [⟨0, [], -10⟩, ⟨5 * COIN, [0x51], -10⟩]

/-- Spends the coinstake to its last output, the empty marker included. -/
def sweepTx : CTransaction where
  hash := 2003
  vin := [⟨⟨2002, 0⟩, [0x51], 0⟩, ⟨⟨2002, 1⟩, [], 0⟩]
  vout := [⟨5 * COIN, [0x51], -10⟩]

/-- Spends the coinstake's other output. -/
def earlyTx : CTransaction where
  hash := 2004
  vin := [⟨⟨2002, 1⟩, [], 0⟩]
  vout := [⟨5 * COIN, [0x51], -10⟩]

/-- What block `n` holds besides its coinbase. -/
def sweptTxs (n : Nat) : List CTransaction :=
  if n = 16 then [splitTx, stakeTx] else if n = 31 then [sweepTx] else []

/-- 31 proof-of-work blocks; the coinstake is in block 16, and block 31 sweeps it. -/
def sweptBlocks : List CBlock := (List.range 31).map fun i =>
    minedBlock (i + 1) (if i = 0 then mainParams.hashGenesisBlock else i)
      (minedCoinbase (i + 1) :: sweptTxs (i + 1))

/-- A disk that holds these blocks, and a genesis block. -/
def storedBlocks (blocks : List CBlock) : BlockTree := fun h =>
  (blocks.find? fun b => b.nNonce == h).getD
    (minedBlock mainParams.hashGenesisBlock 0 [minedCoinbase 0])

theorem storedBlocks_faithful {blocks : List CBlock}
    (hall : TxidsFaithful (minedCoinbase 0 :: blocks.flatMap CBlock.vtx)) :
    (storedBlocks blocks).Faithful := by
  have hmem : ∀ h, ∀ tx ∈ (storedBlocks blocks h).vtx,
      tx ∈ minedCoinbase 0 :: blocks.flatMap CBlock.vtx := by
    intro h tx htx
    unfold storedBlocks at htx
    cases hfind : blocks.find? fun b => b.nNonce == h with
    | some b =>
      rw [hfind] at htx
      exact List.mem_cons_of_mem _ (List.mem_flatMap.mpr ⟨b, List.mem_of_find?_eq_some hfind, htx⟩)
    | none =>
      rw [hfind] at htx
      exact List.mem_cons.mpr (Or.inl (List.mem_singleton.mp htx))
  exact fun h h' tx htx tx' htx' => hall tx (hmem h tx htx) tx' (hmem h' tx' htx')

def sweptTree : BlockTree := storedBlocks sweptBlocks

theorem sweptTree_faithful : sweptTree.Faithful := storedBlocks_faithful (by decide +kernel)

/-- Connect blocks `1` to `n`. -/
def connectUpTo (env : LocalState) (n : Nat) : List TipMove :=
  (List.range n).map fun i => .connect env (i + 1)

theorem connectUpTo_allowed {env : LocalState} {n : Nat} (hn : n < 2 ^ 64) {exact : Bool}
    {m : TipMove} (hm : m ∈ connectUpTo env n) (s : ChainState) : Allowed exact s m := by
  obtain ⟨i, hi, rfl⟩ := List.mem_map.mp hm
  have hi := List.mem_range.mp hi
  refine ⟨fun prev rest _ => ?_, fun _ => trivial⟩
  have h1 : (i + 1 == 0x00000000000a4d0a398161ffc163c503763b1f4360639393e0e4c8e300e0caec) =
      false := by
    simp; omega
  have h2 : (i + 1 == 0x00000000000743f190a18c5577a3c2d2a1f610ae9601ac046a38084ccb7cd721) =
      false := by
    simp; omega
  simp [enforceBIP30, h1, h2]

/-- A node that is not synced, at the time the blocks were mined. -/
def unsynced : LocalState := LocalState.bare 1600000000 false true

/-- The undo data of the block at the tip, read whole. -/
def unstaked (s : ChainState) : Bool :=
  (s.chain.head?.bind fun l => s.undo l.phashBlock).all fun U =>
    U.all fun us => us.all fun u => !u.fCoinStake

theorem noStakeRecord_of_unstaked {s : ChainState} (h : unstaked s = true) :
    NoStakeRecord s .disconnect := by
  intro l rest hchain U hU us hus u hu
  rw [unstaked, hchain, List.head?_cons, Option.bind_some, hU, Option.all_some] at h
  simpa using List.all_eq_true.mp (List.all_eq_true.mp h us hus) u hu

/-- After block 16 is disconnected, the first coinbase can be spent in the next block. -/
theorem checkInputs_mature_split : ∃ s tip rest,
    Reachable Rules.transparent mainParams sweptTree (Allowed true) s ∧ s.chain = tip :: rest ∧
    tip.nHeight = 15 ∧
    ∀ txin ∈ splitTx.vin, txin.prevout.isNull = false → ∀ t k,
      (Included sweptTree s.chain t k ∨ (t ∈ ([] : List CTransaction) ∧ k = tip.nHeight + 1)) →
      t.hash = txin.prevout.hash → (t.isCoinBase || t.isCoinStake) = true →
      k ≤ 16 - mainParams.nMaturity := by
  have hrun : (moveTips Rules.transparent mainParams sweptTree
      (ChainState.genesis mainParams sweptTree) (connectUpTo unsynced 16)).bind (fun s =>
        (disconnectTip sweptTree s).map fun s' => (unstaked s, s'.chain.head?.map
          CBlockIndex.nHeight, checkInputs Rules.transparent mainParams splitTx s'.coins
            16 true {}))
      = some (true, some 15, .ok ()) := by decide +kernel
  obtain ⟨s₀, hs₀, hrest⟩ := Option.bind_eq_some_iff.mp hrun
  obtain ⟨s, hs, he⟩ := Option.map_eq_some_iff.mp hrest
  obtain ⟨hundo, he⟩ := Prod.mk.inj he
  obtain ⟨htip, hok⟩ := Prod.mk.inj he
  obtain ⟨tip, hhead, hheight⟩ := Option.map_eq_some_iff.mp htip
  obtain ⟨rest, hchain⟩ := List.head?_eq_some_iff.mp hhead
  have hr : Reachable Rules.transparent mainParams sweptTree (Allowed true) s :=
    .move (m := .disconnect)
      (.run .genesis (fun _ hm s => connectUpTo_allowed (by decide) hm s) hs₀)
      ⟨trivial, fun _ => noStakeRecord_of_unstaked hundo⟩ hs
  have hmid : MidBlock sweptTree s (tip.nHeight + 1) 16 [] s.coins :=
    ⟨List.nil_prefix, by simp, [], rfl⟩
  exact ⟨s, tip, rest, hr, hchain, hheight,
    checkInputs_mature sweptTree_faithful hr hchain hmid hok⟩

/--
**Two disconnects are enough to lose maturity**: after block 31 and block 30 are
disconnected, the coinstake of block 16 can be spent at height 30.
-/
theorem checkInputs_immature :
    ¬ ∀ (R : Rules) (P : CChainParams) (tree : BlockTree) (s : ChainState) (tip : CBlockIndex)
        (rest : List CBlockIndex) (hash : Uint256) (pre : List CTransaction) (w : CCoinsView)
        (tx : CTransaction) (nSpendHeight : Int) (fScriptChecks : Bool) (flags : ScriptFlags),
      tree.Faithful → Reachable R P tree (fun _ _ => True) s → s.chain = tip :: rest →
      MidBlock tree s (tip.nHeight + 1) hash pre w →
      checkInputs R P tx w nSpendHeight fScriptChecks flags = .ok () →
      ∀ txin ∈ tx.vin, txin.prevout.isNull = false → ∀ t k,
        (Included tree s.chain t k ∨ (t ∈ pre ∧ k = tip.nHeight + 1)) →
        t.hash = txin.prevout.hash → (t.isCoinBase || t.isCoinStake) = true →
        k ≤ nSpendHeight - P.nMaturity := by
  intro hall
  have hrun : (moveTips Rules.transparent mainParams sweptTree
      (ChainState.genesis mainParams sweptTree)
      (connectUpTo unsynced 31 ++ [.disconnect, .disconnect])).map (fun s =>
        (s.chain.map fun l => (l.phashBlock, l.nHeight),
          checkInputs Rules.transparent mainParams earlyTx s.coins 30 true {})) =
      some (((List.range 29).reverse.map fun i => (i + 1, ((i + 1 : Nat) : Int))) ++
        [(mainParams.hashGenesisBlock, 0)], .ok ()) := by decide +kernel
  obtain ⟨s, hs, he⟩ := Option.map_eq_some_iff.mp hrun
  obtain ⟨hchain, hok⟩ := Prod.mk.inj he
  have hr : Reachable Rules.transparent mainParams sweptTree (fun _ _ => True) s :=
    Reachable.run .genesis (fun _ _ _ => trivial) hs
  obtain ⟨tip, rest, hc⟩ : ∃ tip rest, s.chain = tip :: rest := by
    refine List.exists_cons_of_ne_nil fun hnil => ?_
    rw [hnil] at hchain
    exact absurd hchain (by decide)
  have h16 : (16, 16) ∈ s.chain.map fun l => (l.phashBlock, l.nHeight) := by
    rw [hchain]; decide
  obtain ⟨l, hl, hl16⟩ := List.mem_map.mp h16
  obtain ⟨hhash, hheight⟩ := Prod.mk.inj hl16
  have hle := hall _ _ _ s tip rest 0 [] s.coins earlyTx 30 true {} sweptTree_faithful hr hc
    ⟨List.nil_prefix, by simp, [], rfl⟩ hok ⟨⟨2002, 1⟩, [], 0⟩ (by simp [earlyTx]) (by decide)
    stakeTx 16 (Or.inl ⟨l, hl, by rw [hhash]; decide, hheight.symm⟩) rfl (by decide)
  exact absurd hle (by decide)

end BitBlocks
