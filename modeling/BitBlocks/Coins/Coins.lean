import BitBlocks.Lib.Trimmed
import BitBlocks.Primitives.Transaction

/-!
# `CCoins`: the unspent outputs of one transaction

The entry type of the coin database (`coins.h`), the undo record of one spent
output (`undo.h`), and the operations on them: `FromTx`, `Spend`, `Cleanup`, and
the body of the restore loop of `DisconnectBlock`.

Everything is read through `CCoins.out`, which says what sits at a position and
answers *null* outside the vector. `Cleanup` keeps the vector trimmed, so that
reading determines the vector (`CCoins.WF`, `Trimmed.Normal.ext`).
-/

namespace BitBlocks

open Trimmed

/-- Pruned version of a transaction: metadata and the unspent outputs only. -/
structure CCoins where
  fCoinBase : Bool := false
  fCoinStake : Bool := false
  vout : List CTxOut := []
  nHeight : Int := 0
  nVersion : Int := 0
deriving DecidableEq, Repr

/--
Undo information for one input. The metadata is filled in only when the output
was the last unspent one of its transaction; otherwise it stays at the
constructor's defaults.
-/
structure CTxInUndo where
  txout : CTxOut
  fCoinBase : Bool := false
  fCoinStake : Bool := false
  nHeight : Int := 0
  nVersion : Int := 0
deriving DecidableEq, Repr

namespace CCoins

/-- What is stored at position `n`; null past the end. -/
def out (c : CCoins) (n : Nat) : CTxOut := c.vout.getD n CTxOut.null

def isAvailable (c : CCoins) (n : Nat) : Bool := decide (n < c.vout.length) && !(c.out n).isNull

def isPruned (c : CCoins) : Bool := c.vout.all CTxOut.isNull

/-- Remove spent outputs at the end of `vout`. -/
def cleanup (c : CCoins) : CCoins := { c with vout := trim CTxOut.isNull c.vout }

/-- `ClearUnspendable` before its `Cleanup`. -/
def nullUnspendable (c : CCoins) : CCoins :=
  { c with vout := c.vout.map fun o => if o.scriptPubKey.isUnspendable then CTxOut.null else o }

def clearUnspendable (c : CCoins) : CCoins := c.nullUnspendable.cleanup

def fromTx (tx : CTransaction) (nHeightIn : Int) : CCoins := clearUnspendable
    { fCoinBase := tx.isCoinBase
      fCoinStake := tx.isCoinStake
      vout := tx.vout
      nHeight := nHeightIn
      nVersion := tx.nVersion }

/-- `operator==`: empty entries are always equal. -/
def eqv (a b : CCoins) : Bool := (a.isPruned && b.isPruned) ||
    (a.fCoinBase == b.fCoinBase && a.fCoinStake == b.fCoinStake && a.nHeight == b.nHeight &&
      a.nVersion == b.nVersion && a.vout == b.vout)

/-- Mark an outpoint spent and construct its undo information. -/
def spend (c : CCoins) (n : Nat) : Option (CCoins × CTxInUndo) :=
  if n ≥ c.vout.length then none
  else if (c.out n).isNull then none
  else
    let c' := cleanup { c with vout := c.vout.set n CTxOut.null }
    let undo : CTxInUndo := { txout := c.out n }
    if c'.vout.length = 0 then
      some (c', { undo with
        nHeight := c.nHeight, fCoinBase := c.fCoinBase, fCoinStake := c.fCoinStake,
        nVersion := c.nVersion })
    else some (c', undo)

/--
One round of the restore loop of `DisconnectBlock`: put back the output an input
had spent. The flag is the conjunction of the round's consistency checks. Note
the fields the first branch assigns: `fCoinStake` is not among them.
-/
def restore (coins : CCoins) (n : Nat) (undo : CTxInUndo) : CCoins × Bool :=
  let (coins, fClean) :=
    if undo.nHeight ≠ 0 then
      (({ fCoinBase := undo.fCoinBase, nHeight := undo.nHeight,
          nVersion := undo.nVersion } : CCoins), coins.isPruned)
    else (coins, !coins.isPruned)
  let fClean := fClean && !coins.isAvailable n
  ({ coins with vout := (grow CTxOut.null (n + 1) coins.vout).set n undo.txout }, fClean)

/-! ## Well-formed entries -/

/-- Spent outputs are the null output, and there are none at the end of the vector. -/
def WF (c : CCoins) : Prop := Normal CTxOut.isNull CTxOut.null c.vout

/-- Spent outputs are the null output; trailing ones are still allowed. -/
def Canonical (c : CCoins) : Prop := ∀ o ∈ c.vout, o.isNull = true → o = CTxOut.null

theorem WF.empty : WF {} := normal_nil

variable {c c' : CCoins} {n : Nat} {tx : CTransaction} {u : CTxInUndo}

theorem WF.canonical (h : c.WF) : c.Canonical := Normal.canonical h

theorem Canonical.cleanup (h : c.Canonical) : c.cleanup.WF := normal_trim h

theorem WF.cleanup_eq (h : c.WF) : c.cleanup = c := by
  simp only [CCoins.cleanup, trim_of_normal h]

theorem isAvailable_iff : c.isAvailable n = true ↔ (c.out n).isNull = false := by
  unfold isAvailable out
  rcases Nat.lt_or_ge n c.vout.length with h | h
  · simp [h]
  · rw [List.getD_eq_default _ _ h]; simp

theorem isPruned_iff : c.isPruned = true ↔ ∀ n, (c.out n).isNull = true := by
  unfold isPruned out
  rw [List.all_eq_true]
  constructor
  · intro h n
    rcases Nat.lt_or_ge n c.vout.length with hn | hn
    · rw [List.getD_eq_getElem _ _ hn]; exact h _ (List.getElem_mem hn)
    · rw [List.getD_eq_default _ _ hn]; rfl
  · intro h o ho
    obtain ⟨i, hi, rfl⟩ := List.mem_iff_getElem.mp ho
    have := h i
    rwa [List.getD_eq_getElem _ _ hi] at this

theorem not_isPruned_iff : c.isPruned = false ↔ ∃ n, c.isAvailable n = true := by
  rw [← Bool.not_eq_true, isPruned_iff]
  simp only [isAvailable_iff, not_forall, Bool.not_eq_true]

theorem WF.isPruned_iff_nil (h : c.WF) : c.isPruned = true ↔ c.vout = [] := by
  constructor
  · intro hp
    rw [← trim_of_normal h, trim_eq_nil]
    simpa [isPruned] using hp
  · intro hn; simp [isPruned, hn]

theorem WF.ext {a b : CCoins} (ha : a.WF) (hb : b.WF) (h1 : a.fCoinBase = b.fCoinBase)
    (h2 : a.fCoinStake = b.fCoinStake) (h3 : a.nHeight = b.nHeight)
    (h4 : a.nVersion = b.nVersion) (hout : ∀ i, a.out i = b.out i) : a = b := by
  obtain ⟨a1, a2, av, a3, a4⟩ := a
  obtain ⟨b1, b2, bv, b3, b4⟩ := b
  simp only at h1 h2 h3 h4
  have hv : av = bv := Normal.ext ha hb rfl hout
  subst h1 h2 h3 h4 hv
  rfl

@[simp] theorem cleanup_fCoinBase (c : CCoins) : c.cleanup.fCoinBase = c.fCoinBase := rfl
@[simp] theorem cleanup_fCoinStake (c : CCoins) : c.cleanup.fCoinStake = c.fCoinStake := rfl
@[simp] theorem cleanup_nHeight (c : CCoins) : c.cleanup.nHeight = c.nHeight := rfl
@[simp] theorem cleanup_nVersion (c : CCoins) : c.cleanup.nVersion = c.nVersion := rfl

theorem Canonical.out_cleanup (h : c.Canonical) (i : Nat) :
    c.cleanup.out i = c.out i := getD_trim h i

/-! ## `FromTx` -/

@[simp] theorem fromTx_fCoinBase (tx : CTransaction) (h : Int) :
    (fromTx tx h).fCoinBase = tx.isCoinBase := rfl
@[simp] theorem fromTx_fCoinStake (tx : CTransaction) (h : Int) :
    (fromTx tx h).fCoinStake = tx.isCoinStake := rfl
@[simp] theorem fromTx_nHeight (tx : CTransaction) (h : Int) : (fromTx tx h).nHeight = h := rfl
@[simp] theorem fromTx_nVersion (tx : CTransaction) (h : Int) :
    (fromTx tx h).nVersion = tx.nVersion := rfl

theorem out_nullUnspendable (c : CCoins) (i : Nat) : c.nullUnspendable.out i =
      if (c.out i).scriptPubKey.isUnspendable then CTxOut.null else c.out i := by
  simp only [nullUnspendable, out, List.getD_eq_getElem?_getD, List.getElem?_map]
  cases c.vout[i]? <;> simp [CScript.isUnspendable, CTxOut.null]

theorem canonical_nullUnspendable (h : ∀ o ∈ c.vout, o.isNull = false) :
    c.nullUnspendable.Canonical := by
  intro o ho hnull
  obtain ⟨o', ho', rfl⟩ := List.mem_map.mp ho
  split at hnull
  · rename_i hu; simp [hu]
  · rw [h o' ho'] at hnull
    exact absurd hnull (by simp)

theorem canonical_fromTx (htx : tx.OutputsNonneg) {b s : Bool} {h v : Int} :
    (nullUnspendable ⟨b, s, tx.vout, h, v⟩).Canonical :=
  canonical_nullUnspendable fun o ho => CTxOut.isNull_of_nonneg (htx o ho)

theorem fromTx_wf (htx : tx.OutputsNonneg) (h : Int) : (fromTx tx h).WF :=
  (canonical_fromTx htx).cleanup

/-- **What `FromTx` stores**: the transaction's outputs, less the unspendable ones. -/
theorem out_fromTx (htx : tx.OutputsNonneg) (h : Int) (i : Nat) : (fromTx tx h).out i =
      if (tx.vout.getD i CTxOut.null).scriptPubKey.isUnspendable then CTxOut.null
      else tx.vout.getD i CTxOut.null := by
  unfold fromTx clearUnspendable
  rw [(canonical_fromTx htx).out_cleanup, out_nullUnspendable]
  rfl

theorem out_fromTx_spendable (htx : tx.OutputsNonneg) (h : Int) (i : Nat) :
    ((fromTx tx h).out i).scriptPubKey.isUnspendable = false := by
  rw [out_fromTx htx]
  split
  · rfl
  · rename_i hu; simpa using hu

theorem WF.clearUnspendable_eq (hc : c.WF) (h : ∀ i, (c.out i).scriptPubKey.isUnspendable = false) :
    c.clearUnspendable = c := by
  have hmap : c.nullUnspendable = c := by
    have : (c.vout.map fun o => if o.scriptPubKey.isUnspendable then CTxOut.null else o)
        = c.vout.map id := by
      refine List.map_congr_left fun o ho => ?_
      obtain ⟨i, hi, rfl⟩ := List.mem_iff_getElem.mp ho
      have := h i
      rw [out, List.getD_eq_getElem _ _ hi] at this
      simp [this]
    rw [nullUnspendable, this, List.map_id]
  rw [clearUnspendable, hmap, hc.cleanup_eq]

/-! ## `Spend` -/

/-- What a successful `Spend` leaves and records. -/
structure Spent (c : CCoins) (n : Nat) (c' : CCoins) (u : CTxInUndo) : Prop where
  avail : c.isAvailable n = true
  wf : c'.WF
  out : ∀ i, c'.out i = if i = n then CTxOut.null else c.out i
  meta_eq : c'.fCoinBase = c.fCoinBase ∧ c'.fCoinStake = c.fCoinStake ∧ c'.nHeight = c.nHeight
    ∧ c'.nVersion = c.nVersion
  txout : u.txout = c.out n
  /-- The last unspent output takes the metadata along. -/
  last : c'.isPruned = true → u.fCoinBase = c.fCoinBase ∧ u.fCoinStake = c.fCoinStake
    ∧ u.nHeight = c.nHeight ∧ u.nVersion = c.nVersion
  /-- Any other output is recorded with the defaults. -/
  notLast : c'.isPruned = false → u = { txout := c.out n }

theorem canonical_set_null (hc : c.WF) (n : Nat) :
    Canonical { c with vout := c.vout.set n CTxOut.null } := by
  intro o ho hnull
  rcases List.mem_or_eq_of_mem_set ho with h | h
  · exact hc.canonical o h hnull
  · exact h

/-- **`Spend` succeeds exactly on an available output.** -/
theorem WF.spend_spec (hc : c.WF) (n : Nat) : (c.isAvailable n = false ∧ c.spend n = none) ∨
      ∃ c' u, c.spend n = some (c', u) ∧ Spent c n c' u := by
  unfold CCoins.spend
  by_cases hlen : n ≥ c.vout.length
  · exact Or.inl ⟨by simp [isAvailable, Nat.not_lt.mpr hlen], by rw [if_pos hlen]⟩
  rw [if_neg hlen]
  by_cases hnull : (c.out n).isNull = true
  · exact Or.inl ⟨by simp [isAvailable, hnull], by rw [if_pos hnull]⟩
  rw [if_neg hnull]
  right
  have hcan := canonical_set_null hc n
  have hwf := hcan.cleanup
  have havail : c.isAvailable n = true := by simp [isAvailable, hnull]; omega
  have hout : ∀ i, (cleanup { c with vout := c.vout.set n CTxOut.null }).out i
      = if i = n then CTxOut.null else c.out i := fun i => by
    rw [hcan.out_cleanup]; exact getD_set (by omega) _ _
  have hpr : (cleanup { c with vout := c.vout.set n CTxOut.null }).isPruned = true ↔
      (cleanup { c with vout := c.vout.set n CTxOut.null }).vout.length = 0 := by
    rw [hwf.isPruned_iff_nil, List.length_eq_zero_iff]
  dsimp only
  split
  · rename_i h0
    refine ⟨_, _, rfl, havail, hwf, hout, ⟨rfl, rfl, rfl, rfl⟩, rfl, fun _ =>
      ⟨rfl, rfl, rfl, rfl⟩, ?_⟩
    intro hp
    rw [hpr.mpr h0] at hp
    exact absurd hp (by simp)
  · rename_i h0
    refine ⟨_, _, rfl, havail, hwf, hout, ⟨rfl, rfl, rfl, rfl⟩, rfl, ?_, fun _ => rfl⟩
    intro hp
    exact absurd (hpr.mp hp) h0

theorem WF.spend_some (hc : c.WF) (h : c.spend n = some (c', u)) : Spent c n c' u := by
  rcases hc.spend_spec n with ⟨_, hn⟩ | ⟨c'', u', hs, hsp⟩
  · rw [hn] at h; exact absurd h (by simp)
  · rw [hs] at h
    obtain ⟨rfl, rfl⟩ := Prod.mk.inj (Option.some.inj h)
    exact hsp

theorem Spent.isAvailable {i : Nat} (h : Spent c n c' u) :
    c'.isAvailable i = true ↔ i ≠ n ∧ c.isAvailable i = true := by
  simp only [isAvailable_iff, h.out]
  by_cases hi : i = n <;> simp [hi]

/-! ## `restore` undoes `Spend` -/

theorem canonical_restore (hc : c.Canonical) (n : Nat) {o : CTxOut} (ho : o.isNull = false) :
    Canonical { c with vout := (grow CTxOut.null (n + 1) c.vout).set n o } := by
  intro a ha hnull
  rcases List.mem_or_eq_of_mem_set ha with h | h
  · rcases mem_grow h with h' | h'
    · exact hc a h' hnull
    · exact h'
  · rw [h, ho] at hnull; exact absurd hnull (by simp)

theorem out_restore (c : CCoins) (n : Nat) (o : CTxOut) (i : Nat) :
    CCoins.out { c with vout := (grow CTxOut.null (n + 1) c.vout).set n o } i
      = if i = n then o else c.out i := by
  unfold CCoins.out
  rw [getD_set (by rw [length_grow]; omega)]
  split
  · rfl
  · exact getD_grow _ _ _

end CCoins

end BitBlocks
