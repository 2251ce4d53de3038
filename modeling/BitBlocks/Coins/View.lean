import BitBlocks.Coins.Coins

/-!
# The coin view, and one block's effect on it

A view maps txids to entries. The stack of caches in the code denotes one such
map, and that map is what is modelled: `ModifyCoins` reads the entry (a cleared
one if there is none), lets the caller change it, and cleans it up when the
modifier goes out of scope.

`updateCoins` and `connectTxs` are `UpdateCoins` and the loop of `ConnectBlock`
around it, recording undo data; `disconnectCoins` is the coin part of
`DisconnectBlock`, walking transactions and inputs backwards.
-/

namespace BitBlocks

open Trimmed

/-- An unspent-output database: txid to entry. -/
abbrev CCoinsView := Uint256 → Option CCoins

namespace CCoinsView

/-- The entry for a txid, or a cleared one. -/
def get (v : CCoinsView) (h : Uint256) : CCoins := (v h).getD {}

/-- `ModifyCoins`, the change, and the destructor's `Cleanup`. -/
def modify (v : CCoinsView) (h : Uint256) (f : CCoins → CCoins) : CCoinsView :=
  Function.update v h (some (f (v.get h)).cleanup)

/-- `HaveInputs` for one input: the entry exists and the output is still there. -/
def haveInput (v : CCoinsView) (o : COutPoint) : Bool := (v.get o.hash).isAvailable o.n

def haveInputs (v : CCoinsView) (tx : CTransaction) : Bool :=
  tx.isCoinBase || tx.vin.all fun txin => v.haveInput txin.prevout

end CCoinsView

/-- `UpdateCoins`: mark inputs spent. `none` is the failing `assert(ret)`. -/
def spendInputs (v : CCoinsView) : List CTxIn → Option (CCoinsView × List CTxInUndo)
  | [] => some (v, [])
  | txin :: vin =>
    match (v.get txin.prevout.hash).spend txin.prevout.n with
    | none => none
    | some (coins, undo) =>
      match spendInputs (v.modify txin.prevout.hash fun _ => coins) vin with
      | none => none
      | some (v', undos) => some (v', undo :: undos)

theorem spendInputs_cons {v v' : CCoinsView} {txin : CTxIn} {vin : List CTxIn}
    {undos : List CTxInUndo} (h : spendInputs v (txin :: vin) = some (v', undos)) :
    ∃ coins undo us, (v.get txin.prevout.hash).spend txin.prevout.n = some (coins, undo) ∧
      spendInputs (v.modify txin.prevout.hash fun _ => coins) vin = some (v', us) ∧
      undos = undo :: us := by
  rw [spendInputs] at h
  split at h
  · cases h
  rename_i coins undo hspend
  split at h
  · cases h
  rename_i v1 us hrest
  obtain ⟨rfl, rfl⟩ := Prod.mk.inj (Option.some.inj h)
  exact ⟨coins, undo, us, hspend, hrest, rfl⟩

/-- `UpdateCoins`: spend the inputs, then add the outputs. -/
def updateCoins (tx : CTransaction) (v : CCoinsView) (nHeight : Int) :
    Option (CCoinsView × List CTxInUndo) :=
  match (if tx.isCoinBase then some (v, []) else spendInputs v tx.vin) with
  | none => none
  | some (v', txundo) => some (v'.modify tx.hash fun _ => CCoins.fromTx tx nHeight, txundo)

/-- The `UpdateCoins` calls of `ConnectBlock`'s loop, with the undo data of each. -/
def connectTxs (nHeight : Int) : CCoinsView → List CTransaction →
    Option (CCoinsView × List (List CTxInUndo))
  | v, [] => some (v, [])
  | v, tx :: vtx =>
    match updateCoins tx v nHeight with
    | none => none
    | some (v', txundo) =>
      match connectTxs nHeight v' vtx with
      | none => none
      | some (v'', txundos) => some (v'', txundo :: txundos)

/-- The whole loop: the first transaction's undo goes to `undoDummy` and is dropped. -/
def connectLoop (nHeight : Int) (v : CCoinsView) (vtx : List CTransaction) :
    Option (CCoinsView × List (List CTxInUndo)) :=
  match connectTxs nHeight v vtx with
  | none => none
  | some (v', txundos) => some (v', txundos.tail)

/-- `DisconnectBlock`: check that the outputs are all there, and remove them. -/
def removeOutputs (tx : CTransaction) (nHeight : Int) (v : CCoinsView) : CCoinsView × Bool :=
  let outs := (v.get tx.hash).clearUnspendable
  let outsBlock := CCoins.fromTx tx nHeight
  let outs := if outsBlock.nVersion < 0 then { outs with nVersion := outsBlock.nVersion } else outs
  (v.modify tx.hash fun _ => {}, outs.eqv outsBlock)

/-- `DisconnectBlock`: put the inputs back, last one first. -/
def restoreInputs : List (CTxIn × CTxInUndo) → CCoinsView × Bool → CCoinsView × Bool
  | [], s => s
  | (txin, undo) :: rest, s =>
    let (v, fClean) := restoreInputs rest s
    let (coins, ok) := (v.get txin.prevout.hash).restore txin.prevout.n undo
    (v.modify txin.prevout.hash fun _ => coins, fClean && ok)

/-- One round of the loop; the coinbase (no undo data) restores nothing. -/
def disconnectTx (nHeight : Int) (tx : CTransaction) (txundo : Option (List CTxInUndo))
    (s : CCoinsView × Bool) : Option (CCoinsView × Bool) :=
  let (v, ok) := removeOutputs tx nHeight s.1
  let s' := (v, s.2 && ok)
  match txundo with
  | none => some s'
  | some vprevout =>
    if vprevout.length ≠ tx.vin.length then none
    else some (restoreInputs (tx.vin.zip vprevout) s')

/-- Undo transactions in reverse order. -/
def disconnectTxs (nHeight : Int) : List (CTransaction × Option (List CTxInUndo)) →
    CCoinsView × Bool → Option (CCoinsView × Bool)
  | [], s => some s
  | (tx, txundo) :: rest, s =>
    match disconnectTxs nHeight rest s with
    | none => none
    | some s' => disconnectTx nHeight tx txundo s'

/--
The coin part of `DisconnectBlock`. `none` is an early `return error(...)`; the
flag is `fClean`, which `DisconnectTip` takes as the result.
-/
def disconnectCoins (vtx : List CTransaction) (vtxundo : List (List CTxInUndo)) (nHeight : Int)
    (v : CCoinsView) : Option (CCoinsView × Bool) :=
  if vtxundo.length + 1 ≠ vtx.length then none
  else disconnectTxs nHeight (vtx.zip (none :: vtxundo.map some)) (v, true)

/-! ## Reading a view -/

namespace CCoinsView

/-- Every stored entry is well-formed; the modifier's `Cleanup` keeps it so. -/
def WF (v : CCoinsView) : Prop := ∀ h c, v h = some c → c.WF

/-- The entry for a txid, with a pruned one identified with an absent one. -/
def entry (v : CCoinsView) (h : Uint256) : CCoins :=
  if (v.get h).isPruned then {} else v.get h

/-- The same coins in every field, pruned and absent entries identified. -/
def Same (v w : CCoinsView) : Prop := ∀ h, v.entry h = w.entry h

variable {v w : CCoinsView} {h : Uint256}

theorem WF.get (hv : v.WF) (h : Uint256) : (v.get h).WF := by
  unfold CCoinsView.get
  cases hq : v h with
  | none => exact CCoins.WF.empty
  | some c => exact hv h c hq

theorem WF.empty : WF fun _ => none := fun _ _ h => by simp at h

theorem get_modify (v : CCoinsView) (h : Uint256) (f : CCoins → CCoins) (h' : Uint256) :
    (v.modify h f).get h' = if h' = h then (f (v.get h)).cleanup else v.get h' := by
  unfold modify CCoinsView.get
  by_cases heq : h' = h
  · subst heq; simp
  · simp [heq]

theorem WF.modify (hv : v.WF) (h : Uint256) {f : CCoins → CCoins} (hf : (f (v.get h)).Canonical) :
    (v.modify h f).WF := by
  intro h' c hc
  unfold CCoinsView.modify at hc
  by_cases heq : h' = h
  · subst heq
    simp only [Function.update_self, Option.some.injEq] at hc
    subst hc; exact hf.cleanup
  · rw [Function.update_of_ne heq] at hc
    exact hv h' c hc

theorem isPruned_entry (v : CCoinsView) (h : Uint256) :
    (v.entry h).isPruned = (v.get h).isPruned := by
  unfold entry
  split
  · rename_i hp; rw [hp]; rfl
  · rfl

theorem entry_of_isPruned (hp : (v.get h).isPruned = true) : v.entry h = {} := if_pos hp

theorem entry_of_not_isPruned (hp : (v.get h).isPruned = false) :
    v.entry h = v.get h := if_neg (by simp [hp])

theorem WF.out_entry (hv : v.WF) (h : Uint256) (i : Nat) : (v.entry h).out i = (v.get h).out i := by
  unfold CCoinsView.entry
  split
  · rename_i hp
    rw [(hv.get h).isPruned_iff_nil] at hp
    simp [CCoins.out, hp]
  · rfl

theorem WF.isAvailable_entry (hv : v.WF) (h : Uint256) (i : Nat) :
    (v.entry h).isAvailable i = (v.get h).isAvailable i := by
  rw [Bool.eq_iff_iff, CCoins.isAvailable_iff, CCoins.isAvailable_iff, hv.out_entry]

theorem WF.haveInput_iff (hv : v.WF) (o : COutPoint) :
    v.haveInput o = true ↔ (v.entry o.hash).isAvailable o.n = true := by
  rw [hv.isAvailable_entry]; rfl

theorem entry_modify {c : CCoins} (hc : c.WF) (h' : Uint256) : (v.modify h fun _ => c).entry h'
      = if h' = h then (if c.isPruned then {} else c) else v.entry h' := by
  unfold entry
  rw [get_modify]
  by_cases heq : h' = h
  · simp only [heq, if_true, hc.cleanup_eq]
  · simp only [if_neg heq]

theorem Same.symm (h : Same v w) : Same w v := fun k => (h k).symm

end CCoinsView

end BitBlocks
