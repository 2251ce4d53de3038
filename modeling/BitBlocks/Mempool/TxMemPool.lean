import BitBlocks.Lib.Index
import BitBlocks.Lib.Machine
import BitBlocks.Lib.Table
import BitBlocks.Validation.Connected

/-!
# The memory pool

`CTxMemPool` (`txmempool.cpp`): the transactions, `mapNextTx` from the outpoints they
spend to the inputs that spend them, and the sum of their sizes. Transactions enter
through `AcceptToMemoryPool` only, which checks for conflicts; they leave one by one,
with everything that depends on them when `remove` is recursive.

An entry's pointer into `mapTx` is the transaction it points to. Fees, priorities and
the fee estimator are left out.
-/

namespace BitBlocks

/-- An entry of the pool: the transaction, and its size as it was when it entered. -/
structure CTxMemPoolEntry where
  tx : CTransaction
  nTxSize : Nat
deriving DecidableEq, Repr

/-- An inpoint: a transaction and an index into its `vin`. -/
structure CInPoint where
  ptx : CTransaction
  n : Nat
deriving DecidableEq, Repr

structure CTxMemPool where
  /-- Normally false. -/
  fSanityCheck : Bool := false
  nTransactionsUpdated : Nat := 0
  /-- Sum of all mempool transactions' byte sizes, a `uint64_t`. -/
  totalTxSize : Nat := 0
  mapTx : AList (fun _ : Uint256 => CTxMemPoolEntry) := ∅
  mapNextTx : AList (fun _ : COutPoint => CInPoint) := ∅

namespace CTxMemPool

/-- Add to memory pool without checking anything. -/
def addUnchecked (pool : CTxMemPool) (hash : Uint256) (entry : CTxMemPoolEntry) : CTxMemPool :=
  { pool with
    mapTx := pool.mapTx.insert hash entry
    mapNextTx := (entry.tx.vin.zipIdx.map fun x => (x.1.prevout, CInPoint.mk entry.tx x.2)).foldl
      (fun m x => m.insert x.1 x.2) pool.mapNextTx
    nTransactionsUpdated := (pool.nTransactionsUpdated + 1) % 2 ^ 32
    totalTxSize := (pool.totalTxSize + entry.nTxSize) % 2 ^ 64 }

/-- The transactions that spend one of the first `nOut` outputs of `hash`. -/
def spenders (pool : CTxMemPool) (hash : Uint256) (nOut : Nat) : List Uint256 :=
  (List.range nOut).filterMap fun i => (pool.mapNextTx.lookup ⟨hash, i⟩).map fun it => it.ptx.hash

/-- One transaction leaves: its inpoints, its size, its entry. -/
def eraseTx (pool : CTxMemPool) (hash : Uint256) (entry : CTxMemPoolEntry) : CTxMemPool :=
  { pool with
    mapTx := pool.mapTx.erase hash
    mapNextTx := (entry.tx.vin.map CTxIn.prevout).foldl (fun m o => m.erase o) pool.mapNextTx
    nTransactionsUpdated := (pool.nTransactionsUpdated + 1) % 2 ^ 32
    totalTxSize := (pool.totalTxSize + 2 ^ 64 - entry.nTxSize % 2 ^ 64) % 2 ^ 64 }

/-- The loop of `remove`, with its queue and the transactions removed so far. -/
def removeLoop (fRecursive : Bool) (pool : CTxMemPool) (txToRemove : List Uint256)
    (removed : List CTransaction) : CTxMemPool × List CTransaction :=
  match txToRemove with
  | [] => (pool, removed)
  | hash :: txToRemove =>
    match _h : pool.mapTx.lookup hash with
    | none => removeLoop fRecursive pool txToRemove removed
    | some entry =>
      removeLoop fRecursive (pool.eraseTx hash entry)
        (txToRemove ++ if fRecursive then pool.spenders hash entry.tx.vout.length else [])
        (removed ++ [entry.tx])
termination_by (pool.mapTx.entries.length, txToRemove.length)
decreasing_by
  · exact Prod.Lex.right _ (Nat.lt_succ_self _)
  · refine Prod.Lex.left _ _ ?_
    have := Table.length_erase (m := pool.mapTx) (k := hash) (by rw [_h]; rfl)
    simp only [eraseTx]
    omega

/-- `remove`: a transaction that is not in the pool may still have children there. -/
def remove (pool : CTxMemPool) (origTx : CTransaction) (removed : List CTransaction)
    (fRecursive : Bool) : CTxMemPool × List CTransaction :=
  let txToRemove := origTx.hash ::
    (if fRecursive && (pool.mapTx.lookup origTx.hash).isNone then
      pool.spenders origTx.hash origTx.vout.length
    else [])
  pool.removeLoop fRecursive txToRemove removed

/-- An input that is not of the pool and whose coins are gone, or generated and immature. -/
def immatureSpend (P : CChainParams) (pool : CTxMemPool) (pcoins : CCoinsView)
    (nMemPoolHeight : Nat) (txin : CTxIn) : Bool :=
  (pool.mapTx.lookup txin.prevout.hash).isNone &&
    match pcoins txin.prevout.hash with
    | none => true
    | some coins => (coins.fCoinBase || coins.fCoinStake) &&
        decide (((nMemPoolHeight : Int) - coins.nHeight) % 2 ^ 32 < P.nMaturity)

/--
`removeCoinbaseSpends`. `none` is the assertion on the coins of the first input found,
made under `fSanityCheck`.
-/
def removeCoinbaseSpends (P : CChainParams) (pool : CTxMemPool) (pcoins : CCoinsView)
    (nMemPoolHeight : Nat) : Option CTxMemPool :=
  let found := pool.mapTx.entries.filterMap fun x =>
    (x.2.tx.vin.find? (pool.immatureSpend P pcoins nMemPoolHeight)).map fun txin => (x.2.tx, txin)
  if pool.fSanityCheck && found.any fun x => (pcoins x.2.prevout.hash).isNone then none
  else some ((found.map Prod.fst).foldl (fun pool tx => (pool.remove tx [] true).1) pool)

/-- `removeConflicts`: whatever spends an input of `tx` and is not `tx` goes, with its children. -/
def removeConflicts (pool : CTxMemPool) (tx : CTransaction) (removed : List CTransaction) :
    CTxMemPool × List CTransaction :=
  tx.vin.foldl (fun s txin =>
    match s.1.mapNextTx.lookup txin.prevout with
    | none => s
    | some it => if it.ptx.hash ≠ tx.hash then s.1.remove it.ptx s.2 true else s) (pool, removed)

/-- `removeForBlock`. -/
def removeForBlock (pool : CTxMemPool) (vtx : List CTransaction) (conflicts : List CTransaction) :
    CTxMemPool × List CTransaction :=
  vtx.foldl (fun s tx => (s.1.remove tx [] false).1.removeConflicts tx s.2) (pool, conflicts)

def clear (pool : CTxMemPool) : CTxMemPool :=
  { pool with
    mapTx := ∅
    mapNextTx := ∅
    totalTxSize := 0
    nTransactionsUpdated := (pool.nTransactionsUpdated + 1) % 2 ^ 32 }

/--
`AcceptToMemoryPool`, as far as the pool goes. `fAccept` is the outcome of all the other
checks: standardness, transaction locks, coins, fees and scripts.
-/
def acceptToMemoryPool (R : Rules) (P : CChainParams) (pool : CTxMemPool) (tx : CTransaction)
    (fAccept : Bool) : CTxMemPool × Bool :=
  match checkTransaction R P tx with
  | .error _ => (pool, false)
  | .ok _ =>
    if (pool.mapTx.lookup tx.hash).isSome then (pool, false)
    else if tx.vin.any fun txin => (pool.mapNextTx.lookup txin.prevout).isSome then (pool, false)
    else if !fAccept then (pool, false)
    else (pool.addUnchecked tx.hash { tx := tx, nTxSize := R.txSize tx }, true)

end CTxMemPool

inductive MempoolOp where
  | acceptToMemoryPool (tx : CTransaction) (fAccept : Bool)
  | remove (origTx : CTransaction) (fRecursive : Bool)
  | removeConflicts (tx : CTransaction)
  | removeForBlock (vtx : List CTransaction)
  | removeCoinbaseSpends (pcoins : CCoinsView) (nMemPoolHeight : Nat)
  | clear

/-- One operation, and the transactions it reports as removed. `none` is a failed assertion. -/
def CTxMemPool.step (R : Rules) (P : CChainParams) (pool : CTxMemPool) :
    MempoolOp → Option (CTxMemPool × List CTransaction)
  | .acceptToMemoryPool tx fAccept => some ((pool.acceptToMemoryPool R P tx fAccept).1, [])
  | .remove origTx fRecursive => some (pool.remove origTx [] fRecursive)
  | .removeConflicts tx => some (pool.removeConflicts tx [])
  | .removeForBlock vtx => some (pool.removeForBlock vtx [])
  | .removeCoinbaseSpends pcoins nMemPoolHeight =>
    match pool.removeCoinbaseSpends P pcoins nMemPoolHeight with
    | none => none
    | some pool => some (pool, [])
  | .clear => some (pool.clear, [])

end BitBlocks

/-!
## The three structures of the pool agree

`mapNextTx` is an exact index of the inputs of the transactions in `mapTx`, and
`totalTxSize` the sum of their sizes. Every operation is a series of single additions
and removals, and each of these keeps the invariant: an addition because
`AcceptToMemoryPool` refuses a transaction with an input that is already spent, a removal
because no other transaction of the pool shares an input with the one that leaves.
-/

namespace BitBlocks

namespace CTxMemPool

def txs (pool : CTxMemPool) : Set CTransaction :=
  { tx | ∃ hash entry, pool.mapTx.lookup hash = some entry ∧ entry.tx = tx }

/-- What `check()` asserts of the three structures. -/
structure Inv (pool : CTxMemPool) : Prop where
  keyed : ∀ hash entry, pool.mapTx.lookup hash = some entry → entry.tx.hash = hash
  next : Index.Exact pool.txs CTransaction.prevouts fun o tx i => pool.mapNextTx.lookup o =
    some ⟨tx, i⟩
  size : pool.totalTxSize = Table.total CTxMemPoolEntry.nTxSize pool.mapTx % 2 ^ 64

structure Indexed (pool : CTxMemPool) : Prop where
  keyed : ∀ hash entry, pool.mapTx.lookup hash = some entry → entry.tx.hash = hash
  next : Index.Exact pool.txs CTransaction.prevouts fun o tx i => pool.mapNextTx.lookup o =
    some ⟨tx, i⟩

variable {pool : CTxMemPool} {hash : Uint256} {entry : CTxMemPoolEntry}

theorem Inv.indexed (h : pool.Inv) : pool.Indexed := ⟨h.keyed, h.next⟩

theorem functional_mapNextTx (pool : CTxMemPool) :
    Index.Functional fun o tx i => pool.mapNextTx.lookup o = some ⟨tx, i⟩ := by
  intro o tx i tx' i' h h'
  have he := Option.some.inj (h.symm.trans h')
  simpa using he

theorem Inv.empty (fSanityCheck : Bool) : Inv { fSanityCheck := fSanityCheck } where
  keyed hash entry h := by simp at h
  next o tx i := by simp [txs]
  size := rfl

variable {pool' : CTxMemPool} {P : CChainParams} {R : Rules}

theorem txs_insert (h : pool.mapTx.lookup hash = none)
    (hmap : pool'.mapTx = pool.mapTx.insert hash entry) : pool'.txs = insert entry.tx pool.txs := by
  ext tx
  simp only [txs, Set.mem_ofPred_eq, Set.mem_insert_iff, hmap, Table.lookup_insert]
  constructor
  · intro ⟨k, e, he, htx⟩
    by_cases hk : k = hash
    · rw [if_pos hk] at he
      obtain rfl := Option.some.inj he
      exact Or.inl htx.symm
    · rw [if_neg hk] at he
      exact Or.inr ⟨k, e, he, htx⟩
  · intro htx
    rcases htx with rfl | ⟨k, e, he, htx⟩
    · exact ⟨hash, entry, if_pos rfl, rfl⟩
    · refine ⟨k, e, ?_, htx⟩
      rw [if_neg, he]
      intro hk
      rw [hk, h] at he
      simp at he

theorem txs_erase (hkeyed : ∀ k e, pool.mapTx.lookup k = some e → e.tx.hash = k)
    (h : pool.mapTx.lookup hash = some entry) (hmap : pool'.mapTx = pool.mapTx.erase hash) :
    pool'.txs = pool.txs \ {entry.tx} := by
  ext tx
  simp only [txs, Set.mem_ofPred_eq, Set.mem_sdiff, Set.mem_singleton_iff, hmap, Table.lookup_erase]
  constructor
  · intro ⟨k, e, he, htx⟩
    by_cases hk : k = hash
    · rw [if_pos hk] at he
      simp at he
    · rw [if_neg hk] at he
      refine ⟨⟨k, e, he, htx⟩, fun heq => hk ?_⟩
      rw [← hkeyed k e he, htx, heq, hkeyed hash entry h]
  · intro ⟨⟨k, e, he, htx⟩, hne⟩
    refine ⟨k, e, ?_, htx⟩
    rw [if_neg, he]
    intro hk
    subst hk
    rw [h] at he
    obtain rfl := Option.some.inj he
    exact hne htx.symm

/-! ## One addition -/

theorem mem_inPoints {tx : CTransaction} {o : COutPoint} {ip : CInPoint} :
    (o, ip) ∈ tx.vin.zipIdx.map (fun x => (x.1.prevout, CInPoint.mk tx x.2)) ↔
      ip.ptx = tx ∧ tx.prevouts[ip.n]? = some o := by
  obtain ⟨ptx, n⟩ := ip
  simp only [List.mem_map, Prod.exists, Prod.mk.injEq, CInPoint.mk.injEq,
    List.mk_mem_zipIdx_iff_getElem?,
    CTransaction.prevouts, List.getElem?_map, Option.map_eq_some_iff]
  constructor
  · intro ⟨txin, i, hi, ho, htx, hn⟩
    subst hn
    exact ⟨htx.symm, txin, hi, ho⟩
  · intro ⟨htx, txin, hi, ho⟩
    exact ⟨txin, n, hi, ho, htx.symm, rfl⟩

theorem map_fst_inPoints (tx : CTransaction) :
    (tx.vin.zipIdx.map (fun x => (x.1.prevout, CInPoint.mk tx x.2))).map Prod.fst =
    tx.prevouts := by
  rw [List.map_map]
  have hfst : (Prod.fst ∘ fun x : CTxIn × Nat => (x.1.prevout, CInPoint.mk tx x.2)) =
      CTxIn.prevout ∘ Prod.fst := rfl
  rw [hfst, ← List.map_map, List.zipIdx_map_fst]
  rfl

/-- **Adding a transaction** that is new, has no input twice and conflicts with nothing. -/
theorem Inv.addUnchecked (h : pool.Inv) (hnew : pool.mapTx.lookup entry.tx.hash = none)
    (hnodup : entry.tx.prevouts.Nodup)
    (hfree : ∀ o ∈ entry.tx.prevouts, pool.mapNextTx.lookup o = none) :
    (pool.addUnchecked entry.tx.hash entry).Inv where
  keyed k e he := by
    simp only [CTxMemPool.addUnchecked, Table.lookup_insert] at he
    by_cases hk : k = entry.tx.hash
    · rw [if_pos hk] at he
      obtain rfl := Option.some.inj he
      exact hk.symm
    · rw [if_neg hk] at he
      exact h.keyed k e he
  next := by
    have htxs : (pool.addUnchecked entry.tx.hash entry).txs = insert entry.tx pool.txs :=
      txs_insert hnew rfl
    rw [htxs]
    refine h.next.link ?_ ?_
    · intro o ho r' i hi
      rw [hfree o ho] at hi
      simp at hi
    · intro o tx i
      have hfst := map_fst_inPoints entry.tx
      simp only [CTxMemPool.addUnchecked]
      rw [Table.lookup_foldl_insert (by rw [hfst]; exact hnodup), mem_inPoints, hfst]
  size := by
    have hs := h.size
    have ht := Table.total_insert_of_new CTxMemPoolEntry.nTxSize hnew entry
    simp only [CTxMemPool.addUnchecked, ht, hs]
    omega

/-! ## One removal -/

theorem Indexed.eraseTx (h : pool.Indexed) (he : pool.mapTx.lookup hash = some entry) :
    (pool.eraseTx hash entry).Indexed where
  keyed k e hk := by
    simp only [CTxMemPool.eraseTx, Table.lookup_erase] at hk
    split at hk
    · simp at hk
    · exact h.keyed k e hk
  next := by
    have htxs : (pool.eraseTx hash entry).txs = pool.txs \ {entry.tx} := txs_erase h.keyed he rfl
    rw [htxs]
    refine h.next.unlink (functional_mapNextTx pool) ⟨hash, entry, he, rfl⟩ ?_
    intro o tx i
    simp only [CTxMemPool.eraseTx, Table.lookup_foldl_erase]
    by_cases ho : o ∈ entry.tx.prevouts
    · simp only [CTransaction.prevouts] at ho
      simp [ho, CTransaction.prevouts]
    · simp only [CTransaction.prevouts] at ho
      simp [ho, CTransaction.prevouts]

/-- **Removing a transaction**: its inputs, its size and its entry go together. -/
theorem Inv.eraseTx (h : pool.Inv) (he : pool.mapTx.lookup hash = some entry) :
    (pool.eraseTx hash entry).Inv where
  keyed := (h.indexed.eraseTx he).keyed
  next := (h.indexed.eraseTx he).next
  size := by
    have hs := h.size
    have ht := Table.total_erase CTxMemPoolEntry.nTxSize he
    simp only [CTxMemPool.eraseTx]
    omega

/-! ## The operations -/

/-- **The work queue**: whatever is queued, the pool stays in order. -/
theorem Inv.removeLoop (h : pool.Inv) (fRecursive : Bool) (txToRemove : List Uint256)
    (removed : List CTransaction) : (pool.removeLoop fRecursive txToRemove removed).1.Inv := by
  fun_induction CTxMemPool.removeLoop fRecursive pool txToRemove removed with
  | case1 pool removed => exact h
  | case2 pool removed hash txToRemove hl ih => exact ih h
  | case3 pool removed hash txToRemove entry hl ih => exact ih (h.eraseTx hl)

theorem Inv.remove (h : pool.Inv) (origTx : CTransaction) (removed : List CTransaction)
    (fRecursive : Bool) : (pool.remove origTx removed fRecursive).1.Inv :=
  h.removeLoop fRecursive _ removed

theorem Inv.removeConflicts (h : pool.Inv) (tx : CTransaction) (removed : List CTransaction) :
    (pool.removeConflicts tx removed).1.Inv := by
  unfold CTxMemPool.removeConflicts
  generalize tx.vin = vin
  induction vin generalizing pool removed with
  | nil => exact h
  | cons txin vin ih =>
    rw [List.foldl_cons]
    dsimp only
    cases pool.mapNextTx.lookup txin.prevout with
    | none => exact ih h removed
    | some it =>
      dsimp only
      split
      · exact ih (h.remove it.ptx removed true) _
      · exact ih h removed

theorem Inv.removeForBlock (h : pool.Inv) (vtx : List CTransaction)
    (conflicts : List CTransaction) : (pool.removeForBlock vtx conflicts).1.Inv := by
  unfold CTxMemPool.removeForBlock
  induction vtx generalizing pool conflicts with
  | nil => exact h
  | cons tx vtx ih =>
    rw [List.foldl_cons]
    exact ih ((h.remove tx [] false).removeConflicts tx conflicts) _

theorem Inv.removeAll (h : pool.Inv) (transactionsToRemove : List CTransaction) :
    (transactionsToRemove.foldl (fun pool tx => (pool.remove tx [] true).1) pool).Inv := by
  induction transactionsToRemove generalizing pool with
  | nil => exact h
  | cons tx rest ih => exact ih (h.remove tx [] true)

theorem Inv.removeCoinbaseSpends {pcoins : CCoinsView} {nMemPoolHeight : Nat} (h : pool.Inv)
    (hr : pool.removeCoinbaseSpends P pcoins nMemPoolHeight = some pool') : pool'.Inv := by
  unfold CTxMemPool.removeCoinbaseSpends at hr
  dsimp only at hr
  split at hr
  · simp at hr
  · obtain rfl := Option.some.inj hr
    exact h.removeAll _

theorem Inv.clear (pool : CTxMemPool) : pool.clear.Inv where
  keyed hash entry h := by simp [CTxMemPool.clear] at h
  next o tx i := by simp [CTxMemPool.clear, txs]
  size := rfl

theorem Inv.acceptToMemoryPool (h : pool.Inv) (tx : CTransaction) (fAccept : Bool) :
    (pool.acceptToMemoryPool R P tx fAccept).1.Inv := by
  unfold CTxMemPool.acceptToMemoryPool
  cases hc : checkTransaction R P tx with
  | error e => exact h
  | ok u =>
    dsimp only
    split
    · exact h
    split
    · exact h
    split
    · exact h
    rename_i hnew hfree _
    set entry : CTxMemPoolEntry := { tx := tx, nTxSize := R.txSize tx }
    have hadd : (pool.addUnchecked entry.tx.hash entry).Inv := by
      refine h.addUnchecked ?_ ?_ ?_
      · simpa using hnew
      · exact (checkTransaction_ok hc).distinct
      · intro o ho
        obtain ⟨txin, htxin, rfl⟩ := List.mem_map.mp ho
        simp only [List.any_eq_true, not_exists, not_and, Bool.not_eq_true] at hfree
        exact Option.isNone_iff_eq_none.mp (by simpa using hfree txin htxin)
    exact hadd

/-- **One operation.** -/
theorem Inv.step {op : MempoolOp} {removed : List CTransaction} (h : pool.Inv)
    (hs : pool.step R P op = some (pool', removed)) : pool'.Inv := by
  cases op with
  | acceptToMemoryPool tx fAccept =>
    obtain rfl := (Prod.mk.inj (Option.some.inj hs)).1
    exact h.acceptToMemoryPool tx fAccept
  | remove origTx fRecursive =>
    have hinv := h.remove origTx [] fRecursive
    rw [Option.some.inj hs] at hinv
    exact hinv
  | removeConflicts tx =>
    have hinv := h.removeConflicts tx []
    rw [Option.some.inj hs] at hinv
    exact hinv
  | removeForBlock vtx =>
    have hinv := h.removeForBlock vtx []
    rw [Option.some.inj hs] at hinv
    exact hinv
  | removeCoinbaseSpends pcoins nMemPoolHeight =>
    simp only [CTxMemPool.step] at hs
    cases hr : pool.removeCoinbaseSpends P pcoins nMemPoolHeight with
    | none =>
      rw [hr] at hs
      simp at hs
    | some p =>
      rw [hr] at hs
      obtain rfl := (Prod.mk.inj (Option.some.inj hs)).1
      exact h.removeCoinbaseSpends hr
  | clear =>
    obtain rfl := (Prod.mk.inj (Option.some.inj hs)).1
    exact Inv.clear pool

theorem Inv.run {fSanityCheck : Bool} {ops : List MempoolOp} {pool : CTxMemPool}
    {removed : List (List CTransaction)}
    (h : Machine.run (CTxMemPool.step R P) { fSanityCheck := fSanityCheck } ops =
      some (pool, removed)) : pool.Inv :=
  Machine.run_invariant (fun _ _ _ _ hp hs => hp.step hs) (Inv.empty fSanityCheck) h

/--
**The pool's index is exact.** After any sequence of operations, `mapNextTx` maps an
outpoint to an input iff the input is one of a transaction of `mapTx` and spends it; no
two inputs of the pool spend the same outpoint; and `totalTxSize` is the sum of the
entries' sizes, in 64 bits.
-/
theorem mapNextTx_exact {R : Rules} {P : CChainParams} {fSanityCheck : Bool}
    {ops : List MempoolOp} {pool : CTxMemPool} {removed : List (List CTransaction)}
    (h : Machine.run (CTxMemPool.step R P) { fSanityCheck := fSanityCheck } ops =
      some (pool, removed)) :
    (∀ o ip, pool.mapNextTx.lookup o = some ip ↔
      (∃ entry, pool.mapTx.lookup ip.ptx.hash = some entry ∧ entry.tx = ip.ptx) ∧
        (ip.ptx.vin.map CTxIn.prevout)[ip.n]? = some o) ∧
    (∀ hash hash' entry entry' (i i' : Nat) (o : COutPoint), pool.mapTx.lookup hash = some entry →
      pool.mapTx.lookup hash' = some entry' → (entry.tx.vin.map CTxIn.prevout)[i]? = some o →
      (entry'.tx.vin.map CTxIn.prevout)[i']? = some o → hash = hash' ∧ i = i') ∧
    pool.totalTxSize = Table.total CTxMemPoolEntry.nTxSize pool.mapTx % 2 ^ 64 ∧
    (Table.total CTxMemPoolEntry.nTxSize pool.mapTx < 2 ^ 64 →
      pool.totalTxSize = Table.total CTxMemPoolEntry.nTxSize pool.mapTx) := by
  have hinv := Inv.run h
  refine ⟨?_, ?_, hinv.size, ?_⟩
  · intro o ip
    have hn := hinv.next o ip.ptx ip.n
    dsimp only at hn
    rw [hn]
    refine and_congr_left fun _ => ?_
    constructor
    · intro ⟨hash, entry, he, htx⟩
      have hk := hinv.keyed hash entry he
      rw [htx] at hk
      subst hk
      exact ⟨entry, he, htx⟩
    · intro ⟨entry, he, htx⟩
      exact ⟨_, entry, he, htx⟩
  · intro hash hash' entry entry' i i' o he he' hi hi'
    obtain ⟨htx, hii⟩ := hinv.next.shared (functional_mapNextTx pool) ⟨hash, entry, he, rfl⟩
      ⟨hash', entry', he', rfl⟩ hi hi'
    refine ⟨?_, hii⟩
    rw [← hinv.keyed hash entry he, htx, hinv.keyed hash' entry' he']
  · intro hlt
    rw [hinv.size, Nat.mod_eq_of_lt hlt]

theorem removeLoop_found {fRecursive : Bool} {txToRemove : List Uint256}
    {removed : List CTransaction} (h : pool.mapTx.lookup hash = some entry) :
    pool.removeLoop fRecursive (hash :: txToRemove) removed =
      (pool.eraseTx hash entry).removeLoop fRecursive
        (txToRemove ++ if fRecursive then pool.spenders hash entry.tx.vout.length else [])
        (removed ++ [entry.tx]) := by
  rw [CTxMemPool.removeLoop]
  split
  · rename_i hnone
    cases hnone.symm.trans h
  · rename_i entry' hentry
    obtain rfl := Option.some.inj (hentry.symm.trans h)
    rfl

/-- A transaction and its child leave for one that spends the same output; a third one stays. -/
theorem mapNextTx_exact_of_two :
    let tx : CTransaction := ⟨7, 1, [⟨⟨5, 0⟩, [], 0⟩, ⟨⟨5, 1⟩, [], 0⟩], [⟨3, [], -10⟩], 0⟩
    let child : CTransaction := ⟨8, 1, [⟨⟨7, 0⟩, [], 0⟩], [⟨2, [], -10⟩], 0⟩
    let other : CTransaction := ⟨9, 1, [⟨⟨6, 0⟩, [], 0⟩], [⟨1, [], -10⟩], 0⟩
    let conflict : CTransaction := ⟨10, 1, [⟨⟨5, 1⟩, [], 0⟩], [⟨3, [], -10⟩], 0⟩
    let ops : List MempoolOp := [.acceptToMemoryPool tx true, .acceptToMemoryPool child true,
      .acceptToMemoryPool other true, .removeConflicts conflict]
    ∃ pool, Machine.run (CTxMemPool.step Rules.transparent mainParams) {} ops =
        some (pool, [[], [], [], [tx, child]]) ∧
      (∀ o ip, pool.mapNextTx.lookup o = some ip → ip.ptx = other) ∧
      pool.mapNextTx.lookup ⟨6, 0⟩ = some ⟨other, 0⟩ ∧
      pool.totalTxSize = Table.total CTxMemPoolEntry.nTxSize pool.mapTx := by
  intro tx child other conflict ops
  let size := Rules.transparent.txSize
  let full := ((({} : CTxMemPool).addUnchecked 7 ⟨tx, size tx⟩).addUnchecked 8
    ⟨child, size child⟩).addUnchecked 9 ⟨other, size other⟩
  let pool := (full.eraseTx 7 ⟨tx, size tx⟩).eraseTx 8 ⟨child, size child⟩
  have hremove : full.remove tx [] true = (pool, [tx, child]) := by
    have hfull : full.mapTx.lookup 7 = some ⟨tx, size tx⟩ := by decide
    have hchild : (full.eraseTx 7 ⟨tx, size tx⟩).mapTx.lookup 8 = some ⟨child, size child⟩ := by
      decide
    show full.removeLoop true [7] [] = _
    rw [removeLoop_found hfull]
    show (full.eraseTx 7 ⟨tx, size tx⟩).removeLoop true [8] [tx] = _
    rw [removeLoop_found hchild]
    show pool.removeLoop true [] [tx, child] = _
    rw [CTxMemPool.removeLoop]
  have hrun : Machine.run (CTxMemPool.step Rules.transparent mainParams) {} ops =
      some (pool, [[], [], [], [tx, child]]) := by
    show (some (full.remove tx [] true)).bind (fun r => some (r.1, [[], [], [], r.2])) = _
    rw [hremove]
    rfl
  obtain ⟨hnext, -, -, hsize⟩ := mapNextTx_exact hrun
  refine ⟨pool, hrun, fun o ip hip => ?_, ?_, hsize (by decide)⟩
  · obtain ⟨⟨entry, hentry, htx⟩, -⟩ := (hnext o ip).mp hip
    have hentries : pool.mapTx.entries = [⟨9, ⟨other, size other⟩⟩] := rfl
    have hmem := AList.mem_lookup_iff.mp hentry
    rw [hentries] at hmem
    obtain ⟨-, heq⟩ := Sigma.mk.inj (List.mem_singleton.mp hmem)
    rw [← htx, eq_of_heq heq]
  · exact (hnext ⟨6, 0⟩ ⟨other, 0⟩).mpr ⟨⟨⟨other, size other⟩, rfl, rfl⟩, rfl⟩

end CTxMemPool

end BitBlocks
