import BitBlocks.Lib.Index
import BitBlocks.Lib.Table
import BitBlocks.Node.Params

/-!
# Orphan transactions

`mapOrphanTransactions` and `mapOrphanTransactionsByPrev` (`main.cpp`): transactions
whose parents are missing, and for each parent the set of orphans that spend it. The
second map is kept by the operations on the first, and later read without checks when a
parent arrives.
-/

namespace BitBlocks

/-- `NodeId`. -/
abbrev NodeId := Int

structure COrphanTx where
  tx : CTransaction
  fromPeer : NodeId
deriving DecidableEq, Repr

structure OrphanPool where
  mapOrphanTransactions : AList (fun _ : Uint256 => COrphanTx) := ∅
  mapOrphanTransactionsByPrev : AList (fun _ : Uint256 => Finset Uint256) := ∅

/-- The transactions a transaction spends, one for each input. -/
def CTransaction.parents (tx : CTransaction) : List Uint256 :=
  tx.vin.map fun txin => txin.prevout.hash

namespace OrphanPool

/-- `mapOrphanTransactionsByPrev[prev].insert(hash)`. -/
def listUnder (hash : Uint256) (m : AList fun _ : Uint256 => Finset Uint256) (prev : Uint256) :
    AList fun _ : Uint256 => Finset Uint256 :=
  m.insert prev (insert hash ((m.lookup prev).getD ∅))

/-- One round of the loop of `EraseOrphanTx`: a set that becomes empty is erased. -/
def unlistUnder (hash : Uint256) (m : AList fun _ : Uint256 => Finset Uint256) (prev : Uint256) :
    AList fun _ : Uint256 => Finset Uint256 :=
  match m.lookup prev with
  | none => m
  | some itPrev =>
    if itPrev.erase hash = ∅ then m.erase prev else m.insert prev (itPrev.erase hash)

/-- `AddOrphanTx`. Big transactions are ignored. -/
def addOrphanTx (R : Rules) (s : OrphanPool) (tx : CTransaction) (peer : NodeId) :
    OrphanPool × Bool :=
  if (s.mapOrphanTransactions.lookup tx.hash).isSome then (s, false)
  else if R.txSize tx > 5000 then (s, false)
  else
    ({ mapOrphanTransactions :=
         s.mapOrphanTransactions.insert tx.hash { tx := tx, fromPeer := peer }
       mapOrphanTransactionsByPrev :=
         tx.parents.foldl (listUnder tx.hash) s.mapOrphanTransactionsByPrev }, true)

/-- `EraseOrphanTx`. -/
def eraseOrphanTx (s : OrphanPool) (hash : Uint256) : OrphanPool :=
  match s.mapOrphanTransactions.lookup hash with
  | none => s
  | some it =>
    { mapOrphanTransactions := s.mapOrphanTransactions.erase hash
      mapOrphanTransactionsByPrev :=
        it.tx.parents.foldl (unlistUnder hash) s.mapOrphanTransactionsByPrev }

/-- `EraseOrphansFor`: everything a peer sent. -/
def eraseOrphansFor (s : OrphanPool) (peer : NodeId) : OrphanPool :=
  s.mapOrphanTransactions.entries.foldl (fun s maybeErase =>
      if maybeErase.2.fromPeer = peer then s.eraseOrphanTx maybeErase.2.tx.hash else s) s

/-- `lower_bound` of a random key, or the first entry: none if there are no entries. -/
def victim (s : OrphanPool) (randomhash : Uint256) : Option Uint256 :=
  match (s.mapOrphanTransactions.keys.filter fun k => decide (randomhash ≤ k)).min? with
  | some hash => some hash
  | none => s.mapOrphanTransactions.keys.min?

def size (s : OrphanPool) : Nat := s.mapOrphanTransactions.entries.length

theorem size_eraseOrphanTx {s : OrphanPool} {hash : Uint256}
    (h : hash ∈ s.mapOrphanTransactions.keys) : (s.eraseOrphanTx hash).size + 1 = s.size := by
  have hsome : (s.mapOrphanTransactions.lookup hash).isSome = true := AList.lookup_isSome.mpr h
  obtain ⟨it, hit⟩ := Option.isSome_iff_exists.mp hsome
  rw [eraseOrphanTx, hit]
  exact Table.length_erase hsome

theorem mem_keys_of_victim {s : OrphanPool} {randomhash hash : Uint256}
    (h : s.victim randomhash = some hash) : hash ∈ s.mapOrphanTransactions.keys := by
  unfold victim at h
  split at h
  · rename_i k hk
    obtain rfl := Option.some.inj h
    exact List.mem_of_mem_filter (List.min?_mem hk)
  · exact List.min?_mem h

/-- The loop of `LimitOrphanTxSize`, drawing `GetRandHash` from `rand`. -/
def limitLoop (nMaxOrphans : Nat) (rand : Nat → Uint256) (s : OrphanPool) (nEvicted : Nat) :
    OrphanPool × Nat :=
  if s.size > nMaxOrphans then
    match _h : s.victim (rand nEvicted) with
    | none => (s, nEvicted)
    | some hash => limitLoop nMaxOrphans rand (s.eraseOrphanTx hash) (nEvicted + 1)
  else (s, nEvicted)
termination_by s.size
decreasing_by
  have := size_eraseOrphanTx (mem_keys_of_victim _h)
  omega

/-- `LimitOrphanTxSize`. -/
def limitOrphanTxSize (s : OrphanPool) (nMaxOrphans : Nat) (rand : Nat → Uint256) :
    OrphanPool × Nat :=
  limitLoop nMaxOrphans rand s 0

end OrphanPool

inductive OrphanOp where
  | addOrphanTx (tx : CTransaction) (peer : NodeId)
  | eraseOrphanTx (hash : Uint256)
  | eraseOrphansFor (peer : NodeId)
  | limitOrphanTxSize (nMaxOrphans : Nat) (rand : Nat → Uint256)

def OrphanPool.step (R : Rules) (s : OrphanPool) : OrphanOp → OrphanPool
  | .addOrphanTx tx peer => (s.addOrphanTx R tx peer).1
  | .eraseOrphanTx hash => s.eraseOrphanTx hash
  | .eraseOrphansFor peer => s.eraseOrphansFor peer
  | .limitOrphanTxSize nMaxOrphans rand => (s.limitOrphanTxSize nMaxOrphans rand).1

/-! ## The index is exact -/

namespace OrphanPool

def listed (m : AList fun _ : Uint256 => Finset Uint256) (prev : Uint256) : Finset Uint256 :=
  (m.lookup prev).getD ∅

/-- The orphans are keyed by txid, the index inverts them, and keeps no empty sets. -/
structure Inv (s : OrphanPool) : Prop where
  keyed : ∀ hash o, s.mapOrphanTransactions.lookup hash = some o → o.tx.hash = hash
  byPrev : Index.Inverse (fun hash => s.mapOrphanTransactions.lookup hash)
    (fun o => o.tx.parents) (listed s.mapOrphanTransactionsByPrev)
  nonempty : ∀ prev, s.mapOrphanTransactionsByPrev.lookup prev ≠ some ∅

variable {s : OrphanPool} {m : AList fun _ : Uint256 => Finset Uint256}

theorem Inv.empty : Inv {} where
  keyed hash o h := by simp at h
  byPrev o k := by simp [listed]
  nonempty prev := by simp

theorem listed_listUnder (hash prev p : Uint256) :
    listed (listUnder hash m prev) p =
    if p = prev then insert hash (listed m p) else listed m p := by
  rw [listed, listUnder, Table.lookup_insert]
  by_cases hp : p = prev
  · subst hp
    simp [listed]
  · rw [if_neg hp, if_neg hp, listed]

theorem listed_unlistUnder (hash prev p : Uint256) :
    listed (unlistUnder hash m prev) p =
    if p = prev then (listed m p).erase hash else listed m p := by
  rw [unlistUnder]
  cases hl : m.lookup prev with
  | none =>
    by_cases hp : p = prev
    · subst hp
      simp [listed, hl]
    · rw [if_neg hp]
  | some itPrev =>
    dsimp only
    by_cases hp : p = prev
    · subst hp
      rw [if_pos rfl, listed, listed, hl]
      split
      · rename_i hempty
        rw [AList.lookup_erase, Option.getD_none, Option.getD_some, hempty]
      · rw [AList.lookup_insert, Option.getD_some, Option.getD_some]
    · rw [if_neg hp, listed, listed]
      split
      · rw [AList.lookup_erase_ne hp]
      · rw [AList.lookup_insert_ne hp]

theorem listed_foldl_listUnder (hash : Uint256) (parents : List Uint256) (p : Uint256) :
    listed (parents.foldl (listUnder hash) m) p =
      if p ∈ parents then insert hash (listed m p) else listed m p := by
  induction parents generalizing m with
  | nil => simp
  | cons prev parents ih =>
    rw [List.foldl_cons, ih, listed_listUnder]
    by_cases hp : p = prev <;> by_cases hmem : p ∈ parents <;> simp [hp, hmem]

theorem listed_foldl_unlistUnder (hash : Uint256) (parents : List Uint256) (p : Uint256) :
    listed (parents.foldl (unlistUnder hash) m) p =
      if p ∈ parents then (listed m p).erase hash else listed m p := by
  induction parents generalizing m with
  | nil => simp
  | cons prev parents ih =>
    rw [List.foldl_cons, ih, listed_unlistUnder]
    by_cases hp : p = prev <;> by_cases hmem : p ∈ parents <;> simp [hp, hmem]

theorem listUnder_nonempty (hash prev : Uint256) (h : ∀ p, m.lookup p ≠ some ∅) (p : Uint256) :
    (listUnder hash m prev).lookup p ≠ some ∅ := by
  rw [listUnder, Table.lookup_insert]
  by_cases hp : p = prev
  · rw [if_pos hp]
    intro he
    exact Finset.insert_ne_empty _ _ (Option.some.inj he)
  · rw [if_neg hp]
    exact h p

theorem unlistUnder_nonempty (hash prev : Uint256) (h : ∀ p, m.lookup p ≠ some ∅) (p : Uint256) :
    (unlistUnder hash m prev).lookup p ≠ some ∅ := by
  rw [unlistUnder]
  cases m.lookup prev with
  | none => exact h p
  | some itPrev =>
    dsimp only
    split
    · rw [Table.lookup_erase]
      by_cases hp : p = prev
      · simp [hp]
      · rw [if_neg hp]
        exact h p
    · rename_i hne
      rw [Table.lookup_insert]
      by_cases hp : p = prev
      · rw [if_pos hp]
        intro he
        exact hne (Option.some.inj he)
      · rw [if_neg hp]
        exact h p

theorem foldl_nonempty {f : AList (fun _ : Uint256 => Finset Uint256) → Uint256 →
      AList fun _ : Uint256 => Finset Uint256}
    (hf : ∀ m prev, (∀ p, m.lookup p ≠ some ∅) → ∀ p, (f m prev).lookup p ≠ some ∅)
    (parents : List Uint256) (h : ∀ p, m.lookup p ≠ some ∅) (p : Uint256) :
    (parents.foldl f m).lookup p ≠ some ∅ := by
  induction parents generalizing m with
  | nil => exact h p
  | cons prev parents ih => exact ih (hf m prev h)

/-! ## The operations -/

theorem Inv.addOrphanTx (h : s.Inv) (R : Rules) (tx : CTransaction) (peer : NodeId) :
    (s.addOrphanTx R tx peer).1.Inv := by
  unfold OrphanPool.addOrphanTx
  split
  · exact h
  split
  · exact h
  rename_i hnew _
  refine ⟨?_, ?_, ?_⟩
  · intro hash o ho
    rw [Table.lookup_insert] at ho
    by_cases hk : hash = tx.hash
    · rw [if_pos hk] at ho
      obtain rfl := Option.some.inj ho
      exact hk.symm
    · rw [if_neg hk] at ho
      exact h.keyed hash o ho
  · refine h.byPrev.link (k := tx.hash) (v := { tx := tx, fromPeer := peer }) ?_ ?_ ?_
    · simpa using hnew
    · exact fun k' => Table.lookup_insert _ _ _ _
    · exact fun p => listed_foldl_listUnder _ _ _
  · exact foldl_nonempty (fun m prev hm => listUnder_nonempty tx.hash prev hm) _ h.nonempty

/-- **Erasing an orphan** takes it off the set of each of its parents. -/
theorem Inv.eraseOrphanTx (h : s.Inv) (hash : Uint256) : (s.eraseOrphanTx hash).Inv := by
  unfold OrphanPool.eraseOrphanTx
  cases hl : s.mapOrphanTransactions.lookup hash with
  | none => exact h
  | some it =>
    refine ⟨?_, ?_, ?_⟩
    · intro k o ho
      rw [Table.lookup_erase] at ho
      split at ho
      · simp at ho
      · exact h.keyed k o ho
    · refine h.byPrev.unlink (k := hash) (v := it) hl ?_ ?_
      · exact fun k' => Table.lookup_erase _ _ _
      · exact fun p => listed_foldl_unlistUnder _ _ _
    · exact foldl_nonempty (fun m prev hm => unlistUnder_nonempty hash prev hm) _ h.nonempty

theorem Inv.eraseOrphansFor (h : s.Inv) (peer : NodeId) : (s.eraseOrphansFor peer).Inv := by
  unfold OrphanPool.eraseOrphansFor
  generalize s.mapOrphanTransactions.entries = entries
  induction entries generalizing s with
  | nil => exact h
  | cons maybeErase entries ih =>
    rw [List.foldl_cons]
    split
    · exact ih (h.eraseOrphanTx _)
    · exact ih h

theorem Inv.limitLoop (h : s.Inv) (nMaxOrphans : Nat) (rand : Nat → Uint256) (nEvicted : Nat) :
    (limitLoop nMaxOrphans rand s nEvicted).1.Inv := by
  fun_induction OrphanPool.limitLoop nMaxOrphans rand s nEvicted with
  | case1 s nEvicted hgt hv => exact h
  | case2 s nEvicted hgt hash hv ih => exact ih (h.eraseOrphanTx hash)
  | case3 s nEvicted hle => exact h

theorem Inv.step {R : Rules} (h : s.Inv) (op : OrphanOp) : (s.step R op).Inv := by
  cases op with
  | addOrphanTx tx peer => exact h.addOrphanTx R tx peer
  | eraseOrphanTx hash => exact h.eraseOrphanTx hash
  | eraseOrphansFor peer => exact h.eraseOrphansFor peer
  | limitOrphanTxSize nMaxOrphans rand => exact h.limitLoop nMaxOrphans rand 0

theorem Inv.run (R : Rules) (ops : List OrphanOp) : (ops.foldl (OrphanPool.step R) {}).Inv := by
  induction ops using List.reverseRecOn with
  | nil => exact Inv.empty
  | append_singleton ops op ih =>
    rw [List.foldl_append]
    exact ih.step op

/-! ## Eviction -/

theorem victim_isSome (h : 0 < s.size) (randomhash : Uint256) : (s.victim randomhash).isSome := by
  unfold victim
  split
  · rfl
  · rw [Option.isSome_iff_ne_none, ne_eq, List.min?_eq_none_iff]
    intro hnil
    have hlen : s.mapOrphanTransactions.keys.length = s.size := List.length_map _
    rw [hnil] at hlen
    simp at hlen
    omega

/-- **The eviction loop** ends below the limit, and counts every orphan it evicts. -/
theorem limitLoop_spec (nMaxOrphans : Nat) (rand : Nat → Uint256) (nEvicted : Nat) :
    (limitLoop nMaxOrphans rand s nEvicted).1.size ≤ nMaxOrphans ∧
      (limitLoop nMaxOrphans rand s nEvicted).2 + (limitLoop nMaxOrphans rand s nEvicted).1.size =
        nEvicted + s.size := by
  fun_induction OrphanPool.limitLoop nMaxOrphans rand s nEvicted with
  | case1 s nEvicted hgt hv =>
    have hsome := victim_isSome (s := s) (by omega) (rand nEvicted)
    rw [hv] at hsome
    simp at hsome
  | case2 s nEvicted hgt hash hv ih =>
    have hsize := size_eraseOrphanTx (mem_keys_of_victim hv)
    exact ⟨ih.1, by omega⟩
  | case3 s nEvicted hle => exact ⟨Nat.not_lt.mp hle, rfl⟩

/--
**The orphan index is exact.** After any sequence of operations, an orphan is listed
under a transaction iff one of its inputs spends it, no set of the index is empty, and
limiting the orphans leaves no more than the limit and returns how many are gone.
-/
theorem orphansByPrev_exact (R : Rules) (ops : List OrphanOp) :
    let s := ops.foldl (OrphanPool.step R) {}
    (∀ hash p, hash ∈ (s.mapOrphanTransactionsByPrev.lookup p).getD ∅ ↔
      ∃ o, s.mapOrphanTransactions.lookup hash = some o ∧
        ∃ txin ∈ o.tx.vin, txin.prevout.hash = p) ∧
    (∀ p, s.mapOrphanTransactionsByPrev.lookup p ≠ some ∅) ∧
    ∀ nMaxOrphans rand, (s.limitOrphanTxSize nMaxOrphans rand).1.size ≤ nMaxOrphans ∧
      (s.limitOrphanTxSize nMaxOrphans rand).2 =
        s.size - (s.limitOrphanTxSize nMaxOrphans rand).1.size := by
  intro s
  have hinv := Inv.run R ops
  refine ⟨?_, hinv.nonempty, ?_⟩
  · intro hash p
    refine (hinv.byPrev p hash).trans ?_
    simp only [CTransaction.parents, List.mem_map]
    rfl
  · intro nMaxOrphans rand
    obtain ⟨hle, hcount⟩ := limitLoop_spec (s := s) nMaxOrphans rand 0
    refine ⟨hle, ?_⟩
    rw [limitOrphanTxSize]
    omega

end OrphanPool

end BitBlocks
