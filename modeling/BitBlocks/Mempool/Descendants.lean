import BitBlocks.Lib.Worklist
import BitBlocks.Mempool.TxMemPool

/-!
# Recursive removal

`remove` with `fRecursive` finds the children of a transaction in `mapNextTx`, and a
descendant is met as often as ways lead to it. What it takes from the pool is the
transaction and its descendants, each of them once.
-/

namespace BitBlocks

/-- An input of `tx` is an output of `parent`. -/
def CTransaction.childOf (tx parent : CTransaction) : Prop :=
  ∃ i < parent.vout.length, ⟨parent.hash, i⟩ ∈ tx.prevouts

namespace CTxMemPool

/-- The transaction with the id of `origTx`: the pool's, where it has one. -/
def known (pool : CTxMemPool) (origTx : CTransaction) : CTransaction :=
  match pool.mapTx.lookup origTx.hash with
  | some entry => entry.tx
  | none => origTx

/-- The transactions of the pool in the descendant closure of `origTx`. -/
inductive Descendant (pool : CTxMemPool) (origTx : CTransaction) : CTransaction → Prop
  | self (h : origTx ∈ pool.txs) : Descendant pool origTx origTx
  | child {tx : CTransaction} (h : tx ∈ pool.txs) (hs : tx.childOf origTx) :
    Descendant pool origTx tx
  | step {tx tx' : CTransaction} (hd : Descendant pool origTx tx) (h : tx' ∈ pool.txs)
      (hs : tx'.childOf tx) : Descendant pool origTx tx'

def hashes (pool : CTxMemPool) : Set Uint256 := { hash | ∃ tx ∈ pool.txs, tx.hash = hash }

/-- One transaction of the pool is a child of another, both told by their ids. -/
def HashChild (pool : CTxMemPool) (hash hash' : Uint256) : Prop :=
  ∃ tx ∈ pool.txs, ∃ tx' ∈ pool.txs, tx.hash = hash ∧ tx'.hash = hash' ∧ tx'.childOf tx

variable {pool : CTxMemPool} {hash : Uint256} {entry : CTxMemPoolEntry} {tx tx' : CTransaction}

theorem Descendant.mem {origTx : CTransaction} (h : pool.Descendant origTx tx) : tx ∈ pool.txs := by
  cases h with
  | self h => exact h
  | child h hs => exact h
  | step hd h hs => exact h

/-! ## Transactions and their ids -/

theorem mem_txs (he : pool.mapTx.lookup hash = some entry) : entry.tx ∈ pool.txs :=
  ⟨hash, entry, he, rfl⟩

/-- **An id names one transaction of the pool.** -/
theorem Indexed.inj (h : pool.Indexed) (htx : tx ∈ pool.txs) (htx' : tx' ∈ pool.txs)
    (hhash : tx.hash = tx'.hash) : tx = tx' := by
  obtain ⟨k, e, he, rfl⟩ := htx
  obtain ⟨k', e', he', rfl⟩ := htx'
  have hk := h.keyed k e he
  have hk' := h.keyed k' e' he'
  have hkk : k = k' := by rw [← hk, ← hk', hhash]
  subst hkk
  rw [Option.some.inj (he.symm.trans he')]

theorem Indexed.lookup (h : pool.Indexed) (htx : tx ∈ pool.txs) :
    ∃ entry, pool.mapTx.lookup tx.hash = some entry ∧ entry.tx = tx := by
  obtain ⟨k, e, he, rfl⟩ := htx
  rw [h.keyed k e he]
  exact ⟨e, he, rfl⟩

theorem Indexed.mem_hashes (h : pool.Indexed) :
    hash ∈ pool.hashes ↔ ∃ entry, pool.mapTx.lookup hash = some entry := by
  constructor
  · intro ⟨tx, htx, hhash⟩
    obtain ⟨entry, he, -⟩ := h.lookup htx
    rw [hhash] at he
    exact ⟨entry, he⟩
  · intro ⟨entry, he⟩
    exact ⟨entry.tx, mem_txs he, h.keyed hash entry he⟩

/-- **What `mapNextTx` gives for the outputs of a transaction**: the ids of those that spend one. -/
theorem Indexed.mem_spenders (h : pool.Indexed) (nOut : Nat) {hash' : Uint256} :
    hash' ∈ pool.spenders hash nOut ↔
      ∃ tx ∈ pool.txs, tx.hash = hash' ∧ ∃ i < nOut, ⟨hash, i⟩ ∈ tx.prevouts := by
  simp only [spenders, List.mem_filterMap, List.mem_range, Option.map_eq_some_iff]
  constructor
  · intro ⟨i, hi, it, hit, hhash⟩
    obtain ⟨htx, hget⟩ := (h.next ⟨hash, i⟩ it.ptx it.n).mp hit
    exact ⟨it.ptx, htx, hhash, i, hi, List.mem_of_getElem? hget⟩
  · intro ⟨tx, htx, hhash, i, hi, hmem⟩
    obtain ⟨n, hn⟩ := List.mem_iff_getElem?.mp hmem
    exact ⟨i, hi, ⟨tx, n⟩, (h.next ⟨hash, i⟩ tx n).mpr ⟨htx, hn⟩, hhash⟩

/-! ## The loop -/

/-- The loop over a pool that was `pool₀`: `gone` has left it, with its inputs. -/
structure Removing (pool₀ : CTxMemPool) (start : Set Uint256) (pool : CTxMemPool)
    (txToRemove : List Uint256) (gone : List CTransaction) : Prop where
  before : pool₀.Indexed
  indexed : pool.Indexed
  work : Worklist.Inv pool₀.HashChild start pool₀.hashes pool.hashes txToRemove
    (gone.map CTransaction.hash)
  mem : ∀ tx ∈ gone, tx ∈ pool₀.txs
  mapTx : ∀ hash entry, pool.mapTx.lookup hash = some entry ↔
    pool₀.mapTx.lookup hash = some entry ∧ entry.tx ∉ gone
  mapNextTx : ∀ o it, pool.mapNextTx.lookup o = some it ↔
    pool₀.mapNextTx.lookup o = some it ∧ it.ptx ∉ gone

variable {pool₀ : CTxMemPool} {start : Set Uint256} {txToRemove : List Uint256}
  {gone : List CTransaction}

theorem Removing.init (h : pool₀.Indexed)
    (hstart : ∀ k ∈ pool₀.hashes, k ∈ txToRemove ↔ k ∈ start) :
    Removing pool₀ start pool₀ txToRemove [] where
  before := h
  indexed := h
  work := .init hstart
  mem tx htx := absurd htx List.not_mem_nil
  mapTx k e := by simp
  mapNextTx o it := by simp

theorem Removing.subset (h : Removing pool₀ start pool txToRemove gone) (htx : tx ∈ pool.txs) :
    tx ∈ pool₀.txs := by
  obtain ⟨k, e, he, rfl⟩ := htx
  exact mem_txs ((h.mapTx k e).mp he).1

theorem Indexed.mapTx_eraseTx (h : pool.Indexed) (he : pool.mapTx.lookup hash = some entry)
    (k : Uint256) (e : CTxMemPoolEntry) : (pool.eraseTx hash entry).mapTx.lookup k = some e ↔
      pool.mapTx.lookup k = some e ∧ e.tx ≠ entry.tx := by
  simp only [CTxMemPool.eraseTx, Table.lookup_erase]
  by_cases hk : k = hash
  · subst hk
    rw [if_pos rfl, he]
    constructor
    · intro hnone
      simp at hnone
    · rintro ⟨hsome, hne⟩
      rw [Option.some.inj hsome] at hne
      exact absurd rfl hne
  · rw [if_neg hk]
    refine (and_iff_left_of_imp fun hke heq => hk ?_).symm
    rw [← h.keyed k e hke, heq, h.keyed hash entry he]

theorem Indexed.mapNextTx_eraseTx (h : pool.Indexed) (he : pool.mapTx.lookup hash = some entry)
    (o : COutPoint) (it : CInPoint) : (pool.eraseTx hash entry).mapNextTx.lookup o = some it ↔
      pool.mapNextTx.lookup o = some it ∧ it.ptx ≠ entry.tx := by
  have hbefore := h.next o it.ptx it.n
  have hafter := (h.eraseTx he).next o it.ptx it.n
  dsimp only at hbefore hafter
  rw [hafter, hbefore, txs_erase h.keyed he rfl, Set.mem_sdiff, Set.mem_singleton_iff,
    and_right_comm]

theorem Indexed.hashes_eraseTx (h : pool.Indexed) (he : pool.mapTx.lookup hash = some entry) :
    (pool.eraseTx hash entry).hashes = pool.hashes \ {hash} := by
  ext k
  rw [(h.eraseTx he).mem_hashes, Set.mem_sdiff, Set.mem_singleton_iff, h.mem_hashes]
  simp only [CTxMemPool.eraseTx, Table.lookup_erase]
  by_cases hk : k = hash
  · simp [hk]
  · simp [hk]

/-- **A transaction of the queue that is there goes, and its children are queued.** -/
theorem Removing.take (h : Removing pool₀ start pool (hash :: txToRemove) gone)
    (he : pool.mapTx.lookup hash = some entry) :
    Removing pool₀ start (pool.eraseTx hash entry)
      (txToRemove ++ pool.spenders hash entry.tx.vout.length) (gone ++ [entry.tx]) := by
  have hkey := h.indexed.keyed hash entry he
  have htx : entry.tx ∈ pool.txs := mem_txs he
  refine ⟨h.before, h.indexed.eraseTx he, ?_, fun tx hmem => ?_, fun k e => ?_, fun o it => ?_⟩
  · rw [List.map_append, List.map_singleton, hkey, h.indexed.hashes_eraseTx he]
    refine h.work.take (h.indexed.mem_hashes.mpr ⟨entry, he⟩) (fun y hy => ?_) fun y hy hxy => ?_
    · obtain ⟨tx, hmem, hhash, i, hi, hprev⟩ := (h.indexed.mem_spenders _).mp hy
      exact ⟨entry.tx, h.subset htx, tx, h.subset hmem, hkey, hhash, i, hi, by rwa [hkey]⟩
    · -- the child has not left the pool, and is the one the pool has under its id
      obtain ⟨p, hp, tx, htx0, hpkey, hhash, i, hi, hprev⟩ := hxy
      obtain ⟨tx', htx', hhash'⟩ := hy
      have hparent : p = entry.tx := h.before.inj hp (h.subset htx) (hpkey.trans hkey.symm)
      have hchild : tx' = tx := h.before.inj (h.subset htx') htx0 (hhash'.trans hhash.symm)
      subst hparent hchild
      exact (h.indexed.mem_spenders _).mpr ⟨tx', htx', hhash, i, hi, by rwa [hkey] at hprev⟩
  · rcases List.mem_append.mp hmem with hmem | hmem
    · exact h.mem tx hmem
    · rw [List.mem_singleton.mp hmem]
      exact h.subset htx
  · rw [h.indexed.mapTx_eraseTx he, h.mapTx, List.mem_append, List.mem_singleton, not_or, and_assoc]
  · rw [h.indexed.mapNextTx_eraseTx he, h.mapNextTx, List.mem_append, List.mem_singleton,
      not_or, and_assoc]

/-- **The queue is worked off**: nothing that was removed before is listed again. -/
theorem Removing.loop (h : Removing pool₀ start pool txToRemove gone)
    (removed : List CTransaction) :
    ∃ pool' gone', pool.removeLoop true txToRemove (removed ++ gone) = (pool', removed ++ gone') ∧
      Removing pool₀ start pool' [] gone' := by
  generalize hall : removed ++ gone = all
  fun_induction CTxMemPool.removeLoop true pool txToRemove all generalizing gone with
  | case1 pool all => exact ⟨pool, gone, by rw [hall], h⟩
  | case2 pool all hash txToRemove hl ih =>
    refine ih ⟨h.before, h.indexed, h.work.skip fun hmem => ?_, h.mem, h.mapTx, h.mapNextTx⟩ hall
    obtain ⟨entry, he⟩ := h.indexed.mem_hashes.mp hmem
    rw [hl] at he
    simp at he
  | case3 pool all hash txToRemove entry hl ih =>
    refine ih ((h.take hl)) ?_
    rw [← hall, List.append_assoc]

/-! ## What is removed -/

/-- The queue `remove` starts with. -/
def startQueue (pool : CTxMemPool) (origTx : CTransaction) : List Uint256 :=
  origTx.hash :: if (pool.mapTx.lookup origTx.hash).isNone then
    pool.spenders origTx.hash origTx.vout.length else []

variable {origTx : CTransaction}

theorem Indexed.hash_known (h : pool.Indexed) (origTx : CTransaction) :
    (pool.known origTx).hash = origTx.hash := by
  unfold CTxMemPool.known
  split
  · rename_i entry he
    exact h.keyed _ entry he
  · rfl

theorem Indexed.known_eq (h : pool.Indexed)
    (horig : origTx ∈ pool.txs ∨ pool.mapTx.lookup origTx.hash = none) :
      pool.known origTx = origTx := by
  unfold CTxMemPool.known
  rcases horig with hmem | hnone
  · obtain ⟨entry, he, htx⟩ := h.lookup hmem
    rw [he]
    exact htx
  · rw [hnone]

/-- **What the queue leads to are the descendants.** -/
theorem Indexed.reach_iff (h : pool.Indexed) (origTx : CTransaction) (k : Uint256) :
    Worklist.Reach pool.HashChild { k | k ∈ pool.startQueue origTx } pool.hashes k ↔
      ∃ tx, pool.Descendant (pool.known origTx) tx ∧ tx.hash = k := by
  constructor
  · intro hreach
    induction hreach with
    | start hstart hmem =>
      obtain ⟨tx, htx, hhash⟩ := hmem
      refine ⟨tx, ?_, hhash⟩
      rcases List.mem_cons.mp hstart with hself | hchild
      · obtain ⟨entry, he, hentry⟩ := h.lookup htx
        rw [hhash, hself] at he
        have hknown : pool.known origTx = tx := by
          rw [known, he]
          exact hentry
        rw [hknown]
        exact .self htx
      · split at hchild
        · rename_i hnone
          rw [h.known_eq (Or.inr (Option.isNone_iff_eq_none.mp hnone))]
          obtain ⟨tx', htx', hhash', hout⟩ := (h.mem_spenders _).mp hchild
          rw [h.inj htx htx' (hhash.trans hhash'.symm)]
          exact .child htx' hout
        · exact absurd hchild List.not_mem_nil
    | step _ hxy _ ih =>
      obtain ⟨p, hp, tx, htx, hpkey, hhash, hchild⟩ := hxy
      obtain ⟨p', hd, hpkey'⟩ := ih
      rw [h.inj hd.mem hp (hpkey'.trans hpkey.symm)] at hd
      exact ⟨tx, .step hd htx hchild, hhash⟩
  · rintro ⟨tx, hd, rfl⟩
    have hself : (pool.known origTx).hash ∈ pool.startQueue origTx := by
      rw [h.hash_known]
      exact List.mem_cons_self
    induction hd with
    | self hmem => exact .start hself ⟨_, hmem, rfl⟩
    | child htx hchild =>
      rename_i tx
      cases horig : pool.mapTx.lookup origTx.hash with
      | none =>
        rw [h.known_eq (Or.inr horig)] at hchild
        refine .start (List.mem_cons_of_mem _ ?_) ⟨tx, htx, rfl⟩
        rw [horig]
        exact (h.mem_spenders _).mpr ⟨tx, htx, rfl, hchild⟩
      | some entry =>
        have hmem : pool.known origTx ∈ pool.txs := by
          rw [known, horig]
          exact mem_txs horig
        exact .step (.start hself ⟨_, hmem, rfl⟩) ⟨_, hmem, tx, htx, rfl, rfl, hchild⟩
          ⟨tx, htx, rfl⟩
    | step hd' htx hchild ih =>
      exact .step ih ⟨_, hd'.mem, _, htx, rfl, rfl, hchild⟩ ⟨_, htx, rfl⟩

/--
**Recursive removal is exact.** From a pool whose maps agree, `remove` takes the
transaction and its descendants, and lists each of them once, after what was listed
before; every other entry of the two maps is what it was. The transaction is the one
that the pool has under its id, where it has one.
-/
theorem remove_exact (h : pool.Indexed) (origTx : CTransaction) (removed : List CTransaction) :
    (origTx ∈ pool.txs ∨ pool.mapTx.lookup origTx.hash = none → pool.known origTx = origTx) ∧
    ∃ gone, (pool.remove origTx removed true).2 = removed ++ gone ∧ gone.Nodup ∧
      (∀ tx, tx ∈ gone ↔ pool.Descendant (pool.known origTx) tx) ∧
      (∀ hash entry, (pool.remove origTx removed true).1.mapTx.lookup hash = some entry ↔
        pool.mapTx.lookup hash = some entry ∧ ¬ pool.Descendant (pool.known origTx) entry.tx) ∧
      ∀ o it, (pool.remove origTx removed true).1.mapNextTx.lookup o = some it ↔
        pool.mapNextTx.lookup o = some it ∧ ¬ pool.Descendant (pool.known origTx) it.ptx := by
  refine ⟨h.known_eq, ?_⟩
  have hinit : Removing pool { k | k ∈ pool.startQueue origTx } pool (pool.startQueue origTx) [] :=
    .init h fun k _ => Iff.rfl
  obtain ⟨pool', gone, hloop, hdone⟩ := hinit.loop removed
  rw [List.append_nil] at hloop
  have hremove : pool.remove origTx removed true = (pool', removed ++ gone) := by
    rw [← hloop, remove, startQueue, Bool.true_and]
  have hgone : ∀ tx, tx ∈ gone ↔ pool.Descendant (pool.known origTx) tx := by
    intro tx
    have hreach := (hdone.work.done tx.hash).trans (h.reach_iff origTx tx.hash)
    constructor
    · intro htx
      obtain ⟨tx', hd, hhash⟩ := hreach.mp (List.mem_map_of_mem htx)
      rwa [h.inj (hdone.mem tx htx) hd.mem hhash.symm]
    · intro hd
      obtain ⟨tx', htx', hhash⟩ := List.mem_map.mp (hreach.mpr ⟨tx, hd, rfl⟩)
      rwa [h.inj hd.mem (hdone.mem tx' htx') hhash.symm]
  rw [hremove]
  refine ⟨gone, rfl, List.Nodup.of_map _ hdone.work.nodup, hgone, fun k e => ?_, fun o it => ?_⟩
  · rw [hdone.mapTx, hgone]
  · rw [hdone.mapNextTx, hgone]

/-- Two children of a transaction that is not there, and a child of both; another one stays. -/
theorem remove_exact_of_diamond :
    let origTx : CTransaction := ⟨1, 1, [⟨⟨9, 0⟩, [], 0⟩], [⟨5, [], -10⟩, ⟨5, [], -10⟩], 0⟩
    let left : CTransaction := ⟨2, 1, [⟨⟨1, 0⟩, [], 0⟩], [⟨4, [], -10⟩], 0⟩
    let right : CTransaction := ⟨3, 1, [⟨⟨1, 1⟩, [], 0⟩], [⟨4, [], -10⟩], 0⟩
    let both : CTransaction := ⟨4, 1, [⟨⟨2, 0⟩, [], 0⟩, ⟨⟨3, 0⟩, [], 0⟩], [⟨7, [], -10⟩], 0⟩
    let other : CTransaction := ⟨6, 1, [⟨⟨8, 0⟩, [], 0⟩], [⟨7, [], -10⟩], 0⟩
    let pool := [left, right, both, other].foldl
      (fun pool tx => pool.addUnchecked tx.hash ⟨tx, 100⟩) ({} : CTxMemPool)
    ∃ gone, (pool.remove origTx [] true).2 = [] ++ gone ∧ gone.Nodup ∧
      (left ∈ gone ∧ right ∈ gone ∧ both ∈ gone) ∧
      (pool.remove origTx [] true).1.mapTx.lookup 4 = none ∧
      (pool.remove origTx [] true).1.mapTx.lookup 6 = some ⟨other, 100⟩ ∧
      (pool.remove origTx [] true).1.mapNextTx.lookup ⟨8, 0⟩ = some ⟨other, 0⟩ := by
  intro origTx left right both other pool
  let one := ({} : CTxMemPool).addUnchecked left.hash ⟨left, 100⟩
  let two := one.addUnchecked right.hash ⟨right, 100⟩
  let three := two.addUnchecked both.hash ⟨both, 100⟩
  have hone : one.Inv := (Inv.empty false).addUnchecked rfl (by decide) (by decide)
  have htwo : two.Inv := hone.addUnchecked rfl (by decide) (by decide)
  have hthree : three.Inv := htwo.addUnchecked rfl (by decide) (by decide)
  have hpool : pool.Inv := hthree.addUnchecked rfl (by decide) (by decide)
  obtain ⟨-, gone, hremoved, hnodup, hgone, hmapTx, hmapNextTx⟩ :=
    remove_exact hpool.indexed origTx []
  have hleft : pool.Descendant (pool.known origTx) left :=
    .child ⟨2, ⟨left, 100⟩, rfl, rfl⟩ ⟨0, by decide, by decide⟩
  have hright : pool.Descendant (pool.known origTx) right :=
    .child ⟨3, ⟨right, 100⟩, rfl, rfl⟩ ⟨1, by decide, by decide⟩
  have hboth : pool.Descendant (pool.known origTx) both :=
    .step hleft ⟨4, ⟨both, 100⟩, rfl, rfl⟩ ⟨0, by decide, by decide⟩
  have hother : ¬ pool.Descendant (pool.known origTx) other := by
    have hspent {tx : CTransaction} (hs : other.childOf tx) : tx.hash = 8 := by
      obtain ⟨n, -, hmem⟩ := hs
      exact congrArg COutPoint.hash (List.mem_singleton.mp hmem)
    intro hd
    generalize htx : other = tx at hd
    cases hd with
    | self => exact absurd htx (by decide)
    | child _ hs => exact absurd (hspent (htx ▸ hs)) (by decide)
    | step hd _ hs =>
      obtain ⟨hash, entry, hentry, hmem⟩ := hd.mem
      have hkey := hpool.keyed hash entry hentry
      rw [hmem, hspent (htx ▸ hs)] at hkey
      subst hkey
      cases hentry
  refine ⟨gone, hremoved, hnodup, ⟨(hgone left).mpr hleft, (hgone right).mpr hright,
    (hgone both).mpr hboth⟩, ?_, (hmapTx 6 ⟨other, 100⟩).mpr ⟨rfl, hother⟩,
    (hmapNextTx ⟨8, 0⟩ ⟨other, 0⟩).mpr ⟨rfl, hother⟩⟩
  by_contra hsome
  obtain ⟨entry, hentry⟩ := Option.ne_none_iff_exists'.mp hsome
  obtain ⟨hin, hnot⟩ := (hmapTx 4 entry).mp hentry
  obtain rfl : (⟨both, 100⟩ : CTxMemPoolEntry) = entry := Option.some.inj hin
  exact hnot hboth

end CTxMemPool

end BitBlocks
