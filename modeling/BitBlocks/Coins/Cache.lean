import BitBlocks.Lib.Table
import BitBlocks.Lib.Machine
import BitBlocks.Coins.View

/-!
# The stack of coin caches

Layers of `CCoinsViewCache` over a base view (`coins.cpp`). A layer keeps the entries
that were read or written through it, each with two flags: DIRTY, it may differ from the
view below, and FRESH, the view below has no entry or a pruned one. Reads fill the
layers, `Flush` hands the dirty entries to the view below, and a FRESH entry that was
pruned is dropped instead of written.

The rest of the development works on a flat `CCoinsView`. This file is the bridge: every
run of the stack is a run of a stack of plain maps, copied on push and overwriting the
parent on flush, as far as entries that are not pruned go, and no assertion fails.
-/

namespace BitBlocks

/-! ## Entries as the modifier leaves them -/

/-- Cleaned up: there are no empty slots at the end. -/
def CCoins.Tidy (c : CCoins) : Prop := c.cleanup = c

theorem CCoins.tidy_empty : CCoins.Tidy {} := rfl

theorem CCoins.tidy_cleanup (c : CCoins) : c.cleanup.Tidy := by
  have h := List.rdropWhile_idempotent CTxOut.isNull c.vout
  simp only [CCoins.Tidy, CCoins.cleanup, Trimmed.trim, h]

variable {c : CCoins} {db : CCoinsView}

theorem CCoins.Tidy.isEmpty_eq (h : c.Tidy) : c.vout.isEmpty = c.isPruned := by
  cases hp : c.isPruned with
  | true =>
    have hall : ∀ o ∈ c.vout, o.isNull = true := by
      simpa [CCoins.isPruned, List.all_eq_true] using hp
    have hnil : c.cleanup.vout = [] := Trimmed.trim_eq_nil.mpr hall
    rw [h] at hnil
    rw [hnil]
    rfl
  | false =>
    cases hv : c.vout with
    | nil => simp [CCoins.isPruned, hv] at hp
    | cons o os => rfl

/-- A pruned entry is identified with an absent one. -/
def present (r : Option CCoins) : Option CCoins := r.filter fun c => !c.isPruned

@[simp] theorem present_none : present none = none := rfl

theorem present_some (c : CCoins) :
    present (some c) = if c.isPruned then none else some c := by
  cases h : c.isPruned <;> simp [present, h]

theorem present_of_isPruned (h : c.isPruned = true) : present (some c) = none := by
  rw [present_some, if_pos h]

theorem present_of_not_isPruned (h : c.isPruned = false) : present (some c) = some c := by
  rw [present_some, if_neg (by simp [h])]

@[simp] theorem present_present (r : Option CCoins) : present (present r) = present r := by
  cases r with
  | none => rfl
  | some c => cases h : c.isPruned <;> simp [present_some, h]

/-! ## The code -/

/-- `CCoinsCacheEntry`, with its two flags. -/
structure CCoinsCacheEntry where
  coins : CCoins := {}
  /-- Potentially different from the version in the parent view. -/
  dirty : Bool := false
  /-- The parent view does not have this entry (or it is pruned). -/
  fresh : Bool := false
deriving DecidableEq, Repr

abbrev CCoinsMap := AList fun _ : Uint256 => CCoinsCacheEntry

/-- A cache layer, without the view it is backed by. -/
structure CCoinsViewCache where
  cacheCoins : CCoinsMap := ∅
  hasModifier : Bool := false

/--
A view that layers can be stacked on: what the stack calls of it, and the map it stands
for. A read may answer for a pruned entry or deny that there is one, and may change
hidden state. `batchWrite` is only called with a map whose unchanged entries are the
view's own.
-/
structure CCoinsViewBase (β : Type) where
  getCoins : β → Uint256 → Option CCoins × β
  batchWrite : β → CCoinsMap → β
  content : β → CCoinsView
  getCoins_tidy : ∀ b txid c, (getCoins b txid).1 = some c → c.Tidy
  getCoins_present : ∀ b txid, present (getCoins b txid).1 = content b txid
  getCoins_content : ∀ b txid, content (getCoins b txid).2 = content b
  batchWrite_content : ∀ b (mapCoins : CCoinsMap), (∀ txid e, mapCoins.lookup txid = some e →
      e.coins.Tidy ∧ (e.dirty = false → present (some e.coins) = content b txid)) →
    ∀ txid, content (batchWrite b mapCoins) txid =
      match mapCoins.lookup txid with
      | some e => present (some e.coins)
      | none => content b txid

/-- `BatchWriteCoins`, for the changed entries of the map. -/
def batchWriteCoins (db : CCoinsView) (mapCoins : CCoinsMap) : CCoinsView := fun txid =>
  match mapCoins.lookup txid with
  | some e =>
    if e.dirty then if e.coins.isPruned then none else some e.coins
    else db txid
  | none => db txid

/-- `GetCoins` of the database: entries are cleaned up when they are read in. -/
def readCoins (db : CCoinsView) (txid : Uint256) : Option CCoins := (db txid).map CCoins.cleanup

theorem readCoins_tidy {txid : Uint256} (h : readCoins db txid = some c) : c.Tidy := by
  obtain ⟨c', -, rfl⟩ := Option.map_eq_some_iff.mp h
  exact c'.tidy_cleanup

theorem readCoins_batchWriteCoins {mapCoins : CCoinsMap}
    (h : ∀ txid e, mapCoins.lookup txid = some e →
      e.coins.Tidy ∧ (e.dirty = false → present (some e.coins) = present (readCoins db txid)))
    (txid : Uint256) : present (readCoins (batchWriteCoins db mapCoins) txid) =
      match mapCoins.lookup txid with
      | some e => present (some e.coins)
      | none => present (readCoins db txid) := by
  unfold batchWriteCoins
  rw [readCoins]
  cases hl : mapCoins.lookup txid with
  | none => rfl
  | some e =>
    obtain ⟨htidy, hclean⟩ := h txid e hl
    dsimp only
    cases hd : e.dirty with
    | false => exact (hclean hd).symm
    | true =>
      cases hp : e.coins.isPruned with
      | true => rw [present_of_isPruned hp]; rfl
      | false =>
        rw [if_pos rfl, if_neg (by simp), Option.map_some]
        exact congrArg (fun c => present (some c)) htidy

/-- The coin database, as far as an entry is read back as it was written. -/
def coinsViewDB : CCoinsViewBase CCoinsView where
  getCoins db txid := (readCoins db txid, db)
  batchWrite := batchWriteCoins
  content db txid := present (readCoins db txid)
  getCoins_tidy _ _ _ := readCoins_tidy
  getCoins_present _ _ := rfl
  getCoins_content _ _ := rfl
  batchWrite_content _ _ := readCoins_batchWriteCoins

/-- The layers, each backed by the view below it. -/
inductive CoinsStack (β : Type) where
  | base (b : β)
  | cache (c : CCoinsViewCache) (below : CoinsStack β)

section code

variable {β : Type} (B : CCoinsViewBase β)

/--
`GetCoins`. On a layer it is `FetchCoins`, which fills the layer with what the view
below answers.
-/
def CoinsStack.getCoins : CoinsStack β → Uint256 → Option CCoins × CoinsStack β
  | .base b, txid =>
    let (r, b) := B.getCoins b txid
    (r, .base b)
  | .cache c below, txid =>
    match c.cacheCoins.lookup txid with
    | some e => (some e.coins, .cache c below)
    | none =>
      match below.getCoins txid with
      | (none, below) => (none, .cache c below)
      | (some tmp, below) =>
        let e : CCoinsCacheEntry := { coins := tmp, fresh := tmp.isPruned }
        (some tmp, .cache { c with cacheCoins := c.cacheCoins.insert txid e } below)

/-- The entry `ModifyCoins` finds or inserts, before it is marked dirty. -/
def CCoinsViewCache.entryFor (c : CCoinsViewCache) (below : CoinsStack β) (txid : Uint256) :
    CCoinsCacheEntry × CoinsStack β :=
  match c.cacheCoins.lookup txid with
  | some e => (e, below)
  | none =>
    match below.getCoins B txid with
    | (none, below) => ({ fresh := true }, below)
    | (some coins, below) => ({ coins := coins, fresh := coins.isPruned }, below)

/-- `ModifyCoins`, with the constructor of the modifier. `none` is a failed assertion. -/
def CCoinsViewCache.modifyCoins (c : CCoinsViewCache) (below : CoinsStack β) (txid : Uint256) :
    Option (CCoinsCacheEntry × CCoinsViewCache × CoinsStack β) :=
  if c.hasModifier then none
  else
    let (e, below) := c.entryFor B below txid
    let e := { e with dirty := true }
    some (e, { cacheCoins := c.cacheCoins.insert txid e, hasModifier := true }, below)

/-- `~CCoinsModifier`, with the entry as the caller leaves it. -/
def CCoinsViewCache.release (c : CCoinsViewCache) (txid : Uint256) (e : CCoinsCacheEntry) :
    Option CCoinsViewCache :=
  if !c.hasModifier then none
  else
    let e := { e with coins := e.coins.cleanup }
    if e.fresh && e.coins.isPruned then
      some { cacheCoins := c.cacheCoins.erase txid, hasModifier := false }
    else some { cacheCoins := c.cacheCoins.insert txid e, hasModifier := false }

/-- One round of `BatchWrite`. -/
def batchWriteEntry (cacheCoins : CCoinsMap) (x : Sigma fun _ : Uint256 => CCoinsCacheEntry) :
    Option CCoinsMap :=
  if x.2.dirty then
    match cacheCoins.lookup x.1 with
    | none =>
      if !x.2.coins.isPruned then
        -- if the grandparent did have it, we would have pulled it in at first GetCoins
        if x.2.fresh then
          some (cacheCoins.insert x.1 { coins := x.2.coins, dirty := true, fresh := true })
        else none
      else some cacheCoins
    | some itUs =>
      if itUs.fresh && x.2.coins.isPruned then some (cacheCoins.erase x.1)
      else some (cacheCoins.insert x.1 { itUs with coins := x.2.coins, dirty := true })
  else some cacheCoins

/-- `BatchWrite` of a layer. -/
def CCoinsViewCache.batchWrite (c : CCoinsViewCache) (mapCoins : CCoinsMap) :
    Option CCoinsViewCache :=
  if c.hasModifier then none
  else
    match mapCoins.entries.foldlM batchWriteEntry c.cacheCoins with
    | none => none
    | some cacheCoins => some { c with cacheCoins := cacheCoins }

/-- `BatchWrite` of whatever view is below. -/
def CoinsStack.batchWrite : CoinsStack β → CCoinsMap → Option (CoinsStack β)
  | .base b, mapCoins => some (.base (B.batchWrite b mapCoins))
  | .cache c below, mapCoins =>
    match c.batchWrite mapCoins with
    | none => none
    | some c => some (.cache c below)

/-- `Flush`. -/
def CCoinsViewCache.flush (c : CCoinsViewCache) (below : CoinsStack β) :
    Option (CCoinsViewCache × CoinsStack β) :=
  match below.batchWrite B c.cacheCoins with
  | none => none
  | some below => some ({ c with cacheCoins := ∅ }, below)

/-- What is done to a stack, at its top. -/
inductive CoinsOp where
  | getCoins (txid : Uint256)
  | haveCoins (txid : Uint256)
  | accessCoins (txid : Uint256)
  /-- `ModifyCoins`, any change to the entry, and the end of the modifier. -/
  | modifyCoins (txid : Uint256) (change : CCoins → CCoins)
  | flush
  /-- A new layer on top. -/
  | push
  /-- The destructor of the top layer. -/
  | drop

inductive CoinsAnswer where
  | coins (r : Option CCoins)
  | have (b : Bool)
  /-- The entry the modifier hands out. -/
  | entry (coins : CCoins)
  | done
  /-- There is no layer to call it on. -/
  | idle

/-- One operation on a stack. `none` is a failed assertion. -/
def CoinsStack.step : CoinsStack β → CoinsOp → Option (CoinsStack β × CoinsAnswer)
  | s, .push => some (.cache {} s, .done)
  | .base b, _ => some (.base b, .idle)
  | .cache c below, .getCoins txid =>
    let (r, s) := (CoinsStack.cache c below).getCoins B txid
    some (s, .coins r)
  | .cache c below, .haveCoins txid =>
    let (r, s) := (CoinsStack.cache c below).getCoins B txid
    -- `vout.empty()` stands in for `IsPruned`
    some (s, .have (r.any fun coins => !coins.vout.isEmpty))
  | .cache c below, .accessCoins txid =>
    let (r, s) := (CoinsStack.cache c below).getCoins B txid
    some (s, .coins r)
  | .cache c below, .modifyCoins txid change =>
    match c.modifyCoins B below txid with
    | none => none
    | some (e, c, below) =>
      match c.release txid { e with coins := change e.coins } with
      | none => none
      | some c => some (.cache c below, .entry e.coins)
  | .cache c below, .flush =>
    match c.flush B below with
    | none => none
    | some (c, below) => some (.cache c below, .done)
  | .cache c below, .drop => if c.hasModifier then none else some (below, .done)

end code

/-! ## A stack of plain maps -/

/--
The same operations on a list of maps, the top first and the base view's map last. Each
read has to return what the map holds, and so has `ModifyCoins`, which writes what the
caller made of the entry it was handed: the map's own, unless it is pruned, where the
layers may have kept some of its metadata and the map need not.
-/
def plainStep : List CCoinsView → CoinsOp → CoinsAnswer → Option (List CCoinsView)
  | m :: ms, .push, .done => some (m :: m :: ms)
  | _, .push, _ => none
  | [m], _, .idle => some [m]
  | m :: p :: ms, .getCoins txid, .coins r =>
    if present r = present (m txid) then some (m :: p :: ms) else none
  | m :: p :: ms, .haveCoins txid, .have b =>
    if b = (present (m txid)).isSome then some (m :: p :: ms) else none
  | m :: p :: ms, .accessCoins txid, .coins r =>
    if present r = present (m txid) then some (m :: p :: ms) else none
  | m :: p :: ms, .modifyCoins txid change, .entry coins =>
    if present (some coins) = present (m txid) then
      some ((m.modify txid fun _ => change coins) :: p :: ms)
    else none
  | m :: _ :: ms, .flush, .done => some (m :: m :: ms)
  | _ :: p :: ms, .drop, .done => some (p :: ms)
  | _, _, _ => none

/-! ## The maps alone -/

/-- What an operation makes of the maps, and what they answer: pruned entries are never told. -/
def mapsStep : List CCoinsView → CoinsOp → List CCoinsView × CoinsAnswer
  | m :: ms, .push => (m :: m :: ms, .done)
  | m :: p :: ms, .getCoins txid => (m :: p :: ms, .coins (present (m txid)))
  | m :: p :: ms, .haveCoins txid => (m :: p :: ms, .have (present (m txid)).isSome)
  | m :: p :: ms, .accessCoins txid => (m :: p :: ms, .coins (present (m txid)))
  | m :: p :: ms, .modifyCoins txid change =>
    (m.modify txid change :: p :: ms, .coins (present (m txid)))
  | m :: _ :: ms, .flush => (m :: m :: ms, .done)
  | _ :: p :: ms, .drop => (p :: ms, .done)
  | ms, _ => (ms, .idle)

/-- An answer with pruned entries taken for absent ones. -/
def CoinsAnswer.flat : CoinsAnswer → CoinsAnswer
  | .coins r => .coins (present r)
  | .entry c => .coins (present (some c))
  | a => a

/-- The change makes the same of all pruned entries. -/
def CoinsOp.Alike : CoinsOp → Prop
  | .modifyCoins _ change => ∀ c c' : CCoins, c.isPruned = true → c'.isPruned = true →
      present (some (change c).cleanup) = present (some (change c').cleanup)
  | _ => True

end BitBlocks
