import BitBlocks.Coins.Cache

/-!
# The cache stack is a stack of maps

The invariant says what the two flags of an entry are worth: an entry that is not dirty
is what the view below holds, a fresh one is over nothing, and one that is not fresh has
an entry to be written to in the layer below. Reads only ever add entries, so they keep
what the flags of the layers above say; `BatchWrite` changes one key of the parent a
round, and is followed key by key.
-/

namespace BitBlocks

section stack

variable {β : Type} (B : CCoinsViewBase β)

/-- A layer's entry hides what is below. -/
def overlay (r : Option CCoinsCacheEntry) (v : Option CCoins) : Option CCoins :=
  match r with
  | some e => present (some e.coins)
  | none => v

@[simp] theorem overlay_none (v : Option CCoins) : overlay none v = v := rfl

@[simp] theorem overlay_some (e : CCoinsCacheEntry) (v : Option CCoins) :
    overlay (some e) v = present (some e.coins) := rfl

/-- The map a stack stands for: the uppermost entry, if it is not pruned. -/
def CoinsStack.value : CoinsStack β → CCoinsView
  | .base b, txid => B.content b txid
  | .cache c below, txid => overlay (c.cacheCoins.lookup txid) (below.value txid)

/-- The maps the layers stand for, top first. -/
def CoinsStack.values : CoinsStack β → List CCoinsView
  | .base b => [(CoinsStack.base b).value B]
  | .cache c below => (CoinsStack.cache c below).value B :: below.values

/-- `BatchWrite` finds an entry to write to; the base view needs none. -/
def CoinsStack.Holds : CoinsStack β → Uint256 → Prop
  | .base _, _ => True
  | .cache c _, txid => (c.cacheCoins.lookup txid).isSome = true

/-- What the flags of an entry say, over a view that has `v` and may hold an entry. -/
structure EntryOk (v : Option CCoins) (held : Prop) (e : CCoinsCacheEntry) : Prop where
  tidy : e.coins.Tidy
  clean : e.dirty = false → present (some e.coins) = v
  fresh : e.fresh = true → v = none
  held : e.fresh = false → held

/-- No modifier is out, and every flag of every layer is right. -/
def CoinsStack.Inv : CoinsStack β → Prop
  | .base _ => True
  | .cache c below =>
    c.hasModifier = false ∧ (∀ txid e, c.cacheCoins.lookup txid = some e →
        EntryOk (below.value B txid) (below.Holds txid) e) ∧
      below.Inv

variable {B} {s s' below : CoinsStack β} {c : CCoinsViewCache} {txid : Uint256}

variable {e : CCoinsCacheEntry} {k : Uint256}

theorem EntryOk.mono {v : Option CCoins} {held held' : Prop} (h : EntryOk v held e)
    (hh : held → held') : EntryOk v held' e :=
  ⟨h.tidy, h.clean, h.fresh, fun hf => hh (h.held hf)⟩

theorem present_value (s : CoinsStack β) (txid : Uint256) :
    present (s.value B txid) = s.value B txid := by
  induction s with
  | base b =>
    rw [CoinsStack.value, ← B.getCoins_present, present_present]
  | cache c below ih =>
    rw [CoinsStack.value]
    cases c.cacheCoins.lookup txid with
    | none => exact ih
    | some e => exact present_present _

theorem values_eq_cons (s : CoinsStack β) : s.values B = s.value B :: (s.values B).tail := by
  cases s <;> rfl

/-! ## Reads -/

variable (B) in
/-- A view that has only been filled: the same maps, and no entry less. -/
structure Filled (s s' : CoinsStack β) : Prop where
  values : s'.values B = s.values B
  inv : s'.Inv B
  mono : ∀ k, s.Holds k → s'.Holds k

variable (B) in
/-- What a read answers, and what it leaves alone while it fills the layers. -/
structure Fetched (s : CoinsStack β) (txid : Uint256) (r : Option CCoins) (s' : CoinsStack β) :
    Prop extends Filled B s s' where
  tidy : ∀ coins, r = some coins → coins.Tidy
  answer : present r = s.value B txid
  /-- An entry that was found is now in the layer that was asked. -/
  holds : r.isSome = true → s'.Holds txid

theorem Filled.refl (hs : s.Inv B) : Filled B s s := ⟨rfl, hs, fun _ h => h⟩

theorem Filled.value (h : Filled B s s') : s'.value B = s.value B := by
  have hv := h.values
  rw [values_eq_cons s, values_eq_cons s'] at hv
  exact (List.cons.inj hv).1

theorem Filled.entryOk (h : Filled B s s') (he : EntryOk (s.value B k) (s.Holds k) e) :
    EntryOk (s'.value B k) (s'.Holds k) e := by
  rw [h.value]
  exact he.mono (h.mono k)

theorem value_of_lookup_none (h : c.cacheCoins.lookup txid = none) :
    (CoinsStack.cache c below).value B txid = below.value B txid := by
  rw [CoinsStack.value, h, overlay_none]

theorem value_of_lookup_some (h : c.cacheCoins.lookup txid = some e) :
    (CoinsStack.cache c below).value B txid = present (some e.coins) := by
  rw [CoinsStack.value, h, overlay_some]

theorem value_congr {c' : CCoinsViewCache} {below' : CoinsStack β}
    (hc : c'.cacheCoins.lookup k = c.cacheCoins.lookup k) (hb : below'.value B = below.value B) :
    (CoinsStack.cache c' below').value B k = (CoinsStack.cache c below).value B k := by
  rw [CoinsStack.value, CoinsStack.value, hc, hb]

/-- What was read from the view below may be cached, as fresh if it is pruned. -/
theorem Fetched.entryOk_fetched {coins : CCoins} (h : Fetched B s txid (some coins) s')
    (dirty : Bool) :
    EntryOk (s'.value B txid) (s'.Holds txid)
      { coins := coins, dirty := dirty, fresh := coins.isPruned } where
  tidy := h.tidy coins rfl
  clean _ := by rw [h.answer, h.value]
  fresh hp := by rw [h.value, ← h.answer, present_of_isPruned hp]
  held _ := h.holds rfl

/-- **Reads.** The answer is right, and only cached entries have been added. -/
theorem getCoins_fetched (hs : s.Inv B) (txid : Uint256) :
    Fetched B s txid (s.getCoins B txid).1 (s.getCoins B txid).2 := by
  induction s with
  | base b =>
    refine ⟨⟨?_, trivial, fun _ _ => trivial⟩, fun coins h => B.getCoins_tidy b txid coins h,
      B.getCoins_present b txid, fun _ => trivial⟩
    have hc := B.getCoins_content b txid
    simp only [CoinsStack.getCoins, CoinsStack.values]
    congr 1
  | cache c below ih =>
    obtain ⟨hm, hok, hbelow⟩ := hs
    have hf := ih hbelow
    rw [CoinsStack.getCoins]
    cases hl : c.cacheCoins.lookup txid with
    | some e =>
      -- a hit changes nothing
      refine ⟨Filled.refl ⟨hm, hok, hbelow⟩, ?_, (value_of_lookup_some hl).symm, ?_⟩
      · intro coins h
        obtain rfl := Option.some.inj h
        exact (hok txid e hl).tidy
      · intro _
        simp [CoinsStack.Holds, hl]
    | none =>
      generalize below.getCoins B txid = p at hf
      obtain ⟨r, below'⟩ := p
      dsimp only at hf ⊢
      have hok' : ∀ k e, c.cacheCoins.lookup k = some e →
          EntryOk (below'.value B k) (below'.Holds k) e :=
        fun k e he => hf.entryOk (hok k e he)
      cases r with
      | none =>
        refine ⟨⟨?_, ⟨hm, hok', hf.inv⟩, fun _ h => h⟩, by simp, ?_, by simp⟩
        · rw [CoinsStack.values, CoinsStack.values, hf.values]
          congr 1
          funext k
          exact value_congr rfl hf.value
        · rw [value_of_lookup_none hl]
          exact hf.answer
      | some tmp =>
        -- what the view below has is cached, so this layer reads as it did
        have hlook := Table.lookup_insert c.cacheCoins txid
        refine ⟨⟨?_, ⟨hm, ?_, hf.inv⟩, ?_⟩, hf.tidy, ?_, ?_⟩
        · rw [CoinsStack.values, CoinsStack.values, hf.values]
          congr 1
          funext k
          by_cases hk : k = txid
          · subst hk
            rw [value_of_lookup_none hl, CoinsStack.value, AList.lookup_insert]
            exact hf.answer
          · exact value_congr (by rw [hlook, if_neg hk]) hf.value
        · intro k e he
          rw [hlook] at he
          by_cases hk : k = txid
          · rw [if_pos hk] at he
            obtain rfl := Option.some.inj he
            subst hk
            exact hf.entryOk_fetched false
          · rw [if_neg hk] at he
            exact hok' k e he
        · intro k hk
          simp only [CoinsStack.Holds, hlook] at hk ⊢
          split
          · rfl
          · exact hk
        · rw [value_of_lookup_none hl]
          exact hf.answer
        · intro _
          simp [CoinsStack.Holds]

/-! ## `ModifyCoins` -/

theorem entryFor_spec (hs : (CoinsStack.cache c below).Inv B) (txid : Uint256) :
    let (e, below') := c.entryFor B below txid
    Filled B below below' ∧ EntryOk (below'.value B txid) (below'.Holds txid) e ∧
      present (some e.coins) = (CoinsStack.cache c below).value B txid := by
  obtain ⟨-, hok, hbelow⟩ := hs
  have hf := getCoins_fetched hbelow txid
  rw [CCoinsViewCache.entryFor]
  cases hl : c.cacheCoins.lookup txid with
  | some e => exact ⟨Filled.refl hbelow, hok txid e hl, (value_of_lookup_some hl).symm⟩
  | none =>
    rw [value_of_lookup_none hl]
    generalize below.getCoins B txid = p at hf
    obtain ⟨r, below'⟩ := p
    dsimp only at hf ⊢
    have hans := hf.answer
    cases r with
    | none =>
      refine ⟨hf.toFilled, ⟨CCoins.tidy_empty, fun _ => ?_, fun _ => ?_, by simp⟩, ?_⟩
      · rw [hf.value, ← hans]; rfl
      · rw [hf.value, ← hans]; rfl
      · rw [← hans]; rfl
    | some coins => exact ⟨hf.toFilled, hf.entryOk_fetched false, hans⟩

/-- What the end of a modifier stores: nothing, if the entry is fresh and was pruned. -/
theorem release_spec (hm : c.hasModifier = true) (txid : Uint256) (e : CCoinsCacheEntry) :
    ∃ c', c.release txid e = some c' ∧ c'.hasModifier = false ∧ ∀ k, c'.cacheCoins.lookup k =
        if k = txid then
          if e.fresh && e.coins.cleanup.isPruned then none
          else some { e with coins := e.coins.cleanup }
        else c.cacheCoins.lookup k := by
  rw [CCoinsViewCache.release, if_neg (by simp [hm])]
  dsimp only
  split
  · exact ⟨_, rfl, rfl, fun k => Table.lookup_erase _ _ _⟩
  · exact ⟨_, rfl, rfl, fun k => Table.lookup_insert _ _ _ _⟩

/-- **`ModifyCoins` and the end of the modifier**: one entry written, the flags right. -/
theorem modifyCoins_spec (hs : (CoinsStack.cache c below).Inv B) (txid : Uint256)
    (change : CCoins → CCoins) :
    ∃ e cm c' below', c.modifyCoins B below txid = some (e, cm, below') ∧
      cm.release txid { e with coins := change e.coins } = some c' ∧
      present (some e.coins) = (CoinsStack.cache c below).value B txid ∧
      (CoinsStack.cache c' below').Inv B ∧
      (CoinsStack.cache c' below').values B =
        (fun k => if k = txid then present (some (change e.coins).cleanup)
          else (CoinsStack.cache c below).value B k) :: below.values B := by
  have hfor := entryFor_spec hs txid
  obtain ⟨hm, hok, -⟩ := hs
  rw [CCoinsViewCache.modifyCoins, if_neg (by simp [hm])]
  generalize c.entryFor B below txid = p at hfor
  obtain ⟨e, below'⟩ := p
  obtain ⟨hfill, heok, hans⟩ := hfor
  dsimp only
  obtain ⟨c', hrel, hm', hlook⟩ := release_spec
    (c := { cacheCoins := c.cacheCoins.insert txid { e with dirty := true }, hasModifier := true })
    rfl txid { e with coins := change e.coins, dirty := true }
  have hother : ∀ k, k ≠ txid → c'.cacheCoins.lookup k = c.cacheCoins.lookup k := by
    intro k hk
    rw [hlook, if_neg hk, AList.lookup_insert_ne hk]
  have hself := hlook txid
  rw [if_pos rfl] at hself
  refine ⟨_, _, c', below', rfl, hrel, hans, ⟨hm', ?_, hfill.inv⟩, ?_⟩
  · intro k e' he'
    by_cases hk : k = txid
    · subst hk
      rw [hself] at he'
      split at he'
      · simp at he'
      · obtain rfl := Option.some.inj he'
        exact ⟨CCoins.tidy_cleanup _, by simp, heok.fresh, heok.held⟩
    · rw [hother k hk] at he'
      exact hfill.entryOk (hok k e' he')
  · rw [CoinsStack.values, hfill.values]
    congr 1
    funext k
    by_cases hk : k = txid
    · subst hk
      rw [if_pos rfl, CoinsStack.value, hself]
      split
      · -- dropped: the view below has nothing, and nothing was left
        rename_i hdrop
        obtain ⟨hfresh, hpruned⟩ := Bool.and_eq_true_iff.mp hdrop
        rw [overlay_none, heok.fresh hfresh, present_of_isPruned hpruned]
      · rfl
    · rw [if_neg hk]
      exact value_congr (hother k hk) hfill.value

/-! ## `BatchWrite` -/

/-- One round: the child's entry is written over the parent's, whatever their flags. -/
theorem batchWriteEntry_round (v : CCoinsView) (held : Uint256 → Prop) :
    Table.Round (fun (us : CCoinsMap) k => us.lookup k) batchWriteEntry
      (fun x r => EntryOk (overlay r (v x.1)) (r.isSome = true) x.2 ∧
        ∀ e, r = some e → EntryOk (v x.1) (held x.1) e)
      (fun x _ r' => overlay r' (v x.1) = present (some x.2.coins) ∧
        ∀ e, r' = some e → EntryOk (v x.1) (held x.1) e) := by
  intro us x hpre
  obtain ⟨hx, hus⟩ := hpre
  obtain ⟨k, e⟩ := x
  dsimp only at hx hus ⊢
  rw [batchWriteEntry]
  dsimp only
  cases hd : e.dirty with
  | false =>
    rw [if_neg (by simp)]
    exact ⟨us, rfl, ⟨(hx.clean hd).symm, hus⟩, fun _ _ => rfl⟩
  | true =>
    rw [if_pos rfl]
    cases hl : us.lookup k with
    | none =>
      rw [hl] at hx
      -- an entry the parent does not hold was fetched from nothing
      have hf : e.fresh = true := by
        by_contra hf
        have := hx.held (Bool.not_eq_true _ ▸ hf)
        simp at this
      have hv : v k = none := by simpa using hx.fresh hf
      dsimp only
      cases hp : e.coins.isPruned with
      | true =>
        refine ⟨us, by simp, ⟨?_, by simp [hl]⟩, fun _ _ => rfl⟩
        rw [hl, overlay_none, hv, present_of_isPruned hp]
      | false =>
        refine ⟨_, by simp [hf]; rfl, ⟨?_, ?_⟩, ?_⟩
        · rw [AList.lookup_insert, overlay_some]
        · intro e' he'
          rw [AList.lookup_insert] at he'
          obtain rfl := Option.some.inj he'
          exact ⟨hx.tidy, by simp, fun _ => hv, by simp⟩
        · intro k' hk'
          exact AList.lookup_insert_ne hk'
    | some itUs =>
      have hus' := hus itUs hl
      dsimp only
      split
      · rename_i hdrop
        obtain ⟨hfresh, hpruned⟩ := Bool.and_eq_true_iff.mp hdrop
        refine ⟨_, rfl, ⟨?_, ?_⟩, ?_⟩
        · rw [AList.lookup_erase, overlay_none, hus'.fresh hfresh, present_of_isPruned hpruned]
        · simp
        · intro k' hk'
          exact AList.lookup_erase_ne hk'
      · refine ⟨_, rfl, ⟨?_, ?_⟩, ?_⟩
        · rw [AList.lookup_insert, overlay_some]
        · intro e' he'
          rw [AList.lookup_insert] at he'
          obtain rfl := Option.some.inj he'
          exact ⟨hx.tidy, by simp, hus'.fresh, hus'.held⟩
        · intro k' hk'
          exact AList.lookup_insert_ne hk'

/-- **`BatchWrite`**: the assertion holds, and the child's entries are on top of the view's. -/
theorem batchWrite_spec (hs : s.Inv B) {mapCoins : CCoinsMap}
    (hmap : ∀ k e, mapCoins.lookup k = some e → EntryOk (s.value B k) (s.Holds k) e) :
    ∃ s', s.batchWrite B mapCoins = some s' ∧ s'.Inv B ∧
      s'.values B = (fun k => overlay (mapCoins.lookup k) (s.value B k)) :: (s.values B).tail := by
  cases s with
  | base b =>
    refine ⟨_, rfl, trivial, ?_⟩
    rw [CoinsStack.values]
    congr 1
    funext k
    rw [CoinsStack.value, B.batchWrite_content b mapCoins
      fun k e he => ⟨(hmap k e he).tidy, (hmap k e he).clean⟩]
    cases mapCoins.lookup k <;> rfl
  | cache c below =>
    obtain ⟨hm, hok, hbelow⟩ := hs
    have hmem : ∀ x ∈ mapCoins.entries, mapCoins.lookup x.1 = some x.2 :=
      fun x hx => (AList.mem_lookup_iff).mpr hx
    obtain ⟨us, hfold, hpost, hoff⟩ := (batchWriteEntry_round (below.value B) below.Holds).foldlM
      mapCoins.nodupKeys c.cacheCoins fun x hx =>
        ⟨hmap x.1 x.2 (hmem x hx), fun e he => hok x.1 e he⟩
    refine ⟨.cache { c with cacheCoins := us } below, ?_, ⟨hm, ?_, hbelow⟩, ?_⟩
    · rw [CoinsStack.batchWrite, CCoinsViewCache.batchWrite, if_neg (by simp [hm]), hfold]
    · intro k e he
      by_cases hk : k ∈ mapCoins.entries.keys
      · obtain ⟨e', hx⟩ := List.exists_of_mem_keys hk
        exact (hpost _ hx).2 e he
      · dsimp only at he
        rw [hoff k hk] at he
        exact hok k e he
    · rw [CoinsStack.values, CoinsStack.values]
      congr 1
      funext k
      by_cases hk : k ∈ mapCoins.entries.keys
      · obtain ⟨e', hx⟩ := List.exists_of_mem_keys hk
        rw [hmem _ hx]
        exact (hpost _ hx).1
      · have hnone : mapCoins.lookup k = none := AList.lookup_eq_none.mpr hk
        rw [hnone, overlay_none]
        exact value_congr (hoff k hk) rfl

theorem flush_spec (hs : (CoinsStack.cache c below).Inv B) :
    ∃ c' below', c.flush B below = some (c', below') ∧ (CoinsStack.cache c' below').Inv B ∧
      (CoinsStack.cache c' below').values B =
        (CoinsStack.cache c below).value B :: (CoinsStack.cache c below).value B ::
          (below.values B).tail := by
  obtain ⟨hm, hok, hbelow⟩ := hs
  obtain ⟨below', hw, hinv, hvalues⟩ := batchWrite_spec hbelow hok
  refine ⟨{ c with cacheCoins := ∅ }, below', ?_, ⟨hm, by simp, hinv⟩, ?_⟩
  · rw [CCoinsViewCache.flush, hw]
  · have hhead := hvalues
    rw [values_eq_cons below'] at hhead
    rw [CoinsStack.values, hvalues]
    congr 1
    funext k
    rw [CoinsStack.value, AList.lookup_empty, overlay_none, (List.cons.inj hhead).1]
    rfl

/-! ## Every operation, and every run -/

/-- The flat reading of a map: no pruned entries. -/
def CCoinsView.flat (m : CCoinsView) : CCoinsView := fun txid => present (m txid)

variable (B) in
/-- The stack is in order, and its layers stand for the maps. -/
def StandsFor (s : CoinsStack β) (ms : List CCoinsView) : Prop :=
  s.Inv B ∧ s.values B = ms.map CCoinsView.flat

theorem flat_value (s : CoinsStack β) : CCoinsView.flat (s.value B) = s.value B :=
  funext fun txid => present_value s txid

theorem flat_modify (m : CCoinsView) (txid : Uint256) (coins : CCoins) :
    (m.modify txid fun _ => coins).flat =
      fun k => if k = txid then present (some coins.cleanup) else m.flat k := by
  funext k
  simp only [CCoinsView.flat, CCoinsView.modify]
  by_cases hk : k = txid
  · subst hk; simp
  · rw [Function.update_of_ne hk, if_neg hk]

theorem StandsFor.cons {ms : List CCoinsView} (h : StandsFor B (.cache c below) ms) :
    ∃ m p ms', ms = m :: p :: ms' ∧ (CoinsStack.cache c below).value B = m.flat ∧
      below.value B = p.flat ∧ below.values B = (p :: ms').map CCoinsView.flat := by
  obtain ⟨-, hv⟩ := h
  rw [CoinsStack.values] at hv
  obtain ⟨m, ms1, rfl, hm, htail⟩ := List.map_eq_cons_iff.mp hv.symm
  have htail' := htail
  rw [values_eq_cons below] at htail'
  obtain ⟨p, ms2, rfl, hp, -⟩ := List.map_eq_cons_iff.mp htail'
  exact ⟨m, p, ms2, rfl, hm.symm, hp.symm, htail.symm⟩

theorem StandsFor.read {ms : List CCoinsView} (h : StandsFor B s ms) (txid : Uint256) :
    present (s.getCoins B txid).1 = s.value B txid ∧ StandsFor B (s.getCoins B txid).2 ms := by
  have hf := getCoins_fetched h.1 txid
  exact ⟨hf.answer, hf.inv, hf.values.trans h.2⟩

theorem haveCoins_eq {r : Option CCoins} (h : ∀ coins, r = some coins → coins.Tidy) :
    (r.any fun coins => !coins.vout.isEmpty) = (present r).isSome := by
  cases r with
  | none => rfl
  | some coins =>
    rw [Option.any_some, (h coins rfl).isEmpty_eq]
    cases hp : coins.isPruned with
    | true => rw [present_of_isPruned hp]; rfl
    | false => rw [present_of_not_isPruned hp]; rfl

variable (B) in
/-- **One operation.** No assertion fails, and the plain maps take the answer. -/
theorem step_simulates : Machine.Simulates (CoinsStack.step B) plainStep (StandsFor B) := by
  intro s ms op h
  cases s with
  | base b =>
    obtain ⟨hinv, hv⟩ := h
    rw [CoinsStack.values] at hv
    obtain ⟨m, ms', rfl, hm, hnil⟩ := List.map_eq_cons_iff.mp hv.symm
    obtain rfl := List.map_eq_nil_iff.mp hnil
    cases op with
    | push =>
      refine ⟨_, _, m :: [m], rfl, rfl, ⟨rfl, by simp, trivial⟩, ?_⟩
      exact congrArg₂ List.cons hm.symm hv
    | _ => exact ⟨_, _, [m], rfl, rfl, hinv, hv⟩
  | cache c below =>
    obtain ⟨m, p, ms', rfl, hm, hp, hvalues⟩ := h.cons
    cases op with
    | push =>
      refine ⟨_, _, m :: m :: p :: ms', rfl, rfl, ⟨rfl, by simp, h.1⟩, ?_⟩
      exact congrArg₂ List.cons hm h.2
    | getCoins txid =>
      obtain ⟨hans, hnext⟩ := h.read txid
      rw [hm] at hans
      refine ⟨_, _, m :: p :: ms', rfl, ?_, hnext⟩
      rw [plainStep, if_pos]
      exact hans
    | accessCoins txid =>
      obtain ⟨hans, hnext⟩ := h.read txid
      rw [hm] at hans
      refine ⟨_, _, m :: p :: ms', rfl, ?_, hnext⟩
      rw [plainStep, if_pos]
      exact hans
    | haveCoins txid =>
      obtain ⟨hans, hnext⟩ := h.read txid
      have hhave := haveCoins_eq (getCoins_fetched h.1 txid).tidy
      rw [hans, hm] at hhave
      refine ⟨_, _, m :: p :: ms', rfl, ?_, hnext⟩
      rw [plainStep, if_pos]
      exact hhave
    | modifyCoins txid change =>
      obtain ⟨e, cm, c', below', hmod, hrel, hans, hinv, hvals⟩ := modifyCoins_spec h.1 txid change
      refine ⟨.cache c' below', .entry e.coins,
        (m.modify txid fun _ => change e.coins) :: p :: ms', ?_, ?_, hinv, ?_⟩
      · rw [CoinsStack.step, hmod]
        dsimp only
        rw [hrel]
      · rw [plainStep, if_pos (by rw [hans, hm]; rfl)]
      · rw [hvals, List.map_cons, flat_modify, hvalues, hm]
    | flush =>
      obtain ⟨c', below', hflush, hinv, hvals⟩ := flush_spec h.1
      refine ⟨.cache c' below', .done, m :: m :: ms', ?_, rfl, hinv, ?_⟩
      · rw [CoinsStack.step, hflush]
      · rw [hvals, hvalues, hm]
        rfl
    | drop =>
      obtain ⟨hmod, -, hbelow⟩ := h.1
      refine ⟨below, .done, p :: ms', ?_, rfl, hbelow, hvalues⟩
      rw [CoinsStack.step, if_neg (by simp [hmod])]

theorem standsFor_base (b : β) : StandsFor B (.base b) [B.content b] := by
  refine ⟨trivial, ?_⟩
  rw [CoinsStack.values, List.map_cons, List.map_nil]
  exact congrArg (fun v => [v]) (flat_value (B := B) (CoinsStack.base b)).symm

variable (B) in
/--
**The stack of caches is a stack of maps.** Over any base view, no sequence of
operations fails an assertion, and a stack of plain maps that starts from the base
view's takes every answer and ends as the maps of the stack's layers.
-/
theorem cacheStack_refines_maps (b : β) (ops : List CoinsOp) :
    ∃ s answers ms, Machine.run (CoinsStack.step B) (.base b) ops = some (s, answers) ∧
      Machine.accepts plainStep [B.content b] ops answers = some ms ∧
      s.values B = ms.map CCoinsView.flat := by
  obtain ⟨s, answers, ms, hrun, hacc, -, hv⟩ := (step_simulates B).run ops (standsFor_base b)
  exact ⟨s, answers, ms, hrun, hacc, hv⟩

/-! ## The maps alone -/

theorem present_getD {r : Option CCoins} {coins : CCoins} (h : present (some coins) = present r) :
    coins = r.getD {} ∨ coins.isPruned = true ∧ (r.getD {}).isPruned = true := by
  cases hp : coins.isPruned with
  | true =>
    rw [present_of_isPruned hp] at h
    cases r with
    | none => exact Or.inr ⟨rfl, rfl⟩
    | some c => exact Or.inr ⟨rfl, by simpa [present] using h.symm⟩
  | false =>
    rw [present_of_not_isPruned hp] at h
    obtain ⟨hr, -⟩ := Option.filter_eq_some_iff.mp h.symm
    exact Or.inl (by rw [hr]; rfl)

theorem plainStep_mapsStep {ms ns ms' : List CCoinsView} {op : CoinsOp} {a : CoinsAnswer}
    (h : plainStep ms op a = some ms')
    (hns : ns.map CCoinsView.flat = ms.map CCoinsView.flat) (hop : op.Alike) :
    (mapsStep ns op).2 = a.flat ∧
      (mapsStep ns op).1.map CCoinsView.flat = ms'.map CCoinsView.flat := by
  rcases ms with _ | ⟨m, _ | ⟨p, ms⟩⟩
  · cases op <;> cases a <;> cases h
  · obtain ⟨n, _, rfl, hn, hnil⟩ := List.map_eq_cons_iff.mp hns
    obtain rfl := List.map_eq_nil_iff.mp hnil
    cases op <;> cases a <;> cases h <;> simp [mapsStep, CoinsAnswer.flat, hn]
  · obtain ⟨n, _, rfl, hn, htail⟩ := List.map_eq_cons_iff.mp hns
    obtain ⟨q, ns, rfl, hq, hrest⟩ := List.map_eq_cons_iff.mp htail
    have hread (txid : Uint256) : present (n txid) = present (m txid) := congrFun hn txid
    have hkept {c : Prop} [Decidable c]
        (h : (if c then some (m :: p :: ms) else none) = some ms') :
        c ∧ (n :: q :: ns).map CCoinsView.flat = ms'.map CCoinsView.flat := by
      obtain ⟨hans, hms⟩ := Option.ite_none_right_eq_some.mp h
      exact ⟨hans, Option.some.inj hms ▸ hns⟩
    cases op with
    | modifyCoins txid change =>
      cases a with
      | entry coins =>
        obtain ⟨hans, hms⟩ := Option.ite_none_right_eq_some.mp h
        obtain rfl := Option.some.inj hms
        refine ⟨congrArg CoinsAnswer.coins ((hread txid).trans hans.symm), ?_⟩
        have hsame : present (some (change (n.get txid)).cleanup) =
            present (some (change coins).cleanup) := by
          rcases present_getD (hans.trans (hread txid).symm) with rfl | ⟨hp, hp'⟩
          · rfl
          · exact hop _ _ hp' hp
        show (n.modify txid fun _ => change (n.get txid)).flat :: _ = (m.modify txid _).flat :: _
        rw [flat_modify, flat_modify, hsame, hn, htail]
      | _ => cases h
    | getCoins txid | accessCoins txid =>
      cases a with
      | coins r =>
        obtain ⟨hans, hflat⟩ := hkept h
        exact ⟨congrArg CoinsAnswer.coins ((hread txid).trans hans.symm), hflat⟩
      | _ => cases h
    | haveCoins txid =>
      cases a with
      | «have» b =>
        obtain ⟨hans, hflat⟩ := hkept h
        exact ⟨congrArg CoinsAnswer.have ((congrArg _ (hread txid)).trans hans.symm), hflat⟩
      | _ => cases h
    | push | flush | drop =>
      cases a with
      | done =>
        obtain rfl := Option.some.inj h
        exact ⟨rfl, by simp [mapsStep, hn, hq, hrest]⟩
      | _ => cases h

/-- **A run of the maps alone** answers as the run does that is checked. -/
theorem accepts_mapsStep {ms ns ms' : List CCoinsView} {ops : List CoinsOp}
    {answers : List CoinsAnswer} (h : Machine.accepts plainStep ms ops answers = some ms')
    (hns : ns.map CCoinsView.flat = ms.map CCoinsView.flat) (hops : ∀ op ∈ ops, op.Alike) :
    ∃ ns', Machine.run (fun ns op => some (mapsStep ns op)) ns ops =
        some (ns', answers.map CoinsAnswer.flat) ∧
      ns'.map CCoinsView.flat = ms'.map CCoinsView.flat := by
  induction ops generalizing ms ns answers with
  | nil =>
    cases answers with
    | nil =>
      obtain rfl := Option.some.inj h
      exact ⟨ns, rfl, hns⟩
    | cons a answers => cases h
  | cons op ops ih =>
    cases answers with
    | nil => cases h
    | cons a answers =>
      rw [Machine.accepts] at h
      cases hstep : plainStep ms op a with
      | none =>
        rw [hstep] at h
        cases h
      | some ms1 =>
        rw [hstep] at h
        obtain ⟨hans, hflat⟩ := plainStep_mapsStep hstep hns (hops op List.mem_cons_self)
        obtain ⟨ns', hrun, hns'⟩ := ih h hflat fun op h => hops op (List.mem_cons_of_mem _ h)
        refine ⟨ns', ?_, hns'⟩
        rw [Machine.run]
        dsimp only
        rw [hrun, hans]
        rfl

variable (B) in
/-- **The maps alone** answer the same, up to pruned entries, and end as the layers' maps, where no
change tells one pruned entry from another. -/
theorem cacheStack_refines_mapsStep (b : β) {ops : List CoinsOp} (hops : ∀ op ∈ ops, op.Alike) :
    ∃ s answers ms, Machine.run (CoinsStack.step B) (.base b) ops = some (s, answers) ∧
      Machine.run (fun ms op => some (mapsStep ms op)) [B.content b] ops =
        some (ms, answers.map CoinsAnswer.flat) ∧
      s.values B = ms.map CCoinsView.flat := by
  obtain ⟨s, answers, ms, hrun, hacc, -, hv⟩ := (step_simulates B).run ops (standsFor_base b)
  obtain ⟨ns, hmaps, hflat⟩ := accepts_mapsStep hacc rfl hops
  exact ⟨s, answers, ns, hrun, hmaps, hv.trans hflat.symm⟩

end stack

end BitBlocks
