import BitBlocks.Stake.Modifier

/-!
# Stake modifiers in two processes

The modifiers of a chain are computed one after the other, each from the entries below it.
All of that is a function of the chain but one value: the block above genesis gets
`uint64_t("stakemodifier")`, which is no hash of these characters but the address the
process has them at. Every later modifier descends from it; which blocks get a new one does
not depend on it.
-/

namespace BitBlocks

/-- What is a process's own: an address, and the entries of its block index off the chain. -/
structure StakeProcess where
  /-- Where the literal `"stakemodifier"` is. -/
  address : UInt64
  others : Uint256 → Option CBlockIndex

/-- The blocks of a chain from genesis on, the newest first. -/
structure StakeChain where
  blocks : List CBlockIndex
  heights : Heights blocks
  nodup : (blocks.map CBlockIndex.phashBlock).Nodup

namespace StakeProcess

variable (M : ModifierRules)

def rules (p : StakeProcess) : ModifierRules := { M with stakemodifier := p.address.toNat }

/-- `mapBlockIndex`, when these entries are in it. -/
def mapBlockIndex (p : StakeProcess) (entries : List CBlockIndex) (hash : Uint256) :
    Option CBlockIndex :=
  (entries.find? fun pindex => pindex.phashBlock == hash).or (p.others hash)

/-- `AddToBlockIndex` for one block after the other; genesis has no parent, and no modifier. -/
def addToBlockIndex (p : StakeProcess) : List CBlockIndex → Except ModifierError (List CBlockIndex)
  | [] => .ok []
  | [genesis] => .ok [genesis]
  | pindexNew :: pprev =>
    match p.addToBlockIndex pprev with
    | .error e => .error e
    | .ok entries =>
      match computeNextStakeModifier (p.rules M) (p.mapBlockIndex entries) entries with
      | .error e => .error e
      | .ok (nStakeModifier, fGeneratedStakeModifier) =>
        .ok ({ pindexNew with
            nStakeModifier := nStakeModifier
            fGeneratedStakeModifier := fGeneratedStakeModifier } :: entries)

end StakeProcess

/-! ## The chain that is given to the next step -/

def CBlockIndex.block (pindex : CBlockIndex) : CBlockIndex :=
  { pindex with nStakeModifier := 0, fGeneratedStakeModifier := false }

/-- An entry without the value of its modifier. -/
def CBlockIndex.unvalued (pindex : CBlockIndex) : CBlockIndex := { pindex with nStakeModifier := 0 }

theorem heights_of_block {entries blocks : List CBlockIndex}
    (h : entries.map CBlockIndex.block = blocks.map CBlockIndex.block) (hblocks : Heights blocks) :
    Heights entries := by
  induction entries generalizing blocks with
  | nil => trivial
  | cons e entries ih =>
    cases blocks with
    | nil => exact absurd h (by simp)
    | cons b blocks =>
      obtain ⟨hhead, htail⟩ := List.cons.inj h
      obtain ⟨hheight, hrest⟩ := hblocks
      have hlength : entries.length = blocks.length := by
        have hmapped := congrArg List.length htail
        simpa using hmapped
      have hsame : e.block.nHeight = b.block.nHeight := by rw [hhead]
      have hnHeight : e.nHeight = b.nHeight := hsame
      exact ⟨by rw [hnHeight, hheight, hlength], ih htail hrest⟩

theorem Heights.pairwise {l : List CBlockIndex} (hl : Heights l) :
    l.Pairwise fun pindex ancestor => ancestor.nHeight < pindex.nHeight := by
  have hbound : ∀ {l : List CBlockIndex}, Heights l → ∀ b ∈ l, b.nHeight < (l.length : Int) := by
    intro l hl
    induction l with
    | nil => simp
    | cons b l ih =>
      obtain ⟨hheight, hrest⟩ := hl
      intro c hc
      rw [List.length_cons]
      rcases List.mem_cons.mp hc with rfl | hc
      · omega
      · have := ih hrest c hc
        omega
  induction l with
  | nil => exact List.Pairwise.nil
  | cons b l ih =>
    obtain ⟨hheight, hrest⟩ := hl
    refine List.Pairwise.cons (fun c hc => ?_) (ih hrest)
    have := hbound hrest c hc
    omega

/-! ## What the address has no part in -/

section

variable {M : ModifierRules} {map : Uint256 → Option CBlockIndex} {items : List (Int × Uint256)}

theorem selectFrom_address (address : Nat) (selected : List Uint256) (stop : Int) (prev : Nat)
    (fModifierV2 : Option Bool) (best : Option (Uint256 × CBlockIndex)) :
    selectFrom { M with stakemodifier := address } map selected stop prev fModifierV2 best items =
      selectFrom M map selected stop prev fModifierV2 best items := by
  have hhash : ∀ f prev pindex, selectionHash { M with stakemodifier := address } f prev pindex =
      selectionHash M f prev pindex := fun _ _ _ => rfl
  induction items generalizing fModifierV2 best with
  | nil => rfl
  | cons item rest ih =>
    rw [selectFrom, selectFrom]
    simp only [ih, hhash]

theorem afterRounds_address (address : Nat) (prev : Nat) (start : Int) (k : Nat) :
    afterRounds { M with stakemodifier := address } map items prev start k =
      afterRounds M map items prev start k := by
  have hround : modifierRound { M with stakemodifier := address } map items prev =
      modifierRound M map items prev := by
    funext st nRound
    unfold modifierRound selectBlockFromCandidates
    rw [selectFrom_address]
  unfold afterRounds
  rw [hround]

variable {rest entries : List CBlockIndex}

theorem computeNextStakeModifier_first {genesis : CBlockIndex} (h : genesis.nHeight = 0) :
    computeNextStakeModifier M map (genesis :: rest) = .ok (M.stakemodifier, true) :=
  if_pos h

/-- **Above height one** the address is not read. -/
theorem computeNextStakeModifier_address {pindexPrev : CBlockIndex}
    (hgenesis : pindexPrev.nHeight ≠ 0) (address : Nat) :
    computeNextStakeModifier { M with stakemodifier := address } map (pindexPrev :: rest) =
      computeNextStakeModifier M map (pindexPrev :: rest) := by
  unfold computeNextStakeModifier
  dsimp only
  rw [if_neg hgenesis, if_neg hgenesis]
  simp only [afterRounds_address]

/-- The entries at which the next modifier is a new one. -/
def generatesNext : List CBlockIndex → Bool
  | [] => true
  | pindexPrev :: rest =>
    if pindexPrev.nHeight = 0 then true
    else
      match getLastStakeModifier (pindexPrev :: rest) with
      | .error _ => false
      | .ok (_, nModifierTime) =>
        !decide (nModifierTime.tdiv MODIFIER_INTERVAL ≥
          (pindexPrev.getBlockTime).tdiv MODIFIER_INTERVAL)

theorem snd_of_computeNextStakeModifier {nStakeModifier : Nat} {fGeneratedStakeModifier : Bool}
    (h : computeNextStakeModifier M map entries = .ok (nStakeModifier, fGeneratedStakeModifier)) :
    fGeneratedStakeModifier = generatesNext entries := by
  cases entries with
  | nil =>
    obtain ⟨_, rfl⟩ := Prod.mk.inj (Except.ok.inj h)
    rfl
  | cons pindexPrev rest =>
    unfold computeNextStakeModifier at h
    unfold generatesNext
    dsimp only at h ⊢
    split at h
    · rename_i hgenesis
      obtain ⟨_, rfl⟩ := Prod.mk.inj (Except.ok.inj h)
      rw [if_pos hgenesis]
    · rename_i hgenesis
      rw [if_neg hgenesis]
      cases hlast : getLastStakeModifier (pindexPrev :: rest) with
      | error e =>
        rw [hlast] at h
        exact absurd h (by simp)
      | ok last =>
        rw [hlast] at h
        dsimp only at h ⊢
        split at h
        · rename_i hrecent
          obtain ⟨_, rfl⟩ := Prod.mk.inj (Except.ok.inj h)
          rw [decide_eq_true hrecent]
          rfl
        · rename_i hrecent
          rw [decide_eq_false hrecent]
          split at h
          · exact absurd h (by simp)
          · obtain ⟨_, rfl⟩ := Prod.mk.inj (Except.ok.inj h)
            rfl

theorem CBlockIndex.of_unvalued {b b' : CBlockIndex} (h : b.unvalued = b'.unvalued) :
    b.nHeight = b'.nHeight ∧ b.getBlockTime = b'.getBlockTime ∧
      b.fGeneratedStakeModifier = b'.fGeneratedStakeModifier := by
  have hheight : b.unvalued.nHeight = b'.unvalued.nHeight := by rw [h]
  have htime : b.unvalued.getBlockTime = b'.unvalued.getBlockTime := by rw [h]
  have hflag : b.unvalued.fGeneratedStakeModifier = b'.unvalued.fGeneratedStakeModifier := by rw [h]
  exact ⟨hheight, htime, hflag⟩

theorem getLastStakeModifier_unvalued {l l' : List CBlockIndex}
    (h : l.map CBlockIndex.unvalued = l'.map CBlockIndex.unvalued) :
    (getLastStakeModifier l).map Prod.snd = (getLastStakeModifier l').map Prod.snd := by
  induction l generalizing l' with
  | nil => rw [List.map_eq_nil_iff.mp h.symm]
  | cons b l ih =>
    cases l' with
    | nil => exact absurd h (by simp)
    | cons b' l' =>
      obtain ⟨hhead, htail⟩ := List.cons.inj h
      obtain ⟨_, htime, hflag⟩ := CBlockIndex.of_unvalued hhead
      cases l with
      | nil =>
        rw [List.map_eq_nil_iff.mp htail.symm]
        unfold getLastStakeModifier
        rw [hflag, htime]
        split <;> rfl
      | cons c l =>
        cases l' with
        | nil => exact absurd htail (by simp)
        | cons c' l' =>
          have hrest := ih htail
          rw [getLastStakeModifier, getLastStakeModifier, hflag, htime]
          split
          · rfl
          · exact hrest

theorem generatesNext_unvalued {entries' : List CBlockIndex}
    (h : entries.map CBlockIndex.unvalued = entries'.map CBlockIndex.unvalued) :
    generatesNext entries = generatesNext entries' := by
  cases entries with
  | nil => rw [List.map_eq_nil_iff.mp h.symm]
  | cons b l =>
    cases entries' with
    | nil => exact absurd h (by simp)
    | cons b' l' =>
      have hlast := getLastStakeModifier_unvalued h
      obtain ⟨hheight, htime, _⟩ := CBlockIndex.of_unvalued (List.cons.inj h).1
      unfold generatesNext
      dsimp only
      rw [hheight, htime]
      split
      · rfl
      · cases hl : getLastStakeModifier (b :: l) with
        | error e =>
          cases hl' : getLastStakeModifier (b' :: l') with
          | error e' => rfl
          | ok last' =>
            rw [hl, hl'] at hlast
            exact absurd hlast (by simp [Except.map])
        | ok last =>
          cases hl' : getLastStakeModifier (b' :: l') with
          | error e' =>
            rw [hl, hl'] at hlast
            exact absurd hlast (by simp [Except.map])
          | ok last' =>
            rw [hl, hl'] at hlast
            have htimes : last.2 = last'.2 := by simpa [Except.map] using hlast
            dsimp only
            rw [htimes]

end

namespace StakeProcess

variable {M : ModifierRules}

/-- The entries of a chain, with the block index of a process. -/
def branch (p : StakeProcess) {entries : List CBlockIndex} (hheights : Heights entries)
    (hnodup : (entries.map CBlockIndex.phashBlock).Nodup) : IndexedBranch where
  mapBlockIndex := p.mapBlockIndex entries
  entries := entries
  indexed := by
    intro pindex hpindex
    have hfound : entries.find? (fun e => e.phashBlock == pindex.phashBlock) = some pindex := by
      cases hfind : entries.find? (fun e => e.phashBlock == pindex.phashBlock) with
      | none =>
        have := List.find?_eq_none.mp hfind pindex hpindex
        simp at this
      | some e =>
        have hhash : e.phashBlock = pindex.phashBlock := by simpa using List.find?_some hfind
        rw [List.inj_on_of_nodup_map hnodup (List.mem_of_find?_eq_some hfind) hpindex hhash]
    unfold mapBlockIndex
    rw [hfound]
    rfl
  height := hheights.pairwise

variable {rest entries blocks entries' : List CBlockIndex}

/-- **The next modifier** is found, and neither the other entries of the index nor the address
have a part in it, once the chain has two blocks. -/
theorem exists_next (p p' : StakeProcess) {pindexPrev : CBlockIndex}
    (hheights : Heights (pindexPrev :: rest))
    (hnodup : ((pindexPrev :: rest).map CBlockIndex.phashBlock).Nodup) (hrest : rest ≠ [])
    (hgen : ∃ pindex ∈ pindexPrev :: rest, pindex.fGeneratedStakeModifier = true) :
    ∃ result, computeNextStakeModifier (p.rules M) (p.mapBlockIndex (pindexPrev :: rest))
        (pindexPrev :: rest) = .ok result ∧
      computeNextStakeModifier (p'.rules M) (p'.mapBlockIndex (pindexPrev :: rest))
        (pindexPrev :: rest) = .ok result := by
  have hgenesis : pindexPrev.nHeight ≠ 0 := by
    have hlength : 0 < rest.length := List.length_pos_iff.mpr hrest
    rw [hheights.1]
    omega
  have hfound : ∃ result, computeNextStakeModifier (p.rules M)
      (p.mapBlockIndex (pindexPrev :: rest)) (pindexPrev :: rest) = .ok result := by
    obtain ⟨_, nModifierTime, _, hold, hnew⟩ :=
      (p.branch hheights hnodup).computeNextStakeModifier_cases (p.rules M) rfl hgenesis hgen
    rcases lt_or_ge (nModifierTime.tdiv MODIFIER_INTERVAL)
      (pindexPrev.getBlockTime.tdiv MODIFIER_INTERVAL) with hage | hage
    · obtain ⟨_, _, hnext⟩ := hnew hage
      exact ⟨_, hnext⟩
    · exact ⟨_, hold hage⟩
  obtain ⟨result, hresult⟩ := hfound
  refine ⟨result, hresult, ?_⟩
  have hentries : (p'.branch hheights hnodup).entries = (p.branch hheights hnodup).entries := rfl
  have hother := (p.branch hheights hnodup).computeNextStakeModifier_congr (p.rules M) hentries
  have haddress : computeNextStakeModifier (p'.rules M) (p'.mapBlockIndex (pindexPrev :: rest))
      (pindexPrev :: rest) = computeNextStakeModifier (p.rules M)
        (p'.mapBlockIndex (pindexPrev :: rest)) (pindexPrev :: rest) :=
    (computeNextStakeModifier_address hgenesis _).trans
      (computeNextStakeModifier_address hgenesis _).symm
  rw [haddress]
  exact hother.trans hresult

/-! ## The entries of a chain -/

theorem nodup_of_block (h : entries.map CBlockIndex.block = blocks.map CBlockIndex.block)
    (hblocks : (blocks.map CBlockIndex.phashBlock).Nodup) :
    (entries.map CBlockIndex.phashBlock).Nodup := by
  have hhash : ∀ l : List CBlockIndex, l.map CBlockIndex.phashBlock =
      (l.map CBlockIndex.block).map CBlockIndex.phashBlock := by
    intro l
    rw [List.map_map]
    rfl
  rw [hhash, h, ← hhash]
  exact hblocks

/-- **Every chain has its modifiers**: nothing fails, and the blocks are those of the chain. -/
theorem exists_addToBlockIndex (p : StakeProcess) (hheights : Heights blocks)
    (hnodup : (blocks.map CBlockIndex.phashBlock).Nodup) :
    ∃ entries, p.addToBlockIndex M blocks = .ok entries ∧
      entries.map CBlockIndex.block = blocks.map CBlockIndex.block ∧
      (2 ≤ blocks.length → ∃ pindex ∈ entries, pindex.fGeneratedStakeModifier = true) := by
  induction blocks with
  | nil => exact ⟨[], rfl, rfl, fun h => absurd h (by simp)⟩
  | cons pindexNew pprev ih =>
    cases pprev with
    | nil => exact ⟨[pindexNew], rfl, rfl, fun h => absurd h (by simp)⟩
    | cons parent rest =>
      obtain ⟨hheight, hheights'⟩ := hheights
      obtain ⟨hfresh, hnodup'⟩ := List.nodup_cons.mp hnodup
      obtain ⟨entries, hentries, hblocks, hgen⟩ := ih hheights' hnodup'
      cases entries with
      | nil => exact absurd hblocks (by simp)
      | cons e es =>
        have hheights'' := heights_of_block hblocks hheights'
        -- the block above genesis has a modifier of its own, and so has the chain from there on
        have hnext : ∃ result, computeNextStakeModifier (p.rules M)
            (p.mapBlockIndex (e :: es)) (e :: es) = .ok result ∧
            (result.2 = true ∨ ∃ pindex ∈ e :: es, pindex.fGeneratedStakeModifier = true) := by
          cases es with
          | nil =>
            exact ⟨(p.address.toNat, true), computeNextStakeModifier_first hheights''.1, Or.inl rfl⟩
          | cons e' es' =>
            have hlength : 2 ≤ (parent :: rest).length := by
              have := congrArg List.length hblocks
              simp at this
              simp
              omega
            obtain ⟨result, hresult, _⟩ := exists_next (M := M) p p hheights''
              (nodup_of_block hblocks hnodup') (List.cons_ne_nil e' es') (hgen hlength)
            exact ⟨result, hresult, Or.inr (hgen hlength)⟩
        obtain ⟨⟨nStakeModifier, fGeneratedStakeModifier⟩, hresult, hflag⟩ := hnext
        refine ⟨{ pindexNew with
          nStakeModifier := nStakeModifier
          fGeneratedStakeModifier := fGeneratedStakeModifier } :: e :: es, ?_, ?_, ?_⟩
        · rw [addToBlockIndex, hentries]
          · dsimp only
            rw [hresult]
          · simp
        · rw [List.map_cons, hblocks, List.map_cons]
          rfl
        · intro _
          rcases hflag with hnew | ⟨pindex, hmem, hold⟩
          · exact ⟨_, List.mem_cons_self, hnew⟩
          · exact ⟨pindex, List.mem_cons_of_mem _ hmem, hold⟩

/-- The entries above the first two blocks, taken apart. -/
theorem addToBlockIndex_cons {p : StakeProcess} {pindexNew parent : CBlockIndex}
    (h : p.addToBlockIndex M (pindexNew :: parent :: rest) = .ok entries) :
    ∃ below nStakeModifier fGeneratedStakeModifier,
      p.addToBlockIndex M (parent :: rest) = .ok below ∧
      computeNextStakeModifier (p.rules M) (p.mapBlockIndex below) below =
        .ok (nStakeModifier, fGeneratedStakeModifier) ∧
      entries = { pindexNew with
        nStakeModifier := nStakeModifier
        fGeneratedStakeModifier := fGeneratedStakeModifier } :: below := by
  rw [addToBlockIndex] at h
  · split at h
    · exact absurd h (by simp)
    · rename_i below hbelow
      split at h
      · exact absurd h (by simp)
      · rename_i nStakeModifier fGeneratedStakeModifier hnext
        exact ⟨below, nStakeModifier, fGeneratedStakeModifier, hbelow, hnext,
          (Except.ok.inj h).symm⟩
  · simp

/-- **Which blocks get a new modifier** is the same in all processes. -/
theorem unvalued_addToBlockIndex (p p' : StakeProcess)
    (h : p.addToBlockIndex M blocks = .ok entries)
    (h' : p'.addToBlockIndex M blocks = .ok entries') :
    entries.map CBlockIndex.unvalued = entries'.map CBlockIndex.unvalued := by
  induction blocks generalizing entries entries' with
  | nil =>
    obtain rfl := Except.ok.inj h
    obtain rfl := Except.ok.inj h'
    rfl
  | cons pindexNew pprev ih =>
    cases pprev with
    | nil =>
      obtain rfl := Except.ok.inj h
      obtain rfl := Except.ok.inj h'
      rfl
    | cons parent rest =>
      obtain ⟨below, n, f, hbelow, hnext, rfl⟩ := addToBlockIndex_cons h
      obtain ⟨below', n', f', hbelow', hnext', rfl⟩ := addToBlockIndex_cons h'
      have hsame := ih hbelow hbelow'
      have hflag : f = f' := by
        rw [snd_of_computeNextStakeModifier hnext, snd_of_computeNextStakeModifier hnext',
          generatesNext_unvalued hsame]
      rw [List.map_cons, List.map_cons, hsame, hflag]
      rfl

theorem addToBlockIndex_same (p p' : StakeProcess) (haddress : p.address = p'.address)
    (hheights : Heights blocks) (hnodup : (blocks.map CBlockIndex.phashBlock).Nodup)
    (h : p.addToBlockIndex M blocks = .ok entries)
    (h' : p'.addToBlockIndex M blocks = .ok entries') :
    entries = entries' := by
  induction blocks generalizing entries entries' with
  | nil =>
    obtain rfl := Except.ok.inj h
    exact Except.ok.inj h'
  | cons pindexNew pprev ih =>
    cases pprev with
    | nil =>
      obtain rfl := Except.ok.inj h
      exact Except.ok.inj h'
    | cons parent rest =>
      obtain ⟨below, n, f, hbelow, hnext, rfl⟩ := addToBlockIndex_cons h
      obtain ⟨below', n', f', hbelow', hnext', rfl⟩ := addToBlockIndex_cons h'
      have hnodup' := (List.nodup_cons.mp hnodup).2
      obtain rfl := ih hheights.2 hnodup' hbelow hbelow'
      obtain ⟨entries, hentries, hblocks, hgen⟩ :=
        exists_addToBlockIndex (M := M) p hheights.2 hnodup'
      obtain rfl : below = entries := Except.ok.inj (hbelow.symm.trans hentries)
      have hsame : computeNextStakeModifier (p.rules M) (p.mapBlockIndex below) below =
          computeNextStakeModifier (p'.rules M) (p'.mapBlockIndex below) below := by
        cases below with
        | nil => exact absurd hblocks (by simp)
        | cons e es =>
          have hheights' := heights_of_block hblocks hheights.2
          cases es with
          | nil =>
            rw [computeNextStakeModifier_first hheights'.1,
              computeNextStakeModifier_first hheights'.1]
            unfold rules
            rw [haddress]
          | cons e' es' =>
            have hlength : 2 ≤ (parent :: rest).length := by
              have hmapped := congrArg List.length hblocks
              simp at hmapped
              simp
              omega
            obtain ⟨result, hresult, hresult'⟩ := exists_next (M := M) p p' hheights'
              (nodup_of_block hblocks hnodup') (List.cons_ne_nil e' es') (hgen hlength)
            rw [hresult, hresult']
      rw [hsame, hnext'] at hnext
      obtain ⟨rfl, rfl⟩ := Prod.mk.inj (Except.ok.inj hnext)
      rfl

theorem address_of_same (p p' : StakeProcess) (hheights : Heights blocks)
    (hlength : 2 ≤ blocks.length) (h : p.addToBlockIndex M blocks = .ok entries)
    (h' : p'.addToBlockIndex M blocks = .ok entries) : p.address = p'.address := by
  induction blocks generalizing entries with
  | nil => exact absurd hlength (by simp)
  | cons pindexNew pprev ih =>
    cases pprev with
    | nil => exact absurd hlength (by simp)
    | cons parent rest =>
      obtain ⟨below, n, f, hbelow, hnext, rfl⟩ := addToBlockIndex_cons h
      obtain ⟨below', n', f', hbelow', hnext', hsame⟩ := addToBlockIndex_cons h'
      obtain ⟨hhead, rfl⟩ := List.cons.inj hsame
      cases rest with
      | nil =>
        obtain rfl := Except.ok.inj hbelow
        have hgenesis : parent.nHeight = 0 := hheights.2.1
        rw [computeNextStakeModifier_first hgenesis] at hnext hnext'
        have hn : p.address.toNat = n := (Prod.mk.inj (Except.ok.inj hnext)).1
        have hn' : p'.address.toNat = n' := (Prod.mk.inj (Except.ok.inj hnext')).1
        have hvalue : n = n' := congrArg CBlockIndex.nStakeModifier hhead
        exact UInt64.toNat_inj.mp (by rw [hn, hn', hvalue])
      | cons c rest => exact ih hheights.2 (by simp) hbelow hbelow'

theorem eq_of_values {l l' : List CBlockIndex}
    (h : l.map CBlockIndex.unvalued = l'.map CBlockIndex.unvalued)
    (hvalues : l.map CBlockIndex.nStakeModifier = l'.map CBlockIndex.nStakeModifier) : l = l' := by
  have hrow : ∀ l : List CBlockIndex, (l.map CBlockIndex.unvalued).zipWith
      (fun b n => { b with nStakeModifier := n }) (l.map CBlockIndex.nStakeModifier) = l := by
    intro l
    induction l with
    | nil => rfl
    | cons b l ih =>
      rw [List.map_cons, List.map_cons, List.zipWith_cons_cons, ih]
      rfl
  rw [← hrow l, h, hvalues, hrow]

/--
**Stake modifiers agree** between two processes just when both have the literal at one
address, or the chain is no more than genesis. Both assign a modifier to every block, and
in any case they agree on which blocks have a new one.
-/
theorem modifiers_agree_iff (M : ModifierRules) (p p' : StakeProcess) (chain : StakeChain) :
    ∃ entries entries', p.addToBlockIndex M chain.blocks = .ok entries ∧
      p'.addToBlockIndex M chain.blocks = .ok entries' ∧
      entries.map CBlockIndex.fGeneratedStakeModifier =
        entries'.map CBlockIndex.fGeneratedStakeModifier ∧
      (entries.map CBlockIndex.nStakeModifier = entries'.map CBlockIndex.nStakeModifier ↔
        chain.blocks.length ≤ 1 ∨ p.address = p'.address) := by
  obtain ⟨entries, hentries, hblocks, _⟩ :=
    exists_addToBlockIndex (M := M) p chain.heights chain.nodup
  obtain ⟨entries', hentries', hblocks', _⟩ :=
    exists_addToBlockIndex (M := M) p' chain.heights chain.nodup
  have hunvalued := unvalued_addToBlockIndex p p' hentries hentries'
  have hflags : ∀ l : List CBlockIndex, l.map CBlockIndex.fGeneratedStakeModifier =
      (l.map CBlockIndex.unvalued).map CBlockIndex.fGeneratedStakeModifier := by
    intro l
    rw [List.map_map]
    rfl
  refine ⟨entries, entries', hentries, hentries', ?_, ?_, ?_⟩
  · rw [hflags, hunvalued, ← hflags]
  · intro hvalues
    obtain rfl := eq_of_values hunvalued hvalues
    by_cases hshort : chain.blocks.length ≤ 1
    · exact Or.inl hshort
    · exact Or.inr (address_of_same p p' chain.heights (by omega) hentries hentries')
  · intro hcase
    rcases hcase with hshort | haddress
    · -- genesis alone has no modifier
      match hchain : chain.blocks, hshort with
      | [], _ =>
        rw [hchain] at hentries hentries'
        rw [← Except.ok.inj hentries, ← Except.ok.inj hentries']
      | [genesis], _ =>
        rw [hchain] at hentries hentries'
        rw [← Except.ok.inj hentries, ← Except.ok.inj hentries']
    · rw [addToBlockIndex_same p p' haddress chain.heights chain.nodup hentries hentries']

def sampleChain : StakeChain where
  blocks := [{ phashBlock := 11, nHeight := 1, nTime := 60 }, { phashBlock := 10, nHeight := 0 }]
  heights := ⟨rfl, rfl, trivial⟩
  nodup := by decide

/-- Two processes that have the literal at different places. -/
theorem modifiers_depend_on_address :
    let M : ModifierRules := ⟨0, fun hash prev => hash + prev, 0⟩
    ((StakeProcess.mk 4096 fun _ => none).addToBlockIndex M sampleChain.blocks).map
        (List.map CBlockIndex.nStakeModifier) = .ok [4096, 0] ∧
      ((StakeProcess.mk 8192 fun _ => none).addToBlockIndex M sampleChain.blocks).map
        (List.map CBlockIndex.nStakeModifier) = .ok [8192, 0] := by
  intro M
  exact ⟨rfl, rfl⟩

end StakeProcess

end BitBlocks
