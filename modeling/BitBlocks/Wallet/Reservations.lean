import BitBlocks.Lib.Machine
import BitBlocks.Wallet.KeyRecords

/-!
# Reservations of the key pool

The wallet does not know which indices are reserved. While the set is never emptied its
largest index stays there, since the oldest key is the one that is taken, and new keys get
indices behind those reserved. When it is emptied, or what is left in it is older than a
reservation, the next keys are given indices that are still reserved: a record that a
reservation refers to is overwritten, and the key in its place can be handed out twice.
-/

namespace BitBlocks

variable {K : KeySource} {N : Nat}

namespace KeyPoolRun

/-- No index is obtained while a reservation of it is outstanding. -/
def NotReissued (log : List Obtained) : Prop :=
  log.Pairwise fun o o' => o.nIndex = o'.nIndex → o.fate ≠ .outstanding

/-- No key is obtained again, unless it was returned. -/
def Once (log : List Obtained) : Prop :=
  log.Pairwise fun o o' => o.vchPubKey = o'.vchPubKey → o.fate = .returned

/--
What is asked of the pool: its indices have a record, none of them is reserved, no index is
reserved twice at a time, and no key is obtained twice, unless it was returned in between.
-/
structure HandsOutOnce (s : KeyPoolRun) : Prop where
  stored : ∀ i ∈ s.wallet.setKeyPool, ∃ key, s.wallet.pool.lookup i = some key
  apart : ∀ k, (s.holders k).nIndex ≠ -1 → (s.holders k).nIndex ∉ s.wallet.setKeyPool ∧
    ∀ k', (s.holders k').nIndex = (s.holders k).nIndex → k' = k
  notReissued : NotReissued s.log
  once : Once s.log

/-- The reservations agree with the records and with what was obtained. -/
structure Sound (K : KeySource) (N : Nat) (s : KeyPoolRun) : Prop where
  wallet : s.wallet.Sound K N
  held : ∀ k, (s.holders k).nIndex ≠ -1 → 1 ≤ (s.holders k).nIndex ∧
    s.wallet.pool.lookup (s.holders k).nIndex = some (s.holders k).vchPubKey
  logged : ∀ k, (s.holders k).nIndex ≠ -1 →
    ⟨some k, (s.holders k).nIndex, (s.holders k).vchPubKey, .outstanding⟩ ∈ s.log
  outstanding : ∀ o ∈ s.log, o.fate = .outstanding →
    ∃ k, o.holder = some k ∧ s.holders k = ⟨o.nIndex, o.vchPubKey⟩ ∧ o.nIndex ≠ -1
  kept : ∀ o ∈ s.log, o.fate = .kept → ∀ i, s.wallet.pool.lookup i = some o.vchPubKey →
    i ∉ s.wallet.setKeyPool ∧ ∀ k, (s.holders k).nIndex ≠ -1 → (s.holders k).nIndex ≠ i
  unmade : ∀ o ∈ s.log, ∀ n, s.wallet.nMade ≤ n → n < N → o.vchPubKey ≠ K.makeNewKey n
  safe : s.HandsOutOnce

/-- No reserved index is among the next `count`. -/
def Clear (s : KeyPoolRun) (count : Nat) : Prop := ∀ k, (s.holders k).nIndex ≠ -1 →
    ¬ (s.wallet.nEnd ≤ (s.holders k).nIndex ∧ (s.holders k).nIndex < s.wallet.nEnd + count)

variable {s : KeyPoolRun} {count : Nat} {w' : WalletKeys} {i : Int} {key : CPubKey}

/-- **Topping up**, clear of what is reserved. -/
theorem Sound.topUp (h : s.Sound K N) (hclear : s.Clear count)
    (ht : s.wallet.ToppedUp K N count w') : Sound K N { s with wallet := w' } where
  wallet := ht.sound
  held k hk := ⟨(h.held k hk).1, (ht.pool _ (hclear k hk)).trans (h.held k hk).2⟩
  logged := h.logged
  outstanding := h.outstanding
  kept o ho hkept i hi := by
    by_cases hnew : s.wallet.nEnd ≤ i ∧ i < s.wallet.nEnd + count
    · obtain ⟨n, hn, hlt, hlook⟩ := ht.new i hnew
      exact absurd (Option.some.inj (hi.symm.trans hlook)) (h.unmade o ho n hn (hlt.trans_le ht.le))
    · obtain ⟨hset, hheld⟩ := h.kept o ho hkept i ((ht.pool i hnew).symm.trans hi)
      refine ⟨fun hmem => ?_, hheld⟩
      rcases (ht.mem i).mp hmem with hmem | hmem
      · exact hset hmem
      · exact hnew hmem
  unmade o ho n hn hlt := h.unmade o ho n (ht.nMade.trans hn) hlt
  safe := by
    refine ⟨ht.sound.stored, fun k hk => ⟨fun hmem => ?_, (h.safe.apart k hk).2⟩,
      h.safe.notReissued,
      h.safe.once⟩
    rcases (ht.mem _).mp hmem with hmem | hmem
    · exact (h.safe.apart k hk).1 hmem
    · exact hclear k hk hmem

variable {o : Obtained} {holder : Nat} {log : List Obtained} {fate : Fate} {op : KeyPoolOp}
  {w : WalletKeys} {ops past : List KeyPoolOp} {last : KeyPoolRun}

theorem Sound.earlier (h : s.Sound K N) (hi : i ∈ s.wallet.setKeyPool)
    (hkey : s.wallet.pool.lookup i = some key) (ho : o ∈ s.log) :
    (o.nIndex = i → o.fate ≠ .outstanding) ∧ (o.vchPubKey = key → o.fate = .returned) := by
  have hout : o.fate = .outstanding →
      o.nIndex ∉ s.wallet.setKeyPool ∧ s.wallet.pool.lookup o.nIndex = some o.vchPubKey := by
    intro hfate
    obtain ⟨k, -, hk, hne⟩ := h.outstanding o ho hfate
    have hne' : (s.holders k).nIndex ≠ -1 := by rwa [hk]
    have hapart := (h.safe.apart k hne').1
    have hlook := (h.held k hne').2
    rw [hk] at hapart hlook
    exact ⟨hapart, hlook⟩
  constructor
  · intro hidx hfate
    exact (hout hfate).1 (hidx ▸ hi)
  · intro hsame
    rw [← hsame] at hkey
    cases hfate : o.fate with
    | returned => rfl
    | kept => exact absurd hi (h.kept o ho hfate i hkey).1
    | outstanding =>
      obtain ⟨hset, hlook⟩ := hout hfate
      exact absurd (h.wallet.distinct _ _ _ hlook hkey ▸ hi) hset

theorem Sound.pairwise (h : s.Sound K N) (hi : i ∈ s.wallet.setKeyPool)
    (hkey : s.wallet.pool.lookup i = some key) (holder : Option Nat) (fate : Fate) :
    NotReissued (s.log ++ [⟨holder, i, key, fate⟩]) ∧ Once (s.log ++ [⟨holder, i, key, fate⟩]) := by
  constructor
  · refine List.pairwise_append.mpr ⟨h.safe.notReissued, List.pairwise_singleton _ _, ?_⟩
    intro o ho o' ho'
    rw [List.mem_singleton.mp ho']
    exact (h.earlier hi hkey ho).1
  · refine List.pairwise_append.mpr ⟨h.safe.once, List.pairwise_singleton _ _, ?_⟩
    intro o ho o' ho'
    rw [List.mem_singleton.mp ho']
    exact (h.earlier hi hkey ho).2

/-- **A holder that has no reservation gets one.** -/
theorem Sound.reserve (h : s.Sound K N) (hfree : (s.holders holder).nIndex = -1)
    (hi : i ∈ s.wallet.setKeyPool) (hkey : s.wallet.pool.lookup i = some key) :
    Sound K N {
      wallet := { s.wallet with setKeyPool := s.wallet.setKeyPool.erase i }
      holders := Function.update s.holders holder ⟨i, key⟩
      log := s.log ++ [⟨some holder, i, key, .outstanding⟩] } := by
  have hpos : 1 ≤ i := h.wallet.positive i hi
  have hne : i ≠ -1 := by omega
  -- no other holder has the index
  have hother : ∀ k, (s.holders k).nIndex ≠ -1 → (s.holders k).nIndex ≠ i := by
    intro k hk heq
    exact (h.safe.apart k hk).1 (heq ▸ hi)
  obtain ⟨hissued, honce⟩ := h.pairwise hi hkey (some holder) .outstanding
  refine ⟨h.wallet.take i, fun k hk => ?_, fun k hk => ?_, fun o ho hfate => ?_,
    fun o ho hfate j hj => ?_, fun o ho n hn hlt => ?_,
    ⟨(h.wallet.take i).stored, fun k hk => ?_, hissued, honce⟩⟩
  · dsimp only at hk ⊢
    by_cases hkh : k = holder
    · rw [hkh, Function.update_self]
      exact ⟨hpos, hkey⟩
    · rw [Function.update_of_ne hkh] at hk ⊢
      exact h.held k hk
  · dsimp only at hk ⊢
    by_cases hkh : k = holder
    · rw [hkh, Function.update_self]
      exact List.mem_append_right _ (List.mem_singleton_self _)
    · rw [Function.update_of_ne hkh] at hk ⊢
      exact List.mem_append_left _ (h.logged k hk)
  · dsimp only
    rcases List.mem_append.mp ho with ho | ho
    · obtain ⟨k, hk, hheld, hidx⟩ := h.outstanding o ho hfate
      have hkh : k ≠ holder := by
        intro heq
        rw [heq] at hheld
        rw [hheld] at hfree
        exact hidx hfree
      exact ⟨k, hk, by rw [Function.update_of_ne hkh, hheld], hidx⟩
    · rw [List.mem_singleton.mp ho]
      exact ⟨holder, rfl, Function.update_self _ _ _, hne⟩
  · dsimp only at hj ⊢
    rcases List.mem_append.mp ho with ho | ho
    · obtain ⟨hset, hheld⟩ := h.kept o ho hfate j hj
      refine ⟨fun hmem => hset (Finset.mem_of_mem_erase hmem), fun k hk => ?_⟩
      by_cases hkh : k = holder
      · rw [hkh, Function.update_self]
        exact fun heq => hset (heq ▸ hi)
      · rw [Function.update_of_ne hkh] at hk ⊢
        exact hheld k hk
    · rw [List.mem_singleton.mp ho] at hfate
      simp at hfate
  · rcases List.mem_append.mp ho with ho | ho
    · exact h.unmade o ho n hn hlt
    · rw [List.mem_singleton.mp ho]
      exact fun heq => h.wallet.unmade i n hn hlt (heq ▸ hkey)
  · dsimp only at hk ⊢
    by_cases hkh : k = holder
    · subst hkh
      rw [Function.update_self]
      refine ⟨Finset.notMem_erase i _, fun k' hk' => ?_⟩
      by_contra hne'
      rw [Function.update_of_ne hne'] at hk'
      exact hother k' (by rw [hk']; exact hne) hk'
    · rw [Function.update_of_ne hkh] at hk ⊢
      refine ⟨fun hmem => (h.safe.apart k hk).1 (Finset.mem_of_mem_erase hmem), fun k' hk' => ?_⟩
      by_cases hkh' : k' = holder
      · rw [hkh', Function.update_self] at hk'
        exact absurd hk'.symm (hother k hk)
      · rw [Function.update_of_ne hkh'] at hk'
        exact (h.safe.apart k hk).2 k' hk'

/-- **A key is taken and kept at once.** -/
theorem Sound.takeAndKeep (h : s.Sound K N) (hi : i ∈ s.wallet.setKeyPool)
    (hkey : s.wallet.pool.lookup i = some key) :
    Sound K N { s with
      wallet := ({ s.wallet with setKeyPool := s.wallet.setKeyPool.erase i }).keepKey i
      log := s.log ++ [⟨none, i, key, .kept⟩] } := by
  have hother : ∀ k, (s.holders k).nIndex ≠ -1 → (s.holders k).nIndex ≠ i := by
    intro k hk heq
    exact (h.safe.apart k hk).1 (heq ▸ hi)
  have hwallet := (h.wallet.take i).keepKey (Finset.notMem_erase i s.wallet.setKeyPool)
  obtain ⟨hissued, honce⟩ := h.pairwise hi hkey none .kept
  refine ⟨hwallet, fun k hk => ?_, fun k hk => List.mem_append_left _ (h.logged k hk),
    fun o ho hfate => ?_, fun o ho hfate j hj => ?_, fun o ho n hn hlt => ?_,
    ⟨hwallet.stored, fun k hk => ?_, hissued, honce⟩⟩
  · exact ⟨(h.held k hk).1, (WalletKeys.lookup_keepKey (hother k hk)).trans (h.held k hk).2⟩
  · rcases List.mem_append.mp ho with ho | ho
    · exact h.outstanding o ho hfate
    · rw [List.mem_singleton.mp ho] at hfate
      simp at hfate
  · have hlook : ({ s.wallet with setKeyPool := s.wallet.setKeyPool.erase i } :
        WalletKeys).pool.lookup j = some o.vchPubKey := WalletKeys.lookup_of_keepKey hj
    dsimp only at hlook
    rw [WalletKeys.setKeyPool_keepKey]
    rcases List.mem_append.mp ho with ho | ho
    · obtain ⟨hset, hheld⟩ := h.kept o ho hfate j hlook
      exact ⟨fun hmem => hset (Finset.mem_of_mem_erase hmem), hheld⟩
    · rw [List.mem_singleton.mp ho] at hlook
      rw [h.wallet.distinct j i key hlook hkey]
      exact ⟨Finset.notMem_erase i _, hother⟩
  · rw [WalletKeys.nMade_keepKey] at hn
    rcases List.mem_append.mp ho with ho | ho
    · exact h.unmade o ho n hn hlt
    · rw [List.mem_singleton.mp ho]
      exact fun heq => h.wallet.unmade i n hn hlt (heq ▸ hkey)
  · rw [WalletKeys.setKeyPool_keepKey]
    exact ⟨fun hmem => (h.safe.apart k hk).1 (Finset.mem_of_mem_erase hmem), (h.safe.apart k hk).2⟩

/-! ## A reservation ends -/

theorem mem_settle : o ∈ settle log holder fate ↔ ∃ o0 ∈ log,
      o = if o0.holder = some holder ∧ o0.fate = .outstanding then
      { o0 with fate := fate } else o0 := by
  simp only [settle, List.mem_map, eq_comm]

theorem settle_cases (h : o ∈ settle log holder fate) :
    (o.fate = fate ∧ ⟨some holder, o.nIndex, o.vchPubKey, .outstanding⟩ ∈ log) ∨
      (o ∈ log ∧ ¬ (o.holder = some holder ∧ o.fate = .outstanding)) := by
  obtain ⟨o0, ho0, heq⟩ := mem_settle.mp h
  split at heq
  · rename_i hcond
    subst heq
    refine Or.inl ⟨rfl, ?_⟩
    rw [← hcond.1, ← hcond.2]
    exact ho0
  · rename_i hcond
    subst heq
    exact Or.inr ⟨ho0, hcond⟩

theorem HandsOutOnce.pairwise_settle (h : s.HandsOutOnce) (holder : Nat)
    (hfate : fate ≠ .outstanding) :
    NotReissued (settle s.log holder fate) ∧ Once (settle s.log holder fate) := by
  -- an entry keeps its index and its key, and its fate unless it was outstanding
  have hidx : ∀ o : Obtained, (if o.holder = some holder ∧ o.fate = .outstanding then
      { o with fate := fate } else o).nIndex = o.nIndex := fun o => by split <;> rfl
  have hkey : ∀ o : Obtained, (if o.holder = some holder ∧ o.fate = .outstanding then
      { o with fate := fate } else o).vchPubKey = o.vchPubKey := fun o => by split <;> rfl
  constructor
  · refine List.pairwise_map.mpr (h.notReissued.imp fun {o o'} hpair hsame => ?_)
    rw [hidx, hidx] at hsame
    split
    · exact hfate
    · exact hpair hsame
  · refine List.pairwise_map.mpr (h.once.imp fun {o o'} hpair hsame => ?_)
    rw [hkey, hkey] at hsame
    have hret := hpair hsame
    rw [if_neg]
    · exact hret
    · rintro ⟨-, hout⟩
      rw [hret] at hout
      simp at hout

/-- **A reservation ends**, and its index may go back into the set if the key was not kept. -/
theorem Sound.settle (h : s.Sound K N) (holder : Nat) (hfate : fate ≠ .outstanding)
    (hwallet : w'.Sound K N) (hmade : s.wallet.nMade ≤ w'.nMade)
    (hset : ∀ j ∈ w'.setKeyPool, j ∈ s.wallet.setKeyPool ∨
      (fate = .returned ∧ j = (s.holders holder).nIndex ∧ (s.holders holder).nIndex ≠ -1))
    (hback : ∀ j key, w'.pool.lookup j = some key → s.wallet.pool.lookup j = some key)
    (hsame : ∀ j, j ≠ (s.holders holder).nIndex → w'.pool.lookup j = s.wallet.pool.lookup j) :
    Sound K N {
      wallet := w'
      holders := Function.update s.holders holder {}
      log := KeyPoolRun.settle s.log holder fate } := by
  obtain ⟨hissued, honce⟩ := h.safe.pairwise_settle holder hfate
  -- who still has a reservation is another holder, with another index
  have hothers : ∀ k, (Function.update s.holders holder {} k).nIndex ≠ -1 →
      k ≠ holder ∧ Function.update s.holders holder {} k = s.holders k ∧
        (s.holders k).nIndex ≠ -1 ∧ (s.holders k).nIndex ≠ (s.holders holder).nIndex := by
    intro k hk
    have hkh : k ≠ holder := by
      intro heq
      rw [heq, Function.update_self] at hk
      exact hk rfl
    rw [Function.update_of_ne hkh] at hk ⊢
    exact ⟨hkh, rfl, hk, fun heq => hkh ((h.safe.apart k hk).2 holder heq.symm).symm⟩
  refine ⟨hwallet, fun k hk => ?_, fun k hk => ?_, fun o ho hout => ?_, fun o ho hkept j hj => ?_,
    fun o ho n hn hlt => ?_, ⟨hwallet.stored, fun k hk => ?_, hissued, honce⟩⟩
  · obtain ⟨-, heq, hk, hne⟩ := hothers k hk
    dsimp only
    rw [heq]
    exact ⟨(h.held k hk).1, (hsame _ hne).trans (h.held k hk).2⟩
  · obtain ⟨hkh, heq, hk, -⟩ := hothers k hk
    dsimp only
    rw [heq]
    refine mem_settle.mpr ⟨_, h.logged k hk, ?_⟩
    rw [if_neg]
    rintro ⟨hsome, -⟩
    exact hkh (Option.some.inj hsome)
  · rcases settle_cases ho with ⟨hf, -⟩ | ⟨ho, hnot⟩
    · exact absurd (hf.symm.trans hout) hfate
    · obtain ⟨k, hk, hheld, hidx⟩ := h.outstanding o ho hout
      refine ⟨k, hk, ?_, hidx⟩
      dsimp only
      rw [Function.update_of_ne, hheld]
      intro heq
      exact hnot ⟨by rw [hk, heq], hout⟩
  · have hlook := hback j _ hj
    rcases settle_cases ho with ⟨hf, ho⟩ | ⟨ho, -⟩
    · -- the key that is kept now
      obtain ⟨k, hk, hheld, hidx⟩ := h.outstanding _ ho rfl
      obtain rfl := Option.some.inj hk
      have hne : (s.holders holder).nIndex ≠ -1 := by rwa [hheld]
      have hkey := (h.held holder hne).2
      rw [hheld] at hkey
      have hj : j = (s.holders holder).nIndex := by
        rw [hheld]
        exact h.wallet.distinct j _ _ hlook hkey
      refine ⟨fun hmem => ?_, fun k hk => ?_⟩
      · rcases hset j hmem with hmem | ⟨hret, -⟩
        · exact (h.safe.apart holder hne).1 (hj ▸ hmem)
        · rw [hf.symm.trans hkept] at hret
          simp at hret
      · obtain ⟨-, heq, -, hne'⟩ := hothers k hk
        dsimp only
        rw [heq, hj]
        exact hne'
    · obtain ⟨hnot, hheld⟩ := h.kept o ho hkept j hlook
      refine ⟨fun hmem => ?_, fun k hk => ?_⟩
      · rcases hset j hmem with hmem | ⟨-, heq, hne⟩
        · exact hnot hmem
        · exact hheld holder hne heq.symm
      · obtain ⟨-, heq, hk, -⟩ := hothers k hk
        dsimp only
        rw [heq]
        exact hheld k hk
  · have hn' : s.wallet.nMade ≤ n := hmade.trans hn
    rcases settle_cases ho with ⟨-, ho⟩ | ⟨ho, -⟩
    · exact h.unmade _ ho n hn' hlt
    · exact h.unmade o ho n hn' hlt
  · obtain ⟨-, heq, hk, hne⟩ := hothers k hk
    dsimp only
    rw [heq]
    refine ⟨fun hmem => ?_, fun k' hk' => ?_⟩
    · rcases hset _ hmem with hmem | ⟨-, hidx, -⟩
      · exact (h.safe.apart k hk).1 hmem
      · exact hne hidx
    · by_cases hkh : k' = holder
      · rw [hkh, Function.update_self] at hk'
        exact absurd hk'.symm hk
      · rw [Function.update_of_ne hkh] at hk'
        exact (h.safe.apart k hk).2 k' hk'

theorem Sound.keepKey (h : s.Sound K N) (holder : Nat) : (s.keepKey holder).Sound K N := by
  unfold KeyPoolRun.keepKey
  split
  · exact h.settle holder (by simp) h.wallet (le_refl _) (fun j hj => Or.inl hj)
      (fun j key hj => hj)
      fun j _ => rfl
  · rename_i hne
    refine h.settle holder (by simp) (h.wallet.keepKey (h.safe.apart holder hne).1) ?_
      (fun j hj => Or.inl ?_) (fun j key hj => WalletKeys.lookup_of_keepKey hj)
      fun j hj => WalletKeys.lookup_keepKey hj
    · rw [WalletKeys.nMade_keepKey]
    · rwa [WalletKeys.setKeyPool_keepKey] at hj

theorem Sound.returnKey (h : s.Sound K N) (holder : Nat) : (s.returnKey holder).Sound K N := by
  unfold KeyPoolRun.returnKey
  split
  · exact h.settle holder (by simp) h.wallet (le_refl _) (fun j hj => Or.inl hj)
      (fun j key hj => hj)
      fun j _ => rfl
  · rename_i hne
    obtain ⟨hpos, hkey⟩ := h.held holder hne
    refine h.settle holder (by simp) (h.wallet.returnKey hpos hkey) (le_refl _) (fun j hj => ?_)
      (fun j key hj => hj) fun j _ => rfl
    rcases Finset.mem_insert.mp hj with heq | hj
    · exact Or.inr ⟨rfl, heq, hne⟩
    · exact Or.inl hj

/-! ## Steps -/

theorem Sound.generate (h : s.Sound K N) (hN : s.wallet.nMade < N) :
    Sound K N { s with
      wallet := (s.wallet.generateNewKey K).1
      log := s.log ++ [⟨none, -1, (s.wallet.generateNewKey K).2, .kept⟩] } := by
  have hwallet : (s.wallet.generateNewKey K).1.Sound K N :=
    ⟨h.wallet.fresh, h.wallet.stored, h.wallet.positive, h.wallet.distinct,
      fun i key hi => ⟨List.mem_cons_of_mem _ (h.wallet.known i key hi).1,
        (h.wallet.known i key hi).2⟩,
      fun i n hn hlt => h.wallet.unmade i n (Nat.le_of_succ_le hn) hlt⟩
  refine ⟨hwallet, h.held, fun k hk => List.mem_append_left _ (h.logged k hk),
    fun o ho hfate => ?_, fun o ho hfate j hj => ?_, fun o ho n hn hlt => ?_,
    ⟨hwallet.stored, h.safe.apart, ?_, ?_⟩⟩
  · rcases List.mem_append.mp ho with ho | ho
    · exact h.outstanding o ho hfate
    · rw [List.mem_singleton.mp ho] at hfate
      simp at hfate
  · rcases List.mem_append.mp ho with ho | ho
    · exact h.kept o ho hfate j hj
    · rw [List.mem_singleton.mp ho] at hj
      exact absurd hj (h.wallet.unmade j _ (le_refl _) hN)
  · have hn' : s.wallet.nMade + 1 ≤ n := hn
    rcases List.mem_append.mp ho with ho | ho
    · exact h.unmade o ho n (by omega) hlt
    · rw [List.mem_singleton.mp ho]
      intro heq
      have hsame := h.wallet.fresh _ hN n hlt heq
      omega
  · refine List.pairwise_append.mpr ⟨h.safe.notReissued, List.pairwise_singleton _ _, ?_⟩
    intro o ho o' ho' hidx hfate
    rw [List.mem_singleton.mp ho'] at hidx
    obtain ⟨-, -, -, hne⟩ := h.outstanding o ho hfate
    exact hne hidx
  · refine List.pairwise_append.mpr ⟨h.safe.once, List.pairwise_singleton _ _, ?_⟩
    intro o ho o' ho' hkey
    rw [List.mem_singleton.mp ho'] at hkey
    exact absurd hkey (h.unmade o ho _ (le_refl _) hN)

/-- The keys an operation adds to the pool get no index that is reserved. -/
def TopsUpClear (s : KeyPoolRun) (op : KeyPoolOp) : Prop := s.wallet.fLocked = true ∨
    match op with
    | .topUpKeyPool kpSize => s.Clear (s.wallet.missing kpSize)
    | .getReservedKey holder => (s.holders holder).nIndex = -1 → s.Clear (s.wallet.missing 0)
    | .getKeyFromPool => s.Clear (s.wallet.missing 0)
    | _ => True

theorem clear_zero (s : KeyPoolRun) : s.Clear 0 := by
  intro k _ hrange
  omega

theorem clear_of_locked {kpSize : Nat}
    (h : s.wallet.fLocked = true ∨ s.Clear (s.wallet.missing kpSize)) :
    s.Clear (if s.wallet.fLocked then 0 else s.wallet.missing kpSize) := by
  cases hlocked : s.wallet.fLocked with
  | true => exact clear_zero s
  | false =>
    rcases h with h | h
    · rw [hlocked] at h
      simp at h
    · exact h

variable {s' : KeyPoolRun}

theorem nMade_of_getReservedKey (hfree : (s.holders holder).nIndex = -1)
    (hs : s.getReservedKey K holder = some s') :
    s'.wallet.nMade = (s.wallet.topUpKeyPool K 0).1.nMade := by
  unfold getReservedKey at hs
  rw [if_pos hfree] at hs
  split at hs
  · simp at hs
  · rename_i hr
    obtain rfl := Option.some.inj hs
    exact WalletKeys.nMade_reserve hr
  · rename_i hr
    split at hs
    · obtain rfl := Option.some.inj hs
      exact WalletKeys.nMade_reserve hr
    · obtain rfl := Option.some.inj hs
      exact WalletKeys.nMade_reserve hr

theorem nMade_of_getKeyFromPool (hs : s.getKeyFromPool K = some s') :
    (s.wallet.topUpKeyPool K 0).1.nMade ≤ s'.wallet.nMade := by
  unfold getKeyFromPool at hs
  split at hs
  · simp at hs
  · rename_i hr
    obtain rfl := Option.some.inj hs
    exact (WalletKeys.nMade_reserve hr).ge
  · rename_i w nIndex key hr
    have hmade := WalletKeys.nMade_reserve hr
    split at hs
    · split at hs
      · obtain rfl := Option.some.inj hs
        exact hmade.ge
      · obtain rfl := Option.some.inj hs
        exact hmade.ge.trans (Nat.le_succ _)
    · obtain rfl := Option.some.inj hs
      dsimp only
      rw [WalletKeys.nMade_keepKey]
      exact hmade.ge

theorem nMade_le_of_step (hs : s.step K op = some s') : s.wallet.nMade ≤ s'.wallet.nMade := by
  cases op with
  | setLocked fLocked =>
    obtain rfl := Option.some.inj hs
    exact le_refl _
  | topUpKeyPool kpSize =>
    obtain rfl := Option.some.inj hs
    exact WalletKeys.nMade_topUp s.wallet kpSize
  | getReservedKey holder =>
    simp only [step] at hs
    by_cases hfree : (s.holders holder).nIndex = -1
    · rw [nMade_of_getReservedKey hfree hs]
      exact WalletKeys.nMade_topUp s.wallet 0
    · rw [getReservedKey, if_neg hfree] at hs
      split at hs
      · obtain rfl := Option.some.inj hs
        exact le_refl _
      · simp at hs
  | keepKey holder =>
    obtain rfl := Option.some.inj hs
    simp only [keepKey]
    split
    · exact le_refl _
    · rw [WalletKeys.nMade_keepKey]
  | returnKey holder =>
    obtain rfl := Option.some.inj hs
    simp only [returnKey]
    split
    · exact le_refl _
    · exact le_refl _
  | getKeyFromPool => exact (WalletKeys.nMade_topUp s.wallet 0).trans (nMade_of_getKeyFromPool hs)

/-- **One operation** that gives no reserved index to a new key. -/
theorem Sound.step (h : s.Sound K N) (hclear : s.TopsUpClear op) (hs : s.step K op = some s')
    (hN : s'.wallet.nMade ≤ N) : s'.Sound K N := by
  cases op with
  | setLocked fLocked =>
    obtain rfl := Option.some.inj hs
    exact ⟨⟨h.wallet.fresh, h.wallet.stored, h.wallet.positive, h.wallet.distinct, h.wallet.known,
      h.wallet.unmade⟩, h.held, h.logged, h.outstanding, h.kept, h.unmade,
      ⟨h.safe.stored, h.safe.apart, h.safe.notReissued, h.safe.once⟩⟩
  | topUpKeyPool kpSize =>
    obtain rfl := Option.some.inj hs
    exact h.topUp (clear_of_locked hclear) (WalletKeys.toppedUp h.wallet kpSize hN)
  | getReservedKey holder =>
    simp only [KeyPoolRun.step] at hs
    by_cases hfree : (s.holders holder).nIndex = -1
    · obtain ⟨t, ht, hr⟩ := WalletKeys.reserve_eq h.wallet (nMade_of_getReservedKey hfree hs ▸ hN)
      have hclear' : s.wallet.fLocked = true ∨ s.Clear (s.wallet.missing 0) :=
        hclear.imp_right fun hc => hc hfree
      have htop := h.topUp (clear_of_locked hclear') ht
      rw [getReservedKey, if_pos hfree] at hs
      rcases hr with ⟨-, hr⟩ | ⟨i, key, hi, hkey, hr⟩
      · rw [hr] at hs
        obtain rfl := Option.some.inj hs
        exact htop
      · have hne : i ≠ -1 := by
          have hpos := ht.sound.positive i hi
          omega
        rw [hr] at hs
        simp only [if_neg hne] at hs
        obtain rfl := Option.some.inj hs
        exact htop.reserve hfree hi hkey
    · rw [getReservedKey, if_neg hfree] at hs
      split at hs
      · obtain rfl := Option.some.inj hs
        exact h
      · simp at hs
  | keepKey holder =>
    obtain rfl := Option.some.inj hs
    exact h.keepKey holder
  | returnKey holder =>
    obtain rfl := Option.some.inj hs
    exact h.returnKey holder
  | getKeyFromPool =>
    simp only [KeyPoolRun.step] at hs
    obtain ⟨t, ht, hr⟩ := WalletKeys.reserve_eq h.wallet ((nMade_of_getKeyFromPool hs).trans hN)
    have htop := h.topUp (clear_of_locked hclear) ht
    rw [getKeyFromPool] at hs
    rcases hr with ⟨-, hr⟩ | ⟨i, key, hi, hkey, hr⟩
    · rw [hr] at hs
      simp only [if_true] at hs
      split at hs
      · obtain rfl := Option.some.inj hs
        exact htop
      · obtain rfl := Option.some.inj hs
        exact htop.generate hN
    · have hne : i ≠ -1 := by
        have hpos := ht.sound.positive i hi
        omega
      rw [hr] at hs
      simp only [if_neg hne] at hs
      obtain rfl := Option.some.inj hs
      exact htop.takeAndKeep hi hkey

/-- **A reserved index that is given to a new key** is in the set again, or obtained again. -/
theorem Sound.clear_of_safe (h : s.Sound K N) (hs : s.step K op = some s')
    (hN : s'.wallet.nMade ≤ N) (hsafe : s'.HandsOutOnce) : s.TopsUpClear op := by
  refine or_iff_not_imp_left.mpr fun hlocked => ?_
  have hcount : ∀ kpSize, (if s.wallet.fLocked then 0 else s.wallet.missing kpSize) =
      s.wallet.missing kpSize := fun kpSize => if_neg hlocked
  cases op with
  | setLocked fLocked => trivial
  | keepKey holder => trivial
  | returnKey holder => trivial
  | topUpKeyPool kpSize =>
    intro k hk hrange
    obtain rfl := Option.some.inj hs
    have ht := WalletKeys.toppedUp h.wallet kpSize hN
    rw [hcount] at ht
    exact (hsafe.apart k hk).1 ((ht.mem _).mpr (Or.inr hrange))
  | getReservedKey holder =>
    intro hfree k hk hrange
    simp only [KeyPoolRun.step] at hs
    obtain ⟨t, ht, hr⟩ := WalletKeys.reserve_eq h.wallet (nMade_of_getReservedKey hfree hs ▸ hN)
    rw [hcount] at ht
    have hmem : (s.holders k).nIndex ∈ t.setKeyPool := (ht.mem _).mpr (Or.inr hrange)
    have hkh : k ≠ holder := fun heq => hk (heq ▸ hfree)
    rcases hr with ⟨hempty, -⟩ | ⟨i, key, hi, -, hr⟩
    · rw [hempty] at hmem
      simp at hmem
    · have hne : i ≠ -1 := by
        have hpos := ht.sound.positive i hi
        omega
      rw [getReservedKey, if_pos hfree, hr] at hs
      simp only [if_neg hne] at hs
      obtain rfl := Option.some.inj hs
      have hold : Function.update s.holders holder ⟨i, key⟩ k = s.holders k :=
        Function.update_of_ne hkh _ _
      have hapart := hsafe.apart k (by dsimp only; rw [hold]; exact hk)
      dsimp only at hapart
      rw [hold] at hapart
      by_cases heq : i = (s.holders k).nIndex
      · exact hkh (hapart.2 holder (by rw [Function.update_self]; exact heq)).symm
      · exact hapart.1 (Finset.mem_erase_of_ne_of_mem (Ne.symm heq) hmem)
  | getKeyFromPool =>
    intro k hk hrange
    simp only [KeyPoolRun.step] at hs
    obtain ⟨t, ht, hr⟩ := WalletKeys.reserve_eq h.wallet ((nMade_of_getKeyFromPool hs).trans hN)
    rw [hcount] at ht
    have hmem : (s.holders k).nIndex ∈ t.setKeyPool := (ht.mem _).mpr (Or.inr hrange)
    rcases hr with ⟨hempty, -⟩ | ⟨i, key, hi, -, hr⟩
    · rw [hempty] at hmem
      simp at hmem
    · have hne : i ≠ -1 := by
        have hpos := ht.sound.positive i hi
        omega
      rw [getKeyFromPool, hr] at hs
      simp only [if_neg hne] at hs
      obtain rfl := Option.some.inj hs
      by_cases heq : i = (s.holders k).nIndex
      · -- the key that is kept at once has the index of the reservation
        have hpair := (List.pairwise_append.mp hsafe.notReissued).2.2 _ (h.logged k hk) _
          (List.mem_singleton_self _)
        exact hpair heq.symm rfl
      · refine (hsafe.apart k hk).1 ?_
        dsimp only
        rw [WalletKeys.setKeyPool_keepKey]
        exact Finset.mem_erase_of_ne_of_mem (Ne.symm heq) hmem

/-! ## Runs -/

theorem Sound.start (h : w.Sound K N) : Sound K N { wallet := w } where
  wallet := h
  held _ hk := absurd rfl hk
  logged _ hk := absurd rfl hk
  outstanding _ ho := absurd ho List.not_mem_nil
  kept _ ho := absurd ho List.not_mem_nil
  unmade _ ho := absurd ho List.not_mem_nil
  safe := ⟨h.stored, fun _ hk => absurd rfl hk, List.Pairwise.nil, List.Pairwise.nil⟩

theorem nMade_le_of_steps (hs : Machine.steps (step K) s ops = some s') :
    s.wallet.nMade ≤ s'.wallet.nMade := by
  induction ops generalizing s with
  | nil =>
    obtain rfl := Option.some.inj hs
    exact le_refl _
  | cons op ops ih =>
    obtain ⟨s1, h1, h2⟩ := Machine.steps_cons_eq_some.mp hs
    exact (nMade_le_of_step h1).trans (ih h2)

theorem nMade_le_of_past (hrun : Machine.steps (step K) { wallet := w } ops = some last)
    (hpast : past <+: ops) (hs : Machine.steps (step K) { wallet := w } past = some s) :
    s.wallet.nMade ≤ last.wallet.nMade := by
  obtain ⟨rest, rfl⟩ := hpast
  rw [Machine.steps, List.foldlM_append] at hrun
  obtain ⟨s1, h1, h2⟩ := Option.bind_eq_some_iff.mp hrun
  obtain rfl := Option.some.inj (hs.symm.trans h1)
  exact nMade_le_of_steps h2

/-- **The run lemma**: as long as every operation leaves the next indices clear. -/
theorem Sound.run (h : w.Sound K last.wallet.nMade)
    (hrun : Machine.steps (KeyPoolRun.step K) { wallet := w } ops = some last)
    (hclear : ∀ past op, past ++ [op] <+: ops →
      ∀ s s', Machine.steps (KeyPoolRun.step K) { wallet := w } past = some s →
      s.step K op = some s' → s.Sound K last.wallet.nMade → s.TopsUpClear op) (hpast : past <+: ops)
    (hs : Machine.steps (KeyPoolRun.step K) { wallet := w } past = some s) :
    s.Sound K last.wallet.nMade := by
  induction past using List.reverseRecOn generalizing s with
  | nil =>
    obtain rfl := Option.some.inj hs
    exact Sound.start h
  | append_singleton past op ih =>
    obtain ⟨s1, h1, h2⟩ := Machine.steps_concat_eq_some.mp hs
    have hsound := ih ((List.prefix_append past [op]).trans hpast) h1
    exact hsound.step (hclear past op hpast s1 s h1 h2 hsound) h2 (nMade_le_of_past hrun hpast hs)

/--
**When the pool hands out no key twice.** From a wallet whose records are in order, in a
run that makes no key twice: the pool's indices have their records, no index is in the set
or obtained while it is reserved, and no key is obtained again unless it was returned, in
every state of the run, iff no operation of it that tops up an unlocked wallet adds the
index of an outstanding reservation; it adds those behind the largest of `setKeyPool`, or
from 1 if that is empty, as many as are missing.
-/
theorem handsOutOnce_iff {w : WalletKeys} {ops : List KeyPoolOp} {last : KeyPoolRun}
    (h : w.Sound K last.wallet.nMade)
    (hrun : Machine.steps (step K) { wallet := w } ops = some last) :
    (∀ past s, past <+: ops → Machine.steps (step K) { wallet := w } past = some s →
      s.HandsOutOnce) ↔
      ∀ past op s, past ++ [op] <+: ops → Machine.steps (step K) { wallet := w } past = some s →
        s.TopsUpClear op := by
  constructor
  · intro hsafe
    -- what is safe after an operation was clear before it
    have hclear : ∀ past op, past ++ [op] <+: ops → ∀ s s',
        Machine.steps (step K) { wallet := w } past = some s → s.step K op = some s' →
        s.Sound K last.wallet.nMade → s.TopsUpClear op := by
      intro past op hpast s s' hs hs' hsound
      have hboth := Machine.steps_concat_eq_some.mpr ⟨s, hs, hs'⟩
      exact hsound.clear_of_safe hs' (nMade_le_of_past hrun hpast hboth) (hsafe _ s' hpast hboth)
    intro past op s hpast hs
    have hsound := Sound.run h hrun hclear ((List.prefix_append past [op]).trans hpast) hs
    obtain ⟨rest, hops⟩ := hpast
    have hnext : ∃ s', s.step K op = some s' := by
      rw [← hops, List.append_assoc, Machine.steps, List.foldlM_append] at hrun
      obtain ⟨s₁, h₁, h₂⟩ := Option.bind_eq_some_iff.mp hrun
      obtain rfl := Option.some.inj (hs.symm.trans h₁)
      obtain ⟨s₂, h₂, -⟩ := Machine.steps_cons_eq_some.mp h₂
      exact ⟨s₂, h₂⟩
    obtain ⟨s', hs'⟩ := hnext
    exact hclear past op ⟨rest, hops⟩ s s' hs hs' hsound
  · intro hclear past s hpast hs
    exact (Sound.run h hrun (fun past op hp s _ hs _ _ => hclear past op s hp hs) hpast hs).safe

/-- Keys that are numbered in their last byte. -/
def numberedKeys : KeySource where
  makeNewKey n := 2 :: (List.replicate 31 0 ++ [UInt8.ofNat n])
  getID key := CompactSize.leValue key
  valid n := by simp [CPubKey.isValid, CPubKey.getLen]

/-- A pool of one key, whose reservation ends before the next begins. -/
theorem handsOutOnce_iff_of_one :
    let ops : List KeyPoolOp := [.getReservedKey 0, .keepKey 0, .getReservedKey 1]
    ∃ last, Machine.steps (step numberedKeys) { wallet := { nKeyPoolArg := 0 } } ops = some last ∧
      ((∀ past s, past <+: ops →
        Machine.steps (step numberedKeys) { wallet := { nKeyPoolArg := 0 } } past =
          some s → s.HandsOutOnce) ↔
        ∀ past op s, past ++ [op] <+: ops → Machine.steps (step numberedKeys)
          { wallet := { nKeyPoolArg := 0 } } past = some s → s.TopsUpClear op) := by
  intro ops
  have hsound : WalletKeys.Sound numberedKeys 2 { nKeyPoolArg := 0 } := by
    refine ⟨by decide, ?_, ?_, ?_, ?_, ?_⟩ <;> simp
  obtain ⟨last, hrun, hmade⟩ : ∃ last, Machine.steps (step numberedKeys)
      { wallet := { nKeyPoolArg := 0 } } ops = some last ∧ last.wallet.nMade = 2 :=
        ⟨_, rfl, by decide⟩
  refine ⟨last, hrun, handsOutOnce_iff ?_ hrun⟩
  rwa [hmade]

/--
A pool of one key is emptied by a first reservation, and the second gets the same index;
the record of its key stands under the index that the first one returns, and the third
gets that key too.
-/
theorem emptied_pool_hands_out_twice :
    ∃ s, Machine.steps (step numberedKeys) { wallet := { nKeyPoolArg := 0 } }
        [.getReservedKey 0, .getReservedKey 1, .returnKey 0, .getReservedKey 2] = some s ∧
      (s.holders 1).vchPubKey = (s.holders 2).vchPubKey ∧ ¬ s.HandsOutOnce := by
  refine ⟨_, rfl, by decide, fun h => ?_⟩
  have honce := h.apart 1 (by decide)
  exact absurd (honce.2 2 (by decide)) (by decide)

end KeyPoolRun

end BitBlocks
