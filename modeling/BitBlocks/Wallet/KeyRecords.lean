import BitBlocks.Wallet.KeyPool

/-!
# The records of the key pool

Whatever is done to it, the indices in `setKeyPool` have records, of different keys that
the wallet knows. The index of a new key is the one behind the largest index of the set,
so that topping the pool up adds a range of indices, and touches the records of that range
alone.
-/

namespace BitBlocks

variable {K : KeySource} {N : Nat}

namespace WalletKeys

/-- The records are those of different keys, and none of them is among the next up to the `N`th. -/
structure Sound (K : KeySource) (N : Nat) (w : WalletKeys) : Prop where
  fresh : K.Distinct N
  stored : ∀ i ∈ w.setKeyPool, ∃ key, w.pool.lookup i = some key
  positive : ∀ i ∈ w.setKeyPool, 1 ≤ i
  distinct : ∀ i j key, w.pool.lookup i = some key → w.pool.lookup j = some key → i = j
  known : ∀ i key, w.pool.lookup i = some key → K.getID key ∈ w.mapKeys ∧ CPubKey.isValid key = true
  unmade : ∀ i n, w.nMade ≤ n → n < N → w.pool.lookup i ≠ some (K.makeNewKey n)

/-- How many keys a call of `TopUpKeyPool` adds. -/
def missing (w : WalletKeys) (kpSize : Nat) : Nat := w.target kpSize - w.setKeyPool.card

variable {w : WalletKeys} {i : Int}

theorem lt_nEnd (h : i ∈ w.setKeyPool) : i < w.nEnd := by
  have hne : w.setKeyPool.Nonempty := ⟨i, h⟩
  have hle := Finset.le_max' w.setKeyPool i h
  rw [nEnd, dif_pos hne]
  omega

theorem nEnd_notMem : w.nEnd ∉ w.setKeyPool := fun h => absurd (lt_nEnd h) (lt_irrefl _)

theorem nEnd_addKey (w : WalletKeys) : (w.addKey K).nEnd = w.nEnd + 1 := by
  have hmem : w.nEnd ∈ (w.addKey K).setKeyPool := Finset.mem_insert_self _ _
  have hne : (w.addKey K).setKeyPool.Nonempty := ⟨_, hmem⟩
  have hmax : (w.addKey K).setKeyPool.max' hne = w.nEnd := by
    refine le_antisymm (Finset.max'_le _ _ _ fun i hi => ?_) (Finset.le_max' _ _ hmem)
    rcases Finset.mem_insert.mp hi with rfl | hi
    · exact le_refl _
    · exact (lt_nEnd hi).le
  conv_lhs => rw [nEnd]
  rw [dif_pos hne, hmax]

theorem card_addKey (w : WalletKeys) : (w.addKey K).setKeyPool.card = w.setKeyPool.card + 1 :=
  Finset.card_insert_of_notMem nEnd_notMem

theorem Sound.one_le_nEnd (h : w.Sound K N) : 1 ≤ w.nEnd := by
  unfold WalletKeys.nEnd
  split
  · rename_i hne
    have hpos := h.positive _ (Finset.max'_mem _ hne)
    omega
  · exact le_refl 1

theorem lookup_addKey (w : WalletKeys) (i : Int) : (w.addKey K).pool.lookup i =
    if i = w.nEnd then some (K.makeNewKey w.nMade) else w.pool.lookup i :=
  Table.lookup_insert _ _ _ _

/-- **One more key.** -/
theorem Sound.addKey (h : w.Sound K N) (hN : w.nMade < N) : (w.addKey K).Sound K N where
  fresh := h.fresh
  stored i hi := by
    rw [lookup_addKey]
    split
    · exact ⟨_, rfl⟩
    · rename_i hne
      rcases Finset.mem_insert.mp hi with heq | hi
      · exact absurd heq hne
      · exact h.stored i hi
  positive i hi := by
    rcases Finset.mem_insert.mp hi with rfl | hi
    · exact h.one_le_nEnd
    · exact h.positive i hi
  distinct i j key hi hj := by
    rw [lookup_addKey] at hi hj
    split at hi <;> split at hj
    · rename_i hi' hj'
      rw [hi', hj']
    · rw [← Option.some.inj hi] at hj
      exact absurd hj (h.unmade j _ (le_refl _) hN)
    · rw [← Option.some.inj hj] at hi
      exact absurd hi (h.unmade i _ (le_refl _) hN)
    · exact h.distinct i j key hi hj
  known i key hi := by
    rw [lookup_addKey] at hi
    split at hi
    · rw [← Option.some.inj hi]
      exact ⟨List.mem_cons_self, K.valid _⟩
    · exact ⟨List.mem_cons_of_mem _ (h.known i key hi).1, (h.known i key hi).2⟩
  unmade i n hn hlt := by
    rw [lookup_addKey]
    have hn' : w.nMade + 1 ≤ n := hn
    split
    · intro heq
      have hsame := h.fresh _ hN n hlt (Option.some.inj heq)
      omega
    · exact h.unmade i n (by omega) hlt

/-- A wallet topped up: indices from `nEnd` on are added, others are as they were. -/
structure ToppedUp (K : KeySource) (N : Nat) (w : WalletKeys) (count : Nat) (w' : WalletKeys) :
    Prop where
  sound : w'.Sound K N
  mem : ∀ i, i ∈ w'.setKeyPool ↔ i ∈ w.setKeyPool ∨ (w.nEnd ≤ i ∧ i < w.nEnd + count)
  pool : ∀ i, ¬ (w.nEnd ≤ i ∧ i < w.nEnd + count) → w'.pool.lookup i = w.pool.lookup i
  new : ∀ i, w.nEnd ≤ i ∧ i < w.nEnd + count →
    ∃ n, w.nMade ≤ n ∧ n < w'.nMade ∧ w'.pool.lookup i = some (K.makeNewKey n)
  nMade : w.nMade ≤ w'.nMade
  le : w'.nMade ≤ N
  fLocked : w'.fLocked = w.fLocked

theorem toppedUp_zero (h : w.Sound K N) (hN : w.nMade ≤ N) : ToppedUp K N w 0 w where
  sound := h
  mem i := by
    refine (or_iff_left fun hi => ?_).symm
    omega
  pool i _ := rfl
  new i hi := by omega
  nMade := le_refl _
  le := hN
  fLocked := rfl

variable {w' : WalletKeys} {key : CPubKey} {j : Int}

theorem ToppedUp.addKey {count : Nat} (ht : ToppedUp K N (w.addKey K) count w') :
    ToppedUp K N w (count + 1) w' where
  sound := ht.sound
  mem i := by
    have hmem : i ∈ (w.addKey K).setKeyPool ↔ i = w.nEnd ∨ i ∈ w.setKeyPool := Finset.mem_insert
    rw [ht.mem, hmem, nEnd_addKey]
    constructor
    · rintro ((rfl | hi) | hi)
      · exact Or.inr (by omega)
      · exact Or.inl hi
      · exact Or.inr (by omega)
    · rintro (hi | hi)
      · exact Or.inl (Or.inr hi)
      · by_cases heq : i = w.nEnd
        · exact Or.inl (Or.inl heq)
        · exact Or.inr (by omega)
  pool i hi := by
    rw [ht.pool i (by rw [nEnd_addKey]; omega), lookup_addKey, if_neg (by omega)]
  new i hi := by
    have hmade : (w.addKey K).nMade = w.nMade + 1 := rfl
    have hle := ht.nMade
    by_cases heq : i = w.nEnd
    · refine ⟨w.nMade, le_refl _, by omega, ?_⟩
      rw [ht.pool i (by rw [nEnd_addKey]; omega), lookup_addKey, if_pos heq]
    · obtain ⟨n, hn, hn', hlook⟩ := ht.new i (by rw [nEnd_addKey]; omega)
      exact ⟨n, by omega, hn', hlook⟩
  nMade := by
    have hmade : (w.addKey K).nMade = w.nMade + 1 := rfl
    have hle := ht.nMade
    omega
  le := ht.le
  fLocked := ht.fLocked

theorem nMade_topUpLoop (w : WalletKeys) (nTarget rounds : Nat) :
    w.nMade ≤ (w.topUpLoop K nTarget rounds).nMade := by
  induction rounds generalizing w with
  | zero => exact le_refl _
  | succ rounds ih =>
    rw [topUpLoop]
    split
    · exact (Nat.le_succ _).trans (ih (w.addKey K))
    · exact le_refl _

/-- **The loop.** -/
theorem toppedUp_loop {nTarget rounds : Nat} (h : w.Sound K N)
    (hrounds : nTarget ≤ rounds + w.setKeyPool.card)
    (hN : (w.topUpLoop K nTarget rounds).nMade ≤ N) :
    ToppedUp K N w (nTarget - w.setKeyPool.card) (w.topUpLoop K nTarget rounds) := by
  induction rounds generalizing w with
  | zero =>
    have hzero : nTarget - w.setKeyPool.card = 0 := by omega
    rw [hzero]
    exact toppedUp_zero h hN
  | succ rounds ih =>
    rw [topUpLoop] at hN ⊢
    split
    · rename_i hlt
      rw [if_pos hlt] at hN
      have hcard := card_addKey (K := K) w
      have hmade : w.nMade + 1 ≤ ((w.addKey K).topUpLoop K nTarget rounds).nMade :=
        nMade_topUpLoop (w.addKey K) nTarget rounds
      have hnext := ih (h.addKey (by omega)) (by omega) hN
      have hcount : nTarget - w.setKeyPool.card = nTarget - (w.addKey K).setKeyPool.card + 1 := by
        omega
      rw [hcount]
      exact hnext.addKey
    · rename_i hlt
      rw [if_neg hlt] at hN
      have hzero : nTarget - w.setKeyPool.card = 0 := by omega
      rw [hzero]
      exact toppedUp_zero h hN

/-- **Topping up**: it adds as many as are missing, unless the wallet is locked. -/
theorem toppedUp (h : w.Sound K N) (kpSize : Nat) (hN : (w.topUpKeyPool K kpSize).1.nMade ≤ N) :
    ToppedUp K N w (if w.fLocked then 0 else w.missing kpSize) (w.topUpKeyPool K kpSize).1 := by
  unfold topUpKeyPool at hN ⊢
  cases hlocked : w.fLocked with
  | true =>
    rw [hlocked] at hN
    exact toppedUp_zero h hN
  | false =>
    rw [hlocked] at hN
    exact toppedUp_loop h (by omega) hN

/-- The wallet that the oldest key is taken from: a locked one would not have been topped up
anyway. -/
theorem topUp_unlocked (w : WalletKeys) :
    (if w.fLocked then w else (w.topUpKeyPool K 0).1) = (w.topUpKeyPool K 0).1 := by
  unfold topUpKeyPool
  split <;> rfl

theorem nMade_topUp (w : WalletKeys) (kpSize : Nat) :
    w.nMade ≤ (w.topUpKeyPool K kpSize).1.nMade := by
  unfold topUpKeyPool
  split
  · exact le_refl _
  · exact nMade_topUpLoop w _ _

theorem nMade_reserve {r : Except String CPubKey}
    (h : w.reserveKeyFromKeyPool K = some (w', i, r)) :
    w'.nMade = (w.topUpKeyPool K 0).1.nMade := by
  unfold reserveKeyFromKeyPool at h
  rw [topUp_unlocked] at h
  dsimp only at h
  split at h
  · split at h
    · obtain rfl := (Prod.mk.inj (Option.some.inj h)).1
      rfl
    · split at h
      · obtain rfl := (Prod.mk.inj (Option.some.inj h)).1
        rfl
      · split at h
        · obtain rfl := (Prod.mk.inj (Option.some.inj h)).1
          rfl
        · simp at h
  · obtain rfl := (Prod.mk.inj (Option.some.inj h)).1
    rfl

/-- A key is taken: its record stays. -/
theorem Sound.take (h : w.Sound K N) (i : Int) :
    Sound K N { w with setKeyPool := w.setKeyPool.erase i } where
  fresh := h.fresh
  stored j hj := h.stored j (Finset.mem_of_mem_erase hj)
  positive j hj := h.positive j (Finset.mem_of_mem_erase hj)
  distinct := h.distinct
  known := h.known
  unmade := h.unmade

theorem Sound.keepKey (h : w.Sound K N) (hi : i ∉ w.setKeyPool) : (w.keepKey i).Sound K N := by
  unfold WalletKeys.keepKey
  split
  · refine ⟨h.fresh, fun j hj => ?_, h.positive, fun j j' key hj hj' => ?_, fun j key hj => ?_,
      fun j n hn hlt hj => ?_⟩
    · obtain ⟨key, hkey⟩ := h.stored j hj
      exact ⟨key, Table.erase_eq_some.mpr ⟨hkey, fun heq => hi (heq ▸ hj)⟩⟩
    · exact h.distinct j j' key (Table.erase_eq_some.mp hj).1 (Table.erase_eq_some.mp hj').1
    · exact h.known j key (Table.erase_eq_some.mp hj).1
    · exact h.unmade j n hn hlt (Table.erase_eq_some.mp hj).1
  · exact h

theorem Sound.returnKey (h : w.Sound K N) (hpos : 1 ≤ i) (hkey : w.pool.lookup i = some key) :
    (w.returnKey i).Sound K N where
  fresh := h.fresh
  stored j hj := by
    rcases Finset.mem_insert.mp hj with rfl | hj
    · exact ⟨key, hkey⟩
    · exact h.stored j hj
  positive j hj := by
    rcases Finset.mem_insert.mp hj with rfl | hj
    · exact hpos
    · exact h.positive j hj
  distinct := h.distinct
  known := h.known
  unmade := h.unmade

@[simp] theorem setKeyPool_keepKey (w : WalletKeys) (i : Int) :
    (w.keepKey i).setKeyPool = w.setKeyPool := by
  unfold keepKey
  split <;> rfl

@[simp] theorem nMade_keepKey (w : WalletKeys) (i : Int) : (w.keepKey i).nMade = w.nMade := by
  unfold keepKey
  split <;> rfl

theorem lookup_of_keepKey (h : (w.keepKey i).pool.lookup j = some key) :
    w.pool.lookup j = some key := by
  unfold keepKey at h
  split at h
  · exact (Table.erase_eq_some.mp h).1
  · exact h

theorem lookup_keepKey (hj : j ≠ i) : (w.keepKey i).pool.lookup j = w.pool.lookup j := by
  unfold keepKey
  split
  · exact (Table.lookup_erase _ _ _).trans (if_neg hj)
  · rfl

/-- **Reserving a key**: after topping up the oldest key is taken, if there is one. -/
theorem reserve_eq (h : w.Sound K N) (hN : (w.topUpKeyPool K 0).1.nMade ≤ N) :
    ∃ t, ToppedUp K N w (if w.fLocked then 0 else w.missing 0) t ∧
      ((t.setKeyPool = ∅ ∧ w.reserveKeyFromKeyPool K = some (t, -1, .ok [])) ∨
        ∃ i key, i ∈ t.setKeyPool ∧ t.pool.lookup i = some key ∧ w.reserveKeyFromKeyPool K =
            some ({ t with setKeyPool := t.setKeyPool.erase i }, i, .ok key)) := by
  refine ⟨_, toppedUp h 0 hN, ?_⟩
  have ht := toppedUp h 0 hN
  unfold reserveKeyFromKeyPool
  rw [topUp_unlocked]
  generalize (w.topUpKeyPool K 0).1 = t at ht
  by_cases hne : t.setKeyPool.Nonempty
  · have hmem := Finset.min'_mem t.setKeyPool hne
    obtain ⟨key, hkey⟩ := ht.sound.stored _ hmem
    obtain ⟨hid, hvalid⟩ := ht.sound.known _ key hkey
    refine Or.inr ⟨_, key, hmem, hkey, ?_⟩
    simp only [dif_pos hne, hkey]
    rw [if_neg (not_not_intro hid), if_pos hvalid]
  · exact Or.inl ⟨Finset.not_nonempty_iff_eq_empty.mp hne, dif_neg hne⟩

end WalletKeys

end BitBlocks
