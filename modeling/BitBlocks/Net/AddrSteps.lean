import BitBlocks.Net.AddrKept

/-!
# The operations of the address manager, one by one

Each operation ends in a state that keeps what the one before kept, or stops at a
counter that overflows after more than `2 ^ 31 - 2` calls; no assertion fails.
-/

namespace BitBlocks

open Hoare

namespace CAddrMan

variable {hash64 : List UInt8 → Nat} {nKey : Uint256} {made : Nat} {free : List Int} {loose : Int}
  {s : CAddrMan}
  {nId : Int} {info info' : CAddrInfo}

/-! ## The directory -/

variable {p₁ p₂ : Nat} {n : Int} {p : Nat × Nat}

theorem Directory.swap (h : Directory s) {n1 n2 : Int} {i1 i2 : CAddrInfo} (hne : p₁ ≠ p₂)
    (h1 : s.vRandom[p₁]? = some n1) (h2 : s.vRandom[p₂]? = some n2)
    (hi1 : s.mapInfo.lookup n1 = some i1) (hi2 : s.mapInfo.lookup n2 = some i2) :
    Directory { (s.withInfo n1 { i1 with nRandomPos := p₂ }).withInfo n2
      { i2 with nRandomPos := p₁ }
      with vRandom := (s.vRandom.set p₁ n2).set p₂ n1 } := by
  have hlt1 := (List.getElem?_eq_some_iff.mp h1).1
  have hlt2 := (List.getElem?_eq_some_iff.mp h2).1
  have hpos1 : i1.nRandomPos = p₁ := by
    obtain ⟨i, hi, hpos⟩ := h.random p₁ n1 h1
    obtain rfl := Option.some.inj (hi.symm.trans hi1)
    exact hpos
  have hpos2 : i2.nRandomPos = p₂ := by
    obtain ⟨i, hi, hpos⟩ := h.random p₂ n2 h2
    obtain rfl := Option.some.inj (hi.symm.trans hi2)
    exact hpos
  have hids : n1 ≠ n2 := by
    rintro rfl
    obtain rfl := Option.some.inj (hi1.symm.trans hi2)
    omega
  -- an entry keeps everything but its position, and the position follows the swap
  have hvec : ∀ k, ((s.vRandom.set p₁ n2).set p₂ n1)[k]? = s.vRandom[Equiv.swap p₁ p₂ k]? := by
    intro k
    rcases eq_or_ne k p₂ with rfl | hk2
    · rw [List.getElem?_set_self (by rw [List.length_set]; exact hlt2), Equiv.swap_apply_right, h1]
    · rw [List.getElem?_set_ne hk2.symm]
      rcases eq_or_ne k p₁ with rfl | hk1
      · rw [List.getElem?_set_self hlt1, Equiv.swap_apply_left, h2]
      · rw [List.getElem?_set_ne hk1.symm, Equiv.swap_apply_of_ne_of_ne hk1 hk2]
  have hmap : ∀ x, ((s.withInfo n1 { i1 with nRandomPos := p₂ }).withInfo n2
      { i2 with nRandomPos := p₁ }).mapInfo.lookup x = (s.mapInfo.lookup x).map fun i =>
        { i with nRandomPos := (Equiv.swap p₁ p₂ i.nRandomPos.toNat : Nat) } := by
    intro x
    rw [lookup_withInfo, lookup_withInfo]
    split_ifs with hx2 hx1
    · rw [hx2, hi2, Option.map_some, hpos2, Int.toNat_natCast, Equiv.swap_apply_right]
    · rw [hx1, hi1, Option.map_some, hpos1, Int.toNat_natCast, Equiv.swap_apply_left]
    · rcases hx : s.mapInfo.lookup x with _ | i
      · rfl
      · obtain ⟨k, hk, hvk⟩ := h.placed x i hx
        have hk1 : k ≠ p₁ := by
          rintro rfl
          exact hx1 (Option.some.inj (hvk.symm.trans h1))
        have hk2 : k ≠ p₂ := by
          rintro rfl
          exact hx2 (Option.some.inj (hvk.symm.trans h2))
        rw [Option.map_some, hk, Int.toNat_natCast, Equiv.swap_apply_of_ne_of_ne hk1 hk2, ← hk]
  have hback : ∀ x i, ((s.withInfo n1 { i1 with nRandomPos := p₂ }).withInfo n2
      { i2 with nRandomPos := p₁ }).mapInfo.lookup x = some i →
      ∃ j, s.mapInfo.lookup x = some j ∧
        { j with nRandomPos := (Equiv.swap p₁ p₂ j.nRandomPos.toNat : Nat) } = i := by
    intro x i hx
    rw [hmap] at hx
    exact Option.map_eq_some_iff.mp hx
  refine ⟨fun x i hx => ?_, fun x i hx => ?_, fun a x hx => ?_, fun x i hx => ?_,
    fun k x hx => ?_, ?_, h.count⟩
  · obtain ⟨j, hj, -⟩ := hback x i hx
    exact h.ids x j hj
  · obtain ⟨j, hj, rfl⟩ := hback x i hx
    exact h.known x j hj
  · obtain ⟨j, hj, hip⟩ := h.addr a x hx
    exact ⟨_, (hmap x).trans (congrArg _ hj), hip⟩
  · obtain ⟨j, hj, rfl⟩ := hback x i hx
    obtain ⟨k, hk, hvk⟩ := h.placed x j hj
    refine ⟨Equiv.swap p₁ p₂ k, by rw [hk, Int.toNat_natCast], (hvec _).trans ?_⟩
    rw [Equiv.swap_apply_self, hvk]
  · obtain ⟨j, hj, hpos⟩ := h.random _ x ((hvec k).symm.trans hx)
    refine ⟨_, (hmap x).trans (congrArg _ hj), ?_⟩
    dsimp only
    rw [hpos, Int.toNat_natCast, Equiv.swap_apply_self]
  · have hsize1 := total_withInfo (fun _ => 1) hi1 { i1 with nRandomPos := p₂ } rfl
    have hi₂' : (s.withInfo n1 { i1 with nRandomPos := p₂ }).mapInfo.lookup n2 = some i2 := by
      rw [lookup_withInfo, if_neg hids.symm, hi2]
    have hsize2 := total_withInfo (fun _ => 1) hi₂' { i2 with nRandomPos := p₁ } rfl
    refine ((List.length_set ..).trans (List.length_set ..)).trans ?_
    exact h.size.trans (hsize2.trans hsize1).symm

/-- The last number is dropped. -/
theorem Directory.remove (h : Directory s) (hlook : s.mapInfo.lookup nId = some info)
    (hlast : s.vRandom[s.vRandom.length - 1]? = some nId) :
    Directory { s with
      vRandom := s.vRandom.dropLast
      mapAddr := s.mapAddr.erase info.ip
      mapInfo := s.mapInfo.erase nId
      nNew := s.nNew - 1 } := by
  have hlen := (List.getElem?_eq_some_iff.mp hlast).1
  have hpos : info.nRandomPos = (s.vRandom.length - 1 : Nat) := by
    obtain ⟨i, hi, hpos⟩ := h.random _ nId hlast
    obtain rfl := Option.some.inj (hi.symm.trans hlook)
    exact hpos
  have hkeep : ∀ x j, x ≠ nId → s.mapInfo.lookup x = some j →
      (s.mapInfo.erase nId).lookup x = some j :=
    fun x j hne hx => Table.erase_eq_some.mpr ⟨hx, hne⟩
  have hdrop : ∀ k x, s.vRandom.dropLast[k]? = some x ↔
      s.vRandom[k]? = some x ∧ k < s.vRandom.length - 1 := by
    intro k x
    rw [List.getElem?_dropLast]
    split_ifs with hk
    · exact ⟨fun hx => ⟨hx, hk⟩, fun hx => hx.1⟩
    · exact ⟨fun hx => absurd hx (by simp), fun hx => absurd hx.2 hk⟩
  refine ⟨fun x i hx => ?_, fun x i hx => ?_, fun a x hx => ?_, fun x i hx => ?_,
    fun k x hx => ?_, ?_, h.count⟩
  · exact h.ids x i (Table.erase_eq_some.mp hx).1
  · obtain ⟨hx, hne⟩ := Table.erase_eq_some.mp hx
    refine Table.erase_eq_some.mpr ⟨h.known x i hx, fun hip => hne ?_⟩
    have hknown := h.known x i hx
    rw [hip, h.known nId info hlook] at hknown
    exact (Option.some.inj hknown).symm
  · obtain ⟨hx, hne⟩ := Table.erase_eq_some.mp hx
    obtain ⟨i, hi, hip⟩ := h.addr a x hx
    refine ⟨i, hkeep x i (fun hxn => hne ?_) hi, hip⟩
    rw [hxn] at hi
    obtain rfl := Option.some.inj (hi.symm.trans hlook)
    exact hip.symm
  · obtain ⟨hx, hne⟩ := Table.erase_eq_some.mp hx
    obtain ⟨k, hk, hvk⟩ := h.placed x i hx
    have hklen := (List.getElem?_eq_some_iff.mp hvk).1
    refine ⟨k, hk, (hdrop k x).mpr ⟨hvk, ?_⟩⟩
    have hklast : k ≠ s.vRandom.length - 1 := by
      rintro rfl
      exact hne (Option.some.inj (hvk.symm.trans hlast))
    omega
  · obtain ⟨hvk, hk⟩ := (hdrop k x).mp hx
    obtain ⟨i, hi, hposi⟩ := h.random k x hvk
    refine ⟨i, hkeep x i (fun hxn => ?_) hi, hposi⟩
    rw [hxn] at hi
    obtain rfl := Option.some.inj (hi.symm.trans hlook)
    omega
  · have htotal := Table.total_erase (fun _ => 1) hlook
    have hsize := h.size
    have hgoal : s.vRandom.dropLast.length = Table.total (fun _ => 1) (s.mapInfo.erase nId) := by
      rw [List.length_dropLast]
      omega
    exact hgoal

/-- A new number, at the end. -/
theorem Directory.create (h : Directory s) {addr : CNetAddr} (haddr : s.mapAddr.lookup addr = none)
    (hip : info.ip = addr) (hpos : info.nRandomPos = s.vRandom.length) :
    Directory { s with
      nIdCount := s.nIdCount + 1
      mapInfo := s.mapInfo.insert s.nIdCount info
      mapAddr := s.mapAddr.insert addr s.nIdCount
      vRandom := s.vRandom ++ [s.nIdCount] } := by
  have hfresh : s.mapInfo.lookup s.nIdCount = none := by
    rcases hl : s.mapInfo.lookup s.nIdCount with _ | i
    · rfl
    · exact absurd (h.ids _ i hl).2 (lt_irrefl _)
  have hold : ∀ x i, s.mapInfo.lookup x = some i → x ≠ s.nIdCount := by
    rintro x i hx rfl
    exact absurd (hfresh.symm.trans hx) (by simp)
  have hlookup : ∀ x, (s.mapInfo.insert s.nIdCount info).lookup x =
      if x = s.nIdCount then some info else s.mapInfo.lookup x :=
    fun x => Table.lookup_insert _ _ x _
  have hvec : ∀ k x, (s.vRandom ++ [s.nIdCount])[k]? = some x ↔
      s.vRandom[k]? = some x ∨ (k = s.vRandom.length ∧ x = s.nIdCount) := by
    intro k x
    rcases Nat.lt_trichotomy k s.vRandom.length with hk | rfl | hk
    · rw [List.getElem?_append_left hk]
      exact ⟨Or.inl, fun hx => hx.resolve_right fun hx => by omega⟩
    · rw [List.getElem?_concat_length, List.getElem?_eq_none le_rfl]
      simp [eq_comm]
    · rw [List.getElem?_eq_none (by rw [List.length_append, List.length_singleton]; omega),
        List.getElem?_eq_none (by omega)]
      simp only [reduceCtorEq, false_or, false_iff]
      omega
  refine ⟨fun x i hx => ?_, fun x i hx => ?_, fun a x hx => ?_, fun x i hx => ?_,
    fun k x hx => ?_, ?_, Int.le_add_one h.count⟩
  · have hx' := (hlookup x).symm.trans hx
    have hcount := h.count
    split at hx'
    · rename_i hxn
      exact ⟨hxn ▸ hcount, hxn ▸ Int.lt_add_one_of_le le_rfl⟩
    · obtain ⟨hlow, hhigh⟩ := h.ids x i hx'
      exact ⟨hlow, Int.lt_add_one_of_le hhigh.le⟩
  · have hx' := (hlookup x).symm.trans hx
    refine (Table.lookup_insert _ _ _ _).trans ?_
    split at hx'
    · rename_i hxn
      obtain rfl := Option.some.inj hx'
      rw [if_pos hip, hxn]
    · have hknown := h.known x i hx'
      have hne : i.ip ≠ addr := fun heq => by
        rw [heq, haddr] at hknown
        exact absurd hknown (by simp)
      rw [if_neg hne, hknown]
  · have hx' := (Table.lookup_insert _ _ _ _).symm.trans hx
    split at hx'
    · rename_i ha
      obtain rfl := Option.some.inj hx'
      exact ⟨info, (hlookup _).trans (if_pos rfl), hip.trans ha.symm⟩
    · obtain ⟨i, hi, hia⟩ := h.addr a x hx'
      exact ⟨i, (hlookup x).trans ((if_neg (hold x i hi)).trans hi), hia⟩
  · have hx' := (hlookup x).symm.trans hx
    split at hx'
    · rename_i hxn
      obtain rfl := Option.some.inj hx'
      exact ⟨s.vRandom.length, hpos, (hvec _ _).mpr (Or.inr ⟨rfl, hxn⟩)⟩
    · obtain ⟨k, hk, hvk⟩ := h.placed x i hx'
      exact ⟨k, hk, (hvec _ _).mpr (Or.inl hvk)⟩
  · rcases (hvec k x).mp hx with hvk | ⟨rfl, rfl⟩
    · obtain ⟨i, hi, hposi⟩ := h.random k x hvk
      exact ⟨i, (hlookup x).trans ((if_neg (hold x i hi)).trans hi), hposi⟩
    · exact ⟨info, (hlookup _).trans (if_pos rfl), hpos⟩
  · have htotal := Table.total_insert_of_new (fun _ => 1) hfresh info
    have hsize := h.size
    have hgoal : (s.vRandom ++ [s.nIdCount]).length =
        Table.total (fun _ => 1) (s.mapInfo.insert s.nIdCount info) := by
      rw [List.length_append, List.length_singleton]
      omega
    exact hgoal

/-! ## Steps -/

variable {Q : Unit → CAddrMan → Prop} {E : AddrFailure → CAddrMan → Prop}

theorem wp_infoAt {Q : CAddrInfo → CAddrMan → Prop} (hlook : s.mapInfo.lookup nId = some info) :
    Wp (infoAt nId) Q E s ↔ Q info s := by
  unfold infoAt
  rw [wp_bind, wp_get, hlook]
  rfl

theorem wp_assert {c : Prop} [Decidable c] (hc : c) : Wp (assert c) Q E s ↔ Q () s := by
  rw [assert, if_pos hc]
  rfl

theorem wp_setInfo : Wp (setInfo nId info) Q E s ↔ Q () (s.withInfo nId info) := Iff.rfl

def Overflow (made : Nat) (e : AddrFailure) (_ : CAddrMan) : Prop :=
  e = .overflow ∧ 2 ^ 31 - 1 ≤ made

theorem wp_increment {Q : Int → CAddrMan → Prop} (hn : n ≤ made) (hQ : Q (n + 1) s) :
    Wp (increment n) Q (Overflow made) s := by
  unfold increment
  refine wp_ite.mpr ⟨fun h => ?_, fun _ => hQ⟩
  exact ⟨rfl, by omega⟩

structure Moved (s s' : CAddrMan) : Prop where
  nKey : s'.nKey = s.nKey
  vvTried : s'.vvTried = s.vvTried
  vvNew : s'.vvNew = s.vvNew
  size : s'.vRandom.length = s.vRandom.length
  entries : ∀ x i, s.mapInfo.lookup x = some i →
    ∃ k, s'.mapInfo.lookup x = some { i with nRandomPos := k }

theorem wp_swapRandom (h : Kept hash64 nKey made free loose s) (h1 : p₁ < s.vRandom.length)
    (h2 : p₂ < s.vRandom.length) :
    Wp (swapRandom p₁ p₂) (fun _ s' => Kept hash64 nKey made free loose s' ∧ Moved s s' ∧
      s'.vRandom[p₂]? = s.vRandom[p₁]?) E s := by
  unfold swapRandom
  refine wp_ite.mpr ⟨fun heq => ?_, fun hne => ?_⟩
  · refine ⟨h, ⟨rfl, rfl, rfl, rfl, fun x i hx => ⟨i.nRandomPos, hx⟩⟩, by rw [heq]⟩
  · have hn1 := List.getElem?_eq_getElem h1
    have hn2 := List.getElem?_eq_getElem h2
    generalize s.vRandom[p₁] = n1 at hn1
    generalize s.vRandom[p₂] = n2 at hn2
    obtain ⟨i1, hi1, hpos1⟩ := h.directory.random p₁ n1 hn1
    obtain ⟨i2, hi2, hpos2⟩ := h.directory.random p₂ n2 hn2
    have hids : n1 ≠ n2 := by
      rintro rfl
      obtain rfl := Option.some.inj (hi1.symm.trans hi2)
      omega
    have hi₂' : (s.withInfo n1 { i1 with nRandomPos := p₂ }).mapInfo.lookup n2 = some i2 := by
      rw [lookup_withInfo, if_neg hids.symm, hi2]
    rw [wp_bind, wp_get, hn1, hn2]
    refine wp_bind.mpr ((wp_infoAt hi1).mpr (wp_bind.mpr (wp_setInfo.mpr ?_)))
    refine wp_bind.mpr ((wp_infoAt hi₂').mpr (wp_bind.mpr (wp_setInfo.mpr (wp_modify.mpr ?_))))
    have htables := (h.tables.write hi1 { i1 with nRandomPos := p₂ } rfl rfl rfl).write hi₂'
      { i2 with nRandomPos := p₁ } rfl rfl rfl
    have hstats := (h.stats.write n1 { i1 with nRandomPos := p₂ }
      ((h.stats.entries n1 i1 hi1).of_eq rfl rfl rfl rfl)).write n2 { i2 with nRandomPos := p₁ }
      ((h.stats.entries n2 i2 hi2).of_eq rfl rfl rfl rfl)
    refine ⟨⟨h.directory.swap hne hn1 hn2 hi1 hi2, htables.of_eq rfl rfl rfl rfl rfl rfl,
      hstats.of_eq rfl rfl rfl⟩, ?_, ?_⟩
    · refine ⟨rfl, rfl, rfl, (List.length_set ..).trans (List.length_set ..), fun x i hx => ?_⟩
      have hlookup : ∃ k, ((s.withInfo n1 { i1 with nRandomPos := p₂ }).withInfo n2
          { i2 with nRandomPos := p₁ }).mapInfo.lookup x = some { i with nRandomPos := k } := by
        rw [lookup_withInfo, lookup_withInfo]
        split_ifs with hx2 hx1
        · rw [hx2, hi2] at hx
          obtain rfl := Option.some.inj hx
          exact ⟨p₁, rfl⟩
        · rw [hx1, hi1] at hx
          obtain rfl := Option.some.inj hx
          exact ⟨p₂, rfl⟩
        · exact ⟨i.nRandomPos, hx⟩
      exact hlookup
    · have hset : ((s.vRandom.set p₁ n2).set p₂ n1)[p₂]? = some n1 :=
        List.getElem?_set_self (by rw [List.length_set]; exact h2)
      exact hset

/-- Entries other than one keep everything but their position. -/
structure Frame (skip : Int) (s s' : CAddrMan) : Prop where
  nKey : s'.nKey = s.nKey
  vvTried : s'.vvTried = s.vvTried
  vvNew : s'.vvNew = s.vvNew
  entries : ∀ x i, x ≠ skip → s.mapInfo.lookup x = some i →
    ∃ k, s'.mapInfo.lookup x = some { i with nRandomPos := k }

theorem wp_delete (h : Kept hash64 nKey made free loose s)
    (hlook : s.mapInfo.lookup nId = some info)
    (hnew : info.fInTried = false) (hzero : info.nRefCount = 0) (free' : List Int)
    (hfree : ∀ x ∈ free, x ≠ nId → x ∈ free') :
    Wp (delete nId) (fun _ s' => Kept hash64 nKey made free' loose s' ∧ Frame nId s s') E s := by
  obtain ⟨p, hpos, hvp⟩ := h.directory.placed nId info hlook
  have hlt := (List.getElem?_eq_some_iff.mp hvp).1
  have htoNat : info.nRandomPos.toNat = p := by rw [hpos, Int.toNat_natCast]
  unfold delete
  refine wp_bind.mpr ((wp_infoAt hlook).mpr (wp_bind.mpr ((wp_assert hnew).mpr ?_)))
  refine wp_bind.mpr ((wp_assert hzero).mpr (wp_bind.mpr (wp_get.mpr (wp_bind.mpr ?_))))
  rw [htoNat]
  refine (wp_swapRandom h hlt (by omega)).mono (fun _ t ht => wp_modify.mpr ?_) fun _ _ hE => hE
  obtain ⟨hkept, hmoved, hlast⟩ := ht
  obtain ⟨k, hk⟩ := hmoved.entries nId info hlook
  have hremoved := hkept.tables.remove hk hnew hzero free' hfree
  rw [hvp, ← hmoved.size] at hlast
  have hdir := hkept.directory.remove hk hlast
  refine ⟨⟨hdir, hremoved.of_eq rfl rfl rfl rfl rfl rfl,
    ⟨fun x i hx => ?_, hkept.stats.count, hkept.stats.key⟩⟩, ?_⟩
  · exact hkept.stats.entries x i (Table.erase_eq_some.mp hx).1
  · refine ⟨hmoved.nKey, hmoved.vvTried, hmoved.vvNew, fun x i hne hx => ?_⟩
    obtain ⟨k', hk'⟩ := hmoved.entries x i hx
    exact ⟨k', Table.erase_eq_some.mpr ⟨hk', hne⟩⟩

/-- **A place is cleared**, and its entry deleted if that was the last reference. -/
theorem wp_clearNew (h : Kept hash64 nKey made free loose s) (hp : p ∈ newPlaces) :
    Wp (clearNew p) (fun _ s' => Kept hash64 nKey made free loose s' ∧ s'.vvNew p = -1 ∧
      s'.nKey = s.nKey ∧ s'.vvTried = s.vvTried ∧
      ∀ x i, x ≠ s.vvNew p → s.mapInfo.lookup x = some i →
        ∃ k, s'.mapInfo.lookup x = some { i with nRandomPos := k }) E s := by
  unfold clearNew
  refine wp_bind.mpr (wp_get.mpr (wp_ite.mpr ⟨fun hne => ?_, fun hempty => ?_⟩))
  · obtain ⟨info, hlook, hnew, -⟩ := h.tables.newSlots p hp hne
    have hrefs := h.tables.refs _ info hlook
    have hpos : 0 < info.nRefCount := by
      have hocc : 0 < s.refs (s.vvNew p) := Slots.occ_pos.mpr ⟨p, hp, rfl⟩
      omega
    have hdir := h.directory.write hlook { info with nRefCount := info.nRefCount - 1 } rfl rfl
    have hstats := h.stats.write (s.vvNew p) { info with nRefCount := info.nRefCount - 1 }
      ((h.stats.entries _ info hlook).of_eq rfl rfl rfl rfl)
    have hself :
        (s.withInfo (s.vvNew p) { info with nRefCount := info.nRefCount - 1 }).mapInfo.lookup
        (s.vvNew p) = some { info with nRefCount := info.nRefCount - 1 } := by
      rw [lookup_withInfo, if_pos rfl]
    have hother : ∀ x i, x ≠ s.vvNew p → s.mapInfo.lookup x = some i →
        (s.withInfo (s.vvNew p) { info with nRefCount := info.nRefCount - 1 }).mapInfo.lookup x =
          some i := by
      intro x i hx hi
      rw [lookup_withInfo, if_neg hx, hi]
    unfold unref
    refine wp_bind.mpr ((wp_infoAt hlook).mpr (wp_bind.mpr ((wp_assert hpos).mpr ?_)))
    refine wp_bind.mpr (wp_bind.mpr ((wp_infoAt hlook).mpr (wp_bind.mpr (wp_setInfo.mpr ?_))))
    refine wp_bind.mpr (wp_modify.mpr (wp_pure.mpr (wp_ite.mpr ⟨fun hlast => ?_, fun hmore => ?_⟩)))
    · have hleft := h.tables.leave h.directory hp rfl hlook (s.vvNew p :: free)
        (fun x hx _ => List.mem_cons_of_mem _ hx) (Or.inl List.mem_cons_self)
      have hkept : Kept hash64 nKey made (s.vvNew p :: free) loose
          { s.withInfo (s.vvNew p) { info with nRefCount := info.nRefCount - 1 } with
            vvNew := Function.update s.vvNew p (-1) } :=
        ⟨hdir.of_eq rfl rfl rfl rfl, hleft, hstats.of_eq rfl rfl rfl⟩
      refine (wp_delete hkept hself hnew hlast free fun x hx hne =>
        (List.mem_cons.mp hx).resolve_left hne).mono (fun _ t ht => ?_) fun _ _ hE => hE
      obtain ⟨hkept', hframe⟩ := ht
      refine ⟨hkept', ?_, hframe.nKey, hframe.vvTried, fun x i hx hi =>
        hframe.entries x i hx (hother x i hx hi)⟩
      rw [hframe.vvNew]
      exact Function.update_self _ _ _
    · have hleft := h.tables.leave h.directory hp rfl hlook free (fun x hx _ => hx)
        (Or.inr (by omega))
      exact ⟨⟨hdir.of_eq rfl rfl rfl rfl, hleft, hstats.of_eq rfl rfl rfl⟩,
        Function.update_self _ _ _,
        rfl, rfl, fun x i hx hi => ⟨i.nRandomPos, hother x i hx hi⟩⟩
  · exact ⟨h, by simpa using hempty, rfl, rfl, fun x i _ hx => ⟨i.nRandomPos, hx⟩⟩

/-- An entry that is in no place yet, or may be in one more, enters one that is empty. -/
theorem wp_enterNew (h : Kept hash64 nKey made free loose s) (hp : p ∈ newPlaces)
    (hempty : s.vvNew p = -1) (hlook : s.mapInfo.lookup nId = some info)
    (hnew : info.fInTried = false) (hplace : info.newPlace hash64 s.nKey p.1 = p)
    (hcount : info.nRefCount < 8) (hn : n = info.nRefCount + 1) (free' : List Int)
    (hfree : ∀ x ∈ free, x ≠ nId → x ∈ free') :
    Wp (enterNew p nId n) (fun _ s' => Kept hash64 nKey made free' loose s' ∧ s'.nKey = s.nKey ∧
      s'.vvTried = s.vvTried ∧ ∀ x, x ≠ nId → s'.mapInfo.lookup x = s.mapInfo.lookup x) E s := by
  unfold enterNew
  refine wp_bind.mpr ((wp_infoAt hlook).mpr (wp_bind.mpr (wp_setInfo.mpr (wp_modify.mpr ?_))))
  have htables := h.tables.enter h.directory hp hempty hlook hnew hplace hcount free' hfree
  have hdir := h.directory.write hlook { info with nRefCount := info.nRefCount + 1 } rfl rfl
  have hstats := h.stats.write nId { info with nRefCount := info.nRefCount + 1 }
    ((h.stats.entries _ info hlook).of_eq rfl rfl rfl rfl)
  rw [hn]
  refine ⟨⟨hdir.of_eq rfl rfl rfl rfl, htables, hstats.of_eq rfl rfl rfl⟩, rfl, rfl, fun x hx => ?_⟩
  exact (lookup_withInfo _ _ _ x).trans (if_neg hx)

/-! ## `MakeTried` -/

/-- The entry on its way out of the new buckets: it is in none of the first ones. -/
structure Leaving (hash64 : List UInt8 → Nat) (nKey : Uint256) (made : Nat) (nId : Int)
    (info : CAddrInfo) (buckets : Nat) (s : CAddrMan) : Prop where
  kept : Kept hash64 nKey made [nId] 0 s
  entry : ∃ n, s.mapInfo.lookup nId = some { info with nRefCount := n }
  left : ∀ b < buckets, s.vvNew (info.newPlace hash64 nKey b) ≠ nId

theorem wp_leaveBucket {bucket : Nat} (hbucket : bucket < ADDRMAN_NEW_BUCKET_COUNT)
    (h : Leaving hash64 nKey made nId info bucket s) :
    Wp (leaveBucket hash64 nId bucket)
      (fun _ => Leaving hash64 nKey made nId info (bucket + 1)) E s := by
  obtain ⟨n, hlook⟩ := h.entry
  have hid := (h.kept.directory.ids nId _ hlook).1
  have hp : info.newPlace hash64 s.nKey bucket ∈ newPlaces := newPlace_mem info s.nKey hbucket
  have hsplit : ∀ {vvNew : Buckets}, (∀ b < bucket, vvNew (info.newPlace hash64 nKey b) ≠ nId) →
      vvNew (info.newPlace hash64 nKey bucket) ≠ nId →
      ∀ b < bucket + 1, vvNew (info.newPlace hash64 nKey b) ≠ nId := by
    intro vvNew hbelow hself b hb
    rcases Nat.lt_succ_iff_lt_or_eq.mp hb with hb | rfl
    · exact hbelow b hb
    · exact hself
  unfold leaveBucket
  refine wp_bind.mpr (wp_get.mpr (wp_bind.mpr ((wp_infoAt hlook).mpr ?_)))
  refine wp_ite.mpr ⟨fun hhere => ?_, fun hnot => ?_⟩
  · unfold unref
    refine wp_bind.mpr (wp_bind.mpr ((wp_infoAt hlook).mpr (wp_bind.mpr (wp_setInfo.mpr ?_))))
    refine wp_bind.mpr (wp_modify.mpr (wp_pure.mpr (wp_pure.mpr ?_)))
    have htables := h.kept.tables.leave h.kept.directory hp hhere hlook [nId] (fun x hx _ => hx)
      (Or.inl List.mem_cons_self)
    have hdir := h.kept.directory.write hlook { info with nRefCount := n - 1 } rfl rfl
    have hstats := h.kept.stats.write nId { info with nRefCount := n - 1 }
      ((h.kept.stats.entries _ _ hlook).of_eq rfl rfl rfl rfl)
    have hnone : Function.update s.vvNew (info.newPlace hash64 s.nKey bucket) (-1)
        (info.newPlace hash64 s.nKey bucket) ≠ nId := by
      rw [Function.update_self]
      omega
    refine ⟨⟨hdir.of_eq rfl rfl rfl rfl, htables, hstats.of_eq rfl rfl rfl⟩, ⟨n - 1, ?_⟩,
      hsplit (fun b hb => ?_) ?_⟩
    · exact (lookup_withInfo _ _ _ nId).trans (if_pos rfl)
    · by_cases heq : info.newPlace hash64 nKey b = info.newPlace hash64 s.nKey bucket
      · rw [heq]
        exact hnone
      · exact fun hcontra => h.left b hb ((Function.update_of_ne heq _ _).symm.trans hcontra)
    · rw [← h.kept.stats.key]
      exact hnone
  · refine wp_pure.mpr ⟨h.kept, h.entry, hsplit h.left ?_⟩
    rw [← h.kept.stats.key]
    exact hnot

/-- **After all buckets the entry is in none.** -/
theorem Leaving.done (h : Leaving hash64 nKey made nId info
    ADDRMAN_NEW_BUCKET_COUNT s) : s.mapInfo.lookup nId = some { info with nRefCount := 0 } := by
  obtain ⟨n, hlook⟩ := h.entry
  have hid := (h.kept.directory.ids nId _ hlook).1
  have hrefs := h.kept.tables.refs nId _ hlook
  have hnone : s.refs nId = 0 := by
    refine Slots.occ_eq_zero.mpr fun p hp heq => ?_
    obtain ⟨i, hi, -, hplace⟩ := h.kept.tables.newSlots p hp (by omega)
    rw [heq] at hi
    obtain rfl := Option.some.inj (hi.symm.trans hlook)
    refine h.left p.1 (mem_newPlaces.mp hp).1 ?_
    rw [← h.kept.stats.key]
    exact (congrArg s.vvNew hplace).trans heq
  have hzero : n = 0 := by
    rw [hnone] at hrefs
    exact hrefs
  rw [hlook, hzero]

/-- **Eviction**: the entry of the tried place goes back to a new one. -/
theorem wp_evict (h : Kept hash64 nKey made [nId] 1 s) (hlook : s.mapInfo.lookup nId = some info)
    (hnew : info.fInTried = false) (hzero : info.nRefCount = 0) (hp : p ∈ triedPlaces)
    (hne : s.vvTried p ≠ -1) :
    Wp (evict hash64 p) (fun _ s' => Kept hash64 nKey made [nId] 1 s' ∧ s'.nKey = s.nKey ∧
      s'.vvTried p = -1 ∧ ∃ k, s'.mapInfo.lookup nId = some { info with nRandomPos := k }) E s := by
  obtain ⟨infoOld, hold, htried, -⟩ := h.tables.triedSlots p hp hne
  obtain ⟨hrefs, -⟩ := h.tables.tried _ infoOld hold htried
  have hids : s.vvTried p ≠ nId := by
    intro heq
    rw [heq] at hold
    obtain rfl := Option.some.inj (hold.symm.trans hlook)
    exact absurd htried (by simp [hnew])
  generalize hEvict : s.vvTried p = nIdEvict at hold hne hids
  have hbucket : infoOld.getNewBucket hash64 s.nKey infoOld.source < ADDRMAN_NEW_BUCKET_COUNT :=
    getNewBucket_lt infoOld s.nKey infoOld.source
  have hplace : infoOld.newPlace hash64 s.nKey (infoOld.getNewBucket hash64 s.nKey infoOld.source) ∈
      newPlaces := newPlace_mem infoOld s.nKey hbucket
  have htables := h.tables.untry h.directory hp hEvict hold
  have hdir := h.directory.write hold { infoOld with fInTried := false } rfl rfl
  have hstats := h.stats.write nIdEvict { infoOld with fInTried := false }
    ⟨(h.stats.entries _ infoOld hold).nLastTry, (h.stats.entries _ infoOld hold).nLastSuccess,
      (h.stats.entries _ infoOld hold).nAttempts, fun hi => absurd hi (by simp)⟩
  have hself : (s.withInfo nIdEvict { infoOld with fInTried := false }).mapInfo.lookup nIdEvict =
      some { infoOld with fInTried := false } := by
    rw [lookup_withInfo, if_pos rfl]
  have hkeep : (s.withInfo nIdEvict { infoOld with fInTried := false }).mapInfo.lookup nId =
      some info := by
    rw [lookup_withInfo, if_neg hids.symm, hlook]
  have hkept : Kept hash64 nKey made [nIdEvict, nId] (1 + 1)
      { s.withInfo nIdEvict { infoOld with fInTried := false } with
        vvTried := Function.update s.vvTried p (-1)
        nTried := s.nTried - 1 } :=
    ⟨hdir.of_eq rfl rfl rfl rfl, htables, hstats.of_eq rfl rfl rfl⟩
  have hfree : ∀ x ∈ [nIdEvict, nId], x ≠ nIdEvict → x ∈ [nId] := fun x hx hx' =>
    (List.mem_cons.mp hx).resolve_left hx'
  unfold evict
  refine wp_bind.mpr (wp_get.mpr ?_)
  rw [hEvict]
  refine wp_bind.mpr ((wp_infoAt hold).mpr (wp_bind.mpr (wp_set.mpr (wp_bind.mpr ?_))))
  -- neither of the two entries is in a new place
  have hother : ∀ x, x = nId ∨ x = nIdEvict → s.vvNew (infoOld.newPlace hash64 s.nKey
      (infoOld.getNewBucket hash64 s.nKey infoOld.source)) ≠ x := by
    rintro x (rfl | rfl)
    · exact h.tables.ne_of_no_refs hlook hzero hplace
    · exact h.tables.ne_of_no_refs hold hrefs hplace
  refine (wp_clearNew hkept hplace).mono (fun _ t ht => ?_) fun _ _ hE => hE
  obtain ⟨hcleared, hempty, hkey, hvtried, hentries⟩ := ht
  refine wp_bind.mpr (wp_get.mpr (wp_bind.mpr ((wp_assert hempty).mpr (wp_bind.mpr ?_))))
  obtain ⟨k, hk⟩ := hentries nIdEvict _ (hother nIdEvict (Or.inr rfl)).symm hself
  obtain ⟨k', hk'⟩ := hentries nId _ (hother nId (Or.inl rfl)).symm hkeep
  have hthere : ({ infoOld with fInTried := false, nRandomPos := k } : CAddrInfo).newPlace hash64
      t.nKey (infoOld.getNewBucket hash64 s.nKey infoOld.source) =
      infoOld.newPlace hash64 s.nKey (infoOld.getNewBucket hash64 s.nKey infoOld.source) := by
    rw [hkey]
    rfl
  have hentered := wp_enterNew (E := E) hcleared hplace hempty hk rfl hthere (n := 1)
    (lt_of_eq_of_lt hrefs (by decide)) (by rw [hrefs]; rfl) [nId] hfree
  refine hentered.mono (fun _ t' ht' => wp_modify.mpr ?_) fun _ _ hE => hE
  obtain ⟨hkept', hkey', hvtried', hentries'⟩ := ht'
  have hmore : t'.nNew + 1 + 1 = t'.nNew + (1 + 1) := by omega
  refine ⟨⟨hkept'.directory.of_eq rfl rfl rfl rfl, hkept'.tables.of_eq rfl rfl rfl rfl rfl hmore,
    hkept'.stats.of_eq rfl rfl rfl⟩, hkey'.trans hkey, ?_, k', ?_⟩
  · have hupdate : t'.vvTried p = Function.update s.vvTried p (-1) p := by rw [hvtried', hvtried]
    exact hupdate.trans (Function.update_self _ _ _)
  · exact (hentries' nId hids.symm).trans hk'

end CAddrMan

end BitBlocks
