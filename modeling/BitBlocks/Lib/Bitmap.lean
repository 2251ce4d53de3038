import Mathlib.Tactic.IntervalCases
import BitBlocks.Lib.Reader

/-!
# Bitmaps without a length

Eight flags to a byte, the first in the lowest bit. A bitmap whose last byte is
not zero can be stored without its length: the number of its non-zero bytes says
where it ends, and the reader counts them as it goes.
-/

namespace Bitmap

open Reader

def packByte (f : Nat → Bool) : UInt8 :=
  (List.range 8).foldl (fun ch i => if f i then ch ||| (1 <<< UInt8.ofNat i) else ch) 0

def bits (ch : UInt8) : List Bool := (List.range 8).map fun p => (ch &&& (1 <<< UInt8.ofNat p)) != 0

/-- Bytes up to the one that makes `k` of them non-zero. -/
def readUntil : Nat → Reader (List UInt8) := fun k s =>
  match s with
  | [] => if k = 0 then some ([], []) else none
  | ch :: s =>
    if k = 0 then some ([], ch :: s)
    else (readUntil (if ch ≠ 0 then k - 1 else k) s).map fun r => (ch :: r.1, r.2)

/-- Over the bytes `0 .. n`: one past the last used, and how many are used. -/
def usedBytes (used : Nat → Bool) (n : Nat) : Nat × Nat :=
  (List.range n).foldl (fun acc b => if used b then (b + 1, acc.2 + 1) else acc) (0, 0)

private theorem bits_pack_bools : ∀ b0 b1 b2 b3 b4 b5 b6 b7 : Bool,
    bits (packByte fun i => [b0, b1, b2, b3, b4, b5, b6, b7].getD i false) =
      [b0, b1, b2, b3, b4, b5, b6, b7] := by
  decide

theorem packByte_congr {f g : Nat → Bool} (h : ∀ i < 8, f i = g i) : packByte f = packByte g := by
  refine List.foldl_ext _ _ _ fun ch i hi => ?_
  rw [h i (List.mem_range.mp hi)]

/-- **A byte gives its flags back.** -/
theorem bits_packByte (f : Nat → Bool) : bits (packByte f) = (List.range 8).map f := by
  have hlist : (List.range 8).map f = [f 0, f 1, f 2, f 3, f 4, f 5, f 6, f 7] := rfl
  rw [hlist, ← bits_pack_bools]
  refine congrArg bits (packByte_congr fun i hi => ?_)
  interval_cases i <;> rfl

theorem bits_zero : bits 0 = List.replicate 8 false := by decide

theorem packByte_eq_zero_iff {f : Nat → Bool} : packByte f = 0 ↔ ∀ i < 8, f i = false := by
  constructor
  · intro h i hi
    have hbits := bits_packByte f
    rw [h, bits_zero] at hbits
    have hget : ((List.range 8).map f)[i]? = some (f i) := by simp [hi]
    rw [← hbits, List.getElem?_replicate, if_pos hi] at hget
    exact (Option.some.inj hget).symm
  · intro h
    rw [packByte_congr h]
    rfl

theorem bits_packed (f : Nat → Bool) (n : Nat) :
    ((List.range n).map fun b => packByte fun i => f (b * 8 + i)).flatMap bits =
      (List.range (n * 8)).map f := by
  induction n with
  | zero => rfl
  | succ n ih =>
    rw [List.range_succ, List.map_append, List.flatMap_append, ih, Nat.succ_mul, List.range_add,
      List.map_append, List.map_map]
    simp [bits_packByte]

/-- **A bitmap that does not end in a zero byte is read to its end**, and no further. -/
theorem reads_until {mask : List UInt8} (hlast : ∀ h : mask ≠ [], mask.getLast h ≠ 0) :
    Reads (readUntil (mask.countP (· ≠ 0))) mask mask := by
  intro rest
  induction mask with
  | nil => cases rest <;> rfl
  | cons ch mask ih =>
    have hpos : (ch :: mask).countP (· ≠ 0) ≠ 0 := by
      intro h0
      have hall := List.countP_eq_zero.mp h0 _ (List.getLast_mem (List.cons_ne_nil ch mask))
      exact hall (by simpa using hlast (List.cons_ne_nil ch mask))
    have hcount : (if ch ≠ 0 then (ch :: mask).countP (· ≠ 0) - 1
        else (ch :: mask).countP (· ≠ 0)) = mask.countP (· ≠ 0) := by
      by_cases hch : ch = 0 <;> simp [hch]
    have htail : ∀ h : mask ≠ [], mask.getLast h ≠ 0 := by
      intro h
      have := hlast (List.cons_ne_nil ch mask)
      rwa [List.getLast_cons h] at this
    show readUntil _ (ch :: (mask ++ rest)) = _
    rw [readUntil, if_neg hpos, hcount]
    have ih := ih htail
    rw [StateT.run] at ih
    rw [ih]
    rfl

section Used

variable {used : Nat → Bool} {n : Nat}

theorem usedBytes_succ : usedBytes used (n + 1) =
    if used n then (n + 1, (usedBytes used n).2 + 1) else usedBytes used n := by
  rw [usedBytes, List.range_succ, List.foldl_append]
  rfl

theorem usedBytes_le : (usedBytes used n).1 ≤ n := by
  induction n with
  | zero => exact Nat.le_refl 0
  | succ n ih => rw [usedBytes_succ]; split <;> simp_all; omega

theorem not_used_of_le {b : Nat} (hb : (usedBytes used n).1 ≤ b) (hn : b < n) : used b = false := by
  induction n with
  | zero => omega
  | succ n ih =>
    rw [usedBytes_succ] at hb
    split at hb
    · simp only at hb; omega
    · rename_i hused
      rcases Nat.lt_or_ge b n with hlt | hge
      · exact ih hb hlt
      · have : b = n := by omega
        rw [this]
        simpa using hused

theorem used_last {l : Nat} (h : (usedBytes used n).1 = l + 1) : used l = true := by
  induction n with
  | zero => simp [usedBytes] at h
  | succ n ih =>
    rw [usedBytes_succ] at h
    split at h
    · rename_i hused
      have : n = l := by simpa using h
      rwa [← this]
    · exact ih h

theorem countP_range_succ :
    (List.range (n + 1)).countP used = (List.range n).countP used + if used n then 1 else 0 := by
  rw [List.range_succ, List.countP_append, List.countP_singleton]

theorem usedBytes_count : (usedBytes used n).2 = (List.range n).countP used := by
  induction n with
  | zero => rfl
  | succ n ih => rw [usedBytes_succ, countP_range_succ]; split <;> simp [ih]

theorem countP_used : (List.range (usedBytes used n).1).countP used = (usedBytes used n).2 := by
  have key : ∀ m, (usedBytes used n).1 ≤ m → m ≤ n →
      (List.range m).countP used = (List.range (usedBytes used n).1).countP used := by
    intro m hm
    induction m, hm using Nat.le_induction with
    | base => intro _; rfl
    | succ m hm ih =>
      intro hmn
      rw [countP_range_succ, not_used_of_le hm (by omega), ih (by omega)]
      simp
  rw [usedBytes_count, ← key n usedBytes_le (Nat.le_refl n)]

end Used

/-! ## Single bits -/

/-- Bit `n` of a row of bytes. -/
def bit (bs : List UInt8) (n : Nat) : Bool :=
  (bs.getD (n / 8) 0 &&& (1 <<< UInt8.ofNat (n % 8))) != 0

def setBit (bs : List UInt8) (n : Nat) : List UInt8 :=
  bs.modify (n / 8) fun ch => ch ||| (1 <<< UInt8.ofNat (n % 8))

@[simp] theorem length_setBit (bs : List UInt8) (n : Nat) : (setBit bs n).length = bs.length := by
  rw [setBit, List.length_modify]

variable {bs : List UInt8} {n m : Nat}

theorem getD_setBit (h : n / 8 < bs.length) :
    (setBit bs n).getD (m / 8) 0 = if m / 8 = n / 8 then
      bs.getD (m / 8) 0 ||| (1 <<< UInt8.ofNat (n % 8)) else bs.getD (m / 8) 0 := by
  rw [setBit, List.getD_eq_getElem?_getD, List.getElem?_modify, List.getD_eq_getElem?_getD]
  by_cases hm : m / 8 = n / 8
  · rw [hm, List.getElem?_eq_getElem h]
    simp
  · have hne : n / 8 ≠ m / 8 := fun heq => hm heq.symm
    simp [hm, hne]

theorem or_and_distrib (a b c : UInt8) : (a ||| b) &&& c = (a &&& c) ||| (b &&& c) := by
  apply UInt8.toBitVec_inj.mp
  ext k hk
  simp [Bool.and_or_distrib_right]

/-- **A bit that is set is found.** -/
theorem bit_setBit (h : n / 8 < bs.length) : bit (setBit bs n) n = true := by
  have hone : ∀ k < 8, (1 <<< UInt8.ofNat k : UInt8) ≠ 0 := by decide
  rw [bit, getD_setBit h, if_pos rfl, bne_iff_ne, or_and_distrib, UInt8.and_self]
  intro h0
  exact hone (n % 8) (by omega) (UInt8.or_eq_zero_iff.mp h0).2

theorem bit_setBit_of_bit (h : n / 8 < bs.length) (hm : bit bs m = true) :
    bit (setBit bs n) m = true := by
  rw [bit, bne_iff_ne] at *
  rw [getD_setBit h]
  split
  · intro h0
    rw [or_and_distrib] at h0
    exact hm (UInt8.or_eq_zero_iff.mp h0).1
  · exact hm

end Bitmap
