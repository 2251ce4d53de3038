import Mathlib.Algebra.GroupWithZero.Nat
import Mathlib.Data.List.Basic

/-!
# Readers of a byte stream

A reader takes a value off the front of a stream, and fails when the stream ends
inside it. A writer is a list of bytes. `Reads r bytes a` says that the two fit:
whatever follows `bytes`, the reader takes exactly those and returns `a`. The
relation composes the way readers do, so the round trip of a format is put
together from the round trips of its fields.
-/

abbrev Reader (α : Type) : Type := StateT (List UInt8) Option α

namespace Reader

/-- `r` takes exactly `bytes` off any stream that starts with them, and returns `a`. -/
def Reads {α : Type} (r : Reader α) (bytes : List UInt8) (a : α) : Prop :=
  ∀ rest, r.run (bytes ++ rest) = some (a, rest)

def byte : Reader UInt8 := fun s =>
  match s with
  | [] => none
  | ch :: s => some (ch, s)

/-- `n` raw bytes. -/
def bytes (n : Nat) : Reader (List UInt8) := fun s =>
  if n ≤ s.length then some (s.take n, s.drop n) else none

variable {α β : Type}

theorem Reads.pure (a : α) : Reads (Pure.pure a) [] a := fun _ => rfl

variable {a : α} {bs : List UInt8}

variable {r : Reader α} {f : α → Reader β}

theorem Reads.bind {b1 b2 : List UInt8} {b : β} (h1 : Reads r b1 a) (h2 : Reads (f a) b2 b) :
    Reads (r >>= f) (b1 ++ b2) b := by
  intro rest
  rw [StateT.run_bind, List.append_assoc, h1]
  exact h2 rest

theorem Reads.run_bind (h : Reads r bs a) (s : List UInt8) :
    (r >>= f).run (bs ++ s) = (f a).run s := by
  rw [StateT.run_bind, h]
  rfl

theorem run_bind_eq_some {s : List UInt8} {p : β × List UInt8} (h : (r >>= f).run s = some p) :
    ∃ a s', r.run s = some (a, s') ∧ (f a).run s' = some p := by
  rw [StateT.run_bind] at h
  obtain ⟨⟨a, s'⟩, hr, hf⟩ := Option.bind_eq_some_iff.mp h
  exact ⟨a, s', hr, hf⟩

theorem Reads.map (f : α → β) (h : Reads r bs a) : Reads (f <$> r) bs (f a) := by
  intro rest
  rw [StateT.run_map, h rest]
  rfl

theorem Reads.bind_pure (h : Reads r bs a) (g : α → β) :
    Reads (r >>= fun x => Pure.pure (g x)) bs (g a) := by
  have hbind := h.bind (f := fun x => Pure.pure (g x)) (Reads.pure (g a))
  rwa [List.append_nil] at hbind

theorem reads_byte (ch : UInt8) : Reads byte [ch] ch := fun _ => rfl

theorem reads_bytes (bs : List UInt8) : Reads (bytes bs.length) bs bs := by
  intro rest
  show (if bs.length ≤ (bs ++ rest).length then _ else _) = _
  rw [if_pos (by simp)]
  simp

theorem Reads.mapM {ι : Type} {f : ι → Reader α} {w : ι → List UInt8} {g : ι → α} {l : List ι}
    (h : ∀ i ∈ l, Reads (f i) (w i) (g i)) : Reads (l.mapM f) (l.flatMap w) (l.map g) := by
  induction l with
  | nil => exact Reads.pure []
  | cons i l ih =>
    rw [List.mapM_cons, List.flatMap_cons, List.map_cons]
    refine (h i List.mem_cons_self).bind ?_
    have htail := ih fun j hj => h j (List.mem_cons_of_mem i hj)
    rw [← List.append_nil (l.flatMap w)]
    exact htail.bind (Reads.pure _)

section mapM

variable {ι : Type} {f : ι → Reader α} {l : List ι} {s s' : List UInt8} {as : List α}

theorem length_mapM (h : (l.mapM f).run s = some (as, s')) : as.length = l.length := by
  induction l generalizing s as s' with
  | nil => obtain ⟨rfl, -⟩ := Prod.mk.inj (Option.some.inj h); rfl
  | cons i l ih =>
    rw [List.mapM_cons] at h
    obtain ⟨a, s1, -, h⟩ := run_bind_eq_some h
    obtain ⟨as', s2, hl, h⟩ := run_bind_eq_some h
    obtain ⟨rfl, -⟩ := Prod.mk.inj (Option.some.inj h)
    rw [List.length_cons, List.length_cons, ih hl]

theorem forall_of_mapM {p : α → Prop}
    (hf : ∀ i s a s', (f i).run s = some (a, s') → p a) (h : (l.mapM f).run s = some (as, s')) :
    ∀ a ∈ as, p a := by
  induction l generalizing s as s' with
  | nil =>
    obtain ⟨rfl, -⟩ := Prod.mk.inj (Option.some.inj h)
    exact fun _ ha => absurd ha List.not_mem_nil
  | cons i l ih =>
    rw [List.mapM_cons] at h
    obtain ⟨a, s1, hhead, h⟩ := run_bind_eq_some h
    obtain ⟨as', s2, hl, h⟩ := run_bind_eq_some h
    obtain ⟨rfl, -⟩ := Prod.mk.inj (Option.some.inj h)
    exact List.forall_mem_cons.mpr ⟨hf i s a s1 hhead, ih hl⟩

end mapM

end Reader

/-!
## Sizes before data

A size is written in one byte if it is small; a larger one in two, four or eight
bytes, the lowest first, behind a byte that says so. The reader refuses a longer
form than the size needs, and sizes above a limit. A list is written behind its
size.
-/

namespace CompactSize

open Reader

/-! ## Numbers of a fixed width -/

/-- The lowest `k` bytes, the lowest first. -/
def writeLE : Nat → Nat → List UInt8
  | 0, _ => []
  | k + 1, n => UInt8.ofNat n :: writeLE k (n / 256)

def readLE : Nat → Reader Nat
  | 0 => pure 0
  | k + 1 => do
    let ch ← byte
    let n ← readLE k
    pure (ch.toNat + 256 * n)

theorem length_writeLE (k n : Nat) : (writeLE k n).length = k := by
  induction k generalizing n with
  | zero => rfl
  | succ k ih => rw [writeLE, List.length_cons, ih]

variable {k n maxSize low : Nat}

theorem reads_writeLE (h : n < 256 ^ k) : Reads (readLE k) (writeLE k n) n := by
  induction k generalizing n with
  | zero =>
    obtain rfl : n = 0 := Nat.lt_one_iff.mp h
    exact Reads.pure 0
  | succ k ih =>
    have hdiv : n / 256 < 256 ^ k := Nat.div_lt_of_lt_mul (by rwa [Nat.pow_succ'] at h)
    have hval : (UInt8.ofNat n).toNat + 256 * (n / 256) = n := by
      rw [UInt8.toNat_ofNat']
      omega
    have htail := (ih hdiv).bind_pure fun m => (UInt8.ofNat n).toNat + 256 * m
    rw [hval] at htail
    exact (reads_byte (UInt8.ofNat n)).bind htail

/-- The number that bytes stand for, the lowest first. -/
def leValue (bs : List UInt8) : Nat := bs.foldr (fun ch n => ch.toNat + 256 * n) 0

theorem leValue_lt (bs : List UInt8) : leValue bs < 256 ^ bs.length := by
  induction bs with
  | nil => exact Nat.one_pos
  | cons ch bs ih =>
    have hch := ch.toNat_lt
    rw [List.length_cons, Nat.pow_succ', leValue, List.foldr_cons]
    have : leValue bs = bs.foldr (fun ch n => ch.toNat + 256 * n) 0 := rfl
    omega

theorem writeLE_leValue (bs : List UInt8) : writeLE bs.length (leValue bs) = bs := by
  induction bs with
  | nil => rfl
  | cons ch bs ih =>
    have hch := ch.toNat_lt
    have hdiv : leValue (ch :: bs) / 256 = leValue bs := by
      show (ch.toNat + 256 * leValue bs) / 256 = leValue bs
      omega
    have hmod : UInt8.ofNat (leValue (ch :: bs)) = ch := by
      refine UInt8.toNat_inj.mp ?_
      rw [UInt8.toNat_ofNat']
      show (ch.toNat + 256 * leValue bs) % 2 ^ 8 = ch.toNat
      omega
    rw [List.length_cons, writeLE, hmod, hdiv, ih]

/-- **A number is what its bytes stand for**, if it has no more. -/
theorem leValue_writeLE (h : n < 256 ^ k) : leValue (writeLE k n) = n := by
  induction k generalizing n with
  | zero => exact (Nat.lt_one_iff.mp h).symm
  | succ k ih =>
    have hrest := ih (Nat.div_lt_of_lt_mul (by rwa [Nat.pow_succ'] at h) : n / 256 < 256 ^ k)
    have hcons : leValue (writeLE (k + 1) n) =
        (UInt8.ofNat n).toNat + 256 * leValue (writeLE k (n / 256)) := rfl
    rw [hcons, hrest, UInt8.toNat_ofNat']
    omega

theorem leValue_append (bs bs' : List UInt8) :
    leValue (bs ++ bs') = leValue bs + 256 ^ bs.length * leValue bs' := by
  induction bs with
  | nil =>
    rw [List.nil_append, List.length_nil, Nat.pow_zero, Nat.one_mul]
    exact (Nat.zero_add _).symm
  | cons b bs ih =>
    have hcons : ∀ bs'', leValue (b :: bs'') = b.toNat + 256 * leValue bs'' := fun _ => rfl
    rw [List.cons_append, hcons, ih, hcons, List.length_cons, Nat.pow_succ', Nat.mul_add,
      Nat.mul_assoc, Nat.add_assoc]

theorem take_writeLE (k j n : Nat) : (writeLE (k + j) n).take k = writeLE k n := by
  induction k generalizing n with
  | zero => rfl
  | succ k ih => rw [Nat.add_right_comm, writeLE, List.take_succ_cons, ih, writeLE]

/-! ## Sizes -/

def write (nSize : Nat) : List UInt8 :=
  if nSize < 253 then [UInt8.ofNat nSize]
  else if nSize ≤ 0xffff then 253 :: writeLE 2 nSize
  else if nSize ≤ 0xffffffff then 254 :: writeLE 4 nSize
  else 255 :: writeLE 8 nSize

theorem one_le_length_write (nSize : Nat) : 1 ≤ (write nSize).length := by
  unfold write
  split_ifs <;> simp

/-- A size that is too small for its form, or too large, is refused. -/
def checked (maxSize low nSizeRet : Nat) : Reader Nat :=
  if nSizeRet < low then failure else if nSizeRet > maxSize then failure else pure nSizeRet

def read (maxSize : Nat) : Reader Nat := do
  let chSize ← byte
  if chSize < 253 then checked maxSize 0 chSize.toNat
  else if chSize = 253 then readLE 2 >>= checked maxSize 253
  else if chSize = 254 then readLE 4 >>= checked maxSize 0x10000
  else readLE 8 >>= checked maxSize 0x100000000

theorem reads_checked (hlow : low ≤ n) (hmax : n ≤ maxSize) :
    Reads (checked maxSize low n) [] n := by
  rw [checked, if_neg (Nat.not_lt.mpr hlow), if_neg (Nat.not_lt.mpr hmax)]
  exact Reads.pure n

theorem reads_form (hk : n < 256 ^ k) (hlow : low ≤ n) (hmax : n ≤ maxSize) :
    Reads (readLE k >>= checked maxSize low) (writeLE k n) n := by
  have h := (reads_writeLE hk).bind (reads_checked hlow hmax)
  rwa [List.append_nil] at h

theorem reads_write {nSize : Nat} (hmax : nSize ≤ maxSize) (hwide : nSize < 256 ^ 8) :
    Reads (read maxSize) (write nSize) nSize := by
  unfold write
  split_ifs with h1 h2 h3
  · have hval : (UInt8.ofNat nSize).toNat = nSize := by
      rw [UInt8.toNat_ofNat']
      omega
    have hlt : UInt8.ofNat nSize < 253 := UInt8.lt_iff_toNat_lt.mpr (by rw [hval]; exact h1)
    refine (reads_byte (UInt8.ofNat nSize)).bind ?_
    rw [if_pos hlt, hval]
    exact reads_checked (Nat.zero_le _) hmax
  · exact (reads_byte 253).bind (reads_form (by omega) (by omega) hmax)
  · exact (reads_byte 254).bind (reads_form (by omega) (by omega) hmax)
  · exact (reads_byte 255).bind (reads_form hwide (by omega) hmax)

/-! ## Lists behind their size -/

variable {α : Type}

def writeList (w : α → List UInt8) (l : List α) : List UInt8 := write l.length ++ l.flatMap w

def readMany (r : Reader α) : Nat → Reader (List α)
  | 0 => pure []
  | n + 1 => do
    let a ← r
    let l ← readMany r n
    pure (a :: l)

def readList (maxSize : Nat) (r : Reader α) : Reader (List α) := read maxSize >>= readMany r

variable {r : Reader α} {w : α → List UInt8} {l : List α}

theorem reads_many (h : ∀ a ∈ l, Reads r (w a) a) :
    Reads (readMany r l.length) (l.flatMap w) l := by
  induction l with
  | nil => exact Reads.pure []
  | cons a l ih =>
    have htail := (ih fun b hb => h b (List.mem_cons_of_mem a hb)).bind_pure fun m => a :: m
    exact (h a List.mem_cons_self).bind htail

theorem reads_list (h : ∀ a ∈ l, Reads r (w a) a) (hmax : l.length ≤ maxSize)
    (hwide : l.length < 256 ^ 8) : Reads (readList maxSize r) (writeList w l) l :=
  (reads_write hmax hwide).bind (reads_many h)

end CompactSize

/-!
## Readers that take nothing else

`Reads` says that what was written is read back. A format has one encoding for each value if its
reader takes nothing else: whatever was read is what would have been written.
-/

namespace Reader

variable {α β : Type} {r : Reader α} {w : α → List UInt8} {p : α → Prop}

/-- `r` reads exactly the values of `p`, and each off exactly the bytes `w` writes for it. -/
def Codec (r : Reader α) (w : α → List UInt8) (p : α → Prop) : Prop :=
  ∀ s a s', r.run s = some (a, s') ↔ p a ∧ s = w a ++ s'

theorem Codec.of_reads (h : ∀ a, p a → Reads r (w a) a)
    (hback : ∀ {s a s'}, r.run s = some (a, s') → p a ∧ s = w a ++ s') : Codec r w p := by
  refine fun s a s' => ⟨hback, ?_⟩
  intro ⟨ha, hs⟩
  rw [hs]
  exact h a ha s'

@[simp] theorem run_bind_iff {f : α → Reader β} {s : List UInt8} {x : β × List UInt8} :
    (r >>= f).run s = some x ↔ ∃ a s', r.run s = some (a, s') ∧ (f a).run s' = some x := by
  refine ⟨run_bind_eq_some, ?_⟩
  intro ⟨a, s', hr, hf⟩
  rw [StateT.run_bind, hr]
  exact hf

@[simp] theorem run_pure_iff {a b : α} {s s' : List UInt8} :
    (Pure.pure a : Reader α).run s = some (b, s') ↔ a = b ∧ s = s' := by
  rw [StateT.run_pure]
  simp only [Option.pure_def, Option.some.injEq, Prod.mk.injEq]

@[simp] theorem run_failure {x : α × List UInt8} {s : List UInt8} :
    (failure : Reader α).run s ≠ some x := nofun

theorem codec_byte : Codec byte (fun ch => [ch]) fun _ => True := by
  intro s ch s'
  cases s with
  | nil => exact ⟨nofun, fun h => absurd h.2 (by simp)⟩
  | cons c s =>
    have hrun : byte.run (c :: s) = some (c, s) := rfl
    rw [hrun, Option.some.injEq, Prod.mk.injEq, true_and, List.singleton_append, List.cons.injEq]

theorem codec_bytes (n : Nat) : Codec (bytes n) id fun bs => bs.length = n := by
  refine .of_reads (fun bs hbs => hbs ▸ reads_bytes bs) fun {s bs s'} h => ?_
  have hrun : (if n ≤ s.length then some (s.take n, s.drop n) else none) = some (bs, s') := h
  by_cases hn : n ≤ s.length
  · rw [if_pos hn] at hrun
    obtain ⟨rfl, rfl⟩ := Prod.mk.inj (Option.some.inj hrun)
    exact ⟨List.length_take_of_le hn, (List.take_append_drop n s).symm⟩
  · rw [if_neg hn] at hrun
    exact absurd hrun (by simp)

end Reader

namespace CompactSize

open Reader

variable {α : Type} {r : Reader α} {w : α → List UInt8} {p : α → Prop}

theorem codec_readLE (k : Nat) : Codec (readLE k) (writeLE k) fun n => n < 256 ^ k := by
  refine .of_reads (fun n => reads_writeLE) fun {s n s'} h => ?_
  induction k generalizing s n with
  | zero =>
    obtain ⟨rfl, rfl⟩ := run_pure_iff.mp h
    exact ⟨Nat.one_pos, rfl⟩
  | succ k ih =>
    rw [readLE] at h
    simp only [run_bind_iff, run_pure_iff] at h
    obtain ⟨ch, s1, hch, m, s2, hm, rfl, rfl⟩ := h
    obtain ⟨hlt, rfl⟩ := ih hm
    obtain ⟨-, rfl⟩ := (codec_byte s ch _).mp hch
    have hbyte := ch.toNat_lt
    have hmod : (ch.toNat + 256 * m) / 256 = m := by omega
    have hch' : UInt8.ofNat (ch.toNat + 256 * m) = ch := by
      rw [UInt8.ofNat_add, UInt8.ofNat_toNat, UInt8.ofNat_mul]
      simp
    refine ⟨?_, by rw [writeLE, hmod, hch']; rfl⟩
    rw [Nat.pow_succ']
    omega

/-- **A size has one form**: the shortest that it fits. -/
theorem codec_read {maxSize : Nat} (hmax : maxSize < 256 ^ 8) :
    Codec (read maxSize) write fun n => n ≤ maxSize := by
  refine .of_reads (fun n hn => reads_write hn (Nat.lt_of_le_of_lt hn hmax)) fun {s n s'} h => ?_
  have hchecked : ∀ {low m : Nat} {s : List UInt8}, (checked maxSize low m).run s = some (n, s') →
      low ≤ m ∧ m ≤ maxSize ∧ m = n ∧ s = s' := by
    intro low m s hrun
    unfold checked at hrun
    split_ifs at hrun with hlow hhigh
    · exact absurd hrun run_failure
    · exact absurd hrun run_failure
    · exact ⟨Nat.not_lt.mp hlow, Nat.not_lt.mp hhigh, run_pure_iff.mp hrun⟩
  have hform : ∀ {low k : Nat} {s : List UInt8},
      (readLE k >>= checked maxSize low).run s = some (n, s') →
      low ≤ n ∧ n ≤ maxSize ∧ n < 256 ^ k ∧ s = writeLE k n ++ s' := by
    intro low k s hrun
    obtain ⟨m, s1, hm, hrun⟩ := run_bind_iff.mp hrun
    obtain ⟨hlow, hhigh, rfl, rfl⟩ := hchecked hrun
    obtain ⟨hlt, hs⟩ := (codec_readLE k s m s1).mp hm
    exact ⟨hlow, hhigh, hlt, hs⟩
  unfold read at h
  obtain ⟨ch, s1, hch, hrun⟩ := run_bind_iff.mp h
  obtain ⟨-, rfl⟩ := (codec_byte s ch s1).mp hch
  clear h hch
  split_ifs at hrun with hsmall h2 h4
  · obtain ⟨-, hle, rfl, rfl⟩ := hchecked hrun
    refine ⟨hle, ?_⟩
    have hlt : ch.toNat < 253 := UInt8.lt_iff_toNat_lt.mp hsmall
    rw [write, if_pos hlt, UInt8.ofNat_toNat]
  · obtain ⟨hlow, hle, hlt, rfl⟩ := hform hrun
    rw [write, if_neg (by omega), if_pos (by omega), h2]
    exact ⟨hle, rfl⟩
  · obtain ⟨hlow, hle, hlt, rfl⟩ := hform hrun
    rw [write, if_neg (by omega), if_neg (by omega), if_pos (by omega), h4]
    exact ⟨hle, rfl⟩
  · obtain ⟨hlow, hle, hlt, rfl⟩ := hform hrun
    have hch' : ch = 255 := by
      have hge : ¬ ch.toNat < 253 := fun hlt => hsmall (UInt8.lt_iff_toNat_lt.mpr hlt)
      have hne2 : ch.toNat ≠ 253 := fun he => h2 (UInt8.toNat_inj.mp he)
      have hne4 : ch.toNat ≠ 254 := fun he => h4 (UInt8.toNat_inj.mp he)
      have h255 : ch.toNat = 255 := by
        have hbyte := ch.toNat_lt
        omega
      exact UInt8.toNat_inj.mp h255
    rw [write, if_neg (by omega), if_neg (by omega), if_neg (by omega), hch']
    exact ⟨hle, rfl⟩

theorem codec_readMany (h : Codec r w p) (n : Nat) :
    Codec (readMany r n) (fun l => l.flatMap w) fun l => l.length = n ∧ ∀ a ∈ l, p a := by
  refine .of_reads ?_ fun {s l s'} hrun => ?_
  · rintro l ⟨rfl, hl⟩
    exact reads_many fun a ha rest => (h _ _ _).mpr ⟨hl a ha, rfl⟩
  · induction n generalizing s l with
    | zero =>
      obtain ⟨rfl, rfl⟩ := run_pure_iff.mp hrun
      exact ⟨⟨rfl, by simp⟩, rfl⟩
    | succ n ih =>
      simp only [readMany, run_bind_iff, run_pure_iff] at hrun
      obtain ⟨a, s1, ha, l', s2, hl', rfl, rfl⟩ := hrun
      obtain ⟨⟨rfl, hall⟩, rfl⟩ := ih hl'
      obtain ⟨hp, rfl⟩ := (h _ _ _).mp ha
      exact ⟨⟨rfl, List.forall_mem_cons.mpr ⟨hp, hall⟩⟩, by simp⟩

theorem codec_readList (h : Codec r w p) {maxSize : Nat} (hmax : maxSize < 256 ^ 8) :
    Codec (readList maxSize r) (writeList w) fun l => l.length ≤ maxSize ∧ ∀ a ∈ l, p a := by
  intro s l s'
  simp only [readList, run_bind_iff, codec_read hmax _ _ _, codec_readMany h _ _ _ _, writeList]
  constructor
  · rintro ⟨n, s1, ⟨hn, rfl⟩, ⟨rfl, hl⟩, rfl⟩
    exact ⟨⟨hn, hl⟩, by simp⟩
  · rintro ⟨⟨hn, hl⟩, rfl⟩
    exact ⟨_, _, ⟨hn, List.append_assoc _ _ _⟩, ⟨rfl, hl⟩, rfl⟩

end CompactSize
