import BitBlocks.Lib.Bitmap
import BitBlocks.Coins.Effect
import BitBlocks.Coins.Compressor

/-!
# The database form of a coin entry (`CCoins::Serialize`)

A version, a header code, a bitmap, the unspent outputs in compressed form, a
height. The header code has the two flags, the availability of the first two
outputs and, above them, the number of non-zero bytes of the bitmap that covers
the others; one less when neither of the first two is there, since then at least
one byte is not zero.

The bitmap stops at its last non-zero byte, so the count is enough to find its
end. What is read is a list of outputs padded with nulls to a whole number of
bytes, and `Cleanup` takes the padding off again.
-/

namespace BitBlocks

open Reader

namespace CCoins

/-- Some output of byte `b` of the bitmap is unspent. -/
def maskByteUsed (c : CCoins) (b : Nat) : Bool :=
  (List.range 8).any fun i => c.isAvailable (2 + b * 8 + i)

/-- `CalcMaskSize`: the bytes of the bitmap, and how many of them are not zero. -/
def calcMaskSize (c : CCoins) : Nat × Nat :=
  Bitmap.usedBytes c.maskByteUsed ((c.vout.length + 5) / 8)

def chAvail (c : CCoins) (b : Nat) : UInt8 := Bitmap.packByte fun i => c.isAvailable (2 + b * 8 + i)

/-- The header code, in `unsigned int` arithmetic. -/
def nCode (c : CCoins) (nMaskCode : Nat) : Nat :=
  (16 * (nMaskCode - if c.isAvailable 0 || c.isAvailable 1 then 0 else 1) +
    c.fCoinBase.toNat + 2 * c.fCoinStake.toNat +
    4 * (c.isAvailable 0).toNat + 8 * (c.isAvailable 1).toNat) % 2 ^ 32

/-- `Serialize`; nothing when the assertion that the entry is not pruned fails. -/
def serialize (K : PubKeyRules) (c : CCoins) : Option (List UInt8) :=
  let (nMaskSize, nMaskCode) := c.calcMaskSize
  if c.isAvailable 0 || c.isAvailable 1 || nMaskCode != 0 then
    some (VarInt.writeSigned 32 c.nVersion ++ (VarInt.write 32 (c.nCode nMaskCode) ++
      ((List.range nMaskSize).map c.chAvail ++
      (c.vout.flatMap (fun o => if o.isNull then [] else CTxOutCompressor.serialize K o) ++
      VarInt.writeSigned 32 c.nHeight))))
  else none

def unserialize (K : PubKeyRules) : Reader CCoins := do
  let nVersion ← VarInt.readSigned 32
  let nCode ← VarInt.read 32
  let first := nCode.testBit 2
  let second := nCode.testBit 3
  let mask ← Bitmap.readUntil (nCode / 16 + if first || second then 0 else 1)
  let vAvail := [first, second] ++ mask.flatMap Bitmap.bits
  let vout ← vAvail.mapM fun f =>
    if f then CTxOutCompressor.unserialize K else pure CTxOut.null
  let nHeight ← VarInt.readSigned 32
  return cleanup
    { fCoinBase := nCode.testBit 0, fCoinStake := nCode.testBit 1, vout, nHeight, nVersion }

variable {c : CCoins}

variable {b i : Nat}

theorem maskByteUsed_eq_false_iff :
    c.maskByteUsed b = false ↔ ∀ i < 8, c.isAvailable (2 + b * 8 + i) = false := by
  simp [maskByteUsed]

theorem chAvail_ne_zero_iff : c.chAvail b ≠ 0 ↔ c.maskByteUsed b = true := by
  rw [chAvail, Ne, Bitmap.packByte_eq_zero_iff, ← maskByteUsed_eq_false_iff, Bool.not_eq_false]

theorem countP_chAvail :
    ((List.range c.calcMaskSize.1).map c.chAvail).countP (· ≠ 0) = c.calcMaskSize.2 := by
  rw [List.countP_map]
  refine Eq.trans (List.countP_congr fun b _ => ?_) Bitmap.countP_used
  simpa using chAvail_ne_zero_iff

theorem getLast_chAvail (h : (List.range c.calcMaskSize.1).map c.chAvail ≠ []) :
    ((List.range c.calcMaskSize.1).map c.chAvail).getLast h ≠ 0 := by
  obtain ⟨l, hl⟩ : ∃ l, c.calcMaskSize.1 = l + 1 := by
    rcases hn : c.calcMaskSize.1 with _ | l
    · simp [hn] at h
    · exact ⟨l, rfl⟩
  rw [List.getLast_eq_getElem]
  simp only [List.length_map, List.length_range, List.getElem_map, List.getElem_range, hl,
    Nat.add_sub_cancel]
  exact chAvail_ne_zero_iff.mpr (Bitmap.used_last hl)

theorem not_isAvailable_of_mask (h : 2 + c.calcMaskSize.1 * 8 ≤ i) : c.isAvailable i = false := by
  rcases Nat.lt_or_ge i c.vout.length with hi | hi
  · obtain ⟨b, p, hp, rfl⟩ : ∃ b p, p < 8 ∧ i = 2 + b * 8 + p :=
      ⟨(i - 2) / 8, (i - 2) % 8, by omega, by omega⟩
    exact maskByteUsed_eq_false_iff.mp
      (Bitmap.not_used_of_le (n := (c.vout.length + 5) / 8) (by unfold calcMaskSize at h; omega)
        (by omega)) p hp
  · simp only [isAvailable, decide_eq_false (Nat.not_lt.mpr hi), Bool.false_and]

theorem vAvail_eq : [c.isAvailable 0, c.isAvailable 1] ++
    ((List.range c.calcMaskSize.1).map c.chAvail).flatMap Bitmap.bits =
      (List.range (2 + c.calcMaskSize.1 * 8)).map c.isAvailable := by
  have hbits := Bitmap.bits_packed (fun j => c.isAvailable (2 + j)) c.calcMaskSize.1
  simp only [← Nat.add_assoc] at hbits
  have hmask : (List.range c.calcMaskSize.1).map c.chAvail =
      (List.range c.calcMaskSize.1).map fun b =>
        Bitmap.packByte fun i => c.isAvailable (2 + b * 8 + i) := rfl
  rw [hmask, hbits, List.range_add, List.map_append, List.map_map]
  rfl

theorem header_fields {n q : Nat} {b s f g : Bool}
    (h : n = 16 * q + b.toNat + 2 * s.toNat + 4 * f.toNat + 8 * g.toNat) :
    n.testBit 0 = b ∧ n.testBit 1 = s ∧ n.testBit 2 = f ∧ n.testBit 3 = g ∧ n / 16 = q := by
  have hb := b.toNat_lt
  have hs := s.toNat_lt
  have hf := f.toNat_lt
  have hg := g.toNat_lt
  have hbit : ∀ (c : Bool) (k : Nat), k = c.toNat → decide (k = 1) = c := by
    rintro (_ | _) k rfl <;> rfl
  simp only [Nat.testBit_eq_decide_div_mod_eq]
  exact ⟨hbit b _ (by omega), hbit s _ (by omega), hbit f _ (by omega), hbit g _ (by omega),
    by omega⟩

theorem calcMaskSize_le : c.calcMaskSize.2 ≤ (c.vout.length + 5) / 8 := by
  rw [calcMaskSize, Bitmap.usedBytes_count]
  exact (List.countP_le_length).trans (by rw [List.length_range])

/--
An entry whose counters fit the code's: versions, heights and amounts in their
ranges, and fewer outputs and shorter scripts than an `unsigned int` can count.
-/
structure Storable (P : CChainParams) (c : CCoins) : Prop where
  version : 0 ≤ c.nVersion ∧ c.nVersion < 2 ^ 31
  height : 0 ≤ c.nHeight ∧ c.nHeight < 2 ^ 31
  outputs : c.vout.length + 5 < 2 ^ 31
  /-- Of every unspent output. -/
  amount : ∀ o ∈ c.vout, o.isNull = false → P.moneyRange o.nValue = true
  script : ∀ o ∈ c.vout, o.scriptPubKey.length + CScript.nSpecialScripts < 2 ^ 32
  rounds : ∀ o ∈ c.vout, o.nRounds = CTxOut.null.nRounds

theorem out_mem (h : c.isAvailable i = true) : c.out i ∈ c.vout := by
  simp only [isAvailable, Bool.and_eq_true, decide_eq_true_eq] at h
  rw [out, List.getD_eq_getElem _ _ h.1]
  exact List.getElem_mem h.1

section RoundTrip

variable {P : CChainParams} {K : PubKeyRules}

/-- The bytes of output `i`: none when it is spent. -/
def outBytes (K : PubKeyRules) (c : CCoins) (i : Nat) : List UInt8 :=
  if (c.out i).isNull then [] else CTxOutCompressor.serialize K (c.out i)

theorem outBytes_of_not_available {i : Nat} (h : c.isAvailable i = false) :
    outBytes K c i = [] := by
  have hnull : (c.out i).isNull = true := by
    by_contra hne
    rw [isAvailable_iff.mpr (Bool.eq_false_of_not_eq_true hne)] at h
    exact Bool.noConfusion h
  rw [outBytes, if_pos hnull]

variable {m : Nat} {s s' : List UInt8} {c' : CCoins}

theorem flatMap_range_add {w : Nat → List UInt8} {k : Nat} (h : ∀ i, m ≤ i → w i = []) :
    (List.range (m + k)).flatMap w = (List.range m).flatMap w := by
  have hnil : ((List.range k).map (m + ·)).flatMap w = [] := by
    rw [List.flatMap_eq_nil_iff]
    intro i hi
    obtain ⟨j, -, rfl⟩ := List.mem_map.mp hi
    exact h _ (Nat.le_add_right m j)
  rw [List.range_add, List.flatMap_append, hnil, List.append_nil]

theorem flatMap_vout (h : ∀ i, m ≤ i → c.isAvailable i = false) :
    c.vout.flatMap (fun o => if o.isNull then [] else CTxOutCompressor.serialize K o) =
      (List.range m).flatMap (outBytes K c) := by
  have hvout : c.vout = (List.range c.vout.length).map c.out := by
    apply List.ext_getElem
    · simp
    · intro i hi _
      rw [List.getElem_map, List.getElem_range, out, List.getD_eq_getElem _ _ hi]
  have hpast : ∀ i, c.vout.length ≤ i → outBytes K c i = [] := by
    intro i hi
    apply outBytes_of_not_available
    simp only [isAvailable, decide_eq_false (Nat.not_lt.mpr hi), Bool.false_and]
  have hlist : c.vout.flatMap (fun o => if o.isNull then [] else CTxOutCompressor.serialize K o) =
      (List.range c.vout.length).flatMap (outBytes K c) := by
    conv_lhs => rw [hvout]
    rw [List.flatMap_map]
    rfl
  rw [hlist, ← flatMap_range_add (k := m) hpast, Nat.add_comm,
    flatMap_range_add fun i hi => outBytes_of_not_available (h i hi)]

theorem reads_out (hK : K.Lawful) (hwf : c.WF) (hc : c.Storable P) (i : Nat) :
    Reads (if c.isAvailable i then CTxOutCompressor.unserialize K else pure CTxOut.null)
      (outBytes K c i) (c.out i) := by
  by_cases hav : c.isAvailable i = true
  · have hmem := out_mem hav
    have hnull := isAvailable_iff.mp hav
    obtain ⟨hlow, hhigh⟩ := CChainParams.moneyRange_iff.mp (hc.amount _ hmem hnull)
    have hmax := P.nMaxMoneyOut_range.2
    have hcoin : COIN = 100000000 := rfl
    have hvalue : 0 ≤ (c.out i).nValue ∧ (c.out i).nValue * 9 + 10 < 2 ^ 63 := ⟨hlow, by omega⟩
    have hread := CTxOutCompressor.reads_serialize hK hvalue (hc.script _ hmem)
    rw [if_pos hav, outBytes, hnull, if_neg (by simp)]
    rwa [← hc.rounds _ hmem] at hread
  · have hav := Bool.eq_false_of_not_eq_true hav
    have hnull : c.out i = CTxOut.null := by
      refine hwf.out_eq_null ?_
      by_contra hne
      rw [isAvailable_iff.mpr (Bool.eq_false_of_not_eq_true hne)] at hav
      exact Bool.noConfusion hav
    rw [hav, if_neg (by simp), outBytes_of_not_available hav, hnull]
    exact Reads.pure _

theorem cleanup_padded (hwf : c.WF) (h : ∀ i, m ≤ i → c.isAvailable i = false) :
    cleanup { c with vout := (List.range m).map c.out } = c := by
  have hcanon : ({ c with vout := (List.range m).map c.out } : CCoins).Canonical := by
    intro o ho hnull
    obtain ⟨i, -, rfl⟩ := List.mem_map.mp ho
    exact hwf.out_eq_null hnull
  refine WF.ext hcanon.cleanup hwf rfl rfl rfl rfl fun i => ?_
  rw [hcanon.out_cleanup, out]
  rcases Nat.lt_or_ge i m with hi | hi
  · rw [List.getD_eq_getElem _ _ (by simpa using hi), List.getElem_map, List.getElem_range]
  · rw [List.getD_eq_default _ _ (by simpa using hi), hwf.out_eq_null]
    by_contra hne
    have hav := isAvailable_iff.mpr (Bool.eq_false_of_not_eq_true hne)
    rw [h i hi] at hav
    exact Bool.noConfusion hav

theorem header_assert (hp : c.isPruned = false) :
    (c.isAvailable 0 || c.isAvailable 1) = true ∨ c.calcMaskSize.2 ≠ 0 := by
  obtain ⟨n, hn⟩ := not_isPruned_iff.mp hp
  by_contra hnone
  obtain ⟨hfirst, hzero⟩ := not_or.mp hnone
  have hzero : c.calcMaskSize.2 = 0 := not_not.mp hzero
  -- no byte is used, so none is written, and nothing past the first two is available
  have hsize : c.calcMaskSize.1 = 0 := by
    rcases hl : c.calcMaskSize.1 with _ | l
    · rfl
    · have hcount := countP_chAvail (c := c)
      rw [hzero, List.countP_eq_zero] at hcount
      have hmem : c.chAvail l ∈ (List.range c.calcMaskSize.1).map c.chAvail :=
        List.mem_map_of_mem (List.mem_range.mpr (by omega))
      have hused := chAvail_ne_zero_iff.mpr (Bitmap.used_last hl)
      exact absurd (by simpa using hused) (hcount _ hmem)
  rcases Nat.lt_or_ge n 2 with hlt | hge
  · interval_cases n <;> simp [hn] at hfirst
  · rw [not_isAvailable_of_mask (by omega)] at hn
    exact Bool.noConfusion hn

theorem serialize_eq (h : (c.isAvailable 0 || c.isAvailable 1 || c.calcMaskSize.2 != 0) = true) :
    c.serialize K = some (VarInt.writeSigned 32 c.nVersion ++
      (VarInt.write 32 (c.nCode c.calcMaskSize.2) ++
      ((List.range c.calcMaskSize.1).map c.chAvail ++
      (c.vout.flatMap (fun o => if o.isNull then [] else CTxOutCompressor.serialize K o) ++
      VarInt.writeSigned 32 c.nHeight)))) :=
  if_pos h

/-- **The round trip.** An entry that is not pruned is read back from the bytes it was written
as, and those are all that is read. -/
theorem unserialize_serialize (hK : K.Lawful) (hp : c.isPruned = false) (hwf : c.WF)
    (hc : c.Storable P) :
    ∃ bytes, c.serialize K = some bytes ∧ Reads (unserialize K) bytes c := by
  have hassert := header_assert hp
  have hcond : (c.isAvailable 0 || c.isAvailable 1 || c.calcMaskSize.2 != 0) = true := by
    rcases hassert with h | h <;> simp [h]
  refine ⟨_, serialize_eq hcond, ?_⟩
  have hle := calcMaskSize_le (c := c)
  have hout := hc.outputs
  -- the header code does not wrap
  obtain ⟨q, hq⟩ : ∃ q, q = c.calcMaskSize.2 -
      if c.isAvailable 0 || c.isAvailable 1 then 0 else 1 := ⟨_, rfl⟩
  have hb := c.fCoinBase.toNat_lt
  have hs := c.fCoinStake.toNat_lt
  have hf := (c.isAvailable 0).toNat_lt
  have hg := (c.isAvailable 1).toNat_lt
  have hcode : c.nCode c.calcMaskSize.2 = 16 * q + c.fCoinBase.toNat + 2 * c.fCoinStake.toNat +
      4 * (c.isAvailable 0).toNat + 8 * (c.isAvailable 1).toNat := by
    rw [nCode, ← hq]
    exact Nat.mod_eq_of_lt (by omega)
  obtain ⟨h0, h1, h2, h3, hrest⟩ := header_fields hcode
  have hcount : c.nCode c.calcMaskSize.2 / 16 +
      (if c.isAvailable 0 || c.isAvailable 1 then 0 else 1) = c.calcMaskSize.2 := by
    rw [hrest, hq]
    split
    · rfl
    · rcases hassert with h | h
      · contradiction
      · omega
  have hpast : ∀ i, 2 + c.calcMaskSize.1 * 8 ≤ i → c.isAvailable i = false :=
    fun i hi => not_isAvailable_of_mask hi
  -- field by field
  refine (VarInt.reads_writeSigned hc.version.1 hc.version.2).bind ?_
  refine (VarInt.reads_write (by omega) (by rw [hcode]; omega)).bind ?_
  simp only [h0, h1, h2, h3]
  rw [hcount, ← countP_chAvail]
  refine (Bitmap.reads_until getLast_chAvail).bind ?_
  rw [vAvail_eq, List.mapM_map, flatMap_vout hpast]
  refine (Reads.mapM fun i _ => reads_out hK hwf hc i).bind ?_
  rw [← List.append_nil (VarInt.writeSigned 32 c.nHeight)]
  refine (VarInt.reads_writeSigned hc.height.1 hc.height.2).bind ?_
  intro rest
  exact congrArg (fun d => some (d, rest)) (cleanup_padded hwf hpast)

/-- The key of the curve's generator, in its long form. -/
def generatorX : List UInt8 :=
  [0x79, 0xBE, 0x66, 0x7E, 0xF9, 0xDC, 0xBB, 0xAC, 0x55, 0xA0, 0x62, 0x95, 0xCE, 0x87, 0x0B, 0x07,
    0x02, 0x9B, 0xFC, 0xDB, 0x2D, 0xCE, 0x28, 0xD9, 0x59, 0xF2, 0x81, 0x5B, 0x16, 0xF8, 0x17, 0x98]

def generatorY : List UInt8 :=
  [0x48, 0x3A, 0xDA, 0x77, 0x26, 0xA3, 0xC4, 0x65, 0x5D, 0xA4, 0xFB, 0xFC, 0x0E, 0x11, 0x08, 0xA8,
    0xFD, 0x17, 0xB4, 0x48, 0xA6, 0x85, 0x54, 0x19, 0x9C, 0x47, 0xD0, 0x8F, 0xFB, 0x10, 0xD4, 0xB8]

/-- The curve library as far as this one point goes. -/
def generatorOnly : PubKeyRules where
  isFullyValid key := key == 0x04 :: (generatorX ++ generatorY)
  decompress key :=
    if key = 0x02 :: generatorX then some ⟨0x04 :: (generatorX ++ generatorY), rfl⟩ else none

theorem generatorOnly_lawful : generatorOnly.Lawful := by
  intro x y h hx hvalid
  have hkey : (0x04 : UInt8) :: (x ++ y) = 0x04 :: (generatorX ++ generatorY) := by
    simpa [generatorOnly] using hvalid
  obtain ⟨rfl, rfl⟩ := List.append_inj (List.cons.inj hkey).2 hx
  rfl

/-- A coinstake with a spent first output, a key hash, a gap of a whole mask byte, a key in its
long form and a script of no template. -/
def sampleCoins : CCoins where
  fCoinStake := true
  nVersion := 1
  nHeight := 120891
  vout := [CTxOut.null,
    ⟨234925952, [OP_DUP, OP_HASH160, 20] ++ List.replicate 20 7 ++
      [OP_EQUALVERIFY, OP_CHECKSIG], -10⟩] ++
    List.replicate 12 CTxOut.null ++
    [⟨110397, [65] ++ (0x04 :: (generatorX ++ generatorY)) ++ [OP_CHECKSIG], -10⟩,
      ⟨0, [OP_RETURN, 1, 2], -10⟩]

theorem sampleCoins_storable : sampleCoins.Storable mainParams where
  version := by decide
  height := by decide
  outputs := by decide
  amount := by decide
  script := by decide
  rounds := by decide

theorem unserialize_serialize_sample : ∃ bytes, sampleCoins.serialize generatorOnly = some bytes ∧
      Reads (unserialize generatorOnly) bytes sampleCoins :=
  unserialize_serialize generatorOnly_lawful (by decide) ⟨by decide, by decide⟩
    sampleCoins_storable

/-! ## What the format cannot hold -/

/-- Behind a header that counts no byte of the bitmap come two outputs and the height. -/
theorem run_short_header {v : Int} (hv : 0 ≤ v ∧ v < 2 ^ 31) {n : Nat} (hn : n < 16)
    (hbit : (n.testBit 2 || n.testBit 3) = true) {p : CCoins × List UInt8}
    (h : (unserialize K).run (VarInt.writeSigned 32 v ++ (VarInt.write 32 n ++ s)) = some p) :
    ∃ vout s', ([n.testBit 2, n.testBit 3].mapM fun f : Bool =>
        if f then CTxOutCompressor.unserialize K else pure CTxOut.null).run s = some (vout, s') ∧
      p.1.vout = Trimmed.trim CTxOut.isNull vout := by
  unfold unserialize at h
  rw [(VarInt.reads_writeSigned hv.1 hv.2).run_bind,
    (VarInt.reads_write (by omega) (by omega)).run_bind] at h
  simp only [hbit, if_true, Nat.div_eq_of_lt hn] at h
  obtain ⟨mask, s1, hmask, houts⟩ := run_bind_eq_some h
  have hempty : (Bitmap.readUntil 0).run s = some ([], s) := by cases s <;> rfl
  obtain ⟨rfl, rfl⟩ := Prod.mk.inj (Option.some.inj (hmask.symm.trans hempty))
  obtain ⟨vout, s2, hvout, hend⟩ := run_bind_eq_some houts
  obtain ⟨nHeight, s3, -, hp⟩ := run_bind_eq_some hend
  refine ⟨vout, s2, hvout, ?_⟩
  rw [← Option.some.inj hp]
  rfl

theorem prefix_of_trim (vout : List CTxOut) : Trimmed.trim CTxOut.isNull vout <+: vout :=
  List.rdropWhile_prefix CTxOut.isNull vout

theorem length_of_full_mask (hfirst : c.isAvailable 0 = true) (hmask : c.calcMaskSize.2 = 2 ^ 28)
    (hv : 0 ≤ c.nVersion ∧ c.nVersion < 2 ^ 31) {bytes rest : List UInt8}
    (hser : c.serialize K = some bytes) (h : (unserialize K).run bytes = some (c', rest)) :
    c'.vout.length ≤ 2 := by
  rw [serialize_eq (by rw [hfirst]; rfl)] at hser
  obtain rfl := Option.some.inj hser
  have hb := c.fCoinBase.toNat_lt
  have hs := c.fCoinStake.toNat_lt
  have hg := (c.isAvailable 1).toNat_lt
  have hcode : c.nCode c.calcMaskSize.2 = 16 * 0 + c.fCoinBase.toNat + 2 * c.fCoinStake.toNat +
      4 * (c.isAvailable 0).toNat + 8 * (c.isAvailable 1).toNat := by
    have h1 : (c.isAvailable 0).toNat = 1 := by rw [hfirst]; rfl
    rw [nCode, hmask, hfirst, Bool.true_or, if_pos rfl]
    simp only [Bool.toNat_true]
    omega
  obtain ⟨-, -, h2, -⟩ := header_fields hcode
  have h1 : (c.isAvailable 0).toNat ≤ 1 := by rw [hfirst]; exact Nat.le_refl 1
  obtain ⟨vout, s', hvout, htrim⟩ := run_short_header hv (by omega) (by rw [h2, hfirst]; rfl) h
  rw [htrim]
  exact (prefix_of_trim vout).length_le.trans (length_mapM hvout).le

theorem length_of_long_script {script : CScript}
    (hlen : script.length + CScript.nSpecialScripts = 2 ^ 32) {r : CScript}
    (h : (CScript.unserialize K).run (CScript.serialize K script ++ s) = some (r, s')) :
    r.length = 25 := by
  have hgeneral : script.compress K = none := by
    unfold CScript.nSpecialScripts at hlen
    unfold CScript.compress CScript.isToKeyID CScript.isToScriptID CScript.isToPubKey
    rw [if_neg (by omega), if_neg (by omega), if_neg (by omega), if_neg (by omega)]
  unfold CScript.serialize at h
  rw [hgeneral] at h
  simp only [hlen, Nat.mod_self, List.append_assoc] at h
  unfold CScript.unserialize at h
  rw [(VarInt.reads_write (by omega) (by omega)).run_bind, if_pos (by decide)] at h
  obtain ⟨vch, s1, hvch, h⟩ := run_bind_eq_some h
  obtain ⟨rfl, -⟩ := Prod.mk.inj (Option.some.inj h)
  have hvch : vch.length = 20 := by
    have hb : (if 20 ≤ (script ++ s).length then
        some ((script ++ s).take 20, (script ++ s).drop 20) else none) = some (vch, s1) := hvch
    split at hb
    · rename_i hle
      obtain ⟨rfl, -⟩ := Prod.mk.inj (Option.some.inj hb)
      rw [List.length_take, Nat.min_eq_left hle]
    · exact absurd hb (by simp)
  show ([OP_DUP, OP_HASH160, 20] ++ vch ++ [OP_EQUALVERIFY, OP_CHECKSIG]).length = 25
  simp [hvch]

theorem rounds_of_unserialize (h : (unserialize K).run s = some (c', s')) :
    ∀ o ∈ c'.vout, o.nRounds = CTxOut.null.nRounds := by
  obtain ⟨nVersion, s1, -, h⟩ := run_bind_eq_some h
  obtain ⟨nCode, s2, -, h⟩ := run_bind_eq_some h
  obtain ⟨mask, s3, -, h⟩ := run_bind_eq_some h
  obtain ⟨vout, s4, hvout, h⟩ := run_bind_eq_some h
  obtain ⟨nHeight, s5, -, h⟩ := run_bind_eq_some h
  obtain ⟨rfl, -⟩ := Prod.mk.inj (Option.some.inj h)
  intro o ho
  refine forall_of_mapM (p := fun o => o.nRounds = CTxOut.null.nRounds) ?_ hvout o
    ((prefix_of_trim vout).subset ho)
  intro f s o s' hread
  cases f with
  | false => obtain ⟨rfl, -⟩ := Prod.mk.inj (Option.some.inj hread); rfl
  | true =>
    obtain ⟨nVal, s1, -, hread⟩ := run_bind_eq_some hread
    obtain ⟨script, s2, -, hread⟩ := run_bind_eq_some hread
    obtain ⟨rfl, -⟩ := Prod.mk.inj (Option.some.inj hread)
    rfl

end RoundTrip

/-- An entry as the database holds one: not pruned, cleaned up, with amounts in range. -/
def Stored (P : CChainParams) (c : CCoins) : Prop :=
  c.isPruned = false ∧ c.cleanup = c ∧ 0 ≤ c.nVersion ∧ 0 ≤ c.nHeight ∧
    ∀ o ∈ c.vout, o.isNull = false → P.moneyRange o.nValue = true

/-- The bytes of an entry are read to their end, as an equal entry. -/
def Restored (K : PubKeyRules) (c : CCoins) : Prop :=
  ∃ bytes c', c.serialize K = some bytes ∧ (unserialize K).run bytes = some (c', []) ∧
    c'.eqv c = true

theorem vout_of_eqv {c c' : CCoins} (hp : c.isPruned = false) (h : c'.eqv c = true) :
    c'.vout = c.vout := by
  rw [eqv, hp, Bool.and_false, Bool.false_or] at h
  simp only [Bool.and_eq_true, beq_iff_eq] at h
  exact h.2

/-- An entry of height and version zero, with `n` times the same output. -/
def copies (n : Nat) (o : CTxOut) : CCoins := { vout := List.replicate n o }

section Copies

variable {P : CChainParams} {K : PubKeyRules} {o : CTxOut} {n : Nat}

theorem isAvailable_copies (ho : o.isNull = false) {i : Nat} (hi : i < n) :
    (copies n o).isAvailable i = true := by
  rw [isAvailable_iff, out, copies, List.getD_replicate _ hi]
  exact ho

theorem cleanup_copies (ho : o.isNull = false) : (copies n o).cleanup = copies n o := by
  have htrim : Trimmed.trim CTxOut.isNull (List.replicate n o) = List.replicate n o := by
    refine List.rdropWhile_eq_self_iff.mpr fun hne => ?_
    rw [List.getLast_replicate, ho]
    exact Bool.false_ne_true
  rw [cleanup, copies, htrim]

theorem calcMaskSize_copies (ho : o.isNull = false) {k : Nat} (hn : n = 8 * k + 2) :
    (copies n o).calcMaskSize.2 = k := by
  have hlen : ((copies n o).vout.length + 5) / 8 = k := by
    rw [copies, List.length_replicate]
    omega
  rw [calcMaskSize, Bitmap.usedBytes_count, hlen, List.countP_eq_length.mpr, List.length_range]
  intro b hb
  have hb := List.mem_range.mp hb
  have hfirst := isAvailable_copies ho (i := 2 + b * 8 + 0) (n := n) (by omega)
  exact List.any_eq_true.mpr ⟨0, List.mem_range.mpr (by omega), hfirst⟩

theorem stored_copies (ho : o.isNull = false) (hamount : P.moneyRange o.nValue = true)
    (hn : 0 < n) : Stored P (copies n o) := by
  have hp : (copies n o).isPruned = false := not_isPruned_iff.mpr ⟨0, isAvailable_copies ho hn⟩
  refine ⟨hp, cleanup_copies ho, Int.le_refl 0, Int.le_refl 0, ?_⟩
  intro o' ho' _
  rw [List.eq_of_mem_replicate ho']
  exact hamount

variable {c' : CCoins} {script : CScript}

theorem vout_of_restored (ho : o.isNull = false) (hn : 0 < n) (h : c'.eqv (copies n o) = true) :
    c'.vout = List.replicate n o :=
  vout_of_eqv (not_isPruned_iff.mpr ⟨0, isAvailable_copies ho hn⟩) h

theorem not_restored_of_rounds (ho : o.isNull = false) (hn : 0 < n)
    (hrounds : o.nRounds ≠ CTxOut.null.nRounds) : ¬ Restored K (copies n o) := by
  rintro ⟨bytes, c', -, hrun, heqv⟩
  have hvout := vout_of_restored ho hn heqv
  refine hrounds (rounds_of_unserialize hrun o ?_)
  rw [hvout]
  exact List.mem_replicate.mpr ⟨by omega, rfl⟩

theorem not_restored_of_outputs (ho : o.isNull = false) (hn : n = 8 * 2 ^ 28 + 2) :
    ¬ Restored K (copies n o) := by
  rintro ⟨bytes, c', hser, hrun, heqv⟩
  have hversion : 0 ≤ (copies n o).nVersion ∧ (copies n o).nVersion < 2 ^ 31 :=
    ⟨Int.le_refl 0, Int.pow_pos (by omega)⟩
  have hshort := length_of_full_mask (isAvailable_copies ho (by omega))
    (calcMaskSize_copies ho hn) hversion hser hrun
  rw [vout_of_restored ho (by omega) heqv, List.length_replicate] at hshort
  omega

theorem serialize_copies_one (script : CScript) :
    serialize K (copies 1 ⟨0, script, -10⟩) = some (VarInt.writeSigned 32 0 ++ (VarInt.write 32 4 ++
      (VarInt.write 64 0 ++ (CScript.serialize K script ++ VarInt.writeSigned 32 0)))) := by
  have hmask : (copies 1 ⟨0, script, -10⟩).calcMaskSize = (0, 0) := by
    simp [calcMaskSize, copies, Bitmap.usedBytes]
  have hcode : (copies 1 ⟨0, script, -10⟩).nCode 0 = 4 := rfl
  have hout : (copies 1 ⟨0, script, -10⟩).vout.flatMap
      (fun o => if o.isNull then [] else CTxOutCompressor.serialize K o) =
        VarInt.write 64 0 ++ CScript.serialize K script := by
    have hvout : (copies 1 ⟨0, script, -10⟩).vout = [⟨0, script, -10⟩] := rfl
    rw [hvout, List.flatMap_singleton]
    rfl
  rw [serialize_eq rfl, hmask, hout, hcode, List.append_assoc]
  rfl

theorem script_of_long_script (hlen : script.length + CScript.nSpecialScripts = 2 ^ 32)
    {bytes rest : List UInt8} (hser : serialize K (copies 1 ⟨0, script, -10⟩) = some bytes)
    (h : (unserialize K).run bytes = some (c', rest)) :
    ∀ o ∈ c'.vout, o.scriptPubKey.length ≤ 25 := by
  rw [serialize_copies_one] at hser
  obtain rfl := Option.some.inj hser
  obtain ⟨vout, s1, hvout, htrim⟩ := run_short_header (by omega) (by omega) rfl h
  intro o ho
  rw [htrim] at ho
  have ho := (prefix_of_trim vout).subset ho
  -- the first output is the one that was written, the second is null
  rw [List.mapM_cons] at hvout
  obtain ⟨first, s2, hfirst, hvout⟩ := run_bind_eq_some hvout
  obtain ⟨outs, s3, houts, hvout⟩ := run_bind_eq_some hvout
  obtain ⟨rfl, rfl⟩ := Prod.mk.inj (Option.some.inj hvout)
  obtain ⟨rfl, rfl⟩ : [CTxOut.null] = outs ∧ s2 = s3 := Prod.mk.inj (Option.some.inj houts)
  rcases List.mem_cons.mp ho with rfl | ho
  · have hfirst : (CTxOutCompressor.unserialize K).run (VarInt.write 64 0 ++
        (CScript.serialize K script ++ VarInt.writeSigned 32 0)) = some (o, s2) := hfirst
    unfold CTxOutCompressor.unserialize at hfirst
    rw [(VarInt.reads_write (by omega) (by omega)).run_bind] at hfirst
    obtain ⟨r, s4, hr, hfirst⟩ := run_bind_eq_some hfirst
    obtain ⟨rfl, -⟩ := Prod.mk.inj (Option.some.inj hfirst)
    exact (length_of_long_script hlen hr).le
  · rw [List.mem_singleton.mp ho]
    exact Nat.zero_le 25

theorem not_restored_of_script (hlen : script.length + CScript.nSpecialScripts = 2 ^ 32) :
    ¬ Restored K (copies 1 ⟨0, script, -10⟩) := by
  rintro ⟨bytes, c', hser, hrun, heqv⟩
  have hvout := vout_of_restored rfl Nat.one_pos heqv
  have hshort := script_of_long_script hlen hser hrun ⟨0, script, -10⟩
    (by rw [hvout]; exact List.mem_replicate.mpr ⟨by omega, rfl⟩)
  unfold CScript.nSpecialScripts at hlen
  simp only at hshort
  omega

/-- **Three entries that are not restored**: an output with rounds, more mask bytes than the
header can count, a script whose size wraps. -/
theorem not_every_stored_restored : (Stored mainParams (copies 1 ⟨1, [], 5⟩) ∧
      ¬ Restored generatorOnly (copies 1 ⟨1, [], 5⟩)) ∧
    (Stored mainParams (copies (8 * 2 ^ 28 + 2) ⟨1, [], -10⟩) ∧
      ¬ Restored generatorOnly (copies (8 * 2 ^ 28 + 2) ⟨1, [], -10⟩)) ∧
    (Stored mainParams (copies 1 ⟨0, List.replicate (2 ^ 32 - 6) 0, -10⟩) ∧
      ¬ Restored generatorOnly (copies 1 ⟨0, List.replicate (2 ^ 32 - 6) 0, -10⟩)) := by
  refine ⟨⟨stored_copies rfl (by decide) (by omega), ?_⟩,
    ⟨stored_copies rfl (by decide) (by omega), ?_⟩, ⟨stored_copies rfl (by decide) (by omega), ?_⟩⟩
  · exact not_restored_of_rounds rfl (by omega) (by decide)
  · exact not_restored_of_outputs rfl rfl
  · exact not_restored_of_script (by rw [List.length_replicate]; decide)

end Copies

end CCoins

end BitBlocks

/-!
## The size of a coin entry (`CCoins::GetSerializeSize`)

The size is added up without writing anything, by a copy of what `Serialize` does. The copy has
a header code of its own, with the number of mask bytes one bit further to the right than where
it is written: the coinstake flag came in between, in `Serialize` only. The code is a
variable-length integer, so this shows where one of the codes takes a byte more.
-/

namespace BitBlocks

open VarInt

/-- What a stream counts that does nothing else (`CSizeComputer`). -/
def CTxOutCompressor.getSerializeSize (K : PubKeyRules) (txout : CTxOut) : Nat :=
  (CTxOutCompressor.serialize K txout).length

namespace CCoins

/-- The header code as `GetSerializeSize` has it. -/
def nSizeCode (c : CCoins) (nMaskCode : Nat) : Nat :=
  (8 * (nMaskCode - if c.isAvailable 0 || c.isAvailable 1 then 0 else 1) +
    c.fCoinBase.toNat + 2 * c.fCoinStake.toNat +
    4 * (c.isAvailable 0).toNat + 8 * (c.isAvailable 1).toNat) % 2 ^ 32

/-- What a header code leaves to add: version, code, bitmap, outputs and height. -/
def addSizes (K : PubKeyRules) (c : CCoins) (nMaskSize nCode : Nat) : Nat :=
  sizeSigned 32 c.nVersion + size 32 nCode + nMaskSize +
    (c.vout.map fun o => if o.isNull then 0 else CTxOutCompressor.getSerializeSize K o).sum +
    sizeSigned 32 c.nHeight

/-- `GetSerializeSize`, in `unsigned int` arithmetic, with the assertion of `Serialize`. -/
def getSerializeSize (K : PubKeyRules) (c : CCoins) : Option Nat :=
  let (nMaskSize, nMaskCode) := c.calcMaskSize
  if c.isAvailable 0 || c.isAvailable 1 || nMaskCode != 0 then
    some (c.addSizes K nMaskSize (c.nSizeCode nMaskCode) % 2 ^ 32)
  else none

variable {K : PubKeyRules} {c : CCoins}

theorem length_serialize {bytes : List UInt8} (h : c.serialize K = some bytes) :
    bytes.length = c.addSizes K c.calcMaskSize.1 (c.nCode c.calcMaskSize.2) := by
  have houts :
      (c.vout.flatMap fun o => if o.isNull then [] else CTxOutCompressor.serialize K o).length =
      (c.vout.map fun o => if o.isNull then 0 else CTxOutCompressor.getSerializeSize K o).sum := by
    rw [List.length_flatMap]
    congr 1
    refine List.map_congr_left fun o _ => ?_
    split
    · rfl
    · rfl
  unfold serialize at h
  dsimp only at h
  split at h
  · rw [← Option.some.inj h]
    simp only [List.length_append, length_writeSigned, length_write, List.length_map,
      List.length_range, houts]
    unfold addSizes
    omega
  · exact absurd h (by simp)

/-- The header codes are on the same side of every step of the variable-length integers. -/
def CodesAgree (c : CCoins) : Prop :=
  ∀ step ∈ steps32, c.nSizeCode c.calcMaskSize.2 < step ↔ c.nCode c.calcMaskSize.2 < step

/--
**When the size is right.** For an entry that is not pruned, `GetSerializeSize` is the number of
bytes that `Serialize` writes iff the two header codes take as many bytes and all bytes together
can be counted.
-/
theorem getSerializeSize_eq_iff (K : PubKeyRules) {c : CCoins} (hp : c.isPruned = false) :
    c.getSerializeSize K = (c.serialize K).map List.length ↔
      c.CodesAgree ∧ c.addSizes K c.calcMaskSize.1 (c.nCode c.calcMaskSize.2) < 2 ^ 32 := by
  have hcond : (c.isAvailable 0 || c.isAvailable 1 || c.calcMaskSize.2 != 0) = true := by
    rcases header_assert hp with h | h
    · rw [h, Bool.true_or]
    · simp [h]
  have hser := serialize_eq (K := K) hcond
  have hlen := length_serialize hser
  have hsize : c.getSerializeSize K =
      some (c.addSizes K c.calcMaskSize.1 (c.nSizeCode c.calcMaskSize.2) % 2 ^ 32) := if_pos hcond
  rw [hsize, hser, Option.map_some, hlen, Option.some.injEq]
  have hcounted := size_le 32 (c.nSizeCode c.calcMaskSize.2)
  have hwritten := size_le 32 (c.nCode c.calcMaskSize.2)
  unfold CodesAgree addSizes
  rw [← size_eq_iff]
  constructor
  · intro h
    exact ⟨by omega, by omega⟩
  · rintro ⟨hcode, hlt⟩
    rw [hcode, Nat.mod_eq_of_lt hlt]

/-- **Entries of up to 58 outputs** have codes of one byte, whichever way they are counted. -/
theorem codesAgree_of_few_outputs (h : c.vout.length ≤ 58) : c.CodesAgree := by
  have hmask := calcMaskSize_le (c := c)
  have hb := c.fCoinBase.toNat_lt
  have hs := c.fCoinStake.toNat_lt
  have hf := (c.isAvailable 0).toNat_lt
  have hg := (c.isAvailable 1).toNat_lt
  have hcounted : c.nSizeCode c.calcMaskSize.2 < 128 := by
    unfold nSizeCode
    omega
  have hwritten : c.nCode c.calcMaskSize.2 < 128 := by
    unfold nCode
    omega
  intro step hstep
  have hle : 128 ≤ step := by
    revert step
    decide
  exact ⟨fun _ => by omega, fun _ => by omega⟩

theorem sampleCoins_size :
    sampleCoins.getSerializeSize generatorOnly =
    (sampleCoins.serialize generatorOnly).map List.length :=
  (getSerializeSize_eq_iff generatorOnly (by decide)).mpr
    ⟨codesAgree_of_few_outputs (by decide), by decide +kernel⟩

/-- All 66 outputs of a transaction, unspent. -/
def manyOutputs : CCoins where
  nVersion := 1
  nHeight := 100
  vout := List.replicate 66 ⟨100000000, [OP_DUP], -10⟩

/-- Their mask has eight bytes, and the code takes one byte or two. -/
theorem manyOutputs_size : manyOutputs.isPruned = false ∧
    manyOutputs.getSerializeSize generatorOnly = some 209 ∧
      (manyOutputs.serialize generatorOnly).map List.length = some 210 := by
  decide +kernel

end CCoins

end BitBlocks
