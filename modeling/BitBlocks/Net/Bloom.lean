import BitBlocks.Lib.Bitmap
import BitBlocks.Lib.Machine
import BitBlocks.Script.SignatureHash
import BitBlocks.Script.Standard

/-!
# Bloom filters of peers (`bloom.cpp`)

A filter is a row of bits; a key sets the bits its hashes name, and is contained if
all of them are set. Two flags stand for rows that are all ones and all zeros. No bit
is ever taken away but by `clear`, and the flags are only read in one direction:
a full filter stays full and contains everything, and one that is marked empty has
taken nothing in. A row without bits is marked full by `UpdateEmptyFull`, so its
hashes, which would be divided by zero, are not computed; `clear` takes that mark
away, and is not called on such a row.
-/

namespace BitBlocks

/-! ## `MurmurHash3` -/

def rotl32 (x r : UInt32) : UInt32 := (x <<< r) ||| (x >>> (32 - r))

def murmurMix (k1 : UInt32) : UInt32 := rotl32 (k1 * 0xcc9e2d51) 15 * 0x1b873593

/-- Words of four bytes, the lowest first, and the bytes behind the last. -/
def murmurBody : UInt32 → List UInt8 → UInt32 × List UInt8
  | h1, b0 :: b1 :: b2 :: b3 :: rest =>
    let k1 := b0.toUInt32 ||| (b1.toUInt32 <<< 8) ||| (b2.toUInt32 <<< 16) |||
      (b3.toUInt32 <<< 24)
    murmurBody (rotl32 (h1 ^^^ murmurMix k1) 13 * 5 + 0xe6546b64) rest
  | h1, tail => (h1, tail)

def murmurTail (h1 : UInt32) (tail : List UInt8) : UInt32 :=
  if tail = [] then h1
  else
    h1 ^^^ murmurMix (((tail.getD 2 0).toUInt32 <<< 16) ^^^ ((tail.getD 1 0).toUInt32 <<< 8) ^^^
      (tail.getD 0 0).toUInt32)

def murmurHash3 (nHashSeed : UInt32) (vDataToHash : List UInt8) : UInt32 :=
  let s := murmurBody nHashSeed vDataToHash
  let h1 := murmurTail s.1 s.2
  let h1 := h1 ^^^ UInt32.ofNat vDataToHash.length
  let h1 := (h1 ^^^ (h1 >>> 16)) * 0x85ebca6b
  let h1 := (h1 ^^^ (h1 >>> 13)) * 0xc2b2ae35
  h1 ^^^ (h1 >>> 16)

example : murmurHash3 0 [0x00, 0x11, 0x22, 0x33, 0x44, 0x55, 0x66, 0x77, 0x88] = 0xb4698def := by
  decide

/-! ## The filter -/

structure CBloomFilter where
  vData : List UInt8
  isFull : Bool
  isEmpty : Bool
  nHashFuncs : UInt32
  nTweak : UInt32
  nFlags : UInt8

def BLOOM_UPDATE_ALL : UInt8 := 1
def BLOOM_UPDATE_P2PUBKEY_ONLY : UInt8 := 2
def BLOOM_UPDATE_MASK : UInt8 := 3

namespace CBloomFilter

/-- `Hash`; `none` is a remainder modulo zero. -/
def hash (f : CBloomFilter) (nHashNum : UInt32) (vDataToHash : List UInt8) : Option Nat :=
  if f.vData.length * 8 = 0 then none
  else
    some ((murmurHash3 (nHashNum * 0xFBA4C795 + f.nTweak) vDataToHash).toNat % (f.vData.length * 8))

def setHash (f : CBloomFilter) (vKey : List UInt8) (i : Nat) : Option CBloomFilter :=
  (f.hash (UInt32.ofNat i) vKey).map fun nIndex =>
    { f with vData := Bitmap.setBit f.vData nIndex }

def insert (f : CBloomFilter) (vKey : List UInt8) : Option CBloomFilter :=
  if f.isFull then some f
  else
    ((List.range f.nHashFuncs.toNat).foldlM (fun (g : CBloomFilter) i => g.setHash vKey i) f).map
      fun g => { g with isEmpty := false }

/-- The loop of `contains`. -/
def testHashes (f : CBloomFilter) (vKey : List UInt8) : List Nat → Option Bool
  | [] => some true
  | i :: is =>
    match f.hash (UInt32.ofNat i) vKey with
    | none => none
    | some nIndex => if Bitmap.bit f.vData nIndex then f.testHashes vKey is else some false

def contains (f : CBloomFilter) (vKey : List UInt8) : Option Bool :=
  if f.isFull then some true
  else if f.isEmpty then some false
  else f.testHashes vKey (List.range f.nHashFuncs.toNat)

def clear (f : CBloomFilter) : CBloomFilter :=
  { f with vData := List.replicate f.vData.length 0, isFull := false, isEmpty := true }

def updateEmptyFull (f : CBloomFilter) : CBloomFilter :=
  { f with isFull := f.vData.all (· == 0xff), isEmpty := f.vData.all (· == 0) }

/-- Some data element of a script is contained. -/
def matchesElement (f : CBloomFilter) (pc : CScript) : Option Bool :=
  match _h : CScript.getOp pc with
  | none => some false
  | some (_, data, pc') =>
    if data ≠ [] then
      match f.contains data with
      | none => none
      | some true => some true
      | some false => f.matchesElement pc'
    else f.matchesElement pc'
termination_by pc.length
decreasing_by all_goals exact CScript.length_getOp _h

/-- An output that matches is added, as the flags say. -/
def addOutput (f : CBloomFilter) (outpoint : COutPoint) (script : CScript) : Option CBloomFilter :=
  if f.nFlags &&& BLOOM_UPDATE_MASK = BLOOM_UPDATE_ALL then f.insert outpoint.bytes
  else if f.nFlags &&& BLOOM_UPDATE_MASK = BLOOM_UPDATE_P2PUBKEY_ONLY then
    match CScript.solver script with
    | some (.pubkey, _) => f.insert outpoint.bytes
    | some (.multisig, _) => f.insert outpoint.bytes
    | _ => some f
  else some f

/-- The loop over the outputs, from the one with index `i` on. -/
def scanOutputs (txid : Uint256) :
    (i : Nat) → List CTxOut → CBloomFilter → (fFound : Bool) → Option (CBloomFilter × Bool)
  | _, [], f, fFound => some (f, fFound)
  | i, txout :: vout, f, fFound =>
    match f.matchesElement txout.scriptPubKey with
    | none => none
    | some false => scanOutputs txid (i + 1) vout f fFound
    | some true =>
      match f.addOutput ⟨txid, i⟩ txout.scriptPubKey with
      | none => none
      | some f => scanOutputs txid (i + 1) vout f true

def scanInputs (f : CBloomFilter) : List CTxIn → Option Bool
  | [] => some false
  | txin :: vin =>
    match f.contains txin.prevout.bytes with
    | none => none
    | some true => some true
    | some false =>
      match f.matchesElement txin.scriptSig with
      | none => none
      | some true => some true
      | some false => f.scanInputs vin

def isRelevantAndUpdate (f : CBloomFilter) (tx : CTransaction) : Option (CBloomFilter × Bool) :=
  if f.isFull then some (f, true)
  else if f.isEmpty then some (f, false)
  else
    match f.contains (CompactSize.writeLE 32 tx.hash) with
    | none => none
    | some fFound =>
      match scanOutputs tx.hash 0 tx.vout f fFound with
      | none => none
      | some (f, true) => some (f, true)
      | some (f, false) => (f.scanInputs tx.vin).map fun b => (f, b)

/-! ## Bits are only added -/

/-- No remainder modulo zero is taken. -/
def Safe (f : CBloomFilter) : Prop := f.vData = [] → f.isFull = true

/-- The same filter, with at least the same bits. -/
structure Grows (f g : CBloomFilter) : Prop where
  length : g.vData.length = f.vData.length
  isFull : g.isFull = f.isFull
  isEmpty : g.isEmpty = true → f.isEmpty = true
  nHashFuncs : g.nHashFuncs = f.nHashFuncs
  nTweak : g.nTweak = f.nTweak
  nFlags : g.nFlags = f.nFlags
  bit : ∀ n, Bitmap.bit f.vData n = true → Bitmap.bit g.vData n = true

variable {f g h : CBloomFilter} {vKey : List UInt8}

theorem Grows.refl (f : CBloomFilter) : Grows f f := ⟨rfl, rfl, id, rfl, rfl, rfl, fun _ => id⟩

theorem Grows.trans (h1 : Grows f g) (h2 : Grows g h) : Grows f h where
  length := h2.length.trans h1.length
  isFull := h2.isFull.trans h1.isFull
  isEmpty := fun he => h1.isEmpty (h2.isEmpty he)
  nHashFuncs := h2.nHashFuncs.trans h1.nHashFuncs
  nTweak := h2.nTweak.trans h1.nTweak
  nFlags := h2.nFlags.trans h1.nFlags
  bit := fun n hn => h2.bit n (h1.bit n hn)

theorem Grows.safe (h : Grows f g) (hf : f.Safe) : g.Safe := by
  intro hnil
  rw [h.isFull]
  refine hf (List.eq_nil_of_length_eq_zero ?_)
  rw [← h.length, hnil, List.length_nil]

theorem Grows.hash (h : Grows f g) (i : UInt32) : g.hash i vKey = f.hash i vKey := by
  rw [CBloomFilter.hash, CBloomFilter.hash, h.length, h.nTweak]

theorem exists_hash (hne : f.vData ≠ []) (i : UInt32) (vKey : List UInt8) :
    ∃ n, f.hash i vKey = some n ∧ n / 8 < f.vData.length := by
  have hpos : 0 < f.vData.length := List.length_pos_of_ne_nil hne
  refine ⟨_, if_neg (by omega), ?_⟩
  have hlt := Nat.mod_lt (murmurHash3 (i * 0xFBA4C795 + f.nTweak) vKey).toNat
    (show 0 < f.vData.length * 8 by omega)
  omega

theorem ne_nil_of_safe (hf : f.Safe) (hfull : f.isFull = false) : f.vData ≠ [] := by
  intro hnil
  rw [hf hnil] at hfull
  exact nomatch hfull

def HasBits (f : CBloomFilter) (vKey : List UInt8) (is : List Nat) : Prop :=
  ∀ i ∈ is, ∃ n, f.hash (UInt32.ofNat i) vKey = some n ∧ Bitmap.bit f.vData n = true

variable {is : List Nat} {tx : CTransaction}

theorem Grows.hasBits (h : Grows f g) (hf : f.HasBits vKey is) : g.HasBits vKey is := by
  intro i hi
  obtain ⟨n, hn, hbit⟩ := hf i hi
  exact ⟨n, by rw [h.hash, hn], h.bit n hbit⟩

theorem testHashes_eq_true : f.testHashes vKey is = some true ↔ f.HasBits vKey is := by
  induction is with
  | nil => simp [testHashes, HasBits]
  | cons i is ih =>
    rw [testHashes, HasBits, List.forall_mem_cons]
    cases hh : f.hash (UInt32.ofNat i) vKey with
    | none => simp
    | some n =>
      by_cases hbit : Bitmap.bit f.vData n = true
      · simpa [hbit, HasBits] using ih
      · simp [hbit]

theorem exists_testHashes (hne : f.vData ≠ []) (vKey : List UInt8) (is : List Nat) :
    ∃ b, f.testHashes vKey is = some b := by
  induction is with
  | nil => exact ⟨true, rfl⟩
  | cons i is ih =>
    obtain ⟨n, hn, -⟩ := exists_hash hne (UInt32.ofNat i) vKey
    rw [testHashes, hn]
    dsimp only
    split
    · exact ih
    · exact ⟨false, rfl⟩

theorem contains_eq_true : f.contains vKey = some true ↔ f.isFull = true ∨
    f.isEmpty = false ∧ f.HasBits vKey (List.range f.nHashFuncs.toNat) := by
  rw [contains]
  cases hfull : f.isFull with
  | true => simp
  | false =>
    cases hempty : f.isEmpty with
    | true => simp
    | false => simpa using testHashes_eq_true

theorem exists_contains (hf : f.Safe) (vKey : List UInt8) : ∃ b, f.contains vKey = some b := by
  rw [contains]
  cases hfull : f.isFull with
  | true => exact ⟨true, rfl⟩
  | false =>
    cases hempty : f.isEmpty with
    | true => exact ⟨false, rfl⟩
    | false => exact exists_testHashes (ne_nil_of_safe hf hfull) vKey _

/-- **What is contained stays contained.** -/
theorem Grows.contains (h : Grows f g) (hf : f.contains vKey = some true) :
    g.contains vKey = some true := by
  rw [contains_eq_true] at *
  rcases hf with hfull | ⟨hempty, hbits⟩
  · exact Or.inl (h.isFull.trans hfull)
  · refine Or.inr ⟨?_, ?_⟩
    · cases hg : g.isEmpty with
      | false => rfl
      | true => rw [h.isEmpty hg] at hempty; exact nomatch hempty
    · rw [h.nHashFuncs]
      exact h.hasBits hbits

theorem setHash_spec (hne : f.vData ≠ []) (vKey : List UInt8) (i : Nat) :
    ∃ g, f.setHash vKey i = some g ∧ Grows f g ∧ g.HasBits vKey [i] := by
  obtain ⟨n, hn, hlt⟩ := exists_hash hne (UInt32.ofNat i) vKey
  have hgrows : Grows f { f with vData := Bitmap.setBit f.vData n } :=
    { Grows.refl f with
      length := Bitmap.length_setBit _ _
      bit := fun m hm => Bitmap.bit_setBit_of_bit hlt hm }
  refine ⟨_, by rw [setHash, hn]; rfl, hgrows, fun j hj => ?_⟩
  obtain rfl := List.mem_singleton.mp hj
  exact ⟨n, by rw [hgrows.hash, hn], Bitmap.bit_setBit hlt⟩

theorem setHashes_spec (vKey : List UInt8) (is : List Nat) {f : CBloomFilter} (hne : f.vData ≠ []) :
    ∃ g, is.foldlM (fun (g : CBloomFilter) i => g.setHash vKey i) f = some g ∧ Grows f g ∧
      g.HasBits vKey is := by
  induction is generalizing f with
  | nil => exact ⟨f, rfl, Grows.refl f, by simp [HasBits]⟩
  | cons i is ih =>
    obtain ⟨g, hg, hfg, hi⟩ := setHash_spec hne vKey i
    have hgne : g.vData ≠ [] := by
      rw [← List.length_pos_iff, hfg.length]
      exact List.length_pos_of_ne_nil hne
    obtain ⟨h, hh, hgh, his⟩ := ih hgne
    refine ⟨h, ?_, hfg.trans hgh, ?_⟩
    · rw [List.foldlM_cons, hg]
      exact hh
    · intro j hj
      rcases List.mem_cons.mp hj with rfl | hj
      · exact hgh.hasBits hi j List.mem_cons_self
      · exact his j hj

/-- **What is inserted is contained.** -/
theorem insert_spec (hf : f.Safe) (vKey : List UInt8) :
    ∃ g, f.insert vKey = some g ∧ Grows f g ∧ g.contains vKey = some true := by
  cases hfull : f.isFull with
  | true =>
    refine ⟨f, by rw [insert, hfull]; rfl, Grows.refl f, contains_eq_true.mpr (Or.inl hfull)⟩
  | false =>
    obtain ⟨g, hg, hfg, hbits⟩ :=
      setHashes_spec vKey (List.range f.nHashFuncs.toNat) (ne_nil_of_safe hf hfull)
    refine ⟨{ g with isEmpty := false }, ?_, ?_, ?_⟩
    · rw [insert, hfull, if_neg (by decide), hg]
      rfl
    · exact { hfg with isEmpty := fun h => nomatch h }
    · refine contains_eq_true.mpr (Or.inr ⟨rfl, ?_⟩)
      rw [← hfg.nHashFuncs] at hbits
      exact hbits

/-! ## Transactions -/

theorem exists_matchesElement (hf : f.Safe) (pc : CScript) : ∃ b, f.matchesElement pc = some b := by
  induction hn : pc.length using Nat.strong_induction_on generalizing pc with
  | h n ih =>
    rw [matchesElement]
    split
    · exact ⟨false, rfl⟩
    · rename_i opcode data pc' hop
      have hrest := ih pc'.length (hn ▸ CScript.length_getOp hop) pc' rfl
      split
      · obtain ⟨b, hb⟩ := exists_contains hf data
        rw [hb]
        cases b with
        | true => exact ⟨true, rfl⟩
        | false => exact hrest
      · exact hrest

theorem addOutput_spec (hf : f.Safe) (outpoint : COutPoint) (script : CScript) :
    ∃ g, f.addOutput outpoint script = some g ∧ Grows f g ∧
      (f.nFlags &&& BLOOM_UPDATE_MASK = BLOOM_UPDATE_ALL →
        g.contains outpoint.bytes = some true) := by
  obtain ⟨g, hg, hfg, hcontains⟩ := insert_spec hf outpoint.bytes
  rw [addOutput]
  split
  · exact ⟨g, hg, hfg, fun _ => hcontains⟩
  · rename_i hall
    have hsame : f.nFlags &&& BLOOM_UPDATE_MASK = BLOOM_UPDATE_ALL →
        f.contains outpoint.bytes = some true := fun h => absurd h hall
    split
    · split
      · exact ⟨g, hg, hfg, fun _ => hcontains⟩
      · exact ⟨g, hg, hfg, fun _ => hcontains⟩
      · exact ⟨f, rfl, Grows.refl f, hsame⟩
    · exact ⟨f, rfl, Grows.refl f, hsame⟩

theorem scanOutputs_spec (txid : Uint256) (vout : List CTxOut) (i : Nat) {f : CBloomFilter}
    (hf : f.Safe) (fFound : Bool) :
    ∃ g b, scanOutputs txid i vout f fFound = some (g, b) ∧ Grows f g := by
  induction vout generalizing i f fFound with
  | nil => exact ⟨f, fFound, rfl, Grows.refl f⟩
  | cons txout vout ih =>
    obtain ⟨b, hb⟩ := exists_matchesElement hf txout.scriptPubKey
    rw [scanOutputs, hb]
    cases b with
    | false => exact ih (i + 1) hf fFound
    | true =>
      obtain ⟨g, hg, hfg, -⟩ := addOutput_spec hf ⟨txid, i⟩ txout.scriptPubKey
      obtain ⟨h, b, hh, hgh⟩ := ih (i + 1) (hfg.safe hf) true
      exact ⟨h, b, by dsimp only; rw [hg]; exact hh, hfg.trans hgh⟩

theorem scanOutputs_append (txid : Uint256) (l1 l2 : List CTxOut) (i : Nat) (f : CBloomFilter)
    (fFound : Bool) : scanOutputs txid i (l1 ++ l2) f fFound =
      (scanOutputs txid i l1 f fFound).bind fun s =>
        scanOutputs txid (i + l1.length) l2 s.1 s.2 := by
  induction l1 generalizing i f fFound with
  | nil => rfl
  | cons txout l1 ih =>
    have hindex : i + (txout :: l1).length = i + 1 + l1.length := by
      rw [List.length_cons]
      omega
    rw [List.cons_append, scanOutputs, scanOutputs, hindex]
    cases f.matchesElement txout.scriptPubKey with
    | none => rfl
    | some b =>
      cases b with
      | false => exact ih (i + 1) f fFound
      | true =>
        dsimp only
        cases f.addOutput ⟨txid, i⟩ txout.scriptPubKey with
        | none => rfl
        | some g => exact ih (i + 1) g true

theorem exists_scanInputs (hf : f.Safe) (vin : List CTxIn) : ∃ b, f.scanInputs vin = some b := by
  induction vin with
  | nil => exact ⟨false, rfl⟩
  | cons txin vin ih =>
    obtain ⟨b, hb⟩ := exists_contains hf txin.prevout.bytes
    obtain ⟨c, hc⟩ := exists_matchesElement hf txin.scriptSig
    rw [scanInputs, hb]
    cases b with
    | true => exact ⟨true, rfl⟩
    | false =>
      dsimp only
      rw [hc]
      cases c with
      | true => exact ⟨true, rfl⟩
      | false => exact ih

theorem scanInputs_eq_true (hf : f.Safe) {vin : List CTxIn} {txin : CTxIn} (hmem : txin ∈ vin)
    (hcontains : f.contains txin.prevout.bytes = some true) : f.scanInputs vin = some true := by
  induction vin with
  | nil => simp at hmem
  | cons other vin ih =>
    obtain ⟨b, hb⟩ := exists_contains hf other.prevout.bytes
    obtain ⟨c, hc⟩ := exists_matchesElement hf other.scriptSig
    rw [scanInputs, hb]
    cases b with
    | true => rfl
    | false =>
      dsimp only
      rw [hc]
      cases c with
      | true => rfl
      | false =>
        rcases List.mem_cons.mp hmem with rfl | hmem
        · rw [hb] at hcontains
          exact nomatch hcontains
        · exact ih hmem

theorem isRelevantAndUpdate_spec (hf : f.Safe) (tx : CTransaction) :
    ∃ g b, f.isRelevantAndUpdate tx = some (g, b) ∧ Grows f g := by
  rw [isRelevantAndUpdate]
  cases hfull : f.isFull with
  | true => exact ⟨f, true, rfl, Grows.refl f⟩
  | false =>
    cases hempty : f.isEmpty with
    | true => exact ⟨f, false, rfl, Grows.refl f⟩
    | false =>
      obtain ⟨b, hb⟩ := exists_contains hf (CompactSize.writeLE 32 tx.hash)
      obtain ⟨g, c, hg, hfg⟩ := scanOutputs_spec tx.hash tx.vout 0 hf b
      simp only [hb, hg, Bool.false_eq_true, if_false]
      cases c with
      | true => exact ⟨g, true, rfl, hfg⟩
      | false =>
        obtain ⟨d, hd⟩ := exists_scanInputs (hfg.safe hf) tx.vin
        exact ⟨g, d, by simp only [hd, Option.map_some], hfg⟩

/-- **A transaction that spends a contained outpoint is relevant.** -/
theorem isRelevantAndUpdate_of_spends (hf : f.Safe) {outpoint : COutPoint}
    (hspends : outpoint ∈ tx.prevouts) (hcontains : f.contains outpoint.bytes = some true) :
    ∃ g, f.isRelevantAndUpdate tx = some (g, true) := by
  obtain ⟨txin, hmem, rfl⟩ := List.mem_map.mp hspends
  rw [isRelevantAndUpdate]
  cases hfull : f.isFull with
  | true => exact ⟨f, rfl⟩
  | false =>
    have hempty : f.isEmpty = false := by
      rcases contains_eq_true.mp hcontains with h | h
      · rw [hfull] at h
        exact nomatch h
      · exact h.1
    obtain ⟨b, hb⟩ := exists_contains hf (CompactSize.writeLE 32 tx.hash)
    obtain ⟨g, c, hg, hfg⟩ := scanOutputs_spec tx.hash tx.vout 0 hf b
    simp only [hempty, hb, hg, Bool.false_eq_true, if_false]
    cases c with
    | true => exact ⟨g, rfl⟩
    | false =>
      refine ⟨g, ?_⟩
      simp only [scanInputs_eq_true (hfg.safe hf) hmem (hfg.contains hcontains), Option.map_some]

/-- Output `i` of a transaction matches by an element of its script, in the filter that the
outputs before it have left. -/
def MatchesOutput (f : CBloomFilter) (tx : CTransaction) (i : Nat) : Prop :=
  f.isFull = false ∧ f.isEmpty = false ∧
    ∃ fFound, f.contains (CompactSize.writeLE 32 tx.hash) = some fFound ∧
      ∃ s, scanOutputs tx.hash 0 (tx.vout.take i) f fFound = some s ∧
        ∃ txout, tx.vout[i]? = some txout ∧ s.1.matchesElement txout.scriptPubKey = some true

theorem contains_of_matchesOutput (hf : f.Safe) {i : Nat}
    (hall : f.nFlags &&& BLOOM_UPDATE_MASK = BLOOM_UPDATE_ALL) (hmatch : f.MatchesOutput tx i)
    {b : Bool} (hg : f.isRelevantAndUpdate tx = some (g, b)) :
    g.contains (COutPoint.bytes ⟨tx.hash, i⟩) = some true := by
  obtain ⟨hfull, hempty, fFound, hfound, ⟨f1, b1⟩, hscan, txout, hget, hmatch⟩ := hmatch
  obtain ⟨hi, hat⟩ := List.getElem?_eq_some_iff.mp hget
  have hvout : tx.vout = tx.vout.take i ++ txout :: tx.vout.drop (i + 1) := by
    rw [← hat, ← List.drop_eq_getElem_cons hi, List.take_append_drop]
  have hlen : (tx.vout.take i).length = i := List.length_take_of_le hi.le
  obtain ⟨f₁', b₁', hscan', hgrows1⟩ := scanOutputs_spec tx.hash (tx.vout.take i) 0 hf fFound
  obtain ⟨rfl, rfl⟩ := Prod.mk.inj (Option.some.inj (hscan.symm.trans hscan'))
  obtain ⟨f2, hadd, hgrows2, hcontains⟩ :=
    addOutput_spec (hgrows1.safe hf) ⟨tx.hash, i⟩ txout.scriptPubKey
  obtain ⟨f3, b3, hrest, hgrows3⟩ := scanOutputs_spec tx.hash (tx.vout.drop (i + 1)) (i + 1)
    (hgrows2.safe (hgrows1.safe hf)) true
  have hin : f3.contains (COutPoint.bytes ⟨tx.hash, i⟩) = some true :=
    hgrows3.contains (hcontains (by rw [hgrows1.nFlags]; exact hall))
  have hwhole : scanOutputs tx.hash 0 tx.vout f fFound = some (f3, b3) := by
    rw [hvout, scanOutputs_append, hscan, Option.bind_some, hlen, Nat.zero_add, scanOutputs, hmatch]
    dsimp only
    rw [hadd]
    exact hrest
  rw [isRelevantAndUpdate] at hg
  simp only [hfull, hempty, hfound, hwhole, Bool.false_eq_true, if_false] at hg
  cases b3 with
  | true =>
    obtain ⟨rfl, -⟩ := Prod.mk.inj (Option.some.inj hg)
    exact hin
  | false =>
    obtain ⟨d, -, hd⟩ := Option.map_eq_some_iff.mp hg
    obtain ⟨rfl, -⟩ := Prod.mk.inj hd
    exact hin

/-! ## Runs -/

inductive Call
  | insert (vKey : List UInt8)
  | relevant (tx : CTransaction)
  | clear

def next (f : CBloomFilter) : Call → Option CBloomFilter
  | .insert vKey => f.insert vKey
  | .relevant tx => (f.isRelevantAndUpdate tx).map Prod.fst
  | .clear => some f.clear

theorem safe_updateEmptyFull (f : CBloomFilter) : f.updateEmptyFull.Safe := by
  intro hnil
  have hdata : f.vData = [] := hnil
  rw [updateEmptyFull, hdata]
  rfl

theorem next_spec (hf : f.Safe) {c : Call} (hc : c ≠ .clear) :
    ∃ g, f.next c = some g ∧ Grows f g := by
  cases c with
  | insert vKey =>
    obtain ⟨g, hg, hfg, -⟩ := insert_spec hf vKey
    exact ⟨g, hg, hfg⟩
  | relevant tx =>
    obtain ⟨g, b, hg, hfg⟩ := isRelevantAndUpdate_spec hf tx
    exact ⟨g, by rw [next, hg]; rfl, hfg⟩
  | clear => exact absurd rfl hc

theorem steps_spec (calls : List Call) {f : CBloomFilter} (hf : f.Safe)
    (hclear : f.vData = [] → Call.clear ∉ calls) :
    ∃ g, Machine.steps next f calls = some g ∧ g.Safe ∧ g.vData.length = f.vData.length ∧
      g.nFlags = f.nFlags ∧ (Call.clear ∉ calls → Grows f g) := by
  induction calls generalizing f with
  | nil => exact ⟨f, rfl, hf, rfl, rfl, fun _ => Grows.refl f⟩
  | cons c calls ih =>
    obtain ⟨g, hg, hsafe, hlen, hflags, hgrows⟩ : ∃ g, f.next c = some g ∧ g.Safe ∧
        g.vData.length = f.vData.length ∧ g.nFlags = f.nFlags ∧ (c ≠ .clear → Grows f g) := by
      by_cases hc : c = .clear
      · obtain rfl := hc
        have hne : f.vData ≠ [] := fun hnil => hclear hnil List.mem_cons_self
        have hlen : f.clear.vData.length = f.vData.length := List.length_replicate
        refine ⟨f.clear, rfl, fun hnil => ?_, hlen, rfl, fun h => absurd rfl h⟩
        rw [hnil, List.length_nil] at hlen
        exact absurd (List.eq_nil_of_length_eq_zero hlen.symm) hne
      · obtain ⟨g, hg, hfg⟩ := next_spec hf hc
        exact ⟨g, hg, hfg.safe hf, hfg.length, hfg.nFlags, fun _ => hfg⟩
    have hclear' : g.vData = [] → Call.clear ∉ calls := by
      intro hnil hmem
      rw [hnil, List.length_nil] at hlen
      exact hclear (List.eq_nil_of_length_eq_zero hlen.symm) (List.mem_cons_of_mem c hmem)
    obtain ⟨h, hh, hsafe', hlen', hflags', hgrows'⟩ := ih hsafe hclear'
    refine ⟨h, Machine.steps_cons_eq_some.mpr ⟨g, hg, hh⟩, hsafe', hlen'.trans hlen,
      hflags'.trans hflags, fun hnot => ?_⟩
    rw [List.mem_cons, not_or] at hnot
    exact (hgrows (Ne.symm hnot.1)).trans (hgrows' hnot.2)

/-- **A filter never loses what was put in**, through calls of any kind and number: no remainder is
taken modulo zero, what was inserted is contained until `clear`, and with `BLOOM_UPDATE_ALL` a
transaction is relevant that spends an output which matched. -/
theorem never_loses (f : CBloomFilter) (calls : List Call)
    (hclear : f.vData = [] → Call.clear ∉ calls) :
    ∃ g, Machine.steps next f.updateEmptyFull calls = some g ∧
      (∀ vKey, g.contains vKey ≠ none) ∧ (∀ tx, g.isRelevantAndUpdate tx ≠ none) ∧
      (∀ before vKey after, calls = before ++ .insert vKey :: after → Call.clear ∉ after →
        g.contains vKey = some true) ∧
      (∀ before tx after s i, calls = before ++ .relevant tx :: after → Call.clear ∉ after →
        Machine.steps next f.updateEmptyFull before = some s → s.MatchesOutput tx i →
        f.nFlags &&& BLOOM_UPDATE_MASK = BLOOM_UPDATE_ALL →
        ∀ tx' : CTransaction, ⟨tx.hash, i⟩ ∈ tx'.prevouts →
          ∃ h, g.isRelevantAndUpdate tx' = some (h, true)) := by
  have hsafe := safe_updateEmptyFull f
  obtain ⟨g, hg, hgsafe, -⟩ := steps_spec calls hsafe hclear
  -- a call in the run, the state it is made in, and the growth from the state it leaves
  have hcall : ∀ before c after, calls = before ++ c :: after → Call.clear ∉ after →
      ∃ s s', Machine.steps next f.updateEmptyFull before = some s ∧ s.Safe ∧
        s.nFlags = f.nFlags ∧ s.next c = some s' ∧ (s'.Safe → Grows s' g) := by
    rintro before c after rfl hafter
    obtain ⟨s, hs, hrest⟩ := Machine.steps_append_eq_some.mp hg
    obtain ⟨s', hs', hg'⟩ := Machine.steps_cons_eq_some.mp hrest
    obtain ⟨s₁, hs₁, hsafe₁, -, hflags, -⟩ := steps_spec before hsafe
      fun hnil hmem => hclear hnil (List.mem_append_left _ hmem)
    obtain rfl := Option.some.inj (hs.symm.trans hs₁)
    refine ⟨s, s', hs, hsafe₁, hflags, hs', fun hsafe' => ?_⟩
    obtain ⟨g₁, hg₁, -, -, -, hgrows⟩ := steps_spec after hsafe' fun _ => hafter
    exact Option.some.inj (hg'.symm.trans hg₁) ▸ hgrows hafter
  refine ⟨g, hg, fun vKey hnone => ?_, fun tx hnone => ?_, ?_, ?_⟩
  · obtain ⟨b, hb⟩ := exists_contains hgsafe vKey
    rw [hb] at hnone
    exact nomatch hnone
  · obtain ⟨h, b, hb, -⟩ := isRelevantAndUpdate_spec hgsafe tx
    rw [hb] at hnone
    exact nomatch hnone
  · intro before vKey after heq hafter
    obtain ⟨s, s', -, hs, -, hnext, hgrows⟩ := hcall before (.insert vKey) after heq hafter
    obtain ⟨s₁, hs₁, hgrows₁, hcontains⟩ := insert_spec hs vKey
    obtain rfl := Option.some.inj (hs₁.symm.trans hnext)
    exact (hgrows (hgrows₁.safe hs)).contains hcontains
  · intro before tx after s i heq hafter hsteps hmatch hall tx' hspends
    obtain ⟨s₁, s', hs₁, hs, hflags, hnext, hgrows⟩ := hcall before (.relevant tx) after heq hafter
    obtain rfl := Option.some.inj (hsteps.symm.trans hs₁)
    obtain ⟨s₂, b, hs₂, hgrows₂⟩ := isRelevantAndUpdate_spec hs tx
    have hsame : s₂ = s' := by
      rw [next, hs₂] at hnext
      exact Option.some.inj hnext
    obtain rfl := hsame
    have hcontains := contains_of_matchesOutput hs (by rw [hflags]; exact hall) hmatch hs₂
    exact isRelevantAndUpdate_of_spends hgsafe hspends
      ((hgrows (hgrows₂.safe hs)).contains hcontains)

/-- A transaction that pays to a script with a byte in it, and one that spends what it pays. -/
def payingTx : CTransaction := { hash := 7, vin := [], vout := [⟨5, [0x01, 0x05], -10⟩] }

def spendingTx : CTransaction := { hash := 8, vin := [⟨⟨7, 0⟩, [], 0⟩], vout := [] }

theorem matchesOutput_payingTx (hfull : f.isFull = false) (hempty : f.isEmpty = false)
    (hsome : ∀ vKey, f.contains vKey ≠ none) (h : f.contains [0x05] = some true) :
    f.MatchesOutput payingTx 0 := by
  obtain ⟨fFound, hfound⟩ := Option.ne_none_iff_exists'.mp (hsome (CompactSize.writeLE 32 7))
  refine ⟨hfull, hempty, fFound, hfound, _, rfl, _, rfl, ?_⟩
  rw [matchesElement]
  split
  · rename_i hop
    exact absurd hop (by decide)
  · rename_i data _ hop
    have hpush : CScript.getOp [0x01, 0x05] = some (0x01, [0x05], []) := by decide
    have hdata : [0x05] = data := (Prod.mk.inj (Prod.mk.inj (Option.some.inj
      (hpush.symm.trans hop))).2).1
    rw [← hdata, if_pos (by decide), h]

/-- A filter of eight bytes with two hashes takes in a byte, is cleared, takes it in again, and is
asked about the one transaction; then the other one is relevant. -/
theorem never_loses_cleared :
    ∃ g, Machine.steps next
        (CBloomFilter.updateEmptyFull ⟨List.replicate 8 0x00, false, false, 2, 0, BLOOM_UPDATE_ALL⟩)
        [.insert [0x05], .clear, .insert [0x05], .relevant payingTx] = some g ∧
      g.contains [0x05] = some true ∧ ∃ h, g.isRelevantAndUpdate spendingTx = some (h, true) := by
  obtain ⟨s, hs, hsome, -, hbefore, -⟩ := never_loses
    ⟨List.replicate 8 0x00, false, false, 2, 0, BLOOM_UPDATE_ALL⟩
    [.insert [0x05], .clear, .insert [0x05]] (by simp)
  obtain ⟨g, hg, -, -, hinsert, hspent⟩ := never_loses
    ⟨List.replicate 8 0x00, false, false, 2, 0, BLOOM_UPDATE_ALL⟩
    [.insert [0x05], .clear, .insert [0x05], .relevant payingTx] (by simp)
  have hflags : (Machine.steps next
      (CBloomFilter.updateEmptyFull ⟨List.replicate 8 0x00, false, false, 2, 0, BLOOM_UPDATE_ALL⟩)
      [.insert [0x05], .clear, .insert [0x05]]).map (fun f => (f.isFull, f.isEmpty)) =
      some (false, false) := by decide +kernel
  rw [hs] at hflags
  obtain ⟨hfull, hempty⟩ := Prod.mk.inj (Option.some.inj hflags)
  have hmatch : s.MatchesOutput payingTx 0 := matchesOutput_payingTx hfull hempty hsome
    (hbefore [.insert [0x05], .clear] [0x05] [] rfl (by simp))
  exact ⟨g, hg, hinsert [.insert [0x05], .clear] [0x05] [.relevant payingTx] rfl (by simp),
    hspent [.insert [0x05], .clear, .insert [0x05]] payingTx [] s 0 rfl (by simp) hs hmatch
      (by decide) spendingTx (by decide)⟩

end CBloomFilter

end BitBlocks
