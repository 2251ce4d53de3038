import BitBlocks.Mempool.Policy

/-!
# Transactions and blocks on the wire

`SerializationOp` of a transaction and of a block, in the direction of reading. A size has one
form (`ReadCompactSize` refuses the longer ones), numbers have a fixed width, and the signature
of a block is there exactly if the block is a proof-of-stake block. So every transaction and
every block within the limits is read back from what was written, and nothing else is read: no
two byte strings are the same block.
-/

namespace BitBlocks

open Reader CompactSize

/-! ## Numbers with a sign -/

/-- An integer in `k` bytes, in two's complement. -/
def readInt (k : Nat) : Reader Int := do
  let n ← readLE k
  pure (if 2 * n < 256 ^ k then (n : Int) else n - 256 ^ k)

/-- The integers that `k` bytes hold. -/
def FitsInt (k : Nat) (x : Int) : Prop := -256 ^ k ≤ 2 * x ∧ 2 * x < 256 ^ k

theorem codec_readInt {k : Nat} : Codec (readInt k) (writeInt k) (FitsInt k) := by
  intro s x s'
  simp only [readInt, run_bind_iff, run_pure_iff, codec_readLE k _ _ _, writeInt, FitsInt]
  have hpos : (0 : Int) < 256 ^ k := Int.pow_pos (by decide)
  constructor
  · rintro ⟨n, s1, ⟨hn, rfl⟩, hx, rfl⟩
    have hn' : (n : Int) < 256 ^ k := by exact_mod_cast hn
    have hmod : x % 256 ^ k = n := by
      split at hx
      · rw [← hx, Int.emod_eq_of_lt (Int.natCast_nonneg n) hn']
      · rw [← hx, Int.sub_emod_right, Int.emod_eq_of_lt (Int.natCast_nonneg n) hn']
    refine ⟨?_, by rw [hmod, Int.toNat_natCast]⟩
    split at hx
    · rename_i hsmall
      have hsmall' : 2 * (n : Int) < 256 ^ k := by exact_mod_cast hsmall
      omega
    · rename_i hlarge
      have hlarge' : ¬ 2 * (n : Int) < 256 ^ k := by exact_mod_cast hlarge
      omega
  · rintro ⟨⟨hlow, hhigh⟩, rfl⟩
    have hnonneg := Int.emod_nonneg x (Int.ne_of_gt hpos)
    have hlt := Int.emod_lt_of_pos x hpos
    obtain ⟨n, hn⟩ := Int.eq_ofNat_of_zero_le hnonneg
    rw [hn] at hlt ⊢
    rw [Int.toNat_natCast]
    refine ⟨n, s', ⟨by exact_mod_cast hlt, rfl⟩, ?_, rfl⟩
    have hsmall : 2 * n < 256 ^ k ↔ 2 * (n : Int) < 256 ^ k := by
      rw [← Int.ofNat_lt]
      push_cast
      rfl
    by_cases hx : 0 ≤ x
    · rw [Int.emod_eq_of_lt hx (by omega)] at hn
      rw [if_pos (hsmall.mpr (by omega)), hn]
    · have hshift : (x + 256 ^ k) % 256 ^ k = x + 256 ^ k := Int.emod_eq_of_lt (by omega) (by omega)
      rw [Int.add_emod_right, hn] at hshift
      rw [if_neg (mt hsmall.mp (by omega))]
      omega

/-! ## Transactions -/

def COutPoint.read : Reader COutPoint := do
  let hash ← readLE 32
  let n ← readLE 4
  pure ⟨hash, n⟩

def CScript.read : Reader CScript := CompactSize.read MAX_SIZE >>= Reader.bytes

def CTxIn.read : Reader CTxIn := do
  let prevout ← COutPoint.read
  let scriptSig ← CScript.read
  let nSequence ← readLE 4
  pure ⟨prevout, scriptSig, nSequence⟩

/-- `nRounds` is not sent; it stays as `SetNull` leaves it. -/
def CTxOut.read : Reader CTxOut := do
  let nValue ← readInt 8
  let scriptPubKey ← CScript.read
  pure ⟨nValue, scriptPubKey, CTxOut.null.nRounds⟩

/-- `UpdateHash` follows what was read. -/
def CTransaction.read (Hash : List UInt8 → Uint256) : Reader CTransaction := do
  let nVersion ← readInt 4
  let vin ← readList MAX_SIZE CTxIn.read
  let vout ← readList MAX_SIZE CTxOut.read
  let nLockTime ← readLE 4
  let tx : CTransaction := ⟨0, nVersion, vin, vout, nLockTime⟩
  pure { tx with hash := Hash tx.bytes }

def COutPoint.OnWire (o : COutPoint) : Prop := o.hash < 256 ^ 32 ∧ o.n < 256 ^ 4

def CScript.OnWire (script : CScript) : Prop := script.length ≤ MAX_SIZE

structure CTxIn.OnWire (txin : CTxIn) : Prop where
  prevout : txin.prevout.OnWire
  scriptSig : CScript.OnWire txin.scriptSig
  nSequence : txin.nSequence < 256 ^ 4

structure CTxOut.OnWire (txout : CTxOut) : Prop where
  nValue : FitsInt 8 txout.nValue
  scriptPubKey : CScript.OnWire txout.scriptPubKey
  nRounds : txout.nRounds = CTxOut.null.nRounds

/-- The fields are as wide as the class has them, and the hash is that of the transaction. -/
structure CTransaction.OnWire (Hash : List UInt8 → Uint256) (tx : CTransaction) : Prop where
  nVersion : FitsInt 4 tx.nVersion
  vin : tx.vin.length ≤ MAX_SIZE ∧ ∀ txin ∈ tx.vin, txin.OnWire
  vout : tx.vout.length ≤ MAX_SIZE ∧ ∀ txout ∈ tx.vout, txout.OnWire
  nLockTime : tx.nLockTime < 256 ^ 4
  hash : tx.hash = Hash tx.bytes

theorem maxSize_lt : MAX_SIZE < 256 ^ 8 := by decide

theorem codec_outPoint : Codec COutPoint.read COutPoint.bytes COutPoint.OnWire := by
  intro s o s'
  simp only [COutPoint.read, run_bind_iff, run_pure_iff, codec_readLE _ _ _ _]
  constructor
  · rintro ⟨hash, _, ⟨hhash, rfl⟩, n, _, ⟨hn, rfl⟩, rfl, rfl⟩
    exact ⟨⟨hhash, hn⟩, by simp [COutPoint.bytes]⟩
  · rintro ⟨⟨hhash, hn⟩, rfl⟩
    exact ⟨o.hash, _, ⟨hhash, by simp [COutPoint.bytes]⟩, o.n, _, ⟨hn, rfl⟩, rfl, rfl⟩

theorem codec_script : Codec CScript.read CScript.bytes CScript.OnWire := by
  intro s script s'
  simp only [CScript.read, run_bind_iff, codec_read maxSize_lt _ _ _, codec_bytes _ _ _ _]
  constructor
  · rintro ⟨n, _, ⟨hn, rfl⟩, rfl, rfl⟩
    exact ⟨hn, by simp [CScript.bytes]⟩
  · rintro ⟨hn, rfl⟩
    exact ⟨script.length, _, ⟨hn, by simp [CScript.bytes]⟩, rfl, rfl⟩

theorem codec_txIn : Codec CTxIn.read CTxIn.bytes CTxIn.OnWire := by
  intro s txin s'
  simp only [CTxIn.read, run_bind_iff, run_pure_iff, codec_outPoint _ _ _, codec_script _ _ _,
    codec_readLE _ _ _ _]
  constructor
  · rintro ⟨prevout, _, ⟨ho, rfl⟩, scriptSig, _, ⟨hs, rfl⟩, nSequence, _, ⟨hn, rfl⟩, rfl, rfl⟩
    exact ⟨⟨ho, hs, hn⟩, by simp [CTxIn.bytes]⟩
  · rintro ⟨⟨ho, hs, hn⟩, rfl⟩
    exact ⟨_, _, ⟨ho, by simp only [CTxIn.bytes, List.append_assoc]⟩, _, _, ⟨hs, rfl⟩,
      _, _, ⟨hn, rfl⟩, rfl, rfl⟩

theorem codec_txOut : Codec CTxOut.read CTxOut.bytes CTxOut.OnWire := by
  intro s txout s'
  simp only [CTxOut.read, run_bind_iff, run_pure_iff, codec_readInt _ _ _, codec_script _ _ _]
  constructor
  · rintro ⟨nValue, _, ⟨hv, rfl⟩, scriptPubKey, _, ⟨hs, rfl⟩, rfl, rfl⟩
    exact ⟨⟨hv, hs, rfl⟩, by simp [CTxOut.bytes]⟩
  · rintro ⟨⟨hv, hs, hr⟩, rfl⟩
    refine ⟨_, _, ⟨hv, by simp only [CTxOut.bytes, List.append_assoc]⟩, _, _, ⟨hs, rfl⟩,
      ?_, rfl⟩
    rw [← hr]

theorem codec_transaction (Hash : List UInt8 → Uint256) :
    Codec (CTransaction.read Hash) CTransaction.bytes (CTransaction.OnWire Hash) := by
  intro s tx s'
  simp only [CTransaction.read, run_bind_iff, run_pure_iff, codec_readInt _ _ _,
    codec_readList codec_txIn maxSize_lt _ _ _, codec_readList codec_txOut maxSize_lt _ _ _,
    codec_readLE _ _ _ _]
  constructor
  · rintro ⟨nVersion, _, ⟨hv, rfl⟩, vin, _, ⟨hin, rfl⟩, vout, _, ⟨hout, rfl⟩,
      nLockTime, _, ⟨hl, rfl⟩, rfl, rfl⟩
    exact ⟨⟨hv, hin, hout, hl, rfl⟩, by simp [CTransaction.bytes]⟩
  · rintro ⟨⟨hv, hin, hout, hl, hhash⟩, rfl⟩
    refine ⟨_, _, ⟨hv, by simp only [CTransaction.bytes, List.append_assoc]⟩,
      _, _, ⟨hin, rfl⟩, _, _, ⟨hout, rfl⟩, _, _, ⟨hl, rfl⟩, ?_, rfl⟩
    obtain ⟨hash, nVersion, vin, vout, nLockTime⟩ := tx
    exact congrArg (fun hash => CTransaction.mk hash nVersion vin vout nLockTime) hhash.symm

/-! ## Blocks -/

def CBlockHeader.bytes (header : CBlockHeader) : List UInt8 :=
  writeInt 4 header.nVersion ++ writeLE 32 header.hashPrevBlock ++
    writeLE 32 header.hashMerkleRoot ++ writeLE 4 header.nTime ++ writeLE 4 header.nBits ++
    writeLE 4 header.nNonce

def CBlock.bytes (block : CBlock) : List UInt8 :=
  block.toCBlockHeader.bytes ++ writeList CTransaction.bytes block.vtx ++
    if block.isProofOfStake then writeList (fun ch => [ch]) block.vchBlockSig else []

def CBlockHeader.read : Reader CBlockHeader := do
  let nVersion ← readInt 4
  let hashPrevBlock ← readLE 32
  let hashMerkleRoot ← readLE 32
  let nTime ← readLE 4
  let nBits ← readLE 4
  let nNonce ← readLE 4
  pure ⟨nVersion, hashPrevBlock, hashMerkleRoot, nTime, nBits, nNonce⟩

def CBlock.read (Hash : List UInt8 → Uint256) : Reader CBlock := do
  let header ← CBlockHeader.read
  let vtx ← readList MAX_SIZE (CTransaction.read Hash)
  let block : CBlock := ⟨header, vtx, []⟩
  if block.isProofOfStake then
    let vchBlockSig ← readList MAX_SIZE byte
    pure { block with vchBlockSig }
  else pure block

structure CBlockHeader.OnWire (header : CBlockHeader) : Prop where
  nVersion : FitsInt 4 header.nVersion
  hashPrevBlock : header.hashPrevBlock < 256 ^ 32
  hashMerkleRoot : header.hashMerkleRoot < 256 ^ 32
  nTime : header.nTime < 256 ^ 4
  nBits : header.nBits < 256 ^ 4
  nNonce : header.nNonce < 256 ^ 4

/-- Only a proof-of-stake block has a signature. -/
structure CBlock.OnWire (Hash : List UInt8 → Uint256) (block : CBlock) : Prop where
  header : block.toCBlockHeader.OnWire
  vtx : block.vtx.length ≤ MAX_SIZE ∧ ∀ tx ∈ block.vtx, tx.OnWire Hash
  vchBlockSig : if block.isProofOfStake then block.vchBlockSig.length ≤ MAX_SIZE
    else block.vchBlockSig = []

theorem codec_blockHeader : Codec CBlockHeader.read CBlockHeader.bytes CBlockHeader.OnWire := by
  intro s header s'
  simp only [CBlockHeader.read, run_bind_iff, run_pure_iff, codec_readInt _ _ _,
    codec_readLE _ _ _ _]
  constructor
  · rintro ⟨nVersion, _, ⟨hv, rfl⟩, hashPrevBlock, _, ⟨hp, rfl⟩, hashMerkleRoot, _, ⟨hm, rfl⟩,
      nTime, _, ⟨ht, rfl⟩, nBits, _, ⟨hb, rfl⟩, nNonce, _, ⟨hn, rfl⟩, rfl, rfl⟩
    exact ⟨⟨hv, hp, hm, ht, hb, hn⟩, by simp [CBlockHeader.bytes]⟩
  · rintro ⟨⟨hv, hp, hm, ht, hb, hn⟩, rfl⟩
    exact ⟨_, _, ⟨hv, by simp only [CBlockHeader.bytes, List.append_assoc]⟩,
      _, _, ⟨hp, rfl⟩, _, _, ⟨hm, rfl⟩, _, _, ⟨ht, rfl⟩, _, _, ⟨hb, rfl⟩, _, _, ⟨hn, rfl⟩, rfl, rfl⟩

/-- **The wire format of blocks**: what is read as a block is what writing it produces. -/
theorem codec_block (Hash : List UInt8 → Uint256) :
    Codec (CBlock.read Hash) CBlock.bytes (CBlock.OnWire Hash) := by
  intro s block s'
  obtain ⟨header, vtx, vchBlockSig⟩ := block
  have hsig := codec_readList codec_byte maxSize_lt
  have hpos : (CBlock.mk header vtx vchBlockSig).isProofOfStake =
      (CBlock.mk header vtx []).isProofOfStake := rfl
  simp only [CBlock.read, run_bind_iff, codec_blockHeader _ _ _,
    codec_readList (codec_transaction Hash) maxSize_lt _ _ _]
  constructor
  · rintro ⟨h, _, ⟨hheader, rfl⟩, v, _, ⟨hvtx, rfl⟩, hrun⟩
    split at hrun
    case isTrue hstake =>
      simp only [run_bind_iff, run_pure_iff, hsig _ _ _] at hrun
      obtain ⟨sig, _, ⟨⟨hlen, -⟩, rfl⟩, heq, rfl⟩ := hrun
      cases heq
      refine ⟨⟨hheader, hvtx, ?_⟩, ?_⟩
      · rw [hpos, if_pos hstake]
        exact hlen
      · rw [CBlock.bytes, hpos, if_pos hstake]
        simp only [List.append_assoc]
    case isFalse hwork =>
      obtain ⟨heq, rfl⟩ := run_pure_iff.mp hrun
      cases heq
      refine ⟨⟨hheader, hvtx, ?_⟩, ?_⟩
      · rw [if_neg hwork]
      · rw [CBlock.bytes, if_neg hwork, List.append_nil, List.append_assoc]
  · rintro ⟨⟨hheader, hvtx, hsigned⟩, rfl⟩
    refine ⟨header, _, ⟨hheader, by simp only [CBlock.bytes, List.append_assoc]; rfl⟩,
      vtx, _, ⟨hvtx, rfl⟩, ?_⟩
    by_cases hstake : (CBlock.mk header vtx []).isProofOfStake = true
    · rw [hpos, if_pos hstake] at hsigned ⊢
      rw [if_pos hstake]
      simp only [run_bind_iff, run_pure_iff, hsig _ _ _]
      exact ⟨vchBlockSig, s', ⟨⟨hsigned, by simp⟩, rfl⟩, rfl, rfl⟩
    · rw [hpos, if_neg hstake] at hsigned ⊢
      obtain rfl : vchBlockSig = [] := hsigned
      rw [if_neg hstake, List.nil_append]
      rfl

end BitBlocks
