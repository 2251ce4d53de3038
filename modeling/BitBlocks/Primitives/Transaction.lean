import BitBlocks.Lib.Decimal

/-!
# Transactions

The data of `primitives/transaction.h`: outpoints, inputs, outputs and the
transaction itself, with the predicates validation branches on.

Hashes are kept abstract. `CTransaction` carries its txid in a field, as the
class does (`const uint256 hash`, filled in by `UpdateHash`); that two different
transactions never share one is a property of the hash function, and the
theorems that need it say so (`TxidsFaithful`).
-/

namespace BitBlocks

/-- A 256-bit value; txids and block hashes are compared, never computed with. -/
abbrev Uint256 := Nat

abbrev CScript := List UInt8

/-- The opcode that marks an output provably unspendable. -/
def OP_RETURN : UInt8 := 0x6a

/-- `CScript::IsUnspendable`. -/
def CScript.isUnspendable (s : CScript) : Bool := s.head? == some OP_RETURN

/-- An outpoint: a transaction hash and an index into its `vout`. -/
structure COutPoint where
  hash : Uint256
  n : Nat
deriving DecidableEq, Repr

/-- `(uint32_t) -1`, the index of the null outpoint. -/
def COutPoint.nullIndex : Nat := 2 ^ 32 - 1

/-- The outpoint a coinbase input carries. -/
def COutPoint.null : COutPoint := ⟨0, COutPoint.nullIndex⟩

def COutPoint.isNull (o : COutPoint) : Bool := o.hash == 0 && o.n == COutPoint.nullIndex

/-- `uint256::ToString`. -/
def uint256ToString (x : Uint256) : List Char :=
  (List.range 64).reverse.map fun i => (x / 16 ^ i % 16).digitChar

/-- The bytes of a number that is not zero, from its highest. -/
def byteSize (n : Uint256) : Nat := if n = 0 then 0 else (Nat.log2 n + 1 + 7) / 8

/-- `GetCompact`: a size and the three highest bytes. -/
def getCompact (n : Uint256) (fNegative : Bool) : Nat :=
  let nSize := byteSize n
  let nCompact :=
    if nSize ≤ 3 then n * 2 ^ (8 * (3 - nSize)) % 2 ^ 32 else n / 2 ^ (8 * (nSize - 3)) % 2 ^ 32
  -- the sign bit is set: the mantissa is divided, and the size is one more
  let (nCompact, nSize) :=
    if nCompact / 0x00800000 % 2 = 1 then (nCompact / 2 ^ 8, nSize + 1) else (nCompact, nSize)
  let nSigned := nCompact + nSize * 2 ^ 24
  if fNegative && nCompact % 0x00800000 != 0 then nSigned + 0x00800000 else nSigned

def COutPoint.toStringShort (o : COutPoint) : List Char :=
  uint256ToString o.hash ++ '-' :: Decimal.natText o.n

structure CTxIn where
  prevout : COutPoint
  scriptSig : CScript
  nSequence : Nat
deriving DecidableEq, Repr

/--
An output. Amounts (`CAmount`, an `int64_t`) are integers here; the sums that can
leave the 64-bit range are wrapped where the code forms them. `nRounds` is wallet
bookkeeping, but `operator==` compares it.
-/
structure CTxOut where
  nValue : Int
  scriptPubKey : CScript
  nRounds : Int := -10
deriving DecidableEq, Repr

/-- `CTxOut::SetNull`. -/
def CTxOut.null : CTxOut := ⟨-1, [], -10⟩

def CTxOut.isNull (o : CTxOut) : Bool := o.nValue == -1

def CTxOut.isEmpty (o : CTxOut) : Bool := o.nValue == 0 && o.scriptPubKey.isEmpty

@[simp] theorem CTxOut.isNull_null : CTxOut.null.isNull = true := rfl

theorem CTxOut.isNull_of_nonneg {o : CTxOut} (h : 0 ≤ o.nValue) : o.isNull = false := by
  simp only [CTxOut.isNull, beq_eq_false_iff_ne]; omega

structure CTransaction where
  hash : Uint256
  nVersion : Int := 1
  vin : List CTxIn
  vout : List CTxOut
  nLockTime : Nat := 0
deriving DecidableEq, Repr

def CTransaction.prevouts (tx : CTransaction) : List COutPoint := tx.vin.map CTxIn.prevout

/-- `vin.size() == 1 && vin[0].prevout.IsNull()`. -/
def CTransaction.isCoinBase (tx : CTransaction) : Bool :=
  match tx.vin with
  | [txin] => txin.prevout.isNull
  | _ => false

/-- The coin stake is marked with the first output empty. -/
def CTransaction.isCoinStake (tx : CTransaction) : Bool :=
  match tx.vin, tx.vout with
  | txin :: _, out0 :: _ :: _ => !txin.prevout.isNull && out0.isEmpty
  | _, _ => false

theorem CTransaction.isCoinStake_of_isCoinBase {tx : CTransaction} (h : tx.isCoinBase = true) :
    tx.isCoinStake = false := by
  unfold isCoinBase at h
  unfold isCoinStake
  split at h
  · rename_i txin heq
    rw [heq]
    split
    · rename_i heq' _
      obtain ⟨rfl, _⟩ := List.cons.inj heq'
      simp [h]
    · rfl
  · simp at h

/-- No output has a negative value, as `CheckTransaction` demands. -/
def CTransaction.OutputsNonneg (tx : CTransaction) : Prop := ∀ o ∈ tx.vout, 0 ≤ o.nValue

instance (tx : CTransaction) : Decidable tx.OutputsNonneg :=
  inferInstanceAs (Decidable (∀ o ∈ tx.vout, 0 ≤ o.nValue))

/--
No two different transactions of the list share a txid. The node relies on this
of `SerializeHash` everywhere it uses a txid as a key.
-/
def TxidsFaithful (txs : List CTransaction) : Prop :=
  ∀ tx ∈ txs, ∀ tx' ∈ txs, tx.hash = tx'.hash → tx = tx'

instance (txs : List CTransaction) : Decidable (TxidsFaithful txs) :=
  inferInstanceAs (Decidable (∀ tx ∈ txs, ∀ tx' ∈ txs, tx.hash = tx'.hash → tx = tx'))

theorem TxidsFaithful.subset {txs txs' : List CTransaction} (h : TxidsFaithful txs)
    (hs : txs' ⊆ txs) : TxidsFaithful txs' :=
  fun tx htx tx' htx' => h tx (hs htx) tx' (hs htx')

end BitBlocks

/-!
## Blocks

The data of `primitives/block.h`. The block hash is a function of the header
alone, and the merkle root is what ties the transactions to it.
-/

namespace BitBlocks

/-- The part of a block its hash covers. -/
structure CBlockHeader where
  nVersion : Int
  hashPrevBlock : Uint256
  hashMerkleRoot : Uint256
  nTime : Nat
  nBits : Nat
  nNonce : Nat
deriving DecidableEq, Repr

/-- A block as received from the network or read from disk. -/
structure CBlock extends CBlockHeader where
  vtx : List CTransaction
  vchBlockSig : List UInt8 := []
deriving DecidableEq, Repr

def CBlockHeader.getBlockTime (b : CBlockHeader) : Int := b.nTime

/-- Two types of block: the second transaction of a proof-of-stake block is a coinstake. -/
def CBlock.isProofOfStake (block : CBlock) : Bool :=
  match block.vtx with
  | _ :: tx :: _ => tx.isCoinStake
  | _ => false

def CBlock.isProofOfWork (block : CBlock) : Bool := !block.isProofOfStake

theorem CBlock.isProofOfStake_iff {block : CBlock} :
    block.isProofOfStake = true ↔ ∃ tx, block.vtx[1]? = some tx ∧ tx.isCoinStake = true := by
  unfold isProofOfStake
  split
  · rename_i h; simp [h]
  · rename_i h
    constructor
    · intro hf; exact absurd hf (by simp)
    · rintro ⟨tx, htx, _⟩
      match hv : block.vtx with
      | [] => rw [hv] at htx; simp at htx
      | [a] => rw [hv] at htx; simp at htx
      | a :: b :: rest => exact absurd hv (h a b rest)

/-! ## The merkle tree -/

/--
One level of `BuildMerkleTree`: hash neighbours together, the last one with itself
if it has none. The flag is the mutation check, two equal hashes at the end of a
level.
-/
def merkleLevel (hash2 : Uint256 → Uint256 → Uint256) : List Uint256 → List Uint256 × Bool
  | [] => ([], false)
  | [a] => ([hash2 a a], false)
  | [a, b] => ([hash2 a b], a == b)
  | a :: b :: rest =>
    let (level, mutated) := merkleLevel hash2 rest
    (hash2 a b :: level, mutated)

/-- Build levels until one hash is left; each level halves, so `fuel` is the first one's length. -/
def merkleLoop (hash2 : Uint256 → Uint256 → Uint256) : Nat → List Uint256 → Bool → Uint256 × Bool
  | 0, level, mutated => (level.headD 0, mutated)
  | fuel + 1, level, mutated =>
    if level.length ≤ 1 then (level.headD 0, mutated)
    else
      let (level', mutated') := merkleLevel hash2 level
      merkleLoop hash2 fuel level' (mutated || mutated')

/-- The merkle root, and whether a mutation was detected. -/
def CBlock.buildMerkleTree (hash2 : Uint256 → Uint256 → Uint256) (block : CBlock) :
    Uint256 × Bool :=
  merkleLoop hash2 block.vtx.length (block.vtx.map CTransaction.hash) false

end BitBlocks
