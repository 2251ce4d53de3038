import BitBlocks.Text.Base58
import BitBlocks.Text.Hex

/-!
# Keys under a passphrase (`bip38.cpp`)

A private key is written as two blocks that a key derived from the passphrase and from the hash of
an address encrypts, behind that hash. What is written for a key is read as that key
again. Of what else is read, a key that was multiplied is compared with the hash, and one that was
not is returned as it comes out: it is the right one just when it was written under that
passphrase.
-/

namespace BitBlocks

open CString CompactSize

/-- What is outside: the cipher on blocks, the hashes and the curve, and a byte of the chain. -/
structure CryptoLib where
  AES_encrypt (key : BitVec 256) (block : BitVec 128) : BitVec 128
  AES_decrypt (key : BitVec 256) (block : BitVec 128) : BitVec 128
  scrypt_hash (pass salt : List UInt8) (N r p dkLen : Nat) : Vector UInt8 dkLen
  SHA256 : List UInt8 → Vector UInt8 32
  RIPEMD160 : List UInt8 → Vector UInt8 20
  /-- `none` where it returns zero. -/
  secp256k1_ec_pubkey_create (seckey : BitVec 256) (compressed : Bool) : Option (List UInt8)
  secp256k1_ec_privkey_tweak_mul (seckey tweak : BitVec 256) : Option (BitVec 256)
  /-- `Params().Base58Prefix(PUBKEY_ADDRESS)`. -/
  PUBKEY_ADDRESS : List UInt8

namespace CryptoLib

variable (C : CryptoLib)

/-- `Hash` to where a `uint256` begins. -/
def hash (bytes : List UInt8) : BitVec 256 := BitVec.ofNat 256 (leValue (C.SHA256 bytes).toList)

/-- `scrypt_hash` with a salt that is in a `uint64_t` or a `uint256`. -/
def scrypt {v : Nat} (strPassphrase : List UInt8) (salt : BitVec v) (sLen N r p dkLen : Nat) :
    BitVec (8 * dkLen) :=
  BitVec.ofNat (8 * dkLen)
    (leValue (C.scrypt_hash strPassphrase ((uintBytes salt).take sLen) N r p dkLen).toList)

/-- `Get64`. -/
def get64 (a : BitVec 256) : BitVec 64 := a.setWidth 64

/-! ## Addresses -/

/-- `EncodeBase58Check`. -/
def encodeBase58Check (vchIn : List UInt8) : Option (List Char) :=
  encodeBase58 (vchIn ++ ((C.SHA256 (C.SHA256 vchIn).toList).toList).take 4)

/-- One less than the order of the group, in `eccryptoverify.cpp`. -/
def vchMaxModOrder : Nat := 0xFFFFFFFFFFFFFFFFFFFFFFFFFFFFFFFEBAAEDCE6AF48A03BBFD25E8CD0364140

/-- `eccrypto::Check`. -/
def check (privKey : BitVec 256) : Bool :=
  let vch := leValue (uintBytes privKey).reverse
  decide (0 < vch ∧ vch ≤ vchMaxModOrder)

/-- `CBitcoinAddress(k.GetPubKey().GetID()).ToString()`; `none` where an assertion of `GetPubKey`
fails, of a key that is not valid. -/
def keyAddress (privKey : BitVec 256) (fCompressed : Bool) : Option (List Char) :=
  if check privKey then
    match C.secp256k1_ec_pubkey_create privKey fCompressed with
    | none => none
    | some pubkey =>
      C.encodeBase58Check (C.PUBKEY_ADDRESS ++ (C.RIPEMD160 (C.SHA256 pubkey).toList).toList)
  else none

def addressToBip38Hash (address : List Char) : List Char :=
  let addrCheck := C.hash (address.map fun c => UInt8.ofNat c.toNat)
  let addrCheck := C.hash (uintBytes addrCheck)
  substr (hexStr (uintBytes addrCheck)) 0 8

/-! ## Encryption -/

def hashPassphrase (strPassphrase : List UInt8) (strAddressHash : List Char) : BitVec 512 :=
  let salt := get64 (setHex 256 (reverseEndianString strAddressHash))
  C.scrypt strPassphrase salt (strAddressHash.length / 2) 16384 8 8 64

def derivedHalf1 (hashed : BitVec 512) : BitVec 256 := setHex 256 (substr (getHex hashed) 64 64)

def derivedHalf2 (hashed : BitVec 512) : BitVec 256 := setHex 256 (substr (getHex hashed) 0 64)

/-- `encrypted1` and `encrypted2` of `BIP38_Encrypt`. -/
def encryptParts (strPassphrase : List UInt8) (strAddressHash : List Char) (privKey : BitVec 256) :
    BitVec 512 × BitVec 512 :=
  let hashed := C.hashPassphrase strPassphrase strAddressHash
  let derivedHalf1 := derivedHalf1 hashed
  let derivedHalf2 := derivedHalf2 hashed
  let block1 := ((privKey <<< 128) ^^^ (derivedHalf1 <<< 128)) >>> 128
  let encrypted1 := (C.AES_encrypt derivedHalf2 (block1.setWidth 128)).setWidth 512
  let p2 := privKey >>> 128
  let dh12 := derivedHalf1 >>> 128
  let block2 := p2 ^^^ dh12
  let encrypted2 := (C.AES_encrypt derivedHalf2 (block2.setWidth 128)).setWidth 512
  (encrypted1, encrypted2)

/-- `BIP38_Encrypt`. -/
def bip38Encrypt (strAddress : List Char) (strPassphrase : List UInt8) (privKey : BitVec 256) :
    Option (List Char) :=
  let strAddressHash := C.addressToBip38Hash strAddress
  let encrypted := C.encryptParts strPassphrase strAddressHash privKey
  let encryptedKey := setHex 512
    (reverseEndianString (['0', '1', '4', '2', 'E', '0'] ++ strAddressHash))
  let encryptedKey := encryptedKey ||| (encrypted.1 <<< 56)
  let encryptedKey := encryptedKey ||| (encrypted.2 <<< (56 + 128))
  encodeBase58 ((uintBytes encryptedKey).take 43)

/-! ## Decryption -/

/-- `DecryptAES` to an output that was zero. -/
def decryptAES (encryptedIn decryptionKey : BitVec 256) : BitVec 256 :=
  (C.AES_decrypt decryptionKey (encryptedIn.setWidth 128)).setWidth 256

def computePreFactor (strPassphrase : List UInt8) (strSalt : List Char) : BitVec 256 :=
  let s := get64 (setHex 256 (reverseEndianString strSalt))
  C.scrypt strPassphrase s (strSalt.length / 2) 16384 8 8 32

def computePassfactor (ownersalt : List Char) (prefactor : BitVec 256) : BitVec 256 :=
  let temp := setHex 512 (reverseEndianString (hexStr (uintBytes prefactor) ++ ownersalt))
  let passfactor := C.hash ((uintBytes temp).take 40)
  C.hash (uintBytes passfactor)

def computePasspoint (passfactor : BitVec 256) : Option (List UInt8) :=
  C.secp256k1_ec_pubkey_create passfactor true

def computeSeedBPass (passpoint : List UInt8) (strAddressHash strOwnerSalt : List Char) :
    BitVec 512 :=
  let salt := reverseEndianString (strAddressHash ++ strOwnerSalt)
  let s2 := setHex 256 salt
  C.scrypt passpoint s2 (salt.length / 2) 1024 1 1 64

def computeFactorB (seedB : BitVec 256) : BitVec 256 :=
  let factorB := C.hash ((uintBytes seedB).take 24)
  C.hash (uintBytes factorB)

/-- The part of `BIP38_Decrypt` for a key that was not multiplied. -/
def decryptParts (strPassphrase : List UInt8) (strAddressHash : List Char)
    (encryptedPart1 encryptedPart2 : BitVec 256) : BitVec 256 :=
  let hashed := C.hashPassphrase strPassphrase strAddressHash
  let derivedHalf1 := derivedHalf1 hashed
  let derivedHalf2 := derivedHalf2 hashed
  let decryptedPart1 := C.decryptAES encryptedPart1 derivedHalf2
  let decryptedPart2 := C.decryptAES encryptedPart2 derivedHalf2
  let temp1 := decryptedPart2 <<< 128
  let temp1 := temp1 ||| decryptedPart1
  temp1 ^^^ derivedHalf1

/-- The part of `BIP38_Decrypt` for a key that was multiplied. -/
def decryptMultiplied (strPassphrase : List UInt8) (strAddressHash ownersalt : List Char)
    (flag encryptedPart1 encryptedPart2 privKey : BitVec 256) (fCompressed : Bool) :
    Option (Bool × BitVec 256 × Bool) :=
  let fLotSequence := flag &&& 0x04 != 0
  let prefactorSalt := if fLotSequence then substr ownersalt 0 8 else ownersalt
  let prefactor := C.computePreFactor strPassphrase prefactorSalt
  let passfactor := if fLotSequence then C.computePassfactor ownersalt prefactor else prefactor
  match C.computePasspoint passfactor with
  | none => some (false, privKey, fCompressed)
  | some passpoint =>
    let seedBPass := C.computeSeedBPass passpoint strAddressHash ownersalt
    let derivedHalf1 := derivedHalf1 seedBPass
    let derivedHalf2 := derivedHalf2 seedBPass
    let decryptedPart2 := C.decryptAES encryptedPart2 derivedHalf2
    let x0 := derivedHalf1 >>> 128
    let x1 := decryptedPart2 ^^^ x0
    let seedbPart2 := x1 >>> 64
    let x2 := x1 &&& 0xffffffffffffffff
    let x2 := x2 <<< 64
    let x2 := encryptedPart1 ||| x2
    let decryptedPart1 := C.decryptAES x2 derivedHalf2
    let x3 := derivedHalf1 &&& 0xffffffffffffffffffffffffffffffff
    let seedbPart1 := decryptedPart1 ^^^ x3
    let seedB := seedbPart1 ||| (seedbPart2 <<< 128)
    let factorB := C.computeFactorB seedB
    match C.secp256k1_ec_privkey_tweak_mul factorB passfactor with
    | none => some (false, factorB, fCompressed)
    | some privKey =>
      -- the address hash is compared on this path alone
      match C.keyAddress privKey fCompressed with
      | none => none
      | some address =>
        some (strAddressHash == C.addressToBip38Hash address, privKey, fCompressed)

end CryptoLib

/-- `DecodeBase58` to text; `none` where its assertion fails. -/
def decodeBase58Hex (psz : CString) : Option (List Char) :=
  match decodeBase58 psz with
  | .ok vch => some (hexStr vch)
  | .error .rejected => some (hexStr [])
  | .error .assertion => none

/-- `uint256(ReverseEndianString(strKey.substr(pos, len)))`. -/
def keyField (w : Nat) (strKey : List Char) (pos len : Nat) : BitVec w :=
  setHex w (reverseEndianString (substr strKey pos len))

namespace CryptoLib

variable (C : CryptoLib)

/-- `BIP38_Decrypt`, with what it leaves in `privKey` and `fCompressed`; `none` where an assertion
fails. -/
def bip38Decrypt (strPassphrase : List UInt8) (strEncryptedKey : List Char) (privKey : BitVec 256)
    (fCompressed : Bool) : Option (Bool × BitVec 256 × Bool) :=
  match decodeBase58Hex (ofString strEncryptedKey) with
  | none => none
  | some strKey =>
    if strKey.length ≠ 78 + 8 then some (false, privKey, fCompressed)
    else if keyField 256 strKey 0 2 ≠ 0x01 then some (false, privKey, fCompressed)
    else
      let type := keyField 256 strKey 2 2
      let flag := keyField 256 strKey 4 2
      let strAddressHash := substr strKey 6 8
      let ownersalt := substr strKey 14 16
      let encryptedPart1 := keyField 256 strKey 30 16
      let encryptedPart2 := keyField 256 strKey 46 32
      let fCompressed := flag &&& 0x20 != 0
      if type = 0x42 then
        let encryptedPart1 := keyField 256 strKey 14 32
        some (true, C.decryptParts strPassphrase strAddressHash encryptedPart1 encryptedPart2,
          fCompressed)
      else if type ≠ 0x43 then some (false, privKey, fCompressed)
      else C.decryptMultiplied strPassphrase strAddressHash ownersalt flag encryptedPart1
        encryptedPart2 privKey fCompressed

end CryptoLib

/-! ## Halves of a key -/

def lowHalf (a : BitVec 256) : BitVec 128 := a.setWidth 128

def highHalf (a : BitVec 256) : BitVec 128 := (a >>> 128).setWidth 128

def joinHalves (high low : BitVec 128) : BitVec 256 :=
  (high.setWidth 256 <<< 128) ||| low.setWidth 256

theorem joinHalves_halves (a : BitVec 256) : joinHalves (highHalf a) (lowHalf a) = a := by
  refine BitVec.eq_of_getLsbD_eq fun i hi => ?_
  simp only [joinHalves, highHalf, lowHalf, BitVec.getLsbD_or, BitVec.getLsbD_shiftLeft,
    BitVec.getLsbD_setWidth, BitVec.getLsbD_ushiftRight]
  by_cases hlow : i < 128
  · simp [hlow, hi]
  · have hback : 128 + (i - 128) = i := by omega
    simp [hlow, hi, hback, show i - 128 < 128 by omega, show i - 128 < 256 by omega]

theorem lowHalf_joinHalves (high low : BitVec 128) : lowHalf (joinHalves high low) = low := by
  refine BitVec.eq_of_getLsbD_eq fun i hi => ?_
  simp only [joinHalves, lowHalf, BitVec.getLsbD_or, BitVec.getLsbD_shiftLeft,
    BitVec.getLsbD_setWidth]
  simp [hi, show i < 256 by omega]

theorem highHalf_joinHalves (high low : BitVec 128) : highHalf (joinHalves high low) = high := by
  refine BitVec.eq_of_getLsbD_eq fun i hi => ?_
  simp only [joinHalves, highHalf, BitVec.getLsbD_or, BitVec.getLsbD_shiftLeft,
    BitVec.getLsbD_setWidth, BitVec.getLsbD_ushiftRight]
  simp [hi, show 128 + i < 256 by omega, show i < 256 by omega]

theorem lowHalf_xor (a b : BitVec 256) :
    lowHalf (((a <<< 128) ^^^ (b <<< 128)) >>> 128) = lowHalf (a ^^^ b) := by
  refine BitVec.eq_of_getLsbD_eq fun i hi => ?_
  simp only [lowHalf, BitVec.getLsbD_xor, BitVec.getLsbD_shiftLeft, BitVec.getLsbD_setWidth,
    BitVec.getLsbD_ushiftRight]
  simp [hi, show 128 + i < 256 by omega, show ¬ 128 + i < 128 by omega]

theorem highHalf_xor (a b : BitVec 256) :
    lowHalf ((a >>> 128) ^^^ (b >>> 128)) = highHalf (a ^^^ b) := by
  rw [highHalf, BitVec.ushiftRight_xor_distrib, lowHalf]

theorem lowHalf_setWidth (block : BitVec 128) : lowHalf (block.setWidth 256) = block := by
  rw [lowHalf, BitVec.setWidth_setWidth_of_le _ (by decide), BitVec.setWidth_eq]

/-! ## The bytes -/

theorem keyField_hexStr {w i k : Nat} (vch : List UInt8) (hk : k ≤ w / 8) :
    keyField w (hexStr vch) (2 * i) (2 * k) = BitVec.ofNat w (leValue ((vch.drop i).take k)) := by
  rw [keyField, substr_hexStr]
  refine (hexText_hexStr _).setHex_reverse ?_
  rw [List.length_take]
  omega

theorem or_block {w n b : Nat} (block : BitVec 128) (hn : n < 2 ^ b) (hb : b + 128 ≤ w) :
    BitVec.ofNat w n ||| (block.setWidth w <<< b) = BitVec.ofNat w (n + 2 ^ b * block.toNat) := by
  have hblock := block.isLt
  have hroom : 2 ^ b * 2 ^ 128 ≤ 2 ^ w := by
    rw [← Nat.pow_add]
    exact Nat.pow_le_pow_right Nat.two_pos hb
  have hpos := Nat.two_pow_pos b
  have hmul : 2 ^ b * block.toNat + 2 ^ b ≤ 2 ^ b * 2 ^ 128 := by
    rw [← Nat.mul_succ]
    exact Nat.mul_le_mul_left _ hblock
  refine BitVec.eq_of_toNat_eq ?_
  rw [BitVec.toNat_or, BitVec.toNat_shiftLeft, BitVec.toNat_setWidth, BitVec.toNat_ofNat,
    BitVec.toNat_ofNat, Nat.shiftLeft_eq, Nat.mul_comm _ (2 ^ b),
    Nat.mod_eq_of_lt (show n < 2 ^ w by omega),
    Nat.mod_eq_of_lt (show block.toNat < 2 ^ w by omega),
    Nat.mod_eq_of_lt (show 2 ^ b * block.toNat < 2 ^ w by omega),
    Nat.mod_eq_of_lt (show n + 2 ^ b * block.toNat < 2 ^ w by omega), Nat.or_comm,
    ← Nat.two_pow_add_eq_or_of_lt hn, Nat.add_comm]

theorem uintBytes_block (block : BitVec 128) :
    (uintBytes block).length = 16 ∧ leValue (uintBytes block) = block.toNat :=
  ⟨length_writeLE 16 block.toNat, leValue_writeLE (k := 16) block.isLt⟩

theorem encryptedKey_bytes (vchHash : List UInt8) (hhash : vchHash.length = 4)
    (block1 block2 : BitVec 128) :
    (uintBytes (setHex 512
        (reverseEndianString (['0', '1', '4', '2', 'E', '0'] ++ hexStr vchHash)) |||
        (block1.setWidth 512 <<< 56) ||| (block2.setWidth 512 <<< (56 + 128)))).take 43 =
      [0x01, 0x42, 0xE0] ++ vchHash ++ uintBytes block1 ++ uintBytes block2 ++ [0, 0, 0, 0] := by
  have hmagic : HexText ['0', '1', '4', '2', 'E', '0'] [0x01, 0x42, 0xE0] :=
    @HexText.cons '0' '1' 0 1 _ _ (by decide) (by decide)
      (@HexText.cons '4' '2' 4 2 _ _ (by decide) (by decide)
        (@HexText.cons 'E' '0' 14 0 _ _ (by decide) (by decide) HexText.nil))
  have hlen : ([0x01, 0x42, 0xE0] ++ vchHash : List UInt8).length = 7 := by
    rw [List.length_append, hhash]
    rfl
  rw [(hmagic.append (hexText_hexStr vchHash)).setHex_reverse (by rw [hlen]; decide)]
  generalize [0x01, 0x42, 0xE0] ++ vchHash = vchHead at hlen ⊢
  have hhead := leValue_lt vchHead
  rw [hlen] at hhead
  have h1 := block1.isLt
  have h2 := block2.isLt
  obtain ⟨hlen1, hval1⟩ := uintBytes_block block1
  obtain ⟨hlen2, hval2⟩ := uintBytes_block block2
  rw [or_block block1 (by omega) (by decide), or_block block2 (by omega) (by decide)]
  generalize hvch : vchHead ++ uintBytes block1 ++ uintBytes block2 ++ [0, 0, 0, 0] = vch
  have hvalue : leValue vch =
      leValue vchHead + 2 ^ 56 * block1.toNat + 2 ^ (56 + 128) * block2.toNat := by
    have hzero : leValue [0, 0, 0, 0] = 0 := rfl
    rw [← hvch, List.append_assoc, List.append_assoc, leValue_append, leValue_append,
      leValue_append, hlen, hlen1, hlen2, hval1, hval2, hzero]
    omega
  have hlength : vch.length = 43 := by
    rw [← hvch, List.length_append, List.length_append, List.length_append, hlen, hlen1, hlen2]
    rfl
  rw [← hvalue, uintBytes, BitVec.toNat_ofNat, Nat.mod_eq_of_lt (by omega)]
  refine (take_writeLE 43 21 (leValue vch)).trans ?_
  rw [← hlength, writeLE_leValue]

theorem keyField_middle {w : Nat} (hw : 128 ≤ w) (pre post : List UInt8) (block : BitVec 128) :
    keyField w (hexStr (pre ++ (uintBytes block ++ post))) (2 * pre.length) (2 * 16) =
      block.setWidth w := by
  obtain ⟨hlen, hval⟩ := uintBytes_block block
  rw [keyField_hexStr _ (show 16 ≤ w / 8 by omega), List.drop_left, List.take_left' hlen, hval,
    BitVec.ofNat_toNat]

/-- What `BIP38_Decrypt` takes from the bytes that `BIP38_Encrypt` writes. -/
theorem keyField_encrypted {vchHash : List UInt8} (hhash : vchHash.length = 4)
    (block1 block2 : BitVec 128) {strKey : List Char}
    (h : strKey = hexStr ([0x01, 0x42, 0xE0] ++ vchHash ++ uintBytes block1 ++ uintBytes block2 ++
      [0, 0, 0, 0])) :
    strKey.length = 78 + 8 ∧ keyField 256 strKey 0 2 = 0x01 ∧ keyField 256 strKey 2 2 = 0x42 ∧
      keyField 256 strKey 4 2 = 0xE0 ∧ substr strKey 6 8 = hexStr vchHash ∧
      keyField 256 strKey 14 32 = block1.setWidth 256 ∧
      keyField 256 strKey 46 32 = block2.setWidth 256 := by
  obtain ⟨hlen1, -⟩ := uintBytes_block block1
  obtain ⟨hlen2, -⟩ := uintBytes_block block2
  rw [List.append_assoc, List.append_assoc, List.append_assoc] at h
  generalize hrest : uintBytes block1 ++ (uintBytes block2 ++ [0, 0, 0, 0]) = rest at h
  have hlen : ([0x01, 0x42, 0xE0] ++ (vchHash ++ rest)).length = 43 := by
    rw [← hrest]
    simp only [List.length_append, hhash, hlen1, hlen2, List.length_cons, List.length_nil]
  refine ⟨?_, ?_, ?_, ?_, ?_, ?_, ?_⟩
  · rw [h, (hexText_hexStr _).length, hlen]
  · rw [h]
    exact keyField_hexStr (i := 0) (k := 1) _ (by decide)
  · rw [h]
    exact keyField_hexStr (i := 1) (k := 1) _ (by decide)
  · rw [h]
    exact keyField_hexStr (i := 2) (k := 1) _ (by decide)
  · rw [h]
    refine (substr_hexStr _ 3 4).trans ?_
    exact congrArg hexStr (List.take_left' hhash)
  · have hmiddle := keyField_middle (w := 256) (by decide) ([0x01, 0x42, 0xE0] ++ vchHash)
      (uintBytes block2 ++ [0, 0, 0, 0]) block1
    rw [List.append_assoc, hrest, ← h, List.length_append, hhash] at hmiddle
    exact hmiddle
  · have hmiddle := keyField_middle (w := 256) (by decide)
      ([0x01, 0x42, 0xE0] ++ (vchHash ++ uintBytes block1)) [0, 0, 0, 0] block2
    rw [List.append_assoc, List.append_assoc, hrest, ← h, List.length_append, List.length_append,
      hhash, hlen1] at hmiddle
    exact hmiddle

theorem keyField_block (vch : List UInt8) (i : Nat) : ∃ block : BitVec 128, ∀ w, 128 ≤ w →
    keyField w (hexStr vch) (2 * i) 32 = block.setWidth w := by
  have hlt := leValue_lt ((vch.drop i).take 16)
  have hlen : ((vch.drop i).take 16).length ≤ 16 := List.length_take_le 16 _
  have hle : (256 : Nat) ^ ((vch.drop i).take 16).length ≤ 256 ^ 16 :=
    Nat.pow_le_pow_right (by decide) hlen
  refine ⟨BitVec.ofNat 128 (leValue ((vch.drop i).take 16)), fun w hw => ?_⟩
  have hfield := keyField_hexStr (k := 16) (i := i) vch (show 16 ≤ w / 8 by omega)
  rw [show 2 * 16 = 32 from rfl] at hfield
  rw [hfield, BitVec.setWidth_ofNat_of_le_of_lt hw (by omega)]

/-! ## What is decrypted is what was encrypted -/

namespace CryptoLib

variable {C : CryptoLib}

theorem encrypt_decrypt (haes : ∀ key block, C.AES_decrypt key (C.AES_encrypt key block) = block)
    (key : BitVec 256) (block : BitVec 128) :
      C.AES_encrypt key (C.AES_decrypt key block) = block := by
  have hfinite : Finite (BitVec 128) :=
    Finite.of_injective BitVec.toFin fun _ _ h => BitVec.eq_of_toFin_eq h
  have hleft : Function.LeftInverse (C.AES_decrypt key) (C.AES_encrypt key) := haes key
  exact hleft.rightInverse_of_surjective (Finite.surjective_of_injective hleft.injective) block

section parts

variable (strPassphrase : List UInt8) (strAddressHash : List Char)

theorem encryptParts_eq (privKey : BitVec 256) :
    C.encryptParts strPassphrase strAddressHash privKey =
      ((C.AES_encrypt (derivedHalf2 (C.hashPassphrase strPassphrase strAddressHash))
          (lowHalf (privKey ^^^ derivedHalf1
            (C.hashPassphrase strPassphrase strAddressHash)))).setWidth 512,
        (C.AES_encrypt (derivedHalf2 (C.hashPassphrase strPassphrase strAddressHash))
          (highHalf (privKey ^^^ derivedHalf1
            (C.hashPassphrase strPassphrase strAddressHash)))).setWidth
          512) := by
  rw [← lowHalf_xor, ← highHalf_xor]
  rfl

theorem decryptParts_eq (block1 block2 : BitVec 128) :
    C.decryptParts strPassphrase strAddressHash (block1.setWidth 256) (block2.setWidth 256) =
      joinHalves (C.AES_decrypt (derivedHalf2 (C.hashPassphrase strPassphrase strAddressHash))
        block2)
          (C.AES_decrypt (derivedHalf2 (C.hashPassphrase strPassphrase strAddressHash)) block1) ^^^
        derivedHalf1 (C.hashPassphrase strPassphrase strAddressHash) := by
  rw [decryptParts, decryptAES, decryptAES]
  change joinHalves (C.AES_decrypt _ (lowHalf (block2.setWidth 256)))
    (C.AES_decrypt _ (lowHalf (block1.setWidth 256))) ^^^ _ = _
  rw [lowHalf_setWidth, lowHalf_setWidth]

theorem setWidth_inj {block block' : BitVec 128} :
    block.setWidth 512 = block'.setWidth 512 ↔ block = block' := by
  refine ⟨fun h => ?_, fun h => h ▸ rfl⟩
  have hback := congrArg (BitVec.setWidth 128) h
  rwa [BitVec.setWidth_setWidth_of_le _ (by decide), BitVec.setWidth_setWidth_of_le _ (by decide),
    BitVec.setWidth_eq, BitVec.setWidth_eq] at hback

/-- **The blocks that are written for a key** are those it is read from. -/
theorem encryptParts_iff (haes : ∀ key block, C.AES_decrypt key (C.AES_encrypt key block) = block)
    (block1 block2 : BitVec 128) (privKey : BitVec 256) :
    C.encryptParts strPassphrase strAddressHash privKey =
        (block1.setWidth 512, block2.setWidth 512) ↔
      C.decryptParts strPassphrase strAddressHash (block1.setWidth 256) (block2.setWidth 256) =
        privKey := by
  rw [encryptParts_eq, decryptParts_eq, Prod.mk.injEq, setWidth_inj, setWidth_inj]
  generalize derivedHalf2 (C.hashPassphrase strPassphrase strAddressHash) = key
  generalize derivedHalf1 (C.hashPassphrase strPassphrase strAddressHash) = mask
  constructor
  · intro ⟨h1, h2⟩
    rw [← h1, ← h2, haes, haes, joinHalves_halves, BitVec.xor_assoc, BitVec.xor_self,
      BitVec.xor_zero]
  · intro h
    rw [← h, BitVec.xor_assoc, BitVec.xor_self, BitVec.xor_zero, lowHalf_joinHalves,
      highHalf_joinHalves, encrypt_decrypt haes, encrypt_decrypt haes]
    exact ⟨rfl, rfl⟩

end parts

theorem exists_addressHash (strAddress : List Char) :
    ∃ vchHash : List UInt8, vchHash.length = 4 ∧
    C.addressToBip38Hash strAddress = hexStr vchHash := by
  refine ⟨_, ?_, substr_hexStr _ 0 4⟩
  rw [List.drop_zero, List.length_take, uintBytes, length_writeLE]
  rfl

/-- **Whatever is encrypted is decrypted** to the same key, and it is a compressed one. -/
theorem bip38Decrypt_bip38Encrypt
    (haes : ∀ key block, C.AES_decrypt key (C.AES_encrypt key block) = block)
    (strAddress : List Char) (strPassphrase : List UInt8) (privKey privKeyOut : BitVec 256)
    (fCompressed : Bool) :
    ∃ str, C.bip38Encrypt strAddress strPassphrase privKey = some str ∧
      C.bip38Decrypt strPassphrase str privKeyOut fCompressed = some (true, privKey, true) := by
  obtain ⟨vchHash, hlen, hhash⟩ := exists_addressHash (C := C) strAddress
  have hparts := encryptParts_eq (C := C) strPassphrase (hexStr vchHash) privKey
  generalize C.AES_encrypt (derivedHalf2 (C.hashPassphrase strPassphrase (hexStr vchHash))) (lowHalf
    (privKey ^^^ derivedHalf1 (C.hashPassphrase strPassphrase (hexStr vchHash)))) = block1 at hparts
  generalize C.AES_encrypt (derivedHalf2 (C.hashPassphrase strPassphrase (hexStr vchHash)))
    (highHalf
    (privKey ^^^ derivedHalf1 (C.hashPassphrase strPassphrase (hexStr vchHash)))) = block2 at hparts
  have hkey :=
    (encryptParts_iff strPassphrase (hexStr vchHash) haes block1 block2 privKey).mp hparts
  obtain ⟨str, hstr, hdecode⟩ := decodeBase58_encodeBase58 ([0x01, 0x42, 0xE0] ++ vchHash ++
    uintBytes block1 ++ uintBytes block2 ++ [0, 0, 0, 0])
  refine ⟨str, ?_, ?_⟩
  · rw [bip38Encrypt, hhash, hparts]
    dsimp only
    rw [encryptedKey_bytes vchHash hlen, hstr]
  · rw [bip38Decrypt, decodeBase58Hex, hdecode]
    dsimp only
    obtain ⟨hsize, hversion, htype, hflag, haddress, hpart1, hpart2⟩ :=
      keyField_encrypted hlen block1 block2 rfl
    rw [if_neg (not_not.mpr hsize), if_neg (not_not.mpr hversion), if_pos htype, hflag, haddress,
      hpart1, hpart2, hkey]
    rfl

/-! ## What is returned as decrypted -/

theorem false_ne_returned {out out' : BitVec 256 × Bool} : some (false, out) ≠ some (true, out') :=
  fun h => Bool.false_ne_true (congrArg Prod.fst (Option.some.inj h))

variable {strPassphrase : List UInt8} {strEncryptedKey strKey : List Char}

theorem decryptMultiplied_sound {strAddressHash ownersalt : List Char}
    {flag encryptedPart1 encryptedPart2 privKeyOut privKey : BitVec 256} {fCompressed f : Bool}
    (h : C.decryptMultiplied strPassphrase strAddressHash ownersalt flag encryptedPart1
      encryptedPart2 privKeyOut fCompressed = some (true, privKey, f)) :
    ∃ address, C.keyAddress privKey f = some address ∧
      C.addressToBip38Hash address = strAddressHash := by
  rw [decryptMultiplied] at h
  dsimp only at h
  split at h
  · exact absurd h false_ne_returned
  split at h
  · exact absurd h false_ne_returned
  split at h
  · exact nomatch h
  · rename_i address haddress
    rw [Option.some.injEq, Prod.mk.injEq, Prod.mk.injEq, beq_iff_eq] at h
    obtain ⟨hhash, rfl, rfl⟩ := h
    exact ⟨address, haddress, hhash.symm⟩

/-- The text in `BIP38_Decrypt`. -/
def strKeyOf (strEncryptedKey : List Char) : List Char :=
  (decodeBase58Hex (ofString strEncryptedKey)).getD []

/-- A key that is of the form for one that was not multiplied. -/
structure NotMultiplied (strKey : List Char) : Prop where
  size : strKey.length = 78 + 8
  version : keyField 256 strKey 0 2 = 0x01
  type : keyField 256 strKey 2 2 = 0x42

/-- What is in the text is what is written under the passphrase for a key whose address has the hash
in the text. -/
def WrittenUnder (C : CryptoLib) (strPassphrase : List UInt8) (strKey : List Char) : Prop :=
  ∃ privKey address, C.encryptParts strPassphrase (substr strKey 6 8) privKey =
      (keyField 512 strKey 14 32, keyField 512 strKey 46 32) ∧
    C.keyAddress privKey (keyField 256 strKey 4 2 &&& 0x20 != 0) = some address ∧
    C.addressToBip38Hash address = substr strKey 6 8

/-- When a key is returned as decrypted, its address has the hash in the text. -/
def Sound (C : CryptoLib) (strPassphrase : List UInt8) (strEncryptedKey : List Char) : Prop :=
  ∀ privKeyOut fCompressedOut privKey fCompressed,
    C.bip38Decrypt strPassphrase strEncryptedKey privKeyOut fCompressedOut =
      some (true, privKey, fCompressed) →
    ∃ address, C.keyAddress privKey fCompressed = some address ∧
      C.addressToBip38Hash address = substr (strKeyOf strEncryptedKey) 6 8

theorem writtenUnder_iff (haes : ∀ key block, C.AES_decrypt key (C.AES_encrypt key block) = block)
    (strPassphrase : List UInt8) (vch : List UInt8) :
    C.WrittenUnder strPassphrase (hexStr vch) ↔
      ∃ address, C.keyAddress (C.decryptParts strPassphrase (substr (hexStr vch) 6 8)
          (keyField 256 (hexStr vch) 14 32) (keyField 256 (hexStr vch) 46 32))
          (keyField 256 (hexStr vch) 4 2 &&& 0x20 != 0) = some address ∧
        C.addressToBip38Hash address = substr (hexStr vch) 6 8 := by
  obtain ⟨block1, hblock1⟩ := keyField_block vch 7
  obtain ⟨block2, hblock2⟩ := keyField_block vch 23
  have hpart1 := hblock1 256 (by decide)
  have hpart2 := hblock2 256 (by decide)
  have hwide1 := hblock1 512 (by decide)
  have hwide2 := hblock2 512 (by decide)
  rw [WrittenUnder]
  constructor
  · intro ⟨privKey, address, hparts, haddress, hhash⟩
    have hkey := (encryptParts_iff strPassphrase _ haes block1 block2 privKey).mp
      (hparts.trans (Prod.ext hwide1 hwide2))
    exact ⟨address, by rw [hpart1, hpart2, hkey]; exact haddress, hhash⟩
  · intro ⟨address, haddress, hhash⟩
    refine ⟨_, address, ?_, haddress, hhash⟩
    have hparts :=
      (encryptParts_iff strPassphrase (substr (hexStr vch) 6 8) haes block1 block2 _).mpr
      rfl
    rw [hpart1, hpart2, hparts, hwide1, hwide2]

theorem bip38Decrypt_notMultiplied (strPassphrase : List UInt8)
    (hdecode : decodeBase58Hex (ofString strEncryptedKey) = some strKey) (h : NotMultiplied strKey)
    (privKey : BitVec 256) (fCompressed : Bool) :
    C.bip38Decrypt strPassphrase strEncryptedKey privKey fCompressed =
      some (true, C.decryptParts strPassphrase (substr strKey 6 8) (keyField 256 strKey 14 32)
        (keyField 256 strKey 46 32), keyField 256 strKey 4 2 &&& 0x20 != 0) := by
  rw [bip38Decrypt, hdecode]
  dsimp only
  rw [if_neg (not_not.mpr h.size), if_neg (not_not.mpr h.version), if_pos h.type]

theorem sound_of_multiplied (hdecode : decodeBase58Hex (ofString strEncryptedKey) = some strKey)
    (h : ¬ NotMultiplied strKey) : C.Sound strPassphrase strEncryptedKey := by
  intro privKeyOut fCompressedOut privKey fCompressed hret
  have hkey : strKeyOf strEncryptedKey = strKey := by
    rw [strKeyOf, hdecode]
    rfl
  rw [bip38Decrypt, hdecode] at hret
  dsimp only at hret
  rw [hkey]
  split at hret
  · exact absurd hret false_ne_returned
  rename_i hsize
  split at hret
  · exact absurd hret false_ne_returned
  rename_i hversion
  split at hret
  · rename_i htype
    exact absurd ⟨not_not.mp hsize, not_not.mp hversion, htype⟩ h
  split at hret
  · exact absurd hret false_ne_returned
  · exact decryptMultiplied_sound hret

/-- **What is returned is right** just when the key was multiplied, or was written under the
passphrase. -/
theorem sound_iff (haes : ∀ key block, C.AES_decrypt key (C.AES_encrypt key block) = block)
    (strPassphrase : List UInt8) (strEncryptedKey : List Char) :
    C.Sound strPassphrase strEncryptedKey ↔ (NotMultiplied (strKeyOf strEncryptedKey) →
      C.WrittenUnder strPassphrase (strKeyOf strEncryptedKey)) := by
  have hform : ∀ strKey, decodeBase58Hex (ofString strEncryptedKey) = some strKey →
      strKeyOf strEncryptedKey = strKey ∧ ∃ vch, strKey = hexStr vch := by
    intro strKey h
    refine ⟨by rw [strKeyOf, h]; rfl, ?_⟩
    rw [decodeBase58Hex] at h
    split at h
    · exact ⟨_, (Option.some.inj h).symm⟩
    · exact ⟨_, (Option.some.inj h).symm⟩
    · exact nomatch h
  cases hdecode : decodeBase58Hex (ofString strEncryptedKey) with
  | none =>
    refine iff_of_true (fun privKeyOut fCompressedOut privKey fCompressed hret => ?_) fun h => ?_
    · rw [bip38Decrypt, hdecode] at hret
      exact nomatch hret
    · have hsize := h.size
      rw [strKeyOf, hdecode] at hsize
      exact absurd hsize (by decide)
  | some strKey =>
    obtain ⟨hkey, vch, rfl⟩ := hform strKey hdecode
    by_cases hnot : NotMultiplied (hexStr vch)
    · have hdecrypt := bip38Decrypt_notMultiplied (C := C) strPassphrase hdecode hnot
      rw [hkey, forall_prop_of_true hnot, writtenUnder_iff haes, Sound, hkey]
      constructor
      · intro h
        exact h 0 false _ _ (hdecrypt 0 false)
      · intro h privKeyOut fCompressedOut privKey fCompressed hret
        rw [hdecrypt, Option.some.injEq, Prod.mk.injEq, Prod.mk.injEq] at hret
        obtain ⟨-, rfl, rfl⟩ := hret
        exact h
    · exact iff_of_true (sound_of_multiplied hdecode hnot) fun h => absurd (hkey ▸ h) hnot

/--
**Keys under a passphrase.** What is written for a key is read as that key. A key that is returned
has an address with the hash in the text, unless it is of the form for one that was not
multiplied and was not written under that passphrase.
-/
theorem bip38_recovers (haes : ∀ key block, C.AES_decrypt key (C.AES_encrypt key block) = block) :
    (∀ strAddress strPassphrase privKey privKeyOut fCompressed, ∃ str,
      C.bip38Encrypt strAddress strPassphrase privKey = some str ∧
      C.bip38Decrypt strPassphrase str privKeyOut fCompressed = some (true, privKey, true)) ∧
    ∀ strPassphrase strEncryptedKey, C.Sound strPassphrase strEncryptedKey ↔
      (NotMultiplied (strKeyOf strEncryptedKey) →
        C.WrittenUnder strPassphrase (strKeyOf strEncryptedKey)) :=
  ⟨bip38Decrypt_bip38Encrypt haes, sound_iff haes⟩

/-! ## A key -/

/-- A function by its values, each as the number its bytes stand for. -/
def ofTable (table : List (Nat × Nat)) (k : Nat) (bytes : List UInt8) : Vector UInt8 k :=
  Vector.ofFn fun i => (writeLE k ((table.lookup (leValue bytes)).getD 0)).getD i 0

def sampleSHA256 : List (Nat × Nat) :=
  [(0xe36c9601b56c3db4a2309e326b101cb4bafc234ef21115b1f5c6ed01d83ced202,
      0xf9d24401003e5fbe4dcd5160b88f7d667adae2c049491759fb34953b3abfcd9b),
    (0xc2242ff278698e0110c18bc118670644c7e97a3719,
      0xbc11f8544ac3d642551126a487243e41d1e8f3b09239972700571e3f49b002b2),
    (0xbc11f8544ac3d642551126a487243e41d1e8f3b09239972700571e3f49b002b2,
      0x896ac39de9a11b2847aff4f32069d1ab22c6c7cfb65d2dd8d0e23f14952804a0),
    (0x59324758786259354e56417639514d5a595454386a76416a51734a62523253573942,
      0x685dc598215afe005589068146f3838711463dccbff4a01510bf98a015a88d98),
    (0x685dc598215afe005589068146f3838711463dccbff4a01510bf98a015a88d98,
      0x6428cacfe43e0cda224b25a53a15d9d1c94c9a0d4d93ec23846e345d8ef74745),
    (0x148a22d0292dbd96b977e32d6ee6208aa0e228a8c8e469de63886303b03fd70f03,
      0xbceccbee132b7545a7756e60511e08e3dc26fc693113642cca19c561a8a81352),
    (0x83de999899f0bb54c1bb85224769418416481d8e19,
      0x6daedbc32137064dcf02fa28d0a206d151352a25a76f635eff1fc73eac266640),
    (0x6daedbc32137064dcf02fa28d0a206d151352a25a76f635eff1fc73eac266640,
      0x814fa5cd1ef2ad530d7af1c8d7fa2755c6c5079be64b2e29ce0889f80316de5c),
    (0x7a6b4a4c454e63446565515a76686370397a6e444534535272414561556557514842,
      0xdaed769f6fce1f41cc93031f5e08d1f4511b087ea1cda334856efd4c88ee1b03),
    (0xdaed769f6fce1f41cc93031f5e08d1f4511b087ea1cda334856efd4c88ee1b03,
      0xf00023452066cfa63c62b6c3c64f4a8a0cb7f9c8d35c3c494a29f054cbd1c640)]

def sampleRIPEMD160 : List (Nat × Nat) :=
  [(0xf9d24401003e5fbe4dcd5160b88f7d667adae2c049491759fb34953b3abfcd9b,
      0xc2242ff278698e0110c18bc118670644c7e97a37),
    (0xbceccbee132b7545a7756e60511e08e3dc26fc693113642cca19c561a8a81352,
      0x83de999899f0bb54c1bb85224769418416481d8e)]

/-- The cipher under the keys of two passphrases, on the blocks of one key. -/
def sampleAES (key : BitVec 256) : Equiv.Perm (BitVec 128) :=
  if key = 0x19e66bc56dc86a50d99dbf676f2882d5d9b8d427b83efed60b3ae6ee07a03f48 then
    (Equiv.swap 0xb49c7edb6a01d2c154f5ad24511909b7 0x92a5bbad7bd74bc31cb2984a6bb8b9d6).trans
      (Equiv.swap 0x86623b1d3858d26ba22d0197496a7de2 0xaf80c319edbf7bcfbf70d864f0cf8ca8)
  else if key = 0x39285051032f3eb45c48de8d4718b805a14130c740090c0d2762be50aff3e263 then
    (Equiv.swap 0xbbf9c61cab510d00845a3fb20da6694d 0x92a5bbad7bd74bc31cb2984a6bb8b9d6).trans
      (Equiv.swap 0x10589f7b6a69cdc9944054815fa22e18 0xaf80c319edbf7bcfbf70d864f0cf8ca8)
  else Equiv.refl _

/-- `TestingOneTwoThree`. -/
def samplePassphrase : List UInt8 := writeLE 18 0x65657268546f7754656e4f676e6974736554

/-- `TestingOneTwoFour`. -/
def otherPassphrase : List UInt8 := writeLE 17 0x72756f466f7754656e4f676e6974736554

def sampleKey : BitVec 256 := 0xa533f43a716d16ab15f36deeff97598690db7eb8800ff4b46b857004f7b9f4cb

/-- What comes out under the other passphrase. -/
def otherKey : BitVec 256 := 0x2e45a503f90d806b7da0c602a4fd0927a6ec055f197b6761c37c4681700952cc

def sampleAddress : List Char :=
  ['B', '9', 'W', 'S', '2', 'R', 'b', 'J', 's', 'Q', 'j', 'A', 'v', 'j', '8', 'T', 'T', 'Y',
    'Z', 'M', 'Q', '9', 'v', 'A', 'V', 'N', '5', 'Y', 'b', 'x', 'X', 'G', '2', 'Y']

def sampleLib : CryptoLib where
  AES_encrypt key := sampleAES key
  AES_decrypt key := (sampleAES key).symm
  scrypt_hash pass _ _ _ _ dkLen := ofTable [(0x65657268546f7754656e4f676e6974736554,
      0x2351cf274935c4c0b7de6c79b6fd246424470063ea0e26753f70dd20a6a0fd7c +
        2 ^ 256 * 0x19e66bc56dc86a50d99dbf676f2882d5d9b8d427b83efed60b3ae6ee07a03f48),
      (0x72756f466f7754656e4f676e6974736554,
        0x3e1d3a7893644da2e9e09283fb5f273f1d15c343b22a6a61472679337daf3b81 +
          2 ^ 256 * 0x39285051032f3eb45c48de8d4718b805a14130c740090c0d2762be50aff3e263)]
    dkLen pass
  SHA256 := ofTable sampleSHA256 32
  RIPEMD160 := ofTable sampleRIPEMD160 20
  secp256k1_ec_pubkey_create seckey _ :=
    if seckey = sampleKey then
      some (writeLE 33 0xe36c9601b56c3db4a2309e326b101cb4bafc234ef21115b1f5c6ed01d83ced202)
    else if seckey = otherKey then
      some (writeLE 33 0x148a22d0292dbd96b977e32d6ee6208aa0e228a8c8e469de63886303b03fd70f03)
    else none
  secp256k1_ec_privkey_tweak_mul _ _ := none
  PUBKEY_ADDRESS := [25]

theorem sampleLib_aes (key : BitVec 256) (block : BitVec 128) :
    sampleLib.AES_decrypt key (sampleLib.AES_encrypt key block) = block :=
  (sampleAES key).symm_apply_apply block

/-- The key as it is written under the first passphrase. -/
def sampleText : List Char := (encodeBase58 (writeLE 43
    0xaf80c319edbf7bcfbf70d864f0cf8ca892a5bbad7bd74bc31cb2984a6bb8b9d68ef74745e04201)).getD []

theorem bip38_recovers_sample :
    (∃ str, sampleLib.bip38Encrypt sampleAddress samplePassphrase sampleKey = some str ∧
      sampleLib.bip38Decrypt samplePassphrase str 0 false = some (true, sampleKey, true)) ∧
    sampleLib.Sound samplePassphrase sampleText := by
  obtain ⟨hkey, hsound⟩ := bip38_recovers sampleLib_aes
  refine ⟨hkey sampleAddress samplePassphrase sampleKey 0 false,
    (hsound samplePassphrase sampleText).mpr fun _ => ⟨sampleKey, sampleAddress, ?_, ?_, ?_⟩⟩
  · decide +kernel
  · decide +kernel
  · decide +kernel

/-- Under the other passphrase another key is returned. -/
theorem sampleText_not_sound : ¬ ∀ C : CryptoLib,
    (∀ key block, C.AES_decrypt key (C.AES_encrypt key block) = block) →
    ∀ strPassphrase strEncryptedKey, C.Sound strPassphrase strEncryptedKey := by
  intro h
  have hret : sampleLib.bip38Decrypt otherPassphrase sampleText 0 false =
      some (true, otherKey, true) := by decide +kernel
  obtain ⟨address, haddress, hhash⟩ :=
    h sampleLib sampleLib_aes otherPassphrase sampleText 0 false _ _ hret
  have hother : (sampleLib.keyAddress otherKey true).map sampleLib.addressToBip38Hash ≠
      some (substr (strKeyOf sampleText) 6 8) := by decide +kernel
  rw [haddress, Option.map_some, hhash] at hother
  exact hother rfl

end CryptoLib

end BitBlocks
