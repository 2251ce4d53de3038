import BitBlocks.Script.Sign
import BitBlocks.Validation.CheckBlock

/-!
# Who signs a block, and who accepts it

`SignBlock` and `CheckBlockSignature` are two case analyses over the same scripts. The staker
looks for the key of an output; the verifier takes what the script holds for that key. A script
that pays to the hash of a key holds no key, and the verifier does not get one from elsewhere.
-/

namespace BitBlocks

open Checks

/-- `CKeyID(uint160(vch))`; the constructor throws if the vector has another size. -/
def Uint160.ofVector (vch : Valtype) : Except Fail Uint160 :=
  if h : vch.length = 20 then .ok ⟨vch, h⟩ else .error .exception

namespace Signer

variable {Key : Type} (G : Signer Key) (keystore : CKeyStore Key)

/-- The key of an address signs the hash of the block, if there is one. -/
def signWith (R : Rules) (keyID : Uint160) (block : CBlock) : CBlock × Bool :=
  match keystore.getKey keyID with
  | none => (block, false)
  | some key =>
    match G.sign key (CompactSize.writeLE 32 (R.getHash block.toCBlockHeader)) with
    | none => (block, false)
    | some vchSig => ({ block with vchBlockSig := vchSig.1 }, true)

/-- The loop over the outputs of the coinbase: the first that pays to a key decides. -/
def signOutputs (R : Rules) (block : CBlock) : List CTxOut → Except Fail (CBlock × Bool)
  | [] => .ok (block, false)
  | txout :: vout =>
    match txout.scriptPubKey.solver with
    | some (.pubkey, vSolutions) => do
      let keyID ← Uint160.ofVector (vSolutions.headD [])
      .ok (G.signWith keystore R keyID block)
    | _ => signOutputs R block vout

/-- `CBlock::SignBlock`: the block as it is afterwards, and what is returned. -/
def signBlock (R : Rules) (block : CBlock) : Except Fail (CBlock × Bool) :=
  if !block.isProofOfStake then do
    let tx0 ← at? .outOfRange block.vtx 0
    G.signOutputs keystore R block tx0.vout
  else do
    let tx1 ← at? .outOfRange block.vtx 1
    let txout ← at? .outOfRange tx1.vout 1
    match txout.scriptPubKey.solver with
    | none => .ok (block, false)
    | some (.pubkeyhash, vSolutions) => do
      let keyID ← Uint160.ofVector (vSolutions.headD [])
      .ok (G.signWith keystore R keyID block)
    | some (.pubkey, vSolutions) =>
      .ok (G.signWith keystore R (G.pubKeyID (vSolutions.headD [])) block)
    | some _ => .ok (block, false)

/-- `CPubKey(vchPubKey)` has to be valid, there has to be a signature, and it has to verify. -/
def verifyWith (vchPubKey : Valtype) (hash : Uint256) (vchBlockSig : Valtype) : Bool :=
  if !CPubKey.isValid vchPubKey then false
  else if vchBlockSig.isEmpty then false
  else G.verify vchPubKey (CompactSize.writeLE 32 hash) vchBlockSig

/-- What `CheckBlockSignature` makes of the script of the staked output. -/
def verifyBlockSig (scriptPubKey : CScript) (hash : Uint256) (vchBlockSig : Valtype) : Bool :=
  match scriptPubKey.solver with
  | none => false
  | some (.pubkey, vSolutions) => G.verifyWith (vSolutions.headD []) hash vchBlockSig
  -- the key id is computed and not used: the hash itself is taken for a key
  | some (.pubkeyhash, vSolutions) => G.verifyWith (vSolutions.headD []) hash vchBlockSig
  | some _ => false

def rules (R : Rules) : Rules := { R with verifyBlockSig := G.verifyBlockSig }

/-! ## What is assumed of keys -/

/-- Keys of a curve, with their public keys, and hashes nobody finds two keys for. -/
structure Genuine (getPubKey : Key → Valtype) : Prop where
  /-- `CKey::GetPubKey` asserts it. -/
  valid : ∀ key, CPubKey.isValid (getPubKey key) = true
  verifies : ∀ key hash vchSig, G.sign key hash = some vchSig →
    G.verify (getPubKey key) hash vchSig.1 = true
  /-- `CPubKey::Verify` refuses a signature without bytes. -/
  verify_empty : ∀ vchPubKey hash, G.verify vchPubKey hash [] = false
  collisionFree : ∀ key vch, G.env.hash160 (getPubKey key) = G.env.hash160 vch → getPubKey key = vch

/-- `CKeyStore::AddKey` files a key under the id of its public key. -/
def Filed (getPubKey : Key → Valtype) : Prop :=
  ∀ keyID key, keystore.getKey keyID = some key → G.pubKeyID (getPubKey key) = keyID

/-! ## Signing -/

variable {G keystore} {R : Rules} {block block' : CBlock} {getPubKey : Key → Valtype}

theorem signWith_true {keyID : Uint160} (h : G.signWith keystore R keyID block = (block', true)) :
    ∃ key vchSig, keystore.getKey keyID = some key ∧
      G.sign key (CompactSize.writeLE 32 (R.getHash block.toCBlockHeader)) = some vchSig ∧
      block' = { block with vchBlockSig := vchSig.1 } := by
  unfold signWith at h
  split at h
  · exact absurd (Prod.mk.inj h).2 (by simp)
  rename_i key hkey
  split at h
  · exact absurd (Prod.mk.inj h).2 (by simp)
  rename_i vchSig hsig
  exact ⟨key, vchSig, hkey, hsig, (Prod.mk.inj h).1.symm⟩

/-- **No proof-of-work block is signed**: the loop takes a key for a hash, which throws. -/
theorem signOutputs_false {vout : List CTxOut} :
    G.signOutputs keystore R block vout ≠ .ok (block', true) := by
  induction vout with
  | nil =>
    intro h
    exact absurd (Prod.mk.inj (Except.ok.inj h)).2 (by simp)
  | cons txout vout ih =>
    rw [signOutputs]
    split
    · rename_i vSolutions hsolver
      obtain ⟨vchPubKey, rfl, hlow, -⟩ := CScript.solver_pubkey hsolver
      have hthrow : Uint160.ofVector vchPubKey = .error .exception :=
        dif_neg (show ¬ vchPubKey.length = 20 by omega)
      rw [List.headD_cons, hthrow]
      intro h
      exact absurd h (by simp)
    · exact ih

/-- The output whose script says who signs a proof-of-stake block. -/
def stakedOutput (block : CBlock) : Option CTxOut := block.vtx[1]?.bind fun tx => tx.vout[1]?

theorem signBlock_true (h : G.signBlock keystore R block = .ok (block', true)) :
    block.isProofOfStake = true ∧ ∃ txout, stakedOutput block = some txout ∧
      ((∃ vchPubKey, txout.scriptPubKey.solver = some (.pubkey, [vchPubKey]) ∧
          G.signWith keystore R (G.pubKeyID vchPubKey) block = (block', true)) ∨
        ∃ keyID : Uint160, txout.scriptPubKey.solver = some (.pubkeyhash, [keyID.1]) ∧
          G.signWith keystore R keyID block = (block', true)) := by
  unfold signBlock at h
  split at h
  · obtain ⟨tx0, -, h⟩ := bind_eq_ok.mp h
    exact absurd h signOutputs_false
  rename_i hstake
  obtain ⟨tx1, htx, h⟩ := bind_eq_ok.mp h
  obtain ⟨txout, hout, h⟩ := bind_eq_ok.mp h
  have hstaked : stakedOutput block = some txout := by
    rw [stakedOutput, at?_eq_ok.mp htx]
    exact at?_eq_ok.mp hout
  refine ⟨by simpa using hstake, txout, hstaked, ?_⟩
  split at h
  · exact absurd (Prod.mk.inj (Except.ok.inj h)).2 (by simp)
  · rename_i vSolutions hsolver
    obtain ⟨keyID, rfl⟩ := CScript.solver_pubkeyhash hsolver
    have hid : Uint160.ofVector keyID.1 = .ok keyID := dif_pos keyID.2
    rw [List.headD_cons, hid] at h
    exact .inr ⟨keyID, hsolver, Except.ok.inj h⟩
  · rename_i vSolutions hsolver
    obtain ⟨vchPubKey, rfl, -⟩ := CScript.solver_pubkey hsolver
    exact .inl ⟨vchPubKey, hsolver, Except.ok.inj h⟩
  · exact absurd (Prod.mk.inj (Except.ok.inj h)).2 (by simp)

/-! ## Verifying -/

theorem checkBlockSignature_staked {txout : CTxOut} (hstake : block.isProofOfStake = true)
    (hout : stakedOutput block = some txout) (vchBlockSig : Valtype) :
    checkBlockSignature (G.rules R) { block with vchBlockSig := vchBlockSig } =
      .ok (G.verifyBlockSig txout.scriptPubKey (R.getHash block.toCBlockHeader) vchBlockSig) := by
  obtain ⟨tx1, htx, hvout⟩ := Option.bind_eq_some_iff.mp hout
  have hpow : CBlock.isProofOfWork { block with vchBlockSig := vchBlockSig } = false := by
    show (!block.isProofOfStake) = false
    rw [hstake]
    rfl
  rw [checkBlockSignature, if_neg (by rw [hpow]; simp)]
  refine bind_eq_ok.mpr ⟨tx1, at?_eq_ok.mpr htx, bind_eq_ok.mpr ⟨txout, at?_eq_ok.mpr hvout, rfl⟩⟩

/-- The signature of the key that is filed under the id of a public key is one of that key's. -/
theorem verifyWith_signed (hG : G.Genuine getPubKey) (hstore : G.Filed keystore getPubKey)
    {vchPubKey : Valtype} {hash : Uint256} {key : Key}
    {vchSig : { vchSig : Valtype // vchSig.length ≤ 72 }}
    (hkey : keystore.getKey (G.pubKeyID vchPubKey) = some key)
    (hsig : G.sign key (CompactSize.writeLE 32 hash) = some vchSig) :
    G.verifyWith vchPubKey hash vchSig.1 = true := by
  have hid := hstore _ key hkey
  rw [pubKeyID, pubKeyID, if_pos (hG.valid key)] at hid
  have hpub := hG.collisionFree key _ hid
  have hvalid : CPubKey.isValid vchPubKey = true := by
    by_contra hnot
    rw [if_neg hnot] at hpub
    have := hG.valid key
    rw [hpub] at this
    exact absurd this (by simp [CPubKey.isValid])
  rw [if_pos hvalid] at hpub
  have hverify := hG.verifies key _ vchSig hsig
  rw [hpub] at hverify
  have hsome : vchSig.1.isEmpty = false := by
    rw [List.isEmpty_eq_false_iff]
    intro hempty
    rw [hempty, hG.verify_empty] at hverify
    exact absurd hverify (by simp)
  rw [verifyWith, hvalid, hsome]
  exact hverify

theorem verifyWith_hash (keyID : Uint160) (hash : Uint256) (vchBlockSig : Valtype) :
    G.verifyWith keyID.1 hash vchBlockSig = false := by
  have hinvalid : CPubKey.isValid keyID.1 = false := by
    unfold CPubKey.isValid
    split
    · rfl
    · rw [keyID.2, CPubKey.getLen]
      split_ifs <;> rfl
  rw [verifyWith, hinvalid]
  rfl

variable (G keystore R) in
/-- The staked output pays to the hash of a key, and the key is there to sign. -/
def StakesHash (block : CBlock) : Prop :=
  block.isProofOfStake = true ∧ ∃ txout keyID key, stakedOutput block = some txout ∧
    txout.scriptPubKey.solver = some (.pubkeyhash, [keyID.1]) ∧
    keystore.getKey keyID = some key ∧
    (G.sign key (CompactSize.writeLE 32 (R.getHash block.toCBlockHeader))).isSome

theorem StakesHash.signed (h : G.StakesHash keystore R block) : ∃ vchSig : Valtype,
      G.signBlock keystore R block = .ok ({ block with vchBlockSig := vchSig }, true) ∧
      checkBlockSignature (G.rules R) { block with vchBlockSig := vchSig } = .ok false := by
  obtain ⟨hstake, txout, keyID, key, hout, hsolver, hkey, hsome⟩ := h
  obtain ⟨vchSig, hsig⟩ := Option.isSome_iff_exists.mp hsome
  obtain ⟨tx1, htx, hvout⟩ := Option.bind_eq_some_iff.mp hout
  have hid : Uint160.ofVector keyID.1 = .ok keyID := dif_pos keyID.2
  refine ⟨vchSig.1, ?_, ?_⟩
  · rw [signBlock, if_neg (by simp [hstake])]
    refine bind_eq_ok.mpr ⟨tx1, at?_eq_ok.mpr htx, bind_eq_ok.mpr ⟨txout, at?_eq_ok.mpr hvout, ?_⟩⟩
    rw [hsolver]
    dsimp only
    rw [List.headD_cons, hid]
    refine bind_eq_ok.mpr ⟨keyID, rfl, ?_⟩
    rw [signWith, hkey]
    dsimp only
    rw [hsig]
  · rw [checkBlockSignature_staked hstake hout, verifyBlockSig, hsolver]
    dsimp only
    rw [List.headD_cons, verifyWith_hash]

/--
**A block that was signed verifies, unless it stakes to the hash of a key.** Then it is signed
if the key is there, and no node accepts it.
-/
theorem signed_verifies_iff (hG : G.Genuine getPubKey) (hstore : G.Filed keystore getPubKey)
    (R : Rules) (block : CBlock) :
    (∀ block', G.signBlock keystore R block = .ok (block', true) →
        checkBlockSignature (G.rules R) block' = .ok true) ↔
      ¬ G.StakesHash keystore R block := by
  constructor
  · intro h hhash
    obtain ⟨vchSig, hsign, hcheck⟩ := hhash.signed
    rw [h _ hsign] at hcheck
    exact absurd (Except.ok.inj hcheck) (by simp)
  · intro hnot block' hsign
    obtain ⟨hstake, txout, hout, ⟨vchPubKey, hsolver, hwith⟩ | ⟨keyID, hsolver, hwith⟩⟩ :=
      signBlock_true hsign
    · obtain ⟨key, vchSig, hkey, hsig, rfl⟩ := signWith_true hwith
      rw [checkBlockSignature_staked hstake hout, verifyBlockSig, hsolver]
      dsimp only
      rw [List.headD_cons, verifyWith_signed hG hstore hkey hsig]
    · obtain ⟨key, vchSig, hkey, hsig, -⟩ := signWith_true hwith
      exact absurd ⟨hstake, txout, keyID, key, hout, hsolver, hkey, by rw [hsig]; rfl⟩ hnot

/-! ## A staker -/

def stakerKey : Valtype := 2 :: List.replicate 32 7

def stakerID : Uint160 := ⟨List.replicate 20 1, rfl⟩

/-- There is one key, and its signatures are all alike. -/
def staker : Signer Unit where
  env := { ScriptEnv.idle 0 with
    hash160 := fun vch =>
      if vch = stakerKey then stakerID else ⟨List.replicate 20 0, length_zero160⟩ }
  sign _ _ := some ⟨[9], by decide⟩
  verify vchPubKey _ vchSig := vchPubKey == stakerKey && vchSig == [9]

def stakerStore : CKeyStore Unit where
  getKey keyID := if keyID = stakerID then some () else none
  getPubKey _ := none
  getCScript _ := none

theorem genuine_staker : staker.Genuine fun _ => stakerKey where
  valid _ := by decide
  verifies _ _ vchSig h := by
    obtain rfl := Option.some.inj h
    rfl
  verify_empty _ _ := by simp [staker]
  collisionFree _ vch h := by
    by_contra hne
    have h1 : staker.env.hash160 stakerKey = stakerID := rfl
    have h2 : staker.env.hash160 vch = ⟨List.replicate 20 0, length_zero160⟩ :=
      if_neg fun heq => hne heq.symm
    rw [h1, h2] at h
    exact absurd h (by decide)

theorem filed_staker : staker.Filed stakerStore fun _ => stakerKey := by
  intro keyID key h
  by_cases hid : keyID = stakerID
  · rw [hid]
    rfl
  · have hnone : stakerStore.getKey keyID = none := if_neg hid
    rw [hnone] at h
    exact absurd h (by simp)

/-- A coinstake whose second output has the given script. -/
def stakedBlock (scriptPubKey : CScript) : CBlock where
  nVersion := 3
  hashPrevBlock := 0
  hashMerkleRoot := 0
  nTime := 0
  nBits := 0
  nNonce := 5
  vtx := [{ hash := 1, vin := [⟨.null, [], 0⟩], vout := [⟨0, [], -10⟩] },
    { hash := 2, vin := [⟨⟨7, 0⟩, [], 0⟩], vout := [⟨0, [], -10⟩, ⟨100, scriptPubKey, -10⟩] }]

/-- A stake that pays to the key is signed, and accepted. -/
theorem signed_verifies_iff_key : ∃ block', staker.signBlock stakerStore .transparent
        (stakedBlock (33 :: stakerKey ++ [OP_CHECKSIG])) = .ok (block', true) ∧
      checkBlockSignature (staker.rules .transparent) block' = .ok true := by
  refine ⟨_, rfl, (signed_verifies_iff genuine_staker filed_staker .transparent
    (stakedBlock (33 :: stakerKey ++ [OP_CHECKSIG]))).mpr ?_ _ rfl⟩
  rintro ⟨-, txout, keyID, key, hout, hsolver, -⟩
  obtain rfl : ⟨100, 33 :: stakerKey ++ [OP_CHECKSIG], -10⟩ = txout := Option.some.inj hout
  have hpays : CScript.solver (33 :: stakerKey ++ [OP_CHECKSIG]) = some (.pubkey, [stakerKey]) :=
    rfl
  rw [hpays] at hsolver
  exact absurd (congrArg Prod.fst (Option.some.inj hsolver)) (by simp)

/-- A stake that pays to the hash of the key is signed, and refused. -/
theorem hash_stake_is_refused : ∃ block', staker.signBlock stakerStore .transparent
        (stakedBlock (scriptForDestination (.keyID stakerID))) = .ok (block', true) ∧
      checkBlockSignature (staker.rules .transparent) block' = .ok false := ⟨_, rfl, rfl⟩

end Signer

end BitBlocks
