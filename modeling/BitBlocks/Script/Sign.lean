import BitBlocks.Script.SignatureHash
import BitBlocks.Script.Standard

/-!
# Signing an input (`script/sign.cpp`)

`SignSignature` puts together what satisfies the script of a coin: signatures, a key where the
script only has its hash, the redeem script where it only has that one's. The elliptic curve is
not modelled. `CKey::Sign` is given room for 72 bytes and shrinks it to what was written.
-/

namespace BitBlocks

/-- `CKeyStore`. `AddCScript` refuses a redeem script that could not be pushed. -/
structure CKeyStore (Key : Type) where
  getKey : Uint160 → Option Key
  getPubKey : Uint160 → Option { vchPubKey : Valtype // vchPubKey.length ≤ 65 }
  getCScript : Uint160 → Option { script : CScript // script.length ≤ MAX_SCRIPT_ELEMENT_SIZE }

/-- The hash functions, and the two operations of the curve. -/
structure Signer (Key : Type) where
  env : ScriptEnv
  /-- `CKey::Sign`. -/
  sign : Key → Valtype → Option { vchSig : Valtype // vchSig.length ≤ 72 }
  /-- `CPubKey::Verify`. -/
  verify : Valtype → Valtype → Valtype → Bool

/-- `uint160` of a vector of that size, as the hashes `Solver` hands over are. -/
def toUint160 (vch : Valtype) : Uint160 :=
  if h : vch.length = 20 then ⟨vch, h⟩ else ⟨List.replicate 20 0, length_zero160⟩

namespace Signer

def MANDATORY_SCRIPT_VERIFY_FLAGS : UInt32 := SCRIPT_VERIFY_P2SH

def STANDARD_SCRIPT_VERIFY_FLAGS : UInt32 :=
  MANDATORY_SCRIPT_VERIFY_FLAGS ||| SCRIPT_VERIFY_DERSIG ||| SCRIPT_VERIFY_STRICTENC |||
    SCRIPT_VERIFY_MINIMALDATA ||| SCRIPT_VERIFY_NULLDUMMY |||
    SCRIPT_VERIFY_DISCOURAGE_UPGRADABLE_NOPS

variable {Key : Type} (G : Signer Key) (keystore : CKeyStore Key)

/-- `CPubKey(vch).GetID()`; a key that is not valid has no bytes. -/
def pubKeyID (vch : Valtype) : Uint160 := G.env.hash160 (if CPubKey.isValid vch then vch else [])

/-- `Sign1`: the script with the signature pushed on, if there is a key. -/
def sign1 (address : Uint160) (hash : Valtype) (nHashType : UInt8) (scriptSigRet : CScript) :
    Option CScript :=
  match keystore.getKey address with
  | none => none
  | some key =>
    match G.sign key hash with
    | none => none
    | some vchSig => some (scriptSigRet ++ CScript.push (vchSig.1 ++ [nHashType]))

/-- The loop of `SignN` over the keys. -/
def signNLoop (hash : Valtype) (nHashType : UInt8) (nRequired : Nat) :
    List Valtype → Nat → CScript → Nat × CScript
  | [], nSigned, scriptSigRet => (nSigned, scriptSigRet)
  | pubkey :: multisigdata, nSigned, scriptSigRet =>
    if nSigned < nRequired then
      match G.sign1 keystore (G.pubKeyID pubkey) hash nHashType scriptSigRet with
      | some scriptSigRet => signNLoop hash nHashType nRequired multisigdata (nSigned + 1)
        scriptSigRet
      | none => signNLoop hash nHashType nRequired multisigdata nSigned scriptSigRet
    else (nSigned, scriptSigRet)

/-- `SignN`. -/
def signN (multisigdata : List Valtype) (hash : Valtype) (nHashType : UInt8)
    (scriptSigRet : CScript) : Option CScript :=
  let nRequired := CScript.firstNumber multisigdata
  let (nSigned, scriptSigRet) :=
    G.signNLoop keystore hash nHashType nRequired (multisigdata.tail.dropLast) 0 scriptSigRet
  if nSigned = nRequired then some scriptSigRet else none

/-- `Solver` with a key store: what satisfies the script, and its type. -/
def solve (scriptPubKey : CScript) (hash : Valtype) (nHashType : UInt8) :
    Option (CScript × TxnOutType) :=
  match scriptPubKey.solver with
  | none => none
  | some (.nonstandard, _) => none
  | some (.nullData, _) => none
  | some (.pubkey, vSolutions) =>
    (G.sign1 keystore (G.pubKeyID (vSolutions.headD [])) hash nHashType []).map (·, .pubkey)
  | some (.pubkeyhash, vSolutions) =>
    let keyID := toUint160 (vSolutions.headD [])
    (G.sign1 keystore keyID hash nHashType []).map fun scriptSigRet =>
      (scriptSigRet ++ CScript.push ((keystore.getPubKey keyID).elim [] Subtype.val), .pubkeyhash)
  | some (.scripthash, vSolutions) =>
    (keystore.getCScript (toUint160 (vSolutions.headD []))).map fun script =>
      (script.1, .scripthash)
  | some (.multisig, vSolutions) =>
    -- workaround CHECKMULTISIG bug
    (G.signN keystore vSolutions hash nHashType [OP_0]).map (·, .multisig)

/-- The signature script of an input, before it is tested. -/
def produce (fromPubKey : CScript) (txTo : CTransaction) (nIn : Nat) (nHashType : UInt8) :
    Option CScript :=
  match G.solve keystore fromPubKey (signatureHash G.env fromPubKey txTo nIn nHashType.toNat)
      nHashType with
  | none => none
  | some (scriptSig, whichType) =>
    if whichType = .scripthash then
      -- the script of the coin is that of the redeem script
      let subscript := scriptSig
      match G.solve keystore subscript (signatureHash G.env subscript txTo nIn nHashType.toNat)
          nHashType with
      | none => none
      | some (scriptSig, subType) =>
        if subType = .scripthash then none else some (scriptSig ++ CScript.push subscript)
    else some scriptSig

/-- `SignSignature`: the transaction with the input signed. -/
def signSignature (fromPubKey : CScript) (txTo : CTransaction) (nIn : Nat) (nHashType : UInt8) :
    Option CTransaction :=
  match G.produce keystore fromPubKey txTo nIn nHashType with
  | none => none
  | some scriptSig =>
    let txTo := { txTo with vin := txTo.vin.modify nIn fun txin => { txin with scriptSig } }
    match (verifyScript (G.env.checker G.verify STANDARD_SCRIPT_VERIFY_FLAGS txTo nIn)
        scriptSig fromPubKey).1 with
    | .ok _ => some txTo
    | .error _ => none

/-! ## What a signature script is made of -/

variable {G keystore} {hash : Valtype} {nHashType : UInt8}

/-- Pushes of `n` signatures at most, behind `values`. -/
structure Signed (values : List Valtype) (n : Nat) (scriptSig : CScript) : Prop where
  pushes : ∃ sigs : List Valtype, scriptSig = CScript.pushAll (values ++ sigs) ∧
    sigs.length ≤ n ∧ ∀ sig ∈ sigs, sig.length ≤ 73

variable {address : Uint160} {scriptSig script : CScript} {values : List Valtype}

theorem sign1_signed {scriptSigRet : CScript} {n : Nat} (hs : Signed values n scriptSig)
    (h : G.sign1 keystore address hash nHashType scriptSig = some scriptSigRet) :
    Signed values (n + 1) scriptSigRet := by
  unfold sign1 at h
  split at h
  · exact absurd h (by simp)
  split at h
  · exact absurd h (by simp)
  rename_i vchSig _
  obtain ⟨sigs, rfl, hlen, hsize⟩ := hs.pushes
  obtain rfl := Option.some.inj h
  refine ⟨sigs ++ [vchSig.1 ++ [nHashType]], ?_, ?_, ?_⟩
  · simp [CScript.pushAll]
  · rw [List.length_append, List.length_singleton]
    omega
  · intro sig hsig
    rcases List.mem_append.mp hsig with hsig | hsig
    · exact hsize sig hsig
    · obtain rfl := List.mem_singleton.mp hsig
      have := vchSig.2
      rw [List.length_append, List.length_singleton]
      omega

theorem signNLoop_signed {nRequired : Nat} {values : List Valtype} :
    ∀ (multisigdata : List Valtype) (nSigned : Nat) (scriptSig : CScript), nSigned ≤ nRequired →
      Signed values nSigned scriptSig →
      (G.signNLoop keystore hash nHashType nRequired multisigdata nSigned scriptSig).1 ≤ nRequired ∧
        Signed values
          (G.signNLoop keystore hash nHashType nRequired multisigdata nSigned scriptSig).1
          (G.signNLoop keystore hash nHashType nRequired multisigdata nSigned scriptSig).2 := by
  intro multisigdata
  induction multisigdata with
  | nil => exact fun nSigned scriptSig hle hs => ⟨hle, hs⟩
  | cons pubkey multisigdata ih =>
    intro nSigned scriptSig hle hs
    rw [signNLoop]
    split
    · rename_i hlt
      split
      · rename_i scriptSigRet hsign
        exact ih (nSigned + 1) scriptSigRet hlt (sign1_signed hs hsign)
      · exact ih nSigned scriptSig hle hs
    · exact ⟨hle, hs⟩

/-- A signature script as `SignSignature` makes it of a script: short pushes, and no more of
them than a script of this length asks for. -/
structure Satisfies (script scriptSig : CScript) (values : List Valtype) (n : Nat) : Prop where
  pushes : scriptSig = CScript.pushAll values
  short : ∀ b ∈ values, b.length ≤ 73
  length : scriptSig.length ≤ 1 + 74 * n
  few : n ≤ 16
  keys : n ≤ 2 ∨ 34 * n + 2 ≤ script.length

theorem length_pushAll (h : ∀ b ∈ values, b.length ≤ 73) :
    (CScript.pushAll values).length ≤ 74 * values.length := by
  induction values with
  | nil => exact Nat.le_refl _
  | cons b values ih =>
    have hb := h b List.mem_cons_self
    have hpush := CScript.length_push (b := b) (by omega)
    have hrest := ih fun b' hb' => h b' (List.mem_cons_of_mem _ hb')
    rw [CScript.pushAll] at hrest ⊢
    rw [List.flatMap_cons, List.length_append, List.length_cons]
    omega

theorem sign1_nil (h : G.sign1 keystore address hash nHashType [] = some scriptSig) :
    Signed [] 1 scriptSig :=
  sign1_signed (n := 0) ⟨[], rfl, Nat.le_refl _, fun _ h => absurd h List.not_mem_nil⟩ h

theorem solve_satisfies {whichType : TxnOutType}
    (h : G.solve keystore script hash nHashType = some (scriptSig, whichType))
    (hp2sh : whichType ≠ .scripthash) : ∃ values n, Satisfies script scriptSig values n := by
  unfold solve at h
  split at h
  · exact absurd h (by simp)
  · exact absurd h (by simp)
  · exact absurd h (by simp)
  · obtain ⟨scriptSig', hsign, heq⟩ := Option.map_eq_some_iff.mp h
    obtain ⟨rfl, rfl⟩ := Prod.mk.inj heq
    obtain ⟨sigs, rfl, hlen, hsize⟩ := (sign1_nil hsign).pushes
    have hbytes := length_pushAll hsize
    exact ⟨sigs, 1, rfl, hsize, by rw [List.nil_append]; omega, by omega, .inl (by omega)⟩
  · obtain ⟨scriptSig', hsign, heq⟩ := Option.map_eq_some_iff.mp h
    obtain ⟨rfl, rfl⟩ := Prod.mk.inj heq
    obtain ⟨sigs, rfl, hlen, hsize⟩ := (sign1_nil hsign).pushes
    rename_i vSolutions _
    -- the key goes behind the signature
    generalize hkey : (keystore.getPubKey (toUint160 (vSolutions.headD []))).elim [] Subtype.val =
      vchPubKey
    have hshort : vchPubKey.length ≤ 65 := by
      rw [← hkey]
      cases keystore.getPubKey (toUint160 (vSolutions.headD [])) with
      | none => exact Nat.zero_le _
      | some vchPubKey => exact vchPubKey.2
    have hall : ∀ b ∈ sigs ++ [vchPubKey], b.length ≤ 73 := by
      intro b hb
      rcases List.mem_append.mp hb with hb | hb
      · exact hsize b hb
      · obtain rfl := List.mem_singleton.mp hb
        omega
    have hpushes : CScript.pushAll ([] ++ sigs) ++ CScript.push vchPubKey =
        CScript.pushAll (sigs ++ [vchPubKey]) := by simp [CScript.pushAll]
    have hbytes := length_pushAll hall
    rw [List.length_append, List.length_singleton] at hbytes
    refine ⟨sigs ++ [vchPubKey], 2, hpushes, hall, ?_, by omega, .inl (by omega)⟩
    rw [hpushes]
    omega
  · obtain ⟨script', -, heq⟩ := Option.map_eq_some_iff.mp h
    obtain ⟨-, rfl⟩ := Prod.mk.inj heq
    exact absurd rfl hp2sh
  · rename_i vSolutions hsolver
    obtain ⟨scriptSig', hsign, heq⟩ := Option.map_eq_some_iff.mp h
    obtain ⟨rfl, rfl⟩ := Prod.mk.inj heq
    have hstart : Signed [[]] 0 [OP_0] :=
      ⟨[], rfl, Nat.le_refl _, fun _ h => absurd h List.not_mem_nil⟩
    have hloop := @signNLoop_signed _ G keystore hash nHashType (CScript.firstNumber vSolutions) _
      vSolutions.tail.dropLast 0 _ (Nat.zero_le _) hstart
    unfold signN at hsign
    dsimp only at hsign
    split at hsign
    swap
    · exact absurd hsign (by simp)
    rename_i hcount
    rw [hcount, Option.some.inj hsign] at hloop
    obtain ⟨sigs, rfl, hlen, hsize⟩ := hloop.2.pushes
    obtain ⟨h16, hkeys⟩ := CScript.solver_multisig hsolver
    have hbytes := length_pushAll hsize
    have hfirst : (CScript.pushAll ([[]] ++ sigs)).length = 1 + (CScript.pushAll sigs).length := by
      simp [CScript.pushAll, CScript.length_push]
    refine ⟨[[]] ++ sigs, CScript.firstNumber vSolutions, rfl, ?_, by omega, h16, .inr hkeys⟩
    intro b hb
    rcases List.mem_append.mp hb with hb | hb
    · obtain rfl := List.mem_singleton.mp hb
      exact Nat.zero_le _
    · exact hsize b hb

theorem solve_redeem {redeemScript : CScript}
    (h : G.solve keystore script hash nHashType = some (redeemScript, .scripthash)) :
    redeemScript.length ≤ MAX_SCRIPT_ELEMENT_SIZE := by
  unfold solve at h
  split at h
  · exact absurd h (by simp)
  · exact absurd h (by simp)
  · exact absurd h (by simp)
  · obtain ⟨_, -, heq⟩ := Option.map_eq_some_iff.mp h
    exact absurd (Prod.mk.inj heq).2 (by simp)
  · obtain ⟨_, -, heq⟩ := Option.map_eq_some_iff.mp h
    exact absurd (Prod.mk.inj heq).2 (by simp)
  · obtain ⟨script', -, heq⟩ := Option.map_eq_some_iff.mp h
    obtain ⟨rfl, -⟩ := Prod.mk.inj heq
    exact script'.2
  · obtain ⟨_, -, heq⟩ := Option.map_eq_some_iff.mp h
    exact absurd (Prod.mk.inj heq).2 (by simp)

/--
**What is signed is standard**: a signature script only pushes, and it is never longer than
the 1650 bytes that a pay-to-script-hash input with 15 keys is given.
-/
theorem produce_standard {fromPubKey : CScript} {txTo : CTransaction} {nIn : Nat}
    (h : G.produce keystore fromPubKey txTo nIn nHashType = some scriptSig) :
    scriptSig.isPushOnly = true ∧ scriptSig.length ≤ 1650 := by
  unfold produce at h
  split at h
  · exact absurd h (by simp)
  rename_i scriptSig1 whichType hsolve
  split at h
  · rename_i hp2sh
    subst hp2sh
    have hredeem := solve_redeem hsolve
    dsimp only at h
    split at h
    · exact absurd h (by simp)
    rename_i scriptSig2 subType hsub
    split at h
    · exact absurd h (by simp)
    rename_i hsubType
    obtain rfl := Option.some.inj h
    obtain ⟨values, n, hs⟩ := solve_satisfies hsub hsubType
    have hmax : MAX_SCRIPT_ELEMENT_SIZE = 520 := rfl
    have hall : CScript.pushAll values ++ CScript.push scriptSig1 =
        CScript.pushAll (values ++ [scriptSig1]) := by simp [CScript.pushAll]
    have hbytes : (scriptSig2 ++ CScript.push scriptSig1).length ≤ 1650 := by
      have hpush := CScript.length_push_le scriptSig1 (by omega)
      have hlen := hs.length
      have hkeys := hs.keys
      rw [List.length_append]
      omega
    refine ⟨?_, hbytes⟩
    rw [hs.pushes, hall] at hbytes ⊢
    refine CScript.isPushOnly_pushAll (fun b hb => ?_) (by omega)
    rcases List.mem_append.mp hb with hb | hb
    · have := hs.short b hb
      omega
    · obtain rfl := List.mem_singleton.mp hb
      omega
  · rename_i hp2sh
    obtain rfl := Option.some.inj h
    obtain ⟨values, n, hs⟩ := solve_satisfies hsolve hp2sh
    have hlen := hs.length
    have hfew := hs.few
    refine ⟨?_, by omega⟩
    rw [hs.pushes] at hlen ⊢
    exact CScript.isPushOnly_pushAll (fun b hb => (hs.short b hb).trans (by decide)) (by omega)

end Signer

end BitBlocks
