import BitBlocks.Script.SigOps

/-!
# Standard scripts (`script/standard.cpp`)

`Solver` recognises a script by a template and returns what fills the gaps: keys, a hash,
small numbers. A template is its opcodes, four of which stand for a gap and are no opcodes of
a script. None of them pushes data.
-/

namespace BitBlocks

/-- A `uint160`: the hash of a key or of a script. -/
abbrev Uint160 := { v : Valtype // v.length = 20 }

inductive TxnOutType where
  | nonstandard
  | pubkey
  | pubkeyhash
  | scripthash
  | multisig
  | nullData
  deriving DecidableEq, Repr

inductive CTxDestination where
  | noDestination
  | keyID (keyID : Uint160)
  | scriptID (scriptID : Uint160)
  deriving DecidableEq

def OP_SMALLINTEGER : UInt8 := 0xfa
def OP_PUBKEYS : UInt8 := 0xfb
def OP_PUBKEYHASH : UInt8 := 0xfd
def OP_PUBKEY : UInt8 := 0xfe

namespace CScript

/-- The loop of `OP_PUBKEYS`: the keys from an instruction on, and the one that ends them. -/
def takeKeys (vch1 : Valtype) (opcode1 : UInt8) (pc1 : CScript) :
    List Valtype × UInt8 × Valtype × CScript :=
  if 33 ≤ vch1.length ∧ vch1.length ≤ 65 then
    match _h : getOp pc1 with
    | none => ([vch1], OP_INVALIDOPCODE, [], stuck pc1)
    | some (opcode1, vch1', pc1') =>
      let (keys, rest) := takeKeys vch1' opcode1 pc1'
      (vch1 :: keys, rest)
  else ([], opcode1, vch1, pc1)
termination_by pc1.length
decreasing_by exact length_getOp _h

/-- What an instruction adds to the solutions, if it fits the opcode of the template. -/
def matchOp (opcode2 opcode1 : UInt8) (vch1 : Valtype) : Option (List Valtype) :=
  if opcode2 = OP_PUBKEY then
    if vch1.length < 33 ∨ vch1.length > 65 then none else some [vch1]
  else if opcode2 = OP_PUBKEYHASH then if vch1.length ≠ 20 then none else some [vch1]
  else if opcode2 = OP_SMALLINTEGER then
    if opcode1 = OP_0 ∨ (OP_1 ≤ opcode1 ∧ opcode1 ≤ OP_16) then
      some [[UInt8.ofNat (decodeOP_N opcode1)]]
    else none
  -- others must match exactly
  else if opcode1 ≠ opcode2 ∨ vch1 ≠ [] then none
  else some []

/-- The comparison of a script with a template. -/
def matchTemplate : List UInt8 → CScript → List Valtype → Option (List Valtype)
  | [], pc1, vSolutions => if pc1 = [] then some vSolutions else none
  | opcode2 :: pc2, pc1, vSolutions =>
    match getOp pc1 with
    | none => none
    | some (opcode1, vch1, pc1) =>
      if opcode2 = OP_PUBKEYS then
        let (keys, opcode1, vch1, pc1) := takeKeys vch1 opcode1 pc1
        match pc2 with
        | [] => none
        | opcode2 :: pc2 =>
          match matchOp opcode2 opcode1 vch1 with
          | none => none
          | some found => matchTemplate pc2 pc1 (vSolutions ++ keys ++ found)
      else
        match matchOp opcode2 opcode1 vch1 with
        | none => none
        | some found => matchTemplate pc2 pc1 (vSolutions ++ found)

/-- The numbers of a multisignature script: how many signatures, of how many keys. -/
def firstNumber (vSolutions : List Valtype) : Nat := ((vSolutions.headD []).headD 0).toNat
def lastNumber (vSolutions : List Valtype) : Nat := ((vSolutions.getLastD []).headD 0).toNat

/-- `Solver`. -/
def solver (scriptPubKey : CScript) : Option (TxnOutType × List Valtype) :=
  if scriptPubKey.isPayToScriptHash then
    some (.scripthash, [(scriptPubKey.drop 2).take 20])
  else if scriptPubKey.isUnspendable && isPushOnly scriptPubKey.tail then some (.nullData, [])
  else
    match matchTemplate [OP_PUBKEY, OP_CHECKSIG] scriptPubKey [] with
    | some vSolutions => some (.pubkey, vSolutions)
    | none =>
      match matchTemplate [OP_DUP, OP_HASH160, OP_PUBKEYHASH, OP_EQUALVERIFY, OP_CHECKSIG]
          scriptPubKey [] with
      | some vSolutions => some (.pubkeyhash, vSolutions)
      | none =>
        match matchTemplate [OP_SMALLINTEGER, OP_PUBKEYS, OP_SMALLINTEGER, OP_CHECKMULTISIG]
            scriptPubKey [] with
        | some vSolutions =>
          let m := firstNumber vSolutions
          let n := lastNumber vSolutions
          if m < 1 ∨ n < 1 ∨ m > n ∨ vSolutions.length - 2 ≠ n then none
          else some (.multisig, vSolutions)
        | none => none

/-- `ScriptSigArgsExpected`; `none` is the answer -1. -/
def scriptSigArgsExpected (t : TxnOutType) (vSolutions : List Valtype) : Option Nat :=
  match t with
  | .nonstandard => none
  | .nullData => none
  | .pubkey => some 1
  | .pubkeyhash => some 2
  | .multisig =>
    if vSolutions.length < 1 ∨ (vSolutions.headD []).length < 1 then none
    else some (firstNumber vSolutions + 1)
  | .scripthash => some 1

/-- `IsStandard`: the type of a script that is. -/
def isStandard (fDatacarrier : Bool) (nMaxDatacarrierBytes : Nat) (scriptPubKey : CScript) :
    Option TxnOutType :=
  match solver scriptPubKey with
  | none => none
  | some (.multisig, vSolutions) =>
    let m := firstNumber vSolutions
    let n := lastNumber vSolutions
    -- up to x-of-3 multisig
    if n < 1 ∨ n > 3 then none
    else if m < 1 ∨ m > n then none
    else some .multisig
  | some (.nullData, _) =>
    if !fDatacarrier || decide (scriptPubKey.length > nMaxDatacarrierBytes) then none
    else some .nullData
  | some (whichType, _) => if whichType ≠ .nonstandard then some whichType else none

end CScript

/-- `GetScriptForDestination`. -/
def scriptForDestination : CTxDestination → CScript
  | .noDestination => []
  | .keyID keyID =>
    [OP_DUP, OP_HASH160] ++ CScript.push keyID.1 ++ [OP_EQUALVERIFY, OP_CHECKSIG]
  | .scriptID scriptID => [OP_HASH160] ++ CScript.push scriptID.1 ++ [OP_EQUAL]

namespace CScript

/-! ## Pushes -/

variable {b rest pc1 script : CScript} {opcode opcode2 opcode1 : UInt8} {pc2 : List UInt8}
  {vSolutions v found : List Valtype} {vch1 : Valtype}

theorem not_cut_short (h : (b ++ rest).length < 2 ^ 32) :
    ¬ (b ++ rest).length % 2 ^ 32 < b.length := by
  rw [Nat.mod_eq_of_lt h, List.length_append]
  omega

theorem getOp_direct (hlt : opcode < OP_PUSHDATA1) (hlen : opcode.toNat = b.length)
    (hrest : (b ++ rest).length < 2 ^ 32) :
    getOp (opcode :: (b ++ rest)) = some (opcode, b, rest) := by
  have hle : opcode ≤ OP_PUSHDATA4 := UInt8.le_trans (UInt8.le_of_lt hlt) (by decide)
  have hfits : ¬ (b ++ rest).length % 2 ^ 32 < opcode.toNat := by
    rw [hlen]
    exact not_cut_short hrest
  have hsize : getSize opcode (b ++ rest) = some (opcode.toNat, b ++ rest) := by
    unfold getSize
    exact if_pos hlt
  rw [getOp, if_pos hle, hsize]
  dsimp only
  rw [if_neg hfits, hlen, List.take_left, List.drop_left]

/-- **`GetOp` takes a push off again**, whole, when its size fits two bytes. -/
theorem getOp_push {b : Valtype} (hb : b.length ≤ 0xffff) {rest : CScript}
    (hrest : (b ++ rest).length < 2 ^ 32) :
    ∃ opcode, getOp (push b ++ rest) = some (opcode, b, rest) ∧ opcode ≤ OP_PUSHDATA4 := by
  by_cases h1 : b.length < 76
  · have hnat : (UInt8.ofNat b.length).toNat = b.length := by
      rw [UInt8.toNat_ofNat']; omega
    have hlt : UInt8.ofNat b.length < OP_PUSHDATA1 := by
      rw [UInt8.lt_iff_toNat_lt, hnat]; exact h1
    refine ⟨UInt8.ofNat b.length, ?_, UInt8.le_trans (UInt8.le_of_lt hlt) (by decide)⟩
    have hpush : push b ++ rest = UInt8.ofNat b.length :: (b ++ rest) := by
      rw [push, if_pos (show b.length < OP_PUSHDATA1.toNat from h1)]
      simp
    rw [hpush]
    exact getOp_direct hlt hnat hrest
  by_cases h2 : b.length ≤ 0xff
  · have hnat : (UInt8.ofNat b.length).toNat = b.length := by
      rw [UInt8.toNat_ofNat']; omega
    have hpush : push b ++ rest = OP_PUSHDATA1 :: UInt8.ofNat b.length :: (b ++ rest) := by
      rw [push, if_neg (show ¬ b.length < OP_PUSHDATA1.toNat from h1), if_pos h2]
      simp
    refine ⟨OP_PUSHDATA1, ?_, by decide⟩
    rw [hpush, getOp, if_pos (by decide), getSize, if_neg (by decide), if_pos rfl]
    dsimp only
    rw [hnat, if_neg (not_cut_short hrest), List.take_left, List.drop_left]
  · have hlow : (UInt8.ofNat b.length).toNat = b.length % 256 := UInt8.toNat_ofNat'
    have hhigh : (UInt8.ofNat (b.length / 256)).toNat = b.length / 256 := by
      rw [UInt8.toNat_ofNat']; omega
    have hpush : push b ++ rest =
        OP_PUSHDATA2 :: UInt8.ofNat b.length :: UInt8.ofNat (b.length / 256) :: (b ++ rest) := by
      rw [push, if_neg (show ¬ b.length < OP_PUSHDATA1.toNat from h1), if_neg h2, if_pos hb]
      simp [List.range_succ]
    have hsum : b.length % 256 + 2 ^ 8 * (b.length / 256) = b.length := by omega
    refine ⟨OP_PUSHDATA2, ?_, by decide⟩
    rw [hpush, getOp, if_pos (by decide), getSize, if_neg (by decide),
      if_neg (by decide), if_pos rfl]
    dsimp only
    rw [hlow, hhigh, hsum, if_neg (not_cut_short hrest), List.take_left, List.drop_left]

theorem length_push_le (b : Valtype) (hb : b.length ≤ 0xffff) : (push b).length ≤ b.length + 3 := by
  rw [push, List.length_append]
  split_ifs <;> simp <;> omega

theorem length_push {b : Valtype} (hb : b.length < 76) : (push b).length = b.length + 1 := by
  rw [push, List.length_append, if_pos (show b.length < OP_PUSHDATA1.toNat from hb)]
  simp
  omega

theorem isPushOnly_nil : isPushOnly [] = true := by rw [isPushOnly, if_pos rfl]

theorem isPushOnly_push_append {b : Valtype} (hb : b.length ≤ 0xffff)
    (hrest : (push b ++ rest).length < 2 ^ 32) (h : isPushOnly rest = true) :
    isPushOnly (push b ++ rest) = true := by
  have hle : b.length ≤ (push b).length := by
    rw [push, List.length_append]
    exact Nat.le_add_left _ _
  have hcount : (b ++ rest).length < 2 ^ 32 := by
    rw [List.length_append] at hrest ⊢
    omega
  obtain ⟨opcode, hop, hle⟩ := getOp_push hb hcount
  exact (isPushOnly_op hop).mpr ⟨UInt8.le_trans hle (by decide), h⟩

def pushAll (values : List Valtype) : CScript := values.flatMap push

theorem isPushOnly_pushAll {values : List Valtype} (h : ∀ b ∈ values, b.length ≤ 0xffff)
    (hlen : (pushAll values).length < 2 ^ 32) : isPushOnly (pushAll values) = true := by
  induction values with
  | nil => exact isPushOnly_nil
  | cons b values ih =>
    have hcons : pushAll (b :: values) = push b ++ pushAll values := List.flatMap_cons
    rw [hcons] at hlen ⊢
    have hrest : (pushAll values).length < 2 ^ 32 := by
      rw [List.length_append] at hlen
      omega
    exact isPushOnly_push_append (h b List.mem_cons_self) hlen
      (ih (fun b' hb' => h b' (List.mem_cons_of_mem _ hb')) hrest)

/-! ## What the solutions are made of -/

theorem length_stuck (pc : CScript) : (stuck pc).length ≤ pc.length := by
  unfold stuck
  split
  · exact Nat.le_refl _
  · split
    · rw [List.length_cons]
      omega
    · rename_i hsize
      have hle := length_getSize hsize
      rw [List.length_cons]
      omega

theorem takeKeys_length (vch1 : Valtype) (opcode1 : UInt8) (pc1 : CScript) :
    34 * (takeKeys vch1 opcode1 pc1).1.length +
      (1 + (takeKeys vch1 opcode1 pc1).2.2.1.length + (takeKeys vch1 opcode1 pc1).2.2.2.length) ≤
        1 + vch1.length + pc1.length + 1 := by
  -- the last key may be followed by nothing, and then no instruction ends them
  induction hn : pc1.length using Nat.strong_induction_on generalizing vch1 opcode1 pc1 with
  | h n ih =>
    rw [takeKeys]
    split
    · rename_i hkey
      split
      · have := length_stuck pc1
        simp only [List.length_cons, List.length_nil]
        omega
      · rename_i opcode1' vch1' pc1' hop
        have hlen := length_of_getOp hop
        have := ih pc1'.length (by have := length_getOp hop; omega) vch1' opcode1' pc1' rfl
        simp only [List.length_cons]
        omega
    · simp only [List.length_nil]
      omega

theorem matchTemplate_cons_iff (hop : opcode2 ≠ OP_PUBKEYS) :
    matchTemplate (opcode2 :: pc2) pc1 vSolutions = some v ↔
      ∃ opcode1 vch1 pc1' found, getOp pc1 = some (opcode1, vch1, pc1') ∧
        matchOp opcode2 opcode1 vch1 = some found ∧
        matchTemplate pc2 pc1' (vSolutions ++ found) = some v := by
  constructor
  · intro h
    rw [matchTemplate] at h
    split at h
    · exact absurd h (by simp)
    rename_i opcode1 vch1 pc1' hget
    rw [if_neg hop] at h
    split at h
    · exact absurd h (by simp)
    rename_i found hfound
    exact ⟨opcode1, vch1, pc1', found, hget, hfound, h⟩
  · rintro ⟨opcode1, vch1, pc1', found, hget, hmatch, hrest⟩
    rw [matchTemplate, hget]
    dsimp only
    rw [if_neg hop, hmatch]
    exact hrest

theorem matchTemplate_keys_iff :
    matchTemplate (OP_PUBKEYS :: opcode2 :: pc2) pc1 vSolutions = some v ↔
      ∃ opcode1 vch1 pc1' found, getOp pc1 = some (opcode1, vch1, pc1') ∧
        matchOp opcode2 (takeKeys vch1 opcode1 pc1').2.1 (takeKeys vch1 opcode1 pc1').2.2.1 =
          some found ∧
        matchTemplate pc2 (takeKeys vch1 opcode1 pc1').2.2.2
          (vSolutions ++ (takeKeys vch1 opcode1 pc1').1 ++ found) = some v := by
  constructor
  · intro h
    rw [matchTemplate] at h
    split at h
    · exact absurd h (by simp)
    rename_i opcode1 vch1 pc1' hget
    rw [if_pos rfl] at h
    dsimp only at h
    split at h
    · exact absurd h (by simp)
    rename_i found hfound
    exact ⟨opcode1, vch1, pc1', found, hget, hfound, h⟩
  · rintro ⟨opcode1, vch1, pc1', found, hget, hmatch, hrest⟩
    rw [matchTemplate, hget]
    dsimp only
    rw [if_pos rfl, hmatch]
    exact hrest

theorem matchTemplate_nil (h : matchTemplate [] pc1 vSolutions = some v) : v = vSolutions := by
  rw [matchTemplate] at h
  split at h
  · exact (Option.some.inj h).symm
  · exact absurd h (by simp)

theorem matchOp_smallInteger (h : matchOp OP_SMALLINTEGER opcode1 vch1 = some found) :
    ∃ n : UInt8, found = [[n]] ∧ n.toNat ≤ 16 := by
  rw [matchOp, if_neg (by decide), if_neg (by decide), if_pos rfl] at h
  split at h
  · rename_i hnumber
    have hle : decodeOP_N opcode1 ≤ 16 := by
      rcases hnumber with rfl | ⟨-, hle⟩
      · decide
      · exact decodeOP_N_le hle
    refine ⟨_, (Option.some.inj h).symm, ?_⟩
    rw [UInt8.toNat_ofNat']
    omega
  · exact absurd h (by simp)

theorem matchOp_pubKey (h : matchOp OP_PUBKEY opcode1 vch1 = some found) :
    found = [vch1] ∧ 33 ≤ vch1.length ∧ vch1.length ≤ 65 := by
  rw [matchOp, if_pos rfl] at h
  split at h
  · exact absurd h (by simp)
  · exact ⟨(Option.some.inj h).symm, by omega, by omega⟩

theorem matchOp_pubKeyHash (h : matchOp OP_PUBKEYHASH opcode1 vch1 = some found) :
    found = [vch1] ∧ vch1.length = 20 := by
  rw [matchOp, if_neg (by decide), if_pos rfl] at h
  split at h
  · exact absurd h (by simp)
  · rename_i hlen
    exact ⟨(Option.some.inj h).symm, not_not.mp hlen⟩

theorem matchOp_self
    (hop : opcode2 ≠ OP_PUBKEY ∧ opcode2 ≠ OP_PUBKEYHASH ∧ opcode2 ≠ OP_SMALLINTEGER)
    (h : matchOp opcode2 opcode1 vch1 = some found) : found = [] := by
  rw [matchOp, if_neg hop.1, if_neg hop.2.1, if_neg hop.2.2] at h
  split at h
  · exact absurd h (by simp)
  · exact (Option.some.inj h).symm

theorem solver_pubkey (h : solver script = some (.pubkey, v)) :
    ∃ vchPubKey, v = [vchPubKey] ∧ 33 ≤ vchPubKey.length ∧ vchPubKey.length ≤ 65 := by
  unfold solver at h
  split at h
  · exact absurd h (by simp)
  split at h
  · exact absurd h (by simp)
  split at h
  · rename_i v' hmatch
    obtain ⟨-, rfl⟩ := Prod.mk.inj (Option.some.inj h)
    obtain ⟨_, vch, _, _, -, hkey, hmatch⟩ := (matchTemplate_cons_iff (by decide)).mp hmatch
    obtain ⟨rfl, hlow, hhigh⟩ := matchOp_pubKey hkey
    obtain ⟨_, _, _, _, -, hop, hmatch⟩ := (matchTemplate_cons_iff (by decide)).mp hmatch
    obtain rfl := matchOp_self (by decide) hop
    exact ⟨vch, matchTemplate_nil hmatch, hlow, hhigh⟩
  split at h
  · exact absurd h (by simp)
  split at h
  · dsimp only at h
    split at h
    · exact absurd h (by simp)
    · exact absurd h (by simp)
  · exact absurd h (by simp)

theorem solver_pubkeyhash (h : solver script = some (.pubkeyhash, v)) :
    ∃ keyID : Uint160, v = [keyID.1] := by
  unfold solver at h
  split at h
  · exact absurd h (by simp)
  split at h
  · exact absurd h (by simp)
  split at h
  · exact absurd h (by simp)
  split at h
  · rename_i v' hmatch
    obtain ⟨-, rfl⟩ := Prod.mk.inj (Option.some.inj h)
    obtain ⟨_, _, _, _, -, hdup, hmatch⟩ := (matchTemplate_cons_iff (by decide)).mp hmatch
    obtain rfl := matchOp_self (by decide) hdup
    obtain ⟨_, _, _, _, -, hhash, hmatch⟩ := (matchTemplate_cons_iff (by decide)).mp hmatch
    obtain rfl := matchOp_self (by decide) hhash
    obtain ⟨_, vch, _, _, -, hkey, hmatch⟩ := (matchTemplate_cons_iff (by decide)).mp hmatch
    obtain ⟨rfl, hlen⟩ := matchOp_pubKeyHash hkey
    obtain ⟨_, _, _, _, -, hequal, hmatch⟩ := (matchTemplate_cons_iff (by decide)).mp hmatch
    obtain rfl := matchOp_self (by decide) hequal
    obtain ⟨_, _, _, _, -, hcheck, hmatch⟩ := (matchTemplate_cons_iff (by decide)).mp hmatch
    obtain rfl := matchOp_self (by decide) hcheck
    exact ⟨⟨vch, hlen⟩, matchTemplate_nil hmatch⟩
  split at h
  · dsimp only at h
    split at h
    · exact absurd h (by simp)
    · exact absurd h (by simp)
  · exact absurd h (by simp)

/-- **A multisignature script is long enough for its keys**: it asks for no more signatures
than there are keys, and these are 16 at most. -/
theorem solver_multisig (h : solver script = some (.multisig, v)) :
    firstNumber v ≤ 16 ∧ 34 * firstNumber v + 2 ≤ script.length := by
  unfold solver at h
  split at h
  · exact absurd h (by simp)
  split at h
  · exact absurd h (by simp)
  split at h
  · exact absurd h (by simp)
  split at h
  · exact absurd h (by simp)
  split at h
  swap
  · exact absurd h (by simp)
  rename_i v' hmatch
  dsimp only at h
  split at h
  · exact absurd h (by simp)
  rename_i hnumbers
  obtain ⟨-, rfl⟩ := Prod.mk.inj (Option.some.inj h)
  obtain ⟨_, _, pc₁, _, hop1, hm, hmatch⟩ := (matchTemplate_cons_iff (by decide)).mp hmatch
  obtain ⟨m, rfl, -⟩ := matchOp_smallInteger hm
  obtain ⟨opcode, vch, pc₂, _, hop2, hn, hmatch⟩ := matchTemplate_keys_iff.mp hmatch
  obtain ⟨n, rfl, hn16⟩ := matchOp_smallInteger hn
  obtain ⟨_, _, pc3, found, hop3, hop, hmatch⟩ := (matchTemplate_cons_iff (by decide)).mp hmatch
  obtain rfl := matchOp_self (by decide) hop
  obtain rfl := matchTemplate_nil hmatch
  have hkeys := takeKeys_length vch opcode pc₂
  generalize takeKeys vch opcode pc₂ = t at *
  have hlast : lastNumber ([] ++ [[m]] ++ t.1 ++ [[n]] ++ []) = n.toNat := by
    rw [List.append_nil, lastNumber, List.getLastD_eq_getLast?, List.getLast?_concat]
    rfl
  have hcount : ([] ++ [[m]] ++ t.1 ++ [[n]] ++ []).length = t.1.length + 2 := by simp
  have h1 := length_of_getOp hop1
  have h2 := length_of_getOp hop2
  have h3 := length_of_getOp hop3
  rw [hlast, hcount] at hnumbers
  omega

/-! ## Destinations -/

theorem length_scriptForDestination_keyID (keyID : Uint160) :
    (scriptForDestination (.keyID keyID)).length = 25 := by
  have hpush := length_push (b := keyID.1) (by rw [keyID.2]; decide)
  simp only [scriptForDestination, List.length_append, List.length_cons, List.length_nil, hpush,
    keyID.2]

theorem length_scriptForDestination_scriptID (scriptID : Uint160) :
    (scriptForDestination (.scriptID scriptID)).length = 23 := by
  have hpush := length_push (b := scriptID.1) (by rw [scriptID.2]; decide)
  simp only [scriptForDestination, List.length_append, List.length_cons, List.length_nil, hpush,
    scriptID.2]

theorem scriptForDestination_keyID (keyID : Uint160) : scriptForDestination (.keyID keyID) =
      OP_DUP :: OP_HASH160 :: (push keyID.1 ++ [OP_EQUALVERIFY, OP_CHECKSIG]) := by
  rw [scriptForDestination, List.append_assoc]
  rfl

theorem isStandard_keyID (fDatacarrier : Bool) (nMaxDatacarrierBytes : Nat) (keyID : Uint160) :
    isStandard fDatacarrier nMaxDatacarrierBytes (scriptForDestination (.keyID keyID)) =
      some .pubkeyhash := by
  have hp2sh : isPayToScriptHash (scriptForDestination (.keyID keyID)) = false := by
    rw [isPayToScriptHash, length_scriptForDestination_keyID]
    rfl
  have hcount : (keyID.1 ++ [OP_EQUALVERIFY, OP_CHECKSIG]).length < 2 ^ 32 := by
    rw [List.length_append, keyID.2]
    decide
  obtain ⟨opcode, hop, -⟩ := getOp_push (by rw [keyID.2]; decide) hcount
  have hpubkey : matchTemplate [OP_PUBKEY, OP_CHECKSIG] (scriptForDestination (.keyID keyID)) [] =
      none := by
    rw [scriptForDestination_keyID]
    rfl
  have hhash : matchOp OP_PUBKEYHASH opcode keyID.1 = some [keyID.1] := by
    rw [matchOp, if_neg (by decide), if_pos rfl, if_neg (not_not_intro keyID.2)]
  have hpubkeyhash : matchTemplate [OP_DUP, OP_HASH160, OP_PUBKEYHASH, OP_EQUALVERIFY, OP_CHECKSIG]
      (scriptForDestination (.keyID keyID)) [] = some [keyID.1] := by
    rw [scriptForDestination_keyID, matchTemplate,
      show getOp (OP_DUP :: OP_HASH160 :: (push keyID.1 ++ [OP_EQUALVERIFY, OP_CHECKSIG])) =
        some (OP_DUP, [], OP_HASH160 :: (push keyID.1 ++ [OP_EQUALVERIFY, OP_CHECKSIG])) from rfl]
    dsimp only
    rw [if_neg (by decide), show matchOp OP_DUP OP_DUP [] = some [] from rfl]
    dsimp only
    rw [matchTemplate, show getOp (OP_HASH160 :: (push keyID.1 ++ [OP_EQUALVERIFY, OP_CHECKSIG])) =
        some (OP_HASH160, [], push keyID.1 ++ [OP_EQUALVERIFY, OP_CHECKSIG]) from rfl]
    dsimp only
    rw [if_neg (by decide), show matchOp OP_HASH160 OP_HASH160 [] = some [] from rfl]
    dsimp only
    rw [matchTemplate, hop]
    dsimp only
    rw [if_neg (by decide), hhash]
    rfl
  have hspend : isUnspendable (scriptForDestination (.keyID keyID)) = false := by
    rw [scriptForDestination_keyID]
    rfl
  rw [isStandard, solver, if_neg (by rw [hp2sh]; decide), hspend, Bool.false_and,
    if_neg (by decide), hpubkey]
  dsimp only
  rw [hpubkeyhash]
  rfl

theorem isStandard_scriptID (fDatacarrier : Bool) (nMaxDatacarrierBytes : Nat)
    (scriptID : Uint160) :
    isStandard fDatacarrier nMaxDatacarrierBytes (scriptForDestination (.scriptID scriptID)) =
      some .scripthash := by
  have hpush : push scriptID.1 = 0x14 :: scriptID.1 := by
    rw [push, if_pos (by rw [scriptID.2]; decide), scriptID.2]
    rfl
  have hscript : scriptForDestination (.scriptID scriptID) =
      OP_HASH160 :: 0x14 :: (scriptID.1 ++ [OP_EQUAL]) := by
    rw [scriptForDestination, hpush]
    rfl
  have hlast : (OP_HASH160 :: 0x14 :: (scriptID.1 ++ [OP_EQUAL])).getD 22 0 = OP_EQUAL := by
    rw [List.getD_cons_succ, List.getD_cons_succ, List.getD_append_right _ _ _ _ (by
      rw [scriptID.2]), scriptID.2]
    rfl
  have hp2sh : isPayToScriptHash (scriptForDestination (.scriptID scriptID)) = true := by
    rw [isPayToScriptHash, length_scriptForDestination_scriptID, hscript, hlast]
    rfl
  rw [isStandard, solver, if_pos hp2sh]
  rfl

end CScript

end BitBlocks
