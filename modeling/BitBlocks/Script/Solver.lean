import BitBlocks.Script.Building
import BitBlocks.Script.Sign

/-!
# What `Solver` recognises

`Solver` walks a script and a template side by side; a placeholder in the middle of one
of them takes as many keys as there are. What it finds is said here of the row of
instructions the script is parsed to: the pushes may have any form of their size. A
payment to a script is the exception. It is compared byte by byte, so the same
instructions with another form of the push are not one.
-/

namespace BitBlocks

namespace CScript

/-- The opcodes of a script and what they push, if `GetOp` gets through to the end. -/
def instructions (pc : CScript) : Option (List (UInt8 × Valtype)) :=
  if pc = [] then some []
  else
    match _h : getOp pc with
    | none => none
    | some (opcode, vch, pc') => (instructions pc').map fun ops => (opcode, vch) :: ops
termination_by pc.length
decreasing_by exact length_getOp _h

/-- `EncodeOP_N`. -/
def encodeOP_N (n : Nat) : UInt8 := if n = 0 then OP_0 else UInt8.ofNat (OP_1.toNat + n - 1)

/-- A push of the size of a public key. -/
def IsKey (op : UInt8 × Valtype) : Prop := 33 ≤ op.2.length ∧ op.2.length ≤ 65

/-- A row of instructions is of a type, with these solutions. -/
def HasForm (ops : List (UInt8 × Valtype)) (vSolutions : List Valtype) : TxnOutType → Prop
  | .nonstandard => False
  | .pubkey => ∃ key, IsKey key ∧ ops = [key, (OP_CHECKSIG, [])] ∧ vSolutions = [key.2]
  | .pubkeyhash => ∃ hash : UInt8 × Valtype, hash.2.length = 20 ∧
      ops = [(OP_DUP, []), (OP_HASH160, []), hash, (OP_EQUALVERIFY, []), (OP_CHECKSIG, [])] ∧
      vSolutions = [hash.2]
  | .scripthash => ∃ hash : UInt8 × Valtype, hash.2.length = 20 ∧
      ops = [(OP_HASH160, []), hash, (OP_EQUAL, [])] ∧ vSolutions = [hash.2]
  | .multisig => ∃ (m n : Nat) (keys : List (UInt8 × Valtype)), 1 ≤ m ∧ m ≤ n ∧ n ≤ 16 ∧
      keys.length = n ∧ (∀ key ∈ keys, IsKey key) ∧
      ops = (encodeOP_N m, []) :: (keys ++ [(encodeOP_N n, []), (OP_CHECKMULTISIG, [])]) ∧
      vSolutions = [UInt8.ofNat m] :: (keys.map Prod.snd ++ [[UInt8.ofNat n]])
  | .nullData => ∃ pushes : List (UInt8 × Valtype), (∀ op ∈ pushes, op.1 ≤ OP_16) ∧
      ops = (OP_RETURN, []) :: pushes ∧ vSolutions = []

/-- What `Solver` recognises: the instructions have the form, and those of a payment to a script
are written as `GetScriptForDestination` writes them. -/
def Recognised (script : CScript) (t : TxnOutType) (vSolutions : List Valtype) : Prop :=
  if t = .scripthash then
    ∃ scriptID : Uint160, script = scriptForDestination (.scriptID scriptID) ∧
      vSolutions = [scriptID.1]
  else ∃ ops, script.instructions = some ops ∧ HasForm ops vSolutions t

/-! ## Instructions -/

theorem instructions_nil : instructions [] = some [] := by rw [instructions, if_pos rfl]

variable {pc pc' pc1 script : CScript} {opcode opcode1 opcode2 : UInt8} {vch vch1 : Valtype}
  {ops : List (UInt8 × Valtype)} {found vSolutions v values : List Valtype} {n : Nat}
  {pc2 : List UInt8}

theorem instructions_op (h : getOp pc = some (opcode, vch, pc')) :
    instructions pc = (instructions pc').map fun ops => (opcode, vch) :: ops := by
  rw [instructions, if_neg (ne_nil_of_getOp h)]
  split
  · rename_i hnone
    exact absurd (h.symm.trans hnone) (by simp)
  · rename_i hsome
    obtain ⟨rfl, rfl, rfl⟩ := getOp_unique h hsome
    rfl

theorem instructions_eq_nil : instructions pc = some [] ↔ pc = [] := by
  constructor
  · intro h
    by_contra hne
    rw [instructions, if_neg hne] at h
    split at h
    · exact nomatch h
    · obtain ⟨ops, -, hcons⟩ := Option.map_eq_some_iff.mp h
      exact nomatch hcons
  · rintro rfl
    exact instructions_nil

theorem instructions_eq_cons {op : UInt8 × Valtype} : instructions pc = some (op :: ops) ↔
      ∃ pc', getOp pc = some (op.1, op.2, pc') ∧ instructions pc' = some ops := by
  constructor
  · intro h
    have hne : pc ≠ [] := by
      rintro rfl
      rw [instructions_nil] at h
      exact nomatch h
    rw [instructions, if_neg hne] at h
    split at h
    · exact nomatch h
    · rename_i hop
      obtain ⟨ops', hops, hcons⟩ := Option.map_eq_some_iff.mp h
      obtain ⟨rfl, rfl⟩ := List.cons.inj hcons
      exact ⟨_, hop, hops⟩
  · rintro ⟨pc', hop, hops⟩
    rw [instructions_op hop, hops]
    rfl

theorem vch_eq_nil (h : getOp pc = some (opcode, vch, pc'))
    (hop : opcode = OP_0 ∨ OP_PUSHDATA4 < opcode) : vch = [] := by
  obtain ⟨i, rfl, rfl, -⟩ := Instruction.exists_of_getOp h
  have hoperand := i.operand
  rw [Operand] at hoperand
  rcases hop with hzero | hhigh
  · rw [if_pos (by rw [hzero]; decide), hzero] at hoperand
    exact List.eq_nil_of_length_eq_zero hoperand
  · have hnot : ¬ i.opcode < OP_PUSHDATA1 := fun h =>
      absurd (UInt8.lt_trans (UInt8.lt_trans h (by decide : OP_PUSHDATA1 < OP_PUSHDATA4)) hhigh)
        (UInt8.lt_irrefl _)
    rwa [if_neg hnot, if_neg (UInt8.not_le.mpr hhigh)] at hoperand

theorem isPushOnly_iff :
    isPushOnly pc = true ↔ ∃ ops, instructions pc = some ops ∧ ∀ op ∈ ops, op.1 ≤ OP_16 := by
  induction hn : pc.length using Nat.strong_induction_on generalizing pc with
  | h n ih =>
    by_cases hpc : pc = []
    · subst hpc
      exact ⟨fun _ => ⟨[], instructions_nil, by simp⟩, fun _ => isPushOnly_nil⟩
    cases hop : getOp pc with
    | none =>
      have hnone : instructions pc = none := by
        rw [instructions, if_neg hpc]
        split
        · rfl
        · rename_i hsome
          rw [hop] at hsome
          exact nomatch hsome
      constructor
      · intro h
        rw [isPushOnly, if_neg hpc] at h
        split at h
        · exact nomatch h
        · rename_i hsome
          rw [hop] at hsome
          exact nomatch hsome
      · rintro ⟨ops, hops, -⟩
        rw [hnone] at hops
        exact nomatch hops
    | some r =>
      obtain ⟨opcode, vch, pc'⟩ := r
      rw [isPushOnly_op hop, ih pc'.length (hn ▸ length_getOp hop) rfl, instructions_op hop]
      constructor
      · rintro ⟨hle, ops, hops, hall⟩
        refine ⟨(opcode, vch) :: ops, by rw [hops]; rfl, ?_⟩
        exact List.forall_mem_cons.mpr ⟨hle, hall⟩
      · rintro ⟨ops, hops, hall⟩
        obtain ⟨ops', hops', rfl⟩ := Option.map_eq_some_iff.mp hops
        obtain ⟨hle, hall'⟩ := List.forall_mem_cons.mp hall
        exact ⟨hle, ops', hops', hall'⟩

/-! ## One instruction against one opcode of a template -/

theorem matchOp_pubKey_iff :
    matchOp OP_PUBKEY opcode1 vch1 = some found ↔ IsKey (opcode1, vch1) ∧ found = [vch1] := by
  constructor
  · intro h
    obtain ⟨hfound, hlow, hhigh⟩ := matchOp_pubKey h
    exact ⟨⟨hlow, hhigh⟩, hfound⟩
  · rintro ⟨⟨hlow, hhigh⟩, rfl⟩
    dsimp only at hlow hhigh
    rw [matchOp, if_pos rfl, if_neg (by omega)]

theorem matchOp_pubKeyHash_iff :
    matchOp OP_PUBKEYHASH opcode1 vch1 = some found ↔ vch1.length = 20 ∧ found = [vch1] := by
  constructor
  · intro h
    obtain ⟨hfound, hlen⟩ := matchOp_pubKeyHash h
    exact ⟨hlen, hfound⟩
  · rintro ⟨hlen, rfl⟩
    rw [matchOp, if_neg (by decide), if_pos rfl, if_neg (not_not.mpr hlen)]

theorem matchOp_self_iff
    (hop : opcode2 ≠ OP_PUBKEY ∧ opcode2 ≠ OP_PUBKEYHASH ∧ opcode2 ≠ OP_SMALLINTEGER) :
    matchOp opcode2 opcode1 vch1 = some found ↔ opcode1 = opcode2 ∧ vch1 = [] ∧ found = [] := by
  rw [matchOp, if_neg hop.1, if_neg hop.2.1, if_neg hop.2.2]
  constructor
  · intro h
    split at h
    · cases h
    · rename_i hsame
      rw [not_or, not_not, not_not] at hsame
      exact ⟨hsame.1, hsame.2, (Option.some.inj h).symm⟩
  · rintro ⟨rfl, rfl, rfl⟩
    rw [if_neg (by simp)]

theorem toNat_encodeOP_N (h0 : 0 < n) (h : n ≤ 16) : (encodeOP_N n).toNat = 80 + n := by
  have h1 : OP_1.toNat = 81 := rfl
  rw [encodeOP_N, if_neg (by omega), h1, UInt8.toNat_ofNat']
  omega

theorem decodeOP_N_encodeOP_N (h : n ≤ 16) : decodeOP_N (encodeOP_N n) = n := by
  have h1 : OP_1.toNat = 81 := rfl
  by_cases h0 : n = 0
  · subst h0
    decide
  · rw [decodeOP_N, toNat_encodeOP_N (by omega) h, h1]
    omega

theorem isNumber_encodeOP_N (h : n ≤ 16) :
    encodeOP_N n = OP_0 ∨ (OP_1 ≤ encodeOP_N n ∧ encodeOP_N n ≤ OP_16) := by
  have h1 : OP_1.toNat = 81 := rfl
  have h16 : OP_16.toNat = 96 := rfl
  by_cases h0 : n = 0
  · exact Or.inl (by rw [encodeOP_N, if_pos h0])
  · right
    rw [UInt8.le_iff_toNat_le, UInt8.le_iff_toNat_le, toNat_encodeOP_N (by omega) h]
    omega

theorem matchOp_smallInteger_iff : matchOp OP_SMALLINTEGER opcode1 vch1 = some found ↔
      ∃ n ≤ 16, opcode1 = encodeOP_N n ∧ found = [[UInt8.ofNat n]] := by
  rw [matchOp, if_neg (by decide), if_neg (by decide), if_pos rfl]
  constructor
  · intro h
    split at h
    · rename_i hnumber
      have hle : decodeOP_N opcode1 ≤ 16 := by
        rcases hnumber with rfl | ⟨-, hle⟩
        · decide
        · exact decodeOP_N_le hle
      refine ⟨decodeOP_N opcode1, hle, ?_, (Option.some.inj h).symm⟩
      have h1 : OP_1.toNat = 81 := rfl
      rcases hnumber with rfl | ⟨hlow, -⟩
      · decide
      · rw [UInt8.le_iff_toNat_le, h1] at hlow
        apply UInt8.toNat_inj.mp
        rw [toNat_encodeOP_N (by rw [decodeOP_N, h1]; omega) hle, decodeOP_N, h1]
        omega
    · cases h
  · rintro ⟨n, hn, rfl, rfl⟩
    rw [if_pos (isNumber_encodeOP_N hn), decodeOP_N_encodeOP_N hn]

theorem encodeOP_N_ne (hn : n ≤ 16) : encodeOP_N n ≠ OP_INVALIDOPCODE := by
  intro h
  rcases isNumber_encodeOP_N hn with h0 | ⟨-, hhigh⟩
  · exact absurd (h.symm.trans h0) (by decide)
  · rw [h] at hhigh
    exact absurd hhigh (by decide)

theorem vch_of_encodeOP_N (hn : n ≤ 16) (h : getOp pc = some (encodeOP_N n, vch, pc')) :
    vch = [] := by
  refine vch_eq_nil h ?_
  rcases isNumber_encodeOP_N hn with h0 | ⟨hlow, -⟩
  · exact Or.inl h0
  · exact Or.inr (UInt8.lt_of_lt_of_le (by decide) hlow)

/-! ## A template -/

theorem matchTemplate_nil_iff :
    matchTemplate [] pc1 vSolutions = some v ↔ instructions pc1 = some [] ∧ v = vSolutions := by
  rw [matchTemplate, instructions_eq_nil]
  constructor
  · intro h
    split at h
    · rename_i hpc
      exact ⟨hpc, (Option.some.inj h).symm⟩
    · cases h
  · rintro ⟨rfl, rfl⟩
    rw [if_pos rfl]

/-! ## The keys of a template -/

theorem takeKeys_last (hkey : ¬ IsKey (opcode1, vch1)) (pc1 : CScript) :
    takeKeys vch1 opcode1 pc1 = ([], opcode1, vch1, pc1) := by
  rw [IsKey] at hkey
  rw [takeKeys, if_neg hkey]

theorem takeKeys_key {opcode' : UInt8} {vch' : Valtype} {pc1' : CScript}
    (hkey : IsKey (opcode1, vch1)) (hop : getOp pc1 = some (opcode', vch', pc1')) :
    takeKeys vch1 opcode1 pc1 =
      (vch1 :: (takeKeys vch' opcode' pc1').1, (takeKeys vch' opcode' pc1').2) := by
  rw [IsKey] at hkey
  rw [takeKeys, if_pos hkey]
  split
  · rename_i hnone
    rw [hop] at hnone
    exact nomatch hnone
  · rename_i hsome
    obtain ⟨rfl, rfl, rfl⟩ := getOp_unique hop hsome
    rfl

theorem takeKeys_stuck (hkey : IsKey (opcode1, vch1)) (hop : getOp pc1 = none) :
    takeKeys vch1 opcode1 pc1 = ([vch1], OP_INVALIDOPCODE, [], stuck pc1) := by
  rw [IsKey] at hkey
  rw [takeKeys, if_pos hkey]
  split
  · rfl
  · rename_i hsome
    rw [hop] at hsome
    exact nomatch hsome

/-- **The keys that are taken**, and the instruction behind them. -/
theorem takeKeys_sound (hget : getOp pc = some (opcode1, vch1, pc1))
    (hvalid : (takeKeys vch1 opcode1 pc1).2.1 ≠ OP_INVALIDOPCODE) :
    ∃ keys : List (UInt8 × Valtype), (takeKeys vch1 opcode1 pc1).1 = keys.map Prod.snd ∧
      (∀ key ∈ keys, IsKey key) ∧
      (∃ pc', getOp pc' = some ((takeKeys vch1 opcode1 pc1).2.1,
        (takeKeys vch1 opcode1 pc1).2.2.1, (takeKeys vch1 opcode1 pc1).2.2.2)) ∧
      instructions pc = (instructions (takeKeys vch1 opcode1 pc1).2.2.2).map fun ops =>
        keys ++ ((takeKeys vch1 opcode1 pc1).2.1, (takeKeys vch1 opcode1 pc1).2.2.1) :: ops := by
  induction hn : pc1.length using Nat.strong_induction_on generalizing pc pc1 opcode1 vch1 with
  | h n ih =>
    by_cases hkey : IsKey (opcode1, vch1)
    swap
    · rw [takeKeys_last hkey]
      exact ⟨[], rfl, by simp, ⟨pc, hget⟩, instructions_op hget⟩
    cases hop : getOp pc1 with
    | none =>
      rw [takeKeys_stuck hkey hop] at hvalid
      exact absurd rfl hvalid
    | some next =>
      obtain ⟨opcode', vch', pc1'⟩ := next
      rw [takeKeys_key hkey hop] at hvalid ⊢
      obtain ⟨keys, hkeys, hall, hlast, hops⟩ :=
        ih pc1'.length (hn ▸ length_getOp hop) hop hvalid rfl
      refine ⟨(opcode1, vch1) :: keys, ?_, List.forall_mem_cons.mpr ⟨hkey, hall⟩, hlast, ?_⟩
      · rw [List.map_cons, ← hkeys]
      · rw [instructions_op hget, hops, Option.map_map]
        rfl

/-- Keys with an instruction behind them that is none are taken. -/
theorem takeKeys_complete {keys : List (UInt8 × Valtype)} {last : UInt8 × Valtype}
    (hops : instructions pc = some (keys ++ last :: ops)) (hall : ∀ key ∈ keys, IsKey key)
    (hlast : ¬ IsKey last) :
    ∃ opcode1 vch1 pc1, getOp pc = some (opcode1, vch1, pc1) ∧
      ∃ pc', takeKeys vch1 opcode1 pc1 = (keys.map Prod.snd, last.1, last.2, pc') ∧
        instructions pc' = some ops := by
  induction keys generalizing pc with
  | nil =>
    obtain ⟨pc1, hget, hrest⟩ := instructions_eq_cons.mp hops
    exact ⟨last.1, last.2, pc1, hget, pc1, takeKeys_last hlast pc1, hrest⟩
  | cons key keys ih =>
    obtain ⟨hkey, hall'⟩ := List.forall_mem_cons.mp hall
    obtain ⟨pc1, hget, hrest⟩ := instructions_eq_cons.mp hops
    obtain ⟨opcode1, vch1, pc1', hget', pc', htake, hops'⟩ := ih hrest hall'
    refine ⟨key.1, key.2, pc1, hget, pc', ?_, hops'⟩
    rw [takeKeys_key hkey hget', htake]
    rfl

/-! ## The types -/

/-- A row of instructions fits a template without a placeholder for keys. -/
def Fits : List UInt8 → List (UInt8 × Valtype) → List Valtype → List Valtype → Prop
  | [], ops, vSolutions, v => ops = [] ∧ v = vSolutions
  | opcode2 :: pc2, ops, vSolutions, v => ∃ op ops' found, ops = op :: ops' ∧
      matchOp opcode2 op.1 op.2 = some found ∧ Fits pc2 ops' (vSolutions ++ found) v

theorem matchTemplate_iff_fits (hkeys : OP_PUBKEYS ∉ pc2) :
    matchTemplate pc2 pc1 vSolutions = some v ↔
      ∃ ops, instructions pc1 = some ops ∧ Fits pc2 ops vSolutions v := by
  induction pc2 generalizing pc1 vSolutions with
  | nil =>
    rw [matchTemplate_nil_iff]
    constructor
    · rintro ⟨hops, rfl⟩
      exact ⟨[], hops, rfl, rfl⟩
    · rintro ⟨_, hops, rfl, rfl⟩
      exact ⟨hops, rfl⟩
  | cons opcode2 pc2 ih =>
    rw [List.mem_cons, not_or] at hkeys
    obtain ⟨hne, hkeys'⟩ := hkeys
    rw [matchTemplate_cons_iff (Ne.symm hne)]
    constructor
    · rintro ⟨opcode1, vch1, pc1', found, hget, hmatch, hrest⟩
      obtain ⟨ops, hops, hfits⟩ := (ih hkeys').mp hrest
      exact ⟨(opcode1, vch1) :: ops, instructions_eq_cons.mpr ⟨pc1', hget, hops⟩,
        (opcode1, vch1), ops, found, rfl, hmatch, hfits⟩
    · rintro ⟨_, hops, op, ops, found, rfl, hmatch, hfits⟩
      obtain ⟨pc1', hget, hops'⟩ := instructions_eq_cons.mp hops
      exact ⟨op.1, op.2, pc1', found, hget, hmatch, (ih hkeys').mpr ⟨ops, hops', hfits⟩⟩

theorem fits_self (hop : opcode2 ≠ OP_PUBKEY ∧ opcode2 ≠ OP_PUBKEYHASH ∧
    opcode2 ≠ OP_SMALLINTEGER) :
    Fits (opcode2 :: pc2) ops vSolutions v ↔
      ∃ ops', ops = (opcode2, []) :: ops' ∧ Fits pc2 ops' vSolutions v := by
  constructor
  · rintro ⟨⟨opcode1, vch1⟩, ops', found, rfl, hmatch, hfits⟩
    obtain ⟨rfl, rfl, rfl⟩ := (matchOp_self_iff hop).mp hmatch
    rw [List.append_nil] at hfits
    exact ⟨ops', rfl, hfits⟩
  · rintro ⟨ops', rfl, hfits⟩
    refine ⟨_, ops', [], rfl, (matchOp_self_iff hop).mpr ⟨rfl, rfl, rfl⟩, ?_⟩
    rwa [List.append_nil]

theorem fits_pubKey : Fits (OP_PUBKEY :: pc2) ops vSolutions v ↔
      ∃ key ops', IsKey key ∧ ops = key :: ops' ∧ Fits pc2 ops' (vSolutions ++ [key.2]) v := by
  constructor
  · rintro ⟨key, ops', found, rfl, hmatch, hfits⟩
    obtain ⟨hkey, rfl⟩ := matchOp_pubKey_iff.mp hmatch
    exact ⟨key, ops', hkey, rfl, hfits⟩
  · rintro ⟨key, ops', hkey, rfl, hfits⟩
    exact ⟨key, ops', [key.2], rfl, matchOp_pubKey_iff.mpr ⟨hkey, rfl⟩, hfits⟩

theorem fits_pubKeyHash : Fits (OP_PUBKEYHASH :: pc2) ops vSolutions v ↔
      ∃ hash ops', hash.2.length = 20 ∧ ops = hash :: ops' ∧
        Fits pc2 ops' (vSolutions ++ [hash.2]) v := by
  constructor
  · rintro ⟨hash, ops', found, rfl, hmatch, hfits⟩
    obtain ⟨hhash, rfl⟩ := matchOp_pubKeyHash_iff.mp hmatch
    exact ⟨hash, ops', hhash, rfl, hfits⟩
  · rintro ⟨hash, ops', hhash, rfl, hfits⟩
    exact ⟨hash, ops', [hash.2], rfl, matchOp_pubKeyHash_iff.mpr ⟨hhash, rfl⟩, hfits⟩

theorem matchTemplate_pubkey : matchTemplate [OP_PUBKEY, OP_CHECKSIG] script [] = some v ↔
      ∃ ops, instructions script = some ops ∧ HasForm ops v .pubkey := by
  rw [matchTemplate_iff_fits (by decide)]
  refine exists_congr fun ops => and_congr_right fun _ => ?_
  rw [fits_pubKey]
  constructor
  · rintro ⟨key, ops', hkey, rfl, hfits⟩
    obtain ⟨_, rfl, rfl, rfl⟩ := (fits_self (by decide)).mp hfits
    exact ⟨key, hkey, rfl, rfl⟩
  · rintro ⟨key, hkey, rfl, rfl⟩
    exact ⟨key, _, hkey, rfl, (fits_self (by decide)).mpr ⟨[], rfl, rfl, rfl⟩⟩

theorem matchTemplate_pubkeyhash :
    matchTemplate [OP_DUP, OP_HASH160, OP_PUBKEYHASH, OP_EQUALVERIFY, OP_CHECKSIG] script [] =
      some v ↔ ∃ ops, instructions script = some ops ∧ HasForm ops v .pubkeyhash := by
  rw [matchTemplate_iff_fits (by decide)]
  refine exists_congr fun ops => and_congr_right fun _ => ?_
  rw [fits_self (by decide)]
  constructor
  · rintro ⟨_, rfl, hfits1⟩
    obtain ⟨_, rfl, hfits2⟩ := (fits_self (by decide)).mp hfits1
    obtain ⟨hash, _, hhash, rfl, hfits3⟩ := fits_pubKeyHash.mp hfits2
    obtain ⟨_, rfl, hfits4⟩ := (fits_self (by decide)).mp hfits3
    obtain ⟨_, rfl, rfl, rfl⟩ := (fits_self (by decide)).mp hfits4
    exact ⟨hash, hhash, rfl, rfl⟩
  · rintro ⟨hash, hhash, rfl, rfl⟩
    refine ⟨_, rfl, (fits_self (by decide)).mpr ⟨_, rfl, ?_⟩⟩
    refine fits_pubKeyHash.mpr ⟨hash, _, hhash, rfl, ?_⟩
    exact (fits_self (by decide)).mpr ⟨_, rfl, (fits_self (by decide)).mpr ⟨[], rfl, rfl, rfl⟩⟩

/-- A number of keys, the keys, their number and the opcode: what the third template matches,
before the numbers are compared. -/
theorem matchTemplate_multisig :
    matchTemplate [OP_SMALLINTEGER, OP_PUBKEYS, OP_SMALLINTEGER, OP_CHECKMULTISIG] script [] =
      some v ↔ ∃ (m n : Nat) (keys : List (UInt8 × Valtype)), m ≤ 16 ∧ n ≤ 16 ∧
        (∀ key ∈ keys, IsKey key) ∧
        v = [UInt8.ofNat m] :: (keys.map Prod.snd ++ [[UInt8.ofNat n]]) ∧
        instructions script =
          some ((encodeOP_N m, []) :: (keys ++ [(encodeOP_N n, []), (OP_CHECKMULTISIG, [])])) := by
  rw [matchTemplate_cons_iff (by decide)]
  constructor
  · rintro ⟨_, vch₁, pc₁, _, hget1, hm, hrest⟩
    obtain ⟨m, hm16, rfl, rfl⟩ := matchOp_smallInteger_iff.mp hm
    obtain ⟨opcode₂, vch2, pc₂, _, hget2, hn, hlast⟩ := matchTemplate_keys_iff.mp hrest
    obtain ⟨n, hn16, hencoded, rfl⟩ := matchOp_smallInteger_iff.mp hn
    have hvalid : (takeKeys vch2 opcode₂ pc₂).2.1 ≠ OP_INVALIDOPCODE := by
      rw [hencoded]
      exact encodeOP_N_ne hn16
    obtain ⟨keys, hkeys, hall, ⟨pc', hget'⟩, hops⟩ := takeKeys_sound hget2 hvalid
    obtain ⟨ops, hops', hfits⟩ := (matchTemplate_iff_fits (by decide)).mp hlast
    obtain ⟨_, rfl, rfl, rfl⟩ := (fits_self (by decide)).mp hfits
    rw [hencoded] at hget'
    obtain rfl := vch_of_encodeOP_N hm16 hget1
    refine ⟨m, n, keys, hm16, hn16, hall, ?_, ?_⟩
    · rw [hkeys, List.nil_append, List.singleton_append, List.cons_append]
    · rw [instructions_op hget1, hops, hops', hencoded, vch_of_encodeOP_N hn16 hget']
      rfl
  · rintro ⟨m, n, keys, hm16, hn16, hall, rfl, hops⟩
    obtain ⟨pc₁, hget1, hops1⟩ := instructions_eq_cons.mp hops
    refine ⟨_, _, pc₁, _, hget1, matchOp_smallInteger_iff.mpr ⟨m, hm16, rfl, rfl⟩, ?_⟩
    obtain ⟨opcode₂, vch2, pc₂, hget2, pc', htake, hops'⟩ :=
      takeKeys_complete hops1 hall (fun h => absurd h.1 (Nat.not_succ_le_zero 32))
    refine matchTemplate_keys_iff.mpr ⟨opcode₂, vch2, pc₂, [[UInt8.ofNat n]], hget2, ?_, ?_⟩
    · rw [htake]
      exact matchOp_smallInteger_iff.mpr ⟨n, hn16, rfl, rfl⟩
    · rw [htake]
      refine (matchTemplate_iff_fits (by decide)).mpr ⟨_, hops', ?_⟩
      exact (fits_self (by decide)).mpr ⟨[], rfl, rfl, rfl⟩

/-- The comparison of the numbers leaves the form of a multisignature script. -/
theorem multisig_iff :
    (matchTemplate [OP_SMALLINTEGER, OP_PUBKEYS, OP_SMALLINTEGER, OP_CHECKMULTISIG] script [] =
        some v ∧
      ¬ (firstNumber v < 1 ∨ lastNumber v < 1 ∨ firstNumber v > lastNumber v ∨
        v.length - 2 ≠ lastNumber v)) ↔
      ∃ ops, instructions script = some ops ∧ HasForm ops v .multisig := by
  have hnumbers (m n : Nat) (hm : m ≤ 16) (hn : n ≤ 16) (keys : List (UInt8 × Valtype)) :
      firstNumber ([UInt8.ofNat m] :: (keys.map Prod.snd ++ [[UInt8.ofNat n]])) = m ∧
        lastNumber ([UInt8.ofNat m] :: (keys.map Prod.snd ++ [[UInt8.ofNat n]])) = n ∧
        ([UInt8.ofNat m] :: (keys.map Prod.snd ++ [[UInt8.ofNat n]])).length - 2 = keys.length := by
    refine ⟨?_, ?_, by simp⟩
    · change (UInt8.ofNat m).toNat = m
      rw [UInt8.toNat_ofNat']
      omega
    · rw [lastNumber, ← List.cons_append, List.getLastD_concat]
      change (UInt8.ofNat n).toNat = n
      rw [UInt8.toNat_ofNat']
      omega
  rw [matchTemplate_multisig]
  constructor
  · rintro ⟨⟨m, n, keys, hm16, hn16, hall, rfl, hops⟩, hcompared⟩
    obtain ⟨hfirst, hlast, hlength⟩ := hnumbers m n hm16 hn16 keys
    rw [hfirst, hlast, hlength] at hcompared
    exact ⟨_, hops, m, n, keys, by omega, by omega, hn16, by omega, hall, rfl, rfl⟩
  · rintro ⟨_, hops, m, n, keys, hm, hmn, hn16, hlen, hall, rfl, rfl⟩
    obtain ⟨hfirst, hlast, hlength⟩ := hnumbers m n (by omega) hn16 keys
    refine ⟨⟨m, n, keys, by omega, hn16, hall, rfl, hops⟩, ?_⟩
    rw [hfirst, hlast, hlength]
    omega

theorem scriptForDestination_scriptID (scriptID : Uint160) :
    scriptForDestination (.scriptID scriptID) =
      OP_HASH160 :: 0x14 :: (scriptID.1 ++ [OP_EQUAL]) := by
  have hpush : push scriptID.1 = 0x14 :: scriptID.1 := by
    rw [push, if_pos (by rw [scriptID.2]; decide), scriptID.2]
    rfl
  rw [scriptForDestination, hpush]
  rfl

theorem hashBytes_scriptID (scriptID : Uint160) :
    ((scriptForDestination (.scriptID scriptID)).drop 2).take 20 = scriptID.1 := by
  rw [scriptForDestination_scriptID, List.drop_succ_cons, List.drop_succ_cons, List.drop_zero]
  exact List.take_left' scriptID.2

theorem isPayToScriptHash_iff : isPayToScriptHash script = true ↔
    ∃ scriptID : Uint160, script = scriptForDestination (.scriptID scriptID) ∧
      (script.drop 2).take 20 = scriptID.1 := by
  constructor
  · intro h
    rw [isPayToScriptHash, Bool.and_eq_true, Bool.and_eq_true, Bool.and_eq_true, beq_iff_eq,
      beq_iff_eq, beq_iff_eq, beq_iff_eq] at h
    obtain ⟨⟨⟨hlen, hhash⟩, hsize⟩, hequal⟩ := h
    obtain ⟨opcode₁, opcode₂, rest, rfl⟩ : ∃ a b rest, script = a :: b :: rest := by
      cases script with
      | nil => cases hlen
      | cons a tail =>
        cases tail with
        | nil => cases hlen
        | cons b rest => exact ⟨a, b, rest, rfl⟩
    have hrest : rest.length = 21 := by
      rw [List.length_cons, List.length_cons] at hlen
      omega
    have hlast : rest = rest.take 20 ++ [OP_EQUAL] := by
      have hdrop : rest.drop 20 = [OP_EQUAL] := by
        have hindex : 20 < rest.length := by omega
        have hget : rest[20] = OP_EQUAL := by
          rw [List.getD_cons_succ, List.getD_cons_succ, List.getD_eq_getElem _ _ hindex] at hequal
          exact hequal
        rw [List.drop_eq_getElem_cons hindex, hget, List.drop_eq_nil_of_le (by omega)]
      rw [← hdrop, List.take_append_drop]
    refine ⟨⟨rest.take 20, by rw [List.length_take]; omega⟩, ?_, rfl⟩
    rw [scriptForDestination_scriptID, ← hlast]
    rw [List.getD_cons_zero] at hhash
    rw [List.getD_cons_succ, List.getD_cons_zero] at hsize
    rw [hhash, hsize]
  · rintro ⟨scriptID, rfl, -⟩
    have hlast : (scriptID.1 ++ [OP_EQUAL]).getD 20 0 = OP_EQUAL := by
      rw [List.getD_append_right _ _ _ _ (by rw [scriptID.2]), scriptID.2]
      rfl
    rw [isPayToScriptHash, length_scriptForDestination_scriptID, scriptForDestination_scriptID,
      List.getD_cons_succ (n := 21), List.getD_cons_succ (n := 20), hlast]
    rfl

theorem instructions_scriptID (scriptID : Uint160) :
    instructions (scriptForDestination (.scriptID scriptID)) =
      some [(OP_HASH160, []), (0x14, scriptID.1), (OP_EQUAL, [])] := by
  rw [scriptForDestination_scriptID]
  have hpush : getOp (0x14 :: (scriptID.1 ++ [OP_EQUAL])) = some (0x14, scriptID.1, [OP_EQUAL]) :=
    getOp_direct (by decide) (by rw [scriptID.2]; decide)
      (by rw [List.length_append, scriptID.2]; decide)
  refine instructions_eq_cons.mpr ⟨_, rfl, instructions_eq_cons.mpr ⟨_, hpush, ?_⟩⟩
  exact instructions_eq_cons.mpr ⟨[], rfl, instructions_nil⟩

theorem nullData_iff : (isUnspendable script && isPushOnly script.tail) = true ↔
      ∃ ops, instructions script = some ops ∧ HasForm ops [] .nullData := by
  rw [Bool.and_eq_true]
  constructor
  · rintro ⟨hspend, hpush⟩
    obtain ⟨pushes, hops, hall⟩ := isPushOnly_iff.mp hpush
    cases script with
    | nil => exact absurd hspend (by decide)
    | cons opcode rest =>
      obtain rfl : opcode = OP_RETURN := by simpa [isUnspendable] using hspend
      exact ⟨_, instructions_eq_cons.mpr ⟨rest, rfl, hops⟩, pushes, hall, rfl, rfl⟩
  · rintro ⟨_, hops, pushes, hall, rfl, -⟩
    obtain ⟨pc', hget, hops'⟩ := instructions_eq_cons.mp hops
    obtain ⟨i, hopcode, -, rfl⟩ := Instruction.exists_of_getOp hget
    have hbytes : i.bytes ++ pc' = OP_RETURN :: (i.size ++ i.vch ++ pc') := by
      rw [Instruction.bytes, hopcode, List.cons_append]
    rw [hbytes] at hget ⊢
    have hsingle : getOp (OP_RETURN :: (i.size ++ i.vch ++ pc')) =
        some (OP_RETURN, [], i.size ++ i.vch ++ pc') := rfl
    obtain ⟨-, -, htail⟩ := getOp_unique hget hsingle
    rw [← htail]
    exact ⟨rfl, isPushOnly_iff.mpr ⟨pushes, hops', hall⟩⟩

/-- By its first instruction a row of instructions can be of one type only. -/
def headType : List (UInt8 × Valtype) → TxnOutType
  | [] => .nonstandard
  | op :: _ =>
    if op.2 ≠ [] then .pubkey
    else if op.1 = OP_RETURN then .nullData
    else if op.1 = OP_DUP then .pubkeyhash
    else if op.1 = OP_HASH160 then .scripthash
    else .multisig

theorem HasForm.headType {t : TxnOutType} (h : HasForm ops v t) : CScript.headType ops = t := by
  cases t with
  | nonstandard => exact h.elim
  | pubkey =>
    obtain ⟨key, hkey, rfl, -⟩ := h
    have hne : key.2 ≠ [] := by
      intro hnil
      have hlow := hkey.1
      rw [hnil] at hlow
      exact absurd hlow (by decide)
    exact if_pos hne
  | pubkeyhash =>
    obtain ⟨hash, -, rfl, -⟩ := h
    rfl
  | scripthash =>
    obtain ⟨hash, -, rfl, -⟩ := h
    rfl
  | multisig =>
    obtain ⟨m, n, keys, hm, hmn, hn, -, -, rfl, -⟩ := h
    have hne : ∀ opcode : UInt8, 96 < opcode.toNat → encodeOP_N m ≠ opcode := by
      intro opcode hlt heq
      rw [← heq, toNat_encodeOP_N hm (by omega)] at hlt
      omega
    rw [CScript.headType, if_neg (by simp), if_neg (hne _ (by decide)),
      if_neg (hne _ (by decide)), if_neg (hne _ (by decide))]
  | nullData =>
    obtain ⟨pushes, -, rfl, -⟩ := h
    rfl

theorem Recognised.hasForm {t : TxnOutType} (h : Recognised script t v) :
    ∃ ops, instructions script = some ops ∧ HasForm ops v t := by
  rw [Recognised] at h
  split at h
  · rename_i hp2sh
    obtain ⟨scriptID, rfl, rfl⟩ := h
    rw [hp2sh]
    exact ⟨_, instructions_scriptID scriptID, _, scriptID.2, rfl, rfl⟩
  · exact h

theorem Recognised.of_hasForm {t : TxnOutType} (ht : t ≠ .scripthash)
    (h : ∃ ops, instructions script = some ops ∧ HasForm ops v t) : Recognised script t v := by
  rw [Recognised, if_neg ht]
  exact h

theorem Recognised.type_unique {t t' : TxnOutType} {v' : List Valtype} (h : Recognised script t v)
    (h' : Recognised script t' v') : t = t' := by
  obtain ⟨ops, hops, hform⟩ := h.hasForm
  obtain ⟨ops', hops', hform'⟩ := h'.hasForm
  obtain rfl := Option.some.inj (hops.symm.trans hops')
  rw [← hform.headType, hform'.headType]

theorem solver_sound {t : TxnOutType} (h : solver script = some (t, v)) :
    Recognised script t v := by
  unfold solver at h
  split at h
  · rename_i hp2sh
    obtain ⟨rfl, rfl⟩ := Prod.mk.inj (Option.some.inj h)
    obtain ⟨scriptID, hscript, hid⟩ := isPayToScriptHash_iff.mp hp2sh
    exact ⟨scriptID, hscript, by rw [hid]⟩
  split at h
  · rename_i hnull
    obtain ⟨rfl, rfl⟩ := Prod.mk.inj (Option.some.inj h)
    exact .of_hasForm (by decide) (nullData_iff.mp hnull)
  split at h
  · rename_i hmatch
    obtain ⟨rfl, rfl⟩ := Prod.mk.inj (Option.some.inj h)
    exact .of_hasForm (by decide) (matchTemplate_pubkey.mp hmatch)
  split at h
  · rename_i hmatch
    obtain ⟨rfl, rfl⟩ := Prod.mk.inj (Option.some.inj h)
    exact .of_hasForm (by decide) (matchTemplate_pubkeyhash.mp hmatch)
  split at h
  · rename_i hmatch
    dsimp only at h
    split at h
    · exact nomatch h
    · rename_i hnumbers
      obtain ⟨rfl, rfl⟩ := Prod.mk.inj (Option.some.inj h)
      exact .of_hasForm (by decide) (multisig_iff.mp ⟨hmatch, hnumbers⟩)
  · exact nomatch h

theorem solver_of_recognised {t : TxnOutType} (h : Recognised script t v) :
    solver script = some (t, v) := by
  have hp2sh : t ≠ .scripthash → ¬ isPayToScriptHash script = true := by
    intro ht hp
    obtain ⟨scriptID, hscript, -⟩ := isPayToScriptHash_iff.mp hp
    have hother : Recognised script .scripthash [scriptID.1] := ⟨scriptID, hscript, rfl⟩
    exact ht (h.type_unique hother)
  have hnull : t ≠ .nullData → ¬ (isUnspendable script && isPushOnly script.tail) = true :=
    fun ht hn => ht (h.type_unique (.of_hasForm (by decide) (nullData_iff.mp hn)))
  have hpubkey : t ≠ .pubkey → matchTemplate [OP_PUBKEY, OP_CHECKSIG] script [] = none :=
    fun ht => Option.eq_none_iff_forall_ne_some.mpr fun v' hmatch =>
      ht (h.type_unique (.of_hasForm (by decide) (matchTemplate_pubkey.mp hmatch)))
  have hpubkeyhash : t ≠ .pubkeyhash → matchTemplate
      [OP_DUP, OP_HASH160, OP_PUBKEYHASH, OP_EQUALVERIFY, OP_CHECKSIG] script [] = none :=
    fun ht => Option.eq_none_iff_forall_ne_some.mpr fun v' hmatch =>
      ht (h.type_unique (.of_hasForm (by decide) (matchTemplate_pubkeyhash.mp hmatch)))
  rw [solver]
  cases t with
  | nonstandard =>
    obtain ⟨ops, -, hform⟩ := h.hasForm
    exact hform.elim
  | scripthash =>
    obtain ⟨scriptID, rfl, rfl⟩ := h
    rw [if_pos (isPayToScriptHash_iff.mpr ⟨scriptID, rfl, hashBytes_scriptID scriptID⟩),
      hashBytes_scriptID]
  | nullData =>
    obtain ⟨ops, hops, hform⟩ := h.hasForm
    obtain rfl : v = [] := by
      obtain ⟨_, -, -, hv⟩ := hform
      exact hv
    rw [if_neg (hp2sh (by decide)), if_pos (nullData_iff.mpr ⟨ops, hops, hform⟩)]
  | pubkey =>
    rw [if_neg (hp2sh (by decide)), if_neg (hnull (by decide)),
      matchTemplate_pubkey.mpr h.hasForm]
  | pubkeyhash =>
    rw [if_neg (hp2sh (by decide)), if_neg (hnull (by decide)), hpubkey (by decide),
      matchTemplate_pubkeyhash.mpr h.hasForm]
  | multisig =>
    obtain ⟨hmatch, hnumbers⟩ := multisig_iff.mpr h.hasForm
    rw [if_neg (hp2sh (by decide)), if_neg (hnull (by decide)), hpubkey (by decide),
      hpubkeyhash (by decide), hmatch]
    dsimp only
    rw [if_neg hnumbers]

theorem solver_iff {t : TxnOutType} : solver script = some (t, v) ↔ Recognised script t v :=
  ⟨solver_sound, solver_of_recognised⟩

/-! ## Destinations and multisignature scripts -/

/-- `ExtractDestination`; a vector that makes no valid key has no address. -/
def extractDestination (hash160 : Valtype → Uint160) (scriptPubKey : CScript) :
    Option CTxDestination :=
  match solver scriptPubKey with
  | some (.pubkey, vSolutions) =>
    let vch := vSolutions.headD []
    if !CPubKey.isValid vch then none else some (.keyID (hash160 vch))
  | some (.pubkeyhash, vSolutions) => some (.keyID (toUint160 (vSolutions.headD [])))
  | some (.scripthash, vSolutions) => some (.scriptID (toUint160 (vSolutions.headD [])))
  -- Multisig txns have more than one address...
  | _ => none

/-- `GetScriptForMultisig`; a key is its bytes. -/
def scriptForMultisig (nRequired : Nat) (keys : List Valtype) : CScript :=
  [encodeOP_N nRequired] ++ pushAll keys ++ [encodeOP_N keys.length, OP_CHECKMULTISIG]

theorem toUint160_val (id : Uint160) : toUint160 id.1 = id := by rw [toUint160, dif_pos id.2]

theorem recognised_keyID (keyID : Uint160) :
    Recognised (scriptForDestination (.keyID keyID)) .pubkeyhash [keyID.1] := by
  have hcount : (keyID.1 ++ [OP_EQUALVERIFY, OP_CHECKSIG]).length < 2 ^ 32 := by
    rw [List.length_append, keyID.2]
    decide
  obtain ⟨opcode, hpush, -⟩ := getOp_push (by rw [keyID.2]; decide) hcount
  refine .of_hasForm (by decide) ⟨_, ?_, (opcode, keyID.1), keyID.2, rfl, rfl⟩
  rw [scriptForDestination_keyID]
  refine instructions_eq_cons.mpr ⟨_, rfl, instructions_eq_cons.mpr ⟨_, rfl, ?_⟩⟩
  refine instructions_eq_cons.mpr ⟨_, hpush, instructions_eq_cons.mpr ⟨_, rfl, ?_⟩⟩
  exact instructions_eq_cons.mpr ⟨[], rfl, instructions_nil⟩

/-- **The address of a script for an address is that address.** -/
theorem extractDestination_scriptForDestination (hash160 : Valtype → Uint160)
    {dest : CTxDestination} (hdest : dest ≠ .noDestination) :
    extractDestination hash160 (scriptForDestination dest) = some dest := by
  cases dest with
  | noDestination => exact absurd rfl hdest
  | keyID keyID =>
    rw [extractDestination, solver_iff.mpr (recognised_keyID keyID)]
    exact congrArg (some ∘ CTxDestination.keyID) (toUint160_val keyID)
  | scriptID scriptID =>
    have hrecognised : Recognised (scriptForDestination (.scriptID scriptID)) .scripthash
        [scriptID.1] := ⟨scriptID, rfl, rfl⟩
    rw [extractDestination, solver_iff.mpr hrecognised]
    exact congrArg (some ∘ CTxDestination.scriptID) (toUint160_val scriptID)

theorem instructions_pushAll (hsize : ∀ b ∈ values, b.length ≤ 0xffff) {rest : CScript}
    (hlen : (pushAll values ++ rest).length < 2 ^ 32) {last : List (UInt8 × Valtype)}
    (hrest : instructions rest = some last) :
    ∃ ops : List (UInt8 × Valtype), ops.map Prod.snd = values ∧
      instructions (pushAll values ++ rest) = some (ops ++ last) := by
  induction values with
  | nil => exact ⟨[], rfl, hrest⟩
  | cons b values ih =>
    have hcons : pushAll (b :: values) ++ rest = push b ++ (pushAll values ++ rest) := by
      rw [pushAll, List.flatMap_cons, List.append_assoc, pushAll]
    have hle : b.length ≤ (push b).length := by
      rw [push, List.length_append]
      exact Nat.le_add_left _ _
    rw [hcons, List.length_append] at hlen
    obtain ⟨hb, hsize'⟩ := List.forall_mem_cons.mp hsize
    obtain ⟨ops, hops, hinstructions⟩ := ih hsize' (by omega)
    have hcount : (b ++ (pushAll values ++ rest)).length < 2 ^ 32 := by
      rw [List.length_append]
      omega
    obtain ⟨opcode, hget, -⟩ := getOp_push hb hcount
    refine ⟨(opcode, b) :: ops, by rw [List.map_cons, hops], ?_⟩
    rw [hcons, instructions_op hget, hinstructions]
    rfl

theorem isKey_of_isValid (h : CPubKey.isValid vch = true) (opcode : UInt8) :
    IsKey (opcode, vch) := by
  cases vch with
  | nil => exact nomatch h
  | cons chHeader rest =>
    have hlen : (chHeader :: rest).length = CPubKey.getLen chHeader := beq_iff_eq.mp h
    rw [IsKey, hlen, CPubKey.getLen]
    rw [CPubKey.getLen] at hlen
    split_ifs at hlen ⊢
    · decide
    · decide

theorem length_pushAll_le (h : ∀ b ∈ values, b.length ≤ 65) :
    (pushAll values).length ≤ 68 * values.length := by
  induction values with
  | nil => exact Nat.le_refl _
  | cons b values ih =>
    obtain ⟨hb, hvalues⟩ := List.forall_mem_cons.mp h
    have hpush := length_push_le b (by omega)
    have hrest := ih hvalues
    rw [pushAll, List.flatMap_cons, List.length_append, List.length_cons]
    rw [pushAll] at hrest
    omega

theorem getOp_encodeOP_N (h0 : 0 < n) (h : n ≤ 16) (rest : CScript) :
    getOp (encodeOP_N n :: rest) = some (encodeOP_N n, [], rest) := by
  have hhigh : ¬ encodeOP_N n ≤ OP_PUSHDATA4 := by
    have h4 : OP_PUSHDATA4.toNat = 78 := rfl
    rw [UInt8.le_iff_toNat_le, toNat_encodeOP_N h0 h, h4]
    omega
  rw [getOp, if_neg hhigh]

/-- **A multisignature script is recognised**, with its numbers and its keys in order. -/
theorem solver_scriptForMultisig {m : Nat} {keys : List Valtype} (hm : 1 ≤ m)
    (hmn : m ≤ keys.length) (hn : keys.length ≤ 16)
    (hvalid : ∀ key ∈ keys, CPubKey.isValid key = true) :
    solver (scriptForMultisig m keys) =
      some (.multisig, [UInt8.ofNat m] :: (keys ++ [[UInt8.ofNat keys.length]])) := by
  have hkey (key : Valtype) (hmem : key ∈ keys) : 33 ≤ key.length ∧ key.length ≤ 65 :=
    isKey_of_isValid (hvalid key hmem) OP_0
  have hlen := length_pushAll_le fun key hmem => (hkey key hmem).2
  have hlast : instructions [encodeOP_N keys.length, OP_CHECKMULTISIG] =
      some [(encodeOP_N keys.length, []), (OP_CHECKMULTISIG, [])] :=
    instructions_eq_cons.mpr ⟨_, getOp_encodeOP_N (by omega) hn _,
      instructions_eq_cons.mpr ⟨[], rfl, instructions_nil⟩⟩
  have hcount : (pushAll keys ++ [encodeOP_N keys.length, OP_CHECKMULTISIG]).length < 2 ^ 32 := by
    rw [List.length_append, List.length_cons, List.length_singleton]
    omega
  have hsize (key : Valtype) (hmem : key ∈ keys) : key.length ≤ 0xffff :=
    (hkey key hmem).2.trans (by decide)
  obtain ⟨ops, hops, hinstructions⟩ := instructions_pushAll hsize hcount hlast
  have hscript : scriptForMultisig m keys =
      encodeOP_N m :: (pushAll keys ++ [encodeOP_N keys.length, OP_CHECKMULTISIG]) := by
    rw [scriptForMultisig, List.append_assoc]
    rfl
  refine solver_iff.mpr (.of_hasForm (by decide) ⟨_, ?_, m, keys.length, ops, hm, hmn, hn, ?_, ?_,
    rfl, by rw [hops]⟩)
  · rw [hscript]
    exact instructions_eq_cons.mpr ⟨_, getOp_encodeOP_N hm (by omega) _, hinstructions⟩
  · rw [← hops, List.length_map]
  · intro op hmem
    exact hkey op.2 (hops ▸ List.mem_map_of_mem hmem)

end CScript

/-- **What `Solver` recognises**, each script as one type with one row of solutions; and the
scripts the wallet writes are among them. -/
theorem solver_recognises :
    (∀ (script : CScript) t vSolutions, script.solver = some (t, vSolutions) ↔
      script.Recognised t vSolutions) ∧
    (∀ (script : CScript) t t' vSolutions vSolutions', script.Recognised t vSolutions →
      script.Recognised t' vSolutions' → t = t' ∧ vSolutions = vSolutions') ∧
    (∀ script : CScript, script.solver = none ↔ ∀ t vSolutions, ¬ script.Recognised t vSolutions) ∧
    (∀ hash160 dest, dest ≠ .noDestination →
      CScript.extractDestination hash160 (scriptForDestination dest) = some dest) ∧
    (∀ (m : Nat) (keys : List Valtype), 1 ≤ m → m ≤ keys.length → keys.length ≤ 16 →
      (∀ key ∈ keys, CPubKey.isValid key = true) →
      (CScript.scriptForMultisig m keys).solver =
        some (.multisig, [UInt8.ofNat m] :: (keys ++ [[UInt8.ofNat keys.length]]))) := by
  refine ⟨fun _ _ _ => CScript.solver_iff, ?_, ?_, ?_, ?_⟩
  · intro script t t' v v' h h'
    have hsame := (CScript.solver_of_recognised h).symm.trans (CScript.solver_of_recognised h')
    exact Prod.mk.inj (Option.some.inj hsame)
  · intro script
    rw [Option.eq_none_iff_forall_ne_some]
    constructor
    · intro hnone t v h
      exact hnone (t, v) (CScript.solver_of_recognised h)
    · intro hnone r hsome
      exact hnone r.1 r.2 (CScript.solver_sound hsome)
  · exact fun hash160 dest hdest => CScript.extractDestination_scriptForDestination hash160 hdest
  · exact fun m keys hm hmn hn hvalid => CScript.solver_scriptForMultisig hm hmn hn hvalid

/-- A payment to a script with its hash pushed the long way has the instructions of one, and is
not recognised. -/
theorem solver_misses_long_scripthash :
    ¬ ∀ script t vSolutions, CScript.solver script = some (t, vSolutions) ↔
      ∃ ops, script.instructions = some ops ∧ CScript.HasForm ops vSolutions t := by
  intro hall
  let hash : Valtype := List.replicate 20 7
  let script : CScript := OP_HASH160 :: OP_PUSHDATA1 :: 0x14 :: (hash ++ [OP_EQUAL])
  have hops : script.instructions = some [(OP_HASH160, []), (OP_PUSHDATA1, hash), (OP_EQUAL, [])] :=
    CScript.instructions_eq_cons.mpr ⟨_, rfl, CScript.instructions_eq_cons.mpr
      ⟨[OP_EQUAL], rfl, CScript.instructions_eq_cons.mpr ⟨[], rfl, CScript.instructions_nil⟩⟩⟩
  have hfound : script.solver = some (.scripthash, [hash]) :=
    (hall script .scripthash [hash]).mpr ⟨_, hops, (OP_PUSHDATA1, hash), rfl, rfl, rfl⟩
  obtain ⟨scriptID, hscript, -⟩ := CScript.solver_sound hfound
  rw [CScript.scriptForDestination_scriptID] at hscript
  obtain ⟨-, htail⟩ := List.cons.inj hscript
  obtain ⟨hopcode, -⟩ := List.cons.inj htail
  exact absurd hopcode (by decide)

end BitBlocks
