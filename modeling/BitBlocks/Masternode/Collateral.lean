import BitBlocks.Masternode.TrialSpend
import BitBlocks.Masternode.Unique

/-!
# Entries and their collateral

Three checks are to tie a broadcast to its collateral. The signature is over a text that
names the keys, the address and the time, but not the input. The search of
`IsVinAssociatedWithPubkey` goes over all outputs of the transaction the input names, and
the trial spend asks of the very output only that it is unspent and worth enough. So the
input of a broadcast can be replaced, within what the last two allow.

An entry is bound when the holder of its key signed its data for its outpoint, and that
outpoint is a collateral of the key.
-/

namespace BitBlocks

open CMasternodeMan

/-- An output of the very value of a collateral, that pays the key. -/
def MasternodeText.isCollateral (T : MasternodeText) (pubkey : CPubKey) (out : CTxOut) : Prop :=
  out.nValue = nMasternodeCollateralLimit * COIN ∧ out.scriptPubKey = T.scriptForKey pubkey

/-- What is the same for every node: the outputs of a transaction, and who signed what. -/
structure MasternodeWorld where
  /-- The outputs of the transaction with a hash. -/
  vout : Uint256 → List CTxOut
  /-- The broadcasts that the holders of their keys made and signed. -/
  made : CMasternodeBroadcast → Prop

/-- The holder of the key signed the text, in a broadcast of the outpoint. -/
def MasternodeWorld.signedFor (W : MasternodeWorld) (T : MasternodeText) (pubkey : CPubKey)
    (text : List Char) (prevout : COutPoint) : Prop :=
  ∃ mnb, W.made mnb ∧ mnb.pubKeyCollateralAddress = pubkey ∧ mnb.strMessage T = text ∧
    mnb.vin.prevout = prevout

variable (T : MasternodeText) (R : Rules) (P : CChainParams) (X : TrialText) (W : MasternodeWorld)

/--
A node that a broadcast arrives at. What it finds of a transaction are its outputs, and a
signature it takes for good was made by the holder of the key.
-/
structure MasternodeNode where
  env : MasternodeEnv
  spend : SpendState
  trial : env.atAdd.acceptableInputs = fun vin => spend.acceptableInputs R P (X.trial vin)
  getTransaction : ∀ hash vout, env.getTransaction hash = some vout → vout = W.vout hash
  coins : ∀ prevout : COutPoint, spend.view.haveInput prevout = true →
    (W.vout prevout.hash)[prevout.n]? = some ((spend.view.get prevout.hash).out prevout.n)
  signature : ∀ pubkey sig text, env.verifyMessage pubkey sig text = true →
    ∃ prevout, W.signedFor T pubkey text prevout

/-- What an entry claims: its outpoint, its key, and the text that was signed. -/
structure Credentials where
  prevout : COutPoint
  pubkey : CPubKey
  text : List Char

structure Bound (c : Credentials) : Prop where
  signed : W.signedFor T c.pubkey c.text c.prevout
  output : ∃ out, (W.vout c.prevout.hash)[c.prevout.n]? = some out ∧ T.isCollateral c.pubkey out

namespace CMasternodeMan

variable {T R P X W} {man : CMasternodeMan} {env : MasternodeEnv} {mnb : CMasternodeBroadcast}
  {c : Credentials}

/-- A collateral of the key `[7]`, as much for somebody else, and some change. -/
def sampleVout : List CTxOut :=
  [⟨nMasternodeCollateralLimit * COIN, sampleText.scriptForKey [7], -10⟩,
    ⟨nMasternodeCollateralLimit * COIN, [0x51], -10⟩, ⟨5 * COIN, [0x51], -10⟩]

/-- A broadcast of the key `[7]`, for an output of the transaction. -/
def broadcastFor (n : Nat) (sigTime : Int) : CMasternodeBroadcast :=
  ⟨{ vin := ⟨⟨5, n⟩, [], 2 ^ 32 - 1⟩, addr := ⟨[], 58697⟩, pubKeyCollateralAddress := [7],
     pubKeyMasternode := [8], sig := [1], sigTime := sigTime, protocolVersion := 70000,
     lastPing := CMasternodePing.null }⟩

/-- The holder of the key `[7]` made two broadcasts, for the first of the outputs. -/
def sampleWorld : MasternodeWorld where
  vout hash := if hash = 5 then sampleVout else []
  made mnb := mnb = broadcastFor 0 8000 ∨ mnb = broadcastFor 0 9000

def sampleTrial : TrialText := ⟨[0x51], fun vin => 900 + vin.prevout.n⟩

def sampleSpend : SpendState where
  pcoinsTip txid := if txid = 5 then some { vout := sampleVout, nHeight := 50 } else none
  nHeight := 100

theorem sampleSpend_coins (prevout : COutPoint) (h : sampleSpend.view.haveInput prevout = true) :
    (sampleWorld.vout prevout.hash)[prevout.n]? =
      some ((sampleSpend.view.get prevout.hash).out prevout.n) := by
  obtain ⟨hash, n⟩ := prevout
  by_cases hhash : hash = 5
  · subst hhash
    unfold CCoinsView.haveInput CCoins.isAvailable at h
    have hn : n < 3 := of_decide_eq_true (Bool.and_eq_true_iff.mp h).1
    rcases n with _ | _ | _ | n
    · rfl
    · rfl
    · rfl
    · omega
  · have hnone : sampleSpend.view hash = none := by
      simp [SpendState.view, sampleSpend, hhash]
    simp [CCoinsView.haveInput, CCoinsView.get, hnone, CCoins.isAvailable] at h

def sampleNode :
    MasternodeNode sampleText Rules.transparent mainParams sampleTrial sampleWorld where
  env := { sampleEnv with
    verifyMessage := fun pubkey sig text => pubkey == [7] && sig == [1] &&
      (text == (broadcastFor 0 8000).strMessage sampleText ||
        text == (broadcastFor 0 9000).strMessage sampleText)
    getTransaction := fun hash => if hash = 5 then some sampleVout else none
    atAdd := {
      nAdjustedTime := 10000
      acceptableInputs := fun vin =>
        sampleSpend.acceptableInputs Rules.transparent mainParams (sampleTrial.trial vin) } }
  spend := sampleSpend
  trial := rfl
  getTransaction hash vout h := by
    by_cases hhash : hash = 5
    · simpa [sampleWorld, hhash] using h.symm
    · simp [hhash] at h
  coins := sampleSpend_coins
  signature pubkey sig text h := by
    simp only [Bool.and_eq_true, Bool.or_eq_true, beq_iff_eq] at h
    obtain ⟨⟨rfl, -⟩, rfl | rfl⟩ := h
    · exact ⟨_, broadcastFor 0 8000, Or.inl rfl, rfl, rfl, rfl⟩
    · exact ⟨_, broadcastFor 0 9000, Or.inr rfl, rfl, rfl, rfl⟩

/--
A broadcast as it was signed, after one with its input replaced by the change, and before
one with its input replaced by the other output: that has the hash of the good one.
-/
def sampleRun :
    List (MasternodeNode sampleText Rules.transparent mainParams sampleTrial sampleWorld ×
    CMasternodeBroadcast) :=
  [(sampleNode, broadcastFor 2 8000), (sampleNode, broadcastFor 0 9000),
    (sampleNode, broadcastFor 1 9000)]

end CMasternodeMan

end BitBlocks
