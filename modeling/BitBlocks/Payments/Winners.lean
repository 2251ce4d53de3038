import BitBlocks.Lib.Machine
import BitBlocks.Lib.Table
import BitBlocks.Node.Local

/-!
# Masternode payment votes

Masternodes vote on who is paid at a height (`mnw`, in `masternode-payments.cpp`).
`CanVote` is to keep every masternode to one vote a height, with one height remembered for
each; it remembers it before the signature is looked at.
-/

namespace BitBlocks

open Table

def MNPAYMENTS_SIGNATURES_TOTAL : Int := 10

structure CMasternodePaymentWinner where
  vinMasternode : CTxIn
  nBlockHeight : Int
  payee : CScript
  vchSig : List UInt8
deriving DecidableEq, Repr

/-- What a vote is hashed and signed as. -/
structure WinnerText where
  /-- `CHashWriter` on the payee, the height and the outpoint: the signature does not go in. -/
  hash : CScript → Int → COutPoint → Uint256
  /-- `CScript::ToString`. -/
  scriptToString : CScript → List Char

/-- What the handler reads of the rest of the node. -/
structure WinnerEnv where
  /-- Not lite mode, and `masternodeSync.IsBlockchainSynced()`. -/
  fActive : Bool
  /-- The peer's version is not below `ActiveProtocol()`. -/
  fPeerVersion : Bool
  /-- The height of the tip, if there is one and `cs_main` could be locked. -/
  nHeight : Option Int
  /-- `mnodeman.CountEnabled()`. -/
  nEnabled : Int
  /-- `pubKeyMasternode` and `protocolVersion` of `mnodeman.Find`. -/
  find : COutPoint → Option (List UInt8 × Int)
  /-- `ActiveProtocol()`. -/
  nActiveProtocol : Int
  /-- `GetMasternodeRank`, or -1. -/
  getMasternodeRank : COutPoint → Int → Int
  /-- `obfuScationSigner.VerifyMessage`. -/
  verifyMessage : List UInt8 → List UInt8 → List Char → Bool
  /-- `GetBlockHash` finds a block. -/
  getBlockHash : Int → Bool

structure CMasternodePayments where
  mapMasternodePayeeVotes : AList (fun _ : Uint256 => CMasternodePaymentWinner) := ∅
  mapMasternodeBlocks : AList (fun _ : Int => List CMasternodePayee) := ∅
  /-- `prevout.hash + prevout.n`, `nBlockHeight`. -/
  mapMasternodesLastVote : AList (fun _ : Uint256 => Int) := ∅

namespace CMasternodePaymentWinner

variable (T : WinnerText) (env : WinnerEnv) (winner : CMasternodePaymentWinner)

def getHash : Uint256 := T.hash winner.payee winner.nBlockHeight winner.vinMasternode.prevout

def signatureValid : Bool :=
  match env.find winner.vinMasternode.prevout with
  | none => false
  | some (pubKeyMasternode, _) =>
    env.verifyMessage pubKeyMasternode winner.vchSig
      (winner.vinMasternode.prevout.toStringShort ++ Decimal.text winner.nBlockHeight ++
        T.scriptToString winner.payee)

def isValid : Bool :=
  match env.find winner.vinMasternode.prevout with
  | none => false
  | some (_, protocolVersion) =>
    if protocolVersion < env.nActiveProtocol then false
    else if env.getMasternodeRank winner.vinMasternode.prevout (winner.nBlockHeight - 100) >
        MNPAYMENTS_SIGNATURES_TOTAL then false
    else true

end CMasternodePaymentWinner

/-- `CMasternodeBlockPayees::AddPayee`. -/
def addPayee (payeeIn : CScript) (nIncrement : Int) : List CMasternodePayee → List CMasternodePayee
  | [] => [⟨payeeIn, nIncrement⟩]
  | payee :: vecPayments =>
    if payee.scriptPubKey = payeeIn then
      { payee with nVotes := payee.nVotes + nIncrement } :: vecPayments
    else payee :: addPayee payeeIn nIncrement vecPayments

namespace CMasternodePayments

/-- The key of an outpoint in `mapMasternodesLastVote`. -/
def lastVoteKey (outMasternode : COutPoint) : Uint256 :=
  (outMasternode.hash + outMasternode.n) % 2 ^ 256

/-- The test of `CanVote`. -/
def mayVote (payments : CMasternodePayments) (outMasternode : COutPoint) (nBlockHeight : Int) :
    Bool :=
  payments.mapMasternodesLastVote.lookup (lastVoteKey outMasternode) != some nBlockHeight

def canVote (payments : CMasternodePayments) (outMasternode : COutPoint) (nBlockHeight : Int) :
    CMasternodePayments × Bool :=
  if !payments.mayVote outMasternode nBlockHeight then (payments, false)
  else
    ({ payments with
        mapMasternodesLastVote :=
          payments.mapMasternodesLastVote.insert (lastVoteKey outMasternode) nBlockHeight }, true)

variable (T : WinnerText) (env : WinnerEnv)

def addWinningMasternode (payments : CMasternodePayments) (winnerIn : CMasternodePaymentWinner) :
    CMasternodePayments × Bool :=
  if !env.getBlockHash (winnerIn.nBlockHeight - 100) then (payments, false)
  else if (payments.mapMasternodePayeeVotes.lookup (winnerIn.getHash T)).isSome then
    (payments, false)
  else
    ({ payments with
        mapMasternodePayeeVotes :=
          payments.mapMasternodePayeeVotes.insert (winnerIn.getHash T) winnerIn
        mapMasternodeBlocks := payments.mapMasternodeBlocks.insert winnerIn.nBlockHeight
          (addPayee winnerIn.payee 1
            ((payments.mapMasternodeBlocks.lookup winnerIn.nBlockHeight).getD [])) }, true)

/-- `nHeight - (mnodeman.CountEnabled() * 1.25)`, a double that becomes an `int`. -/
def nFirstBlock (nHeight : Int) : Int := (4 * nHeight - 5 * env.nEnabled).tdiv 4

/-- The `mnw` message. -/
def processWinner (payments : CMasternodePayments) (winner : CMasternodePaymentWinner) :
    CMasternodePayments :=
  if !env.fActive then payments
  else if !env.fPeerVersion then payments
  else
    match env.nHeight with
    | none => payments
    | some nHeight =>
      if (payments.mapMasternodePayeeVotes.lookup (winner.getHash T)).isSome then payments
      else if winner.nBlockHeight < nFirstBlock env nHeight ∨
        winner.nBlockHeight > nHeight + 20 then
        payments
      else if !winner.isValid env then payments
      else
        match payments.canVote winner.vinMasternode.prevout winner.nBlockHeight with
        | (payments', false) => payments'
        | (payments', true) =>
          if !winner.signatureValid T env then payments'
          else (payments'.addWinningMasternode T env winner).1

/-- A run: the messages, each with the node it arrives at. -/
def after (payments : CMasternodePayments) (run : List (WinnerEnv × CMasternodePaymentWinner)) :
    CMasternodePayments :=
  run.foldl (fun payments x => payments.processWinner T x.1 x.2) payments

/-! ## One vote a height -/

/-- At most one vote is stored for an outpoint and a height. -/
def OneVote (payments : CMasternodePayments) : Prop :=
  ∀ a b wa wb, payments.mapMasternodePayeeVotes.lookup a = some wa →
    payments.mapMasternodePayeeVotes.lookup b = some wb →
    wa.vinMasternode.prevout = wb.vinMasternode.prevout → wa.nBlockHeight = wb.nBlockHeight → a = b

/-- The message leaves the masternode its vote for the height, if it had it. -/
def KeepsVote (payments : CMasternodePayments) (winner : CMasternodePaymentWinner) : Prop :=
  (payments.processWinner T env winner).mayVote winner.vinMasternode.prevout winner.nBlockHeight =
    payments.mayVote winner.vinMasternode.prevout winner.nBlockHeight

/-- The handler gets as far as `CanVote`, and may go on. -/
def reaches (payments : CMasternodePayments) (winner : CMasternodePaymentWinner) : Bool :=
  env.fActive && env.fPeerVersion && env.nHeight.any (fun nHeight =>
      decide (nFirstBlock env nHeight ≤ winner.nBlockHeight ∧
        winner.nBlockHeight ≤ nHeight + 20)) &&
    !(payments.mapMasternodePayeeVotes.lookup (winner.getHash T)).isSome && winner.isValid env &&
    payments.mayVote winner.vinMasternode.prevout winner.nBlockHeight

/--
Nothing goes wrong with a message: if it gets past `CanVote`, it is signed; and if its
height is one whose block decides who votes, the masternode has no vote for it yet.
-/
structure Sound (payments : CMasternodePayments) (winner : CMasternodePaymentWinner) : Prop where
  signed : winner.signatureValid T env = true
  first : env.getBlockHash (winner.nBlockHeight - 100) = true →
    ∀ hash stored, payments.mapMasternodePayeeVotes.lookup hash = some stored →
      stored.vinMasternode.prevout = winner.vinMasternode.prevout →
      stored.nBlockHeight ≠ winner.nBlockHeight

variable {T env} {payments : CMasternodePayments} {winner : CMasternodePaymentWinner}

/-- The payments with the height remembered. -/
def remember (payments : CMasternodePayments) (winner : CMasternodePaymentWinner) :
    CMasternodePayments :=
  { payments with
    mapMasternodesLastVote := payments.mapMasternodesLastVote.insert
      (lastVoteKey winner.vinMasternode.prevout) winner.nBlockHeight }

theorem mayVote_remember : (payments.remember winner).mayVote winner.vinMasternode.prevout
    winner.nBlockHeight = false := by
  unfold remember mayVote
  dsimp only
  rw [lookup_insert, if_pos rfl]
  simp

/-- **What the handler does**, with its tests in one. -/
theorem processWinner_eq (T : WinnerText) (env : WinnerEnv) (payments : CMasternodePayments)
    (winner : CMasternodePaymentWinner) : payments.processWinner T env winner =
      if payments.reaches T env winner then
        if winner.signatureValid T env then
          ((payments.remember winner).addWinningMasternode T env winner).1
        else payments.remember winner
      else payments := by
  unfold processWinner reaches canVote
  cases env.fActive with
  | false => rfl
  | true =>
    cases env.fPeerVersion with
    | false => rfl
    | true =>
      cases env.nHeight with
      | none => rfl
      | some nHeight =>
        by_cases hrange : nFirstBlock env nHeight ≤ winner.nBlockHeight ∧
            winner.nBlockHeight ≤ nHeight + 20
        · have hrange' : ¬ (winner.nBlockHeight < nFirstBlock env nHeight ∨
              winner.nBlockHeight > nHeight + 20) := by omega
          have hany : (some nHeight).any (fun nHeight =>
              decide (nFirstBlock env nHeight ≤ winner.nBlockHeight ∧
                winner.nBlockHeight ≤ nHeight + 20)) = true := decide_eq_true hrange
          simp only [hany, hrange', remember]
          cases (payments.mapMasternodePayeeVotes.lookup (winner.getHash T)).isSome <;>
            cases winner.isValid env <;>
            cases payments.mayVote winner.vinMasternode.prevout winner.nBlockHeight <;>
            cases winner.signatureValid T env <;> simp
        · have hrange' : winner.nBlockHeight < nFirstBlock env nHeight ∨
              winner.nBlockHeight > nHeight + 20 := by omega
          simp [hrange, hrange']

variable (env) in
/-- A vote that is stored: under its own hash, which is new, if the block that decides is there. -/
theorem addWinningMasternode_votes
    (hnew : payments.mapMasternodePayeeVotes.lookup (winner.getHash T) = none) :
    ((payments.remember winner).addWinningMasternode T env winner).1.mapMasternodePayeeVotes =
      if env.getBlockHash (winner.nBlockHeight - 100) then
        payments.mapMasternodePayeeVotes.insert (winner.getHash T) winner
      else payments.mapMasternodePayeeVotes := by
  unfold addWinningMasternode remember
  dsimp only
  rw [hnew]
  cases env.getBlockHash (winner.nBlockHeight - 100) <;> rfl

/-- One more vote is the masternode's only one for the height iff it had none. -/
theorem oneVote_insert (h : payments.OneVote) (hash : Uint256) (payments' : CMasternodePayments)
    (hnew : payments.mapMasternodePayeeVotes.lookup hash = none)
    (hvotes : payments'.mapMasternodePayeeVotes =
      payments.mapMasternodePayeeVotes.insert hash winner) :
    payments'.OneVote ↔ ∀ a stored, payments.mapMasternodePayeeVotes.lookup a = some stored →
      stored.vinMasternode.prevout = winner.vinMasternode.prevout →
      stored.nBlockHeight ≠ winner.nBlockHeight := by
  have hlookup : ∀ a w, payments'.mapMasternodePayeeVotes.lookup a = some w ↔
      a = hash ∧ w = winner ∨ a ≠ hash ∧ payments.mapMasternodePayeeVotes.lookup a = some w := by
    intro a w
    rw [hvotes, lookup_insert]
    by_cases ha : a = hash <;> simp [ha, eq_comm]
  constructor
  · intro hone a stored ha hprevout hheight
    have hne : a ≠ hash := by
      intro he
      rw [he, hnew] at ha
      exact absurd ha (by simp)
    exact hne (hone a hash stored winner ((hlookup a stored).mpr (Or.inr ⟨hne, ha⟩))
      ((hlookup hash winner).mpr (Or.inl ⟨rfl, rfl⟩)) hprevout hheight)
  · intro hfirst a b wa wb ha hb hprevout hheight
    rcases (hlookup a wa).mp ha with ⟨rfl, rfl⟩ | ⟨-, ha⟩ <;>
      rcases (hlookup b wb).mp hb with ⟨rfl, rfl⟩ | ⟨-, hb⟩
    · rfl
    · exact absurd hheight.symm (hfirst b wb hb hprevout.symm)
    · exact absurd hheight (hfirst a wa ha hprevout)
    · exact h a b wa wb ha hb hprevout hheight

/-- **One message** keeps the votes apart, and costs no vote without a signature, iff it is
sound. -/
theorem processWinner_iff (h : payments.OneVote) : (payments.processWinner T env winner).OneVote ∧
        (winner.signatureValid T env = false → payments.KeepsVote T env winner) ↔
      (payments.reaches T env winner = true → payments.Sound T env winner) := by
  unfold KeepsVote
  rw [processWinner_eq]
  cases hreach : payments.reaches T env winner with
  | false => simp [h]
  | true =>
    have hguards := Bool.and_eq_true_iff.mp hreach
    have hmay : payments.mayVote winner.vinMasternode.prevout winner.nBlockHeight = true :=
      hguards.2
    have hnew : payments.mapMasternodePayeeVotes.lookup (winner.getHash T) = none := by
      simpa using (Bool.and_eq_true_iff.mp (Bool.and_eq_true_iff.mp hguards.1).1).2
    rw [if_pos rfl, hmay]
    cases hsigned : winner.signatureValid T env with
    | false =>
      -- the vote is used up
      rw [if_neg Bool.false_ne_true, mayVote_remember]
      refine ⟨fun hc => absurd (hc.2 rfl) Bool.false_ne_true, fun hc => ?_⟩
      exact absurd ((hc rfl).signed.symm.trans hsigned) (by simp)
    | true =>
      rw [if_pos rfl]
      have hvotes := addWinningMasternode_votes env hnew
      cases hblock : env.getBlockHash (winner.nBlockHeight - 100) with
      | false =>
        rw [hblock] at hvotes
        refine ⟨fun _ _ => ⟨hsigned, fun hc => ?_⟩, fun _ => ⟨?_, fun hc => ?_⟩⟩
        · rw [hblock] at hc
          exact absurd hc Bool.false_ne_true
        · unfold OneVote
          rw [hvotes]
          exact h
        · exact absurd hc.symm Bool.false_ne_true
      | true =>
        rw [hblock, if_pos rfl] at hvotes
        have hiff := oneVote_insert h _ _ hnew hvotes
        refine ⟨fun hc _ => ⟨hsigned, fun _ => hiff.mp hc.1⟩, fun hc => ⟨?_, fun he => ?_⟩⟩
        · exact hiff.mpr ((hc rfl).first hblock)
        · exact absurd he.symm Bool.false_ne_true

theorem after_concat (payments : CMasternodePayments)
    (run : List (WinnerEnv × CMasternodePaymentWinner)) (x : WinnerEnv × CMasternodePaymentWinner) :
    payments.after T (run ++ [x]) = (payments.after T run).processWinner T x.1 x.2 := by
  rw [after, List.foldl_append]
  rfl

/--
**One vote a height.** In a run of messages no masternode gets two votes for a height
stored, and none loses its vote for a height to a message with a bad signature, iff every
message that gets past `CanVote` is signed, and is the first one of its masternode for its
height (though it need not be for the last height the masternode voted for).
-/
theorem oneVote_iff (T : WinnerText) {payments : CMasternodePayments} (h : payments.OneVote)
    (run : List (WinnerEnv × CMasternodePaymentWinner)) :
    ((∀ past, past <+: run → (payments.after T past).OneVote) ∧
        ∀ past x, past ++ [x] <+: run → x.2.signatureValid T x.1 = false →
          (payments.after T past).KeepsVote T x.1 x.2) ↔
      ∀ past x, past ++ [x] <+: run → (payments.after T past).reaches T x.1 x.2 = true →
        (payments.after T past).Sound T x.1 x.2 := by
  constructor
  · intro ⟨hone, hkeeps⟩ past x hpast
    refine (processWinner_iff (hone past ((List.prefix_append past [x]).trans hpast))).mp ⟨?_, ?_⟩
    · rw [← after_concat]
      exact hone _ hpast
    · exact hkeeps past x hpast
  · intro hsound
    have hone : ∀ past, past <+: run → (payments.after T past).OneVote := by
      intro past hpast
      induction past using List.reverseRecOn with
      | nil => exact h
      | append_singleton past x ih =>
        rw [after_concat]
        exact ((processWinner_iff (ih ((List.prefix_append past [x]).trans hpast))).mpr
          (hsound past x hpast)).1
    refine ⟨hone, fun past x hpast => ?_⟩
    exact ((processWinner_iff (hone past ((List.prefix_append past [x]).trans hpast))).mpr
      (hsound past x hpast)).2

/-- A small hash function, and no text for scripts. -/
def sampleText : WinnerText where
  hash payee nBlockHeight prevout := payee.length + 10 * nBlockHeight.toNat + prevout.hash
  scriptToString _ := []

/--
A node at height 1000 where every masternode is known, the signature `[1]` is good, and one
masternode is ranked too low to vote.
-/
def sampleWinnerEnv : WinnerEnv where
  fActive := true
  fPeerVersion := true
  nHeight := some 1000
  nEnabled := 4
  find _ := some ([], 70000)
  nActiveProtocol := 70000
  getMasternodeRank outMasternode _ := if outMasternode.hash = 7 then 11 else 1
  verifyMessage _ vchSig _ := vchSig == [1]
  getBlockHash _ := true

def winnerFrom (hash : Uint256) (nBlockHeight : Int) (payee : CScript) (vchSig : List UInt8) :
    WinnerEnv × CMasternodePaymentWinner :=
  (sampleWinnerEnv, ⟨⟨⟨hash, 0⟩, [], 0⟩, nBlockHeight, payee, vchSig⟩)

def voteFor : Int → CScript → List UInt8 → WinnerEnv × CMasternodePaymentWinner := winnerFrom 5

/--
Three masternodes and two heights. The first vote comes again with a bad signature, one
without a good signature is from the masternode of low rank, and one is for a late height.
-/
def sampleVotes : List (WinnerEnv × CMasternodePaymentWinner) :=
  [winnerFrom 5 1001 [] [1], winnerFrom 6 1001 [0] [1], winnerFrom 5 1001 [] [2],
    winnerFrom 7 1001 [] [2], winnerFrom 5 1002 [] [1], winnerFrom 6 1021 [] [2]]

theorem Sound.of_entries (hsigned : winner.signatureValid T env = true)
    (hfirst : ∀ e ∈ payments.mapMasternodePayeeVotes.entries,
      e.2.vinMasternode.prevout = winner.vinMasternode.prevout →
      e.2.nBlockHeight ≠ winner.nBlockHeight) : payments.Sound T env winner :=
  ⟨hsigned, fun _ _ _ hstored => hfirst _ (AList.mem_lookup_iff.mp hstored)⟩

/-- Three votes are stored, and the messages without a good signature cost nobody a vote. -/
theorem oneVote_iff_of_votes :
    ((∀ past, past <+: sampleVotes → (({} : CMasternodePayments).after sampleText past).OneVote) ∧
      ∀ past x, past ++ [x] <+: sampleVotes → x.2.signatureValid sampleText x.1 = false →
        (({} : CMasternodePayments).after sampleText past).KeepsVote sampleText x.1 x.2) ∧
    (({} : CMasternodePayments).after sampleText sampleVotes).mapMasternodePayeeVotes.keys.length
      = 3 := by
  refine ⟨(oneVote_iff sampleText (fun a b wa wb ha _ _ _ => by simp at ha) _).mpr ?_, by decide⟩
  refine Machine.forall_step_cons ?_ (Machine.forall_step_cons ?_ (Machine.forall_step_cons ?_
    (Machine.forall_step_cons ?_ (Machine.forall_step_cons ?_ (Machine.forall_step_cons ?_
      Machine.forall_step_nil)))))
  · exact fun _ => .of_entries (by decide) (by decide)
  · exact fun _ => .of_entries (by decide) (by decide)
  · exact fun hreaches => absurd hreaches (by decide)
  · exact fun hreaches => absurd hreaches (by decide)
  · exact fun _ => .of_entries (by decide) (by decide)
  · exact fun hreaches => absurd hreaches (by decide)

/--
Votes for heights 1001, 1002 and 1001 again: there are two for 1001 in the end. And a
message for 1001 with a bad signature: the good one after it comes too late.
-/
theorem two_votes_and_forged : ¬ (({} : CMasternodePayments).after sampleText
        [voteFor 1001 [] [1], voteFor 1002 [] [1], voteFor 1001 [0] [1]]).OneVote ∧
      (voteFor 1001 [] [2]).2.signatureValid sampleText sampleWinnerEnv = false ∧
      ¬ ({} : CMasternodePayments).KeepsVote sampleText sampleWinnerEnv (voteFor 1001 [] [2]).2 ∧
      (({} : CMasternodePayments).after sampleText
        [voteFor 1001 [] [2], voteFor 1001 [] [1]]).mapMasternodePayeeVotes = ∅ := by
  refine ⟨fun h => ?_, by decide, ?_, rfl⟩
  · exact absurd (h 10015 10016 (voteFor 1001 [] [1]).2 (voteFor 1001 [0] [1]).2 rfl rfl rfl rfl)
      (by decide)
  · unfold KeepsVote
    decide

end CMasternodePayments

end BitBlocks
