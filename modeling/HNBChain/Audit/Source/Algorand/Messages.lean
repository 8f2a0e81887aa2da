import HNBChain.Audit.Source.Algorand.Handlers

/-!
# Messages as they come from the network

The payload of a message is JSON, and its handler decodes it. Here a message carries what
`Unmarshal` gives: none if the payload does not decode. An object inside it that the sender left out
is a nil pointer, none as well.

`processTDMMsg` is the switch of `processOuterMsg`. By `processTDMMsg_eq` each message has the
effect of one `PeerMsg`, which depends on the node only for proposals: the sender is looked at
before the payload.
-/
namespace HNBChain.Audit.Source.Algorand

open Lib Node

structure NetBlockID where
  hash : Bytes
  partsHeader : Option PartSetHeader
  /-- Whether the hash in the parts header, if it is empty, is `null` or left out. -/
  nilHash : Bool := true
  deriving DecidableEq

structure VoteMessage where
  validatorAddress : Bytes
  validatorIndex : Int32
  height : Nat
  round : Int32
  timestamp : Nat
  voteType : Int32
  blockID : Option NetBlockID
  signature : Bytes
  /-- Whether the signature, if it is empty, is `null` or left out. -/
  nilSignature : Bool := true
  deriving DecidableEq

structure ProposalMessage where
  height : Nat
  round : Int32
  blockPartsHeader : Option PartSetHeader
  polRound : Int32
  polBlockID : Option NetBlockID
  deriving DecidableEq

structure BlockPartMessage where
  height : Nat
  part : Option Part
  deriving DecidableEq

structure HasVoteMessage where
  height : Nat
  round : Int32
  voteType : Int32
  deriving DecidableEq

/-- The types of `TDMMessage`. A heartbeat, a round step and a POL message are decoded and then
dropped, those of a commit step and of vote bits are not even decoded; the two about heights read
the ledger and start a synchronisation, which is not part of the node here. -/
inductive TDMMessage where
  | proposal (payload : Option ProposalMessage)
  | vote (payload : Option VoteMessage)
  | blockPart (payload : Option BlockPartMessage)
  | proposalHeartBeat
  | newRoundStep
  | commitStep
  | proposalPOL
  | hasVote (payload : Option HasVoteMessage)
  | voteSetMaj23 (payload : Option HasVoteMessage)
  | voteSetBits
  | heightReq
  | heightResp
  | unsupported
  deriving DecidableEq

/-- A conversion to `byte` keeps the low eight bits. -/
def VoteType.ofByte (b : Int) : VoteType :=
  if b % 256 = 1 then .prevote else if b % 256 = 2 then .precommit else .unknown

/-! ## From the decoded payloads to the types of the handlers

None where a nil pointer is read.
-/

def NetBlockID.build (id : NetBlockID) : Option BlockID := id.partsHeader.map (⟨id.hash, ·⟩)

def buildTypeFromVoteMsg (vm : VoteMessage) : Option Vote := do
  let netID ← vm.blockID
  let blockID ← netID.build
  return {
    validatorAddress := vm.validatorAddress
    validatorIndex := vm.validatorIndex.toInt
    height := vm.height
    round := vm.round
    timestamp := vm.timestamp
    type := .ofByte (vm.voteType + 1).toInt
    blockID := blockID
    nilHash := netID.nilHash
    signature := vm.signature
    nilSignature := vm.nilSignature }

/-- The code of a vote's type. -/
def VoteType.byte : VoteType → Int
  | .prevote => 1
  | .precommit => 2
  | .unknown => 0

def buildVoteMsgFromType (vote : Vote) : VoteMessage where
  validatorAddress := vote.validatorAddress
  validatorIndex := .ofInt vote.validatorIndex
  height := vote.height
  round := vote.round
  timestamp := vote.timestamp % 2 ^ 64
  voteType := .ofInt ((vote.type.byte - 1) % 256)
  blockID := some
    { hash := vote.blockID.hash
      partsHeader :=
        some ⟨vote.blockID.partsHeader.total % 2 ^ 32, vote.blockID.partsHeader.hash⟩
      nilHash := vote.nilHash }
  signature := vote.signature
  nilSignature := vote.nilSignature

def buildTypeProposalFromNetMsg (proposalMsg : ProposalMessage) : Option Proposal := do
  let polBlockID ← proposalMsg.polBlockID
  let polBlockID ← polBlockID.build
  let blockPartsHeader ← proposalMsg.blockPartsHeader
  return ⟨proposalMsg.height, proposalMsg.round, blockPartsHeader, proposalMsg.polRound, polBlockID⟩

namespace Node

variable (env : Env) (ans : Answers)

/-! ## The handlers -/

/-- The vote is printed before the error is looked at. -/
def handleOutterVoteMsg (payload : Option VoteMessage) (n : Node) : Node :=
  match payload.bind buildTypeFromVoteMsg with
  | none => n.halt
  | some vote => n.addVote env ans vote

def takeProposalMsg (payload : Option ProposalMessage) (n : Node) : Node :=
  match payload with
  | none => n
  | some proposalMsg =>
    match buildTypeProposalFromNetMsg proposalMsg with
    | none => n.halt
    | some proposal => n.setProposal proposal

/-- The payload is decoded only for a sender who may propose. -/
def handleProposalMsg (sender : Bytes) (payload : Option ProposalMessage) (n : Node) : Node :=
  match ans.isProposer n.height n.round with
  | some (true, _) => n.takeProposalMsg payload
  | none | some (false, none) => n.halt
  | some (false, some proposer) =>
    if proposer.pubKeyStr ≠ sender then n else n.takeProposalMsg payload

def handleBlockPartMsg (payload : Option BlockPartMessage) (n : Node) : Node :=
  match payload with
  | none => n
  | some blkPartMsg =>
    match blkPartMsg.part with
    | none => n.halt
    | some part => n.addProposalBlockPart env ans blkPartMsg.height part

/-- The unlock is deferred only after the decoding. -/
def handleHasVoteMsg (payload : Option HasVoteMessage) (n : Node) : Node :=
  n.withMutex fun n => if payload.isNone then { n with mtxHeld := true } else n

/-- The mutex is taken, given back and taken again before the decoding. -/
def handleMaj23Msg (payload : Option HasVoteMessage) (n : Node) : Node :=
  match payload with
  | none => n.withMutex fun n => { n with mtxHeld := true }
  | some nrsMsg =>
    n.handleVoteSetMaj23Msg env nrsMsg.height nrsMsg.round (.ofByte nrsMsg.voteType.toInt)

def processTDMMsg (sender : Bytes) (msg : TDMMessage) (n : Node) : Node :=
  match msg with
  | .proposal payload => n.handleProposalMsg ans sender payload
  | .vote payload => n.handleOutterVoteMsg env ans payload
  | .blockPart payload => n.handleBlockPartMsg env ans payload
  | .hasVote payload => n.handleHasVoteMsg payload
  | .voteSetMaj23 payload => n.handleMaj23Msg env payload
  | .proposalHeartBeat | .newRoundStep | .commitStep | .proposalPOL | .voteSetBits | .heightReq
  | .heightResp | .unsupported => n

end Node

/-! ## The effect of a message -/

/-- The message that a payload without its objects amounts to. -/
def ProposalMessage.peerMsg (payload : Option ProposalMessage) : PeerMsg :=
  match payload with
  | none => .ignored
  | some proposalMsg =>
    match buildTypeProposalFromNetMsg proposalMsg with
    | none => .malformed
    | some proposal => .proposal proposal

namespace TDMMessage

/-- Whether a proposal gets as far as its payload; none if this cannot be told. -/
def heard (ans : Answers) (sender : Bytes) (n : Node) : Option Bool :=
  match ans.isProposer n.height n.round with
  | some (true, _) => some true
  | none | some (false, none) => none
  | some (false, some proposer) => some (decide (proposer.pubKeyStr = sender))

def peerMsg (ans : Answers) (sender : Bytes) (n : Node) (msg : TDMMessage) : PeerMsg :=
  match msg with
  | .proposal payload =>
    match heard ans sender n with
    | none => .malformed
    | some false => .ignored
    | some true => ProposalMessage.peerMsg payload
  | .vote payload => ((payload.bind buildTypeFromVoteMsg).map .vote).getD .malformed
  | .blockPart none => .ignored
  | .blockPart (some blkPartMsg) =>
    (blkPartMsg.part.map (.blockPart blkPartMsg.height)).getD .malformed
  | .hasVote payload => if payload.isNone then .badHasVote else .hasVote
  -- as an undecodable `HasVote`: the mutex is taken and kept
  | .voteSetMaj23 none => .badHasVote
  | .voteSetMaj23 (some nrsMsg) =>
    .voteSetMaj23 nrsMsg.height nrsMsg.round (.ofByte nrsMsg.voteType.toInt)
  | .proposalHeartBeat | .newRoundStep | .commitStep | .proposalPOL | .voteSetBits | .heightReq
  | .heightResp | .unsupported => .ignored

end TDMMessage

section

variable {env : Env} {ans : Answers} {sender : Bytes} {n : Node}

/-- A node of the group lets every message through. -/
theorem processOuterMsg_open (hi : n.inbgGroup env) :
    ¬ (¬ n.isPeerInbgGroup env sender ∨ ¬ n.inbgGroup env) := by
  simp [isPeerInbgGroup, hi]

theorem takeProposalMsg_eq (hi : n.inbgGroup env)
    (hp : ∀ p, n.handleOuterProposalMsg ans sender p = n.setProposal p)
    (payload : Option ProposalMessage) :
    n.takeProposalMsg payload =
      n.processOuterMsg env ans sender (ProposalMessage.peerMsg payload) := by
  unfold processOuterMsg takeProposalMsg ProposalMessage.peerMsg
  rw [if_neg (processOuterMsg_open hi)]
  cases payload with
  | none => rfl
  | some proposalMsg =>
    cases built : buildTypeProposalFromNetMsg proposalMsg with
    | none => simp only [built]
    | some proposal => simp only [built, hp]

theorem handleProposalMsg_eq (hi : n.inbgGroup env) (payload : Option ProposalMessage) :
    n.handleProposalMsg ans sender payload =
      n.processOuterMsg env ans sender ((TDMMessage.proposal payload).peerMsg ans sender n) := by
  unfold TDMMessage.peerMsg TDMMessage.heard handleProposalMsg
  have taken (hp : ∀ p, n.handleOuterProposalMsg ans sender p = n.setProposal p) :=
    takeProposalMsg_eq hi hp payload
  rcases turn : ans.isProposer n.height n.round with _ | ⟨_ | _, _ | proposer⟩
  · rw [processOuterMsg, if_neg (processOuterMsg_open hi)]
  · rw [processOuterMsg, if_neg (processOuterMsg_open hi)]
  · dsimp only
    by_cases same : proposer.pubKeyStr = sender
    · rw [if_neg (not_not.mpr same), decide_eq_true same]
      exact taken fun p => by
        simp only [handleOuterProposalMsg, turn, same, ne_eq, not_true, if_false]
    · rw [if_pos same, decide_eq_false same, processOuterMsg,
        if_neg (processOuterMsg_open hi)]
  · exact taken fun p => by simp only [handleOuterProposalMsg, turn]
  · exact taken fun p => by simp only [handleOuterProposalMsg, turn]

/-- A message has the effect of the `PeerMsg` it amounts to. -/
theorem processTDMMsg_eq (hi : n.inbgGroup env) (msg : TDMMessage) :
    n.processTDMMsg env ans sender msg =
      n.processOuterMsg env ans sender (msg.peerMsg ans sender n) := by
  cases msg with
  | proposal payload => exact handleProposalMsg_eq hi payload
  | vote payload =>
    unfold processOuterMsg TDMMessage.peerMsg processTDMMsg handleOutterVoteMsg
    rw [if_neg (processOuterMsg_open hi)]
    dsimp only
    cases payload.bind buildTypeFromVoteMsg <;> rfl
  | blockPart payload =>
    unfold processOuterMsg processTDMMsg handleBlockPartMsg
    rw [if_neg (processOuterMsg_open hi)]
    cases payload with
    | none => rfl
    | some blkPartMsg =>
      unfold TDMMessage.peerMsg
      dsimp only
      cases blkPartMsg.part <;> rfl
  | hasVote payload =>
    unfold processOuterMsg
    rw [if_neg (processOuterMsg_open hi)]
    cases payload <;> rfl
  | voteSetMaj23 payload =>
    unfold processOuterMsg
    rw [if_neg (processOuterMsg_open hi)]
    cases payload <;> rfl
  | proposalHeartBeat | newRoundStep | commitStep | proposalPOL | voteSetBits | heightReq
  | heightResp | unsupported =>
    unfold processOuterMsg
    rw [if_neg (processOuterMsg_open hi)]
    rfl

end

/-! ## The message loop -/

/-- What the loop takes next, with peer messages as they came. -/
inductive NetEvent where
  | peer (sender : Bytes) (msg : TDMMessage)
  | internal (i : Nat)
  | timeout (ti : TimeoutInfo)
  | txsAvailable (height : Nat)
  | reset

def NetEvent.event (ans : Answers) (n : Node) : NetEvent → Event
  | .peer sender msg => .peer sender (msg.peerMsg ans sender n)
  | .internal i => .internal i
  | .timeout ti => .timeout ti
  | .txsAvailable height => .txsAvailable height
  | .reset => .reset

namespace Node

variable (env : Env) (ans : Answers)

/-- A peer message is handled by a node that takes part in the consensus and is in the group. -/
def Hears (n : Node) : Prop := ¬ n.halted ∧ n.isContinueConsensus ∧ n.inbgGroup env

instance (n : Node) : Decidable (n.Hears env) := inferInstanceAs (Decidable (_ ∧ _ ∧ _))

def deliverNet (e : NetEvent) (n : Node) : Node :=
  match e with
  | .peer sender msg => if n.Hears env then n.processTDMMsg env ans sender msg else n
  | .internal i => n.deliver env ans (.internal i)
  | .timeout ti => n.deliver env ans (.timeout ti)
  | .txsAvailable height => n.deliver env ans (.txsAvailable height)
  | .reset => n.deliver env ans .reset

def runNet (n : Node) (events : List (NetEvent × Answers)) : Node :=
  events.foldl (fun n event => n.deliverNet env event.2 event.1) n

end Node

theorem deliverNet_eq {env : Env} {ans : Answers} (n : Node) (e : NetEvent) :
    n.deliverNet env ans e = n.deliver env ans (e.event ans n) := by
  cases e with
  | internal | timeout | txsAvailable | reset => rfl
  | peer sender msg =>
    unfold deliverNet deliver NetEvent.event
    dsimp only
    by_cases hears : n.Hears env
    · obtain ⟨hr, continues, hi⟩ := hears
      rw [if_pos ⟨hr, continues, hi⟩, if_neg hr, if_pos continues,
        processTDMMsg_eq hi]
    · rw [if_neg hears]
      split_ifs with halted continues
      · rfl
      · have ho : ¬ n.inbgGroup env := fun hi => hears ⟨halted, continues, hi⟩
        unfold processOuterMsg
        rw [if_pos (.inr ho)]
      · rfl

/-- The events of a run, each as the node that takes the message makes it. -/
def Node.events (env : Env) : Node → List (NetEvent × Answers) → List (Event × Answers)
  | _, [] => []
  | n, (e, ans) :: rest => (e.event ans n, ans) :: (n.deliverNet env ans e).events env rest

/-- Whatever comes from the network, a node runs on the messages as on their events. -/
theorem runNet_eq (env : Env) (n : Node) (events : List (NetEvent × Answers)) :
    n.runNet env events = n.run env (n.events env events) := by
  induction events generalizing n with
  | nil => rfl
  | cons event rest ih =>
    change (n.deliverNet env event.2 event.1).runNet env rest = (n.deliver env event.2 _).run env _
    rw [ih, ← deliverNet_eq]

end HNBChain.Audit.Source.Algorand
