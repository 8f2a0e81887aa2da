import HNBChain.Audit.Source.Algorand.VoteSet

/-!
# The state of a consensus node

`Node` is the part of `TDMMsgHandler` that the consensus handlers read and write, with the messages
a node has sent to itself, the timeouts it has scheduled and a log of the votes it has signed and
the blocks it has stored.

What a handler asks of its surroundings (whose turn it is, what to propose, whether the pool is
empty, what executing a block gives) is an argument of each event, `Answers`; what never changes is
in `Env`. A call that panics or never returns stops the node: `halted` is set and nothing happens
after it. The deferred calls of a panicking call are left out, as the process ends with them.
-/
namespace HNBChain.Audit.Source.Algorand

open Lib

inductive RoundStep where
  | newHeight
  | newRound
  | propose
  | prevote
  | prevoteWait
  | precommit
  | precommitWait
  | commit
  deriving DecidableEq

namespace RoundStep

/-- The constants of `RoundStepType`. -/
def num : RoundStep → Nat
  | newHeight => 1
  | newRound => 2
  | propose => 3
  | prevote => 4
  | prevoteWait => 5
  | precommit => 6
  | precommitWait => 7
  | commit => 8

instance : LE RoundStep := ⟨fun a b => a.num ≤ b.num⟩

instance : LT RoundStep := ⟨fun a b => a.num < b.num⟩

instance (a b : RoundStep) : Decidable (a ≤ b) := inferInstanceAs (Decidable (a.num ≤ b.num))

instance (a b : RoundStep) : Decidable (a < b) := inferInstanceAs (Decidable (a.num < b.num))

theorem le_iff {a b : RoundStep} : a ≤ b ↔ a.num ≤ b.num := Iff.rfl

theorem num_le_commit (a : RoundStep) : a.num ≤ commit.num := by
  cases a <;> decide

theorem num_le_precommitWait {a : RoundStep} (he : a ≠ commit) : a.num ≤ precommitWait.num := by
  cases a <;> first | decide | contradiction

end RoundStep

structure Part where
  index : Nat
  bytes : Bytes
  proof : List Bytes
  deriving DecidableEq

structure PartSet where
  total : Nat
  hash : Bytes
  parts : Nat → Option Part
  count : Nat

def newPartSetFromHeader (header : PartSetHeader) : PartSet :=
  ⟨header.total, header.hash, fun _ => none, 0⟩

namespace PartSet

/-- `Header` and `Total` work on a nil pointer as well. -/
def header : Option PartSet → PartSetHeader
  | none => ⟨0, []⟩
  | some ps => ⟨ps.total, ps.hash⟩

def hasHeader (ps : Option PartSet) (h : PartSetHeader) : Bool :=
  ps.isSome && decide (header ps = h)

def isComplete (ps : PartSet) : Bool := decide (ps.count = ps.total)

/-- The parts in their order; none if one is missing. -/
def all (ps : Option PartSet) : Option (List Part) :=
  match ps with
  | none => some []
  | some ps => (List.range ps.total).mapM ps.parts

/-- What the reader of a complete set gives. -/
def content (ps : PartSet) : Bytes :=
  ((List.range ps.total).filterMap fun i => (ps.parts i).map Part.bytes).flatten

end PartSet

structure Proposal where
  height : Nat
  round : Int32
  blockPartsHeader : PartSetHeader
  polRound : Int32
  polBlockID : BlockID
  deriving DecidableEq

/-- What the bytes of a complete part set decode to. A block without header is `malformed`: its
header is read. One without last commit, `uncommitted`, stands with an empty commit. -/
inductive Decoded where
  | failed
  | malformed
  | uncommitted (b : Block)
  | block (b : Block)

structure TimeoutInfo where
  height : Nat
  round : Int32
  step : RoundStep
  deriving DecidableEq

inductive InternalMsg where
  | vote (v : Vote)
  | proposal (p : Proposal)
  | blockPart (height : Nat) (part : Part)
  deriving DecidableEq

/-- A block written to the ledger, with the parts and the commit round held at that moment. -/
structure Saved where
  block : Block
  partsHeader : PartSetHeader
  commitRound : Int32
  standard : StandardBlock

structure Env where
  digests : Digests
  /-- `Proof.Verify` of a part against the header of its set. -/
  verifyPart : Part → PartSetHeader → Bool
  decodeBlock : Bytes → Decoded
  decodeTx : Bytes → Option Transaction
  sign : Vote → Bytes
  /-- The functions registered with the handler are those of `algorand`, not of `dbft`. -/
  byVrf : Bool
  /-- `VerifyVRF4Blk` on the text of a key; none if it does not return. -/
  verifyVRF4Blk : Bytes → Bytes → Nat → Bytes → Bytes → Option Bool
  id : Bytes
  digestAddr : Bytes
  createEmptyBlocks : Bool
  createEmptyBlocksInterval : Nat
  skipTimeoutCommit : Bool

structure Answers where
  /-- The registered `isProposerFunc`: whether this node proposes, and who does; none if it
  panics. -/
  isProposer : Nat → Int32 → Option (Bool × Option Validator)
  /-- The block that is made, if one is; none if it panics, as `MakeBlockVRF` does at most
  heights. -/
  geneProposalBlk : Nat → Int32 → Option (Option (Block × PartSet))
  isTxsLenZero : Nat → Int32 → Bool
  /-- Whether an empty hash in a parts header that the node votes for is a nil slice. -/
  nilHash : Bool
  /-- `BlockProcess`, with the state hash it writes in the header. -/
  blockProcess : StandardBlock → Except Err Bytes
  /-- Whether the functions run after a commit let the consensus go on. -/
  continueConsensus : Bool
  now : Nat

/-- The priorities inside `validators` are left as they are by a new round: nothing reads them. -/
structure Node where
  height : Nat
  round : Int32
  step : RoundStep
  validators : ValidatorSet
  proposal : Option Proposal
  proposalBlock : Option Block
  proposalBlockParts : Option PartSet
  lockedRound : Int32
  lockedBlock : Option Block
  lockedBlockParts : Option PartSet
  votes : HeightVoteSet
  commitRound : Int32
  lastCommit : Option VoteSet
  lastValidators : ValidatorSet
  tryProposalTimes : Nat
  lastCommitState : State
  isContinueConsensus : Bool
  internalMsgQueue : List InternalMsg
  scheduled : List TimeoutInfo
  /-- The mutex is taken and not given back by some message handlers. -/
  mtxHeld : Bool
  signed : List Vote
  saved : List Saved
  halted : Bool

namespace Node

def halt (n : Node) : Node := { n with halted := true }

/-- What follows a call that may not have returned. -/
def next (n : Node) (f : Node → Node) : Node := if n.halted then n else f n

def updateRoundStep (n : Node) (round : Int32) (step : RoundStep) : Node :=
  { n with round := round, step := step }

/-- The ticker drops a timeout for an earlier step than its last one; here every scheduled timeout
may fire, at any time. -/
def scheduleTimeout (n : Node) (height : Nat) (round : Int32) (step : RoundStep) : Node :=
  { n with scheduled := ⟨height, round, step⟩ :: n.scheduled }

/-- Messages may overtake each other when the channel is full. -/
def sendInternalMessage (n : Node) (msg : InternalMsg) : Node :=
  { n with internalMsgQueue := n.internalMsgQueue ++ [msg] }

/-- Linear search, in contrast to `HasAddress`. -/
def inbgGroup (env : Env) (n : Node) : Bool :=
  n.validators.validators.any fun val => decide (val.address = env.digestAddr)

/-- The argument is not looked at. -/
def isPeerInbgGroup (env : Env) (n : Node) (_pubKeyID : Bytes) : Bool := n.inbgGroup env

def setRound (n : Node) (round : Int32) : Node :=
  if HeightVoteSet.SetRoundHangs round then n.halt else { n with votes := n.votes.setRound round }

/-- A node that has just been made from the state of the last block. -/
def new (s : State) (lastCommit : Option VoteSet) : Node where
  height := s.lastBlockNum + 1
  round := 0
  step := .newHeight
  validators := s.validators
  proposal := none
  proposalBlock := none
  proposalBlockParts := none
  lockedRound := 0
  lockedBlock := none
  lockedBlockParts := none
  votes := .new (s.lastBlockNum + 1) s.validators
  commitRound := -1
  lastCommit := lastCommit
  lastValidators := s.lastValidators
  tryProposalTimes := 0
  lastCommitState := s
  isContinueConsensus := true
  internalMsgQueue := []
  scheduled := []
  mtxHeld := false
  signed := []
  saved := []
  halted := false

end Node

/-- The votes of the last block's own commit, added one by one. -/
def reconstructLastCommit (s : State) (seenCommit : Commit) : Option (Option VoteSet) :=
  if s.lastBlockNum = 0 then some none
  else
    let empty := newVoteSet ⟨s.lastBlockNum, seenCommit.round, .precommit, s.validators⟩
    let added := seenCommit.precommits.reduceOption.foldlM
      (fun vs precommit =>
        match vs.addVote precommit with
        | ((true, none), vs') => some vs'
        | _ => none) empty
    added.bind fun vs =>
      if s.lastBlockNum ≠ 1 ∧ vs.maj23.isNone then none else some (some vs)

/-- A node after `NewTDMMsgHandler` and `Start`. -/
def startNode (env : Env) (s : State) (seenCommit : Commit) : Option Node :=
  (reconstructLastCommit s seenCommit).map fun lastCommit =>
    let n := Node.new s lastCommit
    if n.inbgGroup env then n.scheduleTimeout n.height 0 .newHeight else n

end HNBChain.Audit.Source.Algorand
