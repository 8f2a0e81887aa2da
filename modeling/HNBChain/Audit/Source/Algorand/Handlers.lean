import HNBChain.Audit.Source.Algorand.RoundState

/-!
# The consensus handlers

The `enter` functions, the commit path, `addVote`, the proposal and part handlers, `handleTimeout`
and the dispatch of `DeliverMsg`, each as a function from node to node. None of them calls itself,
directly or through the others, so all of them are plain definitions. `n.next f` is `f n` unless the
call that gave `n` has not returned.
-/
namespace HNBChain.Audit.Source.Algorand

open Lib

namespace Node

variable (env : Env) (ans : Answers)

/-! ## Casting votes -/

/-- A vote at the height and round the node is in; the index is -1 outside the validators. -/
def makeVote (n : Node) (type : VoteType) (id : BlockID) : Vote :=
  let vote : Vote :=
    { validatorAddress := env.digestAddr
      validatorIndex := (n.validators.getByAddress env.digestAddr).1
      height := n.height
      round := n.round
      timestamp := ans.now
      type := type
      blockID := id
      nilHash := decide (id = .zero) || ans.nilHash
      signature := [] }
  { vote with signature := env.sign vote }

def applyAddVote (n : Node) (type : VoteType) (id : BlockID) : Node :=
  let vote := n.makeVote env ans type id
  { n with signed := vote :: n.signed }.sendInternalMessage (.vote vote)

/-- Only members of the validators sign here. -/
def signAddVote (n : Node) (type : VoteType) (id : BlockID) : Node :=
  if n.validators.hasAddress env.digestAddr then n.applyAddVote env ans type id else n

/-! ## Prevote -/

/-- The common guard of the `enter` functions. -/
def Passed (n : Node) (height : Nat) (round : Int32) (step : RoundStep) : Prop :=
  n.height ≠ height ∨ round < n.round ∨ n.round = round ∧ step ≤ n.step

instance (n : Node) (height : Nat) (round : Int32) (step : RoundStep) :
    Decidable (n.Passed height round step) := inferInstanceAs (Decidable (_ ∨ _ ∨ _))

def proposalHash (n : Node) : Bytes := (n.proposalBlock.map (Block.hash env.digests)).getD []

/-- Locked on another block than the proposed one, for less rounds than there are validators. -/
def LockHolds (n : Node) : Prop :=
  n.lockedBlock.isSome ∧ ¬ Block.hashesTo env.digests n.lockedBlock (n.proposalHash env) ∧
    n.round - n.lockedRound < Int32.ofNat n.validators.size

instance (n : Node) : Decidable (n.LockHolds env) := inferInstanceAs (Decidable (_ ∧ _ ∧ _))

def lockedID (n : Node) : BlockID :=
  ⟨(n.lockedBlock.map (Block.hash env.digests)).getD [], PartSet.header n.lockedBlockParts⟩

/-- What the node prevotes for; none if the validation of the proposal panics. -/
def prevoteID (n : Node) : Option BlockID :=
  if n.LockHolds env then some (n.lockedID env)
  else
    match n.proposalBlock with
    | none => some .zero
    | some b =>
      match validateBlock env.digests n.lastCommitState b with
      | .error .panic => none
      | .error _ => some .zero
      | .ok _ => some ⟨b.hash env.digests, PartSet.header n.proposalBlockParts⟩

/-- The first result says whether to wait for the proposal and try again. -/
def defaultDoPrevote (n : Node) : Option (Bool × Node) :=
  if n.proposalBlock.isNone ∧ n.tryProposalTimes < 2 then
    some (true, { n with tryProposalTimes := n.tryProposalTimes + 1 })
  else (n.prevoteID env).map fun id => (false, n.signAddVote env ans .prevote id)

def enterPrevote (height : Nat) (round : Int32) (n : Node) : Node :=
  if n.Passed height round .prevote then n
  else
    match n.defaultDoPrevote env ans with
    | none => n.halt
    | some (true, n) => n.scheduleTimeout height round .propose
    | some (false, n) => (n.scheduleTimeout height round .prevote).updateRoundStep round .prevote

def enterPrevoteWait (height : Nat) (round : Int32) (n : Node) : Node :=
  if n.Passed height round .prevoteWait then n
  else (n.scheduleTimeout height round .prevoteWait).updateRoundStep round .prevoteWait

/-! ## Propose and new rounds -/

def isProposalComplete (n : Node) : Bool :=
  match n.proposal with
  | none => false
  | some proposal =>
    n.proposalBlock.isSome && (decide (proposal.polRound < 0) ||
      (n.votes.majority proposal.polRound .prevote).isSome)

/-- A part that is missing is read and panics. -/
def sendProposal (height : Nat) (round : Int32) (blockParts : Option PartSet) (n : Node) : Node :=
  let pol := n.votes.polInfo
  let proposal : Proposal := ⟨height, round, PartSet.header blockParts, pol.1, pol.2⟩
  match PartSet.all blockParts with
  | none => n.halt
  | some parts =>
    { n with internalMsgQueue :=
      n.internalMsgQueue ++ .proposal proposal :: parts.map (.blockPart n.height) }

/-- The locked block is proposed again. -/
def decideProposal (height : Nat) (round : Int32) (n : Node) : Node :=
  match n.lockedBlock with
  | some _ => n.sendProposal height round n.lockedBlockParts
  | none =>
    match ans.geneProposalBlk height round with
    | none => n.halt
    | some none => n
    | some (some made) => n.sendProposal height round (some made.2)

def proposeBlock (height : Nat) (round : Int32) (n : Node) : Node :=
  if n.validators.hasAddress env.digestAddr then
    match ans.isProposer height round with
    | none => n.halt
    | some (true, some _) => n.decideProposal ans height round
    | some _ => n
  else n

/-- The node stops, sends a proposal or does nothing. -/
theorem proposeBlock_cases (height : Nat) (round : Int32) (n : Node) :
    n.proposeBlock env ans height round = n.halt ∨ n.proposeBlock env ans height round = n ∨
      ∃ parts, n.proposeBlock env ans height round = n.sendProposal height round parts := by
  unfold proposeBlock decideProposal
  split
  · split
    · exact .inl rfl
    · split
      · exact .inr (.inr ⟨_, rfl⟩)
      · split
        · exact .inl rfl
        · exact .inr (.inl rfl)
        · exact .inr (.inr ⟨_, rfl⟩)
    · exact .inr (.inl rfl)
  · exact .inr (.inl rfl)

def enterPropose (height : Nat) (round : Int32) (n : Node) : Node :=
  if n.Passed height round .propose then n
  else
    let n := { n with tryProposalTimes := 0 }.scheduleTimeout height round .propose
    (n.proposeBlock env ans height round).next fun n =>
      let n := n.updateRoundStep round .propose
      if n.isProposalComplete then n.enterPrevote env ans height n.round else n

def dealNewRound (n : Node) : Node :=
  if ¬ env.createEmptyBlocks then
    if ¬ ans.isTxsLenZero n.height n.round then n.enterPropose env ans n.height n.round
    else n.scheduleTimeout n.height n.round .newRound
  else if env.createEmptyBlocksInterval > 0 then n.scheduleTimeout n.height n.round .newRound
  else n.enterPropose env ans n.height n.round

def clearProposal (n : Node) : Node :=
  { n with proposal := none, proposalBlock := none, proposalBlockParts := none }

def enterNewRound (height : Nat) (round : Int32) (n : Node) : Node :=
  if n.height ≠ height ∨ round < n.round ∨ n.round = round ∧ n.step ≠ .newHeight then n
  else if n.round < round ∧ n.validators.validators = [] then
    -- IncrementAccum on no validators
    n.halt
  else
    let n := n.updateRoundStep round .newRound
    let n := if round ≠ 0 then n.clearProposal else n
    (n.setRound (round + 1)).next fun n => n.dealNewRound env ans

/-! ## Precommit -/

def unlock (n : Node) : Node :=
  { n with lockedRound := 0, lockedBlock := none, lockedBlockParts := none }

/-- A block with +2/3 prevotes is locked if it is the proposed one; else the lock is dropped, also
the lock on this very block. -/
def doPrecommit (round : Int32) (n : Node) : Node :=
  match n.votes.majority round .prevote with
  | none => n.applyAddVote env ans .precommit .zero
  | some id =>
    if id.hash = [] then n.applyAddVote env ans .precommit .zero
    else if Block.hashesTo env.digests n.proposalBlock id.hash then
      { n with
        lockedRound := round
        lockedBlock := n.proposalBlock
        lockedBlockParts := n.proposalBlockParts }.applyAddVote env ans .precommit id
    else n.unlock.applyAddVote env ans .precommit .zero

def enterPrecommit (height : Nat) (round : Int32) (n : Node) : Node :=
  if n.Passed height round .precommit then n
  else
    ((n.doPrecommit env ans round).updateRoundStep round .precommit).scheduleTimeout height
    round .precommit

/-- The deferred update comes also when the guard rejects the call. -/
def enterPrecommitWait (height : Nat) (round : Int32) (n : Node) : Node :=
  (n.updateRoundStep round .precommitWait).scheduleTimeout height round .precommitWait

/-! ## Commit -/

/-- `getcurrentPrecommits` and `MakeCommit`; none is a panic. -/
def currentCommit (n : Node) : Option Commit :=
  if -1 < n.commitRound then (n.votes.precommits n.commitRound).bind VoteSet.makeCommit else none

/-- Validation against a copy of the state, then execution. The second part of the result is the
state with the hash of the stored block. -/
def saveBlock (n : Node) (block : Block) : Except Err (Saved × State) := do
  let commit ← match n.currentCommit with
    | some commit => .ok commit
    | none => .error .panic
  let block := { block with currentCommit := some commit }
  let s := n.lastCommitState.copy
  validateBlock env.digests s block
  let blk ← match consToStandard env.digests env.decodeTx block with
    | .ok blk => .ok blk
    | .error _ => .error .panic
  let blk := { blk with header := { blk.header with
    previousHash := n.lastCommitState.previousHash } }
  let stateHash ← ans.blockProcess blk
  let blk := { blk with header := { blk.header with stateHash := stateHash } }
  return (⟨block, PartSet.header n.proposalBlockParts, n.commitRound, blk⟩,
    { s with previousHash := env.digests.standard blk.header })

/-- The new state, unless the block was refused. -/
def applyBlock (n : Node) (block : Block) : Option State × Node :=
  match n.saveBlock env ans block with
  | .error .panic => (none, n.halt)
  | .error _ => (none, n)
  | .ok (saved, s) =>
    let n := { n with saved := saved :: n.saved }
    let id : BlockID := ⟨block.hash env.digests, PartSet.header n.proposalBlockParts⟩
    match updateState s id block.header with
    | none => (none, n.halt)
    | some s' => (some s', if n.lockedBlock.isSome then n.unlock else n)

/-- The vote set that becomes `LastCommit`; no set if the commit round is negative. -/
def lastPrecommits (n : Node) : Option (Option VoteSet) :=
  if -1 < n.commitRound then
    match n.votes.precommits n.commitRound with
    | some vs => if vs.maj23.isSome then some (some vs) else none
    | none => none
  else some none

def updateToState (s : State) (n : Node) : Node :=
  if -1 < n.commitRound ∧ 0 < n.height ∧ n.height ≠ s.lastBlockNum then n
  else if n.lastCommitState.lastBlockNum + 1 ≠ n.height then n
  else if s.lastBlockNum ≤ n.lastCommitState.lastBlockNum then n
  else
    match n.lastPrecommits with
    | none => n.halt
    | some lastPrecommits =>
      { n with
        height := s.lastBlockNum + 1
        round := 0
        step := .newHeight
        validators := s.validators
        proposal := none
        proposalBlock := none
        proposalBlockParts := none
        votes := .new (s.lastBlockNum + 1) s.validators
        commitRound := -1
        lastCommit := lastPrecommits
        lastValidators := s.lastValidators
        lastCommitState := s }

/-- After a commit: the functions registered for it, then round 0 of the next height. -/
def scheduleRound0 (n : Node) : Node :=
  let n := { n with isContinueConsensus := n.isContinueConsensus && ans.continueConsensus }
  if n.isContinueConsensus then n.enterNewRound env ans n.height 0 else n

def finalizeCommit (height : Nat) (n : Node) : Node :=
  if n.height ≠ height ∨ n.step ≠ .commit then n
  else
    match n.votes.majority n.commitRound .precommit, n.proposalBlock with
    | some id, some block =>
      if ¬ PartSet.hasHeader n.proposalBlockParts id.partsHeader then n.halt
      else if ¬ Block.hashesTo env.digests (some block) id.hash then n.halt
      else
        match n.applyBlock env ans block with
        | (none, n) => n.next fun n => n.enterNewRound env ans height (n.round + 1)
        | (some s, n) => (n.updateToState s).next fun n => n.scheduleRound0 env ans
    | _, _ => n.halt

def tryFinalizeCommit (height : Nat) (n : Node) : Node :=
  if n.height ≠ height then n.halt
  else
    let majority := n.votes.majority n.commitRound .precommit
    let hash := (majority.map BlockID.hash).getD []
    (if hash = [] then n.enterNewRound env ans n.height (n.round + 1) else n).next fun n =>
      if Block.hashesTo env.digests n.proposalBlock hash then n.finalizeCommit env ans height
      else if Block.hashesTo env.digests n.lockedBlock hash then
        -- the parts are assigned to themselves
        { n with proposalBlock := n.lockedBlock }.finalizeCommit env ans height
      else (n.enterNewRound env ans n.height (n.round + 1)).next fun n =>
        n.finalizeCommit env ans height

def enterCommit (height : Nat) (commitRound : Int32) (n : Node) : Node :=
  if n.height ≠ height ∨ .commit ≤ n.step then n
  else
    match n.votes.majority commitRound .precommit with
    | none => n.halt
    | some id =>
      let n :=
        if ¬ Block.hashesTo env.digests n.proposalBlock id.hash ∧
            ¬ PartSet.hasHeader n.proposalBlockParts id.partsHeader then
          { n with
            proposalBlock := none
            proposalBlockParts := some (newPartSetFromHeader id.partsHeader) }
        else n
      { n.updateRoundStep n.round .commit with commitRound := commitRound }.tryFinalizeCommit
        env ans height

/-! ## Votes -/

/-- After a prevote was added to `prevotes`. -/
def afterPrevote (vote : Vote) (prevotes : VoteSet) (n : Node) : Node :=
  let height := n.height
  (if n.round < vote.round ∧ prevotes.hasHalfAny then n.enterNewRound env ans height vote.round
    else n).next fun n =>
      if n.round ≤ vote.round ∧ prevotes.hasTwoThirdsAny then
        (n.enterNewRound env ans height vote.round).next fun n =>
          if prevotes.maj23.isSome then n.enterPrecommit env ans height vote.round
          else (n.enterPrevote env ans height vote.round).next (enterPrevoteWait height vote.round)
      else
        match n.proposal with
        | none => n
        | some proposal =>
          if 0 ≤ proposal.polRound ∧ proposal.polRound = vote.round ∧ n.isProposalComplete then
            n.enterPrevote env ans height n.round
          else n

/-- After a precommit was added to `precommits`. -/
def afterPrecommit (vote : Vote) (precommits : VoteSet) (n : Node) : Node :=
  let height := n.height
  match precommits.maj23 with
  | some id =>
    if id.hash = [] then n.enterNewRound env ans height (vote.round + 1)
    else
      (((n.enterNewRound env ans height vote.round).next
        (enterPrecommit env ans height vote.round)).next
          (enterCommit env ans height vote.round)).next fun n =>
          if env.skipTimeoutCommit ∧ precommits.hasAll
            then n.enterNewRound env ans n.height 0 else n
  | none =>
    if n.round ≤ vote.round ∧ precommits.hasTwoThirdsAny then
      ((n.enterNewRound env ans height vote.round).next
        (enterPrecommit env ans height vote.round)).next (enterPrecommitWait height vote.round)
    else n

/-- A precommit for the height before goes to `LastCommit`, while the node waits in `NewHeight`. -/
def addLastVote (vote : Vote) (n : Node) : Node :=
  if ¬ (n.step = .newHeight ∧ vote.type = .precommit) then n
  else
    match n.lastCommit with
    | none => n.halt
    | some lastCommit =>
      let added := lastCommit.addVote vote
      if added.1.2 = some .panic then n.halt
      else
        let n := { n with lastCommit := some added.2 }
        if added.1.1 ∧ env.skipTimeoutCommit ∧ added.2.hasAll then
          n.enterNewRound env ans n.height 0
        else n

/-- The vote set of the vote's round and type is there once the vote was added. -/
def addCurrentVote (vote : Vote) (n : Node) : Node :=
  let added := n.votes.addVote vote
  if added.1.2 = some .panic then n.halt
  else
    let n := { n with votes := added.2 }
    if added.1.1 then
      match vote.type, n.votes.getVoteSet vote.round vote.type with
      | .prevote, some prevotes => n.afterPrevote env ans vote prevotes
      | .precommit, some precommits => n.afterPrecommit env ans vote precommits
      | _, _ => n
    else n

def addVote (vote : Vote) (n : Node) : Node :=
  (if n.round < vote.round then n.setRound vote.round else n).next fun n =>
    if vote.height + 1 = n.height then n.addLastVote env ans vote
    else if vote.height ≠ n.height then n
    else n.addCurrentVote env ans vote

/-! ## Proposals and parts -/

def setProposal (proposal : Proposal) (n : Node) : Node :=
  if n.proposal.isSome then n
  else if proposal.height ≠ n.height ∨ proposal.round ≠ n.round then n
  else if .commit ≤ n.step then n
  else
    { n with
      proposal := some proposal
      proposalBlockParts := some (newPartSetFromHeader proposal.blockPartsHeader) }

/-- A proposal is taken from the proposer, or from anybody if the node itself is the proposer. The
proposer's key is read also when there is none. -/
def handleOuterProposalMsg (sender : Bytes) (proposal : Proposal) (n : Node) : Node :=
  match ans.isProposer n.height n.round with
  | some (true, _) => n.setProposal proposal
  | none | some (false, none) => n.halt
  | some (false, some proposer) =>
    if proposer.pubKeyStr ≠ sender then n else n.setProposal proposal

/-- None where a nil pointer is read: the validator info, its validators, their proposer, or the
validator of the node with the proposer's address. -/
def validateProposalBlkByVrf (n : Node) (b : Block) : Option Bool := do
  let info ← b.validatorInfo
  let validators ← info.validators
  let proposer ← validators.proposer
  let val ← (n.validators.getByAddress proposer.address).2
  env.verifyVRF4Blk val.pubKeyStr n.lastCommitState.prevVRFValue b.header.blockNum
    b.header.blkVRFValue b.header.blkVRFProof

/-- The registered function; `validateProposalBlkByDPoS` accepts every block. -/
def validateProposalBlk (n : Node) (b : Block) : Option Bool :=
  if env.byVrf then n.validateProposalBlkByVrf env b else some true

/-- Decodes the completed parts; the node then goes on to prevote or to commit. -/
def completeProposal (height : Nat) (parts : PartSet) (n : Node) : Node :=
  match env.decodeBlock parts.content with
  | .failed => n
  | .malformed => n.halt
  -- a block that is not refused is printed with its last commit
  | .uncommitted b => if n.validateProposalBlk env b = some false then n else n.halt
  | .block b =>
    match n.validateProposalBlk env b with
    | none => n.halt
    | some false => n
    | some true =>
      -- printing the hash fills the header
      let n := { n with proposalBlock := some (b.hashed env.digests) }
      if n.step = .propose then n.enterPrevote env ans height n.round
      else if n.step = .commit then n.tryFinalizeCommit env ans height
      else n

def addProposalBlockPart (height : Nat) (part : Part) (n : Node) : Node :=
  if n.height ≠ height then n
  else
    match n.proposalBlockParts with
    | none => n
    | some ps =>
      if part.index ≥ ps.total ∨ (ps.parts part.index).isSome ∨
          ¬ env.verifyPart part (PartSet.header (some ps)) then n
      else
        let ps := { ps with
          parts := Function.update ps.parts part.index (some part), count := ps.count + 1 }
        let n := { n with proposalBlockParts := some ps }
        if ps.isComplete then n.completeProposal env ans height ps else n

/-! ## Timeouts and the mutex -/

/-- A lock that is never given back is waited for without end. -/
def withMutex (f : Node → Node) (n : Node) : Node := if n.mtxHeld then n.halt else f n

def handleTimeout (ti : TimeoutInfo) (n : Node) : Node :=
  if ti.height ≠ n.height ∨ ti.round < n.round ∨ ti.round = n.round ∧ ti.step < n.step then n
  else n.withMutex fun n =>
    match ti.step with
    | .newHeight => n.enterNewRound env ans ti.height 0
    | .newRound => n.enterPropose env ans ti.height ti.round
    | .propose => n.enterPrevote env ans ti.height ti.round
    | .prevote => n.enterPrevoteWait ti.height ti.round
    | .prevoteWait => n.enterPrecommit env ans ti.height ti.round
    | .precommit => n.enterPrecommitWait ti.height ti.round
    | .precommitWait => n.enterNewRound env ans ti.height (ti.round + 1)
    | .commit => n

def handleTxsAvailable (height : Nat) (n : Node) : Node :=
  n.withMutex fun n => if n.inbgGroup env then n.enterPropose env ans height 0 else n

/-- The claim is made under the node's own identity and for the last block, whose parts have a hash
unless there is none; the message names neither. The mutex stays held on every path. -/
def handleVoteSetMaj23Msg (height : Nat) (round : Int32) (type : VoteType) (n : Node) : Node :=
  n.withMutex fun n =>
    let n := { n with mtxHeld := true }
    if n.height ≠ height then n
    else
      { n with votes :=
        n.votes.setPeerMaj23 round type env.id (n.lastCommitState.lastBlockID.key true) }

end Node

/-- Messages by what their handlers do. A `malformed` one makes its handler panic; an `ignored` one
changes nothing; `badHasVote` does not decode and leaves the mutex held. -/
inductive PeerMsg where
  | vote (v : Vote)
  | proposal (p : Proposal)
  | blockPart (height : Nat) (part : Part)
  | voteSetMaj23 (height : Nat) (round : Int32) (type : VoteType)
  | hasVote
  | badHasVote
  | malformed
  | ignored

/-- A peer message comes with the key its signature was verified with. -/
inductive Event where
  | peer (sender : Bytes) (msg : PeerMsg)
  | internal (i : Nat)
  | timeout (ti : TimeoutInfo)
  | txsAvailable (height : Nat)
  | reset

namespace Node

variable (env : Env) (ans : Answers)

def processOuterMsg (sender : Bytes) (msg : PeerMsg) (n : Node) : Node :=
  if ¬ n.isPeerInbgGroup env sender ∨ ¬ n.inbgGroup env then n
  else
    match msg with
    | .vote v => n.addVote env ans v
    | .proposal p => n.handleOuterProposalMsg ans sender p
    | .blockPart height part => n.addProposalBlockPart env ans height part
    | .voteSetMaj23 height round type => n.handleVoteSetMaj23Msg env height round type
    | .hasVote => n.withMutex fun n => n
    | .badHasVote => n.withMutex fun n => { n with mtxHeld := true }
    | .malformed => n.halt
    | .ignored => n

def processInnerMsg (msg : InternalMsg) (n : Node) : Node :=
  match msg with
  | .vote v => n.addVote env ans v
  | .proposal p => n.setProposal p
  | .blockPart height part => n.addProposalBlockPart env ans height part

/-- `OnReset` with the `OnStart` that follows it: the round is entered again at its start. -/
def reset (n : Node) : Node :=
  let n := { n.updateRoundStep n.round .newRound with internalMsgQueue := [], scheduled := [] }
  (if n.inbgGroup env then n.dealNewRound env ans else n).next fun n =>
    { n with isContinueConsensus := true }

/-- `DeliverMsg` takes one message, timeout or signal. Only timeouts that were scheduled fire. -/
def deliver (e : Event) (n : Node) : Node :=
  if n.halted then n
  else
    match e with
    | .reset => n.reset env ans
    | .peer sender msg =>
      if n.isContinueConsensus then n.processOuterMsg env ans sender msg else n
    | .internal i =>
      match n.internalMsgQueue[i]? with
      | none => n
      | some msg =>
        let n := { n with internalMsgQueue := n.internalMsgQueue.eraseIdx i }
        if n.isContinueConsensus then n.processInnerMsg env ans msg else n
    | .timeout ti =>
      if ti ∈ n.scheduled ∧ n.isContinueConsensus then n.handleTimeout env ans ti else n
    | .txsAvailable height =>
      if n.isContinueConsensus then n.handleTxsAvailable env ans height else n

def run (n : Node) (events : List (Event × Answers)) : Node :=
  events.foldl (fun n event => n.deliver env event.2 event.1) n

end Node

/-- The states of a node: from its start, after any events. -/
inductive Reachable (env : Env) : Node → Prop where
  | start {s : State} {seenCommit : Commit} {n : Node} (params : s.consensusParams = .zero)
      (started : startNode env s seenCommit = some n) : Reachable env n
  | deliver {n : Node} (ans : Answers) (e : Event) (reached : Reachable env n) :
      Reachable env (n.deliver env ans e)

end HNBChain.Audit.Source.Algorand
