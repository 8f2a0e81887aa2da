import HNBChain.Audit.Source.Algorand.Invariants

/-!
# Rounds and steps do not go back

Without a reset, height, round and step of a node grow in lexicographic order, as long as the node
is not in `Commit` of the last round that an int32 can hold. A commit that fails in any other round
leaves `Commit` by entering the next one. In the last round there is none: the node stays in
`Commit`, and the deferred update of `enterPrecommitWait` takes it back to `PrecommitWait`.
-/
namespace HNBChain.Audit.Guarantees.RoundMonotone

open Lib Source.Algorand

def AtLastCommit (n : Node) : Prop := n.step = .commit ∧ n.round = Int32.maxValue

instance (n : Node) : Decidable (AtLastCommit n) := inferInstanceAs (Decidable (_ ∧ _))

section

variable {env : Env} {ans : Answers} {n : Node} {e : Event}

theorem deliver_pos_le (hr : Reachable env n) (hno : e ≠ .reset)
    (hi : ¬ AtLastCommit n) : n.pos ≤ (n.deliver env ans e).pos := by
  by_cases halted : n.halted
  · rw [deliver_of_halted halted]
  · have he : n.step ≠ .commit := fun commit =>
      hi ⟨commit, (hr.rests commit).resolve_left halted⟩
    have ho : Outcome env (e.occasion env n) n (n.deliver env ans e) :=
      deliver_outcome hr.coherent.timed hno
    generalize n.deliver env ans e = n' at ho
    cases ho with
    | acted act => exact act.pos_le hr.coherent
    | @waited m hb _ =>
      -- the one step that could be above `PrecommitWait` was not entered
      refine hb.forward.pos.trans (position_le_of_step (RoundStep.num_le_precommitWait ?_))
      rcases hb.forward.step with ⟨same, _⟩ | ⟨_, hn⟩
      · exact same ▸ he
      · exact hn

/-- No event of the list comes while the node is in `Commit` of the last round. -/
def Inside (env : Env) : Node → List (Event × Answers) → Prop
  | _, [] => True
  | n, event :: rest => ¬ AtLastCommit n ∧ Inside env (n.deliver env event.2 event.1) rest

instance decidableInside (env : Env) :
    (n : Node) → (events : List (Event × Answers)) → Decidable (Inside env n events)
  | _, [] => isTrue trivial
  | n, event :: rest =>
    have := decidableInside env (n.deliver env event.2 event.1) rest
    inferInstanceAs (Decidable (_ ∧ _))

theorem run_pos_le (hr : Reachable env n) (events : List (Event × Answers))
    (hno : ∀ event ∈ events, event.1 ≠ .reset) (hi : Inside env n events) :
    n.pos ≤ (n.run env events).pos := by
  induction events generalizing n with
  | nil => exact le_refl _
  | cons event rest ih =>
    obtain ⟨here, hl⟩ := hi
    have step : n.pos ≤ (n.deliver env event.2 event.1).pos :=
      deliver_pos_le hr (hno event List.mem_cons_self) here
    exact step.trans (ih (hr.deliver event.2 event.1)
      (fun other hm => hno other (List.mem_cons_of_mem _ hm)) hl)

end

/-! ## The step back

A small network: validators of power 1 whose addresses and keys are their
numbers, and blocks of one part that are told apart by one octet.
-/

def member (i : Nat) : Validator := ⟨[UInt8.ofNat i], [UInt8.ofNat i], 1⟩

def members (count : Nat) : ValidatorSet :=
  ⟨(List.range count).map member, some (member 0), fun _ => 0, 0, []⟩

/-- Every signature of two octets is good. -/
def plainCurve : Curve := ⟨fun _ => .point, fun _ _ _ => true⟩

def digests : Digests where
  header h := h.appHash
  precommits _ := [0]
  txs _ := [0]
  evidence _ := [0]
  validators _ := [1]
  params _ := [0]
  standard h := h.stateHash
  curve := plainCurve

/-- A block without transactions for the first height. -/
def plainBlock (count : Nat) (tag : UInt8) : Block where
  header :=
    { blockNum := 1
      time := 0
      numTxs := 0
      lastBlockID := .zero
      totalTxs := 0
      lastCommitHash := [0]
      dataHash := [0]
      validatorsHash := [1]
      consensusHash := [0]
      appHash := [tag]
      lastResultsHash := []
      blkVRFValue := []
      blkVRFProof := []
      evidenceHash := [0] }
  data := some []
  evidence := []
  lastCommit := ⟨.zero, []⟩
  currentCommit := none
  validatorInfo := some ⟨some (members count), 0⟩

def plainParts (tag : UInt8) : PartSetHeader := ⟨1, [tag]⟩

def plainID (tag : UInt8) : BlockID := ⟨[tag], plainParts tag⟩

def plainPart (tag : UInt8) : Part := ⟨0, [tag], []⟩

/-- The surroundings of validator `self`. -/
def plainEnv (count self : Nat) : Env where
  digests := digests
  verifyPart part header := decide (part.bytes = header.hash)
  decodeBlock
    | [tag] => .block (plainBlock count tag)
    | _ => .failed
  decodeTx _ := none
  sign _ := []
  byVrf := false
  verifyVRF4Blk _ _ _ _ _ := some true
  id := [UInt8.ofNat self]
  digestAddr := [UInt8.ofNat self]
  createEmptyBlocks := true
  createEmptyBlocksInterval := 0
  skipTimeoutCommit := false

/-- The first validator proposes in every round, and every block can be executed. -/
def plainAnswers : Answers where
  isProposer _ _ := some (false, some (member 0))
  geneProposalBlk _ _ := some none
  isTxsLenZero _ _ := false
  nilHash := true
  blockProcess _ := .ok []
  continueConsensus := true
  now := 0

def plainState (count : Nat) : State :=
  { lastBlockNum := 0
    lastBlockTotalTx := 0
    lastBlockID := .zero
    lastBlockTime := 0
    validators := members count
    lastValidators := members count
    lastHeightValidatorsChanged := 0
    consensusParams := .zero
    previousHash := []
    prevVRFValue := []
    prevVRFProof := [] }

/-- A node that was started in front of the first block. -/
def plainNode (count : Nat) : Node :=
  (Node.new (plainState count) none).scheduleTimeout 1 0 .newHeight

def voteOf (i : Nat) (round : Int32) (type : VoteType) (id : BlockID) : Vote :=
  ⟨[UInt8.ofNat i], i, 1, round, 0, type, id, true, [], true⟩

/-- The vote as a message of the validator that casts it. -/
def voteFrom (i : Nat) (round : Int32) (type : VoteType) (id : BlockID) : Event :=
  .peer [UInt8.ofNat i] (.vote (voteOf i round type id))

def proposalFor (round : Int32) (tag : UInt8) : Event :=
  .peer [0] (.proposal ⟨1, round, plainParts tag, -1, .zero⟩)

def partOf (tag : UInt8) : Event := .peer [0] (.blockPart 1 (plainPart tag))

theorem plainNode_started {count self : Nat}
    (hi : (Node.new (plainState count) none).inbgGroup (plainEnv count self)) :
    startNode (plainEnv count self) (plainState count) ⟨.zero, []⟩ = some (plainNode count) :=
  congrArg some (if_pos hi)

theorem plainNode_reachable {count self : Nat}
    (hi : (Node.new (plainState count) none).inbgGroup (plainEnv count self)) :
    Reachable (plainEnv count self) (plainNode count) := .start rfl (plainNode_started hi)

/-- One precommit short of a commit in round 0. -/
def almostCommitted : List (Event × Answers) :=
  [(.timeout ⟨1, 0, .newHeight⟩, plainAnswers), (proposalFor 0 7, plainAnswers),
    (partOf 7, plainAnswers), (voteFrom 0 0 .precommit (plainID 7), plainAnswers),
    (voteFrom 1 0 .precommit (plainID 7), plainAnswers)]

/-- A node of four validators takes a proposal with its block and two precommits for it. -/
theorem run_pos_le_start : Inside (plainEnv 4 3) (plainNode 4) almostCommitted ∧
    (plainNode 4).pos ≤ ((plainNode 4).run (plainEnv 4 3) almostCommitted).pos :=
  have hi : Inside (plainEnv 4 3) (plainNode 4) almostCommitted := by decide +kernel
  ⟨hi, run_pos_le (plainNode_reachable (by decide)) _ (by simp [almostCommitted, proposalFor,
    partOf, voteFrom]) hi⟩

/-- Two nil precommits bring a node of two validators to the last round. There it takes a proposal
whose block cannot be executed, and two precommits of an earlier round make it try to commit. One
more precommit is of the last round. -/
def toLastCommit : List (Event × Answers) :=
  [(voteFrom 0 (Int32.maxValue - 1) .precommit .zero, plainAnswers),
    (voteFrom 1 (Int32.maxValue - 1) .precommit .zero, plainAnswers),
    (proposalFor Int32.maxValue 7, plainAnswers),
    (partOf 7, plainAnswers),
    (voteFrom 0 0 .precommit (plainID 7), plainAnswers),
    (voteFrom 1 0 .precommit (plainID 7),
      { plainAnswers with blockProcess := fun _ => .error .json }),
    (voteFrom 0 Int32.maxValue .precommit .zero, plainAnswers)]

def lastCommit : Node := (plainNode 2).run (plainEnv 2 1) toLastCommit

/-- A precommit for another block. -/
def otherPrecommit : Event := voteFrom 1 Int32.maxValue .precommit (plainID 7)

def stepBack : Node := lastCommit.deliver (plainEnv 2 1) plainAnswers otherPrecommit

theorem step_goes_back : ∃ (env : Env) (n : Node) (ans : Answers) (e : Event), Reachable env n ∧
    e ≠ .reset ∧ AtLastCommit n ∧ ¬ n.pos ≤ (n.deliver env ans e).pos := by
  have hb : lastCommit.step = .commit ∧ lastCommit.round = Int32.maxValue := by decide +kernel
  have ha : stepBack.step = .precommitWait ∧ stepBack.round = lastCommit.round ∧
      stepBack.height = lastCommit.height := by decide +kernel
  obtain ⟨step, round, height⟩ := ha
  refine ⟨plainEnv 2 1, lastCommit, plainAnswers, otherPrecommit,
    (plainNode_reachable (by decide)).run toLastCommit, nofun, hb, fun le => ?_⟩
  rcases position_le.mp (show lastCommit.pos ≤ stepBack.pos from le) with
    higher | ⟨_, later | ⟨_, forward⟩⟩
  · exact absurd height (Nat.ne_of_gt higher)
  · exact Int32.ne_of_lt later round.symm
  · rw [hb.1, step] at forward
    exact absurd forward (by decide)

end HNBChain.Audit.Guarantees.RoundMonotone
