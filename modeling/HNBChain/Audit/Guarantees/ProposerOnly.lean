import HNBChain.Audit.Source.Algorand.Messages
import HNBChain.Audit.Guarantees.RoundMonotone

/-!
# Who may propose

`HandleOuterProposalMsg` turns a message away if the node is not the proposer itself and the sender
is not the proposer either. In its own turn a node therefore takes a proposal from anybody, and
where there is no proposer it reads the key of none.
-/
namespace HNBChain.Audit.Guarantees.ProposerOnly

open Lib Source Source.Algorand
open RoundMonotone

/-- How a call ends. -/
inductive Ending where
  | done
  | failed
  | panicked
  deriving DecidableEq

/-- The error of `HandleOuterProposalMsg` after the sender was let through. -/
def takeEnding (payload : Option ProposalMessage) : Ending :=
  match payload with
  | none => .failed
  | some proposalMsg =>
    match buildTypeProposalFromNetMsg proposalMsg with
    | none => .panicked
    | some _ => .done

/-- What `HandleOuterProposalMsg` returns; a message that is turned away is no error. -/
def proposalEnding (ans : Answers) (sender : Bytes) (payload : Option ProposalMessage)
    (n : Node) : Ending :=
  match ans.isProposer n.height n.round with
  | some (true, _) => takeEnding payload
  | none | some (false, none) => .panicked
  | some (false, some proposer) => if proposer.pubKeyStr ≠ sender then .done else takeEnding payload

/-- The proposal or its parts are not what they were. -/
def Sets (n m : Node) : Prop := m.proposal ≠ n.proposal ∨
    m.proposalBlockParts ≠ n.proposalBlockParts

/-- Only the proposer's message sets anything, and without a proposer the call fails in order. -/
def OnlyProposer (ans : Answers) (sender : Bytes) (payload : Option ProposalMessage)
    (n : Node) : Prop :=
  match ans.isProposer n.height n.round with
  | some (_, some proposer) =>
    Sets n (n.handleProposalMsg ans sender payload) → sender = proposer.pubKeyStr
  | none | some (_, none) => proposalEnding ans sender payload n = .failed

/-- The node waits for a proposal, and the message has one for its height and round. -/
def Settable (payload : Option ProposalMessage) (n : Node) : Prop :=
  n.proposal = none ∧ ¬ .commit ≤ n.step ∧ ∃ msg proposal, payload = some msg ∧
    buildTypeProposalFromNetMsg msg = some proposal ∧ proposal.height = n.height ∧
    proposal.round = n.round

/-- In its own turn, the node gets nothing it could use from others. -/
def OwnTurnGuarded (ans : Answers) (sender : Bytes) (payload : Option ProposalMessage)
    (n : Node) : Prop :=
  match ans.isProposer n.height n.round with
  | some (false, some _) => True
  | some (true, some proposer) => Settable payload n → sender = proposer.pubKeyStr
  | some (true, none) => payload = none
  | none | some (false, none) => False

section

variable {ans : Answers} {sender : Bytes} {payload : Option ProposalMessage} {n : Node}

theorem not_sets_self : ¬ Sets n n := fun sets => sets.elim (· rfl) (· rfl)

theorem setProposal_sets {proposal : Proposal} : Sets n (n.setProposal proposal) ↔
    n.proposal = none ∧ ¬ .commit ≤ n.step ∧ proposal.height = n.height ∧
    proposal.round = n.round := by
  unfold Node.setProposal
  by_cases already : n.proposal.isSome
  · rw [if_pos already]
    refine iff_of_false not_sets_self fun ⟨free, _⟩ => ?_
    rw [free] at already
    cases already
  · rw [if_neg already]
    have free : n.proposal = none := Option.not_isSome_iff_eq_none.mp already
    by_cases elsewhere : proposal.height ≠ n.height ∨ proposal.round ≠ n.round
    · rw [if_pos elsewhere]
      exact iff_of_false not_sets_self fun ⟨_, _, height, round⟩ =>
        elsewhere.elim (· height) (· round)
    · rw [if_neg elsewhere]
      obtain ⟨height, round⟩ := not_or.mp elsewhere
      by_cases late : .commit ≤ n.step
      · rw [if_pos late]
        exact iff_of_false not_sets_self fun ⟨_, early, _⟩ => early late
      · rw [if_neg late]
        refine iff_of_true (.inl ?_) ⟨free, late, not_not.mp height, not_not.mp round⟩
        rw [free]
        exact Option.some_ne_none proposal

theorem takeProposalMsg_sets : Sets n (n.takeProposalMsg payload) ↔ Settable payload n := by
  unfold Node.takeProposalMsg Settable
  cases payload with
  | none => exact iff_of_false not_sets_self fun ⟨_, _, _, _, none_, _⟩ => by cases none_
  | some msg =>
    dsimp only
    cases built : buildTypeProposalFromNetMsg msg with
    | none =>
      refine iff_of_false not_sets_self ?_
      rintro ⟨_, _, _, _, ⟨rfl⟩, built', _⟩
      cases built.symm.trans built'
    | some proposal =>
      rw [setProposal_sets]
      constructor
      · exact fun ⟨free, he, here⟩ => ⟨free, he, msg, proposal, rfl, built, here⟩
      · rintro ⟨free, he, _, other, ⟨rfl⟩, built', here⟩
        cases built.symm.trans built'
        exact ⟨free, he, here⟩

end

/-- For every node, proposer function, sender and message. -/
theorem onlyProposer_iff (ans : Answers) (sender : Bytes)
    (payload : Option ProposalMessage) (n : Node) :
    OnlyProposer ans sender payload n ↔ OwnTurnGuarded ans sender payload n := by
  unfold OnlyProposer OwnTurnGuarded Node.handleProposalMsg proposalEnding
  rcases ans.isProposer n.height n.round with _ | ⟨_ | _, _ | proposer⟩
  · exact iff_of_false nofun id
  · exact iff_of_false nofun id
  · refine iff_of_true (fun sets => ?_) trivial
    dsimp only at sets
    split at sets
    · exact absurd sets not_sets_self
    next own => exact (not_not.mp own).symm
  · unfold takeEnding
    cases payload with
    | none => exact iff_of_true rfl rfl
    | some msg =>
      dsimp only
      refine iff_of_false (fun same => ?_) nofun
      split at same <;> cases same
  · rw [takeProposalMsg_sets]

/-! ## A stranger's proposal -/

def strangerMsg : ProposalMessage := ⟨1, 0, some (plainParts 7), -1, some ⟨[], some ⟨0, []⟩, true⟩⟩

/-- The second of two validators in its own turn. -/
def ownTurn : Answers := { plainAnswers with isProposer := fun _ _ => some (true, some (member 1)) }

def noProposer : Answers := { plainAnswers with isProposer := fun _ _ => some (false, none) }

/-- In its own turn the node takes the proposal of a key that is no validator's; without a proposer
it panics. -/
theorem stranger_proposes : ((plainNode 2).handleProposalMsg ownTurn [9]
    (some strangerMsg)).proposal.isSome = true ∧
      ¬ OnlyProposer ownTurn [9] (some strangerMsg) (plainNode 2) ∧
      proposalEnding noProposer [9] (some strangerMsg) (plainNode 2) = .panicked ∧
      ¬ OnlyProposer noProposer [9] (some strangerMsg) (plainNode 2) := by
  refine ⟨by decide, fun only => ?_, by decide, fun only => ?_⟩
  · exact absurd (only (.inl nofun)) (by decide)
  · cases only

end HNBChain.Audit.Guarantees.ProposerOnly
