import HNBChain.Audit.Source.Algorand.Messages
import HNBChain.Audit.Source.Algorand.Running
import HNBChain.Audit.Guarantees.RoundMonotone

/-!
# Messages that stop a node

A decoded message may lack any of its objects, and it may name any height, round and number of
parts. For a proposal and for a block part the condition under which the handler returns is exact,
up to the memory that the parts take. A vote can start a round, a proposal, a prevote, a precommit
and a commit in one call; for it there is a condition under which none of these goes wrong, and one
that is needed whatever the node holds.
-/
namespace HNBChain.Audit.Guarantees.RemoteCrash

open Lib Source Source.Algorand
open RoundMonotone Node

/-! ## Proposals -/

/-- The proposer is known, and a proposal that is heard has all its objects. -/
def ProposalFits (ans : Answers) (sender : Bytes) (n : Node) (payload : Option ProposalMessage) :
    Prop :=
  TDMMessage.heard ans sender n ≠ none ∧ (TDMMessage.heard ans sender n = some true →
    ∀ msg, payload = some msg → (buildTypeProposalFromNetMsg msg).isSome)

/-- The table that is made for the parts, one entry for each, is not large. -/
def Modest (header : PartSetHeader) : Prop := header.total ≤ 2 ^ 20

section

variable {env : Env} {ans : Answers} {n : Node} {sender : Bytes}

/-- The part set with one more part. -/
def grown (ps : PartSet) (part : Part) : PartSet :=
  { ps with parts := Function.update ps.parts part.index (some part), count := ps.count + 1 }

/-- The part is the last one that is missing from the parts of the proposal. -/
structure Completes (env : Env) (n : Node) (height : Nat) (part : Part) (ps : PartSet) : Prop where
  here : n.height = height
  held : n.proposalBlockParts = some ps
  missing : ¬ (part.index ≥ ps.total ∨ (ps.parts part.index).isSome ∨
    ¬ env.verifyPart part (PartSet.header (some ps)))
  complete : (grown ps part).isComplete

/-- The bytes are those of a block that the node can look at: it has its header, what the registered
validation reads of it and, unless it is refused, its last commit; and where it is prevoted on at
once `ValidateBlock` returns. -/
def BlockFits (env : Env) (n : Node) (content : Bytes) : Prop :=
  match env.decodeBlock content with
  | .failed => True
  | .malformed => False
  | .uncommitted b => n.validateProposalBlk env b = some false
  | .block b =>
    n.validateProposalBlk env b ≠ none ∧
      (n.validateProposalBlk env b = some true → n.step = .propose →
        { n with proposalBlock := some (b.hashed env.digests) }.LockHolds env ∨
          validateBlock env.digests n.lastCommitState (b.hashed env.digests) ≠ .error .panic)

def PartFits (env : Env) (n : Node) (payload : Option BlockPartMessage) : Prop :=
  ∀ msg, payload = some msg → ∃ part, msg.part = some part ∧
    ∀ ps, Completes env n msg.height part ps →
      n.step ≠ .commit ∧ BlockFits env n (grown ps part).content

/-- The blocks that may be decided when this vote is counted. -/
def Electable (n : Node) (v : Vote) (id : BlockID) : Prop :=
  n.votes.majority v.round .precommit = some id ∨ id = v.blockID

/-- The vote is for an early round and comes to a node that is in one. It has the key of a vote for
the same block that is held of its validator. The node holds blocks it can validate and store, with
their parts, and a block it may decide on has the parts header it is decided under. -/
structure Bearable (env : Env) (ans : Answers) (n : Node) (v : Vote) : Prop where
  kind : ans.Kind
  ready : n.Ready env (Electable n v)
  modest : ∀ id, Electable n v id → Modest id.partsHeader
  here : Early n.round
  there : Early v.round
  started : 0 ≤ v.round
  accords : (n.votes.votesAt v.round v.type).Accords v
  lastCommit : v.height + 1 = n.height → n.step = .newHeight → v.type = .precommit →
    ∃ lastCommit, n.lastCommit = some lastCommit ∧ lastCommit.Accords v

/-- The vote has all its objects and can be borne. -/
def VoteFits (env : Env) (ans : Answers) (n : Node) (payload : Option VoteMessage) : Prop :=
  ∃ v, payload.bind buildTypeFromVoteMsg = some v ∧ Bearable env ans n v

/-- The condition on a message under which its handler returns. -/
def Fits (env : Env) (ans : Answers) (sender : Bytes) (n : Node) : TDMMessage → Prop
  | .proposal payload => ProposalFits ans sender n payload ∧
      ∀ proposal, payload.bind buildTypeProposalFromNetMsg = some proposal →
        Modest proposal.blockPartsHeader
  | .vote payload => VoteFits env ans n payload
  | .blockPart payload => PartFits env n payload
  -- the mutex is waited for
  | .hasVote _ | .voteSetMaj23 _ => ¬ n.mtxHeld
  | _ => True

end

theorem plainAnswers_kind : plainAnswers.Kind where
  selects _ _ panicked := by cases panicked
  generates _ _ panicked := by cases panicked
  divides _ _ _ made := by cases made
  processes _ panicked := by cases panicked

end HNBChain.Audit.Guarantees.RemoteCrash
