import Mathlib.Data.List.ReduceOption
import HNBChain.Audit.Source.Algorand.Proposing
import HNBChain.Audit.Guarantees.RoundMonotone

/-!
# What an honest proposer makes

A block of `MakeBlockDPoS` for the next height validates if its commit can stand under the block:
none for the first height, and one that passes its own checks for the others. `MakeBlockVRF` makes
the same block at a height for which the validators changed; at all other heights it panics.
-/
namespace HNBChain.Audit.Guarantees.HonestProposal

open Lib Source.Algorand RoundMonotone

variable {d : Digests} {now : Nat} {s : State} {b : Block} {commit : Commit}

/-- The commit can go with the block after the last one. -/
def Fits (d : Digests) (s : State) (commit : Commit) : Prop :=
  if s.lastBlockNum = 0 then commit.precommits = []
  else commit.validateBasic = .ok () ∧
    s.lastValidators.verifyCommitVoteSign d.curve s.lastBlockNum commit ≠ .error .panic

variable {txs : List Bytes} {proposer : Validator} {vrfValue vrfProof : Bytes}

/-- The state after one block of three validators, all of whom have precommitted it. -/
def secondState (changed : Nat) : State :=
  { plainState 3 with
    lastBlockNum := 1
    lastBlockID := plainID 7
    lastHeightValidatorsChanged := changed }

def seenCommit : Commit := ⟨plainID 7,
    [0, 1, 2].map fun i => some (voteOf i 0 .precommit (plainID 7))⟩

end HNBChain.Audit.Guarantees.HonestProposal
