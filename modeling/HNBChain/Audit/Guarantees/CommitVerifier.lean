import HNBChain.Audit.Guarantees.CommitCertificate

/-!
# What an accepted commit proves

`VerifyCommitVoteSign` reads the validator at the index a precommit names, also where there is none,
and counts every precommit of the list, whatever block it is for and however often its validator was
counted before. A commit that it accepts proves a quorum only together with the distinct validators
that its precommits for the block name.
-/
namespace HNBChain.Audit.Guarantees.CommitVerifier

open Lib Source Source.Algorand
open CommitCertificate

/-- The indices that the precommits for the commit's block name. -/
def named (commit : Commit) : Finset Nat :=
  ((commit.precommits.reduceOption.filter fun v => decide (v.blockID = commit.blockID)).map fun v =>
    v.validatorIndex.toNat).toFinset

section

variable {curve : Curve} {vals : ValidatorSet} {height : Nat} {commit : Commit}

end

open RoundMonotone

def precommitOf (index : Int) (id : BlockID) : Vote :=
  { voteOf 0 0 .precommit id with validatorIndex := index, signature := [1, 2] }

/-- The first validator's precommit three times. -/
def repeated : Commit :=
  ⟨plainID 7, [some (precommitOf 0 (plainID 7)), some (precommitOf 0 (plainID 7)),
    some (precommitOf 0 (plainID 7))]⟩

/-- A precommit of a validator that is not there. -/
def foreign : Commit := ⟨plainID 7, [some (precommitOf 4 (plainID 7))]⟩

end HNBChain.Audit.Guarantees.CommitVerifier
