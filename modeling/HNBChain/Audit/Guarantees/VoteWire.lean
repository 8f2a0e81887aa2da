import HNBChain.Audit.Source.Algorand.Messages
import HNBChain.Audit.Guarantees.RoundMonotone

/-!
# A vote on the wire

A vote is signed, turned into a `VoteMessage` with narrower integers and shifted type codes, and
turned back by the receiver. For what a node signs nothing is lost, so the receiver checks the
signature over what was signed.
-/
namespace HNBChain.Audit.Guarantees.VoteWire

open Lib Source.Algorand RoundMonotone

/-- The index of a member is below their number, and -1 stands for no member. -/
theorem getByAddress_range (vals : ValidatorSet) (address : Bytes) :
    -1 ≤ (vals.getByAddress address).1 ∧ (vals.getByAddress address).1 < max vals.size 1 := by
  unfold ValidatorSet.getByAddress
  split
  next found =>
    obtain ⟨v, ht, -⟩ := Option.map_eq_some_iff.mp (of_decide_eq_true found)
    have hi : vals.searchAddress address < vals.size := (List.getElem?_eq_some_iff.mp ht).1
    omega
  · omega

theorem buildTypeFromVoteMsg_build {vote : Vote} (hk : vote.type ≠ .unknown)
    (index : -2 ^ 31 ≤ vote.validatorIndex ∧ vote.validatorIndex < 2 ^ 31)
    (clock : vote.timestamp < 2 ^ 64) (parts : vote.blockID.partsHeader.total < 2 ^ 32) :
    buildTypeFromVoteMsg (buildVoteMsgFromType vote) = some vote := by
  have narrow := Int32.toInt_ofInt_of_le index.1 index.2
  have code : VoteType.ofByte (Int32.ofInt ((vote.type.byte - 1) % 256) + 1).toInt = vote.type := by
    cases type : vote.type with
    | prevote => decide
    | precommit => decide
    | unknown => exact absurd type hk
  simp only [buildTypeFromVoteMsg, buildVoteMsgFromType, NetBlockID.build, narrow, code,
    Nat.mod_eq_of_lt clock, Nat.mod_eq_of_lt parts]
  rfl

/-- What a node signs comes out of the message as it was, with the signature over the rest of it.
`Unix` gives an int64, and what the receiver verifies is the signature over the vote without it. -/
theorem vote_survives (env : Env) (ans : Answers) (n : Node) {type : VoteType}
    (hk : type ≠ .unknown) (id : BlockID) (hm : n.validators.size < 2 ^ 31)
    (parts : id.partsHeader.total < 2 ^ 31) (clock : ans.now < 2 ^ 63) :
    ∃ vote, buildTypeFromVoteMsg (buildVoteMsgFromType (n.makeVote env ans type id)) = some vote ∧
      vote = n.makeVote env ans type id ∧
        env.sign { vote with signature := [] } = vote.signature := by
  have range := getByAddress_range n.validators env.digestAddr
  refine ⟨_, buildTypeFromVoteMsg_build hk ?_ ?_ ?_, rfl, rfl⟩
  · dsimp only [Node.makeVote]
    omega
  · exact clock.trans (by decide)
  · exact parts.trans (by decide)

/-- A precommit of the second of two validators, whose signatures are its address and the number of
the block. -/
theorem block_precommit_survives :
    let env := { plainEnv 2 1 with sign := fun v => v.validatorAddress ++ v.blockID.hash }
    ∃ vote, buildTypeFromVoteMsg (buildVoteMsgFromType
        ((plainNode 2).makeVote env plainAnswers .precommit (plainID 7))) = some vote ∧
      vote = (plainNode 2).makeVote env plainAnswers .precommit (plainID 7) ∧
        env.sign { vote with signature := [] } = vote.signature :=
  vote_survives _ _ _ (by decide) (plainID 7) (by decide) (by decide) (by decide)

end HNBChain.Audit.Guarantees.VoteWire
