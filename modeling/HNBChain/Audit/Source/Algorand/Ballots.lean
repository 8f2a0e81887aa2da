import HNBChain.Audit.Source.Algorand.Invariants
import HNBChain.Audit.Source.Algorand.Stable
import HNBChain.Audit.Source.Algorand.Tally

/-!
# The vote sets of a reached node

Until a vote set has a majority, every vote in it is counted for its block, and no block is counted
up to the quorum. This holds of every vote set of every reached node. A validator whose precommit is
for the block that all others are for is therefore counted for it, and once enough of them are the
block has the majority.
-/
namespace HNBChain.Audit.Source.Algorand

open Lib Function Option

structure VoteSet.Regular (vs : VoteSet) : Prop where
  counted : vs.maj23Key = none → ∀ i v, vs.votes i = some v → ((vs.block v.key).votes i).isSome
  undecided : 0 < vs.valSet.quorum → vs.maj23Key = none →
    ∀ key, ((vs.block key).sum : Int) < vs.valSet.quorum

namespace BlockVotes

variable {bv : BlockVotes} {vote : Vote} {i j : Nat}

theorem addVerifiedVote_isSome : ((bv.addVerifiedVote vote i).votes i).isSome := by
  unfold addVerifiedVote
  split
  · dsimp only
    rw [update_self]
    rfl
  next held =>
    rw [← not_isNone, Bool.not_eq_true']
    exact Bool.not_eq_true _ ▸ held

theorem addVerifiedVote_mono (held : (bv.votes j).isSome) :
    ((bv.addVerifiedVote vote i).votes j).isSome := by
  unfold addVerifiedVote
  split
  · dsimp only
    by_cases same : j = i
    · subst same
      rw [update_self]
      rfl
    · rw [update_of_ne same]
      exact held
  · exact held

end BlockVotes

namespace VoteSet

variable {vs : VoteSet} {vote v : Vote} {bv : BlockVotes} {key : BlockKey} {i j : Nat}

theorem Regular.new (slot : Slot) : (newVoteSet slot).Regular where
  counted _ _ _ held := by cases held
  undecided positive _ _ := positive

/-- A vote that decides nothing leaves the array, and its block below the quorum. -/
theorem count_undecided (hp : (vs.count bv vote i).maj23Key = none) :
    vs.maj23Key = none ∧ (vs.count bv vote i).votes = vs.votes ∧
      ¬ ((bv.sum : Int) < vs.valSet.quorum ∧
        vs.valSet.quorum ≤ (bv.addVerifiedVote vote i).sum) := by
  unfold count at hp ⊢
  dsimp only at hp ⊢
  split_ifs at hp with decides
  rw [if_neg decides]
  exact ⟨hp, rfl, fun crosses => decides ⟨crosses.1, crosses.2, hp⟩⟩

/-- Whatever the array of the vote set says of the vote, it is counted. -/
theorem Regular.count (hr : vs.Regular) :
    ((vs.place vote i).count (vs.block vote.key) vote i).Regular where
  counted pending j v held := by
    obtain ⟨hbe, array, _⟩ := count_undecided pending
    rw [place_maj23Key] at hbe
    rw [array] at held
    rw [block_count]
    rcases place_votes held with old | ⟨rfl, rfl⟩
    · have hs := hr.counted hbe j v old
      split
      next same => exact BlockVotes.addVerifiedVote_mono (same ▸ hs)
      next =>
        rw [block_place]
        exact hs
    · rw [if_pos rfl]
      exact BlockVotes.addVerifiedVote_isSome
  undecided positive pending key := by
    obtain ⟨hbe, _, hb⟩ := count_undecided pending
    rw [place_maj23Key] at hbe
    rw [count_toSlot, place_toSlot] at positive ⊢
    rw [place_toSlot] at hb
    rw [block_count]
    split
    · exact lt_of_not_ge fun hre => hb ⟨hr.undecided positive hbe vote.key, hre⟩
    · rw [block_place]
      exact hr.undecided positive hbe key

theorem Regular.addVote (hr : vs.Regular) (vote : Vote) : (vs.addVote vote).2.Regular := by
  rcases vs.addVote_cases vote with ⟨same, _⟩ | ⟨_, result, done, ha⟩
  · rw [same]
    exact hr
  · rw [ha]
    cases held : vs.votes vote.validatorIndex.toNat with
    | none =>
      rw [addVerifiedVote_free held] at done
      rw [← some.inj done]
      exact hr.count
    | some old =>
      rcases addVerifiedVote_cases done with eq | eq
      · rw [eq]
        cases majority : vs.maj23Key with
        | none =>
          have hun : vs.place vote vote.validatorIndex.toNat = vs := by
            unfold place
            rw [held, majority, if_neg (by simp), if_neg nofun]
          rw [hun]
          exact hr
        | some key =>
          have hd : (vs.place vote vote.validatorIndex.toNat).maj23Key ≠ none := by
            rw [place_maj23Key, majority]
            exact nofun
          exact ⟨fun hp => absurd hp hd, fun _ hp => absurd hp hd⟩
      · rw [eq]
        exact hr.count

/-- A claim of a peer counts no votes. -/
theorem block_setPeerMaj23 (peerID : Bytes) (claimed : BlockKey) :
    ((vs.setPeerMaj23 peerID claimed).block key).votes = (vs.block key).votes ∧
      ((vs.setPeerMaj23 peerID claimed).block key).sum = (vs.block key).sum := by
  unfold block setPeerMaj23
  split
  · exact ⟨rfl, rfl⟩
  · dsimp only
    by_cases same : key = claimed
    · subst same
      rw [update_self]
      cases vs.votesByBlock key with
      | none => exact ⟨rfl, rfl⟩
      | some bv => exact ⟨rfl, rfl⟩
    · rw [update_of_ne same]
      exact ⟨rfl, rfl⟩

theorem Regular.setPeerMaj23 (hr : vs.Regular) (peerID : Bytes) (claimed : BlockKey) :
    (vs.setPeerMaj23 peerID claimed).Regular where
  counted pending j v held := by
    rw [setPeerMaj23_maj23Key] at pending
    rw [setPeerMaj23_votes] at held
    rw [(block_setPeerMaj23 peerID claimed).1]
    exact hr.counted pending j v held
  undecided positive pending key := by
    rw [setPeerMaj23_maj23Key] at pending
    rw [setPeerMaj23_toSlot] at positive ⊢
    rw [(block_setPeerMaj23 peerID claimed).2]
    exact hr.undecided positive pending key

/-! ## Votes for one block -/

theorem addVote_mono (vote : Vote) (held : ((vs.block key).votes j).isSome) :
    (((vs.addVote vote).2.block key).votes j).isSome := by
  refine addVote_keeps (P := fun m => ((m.block key).votes j).isSome) vote held
    (fun _ => ?_) fun _ => ?_
  · rw [block_place]
    exact held
  · rw [block_count, block_place]
    split
    next same => exact BlockVotes.addVerifiedVote_mono (same ▸ held)
    next => exact held

/-- A vote that is counted already is refused. -/
theorem addVote_of_known (hk : ((vs.block vote.key).votes vote.validatorIndex.toNat).isSome) :
    (vs.addVote vote).2 = vs := by
  have hf : (vs.getVote vote.validatorIndex.toNat vote.key).isSome := by
    unfold getVote
    split
    · rfl
    · unfold block at hk
      cases stored : vs.votesByBlock vote.key with
      | none =>
        rw [stored] at hk
        cases hk
      | some bv =>
        rw [stored] at hk
        exact hk
  unfold addVote
  split
  · rfl
  · split
    · rfl
    · split
      · rfl
      · split
        · rfl
        · split
          · rfl
          · rfl

/-- A validator without another vote in the array is counted. -/
theorem addVote_alone (hr : vs.Regular) (hp : vs.maj23Key = none)
    (hal : ∀ v, vs.Recorded i v → v.key = vote.key) (hc : vs.Casts i vote)
    (hu : (vs.block vote.key).votes i = none) :
    vs.addVote vote = ((true, none), vs.taken vote) := by
  refine addVote_of_free hc ?_ hu
  cases held : vs.votes i with
  | none => rfl
  | some v =>
    have hs := hr.counted hp i v held
    rw [hal v (.inl held), hu] at hs
    cases hs

/-- It is counted from then on; if it was before, nothing changes. -/
theorem addVote_backs (hr : vs.Regular) (hp : vs.maj23Key = none)
    (hal : ∀ v, vs.Recorded i v → v.key = vote.key) (hc : vs.Casts i vote) :
    (((vs.addVote vote).2.block vote.key).votes i).isSome ∧
      ((vs.addVote vote).2 = vs ∨ (vs.addVote vote).1.1 = true) := by
  have index : vote.validatorIndex.toNat = i := by
    rw [hc.index]
    rfl
  by_cases known : ((vs.block vote.key).votes i).isSome
  · exact ⟨addVote_mono vote known, .inl (addVote_of_known (index ▸ known))⟩
  · rw [addVote_alone hr hp hal hc (not_isSome_iff_eq_none.mp known)]
    refine ⟨?_, .inr rfl⟩
    unfold VoteSet.taken
    rw [block_count, if_pos rfl, index]
    exact BlockVotes.addVerifiedVote_isSome

/-- A vote decides only if it is the one that the quorum lacks. -/
theorem addVote_closes (hr : vs.Regular) (hp : vs.maj23Key = none)
    (hal : ∀ v, vs.Recorded i v → v.key = vote.key) (hc : vs.Casts i vote)
    (hd : (vs.addVote vote).2.maj23Key ≠ none) :
    vs.valSet.quorum ≤ (vs.block vote.key).sum + 1 ∧ (vs.block vote.key).votes i = none := by
  have index : vote.validatorIndex.toNat = i := by
    rw [hc.index]
    rfl
  by_cases known : ((vs.block vote.key).votes i).isSome
  · rw [addVote_of_known (index ▸ known)] at hd
    exact absurd hp hd
  · have hu : (vs.block vote.key).votes i = none := not_isSome_iff_eq_none.mp known
    refine ⟨?_, hu⟩
    rw [addVote_alone hr hp hal hc hu] at hd
    unfold VoteSet.taken VoteSet.count at hd
    dsimp only at hd
    split at hd
    next crosses =>
      have hre := crosses.2.1
      rw [place_toSlot] at hre
      unfold BlockVotes.addVerifiedVote at hre
      rw [index, hu] at hre
      exact hre
    next =>
      rw [place_maj23Key] at hd
      exact absurd hp hd

/-- Enough validators that are counted for a block decide. -/
theorem decided_of_backed (hr : vs.Regular) (hso : vs.Sound) {voters : Finset Nat}
    (hpo : 0 < vs.valSet.quorum) (hq : vs.valSet.quorum ≤ voters.card)
    (hba : ∀ i ∈ voters, ((vs.block key).votes i).isSome) : vs.maj23Key ≠ none := by
  intro hp
  have hb := hr.undecided hpo hp key
  have hco : voters.card ≤ (vs.block key).sum := by
    rw [(hso.block key).sum]
    refine Finset.card_le_card fun i hm => ?_
    obtain ⟨v, held⟩ := isSome_iff_exists.mp (hba i hm)
    have hi : i < vs.valSet.size := ((hso.block key).casts i v held).1.lt_size
    exact Finset.mem_filter.mpr ⟨Finset.mem_range.mpr hi, hba i hm⟩
  omega

end VoteSet

/-! ## The vote sets of a height -/

namespace HeightVoteSet

variable {hvs : HeightVoteSet} {r : Int32} {t : VoteType}

/-- A majority stays when votes are added. -/
theorem majority_addVote {id : BlockID} (hre : hvs.majority r t = some id) (vote : Vote) :
    (hvs.addVote vote).2.majority r t = some id := by
  rw [majority_eq] at hre ⊢
  rcases hvs.votesAt_addVote vote with same | ha
  · rw [same]
    exact hre
  · rw [ha]
    exact VoteSet.addVote_maj23 hre vote

def Regular (hvs : HeightVoteSet) : Prop := ∀ r t, (hvs.votesAt r t).Regular

theorem Regular.new (height : Nat) (valSet : ValidatorSet) : (new height valSet).Regular := by
  intro r t
  rw [votesAt_new]
  exact .new _

theorem Regular.addVote (hr : hvs.Regular) (vote : Vote) : (hvs.addVote vote).2.Regular := by
  intro r t
  rcases hvs.votesAt_addVote vote with same | ha
  · rw [same]
    exact hr r t
  · rw [ha]
    exact (hr r t).addVote vote

end HeightVoteSet

/-- Votes are only ever added, claims only set a mark, and a new height starts without votes. -/
theorem regular_stable : NodeStable fun n => n.votes.Regular where
  light light regular := by
    rw [light]
    exact regular
  tracks _ regular := fun r t => by
    rw [HeightVoteSet.votesAt_setRound]
    exact regular r t
  proposes _ _ _ regular := regular
  locks _ _ _ regular := regular
  records v regular := regular.addVote v
  recordsLast _ regular := regular
  decides _ regular := regular
  stores _ regular := regular
  succeeds s _ _ := .new _ s.validators
  continues _ regular := regular

theorem Reachable.regular {env : Env} {n : Node} (hre : Reachable env n) : n.votes.Regular := by
  induction hre with
  | start params hst =>
    obtain ⟨lastCommit, _, made⟩ := map_eq_some_iff.mp hst
    rw [← made]
    dsimp only
    split
    · exact .new _ _
    · exact .new _ _
  | deliver ans e _ ih =>
    refine regular_stable.deliver (fun _ hr => hr) ?_ e ih
    intro n round type peerID key hr r t
    rcases n.votes.votesAt_setPeerMaj23 peerID key with same | marked
    · rw [same]
      exact hr r t
    · rw [marked]
      exact (hr r t).setPeerMaj23 peerID key

end HNBChain.Audit.Source.Algorand
