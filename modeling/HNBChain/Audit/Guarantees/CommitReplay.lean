import HNBChain.Audit.Source.Algorand.RoundState
import HNBChain.Audit.Guarantees.QuorumWeight
import Mathlib.Data.List.ReduceOption

/-!
# A commit rebuilds its majority

`MakeCommit` stores the held votes of a vote set, which may be for several blocks and may have
replaced others. They are votes of different validators, so a new vote set takes them all; and the
validators that were counted for the majority hold a vote for it, so it is the majority again.
-/
namespace HNBChain.Audit.Guarantees.CommitReplay

open Lib Source.Algorand List

/-- The held votes by index, as a commit lists them. -/
def heldVotes (vs : VoteSet) : List Vote := ((range vs.valSet.size).map vs.votes).reduceOption

variable {vs : VoteSet} {commit : Commit} {key : BlockKey}

theorem mem_heldVotes {v : Vote} :
    v ∈ heldVotes vs ↔ ∃ i < vs.valSet.size, vs.votes i = some v := by
  rw [heldVotes, reduceOption_mem_iff, mem_map]
  simp only [mem_range]

theorem makeCommit_precommits (made : vs.makeCommit = some commit) :
    commit.precommits = (range vs.valSet.size).map vs.votes := by
  unfold VoteSet.makeCommit at made
  split at made
  · cases made
  · obtain ⟨id, _, rfl⟩ := Option.map_eq_some_iff.mp made
    rfl

/-- The indices of votes that are each held under their own rise with the list. -/
theorem heldVotes_distinct (hs : vs.Sound) : ((heldVotes vs).map Vote.validatorIndex).Nodup := by
  have sub : ∀ indices : List Nat,
      (((indices.map vs.votes).reduceOption).map Vote.validatorIndex).Sublist
        (indices.map Int.ofNat) := by
    intro indices
    induction indices with
    | nil => exact List.Sublist.refl _
    | cons i rest ih =>
      cases held : vs.votes i with
      | none =>
        rw [map_cons, held, reduceOption_cons_of_none]
        exact ih.cons _
      | some v =>
        rw [map_cons, held, reduceOption_cons_of_some, map_cons, map_cons,
          (hs.votes i v held).index]
        exact ih.cons_cons _
  exact (sub _).nodup ((nodup_map_iff Int.ofNat_injective).mpr nodup_range)

theorem heldVotes_casts (hs : vs.Sound) {v : Vote} (hm : v ∈ heldVotes vs) :
    vs.Casts v.validatorIndex.toNat v := by
  obtain ⟨i, _, held⟩ := mem_heldVotes.mp hm
  have hc := hs.votes i v held
  have index : v.validatorIndex.toNat = i := by
    rw [hc.index]
    rfl
  rwa [index]

/-- The round of a commit is that of any vote it holds. -/
theorem makeCommit_round (hs : vs.Sound) (made : vs.makeCommit = some commit)
    (some_vote : ∃ v, v ∈ heldVotes vs) : commit.round = vs.round := by
  have precommits := makeCommit_precommits made
  have hf : commit.firstPrecommit ≠ none := by
    obtain ⟨v, hm⟩ := some_vote
    rw [Commit.firstPrecommit, precommits, Ne, findSome?_eq_none_iff]
    intro none
    have hab := none (some v) (reduceOption_mem_iff.mp hm)
    cases hab
  obtain ⟨v, h1⟩ := Option.ne_none_iff_exists'.mp hf
  rw [Commit.round, h1]
  rw [Commit.firstPrecommit, precommits] at h1
  obtain ⟨entry, hm, eq⟩ := exists_of_findSome?_eq_some h1
  have hl : some v ∈ (range vs.valSet.size).map vs.votes :=
    (show entry = some v from eq) ▸ hm
  exact (heldVotes_casts hs (reduceOption_mem_iff.mpr hl)).round

/-- The loop of `reconstructLastCommit`, over votes that are all added. -/
theorem foldlM_of_accepts {step : VoteSet → Vote → Option VoteSet}
    (takes : ∀ vs vote vs', vs.addVote vote = ((true, none), vs') → step vs vote = some vs')
    {votes : List Vote} (ha : vs.Accepts votes) :
    votes.foldlM step vs = some (vs.addAll votes) := by
  induction votes generalizing vs with
  | nil => rfl
  | cons vote rest ih =>
    rw [foldlM_cons, takes vs vote _ (Prod.ext ha.1 rfl)]
    exact ih ha.2

/-- Whoever was counted for the majority holds a vote for it. -/
theorem quorum_held (hco : vs.Consistent) (hma : vs.maj23Key = some key) :
    vs.valSet.quorum ≤ ((Finset.range vs.valSet.size).filter fun i : Nat =>
      ∃ v ∈ heldVotes vs, v.validatorIndex = i ∧ v.key = key).card := by
  obtain ⟨bv, hst, hq⟩ := hco.sound.majority key hma
  rw [(hco.sound.votesByBlock key bv hst).sum] at hq
  refine hq.trans (Int.ofNat_le.mpr (Finset.card_le_card fun i hm => ?_))
  obtain ⟨hi, hcu⟩ := Finset.mem_filter.mp hm
  obtain ⟨v, hr⟩ := Option.isSome_iff_exists.mp hcu
  obtain ⟨w, held, block⟩ := hco.held key bv hma hst i v hr
  refine Finset.mem_filter.mpr ⟨hi, w, ?_, (hco.sound.votes i w held).index, block⟩
  exact mem_heldVotes.mpr ⟨i, Finset.mem_range.mp hi, held⟩

section

variable (unit : ∀ v ∈ vs.valSet.validators, v.votingPower = 1) (small : vs.valSet.size < 2 ^ 62)

include unit small

theorem bounded_of_unit : vs.valSet.Bounded where
  nonneg v member := by
    rw [unit v member]
    decide
  small := by
    rw [QuorumWeight.wholePower_eq_size unit]
    omega

theorem exists_heldVote (hco : vs.Consistent) (hma : vs.maj23Key = some key) :
    ∃ v, v ∈ heldVotes vs := by
  have most :=
    ((bounded_of_unit unit small).quorum_le_iff _).mp (quorum_held hco hma)
  have ho : 0 < ((Finset.range vs.valSet.size).filter fun i : Nat =>
      ∃ v ∈ heldVotes vs, v.validatorIndex = i ∧ v.key = key).card := by
    rw [QuorumWeight.wholePower_eq_size unit] at most
    omega
  obtain ⟨_, hv⟩ := Finset.card_pos.mp ho
  obtain ⟨_, v, hm, _⟩ := Finset.mem_filter.mp hv
  exact ⟨v, hm⟩

theorem reconstruct_of_consistent (hco : vs.Consistent) (height : vs.height ≠ 0)
    (precommit : vs.type = .precommit) (hma : vs.maj23Key = some key)
    (made : vs.makeCommit = some commit) (s : State) (last : s.lastBlockNum = vs.height)
    (validators : s.validators.validators = vs.valSet.validators) :
    ∃ rebuilt, reconstructLastCommit s commit = some (some rebuilt) ∧ rebuilt.height = vs.height ∧
      rebuilt.round = vs.round ∧ rebuilt.maj23Key = some key := by
  have size : s.validators.size = vs.valSet.size := congrArg length validators
  have hw : s.validators.wholePower = vs.valSet.wholePower :=
    congrArg (fun vals => (vals.map Validator.votingPower).sum) validators
  have quorumEq : s.validators.quorum = vs.valSet.quorum := by
    rw [ValidatorSet.quorum, ValidatorSet.quorum, ValidatorSet.totalVotingPower, validators]
    rfl
  have hb : s.validators.Bounded :=
    ⟨validators ▸ (bounded_of_unit unit small).nonneg, hw ▸ (bounded_of_unit unit small).small⟩
  have hq := quorum_held hco hma
  have round := makeCommit_round hco.sound made
    (exists_heldVote unit small hco hma)
  have slot : (Slot.mk s.lastBlockNum commit.round .precommit s.validators).Casts = vs.Casts := by
    funext i v
    refine propext ⟨fun hc => ?_, fun hc => ?_⟩
    · exact ⟨hc.index, hc.height.trans last, hc.round.trans round,
        hc.type.trans precommit.symm, hc.named, validators ▸ hc.address⟩
    · exact ⟨hc.index, hc.height.trans last.symm, hc.round.trans round.symm,
        hc.type.trans precommit, hc.named, validators.symm ▸ hc.address⟩
  let empty := newVoteSet ⟨s.lastBlockNum, commit.round, .precommit, s.validators⟩
  have ha : empty.Accepts (heldVotes vs) := by
    refine (VoteSet.Tallies.new _).accepts ?_ (heldVotes_distinct hco.sound) fun _ _ => rfl
    intro v hm
    have hc := heldVotes_casts hco.sound hm
    exact slot ▸ hc
  have hta := (VoteSet.Tallies.new _).addAll ha.peaceful
  have toSlot := VoteSet.addAll_toSlot empty (heldVotes vs)
  have valSet : (empty.addAll (heldVotes vs)).valSet = s.validators := congrArg Slot.valSet toSlot
  have rebuilt : (empty.addAll (heldVotes vs)).maj23Key = some key := by
    have powers : (s.validators.size : Int) ≤ s.validators.wholePower := by
      rw [hw, size, QuorumWeight.wholePower_eq_size unit]
    rw [hta.majority_iff (by rwa [valSet]) (by rwa [valSet]), hta.voters_eq, valSet,
      ha.added, quorumEq, size]
    exact hq
  have hd : (empty.addAll (heldVotes vs)).maj23 = some key.id := by
    rw [VoteSet.maj23, rebuilt]
    rfl
  refine ⟨empty.addAll (heldVotes vs), ?_, ?_, ?_, rebuilt⟩
  · have loop : commit.precommits.reduceOption = heldVotes vs := by
      rw [makeCommit_precommits made]
      rfl
    rw [reconstructLastCommit, if_neg (last.trans_ne height)]
    dsimp only
    rw [loop, foldlM_of_accepts (fun _ _ _ ht => by rw [ht]) ha, Option.bind_some,
      hd, if_neg (by simp)]
  · exact (congrArg Slot.height toSlot).trans last
  · exact (congrArg Slot.round toSlot).trans round

end

/-- The state after the block knows the validators that voted, with new priorities perhaps. -/
theorem commit_survives_storage (slot : Slot) (votes : List Vote) (id : BlockID) (s : State)
    (unit : ∀ v ∈ slot.valSet.validators, v.votingPower = 1) (hsm : slot.valSet.size < 2 ^ 62)
    (height : slot.height ≠ 0) (hp : slot.type = .precommit)
    (hma : ((newVoteSet slot).addAll votes).maj23 = some id) (last : s.lastBlockNum = slot.height)
    (validators : s.validators.validators = slot.valSet.validators) :
    ∃ commit rebuilt, ((newVoteSet slot).addAll votes).makeCommit = some commit ∧
      reconstructLastCommit s commit = some (some rebuilt) ∧ rebuilt.height = slot.height ∧
      rebuilt.round = slot.round ∧ rebuilt.maj23 = some id := by
  have toSlot : ((newVoteSet slot).addAll votes).toSlot = slot := VoteSet.addAll_toSlot _ votes
  have made : ((newVoteSet slot).addAll votes).makeCommit = some ⟨id,
      (range ((newVoteSet slot).addAll votes).valSet.size).map
        ((newVoteSet slot).addAll votes).votes⟩ := by
    rw [VoteSet.makeCommit, if_neg (by rw [toSlot]; exact not_not.mpr hp), hma]
    rfl
  obtain ⟨key, hd, rfl⟩ := Option.map_eq_some_iff.mp hma
  obtain ⟨rebuilt, success, height, round, hag⟩ := reconstruct_of_consistent (by rwa [toSlot])
    (by rwa [toSlot]) ((VoteSet.Consistent.new slot).addAll votes) (by rwa [toSlot])
    (by rwa [toSlot]) hd made s (by rwa [toSlot]) (by rwa [toSlot])
  rw [toSlot] at height round
  exact ⟨_, rebuilt, made, success, height, round, Option.map_eq_some_iff.mpr ⟨key, hag, rfl⟩⟩

/-! ## Three of four, and a precommit for nothing -/

def fourValidators : ValidatorSet where
  validators := [⟨[1], [1], 1⟩, ⟨[2], [2], 1⟩, ⟨[3], [3], 1⟩, ⟨[4], [4], 1⟩]
  proposer := none
  accum := fun _ => 0
  bgID := 0
  extend := []

def precommitOf (i : Nat) (id : BlockID) : Vote where
  validatorAddress := [UInt8.ofNat (i + 1)]
  validatorIndex := i
  height := 7
  round := 2
  timestamp := 0
  type := .precommit
  blockID := id
  signature := []

def stored : BlockID := ⟨[9], ⟨1, [8]⟩⟩

def afterSeven : State where
  lastBlockNum := 7
  lastBlockTotalTx := 0
  lastBlockID := stored
  lastBlockTime := 0
  validators := fourValidators
  lastValidators := fourValidators
  lastHeightValidatorsChanged := 1
  consensusParams := .zero
  previousHash := []
  prevVRFValue := []
  prevVRFProof := []

theorem commit_survives_storage_seven :
    let vs := (newVoteSet ⟨7, 2, .precommit, fourValidators⟩).addAll
      [precommitOf 2 stored, precommitOf 1 .zero, precommitOf 0 stored, precommitOf 3 stored]
    ∃ commit rebuilt, vs.makeCommit = some commit ∧
      reconstructLastCommit afterSeven commit = some (some rebuilt) ∧ rebuilt.height = 7 ∧
      rebuilt.round = 2 ∧ rebuilt.maj23 = some stored :=
  commit_survives_storage ⟨7, 2, .precommit, fourValidators⟩ _ stored afterSeven (by decide)
    (by decide) (by decide) rfl (by decide +kernel) rfl rfl

end HNBChain.Audit.Guarantees.CommitReplay
