import HNBChain.Audit.Source.Algorand.Tally

/-!
# Two thirds of the power

The quorum is taken of the total voting power, and every vote counts one. So a vote set weighs its
votes only when every validator has the power one: as soon as one validator has more, some
validators with more than two thirds of the power do not make a majority. Votes for one block whose
parts hash is nil in some of them and empty in others are counted apart, whatever the powers.
-/
namespace HNBChain.Audit.Guarantees.QuorumWeight

open Lib Source.Algorand Finset

/-- The validators with an added vote for the block. -/
def voters (vs : VoteSet) (votes : List Vote) (id : BlockID) : Finset Nat :=
  (Finset.range vs.valSet.size).filter fun i : Nat =>
    ∃ v ∈ vs.added votes, v.validatorIndex = i ∧ v.blockID = id

/-- Those with an added vote under the key. -/
def keyVoters (vs : VoteSet) (votes : List Vote) (key : BlockKey) : Finset Nat :=
  (Finset.range vs.valSet.size).filter fun i : Nat =>
    ∃ v ∈ vs.added votes, v.validatorIndex = i ∧ v.key = key

theorem keyVoters_subset (vs : VoteSet) (votes : List Vote) (key : BlockKey) :
    keyVoters vs votes key ⊆ voters vs votes key.id := by
  refine Finset.monotone_filter_right _ fun i _ hv => ?_
  obtain ⟨v, hm, index, same⟩ := hv
  exact ⟨v, hm, index, Vote.blockID_of_key same⟩

/-- Votes for one block have one key: the parts hash is nil in all of them or in none. -/
def SpeltAlike (votes : List Vote) : Prop :=
  ∀ v ∈ votes, ∀ w ∈ votes, v.blockID = w.blockID → v.key = w.key

theorem SpeltAlike.voters_subset {votes : List Vote} (alike : SpeltAlike votes) {vs : VoteSet}
    {v : Vote} (had : v ∈ vs.added votes) :
    voters vs votes v.blockID ⊆ keyVoters vs votes v.key := by
  refine Finset.monotone_filter_right _ fun i _ hv => ?_
  obtain ⟨w, hm, index, same⟩ := hv
  exact ⟨w, hm, index,
    alike w (VoteSet.added_subset hm) v (VoteSet.added_subset had) same⟩

/-- A block has the majority exactly when the validators whose votes for it were added have more
than two thirds of the power. -/
def Weighs (vals : ValidatorSet) : Prop :=
  ∀ height round type votes, (newVoteSet ⟨height, round, type, vals⟩).Peaceful votes →
    SpeltAlike votes →
      ∀ id, ((newVoteSet ⟨height, round, type, vals⟩).addAll votes).maj23 = some id ↔
        2 * vals.wholePower <
          3 * ∑ i ∈ voters (newVoteSet ⟨height, round, type, vals⟩) votes id, vals.power i

structure Powers (vals : ValidatorSet) : Prop where
  positive : ∀ v ∈ vals.validators, 0 < v.votingPower
  bounded : vals.wholePower < 2 ^ 61

variable {vals : ValidatorSet}

theorem Powers.noOverflow (powers : Powers vals) : vals.Bounded where
  nonneg v member := (powers.positive v member).le
  small := by
    have := powers.bounded
    omega

/-! ## With power one -/

section Unit

variable (unit : ∀ v ∈ vals.validators, v.votingPower = 1)

include unit

theorem sum_power_unit {validators : Finset Nat} (hi : validators ⊆ Finset.range vals.size) :
    ∑ i ∈ validators, vals.power i = validators.card := by
  have one : ∀ i ∈ validators, vals.power i = 1 := by
    intro i hm
    have bound : i < vals.size := Finset.mem_range.mp (hi hm)
    rw [power_eq bound]
    exact unit _ (List.getElem_mem bound)
  rw [Finset.sum_congr rfl one]
  simp

theorem wholePower_eq_size : vals.wholePower = vals.size := by
  rw [wholePower_eq_sum, sum_power_unit unit subset_rfl, card_range]

theorem weighs_of_unit (hb : vals.Bounded) : Weighs vals := by
  intro height round type votes hp alike id
  let vs := newVoteSet ⟨height, round, type, vals⟩
  have valSet : (vs.addAll votes).valSet = vals :=
    congrArg Slot.valSet (VoteSet.addAll_toSlot vs votes)
  have ht := (VoteSet.Tallies.new ⟨height, round, type, vals⟩).addAll hp
  have counted (key : BlockKey) : (vs.addAll votes).maj23Key = some key ↔
      2 * vals.wholePower < 3 * (keyVoters vs votes key).card := by
    rw [ht.majority_iff (by rwa [valSet]) (by rw [valSet, wholePower_eq_size unit]),
      ht.voters_eq, valSet, hb.quorum_le_iff]
    rfl
  have hi : voters vs votes id ⊆ Finset.range vals.size := Finset.filter_subset ..
  rw [sum_power_unit unit hi]
  constructor
  · intro hma
    obtain ⟨key, hd, rfl⟩ := Option.map_eq_some_iff.mp hma
    have most := (counted key).mp hd
    have fewer := Finset.card_le_card (keyVoters_subset vs votes key)
    omega
  · intro most
    -- one of the voters spells the key for all of them
    have ho : 0 < (voters vs votes id).card := by
      have := hb.total.1
      omega
    obtain ⟨i, hv⟩ := Finset.card_pos.mp ho
    obtain ⟨_, v, hm, _, rfl⟩ := Finset.mem_filter.mp hv
    have all := Finset.card_le_card (alike.voters_subset hm)
    exact Option.map_eq_some_iff.mpr ⟨v.key, (counted v.key).mpr (by omega), rfl⟩

end Unit

/-! ## With a validator of more power -/

section Heavy

variable (named : ∀ v ∈ vals.validators, v.address ≠ [])

/-- A prevote of the validator for no block. -/
def ballot (vals : ValidatorSet) (i : Nat) : Vote where
  validatorAddress := (vals.validators[i]?.map Validator.address).getD []
  validatorIndex := i
  height := 1
  round := 0
  timestamp := 0
  type := .prevote
  blockID := .zero
  signature := []

include named in
theorem ballot_casts {i : Nat} (hi : i < vals.size) :
    (Slot.mk 1 0 .prevote vals).Casts i (ballot vals i) where
  index := rfl
  height := rfl
  round := rfl
  type := rfl
  named := by
    rw [ballot, List.getElem?_eq_getElem hi]
    exact named _ (List.getElem_mem hi)
  address := by
    rw [ballot, List.getElem?_eq_getElem hi]
    rfl

include named in
/-- Any validators may vote, and then there is a majority only if they are a quorum by number. -/
theorem Weighs.quorum_of_power (weighs : Weighs vals) {validators : Finset Nat}
    (hi : validators ⊆ Finset.range vals.size)
    (two_thirds : 2 * vals.wholePower < 3 * ∑ i ∈ validators, vals.power i) :
    vals.quorum ≤ validators.card := by
  let votes := validators.toList.map (ballot vals)
  have indices : ∀ vote ∈ votes, ∃ i ∈ validators, ballot vals i = vote := by
    intro vote hm
    obtain ⟨i, hl, eq⟩ := List.mem_map.mp hm
    exact ⟨i, Finset.mem_toList.mp hl, eq⟩
  have ha : (newVoteSet ⟨1, 0, .prevote, vals⟩).Accepts votes := by
    refine (VoteSet.Tallies.new _).accepts ?_ ?_ fun vote _ => rfl
    · intro vote hm
      obtain ⟨i, hl, rfl⟩ := indices vote hm
      exact ballot_casts named (Finset.mem_range.mp (hi hl))
    · rw [List.map_map]
      exact (List.nodup_map_iff Int.ofNat_injective).mpr validators.nodup_toList
  have same : voters (newVoteSet ⟨1, 0, .prevote, vals⟩) votes .zero = validators := by
    ext i
    rw [voters, ha.added, Finset.mem_filter]
    constructor
    · rintro ⟨_, vote, hm, index, _⟩
      obtain ⟨j, hl, rfl⟩ := indices vote hm
      have eq : j = i := Int.ofNat_inj.mp index
      exact eq ▸ hl
    · intro hl
      exact ⟨hi hl, ballot vals i, List.mem_map_of_mem (Finset.mem_toList.mpr hl), rfl,
        rfl⟩
  have key : ∀ vote ∈ votes, vote.key = BlockID.zero.key true := by
    intro vote hm
    obtain ⟨i, _, rfl⟩ := indices vote hm
    rfl
  have alike : SpeltAlike votes := fun v one w other _ => (key v one).trans (key w other).symm
  have hma := (weighs 1 0 .prevote votes ha.peaceful alike .zero).mpr (by rwa [same])
  have ht := (VoteSet.Tallies.new ⟨1, 0, .prevote, vals⟩).addAll ha.peaceful
  have valSet : ((newVoteSet ⟨1, 0, .prevote, vals⟩).addAll votes).valSet = vals :=
    congrArg Slot.valSet (VoteSet.addAll_toSlot _ votes)
  obtain ⟨decided, h1, zero⟩ := Option.map_eq_some_iff.mp hma
  have hq := ht.quorum_of_majority h1
  rw [ht.voters_eq, valSet] at hq
  have fewer := keyVoters_subset (newVoteSet ⟨1, 0, .prevote, vals⟩) votes decided
  rw [zero, same] at fewer
  exact hq.trans (Int.ofNat_le.mpr (Finset.card_le_card fewer))

variable (positive : ∀ v ∈ vals.validators, 0 < v.votingPower)

include positive

theorem one_le_power {i : Nat} (hi : i < vals.size) : 1 ≤ vals.power i := by
  rw [power_eq hi]
  exact positive _ (List.getElem_mem hi)

theorem card_le_power {validators : Finset Nat} (hi : validators ⊆ Finset.range vals.size) :
    (validators.card : Int) ≤ ∑ i ∈ validators, vals.power i := by
  have bound := Finset.card_nsmul_le_sum validators vals.power 1 fun i hm =>
    one_le_power positive (Finset.mem_range.mp (hi hm))
  simpa using bound

/-- Validators among which one has more power than one have more power than there are of them. -/
theorem card_lt_power {validators : Finset Nat} (hi : validators ⊆ range vals.size) {i : Nat}
    (hm : i ∈ validators) (heavy : 1 < vals.power i) :
    (validators.card : Int) < ∑ i ∈ validators, vals.power i := by
  have rest := card_le_power positive ((erase_subset i validators).trans hi)
  have card := card_erase_add_one hm
  rw [← add_sum_erase validators vals.power hm]
  omega

include named in
theorem unit_of_weighs (hb : vals.Bounded) (weighs : Weighs vals) :
    ∀ v ∈ vals.validators, v.votingPower = 1 := by
  intro v hm
  by_contra other
  obtain ⟨h, bound, rfl⟩ := List.getElem_of_mem hm
  have hi : h < vals.size := bound
  have heavy : 1 < vals.power h := by
    have := one_le_power positive hi
    rw [power_eq hi] at this ⊢
    omega
  have everyone := card_lt_power positive subset_rfl (Finset.mem_range.mpr hi) heavy
  rw [Finset.card_range, ← wholePower_eq_sum] at everyone
  -- as many validators as fall short of the quorum by one, or all of them
  let short := (2 * vals.wholePower / 3).toNat
  obtain ⟨validators, has, subset, card⟩ := Finset.exists_subsuperset_card_eq
    (Finset.singleton_subset_iff.mpr (Finset.mem_range.mpr hi)) (n := min vals.size short)
    (by rw [Finset.card_singleton]; omega) (by rw [Finset.card_range]; omega)
  have weight := card_lt_power positive subset (Finset.singleton_subset_iff.mp has) heavy
  have he : 2 * vals.wholePower < 3 * ∑ i ∈ validators, vals.power i := by
    by_cases all : vals.size ≤ short
    · have hw : validators = Finset.range vals.size :=
        Finset.eq_of_subset_of_card_le subset (by rw [card, Finset.card_range]; omega)
      rw [hw, ← wholePower_eq_sum]
      omega
    · omega
  have hq := (hb.quorum_le_iff _).mp (weighs.quorum_of_power named subset he)
  omega

end Heavy

/-- Where a validator could have no address it could not vote, whatever its power. -/
theorem weighs_iff_unit (vals : ValidatorSet) (powers : Powers vals) :
    ((∀ v ∈ vals.validators, v.votingPower = 1) → Weighs vals) ∧
      ((∀ v ∈ vals.validators, v.address ≠ []) → Weighs vals →
        ∀ v ∈ vals.validators, v.votingPower = 1) :=
  ⟨fun unit => weighs_of_unit unit powers.noOverflow,
    fun hn => unit_of_weighs hn powers.positive powers.noOverflow⟩

/-! ## Two validators of the powers ten and one -/

def twoValidators (heavy : Int) : ValidatorSet where
  validators := [⟨[1], [1], heavy⟩, ⟨[2], [2], 1⟩]
  proposer := none
  accum := fun _ => 0
  bgID := 0
  extend := []

theorem weighs_iff_unit_two : Powers (twoValidators 1) ∧ Weighs (twoValidators 1) := by
  have powers : Powers (twoValidators 1) := ⟨by decide, by decide⟩
  exact ⟨powers, (weighs_iff_unit (twoValidators 1) powers).1 (by decide)⟩

-- Two votes for no block, the parts hash nil in one and empty in the other.
example : ((newVoteSet ⟨1, 0, .prevote, twoValidators 1⟩).addAll
    [ballot (twoValidators 1) 0,
      { ballot (twoValidators 1) 1 with nilHash := false }]).maj23 = none := by decide

/-- The first validator has ten of eleven, and its vote does not make a majority. -/
theorem ten_of_eleven_no_majority :
    let vs := newVoteSet ⟨1, 0, .prevote, twoValidators 10⟩
    let votes := [ballot (twoValidators 10) 0]
    Powers (twoValidators 10) ∧ vs.Peaceful votes ∧ (vs.addAll votes).maj23 = none ∧
      voters vs votes .zero = {0} ∧
      2 * (twoValidators 10).wholePower <
        3 * ∑ i ∈ voters vs votes .zero, (twoValidators 10).power i := by
  refine ⟨⟨by decide, by decide⟩, ⟨by decide, trivial⟩, by decide, by decide, by decide⟩

end HNBChain.Audit.Guarantees.QuorumWeight
