import HNBChain.Audit.Source.Algorand.VoteSet

/-!
# The books of a vote set

The array of held votes, its bit array and sum, the votes of each block with theirs, and the
majority are five records of the same votes. `Consistent` says how they hang together, and every
call keeps it: also one that puts a vote in the array and then refuses it.
-/
namespace HNBChain.Audit.Source.Algorand

open Lib Function Option Finset

/-- The indices under which a vote is held. -/
def VoteSet.holders (vs : VoteSet) : Finset Nat :=
  (Finset.range vs.valSet.size).filter fun i => (vs.votes i).isSome

structure VoteSet.Consistent (vs : VoteSet) : Prop where
  sound : vs.Sound
  bits : ∀ i, vs.votesBitArray i = (vs.votes i).isSome
  sum : vs.sum = vs.holders.card
  blockBits : ∀ key bv, vs.votesByBlock key = some bv → ∀ i, bv.bitArray i = (bv.votes i).isSome
  counted : ∀ key bv, vs.votesByBlock key = some bv → ∀ i v, bv.votes i = some v →
    (vs.votes i).isSome
  held : ∀ key bv, vs.maj23Key = some key → vs.votesByBlock key = some bv →
    ∀ i v, bv.votes i = some v → ∃ w, vs.votes i = some w ∧ w.key = key

namespace VoteSet

variable {vs : VoteSet} {vote v : Vote} {bv : BlockVotes} {i : Nat}

theorem Consistent.new (slot : Slot) : (newVoteSet slot).Consistent where
  sound := .new slot
  bits _ := rfl
  sum := by simp [newVoteSet, holders]
  blockBits _ _ stored := by cases stored
  counted _ _ stored := by cases stored
  held _ _ reached := by cases reached

/-! ## Placing a vote -/

/-- The validator of the vote has a vote now. -/
theorem place_isSome : ((vs.place vote i).votes i).isSome := by
  unfold place
  split_ifs with free majority
  · dsimp only
    rw [update_self]
    rfl
  · dsimp only
    rw [update_self]
    rfl
  · exact isSome_iff_ne_none.mpr fun ha => free (ha ▸ rfl)

/-- A vote for the majority replaces the one that was held. -/
theorem place_majority (hma : vs.maj23Key = some vote.key) :
    (vs.place vote i).votes i = some vote := by
  unfold place
  split_ifs
  · exact update_self ..
  · exact update_self ..

theorem place_of_ne {j : Nat} (other : j ≠ i) : (vs.place vote i).votes j = vs.votes j := by
  unfold place
  split_ifs
  · exact update_of_ne other ..
  · exact update_of_ne other ..
  · rfl

theorem place_bits (hc : vs.Consistent) (j : Nat) :
    (vs.place vote i).votesBitArray j = ((vs.place vote i).votes j).isSome := by
  unfold place
  split_ifs
  · by_cases same : j = i
    · subst same
      simp
    · simp [same, hc.bits]
  · by_cases same : j = i
    · subst same
      simp
    · simp [same, hc.bits]
  · exact hc.bits j

theorem mem_holders {j : Nat} : j ∈ vs.holders ↔ j < vs.valSet.size ∧ (vs.votes j).isSome := by
  rw [holders, mem_filter, mem_range]

theorem holders_place (hca : vs.Casts i vote) :
    (vs.place vote i).holders = insert i vs.holders := by
  ext j
  have slot : (vs.place vote i).valSet = vs.valSet := congrArg Slot.valSet place_toSlot
  rw [mem_holders, mem_insert, mem_holders, slot]
  by_cases same : j = i
  · subst same
    simp [hca.lt_size, place_isSome]
  · rw [place_of_ne same]
    simp [same]

theorem place_sum (hc : vs.Consistent) (hca : vs.Casts i vote) :
    (vs.place vote i).sum = (vs.place vote i).holders.card := by
  rw [holders_place hca]
  by_cases free : (vs.votes i).isNone
  · have ha : i ∉ vs.holders := fun hm => by
      rw [mem_holders, isNone_iff_eq_none.mp free] at hm
      cases hm.2
    rw [card_insert_of_notMem ha, ← hc.sum, place, if_pos free]
  · have hpr : i ∈ vs.holders :=
      mem_holders.mpr ⟨hca.lt_size, isSome_iff_ne_none.mpr fun ha => free (ha ▸ rfl)⟩
    rw [insert_eq_of_mem hpr, ← hc.sum, place, if_neg free]
    split_ifs <;> rfl

theorem Consistent.place (hc : vs.Consistent) (hca : vs.Casts i vote) :
    (vs.place vote i).Consistent where
  sound := hc.sound.place hca
  bits := place_bits hc
  sum := place_sum hc hca
  blockBits key bv stored := hc.blockBits key bv (by simpa using stored)
  counted key bv stored j v recorded := by
    rw [place_votesByBlock] at stored
    by_cases same : j = i
    · exact same ▸ place_isSome
    · rw [place_of_ne same]
      exact hc.counted key bv stored j v recorded
  held key bv majority stored j v recorded := by
    rw [place_maj23Key] at majority
    rw [place_votesByBlock] at stored
    by_cases same : j = i
    · subst same
      -- the held vote was for the majority already, so it stays or is replaced by one for it
      obtain ⟨w, held, block⟩ := hc.held key bv majority stored j v recorded
      unfold VoteSet.place
      rw [if_neg (by rw [held]; simp)]
      split_ifs with replaced
      · exact ⟨vote, update_self .., some.inj (replaced.symm.trans majority)⟩
      · exact ⟨w, held, block⟩
    · rw [place_of_ne same]
      exact hc.held key bv majority stored j v recorded

/-! ## Counting a vote -/

theorem addVerifiedVote_bits (bits : ∀ j, bv.bitArray j = (bv.votes j).isSome) (j : Nat) :
    (bv.addVerifiedVote vote i).bitArray j = ((bv.addVerifiedVote vote i).votes j).isSome := by
  unfold BlockVotes.addVerifiedVote
  split
  · by_cases same : j = i
    · subst same
      simp
    · simp [same, bits]
  · exact bits j

/-- Copying the votes of a block over the held ones adds no holder. -/
theorem isSome_or_of_counted {record votes : Nat → Option Vote}
    (hco : ∀ j w, record j = some w → (votes j).isSome) (j : Nat) :
    ((record j).or (votes j)).isSome = (votes j).isSome := by
  cases found : record j with
  | none => rfl
  | some w =>
    rw [hco j w found]
    rfl

theorem Consistent.count (hc : vs.Consistent) (hca : vs.Casts i vote) (hpr : (vs.votes i).isSome)
    (hma : vs.maj23Key = some vote.key → ∃ w, vs.votes i = some w ∧ w.key = vote.key) :
    (vs.count (vs.block vote.key) vote i).Consistent := by
  have hso := hc.sound.count hca
  have grown := (hc.sound.block vote.key).addVerifiedVote hca
  have hco : ∀ j w, ((vs.block vote.key).addVerifiedVote vote i).votes j = some w →
      (vs.votes j).isSome := by
    intro j w held
    rcases BlockVotes.addVerifiedVote_votes held with old | ⟨rfl, rfl⟩
    · exact block_forall hc.counted vote.key (by nofun) j w old
    · exact hpr
  have bits (j : Nat) : ((vs.block vote.key).addVerifiedVote vote i).bitArray j = _ :=
    addVerifiedVote_bits (block_forall hc.blockBits vote.key fun _ => rfl) j
  have blockBits := update_forall (a := vote.key) hc.blockBits bits
  unfold VoteSet.count at hso ⊢
  dsimp only at hso ⊢
  split at hso
  · rename_i first
    rw [if_pos first]
    have some_iff := isSome_or_of_counted hco
    refine ⟨hso, fun j => ?_, ?_, blockBits, ?_, ?_⟩
    · exact (hc.bits j).trans (some_iff j).symm
    · rw [hc.sum, holders, holders]
      exact congrArg Finset.card (Finset.filter_congr fun j _ => by rw [some_iff])
    · simp only [some_iff]
      exact update_forall hc.counted hco
    · intro key new hr hs j w held
      cases hr
      dsimp only at hs
      rw [Function.update_self, Option.some.injEq] at hs
      subst hs
      have copied : (((vs.block vote.key).addVerifiedVote vote i).votes j).or
          (vs.votes j) = some w := by
        rw [held]
        rfl
      exact ⟨w, copied, (grown.casts j w held).2⟩
  · rename_i later
    rw [if_neg later]
    refine ⟨hso, hc.bits, hc.sum, blockBits,
      update_forall hc.counted hco, fun key new now hs => ?_⟩
    refine update_forall (P := fun key new => vs.maj23Key = some key → ∀ j w, new.votes j = some w →
      ∃ u, vs.votes j = some u ∧ u.key = key)
      (fun key old hs hr => hc.held key old hr hs)
      (fun hr j w held => ?_) key new hs now
    rcases BlockVotes.addVerifiedVote_votes held with old | ⟨rfl, rfl⟩
    · obtain ⟨bv, hs, _⟩ := hc.sound.majority _ hr
      rw [block, hs] at old
      exact hc.held _ bv hr hs j w old
    · exact hma hr

theorem Consistent.addVote (hc : vs.Consistent) (vote : Vote) :
    (vs.addVote vote).2.Consistent := by
  refine addVote_keeps vote hc hc.place fun hca => ?_
  rw [← block_place]
  refine (hc.place hca).count (by rwa [place_toSlot]) place_isSome fun hr => ?_
  rw [place_maj23Key] at hr
  exact ⟨vote, place_majority hr, rfl⟩

/-! ## The claims of peers -/

theorem Consistent.setPeerMaj23 (hc : vs.Consistent) (peerID : Bytes) (key : BlockKey) :
    (vs.setPeerMaj23 peerID key).Consistent := by
  have hso := hc.sound.setPeerMaj23 peerID key
  have fields : (vs.setPeerMaj23 peerID key).votesBitArray = vs.votesBitArray ∧
      (vs.setPeerMaj23 peerID key).sum = vs.sum := by
    unfold VoteSet.setPeerMaj23
    split_ifs <;> exact ⟨rfl, rfl⟩
  obtain ⟨bitArray, sum⟩ := fields
  have votes : (vs.setPeerMaj23 peerID key).votes = vs.votes := setPeerMaj23_votes peerID key
  refine ⟨hso, ?_, ?_, fun key' bv hs j => ?_, fun key' bv hs j w held => ?_,
    fun key' bv hr hs j w held => ?_⟩
  · rw [bitArray, votes]
    exact hc.bits
  · have slot : (vs.setPeerMaj23 peerID key).valSet = vs.valSet :=
      congrArg Slot.valSet (setPeerMaj23_toSlot peerID key)
    rw [sum, hc.sum, holders, holders, slot, votes]
  · rcases setPeerMaj23_votesByBlock hs with ⟨old, kept, bits, same, _⟩ | ⟨_, rfl⟩
    · rw [bits, same]
      exact hc.blockBits key' old kept j
    · rfl
  · rw [votes]
    rcases setPeerMaj23_votesByBlock hs with ⟨old, kept, _, same, _⟩ | ⟨_, rfl⟩
    · exact hc.counted key' old kept j w (same ▸ held)
    · cases held
  · rw [setPeerMaj23_maj23Key] at hr
    rw [votes]
    rcases setPeerMaj23_votesByBlock hs with ⟨old, kept, _, same, _⟩ | ⟨_, rfl⟩
    · exact hc.held key' old hr kept j w (same ▸ held)
    · cases held

/-! ## The first majority stays -/

theorem count_maj23Key {key : BlockKey} (hr : vs.maj23Key = some key) :
    (vs.count bv vote i).maj23Key = some key := by
  unfold count
  dsimp only
  split_ifs with first
  · rw [hr] at first
    cases first.2.2
  · exact hr

theorem addVote_maj23Key {key : BlockKey} (hr : vs.maj23Key = some key) (vote : Vote) :
    (vs.addVote vote).2.maj23Key = some key := by
  have placed : (vs.place vote vote.validatorIndex.toNat).maj23Key = some key := by
    rwa [place_maj23Key]
  exact addVote_keeps (P := fun m => m.maj23Key = some key) vote hr (fun _ => placed)
    fun _ => count_maj23Key placed

theorem addVote_maj23 {id : BlockID} (hr : vs.maj23 = some id) (vote : Vote) :
    (vs.addVote vote).2.maj23 = some id := by
  obtain ⟨key, hde, rfl⟩ := map_eq_some_iff.mp hr
  rw [maj23, addVote_maj23Key hde]
  rfl

/-- A vote can only give its own block a majority. -/
theorem maj23_of_addVote {id : BlockID} (hr : (vs.addVote vote).2.maj23 = some id) :
    vs.maj23 = some id ∨ id = vote.blockID := by
  revert hr
  refine addVote_keeps (P := fun m => m.maj23 = some id → _) vote .inl (fun _ => ?_) fun _ => ?_
  · rw [place_maj23]
    exact .inl
  · unfold maj23 count
    dsimp only
    split_ifs
    · exact fun own => .inr (some.inj own).symm
    · rw [place_maj23Key]
      exact .inl

/-! ## Votes without conflicts -/

/-- What `AddVote` leaves of a vote that is the first of its validator. -/
def taken (vs : VoteSet) (vote : Vote) : VoteSet :=
  (vs.place vote vote.validatorIndex.toNat).count (vs.block vote.key) vote vote.validatorIndex.toNat

theorem addVerifiedVote_free (free : vs.votes vote.validatorIndex.toNat = none) :
    vs.addVerifiedVote vote vote.validatorIndex.toNat = some ((true, none), vs.taken vote) := by
  have h1 : ¬ vs.Repeats vote vote.validatorIndex.toNat := by
    rw [Repeats, free]
    nofun
  unfold addVerifiedVote taken block
  rw [if_neg h1]
  dsimp only
  rw [place_votesByBlock, free]
  cases vs.votesByBlock vote.key with
  | none => rfl
  | some bv => rfl

theorem addVerifiedVote_conflict {old : Vote} {result : (Bool × Option Vote) × VoteSet}
    (held : vs.votes i = some old) (done : vs.addVerifiedVote vote i = some result) :
    result.1.2 = some old := by
  unfold addVerifiedVote at done
  dsimp only at done
  rw [held] at done
  split at done
  · cases done
  · split at done
    · split_ifs at done <;> exact some.inj done ▸ rfl
    · exact some.inj done ▸ rfl

/-- Where there is no conflict, a vote is refused or taken. -/
theorem addVote_peaceful (hpe : (vs.addVote vote).1.2 ≠ some .conflict) :
    (vs.addVote vote).2 = vs ∧ (vs.addVote vote).1.1 = false ∨
      vs.Casts vote.validatorIndex.toNat vote ∧ vs.votes vote.validatorIndex.toNat = none ∧
        (vs.addVote vote).2 = vs.taken vote ∧ (vs.addVote vote).1.1 = true := by
  rcases vs.addVote_cases vote with hun | ⟨hca, result, done, hae⟩
  · exact .inl hun
  · cases held : vs.votes vote.validatorIndex.toNat with
    | some old =>
      rw [hae, addVerifiedVote_conflict held done] at hpe
      exact absurd rfl hpe
    | none =>
      rw [addVerifiedVote_free held] at done
      rw [hae, ← some.inj done]
      exact .inr ⟨hca, rfl, rfl, rfl⟩

theorem addVote_of_free (hca : vs.Casts i vote) (free : vs.votes i = none)
    (hu : (vs.block vote.key).votes i = none) :
    vs.addVote vote = ((true, none), vs.taken vote) := by
  have index : vote.validatorIndex.toNat = i := by
    rw [hca.index]
    rfl
  have hf : vs.valSet.validators[i]?.map Validator.address = some vote.validatorAddress :=
    hca.address
  obtain ⟨val, hs, address⟩ := map_eq_some_iff.mp hf
  have getByIndex : vs.valSet.getByIndex vote.validatorIndex = some val := by
    rw [ValidatorSet.getByIndex, if_neg (by have := hca.index; omega), index, hs]
  have getVote : vs.getVote vote.validatorIndex.toNat vote.key = none := by
    unfold block at hu
    rw [index, VoteSet.getVote, free]
    cases known : vs.votesByBlock vote.key with
    | none => rfl
    | some bv =>
      rw [known] at hu
      exact hu
  rw [addVote, if_neg (by have := hca.index; omega), if_neg hca.named,
    if_neg (by simp [hca.height, hca.round, hca.type]), getByIndex]
  dsimp only
  rw [if_neg (not_not.mpr address.symm), getVote, if_neg (by simp),
    addVerifiedVote_free (index ▸ free)]

/-- A vote set that took these votes, no two of one validator. -/
structure Tallies (vs : VoteSet) (votes : List Vote) : Prop where
  sound : vs.Sound
  array : ∀ i v, vs.votes i = some v ↔ v ∈ votes ∧ v.validatorIndex = i
  record : ∀ key i, (vs.block key).votes i = (vs.votes i).filter fun v => decide (v.key = key)
  decided : 0 < vs.valSet.quorum → ∀ key, vs.valSet.quorum ≤ (vs.block key).sum →
    vs.maj23Key.isSome

theorem Tallies.new (slot : Slot) : (newVoteSet slot).Tallies [] where
  sound := .new slot
  array i v := by simp [newVoteSet]
  record key i := rfl
  decided positive key reached := absurd (positive.trans_le reached) (Int.lt_irrefl 0)

namespace Tallies

variable {votes : List Vote}

theorem unrecorded (hta : vs.Tallies votes) (free : vs.votes i = none) (key : BlockKey) :
    (vs.block key).votes i = none := by
  rw [hta.record, free]
  rfl

theorem addVote_eq (hta : vs.Tallies votes) (hca : vs.Casts i vote)
    (free : vs.votes i = none) : vs.addVote vote = ((true, none), vs.taken vote) :=
  addVote_of_free hca free (hta.unrecorded free vote.key)

theorem block_taken (hta : vs.Tallies votes)
    (free : vs.votes vote.validatorIndex.toNat = none) :
    (vs.taken vote).block = update vs.block vote.key { vs.block vote.key with
        bitArray := update (vs.block vote.key).bitArray vote.validatorIndex.toNat true
        votes := update (vs.block vote.key).votes vote.validatorIndex.toNat (some vote)
        sum := (vs.block vote.key).sum + 1 } := by
  have hco : (vs.block vote.key).addVerifiedVote vote vote.validatorIndex.toNat = _ :=
    if_pos (by rw [hta.unrecorded free]; rfl)
  funext key
  rw [VoteSet.taken, block_count, block_place, hco, update_apply]

/-- The vote is added to the array. Copying the votes of the first block with a quorum over it
changes nothing: they are there already. -/
theorem votes_taken (hta : vs.Tallies votes)
    (free : vs.votes vote.validatorIndex.toNat = none) :
    (vs.taken vote).votes = update vs.votes vote.validatorIndex.toNat (some vote) := by
  have placed : (vs.place vote vote.validatorIndex.toNat).votes =
      update vs.votes vote.validatorIndex.toNat (some vote) := by
    rw [place, if_pos (by rw [free]; rfl)]
  unfold VoteSet.taken count
  dsimp only
  split_ifs
  · funext j
    dsimp only
    rw [placed]
    cases hf : ((vs.block vote.key).addVerifiedVote vote vote.validatorIndex.toNat).votes j with
    | none => rfl
    | some w =>
      rcases BlockVotes.addVerifiedVote_votes hf with old | ⟨rfl, rfl⟩
      · rw [hta.record] at old
        have held := (filter_eq_some_iff.mp old).1
        rw [update_of_ne (fun same => by rw [same, free] at held; cases held), held]
        rfl
      · rw [update_self]
        rfl
  · exact placed

theorem array_taken (hta : vs.Tallies votes) (hca : vs.Casts vote.validatorIndex.toNat vote)
    (free : vs.votes vote.validatorIndex.toNat = none) (j : Nat) (v : Vote) :
    (vs.taken vote).votes j = some v ↔ v ∈ votes ++ [vote] ∧ v.validatorIndex = j := by
  rw [hta.votes_taken free]
  have index := hca.index
  by_cases same : j = vote.validatorIndex.toNat
  · rw [same, Function.update_self, ← index, Option.some.injEq]
    constructor
    · rintro rfl
      exact ⟨by simp, rfl⟩
    · rintro ⟨hm, hn⟩
      rcases List.mem_append.mp hm with old | new
      · have held := (hta.array _ v).mpr ⟨old, hn.trans index⟩
        rw [free] at held
        cases held
      · exact (List.mem_singleton.mp new).symm
  · rw [Function.update_of_ne same, hta.array, List.mem_append, List.mem_singleton]
    constructor
    · rintro ⟨hm, hn⟩
      exact ⟨.inl hm, hn⟩
    · rintro ⟨hm | rfl, hn⟩
      · exact ⟨hm, hn⟩
      · omega

theorem record_taken (hta : vs.Tallies votes)
    (free : vs.votes vote.validatorIndex.toNat = none) (key : BlockKey) (j : Nat) :
    ((vs.taken vote).block key).votes j =
      ((vs.taken vote).votes j).filter fun v => decide (v.key = key) := by
  rw [hta.votes_taken free, hta.block_taken free]
  by_cases block : key = vote.key
  · subst block
    rw [Function.update_self]
    by_cases same : j = vote.validatorIndex.toNat
    · subst same
      dsimp only
      rw [Function.update_self, Function.update_self, Option.filter_some, if_pos (by simp)]
    · simp only [Function.update_of_ne same]
      exact hta.record vote.key j
  · rw [Function.update_of_ne block, hta.record]
    by_cases same : j = vote.validatorIndex.toNat
    · subst same
      rw [free, Function.update_self, Option.filter_some, if_neg (by simpa using Ne.symm block)]
      rfl
    · rw [Function.update_of_ne same]

/-- The sum of one block grows by one: it crosses the quorum now, or had crossed it. -/
theorem decided_taken (hta : vs.Tallies votes)
    (free : vs.votes vote.validatorIndex.toNat = none) (hp : 0 < vs.valSet.quorum) (key : BlockKey)
    (hr : vs.valSet.quorum ≤ ((vs.taken vote).block key).sum) :
    (vs.taken vote).maj23Key.isSome := by
  rw [hta.block_taken free] at hr
  have placed : (vs.place vote vote.validatorIndex.toNat).valSet = vs.valSet :=
    congrArg Slot.valSet place_toSlot
  have hco : (vs.block vote.key).addVerifiedVote vote vote.validatorIndex.toNat = _ :=
    if_pos (by rw [hta.unrecorded free]; rfl)
  unfold VoteSet.taken count
  rw [placed, place_maj23Key, hco]
  dsimp only
  split_ifs with crosses
  · rfl
  · by_cases block : key = vote.key
    · subst block
      rw [Function.update_self] at hr
      by_cases below : ((vs.block vote.key).sum : Int) < vs.valSet.quorum
      · exact Option.isSome_iff_ne_none.mpr fun none => crosses ⟨below, hr, none⟩
      · exact hta.decided hp vote.key (Int.not_lt.mp below)
    · rw [Function.update_of_ne block] at hr
      exact hta.decided hp key hr

theorem taken (hta : vs.Tallies votes) (hca : vs.Casts vote.validatorIndex.toNat vote)
    (free : vs.votes vote.validatorIndex.toNat = none) :
    (vs.taken vote).Tallies (votes ++ [vote]) where
  sound := by
    have hso := hta.sound.addVote vote
    rwa [hta.addVote_eq hca free] at hso
  array := hta.array_taken hca free
  record := hta.record_taken free
  decided := by
    have slot : (vs.taken vote).toSlot = vs.toSlot := by
      rw [VoteSet.taken, count_toSlot, place_toSlot]
    rw [slot]
    exact hta.decided_taken free

/-- The validators with one of the votes for the block. -/
theorem voters_eq (hta : vs.Tallies votes) (key : BlockKey) :
    (vs.block key).holders vs.valSet.size = (Finset.range vs.valSet.size).filter fun i : Nat =>
      ∃ v ∈ votes, v.validatorIndex = i ∧ v.key = key := by
  refine Finset.filter_congr fun i _ => ?_
  rw [hta.record, Option.isSome_iff_exists]
  refine exists_congr fun v => ?_
  rw [Option.filter_eq_some_iff, hta.array, decide_eq_true_eq, and_assoc]

/-- The sum of a block counts the validators with a vote for it. -/
theorem sum_block (hta : vs.Tallies votes) (key : BlockKey) :
    (vs.block key).sum = ((vs.block key).holders vs.valSet.size).card :=
    (hta.sound.block key).sum

theorem quorum_of_majority (hta : vs.Tallies votes) {key : BlockKey}
    (hma : vs.maj23Key = some key) :
    vs.valSet.quorum ≤ ((vs.block key).holders vs.valSet.size).card := by
  obtain ⟨bv, hs, hq⟩ := hta.sound.majority key hma
  rw [← hta.sum_block, block, hs]
  exact hq

/-- With no more validators than power, two blocks cannot both have a quorum. -/
theorem majority_iff (hta : vs.Tallies votes) (hb : vs.valSet.Bounded)
    (powers : (vs.valSet.size : Int) ≤ vs.valSet.wholePower) (key : BlockKey) :
    vs.maj23Key = some key ↔ vs.valSet.quorum ≤ ((vs.block key).holders vs.valSet.size).card := by
  refine ⟨hta.quorum_of_majority, fun hr => ?_⟩
  have two := (hb.quorum_le_iff _).mp hr
  have hp : 0 < vs.valSet.quorum := by
    refine Int.not_le.mp fun none => ?_
    have := (hb.quorum_le_iff 0).mp none
    omega
  obtain ⟨first, hma⟩ :=
    isSome_iff_exists.mp (hta.decided hp key (by rwa [hta.sum_block]))
  have one := (hb.quorum_le_iff _).mp (hta.quorum_of_majority hma)
  by_contra other
  have hd : first ≠ key := by
    rintro rfl
    exact other hma
  have hap : Disjoint ((vs.block first).holders vs.valSet.size)
      ((vs.block key).holders vs.valSet.size) := by
    refine disjoint_filter.mpr fun i _ one two => ?_
    rw [hta.record, isSome_iff_exists] at one two
    obtain ⟨v, one⟩ := one
    obtain ⟨w, two⟩ := two
    rw [filter_eq_some_iff, decide_eq_true_eq] at one two
    have same := some.inj (one.1.symm.trans two.1)
    exact hd (one.2.symm.trans (same ▸ two.2))
  have bound : ((vs.block first).holders vs.valSet.size ∪
      (vs.block key).holders vs.valSet.size).card ≤ vs.valSet.size :=
    (card_le_card (union_subset (filter_subset ..) (filter_subset ..))).trans (card_range _).le
  rw [card_union_of_disjoint hap] at bound
  omega

end Tallies

/-! ### One vote after the other -/

def addAll (vs : VoteSet) (votes : List Vote) : VoteSet :=
  votes.foldl (fun vs vote => (vs.addVote vote).2) vs

/-- The votes that are added. -/
def added (vs : VoteSet) : List Vote → List Vote
  | [] => []
  | vote :: rest =>
    if (vs.addVote vote).1.1 then vote :: (vs.addVote vote).2.added rest
    else (vs.addVote vote).2.added rest

theorem added_subset {votes : List Vote} (hm : v ∈ vs.added votes) : v ∈ votes := by
  induction votes generalizing vs with
  | nil => exact hm
  | cons vote rest ih =>
    rw [added] at hm
    split at hm
    · rcases List.mem_cons.mp hm with rfl | hl
      · exact List.mem_cons_self
      · exact List.mem_cons_of_mem _ (ih hl)
    · exact List.mem_cons_of_mem _ (ih hm)

/-- No vote conflicts with one before it. -/
def Peaceful (vs : VoteSet) : List Vote → Prop
  | [] => True
  | vote :: rest => (vs.addVote vote).1.2 ≠ some .conflict ∧ (vs.addVote vote).2.Peaceful rest

/-- Every vote is added. -/
def Accepts (vs : VoteSet) : List Vote → Prop
  | [] => True
  | vote :: rest => (vs.addVote vote).1 = (true, none) ∧ (vs.addVote vote).2.Accepts rest

@[simp] theorem addAll_toSlot (vs : VoteSet) (votes : List Vote) :
    (vs.addAll votes).toSlot = vs.toSlot := by
  induction votes generalizing vs with
  | nil => rfl
  | cons vote rest ih => exact (ih _).trans (addVote_toSlot vs vote)

theorem Consistent.addAll (hc : vs.Consistent) (votes : List Vote) :
    (vs.addAll votes).Consistent := by
  induction votes generalizing vs with
  | nil => exact hc
  | cons vote rest ih => exact ih (hc.addVote vote)

theorem Tallies.addAll {before votes : List Vote} (hta : vs.Tallies before)
    (hpe : vs.Peaceful votes) : (vs.addAll votes).Tallies (before ++ vs.added votes) := by
  induction votes generalizing vs before with
  | nil => exact (List.append_nil before).symm ▸ hta
  | cons vote rest ih =>
    obtain ⟨calm, hpe⟩ := hpe
    rcases addVote_peaceful calm with ⟨same, hre⟩ | ⟨hca, free, next, hacc⟩
    · rw [same] at hpe
      rw [added, if_neg (by rw [hre]; decide)]
      show ((vs.addVote vote).2.addAll rest).Tallies _
      rw [same]
      exact ih hta hpe
    · rw [added, if_pos hacc]
      rw [next] at hpe
      show ((vs.addVote vote).2.addAll rest).Tallies _
      rw [next]
      simpa using ih (hta.taken hca free) hpe

theorem Accepts.peaceful {votes : List Vote} (hac : vs.Accepts votes) : vs.Peaceful votes := by
  induction votes generalizing vs with
  | nil => trivial
  | cons vote rest ih =>
    refine ⟨?_, ih hac.2⟩
    rw [hac.1]
    exact nofun

theorem Accepts.added {votes : List Vote} (hac : vs.Accepts votes) :
    vs.added votes = votes := by
  induction votes generalizing vs with
  | nil => rfl
  | cons vote rest ih => rw [VoteSet.added, if_pos (by rw [hac.1]), ih hac.2]

/-- Votes of different validators that have none yet are all added. -/
theorem Tallies.accepts {before votes : List Vote} (hta : vs.Tallies before)
    (hca : ∀ vote ∈ votes, vs.Casts vote.validatorIndex.toNat vote)
    (hd : (votes.map Vote.validatorIndex).Nodup)
    (free : ∀ vote ∈ votes, vs.votes vote.validatorIndex.toNat = none) : vs.Accepts votes := by
  induction votes generalizing vs before with
  | nil => trivial
  | cons vote rest ih =>
    have h1 := hca vote List.mem_cons_self
    have he := free vote List.mem_cons_self
    have ht := hta.addVote_eq h1 he
    refine ⟨by rw [ht], ?_⟩
    have slot : (vs.taken vote).toSlot = vs.toSlot := by
      rw [VoteSet.taken, count_toSlot, place_toSlot]
    rw [ht]
    refine ih (hta.taken h1 he) ?_ hd.of_cons ?_
    · intro other hm
      rw [slot]
      exact hca other (List.mem_cons_of_mem _ hm)
    · intro other hm
      have hap : other.validatorIndex ≠ vote.validatorIndex := fun same =>
        (List.nodup_cons.mp hd).1 (same ▸ List.mem_map_of_mem hm)
      have one := (hca other (List.mem_cons_of_mem _ hm)).index
      have two := h1.index
      rw [hta.votes_taken he, Function.update_of_ne (by omega)]
      exact free other (List.mem_cons_of_mem _ hm)

end VoteSet

/-- No other block comes to a majority by a vote. -/
theorem HeightVoteSet.majority_of_addVote {hvs : HeightVoteSet} {vote : Vote}
    {r : Int32} {t : VoteType} {id : BlockID} (hr : (hvs.addVote vote).2.majority r t = some id) :
    hvs.majority r t = some id ∨ id = vote.blockID := by
  rw [majority_eq] at hr ⊢
  rcases hvs.votesAt_addVote vote with same | hae
  · rw [same] at hr
    exact .inl hr
  · rw [hae] at hr
    exact VoteSet.maj23_of_addVote hr

end HNBChain.Audit.Source.Algorand
