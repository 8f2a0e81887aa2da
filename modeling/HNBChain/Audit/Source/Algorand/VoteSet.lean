import HNBChain.Audit.Source.Algorand.Block

/-!
# Vote sets

`VoteSet` collects the votes of one type for one round, `HeightVoteSet` those of all rounds of a
height. A vote counts one, whatever the power of its validator; the quorum is taken of the total
power, in int64. Votes are filed under the key of their block.

`HeightVoteSet` carries the facts that every later result about votes rests on: what is recorded
under an index was cast in the name of the validator with this index, at the height and round and of
the type of its set, and a majority is backed by a quorum of such votes.
-/
namespace HNBChain.Audit.Source.Algorand

open Lib Function Option

/-- The arrays are functions of the index; beyond the validators they hold nothing. -/
structure BlockVotes where
  peerMaj23 : Bool
  bitArray : Nat → Bool
  votes : Nat → Option Vote
  sum : Nat

def newBlockVotes (peerMaj23 : Bool) : BlockVotes := ⟨peerMaj23, fun _ => false, fun _ => none, 0⟩

def BlockVotes.addVerifiedVote (bv : BlockVotes) (vote : Vote) (valIndex : Nat) : BlockVotes :=
  if (bv.votes valIndex).isNone then
    { bv with
      bitArray := update bv.bitArray valIndex true
      votes := update bv.votes valIndex (some vote)
      sum := bv.sum + 1 }
  else bv

/-- What a vote set is for. -/
structure Slot where
  height : Nat
  round : Int32
  type : VoteType
  valSet : ValidatorSet

structure VoteSet extends Slot where
  votesBitArray : Nat → Bool
  votes : Nat → Option Vote
  sum : Nat
  /-- `maj23`, by its key. -/
  maj23Key : Option BlockKey
  votesByBlock : BlockKey → Option BlockVotes
  peerMaj23s : Bytes → Option BlockID

def newVoteSet (slot : Slot) : VoteSet where
  toSlot := slot
  votesBitArray := fun _ => false
  votes := fun _ => none
  sum := 0
  maj23Key := none
  votesByBlock := fun _ => none
  peerMaj23s := fun _ => none

inductive VoteErr where
  | unexpectedStep
  | invalidValidatorIndex
  | invalidValidatorAddress
  | nonDeterministicSignature
  | conflict
  | panic
  deriving DecidableEq

def ValidatorSet.quorum (vals : ValidatorSet) : Int :=
  (wrap64 (vals.totalVotingPower * 2)).tdiv 3 + 1

theorem ValidatorSet.Bounded.quorum_le_iff {vals : ValidatorSet}
    (hb : vals.Bounded) (n : Nat) : vals.quorum ≤ n ↔ 2 * vals.wholePower < 3 * n := by
  rw [← hb.threshold_lt]
  exact Int.add_one_le_iff

namespace VoteSet

variable (vs : VoteSet)

/-- The block that `TwoThirdsMajority` gives. -/
def maj23 : Option BlockID := vs.maj23Key.map BlockKey.id

def getVote (valIndex : Nat) (blockKey : BlockKey) : Option Vote :=
  match (vs.votes valIndex).filter (fun v => decide (v.key = blockKey)) with
  | some existing => some existing
  | none => (vs.votesByBlock blockKey).bind fun bv => bv.votes valIndex

/-- Counts the vote for its block, and takes the first block that reaches the quorum. -/
def count (bv : BlockVotes) (vote : Vote) (valIndex : Nat) : VoteSet :=
  let bv' := bv.addVerifiedVote vote valIndex
  let vs' := { vs with votesByBlock := update vs.votesByBlock vote.key (some bv') }
  if (bv.sum : Int) < vs.valSet.quorum ∧ vs.valSet.quorum ≤ bv'.sum ∧ vs.maj23Key = none then
    { vs' with
      maj23Key := some vote.key
      votes := fun i => (bv'.votes i).or (vs.votes i) }
  else vs'

/-- The vote goes in the array if it is the validator's first, or for the block with the
majority. -/
def place (vote : Vote) (valIndex : Nat) : VoteSet :=
  if (vs.votes valIndex).isNone then
    { vs with
      votes := update vs.votes valIndex (some vote)
      votesBitArray := update vs.votesBitArray valIndex true
      sum := vs.sum + 1 }
  else if vs.maj23Key = some vote.key then
    { vs with
      votes := update vs.votes valIndex (some vote)
      votesBitArray := update vs.votesBitArray valIndex true }
  else vs

/-- The vote of the validator that is held is for the same block. -/
def Repeats (vote : Vote) (valIndex : Nat) : Prop :=
  (vs.votes valIndex).map Vote.blockID = some vote.blockID

instance (vote : Vote) (valIndex : Nat) : Decidable (vs.Repeats vote valIndex) :=
  inferInstanceAs (Decidable (_ = _))

/-- Whether the vote was added, and the vote it conflicts with. A held vote for the same block under
another key is a panic. -/
def addVerifiedVote (vote : Vote) (valIndex : Nat) : Option ((Bool × Option Vote) × VoteSet) :=
  if vs.Repeats vote valIndex then none
  else
    let conflicting := vs.votes valIndex
    let vs' := vs.place vote valIndex
    match vs'.votesByBlock vote.key with
    | some bv =>
      if conflicting.isSome ∧ ¬ bv.peerMaj23 then some ((false, conflicting), vs')
      else some ((true, conflicting), vs'.count bv vote valIndex)
    | none =>
      if conflicting.isSome then some ((false, conflicting), vs')
      else some ((true, conflicting), vs'.count (newBlockVotes false) vote valIndex)

/-- No signature is checked: that code is commented out. -/
def addVote (vote : Vote) : (Bool × Option VoteErr) × VoteSet :=
  if vote.validatorIndex < 0 then ((false, some .invalidValidatorIndex), vs)
  else if vote.validatorAddress = [] then ((false, some .invalidValidatorAddress), vs)
  else if vote.height ≠ vs.height ∨ vote.round ≠ vs.round ∨ vote.type ≠ vs.type then
    ((false, some .unexpectedStep), vs)
  else
    match vs.valSet.getByIndex vote.validatorIndex with
    | none => ((false, some .invalidValidatorIndex), vs)
    | some val =>
      if vote.validatorAddress ≠ val.address then ((false, some .invalidValidatorAddress), vs)
      else if (vs.getVote vote.validatorIndex.toNat vote.key).isSome then
        ((false, some .nonDeterministicSignature), vs)
      else
        match vs.addVerifiedVote vote vote.validatorIndex.toNat with
        | none => ((false, some .panic), vs)
        | some ((added, some _), vs') => ((added, some .conflict), vs')
        | some ((added, none), vs') => ((added, none), vs')

/-- A second, different claim of the same peer is refused. -/
def setPeerMaj23 (peerID : Bytes) (blockKey : BlockKey) : VoteSet :=
  if (vs.peerMaj23s peerID).isSome then vs
  else
    { vs with
      peerMaj23s := update vs.peerMaj23s peerID (some blockKey.id)
      votesByBlock := update vs.votesByBlock blockKey
        (some { (vs.votesByBlock blockKey).getD (newBlockVotes true) with peerMaj23 := true }) }

def hasTwoThirdsAny : Bool :=
  decide ((vs.sum : Int) > (wrap64 (vs.valSet.totalVotingPower * 2)).tdiv 3)

def hasHalfAny : Bool := decide ((vs.sum : Int) > (vs.valSet.totalVotingPower * 1).tdiv 3)

def hasAll : Bool := decide ((vs.sum : Int) = vs.valSet.totalVotingPower)

/-- The precommits of the array, by index. Without a majority `MakeCommit` panics. -/
def makeCommit : Option Commit :=
  if vs.type ≠ .precommit then none
  else vs.maj23.map fun id => ⟨id, (List.range vs.valSet.size).map vs.votes⟩

/-! ## What a vote set holds -/

/-- The votes of a block, none if there is no record of it. -/
def block (key : BlockKey) : BlockVotes := (vs.votesByBlock key).getD (newBlockVotes false)

/-- The vote is in the array, or among those counted for its block. -/
def Recorded (i : Nat) (v : Vote) : Prop :=
  vs.votes i = some v ∨ ∃ bv, vs.votesByBlock v.key = some bv ∧ bv.votes i = some v

variable {vs} in
theorem recorded_iff_block {i : Nat} {v : Vote} :
    vs.Recorded i v ↔ vs.votes i = some v ∨ (vs.block v.key).votes i = some v := by
  unfold Recorded block
  cases vs.votesByBlock v.key with
  | none => simp [newBlockVotes]
  | some bv => simp

end VoteSet

/-- The vote names the validator at index `i`, and the height, round and type of the slot. -/
structure Slot.Casts (slot : Slot) (i : Nat) (v : Vote) : Prop where
  index : v.validatorIndex = i
  height : v.height = slot.height
  round : v.round = slot.round
  type : v.type = slot.type
  named : v.validatorAddress ≠ []
  address : slot.valSet.validators[i]?.map Validator.address = some v.validatorAddress

theorem Slot.Casts.lt_size {slot : Slot} {i : Nat} {v : Vote} (hc : slot.Casts i v) :
    i < slot.valSet.size := by
  have hf := hc.address
  by_contra outside
  rw [List.getElem?_eq_none (Nat.le_of_not_lt outside)] at hf
  cases hf

/-- The indices under which a block has votes. -/
def BlockVotes.holders (bv : BlockVotes) (n : Nat) : Finset Nat :=
  (Finset.range n).filter fun i => (bv.votes i).isSome

/-- The votes of one block are cast for the slot, are for this block, and are counted. -/
structure BlockVotes.Sound (bv : BlockVotes) (slot : Slot) (key : BlockKey) : Prop where
  casts : ∀ i v, bv.votes i = some v → slot.Casts i v ∧ v.key = key
  sum : bv.sum = (bv.holders slot.valSet.size).card

structure VoteSet.Sound (vs : VoteSet) : Prop where
  votes : ∀ i v, vs.votes i = some v → vs.Casts i v
  votesByBlock : ∀ key bv, vs.votesByBlock key = some bv → bv.Sound vs.toSlot key
  majority : ∀ key, vs.maj23Key = some key →
    ∃ bv, vs.votesByBlock key = some bv ∧ vs.valSet.quorum ≤ bv.sum

/-! ## Adding a vote keeps a vote set sound -/

/-- What holds of the entries of a table and of a new one holds of the table with it. -/
theorem update_forall {α β : Type} [DecidableEq α] {P : α → β → Prop} {table : α → Option β}
    {a : α} {b : β} (ho : ∀ x y, table x = some y → P x y) (this : P a b) (x : α) (y : β)
    (hst : update table a (some b) x = some y) : P x y := by
  by_cases same : x = a
  · subst same
    rw [update_self, some.injEq] at hst
    exact hst ▸ this
  · rw [update_of_ne same] at hst
    exact ho x y hst

/-- What an array holds after one of its cells is set. -/
theorem update_some {votes : Nat → Option Vote} {vote v : Vote} {i j : Nat}
    (held : update votes i (some vote) j = some v) : votes j = some v ∨ v = vote ∧ j = i :=
  update_forall (P := fun j v => votes j = some v ∨ v = vote ∧ j = i) (fun _ _ => .inl)
    (.inr ⟨rfl, rfl⟩) j v held

namespace BlockVotes

variable {bv : BlockVotes} {vote v : Vote} {i j : Nat}

theorem addVerifiedVote_votes (held : (bv.addVerifiedVote vote i).votes j = some v) :
    bv.votes j = some v ∨ v = vote ∧ j = i := by
  unfold addVerifiedVote at held
  split at held
  · exact update_some held
  · exact .inl held

theorem Sound.new {slot : Slot} {key : BlockKey} (peerMaj23 : Bool) :
    (newBlockVotes peerMaj23).Sound slot key where
  casts i v held := by cases held
  sum := by simp [newBlockVotes, holders]

theorem Sound.addVerifiedVote {slot : Slot} (hs : bv.Sound slot vote.key)
    (hc : slot.Casts i vote) : (bv.addVerifiedVote vote i).Sound slot vote.key where
  casts j v held := by
    rcases addVerifiedVote_votes held with old | ⟨rfl, rfl⟩
    · exact hs.casts j v old
    · exact ⟨hc, rfl⟩
  sum := by
    unfold BlockVotes.addVerifiedVote
    split
    · rename_i free
      -- the index is new, so the holders grow by it
      have grown : ({ bv with
          bitArray := update bv.bitArray i true
          votes := update bv.votes i (some vote)
          sum := bv.sum + 1 } : BlockVotes).holders slot.valSet.size =
            insert i (bv.holders slot.valSet.size) := by
        ext j
        simp only [holders, Finset.mem_filter, Finset.mem_range, Finset.mem_insert]
        by_cases same : j = i
        · subst same
          simp [hc.lt_size]
        · simp [same]
      have hfr : i ∉ bv.holders slot.valSet.size := by
        simp only [holders, Finset.mem_filter, not_and]
        intro _
        simpa using free
      rw [grown, Finset.card_insert_of_notMem hfr, ← hs.sum]
    · exact hs.sum

end BlockVotes

namespace VoteSet

variable {vs : VoteSet} {vote v : Vote} {i j : Nat}

@[simp] theorem place_toSlot : (vs.place vote i).toSlot = vs.toSlot := by
  unfold place
  split_ifs <;> rfl

@[simp] theorem place_maj23Key : (vs.place vote i).maj23Key = vs.maj23Key := by
  unfold place
  split_ifs <;> rfl

theorem place_maj23 : (vs.place vote i).maj23 = vs.maj23 := by
  rw [maj23, place_maj23Key, maj23]

@[simp] theorem place_votesByBlock : (vs.place vote i).votesByBlock = vs.votesByBlock := by
  unfold place
  split_ifs <;> rfl

theorem block_place {key : BlockKey} : (vs.place vote i).block key = vs.block key := by
  unfold block
  rw [place_votesByBlock]

theorem place_votes (held : (vs.place vote i).votes j = some v) : vs.votes j = some v ∨
    v = vote ∧ j = i := by
  unfold place at held
  split_ifs at held
  · exact update_some held
  · exact update_some held
  · exact .inl held

theorem Sound.place (hs : vs.Sound) (hc : vs.Casts i vote) : (vs.place vote i).Sound where
  votes j v held := by
    rw [place_toSlot]
    rcases place_votes held with old | ⟨rfl, rfl⟩
    · exact hs.votes j v old
    · exact hc
  votesByBlock id bv stored := by
    rw [place_toSlot]
    exact hs.votesByBlock id bv (by simpa using stored)
  majority id reached := by
    simp only [place_toSlot, place_votesByBlock]
    exact hs.majority id (by simpa using reached)

variable {bv : BlockVotes}

@[simp] theorem count_toSlot : (vs.count bv vote i).toSlot = vs.toSlot := by
  unfold count
  dsimp only
  split_ifs <;> rfl

/-- What holds of the votes of every block on record holds of those of any block, if it does of
none. -/
theorem block_forall {P : BlockKey → BlockVotes → Prop}
    (hst : ∀ key bv, vs.votesByBlock key = some bv → P key bv) (key : BlockKey)
    (he : P key (newBlockVotes false)) : P key (vs.block key) := by
  unfold block
  cases found : vs.votesByBlock key with
  | none => exact he
  | some bv => exact hst key bv found

theorem Sound.block (hs : vs.Sound) (key : BlockKey) : (vs.block key).Sound vs.toSlot key :=
  block_forall hs.votesByBlock key (.new false)

theorem Sound.count (hs : vs.Sound) (hc : vs.Casts i vote) :
    (vs.count (vs.block vote.key) vote i).Sound := by
  have grown := (hs.block vote.key).addVerifiedVote hc
  have byBlock := update_forall hs.votesByBlock grown
  unfold VoteSet.count
  dsimp only
  split
  · rename_i first
    refine ⟨?_, byBlock, ?_⟩
    · intro j v held
      rcases or_eq_some_iff.mp held with copied | ⟨_, old⟩
      · exact (grown.casts j v copied).1
      · exact hs.votes j v old
    · intro key hr
      cases hr
      exact ⟨_, update_self .., first.2.1⟩
  · refine ⟨hs.votes, byBlock, ?_⟩
    intro key hr
    obtain ⟨old, hst, hq⟩ := hs.majority key hr
    by_cases same : key = vote.key
    · subst same
      -- the sum of a block never shrinks
      refine ⟨_, update_self .., hq.trans ?_⟩
      rw [VoteSet.block, hst]
      unfold BlockVotes.addVerifiedVote
      split <;> simp
    · exact ⟨old, (update_of_ne same ..).trans hst, hq⟩

theorem block_count {key : BlockKey} : (vs.count bv vote i).block key =
    if key = vote.key then bv.addVerifiedVote vote i else vs.block key := by
  have table : (vs.count bv vote i).votesByBlock =
      update vs.votesByBlock vote.key (some (bv.addVerifiedVote vote i)) := by
    unfold count
    dsimp only
    split_ifs <;> rfl
  unfold block
  rw [table]
  split
  next same =>
    rw [same, update_self]
    rfl
  next other => rw [update_of_ne other]

/-- Every vote recorded after a vote was counted had been recorded or is the one counted. -/
theorem count_recorded (hs : vs.Sound) (held : (vs.count (vs.block vote.key) vote i).Recorded j v) :
    vs.Recorded j v ∨ v = vote ∧ j = i := by
  have inBlock (held : ((vs.block vote.key).addVerifiedVote vote i).votes j = some v) :
      vs.Recorded j v ∨ v = vote ∧ j = i := by
    refine (BlockVotes.addVerifiedVote_votes held).imp_left fun old =>
      recorded_iff_block.mpr (.inr ?_)
    rw [((hs.block vote.key).casts j v old).2]
    exact old
  rw [recorded_iff_block, block_count] at held
  rcases held with array | block
  · unfold count at array
    dsimp only at array
    split at array
    · rcases or_eq_some_iff.mp array with copied | ⟨_, old⟩
      · exact inBlock copied
      · exact .inl (.inl old)
    · exact .inl (.inl array)
  · split at block
    · exact inBlock block
    · exact .inl (recorded_iff_block.mpr (.inr block))

theorem place_recorded (held : (vs.place vote i).Recorded j v) : vs.Recorded j v ∨
    v = vote ∧ j = i := by
  rcases held with array | block
  · exact (place_votes array).imp_left .inl
  · exact .inl (.inr (by simpa using block))

/-- The course of `addVerifiedVote`: the vote is placed, and counted for its block or left at
that. -/
theorem addVerifiedVote_cases {result : (Bool × Option Vote) × VoteSet}
    (done : vs.addVerifiedVote vote i = some result) :
    result.2 = vs.place vote i ∨ result.2 = (vs.place vote i).count (vs.block vote.key) vote i := by
  unfold addVerifiedVote at done
  unfold block
  dsimp only at done
  rw [place_votesByBlock] at done
  cases stored : vs.votesByBlock vote.key with
  | some bv =>
    simp only [stored] at done
    split_ifs at done
    · exact .inl (some.inj done ▸ rfl)
    · exact .inr (some.inj done ▸ rfl)
  | none =>
    simp only [stored] at done
    split_ifs at done
    · exact .inl (some.inj done ▸ rfl)
    · exact .inr (some.inj done ▸ rfl)

/-- A vote either leaves the set as it is or passes the checks. -/
theorem addVote_cases (vs : VoteSet) (vote : Vote) :
    (vs.addVote vote).2 = vs ∧ (vs.addVote vote).1.1 = false ∨
      vs.Casts vote.validatorIndex.toNat vote ∧
        ∃ result, vs.addVerifiedVote vote vote.validatorIndex.toNat = some result ∧
          vs.addVote vote = ((result.1.1, result.1.2.map fun _ => .conflict), result.2) := by
  unfold addVote
  split
  · exact .inl ⟨rfl, rfl⟩
  · rename_i index
    split
    · exact .inl ⟨rfl, rfl⟩
    · rename_i named
      split
      · exact .inl ⟨rfl, rfl⟩
      · rename_i step
        simp only [not_or, not_not] at step
        cases found : vs.valSet.getByIndex vote.validatorIndex with
        | none => exact .inl ⟨rfl, rfl⟩
        | some val =>
          dsimp only
          split
          · exact .inl ⟨rfl, rfl⟩
          · rename_i address
            split
            · exact .inl ⟨rfl, rfl⟩
            · rw [ValidatorSet.getByIndex, if_neg index] at found
              have hc : vs.Casts vote.validatorIndex.toNat vote := by
                refine ⟨by omega, step.1, step.2.1, step.2.2, named, ?_⟩
                rw [found, map_some, not_not.mp address]
              rcases vs.addVerifiedVote vote vote.validatorIndex.toNat with _ | ⟨⟨_, _ | _⟩, _⟩
              · exact .inl ⟨rfl, rfl⟩
              · exact .inr ⟨hc, _, rfl, rfl⟩
              · exact .inr ⟨hc, _, rfl, rfl⟩

/-- What the set has, and has with the vote placed, and counted after that, it has after
`addVote`. -/
theorem addVote_keeps {P : VoteSet → Prop} (vote : Vote) (hre : P vs)
    (placed : vs.Casts vote.validatorIndex.toNat vote → P (vs.place vote vote.validatorIndex.toNat))
    (hco : vs.Casts vote.validatorIndex.toNat vote →
      P ((vs.place vote vote.validatorIndex.toNat).count (vs.block vote.key) vote
        vote.validatorIndex.toNat)) : P (vs.addVote vote).2 := by
  rcases vs.addVote_cases vote with ⟨same, _⟩ | ⟨hc, result, done, ha⟩
  · rwa [same]
  · rw [ha]
    rcases addVerifiedVote_cases done with eq | eq
    · rw [eq]
      exact placed hc
    · rw [eq]
      exact hco hc

@[simp] theorem addVote_toSlot (vs : VoteSet) (vote : Vote) :
    (vs.addVote vote).2.toSlot = vs.toSlot := by
  refine addVote_keeps (P := fun m => m.toSlot = vs.toSlot) vote rfl
    (fun _ => place_toSlot) fun _ => ?_
  rw [count_toSlot, place_toSlot]

theorem Sound.new (slot : Slot) : (newVoteSet slot).Sound where
  votes i v held := by cases held
  votesByBlock id bv stored := by cases stored
  majority id reached := by cases reached

theorem Sound.addVote (hs : vs.Sound) (vote : Vote) : (vs.addVote vote).2.Sound := by
  refine addVote_keeps vote hs hs.place fun hc => ?_
  rw [← block_place]
  exact (hs.place hc).count (by rwa [place_toSlot])

/-- A vote is recorded under the index it names, and nothing else is. -/
theorem addVote_recorded (hs : vs.Sound) (held : (vs.addVote vote).2.Recorded j v) :
    vs.Recorded j v ∨ v = vote ∧ vote.validatorIndex = j := by
  have named (hc : vs.Casts vote.validatorIndex.toNat vote)
    (own : v = vote ∧ j = vote.validatorIndex.toNat) :
      v = vote ∧ vote.validatorIndex = j := ⟨own.1, own.2 ▸ hc.index⟩
  revert held
  refine addVote_keeps (P := fun m => m.Recorded j v → _) vote .inl ?_ ?_
  · exact fun hc held => (place_recorded held).imp_right (named hc)
  · intro hc held
    rw [← block_place] at held
    rcases count_recorded (hs.place hc) held with old | own
    · exact (place_recorded old).imp_right (named hc)
    · exact .inr (named hc own)

variable (peerID : Bytes)

@[simp] theorem setPeerMaj23_toSlot (key : BlockKey) :
    (vs.setPeerMaj23 peerID key).toSlot = vs.toSlot := by
  unfold setPeerMaj23
  split_ifs <;> rfl

@[simp] theorem setPeerMaj23_maj23Key (key : BlockKey) :
    (vs.setPeerMaj23 peerID key).maj23Key = vs.maj23Key := by
  unfold setPeerMaj23
  split_ifs <;> rfl

theorem setPeerMaj23_maj23 (key : BlockKey) : (vs.setPeerMaj23 peerID key).maj23 = vs.maj23 := by
  rw [maj23, setPeerMaj23_maj23Key, maj23]

/-- The claim of a peer changes a flag of the block's votes, or starts them empty. -/
theorem setPeerMaj23_votesByBlock {peerID : Bytes} {id id' : BlockKey}
    (hst : (vs.setPeerMaj23 peerID id).votesByBlock id' = some bv) :
    (∃ old, vs.votesByBlock id' = some old ∧ bv.bitArray = old.bitArray ∧ bv.votes = old.votes ∧
        bv.sum = old.sum) ∨ vs.votesByBlock id' = none ∧ bv = newBlockVotes true := by
  unfold setPeerMaj23 at hst
  split at hst
  · exact .inl ⟨bv, hst, rfl, rfl, rfl⟩
  · dsimp only at hst
    by_cases same : id' = id
    · subst same
      rw [update_self, some.injEq] at hst
      subst hst
      cases vs.votesByBlock id' with
      | none => exact .inr ⟨rfl, rfl⟩
      | some old => exact .inl ⟨old, rfl, rfl, rfl, rfl⟩
    · rw [update_of_ne same] at hst
      exact .inl ⟨bv, hst, rfl, rfl, rfl⟩

theorem setPeerMaj23_votes (id : BlockKey) : (vs.setPeerMaj23 peerID id).votes = vs.votes := by
  unfold setPeerMaj23
  split_ifs <;> rfl

theorem setPeerMaj23_recorded {peerID : Bytes} {id : BlockKey}
    (held : (vs.setPeerMaj23 peerID id).Recorded j v) : vs.Recorded j v := by
  rcases held with array | ⟨bv, hst, held⟩
  · exact .inl (setPeerMaj23_votes peerID id ▸ array)
  · rcases setPeerMaj23_votesByBlock hst with ⟨old, kept, _, votes, _⟩ | ⟨_, rfl⟩
    · exact .inr ⟨old, kept, votes ▸ held⟩
    · cases held

theorem Sound.setPeerMaj23 (hs : vs.Sound) (peerID : Bytes) (id : BlockKey) :
    (vs.setPeerMaj23 peerID id).Sound where
  votes j v held := by
    rw [setPeerMaj23_toSlot]
    exact hs.votes j v (setPeerMaj23_votes peerID id ▸ held)
  votesByBlock id' bv hst := by
    rw [setPeerMaj23_toSlot]
    rcases setPeerMaj23_votesByBlock hst with ⟨old, kept, _, votes, sum⟩ | ⟨_, rfl⟩
    · have hco := hs.votesByBlock id' old kept
      exact ⟨votes ▸ hco.casts,
        by rw [sum, hco.sum, BlockVotes.holders, BlockVotes.holders, votes]⟩
    · exact .new true
  majority id' reached := by
    rw [setPeerMaj23_maj23Key] at reached
    obtain ⟨old, kept, hq⟩ := hs.majority id' reached
    rw [setPeerMaj23_toSlot]
    unfold VoteSet.setPeerMaj23
    split
    · exact ⟨old, kept, hq⟩
    · by_cases same : id' = id
      · subst same
        exact ⟨_, update_self .., by rw [kept]; exact hq⟩
      · exact ⟨old, (update_of_ne same ..).trans kept, hq⟩

/-- A majority is a quorum of validators with a recorded vote for the block. -/
theorem Sound.voters (hs : vs.Sound) {id : BlockID} (hr : vs.maj23 = some id) :
    ∃ voters : Finset Nat, vs.valSet.quorum ≤ voters.card ∧
      ∀ i ∈ voters, ∃ v, vs.Recorded i v ∧ vs.Casts i v ∧ v.blockID = id := by
  obtain ⟨key, hd, rfl⟩ := map_eq_some_iff.mp hr
  obtain ⟨bv, hst, hq⟩ := hs.majority key hd
  have hco := hs.votesByBlock key bv hst
  refine ⟨bv.holders vs.valSet.size, hco.sum ▸ hq, fun i hm => ?_⟩
  obtain ⟨v, held⟩ := isSome_iff_exists.mp (Finset.mem_filter.mp hm).2
  obtain ⟨hc, block⟩ := hco.casts i v held
  exact ⟨v, .inr ⟨bv, block ▸ hst, held⟩, hc, Vote.blockID_of_key block⟩

theorem Sound.recorded_casts (hs : vs.Sound) (held : vs.Recorded j v) : vs.Casts j v := by
  rcases held with array | ⟨bv, hst, held⟩
  · exact hs.votes j v array
  · exact ((hs.votesByBlock _ bv hst).casts j v held).1

theorem not_recorded_new (slot : Slot) : ¬ (newVoteSet slot).Recorded j v := by
  rintro (array | ⟨bv, hst, _⟩)
  · cases array
  · cases hst

end VoteSet

/-! ## The votes of a height -/

structure RoundVoteSet where
  prevotes : VoteSet
  precommits : VoteSet

structure RoundVoteSet.Sound (rvs : RoundVoteSet) (height : Nat) (round : Int32)
    (valSet : ValidatorSet) : Prop where
  prevotes_slot : rvs.prevotes.toSlot = ⟨height, round, .prevote, valSet⟩
  precommits_slot : rvs.precommits.toSlot = ⟨height, round, .precommit, valSet⟩
  prevotes : rvs.prevotes.Sound
  precommits : rvs.precommits.Sound

def newRoundVoteSet (height : Nat) (round : Int32) (valSet : ValidatorSet) : RoundVoteSet :=
  ⟨newVoteSet ⟨height, round, .prevote, valSet⟩, newVoteSet ⟨height, round, .precommit, valSet⟩⟩

theorem RoundVoteSet.Sound.new (height : Nat) (round : Int32) (valSet : ValidatorSet) :
    (newRoundVoteSet height round valSet).Sound height round valSet :=
  ⟨rfl, rfl, .new _, .new _⟩

namespace RoundVoteSet

def get (rvs : RoundVoteSet) : VoteType → Option VoteSet
  | .prevote => some rvs.prevotes
  | .precommit => some rvs.precommits
  | .unknown => none

/-- Replaces the set of the given type. -/
def set (rvs : RoundVoteSet) (vs : VoteSet) : VoteType → RoundVoteSet
  | .prevote => { rvs with prevotes := vs }
  | .precommit => { rvs with precommits := vs }
  | .unknown => rvs

variable {rvs : RoundVoteSet} {height : Nat} {round : Int32} {valSet : ValidatorSet}
  {type : VoteType} {vs vs' : VoteSet}

theorem Sound.get (hs : rvs.Sound height round valSet) (hf : rvs.get type = some vs) :
    vs.toSlot = ⟨height, round, type, valSet⟩ ∧ vs.Sound := by
  cases type with
  | prevote => cases hf; exact ⟨hs.prevotes_slot, hs.prevotes⟩
  | precommit => cases hf; exact ⟨hs.precommits_slot, hs.precommits⟩
  | unknown => cases hf

theorem Sound.set (hs : rvs.Sound height round valSet)
    (slot : vs.toSlot = ⟨height, round, type, valSet⟩) (held : vs.Sound) :
    (rvs.set vs type).Sound height round valSet := by
  cases type with
  | prevote => exact ⟨slot, hs.precommits_slot, held, hs.precommits⟩
  | precommit => exact ⟨hs.prevotes_slot, slot, hs.prevotes, held⟩
  | unknown => exact hs

theorem get_set (hf : rvs.get type = some vs) (type' : VoteType) :
    (rvs.set vs' type).get type' = if type' = type then some vs' else rvs.get type' := by
  cases type <;> cases type' <;> first | rfl | cases hf

end RoundVoteSet

/-- The catchup rounds that are kept per peer are never read and left out. -/
structure HeightVoteSet where
  height : Nat
  valSet : ValidatorSet
  round : Int32
  roundVoteSets : Int32 → Option RoundVoteSet
  sound : ∀ r rvs, roundVoteSets r = some rvs → rvs.Sound height r valSet

namespace HeightVoteSet

def getVoteSet (hvs : HeightVoteSet) (round : Int32) (type : VoteType) : Option VoteSet :=
  (hvs.roundVoteSets round).bind fun rvs => rvs.get type

def prevotes (hvs : HeightVoteSet) (round : Int32) : Option VoteSet := hvs.getVoteSet round .prevote

def precommits (hvs : HeightVoteSet) (round : Int32) : Option VoteSet :=
  hvs.getVoteSet round .precommit

/-- `TwoThirdsMajority` of a vote set that may be missing. -/
def majority (hvs : HeightVoteSet) (round : Int32) (type : VoteType) : Option BlockID :=
  (hvs.getVoteSet round type).bind VoteSet.maj23

def Recorded (hvs : HeightVoteSet) (round : Int32) (type : VoteType) (i : Nat) (v : Vote) : Prop :=
  ∃ vs, hvs.getVoteSet round type = some vs ∧ vs.Recorded i v

/-- `addRound 0` on an empty map. -/
def new (height : Nat) (valSet : ValidatorSet) : HeightVoteSet where
  height := height
  valSet := valSet
  round := 0
  roundVoteSets := fun r => if r = 0 then some (newRoundVoteSet height 0 valSet) else none
  sound r rvs found := by
    split at found
    · rename_i zero
      cases found
      exact zero ▸ .new height 0 valSet
    · cases found

/-- The loop adds vote sets for the missing rounds from `hvs.round + 1` to `round`, here for all of
them at once. It does not end for the largest round (`SetRoundHangs`), and the memory for the sets
of many rounds is taken to be there. -/
def setRound (hvs : HeightVoteSet) (round : Int32) : HeightVoteSet where
  height := hvs.height
  valSet := hvs.valSet
  round := round
  roundVoteSets := fun r =>
    match hvs.roundVoteSets r with
    | some rvs => some rvs
    | none => if hvs.round + 1 ≤ r ∧ r ≤ round then some (newRoundVoteSet hvs.height r hvs.valSet)
      else none
  sound r rvs found := by
    cases stored : hvs.roundVoteSets r with
    | some old =>
      rw [stored] at found
      cases found
      exact hvs.sound r _ stored
    | none =>
      simp only [stored] at found
      split at found
      · cases found
        exact .new hvs.height r hvs.valSet
      · cases found

/-- `r <= round` holds for every int32 `r`. -/
def SetRoundHangs (round : Int32) : Prop := round = Int32.maxValue

instance (round : Int32) : Decidable (SetRoundHangs round) := inferInstanceAs (Decidable (_ = _))

/-- The sets of a round, new ones if there are none. -/
def roundOrNew (hvs : HeightVoteSet) (round : Int32) : RoundVoteSet :=
  (hvs.roundVoteSets round).getD (newRoundVoteSet hvs.height round hvs.valSet)

theorem roundOrNew_sound (hvs : HeightVoteSet) (round : Int32) :
    (hvs.roundOrNew round).Sound hvs.height round hvs.valSet := by
  unfold roundOrNew
  cases stored : hvs.roundVoteSets round with
  | none => exact .new hvs.height round hvs.valSet
  | some rvs => exact hvs.sound round rvs stored

/-- Puts a vote set in the place of its round and type. -/
def put (hvs : HeightVoteSet) (round : Int32) (type : VoteType) (vs : VoteSet)
    (slot : vs.toSlot = ⟨hvs.height, round, type, hvs.valSet⟩) (held : vs.Sound) :
    HeightVoteSet where
  height := hvs.height
  valSet := hvs.valSet
  round := hvs.round
  roundVoteSets := update hvs.roundVoteSets round (some ((hvs.roundOrNew round).set vs type))
  sound := update_forall hvs.sound ((hvs.roundOrNew_sound round).set slot held)

/-- The round is added also for a vote that is then refused. -/
def addVote (hvs : HeightVoteSet) (vote : Vote) : (Bool × Option VoteErr) × HeightVoteSet :=
  match found : (hvs.roundOrNew vote.round).get vote.type with
  | none => ((false, none), hvs)
  | some vs =>
    have sound := (hvs.roundOrNew_sound vote.round).get found
    ((vs.addVote vote).1, hvs.put vote.round vote.type (vs.addVote vote).2
      ((VoteSet.addVote_toSlot vs vote).trans sound.1) (sound.2.addVote vote))

def setPeerMaj23 (hvs : HeightVoteSet) (round : Int32) (type : VoteType) (peerID : Bytes)
    (id : BlockKey) : HeightVoteSet :=
  match found : (hvs.roundVoteSets round).bind fun rvs => rvs.get type with
  | none => hvs
  | some vs =>
    have sound : vs.toSlot = ⟨hvs.height, round, type, hvs.valSet⟩ ∧ vs.Sound := by
      obtain ⟨rvs, stored, found⟩ := bind_eq_some_iff.mp found
      exact (hvs.sound round rvs stored).get found
    hvs.put round type (vs.setPeerMaj23 peerID id)
      ((VoteSet.setPeerMaj23_toSlot peerID id).trans sound.1) (sound.2.setPeerMaj23 peerID id)

/-- The rounds from `r` down to 0, up to the first with +2/3 prevotes. -/
def polInfoFrom (hvs : HeightVoteSet) : Nat → Int32 × BlockID
  | 0 => (-1, .zero)
  | r + 1 =>
    match hvs.majority (Int32.ofNat r) .prevote with
    | some id => (Int32.ofNat r, id)
    | none => hvs.polInfoFrom r

def polInfo (hvs : HeightVoteSet) : Int32 × BlockID :=
  if hvs.round < 0 then (-1, .zero) else hvs.polInfoFrom (hvs.round.toInt.toNat + 1)

/-! ### The vote set of a round and type -/

/-- The vote set of a round and type, an empty one if there is none yet. -/
def votesAt (hvs : HeightVoteSet) (r : Int32) (t : VoteType) : VoteSet :=
  (hvs.getVoteSet r t).getD (newVoteSet ⟨hvs.height, r, t, hvs.valSet⟩)

variable {hvs : HeightVoteSet} {r r' : Int32} {t t' : VoteType} {i : Nat}
  {v vote : Vote} {vs : VoteSet}

theorem getVoteSet_sound (hf : hvs.getVoteSet r t = some vs) :
    vs.toSlot = ⟨hvs.height, r, t, hvs.valSet⟩ ∧ vs.Sound := by
  obtain ⟨rvs, hst, hf⟩ := bind_eq_some_iff.mp hf
  exact (hvs.sound r rvs hst).get hf

theorem votesAt_of_some (hf : hvs.getVoteSet r t = some vs) : hvs.votesAt r t = vs := by
  unfold votesAt
  rw [hf]
  rfl

theorem majority_eq : hvs.majority r t = (hvs.votesAt r t).maj23 := by
  unfold majority votesAt
  cases hvs.getVoteSet r t with
  | none => rfl
  | some vs => rfl

theorem votesAt_sound : (hvs.votesAt r t).toSlot = ⟨hvs.height, r, t, hvs.valSet⟩ ∧
    (hvs.votesAt r t).Sound := by
  unfold votesAt
  cases found : hvs.getVoteSet r t with
  | none => exact ⟨rfl, .new _⟩
  | some vs => exact getVoteSet_sound found

theorem recorded_iff : hvs.Recorded r t i v ↔ (hvs.votesAt r t).Recorded i v := by
  unfold Recorded votesAt
  cases hvs.getVoteSet r t with
  | none =>
    refine iff_of_false ?_ (VoteSet.not_recorded_new _)
    rintro ⟨_, hf, _⟩
    cases hf
  | some vs =>
    constructor
    · rintro ⟨_, hf, held⟩
      cases hf
      exact held
    · exact fun held => ⟨vs, rfl, held⟩

theorem votesAt_new {height : Nat} {valSet : ValidatorSet} :
    (new height valSet).votesAt r t = newVoteSet ⟨height, r, t, valSet⟩ := by
  unfold votesAt getVoteSet new
  dsimp only
  split
  next zero => cases t <;> rw [zero] <;> rfl
  next => rfl

theorem not_recorded_new {height : Nat} {valSet : ValidatorSet} :
    ¬ (new height valSet).Recorded r t i v := by
  rw [recorded_iff, votesAt_new]
  exact VoteSet.not_recorded_new _

theorem votesAt_setRound : (hvs.setRound r').votesAt r t = hvs.votesAt r t := by
  unfold votesAt getVoteSet setRound
  dsimp only
  cases hvs.roundVoteSets r with
  | some rvs => rfl
  | none =>
    dsimp only
    split
    · cases t <;> rfl
    · rfl

theorem roundOrNew_get (hv : t ≠ .unknown) :
    (hvs.roundOrNew r).get t = some (hvs.votesAt r t) := by
  unfold roundOrNew votesAt getVoteSet
  cases hvs.roundVoteSets r with
  | none => cases t <;> first | rfl | exact absurd rfl hv
  | some rvs => cases t <;> first | rfl | exact absurd rfl hv

theorem votesAt_put {slot : vs.toSlot = ⟨hvs.height, r, t, hvs.valSet⟩} {held : vs.Sound}
    (hv : t ≠ .unknown) : (hvs.put r t vs slot held).votesAt r' t' = if r' = r ∧ t' = t then vs
    else hvs.votesAt r' t' := by
  unfold votesAt getVoteSet put
  dsimp only
  by_cases round : r' = r
  · subst round
    rw [update_self, bind_some, RoundVoteSet.get_set (roundOrNew_get hv)]
    by_cases type : t' = t
    · rw [if_pos type, if_pos ⟨rfl, type⟩]
      rfl
    · rw [if_neg type, if_neg fun same => type same.2]
      cases t' with
      | unknown => cases hvs.roundVoteSets r' <;> rfl
      | prevote => cases stored : hvs.roundVoteSets r' <;> rw [roundOrNew, stored] <;> rfl
      | precommit => cases stored : hvs.roundVoteSets r' <;> rw [roundOrNew, stored] <;> rfl
  · rw [update_of_ne round, if_neg fun same => round same.1]

theorem addVote_eq (hv : vote.type ≠ .unknown) :
    (hvs.addVote vote).1 = ((hvs.votesAt vote.round vote.type).addVote vote).1 ∧
      (hvs.addVote vote).2.votesAt r t = if r = vote.round ∧ t = vote.type
        then ((hvs.votesAt vote.round vote.type).addVote vote).2 else hvs.votesAt r t := by
  have hf : (hvs.roundOrNew vote.round).get vote.type =
      some (hvs.votesAt vote.round vote.type) :=
    roundOrNew_get hv
  unfold addVote
  split
  next missing =>
    rw [hf] at missing
    cases missing
  next vs stored =>
    obtain rfl := some.inj (hf.symm.trans stored)
    refine ⟨rfl, ?_⟩
    rw [votesAt_put hv]

/-- A vote goes at most to the set of its round and type. -/
theorem votesAt_addVote (vote : Vote) : (hvs.addVote vote).2.votesAt r t = hvs.votesAt r t ∨
    (hvs.addVote vote).2.votesAt r t = ((hvs.votesAt r t).addVote vote).2 := by
  by_cases unknown : vote.type = .unknown
  · left
    unfold addVote
    split
    · rfl
    next stored =>
      rw [unknown] at stored
      cases stored
  · rw [(addVote_eq unknown).2]
    split
    next own =>
      rw [own.1, own.2]
      exact .inr rfl
    next => exact .inl rfl

theorem addVote_recorded (held : (hvs.addVote vote).2.Recorded r t i v) :
    hvs.Recorded r t i v ∨ v = vote ∧ vote.validatorIndex = i := by
  rw [recorded_iff] at held ⊢
  rcases hvs.votesAt_addVote vote with same | ha
  · rw [same] at held
    exact .inl held
  · rw [ha] at held
    exact VoteSet.addVote_recorded votesAt_sound.2 held

@[simp] theorem addVote_height (hvs : HeightVoteSet) (vote : Vote) :
    (hvs.addVote vote).2.height = hvs.height := by
  unfold addVote
  split <;> rfl

@[simp] theorem addVote_valSet (hvs : HeightVoteSet) (vote : Vote) :
    (hvs.addVote vote).2.valSet = hvs.valSet := by
  unfold addVote
  split <;> rfl

theorem votesAt_setPeerMaj23 (peerID : Bytes) (id : BlockKey) :
    (hvs.setPeerMaj23 r t peerID id).votesAt r' t' = hvs.votesAt r' t' ∨
      (hvs.setPeerMaj23 r t peerID id).votesAt r' t' =
      (hvs.votesAt r' t').setPeerMaj23 peerID id := by
  unfold setPeerMaj23
  split
  · exact .inl rfl
  next vs found =>
    have hv : t ≠ .unknown := by
      rintro rfl
      obtain ⟨rvs, _, get⟩ := bind_eq_some_iff.mp found
      cases get
    rw [votesAt_put hv]
    split
    next same =>
      rw [same.1, same.2, votesAt_of_some found]
      exact .inr rfl
    next => exact .inl rfl

/-- A majority of a height is a quorum of validators with a recorded vote for the block. -/
theorem majority_voters {id : BlockID} (hr : hvs.majority r t = some id) :
    ∃ voters : Finset Nat, hvs.valSet.quorum ≤ voters.card ∧ ∀ i ∈ voters, ∃ v,
    hvs.Recorded r t i v ∧ (Slot.mk hvs.height r t hvs.valSet).Casts i v ∧ v.blockID = id := by
  obtain ⟨vs, hf, hr⟩ := bind_eq_some_iff.mp hr
  obtain ⟨slot, hs⟩ := getVoteSet_sound hf
  obtain ⟨voters, hq, cast⟩ := hs.voters hr
  rw [show vs.valSet = hvs.valSet from congrArg Slot.valSet slot] at hq
  refine ⟨voters, hq, fun i hm => ?_⟩
  obtain ⟨v, held, hc, block⟩ := cast i hm
  exact ⟨v, ⟨vs, hf, held⟩, slot ▸ hc, block⟩

/-- Nothing new is recorded, and the majorities are the same. -/
structure Kept (hvs hvs' : HeightVoteSet) : Prop where
  height : hvs'.height = hvs.height
  valSet : hvs'.valSet = hvs.valSet
  majority : ∀ r t, hvs'.majority r t = hvs.majority r t
  recorded : ∀ r t i v, hvs'.Recorded r t i v → hvs.Recorded r t i v

theorem Kept.refl (hvs : HeightVoteSet) : hvs.Kept hvs :=
  ⟨rfl, rfl, fun _ _ => rfl, fun _ _ _ _ held => held⟩

theorem Kept.trans {a b c : HeightVoteSet} (h1 : a.Kept b) (h2 : b.Kept c) : a.Kept c where
  height := h2.height.trans h1.height
  valSet := h2.valSet.trans h1.valSet
  majority r t := (h2.majority r t).trans (h1.majority r t)
  recorded r t i v held := h1.recorded r t i v (h2.recorded r t i v held)

theorem Kept.setRound (hvs : HeightVoteSet) (r : Int32) : hvs.Kept (hvs.setRound r) where
  height := rfl
  valSet := rfl
  majority r' t := by rw [majority_eq, votesAt_setRound, majority_eq]
  recorded r' t i v held := by
    rw [recorded_iff, votesAt_setRound] at held
    exact recorded_iff.mpr held

theorem Kept.setPeerMaj23 (hvs : HeightVoteSet) (r : Int32) (t : VoteType) (peerID : Bytes)
    (id : BlockKey) : hvs.Kept (hvs.setPeerMaj23 r t peerID id) where
  height := by
    unfold HeightVoteSet.setPeerMaj23
    split <;> rfl
  valSet := by
    unfold HeightVoteSet.setPeerMaj23
    split <;> rfl
  majority r' t' := by
    rw [majority_eq, majority_eq]
    rcases hvs.votesAt_setPeerMaj23 peerID id with same | marked
    · rw [same]
    · rw [marked, VoteSet.setPeerMaj23_maj23]
  recorded r' t' i v held := by
    rw [recorded_iff] at held ⊢
    rcases hvs.votesAt_setPeerMaj23 peerID id with same | marked
    · rwa [same] at held
    · rw [marked] at held
      exact VoteSet.setPeerMaj23_recorded held

end HeightVoteSet

end HNBChain.Audit.Source.Algorand
