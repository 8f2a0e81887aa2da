import HNBChain.Audit.Guarantees.RoundMonotone
import HNBChain.Audit.Source.Algorand.Ballots

/-!
# What holds of a vote set at every point

Whatever votes are added and whatever majorities peers claim, in any order, with duplicates and
conflicts: the bit arrays and sums say which votes are held, the votes under a key are for that
block, and the first block to reach the quorum stays the majority, with the held votes of all who
are counted for it.
-/
namespace HNBChain.Audit.Guarantees.VoteSetInvariant

open Lib Source.Algorand

inductive Call where
  | addVote (vote : Vote)
  | setPeerMaj23 (peerID : Bytes) (blockKey : BlockKey)

def perform (vs : VoteSet) : Call → VoteSet
  | .addVote vote => (vs.addVote vote).2
  | .setPeerMaj23 peerID blockKey => vs.setPeerMaj23 peerID blockKey

def run (vs : VoteSet) (calls : List Call) : VoteSet := calls.foldl perform vs

/-- How many validators have a vote in an array. -/
def voters (vs : VoteSet) (votes : Nat → Option Vote) : Nat :=
  ((Finset.range vs.valSet.size).filter fun i => (votes i).isSome).card

structure Invariant (vs : VoteSet) : Prop where
  /-- A held vote names the validator, and the height, round and type of the set. -/
  held : ∀ i v, vs.votes i = some v → vs.Casts i v
  bits : ∀ i, vs.votesBitArray i = true ↔ ∃ v, vs.votes i = some v
  sum : vs.sum = voters vs vs.votes
  recordHeld : ∀ key bv, vs.votesByBlock key = some bv →
    ∀ i v, bv.votes i = some v → vs.Casts i v ∧ v.key = key
  recordBits : ∀ key bv, vs.votesByBlock key = some bv →
    ∀ i, bv.bitArray i = true ↔ ∃ v, bv.votes i = some v
  recordSum : ∀ key bv, vs.votesByBlock key = some bv → bv.sum = voters vs bv.votes
  majority : ∀ id, vs.maj23 = some id → ∃ key bv, key.id = id ∧ vs.votesByBlock key = some bv ∧
    vs.valSet.quorum ≤ bv.sum ∧
    ∀ i v, bv.votes i = some v → ∃ w, vs.votes i = some w ∧ w.key = key ∧ w.blockID = id

variable {vs : VoteSet}

theorem Consistent.invariant (hc : vs.Consistent) : Invariant vs where
  held := hc.sound.votes
  bits i := by rw [hc.bits, Option.isSome_iff_exists]
  sum := hc.sum
  recordHeld key bv hs := (hc.sound.votesByBlock key bv hs).casts
  recordBits key bv hs i := by
    rw [hc.blockBits key bv hs, Option.isSome_iff_exists]
  recordSum key bv hs := (hc.sound.votesByBlock key bv hs).sum
  majority id reached := by
    obtain ⟨key, hd, rfl⟩ := Option.map_eq_some_iff.mp reached
    obtain ⟨bv, hs, hq⟩ := hc.sound.majority key hd
    refine ⟨key, bv, rfl, hs, hq, fun i v hcu => ?_⟩
    obtain ⟨w, held, same⟩ := hc.held key bv hd hs i v hcu
    exact ⟨w, held, same, Vote.blockID_of_key same⟩

theorem Consistent.perform (hc : vs.Consistent) (call : Call) :
    (perform vs call).Consistent := by
  cases call with
  | addVote vote => exact hc.addVote vote
  | setPeerMaj23 peerID blockKey => exact hc.setPeerMaj23 peerID blockKey

theorem Consistent.run (hc : vs.Consistent) (calls : List Call) :
    (run vs calls).Consistent := by
  induction calls generalizing vs with
  | nil => exact hc
  | cons call rest ih => exact ih (Consistent.perform hc call)

theorem perform_maj23 {id : BlockID} (hr : vs.maj23 = some id) (call : Call) :
    (perform vs call).maj23 = some id := by
  cases call with
  | addVote vote => exact VoteSet.addVote_maj23 hr vote
  | setPeerMaj23 peerID blockKey =>
    rw [perform, VoteSet.setPeerMaj23_maj23]
    exact hr

theorem run_maj23 {id : BlockID} (hr : vs.maj23 = some id) (calls : List Call) :
    (run vs calls).maj23 = some id := by
  induction calls generalizing vs with
  | nil => exact hr
  | cons call rest ih => exact ih (perform_maj23 hr call)

theorem run_invariant (slot : Slot) (calls : List Call) :
    Invariant (run (newVoteSet slot) calls) ∧ ∀ id, (run (newVoteSet slot) calls).maj23 = some id →
      ∀ more, (run (newVoteSet slot) (calls ++ more)).maj23 = some id := by
  refine ⟨Consistent.invariant (Consistent.run (.new slot) calls), fun id hr more => ?_⟩
  rw [run, List.foldl_append]
  exact run_maj23 hr more

/-! ## At a node -/

open Node RoundMonotone

/-- The node has left the height, or has the majorities it had. -/
def Stands (n n' : Node) : Prop :=
  n.height < n'.height ∨ n'.height = n.height ∧
    ∀ round type id, n.votes.majority round type = some id → n'.votes.majority round type = some id

variable {env : Env} {occ : Occasion} {ans : Answers} {n a b : Node}

theorem Stands.trans (h1 : Stands n a) (h2 : Stands a b) : Stands n b := by
  unfold Stands at *
  grind

theorem Stands.same (height : b.height = a.height) (votes : b.votes = a.votes) : Stands a b :=
  .inr ⟨height, fun _ _ _ hr => votes ▸ hr⟩

theorem move_stands (move : Move env occ a b) : Stands a b := by
  cases move with
  | calm calm =>
    cases calm with
    | quiet quiet =>
      exact .inr ⟨quiet.height, fun r t id hr => (quiet.votes.majority r t).trans hr⟩
    | prevote => exact .same rfl rfl
  | record v => exact .inr ⟨rfl, fun _ _ _ hr => HeightVoteSet.majority_addVote hr v⟩
  | recordLast | propose => exact .same rfl rfl

theorem moves_stands (hm : Moves env occ n b) : Stands n b := by
  induction hm with
  | refl => exact .same rfl rfl
  | tail _ last ih => exact ih.trans (move_stands last)

theorem precommitted_stands (ans : Answers) : Stands a (a.precommitted env ans) := by
  obtain ⟨_, _, _, _, fields⟩ := doPrecommit_fields env ans a.round a
  rw [precommitted, fields]
  exact .same rfl rfl

theorem deliver_stands (hco : n.Coherent) (e : Event) : Stands n (n.deliver env ans e) := by
  by_cases reset : e = .reset
  · subst reset
    by_cases halted : n.halted
    · rw [deliver_of_halted halted]
      exact .same rfl rfl
    · have restarted : Stands n n.restarted := .same rfl rfl
      have calm : Moves env { Occasion.rest with rounds := fun _ => True } _
          (n.deliver env ans .reset) := (deliver_reset halted).moves
      exact restarted.trans (moves_stands calm)
  · exact (deliver_outcome hco.timed reset).induction hco (fun _ => moves_stands)
      (fun ans _ _ _ _ hb => hb.trans (precommitted_stands ans))
      (fun _ _ entry hb => hb.trans (by cases entry <;> exact .same rfl rfl))
      (fun _ _ move hb => hb.trans (move_stands move))
      (fun a _ _ _ _ _ _ hb => hb.trans (.inl (Nat.lt_succ_self a.height)))
      fun _ hb => hb.trans (.same rfl rfl)

/-- Whatever a node is given, restarts among it: a round keeps its majority for the whole height. -/
theorem majority_stands (hr : Reachable env n) (events : List (Event × Answers)) :
    Stands n (n.run env events) := by
  induction events generalizing n with
  | nil => exact .same rfl rfl
  | cons event rest ih =>
    exact (deliver_stands hr.coherent event.1).trans (ih (hr.deliver _ _))

/-- The prevotes of three validators for one block. -/
def prevoted : List (Event × Answers) :=
  [(.timeout ⟨1, 0, .newHeight⟩, plainAnswers), (proposalFor 0 7, plainAnswers),
    (partOf 7, plainAnswers), (voteFrom 0 0 .prevote (plainID 7), plainAnswers),
    (voteFrom 1 0 .prevote (plainID 7), plainAnswers),
    (voteFrom 2 0 .prevote (plainID 7), plainAnswers)]

/-- Two of them then prevote another block, with a reset between. -/
theorem majority_stands_reset :
    let n := (plainNode 4).run (plainEnv 4 3) prevoted
    n.votes.majority 0 .prevote = some (plainID 7) ∧
      Stands n (n.run (plainEnv 4 3)
        [(voteFrom 0 0 .prevote (plainID 8), plainAnswers), (.reset, plainAnswers),
          (voteFrom 1 0 .prevote (plainID 8), plainAnswers)]) :=
  ⟨by decide +kernel, majority_stands ((plainNode_reachable (by decide)).run _) _⟩

end HNBChain.Audit.Guarantees.VoteSetInvariant
