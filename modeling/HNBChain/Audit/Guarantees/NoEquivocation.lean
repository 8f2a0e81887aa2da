import HNBChain.Audit.Guarantees.RoundMonotone
import HNBChain.Audit.Source.Algorand.Signing

/-!
# A node votes once in a step

The votes a node signs are in strictly growing positions, so no two of them share height, round and
type. A reset takes the step back to the start of the round. It does no harm before the first vote
of the round; after it, the node votes again, and it may vote for another block.
-/
namespace HNBChain.Audit.Guarantees.NoEquivocation

open Lib Source.Algorand RoundMonotone

section

variable {env : Env} {ans : Answers} {n : Node}

/-- The node has cast no vote in its round. -/
def Unvoted (n : Node) : Prop := ∀ v ∈ n.signed, v.height = n.height → v.round ≠ n.round

theorem restarted_ordered (ho : Ordered n) (unvoted : Unvoted n) : Ordered n.restarted := by
  refine ⟨ho.sorted, fun v hm => ?_, ho.typed⟩
  rcases position_le.mp (ho.reached v hm) with lower | ⟨height, he | ⟨round, _⟩⟩
  · exact position_le.mpr (.inl lower)
  · exact position_le.mpr (.inr ⟨height, .inl he⟩)
  · exact absurd round (unvoted v hm height)

theorem deliver_ordered {e : Event} (ho : Ordered n) (hc : n.Coherent)
    (unvoted : e = .reset → Unvoted n) : Ordered (n.deliver env ans e) := by
  by_cases halted : n.halted
  · rw [deliver_of_halted halted]
    exact ho
  · by_cases reset : e = .reset
    · have restarted := restarted_ordered ho (unvoted reset)
      subst reset
      exact (deliver_reset halted).ordered restarted
    · exact (deliver_outcome hc.timed reset).ordered hc ho

end

/-! ## Runs -/

/-- No two votes of one type, height and round are for different blocks. -/
def OneBlock (n : Node) : Prop :=
  ∀ v ∈ n.signed, ∀ w ∈ n.signed, v.type = w.type → v.height = w.height → v.round = w.round →
    v.blockID = w.blockID

theorem oneBlock_of_ordered {n : Node} (ho : Ordered n) : OneBlock n := by
  intro v h1 w h2 type height round
  have samePos : v.pos = w.pos := by
    unfold Vote.pos
    rw [type, height, round]
  exact congrArg Vote.blockID (ho.eq_of_pos h1 h2 samePos)

/-- Every reset of the run comes before the first vote of the round the node is in. -/
def ResetsUnvoted (env : Env) : Node → List (Event × Answers) → Prop
  | _, [] => True
  | n, event :: rest =>
    (event.1 = .reset → Unvoted n) ∧ ResetsUnvoted env (n.deliver env event.2 event.1) rest

theorem run_ordered {env : Env} {n : Node} (ho : Ordered n) (hc : n.Coherent)
    {events : List (Event × Answers)} (resets : ResetsUnvoted env n events) :
    Ordered (n.run env events) := by
  induction events generalizing n with
  | nil => exact ho
  | cons event rest ih =>
    exact ih (deliver_ordered ho hc resets.1) (hc.deliver event.1) resets.2

theorem run_oneBlock {env : Env} {s : State} {seenCommit : Commit} {n : Node}
    (params : s.consensusParams = .zero) (hs : startNode env s seenCommit = some n)
    (events : List (Event × Answers)) (resets : ResetsUnvoted env n events) :
    OneBlock (n.run env events) :=
  oneBlock_of_ordered (run_ordered (startNode_ordered hs)
    (startNode_coherent params hs) resets)

/-- A reset before the first vote: the node then prevotes the proposal of round 0. -/
def earlyReset : List (Event × Answers) :=
  [(.timeout ⟨1, 0, .newHeight⟩, plainAnswers), (.reset, plainAnswers),
    (proposalFor 0 7, plainAnswers), (partOf 7, plainAnswers)]

theorem run_oneBlock_earlyReset :
    ((plainNode 4).run (plainEnv 4 3) earlyReset).signed = [voteOf 3 0 .prevote (plainID 7)] ∧
      OneBlock ((plainNode 4).run (plainEnv 4 3) earlyReset) := by
  have unvoted : ((plainNode 4).deliver (plainEnv 4 3) plainAnswers
      (.timeout ⟨1, 0, .newHeight⟩)).signed = [] := by decide +kernel
  refine ⟨by decide +kernel, run_oneBlock rfl (plainNode_started (by decide)) earlyReset ?_⟩
  exact ⟨nofun, fun _ v hm => absurd hm (unvoted ▸ List.not_mem_nil), nofun, nofun, trivial⟩

/-! ## A reset after the vote -/

/-- Round 0 leaves the node locked on one block. In round 1 it prevotes this block against the
proposal of another one; three prevotes for the other block then move the lock, and after the reset
the proposal is prevoted. -/
def lateReset : List (Event × Answers) :=
  [(.timeout ⟨1, 0, .newHeight⟩, plainAnswers), (proposalFor 0 7, plainAnswers),
    (partOf 7, plainAnswers),
    (voteFrom 0 0 .prevote (plainID 7), plainAnswers),
    (voteFrom 1 0 .prevote (plainID 7), plainAnswers),
    (voteFrom 2 0 .prevote (plainID 7), plainAnswers),
    (voteFrom 0 0 .precommit .zero, plainAnswers),
    (voteFrom 1 0 .precommit .zero, plainAnswers),
    (voteFrom 2 0 .precommit .zero, plainAnswers),
    (proposalFor 1 8, plainAnswers),
    (partOf 8, plainAnswers),
    (voteFrom 0 1 .prevote (plainID 8), plainAnswers),
    (voteFrom 1 1 .prevote (plainID 8), plainAnswers),
    (voteFrom 2 1 .prevote (plainID 8), plainAnswers),
    (.reset, plainAnswers)]

theorem prevotes_two_blocks : ∃ (env : Env) (s : State) (seenCommit : Commit) (n : Node)
    (events : List (Event × Answers)), s.consensusParams = .zero ∧
      startNode env s seenCommit = some n ∧ ∃ v ∈ (n.run env events).signed,
        ∃ w ∈ (n.run env events).signed, v.type = .prevote ∧ w.type = .prevote ∧
          v.height = w.height ∧ v.round = w.round ∧ v.blockID.hash ≠ [] ∧ w.blockID.hash ≠ [] ∧
          v.blockID ≠ w.blockID := by
  refine ⟨plainEnv 4 3, plainState 4, _, plainNode 4, lateReset, rfl, plainNode_started (by decide),
    voteOf 3 1 .prevote (plainID 8), ?_, voteOf 3 1 .prevote (plainID 7), ?_, ?_⟩
  · decide +kernel
  · decide +kernel
  · decide

end HNBChain.Audit.Guarantees.NoEquivocation
