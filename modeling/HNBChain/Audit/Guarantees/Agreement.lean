import HNBChain.Audit.Spec.Network
import Mathlib.Data.FinEnum
import HNBChain.Audit.Guarantees.RoundMonotone

/-!
# Agreement

Correct nodes that store a block at the same height store the same one, in every run in which no
event undoes a lock. Where one does, they may not: a node that sees more than two thirds of the
prevotes for the very block it is locked on unlocks it if it does not hold that block as the
proposal of the round.
-/
namespace HNBChain.Audit.Guarantees.Agreement

open Lib Source.Algorand Spec
open RoundMonotone

/-- The order of rounds. -/
@[reducible] def roundOrder : LinearOrder Int32 where
  le := (· ≤ ·)
  lt := (· < ·)
  le_refl := Int32.le_refl
  le_trans _ _ _ := Int32.le_trans
  lt_iff_le_not_ge _ _ := by
    rw [Int32.not_le]
    exact ⟨fun lt => ⟨Int32.le_of_lt lt, lt⟩, And.right⟩
  le_antisymm _ _ := Int32.le_antisymm
  le_total := Int32.le_total
  toDecidableLE := inferInstance

theorem stored_blocks_agree {k : Nat} {net : Network k} {nodes : Fin k → Node}
    (hr : net.Reachable Prudent nodes) {i j : Fin k} (hi : i ∉ net.faulty) (hj : j ∉ net.faulty)
    {c c' : Saved} (hs : c ∈ (nodes i).saved) (stored' : c' ∈ (nodes j).saved)
    (height : c.block.header.blockNum = c'.block.header.blockNum) :
    c.block.hash (net.envs i).digests = c'.block.hash (net.envs j).digests := by
  let _ := roundOrder
  have h1 := hr.sound.final i hi c hs
  have h2 := hr.sound.final j hj c' stored'
  rw [← height] at h2
  exact (Network.lockedVoting hr c.block.header.blockNum).agreement h1 h2

/-! ## Four validators, the first of them faulty -/

def fourNodes : Network 4 where
  envs i := plainEnv 4 i
  vals := (members 4).validators
  faulty := {0}
  size := rfl
  power := by decide
  few := by decide
  small := by decide

/-- The validators propose in turn. The block that validator 2 makes is not the one of round 0. -/
def inTurn (self : Nat) : Answers :=
  { plainAnswers with
    isProposer := fun _ round =>
      some (decide (round.toInt = self), some (member round.toInt.toNat))
    geneProposalBlk := fun _ _ => some (some (plainBlock 4 8, ⟨1, [8], fun
      | 0 => some (plainPart 8)
      | _ => none, 1⟩)) }

def here (i : Fin 4) (events : List Event) : List (Fin 4 × Event × Answers) :=
  events.map fun e => (i, e, inTurn i)

def fires (round : Int32) (step : RoundStep) : Event := .timeout ⟨1, round, step⟩

/-- A block that is proposed in a round by its proposer. -/
def offers (round : Int32) (tag : UInt8) (polRound : Int32) (polBlockID : BlockID) : List Event :=
  [.peer [UInt8.ofNat round.toInt.toNat]
    (.proposal ⟨1, round, plainParts tag, polRound, polBlockID⟩),
    .peer [UInt8.ofNat round.toInt.toNat] (.blockPart 1 (plainPart tag))]

/-- The node's own vote, then that of a correct validator and that of the faulty one. -/
def ballot (other : Nat) (round : Int32) (type : VoteType) (tag : UInt8) : List Event :=
  [.internal 0, voteFrom other round type (plainID tag), voteFrom 0 round type (plainID tag)]

/-- Round 0: all prevote the block of the faulty validator and lock it, and one node stores it. -/
def roundZero : List (Fin 4 × Event × Answers) :=
  here 1 (fires 0 .newHeight :: offers 0 7 (-1) .zero) ++
  here 2 (fires 0 .newHeight :: offers 0 7 (-1) .zero ++ ballot 1 0 .prevote 7) ++
  here 3 (fires 0 .newHeight :: offers 0 7 (-1) .zero ++ ballot 1 0 .prevote 7) ++
  here 1 (ballot 2 0 .prevote 7 ++ ballot 2 0 .precommit 7)

def fresh : Fin 4 → Node := fun _ => plainNode 4

theorem fourNodes_started : fourNodes.Started fresh := fun i _ =>
  ⟨plainState 4, _, rfl, rfl, plainNode_started (by revert i; decide)⟩

/-- A second node stores the block of round 0. -/
def bothStore : List (Fin 4 × Event × Answers) := roundZero ++ here 2 (ballot 1 0 .precommit 7)

theorem stored_blocks_agree_roundZero : ∃ c c', (fourNodes.run fresh bothStore 1).saved = [c] ∧
      (fourNodes.run fresh bothStore 2).saved = [c'] ∧
      c.block.hash digests = c'.block.hash digests := by
  have hr : fourNodes.Reachable Prudent (fourNodes.run fresh bothStore) :=
    (Network.Reachable.start fourNodes_started).run (by decide +kernel)
  have h1 : (fourNodes.run fresh bothStore 1).saved.map (·.block.header.blockNum) = [1] := by
    decide +kernel
  have h2 : (fourNodes.run fresh bothStore 2).saved.map (·.block.header.blockNum) = [1] := by
    decide +kernel
  obtain ⟨c, hs, height⟩ := List.map_eq_singleton_iff.mp h1
  obtain ⟨c', stored', height'⟩ := List.map_eq_singleton_iff.mp h2
  exact ⟨c, c', hs, stored', stored_blocks_agree hr (by decide) (by decide)
    (hs ▸ List.mem_singleton_self c) (stored' ▸ List.mem_singleton_self c')
    (height.trans height'.symm)⟩

/-! ## A lock that is lost -/

/-- Round 1: the other two have no proposal and prevote their lock. -/
def roundOne : List (Fin 4 × Event × Answers) :=
  let late := [fires 0 .precommit, fires 0 .precommitWait, fires 1 .propose, fires 1 .propose,
    fires 1 .propose, .internal 0]
  here 2 late ++ here 3 late ++ here 2 (ballot 3 1 .prevote 7) ++ here 3 (ballot 2 1 .prevote 7)

/-- Round 2: they are not locked any more and agree on another block. -/
def roundTwo : List (Fin 4 × Event × Answers) :=
  let late := [fires 1 .precommit, fires 1 .precommitWait, .internal 0]
  here 2 (late ++ [.internal 0, .internal 0]) ++
  here 3 (late ++ offers 2 8 1 (plainID 7) ++ ballot 2 2 .prevote 8) ++
  here 2 (ballot 3 2 .prevote 8 ++ ballot 3 2 .precommit 8)

def lockLost : List (Fin 4 × Event × Answers) := roundZero ++ roundOne ++ roundTwo

theorem two_blocks_stored : ∃ (k : Nat) (net : Network k) (nodes : Fin k → Node),
    net.Reachable (fun _ _ _ => True) nodes ∧ ∃ i ∉ net.faulty, ∃ j ∉ net.faulty,
      ∃ c ∈ (nodes i).saved, ∃ c' ∈ (nodes j).saved,
      c.block.header.blockNum = c'.block.header.blockNum ∧
          c.block.hash (net.envs i).digests ≠ c'.block.hash (net.envs j).digests := by
  have hr : fourNodes.Reachable (fun _ _ _ => True) (fourNodes.run fresh lockLost) :=
    (Network.Reachable.start fourNodes_started).run (by decide +kernel)
  have h1 : (fourNodes.run fresh lockLost 1).saved.map
      (fun c => (c.block.header.blockNum, c.block.hash digests)) = [(1, [7])] := by decide +kernel
  have h2 : (fourNodes.run fresh lockLost 2).saved.map
      (fun c => (c.block.header.blockNum, c.block.hash digests)) = [(1, [8])] := by decide +kernel
  obtain ⟨c, hs, hn⟩ := List.map_eq_singleton_iff.mp h1
  obtain ⟨c', stored', named'⟩ := List.map_eq_singleton_iff.mp h2
  obtain ⟨height, hash⟩ := Prod.mk.inj hn
  obtain ⟨height', hash'⟩ := Prod.mk.inj named'
  refine ⟨4, fourNodes, fourNodes.run fresh lockLost, hr, 1, by decide, 2, by decide, c,
    hs ▸ List.mem_singleton_self c, c', stored' ▸ List.mem_singleton_self c',
    height.trans height'.symm, fun same => ?_⟩
  exact absurd (hash.symm.trans (same.trans hash')) (by decide)

end HNBChain.Audit.Guarantees.Agreement
