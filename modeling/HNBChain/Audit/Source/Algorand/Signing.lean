import HNBChain.Audit.Source.Algorand.Invariants

/-!
# The order of the votes a node signs

A vote is cast on the way into its step, and the step counter is what keeps a node from casting
another one. So the votes a node signs are in strictly growing positions, as long as nothing takes
the node back to a step it has left.
-/
namespace HNBChain.Audit.Source.Algorand

open Lib

/-- The votes signed, last one first, are in growing positions up to that of the node. -/
structure Ordered (n : Node) : Prop where
  sorted : n.signed.Pairwise fun later earlier => earlier.pos < later.pos
  reached : ∀ v ∈ n.signed, v.pos ≤ n.pos
  typed : ∀ v ∈ n.signed, v.type ≠ .unknown

section

variable {env : Env} {ans : Answers} {occ : Occasion} {rounds : Int32 → Prop} {n n' : Node}

theorem Ordered.forward (ho : Ordered n) (hs : n'.signed = n.signed)
    (pos : n.pos ≤ n'.pos) : Ordered n' where
  sorted := hs ▸ ho.sorted
  reached v member := (ho.reached v (hs ▸ member)).trans pos
  typed v member := ho.typed v (hs ▸ member)

theorem Ordered.cast {vote : Vote} (ho : Ordered n) (hs : n'.signed = vote :: n.signed)
    (next : n.pos < vote.pos) (pos : vote.pos ≤ n'.pos) (typed : vote.type ≠ .unknown) :
    Ordered n' := by
  refine ⟨?_, fun v hm => ?_, fun v hm => ?_⟩
  · rw [hs]
    exact List.pairwise_cons.mpr ⟨fun v hm => (ho.reached v hm).trans_lt next,
      ho.sorted⟩
  · rcases List.mem_cons.mp (hs ▸ hm) with rfl | old
    · exact pos
    · exact (ho.reached v old).trans (next.le.trans pos)
  · rcases List.mem_cons.mp (hs ▸ hm) with rfl | old
    · exact typed
    · exact ho.typed v old

theorem Calm.ordered (calm : Calm env rounds n n') (ho : Ordered n) : Ordered n' := by
  cases calm with
  | quiet quiet => exact ho.forward quiet.signed quiet.pos
  | prevote ans id he _ _ =>
    exact ho.cast rfl (position_lt.mpr (.inr ⟨rfl, .inr ⟨rfl, he⟩⟩)) (le_refl _) nofun

theorem Calms.ordered (hca : Calms env rounds n n') (ho : Ordered n) : Ordered n' := by
  induction hca with
  | refl => exact ho
  | tail _ last ih => exact last.ordered ih

theorem Move.ordered (move : Move env occ n n') (ho : Ordered n) : Ordered n' := by
  cases move with
  | calm calm => exact calm.ordered ho
  | record => exact ho.forward rfl (le_refl _)
  | recordLast => exact ho.forward rfl (le_refl _)
  | propose => exact ho.forward rfl (le_refl _)

theorem Moves.ordered (hmo : Moves env occ n n') (ho : Ordered n) : Ordered n' := by
  induction hmo with
  | refl => exact ho
  | tail _ last ih => exact last.ordered ih

theorem Ordered.precommitted (ho : Ordered n) (ans : Answers) (he : n.step < .precommit) :
    Ordered (n.precommitted env ans) := by
  unfold Node.precommitted
  obtain ⟨_, _, _, id, fields⟩ := doPrecommit_fields env ans n.round n
  rw [fields]
  exact ho.cast rfl (position_lt.mpr (.inr ⟨rfl, .inr ⟨rfl, he⟩⟩)) (le_refl _) nofun

/-- The step may go back here, but not behind a vote. -/
theorem Ordered.waited (ho : Ordered n) : Ordered (n.enterPrecommitWait n.height n.round) := by
  refine ⟨ho.sorted, fun v hm => ?_, ho.typed⟩
  rcases position_le.mp (ho.reached v hm) with lower | ⟨height, hea | ⟨round, _⟩⟩
  · exact position_le.mpr (.inl lower)
  · exact position_le.mpr (.inr ⟨height, .inl hea⟩)
  · have hb : v.type.step ≠ .commit := by
      have typed := ho.typed v hm
      revert typed
      cases v.type <;> decide
    exact position_le.mpr (.inr ⟨height, .inr ⟨round, RoundStep.num_le_precommitWait hb⟩⟩)

theorem Entry.ordered (entry : Entry n n') (ho : Ordered n) : Ordered n' := by
  have pos := entry.pos_le
  cases entry with
  | inside => exact ho
  | enter => exact ho.forward rfl pos

theorem Ordered.committed (ho : Ordered n) (c : Saved) (s : State) (precommits : VoteSet) :
    Ordered (n.committed c s precommits) :=
  ho.forward (committed_logs ..).1 (position_le.mpr (.inl (Nat.lt_succ_self _)))

theorem Outcome.ordered (hou : Outcome env occ n n') (hc : n.Coherent)
    (ho : Ordered n) : Ordered n' := by
  refine hou.induction hc (fun _ hmo => hmo.ordered ho)
    (fun ans _ _ he _ hb => hb.precommitted ans he) (fun _ _ entry => entry.ordered)
    (fun _ _ move => move.ordered) (fun a c s precommits _ _ _ hb => ?_) fun _ => Ordered.waited
  exact hb.committed c s precommits

theorem startNode_ordered {s : State} {seenCommit : Commit}
    (hst : startNode env s seenCommit = some n) : Ordered n := by
  obtain ⟨lastCommit, _, rfl⟩ := Option.map_eq_some_iff.mp hst
  dsimp only
  split <;> exact ⟨.nil, nofun, nofun⟩

/-- A vote for each type, height and round. -/
theorem Ordered.eq_of_pos {v w : Vote} (ho : Ordered n) (h1 : v ∈ n.signed)
    (h2 : w ∈ n.signed) (samePos : v.pos = w.pos) : v = w := by
  by_contra different
  have ha : n.signed.Pairwise fun v w => v.pos ≠ w.pos := ho.sorted.imp fun lt => lt.ne'
  have symmetric : Std.Symm fun v w : Vote => v.pos ≠ w.pos := ⟨fun _ _ => Ne.symm⟩
  exact ha.forall h1 h2 different samePos

end

end HNBChain.Audit.Source.Algorand
