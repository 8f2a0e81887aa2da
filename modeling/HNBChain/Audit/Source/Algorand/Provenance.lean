import HNBChain.Audit.Source.Algorand.Invariants

/-!
# Where votes and blocks come from

What a node holds after an event is traced to what it held before and to the votes the event leaves
in its vote sets. A precommit for a block is signed on a majority of such prevotes, and a block is
stored on a majority of such precommits. Both are read from the vote sets in the course of the
event, which need not be those the node ends with: a commit empties them.
-/
namespace HNBChain.Audit.Source.Algorand

open Lib

/-- Votes for the height of the node that it holds or that the event leaves with it. -/
structure Traced (leaves : HeightVoteSet → Prop) (n : Node) (votes : HeightVoteSet) : Prop where
  height : votes.height = n.height
  valSet : votes.valSet = n.validators
  recorded : ∀ r t i v, votes.Recorded r t i v →
    n.votes.Recorded r t i v ∨ ∃ left, leaves left ∧ left.Recorded r t i v

/-- A precommit for a block has a majority of prevotes behind it. -/
def Justified (leaves : HeightVoteSet → Prop) (n : Node) (v : Vote) : Prop :=
  v.type = .precommit → v.blockID.hash ≠ [] → v.height = n.height ∧ ∃ votes, Traced leaves n votes ∧
      votes.majority v.round .prevote = some v.blockID

/-- A node in the course of an event, before it commits a block. -/
structure Within (leaves : HeightVoteSet → Prop) (n m : Node) : Prop where
  height : m.height = n.height
  validators : m.validators = n.validators
  lastCommitState : m.lastCommitState = n.lastCommitState
  saved : m.saved = n.saved
  votes : Traced leaves n m.votes
  signed : ∀ v ∈ m.signed, v ∈ n.signed ∨ Justified leaves n v

/-- A node after an event. A block is stored in its course, which ends the height. -/
structure Accounts (env : Env) (leaves : HeightVoteSet → Prop) (n n' : Node) : Prop where
  recorded : ∀ r t i v, n'.votes.Recorded r t i v →
    n.votes.Recorded r t i v ∨ ∃ left, leaves left ∧ left.Recorded r t i v
  signed : ∀ v ∈ n'.signed, v ∈ n.signed ∨ Justified leaves n v
  stored : n'.saved = n.saved ∨ ∃ m c precommits, Within leaves n m ∧ m.Coherent ∧
    Stored env m c precommits ∧ n'.saved = c :: n.saved ∧ n'.height = n.height + 1 ∧
    n'.lastCommit = some precommits

section

variable {env : Env} {ans : Answers} {occ : Occasion} {leaves : HeightVoteSet → Prop}
  {rounds : Int32 → Prop} {n n' m : Node}

theorem Traced.refl (hc : n.Coherent) : Traced leaves n n.votes :=
  ⟨hc.votesHeight, hc.votesValSet, fun _ _ _ _ held => .inl held⟩

theorem Within.traced (hw : Within leaves n m) {votes : HeightVoteSet}
    (ht : Traced leaves m votes) : Traced leaves n votes where
  height := ht.height.trans hw.height
  valSet := ht.valSet.trans hw.validators
  recorded r t i v held := by
    rcases ht.recorded r t i v held with old | left
    · exact hw.votes.recorded r t i v old
    · exact .inr left

theorem Within.justified (hw : Within leaves n m) {v : Vote}
    (justified : Justified leaves m v) : Justified leaves n v := by
  intro type block
  obtain ⟨height, votes, ht, hr⟩ := justified type block
  exact ⟨height.trans hw.height, votes, hw.traced ht, hr⟩

theorem Within.signed_trans (hw : Within leaves n m)
    (hs : ∀ v ∈ n'.signed, v ∈ m.signed ∨ Justified leaves m v) :
    ∀ v ∈ n'.signed, v ∈ n.signed ∨ Justified leaves n v := by
  intro v hm
  rcases hs v hm with old | new
  · exact hw.signed v old
  · exact .inr (hw.justified new)

theorem Within.trans (h1 : Within leaves n m) (h2 : Within leaves m n') :
    Within leaves n n' where
  height := h2.height.trans h1.height
  validators := h2.validators.trans h1.validators
  lastCommitState := h2.lastCommitState.trans h1.lastCommitState
  saved := h2.saved.trans h1.saved
  votes := h1.traced h2.votes
  signed := h1.signed_trans h2.signed

theorem Within.imp {leaves' : HeightVoteSet → Prop} (hw : Within leaves n m)
    (wider : ∀ votes, leaves votes → leaves' votes) : Within leaves' n m := by
  have ht (votes : HeightVoteSet) (ht : Traced leaves n votes) :
      Traced leaves' n votes := by
    refine ⟨ht.height, ht.valSet, fun r t i v held => ?_⟩
    exact (ht.recorded r t i v held).imp_right fun ⟨left, allowed, held⟩ =>
      ⟨left, wider left allowed, held⟩
  refine { hw with votes := ht _ hw.votes, signed := fun v hm => ?_ }
  refine (hw.signed v hm).imp_right fun justified type block => ?_
  obtain ⟨height, votes, source, hr⟩ := justified type block
  exact ⟨height, votes, ht votes source, hr⟩

/-- Calm moves sign prevotes only. -/
theorem Calms.signed (hca : Calms env rounds n m) : ∀ v ∈ m.signed, v ∈ n.signed ∨
    v.type = .prevote := by
  induction hca with
  | refl => exact fun v hm => .inl hm
  | tail _ last ih =>
    intro v hm
    cases last with
    | quiet quiet => exact ih v (quiet.signed ▸ hm)
    | prevote =>
      rcases List.mem_cons.mp hm with rfl | old
      · exact .inr rfl
      · exact ih v old

theorem justified_of_prevote {v : Vote} (type : v.type = .prevote) : Justified leaves n v :=
  fun hp => absurd (type.symm.trans hp) nofun

theorem Calms.within (hca : Calms env rounds n m) (hc : n.Coherent) :
    Within leaves n m where
  height := hca.still.height
  validators := hca.still.validators
  lastCommitState := hca.still.lastCommitState
  saved := hca.still.saved
  votes := ⟨hca.still.votes.height.trans hc.votesHeight,
    hca.still.votes.valSet.trans hc.votesValSet,
    fun r t i v held => .inl (hca.still.votes.recorded r t i v held)⟩
  signed v member := (hca.signed v member).imp_right justified_of_prevote

theorem Within.refl (hc : n.Coherent) : Within leaves n n :=
  ⟨rfl, rfl, rfl, rfl, .refl hc, fun _ hm => .inl hm⟩

theorem Move.within (move : Move env occ n n') (hc : n.Coherent) :
    Within occ.leaves n n' := by
  have same : Within occ.leaves n n := .refl hc
  cases move with
  | calm calm => exact Calms.within (.single calm) hc
  | record v _ left =>
    refine { same with votes := ⟨?_, ?_, fun r t i v held => .inr ⟨_, left, held⟩⟩ }
    · rw [HeightVoteSet.addVote_height, hc.votesHeight]
    · rw [HeightVoteSet.addVote_valSet, hc.votesValSet]
  | recordLast => exact { same with }
  | propose => exact { same with }

theorem Moves.within (hmo : Moves env occ n n') (hc : n.Coherent) :
    Within occ.leaves n n' := by
  induction hmo with
  | refl => exact .refl hc
  | tail hb last ih => exact ih.trans (last.within (Moves.coherent hb hc))

theorem precommitted_within (hc : n.Coherent) (ans : Answers) :
    Within leaves n (n.precommitted env ans) := by
  have same : Within leaves n n := .refl hc
  unfold Node.precommitted Node.doPrecommit
  -- the vote is for no block, or for the one with the majority
  have nil (m : Node) (hs : m.signed = n.signed) : ∀ v ∈ (m.applyAddVote env ans .precommit
      .zero).signed, v ∈ n.signed ∨ Justified leaves n v := by
    intro v hm
    rcases List.mem_cons.mp hm with rfl | old
    · exact .inr fun _ block => absurd rfl block
    · exact .inl (hs ▸ old)
  cases reached : n.votes.majority n.round .prevote with
  | none => exact { same with signed := nil n rfl }
  | some id =>
    dsimp only
    split_ifs with empty proposed
    · exact { same with signed := nil n rfl }
    · refine { same with signed := fun v hm => ?_ }
      rcases List.mem_cons.mp hm with rfl | old
      · exact .inr fun _ _ => ⟨rfl, n.votes, .refl hc, reached⟩
      · exact .inl old
    · exact { same with signed := nil n.unlock rfl }

theorem Advance.within (ha : Advance env occ n n') (hc : n.Coherent) :
    Within occ.leaves n n' := by
  cases ha with
  | moved hmo => exact hmo.within hc
  | precommitted ans hb _ _ haf =>
    have hr := hb.coherent hc
    exact (hb.within hc).trans ((precommitted_within hr ans).trans
      (haf.within (hr.precommitted ans)))

theorem Entry.within (entry : Entry n n') (hc : n.Coherent) : Within leaves n n' := by
  have same : Within leaves n n := .refl hc
  cases entry with
  | inside => exact same
  | enter => exact { same with }

theorem Within.accounts (hw : Within leaves n m) : Accounts env leaves n m :=
  ⟨hw.votes.recorded, hw.signed, .inl hw.saved⟩

theorem Finish.accounts (hf : Finish env m n') (hw : Within leaves n m)
    (hc : m.Coherent) : Accounts env leaves n n' := by
  have inside {a : Node} (hmo : Moves env .rest m a) : Within leaves n a :=
    hw.trans ((hmo.within hc).imp fun _ => False.elim)
  cases hf with
  | moved hmo _ => exact (inside hmo).accounts
  | crashed hb hre stuck =>
    obtain ⟨s', state, _⟩ := updateState_succeeds (hb.coherent hc) hre
    cases stuck.symm.trans state
  | @committed a _ _ _ _ c _ _ hb hre state haf =>
    have hr := hb.coherent hc
    obtain ⟨precommits, hst, _, same⟩ := hre.committed hr state
    obtain ⟨hs, _, saved⟩ := committed_logs a c _ precommits
    rw [same] at haf
    refine ⟨fun r t i v held => ?_, ?_, .inr ⟨a, c, precommits, inside hb, hr, hst, ?_,
      ?_, haf.still.lastCommit⟩⟩
    · exact absurd (haf.still.votes.recorded r t i v held) HeightVoteSet.not_recorded_new
    · refine (inside hb).signed_trans fun v hm => ?_
      exact (haf.signed v hm).imp (fun old => hs ▸ old) justified_of_prevote
    · rw [haf.still.saved, saved, (inside hb).saved]
    · exact haf.still.height.trans (congrArg (· + 1) (inside hb).height)

theorem Outcome.accounts (ho : Outcome env occ n n') (hc : n.Coherent) :
    Accounts env occ.leaves n n' := by
  cases ho with
  | waited hb _ =>
    have hw := hb.within hc
    exact ⟨hw.votes.recorded, hw.signed, .inl hw.saved⟩
  | acted act =>
    cases act with
    | advanced ha => exact (ha.within hc).accounts
    | finished hb entry hf =>
      have hr := hb.coherent hc
      exact hf.accounts ((hb.within hc).trans (entry.within hr))
        (entry.coherent hr)

end

end HNBChain.Audit.Source.Algorand
