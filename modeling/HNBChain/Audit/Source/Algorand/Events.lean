import HNBChain.Audit.Source.Algorand.Moves

/-!
# What an event does

One lemma per handler, ending in `deliver_outcome`: every event but a reset is a sequence of moves
with at most one precommit after them, and then perhaps an attempt to commit or the call of
`enterPrecommitWait`. That function sets the step also when its guard rejects the call, so it is the
one place where the step may go back.

A node stops in the step `Commit` only in the last round there is: a commit that fails otherwise
enters the next round.
-/
namespace HNBChain.Audit.Source.Algorand

open Lib Node

/-! ## The shape of an event -/

/-- The checks of `finalizeCommit` are passed and the block was executed. -/
structure Committing (env : Env) (ans : Answers) (n : Node) (id : BlockID) (block : Block)
    (saved : Saved) (s : State) : Prop where
  step : n.step = .commit
  majority : n.votes.majority n.commitRound .precommit = some id
  proposal : n.proposalBlock = some block
  header : PartSet.hasHeader n.proposalBlockParts id.partsHeader
  hash : Block.hashesTo env.digests (some block) id.hash
  saved : n.saveBlock env ans block = .ok (saved, s)

/-- The identity under which the block enters the next state. -/
def Node.committedID (env : Env) (n : Node) (block : Block) : BlockID :=
  ⟨block.hash env.digests, PartSet.header n.proposalBlockParts⟩

def Node.withSaved (n : Node) (saved : Saved) : Node := { n with saved := saved :: n.saved }

def Node.unlockAny (n : Node) : Node := if n.lockedBlock.isSome then n.unlock else n

/-- A node does not stay in `Commit`, unless it has stopped or there is no next round. -/
def Node.Rests (n : Node) : Prop := n.step = .commit → n.halted ∨ n.round = Int32.maxValue

/-- The step `Commit` is entered, or the node is in it already. -/
inductive Entry : Node → Node → Prop where
  | inside {n : Node} (step : n.step = .commit) : Entry n n
  | enter {n : Node} (commitRound : Int32) (block : Option Block) (parts : Option PartSet) :
      Entry n { n with
        step := .commit
        commitRound := commitRound
        proposalBlock := block
        proposalBlockParts := parts }

/-- What becomes of an attempt to commit. -/
inductive Finish (env : Env) (n : Node) : Node → Prop where
  | moved {n' : Node} (moves : Moves env .rest n n') (rests : n'.Rests) : Finish env n n'
  | crashed {m : Node} {ans : Answers} {id : BlockID} {block : Block} {saved : Saved} {s : State}
      (before : Moves env .rest n m) (ready : Committing env ans m id block saved s)
      (stuck : updateState s (m.committedID env block) block.header = none) :
      Finish env n (m.withSaved saved).halt
  | committed {m n' : Node} {ans : Answers} {id : BlockID} {block : Block} {saved : Saved}
      {s s' : State} (before : Moves env .rest n m) (ready : Committing env ans m id block saved s)
      (state : updateState s (m.committedID env block) block.header = some s')
      (after : Calms env (· = 0) ((m.withSaved saved).unlockAny.updateToState s') n') :
      Finish env n n'

inductive Act (env : Env) (occ : Occasion) (n : Node) : Node → Prop where
  | advanced {n' : Node} (advance : Advance env occ n n') : Act env occ n n'
  | finished {a b n' : Node} (before : Advance env occ n a) (entry : Entry a b)
      (finish : Finish env b n') : Act env occ n n'

inductive Outcome (env : Env) (occ : Occasion) (n : Node) : Node → Prop where
  | acted {n' : Node} (act : Act env occ n n') : Outcome env occ n n'
  | waited {m : Node} (before : Advance env occ n m) (running : ¬ m.halted) :
      Outcome env occ n (m.enterPrecommitWait m.height m.round)

section

variable {env : Env} {ans : Answers} {occ : Occasion} {n m : Node} {height : Nat} {round : Int32}

variable {n' : Node} {f : Node → Node} {vote : Vote}

theorem Finish.after_moves (hbe : Moves env .rest n m) (hf : Finish env m n') :
    Finish env n n' := by
  cases hf with
  | moved hm rests => exact .moved (hbe.trans hm) rests
  | crashed more hra stuck => exact .crashed (hbe.trans more) hra stuck
  | committed more hra state haf => exact .committed (hbe.trans more) hra state haf

theorem Finish.next (hf : Finish env n m) (more : Calms env (· = 0) m (f m)) :
    Finish env n (m.next f) := by
  unfold Node.next
  split
  · exact hf
  · rename_i running
    generalize f m = n' at more
    cases hf with
    | moved hm rests =>
      refine .moved (hm.trans more.moves) fun commit => .inr ?_
      rcases more.still.step with ⟨step, round⟩ | ⟨_, hn⟩
      · rw [round]
        exact (rests (step ▸ commit)).resolve_left running
      · exact absurd commit hn
    | crashed => exact absurd rfl running
    | committed hbe hra state haf => exact .committed hbe hra state (haf.trans more)

theorem Advance.after_moves (hbe : Moves env occ n m) (had : Advance env occ m n') :
    Advance env occ n n' := by
  cases had with
  | moved hm => exact .moved (hbe.trans hm)
  | precommitted ans more hea ha haf =>
    exact .precommitted ans (hbe.trans more) hea ha haf

theorem Act.after_moves (hbe : Moves env occ n m) (act : Act env occ m n') :
    Act env occ n n' := by
  cases act with
  | advanced had => exact .advanced (had.after_moves hbe)
  | finished more entry hf => exact .finished (more.after_moves hbe) entry hf

theorem Outcome.after_moves (hbe : Moves env occ n m) (ho : Outcome env occ m n') :
    Outcome env occ n n' := by
  cases ho with
  | acted act => exact .acted (act.after_moves hbe)
  | waited more hr => exact .waited (more.after_moves hbe) hr

theorem Advance.calms (zero : occ.rounds 0) (had : Advance env occ n m)
    (more : Calms env (· = 0) m n') : Advance env occ n n' := by
  cases had with
  | moved hm => exact .moved (hm.trans (more.mono fun _ same => same ▸ zero).moves)
  | precommitted ans hbe hea ha haf =>
    exact .precommitted ans hbe hea ha (haf.trans more)

theorem Act.next (zero : occ.rounds 0) (act : Act env occ n m)
    (more : Calms env (· = 0) m (f m)) : Act env occ n (m.next f) := by
  cases act with
  | advanced had =>
    exact next_induction (fun _ => .advanced had) fun _ => .advanced (had.calms zero more)
  | finished hbe entry hf => exact .finished hbe entry (hf.next more)

theorem Act.moved (hm : Moves env occ n n') : Act env occ n n' := .advanced (.moved hm)

theorem Outcome.moved (hm : Moves env occ n n') : Outcome env occ n n' :=
  .acted (.moved hm)

theorem Outcome.waited_at (hbe : Advance env occ n m) (hr : ¬ m.halted)
    (here : m.height = height) (hth : m.round = round) :
    Outcome env occ n (m.enterPrecommitWait height round) := by
  subst here hth
  exact .waited hbe hr

theorem Outcome.next (h1 : Moves env occ n m)
    (h2 : ¬ m.halted → Outcome env occ m (f m)) : Outcome env occ n (m.next f) :=
  next_induction (fun _ => .moved h1) fun hr => .after_moves h1 (h2 hr)

/-! ## The round after a call -/

theorem enterPrevote_round (ht : Timely n height round) :
    (n.enterPrevote env ans height round).round = n.round := by
  unfold enterPrevote
  split
  · rfl
  · rename_i open_
    obtain ⟨_, rfl, _⟩ := ht.round_eq open_
    unfold defaultDoPrevote
    split_ifs
    · rfl
    · cases n.prevoteID env with
      | none => rfl
      | some id => rfl

theorem enterPropose_round (ht : Timely n height round) :
    (n.enterPropose env ans height round).round = n.round := by
  unfold enterPropose
  split
  · rfl
  · rename_i open_
    obtain ⟨rfl, rfl, _⟩ := ht.round_eq open_
    refine next_induction (motive := fun m => m.round = n.round) (fun _ => ?_) fun _ => ?_
    · obtain ⟨_, _, fields⟩ : ∃ queue halted, proposeBlock env ans n.height n.round
            ({ n with tryProposalTimes := 0 }.scheduleTimeout n.height n.round .propose) =
          { { n with tryProposalTimes := 0 }.scheduleTimeout n.height n.round .propose with
            internalMsgQueue := queue, halted := halted } := proposeBlock_fields
      rw [fields]
      rfl
    dsimp only
    split
    · exact enterPrevote_round fun _ => Int32.le_refl _
    · rfl

theorem dealNewRound_round : (n.dealNewRound env ans).round = n.round := by
  have he : (n.enterPropose env ans n.height n.round).round = n.round :=
    enterPropose_round fun _ => Int32.le_refl _
  unfold dealNewRound
  split
  · split
    · exact he
    · rfl
  · split
    · rfl
    · exact he

/-- Unless it stops, a node comes to the round that is called for. -/
theorem enterNewRound_round (hrc : n.round ≤ round)
    (hr : ¬ (n.enterNewRound env ans n.height round).halted) :
    (n.enterNewRound env ans n.height round).round = round := by
  revert hr
  unfold enterNewRound
  split
  · rename_i closed
    rcases closed with other | hl | ⟨same, _⟩
    · exact absurd rfl other
    · exact absurd hl (Int32.not_lt.mpr hrc)
    · exact fun _ => same
  · split
    · exact fun hr => absurd rfl hr
    · obtain ⟨m, hst, hth, _⟩ := newRound_start n round
      dsimp only
      rw [hst]
      exact fun _ => next_induction (motive := fun m => m.round = round) (fun _ => hth)
        fun _ => dealNewRound_round.trans hth

theorem enterPrecommit_height_round (ht : Timely n height round) :
    (n.enterPrecommit env ans height round).height = n.height ∧
      (n.enterPrecommit env ans height round).round = n.round := by
  unfold enterPrecommit
  split
  · exact ⟨rfl, rfl⟩
  · rename_i open_
    exact ⟨doPrecommit_height, (ht.round_eq open_).2.1⟩

/-! ## Commit -/

/-- The outcomes of `ApplyBlock`: a panic, a refusal, a panic after the block was stored,
success. -/
theorem applyBlock_cases (env : Env) (ans : Answers) (n : Node) (block : Block) :
    n.applyBlock env ans block = (none, n.halt) ∨ n.applyBlock env ans block = (none, n) ∨
      ∃ saved s, n.saveBlock env ans block = .ok (saved, s) ∧
        (updateState s (n.committedID env block) block.header = none ∧
            n.applyBlock env ans block = (none, (n.withSaved saved).halt) ∨
          ∃ s', updateState s (n.committedID env block) block.header = some s' ∧
            n.applyBlock env ans block = (some s', (n.withSaved saved).unlockAny)) := by
  unfold applyBlock
  cases done : n.saveBlock env ans block with
  | error e =>
    cases e with
    | panic => exact .inl rfl
    | _ => exact .inr (.inl rfl)
  | ok result =>
    obtain ⟨saved, s⟩ := result
    refine .inr (.inr ⟨saved, s, rfl, ?_⟩)
    dsimp only
    rw [show (⟨block.hash env.digests, PartSet.header n.proposalBlockParts⟩ : BlockID) =
      n.committedID env block from rfl]
    cases state : updateState s (n.committedID env block) block.header with
    | none => exact .inl ⟨rfl, rfl⟩
    | some s' => exact .inr ⟨s', rfl, rfl⟩

theorem lt_round_succ {r : Int32} (more : r ≠ Int32.maxValue) : r < r + 1 := by
  have bound := r.toInt_lt
  have low := r.le_toInt
  have short : r.toInt ≠ 2 ^ 31 - 1 := fun eq => more (Int32.toInt_inj.mp eq)
  rw [Int32.lt_iff_toInt_lt, Int32.toInt_add, Int32.toInt_one,
    Int.bmod_eq_of_le (by omega) (by omega)]
  omega

/-- The next round is entered from every round but the last. -/
theorem enterNewRound_rests : (n.enterNewRound env ans n.height (n.round + 1)).Rests := by
  unfold enterNewRound
  split
  · rename_i closed
    intro _
    refine .inr (not_not.mp fun more => ?_)
    have grows := lt_round_succ more
    rcases closed with other | back | ⟨same, _⟩
    · exact other rfl
    · exact absurd (Int32.le_of_lt grows) (Int32.not_le.mpr back)
    · exact Int32.ne_of_lt grows same
  · split
    · exact fun _ => .inl rfl
    · obtain ⟨m, hst, _, step, _⟩ := newRound_start n (n.round + 1)
      have dealt : Calms env (fun _ => True) m (m.dealNewRound env ans) :=
        dealNewRound_calms fun _ => trivial
      have hn : m.step ≠ .commit := step ▸ nofun
      dsimp only
      rw [hst]
      exact fun commit => absurd commit (next_induction (motive := fun m => m.step ≠ .commit)
        (fun _ => hn) fun _ => dealt.still.not_commit hn)

theorem Finish.halt (n : Node) : Finish env n n.halt :=
  .moved (Moves.of_quiet (.halt n)) fun _ => .inl rfl

theorem Finish.enterNewRound (n : Node) :
    Finish env n (n.enterNewRound env ans n.height (n.round + 1)) :=
  have he : Calms env (· = 0) n (n.enterNewRound env ans n.height (n.round + 1)) :=
    enterNewRound_calms rfl
  .moved he.moves enterNewRound_rests

theorem finalizeCommit_finish (here : n.height = height) :
    Finish env n (n.finalizeCommit env ans height) := by
  subst here
  unfold finalizeCommit
  split
  · rename_i elsewhere
    have step : n.step ≠ .commit := elsewhere.resolve_left fun other => other rfl
    exact .moved .refl fun commit => absurd commit step
  · rename_i here
    have step : n.step = .commit := not_not.mp (not_or.mp here).2
    split
    · rename_i id block majority proposal
      split
      · exact .halt n
      · rename_i header
        split
        · exact .halt n
        · rename_i hash
          rcases applyBlock_cases env ans n block with
            panicked | refused | ⟨saved, s, done, ⟨stuck, crashed⟩ | ⟨s', state, applied⟩⟩
          · rw [panicked]
            exact next_induction (fun _ => .halt n) fun hr => absurd rfl hr
          · rw [refused]
            exact next_induction (fun hh => .moved .refl fun _ => .inl hh)
              fun _ => .enterNewRound n
          · rw [crashed]
            have hra : Committing env ans n id block saved s :=
              ⟨step, majority, proposal, not_not.mp header, not_not.mp hash, done⟩
            exact next_induction (fun _ => .crashed .refl hra stuck)
              fun hr => absurd rfl hr
          · rw [applied]
            have hra : Committing env ans n id block saved s :=
              ⟨step, majority, proposal, not_not.mp header, not_not.mp hash, done⟩
            exact .committed .refl hra state (Calms.next .refl fun _ => scheduleRound0_calms rfl)
    · exact .halt n

theorem tryFinalizeCommit_finish (here : n.height = height) :
    Finish env n (n.tryFinalizeCommit env ans height) := by
  subst here
  unfold tryFinalizeCommit
  rw [if_neg (not_not.mpr rfl)]
  -- the rest of the call, from any node at this height
  have rest (m : Node) (hash : Bytes) (here : m.height = n.height) : Finish env m
      (if Block.hashesTo env.digests m.proposalBlock hash then m.finalizeCommit env ans n.height
        else if Block.hashesTo env.digests m.lockedBlock hash then
          { m with proposalBlock := m.lockedBlock }.finalizeCommit env ans n.height
        else (m.enterNewRound env ans m.height (m.round + 1)).next fun m =>
          m.finalizeCommit env ans n.height) := by
    split
    · exact finalizeCommit_finish here
    · split
      · have hta : Moves env .rest m { m with proposalBlock := m.lockedBlock } :=
          .single (.propose m.proposal m.lockedBlock m.proposalBlockParts (.inr trivial))
        exact .after_moves hta (finalizeCommit_finish here)
      · have he : Calms env (· = 0) m (m.enterNewRound env ans m.height (m.round + 1)) :=
          enterNewRound_calms rfl
        exact next_induction (fun _ => .enterNewRound m) fun _ =>
          .after_moves he.moves (finalizeCommit_finish (he.still.height.trans here))
  have he : Calms env (· = 0) n (n.enterNewRound env ans n.height (n.round + 1)) :=
    enterNewRound_calms rfl
  dsimp only
  split
  · exact next_induction (fun _ => .enterNewRound n)
      fun _ => .after_moves he.moves (rest _ _ he.still.height)
  · exact next_induction (fun hh => .moved .refl fun _ => .inl hh)
      fun _ => rest n _ rfl

theorem enterCommit_act (zero : occ.rounds 0) (hbe : Advance env occ n m) :
    Act env occ n (m.enterCommit env ans height round) := by
  unfold enterCommit
  split
  · exact .advanced hbe
  · rename_i open_
    have here : m.height = height := not_not.mp (not_or.mp open_).1
    split
    · exact .advanced (hbe.calms zero (.halt m))
    · split
      · exact .finished hbe (.enter round none _) (tryFinalizeCommit_finish here)
      · exact .finished hbe (.enter round m.proposalBlock m.proposalBlockParts)
          (tryFinalizeCommit_finish here)

/-! ## Votes -/

/-- After `enterNewRound` a vote may be cast in the round it was called for. -/
theorem enterNewRound_timely (hr : ¬ (n.enterNewRound env ans n.height round).halted) :
    Timely (n.enterNewRound env ans n.height round) n.height round := by
  intro _
  have he : Calms env (· = 0) n (n.enterNewRound env ans n.height round) :=
    enterNewRound_calms rfl
  by_cases reached : n.round ≤ round
  · rw [enterNewRound_round reached hr]
    exact Int32.le_refl _
  · exact Int32.le_trans (Int32.le_of_lt (Int32.not_le.mp reached)) he.still.round_le

/-- What follows the jump to a later round. -/
theorem afterPrevote_rest {prevotes : VoteSet} (zero : occ.rounds 0)
    (here : n.height = height) (round : occ.rounds n.round) (hth : occ.rounds vote.round)
    (ha : ∀ m, Calms env occ.rounds n m → m.round = vote.round → occ.precommits m) :
    Advance env occ n (if n.round ≤ vote.round ∧ prevotes.hasTwoThirdsAny then
        (n.enterNewRound env ans height vote.round).next fun n =>
          if prevotes.maj23.isSome then n.enterPrecommit env ans height vote.round
          else (n.enterPrevote env ans height vote.round).next (enterPrevoteWait height vote.round)
      else
        match n.proposal with
        | none => n
        | some proposal =>
          if 0 ≤ proposal.polRound ∧ proposal.polRound = vote.round ∧ n.isProposalComplete then
            n.enterPrevote env ans height n.round
          else n) := by
  subst here
  split
  · rename_i ahead
    have he : Calms env occ.rounds n (n.enterNewRound env ans n.height vote.round) :=
      enterNewRound_calms zero
    refine next_induction (fun _ => .moved he.moves) fun hr => ?_
    have ht := enterNewRound_timely hr
    split
    · exact (enterPrecommit_advance ht (ha _ he)).after_moves he.moves
    · have same := enterNewRound_round ahead.1 hr
      refine .moved (he.moves.trans (Calms.moves
        (Calms.next ?_ fun _ => enterPrevoteWait_calms)))
      exact enterPrevote_calms ht (same.symm ▸ hth)
  · split
    · exact .moved .refl
    · split
      · exact .moved (enterPrevote_calms (fun _ => Int32.le_refl _) round).moves
      · exact .moved .refl

theorem afterPrevote_advance {prevotes : VoteSet} (zero : occ.rounds 0)
    (here : occ.rounds n.round) (hth : occ.rounds vote.round)
    (ha : ∀ m, Calms env occ.rounds n m → m.round = vote.round → occ.precommits m) :
    Advance env occ n (n.afterPrevote env ans vote prevotes) := by
  unfold afterPrevote
  split
  · rename_i ahead
    have he : Calms env occ.rounds n (n.enterNewRound env ans n.height vote.round) :=
      enterNewRound_calms zero
    refine next_induction (fun _ => .moved he.moves) fun hr => ?_
    have same := enterNewRound_round (Int32.le_of_lt ahead.1) hr
    exact (afterPrevote_rest zero he.still.height (same.symm ▸ hth) hth
      fun m hca => ha m (he.trans hca)).after_moves he.moves
  · exact next_induction (fun _ => .moved .refl) fun _ =>
      afterPrevote_rest zero rfl here hth ha

theorem afterPrecommit_outcome {precommits : VoteSet} (zero : occ.rounds 0)
    (ha : ∀ m, Calms env occ.rounds n m → m.round = vote.round → occ.precommits m) :
    Outcome env occ n (n.afterPrecommit env ans vote precommits) := by
  have he : Calms env occ.rounds n (n.enterNewRound env ans n.height vote.round) :=
    enterNewRound_calms zero
  have hp : Advance env occ n ((n.enterNewRound env ans n.height vote.round).next
      (enterPrecommit env ans n.height vote.round)) :=
    next_induction (fun _ => .moved he.moves) fun hr =>
      (enterPrecommit_advance (enterNewRound_timely hr)
        (ha _ he)).after_moves he.moves
  unfold afterPrecommit
  split
  · split
    · exact .moved (enterNewRound_calms zero).moves
    · have hco : Act env occ n (((n.enterNewRound env ans n.height vote.round).next
          (enterPrecommit env ans n.height vote.round)).next
          (enterCommit env ans n.height vote.round)) :=
        next_induction (fun _ => .advanced hp) fun _ =>
          enterCommit_act zero hp
      refine .acted (hco.next zero ?_)
      split
      · exact enterNewRound_calms rfl
      · exact .refl
  · split
    · rename_i ahead
      refine next_induction (fun _ => .acted (.advanced hp)) fun hr => ?_
      have entering : ¬ (n.enterNewRound env ans n.height vote.round).halted := fun hh =>
        hr (by rwa [next, if_pos hh])
      have ht := enterNewRound_timely entering
      refine .waited_at hp hr ?_ ?_
      · rw [next, if_neg entering]
        exact (enterPrecommit_height_round ht).1.trans he.still.height
      · rw [next, if_neg entering]
        exact (enterPrecommit_height_round ht).2.trans (enterNewRound_round ahead.1 entering)
    · exact .moved .refl

theorem addLastVote_moves (zero : occ.rounds 0) (hb : occ.carries vote) :
    Moves env occ n (n.addLastVote env ans vote) := by
  unfold addLastVote
  split
  · exact .refl
  · split
    · exact (Calms.halt n).moves
    · rename_i lastCommit held
      have hre : Moves env occ n { n with lastCommit := some (lastCommit.addVote vote).2 } :=
        .single (.recordLast vote lastCommit hb held)
      dsimp only
      split_ifs
      · exact (Calms.halt n).moves
      · exact hre.trans (enterNewRound_calms zero).moves
      · exact hre

/-- The node with vote sets up to the round of the vote. -/
def Node.tracked (vote : Vote) (n : Node) : Node :=
  if n.round < vote.round then n.setRound vote.round else n

/-- The node with the vote in its vote set. -/
def Node.recorded (vote : Vote) (n : Node) : Node :=
  (n.tracked vote).next fun n => { n with votes := (n.votes.addVote vote).2 }

theorem tracked_round (n : Node) (vote : Vote) : (n.tracked vote).round = n.round := by
  unfold tracked setRound
  split_ifs <;> rfl

theorem tracked_quiet (vote : Vote) : Quiet n (n.tracked vote) := by
  unfold tracked
  split
  · exact .setRound n _
  · exact .refl n

theorem addCurrentVote_outcome (zero : occ.rounds 0) (here : occ.rounds n.round)
    (hth : occ.rounds vote.round) (hb : occ.carries vote)
    (left : occ.leaves (n.votes.addVote vote).2)
    (ha : ∀ m, Calms env occ.rounds { n with votes := (n.votes.addVote vote).2 } m →
      m.round = vote.round → occ.precommits m) :
    Outcome env occ n (n.addCurrentVote env ans vote) := by
  have hre : Moves env occ n { n with votes := (n.votes.addVote vote).2 } :=
    .single (.record vote hb left)
  unfold addCurrentVote
  dsimp only
  split
  · exact .moved (Calms.halt n).moves
  · split
    · split
      · refine .acted (.advanced (.after_moves hre ?_))
        exact afterPrevote_advance zero here hth ha
      · exact .after_moves hre (afterPrecommit_outcome zero ha)
      · exact .moved hre
    · exact .moved hre

theorem addVote_outcome (zero : occ.rounds 0) (here : occ.rounds n.round)
    (hth : occ.rounds vote.round) (hb : occ.carries vote)
    (left : occ.leaves (n.recorded vote).votes)
    (ha : ∀ m, Calms env occ.rounds (n.recorded vote) m → m.round = vote.round →
      occ.precommits m) : Outcome env occ n (n.addVote env ans vote) := by
  change Outcome env occ n ((n.tracked vote).next _)
  refine Outcome.next (Moves.of_quiet (tracked_quiet vote)) fun hr => ?_
  rw [recorded, next, if_neg hr] at left ha
  split
  · exact .moved (addLastVote_moves zero hb)
  · split
    · exact .moved .refl
    · exact addCurrentVote_outcome zero (tracked_round n vote ▸ here) hth hb left ha

/-! ## Proposals, parts and timeouts -/

theorem setProposal_moves {proposal : Proposal} : Moves env occ n (n.setProposal proposal) := by
  unfold setProposal
  split_ifs
  · exact .refl
  · exact .refl
  · exact .refl
  · exact .single (.propose (some proposal) n.proposalBlock _ (.inl rfl))

theorem handleOuterProposalMsg_moves {sender : Bytes} {proposal : Proposal} :
    Moves env occ n (n.handleOuterProposalMsg ans sender proposal) := by
  unfold handleOuterProposalMsg
  split
  · exact setProposal_moves
  · exact (Calms.halt n).moves
  · exact (Calms.halt n).moves
  · split
    · exact .refl
    · exact setProposal_moves

/-- The block that the part completes. -/
def Node.completed (env : Env) (n : Node) (part : Part) : Option Block :=
  n.proposalBlockParts.bind fun ps =>
    match env.decodeBlock { ps with
      parts := Function.update ps.parts part.index (some part), count := ps.count + 1 }.content with
    | .block b => some (b.hashed env.digests)
    | _ => none

theorem completeProposal_act {parts : PartSet} (here : n.height = height)
    (round : occ.rounds n.round) (hc : ∀ b, env.decodeBlock parts.content = .block b →
      occ.completes (some (b.hashed env.digests))) :
    Act env occ n (n.completeProposal env ans height parts) := by
  unfold completeProposal
  split
  · exact .moved .refl
  · exact .moved (Calms.halt n).moves
  · split
    · exact .moved .refl
    · exact .moved (Calms.halt n).moves
  · rename_i b decoded
    split
    · exact .moved (Calms.halt n).moves
    · exact .moved .refl
    · have held : Moves env occ n { n with proposalBlock := some (b.hashed env.digests) } :=
        .single (.propose n.proposal (some (b.hashed env.digests)) n.proposalBlockParts
          (.inr (hc b decoded)))
      dsimp only
      split
      · refine .moved (held.trans (Calms.moves ?_))
        exact enterPrevote_calms (fun _ => Int32.le_refl _) round
      · split
        · rename_i step
          exact .finished (.moved held) (.inside step) (tryFinalizeCommit_finish here)
        · exact .moved held

theorem addProposalBlockPart_act {part : Part} (round : occ.rounds n.round)
    (hc : ∀ b, n.completed env part = some b → occ.completes (some b)) :
    Act env occ n (n.addProposalBlockPart env ans height part) := by
  unfold addProposalBlockPart
  split
  · exact .moved .refl
  · rename_i here
    split
    · exact .moved .refl
    · split
      · exact .moved .refl
      · dsimp only
        rename_i ps held _
        have hae : Moves env occ n { n with proposalBlockParts := some { ps with
            parts := Function.update ps.parts part.index (some part), count := ps.count + 1 } } :=
          .single (.propose n.proposal n.proposalBlock _ (.inl rfl))
        split
        · refine .after_moves hae (completeProposal_act (not_not.mp here) round
            fun b hd => ?_)
          refine hc _ ?_
          rw [completed, held, Option.bind_some, hd]
        · exact .moved hae

theorem withMutex_outcome (inner : Outcome env occ n (f n)) :
    Outcome env occ n (n.withMutex f) := by
  unfold withMutex
  split
  · exact .moved (Calms.halt n).moves
  · exact inner

theorem handleTimeout_outcome {ti : TimeoutInfo} (hr : ¬ n.halted)
    (ht : Timely n ti.height ti.round) (zero : occ.rounds 0) (round : occ.rounds n.round)
    (ha : occ.precommits n) : Outcome env occ n (n.handleTimeout env ans ti) := by
  unfold handleTimeout
  split
  · exact .moved .refl
  · rename_i late
    simp only [not_or, not_not] at late
    obtain ⟨here, hrc, _⟩ := late
    have same : ti.round = n.round := Int32.le_antisymm (ht here.symm) (Int32.not_lt.mp hrc)
    refine withMutex_outcome ?_
    split
    · exact .moved (enterNewRound_calms zero).moves
    · exact .moved (enterPropose_calms ht fun _ => round).moves
    · exact .moved (enterPrevote_calms ht round).moves
    · exact .moved enterPrevoteWait_calms.moves
    · exact .acted (.advanced (enterPrecommit_advance ht fun _ => ha))
    · exact .waited_at (.moved .refl) hr here.symm same.symm
    · exact .moved (enterNewRound_calms zero).moves
    · exact .moved .refl

theorem handleTxsAvailable_outcome (hs : 0 ≤ n.round) (round : occ.rounds n.round) :
    Outcome env occ n (n.handleTxsAvailable env ans height) := by
  refine withMutex_outcome ?_
  split
  · exact .moved (enterPropose_calms (fun _ => hs) fun _ => round).moves
  · exact .moved .refl

theorem handleVoteSetMaj23Msg_outcome {type : VoteType} :
    Outcome env occ n (n.handleVoteSetMaj23Msg env height round type) := by
  refine withMutex_outcome (.moved (Moves.of_quiet ?_))
  dsimp only
  split
  · exact .of_update _ rfl (.refl _)
  · exact .of_update _ rfl (.setPeerMaj23 ..)

end

/-! ## Delivery -/

/-- The vote that the event brings to the node. -/
def Event.carries (n : Node) : Event → Vote → Prop
  | .peer _ (.vote v), w => w = v
  | .internal i, w => n.internalMsgQueue[i]? = some (.vote w)
  | _, _ => False

def Event.carried (n : Node) : Event → Option Vote
  | .peer _ (.vote v) => some v
  | .internal i =>
    match n.internalMsgQueue[i]? with
    | some (.vote v) => some v
    | _ => none
  | _ => none

/-- The node with the vote of the event in its vote set. -/
def Event.recorded (n : Node) : Event → Node
  | .peer _ (.vote v) => n.recorded v
  | .internal i =>
    match n.internalMsgQueue[i]? with
    | some (.vote v) => { n with internalMsgQueue := n.internalMsgQueue.eraseIdx i }.recorded v
    | _ => { n with internalMsgQueue := n.internalMsgQueue.eraseIdx i }
  | _ => n

/-- The block that the event completes. -/
def Event.completed (env : Env) (n : Node) : Event → Option Block
  | .peer _ (.blockPart _ part) => n.completed env part
  | .internal i =>
    match n.internalMsgQueue[i]? with
    | some (.blockPart _ part) => n.completed env part
    | _ => none
  | _ => none

/-- The round of the node and that of the vote. -/
def Event.turns (n : Node) (e : Event) (r : Int32) : Prop :=
  r = n.round ∨ ∃ v, e.carries n v ∧ r = v.round

/-- The rounds an event may lead to a prevote in: those two, and round 0 of the next height. -/
def Event.rounds (n : Node) (e : Event) (r : Int32) : Prop := r = 0 ∨ e.turns n r

/-- What each event gives to the node it is delivered to. -/
def Event.occasion (env : Env) (n : Node) (e : Event) : Occasion where
  carries := e.carries n
  leaves := (· = (e.recorded n).votes)
  rounds := e.rounds n
  precommits m := Calms env (e.rounds n) (e.recorded n) m ∧ e.turns n m.round
  completes b := e.completed env n = b

/-- Timeouts are for rounds that were reached, and rounds are counted from 0. -/
structure Node.Timed (n : Node) : Prop where
  round : 0 ≤ n.round
  scheduled : ∀ ti ∈ n.scheduled, Timely n ti.height ti.round

instance (e : Event) : Decidable (e = .reset) :=
  match e with
  | .reset => .isTrue rfl
  | .peer .. => .isFalse nofun
  | .internal _ => .isFalse nofun
  | .timeout _ => .isFalse nofun
  | .txsAvailable _ => .isFalse nofun

variable {env : Env} {ans : Answers} {n : Node}

theorem Event.carries_iff {e : Event} {v : Vote} : e.carries n v ↔ e.carried n = some v := by
  cases e with
  | peer sender msg =>
    cases msg with
    | vote w => exact ⟨fun same => congrArg some same.symm, fun same => (Option.some.inj same).symm⟩
    | _ => exact ⟨nofun, nofun⟩
  | internal i =>
    dsimp only [Event.carries, Event.carried]
    rcases n.internalMsgQueue[i]? with _ | _ | _ | _ <;> simp
  | _ => exact ⟨nofun, nofun⟩

theorem Node.recorded_votes {vote v : Vote} {r : Int32} {t : VoteType} {i : Nat}
    (held : (n.recorded vote).votes.Recorded r t i v) :
    n.votes.Recorded r t i v ∨ v = vote ∧ v.validatorIndex = i := by
  have htr := (tracked_quiet vote (n := n)).votes.recorded
  unfold recorded next at held
  split at held
  · exact .inl (htr r t i v held)
  · rcases HeightVoteSet.addVote_recorded held with old | ⟨rfl, index⟩
    · exact .inl (htr r t i v old)
    · exact .inr ⟨rfl, index⟩

/-- What is new in the vote sets is the vote that the event carries, under the index it names. -/
theorem Event.recorded_votes {e : Event} {v : Vote} {r : Int32} {t : VoteType} {i : Nat}
    (held : (e.recorded n).votes.Recorded r t i v) :
    n.votes.Recorded r t i v ∨ e.carries n v ∧ v.validatorIndex = i := by
  cases e with
  | peer sender msg =>
    cases msg with
    | vote w => exact Node.recorded_votes held
    | _ => exact .inl held
  | internal j =>
    dsimp only [Event.recorded] at held
    split at held
    · rename_i found
      exact (Node.recorded_votes held).imp_right fun ⟨same, index⟩ => ⟨same ▸ found, index⟩
    · exact .inl held
  | _ => exact .inl held

theorem deliver_of_halted {e : Event} (hh : n.halted) : n.deliver env ans e = n := if_pos hh

theorem Event.rounds_zero (n : Node) (e : Event) : e.rounds n 0 := .inl rfl

theorem Event.rounds_here (n : Node) (e : Event) : e.rounds n n.round := .inr (.inl rfl)

theorem processOuterMsg_outcome {sender : Bytes} {msg : PeerMsg} :
    Outcome env ((Event.peer sender msg).occasion env n) n
      (n.processOuterMsg env ans sender msg) := by
  unfold processOuterMsg
  split
  · exact .moved .refl
  · cases msg with
    | vote v =>
      exact addVote_outcome (Event.rounds_zero ..) (Event.rounds_here ..)
        (.inr (.inr ⟨v, rfl, rfl⟩)) rfl rfl
        fun _ hca turn => ⟨hca, .inr ⟨v, rfl, turn⟩⟩
    | proposal p => exact .moved handleOuterProposalMsg_moves
    | blockPart height part =>
      exact .acted (addProposalBlockPart_act (Event.rounds_here ..) fun _ hcm => hcm)
    | voteSetMaj23 height round type => exact handleVoteSetMaj23Msg_outcome
    | hasVote => exact withMutex_outcome (.moved .refl)
    | badHasVote => exact withMutex_outcome (.moved (Moves.of_quiet (.of_update _ rfl (.refl _))))
    | malformed => exact .moved (Calms.halt n).moves
    | ignored => exact .moved .refl

/-- The message leaves the queue, whether or not it is processed. -/
theorem dequeue_quiet (i : Nat) :
    Quiet n { n with internalMsgQueue := n.internalMsgQueue.eraseIdx i } :=
  ⟨.of_update _ rfl (.refl _), fun _ held => List.mem_of_mem_eraseIdx held,
    fun _ held => .inl held, rfl⟩

theorem processInnerMsg_outcome {i : Nat} {msg : InternalMsg}
    (hq : n.internalMsgQueue[i]? = some msg) :
    Outcome env ((Event.internal i).occasion env n)
      { n with internalMsgQueue := n.internalMsgQueue.eraseIdx i }
      ({ n with internalMsgQueue := n.internalMsgQueue.eraseIdx i }.processInnerMsg
        env ans msg) := by
  cases msg with
  | vote v =>
    have hre : (Event.internal i).recorded n =
        { n with internalMsgQueue := n.internalMsgQueue.eraseIdx i }.recorded v := by
      dsimp only [Event.recorded]
      rw [hq]
    refine addVote_outcome (Event.rounds_zero n _) (Event.rounds_here n _)
      (.inr (.inr ⟨v, hq, rfl⟩)) hq ?_ ?_
    · exact congrArg votes hre.symm
    · rw [← hre]
      exact fun _ hca turn => ⟨hca, .inr ⟨v, hq, turn⟩⟩
  | proposal p => exact .moved setProposal_moves
  | blockPart height part =>
    refine .acted (addProposalBlockPart_act (Event.rounds_here n _) fun b hcm => ?_)
    have same : (Event.internal i).completed env n = n.completed env part := by
      dsimp only [Event.completed]
      rw [hq]
    exact same.trans hcm

theorem deliver_outcome {e : Event} (timed : n.Timed) (hno : e ≠ .reset) :
    Outcome env (e.occasion env n) n (n.deliver env ans e) := by
  unfold deliver
  split
  · exact .moved .refl
  · rename_i running
    cases e with
    | reset => exact absurd rfl hno
    | peer sender msg =>
      dsimp only
      split
      · exact processOuterMsg_outcome
      · exact .moved .refl
    | internal i =>
      dsimp only
      cases queued : n.internalMsgQueue[i]? with
      | none => exact .moved .refl
      | some msg =>
        dsimp only
        split
        · exact .after_moves (Moves.of_quiet (dequeue_quiet i)) (processInnerMsg_outcome queued)
        · exact .moved (Moves.of_quiet (dequeue_quiet i))
    | timeout ti =>
      dsimp only
      split
      · rename_i fires
        exact handleTimeout_outcome running (timed.scheduled ti fires.1) (Event.rounds_zero ..)
          (Event.rounds_here ..) ⟨.refl, .inl rfl⟩
      · exact .moved .refl
    | txsAvailable height =>
      dsimp only
      split
      · exact handleTxsAvailable_outcome timed.round (Event.rounds_here ..)
      · exact .moved .refl

/-- A node that has gone back to the start of its round. -/
def Node.restarted (n : Node) : Node :=
  { n.updateRoundStep n.round .newRound with internalMsgQueue := [], scheduled := [] }

theorem deliver_reset (hr : ¬ n.halted) :
    Calms env (fun _ => True) n.restarted (n.deliver env ans .reset) := by
  unfold deliver
  rw [if_neg hr]
  unfold reset
  refine Calms.next ?_ fun _ => .of_quiet (.of_update _ rfl (.refl _))
  split
  · exact dealNewRound_calms fun _ => trivial
  · exact .refl

end HNBChain.Audit.Source.Algorand
