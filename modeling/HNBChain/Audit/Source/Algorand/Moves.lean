import HNBChain.Audit.Source.Algorand.Handlers

/-!
# What a node can do

The handlers up to `enterPrecommit`, taken apart into moves. A quiet move lets height, locks, votes
and logs alone and does not go back in round and step. A calm one is quiet or prevotes. The others
record a vote that was carried to the node, or change what the node holds of the proposal. A
precommit comes after these, at most once in an event. Results about runs follow the moves and never
unfold a handler again.
-/
namespace HNBChain.Audit.Source.Algorand

open Lib Node

/-! ## Positions -/

/-- Height, round and step in lexicographic order. -/
def position (height : Nat) (round : Int32) (step : Nat) : ℕ ×ₗ ℤ ×ₗ ℕ :=
  toLex (height, toLex (round.toInt, step))

theorem position_le {h h' : Nat} {r r' : Int32} {s s' : Nat} :
    position h r s ≤ position h' r' s' ↔ h < h' ∨ h = h' ∧ (r < r' ∨ r = r' ∧ s ≤ s') := by
  simp only [position, Prod.Lex.toLex_le_toLex, Int32.lt_iff_toInt_lt, Int32.toInt_inj]

theorem position_lt {h h' : Nat} {r r' : Int32} {s s' : Nat} :
    position h r s < position h' r' s' ↔ h < h' ∨ h = h' ∧ (r < r' ∨ r = r' ∧ s < s') := by
  simp only [position, Prod.Lex.toLex_lt_toLex, Int32.lt_iff_toInt_lt, Int32.toInt_inj]

theorem position_le_of_step {h : Nat} {r : Int32} {s s' : Nat} (le : s ≤ s') :
    position h r s ≤ position h r s' := position_le.mpr (.inr ⟨rfl, .inr ⟨rfl, le⟩⟩)

def Node.pos (n : Node) : ℕ ×ₗ ℤ ×ₗ ℕ := position n.height n.round n.step.num

/-- The step a vote belongs to. -/
def VoteType.step : VoteType → RoundStep
  | .prevote => .prevote
  | .precommit => .precommit
  | .unknown => .commit

def Vote.pos (v : Vote) : ℕ ×ₗ ℤ ×ₗ ℕ := position v.height v.round v.type.step.num

/-- A call that its guard lets through does not go back. -/
theorem pos_le_of_not_passed {n : Node} {height : Nat} {round : Int32} {step : RoundStep}
    (open_ : ¬ n.Passed height round step) : n.pos ≤ position height round step.num := by
  simp only [Node.Passed, not_or, not_and, not_not, RoundStep.le_iff] at open_
  obtain ⟨same, hl, he⟩ := open_
  refine position_le.mpr (.inr ⟨same, ?_⟩)
  rcases Int32.lt_or_eq_of_le (Int32.not_lt.mp hl) with lt | eq
  · exact .inl lt
  · exact .inr ⟨eq, le_of_not_ge (he eq)⟩

/-! ## Moves -/

/-- Height, locks, votes and ledger are let alone. Neither `NewHeight` nor `Commit` is entered, and
the proposed block is only dropped with the round. Nothing is said of a node that waits in
`NewHeight` of a later round: there is none. -/
structure Still (n n' : Node) : Prop where
  height : n'.height = n.height
  pos : n.pos ≤ n'.pos
  step : n'.step = n.step ∧ n'.round = n.round ∨ n'.step ≠ .newHeight ∧ n'.step ≠ .commit
  proposalBlock : n'.round = n.round → (n.step = .newHeight → n.round = 0) →
    n'.proposalBlock = n.proposalBlock
  validators : n'.validators = n.validators
  lockedRound : n'.lockedRound = n.lockedRound
  lockedBlock : n'.lockedBlock = n.lockedBlock
  votes : n.votes.Kept n'.votes
  lastCommit : n'.lastCommit = n.lastCommit
  lastCommitState : n'.lastCommitState = n.lastCommitState
  saved : n'.saved = n.saved
  proposed : n'.proposalBlock = n.proposalBlock ∨ n'.proposalBlock = none

/-- Nothing is signed, and timeouts are scheduled for the rounds reached. -/
structure Quiet (n n' : Node) : Prop extends Still n n' where
  queue : ∀ v, .vote v ∈ n'.internalMsgQueue → .vote v ∈ n.internalMsgQueue
  scheduled : ∀ ti ∈ n'.scheduled, ti ∈ n.scheduled ∨ ti.height = n.height ∧ ti.round ≤ n'.round
  signed : n'.signed = n.signed

/-- A quiet move, or a prevote in one of the rounds. -/
inductive Calm (env : Env) (rounds : Int32 → Prop) : Node → Node → Prop where
  | quiet {n n' : Node} (quiet : Quiet n n') : Calm env rounds n n'
  | prevote {n : Node} (ans : Answers) (id : BlockID) (early : n.step < .prevote)
      (choice : n.prevoteID env = some id) (allowed : rounds n.round) :
      Calm env rounds n ((n.applyAddVote env ans .prevote id).updateRoundStep n.round .prevote)

abbrev Calms (env : Env) (rounds : Int32 → Prop) : Node → Node → Prop :=
  Relation.ReflTransGen (Calm env rounds)

/-- What an event gives to a node: the votes it brings, the vote sets with them, the rounds in which
it lets the node prevote, the states in which it lets it precommit, and the blocks it completes. -/
structure Occasion where
  carries : Vote → Prop
  leaves : HeightVoteSet → Prop
  rounds : Int32 → Prop
  precommits : Node → Prop
  completes : Option Block → Prop

/-- What is left when an event has brought its votes: round 0 of a new height. -/
def Occasion.rest : Occasion := 
  ⟨fun _ => False, fun _ => False, (· = 0), fun _ => False, fun _ => True⟩

inductive Move (env : Env) (occ : Occasion) : Node → Node → Prop where
  | calm {n n' : Node} (calm : Calm env occ.rounds n n') : Move env occ n n'
  | record {n : Node} (v : Vote) (brought : occ.carries v)
      (left : occ.leaves (n.votes.addVote v).2) :
      Move env occ n { n with votes := (n.votes.addVote v).2 }
  | recordLast {n : Node} (v : Vote) (lc : VoteSet) (brought : occ.carries v)
      (held : n.lastCommit = some lc) :
      Move env occ n { n with lastCommit := some (lc.addVote v).2 }
  | propose {n : Node} (proposal : Option Proposal) (block : Option Block) (parts : Option PartSet)
      (completed : block = n.proposalBlock ∨ occ.completes block) :
      Move env occ n
        { n with proposal := proposal, proposalBlock := block, proposalBlockParts := parts }

abbrev Moves (env : Env) (occ : Occasion) : Node → Node → Prop :=
  Relation.ReflTransGen (Move env occ)

def Node.precommitted (env : Env) (ans : Answers) (n : Node) : Node :=
  (n.doPrecommit env ans n.round).updateRoundStep n.round .precommit

/-- Moves, with at most one precommit after them. Round 0 was left or is behind when it is cast. -/
inductive Advance (env : Env) (occ : Occasion) (n : Node) : Node → Prop where
  | moved {n' : Node} (moves : Moves env occ n n') : Advance env occ n n'
  | precommitted {a n' : Node} (ans : Answers) (before : Moves env occ n a)
      (early : a.step < .precommit) (allowed : occ.precommits a)
      (after : Calms env (· = 0) (a.precommitted env ans) n') : Advance env occ n n'

/-- A node that waits in `NewHeight` is in round 0. -/
def Node.Fresh (n : Node) : Prop := n.step = .newHeight → n.round = 0

theorem Still.round_le {n n' : Node} (hs : Still n n') : n.round ≤ n'.round := by
  rcases position_le.mp hs.pos with lt | ⟨_, lt | ⟨eq, _⟩⟩
  · exact absurd hs.height (Nat.ne_of_gt lt)
  · exact Int32.le_of_lt lt
  · exact eq ▸ Int32.le_refl _

theorem Still.fresh {n n' : Node} (hs : Still n n') (hfr : n.Fresh) : n'.Fresh := by
  intro waits
  rcases hs.step with ⟨step, round⟩ | ⟨not_newHeight, _⟩
  · exact round.trans (hfr (step ▸ waits))
  · exact absurd waits not_newHeight

theorem Still.trans {a b c : Node} (h1 : Still a b) (h2 : Still b c) : Still a c where
  height := h2.height.trans h1.height
  pos := h1.pos.trans h2.pos
  step := by
    rcases h2.step with ⟨step, round⟩ | hen
    · rw [step, round]
      exact h1.step
    · exact .inr hen
  proposalBlock same fresh := by
    have back : b.round = a.round :=
      Int32.le_antisymm (same ▸ h2.round_le) h1.round_le
    exact (h2.proposalBlock (same.trans back.symm) (h1.fresh fresh)).trans
      (h1.proposalBlock back fresh)
  validators := h2.validators.trans h1.validators
  lockedRound := h2.lockedRound.trans h1.lockedRound
  lockedBlock := h2.lockedBlock.trans h1.lockedBlock
  votes := h1.votes.trans h2.votes
  lastCommit := h2.lastCommit.trans h1.lastCommit
  lastCommitState := h2.lastCommitState.trans h1.lastCommitState
  saved := h2.saved.trans h1.saved
  proposed := by
    rcases h2.proposed with same | hd
    · rw [same]
      exact h1.proposed
    · exact .inr hd

theorem Quiet.trans {a b c : Node} (h1 : Quiet a b) (h2 : Quiet b c) : Quiet a c where
  toStill := h1.toStill.trans h2.toStill
  queue v held := h1.queue v (h2.queue v held)
  scheduled ti held := by
    rcases h2.scheduled ti held with old | ⟨height, round⟩
    · rcases h1.scheduled ti old with older | ⟨height, round⟩
      · exact .inl older
      · exact .inr ⟨height, Int32.le_trans round h2.round_le⟩
    · exact .inr ⟨height.trans h1.height, round⟩
  signed := h2.signed.trans h1.signed

section

variable {env : Env} {ans : Answers} {occ : Occasion} {n m : Node} {height : Nat}
  {round : Int32} {rounds : Int32 → Prop}

/-- An update of fields that a still move may change. -/
theorem Still.of_update (n' : Node) (same : n' = { n with
      proposal := n'.proposal
      proposalBlockParts := n'.proposalBlockParts
      votes := n'.votes
      tryProposalTimes := n'.tryProposalTimes
      isContinueConsensus := n'.isContinueConsensus
      internalMsgQueue := n'.internalMsgQueue
      scheduled := n'.scheduled
      mtxHeld := n'.mtxHeld
      halted := n'.halted }) (votes : n.votes.Kept n'.votes) : Still n n' := by
  rw [same] at votes ⊢
  exact ⟨rfl, le_refl _, .inl ⟨rfl, rfl⟩, fun _ _ => rfl, rfl, rfl, rfl, votes, rfl,
    rfl, rfl, .inl rfl⟩

/-- The updates of `updateRoundStep` that do not go back. -/
theorem Still.updateRoundStep (n : Node) (step : RoundStep)
    (hi : step ≠ .newHeight ∧ step ≠ .commit)
    (hf : n.pos ≤ position n.height round step.num) : Still n (n.updateRoundStep round step) :=
  ⟨rfl, hf, .inr hi, fun _ _ => rfl, rfl, rfl, rfl, .refl _, rfl, rfl, rfl, .inl rfl⟩

/-- An update of fields that a quiet move may change. -/
theorem Quiet.of_update (n' : Node) (same : n' = { n with
      proposal := n'.proposal
      proposalBlockParts := n'.proposalBlockParts
      votes := n'.votes
      tryProposalTimes := n'.tryProposalTimes
      isContinueConsensus := n'.isContinueConsensus
      mtxHeld := n'.mtxHeld
      halted := n'.halted }) (votes : n.votes.Kept n'.votes) : Quiet n n' := by
  rw [same] at votes ⊢
  exact ⟨.of_update _ rfl votes, fun _ held => held, fun _ held => .inl held, rfl⟩

theorem Quiet.refl (n : Node) : Quiet n n := .of_update n rfl (.refl _)

theorem Quiet.halt (n : Node) : Quiet n n.halt := .of_update _ rfl (.refl _)

theorem Quiet.scheduleTimeout (n : Node) (step : RoundStep) (here : height = n.height)
    (hr : round ≤ n.round) : Quiet n (n.scheduleTimeout height round step) := by
  refine ⟨.of_update _ rfl (.refl _), fun _ held => held, fun ti held => ?_, rfl⟩
  rcases List.mem_cons.mp held with rfl | old
  · exact .inr ⟨here, hr⟩
  · exact .inl old

theorem Quiet.updateRoundStep (n : Node) (step : RoundStep)
    (hi : step ≠ .newHeight ∧ step ≠ .commit)
    (hf : n.pos ≤ position n.height round step.num) : Quiet n (n.updateRoundStep round step) :=
  ⟨.updateRoundStep n step hi hf, fun _ held => held, fun _ held => .inl held, rfl⟩

theorem Quiet.setRound (n : Node) (r : Int32) : Quiet n (n.setRound r) := by
  unfold Node.setRound
  split
  · exact .halt n
  · exact .of_update _ rfl (.setRound _ r)

theorem Calm.still {n' : Node} (calm : Calm env rounds n n') : Still n n' := by
  cases calm with
  | quiet quiet => exact quiet.toStill
  | prevote ans id he _ _ =>
    exact ⟨rfl, position_le_of_step (Nat.le_of_lt he), .inr ⟨nofun, nofun⟩, fun _ _ => rfl, rfl,
      rfl, rfl, .refl _, rfl, rfl, rfl, .inl rfl⟩

theorem Calms.still (hca : Calms env rounds n m) : Still n m := by
  induction hca with
  | refl => exact (Quiet.refl n).toStill
  | tail _ last ih => exact ih.trans last.still

theorem Still.not_commit (hs : Still n m) (step : n.step ≠ .commit) : m.step ≠ .commit := by
  rcases hs.step with ⟨same, _⟩ | ⟨_, hn⟩
  · rw [same]
    exact step
  · exact hn

theorem Calms.of_quiet (hq : Quiet n m) : Calms env rounds n m := .single (.quiet hq)

theorem Calms.halt (n : Node) : Calms env rounds n n.halt := .of_quiet (.halt n)

theorem Node.next_induction {motive : Node → Prop} {f : Node → Node}
    (stopped : m.halted → motive m) (goes : ¬ m.halted → motive (f m)) : motive (m.next f) := by
  unfold next
  split
  · exact stopped ‹_›
  · exact goes ‹_›

theorem Calms.next {f : Node → Node} (h1 : Calms env rounds n m)
    (h2 : ¬ m.halted → Calms env rounds m (f m)) : Calms env rounds n (m.next f) :=
  next_induction (fun _ => h1) fun hru => h1.trans (h2 hru)

theorem Calms.moves (hca : Calms env occ.rounds n m) : Moves env occ n m :=
  hca.lift id fun _ _ => .calm

theorem Calms.mono {rounds' : Int32 → Prop} (hca : Calms env rounds n m)
    (wider : ∀ r, rounds r → rounds' r) : Calms env rounds' n m := by
  refine hca.lift id fun a b calm => ?_
  cases calm with
  | quiet quiet => exact .quiet quiet
  | prevote ans id he hch ha => exact .prevote ans id he hch (wider _ ha)

theorem Moves.of_quiet (hq : Quiet n m) : Moves env occ n m :=
  (Calms.of_quiet hq).moves

/-! ## The moves of each handler -/

/-- The calls whose vote is cast in the round they are made for. -/
def Timely (n : Node) (height : Nat) (round : Int32) : Prop := n.height = height → round ≤ n.round

theorem Timely.round_eq {step : RoundStep} (ht : Timely n height round)
    (open_ : ¬ n.Passed height round step) :
    height = n.height ∧ round = n.round ∧ n.step < step := by
  simp only [Node.Passed, not_or, not_and, not_not] at open_
  obtain ⟨same, hl, he⟩ := open_
  have eq : round = n.round := Int32.le_antisymm (ht same) (Int32.not_lt.mp hl)
  exact ⟨same.symm, eq, Nat.lt_of_not_le (he eq.symm)⟩

theorem enterPrevote_calms (ht : Timely n height round) (ha : rounds n.round) :
    Calms env rounds n (n.enterPrevote env ans height round) := by
  unfold enterPrevote
  split
  · exact .refl
  · rename_i open_
    obtain ⟨rfl, rfl, he⟩ := ht.round_eq open_
    have hf : n.pos ≤ position n.height n.round RoundStep.prevote.num :=
      position_le_of_step (Nat.le_of_lt he)
    unfold defaultDoPrevote
    by_cases retry : n.proposalBlock.isNone ∧ n.tryProposalTimes < 2
    · rw [if_pos retry]
      have hc : Quiet n { n with tryProposalTimes := n.tryProposalTimes + 1 } :=
        .of_update _ rfl (.refl _)
      exact .of_quiet (hc.trans (.scheduleTimeout _ _ rfl (Int32.le_refl _)))
    · rw [if_neg retry]
      cases choice : n.prevoteID env with
      | none => exact .halt n
      | some id =>
        by_cases member : n.validators.hasAddress env.digestAddr
        · simp only [Option.map_some, signAddVote, if_pos member]
          exact (Relation.ReflTransGen.single (.prevote ans id he choice ha)).trans
            (Calms.of_quiet (.scheduleTimeout _ _ rfl (Int32.le_refl _)))
        · simp only [Option.map_some, signAddVote, if_neg member]
          exact .of_quiet ((Quiet.scheduleTimeout n _ rfl (Int32.le_refl _)).trans
            (.updateRoundStep _ _ (by decide) hf))

theorem enterPrevoteWait_calms : Calms env rounds n (n.enterPrevoteWait height round) := by
  unfold enterPrevoteWait
  split
  · exact .refl
  · rename_i open_
    have hf := pos_le_of_not_passed open_
    simp only [Node.Passed, not_or, not_not] at open_
    obtain rfl := open_.1
    exact .of_quiet ((Quiet.updateRoundStep n _ (by decide) hf).trans
      (.scheduleTimeout _ _ rfl (Int32.le_refl _)))

theorem sendProposal_quiet {parts : Option PartSet} :
    Quiet n (n.sendProposal height round parts) := by
  unfold sendProposal
  dsimp only
  split
  · exact .halt n
  · refine ⟨.of_update _ rfl (.refl _), fun v held => ?_, fun _ held => .inl held, rfl⟩
    rcases List.mem_append.mp held with old | new
    · exact old
    · simp at new

/-- A proposal is only sent. -/
theorem sendProposal_fields {parts : Option PartSet} : ∃ queue halted,
    n.sendProposal height round parts = { n with internalMsgQueue := queue, halted := halted } := by
  unfold sendProposal
  dsimp only
  split <;> exact ⟨_, _, rfl⟩

theorem proposeBlock_fields : ∃ queue halted, n.proposeBlock env ans height round =
    { n with internalMsgQueue := queue, halted := halted } := by
  rcases proposeBlock_cases env ans height round n with eq | eq | ⟨parts, eq⟩ <;> rw [eq]
  · exact ⟨_, _, rfl⟩
  · exact ⟨_, _, rfl⟩
  · exact sendProposal_fields

theorem proposeBlock_quiet : Quiet n (n.proposeBlock env ans height round) := by
  rcases proposeBlock_cases env ans height round n with eq | eq | ⟨parts, eq⟩ <;> rw [eq]
  · exact .halt n
  · exact .refl n
  · exact sendProposal_quiet

theorem enterPropose_calms (ht : Timely n height round)
    (ha : n.isProposalComplete → rounds n.round) :
    Calms env rounds n (n.enterPropose env ans height round) := by
  unfold enterPropose
  split
  · exact .refl
  · rename_i open_
    obtain ⟨rfl, rfl, he⟩ := ht.round_eq open_
    have hc : Quiet n { n with tryProposalTimes := 0 } := .of_update _ rfl (.refl _)
    have hst := hc.trans (.scheduleTimeout _ .propose rfl (Int32.le_refl _))
    dsimp only
    generalize started_eq : { n with tryProposalTimes := 0 }.scheduleTimeout n.height
      n.round .propose = m
      at hst
    obtain ⟨queue, halted, fields⟩ : ∃ queue halted, m.proposeBlock env ans n.height n.round =
      { m with internalMsgQueue := queue, halted := halted } := proposeBlock_fields
    have hp : Quiet n (m.proposeBlock env ans n.height n.round) :=
      hst.trans proposeBlock_quiet
    have hen : Quiet (m.proposeBlock env ans n.height n.round)
        ((m.proposeBlock env ans n.height n.round).updateRoundStep n.round .propose) := by
      refine .updateRoundStep _ _ (by decide) ?_
      rw [fields, ← started_eq]
      exact position_le_of_step (Nat.le_of_lt he)
    refine (Calms.of_quiet hp).next fun _ => ?_
    split
    · rename_i complete
      have same : ((m.proposeBlock env ans n.height n.round).updateRoundStep n.round
          .propose).isProposalComplete = n.isProposalComplete := by
        rw [fields, ← started_eq]
        rfl
      exact (Calms.of_quiet hen).trans
        (enterPrevote_calms (fun _ => Int32.le_refl _) (ha (same ▸ complete)))
    · exact .of_quiet hen

theorem dealNewRound_calms (ha : n.isProposalComplete → rounds n.round) :
    Calms env rounds n (n.dealNewRound env ans) := by
  have hen : Calms env rounds n (n.enterPropose env ans n.height n.round) :=
    enterPropose_calms (fun _ => Int32.le_refl _) ha
  have waiting : Calms env rounds n (n.scheduleTimeout n.height n.round .newRound) :=
    .of_quiet (.scheduleTimeout n _ rfl (Int32.le_refl _))
  unfold dealNewRound
  split
  · split
    · exact hen
    · exact waiting
  · split
    · exact waiting
    · exact hen

theorem newRound_forward (open_ : ¬ (n.height ≠ height ∨ round < n.round ∨ n.round = round ∧
    n.step ≠ .newHeight)) : n.pos ≤ position height round RoundStep.newRound.num := by
  simp only [not_or, not_and, not_not] at open_
  obtain ⟨rfl, hl, he⟩ := open_
  refine position_le.mpr (.inr ⟨rfl, ?_⟩)
  rcases Int32.lt_or_eq_of_le (Int32.not_lt.mp hl) with lt | eq
  · exact .inl lt
  · rw [he eq]
    exact .inr ⟨eq, by decide⟩

/-- The start of a round, up to the votes that are tracked for it. -/
theorem newRound_quiet (open_ : ¬ (n.height ≠ height ∨ round < n.round ∨ n.round = round ∧
    n.step ≠ .newHeight)) :
    Quiet n ((if round ≠ 0 then (n.updateRoundStep round .newRound).clearProposal
      else n.updateRoundStep round .newRound).setRound (round + 1)) := by
  have hf := newRound_forward open_
  simp only [not_or, not_and, not_not] at open_
  obtain ⟨rfl, _, he⟩ := open_
  refine Quiet.trans ?_ (.setRound _ _)
  split
  · rename_i later
    refine ⟨⟨rfl, hf, .inr ⟨nofun, nofun⟩, fun same hfr => ?_, rfl, rfl, rfl, .refl _, rfl,
      rfl, rfl, .inr rfl⟩, fun _ held => held, fun _ held => .inl held, rfl⟩
    -- the same round is entered from `NewHeight` only
    have same : round = n.round := same
    exact absurd (same.trans (hfr (he same.symm))) later
  · exact .updateRoundStep n _ (by decide) hf

/-- The start of a new round, at which `dealNewRound` is called: except in round 0 there is no
proposal. -/
theorem newRound_start (n : Node) (round : Int32) : ∃ m : Node,
    (if round ≠ 0 then (n.updateRoundStep round .newRound).clearProposal
      else n.updateRoundStep round .newRound).setRound (round + 1) = m ∧ m.round = round ∧
    m.step = .newRound ∧ (round ≠ 0 → m.isProposalComplete = false) := by
  refine ⟨_, rfl, ?_⟩
  unfold setRound
  by_cases later : round ≠ 0
  · rw [if_pos later]
    split <;> exact ⟨rfl, rfl, fun _ => rfl⟩
  · rw [if_neg later]
    split <;> exact ⟨rfl, rfl, fun other => absurd other later⟩

theorem enterNewRound_calms (zero : rounds 0) :
    Calms env rounds n (n.enterNewRound env ans height round) := by
  unfold enterNewRound
  split
  · exact .refl
  · rename_i open_
    split
    · exact .halt n
    · obtain ⟨m, hsa, hr, _, cleared⟩ := newRound_start n round
      have hq := newRound_quiet open_
      dsimp only
      rw [hsa] at hq ⊢
      refine (Calms.of_quiet hq).next fun _ => dealNewRound_calms fun hco => ?_
      by_cases first : round = 0
      · exact (hr.trans first) ▸ zero
      · exact absurd hco (cleared first ▸ Bool.false_ne_true)

theorem doPrecommit_height : (n.doPrecommit env ans round).height = n.height := by
  unfold doPrecommit
  split
  · rfl
  · split_ifs <;> rfl

theorem enterPrecommit_advance (ht : Timely n height round)
    (ha : n.round = round → occ.precommits n) :
    Advance env occ n (n.enterPrecommit env ans height round) := by
  unfold enterPrecommit
  split
  · exact .moved .refl
  · rename_i open_
    obtain ⟨rfl, rfl, he⟩ := ht.round_eq open_
    exact .precommitted ans .refl he (ha rfl)
      (.of_quiet (.scheduleTimeout _ _ doPrecommit_height.symm (Int32.le_refl _)))

theorem scheduleRound0_calms (zero : rounds 0) : Calms env rounds n (n.scheduleRound0 env ans) := by
  have kept : Quiet n { n with isContinueConsensus := n.isContinueConsensus &&
      ans.continueConsensus } :=
    .of_update _ rfl (.refl _)
  unfold scheduleRound0
  dsimp only
  split
  · exact (Calms.of_quiet kept).trans (enterNewRound_calms zero)
  · exact .of_quiet kept

end

end HNBChain.Audit.Source.Algorand
