import HNBChain.Audit.Source.Algorand.Handlers

/-!
# What every handler keeps

The handlers are built from a few writes: the round and the step with what is sent, signed and
scheduled, the vote sets, the proposal, the lock, and what a commit sets. A property of nodes that
each of these writes keeps is kept by every handler, and then by every event and along every run.
`NodeStable` lists the writes; the lemmas after it follow the handlers once, for all such
properties.
-/
namespace HNBChain.Audit.Source.Algorand

open Lib

/-- The two nodes differ in nothing but these fields. -/
def Node.Light (n n' : Node) : Prop :=
  n' = { n with
    round := n'.round
    step := n'.step
    tryProposalTimes := n'.tryProposalTimes
    internalMsgQueue := n'.internalMsgQueue
    scheduled := n'.scheduled
    signed := n'.signed
    halted := n'.halted }

/-- The node at the next height, with nothing of the proposal and no votes. -/
def Node.nextHeight (n : Node) (s : State) (lastPrecommits : Option VoteSet) : Node :=
  { n with
    height := s.lastBlockNum + 1
    round := 0
    step := .newHeight
    validators := s.validators
    proposal := none
    proposalBlock := none
    proposalBlockParts := none
    votes := .new (s.lastBlockNum + 1) s.validators
    commitRound := -1
    lastCommit := lastPrecommits
    lastValidators := s.lastValidators
    lastCommitState := s }

/-- Kept by the writes of the handlers that stay in the round. -/
structure StepStable (P : Node → Prop) : Prop where
  light : ∀ {n n' : Node}, n.Light n' → P n → P n'

/-- Kept by the writes of the handlers that stay in the height and bring no votes. -/
structure RoundStable (P : Node → Prop) : Prop extends StepStable P where
  tracks : ∀ {n : Node} (round : Int32), P n → P { n with votes := n.votes.setRound round }
  proposes : ∀ {n : Node} (proposal : Option Proposal) (block : Option Block)
    (parts : Option PartSet),
    P n → P { n with proposal := proposal, proposalBlock := block, proposalBlockParts := parts }
  locks : ∀ {n : Node} (round : Int32) (block : Option Block) (parts : Option PartSet),
    P n → P { n with lockedRound := round, lockedBlock := block, lockedBlockParts := parts }

structure NodeStable (P : Node → Prop) : Prop extends RoundStable P where
  records : ∀ {n : Node} (v : Vote), P n → P { n with votes := (n.votes.addVote v).2 }
  recordsLast : ∀ {n : Node} (lastCommit : Option VoteSet), P n →
    P { n with lastCommit := lastCommit }
  decides : ∀ {n : Node} (round : Int32), P n → P { n with commitRound := round }
  stores : ∀ {n : Node} (saved : Saved), P n → P { n with saved := saved :: n.saved }
  succeeds : ∀ {n : Node} (s : State) (lastPrecommits : Option VoteSet), P n →
    P (n.nextHeight s lastPrecommits)
  continues : ∀ {n : Node} (b : Bool), P n → P { n with isContinueConsensus := b }

section

variable {P : Node → Prop} {env : Env} {ans : Answers} {n : Node} {height : Nat} {round : Int32}

theorem next_keeps {f : Node → Node} (h1 : P n) (then_ : ∀ m, P m → P (f m)) : P (n.next f) := by
  unfold Node.next
  split
  · exact h1
  · exact then_ n h1

theorem ite_keeps {c : Prop} [Decidable c] {a b : Node} (h1 : P a) (h2 : P b) :
    P (if c then a else b) := by
  split
  · exact h1
  · exact h2

namespace StepStable

variable (stable : StepStable P)

include stable

theorem halt (held : P n) : P n.halt := stable.light (n := n) rfl held

theorem updateRoundStep (step : RoundStep) (held : P n) : P (n.updateRoundStep round step) :=
  stable.light (n := n) rfl held

theorem scheduleTimeout (step : RoundStep) (held : P n) : P (n.scheduleTimeout height round step) :=
  stable.light (n := n) rfl held

/-! ## Prevotes and proposals -/

theorem applyAddVote (type : VoteType) (id : BlockID) (held : P n) :
    P (n.applyAddVote env ans type id) :=
  stable.light (n := n) rfl held

theorem signAddVote (type : VoteType) (id : BlockID) (held : P n) :
    P (n.signAddVote env ans type id) := by
  exact ite_keeps (stable.applyAddVote type id held) held

theorem enterPrevote (held : P n) : P (n.enterPrevote env ans height round) := by
  unfold Node.enterPrevote Node.defaultDoPrevote
  refine ite_keeps held ?_
  by_cases retry : n.proposalBlock.isNone ∧ n.tryProposalTimes < 2
  · rw [if_pos retry]
    exact stable.light (n := n) rfl held
  · rw [if_neg retry]
    cases n.prevoteID env with
    | none => exact stable.halt held
    | some id =>
      exact stable.updateRoundStep .prevote
        (stable.scheduleTimeout .prevote (stable.signAddVote .prevote id held))

theorem enterPrevoteWait (held : P n) : P (n.enterPrevoteWait height round) := by
  exact ite_keeps held (stable.updateRoundStep _ (stable.scheduleTimeout _ held))

theorem sendProposal (parts : Option PartSet) (held : P n) :
    P (n.sendProposal height round parts) := by
  unfold Node.sendProposal
  dsimp only
  split
  · exact stable.halt held
  · exact stable.light (n := n) rfl held

theorem proposeBlock (held : P n) : P (n.proposeBlock env ans height round) := by
  rcases Node.proposeBlock_cases env ans height round n with eq | eq | ⟨parts, eq⟩ <;> rw [eq]
  · exact stable.halt held
  · exact held
  · exact stable.sendProposal parts held

theorem enterPropose (held : P n) : P (n.enterPropose env ans height round) := by
  have hs : P ({ n with tryProposalTimes := 0 }.scheduleTimeout height round .propose) :=
    stable.light (n := n) rfl held
  refine ite_keeps held (next_keeps (stable.proposeBlock hs) fun m hpr => ?_)
  have he : P (m.updateRoundStep round .propose) := stable.updateRoundStep .propose hpr
  exact ite_keeps (stable.enterPrevote he) he

theorem dealNewRound (held : P n) : P (n.dealNewRound env ans) := by
  have waiting : P (n.scheduleTimeout n.height n.round .newRound) :=
    stable.scheduleTimeout .newRound held
  exact ite_keeps (ite_keeps (stable.enterPropose held) waiting)
    (ite_keeps waiting (stable.enterPropose held))

theorem enterPrecommitWait (held : P n) : P (n.enterPrecommitWait height round) :=
  stable.scheduleTimeout .precommitWait (stable.updateRoundStep .precommitWait held)

end StepStable

namespace RoundStable

variable (stable : RoundStable P)

include stable

/-! ## Rounds -/

theorem setRound (held : P n) : P (n.setRound round) := by
  exact ite_keeps (stable.halt held) (stable.tracks round held)

theorem enterNewRound (held : P n) : P (n.enterNewRound env ans height round) := by
  have he : P (n.updateRoundStep round .newRound) := stable.updateRoundStep .newRound held
  have cleared : P (n.updateRoundStep round .newRound).clearProposal :=
    stable.proposes none none none he
  refine ite_keeps held (ite_keeps (stable.halt held) ?_)
  exact next_keeps (stable.setRound (ite_keeps cleared he)) fun m hs =>
    stable.dealNewRound hs

/-! ## Precommits and proposals of others -/

theorem doPrecommit (held : P n) : P (n.doPrecommit env ans round) := by
  unfold Node.doPrecommit
  split
  · exact stable.applyAddVote _ _ held
  · refine ite_keeps (stable.applyAddVote _ _ held) (ite_keeps ?_ ?_)
    · exact stable.applyAddVote _ _ (stable.locks round n.proposalBlock n.proposalBlockParts held)
    · exact stable.applyAddVote _ _ (stable.locks 0 none none held)

theorem enterPrecommit (held : P n) : P (n.enterPrecommit env ans height round) := by
  exact ite_keeps held
    (stable.scheduleTimeout _ (stable.updateRoundStep _ (stable.doPrecommit held)))

theorem setProposal (proposal : Proposal) (held : P n) : P (n.setProposal proposal) := by
  refine ite_keeps held (ite_keeps held (ite_keeps held ?_))
  exact stable.proposes (some proposal) n.proposalBlock
    (some (newPartSetFromHeader proposal.blockPartsHeader)) held

theorem handleOuterProposalMsg (sender : Bytes) (proposal : Proposal) (held : P n) :
    P (n.handleOuterProposalMsg ans sender proposal) := by
  unfold Node.handleOuterProposalMsg
  split
  · exact stable.setProposal proposal held
  · exact stable.halt held
  · exact stable.halt held
  · exact ite_keeps held (stable.setProposal proposal held)

end RoundStable

namespace NodeStable

variable (stable : NodeStable P)

include stable

/-! ## Commits -/

theorem applyBlock (block : Block) (held : P n) : P (n.applyBlock env ans block).2 := by
  unfold Node.applyBlock
  cases n.saveBlock env ans block with
  | error e =>
    cases e with
    | panic => exact stable.halt held
    | _ => exact held
  | ok result =>
    obtain ⟨saved, s⟩ := result
    have hst : P { n with saved := saved :: n.saved } := stable.stores saved held
    dsimp only
    split
    · exact stable.halt hst
    · exact ite_keeps (stable.locks 0 none none hst) hst

theorem updateToState (s : State) (held : P n) : P (n.updateToState s) := by
  refine ite_keeps held (ite_keeps held (ite_keeps held ?_))
  cases n.lastPrecommits with
  | none => exact stable.halt held
  | some lastPrecommits => exact stable.succeeds s lastPrecommits held

theorem scheduleRound0 (held : P n) : P (n.scheduleRound0 env ans) := by
  have kept := stable.continues (n.isContinueConsensus && ans.continueConsensus) held
  exact ite_keeps (stable.enterNewRound kept) kept

theorem finalizeCommit (held : P n) : P (n.finalizeCommit env ans height) := by
  refine ite_keeps held ?_
  split
  next id block _ _ =>
    refine ite_keeps (stable.halt held) (ite_keeps (stable.halt held) ?_)
    have hap : P (n.applyBlock env ans block).2 := stable.applyBlock block held
    generalize n.applyBlock env ans block = outcome at hap
    obtain ⟨state, m⟩ := outcome
    cases state with
    | none => exact next_keeps hap fun m hru => stable.enterNewRound hru
    | some s => exact next_keeps (stable.updateToState s hap) fun m done =>
        stable.scheduleRound0 done
  next => exact stable.halt held

theorem tryFinalizeCommit (held : P n) : P (n.tryFinalizeCommit env ans height) := by
  refine ite_keeps (stable.halt held)
    (next_keeps (ite_keeps (stable.enterNewRound held) held) fun m he => ?_)
  have hl : P { m with proposalBlock := m.lockedBlock } :=
    stable.proposes m.proposal m.lockedBlock m.proposalBlockParts he
  refine ite_keeps (stable.finalizeCommit he) (ite_keeps (stable.finalizeCommit hl) ?_)
  exact next_keeps (stable.enterNewRound he) fun m hla => stable.finalizeCommit hla

theorem enterCommit (held : P n) : P (n.enterCommit env ans height round) := by
  refine ite_keeps held ?_
  split
  · exact stable.halt held
  next id _ =>
    have hf : P { n with
        proposalBlock := none, proposalBlockParts := some (newPartSetFromHeader id.partsHeader) } :=
      stable.proposes n.proposal none (some (newPartSetFromHeader id.partsHeader)) held
    have inside (m : Node) (he : P m) :
        P ({ m.updateRoundStep m.round .commit with commitRound := round }.tryFinalizeCommit
            env ans height) :=
      stable.tryFinalizeCommit (stable.decides round (stable.updateRoundStep .commit he))
    exact inside _ (ite_keeps hf held)

/-! ## Votes -/

variable (vote : Vote)

theorem afterPrevote (prevotes : VoteSet) (held : P n) :
    P (n.afterPrevote env ans vote prevotes) := by
  unfold Node.afterPrevote
  refine next_keeps (ite_keeps (stable.enterNewRound held) held) fun m ha => ite_keeps ?_ ?_
  · refine next_keeps (stable.enterNewRound ha) fun m he =>
      ite_keeps (stable.enterPrecommit he) ?_
    exact next_keeps (stable.enterPrevote he) fun m hpe =>
      stable.enterPrevoteWait hpe
  · split
    · exact ha
    · exact ite_keeps (stable.enterPrevote ha) ha

theorem afterPrecommit (precommits : VoteSet) (held : P n) :
    P (n.afterPrecommit env ans vote precommits) := by
  unfold Node.afterPrecommit
  have hp : P ((n.enterNewRound env ans n.height vote.round).next
      (Node.enterPrecommit env ans n.height vote.round)) :=
    next_keeps (stable.enterNewRound held) fun m he => stable.enterPrecommit he
  split
  · refine ite_keeps (stable.enterNewRound held) ?_
    refine next_keeps (next_keeps hp fun m hre => stable.enterCommit hre)
      fun m done => ?_
    exact ite_keeps (stable.enterNewRound done) done
  · exact ite_keeps (next_keeps hp fun m waits => stable.enterPrecommitWait waits) held

theorem addLastVote (held : P n) : P (n.addLastVote env ans vote) := by
  refine ite_keeps held ?_
  split
  · exact stable.halt held
  next lastCommit _ =>
    have hr := stable.recordsLast (some (lastCommit.addVote vote).2) held
    exact ite_keeps (stable.halt held) (ite_keeps (stable.enterNewRound hr) hr)

theorem addCurrentVote (held : P n) : P (n.addCurrentVote env ans vote) := by
  have hr : P { n with votes := (n.votes.addVote vote).2 } := stable.records vote held
  refine ite_keeps (stable.halt held) (ite_keeps ?_ hr)
  split
  · exact stable.afterPrevote vote _ hr
  · exact stable.afterPrecommit vote _ hr
  · exact hr

theorem addVote (held : P n) : P (n.addVote env ans vote) := by
  refine next_keeps (ite_keeps (stable.setRound held) held) fun m ht => ?_
  exact ite_keeps (stable.addLastVote vote ht)
    (ite_keeps ht (stable.addCurrentVote vote ht))

/-! ## Proposals, parts and timeouts -/

theorem completeProposal (parts : PartSet) (held : P n) :
    P (n.completeProposal env ans height parts) := by
  unfold Node.completeProposal
  split
  · exact held
  · exact stable.halt held
  · exact ite_keeps held (stable.halt held)
  next b _ =>
    have hk : P { n with proposalBlock := some (b.hashed env.digests) } :=
      stable.proposes n.proposal (some (b.hashed env.digests)) n.proposalBlockParts held
    split
    · exact stable.halt held
    · exact held
    · exact ite_keeps (stable.enterPrevote hk) (ite_keeps (stable.tryFinalizeCommit hk) hk)

theorem addProposalBlockPart (part : Part) (held : P n) :
    P (n.addProposalBlockPart env ans height part) := by
  refine ite_keeps held ?_
  split
  · exact held
  next ps _ =>
    have grown (ps : PartSet) : P { n with proposalBlockParts := some ps } :=
      stable.proposes n.proposal n.proposalBlock (some ps) held
    exact ite_keeps held (ite_keeps (stable.completeProposal _ (grown _)) (grown _))

theorem withMutex {f : Node → Node} (held : P n) (inner : P (f n)) : P (n.withMutex f) :=
  ite_keeps (stable.halt held) inner

theorem handleTimeout (ti : TimeoutInfo) (held : P n) : P (n.handleTimeout env ans ti) := by
  refine ite_keeps held (stable.withMutex held ?_)
  cases ti.step with
  | newHeight => exact stable.enterNewRound held
  | newRound => exact stable.enterPropose held
  | propose => exact stable.enterPrevote held
  | prevote => exact stable.enterPrevoteWait held
  | prevoteWait => exact stable.enterPrecommit held
  | precommit => exact stable.enterPrecommitWait held
  | precommitWait => exact stable.enterNewRound held
  | commit => exact held

theorem handleTxsAvailable (held : P n) : P (n.handleTxsAvailable env ans height) :=
  stable.withMutex held (ite_keeps (stable.enterPropose held) held)

theorem reset (held : P n) : P (n.reset env ans) := by
  have emptied : P
      { n.updateRoundStep n.round .newRound with internalMsgQueue := [], scheduled := [] } :=
    stable.light (n := n) rfl held
  exact next_keeps (ite_keeps (stable.dealNewRound emptied) emptied) fun m dealt =>
    stable.continues true dealt

theorem processInnerMsg (msg : InternalMsg) (held : P n) : P (n.processInnerMsg env ans msg) := by
  cases msg with
  | vote v => exact stable.addVote v held
  | proposal p => exact stable.setProposal p held
  | blockPart height part => exact stable.addProposalBlockPart part held

/-- What does not come from a peer. -/
theorem deliverOwn {e : Event} (own : ∀ sender msg, e ≠ .peer sender msg) (held : P n) :
    P (n.deliver env ans e) := by
  refine ite_keeps held ?_
  cases e with
  | reset => exact stable.reset held
  | peer sender msg => exact absurd rfl (own sender msg)
  | internal i =>
    dsimp only
    split
    · exact held
    next msg _ =>
      have hta : P { n with internalMsgQueue := n.internalMsgQueue.eraseIdx i } :=
        stable.light (n := n) rfl held
      exact ite_keeps (stable.processInnerMsg msg hta) hta
  | timeout ti => exact ite_keeps (stable.handleTimeout ti held) held
  | txsAvailable height => exact ite_keeps (stable.handleTxsAvailable held) held

/-- The messages about majorities write to the mutex and to the vote sets; the other ones are made
of the writes above. -/
theorem deliver (mutex : ∀ {n : Node} (b : Bool), P n → P { n with mtxHeld := b })
    (claims : ∀ {n : Node} (round : Int32) (type : VoteType) (peerID : Bytes)
      (key : BlockKey), P n →
      P { n with votes := n.votes.setPeerMaj23 round type peerID key }) (e : Event) (held : P n) :
    P (n.deliver env ans e) := by
  by_cases foreign : ∃ sender msg, e = .peer sender msg
  · obtain ⟨sender, msg, rfl⟩ := foreign
    refine ite_keeps held (ite_keeps (ite_keeps held ?_) held)
    cases msg with
    | vote v => exact stable.addVote v held
    | proposal p => exact stable.handleOuterProposalMsg sender p held
    | blockPart height part => exact stable.addProposalBlockPart part held
    | voteSetMaj23 height round type =>
      exact stable.withMutex held (ite_keeps (mutex true held)
        (claims round type env.id _ (mutex true held)))
    | hasVote => exact stable.withMutex held held
    | badHasVote => exact stable.withMutex held (mutex true held)
    | malformed => exact stable.halt held
    | ignored => exact held
  · exact stable.deliverOwn (fun sender msg same => foreign ⟨sender, msg, same⟩) held

end NodeStable

end

end HNBChain.Audit.Source.Algorand
