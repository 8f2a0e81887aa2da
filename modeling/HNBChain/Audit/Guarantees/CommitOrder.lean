import HNBChain.Audit.Source.Algorand.Ballots
import HNBChain.Audit.Guarantees.RemoteCrash

/-!
# Precommits and parts in any order

A node decides when the precommit that completes the quorum comes in, and only then. If it has the
block at that moment, as its proposal or as the block it is locked on, it stores it. If not,
`enterCommit` asks for the parts of the block and `tryFinalizeCommit` enters the next round at once,
which drops them again: the parts that follow are not taken.
-/
namespace HNBChain.Audit.Guarantees.CommitOrder

open Lib Source Source.Algorand
open RoundMonotone HeightVoteSet Node VoteSet List

/-- The node is at the next height, with the block of this identity stored. -/
def Stores (env : Env) (n n' : Node) (id : BlockID) : Prop :=
  n'.height = n.height + 1 ∧ ∃ c ∈ n'.saved,
    (⟨c.block.hash env.digests, c.partsHeader⟩ : BlockID) = id

/-- A block of this hash is the proposal, in the round that is decided or a later one; or it is the
lock, which the precommit of the decided round drops only for +2/3 of the prevotes. -/
def Held (env : Env) (n : Node) (id : BlockID) (r : Int32) : Prop :=
  r ≤ n.round ∧ Block.hashesTo env.digests n.proposalBlock id.hash ∨
    (n.Passed n.height r .precommit ∨ n.votes.majority r .prevote = none) ∧
      Block.hashesTo env.digests n.lockedBlock id.hash

def Valid (env : Env) (n : Node) (id : BlockID) : Prop :=
  ∀ block, n.proposalBlock = some block ∨ n.lockedBlock = some block →
    Block.hashesTo env.digests (some block) id.hash →
    validateBlock env.digests n.lastCommitState block = .ok ()

def Executes (ans : Answers) : Prop := ∀ blk, ∃ stateHash, ans.blockProcess blk = .ok stateHash

/-- A decision of the round, with the block valid wherever the node has it: nothing that follows can
fail. -/
structure Decided (env : Env) (ans : Answers) (agreed : BlockID → Prop) (n : Node) (id : BlockID)
    (round : Int32) : Prop where
  executes : Executes ans
  coherent : n.Coherent
  ready : n.Ready env agreed
  valid : Valid env n id
  known : 0 ≤ round
  majority : n.votes.majority round .precommit = some id
  allowed : agreed id
  some_hash : id.hash ≠ []

/-- The block is the proposal or the lock. -/
def InHand (env : Env) (n : Node) (id : BlockID) : Prop :=
  Block.hashesTo env.digests n.proposalBlock id.hash ∨
    Block.hashesTo env.digests n.lockedBlock id.hash

/-! ## The commit -/

section

variable {env : Env} {ans : Answers} {n : Node} {id : BlockID} {block : Algorand.Block}
  {round : Int32}

theorem Stores.of_still {m m' : Node} (hst : Stores env n m id) (hsi : Still m m') :
    Stores env n m' id := by
  obtain ⟨height, c, hm, hn⟩ := hst
  exact ⟨hsi.height.trans height, c, hsi.saved ▸ hm, hn⟩

theorem Stores.enterNewRound {m : Node} {height : Nat} (hst : Stores env n m id) :
    Stores env n (m.enterNewRound env ans height round) id := by
  have calms : Calms env (· = 0) m (m.enterNewRound env ans height round) := enterNewRound_calms rfl
  exact hst.of_still calms.still

theorem Stores.of_height {m m' : Node} (hst : Stores env m m' id)
    (height : m.height = n.height) : Stores env n m' id :=
  ⟨hst.1.trans (congrArg (· + 1) height), hst.2⟩

/-- Over a step that takes up no other block. -/
theorem Decided.onto {agreed : BlockID → Prop} {m : Node} (hd : Decided env ans agreed n id round)
    (hc : m.Coherent) (hre : m.Ready env agreed)
    (hma : m.votes.majority round .precommit = n.votes.majority round .precommit)
    (state : m.lastCommitState = n.lastCommitState)
    (has : ∀ block, m.proposalBlock = some block ∨ m.lockedBlock = some block →
      n.proposalBlock = some block ∨ n.lockedBlock = some block) :
    Decided env ans agreed m id round :=
  { hd with
    coherent := hc
    ready := hre
    valid := fun block has' => state.symm ▸ hd.valid block (has block has')
    majority := hma.trans hd.majority }

theorem saveBlock_succeeds (hex : Executes ans) (hc : n.Coherent)
    (sturdy : Sturdy env n.lastCommitState block)
    (hv : validateBlock env.digests n.lastCommitState block = .ok ()) (hk : 0 ≤ n.commitRound)
    (hma : n.votes.majority n.commitRound .precommit = some id) :
    ∃ saved s, n.saveBlock env ans block = .ok (saved, s) := by
  obtain ⟨commit, made⟩ := currentCommit_of_majority hk hma
  have hag : validateBlock env.digests n.lastCommitState.copy
    { block with currentCommit := some commit } =
      .ok () := (validateBlock_copy hc.params _).trans hv
  obtain ⟨blk, hcn⟩ := sturdy.converts hv
  unfold saveBlock
  rw [made]
  simp only [bind, Except.bind]
  rw [hag, (consToStandard_commit hcn (some commit)).2]
  dsimp only
  obtain ⟨stateHash, hpo⟩ := hex { blk with header := { blk.header with
    ext := some commit, previousHash := n.lastCommitState.previousHash } }
  rw [hpo]
  exact ⟨_, _, rfl⟩

theorem finalizeCommit_stores (hex : Executes ans) (hc : n.Coherent)
    (sturdy : Sturdy env n.lastCommitState block)
    (hv : validateBlock env.digests n.lastCommitState block = .ok ()) (hk : 0 ≤ n.commitRound)
    (hma : n.votes.majority n.commitRound .precommit = some id)
    (proposal : n.proposalBlock = some block)
    (header : PartSet.hasHeader n.proposalBlockParts id.partsHeader)
    (hash : Block.hashesTo env.digests (some block) id.hash) (step : n.step = .commit) :
    Stores env n (n.finalizeCommit env ans n.height) id := by
  obtain ⟨saved, s, done⟩ := saveBlock_succeeds hex hc sturdy hv hk hma
  have hcom : Committing env ans n id block saved s :=
    ⟨step, hma, proposal, header, hash, done⟩
  obtain ⟨precommits, s', hso, _, final⟩ := hcom.finalizeCommit_eq hc
  have round : n.commitRound = saved.commitRound := by
    obtain ⟨_, _, same, _⟩ := hcom.stored hc
    exact same
  have hn : (⟨saved.block.hash env.digests, saved.partsHeader⟩ : BlockID) = id := by
    have hf : n.votes.getVoteSet saved.commitRound .precommit = some precommits := hso.found
    rw [round, HeightVoteSet.majority, hf, Option.bind_some, hso.maj23] at hma
    exact Option.some.inj hma
  have hcm : Stores env n (n.committed saved s' precommits) id := by
    refine ⟨rfl, saved, ?_, hn⟩
    rw [(committed_logs n saved s' precommits).2.2]
    exact List.mem_cons_self
  rw [final]
  refine Node.next_induction (motive := fun m => Stores env n m id) (fun _ => hcm) fun _ => ?_
  have hsr : Calms env (· = 0) (n.committed saved s' precommits)
      ((n.committed saved s' precommits).scheduleRound0 env ans) := scheduleRound0_calms rfl
  exact hcm.of_still hsr.still

variable {agreed : BlockID → Prop}

theorem tryFinalizeCommit_stores (hd : Decided env ans agreed n id n.commitRound)
    (header : ¬ Block.hashesTo env.digests n.proposalBlock id.hash →
      PartSet.hasHeader n.proposalBlockParts id.partsHeader) (step : n.step = .commit)
    (held : InHand env n id) : Stores env n (n.tryFinalizeCommit env ans n.height) id := by
  obtain ⟨hex, hc, hre, hv, hk, majority, hal, hse⟩ := hd
  unfold tryFinalizeCommit
  rw [if_neg (not_not.mpr rfl), majority]
  dsimp only [Option.map_some, Option.getD_some]
  rw [if_neg hse, next_of_running hre.running]
  split
  next proposed =>
    obtain ⟨block, proposal⟩ := Block.hashesTo_some proposed
    exact finalizeCommit_stores hex hc (hre.proposalBlock block proposal)
      (hv block (.inl proposal) (proposal ▸ proposed)) hk majority proposal
      (hre.header id hal proposed) (proposal ▸ proposed) step
  next other =>
    have hl := held.resolve_left other
    obtain ⟨block, lock⟩ := Block.hashesTo_some hl
    have hta : { n with proposalBlock := n.lockedBlock }.Coherent := { hc with }
    rw [if_pos hl]
    exact finalizeCommit_stores (n := { n with proposalBlock := n.lockedBlock }) hex hta
      (hre.lockedBlock block lock) (hv block (.inr lock) (lock ▸ hl)) hk majority lock
      (header other) (lock ▸ hl) step

theorem enteredCommit_stores (hd : Decided env ans agreed n id round)
    (header : ¬ Block.hashesTo env.digests n.proposalBlock id.hash →
      PartSet.hasHeader n.proposalBlockParts id.partsHeader) (held : InHand env n id) :
    Stores env n ({ n.updateRoundStep n.round .commit with
    commitRound := round }.tryFinalizeCommit env ans
      n.height) id := by
  have hi : { n.updateRoundStep n.round .commit with commitRound := round }.Coherent :=
    { hd.coherent with fresh := nofun }
  have hho : { n.updateRoundStep n.round .commit with commitRound := round }.Ready env agreed :=
    hd.ready.of_holds rfl hd.ready.running
  exact tryFinalizeCommit_stores (hd.onto hi hho rfl rfl fun _ has =>
    has) header rfl held

theorem enterCommit_stores (hd : Decided env ans agreed n id round) (he : n.step ≠ .commit)
    (held : InHand env n id) : Stores env n (n.enterCommit env ans n.height round) id := by
  have hbe : ¬ RoundStep.commit ≤ n.step := by
    have late := RoundStep.num_le_precommitWait he
    rw [RoundStep.le_iff]
    exact Nat.not_le.mpr (Nat.lt_of_le_of_lt late (by decide))
  obtain ⟨m, fetches, hi, hak, hen⟩ :=
    enterCommit_fetches ans hd.coherent hd.ready hbe hd.majority
  -- when the proposal is another block, it is the lock that is stored
  have held' : InHand env m id := by
    unfold InHand
    rw [fetches.lockedBlock]
    rcases fetches.proposalBlock with same | ⟨_, other⟩
    · exact same ▸ held
    · exact .inr (held.resolve_left other)
  have decided' : Decided env ans agreed m id round := by
    refine hd.onto hi hak (by rw [fetches.votes]) fetches.lastCommitState
      fun block has => ?_
    rw [fetches.lockedBlock] at has
    rcases fetches.proposalBlock with same | ⟨hdr, _⟩
    · exact same ▸ has
    · exact has.imp_left fun kept => by cases hdr.symm.trans kept
  rw [hen]
  exact (enteredCommit_stores decided' fetches.header held').of_height fetches.height

/-! ## The precommit that decides -/

theorem enterNewRound_closed {height : Nat}
    (hcl : round < n.round ∨ n.round = round ∧ n.step ≠ .newHeight) :
    n.enterNewRound env ans height round = n := by
  unfold enterNewRound
  rw [if_pos (.inr hcl)]

theorem enterNewRound_back {m : Node} (hen : n.enterNewRound env ans n.height round = m)
    (hru : ¬ m.halted) (back : round ≤ n.round) : m.round = n.round := by
  subst hen
  rcases Int32.lt_or_eq_of_le back with hbe | same
  · rw [enterNewRound_closed (.inl hbe)]
  · rw [enterNewRound_round (Int32.le_of_eq same.symm) hru, same]

theorem enterPrecommit_lock {height : Nat} :
    (n.enterPrecommit env ans height round).lockedBlock = n.lockedBlock ∨
      (¬ n.Passed height round .precommit ∧ n.votes.majority round .prevote ≠ none) ∧
        ((n.enterPrecommit env ans height round).lockedBlock = n.proposalBlock ∨
          (n.enterPrecommit env ans height round).lockedBlock = none) := by
  unfold enterPrecommit
  split
  · exact .inl rfl
  next open_ =>
    unfold doPrecommit
    cases polka : n.votes.majority round .prevote with
    | none => exact .inl rfl
    | some id =>
      dsimp only
      split
      · exact .inl rfl
      · split
        · exact .inr ⟨⟨open_, Option.some_ne_none id⟩, .inl rfl⟩
        · exact .inr ⟨⟨open_, Option.some_ne_none id⟩, .inr rfl⟩

theorem enterPrecommit_proposalBlock {height : Nat} :
    (n.enterPrecommit env ans height round).proposalBlock = n.proposalBlock ∧
      (n.enterPrecommit env ans height round).lastCommitState = n.lastCommitState := by
  unfold enterPrecommit
  split
  · exact ⟨rfl, rfl⟩
  · obtain ⟨_, _, _, _, fields⟩ := doPrecommit_fields env ans round n
    rw [fields]
    exact ⟨rfl, rfl⟩

theorem enterNewRound_held {m : Node} (hen : n.enterNewRound env ans n.height round = m)
    (hru : ¬ m.halted) (hsi : Still n m) (hc : n.Coherent) (held : Held env n id round) :
    Block.hashesTo env.digests m.proposalBlock id.hash ∨ (m.Passed m.height round .precommit ∨
      m.votes.majority round .prevote = none) ∧
      Block.hashesTo env.digests m.lockedBlock id.hash := by
  rcases held with ⟨back, hpr⟩ | ⟨kept, hl⟩
  · rw [hsi.proposalBlock (enterNewRound_back hen hru back) hc.fresh]
    exact .inl hpr
  · rw [hsi.lockedBlock]
    refine .inr ⟨?_, hl⟩
    rcases kept with hpa | open_
    · -- past the precommit the round is not entered again
      have hcl : round < n.round ∨ n.round = round ∧ n.step ≠ .newHeight := by
        rcases hpa with other | hbe | ⟨same, late⟩
        · exact absurd rfl other
        · exact .inl hbe
        · refine .inr ⟨same, fun waits => ?_⟩
          rw [waits] at late
          exact absurd late (by decide)
      rw [← hen, enterNewRound_closed hcl]
      exact .inl hpa
    · rw [hsi.votes.majority]
      exact .inr open_

theorem commitAfter_stores (hd : Decided env ans agreed n id round) (hti : Timely n n.height round)
    (he : n.step ≠ .commit) (held : Block.hashesTo env.digests n.proposalBlock id.hash ∨
      (n.Passed n.height round .precommit ∨ n.votes.majority round .prevote = none) ∧
        Block.hashesTo env.digests n.lockedBlock id.hash) :
    Stores env n ((n.enterPrecommit env ans n.height round).next
      (enterCommit env ans n.height round)) id := by
  obtain ⟨m, hen, hre, hc, height, _, votes⟩ :=
    enterPrecommit_entered env ans hd.coherent hd.ready hti
  have kept : m.proposalBlock = n.proposalBlock ∧ m.lastCommitState = n.lastCommitState :=
    hen ▸ enterPrecommit_proposalBlock
  obtain ⟨proposal, state⟩ := kept
  have lock : m.lockedBlock = n.lockedBlock ∨ _ := hen ▸ enterPrecommit_lock
  have step : m.step ≠ .commit := by
    rw [← hen]
    unfold enterPrecommit
    split
    · exact he
    · exact nofun
  rw [hen, next_of_running hre.running]
  have decided' : Decided env ans agreed m id round := by
    refine hd.onto hc hre (by rw [votes]) state fun block has => ?_
    rcases has with hpr | hl
    · exact .inl (proposal ▸ hpr)
    · rcases lock with same | ⟨_, same | none_⟩
      · exact .inr (same ▸ hl)
      · exact .inl (same ▸ hl)
      · cases none_.symm.trans hl
  have held' : InHand env m id := by
    unfold InHand
    rw [proposal]
    refine held.imp_right fun ⟨kept, hl⟩ => ?_
    rcases lock with same | ⟨⟨open_, polka⟩, _⟩
    · exact same ▸ hl
    · exact absurd kept (not_or.mpr ⟨open_, polka⟩)
  have hst := enterCommit_stores decided' step held'
  rw [height] at hst
  exact hst.of_height height

theorem afterPrecommit_stores {vote : Vote} {precommits : VoteSet} (kind : ans.Kind)
    (hd : Decided env ans agreed n id vote.round) (ht : Early vote.round)
    (maj23 : precommits.maj23 = some id) (he : n.step ≠ .commit) (held : Held env n id vote.round) :
    Stores env n (n.afterPrecommit env ans vote precommits) id := by
  obtain ⟨m, eq, hen, calms, hti, _⟩ := enterNewRound_entered kind hd.ready ht
  have hsi := calms.still
  have held' := enterNewRound_held eq hen.running hsi hd.coherent held
  have hc := calms.coherent hd.coherent
  unfold afterPrecommit
  dsimp only
  rw [eq, next_of_running hen.running, maj23]
  dsimp only
  rw [if_neg hd.some_hash]
  have step : m.step ≠ .commit := by
    rcases hsi.step with ⟨same, _⟩ | ⟨_, other⟩
    · exact same ▸ he
    · exact other
  have decided' : Decided env ans agreed m id vote.round := by
    refine hd.onto hc hen (hsi.votes.majority _ _) hsi.lastCommitState
      fun block has => ?_
    rw [hsi.lockedBlock] at has
    rcases hsi.proposed with same | none_
    · exact same ▸ has
    · exact has.imp_left fun kept => by cases none_.symm.trans kept
  have hst := commitAfter_stores decided' (hsi.height ▸ hti) step held'
  rw [hsi.height] at hst
  have final := hst.of_height hsi.height
  refine next_induction (motive := fun m => Stores env n m id) (fun _ => final) fun _ => ?_
  split
  · exact final.enterNewRound
  · exact final

theorem addCurrentVote_stores {vote : Vote} (kind : ans.Kind)
    (hd : Decided env ans agreed { n with votes := (n.votes.addVote vote).2 } id vote.round)
    (ht : Early vote.round) (type : vote.type = .precommit)
    (ha : (n.votes.votesAt vote.round vote.type).Accords vote)
    (added : (n.votes.addVote vote).1.1 = true) (he : n.step ≠ .commit)
    (held : Held env n id vote.round) : Stores env n (n.addCurrentVote env ans vote) id := by
  have polka : (n.votes.addVote vote).2.majority vote.round .prevote =
      n.votes.majority vote.round .prevote := by
    have other : ¬ (vote.round = vote.round ∧ VoteType.prevote = vote.type) := by
      rw [type]
      exact fun same => by cases same.2
    rw [majority_eq, majority_eq, (addVote_eq (type ▸ by decide)).2,
      if_neg other]
  have held' : Held env { n with votes := (n.votes.addVote vote).2 } id vote.round := by
    unfold Held
    rw [polka]
    exact held
  obtain ⟨precommits, hf, maj23⟩ := Option.bind_eq_some_iff.mp hd.majority
  unfold addCurrentVote
  dsimp only
  rw [if_neg (HeightVoteSet.addVote_ne_panic ha), if_pos added, type, hf]
  exact afterPrecommit_stores kind hd ht maj23 he held'

/-- Tracking the round of a vote leaves the vote sets. -/
theorem tracked_eq {vote : Vote} (ht : Early vote.round) :
    ∃ votes : HeightVoteSet, n.tracked vote = { n with votes := votes } ∧
      ∀ r t, votes.votesAt r t = n.votes.votesAt r t := by
  have tracks : ¬ HeightVoteSet.SetRoundHangs vote.round := ht.ne_max
  unfold Node.tracked Node.setRound
  rw [if_neg tracks]
  split
  · exact ⟨_, rfl, fun r t => HeightVoteSet.votesAt_setRound⟩
  · exact ⟨_, rfl, fun r t => rfl⟩

variable (env ans) in
theorem addVote_eq_addCurrentVote {vote : Vote} (ht : Early vote.round) (hru : ¬ n.halted)
    (height : vote.height = n.height) : ∃ votes : HeightVoteSet,
      (∀ r t, votes.votesAt r t = n.votes.votesAt r t) ∧
      n.tracked vote = { n with votes := votes } ∧
        n.addVote env ans vote = { n with votes := votes }.addCurrentVote env ans vote := by
  obtain ⟨votes, htr, same⟩ := tracked_eq (n := n) ht
  refine ⟨votes, same, htr, ?_⟩
  have hla : ¬ vote.height + 1 = n.height := by omega
  change (n.tracked vote).next _ = _
  rw [htr, next_of_running (show ¬ { n with votes := votes }.halted from hru)]
  rw [if_neg hla, if_neg (not_not.mpr height)]

theorem addVote_votesAt {vote : Vote} {votes others : HeightVoteSet} (hk : vote.type ≠ .unknown)
    (same : ∀ r t, votes.votesAt r t = others.votesAt r t) (r : Int32) (t : VoteType) :
    (votes.addVote vote).2.votesAt r t = (others.addVote vote).2.votesAt r t := by
  rw [(addVote_eq hk).2, same, same, ← (addVote_eq hk).2]

theorem addVote_stores {vote : Vote} (kind : ans.Kind)
    (hd : Decided env ans agreed { n with votes := (n.votes.addVote vote).2 } id vote.round)
    (ht : Early vote.round) (height : vote.height = n.height) (type : vote.type = .precommit)
    (ha : (n.votes.votesAt vote.round vote.type).Accords vote)
    (had : (n.votes.addVote vote).1.1 = true) (he : n.step ≠ .commit)
    (held : Held env n id vote.round) : Stores env n (n.addVote env ans vote) id := by
  have hru : ¬ n.halted := hd.ready.running
  obtain ⟨votes, same, htr, hh⟩ := addVote_eq_addCurrentVote env ans ht hru height
  have hk : vote.type ≠ .unknown := type ▸ by decide
  have added' : (votes.addVote vote).1.1 = true := by
    rw [(addVote_eq (r := 0) (t := .prevote) hk).1, same,
      ← (addVote_eq (r := 0) (t := .prevote) hk).1]
    exact had
  have hrc := addVote_votesAt hk same
  have hc : { n with votes := (votes.addVote vote).2 }.Coherent := by
    have place := congrArg toSlot (hrc 0 .prevote)
    rw [votesAt_sound.1, votesAt_sound.1] at place
    exact { hd.coherent with
      votesHeight := (congrArg Slot.height place).trans hd.coherent.votesHeight
      votesValSet := (congrArg Slot.valSet place).trans hd.coherent.votesValSet }
  have decided' : Decided env ans agreed
      { n with votes := (votes.addVote vote).2 } id vote.round := by
    refine hd.onto hc (hd.ready.of_holds rfl hd.ready.running) ?_ rfl
      fun _ has => has
    rw [majority_eq, hrc, ← majority_eq]
  have held' : Held env { n with votes := votes } id vote.round := by
    unfold Held
    rw [majority_eq, same, ← majority_eq]
    exact held
  rw [hh]
  exact addCurrentVote_stores kind decided' ht type (same _ _ ▸ ha) added' he held'

/-! ## One message -/

/-- What stays when a message decides nothing. -/
def Stays (r : Int32) (n m : Node) : Prop :=
  m.height = n.height ∧ m.validators = n.validators ∧ m.saved = n.saved ∧
    m.votes.votesAt r .precommit = n.votes.votesAt r .precommit

theorem stays_stable (r : Int32) (n : Node) : RoundStable (Stays r n) where
  light light stays := by
    rw [light]
    exact stays
  tracks round stays := by
    obtain ⟨height, validators, hsv, votes⟩ := stays
    exact ⟨height, validators, hsv, votesAt_setRound.trans votes⟩
  proposes _ _ _ stays := stays
  locks _ _ _ stays := stays

theorem afterPrecommit_stays {r : Int32} {a : Node} {vote : Vote} {precommits : VoteSet}
    (hs : Stays r a n) (hu : precommits.maj23 = none) :
    Stays r a (n.afterPrecommit env ans vote precommits) := by
  have hsa := stays_stable r a
  unfold afterPrecommit
  rw [hu]
  refine ite_keeps (next_keeps (next_keeps (hsa.enterNewRound hs) ?_) ?_) hs
  · exact fun m => hsa.enterPrecommit
  · exact fun m => hsa.enterPrecommitWait

/-- A precommit that does not decide is recorded, and nothing else is. -/
theorem addVote_stays {vote : Vote} (ht : Early vote.round) (hru : ¬ n.halted)
    (height : vote.height = n.height) (type : vote.type = .precommit)
    (ha : (n.votes.votesAt vote.round vote.type).Accords vote)
    (hu : (n.votes.addVote vote).2.majority vote.round .precommit = none) :
    Stays vote.round { n with votes := (n.votes.addVote vote).2 } (n.addVote env ans vote) := by
  obtain ⟨votes, same, htr, hh⟩ := addVote_eq_addCurrentVote env ans ht hru height
  have hk : vote.type ≠ .unknown := type ▸ by decide
  have hrc := addVote_votesAt hk same
  have hs : Stays vote.round { n with votes := (n.votes.addVote vote).2 }
      { n with votes := (votes.addVote vote).2 } := ⟨rfl, rfl, rfl, hrc vote.round .precommit⟩
  have accords' : (votes.votesAt vote.round vote.type).Accords vote := same _ _ ▸ ha
  rw [hh]
  unfold addCurrentVote
  dsimp only
  rw [if_neg (HeightVoteSet.addVote_ne_panic accords')]
  refine ite_keeps ?_ hs
  rw [type]
  cases found : (votes.addVote vote).2.getVoteSet vote.round .precommit with
  | none => exact hs
  | some precommits =>
    refine afterPrecommit_stays hs ?_
    rw [← votesAt_of_some found, hrc, ← majority_eq]
    exact hu

theorem addLastVote_stays {r : Int32} {a : Node} {vote : Vote} (hs : Stays r a n) :
    Stays r a (n.addLastVote env ans vote) := by
  have hsa := stays_stable r a
  refine ite_keeps hs ?_
  cases n.lastCommit with
  | none => exact hsa.halt hs
  | some lastCommit =>
    exact ite_keeps (hsa.halt hs) (ite_keeps (hsa.enterNewRound hs) hs)

/-- A vote for the height before is at most recorded in `LastCommit`. -/
theorem addVote_behind {r : Int32} {vote : Vote} (hbh : vote.height + 1 = n.height) :
    Stays r n (n.addVote env ans vote) := by
  have hsa := stays_stable r n
  have start : Stays r n n := ⟨rfl, rfl, rfl, rfl⟩
  have htr : Stays r n (if n.round < vote.round then n.setRound vote.round else n) :=
    ite_keeps (hsa.setRound start) start
  refine next_keeps htr fun m hs => ?_
  rw [if_pos (hs.1 ▸ hbh)]
  exact addLastVote_stays hs

theorem addProposalBlockPart_stays {r : Int32} {height : Nat} {part : Part}
    (he : n.step ≠ .commit) : Stays r n (n.addProposalBlockPart env ans height part) := by
  have hsa := stays_stable r n
  have start : Stays r n n := ⟨rfl, rfl, rfl, rfl⟩
  refine ite_keeps start ?_
  cases n.proposalBlockParts with
  | none => exact start
  | some ps =>
    refine ite_keeps start (ite_keeps ?_ start)
    unfold completeProposal
    cases env.decodeBlock _ with
    | failed => exact start
    | malformed => exact hsa.halt start
    | uncommitted b => exact ite_keeps start (hsa.halt start)
    | block b =>
      dsimp only
      split
      · exact hsa.halt start
      · exact start
      · rw [if_neg he]
        exact ite_keeps (hsa.enterPrevote start) start

end

/-! ## Runs -/

/-- Precommits for the block, and parts for their height. -/
inductive Brings (slot : Slot) (id : BlockID) : Event → Prop where
  | precommit {i : Nat} {v : Vote} (sender : Bytes) (casts : slot.Casts i v)
      (named : v.blockID = id) :
      Brings slot id (.peer sender (.vote v))
  | part (sender : Bytes) (part : Part) :
      Brings slot id (.peer sender (.blockPart slot.height part))

/-- The event is a vote of the validator with this index. -/
def CastBy (i : Nat) (e : Event) : Prop := ∃ sender v, e = .peer sender (.vote v) ∧
    v.validatorIndex = i

/-- The node handles what this sender sends, and has rounds left. -/
structure Takes (env : Env) (n : Node) (sender : Bytes) : Prop where
  running : ¬ n.halted
  continues : n.isContinueConsensus
  sender : n.isPeerInbgGroup env sender
  member : n.inbgGroup env
  early : Early n.round

/-- The quorum for the block of this vote lacks this vote and no other. -/
def Closes (n : Node) (v : Vote) : Prop :=
  n.validators.quorum ≤ ((n.votes.votesAt v.round .precommit).block v.key).sum + 1 ∧
    ((n.votes.votesAt v.round .precommit).block v.key).votes v.validatorIndex.toNat = none

/-- The node has the block, and nothing in the handlers, the validation or the execution fails. -/
structure CanStore (env : Env) (ans : Answers) (n : Node) (id : BlockID) (r : Int32) : Prop where
  kind : ans.Kind
  executes : Executes ans
  ready : n.Ready env (· = id)
  valid : Valid env n id
  held : Held env n id r

/-- The validator of a vote has no other precommit recorded for the round, and when its vote is the
one that decides, the block is there. -/
def Met (env : Env) (ans : Answers) (n : Node) : Event → Prop
  | .peer sender (.vote v) => Takes env n sender ∧
      (∀ old, n.votes.Recorded v.round .precommit v.validatorIndex.toNat old →
        old.blockID = v.blockID) ∧
      (Closes n v → CanStore env ans n v.blockID v.round)
  | .peer sender _ => Takes env n sender
  | _ => True

/-- Every message that comes in at the height meets the condition. -/
def MetAt (env : Env) (height : Nat) : Node → List (Event × Answers) → Prop
  | _, [] => True
  | n, (e, ans) :: rest =>
    (n.height = height → Met env ans n e) ∧ MetAt env height (n.deliver env ans e) rest

/-- The parts hash is not empty, and the key of the block the same whoever spells it. -/
def Counted (n : Node) (r : Int32) (id : BlockID) (i : Nat) : Prop :=
  (((n.votes.votesAt r .precommit).block (id.key true)).votes i).isSome

section

variable {env : Env} {ans : Answers} {n m : Node} {id : BlockID} {slot : Slot}
  {r : Int32} {e : Event}

variable {sender : Bytes}

theorem Takes.deliver (takes : Takes env n sender) (msg : PeerMsg) :
    n.deliver env ans (.peer sender msg) = n.processOuterMsg env ans sender msg := by
  unfold Node.deliver
  rw [if_neg takes.running]
  exact if_pos takes.continues

/-- The sender and the node are in the group, so that the message is not turned away. -/
theorem Takes.heard (takes : Takes env n sender) :
    ¬ (¬ n.isPeerInbgGroup env sender ∨ ¬ n.inbgGroup env) := by
  rintro (stranger | outsider)
  · exact stranger takes.sender
  · exact outsider takes.member

theorem Takes.not_commit (takes : Takes env n sender) (hr : Reachable env n) :
    n.step ≠ .commit := by
  intro hi
  rcases hr.rests hi with hha | last
  · exact takes.running hha
  · exact takes.early.ne_max last

/-- The node goes on at the height, undecided, with the vote of the event counted. -/
structure Waits (n m : Node) (r : Int32) (id : BlockID) (e : Event) : Prop where
  height : m.height = n.height
  validators : m.validators = n.validators
  pending : m.votes.majority r .precommit = none
  counted : ∀ i, Counted n r id i ∨ CastBy i e → Counted m r id i

/-- The precommit comes to a set that is undecided, and in which its validator has no vote for
another block. -/
structure Arrives (n : Node) (i : Nat) (v : Vote) : Prop where
  casts : (n.votes.votesAt v.round .precommit).Casts i v
  type : v.type = .precommit
  regular : (n.votes.votesAt v.round .precommit).Regular
  undecided : (n.votes.votesAt v.round .precommit).maj23Key = none
  alone : ∀ old, (n.votes.votesAt v.round .precommit).Recorded i old → old.key = v.key

namespace Arrives

variable {i : Nat} {v : Vote}

theorem index (arrives : Arrives n i v) : v.validatorIndex.toNat = i := by
  rw [arrives.casts.index]
  rfl

theorem addVote (arrives : Arrives n i v) :
    (n.votes.addVote v).1 = ((n.votes.votesAt v.round .precommit).addVote v).1 ∧
      (n.votes.addVote v).2.votesAt v.round .precommit =
        ((n.votes.votesAt v.round .precommit).addVote v).2 := by
  have eq := @addVote_eq n.votes v.round .precommit v (arrives.type ▸ by decide)
  rw [arrives.type, if_pos ⟨rfl, rfl⟩] at eq
  exact eq

/-- The vote is counted, with those that were. -/
theorem counted (arrives : Arrives n i v) (named : id.key true = v.key)
    (hm : m.votes.votesAt v.round .precommit = (n.votes.addVote v).2.votesAt v.round .precommit)
    (j : Nat) (counts : Counted n v.round id j ∨ CastBy j (.peer sender (.vote v))) :
    Counted m v.round id j := by
  unfold Counted
  rw [hm, arrives.addVote.2]
  rcases counts with hbe | ⟨_, _, same, cast⟩
  · exact addVote_mono v hbe
  · cases same
    have own : j = i := by
      rw [← arrives.index, cast]
      rfl
    rw [own, named]
    exact (addVote_backs arrives.regular arrives.undecided arrives.alone arrives.casts).1

/-- A vote that decides is the one the quorum lacked, and it is taken. -/
theorem closes (arrives : Arrives n i v) (valSet : n.votes.valSet = n.validators)
    (hd : (n.votes.addVote v).2.majority v.round .precommit ≠ none) :
    Closes n v ∧ (n.votes.addVote v).1.1 = true := by
  have place : (n.votes.votesAt v.round .precommit).valSet = n.validators := by
    rw [votesAt_sound.1]
    exact valSet
  have hdk : ((n.votes.votesAt v.round .precommit).addVote v).2.maj23Key ≠ none := by
    rw [majority_eq, arrives.addVote.2] at hd
    exact fun none_ => hd (Option.map_eq_none_iff.mpr none_)
  constructor
  · have lacks := addVote_closes arrives.regular arrives.undecided arrives.alone arrives.casts hdk
    rw [place, ← arrives.index] at lacks
    exact lacks
  · rw [arrives.addVote.1]
    have backs := addVote_backs arrives.regular arrives.undecided arrives.alone arrives.casts
    refine backs.2.resolve_left fun same => ?_
    rw [same] at hdk
    exact hdk arrives.undecided

/-- What is decided by the vote is its block. -/
theorem majority (arrives : Arrives n i v)
    (hd : (n.votes.addVote v).2.majority v.round .precommit ≠ none) :
    (n.votes.addVote v).2.majority v.round .precommit = some v.blockID := by
  obtain ⟨other, reaches⟩ := Option.ne_none_iff_exists'.mp hd
  rcases majority_of_addVote reaches with hbe | same
  · rw [majority_eq, VoteSet.maj23, arrives.undecided] at hbe
    cases hbe
  · exact same ▸ reaches

end Arrives

/-- A precommit for the block that meets the condition. -/
theorem deliver_vote {i : Nat} {v : Vote} (hr : Reachable env n) (hse : id.hash ≠ [])
    (hpt : id.partsHeader.hash ≠ []) (hk : 0 ≤ r) (he : Early r)
    (hca : Slot.Casts ⟨n.height, r, .precommit, n.validators⟩ i v)
    (hn : v.blockID = id) (hp : n.votes.majority r .precommit = none)
    (met : Met env ans n (.peer sender (.vote v))) :
    Stores env n (n.deliver env ans (.peer sender (.vote v))) id ∨
      Waits n (n.deliver env ans (.peer sender (.vote v))) r id (.peer sender (.vote v)) := by
  obtain ⟨takes, hao, closing⟩ := met
  have hc := hr.coherent
  obtain rfl : v.round = r := hca.round
  have type : v.type = .precommit := hca.type
  -- the parts hash is not empty, so a block has one key
  have key : ∀ old : Vote, old.blockID = v.blockID → old.key = v.key := by
    intro old same
    rw [Vote.key, same, Vote.key]
    exact BlockID.key_eq (hn.symm ▸ hpt) ..
  have ha : (n.votes.votesAt v.round v.type).Accords v := fun old _ same => key old same
  have place : (n.votes.votesAt v.round .precommit).toSlot = ⟨n.height, v.round, .precommit,
      n.validators⟩ := by
    rw [votesAt_sound.1, hc.votesHeight, hc.votesValSet]
  have arrives : Arrives n i v := by
    refine ⟨place.symm ▸ hca, type, hr.regular v.round .precommit, ?_, fun old hrc => ?_⟩
    · rw [majority_eq] at hp
      exact Option.map_eq_none_iff.mp hp
    · refine key old (hao old (recorded_iff.mpr ?_))
      rw [show v.validatorIndex.toNat = i by rw [hca.index]; rfl]
      exact hrc
  have hh : n.deliver env ans (.peer sender (.vote v)) = n.addVote env ans v := by
    rw [takes.deliver]
    exact if_neg takes.heard
  rw [hh]
  by_cases hd : (n.votes.addVote v).2.majority v.round .precommit = none
  · right
    have hs : Stays v.round _ (n.addVote env ans v) :=
      addVote_stays he takes.running hca.height type ha hd
    obtain ⟨height, validators, _, votes⟩ := hs
    refine ⟨height, validators, ?_, arrives.counted ?_ votes⟩
    · rw [majority_eq, votes, ← majority_eq]
      exact hd
    · rw [Vote.key, hn]
      exact BlockID.key_eq hpt ..
  · left
    obtain ⟨closes, taken⟩ := arrives.closes hc.votesValSet hd
    obtain ⟨kind, hex, hre, hv, held⟩ := closing closes
    have hma := arrives.majority hd
    rw [hn] at hre hv held hma
    have coherent' : { n with votes := (n.votes.addVote v).2 }.Coherent :=
      { hc with
        votesHeight := by rw [addVote_height, hc.votesHeight]
        votesValSet := by rw [addVote_valSet, hc.votesValSet] }
    have decides : Decided env ans (· = id) { n with votes := (n.votes.addVote v).2 } id v.round :=
      ⟨hex, coherent', hre.of_holds rfl hre.running, hv, hk, hma, rfl, hse⟩
    exact addVote_stores kind decides he hca.height type ha taken (takes.not_commit hr) held

theorem deliver_part {part : Part} {height : Nat} (hr : Reachable env n)
    (takes : Takes env n sender) (hp : n.votes.majority r .precommit = none) :
    Waits n (n.deliver env ans (.peer sender (.blockPart height part))) r id
      (.peer sender (.blockPart height part)) := by
  have hh : n.deliver env ans (.peer sender (.blockPart height part)) =
      n.addProposalBlockPart env ans height part := by
    rw [takes.deliver]
    exact if_neg takes.heard
  have hs : Stays r n (n.addProposalBlockPart env ans height part) :=
    addProposalBlockPart_stays (takes.not_commit hr)
  rw [hh]
  obtain ⟨same, validators, _, votes⟩ := hs
  refine ⟨same, validators, ?_, ?_⟩
  · rw [majority_eq, votes, ← majority_eq]
    exact hp
  · intro i counts
    unfold Counted
    rw [votes]
    refine counts.resolve_right fun ⟨_, _, other, _⟩ => by cases other

/-- What comes in later for the height before changes neither the height nor what is stored. -/
theorem deliver_behind (brings : Brings slot id e) (hbh : n.height = slot.height + 1) :
    (n.deliver env ans e).height = n.height ∧ (n.deliver env ans e).saved = n.saved := by
  have start : n.height = n.height ∧ n.saved = n.saved := ⟨rfl, rfl⟩
  -- the guards of the delivery leave the node as it is
  have guarded (sender : Bytes) (msg : PeerMsg)
    (hh : (n.processOuterMsg env ans sender msg).height = n.height ∧
        (n.processOuterMsg env ans sender msg).saved = n.saved) :
      (n.deliver env ans (.peer sender msg)).height = n.height ∧
        (n.deliver env ans (.peer sender msg)).saved = n.saved := by
    refine ite_keeps (P := fun m => m.height = n.height ∧ m.saved = n.saved) start ?_
    exact ite_keeps (P := fun m => m.height = n.height ∧ m.saved = n.saved) hh start
  cases brings with
  | @precommit i v sender hca hn =>
    have height : v.height = slot.height := hca.height
    have hs : Stays 0 n (n.addVote env ans v) := addVote_behind (height ▸ hbh.symm)
    exact guarded sender _ (ite_keeps (P := fun m => m.height = n.height ∧ m.saved = n.saved) start
      ⟨hs.1, hs.2.2.1⟩)
  | part sender part =>
    have hdr : n.addProposalBlockPart env ans slot.height part = n :=
      if_pos (hbh ▸ Nat.succ_ne_self slot.height)
    refine guarded sender _ (ite_keeps (P := fun m => m.height = n.height ∧
      m.saved = n.saved) start ?_)
    dsimp only
    rw [hdr]
    exact start

theorem run_behind {events : List (Event × Answers)}
    (brings : ∀ event ∈ events, Brings slot id event.1) (hbh : n.height = slot.height + 1) :
    (n.run env events).height = n.height ∧ (n.run env events).saved = n.saved := by
  induction events generalizing n with
  | nil => exact ⟨rfl, rfl⟩
  | cons event rest ih =>
    obtain ⟨height, hsv⟩ : (n.deliver env event.2 event.1).height = n.height ∧
        (n.deliver env event.2 event.1).saved = n.saved :=
      deliver_behind (brings event mem_cons_self) hbh
    have hla := ih (fun other hm => brings other (mem_cons_of_mem event hm))
      (height.trans hbh)
    exact ⟨hla.1.trans height, hla.2.trans hsv⟩

theorem deliver_outcome (hr : Reachable env n) (hse : id.hash ≠ [])
    (hpt : id.partsHeader.hash ≠ []) (hk : 0 ≤ r) (he : Early r)
    (brings : Brings ⟨n.height, r, .precommit, n.validators⟩ id e)
    (hp : n.votes.majority r .precommit = none) (met : Met env ans n e) :
    Stores env n (n.deliver env ans e) id ∨ Waits n (n.deliver env ans e) r id e := by
  cases brings with
  | precommit sender hca hn =>
    exact deliver_vote hr hse hpt hk he hca hn hp met
  | part sender part => exact .inr (deliver_part hr met hp)

/-- Votes of more than two thirds that are all counted have decided. -/
theorem decided_of_counted {voters : Finset Nat} (hr : Reachable env n)
    (hb : n.validators.Bounded) (most : 2 * n.validators.wholePower < 3 * voters.card)
    (hco : ∀ i ∈ voters, Counted n r id i) : n.votes.majority r .precommit ≠ none := by
  have place : (n.votes.votesAt r .precommit).valSet = n.validators := by
    rw [votesAt_sound.1]
    exact hr.coherent.votesValSet
  have hps : 0 < n.validators.quorum := by
    refine Int.not_le.mp fun none_ => ?_
    have low := (hb.quorum_le_iff 0).mp none_
    have hno := hb.total.1
    omega
  have hd := decided_of_backed (hr.regular r .precommit) votesAt_sound.2
    (place ▸ hps) (place ▸ (hb.quorum_le_iff _).mpr most) hco
  rw [majority_eq]
  exact fun none_ => hd (Option.map_eq_none_iff.mp none_)

/-- In whatever order the precommits of more than two thirds come in, a vote for every validator
against the total power, and whatever parts come between them: if the node has the block when the
vote that decides comes, it ends at the next height with the block stored. -/
theorem precommits_commit {voters : Finset Nat} {events : List (Event × Answers)}
    (hr : Reachable env n) (hse : id.hash ≠ []) (hpt : id.partsHeader.hash ≠ [])
    (hk : 0 ≤ r) (he : Early r) (hb : n.validators.Bounded)
    (most : 2 * n.validators.wholePower < 3 * voters.card)
    (brings : ∀ event ∈ events, Brings ⟨n.height, r, .precommit, n.validators⟩ id event.1)
    (cast : ∀ i ∈ voters, Counted n r id i ∨ ∃ event ∈ events, CastBy i event.1)
    (hp : n.votes.majority r .precommit = none) (met : MetAt env n.height n events) :
    Stores env n (n.run env events) id := by
  -- the validators that are not counted yet are those whose votes are still to come
  induction events generalizing n with
  | nil =>
    have hco (i : Nat) (hm : i ∈ voters) : Counted n r id i :=
      (cast i hm).resolve_right fun ⟨_, none_, _⟩ => by cases none_
    exact absurd hp (decided_of_counted hr hb most hco)
  | cons event rest ih =>
    have brings' := fun other hm => brings other (mem_cons_of_mem event hm)
    rcases deliver_outcome hr hse hpt hk he (brings event mem_cons_self)
      hp (met.1 rfl) with hst | waits
    · obtain ⟨height, hsv⟩ :
          (n.run env (event :: rest)).height = (n.deliver env event.2 event.1).height ∧
          (n.run env (event :: rest)).saved = (n.deliver env event.2 event.1).saved :=
        run_behind brings' hst.1
      exact ⟨height.trans hst.1, hsv.symm ▸ hst.2⟩
    · obtain ⟨height, validators, pending', hco⟩ := waits
      rw [← height, ← validators] at brings'
      have cast' (i : Nat) (hm : i ∈ voters) : Counted (n.deliver env event.2 event.1) r id i ∨
          ∃ event ∈ rest, CastBy i event.1 := by
        rcases cast i hm with hbe | ⟨other, hw, own⟩
        · exact .inl (hco i (.inl hbe))
        · rcases mem_cons.mp hw with rfl | hla
          · exact .inl (hco i (.inr own))
          · exact .inr ⟨other, hla, own⟩
      have hst := ih (.deliver event.2 event.1 hr) (validators.symm ▸ hb)
        (validators.symm ▸ most) brings' cast' pending' (height.symm ▸ met.2)
      exact ⟨hst.1.trans (congrArg (· + 1) height), hst.2⟩

end

/-! ## Two orders of the same messages -/

/-- The second of two validators, with the proposal of the first round. -/
def proposed : Node := (plainNode 2).run (plainEnv 2 1) [(proposalFor 0 7, plainAnswers)]

/-- The two precommits with the block's part between them. -/
def partBetween : List (Event × Answers) :=
  [(voteFrom 0 0 .precommit (plainID 7), plainAnswers), (partOf 7, plainAnswers),
    (voteFrom 1 0 .precommit (plainID 7), plainAnswers)]

/-- The node with one precommit and the block. -/
def oneShort : Node := proposed.run (plainEnv 2 1) (partBetween.take 2)

theorem oneShort_holds : oneShort.proposalBlock = some ((plainBlock 2 7).hashed digests) ∧
    oneShort.lockedBlock = none ∧ oneShort.lastCommitState = plainState 2 := ⟨rfl, rfl, rfl⟩

theorem plainBlock_sturdy : Sturdy (plainEnv 2 1) (plainState 2) ((plainBlock 2 7).hashed digests) ∧
    validateBlock digests (plainState 2) ((plainBlock 2 7).hashed digests) = .ok () := by
  have hv : validateBlock digests (plainState 2)
    ((plainBlock 2 7).hashed digests) = .ok () := rfl
  refine ⟨⟨?_, fun _ => ⟨_, rfl⟩⟩, hv⟩
  change validateBlock digests (plainState 2) _ ≠ _
  rw [hv]
  exact nofun

theorem oneShort_canStore : CanStore (plainEnv 2 1) plainAnswers oneShort (plainID 7) 0 := by
  obtain ⟨proposal, lock, state⟩ := oneShort_holds
  obtain ⟨sturdy, hv⟩ := plainBlock_sturdy
  have parts : PartSet.hasHeader oneShort.proposalBlockParts (plainID 7).partsHeader :=
    by decide +kernel
  have hash : Block.hashesTo digests oneShort.proposalBlock (plainID 7).hash := by
    rw [proposal]
    decide +kernel
  refine ⟨RemoteCrash.plainAnswers_kind, fun blk => ⟨_, rfl⟩,
    ⟨⟨by decide +kernel, by decide +kernel, ?_, ?_⟩, ?_, ?_, ?_⟩, ?_,
    .inl ⟨by decide +kernel, hash⟩⟩
  · rw [lock]
    exact fun _ hl => by cases hl
  · rw [lock]
    exact nofun
  · rw [proposal, state]
    rintro _ ⟨rfl⟩
    exact sturdy
  · exact fun _ => by decide +kernel
  · rintro _ rfl _
    exact parts
  · intro block has _
    rw [proposal, lock] at has
    rw [state]
    rcases has with ⟨⟨rfl⟩⟩ | hl
    · exact hv
    · cases hl

/-- Only precommits for the block are recorded on the way. -/
theorem oneShort_recorded {i : Nat} {old : Vote}
    (held : oneShort.votes.Recorded 0 .precommit i old) : old.blockID = plainID 7 := by
  have votes : oneShort.votes.votesAt 0 .precommit =
      ((newVoteSet ⟨1, 0, .precommit, members 2⟩).addVote
        (voteOf 0 0 .precommit (plainID 7))).2 := rfl
  rw [recorded_iff, votes] at held
  rcases addVote_recorded (VoteSet.Sound.new _) held with hbe | ⟨rfl, _⟩
  · exact absurd hbe (not_recorded_new _)
  · rfl

theorem takes_first {n : Node} {sender : Bytes} (hru : n.halted = false)
    (continues : n.isContinueConsensus = true) (hk : n.isPeerInbgGroup (plainEnv 2 1) sender = true)
    (hm : n.inbgGroup (plainEnv 2 1) = true) (h1 : n.round = 0) :
    Takes (plainEnv 2 1) n sender := by
  have he : Early n.round := by
    rw [h1]
    unfold Early
    decide
  refine ⟨fun hha => ?_, continues, hk, hm, he⟩
  rw [hru] at hha
  cases hha

theorem partBetween_met : MetAt (plainEnv 2 1) 1 proposed partBetween := by
  have none_recorded (old : Vote) (held : proposed.votes.Recorded 0 .precommit 0 old) :
      old.blockID = plainID 7 := by
    have votes : proposed.votes.votesAt 0 .precommit = newVoteSet ⟨1, 0, .precommit,
      members 2⟩ := rfl
    rw [recorded_iff, votes] at held
    exact absurd held (not_recorded_new _)
  refine ⟨fun _ => ⟨?_, none_recorded, ?_⟩, fun _ => ?_,
    fun _ => ⟨?_, ?_, fun _ => oneShort_canStore⟩, trivial⟩
  · exact takes_first (by decide +kernel) (by decide +kernel) (by decide +kernel)
      (by decide +kernel) rfl
  · exact fun closes => absurd closes.1 (by decide +kernel)
  · exact takes_first (by decide +kernel) (by decide +kernel) (by decide +kernel)
      (by decide +kernel) rfl
  · exact takes_first (by decide +kernel) (by decide +kernel) (by decide +kernel)
      (by decide +kernel) rfl
  · exact fun old held => oneShort_recorded held

theorem partBetween_brings : ∀ event ∈ partBetween,
    Brings ⟨1, 0, .precommit, members 2⟩ (plainID 7) event.1 := by
  have casts (i : Nat) (hm : i < 2) : Slot.Casts ⟨1, 0, .precommit, members 2⟩ i
      (voteOf i 0 .precommit (plainID 7)) := by
    interval_cases i <;> exact ⟨rfl, rfl, rfl, rfl, by decide, rfl⟩
  intro event hm
  simp only [partBetween, mem_cons, not_mem_nil, or_false] at hm
  rcases hm with rfl | rfl | rfl
  · exact .precommit [0] (casts 0 (by decide)) rfl
  · exact .part [0] (plainPart 7)
  · exact .precommit [1] (casts 1 (by decide)) rfl

theorem partBetween_cast (i : Nat) (hm : i ∈ ({0, 1} : Finset Nat)) :
    ∃ event ∈ partBetween, CastBy i event.1 := by
  rcases Finset.mem_insert.mp hm with rfl | h2
  · exact ⟨_, mem_cons_self, [0], _, rfl, rfl⟩
  · rw [Finset.mem_singleton.mp h2]
    exact ⟨_, mem_cons_of_mem _ (mem_cons_of_mem _ mem_cons_self), [1], _, rfl, rfl⟩

theorem partBetween_stored :
    Stores (plainEnv 2 1) proposed (proposed.run (plainEnv 2 1) partBetween) (plainID 7) := by
  have hb : proposed.validators.Bounded := ⟨by decide +kernel, by decide +kernel⟩
  refine precommits_commit (r := 0) ((plainNode_reachable (by decide)).run _) (by decide)
    (by decide) (by decide) (by unfold Early; decide) hb ?_ partBetween_brings
    (fun i hm => .inr (partBetween_cast i hm)) (by decide +kernel) partBetween_met
  decide +kernel

/-- The part comes last. -/
def partLast : List (Event × Answers) :=
  [(voteFrom 0 0 .precommit (plainID 7), plainAnswers),
    (voteFrom 1 0 .precommit (plainID 7), plainAnswers),
    (partOf 7, plainAnswers)]

/-- The same messages in another order: the node is in the next round, with nothing stored and no
parts asked for. -/
theorem partLast_not_stored : Reachable (plainEnv 2 1) proposed ∧ partLast.Perm partBetween ∧
      (∀ event ∈ partLast, Brings ⟨proposed.height, 0, .precommit, proposed.validators⟩
        (plainID 7) event.1) ∧
      (∀ i < proposed.validators.size, ∃ event ∈ partLast, CastBy i event.1) ∧
      (proposed.run (plainEnv 2 1) partLast).height = proposed.height ∧
      (proposed.run (plainEnv 2 1) partLast).round = 1 ∧
      (proposed.run (plainEnv 2 1) partLast).saved.length = 0 ∧
      (proposed.run (plainEnv 2 1) partLast).proposalBlockParts.isNone = true ∧
      (proposed.run (plainEnv 2 1) partLast).halted = false := by
  have same : partLast.Perm partBetween := .cons _ (.swap _ _ [])
  refine ⟨(plainNode_reachable (by decide)).run _, same, ?_, ?_, by decide +kernel⟩
  · exact fun event hm => partBetween_brings event (same.mem_iff.mp hm)
  · intro i hm
    have hsm : i < 2 := hm
    obtain ⟨event, hw, own⟩ := partBetween_cast i (by
      rw [Finset.mem_insert, Finset.mem_singleton]
      omega)
    exact ⟨event, same.mem_iff.mpr hw, own⟩

end HNBChain.Audit.Guarantees.CommitOrder
