import HNBChain.Audit.Source.Algorand.Invariants
import HNBChain.Audit.Source.Algorand.Stable
import HNBChain.Audit.Source.Algorand.Tally

/-!
# What keeps a node running

The handlers stop a node by a panic, or by a loop over rounds that does not end. A node is `Ready`
if the blocks it holds can be validated and stored without one, the parts of these blocks are
complete, and a block that may be decided has the parts header it is decided under. Each handler
leaves a ready node ready, as long as the rounds are `Early`, the surroundings are `Kind` and a vote
`Accords` with the one that is held; a commit leaves nothing that could spoil it.
-/
namespace HNBChain.Audit.Source.Algorand

open Lib Node HeightVoteSet Option

/-- Validating the block does not panic, and neither does storing it once it is valid. -/
structure Sturdy (env : Env) (s : State) (b : Block) : Prop where
  validates : validateBlock env.digests s b ≠ .error .panic
  converts : validateBlock env.digests s b = .ok () →
    ∃ blk, consToStandard env.digests env.decodeTx b = .ok blk

/-- The functions that are asked do not panic: the proposer of a round, the making of a block, of
which all parts are there, and its execution. -/
structure Answers.Kind (ans : Answers) : Prop where
  selects : ∀ height round, ans.isProposer height round ≠ none
  generates : ∀ height round, ans.geneProposalBlk height round ≠ none
  divides : ∀ height round made, ans.geneProposalBlk height round = some (some made) →
    (PartSet.all (some made.2)).isSome
  processes : ∀ blk, ans.blockProcess blk ≠ .error .panic

/-- `SetRound` makes two vote sets for every round up to the one that is asked for; these are
few. -/
def Early (round : Int32) : Prop := round.toInt < 2 ^ 12

theorem Early.toInt_succ {round : Int32} (he : Early round) :
    (round + 1).toInt = round.toInt + 1 := by
  have low := round.le_toInt
  have bound : round.toInt < 2 ^ 12 := he
  rw [Int32.toInt_add, Int32.toInt_one, Int.bmod_eq_of_le (by omega) (by omega)]

theorem Early.succ_ne {round : Int32} (he : Early round) : round + 1 ≠ Int32.maxValue := by
  have bound : round.toInt < 2 ^ 12 := he
  have top : Int32.maxValue.toInt = 2 ^ 31 - 1 := by decide
  intro last
  rw [← last, he.toInt_succ] at top
  omega

theorem Early.ne_max {round : Int32} (he : Early round) : round ≠ Int32.maxValue := by
  intro last
  have bound : round.toInt < 2 ^ 12 := he
  have top : Int32.maxValue.toInt = 2 ^ 31 - 1 := by decide
  rw [last, top] at bound
  omega

/-- A round after a round that is not negative is not round 0. -/
theorem Early.succ_ne_zero {round : Int32} (he : Early round) (hst : 0 ≤ round) :
    round + 1 ≠ 0 := by
  intro zero
  have grows := lt_round_succ he.ne_max
  rw [zero] at grows
  exact Int32.lt_irrefl (Int32.lt_of_le_of_lt hst grows)

/-- The fields that decide whether a handler can go wrong. -/
def Node.holds (n : Node) :
    ValidatorSet × State × Option Block × Option PartSet × Option Block × Option PartSet :=
  (n.validators, n.lastCommitState, n.lockedBlock, n.lockedBlockParts, n.proposalBlock,
    n.proposalBlockParts)

/-- What is needed of a node that is about to drop its proposal. -/
structure Node.Steady (env : Env) (n : Node) : Prop where
  running : ¬ n.halted
  members : n.validators.validators ≠ []
  lockedBlock : ∀ b, n.lockedBlock = some b → Sturdy env n.lastCommitState b
  lockedParts : n.lockedBlock.isSome → (PartSet.all n.lockedBlockParts).isSome

/-- The identities that `agreed` has are those under which a block may be decided. -/
structure Node.Ready (env : Env) (agreed : BlockID → Prop) (n : Node) :
    Prop extends n.Steady env where
  proposalBlock : ∀ b, n.proposalBlock = some b → Sturdy env n.lastCommitState b
  proposalParts : n.proposalBlock.isSome → (PartSet.all n.proposalBlockParts).isSome
  header : ∀ id, agreed id → Block.hashesTo env.digests n.proposalBlock id.hash →
    PartSet.hasHeader n.proposalBlockParts id.partsHeader

section

variable {env : Env} {ans : Answers} {agreed : BlockID → Prop} {n m : Node} {height : Nat}
  {round : Int32}

theorem Node.next_of_running {f : Node → Node} (hru : ¬ n.halted) :
    n.next f = f n := if_neg hru

theorem Node.Steady.of_holds (hs : n.Steady env) (same : m.holds = n.holds)
    (hru : ¬ m.halted) : m.Steady env := by
  simp only [holds, Prod.mk.injEq] at same
  obtain ⟨validators, state, block, parts, -, -⟩ := same
  refine ⟨hru, ?_, ?_, ?_⟩
  · rw [validators]
    exact hs.members
  · rw [block, state]
    exact hs.lockedBlock
  · rw [block, parts]
    exact hs.lockedParts

theorem Node.Ready.of_holds (hr : n.Ready env agreed) (same : m.holds = n.holds)
    (hru : ¬ m.halted) : m.Ready env agreed := by
  have hs := hr.toSteady.of_holds same hru
  simp only [holds, Prod.mk.injEq] at same
  obtain ⟨-, state, -, -, block, parts⟩ := same
  refine ⟨hs, ?_, ?_, ?_⟩
  · rw [block, state]
    exact hr.proposalBlock
  · rw [block, parts]
    exact hr.proposalParts
  · rw [block, parts]
    exact hr.header

/-- Without a proposal there is only the lock to look at. -/
theorem Node.Steady.ready (hs : n.Steady env) (cleared : n.proposalBlock = none) :
    n.Ready env agreed := by
  refine ⟨hs, ?_, ?_, ?_⟩
  · rw [cleared]
    exact fun _ held => by cases held
  · rw [cleared]
    exact nofun
  · rw [cleared]
    exact fun _ _ held => by cases held

theorem holds_stable (held : ValidatorSet × State × Option Block × Option PartSet × Option Block ×
    Option PartSet) : StepStable fun n => n.holds = held where
  light light same := by
    rw [light]
    exact same

/-! ## Prevotes and proposals -/

theorem prevoteID_isSome (sturdy : ∀ b, n.proposalBlock = some b →
    validateBlock env.digests n.lastCommitState b ≠ .error .panic) : ∃ id,
    n.prevoteID env = some id := by
  unfold prevoteID
  split
  · exact ⟨_, rfl⟩
  · cases held : n.proposalBlock with
    | none => exact ⟨_, rfl⟩
    | some b =>
      dsimp only
      split
      next panicked => exact absurd panicked (sturdy b held)
      next => exact ⟨_, rfl⟩
      next => exact ⟨_, rfl⟩

theorem enterPrevote_ready (hr : n.Ready env agreed) :
    (n.enterPrevote env ans height round).Ready env agreed := by
  obtain ⟨id, hch⟩ := prevoteID_isSome fun b held => (hr.proposalBlock b held).validates
  unfold enterPrevote defaultDoPrevote
  split
  · exact hr
  · rw [hch]
    by_cases retry : n.proposalBlock.isNone ∧ n.tryProposalTimes < 2
    · rw [if_pos retry]
      exact hr.of_holds rfl hr.running
    · rw [if_neg retry, map_some]
      dsimp only
      unfold signAddVote
      split
      · exact hr.of_holds rfl hr.running
      · exact hr.of_holds rfl hr.running

theorem sendProposal_running {parts : Option PartSet} (hru : ¬ n.halted)
    (hcm : (PartSet.all parts).isSome) : ¬ (n.sendProposal height round parts).halted := by
  obtain ⟨all, held⟩ := isSome_iff_exists.mp hcm
  unfold sendProposal
  rw [held]
  exact hru

theorem decideProposal_running (kind : ans.Kind) (hs : n.Steady env) :
    ¬ (n.decideProposal ans height round).halted := by
  unfold decideProposal
  cases locked : n.lockedBlock with
  | some b => exact sendProposal_running hs.running (hs.lockedParts (by rw [locked]; rfl))
  | none =>
    rcases made : ans.geneProposalBlk height round with _ | _ | made'
    · exact absurd made (kind.generates height round)
    · exact hs.running
    · exact sendProposal_running hs.running (kind.divides height round made' made)

theorem proposeBlock_running (kind : ans.Kind) (hs : n.Steady env) :
    ¬ (n.proposeBlock env ans height round).halted := by
  unfold proposeBlock
  split
  · split
    next panicked => exact absurd panicked (kind.selects height round)
    next => exact decideProposal_running kind hs
    next => exact hs.running
  · exact hs.running

theorem proposeBlock_ready (kind : ans.Kind) (hr : n.Ready env agreed) :
    (n.proposeBlock env ans height round).Ready env agreed :=
  hr.of_holds ((holds_stable n.holds).proposeBlock rfl)
    (proposeBlock_running kind hr.toSteady)

theorem enterPropose_ready (kind : ans.Kind) (hr : n.Ready env agreed) :
    (n.enterPropose env ans height round).Ready env agreed := by
  have hst :
      ({ n with tryProposalTimes := 0 }.scheduleTimeout height round .propose).Ready env agreed :=
    hr.of_holds rfl hr.running
  refine ite_keeps hr (next_keeps (proposeBlock_ready kind hst) fun m hpo => ?_)
  have hen : (m.updateRoundStep round .propose).Ready env agreed :=
    hpo.of_holds rfl hpo.running
  exact ite_keeps (enterPrevote_ready hen) hen

theorem dealNewRound_ready (kind : ans.Kind) (hr : n.Ready env agreed) :
    (n.dealNewRound env ans).Ready env agreed := by
  have waiting : (n.scheduleTimeout n.height n.round .newRound).Ready env agreed :=
    hr.of_holds rfl hr.running
  have proposing : (n.enterPropose env ans n.height n.round).Ready env agreed :=
    enterPropose_ready kind hr
  exact ite_keeps (ite_keeps proposing waiting) (ite_keeps waiting proposing)

/-! ## New rounds -/

/-- The proposal is dropped with the round, except in round 0. -/
theorem newRound_ready (hs : n.Steady env) (h1 : round = 0 → n.Ready env agreed)
    (more : round + 1 ≠ Int32.maxValue) :
    ((if round ≠ 0 then (n.updateRoundStep round .newRound).clearProposal
      else n.updateRoundStep round .newRound).setRound (round + 1)).Ready env agreed := by
  have tracks : ¬ HeightVoteSet.SetRoundHangs (round + 1) := more
  unfold Node.setRound
  rw [if_neg tracks]
  by_cases zero : round = 0
  · rw [if_neg (not_not.mpr zero)]
    exact (h1 zero).of_holds rfl hs.running
  · rw [if_pos zero]
    exact Node.Steady.ready ⟨hs.running, hs.members, hs.lockedBlock,
      hs.lockedParts⟩ rfl

theorem enterNewRound_ready (kind : ans.Kind) (hr : n.Ready env agreed)
    (more : round + 1 ≠ Int32.maxValue) :
    (n.enterNewRound env ans height round).Ready env agreed := by
  unfold enterNewRound
  rw [if_neg fun empty : n.round < round ∧ _ => hr.members empty.2]
  refine ite_keeps hr (next_keeps (newRound_ready hr.toSteady (fun _ => hr) more)
    fun m hst => ?_)
  exact dealNewRound_ready kind hst

/-- The node that enters an early round is in an early round. -/
theorem enterNewRound_entered (kind : ans.Kind) (hr : n.Ready env agreed) (ht : Early round) :
    ∃ m, n.enterNewRound env ans n.height round = m ∧ m.Ready env agreed ∧ Calms env (· = 0) n m ∧
      Timely m n.height round ∧ (Early n.round → Early m.round) := by
  have hen : (n.enterNewRound env ans n.height round).Ready env agreed :=
    enterNewRound_ready kind hr ht.succ_ne
  refine ⟨_, rfl, hen, enterNewRound_calms rfl, enterNewRound_timely hen.running,
    fun here => ?_⟩
  by_cases reached : n.round ≤ round
  · rw [enterNewRound_round reached hen.running]
    exact ht
  · have hcl : n.enterNewRound env ans n.height round = n := by
      unfold enterNewRound
      rw [if_pos (.inr (.inl (Int32.not_le.mp reached)))]
    rw [hcl]
    exact here

/-! ## Precommits -/

theorem doPrecommit_ready (hr : n.Ready env agreed) :
    (n.doPrecommit env ans round).Ready env agreed := by
  have unchanged (id : BlockID) : (n.applyAddVote env ans .precommit id).Ready env agreed :=
    hr.of_holds rfl hr.running
  unfold doPrecommit
  split
  · exact unchanged .zero
  · split_ifs
    · exact unchanged .zero
    · exact { hr with
        lockedBlock := hr.proposalBlock
        lockedParts := hr.proposalParts }
    · exact { hr with
        lockedBlock := fun _ held => by cases held
        lockedParts := nofun }

theorem enterPrecommit_ready (hr : n.Ready env agreed) :
    (n.enterPrecommit env ans height round).Ready env agreed := by
  have hp : (n.doPrecommit env ans round).Ready env agreed := doPrecommit_ready hr
  exact ite_keeps hr (hp.of_holds rfl hp.running)

variable (env ans) in
/-- The precommit of the round that the node is in. -/
theorem enterPrecommit_entered (hc : n.Coherent) (hr : n.Ready env agreed)
    (hti : Timely n height round) :
    ∃ m, n.enterPrecommit env ans height round = m ∧ m.Ready env agreed ∧ m.Coherent ∧
    m.height = n.height ∧ m.round = n.round ∧ m.votes = n.votes := by
  have had : Advance env ⟨fun _ => False, fun _ => False, fun _ => False, fun _ => True,
      fun _ => False⟩ n (n.enterPrecommit env ans height round) :=
      enterPrecommit_advance hti fun _ => trivial
  have same : (n.enterPrecommit env ans height round).height = n.height ∧
      (n.enterPrecommit env ans height round).round = n.round := enterPrecommit_height_round hti
  refine ⟨_, rfl, enterPrecommit_ready hr, had.coherent hc, same.1, same.2, ?_⟩
  unfold enterPrecommit
  split
  · rfl
  · obtain ⟨_, _, _, _, fields⟩ := doPrecommit_fields env ans round n
    rw [fields]
    rfl

/-! ## Commits -/

theorem currentCommit_of_majority {id : BlockID} (hk : 0 ≤ n.commitRound)
    (hm : n.votes.majority n.commitRound .precommit = some id) :
    ∃ commit, n.currentCommit = some commit := by
  obtain ⟨precommits, hf, maj23⟩ := Option.bind_eq_some_iff.mp hm
  have slot := (HeightVoteSet.getVoteSet_sound hf).1
  have type : precommits.type = .precommit := congrArg Slot.type slot
  have hcu : -1 < n.commitRound := Int32.lt_of_lt_of_le (by decide) hk
  unfold Node.currentCommit HeightVoteSet.precommits VoteSet.makeCommit
  rw [if_pos hcu, hf, Option.bind_some, if_neg (not_not.mpr type), maj23]
  exact ⟨_, rfl⟩

variable {block : Block} {vote : Vote}

theorem applyBlock_applied {saved : Saved} {s s' : State}
    (done : n.saveBlock env ans block = .ok (saved, s))
    (state : updateState s (n.committedID env block) block.header = some s') :
    n.applyBlock env ans block = (some s', (n.withSaved saved).unlockAny) := by
  unfold committedID at state
  unfold applyBlock
  rw [done]
  dsimp only
  rw [state]
  rfl

/-- What `finalizeCommit` does with a block that was stored. -/
theorem Committing.finalizeCommit_eq {id : BlockID} {saved : Saved} {s : State}
    (hc : n.Coherent) (hcom : Committing env ans n id block saved s) :
    ∃ precommits s', Stored env n saved precommits ∧ Succeeds n s' ∧
    n.finalizeCommit env ans n.height =
        (n.committed saved s' precommits).next fun n => n.scheduleRound0 env ans := by
  obtain ⟨s', state, _⟩ := updateState_succeeds hc hcom
  obtain ⟨precommits, hso, hsu, hco⟩ := hcom.committed hc state
  refine ⟨precommits, s', hso, hsu, ?_⟩
  unfold finalizeCommit
  rw [if_neg (fun hel => hel.elim (fun other => other rfl) fun other =>
    other hcom.step),
    hcom.majority, hcom.proposal]
  dsimp only
  rw [if_neg (not_not.mpr hcom.header), if_neg (not_not.mpr hcom.hash),
    applyBlock_applied hcom.saved state]
  dsimp only
  rw [hco]

theorem Block.hashesTo_some {d : Digests} {b : Option Block} {hash : Bytes}
    (hashes : Block.hashesTo d b hash) : ∃ block, b = some block := by
  cases b with
  | none => cases hashes
  | some block => exact ⟨block, rfl⟩

/-- What `enterCommit` goes on with: the parts of the block that was agreed on are asked for unless
the node has the block or asked for them before. -/
structure Fetches (env : Env) (id : BlockID) (n m : Node) : Prop where
  height : m.height = n.height
  round : m.round = n.round
  votes : m.votes = n.votes
  lastCommitState : m.lastCommitState = n.lastCommitState
  lockedBlock : m.lockedBlock = n.lockedBlock
  proposalBlock : m.proposalBlock = n.proposalBlock ∨
    m.proposalBlock = none ∧ ¬ Block.hashesTo env.digests n.proposalBlock id.hash
  header : ¬ Block.hashesTo env.digests m.proposalBlock id.hash →
    PartSet.hasHeader m.proposalBlockParts id.partsHeader

variable (ans) in
theorem enterCommit_fetches {id : BlockID} (hc : n.Coherent) (hr : n.Ready env agreed)
    (hb : ¬ .commit ≤ n.step) (hm : n.votes.majority round .precommit = some id) :
    ∃ m, Fetches env id n m ∧ m.Coherent ∧ m.Ready env agreed ∧
    n.enterCommit env ans n.height round =
      { m.updateRoundStep m.round .commit with commitRound := round }.tryFinalizeCommit env
      ans m.height := by
  unfold enterCommit
  rw [if_neg (fun hcl => hcl.elim (fun other => other rfl) hb), hm]
  dsimp only
  by_cases unknown : ¬ Block.hashesTo env.digests n.proposalBlock id.hash ∧
      ¬ PartSet.hasHeader n.proposalBlockParts id.partsHeader
  · rw [if_pos unknown]
    refine ⟨{ n with
        proposalBlock := none, proposalBlockParts := some (newPartSetFromHeader id.partsHeader) },
      ⟨rfl, rfl, rfl, rfl, rfl, .inr ⟨rfl, unknown.1⟩, fun _ => ?_⟩, { hc with }, ?_, rfl⟩
    · simp [PartSet.hasHeader, PartSet.header, newPartSetFromHeader]
    · exact Node.Steady.ready ⟨hr.running, hr.members, hr.lockedBlock,
        hr.lockedParts⟩ rfl
  · rw [if_neg unknown]
    exact ⟨n, ⟨rfl, rfl, rfl, rfl, rfl, .inl rfl, fun other =>
      not_not.mp fun hd => unknown ⟨other, hd⟩⟩, hc, hr, rfl⟩

/-- A held vote of the validator for the same block has the same key. -/
def VoteSet.Accords (vs : VoteSet) (vote : Vote) : Prop :=
  ∀ held, vs.votes vote.validatorIndex.toNat = some held → held.blockID = vote.blockID →
    held.key = vote.key

/-- A repetition of the held vote is refused before it could conflict with it. -/
theorem VoteSet.addVote_ne_panic {vs : VoteSet} (hac : vs.Accords vote) :
    (vs.addVote vote).1.2 ≠ some .panic := by
  unfold VoteSet.addVote
  split
  · nofun
  · split
    · nofun
    · split
      · nofun
      · split
        · nofun
        · split
          · nofun
          · split
            · nofun
            next unknown =>
              split
              next panicked =>
                refine absurd ?_ unknown
                unfold VoteSet.addVerifiedVote at panicked
                dsimp only at panicked
                split at panicked
                next repeats =>
                  obtain ⟨held, hf, same⟩ := map_eq_some_iff.mp repeats
                  unfold VoteSet.getVote
                  rw [hf, filter_some, if_pos (decide_eq_true (hac held hf same))]
                  rfl
                next => split at panicked <;> split_ifs at panicked
              · nofun
              · nofun

theorem HeightVoteSet.addVote_ne_panic {hvs : HeightVoteSet}
    (hac : (hvs.votesAt vote.round vote.type).Accords vote) :
    (hvs.addVote vote).1.2 ≠ some .panic := by
  by_cases unknown : vote.type = .unknown
  · unfold HeightVoteSet.addVote
    split
    · nofun
    next stored =>
      rw [unknown] at stored
      cases stored
  · rw [(addVote_eq (r := vote.round) (t := vote.type) unknown).1]
    exact VoteSet.addVote_ne_panic hac

end

end HNBChain.Audit.Source.Algorand
