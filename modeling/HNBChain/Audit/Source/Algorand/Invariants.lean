import HNBChain.Audit.Source.Algorand.Events

/-!
# What holds of every reached node

The heights, validators and rounds that the parts of a node keep are the same in every reached
state. From this follows what a commit does: the block stored is the one of the height, and the node
goes on to the next one.
-/
namespace HNBChain.Audit.Source.Algorand

open Lib HeightVoteSet Node Option

structure Node.Coherent (n : Node) : Prop where
  height : n.height = n.lastCommitState.lastBlockNum + 1
  params : n.lastCommitState.consensusParams = .zero
  validators : n.validators = n.lastCommitState.validators
  votesHeight : n.votes.height = n.height
  votesValSet : n.votes.valSet = n.validators
  fresh : n.Fresh
  round : 0 ≤ n.round
  scheduled : ∀ ti ∈ n.scheduled, ti.height < n.height ∨ ti.height = n.height ∧ ti.round ≤ n.round

theorem Node.Coherent.timed {n : Node} (hc : n.Coherent) : n.Timed := by
  refine ⟨hc.round, fun ti held here => ?_⟩
  rcases hc.scheduled ti held with hea | ⟨_, hr⟩
  · exact absurd here (Nat.ne_of_gt hea)
  · exact hr

/-! ## Storing a block -/

section

variable {env : Env} {ans : Answers} {n : Node} {id : BlockID} {block : Block} {saved : Saved}
  {s s' : State}

/-- Nobody votes in an empty validator set. -/
theorem occupied_of_majority {r : Int32} {t : VoteType} {votes : HeightVoteSet}
    (hr : votes.majority r t = some id) : votes.valSet.validators ≠ [] := by
  intro hem
  obtain ⟨voters, hq, cast⟩ := majority_voters hr
  have one : votes.valSet.quorum = 1 := by
    rw [ValidatorSet.quorum, ValidatorSet.totalVotingPower, hem]
    rfl
  have some_voter : voters.Nonempty := Finset.card_pos.mp (by omega)
  obtain ⟨i, hme⟩ := some_voter
  obtain ⟨v, _, hca, _⟩ := cast i hme
  have hi := hca.lt_size
  simp [ValidatorSet.size, hem] at hi

/-- What `saveBlock` has checked and done when it succeeds. -/
theorem saveBlock_ok (done : n.saveBlock env ans block = .ok (saved, s)) :
    ∃ commit blk stateHash, n.currentCommit = some commit ∧
      validateBlock env.digests n.lastCommitState.copy { block with currentCommit := some commit } =
        .ok () ∧
      consToStandard env.digests env.decodeTx { block with currentCommit := some commit } =
        .ok blk ∧
      ans.blockProcess { blk with header :=
        { blk.header with previousHash := n.lastCommitState.previousHash } } = .ok stateHash ∧
      saved = ⟨{ block with currentCommit := some commit }, PartSet.header n.proposalBlockParts,
        n.commitRound, { blk with header :=
          { blk.header with
            previousHash := n.lastCommitState.previousHash
            stateHash := stateHash } }⟩ ∧
      s = { n.lastCommitState.copy with
        previousHash := env.digests.standard saved.standard.header } := by
  unfold saveBlock at done
  cases committed : n.currentCommit with
  | none =>
    rw [committed] at done
    cases done
  | some commit =>
    rw [committed] at done
    simp only [bind, Except.bind, pure, Except.pure] at done
    cases valid : validateBlock env.digests n.lastCommitState.copy
        { block with currentCommit := some commit } with
    | error e =>
      rw [valid] at done
      cases done
    | ok _ =>
      rw [valid] at done
      cases converted : consToStandard env.digests env.decodeTx
          { block with currentCommit := some commit } with
      | error e =>
        rw [converted] at done
        cases done
      | ok blk =>
        rw [converted] at done
        dsimp only at done
        cases processed : ans.blockProcess { blk with header :=
            { blk.header with previousHash := n.lastCommitState.previousHash } } with
        | error e =>
          rw [processed] at done
          cases done
        | ok stateHash =>
          rw [processed] at done
          cases done
          exact ⟨commit, blk, stateHash, rfl, valid, converted, processed, rfl, rfl⟩

/-- The state and its copy differ in nothing that validation reads. -/
theorem validateBlock_copy (params : s.consensusParams = .zero) (b : Block) :
    validateBlock env.digests s.copy b = validateBlock env.digests s b := by
  unfold validateBlock validateLastCommit State.copy
  rw [params]

theorem validateBlock_blockNum {b : Block} (hv : validateBlock env.digests s b = .ok ()) :
    b.header.blockNum = s.lastBlockNum + 1 := (validateBlock_ok hv).blockNum

/-- What is known of a block that a node stores. -/
structure Stored (env : Env) (n : Node) (c : Saved) (precommits : VoteSet) : Prop where
  commitRound : -1 < c.commitRound
  found : n.votes.precommits c.commitRound = some precommits
  maj23 : precommits.maj23 = some ⟨c.block.hash env.digests, c.partsHeader⟩
  hash : c.block.hash env.digests ≠ []
  blockNum : c.block.header.blockNum = n.height
  valid : validateBlock env.digests n.lastCommitState c.block = .ok ()

theorem Committing.stored (hc : n.Coherent) (hre : Committing env ans n id block saved s) :
    ∃ precommits, Stored env n saved precommits ∧ n.commitRound = saved.commitRound ∧
      saved.block.header = block.header := by
  obtain ⟨commit, blk, stateHash, made, hv, _, _, rfl, _⟩ := saveBlock_ok hre.saved
  have hr := hre.majority
  unfold Node.currentCommit at made
  split at made
  · rename_i known
    obtain ⟨precommits, hf, _⟩ := Option.bind_eq_some_iff.mp made
    have maj23 : precommits.maj23 = some id := by
      rw [HeightVoteSet.majority, show n.votes.getVoteSet n.commitRound .precommit = some precommits
        from hf, Option.bind_some] at hr
      exact hr
    obtain ⟨hsm, hash⟩ : id.hash ≠ [] ∧ block.hash env.digests = id.hash := by
      have hash := hre.hash
      simp only [Block.hashesTo, Bool.and_eq_true, decide_eq_true_eq] at hash
      exact hash
    have header : PartSet.header n.proposalBlockParts = id.partsHeader := by
      have header := hre.header
      simp only [PartSet.hasHeader, Bool.and_eq_true, decide_eq_true_eq] at header
      exact header.2
    rw [validateBlock_copy hc.params] at hv
    have hn : id = ⟨block.hash env.digests, PartSet.header n.proposalBlockParts⟩ := by
      rw [hash, header]
    exact ⟨precommits, ⟨known, hf, maj23.trans (congrArg some hn), hash ▸ hsm,
      (validateBlock_blockNum hv).trans hc.height.symm, hv⟩, rfl, rfl⟩
  · cases made

/-- The node after a commit, waiting for the next height. -/
def Node.committed (n : Node) (c : Saved) (s : State) (precommits : VoteSet) : Node :=
  { (n.withSaved c).unlockAny with
    height := n.height + 1
    round := 0
    step := .newHeight
    validators := s.validators
    proposal := none
    proposalBlock := none
    proposalBlockParts := none
    votes := .new (n.height + 1) s.validators
    commitRound := -1
    lastCommit := some precommits
    lastValidators := s.lastValidators
    lastCommitState := s }

theorem committed_logs (n : Node) (c : Saved) (s : State) (precommits : VoteSet) :
    (n.committed c s precommits).signed = n.signed ∧
      (n.committed c s precommits).internalMsgQueue = n.internalMsgQueue ∧
      (n.committed c s precommits).saved = c :: n.saved := by
  unfold committed unlockAny
  split <;> exact ⟨rfl, rfl, rfl⟩

/-- The state a commit leaves: the next height, with the same validators. -/
structure Succeeds (n : Node) (s : State) : Prop where
  lastBlockNum : s.lastBlockNum = n.height
  params : s.consensusParams = .zero
  members : s.validators.validators = n.validators.validators

theorem updateState_succeeds (hc : n.Coherent) (hre : Committing env ans n id block saved s) :
    ∃ s', updateState s (n.committedID env block) block.header = some s' ∧ Succeeds n s' := by
  obtain ⟨precommits, hst, _, header⟩ := hre.stored hc
  obtain ⟨_, _, _, _, _, _, _, _, copied⟩ := saveBlock_ok hre.saved
  have same : s.validators = n.validators := by
    rw [copied, hc.validators]
    rfl
  have ho : s.validators.validators ≠ [] := by
    rw [same, ← hc.votesValSet]
    exact occupied_of_majority hre.majority
  obtain ⟨vals, next, hmm⟩ := incrementAccum_one s.validators ho
  unfold updateState
  rw [next]
  refine ⟨_, rfl, ?_, ?_, ?_⟩
  · rw [← hst.blockNum, header]
  · rw [copied]
    rfl
  · rw [← same]
    exact hmm

/-- What unlocking leaves alone, as far as a commit needs it. -/
theorem unlockAny_fields (n : Node) : n.unlockAny.height = n.height ∧
    n.unlockAny.lastCommitState = n.lastCommitState ∧
    n.unlockAny.lastPrecommits = n.lastPrecommits := by
  unfold unlockAny
  split <;> exact ⟨rfl, rfl, rfl⟩

theorem updateToState_committed {precommits : VoteSet} (hc : n.Coherent)
    (hst : Stored env n saved precommits) (round : n.commitRound = saved.commitRound)
    (hsu : Succeeds n s') :
    (n.withSaved saved).unlockAny.updateToState s' = n.committed saved s' precommits := by
  have last : (n.withSaved saved).lastPrecommits = some (some precommits) := by
    change n.lastPrecommits = _
    unfold lastPrecommits
    rw [round, if_pos hst.commitRound, hst.found]
    exact if_pos (hst.maj23 ▸ rfl)
  have height : (n.withSaved saved).unlockAny.height = n.height := (unlockAny_fields _).1
  have state : (n.withSaved saved).unlockAny.lastCommitState = n.lastCommitState :=
    (unlockAny_fields _).2.1
  have hbe : n.height = n.lastCommitState.lastBlockNum + 1 := hc.height
  unfold updateToState committed
  rw [height, state, (unlockAny_fields _).2.2, last, hsu.lastBlockNum]
  rw [if_neg (fun h => h.2.2 rfl), if_neg (fun h => h hbe.symm),
    if_neg (fun h : n.height ≤ n.lastCommitState.lastBlockNum => by omega)]

/-- A commit, in a coherent node. -/
theorem Committing.committed (hc : n.Coherent) (hre : Committing env ans n id block saved s)
    (state : updateState s (n.committedID env block) block.header = some s') :
    ∃ precommits, Stored env n saved precommits ∧ Succeeds n s' ∧
      (n.withSaved saved).unlockAny.updateToState s' = n.committed saved s' precommits := by
  obtain ⟨precommits, hst, round, _⟩ := hre.stored hc
  obtain ⟨s'', state', hsu⟩ := updateState_succeeds hc hre
  obtain rfl : s'' = s' := some.inj (state'.symm.trans state)
  exact ⟨precommits, hst, hsu, updateToState_committed hc hst round hsu⟩

end

/-! ## Preservation -/

section

variable {env : Env} {ans : Answers} {occ : Occasion} {rounds : Int32 → Prop} {n n' : Node}

theorem Still.coherent (hs : Still n n') (hc : n.Coherent)
    (scheduled : ∀ ti ∈ n'.scheduled,
      ti ∈ n.scheduled ∨ ti.height = n.height ∧ ti.round ≤ n'.round) : n'.Coherent where
  height := by rw [hs.height, hs.lastCommitState, hc.height]
  params := by rw [hs.lastCommitState, hc.params]
  validators := by rw [hs.validators, hs.lastCommitState, hc.validators]
  votesHeight := by rw [hs.votes.height, hs.height, hc.votesHeight]
  votesValSet := by rw [hs.votes.valSet, hs.validators, hc.votesValSet]
  fresh := hs.fresh hc.fresh
  round := Int32.le_trans hc.round hs.round_le
  scheduled ti held := by
    rw [hs.height]
    rcases scheduled ti held with old | ⟨here, hr⟩
    · exact (hc.scheduled ti old).imp_right
        (And.imp_right fun hr => Int32.le_trans hr hs.round_le)
    · exact .inr ⟨here, hr⟩

theorem Calm.coherent (calm : Calm env rounds n n') (hc : n.Coherent) : n'.Coherent := by
  refine calm.still.coherent hc fun ti held => ?_
  cases calm with
  | quiet quiet => exact quiet.scheduled ti held
  | prevote => exact .inl held

theorem Calms.coherent (hcl : Calms env rounds n n') (hc : n.Coherent) : n'.Coherent := by
  induction hcl with
  | refl => exact hc
  | tail _ last ih => exact last.coherent ih

/-- The fields a precommit changes. -/
theorem doPrecommit_fields (env : Env) (ans : Answers) (round : Int32) (n : Node) :
    ∃ lockedRound lockedBlock lockedBlockParts id, n.doPrecommit env ans round = { n with
        lockedRound := lockedRound
        lockedBlock := lockedBlock
        lockedBlockParts := lockedBlockParts }.applyAddVote env ans .precommit id := by
  unfold doPrecommit
  split
  · exact ⟨n.lockedRound, n.lockedBlock, n.lockedBlockParts, .zero, rfl⟩
  · split_ifs
    · exact ⟨n.lockedRound, n.lockedBlock, n.lockedBlockParts, .zero, rfl⟩
    · exact ⟨_, _, _, _, rfl⟩
    · exact ⟨_, _, _, .zero, rfl⟩

theorem Move.coherent (move : Move env occ n n') (hc : n.Coherent) : n'.Coherent := by
  cases move with
  | calm calm => exact calm.coherent hc
  | record v _ _ =>
    exact { hc with
      votesHeight := by rw [addVote_height, hc.votesHeight]
      votesValSet := by rw [addVote_valSet, hc.votesValSet] }
  | recordLast => exact { hc with }
  | propose => exact { hc with }

theorem Moves.coherent (hm : Moves env occ n n') (hc : n.Coherent) : n'.Coherent := by
  induction hm with
  | refl => exact hc
  | tail _ last ih => exact last.coherent ih

/-- What holds before and through moves, a precommit and calm moves. -/
theorem Advance.induction {motive : Node → Prop} (ha : Advance env occ n n')
    (hm : ∀ m, Moves env occ n m → motive m)
    (hp : ∀ ans a, Moves env occ n a → a.step < .precommit → occ.precommits a → motive a →
      motive (a.precommitted env ans)) (calm : ∀ a b, Calm env (· = 0) a b → motive a →
      motive b) : motive n' := by
  cases ha with
  | moved hbe => exact hm _ hbe
  | precommitted ans hbe he hal haf =>
    have h1 := hp ans _ hbe he hal (hm _ hbe)
    induction haf with
    | refl => exact h1
    | tail _ last ih => exact calm _ _ last ih

theorem Node.Coherent.precommitted (hc : n.Coherent) (ans : Answers) :
    (n.precommitted env ans).Coherent := by
  unfold Node.precommitted
  obtain ⟨_, _, _, _, fields⟩ := doPrecommit_fields env ans n.round n
  rw [fields]
  exact { hc with fresh := nofun }

theorem Advance.coherent (ha : Advance env occ n n') (hc : n.Coherent) : n'.Coherent :=
  ha.induction (fun _ hm => hm.coherent hc)
    (fun ans _ _ _ _ hbe => hbe.precommitted ans) fun _ _ calm hbe => calm.coherent hbe

theorem Entry.coherent (entry : Entry n n') (hc : n.Coherent) : n'.Coherent := by
  cases entry with
  | inside => exact hc
  | enter => exact { hc with fresh := nofun }

variable {s : State} {seenCommit : Commit} {carries : Vote → Prop}

theorem Node.Coherent.committed {c : Saved} {precommits : VoteSet}
    (hc : n.Coherent) (hsu : Succeeds n s) : (n.committed c s precommits).Coherent where
  height := congrArg (· + 1) hsu.lastBlockNum.symm
  params := hsu.params
  validators := rfl
  votesHeight := rfl
  votesValSet := rfl
  fresh _ := rfl
  round := Int32.le_refl 0
  scheduled ti held := by
    have kept : (n.committed c s precommits).scheduled = n.scheduled := by
      unfold Node.committed Node.unlockAny
      split <;> rfl
    rw [kept] at held
    refine .inl ?_
    change ti.height < n.height + 1
    rcases hc.scheduled ti held with hea | ⟨here, _⟩ <;> omega

theorem Node.Coherent.waited (hc : n.Coherent) :
    (n.enterPrecommitWait n.height n.round).Coherent :=
  { hc with
    fresh := nofun
    scheduled := by
      intro ti held
      rcases List.mem_cons.mp held with rfl | old
      · exact .inr ⟨rfl, Int32.le_refl _⟩
      · exact hc.scheduled ti old }

/-- What an attempt to commit keeps: the moves of a new height keep it, and the commit does. -/
theorem Finish.induction {motive : Node → Prop} (hfi : Finish env n n') (hc : n.Coherent)
    (hsr : motive n) (move : ∀ a b, Move env .rest a b → motive a → motive b)
    (commit : ∀ a c s precommits, a.Coherent → Stored env a c precommits → Succeeds a s → motive a →
      motive (a.committed c s precommits)) : motive n' := by
  have moved {a b : Node} (hm : Moves env .rest a b) (h1 : motive a) : motive b := by
    induction hm with
    | refl => exact h1
    | tail _ last ih => exact move _ _ last ih
  cases hfi with
  | moved hm _ => exact moved hm hsr
  | crashed hbe hre stuck =>
    obtain ⟨s', state, _⟩ := updateState_succeeds (hbe.coherent hc) hre
    cases stuck.symm.trans state
  | committed hbe hre state haf =>
    have hr := hbe.coherent hc
    obtain ⟨precommits, hst, hsu, same⟩ := hre.committed hr state
    rw [same] at haf
    exact moved haf.moves (commit _ _ _ _ hr hst hsu (moved hbe hsr))

/-- What an event keeps, given what its moves keep. -/
theorem Outcome.induction {motive : Node → Prop} (hou : Outcome env occ n n')
    (hc : n.Coherent) (hm : ∀ m, Moves env occ n m → motive m)
    (hp : ∀ ans a, Moves env occ n a → a.step < .precommit → occ.precommits a → motive a →
      motive (a.precommitted env ans)) (entry : ∀ a b, Entry a b → motive a → motive b)
    (move : ∀ a b, Move env .rest a b → motive a → motive b)
    (commit : ∀ a c s precommits, a.Coherent → Stored env a c precommits → Succeeds a s → motive a →
      motive (a.committed c s precommits))
    (wait : ∀ a, motive a → motive (a.enterPrecommitWait a.height a.round)) : motive n' := by
  have advanced {m : Node} (ha : Advance env occ n m) : motive m :=
    ha.induction hm hp fun a b calm => move a b (.calm calm)
  cases hou with
  | waited hbe _ => exact wait _ (advanced hbe)
  | acted act =>
    cases act with
    | advanced ha => exact advanced ha
    | finished hbe hen hfi =>
      have hi := hen.coherent (hbe.coherent hc)
      exact hfi.induction hi (entry _ _ hen (advanced hbe)) move commit

theorem Outcome.coherent (hou : Outcome env occ n n') (hc : n.Coherent) : n'.Coherent :=
  hou.induction hc (fun _ hm => hm.coherent hc)
    (fun ans _ _ _ _ hbe => hbe.precommitted ans)
    (fun _ _ entry => entry.coherent) (fun _ _ move => move.coherent)
    (fun _ _ _ _ hr _ hsu _ => hr.committed hsu) fun _ hbe => hbe.waited

theorem Node.Coherent.restarted (hc : n.Coherent) : n.restarted.Coherent :=
  { hc with fresh := nofun, scheduled := nofun }

theorem Node.Coherent.deliver (hc : n.Coherent) (e : Event) :
    (n.deliver env ans e).Coherent := by
  by_cases reset : e = .reset
  · subst reset
    by_cases halted : n.halted
    · rw [deliver_of_halted halted]
      exact hc
    · exact (deliver_reset halted).coherent hc.restarted
  · exact (deliver_outcome hc.timed reset).coherent hc

theorem startNode_coherent (params : s.consensusParams = .zero)
    (hsa : startNode env s seenCommit = some n) : n.Coherent := by
  obtain ⟨lastCommit, _, rfl⟩ := map_eq_some_iff.mp hsa
  have hfr : (new s lastCommit).Coherent :=
    ⟨rfl, params, rfl, rfl, rfl, fun _ => rfl, Int32.le_refl 0, nofun⟩
  dsimp only
  split
  · exact (Quiet.scheduleTimeout _ _ rfl (Int32.le_refl _)).toStill.coherent hfr fun ti held => by
      rcases List.mem_cons.mp held with rfl | old
      · exact .inr ⟨rfl, Int32.le_refl _⟩
      · exact .inl old
  · exact hfr

theorem Reachable.coherent (hr : Reachable env n) : n.Coherent := by
  induction hr with
  | start params hsa => exact startNode_coherent params hsa
  | deliver ans e _ ih => exact ih.deliver e

/-! ## Positions -/

/-- Where a sequence of moves can lead, and what it leaves alone. -/
structure Forward (n n' : Node) : Prop where
  height : n'.height = n.height
  pos : n.pos ≤ n'.pos
  step : n'.step = n.step ∧ n'.round = n.round ∨ n'.step ≠ .newHeight ∧ n'.step ≠ .commit
  validators : n'.validators = n.validators
  lastCommitState : n'.lastCommitState = n.lastCommitState
  saved : n'.saved = n.saved

theorem Forward.refl (n : Node) : Forward n n := ⟨rfl, le_refl _, .inl ⟨rfl, rfl⟩, rfl, rfl, rfl⟩

theorem Forward.trans {a b c : Node} (h1 : Forward a b) (h2 : Forward b c) :
    Forward a c where
  height := h2.height.trans h1.height
  pos := h1.pos.trans h2.pos
  step := by
    rcases h2.step with ⟨step, round⟩ | hen
    · rw [step, round]
      exact h1.step
    · exact .inr hen
  validators := h2.validators.trans h1.validators
  lastCommitState := h2.lastCommitState.trans h1.lastCommitState
  saved := h2.saved.trans h1.saved

theorem Still.forward (hs : Still n n') : Forward n n' :=
  ⟨hs.height, hs.pos, hs.step, hs.validators, hs.lastCommitState, hs.saved⟩

theorem Move.forward (move : Move env occ n n') : Forward n n' := by
  cases move with
  | calm calm => exact calm.still.forward
  | record => exact { Forward.refl n with }
  | recordLast => exact { Forward.refl n with }
  | propose => exact { Forward.refl n with }

theorem Moves.forward (hm : Moves env occ n n') : Forward n n' := by
  induction hm with
  | refl => exact .refl n
  | tail _ last ih => exact ih.trans last.forward

theorem precommitted_forward (ans : Answers) (he : n.step < .precommit) :
    Forward n (n.precommitted env ans) := by
  unfold precommitted
  obtain ⟨_, _, _, _, fields⟩ := doPrecommit_fields env ans n.round n
  rw [fields]
  exact ⟨rfl, position_le_of_step (Nat.le_of_lt he), .inr ⟨nofun, nofun⟩, rfl, rfl, rfl⟩

theorem Advance.forward (ha : Advance env occ n n') : Forward n n' :=
  ha.induction (fun _ hm => hm.forward)
    (fun ans _ _ he _ hbe => hbe.trans (precommitted_forward ans he))
    fun _ _ calm hbe => hbe.trans calm.still.forward

theorem Entry.pos_le (entry : Entry n n') : n.pos ≤ n'.pos := by
  cases entry with
  | inside => exact le_refl _
  | enter => exact position_le_of_step (RoundStep.num_le_commit _)

theorem Finish.pos_le (hfi : Finish env n n') (hc : n.Coherent) : n.pos ≤ n'.pos :=
  hfi.induction (motive := fun m => n.pos ≤ m.pos) hc le_rfl
    (fun _ _ move hbe => hbe.trans move.forward.pos)
    fun _ _ _ _ _ _ _ hbe => hbe.trans (position_le.mpr (.inl (Nat.lt_succ_self _)))

theorem Act.pos_le (act : Act env occ n n') (hc : n.Coherent) : n.pos ≤ n'.pos := by
  cases act with
  | advanced ha => exact ha.forward.pos
  | finished hbe entry hfi =>
    exact (hbe.forward.pos.trans entry.pos_le).trans
      (hfi.pos_le (entry.coherent (hbe.coherent hc)))

/-- A node at rest in `Commit` is in the last round. -/
theorem Outcome.rests (hou : Outcome env occ n n') (hru : ¬ n.halted) (rests : n.Rests)
    (hc : n.Coherent) : n'.Rests := by
  cases hou with
  | waited => exact nofun
  | acted act =>
    cases act with
    | advanced ha =>
      intro commit
      rcases ha.forward.step with ⟨step, round⟩ | ⟨_, hno⟩
      · rw [round]
        exact .inr ((rests (step ▸ commit)).resolve_left hru)
      · exact absurd commit hno
    | finished hbe entry hfi =>
      cases hfi with
      | moved _ rests => exact rests
      | crashed => exact fun _ => .inl rfl
      | committed more hre state haf =>
        have hr := more.coherent (entry.coherent (hbe.coherent hc))
        obtain ⟨precommits, _, _, same⟩ := hre.committed hr state
        rw [same] at haf
        exact fun commit => absurd commit (haf.still.not_commit nofun)

theorem Node.Rests.deliver (rests : n.Rests) (hc : n.Coherent) (e : Event) :
    (n.deliver env ans e).Rests := by
  by_cases halted : n.halted
  · rw [deliver_of_halted halted]
    exact rests
  · by_cases reset : e = .reset
    · subst reset
      exact fun commit => absurd commit ((deliver_reset halted).still.not_commit nofun)
    · exact (deliver_outcome hc.timed reset).rests halted rests hc

theorem Reachable.rests (hr : Reachable env n) : n.Rests := by
  induction hr with
  | start params hsa =>
    obtain ⟨lastCommit, _, rfl⟩ := map_eq_some_iff.mp hsa
    dsimp only
    split <;> exact nofun
  | deliver ans e hbe ih => exact ih.deliver hbe.coherent e

theorem Reachable.run (hr : Reachable env n) (events : List (Event × Answers)) :
    Reachable env (n.run env events) := by
  induction events generalizing n with
  | nil => exact hr
  | cons event rest ih => exact ih (hr.deliver event.2 event.1)

/-! ## The votes a node holds -/

/-- The vote is in a vote set of the height, or in the commit of the last one. -/
def Node.Recorded (n : Node) (i : Nat) (v : Vote) : Prop :=
  (∃ r t, n.votes.Recorded r t i v) ∨ ∃ lc, n.lastCommit = some lc ∧ lc.Recorded i v

/-- Votes in the queue are the node's own, and the last commit is a sound vote set of the node's
validators. -/
structure Node.Kept (n : Node) : Prop where
  queue : ∀ v, .vote v ∈ n.internalMsgQueue → v ∈ n.signed
  lastCommit : ∀ lc, n.lastCommit = some lc → lc.Sound ∧
    lc.valSet.validators = n.validators.validators

/-- Every new vote was carried to the node and is under the index it names. What is signed stays
signed, and the validators are the same; only their priorities change. -/
structure Gathers (carries : Vote → Prop) (n n' : Node) : Prop where
  members : n'.validators.validators = n.validators.validators
  kept : n.Kept → n'.Kept
  recorded : n.Kept → ∀ i v, n'.Recorded i v → n.Recorded i v ∨ carries v ∧ v.validatorIndex = i
  signed : ∀ v ∈ n.signed, v ∈ n'.signed

theorem Gathers.trans {a b c : Node} (h1 : Gathers carries a b)
    (h2 : Gathers carries b c) : Gathers carries a c where
  members := h2.members.trans h1.members
  kept kept := h2.kept (h1.kept kept)
  recorded kept i v held := by
    rcases h2.recorded (h1.kept kept) i v held with old | new
    · exact h1.recorded kept i v old
    · exact .inr new
  signed v member := h2.signed v (h1.signed v member)

theorem Gathers.imp {carries' : Vote → Prop} (hg : Gathers carries n n')
    (wider : ∀ v, carries v → carries' v) : Gathers carries' n n' where
  members := hg.members
  kept := hg.kept
  recorded kept i v held := (hg.recorded kept i v held).imp_right (And.imp_left (wider v))
  signed := hg.signed

/-- Nothing is recorded; what is signed goes in the queue. -/
theorem Gathers.of_same (validators : n'.validators = n.validators)
    (votes : ∀ r t i v, n'.votes.Recorded r t i v → n.votes.Recorded r t i v)
    (lastCommit : n'.lastCommit = n.lastCommit) (hsi : ∀ v ∈ n.signed, v ∈ n'.signed)
    (queue : ∀ v, .vote v ∈ n'.internalMsgQueue → .vote v ∈ n.internalMsgQueue ∨ v ∈ n'.signed) :
    Gathers carries n n' where
  members := congrArg _ validators
  kept kept := by
    refine ⟨fun v held => (queue v held).elim (fun old => hsi v (kept.queue v old)) id, ?_⟩
    rw [lastCommit, validators]
    exact kept.lastCommit
  recorded _ i v held := by
    refine .inl (held.imp (fun ⟨r, t, held⟩ => ⟨r, t, votes r t i v held⟩) ?_)
    rw [lastCommit]
    exact id
  signed := hsi

theorem Gathers.unchanged (validators : n'.validators = n.validators)
    (votes : n'.votes = n.votes) (lastCommit : n'.lastCommit = n.lastCommit)
    (hsi : n'.signed = n.signed) (queue : n'.internalMsgQueue = n.internalMsgQueue) :
    Gathers carries n n' :=
  .of_same validators (fun _ _ _ _ held => votes ▸ held) lastCommit
    (fun _ hme => hsi ▸ hme)
    fun _ held => .inl (queue ▸ held)

theorem Gathers.refl (n : Node) : Gathers carries n n :=
  .unchanged rfl rfl rfl rfl rfl

/-- A vote that is signed is put in the queue. -/
theorem applyAddVote_queue {type : VoteType} {id : BlockID} {v : Vote}
    (held : .vote v ∈ (n.applyAddVote env ans type id).internalMsgQueue) :
    .vote v ∈ n.internalMsgQueue ∨ v ∈ (n.applyAddVote env ans type id).signed := by
  rcases List.mem_append.mp held with old | new
  · exact .inl old
  · cases List.mem_singleton.mp new
    exact .inr List.mem_cons_self

theorem Calm.gathers (calm : Calm env rounds n n') : Gathers carries n n' := by
  have hs := calm.still
  refine .of_same hs.validators hs.votes.recorded hs.lastCommit ?_ ?_
  · cases calm with
    | quiet quiet => exact fun v hme => quiet.signed ▸ hme
    | prevote => exact fun v hme => List.mem_cons_of_mem _ hme
  · cases calm with
    | quiet quiet => exact fun v held => .inl (quiet.queue v held)
    | prevote => exact fun v => applyAddVote_queue

theorem Calms.gathers (hcl : Calms env rounds n n') : Gathers carries n n' := by
  induction hcl with
  | refl => exact .refl n
  | tail _ last ih => exact ih.trans last.gathers

theorem Move.gathers (move : Move env occ n n') : Gathers occ.carries n n' := by
  cases move with
  | calm calm => exact calm.gathers
  | record vote hb _ =>
    refine ⟨rfl, fun kept => ⟨kept.queue, kept.lastCommit⟩, fun _ i v held => ?_,
      fun v hme => hme⟩
    rcases held with ⟨r, t, held⟩ | last
    · rcases addVote_recorded held with old | ⟨rfl, index⟩
      · exact .inl (.inl ⟨r, t, old⟩)
      · exact .inr ⟨hb, index⟩
    · exact .inl (.inr last)
  | recordLast vote lc hb hf =>
    refine ⟨rfl, fun kept => ⟨kept.queue, fun lc' held => ?_⟩, fun kept i v held => ?_,
      fun v hme => hme⟩
    · obtain ⟨hso, hmm⟩ := kept.lastCommit lc hf
      have valSet : (lc.addVote vote).2.valSet = lc.valSet :=
        congrArg Slot.valSet (VoteSet.addVote_toSlot lc vote)
      cases held
      exact ⟨hso.addVote vote, (congrArg _ valSet).trans hmm⟩
    · rcases held with current | ⟨lc', held, hrc⟩
      · exact .inl (.inl current)
      · cases held
        rcases VoteSet.addVote_recorded (kept.lastCommit lc hf).1
          hrc with old | ⟨rfl, index⟩
        · exact .inl (.inr ⟨lc, hf, old⟩)
        · exact .inr ⟨hb, index⟩
  | propose => exact .unchanged rfl rfl rfl rfl rfl

theorem Moves.gathers (hm : Moves env occ n n') : Gathers occ.carries n n' := by
  induction hm with
  | refl => exact .refl n
  | tail _ last ih => exact ih.trans last.gathers

theorem precommitted_gathers (ans : Answers) : Gathers carries n (n.precommitted env ans) := by
  unfold precommitted
  obtain ⟨_, _, _, _, fields⟩ := doPrecommit_fields env ans n.round n
  rw [fields]
  exact .of_same rfl (fun _ _ _ _ held => held) rfl (fun v hme => List.mem_cons_of_mem _ hme)
    fun v => applyAddVote_queue

/-- The precommits of the last height stay, the other votes are dropped. -/
theorem committed_gathers {c : Saved} {precommits : VoteSet}
    (hc : n.Coherent) (hf : n.votes.precommits c.commitRound = some precommits)
    (hsu : Succeeds n s) : Gathers carries n (n.committed c s precommits) := by
  obtain ⟨hsi, queue, _⟩ := committed_logs n c s precommits
  obtain ⟨slot, hso⟩ := getVoteSet_sound hf
  refine ⟨hsu.members, fun kept => ⟨?_, ?_⟩, fun _ i v held => .inl (.inl ?_),
    fun v hme => hsi ▸ hme⟩
  · rw [hsi, queue]
    exact kept.queue
  · rintro lc held
    cases held
    refine ⟨hso, ?_⟩
    rw [show precommits.valSet = n.votes.valSet from congrArg Slot.valSet slot,
      hc.votesValSet]
    exact hsu.members.symm
  · rcases held with ⟨r, t, held⟩ | ⟨lc, held, hrc⟩
    · exact absurd held not_recorded_new
    · cases held
      exact ⟨_, _, precommits, hf, hrc⟩

theorem Outcome.gathers (hou : Outcome env occ n n') (hc : n.Coherent) :
    Gathers occ.carries n n' := by
  refine hou.induction (motive := Gathers occ.carries n) hc (fun _ hm => hm.gathers)
    (fun ans _ _ _ _ hbe => hbe.trans (precommitted_gathers ans)) ?_ ?_ ?_ ?_
  · intro a b entry hbe
    cases entry <;> exact hbe.trans (.unchanged rfl rfl rfl rfl rfl)
  · exact fun _ _ move hbe => hbe.trans (move.gathers.imp fun _ => False.elim)
  · exact fun _ _ _ _ hr hst hsu hbe =>
      hbe.trans (committed_gathers hr hst.found hsu)
  · exact fun _ hbe => hbe.trans (.unchanged rfl rfl rfl rfl rfl)

theorem deliver_gathers (hc : n.Coherent) (e : Event) :
    Gathers (e.occasion env n).carries n (n.deliver env ans e) := by
  by_cases halted : n.halted
  · rw [deliver_of_halted halted]
    exact .refl n
  · by_cases reset : e = .reset
    · have restarted : Gathers (e.occasion env n).carries n n.restarted :=
        .of_same rfl (fun _ _ _ _ held => held) rfl (fun _ hme => hme) nofun
      rw [reset] at restarted ⊢
      exact restarted.trans (deliver_reset halted).gathers
    · exact (deliver_outcome hc.timed reset).gathers hc

/-- Votes that are added one after the other, as far as all of them are taken. -/
theorem VoteSet.Sound.foldlM {step : VoteSet → Vote → Option VoteSet}
    (adds : ∀ vs v vs', step vs v = some vs' → vs' = (vs.addVote v).2) (votes : List Vote)
    {vs vs' : VoteSet} (hso : vs.Sound) (had : votes.foldlM step vs = some vs') :
    vs'.Sound ∧ vs'.toSlot = vs.toSlot := by
  induction votes generalizing vs with
  | nil =>
    cases had
    exact ⟨hso, rfl⟩
  | cons v rest ih =>
    obtain ⟨next, one, more⟩ := bind_eq_some_iff.mp had
    have grown := hso.addVote v
    have slot := VoteSet.addVote_toSlot vs v
    rw [← adds vs v next one] at grown slot
    obtain ⟨hso, slot'⟩ := ih grown more
    exact ⟨hso, slot'.trans slot⟩

/-- The last commit is rebuilt by adding votes to an empty set. -/
theorem reconstructLastCommit_sound {lc : VoteSet}
    (hrb : reconstructLastCommit s seenCommit = some (some lc)) :
    lc.Sound ∧ lc.valSet = s.validators := by
  unfold reconstructLastCommit at hrb
  split at hrb
  · cases hrb
  · obtain ⟨vs, added, kept⟩ := bind_eq_some_iff.mp hrb
    split at kept
    · cases kept
    · cases kept
      obtain ⟨hso, slot⟩ := VoteSet.Sound.foldlM (fun vs v vs' ht => by
        split at ht
        · rename_i result
          rw [result]
          exact (some.inj ht).symm
        · cases ht) _ (.new _) added
      exact ⟨hso, congrArg Slot.valSet slot⟩

theorem startNode_kept (hsa : startNode env s seenCommit = some n) : n.Kept := by
  obtain ⟨lastCommit, hrb, rfl⟩ := map_eq_some_iff.mp hsa
  have hfr : (new s lastCommit).Kept :=
    ⟨nofun, fun lc held =>
      have ⟨sound, valSet⟩ := reconstructLastCommit_sound (hrb.trans (congrArg some held))
      ⟨sound, congrArg _ valSet⟩⟩
  dsimp only
  split
  · exact ⟨nofun, hfr.lastCommit⟩
  · exact hfr

end

end HNBChain.Audit.Source.Algorand
