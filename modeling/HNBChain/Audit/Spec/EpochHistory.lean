import HNBChain.Audit.Source.Dbft.Manager

/-!
# What the history of a node determines

Whoever proposes next is chosen from the epoch and from two validator sets; the tokens are in the
contract state. Both are functions of what the node went through since it started: the blocks it
took and how they came, the tokens given back at the end of an epoch, the epochs it entered.
`Course` and `Tokens` are these two functions, a step for each passage, and `run_traced` says that
every run of the manager follows them, whatever messages and timeouts come between.
-/
namespace HNBChain.Audit.Spec

open Lib Source Source.Dbft

/-! ## The validators and the epoch -/

structure Course where
  height : UInt64
  validators : EpochSet
  lastValidators : EpochSet
  epoch : Epoch

namespace Course

variable (target : UInt64)

/-- After a block of the epoch the epoch has the validators of the next height as its witnesses, and
if it is not over they carry it on. -/
def check (c : Course) : Course :=
  match c.validators.info with
  | none => c
  | some pre =>
    if c.epoch.epochNo ≠ pre.epochNo then c
    else
      let info : EpochInfo := { pre with endNum := c.height }
      let epoch : Epoch := ⟨info, c.validators.set.validators, c.validators.set.accum⟩
      if epoch.isBlksToTarget target then { c with epoch := epoch }
      else { c with epoch := epoch, validators := { c.validators with info := some info } }

@[simp] theorem check_height (c : Course) : (c.check target).height = c.height := by
  unfold check
  split
  · rfl
  · dsimp only
    split_ifs <;> rfl

@[simp] theorem check_lastValidators (c : Course) :
    (c.check target).lastValidators = c.lastValidators := by
  unfold check
  split
  · rfl
  · dsimp only
    split_ifs <;> rfl

theorem check_epoch {c : Course} {pre : EpochInfo} (info : c.validators.info = some pre) :
    (c.check target).epoch = if c.epoch.epochNo ≠ pre.epochNo then c.epoch
      else ⟨{ pre with endNum := c.height }, c.validators.set.validators,
        c.validators.set.accum⟩ := by
  unfold check
  rw [info]
  dsimp only
  by_cases other : c.epoch.epochNo ≠ pre.epochNo
  · rw [if_pos other, if_pos other]
  · rw [if_neg other, if_neg other]
    split_ifs <;> rfl

/-- The check changes only the end in the record of the validators. -/
theorem check_validators {c : Course} {pre : EpochInfo} (info : c.validators.info = some pre) :
    (c.check target).validators.set = c.validators.set ∧
      ∃ pre', (c.check target).validators.info = some pre' ∧ pre'.epochNo = pre.epochNo ∧
        pre'.beginNum = pre.beginNum := by
  unfold check
  rw [info]
  dsimp only
  split_ifs
  · exact ⟨rfl, pre, info, rfl, rfl⟩
  · exact ⟨rfl, pre, info, rfl, rfl⟩
  · exact ⟨rfl, _, rfl, rfl, rfl⟩

/-- The next height, with the validators of the one before as the last ones. -/
def advance (next : EpochSet) (c : Course) : Course :=
  check target { c with height := c.height + 1, validators := next, lastValidators := c.validators }

def pass (p : Passage) (c : Course) : Course :=
  match p with
  | .commit _ _ =>
    match c.validators.set.incrementAccum 1 with
    | none => c
    | some next => c.advance target { c.validators with set := next }
  | .sync _ blk => c.advance target blk.validators
  | .dropped _ _ => c
  | .unsettled _ blk =>
    { c with height := c.height + 1, validators := blk.validators, lastValidators := c.validators }
  | .refused validators => { c with validators := validators }
  | .unfrozen _ _ => c
  | .entered newEpoch =>
    match newValidatorSet newEpoch.witnessList newEpoch.accum newEpoch.epochNo
        ⟨newEpoch.epochNo, newEpoch.dependEpochNo, c.height, c.height⟩ with
    | none => c
    | some validators => { c with validators := validators, epoch := newEpoch }

/-- From the oldest passage to the newest, which is the first. -/
def replay (c : Course) (history : List Passage) : Course := history.foldr (pass target) c

@[simp] theorem replay_cons (c : Course) (p : Passage) (history : List Passage) :
    c.replay target (p :: history) = (c.replay target history).pass target p := rfl

end Course

def course (m : DbftManager) : Course :=
  ⟨m.handler.height, m.handler.validators, m.handler.lastValidators, m.epoch⟩

/-! ## The tokens -/

/-- The contract state, and the height at which the ledger takes a block. -/
structure Tokens where
  state : World
  height : UInt64

namespace Tokens

/-- A ledger with these tokens and nothing else. -/
def ledger (t : Tokens) : Ledger := { genesisLedger with state := t.state, height := t.height }

def block (order : MapOrder) (blk : Source.Block) (t : Tokens) : Tokens :=
  ⟨(blockProcess order t.ledger blk).2.state, (blockProcess order t.ledger blk).2.height⟩

def pass (p : Passage) (t : Tokens) : Tokens :=
  match p with
  | .commit order blk => t.block order blk.block
  | .sync order blk => t.block order blk.block
  | .dropped order blk => t.block order blk.block
  | .unsettled order blk => t.block order blk.block
  | .unfrozen order epochNo => { t with state := (unfreezeToken order t.state epochNo).2 }
  | .refused _ => t
  | .entered _ => t

def replay (t : Tokens) (history : List Passage) : Tokens := history.foldr pass t

@[simp] theorem replay_cons (t : Tokens) (p : Passage) (history : List Passage) :
    t.replay (p :: history) = (t.replay history).pass p := rfl

end Tokens

def tokens (ledger : Ledger) : Tokens := ⟨ledger.state, ledger.height⟩

/-- The index of failed transactions is written beside the loop, and nothing in the loop reads
it. -/
theorem processTx_wrongIndex (base : World) (run : BlockRun) (tx : Transaction)
    (index : Store Bytes Err) : ∃ index', processTx base { run with wrongIndex := index } tx =
      ((processTx base run tx).1, { (processTx base run tx).2 with wrongIndex := index' }) := by
  have same (chain : ChainID) :
      runPending base { run with wrongIndex := index } chain tx =
      runPending base run chain tx := rfl
  unfold processTx
  cases getHandler tx.contractName with
  | error e => exact ⟨index, rfl⟩
  | ok chain =>
    simp only [same]
    rcases runPending base run chain tx with ⟨e | _, pending⟩
    · cases e <;> exact ⟨_, rfl⟩
    · exact ⟨_, rfl⟩

theorem processTxs_wrongIndex (base : World) (txs : List Transaction) (run : BlockRun)
    (index : Store Bytes Err) : ∃ index', processTxs base txs { run with wrongIndex := index } =
      ((processTxs base txs run).1, { (processTxs base txs run).2 with wrongIndex := index' }) := by
  induction txs generalizing run index with
  | nil => exact ⟨index, rfl⟩
  | cons tx rest ih =>
    obtain ⟨index', h1⟩ := processTx_wrongIndex base run tx index
    simp only [processTxs, h1]
    rcases processTx base run tx with ⟨_ | _, run'⟩
    · exact ⟨index', rfl⟩
    · exact ih run' index'

/-- What a block does to the tokens depends on the tokens only. -/
theorem tokens_blockProcess (order : MapOrder) (ledger : Ledger) (blk : Source.Block) :
    (tokens ledger).block order blk = tokens (blockProcess order ledger blk).2 := by
  obtain ⟨index, same⟩ := processTxs_wrongIndex ledger.state blk.txs (startRun ledger) ∅
  have bare : processTxs (tokens ledger).ledger.state blk.txs (startRun (tokens ledger).ledger) =
      ((processTxs ledger.state blk.txs (startRun ledger)).1,
        { (processTxs ledger.state blk.txs (startRun ledger)).2 with wrongIndex := index }) := same
  unfold Tokens.block blockProcess
  rw [bare]
  rcases processTxs ledger.state blk.txs (startRun ledger) with ⟨_ | _, run⟩
  · rfl
  · by_cases taken : blk.blockNum = ledger.height
    · simp only [finishBlock, writeLedger, Tokens.ledger, tokens, taken, ne_eq,
        not_true_eq_false, if_false]
      rfl
    · simp [finishBlock, writeLedger, Tokens.ledger, tokens, taken]

theorem tokens_refused {order : MapOrder} {ledger final : Ledger} {blk : Source.Block} {e : Err}
    (hr : blockProcess order ledger blk = (.error e, final)) :
    tokens final = tokens ledger := by
  unfold blockProcess at hr
  rcases ran : processTxs ledger.state blk.txs (startRun ledger) with ⟨_ | _, run⟩
  · rw [ran] at hr
    cases hr
    rfl
  · rw [ran] at hr
    simp only [finishBlock, writeLedger] at hr
    split at hr
    · cases hr
      rfl
    · simp at hr

/-! ## The manager follows -/

/-- The manager is where its history has led. -/
structure Traced (target : UInt64) (c : Course) (t : Tokens) (m : DbftManager) : Prop where
  course : course m = c.replay target m.history
  tokens : tokens m.ledger = t.replay m.history

section

variable {env : Env} {ans : Answers} {c : Course} {t : Tokens} {m m' : DbftManager}

variable {target : UInt64}

theorem Traced.same (ht : Traced target c t m) (hhi : m'.history = m.history)
    (sameCourse : Spec.course m' = Spec.course m)
    (sameTokens : Spec.tokens m'.ledger = Spec.tokens m.ledger) : Traced target c t m' := by
  refine ⟨?_, ?_⟩
  · rw [sameCourse, hhi]
    exact ht.course
  · rw [sameTokens, hhi]
    exact ht.tokens

theorem course_of_calm (calm : Calm m m') : course m' = course m := by
  unfold course
  rw [calm.height, calm.validators, calm.lastValidators, calm.epoch]

theorem Traced.calm (ht : Traced target c t m) (calm : Calm m m') : Traced target c t m' :=
  ht.same calm.history (course_of_calm calm) (by rw [calm.ledger])

/-- A passage is added to the history, and the manager takes its step. -/
theorem Traced.pass (ht : Traced target c t m) (p : Passage) (hhi : m'.history = p :: m.history)
    (hs : Spec.course m' = (Spec.course m).pass target p)
    (paid : Spec.tokens m'.ledger = (Spec.tokens m.ledger).pass p) : Traced target c t m' := by
  refine ⟨?_, ?_⟩
  · rw [hs, hhi, ht.course]
    rfl
  · rw [paid, hhi, ht.tokens]
    rfl

theorem course_checkEpochChange (m : DbftManager) :
    course (m.checkEpochChange env).2 = (course m).check env.targetBlkCount := by
  unfold DbftManager.checkEpochChange Course.check
  cases info : m.handler.validators.info with
  | none => simp [course, info]
  | some pre =>
    by_cases other : m.epoch.epochNo ≠ pre.epochNo
    · simp [course, info, other]
    · simp only [course, info, other, if_false]
      split
      next full => exact (if_pos full).symm
      next short => split <;> exact (if_neg short).symm

theorem checkEpochChange_history (m : DbftManager) :
    (m.checkEpochChange env).2.history = m.history ∧
    (m.checkEpochChange env).2.ledger = m.ledger := by
  unfold DbftManager.checkEpochChange
  split
  · exact ⟨rfl, rfl⟩
  · dsimp only
    split_ifs <;> exact ⟨rfl, rfl⟩

theorem Traced.commitBlock (ht : Traced env.targetBlkCount c t m) (blk : ChainBlock) :
    Traced env.targetBlkCount c t (m.commitBlock env ans blk).2 := by
  have paid := tokens_blockProcess ans.order m.ledger blk.block
  unfold DbftManager.commitBlock
  split
  next _ refused => exact ht.same rfl rfl (tokens_refused refused)
  next _ _ _ refused => exact ht.same rfl rfl (tokens_refused refused)
  next ledger done =>
    rw [done] at paid
    dsimp only
    cases increment : m.handler.validators.set.incrementAccum 1 with
    | none =>
      refine ht.pass (.commit ans.order blk) rfl ?_ paid.symm
      simp [Course.pass, Spec.course, increment]
    | some next =>
      obtain ⟨hhi, kept⟩ := @checkEpochChange_history env
        { m with
          ledger := ledger
          history := .commit ans.order blk :: m.history
          handler := { m.handler with
            height := m.handler.height + 1
            validators := { m.handler.validators with set := next }
            lastValidators := m.handler.validators } }
      refine ht.pass (.commit ans.order blk) hhi ?_ ?_
      · rw [course_checkEpochChange]
        simp [Course.pass, Course.advance, Spec.course, increment]
      · rw [kept]
        exact paid.symm

theorem Traced.syncBlock (ht : Traced env.targetBlkCount c t m) (blk : ChainBlock) :
    Traced env.targetBlkCount c t (m.syncBlock env ans blk).2 := by
  have paid := tokens_blockProcess ans.order m.ledger blk.block
  unfold DbftManager.syncBlock
  split
  next _ refused => exact ht.same rfl rfl (tokens_refused refused)
  next _ ledger _ done =>
    rw [done] at paid
    dsimp only
    split
    · exact ht.pass (.dropped ans.order blk) rfl rfl paid.symm
    · exact ht.pass (.dropped ans.order blk) rfl rfl paid.symm
    · exact ht.pass (.unsettled ans.order blk) rfl rfl paid.symm
    · obtain ⟨hhi, kept⟩ := @checkEpochChange_history env
        { { m with ledger := ledger }.updateToState blk with
        history := .sync ans.order blk :: m.history }
      refine ht.pass (.sync ans.order blk) hhi ?_ ?_
      · rw [course_checkEpochChange]
        rfl
      · rw [kept]
        exact paid.symm

theorem Traced.install (ht : Traced env.targetBlkCount c t m) (cause : Cause)
    (newEpoch : Epoch) : Traced env.targetBlkCount c t (m.install env ans cause newEpoch).2 := by
  unfold DbftManager.install
  dsimp only
  cases made : newValidatorSet newEpoch.witnessList newEpoch.accum newEpoch.epochNo
      ⟨newEpoch.epochNo, newEpoch.dependEpochNo, m.handler.height, m.handler.height⟩ with
  | none => exact ht
  | some validators =>
    have entered (m' : DbftManager) (hhi : m'.history = .entered newEpoch :: m.history)
        (same : Spec.course m' = ⟨m.handler.height, validators, m.handler.lastValidators, newEpoch⟩)
        (ledger : m'.ledger = m.ledger) : Traced env.targetBlkCount c t m' := by
      refine ht.pass (.entered newEpoch) hhi ?_ (by rw [ledger]; rfl)
      rw [same]
      simp [Course.pass, Spec.course, made]
    dsimp only
    split
    · exact entered _ rfl rfl rfl
    · split <;> exact entered _ rfl rfl rfl

theorem Traced.resetEpoch (ht : Traced env.targetBlkCount c t m) (cause : Cause)
    (newEpoch : Epoch) : Traced env.targetBlkCount c t (m.resetEpoch env ans cause newEpoch).2 := by
  unfold DbftManager.resetEpoch
  split
  · exact ht
  · exact ht
  next state paid =>
    have unfrozen : Traced env.targetBlkCount c t { m with
        ledger := { m.ledger with state := state }
        handler := { m.handler with running := false }
        history := .unfrozen ans.order m.epoch.epochNo :: m.history } := by
      refine ht.pass (.unfrozen ans.order m.epoch.epochNo) rfl rfl ?_
      simp [Tokens.pass, Spec.tokens, paid]
    split
    · exact unfrozen.install cause newEpoch
    · exact unfrozen

theorem Traced.checkEnterNewEpoch (ht : Traced target c t m) (epochNo : UInt64) :
    Traced target c t (m.checkEnterNewEpoch env ans epochNo).2 := by
  unfold DbftManager.checkEnterNewEpoch DbftManager.buildNewEpochMsg
  split
  · have hb := ht.calm (buildNewEpoch_calm env ans m)
    generalize m.buildNewEpoch env ans = result at hb ⊢
    rcases result with ⟨e | epoch, next⟩
    · exact hb
    · dsimp only
      by_cases signs : ans.signs = true
      · rw [if_pos signs]
        exact hb.same rfl rfl rfl
      · rw [if_neg signs]
        exact hb
  · exact ht

theorem Traced.handleEpochChange (ht : Traced target c t m) (payload : Option EpochChange) :
    Traced target c t (m.handleEpochChange env ans payload).2 := by
  unfold DbftManager.handleEpochChange
  split
  · exact ht
  next change =>
    split
    · exact ht
    · exact ht
    · have hre : Traced target c t (m.setEpochChange change) := ht.same rfl rfl rfl
      have hf := hre.calm (follow_calm env ans _ change)
      split
      next _ _ failed =>
        rw [failed] at hf
        exact hf
      next _ done =>
        rw [done] at hf
        exact hf.checkEnterNewEpoch _

theorem Traced.handleNewEpoch (ht : Traced env.targetBlkCount c t m) (payload : Option NewEpoch) :
    Traced env.targetBlkCount c t (m.handleNewEpoch env ans payload).2 := by
  unfold DbftManager.handleNewEpoch
  split
  · exact ht
  · split
    · exact ht
    · have hb := ht.calm (buildNewEpoch_calm env ans m)
      generalize m.buildNewEpoch env ans = result at hb ⊢
      rcases result with ⟨e | self, next⟩
      · exact hb
      · dsimp only
        split
        · exact hb
        next net _ =>
          have reset := @Traced.resetEpoch env ans c t next hb .message net
          split
          next _ _ failed =>
            rw [failed] at reset
            exact reset
          next _ finished =>
            rw [finished] at reset
            exact reset

theorem Traced.handle (ht : Traced env.targetBlkCount c t m) (key : Bytes) (msg : DposMsg) :
    Traced env.targetBlkCount c t (m.handle env ans key msg).2 := by
  cases msg with
  | epochChange payload =>
    have logged : Traced env.targetBlkCount c t
        { m with heard := payload.toList.map (key, ·) ++ m.heard } :=
      ht.same rfl rfl rfl
    exact logged.handleEpochChange payload
  | newEpoch payload =>
    have hh := @Traced.handleNewEpoch env ans c t m ht payload
    unfold DbftManager.handle
    dsimp only
    split
    next _ _ failed =>
      rw [failed] at hh
      exact hh
    next _ _ done =>
      rw [done] at hh
      exact hh.same rfl rfl rfl

theorem Traced.fullBlkChange (ht : Traced env.targetBlkCount c t m) :
    Traced env.targetBlkCount c t (m.fullBlkChange env ans).2 := by
  have hb := ht.calm (buildNewEpoch_calm env ans m)
  unfold DbftManager.fullBlkChange
  generalize m.buildNewEpoch env ans = result at hb ⊢
  rcases result with ⟨e | epoch, next⟩
  · exact hb
  · exact hb.resetEpoch .full _

/-- How a turn ends is not part of it. -/
theorem Traced.turn (ht : Traced target c t m) (routine : Routine)
    {body : DbftManager → Except DposErr Unit × DbftManager} (done : Traced target c t (body m).2) :
    Traced target c t (m.turn routine body) := by
  unfold DbftManager.turn
  split
  · exact ht
  · generalize body m = result at done ⊢
    rcases result with ⟨e | _, next⟩
    · cases e <;> exact done.same rfl rfl rfl
    · exact done

theorem Traced.handlerTurn (ht : Traced target c t m)
    {body : DbftManager → Except DposErr Unit × DbftManager} (done : Traced target c t (body m).2) :
    Traced target c t (m.handlerTurn body) := by
  unfold DbftManager.handlerTurn
  split
  · exact ht
  · generalize body m = result at done ⊢
    rcases result with ⟨e | _, next⟩
    · exact done.same rfl rfl rfl
    · exact done

theorem Traced.deliver (ht : Traced env.targetBlkCount c t m) (e : Event) :
    Traced env.targetBlkCount c t (m.deliver env ans e) := by
  cases e with
  | peer sender verified msg =>
    cases verified with
    | false => exact ht
    | true => exact ht.turn .listener (ht.handle sender msg)
  | own =>
    unfold DbftManager.deliver
    dsimp only
    split
    · exact ht
    next msg rest _ =>
      have hta : Traced env.targetBlkCount c t { m with internalMsgQueue := rest } :=
        ht.same rfl rfl rfl
      exact ht.turn .listener (hta.handle env.id msg)
  | blkTimeout height txs =>
    exact ht.turn .scanner (ht.calm (blkTimeout_calm env ans m height txs))
  | waitOver candidateBgNum =>
    have waited : Traced env.targetBlkCount c t (m.waitOver ans candidateBgNum) :=
      ht.same rfl rfl rfl
    unfold DbftManager.deliver
    exact ht.turn .scanner waited
  | commit blk => exact ht.handlerTurn (ht.commitBlock blk)
  | sync blk => exact ht.handlerTurn (ht.syncBlock blk)
  | refused validators =>
    have hta : Traced env.targetBlkCount c t (m.takeValidators validators) :=
      ht.pass (.refused validators) rfl rfl rfl
    unfold DbftManager.deliver
    exact ht.handlerTurn hta
  | fullBlkChange =>
    unfold DbftManager.deliver
    split_ifs
    · have hta : Traced env.targetBlkCount c t { m with fullBlkChangeChan := false } :=
        ht.same rfl rfl rfl
      exact ht.turn .fullBlk hta.fullBlkChange
    · exact ht
  | blkChange =>
    unfold DbftManager.deliver
    dsimp only
    split
    next newEpoch _ =>
      have hta : Traced env.targetBlkCount c t { m with blkChangeChan := none } :=
        ht.same rfl rfl rfl
      exact ht.turn .finder (hta.resetEpoch .found newEpoch)
    · exact ht

theorem Traced.run (ht : Traced env.targetBlkCount c t m) (events : List (Event × Answers)) :
    Traced env.targetBlkCount c t (m.run env events) := by
  induction events generalizing m with
  | nil => exact ht
  | cons event rest ih => exact ih (ht.deliver event.1)

end

/-- Every run of a manager without a history follows its history. -/
theorem run_traced {env : Env} {m : DbftManager} (hfr : m.history = [])
    (events : List (Event × Answers)) :
    Traced env.targetBlkCount (course m) (tokens m.ledger) (m.run env events) := by
  have hst : Traced env.targetBlkCount (course m) (tokens m.ledger) m := by
    refine ⟨?_, ?_⟩ <;>
    · rw [hfr]
      rfl
  exact hst.run events

end HNBChain.Audit.Spec
