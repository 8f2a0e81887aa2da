import HNBChain.Audit.Spec.EpochHistory
import HNBChain.Audit.Guarantees.EpochQuorum

/-!
# Who proposes next

`isProposerByDPoS` goes on from the proposer of the last validators. A node that has decided a block
has moved its own validators on; a node that got the block by sync has the validators of the block,
with whoever proposed it as their proposer, and has not moved them on. One height later these are
the last validators, and the two nodes go on from different proposers.

They agree as long as, before the newest block, they had the same validators to carry on: from the
same start, since a block that both got by sync, or since an epoch that both entered.
-/
namespace HNBChain.Audit.Guarantees.ProposerAgreement

open Lib Source Source.Dbft
open Source.Algorand (Validator incrementAccum_one)
open Spec EpochQuorum

/-- Who proposes at the node's next height; no result is a panic. -/
def proposer (env : Env) (m : DbftManager) (round : Int32) : Option (Option Validator) :=
  (m.isProposerByDPoS env m.handler.height round).map Prod.snd

/-! ## What the choice reads -/

/-- Two nodes that choose from the same witnesses, go on from the same proposer or both start
anew. -/
structure Level (a b : Course) : Prop where
  height : a.height = b.height
  witnesses : a.epoch.witnessList = b.epoch.witnessList
  beginNum : a.epoch.beginNum = b.epoch.beginNum
  last : a.height = a.epoch.beginNum ∨ a.lastValidators.set = b.lastValidators.set

theorem proposer_of_level {envA envB : Env} {a b : DbftManager}
    (hle : Level (course a) (course b))
    (listedA : Listed a) (listedB : Listed b) (round : Int32) :
    proposer envA a round = proposer envB b round := by
  have epochs (m : DbftManager) (hl : Listed m) :
      (m.getEpoch m.epoch.epochNo).1 = some m.epoch := by
    unfold DbftManager.getEpoch
    rw [show m.epochList m.epoch.epochNo = some m.epoch from hl]
  have witnesses : a.epoch.witnessList = b.epoch.witnessList := hle.witnesses
  have height : a.handler.height = b.handler.height := hle.height
  have beginNum : a.epoch.beginNum = b.epoch.beginNum := hle.beginNum
  have place : a.nextPlace b.epoch.witnessList b.handler.height =
      b.nextPlace b.epoch.witnessList b.handler.height := by
    unfold DbftManager.nextPlace
    rcases hle.last with h1 | last
    · have h1 : b.handler.height = b.epoch.beginNum := height.symm.trans (h1.trans beginNum)
      rw [if_pos (h1.trans beginNum.symm), if_pos h1]
    · have last : a.handler.lastValidators.set = b.handler.lastValidators.set := last
      rw [beginNum, last]
  unfold proposer DbftManager.isProposerByDPoS
  rw [epochs a listedA, epochs b listedB]
  dsimp only
  rw [witnesses, height, place]
  split
  · rfl
  · cases b.nextPlace b.epoch.witnessList b.handler.height with
    | none => rfl
    | some valIndex =>
      simp only [Option.bind_some]
      split
      · rfl
      · simp only [Option.map_map]
        rfl

/-! ## Which histories lead there -/

section

variable (target : UInt64) (a b : Course)

/-- After these histories both nodes have the same validators to carry on. -/
inductive Even : List Passage → List Passage → Prop where
  | start (same : a = b) : Even [] []
  | commit {p q : List Passage} {orderA orderB : MapOrder} {blkA blkB : ChainBlock}
      (before : Even p q) :
    Even (.commit orderA blkA :: p) (.commit orderB blkB :: q)
  | sync {p q : List Passage} {orderA orderB : MapOrder} {blk : ChainBlock} {pre : EpochInfo}
    (height : (a.replay target p).height = (b.replay target q).height)
    (info : blk.validators.info = some pre)
    (ofA : (a.replay target p).epoch.epochNo = pre.epochNo)
    (ofB : (b.replay target q).epoch.epochNo = pre.epochNo) :
    Even (.sync orderA blk :: p) (.sync orderB blk :: q)
  | entered {p q : List Passage} {newEpoch : Epoch}
    (height : (a.replay target p).height = (b.replay target q).height)
    (witnesses : newEpoch.witnessList ≠ []) :
    Even (.entered newEpoch :: p) (.entered newEpoch :: q)
  | unfrozenA {p q : List Passage} {order : MapOrder} {epochNo : UInt64} (before : Even p q) :
    Even (.unfrozen order epochNo :: p) q
  | unfrozenB {p q : List Passage} {order : MapOrder} {epochNo : UInt64} (before : Even p q) :
    Even p (.unfrozen order epochNo :: q)
  | droppedA {p q : List Passage} {order : MapOrder} {blk : ChainBlock} (before : Even p q) :
    Even (.dropped order blk :: p) q
  | droppedB {p q : List Passage} {order : MapOrder} {blk : ChainBlock} (before : Even p q) :
    Even p (.dropped order blk :: q)
  | unsettled {p q : List Passage} {orderA orderB : MapOrder} {blk : ChainBlock}
      (before : Even p q) :
    Even (.unsettled orderA blk :: p) (.unsettled orderB blk :: q)

/-- The block has the validators in the order of these, and belongs to their epoch. -/
def Carries (blk validators : EpochSet) : Prop :=
  blk.set.validators = validators.set.validators ∧ validators.set.validators ≠ [] ∧
    ∃ pre pre', validators.info = some pre ∧ blk.info = some pre' ∧ pre'.epochNo = pre.epochNo ∧
      pre'.beginNum = pre.beginNum

/-- The nodes were even before the newest block, and it may have come to them in different ways; or
both have just entered an epoch, which begins at their height. -/
inductive Abreast : List Passage → List Passage → Prop where
  | start (same : a = b) : Abreast [] []
  | commit {p q : List Passage} {orderA orderB : MapOrder} {blkA blkB : ChainBlock}
      (before : Even target a b p q)
    (occupied : (a.replay target p).validators.set.validators ≠ []) :
    Abreast (.commit orderA blkA :: p) (.commit orderB blkB :: q)
  | sync {p q : List Passage} {orderA orderB : MapOrder} {blk : ChainBlock}
      (before : Even target a b p q) :
    Abreast (.sync orderA blk :: p) (.sync orderB blk :: q)
  | commitSync {p q : List Passage} {orderA orderB : MapOrder} {blkA blkB : ChainBlock}
    (before : Even target a b p q) (carries : Carries blkB.validators
      (a.replay target p).validators) :
    Abreast (.commit orderA blkA :: p) (.sync orderB blkB :: q)
  | syncCommit {p q : List Passage} {orderA orderB : MapOrder} {blkA blkB : ChainBlock}
    (before : Even target a b p q) (carries : Carries blkA.validators
      (b.replay target q).validators) :
    Abreast (.sync orderA blkA :: p) (.commit orderB blkB :: q)
  | entered {p q : List Passage} {newEpoch : Epoch}
    (height : (a.replay target p).height = (b.replay target q).height)
    (witnesses : newEpoch.witnessList ≠ [])
    (begins : newEpoch.beginNum = (a.replay target p).height) :
    Abreast (.entered newEpoch :: p) (.entered newEpoch :: q)
  | unfrozenA {p q : List Passage} {order : MapOrder} {epochNo : UInt64} (before : Abreast p q) :
    Abreast (.unfrozen order epochNo :: p) q
  | unfrozenB {p q : List Passage} {order : MapOrder} {epochNo : UInt64} (before : Abreast p q) :
    Abreast p (.unfrozen order epochNo :: q)
  | droppedA {p q : List Passage} {order : MapOrder} {blk : ChainBlock} (before : Abreast p q) :
    Abreast (.dropped order blk :: p) q
  | droppedB {p q : List Passage} {order : MapOrder} {blk : ChainBlock} (before : Abreast p q) :
    Abreast p (.dropped order blk :: q)
  | unsettled {p q : List Passage} {orderA orderB : MapOrder} {blk : ChainBlock}
      (before : Even target a b p q) :
    Abreast (.unsettled orderA blk :: p) (.unsettled orderB blk :: q)

end

section

variable {target : UInt64} {a b x y : Course} {p q : List Passage}

/-- The same height, validators to carry on, and epoch. -/
structure Matched (x y : Course) : Prop where
  height : x.height = y.height
  validators : x.validators = y.validators
  epoch : x.epoch = y.epoch

/-- With the same validators for the next height there is nothing left in which they differ. -/
theorem Matched.advance (hm : Matched x y) (next : EpochSet) :
    x.advance target next = y.advance target next := by
  unfold Course.advance
  rw [hm.height, hm.validators, hm.epoch]

theorem Matched.pass_commit_eq (hm : Matched x y) (ho : x.validators.set.validators ≠ [])
    (orderA orderB : MapOrder) (blkA blkB : ChainBlock) :
    x.pass target (.commit orderA blkA) = y.pass target (.commit orderB blkB) := by
  obtain ⟨set, incremented, _⟩ := incrementAccum_one x.validators.set ho
  unfold Course.pass
  simp only [← hm.validators, incremented]
  exact hm.advance _

theorem Matched.pass_commit (hm : Matched x y) (orderA orderB : MapOrder) (blkA blkB : ChainBlock) :
    Matched (x.pass target (.commit orderA blkA)) (y.pass target (.commit orderB blkB)) := by
  unfold Course.pass
  dsimp only
  rw [hm.validators]
  split
  · exact hm
  · rw [hm.advance]
    exact ⟨rfl, rfl, rfl⟩

/-- A block of the epoch of both, whatever they had before it. -/
theorem matched_sync {blk : EpochSet} {pre : EpochInfo} (height : x.height = y.height)
    (info : blk.info = some pre)
    (ofX : x.epoch.epochNo = pre.epochNo) (ofY : y.epoch.epochNo = pre.epochNo) :
    Matched (x.advance target blk) (y.advance target blk) := by
  unfold Course.advance Course.check
  simp only [info, ofX, ofY, height, ne_eq, not_true_eq_false, if_false]
  split_ifs <;> exact ⟨rfl, rfl, rfl⟩

theorem pass_entered (target : UInt64) {newEpoch : Epoch} (witnesses : newEpoch.witnessList ≠ [])
    (height : UInt64) : ∃ validators, ∀ c : Course, c.height = height →
      c.pass target (.entered newEpoch) =
        { c with validators := validators, epoch := newEpoch } := by
  obtain ⟨set, made⟩ := newValidatorSet_some witnesses newEpoch.accum newEpoch.epochNo
    ⟨newEpoch.epochNo, newEpoch.dependEpochNo, height, height⟩
  refine ⟨set, fun c ht => ?_⟩
  unfold Course.pass
  simp only [ht, made]

/-- An epoch entered at the same height. -/
theorem matched_entered {newEpoch : Epoch} (height : x.height = y.height)
    (witnesses : newEpoch.witnessList ≠ []) :
    Matched (x.pass target (.entered newEpoch)) (y.pass target (.entered newEpoch)) := by
  obtain ⟨validators, hp⟩ := pass_entered target witnesses y.height
  rw [hp x height, hp y rfl]
  exact ⟨height, rfl, rfl⟩

theorem Even.matched (even : Even target a b p q) :
    Matched (a.replay target p) (b.replay target q) := by
  induction even with
  | start same =>
    subst same
    exact ⟨rfl, rfl, rfl⟩
  | commit _ ih =>
    rw [Course.replay_cons, Course.replay_cons]
    exact ih.pass_commit _ _ _ _
  | sync height info ofA ofB => exact matched_sync height info ofA ofB
  | entered height witnesses =>
    rw [Course.replay_cons, Course.replay_cons]
    exact matched_entered height witnesses
  | unfrozenA _ ih => exact ih
  | unfrozenB _ ih => exact ih
  | droppedA _ ih => exact ih
  | droppedB _ ih => exact ih
  | unsettled _ ih => exact ⟨congrArg (· + 1) ih.height, rfl, ih.epoch⟩

theorem Level.of_eq (same : x = y) : Level x y := by
  subst same
  exact ⟨rfl, rfl, rfl, .inr rfl⟩

theorem Level.symm (hle : Level x y) : Level y x where
  height := hle.height.symm
  witnesses := hle.witnesses.symm
  beginNum := hle.beginNum.symm
  last := by
    rcases hle.last with h1 | last
    · exact .inl (by rw [← hle.height, h1, hle.beginNum])
    · exact .inr last.symm

/-- Whichever validators come next, the last ones are those that both carried; the rest is the same
if they differ in their proposer and priorities only. -/
theorem Matched.level_advance (hm : Matched x y) {v w : EpochSet} {pre pre' : EpochInfo}
    (lists : v.set.validators = w.set.validators) (infoV : v.info = some pre)
    (infoW : w.info = some pre')
    (epochNo : pre'.epochNo = pre.epochNo) (beginNum : pre'.beginNum = pre.beginNum) :
    Level (x.advance target v) (y.advance target w) := by
  have last : (x.advance target v).lastValidators = (y.advance target w).lastValidators := by
    simp only [Course.advance, Course.check_lastValidators, hm.validators]
  have height : (x.advance target v).height = (y.advance target w).height := by
    simp only [Course.advance, Course.check_height, hm.height]
  have epochX : (x.advance target v).epoch =
      if x.epoch.epochNo ≠ pre.epochNo then x.epoch
      else ⟨{ pre with endNum := x.height + 1 }, v.set.validators, v.set.accum⟩ :=
        Course.check_epoch target infoV
  have epochY : (y.advance target w).epoch =
      if y.epoch.epochNo ≠ pre'.epochNo then y.epoch
      else ⟨{ pre' with endNum := y.height + 1 }, w.set.validators, w.set.accum⟩ :=
        Course.check_epoch target infoW
  rw [← hm.epoch, epochNo] at epochY
  by_cases other : x.epoch.epochNo ≠ pre.epochNo
  · rw [if_pos other] at epochX epochY
    exact ⟨height, by rw [epochX, epochY], by rw [epochX, epochY],
      .inr (congrArg EpochSet.set last)⟩
  · rw [if_neg other] at epochX epochY
    exact ⟨height, by rw [epochX, epochY, lists], by rw [epochX, epochY, beginNum],
      .inr (congrArg EpochSet.set last)⟩

/-- One node decided the newest block, the other got it by sync. -/
theorem Matched.level_commit_sync (hm : Matched x y) {orderA orderB : MapOrder}
    {blkA blkB : ChainBlock} (carries : Carries blkB.validators x.validators) :
    Level (x.pass target (.commit orderA blkA)) (y.pass target (.sync orderB blkB)) := by
  obtain ⟨lists, ho, pre, pre', info, infoBlk, epochNo, beginNum⟩ := carries
  obtain ⟨set, incremented, kept⟩ := incrementAccum_one x.validators.set ho
  unfold Course.pass
  rw [incremented]
  refine hm.level_advance ?_ info infoBlk epochNo beginNum
  exact kept.trans lists.symm

theorem Abreast.level (abreast : Abreast target a b p q) :
    Level (a.replay target p) (b.replay target q) := by
  induction abreast with
  | start same => exact .of_eq same
  | commit hb ho =>
    rw [Course.replay_cons, Course.replay_cons]
    exact .of_eq (hb.matched.pass_commit_eq ho _ _ _ _)
  | sync hb => exact .of_eq (hb.matched.advance _)
  | commitSync hb carries =>
    rw [Course.replay_cons, Course.replay_cons]
    exact hb.matched.level_commit_sync carries
  | syncCommit hb carries =>
    rw [Course.replay_cons, Course.replay_cons]
    have hm := hb.matched
    have turned : Matched _ _ := ⟨hm.height.symm, hm.validators.symm, hm.epoch.symm⟩
    exact (turned.level_commit_sync carries).symm
  | @entered p q newEpoch height witnesses begins =>
    rw [Course.replay_cons, Course.replay_cons]
    obtain ⟨validators, hp⟩ := pass_entered target witnesses (b.replay target q).height
    rw [hp _ height, hp _ rfl]
    exact ⟨height, rfl, rfl, .inl begins.symm⟩
  | unfrozenA _ ih => exact ih
  | unfrozenB _ ih => exact ih
  | droppedA _ ih => exact ih
  | droppedB _ ih => exact ih
  | unsettled hb =>
    have hm := hb.matched
    simp only [Course.replay_cons, Course.pass, hm.height, hm.validators, hm.epoch]
    exact .of_eq rfl

end

/-- Two nodes that start with empty histories name the same proposer for every round, whatever
messages, timeouts and blocks each of them is given, wherever their histories are abreast and each
has its epoch in the cache. -/
theorem proposers_agree {envA envB : Env} (target : envA.targetBlkCount = envB.targetBlkCount)
    {a b : DbftManager}
    (freshA : a.history = []) (freshB : b.history = []) (eventsA eventsB : List (Event × Answers))
    (abreast : Abreast envA.targetBlkCount (course a) (course b) (a.run envA eventsA).history
      (b.run envB eventsB).history)
    (listedA : Listed (a.run envA eventsA)) (listedB : Listed (b.run envB eventsB))
    (round : Int32) :
    proposer envA (a.run envA eventsA) round = proposer envB (b.run envB eventsB) round := by
  have tracedA : Traced envA.targetBlkCount (course a) (tokens a.ledger) (a.run envA eventsA) :=
    run_traced freshA eventsA
  have tracedB : Traced envB.targetBlkCount (course b) (tokens b.ledger) (b.run envB eventsB) :=
    run_traced freshB eventsB
  have hle := abreast.level
  rw [← tracedA.course, target, ← tracedB.course] at hle
  exact proposer_of_level hle listedA listedB round

/-! ## Two nodes of four -/

def geneSet : EpochSet := (loadGeneValidators fourMembers).getD fourSet

/-- The node after the genesis block, at height 1. -/
def launched : DbftManager :=
  { starting with
    ledger := { genesisLedger with height := 1 }
    handler := ⟨1, geneSet, geneSet, true⟩ }

/-- The block that whoever proposes in round 0 makes after these ones have been decided. -/
noncomputable def nextBlock (decided : List ChainBlock) : ChainBlock :=
  let m := launched.run third (decided.map fun blk => (.commit blk, plain))
  m.makeBlockDPoS [] (proposer third m 0).join

noncomputable def block1 : ChainBlock := nextBlock []

noncomputable def block2 : ChainBlock := nextBlock [block1]

noncomputable def block3 : ChainBlock := nextBlock [block1, block2]

noncomputable def allDecided : List (Event × Answers) :=
  [(.commit block1, plain), (.commit block2, plain), (.commit block3, plain)]

noncomputable def thirdSynced : List (Event × Answers) :=
  [(.commit block1, plain), (.commit block2, plain), (.sync block3, plain)]

noncomputable def secondSynced : List (Event × Answers) :=
  [(.commit block1, plain), (.sync block2, plain), (.commit block3, plain)]

theorem thirdSynced_agree : Abreast third.targetBlkCount (course launched) (course launched)
    (launched.run third allDecided).history (launched.run third thirdSynced).history ∧
    Listed (launched.run third allDecided) ∧ Listed (launched.run third thirdSynced) ∧
    proposer third (launched.run third allDecided) 0 = some (some ⟨[4], [4], 1⟩) ∧
    proposer third (launched.run third allDecided) 0 =
      proposer third (launched.run third thirdSynced) 0 := by
  have hd : (launched.run third allDecided).history =
      [.commit plain.order block3, .commit plain.order block2, .commit plain.order block1] := rfl
  have synced : (launched.run third thirdSynced).history =
      [.sync plain.order block3, .commit plain.order block2, .commit plain.order block1] := rfl
  have abreast : Abreast third.targetBlkCount (course launched) (course launched)
      (launched.run third allDecided).history (launched.run third thirdSynced).history := by
    rw [hd, synced]
    exact .commitSync (.commit (.commit (.start rfl)))
      ⟨rfl, by decide +kernel, _, _, rfl, rfl, rfl, rfl⟩
  have listedA : Listed (launched.run third allDecided) := rfl
  have listedB : Listed (launched.run third thirdSynced) := rfl
  exact ⟨abreast, listedA, listedB, by decide +kernel,
    proposers_agree rfl rfl rfl allDecided thirdSynced abreast listedA listedB 0⟩

/-- The same three blocks in the same epoch. The validators of the second block, which are the last
ones one height later, have its proposer; those of the node that decided it have moved on. -/
theorem secondSynced_disagree : (launched.run third allDecided).ledger.blocks =
    (launched.run third secondSynced).ledger.blocks ∧
    (launched.run third allDecided).ledger.height = 4 ∧
    (launched.run third allDecided).epoch.epochNo = 1 ∧
    (launched.run third secondSynced).epoch.epochNo = 1 ∧
    Listed (launched.run third allDecided) ∧ Listed (launched.run third secondSynced) ∧
    proposer third (launched.run third allDecided) 0 = some (some ⟨[4], [4], 1⟩) ∧
    proposer third (launched.run third secondSynced) 0 = some (some ⟨[2], [2], 1⟩) :=
  ⟨rfl, rfl, rfl, rfl, rfl, rfl, by decide +kernel, by decide +kernel⟩

end HNBChain.Audit.Guarantees.ProposerAgreement
