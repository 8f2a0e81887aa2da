import HNBChain.Audit.Spec.Holdings
import HNBChain.Audit.Source.BlockFootprint
import HNBChain.Audit.Guarantees.ProposerAgreement

/-!
# Whether the blocks determine the tokens

Two things besides the blocks decide what the contracts store. `BlockProcess` writes the pending
changes of the two contracts in the order in which Go ranges over a map, and with an exchange in the
block both may have one under the same key. And the votes of an epoch are given back when a node
leaves it, between two blocks that need not be the same for every node.

Two nodes with the same blocks agree as long as the order does not matter for any block on which it
differs, and the votes are given back at the same place up to blocks that touch none of what is
given back.
-/
namespace HNBChain.Audit.Guarantees.TokenAgreement

open Lib Source Source.Dbft Spec
open EpochQuorum ProposerAgreement Memory Tokens

/-! ## Giving back the votes of an epoch -/

def unfreezeCall (epochNo : UInt64) : ContractApi :=
  { getContractApi .hnb with args := encodeAction (.unfreeze epochNo) }

theorem unfreezeToken_eq (order : MapOrder) (w : World) (epochNo : UInt64) :
    unfreezeToken order w epochNo =
      match runOn (overlay w) (invoke (unfreezeCall epochNo)) ∅ with
      | (.error e, _) => (.error e, w)
      | (.ok (), pending) => (.ok (), commit (order.items .hnb pending) w) := by
  rfl

theorem decodeAction_unfreezeCall (epochNo : UInt64) :
    decodeAction (unfreezeCall epochNo).chainID (unfreezeCall epochNo).args =
    .ok (.unfreeze epochNo) :=
  decodeAction_encode (.unfreeze epochNo)

/-- What `UnfreezeToken` changes. -/
def unfreezeChanges (w : World) (epochNo : UInt64) : Pending Key Bytes :=
  match runOn (overlay w) (invoke (unfreezeCall epochNo)) ∅ with
  | (.error _, _) => ∅
  | (.ok (), pending) => pending

/-- The two keys of the votes, and the accounts in the records. -/
def unfreezeKeys (w : World) (epochNo : UInt64) : List Key :=
    touched (find w) .hnb [] (.unfreeze epochNo)

/-- It does not matter in which order the changes are written. -/
theorem find_unfreezeToken (order : MapOrder) (w : World) (epochNo : UInt64) (key : Key) :
    find (unfreezeToken order w epochNo).2 key = visible w (unfreezeChanges w epochNo) key := by
  rw [unfreezeToken_eq]
  unfold unfreezeChanges
  rcases runOn (overlay w) (invoke (unfreezeCall epochNo)) ∅ with ⟨_ | _, pending⟩
  · rfl
  · exact find_commit _ _ _ (order.complete _ _) key

theorem unfreeze_confined (w : World) (epochNo : UInt64) :
    (overlay w).Confined (· ∈ unfreezeKeys w epochNo) (invoke (unfreezeCall epochNo)) ∅ := by
  refine (invoke_confined (overlay w) (unfreezeCall epochNo) ∅).mono fun key hi => ?_
  rw [callTouches, decodeAction_unfreezeCall] at hi
  exact hi

variable {epochNo : UInt64} {blk : Source.Block}

theorem find_unfreezeChanges {w : World} {key : Key} (ho : key ∉ unfreezeKeys w epochNo) :
    find (unfreezeChanges w epochNo) key = none := by
  have kept : find (runOn (overlay w) (invoke (unfreezeCall epochNo)) ∅).2 key = none :=
    (unfreeze_confined w epochNo).find_pending key ho
  unfold unfreezeChanges
  generalize runOn (overlay w) (invoke (unfreezeCall epochNo)) ∅ = result at kept ⊢
  rcases result with ⟨_ | _, pending⟩
  · rfl
  · exact kept

theorem unfreezeChanges_agree {w w' : World}
    (agree : ∀ key ∈ unfreezeKeys w epochNo, find w key = find w' key) :
    unfreezeChanges w epochNo = unfreezeChanges w' epochNo := by
  have same : runOn (overlay w) (invoke (unfreezeCall epochNo)) ∅ =
      runOn (overlay w') (invoke (unfreezeCall epochNo)) ∅ :=
      (unfreeze_confined w epochNo).run_overlay agree
  unfold unfreezeChanges
  rw [same]

/-- There is nothing to give back. -/
def NoVotes (w : World) (epochNo : UInt64) : Prop :=
  find w (.hnb, Hnb.getEpochRecordKey epochNo) = none ∧
    find w (.hnb, Hnb.getEpochKey epochNo) = none

theorem NoVotes.unfreezeToken {w : World} (noVotes : NoVotes w epochNo) (order : MapOrder) :
    (unfreezeToken order w epochNo).2 = w := by
  have ran : runOn (overlay w) (invoke (unfreezeCall epochNo)) ∅ =
      (.ok (), (overlay w).del (.hnb, Hnb.getEpochKey epochNo)
        ((overlay w).del (.hnb, Hnb.getEpochRecordKey epochNo) ∅)) := by
    rw [runOn_invoke, decodeAction_unfreezeCall]
    have hu :
        recordsOf ((overlay w).look ∅ (.hnb, Hnb.getEpochRecordKey epochNo)) = some [] := by
      rw [show (overlay w).look ∅ (.hnb, Hnb.getEpochRecordKey epochNo) = none from noVotes.1]
      rfl
    exact (runOn_unfreeze_ok_iff (overlay w) (unfreezeCall epochNo) epochNo _).mpr
      ⟨_, _, hu, rfl, rfl⟩
  refine store_ext fun key => ?_
  rw [find_unfreezeToken]
  unfold unfreezeChanges
  rw [ran]
  -- both keys are deleted, and neither was there
  change (overlay w).look ((overlay w).del _ ((overlay w).del _ ∅)) key = find w key
  rw [look_del, look_del]
  split
  next same =>
    rw [same]
    exact noVotes.2.symm
  · split
    next same =>
      rw [same]
      exact noVotes.1.symm
    · rfl

/-! ## Blocks -/

variable (t : Tokens)

theorem pass_unfrozen (order : MapOrder) (epochNo : UInt64) :
    t.pass (.unfrozen order epochNo) = ⟨(unfreezeToken order t.state epochNo).2, t.height⟩ := rfl

/-- Every block starts with nothing pending. -/
theorem startRun_ledger (t t' : Tokens) : startRun t.ledger = startRun t'.ledger := rfl

theorem block_eq (order : MapOrder) (blk : Source.Block) :
    t.block order blk =
      match processTxs t.state blk.txs (startRun t.ledger) with
      | (.error _, _) => t
      | (.ok (), run) =>
        if blk.blockNum = t.height then ⟨commit (allState order run) t.state,
            blk.blockNum + 1⟩ else t := by
  unfold block blockProcess
  rw [show t.ledger.state = t.state from rfl]
  rcases processTxs t.state blk.txs (startRun t.ledger) with ⟨_ | _, run⟩
  · rfl
  · by_cases taken : blk.blockNum = t.height <;> simp [finishBlock, writeLedger, ledger, taken]

/-- The order in which the contracts are written does not matter, or is the same. -/
theorem block_order {order order' : MapOrder}
    (irrelevant : order.hnbFirst = order'.hnbFirst ∨ NoExchange blk.txs ∨ OneContract blk.txs) :
    t.block order blk = t.block order' blk := by
  have apart (key : Key) (independent : NoExchange blk.txs ∨ OneContract blk.txs) :=
    apart_of_independent t.state t.ledger blk.txs independent key
  rw [block_eq, block_eq]
  generalize processTxs t.state blk.txs (startRun t.ledger) = result at apart ⊢
  rcases result with ⟨_ | _, run⟩
  · rfl
  · dsimp only
    rw [commit_allState_eq t.state (irrelevant.imp_right fun independent key =>
      apart key independent)]

/-- A block leaves alone what its transactions do not name. -/
theorem find_block {keys : List Key} (avoids : Avoids blk.txs keys) (t : Tokens)
    (order : MapOrder) {key : Key} (kept : key ∈ keys) :
    find (t.block order blk).state key = find t.state key := by
  have hw : Within _ (processTxs t.state blk.txs (startRun t.ledger)).2 :=
    Within.steps (fun _ _ _ => rfl) avoids.bounded
  rw [block_eq]
  generalize processTxs t.state blk.txs (startRun t.ledger) = result at hw ⊢
  rcases result with ⟨_ | _, run⟩
  · rfl
  · dsimp only
    split
    · have unchanged (chain : ChainID) : find (run.pending chain) key = none :=
        hw chain key (not_not.mpr kept)
      rw [find_allState, visible, visible, unchanged, unchanged, overlaid_none,
        overlaid_none, ite_self]
    · rfl

theorem unfreezeToken_order (order order' : MapOrder) (w : World) (epochNo : UInt64) :
    (unfreezeToken order w epochNo).2 = (unfreezeToken order' w epochNo).2 :=
  store_ext fun key => by rw [find_unfreezeToken, find_unfreezeToken]

/-- The votes may be given back before or after a block that touches nothing of it. -/
theorem block_unfrozen (order unfreezing unfreezing' : MapOrder)
    (avoids : Avoids blk.txs (unfreezeKeys t.state epochNo)) :
    (t.pass (.unfrozen unfreezing epochNo)).block order blk =
      (t.block order blk).pass (.unfrozen unfreezing' epochNo) := by
  have untouched (key : Key) (ho : key ∉ unfreezeKeys t.state epochNo) :
      find (unfreezeToken unfreezing t.state epochNo).2 key = find t.state key := by
    rw [find_unfreezeToken, visible, find_unfreezeChanges ho, overlaid_none]
  -- the block does the same after the votes are given back, and they are given back alike after it
  have ran : processTxs (unfreezeToken unfreezing t.state epochNo).2 blk.txs (startRun t.ledger) =
      processTxs t.state blk.txs (startRun t.ledger) :=
      processTxs_agree avoids.bounded fun _ => untouched
  have changes : unfreezeChanges (t.block order blk).state epochNo =
      unfreezeChanges t.state epochNo :=
    (unfreezeChanges_agree fun key kept => (find_block avoids t order kept).symm).symm
  have hw : Within _ (processTxs t.state blk.txs (startRun t.ledger)).2 :=
    Within.steps (fun _ _ _ => rfl) avoids.bounded
  have h1 := block_eq ⟨(unfreezeToken unfreezing t.state epochNo).2, t.height⟩ order blk
  rw [startRun_ledger _ t, ran] at h1
  rw [pass_unfrozen, pass_unfrozen, h1]
  rw [block_eq] at changes ⊢
  generalize processTxs t.state blk.txs (startRun t.ledger) = result at hw changes ⊢
  rcases result with ⟨_ | _, run⟩
  · exact congrArg (mk · t.height) (unfreezeToken_order _ _ _ _)
  · dsimp only at changes ⊢
    by_cases taken : blk.blockNum = t.height
    · rw [if_pos taken] at changes ⊢
      rw [if_pos taken]
      refine congrArg (mk · (blk.blockNum + 1)) (store_ext fun key => ?_)
      rw [find_unfreezeToken, visible, changes, find_allState, find_allState, visible, visible,
        visible, visible]
      by_cases inside : key ∈ unfreezeKeys t.state epochNo
      · have unchanged (chain : ChainID) : find (run.pending chain) key = none :=
          hw chain key (not_not.mpr inside)
        simp only [unchanged, overlaid_none, ite_self]
        rw [find_unfreezeToken, visible]
      · rw [untouched key inside, find_unfreezeChanges inside, overlaid_none]
    · rw [if_neg taken, if_neg taken]
      exact congrArg (mk · t.height) (unfreezeToken_order _ _ _ _)

/-! ## Histories that agree -/

/-- The block that the ledger is given, with the order of its maps. -/
def taken : Passage → Option (MapOrder × Source.Block)
  | .commit order blk => some (order, blk.block)
  | .sync order blk => some (order, blk.block)
  | .dropped order blk => some (order, blk.block)
  | .unsettled order blk => some (order, blk.block)
  | _ => none

theorem pass_of_taken {x : Passage} {order : MapOrder} (hg : taken x = some (order, blk))
    (t : Tokens) : t.pass x = t.block order blk := by
  cases x <;> cases hg <;> rfl

section

variable (t : Tokens)

/-- The same blocks, however they came, with an order of the contracts that is the same or does not
matter; and the votes of the same epochs given back at the same places, where those without votes do
not count, and a block that touches nothing of it may come before or after. -/
inductive Aligned : List Passage → List Passage → Prop where
  | start : Aligned [] []
  | block {p q : List Passage} {x y : Passage} {orderA orderB : MapOrder} {blk : Source.Block}
      (before : Aligned p q)
    (takenA : taken x = some (orderA, blk)) (takenB : taken y = some (orderB, blk))
    (irrelevant : orderA.hnbFirst = orderB.hnbFirst ∨ NoExchange blk.txs ∨ OneContract blk.txs) :
    Aligned (x :: p) (y :: q)
  | unfrozen {p q : List Passage} {orderA orderB : MapOrder} {epochNo : UInt64}
      (before : Aligned p q) :
    Aligned (.unfrozen orderA epochNo :: p) (.unfrozen orderB epochNo :: q)
  | noVotes {p q : List Passage} {order : MapOrder} {epochNo : UInt64} (before : Aligned p q)
    (noVotes : NoVotes (t.replay p).state epochNo) : Aligned (.unfrozen order epochNo :: p) q
  | later {p q : List Passage} {x : Passage} {order unfreezing unfreezing' : MapOrder}
      {blk : Source.Block}
    {epochNo : UInt64} (before : Aligned (x :: .unfrozen unfreezing epochNo :: p) q)
    (takenA : taken x = some (order, blk))
    (avoids : Avoids blk.txs (unfreezeKeys (t.replay p).state epochNo)) :
    Aligned (.unfrozen unfreezing' epochNo :: x :: p) q
  | refused {p q : List Passage} {validators : EpochSet} (before : Aligned p q) :
      Aligned (.refused validators :: p) q
  | entered {p q : List Passage} {newEpoch : Epoch} (before : Aligned p q) :
      Aligned (.entered newEpoch :: p) q
  | symm {p q : List Passage} (turned : Aligned q p) : Aligned p q

end

theorem Aligned.replay {t : Tokens} {p q : List Passage} (aligned : Aligned t p q) :
    t.replay p = t.replay q := by
  induction aligned with
  | start => rfl
  | block _ takenA takenB irrelevant ih =>
    rw [replay_cons, replay_cons, pass_of_taken takenA, pass_of_taken takenB, ih,
      block_order _ irrelevant]
  | @unfrozen p q orderA orderB epochNo _ ih =>
    rw [replay_cons, replay_cons, ih, pass_unfrozen, pass_unfrozen,
      unfreezeToken_order orderA orderB]
  | @noVotes p q order epochNo _ noVotes ih =>
    rw [replay_cons, ← ih, pass_unfrozen, noVotes.unfreezeToken order]
  | later _ takenA avoids ih =>
    rw [replay_cons, replay_cons, pass_of_taken takenA] at ih
    rw [replay_cons, replay_cons, pass_of_taken takenA, ← ih, block_unfrozen _ _ _ _ avoids]
  | refused _ ih => exact ih
  | entered _ ih => exact ih
  | symm _ ih => exact ih.symm

/-- Two nodes that start with the same tokens and empty histories store the same contract state,
whatever messages, timeouts, epoch changes and blocks each of them is given, wherever their
histories are aligned. -/
theorem tokens_agree {envA envB : Env} {a b : DbftManager} (freshA : a.history = [])
    (freshB : b.history = [])
    (same : tokens a.ledger = tokens b.ledger) (eventsA eventsB : List (Event × Answers))
    (aligned : Aligned (tokens a.ledger) (a.run envA eventsA).history
      (b.run envB eventsB).history) :
    (a.run envA eventsA).ledger.state = (b.run envB eventsB).ledger.state := by
  have tracedA : Traced envA.targetBlkCount (course a) (tokens a.ledger) (a.run envA eventsA) :=
    run_traced freshA eventsA
  have tracedB : Traced envB.targetBlkCount (course b) (tokens b.ledger) (b.run envB eventsB) :=
    run_traced freshB eventsB
  have hwh : tokens (a.run envA eventsA).ledger = tokens (b.run envB eventsB).ledger := by
    rw [tracedA.tokens, tracedB.tokens, ← same]
    exact aligned.replay
  exact congrArg state hwh

/-! ## Two nodes after the genesis block -/

/-- An epoch server that answers. -/
noncomputable def served : Answers := { plain with totalValidators := fun _ => some fourSet.set }

/-- The other order of the contracts. -/
noncomputable def hgsFirst : Answers := { plain with order := .any false }

/-- A decided block that the ledger accepts. -/
theorem deliver_commit {env : Env} {ans : Answers} {m : DbftManager} {blk : ChainBlock}
    (hru : m.halted = false) (hs : m.handler.running = true)
    (ha : (blockProcess ans.order m.ledger blk.block).1 = .ok ()) :
    (m.deliver env ans (.commit blk)).history = .commit ans.order blk :: m.history ∧
      (m.deliver env ans (.commit blk)).ledger = (blockProcess ans.order m.ledger blk.block).2 := by
  have hc : (m.commitBlock env ans blk).2.history = .commit ans.order blk :: m.history ∧
      (m.commitBlock env ans blk).2.ledger = (blockProcess ans.order m.ledger blk.block).2 := by
    unfold DbftManager.commitBlock
    generalize blockProcess ans.order m.ledger blk.block = result at ha ⊢
    rcases result with ⟨_ | _, final⟩
    · cases ha
    · dsimp only
      split
      · exact ⟨rfl, rfl⟩
      · exact checkEpochChange_history _
  change (m.handlerTurn (DbftManager.commitBlock env ans blk)).history = _ ∧
    (m.handlerTurn (DbftManager.commitBlock env ans blk)).ledger = _
  unfold DbftManager.handlerTurn
  rw [if_neg (by simp [hru, hs])]
  generalize m.commitBlock env ans blk = result at hc ⊢
  rcases result with ⟨_ | _, m'⟩ <;> exact hc

/-- Three validators ask for the second epoch, and the node enters it. -/
noncomputable def moved : List (Event × Answers) :=
  [change 1 1, change 2 2, change 4 4, (.own, served)]

theorem noVotes_genesis (epochNo : UInt64) : NoVotes genesis epochNo := by
  have absent (key : Bytes) (hv : VoteKey key) : find genesis (.hnb, key) = none := by
    have other : key ≠ founder.val := by
      rintro rfl
      exact absurd hv.head (by decide)
    rw [find_genesis, if_neg other]
  exact ⟨absent _ ⟨epochNo, .inr rfl⟩, absent _ ⟨epochNo, .inl rfl⟩⟩

theorem moved_history : ∃ epoch, (launched.run third moved).history =
    [.entered epoch, .unfrozen served.order 1] := ⟨_, rfl⟩

/-- The first epoch had no votes. -/
theorem entered_aligned (epoch : Epoch) :
    Aligned (tokens launched.ledger) [.entered epoch, .unfrozen served.order 1] [] :=
  .entered (.noVotes .start (noVotes_genesis 1))

/-- The tokens are those of the start. -/
theorem moved_tokens : tokens (launched.run third moved).ledger = tokens launched.ledger := by
  have ht : Traced third.targetBlkCount (course launched) (tokens launched.ledger)
      (launched.run third moved) := run_traced rfl moved
  obtain ⟨epoch, hh⟩ := moved_history
  rw [ht.tokens, hh]
  exact (entered_aligned epoch).replay

/-- A payment, and a vote in the second epoch. -/
def paying : ChainBlock :=
  ⟨⟨1, [foundersPayment, carrying .hnb founder (.vote ⟨some founder.val, some [1], 5, 2⟩)]⟩,
    geneSet⟩

theorem paying_accepted (order : MapOrder) {ledger : Ledger}
    (same : tokens ledger = tokens launched.ledger)
    (index : ledger.wrongIndex = launched.ledger.wrongIndex) :
    (blockProcess order ledger paying.block).1 = .ok () := by
  have done : (processTxs launched.ledger.state paying.block.txs (startRun launched.ledger)).1 =
      .ok () := by
    decide +kernel
  have state : ledger.state = launched.ledger.state := congrArg Tokens.state same
  have height : ledger.height = launched.ledger.height := congrArg Tokens.height same
  rw [startRun, ← index, ← state] at done
  exact congrArg Prod.fst (blockProcess_accepts order done height.symm)

theorem paying_oneContract : OneContract paying.block.txs := by
  refine ⟨.hnb, fun tx hm chain hr => ?_⟩
  have hn : tx.contractName = octets ChainID.hnb.text := by
    rcases List.mem_cons.mp hm with rfl | last
    · rfl
    · rw [List.mem_singleton.mp last]
      rfl
  rw [hn, getHandler_text] at hr
  exact (Except.ok.inj hr).symm

/-- One node enters the second epoch and then takes the block, the other one only takes the
block. -/
theorem moved_agree : (launched.run third moved).epoch.epochNo = 2 ∧
    Aligned (tokens launched.ledger)
      (launched.run third (moved ++ [(.commit paying, plain)])).history
      (launched.run third [(.commit paying, hgsFirst)]).history ∧
    (launched.run third (moved ++ [(.commit paying, plain)])).ledger.state =
      (launched.run third [(.commit paying, hgsFirst)]).ledger.state := by
  obtain ⟨epoch, hh⟩ := moved_history
  have hth : (launched.run third (moved ++ [(.commit paying, plain)])).history =
      [.commit plain.order paying, .entered epoch, .unfrozen served.order 1] := by
    have last : launched.run third (moved ++ [(.commit paying, plain)]) =
        (launched.run third moved).deliver third plain (.commit paying) := by
      simp only [DbftManager.run, List.foldl_append, List.foldl_cons, List.foldl_nil]
    rw [last, (deliver_commit rfl rfl (paying_accepted _ moved_tokens rfl)).1, hh]
  have stayed : (launched.run third [(.commit paying, hgsFirst)]).history =
      [.commit hgsFirst.order paying] := by
    have ha : (blockProcess hgsFirst.order launched.ledger paying.block).1 = .ok () :=
      paying_accepted _ rfl rfl
    rw [DbftManager.run, List.foldl_cons, List.foldl_nil]
    exact (deliver_commit rfl rfl ha).1
  have aligned : Aligned (tokens launched.ledger)
      (launched.run third (moved ++ [(.commit paying, plain)])).history
      (launched.run third [(.commit paying, hgsFirst)]).history := by
    rw [hth, stayed]
    exact .block (entered_aligned epoch) rfl rfl (.inr (.inr paying_oneContract))
  exact ⟨rfl, aligned, tokens_agree rfl rfl rfl _ _ aligned⟩

def foundersExchange : Transaction :=
    carrying .hgs founder (.diff { outputAddr := [7], amount := 4, inAmount := 3 })

/-- A payment of 5 HNB, and 4 HNB for 3 HGS, both to the same account. -/
def mixed : ChainBlock := ⟨⟨1, [foundersPayment, foundersExchange]⟩, geneSet⟩

/-- Neither transaction sees the other: each contract has its own amount of the receiver pending. -/
theorem mixed_processed (order : MapOrder) :
    (blockProcess order launched.ledger mixed.block).1 = .ok () ∧
      find (blockProcess order launched.ledger mixed.block).2.state (.hnb, [7]) =
        if order.hnbFirst then some (Decimal.formatInt 4) else some (Decimal.formatInt 5) := by
  have done : (processTxs launched.ledger.state mixed.block.txs (startRun launched.ledger)).1 =
      .ok () := by
    decide +kernel
  have next : mixed.block.blockNum = launched.ledger.height := rfl
  refine ⟨?_, ?_⟩
  · rw [blockProcess_accepts order done next]
  · rw [blockProcess, find_finishBlock order done next]
    split <;> decide +kernel

/-- What is stored of the block itself does not depend on the order. -/
theorem blockProcess_blocks (order order' : MapOrder) (ledger : Ledger) (blk : Source.Block) :
    (blockProcess order ledger blk).2.blocks = (blockProcess order' ledger blk).2.blocks := by
  unfold blockProcess
  rcases processTxs ledger.state blk.txs (startRun ledger) with ⟨_ | _, run⟩
  · rfl
  · unfold finishBlock writeLedger
    dsimp only
    split <;> rfl

/-- One block and no epoch change: the two nodes range over the two contracts in different
orders. -/
theorem mixed_disagree : (launched.run third [(.commit mixed, plain)]).ledger.blocks =
      (launched.run third [(.commit mixed, hgsFirst)]).ledger.blocks ∧
    find (launched.run third [(.commit mixed, plain)]).ledger.state
      (.hnb, [7]) = some (Decimal.formatInt 4) ∧
    find (launched.run third [(.commit mixed, hgsFirst)]).ledger.state
      (.hnb, [7]) = some (Decimal.formatInt 5) := by
  have stored (ans : Answers) : (launched.run third [(.commit mixed, ans)]).ledger =
      (blockProcess ans.order launched.ledger mixed.block).2 := by
    rw [DbftManager.run, List.foldl_cons, List.foldl_nil]
    exact (deliver_commit rfl rfl (mixed_processed ans.order).1).2
  refine ⟨?_, ?_, ?_⟩
  · rw [stored, stored]
    exact blockProcess_blocks _ _ _ _
  · rw [stored, (mixed_processed plain.order).2]
    exact if_pos rfl
  · rw [stored, (mixed_processed hgsFirst.order).2]
    exact if_neg Bool.false_ne_true

end HNBChain.Audit.Guarantees.TokenAgreement
