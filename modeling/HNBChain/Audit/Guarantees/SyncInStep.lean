import Mathlib.Data.List.ReduceOption
import HNBChain.Audit.Guarantees.SyncIntegrity

/-!
# Consensus and ledger under sync

What `BlockProcess` returns for a synced block is not looked at, so the consensus state moves on to
the next height whether or not the ledger has the block. They stay in step through every run in
which each block can be stored: its two numbers are the same, its transactions are for contracts
there are, and the database does not fail.
-/
namespace HNBChain.Audit.Guarantees.SyncInStep

open Lib Source Source.Algorand Source.Algorand.SyncNode List Option
  HNBChain.Audit.Guarantees.SyncIntegrity

structure InStep (s : SyncNode) : Prop where
  height : s.node.lastCommitState.lastBlockNum + 1 = s.node.height
  ledger : s.ledger.height = UInt64.ofNat s.node.height

/-- A block that can be stored when its turn comes. -/
structure Storable (block : PeerBlock) : Prop where
  blockNum : ∀ header, block.header = some header → ∀ h, consHeader block = some h →
    header.blockNum = UInt64.ofNat h.blockNum
  registered : ∀ tx, some tx ∈ block.txs → ∃ chain, getHandler tx.contractName = .ok chain

/-- The condition on a notification and on the database while it is dealt with. -/
structure Smooth (event : SyncNotify × SyncAnswers) : Prop where
  fault : event.2.fault = none
  block : ∀ block, event.1.block = some block → Storable block

/-! ## Processing a block -/

/-- Transactions for contracts there are end a block only by a panic. -/
theorem processTxs_registered (base : World) {txs : List Transaction}
    (hr : ∀ tx ∈ txs, ∃ chain, getHandler tx.contractName = .ok chain) (run : BlockRun) :
    (processTxs base txs run).1 = .ok () ∨ (processTxs base txs run).1 = .error .panic := by
  induction txs generalizing run with
  | nil => exact .inl rfl
  | cons tx rest ih =>
    obtain ⟨chain, hf⟩ := hr tx mem_cons_self
    have hl := fun run => ih (fun tx' hm => hr tx' (mem_cons_of_mem tx hm)) run
    unfold processTxs
    rcases ran : runPending base run chain tx with ⟨e | _, pending⟩
    · by_cases panics : e = .panic
      · subst panics
        simp [processTx, hf, ran]
      · rw [processTx_failed run hf ran panics]
        exact hl _
    · rw [processTx_succeeded run hf ran]
      exact hl _

theorem mem_of_mapM {txs : List (Option Transaction)} {txs' : List Transaction}
    (all : txs.mapM id = some txs') : ∀ tx ∈ txs', some tx ∈ txs := by
  induction txs generalizing txs' with
  | nil =>
    cases all
    exact nofun
  | cons first rest ih =>
    simp only [mapM_cons, bind, id_eq, bind_eq_some_iff, pure, some.injEq] at all
    obtain ⟨tx, rfl, later, rest_all, rfl⟩ := all
    intro tx' hm
    rcases mem_cons.mp hm with rfl | hm
    · exact mem_cons_self
    · exact mem_cons_of_mem _ (ih rest_all tx' hm)

/-- The block of the next number is stored, or the process panics. -/
theorem processBlock_registered (order : MapOrder) (ledger : Ledger)
    {txs : List (Option Transaction)}
    (hr : ∀ tx, some tx ∈ txs → ∃ chain, getHandler tx.contractName = .ok chain) :
    (processBlock order ledger ledger.height txs).1 = .error .panic ∨
      (processBlock order ledger ledger.height txs).2.height = ledger.height + 1 := by
  unfold processBlock
  split
  · rename_i txs' all
    have hk := fun tx hm => hr tx (mem_of_mapM all tx hm)
    unfold blockProcess
    rcases ran : processTxs ledger.state txs' (startRun ledger) with ⟨e | _, run⟩
    · have ends := processTxs_registered ledger.state hk (startRun ledger)
      rw [ran] at ends
      rcases ends with done | panics
      · cases done
      · exact .inl panics
    · exact .inr (by simp [finishBlock, writeLedger])
  · have hk : ∀ tx ∈ (txs.takeWhile isSome).reduceOption,
        ∃ chain, getHandler tx.contractName = .ok chain := fun tx hm =>
      hr tx ((takeWhile_sublist _).subset (reduceOption_mem_iff.mp hm))
    have ends := processTxs_registered ledger.state hk (startRun ledger)
    rcases ran : processTxs ledger.state (txs.takeWhile isSome).reduceOption
      (startRun ledger) with ⟨e | _, run⟩
    · rw [ran] at ends
      rcases ends with done | panics
      · cases done
      · exact .inl panics
    · exact .inl rfl

/-! ## One notification -/

theorem ofNat_succ (n : Nat) : UInt64.ofNat n + 1 = UInt64.ofNat (n + 1) := by
  rw [UInt64.ofNat_add]
  rfl

theorem takeValidators_frame (status : State) (n : Node) :
    (n.takeValidators status).height = n.height ∧
      (n.takeValidators status).lastCommitState.lastBlockNum = n.lastCommitState.lastBlockNum := by
  unfold Node.takeValidators
  split_ifs
  · exact ⟨rfl, rfl⟩
  · exact ⟨rfl, rfl⟩

variable {s : SyncNode} {ans : SyncAnswers} {env : SyncEnv}

theorem InStep.takeValidators (hin : InStep s) (status : State) :
    InStep { s with node := s.node.takeValidators status } := by
  obtain ⟨height, last⟩ := takeValidators_frame status s.node
  constructor
  · rw [height, last]
    exact hin.height
  · rw [height]
    exact hin.ledger

/-- A reset comes before anything but the validators has changed. -/
theorem checkBlock_reset {n n' : Node} {block : PeerBlock}
    (reset : n.checkBlock env ans block = .reset n') : n' = n ∨ ∃ status,
    n' = n.takeValidators status := by
  unfold Node.checkBlock at reset
  split at reset
  · cases reset
  · split at reset
    · cases reset
      exact .inl rfl
    · split at reset
      · cases reset
      · cases reset
        exact .inl rfl
      · split at reset
        · cases reset
        · cases reset
          exact .inr ⟨_, rfl⟩
        · cases reset

theorem InStep.reset {syncData : SyncNotify} {n : Node}
    (hin : InStep s) (reset : s.checkNotify env ans syncData = .reset n) :
    InStep { s with node := n }.resetSync := by
  have node : n = s.node ∨ ∃ status, n = s.node.takeValidators status := by
    unfold SyncNode.checkNotify at reset
    split_ifs at reset
    split at reset
    · cases reset
      exact .inl rfl
    · exact checkBlock_reset reset
  rcases node with rfl | ⟨status, rfl⟩
  · exact ⟨hin.height, hin.ledger⟩
  · have ht := hin.takeValidators status
    exact ⟨ht.height, ht.ledger⟩

/-- The state of the next block is taken over, unless taking it over panics. -/
theorem updateToState_next {n : Node} {status : State}
    (height : n.lastCommitState.lastBlockNum + 1 = n.height)
    (next : status.lastBlockNum = n.height) :
    (n.updateToState status).halted = true ∨ (n.updateToState status).lastCommitState = status ∧
      (n.updateToState status).height = n.height + 1 := by
  unfold Node.updateToState
  rw [if_neg (fun refuses => refuses.2.2 next.symm), if_neg (not_not.mpr height), if_neg (by omega)]
  cases n.lastPrecommits with
  | none => exact .inl rfl
  | some lastPrecommits => exact .inr ⟨rfl, by rw [next]⟩

/-- A ledger that has the block already: the node gets there too, or panics. -/
theorem settle_inStep {tdmBlk : ConsBlock} {status : State}
    (height : s.node.lastCommitState.lastBlockNum + 1 = s.node.height)
    (next : status.lastBlockNum = s.node.height)
    (raised : s.ledger.height = UInt64.ofNat (s.node.height + 1)) :
    (s.settle ans tdmBlk status).node.halted = true ∨ InStep (s.settle ans tdmBlk status) := by
  have refuses : ¬ RefusesState status s.node := by
    rintro (hw | hw)
    · exact hw.2.2 next.symm
    · exact hw height
  unfold settle
  rw [if_neg refuses]
  split_ifs with halted
  · exact .inl halted
  · obtain ⟨last, raised'⟩ := (updateToState_next height next).resolve_left halted
    have kept : (s.node.updateToState status).lastCommitState.lastBlockNum + 1 =
        (s.node.updateToState status).height := by
      rw [last, raised', next]
    split
    · exact .inr ⟨kept, raised' ▸ raised⟩
    · exact .inr ⟨kept, raised' ▸ raised⟩

theorem InStep.follow {block : PeerBlock} {header : PeerHeader}
    {tdmBlk : ConsBlock} {status : State} (hin : InStep s) (calm : ans.fault = none)
    (blockNum : header.blockNum = s.ledger.height)
    (hr : ∀ tx, some tx ∈ block.txs → ∃ chain, getHandler tx.contractName = .ok chain)
    (next : status.lastBlockNum = s.node.height) :
    (s.follow env ans block header tdmBlk status).node.halted = true ∨
      InStep (s.follow env ans block header tdmBlk status) := by
  have hp := processBlock_registered ans.order s.ledger hr
  unfold SyncNode.follow
  rw [calm, getD_none, blockNum]
  generalize processBlock ans.order s.ledger s.ledger.height block.txs = result at hp
  rcases result with ⟨result, ledger⟩
  split
  · exact .inl rfl
  · rename_i goes same
    cases same
    refine settle_inStep hin.height next ?_
    rcases hp with panics | raised
    · exact absurd panics goes
    · exact raised.trans (by rw [hin.ledger, ofNat_succ])

theorem InStep.deliverSync {event : SyncNotify × SyncAnswers} (hin : InStep s)
    (smooth : Smooth event) : (s.deliverSync env event.2 event.1).node.halted = true ∨
    InStep (s.deliverSync env event.2 event.1) := by
  unfold SyncNode.deliverSync
  split
  · exact .inr hin
  · exact .inr ⟨hin.height, hin.ledger⟩
  · rename_i n reset
    exact .inr (hin.reset reset)
  · exact .inl rfl
  · rename_i block header tdmBlk status n passed
    obtain ⟨sent, ha⟩ := checkNotify_passed passed
    obtain ⟨_, hth, hc, loaded, rfl, hv⟩ := checkBlock_passed ha
    obtain ⟨h, hf, number, _⟩ := validate_ok hv
    obtain ⟨h', found', state⟩ := loadLastCommitState_ok loaded
    obtain rfl : h = h' := some.inj (hf.symm.trans found')
    have storable := smooth.block block sent
    have ht := hin.takeValidators status
    have next : h.blockNum = (s.node.takeValidators status).height := number.trans ht.height
    obtain ⟨custom, hd, headers, _⟩ := standard2Cons_some hc
    have hi : consHeader block = some h := by
      rw [consHeader, customHeader, hth, bind_some, hd]
      exact headers.symm.trans hf
    refine ht.follow smooth.fault ?_ storable.registered (state.trans next)
    rw [storable.blockNum header hth h hi, next]
    exact ht.ledger.symm

theorem InStep.step {event : SyncNotify × SyncAnswers}
    (hin : s.node.halted = true ∨ InStep s) (smooth : Smooth event) :
    (s.step env event).node.halted = true ∨ InStep (s.step env event) := by
  unfold SyncNode.step
  split_ifs with halted
  · exact .inl halted
  · exact (hin.resolve_left halted).deliverSync smooth

theorem run_inStep (env : SyncEnv) (s : SyncNode) (hin : InStep s)
    (events : List (SyncNotify × SyncAnswers)) (smooth : ∀ event ∈ events, Smooth event) :
    (s.run env events).node.halted = true ∨ InStep (s.run env events) := by
  have loop : ∀ s : SyncNode, s.node.halted = true ∨ InStep s →
      (s.run env events).node.halted = true ∨ InStep (s.run env events) := by
    induction events with
    | nil => exact fun _ hs => hs
    | cons event rest ih =>
      intro s hs
      exact ih (fun later hm => smooth later (mem_cons_of_mem event hm)) _
        (InStep.step hs (smooth event mem_cons_self))
  exact loop s (.inr hin)

/-! ## Two blocks -/

theorem storable_syncBlock : Storable (syncBlock [syncTx (octets "hnb") 7] none) where
  blockNum := by
    rintro header ⟨⟩ h ⟨⟩
    rfl
  registered := by
    intro tx hm
    obtain rfl := some.inj (mem_singleton.mp hm)
    exact ⟨.hnb, getHandler_text .hnb⟩

/-- The first block comes twice, then the end of the sync. -/
theorem run_inStep_first :
    let block := syncBlock [syncTx (octets "hnb") 7] none
    let events := [(syncNotify block, syncAnswers), (syncNotify block, syncAnswers),
      (⟨1, true, none⟩, syncAnswers)]
    (syncNode.run syncEnv events).node.halted = true ∨ InStep (syncNode.run syncEnv events) := by
  have smooth : Smooth (syncNotify (syncBlock [syncTx (octets "hnb") 7] none), syncAnswers) := by
    refine ⟨rfl, ?_⟩
    rintro block ⟨⟩
    exact storable_syncBlock
  refine run_inStep syncEnv syncNode ⟨rfl, rfl⟩ _ fun event hm => ?_
  simp only [mem_cons, not_mem_nil, or_false] at hm
  rcases hm with rfl | rfl | rfl
  · exact smooth
  · exact smooth
  · exact ⟨rfl, nofun⟩

/-- A block with a transaction for a contract there is not: the node goes on to height two, the
ledger does not. -/
theorem node_ahead_of_ledger :
    let s := syncNode.step syncEnv (syncNotify
    (syncBlock [syncTx (octets "btc") 7] none), syncAnswers)
    InStep syncNode ∧ s.node.halted = false ∧ s.node.lastCommitState.lastBlockNum = 1 ∧
    s.node.height = 2 ∧
      s.ledger.height = 1 :=
  ⟨⟨rfl, rfl⟩, rfl, rfl, rfl, rfl⟩

end HNBChain.Audit.Guarantees.SyncInStep
