import HNBChain.Audit.Source.Footprint
import HNBChain.Audit.Source.Payload

/-!
# Block execution against one-by-one execution

Each contract has its own pending changes, and nothing merges them before the block ends. A DIFF
writes a key of the other token into the pending changes of its own contract, where the other
contract does not see it. So a block stands for the execution of its transactions one after another
when no key is touched by transactions of both contracts.

The result covers every mix of the two contracts and every order in which the maps are ranged over.
-/
namespace HNBChain.Audit.Guarantees.BlockSequential

open Lib Source

/-- One transaction on the stored state, committed at once. -/
def runTx (w : World) (tx : Transaction) : Except Err Unit × World :=
  match getHandler tx.contractName with
  | .error e => (.error e, w)
  | .ok chain => runFlat (invoke (contractApi chain tx)) w

def runTxs : World → List Transaction → Except Err Unit × World
  | w, [] => (.ok (), w)
  | w, tx :: rest =>
    match runTx w tx with
    | (.error e, w') => (.error e, w')
    | (.ok (), w') => runTxs w' rest

theorem runTxs_cons {w w' : World} {tx : Transaction} {rest : List Transaction}
    (h1 : runTx w tx = (.ok (), w')) : runTxs w (tx :: rest) = runTxs w' rest := by
  rw [runTxs, h1]

/-- Every call of the block returns no error. -/
def AllSucceed (base : World) : List Transaction → BlockRun → Prop
  | [], _ => True
  | tx :: rest, run =>
    ∃ chain pending, getHandler tx.contractName = .ok chain ∧
    runPending base run chain tx = (.ok (), pending) ∧
      AllSucceed base rest (addNonce tx (setPending run chain pending))

/-- The keys a transaction can touch: those of its payload, and for UNFREEZE the accounts recorded
before the block. -/
def footprint (base : World) (tx : Transaction) : List Key :=
  match getHandler tx.contractName with
  | .error _ => []
  | .ok chain => callTouches (find base) (contractApi chain tx)

/-- No key is touched by transactions of both contracts. -/
def Separate (base : World) (txs : List Transaction) : Prop :=
  ∀ a ∈ txs, ∀ b ∈ txs, getHandler a.contractName = .ok .hnb →
    getHandler b.contractName = .ok .hgs →
    ∀ key ∈ footprint base a, key ∉ footprint base b

/-- The keys the block's transactions on one contract can touch. -/
def Side (base : World) (txs : List Transaction) (chain : ChainID) (key : Key) : Prop :=
  ∃ tx ∈ txs, getHandler tx.contractName = .ok chain ∧ key ∈ footprint base tx

theorem Separate.disjoint {base : World} {txs : List Transaction} (hs : Separate base txs)
    (key : Key) : ¬ (Side base txs .hnb key ∧ Side base txs .hgs key) := by
  rintro ⟨⟨a, ha, aHnb, aKey⟩, b, hb, bHgs, bKey⟩
  exact hs a ha b hb aHnb bHgs key aKey bKey

section Records

variable {σ : Type} (m : Memory Key Bytes σ)

/-- Writing an amount leaves a key's records as they were, or unreadable. -/
theorem records_after_amount (key other : Key) (n : Int64) (s : σ) (vrs : VoteRecords)
    (hl : recordsOf (m.look (m.put key (Decimal.formatInt n) s) other) = some vrs) :
    recordsOf (m.look s other) = some vrs := by
  rw [m.look_put] at hl
  split at hl
  · rw [recordsOf_number] at hl
    cases hl
  · exact hl

theorem records_after_payBack (chain : ChainID) (records : VoteRecords) (key : Key) (s : σ)
    (vrs : VoteRecords) (hl : recordsOf (m.look (payResult m chain records s).2 key) = some vrs) :
    recordsOf (m.look s key) = some vrs := by
  induction records generalizing s with
  | nil => exact hl
  | cons entry rest ih =>
    rcases entry with _ | v
    · exact hl
    · simp only [payResult] at hl
      cases read : amountResult (m.look s (chain, v.fromAddr.getD [])) with
      | error e =>
        rw [read] at hl
        exact hl
      | ok n =>
        rw [read] at hl
        exact records_after_amount m _ _ _ _ _ (ih _ hl)

/-- Entries of a record list are those that were there, and the one a vote adds. -/
theorem records_after (ca : ContractApi) (action : Action) (s s' : σ)
    (done : runOn m (perform ca action) s = (.ok (), s')) (epoch : UInt64) (vrs : VoteRecords)
    (hl : recordsOf (m.look s' (ca.chainID, Hnb.getEpochRecordKey epoch)) = some vrs)
    (entry : Option VoteRecord) (hm : entry ∈ vrs) :
    (∃ before, recordsOf (m.look s (ca.chainID, Hnb.getEpochRecordKey epoch)) = some before ∧
      entry ∈ before) ∨
      (ca.chainID, recordAccount entry) ∈ touched (m.look s) ca.chainID ca.fromAddr.val action := by
  cases action with
  | same hx =>
    rw [runOn_same, moveResult_ok_iff] at done
    obtain ⟨_, a, b, _, _, _, rfl⟩ := done
    exact .inl ⟨vrs, records_after_amount m _ _ _ _ _ (records_after_amount m _ _ _ _ _ hl),
      hm⟩
  | diff hx =>
    rw [runOn_diff, moveResult_ok_iff] at done
    obtain ⟨_, a, b, _, _, _, rfl⟩ := done
    exact .inl ⟨vrs, records_after_amount m _ _ _ _ _ (records_after_amount m _ _ _ _ _ hl),
      hm⟩
  | idle =>
    cases done
    exact .inl ⟨vrs, hl, hm⟩
  | vote vi =>
    obtain ⟨mid, oldRecords, hsa, old, rfl⟩ := runOn_vote_ok m ca vi done
    obtain ⟨_, fromAddr, amount, _, _, account, _, _, _, _, _, rfl⟩ :=
      (saveTotalResult_ok_iff m ca.chainID vi s mid).mp hsa
    have notTally : ∀ e : UInt64, (ca.chainID, Hnb.getEpochRecordKey e) ≠
        (ca.chainID, Hnb.getEpochKey vi.voteEpoch) := fun e => by
      simpa using (epochKey_ne_recordKey _ _).symm
    rw [m.look_put] at hl
    split at hl
    · rename_i same
      rw [same]
      simp only [recordsOf, decodeVoteRecords_encode, Option.some.injEq] at hl
      subst hl
      rcases List.mem_append.mp hm with hea | new
      · have before := records_after_amount m _ _ _ _ _ old
        rw [m.look_put_ne _ _ (notTally _)] at before
        exact .inl ⟨oldRecords, before, hea⟩
      · right
        rw [List.mem_singleton.mp new]
        simp [touched, recordAccount]
    · have before := records_after_amount m _ _ _ _ _ hl
      rw [m.look_put_ne _ _ (notTally _)] at before
      exact .inl ⟨vrs, before, hm⟩
  | unfreeze epochNo =>
    obtain ⟨records, mid, _, paid, rfl⟩ := (runOn_unfreeze_ok_iff m ca epochNo s).mp done
    rw [m.look_del, if_neg (by simpa using (epochKey_ne_recordKey _ _).symm), m.look_del] at hl
    split at hl
    · simp only [recordsOf, Option.some.injEq] at hl
      subst hl
      cases hm
    · refine .inl ⟨vrs, records_after_payBack m ca.chainID records _ _ _ ?_, hm⟩
      rw [paid]
      exact hl

end Records

/-- The block and the one-by-one execution have come to the same point. -/
structure InStep (base : World) (txs : List Transaction) (run : BlockRun) (w : World) : Prop where
  within : ∀ chain key, find (run.pending chain) key ≠ none → Side base txs chain key
  shows : ∀ key, find w key = overlaid (find (run.pending .hnb) key)
    (overlaid (find (run.pending .hgs) key) (find base key))
  recorded : ∀ epoch vrs entry,
    recordsOf (visible base (run.pending .hnb) (.hnb, Hnb.getEpochRecordKey epoch)) = some vrs →
    entry ∈ vrs → Side base txs .hnb (.hnb, recordAccount entry) ∨
      ∃ before, recordsOf (find base (.hnb, Hnb.getEpochRecordKey epoch)) =
      some before ∧ entry ∈ before

section Step

variable {base : World} {txs : List Transaction} {run : BlockRun} {w : World} {tx : Transaction}
  {chain : ChainID} {pending : Pending Key Bytes}

theorem InStep.start (base : World) (txs : List Transaction) (run : BlockRun)
    (he : run.pending = fun _ => ∅) : InStep base txs run base where
  within chain key some := by simp [he] at some
  shows key := by simp [he]
  recorded epoch vrs entry listed member := by
    rw [he, visible_empty] at listed
    exact .inr ⟨vrs, listed, member⟩

/-- A key of one side is not pending on the other. -/
theorem InStep.absent (inv : InStep base txs run w) (hs : Separate base txs) (key : Key) :
    (Side base txs .hnb key → find (run.pending .hgs) key = none) ∧
      (Side base txs .hgs key → find (run.pending .hnb) key = none) := by
  constructor
  · intro side
    by_contra some
    exact hs.disjoint key ⟨side, inv.within .hgs key some⟩
  · intro side
    by_contra some
    exact hs.disjoint key ⟨inv.within .hnb key some, side⟩

/-- On its own side, a contract sees through its pending changes what the one-by-one execution has
stored. -/
theorem InStep.agree (inv : InStep base txs run w) (hs : Separate base txs) (key : Key)
    (side : Side base txs chain key) : visible base (run.pending chain) key = find w key := by
  rw [inv.shows key]
  cases chain with
  | hnb => rw [(inv.absent hs key).1 side]; rfl
  | hgs => rw [(inv.absent hs key).2 side]; rfl

/-- Where the block has come to, the call touches keys of its own side only. -/
theorem InStep.touches (inv : InStep base txs run w) (hm : tx ∈ txs)
    (hr : getHandler tx.contractName = .ok chain) (key : Key)
    (touch : key ∈ callTouches (visible base (run.pending chain)) (contractApi chain tx)) :
    Side base txs chain key := by
  have own : ∀ k, k ∈ callTouches (find base) (contractApi chain tx) → Side base txs chain k :=
    fun k hi => ⟨tx, hm, hr, by simpa [footprint, hr] using hi⟩
  unfold callTouches at touch own
  cases decoded : decodeAction (contractApi chain tx).chainID (contractApi chain tx).args with
  | error e => simp [decoded] at touch
  | ok action =>
    simp only [decoded] at touch own
    cases action with
    | same hx => exact own key touch
    | diff hx => exact own key touch
    | vote vi => exact own key touch
    | idle => exact own key touch
    | unfreeze epochNo =>
      cases chain with
      | hgs => simpa using decodeAction_hgs decoded
      | hnb =>
        simp only [touched, contractApi, List.mem_cons, List.mem_map] at touch own
        rcases touch with rfl | rfl | ⟨entry, hl, rfl⟩
        · exact own _ (.inl rfl)
        · exact own _ (.inr (.inl rfl))
        · cases hf : recordsOf (visible base (run.pending .hnb)
              (.hnb, Hnb.getEpochRecordKey epochNo)) with
          | none => simp [hf] at hl
          | some vrs =>
            simp only [hf, Option.getD_some] at hl
            rcases inv.recorded epochNo vrs entry hf hl with side | ⟨before, old, hi⟩
            · exact side
            · exact own _ (.inr (.inr ⟨entry, by simpa [old] using hi, rfl⟩))

/-- An HNB call records accounts of the HNB side only. -/
theorem InStep.recorded_after (inv : InStep base txs run w) (hm : tx ∈ txs)
    (hr : getHandler tx.contractName = .ok .hnb)
    (done : runPending base run .hnb tx = (.ok (), pending)) (epoch : UInt64) (vrs : VoteRecords)
    (entry : Option VoteRecord)
    (hl : recordsOf (visible base pending (.hnb, Hnb.getEpochRecordKey epoch)) = some vrs)
    (hi : entry ∈ vrs) : Side base txs .hnb (.hnb, recordAccount entry) ∨
      ∃ before, recordsOf (find base (.hnb, Hnb.getEpochRecordKey epoch)) = some before ∧
      entry ∈ before := by
  rw [runPending, runOn_invoke] at done
  cases decoded : decodeAction .hnb tx.payload with
  | error e => simp [contractApi, decoded] at done
  | ok action =>
    simp only [contractApi, decoded] at done
    rcases records_after (Memory.overlay base) _ action _ _ done epoch vrs hl entry hi with
      ⟨before, old, earlier⟩ | touch
    · exact inv.recorded epoch before entry old earlier
    · refine .inl (inv.touches hm hr _ ?_)
      simp only [callTouches, contractApi, decoded]
      exact touch

/-- One transaction, in the block and one by one. -/
theorem InStep.step (inv : InStep base txs run w) (hs : Separate base txs) (hm : tx ∈ txs)
    (hr : getHandler tx.contractName = .ok chain)
    (done : runPending base run chain tx = (.ok (), pending)) :
    ∃ w', runTx w tx = (.ok (), w') ∧
      InStep base txs (addNonce tx (setPending run chain pending)) w' := by
  have hc := (invoke_confined (Memory.overlay base) (contractApi chain tx)
    (run.pending chain)).mono (fun key touch => inv.touches hm hr key touch)
  obtain ⟨hre, flatConfined, haf⟩ :=
    hc.run_agree (n := Memory.flat) (fun key side => inv.agree hs key side)
  have pendingEq : ((Memory.overlay base).handler Err |>.run (invoke (contractApi chain tx))
      (run.pending chain)).2 = pending := congrArg Prod.snd done
  have resultEq := (congrArg Prod.fst done).symm.trans hre
  refine ⟨(runFlat (invoke (contractApi chain tx)) w).2, ?_, ?_⟩
  · rw [runTx, hr]
    exact Prod.ext resultEq.symm rfl
  have hi : ∀ key, Side base txs chain key →
      find (runFlat (invoke (contractApi chain tx)) w).2 key = visible base pending key :=
    fun key side => by
      rw [← pendingEq]
      exact (haf key side).symm
  have ho : ∀ key, ¬ Side base txs chain key →
      find (runFlat (invoke (contractApi chain tx)) w).2 key = find w key ∧
        find pending key = find (run.pending chain) key := fun key other => by
    refine ⟨flatConfined.frame key other, ?_⟩
    rw [← pendingEq]
    exact hc.find_pending key other
  refine ⟨?_, ?_, ?_⟩
  · intro chain' key some
    by_cases same : chain' = chain
    · subst same
      by_contra other
      simp only [addNonce, setPending, Function.update_self, (ho key other).2] at some
      exact other (inv.within chain' key some)
    · simp only [addNonce, setPending, Function.update_of_ne same] at some
      exact inv.within chain' key some
  · intro key
    by_cases side : Side base txs chain key
    · rw [hi key side]
      cases chain with
      | hnb => simp [addNonce, setPending, visible, (inv.absent hs key).1 side]
      | hgs => simp [addNonce, setPending, visible, (inv.absent hs key).2 side]
    · rw [(ho key side).1, inv.shows key]
      cases chain with
      | hnb => simp [addNonce, setPending, (ho key side).2]
      | hgs => simp [addNonce, setPending, (ho key side).2]
  · intro epoch vrs entry hl member'
    cases chain with
    | hnb =>
      exact inv.recorded_after hm hr done epoch vrs entry hl member'
    | hgs =>
      exact inv.recorded epoch vrs entry hl member'

/-- A whole block, transaction by transaction. -/
theorem InStep.whole (inv : InStep base txs run w) (hs : Separate base txs)
    (rest : List Transaction) (sub : ∀ tx ∈ rest, tx ∈ txs) (succeed : AllSucceed base rest run) :
    ∃ final w', processTxs base rest run = (.ok (), final) ∧ runTxs w rest = (.ok (), w') ∧
      InStep base txs final w' := by
  induction rest generalizing run w with
  | nil => exact ⟨run, w, rfl, rfl, inv⟩
  | cons tx rest ih =>
    obtain ⟨chain, pending, hr, done, hla⟩ := succeed
    obtain ⟨w', hst, inv'⟩ := inv.step hs (sub tx List.mem_cons_self) hr done
    obtain ⟨final, w'', hp, ran, inv''⟩ :=
      ih inv' (fun tx' hm => sub tx' (List.mem_cons_of_mem tx hm)) hla
    refine ⟨final, w'', ?_, ?_, inv''⟩
    · simp only [processTxs, processTx_succeeded run hr done]
      exact hp
    · rw [runTxs_cons hst, ran]

end Step

/-- Separate pending changes end up stored the same whichever contract is written last. -/
theorem InStep.stored {base : World} {txs : List Transaction} {run : BlockRun} {w : World}
    (inv : InStep base txs run w) (hs : Separate base txs) (order : MapOrder) :
    commit (allState order run) base = w := by
  apply store_ext
  intro key
  rw [find_allState, inv.shows key]
  split
  · cases hgs : find (run.pending .hgs) key with
    | none => rfl
    | some change =>
      have side := inv.within .hgs key (by simp [hgs])
      simp [(inv.absent hs key).2 side, overlaid]
  · rfl

/-- A block of succeeding transactions that keep to their own sides is stored as if they had been
executed one after another, and one after another they succeed too. -/
theorem blockProcess_sequential (order : MapOrder) (ledger : Ledger) (blk : Block)
    (hac : blk.blockNum = ledger.height)
    (succeed : AllSucceed ledger.state blk.txs (startRun ledger))
    (hs : Separate ledger.state blk.txs) :
    runTxs ledger.state blk.txs = (.ok (), (blockProcess order ledger blk).2.state) := by
  have hsr := InStep.start ledger.state blk.txs (startRun ledger) rfl
  obtain ⟨final, w, hp, ran, inv⟩ :=
    hsr.whole hs blk.txs (fun _ hm => hm) succeed
  rw [ran, blockProcess, hp, finishBlock_state order ledger blk final hac,
    inv.stored hs order]

/-- A state in which one account holds 10 of each token. -/
def fundedLedger : Ledger where
  state := ((∅ : World).insert (.hnb, payer.val) (Decimal.formatInt 10)).insert
    (.hgs, payer.val) (Decimal.formatInt 10)
  height := 0
  nonces := ∅
  blocks := ∅
  hashIndex := ∅
  wrongIndex := ∅

def receiver : Bytes := [7]

/-- A payment of 5 on one contract. -/
def payment (chain : ChainID) : Transaction := carrying chain payer (.same ⟨receiver, 5⟩)

/-- An exchange of 5 HNB for 5 HGS of the receiver. -/
def exchange : Transaction := carrying .hnb payer (.diff ⟨receiver, 5, 5⟩)

theorem payments_sequential : runTxs fundedLedger.state [payment .hnb, payment .hgs] =
      (.ok (), (blockProcess (.any true) fundedLedger
        ⟨0, [payment .hnb, payment .hgs]⟩).2.state) := by
  refine blockProcess_sequential (.any true) fundedLedger
    ⟨0, [payment .hnb, payment .hgs]⟩ rfl ?_ ?_
  · exact ⟨.hnb, _, getHandler_text .hnb, eq_mk_of_fst (by decide +kernel),
      .hgs, _, getHandler_text .hgs, eq_mk_of_fst (by decide +kernel), trivial⟩
  · have keys : ∀ chain, footprint fundedLedger.state (payment chain) =
        [(chain, payer.val), (chain, receiver)] := by
      intro chain
      simp [footprint, payment, callTouches, contractApi, carrying, getHandler_text,
        decodeAction_encode_same, touched]
    have onHnb : ∀ tx ∈ [payment .hnb, payment .hgs], getHandler tx.contractName = .ok .hnb →
        tx = payment .hnb := by
      simp [payment, carrying, getHandler_text]
    have onHgs : ∀ tx ∈ [payment .hnb, payment .hgs], getHandler tx.contractName = .ok .hgs →
        tx = payment .hgs := by
      simp [payment, carrying, getHandler_text]
    intro a ha b hb aHnb bHgs key inA inB
    rw [onHnb a ha aHnb, keys] at inA
    rw [onHgs b hb bHgs, keys] at inB
    revert inA inB
    simp only [List.mem_cons, List.not_mem_nil, or_false]
    rintro (rfl | rfl) <;> decide

/-- The payment on HGS does not see the exchange before it. Both transactions succeed, the receiver
is given 5 by each, and the block stores 5. -/
theorem exchange_lost : AllSucceed fundedLedger.state [exchange, payment .hgs]
    (startRun fundedLedger) ∧
      find (blockProcess (.any true) fundedLedger ⟨0, [exchange, payment .hgs]⟩).2.state
        (.hgs, receiver) = some (Decimal.formatInt 5) ∧
      (runTxs fundedLedger.state [exchange, payment .hgs]).1 = .ok () ∧
      find (runTxs fundedLedger.state [exchange, payment .hgs]).2
        (.hgs, receiver) = some (Decimal.formatInt 10) := by
  refine ⟨⟨.hnb, _, getHandler_text .hnb, eq_mk_of_fst (by decide +kernel),
    .hgs, _, getHandler_text .hgs, eq_mk_of_fst (by decide +kernel), trivial⟩, ?_,
    by decide +kernel⟩
  rw [blockProcess, find_finishBlock (.any true) (by decide +kernel) rfl]
  decide +kernel

end HNBChain.Audit.Guarantees.BlockSequential
