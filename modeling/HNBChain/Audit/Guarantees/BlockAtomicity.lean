import HNBChain.Audit.Source.Payload

/-!
# Failed transactions inside a block

`BlockProcess` means to undo a transaction whose `Invoke` returns an error, but the snapshot it
restores is the live map. The reference here is the same block with the contract effects of that one
transaction removed, everything else (its nonce, its entry in the wrong index) kept.

The two agree exactly when the transaction writes nothing before it fails. Two calls can fail after
a write: a VOTE whose record list is unreadable, and an UNFREEZE that has paid some record before it
meets an unreadable account.
-/
namespace HNBChain.Audit.Guarantees.BlockAtomicity

open Lib Source Memory Decimal

/-- The loop of `BlockProcess`, with the contract effects of `tx` removed. -/
def processWithout (base : World) (pre : List Transaction) (tx : Transaction)
    (post : List Transaction) (run : BlockRun) : Except Err Unit × BlockRun :=
  match processTxs base pre run with
  | (.error e, run') => (.error e, run')
  | (.ok (), run') =>
    match processTx base run' tx with
    | (.error e, run'') => (.error e, run'')
    | (.ok (), run'') => processTxs base post { run'' with pending := run'.pending }

def blockProcessWithout (order : MapOrder) (ledger : Ledger) (blockNum : UInt64)
    (pre : List Transaction) (tx : Transaction) (post : List Transaction) :
    Except Err Unit × Ledger :=
  finishBlock order ledger ⟨blockNum, pre ++ tx :: post⟩
    (processWithout ledger.state pre tx post (startRun ledger))

/-- `Invoke` returns an error where the block has come to. -/
def InvokeFails (base : World) (run : BlockRun) (tx : Transaction) : Prop :=
  ∃ chain e pending, getHandler tx.contractName = .ok chain ∧
    runPending base run chain tx = (.error e, pending) ∧ e ≠ .panic

/-- Wherever a block has come to a pending HNB state that reads like that of `v`, the transaction,
should it fail, leaves no trace in the contract state or elsewhere. -/
def Atomic (v : World) (tx : Transaction) : Prop :=
  ∀ (order : MapOrder) (ledger : Ledger) (blockNum : UInt64) (pre post : List Transaction)
    (run : BlockRun),
    processTxs ledger.state pre (startRun ledger) = (.ok (), run) →
    (∀ key, visible ledger.state (run.pending .hnb) (.hnb, key) = find v (.hnb, key)) →
    InvokeFails ledger.state run tx →
    blockProcess order ledger ⟨blockNum, pre ++ tx :: post⟩ =
    blockProcessWithout order ledger blockNum pre tx post

/-- The vote passes every check of `SaveTokenTotal`, and the record list is unreadable. -/
def VoteFailsLate (look : Bytes → Option Bytes) (vi : VoteInfo) : Prop :=
  VotePasses look vi ∧ recordsOf (look (Hnb.getEpochRecordKey vi.voteEpoch)) = none

/-- The first recorded account can be paid, and so can those after it up to one that cannot. -/
def UnfreezeFailsLate (look : Bytes → Option Bytes) (epochNo : UInt64) : Prop :=
  ∃ (first : VoteRecord) (front : VoteRecords) (blocked : VoteRecord) (back : VoteRecords),
    recordsOf (look (Hnb.getEpochRecordKey epochNo)) =
    some (some first :: front ++ some blocked :: back) ∧
    (∀ entry ∈ some first :: front, ∃ v : VoteRecord, entry = some v ∧
      (amountOf (look (v.fromAddr.getD []))).isSome) ∧
    amountOf (look (blocked.fromAddr.getD [])) = none

def FailsLate (look : Bytes → Option Bytes) (tx : Transaction) : Prop :=
  getHandler tx.contractName = .ok .hnb ∧
    ((∃ vi, decodeAction .hnb tx.payload = .ok (.vote vi) ∧ VoteFailsLate look vi) ∨
      ∃ epochNo, decodeAction .hnb tx.payload = .ok (.unfreeze epochNo) ∧
      UnfreezeFailsLate look epochNo)

section Call

variable {σ : Type} (m : Memory Key Bytes σ)

/-- A failing call has written nothing, or it is one of the two that fail late. -/
theorem error_keeps_or_late (tx : Transaction) (chain : ChainID) {s s' : σ} {e : Err}
    (hr : getHandler tx.contractName = .ok chain)
    (hf : runOn m (invoke (contractApi chain tx)) s = (.error e, s')) (hre : e ≠ .panic) :
    s' = s ∨ FailsLate (fun key => m.look s (.hnb, key)) tx := by
  rcases invoke_error m (contractApi chain tx) hf hre with
    kept | ⟨vi, decoded, saved, unlisted⟩ | ⟨epochNo, first, front, blocked, back, decoded, late⟩
  · exact .inl kept
  · obtain rfl : chain = .hnb := chain_of_vote decoded
    exact .inr ⟨hr, .inl ⟨vi, decoded,
      (votePasses_iff m .hnb vi s).mpr ⟨s', saved⟩, unlisted⟩⟩
  · obtain rfl : chain = .hnb := chain_of_unfreeze decoded
    exact .inr ⟨hr, .inr ⟨epochNo, decoded, first, front, blocked, back, late⟩⟩

end Call

theorem atomic_of_not_late (v : World) (tx : Transaction)
    (he : ¬ FailsLate (fun key => find v (.hnb, key)) tx) : Atomic v tx := by
  rintro order ledger blockNum pre post run hrc reads ⟨chain, e, pending, hr,
    hf, hre⟩
  have kept : pending = run.pending chain := by
    rcases error_keeps_or_late (overlay ledger.state) tx chain hr hf hre with
      kept | late
    · exact kept
    · have hnb : chain = .hnb := Except.ok.inj (hr.symm.trans late.1)
      subst hnb
      have same : (fun key => (overlay ledger.state).look (run.pending .hnb) (.hnb, key)) =
          fun key => find v (.hnb, key) := funext reads
      exact absurd (same ▸ late) he
  have step := processTx_failed run hr hf hre
  have restored : Function.update run.pending chain pending = run.pending := by
    rw [kept, Function.update_eq_self]
  unfold blockProcess blockProcessWithout processWithout
  rw [processTxs_append, hrc]
  simp only [processTxs, step, addNonce, setPending, restored]

theorem late_vote {σ : Type} (m : Memory Key Bytes σ) (ca : ContractApi) (vi : VoteInfo) (s : σ)
    (hnb : ca.chainID = .hnb) (late : VoteFailsLate (fun key => m.look s (.hnb, key)) vi) :
    ∃ fromAddr amount text s', runOn m (perform ca (.vote vi)) s = (.error .json,
      m.put (.hnb, fromAddr) text s') ∧ amountOf (m.look s (.hnb, fromAddr)) = some amount := by
  obtain ⟨hp, hu⟩ := late
  obtain ⟨mid, hs⟩ := (votePasses_iff m .hnb vi s).mp hp
  have records := (recordsOf_after_debit m hs).trans hu
  have hf : runOn m (perform ca (.vote vi)) s = (.error .json, mid) := by
    rw [runOn_vote, hnb, hs]
    simp only [saveFromInfoResult, records]
  obtain ⟨_, fromAddr, amount, _, _, _, _, _, read, _, _, rfl⟩ :=
    (saveTotalResult_ok_iff m .hnb vi s mid).mp hs
  exact ⟨fromAddr, amount, _, _, hf, amountOf_of_read read⟩

/-- What has been written for an account stays among the pending changes while others are paid. -/
theorem payResult_keeps_changed (base : World) (chain : ChainID) (vrs : VoteRecords)
    (pending : Pending Key Bytes) (key : Key)
    (changed : ∃ text, find pending key = some (.changed text)) :
    ∃ text, find (payResult (overlay base) chain vrs pending).2 key = some (.changed text) := by
  induction vrs generalizing pending with
  | nil => exact changed
  | cons entry rest ih =>
    rcases entry with _ | v
    · exact changed
    · simp only [payResult]
      cases amountResult ((overlay base).look pending (chain, v.fromAddr.getD [])) with
      | error e => exact changed
      | ok n =>
        refine ih _ ?_
        change ∃ text, find (pending.insert _ _) key = _
        rw [find_insert]
        split
        · exact ⟨_, rfl⟩
        · exact changed

/-- A call that fails late leaves a written amount among the pending changes. -/
theorem late_call_writes (base : World) (tx : Transaction)
    (late : FailsLate (fun key => find base (.hnb, key)) tx) :
    ∃ e pending key text had, runOn (overlay base) (invoke (contractApi .hnb tx)) ∅ =
        (.error e, pending) ∧ e ≠ .panic ∧ find pending (.hnb, key) = some (.changed text) ∧
      amountOf (find base (.hnb, key)) = some had := by
  obtain ⟨_, ⟨vi, hd, lateVote⟩ | ⟨epochNo, hd, first, front, blocked, back, hl,
    before, stuck⟩⟩ := late
  · obtain ⟨fromAddr, amount, text, pending, hrs, had⟩ :=
      late_vote (overlay base) (contractApi .hnb tx) vi ∅ rfl lateVote
    refine ⟨.json, (overlay base).put (.hnb, fromAddr) text pending, fromAddr, text, amount, ?_,
      by simp, ?_, had⟩
    · rw [runOn_invoke]
      simp only [contractApi, hd]
      exact hrs
    · exact (find_insert _ _ _ _).trans (if_pos rfl)
  · obtain ⟨e, pending, hrs, hre⟩ :=
      payResult_blocked (overlay base) (some first :: front) back blocked ∅ before stuck
    obtain ⟨v, same, hra⟩ := before (some first) List.mem_cons_self
    obtain rfl := Option.some.inj same
    obtain ⟨had, amount⟩ := Option.isSome_iff_exists.mp hra
    have firstRead : amountResult ((overlay base).look ∅ (.hnb, first.fromAddr.getD [])) =
        .ok had := (amountResult_ok_iff _ had).mpr amount
    have hw : ∃ text, find pending (.hnb, first.fromAddr.getD []) = some (.changed text) := by
      have kept := payResult_keeps_changed base .hnb (front ++ some blocked :: back)
        ((overlay base).put (.hnb, first.fromAddr.getD [])
          (formatInt (had + first.votingPower)) ∅) (.hnb, first.fromAddr.getD [])
        ⟨_, (find_insert _ _ _ _).trans (if_pos rfl)⟩
      simp only [List.cons_append, payResult, firstRead] at hrs
      rw [hrs] at kept
      exact kept
    obtain ⟨text, hw⟩ := hw
    refine ⟨e, pending, first.fromAddr.getD [], text, had, ?_, hre, hw, amount⟩
    rw [runOn_invoke]
    simp only [contractApi, hd]
    rw [runOn_unfreeze]
    have listed' : recordsOf ((overlay base).look ∅ (.hnb, Hnb.getEpochRecordKey epochNo)) =
        some (some first :: front ++ some blocked :: back) := hl
    simp only [listed', hrs]

/-- An HGS exchange that debits nothing and credits `amount` to an HNB account. -/
def creditTx (key : Bytes) (amount : Int64) : Transaction :=
  carrying .hgs payer (.diff ⟨key, amount, 0⟩)

/-- The credit goes through above no pending HGS change. -/
theorem creditTx_pending (base : World) (key : Bytes) (amount had : Int64)
    (payerHas : find base (.hgs, payer.val) = some (formatInt 0))
    (hra : amountOf (find base (.hnb, key)) = some had) :
    ∃ pending, runOn (overlay base) (invoke (contractApi .hgs (creditTx key amount))) ∅ =
    (.ok (), pending) ∧ visible base pending (.hnb, key) = some (formatInt (had + amount)) := by
  refine ⟨(DiffTx.transfer .hgs payer.val ⟨key, amount, 0⟩).apply (overlay base) 0 had ∅, ?_, ?_⟩
  · exact (runOn_carrying_diff _ _ _ _ _).trans
      (runOn_diff_ok _ _ _ _ 0 had (heldResult_of_stored _ payerHas) (Int64.le_refl 0) hra)
  · exact (overlay base).look_put_self _ _ _

/-- A block that runs the transaction and then credits an account it has written. The account ends
with what the failed transaction left there, since HNB is written last. -/
theorem late_block (ledger : Ledger) (tx : Transaction) (e : Err) (pending : Pending Key Bytes)
    (key text : Bytes) (amount had : Int64) (hr : getHandler tx.contractName = .ok .hnb)
    (hf : runOn (overlay ledger.state) (invoke (contractApi .hnb tx)) ∅ =
      (.error e, pending)) (hre : e ≠ .panic)
      (hw : find pending (.hnb, key) = some (.changed text))
    (payerHas : find ledger.state (.hgs, payer.val) = some (formatInt 0))
    (hra : amountOf (find ledger.state (.hnb, key)) = some had) :
    find (blockProcess (.any false) ledger
        ⟨ledger.height, [] ++ tx :: [creditTx key amount]⟩).2.state (.hnb, key) = some text ∧
      find (blockProcessWithout (.any false) ledger ledger.height [] tx
        [creditTx key amount]).2.state (.hnb, key) = some (formatInt (had + amount)) := by
  obtain ⟨credited, paid, shown⟩ := creditTx_pending ledger.state key amount had payerHas hra
  have h1 := processTx_failed (startRun ledger) hr hf hre
  have name : getHandler (creditTx key amount).contractName = .ok .hgs := getHandler_text .hgs
  let after : BlockRun := addNonce tx (setPending
    { startRun ledger with wrongIndex := (startRun ledger).wrongIndex.insert tx.txid e } .hnb
    pending)
  have h2 := processTx_succeeded after name paid
  have reference := processTx_succeeded
    { after with pending := (startRun ledger).pending } name paid
  constructor
  · have both : processTxs ledger.state ([] ++ tx :: [creditTx key amount]) (startRun ledger) =
        (.ok (), addNonce (creditTx key amount) (setPending after .hgs credited)) := by
      rw [List.nil_append, processTxs, h1]
      dsimp only
      rw [processTxs, h2]
      rfl
    rw [blockProcess, both, finishBlock_state _ _ _ _ rfl, find_allState]
    simp [MapOrder.any, after, addNonce, setPending, overlaid, hw, Change.value]
  · have both : processWithout ledger.state [] tx [creditTx key amount] (startRun ledger) =
        (.ok (), addNonce (creditTx key amount)
          (setPending { after with pending := (startRun ledger).pending } .hgs credited)) := by
      rw [processWithout, processTxs]
      dsimp only
      rw [h1]
      dsimp only
      rw [processTxs, reference]
      rfl
    have hem : find ((startRun ledger).pending .hnb) (.hnb, key) = none := rfl
    rw [blockProcessWithout, both, finishBlock_state _ _ _ _ rfl, find_allState]
    simp [MapOrder.any, addNonce, setPending, overlaid, hem, shown]

theorem not_atomic_of_late (v : World) (tx : Transaction)
    (late : FailsLate (fun key => find v (.hnb, key)) tx) : ¬ Atomic v tx := by
  intro atomic
  -- Only the HNB keys of `v` matter, so a paying HGS account may be added to it.
  let base : World := v.insert (.hgs, payer.val) (formatInt 0)
  let ledger : Ledger := ⟨base, 0, ∅, ∅, ∅, ∅⟩
  have reads : ∀ key, find base (.hnb, key) = find v (.hnb, key) := fun key => by
    rw [find_insert, if_neg (by simp)]
  have payerHas : find base (.hgs, payer.val) = some (formatInt 0) := by
    rw [find_insert, if_pos rfl]
  have hr := late.1
  rw [← funext reads] at late
  obtain ⟨e, pending, key, text, had, hf, hre, hw, hra⟩ :=
    late_call_writes base tx late
  have forced : ∀ amount, text = formatInt (had + amount) := by
    intro amount
    obtain ⟨hst, expected⟩ := late_block ledger tx e pending key text amount had
      hr hf hre hw payerHas hra
    rw [atomic (.any false) ledger ledger.height [] [creditTx key amount]
      (startRun ledger) rfl reads
      ⟨.hnb, e, pending, hr, hf, hre⟩, expected] at hst
    exact (Option.some.inj hst).symm
  have heq := formatInt_injective ((forced 1).symm.trans (forced 2))
  have : (1 : Int64) = 2 := by
    have shifted := congrArg (fun n => n - had) heq
    simpa only [Int64.add_comm had, Int64.add_sub_cancel] using shifted
  exact absurd this (by decide)

/-- A transaction is undone when it fails exactly when it does not fail late. -/
theorem atomic_iff_not_failsLate (v : World) (tx : Transaction) :
    Atomic v tx ↔ ¬ FailsLate (fun key => find v (.hnb, key)) tx :=
  ⟨fun atomic late => not_atomic_of_late v tx late atomic, atomic_of_not_late v tx⟩

/-- A state in which someone has sent an amount to the address `record_epoch#1`. -/
def spoiledLedger : Ledger where
  state := ((∅ : World).insert (.hnb, payer.val) (formatInt 10)).insert
    (.hnb, Hnb.getEpochRecordKey 1) (formatInt 5)
  height := 0
  nonces := ∅
  blocks := ∅
  hashIndex := ∅
  wrongIndex := ∅

def spoiledVote : Transaction := carrying .hnb payer (.vote ⟨some payer.val, some [1], 5, 1⟩)

/-- The vote fails on the spoiled record list, and its debit is stored all the same. -/
theorem spoiledVote_keeps_debit : InvokeFails spoiledLedger.state
    (startRun spoiledLedger) spoiledVote ∧
      find (blockProcess (.any true) spoiledLedger ⟨0, [] ++ spoiledVote :: []⟩).2.state
        (.hnb, payer.val) = some (formatInt 5) ∧
      find (blockProcessWithout (.any true) spoiledLedger 0 [] spoiledVote []).2.state
        (.hnb, payer.val) = some (formatInt 10) := by
  have hf : (runPending spoiledLedger.state (startRun spoiledLedger) .hnb spoiledVote).1 =
      .error .json := by
    decide +kernel
  refine ⟨⟨.hnb, .json, _, getHandler_text .hnb, eq_mk_of_fst hf, by decide⟩, ?_, ?_⟩
  · rw [blockProcess, find_finishBlock (.any true) (by decide +kernel) rfl]
    decide +kernel
  · rw [blockProcessWithout, find_finishBlock (.any true) (by decide +kernel) rfl]
    decide +kernel

end HNBChain.Audit.Guarantees.BlockAtomicity
