import HNBChain.Audit.Source.Payload
import HNBChain.Audit.Spec.Holdings

/-!
# Stored balances are not negative

From the installed state on, every stored text should be a balance that is not negative, or vote
data under a vote key. The contracts compare the debited amount with the balance and nothing else: a
negative amount leaves the receiver with a negative balance, and a large one wraps around.

`solvent_of_inRange` covers every sequence of blocks, every mix of transactions in a block, failing
ones included, and every map order: as long as the new balances each transaction asks for lie in the
range of a non-negative int64 when computed in unbounded integers, all stored balances do.
-/
namespace HNBChain.Audit.Guarantees.Solvency

open Lib Source Spec Decimal

/-- A balance that is not negative, or something under a vote key that is no balance at all. -/
def Good (key : Key) (text : Bytes) : Prop :=
  (∃ n : Int64, 0 ≤ n ∧ text = formatInt n) ∨ (key.1 = .hnb ∧ VoteKey key.2 ∧ readInt text = none)

def AllGood (look : Key → Option Bytes) : Prop := ∀ key text, look key = some text → Good key text

/-- Everything stored is good. -/
def Solvent (w : World) : Prop := AllGood (find w)

/-- What a list of records pays to an account. -/
def paidTo (vrs : VoteRecords) (account : Bytes) : Int :=
  ((vrs.filter fun entry => recordAccount entry = account).map fun entry =>
    (recordPower entry).toInt).sum

def NonNegative (i : Int) : Prop := 0 ≤ i ∧ i < 2 ^ 63

/-- The new balances, computed in unbounded integers, are non-negative and fit. -/
def InRange (h : Holdings) (chain : ChainID) (sender : Bytes) : Action → Prop
  | .same hx =>
    (h.bal (chain, sender)).toInt - hx.amount.toInt < 2 ^ 63 ∧
      NonNegative ((h.bal (chain, hx.outputAddr)).toInt + hx.amount.toInt)
  | .diff hx =>
    (h.bal (chain, sender)).toInt - hx.inAmount.toInt < 2 ^ 63 ∧
      NonNegative ((h.bal (chain.other, hx.outputAddr)).toInt + hx.amount.toInt)
  | .vote vi =>
    (h.bal (.hnb, vi.fromAddr.getD [])).toInt - vi.votingPower.toInt < 2 ^ 63
  | .unfreeze epochNo =>
    -- After each payment, not only after the last: the loop stops at an unreadable account.
    ∀ front, front <+: h.recs epochNo → ∀ entry ∈ front,
      NonNegative ((h.bal (.hnb, recordAccount entry)).toInt + paidTo front (recordAccount entry))
  | .idle => True

theorem nonneg_add {a b : Int64} (range : NonNegative (a.toInt + b.toInt)) :
    0 ≤ a + b ∧ (a + b).toInt = a.toInt + b.toInt := by
  have sum : (a + b).toInt = a.toInt + b.toInt := by
    rw [Int64.toInt_add]
    exact Int.bmod_eq_of_le (by have := range.1; omega) (by have := range.2; omega)
  refine ⟨Int64.le_iff_toInt_le.mpr ?_, sum⟩
  rw [sum, Int64.toInt_zero]
  exact range.1

theorem nonneg_sub {a b : Int64} (he : b ≤ a) (range : a.toInt - b.toInt < 2 ^ 63) :
    0 ≤ a - b := by
  have bound := Int64.le_iff_toInt_le.mp he
  rw [Int64.le_iff_toInt_le, Int64.toInt_zero, Int64.toInt_sub,
    Int.bmod_eq_of_le (by omega) (by omega)]
  omega

section Calls

variable {σ : Type} (m : Memory Key Bytes σ)

variable {s : σ}

theorem allGood_put_amount (good : AllGood (m.look s)) (key : Key) {n : Int64}
    (hn : 0 ≤ n) : AllGood (m.look (m.put key (formatInt n) s)) :=
  m.forall_put good (.inl ⟨n, hn, rfl⟩)

theorem allGood_apply (good : AllGood (m.look s)) (t : Transfer) {held had : Int64}
    (he : t.debit ≤ held) (sent : held.toInt - t.debit.toInt < 2 ^ 63)
    (hr : NonNegative (had.toInt + t.credit.toInt)) :
    AllGood (m.look (t.apply m held had s)) :=
  allGood_put_amount m (allGood_put_amount m good _ (nonneg_sub he sent))
    _ (nonneg_add hr).1

/-- A token movement, whatever it returns. -/
theorem allGood_moveResult (good : AllGood (m.look s)) (refusal : Option Err)
    (held had : Except Err Int64) (t : Transfer)
    (heldIs : ∀ a, held = .ok a → a = (holdings (m.look s)).bal t.src)
    (hadIs : ∀ b, had = .ok b → b = (holdings (m.look s)).bal t.dst)
    (sent : ((holdings (m.look s)).bal t.src).toInt - t.debit.toInt < 2 ^ 63)
    (hr : NonNegative (((holdings (m.look s)).bal t.dst).toInt + t.credit.toInt)) :
    AllGood (m.look (moveResult m refusal held had t s).2) := by
  rcases hrs : moveResult m refusal held had t s with ⟨_ | _, s'⟩
  · rw [moveResult_error m hrs]
    exact good
  · obtain ⟨_, a, b, heldOk, he, hadOk, rfl⟩ := (moveResult_ok_iff m _ _ _ _ _ _).mp hrs
    rw [← heldIs a heldOk] at sent
    rw [← hadIs b hadOk] at hr
    exact allGood_apply m good t he sent hr

theorem allGood_saveTotal {s' : σ} (good : AllGood (m.look s)) (vi : VoteInfo)
    (hs : saveTotalResult m .hnb vi s = (.ok (), s'))
    (sent : ((holdings (m.look s)).bal (.hnb, vi.fromAddr.getD [])).toInt -
      vi.votingPower.toInt < 2 ^ 63) : AllGood (m.look s') := by
  obtain ⟨candidate, fromAddr, amount, tally, _, payer, _, _, read, he, _, rfl⟩ :=
    (saveTotalResult_ok_iff m .hnb vi s s').mp hs
  have held : (holdings (m.look s)).bal (.hnb, fromAddr) = amount :=
    clippedAmount_of_amountOf (amountOf_of_read read)
  rw [payer, Option.getD_some, held] at sent
  refine allGood_put_amount m (m.forall_put good (.inr ⟨rfl, ⟨vi.voteEpoch, .inl rfl⟩, ?_⟩)) _
    (nonneg_sub he sent)
  rw [readInt, parseInt_encodeTally]

theorem allGood_saveFromInfo (good : AllGood (m.look s)) (vi : VoteInfo) :
    AllGood (m.look (saveFromInfoResult m .hnb vi s).2) := by
  unfold saveFromInfoResult
  split
  · exact good
  · refine m.forall_put good (.inr ⟨rfl, ⟨vi.voteEpoch, .inr rfl⟩, ?_⟩)
    rw [readInt, parseInt_of_decodeVoteRecords _ _ (decodeVoteRecords_encode _)]

theorem paidTo_cons (entry : Option VoteRecord) (rest : VoteRecords) (account : Bytes) :
    paidTo (entry :: rest) account = (if recordAccount entry = account
      then (recordPower entry).toInt else 0) + paidTo rest account := by
  by_cases same : recordAccount entry = account <;> simp [paidTo, same]

/-- Each payment of the loop starts where the one before it left the account. -/
theorem allGood_payResult (vrs : VoteRecords) (good : AllGood (m.look s))
    (range : ∀ front, front <+: vrs → ∀ entry ∈ front,
      NonNegative (((holdings (m.look s)).bal (.hnb, recordAccount entry)).toInt +
        paidTo front (recordAccount entry))) : AllGood (m.look (payResult m .hnb vrs s).2) := by
  induction vrs generalizing s with
  | nil => exact good
  | cons entry rest ih =>
    rcases entry with _ | v
    · exact good
    · cases read : amountResult (m.look s (.hnb, v.fromAddr.getD [])) with
      | error e =>
        simp only [payResult, read]
        exact good
      | ok amount =>
        have hra := (amountResult_ok_iff _ amount).mp read
        have held : (holdings (m.look s)).bal (.hnb, v.fromAddr.getD []) = amount :=
          clippedAmount_of_amountOf hra
        have h1 := range [some v] (List.prefix_cons_inj (some v) |>.mpr List.nil_prefix)
          (some v) List.mem_cons_self
        have ha : paidTo [some v] (recordAccount (some v)) = v.votingPower.toInt := by
          simp [paidTo, recordPower]
        rw [ha] at h1
        change NonNegative (((holdings (m.look s)).bal (.hnb, v.fromAddr.getD [])).toInt +
          v.votingPower.toInt) at h1
        rw [held] at h1
        obtain ⟨hn, sum⟩ := nonneg_add h1
        have credited := holdings_put_amount m (.hnb, v.fromAddr.getD []) (amount + v.votingPower) s
          (.inr (by rw [hra]; rfl))
        simp only [payResult, read]
        refine ih (allGood_put_amount m good _ hn) fun front isFront entry hm => ?_
        have hl := range (some v :: front) ((List.prefix_cons_inj (some v)).mpr isFront) entry
          (List.mem_cons_of_mem _ hm)
        rw [paidTo_cons] at hl
        rw [credited, Holdings.setBal_bal]
        by_cases same : v.fromAddr.getD [] = recordAccount entry
        · rw [← same, Function.update_self, sum]
          rw [if_pos (show recordAccount (some v) = recordAccount entry from same), ← same, held]
            at hl
          rw [add_assoc]
          exact hl
        · rw [Function.update_of_ne (by simpa using Ne.symm same)]
          rw [if_neg (show recordAccount (some v) ≠ recordAccount entry from same),
            zero_add] at hl
          exact hl

/-- A call keeps everything good, whatever it returns. -/
theorem allGood_invoke (ca : ContractApi) (good : AllGood (m.look s))
    (range : ∀ action, decodeAction ca.chainID ca.args = .ok action →
      InRange (holdings (m.look s)) ca.chainID ca.fromAddr.val action) :
    AllGood (m.look (runOn m (invoke ca) s).2) := by
  rw [runOn_invoke]
  cases decoded : decodeAction ca.chainID ca.args with
  | error e => exact good
  | ok action =>
    have inRange := range action decoded
    have heldIs : ∀ a, heldResult ca.chainID (m.look s (ca.chainID, ca.fromAddr.val)) = .ok a →
        a = (holdings (m.look s)).bal (ca.chainID, ca.fromAddr.val) := fun a heldOk =>
      (clippedAmount_of_amountOf (amountOf_of_heldResult heldOk)).symm
    dsimp only
    cases action with
    | same hx =>
      rw [runOn_same]
      refine allGood_moveResult m good _ _ _ _ heldIs (fun b hadOk => ?_) inRange.1 inRange.2
      cases chain : ca.chainID with
      | hnb =>
        rw [chain] at hadOk
        exact (clippedAmount_of_amountOf ((amountResult_ok_iff _ b).mp hadOk)).symm.trans
          (by simp [SameTx.transfer, holdings])
      | hgs =>
        rw [chain] at hadOk
        exact (Except.ok.inj hadOk).symm
    | diff hx =>
      rw [runOn_diff]
      exact allGood_moveResult m good _ _ _ _ heldIs
        (fun b hadOk => (clippedAmount_of_amountOf ((amountResult_ok_iff _ b).mp hadOk)).symm)
        inRange.1 inRange.2
    | idle => exact good
    | vote vi =>
      rw [runOn_vote, chain_of_vote decoded]
      rcases hs : saveTotalResult m .hnb vi s with ⟨_ | _, s'⟩
      · rw [saveTotalResult_error m hs]
        exact good
      · exact allGood_saveFromInfo m (allGood_saveTotal m good vi hs inRange) vi
    | unfreeze epochNo =>
      rw [runOn_unfreeze, chain_of_unfreeze decoded]
      cases listed : recordsOf (m.look s (.hnb, Hnb.getEpochRecordKey epochNo)) with
      | none => exact good
      | some vrs =>
        have recs : (holdings (m.look s)).recs epochNo = vrs := by simp [holdings, listed]
        have range' : ∀ front, front <+: vrs → _ := fun front isFront =>
          inRange front (by rwa [recs])
        have paid := allGood_payResult m vrs good range'
        rcases hrs : payResult m .hnb vrs s with ⟨_ | _, s'⟩
        · rw [hrs] at paid
          simp only [hrs]
          exact paid
        · rw [hrs] at paid
          simp only [hrs]
          exact m.forall_del (m.forall_del paid _) _

end Calls

/-- The condition on a transaction, in the state that its call sees. -/
def TxInRange (base : World) (run : BlockRun) (tx : Transaction) : Prop :=
  ∀ chain action, getHandler tx.contractName = .ok chain →
    decodeAction chain tx.payload = .ok action →
    InRange (holdings (visible base (run.pending chain))) chain tx.fromAddr.val action

def TxsInRange (base : World) : List Transaction → BlockRun → Prop
  | [], _ => True
  | tx :: rest, run =>
    TxInRange base run tx ∧ ((processTx base run tx).1 = .ok () →
      TxsInRange base rest (processTx base run tx).2)

/-- What either contract sees is good. -/
def PendingGood (base : World) (run : BlockRun) : Prop :=
  ∀ chain, AllGood (visible base (run.pending chain))

theorem PendingGood.step {base : World} {run : BlockRun} (good : PendingGood base run)
    (tx : Transaction) (range : TxInRange base run tx) :
    PendingGood base (processTx base run tx).2 :=
  processTx_visible good fun chain hre =>
    allGood_invoke (Memory.overlay base) (contractApi chain tx) (good chain)
      fun action hd => range chain action hre hd

theorem PendingGood.run {base : World} (txs : List Transaction) {run : BlockRun}
    (good : PendingGood base run) (range : TxsInRange base txs run)
    (ended : (processTxs base txs run).1 = .ok ()) :
    PendingGood base (processTxs base txs run).2 := by
  induction txs generalizing run with
  | nil => exact good
  | cons tx rest ih =>
    have next := good.step tx range.1
    rcases hp : processTx base run tx with ⟨_ | _, after⟩
    · simp [processTxs, hp] at ended
    · rw [hp] at next
      simp only [processTxs, hp] at ended ⊢
      have hl := range.2 (by rw [hp])
      rw [hp] at hl
      exact ih next hl ended

theorem solvent_blockProcess (order : MapOrder) (ledger : Ledger) (blk : Block)
    (solvent : Solvent ledger.state) (range : TxsInRange ledger.state blk.txs (startRun ledger)) :
    Solvent (blockProcess order ledger blk).2.state := by
  have hst : PendingGood ledger.state (startRun ledger) := fun _ => solvent
  rcases finishBlock_cases order ledger blk (processTxs ledger.state blk.txs (startRun ledger)) with
    kept | ⟨ended, written⟩
  · rw [blockProcess, kept]
    exact solvent
  · rw [blockProcess, written]
    exact forall_allState (hst.run blk.txs range ended) order

/-- Blocks, each with the order in which its maps are ranged over. -/
def processBlocks (ledger : Ledger) (blocks : List (MapOrder × Block)) : Ledger :=
  blocks.foldl (fun l next => (blockProcess next.1 l next.2).2) ledger

def BlocksInRange : Ledger → List (MapOrder × Block) → Prop
  | _, [] => True
  | ledger, (order, blk) :: rest =>
    TxsInRange ledger.state blk.txs (startRun ledger) ∧
    BlocksInRange (blockProcess order ledger blk).2 rest

theorem solvent_genesis : Solvent genesis := by
  rintro ⟨chain, addr⟩ text hf
  rw [find_genesis] at hf
  split at hf
  · exact .inl ⟨10000000, by decide, (Option.some.inj hf).symm⟩
  · cases hf

theorem solvent_processBlocks (ledger : Ledger) (blocks : List (MapOrder × Block))
    (solvent : Solvent ledger.state) (range : BlocksInRange ledger blocks) :
    Solvent (processBlocks ledger blocks).state := by
  induction blocks generalizing ledger with
  | nil => exact solvent
  | cons next rest ih =>
    exact ih _ (solvent_blockProcess next.1 ledger next.2 solvent range.1) range.2

/-- After the installation, blocks whose transactions ask for balances in range leave every stored
balance a non-negative int64. -/
theorem solvent_of_inRange (ledger : Ledger) (installed : ledger.state = genesis)
    (blocks : List (MapOrder × Block)) (range : BlocksInRange ledger blocks) :
    Solvent (processBlocks ledger blocks).state := by
  refine solvent_processBlocks ledger blocks ?_ range
  rw [installed]
  exact solvent_genesis

theorem foundersPayment_inRange : TxInRange genesis (startRun genesisLedger) foundersPayment := by
  intro chain action hre hd
  rw [foundersPayment, getHandler_carrying] at hre
  cases hre
  rw [decodeAction_foundersPayment hd]
  change ((holdings (find genesis)).bal (.hnb, founder.val)).toInt - (5 : Int64).toInt < 2 ^ 63 ∧
    NonNegative (((holdings (find genesis)).bal (.hnb, [7])).toInt + (5 : Int64).toInt)
  rw [genesis_bal, genesis_bal, if_pos rfl, if_neg (by decide)]
  exact ⟨by decide, by decide, by decide⟩

theorem solvent_payment : Solvent (processBlocks genesisLedger
    [(.any true, ⟨0, [foundersPayment]⟩)]).state := by
  have range : BlocksInRange genesisLedger [(.any true, ⟨0, [foundersPayment]⟩)] := by
    rw [BlocksInRange, TxsInRange]
    exact ⟨⟨foundersPayment_inRange, fun _ => trivial⟩, trivial⟩
  exact solvent_of_inRange genesisLedger rfl _ range

/-- A payment of -5 by an account that holds nothing. -/
def refund : Transaction := carrying .hnb payer (.same ⟨[7], -5⟩)

theorem refund_alone :
    find (processAlone genesis refund) (.hnb, [7]) = some (formatInt (-5)) := by decide +kernel

/-- One transaction after the installation the state holds a negative balance. -/
theorem refund_insolvent : find (blockProcess (.any true) genesisLedger
    ⟨0, [refund]⟩).2.state (.hnb, [7]) =
        some (formatInt (-5)) ∧ ¬ Solvent (blockProcess (.any true) genesisLedger
          ⟨0, [refund]⟩).2.state := by
  rw [blockProcess_single (.any true) genesisLedger refund (show 0 = genesisLedger.height from rfl)]
  refine And.intro refund_alone fun solvent => ?_
  rcases solvent _ _ refund_alone with ⟨n, hn, same⟩ | ⟨_, _, hu⟩
  · rw [← formatInt_injective same] at hn
    exact absurd hn (by decide)
  · rw [readInt_formatInt] at hu
    cases hu

end HNBChain.Audit.Guarantees.Solvency
