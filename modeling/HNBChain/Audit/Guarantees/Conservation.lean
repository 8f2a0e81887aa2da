import HNBChain.Audit.Source.Payload
import HNBChain.Audit.Spec.Supply

/-!
# HNB is conserved modulo 2^64

SAME, VOTE and UNFREEZE move HNB between accounts and recorded votes. Balances are added with
wrap-around, so what is conserved is the sum modulo 2^64.

An account is a key that is no vote key. The senders, receivers and voters of a run may be required
to be accounts, but that says nothing about the votes that are already recorded: an UNFREEZE pays
whoever they name, and a payment under the epoch's own tally key is deleted with it. `conserved`
therefore asks that the recorded votes of the starting state name accounts too.
-/
namespace HNBChain.Audit.Guarantees.Conservation

open Lib Source Spec Holdings

def accounts : Set Key := {key | key.1 = .hnb ∧ ¬ VoteKey key.2}

/-- All account balances plus all recorded votes. -/
noncomputable def hnbSum (h : Holdings) : Int := h.held accounts + h.recorded

/-- A SAME, VOTE or UNFREEZE that names accounts only. -/
def NamesAccounts (sender : Bytes) : Action → Prop
  | .same hx => ¬ VoteKey sender ∧ ¬ VoteKey hx.outputAddr
  | .vote vi => ¬ VoteKey sender ∧ ¬ VoteKey (vi.fromAddr.getD [])
  | .unfreeze _ => ¬ VoteKey sender
  | .diff _ => False
  | .idle => False

/-- The recorded votes come from accounts. -/
def RecordsName (h : Holdings) : Prop :=
  ∀ epoch, ∀ entry ∈ h.recs epoch, ¬ VoteKey (recordAccount entry)

variable {h : Holdings}

theorem hnbSum_move (hf : h.Finite) (hx : SameTx) (sender : Bytes)
    (src : ¬ VoteKey sender) (dst : ¬ VoteKey hx.outputAddr) :
    hnbSum (h.move (hx.transfer .hnb sender)) ≡ hnbSum h [ZMOD 2 ^ 64] := by
  have hdb := held_debit_modEq hf
    (show ((.hnb, sender) : Key) ∈ accounts from ⟨rfl, src⟩) hx.amount
  have credited := held_credit_modEq (hf.credit (.hnb, sender) (-hx.amount))
    (show ((.hnb, hx.outputAddr) : Key) ∈ accounts from ⟨rfl, dst⟩) hx.amount
  have votes : (h.move (hx.transfer .hnb sender)).recorded = h.recorded := rfl
  have balances : (h.move (hx.transfer .hnb sender)).held accounts =
      ((h.credit (.hnb, sender) (-hx.amount)).credit
          (.hnb, hx.outputAddr) hx.amount).held accounts :=
    rfl
  rw [hnbSum, hnbSum, votes, balances]
  rw [Int.ModEq] at hdb credited ⊢
  omega

theorem hnbSum_vote (hf : h.Finite) (vi : VoteInfo)
    (hv : ¬ VoteKey (vi.fromAddr.getD [])) : hnbSum (h.vote vi) ≡ hnbSum h [ZMOD 2 ^ 64] := by
  have hdb := held_debit_modEq hf
    (show ((.hnb, vi.fromAddr.getD []) : Key) ∈ accounts from ⟨rfl, hv⟩) vi.votingPower
  have ha := recorded_vote h vi
  have balances : (h.vote vi).held accounts =
      (h.credit (.hnb, vi.fromAddr.getD []) (-vi.votingPower)).held accounts := rfl
  rw [hnbSum, hnbSum, ha, balances]
  rw [Int.ModEq] at hdb ⊢
  omega

theorem hnbSum_unfreeze (hf : h.Finite) (epochNo : UInt64)
    (hn : ∀ entry ∈ h.recs epochNo, ¬ VoteKey (recordAccount entry)) :
    hnbSum (h.unfreeze epochNo) ≡ hnbSum h [ZMOD 2 ^ 64] := by
  have paid := held_pay_modEq hf (h.recs epochNo)
    (fun entry hm => show ((.hnb, recordAccount entry) : Key) ∈ accounts from
      ⟨rfl, hn entry hm⟩)
  have hd := recorded_unfreeze h epochNo
  have ht : ((.hnb, Hnb.getEpochKey epochNo) : Key) ∉ accounts := fun hi =>
    hi.2 ⟨epochNo, .inl rfl⟩
  have balances : (h.unfreeze epochNo).held accounts = (pay (h.recs epochNo) h).held accounts :=
    Amounts.total_update_of_notMem _ ht 0
  rw [hnbSum, hnbSum, hd, balances]
  rw [Int.ModEq] at paid ⊢
  omega

theorem hnbSum_act (hf : h.Finite) (recs : RecordsName h) (sender : Bytes)
    (action : Action) (names : NamesAccounts sender action) :
    hnbSum (h.act .hnb sender action) ≡ hnbSum h [ZMOD 2 ^ 64] := by
  cases action with
  | same hx => exact hnbSum_move hf hx sender names.1 names.2
  | vote vi => exact hnbSum_vote hf vi names.2
  | unfreeze epochNo => exact hnbSum_unfreeze hf epochNo (recs epochNo)
  | diff hx => exact names.elim
  | idle => exact names.elim

/-- Votes are recorded of accounts only. -/
theorem recordsName_act (recs : RecordsName h) (sender : Bytes) (action : Action)
    (names : NamesAccounts sender action) : RecordsName (h.act .hnb sender action) := by
  intro epoch entry hm
  cases action with
  | same hx => exact recs epoch entry hm
  | vote vi =>
    by_cases same : epoch = vi.voteEpoch
    · subst same
      simp only [act, vote, setRecs_recs, Function.update_self, List.mem_append,
        List.mem_singleton] at hm
      rcases hm with old | rfl
      · exact recs _ entry old
      · exact names.2
    · simp only [act, vote, setRecs_recs, Function.update_of_ne same]
        at hm
      exact recs epoch entry hm
  | unfreeze epochNo =>
    by_cases same : epoch = epochNo
    · subst same
      simp [act, unfreeze] at hm
    · simp only [act, unfreeze, setBal_recs, setRecs_recs, Function.update_of_ne same,
        pay_recs] at hm
      exact recs epoch entry hm
  | diff hx => exact names.elim
  | idle => exact names.elim

/-- A successful transaction of the HNB contract that names accounts only. -/
def Step (w : World) (tx : Transaction) (w' : World) : Prop :=
  getHandler tx.contractName = .ok .hnb ∧
    (∃ action, decodeAction .hnb tx.payload = .ok action ∧ NamesAccounts tx.fromAddr.val action) ∧
    runFlat (invoke (contractApi .hnb tx)) w = (.ok (), w')

inductive Run : World → List Transaction → World → Prop
  | nil (w : World) : Run w [] w
  | cons {w middle w' : World} {tx : Transaction} {rest : List Transaction} :
    Step w tx middle → Run middle rest w' → Run w (tx :: rest) w'

theorem hnbSum_step {w w' : World} {tx : Transaction} (step : Step w tx w')
    (recs : RecordsName (holdings (find w))) :
    hnbSum (holdings (find w')) ≡ hnbSum (holdings (find w)) [ZMOD 2 ^ 64] ∧
    RecordsName (holdings (find w')) := by
  obtain ⟨_, ⟨action, hde, names⟩, done⟩ := step
  obtain ⟨action', decoded', _, haf⟩ := invoke_holdings Memory.flat (contractApi .hnb tx) done
  change decodeAction .hnb tx.payload = .ok action' at decoded'
  rw [hde] at decoded'
  cases decoded'
  change holdings (find w') = (holdings (find w)).act .hnb tx.fromAddr.val action at haf
  rw [haf]
  exact ⟨hnbSum_act (holdings_finite w) recs _ action names, recordsName_act recs _ action names⟩

/-- Along every run, HNB is conserved modulo 2^64. -/
theorem conserved {w w' : World} {txs : List Transaction} (run : Run w txs w')
    (recs : RecordsName (holdings (find w))) :
    hnbSum (holdings (find w')) ≡ hnbSum (holdings (find w)) [ZMOD 2 ^ 64] := by
  induction run with
  | nil w => exact Int.ModEq.refl _
  | cons step _ ih =>
    obtain ⟨same, recs'⟩ := hnbSum_step step recs
    exact (ih recs').trans same

theorem foundersPayment_step : ∃ w', Step genesis foundersPayment w' := by
  have founderApart : ¬ VoteKey founder.val := fun hvo =>
    absurd hvo.head (by decide)
  have receiverApart : ¬ VoteKey [7] := fun hvo => absurd hvo.head (by decide)
  have hde : decodeAction .hnb foundersPayment.payload = .ok (.same ⟨[7], 5⟩) := by
    rw [foundersPayment, decodeAction_carrying]
  exact ⟨_, getHandler_carrying .hnb founder _, ⟨_, hde, founderApart, receiverApart⟩,
    eq_mk_of_fst foundersPayment_done⟩

theorem foundersPayment_conserved : ∃ w', Run genesis [foundersPayment] w' ∧
    hnbSum (holdings (find w')) ≡ hnbSum (holdings (find genesis)) [ZMOD 2 ^ 64] := by
  obtain ⟨w', step⟩ := foundersPayment_step
  have run : Run genesis [foundersPayment] w' := .cons step (.nil w')
  refine ⟨w', run, conserved run fun epoch entry hm => ?_⟩
  rw [genesis_recs] at hm
  cases hm

/-- A state with one recorded vote, which names the tally key of its own epoch. -/
def strayVote : World :=
  (∅ : World).insert (.hnb, Hnb.getEpochRecordKey 1)
    (encodeVoteRecords [some ⟨some (Hnb.getEpochKey 1), 5⟩])

def unfreezeFirst : Transaction := carrying .hnb payer (.unfreeze 1)

theorem strayVote_recs : recordsOf (find strayVote (.hnb, Hnb.getEpochRecordKey 1)) =
      some [some ⟨some (Hnb.getEpochKey 1), 5⟩] := by
  rw [strayVote, find_insert, if_pos rfl]
  exact decodeVoteRecords_encode _

theorem strayVote_absent (key : Key) (other : key ≠ (.hnb, Hnb.getEpochRecordKey 1)) :
    find strayVote key = none := by
  rw [strayVote, find_insert, if_neg other, find_empty]

theorem unfreezeFirst_step : ∃ w', Step strayVote unfreezeFirst w' := by
  have payerApart : ¬ VoteKey payer.val := fun hvo => absurd hvo.head (by decide)
  have hde : decodeAction .hnb unfreezeFirst.payload = .ok (.unfreeze 1) := by
    rw [unfreezeFirst, decodeAction_carrying]
  have done : (runFlat (invoke (contractApi .hnb unfreezeFirst)) strayVote).1 = .ok () :=
    by decide +kernel
  exact ⟨_, getHandler_carrying .hnb payer _, ⟨_, hde, payerApart⟩, eq_mk_of_fst done⟩

theorem strayVote_holdings : (∀ key, (holdings (find strayVote)).bal key = 0) ∧
      (holdings (find strayVote)).recs 1 = [some ⟨some (Hnb.getEpochKey 1), 5⟩] := by
  constructor
  · intro key
    by_cases same : key = (.hnb, Hnb.getEpochRecordKey 1)
    · rw [same]
      exact clippedAmount_of_recordsOf strayVote_recs
    · change clippedAmount (find strayVote key) = 0
      rw [strayVote_absent key same, clippedAmount]
  · simp only [holdings, strayVote_recs, Option.getD_some]

/-- A run of one UNFREEZE that loses 5, whichever keys count as accounts: the vote is paid under the
tally key, which is then deleted. -/
theorem strayVote_lost : ∃ w', Run strayVote [unfreezeFirst] w' ∧ ∀ counted : Set Key,
    ¬ (holdings (find w')).held counted + (holdings (find w')).recorded ≡
      (holdings (find strayVote)).held counted + (holdings (find strayVote)).recorded
      [ZMOD 2 ^ 64] := by
  obtain ⟨w', step⟩ := unfreezeFirst_step
  refine ⟨w', .cons step (.nil w'), fun counted => ?_⟩
  obtain ⟨_, _, done⟩ := step
  obtain ⟨action, hde, _, haf⟩ :=
    invoke_holdings Memory.flat (contractApi .hnb unfreezeFirst) done
  change decodeAction .hnb unfreezeFirst.payload = .ok action at hde
  rw [unfreezeFirst, decodeAction_carrying, Except.ok.injEq] at hde
  subst hde
  obtain ⟨he, recs⟩ := strayVote_holdings
  have hd := recorded_unfreeze (holdings (find strayVote)) 1
  rw [recs, show listed [some ⟨some (Hnb.getEpochKey 1), 5⟩] = 5 by decide] at hd
  have balances : ((holdings (find strayVote)).unfreeze 1).held counted =
      (holdings (find strayVote)).held counted := by
    refine (Amounts.total_update_zero counted _ (.hnb, Hnb.getEpochKey 1)).trans ?_
    simp only [setRecs_bal, recs]
    refine (held_credit_of_notMem (holdings (find strayVote)) (by simp [recordAccount]) 5).trans ?_
    refine (Amounts.total_update_zero counted _ (.hnb, Hnb.getEpochKey 1)).symm.trans ?_
    rw [Function.update_eq_self_iff.mpr (he _).symm]
    rfl
  change holdings (find w') = (holdings (find strayVote)).unfreeze 1 at haf
  rw [haf, balances, hd, Int.ModEq]
  omega

end HNBChain.Audit.Guarantees.Conservation
