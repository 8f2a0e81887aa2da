import HNBChain.Audit.Source.Payload
import HNBChain.Audit.Spec.Supply

/-!
# No token out of nothing

The supply of HNB is all balances plus all recorded votes, the supply of HGS all balances. A DIFF
debits `inAmount` of one token and credits `amount` of the other, and nothing relates the two, so an
account that holds nothing can create any amount. `supply_le` says which transactions cannot raise a
supply: it covers every sequence of transactions, failing ones included, and every sender.
-/
namespace HNBChain.Audit.Guarantees.NoMinting

open Lib Lib.Amounts Source Spec Holdings

def onChain (token : ChainID) : Set Key := {key | key.1 = token}

noncomputable def supply (h : Holdings) : ChainID → Int
  | .hnb => h.held (onChain .hnb) + h.recorded
  | .hgs => h.held (onChain .hgs)

/-- What the sender asks for cannot raise a supply: a credit does not underflow, an exchange takes
no negative amount and gives no positive one, a vote that may lose its record is not negative, and
the votes to be paid out are not negative, go to readable accounts and leave no debt under the tally
key. -/
def Sound (look : Key → Option Bytes) (chain : ChainID) : Action → Prop
  | .same hx =>
    -2 ^ 63 ≤ ((holdings look).bal (chain, hx.outputAddr)).toInt + hx.amount.toInt
  | .diff hx =>
    0 ≤ hx.inAmount ∧ hx.amount ≤ 0 ∧
      -2 ^ 63 ≤ ((holdings look).bal (chain.other, hx.outputAddr)).toInt + hx.amount.toInt
  | .vote vi =>
    0 ≤ vi.votingPower ∨ (recordsOf (look (.hnb, Hnb.getEpochRecordKey vi.voteEpoch))).isSome
  | .unfreeze epochNo =>
    (∀ entry ∈ (holdings look).recs epochNo,
      0 ≤ recordPower entry ∧ (amountOf (look (.hnb, recordAccount entry))).isSome) ∧
      0 ≤ (holdings look).bal (.hnb, Hnb.getEpochKey epochNo)
  | .idle => True

variable {h : Holdings}

theorem held_move_le (hf : h.Finite) (t : Transfer) (hd : t.src ≠ t.dst)
    (he : t.debit ≤ h.bal t.src) (fits : -2 ^ 63 ≤ (h.bal t.dst).toInt + t.credit.toInt)
    (token : ChainID) : (h.move t).held (onChain token) ≤ h.held
    (onChain token) - (if t.src.1 = token then t.debit.toInt else 0) +
      (if t.dst.1 = token then t.credit.toInt else 0) := by
  have hdb : (h.credit t.src (-t.debit)).held (onChain token) ≤
      h.held (onChain token) - (if t.src.1 = token then t.debit.toInt else 0) := by
    by_cases own : t.src.1 = token
    · rw [if_pos own]
      exact held_debit_le hf own he
    · rw [if_neg own, held_credit_of_notMem h (show t.src ∉ onChain token from own)]
      omega
  have hu : (h.credit t.src (-t.debit)).bal t.dst = h.bal t.dst := by
    simp [Function.update_of_ne hd.symm]
  rw [move]
  by_cases own : t.dst.1 = token
  · rw [← hu] at fits
    have credited := held_credit_le (hf.credit t.src (-t.debit))
      (show t.dst ∈ onChain token from own) fits
    rw [if_pos own]
    omega
  · rw [if_neg own, held_credit_of_notMem _ (show t.dst ∉ onChain token from own)]
    omega

theorem supply_move_le (hf : h.Finite) (t : Transfer) (hd : t.src ≠ t.dst)
    (he : t.debit ≤ h.bal t.src) (fits : -2 ^ 63 ≤ (h.bal t.dst).toInt + t.credit.toInt)
    (token : ChainID) :
    supply (h.move t) token ≤ supply h token - (if t.src.1 = token then t.debit.toInt else 0) +
      (if t.dst.1 = token then t.credit.toInt else 0) := by
  have hm := held_move_le hf t hd he fits token
  cases token with
  | hgs => exact hm
  | hnb =>
    have votes : (h.move t).recorded = h.recorded := rfl
    simp only [supply, votes]
    omega

theorem supply_same_le (hf : h.Finite) (chain : ChainID) (sender : Bytes)
    (hx : SameTx) (ha : h.Admits chain sender (.same hx))
    (fits : -2 ^ 63 ≤ (h.bal (chain, hx.outputAddr)).toInt + hx.amount.toInt) (token : ChainID) :
    supply (h.move (hx.transfer chain sender)) token ≤ supply h token := by
  have hm := supply_move_le hf (hx.transfer chain sender)
    (by simpa [SameTx.transfer] using ha.1) ha.2 fits token
  have cancels : (if (hx.transfer chain sender).src.1 = token
      then (hx.transfer chain sender).debit.toInt else 0) =
      if (hx.transfer chain sender).dst.1 = token
      then (hx.transfer chain sender).credit.toInt else 0 := rfl
  omega

theorem supply_diff_le (hf : h.Finite) (chain : ChainID) (sender : Bytes)
    (hx : DiffTx) (ha : h.Admits chain sender (.diff hx)) (takes : 0 ≤ hx.inAmount)
    (gives : hx.amount ≤ 0)
    (fits : -2 ^ 63 ≤ (h.bal (chain.other, hx.outputAddr)).toInt + hx.amount.toInt)
    (token : ChainID) : supply (h.move (hx.transfer chain sender)) token ≤ supply h token := by
  have hm := supply_move_le hf (hx.transfer chain sender)
    (by cases chain <;> simp [DiffTx.transfer, ChainID.other]) ha fits token
  have ht := Int64.le_iff_toInt_le.mp takes
  have hg := Int64.le_iff_toInt_le.mp gives
  rw [Int64.toInt_zero] at ht hg
  have debit : 0 ≤ if (hx.transfer chain sender).src.1 = token
      then (hx.transfer chain sender).debit.toInt else 0 := by
    split
    · exact ht
    · exact le_refl 0
  have credit : (if (hx.transfer chain sender).dst.1 = token
      then (hx.transfer chain sender).credit.toInt else 0) ≤ 0 := by
    split
    · exact hg
    · exact le_refl 0
  omega

theorem supply_vote_le (hf : h.Finite) (vi : VoteInfo)
    (he : vi.votingPower ≤ h.bal (.hnb, vi.fromAddr.getD [])) (token : ChainID) :
    supply (h.vote vi) token ≤ supply h token := by
  cases token with
  | hgs => exact le_of_eq (held_credit_of_notMem h (by simp [onChain]) _)
  | hnb =>
    have hdb := held_debit_le hf
      (show ((.hnb, vi.fromAddr.getD []) : Key) ∈ onChain .hnb from rfl) he
    have had := recorded_vote h vi
    have balances : (h.vote vi).held (onChain .hnb) =
        (h.credit (.hnb, vi.fromAddr.getD []) (-vi.votingPower)).held (onChain .hnb) := rfl
    simp only [supply, had, balances]
    omega

/-- A debit that is not negative. -/
theorem supply_debit_le (hf : h.Finite) (account : Bytes) (amount : Int64)
    (he : amount ≤ h.bal (.hnb, account)) (hp : 0 ≤ amount) (token : ChainID) :
    supply (h.credit (.hnb, account) (-amount)) token ≤ supply h token := by
  cases token with
  | hgs => exact le_of_eq (held_credit_of_notMem h (by simp [onChain]) _)
  | hnb =>
    have hdb := held_debit_le hf
      (show ((.hnb, account) : Key) ∈ onChain .hnb from rfl) he
    have ht := Int64.le_iff_toInt_le.mp hp
    rw [Int64.toInt_zero] at ht
    simp only [supply, recorded_credit]
    omega

theorem supply_unfreeze_le (hf : h.Finite) (epochNo : UInt64)
    (hp : ∀ entry ∈ h.recs epochNo, 0 ≤ recordPower entry)
    (noDebt : 0 ≤ h.bal (.hnb, Hnb.getEpochKey epochNo)) (token : ChainID) :
    supply (h.unfreeze epochNo) token ≤ supply h token := by
  -- The tally key is emptied at the end, so it is left out of the sum of what is paid.
  have paid : ∀ counted, (h.unfreeze epochNo).held counted ≤
      h.held (counted \ {(.hnb, Hnb.getEpochKey epochNo)}) + listed (h.recs epochNo) := by
    intro counted
    have emptied := total_update_zero counted (pay (h.recs epochNo) h).bal
      (.hnb, Hnb.getEpochKey epochNo)
    exact emptied.le.trans (held_pay_le hf (h.recs epochNo) hp)
  cases token with
  | hgs =>
    have ho : ∀ entry : Option VoteRecord,
        ((.hnb, recordAccount entry) : Key) ∉ onChain .hgs := by
      simp [onChain]
    have unpaid : ∀ (vrs : VoteRecords) (g : Holdings),
        (pay vrs g).held (onChain .hgs) = g.held (onChain .hgs) := by
      intro vrs
      induction vrs with
      | nil => exact fun _ => rfl
      | cons entry rest ih =>
        exact fun g => (ih _).trans (held_credit_of_notMem g (ho entry) _)
    exact le_of_eq ((total_update_of_notMem _ (by simp [onChain]) 0).trans (unpaid _ h))
  | hnb =>
    have all := paid (onChain .hnb)
    have without : h.held (onChain .hnb \ {(.hnb, Hnb.getEpochKey epochNo)}) =
        h.held (onChain .hnb) - (h.bal (.hnb, Hnb.getEpochKey epochNo)).toInt :=
      total_diff_singleton hf rfl
    have hdr := recorded_unfreeze h epochNo
    have debt := Int64.le_iff_toInt_le.mp noDebt
    rw [Int64.toInt_zero] at debt
    simp only [supply, hdr]
    omega

/-- A successful call. -/
theorem supply_act_le {look : Key → Option Bytes} (hf : (holdings look).Finite)
    (chain : ChainID) (sender : Bytes) (action : Action)
    (ha : (holdings look).Admits chain sender action) (hs : Sound look chain action)
    (token : ChainID) :
    supply ((holdings look).act chain sender action) token ≤ supply (holdings look) token := by
  cases action with
  | same hx => exact supply_same_le hf chain sender hx ha hs token
  | diff hx =>
    exact supply_diff_le hf chain sender hx ha hs.1 hs.2.1 hs.2.2 token
  | vote vi => exact supply_vote_le hf vi ha.2.2.2.2.2 token
  | unfreeze epochNo =>
    exact supply_unfreeze_le hf epochNo
      (fun entry hme => (hs.1 entry hme).1) hs.2 token
  | idle => exact le_refl _

/-- A call, whatever it returns. -/
theorem supply_call_le (w w' : World) (ca : ContractApi) (result : Except Err Unit)
    (ran : runFlat (invoke ca) w = (result, w')) (hrt : result ≠ .error .panic)
    (hs : ∀ action, decodeAction ca.chainID ca.args = .ok action →
      Sound (find w) ca.chainID action) (token : ChainID) :
    supply (holdings (find w')) token ≤ supply (holdings (find w)) token := by
  have hf := holdings_finite w
  cases result with
  | ok =>
    obtain ⟨action, hde, ha, haf⟩ := invoke_holdings Memory.flat ca ran
    change holdings (find w') = (holdings (find w)).act _ _ _ at haf
    rw [haf]
    exact supply_act_le hf _ _ action ha (hs action hde) token
  | error e =>
    have notPanic : e ≠ .panic := fun same => hrt (by rw [same])
    rcases invoke_error_holdings Memory.flat ca ran notPanic with
      kept | ⟨vi, hde, ha, unreadable, haf⟩ |
      ⟨epochNo, front, blocked, back, hde, listed, unreadable⟩
    · exact le_of_eq (congrArg (supply · token) kept)
    · change holdings (find w') = (holdings (find w)).credit _ _ at haf
      rw [haf]
      refine supply_debit_le hf _ _ ha.2.2.2.2.2 ?_ token
      refine (hs _ hde).resolve_right fun hr => ?_
      change recordsOf (find w _) = none at unreadable
      rw [unreadable] at hr
      cases hr
    · have hn : some blocked ∈ (holdings (find w)).recs epochNo := by
        change some blocked ∈ (holdings (Memory.flat.look w)).recs epochNo
        rw [listed]
        simp
      have hr := ((hs _ hde).1 _ hn).2
      change amountOf (find w _) = none at unreadable
      rw [unreadable] at hr
      cases hr

/-- The condition on a transaction, in the state it is executed in. -/
def SoundTx (w : World) (tx : Transaction) : Prop :=
  ∀ chain action, getHandler tx.contractName = .ok chain →
    decodeAction chain tx.payload = .ok action → Sound (find w) chain action

theorem supply_processAlone_le (w : World) (tx : Transaction) (hs : SoundTx w tx)
    (token : ChainID) :
    supply (holdings (find (processAlone w tx))) token ≤ supply (holdings (find w)) token := by
  rcases processAlone_cases w tx with same | ⟨chain, result, hre, hrt, ran⟩
  · rw [same]
  · exact supply_call_le w _ (contractApi chain tx) result ran hrt
      (fun action hde => hs chain action hre hde) token

/-- Every transaction meets the condition in the state it is executed in. -/
def AllSound : World → List Transaction → Prop
  | _, [] => True
  | w, tx :: rest => SoundTx w tx ∧ AllSound (processAlone w tx) rest

/-- Over any sequence of such transactions neither supply grows, whoever the senders are. -/
theorem supply_le (w : World) (txs : List Transaction) (hs : AllSound w txs) (token : ChainID) :
    supply (holdings (find (txs.foldl processAlone w))) token ≤
      supply (holdings (find w)) token := by
  induction txs generalizing w with
  | nil => exact le_refl _
  | cons tx rest ih =>
    exact (ih _ hs.2).trans (supply_processAlone_le w tx hs.1 token)

theorem payment_supply_le :
    supply (holdings (find ([foundersPayment, foundersPayment].foldl processAlone genesis))) .hnb ≤
      supply (holdings (find genesis)) .hnb := by
  have hs : ∀ w, SoundTx w foundersPayment := by
    intro w chain action hre hde
    rw [foundersPayment, getHandler_carrying] at hre
    cases hre
    rw [decodeAction_foundersPayment hde]
    have low := ((holdings (find w)).bal (.hnb, [7])).le_toInt
    change -2 ^ 63 ≤ ((holdings (find w)).bal (.hnb, [7])).toInt + (5 : Int64).toInt
    have five : (5 : Int64).toInt = 5 := by decide
    omega
  exact supply_le genesis [foundersPayment, foundersPayment] ⟨hs _, hs _, trivial⟩ .hnb

/-- An exchange of no HNB for 5 HGS. -/
def mint : Transaction := carrying .hnb payer (.diff ⟨[7], 5, 0⟩)

theorem mint_succeeds : ∃ w', runFlat (invoke (contractApi .hnb mint)) genesis = (.ok (), w') ∧
    processAlone genesis mint = w' := by
  have done : (runFlat (invoke (contractApi .hnb mint)) genesis).1 = .ok () := by decide +kernel
  exact ⟨_, eq_mk_of_fst done, processAlone_ok (getHandler_carrying .hnb payer _)
    (eq_mk_of_fst done)⟩

/-- From the installed state, an account without HNB, HGS and votes makes 5 HGS. -/
theorem mint_raises_supply : (∀ chain, (holdings (find genesis)).bal (chain, payer.val) = 0) ∧
      (∀ epoch, (holdings (find genesis)).recs epoch = []) ∧
      supply (holdings (find (processAlone genesis mint))) .hgs =
        supply (holdings (find genesis)) .hgs + 5 := by
  refine ⟨fun chain => ?_, genesis_recs, ?_⟩
  · rw [genesis_bal, if_neg (by decide)]
  · obtain ⟨w', done, hal⟩ := mint_succeeds
    obtain ⟨action, hde, _, haf⟩ := invoke_holdings Memory.flat (contractApi .hnb mint) done
    simp only [contractApi, mint, carrying, decodeAction_encode, Except.ok.injEq] at hde
    subst hde
    change holdings (find w') = (holdings (find genesis)).move _ at haf
    have hdb : ((holdings (find genesis)).credit (.hnb, payer.val) (-0)).held (onChain .hgs) =
        (holdings (find genesis)).held (onChain .hgs) :=
      held_credit_of_notMem _ (by simp [onChain]) _
    have credited := held_credit_of_mem ((holdings_finite genesis).credit (.hnb, payer.val) (-0))
      (show ((.hgs, [7]) : Key) ∈ onChain .hgs from rfl) 5
    have hu : ((holdings (find genesis)).credit (.hnb, payer.val) (-0)).bal
        (.hgs, [7]) = 0 := by
      rw [credit_bal, Function.update_of_ne (by simp), genesis_bal, if_neg (by decide)]
    rw [hu, hdb] at credited
    rw [hal, haf]
    refine credited.trans ?_
    rw [show ((0 : Int64) + 5).toInt = 5 by decide, Int64.toInt_zero, sub_zero]
    rfl

end HNBChain.Audit.Guarantees.NoMinting
