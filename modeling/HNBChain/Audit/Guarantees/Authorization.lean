import HNBChain.Audit.Source.Payload
import HNBChain.Audit.Spec.Holdings
import HNBChain.Lib.Amounts

/-!
# Who may change whose holdings

A transaction of account `A` should neither lower a balance of another account nor add or remove a
vote recorded as coming from another account. The contracts do not check that. Amounts are signed,
so a SAME or DIFF with a negative amount takes from the receiver; a VOTE names its own `fromAddr`;
an UNFREEZE pays out and drops the votes of everybody.

`untouched_iff_permitted` says exactly which successful transactions leave the others alone, for
every state and every payload.
-/
namespace HNBChain.Audit.Guarantees.Authorization

open Lib Lib.Amounts Source Spec Holdings Function

/-- The votes recorded in an epoch as coming from an account. -/
def votesFrom (h : Holdings) (epoch : UInt64) (account : Bytes) : VoteRecords :=
  (h.recs epoch).filter fun entry => entry.isSome ∧ recordAccount entry = account

/-- No other account has a lower balance or different recorded votes than before. -/
structure Untouched (sender : Bytes) (h h' : Holdings) : Prop where
  bal : ∀ chain other, other ≠ sender → h.bal (chain, other) ≤ h'.bal (chain, other)
  votes : ∀ epoch other, other ≠ sender → votesFrom h' epoch other = votesFrom h epoch other

def Permits (h : Holdings) (chain : ChainID) (sender : Bytes) : Action → Prop
  | .same hx => NoLoss (h.bal (chain, hx.outputAddr)) hx.amount
  | .diff hx => hx.outputAddr = sender ∨ NoLoss (h.bal (chain.other, hx.outputAddr)) hx.amount
  | .vote vi => vi.fromAddr = some sender
  | .unfreeze epochNo =>
    (∀ entry ∈ h.recs epochNo, recordAccount entry = sender) ∧
      (Hnb.getEpochKey epochNo = sender ∨ h.bal (.hnb, Hnb.getEpochKey epochNo) ≤ 0)
  | .idle => True

variable (h : Holdings)

/-- A transfer to another account leaves the others alone when it takes nothing from the
receiver. -/
theorem untouched_move_iff (t : Transfer) (chain : ChainID) (sender : Bytes)
    (src : t.src = (chain, sender)) (hdi : t.src ≠ t.dst) :
    Untouched sender h (h.move t) ↔ t.dst.2 = sender ∨ NoLoss (h.bal t.dst) t.credit := by
  have hr : (h.move t).bal t.dst = h.bal t.dst + t.credit := by
    simp [move, update_of_ne hdi.symm]
  have ho : ∀ key, key ≠ t.src → key ≠ t.dst → (h.move t).bal key = h.bal key := by
    intro key notSrc notDst
    simp [move, update_of_ne notSrc, update_of_ne notDst]
  constructor
  · intro hu
    by_cases own : t.dst.2 = sender
    · exact .inl own
    · have kept := hu.bal t.dst.1 t.dst.2 own
      rw [Prod.mk.eta, hr] at kept
      exact .inr ((le_add_iff_noLoss _ _).mp kept)
  · intro fair
    refine ⟨fun chain' other hd => ?_, fun epoch other _ => rfl⟩
    by_cases same : (chain', other) = t.dst
    · rw [same, hr]
      refine (le_add_iff_noLoss _ _).mpr (fair.resolve_left ?_)
      rw [← same]
      exact hd
    · rw [ho _ (by rw [src]; simp [hd]) same]
      exact Int64.le_refl _

theorem untouched_vote_iff (vi : VoteInfo) (sender : Bytes)
    (hn : vi.fromAddr.isSome) : Untouched sender h (h.vote vi) ↔ vi.fromAddr = some sender := by
  obtain ⟨fromAddr, payer⟩ := Option.isSome_iff_exists.mp hn
  constructor
  · intro hu
    by_contra other
    have hd : fromAddr ≠ sender := by
      intro same
      exact other (by rw [payer, same])
    have kept := hu.votes vi.voteEpoch fromAddr hd
    simp [votesFrom, vote, payer, recordAccount] at kept
  · intro own
    refine ⟨fun chain other hd => ?_, fun epoch other hd => ?_⟩
    · have hap : (chain, other) ≠ (ChainID.hnb, sender) := by simp [hd]
      simp [vote, own, update_of_ne hap]
    · by_cases same : epoch = vi.voteEpoch
      · subst same
        simp [votesFrom, vote, own, recordAccount, hd.symm]
      · simp [votesFrom, vote, update_of_ne same]

theorem untouched_unfreeze_iff (epochNo : UInt64) (sender : Bytes)
    (hw : ∀ entry ∈ h.recs epochNo, entry.isSome) : Untouched sender h (h.unfreeze epochNo) ↔
      (∀ entry ∈ h.recs epochNo, recordAccount entry = sender) ∧
        (Hnb.getEpochKey epochNo = sender ∨ h.bal (.hnb, Hnb.getEpochKey epochNo) ≤ 0) := by
  constructor
  · intro hu
    constructor
    · intro entry hm
      by_contra hd
      have kept := hu.votes epochNo (recordAccount entry) hd
      have hl : entry ∈ votesFrom h epochNo (recordAccount entry) := by
        simp [votesFrom, hm, hw entry hm]
      rw [← kept] at hl
      simp [votesFrom, unfreeze] at hl
    · by_cases own : Hnb.getEpochKey epochNo = sender
      · exact .inl own
      · have kept := hu.bal .hnb (Hnb.getEpochKey epochNo) own
        simp only [unfreeze, setBal_bal, update_self] at kept
        exact .inr kept
  · rintro ⟨own, drained⟩
    refine ⟨fun chain other hd => ?_, fun epoch other hd => ?_⟩
    · by_cases same : (chain, other) = (ChainID.hnb, Hnb.getEpochKey epochNo)
      · rw [same]
        simp only [unfreeze, setBal_bal, update_self]
        refine drained.resolve_left fun isSender => hd ?_
        rw [← isSender]
        exact (Prod.mk.inj same).2
      · have unpaid := pay_bal_of_notMem (h.recs epochNo) h (chain, other) (by
          intro entry hm paid
          exact hd ((Prod.mk.inj paid).2.symm.trans (own entry hm)))
        simp [unfreeze, update_of_ne same, unpaid]
    · by_cases same : epoch = epochNo
      · subst same
        have none : votesFrom h epoch other = [] := by
          refine List.filter_eq_nil_iff.mpr fun entry hm => ?_
          simp [own entry hm, hd.symm]
        simp [votesFrom, unfreeze] at none ⊢
        exact none
      · simp [votesFrom, unfreeze, update_of_ne same]

theorem untouched_act_iff (chain : ChainID) (sender : Bytes) (action : Action)
    (ha : h.Admits chain sender action) :
    Untouched sender h (h.act chain sender action) ↔ Permits h chain sender action := by
  cases action with
  | same hx =>
    have hdi : (hx.transfer chain sender).src ≠ (hx.transfer chain sender).dst := by
      simpa [SameTx.transfer] using ha.1
    refine (untouched_move_iff h _ chain sender rfl hdi).trans (or_iff_right ?_)
    exact ha.1.symm
  | diff hx =>
    refine untouched_move_iff h (hx.transfer chain sender) chain sender rfl ?_
    cases chain <;> simp [DiffTx.transfer, ChainID.other]
  | vote vi => exact untouched_vote_iff h vi sender ha.2.2.1
  | unfreeze epochNo => exact untouched_unfreeze_iff h epochNo sender ha.2
  | idle => exact iff_of_true ⟨fun _ _ _ => Int64.le_refl _, fun _ _ _ => rfl⟩ trivial

/-- The payload asks for an action that takes nothing from another account. -/
def Permitted (ca : ContractApi) (h : Holdings) : Prop :=
  ∀ action, decodeAction ca.chainID ca.args = .ok action →
    Permits h ca.chainID ca.fromAddr.val action

/-- On any memory, so also above the pending changes of a block. -/
theorem untouched_iff_permitted {σ : Type} (m : Memory Key Bytes σ) (ca : ContractApi) (s s' : σ)
    (done : runOn m (invoke ca) s = (.ok (), s')) :
    Untouched ca.fromAddr.val (holdings (m.look s)) (holdings (m.look s')) ↔
    Permitted ca (holdings (m.look s)) := by
  obtain ⟨action, hde, ha, haf⟩ := invoke_holdings m ca done
  rw [haf, untouched_act_iff _ _ _ _ ha]
  constructor
  · intro permits action' decoded'
    rw [hde] at decoded'
    cases decoded'
    exact permits
  · intro permitted
    exact permitted action hde

/-- The founder pays five, and nobody else has less. -/
theorem foundersPayment_untouched : Untouched founder.val (holdings (find genesis))
    (holdings (find (runFlat (invoke (contractApi .hnb foundersPayment)) genesis).2)) := by
  obtain ⟨w', done⟩ : ∃ w', runFlat (invoke (contractApi .hnb foundersPayment)) genesis =
      (.ok (), w') :=
    ⟨_, eq_mk_of_fst foundersPayment_done⟩
  rw [done]
  refine (untouched_iff_permitted Memory.flat
    (contractApi .hnb foundersPayment) genesis w' done).mpr ?_
  intro action hde
  rw [decodeAction_foundersPayment hde]
  change NoLoss ((holdings (find genesis)).bal (.hnb, [7])) 5
  rw [genesis_bal, if_neg (by decide)]
  decide

/-- A payment to the founder by an account that holds nothing at first. -/
def payFounder (amount : Int64) : Transaction := carrying .hnb payer (.same ⟨founder.val, amount⟩)

/-- From the installed state, an account that holds nothing sends -5 to the founder and has taken
5. -/
theorem payFounder_negative_takes :
    (runFlat (invoke (contractApi .hnb (payFounder (-5)))) genesis).1 = .ok () ∧
      (holdings (find genesis)).bal (.hnb, founder.val) = 10000000 ∧
      (holdings (find (runFlat (invoke (contractApi .hnb (payFounder (-5)))) genesis).2)).bal
        (.hnb, founder.val) = 9999995 ∧ ¬ Untouched payer.val (holdings (find genesis))
        (holdings (find (runFlat (invoke (contractApi .hnb (payFounder (-5)))) genesis).2)) := by
  have hb : (holdings (find genesis)).bal (.hnb, founder.val) = 10000000 := by decide +kernel
  have haf : (holdings
    (find (runFlat (invoke (contractApi .hnb (payFounder (-5)))) genesis).2)).bal
      (.hnb, founder.val) = 9999995 := by decide +kernel
  refine ⟨by decide +kernel, hb, haf, fun hu => ?_⟩
  have kept := hu.bal .hnb founder.val (by decide)
  rw [hb, haf] at kept
  exact absurd kept (by decide)

end HNBChain.Audit.Guarantees.Authorization
