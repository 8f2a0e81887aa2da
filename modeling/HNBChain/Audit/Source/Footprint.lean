import HNBChain.Audit.Source.Effects

/-!
# The keys a call touches

Every call stays within a short list of keys that can be read off its arguments and, for UNFREEZE,
off the record list it finds.
-/
namespace HNBChain.Audit.Source

open Lib Memory Hnb

def touched (look : Key → Option Bytes) (chain : ChainID) (fromBytes : Bytes) : Action → List Key
  | .same hx => [(chain, fromBytes), (chain, hx.outputAddr)]
  | .diff hx => [(chain, fromBytes), (chain.other, hx.outputAddr)]
  | .vote vi =>
    [(chain, vi.fromAddr.getD []), (chain, getEpochKey vi.voteEpoch),
      (chain, getEpochRecordKey vi.voteEpoch)]
  | .unfreeze epochNo =>
    (chain, getEpochRecordKey epochNo) :: (chain, getEpochKey epochNo) ::
      ((recordsOf (look (chain, getEpochRecordKey epochNo))).getD []).map
        fun entry => (chain, recordAccount entry)
  | .idle => []

section

variable {σ : Type} (m : Memory Key Bytes σ) (F : Key → Prop)

@[simp] theorem confined_orReturn {α : Type} (r : Except Err α) (s : σ) :
    m.Confined F (orReturn r) s := by
  cases r <;> trivial

@[simp] theorem confined_unmarshal {α : Type} (decoded : Option α) (s : σ) :
    m.Confined F (unmarshal decoded) s := by
  cases decoded <;> trivial

@[simp] theorem confined_parseAmount (text : Bytes) (s : σ) :
    m.Confined F (parseAmount text) s := by
  unfold parseAmount
  split <;> trivial

variable (ca : ContractApi)

@[simp] theorem confined_getBalance (addr : Bytes) (s : σ) :
    m.Confined F (getBalance ca addr) s ↔ F (ca.chainID, addr) := by
  unfold getBalance ContractApi.getState
  rw [confined_bind, confined_read]
  refine and_iff_left fun a s' _ => ?_
  rw [confined_bind]
  refine ⟨confined_orReturn m F a s', fun stored s'' _ => ?_⟩
  cases stored <;> simp

variable (chain : ChainID)

@[simp] theorem confined_getOtherStateBalance (addr : Bytes)
    (s : σ) : m.Confined F (getOtherStateBalance ca chain addr) s ↔ F (chain, addr) := by
  unfold getOtherStateBalance ContractApi.getOtherState
  rw [confined_bind, confined_read]
  refine and_iff_left fun a s' _ => ?_
  rw [confined_bind]
  refine ⟨confined_orReturn m F a s', fun stored s'' _ => ?_⟩
  cases stored <;> simp

@[simp] theorem confined_setBalance (addr : Bytes) (amount : Int64) (s : σ) :
    m.Confined F (setBalance ca addr amount) s ↔ F (ca.chainID, addr) :=
  m.confined_write F _ _ s

@[simp] theorem confined_getState (key : Bytes) (s : σ) :
    m.Confined F (ca.getState key) s ↔ F (ca.chainID, key) := m.confined_read F _ s

@[simp] theorem confined_putState (key value : Bytes) (s : σ) :
    m.Confined F (ca.putState key value) s ↔ F (ca.chainID, key) := m.confined_write F _ _ s

@[simp] theorem confined_delState (key : Bytes) (s : σ) :
    m.Confined F (ca.delState key) s ↔ F (ca.chainID, key) := m.confined_delete F _ s

@[simp] theorem confined_getOtherState (key : Bytes) (s : σ) :
    m.Confined F (ca.getOtherState chain key) s ↔ F (chain, key) := m.confined_read F _ s

@[simp] theorem confined_putOtherState (key value : Bytes)
    (s : σ) : m.Confined F (ca.putOtherState chain key value) s ↔ F (chain, key) :=
  m.confined_write F _ _ s

theorem confined_hnb_samePro (hx : SameTx) (s : σ)
    (src : F (ca.chainID, ca.fromAddr.val)) (dst : F (ca.chainID, hx.outputAddr)) :
    m.Confined F (samePro ca hx) s := by
  unfold samePro
  by_cases same : ca.fromAddr.val = hx.outputAddr
  · simp [same, confined_bind]
  · simp only [same, if_false, confined_bind, confined_getBalance, src, true_and]
    intro a s' _
    by_cases low : a < hx.amount <;> simp [low, confined_bind, src, dst]

theorem confined_hnb_diffPro (hx : DiffTx) (s : σ)
    (src : F (ca.chainID, ca.fromAddr.val)) (dst : F (.hgs, hx.outputAddr)) :
    m.Confined F (diffPro ca hx) s := by
  unfold diffPro setOtherStateBalance
  simp only [confined_bind, confined_getBalance, src, true_and]
  intro a s' _
  by_cases low : a < hx.inAmount <;> simp [low, confined_bind, src, dst]

theorem confined_hgs_samePro (hx : SameTx) (s : σ)
    (src : F (ca.chainID, ca.fromAddr.val)) (dst : F (ca.chainID, hx.outputAddr)) :
    m.Confined F (Hgs.samePro ca hx) s := by
  unfold Hgs.samePro
  by_cases same : ca.fromAddr.val = hx.outputAddr
  · simp [same, confined_bind]
  · simp only [same, if_false, confined_bind, confined_getState, confined_orReturn, src, true_and]
    intro answer s' _ stored t _
    cases stored with
    | none => simp
    | some text =>
      simp only [confined_bind, confined_parseAmount, true_and]
      intro a t' _
      by_cases low : a < hx.amount <;> simp [low, confined_bind, src, dst]

theorem confined_hgs_diffPro (hx : DiffTx) (s : σ)
    (src : F (ca.chainID, ca.fromAddr.val)) (dst : F (.hnb, hx.outputAddr)) :
    m.Confined F (Hgs.diffPro ca hx) s := by
  unfold Hgs.diffPro
  simp only [confined_bind, confined_getState, confined_orReturn, src, true_and]
  intro answer s' _ stored t _
  cases stored with
  | none => simp
  | some text =>
    simp only [confined_bind, confined_parseAmount, true_and]
    intro a t' _
    by_cases low : a < hx.inAmount
    · simp [low, confined_bind]
    · simp only [low, if_false, confined_bind, confined_getOtherState,
        confined_orReturn, dst, true_and]
      intro answer' u _ output u' _
      cases output <;> simp [confined_bind, src, dst]

theorem confined_saveTokenTotal (vi : VoteInfo) (s : σ)
    (account : F (ca.chainID, vi.fromAddr.getD []))
    (ht : F (ca.chainID, getEpochKey vi.voteEpoch)) :
    m.Confined F (saveTokenTotal ca vi) s := by
  rcases vi with ⟨_ | fromAddr, _ | candidate, power, epoch⟩ <;> try simp [saveTokenTotal]
  simp only [Option.getD_some] at account
  by_cases invalid : power = 0 ∨ epoch = 0
  · simp [invalid, confined_bind]
  · simp only [invalid, if_false, confined_bind, confined_getState, confined_orReturn,
      account, true_and]
    intro answer s' _ stored t _
    cases stored with
    | none => simp
    | some text =>
      simp only [confined_bind, confined_parseAmount, true_and]
      intro a t' _
      by_cases low : a < power
      · simp [low, confined_bind]
      · simp only [low, if_false, confined_bind, confined_getState, ht, true_and]
        intro answer' u _
        rcases answer' with e | voteRecord
        · simp
        · simp only [confined_bind]
          refine ⟨by cases voteRecord <;> simp [unmarshalTally], ?_⟩
          intro tally u' _
          cases tally <;> simp [confined_bind, account, ht]

theorem confined_saveTokenFromInfo (vi : VoteInfo) (s : σ)
    (hr : F (ca.chainID, getEpochRecordKey vi.voteEpoch)) :
    m.Confined F (saveTokenFromInfo ca vi) s := by
  unfold saveTokenFromInfo
  simp only [confined_bind, confined_getState, hr, true_and]
  intro answer t _
  rcases answer with e | voteRecord
  · simp
  · simp only [confined_bind]
    refine ⟨by cases voteRecord <;> simp [unmarshalRecords], ?_⟩
    intro records t' _
    simp [hr]

theorem confined_payBack (vrs : VoteRecords) (s : σ)
    (accounts : ∀ entry ∈ vrs, F (ca.chainID, recordAccount entry)) :
    m.Confined F (payBack ca vrs) s := by
  induction vrs generalizing s with
  | nil => simp [payBack]
  | cons entry rest ih =>
    rcases entry with _ | v
    · simp [payBack]
    · have account : F (ca.chainID, v.fromAddr.getD []) := accounts (some v) List.mem_cons_self
      simp only [payBack, confined_bind, confined_getBalance, confined_setBalance,
        account, true_and]
      intro _ _ _ _ t _
      exact ih t fun entry hm => accounts entry (List.mem_cons_of_mem _ hm)

theorem confined_unFreezePro (epochNo : UInt64) (s : σ)
    (hr : F (ca.chainID, getEpochRecordKey epochNo))
    (ht : F (ca.chainID, getEpochKey epochNo))
    (accounts : ∀ vrs, recordsOf (m.look s (ca.chainID, getEpochRecordKey epochNo)) = some vrs →
      ∀ entry ∈ vrs, F (ca.chainID, recordAccount entry)) :
    m.Confined F (unFreezePro ca epochNo) s := by
  unfold unFreezePro
  simp only [confined_bind, confined_getState, hr, true_and, runOn_getState, Prod.mk.injEq,
    Except.ok.injEq]
  rintro answer s' ⟨rfl, rfl⟩
  simp only [confined_bind, run_unmarshalRecords, Prod.mk.injEq]
  refine ⟨?_, ?_⟩
  · cases m.look s (ca.chainID, getEpochRecordKey epochNo) <;> simp [unmarshalRecords]
  · rintro vrs s' ⟨hd, rfl⟩
    cases listed : recordsOf (m.look s (ca.chainID, getEpochRecordKey epochNo)) with
    | none => simp [listed] at hd
    | some vrs' =>
      simp only [listed, Option.elim_some, Except.ok.injEq] at hd
      subst hd
      refine ⟨confined_payBack m F ca vrs' s (accounts vrs' listed), ?_⟩
      intro _ t _
      simp [hr, ht]

end

/-- A call stays within the keys it is said to touch. -/
theorem perform_confined {σ : Type} (m : Memory Key Bytes σ) (ca : ContractApi)
    (action : Action) (s : σ) :
    m.Confined (· ∈ touched (m.look s) ca.chainID ca.fromAddr.val action)
      (perform ca action) s := by
  cases action with
  | same hx =>
    cases chain : ca.chainID with
    | hgs =>
      simp only [perform, chain]
      exact confined_hgs_samePro m _ ca hx s (by simp [touched, chain]) (by simp [touched, chain])
    | hnb =>
      simp only [perform, chain]
      exact confined_hnb_samePro m _ ca hx s (by simp [touched, chain]) (by simp [touched, chain])
  | diff hx =>
    cases chain : ca.chainID with
    | hgs =>
      simp only [perform, chain]
      exact confined_hgs_diffPro m _ ca hx s (by simp [touched, chain])
        (by simp [touched, ChainID.other])
    | hnb =>
      simp only [perform, chain]
      exact confined_hnb_diffPro m _ ca hx s (by simp [touched, chain])
        (by simp [touched, ChainID.other])
  | vote vi =>
    simp only [perform, votePro, confined_bind]
    exact ⟨confined_saveTokenTotal m _ ca vi s (by simp [touched]) (by simp [touched]),
      fun _ t _ => confined_saveTokenFromInfo m _ ca vi t (by simp [touched])⟩
  | unfreeze epochNo =>
    refine confined_unFreezePro m _ ca epochNo s (by simp [touched]) (by simp [touched]) ?_
    intro vrs hl entry hm
    simp only [touched, hl, Option.getD_some, List.mem_cons, List.mem_map]
    exact .inr (.inr ⟨entry, hm, rfl⟩)
  | idle => simp [perform]

/-- The keys the call of a transaction touches; none when its payload cannot be decoded. -/
def callTouches (look : Key → Option Bytes) (ca : ContractApi) : List Key :=
  match decodeAction ca.chainID ca.args with
  | .error _ => []
  | .ok action => touched look ca.chainID ca.fromAddr.val action

theorem invoke_confined {σ : Type} (m : Memory Key Bytes σ) (ca : ContractApi) (s : σ) :
    m.Confined (· ∈ callTouches (m.look s) ca) (invoke ca) s := by
  rw [invoke_eq]
  unfold callTouches
  cases decodeAction ca.chainID ca.args with
  | error e => simp
  | ok action => exact perform_confined m ca action s

end HNBChain.Audit.Source
