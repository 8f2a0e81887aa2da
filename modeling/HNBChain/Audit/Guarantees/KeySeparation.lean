import HNBChain.Audit.Source.Payload
import HNBChain.Audit.Spec.Holdings

/-!
# Accounts and vote keys share one key space

Balances stand under addresses, tallies and record lists under `epoch#n` and `record_epoch#n`, all
in the one key space of the HNB contract. An output address is any byte string, so it may be a vote
key; a 20-byte address may be one too, when the number of the epoch has 14 or 7 digits.

`separated_iff` says for every state and every call when the two uses stay apart: a SAME or DIFF
leaves what is stored under every vote key, and a VOTE leaves what `GetBalance` returns for every
account but its `fromAddr`.
-/
namespace HNBChain.Audit.Guarantees.KeySeparation

open Lib Source Spec Decimal

/-- Nothing under a vote key has changed. -/
def VoteKeysKept (look look' : Key → Option Bytes) : Prop :=
  ∀ key, VoteKey key → look' (.hnb, key) = look (.hnb, key)

/-- What `GetBalance` returns has not changed but for one account. -/
def BalancesKept (look look' : Key → Option Bytes) (fromAddr : Option Bytes) : Prop :=
  ∀ account : Address, fromAddr ≠ some account.val →
    amountOf (look' (.hnb, account.val)) = amountOf (look (.hnb, account.val))

def Separated (look look' : Key → Option Bytes) : Action → Prop
  | .same _ => VoteKeysKept look look'
  | .diff _ => VoteKeysKept look look'
  | .vote vi => BalancesKept look look' vi.fromAddr
  | .unfreeze _ => True
  | .idle => True

/-- Every check of a token movement passes. -/
def Moves (refusal : Option Err) (held had : Except Err Int64) (debit : Int64) : Prop :=
  refusal = none ∧ ∃ a b, held = .ok a ∧ debit ≤ a ∧ had = .ok b

/-- The key is no vote key, or nothing is moved and the amount under it is stored as it would be
written. -/
def Still (look : Key → Option Bytes) (key : Key) (amount : Int64) : Prop :=
  key.1 = .hnb → VoteKey key.2 → amount = 0 ∧ look key = some (formatInt (clippedAmount (look key)))

/-- The key is no address, or something is stored under it already. -/
def Occupied (look : Key → Option Bytes) (key : Bytes) : Prop :=
  key.length = 20 → (look (.hnb, key)).isSome

/-- The call is refused, or what it writes respects the other use of its keys. -/
def Respects (look : Key → Option Bytes) (chain : ChainID) (sender : Bytes) : Action → Prop
  | .same hx =>
    Moves (sameAddrError sender hx.outputAddr) (heldResult chain (look (chain, sender)))
        (hadResult chain (look (chain, hx.outputAddr))) hx.amount →
      Still look (chain, sender) hx.amount ∧ Still look (chain, hx.outputAddr) hx.amount
  | .diff hx =>
    Moves none (heldResult chain (look (chain, sender)))
        (amountResult (look (chain.other, hx.outputAddr))) hx.inAmount →
      Still look (chain, sender) hx.inAmount ∧ Still look (chain.other, hx.outputAddr) hx.amount
  | .vote vi =>
    VotePasses (fun key => look (.hnb, key)) vi → Occupied look (Hnb.getEpochKey vi.voteEpoch) ∧
        ((recordsOf (look (.hnb, Hnb.getEpochRecordKey vi.voteEpoch))).isSome →
          Occupied look (Hnb.getEpochRecordKey vi.voteEpoch))
  | .unfreeze _ => True
  | .idle => True

/-- Writing a sum over a readable amount changes nothing only if zero is added to an amount that was
written the same way. -/
theorem formatInt_add_eq_iff {stored : Option Bytes} {n : Int64} (hr : amountOf stored = some n)
    (amount : Int64) : some (formatInt (n + amount)) = stored ↔
      amount = 0 ∧ stored = some (formatInt (clippedAmount stored)) := by
  rw [clippedAmount_of_amountOf hr]
  constructor
  · intro same
    rw [← same, amountOf_formatInt, Option.some.injEq] at hr
    have zero : amount = 0 := by
      have shifted := congrArg (fun x => x - n) hr
      simpa only [Int64.add_comm n, Int64.add_sub_cancel, Int64.sub_self] using shifted
    subst zero
    rw [Int64.add_zero] at same
    exact ⟨rfl, same.symm⟩
  · rintro ⟨rfl, same⟩
    rw [Int64.add_zero, same]

section Calls

variable {σ : Type} (m : Memory Key Bytes σ)

theorem voteKeysKept_apply_iff (t : Transfer) {held had : Int64} (s : σ) (hd : t.src ≠ t.dst)
    (hh : amountOf (m.look s t.src) = some held)
    (has : t.dst.1 = .hnb → amountOf (m.look s t.dst) = some had) :
    VoteKeysKept (m.look s) (m.look (t.apply m held had s)) ↔
      Still (m.look s) t.src t.debit ∧ Still (m.look s) t.dst t.credit := by
  have atSrc : m.look (t.apply m held had s) t.src = some (formatInt (held + -t.debit)) := by
    rw [Transfer.apply, m.look_put_ne _ _ hd, m.look_put_self, Int64.sub_eq_add_neg]
  have atDst : m.look (t.apply m held had s) t.dst = some (formatInt (had + t.credit)) :=
    m.look_put_self _ _ _
  have negZero : -t.debit = 0 ↔ t.debit = 0 := by
    constructor
    · intro zero
      have back := congrArg Neg.neg zero
      simpa using back
    · intro zero
      rw [zero]
      decide
  constructor
  · intro kept
    constructor
    · intro own hv
      have same := kept t.src.2 hv
      rw [← own, Prod.mk.eta, atSrc, formatInt_add_eq_iff hh, negZero] at same
      exact same
    · intro own hv
      have same := kept t.dst.2 hv
      rw [← own, Prod.mk.eta, atDst, formatInt_add_eq_iff (has own)] at same
      exact same
  · rintro ⟨stillSrc, stillDst⟩ key hv
    by_cases isDst : ((.hnb, key) : Key) = t.dst
    · have hst := stillDst (by rw [← isDst]) (by rw [← isDst]; exact hv)
      rw [isDst, atDst, formatInt_add_eq_iff (has (by rw [← isDst]))]
      exact hst
    · by_cases isSrc : ((.hnb, key) : Key) = t.src
      · have hst := stillSrc (by rw [← isSrc]) (by rw [← isSrc]; exact hv)
        rw [isSrc, atSrc, formatInt_add_eq_iff hh, negZero]
        exact hst
      · rw [Transfer.apply, m.look_put_ne _ _ isDst, m.look_put_ne _ _ isSrc]

theorem voteKeysKept_moveResult_iff (refusal : Option Err) (held had : Except Err Int64)
    (t : Transfer) (s : σ) (hd : refusal = none → t.src ≠ t.dst)
    (heldIs : ∀ a, held = .ok a → amountOf (m.look s t.src) = some a)
    (hadIs : ∀ b, had = .ok b → t.dst.1 = .hnb → amountOf (m.look s t.dst) = some b) :
    VoteKeysKept (m.look s) (m.look (moveResult m refusal held had t s).2) ↔
    (Moves refusal held had t.debit →
        Still (m.look s) t.src t.debit ∧ Still (m.look s) t.dst t.credit) := by
  rcases hre : moveResult m refusal held had t s with ⟨_ | _, s'⟩
  · rw [moveResult_error m hre]
    refine iff_of_true (fun _ _ => rfl) ?_
    rintro ⟨hac, a, b, heldOk, he, hadOk⟩
    rw [(moveResult_ok_iff m refusal held had t s _).mpr ⟨hac, a, b, heldOk, he, hadOk,
      rfl⟩] at hre
    cases hre
  · obtain ⟨hac, a, b, heldOk, he, hadOk, rfl⟩ :=
      (moveResult_ok_iff m _ _ _ _ _ _).mp hre
    rw [voteKeysKept_apply_iff m t s (hd hac) (heldIs a heldOk) (hadIs b hadOk)]
    exact ⟨fun hst _ => hst, fun hst => hst ⟨hac, a, b, heldOk, he, hadOk⟩⟩

variable (ca : ContractApi)

theorem kept_same_iff (hx : SameTx) (s : σ) :
    VoteKeysKept (m.look s) (m.look (runOn m (perform ca (.same hx)) s).2) ↔
      Respects (m.look s) ca.chainID ca.fromAddr.val (.same hx) := by
  rw [runOn_same]
  refine voteKeysKept_moveResult_iff m _ _ _ _ s (fun hac same => ?_)
    (fun a heldOk => amountOf_of_heldResult heldOk) (fun b hadOk onHnb => ?_)
  · have heq : ca.fromAddr.val = hx.outputAddr := by simpa [SameTx.transfer] using same
    simp [sameAddrError, heq] at hac
  · change ca.chainID = .hnb at onHnb
    rw [onHnb] at hadOk
    simp only [SameTx.transfer, onHnb]
    exact (amountResult_ok_iff _ b).mp hadOk

theorem kept_diff_iff (hx : DiffTx) (s : σ) :
    VoteKeysKept (m.look s) (m.look (runOn m (perform ca (.diff hx)) s).2) ↔
      Respects (m.look s) ca.chainID ca.fromAddr.val (.diff hx) := by
  rw [runOn_diff]
  refine voteKeysKept_moveResult_iff m _ _ _ _ s (fun _ => ?_)
    (fun a heldOk => amountOf_of_heldResult heldOk)
    (fun b hadOk _ => (amountResult_ok_iff _ b).mp hadOk)
  cases ca.chainID <;> simp [DiffTx.transfer, ChainID.other]

/-- Vote data is no amount. -/
theorem amountOf_of_recordsOf {stored : Option Bytes} {vrs : VoteRecords}
    (hl : recordsOf stored = some vrs) : amountOf stored = none ↔ stored.isSome := by
  cases stored with
  | none => simp [amountOf]
  | some text =>
    simp [amountOf, readInt, parseInt_of_decodeVoteRecords text vrs hl]

theorem amountOf_of_tallyOf {stored : Option Bytes} {tally : Option Tally}
    (hf : tallyOf stored = some tally) : amountOf stored = none ↔ stored.isSome := by
  cases stored with
  | none => simp [amountOf]
  | some text => simp [amountOf, readInt, parseInt_of_decodeTally text tally hf]

variable (vi : VoteInfo)

/-- Tally and debit change the balance of another account exactly when the tally is written under a
free address. -/
theorem kept_saveTotal_iff {s s' : σ} (hs : saveTotalResult m .hnb vi s = (.ok (), s')) :
    BalancesKept (m.look s) (m.look s') vi.fromAddr ↔
    Occupied (m.look s) (Hnb.getEpochKey vi.voteEpoch) := by
  obtain ⟨candidate, fromAddr, amount, tally, _, payer, _, _, read, _, hf, rfl⟩ :=
    (saveTotalResult_ok_iff m .hnb vi s s').mp hs
  obtain ⟨text, hso, integer⟩ := Option.bind_eq_some_iff.mp read
  have ha : fromAddr ≠ Hnb.getEpochKey vi.voteEpoch := by
    intro same
    rw [← same, hso, tallyOf_of_readInt integer] at hf
    cases hf
  rw [payer]
  constructor
  · intro kept address
    have same := kept ⟨Hnb.getEpochKey vi.voteEpoch, address⟩ (by simpa using ha)
    rw [m.look_put_ne _ _ (by simpa using ha.symm), m.look_put_self] at same
    refine (amountOf_of_tallyOf hf).mp (same.symm.trans ?_)
    simp [amountOf, readInt, parseInt_encodeTally]
  · intro ho account other
    have hdi : account.val ≠ fromAddr := by
      intro same
      exact other (by rw [same])
    rw [m.look_put_ne _ _ (by simpa using hdi), m.look_put]
    split
    · rename_i same
      have isKey : account.val = Hnb.getEpochKey vi.voteEpoch := by simpa using same
      have hun := (amountOf_of_tallyOf hf).mpr (ho (isKey ▸ account.property))
      rw [isKey, hun]
      simp [amountOf, readInt, parseInt_encodeTally]
    · rfl

/-- A record key under which a list can be read has not been debited. -/
theorem look_recordKey_of_saveTotal {s s' : σ} {vrs : VoteRecords}
    (hs : saveTotalResult m .hnb vi s = (.ok (), s'))
    (hl : recordsOf (m.look s' (.hnb, Hnb.getEpochRecordKey vi.voteEpoch)) = some vrs) :
    vi.fromAddr ≠ some (Hnb.getEpochRecordKey vi.voteEpoch) ∧
    m.look s' (.hnb, Hnb.getEpochRecordKey vi.voteEpoch) =
        m.look s (.hnb, Hnb.getEpochRecordKey vi.voteEpoch) := by
  obtain ⟨candidate, fromAddr, amount, tally, _, payer, _, _, _, _, _, rfl⟩ :=
    (saveTotalResult_ok_iff m .hnb vi s s').mp hs
  have ha : Hnb.getEpochRecordKey vi.voteEpoch ≠ fromAddr := by
    intro same
    rw [same, m.look_put_self, recordsOf_number] at hl
    cases hl
  refine ⟨by simpa [payer] using ha.symm, ?_⟩
  rw [m.look_put_ne _ _ (by simpa using ha),
    m.look_put_ne _ _ (by simpa using (epochKey_ne_recordKey _ _).symm)]

theorem kept_vote_iff (chain : ca.chainID = .hnb) (s : σ) :
    BalancesKept (m.look s) (m.look (runOn m (perform ca (.vote vi)) s).2) vi.fromAddr ↔
      Respects (m.look s) ca.chainID ca.fromAddr.val (.vote vi) := by
  rw [runOn_vote, chain]
  rcases hs : saveTotalResult m .hnb vi s with ⟨_ | _, s'⟩
  · rw [saveTotalResult_error m hs]
    refine iff_of_true (fun _ _ => rfl) fun hp => ?_
    obtain ⟨s'', done⟩ := (votePasses_iff m .hnb vi s).mp hp
    rw [hs] at done
    cases done
  · have hp := (votePasses_iff m .hnb vi s).mpr ⟨s', hs⟩
    have tallied := kept_saveTotal_iff m vi hs
    have hb := recordsOf_after_debit m hs
    refine Iff.trans ?_ (show _ ↔ _ from ⟨fun ho _ => ho,
      fun respects => respects hp⟩)
    simp only [saveFromInfoResult]
    cases listed : recordsOf (m.look s' (.hnb, Hnb.getEpochRecordKey vi.voteEpoch)) with
    | none =>
      rw [← hb, listed, tallied]
      simp
    | some vrs =>
      obtain ⟨ha, same⟩ := look_recordKey_of_saveTotal m vi hs listed
      have hr := amountOf_of_recordsOf (hb.symm.trans listed)
      have hw :
        amountOf (some (encodeVoteRecords (vrs ++ [some ⟨vi.fromAddr, vi.votingPower⟩]))) =
          none := by
        simp [amountOf, readInt, parseInt_of_decodeVoteRecords _ _ (decodeVoteRecords_encode _)]
      rw [← hb, listed, ← tallied]
      constructor
      · intro kept
        constructor
        · intro account other
          by_cases isKey : account.val = Hnb.getEpochRecordKey vi.voteEpoch
          · rw [isKey, same]
          · have hu := kept account other
            rw [m.look_put_ne _ _ (by simpa using isKey)] at hu
            exact hu
        · intro _ address
          have hu := kept ⟨Hnb.getEpochRecordKey vi.voteEpoch, address⟩ ha
          rw [m.look_put_self, hw] at hu
          exact hr.mp hu.symm
      · intro both account other
        by_cases isKey : account.val = Hnb.getEpochRecordKey vi.voteEpoch
        · rw [isKey, m.look_put_self, hw]
          exact (hr.mpr (both.2 rfl (isKey ▸ account.property))).symm
        · rw [m.look_put_ne _ _ (by simpa using isKey)]
          exact both.1 account other

/-- Every call keeps accounts and vote keys apart exactly when it respects them. -/
theorem separated_iff (ca : ContractApi) (s : σ) (action : Action)
    (hde : decodeAction ca.chainID ca.args = .ok action) :
    Separated (m.look s) (m.look (runOn m (invoke ca) s).2) action ↔
      Respects (m.look s) ca.chainID ca.fromAddr.val action := by
  rw [runOn_invoke, hde]
  cases action with
  | same hx => exact kept_same_iff m ca hx s
  | diff hx => exact kept_diff_iff m ca hx s
  | unfreeze epochNo => exact Iff.rfl
  | idle => exact Iff.rfl
  | vote vi => exact kept_vote_iff m ca vi (chain_of_vote hde) s

end Calls

theorem foundersPayment_separated : Separated (find genesis)
      (find (runFlat (invoke (contractApi .hnb foundersPayment)) genesis).2) (.same ⟨[7], 5⟩) := by
  have hde : decodeAction .hnb foundersPayment.payload = .ok (.same ⟨[7], 5⟩) := by
    rw [foundersPayment, decodeAction_carrying]
  have founderApart : ¬ VoteKey founder.val := fun hv => absurd hv.head (by decide)
  have receiverApart : ¬ VoteKey [7] := fun hv => absurd hv.head (by decide)
  have respects : Respects (find genesis) .hnb founder.val (.same ⟨[7], 5⟩) := by
    rw [Respects]
    intro _
    exact ⟨fun _ hv => absurd hv founderApart,
      fun _ hv => absurd hv receiverApart⟩
  have iff := separated_iff Memory.flat (contractApi .hnb foundersPayment) genesis
    (.same ⟨[7], 5⟩) hde
  rw [Memory.flat_look, Memory.flat_look] at iff
  exact iff.mpr respects

/-- The founder pays 5 to the output address `epoch#1`. -/
def payTally : Transaction := carrying .hnb founder (.same ⟨Hnb.getEpochKey 1, 5⟩)

/-- The payment succeeds and stands where the tally of the epoch belongs. -/
theorem payTally_overwrites : (runFlat (invoke (contractApi .hnb payTally)) genesis).1 = .ok () ∧
      find genesis (.hnb, Hnb.getEpochKey 1) = none ∧
      find (runFlat (invoke (contractApi .hnb payTally)) genesis).2 (.hnb, Hnb.getEpochKey 1) =
        some (formatInt 5) := by decide +kernel

end HNBChain.Audit.Guarantees.KeySeparation
