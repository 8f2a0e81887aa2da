import HNBChain.Audit.Spec.Holdings
import HNBChain.Lib.Amounts

/-!
# What there is of each token

The supply is what a set of accounts holds plus, for HNB, what is recorded as voted. Sums are taken
in unbounded integers. Each operation on holdings changes the supply by what it moves, up to
wrap-around: the inequalities say when nothing is gained by wrapping, the congruences hold always.
-/
namespace HNBChain.Audit.Spec

open Lib Lib.Amounts Source

instance finiteUInt64 : Finite UInt64 :=
    Finite.of_injective UInt64.toFin fun _ _ => UInt64.toFin_inj.mp

/-- The sum of a list's amounts. -/
def listed (vrs : VoteRecords) : Int := (vrs.map fun entry => (recordPower entry).toInt).sum

theorem listed_append (front back : VoteRecords) :
    listed (front ++ back) = listed front + listed back := by
  simp [listed]

namespace Holdings

/-- Finitely many accounts hold something. -/
def Finite (h : Holdings) : Prop := (Function.support h.bal).Finite

/-- What is recorded as voted, over all epochs. -/
noncomputable def recorded (h : Holdings) : Int := ∑ᶠ epoch, listed (h.recs epoch)

noncomputable def held (counted : Set Key) (h : Holdings) : Int := total counted h.bal

@[simp] theorem recorded_setBal (h : Holdings) (key : Key) (amount : Int64) :
    (h.setBal key amount).recorded = h.recorded := rfl

@[simp] theorem held_setRecs (counted : Set Key) (h : Holdings) (epoch : UInt64)
    (vrs : VoteRecords) : (h.setRecs epoch vrs).held counted = h.held counted := rfl

@[simp] theorem recorded_credit (h : Holdings) (key : Key) (amount : Int64) :
    (h.credit key amount).recorded = h.recorded := rfl

theorem recorded_setRecs (h : Holdings) (epoch : UInt64) (vrs : VoteRecords) :
    (h.setRecs epoch vrs).recorded = h.recorded - listed (h.recs epoch) + listed vrs := by
  have hs : (fun e => listed ((h.setRecs epoch vrs).recs e)) =
      Function.update (fun e => listed (h.recs e)) epoch (listed vrs) := by
    funext e
    by_cases same : e = epoch
    · subst same
      simp
    · simp [same]
  rw [recorded, hs, finsum_update _ (Set.toFinite _), recorded]

theorem recorded_vote (h : Holdings) (vi : VoteInfo) :
    (h.vote vi).recorded = h.recorded + vi.votingPower.toInt := by
  have ha := recorded_setRecs (h.credit (.hnb, vi.fromAddr.getD [])
    (-vi.votingPower)) vi.voteEpoch
    (h.recs vi.voteEpoch ++ [some ⟨vi.fromAddr, vi.votingPower⟩])
  have one : listed [some ⟨vi.fromAddr, vi.votingPower⟩] = vi.votingPower.toInt := by
    simp [listed, recordPower]
  rw [listed_append, one, credit_recs, recorded_credit] at ha
  rw [vote, ha]
  omega

theorem recorded_pay (vrs : VoteRecords) (h : Holdings) : (pay vrs h).recorded = h.recorded := by
  simp [recorded]

theorem recorded_unfreeze (h : Holdings) (epochNo : UInt64) :
    (h.unfreeze epochNo).recorded = h.recorded - listed (h.recs epochNo) := by
  have cleared := recorded_setRecs (pay (h.recs epochNo) h) epochNo []
  rw [recorded_pay, pay_recs, show listed [] = 0 from rfl, add_zero] at cleared
  exact cleared

variable {h : Holdings} {counted : Set Key} {key : Key}

theorem Finite.setBal (hf : h.Finite) (key : Key) (amount : Int64) :
    (h.setBal key amount).Finite := support_update_finite hf key amount

theorem Finite.credit (hf : h.Finite) (key : Key) (amount : Int64) :
    (h.credit key amount).Finite := hf.setBal key _

theorem held_credit_of_mem (hf : h.Finite) (hm : key ∈ counted) (amount : Int64) :
    (h.credit key amount).held counted = h.held counted - (h.bal key).toInt +
    (h.bal key + amount).toInt :=
  total_update_of_mem hf hm _

theorem held_credit_of_notMem (h : Holdings) (ho : key ∉ counted) (amount : Int64) :
    (h.credit key amount).held counted = h.held counted :=
  total_update_of_notMem h.bal ho _

/-- A payment that does not underflow adds at most its amount. -/
theorem held_credit_le (hf : h.Finite) (hm : key ∈ counted) {amount : Int64}
    (fits : -2 ^ 63 ≤ (h.bal key).toInt + amount.toInt) :
    (h.credit key amount).held counted ≤ h.held counted + amount.toInt := by
  have bound := toInt_add_le fits
  rw [held_credit_of_mem hf hm]
  omega

theorem held_debit_le (hf : h.Finite) (hm : key ∈ counted) {amount : Int64}
    (he : amount ≤ h.bal key) :
    (h.credit key (-amount)).held counted ≤ h.held counted - amount.toInt := by
  have bound := toInt_debit_le he
  rw [held_credit_of_mem hf hm]
  omega

theorem held_credit_modEq (hf : h.Finite) (hm : key ∈ counted) (amount : Int64) :
    (h.credit key amount).held counted ≡ h.held counted + amount.toInt [ZMOD 2 ^ 64] := by
  have bound := toInt_add_modEq (h.bal key) amount
  rw [held_credit_of_mem hf hm]
  rw [Int.ModEq] at bound ⊢
  omega

theorem held_debit_modEq (hf : h.Finite) (hm : key ∈ counted) (amount : Int64) :
    (h.credit key (-amount)).held counted ≡ h.held counted - amount.toInt [ZMOD 2 ^ 64] := by
  have bound := toInt_debit_modEq (h.bal key) amount
  rw [held_credit_of_mem hf hm]
  rw [Int.ModEq] at bound ⊢
  omega

/-- Paying out votes that are not negative adds at most their sum. -/
theorem held_pay_le (hf : h.Finite) (vrs : VoteRecords)
    (hp : ∀ entry ∈ vrs, 0 ≤ recordPower entry) :
    (pay vrs h).held counted ≤ h.held counted + listed vrs := by
  induction vrs generalizing h with
  | nil => simp [pay, listed]
  | cons entry rest ih =>
    have h1 := Int64.le_iff_toInt_le.mp (hp entry List.mem_cons_self)
    rw [Int64.toInt_zero] at h1
    have low := (h.bal (.hnb, recordAccount entry)).le_toInt
    have hl := ih (hf.credit (.hnb, recordAccount entry) (recordPower entry))
      fun other hm => hp other (List.mem_cons_of_mem entry hm)
    have split : listed (entry :: rest) = (recordPower entry).toInt + listed rest :=
      by simp [listed]
    rw [pay, split]
    by_cases hm : ((.hnb, recordAccount entry) : Key) ∈ counted
    · have paid := held_credit_le hf hm (show
        -2 ^ 63 ≤ (h.bal (.hnb, recordAccount entry)).toInt + (recordPower entry).toInt by omega)
      omega
    · rw [held_credit_of_notMem h hm] at hl
      omega

theorem held_pay_modEq (hf : h.Finite) (vrs : VoteRecords)
    (hn : ∀ entry ∈ vrs, ((.hnb, recordAccount entry) : Key) ∈ counted) :
    (pay vrs h).held counted ≡ h.held counted + listed vrs [ZMOD 2 ^ 64] := by
  induction vrs generalizing h with
  | nil => simp [pay, listed, Int.ModEq]
  | cons entry rest ih =>
    have hl := ih (hf.credit (.hnb, recordAccount entry) (recordPower entry))
      fun other hm => hn other (List.mem_cons_of_mem entry hm)
    have paid := held_credit_modEq hf (hn entry List.mem_cons_self) (recordPower entry)
    have split : listed (entry :: rest) = (recordPower entry).toInt + listed rest :=
      by simp [listed]
    rw [pay, split]
    rw [Int.ModEq] at hl paid ⊢
    omega

end Holdings

/-- A stored state has finitely many keys. -/
theorem holdings_finite (w : World) : (holdings (find w)).Finite := by
  refine w.keys.finite_toSet.subset fun key hi => ?_
  refine Finset.mem_coe.mpr ((mem_keys_iff_find w key).mpr fun missing => hi ?_)
  simp [holdings, missing, clippedAmount]

end HNBChain.Audit.Spec
