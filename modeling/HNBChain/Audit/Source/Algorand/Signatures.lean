import Mathlib.Data.List.ReduceOption
import HNBChain.Audit.Source.Algorand.Block

/-!
# The verification of a commit, down to the signature check

What `VerifyCommitVoteSign` and `VerifyVoteSign` accept, and what makes them panic. `msp.Verify`
treats a signature that is missing and one that is empty differently: it refuses the first, and cuts
the last byte off the second.
-/
namespace HNBChain.Audit.Source.Algorand

open Lib ValidatorSet Except

/-! ## The check of one vote -/

section

variable {curve : Curve} {vals : ValidatorSet} {v : Vote}

theorem verifyVoteSign_ok : vals.verifyVoteSign curve v = .ok () ↔ ∃ i : Nat, v.validatorIndex = i ∧
      ∃ val, vals.validators[i]? = some val ∧ mspVerify curve val.pubKeyStr v = .ok true := by
  unfold verifyVoteSign
  constructor
  · intro ok
    cases hf : vals.getByIndex v.validatorIndex with
    | none =>
      rw [hf] at ok
      cases ok
    | some val =>
      rw [hf] at ok
      obtain ⟨valid, hc, ok⟩ := bind_ok ok
      cases valid with
      | false => cases ok
      | true =>
        unfold getByIndex at hf
        split_ifs at hf
        exact ⟨v.validatorIndex.toNat, by omega, val, hf, hc⟩
  · rintro ⟨i, index, val, hf, hc⟩
    rw [getByIndex, index, if_neg (by omega), Int.toNat_natCast, hf]
    dsimp only
    rw [hc]
    rfl

end

/-! ## The loop and the whole check -/

/-- The checks of one precommit before its signature. -/
structure Fits (height : Nat) (round : Int32) (v : Vote) : Prop where
  height : v.height = height
  round : v.round = round
  type : v.type = .precommit

def powerOf (vals : ValidatorSet) (v : Vote) : Int :=
  ((vals.getByIndex v.validatorIndex).map Validator.votingPower).getD 0

/-- The tally of a list whose precommits all pass. -/
def tallyOf (vals : ValidatorSet) (votes : List (Option Vote)) (start : Int) : Int :=
  votes.reduceOption.foldl (fun power v => wrap64 (power + powerOf vals v)) start

/-- A tally that stays within an int64 is a sum. -/
theorem tallyOf_eq {vals : ValidatorSet} {votes : List (Option Vote)}
    (hn : ∀ v ∈ votes.reduceOption, 0 ≤ powerOf vals v) {start : Int} (hst : 0 ≤ start)
    (hs : start + (votes.reduceOption.map (powerOf vals)).sum < 2 ^ 63) :
    tallyOf vals votes start = start + (votes.reduceOption.map (powerOf vals)).sum := by
  unfold tallyOf
  generalize votes.reduceOption = list at hn hs ⊢
  induction list generalizing start with
  | nil => exact (add_zero start).symm
  | cons v rest ih =>
    have h1 := hn v List.mem_cons_self
    have hl : ∀ w ∈ rest, 0 ≤ powerOf vals w := fun w hm =>
      hn w (List.mem_cons_of_mem v hm)
    have rest_nonneg : 0 ≤ (rest.map (powerOf vals)).sum := List.sum_nonneg fun power hm => by
      obtain ⟨w, hli, rfl⟩ := List.mem_map.mp hm
      exact hl w hli
    rw [List.map_cons, List.sum_cons] at hs ⊢
    rw [List.foldl_cons, wrap64_eq (by omega) (by omega), ih (by omega) hl (by omega), add_assoc]

section

variable {curve : Curve} {vals : ValidatorSet} {height : Nat} {round : Int32}

theorem tally_of_fits {v : Vote} (fits : Fits height round v) (rest : List (Option Vote))
    (start : Int) : vals.tally curve height round (some v :: rest) start =
      (vals.verifyVoteSign curve v).bind fun _ =>
        vals.tally curve height round rest (wrap64 (start + powerOf vals v)) := by
  conv_lhs => unfold tally
  rw [if_neg (not_not.mpr fits.height), if_neg (not_not.mpr fits.round),
    if_neg (not_not.mpr fits.type)]
  rfl

variable (curve vals) in
theorem tally_of_not_fits {v : Vote} (hd : ¬ Fits height round v)
    (rest : List (Option Vote)) (start : Int) :
    ∃ text, vals.tally curve height round (some v :: rest) start = .error (.new text) := by
  unfold tally
  by_cases atHeight : v.height = height
  · rw [if_neg (not_not.mpr atHeight)]
    by_cases atRound : v.round = round
    · rw [if_neg (not_not.mpr atRound)]
      by_cases type : v.type = .precommit
      · exact absurd ⟨atHeight, atRound, type⟩ hd
      · rw [if_pos type]
        exact ⟨_, rfl⟩
    · rw [if_pos atRound]
      exact ⟨_, rfl⟩
  · rw [if_pos atHeight]
    exact ⟨_, rfl⟩

theorem tally_ok {votes : List (Option Vote)} {start total : Int} :
    vals.tally curve height round votes start = .ok total ↔
      (∀ v, some v ∈ votes → Fits height round v ∧ vals.verifyVoteSign curve v = .ok ()) ∧
        total = tallyOf vals votes start := by
  induction votes generalizing start with
  | nil =>
    unfold tally tallyOf
    rw [ok.injEq]
    exact ⟨fun same => ⟨(fun _ hm => by cases hm), same.symm⟩, fun ⟨_, same⟩ => same.symm⟩
  | cons first rest ih =>
    cases first with
    | none =>
      rw [tally, ih]
      refine and_congr_left fun _ => ⟨fun all v hm => ?_, fun all v hm => ?_⟩
      · exact all v ((List.mem_cons.mp hm).resolve_left nofun)
      · exact all v (List.mem_cons_of_mem none hm)
    | some v =>
      constructor
      · intro ok
        by_cases fits : Fits height round v
        · rw [tally_of_fits fits] at ok
          obtain ⟨_, signature, ok⟩ := bind_ok ok
          obtain ⟨hp, sum⟩ := ih.mp ok
          refine ⟨fun w hm => ?_, sum⟩
          rcases List.mem_cons.mp hm with same | hl
          · obtain rfl := Option.some.inj same
            exact ⟨fits, signature⟩
          · exact hp w hl
        · obtain ⟨text, hre⟩ := tally_of_not_fits curve vals fits rest start
          rw [hre] at ok
          cases ok
      · rintro ⟨hp, sum⟩
        obtain ⟨fits, signature⟩ := hp v List.mem_cons_self
        rw [tally_of_fits fits, signature]
        exact ih.mpr ⟨fun w hm => hp w (List.mem_cons_of_mem (some v) hm), sum⟩

/-- Everything the verification looks at is in order. -/
structure Accepts (curve : Curve) (vals : ValidatorSet) (height : Nat)
    (commit : Commit) : Prop where
  atHeight : height = commit.height
  passes : ∀ v, some v ∈ commit.precommits →
    Fits height commit.round v ∧ vals.verifyVoteSign curve v = .ok ()
  enough : (wrap64 (vals.totalVotingPower * 2)).tdiv 3 < tallyOf vals commit.precommits 0

theorem verifyCommitVoteSign_ok {commit : Commit} :
    vals.verifyCommitVoteSign curve height commit = .ok () ↔ Accepts curve vals height commit := by
  unfold ValidatorSet.verifyCommitVoteSign
  constructor
  · intro ok
    split at ok
    · cases ok
    next atHeight =>
      obtain ⟨total, hco, ok⟩ := bind_ok ok
      obtain ⟨hpa, rfl⟩ := tally_ok.mp hco
      split at ok
      next enough => exact ⟨not_not.mp atHeight, hpa, enough⟩
      next => cases ok
  · intro ha
    rw [if_neg (not_not.mpr ha.atHeight), tally_ok.mpr ⟨ha.passes, rfl⟩]
    exact if_pos ha.enough

end

end HNBChain.Audit.Source.Algorand
