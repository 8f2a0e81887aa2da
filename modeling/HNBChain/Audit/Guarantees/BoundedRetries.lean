import Mathlib.Tactic.Push
import HNBChain.Audit.Source.SyncBlock

/-!
# How often a request is repeated

`getRemoteBlocks` counts its requests and gives up at the fifth, but it looks at the counter only
after a timeout. A reply with other blocks than those asked for is answered by the next request
whatever the counter says.
-/
namespace HNBChain.Audit.Guarantees.BoundedRetries

open Source.Sync

/-- At most five requests, and then the call returns. -/
def Bounded (run : Nat → Fetch) : Prop :=
  (∀ n, (run n).sent ≤ 5) ∧ ∃ n err, (run n).task.phase = .returned err

/-- Blocks that come have numbers, and those that answer the fifth request are the ones it asked
for. -/
def Met (fetch : Fetch) : Reply → Prop
  | .blocks (some blocks) => ∀ request r, fetch.task.phase = .receiving request r →
      ∃ scope, getBlocksScope (some blocks) = some scope ∧
      (r = 5 → scope = (request.beginIndex, request.endIndex))
  | _ => True

/-- After `n` waits: one more request than waits, with the counter at that number, until the call
returns. -/
def Counted (n : Nat) (fetch : Fetch) : Prop :=
  match fetch.task.phase with
  | .receiving _ r => r = Int8.ofNat (n + 1) ∧ fetch.sent = n + 1 ∧ n < 5
  | .returned _ => fetch.sent ≤ 5
  | .panicked => False

theorem counter_succ : ∀ n < 5, Int8.ofNat n + 1 = Int8.ofNat (n + 1) := by decide

theorem counter_eq_five : ∀ n < 5, (Int8.ofNat (n + 1) = 5 ↔ n = 4) := by decide

theorem transmit_counted (sch : SyncChainHandler) (notified : List SyncNotify)
    (b e : UInt64) {n : Nat}
    (few : n < 5) : Counted n ⟨transmit sch notified b e (Int8.ofNat n), n + 1⟩ := by
  unfold transmit Counted
  by_cases stopped : (sch.genRemoteBlocksRequest b e).2.exitTask
  · simp only [stopped, if_true]
    omega
  · simp only [stopped]
    exact ⟨counter_succ n few, trivial, few⟩

section

variable {req : BlockSyncReq} {fetch : Fetch} {n : Nat} {reply : Reply}

theorem step_of_ended (ended : ∀ request r, fetch.task.phase ≠ .receiving request r) :
    fetch.step req reply = fetch := by
  unfold Fetch.step
  split <;> first | exact absurd ‹_› (ended _ _) | rfl

theorem Counted.step (hc : Counted n fetch) (met : Met fetch reply) :
    Counted (n + 1) (fetch.step req reply) := by
  cases phase : fetch.task.phase with
  | panicked => simp [Counted, phase] at hc
  | returned err =>
    rw [step_of_ended (by simp [phase])]
    simpa [Counted, phase] using hc
  | receiving request r =>
    rw [Counted, phase] at hc
    obtain ⟨rfl, sent, few⟩ := hc
    have five := counter_eq_five n few
    simp only [Fetch.step, phase]
    cases reply with
    | timeout =>
      by_cases last : n = 4
      · simp [timeout, Counted, sent, last]
      · simp only [timeout, if_neg (mt five.mp last), sent]
        exact transmit_counted _ _ _ _ (by omega)
    | blocks blocks =>
      cases blocks with
      | none =>
        change fetch.sent ≤ 5
        omega
      | some blocks =>
        obtain ⟨scope, hf, last⟩ := met request _ phase
        dsimp only
        rw [outcome_of_scope request hf]
        by_cases other : scope.1 ≠ request.beginIndex ∨ scope.2 ≠ request.endIndex
        · have hbe : n ≠ 4 := by
            intro same
            rw [last (five.mpr same)] at other
            simp at other
          rw [if_pos other, sent]
          exact transmit_counted _ _ _ _ (by omega)
        · rw [if_neg other]
          change fetch.sent ≤ 5
          omega

/-- A reply that does not meet the condition is a panic or leads to the sixth request. -/
theorem Counted.step_fails (hc : Counted n fetch) (unmet : ¬ Met fetch reply) :
    5 < (fetch.step req reply).sent ∨ (fetch.step req reply).task.phase = .panicked := by
  unfold Met at unmet
  split at unmet
  next blocks =>
    push Not at unmet
    obtain ⟨request, r, phase, unmet⟩ := unmet
    rw [Counted, phase] at hc
    obtain ⟨rfl, sent, few⟩ := hc
    simp only [Fetch.step, phase]
    cases found : getBlocksScope (some blocks) with
    | none =>
      rw [outcome_panics request found]
      exact .inr rfl
    | some scope =>
      obtain ⟨five, other⟩ := unmet scope found
      have last := (counter_eq_five n few).mp five
      have hd : scope.1 ≠ request.beginIndex ∨ scope.2 ≠ request.endIndex :=
        not_and_or.mp fun same => other (Prod.ext same.1 same.2)
      rw [outcome_of_scope request found, if_pos hd]
      dsimp only
      omega
  next => exact absurd trivial unmet

end

section

variable {req : BlockSyncReq} {sch : SyncChainHandler} {b e : UInt64}
  {replies : Nat → Reply} {n : Nat}

theorem fetched_of_ended (k : Nat)
    (ended : ∀ request r, (fetched req sch b e replies n).task.phase ≠ .receiving request r) :
    fetched req sch b e replies (n + k) = fetched req sch b e replies n := by
  induction k with
  | zero => rfl
  | succ k ih =>
    rw [← Nat.add_assoc, fetched, ih]
    exact step_of_ended ended

theorem fetched_counted (met : ∀ k < n, Met (fetched req sch b e replies k) (replies k)) :
    Counted n (fetched req sch b e replies n) := by
  induction n with
  | zero => exact transmit_counted sch [] b e (by decide)
  | succ n ih => exact (ih fun k hbe => met k (by omega)).step (met n (by omega))

end

/-- A call sends at most five requests and then returns, exactly if no reply to the fifth has other
blocks than it asked for, and no reply is without numbers where they are read. -/
theorem bounded_iff (req : BlockSyncReq) (sch : SyncChainHandler) (b e : UInt64)
    (replies : Nat → Reply) : Bounded (fetched req sch b e replies) ↔
    ∀ n, Met (fetched req sch b e replies n) (replies n) := by
  constructor
  · rintro ⟨few, m, err, hr⟩ n
    induction n using Nat.strongRecOn with
    | ind n ih =>
      by_contra unmet
      have fails : _ ∨ (fetched req sch b e replies (n + 1)).task.phase = _ :=
        (fetched_counted ih).step_fails unmet
      rcases fails with many | panicked
      · exact absurd (few (n + 1)) (Nat.not_le.mpr many)
      · -- a call that returns does not panic before or after
        have hs : fetched req sch b e replies (m + (n + 1)) = fetched req sch b e replies m :=
          fetched_of_ended (n + 1) (by simp [hr])
        have crashed : fetched req sch b e replies
            (n + 1 + m) = fetched req sch b e replies (n + 1) :=
          fetched_of_ended m (by simp [panicked])
        rw [Nat.add_comm, hs] at crashed
        rw [crashed, panicked] at hr
        cases hr
  · intro met
    have counted (n : Nat) : Counted n (fetched req sch b e replies n) :=
      fetched_counted fun k _ => met k
    refine ⟨fun n => ?_, 5, ?_⟩
    · have now := counted n
      unfold Counted at now
      split at now
      · omega
      · exact now
      · exact now.elim
    · have last := counted 5
      unfold Counted at last
      split at last
      · omega
      next err hr => exact ⟨err, hr⟩
      · exact last.elim

/-- A peer that answers with the blocks of another range. -/
def stray : Reply := .blocks (some [some ⟨some ⟨7⟩⟩])

def idle : SyncChainHandler := ⟨"hgs", 0, [], false, fun _ => none, 20⟩

/-- It is asked again and again, also after the counter has come round to five. -/
theorem stray_unbounded : ¬ Bounded (fetched ⟨1, 3, 9, 0, true⟩ idle 1 3 fun _ => stray) ∧
    (fetched ⟨1, 3, 9, 0, true⟩ idle 1 3 (fun _ => stray) 300).sent = 301 := by
  refine ⟨fun hb => ?_, by decide +kernel⟩
  exact absurd (hb.1 5) (by decide +kernel)

end HNBChain.Audit.Guarantees.BoundedRetries
