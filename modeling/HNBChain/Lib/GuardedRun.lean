import Mathlib.Data.List.Basic

/-!
# Runs that go wrong at one step for good

A deterministic machine reads events. While all its steps meet a condition an invariant is kept; the
first step that does not leads to a failure that stays. So a run has not failed exactly if all its
steps met the condition.
-/
namespace HNBChain.Lib

variable {State Event : Type} (step : State → Event → State) (condition : State → Event → Prop)

/-- Each event of the run meets the condition in the state it comes in. -/
def StepsMeet : State → List Event → Prop
  | _, [] => True
  | s, e :: rest => condition s e ∧ StepsMeet (step s e) rest

structure FailsForGood (invariant failed : State → Prop) : Prop where
  sound {s} : invariant s → ¬ failed s
  keeps {s e} : invariant s → condition s e → invariant (step s e)
  breaks {s e} : invariant s → ¬ condition s e → failed (step s e)
  stays {s} (e) : failed s → failed (step s e)

namespace FailsForGood

variable {step condition} {invariant failed : State → Prop}
  (guarded : FailsForGood step condition invariant failed) {s : State}

include guarded

theorem failed_run (now : failed s) (events : List Event) : failed (events.foldl step s) := by
  induction events generalizing s with
  | nil => exact now
  | cons e rest ih => exact ih (guarded.stays e now)

theorem not_failed_run_iff (now : invariant s) (events : List Event) :
    ¬ failed (events.foldl step s) ↔ StepsMeet step condition s events := by
  induction events generalizing s with
  | nil => exact iff_of_true (guarded.sound now) trivial
  | cons e rest ih =>
    by_cases meets : condition s e
    · exact (ih (guarded.keeps now meets)).trans (and_iff_right meets).symm
    · exact iff_of_false (not_not_intro (guarded.failed_run (guarded.breaks now meets) rest))
        fun all => meets all.1

end FailsForGood

end HNBChain.Lib
