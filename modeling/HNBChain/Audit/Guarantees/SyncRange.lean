import HNBChain.Lib.GuardedRun
import HNBChain.Audit.Source.SyncBlock
import Mathlib.Data.List.Infix
import Mathlib.Tactic.Common

/-!
# A block sync delivers the range it was asked for

The reply of the peer is compared with the request at its two ends only. So the handler gets the
blocks of the range in order, and a success is only reported after the last of them, exactly as long
as no reply that is taken from the channel comes without blocks, has an end without a number, or has
the two numbers asked for and not the blocks between them. A timeout can push the end of a request
beyond the range, and then also an exact answer is one too many.
-/
namespace HNBChain.Audit.Guarantees.SyncRange

open Lib Source.Sync List

def numbersOf (first last : UInt64) : List (Option UInt64) :=
  (range' first.toNat (last.toNat + 1 - first.toNat)).map fun n => some (UInt64.ofNat n)

def rangeOf (req : BlockSyncReq) : List (Option UInt64) := numbersOf req.beginIndex req.endIndex

structure Delivers (req : BlockSyncReq) (task : Task) : Prop where
  runs : task.phase ≠ .panicked
  inOrder : task.numbers <+: rangeOf req
  complete : ∀ notify, task.finishNotify req = some notify → notify.finishFlag = true →
    task.numbers = rangeOf req

/-- What a reply to a request may be. -/
def Answers (req : BlockSyncReq) (request : RequestBlocks) (res : ResponseBlocks) : Prop :=
  match res.blocks with
  | none => req.notifies = false
  | some blocks =>
    match getBlocksScope (some blocks) with
    | none => False
    | some (first, last) =>
      first = request.beginIndex → last = request.endIndex → req.notifies = true →
        blocks.map number = numbersOf request.beginIndex request.endIndex ∧
        request.endIndex ≤ req.endIndex

/-- The next reply that is taken from the channel answers the request that is out. -/
def Answered (req : BlockSyncReq) (task : Task) : SyncEvent → Prop
  | .receive =>
    match task.phase, task.sch.syncBlockChannel with
    | .receiving request _, res :: _ => Answers req request res
    | _, _ => True
  | _ => True

/-! ## Ranges of numbers -/

section

variable {first last next : UInt64}

theorem numbersOf_append (ho : first ≤ last) (hb : last < next) :
    numbersOf first last ++ numbersOf (last + 1) next = numbersOf first next := by
  rw [UInt64.le_iff_toNat_le] at ho
  rw [UInt64.lt_iff_toNat_lt] at hb
  have hs := next.toNat_lt
  have haf : (last + 1).toNat = last.toNat + 1 := by
    rw [UInt64.toNat_add, UInt64.toNat_one, Nat.mod_eq_of_lt (by omega)]
  unfold numbersOf
  rw [← map_append, haf]
  congr 1
  have hj := @range'_append first.toNat (last.toNat + 1 - first.toNat)
    (next.toNat + 1 - (last.toNat + 1)) 1
  rw [show first.toNat + 1 * (last.toNat + 1 - first.toNat) = last.toNat + 1 by omega,
    show last.toNat + 1 - first.toNat + (next.toNat + 1 - (last.toNat + 1)) = next.toNat + 1 -
      first.toNat by omega]
    at hj
  exact hj

theorem none_notMem_numbersOf : none ∉ numbersOf first last := by
  intro hm
  obtain ⟨n, _, absurd⟩ := mem_map.mp hm
  exact nomatch absurd

theorem le_of_numbersOf_ne_nil (hno : numbersOf first last ≠ []) : first ≤ last := by
  rw [UInt64.le_iff_toNat_le]
  by_contra less
  refine hno ?_
  rw [numbersOf, Nat.sub_eq_zero_of_le (by omega)]
  rfl

theorem length_numbersOf : (numbersOf first last).length = last.toNat + 1 - first.toNat := by
  rw [numbersOf, length_map, length_range']

theorem numbersOf_start (ho : first ≤ last) (hb : last ≤ next) :
    numbersOf first last <+: numbersOf first next := by
  obtain he | same := UInt64.lt_or_eq_of_le hb
  · exact ⟨_, numbersOf_append ho he⟩
  · rw [same]

/-- The start of a range that ends with a number is the range up to it. -/
theorem eq_numbersOf_of_start {xs : List (Option UInt64)} (hst : xs <+: numbersOf first next)
    (ends : xs.getLast? = some (some last)) : xs = numbersOf first last ∧ last ≤ next := by
  obtain ⟨i, len⟩ : ∃ i, xs.length = i + 1 :=
    Nat.exists_eq_succ_of_ne_zero fun zero => by
      rw [length_eq_zero_iff.mp zero] at ends
      exact nomatch ends
  have hwi := hst.length_le
  rw [length_numbersOf, len] at hwi
  have hs := next.toNat_lt
  have hf : (numbersOf first next)[i]? = some (some last) := by
    obtain ⟨rest, hj⟩ := hst
    rw [← hj, getElem?_append_left (by omega), ← ends, getLast?_eq_getElem?, len,
      Nat.add_sub_cancel]
  rw [numbersOf, getElem?_map, getElem?_range' (by omega), Option.map_some, Option.some.injEq,
    Option.some.injEq] at hf
  have place : first.toNat + i = last.toNat := by
    rw [← hf, UInt64.toNat_ofNat', Nat.one_mul, Nat.mod_eq_of_lt (by omega)]
  have ho : first ≤ last := UInt64.le_iff_toNat_le.mpr (by omega)
  have hb : last ≤ next := UInt64.le_iff_toNat_le.mpr (by omega)
  refine ⟨(prefix_of_prefix_length_le hst (numbersOf_start ho hb) ?_).eq_of_length ?_,
    hb⟩
  · rw [length_numbersOf]
    omega
  · rw [length_numbersOf]
    omega

end

/-! ## A task that has gone well so far -/

/-- The numbers from `first` on are still to come. -/
structure Pending (req : BlockSyncReq) (numbers : List (Option UInt64))
    (first : UInt64) : Prop where
  rest : numbers ++ numbersOf first req.endIndex = rangeOf req
  within : first ≤ req.endIndex

structure Good (req : BlockSyncReq) (task : Task) : Prop extends Delivers req task where
  pending : ∀ request r, task.phase = .receiving request r →
    Pending req task.numbers request.beginIndex

def Failed (req : BlockSyncReq) (task : Task) : Prop :=
  task.phase = .panicked ∨ ¬ task.numbers <+: rangeOf req ∨
    req.notifies = true ∧ task.phase = .returned none ∧ task.numbers ≠ rangeOf req

section

variable {req : BlockSyncReq} {task : Task}

theorem finishNotify_success_iff : (∃ notify, task.finishNotify req = some notify ∧
    notify.finishFlag = true) ↔ req.notifies = true ∧ task.phase = .returned none := by
  unfold Task.finishNotify
  cases phase : task.phase with
  | receiving request r => simp
  | panicked => simp
  | returned err => cases err <;> cases req.notifies <;> simp

theorem delivers_iff_not_failed : Delivers req task ↔ ¬ Failed req task := by
  unfold Failed
  push Not
  constructor
  · intro delivers
    refine ⟨delivers.runs, delivers.inOrder, fun hn success => ?_⟩
    obtain ⟨notify, sent, flag⟩ := finishNotify_success_iff.mpr ⟨hn, success⟩
    exact delivers.complete notify sent flag
  · rintro ⟨runs, inOrder, hc⟩
    refine ⟨runs, inOrder, fun notify sent flag => ?_⟩
    obtain ⟨hn, success⟩ := finishNotify_success_iff.mp ⟨notify, sent, flag⟩
    exact hc hn success

variable {first last : UInt64} {request : RequestBlocks} {blocks : List (Option Block)}

theorem Pending.inOrder {numbers : List (Option UInt64)} (hp : Pending req numbers first) :
    numbers <+: rangeOf req := ⟨_, hp.rest⟩

/-- A task that still waits or came back with an error has only to be in order. -/
theorem Good.of_pending (hp : Pending req task.numbers first)
    (hu : (∃ err, task.phase = .returned (some err)) ∨
      ∃ request r, request.beginIndex = first ∧
      task.phase = .receiving request r) : Good req task := by
  have notDone : task.phase ≠ .returned none := by
    obtain ⟨err, phase⟩ | ⟨request, r, _, phase⟩ := hu <;> rw [phase] <;> simp
  refine ⟨⟨?_, hp.inOrder, fun notify sent flag => ?_⟩, fun request r phase => ?_⟩
  · obtain ⟨err, phase⟩ | ⟨request, r, _, phase⟩ := hu <;> rw [phase] <;> simp
  · exact absurd (finishNotify_success_iff.mp ⟨notify, sent, flag⟩).2 notDone
  · obtain ⟨err, other⟩ | ⟨request', r', rfl, other⟩ := hu
    · rw [other] at phase
      exact nomatch phase
    · rw [other, Phase.receiving.injEq] at phase
      rw [← phase.1]
      exact hp

/-- Without a handler there is nothing to report. -/
theorem Good.of_silent {err : Option String} (silent : req.notifies = false)
    (hp : Pending req task.numbers first) (phase : task.phase = .returned err) :
    Good req task := by
  refine ⟨⟨by simp [phase], hp.inOrder, fun notify sent flag => ?_⟩, fun request r waits => ?_⟩
  · have hn := (finishNotify_success_iff.mp ⟨notify, sent, flag⟩).1
    rw [silent] at hn
    exact nomatch hn
  · rw [phase] at waits
    exact nomatch waits

/-- While something is pending, not all has been delivered. -/
theorem Pending.ne {numbers : List (Option UInt64)} (hp : Pending req numbers first) :
    numbers ≠ rangeOf req := by
  intro all
  have hwi := UInt64.le_iff_toNat_le.mp hp.within
  have lengths := congrArg length hp.rest
  rw [length_append, length_numbersOf, ← all] at lengths
  omega

theorem transmit_good {sch : SyncChainHandler} {notified : List SyncNotify} {r : Int8}
    (hp : Pending req (notified.map fun notify => number notify.block) first) :
    Good req (transmit sch notified first last r) := by
  refine .of_pending ?_ ((transmit_cases sch notified first last r).imp_left
    fun phase => ⟨_, phase⟩)
  rw [Task.numbers, transmit_notified]
  exact hp

theorem nextPart_good {sch : SyncChainHandler} {notified : List SyncNotify}
    (hp : Pending req (notified.map fun notify => number notify.block) first) :
    Good req (nextPart req sch notified first last) := by
  exact transmit_good hp

theorem timeout_good {r : Int8} (hp : Pending req task.numbers request.beginIndex) :
    Good req (timeout req task request r) := by
  unfold timeout
  dsimp only
  split
  · exact .of_pending hp (.inl ⟨_, rfl⟩)
  · exact transmit_good hp

/-- The blocks that were asked for go to the handler, and either they were the last or the next are
asked for. -/
theorem deliver_good (hs : req.endIndex.toNat < 2 ^ 63)
    (hp : Pending req task.numbers first) (ho : first ≤ last)
    (requested : blocks.map number = numbersOf first last) (hwi : last ≤ req.endIndex)
    (hn : req.notifies = true) : Good req (deliver req task blocks last) := by
  have through : (notifyBlocks req blocks).2 = true := by
    refine notifyBlocks_through req ?_
    rw [requested]
    exact none_notMem_numbersOf
  have haf : ((task.notified ++ (notifyBlocks req blocks).1).map fun notify =>
    number notify.block) =
      task.numbers ++ numbersOf first last := by
    rw [map_append, notifyBlocks_numbers req blocks through, requested, Task.numbers]
  have next : (last + 1).toNat = last.toNat + 1 := by
    rw [UInt64.le_iff_toNat_le] at hwi
    rw [UInt64.toNat_add, UInt64.toNat_one, Nat.mod_eq_of_lt (by omega)]
  unfold deliver
  dsimp only
  rw [if_pos hn, through, if_neg (by simp)]
  obtain he | same := UInt64.lt_or_eq_of_le hwi
  · rw [UInt64.lt_iff_toNat_lt] at he
    have more : last + 1 ≤ req.endIndex := UInt64.le_iff_toNat_le.mpr (by omega)
    rw [if_neg (UInt64.not_lt.mpr more)]
    refine nextPart_good ⟨?_, more⟩
    rw [haf, append_assoc, numbersOf_append ho
      (UInt64.lt_iff_toNat_lt.mpr he), hp.rest]
  · rw [if_pos (UInt64.lt_iff_toNat_lt.mpr (by rw [next, same]; omega))]
    have all : (task.numbers ++ numbersOf first last) = rangeOf req := by
      rw [same]
      exact hp.rest
    refine ⟨⟨by simp, ?_, fun _ _ _ => ?_⟩, fun _ _ phase => nomatch phase⟩
    · rw [Task.numbers, haf, all]
    · rw [Task.numbers, haf, all]

/-- A list with the two numbers asked for and other blocks, or one that goes beyond the range, is
handed on too. -/
theorem deliver_failed (hp : Pending req task.numbers first)
    (ends : (blocks.map number).getLast? = some (some last))
    (hw : ¬ (blocks.map number = numbersOf first last ∧ last ≤ req.endIndex))
    (hn : req.notifies = true) : Failed req (deliver req task blocks last) := by
  unfold deliver
  dsimp only
  rw [if_pos hn]
  cases through : (notifyBlocks req blocks).2 with
  | false => exact .inl rfl
  | true =>
    have haf : ((task.notified ++ (notifyBlocks req blocks).1).map fun notify =>
      number notify.block) =
        task.numbers ++ blocks.map number := by
      rw [map_append, notifyBlocks_numbers req blocks through, Task.numbers]
    have misplaced : ¬ task.numbers ++ blocks.map number <+: rangeOf req := by
      rw [← hp.rest, prefix_append_right_inj]
      exact fun hst => hw (eq_numbersOf_of_start hst ends)
    refine .inr (.inl ?_)
    rw [if_neg (by simp), Task.numbers]
    split
    · rwa [haf]
    · rwa [nextPart_notified, haf]

theorem getLast?_of_scope (scope : getBlocksScope (some blocks) = some (first, last)) :
    (blocks.map number).getLast? = some (some last) := by
  obtain ⟨_, _, scope⟩ := Option.bind_eq_some_iff.mp scope
  obtain ⟨found, hnu, scope⟩ := Option.bind_eq_some_iff.mp scope
  obtain ⟨block, ends, hnu⟩ := Option.bind_eq_some_iff.mp hnu
  cases scope
  rw [getLast?_map, ends, Option.map_some, hnu]

theorem receive_good {r : Int8} (hs : req.endIndex.toNat < 2 ^ 63) (now : Good req task)
    (phase : task.phase = .receiving request r)
    (answers : ∀ res rest, task.sch.syncBlockChannel = res :: rest → Answers req request res) :
    Good req (receive req task request r) := by
  have hp := now.pending request r phase
  unfold receive
  cases channel : task.sch.syncBlockChannel with
  | nil => exact now
  | cons res rest =>
    have answer := answers res rest channel
    unfold Answers at answer
    dsimp only
    cases sent : res.blocks with
    | none =>
      rw [sent] at answer
      exact .of_silent answer hp rfl
    | some blocks =>
      rw [sent] at answer
      dsimp only at answer ⊢
      cases scope : getBlocksScope (some blocks) with
      | none =>
        rw [scope] at answer
        exact answer.elim
      | some ends =>
        obtain ⟨first, last⟩ := ends
        rw [scope] at answer
        rw [outcome_of_scope request scope]
        by_cases other : first ≠ request.beginIndex ∨ last ≠ request.endIndex
        · rw [if_pos other]
          exact transmit_good hp
        · rw [if_neg other]
          push Not at other
          obtain ⟨rfl, rfl⟩ := other
          cases notifies : req.notifies with
          | false =>
            dsimp only
            unfold deliver
            rw [notifies, if_neg Bool.false_ne_true]
            exact .of_silent notifies hp rfl
          | true =>
            obtain ⟨requested, hwi⟩ := answer rfl rfl notifies
            have hf := getLast?_of_scope scope
            have ho : request.beginIndex ≤ request.endIndex := by
              refine le_of_numbersOf_ne_nil fun hem => ?_
              rw [requested, hem] at hf
              exact nomatch hf
            exact deliver_good hs hp ho requested hwi notifies

theorem receive_failed {r : Int8} {res : ResponseBlocks} {rest : List ResponseBlocks}
    (now : Good req task) (phase : task.phase = .receiving request r)
    (channel : task.sch.syncBlockChannel = res :: rest) (hw : ¬ Answers req request res) :
    Failed req (receive req task request r) := by
  have hp := now.pending request r phase
  unfold receive
  rw [channel]
  unfold Answers at hw
  dsimp only
  cases sent : res.blocks with
  | none =>
    rw [sent] at hw
    exact .inr (.inr ⟨by simpa using hw, rfl, hp.ne⟩)
  | some blocks =>
    rw [sent] at hw
    dsimp only at hw ⊢
    cases scope : getBlocksScope (some blocks) with
    | none =>
      rw [outcome_panics request scope]
      exact .inl rfl
    | some ends =>
      obtain ⟨first, last⟩ := ends
      rw [scope] at hw
      dsimp only at hw
      push Not at hw
      obtain ⟨rfl, rfl, hn, hw⟩ := hw
      rw [outcome_of_scope request scope, if_neg (by simp)]
      exact deliver_failed hp (getLast?_of_scope scope)
        (fun both => hw both.1 both.2) hn

/-! ## Whole runs -/

theorem Good.withHandler (now : Good req task) (sch : SyncChainHandler) :
    Good req { task with sch } :=
  ⟨⟨now.runs, now.inOrder, now.complete⟩, now.pending⟩

theorem step_good {e : SyncEvent} (hs : req.endIndex.toNat < 2 ^ 63) (now : Good req task)
    (ha : Answered req task e) : Good req (task.step req e) := by
  unfold Answered at ha
  unfold Task.step
  cases e with
  | response res => exact now.withHandler _
  | receive =>
    cases phase : task.phase with
    | receiving request r =>
      rw [phase] at ha
      refine receive_good hs now phase fun res rest channel => ?_
      rw [channel] at ha
      exact ha
    | returned err => exact now
    | panicked => exact now
  | timeout =>
    cases phase : task.phase with
    | receiving request r => exact timeout_good (now.pending request r phase)
    | returned err => exact now
    | panicked => exact now
  | syncExit =>
    dsimp only
    split
    · exact now.withHandler _
    · exact now

theorem step_failed {e : SyncEvent} (now : Good req task) (hw : ¬ Answered req task e) :
    Failed req (task.step req e) := by
  unfold Answered at hw
  unfold Task.step
  cases e with
  | receive =>
    cases phase : task.phase with
    | receiving request r =>
      rw [phase] at hw
      cases channel : task.sch.syncBlockChannel with
      | nil =>
        rw [channel] at hw
        exact absurd trivial hw
      | cons res rest =>
        rw [channel] at hw
        exact receive_failed now phase channel hw
    | returned err =>
      rw [phase] at hw
      exact absurd trivial hw
    | panicked => exact .inl phase
  | _ => exact absurd trivial hw

theorem failed_stays (e : SyncEvent) (hfa : Failed req task) : Failed req (task.step req e) := by
  obtain panicked | misplaced | ⟨hn, success, missing⟩ := hfa
  · have same := (step_of_ended req e fun request r => by rw [panicked]; exact nofun).1
    exact .inl (same.trans panicked)
  · exact .inr (.inl fun hst => misplaced (((step_notified req task e).map _).trans hst))
  · obtain ⟨phase, notified⟩ := step_of_ended req e fun request r => by rw [success]; exact nofun
    refine .inr (.inr ⟨hn, phase.trans success, ?_⟩)
    rw [Task.numbers, notified]
    exact missing

theorem sync_failsForGood (hs : req.endIndex.toNat < 2 ^ 63) :
    FailsForGood (Task.step req) (Answered req) (Good req) (Failed req) where
  sound now := delivers_iff_not_failed.mp now.toDelivers
  keeps := step_good hs
  breaks := step_failed
  stays := failed_stays

end

/-- A sync delivers its range exactly as long as the replies it takes answer its requests. -/
theorem runSync_delivers_iff (req : BlockSyncReq) (ho : req.beginIndex ≤ req.endIndex)
    (hs : req.endIndex.toNat < 2 ^ 63) (sch : SyncChainHandler) (events : List SyncEvent) :
    Delivers req (runSync req sch events) ↔
      StepsMeet (Task.step req) (Answered req) (blockSyncProcess req sch) events := by
  rw [delivers_iff_not_failed]
  exact (sync_failsForGood hs).not_failed_run_iff (nextPart_good ⟨nil_append _, ho⟩) events

/-! ## Replies that break a sync -/

def fresh : SyncChainHandler :=
  { chainID := "hnb", chainSyncVersion := 1, syncBlockChannel := [], exitTask := false,
    interval := fun _ => none,
    maxSyncBlockCount := 5 }

def firstThree : BlockSyncReq :=
  { beginIndex := 1, endIndex := 3, peerID := 7, version := 0, notifies := true }

def numbered (n : UInt64) : Option Block := some ⟨some ⟨n⟩⟩

def replyWith (blocks : Option (List (Option Block))) (version : UInt64) : List SyncEvent :=
  [.response ⟨blocks, version⟩, .receive]

theorem threeBlocks_delivered : firstThree.beginIndex ≤ firstThree.endIndex ∧
    firstThree.endIndex.toNat < 2 ^ 63 ∧ Delivers firstThree (runSync firstThree fresh
      (replyWith (some [numbered 1, numbered 2, numbered 3]) 1)) := by
  have ho : firstThree.beginIndex ≤ firstThree.endIndex := by decide
  have hs : firstThree.endIndex.toNat < 2 ^ 63 := by decide
  refine ⟨ho, hs, (runSync_delivers_iff firstThree ho hs fresh _).mpr
    ⟨trivial, ?_, trivial⟩⟩
  exact fun _ _ _ => ⟨by decide, by decide⟩

/-- A reply without blocks ends the sync with a success, an empty list ends it with a panic, a list
that leaves a block out is handed on, and after a timeout two blocks are fetched where one was asked
for. -/
theorem replies_break_sync : ¬ Delivers firstThree (runSync firstThree fresh (replyWith none 1)) ∧
    ¬ Delivers firstThree (runSync firstThree fresh (replyWith (some []) 1)) ∧
    ¬ Delivers firstThree (runSync firstThree fresh (replyWith (some [numbered 1, numbered 3]) 1)) ∧
    ¬ Delivers { firstThree with endIndex := 1 } (runSync { firstThree with endIndex := 1 } fresh
      (.timeout :: replyWith (some [numbered 1, numbered 2]) 2)) := by
  simp only [delivers_iff_not_failed, not_not]
  refine ⟨.inr (.inr ⟨?_, ?_, ?_⟩), .inl ?_, .inr (.inl ?_), .inr (.inl ?_)⟩ <;> decide

end HNBChain.Audit.Guarantees.SyncRange
