import HNBChain.Audit.Guarantees.EpochQuorum

/-!
# Joining an epoch change

When more than a third of the validators have asked for a new epoch, `HandleEpochChange` is to ask
for it as well, once. It builds its own message, and then looks for a message in the list to see
whether it has been sent already: not for its own, but for the one it has just put there. So it
always finds one, and nothing is ever sent.
-/
namespace HNBChain.Audit.Guarantees.EpochFollow

open Lib Source Source.Dbft DbftManager
open Source.Algorand (Validator)
open EpochQuorum

/-! ## What is sent -/

/-- How often the node has broadcast an epoch change of its own for the epoch. -/
def requests (epochNo : UInt64) (m : DbftManager) : Nat :=
  m.sent.countP fun
    | .epochChange (some change) => change.epochNo = epochNo
    | _ => false

/-- A verified epoch change, with the key of its sender and the answers while it is handled. -/
structure Received where
  sender : Bytes
  change : EpochChange
  ans : Answers

def Received.event (received : Received) : Event × Answers :=
  (.peer received.sender true (.epochChange (some received.change)), received.ans)

/-- The node after these epoch changes. -/
def after (env : Env) (m : DbftManager) (run : List Received) : DbftManager :=
    m.run env (run.map Received.event)

/-! ## What should be sent -/

/-- The validators that have asked for the epoch at the height of the node, with the hash of its
block. -/
def requesters (m : DbftManager) (epochNo : UInt64) (run : List Received) : List Validator :=
  m.totalValidators.validators.filter fun v => run.any fun received =>
    decide (received.change.epochNo = epochNo ∧ received.change.digestAddr = v.address ∧
      received.change.height = m.curHeight ∧
      received.ans.blockHash (received.change.height - 1) = some received.change.hash)

/-- The node has asked for the epoch itself. -/
def Asked (env : Env) (m : DbftManager) (epochNo : UInt64) : Prop :=
  ∃ change ∈ m.epochChange epochNo, change.digestAddr = env.digestAddr

/-- As soon as more than a third have asked for the epoch, and the node has not, it has done so
once. -/
def Amplifies (env : Env) (m : DbftManager) (epochNo : UInt64) (run : List Received) : Prop :=
  ∀ k, m.totalValidators.validators.length / 3 < (requesters m epochNo (run.take k)).length →
    ¬ Asked env m epochNo →
    requests epochNo (after env m (run.take k)) = requests epochNo m + 1

/-! ## Nothing is sent -/

/-- The message that has just been recorded is found. -/
theorem setEpochChange_has (epochChange : EpochChange) (m : DbftManager) :
    (m.setEpochChange epochChange).hasEpochChange epochChange = true := by
  simp [setEpochChange, hasEpochChange]

theorem follow_sent (env : Env) (ans : Answers) (epochChange : EpochChange) (m : DbftManager) :
    ((m.setEpochChange epochChange).follow env ans epochChange).2.sent = m.sent := by
  have hfo := setEpochChange_has epochChange m
  unfold follow
  split
  · split
    · rfl
    · dsimp only
      -- both states have the message that was recorded
      rw [if_pos (by split_ifs <;> exact hfo)]
      split_ifs <;> rfl
  · rfl

theorem getEpoch_sent (epochNo : UInt64) (m : DbftManager) :
    (m.getEpoch epochNo).2.sent = m.sent := by
  unfold getEpoch
  split
  · rfl
  · split <;> rfl

theorem buildNewEpoch_sent (env : Env) (ans : Answers) (m : DbftManager) :
    (m.buildNewEpoch env ans).2.sent = m.sent := by
  unfold buildNewEpoch
  split
  · split <;> rfl
  · have looked := getEpoch_sent (lastListed m.epochList (m.epoch.dependEpochNo.toNat - 1)) m
    dsimp only
    generalize m.getEpoch _ = result at looked ⊢
    rcases result with ⟨_ | _, _⟩ <;> exact looked

theorem buildNewEpochMsg_sent (env : Env) (ans : Answers) (newEpochNo : UInt64) (m : DbftManager) :
    (m.buildNewEpochMsg env ans newEpochNo).2.sent = m.sent := by
  have hb := buildNewEpoch_sent env ans m
  unfold buildNewEpochMsg
  generalize m.buildNewEpoch env ans = result at hb ⊢
  rcases result with ⟨_ | _, _⟩
  · exact hb
  · dsimp only
    split <;> exact hb

/-- What the node may send on an epoch change is the announcement of an epoch. -/
theorem checkEnterNewEpoch_requests (env : Env) (ans : Answers) (epochNo asked : UInt64)
    (m : DbftManager) :
    requests asked (m.checkEnterNewEpoch env ans epochNo).2 = requests asked m := by
  have hb := buildNewEpochMsg_sent env ans epochNo m
  unfold checkEnterNewEpoch
  split
  · generalize m.buildNewEpochMsg env ans epochNo = result at hb ⊢
    rcases result with ⟨_ | _, _⟩
    · exact congrArg (List.countP _) hb
    · refine Eq.trans ?_ (congrArg (List.countP _) hb)
      exact List.countP_cons_of_neg Bool.false_ne_true
  · rfl

theorem handleEpochChange_requests (env : Env) (ans : Answers) (payload : Option EpochChange)
    (asked : UInt64) (m : DbftManager) : requests asked (m.handleEpochChange env ans payload).2 =
    requests asked m := by
  unfold handleEpochChange
  split
  · rfl
  next epochChange =>
    split
    · rfl
    · rfl
    · have hf := follow_sent env ans epochChange m
      generalize (m.setEpochChange epochChange).follow env ans epochChange = result at hf ⊢
      rcases result with ⟨_ | _, m'⟩
      · exact congrArg (List.countP _) hf
      · exact (checkEnterNewEpoch_requests env ans _ asked m').trans
          (congrArg (List.countP _) hf)

theorem settle_sent (routine : Routine) (result : Except DposErr Unit × DbftManager) :
    (settle routine result).sent = result.2.sent := by
  unfold settle
  split <;> rfl

theorem deliver_requests (env : Env) (m : DbftManager) (received : Received) (asked : UInt64) :
    requests asked (m.deliver env received.event.2 received.event.1) = requests asked m := by
  change requests asked (m.turn .listener
    (handle env received.ans received.sender _)) = _
  unfold turn
  split
  · rfl
  · refine (congrArg (List.countP _) (settle_sent _ _)).trans ?_
    exact handleEpochChange_requests env received.ans _ asked _

/-- In no run of epoch changes does the node ask for an epoch. -/
theorem after_requests (env : Env) (m : DbftManager) (run : List Received) (asked : UInt64) :
    requests asked (after env m run) = requests asked m := by
  induction run generalizing m with
  | nil => rfl
  | cons received rest ih => exact (ih _).trans (deliver_requests env m received asked)

theorem requesters_take_le (m : DbftManager) (epochNo : UInt64) (run : List Received) (k : Nat) :
    (requesters m epochNo (run.take k)).length ≤ (requesters m epochNo run).length := by
  refine List.Sublist.length_le (List.monotone_filter_right _ fun v ha => ?_)
  obtain ⟨received, ht, asks⟩ := List.any_eq_true.mp ha
  exact List.any_eq_true.mpr ⟨received, List.mem_of_mem_take ht, asks⟩

/-- In any run of epoch changes, the node does what it should only if there is nothing to do: it has
asked for the epoch before, or at most a third have. -/
theorem amplifies_iff (env : Env) (m : DbftManager) (epochNo : UInt64) (run : List Received) :
    Amplifies env m epochNo run ↔ Asked env m epochNo ∨
        (requesters m epochNo run).length ≤ m.totalValidators.validators.length / 3 := by
  constructor
  · intro amplifies
    by_contra neither
    obtain ⟨notAsked, many⟩ := not_or.mp neither
    have once := amplifies run.length (by rw [List.take_length]; exact not_le.mp many) notAsked
    rw [after_requests] at once
    omega
  · rintro (ha | few) k many notAsked
    · exact absurd ha notAsked
    · exact absurd ((requesters_take_le m epochNo run k).trans few) (not_le.mpr many)

/-! ## Two of four -/

/-- Epoch changes of the first and the second validator. -/
noncomputable def twoAsk : List Received :=
    [⟨[1], ⟨2, [1], 1, []⟩, plain⟩, ⟨[2], ⟨2, [2], 1, []⟩, plain⟩]

theorem twoAsk_silent : requesters starting 2 twoAsk = [⟨[1], [1], 1⟩, ⟨[2], [2], 1⟩] ∧
    starting.totalValidators.validators.length / 3 = 1 ∧
    ¬ Asked third starting 2 ∧ (after third starting twoAsk).sent = [] ∧
    (after third starting twoAsk).internalMsgQueue = [] ∧ ¬ Amplifies third starting 2 twoAsk := by
  have two : requesters starting 2 twoAsk = [⟨[1], [1], 1⟩, ⟨[2], [2], 1⟩] := by decide +kernel
  have notAsked : ¬ Asked third starting 2 := by
    rintro ⟨change, hm, _⟩
    cases hm
  refine ⟨two, rfl, notAsked, rfl, rfl, fun amplifies => ?_⟩
  have once := amplifies 2 (by rw [show twoAsk.take 2 = twoAsk from rfl, two]; decide) notAsked
  rw [after_requests] at once
  omega

end HNBChain.Audit.Guarantees.EpochFollow
