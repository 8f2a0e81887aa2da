import HNBChain.Audit.Source.Algorand.Messages
import HNBChain.Audit.Source.Algorand.Stable
import HNBChain.Audit.Guarantees.RoundMonotone

/-!
# The mutex of the handler

The message loop takes `h.mtx` in two message handlers, for a timeout and for the signal that
transactions are there. A `VoteSetMaj23` message leaves it taken on every path, a `HasVote` message
if its payload does not decode. No other event touches it, so the mutex is free along a run exactly
if the node handles no such message; once it is kept, the next event that needs it waits for ever.
-/
namespace HNBChain.Audit.Guarantees.LockDiscipline

open Lib Source.Algorand RoundMonotone Node

/-! ## The consensus steps do not touch the mutex -/

theorem mtxHeld_stable (held : Bool) : NodeStable fun n => n.mtxHeld = held where
  light light same := by
    rw [light]
    exact same
  tracks _ same := same
  proposes _ _ _ same := same
  locks _ _ _ same := same
  records _ same := same
  recordsLast _ same := same
  decides _ same := same
  stores _ same := same
  succeeds _ _ same := same
  continues _ same := same

theorem takeProposalMsg_mtxHeld (n : Node) (payload : Option ProposalMessage) :
    (n.takeProposalMsg payload).mtxHeld = n.mtxHeld := by
  unfold takeProposalMsg
  split
  · rfl
  · split
    · rfl
    · exact (mtxHeld_stable n.mtxHeld).setProposal _ rfl

/-- The handler of the message gives the mutex back. -/
def Releases : TDMMessage → Prop
  | .voteSetMaj23 _ => False
  | .hasVote payload => payload.isSome
  | _ => True

section

variable {env : Env} {ans : Answers} {n : Node}

theorem processTDMMsg_mtxHeld (free : n.mtxHeld = false) (sender : Bytes) (msg : TDMMessage) :
    (n.processTDMMsg env ans sender msg).mtxHeld = false ↔ Releases msg := by
  have same {m : Node} (kept : m.mtxHeld = n.mtxHeld) : m.mtxHeld = false ↔ True :=
    iff_true_intro (kept.trans free)
  -- a free mutex is taken at once
  have taken (f : Node → Node) : n.withMutex f = f n := if_neg (by simp [free])
  cases msg with
  | proposal payload =>
    refine same ?_
    unfold processTDMMsg handleProposalMsg
    dsimp only
    split
    · exact takeProposalMsg_mtxHeld n payload
    · rfl
    · rfl
    · split
      · rfl
      · exact takeProposalMsg_mtxHeld n payload
  | vote payload =>
    refine same ?_
    unfold processTDMMsg handleOutterVoteMsg
    dsimp only
    split
    · rfl
    · exact (mtxHeld_stable n.mtxHeld).addVote _ rfl
  | blockPart payload =>
    refine same ?_
    unfold processTDMMsg handleBlockPartMsg
    dsimp only
    split
    · rfl
    · split
      · rfl
      · exact (mtxHeld_stable n.mtxHeld).addProposalBlockPart _ rfl
  | hasVote payload =>
    unfold processTDMMsg handleHasVoteMsg
    dsimp only
    rw [taken]
    cases payload with
    | none => simp [Releases]
    | some nrsMsg => simp [Releases, free]
  | voteSetMaj23 payload =>
    unfold processTDMMsg handleMaj23Msg
    cases payload with
    | none => simp [taken, Releases]
    | some nrsMsg =>
      dsimp only
      unfold handleVoteSetMaj23Msg
      rw [taken]
      dsimp only
      split_ifs <;> simp [Releases]
  | proposalHeartBeat | newRoundStep | commitStep | proposalPOL | voteSetBits | heightReq
  | heightResp | unsupported => exact same rfl

/-- No message is handled whose handler keeps the mutex. -/
def Spares (env : Env) (n : Node) : NetEvent → Prop
  | .peer _ msg => n.Hears env → Releases msg
  | _ => True

theorem deliverNet_mtxHeld (free : n.mtxHeld = false) (e : NetEvent) :
    (n.deliverNet env ans e).mtxHeld = false ↔ Spares env n e := by
  have same {m : Node} (kept : m.mtxHeld = n.mtxHeld) : m.mtxHeld = false ↔ True :=
    iff_true_intro (kept.trans free)
  cases e with
  | peer sender msg =>
    unfold deliverNet Spares
    dsimp only
    by_cases hears : n.Hears env
    · rw [if_pos hears, processTDMMsg_mtxHeld free]
      exact ⟨fun releases _ => releases, fun spares => spares hears⟩
    · rw [if_neg hears]
      exact ⟨fun _ here => absurd here hears, fun _ => free⟩
  | internal i =>
    exact same ((mtxHeld_stable n.mtxHeld).deliverOwn (fun _ _ other => by cases other) rfl)
  | timeout ti =>
    exact same ((mtxHeld_stable n.mtxHeld).deliverOwn (fun _ _ other => by cases other) rfl)
  | txsAvailable height =>
    exact same ((mtxHeld_stable n.mtxHeld).deliverOwn (fun _ _ other => by cases other) rfl)
  | reset =>
    exact same ((mtxHeld_stable n.mtxHeld).deliverOwn (fun _ _ other => by cases other) rfl)

/-! ## Whole runs -/

/-- Every event of the list meets the condition in the state it comes in. -/
def Disciplined (env : Env) : Node → List (NetEvent × Answers) → Prop
  | _, [] => True
  | n, event :: rest =>
    Spares env n event.1 ∧ Disciplined env (n.deliverNet env event.2 event.1) rest

/-- The mutex is free after every event of a run exactly if no handled message keeps it. -/
theorem mutex_free_iff (free : n.mtxHeld = false) (events : List (NetEvent × Answers)) :
    (∀ k, (n.runNet env (events.take k)).mtxHeld = false) ↔ Disciplined env n events := by
  induction events generalizing n with
  | nil => exact ⟨fun _ => trivial, fun _ k => by rw [List.take_nil]; exact free⟩
  | cons event rest ih =>
    constructor
    · intro always
      have here : (n.deliverNet env event.2 event.1).mtxHeld = false := always 1
      exact ⟨(deliverNet_mtxHeld free event.1).mp here, (ih here).mp fun k => always (k + 1)⟩
    · rintro ⟨spares, hl⟩ k
      have here : (n.deliverNet env event.2 event.1).mtxHeld = false :=
        (deliverNet_mtxHeld free event.1).mpr spares
      cases k with
      | zero => exact free
      | succ k => exact (ih here).mpr hl k

end

/-- A node that votes after its first timeout. -/
theorem mutex_free_iff_start : (plainNode 2).mtxHeld = false ∧
    ((∀ k, ((plainNode 2).runNet (plainEnv 2 1)
        ([(.timeout ⟨1, 0, .newHeight⟩, plainAnswers), (.peer [0] .voteSetBits, plainAnswers)].take
          k)).mtxHeld = false) ↔ Disciplined (plainEnv 2 1) (plainNode 2)
        [(.timeout ⟨1, 0, .newHeight⟩, plainAnswers), (.peer [0] .voteSetBits, plainAnswers)]) :=
  ⟨rfl, mutex_free_iff rfl _⟩

/-! ## The mutex is kept -/

/-- A well-formed claim of a majority, and a `HasVote` message that does not decode. -/
def keepers : List TDMMessage := [.voteSetMaj23 (some ⟨1, 0, 1⟩), .hasVote none]

/-- The node after one message of the other validator. -/
def kept (msg : TDMMessage) : Node :=
  (plainNode 2).deliverNet (plainEnv 2 1) plainAnswers (.peer [0] msg)

/-- Either message is handled to its end and the mutex is not given back: the timeout that starts
the first round waits for it without end. -/
theorem mutex_kept : Reachable (plainEnv 2 1) (plainNode 2) ∧
    ∀ msg ∈ keepers, (kept msg).halted = false ∧ (kept msg).mtxHeld = true ∧
      ((kept msg).deliverNet (plainEnv 2 1) plainAnswers
        (.timeout ⟨1, 0, .newHeight⟩)).halted = true :=
  ⟨plainNode_reachable (by decide), by decide +kernel⟩

end HNBChain.Audit.Guarantees.LockDiscipline
