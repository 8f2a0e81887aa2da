import Mathlib.Data.Finmap

/-!
# Fetching a range of blocks from a peer

Model of `sync/syncBlock.go` and of the requesting side of `sync/syncHandler.go`. One task asks a
peer for the blocks of a range, part by part. Between two steps it stands in the `select` of
`getRemoteBlocks`; what it waits for are the replies in the channel and the clock. `HandlerMessage`
and `SyncExit` run beside it, so the channels are state too.
-/
namespace HNBChain.Audit.Source.Sync

open List

structure Header where
  blockNum : UInt64
deriving DecidableEq

structure Block where
  header : Option Header
deriving DecidableEq

/-- `v.Header.BlockNum`, where both pointers come from the peer: `none` is the panic at a nil
one. -/
def number (v : Option Block) : Option UInt64 := do
  let block ← v
  let header ← block.header
  return header.blockNum

/-- The numbers of the first and the last block. An empty list that is not nil is indexed all the
same. -/
def getBlocksScope : Option (List (Option Block)) → Option (UInt64 × UInt64)
  | none => some (0, 0)
  | some blocks => do
    let first ← blocks.head?.bind number
    let last ← blocks.getLast?.bind number
    return (first, last)

structure RequestBlocks where
  beginIndex : UInt64
  endIndex : UInt64
  version : UInt64
deriving DecidableEq

structure ResponseBlocks where
  blocks : Option (List (Option Block))
  version : UInt64
deriving DecidableEq

structure SyncNotify where
  senderID : UInt64
  block : Option Block
  finishFlag : Bool
  version : UInt32
deriving DecidableEq

structure BlockSyncReq where
  beginIndex : UInt64
  endIndex : UInt64
  peerID : UInt64
  version : UInt32
  /-- Whether `notifyHandler` is not nil. -/
  notifies : Bool

structure SyncChainHandler where
  chainID : String
  chainSyncVersion : UInt64
  syncBlockChannel : List ResponseBlocks
  exitTask : Bool
  interval : UInt64 → Option Nat
  maxSyncBlockCount : Nat

namespace SyncChainHandler

variable (sch : SyncChainHandler)

def getInterval (peerID : UInt64) : Option Nat := sch.interval peerID

def setInterval (peerID : UInt64) (interval : Nat) : SyncChainHandler :=
  { sch with interval := Function.update sch.interval peerID (some interval) }

def genRemoteBlocksRequest (beginIndex endIndex : UInt64) : RequestBlocks × SyncChainHandler :=
  (⟨beginIndex, endIndex, sch.chainSyncVersion⟩,
    { sch with chainSyncVersion := sch.chainSyncVersion + 1 })

/-- The branch of `HandlerMessage` for replies. -/
def handlerMessage (res : ResponseBlocks) : SyncChainHandler :=
  if sch.chainSyncVersion - 1 = res.version
    then { sch with syncBlockChannel := sch.syncBlockChannel ++ [res] } else sch

end SyncChainHandler

/-- Where `syncBlock` stands: in the `select` after a request, or at its end. -/
inductive Phase where
  | receiving (request : RequestBlocks) (retransmissions : Int8)
  | returned (err : Option String)
  | panicked
deriving DecidableEq

structure Task where
  sch : SyncChainHandler
  /-- The calls of the handler so far. -/
  notified : List SyncNotify
  phase : Phase

/-- The head of the loop in `getRemoteBlocks`: a request goes out, then the exit channel is looked
at. -/
def transmit (sch : SyncChainHandler) (notified : List SyncNotify)
    (tmpBeginIndex tmpEndIndex : UInt64) (retransmissions : Int8) : Task :=
  let (request, sch) := sch.genRemoteBlocksRequest tmpBeginIndex tmpEndIndex
  if sch.exitTask then
    { sch := { sch with exitTask := false, chainSyncVersion := sch.chainSyncVersion + 1 }
      notified, phase := .returned (some "stop sync") }
  else
    { sch, notified, phase := .receiving request (retransmissions + 1) }

/-- The head of the loop in `syncBlock`. From the second turn on `endIndex` is the number before
`beginIndex`, and the difference wraps around. -/
def nextPart (req : BlockSyncReq) (sch : SyncChainHandler) (notified : List SyncNotify)
    (beginIndex endIndex : UInt64) : Task :=
  let (interval, sch) :=
    match sch.getInterval req.peerID with
    | some interval =>
      if 20 < endIndex - beginIndex then
        (sch.maxSyncBlockCount, sch.setInterval req.peerID sch.maxSyncBlockCount)
      else
        (interval, sch)
    | none => (sch.maxSyncBlockCount, sch.setInterval req.peerID sch.maxSyncBlockCount)
  let endIndex :=
    if UInt64.ofNat interval < req.endIndex - beginIndex + 1 then
      beginIndex + UInt64.ofNat interval - 1
    else
      req.endIndex
  transmit sch notified beginIndex endIndex 0

/-- `blockSyncProcess` up to the first wait. -/
def blockSyncProcess (req : BlockSyncReq) (sch : SyncChainHandler) : Task :=
  nextPart req { sch with exitTask := false } [] req.beginIndex req.endIndex

/-- The calls of the handler for a list of blocks, and whether the loop gets through: after each
call the number of the block is read for the log. -/
def notifyBlocks (req : BlockSyncReq) : List (Option Block) → List SyncNotify × Bool
  | [] => ([], true)
  | v :: rest =>
    let notify : SyncNotify :=
      { senderID := req.peerID, block := v, finishFlag := false, version := req.version }
    match number v with
    | none => ([notify], false)
    | some _ =>
      let (later, through) := notifyBlocks req rest
      (notify :: later, through)

/-- The rest of a turn of `syncBlock`, once blocks up to `last` have come. -/
def deliver (req : BlockSyncReq) (task : Task) (blocks : List (Option Block))
    (last : UInt64) : Task :=
  if req.notifies then
    let (calls, through) := notifyBlocks req blocks
    let notified := task.notified ++ calls
    if !through then
      { task with notified, phase := .panicked }
    else if req.endIndex < last + 1 then
      { task with notified, phase := .returned none }
    else
      nextPart req task.sch notified (last + 1) last
  else
    { task with phase := .returned none }

/-- What `getRemoteBlocks` makes of a reply: nothing came, an end of the list has no number, the
request is sent again, or it returns the blocks, the last of which has this number. -/
inductive Outcome where
  | nothing
  | panics
  | resends
  | returns (blocks : List (Option Block)) (last : UInt64)

def RequestBlocks.outcome (request : RequestBlocks) : Option (List (Option Block)) → Outcome
  | none => .nothing
  | some blocks =>
    match getBlocksScope (some blocks) with
    | none => .panics
    | some (recvBeginIndex, recvEndIndex) =>
      if recvBeginIndex ≠ request.beginIndex ∨ recvEndIndex ≠ request.endIndex then .resends
      else .returns blocks recvEndIndex

def receive (req : BlockSyncReq) (task : Task) (request : RequestBlocks)
    (retransmissions : Int8) : Task :=
  match task.sch.syncBlockChannel with
  | [] => task
  | resBlock :: rest =>
    let sch := { task.sch with syncBlockChannel := rest }
    match request.outcome resBlock.blocks with
    -- Without blocks `getRemoteBlocks` returns neither blocks nor an error.
    | .nothing => { task with sch, phase := .returned none }
    | .panics => { task with sch, phase := .panicked }
    | .resends => transmit sch task.notified request.beginIndex request.endIndex retransmissions
    | .returns blocks last => deliver req { task with sch } blocks last

/-- The first and the third timeout make the interval smaller; what is asked for next follows from
the interval alone. -/
def timeout (req : BlockSyncReq) (task : Task) (request : RequestBlocks)
    (retransmissions : Int8) : Task :=
  let (sch, tmpEndIndex) :=
    if retransmissions = 1 ∨ retransmissions = 3 then
      let interval := max ((task.sch.getInterval req.peerID).getD 0 / 2) 1
      (task.sch.setInterval req.peerID interval, request.beginIndex + UInt64.ofNat interval - 1)
    else
      (task.sch, request.endIndex)
  if retransmissions = 5 then
    let text := s!"* chainID({sch.chainID}).(retransmissions timeout)"
    { task with sch, phase := .returned (some text) }
  else
    transmit sch task.notified request.beginIndex tmpEndIndex retransmissions

inductive SyncEvent where
  | response (res : ResponseBlocks)
  | receive
  | timeout
  | syncExit
deriving DecidableEq

def Task.step (req : BlockSyncReq) (task : Task) : SyncEvent → Task
  | .response res => { task with sch := task.sch.handlerMessage res }
  | .receive =>
    match task.phase with
    | .receiving request retransmissions => Sync.receive req task request retransmissions
    | _ => task
  | .timeout =>
    match task.phase with
    | .receiving request retransmissions => Sync.timeout req task request retransmissions
    | _ => task
  | .syncExit =>
    match task.phase with
    | .receiving _ _ => { task with sch := { task.sch with exitTask := true } }
    -- The state of the handler is 0 again, and the signal is not sent.
    | _ => task

def runSync (req : BlockSyncReq) (sch : SyncChainHandler) (events : List SyncEvent) : Task :=
  events.foldl (Task.step req) (blockSyncProcess req sch)

/-- The last notification of `blockSyncProcess`. A nil handler is called here, too, and there is
none. -/
def Task.finishNotify (req : BlockSyncReq) (task : Task) : Option SyncNotify :=
  match task.phase with
  | .returned err =>
    if req.notifies then
      some
        { senderID := req.peerID, block := none, finishFlag := err.isNone,
          version := req.version }
    else
      none
  | _ => none

/-- The numbers of the blocks that went to the handler. -/
def Task.numbers (task : Task) : List (Option UInt64) :=
    task.notified.map fun notify => number notify.block

/-! ## Serving a request -/

/-- The blocks that `ledger.GetBlock` finds, by number. -/
abbrev Ledger := Finmap fun _ : UInt64 => Block

/-- The entries of the slices that are made before anything is read. -/
def RequestBlocks.length (req : RequestBlocks) : UInt64 := req.endIndex - req.beginIndex + 1

/-- Longer slices of 8-byte entries than the address space has room for are a panic in `make`. -/
def maxSliceLen : Nat := 2 ^ 45

/-- The loop of `processRequestBlocks` with the entries that are still nil. The outer `none` is a
panic, at an index out of range or at a block without a header; the inner one the refusal. -/
def fillBlocks (ledger : Ledger) (endIndex : UInt64) :
    Nat → UInt64 → Option (Option (List (Option Block)))
  | 0, i =>
    if i ≤ endIndex then
      match ledger.lookup i with
      | none => some none
      | some _ => none
    else
      some (some [])
  | room + 1, i =>
    if i ≤ endIndex then
      match ledger.lookup i with
      | none => some none
      | some block => do
        let _ ← block.header
        let rest ← fillBlocks ledger endIndex room (i + 1)
        return rest.map (some block :: ·)
    else
      some (some (replicate (room + 1) none))

def processRequestBlocks (ledger : Ledger) (req : RequestBlocks) : Option ResponseBlocks :=
  if maxSliceLen < req.length.toNat then
    none
  else do
    let blocks ← fillBlocks ledger req.endIndex req.length.toNat req.beginIndex
    return ⟨blocks, req.version⟩

/-! ## One call of `getRemoteBlocks` -/

/-- What ends a wait: a reply out of the channel, or the clock. -/
inductive Reply where
  | blocks (blocks : Option (List (Option Block)))
  | timeout

/-- A call and the requests it has sent. -/
structure Fetch where
  task : Task
  sent : Nat

/-- The call up to its first wait. -/
def getRemoteBlocks (sch : SyncChainHandler) (beginIndex endIndex : UInt64) : Fetch :=
  ⟨transmit sch [] beginIndex endIndex 0, 1⟩

/-- The counter of requests is looked at after a timeout, and only then. -/
def Fetch.step (req : BlockSyncReq) (fetch : Fetch) (reply : Reply) : Fetch :=
  match fetch.task.phase, reply with
  | .receiving request retransmissions, .blocks blocks =>
    match request.outcome blocks with
    | .panics => { fetch with task := { fetch.task with phase := .panicked } }
    | .resends =>
      ⟨transmit fetch.task.sch fetch.task.notified request.beginIndex request.endIndex
        retransmissions,
          fetch.sent + 1⟩
    | _ => { fetch with task := { fetch.task with phase := .returned none } }
  | .receiving request retransmissions, .timeout =>
    ⟨Sync.timeout req fetch.task request retransmissions,
      if retransmissions = 5 then fetch.sent else fetch.sent + 1⟩
  | _, _ => fetch

/-- The call after `n` waits. -/
def fetched (req : BlockSyncReq) (sch : SyncChainHandler) (beginIndex endIndex : UInt64)
    (replies : Nat → Reply) :
    Nat → Fetch
  | 0 => getRemoteBlocks sch beginIndex endIndex
  | n + 1 => (fetched req sch beginIndex endIndex replies n).step req (replies n)

theorem outcome_of_scope (request : RequestBlocks) {blocks : List (Option Block)}
    {first last : UInt64}
    (scope : getBlocksScope (some blocks) = some (first, last)) : request.outcome (some blocks) =
      if first ≠ request.beginIndex ∨ last ≠ request.endIndex then .resends
      else .returns blocks last := by
  simp only [RequestBlocks.outcome, scope]

theorem outcome_panics (request : RequestBlocks) {blocks : List (Option Block)}
    (scope : getBlocksScope (some blocks) = none) : request.outcome (some blocks) = .panics := by
  simp only [RequestBlocks.outcome, scope]

/-! ## What the parts leave alone -/

section

variable (req : BlockSyncReq) (sch : SyncChainHandler) (notified : List SyncNotify)

@[simp] theorem transmit_notified (b e : UInt64) (r : Int8) :
    (transmit sch notified b e r).notified = notified := by
  unfold transmit
  dsimp only
  split <;> rfl

@[simp] theorem nextPart_notified (b e : UInt64) :
    (nextPart req sch notified b e).notified = notified := by
  exact transmit_notified _ _ _ _ _

variable (task : Task)

@[simp] theorem timeout_notified (request : RequestBlocks) (r : Int8) :
    (timeout req task request r).notified = task.notified := by
  unfold timeout
  dsimp only
  split
  · rfl
  · exact transmit_notified _ _ _ _ _

/-- A request is out for the blocks from `b` on, unless the task was told to stop. -/
theorem transmit_cases (b e : UInt64) (r : Int8) :
    (transmit sch notified b e r).phase = .returned (some "stop sync") ∨
    ∃ request r', request.beginIndex = b ∧
    (transmit sch notified b e r).phase = .receiving request r' := by
  unfold transmit
  dsimp only
  split
  · exact .inl rfl
  · exact .inr ⟨_, _, rfl, rfl⟩

variable (blocks : List (Option Block))

/-- The handler gets the blocks one by one, up to the first without a number. -/
theorem notifyBlocks_numbers : (notifyBlocks req blocks).2 = true →
    ((notifyBlocks req blocks).1.map fun notify => number notify.block) = blocks.map number := by
  induction blocks with
  | nil => exact fun _ => rfl
  | cons v rest ih =>
    unfold notifyBlocks
    cases found : number v with
    | none => exact fun through => Bool.noConfusion through
    | some n =>
      intro through
      simp only [map_cons, found, ih through]

theorem notifyBlocks_through {blocks : List (Option Block)} (hn : none ∉ blocks.map number) :
    (notifyBlocks req blocks).2 = true := by
  induction blocks with
  | nil => rfl
  | cons v rest ih =>
    rw [map_cons, mem_cons, not_or] at hn
    unfold notifyBlocks
    cases found : number v with
    | none => exact absurd found.symm hn.1
    | some n => exact ih hn.2

theorem deliver_notified (last : UInt64) :
    task.notified <+: (deliver req task blocks last).notified := by
  unfold deliver
  dsimp only
  split
  · split
    · exact prefix_append _ _
    · split
      · exact prefix_append _ _
      · rw [nextPart_notified]
        exact prefix_append _ _
  · exact prefix_rfl

theorem receive_notified (request : RequestBlocks) (r : Int8) :
    task.notified <+: (receive req task request r).notified := by
  unfold receive
  cases task.sch.syncBlockChannel with
  | nil => exact prefix_rfl
  | cons res rest =>
    dsimp only
    cases request.outcome res.blocks with
    | nothing => exact prefix_rfl
    | panics => exact prefix_rfl
    | resends =>
      dsimp only
      rw [transmit_notified]
    | returns blocks last =>
      exact deliver_notified req { task with
        sch := { task.sch with syncBlockChannel := rest } } blocks last

/-- The handler is only called more often. -/
theorem step_notified (e : SyncEvent) : task.notified <+: (task.step req e).notified := by
  unfold Task.step
  cases e with
  | response res => exact prefix_rfl
  | receive =>
    dsimp only
    split
    · exact receive_notified req _ _ _
    · exact prefix_rfl
  | timeout =>
    dsimp only
    split
    · rw [timeout_notified]
    · exact prefix_rfl
  | syncExit =>
    dsimp only
    split <;> exact prefix_rfl

/-- After its end `syncBlock` does nothing more. -/
theorem step_of_ended {task : Task} (e : SyncEvent)
    (ended : ∀ request r, task.phase ≠ .receiving request r) :
    (task.step req e).phase = task.phase ∧ (task.step req e).notified = task.notified := by
  unfold Task.step
  cases e with
  | response res => exact ⟨rfl, rfl⟩
  | receive =>
    dsimp only
    split
    · exact absurd ‹_› (ended _ _)
    · exact ⟨rfl, rfl⟩
  | timeout =>
    dsimp only
    split
    · exact absurd ‹_› (ended _ _)
    · exact ⟨rfl, rfl⟩
  | syncExit =>
    dsimp only
    split
    · exact absurd ‹_› (ended _ _)
    · exact ⟨rfl, rfl⟩

end

end HNBChain.Audit.Source.Sync
