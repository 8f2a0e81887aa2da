import HNBChain.Audit.Source.SyncBlock

/-!
# Asking for a sync

`SyncToTarget` of `sync/syncReq.go` reads the sync state of the chain and sets it under two locks,
and the thread of `sync/syncBlock.go` clears it. Calls and the thread take turns in any order.
`SyncEntrance` of the consensus computes the range it asks for.
-/
namespace HNBChain.Audit.Source.Sync

/-- The requests of a registered chain. -/
structure SyncRequests where
  syncState : UInt8
  /-- Calls that have read the state and not set it yet. -/
  checked : List BlockSyncReq
  /-- Calls that have set the state and not sent their request yet. -/
  marked : List BlockSyncReq
  syncReq : List BlockSyncReq
  /-- The request in `blockSyncProcess`. -/
  current : Option BlockSyncReq

inductive Turn where
  | call (req : BlockSyncReq)
  | mark (i : Nat)
  | send (i : Nat)
  | take
  | finish

namespace SyncRequests

def idle : SyncRequests := ⟨0, [], [], [], none⟩

def step (s : SyncRequests) : Turn → SyncRequests
  | .call req => if s.syncState = 1 then s else { s with checked := req :: s.checked }
  | .mark i =>
    match s.checked[i]? with
    | some req =>
      { s with syncState := 1, checked := s.checked.eraseIdx i, marked := req :: s.marked }
    | none => s
  | .send i =>
    match s.marked[i]? with
    | some req =>
      if s.syncReq.length < 20 then
        { s with marked := s.marked.eraseIdx i, syncReq := s.syncReq ++ [req] }
      else s
    | none => s
  | .take =>
    match s.current, s.syncReq with
    | none, req :: rest => { s with syncReq := rest, current := some req }
    | _, _ => s
  | .finish =>
    match s.current with
    | some _ => { s with syncState := 0, current := none }
    | none => s

/-- The requests whose calls were not refused, until the thread is done with them. -/
def unfinished (s : SyncRequests) : List BlockSyncReq :=
  s.checked ++ s.marked ++ s.syncReq ++ s.current.toList

end SyncRequests

/-! ## The range -/

/-- The fields of `TDMMsgHandler` about its own sync. -/
structure SyncStatus where
  isSyncStatus : Bool
  version : UInt32
  beginBlockNum : UInt64
  endBlockNum : UInt64
  senderId : UInt64
  syncBlkCountTarget : UInt64
  syncBlkCountComplete : UInt64
  syncTimer : Bool

namespace SyncStatus

def updateSyncBlkCount (syncNum : UInt64) (h : SyncStatus) : SyncStatus :=
  { h with syncBlkCountTarget := syncNum, syncBlkCountComplete := 0 }

/-- `accepted` is whether `SyncToTarget` returns no error. -/
def updateSync (accepted : Bool) (beginBlockNum endBlockNum reciver : UInt64)
    (h : SyncStatus) : SyncStatus :=
  if h.isSyncStatus then h
  else
    { h with isSyncStatus := accepted, beginBlockNum, endBlockNum, senderId := reciver,
             syncTimer := accepted && h.syncTimer }

def syncEntrance (accepted : Bool) (height toHeight sendID : UInt64)
    (h : SyncStatus) : SyncStatus :=
  if h.isSyncStatus then h
  else
    let h := { h with version := h.version + 1 }
    let h :=
      if 10 < toHeight ∧ height ≤ toHeight - 10 then
        (h.updateSyncBlkCount 10).updateSync accepted height (height + 9) sendID
      else
        (h.updateSyncBlkCount (toHeight - height)).updateSync accepted height (toHeight - 1) sendID
    { h with syncTimer := true }

end SyncStatus

end HNBChain.Audit.Source.Sync
