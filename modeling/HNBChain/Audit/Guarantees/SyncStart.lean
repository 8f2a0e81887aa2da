import Mathlib.Tactic.Push
import HNBChain.Audit.Source.SyncReq
import HNBChain.Lib.GuardedRun

/-!
# One sync at a time, and how far it goes

A call of `SyncToTarget` is accepted if it finds the chain not syncing. It says that it is syncing
only afterwards, so a second call may be accepted in between. `SyncEntrance` subtracts its own
height from the one a peer names and compares them only to cut the range at ten blocks.
-/
namespace HNBChain.Audit.Guarantees.SyncStart

open Lib Source.Sync SyncRequests List

/-- A call is accepted only when no accepted request is unfinished. -/
def Alone (s : SyncRequests) : Turn → Prop
  | .call _ => s.syncState ≠ 1 → s.unfinished = []
  | _ => True

/-- The state is idle again when nothing is unfinished. -/
def Released (s : SyncRequests) : Prop := s.unfinished = [] → s.syncState = 0

/-- How many requests have got beyond their calls' first lock. -/
def announced (s : SyncRequests) : Nat :=
    s.marked.length + s.syncReq.length + s.current.toList.length

/-- There is at most one request, and the chain is syncing once its call has set the state. -/
structure Single (s : SyncRequests) : Prop where
  one : s.checked.length + announced s ≤ 1
  syncing : s.syncState ≠ 1 → announced s = 0

variable {s : SyncRequests}

theorem unfinished_eq_nil : s.unfinished = [] ↔ s.checked.length + announced s = 0 := by
  rw [← length_eq_zero_iff]
  simp only [unfinished, announced, length_append, Nat.add_assoc]

/-- What a turn changes: nothing that counts, or a call is accepted, sets the state, or is
finished. -/
inductive Counts (s s' : SyncRequests) : Turn → Prop
  | same {turn} (state : s'.syncState = s.syncState)
      (checked : s'.checked.length = s.checked.length)
      (rest : announced s' = announced s) : Counts s s' turn
  | accepted {req} (free : s.syncState ≠ 1) (state : s'.syncState = s.syncState)
      (checked : s'.checked.length = s.checked.length + 1) (rest : announced s' = announced s) :
      Counts s s' (.call req)
  | marked {turn} (state : s'.syncState = 1) (checked : s'.checked.length + 1 = s.checked.length)
      (rest : announced s' = announced s + 1) : Counts s s' turn
  | finished {turn} (state : s'.syncState = 0) (checked : s'.checked.length = s.checked.length)
      (rest : announced s' + 1 = announced s) : Counts s s' turn

theorem step_counts (s : SyncRequests) (turn : Turn) : Counts s (s.step turn) turn := by
  cases turn with
  | call req =>
    rw [step]
    split_ifs with busy
    · exact .same rfl rfl rfl
    · exact .accepted busy rfl rfl rfl
  | mark i =>
    rw [step]
    cases found : s.checked[i]? with
    | none => exact .same rfl rfl rfl
    | some req =>
      obtain ⟨hi, _⟩ := List.getElem?_eq_some_iff.mp found
      refine .marked rfl (length_eraseIdx_add_one hi) ?_
      simp only [announced, length_cons]
      omega
  | send i =>
    rw [step]
    cases found : s.marked[i]? with
    | none => exact .same rfl rfl rfl
    | some req =>
      obtain ⟨hi, _⟩ := List.getElem?_eq_some_iff.mp found
      have fewer := length_eraseIdx_add_one hi
      dsimp only
      split_ifs
      · refine .same rfl rfl ?_
        simp only [announced, length_append, length_singleton]
        omega
      · exact .same rfl rfl rfl
  | take =>
    rw [step]
    split
    next req rest free queued =>
      refine .same rfl rfl ?_
      simp only [announced, free, queued, length_cons, Option.toList, length_nil]
      omega
    · exact .same rfl rfl rfl
  | finish =>
    rw [step]
    split
    next working => exact .finished rfl rfl (by simp [announced, working])
    · exact .same rfl rfl rfl

theorem Single.turn (single : Single s) {turn : Turn} (ha : Alone s turn) :
    Single (s.step turn) := by
  obtain ⟨one, syncing⟩ := single
  cases step_counts s turn with
  | same state hc rest => exact ⟨by omega, fun free => rest.trans (syncing (state ▸ free))⟩
  | accepted free state hc rest =>
    have he := unfinished_eq_nil.mp (ha free)
    exact ⟨by omega, fun _ => by omega⟩
  | marked state hc rest => exact ⟨by omega, fun free => absurd state free⟩
  | finished state hc rest => exact ⟨by omega, fun _ => by omega⟩

theorem Released.turn (released : Released s) (turn : Turn) : Released (s.step turn) := by
  rw [Released, unfinished_eq_nil] at released ⊢
  intro he
  cases step_counts s turn with
  | same state hc rest => exact state.trans (released (by omega))
  | finished state => exact state
  | _ => omega

theorem Released.run (released : Released s) (turns : List Turn) :
    Released (turns.foldl step s) := by
  induction turns generalizing s with
  | nil => exact released
  | cons turn rest ih => exact ih (released.turn turn)

/-- The request of a call that is not refused. -/
def accepts (s : SyncRequests) : Turn → List BlockSyncReq
  | .call req => if s.syncState = 1 then [] else [req]
  | _ => []

/-- The request the thread is done with. -/
def finishes (s : SyncRequests) : Turn → List BlockSyncReq
  | .finish => s.current.toList
  | _ => []

def along (observe : SyncRequests → Turn → List BlockSyncReq) : SyncRequests → List Turn →
    List BlockSyncReq
  | _, [] => []
  | s, turn :: rest => observe s turn ++ along observe (s.step turn) rest

theorem countP_unfinished (p : BlockSyncReq → Bool) (s : SyncRequests) : s.unfinished.countP p =
      s.checked.countP p + s.marked.countP p + s.syncReq.countP p + s.current.toList.countP p := by
  simp only [unfinished, countP_append]

/-- A request that is taken from its place counts as before. -/
theorem countP_eraseIdx {l : List BlockSyncReq} {i : Nat} {req : BlockSyncReq}
    (hf : l[i]? = some req)
    (p : BlockSyncReq → Bool) : (l.eraseIdx i).countP p + [req].countP p = l.countP p := by
  obtain ⟨hi, rfl⟩ := List.getElem?_eq_some_iff.mp hf
  have same := (getElem_cons_eraseIdx_perm hi).countP_eq p
  rw [countP_cons] at same
  rw [← same, countP_singleton]

/-- What a turn leaves unfinished and finishes is what was unfinished and what it accepts. -/
theorem step_conserves (p : BlockSyncReq → Bool) (s : SyncRequests) (turn : Turn) :
    s.unfinished.countP p + (accepts s turn).countP p =
      (finishes s turn).countP p + (s.step turn).unfinished.countP p := by
  simp only [countP_unfinished]
  cases turn with
  | call req =>
    simp only [step, accepts, finishes]
    split_ifs with busy
    · simp only [countP_nil, Nat.add_zero, Nat.zero_add]
    · simp only [countP_cons, countP_nil]
      omega
  | mark i =>
    simp only [step, accepts, finishes, countP_nil]
    cases found : s.checked[i]? with
    | none => exact Nat.add_comm _ _
    | some req =>
      have hm := countP_eraseIdx found p
      simp only [countP_cons, countP_nil] at hm ⊢
      omega
  | send i =>
    simp only [step, accepts, finishes, countP_nil]
    cases found : s.marked[i]? with
    | none => exact Nat.add_comm _ _
    | some req =>
      have hm := countP_eraseIdx found p
      dsimp only
      split_ifs with room
      · simp only [countP_append]
        omega
      · exact Nat.add_comm _ _
  | take =>
    simp only [step, accepts, finishes, countP_nil]
    split
    next req rest free queued =>
      simp only [free, queued, Option.toList, countP_cons, countP_nil]
      omega
    · exact Nat.add_comm _ _
  | finish =>
    simp only [step, accepts, finishes, countP_nil]
    split
    next working =>
      simp only [working, Option.toList, countP_cons, countP_nil]
      omega
    next idle =>
      simp only [idle, Option.toList, countP_nil]
      omega

/-- However calls and the thread take turns, no accepted request is lost and none is synced
twice. -/
theorem requests_conserved (p : BlockSyncReq → Bool) (s : SyncRequests) (turns : List Turn) :
    s.unfinished.countP p + (along accepts s turns).countP p =
      (along finishes s turns).countP p + (turns.foldl step s).unfinished.countP p := by
  induction turns generalizing s with
  | nil => simp [along]
  | cons turn rest ih =>
    have here := step_conserves p s turn
    have hl := ih (s.step turn)
    simp only [along, countP_append, foldl_cons]
    omega

/-! ## The range -/

/-- A sync is started towards a greater height only, for at most ten blocks, which are counted. -/
def StartsRight (height toHeight : UInt64) (h : SyncStatus) : Prop :=
  h.isSyncStatus → height < toHeight ∧ h.beginBlockNum = height ∧
    h.endBlockNum.toNat = min (toHeight.toNat - 1) (height.toNat + 9) ∧
    h.syncBlkCountTarget.toNat = h.endBlockNum.toNat + 1 - h.beginBlockNum.toNat

/-- For every height between 1 and 2^63 and whatever a peer names: an idle node starts its sync
right exactly if the named height is above its own. -/
theorem startsRight_iff {height : UInt64} (hs : 1 ≤ height.toNat) (hb : height.toNat < 2 ^ 63)
    {h : SyncStatus} (idle : h.isSyncStatus = false) (accepted : Bool) (toHeight sendID : UInt64) :
    StartsRight height toHeight (h.syncEntrance accepted height toHeight sendID) ↔
      (accepted → height < toHeight) := by
  have room := toHeight.toNat_lt
  simp only [StartsRight, SyncStatus.syncEntrance, SyncStatus.updateSync,
    SyncStatus.updateSyncBlkCount, idle,
    Bool.false_eq_true, if_false, UInt64.lt_iff_toNat_lt, UInt64.le_iff_toNat_le]
  split_ifs with far
  · simp only [UInt64.toNat_sub, UInt64.toNat_add, UInt64.reduceToNat, true_and] at far ⊢
    refine imp_congr_right fun _ => ?_
    omega
  · simp only [UInt64.toNat_sub, UInt64.reduceToNat, true_and] at far ⊢
    refine imp_congr_right fun _ => ?_
    omega

/-- Nothing of a sync. -/
def unsynced : SyncStatus := ⟨false, 0, 0, 0, 0, 0, 0, false⟩

theorem startsRight_next : StartsRight 5 7 (unsynced.syncEntrance true 5 7 1) :=
  (startsRight_iff (by decide) (by decide) rfl true 7 1).mpr fun _ => by decide

/-- At height 5 a peer names 3: the sync is for the blocks from 5 to 2, with a target of 2^64 - 2
blocks. -/
theorem starts_back : (unsynced.syncEntrance true 5 3 1).endBlockNum = 2 ∧
    (unsynced.syncEntrance true 5 3 1).syncBlkCountTarget = 18446744073709551614 ∧
    ¬ StartsRight 5 3 (unsynced.syncEntrance true 5 3 1) :=
  ⟨rfl, rfl, fun right => absurd (right rfl).1 (by decide)⟩

end HNBChain.Audit.Guarantees.SyncStart
