import HNBChain.Lib.RWMutex
import HNBChain.Lib.Octets

/-!
# The account lock of the REST interface

`AccLockMgr.Lock` takes the read-write mutex `rw` of the manager for writing, makes the lock of the
account if there is none, and takes it while it still has `rw`. `UnLock` takes `rw` for reading and
gives the lock of the account back. Each request is a thread that does one after the other for one
address; the threads are interleaved at every operation on a mutex.
-/
namespace HNBChain.Audit.Source.AccountLock

open Lib Function

/-- `AccLockMgr`. An address without an entry has no lock yet; entries are never removed, so that a
lock is known by its address. -/
structure AccLockMgr where
  rw : RWMutex
  accLock : Bytes → Option RWMutex

/-- Where a thread is. -/
inductive Stage where
  /-- Before the call of `Lock`. -/
  | calling
  /-- In `alm.rw.Lock()`: other writers are out, the readers may not be. -/
  | draining
  /-- Has `alm.rw`. -/
  | inside
  /-- Has looked up the lock of the account and calls its `Lock`. -/
  | wanting
  /-- In `lock.Lock()`, after other writers. -/
  | taking
  /-- Has the lock of the account and gives `alm.rw` back. -/
  | leaving
  /-- `Lock` has returned. -/
  | working
  /-- Calls `alm.rw.RLock()` of `UnLock`. -/
  | finishing
  /-- Reads `alm.rw`. -/
  | reading
  /-- Has given back the lock of the account. -/
  | released
  /-- `UnLock` has returned. -/
  | done
  /-- An operation on a missing lock, or the release of a lock that is not taken. -/
  | crashed
  deriving DecidableEq, Repr

def AccLockMgr.set (alm : AccLockMgr) (a : Bytes) (lock : RWMutex) : AccLockMgr :=
  { alm with accLock := update alm.accLock a (some lock) }

/-- The next operation of a thread that locks the address `a`; none if it has to wait or has
ended. -/
def AccLockMgr.step (a : Bytes) (alm : AccLockMgr) : Stage → Option (AccLockMgr × Stage)
  | .calling => alm.rw.announce.map fun rw => ({ alm with rw := rw }, .draining)
  | .draining => if alm.rw.readers = 0 then some (alm, .inside) else none
  | .inside =>
    match alm.accLock a with
    | some _ => some (alm, .wanting)
    | none => some (alm.set a .free, .wanting)
  | .wanting =>
    match alm.accLock a with
    | some lock => lock.announce.map fun lock => (alm.set a lock, .taking)
    | none => some (alm, .crashed)
  | .taking =>
    match alm.accLock a with
    | some lock => if lock.readers = 0 then some (alm, .leaving) else none
    | none => some (alm, .crashed)
  | .leaving =>
    match alm.rw.unlock with
    | some rw => some ({ alm with rw := rw }, .working)
    | none => some (alm, .crashed)
  | .working => some (alm, .finishing)
  | .finishing => alm.rw.rLock.map fun rw => ({ alm with rw := rw }, .reading)
  | .reading =>
    match (alm.accLock a).bind RWMutex.unlock with
    | some lock => some (alm.set a lock, .released)
    | none => some (alm, .crashed)
  | .released =>
    match alm.rw.rUnlock with
    | some rw => some ({ alm with rw := rw }, .done)
    | none => some (alm, .crashed)
  | .done | .crashed => none

/-- The manager and its threads. -/
structure System (n : Nat) where
  alm : AccLockMgr
  stage : Fin n → Stage

section

variable {n : Nat} (addr : Fin n → Bytes)

def System.start : System n := ⟨⟨.free, fun _ => none⟩, fun _ => .calling⟩

def System.step (s : System n) (i : Fin n) : Option (System n) :=
  (s.alm.step (addr i) (s.stage i)).map fun next => ⟨next.1, update s.stage i next.2⟩

/-- Any thread that can go on may be next. -/
def Steps (s s' : System n) : Prop := ∃ i, s.step addr i = some s'

def Reachable (s : System n) : Prop := Relation.ReflTransGen (Steps addr) .start s

/-- A schedule, in which a thread that has to wait is passed over. -/
def System.run (s : System n) : List (Fin n) → System n
  | [] => s
  | i :: rest => ((s.step addr i).getD s).run rest

theorem System.run_reachable {s : System n} (hr : Reachable addr s) (schedule : List (Fin n)) :
    Reachable addr (s.run addr schedule) := by
  induction schedule generalizing s with
  | nil => exact hr
  | cons i rest ih =>
    refine ih ?_
    cases next : s.step addr i with
    | none => exact hr
    | some s' => exact hr.tail ⟨i, next⟩

end

/-! ## Who has which mutex -/

/-- The thread is a writer of `alm.rw`. -/
def Stage.writes : Stage → Bool
  | .draining | .inside | .wanting | .taking | .leaving => true
  | _ => false

def Stage.reads : Stage → Bool
  | .reading | .released => true
  | _ => false

/-- The thread is the writer of the lock of its account. -/
def Stage.owns : Stage → Bool
  | .taking | .leaving | .working | .finishing | .reading => true
  | _ => false

/-- The lock of the account has been looked up. -/
def Stage.knows : Stage → Bool
  | .wanting => true
  | stage => stage.owns

theorem Stage.knows_of_owns {stage : Stage} (owns : stage.owns) : stage.knows := by
  unfold Stage.knows
  split
  · rfl
  · exact owns

/-- The mutexes belong to the threads that should have them, and no thread has crashed. -/
structure Sound {n : Nat} (addr : Fin n → Bytes) (s : System n) : Prop where
  rw : s.alm.rw.Owned (fun i => (s.stage i).writes) fun i => (s.stage i).reads
  known : ∀ i, (s.stage i).knows → (s.alm.accLock (addr i)).isSome
  lock : ∀ a lock, s.alm.accLock a = some lock →
    lock.Owned (fun i => addr i = a ∧ (s.stage i).owns) fun _ => False
  running : ∀ i, s.stage i ≠ .crashed

section

variable {n : Nat} {addr : Fin n → Bytes} {s : System n} {i : Fin n} {stage : Stage}

theorem sound_start : Sound addr .start where
  rw := RWMutex.owned_free (fun _ writes => by cases writes) fun _ reads => by cases reads
  known _ knows := by cases knows
  lock _ _ held := by cases held
  running _ crashed := by cases crashed

theorem update_others (P : Stage → Bool) (j : Fin n) (other : j ≠ i) :
    P (update s.stage i stage j) = true ↔ P (s.stage j) = true := by
  rw [update_of_ne other]

theorem update_same {P : Stage → Bool} (same : P stage = P (s.stage i)) (j : Fin n) :
    P (update s.stage i stage j) = true ↔ P (s.stage j) = true := by
  by_cases here : j = i
  · subst here
    rw [update_self, same]
  · exact update_others P j here

/-- The lock of another account is let alone by the thread. -/
theorem owns_elsewhere {a : Bytes} (other : a ≠ addr i) (j : Fin n) :
    addr j = a ∧ (update s.stage i stage j).owns = true ↔ addr j = a ∧ (s.stage j).owns = true := by
  refine and_congr_right fun at_ => update_others Stage.owns j ?_
  rintro rfl
  exact other at_.symm

theorem owns_same {a : Bytes} (same : stage.owns = (s.stage i).owns) (j : Fin n) :
    addr j = a ∧ (update s.stage i stage j).owns = true ↔ addr j = a ∧ (s.stage j).owns = true :=
  and_congr_right fun _ => update_same same j

theorem running_update (hru : ∀ i, s.stage i ≠ .crashed) (here : stage ≠ .crashed) (j : Fin n) :
    update s.stage i stage j ≠ .crashed := by
  by_cases same : j = i
  · subst same
    rw [update_self]
    exact here
  · rw [update_of_ne same]
    exact hru j

variable {rw : RWMutex}

/-- A step that changes `alm.rw` at most. -/
theorem Sound.rw_step (hs : Sound addr s) (here : stage ≠ .crashed)
    (ho : rw.Owned (fun j => (update s.stage i stage j).writes)
      fun j => (update s.stage i stage j).reads)
    (knows : stage.knows → (s.alm.accLock (addr i)).isSome) (owns : stage.owns = (s.stage i).owns) :
    Sound addr ⟨{ s.alm with rw := rw }, update s.stage i stage⟩ where
  rw := ho
  known j known := by
    dsimp only at known
    by_cases same : j = i
    · subst same
      rw [update_self] at known
      exact knows known
    · exact hs.known j ((update_others Stage.knows j same).mp known)
  lock a lock held := (hs.lock a lock held).congr (owns_same owns) fun _ => Iff.rfl
  running := running_update hs.running here

/-- A step that changes the lock of the account. -/
theorem Sound.lock_step (hs : Sound addr s) {lock : RWMutex} (here : stage ≠ .crashed)
    (writes : stage.writes = (s.stage i).writes) (reads : stage.reads = (s.stage i).reads)
    (ho : lock.Owned (fun j => addr j = addr i ∧ (update s.stage i stage j).owns)
      fun _ => False) : Sound addr ⟨s.alm.set (addr i) lock, update s.stage i stage⟩ where
  rw := hs.rw.congr (update_same writes) (update_same reads)
  known j known := by
    unfold AccLockMgr.set
    dsimp only
    by_cases at_ : addr j = addr i
    · rw [at_, update_self]
      rfl
    · rw [update_of_ne at_]
      refine hs.known j ((update_others Stage.knows j ?_).mp known)
      rintro rfl
      exact at_ rfl
  lock a other held := by
    unfold AccLockMgr.set at held
    dsimp only at held
    by_cases at_ : a = addr i
    · subst at_
      rw [update_self] at held
      cases held
      exact ho
    · rw [update_of_ne at_] at held
      exact (hs.lock a other held).congr (owns_elsewhere at_) fun _ => Iff.rfl
  running := running_update hs.running here

/-- A step that changes neither mutex. -/
theorem Sound.plain_step (hs : Sound addr s) (here : stage ≠ .crashed)
    (writes : stage.writes = (s.stage i).writes) (reads : stage.reads = (s.stage i).reads)
    (knows : stage.knows → (s.alm.accLock (addr i)).isSome) (owns : stage.owns = (s.stage i).owns) :
    Sound addr ⟨s.alm, update s.stage i stage⟩ :=
  hs.rw_step here (hs.rw.congr (update_same writes) (update_same reads)) knows owns

/-- The lock of the account is there when it is needed. -/
theorem Sound.lock_of_knows (hs : Sound addr s) (knows : (s.stage i).knows) :
    ∃ lock, s.alm.accLock (addr i) = some lock :=
  Option.isSome_iff_exists.mp (hs.known i knows)

/-! ### One lemma for each operation on a mutex -/

theorem Sound.calling (hs : Sound addr s) (here : s.stage i = .calling)
    (ht : s.alm.rw.announce = some rw) :
    Sound addr ⟨{ s.alm with rw := rw }, update s.stage i .draining⟩ := by
  refine hs.rw_step nofun (hs.rw.announce ht ?_ (update_others Stage.writes) ?_) nofun ?_
  · rw [update_self]
    rfl
  · exact update_same (by rw [here]; rfl)
  · rw [here]
    rfl

theorem Sound.wanting (hs : Sound addr s) (here : s.stage i = .wanting) {lock lock' : RWMutex}
    (hf : s.alm.accLock (addr i) = some lock) (ht : lock.announce = some lock') :
    Sound addr ⟨s.alm.set (addr i) lock', update s.stage i .taking⟩ := by
  refine hs.lock_step nofun (by rw [here]; rfl) (by rw [here]; rfl) ?_
  refine (hs.lock _ lock hf).announce (i := i) ht ⟨rfl, ?_⟩ (fun j other => ?_)
    fun _ => Iff.rfl
  · rw [update_self]
    rfl
  · exact and_congr_right fun _ => update_others Stage.owns j other

theorem Sound.leaving (hs : Sound addr s) (here : s.stage i = .leaving)
    (hg : s.alm.rw.unlock = some rw) :
    Sound addr ⟨{ s.alm with rw := rw }, update s.stage i .working⟩ := by
  have knows : (s.stage i).knows := by rw [here]; rfl
  refine hs.rw_step nofun (hs.rw.unlock (i := i) hg ?_ ?_ (update_others Stage.writes) ?_)
    (fun _ => hs.known i knows) ?_
  · rw [here]
    rfl
  · rw [update_self]
    nofun
  · exact update_same (by rw [here]; rfl)
  · rw [here]
    rfl

theorem Sound.finishing (hs : Sound addr s) (here : s.stage i = .finishing)
    (ht : s.alm.rw.rLock = some rw) :
    Sound addr ⟨{ s.alm with rw := rw }, update s.stage i .reading⟩ := by
  have knows : (s.stage i).knows := by rw [here]; rfl
  refine hs.rw_step nofun (hs.rw.rLock (i := i) ht ?_ ?_ (update_others Stage.reads) ?_)
    (fun _ => hs.known i knows) ?_
  · rw [here]
    nofun
  · rw [update_self]
    rfl
  · exact update_same (by rw [here]; rfl)
  · rw [here]
    rfl

theorem Sound.reading (hs : Sound addr s) (here : s.stage i = .reading) {lock lock' : RWMutex}
    (hf : s.alm.accLock (addr i) = some lock) (hg : lock.unlock = some lock') :
    Sound addr ⟨s.alm.set (addr i) lock', update s.stage i .released⟩ := by
  refine hs.lock_step nofun (by rw [here]; rfl) (by rw [here]; rfl) ?_
  refine (hs.lock _ lock hf).unlock (i := i) hg ⟨rfl, ?_⟩ ?_ (fun j other => ?_)
    fun _ => Iff.rfl
  · rw [here]
    rfl
  · rw [update_self]
    nofun
  · exact and_congr_right fun _ => update_others Stage.owns j other

theorem Sound.released (hs : Sound addr s) (here : s.stage i = .released)
    (hg : s.alm.rw.rUnlock = some rw) :
    Sound addr ⟨{ s.alm with rw := rw }, update s.stage i .done⟩ := by
  refine hs.rw_step nofun (hs.rw.rUnlock (i := i) hg ?_ ?_
    (update_others Stage.reads) ?_) nofun ?_
  · rw [here]
    rfl
  · rw [update_self]
    nofun
  · exact update_same (by rw [here]; rfl)
  · rw [here]
    rfl

/-- A lock that is made is nobody's. -/
theorem Sound.inside (hs : Sound addr s) (here : s.stage i = .inside)
    (missing : s.alm.accLock (addr i) = none) :
    Sound addr ⟨s.alm.set (addr i) .free, update s.stage i .wanting⟩ := by
  refine hs.lock_step nofun (by rw [here]; rfl) (by rw [here]; rfl)
    (RWMutex.owned_free (fun j held => ?_) fun _ => id)
  obtain ⟨at_, owns⟩ := held
  have owns : (s.stage j).owns := (update_same (by rw [here]; rfl) j).mp owns
  have hth := hs.known j (Stage.knows_of_owns owns)
  rw [at_, missing] at hth
  cases hth

theorem Sound.step {s' : System n} (hs : Sound addr s) (step : s.step addr i = some s') :
    Sound addr s' := by
  obtain ⟨⟨alm, stage⟩, next, rfl⟩ := Option.map_eq_some_iff.mp step
  have known (knows : (s.stage i).knows) := hs.lock_of_knows knows
  cases here : s.stage i <;> rw [here] at next known <;> dsimp only [AccLockMgr.step] at next
  case calling =>
    obtain ⟨rw, ht, same⟩ := Option.map_eq_some_iff.mp next
    cases same
    exact hs.calling here ht
  case draining =>
    split at next
    · cases next
      exact hs.plain_step nofun (by rw [here]; rfl) (by rw [here]; rfl) nofun (by rw [here]; rfl)
    · cases next
  case inside =>
    split at next <;> cases next
    next hf =>
      exact hs.plain_step nofun (by rw [here]; rfl) (by rw [here]; rfl) (fun _ => hf ▸ rfl)
        (by rw [here]; rfl)
    next missing => exact hs.inside here missing
  case wanting =>
    obtain ⟨lock, hf⟩ := known rfl
    rw [hf] at next
    obtain ⟨lock', ht, same⟩ := Option.map_eq_some_iff.mp next
    cases same
    exact hs.wanting here hf ht
  case taking =>
    obtain ⟨lock, hf⟩ := known rfl
    rw [hf] at next
    dsimp only at next
    split at next <;> cases next
    exact hs.plain_step nofun (by rw [here]; rfl) (by rw [here]; rfl) (fun _ => hf ▸ rfl)
      (by rw [here]; rfl)
  case leaving =>
    obtain ⟨rw, hg⟩ := hs.rw.unlock_exists (i := i) (by rw [here]; rfl)
    rw [hg] at next
    cases next
    exact hs.leaving here hg
  case working =>
    obtain ⟨lock, hf⟩ := known rfl
    cases next
    exact hs.plain_step nofun (by rw [here]; rfl) (by rw [here]; rfl) (fun _ => hf ▸ rfl)
      (by rw [here]; rfl)
  case finishing =>
    obtain ⟨rw, ht, same⟩ := Option.map_eq_some_iff.mp next
    cases same
    exact hs.finishing here ht
  case reading =>
    obtain ⟨lock, hf⟩ := known rfl
    obtain ⟨lock', hg⟩ := (hs.lock _ lock hf).unlock_exists (i := i)
      ⟨rfl, by rw [here]; rfl⟩
    rw [hf, Option.bind_some, hg] at next
    cases next
    exact hs.reading here hf hg
  case released =>
    obtain ⟨rw, hg⟩ := hs.rw.rUnlock_exists (i := i) (by rw [here]; rfl)
    rw [hg] at next
    cases next
    exact hs.released here hg
  case done => cases next
  case crashed => cases next

theorem Reachable.sound (hr : Reachable addr s) : Sound addr s := by
  induction hr with
  | refl => exact sound_start
  | tail _ last ih =>
    obtain ⟨i, step⟩ := last
    exact ih.step step

end

end HNBChain.Audit.Source.AccountLock
