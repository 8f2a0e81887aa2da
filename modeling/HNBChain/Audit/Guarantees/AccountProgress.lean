import HNBChain.Audit.Source.AccountLock

/-!
# The account lock can block every request

At most one thread has the lock of an account. But a thread that waits for the lock of an account
has `alm.rw` for writing, and the thread that has the account needs `alm.rw` to give it back: as
soon as two requests are for one address, they can block each other and with them all other
requests. Requests for different addresses never do.
-/
namespace HNBChain.Audit.Guarantees.AccountProgress

open Lib Source.AccountLock Function

/-- From the moment a thread gets the lock of its account until it gives it back. -/
def holds : Stage → Bool
  | .leaving | .working | .finishing | .reading => true
  | _ => false

section

variable {n : Nat} (addr : Fin n → Bytes) (s : System n)

/-- Unless all threads are done, one of them can go on. -/
def Progress : Prop := (∃ i, s.stage i ≠ .done) → ∃ i s', s.step addr i = some s'

/-- At most one thread is between `Lock` and `UnLock` of an address. -/
def Exclusive : Prop := ∀ i j, holds (s.stage i) → holds (s.stage j) → addr i = addr j → i = j

end

section

variable {n : Nat} {addr : Fin n → Bytes} {s : System n} {i j : Fin n}

theorem owns_of_holds {stage : Stage} (held : holds stage) : stage.owns := by
  cases stage <;> first | rfl | cases held

theorem Sound.exclusive (hs : Sound addr s) : Exclusive addr s := by
  intro i j h1 h2 same
  have owns := owns_of_holds h1
  obtain ⟨lock, hf⟩ := hs.lock_of_knows (Stage.knows_of_owns owns)
  exact (hs.lock _ lock hf).single i j ⟨rfl, owns⟩ ⟨same.symm, owns_of_holds h2⟩

/-! ## Different addresses -/

theorem step_exists (next : (s.alm.step (addr i) (s.stage i)).isSome) :
    ∃ i s', s.step addr i = some s' := by
  obtain ⟨next, hf⟩ := Option.isSome_iff_exists.mp next
  exact ⟨i, _, Option.map_eq_some_iff.mpr ⟨next, hf, rfl⟩⟩

/-- A reader of `alm.rw` waits for nothing. -/
theorem reader_steps (reads : (s.stage i).reads) : ∃ i s', s.step addr i = some s' := by
  refine step_exists (i := i) ?_
  cases here : s.stage i <;> rw [here] at reads <;> cases reads
  case reading =>
    dsimp only [AccLockMgr.step]
    split <;> rfl
  case released =>
    dsimp only [AccLockMgr.step]
    split <;> rfl

/-- Nobody else is after the lock of the account, so the writer of `alm.rw` does not wait for it. -/
theorem writer_steps (hs : Sound addr s) (ha : Function.Injective addr)
    (writes : (s.stage i).writes) : ∃ i s', s.step addr i = some s' := by
  have known (knows : (s.stage i).knows) := hs.lock_of_knows knows
  cases here : s.stage i <;> rw [here] at writes known <;> cases writes
  case draining =>
    by_cases hq : s.alm.rw.readers = 0
    · refine step_exists (i := i) ?_
      rw [here]
      dsimp only [AccLockMgr.step]
      rw [if_pos hq]
      rfl
    · rw [hs.rw.readers_eq_zero, not_forall] at hq
      obtain ⟨j, reads⟩ := hq
      exact reader_steps (not_not.mp reads)
  case inside =>
    refine step_exists (i := i) ?_
    rw [here]
    dsimp only [AccLockMgr.step]
    split <;> rfl
  case wanting =>
    obtain ⟨lock, hf⟩ := known rfl
    have free : lock.announce.isSome := by
      rw [(hs.lock _ lock hf).announce_isSome]
      rintro j ⟨same, owns⟩
      rw [ha same, here] at owns
      cases owns
    refine step_exists (i := i) ?_
    rw [here]
    dsimp only [AccLockMgr.step]
    rw [hf, Option.isSome_map]
    exact free
  case taking =>
    obtain ⟨lock, hf⟩ := known rfl
    have hq : lock.readers = 0 := (hs.lock _ lock hf).readers_eq_zero.mpr fun _ => id
    refine step_exists (i := i) ?_
    rw [here]
    dsimp only [AccLockMgr.step]
    rw [hf]
    dsimp only
    rw [if_pos hq]
    rfl
  case leaving =>
    refine step_exists (i := i) ?_
    rw [here]
    dsimp only [AccLockMgr.step]
    split <;> rfl

theorem Sound.progress (hs : Sound addr s) (ha : Function.Injective addr) :
    Progress addr s := by
  rintro ⟨i, hu⟩
  by_cases writing : ∃ j, (s.stage j).writes
  · obtain ⟨j, writes⟩ := writing
    exact writer_steps hs ha writes
  · have hn : ∀ j, ¬ (s.stage j).writes := not_exists.mp writing
    -- `alm.rw` is open for writers and for readers
    cases here : s.stage i
    case calling =>
      refine step_exists (i := i) ?_
      rw [here]
      dsimp only [AccLockMgr.step]
      rw [Option.isSome_map]
      exact hs.rw.announce_isSome.mpr hn
    case working =>
      refine step_exists (i := i) ?_
      rw [here]
      rfl
    case finishing =>
      refine step_exists (i := i) ?_
      rw [here]
      dsimp only [AccLockMgr.step]
      rw [Option.isSome_map]
      exact hs.rw.rLock_isSome.mpr hn
    case reading | released => exact reader_steps (i := i) (by rw [here]; rfl)
    case done => exact absurd here hu
    case crashed => exact absurd here (hs.running i)
    case draining | inside | wanting | taking | leaving =>
      exact absurd (by rw [here]; rfl) (hn i)

/-! ## Two requests for one address -/

/-- One thread has the account and calls `UnLock`, another waits for the account inside `Lock`. -/
def stuck (addr : Fin n → Bytes) (i j : Fin n) : System n :=
  ⟨⟨⟨true, 0⟩, update (fun _ => none) (addr i) (some ⟨true, 0⟩)⟩,
    update (update (fun _ => .calling) i .finishing) j .wanting⟩

theorem reachable_step {alm alm' : AccLockMgr} {stage stage' : Stage} {stages : Fin n → Stage}
    (hr : Reachable addr ⟨alm, update stages i stage⟩)
    (next : alm.step (addr i) stage = some (alm', stage')) :
    Reachable addr ⟨alm', update stages i stage'⟩ := by
  refine hr.tail ⟨i, ?_⟩
  unfold System.step
  dsimp only
  rw [update_self, next, Option.map_some, update_idem]

theorem stuck_reachable (other : i ≠ j) (same : addr i = addr j) :
    Reachable addr (stuck addr i j) := by
  have hst : Reachable addr ⟨⟨.free, fun _ => none⟩, update (fun _ => .calling) i .calling⟩ := by
    rw [update_eq_self_iff.mpr rfl]
    exact .refl
  -- the first thread locks the account and goes on to `UnLock`
  have h1 := reachable_step (reachable_step (reachable_step hst rfl) rfl) rfl
  have h2 : Reachable addr ⟨⟨⟨true, 0⟩, update (fun _ => none) (addr i) (some ⟨true, 0⟩)⟩,
      update (fun _ => .calling) i .taking⟩ := by
    refine reachable_step h1 ?_
    simp [AccLockMgr.step, AccLockMgr.set, RWMutex.announce, RWMutex.free]
  have third : Reachable addr ⟨⟨⟨true, 0⟩, update (fun _ => none) (addr i) (some ⟨true, 0⟩)⟩,
      update (fun _ => .calling) i .leaving⟩ := by
    refine reachable_step h2 ?_
    simp [AccLockMgr.step]
  have last := reachable_step (reachable_step third rfl) rfl
  -- the second one takes `alm.rw` and finds the account taken
  rw [← update_eq_self_iff.mpr (update_of_ne other.symm ..).symm] at last
  have next := reachable_step (reachable_step last rfl) rfl
  refine reachable_step next ?_
  simp [AccLockMgr.step, same]

theorem stuck_blocked (same : addr i = addr j) (k : Fin n) :
    (stuck addr i j).step addr k = none := by
  unfold System.step stuck
  dsimp only
  by_cases second : k = j
  · subst second
    rw [update_self]
    simp [AccLockMgr.step, same, RWMutex.announce]
  · rw [update_of_ne second]
    by_cases first : k = i
    · subst first
      rw [update_self]
      rfl
    · rw [update_of_ne first]
      rfl

/-- In all interleavings of the threads one can go on and no two have the lock of one account,
exactly if their addresses are different. -/
theorem lock_live_iff (addr : Fin n → Bytes) :
    (∀ s, Reachable addr s → Progress addr s ∧ Exclusive addr s) ↔ Function.Injective addr := by
  constructor
  · intro always i j same
    by_contra other
    have hu : ∃ k, (stuck addr i j).stage k ≠ .done := by
      refine ⟨j, ?_⟩
      unfold stuck
      dsimp only
      rw [update_self]
      nofun
    obtain ⟨k, s', step⟩ := (always _ (stuck_reachable other same)).1 hu
    cases (stuck_blocked same k).symm.trans step
  · exact fun ha s hr => ⟨Sound.progress hr.sound ha, Sound.exclusive hr.sound⟩

end

/-- Two requests of the account of the node, which is what `SendTxMsg` locks for every transaction
without a nonce: the second one is inside `Lock` when the first one calls `UnLock`. -/
def twoRequests : System 2 := System.start.run (fun _ => [1]) [0, 0, 0, 0, 0, 0, 0, 1, 1, 1]

theorem twoRequests_blocked : Reachable (fun _ => [1]) twoRequests ∧
    twoRequests.stage 0 = .finishing ∧ twoRequests.stage 1 = .wanting ∧
    (∀ i, (twoRequests.step (fun _ => [1]) i).isNone) ∧ ¬ Progress (fun _ => [1]) twoRequests := by
  have hb : ∀ i, (twoRequests.step (fun _ => [1]) i).isNone := by decide
  refine ⟨System.run_reachable _ .refl _, by decide, by decide, hb, fun progress => ?_⟩
  obtain ⟨i, s', step⟩ := progress ⟨0, by decide⟩
  have none_ := hb i
  rw [step] at none_
  cases none_

end HNBChain.Audit.Guarantees.AccountProgress
