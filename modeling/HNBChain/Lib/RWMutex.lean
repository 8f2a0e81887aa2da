import Mathlib.Data.Set.Card
import Mathlib.Tactic

/-!
# Read-write mutexes

A mutex for one writer or many readers, in which a writer that waits for the readers keeps new ones
out. `Owned` relates it to the threads that use it: what each operation does to the mutex is what it
does to the sets of threads that write and read, whatever the program of the threads is.
-/
namespace HNBChain.Lib

/-- `writer` is set from the call of a writer until it unlocks; it has the mutex once there are no
readers. -/
structure RWMutex where
  writer : Bool
  readers : Nat
  deriving DecidableEq, Repr

namespace RWMutex

def free : RWMutex := ⟨false, 0⟩

/-- The first half of locking, which waits for other writers. The second half waits for the
readers. -/
def announce (m : RWMutex) : Option RWMutex :=
  if m.writer then none else some { m with writer := true }

/-- To unlock a mutex that is not locked is an error. -/
def unlock (m : RWMutex) : Option RWMutex :=
  if m.writer then some { m with writer := false } else none

/-- A reader waits for writers, also for those that wait themselves. -/
def rLock (m : RWMutex) : Option RWMutex :=
  if m.writer then none else some { m with readers := m.readers + 1 }

def rUnlock (m : RWMutex) : Option RWMutex :=
  if m.readers = 0 then none else some { m with readers := m.readers - 1 }

/-- The threads that have announced themselves as writers, and those that read. -/
structure Owned {ι : Type} (m : RWMutex) (writes reads : ι → Prop) : Prop where
  writer : m.writer = true ↔ ∃ i, writes i
  single : ∀ i j, writes i → writes j → i = j
  readers : m.readers = {i | reads i}.ncard

section

variable {ι : Type} {m m' : RWMutex} {writes reads writes' reads' : ι → Prop} {i : ι}

theorem owned_free (noWriter : ∀ i, ¬ writes i) (noReader : ∀ i, ¬ reads i) :
    free.Owned writes reads where
  writer := ⟨nofun, fun ⟨i, held⟩ => absurd held (noWriter i)⟩
  single i _ held := absurd held (noWriter i)
  readers := by
    have he : {i | reads i} = ∅ := Set.eq_empty_of_forall_notMem noReader
    rw [he, Set.ncard_empty]
    rfl

theorem Owned.congr (ho : m.Owned writes reads) (sameWrites : ∀ j, writes' j ↔ writes j)
    (sameReads : ∀ j, reads' j ↔ reads j) : m.Owned writes' reads' := by
  obtain rfl : writes' = writes := funext fun j => propext (sameWrites j)
  obtain rfl : reads' = reads := funext fun j => propext (sameReads j)
  exact ho

theorem Owned.announce (ho : m.Owned writes reads) (ht : m.announce = some m') (new : writes' i)
    (hot : ∀ j, j ≠ i → (writes' j ↔ writes j)) (sameReads : ∀ j, reads' j ↔ reads j) :
    m'.Owned writes' reads' := by
  unfold RWMutex.announce at ht
  split at ht
  · cases ht
  · rename_i noWriter
    cases ht
    have only (j : ι) (held : writes' j) : j = i := by
      by_contra other
      exact noWriter (ho.writer.mpr ⟨j, (hot j other).mp held⟩)
    have readers := (ho.congr (fun _ => Iff.rfl) sameReads).readers
    exact ⟨⟨fun _ => ⟨i, new⟩, fun _ => rfl⟩,
      fun j k h1 h2 => (only j h1).trans (only k h2).symm,
      readers⟩

theorem Owned.unlock_exists (ho : m.Owned writes reads) (mine : writes i) :
    ∃ m', m.unlock = some m' :=
  ⟨{ m with writer := false }, if_pos (ho.writer.mpr ⟨i, mine⟩)⟩

theorem Owned.unlock (ho : m.Owned writes reads) (hg : m.unlock = some m') (mine : writes i)
    (gone : ¬ writes' i) (hot : ∀ j, j ≠ i → (writes' j ↔ writes j))
    (sameReads : ∀ j, reads' j ↔ reads j) : m'.Owned writes' reads' := by
  have none_ (j : ι) : ¬ writes' j := by
    intro held
    have other : j ≠ i := fun same => gone (same ▸ held)
    exact other (ho.single j i ((hot j other).mp held) mine)
  have readers := (ho.congr (fun _ => Iff.rfl) sameReads).readers
  unfold RWMutex.unlock at hg
  split at hg
  · cases hg
    exact ⟨⟨nofun, fun ⟨j, held⟩ => absurd held (none_ j)⟩,
      fun j _ held => absurd held (none_ j), readers⟩
  · cases hg

theorem Owned.announce_isSome (ho : m.Owned writes reads) : m.announce.isSome ↔
    ∀ i, ¬ writes i := by
  unfold RWMutex.announce
  rw [← not_exists, ← ho.writer]
  split <;> simp [*]

theorem Owned.rLock_isSome (ho : m.Owned writes reads) : m.rLock.isSome ↔ ∀ i, ¬ writes i := by
  unfold RWMutex.rLock
  rw [← not_exists, ← ho.writer]
  split <;> simp [*]

theorem Owned.rUnlock (ho : m.Owned writes reads) (hg : m.rUnlock = some m') (mine : reads i)
    (gone : ¬ reads' i) (hot : ∀ j, j ≠ i → (reads' j ↔ reads j))
    (sameWrites : ∀ j, writes' j ↔ writes j) : m'.Owned writes' reads' := by
  have ho := ho.congr sameWrites fun _ => Iff.rfl
  have removed : {j | reads' j} = {j | reads j} \ {i} := by
    ext j
    by_cases same : j = i
    · exact ⟨fun held => absurd (same ▸ held) gone, fun hm => absurd same hm.2⟩
    · exact (hot j same).trans ⟨fun held => ⟨held, same⟩, fun hm => hm.1⟩
  have mine : i ∈ {j | reads j} := mine
  unfold RWMutex.rUnlock at hg
  split at hg
  · cases hg
  · cases hg
    refine ⟨ho.writer, ho.single, ?_⟩
    rw [removed, Set.ncard_sdiff_singleton_of_mem mine, ← ho.readers]

variable [Finite ι]

theorem Owned.readers_eq_zero (ho : m.Owned writes reads) : m.readers = 0 ↔ ∀ i, ¬ reads i := by
  rw [ho.readers, Set.ncard_eq_zero (Set.toFinite _), Set.eq_empty_iff_forall_notMem]
  rfl

theorem Owned.rLock (ho : m.Owned writes reads) (ht : m.rLock = some m') (hf : ¬ reads i)
    (new : reads' i) (hot : ∀ j, j ≠ i → (reads' j ↔ reads j))
    (sameWrites : ∀ j, writes' j ↔ writes j) : m'.Owned writes' reads' := by
  have ho := ho.congr sameWrites fun _ => Iff.rfl
  unfold RWMutex.rLock at ht
  split at ht
  · cases ht
  · cases ht
    refine ⟨ho.writer, ho.single, ?_⟩
    have ha : {j | reads' j} = insert i {j | reads j} := by
      ext j
      by_cases same : j = i
      · exact ⟨fun _ => .inl same, fun _ => same ▸ new⟩
      · exact (hot j same).trans ⟨.inr, fun hm => hm.resolve_left same⟩
    have hf : i ∉ {j | reads j} := hf
    rw [ha, Set.ncard_insert_of_notMem hf (Set.toFinite _), ← ho.readers]

theorem Owned.rUnlock_exists (ho : m.Owned writes reads) (mine : reads i) :
    ∃ m', m.rUnlock = some m' := by
  have some_ : m.readers ≠ 0 := fun zero => ho.readers_eq_zero.mp zero i mine
  exact ⟨{ m with readers := m.readers - 1 }, if_neg some_⟩

end

end RWMutex

end HNBChain.Lib
