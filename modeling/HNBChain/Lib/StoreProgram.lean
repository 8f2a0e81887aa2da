import Mathlib.Data.Finmap
import Mathlib.Tactic

/-!
# Programs over a key-value store

A `Prog` is a computation that reads, writes and deletes keys of a store and ends in a value or an
error. It fixes no meaning of the store: a `Handler` does. A `Memory` is a handler that never fails
and remembers what is written: `Memory.flat` is a map, `Memory.overlay` a set of pending changes
above a map. `Handler.failing` lets chosen reads fail. Writes made before an error stay made;
undoing them is up to whoever runs the program.

The one rule that compares two handlers is `Simulation.run`: handlers that answer reads alike on
related states give the same result and related states. For memories it says that answering alike is
all that matters.
-/
namespace HNBChain.Lib

open Finmap

variable {K V E α β : Type}

inductive Prog (K V E α : Type) where
  | done (result : Except E α)
  | get (key : K) (next : Except E (Option V) → Prog K V E α)
  | put (key : K) (value : V) (next : Prog K V E α)
  | del (key : K) (next : Prog K V E α)

namespace Prog

def bind : Prog K V E α → (α → Prog K V E β) → Prog K V E β
  | done (.ok a), f => f a
  | done (.error e), _ => done (.error e)
  | get key next, f => get key fun answer => (next answer).bind f
  | put key value next, f => put key value (next.bind f)
  | del key next, f => del key (next.bind f)

instance : Monad (Prog K V E) where
  pure a := done (.ok a)
  bind := bind

instance : MonadExcept E (Prog K V E) where
  throw e := done (.error e)
  tryCatch
    | done (.error e), recover => recover e
    | program, _ => program

/-- Read a key; the answer is an error, nothing, or the value under the key. -/
def read (key : K) : Prog K V E (Except E (Option V)) := get key fun answer => done (.ok answer)

def write (key : K) (value : V) : Prog K V E Unit := put key value (done (.ok ()))

def delete (key : K) : Prog K V E Unit := del key (done (.ok ()))

end Prog

/-- A run whose result is known, as a pair. -/
theorem eq_mk_of_fst {ρ σ : Type} {ran : ρ × σ} {result : ρ} (hk : ran.1 = result) :
    ran = (result, ran.2) := Prod.ext hk rfl

structure Handler (K V E σ : Type) where
  get : K → σ → Except E (Option V) × σ
  put : K → V → σ → σ
  del : K → σ → σ

namespace Handler

variable {σ τ : Type}

def run (h : Handler K V E σ) : Prog K V E α → σ → Except E α × σ
  | .done result, s => (result, s)
  | .get key next, s => h.run (next (h.get key s).1) (h.get key s).2
  | .put key value next, s => h.run next (h.put key value s)
  | .del key next, s => h.run next (h.del key s)

variable (h : Handler K V E σ)

@[simp] theorem run_pure (a : α) (s : σ) : h.run (pure a) s = (.ok a, s) := rfl

@[simp] theorem run_throw (e : E) (s : σ) : h.run (throw e : Prog K V E α) s = (.error e, s) := rfl

@[simp] theorem run_read (key : K) (s : σ) :
    h.run (Prog.read key) s = (.ok (h.get key s).1, (h.get key s).2) := rfl

@[simp] theorem run_write (key : K) (value : V) (s : σ) :
    h.run (Prog.write key value) s = (.ok (), h.put key value s) := rfl

@[simp] theorem run_delete (key : K) (s : σ) :
    h.run (Prog.delete key) s = (.ok (), h.del key s) := rfl

/-- Sequencing: an error ends the run in the state it was raised in. -/
theorem run_bind (p : Prog K V E α) (f : α → Prog K V E β) (s : σ) :
    h.run (p >>= f) s =
      match h.run p s with
      | (.ok a, s') => h.run (f a) s'
      | (.error e, s') => (.error e, s') := by
  induction p generalizing s with
  | done result => cases result <;> rfl
  | get key next ih => exact ih _ _
  | put key value next ih => exact ih _
  | del key next ih => exact ih _

/-- Two handlers that answer alike on related states and keep states related. -/
structure Simulation (h₁ : Handler K V E σ) (h₂ : Handler K V E τ) (R : σ → τ → Prop) : Prop where
  get : ∀ key s t, R s t → (h₁.get key s).1 = (h₂.get key t).1 ∧ R (h₁.get key s).2 (h₂.get key t).2
  put : ∀ key value s t, R s t → R (h₁.put key value s) (h₂.put key value t)
  del : ∀ key s t, R s t → R (h₁.del key s) (h₂.del key t)

theorem Simulation.run {h₁ : Handler K V E σ} {h₂ : Handler K V E τ} {R : σ → τ → Prop}
    (sim : Simulation h₁ h₂ R) (p : Prog K V E α) (s : σ) (t : τ) (related : R s t) :
    (h₁.run p s).1 = (h₂.run p t).1 ∧ R (h₁.run p s).2 (h₂.run p t).2 := by
  induction p generalizing s t with
  | done result => exact ⟨rfl, related⟩
  | get key next ih =>
    obtain ⟨answer, haf⟩ := sim.get key s t related
    simp only [Handler.run, answer]
    exact ih _ _ _ haf
  | put key value next ih => exact ih _ _ (sim.put key value s t related)
  | del key next ih => exact ih _ _ (sim.del key s t related)

end Handler

section Store

variable [DecidableEq K]

/-- The store itself: finitely many keys, each with a value. -/
abbrev Store (K V : Type) := Finmap fun _ : K => V

/-- The value under a key. -/
def find (s : Store K V) (key : K) : Option V := lookup key s

@[simp] theorem find_empty (key : K) : find (∅ : Store K V) key = none := rfl

variable (s : Store K V)

theorem find_insert (key k : K) (value : V) :
    find (s.insert key value) k = if k = key then some value else find s k := by
  split
  · rename_i same
    rw [same]
    exact lookup_insert s
  · rename_i different
    exact lookup_insert_of_ne s different

theorem find_erase (key k : K) : find (s.erase key) k = if k = key then none else find s k := by
  split
  · rename_i same
    rw [same]
    exact lookup_erase key s
  · rename_i different
    exact lookup_erase_ne different

theorem store_ext {s t : Store K V} (same : ∀ key, find s key = find t key) : s = t :=
  ext_lookup same

theorem mem_keys_iff_find (key : K) : key ∈ s.keys ↔ find s key ≠ none := by
  rw [mem_keys, find, Ne, lookup_eq_none, not_not]

/-- A state that keeps what is written to it and never fails to answer. -/
structure Memory (K V σ : Type) [DecidableEq K] where
  look : σ → K → Option V
  put : K → V → σ → σ
  del : K → σ → σ
  look_put : ∀ key value s k, look (put key value s) k = if k = key then some value else look s k
  look_del : ∀ key s k, look (del key s) k = if k = key then none else look s k

namespace Memory

variable {σ τ : Type} (m : Memory K V σ)

def handler (E : Type) : Handler K V E σ where
  get key s := (.ok (m.look s key), s)
  put := m.put
  del := m.del

theorem look_put_self (key : K) (value : V) (s : σ) :
    m.look (m.put key value s) key = some value := by
  rw [m.look_put, if_pos rfl]

theorem look_put_ne {key k : K} (value : V) (s : σ) (hdi : k ≠ key) :
    m.look (m.put key value s) k = m.look s k := by
  rw [m.look_put, if_neg hdi]

/-- What holds of every stored value and of a new one holds of all after the write. -/
theorem forall_put {P : K → V → Prop} {s : σ} {key : K} {value : V}
    (all : ∀ k v, m.look s k = some v → P k v)
    (new : P key value) : ∀ k v, m.look (m.put key value s) k = some v → P k v := by
  intro k v hf
  rw [m.look_put] at hf
  split_ifs at hf with same
  · cases hf
    exact same ▸ new
  · exact all k v hf

theorem forall_del {P : K → V → Prop} {s : σ} (all : ∀ k v, m.look s k = some v → P k v) (key : K) :
    ∀ k v, m.look (m.del key s) k = some v → P k v := by
  intro k v hf
  rw [m.look_del] at hf
  split_ifs at hf
  exact all k v hf

/-- Two states that answer every read alike. -/
def Alike (m : Memory K V σ) (n : Memory K V τ) (s : σ) (t : τ) : Prop :=
  ∀ key, m.look s key = n.look t key

variable {n : Memory K V τ} {s : σ} {p : Prog K V E α}

theorem Alike.put {m : Memory K V σ} {t : τ} (alike : Alike m n s t)
    (key : K) (value : V) : Alike m n (m.put key value s) (n.put key value t) := by
  intro k
  rw [m.look_put, n.look_put, alike k]

theorem Alike.del {m : Memory K V σ} {t : τ} (alike : Alike m n s t)
    (key : K) : Alike m n (m.del key s) (n.del key t) := by
  intro k
  rw [m.look_del, n.look_del, alike k]

/-- Any two memories simulate each other from states that answer alike. -/
theorem simulation (m : Memory K V σ) (n : Memory K V τ) :
    Handler.Simulation (m.handler E) (n.handler E) (Alike m n) where
  get key _ _ alike := ⟨congrArg Except.ok (alike key), alike⟩
  put key value _ _ alike := alike.put key value
  del key _ _ alike := alike.del key

/-- Equal answers in, equal result and equal answers out. -/
theorem run_alike {m : Memory K V σ} {t : τ} (alike : Alike m n s t) (p : Prog K V E α) :
    ((m.handler E).run p s).1 = ((n.handler E).run p t).1 ∧
      Alike m n ((m.handler E).run p s).2 ((n.handler E).run p t).2 :=
  (simulation m n).run p s t alike

/-- Run from `s`, the program reads and writes only keys in `F`. -/
def Confined (m : Memory K V σ) (F : K → Prop) : Prog K V E α → σ → Prop
  | .done _, _ => True
  | .get key next, s => F key ∧ m.Confined F (next (.ok (m.look s key))) s
  | .put key value next, s => F key ∧ m.Confined F next (m.put key value s)
  | .del key next, s => F key ∧ m.Confined F next (m.del key s)

variable (F : K → Prop)

@[simp] theorem confined_pure (a : α) (s : σ) : m.Confined F (pure a : Prog K V E α) s := trivial

@[simp] theorem confined_throw (e : E) (s : σ) : m.Confined F (throw e : Prog K V E α) s := trivial

@[simp] theorem confined_read (key : K) (s : σ) :
    m.Confined F (Prog.read key : Prog K V E _) s ↔ F key := and_iff_left trivial

@[simp] theorem confined_write (key : K) (value : V) (s : σ) :
    m.Confined F (Prog.write key value : Prog K V E _) s ↔ F key := and_iff_left trivial

@[simp] theorem confined_delete (key : K) (s : σ) :
    m.Confined F (Prog.delete key : Prog K V E _) s ↔ F key := and_iff_left trivial

/-- A sequence is confined when its first part is, and its second part from wherever the first may
end. -/
theorem confined_bind (p : Prog K V E α) (f : α → Prog K V E β) (s : σ) :
    m.Confined F (p >>= f) s ↔ m.Confined F p s ∧
      ∀ a s', (m.handler E).run p s = (.ok a, s') → m.Confined F (f a) s' := by
  induction p generalizing s with
  | done result =>
    cases result with
    | ok a =>
      refine ⟨fun within => ⟨trivial, ?_⟩, fun both => both.2 a s rfl⟩
      rintro a' s' ⟨⟩
      exact within
    | error e =>
      exact ⟨fun _ => ⟨trivial, fun a s' impossible => by cases impossible⟩, fun _ => trivial⟩
  | get key next ih => exact (and_congr_right fun _ => ih _ s).trans and_assoc.symm
  | put key value next ih => exact (and_congr_right fun _ => ih _).trans and_assoc.symm
  | del key next ih => exact (and_congr_right fun _ => ih _).trans and_assoc.symm

theorem Confined.mono {m : Memory K V σ} {F G : K → Prop} (sub : ∀ key, F key → G key)
    (confined : m.Confined F p s) : m.Confined G p s := by
  induction p generalizing s with
  | done result => trivial
  | get key next ih => exact ⟨sub key confined.1, ih _ confined.2⟩
  | put key value next ih => exact ⟨sub key confined.1, ih confined.2⟩
  | del key next ih => exact ⟨sub key confined.1, ih confined.2⟩

/-- A confined run leaves every other key alone. -/
theorem Confined.frame {m : Memory K V σ} {F : K → Prop} (confined : m.Confined F p s) (key : K)
    (outside : ¬ F key) : m.look ((m.handler E).run p s).2 key = m.look s key := by
  induction p generalizing s with
  | done result => rfl
  | get k next ih => exact ih _ confined.2
  | put k value next ih =>
    refine (ih confined.2).trans (m.look_put_ne value s ?_)
    rintro rfl
    exact outside confined.1
  | del k next ih =>
    refine (ih confined.2).trans ((m.look_del k s key).trans (if_neg ?_))
    rintro rfl
    exact outside confined.1

/-- States that answer alike on the keys a run is confined to give the same result, and answer alike
on those keys afterwards. -/
theorem Confined.run_agree {m : Memory K V σ} {F : K → Prop} {t : τ} (confined : m.Confined F p s)
    (agree : ∀ key, F key → m.look s key = n.look t key) :
    ((m.handler E).run p s).1 = ((n.handler E).run p t).1 ∧ n.Confined F p t ∧
      ∀ key, F key → m.look ((m.handler E).run p s).2 key =
        n.look ((n.handler E).run p t).2 key := by
  induction p generalizing s t with
  | done result => exact ⟨rfl, trivial, agree⟩
  | get key next ih =>
    have answer := agree key confined.1
    obtain ⟨result, within, after⟩ := ih (.ok (m.look s key)) confined.2 agree
    simp only [Handler.run, handler, Confined, ← answer]
    exact ⟨result, ⟨confined.1, within⟩, after⟩
  | put key value next ih =>
    obtain ⟨result, within, after⟩ := ih confined.2 (fun k inside => by
      rw [m.look_put, n.look_put, agree k inside])
    exact ⟨result, ⟨confined.1, within⟩, after⟩
  | del key next ih =>
    obtain ⟨result, within, after⟩ := ih confined.2 (fun k inside => by
      rw [m.look_del, n.look_del, agree k inside])
    exact ⟨result, ⟨confined.1, within⟩, after⟩

/-- The store as a memory. -/
def flat : Memory K V (Store K V) where
  look := find
  put key value s := s.insert key value
  del key s := s.erase key
  look_put key value s k := find_insert s key k value
  look_del key s k := find_erase s key k

@[simp] theorem flat_look (s : Store K V) : flat.look s = find s := rfl

end Memory

/-- A pending change of one key. -/
inductive Change (V : Type) where
  | changed (value : V)
  | deleted
  deriving DecidableEq, Repr

/-- Pending changes above a store. -/
abbrev Pending (K V : Type) := Finmap fun _ : K => Change V

def Change.value : Change V → Option V
  | .changed value => some value
  | .deleted => none

/-- A pending change if there is one, else what lies below. -/
def overlaid : Option (Change V) → Option V → Option V
  | some change, _ => change.value
  | none, below => below

@[simp] theorem overlaid_none (below : Option V) : overlaid none below = below := rfl

/-- Changes of which one is none can be made in either order. -/
theorem overlaid_comm {first second : Option (Change V)} (hap : first = none ∨ second = none)
    (below : Option V) :
    overlaid first (overlaid second below) = overlaid second (overlaid first below) := by
  rcases hap with rfl | rfl <;> rfl

/-- What a reader sees under a key. -/
def visible (base : Store K V) (pending : Pending K V) (key : K) : Option V :=
  overlaid (find pending key) (find base key)

theorem visible_insert (base : Store K V) (pending : Pending K V) (key k : K) (change : Change V) :
    visible base (pending.insert key change) k = if k = key then change.value
    else visible base pending k := by
  unfold visible
  rw [find_insert]
  by_cases same : k = key <;> simp [same, overlaid]

@[simp] theorem visible_empty (base : Store K V) (key : K) :
    visible base ∅ key = find base key := rfl

/-- Pending changes above a fixed base, as a memory. -/
def Memory.overlay (base : Store K V) : Memory K V (Pending K V) where
  look := visible base
  put key value pending := pending.insert key (.changed value)
  del key pending := pending.insert key .deleted
  look_put key _ pending k := visible_insert base pending key k _
  look_del key pending k := visible_insert base pending key k _

/-- Above a base, a confined run leaves the other keys' pending changes as they are. -/
theorem Memory.Confined.find_pending {base : Store K V} {F : K → Prop} {p : Prog K V E α}
    {pending : Pending K V} (hc : (Memory.overlay base).Confined F p pending) (key : K)
    (ho : ¬ F key) :
    find (((Memory.overlay base).handler E).run p pending).2 key = find pending key := by
  induction p generalizing pending with
  | done result => rfl
  | get k next ih => exact ih _ hc.2
  | put k value next ih =>
    refine (ih hc.2).trans ((find_insert _ _ _ _).trans (if_neg ?_))
    rintro rfl
    exact ho hc.1
  | del k next ih =>
    refine (ih hc.2).trans ((find_insert _ _ _ _).trans (if_neg ?_))
    rintro rfl
    exact ho hc.1

/-- Above two bases that agree on the keys a run is confined to, it gives the same result and the
same pending changes. -/
theorem Memory.Confined.run_overlay {base base' : Store K V} {F : K → Prop} {p : Prog K V E α}
    {pending : Pending K V} (hc : (Memory.overlay base).Confined F p pending)
    (agree : ∀ key, F key → find base key = find base' key) :
    ((Memory.overlay base).handler E).run p pending =
      ((Memory.overlay base').handler E).run p pending := by
  induction p generalizing pending with
  | done result => rfl
  | get key next ih =>
    have answer : visible base pending key = visible base' pending key := by
      rw [visible, visible, agree key hc.1]
    refine (ih _ hc.2).trans ?_
    exact congrArg (fun stored => ((Memory.overlay base').handler E).run
      (next (.ok stored)) pending) answer
  | put key value next ih => exact ih hc.2
  | del key next ih => exact ih hc.2

/-- A store whose reads are numbered from the start of the run; `fails` says which of them fail,
with which error. The state carries the number of the next read. -/
def Handler.failing (fails : Nat → Option E) : Handler K V E (Store K V × Nat) where
  get key s :=
    (match fails s.2 with
      | some e => .error e
      | none => .ok (find s.1 key), (s.1, s.2 + 1))
  put key value s := (s.1.insert key value, s.2)
  del key s := (s.1.erase key, s.2)

/-- Writing one pending change into the store. -/
def Change.apply (key : K) : Change V → Store K V → Store K V
  | .changed value, s => s.insert key value
  | .deleted, s => s.erase key

/-- Writing pending changes into the store, in the order of the list. -/
def commit (items : List (Sigma fun _ : K => Change V)) (base : Store K V) : Store K V :=
  items.foldl (fun s item => item.2.apply item.1 s) base

theorem commit_append (first second : List (Sigma fun _ : K => Change V)) (base : Store K V) :
    commit (first ++ second) base = commit second (commit first base) := by
  simp [commit, List.foldl_append]

theorem find_apply (key k : K) (change : Change V) (s : Store K V) :
    find (change.apply key s) k = if k = key then change.value else find s k := by
  cases change with
  | changed value => exact find_insert s key k value
  | deleted => exact find_erase s key k

variable (items : List (Sigma fun _ : K => Change V))

theorem find_commit_of_notMem (base : Store K V)
    (k : K) (ha : k ∉ items.map Sigma.fst) : find (commit items base) k = find base k := by
  induction items generalizing base with
  | nil => rfl
  | cons item items ih =>
    simp only [List.map_cons, List.mem_cons, not_or] at ha
    change find (commit items (item.2.apply item.1 base)) k = _
    rw [ih _ ha.2, find_apply, if_neg ha.1]

/-- A key that is not listed again ends with its change. -/
theorem find_commit_last (first : List (Sigma fun _ : K => Change V))
    (item : Sigma fun _ : K => Change V)
    (rest : List (Sigma fun _ : K => Change V)) (base : Store K V)
    (ha : item.1 ∉ rest.map Sigma.fst) :
    find (commit (first ++ item :: rest) base) item.1 = item.2.value := by
  rw [commit_append]
  change find (commit rest (item.2.apply item.1 (commit first base))) item.1 = _
  rw [find_commit_of_notMem _ _ _ ha, find_apply, if_pos rfl]

/-- When no key is listed twice, the order of the list does not matter: each listed key ends with
its own change. -/
theorem find_commit_of_mem (base : Store K V)
    (item : Sigma fun _ : K => Change V) (hd : (items.map Sigma.fst).Nodup)
    (hm : item ∈ items) : find (commit items base) item.1 = item.2.value := by
  induction items generalizing base with
  | nil => cases hm
  | cons first items ih =>
    simp only [List.map_cons, List.nodup_cons] at hd
    change find (commit items (first.2.apply first.1 base)) item.1 = _
    rcases List.mem_cons.mp hm with rfl | hl
    · rw [find_commit_of_notMem _ _ _ hd.1, find_apply, if_pos rfl]
    · exact ih _ hd.2 hl

/-- Committing an enumeration of the pending changes leaves what a reader saw through them. -/
theorem find_commit (pending : Pending K V)
    (base : Store K V) (enumerates : (items : Multiset _) = pending.entries) (k : K) :
    find (commit items base) k = visible base pending k := by
  have hd : (items.map Sigma.fst).Nodup := by
    have nodup := pending.nodupKeys
    rw [← enumerates] at nodup
    exact nodup
  unfold visible
  cases found : find pending k with
  | none =>
    refine find_commit_of_notMem items base k fun hm => ?_
    obtain ⟨item, hli, rfl⟩ := List.mem_map.mp hm
    have entry : item ∈ pending.entries := by
      rw [← enumerates]
      exact hli
    have some := (mem_lookup_iff).mpr (show ⟨item.1, item.2⟩ ∈ pending.entries from entry)
    exact absurd (found.symm.trans some) (by simp)
  | some change =>
    have entry := (mem_lookup_iff).mp found
    rw [← enumerates] at entry
    exact find_commit_of_mem items base ⟨k, change⟩ hd entry

end Store

end HNBChain.Lib
