import HNBChain.Audit.Source.Database

/-!
# A block is not written at once

The stores write with `Put`, past the batch that `WriteLedger` opens and commits, and most of their
errors are dropped. So a block is written whole or not at all only if no operation goes wrong, or if
none of the writes takes effect: `atomic_iff_clean` says this of every schedule of outcomes.
-/
namespace HNBChain.Audit.Guarantees.LedgerAtomicity

open Lib Source Source.Database Database List Host

/-- Nothing of the block is stored or all of it is, and all of it if nil is returned. -/
structure Atomic (outcome : Nat → Outcome) (host : Host) (blk : StoredBlock) (si : List StateItem)
    (ni : List NonceItem) : Prop where
  whole : ((writeLedger blk si ni).run outcome host).2.content = host.content ∨
    ((writeLedger blk si ni).run outcome host).2.content = commit
    (blockWrites blk si ni) host.content
  returned : ((writeLedger blk si ni).run outcome host).1 = some (.ok ()) →
    ((writeLedger blk si ni).run outcome host).2.content = commit
    (blockWrites blk si ni) host.content

/-- From operation `first` on they fail, up to one at which the process stops, if there is one. -/
def Idle (outcome : Nat → Outcome) (first : Nat) : Prop :=
  ∀ i, first ≤ i → (∀ j, first ≤ j → j < i → outcome j = .fails) → outcome i ≠ .done

/-- The process stops before the height is read; or it is read, and then no operation goes wrong or
no write takes effect. -/
def Clean (outcome : Nat → Outcome) : Prop :=
  outcome 0 = .stops ∨ outcome 0 = .done ∧ ((∀ i, 1 ≤ i → outcome i = .done) ∨ Idle outcome 1)

/-! ## Writes without effect -/

section Idle

variable {outcome : Nat → Outcome} {α β : Type}

theorem Idle.next {first : Nat} (idle : Idle outcome first) (fails : outcome first = .fails) :
    Idle outcome (first + 1) := by
  intro i haf hb
  refine idle i (by omega) fun j low high => ?_
  rcases Nat.eq_or_lt_of_le low with rfl | hl
  · exact fails
  · exact hb j hl high

theorem Idle.ne_done {first : Nat} (idle : Idle outcome first) : outcome first ≠ .done :=
  idle first le_rfl fun _ low high => absurd high (by omega)

/-- When no operation takes effect, the computation leaves the content as it is, and what it
returns, if it does, is as `returns` says. -/
structure Inert (p : Io α) (returns : α → Prop) : Prop where
  run : ∀ outcome host, Idle outcome host.asked → (p.run outcome host).2.content = host.content ∧
    Idle outcome (p.run outcome host).2.asked ∧ ∀ a, (p.run outcome host).1 = some a → returns a

variable {p : Io α} {f : α → Io β} {returns : α → Prop} {returns' : β → Prop}

theorem Inert.pure {a : α} (hh : returns a) : Inert (pure a) returns :=
  ⟨fun _ _ idle => ⟨rfl, idle, fun _ same => Option.some.inj same ▸ hh⟩⟩

theorem Inert.bind (h1 : Inert p returns) (h2 : ∀ a, returns a → Inert (f a) returns') :
    Inert (p >>= f) returns' := by
  refine ⟨fun outcome host idle => ?_⟩
  obtain ⟨hco, haf, hr⟩ := h1.run outcome host idle
  rw [run_bind]
  generalize p.run outcome host = ran at hco haf hr ⊢
  rcases ran with ⟨_ | a, host'⟩
  · exact ⟨hco, haf, nofun⟩
  · exact hco ▸ (h2 a (hr a rfl)).run outcome host' haf

theorem Inert.operation (effect : Host → α × Host) :
    Inert (operation effect) (· = .error .database) := by
  refine ⟨fun outcome host idle => ?_⟩
  cases now : outcome host.asked with
  | done => exact absurd now idle.ne_done
  | fails =>
    rw [operation_fails now effect]
    exact ⟨rfl, idle.next now, fun _ same => (Option.some.inj same).symm⟩
  | stops =>
    rw [operation_stops now effect]
    exact ⟨rfl, idle, nofun⟩

/-- A store that keeps a cache and writes past it. -/
theorem Inert.store {change : Host → Host} (hco : ∀ host, (change host).content = host.content)
    (ha : ∀ host, (change host).asked = host.asked) (effect : Host → α × Host) :
    Inert (do Database.modify change; Database.operation effect) (· = .error .database) := by
  have hc : Inert (modify change) fun _ => True :=
    ⟨fun _ host idle => ⟨hco host, (ha host).symm ▸ idle, fun _ _ => trivial⟩⟩
  exact hc.bind fun _ _ => .operation effect

theorem Inert.setStateItems (si : List StateItem) : Inert (setStateItems si) fun _ => True := by
  induction si with
  | nil => exact .pure trivial
  | cons v rest ih =>
    unfold Database.setStateItems
    split_ifs
    · have erased : Inert (deleteState v.chainID v.key) (· = .error .database) :=
        .store (by intro _; rfl) (by intro _; rfl) _
      exact erased.bind fun _ _ => ih
    · have inserted : Inert (setState v.chainID v.key v.value) (· = .error .database) :=
        .store (by intro _; rfl) (by intro _; rfl) _
      exact inserted.bind fun _ _ => ih

/-- The height is not raised, so the call ends there, and does not return nil. -/
theorem Inert.writeRecords (blk : StoredBlock) (si : List StateItem) (ni : List NonceItem) :
    Inert (writeRecords blk si ni) (· ≠ .ok ()) := by
  have block : Inert (writeBlock blk) (· = .error .database) :=
    .store (by intro _; rfl) (by intro _; rfl) _
  have height : Inert (setBlockHeight (blk.block.blockNum + 1))
    (· = .error .database) := .operation _
  refine block.bind fun _ _ => (Inert.setStateItems si).bind fun _ _ => height.bind ?_
  rintro _ rfl
  exact .pure nofun

end Idle

section Clean

variable {outcome : Nat → Outcome} {host : Host}

/-- A call that ends before the writes, and not with nil. -/
theorem atomic_of_unwritten {blk : StoredBlock} {si : List StateItem} {ni : List NonceItem}
    (hco : ((writeLedger blk si ni).run outcome host).2.content = host.content)
    (hr : ((writeLedger blk si ni).run outcome host).1 ≠ some (.ok ())) :
    Atomic outcome host blk si ni := ⟨.inl hco, fun nil => absurd nil hr⟩

theorem atomic_of_clean (clean : Clean outcome) (hf : host.asked = 0) (blk : StoredBlock)
    (si : List StateItem) (ni : List NonceItem) : Atomic outcome host blk si ni := by
  have ran := writeLedger_run outcome host blk si ni
  rcases clean with stops | ⟨h1, hl⟩
  · rw [hf, stops] at ran
    refine atomic_of_unwritten ?_ ?_ <;> rw [ran]
    exact nofun
  have now : outcome host.asked = .done := hf ▸ h1
  rw [now] at ran
  cases height : asNumber (find host.content heightKey) with
  | none =>
    rw [height] at ran
    refine atomic_of_unwritten ?_ ?_ <;> rw [ran]
    · rfl
    · exact nofun
  | some h =>
    rw [height] at ran
    by_cases number : blk.block.blockNum = h
    · rcases hl with all | idle
      · have hq : Quiet outcome host := by
          intro i _
          rcases Nat.eq_zero_or_pos i with rfl | hp
          · exact h1
          · exact all i hp
        obtain ⟨host', ran, hco, _⟩ := writeLedger_accepted hq (number ▸ height) si ni
        refine ⟨.inr ?_, fun _ => ?_⟩ <;> rw [ran] <;> exact hco
      · have haf : Idle outcome ({ host.tick with batch := some [] } : Host).asked := by
          change Idle outcome (host.asked + 1)
          rwa [hf]
        have inert := (Inert.writeRecords blk si ni).run _ _ haf
        replace ran := ran.trans (if_pos number)
        refine atomic_of_unwritten ?_ ?_ <;> rw [ran]
        · exact inert.1
        · exact fun nil => inert.2.2 _ nil rfl
    · replace ran := ran.trans (if_neg number)
      refine atomic_of_unwritten ?_ ?_ <;> rw [ran]
      · rfl
      · exact nofun

end Clean

/-! ## Every other schedule tears a block

The first block, with as many states before its height as the schedule needs: so that the height is
the first write that takes effect, or the first that does not. -/

/-- Operations that all go the same way, with what they leave. -/
structure Stepped (o : Outcome) (host : Host) (ws : List DbWrite) (host' : Host) : Prop where
  content : host'.content = if o = .done then commit ws host.content else host.content
  batch : host'.batch = host.batch
  asked : host'.asked = host.asked + ws.length

section Stepped

variable {outcome : Nat → Outcome} {o : Outcome} {host : Host}

theorem Stepped.trans {a b c : Host} {first second : List DbWrite} (one : Stepped o a first b)
    (two : Stepped o b second c) : Stepped o a (first ++ second) c := by
  refine ⟨?_, two.batch.trans one.batch, ?_⟩
  · rw [two.content, one.content]
    split_ifs
    · rw [commit_append]
    · rfl
  · rw [two.asked, one.asked, length_append, Nat.add_assoc]

theorem put_stepped (goes : o ≠ .stops) (now : outcome host.asked = o) (key : Bytes)
    (value : Value) : ∃ result host', (put key value).run outcome host = (some result, host') ∧
      Stepped o host [⟨key, .changed value⟩] host' := by
  cases o with
  | done => exact ⟨_, _, operation_done now _, rfl, rfl, rfl⟩
  | fails => exact ⟨_, _, operation_fails now _, rfl, rfl, rfl⟩
  | stops => exact absurd rfl goes

/-- A store that keeps a cache and writes past it. -/
theorem store_stepped {change : Host → Host} (hco : (change host).content = host.content)
    (batch : (change host).batch = host.batch) (ha : (change host).asked = host.asked)
    (goes : o ≠ .stops) (now : outcome host.asked = o) (key : Bytes) (value : Value) :
    ∃ result host', (do Database.modify change; put key value).run outcome host =
    (some result, host') ∧ Stepped o host [⟨key, .changed value⟩] host' := by
  obtain ⟨result, host', ran, hs⟩ := put_stepped goes (ha ▸ now) key value
  exact ⟨result, host', ran, hco ▸ hs.content, hs.batch.trans batch,
    ha ▸ hs.asked⟩

/-- A state of the contract hnb. -/
def someState : StateItem := ⟨[7], [1], .changed, octets ChainID.hnb.text⟩

theorem someState_chain (n : Nat) :
    ∀ v ∈ replicate n someState, ∃ chain : ChainID, v.chainID = octets chain.text := by
  intro v hli
  rw [eq_of_mem_replicate hli]
  exact ⟨.hnb, rfl⟩

theorem setStateItems_stepped (host : Host) (goes : o ≠ .stops) (n : Nat)
    (same : ∀ j, host.asked ≤ j → j < host.asked + n → outcome j = o) :
    ∃ host', (setStateItems (replicate n someState)).run outcome host = (some (), host') ∧
      Stepped o host ((replicate n someState).map StateItem.write) host' := by
  induction n generalizing host with
  | zero => exact ⟨host, rfl, by simp [commit], rfl, rfl⟩
  | succ n ih =>
    obtain ⟨result, middle, h1, hs⟩ :
      ∃ result host', (setState someState.chainID someState.key
        someState.value).run outcome host = (some result, host') ∧
            Stepped o host [someState.write] host' :=
      store_stepped rfl rfl rfl goes (same host.asked le_rfl (by omega)) _ _
    have ha := hs.asked
    rw [length_singleton] at ha
    obtain ⟨last, loop, rest⟩ := ih middle fun j low high => same j (by omega) (by omega)
    refine ⟨last, ?_, hs.trans rest⟩
    rw [replicate_succ]
    unfold setStateItems
    rw [if_neg (by decide), run_bind_some h1]
    exact loop

end Stepped

def firstBlock : StoredBlock := ⟨⟨0, []⟩, ⟨[], []⟩⟩

/-- What is left of the call of the first block once its states are written. -/
def raise : Io (Except StoreErr Unit) := do
  match ← setBlockHeight 1 with
  | .error e => return .error e
  | .ok () =>
    let _ ← batchCommit
    return .ok ()

section Torn

variable {outcome : Nat → Outcome}

/-- The first block on an empty database, up to its height. -/
theorem writeLedger_firstBlock {o : Outcome} (goes : o ≠ .stops)
    (h1 : outcome 0 = .done) (n : Nat) (same : ∀ j, 1 ≤ j → j < n + 2 → outcome j = o) :
    ∃ host, Stepped o { empty.tick with batch := some [] }
        (⟨blockKey 0, .changed (.block firstBlock)⟩ ::
          (replicate n someState).map StateItem.write) host ∧
      host.asked = n + 2 ∧ (writeLedger firstBlock (replicate n someState) []).run outcome empty =
        raise.run outcome host := by
  have ho := writeLedger_run outcome empty firstBlock (replicate n someState) []
  have now : outcome empty.asked = .done := h1
  rw [now] at ho
  obtain ⟨result, a, block, hs⟩ : ∃ result a, (writeBlock firstBlock).run outcome
      { empty.tick with batch := some [] } = (some result, a) ∧
      Stepped o { empty.tick with batch := some [] }
        [⟨blockKey 0, .changed (.block firstBlock)⟩] a :=
    store_stepped rfl rfl rfl goes (same 1 le_rfl (by omega)) _ _
  have ha : a.asked = 2 := hs.asked
  obtain ⟨b, states, rest⟩ := setStateItems_stepped a goes n
    fun j low high => same j (by omega) (by omega)
  have count := rest.asked
  rw [length_map, length_replicate] at count
  refine ⟨b, hs.trans rest, by omega, ho.trans ?_⟩
  unfold writeRecords
  refine (run_bind_some block).trans ((run_bind_some states).trans rfl)

/-- The batch is empty, so its commit changes nothing. -/
theorem batchCommit_content (outcome : Nat → Outcome) {host : Host} (ho : host.batch = some []) :
    ((do let _ ← batchCommit; return .ok () : Io (Except StoreErr Unit)).run outcome
      host).2.content = host.content := by
  unfold batchCommit
  rw [run_bind]
  cases now : outcome host.asked with
  | done =>
    rw [operation_done now]
    rw [ho]
    rfl
  | fails =>
    rw [operation_fails now]
    rfl
  | stops => rw [operation_stops now]

theorem raise_content_of_done {host : Host} (ho : host.batch = some [])
    (now : outcome host.asked = .done) :
    (raise.run outcome host).2.content = host.content.insert heightKey (.bytes (putUint64 1)) := by
  have raised := operation_done now fun host : Host =>
    ((), { host with content := host.content.insert heightKey (.bytes (putUint64 1)) })
  unfold raise setBlockHeight put
  rw [run_bind_some raised]
  exact batchCommit_content outcome ho

theorem raise_content_of_ne_done (host : Host) (now : outcome host.asked ≠ .done) :
    (raise.run outcome host).2.content = host.content := by
  unfold raise setBlockHeight put
  rw [run_bind]
  cases asked : outcome host.asked with
  | done => exact absurd asked now
  | fails =>
    rw [operation_fails asked]
    rfl
  | stops => rw [operation_stops asked]

/-- Of the first block the number or the height is there, not both. -/
theorem not_atomic_of_torn {n : Nat} {content : Store Bytes Value}
    (ran : ((writeLedger firstBlock (replicate n someState) []).run outcome
      empty).2.content = content)
      (torn : (find content (blockKey 0)).isSome ≠ (find content heightKey).isSome) :
    ¬Atomic outcome empty firstBlock (replicate n someState) [] := by
  intro atomic
  have hwh := atomic.whole
  rw [ran] at hwh
  rcases hwh with none | all
  · rw [none] at torn
    exact torn rfl
  · have block := find_blockWrites_block firstBlock (replicate n someState) [] empty.content
      (by decide) (someState_chain n)
    have height := find_blockWrites_height firstBlock (replicate n someState) [] empty.content
    rw [← all] at block height
    have number : firstBlock.block.blockNum = 0 := rfl
    rw [number] at block
    rw [block, height] at torn
    exact torn rfl

/-- Nil is returned when the height cannot be read. -/
theorem not_atomic_of_unread (h1 : outcome 0 = .fails) :
    ¬Atomic outcome Host.empty firstBlock [] [] := by
  intro atomic
  have ran : (Database.writeLedger firstBlock [] []).run outcome Host.empty =
      (some (.ok ()), Host.empty.tick) := by
    have now : outcome Host.empty.asked = .fails := h1
    rw [writeLedger_run, now]
  have hst := atomic.returned (by rw [ran])
  rw [ran] at hst
  have height := find_blockWrites_height firstBlock [] [] Host.empty.content
  rw [← hst] at height
  cases height

/-- The height is the first write to take effect, not the first to be made. -/
theorem not_atomic_of_late (h1 : outcome 0 = .done) {i : Nat} (late : 2 ≤ i)
    (hb : ∀ j, 1 ≤ j → j < i → outcome j = .fails) (now : outcome i = .done) :
    ¬Atomic outcome empty firstBlock (replicate (i - 2) someState) [] := by
  obtain ⟨host, hs, ha, ran⟩ := writeLedger_firstBlock (o := .fails) nofun h1 (i - 2)
    fun j low high => hb j low (by omega)
  replace ha : host.asked = i := by omega
  have hco := raise_content_of_done hs.batch (ha ▸ now)
  rw [hs.content, if_neg nofun] at hco
  refine not_atomic_of_torn ((congrArg (·.2.content) ran).trans hco) ?_
  rw [find_insert, find_insert, if_neg (by decide), if_pos rfl]
  decide

/-- The height is the first write not to take effect. -/
theorem not_atomic_of_early (h1 : outcome 0 = .done) {i : Nat} (hea : 2 ≤ i)
    (hb : ∀ j, 1 ≤ j → j < i → outcome j = .done) (now : outcome i ≠ .done) :
    ¬Atomic outcome empty firstBlock (replicate (i - 2) someState) [] := by
  obtain ⟨host, hs, ha, ran⟩ := writeLedger_firstBlock (o := .done) nofun h1 (i - 2)
    fun j low high => hb j low (by omega)
  replace ha : host.asked = i := by omega
  have hco := raise_content_of_ne_done host (ha ▸ now)
  rw [hs.content, if_pos rfl] at hco
  refine not_atomic_of_torn ((congrArg (·.2.content) ran).trans hco) ?_
  have chains := someState_chain (i - 2)
  have block := find_commit_last [] ⟨blockKey 0, .changed (.block firstBlock)⟩
    ((replicate (i - 2) someState).map StateItem.write) empty.content
    (key_notMem_states (r := .block 0) chains (by decide) (by decide))
  have height := find_commit_of_notMem (⟨blockKey 0, .changed (.block firstBlock)⟩ ::
    (replicate (i - 2) someState).map StateItem.write) empty.content heightKey (by
      rw [map_cons, mem_cons, not_or]
      exact ⟨by decide, key_notMem_states (r := .height) chains trivial (by decide)⟩)
  exact fun same => absurd ((congrArg Option.isSome block).symm.trans
    (same.trans (congrArg Option.isSome height))) (by decide)

end Torn

theorem atomic_iff_clean (outcome : Nat → Outcome) :
    (∀ host blk si ni, host.asked = 0 → Atomic outcome host blk si ni) ↔ Clean outcome := by
  refine ⟨fun all => ?_, fun clean host blk si ni hf => atomic_of_clean clean hf blk si ni⟩
  have he : ∀ n, Atomic outcome empty firstBlock (replicate n someState) [] :=
    fun n => all _ _ _ _ rfl
  cases first : outcome 0 with
  | stops => exact .inl first
  | fails => exact absurd (he 0) (not_atomic_of_unread first)
  | done =>
    refine .inr ⟨first, ?_⟩
    by_contra dirty
    rw [not_or] at dirty
    obtain ⟨hw, effect⟩ := dirty
    unfold Idle at effect
    push Not at hw effect
    obtain ⟨i, hp, hb, now⟩ := effect
    rcases Nat.eq_or_lt_of_le hp with rfl | late
    · -- the block is written, and the first operation to go wrong comes after it
      obtain ⟨haf, goes⟩ := Nat.find_spec hw
      have h2 : Nat.find hw ≠ 1 := fun same => goes (same.symm ▸ now)
      refine not_atomic_of_early first (by omega) (fun j low high => ?_) goes (he _)
      by_contra other
      exact Nat.find_min hw high ⟨low, other⟩
    · exact not_atomic_of_late first late hb now (he _)

/-- The process stops between the block and its height: the block is there, the height is not. -/
theorem block_without_height :
    let host := ((writeLedger firstBlock [] []).run
      (fun i => if i < 2 then .done else .stops) empty).2
    find host.content (blockKey 0) = some (.block firstBlock) ∧
    find host.content heightKey = none :=
  ⟨rfl, rfl⟩

/-- The height cannot be read: nothing is stored, and nil is returned. -/
example : ((writeLedger firstBlock [] []).run (fun _ => .fails) empty).1 = some (.ok ()) :=
  rfl

end HNBChain.Audit.Guarantees.LedgerAtomicity
