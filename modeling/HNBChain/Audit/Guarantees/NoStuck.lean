import HNBChain.Audit.Guarantees.PendingExecutable

/-!
# Queued transactions whose turn it is

After a reset the next transaction of an account should not stay in the queue: the one whose nonce
is the ledger's nonce plus the number of pending transactions. Promotion begins at the cached nonce,
and a reset renews the cached nonce of the accounts that still have pending transactions only. A
block that takes an account beyond its cached nonce (transactions of the account that came by
another node) leaves the cached nonce behind, and the account's queue is stuck until something is
pending again.
-/
namespace HNBChain.Audit.Guarantees.NoStuck

open Lib Source Spec
open PoolPartition PendingExecutable TxPool List

/-- The account's next transaction is not in its queue. -/
def NotStuck (view : View) (pool : TxPool) (addr : Address) : Prop :=
  ∀ tx ∈ (listAt pool.queue addr).items,
    tx.nonceValue.toNat ≠ (view.nonce addr).toNat + (listAt pool.pending addr).len

variable {pool : TxPool} {view : View}

theorem SameAt.notStuck {b : Address} {next : TxPool} (same : SameAt b pool next)
    (free : NotStuck view pool b) : NotStuck view next b := by
  unfold NotStuck
  rw [same.1, same.2.1]
  exact free

/-! ## Promotion -/

/-- The cached nonce of the account is not behind the ledger's. -/
def KeptAt (view : View) (pool : TxPool) (addr : Address) : Prop :=
  ∀ c, find pool.pendingState addr = some c → view.nonce addr ≤ c

theorem getNonce_kept {addr : Address} (inv : Executable view pool) (kept : KeptAt view pool addr) :
    (pool.getNonce view addr).toNat = (view.nonce addr).toNat + pool.pendingLen addr := by
  obtain ⟨first, next, hsa, order, low, full, bare⟩ := inv.1.2 addr
  have count : pool.pendingLen addr = next - first := hsa.len
  have hw := inv.spans addr
  rcases order.lt_or_eq with lt | same
  · obtain ⟨c, hc, top⟩ := full lt
    -- both say where the list ends
    have hst := (hw first).mp ((hsa first).mpr ⟨le_rfl, lt⟩)
    rw [getNonce, hc, Option.getD_some]
    omega
  · rw [getNonce]
    cases hc : find pool.pendingState addr with
    | none =>
      rw [Option.getD_none]
      omega
    | some c =>
      have le := bare same c hc
      have ge := UInt64.le_iff_toNat_le.mp (kept c hc)
      rw [Option.getD_some]
      omega

theorem promoteAccount_notStuck (env : PoolEnv) (view : View) {addr : Address}
    (inv : Executable view pool) (kept : KeptAt view pool addr) :
    NotStuck view (pool.promoteAccount env view addr) addr := by
  obtain ⟨old, ready, dropped, left, hsp, -, high, run, hre⟩ :=
    promoteAccount_spec env view pool addr
  have hfi := filed_promote inv.1.1.1 hsp
  have next := getNonce_kept inv kept
  rw [hre]
  unfold NotStuck
  rw [listAt_setList, if_pos rfl]
  intro tx mem
  rcases run with ⟨none, ha⟩ | ⟨n, le, some, keys, ha⟩
  · subst none
    have beyond : (pool.getNonce view addr).toNat < tx.nonceValue.toNat :=
      ha tx (mem_append_right dropped mem)
    rw [next] at beyond
    exact beyond.ne'
  · have beyond : n + ready.length < tx.nonceValue.toNat := ha tx (mem_append_right dropped mem)
    have long : 0 < ready.length := length_pos_iff.mpr some
    have starts : n ∈ ready.map SignedTx.nonce := by
      rw [keys, mem_range'_1]
      omega
    obtain ⟨first, ht, here⟩ := mem_map.mp starts
    have low : (view.nonce addr).toNat ≤ n := by
      rw [← here]
      exact UInt64.le_iff_toNat_le.mp (high first (mem_append_left _ ht))
    have hsa := inv.spans addr
    have ho : ¬(n < (view.nonce addr).toNat + pool.pendingLen addr) := by
      intro hi
      obtain ⟨other, pends, same⟩ := (hsa n).mpr ⟨low, hi⟩
      refine hfi.apart (Multiset.mem_coe.mpr pends) (Multiset.mem_add.mpr (.inr ?_))
        (same.trans here.symm)
      exact mem_single.mpr ⟨rfl, Multiset.mem_coe.mpr ht⟩
    have end_ : (view.nonce addr).toNat + pool.pendingLen addr = n := by omega
    have hs : ∀ tx ∈ ready, Small tx := fun tx mem =>
      inv.1.1.queue (hsp.mem.mpr (.inl (mem_append_right old (mem_append_left dropped mem))))
    rw [end_] at hsa
    have hl := (promoteTxs_spans (pool.forget old) hfi hsa low keys hs).1
    have count : (listAt (ready.foldl (promoteTx addr) (pool.forget old)).pending addr).len =
        n + ready.length - (view.nonce addr).toNat := hl.len
    rw [show ∀ txs (p : TxPool), (p.forget txs).pending = p.pending from fun _ _ => rfl, count]
    omega

/-- Promoting the accounts of a list leaves none of them stuck. -/
theorem promotes_notStuck (env : PoolEnv) (view : View) {accounts : List Address}
    (hd : accounts.Nodup) (inv : Executable view pool)
    (kept : ∀ addr ∈ accounts, KeptAt view pool addr)
    (hot : ∀ addr ∉ accounts, NotStuck view pool addr) :
    Executable view (accounts.foldl (promoteAccount env view) pool) ∧
      ∀ addr, NotStuck view (accounts.foldl (promoteAccount env view) pool) addr := by
  induction accounts generalizing pool with
  | nil => exact ⟨inv, fun addr => hot addr not_mem_nil⟩
  | cons first accounts ih =>
    obtain ⟨new, hd⟩ := nodup_cons.mp hd
    have he : ∀ addr, addr ≠ first → SameAt addr pool (pool.promoteAccount env view first) :=
      fun addr other => promoteAccount_sameAt env view pool other
    refine ih hd ((executable_stable env view).promote pool first inv) ?_ ?_
    · intro addr mem c hf
      have other : addr ≠ first := fun same => new (same ▸ mem)
      rw [(he addr other).2.2] at hf
      exact kept addr (mem_cons_of_mem first mem) c hf
    · intro addr out
      by_cases here : addr = first
      · rw [here]
        exact promoteAccount_notStuck env view inv (kept first mem_cons_self)
      · refine SameAt.notStuck (he addr here) (hot addr fun mem => ?_)
        rcases mem_cons.mp mem with same | mem
        · exact here same
        · exact out mem

/-! ## The limits -/

theorem mem_postpones {addr : Address} {txs : List SignedTx} {tx : SignedTx}
    (mem : tx ∈ (listAt (txs.foldl postpone pool).queue addr).items) :
    tx ∈ (listAt pool.queue addr).items ∨ tx ∈ txs := by
  induction txs generalizing pool with
  | nil => exact .inl mem
  | cons first txs ih =>
    rcases ih mem with mem | mem
    · unfold postpone at mem
      cases queued : pool.enqueueTx first with
      | error err =>
        rw [queued] at mem
        exact .inl mem
      | ok next =>
        rw [queued] at mem
        obtain ⟨-, rfl⟩ := enqueueTx_ok queued
        dsimp only [note] at mem
        have ht : tx ∈ (listAt (pool.queue.insert first.fromAddr
            ((listAt pool.queue first.fromAddr).put first)) addr).items := by
          split at mem <;> exact mem
        rw [listAt_insert] at ht
        split at ht
        next here =>
          rcases KeyedList.mem_put.mp ht with rfl | ⟨ht, -⟩
          · exact .inr mem_cons_self
          · exact .inl (here ▸ ht)
        · exact .inl ht
    · exact .inr (mem_cons_of_mem first mem)

/-- A removed pending transaction is the next one then, and those queued again are above it. -/
theorem withoutPending_notStuck (view : View) {tx : SignedTx}
    (inv : Executable view pool) (mem : tx ∈ (listAt pool.pending tx.fromAddr).items) :
    NotStuck view ((((listAt pool.pending tx.fromAddr).removeStrict tx).1.foldl postpone
      (withoutPending pool tx)).lowerNonce view tx.fromAddr tx.nonceValue) tx.fromAddr := by
  have hsh := removeStrict_spans mem (inv.spans tx.fromAddr)
  have high : (view.nonce tx.fromAddr).toNat ≤ tx.nonceValue.toNat :=
    UInt64.le_iff_toNat_le.mp (inv.2 tx.fromAddr tx mem)
  have count : ((listAt pool.pending tx.fromAddr).removeStrict tx).2.len =
      tx.nonceValue.toNat - (view.nonce tx.fromAddr).toNat := hsh.len
  intro other hq
  rw [(lowerNonce_same view _ _ _).2.1] at hq
  rw [(lowerNonce_same view _ _ _).1, postpones_pending, withoutPending, listAt_setList, if_pos rfl,
    count, Nat.add_sub_cancel' high]
  rcases mem_postpones hq with hq | hag
  · exact fun same => inv.1.1.1.apart (Multiset.mem_coe.mpr mem)
      (Multiset.mem_coe.mpr hq) same.symm
  · have ha : tx.nonceValue < other.nonceValue := of_decide_eq_true (mem_filter.mp hag).2
    exact (UInt64.lt_iff_toNat_lt.mp ha).ne'

/-- What the limits take away makes no transaction the next one. -/
theorem notStuck_sheds (env : PoolEnv) (view : View) :
    PoolSheds env view fun pool => Executable view pool ∧ ∀ addr, NotStuck view pool addr where
  dropLast pool addr inv long := by
    have haf := (executable_stable env view).dropLast pool addr inv.1 long
    refine ⟨haf, fun b => ?_⟩
    by_cases here : b = addr
    · subst here
      intro tx mem same
      have hq : listAt (pool.dropLast view b).queue b = listAt pool.queue b := by
        unfold TxPool.dropLast
        cases find pool.pending b with
        | none => rfl
        | some list => rw [(shed_same view b _ _).2.1]
      rw [hq] at mem
      have count : (listAt (pool.dropLast view b).pending b).len = pool.pendingLen b - 1 := by
        have := pendingLen_dropLast view pool b b
        rwa [if_pos rfl] at this
      rw [count] at same
      -- the nonce was a pending one
      obtain ⟨other, pends, heq⟩ := (inv.1.spans b tx.nonce).mpr ⟨by
        have : tx.nonce = tx.nonceValue.toNat := rfl
        omega, by
        have : tx.nonce = tx.nonceValue.toNat := rfl
        omega⟩
      exact inv.1.1.1.1.apart (Multiset.mem_coe.mpr pends) (Multiset.mem_coe.mpr mem) heq
    · exact SameAt.notStuck (dropLast_sameAt view pool here) (inv.2 b)
  remove pool hash inv := by
    have haf := (executable_stable env view).remove pool hash inv.1
    refine ⟨haf, fun b => ?_⟩
    rcases removeTx_spec view hash inv.1.1.1.1 with same | ⟨tx, mem, hre⟩ | ⟨tx, mem, hre⟩
    · rw [same]
      exact inv.2 b
    · rw [hre]
      by_cases here : b = tx.fromAddr
      · subst here
        exact withoutPending_notStuck view inv.1 mem
      · exact SameAt.notStuck (withoutPending_sameAt view inv.1.1.1.1 mem here) (inv.2 b)
    · rw [hre]
      intro other hq
      rw [listAt_setList] at hq
      split at hq
      next here => exact inv.2 b other (here ▸ (remove_splits mem).mem.mpr (.inr hq))
      · exact inv.2 b other hq

/-! ## Resets -/

/-- The pool refuses the transaction: it knows its id, or `validateTx` does not let it pass. -/
def Refused (env : PoolEnv) (view : View) (pool : TxPool) (tx : SignedTx) : Prop :=
  (find pool.all tx.txid).isSome ∨ validateTx env view tx ≠ .ok ()

theorem add_refused {env : PoolEnv} {tx : SignedTx} (hr : Refused env view pool tx)
    (isLocal : Bool) : ∃ err, pool.add env view tx isLocal = .error err := by
  cases added : pool.add env view tx isLocal with
  | error err => exact ⟨err, rfl⟩
  | ok next =>
    obtain ⟨hu, hv, -⟩ := add_ok added
    rcases hr with hk | invalid
    · rw [hu] at hk
      cases hk
    · exact absurd hv invalid

theorem addTxsLocked_refused {env : PoolEnv} (order : PoolOrder)
    {txs : List SignedTx} (hr : ∀ tx ∈ txs, Refused env view pool tx) (isLocal : Bool) :
    (pool.addTxsLocked env view order txs isLocal).2 = pool := by
  have each : (addEach env view isLocal txs pool).2 = (∅, pool) := by
    induction txs with
    | nil => rfl
    | cons tx txs ih =>
      obtain ⟨err, added⟩ := add_refused (hr tx mem_cons_self) isLocal
      have rest := ih fun other mem => hr other (mem_cons_of_mem tx mem)
      unfold addEach
      rw [added]
      exact rest
  unfold addTxsLocked
  dsimp only
  rw [each, if_pos rfl]

/-- Every account with queued transactions has no cached nonce, or one not behind the ledger's. -/
def KeptUp (view : View) (pool : TxPool) : Prop :=
  ∀ addr list c, find pool.queue addr = some list → find pool.pendingState addr = some c →
    view.nonce addr ≤ c

theorem demotes_same (env : PoolEnv) (view : View) (accounts : List Address)
    (inv : Holds Small pool ∧ InLine view pool) :
    (accounts.foldl (TxPool.demoteAccount view) pool).queue = pool.queue ∧
      (accounts.foldl (TxPool.demoteAccount view) pool).pendingState = pool.pendingState := by
  induction accounts generalizing pool with
  | nil => exact ⟨rfl, rfl⟩
  | cons addr accounts ih =>
    obtain ⟨old, left, -, -, -, hre⟩ := demoteAccount_line view addr inv.2
    obtain ⟨queue, hc⟩ := ih ((inLine_stable env view).demote pool addr inv)
    rw [hre] at queue hc
    rw [List.foldl_cons, hre]
    exact ⟨queue, hc⟩

/-- Renewing brings the cached nonce above a pending transaction's, and that is not below the
ledger's. -/
theorem renewNonce_kept (addr : Address) (inv : Executable view pool)
    (kept : KeptUp view pool) : KeptUp view (pool.renewNonce addr) := by
  intro b list c hq hf
  rw [(renewNonce_same pool addr).2.1] at hq
  unfold renewNonce at hf
  cases last : (listAt pool.pending addr).items.getLast? with
  | none =>
    rw [last] at hf
    exact kept b list c hq hf
  | some tx =>
    rw [last] at hf
    dsimp only at hf
    rw [setNonce, find_insert] at hf
    split at hf
    next here =>
      cases hf
      have mem : tx ∈ (listAt pool.pending addr).items := mem_of_getLast? last
      have high := UInt64.le_iff_toNat_le.mp (inv.2 addr tx mem)
      rw [here, UInt64.le_iff_toNat_le, Small.toNat_succ (inv.1.1.pending mem)]
      exact high.trans (Nat.le_succ _)
    · exact kept b list c hq hf

theorem renews_kept (env : PoolEnv) (view : View) (accounts : List Address)
    (inv : Executable view pool) (kept : KeptUp view pool) :
    KeptUp view (accounts.foldl renewNonce pool) := by
  induction accounts generalizing pool with
  | nil => exact kept
  | cons addr accounts ih =>
    exact ih ((executable_stable env view).renew pool addr inv) (renewNonce_kept addr inv kept)

theorem reset_notStuck (env : PoolEnv) (view : View) (order : PoolOrder) {reinject : List SignedTx}
    (inv : Holds Small pool ∧ InLine view pool)
    (hr : ∀ tx ∈ reinject, Refused env view pool tx) (kept : KeptUp view pool)
    (addr : Address) : NotStuck view (pool.reset env view order reinject) addr := by
  unfold reset
  dsimp only
  rw [addTxsLocked_refused order hr]
  have demoted := demoteUnexecutables_executable env view order inv
  obtain ⟨queue, hc⟩ := demotes_same env view (order.range pool.pending.keys) inv
  have keptDemoted : KeptUp view (pool.demoteUnexecutables view order) := by
    unfold KeptUp demoteUnexecutables
    rw [queue, hc]
    exact kept
  have renewed := foldl_keeps (executable_stable env view).renew
    (order.range (pool.demoteUnexecutables view order).pending.keys) demoted
  have keptRenewed := renews_kept env view
    (order.range (pool.demoteUnexecutables view order).pending.keys) demoted keptDemoted
  generalize (order.range (pool.demoteUnexecutables view order).pending.keys).foldl
    renewNonce (pool.demoteUnexecutables view order) = ready at renewed keptRenewed ⊢
  have promoted := promotes_notStuck env view (order.range_nodup ready.queue.keys) renewed
      (fun addr mem c hf => by
      rw [order.mem_range, Finmap.mem_keys] at mem
      obtain ⟨list, hq⟩ := Finmap.mem_iff.mp mem
      exact keptRenewed addr list c hq hf)
    (fun addr out tx mem => by
      rw [order.mem_range] at out
      rw [notMem_keys out] at mem
      cases mem)
  have limited := (notStuck_sheds env view).limitQueue order
    ((notStuck_sheds env view).limitPending order promoted)
  exact limited.2 addr

/-! ## The guarantee -/

/-- A reset leaves no account's next transaction queued when the pool refuses what the block brings
and no account with queued transactions has its cached nonce behind the ledger's. -/
theorem no_stuck (env : PoolEnv) (before : List (View × PoolOrder × PoolOp)) (view : View)
    (order : PoolOrder) (reinject : List SignedTx)
    (rising : Rising (before ++ [(view, order, .reset reinject)]))
    (hs : ∀ step ∈ before ++ [(view, order, .reset reinject)], ∀ tx ∈ step.2.2.submitted,
      tx.nonceValue.toNat < 2 ^ 64 - 1)
    (hr : ∀ tx ∈ reinject, Refused env view (runPool env (blank env.config) before) tx)
    (kept : KeptUp view (runPool env (blank env.config) before)) (addr : Address) :
    let pool := runPool env (blank env.config) (before ++ [(view, order, .reset reinject)])
    ∀ tx ∈ (listAt pool.queue addr).items,
      tx.nonceValue.toNat ≠ (view.nonce addr).toNat + (listAt pool.pending addr).len := by
  have hst := before_reset env rising fun step mem tx sub => Nat.add_lt_of_lt_sub
    (hs step mem tx sub)
  have hw : runPool env (blank env.config) (before ++ [(view, order, .reset reinject)]) =
      (runPool env (blank env.config) before).reset env view order reinject := by
    rw [runPool, foldl_append]
    rfl
  rw [hw]
  exact reset_notStuck env view order hst hr kept addr

theorem someSteps_notStuck :
    let pool := runPool plainPool (TxPool.blank plainPool.config)
      (someSteps ++ [(viewAt 1, .byAddress, .reset [plainTx 1 0])])
    (listAt pool.queue (account 2)).len = 1 ∧ ∀ tx ∈ (listAt pool.queue (account 2)).items,
      tx.nonceValue.toNat ≠ ((viewAt 1).nonce (account 2)).toNat +
      (listAt pool.pending (account 2)).len := by
  refine ⟨by decide +kernel, no_stuck plainPool someSteps (viewAt 1) .byAddress
    [plainTx 1 0] ?_ ?_ ?_ ?_ (account 2)⟩
  · simp [Rising, someSteps, viewAt]
  · simp [someSteps, PoolOp.submitted, plainTx]
  · intro tx mem
    rw [List.mem_singleton.mp mem]
    exact .inl (by decide +kernel)
  · intro addr list c hq hc
    have keys : (runPool plainPool (TxPool.blank plainPool.config) someSteps).queue.keys =
        {account 2} := by
      decide +kernel
    have here : addr ∈ (runPool plainPool (TxPool.blank plainPool.config) someSteps).queue.keys :=
      Finmap.mem_keys.mpr (Finmap.mem_iff.mpr ⟨list, hq⟩)
    rw [keys, Finset.mem_singleton] at here
    have none : find (runPool plainPool (TxPool.blank plainPool.config) someSteps).pendingState
        (account 2) = none := by decide +kernel
    rw [here, none] at hc
    cases hc

/-- The ledger after a block with the nonces 0 and 1 of account 1. -/
def afterBlock : View := ⟨fun addr => if addr = account 1 then 2 else 0, fun _ => none⟩

/-- Account 1 sends its nonces 0 and 2 here and its nonce 1 to another node. -/
def overtaken : List (View × PoolOrder × PoolOp) :=
  [(viewAt 0, .byAddress, .reset []), (viewAt 0, .byAddress, .addRemote (plainTx 1 0)),
    (viewAt 0, .byAddress, .addRemote (plainTx 1 2)),
    (afterBlock, .byAddress, .reset [plainTx 1 0, plainTx 1 1])]

theorem overtaken_stuck : Rising overtaken ∧
      let pool := runPool plainPool (blank plainPool.config) overtaken
      ((listAt pool.queue (account 1)).items.map fun tx => tx.nonceValue.toNat) =
        [(afterBlock.nonce (account 1)).toNat + (listAt pool.pending (account 1)).len] := by
  refine ⟨?_, by decide +kernel⟩
  simp [Rising, overtaken, viewAt, afterBlock]

end HNBChain.Audit.Guarantees.NoStuck
