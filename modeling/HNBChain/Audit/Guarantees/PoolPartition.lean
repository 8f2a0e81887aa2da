import HNBChain.Audit.Spec.PoolSlots

/-!
# The pool's three indexes agree

`all` lists exactly the transactions that are pending or queued, and no list is empty, after
whatever operations and whatever the ledger's nonces were at each. The fairness loops are the only
place that could leave an empty list behind: they take the last transaction of lists and do not look
whether one is left. They stop in time when each account may have at least one.
-/
namespace HNBChain.Audit.Guarantees.PoolPartition

open Lib Source Spec TxPool KeyedList

/-- No account has an empty list. -/
def NoEmpty (lists : Store Address TxList) : Prop :=
  ∀ addr list, find lists addr = some list → list.items ≠ []

theorem NoEmpty.insert {lists : Store Address TxList} (none : NoEmpty lists) {addr : Address}
    {list : TxList} (some : list.items ≠ []) : NoEmpty (lists.insert addr list) := by
  intro b other hf
  rw [find_insert] at hf
  split at hf
  · cases hf
    exact some
  · exact none b other hf

theorem NoEmpty.setList {lists : Store Address TxList} (none : NoEmpty lists) (addr : Address)
    (list : TxList) : NoEmpty (setList lists addr list) := by
  unfold Source.setList
  split
  · intro b other hf
    rw [find_erase] at hf
    split at hf
    · cases hf
    · exact none b other hf
  next some => exact none.insert some

/-- No stored list is empty. -/
def Trimmed (pool : TxPool) : Prop := NoEmpty pool.pending ∧ NoEmpty pool.queue

variable {pool : TxPool}

theorem promoteTxs_trimmed (addr : Address) (txs : List SignedTx) (ht : NoEmpty pool.pending) :
    NoEmpty (txs.foldl (promoteTx addr) pool).pending := by
  induction txs generalizing pool with
  | nil => exact ht
  | cons tx txs ih =>
    refine ih ?_
    unfold promoteTx note
    dsimp only
    split_ifs
    · exact ht
    · exact ht.insert (put_ne_nil tx _)
    · exact ht.insert (put_ne_nil tx _)

theorem postpone_trimmed (tx : SignedTx) (ht : NoEmpty pool.queue) :
    NoEmpty (pool.postpone tx).queue := by
  unfold postpone
  cases queued : pool.enqueueTx tx with
  | error err => exact ht
  | ok next =>
    obtain ⟨-, rfl⟩ := enqueueTx_ok queued
    dsimp only [note]
    split <;> exact ht.insert (put_ne_nil tx _)

theorem postpones_trimmed (txs : List SignedTx) (ht : NoEmpty pool.queue) :
    NoEmpty (txs.foldl postpone pool).queue := by
  induction txs generalizing pool with
  | nil => exact ht
  | cons tx txs ih => exact ih (postpone_trimmed tx ht)

theorem trimmed_stable {env : PoolEnv} (view : View) (Fit : SignedTx → Prop)
    (slots : 1 ≤ env.config.accountSlots.toNat) : PoolStable env view Fit Trimmed where
  add pool tx isLocal next _ trimmed added := by
    obtain ⟨-, -, rfl | ⟨-, -, locals, rfl⟩⟩ := add_ok added
    · exact trimmed
    · exact ⟨trimmed.1, trimmed.2.insert (put_ne_nil tx _)⟩
  promote pool addr trimmed := by
    unfold promoteAccount
    cases find pool.queue addr with
    | none => exact trimmed
    | some list =>
      refine ⟨promoteTxs_trimmed addr _ trimmed.1, NoEmpty.setList ?_ addr _⟩
      exact (promoteTxs_queue addr _ _).symm ▸ trimmed.2
  dropLast pool addr trimmed long := by
    unfold dropLast
    cases found : find pool.pending addr with
    | none => exact trimmed
    | some list =>
      obtain ⟨hp, queue, -⟩ := shed_same view addr (list.cap (list.len - 1)).1
        { pool with pending := pool.pending.insert addr (list.cap (list.len - 1)).2 }
      unfold Trimmed
      rw [hp, queue]
      rw [pendingLen, listAt_of_find found, len] at long
      -- the list had two transactions at least
      refine ⟨trimmed.1.insert (List.ne_nil_of_length_pos ?_), trimmed.2⟩
      rw [cap, List.length_take, len]
      omega
  remove pool hash trimmed := by
    unfold removeTx
    cases find pool.all hash with
    | none => exact trimmed
    | some tx =>
      dsimp only
      split
      · unfold Trimmed
        rw [(lowerNonce_same view _ _ _).1, (lowerNonce_same view _ _ _).2.1, postpones_pending]
        exact ⟨trimmed.1.setList _ _, postpones_trimmed _ trimmed.2⟩
      · exact ⟨trimmed.1, trimmed.2.setList _ _⟩
  demote pool addr trimmed := by
    unfold demoteAccount
    cases find pool.pending addr with
    | none => exact trimmed
    | some list =>
      refine ⟨NoEmpty.setList ?_ addr _, postpones_trimmed _ trimmed.2⟩
      exact (postpones_pending _ _).symm ▸ trimmed.1
  renew pool addr trimmed := by
    obtain ⟨hp, queue, -⟩ := renewNonce_same pool addr
    unfold Trimmed
    rw [hp, queue]
    exact trimmed

/-! ## The guarantee -/

/-- The pool's indexes partition its transactions: `all` lists those that are pending or queued, no
account has a nonce in both lists, each transaction is in a list of its sender under its nonce, and
no list is empty. -/
structure Partitioned (pool : TxPool) : Prop where
  all_iff : ∀ hash tx, find pool.all hash = some tx ↔ tx.txid = hash ∧
    (tx ∈ (listAt pool.pending tx.fromAddr).items ∨ tx ∈ (listAt pool.queue tx.fromAddr).items)
  apart : ∀ addr, ∀ a ∈ (listAt pool.pending addr).items, ∀ b ∈ (listAt pool.queue addr).items,
    a.nonceValue ≠ b.nonceValue
  pending_home : ∀ addr, ∀ tx ∈ (listAt pool.pending addr).items, tx.fromAddr = addr ∧
    (listAt pool.pending addr).get tx.nonceValue.toNat = some tx
  queue_home : ∀ addr, ∀ tx ∈ (listAt pool.queue addr).items, tx.fromAddr = addr ∧
    (listAt pool.queue addr).get tx.nonceValue.toNat = some tx
  pending_ne_nil : ∀ addr list, find pool.pending addr = some list → list.items ≠ []
  queue_ne_nil : ∀ addr list, find pool.queue addr = some list → list.items ≠ []

theorem Consistent.partitioned (hfi : Consistent pool) (ht : Trimmed pool) :
    Partitioned pool where
  all_iff hash tx := by
    rw [hfi.all_iff, Pi.add_apply, Multiset.mem_add]
    rfl
  apart addr a memA b memB same :=
    hfi.apart (Multiset.mem_coe.mpr memA) (Multiset.mem_coe.mpr memB) (congrArg UInt64.toNat same)
  pending_home addr tx mem :=
    ⟨hfi.home addr tx (Multiset.mem_add.mpr (.inl mem)), get_eq_some.mpr ⟨mem, rfl⟩⟩
  queue_home addr tx mem :=
    ⟨hfi.home addr tx (Multiset.mem_add.mpr (.inr mem)), get_eq_some.mpr ⟨mem, rfl⟩⟩
  pending_ne_nil := ht.1
  queue_ne_nil := ht.2

theorem blank_trimmed (config : TxPoolConfig) : Trimmed (blank config) :=
  ⟨(fun _ _ hf => by cases hf), (fun _ _ hf => by cases hf)⟩

theorem pool_consistent (env : PoolEnv) (view : View) (order : PoolOrder)
    (ops : List (View × PoolOrder × PoolOp)) :
    Consistent (runPool env (newTxPool env view order) ops) :=
  runPool_keeps ops (fun step _ => consistent_stable env step.1 fun _ => True)
    (fun _ _ _ _ => trivial)
    ((consistent_stable env view fun _ => True).reset order (by simp) (blank_consistent env.config))

/-- Whatever the ledger says at each step, the indexes of a pool partition its transactions. -/
theorem pool_partitioned (env : PoolEnv) (slots : 1 ≤ env.config.accountSlots.toNat) (view : View)
    (order : PoolOrder) (ops : List (View × PoolOrder × PoolOp)) :
    Partitioned (runPool env (newTxPool env view order) ops) := by
  have ht : Trimmed (newTxPool env view order) :=
    (trimmed_stable view (fun _ => True) slots).reset order (by simp) (blank_trimmed env.config)
  exact Consistent.partitioned (pool_consistent env view order ops)
    (runPool_keeps ops (fun step _ => trimmed_stable step.1 (fun _ => True) slots)
      (fun _ _ _ _ => trivial) ht)

/-- Whatever happens to a pool, each of its transactions came with one of the operations and was
valid for the ledger as it was then. -/
theorem pool_submitted (env : PoolEnv) (view : View) (order : PoolOrder)
    (ops : List (View × PoolOrder × PoolOp)) :
    Holds (fun tx => ∃ step ∈ ops, tx ∈ step.2.2.submitted ∧ validateTx env step.1 tx = .ok ())
      (runPool env (newTxPool env view order) ops) := by
  have unused {Good : SignedTx → Prop} : PoolStable env view (fun _ => False) (Holds Good) :=
    holds_stable nofun
  refine List.foldlRecOn ops _ (unused.reset order nofun ⟨blank_consistent env.config, nofun⟩) ?_
  intro pool hh step mem
  exact (holds_stable fun tx sent hv => ⟨step, mem, sent, hv⟩).apply step.2.1 step.2.2
    (fun _ sent => sent) hh

/-! ### A pool -/

def account (n : UInt8) : Address := ⟨List.replicate 20 n, List.length_replicate⟩

/-- A signer for whom `V` names the account. -/
def plainSigner : Signer where
  hash content := content.payload ++ [content.nonceValue.toUInt8]
  recover _ v _ _ :=
    match v with
    | none => .error .panic
    | some n => .ok (account (UInt8.ofNat n.toNat))

def plainTx (n : UInt8) (nonce : UInt64) : SignedTx where
  contractName := [1]
  payload := [n]
  txid := [n, nonce.toUInt8]
  fromAddr := account n
  nonceValue := nonce
  v := some n.toNat
  r := some 1
  s := some 1

def plainPool : PoolEnv := ⟨defaultTxPoolConfig, "dev", plainSigner⟩

/-- Every account's nonce is `n`. -/
def viewAt (n : UInt64) : View := ⟨fun _ => n, fun _ => none⟩

theorem pool_partitioned_default : 1 ≤ plainPool.config.accountSlots.toNat ∧
      Partitioned (runPool plainPool (newTxPool plainPool (viewAt 0) .byAddress)
        [(viewAt 0, .byAddress, .addRemotes [plainTx 1 0, plainTx 1 2, plainTx 2 5]),
          (viewAt 1, .byAddress, .reset [plainTx 1 0])]) :=
  ⟨by decide, pool_partitioned plainPool (by decide) (viewAt 0) .byAddress _⟩

end HNBChain.Audit.Guarantees.PoolPartition
