import HNBChain.Audit.Guarantees.PoolPartition

/-!
# Transactions for a proposal

`GetTxsFromTXPool` goes through the accounts in the order in which Go ranges over the map and takes
their pending transactions by nonce, until it has as many as asked for.
-/
namespace HNBChain.Audit.Guarantees.ProposalSelection

open Lib Source Spec PoolPartition List

theorem takeTxs_eq {count : Nat} (txs dstTxs : List SignedTx) (room : dstTxs.length < count) :
    takeTxs count txs dstTxs = ((dstTxs ++ txs).take count,
      decide (count ≤ (dstTxs ++ txs).length)) := by
  induction txs generalizing dstTxs with
  | nil => simp [takeTxs, take_of_length_le room.le, room]
  | cons v rest ih =>
    have shift : dstTxs ++ v :: rest = (dstTxs ++ [v]) ++ rest := by simp
    unfold takeTxs
    rw [shift]
    split_ifs with full
    · rw [← full, take_left, decide_eq_true]
      simp
    · refine ih _ (lt_of_le_of_ne ?_ full)
      simp
      omega

theorem takeAll_eq {count : Nat} (lists : List (List SignedTx)) (dstTxs : List SignedTx)
    (room : dstTxs.length < count) :
    takeAll count lists dstTxs = (dstTxs ++ lists.flatten).take count := by
  induction lists generalizing dstTxs with
  | nil => simp [takeAll, take_of_length_le room.le]
  | cons txs rest ih =>
    have shift : dstTxs ++ (txs :: rest).flatten = (dstTxs ++ txs) ++ rest.flatten := by simp
    unfold takeAll
    rw [takeTxs_eq txs dstTxs room, shift]
    by_cases full : count ≤ (dstTxs ++ txs).length
    · rw [decide_eq_true full, take_append_of_le_length full]
    · have left := not_le.mp full
      rw [decide_eq_false full, take_of_length_le left.le]
      exact ih _ left

theorem getTxsFromTXPool_eq (order : PoolOrder) (pool : TxPool) {count : Nat}
    (hp : 1 ≤ count) : getTxsFromTXPool order pool count =
      ((order.range pool.pending.keys).flatMap fun addr =>
        (listAt pool.pending addr).items).take count := by
  rw [getTxsFromTXPool, takeAll_eq _ [] hp, nil_append, List.flatMap]

/-- Of what is pending, one account has its list, if it is among the accounts. -/
theorem filter_pending {pending : Address → List SignedTx}
    (home : ∀ a, ∀ tx ∈ pending a, tx.fromAddr = a) (addr : Address)
    {accounts : List Address} (hd : accounts.Nodup) :
    (accounts.flatMap pending).filter (fun tx => tx.fromAddr = addr) = if addr ∈ accounts
    then pending addr else [] := by
  induction accounts with
  | nil => rfl
  | cons a rest ih =>
    have own : (pending a).filter (fun tx => tx.fromAddr = addr) = if addr = a
        then pending addr else [] := by
      split_ifs with same
      · subst same
        exact filter_eq_self.mpr fun tx mem => decide_eq_true (home addr tx mem)
      · exact filter_eq_nil_iff.mpr fun tx mem => by
          rw [home a tx mem]
          simpa using Ne.symm same
    rw [flatMap_cons, filter_append, own, ih hd.of_cons]
    by_cases same : addr = a
    · subst same
      simp [(nodup_cons.mp hd).1]
    · simp [same]

theorem length_pending (order : PoolOrder) (pool : TxPool) :
    ((order.range pool.pending.keys).flatMap fun addr => (listAt pool.pending addr).items).length =
    pool.pendingCount := by
  have accounts : (order.range pool.pending.keys).toFinset = pool.pending.keys := by
    ext addr
    rw [mem_toFinset, order.mem_range]
  rw [TxPool.pendingCount, length_flatMap, ← accounts,
    sum_toFinset _ (order.range_nodup _), accounts]
  rfl

/-- Whatever the pool went through and in whatever order its accounts come. -/
theorem proposal_selection (env : PoolEnv) (view : View) (order : PoolOrder)
    (ops : List (View × PoolOrder × PoolOp)) (ranges : PoolOrder) {count : Nat} (hp : 1 ≤ count) :
    let pool := runPool env (TxPool.newTxPool env view order) ops
    let txs := getTxsFromTXPool ranges pool count
    txs.length = min count pool.pendingCount ∧ txs.Nodup ∧
      ∀ addr, txs.filter (fun tx => tx.fromAddr = addr) <+: (listAt pool.pending addr).items ∧
        (listAt pool.pending addr).items.Pairwise fun a b => a.nonce < b.nonce := by
  intro pool txs
  have hf : Consistent pool := pool_consistent env view order ops
  have home (addr : Address) (tx : SignedTx) (mem : tx ∈ (listAt pool.pending addr).items) :
      tx.fromAddr = addr :=
    hf.home addr tx (Multiset.mem_add.mpr (.inl mem))
  have hd := ranges.range_nodup pool.pending.keys
  have chosen : txs = _ := getTxsFromTXPool_eq ranges pool hp
  rw [chosen, length_take, length_pending]
  refine ⟨rfl, ?_, fun addr => ⟨?_, (listAt pool.pending addr).sorted⟩⟩
  · refine (nodup_flatMap.mpr ⟨fun addr _ => ?_, ?_⟩).sublist (take_sublist _ _)
    · exact (listAt pool.pending addr).sorted.imp fun hb same => (same ▸ hb).false
    · refine hd.imp fun {a b} apart tx first second => ?_
      exact apart ((home a tx first).symm.trans (home b tx second))
  · refine (( take_prefix count _).filter _).trans ?_
    rw [filter_pending home addr hd]
    split_ifs
    · exact prefix_rfl
    · exact nil_prefix

theorem proposal_selection_one :
    let pool := runPool plainPool (TxPool.newTxPool plainPool (viewAt 0) .byAddress)
      [(viewAt 0, .byAddress, .addRemotes [plainTx 1 0, plainTx 1 1])]
    let txs := getTxsFromTXPool .byAddress pool 1
    txs.length = min 1 pool.pendingCount ∧ txs.Nodup ∧
      ∀ addr, txs.filter (fun tx => tx.fromAddr = addr) <+: (listAt pool.pending addr).items ∧
        (listAt pool.pending addr).items.Pairwise fun a b => a.nonce < b.nonce :=
  proposal_selection plainPool (viewAt 0) .byAddress _ .byAddress (by decide)

end HNBChain.Audit.Guarantees.ProposalSelection
