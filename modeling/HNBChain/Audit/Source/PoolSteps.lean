import HNBChain.Audit.Source.TxPool

/-!
# What the pool's operations are made of

Every operation is a sequence of a few steps on one account: a transaction is added, an account's
queued transactions are promoted, its last pending one is dropped, a transaction is removed, an
account is demoted, a cached nonce is renewed. What these steps preserve, every operation preserves
(`PoolStable`). The loops that enforce the pending limit are looked at once, here: they take a
transaction only from an account that has more than each account may have.
-/
namespace HNBChain.Audit.Source

open Lib TxPool List KeyedList

/-! ## Lists under accounts -/

variable (lists : Store Address TxList)

theorem listAt_insert (addr b : Address) (list : TxList) :
    listAt (lists.insert addr list) b = if b = addr then list else listAt lists b := by
  rw [listAt, find_insert]
  split <;> rfl

theorem listAt_erase (addr b : Address) :
    listAt (lists.erase addr) b = if b = addr then .empty else listAt lists b := by
  rw [listAt, find_erase]
  split <;> rfl

variable {lists : Store Address TxList}

theorem listAt_of_find {addr : Address} {list : TxList}
    (hfo : find lists addr = some list) : listAt lists addr = list := by
  rw [listAt, hfo]
  rfl

theorem listAt_of_none {addr : Address} (hfo : find lists addr = none) :
    listAt lists addr = .empty := by
  rw [listAt, hfo]
  rfl

/-- Where there is no list, storing an empty one changes nothing. -/
theorem setList_empty {addr : Address} (hfo : find lists addr = none) :
    setList lists addr .empty = lists := by
  refine store_ext fun b => ?_
  rw [setList, if_pos (show (empty : TxList).items = [] from rfl), find_erase]
  split
  next here => rw [here, hfo]
  · rfl

theorem forward_low (threshold : UInt64) (list : TxList) :
    ∀ tx ∈ (list.forward threshold).1, tx.nonceValue < threshold :=
  fun _ mem => of_decide_eq_true (mem_filter.mp mem).2

theorem forward_high (threshold : UInt64) (list : TxList) :
    ∀ tx ∈ (list.forward threshold).2.items, threshold ≤ tx.nonceValue := by
  intro tx mem
  have kept := (mem_filter.mp mem).2
  rw [Bool.not_eq_true', decide_eq_false_iff_not] at kept
  exact UInt64.not_lt.mp kept

theorem listAt_setList (addr b : Address) (list : TxList) :
    listAt (setList lists addr list) b = if b = addr then list else listAt lists b := by
  unfold setList
  split
  next none =>
    have bare : list = .empty := by
      cases list
      cases none
      rfl
    rw [listAt_erase, bare]
  next => exact listAt_insert lists addr b list

/-! ## One step -/

section Steps

variable {pool : TxPool} {addr : Address} {tx : SignedTx}

theorem overlaps_eq_false {list : TxList} :
    list.overlaps tx = false ↔ ∀ other ∈ list.items, other.nonce ≠ tx.nonce := by
  rw [TxList.overlaps, Option.isSome_eq_false_iff, Option.isNone_iff_eq_none, get_eq_none]

theorem note_known (hkn : find pool.all tx.txid = some tx) : pool.note tx = pool := by
  rw [note, hkn]
  rfl

theorem postpones_pending (txs : List SignedTx) (pool : TxPool) :
    (txs.foldl postpone pool).pending = pool.pending := by
  induction txs generalizing pool with
  | nil => rfl
  | cons tx txs ih =>
    rw [foldl_cons, ih]
    unfold postpone enqueueTx note
    dsimp only
    split_ifs <;> rfl

theorem promoteTxs_queue (addr : Address) (txs : List SignedTx) (pool : TxPool) :
    (txs.foldl (promoteTx addr) pool).queue = pool.queue := by
  induction txs generalizing pool with
  | nil => rfl
  | cons tx txs ih =>
    rw [foldl_cons, ih]
    unfold promoteTx note
    dsimp only
    split_ifs <;> rfl

theorem lowerNonce_same (view : View) (pool : TxPool) (addr : Address) (nonce : UInt64) :
    (pool.lowerNonce view addr nonce).pending = pool.pending ∧
    (pool.lowerNonce view addr nonce).queue = pool.queue ∧
      (pool.lowerNonce view addr nonce).all = pool.all ∧
      (pool.lowerNonce view addr nonce).locals = pool.locals := by
  unfold lowerNonce
  split <;> exact ⟨rfl, rfl, rfl, rfl⟩

theorem find_lowerNonce {view : View} {nonce c : UInt64} (hc : find pool.pendingState addr = some c)
    (hb : nonce < c) : find (pool.lowerNonce view addr nonce).pendingState addr =
    some nonce := by
  have lower : nonce < pool.getNonce view addr := by
    rw [getNonce, hc]
    exact hb
  rw [lowerNonce, if_pos lower, setNonce, find_insert, if_pos rfl]

variable (pool : TxPool)

theorem renewNonce_same (addr : Address) :
    (pool.renewNonce addr).pending = pool.pending ∧ (pool.renewNonce addr).queue = pool.queue ∧
      (pool.renewNonce addr).all = pool.all := by
  unfold renewNonce
  split <;> exact ⟨rfl, rfl, rfl⟩

/-- Transactions that have left the pending list are forgotten one by one. -/
theorem shed_same (view : View) (addr : Address) (txs : List SignedTx) (pool : TxPool) :
    let shed := txs.foldl
      (fun pool tx => (pool.forget [tx]).lowerNonce view addr tx.nonceValue) pool
    shed.pending = pool.pending ∧ shed.queue = pool.queue ∧ shed.locals = pool.locals ∧
      shed.all = (pool.forget txs).all := by
  induction txs generalizing pool with
  | nil => exact ⟨rfl, rfl, rfl, rfl⟩
  | cons tx txs ih =>
    obtain ⟨hp, queue, locals, all⟩ :=
      ih ((pool.forget [tx]).lowerNonce view addr tx.nonceValue)
    obtain ⟨pendingOne, queueOne, allOne, localsOne⟩ :=
      lowerNonce_same view (pool.forget [tx]) addr tx.nonceValue
    refine ⟨hp.trans pendingOne, queue.trans queueOne, locals.trans localsOne, all.trans ?_⟩
    unfold forget at allOne ⊢
    rw [allOne]
    rfl

theorem dropLast_pending (view : View) (pool : TxPool) (addr b : Address) :
    listAt (pool.dropLast view addr).pending b =
      if b = addr then ((listAt pool.pending addr).cap (pool.pendingLen addr - 1)).2
      else listAt pool.pending b := by
  unfold TxPool.dropLast
  cases found : find pool.pending addr with
  | none =>
    dsimp only
    split
    next here =>
      rw [here, TxPool.pendingLen, listAt, found]
      rfl
    · rfl
  | some list =>
    rw [(shed_same view addr _ _).1, listAt_insert, TxPool.pendingLen, listAt_of_find found]

theorem pendingLen_dropLast (view : View) (pool : TxPool) (addr b : Address) :
    (pool.dropLast view addr).pendingLen b = if b = addr then pool.pendingLen addr - 1
    else pool.pendingLen b := by
  rw [pendingLen, dropLast_pending]
  split
  next here =>
    rw [len, cap, length_take, pendingLen, len]
    omega
  · rfl

theorem enqueueTx_ok {pool next : TxPool} {tx : SignedTx} (hq : pool.enqueueTx tx = .ok next) :
    (∀ other ∈ (listAt pool.queue tx.fromAddr).items, other.nonce ≠ tx.nonce) ∧
    next = note tx { pool with
        queue := pool.queue.insert tx.fromAddr ((listAt pool.queue tx.fromAddr).put tx) } := by
  unfold enqueueTx at hq
  dsimp only at hq
  split at hq
  · cases hq
  next free =>
    cases hq
    exact ⟨overlaps_eq_false.mp (Bool.not_eq_true _ ▸ free), rfl⟩

/-- What `add` does when it returns no error. -/
theorem add_ok {env : PoolEnv} {view : View} {pool next : TxPool} {tx : SignedTx} {isLocal : Bool}
    (ha : pool.add env view tx isLocal = .ok next) :
    find pool.all tx.txid = none ∧ validateTx env view tx = .ok () ∧ (next = pool ∨
        (∀ other ∈ (listAt pool.pending tx.fromAddr).items, other.nonce ≠ tx.nonce) ∧
        (∀ other ∈ (listAt pool.queue tx.fromAddr).items, other.nonce ≠ tx.nonce) ∧ ∃ locals,
        next = { pool with
          queue := pool.queue.insert tx.fromAddr ((listAt pool.queue tx.fromAddr).put tx)
          all := pool.all.insert tx.txid tx
          locals := locals }) := by
  unfold add at ha
  split at ha
  · cases ha
  next unknown =>
    have hfr : find pool.all tx.txid = none := by
      rwa [Bool.not_eq_true, Option.isSome_eq_false_iff, Option.isNone_iff_eq_none] at unknown
    refine ⟨hfr, ?_⟩
    cases valid : validateTx env view tx with
    | error err => rw [valid] at ha; cases ha
    | ok done =>
      rw [valid] at ha
      refine ⟨rfl, ?_⟩
      dsimp only at ha
      split at ha
      · cases ha
      split at ha
      · cases ha
        exact .inl rfl
      next freePending =>
        cases queued : pool.enqueueTx tx with
        | error err => rw [queued] at ha; cases ha
        | ok after =>
          rw [queued] at ha
          obtain ⟨free, rfl⟩ := enqueueTx_ok queued
          refine .inr ⟨overlaps_eq_false.mp (Bool.not_eq_true _ ▸ freePending), free, ?_⟩
          rw [note, hfr] at ha
          cases isLocal with
          | true => cases ha; exact ⟨_, rfl⟩
          | false => cases ha; exact ⟨_, rfl⟩

/-- What the promotion of an account does: it drops the queued transactions below the ledger's
nonce, moves the ready ones to the pending list and drops what is left over the limit. -/
theorem promoteAccount_spec (env : PoolEnv) (view : View) (pool : TxPool) (addr : Address) :
    ∃ (old ready dropped : List SignedTx) (left : TxList),
      (listAt pool.queue addr).Splits (old ++ (ready ++ dropped), left) ∧
      (∀ tx ∈ old, tx.nonceValue < view.nonce addr) ∧
      (∀ tx ∈ ready ++ (dropped ++ left.items), view.nonce addr ≤ tx.nonceValue) ∧
      ((ready = [] ∧ ∀ tx ∈ dropped ++ left.items, (pool.getNonce view addr).toNat < tx.nonce) ∨
        ∃ n ≤ (pool.getNonce view addr).toNat, ready ≠ [] ∧
        ready.map SignedTx.nonce = range' n ready.length ∧
          ∀ tx ∈ dropped ++ left.items, n + ready.length < tx.nonce) ∧
          pool.promoteAccount env view addr =
        { (ready.foldl (promoteTx addr) (pool.forget old)).forget dropped with
          queue := setList pool.queue addr left } := by
  unfold promoteAccount
  cases found : find pool.queue addr with
  | none =>
    refine ⟨[], [], [], .empty, listAt_of_none found ▸ splits_self _, by simp,
      by simp [empty], .inl ⟨rfl, by simp [empty]⟩, ?_⟩
    rw [setList_empty found]
    rfl
  | some list =>
    dsimp only
    rw [show ∀ txs (p : TxPool), (p.forget txs).queue = p.queue from fun _ _ => rfl,
      promoteTxs_queue]
    have low := forward_low (view.nonce addr) list
    have high := forward_high (view.nonce addr) list
    have hf : list.Splits (list.forward (view.nonce addr)) := partition_splits _ list
    generalize list.forward (view.nonce addr) = old at hf low high ⊢
    have run : old.2.Splits (old.2.ready (pool.getNonce view addr).toNat) := ready_splits _ _
    have stops := ready_spec (pool.getNonce view addr).toNat old.2
    rw [show (pool.forget old.1).getNonce view addr = pool.getNonce view addr from rfl]
    generalize old.2.ready (pool.getNonce view addr).toNat = ready at run stops ⊢
    have cut : ready.2.Splits (if addr ∈ (ready.1.foldl (promoteTx addr)
        (pool.forget old.1)).locals then ([], ready.2)
        else ready.2.cap env.config.accountQueue.toNat) :=
      splits_ite (splits_self _) (cap_splits _ _)
    generalize (if addr ∈ (ready.1.foldl (promoteTx addr) (pool.forget old.1)).locals then
      ([], ready.2) else ready.2.cap env.config.accountQueue.toNat) = capped at cut ⊢
    refine ⟨old.1, ready.1, capped.1, capped.2, ?_, low, ?_, ?_, rfl⟩
    · rw [listAt_of_find found]
      exact hf.trans (run.trans cut)
    · intro tx mem
      rw [mem_append, mem_append, ← cut.mem, ← run.mem] at mem
      exact high tx mem
    · rcases stops with ⟨none, same, hab⟩ | ⟨n, le, some, keys, hab⟩
      · refine .inl ⟨none, fun tx mem => hab tx ?_⟩
        rw [mem_append, ← cut.mem, same] at mem
        exact mem
      · refine .inr ⟨n, le, some, keys, fun tx mem => hab tx ?_⟩
        rw [mem_append, ← cut.mem] at mem
        exact mem

/-- What the demotion of an account does: it drops the pending transactions below the ledger's nonce
and moves the others back to the queue when none has that nonce. -/
theorem demoteAccount_spec (view : View) (pool : TxPool) (addr : Address) :
    ∃ (old moved : List SignedTx) (left : TxList),
    (listAt pool.pending addr).Splits (old ++ moved, left) ∧
      (∀ tx ∈ old, tx.nonceValue < view.nonce addr) ∧
      (∀ tx ∈ moved ++ left.items, view.nonce addr ≤ tx.nonceValue) ∧
      (moved ≠ [] → ∀ tx ∈ moved ++ left.items, tx.nonce ≠ (view.nonce addr).toNat) ∧
      pool.demoteAccount view addr = { moved.foldl postpone (pool.forget old) with
          pending := setList pool.pending addr left } := by
  unfold demoteAccount
  cases found : find pool.pending addr with
  | none =>
    refine ⟨[], [], .empty, listAt_of_none found ▸ splits_self _,
      by simp, by simp [empty], by simp, ?_⟩
    rw [setList_empty found]
    rfl
  | some list =>
    dsimp only
    rw [postpones_pending]
    have low := forward_low (view.nonce addr) list
    have high := forward_high (view.nonce addr) list
    have hf : list.Splits (list.forward (view.nonce addr)) := partition_splits _ list
    generalize list.forward (view.nonce addr) = old at hf low high ⊢
    split
    next gap =>
      have cut : old.2.Splits (old.2.cap 0) := cap_splits 0 _
      refine ⟨old.1, (old.2.cap 0).1, (old.2.cap 0).2, ?_, low, ?_, fun _ tx mem => ?_, rfl⟩
      · rw [listAt_of_find found]
        exact hf.trans cut
      · intro tx mem
        rw [mem_append, ← cut.mem] at mem
        exact high tx mem
      · rw [mem_append, ← cut.mem] at mem
        exact get_eq_none.mp (Option.isNone_iff_eq_none.mp gap.2) tx mem
    · refine ⟨old.1, [], old.2, ?_, low, high, fun some => absurd rfl some, rfl⟩
      rw [listAt_of_find found, append_nil]
      exact hf

/-! ### Other accounts -/

/-- Nothing of account `b` changes. -/
def SameAt (b : Address) (pool next : TxPool) : Prop :=
  listAt next.pending b = listAt pool.pending b ∧ listAt next.queue b = listAt pool.queue b ∧
    find next.pendingState b = find pool.pendingState b

theorem SameAt.refl (b : Address) (pool : TxPool) : SameAt b pool pool := ⟨rfl, rfl, rfl⟩

variable {b : Address}

theorem SameAt.trans {first second third : TxPool} (one : SameAt b first second)
    (two : SameAt b second third) : SameAt b first third :=
  ⟨two.1.trans one.1, two.2.1.trans one.2.1, two.2.2.trans one.2.2⟩

theorem foldl_sameAt {α : Type} {f : TxPool → α → TxPool} {items : List α}
    (step : ∀ pool, ∀ a ∈ items, SameAt b pool (f pool a)) (pool : TxPool) :
    SameAt b pool (items.foldl f pool) := by
  induction items generalizing pool with
  | nil => exact .refl b pool
  | cons a items ih =>
    exact (step pool a mem_cons_self).trans
      (ih (fun pool c mem => step pool c (mem_cons_of_mem a mem)) (f pool a))

theorem lowerNonce_sameAt (view : View) (pool : TxPool) (nonce : UInt64) (other : b ≠ addr) :
    SameAt b pool (pool.lowerNonce view addr nonce) := by
  unfold lowerNonce
  split
  · exact ⟨rfl, rfl, by rw [setNonce, find_insert, if_neg other]⟩
  · exact .refl b pool

theorem promoteTx_sameAt (tx : SignedTx) (other : b ≠ addr) :
    SameAt b pool (pool.promoteTx addr tx) := by
  unfold promoteTx note
  dsimp only
  split_ifs
  · exact .refl b pool
  all_goals
    refine ⟨?_, rfl, by rw [setNonce, find_insert, if_neg other]⟩
    rw [setNonce, listAt_insert, if_neg other]

theorem postpone_sameAt (other : b ≠ tx.fromAddr) : SameAt b pool (pool.postpone tx) := by
  unfold postpone
  cases queued : pool.enqueueTx tx with
  | error err => exact .refl b pool
  | ok next =>
    obtain ⟨-, rfl⟩ := enqueueTx_ok queued
    dsimp only [note]
    split_ifs
    all_goals exact ⟨rfl, by rw [listAt_insert, if_neg other], rfl⟩

theorem promoteAccount_sameAt (env : PoolEnv) (view : View) (pool : TxPool) (other : b ≠ addr) :
    SameAt b pool (pool.promoteAccount env view addr) := by
  obtain ⟨old, ready, dropped, left, -, -, -, -, hr⟩ := promoteAccount_spec env view pool addr
  have hmo := foldl_sameAt (fun p tx (_ : tx ∈ ready) => promoteTx_sameAt p tx other)
    (pool.forget old)
  rw [hr]
  exact ⟨hmo.1, by rw [listAt_setList, if_neg other], hmo.2.2⟩

theorem dropLast_sameAt (view : View) (pool : TxPool) (other : b ≠ addr) :
    SameAt b pool (pool.dropLast view addr) := by
  unfold TxPool.dropLast
  cases find pool.pending addr with
  | none => exact .refl b pool
  | some list =>
    refine SameAt.trans ?_ (foldl_sameAt (fun p tx _ =>
      (lowerNonce_sameAt view (p.forget [tx]) tx.nonceValue other)) _)
    exact ⟨by rw [listAt_insert, if_neg other], rfl, rfl⟩

theorem renewNonce_sameAt (other : b ≠ addr) : SameAt b pool (pool.renewNonce addr) := by
  unfold renewNonce
  split
  · exact .refl b pool
  · exact ⟨rfl, rfl, by rw [setNonce, find_insert, if_neg other]⟩

end Steps

/-! ## All operations -/

/-- `Inv` outlives the steps that enforce the limits. -/
structure PoolSheds (env : PoolEnv) (view : View) (Inv : TxPool → Prop) : Prop where
  dropLast : ∀ pool addr, Inv pool → env.config.accountSlots.toNat < pool.pendingLen addr →
    Inv (pool.dropLast view addr)
  remove : ∀ pool hash, Inv pool → Inv (pool.removeTx view hash)

/-- `Inv` outlives the steps that operations are made of, when the transactions they bring are
`Fit`. -/
structure PoolStable (env : PoolEnv) (view : View) (Fit : SignedTx → Prop)
    (Inv : TxPool → Prop) : Prop extends PoolSheds env view Inv where
  add : ∀ pool tx isLocal next, Fit tx → Inv pool →
    pool.add env view tx isLocal = .ok next → Inv next
  promote : ∀ pool addr, Inv pool → Inv (pool.promoteAccount env view addr)
  demote : ∀ pool addr, Inv pool → Inv (pool.demoteAccount view addr)
  renew : ∀ pool addr, Inv pool → Inv (pool.renewNonce addr)

theorem foldl_keeps {Inv : TxPool → Prop} {α : Type} {f : TxPool → α → TxPool}
    (step : ∀ pool a, Inv pool → Inv (f pool a)) (items : List α) {pool : TxPool}
    (hh : Inv pool) : Inv (items.foldl f pool) := by
  induction items generalizing pool with
  | nil => exact hh
  | cons a items ih => exact ih (step pool a hh)

namespace PoolSheds

variable {env : PoolEnv} {view : View} {Inv : TxPool → Prop}

variable {pool : TxPool}

/-- Every offender loses one transaction. -/
theorem dropLasts (sheds : PoolSheds env view Inv) {offenders : List Address}
    (hd : offenders.Nodup) (hh : Inv pool) (long : ∀ addr ∈ offenders,
      env.config.accountSlots.toNat < pool.pendingLen addr) :
    Inv (offenders.foldl (TxPool.dropLast view) pool) ∧
      (∀ addr ∈ offenders, (offenders.foldl (TxPool.dropLast view) pool).pendingLen addr =
        pool.pendingLen addr - 1) ∧
      ∀ addr ∉ offenders, (offenders.foldl (TxPool.dropLast view) pool).pendingLen addr =
      pool.pendingLen addr := by
  induction offenders generalizing pool with
  | nil => exact ⟨hh, (fun addr mem => by cases mem), fun _ _ => rfl⟩
  | cons first others ih =>
    obtain ⟨new, hd⟩ := List.nodup_cons.mp hd
    have he : ∀ addr ∈ others, (pool.dropLast view first).pendingLen addr =
        pool.pendingLen addr := by
      intro addr mem
      rw [pendingLen_dropLast, if_neg]
      rintro rfl
      exact new mem
    obtain ⟨kept, hsh, same⟩ := ih hd
      (sheds.dropLast pool first hh (long first List.mem_cons_self))
      (fun addr mem => (he addr mem).symm ▸ long addr (List.mem_cons_of_mem first mem))
    refine ⟨kept, fun addr mem => ?_, fun addr out => ?_⟩
    · rcases List.mem_cons.mp mem with rfl | mem
      · exact (same addr new).trans (by rw [pendingLen_dropLast, if_pos rfl])
      · exact (hsh addr mem).trans (by rw [he addr mem])
    · obtain ⟨hap, out⟩ := List.ne_and_not_mem_of_not_mem_cons out
      exact (same addr out).trans (by rw [pendingLen_dropLast, if_neg hap])

/-- No offender gets shorter than the last one, and the last one not shorter than the threshold. -/
theorem equalize (sheds : PoolSheds env view Inv) (slots : Nat) {threshold : Nat}
    (least : env.config.accountSlots.toNat ≤ threshold) {offenders : List Address}
    (hd : offenders.Nodup) {last : Address} (hm : last ∈ offenders) (fuel pending : Nat)
    (hh : Inv pool) (hl : ∀ addr ∈ offenders, pool.pendingLen last ≤ pool.pendingLen addr)
    (hen : threshold ≤ pool.pendingLen last) :
    let evened := (TxPool.equalize view slots threshold offenders last fuel pending pool).2
    Inv evened ∧ (∀ addr ∈ offenders, evened.pendingLen last ≤ evened.pendingLen addr) ∧
      threshold ≤ evened.pendingLen last ∧
      ∀ addr ∉ offenders, evened.pendingLen addr = pool.pendingLen addr := by
  induction fuel generalizing pending pool with
  | zero => exact ⟨hh, hl, hen, fun _ _ => rfl⟩
  | succ fuel ih =>
    unfold TxPool.equalize
    split
    next above =>
      obtain ⟨kept, hsh, same⟩ := sheds.dropLasts hd hh fun addr mem =>
        least.trans_lt (above.2.trans_le (hl addr mem))
      have stillLonger : ∀ addr ∈ offenders,
        (offenders.foldl (TxPool.dropLast view) pool).pendingLen last ≤
            (offenders.foldl (TxPool.dropLast view) pool).pendingLen addr := by
        intro addr mem
        rw [hsh last hm, hsh addr mem]
        exact Nat.sub_le_sub_right (hl addr mem) 1
      have stillEnough : threshold ≤
          (offenders.foldl (TxPool.dropLast view) pool).pendingLen last := by
        rw [hsh last hm]
        exact Nat.le_sub_one_of_lt above.2
      obtain ⟨hr, order, bound, ho⟩ :=
        ih (pending - offenders.length) kept stillLonger stillEnough
      exact ⟨hr, order, bound, fun addr out => (ho addr out).trans (same addr out)⟩
    · exact ⟨hh, hl, hen, fun _ _ => rfl⟩

/-- The last offender has more than each account may have, and no other has fewer. -/
def Leads (env : PoolEnv) (pool : TxPool) (offenders : List Address) : Prop :=
  ∀ last ∈ offenders.getLast?, env.config.accountSlots.toNat < pool.pendingLen last ∧
    ∀ addr ∈ offenders, pool.pendingLen last ≤ pool.pendingLen addr

theorem gatherOffenders (sheds : PoolSheds env view Inv) (slots : Nat) (spammers : List Address) :
    ∀ (offenders : List Address) (pending : Nat) (pool : TxPool), Inv pool →
    (offenders ++ spammers).Nodup →
      (∀ addr ∈ spammers, env.config.accountSlots.toNat < pool.pendingLen addr) →
      (spammers.Pairwise fun a b => pool.pendingLen b ≤ pool.pendingLen a) →
      (∀ a ∈ offenders, ∀ b ∈ spammers, pool.pendingLen b ≤ pool.pendingLen a) →
      Leads env pool offenders →
      let gathered := TxPool.gatherOffenders view slots spammers offenders pending pool
      Inv gathered.2.2 ∧ gathered.1.Nodup ∧ Leads env gathered.2.2 gathered.1 := by
  induction spammers with
  | nil =>
    intro offenders pending pool hh hd _ _ _ leads
    rw [List.append_nil] at hd
    exact ⟨hh, hd, leads⟩
  | cons offender spammers ih =>
    intro offenders pending pool hh hd long descending hb leads
    obtain ⟨least, descending⟩ := List.pairwise_cons.mp descending
    obtain ⟨distinctOffenders, -, hap⟩ := List.nodup_append.mp hd
    have new : ∀ addr ∈ offender :: spammers, addr ∉ offenders :=
      fun addr mem also => hap addr also addr mem rfl
    unfold TxPool.gatherOffenders
    split
    · cases found : offenders.getLast? with
      | none =>
        cases List.getLast?_eq_none_iff.mp found
        refine ih [offender] pending pool hh hd
          (fun addr mem => long addr (List.mem_cons_of_mem offender mem)) descending ?_ ?_
        · rintro a mem b hla
          rw [List.mem_singleton.mp mem]
          exact least b hla
        · rintro last mem
          cases (Option.some.inj mem : offender = last)
          refine ⟨long offender List.mem_cons_self, fun addr mem => ?_⟩
          rw [List.mem_singleton.mp mem]
      | some last =>
        have hm : last ∈ offenders := List.mem_of_getLast? found
        obtain ⟨kept, hl, bound, same⟩ := sheds.equalize slots
          (long offender List.mem_cons_self).le distinctOffenders hm pending pending hh
          (leads last found).2 (hb last hm offender List.mem_cons_self)
        -- the accounts still to be taken up are as long as before
        have hk : ∀ addr ∈ offender :: spammers, _ = pool.pendingLen addr :=
          fun addr mem => same addr (new addr mem)
        have reaches : ∀ addr ∈ offenders ++ [offender], pool.pendingLen offender ≤
            (TxPool.equalize view slots (pool.pendingLen offender) offenders last pending pending
              pool).2.pendingLen addr := by
          intro addr mem
          rcases List.mem_append.mp mem with mem | mem
          · exact bound.trans (hl addr mem)
          · rw [List.mem_singleton.mp mem]
            exact (hk offender List.mem_cons_self).ge
        refine ih _ _ _ kept (by rwa [List.append_assoc]) ?_ ?_ ?_ ?_
        · intro addr mem
          rw [hk addr (List.mem_cons_of_mem offender mem)]
          exact long addr (List.mem_cons_of_mem offender mem)
        · refine descending.imp_of_mem fun {a b} memA memB le => ?_
          rw [hk a (List.mem_cons_of_mem offender memA),
            hk b (List.mem_cons_of_mem offender memB)]
          exact le
        · intro a mem b hla
          rw [hk b (List.mem_cons_of_mem offender hla)]
          exact (least b hla).trans (reaches a mem)
        · intro final mem
          rw [List.getLast?_concat, Option.mem_def, Option.some.injEq] at mem
          subst mem
          rw [hk offender List.mem_cons_self]
          exact ⟨long offender List.mem_cons_self, reaches⟩
    · exact ⟨hh, distinctOffenders, leads⟩

theorem limitPending (sheds : PoolSheds env view Inv) (order : PoolOrder) (hh : Inv pool) :
    Inv (pool.limitPending env view order) := by
  unfold TxPool.limitPending
  dsimp only
  split
  · have hme := order.mem_pops pool.pendingLen (pool.spammers env)
    obtain ⟨kept, hd, leads⟩ := sheds.gatherOffenders env.config.globalSlots.toNat
      (order.pops pool.pendingLen (pool.spammers env)) [] pool.pendingCount pool hh
      (order.pops_nodup _ _)
      (fun addr mem => (Finset.mem_filter.mp ((hme addr).mp mem)).2.2)
      (order.pops_largest _ _) (by simp) (by simp [Leads])
    cases found : (TxPool.gatherOffenders view env.config.globalSlots.toNat
        (order.pops pool.pendingLen (pool.spammers env)) [] pool.pendingCount pool).1.getLast? with
    | none => exact kept
    | some last =>
      obtain ⟨long, hl⟩ := leads last found
      exact (sheds.equalize env.config.globalSlots.toNat le_rfl hd
        (List.mem_of_getLast? found)
        _ _ kept hl long.le).1
  · exact hh

theorem dropQueued (sheds : PoolSheds env view Inv) (addresses : List Address) (drop : Nat)
    (hh : Inv pool) : Inv (dropQueued view addresses drop pool) := by
  induction addresses generalizing drop pool with
  | nil => exact hh
  | cons addr addresses ih =>
    unfold dropQueued
    dsimp only
    split
    · exact hh
    split
    · exact ih _ (foldl_keeps sheds.remove _ hh)
    · exact foldl_keeps sheds.remove _ hh

theorem limitQueue (sheds : PoolSheds env view Inv) (order : PoolOrder) (hh : Inv pool) :
    Inv (pool.limitQueue env view order) := by
  unfold TxPool.limitQueue
  dsimp only
  split
  · exact sheds.dropQueued _ _ hh
  · exact hh

end PoolSheds

namespace PoolStable

variable {env : PoolEnv} {view : View} {Fit : SignedTx → Prop} {Inv : TxPool → Prop}

variable {pool : TxPool}

theorem promoteExecutables (hs : PoolStable env view Fit Inv) (order : PoolOrder)
    (accounts : Option (List Address)) (hh : Inv pool) :
    Inv (pool.promoteExecutables env view order accounts) := by
  have promoted := foldl_keeps hs.promote (accounts.getD (order.range pool.queue.keys)) hh
  exact hs.limitQueue order (hs.limitPending order promoted)

theorem addTx (hs : PoolStable env view Fit Inv) (order : PoolOrder) {tx : SignedTx} (fit : Fit tx)
    (isLocal : Bool) (hh : Inv pool) : Inv (pool.addTx env view order tx isLocal).2 := by
  unfold TxPool.addTx
  cases added : pool.add env view tx isLocal with
  | error err => exact hh
  | ok next =>
    exact hs.promoteExecutables order _ (hs.add pool tx isLocal next fit hh added)

theorem addTxsLocked (hs : PoolStable env view Fit Inv) (order : PoolOrder)
    {txs : List SignedTx} (fit : ∀ tx ∈ txs, Fit tx) (isLocal : Bool) (hh : Inv pool) :
    Inv (pool.addTxsLocked env view order txs isLocal).2 := by
  have each : Inv (TxPool.addEach env view isLocal txs pool).2.2 := by
    induction txs generalizing pool with
    | nil => exact hh
    | cons tx txs ih =>
      unfold TxPool.addEach
      cases added : pool.add env view tx isLocal with
      | error err => exact ih (fun tx mem => fit tx (List.mem_cons_of_mem _ mem)) hh
      | ok next =>
        exact ih (fun tx mem => fit tx (List.mem_cons_of_mem _ mem))
          (hs.add pool tx isLocal next (fit tx List.mem_cons_self) hh added)
  unfold TxPool.addTxsLocked
  dsimp only
  split
  · exact each
  · exact hs.promoteExecutables order _ each

theorem reset (hs : PoolStable env view Fit Inv) (order : PoolOrder) {reinject : List SignedTx}
    (fit : ∀ tx ∈ reinject, Fit tx) (hh : Inv pool) :
    Inv (pool.reset env view order reinject) := by
  have ha := hs.addTxsLocked order fit false hh
  have demoted : Inv ((pool.addTxsLocked env view order reinject false).2.demoteUnexecutables view
      order) := foldl_keeps hs.demote _ ha
  exact hs.promoteExecutables order none (foldl_keeps hs.renew _ demoted)

/-- `Inv` outlives every operation. -/
theorem apply (hs : PoolStable env view Fit Inv) (order : PoolOrder) (op : PoolOp)
    (fit : ∀ tx ∈ op.submitted, Fit tx) (hh : Inv pool) :
    Inv (op.apply env view order pool) := by
  cases op with
  | addLocal tx => exact hs.addTx order (fit tx mem_cons_self) _ hh
  | addRemote tx => exact hs.addTx order (fit tx mem_cons_self) false hh
  | addLocals txs => exact hs.addTxsLocked order fit _ hh
  | addRemotes txs => exact hs.addTxsLocked order fit false hh
  | removeTx hash => exact hs.remove pool hash hh
  | promote accounts => exact hs.promoteExecutables order accounts hh
  | evict old => exact foldl_keeps (fun _ _ held => foldl_keeps hs.remove _ held) _ hh
  | reset reinject => exact hs.reset order fit hh

end PoolStable

/-- What operations bring a pool to, each with the ledger it finds and in its own orders. -/
def runPool (env : PoolEnv) (pool : TxPool) (ops : List (View × PoolOrder × PoolOp)) : TxPool :=
  ops.foldl (fun pool step => step.2.2.apply env step.1 step.2.1 pool) pool

theorem runPool_keeps {env : PoolEnv} {Fit : SignedTx → Prop} {Inv : TxPool → Prop} {pool : TxPool}
    (ops : List (View × PoolOrder × PoolOp)) (hs : ∀ step ∈ ops, PoolStable env step.1 Fit Inv)
    (fit : ∀ step ∈ ops, ∀ tx ∈ step.2.2.submitted, Fit tx) (hh : Inv pool) :
    Inv (runPool env pool ops) := by
  induction ops generalizing pool with
  | nil => exact hh
  | cons step ops ih =>
    exact ih (fun later mem => hs later (mem_cons_of_mem step mem))
      (fun later mem => fit later (mem_cons_of_mem step mem))
      ((hs step mem_cons_self).apply step.2.1 step.2.2 (fit step mem_cons_self) hh)

end HNBChain.Audit.Source
