import HNBChain.Audit.Source.PoolSteps

/-!
# The transactions of each account

Each account has some transactions, at most one for a nonce: its `slots`. The pool holds them in the
account's pending list and in its queue list, and while an operation runs some are in neither.
`Filed` says that `all` lists exactly the transactions in the slots under their ids. Moving a
transaction between the lists leaves the slots as they are, so only what enters or leaves the pool
has to be looked at.
-/
namespace HNBChain.Audit.Spec

open Lib Source Multiset TxPool Pi KeyedList
open Lib.KeyedList (Splits)

/-! ## Slots -/

/-- The transactions of each account. -/
abbrev Slots := Address → Multiset SignedTx

/-- The slots that lists fill. -/
def book (lists : Store Address TxList) : Slots := fun addr => (listAt lists addr).items

theorem single_append (addr : Address) (first second : List SignedTx) :
    (single addr (↑(first ++ second) : Multiset SignedTx) : Slots) =
      single addr (first : Multiset SignedTx) + single addr (second : Multiset SignedTx) := by
  rw [← coe_add, single_add]

theorem single_cons (addr : Address) (tx : SignedTx) (txs : List SignedTx) :
    (single addr (↑(tx :: txs) : Multiset SignedTx) : Slots) =
      single addr (txs : Multiset SignedTx) + single addr {tx} :=
  (single_append addr [tx] txs).trans (add_comm _ _)

theorem mem_single {addr b : Address} {txs : Multiset SignedTx} {tx : SignedTx} :
    tx ∈ (single addr txs : Slots) b ↔ b = addr ∧ tx ∈ txs := by
  by_cases here : b = addr
  · subst here
    rw [single_eq_same]
    exact (and_iff_right rfl).symm
  · rw [single_eq_of_ne here]
    exact ⟨fun mem => absurd mem (notMem_zero tx), fun both => absurd both.1 here⟩

variable {lists : Store Address TxList} {Good : SignedTx → Prop}

/-- A list gives up a part of it. -/
theorem book_setList {addr : Address} {parts : List SignedTx × TxList}
    (hs : (listAt lists addr).Splits parts) :
    book lists = book (setList lists addr parts.2) + Pi.single addr
      (parts.1 : Multiset SignedTx) := by
  funext b
  rw [Pi.add_apply, book, book, listAt_setList]
  by_cases here : b = addr
  · subst here
    rw [if_pos rfl, Pi.single_eq_same, Multiset.coe_add, Multiset.coe_eq_coe]
    exact List.Perm.trans hs List.perm_append_comm
  · rw [if_neg here, Pi.single_eq_of_ne here, add_zero]

theorem book_insert_cap {addr : Address}
    {parts : List SignedTx × TxList} (hs : (listAt lists addr).Splits parts) :
    book lists = book (lists.insert addr parts.2) + single addr (parts.1 : Multiset SignedTx) := by
  have same : book (lists.insert addr parts.2) = book (setList lists addr parts.2) := by
    funext b
    rw [book, book, listAt_setList, listAt_insert]
  rw [same]
  exact book_setList hs

/-- A list takes a transaction of a free nonce. -/
theorem book_put {addr : Address} {tx : SignedTx}
    (free : ∀ other ∈ (listAt lists addr).items, other.nonce ≠ tx.nonce) :
    book (lists.insert addr ((listAt lists addr).put tx)) = book lists + Pi.single addr {tx} := by
  funext b
  rw [Pi.add_apply, book, book, listAt_insert]
  by_cases here : b = addr
  · subst here
    rw [if_pos rfl, Pi.single_eq_same]
    rw [add_comm, Multiset.singleton_add, Multiset.cons_coe, Multiset.coe_eq_coe]
    exact KeyedList.put_perm free
  · rw [if_neg here, Pi.single_eq_of_ne here, add_zero]

/-- `all` lists the transactions in the slots, each in the slots of its sender under a nonce of its
own. -/
structure Filed (slots : Slots) (all : Store Bytes SignedTx) : Prop where
  home : ∀ addr, ∀ tx ∈ slots addr, tx.fromAddr = addr
  nonces : ∀ addr, ((slots addr).map SignedTx.nonce).Nodup
  all_iff : ∀ hash tx, find all hash = some tx ↔ tx.txid = hash ∧ tx ∈ slots tx.fromAddr

namespace Filed

variable {slots : Slots} {all : Store Bytes SignedTx} {addr : Address} {tx : SignedTx}

theorem known (hf : Filed slots all) (mem : tx ∈ slots addr) : find all tx.txid = some tx :=
  (hf.all_iff tx.txid tx).mpr ⟨rfl, (hf.home addr tx mem).symm ▸ mem⟩

/-- What is in one part of the slots has no nonce in common with the other part. -/
theorem apart {first second : Slots} (hf : Filed (first + second) all) {a b : SignedTx}
    (memA : a ∈ first addr) (memB : b ∈ second addr) : a.nonce ≠ b.nonce := by
  have hd := hf.nonces addr
  rw [Pi.add_apply, Multiset.map_add, Multiset.nodup_add] at hd
  intro same
  exact Multiset.disjoint_left.mp hd.2.2 (Multiset.mem_map_of_mem _ memA)
    (same ▸ Multiset.mem_map_of_mem _ memB)

theorem enter (hf : Filed slots all) (hu : find all tx.txid = none)
    (free : ∀ other ∈ slots tx.fromAddr, other.nonce ≠ tx.nonce) :
    Filed (slots + Pi.single tx.fromAddr {tx}) (all.insert tx.txid tx) where
  home b other mem := by
    rcases Multiset.mem_add.mp mem with mem | mem
    · exact hf.home b other mem
    · obtain ⟨rfl, one⟩ := mem_single.mp mem
      rw [Multiset.mem_singleton.mp one]
  nonces b := by
    by_cases here : b = tx.fromAddr
    · subst here
      rw [Pi.add_apply, Pi.single_eq_same, add_comm, Multiset.singleton_add, Multiset.map_cons,
        Multiset.nodup_cons]
      refine ⟨fun ht => ?_, hf.nonces tx.fromAddr⟩
      obtain ⟨other, mem, same⟩ := Multiset.mem_map.mp ht
      exact free other mem same
    · rw [Pi.add_apply, Pi.single_eq_of_ne here, add_zero]
      exact hf.nonces b
  all_iff hash other := by
    rw [find_insert, Pi.add_apply, Multiset.mem_add, mem_single, Multiset.mem_singleton]
    by_cases this : hash = tx.txid
    · subst this
      rw [if_pos rfl]
      constructor
      · rintro ⟨rfl⟩
        exact ⟨rfl, .inr ⟨rfl, rfl⟩⟩
      · rintro ⟨same, mem | ⟨-, rfl⟩⟩
        · have ht := hf.known mem
          rw [same, hu] at ht
          cases ht
        · rfl
    · rw [if_neg this, hf.all_iff]
      refine and_congr_right fun same => (or_iff_left ?_).symm
      rintro ⟨-, rfl⟩
      exact this same.symm

theorem leave (hf : Filed (slots + Pi.single addr {tx}) all) :
    Filed slots (all.erase tx.txid) where
  home b other mem := hf.home b other (Multiset.mem_add.mpr (.inl mem))
  nonces b := by
    have hd := hf.nonces b
    rw [Pi.add_apply, Multiset.map_add, Multiset.nodup_add] at hd
    exact hd.1
  all_iff hash other := by
    have one : tx ∈ (Pi.single addr {tx} : Slots) addr :=
      mem_single.mpr ⟨rfl, Multiset.mem_singleton_self tx⟩
    have here : tx ∈ (slots + Pi.single addr {tx} : Slots) addr := Multiset.mem_add.mpr (.inr one)
    have sender : tx.fromAddr = addr := hf.home addr tx here
    rw [find_erase]
    by_cases this : hash = tx.txid
    · subst this
      rw [if_pos rfl]
      refine ⟨nofun, fun ⟨same, mem⟩ => ?_⟩
      -- another one of this id would be the removed one, whose nonce is then taken twice
      have hst : other ∈ (slots + Pi.single addr {tx} : Slots) other.fromAddr :=
        Multiset.mem_add.mpr (.inl mem)
      have also : find all other.txid = some other := hf.known hst
      rw [same, hf.known here] at also
      cases also
      rw [sender] at mem
      exact absurd rfl (hf.apart mem one)
    · rw [if_neg this, hf.all_iff, Pi.add_apply, Multiset.mem_add, mem_single,
        Multiset.mem_singleton]
      refine and_congr_right fun same => or_iff_left ?_
      rintro ⟨-, rfl⟩
      exact this same.symm

theorem leave_all (addr : Address) {txs : List SignedTx}
    (hf : Filed (slots + single addr (txs : Multiset SignedTx)) all) :
    Filed slots (txs.foldl (fun all tx => all.erase tx.txid) all) := by
  induction txs generalizing all with
  | nil => simpa using hf
  | cons tx txs ih =>
    rw [single_cons, ← add_assoc] at hf
    exact ih hf.leave

end Filed

/-! ## One transaction -/

section Moves

variable {pool : TxPool} {addr : Address} {tx : SignedTx}

variable {rest : Slots} {txs : List SignedTx}

/-- A transaction that is in neither list goes to the pending one. -/
theorem promoteTx_filed (hf : Filed (book pool.pending + (rest + single addr {tx})) pool.all) :
    pool.promoteTx addr tx = { pool with
          pending := pool.pending.insert addr ((listAt pool.pending addr).put tx)
          pendingState := pool.pendingState.insert addr (tx.nonceValue + 1) } ∧
      Filed (book (pool.promoteTx addr tx).pending + rest) (pool.promoteTx addr tx).all := by
  have one : tx ∈ (rest + single addr {tx} : Slots) addr :=
    mem_add.mpr (.inr (mem_single.mpr ⟨rfl, mem_singleton_self tx⟩))
  have free : ∀ other ∈ (listAt pool.pending addr).items, other.nonce ≠ tx.nonce :=
    fun other mem => hf.apart (mem_coe.mpr mem) one
  have hk : find pool.all tx.txid = some tx := hf.known (mem_add.mpr (.inr one))
  have hm : pool.promoteTx addr tx = { pool with
      pending := pool.pending.insert addr ((listAt pool.pending addr).put tx)
      pendingState := pool.pendingState.insert addr (tx.nonceValue + 1) } := by
    unfold promoteTx
    rw [if_neg (by rw [overlaps_eq_false.mpr free]; decide), note_known]
    · rfl
    · exact hk
  refine ⟨hm, ?_⟩
  rw [hm]
  rw [book_put free, add_assoc, add_comm _ rest]
  exact hf

/-- A transaction that is in neither list goes to the queue. -/
theorem postpone_filed (hf : Filed (book pool.queue + (rest + single addr {tx})) pool.all) :
    pool.postpone tx =
        { pool with queue := pool.queue.insert addr ((listAt pool.queue addr).put tx) } ∧
      Filed (book (pool.postpone tx).queue + rest) (pool.postpone tx).all := by
  have one : tx ∈ (rest + single addr {tx} : Slots) addr :=
    mem_add.mpr (.inr (mem_single.mpr ⟨rfl, mem_singleton_self tx⟩))
  have sender : tx.fromAddr = addr := hf.home addr tx (mem_add.mpr (.inr one))
  have free : ∀ other ∈ (listAt pool.queue addr).items, other.nonce ≠ tx.nonce :=
    fun other mem => hf.apart (mem_coe.mpr mem) one
  have hk : find pool.all tx.txid = some tx := hf.known (mem_add.mpr (.inr one))
  have hm : pool.postpone tx =
      { pool with queue := pool.queue.insert addr ((listAt pool.queue addr).put tx) } := by
    unfold postpone enqueueTx
    rw [sender, if_neg (by rw [overlaps_eq_false.mpr free]; decide)]
    exact note_known hk
  refine ⟨hm, ?_⟩
  rw [hm]
  rw [book_put free, add_assoc, add_comm _ rest]
  exact hf

variable (pool : TxPool)

theorem promoteTxs_filed
    (hf : Filed (book pool.pending + (rest + single addr (txs : Multiset SignedTx))) pool.all) :
    Filed (book (txs.foldl (promoteTx addr) pool).pending + rest)
      (txs.foldl (promoteTx addr) pool).all := by
  induction txs generalizing pool with
  | nil => simpa using hf
  | cons tx txs ih =>
    rw [single_cons, ← add_assoc rest] at hf
    exact ih _ (promoteTx_filed hf).2

theorem promoteTxs_all
    (hf : Filed (book pool.pending + (rest + single addr (txs : Multiset SignedTx))) pool.all) :
    (txs.foldl (promoteTx addr) pool).all = pool.all := by
  induction txs generalizing pool with
  | nil => rfl
  | cons tx txs ih =>
    rw [single_cons, ← add_assoc rest] at hf
    obtain ⟨hm, next⟩ := promoteTx_filed hf
    exact (ih _ next).trans (by rw [hm])

theorem postpones_all
    (hf : Filed (book pool.queue + (rest + single addr (txs : Multiset SignedTx))) pool.all) :
    (txs.foldl postpone pool).all = pool.all := by
  induction txs generalizing pool with
  | nil => rfl
  | cons tx txs ih =>
    rw [single_cons, ← add_assoc rest] at hf
    obtain ⟨hm, next⟩ := postpone_filed hf
    exact (ih _ next).trans (by rw [hm])

theorem postpones_filed
    (hf : Filed (book pool.queue + (rest + single addr (txs : Multiset SignedTx))) pool.all) :
    Filed (book (txs.foldl postpone pool).queue + rest) (txs.foldl postpone pool).all := by
  induction txs generalizing pool with
  | nil => simpa using hf
  | cons tx txs ih =>
    rw [single_cons, ← add_assoc rest] at hf
    exact ih _ (postpone_filed hf).2

end Moves

/-! ## One operation -/

/-- `all` lists what is pending and what is queued. -/
def Consistent (pool : TxPool) : Prop := Filed (book pool.pending + book pool.queue) pool.all

section Operations

variable {pool : TxPool} (view : View) (addr : Address)

theorem lowerNonce_consistent (nonce : UInt64)
    (hf : Consistent pool) : Consistent (pool.lowerNonce view addr nonce) := by
  unfold lowerNonce
  split <;> exact hf

variable {old : List SignedTx} {tx : SignedTx}

/-- Some queued transactions of an account are dropped, some are about to go to the pending list,
and some more are about to be dropped. -/
theorem filed_promote {addr : Address} {ready dropped : List SignedTx} {left : TxList}
    (hf : Consistent pool)
    (hs : (listAt pool.queue addr).Splits (old ++ (ready ++ dropped), left)) :
    Filed (book pool.pending + (book (setList pool.queue addr left) +
      single addr (dropped : Multiset SignedTx) + single addr (ready : Multiset SignedTx)))
        (pool.forget old).all := by
  unfold Consistent at hf
  rw [book_setList hs, single_append, single_append] at hf
  refine Filed.leave_all addr ?_
  convert hf using 1
  abel

theorem consistent_promote {addr : Address} {ready dropped : List SignedTx} {left : TxList}
    (hf : Consistent pool)
    (hs : (listAt pool.queue addr).Splits (old ++ (ready ++ dropped), left)) :
    Consistent { (ready.foldl (promoteTx addr) (pool.forget old)).forget dropped with
      queue := setList pool.queue addr left } := by
  have hm := promoteTxs_filed (pool.forget old) (filed_promote hf hs)
  rw [← add_assoc] at hm
  exact hm.leave_all addr

theorem promoteAccount_consistent (env : PoolEnv) (view : View) (addr : Address)
    (hf : Consistent pool) : Consistent (pool.promoteAccount env view addr) := by
  obtain ⟨old, ready, dropped, left, hs, -, -, -, hr⟩ :=
    promoteAccount_spec env view pool addr
  rw [hr]
  exact consistent_promote hf hs

/-- Some pending transactions of an account are dropped, some leave the pending list. -/
theorem filed_demote {addr : Address} {moved : List SignedTx} {left : TxList}
    (hf : Consistent pool) (hs : (listAt pool.pending addr).Splits (old ++ moved, left)) :
    Filed (book pool.queue + (book (setList pool.pending addr left) +
      single addr (moved : Multiset SignedTx))) (pool.forget old).all := by
  unfold Consistent at hf
  rw [book_setList hs, single_append] at hf
  refine Filed.leave_all addr ?_
  convert hf using 1
  abel

theorem demoteAccount_consistent (hf : Consistent pool) :
    Consistent (pool.demoteAccount view addr) := by
  obtain ⟨old, moved, left, hs, -, -, -, hr⟩ := demoteAccount_spec view pool addr
  have hq := postpones_filed (pool.forget old) (filed_demote hf hs)
  rw [add_comm] at hq
  rw [hr]
  exact hq

theorem picks_nonce (tx other : SignedTx) :
    decide (other.nonceValue = tx.nonceValue) = true ↔ other.nonce = tx.nonce := by
  rw [decide_eq_true_iff, SignedTx.nonce, SignedTx.nonce, UInt64.toNat_inj]

theorem remove_splits {list : TxList} (mem : tx ∈ list.items) :
    list.Splits ([tx], list.remove tx) := by
  have parts := partition_splits (fun other => decide (other.nonceValue = tx.nonceValue)) list
  rw [partition, filter_key mem (picks_nonce tx)] at parts
  exact parts

theorem removeStrict_splits {list : TxList} (mem : tx ∈ list.items) :
    list.Splits ([tx] ++ (list.removeStrict tx).1, (list.removeStrict tx).2) :=
  (remove_splits mem).trans (partition_splits _ _)

/-- The pool without a pending transaction: those above it are queued again. -/
def withoutPending (pool : TxPool) (tx : SignedTx) : TxPool :=
  { pool.forget [tx] with
    pending := setList pool.pending tx.fromAddr
      ((listAt pool.pending tx.fromAddr).removeStrict tx).2 }

theorem removeTx_pending (hf : Consistent pool)
    (mem : tx ∈ (listAt pool.pending tx.fromAddr).items) : pool.removeTx view tx.txid =
      (((listAt pool.pending tx.fromAddr).removeStrict tx).1.foldl postpone
        (withoutPending pool tx)).lowerNonce view tx.fromAddr tx.nonceValue := by
  have hk : find pool.all tx.txid = some tx :=
    hf.known (mem_add.mpr (.inl (mem_coe.mpr mem)))
  have ht : (listAt pool.pending tx.fromAddr).overlaps tx = true :=
    get_isSome.mpr ⟨tx, mem, rfl⟩
  unfold removeTx
  rw [hk]
  dsimp only
  rw [if_pos ht]
  rfl

theorem removeTx_queued (hf : Consistent pool) (mem : tx ∈ (listAt pool.queue tx.fromAddr).items) :
    pool.removeTx view tx.txid = { pool.forget [tx] with
      queue := setList pool.queue tx.fromAddr ((listAt pool.queue tx.fromAddr).remove tx) } := by
  have hk : find pool.all tx.txid = some tx :=
    hf.known (mem_add.mpr (.inr (mem_coe.mpr mem)))
  have free : (listAt pool.pending tx.fromAddr).overlaps tx = false :=
    overlaps_eq_false.mpr fun other pends =>
      hf.apart (mem_coe.mpr pends) (mem_coe.mpr mem)
  unfold removeTx
  rw [hk]
  dsimp only
  rw [if_neg (by rw [free]; decide)]
  rfl

/-- Removing finds nothing, a pending transaction or a queued one. -/
theorem removeTx_spec (hash : Bytes) (hf : Consistent pool) : pool.removeTx view hash = pool ∨
      (∃ tx, tx ∈ (listAt pool.pending tx.fromAddr).items ∧ pool.removeTx view hash =
        (((listAt pool.pending tx.fromAddr).removeStrict tx).1.foldl postpone
          (withoutPending pool tx)).lowerNonce view tx.fromAddr tx.nonceValue) ∨
      ∃ tx, tx ∈ (listAt pool.queue tx.fromAddr).items ∧
        pool.removeTx view hash = { pool.forget [tx] with
          queue := setList pool.queue tx.fromAddr
            ((listAt pool.queue tx.fromAddr).remove tx) } := by
  cases found : find pool.all hash with
  | none =>
    unfold removeTx
    rw [found]
    exact .inl rfl
  | some tx =>
    obtain ⟨rfl, mem⟩ := (hf.all_iff hash tx).mp found
    rcases mem_add.mp mem with pends | hq
    · exact .inr (.inl ⟨tx, mem_coe.mp pends, removeTx_pending view hf (mem_coe.mp pends)⟩)
    · exact .inr (.inr ⟨tx, mem_coe.mp hq, removeTx_queued view hf (mem_coe.mp hq)⟩)

theorem removeTx_consistent (hash : Bytes) (hf : Consistent pool) :
    Consistent (pool.removeTx view hash) := by
  rcases removeTx_spec view hash hf with same | ⟨tx, mem, hr⟩ | ⟨tx, mem, hr⟩
  · rwa [same]
  · rw [hr]
    refine lowerNonce_consistent view tx.fromAddr tx.nonceValue ?_
    have out := filed_demote hf (removeStrict_splits mem)
    have hm := postpones_filed (withoutPending pool tx) out
    unfold Consistent
    rw [postpones_pending, add_comm]
    exact hm
  · have hs : (listAt pool.queue tx.fromAddr).Splits
        ([tx] ++ ([] ++ []), (listAt pool.queue tx.fromAddr).remove tx) := remove_splits mem
    have kept := consistent_promote hf hs
    rw [hr]
    exact kept

theorem dropLast_consistent (hf : Consistent pool) : Consistent (pool.dropLast view addr) := by
  unfold dropLast
  cases found : find pool.pending addr with
  | none => exact hf
  | some list =>
    obtain ⟨hp, queue, -, all⟩ := shed_same view addr (list.cap (list.len - 1)).1
      { pool with pending := pool.pending.insert addr (list.cap (list.len - 1)).2 }
    have hs : (listAt pool.pending addr).Splits (list.cap (list.len - 1)) := by
      rw [listAt_of_find found]
      exact cap_splits _ list
    unfold Consistent at hf ⊢
    rw [hp, queue, all]
    rw [book_insert_cap hs, add_right_comm] at hf
    exact hf.leave_all addr

end Operations

theorem add_consistent {env : PoolEnv} {view : View} {pool next : TxPool} {tx : SignedTx}
    {isLocal : Bool} (hf : Consistent pool) (ha : pool.add env view tx isLocal = .ok next) :
    Consistent next := by
  obtain ⟨hu, -, rfl | ⟨freePending, freeQueue, locals, rfl⟩⟩ := add_ok ha
  · exact hf
  unfold Consistent
  rw [book_put freeQueue, ← add_assoc]
  refine hf.enter hu fun other mem => ?_
  rcases mem_add.mp mem with mem | mem
  · exact freePending other (mem_coe.mp mem)
  · exact freeQueue other (mem_coe.mp mem)

theorem consistent_stable (env : PoolEnv) (view : View) (Fit : SignedTx → Prop) :
    PoolStable env view Fit Consistent where
  add _ _ _ _ _ filed added := add_consistent filed added
  promote _ addr filed := promoteAccount_consistent env view addr filed
  dropLast _ addr filed _ := dropLast_consistent view addr filed
  remove _ hash filed := removeTx_consistent view hash filed
  demote _ addr filed := demoteAccount_consistent view addr filed
  renew pool addr filed := by
    obtain ⟨hp, queue, all⟩ := renewNonce_same pool addr
    unfold Consistent
    rw [hp, queue, all]
    exact filed

/-! ## What the pool's transactions have in common -/

/-- The pool is consistent, and its transactions are `Good`. -/
def Holds (Good : SignedTx → Prop) (pool : TxPool) : Prop :=
  Consistent pool ∧ ∀ hash tx, find pool.all hash = some tx → Good tx

theorem Holds.pending {pool : TxPool} (hh : Holds Good pool) {addr : Address}
    {tx : SignedTx} (mem : tx ∈ (listAt pool.pending addr).items) : Good tx :=
  hh.2 tx.txid tx (hh.1.known (mem_add.mpr (.inl (mem_coe.mpr mem))))

theorem Holds.queue {pool : TxPool} (hh : Holds Good pool) {addr : Address}
    {tx : SignedTx} (mem : tx ∈ (listAt pool.queue addr).items) : Good tx :=
  hh.2 tx.txid tx (hh.1.known (mem_add.mpr (.inr (mem_coe.mpr mem))))

/-- Forgetting brings nothing. -/
theorem find_forget (txs : List SignedTx) (pool : TxPool) {hash : Bytes} {tx : SignedTx}
    (hfo : find (pool.forget txs).all hash = some tx) : find pool.all hash = some tx := by
  induction txs generalizing pool with
  | nil => exact hfo
  | cons first txs ih =>
    have he : find (pool.all.erase first.txid) hash = some tx :=
      ih { pool with all := pool.all.erase first.txid } hfo
    rw [find_erase] at he
    split at he
    · cases he
    · exact he

theorem Holds.shrink {pool next : TxPool} (hh : Holds Good pool) (hf : Consistent next)
    (fewer : ∀ hash tx, find next.all hash = some tx → find pool.all hash = some tx) :
    Holds Good next :=
  ⟨hf, fun hash tx hfo => hh.2 hash tx (fewer hash tx hfo)⟩

/-- When every fit transaction that passes `validateTx` is good, all the pool's are. -/
theorem holds_stable {env : PoolEnv} {view : View} {Fit : SignedTx → Prop}
    (good : ∀ tx, Fit tx → validateTx env view tx = .ok () → Good tx) :
    PoolStable env view Fit (Holds Good) where
  add pool tx isLocal next fit hh added := by
    refine ⟨add_consistent hh.1 added, ?_⟩
    obtain ⟨-, hv, rfl | ⟨-, -, locals, rfl⟩⟩ := add_ok added
    · exact hh.2
    · intro hash other hfo
      rw [find_insert] at hfo
      split at hfo
      · cases hfo
        exact good _ fit hv
      · exact hh.2 hash other hfo
  promote pool addr hh := by
    obtain ⟨old, ready, dropped, left, hs, -, -, -, hr⟩ :=
      promoteAccount_spec env view pool addr
    refine hh.shrink (promoteAccount_consistent env view addr hh.1) fun hash tx hfo => ?_
    rw [hr] at hfo
    have kept := find_forget dropped (ready.foldl (promoteTx addr) (pool.forget old)) hfo
    rw [promoteTxs_all (pool.forget old) (filed_promote hh.1 hs)] at kept
    exact find_forget old pool kept
  dropLast pool addr hh _ := by
    refine hh.shrink (dropLast_consistent view addr hh.1) fun hash tx hfo => ?_
    unfold dropLast at hfo
    cases list : find pool.pending addr with
    | none => rwa [list] at hfo
    | some txs =>
      rw [list] at hfo
      rw [(shed_same view addr _ _).2.2.2] at hfo
      exact find_forget _ _ hfo
  remove pool hash hh := by
    refine hh.shrink (removeTx_consistent view hash hh.1) fun other gone hfo => ?_
    rcases removeTx_spec view hash hh.1 with same | ⟨tx, mem, hr⟩ | ⟨tx, mem, hr⟩
    · rwa [same] at hfo
    · rw [hr, (lowerNonce_same view _ _ _).2.2.1] at hfo
      have out := filed_demote hh.1 (removeStrict_splits mem)
      rw [postpones_all (withoutPending pool tx) out] at hfo
      exact find_forget [tx] pool hfo
    · rw [hr] at hfo
      exact find_forget [tx] pool hfo
  demote pool addr hh := by
    obtain ⟨old, moved, left, hs, -, -, -, hr⟩ := demoteAccount_spec view pool addr
    refine hh.shrink (demoteAccount_consistent view addr hh.1) fun hash tx hfo => ?_
    rw [hr] at hfo
    rw [postpones_all (pool.forget old) (filed_demote hh.1 hs)] at hfo
    exact find_forget old pool hfo
  renew pool addr hh := by
    obtain ⟨hp, queue, all⟩ := renewNonce_same pool addr
    refine ⟨(consistent_stable env view Fit).renew pool addr hh.1, ?_⟩
    rw [all]
    exact hh.2

theorem blank_consistent (config : TxPoolConfig) : Consistent (blank config) where
  home addr tx mem := by cases mem_add.mp mem with
    | inl mem => cases mem
    | inr mem => cases mem
  nonces addr := List.nodup_nil
  all_iff hash tx := by
    refine ⟨nofun, fun ⟨_, mem⟩ => ?_⟩
    cases mem_add.mp mem with
    | inl mem => cases mem
    | inr mem => cases mem

end HNBChain.Audit.Spec
