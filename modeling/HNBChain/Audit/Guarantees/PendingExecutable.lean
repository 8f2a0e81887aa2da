import HNBChain.Audit.Guarantees.PoolPartition

/-!
# Pending transactions can be executed

The nonces of an account's pending list are consecutive, the cached nonce is the one after them, and
they begin at or below the ledger's nonce; without pending transactions the cached nonce, if there
is one, is at or below the ledger's (`Lined`). That outlives every operation and every rise of the
ledger's nonces. Promotion keeps it because what it moves is at or above the ledger's nonce, at or
below the cached one and not pending already, so it is the cached one. A reset drops what is below
the ledger's nonce, and nothing puts it back.
-/
namespace HNBChain.Audit.Guarantees.PendingExecutable

open Lib Source Spec PoolPartition List TxPool

/-- A pending list and a cached nonce as the ledger's nonce has them. -/
def Lined (nonce : UInt64) (list : TxList) (cached : Option UInt64) : Prop :=
  ∃ first next, list.Spans first next ∧ first ≤ next ∧ first ≤ nonce.toNat ∧
    (first < next → ∃ c, cached = some c ∧ c.toNat = next) ∧
    (first = next → ∀ c, cached = some c → c.toNat ≤ nonce.toNat)

theorem Lined.mono {nonce later : UInt64} {list : TxList} {cached : Option UInt64}
    (lined : Lined nonce list cached) (le : nonce ≤ later) : Lined later list cached := by
  obtain ⟨first, next, hsa, order, low, full, bare⟩ := lined
  have rise : nonce.toNat ≤ later.toNat := UInt64.le_iff_toNat_le.mp le
  exact ⟨first, next, hsa, order, low.trans rise, full,
    fun same c hf => (bare same c hf).trans rise⟩

def InLine (view : View) (pool : TxPool) : Prop :=
  ∀ addr, Lined (view.nonce addr) (listAt pool.pending addr) (find pool.pendingState addr)

/-- The nonce after this one is a nonce. -/
def Small (tx : SignedTx) : Prop := tx.nonce + 1 < 2 ^ 64

variable {tx : SignedTx} {b addr : Address} {pool : TxPool} {view : View} {txs : List SignedTx}

theorem Small.toNat_succ (hs : Small tx) : (tx.nonceValue + 1).toNat = tx.nonce + 1 := by
  rw [UInt64.toNat_add]
  exact Nat.mod_eq_of_lt hs

theorem SameAt.lined {next : TxPool} (same : SameAt b pool next) {nonce : UInt64}
    (lined : Lined nonce (listAt pool.pending b) (find pool.pendingState b)) :
    Lined nonce (listAt next.pending b) (find next.pendingState b) := by
  rw [same.1, same.2.2]
  exact lined

/-- A step that touches one account keeps the others in line. -/
theorem inLine_of {next : TxPool} (addr : Address) (line : InLine view pool)
    (he : ∀ b, b ≠ addr → SameAt b pool next)
    (here : Lined (view.nonce addr) (listAt next.pending addr) (find next.pendingState addr)) :
    InLine view next := by
  intro b
  by_cases same : b = addr
  · exact same ▸ here
  · exact SameAt.lined (he b same) (line b)

/-! ## Promotion -/

/-- A run of transactions that begins at the end of the pending list makes it longer. -/
theorem promoteTxs_spans (pool : TxPool) {rest : Slots}
    (hfi : Filed (book pool.pending + (rest + Pi.single addr (txs : Multiset SignedTx))) pool.all)
    {first next : Nat} (hsa : (listAt pool.pending addr).Spans first next) (le : first ≤ next)
    (keys : txs.map SignedTx.nonce = range' next txs.length) (hs : ∀ tx ∈ txs, Small tx) :
    (listAt (txs.foldl (promoteTx addr) pool).pending addr).Spans first (next + txs.length) ∧
      (txs ≠ [] → ∃ c, find (txs.foldl (promoteTx addr) pool).pendingState addr = some c ∧
        c.toNat = next + txs.length) := by
  induction txs generalizing pool next with
  | nil => exact ⟨hsa, fun some => absurd rfl some⟩
  | cons tx txs ih =>
    rw [single_cons, ← add_assoc rest] at hfi
    rw [map_cons, length_cons, range'_succ, cons.injEq] at keys
    obtain ⟨hm, hfi⟩ := promoteTx_filed hfi
    have hl : (listAt (pool.promoteTx addr tx).pending addr).Spans first (next + 1) := by
      rw [hm]
      rw [listAt_insert, if_pos rfl]
      exact hsa.put le keys.1
    obtain ⟨hw, hc⟩ := ih _ hfi hl (le.trans (Nat.le_succ next)) keys.2
      fun later mem => hs later (mem_cons_of_mem tx mem)
    have count : next + 1 + txs.length = next + (tx :: txs).length := by
      rw [length_cons]
      omega
    rw [foldl_cons, ← count]
    refine ⟨hw, fun _ => ?_⟩
    by_cases last : txs = []
    · subst last
      refine ⟨tx.nonceValue + 1, ?_, ?_⟩
      · rw [foldl_nil, hm, find_insert, if_pos rfl]
      · rw [(hs tx mem_cons_self).toNat_succ, keys.1]
        rfl
    · exact hc last

/-- What is ready to be promoted begins at the cached nonce. -/
theorem ready_here (lined : Lined (view.nonce addr) (listAt pool.pending addr)
    (find pool.pendingState addr)) {n : Nat}
    (le : n ≤ (pool.getNonce view addr).toNat) (ha : (view.nonce addr).toNat ≤ n)
    (free : ∀ tx ∈ (listAt pool.pending addr).items, tx.nonce ≠ n) :
    ∃ first, (listAt pool.pending addr).Spans first n ∧ first ≤ n ∧
    first ≤ (view.nonce addr).toNat := by
  obtain ⟨first, next, hsa, order, low, full, bare⟩ := lined
  rcases order.lt_or_eq with lt | same
  · obtain ⟨c, hc, top⟩ := full lt
    rw [getNonce, hc, Option.getD_some, top] at le
    have ho : ¬(first ≤ n ∧ n < next) := by
      rintro hi
      obtain ⟨tx, mem, same⟩ := (hsa n).mpr hi
      exact free tx mem same
    have here : n = next := by omega
    subst here
    exact ⟨first, hsa, order, low⟩
  · have none := hsa.items_eq_nil same.ge
    refine ⟨n, KeyedList.spans_of_nil none n, le_rfl, ?_⟩
    cases hc : find pool.pendingState addr with
    | none => rwa [getNonce, hc, Option.getD_none] at le
    | some c =>
      rw [getNonce, hc, Option.getD_some] at le
      exact le.trans (bare same c hc)

theorem promoteAccount_inLine (env : PoolEnv) (view : View) (addr : Address)
    (hh : Holds Small pool) (line : InLine view pool) :
    InLine view (pool.promoteAccount env view addr) := by
  refine inLine_of addr line (fun b other => promoteAccount_sameAt env view pool other) ?_
  obtain ⟨old, ready, dropped, left, hsp, -, high, run, hr⟩ :=
    promoteAccount_spec env view pool addr
  have hfi := filed_promote hh.1 hsp
  have hs : ∀ tx ∈ ready, Small tx := by
    intro tx mem
    refine hh.queue (hsp.mem.mpr (.inl ?_))
    exact mem_append_right old (mem_append_left dropped mem)
  rw [hr]
  rcases run with ⟨none, -⟩ | ⟨n, le, some, keys, -⟩
  · subst none
    exact line addr
  · have hme : ∀ m, m ∈ ready.map SignedTx.nonce ↔ n ≤ m ∧ m < n + ready.length := by
      intro m
      rw [keys, mem_range'_1]
    have long : 0 < ready.length := length_pos_iff.mpr some
    obtain ⟨tx, mem, here⟩ := mem_map.mp ((hme n).mpr ⟨le_rfl, by omega⟩)
    have ha : (view.nonce addr).toNat ≤ n := by
      rw [← here]
      exact UInt64.le_iff_toNat_le.mp (high tx (mem_append_left _ mem))
    have free : ∀ other ∈ (listAt pool.pending addr).items, other.nonce ≠ n := by
      intro other pends
      rw [← here]
      refine hfi.apart (Multiset.mem_coe.mpr pends) (Multiset.mem_add.mpr (.inr ?_))
      exact mem_single.mpr ⟨rfl, Multiset.mem_coe.mpr mem⟩
    obtain ⟨first, hsa, order, low⟩ := ready_here (line addr) le ha free
    obtain ⟨hw, hc⟩ := promoteTxs_spans (pool.forget old) hfi hsa order keys hs
    exact ⟨first, n + ready.length, hw,
      by omega, low, fun _ => hc some, fun same => by omega⟩

/-! ## The other steps -/

theorem dropLast_inLine (view : View) (long : 0 < pool.pendingLen addr)
    (line : InLine view pool) : InLine view (pool.dropLast view addr) := by
  refine inLine_of addr line (fun b other => dropLast_sameAt view pool other) ?_
  obtain ⟨first, next, hsa, order, low, full, -⟩ := line addr
  have lt : first < next := by
    rw [TxPool.pendingLen, hsa.len] at long
    omega
  obtain ⟨c, hc, top⟩ := full lt
  obtain ⟨last, hd, key, hsh⟩ := hsa.cap_last lt
  have lowered : find (pool.dropLast view addr).pendingState addr = some last.nonceValue := by
    unfold TxPool.dropLast
    cases hf : find pool.pending addr with
    | none =>
      rw [TxPool.pendingLen, listAt_of_none hf] at long
      exact absurd long (Nat.lt_irrefl 0)
    | some list =>
      rw [listAt_of_find hf] at hd
      dsimp only
      rw [hd]
      have ha : last.nonceValue < c := by
        rw [UInt64.lt_iff_toNat_lt, top]
        have : last.nonceValue.toNat = next - 1 := key
        omega
      rw [List.foldl_cons, List.foldl_nil]
      exact find_lowerNonce hc ha
  rw [dropLast_pending, if_pos rfl, lowered]
  exact ⟨first, next - 1, hsh, by omega, low, fun _ => ⟨_, rfl, key⟩, fun same c' hf => by
    cases hf
    have : last.nonceValue.toNat = next - 1 := key
    omega⟩

/-- Without a transaction and those above it an interval ends below it. -/
theorem removeStrict_spans {list : TxList} (mem : tx ∈ list.items) {first next : Nat}
    (hsa : list.Spans first next) : (list.removeStrict tx).2.Spans first tx.nonce := by
  have hi := (hsa tx.nonce).mp ⟨tx, mem, rfl⟩
  have left : ∀ other : SignedTx, other ∈ (list.removeStrict tx).2.items ↔
      other ∈ list.items ∧ other.nonce < tx.nonce := by
    intro other
    simp only [TxList.removeStrict, TxList.remove, KeyedList.partition, List.mem_filter,
      SignedTx.nonce,
      ← UInt64.toNat_inj, UInt64.lt_iff_toNat_lt, Bool.not_eq_true',
      decide_eq_false_iff_not, and_assoc]
    exact and_congr_right fun _ => by omega
  intro n
  constructor
  · rintro ⟨other, hst, rfl⟩
    exact ⟨((hsa _).mp ⟨other, ((left other).mp hst).1, rfl⟩).1, ((left other).mp hst).2⟩
  · rintro ⟨low, high⟩
    obtain ⟨other, ht, rfl⟩ := (hsa n).mpr ⟨low, high.trans hi.2⟩
    exact ⟨other, (left other).mpr ⟨ht, high⟩, rfl⟩

theorem postpones_sameAt (hot : ∀ tx ∈ txs, b ≠ tx.fromAddr)
    (pool : TxPool) : SameAt b pool (txs.foldl postpone pool) :=
  foldl_sameAt (fun p tx mem => postpone_sameAt p (hot tx mem)) pool

theorem postpones_pendingState (txs : List SignedTx) (pool : TxPool) :
    (txs.foldl postpone pool).pendingState = pool.pendingState := by
  induction txs generalizing pool with
  | nil => rfl
  | cons tx txs ih =>
    rw [foldl_cons, ih]
    unfold postpone enqueueTx note
    dsimp only
    split_ifs <;> rfl

/-- Removing a pending transaction touches its sender's account only. -/
theorem withoutPending_sameAt (view : View) (hfi : Consistent pool)
    (mem : tx ∈ (listAt pool.pending tx.fromAddr).items) (other : b ≠ tx.fromAddr) :
    SameAt b pool ((((listAt pool.pending tx.fromAddr).removeStrict tx).1.foldl postpone
      (withoutPending pool tx)).lowerNonce view tx.fromAddr tx.nonceValue) := by
  have home : ∀ later ∈ ((listAt pool.pending tx.fromAddr).removeStrict tx).1,
      later.fromAddr = tx.fromAddr := fun later gone =>
    hfi.home _ later (Multiset.mem_add.mpr (.inl (Multiset.mem_coe.mpr
      ((removeStrict_splits mem).mem.mpr (.inl (mem_append_right [tx] gone))))))
  have cut : SameAt b pool (withoutPending pool tx) :=
    ⟨by rw [withoutPending, listAt_setList, if_neg other], rfl, rfl⟩
  have hm : SameAt b (withoutPending pool tx) _ :=
    postpones_sameAt (fun later gone => (home later gone).symm ▸ other) _
  exact (cut.trans hm).trans (lowerNonce_sameAt view _ tx.nonceValue other)

theorem removeTx_inLine (view : View) (hash : Bytes) (hfi : Consistent pool)
    (line : InLine view pool) : InLine view (pool.removeTx view hash) := by
  rcases removeTx_spec view hash hfi with same | ⟨tx, mem, hr⟩ | ⟨tx, mem, hr⟩
  · rwa [same]
  · obtain ⟨first, next, hsa, order, low, full, -⟩ := line tx.fromAddr
    have hi := (hsa tx.nonce).mp ⟨tx, mem, rfl⟩
    obtain ⟨c, hc, top⟩ := full (by omega)
    have hb : tx.nonceValue < c := by
      rw [UInt64.lt_iff_toNat_lt, top]
      exact hi.2
    rw [hr]
    refine inLine_of tx.fromAddr line (fun b other => withoutPending_sameAt view hfi mem other) ?_
    rw [find_lowerNonce (by rw [postpones_pendingState]; exact hc) hb,
      (lowerNonce_same view _ _ _).1, postpones_pending, withoutPending, listAt_setList, if_pos rfl]
    refine ⟨first, tx.nonce, removeStrict_spans mem hsa, hi.1, low,
      fun _ => ⟨_, rfl, rfl⟩, ?_⟩
    rintro same c' ⟨rfl⟩
    exact (same ▸ low : tx.nonce ≤ (view.nonce tx.fromAddr).toNat)
  · rw [hr]
    exact line

/-- A list in line has the ledger's nonce unless all of it is below, so nothing is queued again. -/
theorem demoteAccount_line (view : View) (addr : Address) (line : InLine view pool) :
    ∃ (old : List SignedTx) (left : TxList), (listAt pool.pending addr).Splits (old, left) ∧
      (∀ tx ∈ old, tx.nonceValue < view.nonce addr) ∧
      (∀ tx ∈ left.items, view.nonce addr ≤ tx.nonceValue) ∧
      pool.demoteAccount view addr = { pool.forget old with
      pending := setList pool.pending addr left } := by
  obtain ⟨old, moved, left, hsp, lower, high, gap, hr⟩ := demoteAccount_spec view pool addr
  obtain ⟨first, next, hsa, -, low, -⟩ := line addr
  have none : moved = [] := by
    by_contra some
    obtain ⟨tx, mem⟩ := exists_mem_of_ne_nil moved some
    have ht : tx ∈ (listAt pool.pending addr).items :=
      hsp.mem.mpr (.inl (mem_append_right old mem))
    have le := UInt64.le_iff_toNat_le.mp (high tx (mem_append_left _ mem))
    have hi := (hsa tx.nonce).mp ⟨tx, ht, rfl⟩
    obtain ⟨other, also, here⟩ := (hsa (view.nonce addr).toNat).mpr
      ⟨low, lt_of_le_of_lt le hi.2⟩
    refine gap some other (mem_append.mpr ?_) here
    rcases hsp.mem.mp also with gone | hst
    · refine .inl ((mem_append.mp gone).resolve_left fun gone => ?_)
      exact absurd (lower other gone) (UInt64.not_lt.mpr (UInt64.le_iff_toNat_le.mpr here.ge))
    · exact .inr hst
  subst none
  rw [append_nil] at hsp
  exact ⟨old, left, hsp, lower, high, hr⟩

theorem demoteAccount_sameAt (view : View) (line : InLine view pool)
    (other : b ≠ addr) : SameAt b pool (pool.demoteAccount view addr) := by
  obtain ⟨old, left, -, -, -, hr⟩ := demoteAccount_line view addr line
  rw [hr]
  exact ⟨by rw [listAt_setList, if_neg other], rfl, rfl⟩

theorem demoteAccount_inLine (view : View) (addr : Address) (line : InLine view pool) :
    InLine view (pool.demoteAccount view addr) := by
  refine inLine_of addr line (fun b other => demoteAccount_sameAt view line other) ?_
  obtain ⟨old, left, hsp, lower, high, hr⟩ := demoteAccount_line view addr line
  obtain ⟨first, next, hsa, order, low, full, bare⟩ := line addr
  have rest : left.Spans (view.nonce addr).toNat (max next (view.nonce addr).toNat) := by
    intro n
    constructor
    · rintro ⟨tx, mem, rfl⟩
      have hi := (hsa tx.nonce).mp ⟨tx, hsp.mem.mpr (.inr mem), rfl⟩
      exact ⟨UInt64.le_iff_toNat_le.mp (high tx mem), lt_max_of_lt_left hi.2⟩
    · rintro ⟨ha, hb⟩
      obtain ⟨tx, mem, rfl⟩ := (hsa n).mpr ⟨low.trans ha, by omega⟩
      refine ⟨tx, (hsp.mem.mp mem).resolve_left fun gone => ?_, rfl⟩
      exact absurd (lower tx gone) (UInt64.not_lt.mpr (UInt64.le_iff_toNat_le.mpr ha))
  rw [hr]
  rw [listAt_setList, if_pos rfl]
  refine ⟨_, _, rest, le_max_right _ _, le_rfl, fun lt => ?_, fun same c hf => ?_⟩
  · obtain ⟨c, hf, top⟩ := full (by omega)
    exact ⟨c, hf, by omega⟩
  · rcases order.lt_or_eq with lt | eq
    · obtain ⟨c', found', top⟩ := full lt
      cases hf.symm.trans found'
      omega
    · exact bare eq c hf

theorem renewNonce_inLine (view : View) (addr : Address) (hh : Holds Small pool)
    (line : InLine view pool) : InLine view (pool.renewNonce addr) := by
  refine inLine_of addr line (fun b other => renewNonce_sameAt pool other) ?_
  have same := line addr
  unfold renewNonce
  cases found : (listAt pool.pending addr).items.getLast? with
  | none => exact same
  | some tx =>
    have mem : tx ∈ (listAt pool.pending addr).items := mem_of_getLast? found
    obtain ⟨first, next, hsa, order, low, full, -⟩ := same
    have hi := (hsa tx.nonce).mp ⟨tx, mem, rfl⟩
    have last : tx.nonce + 1 = next := hsa.getLast found
    refine ⟨first, next, hsa, order, low, fun _ => ?_, fun same => by omega⟩
    refine ⟨tx.nonceValue + 1, ?_, ?_⟩
    · dsimp only
      rw [setNonce, find_insert, if_pos rfl]
    · rw [Small.toNat_succ (hh.pending mem), last]

theorem small_stable (env : PoolEnv) (view : View) : PoolStable env view Small (Holds Small) :=
  holds_stable fun _ hs _ => hs

theorem inLine_stable (env : PoolEnv) (view : View) :
    PoolStable env view Small fun pool => Holds Small pool ∧ InLine view pool where
  add pool tx isLocal next fit inv added := by
    refine ⟨(small_stable env view).add pool tx isLocal next fit inv.1 added, ?_⟩
    obtain ⟨-, -, rfl | ⟨-, -, locals, rfl⟩⟩ := add_ok added
    · exact inv.2
    · exact inv.2
  promote pool addr inv :=
    ⟨(small_stable env view).promote pool addr inv.1,
      promoteAccount_inLine env view addr inv.1 inv.2⟩
  dropLast pool addr inv long :=
    ⟨(small_stable env view).dropLast pool addr inv.1 long,
      dropLast_inLine view (Nat.zero_lt_of_lt long) inv.2⟩
  remove pool hash inv :=
    ⟨(small_stable env view).remove pool hash inv.1, removeTx_inLine view hash inv.1.1 inv.2⟩
  demote pool addr inv :=
    ⟨(small_stable env view).demote pool addr inv.1, demoteAccount_inLine view addr inv.2⟩
  renew pool addr inv :=
    ⟨(small_stable env view).renew pool addr inv.1, renewNonce_inLine view addr inv.1 inv.2⟩

/-! ## Nothing below the ledger's nonce -/

/-- No pending transaction of the account is below the ledger's nonce. -/
def FreshAt (view : View) (pool : TxPool) (addr : Address) : Prop :=
  ∀ tx ∈ (listAt pool.pending addr).items, view.nonce addr ≤ tx.nonceValue

theorem mem_promoteTxs (mem : tx ∈ (listAt (txs.foldl (promoteTx addr) pool).pending addr).items) :
    tx ∈ (listAt pool.pending addr).items ∨ tx ∈ txs := by
  induction txs generalizing pool with
  | nil => exact .inl mem
  | cons first txs ih =>
    rcases ih mem with mem | mem
    · unfold promoteTx note at mem
      dsimp only at mem
      split_ifs at mem
      · exact .inl mem
      all_goals
        rw [setNonce, listAt_insert, if_pos rfl] at mem
        rcases KeyedList.mem_put.mp mem with rfl | ⟨mem, -⟩
        · exact .inr mem_cons_self
        · exact .inl mem
    · exact .inr (mem_cons_of_mem first mem)

/-- A step that touches one account, and gives it no pending transaction below the ledger's
nonce. -/
theorem fresh_of {next : TxPool} (addr : Address)
    (hfr : ∀ b, FreshAt view pool b) (he : ∀ b, b ≠ addr → SameAt b pool next)
    (here : FreshAt view next addr) : ∀ b, FreshAt view next b := by
  intro b
  by_cases same : b = addr
  · exact same ▸ here
  · unfold FreshAt
    rw [(he b same).1]
    exact hfr b

/-- The pool is in line, and nothing pending is below the ledger's nonce. -/
def Executable (view : View) (pool : TxPool) : Prop :=
  (Holds Small pool ∧ InLine view pool) ∧ ∀ addr, FreshAt view pool addr

theorem executable_stable (env : PoolEnv) (view : View) :
    PoolStable env view Small (Executable view) where
  add pool tx isLocal next fit inv added := by
    refine ⟨(inLine_stable env view).add pool tx isLocal next fit inv.1 added, ?_⟩
    obtain ⟨-, -, rfl | ⟨-, -, locals, rfl⟩⟩ := add_ok added
    · exact inv.2
    · exact inv.2
  promote pool addr inv := by
    refine ⟨(inLine_stable env view).promote pool addr inv.1, fresh_of addr inv.2
      (fun b other => promoteAccount_sameAt env view pool other) fun tx mem => ?_⟩
    obtain ⟨old, ready, dropped, left, -, -, high, -, hr⟩ :=
      promoteAccount_spec env view pool addr
    rw [hr] at mem
    rcases mem_promoteTxs mem with mem | mem
    · exact inv.2 addr tx mem
    · exact high tx (mem_append_left _ mem)
  dropLast pool addr inv long := by
    refine ⟨(inLine_stable env view).dropLast pool addr inv.1 long, fresh_of addr inv.2
      (fun b other => dropLast_sameAt view pool other) fun tx mem => inv.2 addr tx ?_⟩
    rw [dropLast_pending, if_pos rfl] at mem
    exact (KeyedList.cap_splits _ _).mem.mpr (.inr mem)
  remove pool hash inv := by
    refine ⟨(inLine_stable env view).remove pool hash inv.1, fun addr tx mem => inv.2 addr tx ?_⟩
    rcases removeTx_spec view hash inv.1.1.1 with same | ⟨gone, here, hr⟩ | ⟨gone, here, hr⟩
    · rwa [same] at mem
    · rw [hr, (lowerNonce_same view _ _ _).1, postpones_pending, withoutPending,
        listAt_setList] at mem
      split at mem
      next same => exact same ▸ (removeStrict_splits here).mem.mpr (.inr mem)
      · exact mem
    · rw [hr] at mem
      exact mem
  demote pool addr inv := by
    refine ⟨(inLine_stable env view).demote pool addr inv.1, fresh_of addr inv.2
      (fun b other => demoteAccount_sameAt view inv.1.2 other) ?_⟩
    obtain ⟨old, left, -, -, high, hr⟩ := demoteAccount_line view addr inv.1.2
    unfold FreshAt
    rw [hr]
    rw [listAt_setList, if_pos rfl]
    exact high
  renew pool addr inv := by
    refine ⟨(inLine_stable env view).renew pool addr inv.1, ?_⟩
    unfold FreshAt
    rw [(renewNonce_same pool addr).1]
    exact inv.2

/-- Demoting the accounts of a list leaves each of them fresh. -/
theorem demotes_executable (env : PoolEnv) (view : View) (accounts : List Address)
    (inv : Holds Small pool ∧ InLine view pool)
    (hot : ∀ addr ∉ accounts, FreshAt view pool addr) :
    Executable view (accounts.foldl (demoteAccount view) pool) := by
  induction accounts generalizing pool with
  | nil => exact ⟨inv, fun addr => hot addr not_mem_nil⟩
  | cons first accounts ih =>
    refine ih ((inLine_stable env view).demote pool first inv) fun addr out => ?_
    by_cases here : addr = first
    · subst here
      obtain ⟨old, left, -, -, high, hr⟩ := demoteAccount_line view addr inv.2
      unfold FreshAt
      rw [hr]
      rw [listAt_setList, if_pos rfl]
      exact high
    · unfold FreshAt
      rw [(demoteAccount_sameAt view inv.2 here).1]
      refine hot addr fun mem => ?_
      rcases mem_cons.mp mem with same | mem
      · exact here same
      · exact out mem

theorem notMem_keys {lists : Store Address TxList} (out : addr ∉ lists.keys) :
    listAt lists addr = .empty := by
  refine listAt_of_none ?_
  rw [Finmap.mem_keys] at out
  exact Finmap.lookup_eq_none.mpr out

theorem demoteUnexecutables_executable (env : PoolEnv) (view : View) (order : PoolOrder)
    (inv : Holds Small pool ∧ InLine view pool) :
    Executable view (pool.demoteUnexecutables view order) := by
  refine demotes_executable env view _ inv fun addr out tx mem => ?_
  rw [order.mem_range] at out
  rw [notMem_keys out] at mem
  cases mem

theorem reset_executable (env : PoolEnv) (view : View) (order : PoolOrder)
    {reinject : List SignedTx}
    (hs : ∀ tx ∈ reinject, Small tx) (inv : Holds Small pool ∧ InLine view pool) :
    Executable view (pool.reset env view order reinject) := by
  have had := (inLine_stable env view).addTxsLocked order hs false inv
  have demoted := demoteUnexecutables_executable env view order had
  exact (executable_stable env view).promoteExecutables order none
    (foldl_keeps (executable_stable env view).renew _ demoted)

/-! ## The guarantee -/

/-- The ledger's nonces never decrease from one operation to the next. -/
def Rising (ops : List (View × PoolOrder × PoolOp)) : Prop :=
  ops.Pairwise fun earlier later => ∀ addr, earlier.1.nonce addr ≤ later.1.nonce addr

theorem InLine.rise {later : View} (line : InLine view pool)
    (le : ∀ addr, view.nonce addr ≤ later.nonce addr) : InLine later pool :=
  fun addr => (line addr).mono (le addr)

theorem Executable.congr {other : View} (same : view.nonce = other.nonce) :
    Executable view = Executable other := by
  unfold Executable InLine FreshAt
  rw [same]

theorem blank_inLine (config : TxPoolConfig) (view : View) :
    Holds Small (blank config) ∧ InLine view (blank config) := by
  refine ⟨⟨blank_consistent config, fun hash tx hf => by cases hf⟩, fun addr => ?_⟩
  exact ⟨0, 0, KeyedList.spans_of_nil rfl 0, le_rfl, Nat.zero_le _, fun lt => by omega,
    fun _ c hf => by cases hf⟩

/-- A run keeps a pool in line, as a ledger not behind the last one has it. -/
theorem runPool_inLine (env : PoolEnv) {ops : List (View × PoolOrder × PoolOp)}
    (rising : Rising ops)
    (hs : ∀ step ∈ ops, ∀ tx ∈ step.2.2.submitted, Small tx) (first : View) {final : View}
    (ha : ∀ step ∈ ops, ∀ addr, first.nonce addr ≤ step.1.nonce addr)
    (hb : ∀ step ∈ ops, ∀ addr, step.1.nonce addr ≤ final.nonce addr)
    (le : ∀ addr, first.nonce addr ≤ final.nonce addr)
    (inv : Holds Small pool ∧ InLine first pool) :
    Holds Small (runPool env pool ops) ∧ InLine final (runPool env pool ops) := by
  induction ops generalizing pool first with
  | nil => exact ⟨inv.1, inv.2.rise le⟩
  | cons step ops ih =>
    obtain ⟨rise, rising⟩ := pairwise_cons.mp rising
    have hm := (inLine_stable env step.1).apply step.2.1 step.2.2 (hs step mem_cons_self)
      ⟨inv.1, inv.2.rise (ha step mem_cons_self)⟩
    exact ih rising (fun later mem => hs later (mem_cons_of_mem step mem)) step.1 rise
      (fun later mem => hb later (mem_cons_of_mem step mem)) (hb step mem_cons_self) hm

/-- The pool that a run of operations has brought a blank one to, when the next one resets it. -/
theorem before_reset (env : PoolEnv) {before after : List (View × PoolOrder × PoolOp)}
    {order : PoolOrder} {reinject : List SignedTx}
    (rising : Rising (before ++ (view, order, .reset reinject) :: after))
    (hs : ∀ step ∈ before ++ (view, order, .reset reinject) :: after,
      ∀ tx ∈ step.2.2.submitted, Small tx) : Holds Small (runPool env (blank env.config) before) ∧
      InLine view (runPool env (blank env.config) before) := by
  obtain ⟨rising, -, later⟩ := pairwise_append.mp rising
  exact runPool_inLine env rising (fun step mem => hs step (mem_append_left _ mem))
    ⟨fun _ => 0, view.checkTx⟩ (fun step _ addr => UInt64.zero_le)
    (fun step mem => later step mem _ mem_cons_self) (fun addr => UInt64.zero_le)
    (blank_inLine env.config _)

/-- Pending transactions in line with nothing below the ledger's nonce begin at it. -/
theorem Executable.spans (inv : Executable view pool) (addr : Address) :
    (listAt pool.pending addr).Spans (view.nonce addr).toNat
      ((view.nonce addr).toNat + pool.pendingLen addr) := by
  obtain ⟨first, next, hsa, order, low, -⟩ := inv.1.2 addr
  have count : pool.pendingLen addr = next - first := hsa.len
  rcases order.lt_or_eq with lt | same
  · obtain ⟨tx, mem, here⟩ := (hsa first).mpr ⟨le_rfl, lt⟩
    have high := UInt64.le_iff_toNat_le.mp (inv.2 addr tx mem)
    have hsr : first = (view.nonce addr).toNat := by
      have : tx.nonceValue.toNat = first := here
      omega
    rw [count, ← hsr, Nat.add_sub_cancel' order]
    exact hsa
  · rw [count, same, Nat.sub_self]
    exact KeyedList.spans_of_nil (hsa.items_eq_nil same.ge) _

/-- After a reset, and as long as the ledger's nonces stay what they are, the nonces of every
account's pending transactions are consecutive from the ledger's nonce on. `NewTxPool` is a reset of
a blank pool. -/
theorem pending_executable (env : PoolEnv) (before after : List (View × PoolOrder × PoolOp))
    (view : View) (order : PoolOrder) (reinject : List SignedTx)
    (rising : Rising (before ++ (view, order, .reset reinject) :: after))
    (hs : ∀ step ∈ before ++ (view, order, .reset reinject) :: after,
      ∀ tx ∈ step.2.2.submitted, tx.nonceValue.toNat < 2 ^ 64 - 1)
    (same : ∀ step ∈ after, step.1.nonce = view.nonce) (addr : Address) :
    let pool := runPool env (blank env.config) (before ++ (view, order, .reset reinject) :: after)
    (listAt pool.pending addr).items.map (fun tx => tx.nonceValue.toNat) =
      range' (view.nonce addr).toNat (listAt pool.pending addr).len := by
  have hbo : ∀ step ∈ before ++ (view, order, .reset reinject) :: after,
      ∀ tx ∈ step.2.2.submitted, Small tx :=
      fun step mem tx sub => Nat.add_lt_of_lt_sub (hs step mem tx sub)
  have hsr := before_reset env rising hbo
  have hw : runPool env (blank env.config) (before ++ (view, order, .reset reinject) :: after) =
      runPool env ((runPool env (blank env.config) before).reset env view order
          reinject) after := by
    rw [runPool, foldl_append, foldl_cons]
    rfl
  have hse :
      Executable view ((runPool env (blank env.config) before).reset env view order reinject) :=
    reset_executable env view order (hbo (view, order, .reset reinject)
      (mem_append_right _ mem_cons_self)) hsr
  have final := runPool_keeps after (fun step mem => Executable.congr
    (same step mem) ▸ executable_stable env step.1)
    (fun step mem => hbo step (mem_append_right _ (mem_cons_of_mem _ mem))) hse
  rw [hw]
  have keys := (final.spans addr).keys
  rwa [Nat.add_sub_cancel_left] at keys

/-- Three transactions of two accounts, then a block with one of them, then one more. -/
def someSteps : List (View × PoolOrder × PoolOp) :=
  [(viewAt 0, .byAddress, .reset []),
    (viewAt 0, .byAddress, .addRemotes [plainTx 1 0, plainTx 1 1, plainTx 2 5])]

theorem someSteps_executable :
    let pool := runPool plainPool (blank plainPool.config) (someSteps ++
      (viewAt 1, .byAddress, .reset [plainTx 1 0]) ::
      [(viewAt 1, .byAddress, .addRemote (plainTx 1 2))])
    (listAt pool.pending (account 1)).items.map (fun tx => tx.nonceValue.toNat) =
      range' ((viewAt 1).nonce (account 1)).toNat (listAt pool.pending (account 1)).len ∧
    (listAt pool.pending (account 1)).len = 2 := by
  refine ⟨pending_executable plainPool someSteps _ (viewAt 1) .byAddress [plainTx 1 0] ?_ ?_ ?_
    (account 1), by decide +kernel⟩
  · simp [Rising, someSteps, viewAt]
  · simp [someSteps, PoolOp.submitted, plainTx]
  · simp

end HNBChain.Audit.Guarantees.PendingExecutable
