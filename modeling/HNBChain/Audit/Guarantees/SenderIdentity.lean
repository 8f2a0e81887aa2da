import HNBChain.Audit.Guarantees.PoolPartition
import HNBChain.Audit.Guarantees.ReplayProtection

/-!
# Whose transaction it is, and which

Three addresses and two identities meet in the pool. The pool files a transaction under its `From`,
execution acts for its `From`, and the signature names an address of its own; only `validateTx`
compares them, and only when the run mode is `dev`. The pool, the index and the store of failed
transactions know a transaction by its `Txid`, the signature is over a hash of its content, and
nothing compares these two.
-/
namespace HNBChain.Audit.Guarantees.SenderIdentity

open Lib Source Spec
open PoolPartition ReplayProtection TxPool List

/-- The transaction is executed for `addr`, and `addr` is the address its signature names. -/
def Authentic (signer : Signer) (addr : Address) (tx : SignedTx) : Prop :=
  signer.sender tx = .ok addr ∧ ∀ (base : World) (run : BlockRun) (chain : ChainID),
    runPending base run chain tx.toTransaction =
      runOn (Memory.overlay base) (invoke ⟨chain, tx.payload, addr⟩) (run.pending chain)

variable {env : PoolEnv} {tx : SignedTx}

theorem validateTx_dev {view : View} (dev : env.runMode = "dev")
    (hv : validateTx env view tx = .ok ()) : env.signer.sender tx = .ok tx.fromAddr := by
  unfold validateTx at hv
  split at hv
  · cases hv
  · cases hv
  next sender named =>
    split at hv
    · cases hv
    next agrees =>
      rw [named]
      exact congrArg _ (not_ne_iff.mp fun differ => agrees ⟨dev, differ⟩)

/-- In the run mode `dev` every transaction in the pool is of the address its signature names. -/
theorem listed_authentic (dev : env.runMode = "dev") (view : View) (order : PoolOrder)
    (ops : List (View × PoolOrder × PoolOp)) {addr : Address}
    (hl : tx ∈ (listAt (runPool env (newTxPool env view order) ops).pending addr).items ∨
      tx ∈ (listAt (runPool env (newTxPool env view order) ops).queue addr).items) :
    Authentic env.signer addr tx := by
  have hs : ∀ view, PoolStable env view (fun _ => True)
      (Holds fun tx => env.signer.sender tx = .ok tx.fromAddr) :=
    fun view => holds_stable fun tx _ hv => validateTx_dev dev hv
  have hsa : Holds (fun tx => env.signer.sender tx = .ok tx.fromAddr)
      (newTxPool env view order) :=
    (hs view).reset order (fun _ _ => trivial) ⟨blank_consistent env.config,
      fun hash tx hf => by cases hf⟩
  have final := runPool_keeps ops (fun step _ => hs step.1) (fun _ _ _ _ => trivial) hsa
  have home : tx.fromAddr = addr := by
    rcases hl with mem | mem
    · exact final.1.home addr tx (Multiset.mem_add.mpr (.inl (Multiset.mem_coe.mpr mem)))
    · exact final.1.home addr tx (Multiset.mem_add.mpr (.inr (Multiset.mem_coe.mpr mem)))
  have hn : env.signer.sender tx = .ok tx.fromAddr := by
    rcases hl with mem | mem
    · exact final.pending mem
    · exact final.queue mem
  subst home
  exact ⟨hn, fun base run chain => rfl⟩

/-! ## A pool with one transaction -/

theorem range_empty (order : PoolOrder) : order.range ∅ = [] :=
  eq_nil_iff_forall_not_mem.mpr fun addr mem =>
    absurd ((order.mem_range ∅ addr).mp mem) (Finset.notMem_empty addr)

theorem limits_unused (view : View) (order : PoolOrder) {pool : TxPool}
    (hp : pool.pendingCount ≤ env.config.globalSlots.toNat)
    (queue : pool.queueCount ≤ env.config.globalQueue.toNat) :
    (pool.limitPending env view order).limitQueue env view order = pool := by
  have h1 : pool.limitPending env view order = pool := by
    unfold limitPending
    rw [if_neg (Nat.not_lt.mpr hp)]
  rw [h1]
  unfold limitQueue
  rw [if_neg (Nat.not_lt.mpr queue)]

theorem newTxPool_eq (env : PoolEnv) (view : View) (order : PoolOrder) :
    newTxPool env view order = blank env.config := by
  have hno : order.range (blank env.config).pending.keys = [] := range_empty order
  have noQueue : order.range (blank env.config).queue.keys = [] := range_empty order
  have added : ((blank env.config).addTxsLocked env view order [] false).2 =
      blank env.config := rfl
  unfold newTxPool reset
  dsimp only
  rw [added, demoteUnexecutables, hno, foldl_nil, hno, foldl_nil,
    promoteExecutables, Option.getD_none, noQueue, foldl_nil]
  exact limits_unused view order (Nat.zero_le _) (Nat.zero_le _)

/-- A blank pool after `add`. -/
def withOne (config : TxPoolConfig) (tx : SignedTx) : TxPool :=
  { blank config with
    queue := (blank config).queue.insert tx.fromAddr (KeyedList.empty.put tx)
    all := (blank config).all.insert tx.txid tx }

theorem add_loose {sender : Address} (loose : env.runMode ≠ "dev")
    (hn : env.signer.sender tx = .ok sender) (view : View)
    (due : tx.nonceValue = view.nonce sender) (hc : view.checkTx tx = none)
    (room : 0 < (env.config.globalSlots + env.config.globalQueue).toNat) :
    (blank env.config).add env view tx false = .ok (withOne env.config tx) := by
  have hv : validateTx env view tx = .ok () := by
    unfold validateTx
    rw [hn]
    dsimp only
    rw [if_neg (fun both => loose both.1), if_neg (due ▸ UInt64.lt_irrefl _), hc]
  have hu : (find (blank env.config).all tx.txid).isSome = false := rfl
  have bare : (blank env.config).all.keys.card = 0 := rfl
  have free : (listAt (blank env.config).pending tx.fromAddr).overlaps tx = false := rfl
  have hq : (blank env.config).enqueueTx tx = .ok (withOne env.config tx) := rfl
  unfold add
  rw [hu, hv, bare, free, hq]
  dsimp only
  rw [if_neg Bool.false_ne_true, if_neg (Nat.not_le.mpr room), if_neg Bool.false_ne_true,
    if_neg Bool.false_ne_true]

/-- A transaction whose nonce is the ledger's is pending at once. -/
theorem promoteOne_pends (env : PoolEnv) (tx : SignedTx) (view : View)
    (due : view.nonce tx.fromAddr = tx.nonceValue) :
    (∀ b, listAt ((withOne env.config tx).promoteAccount env view tx.fromAddr).pending b =
        if b = tx.fromAddr then KeyedList.empty.put tx else .empty) ∧
      ∀ b, listAt ((withOne env.config tx).promoteAccount env view tx.fromAddr).queue
        b = .empty := by
  obtain ⟨old, ready, dropped, left, hsp, low, -, run, hre⟩ :=
    promoteAccount_spec env view (withOne env.config tx) tx.fromAddr
  have list : listAt (withOne env.config tx).queue tx.fromAddr = KeyedList.empty.put tx := by
    rw [withOne, listAt_insert, if_pos rfl]
  have next : ((withOne env.config tx).getNonce view tx.fromAddr).toNat = tx.nonce :=
    congrArg UInt64.toNat due
  rw [list] at hsp
  have only : [tx].Perm (old ++ (ready ++ dropped) ++ left.items) := hsp
  have ho : ∀ other ∈ old ++ (ready ++ dropped) ++ left.items, other = tx :=
    fun other mem => mem_singleton.mp (only.mem_iff.mpr mem)
  have here : tx ∈ old ++ (ready ++ dropped) ++ left.items := only.mem_iff.mp mem_cons_self
  have notOld : tx ∉ old := fun mem => UInt64.lt_irrefl _ (due ▸ low tx mem)
  have some : ready ≠ [] := by
    intro none
    rcases run with ⟨-, hab⟩ | ⟨n, -, some, -⟩
    · subst none
      rw [nil_append, append_assoc, mem_append] at here
      have beyond := hab tx (here.resolve_left notOld)
      rw [next] at beyond
      exact Nat.lt_irrefl _ beyond
    · exact some none
  have count := only.length_eq
  have long : 0 < ready.length := length_pos_iff.mpr some
  simp only [length_append, length_singleton] at count
  have noOld : old = [] := length_eq_zero_iff.mp (by omega)
  have noDropped : dropped = [] := length_eq_zero_iff.mp (by omega)
  have noLeft : left.items = [] := length_eq_zero_iff.mp (by omega)
  subst noOld noDropped
  rw [noLeft, nil_append, append_nil, append_nil] at only
  have bare : left = .empty := by
    cases left
    cases noLeft
    rfl
  have one : ready = [tx] := perm_singleton.mp only.symm
  have hm : ((withOne env.config tx).promoteTx tx.fromAddr tx).pending =
      (blank env.config).pending.insert tx.fromAddr (KeyedList.empty.put tx) := by
    have free : (listAt (withOne env.config tx).pending tx.fromAddr).overlaps tx = false := rfl
    unfold promoteTx note
    dsimp only
    rw [free, if_neg Bool.false_ne_true]
    split <;> rfl
  rw [hre, one, bare]
  constructor
  · intro b
    exact (congrArg (listAt · b) hm).trans (listAt_insert _ _ _ _)
  · intro b
    rw [listAt_setList]
    split
    · rfl
    next other =>
      rw [withOne, listAt_insert, if_neg other]
      rfl

theorem addRemote_pends (env : PoolEnv) (order : PoolOrder) {sender : Address}
    (loose : env.runMode ≠ "dev") (hn : env.signer.sender tx = .ok sender)
    (slots : 1 ≤ env.config.globalSlots.toNat)
    (room : 0 < (env.config.globalSlots + env.config.globalQueue).toNat) :
    tx ∈ (listAt ((blank env.config).addRemote env ⟨fun _ => tx.nonceValue, fun _ => none⟩
      order tx).2.pending tx.fromAddr).items := by
  have promoted := promoteOne_pends env tx ⟨fun _ => tx.nonceValue, fun _ => none⟩ rfl
  unfold addRemote addTx
  rw [add_loose loose hn ⟨fun _ => tx.nonceValue, fun _ => none⟩ rfl rfl room]
  dsimp only [promoteExecutables, Option.getD_some, foldl_cons, foldl_nil]
  generalize (withOne env.config tx).promoteAccount env ⟨fun _ => tx.nonceValue, fun _ => none⟩
    tx.fromAddr = pool at promoted ⊢
  have few : pool.pendingCount ≤ env.config.globalSlots.toNat := by
    have each : ∀ addr ∈ pool.pending.keys, pool.pendingLen addr = if addr = tx.fromAddr
        then 1 else 0 := by
      intro addr _
      rw [pendingLen, promoted.1]
      split <;> rfl
    rw [pendingCount, Finset.sum_congr rfl each, Finset.sum_ite_eq']
    split
    · exact slots
    · exact Nat.zero_le _
  have nothing : pool.queueCount = 0 := by
    refine Finset.sum_eq_zero fun addr _ => ?_
    rw [queueLen, promoted.2]
    rfl
  rw [limits_unused _ order few (nothing.le.trans (Nat.zero_le _)), promoted.1, if_pos rfl]
  exact mem_cons_self

/-! ## The guarantees -/

/-- A pool lists transactions under the address their signature names, and they are executed for it,
just when the run mode is `dev`: in any other, whoever signs a content that names another sender
gets it listed under that sender. -/
theorem sender_authentic_iff (env : PoolEnv) (slots : 1 ≤ env.config.globalSlots.toNat)
    (room : 0 < (env.config.globalSlots + env.config.globalQueue).toNat)
    (foreign : ∃ tx sender, env.signer.sender tx = .ok sender ∧ sender ≠ tx.fromAddr) :
    (∀ (view : View) (order : PoolOrder) (ops : List (View × PoolOrder × PoolOp)) (addr : Address)
      (tx : SignedTx),
        (tx ∈ (listAt (runPool env (newTxPool env view order) ops).pending addr).items ∨
          tx ∈ (listAt (runPool env (newTxPool env view order) ops).queue addr).items) →
        Authentic env.signer addr tx) ↔ env.runMode = "dev" := by
  constructor
  · intro always
    by_contra loose
    obtain ⟨tx, sender, hn, differ⟩ := foreign
    have pends := addRemote_pends env .byAddress loose hn slots room
    have hau := always ⟨fun _ => tx.nonceValue, fun _ => none⟩ .byAddress
      [(⟨fun _ => tx.nonceValue, fun _ => none⟩, .byAddress, .addRemote tx)] tx.fromAddr tx
      (.inl (by rw [newTxPool_eq]; exact pends))
    rw [hau.1] at hn
    cases hn
    exact differ rfl
  · intro dev view order ops addr tx hl
    exact listed_authentic dev view order ops hl

/-- A transaction of account 1 that account 2 has signed. -/
def forgedTx : SignedTx := { plainTx 1 0 with v := some 2 }

theorem forgedTx_foreign : plainSigner.sender forgedTx = .ok (account 2) ∧
    account 2 ≠ forgedTx.fromAddr :=
  ⟨rfl, by decide⟩

theorem sender_authentic_iff_default :
    (∀ (view : View) (order : PoolOrder) (ops : List (View × PoolOrder × PoolOp)) (addr : Address)
      (tx : SignedTx),
        (tx ∈ (listAt (runPool plainPool (newTxPool plainPool view order) ops).pending addr).items ∨
          tx ∈ (listAt (runPool plainPool (newTxPool plainPool view order) ops).queue addr).items) →
        Authentic plainPool.signer addr tx) ↔ plainPool.runMode = "dev" :=
  sender_authentic_iff plainPool (by decide) (by decide) ⟨forgedTx, account 2, forgedTx_foreign⟩

/-- Outside `dev` the pool takes a transfer that account 2 has signed for one of account 1. -/
theorem forgedTx_pends :
    let env : PoolEnv := { plainPool with runMode := "release" }
    let pool := runPool env (newTxPool env (viewAt 0) .byAddress)
      [(viewAt 0, .byAddress, .addRemote forgedTx)]
    (listAt pool.pending (account 1)).items.map
    (fun tx => (tx.txid, tx.v)) = [(forgedTx.txid, forgedTx.v)] ∧
      env.signer.sender forgedTx = .ok (account 2) ∧ account 2 ≠ account 1 := by
  exact ⟨by decide +kernel, rfl, by decide⟩

/-! ## Transaction ids -/

/-- The id is the hash that the signature is over. -/
def Sealed (signer : Signer) (tx : Transaction) : Prop := tx.txid = signer.hash tx.content

/-- The pool has had the transaction at some time of a run. -/
def Accepted (env : PoolEnv) (pool : TxPool) (ops : List (View × PoolOrder × PoolOp))
    (tx : Transaction) : Prop :=
  ∃ earlier hash signed, earlier <+: ops ∧ find (runPool env pool earlier).all hash = some signed ∧
    signed.toTransaction = tx

theorem accepted_sealed {view : View} {order : PoolOrder} {ops : List (View × PoolOrder × PoolOp)}
    (submitted : ∀ step ∈ ops, ∀ tx ∈ step.2.2.submitted, Sealed env.signer tx.toTransaction)
    {tx : Transaction} (ha : Accepted env (newTxPool env view order) ops tx) :
    Sealed env.signer tx := by
  obtain ⟨earlier, hash, signed, initial, hf, rfl⟩ := ha
  have hs : ∀ view, PoolStable env view (fun tx => Sealed env.signer tx.toTransaction)
      (Holds fun tx => Sealed env.signer tx.toTransaction) :=
    fun view => holds_stable fun _ fit _ => fit
  have hsa : Holds (fun tx => Sealed env.signer tx.toTransaction) (newTxPool env view order) :=
    (hs view).reset order (fun tx mem => by cases mem)
      ⟨blank_consistent env.config, fun hash tx hf => by cases hf⟩
  have final := runPool_keeps earlier (fun step _ => hs step.1)
    (fun step mem => submitted step (initial.subset mem)) hsa
  exact final.2 hash signed hf

/-- When every transaction that is submitted, and every one in a block that is stored, carries its
own hash as its id, then an id names one content, up to collisions of the hash. -/
theorem txid_identifies (env : PoolEnv) (view : View) (order : PoolOrder)
    (ops : List (View × PoolOrder × PoolOp))
    (submitted : ∀ step ∈ ops, ∀ tx ∈ step.2.2.submitted, Sealed env.signer tx.toTransaction)
    (start final : Ledger) (blocks : List Block)
    (chain : Chain (fun _ blk => ∀ tx ∈ blk.txs, Sealed env.signer tx) start blocks final) :
    let known := fun tx => Accepted env (newTxPool env view order) ops tx ∨ tx ∈ allTxs blocks
    (∀ tx, known tx → tx.txid = env.signer.hash tx.content) ∧
      ((∀ a b, known a → known b → env.signer.hash a.content = env.signer.hash b.content →
        a.content = b.content) →
        ∀ a b, known a → known b → a.txid = b.txid → a.content = b.content) := by
  intro known
  have own : ∀ tx, known tx → tx.txid = env.signer.hash tx.content := by
    rintro tx (ha | hst)
    · exact accepted_sealed submitted ha
    · exact chain.forall_txs tx hst
  refine ⟨own, fun hco a b knownA knownB same => hco a b knownA knownB ?_⟩
  rw [← own a knownA, ← own b knownB, same]

/-- The founder's payment with its own hash as its id. -/
def sealedPayment : Transaction :=
  { foundersPayment with txid := plainSigner.hash foundersPayment.content }

theorem txid_identifies_two :
    let ops : List (View × PoolOrder × PoolOp) :=
      [(viewAt 0, .byAddress, .addRemote (plainTx 1 0)),
        (viewAt 0, .byAddress, .addRemote (plainTx 2 0))]
    ∀ tx, Accepted plainPool (newTxPool plainPool (viewAt 0) .byAddress) ops tx ∨
        tx ∈ allTxs [⟨0, [sealedPayment]⟩] → tx.txid = plainSigner.hash tx.content := by
  have hr : getHandler sealedPayment.contractName = .ok .hnb :=
    getHandler_carrying .hnb founder (.same ⟨[7], 5⟩)
  obtain ⟨final, ha, _⟩ := blockProcess_single_ok (.any true) genesisLedger rfl hr
    (by decide +kernel)
  have chain : Chain (fun _ blk => ∀ tx ∈ blk.txs, Sealed plainSigner tx) genesisLedger
      [⟨0, [sealedPayment]⟩] final := by
    refine .cons _ (fun tx mem => ?_) ha (.nil final)
    rw [mem_singleton.mp mem]
    rfl
  exact (txid_identifies plainPool (viewAt 0) .byAddress
    [(viewAt 0, .byAddress, .addRemote (plainTx 1 0)),
      (viewAt 0, .byAddress, .addRemote (plainTx 2 0))]
    (by simp [PoolOp.submitted, Sealed, plainPool, plainSigner, plainTx, Transaction.content])
    genesisLedger final [⟨0, [sealedPayment]⟩] chain).1

/-- Two transactions of account 1 with the same id and nonce and different payloads. -/
def namesakes : SignedTx × SignedTx :=
  ({ plainTx 1 0 with txid := [9] }, { plainTx 1 0 with txid := [9], payload := [7] })

/-- The pool takes the second one after the first one has left. -/
def namesakeSteps : List (View × PoolOrder × PoolOp) :=
  [(viewAt 0, .byAddress, .addRemote namesakes.1), (viewAt 0, .byAddress, .removeTx [9]),
    (viewAt 0, .byAddress, .addRemote namesakes.2)]

theorem namesakes_accepted :
    ∃ a b, Accepted plainPool (newTxPool plainPool (viewAt 0) .byAddress) namesakeSteps a ∧
      Accepted plainPool (newTxPool plainPool (viewAt 0) .byAddress) namesakeSteps b ∧
      a.txid = b.txid ∧ a.content ≠ b.content ∧ a.txid ≠ plainSigner.hash a.content := by
  have h1 : ((find (runPool plainPool (newTxPool plainPool (viewAt 0) .byAddress)
      (namesakeSteps.take 1)).all [9]).map fun tx => (tx.txid, tx.content)) =
      some ([9], namesakes.1.content) := by decide +kernel
  have h2 : ((find (runPool plainPool (newTxPool plainPool (viewAt 0) .byAddress)
      namesakeSteps).all [9]).map fun tx => (tx.txid, tx.content)) =
      some ([9], namesakes.2.content) := by decide +kernel
  obtain ⟨a, foundA, sameA⟩ := Option.map_eq_some_iff.mp h1
  obtain ⟨b, foundB, sameB⟩ := Option.map_eq_some_iff.mp h2
  obtain ⟨idA, contentA⟩ := Prod.mk.inj sameA
  obtain ⟨idB, contentB⟩ := Prod.mk.inj sameB
  refine ⟨a.toTransaction, b.toTransaction, ⟨_, [9], a, take_prefix 1 _, foundA, rfl⟩,
    ⟨_, [9], b, prefix_refl _, foundB, rfl⟩, idA.trans idB.symm, ?_, ?_⟩
  · rw [contentA, contentB]
    decide
  · rw [idA, contentA]
    decide

end HNBChain.Audit.Guarantees.SenderIdentity
