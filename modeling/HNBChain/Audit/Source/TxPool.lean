import HNBChain.Audit.Source.AppMgr
import HNBChain.Lib.KeyedList

/-!
# The transaction pool

`TxPool` of `txpool/tx_pool.go`: three indexes of the same transactions (`all` by their ids,
`pending` and `queue` by account and nonce) and the cached next nonce of each account. An operation
reads the ledger's nonces and the contracts' `CheckTx` through a `View`; the orders in which Go
ranges over its maps, in which the priority queue pops accounts of one length and in which the
accounts' last heartbeats stand are the argument `PoolOrder`, and results hold for every one.

A list that an operation changes in place is written back where the source has looked at whether it
became empty. The journal, which the default configuration leaves off, and the notifications are not
modelled. A panic is the error `panic`: it ends the process, and what the model does after it is not
meant.
-/
namespace HNBChain.Audit.Source

open Lib Multiset

/-- A transaction as a peer or a client sends it. -/
structure SignedTx extends Transaction where
  v : Option Int
  r : Option Int
  s : Option Int

/-- What `HNBSigner.Hash` hashes. -/
structure SignedContent where
  contractName : Bytes
  fromAddr : Address
  payload : Bytes
  nonceValue : UInt64
  deriving DecidableEq

def Transaction.content (tx : Transaction) : SignedContent :=
  ⟨tx.contractName, tx.fromAddr, tx.payload, tx.nonceValue⟩

/-- The signer: the hash of a content, and the address that signature values of a hash name. -/
structure Signer where
  hash : SignedContent → Bytes
  recover : Bytes → Option Int → Option Int → Option Int → Except Err Address

def Signer.sender (signer : Signer) (tx : SignedTx) : Except Err Address :=
  signer.recover (signer.hash tx.content) tx.v tx.r tx.s

/-- A nonce as a number. -/
def SignedTx.nonce (tx : SignedTx) : Nat := tx.nonceValue.toNat

/-- `txList`: the pending lists are the strict ones. -/
abbrev TxList := KeyedList SignedTx.nonce

namespace TxList

def overlaps (list : TxList) (tx : SignedTx) : Bool := (list.get tx.nonce).isSome

def forward (threshold : UInt64) (list : TxList) : List SignedTx × TxList :=
  list.partition fun tx => tx.nonceValue < threshold

/-- `Remove` of a list that is not strict. -/
def remove (tx : SignedTx) (list : TxList) : TxList :=
  (list.partition fun other => other.nonceValue = tx.nonceValue).2

/-- `Remove` of a strict list: the transactions above the removed one come out with it. -/
def removeStrict (tx : SignedTx) (list : TxList) : List SignedTx × TxList :=
  KeyedList.partition (fun other => tx.nonceValue < other.nonceValue) (remove tx list)

end TxList

structure TxPoolConfig where
  locals : List Address
  noLocals : Bool
  accountSlots : UInt64
  globalSlots : UInt64
  accountQueue : UInt64
  globalQueue : UInt64

def defaultTxPoolConfig : TxPoolConfig where
  locals := []
  noLocals := false
  accountSlots := 16
  globalSlots := 4096
  accountQueue := 64
  globalQueue := 1024

structure TxPool where
  /-- `PendingCache.nonce`. -/
  pendingState : Store Address UInt64
  locals : Finset Address
  pending : Store Address TxList
  queue : Store Address TxList
  all : Store Bytes SignedTx

/-- What the pool is configured with. -/
structure PoolEnv where
  config : TxPoolConfig
  runMode : String
  signer : Signer

/-- What an operation reads of the ledger and of the contracts. -/
structure View where
  nonce : Address → UInt64
  checkTx : SignedTx → Option Err

/-- The orders that Go, the clock or the heap choose. -/
structure PoolOrder where
  range : Finset Address → List Address
  range_nodup : ∀ accounts, (range accounts).Nodup
  mem_range : ∀ accounts addr, addr ∈ range accounts ↔ addr ∈ accounts
  /-- Last heartbeat first. -/
  byHeartbeat : Finset Address → List Address
  byHeartbeat_nodup : ∀ accounts, (byHeartbeat accounts).Nodup
  mem_byHeartbeat : ∀ accounts addr, addr ∈ byHeartbeat accounts ↔ addr ∈ accounts
  /-- The accounts as `prque` pops them when they were pushed with these lengths. -/
  pops : (Address → Nat) → Finset Address → List Address
  pops_nodup : ∀ len accounts, (pops len accounts).Nodup
  mem_pops : ∀ len accounts addr, addr ∈ pops len accounts ↔ addr ∈ accounts
  pops_largest : ∀ len accounts, (pops len accounts).Pairwise fun a b => len b ≤ len a

/-- Addresses in the order of their bytes. -/
def addressLe (a b : Address) : Prop := keyLe a.val b.val

instance addressLe.decidable : DecidableRel addressLe :=
  fun a b => inferInstanceAs (Decidable (keyLe a.val b.val))

instance addressLe.trans : IsTrans Address addressLe :=
  ⟨fun a b c => (inferInstance : IsTrans Bytes keyLe).trans a.val b.val c.val⟩

instance addressLe.total : Std.Total addressLe :=
  ⟨fun a b => (inferInstance : Std.Total keyLe).total a.val b.val⟩

instance addressLe.antisymm : Std.Antisymm addressLe :=
  ⟨fun a b le ge => Subtype.ext ((inferInstance : Std.Antisymm keyLe).antisymm a.val b.val le ge)⟩

def sortAccounts (accounts : Finset Address) : List Address :=
  Quotient.liftOn accounts.val (List.insertionSort addressLe) fun a b perm =>
    (((List.perm_insertionSort addressLe a).trans perm).trans
      (List.perm_insertionSort addressLe b).symm).eq_of_pairwise
      (fun x y _ _ => Std.Antisymm.antisymm x y)
      (List.pairwise_insertionSort addressLe a) (List.pairwise_insertionSort addressLe b)

theorem sortAccounts_coe (accounts : Finset Address) :
    (sortAccounts accounts : Multiset Address) = accounts.val := by
  obtain ⟨items, hd⟩ := accounts
  induction items using Quotient.inductionOn with
  | h items => exact coe_eq_coe.mpr (List.perm_insertionSort addressLe items)

/-- One of the orders there are. -/
def PoolOrder.byAddress : PoolOrder where
  range := sortAccounts
  range_nodup accounts := coe_nodup.mp (sortAccounts_coe accounts ▸ accounts.nodup)
  mem_range accounts addr := by
    rw [← mem_coe, sortAccounts_coe, Finset.mem_val]
  byHeartbeat := sortAccounts
  byHeartbeat_nodup accounts := coe_nodup.mp (sortAccounts_coe accounts ▸ accounts.nodup)
  mem_byHeartbeat accounts addr := by
    rw [← mem_coe, sortAccounts_coe, Finset.mem_val]
  pops len accounts := (sortAccounts accounts).insertionSort fun a b => len b ≤ len a
  pops_nodup len accounts := by
    rw [(List.perm_insertionSort _ _).nodup_iff]
    exact coe_nodup.mp (sortAccounts_coe accounts ▸ accounts.nodup)
  mem_pops len accounts addr := by
    rw [(List.perm_insertionSort _ _).mem_iff, ← mem_coe, sortAccounts_coe, Finset.mem_val]
  pops_largest len accounts := by
    have total : Std.Total fun a b : Address => len b ≤ len a :=
      ⟨fun a b => le_total (len b) (len a)⟩
    have trans : IsTrans Address fun a b => len b ≤ len a :=
      ⟨fun _ _ _ first second => second.trans first⟩
    exact List.pairwise_insertionSort _ _

inductive PoolErr where
  /-- `known transaction: %x` -/
  | known (hash : Bytes)
  | new (text : String)
  | checkTx (err : Err)
  | panic
  deriving DecidableEq, Repr

def PoolErr.invalidSender : PoolErr := .new "invalid sender"

def PoolErr.nonceTooLow : PoolErr := .new "nonce too low"

def PoolErr.txQueueFull : PoolErr := .new "queue full"

def PoolErr.replaceUnderpriced : PoolErr := .new "replacement transaction underpriced"

/-- An account's list; an account without one has no transactions. -/
def listAt (lists : Store Address TxList) (addr : Address) : TxList := (find lists addr).getD .empty

/-- A list under its account, or no entry when it is empty. -/
def setList (lists : Store Address TxList) (addr : Address) (list : TxList) :
    Store Address TxList :=
  if list.items = [] then lists.erase addr else lists.insert addr list

namespace TxPool

/-- `PendingCache.GetNonce`. -/
def getNonce (view : View) (pool : TxPool) (addr : Address) : UInt64 :=
  (find pool.pendingState addr).getD (view.nonce addr)

def setNonce (addr : Address) (nonce : UInt64) (pool : TxPool) : TxPool :=
  { pool with pendingState := pool.pendingState.insert addr nonce }

def pendingLen (pool : TxPool) (addr : Address) : Nat :=
  (listAt pool.pending addr).len

def queueLen (pool : TxPool) (addr : Address) : Nat :=
  (listAt pool.queue addr).len

/-- `txLookup.Add` of a transaction whose id is not taken. -/
def note (tx : SignedTx) (pool : TxPool) : TxPool :=
  if (find pool.all tx.txid).isSome then pool else { pool with all := pool.all.insert tx.txid tx }

/-- `txLookup.Remove`, one transaction after the other. -/
def forget (txs : List SignedTx) (pool : TxPool) : TxPool :=
  { pool with all := txs.foldl (fun all tx => all.erase tx.txid) pool.all }

/-- `validateTx`. -/
def validateTx (env : PoolEnv) (view : View) (tx : SignedTx) : Except PoolErr Unit :=
  match env.signer.sender tx with
  | .error .panic => .error .panic
  | .error _ => .error .invalidSender
  | .ok sender =>
    if env.runMode = "dev" ∧ sender ≠ tx.fromAddr then .error (.new "sign or tx.from addr not same")
    else if tx.nonceValue < view.nonce sender then .error .nonceTooLow
    else
      match view.checkTx tx with
      | some .panic => .error .panic
      | some err => .error (.checkTx err)
      | none => .ok ()

/-- `enqueueTx`: nothing is replaced, `Add` refuses a nonce that is taken. -/
def enqueueTx (tx : SignedTx) (pool : TxPool) : Except PoolErr TxPool :=
  let list := listAt pool.queue tx.fromAddr
  if list.overlaps tx then .error .replaceUnderpriced
  else .ok (note tx { pool with queue := pool.queue.insert tx.fromAddr (list.put tx) })

/-- `enqueueTx` where the caller drops its result. -/
def postpone (pool : TxPool) (tx : SignedTx) : TxPool :=
  match pool.enqueueTx tx with
  | .ok next => next
  | .error _ => pool

def promoteTx (addr : Address) (pool : TxPool) (tx : SignedTx) : TxPool :=
  let list := listAt pool.pending addr
  if list.overlaps tx then pool.forget [tx]
  else
    (note tx { pool with pending := pool.pending.insert addr (list.put tx) }).setNonce addr
      (tx.nonceValue + 1)

/-- `add`; its other result, whether a transaction was replaced, is always false. -/
def add (env : PoolEnv) (view : View) (tx : SignedTx) (isLocal : Bool) (pool : TxPool) :
    Except PoolErr TxPool :=
  if (find pool.all tx.txid).isSome then .error (.known tx.txid)
  else
    match validateTx env view tx with
    | .error err => .error err
    | .ok () =>
      if (env.config.globalSlots + env.config.globalQueue).toNat ≤ pool.all.keys.card then
        .error .txQueueFull
      else if (listAt pool.pending tx.fromAddr).overlaps tx then .ok pool
      else
        match pool.enqueueTx tx with
        | .error err => .error err
        | .ok next =>
          .ok (if isLocal then { next with locals := insert tx.fromAddr next.locals } else next)

/-- The cached nonce goes down to a dropped one. -/
def lowerNonce (view : View) (addr : Address) (nonce : UInt64) (pool : TxPool) : TxPool :=
  if nonce < pool.getNonce view addr then pool.setNonce addr nonce else pool

def removeTx (view : View) (pool : TxPool) (hash : Bytes) : TxPool :=
  match find pool.all hash with
  | none => pool
  | some tx =>
    let pool := { pool with all := pool.all.erase hash }
    let list := listAt pool.pending tx.fromAddr
    if list.overlaps tx then
      let removed := list.removeStrict tx
      let pool := { pool with pending := setList pool.pending tx.fromAddr removed.2 }
      (removed.1.foldl postpone pool).lowerNonce view tx.fromAddr tx.nonceValue
    else
      { pool with
        queue := setList pool.queue tx.fromAddr ((listAt pool.queue tx.fromAddr).remove tx) }

/-! ## Promotion -/

/-- One account of the first loop of `promoteExecutables`. -/
def promoteAccount (env : PoolEnv) (view : View) (pool : TxPool) (addr : Address) : TxPool :=
  match find pool.queue addr with
  | none => pool
  | some list =>
    let old := list.forward (view.nonce addr)
    let pool := pool.forget old.1
    let ready := old.2.ready (pool.getNonce view addr).toNat
    let pool := ready.1.foldl (promoteTx addr) pool
    let capped := if addr ∈ pool.locals then ([], ready.2)
      else ready.2.cap env.config.accountQueue.toNat
    let pool := pool.forget capped.1
    { pool with queue := setList pool.queue addr capped.2 }

/-- The last transaction of an account's pending list goes. The list stays in the map. -/
def dropLast (view : View) (pool : TxPool) (addr : Address) : TxPool :=
  match find pool.pending addr with
  | none => pool
  | some list =>
    let capped := list.cap (list.len - 1)
    capped.1.foldl (fun pool tx => (pool.forget [tx]).lowerNonce view addr tx.nonceValue)
      { pool with pending := pool.pending.insert addr capped.2 }

/-- The loop that shortens all `offenders` by one while the last of them is longer than `threshold`
and too many transactions are pending. Each round takes one off the count for each offender, so
`fuel` need not be more than the count. -/
def equalize (view : View) (slots threshold : Nat) (offenders : List Address) (last : Address) :
    Nat → Nat → TxPool → Nat × TxPool
  | 0, pending, pool => (pending, pool)
  | fuel + 1, pending, pool =>
    if slots < pending ∧ threshold < pool.pendingLen last then
      equalize view slots threshold offenders last fuel (pending - offenders.length)
        (offenders.foldl (dropLast view) pool)
    else (pending, pool)

/-- With this much fuel the loop runs to its end. -/
theorem equalize_ends (view : View) (slots threshold : Nat) {offenders : List Address}
    (some : offenders ≠ []) (last : Address) {fuel pending : Nat} (he : pending ≤ fuel)
    (pool : TxPool) :
    let evened := equalize view slots threshold offenders last fuel pending pool
    ¬(slots < evened.1 ∧ threshold < evened.2.pendingLen last) := by
  induction fuel generalizing pending pool with
  | zero =>
    rintro evened ⟨ha, -⟩
    exact absurd (ha.trans_le he) (Nat.not_lt_zero slots)
  | succ fuel ih =>
    have one : 0 < offenders.length := List.length_pos_iff.mpr some
    unfold equalize
    split
    · exact ih (by omega) _
    next ended => exact ended

/-- The offenders are taken up one by one, the earlier ones brought down to the new one's length;
the result is the list of those taken up, with the count and the pool. -/
def gatherOffenders (view : View) (slots : Nat) :
    List Address → List Address → Nat → TxPool → List Address × Nat × TxPool
  | [], offenders, pending, pool => (offenders, pending, pool)
  | offender :: spammers, offenders, pending, pool =>
    if slots < pending then
      match offenders.getLast? with
      | none => gatherOffenders view slots spammers [offender] pending pool
      | some last =>
        let evened :=
          equalize view slots (pool.pendingLen offender) offenders last pending pending pool
        gatherOffenders view slots spammers (offenders ++ [offender]) evened.1 evened.2
    else (offenders, pending, pool)

def pendingCount (pool : TxPool) : Nat := ∑ addr ∈ pool.pending.keys, pool.pendingLen addr

def queueCount (pool : TxPool) : Nat := ∑ addr ∈ pool.queue.keys, pool.queueLen addr

/-- The accounts that are not local and have more pending transactions than each may have. -/
def spammers (env : PoolEnv) (pool : TxPool) : Finset Address :=
  pool.pending.keys.filter fun addr =>
    addr ∉ pool.locals ∧ env.config.accountSlots.toNat < pool.pendingLen addr

def limitPending (env : PoolEnv) (view : View) (order : PoolOrder) (pool : TxPool) : TxPool :=
  let slots := env.config.globalSlots.toNat
  if slots < pool.pendingCount then
    let gathered := gatherOffenders view slots (order.pops pool.pendingLen (pool.spammers env)) []
      pool.pendingCount pool
    match gathered.1.getLast? with
    | none => gathered.2.2
    | some last =>
      (equalize view slots env.config.accountSlots.toNat gathered.1 last gathered.2.1 gathered.2.1
        gathered.2.2).2
  else pool

/-- `drop` queued transactions go, the accounts one after the other. -/
def dropQueued (view : View) : List Address → Nat → TxPool → TxPool
  | [], _, pool => pool
  | addr :: addresses, drop, pool =>
    if drop = 0 then pool
    else
      let txs := (listAt pool.queue addr).items
      if txs.length ≤ drop then
        dropQueued view addresses (drop - txs.length)
        ((txs.map (·.txid)).foldl (removeTx view) pool)
      else (((txs.reverse.take drop).map (·.txid)).foldl (removeTx view) pool)

def limitQueue (env : PoolEnv) (view : View) (order : PoolOrder) (pool : TxPool) : TxPool :=
  let most := env.config.globalQueue.toNat
  if most < pool.queueCount then
    dropQueued view (order.byHeartbeat (pool.queue.keys.filter (· ∉ pool.locals)))
    (pool.queueCount - most) pool
  else pool

def promoteExecutables (env : PoolEnv) (view : View) (order : PoolOrder)
    (accounts : Option (List Address)) (pool : TxPool) : TxPool :=
  limitQueue env view order (limitPending env view order
    ((accounts.getD (order.range pool.queue.keys)).foldl (promoteAccount env view) pool))

/-! ## Adding -/

def addTx (env : PoolEnv) (view : View) (order : PoolOrder) (tx : SignedTx) (isLocal : Bool)
    (pool : TxPool) : Except PoolErr Unit × TxPool :=
  match pool.add env view tx isLocal with
  | .error err => (.error err, pool)
  | .ok next => (.ok (), next.promoteExecutables env view order (some [tx.fromAddr]))

def addLocal (env : PoolEnv) (view : View) (order : PoolOrder) (tx : SignedTx) (pool : TxPool) :
    Except PoolErr Unit × TxPool :=
  pool.addTx env view order tx (!env.config.noLocals)

def addRemote (env : PoolEnv) (view : View) (order : PoolOrder) (tx : SignedTx) (pool : TxPool) :
    Except PoolErr Unit × TxPool :=
  pool.addTx env view order tx false

/-- The loop of `addTxsLocked`: the errors, the accounts to promote and the pool. -/
def addEach (env : PoolEnv) (view : View) (isLocal : Bool) :
    List SignedTx → TxPool → List (Except PoolErr Unit) × Finset Address × TxPool
  | [], pool => ([], ∅, pool)
  | tx :: txs, pool =>
    match pool.add env view tx isLocal with
    | .error err =>
      let rest := addEach env view isLocal txs pool
      (.error err :: rest.1, rest.2.1, rest.2.2)
    | .ok next =>
      let rest := addEach env view isLocal txs next
      (.ok () :: rest.1, insert tx.fromAddr rest.2.1, rest.2.2)

def addTxsLocked (env : PoolEnv) (view : View) (order : PoolOrder) (txs : List SignedTx)
    (isLocal : Bool) (pool : TxPool) : List (Except PoolErr Unit) × TxPool :=
  let added := addEach env view isLocal txs pool
  (added.1,
    if added.2.1 = ∅ then added.2.2
    else added.2.2.promoteExecutables env view order (some (order.range added.2.1)))

def addLocals (env : PoolEnv) (view : View) (order : PoolOrder) (txs : List SignedTx)
    (pool : TxPool) : List (Except PoolErr Unit) × TxPool :=
  pool.addTxsLocked env view order txs (!env.config.noLocals)

def addRemotes (env : PoolEnv) (view : View) (order : PoolOrder) (txs : List SignedTx)
    (pool : TxPool) : List (Except PoolErr Unit) × TxPool :=
  pool.addTxsLocked env view order txs false

/-! ## After a block -/

/-- One account of `demoteUnexecutables`. -/
def demoteAccount (view : View) (pool : TxPool) (addr : Address) : TxPool :=
  match find pool.pending addr with
  | none => pool
  | some list =>
    let old := list.forward (view.nonce addr)
    let pool := pool.forget old.1
    let gap := if 0 < old.2.len ∧ (old.2.get (view.nonce addr).toNat).isNone then old.2.cap 0
      else ([], old.2)
    let pool := gap.1.foldl postpone pool
    { pool with pending := setList pool.pending addr gap.2 }

def demoteUnexecutables (view : View) (order : PoolOrder) (pool : TxPool) : TxPool :=
  (order.range pool.pending.keys).foldl (demoteAccount view) pool

/-- One account of the loop of `reset` over the pending lists. -/
def renewNonce (pool : TxPool) (addr : Address) : TxPool :=
  match (listAt pool.pending addr).items.getLast? with
  | none => pool
  | some tx => pool.setNonce addr (tx.nonceValue + 1)

def reset (env : PoolEnv) (view : View) (order : PoolOrder) (reinject : List SignedTx)
    (pool : TxPool) : TxPool :=
  let added := (pool.addTxsLocked env view order reinject false).2
  let demoted := added.demoteUnexecutables view order
  let renewed := (order.range demoted.pending.keys).foldl renewNonce demoted
  renewed.promoteExecutables env view order none

/-- The eviction ticker: the queues of accounts that are not local and whose heartbeat is too
old. -/
def evict (view : View) (order : PoolOrder) (old : Finset Address) (pool : TxPool) : TxPool :=
  (order.range (pool.queue.keys.filter fun addr => addr ∉ pool.locals ∧ addr ∈ old)).foldl
      (fun pool addr =>
      ((listAt pool.queue addr).items.map (·.txid)).foldl (removeTx view) pool) pool

def blank (config : TxPoolConfig) : TxPool where
  pendingState := ∅
  locals := config.locals.toFinset
  pending := ∅
  queue := ∅
  all := ∅

def newTxPool (env : PoolEnv) (view : View) (order : PoolOrder) : TxPool :=
  (blank env.config).reset env view order []

end TxPool

/-! ## Runs -/

/-- What happens to a pool. -/
inductive PoolOp where
  | addLocal (tx : SignedTx)
  | addRemote (tx : SignedTx)
  | addLocals (txs : List SignedTx)
  | addRemotes (txs : List SignedTx)
  | removeTx (hash : Bytes)
  | promote (accounts : Option (List Address))
  | evict (old : Finset Address)
  | reset (reinject : List SignedTx)

def PoolOp.apply (env : PoolEnv) (view : View) (order : PoolOrder) (pool : TxPool) : PoolOp → TxPool
  | .addLocal tx => (pool.addLocal env view order tx).2
  | .addRemote tx => (pool.addRemote env view order tx).2
  | .addLocals txs => (pool.addLocals env view order txs).2
  | .addRemotes txs => (pool.addRemotes env view order txs).2
  | .removeTx hash => pool.removeTx view hash
  | .promote accounts => pool.promoteExecutables env view order accounts
  | .evict old => pool.evict view order old
  | .reset reinject => pool.reset env view order reinject

/-- The transactions an operation brings. -/
def PoolOp.submitted : PoolOp → List SignedTx
  | .addLocal tx => [tx]
  | .addRemote tx => [tx]
  | .addLocals txs => txs
  | .addRemotes txs => txs
  | .reset txs => txs
  | .removeTx _ => []
  | .promote _ => []
  | .evict _ => []

/-! ## Transactions for a proposal -/

/-- The loop over one account, with whether it returned. -/
def takeTxs (count : Nat) : List SignedTx → List SignedTx → List SignedTx × Bool
  | [], dstTxs => (dstTxs, false)
  | v :: rest, dstTxs =>
    if (dstTxs ++ [v]).length = count then (dstTxs ++ [v], true)
      else takeTxs count rest (dstTxs ++ [v])

def takeAll (count : Nat) : List (List SignedTx) → List SignedTx → List SignedTx
  | [], dstTxs => dstTxs
  | addrTxs :: rest, dstTxs =>
    match takeTxs count addrTxs dstTxs with
    | (dstTxs, true) => dstTxs
    | (dstTxs, false) => takeAll count rest dstTxs

def getTxsFromTXPool (order : PoolOrder) (pool : TxPool) (count : Nat) : List SignedTx :=
  takeAll count ((order.range pool.pending.keys).map fun addr =>
    (listAt pool.pending addr).items) []

end HNBChain.Audit.Source
