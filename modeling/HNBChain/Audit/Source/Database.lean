import HNBChain.Audit.Source.AppMgr

/-!
# The database and the stores above it

Blocks, the height, the transaction index, nonces, reasons of failures, contract state and epochs
are records of one key-value database, each under a key of its own form. `Host` is the database with
the caches of the stores, and an operation on it may fail or may be the one at which the process
stops.

`NewBatch` and `BatchCommit` are called around the writes of a block, but the stores write with
`Put` and `Delete`, so the batch is empty.

JSON texts are kept as the data they encode. Logging is left out, and so is the second database that
blocks may be configured to go to.
-/
namespace HNBChain.Audit.Source.Database

open Lib List

/-! ## Records and their keys -/

def putUint64 (n : UInt64) : Bytes := Octets.bigEndian 8 n.toNat

/-- Reading fewer than eight octets panics. -/
def uint64 (b : Bytes) : Option UInt64 :=
  if b.length < 8 then none else some (UInt64.ofNat (Octets.ofBigEndian (b.take 8)))

theorem uint64_putUint64 (n : UInt64) : uint64 (putUint64 n) = some n := by
  have length : (putUint64 n).length = 8 := Octets.length_bigEndian 8 _
  rw [uint64, if_neg (by omega), take_of_length_le (by omega), putUint64,
    Octets.ofBigEndian_bigEndian 8 _ n.toNat_lt, UInt64.ofNat_toNat]

theorem putUint64_injective : Function.Injective putUint64 := by
  intro n m same
  have read := congrArg uint64 same
  rw [uint64_putUint64, uint64_putUint64] at read
  exact Option.some.inj read

def blockKey (blkNum : UInt64) : Bytes := putUint64 blkNum

def heightKey : Bytes := octets "height"

def hashIndexKey (txid : Bytes) : Bytes := octets "index" ++ txid

def nonceKey (address : Address) : Bytes := octets "nonce" ++ address.val

def wrongIndexKey (txid : Bytes) : Bytes := octets "wrong" ++ txid

def stateKey (chainID key : Bytes) : Bytes := chainID ++ octets "#" ++ key

def getKey (chainId : Bytes) (epochNo : UInt64) : Bytes := chainId ++ Decimal.formatUint epochNo

/-- The kinds of records. Only the two contracts have state, and epochs are filed under `hnb`. -/
inductive Record where
  | block (blkNum : UInt64)
  | height
  | hashIndex (txid : Bytes)
  | nonce (address : Address)
  | wrongIndex (txid : Bytes)
  | state (chainID : ChainID) (key : Bytes)
  | epoch (epochNo : UInt64)
  deriving DecidableEq

def Record.key : Record → Bytes
  | block blkNum => blockKey blkNum
  | height => heightKey
  | hashIndex txid => hashIndexKey txid
  | nonce address => nonceKey address
  | wrongIndex txid => wrongIndexKey txid
  | state chainID key => stateKey (octets chainID.text) key
  | epoch epochNo => getKey (octets ChainID.hnb.text) epochNo

/-- The key of a small block number starts with a zero, no other key does. -/
def Record.Small : Record → Prop
  | block blkNum => blkNum.toNat < 2 ^ 56
  | _ => True

instance Record.decidableSmall : (r : Record) → Decidable r.Small
  | block blkNum => inferInstanceAs (Decidable (blkNum.toNat < 2 ^ 56))
  | height | hashIndex _ | nonce _ | wrongIndex _ | state _ _ | epoch _ => .isTrue trivial

/-! ## The host -/

/-- What stands under a key. -/
inductive Value where
  | bytes (raw : Bytes)
  | block (blk : StoredBlock)
  | index (blockNum : UInt64) (offset : UInt32)

inductive StoreErr where
  | database
  | json
  | new (text : String)
  deriving DecidableEq

inductive Outcome where
  | done
  | fails
  | stops
  deriving DecidableEq

structure Host where
  content : Store Bytes Value
  batch : Option (List (Bytes × Option Value))
  blockCache : Store UInt64 StoredBlock
  stateCache : Store Bytes Bytes
  nonceCache : Store Bytes UInt64
  /-- How many operations the database was asked for. -/
  asked : Nat

def Host.empty : Host := ⟨∅, none, ∅, ∅, ∅, 0⟩

/-- A computation on the host. `none` is a process that has stopped, or panicked. -/
structure Io (α : Type) where
  run : (Nat → Outcome) → Host → Option α × Host

namespace Io

variable {α β : Type}

def pure (a : α) : Io α := ⟨fun _ host => (some a, host)⟩

def bind (p : Io α) (f : α → Io β) : Io β where
  run outcome host :=
    match p.run outcome host with
    | (some a, host') => (f a).run outcome host'
    | (none, host') => (none, host')

instance : Monad Io where
  pure := pure
  bind := bind

end Io

/-- An operation of the database, with the number it has in the schedule of outcomes. -/
def operation {α : Type} (effect : Host → α × Host) : Io (Except StoreErr α) where
  run outcome host :=
    match outcome host.asked with
    | .done => (some (.ok (effect host).1), { (effect host).2 with asked := host.asked + 1 })
    | .fails => (some (.error .database), { host with asked := host.asked + 1 })
    | .stops => (none, host)

def panics {α : Type} : Io α := ⟨fun _ host => (none, host)⟩

def modify (change : Host → Host) : Io Unit := ⟨fun _ host => (some (), change host)⟩

def read {α : Type} (look : Host → α) : Io α := ⟨fun _ host => (some (look host), host)⟩

def put (key : Bytes) (value : Value) : Io (Except StoreErr Unit) :=
  operation fun host => ((), { host with content := host.content.insert key value })

def get (key : Bytes) : Io (Except StoreErr (Option Value)) :=
  operation fun host => (find host.content key, host)

def delete (key : Bytes) : Io (Except StoreErr Unit) :=
  operation fun host => ((), { host with content := host.content.erase key })

def newBatch : Io Unit := modify fun host => { host with batch := some [] }

def applyBatch (batch : List (Bytes × Option Value)) (content : Store Bytes Value) :
    Store Bytes Value :=
  batch.foldl (fun content (key, value) =>
    match value with
    | some value => content.insert key value
    | none => content.erase key) content

def batchCommit : Io (Except StoreErr Unit) :=
  operation fun host => ((), { host with
    content := applyBatch (host.batch.getD []) host.content
    batch := none })

/-! ## The stores

What a store makes of the value under a key. A value of another kind would be read as JSON, or as
octets of a number; no key is shared, so it does not matter what that gives. -/

/-- No value unmarshals as little as another kind's. -/
def asBlock : Option Value → Except StoreErr StoredBlock
  | some (.block blk) => .ok blk
  | _ => .error .json

/-- Nothing is zero, and `none` a panic. -/
def asNumber : Option Value → Option UInt64
  | none => some 0
  | some (.bytes b) => uint64 b
  | some _ => none

def asIndex : Option Value → Except StoreErr (Option (UInt64 × UInt32))
  | none => .ok none
  | some (.index blockNum offset) => .ok (some (blockNum, offset))
  | some _ => .error .json

def asState : Option Value → Except StoreErr (Option Bytes)
  | none => .ok none
  | some (.bytes v) => .ok (some v)
  | some _ => .error .json

def asReason : Option Value → Except StoreErr Bytes
  | none => .ok []
  | some (.bytes reason) => .ok reason
  | some _ => .error .json

def asEpoch : Option Value → Except StoreErr Bytes
  | some (.bytes epochData) => .ok epochData
  | _ => .error .json

/-- `if err != nil { return err }`, then the value. -/
def getAs {α : Type} (key : Bytes) (decode : Option Value → Except StoreErr α) :
    Io (Except StoreErr α) := do
  match ← get key with
  | .error e => return .error e
  | .ok value => return decode value

def getNumber (key : Bytes) : Io (Except StoreErr UInt64) := do
  match ← get key with
  | .error e => return .error e
  | .ok value =>
    match asNumber value with
    | some number => return .ok number
    | none => panics

def getBlockHeight : Io (Except StoreErr UInt64) := getNumber heightKey

def setBlockHeight (height : UInt64) : Io (Except StoreErr Unit) :=
  put heightKey (.bytes (putUint64 height))

def writeBlock (blk : StoredBlock) : Io (Except StoreErr Unit) := do
  modify fun host => { host with blockCache := host.blockCache.insert blk.block.blockNum blk }
  put (blockKey blk.block.blockNum) (.block blk)

def getBlock (blkNum : UInt64) : Io (Except StoreErr StoredBlock) := do
  match ← read fun host => find host.blockCache blkNum with
  | some blk => return .ok blk
  | none => getAs (blockKey blkNum) asBlock

def rollbackBlock (blkNum : UInt64) : Io (Except StoreErr Unit) := do
  modify fun host => { host with blockCache := host.blockCache.erase blkNum }
  let _ ← delete (blockKey blkNum)
  return .ok ()

/-- The offset is cut to 32 bits. -/
def setHashIndexFrom (blkNum : UInt64) : Nat → List Transaction → Io (Except StoreErr Unit)
  | _, [] => return .ok ()
  | i, tx :: rest => do
    match ← put (hashIndexKey tx.txid) (.index blkNum (UInt32.ofNat i)) with
    | .error e => return .error e
    | .ok () => setHashIndexFrom blkNum (i + 1) rest

def setHashIndex (blk : StoredBlock) : Io (Except StoreErr Unit) :=
  setHashIndexFrom blk.block.blockNum 0 blk.block.txs

def findHashIndex (txid : Bytes) : Io (Except StoreErr (Option (UInt64 × UInt32))) :=
  getAs (hashIndexKey txid) asIndex

def setNonce (address : Address) (nonce : UInt64) : Io (Except StoreErr Unit) := do
  modify fun host => { host with nonceCache := host.nonceCache.insert (nonceKey address) nonce }
  put (nonceKey address) (.bytes (putUint64 nonce))

/-- What the cache holds is read as well, and not used. -/
def getNonce (address : Address) : Io (Except StoreErr UInt64) := getNumber (nonceKey address)

def setWrongIndex (txid reason : Bytes) : Io (Except StoreErr Unit) :=
  put (wrongIndexKey txid) (.bytes reason)

def getWrongIndex (txid : Bytes) : Io (Except StoreErr Bytes) := getAs (wrongIndexKey txid) asReason

def setState (chainID key state : Bytes) : Io (Except StoreErr Unit) := do
  modify fun host => { host with stateCache := host.stateCache.insert (stateKey chainID key) state }
  put (stateKey chainID key) (.bytes state)

def deleteState (chainID key : Bytes) : Io (Except StoreErr Unit) := do
  modify fun host => { host with stateCache := host.stateCache.erase (stateKey chainID key) }
  delete (stateKey chainID key)

def getState (chainID key : Bytes) : Io (Except StoreErr (Option Bytes)) := do
  match ← read fun host => find host.stateCache (stateKey chainID key) with
  | some v => return .ok (some v)
  | none => getAs (stateKey chainID key) asState

/-- The epoch is written and read back as its JSON text. -/
def recordEpochInfo (epochNo : UInt64) (epochData : Bytes) : Io (Except StoreErr Unit) :=
  put (getKey (octets ChainID.hnb.text) epochNo) (.bytes epochData)

/-- The error of the database is overwritten by that of `Unmarshal`. -/
def loadEpochInfo (epochNo : UInt64) : Io (Except StoreErr Bytes) := do
  match ← get (getKey (octets ChainID.hnb.text) epochNo) with
  | .error _ => return .error .json
  | .ok value => return asEpoch value

/-! ## Writing a block -/

inductive ItemState where
  | none
  | changed
  | deleted
  deriving DecidableEq

structure StateItem where
  key : Bytes
  value : Bytes
  state : ItemState
  chainID : Bytes
  deriving DecidableEq

/-- The errors of the stores are not looked at. -/
def setStateItems : List StateItem → Io Unit
  | [] => return ()
  | v :: rest => do
    if v.state = .deleted then
      let _ ← deleteState v.chainID v.key
    else
      let _ ← setState v.chainID v.key v.value
    setStateItems rest

def setNonces : List NonceItem → Io Unit
  | [] => return ()
  | v :: rest => do
    let _ ← setNonce v.key v.nonce
    setNonces rest

def setContractState (si : List StateItem) : Io (Except StoreErr Unit) := do
  newBatch
  setStateItems si
  let _ ← batchCommit
  return .ok ()

/-- The writes of `WriteLedger`. The database is closed after an error, which leaves its content as
it is. -/
def writeRecords (blk : StoredBlock) (si : List StateItem) (ni : List NonceItem) :
    Io (Except StoreErr Unit) := do
  let _ ← writeBlock blk
  setStateItems si
  match ← setBlockHeight (blk.block.blockNum + 1) with
  | .error e => return .error e
  | .ok () =>
    match ← setHashIndex blk with
    | .error e => return .error e
    | .ok () =>
      setNonces ni
      let _ ← batchCommit
      return .ok ()

/-- A height that cannot be read makes the call return nil. -/
def writeLedger (blk : StoredBlock) (si : List StateItem) (ni : List NonceItem) :
    Io (Except StoreErr Unit) := do
  match ← getBlockHeight with
  | .error _ => return .ok ()
  | .ok h =>
    if blk.block.blockNum ≠ h then return .error (.new "height invalid")
    newBatch
    writeRecords blk si ni

def getTransaction (blkNum : UInt64) (offset : UInt32) : Io (Except StoreErr Transaction) := do
  match ← getBlock blkNum with
  | .error e => return .error e
  | .ok blk =>
    if UInt32.ofNat blk.block.txs.length < offset + 1 then
      return .error (.new "txLen or offset invalid")
    match blk.block.txs[offset.toNat]? with
    | some tx => return .ok tx
    | none => panics

/-- The caches may drop any of their entries at any time. -/
def Host.evict (host : Host) (blkNums : List UInt64) (keys : List Bytes) : Host :=
  { host with
    blockCache := blkNums.foldl (fun cache blkNum => cache.erase blkNum) host.blockCache
    stateCache := keys.foldl (fun cache key => cache.erase key) host.stateCache }

/-! ## Running without faults -/

/-- Every operation of the database succeeds. -/
def calm : Nat → Outcome := fun _ => .done

theorem run_bind {α β : Type} (p : Io α) (f : α → Io β) (outcome : Nat → Outcome) (host : Host) :
    (p >>= f).run outcome host =
      match p.run outcome host with
      | (some a, host') => (f a).run outcome host'
      | (none, host') => (none, host') := rfl

/-- What follows a computation that has returned. -/
theorem run_bind_some {α β : Type} {p : Io α} {f : α → Io β} {outcome : Nat → Outcome}
    {host host' : Host} {a : α} (h1 : p.run outcome host = (some a, host')) :
    (p >>= f).run outcome host = (f a).run outcome host' := by
  rw [run_bind, h1]

/-- The host after one more operation. -/
def Host.tick (host : Host) : Host := { host with asked := host.asked + 1 }

theorem getAs_calm {α : Type} (key : Bytes) (decode : Option Value → Except StoreErr α)
    (host : Host) :
    (getAs key decode).run calm host = (some (decode (find host.content key)), host.tick) := rfl

theorem get_calm (key : Bytes) (host : Host) :
    (get key).run calm host = (some (.ok (find host.content key)), host.tick) := rfl

theorem getNumber_calm (key : Bytes) (host : Host) :
    (getNumber key).run calm host = ((asNumber (find host.content key)).map .ok, host.tick) := by
  unfold getNumber
  rw [run_bind_some (get_calm key host)]
  dsimp only
  cases asNumber (find host.content key) <;> rfl

theorem getBlock_calm (blkNum : UInt64) (host : Host) : ((getBlock blkNum).run calm host).1 =
      some ((find host.blockCache blkNum).elim
        (asBlock (find host.content (blockKey blkNum))) .ok) := by
  have hc : (read (fun host => find host.blockCache blkNum)).run calm host =
      (some (find host.blockCache blkNum), host) := rfl
  unfold getBlock
  rw [run_bind_some hc]
  cases find host.blockCache blkNum <;> rfl

theorem getState_calm (chainID key : Bytes) (host : Host) :
    ((getState chainID key).run calm host).1 =
    some ((find host.stateCache (stateKey chainID key)).elim
      (asState (find host.content (stateKey chainID key))) fun v => .ok (some v)) := by
  have hc : (read (fun host => find host.stateCache (stateKey chainID key))).run calm host =
      (some (find host.stateCache (stateKey chainID key)), host) := rfl
  unfold getState
  rw [run_bind_some hc]
  cases find host.stateCache (stateKey chainID key) <;> rfl

theorem loadEpochInfo_calm (epochNo : UInt64) (host : Host) :
    ((loadEpochInfo epochNo).run calm host).1 =
      some (asEpoch (find host.content (getKey (octets ChainID.hnb.text) epochNo))) := rfl

/-- From here on every operation succeeds. -/
def Quiet (outcome : Nat → Outcome) (host : Host) : Prop := ∀ i, host.asked ≤ i → outcome i = .done

theorem quiet_calm (host : Host) : Quiet calm host := fun _ _ => rfl

/-- A change of the database under a key. -/
abbrev DbWrite := Sigma fun _ : Bytes => Change Value

def StateItem.write (v : StateItem) : DbWrite :=
  ⟨stateKey v.chainID v.key, if v.state = .deleted then .deleted else .changed (.bytes v.value)⟩

def nonceWrite (v : NonceItem) : DbWrite := ⟨nonceKey v.key, .changed (.bytes (putUint64 v.nonce))⟩

def indexWrites (blkNum : UInt64) : Nat → List Transaction → List DbWrite
  | _, [] => []
  | i, tx :: rest =>
    ⟨hashIndexKey tx.txid, .changed (.index blkNum (UInt32.ofNat i))⟩ ::
    indexWrites blkNum (i + 1) rest

/-- What a block leaves in the database. -/
def blockWrites (blk : StoredBlock) (si : List StateItem) (ni : List NonceItem) : List DbWrite :=
  ⟨blockKey blk.block.blockNum, .changed (.block blk)⟩ :: (si.map StateItem.write ++
    (⟨heightKey, .changed (.bytes (putUint64 (blk.block.blockNum + 1)))⟩ ::
      (indexWrites blk.block.blockNum 0 blk.block.txs ++ ni.map nonceWrite)))

/-- From where nothing fails any more and nothing waits in the batch, the computation makes the
writes one by one, changes the cache of blocks and returns `a`. -/
def Io.Writes {α : Type} (outcome : Nat → Outcome) (p : Io α)
    (cached : Store UInt64 StoredBlock → Store UInt64 StoredBlock)
    (ws : List DbWrite) (a : α) : Prop :=
  ∀ host : Host, host.batch.getD [] = [] → Quiet outcome host → ∃ host',
    p.run outcome host = (some a, host') ∧
    host'.content = commit ws host.content ∧ host'.blockCache = cached host.blockCache ∧
    host'.batch.getD [] = [] ∧ Quiet outcome host'

section Quiet

variable {outcome : Nat → Outcome} {host host' : Host}

theorem operation_done {α : Type} (now : outcome host.asked = .done) (effect : Host → α × Host) :
    (operation effect).run outcome host =
      (some (.ok (effect host).1), { (effect host).2 with asked := host.asked + 1 }) := by
  unfold operation
  dsimp only
  rw [now]

theorem operation_fails {α : Type} (now : outcome host.asked = .fails) (effect : Host → α × Host) :
    (operation effect).run outcome host = (some (.error .database), host.tick) := by
  unfold operation
  dsimp only
  rw [now]
  rfl

theorem operation_stops {α : Type} (now : outcome host.asked = .stops) (effect : Host → α × Host) :
    (operation effect).run outcome host = (none, host) := by
  unfold operation
  dsimp only
  rw [now]

theorem Quiet.now (hq : Quiet outcome host) : outcome host.asked = .done :=
    hq host.asked le_rfl

theorem Quiet.next {host' : Host} (hq : Quiet outcome host) (hla : host'.asked = host.asked + 1) :
    Quiet outcome host' := fun i haf => hq i (by omega)

theorem Io.Writes.bind {α β : Type} {p : Io α} {f : α → Io β} {a : α} {b : β}
    {ws ws' all : List DbWrite}
    {cached cached' cachedAll : Store UInt64 StoredBlock → Store UInt64 StoredBlock}
    (h1 : p.Writes outcome cached ws a) (h2 : (f a).Writes outcome cached' ws' b)
    (caches : cached' ∘ cached = cachedAll) (hj : ws ++ ws' = all) :
    (p >>= f).Writes outcome cachedAll all b := by
  intro host he hq
  obtain ⟨middle, ran, hco, cache, he, hq⟩ := h1 host he hq
  obtain ⟨last, reran, content', cache', rest⟩ := h2 middle he hq
  refine ⟨last, (run_bind_some ran).trans reran, ?_, ?_, rest⟩
  · rw [content', hco, ← hj, commit_append]
  · rw [cache', cache, ← caches]
    rfl

theorem pure_writes {α : Type} (a : α) : (Io.pure a).Writes outcome id [] a :=
  fun host he hq => ⟨host, rfl, rfl, rfl, he, hq⟩

theorem put_writes (key : Bytes) (value : Value) :
    (put key value).Writes outcome id [⟨key, .changed value⟩] (.ok ()) :=
  fun _ he hq => ⟨_, operation_done hq.now _, rfl, rfl, he, hq.next rfl⟩

theorem delete_writes (key : Bytes) : (delete key).Writes outcome id [⟨key, .deleted⟩] (.ok ()) :=
  fun _ he hq => ⟨_, operation_done hq.now _, rfl, rfl, he, hq.next rfl⟩

/-- A change of the caches. -/
theorem modify_writes (cached : Store UInt64 StoredBlock → Store UInt64 StoredBlock)
    (stateCache : Store Bytes Bytes → Store Bytes Bytes)
    (nonceCache : Store Bytes UInt64 → Store Bytes UInt64) : (modify fun host => { host with
      blockCache := cached host.blockCache
      stateCache := stateCache host.stateCache
      nonceCache := nonceCache host.nonceCache }).Writes outcome cached [] () :=
  fun _ he hq => ⟨_, rfl, rfl, rfl, he, hq⟩

/-- Nothing is in the batch that is committed. -/
theorem batchCommit_writes : (batchCommit >>= fun _ => Io.pure (.ok ())).Writes outcome id []
    (.ok () : Except StoreErr Unit) := by
  intro host he hq
  refine ⟨_, run_bind_some (operation_done hq.now _), ?_, rfl, rfl, hq.next rfl⟩
  change applyBatch (host.batch.getD []) host.content = host.content
  rw [he]
  rfl

theorem setStateItem_writes (v : StateItem) :
    (if v.state = .deleted then deleteState v.chainID v.key
      else setState v.chainID v.key v.value).Writes outcome id [v.write] (.ok ()) := by
  unfold StateItem.write
  split_ifs
  · exact (modify_writes id _ id).bind (delete_writes _) rfl rfl
  · exact (modify_writes id _ id).bind (put_writes _ _) rfl rfl

theorem setStateItems_writes (si : List StateItem) :
    (setStateItems si).Writes outcome id (si.map StateItem.write) () := by
  induction si with
  | nil => exact pure_writes ()
  | cons v rest ih =>
    have item := @setStateItem_writes outcome v
    unfold setStateItems
    split_ifs at item ⊢
    · exact item.bind ih rfl rfl
    · exact item.bind ih rfl rfl

theorem setContractState_quiet (hq : Quiet outcome host) (si : List StateItem) :
    ((setContractState si).run outcome host).1 = some (.ok ()) ∧
      ((setContractState si).run outcome host).2.content =
        commit (si.map StateItem.write) host.content := by
  have writes : (setStateItems si >>= fun _ => batchCommit >>= fun _ =>
    Io.pure (Except.ok ())).Writes outcome id
      (si.map StateItem.write) (.ok ()) :=
      (setStateItems_writes si).bind batchCommit_writes rfl (append_nil _)
  obtain ⟨host', ran, hco, _⟩ := writes { host with batch := some [] } rfl hq
  have ran : (setContractState si).run outcome host = (some (.ok ()), host') := ran
  rw [ran]
  exact ⟨rfl, hco⟩

theorem setHashIndexFrom_writes (blkNum : UInt64) (i : Nat) (txs : List Transaction) :
    (setHashIndexFrom blkNum i txs).Writes outcome id (indexWrites blkNum i txs) (.ok ()) := by
  induction txs generalizing i with
  | nil => exact pure_writes (Except.ok ())
  | cons tx rest ih => exact (put_writes _ _).bind (ih (i + 1)) rfl rfl

theorem setNonces_writes (ni : List NonceItem) :
    (setNonces ni).Writes outcome id (ni.map nonceWrite) () := by
  induction ni with
  | nil => exact pure_writes ()
  | cons v rest ih =>
    have nonce : (setNonce v.key v.nonce).Writes outcome id [nonceWrite v] (.ok ()) :=
      (modify_writes id id _).bind (put_writes _ _) rfl rfl
    exact nonce.bind ih rfl rfl

/-- The height is read first, and a block of another number refused. -/
theorem writeLedger_run (outcome : Nat → Outcome) (host : Host) (blk : StoredBlock)
    (si : List StateItem) (ni : List NonceItem) : (writeLedger blk si ni).run outcome host =
      match outcome host.asked, asNumber (find host.content heightKey) with
      | .stops, _ => (none, host)
      | .fails, _ => (some (.ok ()), host.tick)
      | .done, none => (none, host.tick)
      | .done, some h =>
        if blk.block.blockNum = h then (writeRecords blk si ni).run outcome
          { host.tick with batch := some [] }
        else (some (.error (.new "height invalid")), host.tick) := by
  unfold writeLedger getBlockHeight getNumber get
  rw [run_bind, run_bind]
  cases now : outcome host.asked with
  | stops => rw [operation_stops now]
  | fails =>
    rw [operation_fails now]
    rfl
  | done =>
    rw [operation_done now]
    dsimp only
    cases asNumber (find host.content heightKey) with
    | none => rfl
    | some h =>
      dsimp only [Pure.pure, Io.pure]
      rw [ite_not]
      split_ifs <;> rfl

/-- The stores write as they are called, and the batch that is committed is empty. -/
theorem writeRecords_writes (blk : StoredBlock) (si : List StateItem) (ni : List NonceItem) :
    (writeRecords blk si ni).Writes outcome (·.insert blk.block.blockNum blk)
      (blockWrites blk si ni) (.ok ()) := by
  have block : (writeBlock blk).Writes outcome (·.insert blk.block.blockNum blk)
      [⟨blockKey blk.block.blockNum, .changed (.block blk)⟩] (.ok ()) :=
    (modify_writes _ id id).bind (put_writes _ _) rfl rfl
  exact block.bind ((setStateItems_writes si).bind
    ((put_writes _ _).bind ((setHashIndexFrom_writes _ _ _).bind
      ((setNonces_writes ni).bind batchCommit_writes rfl (append_nil _)) rfl rfl) rfl rfl)
    rfl rfl) rfl rfl

theorem writeLedger_accepted {blk : StoredBlock} (hq : Quiet outcome host)
    (height : asNumber (find host.content heightKey) = some blk.block.blockNum)
    (si : List StateItem)
    (ni : List NonceItem) : ∃ host', (writeLedger blk si ni).run outcome host =
    (some (.ok ()), host') ∧ host'.content = commit (blockWrites blk si ni) host.content ∧
      host'.blockCache = host.blockCache.insert blk.block.blockNum blk := by
  obtain ⟨host', hw, hco, cache, _⟩ :=
    writeRecords_writes blk si ni { host.tick with batch := some [] } rfl (hq.next rfl)
  rw [writeLedger_run, hq.now, height]
  exact ⟨host', (if_pos rfl).trans hw, hco, cache⟩

end Quiet

/-! ## No two records have one key -/

namespace Record

def kind : Record → Nat
  | block _ => 0
  | height => 1
  | hashIndex _ => 2
  | nonce _ => 3
  | wrongIndex _ => 4
  | state _ _ => 5
  | epoch _ => 6

/-- The kind can be told from the first four octets of the key. -/
def kindOf : Bytes → Option Nat
  | first :: second :: _ :: fourth :: _ =>
    some (if first = 0 then 0
      else if first = 105 then 2
      else if first = 110 then 3
      else if first = 119 then 4
      else if second = 101 then 1
      else if fourth = 35 then 5
      else 6)
  | _ => none

theorem kindOf_key {r : Record} (hs : r.Small) : kindOf r.key = some r.kind := by
  cases r with
  | block blkNum =>
    have length : (block blkNum).key.length = 8 := Octets.length_bigEndian 8 _
    obtain ⟨rest, hst⟩ : ∃ rest, (block blkNum).key = 0 :: rest :=
      Octets.bigEndian_head 7 blkNum.toNat hs
    rw [hst] at length ⊢
    rcases rest with _ | ⟨second, _ | ⟨third, _ | ⟨fourth, rest⟩⟩⟩
    · cases length
    · cases length
    · cases length
    · rfl
  | height => rfl
  | hashIndex txid => rfl
  | nonce address => rfl
  | wrongIndex txid => rfl
  | state chainID key => cases chainID <;> rfl
  | epoch epochNo =>
    obtain ⟨digit, rest, format⟩ := exists_cons_of_ne_nil (Decimal.formatNat_ne_nil epochNo.toNat)
    have range := Decimal.mem_formatNat epochNo.toNat digit (format ▸ mem_cons_self)
    have other : digit ≠ 35 := by
      rintro rfl
      exact absurd range.1 (by decide)
    have key : (epoch epochNo).key = 104 :: 110 :: 98 :: digit :: rest := by
      change octets ChainID.hnb.text ++ Decimal.formatNat epochNo.toNat = _
      rw [format]
      rfl
    rw [key]
    simp [kindOf, other, kind]

theorem key_inj {r q : Record} (hs : r.Small) (small' : q.Small)
    (same : r.key = q.key) : r = q := by
  have kinds : r.kind = q.kind := Option.some.inj
    (by rw [← kindOf_key hs, same, kindOf_key small'])
  cases r with
  | block blkNum =>
    cases q with
    | block blkNum' => rw [putUint64_injective same]
    | _ => cases kinds
  | height =>
    cases q with
    | height => rfl
    | _ => cases kinds
  | hashIndex txid =>
    cases q with
    | hashIndex txid' => rw [append_cancel_left same]
    | _ => cases kinds
  | nonce address =>
    cases q with
    | nonce address' => rw [Subtype.ext (append_cancel_left same)]
    | _ => cases kinds
  | wrongIndex txid =>
    cases q with
    | wrongIndex txid' => rw [append_cancel_left same]
    | _ => cases kinds
  | state chainID key =>
    cases q with
    | state chainID' key' =>
      have lengths : (octets chainID.text ++ octets "#").length =
          (octets chainID'.text ++ octets "#").length := by
        cases chainID <;> cases chainID' <;> decide
      obtain ⟨names, keys⟩ := append_inj same lengths
      rw [chainID_of_text _ _ (append_cancel_right names), keys]
    | _ => cases kinds
  | epoch epochNo =>
    cases q with
    | epoch epochNo' => rw [Decimal.formatUint_injective (append_cancel_left same)]
    | _ => cases kinds

theorem key_ne_of_kind {r q : Record} (hs : r.Small) (small' : q.Small) (kinds : r.kind ≠ q.kind) :
    r.key ≠ q.key := fun same => kinds (congrArg kind (key_inj hs small' same))

end Record

/-! ## The keys a block writes -/

variable {r : Record}

theorem key_notMem_states {si : List StateItem}
    (chains : ∀ v ∈ si, ∃ chain : ChainID, v.chainID = octets chain.text)
    (hs : r.Small) (kind : r.kind ≠ 5) : r.key ∉ (si.map StateItem.write).map Sigma.fst := by
  intro hm
  rw [map_map] at hm
  obtain ⟨v, hl, same⟩ := mem_map.mp hm
  obtain ⟨chain, name⟩ := chains v hl
  refine Record.key_ne_of_kind hs (q := .state chain v.key) trivial kind ?_
  rw [← same]
  change stateKey v.chainID v.key = _
  rw [name]
  rfl

theorem key_notMem_nonces {ni : List NonceItem} (hs : r.Small) (kind : r.kind ≠ 3) :
    r.key ∉ (ni.map nonceWrite).map Sigma.fst := by
  intro hm
  rw [map_map] at hm
  obtain ⟨v, _, same⟩ := mem_map.mp hm
  exact Record.key_ne_of_kind hs (q := .nonce v.key) trivial kind same.symm

theorem mem_indexWrites {blkNum : UInt64} {i : Nat} {txs : List Transaction} {key : Bytes}
    (hm : key ∈ (indexWrites blkNum i txs).map Sigma.fst) :
    ∃ tx ∈ txs, key = hashIndexKey tx.txid := by
  induction txs generalizing i with
  | nil => cases hm
  | cons tx rest ih =>
    rcases mem_cons.mp hm with rfl | hla
    · exact ⟨tx, mem_cons_self, rfl⟩
    · obtain ⟨tx', hl, same⟩ := ih hla
      exact ⟨tx', mem_cons_of_mem _ hl, same⟩

theorem key_notMem_index {blkNum : UInt64} {i : Nat} {txs : List Transaction} (hs : r.Small)
    (other : ∀ tx ∈ txs, r ≠ .hashIndex tx.txid) :
    r.key ∉ (indexWrites blkNum i txs).map Sigma.fst := by
  intro hm
  obtain ⟨tx, hl, same⟩ := mem_indexWrites hm
  exact other tx hl (Record.key_inj hs (q := .hashIndex tx.txid) trivial same)

section

variable (blk : StoredBlock) (si : List StateItem) (ni : List NonceItem) (base : Store Bytes Value)

theorem find_blockWrites_height : find (commit (blockWrites blk si ni) base) heightKey =
    some (.bytes (putUint64 (blk.block.blockNum + 1))) := by
  refine find_commit_last (⟨blockKey blk.block.blockNum, .changed (.block blk)⟩ ::
    si.map StateItem.write) ⟨heightKey,
    .changed (.bytes (putUint64 (blk.block.blockNum + 1)))⟩ _ base ?_
  rw [map_append, mem_append, not_or]
  exact ⟨key_notMem_index (r := .height) trivial (fun _ _ => nofun),
    key_notMem_nonces (r := .height) trivial (by decide)⟩

theorem find_blockWrites_block (hs : (Record.block blk.block.blockNum).Small)
    (chains : ∀ v ∈ si, ∃ chain : ChainID, v.chainID = octets chain.text) :
    find (commit (blockWrites blk si ni) base)
      (blockKey blk.block.blockNum) = some (.block blk) := by
  refine find_commit_last [] ⟨blockKey blk.block.blockNum, .changed (.block blk)⟩ _ base
    fun hm => ?_
  simp only [map_cons, map_append, mem_cons, mem_append] at hm
  rcases hm with same | same | same | same
  · exact key_notMem_states chains hs nofun same
  · exact Record.key_ne_of_kind hs (q := .height) trivial nofun same
  · exact key_notMem_index hs (fun _ _ => nofun) same
  · exact key_notMem_nonces hs nofun same

end

/-- The index entry of an id that a block has is that of its last transaction with this id. -/
theorem find_indexWrites (blkNum : UInt64) (i : Nat) (txs : List Transaction)
    (base : Store Bytes Value)
    {tx : Transaction} (hl : tx ∈ txs) : ∃ j tx', txs[j]? = some tx' ∧ tx'.txid = tx.txid ∧
      find (commit (indexWrites blkNum i txs) base) (hashIndexKey tx.txid) =
        some (.index blkNum (UInt32.ofNat (i + j))) := by
  induction txs generalizing i base tx with
  | nil => cases hl
  | cons first rest ih =>
    have hla : ∀ tx' ∈ rest, tx'.txid = tx.txid → ∃ j tx', (first :: rest)[j]? = some tx' ∧
        tx'.txid = tx.txid ∧ find (commit (indexWrites blkNum i (first :: rest)) base)
          (hashIndexKey tx.txid) = some (.index blkNum (UInt32.ofNat (i + j))) := by
      intro again hm same
      obtain ⟨j, tx', at_j, txid, hf⟩ := ih (i + 1)
        (commit [⟨hashIndexKey first.txid, .changed (.index blkNum (UInt32.ofNat i))⟩] base) hm
      refine ⟨j + 1, tx', at_j, txid.trans same, ?_⟩
      rw [← same, show i + (j + 1) = i + 1 + j by omega]
      exact hf
    by_cases again : ∃ tx' ∈ rest, tx'.txid = tx.txid
    · obtain ⟨tx', hm, same⟩ := again
      exact hla tx' hm same
    · rcases mem_cons.mp hl with rfl | hm
      · refine ⟨0, tx, rfl, rfl, ?_⟩
        have ha : hashIndexKey tx.txid ∉ (indexWrites blkNum (i + 1) rest).map Sigma.fst := by
          refine key_notMem_index (r := .hashIndex tx.txid) trivial fun tx' hm same => ?_
          exact again ⟨tx', hm, (Record.hashIndex.inj same).symm⟩
        exact find_commit_last [] ⟨hashIndexKey tx.txid,
          .changed (.index blkNum (UInt32.ofNat i))⟩ _ base ha
      · exact hla tx hm rfl

end HNBChain.Audit.Source.Database
