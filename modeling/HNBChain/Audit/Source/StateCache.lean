import HNBChain.Audit.Source.Database

/-!
# The changes a contract call makes

`StateCache` files the changes of a call by the name of the chain and the key, joined without a sign
between them, each as a record of its own with a mark for a deletion. Reads look there first and
then in the ledger.

`invoke_alike` is the connection to the model of block processing, where pending changes are kept by
contract and key.
-/
namespace HNBChain.Audit.Source.StateCache

open Lib Source.Database StateCache

abbrev Cache := Store Bytes StateItem

def put (chainID key value : Bytes) (db : Cache) : Cache :=
  db.insert (chainID ++ key) ⟨key, value, .changed, chainID⟩

def get (chainID key : Bytes) (db : Cache) : Option StateItem := find db (chainID ++ key)

/-- A record that is there is marked in place, with the value it has. -/
def delete (chainID key : Bytes) (db : Cache) : Cache :=
  match find db (chainID ++ key) with
  | some v => db.insert (chainID ++ key) { v with state := .deleted }
  | none => db.insert (chainID ++ key) ⟨key, [], .deleted, chainID⟩

/-- `Find` ranges over the map: the records in any order. -/
def Find (db : Cache) (items : List StateItem) : Prop :=
  (items : Multiset StateItem) = db.entries.map Sigma.snd

/-! ## contractApi -/

structure Api where
  sc : Cache
  chainID : Bytes

namespace Api

def isDelState (s : Api) (chainID key : Bytes) : Bool :=
  match get chainID key s.sc with
  | some v => v.state = .deleted
  | none => false

def getOtherState (s : Api) (chainID key : Bytes) : Io (Except StoreErr (Option Bytes)) := do
  if s.isDelState chainID key then return .ok none
  match get chainID key s.sc with
  | none => Database.getState chainID key
  | some v => return .ok (some v.value)

def putOtherState (s : Api) (chainID key value : Bytes) : Api :=
  { s with sc := put chainID key value s.sc }

def getState (s : Api) (key : Bytes) : Io (Except StoreErr (Option Bytes)) :=
    s.getOtherState s.chainID key

def putState (s : Api) (key value : Bytes) : Api := s.putOtherState s.chainID key value

def delState (s : Api) (key : Bytes) : Api :=
  { s with sc := delete s.chainID key s.sc }

def GetAllState (s : Api) (items : List StateItem) : Prop := Find s.sc items

end Api

/-! ## What is filed -/

/-- What a record does to the database. -/
def change (v : StateItem) : Change Value :=
  if v.state = .deleted then .deleted else .changed (.bytes v.value)

/-- Every record is filed under its own chain and key. -/
def Filed (db : Cache) : Prop :=
  ∀ filed v, find db filed = some v →
    ∃ key : Key, filed = memoryKey key ∧ v.chainID = octets key.1.text ∧ v.key = key.2

theorem Filed.empty : Filed ∅ := fun _ _ hfo => by cases hfo

section Filed

variable {db : Cache} {chain : ChainID} {key value : Bytes}

theorem Filed.insert (hf : Filed db) {v : StateItem} (chainID : v.chainID = octets chain.text)
    (same : v.key = key) : Filed (db.insert (memoryKey (chain, key)) v) := by
  intro at_ v' hfo
  rw [find_insert] at hfo
  split_ifs at hfo with here
  · obtain rfl := Option.some.inj hfo
    exact ⟨(chain, key), here, chainID, same⟩
  · exact hf at_ v' hfo

theorem Filed.put (hf : Filed db) : Filed (put (octets chain.text) key value db) :=
  hf.insert rfl rfl

/-- Either way there is a record marked as deleted under the key. -/
theorem Filed.delete_eq (hf : Filed db) (chain : ChainID) (key : Bytes) :
    ∃ v : StateItem, v.chainID = octets chain.text ∧ v.key = key ∧ v.state = .deleted ∧
      delete (octets chain.text) key db = db.insert (memoryKey (chain, key)) v := by
  unfold delete
  cases found : find db (octets chain.text ++ key) with
  | none => exact ⟨_, rfl, rfl, rfl, rfl⟩
  | some v =>
    obtain ⟨⟨chain', key'⟩, same, chainID, keys⟩ := hf _ v found
    have pairs : (chain, key) = (chain', key') := memoryKey_injective same
    obtain ⟨rfl, rfl⟩ := Prod.mk.inj pairs
    exact ⟨{ v with state := .deleted }, chainID, keys, rfl, rfl⟩

theorem Filed.delete (hf : Filed db) : Filed (delete (octets chain.text) key db) := by
  obtain ⟨v, chainID, keys, _, eq⟩ := hf.delete_eq chain key
  rw [eq]
  exact hf.insert chainID keys

/-- The change that is filed for a key, if there is one. -/
def filedChange (db : Cache) (key : Key) : Option (Change Value) :=
    (find db (memoryKey key)).map change

theorem filedChange_insert (db : Cache) (k key : Key) (v : StateItem) :
    filedChange (db.insert (memoryKey k) v) key = if key = k then some (change v)
    else filedChange db key := by
  unfold filedChange
  rw [find_insert]
  by_cases same : key = k
  · rw [if_pos (congrArg memoryKey same), if_pos same]
    rfl
  · rw [if_neg (fun eq => same (memoryKey_injective eq)), if_neg same]

theorem filedChange_put (k : Key) (key : Key) :
    filedChange (put (octets k.1.text) k.2 value db) key =
      if key = k then some (.changed (.bytes value)) else filedChange db key :=
  filedChange_insert db k key _

theorem Filed.filedChange_delete (hf : Filed db) (k key : Key) :
    filedChange (StateCache.delete (octets k.1.text) k.2 db) key =
      if key = k then some .deleted else filedChange db key := by
  obtain ⟨v, _, _, deleted, eq⟩ := hf.delete_eq k.1 k.2
  have marked : change v = .deleted := if_pos deleted
  rw [eq, filedChange_insert, marked]

end Filed

/-! ## Block processing

There the pending changes are kept by contract and key. -/

/-- What a call sees above a state. -/
def look (base : World) (db : Cache) (key : Key) : Option Bytes :=
  match find db (memoryKey key) with
  | some v => if v.state = .deleted then none else some v.value
  | none => find base key

theorem look_insert (base : World) (db : Cache) (k key : Key) (v : StateItem) :
    look base (db.insert (memoryKey k) v) key =
      if key = k then (if v.state = .deleted then none else some v.value)
      else look base db key := by
  unfold look
  rw [find_insert]
  by_cases same : key = k
  · rw [if_pos (congrArg memoryKey same), if_pos same]
  · rw [if_neg (fun eq => same (memoryKey_injective eq)), if_neg same]

theorem Filed.look_delete {db : Cache} (hf : Filed db) (base : World) (k key : Key) :
    look base (StateCache.delete (octets k.1.text) k.2 db) key = if key = k
    then none else look base db key := by
  obtain ⟨v, _, _, deleted, eq⟩ := hf.delete_eq k.1 k.2
  rw [eq, look_insert, if_pos deleted]

/-- A cache whose records are filed under their own keys. -/
structure FiledCache where
  db : Cache
  filed : Filed db

def memory (base : World) : Memory Key Bytes FiledCache where
  look s key := look base s.db key
  put key value s := ⟨put (octets key.1.text) key.2 value s.db, s.filed.put⟩
  del key s := ⟨delete (octets key.1.text) key.2 s.db, s.filed.delete⟩
  look_put key _ s k := look_insert base s.db key k _
  look_del key s k := s.filed.look_delete base key k

/-- A call of a contract above the records, and above the pending changes by contract and key: the
same result, and every later read gives the same. -/
theorem invoke_alike {base : World} {s : FiledCache} {pending : Pending Key Bytes}
    (alike : Memory.Alike (memory base) (Memory.overlay base) s pending) (chain : ChainID)
    (tx : Transaction) : (runOn (memory base) (invoke (contractApi chain tx)) s).1 =
        (runOn (Memory.overlay base) (invoke (contractApi chain tx)) pending).1 ∧
      Memory.Alike (memory base) (Memory.overlay base)
        (runOn (memory base) (invoke (contractApi chain tx)) s).2
        (runOn (Memory.overlay base) (invoke (contractApi chain tx)) pending).2 := by
  obtain ⟨hr, ha⟩ := Memory.run_alike alike (invoke (contractApi chain tx))
  exact ⟨hr, ha⟩

end HNBChain.Audit.Source.StateCache
