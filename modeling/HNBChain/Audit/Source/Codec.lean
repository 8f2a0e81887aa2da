import HNBChain.Lib.JsonText
import Mathlib.Data.Finmap
import Mathlib.Data.Finset.Sort

/-!
# The JSON shapes of the contracts

What `json.Unmarshal` makes of a transaction payload, a vote tally (`map[string]int64`) and a vote
record list (`[]*VoteRecord`), and what `json.Marshal` writes for the last two. Field names match
whatever the case of their letters, the last of several equal fields wins, unknown fields are
skipped, `null` leaves a number as it is and empties a byte slice, and one value of the wrong kind
fails the whole text.
-/
namespace HNBChain.Audit.Source

open Lib Json Decimal

def foldCase (b : UInt8) : UInt8 := if 65 ≤ b ∧ b ≤ 90 then b + 32 else b

/-- The octets of a field name or another ASCII text of the source. -/
def octets (text : String) : Bytes := ascii text.toList

def isField (name : String) (key : Bytes) : Bool :=
  key.map foldCase == (octets name).map foldCase

/-- A struct: its zero value, then each member stored by `setField`. -/
def decodeStruct {α : Type} (zero : α) (setField : α → Bytes → Json → Option α) :
    Json → Option α
  | .null => some zero
  | .obj members => members.foldlM (fun acc member => setField acc (unquote member.1) member.2) zero
  | _ => none

def decodeInt64 (old : Int64) : Json → Option Int64
  | .null => some old
  | .num literal => readInt literal
  | _ => none

def decodeUint64 (old : UInt64) : Json → Option UInt64
  | .null => some old
  | .num literal => (parseUint literal).toOption
  | _ => none

def decodeUint8 (old : UInt8) : Json → Option UInt8
  | .null => some old
  | .num literal =>
    match parseUint literal with
    | .ok n => if n.toNat < 256 then some (UInt8.ofNat n.toNat) else none
    | .error _ => none
  | _ => none

/-- A `[]byte`, which may be nil: a base64 string or an array of small numbers. -/
def decodeByteSlice (old : Option Bytes) : Json → Option (Option Bytes)
  | .null => some none
  | .str raw => (Octets.decode64 (unquote raw)).map some
  | .arr items =>
    ((items.zipIdx).mapM fun (item, i) => decodeUint8 ((old.getD []).getD i 0) item).map some
  | _ => none

/-- `HexBytes.UnmarshalJSON`: the raw octets between the quotes, escapes not interpreted. -/
def decodeHexBytes : Json → Option Bytes
  | .str raw => Octets.decodeHex raw
  | _ => none

/-- `HnbTx` and `HgsTx`, which have the same fields. -/
structure ContractTx where
  txType : UInt8 := 0
  payLoad : Bytes := []
  deriving DecidableEq, Repr

structure SameTx where
  outputAddr : Bytes := []
  amount : Int64 := 0
  deriving DecidableEq

structure DiffTx where
  outputAddr : Bytes := []
  amount : Int64 := 0
  inAmount : Int64 := 0
  deriving DecidableEq

structure VoteInfo where
  fromAddr : Option Bytes := none
  candidate : Option Bytes := none
  votingPower : Int64 := 0
  voteEpoch : UInt64 := 0
  deriving DecidableEq

structure VoteRecord where
  fromAddr : Option Bytes := none
  votingPower : Int64 := 0
  deriving DecidableEq

def decodeContractTx (text : Bytes) : Option ContractTx := do
  decodeStruct {} (fun tx key value =>
    if isField "txType" key then (decodeUint8 tx.txType value).map ({ tx with txType := · })
    else if isField "payLoad" key then
      (decodeByteSlice (some tx.payLoad) value).map ({ tx with payLoad := ·.getD [] })
    else some tx) (← parse text)

def decodeSameTx (text : Bytes) : Option SameTx := do
  decodeStruct {} (fun tx key value =>
    if isField "output" key then (decodeHexBytes value).map ({ tx with outputAddr := · })
    else if isField "amount" key then (decodeInt64 tx.amount value).map ({ tx with amount := · })
    else some tx) (← parse text)

def decodeDiffTx (text : Bytes) : Option DiffTx := do
  decodeStruct {} (fun tx key value =>
    if isField "output" key then (decodeHexBytes value).map ({ tx with outputAddr := · })
    else if isField "amount" key then (decodeInt64 tx.amount value).map ({ tx with amount := · })
    else if isField "inAmount" key then
      (decodeInt64 tx.inAmount value).map ({ tx with inAmount := · })
    else some tx) (← parse text)

def decodeVoteInfo (text : Bytes) : Option VoteInfo := do
  decodeStruct {} (fun vi key value =>
    if isField "fromAddr" key then
      (decodeByteSlice vi.fromAddr value).map ({ vi with fromAddr := · })
    else if isField "candidate" key then
      (decodeByteSlice vi.candidate value).map ({ vi with candidate := · })
    else if isField "VotingPower" key then
      (decodeInt64 vi.votingPower value).map ({ vi with votingPower := · })
    else if isField "voteEpoch" key then
      (decodeUint64 vi.voteEpoch value).map ({ vi with voteEpoch := · })
    else some vi) (← parse text)

/-- A `map[string]int64`. -/
abbrev Tally := Finmap fun _ : Bytes => Int64

/-- `none` is a failed decode, `some none` the nil map that `null` leaves behind. -/
def decodeTally (text : Bytes) : Option (Option Tally) := do
  match ← parse text with
  | .null => some none
  | .obj members =>
    (members.foldlM (fun (tally : Tally) member =>
      (decodeInt64 0 member.2).map (tally.insert (unquote member.1) ·)) ∅).map some
  | _ => none

/-- The order in which `json.Marshal` writes the keys of a map. -/
def keyLe (a b : Bytes) : Prop := a.map UInt8.toNat ≤ b.map UInt8.toNat

instance : DecidableRel keyLe := fun a b =>
  inferInstanceAs (Decidable (a.map UInt8.toNat ≤ b.map UInt8.toNat))

instance : IsTrans Bytes keyLe := ⟨fun _ _ _ first second => le_trans first second⟩

instance : Std.Total keyLe := ⟨fun a b => le_total (a.map UInt8.toNat) (b.map UInt8.toNat)⟩

instance : Std.Antisymm keyLe :=
  ⟨fun _ _ first second =>
    List.map_injective_iff.mpr (fun _ _ same => UInt8.toNat_inj.mp same) (le_antisymm first second)⟩

def encodeTally (tally : Tally) : Bytes :=
  render (.obj ((tally.keys.sort keyLe).map fun key =>
    (quote key, .num (formatInt ((tally.lookup key).getD 0)))))

/-- A `[]*VoteRecord`; `none` is a nil pointer. -/
abbrev VoteRecords := List (Option VoteRecord)

def decodeVoteRecord : Json → Option (Option VoteRecord)
  | .null => some none
  | value =>
    (decodeStruct {} (fun (record : VoteRecord) key value =>
      if isField "FromAddr" key then
        (decodeByteSlice record.fromAddr value).map ({ record with fromAddr := · })
      else if isField "VotingPower" key then
        (decodeInt64 record.votingPower value).map ({ record with votingPower := · })
      else some record) value).map some

def decodeVoteRecords (text : Bytes) : Option VoteRecords := do
  match ← parse text with
  | .null => some []
  | .arr items => items.mapM decodeVoteRecord
  | _ => none

def voteRecordJson : Option VoteRecord → Json
  | none => .null
  | some record =>
    .obj [(octets "FromAddr",
        match record.fromAddr with
        | none => .null
        | some bytes => .str (Octets.encode64 bytes)),
      (octets "VotingPower", .num (formatInt record.votingPower))]

def encodeVoteRecords (records : VoteRecords) : Bytes :=
  render (.arr (records.map voteRecordJson))

theorem voteRecordJson_simple (record : Option VoteRecord) : (voteRecordJson record).Simple := by
  have keys : Json.PlainText (octets "FromAddr") ∧
      Json.PlainText (octets "VotingPower") := by decide
  cases record with
  | none => trivial
  | some record =>
    refine ⟨keys.1, ?_, keys.2, ⟨record.votingPower.toInt, rfl⟩, trivial⟩
    cases record.fromAddr with
    | none => trivial
    | some bytes => exact (encode64_safe bytes).plain

theorem decodeVoteRecord_json (record : Option VoteRecord) :
    decodeVoteRecord (voteRecordJson record) = some record := by
  have h1 : unquote (octets "FromAddr") = octets "FromAddr" := by decide
  have h2 : unquote (octets "VotingPower") = octets "VotingPower" := by decide
  have fields : isField "FromAddr" (octets "FromAddr") = true ∧
    isField "FromAddr" (octets "VotingPower") = false ∧
      isField "VotingPower" (octets "VotingPower") = true := by decide
  rcases record with _ | ⟨address, power⟩
  · rfl
  · cases address with
    | none =>
      simp [voteRecordJson, decodeVoteRecord, decodeStruct, h1, h2, fields,
        decodeByteSlice, decodeInt64]
    | some bytes =>
      simp [voteRecordJson, decodeVoteRecord, decodeStruct, h1, h2, fields, decodeByteSlice,
        decodeInt64, unquote_safe _ (encode64_safe bytes), Octets.decode64_encode64]

/-- A written record list is read back. -/
@[simp] theorem decodeVoteRecords_encode (records : VoteRecords) :
    decodeVoteRecords (encodeVoteRecords records) = some records := by
  have hs : (arr (records.map voteRecordJson)).Simple := by
    induction records with
    | nil => trivial
    | cons record records ih => exact ⟨voteRecordJson_simple record, ih⟩
  have items : (records.map voteRecordJson).mapM decodeVoteRecord = some records := by
    induction records with
    | nil => rfl
    | cons record records ih =>
      have rest := ih hs.2
      simp [decodeVoteRecord_json, rest]
  simp [decodeVoteRecords, encodeVoteRecords, parse_render _ hs, items]

/-- Every key stands for itself in a JSON string, as hexadecimal keys do. -/
def SafeKeys (tally : Tally) : Prop := ∀ key ∈ tally.keys, Json.SafeText key

variable (keys : List Bytes) (value : Bytes → Int64)

theorem tallyMembers_simple (safe : ∀ key ∈ keys, Json.SafeText key) :
    Json.SimpleMembers (keys.map fun key => (quote key, .num (formatInt (value key)))) := by
  induction keys with
  | nil => trivial
  | cons key keys ih =>
    have head := safe key List.mem_cons_self
    refine ⟨?_, ⟨(value key).toInt, rfl⟩,
      ih fun other hm => safe other (List.mem_cons_of_mem key hm)⟩
    rw [quote_safe key head]
    exact head.plain

theorem tallyMembers_decode (start : Tally) (safe : ∀ key ∈ keys, Json.SafeText key) :
    (keys.map fun key => (quote key, num (formatInt (value key)))).foldlM
      (fun (tally : Tally) member => (decodeInt64 0 member.2).map
        (tally.insert (unquote member.1) ·)) start =
      some (keys.foldl (fun tally key => tally.insert key (value key)) start) := by
  induction keys generalizing start with
  | nil => rfl
  | cons key keys ih =>
    have head := safe key List.mem_cons_self
    have rest := ih (start.insert key (value key))
      fun other member => safe other (List.mem_cons_of_mem key member)
    simp only [List.map_cons, List.foldlM_cons, List.foldl_cons, decodeInt64,
      readInt_formatInt, Option.map_some, quote_safe key head,
      unquote_safe key head, Option.bind_eq_bind, Option.bind_some]
    exact rest

theorem lookup_foldl_insert (start : Tally) (key : Bytes) :
    (keys.foldl (fun tally k => tally.insert k (value k)) start).lookup key =
      if key ∈ keys then some (value key) else start.lookup key := by
  induction keys generalizing start with
  | nil => simp
  | cons first keys ih =>
    rw [List.foldl_cons, ih]
    by_cases later : key ∈ keys
    · simp [later]
    · by_cases same : key = first
      · subst same
        simp [later]
      · simp [later, same, Finmap.lookup_insert_of_ne _ same]

/-- A written tally with safe keys is read back. -/
theorem decodeTally_encode (tally : Tally) (safe : SafeKeys tally) :
    decodeTally (encodeTally tally) = some (some tally) := by
  have safeSorted : ∀ key ∈ tally.keys.sort keyLe, Json.SafeText key := fun key member =>
    safe key ((Finset.mem_sort keyLe).mp member)
  have hs := tallyMembers_simple _ (fun key => (tally.lookup key).getD 0) safeSorted
  have read := tallyMembers_decode _ (fun key => (tally.lookup key).getD 0) ∅ safeSorted
  have same : (tally.keys.sort keyLe).foldl
      (fun acc key => acc.insert key ((tally.lookup key).getD 0)) (∅ : Tally) = tally := by
    apply Finmap.ext_lookup
    intro key
    rw [lookup_foldl_insert]
    cases found : tally.lookup key with
    | none =>
      have ha : key ∉ tally.keys := fun member =>
        Finmap.lookup_eq_none.mp found (Finmap.mem_keys.mp member)
      simp [Finset.mem_sort, ha]
    | some value =>
      have hp : key ∈ tally.keys :=
        Finmap.mem_keys.mpr (Finmap.mem_of_lookup_eq_some found)
      simp [Finset.mem_sort, hp]
  simp only [decodeTally, encodeTally, parse_render _ (show Json.Simple (.obj _) from hs),
    Option.bind_eq_bind, Option.bind_some, read, same, Option.map_some]

/-- What reads as a tally does not read as a balance. -/
theorem parseInt_of_decodeTally (text : Bytes) (tally : Option Tally)
    (hd : decodeTally text = some tally) : parseInt text = (0, some .malformed) := by
  cases parsed : parse text with
  | none => simp [decodeTally, parsed] at hd
  | some value =>
    refine parseInt_of_parse text value parsed fun literal same => ?_
    simp [decodeTally, parsed, same] at hd

/-- What reads as a record list does not read as a balance. -/
theorem parseInt_of_decodeVoteRecords (text : Bytes) (records : VoteRecords)
    (hd : decodeVoteRecords text = some records) : parseInt text = (0, some .malformed) := by
  cases parsed : parse text with
  | none => simp [decodeVoteRecords, parsed] at hd
  | some value =>
    refine parseInt_of_parse text value parsed fun literal same => ?_
    simp [decodeVoteRecords, parsed, same] at hd

theorem parseInt_encodeTally (tally : Tally) :
    parseInt (encodeTally tally) = (0, some .malformed) :=
  parseInt_of_head _ _ (by decide) (by decide) (by decide)

end HNBChain.Audit.Source
