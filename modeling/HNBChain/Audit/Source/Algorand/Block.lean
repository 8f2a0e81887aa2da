import Mathlib.Algebra.BigOperators.Fin
import HNBChain.Audit.Source.AppMgr

/-!
# Consensus blocks, validator sets and block validation

The blocks the validators vote on, the state a node keeps between heights, and `ValidateBlock`.
Hashes and the curve of the signatures are the fields of `Digests`; what is encoded before it is
hashed or sent stands for its encoding.

A nil slice and an empty one are told apart where the code does so, in the key of a vote's block and
in its signature. Heights and transaction counts are unbounded; rounds are `Int32`, because a vote
can carry any of them, and powers are added as int64.
-/
namespace HNBChain.Audit.Source.Algorand

open Lib

structure PartSetHeader where
  total : Nat
  hash : Bytes
  deriving DecidableEq

/-- Equality is `Equals`, for which a nil hash and an empty one are the same. -/
structure BlockID where
  hash : Bytes
  partsHeader : PartSetHeader
  deriving DecidableEq

/-- `Key()`, the hash followed by a digest of the encoded parts header. The encoding of a nil hash
is `null`, that of an empty one is not. -/
structure BlockKey where
  id : BlockID
  nilHash : Bool
  deriving DecidableEq

def BlockID.key (id : BlockID) (nilHash : Bool) : BlockKey :=
  ⟨id, nilHash && decide (id.partsHeader.hash = [])⟩

theorem BlockID.key_eq {id : BlockID} (hso : id.partsHeader.hash ≠ []) (one other : Bool) :
    id.key one = id.key other := by
  simp [key, hso]

/-- The `BlockID{}` of a vote for no block. -/
def BlockID.zero : BlockID := ⟨[], ⟨0, []⟩⟩

def BlockID.isZero (id : BlockID) : Prop := id.hash = [] ∧ id.partsHeader.total = 0

instance (id : BlockID) : Decidable id.isZero := inferInstanceAs (Decidable (_ ∧ _))

inductive VoteType where
  | prevote
  | precommit
  | unknown
  deriving DecidableEq

structure Vote where
  validatorAddress : Bytes
  validatorIndex : Int
  height : Nat
  round : Int32
  timestamp : Nat
  type : VoteType
  blockID : BlockID
  /-- Whether the hash of the parts header, if it is empty, is a nil slice. -/
  nilHash : Bool := true
  signature : Bytes
  /-- Whether the signature, if it is empty, is a nil slice. -/
  nilSignature : Bool := true
  deriving DecidableEq

def Vote.key (vote : Vote) : BlockKey := vote.blockID.key vote.nilHash

/-- Votes of one key are for one block. -/
theorem Vote.blockID_of_key {v : Vote} {key : BlockKey} (same : v.key = key) : v.blockID = key.id :=
  congrArg BlockKey.id same

structure Validator where
  address : Bytes
  pubKeyStr : Bytes
  votingPower : Int
  deriving DecidableEq

/-- The priorities are a function of the address, beside the validators and not inside them. -/
structure ValidatorSet where
  validators : List Validator
  proposer : Option Validator
  accum : Bytes → Int
  bgID : Nat
  extend : Bytes

/-- `sort.Search`: the loop keeps `f (i-1)` false and `f j` true. -/
def sortSearch (f : Nat → Bool) : (fuel i j : Nat) → Nat
  | 0, i, _ => i
  | fuel + 1, i, j =>
    if i < j then
      let m := (i + j) / 2
      if f m then sortSearch f fuel i m else sortSearch f fuel (m + 1) j
    else i

/-! ### Checked arithmetic -/

def safeMul (a b : Int64) : Int64 × Bool :=
  if a = 0 ∨ b = 0 then (0, false)
  else if a = 1 then (b, false)
  else if b = 1 then (a, false)
  else if a = .minValue ∨ b = .minValue then (-1, true)
  else (a * b, a * b / b ≠ a)

def safeAdd (a b : Int64) : Int64 × Bool :=
  if 0 < b ∧ .maxValue - b < a then (-1, true)
  else if b < 0 ∧ a < .minValue - b then (-1, true)
  else (a + b, false)

def safeSub (a b : Int64) : Int64 × Bool :=
  if 0 < b ∧ a < .minValue + b then (-1, true)
  else if b < 0 ∧ .maxValue + b < a then (-1, true)
  else (a - b, false)

def safeMulClip (a b : Int64) : Int64 :=
  let (c, overflow) := safeMul a b
  if overflow then if (a < 0 ∨ b < 0) ∧ ¬ (a < 0 ∧ b < 0) then .minValue else .maxValue else c

def safeAddClip (a b : Int64) : Int64 :=
  let (c, overflow) := safeAdd a b
  if overflow then if b < 0 then .minValue else .maxValue else c

def safeSubClip (a b : Int64) : Int64 :=
  let (c, overflow) := safeSub a b
  if overflow then if 0 < b then .minValue else .maxValue else c

/-- What `safeAddClip` and its kin give, as numbers: they stop at the bounds of an int64. -/
def clip (n : Int) : Int := max (-2 ^ 63) (min n (2 ^ 63 - 1))

/-- An int64 after an operation that may overflow. -/
def wrap64 (n : Int) : Int := n.bmod (2 ^ 64)

theorem wrap64_eq {n : Int} (hn : 0 ≤ n) (hs : n < 2 ^ 63) : wrap64 n = n :=
  Int.bmod_eq_of_le (by omega) (by omega)

namespace ValidatorSet

variable (vals : ValidatorSet)

def size : Nat := vals.validators.length

def totalVotingPower : Int :=
  vals.validators.foldl (fun total val => clip (total + val.votingPower)) 0

/-- The power of the validator at an index, and that of all of them, as the numbers they are. -/
def power (i : Nat) : Int := (vals.validators[i]?.map Validator.votingPower).getD 0

def wholePower : Int := (vals.validators.map Validator.votingPower).sum

/-- The smallest index whose address is not below the given one, if the addresses are sorted. -/
def searchAddress (address : Bytes) : Nat :=
  sortSearch (fun i => decide (¬ ((vals.validators[i]?.map Validator.address).getD [] < address)))
    (vals.size + 1) 0 vals.size

def hasAddress (address : Bytes) : Bool :=
  decide (vals.validators[vals.searchAddress address]?.map Validator.address = some address)

/-- The index is -1 for an address that is not found. -/
def getByAddress (address : Bytes) : Int × Option Validator :=
  if vals.hasAddress address then
    (vals.searchAddress address, vals.validators[vals.searchAddress address]?)
  else (-1, none)

def getByIndex (index : Int) : Option Validator :=
  if index < 0 then none else vals.validators[index.toNat]?

/-- The larger priority, or the smaller address at equal priorities. -/
def compareAccum (v other : Validator) : Validator :=
  if vals.accum other.address < vals.accum v.address then v
  else if vals.accum v.address < vals.accum other.address then other
  else if v.address < other.address then v
  else other

/-- What the heap of `IncrementAccum` has on top. -/
def mostest : Option Validator :=
  match vals.validators with
  | [] => none
  | v :: rest => some (rest.foldl vals.compareAccum v)

end ValidatorSet

/-! ### Powers that do not overflow -/

/-- No power is negative, and twice all of them is an int64. -/
structure ValidatorSet.Bounded (vals : ValidatorSet) : Prop where
  nonneg : ∀ v ∈ vals.validators, 0 ≤ v.votingPower
  small : 2 * vals.wholePower < 2 ^ 63

theorem sum_powers_nonneg {validators : List Validator} (hn : ∀ v ∈ validators, 0 ≤ v.votingPower) :
    0 ≤ (validators.map Validator.votingPower).sum := by
  refine List.sum_nonneg fun power hm => ?_
  obtain ⟨v, hli, rfl⟩ := List.mem_map.mp hm
  exact hn v hli

theorem foldl_clip {validators : List Validator} (hn : ∀ v ∈ validators, 0 ≤ v.votingPower)
    {start : Int} (hst : 0 ≤ start)
    (hs : start + (validators.map Validator.votingPower).sum < 2 ^ 63) :
    validators.foldl (fun total val => clip (total + val.votingPower)) start =
      start + (validators.map Validator.votingPower).sum := by
  induction validators generalizing start with
  | nil => exact (add_zero start).symm
  | cons val rest ih =>
    have h1 := hn val List.mem_cons_self
    have hl : ∀ v ∈ rest, 0 ≤ v.votingPower := fun v hm =>
      hn v (List.mem_cons_of_mem val hm)
    have rest_nonneg := sum_powers_nonneg hl
    rw [List.map_cons, List.sum_cons] at hs ⊢
    have unclipped : clip (start + val.votingPower) = start + val.votingPower := by
      unfold clip
      omega
    rw [List.foldl_cons, unclipped, ih hl (by omega) (by omega), add_assoc]

theorem sum_powers_of_equal {validators : List Validator} {power : Int}
    (he : ∀ v ∈ validators, v.votingPower = power) :
    (validators.map Validator.votingPower).sum = validators.length * power := by
  rw [List.map_congr_left he, List.map_const', List.sum_replicate, nsmul_eq_mul]

theorem ValidatorSet.Bounded.total {vals : ValidatorSet} (hb : vals.Bounded) :
    0 ≤ vals.wholePower ∧ vals.totalVotingPower = vals.wholePower := by
  have hs := hb.small
  have hn : 0 ≤ vals.wholePower := sum_powers_nonneg hb.nonneg
  have summed := foldl_clip hb.nonneg (le_refl (0 : Int)) (by
    rw [zero_add]
    exact (show vals.wholePower < 2 ^ 63 by omega))
  exact ⟨hn, summed.trans (zero_add _)⟩

section

variable {vals : ValidatorSet}

theorem power_eq {i : Nat} (hi : i < vals.size) :
    vals.power i = vals.validators[i].votingPower := by
  rw [ValidatorSet.power, List.getElem?_eq_getElem hi]
  rfl

theorem power_nonneg (hn : ∀ v ∈ vals.validators, 0 ≤ v.votingPower) (i : Nat) :
    0 ≤ vals.power i := by
  unfold ValidatorSet.power
  cases found : vals.validators[i]? with
  | none => exact le_rfl
  | some val => exact hn val (List.mem_of_getElem? found)

theorem wholePower_eq_sum : vals.wholePower = ∑ i ∈ Finset.range vals.size, vals.power i := by
  rw [Finset.sum_range, Finset.sum_congr rfl fun i _ => power_eq i.isLt, ValidatorSet.wholePower]
  exact (Fin.sum_univ_fun_getElem vals.validators Validator.votingPower).symm

end

/-- The threshold of two thirds, which `TotalVotingPower() * 2 / 3` is here. -/
theorem ValidatorSet.Bounded.threshold_lt {vals : ValidatorSet} (hb : vals.Bounded) (sum : Int) :
    (wrap64 (vals.totalVotingPower * 2)).tdiv 3 < sum ↔ 2 * vals.wholePower < 3 * sum := by
  obtain ⟨hn, total⟩ := hb.total
  have hs := hb.small
  rw [total, wrap64_eq (by omega) (by omega), Int.tdiv_eq_ediv_of_nonneg (by omega)]
  omega

/-- The loop of `IncrementAccum` that takes the total power from the front runner. -/
def ValidatorSet.decrement : Nat → ValidatorSet → Option ValidatorSet
  | 0, vals => some vals
  | times + 1, vals =>
    -- Peek of an empty heap panics
    vals.mostest.bind fun top => ValidatorSet.decrement times
      { vals with
        proposer := if times = 0 then some top else vals.proposer
        accum := Function.update vals.accum top.address
          (clip (vals.accum top.address - vals.totalVotingPower)) }

def ValidatorSet.incrementAccum (times : Nat) (vals : ValidatorSet) : Option ValidatorSet :=
  ValidatorSet.decrement times
    { vals with accum := fun address =>
        match vals.validators.find? (fun v => decide (v.address = address)) with
        | some v => clip (vals.accum address + clip (v.votingPower * times))
        | none => vals.accum address }

theorem incrementAccum_one (vals : ValidatorSet) (ho : vals.validators ≠ []) :
    ∃ vals', vals.incrementAccum 1 = some vals' ∧ vals'.validators = vals.validators := by
  unfold ValidatorSet.incrementAccum
  rw [ValidatorSet.decrement]
  cases listed : vals.validators with
  | nil => exact absurd listed ho
  | cons v rest => exact ⟨_, rfl, rfl⟩

structure Commit where
  blockID : BlockID
  precommits : List (Option Vote)
  deriving DecidableEq

def Commit.firstPrecommit (commit : Commit) : Option Vote := commit.precommits.findSome? id

def Commit.height (commit : Commit) : Nat := (commit.firstPrecommit.map Vote.height).getD 0

def Commit.round (commit : Commit) : Int32 := (commit.firstPrecommit.map Vote.round).getD 0

structure Header where
  blockNum : Nat
  time : Nat
  numTxs : Int
  lastBlockID : BlockID
  totalTxs : Int
  lastCommitHash : Bytes
  dataHash : Bytes
  validatorsHash : Bytes
  consensusHash : Bytes
  appHash : Bytes
  lastResultsHash : Bytes
  blkVRFValue : Bytes
  blkVRFProof : Bytes
  evidenceHash : Bytes
  deriving DecidableEq

structure ValidatorInfo where
  validators : Option ValidatorSet
  lastHeightChanged : Nat

/-- A block whose header or last commit is missing does not get past the log line that prints them
(`Decoded.malformed`), so these two are always there. -/
structure Block where
  header : Header
  data : Option (List Bytes)
  evidence : List Bytes
  lastCommit : Commit
  currentCommit : Option Commit
  validatorInfo : Option ValidatorInfo

structure ConsensusParams where
  blockPartSizeBytes : Int
  maxBytes : Int
  maxGas : Int
  maxTxs : Int
  txMaxBytes : Int
  txMaxGas : Int
  deriving DecidableEq

def ConsensusParams.zero : ConsensusParams := ⟨0, 0, 0, 0, 0, 0⟩

/-- The header a node gives the ledger. `ConsArgs` is kept as the data it encodes. -/
structure StandardHeader where
  blockNum : Nat
  previousHash : Bytes
  createTime : Nat
  senderId : Bytes
  lastCommit : Commit
  dataHash : Bytes
  evidence : List Bytes
  header : Header
  validatorInfo : Option ValidatorInfo
  ext : Option Commit
  txsHash : List Transaction
  stateHash : Bytes

structure StandardBlock where
  header : StandardHeader
  txs : List Transaction

/-- What the text of a key turns into: `HexToByte` may panic on it, and bytes that are no point of
the curve give a key without coordinates. -/
inductive KeyText where
  | unreadable
  | noPoint
  | point
  deriving DecidableEq

/-- The texts of keys, and the check of a signature without its last byte over the rest of a
vote. -/
structure Curve where
  key : Bytes → KeyText
  verify : Bytes → Bytes → Vote → Bool

/-- The hash functions, and the curve. -/
structure Digests where
  header : Header → Bytes
  precommits : List (Option Vote) → Bytes
  txs : List Bytes → Bytes
  evidence : List Bytes → Bytes
  validators : List (Bytes × Int) → Bytes
  params : ConsensusParams → Bytes
  standard : StandardHeader → Bytes
  curve : Curve

structure State where
  lastBlockNum : Nat
  lastBlockTotalTx : Int
  lastBlockID : BlockID
  lastBlockTime : Nat
  validators : ValidatorSet
  lastValidators : ValidatorSet
  lastHeightValidatorsChanged : Nat
  consensusParams : ConsensusParams
  previousHash : Bytes
  prevVRFValue : Bytes
  prevVRFProof : Bytes

/-- `Copy` leaves out the consensus parameters, the previous hash and the VRF fields. -/
def State.copy (s : State) : State :=
  { s with
    consensusParams := .zero
    previousHash := []
    prevVRFValue := []
    prevVRFProof := [] }

section

variable (d : Digests)

def ValidatorSet.hash (vals : ValidatorSet) : Bytes :=
  if vals.validators = [] then []
  else d.validators (vals.validators.map fun v => (v.address, v.votingPower))

def Header.hash (h : Header) : Bytes := if h.validatorsHash = [] then [] else d.header h

/-- `Data.Hash`, on a nil pointer as well. -/
def Block.dataHash (b : Block) : Bytes := d.txs (b.data.getD [])

def Block.fillHeader (b : Block) : Block :=
  { b with header :=
    { b.header with
      lastCommitHash := if b.header.lastCommitHash = [] then d.precommits b.lastCommit.precommits
        else b.header.lastCommitHash
      dataHash := if b.header.dataHash = [] then b.dataHash d else b.header.dataHash
      evidenceHash := if b.header.evidenceHash = [] then d.evidence b.evidence
        else b.header.evidenceHash } }

def Block.hash (b : Block) : Bytes :=
  if b.data.isNone then [] else (b.fillHeader d).header.hash d

/-- `Hash` fills the header in place. -/
def Block.hashed (b : Block) : Block := if b.data.isNone then b else b.fillHeader d

def Block.hashesTo (b : Option Block) (hash : Bytes) : Bool :=
  match b with
  | none => false
  | some b => decide (hash ≠ []) && decide (b.hash d = hash)

def Commit.validateBasic (commit : Commit) : Except Err Unit :=
  if commit.blockID.isZero then .error (.new "Commit cannot be for nil block")
  else if commit.precommits = [] then .error (.new "No precommits in commit")
  else commit.precommits.reduceOption.forM fun precommit =>
    if precommit.type ≠ .precommit then .error (.new "Invalid commit vote")
    else if precommit.height ≠ commit.height then .error (.new "Invalid commit precommit height")
    else if precommit.round ≠ commit.round then .error (.new "Invalid commit precommit round")
    else .ok ()

def Block.validateBasic (b : Block) : Except Err Unit := do
  if b.data.isSome ∧ b.header.numTxs ≠ (b.data.getD []).length then
    throw (.new "Wrong Block.Header.NumTxs")
  if b.header.lastCommitHash ≠ d.precommits b.lastCommit.precommits then
    throw (.new "Wrong Block.Header.LastCommitHash")
  if b.header.blockNum ≠ 1 then b.lastCommit.validateBasic
  if b.header.dataHash ≠ b.dataHash d then throw (.new "Wrong Block.Header.DataHash")
  if b.header.evidenceHash ≠ d.evidence b.evidence then
    throw (.new "Wrong Block.Header.EvidenceHash")

section

variable (curve : Curve)

/-- `msp.Verify` after `StringToBccspKey`. -/
def mspVerify (pubKeyStr : Bytes) (vote : Vote) : Except Err Bool :=
  if curve.key pubKeyStr = .unreadable then .error .panic
  else if vote.signature = [] then
    if vote.nilSignature then
      .error (.new "signature or private key or msg or hashFuncName is nil")
    -- signature[:len(signature)-1]
    else .error .panic
  else if vote.signature.dropLast = [] then
    .error (.new "Invalid signature. Cannot be empty.")
  -- the coordinates of no point are marshalled
  else if curve.key pubKeyStr = .noPoint then .error .panic
  else .ok (curve.verify pubKeyStr vote.signature.dropLast vote)

/-- An index out of range gives no validator, whose key is then read. -/
def ValidatorSet.verifyVoteSign (vals : ValidatorSet) (vote : Vote) : Except Err Unit :=
  match vals.getByIndex vote.validatorIndex with
  | none => .error .panic
  | some val => do
    let valid ← mspVerify curve val.pubKeyStr vote
    if valid then .ok () else .error (.new "verify votetype signature fail")

/-- The power of the listed precommits, up to the first that fails a check. The validator is the one
the precommit names, not the one at its place in the list. -/
def ValidatorSet.tally (vals : ValidatorSet) (height : Nat) (round : Int32) :
    List (Option Vote) → Int → Except Err Int
  | [], power => .ok power
  | none :: rest, power => vals.tally height round rest power
  | some precommit :: rest, power => do
    if precommit.height ≠ height then throw (.new "invalid commit -- wrong height")
    if precommit.round ≠ round then throw (.new "invalid commit -- wrong round")
    if precommit.type ≠ .precommit then throw (.new "invalid commit -- not precommit")
    vals.verifyVoteSign curve precommit
    let val := vals.getByIndex precommit.validatorIndex
    vals.tally height round rest (wrap64 (power + (val.map Validator.votingPower).getD 0))

def ValidatorSet.verifyCommitVoteSign (vals : ValidatorSet) (height : Nat) (commit : Commit) :
    Except Err Unit :=
  if height ≠ commit.height then .error (.new "invalid commit -- wrong height")
  else do
    let talliedVotingPower ← vals.tally curve height commit.round commit.precommits 0
    if talliedVotingPower > (wrap64 (vals.totalVotingPower * 2)).tdiv 3 then .ok ()
    else .error (.new "invalid commit -- insufficient voting power")

end

/-- The commit's verification is printed when it fails; only a panic in it ends the call. -/
def validateLastCommit (s : State) (b : Block) : Except Err Unit :=
  if b.header.blockNum = 1 then
    if b.lastCommit.precommits ≠ [] then
      .error (.new "Block at height 1 (first block) should have no LastCommit precommits")
    else .ok ()
  else if b.lastCommit.precommits.length ≠ s.lastValidators.size then
    .error (.new "Invalid block commit size")
  else
    match s.lastValidators.verifyCommitVoteSign d.curve (b.header.blockNum - 1) b.lastCommit with
    | .error .panic => .error .panic
    | _ => .ok ()

def validateBlock (s : State) (b : Block) : Except Err Unit := do
  b.validateBasic d
  if b.header.blockNum ≠ s.lastBlockNum + 1 then throw (.new "Wrong Block.Header.BlockNum")
  if b.header.lastBlockID ≠ s.lastBlockID then throw (.new "Wrong Block.Header.LastBlockID")
  -- the transactions of a missing Data are read here
  if b.data.isNone then throw .panic
  if b.header.totalTxs ≠ s.lastBlockTotalTx + (b.data.getD []).length then
    throw (.new "Wrong Block.Header.TotalTxs")
  if b.header.consensusHash ≠ d.params s.consensusParams then
    throw (.new "Wrong Block.Header.ConsensusHash")
  if b.header.validatorsHash ≠ s.validators.hash d then
    -- the message reads the validator info
    if b.validatorInfo.isNone then throw .panic
    throw (.new "tendermint: Wrong Block.Header.ValidatorsHash")
  validateLastCommit d s b

/-! ### What a validated block has -/

theorem bind_ok {ε α β : Type} {x : Except ε α} {f : α → Except ε β} {b : β}
    (done : (x >>= f) = .ok b) : ∃ a, x = .ok a ∧ f a = .ok b := by
  cases x with
  | error e => cases done
  | ok a => exact ⟨a, rfl, done⟩

/-- What follows a check that has not thrown. -/
theorem checked_ok {ε α β : Type} {p : Prop} [Decidable p] {e : ε} {k : α → Except ε β}
    {rest : Except ε β}
    {b : β} (done : (if p then throw e >>= k else rest) = .ok b) : ¬p ∧ rest = .ok b := by
  split_ifs at done with wrong
  · cases done
  · exact ⟨wrong, done⟩

/-- What follows a check that may not have to be made. -/
theorem made_ok {ε β : Type} {p : Prop} [Decidable p] {x : Except ε Unit}
    {k : Unit → Except ε β} {b : β}
    (done : (if p then x >>= k else k ()) = .ok b) : (p → x = .ok ()) ∧ k () = .ok b := by
  split_ifs at done with must
  · obtain ⟨_, made, done⟩ := bind_ok done
    exact ⟨fun _ => made, done⟩
  · exact ⟨fun p => absurd p must, done⟩

theorem made_of {ε β : Type} {p : Prop} [Decidable p] {x : Except ε Unit}
    {k : Unit → Except ε β} {b : β}
    (made : p → x = .ok ()) (done : k () = .ok b) : (if p then x >>= k else k ()) = .ok b := by
  split_ifs with must
  · rw [made must]
    exact done
  · exact done

theorem forM_ok {ε α : Type} {f : α → Except ε Unit} {l : List α} (done : l.forM f = .ok ()) :
    ∀ a ∈ l, f a = .ok () := by
  induction l with
  | nil => exact nofun
  | cons first rest ih =>
    intro a hm
    obtain ⟨_, now, done⟩ := bind_ok done
    rcases List.mem_cons.mp hm with rfl | hl
    · exact now
    · exact ih done a hl

structure Block.Basic (b : Block) : Prop where
  numTxs : b.data.isSome → b.header.numTxs = (b.data.getD []).length
  lastCommitHash : b.header.lastCommitHash = d.precommits b.lastCommit.precommits
  lastCommit : b.header.blockNum ≠ 1 → b.lastCommit.validateBasic = .ok ()
  dataHash : b.header.dataHash = b.dataHash d
  evidenceHash : b.header.evidenceHash = d.evidence b.evidence

structure Valid (s : State) (b : Block) : Prop where
  basic : b.Basic d
  blockNum : b.header.blockNum = s.lastBlockNum + 1
  lastBlockID : b.header.lastBlockID = s.lastBlockID
  data : b.data.isSome
  totalTxs : b.header.totalTxs = s.lastBlockTotalTx + (b.data.getD []).length
  consensusHash : b.header.consensusHash = d.params s.consensusParams
  validatorsHash : b.header.validatorsHash = s.validators.hash d
  lastCommit : validateLastCommit d s b = .ok ()

variable {d}

theorem Block.validateBasic_ok {b : Block} (hv : b.validateBasic d = .ok ()) : b.Basic d := by
  obtain ⟨numTxs, hv⟩ := checked_ok hv
  obtain ⟨lastCommitHash, hv⟩ := checked_ok hv
  obtain ⟨commit, hv⟩ := made_ok hv
  obtain ⟨dataHash, hv⟩ := checked_ok hv
  have evidenceHash : b.header.evidenceHash = d.evidence b.evidence := by
    by_contra hw
    cases (if_pos hw).symm.trans hv
  exact ⟨fun ht => not_not.mp fun hw => numTxs ⟨ht, hw⟩,
    not_not.mp lastCommitHash, commit,
    not_not.mp dataHash, evidenceHash⟩

theorem validateBlock_ok {s : State} {b : Block} (hv : validateBlock d s b = .ok ()) :
    Valid d s b := by
  obtain ⟨_, basic, hv⟩ := bind_ok hv
  obtain ⟨blockNum, hv⟩ := checked_ok hv
  obtain ⟨lastBlockID, hv⟩ := checked_ok hv
  obtain ⟨data, hv⟩ := checked_ok hv
  obtain ⟨totalTxs, hv⟩ := checked_ok hv
  obtain ⟨consensusHash, hv⟩ := checked_ok hv
  have validatorsHash : b.header.validatorsHash = s.validators.hash d := by
    by_contra wrong
    replace hv := (if_pos wrong).symm.trans hv
    split_ifs at hv <;> cases hv
  replace hv := (if_neg (not_not.mpr validatorsHash)).symm.trans hv
  exact ⟨Block.validateBasic_ok basic, not_not.mp blockNum, not_not.mp lastBlockID,
    Option.isSome_iff_ne_none.mpr (by simpa using data), not_not.mp totalTxs,
    not_not.mp consensusHash,
    validatorsHash, hv⟩

theorem Block.Basic.validateBasic {b : Block} (basic : b.Basic d) : b.validateBasic d = .ok () := by
  have numTxs : ¬ (b.data.isSome ∧ b.header.numTxs ≠ (b.data.getD []).length) :=
    fun hw => hw.2 (basic.numTxs hw.1)
  refine (if_neg numTxs).trans ((if_neg (not_not.mpr basic.lastCommitHash)).trans ?_)
  refine made_of basic.lastCommit ?_
  exact (if_neg (not_not.mpr basic.dataHash)).trans (if_neg (not_not.mpr basic.evidenceHash))

theorem Valid.validateBlock {s : State} {b : Block} (hv : Valid d s b) :
    validateBlock d s b = .ok () := by
  have data : ¬ b.data.isNone := by simpa [Option.isSome_iff_ne_none] using hv.data
  unfold Algorand.validateBlock
  rw [hv.basic.validateBasic]
  refine (if_neg (not_not.mpr hv.blockNum)).trans ?_
  refine (if_neg (not_not.mpr hv.lastBlockID)).trans ((if_neg data).trans ?_)
  refine (if_neg (not_not.mpr hv.totalTxs)).trans ?_
  refine (if_neg (not_not.mpr hv.consensusHash)).trans ?_
  exact (if_neg (not_not.mpr hv.validatorsHash)).trans hv.lastCommit

end

/-- `ConsToStandard`, on a validated block: its `NumTxs` is the number of its transactions. The
caller ignores the error and reads the block, so an error is a panic. -/
def consToStandard (d : Digests) (decodeTx : Bytes → Option Transaction) (b : Block) :
    Except Err StandardBlock := do
  let txs ← match (b.data.getD []).mapM decodeTx with
    | some txs => .ok txs
    | none => .error .json
  let senderId ←
    if b.header.blockNum ≠ 0 then
      match b.validatorInfo.bind ValidatorInfo.validators |>.bind ValidatorSet.proposer with
      | some proposer => .ok proposer.address
      | none => .error .panic
    else .ok []
  return ⟨{ blockNum := b.header.blockNum
            previousHash := []
            createTime := b.header.time
            senderId := senderId
            lastCommit := b.lastCommit
            dataHash := b.dataHash d
            evidence := b.evidence
            header := b.header
            validatorInfo := b.validatorInfo
            ext := b.currentCommit
            txsHash := txs
            stateHash := [] }, txs⟩

/-- The commit goes into the header as it is, and nowhere else. -/
theorem consToStandard_commit {d : Digests} {decodeTx : Bytes → Option Transaction} {b : Block}
    {blk : StandardBlock} (hc : consToStandard d decodeTx b = .ok blk)
    (commit : Option Commit) : blk.header.ext = b.currentCommit ∧ consToStandard d decodeTx
    { b with currentCommit := commit } =
        .ok { blk with header := { blk.header with ext := commit } } := by
  unfold consToStandard at hc ⊢
  cases decoded : (b.data.getD []).mapM decodeTx with
  | none =>
    rw [decoded] at hc
    cases hc
  | some txs =>
    rw [decoded] at hc
    split_ifs at hc ⊢ with number
    · cases proposer : (b.validatorInfo.bind ValidatorInfo.validators).bind
          ValidatorSet.proposer with
      | none =>
        rw [proposer] at hc
        cases hc
      | some val =>
        rw [proposer] at hc
        cases hc
        exact ⟨rfl, rfl⟩
    · cases hc
      exact ⟨rfl, rfl⟩

/-- `updateState`; taking the next priorities of an empty validator set panics. -/
def updateState (s : State) (blockID : BlockID) (header : Header) : Option State :=
  (s.validators.incrementAccum 1).map fun nextValSet =>
    { lastBlockNum := header.blockNum
      lastBlockTotalTx := s.lastBlockTotalTx + header.numTxs
      lastBlockID := blockID
      lastBlockTime := header.time
      validators := nextValSet
      lastValidators := s.validators
      lastHeightValidatorsChanged := s.lastHeightValidatorsChanged
      consensusParams := s.consensusParams
      previousHash := s.previousHash
      prevVRFValue := header.blkVRFValue
      prevVRFProof := header.blkVRFProof }

end HNBChain.Audit.Source.Algorand
