import HNBChain.Audit.Source.Codec
import HNBChain.Lib.StoreProgram

/-!
# The HNB and HGS contracts

`Invoke` of the two token contracts, handler by handler, as programs over the keys of both tokens. A
handler sees its own token's keys through `getState` and the other token's through `getOtherState`.
A Go panic (a nil record, a write to a nil map) is the error `panic`: it is no error that `Invoke`
returns, it ends the process.

Logging is left out. Nothing here undoes a write when a later step fails.
-/
namespace HNBChain.Audit.Source

open Lib Decimal

inductive ChainID where
  | hgs | hnb
  deriving DecidableEq, Repr

def ChainID.text : ChainID → String
  | .hgs => "hgs"
  | .hnb => "hnb"

abbrev Address := { bytes : Bytes // bytes.length = 20 }

inductive Err where
  | new (text : String)
  | json
  | number (e : Decimal.NumError)
  | read
  | panic
  deriving DecidableEq, Repr

abbrev Key := ChainID × Bytes

abbrev Call := Prog Key Bytes Err

structure ContractApi where
  chainID : ChainID
  args : Bytes
  fromAddr : Address

namespace ContractApi

def getOtherState (_ca : ContractApi) (chainID : ChainID) (key : Bytes) :
    Call (Except Err (Option Bytes)) :=
  Prog.read (chainID, key)

def putOtherState (_ca : ContractApi) (chainID : ChainID) (key value : Bytes) : Call Unit :=
  Prog.write (chainID, key) value

variable (ca : ContractApi)

def getState (key : Bytes) : Call (Except Err (Option Bytes)) := Prog.read (ca.chainID, key)

def putState (key value : Bytes) : Call Unit := Prog.write (ca.chainID, key) value

def delState (key : Bytes) : Call Unit := Prog.delete (ca.chainID, key)

end ContractApi

/-- `if err != nil { return err }`. -/
def orReturn {α : Type} : Except Err α → Call α
  | .ok a => pure a
  | .error e => throw e

def parseAmount (text : Bytes) : Call Int64 :=
  match parseInt text with
  | (amount, none) => pure amount
  | (_, some e) => throw (.number e)

def unmarshal {α : Type} (decoded : Option α) : Call α :=
  match decoded with
  | some a => pure a
  | none => throw .json

/-- `util.HexToByte`, for a string of hex digit pairs. -/
def hexToByte (hex : String) : Bytes := (Octets.decodeHex (octets hex)).getD []

/-- The accounts that both contracts are installed with. -/
def user : List String := ["68175250cadc6f2524f55e891e244116fec4b690"]

/-- The loop of `InstallContract`. -/
def installBalances (ca : ContractApi) (amountS : Bytes) : List String → Call Unit
  | [] => pure ()
  | v :: rest => do
    ca.putState (hexToByte v) amountS
    installBalances ca amountS rest

namespace Hnb

def totalBalance : Int64 := 10000000

def installContract (ca : ContractApi) : Call Unit :=
  installBalances ca (formatInt totalBalance) user

def getBalance (ca : ContractApi) (addr : Bytes) : Call Int64 := do
  match ← orReturn (← ca.getState addr) with
  | none => return 0
  | some input => parseAmount input

def setBalance (ca : ContractApi) (addr : Bytes) (amount : Int64) : Call Unit :=
  ca.putState addr (formatInt amount)

def getOtherStateBalance (ca : ContractApi) (chainID : ChainID) (addr : Bytes) : Call Int64 := do
  match ← orReturn (← ca.getOtherState chainID addr) with
  | none => return 0
  | some input => parseAmount input

def setOtherStateBalance (ca : ContractApi) (chainID : ChainID) (addr : Bytes)
    (amount : Int64) : Call Unit :=
  ca.putOtherState chainID addr (formatInt amount)

def getEpochKey (epoch : UInt64) : Bytes := octets "epoch" ++ octets "#" ++ formatUint epoch

def getEpochRecordKey (epoch : UInt64) : Bytes :=
  octets "record_epoch" ++ octets "#" ++ formatUint epoch

def samePro (ca : ContractApi) (hx : SameTx) : Call Unit := do
  let fromBytes := ca.fromAddr.val
  if fromBytes = hx.outputAddr then
    throw (.new "in and out addr same")
  let inputAmount ← getBalance ca fromBytes
  if inputAmount < hx.amount then
    throw (.new "insufficient balance")
  let bAmount ← getBalance ca hx.outputAddr
  setBalance ca fromBytes (inputAmount - hx.amount)
  setBalance ca hx.outputAddr (bAmount + hx.amount)

def diffPro (ca : ContractApi) (hx : DiffTx) : Call Unit := do
  let fromBytes := ca.fromAddr.val
  let inputAmount ← getBalance ca fromBytes
  if inputAmount < hx.inAmount then
    throw (.new "insufficient balance")
  let bAmount ← getOtherStateBalance ca .hgs hx.outputAddr
  setBalance ca fromBytes (inputAmount - hx.inAmount)
  setOtherStateBalance ca .hgs hx.outputAddr (bAmount + hx.amount)

/-- The tally under an epoch key: an empty map when nothing is stored, and `none` for the nil map
that a stored `null` leaves. -/
def unmarshalTally (voteRecord : Option Bytes) : Call (Option Tally) :=
  match voteRecord with
  | none => pure (some ∅)
  | some text => unmarshal (decodeTally text)

def unmarshalRecords (voteRecord : Option Bytes) : Call VoteRecords :=
  match voteRecord with
  | none => pure []
  | some text => unmarshal (decodeVoteRecords text)

/-- `voteRecordMap[PeerIDToString(candidate)] += power`. -/
def addVotes (tally : Tally) (candidate : Bytes) (power : Int64) : Tally :=
  let key := Octets.encodeHex candidate
  tally.insert key ((tally.lookup key).getD 0 + power)

def saveTokenTotal (ca : ContractApi) (vi : VoteInfo) : Call Unit := do
  match vi.candidate, vi.fromAddr with
  | some candidate, some fromAddr =>
    if vi.votingPower = 0 ∨ vi.voteEpoch = 0 then
      throw (.new "vote params invalid")
    match ← orReturn (← ca.getState fromAddr) with
    | none => throw (.new "input not exist")
    | some input =>
      let inputAmount ← parseAmount input
      if inputAmount < vi.votingPower then
        throw (.new "vote power lower")
      match ← ca.getState (getEpochKey vi.voteEpoch) with
      -- The source returns nil here, so the vote goes on without tally and debit.
      | .error _ => return ()
      | .ok voteRecord =>
        match ← unmarshalTally voteRecord with
        | none => throw .panic
        | some voteRecordMap =>
          let vote := addVotes voteRecordMap candidate vi.votingPower
          ca.putState (getEpochKey vi.voteEpoch) (encodeTally vote)
          ca.putState fromAddr (formatInt (inputAmount - vi.votingPower))
  | _, _ => throw (.new "vote params invalid")

def saveTokenFromInfo (ca : ContractApi) (vi : VoteInfo) : Call Unit := do
  match ← ca.getState (getEpochRecordKey vi.voteEpoch) with
  | .error _ => return ()
  | .ok voteRecord =>
    let vrs ← unmarshalRecords voteRecord
    let vr : VoteRecord := { fromAddr := vi.fromAddr, votingPower := vi.votingPower }
    ca.putState (getEpochRecordKey vi.voteEpoch) (encodeVoteRecords (vrs ++ [some vr]))

def votePro (ca : ContractApi) (vi : VoteInfo) : Call Unit := do
  saveTokenTotal ca vi
  saveTokenFromInfo ca vi

/-- The sum over the map in whatever order it is ranged over. -/
def sumVotes (tally : Tally) : Int64 := (tally.entries.map Sigma.snd).fold (· + ·) 0

def getVoteSum (ca : ContractApi) (epochNo : UInt64) : Call Int64 := do
  match ← ca.getState (getEpochKey epochNo) with
  | .error _ => return 0
  | .ok voteRecord =>
    let voteRecordMap ← unmarshalTally voteRecord
    return sumVotes (voteRecordMap.getD ∅)

/-- The loop of `UnFreezePro` over the record list. -/
def payBack (ca : ContractApi) : VoteRecords → Call Unit
  | [] => pure ()
  | none :: _ => throw .panic
  | some v :: rest => do
    let amount ← getBalance ca (v.fromAddr.getD [])
    setBalance ca (v.fromAddr.getD []) (amount + v.votingPower)
    payBack ca rest

def unFreezePro (ca : ContractApi) (epochNo : UInt64) : Call Unit := do
  match ← ca.getState (getEpochRecordKey epochNo) with
  | .error _ => return ()
  | .ok voteRecord =>
    let vrs ← unmarshalRecords voteRecord
    payBack ca vrs
    ca.delState (getEpochRecordKey epochNo)
    ca.delState (getEpochKey epochNo)

def invoke (ca : ContractApi) : Call Unit := do
  let hx ← unmarshal (decodeContractTx ca.args)
  if hx.txType = 1 then
    samePro ca (← unmarshal (decodeSameTx hx.payLoad))
  else if hx.txType = 2 then
    diffPro ca (← unmarshal (decodeDiffTx hx.payLoad))
  else if hx.txType = 3 then
    votePro ca (← unmarshal (decodeVoteInfo hx.payLoad))
  else if hx.txType = 4 then
    match parseUint hx.payLoad with
    | .error e => throw (.number e)
    | .ok epochNo => unFreezePro ca epochNo
  else return ()

def checkSamePro (ca : ContractApi) (hx : SameTx) : Call Unit := do
  let fromBytes := ca.fromAddr.val
  if fromBytes = hx.outputAddr then
    throw (.new "in and out addr same")
  let inputAmount ← getBalance ca fromBytes
  if inputAmount < hx.amount then
    throw (.new "insufficient balance")

def checkDiffPro (ca : ContractApi) (hx : DiffTx) : Call Unit := do
  let inputAmount ← getBalance ca ca.fromAddr.val
  if inputAmount < hx.inAmount then
    throw (.new "insufficient balance")

/-- A vote is not looked at; an unfreeze is carried out in the cache of the check. -/
def checkTx (ca : ContractApi) : Call Unit := do
  let hx ← unmarshal (decodeContractTx ca.args)
  if hx.txType = 1 then
    checkSamePro ca (← unmarshal (decodeSameTx hx.payLoad))
  else if hx.txType = 2 then
    checkDiffPro ca (← unmarshal (decodeDiffTx hx.payLoad))
  else if hx.txType = 4 then
    match parseUint hx.payLoad with
    | .error e => throw (.number e)
    | .ok epochNo => unFreezePro ca epochNo
  else return ()

end Hnb

namespace Hgs

def installContract (ca : ContractApi) : Call Unit :=
  installBalances ca (formatInt 10000000) user

def samePro (ca : ContractApi) (hx : SameTx) : Call Unit := do
  let fromBytes := ca.fromAddr.val
  if fromBytes = hx.outputAddr then
    throw (.new "in and out addr same")
  match ← orReturn (← ca.getState fromBytes) with
  | none => throw (.new "input not exist")
  | some input =>
    let inputAmount ← parseAmount input
    if inputAmount < hx.amount then
      throw (.new "insufficient balance")
    let output ← orReturn (← ca.getState hx.outputAddr)
    -- The parse error is dropped: unreadable text counts as zero or as a bound of the range.
    let bAmount := match output with
      | none => 0
      | some text => (parseInt text).1
    ca.putState fromBytes (formatInt (inputAmount - hx.amount))
    ca.putState hx.outputAddr (formatInt (bAmount + hx.amount))

def diffPro (ca : ContractApi) (hx : DiffTx) : Call Unit := do
  let fromBytes := ca.fromAddr.val
  match ← orReturn (← ca.getState fromBytes) with
  | none => throw (.new "input not exist")
  | some input =>
    let inputAmount ← parseAmount input
    if inputAmount < hx.inAmount then
      throw (.new "insufficient balance")
    let output ← orReturn (← ca.getOtherState .hnb hx.outputAddr)
    let bAmount ← match output with
      | none => pure 0
      | some text => parseAmount text
    ca.putState fromBytes (formatInt (inputAmount - hx.inAmount))
    ca.putOtherState .hnb hx.outputAddr (formatInt (bAmount + hx.amount))

def invoke (ca : ContractApi) : Call Unit := do
  let hx ← unmarshal (decodeContractTx ca.args)
  if hx.txType = 1 then
    samePro ca (← unmarshal (decodeSameTx hx.payLoad))
  else if hx.txType = 2 then
    diffPro ca (← unmarshal (decodeDiffTx hx.payLoad))
  else return ()

def checkSamePro (ca : ContractApi) (hx : SameTx) : Call Unit := do
  let fromBytes := ca.fromAddr.val
  if fromBytes = hx.outputAddr then
    throw (.new "in and out addr same")
  match ← orReturn (← ca.getState fromBytes) with
  | none => throw (.new "input not exist")
  | some input =>
    let inputAmount ← parseAmount input
    if inputAmount < hx.amount then
      throw (.new "insufficient balance")

def checkDiffPro (ca : ContractApi) (hx : DiffTx) : Call Unit := do
  match ← orReturn (← ca.getState ca.fromAddr.val) with
  | none => throw (.new "input not exist")
  | some input =>
    let inputAmount ← parseAmount input
    if inputAmount < hx.inAmount then
      throw (.new "insufficient balance")

def checkTx (ca : ContractApi) : Call Unit := do
  let hx ← unmarshal (decodeContractTx ca.args)
  if hx.txType = 1 then
    checkSamePro ca (← unmarshal (decodeSameTx hx.payLoad))
  else if hx.txType = 2 then
    checkDiffPro ca (← unmarshal (decodeDiffTx hx.payLoad))
  else return ()

end Hgs

/-- `handler.Invoke` for the handler that the contract is registered with. -/
def invoke (ca : ContractApi) : Call Unit :=
  match ca.chainID with
  | .hgs => Hgs.invoke ca
  | .hnb => Hnb.invoke ca

def checkTx (ca : ContractApi) : Call Unit :=
  match ca.chainID with
  | .hgs => Hgs.checkTx ca
  | .hnb => Hnb.checkTx ca

end HNBChain.Audit.Source
