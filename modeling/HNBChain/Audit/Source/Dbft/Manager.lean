import HNBChain.Audit.Source.Dbft.Epoch

/-!
# The DPoS manager

The manager above the BFT message handler: messages that ask for a new epoch and announce one, the
check after each block whether the epoch is over, and `ResetEpoch`, which all three ways into a new
epoch end in. The handler is what these read of it: the height, the validators of the last commit
state and those before them.

The manager's goroutines (`Routine`) share the state; each event is one turn of one of them. A call
that never returns blocks its goroutine, a panic ends the process. `LoadTotalValidators` asks a
server for the validators of a later epoch until it has an answer; what it returns is an answer of
the environment, and none says that it does not return. As `GetEpochInfo` is written that is always
so: what it decodes is a list of interfaces, and it asserts a list of strings.

Messages stand decoded, and the queues between the goroutines have room or not as the environment
says; starting to sync is left out.
-/
namespace HNBChain.Audit.Source.Dbft

open Lib Algorand Function

structure EpochChange where
  epochNo : UInt64
  digestAddr : Bytes
  height : UInt64
  hash : Bytes
  deriving DecidableEq

/-- The witnesses are a JSON text of their own: none if it does not decode, and any of them may be
null. -/
structure NewEpoch where
  epochNo : UInt64
  dependEpochNo : UInt64
  digestAddr : Bytes
  witnesss : Option (List (Option Validator))
  accum : Bytes → Int
  beginNum : UInt64
  endNum : UInt64

/-- A payload that does not decode is `none`. -/
inductive DposMsg where
  | epochChange (payload : Option EpochChange)
  | newEpoch (payload : Option NewEpoch)

/-- A stored block with the validators in it. -/
structure ChainBlock where
  block : Source.Block
  validators : EpochSet

/-- `validators` are those of the last commit state. -/
structure Handler where
  height : UInt64
  validators : EpochSet
  lastValidators : EpochSet
  running : Bool

inductive Routine where
  | listener
  | scanner
  | fullBlk
  | finder
  deriving DecidableEq

/-- What has `ResetEpoch` called. -/
inductive Cause where
  | message
  | full
  | found
  deriving DecidableEq

/-- What the log keeps: an epoch that was put in place, a message that was built, and the validators
that the manager counted with at the time. -/
inductive Act where
  | installed (cause : Cause) (epochNo : UInt64) (members : List Validator)
  | built (epochNo : UInt64) (members : List Validator)

/-- What the history keeps: a block the consensus has decided or the sync has brought, with the
order of the maps it was processed in, and where the handling of the latter ended early; validators
taken over from a block that was found invalid; tokens given back; an epoch. -/
inductive Passage where
  | commit (order : MapOrder) (blk : ChainBlock)
  | sync (order : MapOrder) (blk : ChainBlock)
  | dropped (order : MapOrder) (blk : ChainBlock)
  | unsettled (order : MapOrder) (blk : ChainBlock)
  | refused (validators : EpochSet)
  | unfrozen (order : MapOrder) (epochNo : UInt64)
  | entered (newEpoch : Epoch)

/-- The numbers and addresses are those the messages of the source print. -/
inductive DposErr where
  | json
  | stale (epochNo candidateNo : UInt64)
  | ledger
  | hash (height : UInt64) (named stored : Bytes)
  | already
  | sign
  | noValidators
  | sender (named expected : Bytes)
  | few (epochNo : UInt64)
  | mismatch (epochNo : UInt64)
  | query
  | unfreeze (e : Err)
  | reset
  | start
  | panic
  | hangs

structure Env where
  id : Bytes
  digestAddr : Bytes
  bftNumber : UInt8
  targetBlkCount : UInt64
  genesisValidators : ValidatorSet
  validatorHash : (address : Bytes) → (votingPower : Int) → Bytes

/-- Where the handling of a synced block ends after `BlockProcess`: at the error of `CalcBlockHash`
or `updateToState`, at the panic of the latter, at a commit that cannot be rebuilt, or with the
checks. -/
inductive SyncEnd where
  | refused
  | panics
  | uncommitted
  | checks

structure Answers where
  order : MapOrder
  blockHash : UInt64 → Option Bytes
  /-- The keys of the candidates in the order of their votes; none is an error. -/
  tokenOrder : Option (List Bytes)
  totalValidators : UInt64 → Option ValidatorSet
  signs : Bool
  room : Bool
  resets : Bool
  starts : Bool
  syncEnd : SyncEnd

/-- `heard`, `sent`, `acts` and `history` are logs, newest first: each epoch change that was
handled, with the key that signed it, each message that was broadcast, what came of them, and what
the handler and the ledger went through. `epochList` has the same record as `epoch` for its number
while the handler runs. -/
structure DbftManager where
  ledger : Ledger
  handler : Handler
  totalValidators : ValidatorSet
  curHeight : UInt64
  blkTimeoutCount : Nat
  candidateNo : UInt64
  epoch : Epoch
  epochList : UInt64 → Option Epoch
  epochRecords : UInt64 → Option Epoch
  epochChange : UInt64 → List EpochChange
  newEpoch : UInt64 → Option NewEpoch
  internalMsgQueue : List DposMsg
  fullBlkChangeChan : Bool
  blkChangeChan : Option Epoch
  stuck : List Routine
  halted : Bool
  heard : List (Bytes × EpochChange)
  sent : List DposMsg
  acts : List Act
  history : List Passage

namespace DbftManager

variable (env : Env) (ans : Answers)

/-! ## Building an epoch -/

def getEpoch (epochNo : UInt64) (m : DbftManager) : Option Epoch × DbftManager :=
  match m.epochList epochNo with
  | some epoch => (some epoch, m)
  | none =>
    match m.epochRecords epochNo with
    | some epoch => (some epoch, { m with epochList := update m.epochList epochNo (some epoch) })
    | none => (none, m)

/-- The witnesses of the latest epoch before that is in the cache, with their priorities, and its
number. No result is the panic on an epoch that is missing. -/
def getLastWitnesses (dependEpochNo : UInt64) (m : DbftManager) :
    Option ((List Validator × (Bytes → Int)) × UInt64) × DbftManager :=
  let newDependEpochNo := lastListed m.epochList (dependEpochNo.toNat - 1)
  match m.getEpoch newDependEpochNo with
  | (none, m) => (none, m)
  | (some last, m) => (some ((last.witnessList, last.accum), newDependEpochNo), m)

/-- More than 51 percent of all tokens; a float32 is exact up to there. -/
def isVoteSatisfied (m : DbftManager) (epochNo : UInt64) : Bool :=
  match (runFlat (Hnb.getVoteSum (getContractApi .hnb) epochNo) m.ledger.state).1 with
  | .ok token => decide (5100000 < token.toInt)
  | .error _ => false

def loadTotalValidators (candidateEpochNo : UInt64) : Option ValidatorSet :=
  if candidateEpochNo = 0 then some env.genesisValidators else ans.totalValidators candidateEpochNo

/-- The total validators are asked for before the witnesses are chosen, and not used. -/
def getWitnessesByToken (m : DbftManager) : Except DposErr (List Validator) :=
  match ans.tokenOrder with
  | none => .error .query
  | some tokenOrder =>
    match loadTotalValidators env ans m.candidateNo with
    | none => .error .hangs
    | some _ =>
      match witnessesByToken m.totalValidators.validators env.bftNumber.toNat tokenOrder with
      | none => .error .hangs
      | some witness => .ok witness

/-- `BuildNewEpoch`, whose argument is not used. The number, the begin and the end are set by the
caller. -/
def buildNewEpoch (m : DbftManager) : Except DposErr Epoch × DbftManager :=
  if m.isVoteSatisfied m.epoch.epochNo then
    match m.getWitnessesByToken env ans with
    | .error e => (.error e, m)
    | .ok witness =>
      (.ok ⟨⟨0, m.candidateNo, 0, 0⟩, witnessShuffle m.epoch.epochNo witness,
        m.totalValidators.accum⟩, m)
  else
    let newDependEpochNo := lastListed m.epochList (m.epoch.dependEpochNo.toNat - 1)
    match m.getEpoch newDependEpochNo with
    | (none, m) => (.error .panic, m)
    | (some last, m) =>
      (.ok ⟨⟨0, newDependEpochNo, 0, 0⟩, witnessShuffle m.epoch.epochNo last.witnessList,
        last.accum⟩, m)

/-- Without enough votes the epoch depends on the last witnesses. -/
theorem buildNewEpoch_last {m : DbftManager} (few : m.isVoteSatisfied m.epoch.epochNo = false) :
    m.buildNewEpoch env ans =
      match m.getLastWitnesses m.epoch.dependEpochNo with
      | (none, m) => (.error .panic, m)
      | (some (last, newDependEpochNo), m) =>
        (.ok ⟨⟨0, newDependEpochNo, 0, 0⟩, witnessShuffle m.epoch.epochNo last.1, last.2⟩, m) := by
  unfold buildNewEpoch getLastWitnesses
  rw [few, if_neg Bool.false_ne_true]
  dsimp only
  generalize m.getEpoch _ = looked
  rcases looked with ⟨_ | _, _⟩ <;> rfl

/-! ## Entering an epoch -/

/-- `ResetEpoch` once the handler is reset. Old records of messages go with the epoch before. -/
def install (cause : Cause) (newEpoch : Epoch) (m : DbftManager) :
    Except DposErr Unit × DbftManager :=
  let height := m.handler.height
  match newValidatorSet newEpoch.witnessList newEpoch.accum newEpoch.epochNo
      ⟨newEpoch.epochNo, newEpoch.dependEpochNo, height, height⟩ with
  | none => (.error .panic, m)
  | some validators =>
    let m := { m with
      handler := { m.handler with validators := validators }
      epoch := newEpoch
      acts := .installed cause newEpoch.epochNo m.totalValidators.validators :: m.acts
      history := .entered newEpoch :: m.history }
    match loadTotalValidators env ans newEpoch.epochNo with
    | none => (.error .hangs, m)
    | some totalVals =>
      let prevBgNum := newEpoch.epochNo - 1
      let m := { m with
        totalValidators := totalVals
        blkTimeoutCount := 0
        candidateNo := newEpoch.epochNo + 1
        epochList := update (update m.epochList newEpoch.epochNo (some newEpoch)) prevBgNum none
        epochChange := update m.epochChange prevBgNum []
        newEpoch := update m.newEpoch prevBgNum none }
      if ans.starts then (.ok (), { m with handler := { m.handler with running := true } })
      else (.error .start, m)

/-- The tokens frozen in the epoch that ends are given back first. -/
def resetEpoch (cause : Cause) (newEpoch : Epoch) (m : DbftManager) :
    Except DposErr Unit × DbftManager :=
  match unfreezeToken ans.order m.ledger.state m.epoch.epochNo with
  | (.error .panic, _) => (.error .panic, m)
  | (.error e, _) => (.error (.unfreeze e), m)
  | (.ok (), state) =>
    let m := { m with
      ledger := { m.ledger with state := state }
      handler := { m.handler with running := false }
      history := .unfrozen ans.order m.epoch.epochNo :: m.history }
    if ans.resets then m.install env ans cause newEpoch else (.error .reset, m)

/-! ## Messages -/

def setEpochChange (epoch : EpochChange) (m : DbftManager) : DbftManager :=
  { m with epochChange :=
      update m.epochChange epoch.epochNo (m.epochChange epoch.epochNo ++ [epoch]) }

def isMajorityToCandidates (epochNo : UInt64) (m : DbftManager) : Bool :=
  decide (m.totalValidators.validators.length * 2 / 3 < (m.epochChange epochNo).length)

def isMoreThanOneThridToCandidates (epochNo : UInt64) (m : DbftManager) : Bool :=
  decide (m.totalValidators.validators.length / 3 < (m.epochChange epochNo).length)

/-- `IsExist` of the map of epoch changes. -/
def hasEpochChange (epoch : EpochChange) (m : DbftManager) : Bool :=
  (m.epochChange epoch.epochNo).any fun e => decide (e.digestAddr = epoch.digestAddr)

/-- The validators are sorted by address, and only the address of one is read. -/
def getNewEpochSenderAddr (epochNo : UInt64) (m : DbftManager) : Except DposErr Bytes :=
  let sorted := (m.totalValidators.validators.map Validator.address).insertionSort keyLe
  if sorted.length = 0 then .error .noValidators
  else .ok (sorted.getD (epochNo.toNat % sorted.length) [])

def checkNewEpochSender (epochNo : UInt64) (m : DbftManager) : Bool :=
  match m.getNewEpochSenderAddr epochNo with
  | .ok addr => decide (env.digestAddr = addr)
  | .error _ => false

/-- An unknown hash is left empty. -/
def buildEpochChange (height epochNo : UInt64) : Except DposErr EpochChange :=
  if ans.signs then .ok ⟨epochNo, env.digestAddr, height, (ans.blockHash (height - 1)).getD []⟩
  else .error .sign

/-- Broadcast, and queued for the node itself. -/
def post (msg : DposMsg) (m : DbftManager) : DbftManager :=
  { m with
    sent := msg :: m.sent
    internalMsgQueue := if ans.room then m.internalMsgQueue ++ [msg] else m.internalMsgQueue }

def buildNewEpochMsg (newEpochNo : UInt64) (m : DbftManager) :
    Except DposErr NewEpoch × DbftManager :=
  match m.buildNewEpoch env ans with
  | (.error e, m) => (.error e, m)
  | (.ok epoch, m) =>
    if ans.signs then
      (.ok ⟨newEpochNo, epoch.dependEpochNo, env.digestAddr,
        some (epoch.witnessList.map some), epoch.accum,
            m.handler.height, m.handler.height⟩,
          { m with acts := .built newEpochNo m.totalValidators.validators :: m.acts })
    else (.error .sign, m)

def checkEnterNewEpoch (epochNo : UInt64) (m : DbftManager) : Except DposErr Unit × DbftManager :=
  if m.isMajorityToCandidates epochNo ∧ m.checkNewEpochSender env epochNo then
    match m.buildNewEpochMsg env ans epochNo with
    | (.error e, m) => (.error e, m)
    | (.ok newEpoch, m) => (.ok (), m.post ans (.newEpoch (some newEpoch)))
  else (.ok (), m)

/-- The part of `HandleEpochChange` that joins the change of more than a third. What is looked for
before the broadcast is the change that has just been recorded. -/
def follow (epochChange : EpochChange) (m : DbftManager) : Except DposErr Unit × DbftManager :=
  if m.isMoreThanOneThridToCandidates epochChange.epochNo then
    match buildEpochChange env ans m.curHeight epochChange.epochNo with
    | .error e => (.error e, m)
    | .ok own =>
      let m := if m.candidateNo < epochChange.epochNo
        then { m with candidateNo := epochChange.epochNo } else m
      if m.hasEpochChange epochChange then (.ok (), m)
      else (.ok (), m.post ans (.epochChange (some own)))
  else (.ok (), m)

/-- The checks that come before an epoch change is recorded; a node that is behind records nothing
and reports no error. -/
def recordable (epochChange : EpochChange) (m : DbftManager) : Except DposErr Bool :=
  if epochChange.epochNo < m.candidateNo - 1 then .error (.stale epochChange.epochNo m.candidateNo)
  else if m.curHeight < epochChange.height then .ok false
  else
    match ans.blockHash (epochChange.height - 1) with
    | none => .error .ledger
    | some hash =>
      if hash ≠ epochChange.hash then .error (.hash epochChange.height epochChange.hash hash)
      else if (m.newEpoch epochChange.epochNo).isSome then .error .already
      else .ok true

def handleEpochChange (payload : Option EpochChange) (m : DbftManager) :
    Except DposErr Unit × DbftManager :=
  match payload with
  | none => (.error .json, m)
  | some epochChange =>
    match m.recordable ans epochChange with
    | .error e => (.error e, m)
    | .ok false => (.ok (), m)
    | .ok true =>
      match (m.setEpochChange epochChange).follow env ans epochChange with
      | (.error e, m) => (.error e, m)
      | (.ok (), m) => m.checkEnterNewEpoch env ans epochChange.epochNo

/-- Each witness of the message has one of the node's own with its hash, which is of address and
power only. -/
def checkWitnesses (self : List Validator) : List (Option Validator) → Except DposErr Bool
  | [] => .ok true
  | none :: _ => .error .panic
  | some netWitness :: rest =>
    if self.any fun selfWitness => decide
      (env.validatorHash netWitness.address netWitness.votingPower =
        env.validatorHash selfWitness.address selfWitness.votingPower) then
      checkWitnesses self rest
    else .ok false

def checkNewEpochMatch (net : NewEpoch) (witnesses : List (Option Validator)) (height : UInt64)
    (self : Epoch) : Except DposErr Bool :=
  if net.beginNum ≠ height ∨ net.endNum ≠ height ∨ net.dependEpochNo ≠ self.dependEpochNo ∨
      witnesses.length ≠ self.witnessList.length then .ok false
  else checkWitnesses env self.witnessList witnesses

/-- `checkNewEpochMatch` for any two epochs. -/
def checkEpochs (net : NewEpoch) (witnesses : List (Option Validator)) (self : Epoch) :
    Except DposErr Bool :=
  if net.beginNum ≠ self.beginNum ∨ net.endNum ≠ self.endNum ∨
    net.dependEpochNo ≠ self.dependEpochNo ∨
      witnesses.length ≠ self.witnessList.length then .ok false
  else checkWitnesses env self.witnessList witnesses

/-- The checks of `HandleNewEpoch` up to the node's own epoch. -/
def expected (newEpoch : NewEpoch) (m : DbftManager) : Except DposErr Unit :=
  if newEpoch.epochNo < m.candidateNo then .error (.stale newEpoch.epochNo m.candidateNo)
  else
    match m.getNewEpochSenderAddr newEpoch.epochNo with
    | .error e => .error e
    | .ok addr =>
      if newEpoch.digestAddr ≠ addr then .error (.sender newEpoch.digestAddr addr)
      else if m.isMoreThanOneThridToCandidates newEpoch.epochNo then .ok ()
      else .error (.few newEpoch.epochNo)

/-- The comparison with the node's own epoch, and the epoch of the message. -/
def matched (newEpoch : NewEpoch) (height : UInt64) (self : Epoch) : Except DposErr Epoch :=
  match newEpoch.witnesss with
  | none => .error .json
  | some witnesses =>
    match checkNewEpochMatch env newEpoch witnesses height self with
    | .error e => .error e
    | .ok false => .error (.mismatch newEpoch.epochNo)
    | .ok true =>
      .ok ⟨⟨newEpoch.epochNo, newEpoch.dependEpochNo, newEpoch.beginNum, newEpoch.endNum⟩,
        witnesses.reduceOption, newEpoch.accum⟩

def handleNewEpoch (payload : Option NewEpoch) (m : DbftManager) :
    Except DposErr NewEpoch × DbftManager :=
  match payload with
  | none => (.error .json, m)
  | some newEpoch =>
    match m.expected newEpoch with
    | .error e => (.error e, m)
    | .ok () =>
      match m.buildNewEpoch env ans with
      | (.error e, m) => (.error e, m)
      | (.ok selfEpoch, m) =>
        match matched env newEpoch m.handler.height selfEpoch with
        | .error e => (.error e, m)
        | .ok netEpoch =>
          match m.resetEpoch env ans .message netEpoch with
          | (.error e, m) => (.error e, m)
          | (.ok (), m) => (.ok newEpoch, m)

/-- A message that is signed with `key`; an announced epoch is noted once it is in place. -/
def handle (key : Bytes) (msg : DposMsg) (m : DbftManager) : Except DposErr Unit × DbftManager :=
  match msg with
  | .epochChange payload =>
    { m with heard := payload.toList.map (key, ·) ++ m.heard }.handleEpochChange env ans payload
  | .newEpoch payload =>
    match m.handleNewEpoch env ans payload with
    | (.error e, m) => (.error e, m)
    | (.ok newEpoch, m) =>
      (.ok (), { m with newEpoch := update m.newEpoch newEpoch.epochNo (some newEpoch) })

/-! ## Blocks -/

/-- `CheckEpochChange`: the epoch of the handler's validators is another one, the epoch has its
blocks, or it goes on. In the first two cases the handler waits for a new epoch. -/
def checkEpochChange (m : DbftManager) : Except DposErr Unit × DbftManager :=
  match m.handler.validators.info with
  | none => (.error .panic, m)
  | some pre =>
    let validators := m.handler.validators
    let height := m.handler.height
    if m.epoch.epochNo ≠ pre.epochNo then
      (.ok (), { m with
        handler := { m.handler with running := false }
        blkChangeChan := some ⟨{ pre with endNum := height }, validators.set.validators,
          validators.set.accum⟩ })
    else
      let info : EpochInfo := { pre with endNum := height }
      let epoch : Epoch := ⟨info, validators.set.validators, validators.set.accum⟩
      let m := { m with
        epoch := epoch
        epochList := update m.epochList epoch.epochNo (some epoch) }
      if epoch.isBlksToTarget env.targetBlkCount then
        (.ok (), { m with
          handler := { m.handler with running := false }
          fullBlkChangeChan := true })
      else
        let m := { m with handler := { m.handler with
          validators := { validators with info := some info } } }
        if info.endNum - info.beginNum = 1 then
          (.ok (), { m with epochRecords := update m.epochRecords epoch.epochNo (some epoch) })
        else (.ok (), m)

/-- A block that the consensus has decided: the next validators are those of the last commit state,
moved on. -/
def commitBlock (blk : ChainBlock) (m : DbftManager) : Except DposErr Unit × DbftManager :=
  match blockProcess ans.order m.ledger blk.block with
  | (.error .panic, ledger) => (.error .panic, { m with ledger := ledger })
  | (.error _, ledger) => (.ok (), { m with ledger := ledger })
  | (.ok (), ledger) =>
    let m := { m with ledger := ledger, history := .commit ans.order blk :: m.history }
    match m.handler.validators.set.incrementAccum 1 with
    | none => (.error .panic, m)
    | some next =>
      checkEpochChange env { m with handler := { m.handler with
        height := m.handler.height + 1
        validators := { m.handler.validators with set := next }
        lastValidators := m.handler.validators } }

/-- `updateToState` with the state of a synced block: the next validators are those of the block. -/
def updateToState (blk : ChainBlock) (m : DbftManager) : DbftManager :=
  { m with handler := { m.handler with
      height := m.handler.height + 1
      validators := blk.validators
      lastValidators := m.handler.validators } }

/-- A block that came by sync and was found valid. The error of `BlockProcess` is not looked at. -/
def syncBlock (blk : ChainBlock) (m : DbftManager) : Except DposErr Unit × DbftManager :=
  match blockProcess ans.order m.ledger blk.block with
  | (.error .panic, ledger) => (.error .panic, { m with ledger := ledger })
  | (_, ledger) =>
    let m := { m with ledger := ledger }
    match ans.syncEnd with
    | .refused => (.ok (), { m with history := .dropped ans.order blk :: m.history })
    | .panics => (.error .panic, { m with history := .dropped ans.order blk :: m.history })
    | .uncommitted =>
      (.ok (), { m.updateToState blk with history := .unsettled ans.order blk :: m.history })
    | .checks =>
      checkEpochChange env { m.updateToState blk with history := .sync ans.order blk :: m.history }

/-- A block that came by sync and was found invalid after its validators had been taken over. -/
def takeValidators (validators : EpochSet) (m : DbftManager) : DbftManager :=
  { m with
    handler := { m.handler with validators := validators }
    history := .refused validators :: m.history }

def fullBlkChange (m : DbftManager) : Except DposErr Unit × DbftManager :=
  match m.buildNewEpoch env ans with
  | (.error e, m) => (.error e, m)
  | (.ok epoch, m) =>
    let height := m.handler.height
    m.resetEpoch env ans .full
      { epoch with epochNo := m.candidateNo, beginNum := height, endNum := height }

/-! ## Timeouts -/

/-- `IsNeedCheckEpoch`: the validators of the next epoch are more than the witnesses, or others. -/
def isNeedCheckEpoch (m : DbftManager) : Except DposErr Bool :=
  match loadTotalValidators env ans m.candidateNo with
  | none => .error .hangs
  | some total =>
    let hash (v : Validator) := env.validatorHash v.address v.votingPower
    if total.validators.length < m.epoch.witnessList.length then .ok false
    else if m.epoch.witnessList.length < total.validators.length then .ok true
    else .ok (total.validators.any fun val => m.epoch.witnessList.all fun witness =>
      decide (hash val ≠ hash witness))

/-- `ReqEpochChange`, up to the wait for the new epoch. -/
def reqEpochChange (height : UInt64) (m : DbftManager) : Except DposErr Unit × DbftManager :=
  match buildEpochChange env ans height m.candidateNo with
  | .error _ => (.ok (), { m with candidateNo := m.candidateNo + 1 })
  | .ok own =>
    (.ok (), { m with handler := { m.handler with running := false } }.post ans
      (.epochChange (some own)))

/-- One turn of the scanner: no block since the last time while there are transactions, twice. -/
def blkTimeout (height : Option UInt64) (txs : Bool) (m : DbftManager) :
    Except DposErr Unit × DbftManager :=
  match height with
  | none => (.ok (), m)
  | some h =>
    if h ≠ m.curHeight then (.ok (), { m with curHeight := h })
    else if txs then
      match m.isNeedCheckEpoch env ans with
      | .error e => (.error e, m)
      | .ok false => (.ok (), m)
      | .ok true =>
        if m.blkTimeoutCount = 1 then m.reqEpochChange env ans h
          else (.ok (), { m with blkTimeoutCount := 1 })
    else (.ok (), m)

/-- The wait for the new epoch was in vain. -/
def waitOver (candidateBgNum : UInt64) (m : DbftManager) : DbftManager :=
  { m with
    candidateNo := if m.candidateNo = candidateBgNum then m.candidateNo + 1 else m.candidateNo
    handler := { m.handler with running := ans.resets && ans.starts } }

/-! ## The proposer -/

/-- The place of the last proposer among the last validators, and the next one. An address that is
not found has the place -1. None is a missing proposer, whose address is read. -/
def nextPlace (validators : List Validator) (height : UInt64) (m : DbftManager) : Option Int :=
  if height = m.epoch.beginNum then some 0
  else
    m.handler.lastValidators.set.proposer.map fun lastProposer =>
      let valIndex := (m.handler.lastValidators.set.getByAddress lastProposer.address).1 + 1
      if valIndex = validators.length then 0 else valIndex

/-- Whether the node proposes, and who does. No result is a panic. -/
def isProposerByDPoS (height : UInt64) (round : Int32) (m : DbftManager) :
    Option (Bool × Option Validator) :=
  match (m.getEpoch m.epoch.epochNo).1 with
  | none => some (false, none)
  | some currentEpoch =>
    let validators := currentEpoch.witnessList
    if validators.length = 0 then some (false, none)
    else
      (m.nextPlace validators height).bind fun valIndex =>
        let index := (valIndex + round.toInt).tmod validators.length
        -- a negative round may give an index outside of the slice
        if index < 0 then none
        else validators[index.toNat]?.map fun newProposer =>
          (decide (env.digestAddr = newProposer.address), some newProposer)

/-- The block carries the validators of the node that makes it, with the proposer of the round as
theirs. -/
def makeBlockDPoS (txs : List Transaction) (proposer : Option Validator)
    (m : DbftManager) : ChainBlock :=
  let validators := m.handler.validators
  ⟨⟨m.handler.height, txs⟩, { validators with set := { validators.set with proposer := proposer } }⟩

end DbftManager

/-! ## Runs -/

/-- What the goroutines are given: a message of a peer, with what `Verify` says of it and its
sender; the turn of the oldest own message; the timer, with the height and whether there are
transactions; the end of a wait; a block decided, a block synced, and a block that was found invalid
after its validators had been taken over; and what `CheckEpochChange` has put in one of the two
channels. -/
inductive Event where
  | peer (sender : Bytes) (verified : Bool) (msg : DposMsg)
  | own
  | blkTimeout (height : Option UInt64) (txs : Bool)
  | waitOver (candidateBgNum : UInt64)
  | commit (blk : ChainBlock)
  | sync (blk : ChainBlock)
  | refused (validators : EpochSet)
  | fullBlkChange
  | blkChange

namespace DbftManager

variable (env : Env) (ans : Answers)

/-- How a turn of a goroutine ends. -/
def settle (routine : Routine) : Except DposErr Unit × DbftManager → DbftManager
  | (.error .panic, m) => { m with halted := true }
  | (.error .hangs, m) => { m with stuck := routine :: m.stuck }
  | (_, m) => m

/-- A turn of the goroutine, if it still has one. -/
def turn (routine : Routine) (body : DbftManager → Except DposErr Unit × DbftManager)
    (m : DbftManager) : DbftManager :=
  if m.halted ∨ routine ∈ m.stuck then m else settle routine (body m)

/-- A turn of the handler, which is no goroutine of the manager. A panic in it ends the process
too. -/
def handlerTurn (body : DbftManager → Except DposErr Unit × DbftManager)
    (m : DbftManager) : DbftManager :=
  if m.halted ∨ ¬ m.handler.running then m
  else
    match body m with
    | (.error _, m) => { m with halted := true }
    | (.ok (), m) => m

def deliver (e : Event) (m : DbftManager) : DbftManager :=
  match e with
  | .peer sender verified msg => if verified then m.turn .listener
      (handle env ans sender msg) else m
  | .own =>
    match m.internalMsgQueue with
    | [] => m
    | msg :: rest => m.turn .listener fun m =>
        { m with internalMsgQueue := rest }.handle env ans env.id msg
  | .blkTimeout height txs => m.turn .scanner (blkTimeout env ans height txs)
  | .waitOver candidateBgNum => m.turn .scanner fun m => (.ok (), m.waitOver ans candidateBgNum)
  | .commit blk => m.handlerTurn (commitBlock env ans blk)
  | .sync blk => m.handlerTurn (syncBlock env ans blk)
  | .refused validators => m.handlerTurn fun m => (.ok (), m.takeValidators validators)
  | .fullBlkChange =>
    if m.fullBlkChangeChan then
      m.turn .fullBlk fun m => { m with fullBlkChangeChan := false }.fullBlkChange env ans
    else m
  | .blkChange =>
    match m.blkChangeChan with
    | some newEpoch =>
      m.turn .finder fun m => { m with blkChangeChan := none }.resetEpoch env ans .found newEpoch
    | none => m

def run (m : DbftManager) (events : List (Event × Answers)) : DbftManager :=
  events.foldl (fun m event => m.deliver env event.2 event.1) m

end DbftManager

/-! ## What most functions let alone -/

/-- The cache has the record of the current epoch. -/
def Listed (m : DbftManager) : Prop := m.epochList m.epoch.epochNo = some m.epoch

/-- The records of messages, the logs, the ledger, the epoch and the validators stay, and the epoch
stays in the cache. -/
structure Calm (m m' : DbftManager) : Prop where
  epochChange : m'.epochChange = m.epochChange
  totalValidators : m'.totalValidators = m.totalValidators
  heard : m'.heard = m.heard
  acts : m'.acts = m.acts
  history : m'.history = m.history
  ledger : m'.ledger = m.ledger
  epoch : m'.epoch = m.epoch
  height : m'.handler.height = m.handler.height
  validators : m'.handler.validators = m.handler.validators
  lastValidators : m'.handler.lastValidators = m.handler.lastValidators
  listed : Listed m → Listed m'

section

variable (env : Env) (ans : Answers) (m : DbftManager)

theorem Calm.refl : Calm m m := ⟨rfl, rfl, rfl, rfl, rfl, rfl, rfl, rfl, rfl, rfl, id⟩

theorem getEpoch_calm (epochNo : UInt64) : Calm m (m.getEpoch epochNo).2 := by
  unfold DbftManager.getEpoch
  split
  · exact .refl m
  next absent =>
    split
    · refine ⟨rfl, rfl, rfl, rfl, rfl, rfl, rfl, rfl, rfl, rfl, fun hl => ?_⟩
      have other : m.epoch.epochNo ≠ epochNo := by
        rintro rfl
        rw [show m.epochList m.epoch.epochNo = some m.epoch from hl] at absent
        cases absent
      exact (update_of_ne other ..).trans hl
    · exact .refl m

theorem buildNewEpoch_calm : Calm m (m.buildNewEpoch env ans).2 := by
  unfold DbftManager.buildNewEpoch
  split
  · split <;> exact .refl m
  · have looked := getEpoch_calm m (lastListed m.epochList (m.epoch.dependEpochNo.toNat - 1))
    dsimp only
    split
    next _ failed =>
      rw [failed] at looked
      exact looked
    next _ _ found =>
      rw [found] at looked
      exact looked

theorem follow_calm (change : EpochChange) : Calm m (m.follow env ans change).2 := by
  unfold DbftManager.follow
  split
  · split
    · exact .refl m
    · dsimp only
      split_ifs <;> exact ⟨rfl, rfl, rfl, rfl, rfl, rfl, rfl, rfl, rfl, rfl, id⟩
  · exact .refl m

theorem blkTimeout_calm (height : Option UInt64) (txs : Bool) :
    Calm m (m.blkTimeout env ans height txs).2 := by
  have request (h : UInt64) : Calm m (m.reqEpochChange env ans h).2 := by
    unfold DbftManager.reqEpochChange
    split <;> exact ⟨rfl, rfl, rfl, rfl, rfl, rfl, rfl, rfl, rfl, rfl, id⟩
  unfold DbftManager.blkTimeout
  split
  · exact .refl m
  next h =>
    split
    · exact ⟨rfl, rfl, rfl, rfl, rfl, rfl, rfl, rfl, rfl, rfl, id⟩
    · split
      · split
        · exact .refl m
        · exact .refl m
        · split
          · exact request h
          · exact ⟨rfl, rfl, rfl, rfl, rfl, rfl, rfl, rfl, rfl, rfl, id⟩
      · exact .refl m

end

end HNBChain.Audit.Source.Dbft
