import HNBChain.Audit.Source.Algorand.Handlers

/-!
# Blocks from other nodes

The branch of `DeliverMsg` that takes the notifications of the sync service. `checkNotify` is what
comes before `BlockProcess`, `follow` is `BlockProcess` and what comes after it.

A peer's block carries the consensus block in two fields of its header, which may not decode and
from which parts may be missing. The data hash that is compared with the header's travels with them:
`Standard2Cons` puts it where `Data.Hash` keeps the hash it has computed.

The consensus data of blocks that are stored already, and faults of the database, are answers of the
surroundings.
-/
namespace HNBChain.Audit.Source.Algorand

open Lib

structure CustomTDMHeader where
  header : Option Header
  evidence : List Bytes
  lastCommit : Option Commit
  /-- Here a hash that is missing and one that is empty are told apart. -/
  dataHash : Option Bytes
  validatorInfo : Option ValidatorInfo

structure PeerHeader where
  blockNum : UInt64
  /-- None if the octets do not decode. -/
  consArgs : Option CustomTDMHeader
  ext : Option (Option Commit)
  /-- The other fields. They are only hashed. -/
  other : Bytes

/-- A header or a transaction may be null. -/
structure PeerBlock where
  header : Option PeerHeader
  txs : List (Option Transaction)

structure SyncNotify where
  version : Nat
  finishFlag : Bool
  block : Option PeerBlock

structure SyncEnv extends Env where
  /-- `json.Marshal`, of a null transaction as well. -/
  encodeTx : Option Transaction → Bytes
  /-- The hash of the header, with the state hash that `BlockProcess` has put in it. -/
  calcBlockHash : PeerBlock → Ledger → Bytes

structure SyncAnswers where
  order : MapOrder
  /-- What `BlockProcess` returns and leaves if the database fails. -/
  fault : Option (Except Err Unit × Ledger)
  /-- The validators of a stored block. -/
  storedValidators : Nat → Except Err ValidatorSet
  /-- Whether the functions run after a block let the consensus go on. -/
  continueConsensus : Bool

/-! ## The consensus block -/

/-- A consensus block with the parts that are there. -/
structure ConsBlock where
  header : Option Header
  txs : List Bytes
  /-- What `Data.Hash` returns if it is not nil. -/
  hash : Option Bytes
  evidence : List Bytes
  lastCommit : Option Commit
  currentCommit : Option Commit
  validatorInfo : Option ValidatorInfo

def standard2Cons (env : SyncEnv) (header : PeerHeader) (txs : List (Option Transaction)) :
    Option ConsBlock :=
  match header.consArgs, header.ext with
  | some customHeader, some currentCommit =>
    some
      { header := customHeader.header
        txs := txs.map env.encodeTx
        hash := customHeader.dataHash
        evidence := customHeader.evidence
        lastCommit := customHeader.lastCommit
        currentCommit := currentCommit
        validatorInfo := customHeader.validatorInfo }
  | _, _ => none

/-- `Data.Hash` of data that has a hash already. -/
def Digests.keeping (d : Digests) (hash : Option Bytes) : Digests :=
  { d with txs := fun txs => hash.getD (d.txs txs) }

/-- `ValidateBlock`. A missing last commit is read after the number of transactions is checked. -/
def ConsBlock.validate (d : Digests) (s : State) (b : ConsBlock) : Except Err Unit :=
  match b.header, b.lastCommit with
  | some header, some lastCommit =>
    validateBlock (d.keeping b.hash) s
      { header := header
        data := some b.txs
        evidence := b.evidence
        lastCommit := lastCommit
        currentCommit := b.currentCommit
        validatorInfo := b.validatorInfo }
  | some header, none =>
    if header.numTxs ≠ b.txs.length then .error (.new "Wrong Block.Header.NumTxs")
      else .error .panic
  | none, _ => .error .panic

def loadValidators (ans : SyncAnswers) (tdmBlk : ConsBlock) : Except Err ValidatorSet :=
  match tdmBlk.validatorInfo with
  | none => .error .panic
  | some info =>
    match info.validators with
    | some curVal => .ok curVal
    | none => ans.storedValidators info.lastHeightChanged

/-- The consensus parameters and the previous hash are not set. -/
def loadLastCommitStateFromBlkAndMem (ans : SyncAnswers) (n : Node) (newBlk : PeerHeader)
    (tdmBlk : ConsBlock) : Except Err State :=
  if newBlk.blockNum = 0 then .error (.new "can not be num 0")
  else
    match loadValidators ans tdmBlk, tdmBlk.currentCommit, tdmBlk.header, tdmBlk.validatorInfo with
    | .error e, _, _, _ => .error e
    | .ok curValidators, some currentCommit, some header, some info =>
      .ok { lastBlockNum := header.blockNum
            lastBlockTotalTx := header.totalTxs
            lastBlockID := currentCommit.blockID
            lastBlockTime := header.time
            validators := curValidators
            lastValidators := n.lastCommitState.validators
            lastHeightValidatorsChanged := info.lastHeightChanged
            consensusParams := .zero
            previousHash := []
            prevVRFValue := header.blkVRFValue
            prevVRFProof := header.blkVRFProof }
    | .ok _, _, _, _ => .error .panic

/-! ## Before `BlockProcess` -/

/-- How the checks end. `reset` and `passed` have the node with the validators that a newer block
brought, which are taken over before the block is validated. -/
inductive Verdict where
  | ignored
  | finished
  | reset (n : Node)
  | panics
  | passed (block : PeerBlock) (header : PeerHeader) (tdmBlk : ConsBlock)
      (status : State) (n : Node)

def Node.takeValidators (status : State) (n : Node) : Node :=
  if n.lastCommitState.lastHeightValidatorsChanged < status.lastHeightValidatorsChanged then
    { n with lastCommitState := { n.lastCommitState with validators := status.validators } }
  else n

def Node.checkBlock (env : SyncEnv) (ans : SyncAnswers) (block : PeerBlock) (n : Node) : Verdict :=
  match block.header with
  | none => .panics
  | some header =>
    match standard2Cons env header block.txs with
    | none => .reset n
    | some tdmBlk =>
      match loadLastCommitStateFromBlkAndMem ans n header tdmBlk with
      | .error .panic => .panics
      | .error _ => .reset n
      | .ok status =>
        match tdmBlk.validate env.digests (n.takeValidators status).lastCommitState with
        | .error .panic => .panics
        | .error _ => .reset (n.takeValidators status)
        | .ok () => .passed block header tdmBlk status (n.takeValidators status)

/-- A node with its ledger and the version of the sync it waits for. -/
structure SyncNode where
  node : Node
  ledger : Ledger
  version : Nat

namespace SyncNode

def checkNotify (env : SyncEnv) (ans : SyncAnswers) (syncData : SyncNotify)
    (s : SyncNode) : Verdict :=
  if ¬ s.node.isContinueConsensus then .ignored
  else if syncData.version ≠ s.version then .ignored
  else if syncData.finishFlag then .finished
  else
    match syncData.block with
    | none => .reset s.node
    | some block => s.node.checkBlock env ans block

/-! ## `BlockProcess` and after -/

/-- A null transaction panics when its turn comes. -/
def processBlock (order : MapOrder) (ledger : Ledger) (blockNum : UInt64)
    (txs : List (Option Transaction)) : Except Err Unit × Ledger :=
  match txs.mapM id with
  | some txs => blockProcess order ledger ⟨blockNum, txs⟩
  | none =>
    match processTxs ledger.state (txs.takeWhile Option.isSome).reduceOption (startRun ledger) with
    | (.error e, run) => (.error e, { ledger with wrongIndex := run.wrongIndex })
    | (.ok (), run) => (.error .panic, { ledger with wrongIndex := run.wrongIndex })

def resetSync (s : SyncNode) : SyncNode := { s with version := s.version + 1 }

/-- The two errors of `updateToState`. -/
def RefusesState (status : State) (n : Node) : Prop :=
  -1 < n.commitRound ∧ 0 < n.height ∧ n.height ≠ status.lastBlockNum ∨
    n.lastCommitState.lastBlockNum + 1 ≠ n.height

instance decidableRefusesState (status : State) (n : Node) : Decidable (RefusesState status n) :=
  inferInstanceAs (Decidable (_ ∨ _))

/-- `updateToState`, then the commit of the block. -/
def settle (ans : SyncAnswers) (tdmBlk : ConsBlock) (status : State) (s : SyncNode) : SyncNode :=
  if RefusesState status s.node then s.resetSync
  else if (s.node.updateToState status).halted then { s with node := s.node.updateToState status }
  else
    let n := s.node.updateToState status
    match reconstructLastCommit status (tdmBlk.currentCommit.getD ⟨.zero, []⟩) with
    | none => { s with node := n }.resetSync
    | some lastCommit =>
      { s with node := { n with
          lastCommit := lastCommit.or n.lastCommit
          isContinueConsensus := n.isContinueConsensus && ans.continueConsensus } }

/-- The error of `BlockProcess` is not looked at: what is tested after it is an older one, nil. -/
def follow (env : SyncEnv) (ans : SyncAnswers) (block : PeerBlock) (header : PeerHeader)
    (tdmBlk : ConsBlock) (status : State) (s : SyncNode) : SyncNode :=
  match ans.fault.getD (processBlock ans.order s.ledger header.blockNum block.txs) with
  | (.error .panic, ledger) => { s with node := s.node.halt, ledger := ledger }
  | (_, ledger) =>
    { s with ledger := ledger }.settle ans tdmBlk
      { status with previousHash := env.calcBlockHash block s.ledger }

def deliverSync (env : SyncEnv) (ans : SyncAnswers) (syncData : SyncNotify)
    (s : SyncNode) : SyncNode :=
  match s.checkNotify env ans syncData with
  | .ignored => s
  | .finished => s.resetSync
  | .reset n => { s with node := n }.resetSync
  | .panics => { s with node := s.node.halt }
  | .passed block header tdmBlk status n =>
      { s with node := n }.follow env ans block header tdmBlk status

/-- A node that has stopped takes no more. -/
def step (env : SyncEnv) (s : SyncNode) (event : SyncNotify × SyncAnswers) : SyncNode :=
  if s.node.halted then s else s.deliverSync env event.2 event.1

def run (env : SyncEnv) (s : SyncNode) (events : List (SyncNotify × SyncAnswers)) : SyncNode :=
  events.foldl (step env) s

end SyncNode

/-! ## What has passed -/

section Passed

variable {env : SyncEnv} {ans : SyncAnswers}

variable {header : PeerHeader} {tdmBlk : ConsBlock}

theorem checkBlock_passed {n n' : Node} {block block' : PeerBlock} {status : State}
    (hp : n.checkBlock env ans block = .passed block' header tdmBlk status n') :
    block' = block ∧ block.header = some header ∧ standard2Cons env header block.txs = some tdmBlk ∧
      loadLastCommitStateFromBlkAndMem ans n header tdmBlk = .ok status ∧
      n' = n.takeValidators status ∧ tdmBlk.validate env.digests n'.lastCommitState = .ok () := by
  unfold Node.checkBlock at hp
  split at hp
  · cases hp
  · rename_i header' there
    split at hp
    · cases hp
    · rename_i tdmBlk' converted
      split at hp
      · cases hp
      · cases hp
      · rename_i status' loaded
        split at hp
        · cases hp
        · cases hp
        · rename_i valid
          cases hp
          exact ⟨rfl, there, converted, loaded, rfl, valid⟩

/-- What the conversion takes from the header, and what it keeps. -/
theorem standard2Cons_some {txs : List (Option Transaction)}
    (hc : standard2Cons env header txs = some tdmBlk) :
    ∃ custom, header.consArgs = some custom ∧ tdmBlk.header = custom.header ∧
      tdmBlk.txs = txs.map env.encodeTx ∧ tdmBlk.hash = custom.dataHash := by
  unfold standard2Cons at hc
  split at hc
  · rename_i custom _ decoded _
    cases hc
    exact ⟨custom, decoded, rfl, rfl, rfl⟩
  · cases hc

theorem checkNotify_passed {s : SyncNode} {syncData : SyncNotify} {block : PeerBlock}
    {status : State} {n : Node}
    (hp : s.checkNotify env ans syncData = .passed block header tdmBlk status n) :
    syncData.block = some block ∧ s.node.checkBlock env ans block =
    .passed block header tdmBlk status n := by
  unfold SyncNode.checkNotify at hp
  split_ifs at hp
  split at hp
  · cases hp
  · rename_i block' there
    obtain ⟨rfl, _⟩ := checkBlock_passed hp
    exact ⟨there, hp⟩

/-- What the state of a passed block says is in the block. -/
theorem loadLastCommitState_ok {n : Node} {status : State}
    (loaded : loadLastCommitStateFromBlkAndMem ans n header tdmBlk = .ok status) :
    ∃ h, tdmBlk.header = some h ∧ status.lastBlockNum = h.blockNum := by
  unfold loadLastCommitStateFromBlkAndMem at loaded
  split_ifs at loaded
  split at loaded
  · cases loaded
  · rename_i there _
    cases loaded
    exact ⟨_, there, rfl⟩
  · cases loaded

/-- A block that validates has a header, which is that of the next height, and the hash that came
with the transactions, if one did, is the header's. -/
theorem validate_ok {d : Digests} {s : State} {b : ConsBlock} (hv : b.validate d s = .ok ()) :
    ∃ h, b.header = some h ∧ h.blockNum = s.lastBlockNum + 1 ∧
    h.dataHash = b.hash.getD (d.txs b.txs) := by
  unfold ConsBlock.validate at hv
  split at hv
  · rename_i header lastCommit there _
    have hch := validateBlock_ok hv
    exact ⟨header, there, hch.blockNum, hch.basic.dataHash⟩
  · split_ifs at hv
  · cases hv

end Passed

end HNBChain.Audit.Source.Algorand
