import HNBChain.Audit.Source.Algorand.Block

/-!
# Making a block

`MakeBlock` of a block and the three functions of `State` that complete it with what the state says.
The time is an argument. The parts that are cut from the encoded block are left out.
-/
namespace HNBChain.Audit.Source.Algorand

open Lib

/-- What a proposer hands over; `numTxs` is counted apart from the transactions. -/
structure BlkMaterial where
  height : Nat
  numTxs : Nat
  txs : List Bytes
  commit : Commit
  proposer : Option Validator
  blkVRFValue : Bytes
  blkVRFProof : Bytes

section

variable (d : Digests) (now : Nat)

/-- A header with nothing in it but the number, the time and the count of transactions. -/
def Header.blank (blkNum : Nat) (numTxs : Int) : Header where
  blockNum := blkNum
  time := now
  numTxs := numTxs
  lastBlockID := .zero
  totalTxs := 0
  lastCommitHash := []
  dataHash := []
  validatorsHash := []
  consensusHash := []
  appHash := []
  lastResultsHash := []
  blkVRFValue := []
  blkVRFProof := []
  evidenceHash := []

def makeBlock (blkNum : Nat) (txs : List Bytes) (commit : Commit) : Block :=
  Block.fillHeader d
    { header := .blank now blkNum txs.length
      data := some txs
      evidence := []
      lastCommit := commit
      currentCommit := none
      validatorInfo := none }

namespace State

variable (s : State)

/-- The validators go with the block only at the height they changed for. -/
def makeBlock (blkNum : Nat) (txs : List Bytes) (commit : Commit) : Block :=
  let block := Algorand.makeBlock d now blkNum txs commit
  { block with
    header :=
      { block.header with
        totalTxs := s.lastBlockTotalTx + block.header.numTxs
        lastBlockID := s.lastBlockID
        validatorsHash := s.validators.hash d
        consensusHash := d.params s.consensusParams }
    validatorInfo := some ⟨if s.lastHeightValidatorsChanged = blkNum
      then some s.validators else none,
        s.lastHeightValidatorsChanged⟩ }

/-- The count is taken from the material, and the validators always go with the block. -/
def makeBlockDPoS (material : BlkMaterial) : Block :=
  let block := Algorand.makeBlock d now material.height material.txs material.commit
  { block with
    header :=
      { block.header with
        numTxs := material.numTxs
        totalTxs := s.lastBlockTotalTx + material.numTxs
        lastBlockID := s.lastBlockID
        validatorsHash := s.validators.hash d
        consensusHash := d.params s.consensusParams }
    validatorInfo := some
      ⟨some { s.validators with proposer := material.proposer }, s.lastHeightValidatorsChanged⟩ }

end State

end

end HNBChain.Audit.Source.Algorand
