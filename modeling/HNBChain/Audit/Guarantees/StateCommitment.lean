import HNBChain.Audit.Source.Footprint
import HNBChain.Audit.Source.Payload

/-!
# What the state hash of a block commits to

`BlockProcess` serializes the state items for the hash before it collects them from the pending
changes, so the list under the hash is empty. What is left are the nonces. Two blocks with the same
senders and nonces have the same state hash, whatever their calls write.

The hash then says something about the written changes only where senders and nonces come with
everything else a change depends on: the calls, and the stored values they touch.
-/
namespace HNBChain.Audit.Guarantees.StateCommitment

open Lib Source

/-- A block that `BlockProcess` has accepted. -/
structure Execution where
  order : MapOrder
  ledger : Ledger
  blk : Block
  final : Ledger
  accepted : blockProcess order ledger blk = (.ok (), final)

namespace Execution

variable (e : Execution)

/-- The loop over the transactions. -/
def run : BlockRun := (processTxs e.ledger.state e.blk.txs (startRun e.ledger)).2

/-- The hash in the stored header, as the data it is taken of. -/
def stateHash : Option StateChange :=
  (find e.final.blocks e.blk.blockNum).map StoredBlock.stateHash

/-- The contract state items that are written. -/
def changes : Set (Sigma fun _ : Key => Change Bytes) := { item | item ∈ allState e.order e.run }

def sendersAndNonces : List (Address × UInt64) :=
  e.blk.txs.map fun tx => (tx.fromAddr, tx.nonceValue)

/-- What the contracts are called with. -/
def calls : List (Bytes × Bytes × Address) :=
  e.blk.txs.map fun tx => (tx.contractName, tx.payload, tx.fromAddr)

end Execution

/-- Same senders and nonces, same state hash: same changes. -/
def Commits (e e' : Execution) : Prop :=
  e.sendersAndNonces = e'.sendersAndNonces → e.stateHash = e'.stateHash → e.changes = e'.changes

/-- The keys that the calls of a block touch, each in the state it is made in. -/
def Touched (base : World) : List Transaction → BlockRun → Key → Prop
  | [], _, _ => False
  | tx :: rest, run, key =>
    (∃ chain, getHandler tx.contractName = .ok chain ∧
      key ∈ callTouches (visible base (run.pending chain)) (contractApi chain tx)) ∨
    Touched base rest (processTx base run tx).2 key

/-- The same calls, on stored values that agree wherever the calls look. -/
def SameCalls (e e' : Execution) : Prop :=
  e.calls = e'.calls ∧ ∀ key, Touched e.ledger.state e.blk.txs (startRun e.ledger) key →
      find e.ledger.state key = find e'.ledger.state key

/-! ## The changes are the pending ones -/

theorem mem_allState (order : MapOrder) (run : BlockRun)
    (item : Sigma fun _ : Key => Change Bytes) :
    item ∈ allState order run ↔ ∃ chain, item ∈ (run.pending chain).entries := by
  have hl : ∀ chain, item ∈ order.items chain (run.pending chain) ↔
      item ∈ (run.pending chain).entries := fun chain => by
    rw [← order.complete, Multiset.mem_coe]
  unfold allState
  constructor
  · intro hm
    split at hm
    · rcases List.mem_append.mp hm with h1 | h2
      · exact ⟨.hnb, (hl .hnb).mp h1⟩
      · exact ⟨.hgs, (hl .hgs).mp h2⟩
    · rcases List.mem_append.mp hm with h1 | h2
      · exact ⟨.hgs, (hl .hgs).mp h1⟩
      · exact ⟨.hnb, (hl .hnb).mp h2⟩
  · rintro ⟨chain, hm⟩
    have hi := (hl chain).mpr hm
    cases chain with
    | hgs => split <;> exact List.mem_append.mpr (by simp [hi])
    | hnb => split <;> exact List.mem_append.mpr (by simp [hi])

theorem changes_eq {e e' : Execution} (same : e.run.pending = e'.run.pending) :
    e.changes = e'.changes := by
  ext item
  change item ∈ allState _ _ ↔ item ∈ allState _ _
  rw [mem_allState, mem_allState, same]

/-! ## Same calls, same pending changes -/

/-- One call above two bases that agree on the keys it touches. -/
theorem processTx_pending_eq {base base' : World} {run run' : BlockRun} {tx tx' : Transaction}
    (same : run.pending = run'.pending) (name : tx.contractName = tx'.contractName)
    (payload : tx.payload = tx'.payload) (sender : tx.fromAddr = tx'.fromAddr)
    (agree : ∀ chain, getHandler tx.contractName = .ok chain →
      ∀ key ∈ callTouches (visible base (run.pending chain)) (contractApi chain tx),
      find base key = find base' key) : (processTx base run tx).1 = (processTx base' run' tx').1 ∧
      (processTx base run tx).2.pending = (processTx base' run' tx').2.pending := by
  unfold processTx
  rw [← name]
  cases registered : getHandler tx.contractName with
  | error e => exact ⟨rfl, same⟩
  | ok chain =>
    have call : contractApi chain tx = contractApi chain tx' := by
      rw [contractApi, contractApi, payload, sender]
    have hc : (Memory.overlay base).Confined _ (invoke (contractApi chain tx))
        (run.pending chain) := invoke_confined (Memory.overlay base) _ _
    have ran : runPending base run chain tx = runPending base' run' chain tx' := by
      rw [runPending, runPending, ← same, ← call]
      exact hc.run_overlay (agree chain registered)
    simp only [← ran]
    rcases runPending base run chain tx with ⟨e | _, pending⟩
    · cases e <;> exact ⟨rfl, by simp [setPending, addNonce, same]⟩
    · exact ⟨rfl, by simp [setPending, addNonce, same]⟩

theorem processTxs_pending_eq {base base' : World} {run run' : BlockRun}
    {txs txs' : List Transaction} (same : run.pending = run'.pending)
    (calls : txs.map (fun tx => (tx.contractName, tx.payload, tx.fromAddr)) =
      txs'.map fun tx => (tx.contractName, tx.payload, tx.fromAddr))
    (agree : ∀ key, Touched base txs run key → find base key = find base' key) :
    (processTxs base txs run).2.pending = (processTxs base' txs' run').2.pending := by
  induction txs generalizing txs' run run' with
  | nil =>
    obtain rfl : txs' = [] := List.map_eq_nil_iff.mp calls.symm
    exact same
  | cons tx rest ih =>
    cases txs' with
    | nil => cases calls
    | cons tx' rest' =>
      simp only [List.map_cons, List.cons.injEq, Prod.mk.injEq] at calls
      obtain ⟨⟨name, payload, sender⟩, ho⟩ := calls
      obtain ⟨hre, hp⟩ := processTx_pending_eq same name payload sender
        fun chain hr key touched => agree key (.inl ⟨chain, hr, touched⟩)
      have hla := ih hp ho fun key touched => agree key (.inr touched)
      unfold processTxs
      rcases h1 : processTx base run tx with ⟨r, after⟩
      rcases first' : processTx base' run' tx' with ⟨r', after'⟩
      rw [h1, first'] at hre hp hla
      cases hre
      cases r with
      | error e => exact hp
      | ok _ => exact hla

/-- Two executions that make the same calls on the same touched values write the same changes, so
the state hash, as little as it holds, does not lie about them. -/
theorem commits_of_sameCalls {e e' : Execution} (same : SameCalls e e') : Commits e e' := by
  intro _ _
  exact changes_eq (processTxs_pending_eq rfl same.1 same.2)

/-! ## Two payments under one hash -/

/-- Senders and nonces decide the hash of a block at a given height. -/
theorem stateHash_eq {e e' : Execution} (same : e.sendersAndNonces = e'.sendersAndNonces) :
    e.stateHash = e'.stateHash := by
  have held : ∀ e : Execution, e.stateHash =
      some ⟨[], e.sendersAndNonces.map fun pair => ⟨pair.1, pair.2 + 1⟩⟩ := by
    intro e
    obtain ⟨run, _, items, _, hst⟩ := blockProcess_ok e.accepted
    rw [Execution.stateHash, hst, find_insert, if_pos rfl, Option.map_some, items,
      Execution.sendersAndNonces, List.map_map]
    rfl
  rw [held, held, same]

/-- The founder pays 5 HNB to a one-byte address. -/
def payTo (out : UInt8) : Transaction := carrying .hnb founder (.same ⟨[out], 5⟩)

theorem payTo_accepted (order : MapOrder) {out : UInt8} (hs : out = 7 ∨ out = 8) :
    ∃ final, blockProcess order genesisLedger ⟨0, [payTo out]⟩ = (.ok (), final) := by
  refine ⟨_, blockProcess_accepts order ?_ rfl⟩
  rcases hs with rfl | rfl <;> decide +kernel

/-- The balance of the first receiver is written by the payment to that receiver only. -/
theorem mem_changes_payTo {e : Execution} {out : UInt8} (hs : out = 7 ∨ out = 8)
    (atGenesis : e.ledger = genesisLedger) (only : e.blk = ⟨0, [payTo out]⟩) :
    ⟨(.hnb, [7]), .changed (Decimal.formatInt 5)⟩ ∈ e.changes ↔ out = 7 := by
  change _ ∈ allState _ _ ↔ _
  rw [mem_allState, Execution.run, atGenesis, only]
  rcases hs with rfl | rfl
  · exact iff_of_true ⟨.hnb, by decide +kernel⟩ rfl
  · refine iff_of_false (not_exists.mpr fun chain => ?_) (by decide)
    cases chain <;> decide +kernel

/-- The founder pays one receiver or another, with the same nonce: both blocks are accepted on the
genesis state with the same state hash, and they write different changes. -/
theorem payments_share_hash : ∃ e e' : Execution, e.ledger = genesisLedger ∧
    e'.ledger = genesisLedger ∧ e.blk = ⟨0, [payTo 7]⟩ ∧ e'.blk = ⟨0, [payTo 8]⟩ ∧
      e.sendersAndNonces = e'.sendersAndNonces ∧ e.stateHash = e'.stateHash ∧
      e.changes ≠ e'.changes := by
  obtain ⟨final, ha⟩ := payTo_accepted (MapOrder.any true) (.inl rfl)
  obtain ⟨final', accepted'⟩ := payTo_accepted (MapOrder.any true) (.inr rfl)
  refine ⟨⟨_, _, _, final, ha⟩, ⟨_, _, _, final', accepted'⟩, rfl, rfl, rfl, rfl, rfl,
    stateHash_eq rfl, fun same => ?_⟩
  have hw := (mem_changes_payTo (e := ⟨_, _, _, final, ha⟩) (.inl rfl) rfl rfl).mpr rfl
  rw [same, mem_changes_payTo (.inr rfl) rfl rfl] at hw
  exact absurd hw (by decide)

/-- One block, with the pending changes collected in either order of the contracts. -/
theorem payment_commits : ∃ e e' : Execution, e.order = MapOrder.any true ∧
    e'.order = MapOrder.any false ∧
      e.blk = ⟨0, [payTo 7]⟩ ∧ e'.blk = ⟨0, [payTo 7]⟩ ∧ SameCalls e e' ∧ Commits e e' := by
  obtain ⟨final, ha⟩ := payTo_accepted (MapOrder.any true) (.inl rfl)
  obtain ⟨final', accepted'⟩ := payTo_accepted (MapOrder.any false) (.inl rfl)
  have same : SameCalls ⟨_, _, _, final, ha⟩ ⟨_, _, _, final', accepted'⟩ :=
    ⟨rfl, fun _ _ => rfl⟩
  exact ⟨_, _, rfl, rfl, rfl, rfl, same, commits_of_sameCalls same⟩

end HNBChain.Audit.Guarantees.StateCommitment
