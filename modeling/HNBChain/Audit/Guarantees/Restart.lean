import HNBChain.Audit.Guarantees.ReplayProtection

/-!
# Starting again

`InitAppMgr` leaves a mark for each contract it installs and looks for the marks at the next start,
but only for that of HGS. So HNB is installed at every start, and the founder has ten million again.

The marks stand in the same database as everything else, under keys that no other record has. What
`InitLedger` makes anew are caches.
-/
namespace HNBChain.Audit.Guarantees.Restart

open Lib Source ReplayProtection

/-- The database of a node: the ledger, and the marks of installed contracts. -/
structure Database where
  ledger : Ledger
  contracts : Store Bytes Bytes

def Database.empty : Database where
  ledger := { genesisLedger with state := ∅ }
  contracts := ∅

def contractKey (chain : ChainID) : Bytes := octets "contract#" ++ octets chain.text

theorem contractKey_injective : Function.Injective contractKey :=
  fun _ _ same => chainID_of_text _ _ (List.append_cancel_left same)

/-- `InitLedger` and `InitAppMgr`. -/
def Database.start (db : Database) : Database :=
  let hgsInstalled := (find db.contracts (contractKey .hgs)).isSome
  let contracts := if hgsInstalled then db.contracts
    else db.contracts.insert (contractKey .hgs) (octets "active")
  { ledger := { db.ledger with state := initAppMgr hgsInstalled db.ledger.state }
    contracts := contracts.insert (contractKey .hnb) (octets "active") }

def Database.process (db : Database) (order : MapOrder) (blk : Block) : Database :=
  { db with ledger := (blockProcess order db.ledger blk).2 }

theorem start_empty : Database.empty.start.ledger = genesisLedger := by
  have unmarked : (find Database.empty.contracts (contractKey .hgs)).isSome = false := rfl
  unfold Database.start
  rw [unmarked]
  rfl

/-- After a first start on an empty database and any blocks, accepted or not. -/
inductive Reachable : Database → Prop where
  | first : Reachable Database.empty.start
  | block {db : Database} (order : MapOrder) (blk : Block) (reached : Reachable db) :
    Reachable (db.process order blk)

theorem Reachable.hgsInstalled {db : Database} (hr : Reachable db) :
    (find db.contracts (contractKey .hgs)).isSome = true := by
  induction hr with
  | first =>
    have other : contractKey .hgs ≠ contractKey .hnb :=
      fun same => nomatch contractKey_injective same
    change (find (Finmap.insert (contractKey .hnb) _ (Finmap.insert (contractKey .hgs) _ ∅))
      _).isSome = true
    rw [find_insert, if_neg other, find_insert, if_pos rfl]
    rfl
  | block order blk hr ih => exact ih

/-- What a second start writes. -/
theorem Reachable.start_state {db : Database} (hr : Reachable db) :
    db.start.ledger.state =
      db.ledger.state.insert (.hnb, founder.val) (Decimal.formatInt 10000000) := by
  unfold Database.start
  rw [hr.hgsInstalled]
  rfl

/-- A second start changes nothing exactly if the founder's HNB account holds what it was installed
with. -/
theorem restart_keeps_iff (db : Database) (hr : Reachable db) :
    (∀ key, find db.start.ledger.state key = find db.ledger.state key) ↔
      find db.ledger.state (.hnb, founder.val) = some (Decimal.formatInt 10000000) := by
  rw [hr.start_state]
  constructor
  · intro hk
    rw [← hk (.hnb, founder.val), find_insert, if_pos rfl]
  · intro hh key
    rw [find_insert]
    split_ifs with same
    · rw [same, hh]
    · rfl

/-- After a block in which the founder pays five. -/
noncomputable def paid : Database := Database.empty.start.process (.any true) ⟨0, [foundersPayment]⟩

theorem paid_reachable : Reachable paid := .block _ _ .first

theorem paid_founder :
    find paid.ledger.state (.hnb, founder.val) = some (Decimal.formatInt 9999995) := by
  obtain ⟨done, ha, _, state⟩ := blockProcess_single_ok (.any true) genesisLedger
    (show 0 = genesisLedger.height from rfl)
    (getHandler_carrying .hnb founder (.same ⟨[7], 5⟩)) (by decide +kernel)
  unfold paid Database.process
  rw [start_empty, foundersPayment, ha, state]
  decide +kernel

theorem restart_changes_paid : Reachable paid ∧
    ¬ ∀ key, find paid.start.ledger.state key = find paid.ledger.state key := by
  refine ⟨paid_reachable, fun hk => ?_⟩
  have hw := (restart_keeps_iff paid paid_reachable).mp hk
  rw [paid_founder] at hw
  exact absurd hw (by decide +kernel)

/-- The founder has the five again after the next start. -/
theorem founder_refunded : ∃ db, Reachable db ∧
    find db.ledger.state (.hnb, founder.val) = some (Decimal.formatInt 9999995) ∧
    find db.start.ledger.state (.hnb, founder.val) = some (Decimal.formatInt 10000000) := by
  refine ⟨paid, paid_reachable, paid_founder, ?_⟩
  rw [paid_reachable.start_state, find_insert, if_pos rfl]

end HNBChain.Audit.Guarantees.Restart
