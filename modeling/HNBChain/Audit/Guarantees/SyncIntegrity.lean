import HNBChain.Audit.Source.Algorand.Sync
import HNBChain.Audit.Guarantees.RoundMonotone

/-!
# Transactions of synced blocks

The header of a block commits to its transactions by their root. For a block of a peer the root is
only computed if the peer sent none along: the data hash that comes with the block is compared with
the header, not with the transactions.
-/
namespace HNBChain.Audit.Guarantees.SyncIntegrity

open Lib Source Source.Algorand

def customHeader (block : PeerBlock) : Option CustomTDMHeader :=
    block.header.bind PeerHeader.consArgs

/-- The consensus header in a peer's block. -/
def consHeader (block : PeerBlock) : Option Header :=
    (customHeader block).bind CustomTDMHeader.header

/-- The root of the transactions as they are. -/
def root (env : SyncEnv) (block : PeerBlock) : Bytes := env.digests.txs (block.txs.map env.encodeTx)

/-- The sync branch hands the block to `BlockProcess`. -/
def Passes (env : SyncEnv) (ans : SyncAnswers) (syncData : SyncNotify) (s : SyncNode)
    (block : PeerBlock) : Prop :=
  ∃ header tdmBlk status n, s.checkNotify env ans syncData = .passed block header tdmBlk status n

/-- The header's data hash is the root of the transactions. -/
def Committed (env : SyncEnv) (block : PeerBlock) : Prop :=
  (consHeader block).map Header.dataHash = some (root env block)

/-- No data hash came with the block, or it is the root of the transactions. -/
def Unforged (env : SyncEnv) (block : PeerBlock) : Prop :=
  ∀ custom, customHeader block = some custom → custom.dataHash = none ∨
    custom.dataHash = some (root env block)

instance decidableCommitted (env : SyncEnv) (block : PeerBlock) : Decidable (Committed env block) :=
  inferInstanceAs (Decidable (_ = _))

section

variable {env : SyncEnv} {ans : SyncAnswers} {syncData : SyncNotify} {s : SyncNode}
  {block : PeerBlock}

/-- What was compared. -/
theorem Passes.dataHash (hp : Passes env ans syncData s block) :
    ∃ custom h, customHeader block = some custom ∧ consHeader block = some h ∧
      h.dataHash = custom.dataHash.getD (root env block) := by
  obtain ⟨header, tdmBlk, status, n, hpa⟩ := hp
  obtain ⟨_, ht, hco, _, _, hv⟩ := checkBlock_passed (checkNotify_passed hpa).2
  obtain ⟨h, hf, _, dataHash⟩ := validate_ok hv
  obtain ⟨custom, hd, headers, txs, hash⟩ := standard2Cons_some hco
  have customs : customHeader block = some custom := by
    rw [customHeader, ht]
    exact hd
  refine ⟨custom, h, customs, ?_, ?_⟩
  · rw [consHeader, customs]
    exact headers.symm.trans hf
  · rw [dataHash, hash, txs]
    rfl

theorem Passes.committed_iff (hp : Passes env ans syncData s block) :
    Committed env block ↔ Unforged env block := by
  obtain ⟨custom, h, customs, headers, dataHash⟩ := hp.dataHash
  have hc : Committed env block ↔ h.dataHash = root env block := by
    rw [Committed, headers, Option.map_some, Option.some.injEq]
  have unforged : Unforged env block ↔
      custom.dataHash = none ∨ custom.dataHash = some (root env block) := by
    constructor
    · exact fun all => all custom customs
    · rintro hh custom' customs'
      obtain rfl : custom = custom' := Option.some.inj (customs.symm.trans customs')
      exact hh
  rw [hc, unforged, dataHash]
  cases custom.dataHash with
  | none => exact ⟨fun _ => .inl rfl, fun _ => rfl⟩
  | some hash =>
    exact ⟨fun same => .inr (congrArg some same),
      fun either => Option.some.inj (either.resolve_left nofun)⟩

end

/-- For a block that passes, the header commits to the transactions exactly if no other hash came
with them; and of the blocks that pass with one header and are like this, all have the same
transactions. -/
theorem synced_data_iff (env : SyncEnv) (hcl : Function.Injective env.digests.txs)
    (ans : SyncAnswers) (syncData : SyncNotify) (s : SyncNode) (block : PeerBlock)
    (hp : Passes env ans syncData s block) : (Committed env block ↔ Unforged env block) ∧
      ∀ ans' syncData' s' block', Passes env ans' syncData' s' block' →
        consHeader block' = consHeader block → Unforged env block → Unforged env block' →
          block'.txs.map env.encodeTx = block.txs.map env.encodeTx := by
  refine ⟨hp.committed_iff, fun ans' syncData' s' block' passes' same unforged unforged' => ?_⟩
  have hc := hp.committed_iff.mpr unforged
  have committed' := passes'.committed_iff.mpr unforged'
  rw [Committed, same] at committed'
  exact hcl (Option.some.inj (committed'.symm.trans hc))

/-! ## A payment changed on the way -/

/-- A root that no two lists of transactions share. -/
def frame : Bytes → Bytes
  | [] => [0]
  | b :: rest => 1 :: b :: frame rest

def frames (txs : List Bytes) : Bytes := txs.flatMap frame

theorem frame_append_inj {a b : Bytes} {rest rest' : Bytes}
    (same : frame a ++ rest = frame b ++ rest') : a = b ∧ rest = rest' := by
  induction a generalizing b with
  | nil =>
    cases b with
    | nil => exact ⟨rfl, List.append_cancel_left same⟩
    | cons _ _ => exact absurd (List.cons.inj same).1 (by decide)
  | cons x a ih =>
    cases b with
    | nil => exact absurd (List.cons.inj same).1 (by decide)
    | cons y b =>
      obtain ⟨heads, tails⟩ := List.cons.inj (List.cons.inj same).2
      obtain ⟨rfl, rests⟩ := ih tails
      exact ⟨by rw [heads], rests⟩

theorem frames_injective : Function.Injective frames := by
  intro txs
  induction txs with
  | nil =>
    intro txs' same
    cases txs' with
    | nil => rfl
    | cons tx rest => cases tx <;> cases same
  | cons tx rest ih =>
    intro txs' same
    cases txs' with
    | nil => cases tx <;> cases same
    | cons tx' rest' =>
      obtain ⟨rfl, rests⟩ := frame_append_inj same
      rw [ih rests]

open RoundMonotone

def syncEnv : SyncEnv :=
  { plainEnv 1 0 with
    digests := { digests with txs := frames }
    encodeTx := fun tx => (tx.map Transaction.payload).getD []
    calcBlockHash := fun _ _ => [] }

noncomputable def syncAnswers : SyncAnswers where
  order := MapOrder.any true
  fault := none
  storedValidators _ := .error (.new "")
  continueConsensus := true

def syncNode : SyncNode := ⟨plainNode 1, { genesisLedger with height := 1 }, 0⟩

/-- A transaction of a contract, told apart by one octet. -/
def syncTx (contractName : Bytes) (tag : UInt8) : Transaction where
  contractName := contractName
  payload := [tag]
  txid := []
  fromAddr := founder
  nonceValue := 0

/-- The first block with the given transactions, under the header that commits to one transaction
tagged 7, with a data hash. -/
def syncBlock (txs : List Transaction) (dataHash : Option Bytes) : PeerBlock where
  header := some
    { blockNum := 1
      consArgs := some
        { header := some
            { (plainBlock 1 7).header with numTxs := 1, totalTxs := 1, dataHash := frames [[7]] }
          evidence := []
          lastCommit := some ⟨.zero, []⟩
          dataHash := dataHash
          validatorInfo := some ⟨some (members 1), 0⟩ }
      ext := some (some ⟨plainID 7, []⟩)
      other := [] }
  txs := txs.map some

def syncNotify (block : PeerBlock) : SyncNotify := ⟨0, false, some block⟩

/-- Sent without a hash, the block passes with the transaction its header commits to. -/
theorem synced_data_iff_seven :
    let block := syncBlock [syncTx (octets "hnb") 7] none
    Passes syncEnv syncAnswers (syncNotify block) syncNode block ∧
      (Committed syncEnv block ↔ Unforged syncEnv block) := by
  have hp : Passes syncEnv syncAnswers (syncNotify (syncBlock [syncTx (octets "hnb") 7] none))
      syncNode (syncBlock [syncTx (octets "hnb") 7] none) := ⟨_, _, _, _, rfl⟩
  exact ⟨hp, (synced_data_iff syncEnv frames_injective syncAnswers _ syncNode _ hp).1⟩

/-- Sent with the header's own hash, another transaction passes under the same header. -/
theorem changed_payment_passes :
    let block := syncBlock [syncTx (octets "hnb") 8] (some (frames [[7]]))
    Function.Injective syncEnv.digests.txs ∧
      Passes syncEnv syncAnswers (syncNotify block) syncNode block ∧ ¬ Committed syncEnv block :=
  ⟨frames_injective, ⟨_, _, _, _, rfl⟩, by decide⟩

end HNBChain.Audit.Guarantees.SyncIntegrity
