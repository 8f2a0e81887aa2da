import HNBChain.Audit.Source.AppMgr

/-!
# The solo server

One goroutine takes both the ticks on which the node makes a block of its own and the blocks
received from the network. Each block is handed to `BlockProcess`, whose error is only logged, and
then the server's own block number moves on. A received block is what the JSON text decodes to: the
header and each transaction are pointers and may be nil.

What the pool answers to a tick is part of the event, and so is the order of Go's maps in the block.
-/
namespace HNBChain.Audit.Source

open Lib

structure WireBlock where
  header : Option UInt64
  txs : List (Option Transaction)

/-- The loop of `BlockProcess`; the contract's name of a nil transaction cannot be read. -/
def processWire (base : World) : List (Option Transaction) → BlockRun → Except Err Unit × BlockRun
  | [], run => (.ok (), run)
  | none :: _, run => (.error .panic, run)
  | some tx :: rest, run =>
    match processTx base run tx with
    | (.error e, run') => (.error e, run')
    | (.ok (), run') => processWire base rest run'

/-- A block that holds all its transactions is processed as before. -/
theorem processWire_some (base : World) (txs : List Transaction) (run : BlockRun) :
    processWire base (txs.map some) run = processTxs base txs run := by
  induction txs generalizing run with
  | nil => rfl
  | cons tx rest ih =>
    simp only [List.map_cons, processWire, processTxs]
    rcases processTx base run tx with ⟨_ | _, run'⟩
    · rfl
    · exact ih run'

structure SoloServer where
  blkNum : UInt64
  ledger : Ledger

namespace SoloServer

/-- `Start` on a ledger. -/
def start (ledger : Ledger) : SoloServer := ⟨ledger.height, ledger⟩

def makeBlock (solo : SoloServer) (txs : List Transaction) : WireBlock :=
  ⟨some solo.blkNum, txs.map some⟩

/-- `BlockProcess` on a block with a header. -/
def process (order : MapOrder) (ledger : Ledger) (blockNum : UInt64)
    (txs : List (Option Transaction)) : Except Err Unit × Ledger :=
  finishBlock order ledger ⟨blockNum, txs.reduceOption⟩
    (processWire ledger.state txs (startRun ledger))

theorem process_some (order : MapOrder) (ledger : Ledger) (blockNum : UInt64)
    (txs : List Transaction) :
    process order ledger blockNum (txs.map some) = blockProcess order ledger ⟨blockNum, txs⟩ := by
  have all : (txs.map some).filterMap id = txs := by simp [List.filterMap_map]
  unfold process blockProcess
  rw [processWire_some, show (txs.map some).reduceOption = txs from all]

/-- No result means that the process has ended in a panic. -/
def writeBlock (order : MapOrder) (solo : SoloServer) (blk : WireBlock) : Option SoloServer :=
  match blk.header with
  -- the number is read from the header to be printed
  | none => none
  | some blockNum =>
    match process order solo.ledger blockNum blk.txs with
    | (.error .panic, _) => none
    | (_, ledger) => some ⟨solo.blkNum + 1, ledger⟩

end SoloServer

inductive SoloEvent where
  | own (order : MapOrder) (txs : Option (List Transaction))
  | received (order : MapOrder) (blk : WireBlock)

namespace SoloServer

/-- One turn of `blockServer`. -/
def serve (solo : SoloServer) : SoloEvent → Option SoloServer
  | .own _ none => some solo
  | .own order (some txs) => solo.writeBlock order (solo.makeBlock txs)
  | .received order blk => solo.writeBlock order blk

def run (solo : SoloServer) (events : List SoloEvent) : Option SoloServer :=
  events.foldlM serve solo

theorem run_concat (solo : SoloServer) (events : List SoloEvent) (e : SoloEvent) :
    solo.run (events ++ [e]) = solo.run events >>= fun s => s.serve e := by
  unfold run
  rw [List.foldlM_append]
  simp

end SoloServer

/-! ### How a block fares -/

variable {base : World} {run run' : BlockRun} {txs : List (Option Transaction)} {blockNum : UInt64}

/-- The only error that a transaction can end the block with, apart from a panic, is the unknown
contract. -/
theorem processTx_error {tx : Transaction} {e : Err}
    (hf : processTx base run tx = (.error e, run')) : e = .panic ∨ ¬ Registered tx := by
  unfold processTx at hf
  cases registered : getHandler tx.contractName with
  | error _ =>
    refine .inr ?_
    rintro ⟨_, ok⟩
    rw [registered] at ok
    cases ok
  | ok chain =>
    rcases ran : runPending base run chain tx with ⟨e' | _, pending⟩
    · cases e' <;> simp only [registered, ran, Prod.mk.injEq, Except.error.injEq, reduceCtorEq,
        false_and] at hf
      exact .inl hf.1.symm
    · simp [registered, ran] at hf

theorem processTx_registered {tx : Transaction} (done : processTx base run tx = (.ok (), run')) :
    Registered tx := by
  unfold processTx at done
  cases registered : getHandler tx.contractName with
  | error _ => simp [registered] at done
  | ok chain => exact ⟨chain, registered⟩

theorem processWire_error {e : Err} (hk : ∀ tx, some tx ∈ txs → Registered tx)
    (hf : processWire base txs run = (.error e, run')) : e = .panic := by
  induction txs generalizing run with
  | nil => simp [processWire] at hf
  | cons tx rest ih =>
    cases tx with
    | none =>
      simp only [processWire, Prod.mk.injEq, Except.error.injEq] at hf
      exact hf.1.symm
    | some tx =>
      rcases h1 : processTx base run tx with ⟨e' | _, middle⟩
      · simp only [processWire, h1, Prod.mk.injEq, Except.error.injEq] at hf
        rcases processTx_error h1 with panics | hu
        · rw [← hf.1, panics]
        · exact absurd (hk tx List.mem_cons_self) hu
      · simp only [processWire, h1] at hf
        exact ih (fun tx hm => hk tx (List.mem_cons_of_mem _ hm)) hf

theorem processWire_registered (done : processWire base txs run = (.ok (), run')) :
    ∀ tx, some tx ∈ txs → Registered tx := by
  induction txs generalizing run with
  | nil =>
    intro tx hm
    cases hm
  | cons tx rest ih =>
    cases tx with
    | none => simp [processWire] at done
    | some tx =>
      rcases h1 : processTx base run tx with ⟨_ | _, middle⟩
      · simp [processWire, h1] at done
      · simp only [processWire, h1] at done
        intro other hm
        rcases List.mem_cons.mp hm with same | hl
        · cases same
          exact processTx_registered h1
        · exact ih done other hl

/-- A block is stored only with the number the ledger waits for, and then the ledger moves on. -/
theorem SoloServer.process_ok {order : MapOrder} {ledger final : Ledger}
    (hs : process order ledger blockNum txs = (.ok (), final)) :
    blockNum = ledger.height ∧ (∀ tx, some tx ∈ txs → Registered tx) ∧
    final.height = ledger.height + 1 := by
  unfold process at hs
  rcases ran : processWire ledger.state txs (startRun ledger) with ⟨_ | _, run⟩
  · simp [ran, finishBlock] at hs
  · simp only [ran, finishBlock, writeLedger] at hs
    split at hs
    · simp at hs
    · rename_i height
      simp only [Prod.mk.injEq, true_and] at hs
      have number : blockNum = ledger.height := not_not.mp height
      refine ⟨number, processWire_registered ran, ?_⟩
      rw [← hs, ← number]

/-- A block that is refused leaves the height. -/
theorem SoloServer.process_height {order : MapOrder} {ledger final : Ledger} {e : Err}
    (hr : process order ledger blockNum txs = (.error e, final)) :
    final.height = ledger.height := by
  unfold process at hr
  rcases ran : processWire ledger.state txs (startRun ledger) with ⟨_ | _, run⟩
  · simp only [ran, finishBlock, Prod.mk.injEq] at hr
    rw [← hr.2]
  · simp only [ran, finishBlock, writeLedger] at hr
    split at hr
    · simp only [Prod.mk.injEq] at hr
      rw [← hr.2]
    · simp at hr

/-- What fits is refused for no other reason than a panic. -/
theorem SoloServer.process_error {order : MapOrder} {ledger final : Ledger} {e : Err}
    (number : blockNum = ledger.height) (hk : ∀ tx, some tx ∈ txs → Registered tx)
    (hr : process order ledger blockNum txs = (.error e, final)) : e = .panic := by
  unfold process at hr
  rcases ran : processWire ledger.state txs (startRun ledger) with ⟨e' | _, run⟩
  · simp only [ran, finishBlock, Prod.mk.injEq, Except.error.injEq] at hr
    rw [← hr.1]
    exact processWire_error hk ran
  · simp [ran, finishBlock, writeLedger, number] at hr

end HNBChain.Audit.Source
