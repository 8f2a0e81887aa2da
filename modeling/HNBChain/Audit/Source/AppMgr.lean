import HNBChain.Audit.Source.Effects

/-!
# Block processing and the ledger

`BlockProcess` gives each contract one set of pending changes for the whole block, runs the
transactions in order, and writes the pending changes of both contracts in the order in which Go
ranges over its maps. That order is an argument (`MapOrder`), and results hold for every one.

The state hash stands for the data it is computed from. That data is collected before the pending
changes are, so it holds no state item.
-/
namespace HNBChain.Audit.Source

open Lib

structure Transaction where
  contractName : Bytes
  payload : Bytes
  txid : Bytes
  fromAddr : Address
  nonceValue : UInt64

structure Block where
  blockNum : UInt64
  txs : List Transaction

abbrev Items := List (Sigma fun _ : Key => Change Bytes)

structure NonceItem where
  key : Address
  nonce : UInt64

/-- The data under the state hash: the state items as they are when it is computed, the nonces. -/
structure StateChange where
  si : Items
  ni : List NonceItem

structure StoredBlock where
  block : Block
  stateHash : StateChange

structure Ledger where
  state : World
  height : UInt64
  nonces : Store Address UInt64
  blocks : Store UInt64 StoredBlock
  hashIndex : Store Bytes (UInt64 × Nat)
  wrongIndex : Store Bytes Err

def getHandler (contractName : Bytes) : Except Err ChainID :=
  if contractName = octets ChainID.hgs.text then .ok .hgs
  else if contractName = octets ChainID.hnb.text then .ok .hnb
  else .error (.new "chainID not exist")

theorem getHandler_text (chain : ChainID) : getHandler (octets chain.text) = .ok chain := by
  cases chain <;> decide

theorem chainID_of_text : ∀ a b : ChainID, octets a.text = octets b.text → a = b := by
  intro a b
  cases a <;> cases b <;> decide

/-- The key under which pending changes are filed: the contract's name, then the key. -/
def memoryKey (key : Key) : Bytes := octets key.1.text ++ key.2

/-- Both names have three letters, so filing by the joined text loses nothing. -/
theorem memoryKey_injective : Function.Injective memoryKey := by
  rintro ⟨chain, key⟩ ⟨chain', key'⟩ same
  have lengths : (octets chain.text).length = (octets chain'.text).length := by
    cases chain <;> cases chain' <;> decide
  obtain ⟨names, rest⟩ := List.append_inj same lengths
  have chains : chain = chain' := chainID_of_text chain chain' names
  simp only at rest
  rw [chains, rest]

def contractApi (chain : ChainID) (tx : Transaction) : ContractApi :=
  { chainID := chain, args := tx.payload, fromAddr := tx.fromAddr }

def getContractApi (chain : ChainID) : ContractApi :=
  { chainID := chain, args := [], fromAddr := ⟨List.replicate 20 0, by simp⟩ }

/-- `InitAppMgr`: the scan for installed contracts never sets the flag of HNB, so HNB is installed
at every start. -/
def initAppMgr (hgsInstalled : Bool) (w : World) : World :=
  let w' := if hgsInstalled then w else (runFlat (Hgs.installContract (getContractApi .hgs)) w).2
  (runFlat (Hnb.installContract (getContractApi .hnb)) w').2

/-- The state after the first start. -/
def genesis : World := initAppMgr false ∅

def founder : Address := ⟨hexToByte "68175250cadc6f2524f55e891e244116fec4b690", by decide⟩

theorem find_genesis (chain : ChainID) (addr : Bytes) : find genesis (chain, addr) =
      if addr = founder.val then some (Decimal.formatInt 10000000) else none := by
  have hsh : genesis = ((∅ : World).insert (.hgs, founder.val)
    (Decimal.formatInt 10000000)).insert
      (.hnb, founder.val) (Decimal.formatInt 10000000) := rfl
  rw [hsh, find_insert, find_insert]
  cases chain <;> simp

def genesisLedger : Ledger where
  state := genesis
  height := 0
  nonces := ∅
  blocks := ∅
  hashIndex := ∅
  wrongIndex := ∅

/-- What `BlockProcess` carries from one transaction to the next. -/
structure BlockRun where
  pending : ChainID → Pending Key Bytes
  ni : List NonceItem
  wrongIndex : Store Bytes Err

/-- `SnapshotRestore(GetSnapshot())`: the snapshot is the live map itself, so restoring it keeps
what the failed call left there. -/
def snapshotRestore (live : Pending Key Bytes) : Pending Key Bytes := live

/-- The call of one transaction above the pending changes of its own contract. -/
def runPending (base : World) (run : BlockRun) (chain : ChainID) (tx : Transaction) :
    Except Err Unit × Pending Key Bytes :=
  runOn (Memory.overlay base) (invoke (contractApi chain tx)) (run.pending chain)

def setPending (run : BlockRun) (chain : ChainID) (pending : Pending Key Bytes) : BlockRun :=
  { run with pending := Function.update run.pending chain pending }

def addNonce (tx : Transaction) (run : BlockRun) : BlockRun :=
  { run with ni := run.ni ++ [⟨tx.fromAddr, tx.nonceValue + 1⟩] }

def Registered (tx : Transaction) : Prop := ∃ chain, getHandler tx.contractName = .ok chain

/-- The error, if any, ends `BlockProcess`: an unknown contract, or a panic. -/
def processTx (base : World) (run : BlockRun) (tx : Transaction) : Except Err Unit × BlockRun :=
  match getHandler tx.contractName with
  | .error e => (.error e, run)
  | .ok chain =>
    match runPending base run chain tx with
    | (.ok (), pending) => (.ok (), addNonce tx (setPending run chain pending))
    | (.error .panic, pending) => (.error .panic, setPending run chain pending)
    | (.error e, pending) =>
      let noted := { run with wrongIndex := run.wrongIndex.insert tx.txid e }
      (.ok (), addNonce tx (setPending noted chain (snapshotRestore pending)))

variable {base : World} {chain : ChainID} {tx : Transaction}

/-- Whatever the call returns, what it has written is pending. -/
theorem processTx_pending {run : BlockRun} (hr : getHandler tx.contractName = .ok chain) :
    (processTx base run tx).2.pending =
      Function.update run.pending chain (runPending base run chain tx).2 := by
  unfold processTx
  simp only [hr]
  rcases runPending base run chain tx with ⟨e | _, pending⟩
  · cases e <;> rfl
  · rfl

/-- What holds of all that the contracts see before a transaction and after its call holds after
it. -/
theorem processTx_visible {Q : (Key → Option Bytes) → Prop} {run : BlockRun}
    (all : ∀ chain, Q (visible base (run.pending chain)))
    (call : ∀ chain, getHandler tx.contractName = .ok chain →
      Q (visible base (runPending base run chain tx).2))
    (chain : ChainID) : Q (visible base ((processTx base run tx).2.pending chain)) := by
  cases registered : getHandler tx.contractName with
  | error e =>
    simp only [processTx, registered]
    exact all chain
  | ok own =>
    rw [processTx_pending registered]
    by_cases same : chain = own
    · subst same
      rw [Function.update_self]
      exact call chain registered
    · rw [Function.update_of_ne same]
      exact all chain

def processTxs (base : World) : List Transaction → BlockRun → Except Err Unit × BlockRun
  | [], run => (.ok (), run)
  | tx :: rest, run =>
    match processTx base run tx with
    | (.error e, run') => (.error e, run')
    | (.ok (), run') => processTxs base rest run'

theorem processTxs_append (base : World) (first rest : List Transaction) (run : BlockRun) :
    processTxs base (first ++ rest) run =
      match processTxs base first run with
      | (.error e, run') => (.error e, run')
      | (.ok (), run') => processTxs base rest run' := by
  induction first generalizing run with
  | nil => rfl
  | cons tx first ih =>
    simp only [List.cons_append, processTxs]
    rcases processTx base run tx with ⟨_ | _, run'⟩
    · rfl
    · exact ih run'

/-- What a transaction leaves behind when its call returns an error. -/
theorem processTx_failed (run : BlockRun) {e : Err} {pending : Pending Key Bytes}
    (hr : getHandler tx.contractName = .ok chain)
    (hfa : runPending base run chain tx = (.error e, pending)) (hre : e ≠ .panic) :
    processTx base run tx =
      (.ok (), addNonce tx (setPending { run with wrongIndex := run.wrongIndex.insert tx.txid e }
        chain pending)) := by
  unfold processTx
  simp only [hr, hfa]
  rfl

theorem processTx_succeeded (run : BlockRun) {pending : Pending Key Bytes}
    (hr : getHandler tx.contractName = .ok chain)
    (done : runPending base run chain tx = (.ok (), pending)) :
    processTx base run tx = (.ok (), addNonce tx (setPending run chain pending)) := by
  unfold processTx
  simp only [hr, done]

theorem processTx_ni {run run' : BlockRun} (done : processTx base run tx = (.ok (), run')) :
    run'.ni = run.ni ++ [⟨tx.fromAddr, tx.nonceValue + 1⟩] := by
  unfold processTx at done
  cases registered : getHandler tx.contractName with
  | error e => simp [registered] at done
  | ok chain =>
    simp only [registered] at done
    rcases ran : runPending base run chain tx with ⟨e | _, pending⟩
    · cases e <;> simp only [ran, Prod.mk.injEq, reduceCtorEq, false_and, true_and] at done
      all_goals
        rw [← done]
        rfl
    · simp only [ran, Prod.mk.injEq, true_and] at done
      rw [← done]
      rfl

theorem processTxs_ni {run run' : BlockRun} {txs : List Transaction}
    (done : processTxs base txs run = (.ok (), run')) :
    run'.ni = run.ni ++ txs.map fun tx => ⟨tx.fromAddr, tx.nonceValue + 1⟩ := by
  induction txs generalizing run with
  | nil =>
    simp only [processTxs, Prod.mk.injEq, true_and] at done
    simp [done]
  | cons tx rest ih =>
    rcases h1 : processTx base run tx with ⟨_ | _, middle⟩
    · simp [processTxs, h1] at done
    · simp only [processTxs, h1] at done
      rw [ih done, processTx_ni h1, List.append_assoc]
      rfl

/-- An order in which Go may range over the maps of one `BlockProcess`. -/
structure MapOrder where
  hnbFirst : Bool
  items : ChainID → Pending Key Bytes → Items
  complete : ∀ chain pending, (items chain pending : Multiset _) = pending.entries

def allState (order : MapOrder) (run : BlockRun) : Items :=
  if order.hnbFirst then
    order.items .hnb (run.pending .hnb) ++ order.items .hgs (run.pending .hgs)
  else order.items .hgs (run.pending .hgs) ++ order.items .hnb (run.pending .hnb)

/-- Some order there always is. -/
noncomputable def MapOrder.any (hnbFirst : Bool) : MapOrder where
  hnbFirst := hnbFirst
  items _ pending := pending.entries.toList
  complete _ pending := Multiset.coe_toList pending.entries

variable (order : MapOrder)

/-- What is stored in the end: the pending changes of the contract that is written last, else those
of the other one, else the base. -/
theorem find_allState (run : BlockRun) (base : World) (key : Key) :
    find (commit (allState order run) base) key = if order.hnbFirst then
        overlaid (find (run.pending .hgs) key) (visible base (run.pending .hnb) key)
      else overlaid (find (run.pending .hnb) key) (visible base (run.pending .hgs) key) := by
  unfold allState
  split <;>
    rw [commit_append, find_commit _ _ _ (order.complete _ _), visible,
      find_commit _ _ _ (order.complete _ _)]

/-- Whichever contract is written last, a stored text was seen by one of them. -/
theorem forall_allState {P : Key → Bytes → Prop} {run : BlockRun}
    (all : ∀ chain key text, visible base (run.pending chain) key = some text → P key text)
    (order : MapOrder) :
    ∀ key text, find (commit (allState order run) base) key = some text → P key text := by
  have above {chain other : ChainID} {key : Key} {text : Bytes}
      (hf : overlaid (find (run.pending chain) key)
        (visible base (run.pending other) key) = some text) :
      P key text := by
    cases pending : find (run.pending chain) key with
    | none =>
      rw [pending] at hf
      exact all other key text hf
    | some change =>
      refine all chain key text ?_
      unfold visible
      rw [pending] at hf ⊢
      exact hf
  intro key text hf
  rw [find_allState] at hf
  split_ifs at hf <;> exact above hf

def setHashIndex (blk : Block) (index : Store Bytes (UInt64 × Nat)) : Store Bytes (UInt64 × Nat) :=
  blk.txs.zipIdx.foldl (fun acc (tx, i) => acc.insert tx.txid (blk.blockNum, i)) index

def writeLedger (ledger : Ledger) (blk : Block) (hash : StateChange) (si : Items)
    (ni : List NonceItem) : Except Err Unit × Ledger :=
  if blk.blockNum ≠ ledger.height then (.error (.new "height invalid"), ledger)
  else
    (.ok (), { ledger with
      blocks := ledger.blocks.insert blk.blockNum ⟨blk, hash⟩
      state := commit si ledger.state
      height := blk.blockNum + 1
      hashIndex := setHashIndex blk ledger.hashIndex
      nonces := ni.foldl (fun acc item => acc.insert item.key item.nonce) ledger.nonces })

def startRun (ledger : Ledger) : BlockRun :=
  { pending := fun _ => ∅, ni := [], wrongIndex := ledger.wrongIndex }

/-- The end of `BlockProcess`, after the loop over the transactions. -/
def finishBlock (order : MapOrder) (ledger : Ledger) (blk : Block) :
    Except Err Unit × BlockRun → Except Err Unit × Ledger
  | (.error e, run) => (.error e, { ledger with wrongIndex := run.wrongIndex })
  | (.ok (), run) =>
    writeLedger { ledger with wrongIndex := run.wrongIndex } blk ⟨[], run.ni⟩ (allState order run)
      run.ni

variable (ledger : Ledger)

theorem finishBlock_state (blk : Block) (run : BlockRun) (ha : blk.blockNum = ledger.height) :
    (finishBlock order ledger blk (.ok (), run)).2.state =
      commit (allState order run) ledger.state := by
  simp [finishBlock, writeLedger, ha]

/-- What is stored under a key at the end of a block. -/
theorem find_finishBlock {ledger : Ledger} {blk : Block}
    {result : Except Err Unit × BlockRun} (done : result.1 = .ok ())
    (next : blk.blockNum = ledger.height) (key : Key) :
    find (finishBlock order ledger blk result).2.state key =
      if order.hnbFirst then
        overlaid (find (result.2.pending .hgs) key)
          (visible ledger.state (result.2.pending .hnb) key)
      else
        overlaid (find (result.2.pending .hnb) key)
          (visible ledger.state (result.2.pending .hgs) key) := by
  rw [eq_mk_of_fst done, finishBlock_state order ledger blk _ next]
  exact find_allState order _ _ key

/-- The state after the end of a block is the one before it, or the pending changes are written. -/
theorem finishBlock_cases (blk : Block) (result : Except Err Unit × BlockRun) :
    (finishBlock order ledger blk result).2.state = ledger.state ∨
      result.1 = .ok () ∧ (finishBlock order ledger blk result).2.state =
        commit (allState order result.2) ledger.state := by
  rcases result with ⟨_ | _, run⟩
  · exact .inl rfl
  · by_cases accepted : blk.blockNum = ledger.height
    · exact .inr ⟨rfl, finishBlock_state order ledger blk run accepted⟩
    · refine .inl ?_
      simp [finishBlock, writeLedger, accepted]

def blockProcess (order : MapOrder) (ledger : Ledger) (blk : Block) : Except Err Unit × Ledger :=
  finishBlock order ledger blk (processTxs ledger.state blk.txs (startRun ledger))

/-- A block that goes through to its end is accepted at its height. -/
theorem blockProcess_accepts {ledger : Ledger} {blk : Block}
    (done : (processTxs ledger.state blk.txs (startRun ledger)).1 = .ok ())
    (next : blk.blockNum = ledger.height) :
    blockProcess order ledger blk = (.ok (), (blockProcess order ledger blk).2) := by
  refine eq_mk_of_fst ?_
  rw [blockProcess, eq_mk_of_fst done, finishBlock, writeLedger, if_neg (not_not.mpr next)]

/-- What an accepted block has gone through and what is stored of it. -/
theorem blockProcess_ok {order : MapOrder} {ledger final : Ledger} {blk : Block}
    (ha : blockProcess order ledger blk = (.ok (), final)) :
    ∃ run, processTxs ledger.state blk.txs (startRun ledger) = (.ok (), run) ∧
      run.ni = blk.txs.map (fun tx => ⟨tx.fromAddr, tx.nonceValue + 1⟩) ∧
      blk.blockNum = ledger.height ∧ final = { ledger with
        wrongIndex := run.wrongIndex
        blocks := ledger.blocks.insert blk.blockNum ⟨blk, ⟨[], run.ni⟩⟩
        state := commit (allState order run) ledger.state
        height := blk.blockNum + 1
        hashIndex := setHashIndex blk ledger.hashIndex
        nonces :=
          run.ni.foldl (fun acc item => acc.insert item.key item.nonce) ledger.nonces } := by
  unfold blockProcess at ha
  rcases ran : processTxs ledger.state blk.txs (startRun ledger) with ⟨_ | _, run⟩
  · simp [ran, finishBlock] at ha
  · have items := processTxs_ni ran
    simp only [ran, finishBlock, writeLedger] at ha
    split at ha
    · simp at ha
    · rename_i height
      simp only [Prod.mk.injEq, true_and] at ha
      exact ⟨run, rfl, by simpa [startRun] using items, not_not.mp height, ha.symm⟩

/-- One transaction in a block of its own. A returned error keeps what the call has written; a panic
ends the process before anything is stored. -/
def processAlone (w : World) (tx : Transaction) : World :=
  match getHandler tx.contractName with
  | .error _ => w
  | .ok chain =>
    match runFlat (invoke (contractApi chain tx)) w with
    | (.error .panic, _) => w
    | (_, w') => w'

theorem processAlone_ok {w w' : World} (hr : getHandler tx.contractName = .ok chain)
    (done : runFlat (invoke (contractApi chain tx)) w = (.ok (), w')) : processAlone w tx = w' := by
  simp only [processAlone, hr, done]

/-- The state is that of before, or the one in which the call has returned. -/
theorem processAlone_cases (w : World) (tx : Transaction) :
    processAlone w tx = w ∨ ∃ chain result, getHandler tx.contractName = .ok chain ∧
    result ≠ .error .panic ∧
      runFlat (invoke (contractApi chain tx)) w = (result, processAlone w tx) := by
  unfold processAlone
  cases registered : getHandler tx.contractName with
  | error e => exact .inl rfl
  | ok chain =>
    rcases ran : runFlat (invoke (contractApi chain tx)) w with ⟨_ | _, w'⟩
    · rename_i e
      by_cases ended : e = .panic
      · subst ended
        simp [ran]
      · refine .inr ⟨chain, .error e, rfl, by simpa using ended, ?_⟩
        cases e <;> first | exact absurd rfl ended | simp [ran]
    · exact .inr ⟨chain, .ok (), rfl, by simp, by simp [ran]⟩

/-- With pending changes of one contract only, what is stored is what its calls saw. -/
theorem find_allState_one (run : BlockRun) (base : World) (chain : ChainID)
    (other : ∀ chain', chain' ≠ chain → run.pending chain' = ∅) (key : Key) :
    find (commit (allState order run) base) key = visible base (run.pending chain) key := by
  rw [find_allState]
  cases chain with
  | hnb =>
    rw [other .hgs (by decide)]
    split <;> rfl
  | hgs =>
    rw [other .hnb (by decide)]
    split <;> rfl

/-- A block's first call does what it would do on the stored state itself. -/
theorem runPending_first (chain : ChainID) (tx : Transaction) :
    ∃ result pending w, runPending ledger.state (startRun ledger) chain tx = (result, pending) ∧
      runFlat (invoke (contractApi chain tx)) ledger.state = (result, w) ∧
      ∀ key, visible ledger.state pending key = find w key := by
  have hst : Memory.Alike (Memory.overlay ledger.state) Memory.flat
      ((startRun ledger).pending chain) ledger.state := fun _ => rfl
  obtain ⟨same, haf⟩ := Memory.run_alike (E := Err) hst (invoke (contractApi chain tx))
  refine ⟨_, _, _, rfl, ?_, haf⟩
  exact Prod.ext same.symm rfl

theorem blockProcess_single (tx : Transaction) {height : UInt64} (ha : height = ledger.height) :
    (blockProcess order ledger ⟨height, [tx]⟩).2.state = processAlone ledger.state tx := by
  unfold processAlone
  cases registered : getHandler tx.contractName with
  | error e => simp [blockProcess, processTxs, processTx, registered, finishBlock]
  | ok chain =>
    obtain ⟨result, pending, w, done, flat, shown⟩ := runPending_first ledger chain tx
    have hs : ∀ run : BlockRun, run.pending = (startRun ledger).pending →
        commit (allState order (addNonce tx (setPending run chain pending))) ledger.state = w := by
      intro run hfr
      apply store_ext
      intro key
      rw [find_allState_one order _ _ chain, ← shown key]
      · simp [addNonce, setPending]
      · intro chain' hd
        simp [addNonce, setPending, hd, hfr, startRun]
    cases result with
    | ok =>
      rw [blockProcess, processTxs, processTx_succeeded _ registered done]
      dsimp only [processTxs]
      rw [finishBlock_state _ _ _ _ ha, hs _ rfl, flat]
    | error e =>
      by_cases returned : e = .panic
      · subst returned
        simp [blockProcess, processTxs, processTx, registered, done, finishBlock, flat]
      · rw [blockProcess, processTxs, processTx_failed _ registered done returned]
        dsimp only [processTxs]
        rw [finishBlock_state _ _ _ _ ha, flat]
        refine (hs ⟨(startRun ledger).pending, [], _⟩ rfl).trans ?_
        cases e <;> first | rfl | exact absurd rfl returned

/-- A transaction whose call succeeds is accepted in a block of its own. -/
theorem blockProcess_single_ok {height : UInt64}
    (next : height = ledger.height) (hr : getHandler tx.contractName = .ok chain)
    (done : (runFlat (invoke (contractApi chain tx)) ledger.state).1 = .ok ()) :
    ∃ final, blockProcess order ledger ⟨height, [tx]⟩ = (.ok (), final) ∧
    final.height = height + 1 ∧ final.state = processAlone ledger.state tx := by
  obtain ⟨result, pending, w, ran, flat, _⟩ := runPending_first ledger chain tx
  obtain rfl : result = .ok () := (congrArg Prod.fst flat).symm.trans done
  have hp : processTxs ledger.state [tx] (startRun ledger) =
      (.ok (), addNonce tx (setPending (startRun ledger) chain pending)) := by
    rw [processTxs, processTx_succeeded _ hr ran]
    rfl
  refine ⟨_, blockProcess_accepts order (congrArg Prod.fst hp) next, ?_,
    blockProcess_single order ledger tx next⟩
  rw [blockProcess, hp, finishBlock, writeLedger, if_neg (not_not.mpr next)]

end HNBChain.Audit.Source
