import HNBChain.Audit.Source.AppMgr
import HNBChain.Audit.Source.Footprint

/-!
# What a block touches

A block whose calls stay within some keys reads the stored state under those keys only, and has
pending changes under those keys only. Three bounds are read off the transactions: the keys they
name, the keys of their own contract if none of them is an exchange, and one contract if they call
no other. In the last two cases it does not matter in which order Go ranges over the two contracts.
-/
namespace HNBChain.Audit.Source

open Lib List

section

variable (F : ChainID → Key → Prop)

/-- Above any state the calls stay within what is allowed to their contract. -/
def Bounded (txs : List Transaction) : Prop :=
  ∀ tx ∈ txs, ∀ chain, getHandler tx.contractName = .ok chain →
    ∀ base pending, (Memory.overlay base).Confined (F chain) (invoke (contractApi chain tx)) pending

def Within (run : BlockRun) : Prop := ∀ chain key, ¬ F chain key →
    find (run.pending chain) key = none

end

section

variable {F : ChainID → Key → Prop} {base base' : World} {tx : Transaction} {txs : List Transaction}
  {run : BlockRun}

theorem Within.step (hw : Within F run) (hb : Bounded F [tx]) :
    Within F (processTx base run tx).2 := by
  cases registered : getHandler tx.contractName with
  | error e =>
    have kept : (processTx base run tx).2 = run := by simp only [processTx, registered]
    rw [kept]
    exact hw
  | ok called =>
    intro chain key ho
    rw [processTx_pending registered]
    by_cases own : chain = called
    · subst own
      have hc := hb tx mem_cons_self chain registered base (run.pending chain)
      rw [Function.update_self]
      exact (hc.find_pending key ho).trans (hw chain key ho)
    · rw [Function.update_of_ne own]
      exact hw chain key ho

theorem processTx_agree (hb : Bounded F [tx])
    (agree : ∀ chain key, F chain key → find base key = find base' key) :
    processTx base run tx = processTx base' run tx := by
  unfold processTx
  cases registered : getHandler tx.contractName with
  | error e => rfl
  | ok chain =>
    have hc := hb tx mem_cons_self chain registered base (run.pending chain)
    have same : runPending base run chain tx = runPending base' run chain tx :=
      hc.run_overlay (agree chain)
    simp only [same]

theorem Bounded.head (hb : Bounded F (tx :: txs)) : Bounded F [tx] := by
  intro called hm
  rw [mem_singleton.mp hm]
  exact hb tx mem_cons_self

theorem Bounded.tail (hb : Bounded F (tx :: txs)) : Bounded F txs :=
  fun called hm => hb called (mem_cons_of_mem tx hm)

theorem Within.steps (hw : Within F run) (hb : Bounded F txs) :
    Within F (processTxs base txs run).2 := by
  induction txs generalizing run with
  | nil => exact hw
  | cons tx rest ih =>
    have h1 : Within F (processTx base run tx).2 := hw.step hb.head
    unfold processTxs
    generalize processTx base run tx = result at h1 ⊢
    rcases result with ⟨_ | _, run'⟩
    · exact h1
    · exact ih h1 hb.tail

theorem processTxs_agree (hb : Bounded F txs)
    (agree : ∀ chain key, F chain key → find base key = find base' key) :
    processTxs base txs run = processTxs base' txs run := by
  induction txs generalizing run with
  | nil => rfl
  | cons tx rest ih =>
    unfold processTxs
    rw [processTx_agree hb.head agree]
    rcases processTx base' run tx with ⟨_ | _, run'⟩
    · rfl
    · exact ih hb.tail

end

/-! ## Bounds that are read off the transactions -/

theorem mem_callTouches {look : Key → Option Bytes} {chain : ChainID} {tx : Transaction} {key : Key}
    (hi : key ∈ callTouches look (contractApi chain tx)) :
    ∃ action, decodeAction chain tx.payload = .ok action ∧
    key ∈ touched look chain tx.fromAddr.val action := by
  unfold callTouches at hi
  split at hi
  · cases hi
  next action decoded => exact ⟨action, decoded, hi⟩

/-- The keys a transaction names. The accounts that UNFREEZE pays are not named. -/
def namedKeys (tx : Transaction) : Option (List Key) :=
  match getHandler tx.contractName with
  | .error _ => some []
  | .ok chain =>
    match decodeAction chain tx.payload with
    | .error _ => some []
    | .ok (.unfreeze _) => none
    | .ok action => some (touched (fun _ => none) chain tx.fromAddr.val action)

/-- The transactions name all their keys, and none of these. -/
def Avoids (txs : List Transaction) (keys : List Key) : Prop :=
  ∀ tx ∈ txs, ∃ named, namedKeys tx = some named ∧ ∀ key ∈ named, key ∉ keys

theorem Avoids.bounded {txs : List Transaction} {keys : List Key} (avoids : Avoids txs keys) :
    Bounded (fun _ key => key ∉ keys) txs := by
  intro tx hm chain hr base pending
  obtain ⟨named, names, ha⟩ := avoids tx hm
  refine (invoke_confined (Memory.overlay base) (contractApi chain tx) pending).mono
    fun key hi => ha key ?_
  obtain ⟨action, hd, hi⟩ := mem_callTouches hi
  simp only [namedKeys, hr, hd] at names
  cases action with
  | unfreeze epochNo => cases names
  | _ =>
    cases names
    exact hi

/-- No transaction exchanges tokens of one contract for tokens of the other. -/
def NoExchange (txs : List Transaction) : Prop :=
  ∀ tx ∈ txs, ∀ chain, getHandler tx.contractName = .ok chain → ∀ hx,
    decodeAction chain tx.payload ≠ .ok (.diff hx)

theorem NoExchange.bounded {txs : List Transaction} (noExchange : NoExchange txs) :
    Bounded (fun chain key => key.1 = chain) txs := by
  intro tx hm chain hr base pending
  refine (invoke_confined (Memory.overlay base) (contractApi chain tx) pending).mono
    fun key hi => ?_
  obtain ⟨action, hd, hi⟩ := mem_callTouches hi
  cases action with
  | diff hx => exact absurd hd (noExchange tx hm chain hr hx)
  | same hx =>
    simp only [touched, mem_cons, not_mem_nil, or_false] at hi
    rcases hi with rfl | rfl <;> rfl
  | vote vi =>
    simp only [touched, mem_cons, not_mem_nil, or_false] at hi
    rcases hi with rfl | rfl | rfl <;> rfl
  | unfreeze epochNo =>
    simp only [touched, mem_cons, mem_map] at hi
    rcases hi with rfl | rfl | ⟨entry, _, rfl⟩ <;> rfl
  | idle => cases hi

def OneContract (txs : List Transaction) : Prop :=
  ∃ only, ∀ tx ∈ txs, ∀ chain, getHandler tx.contractName = .ok chain → chain = only

theorem OneContract.bounded {txs : List Transaction} (oneContract : OneContract txs) :
    ∃ only, Bounded (fun chain _ => chain = only) txs := by
  obtain ⟨only, called⟩ := oneContract
  refine ⟨only, fun tx hm chain hr base pending => ?_⟩
  exact (invoke_confined (Memory.overlay base) (contractApi chain tx) pending).mono fun _ _ =>
    called tx hm chain hr

/-! ## The order of the contracts -/

/-- No two contracts have a pending change under one key. -/
theorem apart_of_independent (base : World) (ledger : Ledger) (txs : List Transaction)
    (independent : NoExchange txs ∨ OneContract txs) (key : Key) :
    find ((processTxs base txs (startRun ledger)).2.pending .hnb) key = none ∨
      find ((processTxs base txs (startRun ledger)).2.pending .hgs) key = none := by
  have start (F : ChainID → Key → Prop) : Within F (startRun ledger) := fun _ _ _ => rfl
  rcases independent with noExchange | oneContract
  · have hw : Within _ (processTxs base txs (startRun ledger)).2 :=
      (start _).steps noExchange.bounded
    by_cases own : key.1 = .hnb
    · have foreign : key.1 ≠ .hgs := by
        rw [own]
        decide
      exact .inr (hw .hgs key foreign)
    · exact .inl (hw .hnb key own)
  · obtain ⟨only, hb⟩ := oneContract.bounded
    have hw : Within _ (processTxs base txs (startRun ledger)).2 := (start _).steps hb
    cases only with
    | hnb => exact .inr (hw .hgs key ChainID.noConfusion)
    | hgs => exact .inl (hw .hnb key ChainID.noConfusion)

theorem commit_allState_eq {order order' : MapOrder} {run : BlockRun} (base : World)
    (irrelevant : order.hnbFirst = order'.hnbFirst ∨
      ∀ key, find (run.pending .hnb) key = none ∨ find (run.pending .hgs) key = none) :
    commit (allState order run) base = commit (allState order' run) base := by
  refine store_ext fun key => ?_
  rw [find_allState, find_allState]
  rcases irrelevant with same | ha
  · rw [same]
  · have swapped := overlaid_comm (ha key) (find base key)
    unfold visible
    rw [swapped, ite_self, ite_self]

end HNBChain.Audit.Source
