import HNBChain.Audit.Source.Payload

/-!
# Nonces of executed transactions

`BlockProcess` stores, for every transaction of a block, its nonce plus one as the next nonce of its
sender. It compares the nonce with nothing: what the pool checks before a transaction is proposed,
execution takes on trust.

Over the nonces a chain of blocks is one list of transactions. If each of them carries a nonce that
its sender has not used up, no pair of sender and nonce occurs twice and no stored nonce goes down.
-/
namespace HNBChain.Audit.Guarantees.ReplayProtection

open Lib Source Function

/-- `GetNonce`. -/
def nonceOf (ledger : Ledger) (addr : Address) : UInt64 := (find ledger.nonces addr).getD 0

def executed (txs : List Transaction) : List (Address × UInt64) :=
  txs.map fun tx => (tx.fromAddr, tx.nonceValue)

/-- The next nonces after some transactions, in their order. -/
def nextNonces : (Address → UInt64) → List Transaction → Address → UInt64
  | next, [] => next
  | next, tx :: rest => nextNonces (update next tx.fromAddr (tx.nonceValue + 1)) rest

/-- Every transaction carries a nonce its sender has not passed yet, and one that has a
successor. -/
def InSequence : (Address → UInt64) → List Transaction → Prop
  | _, [] => True
  | next, tx :: rest =>
    next tx.fromAddr ≤ tx.nonceValue ∧ tx.nonceValue < tx.nonceValue + 1 ∧
      InSequence (update next tx.fromAddr (tx.nonceValue + 1)) rest

theorem nextNonces_append (next : Address → UInt64) (front back : List Transaction) :
    nextNonces next (front ++ back) = nextNonces (nextNonces next front) back := by
  induction front generalizing next with
  | nil => rfl
  | cons tx front ih => exact ih _

theorem inSequence_append (next : Address → UInt64) (front back : List Transaction) :
    InSequence next (front ++ back) ↔ InSequence next front ∧
    InSequence (nextNonces next front) back := by
  induction front generalizing next with
  | nil => simp [InSequence, nextNonces]
  | cons tx front ih =>
    simp only [List.cons_append, InSequence, nextNonces, ih]
    tauto

variable {next : Address → UInt64} {txs : List Transaction}

theorem InSequence.le_update {tx : Transaction} {rest : List Transaction}
    (hs : InSequence next (tx :: rest)) (addr : Address) :
    next addr ≤ update next tx.fromAddr (tx.nonceValue + 1) addr := by
  obtain ⟨hf, grows, _⟩ := hs
  by_cases own : addr = tx.fromAddr
  · subst own
    rw [update_self]
    exact UInt64.le_trans hf (UInt64.le_of_lt grows)
  · rw [update_of_ne own]
    exact UInt64.le_refl _

theorem InSequence.le_nextNonces (hs : InSequence next txs) (addr : Address) :
    next addr ≤ nextNonces next txs addr := by
  induction txs generalizing next with
  | nil => exact UInt64.le_refl _
  | cons tx rest ih => exact UInt64.le_trans (hs.le_update addr) (ih hs.2.2)

/-- Nothing below the next nonce of its sender is executed any more. -/
theorem InSequence.le_of_executed (hs : InSequence next txs) {addr : Address} {nonce : UInt64}
    (hm : (addr, nonce) ∈ executed txs) : next addr ≤ nonce := by
  induction txs generalizing next with
  | nil => cases hm
  | cons tx rest ih =>
    rcases List.mem_cons.mp hm with h1 | hl
    · obtain ⟨rfl, rfl⟩ := Prod.mk.injEq .. ▸ h1
      exact hs.1
    · exact UInt64.le_trans (hs.le_update addr) (ih hs.2.2 hl)

theorem InSequence.nodup (hs : InSequence next txs) : (executed txs).Nodup := by
  induction txs generalizing next with
  | nil => exact List.nodup_nil
  | cons tx rest ih =>
    obtain ⟨_, grows, ho⟩ := hs
    refine List.nodup_cons.mpr ⟨fun hag => ?_, ih ho⟩
    have hp := ho.le_of_executed hag
    rw [update_self] at hp
    exact absurd grows (UInt64.not_lt.mpr hp)

/-! ## What a block does to the nonces -/

/-- Storing the nonces of a block, one after the other. -/
theorem getD_setNonces (nonces : Store Address UInt64) (txs : List Transaction) :
    (fun addr => (find ((txs.map fun tx => (⟨tx.fromAddr, tx.nonceValue + 1⟩ : NonceItem)).foldl
      (fun acc item => acc.insert item.key item.nonce) nonces) addr).getD 0) =
      nextNonces (fun addr => (find nonces addr).getD 0) txs := by
  induction txs generalizing nonces with
  | nil => rfl
  | cons tx rest ih =>
    have one : (fun addr => (find (nonces.insert tx.fromAddr (tx.nonceValue + 1)) addr).getD 0) =
        update (fun addr => (find nonces addr).getD 0) tx.fromAddr (tx.nonceValue + 1) := by
      funext addr
      rw [find_insert]
      by_cases own : addr = tx.fromAddr
      · rw [if_pos own, own, update_self, Option.getD_some]
      · rw [if_neg own, update_of_ne own]
    rw [List.map_cons, List.foldl_cons, ih, one, nextNonces]

theorem nonceOf_blockProcess {order : MapOrder} {ledger ledger' : Ledger} {blk : Block}
    (ha : blockProcess order ledger blk = (.ok (), ledger')) :
    nonceOf ledger' = nextNonces (nonceOf ledger) blk.txs := by
  obtain ⟨run, _, items, _, rfl⟩ := blockProcess_ok ha
  rw [items]
  exact getD_setNonces ledger.nonces blk.txs

/-! ## Chains of accepted blocks -/

/-- Blocks that `BlockProcess` accepts one after the other, each of which meets a condition. -/
inductive Chain (meets : Ledger → Block → Prop) : Ledger → List Block → Ledger → Prop
  | nil (ledger : Ledger) : Chain meets ledger [] ledger
  | cons {ledger ledger' final : Ledger} {blk : Block} {rest : List Block} (order : MapOrder)
      (met : meets ledger blk) (accepted : blockProcess order ledger blk = (.ok (), ledger'))
      (later : Chain meets ledger' rest final) : Chain meets ledger (blk :: rest) final

def allTxs (blocks : List Block) : List Transaction := blocks.flatMap Block.txs

/-- What each block has of its transactions. -/
theorem Chain.forall_txs {P : Transaction → Prop} {start final : Ledger} {blocks : List Block}
    (chain : Chain (fun _ blk => ∀ tx ∈ blk.txs, P tx) start blocks final) :
    ∀ tx ∈ allTxs blocks, P tx := by
  induction chain with
  | nil => exact fun tx mem => by cases mem
  | cons order met ha hl ih =>
    intro tx mem
    rw [allTxs, List.flatMap_cons, List.mem_append] at mem
    exact mem.elim (met tx) (ih tx)

/-- The condition: the block's transactions go on from the stored nonces. -/
def Unused (ledger : Ledger) (blk : Block) : Prop := InSequence (nonceOf ledger) blk.txs

theorem Chain.nonceOf_final {meets : Ledger → Block → Prop} {start final : Ledger}
    {blocks : List Block} (chain : Chain meets start blocks final) :
    nonceOf final = nextNonces (nonceOf start) (allTxs blocks) := by
  induction chain with
  | nil => rfl
  | cons order met ha hl ih =>
    rw [ih, nonceOf_blockProcess ha, ← nextNonces_append]
    rfl

theorem Chain.inSequence {start final : Ledger} {blocks : List Block}
    (chain : Chain Unused start blocks final) : InSequence (nonceOf start) (allTxs blocks) := by
  induction chain with
  | nil => trivial
  | cons order met ha hl ih =>
    rw [nonceOf_blockProcess ha] at ih
    exact (inSequence_append _ _ _).mpr ⟨met, ih⟩

/-- In every chain of accepted blocks whose transactions all carry unused nonces, no pair of sender
and nonce is executed twice, and from any of its ledgers to a later one no nonce decreases. -/
theorem no_replay {start final : Ledger} {blocks : List Block}
    (chain : Chain Unused start blocks final) :
    (executed (allTxs blocks)).Nodup ∧ ∀ addr, nonceOf start addr ≤ nonceOf final addr := by
  constructor
  · exact chain.inSequence.nodup
  · intro addr
    rw [chain.nonceOf_final]
    exact chain.inSequence.le_nextNonces addr

/-! ## A payment executed twice -/

/-- The founder's next payment. -/
def secondPayment : Transaction := { foundersPayment with nonceValue := 1 }

theorem foundersPayments_in_turn : ∃ final,
    Chain Unused genesisLedger [⟨0, [foundersPayment]⟩, ⟨1, [secondPayment]⟩] final ∧
      (executed (allTxs [⟨0, [foundersPayment]⟩, ⟨1, [secondPayment]⟩])).Nodup ∧
      ∀ addr, nonceOf genesisLedger addr ≤ nonceOf final addr := by
  obtain ⟨middle, h1, height, state⟩ := blockProcess_single_ok (.any true) genesisLedger rfl
    (getHandler_carrying .hnb founder (.same ⟨[7], 5⟩)) (by decide +kernel)
  have hr : getHandler secondPayment.contractName = .ok .hnb :=
    getHandler_carrying .hnb founder (.same ⟨[7], 5⟩)
  obtain ⟨final, h2, _⟩ := blockProcess_single_ok (.any true) middle height.symm hr
    (by rw [state]; decide +kernel)
  have unused : Unused middle ⟨1, [secondPayment]⟩ := by
    rw [Unused, nonceOf_blockProcess h1]
    exact ⟨by decide, by decide, trivial⟩
  have chain : Chain Unused genesisLedger [⟨0, [foundersPayment]⟩, ⟨1, [secondPayment]⟩] final :=
    .cons _ ⟨by decide, by decide, trivial⟩ h1 (.cons _ unused h2 (.nil final))
  exact ⟨final, chain, no_replay chain⟩

/-- The same payment, with the same nonce, in two blocks: both are accepted, and it is made
twice. -/
theorem foundersPayment_replayed : ∃ final,
    Chain (fun _ _ => True) genesisLedger [⟨0, [foundersPayment]⟩, ⟨1, [foundersPayment]⟩] final ∧
      find final.state (.hnb, [7]) = some (Decimal.formatInt 10) ∧
      ¬ (executed (allTxs [⟨0, [foundersPayment]⟩, ⟨1, [foundersPayment]⟩])).Nodup := by
  obtain ⟨middle, h1, height, state⟩ := blockProcess_single_ok (.any true) genesisLedger rfl
    (getHandler_carrying .hnb founder (.same ⟨[7], 5⟩)) (by decide +kernel)
  obtain ⟨final, ha, _, twice⟩ := blockProcess_single_ok (.any true) middle height.symm
    (getHandler_carrying .hnb founder (.same ⟨[7], 5⟩)) (by rw [state]; decide +kernel)
  have rest : Chain (fun _ _ => True) middle [⟨1, [foundersPayment]⟩] final :=
    .cons _ trivial ha (.nil final)
  refine ⟨final, .cons _ trivial h1 rest, ?_, ?_⟩
  · rw [twice, state]
    decide +kernel
  · intro hd
    exact (List.nodup_cons.mp hd).1 List.mem_cons_self

end HNBChain.Audit.Guarantees.ReplayProtection
