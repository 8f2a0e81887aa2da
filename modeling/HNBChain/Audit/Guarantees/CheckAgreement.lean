import HNBChain.Audit.Source.Payload

/-!
# The check of a transfer and its execution

`CheckTx` makes the checks of the two token movements on the sender and writes nothing. The amount
of the receiver is read by `Invoke` alone, which fails on a text that is no number; only SAME on HGS
takes such a text as zero.
-/
namespace HNBChain.Audit.Guarantees.CheckAgreement

open Lib Source Handler

/-- The arguments are those of SAME or DIFF. -/
def Moves (args : Bytes) : Prop := ∃ hx, decodeContractTx args = some hx ∧
    (hx.txType = 1 ∨ hx.txType = 2)

section

variable {σ : Type} (m : Memory Key Bytes σ) (ca : ContractApi) (s : σ)

/-- `CheckTx` returns nil exactly if `Invoke` does, and leaves the state. -/
def Agrees : Prop :=
  Moves ca.args → ((runOn m (checkTx ca) s).1 = .ok () ↔ (runOn m (invoke ca) s).1 = .ok ()) ∧
    (runOn m (checkTx ca) s).2 = s

/-- What the receiver has can be read, if the check is passed. -/
def Readable : Prop :=
  Moves ca.args → (runOn m (checkTx ca) s).1 = .ok () →
    match decodeAction ca.chainID ca.args with
    | .ok (.same hx) => (hadResult ca.chainID (m.look s (ca.chainID, hx.outputAddr))).isOk
    | .ok (.diff hx) => (amountResult (m.look s (ca.chainID.other, hx.outputAddr))).isOk
    | _ => True

/-- The check of either contract. -/
def check : Action → Call Unit
  | .same hx =>
    match ca.chainID with
    | .hgs => Hgs.checkSamePro ca hx
    | .hnb => Hnb.checkSamePro ca hx
  | .diff hx =>
    match ca.chainID with
    | .hgs => Hgs.checkDiffPro ca hx
    | .hnb => Hnb.checkDiffPro ca hx
  | _ => pure ()

def checkResult (refusal : Option Err) (held : Except Err Int64) (debit : Int64) :
    Except Err Unit :=
  match refusal, held with
  | some e, _ => .error e
  | none, .error e => .error e
  | none, .ok a => if a < debit then .error (.new "insufficient balance") else .ok ()

theorem run_covers (a debit : Int64) :
    runOn m (if a < debit then throw (.new "insufficient balance") else pure () : Call Unit) s =
      (checkResult none (.ok a) debit, s) := by
  by_cases low : a < debit <;> simp [checkResult, low]

theorem runOn_check_diff (hx : DiffTx) : runOn m (check ca (.diff hx)) s =
    (checkResult none (heldResult ca.chainID (m.look s (ca.chainID, ca.fromAddr.val))) hx.inAmount,
      s) := by
  cases chain : ca.chainID with
  | hnb =>
    simp only [check, chain, Hnb.checkDiffPro, run_bind, runOn_getBalance, heldResult]
    cases amountResult (m.look s (.hnb, ca.fromAddr.val)) with
    | error e => rfl
    | ok a => exact run_covers m s a hx.inAmount
  | hgs =>
    simp only [check, chain, Hgs.checkDiffPro, run_bind, runOn_getState, run_orReturn, heldResult]
    cases m.look s (.hgs, ca.fromAddr.val) with
    | none => rfl
    | some text =>
      simp only [storedResult, run_bind, run_parseAmount]
      cases amountResult (some text) with
      | error e => rfl
      | ok a => exact run_covers m s a hx.inAmount

/-- The check of SAME is that of DIFF, after the addresses were compared. -/
theorem runOn_check_same (hx : SameTx) : runOn m (check ca (.same hx)) s =
    (checkResult (sameAddrError ca.fromAddr.val hx.outputAddr)
      (heldResult ca.chainID (m.look s (ca.chainID, ca.fromAddr.val))) hx.amount, s) := by
  unfold sameAddrError
  by_cases same : ca.fromAddr.val = hx.outputAddr
  · cases chain : ca.chainID <;> simp [check, chain, Hnb.checkSamePro, Hgs.checkSamePro, same,
      run_bind, checkResult]
  · rw [if_neg same, ← runOn_check_diff m ca s ⟨hx.outputAddr, hx.amount, hx.amount⟩]
    cases chain : ca.chainID <;>
      simp [check, chain, Hnb.checkSamePro, Hgs.checkSamePro, Hnb.checkDiffPro,
        Hgs.checkDiffPro, same]

/-- `CheckTx` decodes as `Invoke` does, then checks. -/
theorem checkTx_eq {hx : ContractTx} (hd : decodeContractTx ca.args = some hx)
    (hm : hx.txType = 1 ∨ hx.txType = 2) : decodeAction ca.chainID ca.args = .error .json ∧
    checkTx ca = throw .json ∨
      ∃ action, decodeAction ca.chainID ca.args = .ok action ∧ checkTx ca = check ca action ∧
        ((∃ tx, action = .same tx) ∨ ∃ tx, action = .diff tx) := by
  unfold decodeAction decodePayLoad checkTx Hnb.checkTx Hgs.checkTx
  rw [hd]
  rcases hm with type | type
  · cases read : decodeSameTx hx.payLoad with
    | none => cases chain : ca.chainID <;> simp [type, read, unmarshal_bind]
    | some tx => cases chain : ca.chainID <;> simp [type, read, unmarshal_bind, check, chain]
  · cases read : decodeDiffTx hx.payLoad with
    | none => cases chain : ca.chainID <;> simp [type, read, unmarshal_bind]
    | some tx => cases chain : ca.chainID <;> simp [type, read, unmarshal_bind, check, chain]

/-- The amount of the receiver is all that the check leaves out. -/
theorem move_agrees (refusal : Option Err) (held had : Except Err Int64) (t : Transfer) :
    (checkResult refusal held t.debit = .ok () ↔ (moveResult m refusal held had t s).1 = .ok ()) ↔
      (checkResult refusal held t.debit = .ok () → had.isOk) := by
  rcases refusal with _ | e
  · rcases held with e | a
    · simp [checkResult, moveResult]
    · by_cases low : a < t.debit
      · simp [checkResult, moveResult, low]
      · rcases had with e | b <;> simp [checkResult, moveResult, low, Except.isOk, Except.toBool]
  · simp [checkResult, moveResult]

theorem agrees_iff : Agrees m ca s ↔ Readable m ca s := by
  refine imp_congr_right fun ⟨hx, hd, hm⟩ => ?_
  rw [runOn_invoke]
  rcases checkTx_eq ca hd hm with ⟨hfa, same⟩ | ⟨action, hf, same,
    ⟨tx, rfl⟩ | ⟨tx, rfl⟩⟩
  · rw [hfa, same]
    simp
  · rw [hf, same]
    dsimp only
    rw [runOn_check_same, runOn_same]
    exact (and_iff_left rfl).trans (move_agrees m s _ _ _ (tx.transfer ca.chainID ca.fromAddr.val))
  · rw [hf, same]
    dsimp only
    rw [runOn_check_diff, runOn_diff]
    exact (and_iff_left rfl).trans (move_agrees m s _ _ _ (tx.transfer ca.chainID ca.fromAddr.val))

end

/-- The founder pays to a key under which there is a word. -/
def wordAtSeven : World := genesis.insert (.hnb, [7]) (octets "word")

theorem word_disagrees : ¬ Agrees Memory.flat (contractApi .hnb foundersPayment) wordAtSeven := by
  intro ha
  have hm : Moves (contractApi .hnb foundersPayment).args :=
    ⟨_, decodeContractTx_text 1 _ (by decide), .inl rfl⟩
  have hp : (runFlat (checkTx (contractApi .hnb foundersPayment)) wordAtSeven).1 = .ok () :=
    by decide +kernel
  have fails : (runFlat (invoke (contractApi .hnb foundersPayment)) wordAtSeven).1 ≠ .ok () :=
    by decide +kernel
  exact fails ((ha hm).1.mp hp)

end HNBChain.Audit.Guarantees.CheckAgreement
