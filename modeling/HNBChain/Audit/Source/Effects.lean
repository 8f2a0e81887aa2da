import HNBChain.Audit.Source.Contracts

/-!
# What a call does to the stored state

Calls run on any memory whose reads do not fail: the stored state itself (`runFlat`) or the pending
changes of a block above it. `decodeAction` splits the decoding of the arguments from the work, and
for each action one lemma says what the call returns and what it has written by then. All four token
movements are one shape, `Transfer`: a debit of one key and a credit of another.
-/
namespace HNBChain.Audit.Source

open Lib Decimal Hnb Handler

/-- The stored state of both tokens. -/
abbrev World := Store Key Bytes

/-- The amount under a key: zero when nothing is stored, none when the text is unreadable. -/
def amountOf : Option Bytes → Option Int64
  | none => some 0
  | some text => readInt text

/-- What `ParseInt` returns for the text under a key when its error is dropped. -/
def clippedAmount : Option Bytes → Int64
  | none => 0
  | some text => (parseInt text).1

@[simp] theorem amountOf_formatInt (n : Int64) :
    amountOf (some (formatInt n)) = some n := readInt_formatInt n

variable {n : Int64} {stored : Option Bytes}

theorem clippedAmount_of_amountOf (hr : amountOf stored = some n) :
    clippedAmount stored = n := by
  cases stored with
  | none => exact Option.some.inj hr
  | some text =>
    simp only [amountOf, readInt] at hr
    rcases parsed : parseInt text with ⟨amount, _ | e⟩ <;> simp_all [clippedAmount]

@[simp] theorem clippedAmount_formatInt (n : Int64) :
    clippedAmount (some (formatInt n)) = n := clippedAmount_of_amountOf (amountOf_formatInt n)

def amountAt (w : World) (key : Key) : Option Int64 := amountOf (find w key)

theorem epochKey_ne_recordKey (e e' : UInt64) : getEpochKey e ≠ getEpochRecordKey e' := by
  intro same
  have heads := congrArg List.head? same
  revert heads
  simp [getEpochKey, getEpochRecordKey, octets, ascii]

theorem getEpochKey_injective : Function.Injective getEpochKey := fun _ _ same =>
  formatUint_injective (List.append_cancel_left same)

theorem getEpochRecordKey_injective : Function.Injective getEpochRecordKey := fun _ _ same =>
  formatUint_injective (List.append_cancel_left same)

/-- What the contracts can be asked to do. -/
inductive Action where
  | same (hx : SameTx)
  | diff (hx : DiffTx)
  | vote (vi : VoteInfo)
  | unfreeze (epochNo : UInt64)
  | idle
  deriving DecidableEq

def decodePayLoad (chain : ChainID) (hx : ContractTx) : Except Err Action :=
  if hx.txType = 1 then (decodeSameTx hx.payLoad).elim (.error .json) (.ok ∘ .same)
  else if hx.txType = 2 then (decodeDiffTx hx.payLoad).elim (.error .json) (.ok ∘ .diff)
  else
    match chain with
    | .hgs => .ok .idle
    | .hnb =>
      if hx.txType = 3 then (decodeVoteInfo hx.payLoad).elim (.error .json) (.ok ∘ .vote)
      else if hx.txType = 4 then
        match parseUint hx.payLoad with
        | .error e => .error (.number e)
        | .ok epochNo => .ok (.unfreeze epochNo)
      else .ok .idle

/-- The action a contract reads out of its arguments. -/
def decodeAction (chain : ChainID) (args : Bytes) : Except Err Action :=
  match decodeContractTx args with
  | none => .error .json
  | some hx => decodePayLoad chain hx

/-- HGS knows the two token movements only. -/
theorem decodeAction_hgs {args : Bytes} {action : Action}
    (hd : decodeAction .hgs args = .ok action) :
    (∃ hx, action = .same hx) ∨ (∃ hx, action = .diff hx) ∨ action = .idle := by
  unfold decodeAction decodePayLoad at hd
  split at hd
  · cases hd
  · rename_i tx _
    split at hd
    · cases read : decodeSameTx tx.payLoad with
      | none => simp [read] at hd
      | some hx =>
        simp only [read, Option.elim_some, Function.comp_apply, Except.ok.injEq] at hd
        exact .inl ⟨hx, hd.symm⟩
    · split at hd
      · cases read : decodeDiffTx tx.payLoad with
        | none => simp [read] at hd
        | some hx =>
          simp only [read, Option.elim_some, Function.comp_apply, Except.ok.injEq] at hd
          exact .inr (.inl ⟨hx, hd.symm⟩)
      · simp only [Except.ok.injEq] at hd
        exact .inr (.inr hd.symm)

theorem chain_of_vote {chain : ChainID} {args : Bytes} {vi : VoteInfo}
    (hd : decodeAction chain args = .ok (.vote vi)) : chain = .hnb := by
  cases chain with
  | hnb => rfl
  | hgs => simpa using decodeAction_hgs hd

theorem chain_of_unfreeze {chain : ChainID} {args : Bytes} {epochNo : UInt64}
    (hd : decodeAction chain args = .ok (.unfreeze epochNo)) : chain = .hnb := by
  cases chain with
  | hnb => rfl
  | hgs => simpa using decodeAction_hgs hd

def perform (ca : ContractApi) : Action → Call Unit
  | .same hx =>
    match ca.chainID with
    | .hgs => Hgs.samePro ca hx
    | .hnb => samePro ca hx
  | .diff hx =>
    match ca.chainID with
    | .hgs => Hgs.diffPro ca hx
    | .hnb => diffPro ca hx
  | .vote vi => votePro ca vi
  | .unfreeze epochNo => unFreezePro ca epochNo
  | .idle => pure ()

theorem unmarshal_bind {α β : Type} (decoded : Option α) (f : α → Call β) :
    (unmarshal decoded >>= f) = decoded.elim (throw .json) f := by
  cases decoded <;> rfl

/-- `Invoke` decodes, then performs. -/
theorem invoke_eq (ca : ContractApi) :
    invoke ca =
      match decodeAction ca.chainID ca.args with
      | .error e => throw e
      | .ok action => perform ca action := by
  unfold decodeAction invoke Hgs.invoke Hnb.invoke
  cases decodeContractTx ca.args with
  | none => cases ca.chainID <;> rfl
  | some hx =>
    cases chain : ca.chainID with
    | hgs =>
      simp only [decodePayLoad, unmarshal_bind, Option.elim_some]
      split
      · cases decodeSameTx hx.payLoad <;> simp [perform, chain]
      · split
        · cases decodeDiffTx hx.payLoad <;> simp [perform, chain]
        · simp [perform]
    | hnb =>
      simp only [decodePayLoad, unmarshal_bind, Option.elim_some]
      split
      · cases decodeSameTx hx.payLoad <;> simp [perform, chain]
      · split
        · cases decodeDiffTx hx.payLoad <;> simp [perform, chain]
        · split
          · cases decodeVoteInfo hx.payLoad <;> simp [perform]
          · split
            · cases parseUint hx.payLoad <;> simp [perform]
            · simp [perform]

section Handlers

variable {σ : Type} (h : Handler Key Bytes Err σ)

@[simp] theorem run_orReturn {α : Type} (r : Except Err α) (s : σ) :
    h.run (orReturn r) s = (r, s) := by
  cases r <;> rfl

@[simp] theorem run_unmarshal {α : Type} (decoded : Option α) (s : σ) :
    h.run (unmarshal decoded) s = (decoded.elim (.error .json) .ok, s) := by
  cases decoded <;> rfl

/-- What reading an amount returns, with the error it returns. -/
def amountResult : Option Bytes → Except Err Int64
  | none => .ok 0
  | some text =>
    match parseInt text with
    | (amount, none) => .ok amount
    | (_, some e) => .error (.number e)

@[simp] theorem run_parseAmount (text : Bytes) (s : σ) :
    h.run (parseAmount text) s = (amountResult (some text), s) := by
  rcases parsed : parseInt text with ⟨amount, _ | e⟩ <;>
    simp [parseAmount, amountResult, parsed]

theorem amountResult_ok_iff (stored : Option Bytes) (n : Int64) :
    amountResult stored = .ok n ↔ amountOf stored = some n := by
  cases stored with
  | none => simp [amountResult, amountOf]
  | some text =>
    simp only [amountResult, amountOf, readInt]
    rcases parseInt text with ⟨amount, _ | e⟩ <;> simp

theorem amountResult_error_ne_panic {stored : Option Bytes} {e : Err}
    (hf : amountResult stored = .error e) : e ≠ .panic := by
  cases stored with
  | none => cases hf
  | some text =>
    simp only [amountResult] at hf
    split at hf
    · cases hf
    · cases hf
      simp

end Handlers

/-- A debit of one key and a credit of another. -/
structure Transfer where
  src : Key
  dst : Key
  debit : Int64
  credit : Int64

def ChainID.other : ChainID → ChainID
  | .hgs => .hnb
  | .hnb => .hgs

def SameTx.transfer (chain : ChainID) (fromBytes : Bytes) (hx : SameTx) : Transfer :=
  ⟨(chain, fromBytes), (chain, hx.outputAddr), hx.amount, hx.amount⟩

def DiffTx.transfer (chain : ChainID) (fromBytes : Bytes) (hx : DiffTx) : Transfer :=
  ⟨(chain, fromBytes), (chain.other, hx.outputAddr), hx.inAmount, hx.amount⟩

/-- The HGS handlers refuse a sender without a stored amount. -/
def storedResult : Option Bytes → Except Err Int64
  | none => .error (.new "input not exist")
  | some text => amountResult (some text)

theorem storedResult_ok_iff (stored : Option Bytes) (n : Int64) :
    storedResult stored = .ok n ↔ stored.bind readInt = some n := by
  cases stored with
  | none => simp [storedResult]
  | some text => simpa [storedResult, amountOf] using amountResult_ok_iff (some text) n

theorem amountOf_of_read (read : stored.bind readInt = some n) : amountOf stored = some n := by
  obtain ⟨text, rfl, integer⟩ := Option.bind_eq_some_iff.mp read
  exact integer

/-- What the sender is taken to hold: HGS wants a stored amount, HNB takes a missing one as zero. -/
def heldResult : ChainID → Option Bytes → Except Err Int64
  | .hgs, stored => storedResult stored
  | .hnb, stored => amountResult stored

theorem amountOf_of_heldResult {chain : ChainID} (held : heldResult chain stored = .ok n) :
    amountOf stored = some n := by
  cases chain with
  | hnb => exact (amountResult_ok_iff stored n).mp held
  | hgs => exact amountOf_of_read ((storedResult_ok_iff stored n).mp held)

/-- What the receiver of a SAME transfer is taken to have. -/
def hadResult : ChainID → Option Bytes → Except Err Int64
  | .hgs, stored => .ok (clippedAmount stored)
  | .hnb, stored => amountResult stored

theorem heldResult_of_stored (chain : ChainID) (hw : stored = some (formatInt n)) :
    heldResult chain stored = .ok n := by
  subst hw
  have read : amountResult (some (formatInt n)) = .ok n :=
    (amountResult_ok_iff _ n).mpr (by simp [amountOf])
  cases chain <;> exact read

def sameAddrError (fromBytes outputAddr : Bytes) : Option Err :=
  if fromBytes = outputAddr then some (.new "in and out addr same") else none

/-- The tally under an epoch key; the inner option is the nil map. -/
def tallyOf : Option Bytes → Option (Option Tally)
  | none => some (some ∅)
  | some text => decodeTally text

/-- The record list under a record key. -/
def recordsOf : Option Bytes → Option VoteRecords
  | none => some []
  | some text => decodeVoteRecords text

/-- The account a record names; a nil address is the empty key. -/
def recordAccount (entry : Option VoteRecord) : Bytes := (entry.bind VoteRecord.fromAddr).getD []

theorem recordsOf_of_readInt {text : Bytes} (integer : readInt text = some n) :
    recordsOf (some text) = none := by
  cases decoded : decodeVoteRecords text with
  | none => exact decoded
  | some records =>
    rw [readInt, parseInt_of_decodeVoteRecords text records decoded] at integer
    cases integer

theorem tallyOf_of_readInt {text : Bytes} (integer : readInt text = some n) :
    tallyOf (some text) = none := by
  cases decoded : decodeTally text with
  | none => exact decoded
  | some tally =>
    rw [readInt, parseInt_of_decodeTally text tally decoded] at integer
    cases integer

@[simp] theorem recordsOf_number (n : Int64) : recordsOf (some (formatInt n)) = none :=
  recordsOf_of_readInt (readInt_formatInt n)

/-- A key with a record list has no balance. -/
theorem clippedAmount_of_recordsOf {vrs : VoteRecords}
    (hl : recordsOf stored = some vrs) : clippedAmount stored = 0 := by
  cases stored with
  | none => rfl
  | some text => rw [clippedAmount, parseInt_of_decodeVoteRecords text vrs hl]

theorem clippedAmount_of_tallyOf {tally : Option Tally}
    (hfo : tallyOf stored = some tally) : clippedAmount stored = 0 := by
  cases stored with
  | none => rfl
  | some text => rw [clippedAmount, parseInt_of_decodeTally text tally hfo]

@[simp] theorem run_unmarshalTally {σ : Type} (h : Handler Key Bytes Err σ) (stored : Option Bytes)
    (s : σ) : h.run (unmarshalTally stored) s = ((tallyOf stored).elim (.error .json) .ok, s) := by
  cases stored <;> simp [unmarshalTally, tallyOf]

@[simp] theorem run_unmarshalRecords {σ : Type} (h : Handler Key Bytes Err σ)
    (stored : Option Bytes) (s : σ) :
    h.run (unmarshalRecords stored) s = ((recordsOf stored).elim (.error .json) .ok, s) := by
  cases stored <;> simp [unmarshalRecords, recordsOf]

section Memories

variable {σ : Type} (m : Memory Key Bytes σ)

/-- A call on a state whose reads do not fail. -/
abbrev runOn {α : Type} (call : Call α) (s : σ) : Except Err α × σ := (m.handler Err).run call s

/-- A call that runs directly on the stored state. -/
abbrev runFlat {α : Type} (call : Call α) (w : World) : Except Err α × World :=
  runOn Memory.flat call w

variable (ca : ContractApi)

@[simp] theorem runOn_getState (key : Bytes) (s : σ) :
    runOn m (ca.getState key) s = (.ok (.ok (m.look s (ca.chainID, key))), s) := rfl

@[simp] theorem runOn_getOtherState (chain : ChainID) (key : Bytes) (s : σ) :
    runOn m (ca.getOtherState chain key) s = (.ok (.ok (m.look s (chain, key))), s) := rfl

@[simp] theorem runOn_putState (key value : Bytes) (s : σ) :
    runOn m (ca.putState key value) s = (.ok (), m.put (ca.chainID, key) value s) := rfl

@[simp] theorem runOn_putOtherState (chain : ChainID) (key value : Bytes)
    (s : σ) : runOn m (ca.putOtherState chain key value) s = (.ok (),
      m.put (chain, key) value s) := rfl

@[simp] theorem runOn_delState (key : Bytes) (s : σ) :
    runOn m (ca.delState key) s = (.ok (), m.del (ca.chainID, key) s) := rfl

@[simp] theorem runOn_getBalance (addr : Bytes) (s : σ) :
    runOn m (getBalance ca addr) s = (amountResult (m.look s (ca.chainID, addr)), s) := by
  unfold getBalance
  simp only [run_bind, runOn_getState, run_orReturn]
  cases m.look s (ca.chainID, addr) <;> simp [amountResult]

@[simp] theorem runOn_getOtherStateBalance (chain : ChainID) (addr : Bytes) (s : σ) :
    runOn m (getOtherStateBalance ca chain addr) s =
    (amountResult (m.look s (chain, addr)), s) := by
  unfold getOtherStateBalance
  simp only [run_bind, runOn_getOtherState, run_orReturn]
  cases m.look s (chain, addr) <;> simp [amountResult]

@[simp] theorem runOn_setBalance (addr : Bytes) (amount : Int64) (s : σ) :
    runOn m (setBalance ca addr amount) s = (.ok (),
      m.put (ca.chainID, addr) (formatInt amount) s) := rfl

/-- The amounts `held` and `had` were read before either key is written. -/
def Transfer.apply (t : Transfer) (held had : Int64) (s : σ) : σ :=
  m.put t.dst (formatInt (had + t.credit)) (m.put t.src (formatInt (held - t.debit)) s)

/-- The common course of the four token movements: every check comes before the first write. -/
def moveResult (refusal : Option Err) (held had : Except Err Int64) (t : Transfer) (s : σ) :
    Except Err Unit × σ :=
  match refusal, held with
  | some e, _ => (.error e, s)
  | none, .error e => (.error e, s)
  | none, .ok a =>
    if a < t.debit then (.error (.new "insufficient balance"), s)
    else
      match had with
      | .error e => (.error e, s)
      | .ok b => (.ok (), t.apply m a b s)

theorem runOn_hnb_samePro (hx : SameTx) (s : σ) : runOn m (samePro ca hx) s =
      moveResult m (sameAddrError ca.fromAddr.val hx.outputAddr)
        (amountResult (m.look s (ca.chainID, ca.fromAddr.val)))
        (amountResult (m.look s (ca.chainID, hx.outputAddr)))
        (hx.transfer ca.chainID ca.fromAddr.val) s := by
  unfold samePro sameAddrError
  by_cases same : ca.fromAddr.val = hx.outputAddr
  · simp [same, run_bind, moveResult]
  · simp only [same, if_false, run_bind, runOn_getBalance]
    cases amountResult (m.look s (ca.chainID, ca.fromAddr.val)) with
    | error e => rfl
    | ok a =>
      by_cases low : a < hx.amount
      · simp [low, run_bind, moveResult, SameTx.transfer]
      · simp only [low, if_false, run_bind, runOn_getBalance, moveResult, SameTx.transfer]
        cases amountResult (m.look s (ca.chainID, hx.outputAddr)) <;> rfl

variable (hx : DiffTx) (s : σ)

theorem runOn_hnb_diffPro (chain : ca.chainID = .hnb) :
    runOn m (diffPro ca hx) s = moveResult m none (amountResult
      (m.look s (ca.chainID, ca.fromAddr.val)))
        (amountResult (m.look s (ca.chainID.other, hx.outputAddr)))
        (hx.transfer ca.chainID ca.fromAddr.val) s := by
  unfold diffPro
  simp only [run_bind, runOn_getBalance]
  cases amountResult (m.look s (ca.chainID, ca.fromAddr.val)) with
  | error e => rfl
  | ok a =>
    by_cases low : a < hx.inAmount
    · simp [low, run_bind, moveResult, DiffTx.transfer]
    · simp only [low, if_false, run_bind, runOn_getOtherStateBalance, moveResult,
        DiffTx.transfer, chain, ChainID.other]
      cases amountResult (m.look s (ChainID.hgs, hx.outputAddr)) with
      | error e => rfl
      | ok b => simp [Transfer.apply, setOtherStateBalance, chain]

theorem runOn_hgs_samePro (hx : SameTx) (s : σ) : runOn m (Hgs.samePro ca hx) s =
      moveResult m (sameAddrError ca.fromAddr.val hx.outputAddr)
        (storedResult (m.look s (ca.chainID, ca.fromAddr.val)))
        (.ok (clippedAmount (m.look s (ca.chainID, hx.outputAddr))))
        (hx.transfer ca.chainID ca.fromAddr.val) s := by
  unfold Hgs.samePro sameAddrError
  by_cases same : ca.fromAddr.val = hx.outputAddr
  · simp [same, run_bind, moveResult]
  · simp only [same, if_false, run_bind, runOn_getState, run_orReturn]
    cases m.look s (ca.chainID, ca.fromAddr.val) with
    | none => rfl
    | some text =>
      simp only [storedResult, run_bind, run_parseAmount]
      cases amountResult (some text) with
      | error e => rfl
      | ok a =>
        by_cases low : a < hx.amount
        · simp [low, run_bind, moveResult, SameTx.transfer]
        · simp only [low, if_false, run_bind, runOn_getState, run_orReturn, moveResult,
            SameTx.transfer]
          cases m.look s (ca.chainID, hx.outputAddr) <;> rfl

theorem runOn_hgs_diffPro (chain : ca.chainID = .hgs) :
    runOn m (Hgs.diffPro ca hx) s = moveResult m none (storedResult
      (m.look s (ca.chainID, ca.fromAddr.val)))
        (amountResult (m.look s (ca.chainID.other, hx.outputAddr)))
        (hx.transfer ca.chainID ca.fromAddr.val) s := by
  unfold Hgs.diffPro
  simp only [run_bind, runOn_getState, run_orReturn]
  cases m.look s (ca.chainID, ca.fromAddr.val) with
  | none => rfl
  | some text =>
    simp only [storedResult, run_bind, run_parseAmount]
    cases amountResult (some text) with
    | error e => rfl
    | ok a =>
      by_cases low : a < hx.inAmount
      · simp [low, run_bind, moveResult, DiffTx.transfer]
      · simp only [low, if_false, run_bind, runOn_getOtherState, run_orReturn, moveResult,
          DiffTx.transfer, chain, ChainID.other]
        cases m.look s (ChainID.hnb, hx.outputAddr) with
        | none => simp [run_bind, amountResult, Transfer.apply, chain]
        | some output =>
          simp only [run_bind, run_parseAmount]
          cases amountResult (some output) with
          | error e => rfl
          | ok b => simp [Transfer.apply, chain]

/-- SAME on either contract. -/
theorem runOn_same (hx : SameTx) (s : σ) : runOn m (perform ca (.same hx)) s =
      moveResult m (sameAddrError ca.fromAddr.val hx.outputAddr)
        (heldResult ca.chainID (m.look s (ca.chainID, ca.fromAddr.val)))
        (hadResult ca.chainID (m.look s (ca.chainID, hx.outputAddr)))
        (hx.transfer ca.chainID ca.fromAddr.val) s := by
  cases chain : ca.chainID with
  | hgs => simpa only [perform, chain, heldResult, hadResult] using runOn_hgs_samePro m ca hx s
  | hnb => simpa only [perform, chain, heldResult, hadResult] using runOn_hnb_samePro m ca hx s

/-- DIFF on either contract. -/
theorem runOn_diff : runOn m (perform ca (.diff hx)) s =
      moveResult m none (heldResult ca.chainID (m.look s (ca.chainID, ca.fromAddr.val)))
        (amountResult (m.look s (ca.chainID.other, hx.outputAddr)))
        (hx.transfer ca.chainID ca.fromAddr.val) s := by
  cases chain : ca.chainID with
  | hgs =>
    simpa only [perform, chain, heldResult, hadResult] using runOn_hgs_diffPro m ca hx s chain
  | hnb =>
    simpa only [perform, chain, heldResult, hadResult] using runOn_hnb_diffPro m ca hx s chain

theorem moveResult_ok_iff (refusal : Option Err) (held had : Except Err Int64)
    (t : Transfer) (s s' : σ) : moveResult m refusal held had t s = (.ok (), s') ↔
      refusal = none ∧ ∃ a b, held = .ok a ∧ t.debit ≤ a ∧ had = .ok b ∧ s' = t.apply m a b s := by
  rcases refusal with _ | e
  · rcases held with e | a
    · simp [moveResult]
    · by_cases low : a < t.debit
      · simp [moveResult, low, Int64.not_le.mpr low]
      · rcases had with e | b
        · simp [moveResult, low]
        · simp [moveResult, low, Int64.not_lt.mp low, eq_comm]
  · simp [moveResult]

theorem runOn_diff_ok (held had : Int64)
    (hh : heldResult ca.chainID (m.look s (ca.chainID, ca.fromAddr.val)) = .ok held)
    (he : hx.inAmount ≤ held)
    (hr : amountOf (m.look s (ca.chainID.other, hx.outputAddr)) = some had) :
    runOn m (perform ca (.diff hx)) s = (.ok (),
      (hx.transfer ca.chainID ca.fromAddr.val).apply m held had s) := by
  rw [runOn_diff, moveResult_ok_iff]
  exact ⟨rfl, held, had, hh, he, (amountResult_ok_iff _ had).mpr hr, rfl⟩

variable {s' : σ} {chain : ChainID}

theorem moveResult_error {refusal : Option Err} {held had : Except Err Int64} {t : Transfer}
    {s : σ} {e : Err} (hf : moveResult m refusal held had t s = (.error e, s')) : s' = s := by
  unfold moveResult at hf
  repeat' split at hf
  all_goals
    simp only [Prod.mk.injEq, reduceCtorEq, false_and] at hf
  all_goals exact hf.2.symm

/-- The checks of `SaveTokenTotal` and what it then writes, tally first. -/
def saveTotalResult (chain : ChainID) (vi : VoteInfo) (s : σ) : Except Err Unit × σ :=
  match vi.candidate, vi.fromAddr with
  | some candidate, some fromAddr =>
    if vi.votingPower = 0 ∨ vi.voteEpoch = 0 then (.error (.new "vote params invalid"), s)
    else
      match storedResult (m.look s (chain, fromAddr)) with
      | .error e => (.error e, s)
      | .ok inputAmount =>
        if inputAmount < vi.votingPower then (.error (.new "vote power lower"), s)
        else
          match tallyOf (m.look s (chain, getEpochKey vi.voteEpoch)) with
          | none => (.error .json, s)
          | some none => (.error .panic, s)
          | some (some tally) =>
            (.ok (), m.put (chain, fromAddr) (formatInt (inputAmount - vi.votingPower))
              (m.put (chain, getEpochKey vi.voteEpoch)
                (encodeTally (addVotes tally candidate vi.votingPower)) s))
  | _, _ => (.error (.new "vote params invalid"), s)

theorem saveTotalResult_ok_iff (chain : ChainID) (vi : VoteInfo) (s s' : σ) :
    saveTotalResult m chain vi s = (.ok (), s') ↔ ∃ candidate fromAddr amount tally,
        vi.candidate = some candidate ∧ vi.fromAddr = some fromAddr ∧ vi.votingPower ≠ 0 ∧
        vi.voteEpoch ≠ 0 ∧
        (m.look s (chain, fromAddr)).bind readInt = some amount ∧ vi.votingPower ≤ amount ∧
        tallyOf (m.look s (chain, getEpochKey vi.voteEpoch)) = some (some tally) ∧
        s' = m.put (chain, fromAddr) (formatInt (amount - vi.votingPower))
          (m.put (chain, getEpochKey vi.voteEpoch)
            (encodeTally (addVotes tally candidate vi.votingPower)) s) := by
  constructor
  · intro hs
    unfold saveTotalResult at hs
    split at hs
    next candidate fromAddr hn payer =>
      split_ifs at hs with invalid
      · cases hs
      obtain ⟨power, epoch⟩ := not_or.mp invalid
      split at hs
      · cases hs
      next amount held =>
        split_ifs at hs with low
        · cases hs
        split at hs
        · cases hs
        · cases hs
        next tally found =>
          cases hs
          exact ⟨candidate, fromAddr, amount, tally, hn, payer, power, epoch,
            (storedResult_ok_iff _ _).mp held, Int64.not_lt.mp low, found, rfl⟩
    · cases hs
  · rintro ⟨candidate, fromAddr, amount, tally, hn, payer, power, epoch, read,
      enough, found, rfl⟩
    simp only [saveTotalResult, hn, payer, power, epoch, or_self, if_false,
      (storedResult_ok_iff _ _).mpr read,
      Int64.not_lt.mpr enough, found]

/-- The vote passes every check of `SaveTokenTotal`. -/
def VotePasses (look : Bytes → Option Bytes) (vi : VoteInfo) : Prop :=
  ∃ candidate fromAddr amount tally, vi.candidate = some candidate ∧ vi.fromAddr = some fromAddr ∧
    vi.votingPower ≠ 0 ∧ vi.voteEpoch ≠ 0 ∧
    (look fromAddr).bind readInt = some amount ∧ vi.votingPower ≤ amount ∧
    tallyOf (look (getEpochKey vi.voteEpoch)) = some (some tally)

theorem votePasses_iff (chain : ChainID) (vi : VoteInfo) (s : σ) :
    VotePasses (fun key => m.look s (chain, key)) vi ↔
      ∃ s', saveTotalResult m chain vi s = (.ok (), s') := by
  simp only [saveTotalResult_ok_iff, VotePasses]
  constructor
  · rintro ⟨candidate, fromAddr, amount, tally, hn, payer, power, epoch, read, he, hfo⟩
    exact ⟨_, candidate, fromAddr, amount, tally, hn, payer, power, epoch, read,
      he, hfo, rfl⟩
  · rintro ⟨_, candidate, fromAddr, amount, tally, hn, payer, power, epoch, read,
      he, hfo, _⟩
    exact ⟨candidate, fromAddr, amount, tally, hn, payer, power, epoch, read, he, hfo⟩

theorem saveTotalResult_error {vi : VoteInfo} {s : σ} {e : Err}
    (hf : saveTotalResult m chain vi s = (.error e, s')) : s' = s := by
  unfold saveTotalResult at hf
  repeat' split at hf
  all_goals
    simp only [Prod.mk.injEq, reduceCtorEq, false_and] at hf
  all_goals exact hf.2.symm

/-- The record list reads the same before the vote's own writes as after them: the only way they
could touch it is a debited account under the record key, and a balance is no record list. -/
theorem recordsOf_after_debit {vi : VoteInfo} {s : σ}
    (hs : saveTotalResult m chain vi s = (.ok (), s')) :
    recordsOf (m.look s' (chain, getEpochRecordKey vi.voteEpoch)) =
      recordsOf (m.look s (chain, getEpochRecordKey vi.voteEpoch)) := by
  obtain ⟨_, fromAddr, amount, _, _, _, _, _, read, _, _, rfl⟩ :=
    (saveTotalResult_ok_iff m chain vi s s').mp hs
  by_cases same : getEpochRecordKey vi.voteEpoch = fromAddr
  · obtain ⟨text, hst, integer⟩ := Option.bind_eq_some_iff.mp read
    rw [same, m.look_put_self, hst, recordsOf_of_readInt integer, recordsOf_number]
  · rw [m.look_put_ne _ _ (by simpa using same),
      m.look_put_ne _ _ (by simpa using (epochKey_ne_recordKey _ _).symm)]

variable (vi : VoteInfo)

theorem runOn_saveTokenTotal :
    runOn m (saveTokenTotal ca vi) s = saveTotalResult m ca.chainID vi s := by
  unfold saveTokenTotal saveTotalResult
  rcases vi with ⟨_ | fromAddr, _ | candidate, power, epoch⟩ <;> try rfl
  by_cases invalid : power = 0 ∨ epoch = 0
  · simp [invalid, run_bind]
  · simp only [invalid, if_false, run_bind, runOn_getState, run_orReturn]
    cases m.look s (ca.chainID, fromAddr) with
    | none => rfl
    | some text =>
      simp only [storedResult, run_bind, run_parseAmount]
      cases amountResult (some text) with
      | error e => rfl
      | ok a =>
        by_cases low : a < power
        · simp [low, run_bind]
        · simp only [low, if_false, run_bind, runOn_getState, run_unmarshalTally]
          rcases tallyOf (m.look s (ca.chainID, getEpochKey epoch)) with _ | _ | tally <;> rfl

def saveFromInfoResult (chain : ChainID) (vi : VoteInfo) (s : σ) : Except Err Unit × σ :=
  match recordsOf (m.look s (chain, getEpochRecordKey vi.voteEpoch)) with
  | none => (.error .json, s)
  | some vrs =>
    (.ok (), m.put (chain, getEpochRecordKey vi.voteEpoch)
      (encodeVoteRecords (vrs ++ [some ⟨vi.fromAddr, vi.votingPower⟩])) s)

theorem runOn_saveTokenFromInfo :
    runOn m (saveTokenFromInfo ca vi) s = saveFromInfoResult m ca.chainID vi s := by
  unfold saveTokenFromInfo saveFromInfoResult
  simp only [run_bind, runOn_getState, run_unmarshalRecords]
  cases recordsOf (m.look s (ca.chainID, getEpochRecordKey vi.voteEpoch)) <;> rfl

/-- VOTE: the record is written after tally and debit, and may fail after them. -/
theorem runOn_vote :
    runOn m (perform ca (.vote vi)) s =
      match saveTotalResult m ca.chainID vi s with
      | (.ok (), s') => saveFromInfoResult m ca.chainID vi s'
      | (.error e, s') => (.error e, s') := by
  simp only [perform, votePro, run_bind, runOn_saveTokenTotal, runOn_saveTokenFromInfo]
  rcases saveTotalResult m ca.chainID vi s with ⟨_ | _, s'⟩ <;> rfl

theorem runOn_vote_ok {s : σ} (done : runOn m (perform ca (.vote vi)) s = (.ok (), s')) :
    ∃ mid vrs, saveTotalResult m ca.chainID vi s = (.ok (), mid) ∧
      recordsOf (m.look mid (ca.chainID, getEpochRecordKey vi.voteEpoch)) = some vrs ∧
      s' = m.put (ca.chainID, getEpochRecordKey vi.voteEpoch)
        (encodeVoteRecords (vrs ++ [some ⟨vi.fromAddr, vi.votingPower⟩])) mid := by
  rw [runOn_vote] at done
  rcases hs : saveTotalResult m ca.chainID vi s with ⟨_ | _, mid⟩
  · simp [hs] at done
  · simp only [hs, saveFromInfoResult] at done
    split at done
    · cases done
    next vrs listed =>
      cases done
      exact ⟨mid, vrs, rfl, listed, rfl⟩

/-- The loop of `UnFreezePro`: what is paid before a failing entry stays paid. -/
def payResult (chain : ChainID) : VoteRecords → σ → Except Err Unit × σ
  | [], s => (.ok (), s)
  | none :: _, s => (.error .panic, s)
  | some v :: rest, s =>
    match amountResult (m.look s (chain, v.fromAddr.getD [])) with
    | .error e => (.error e, s)
    | .ok amount =>
      payResult chain rest (m.put (chain, v.fromAddr.getD [])
        (formatInt (amount + v.votingPower)) s)

theorem runOn_payBack (vrs : VoteRecords) (s : σ) :
    runOn m (payBack ca vrs) s = payResult m ca.chainID vrs s := by
  induction vrs generalizing s with
  | nil => rfl
  | cons entry rest ih =>
    rcases entry with _ | v
    · rfl
    · simp only [payBack, payResult, run_bind, runOn_getBalance]
      cases amountResult (m.look s (ca.chainID, v.fromAddr.getD [])) with
      | error e => rfl
      | ok amount => exact ih _

/-- Paying a readable account changes no account's being readable. -/
theorem readable_put (key other : Key) (n : Int64) (s : σ) (hr : (amountOf (m.look s key)).isSome) :
    (amountOf (m.look (m.put key (formatInt n) s) other)).isSome =
    (amountOf (m.look s other)).isSome := by
  rw [m.look_put]
  split
  · rename_i same
    rw [same, hr]
    simp [amountOf]
  · rfl

/-- When a payment fails without a panic, some account is unreadable, and every account before it
has been paid. -/
theorem payResult_error {vrs : VoteRecords} {s : σ} {e : Err}
    (hf : payResult m chain vrs s = (.error e, s')) (hre : e ≠ .panic) :
    ∃ front blocked back, vrs = front ++ some blocked :: back ∧
    (∀ entry ∈ front, ∃ v : VoteRecord, entry = some v ∧
        (amountOf (m.look s (chain, v.fromAddr.getD []))).isSome) ∧
      amountOf (m.look s (chain, blocked.fromAddr.getD [])) = none ∧ (front = [] → s' = s) := by
  induction vrs generalizing s with
  | nil => cases hf
  | cons entry rest ih =>
    rcases entry with _ | v
    · simp only [payResult, Prod.mk.injEq, Except.error.injEq] at hf
      exact absurd hf.1.symm hre
    · cases read : amountResult (m.look s (chain, v.fromAddr.getD [])) with
      | error e' =>
        simp only [payResult, read, Prod.mk.injEq] at hf
        refine ⟨[], v, rest, rfl, by simp, ?_, fun _ => hf.2.symm⟩
        cases amount : amountOf (m.look s (chain, v.fromAddr.getD [])) with
        | none => rfl
        | some n =>
          rw [(amountResult_ok_iff _ n).mpr amount] at read
          cases read
      | ok n =>
        have hr : (amountOf (m.look s (chain, v.fromAddr.getD []))).isSome := by
          rw [(amountResult_ok_iff _ n).mp read]
          rfl
        simp only [payResult, read] at hf
        obtain ⟨front, blocked, back, hsh, paid, stuck, _⟩ := ih hf
        refine ⟨some v :: front, blocked, back, by rw [hsh]; rfl, ?_, ?_, by simp⟩
        · intro entry hm
          rcases List.mem_cons.mp hm with rfl | hla
          · exact ⟨v, rfl, hr⟩
          · obtain ⟨w, rfl, isReadable⟩ := paid entry hla
            exact ⟨w, rfl, by rwa [readable_put m _ _ _ s hr] at isReadable⟩
        · have same := readable_put m (chain, v.fromAddr.getD [])
            (chain, blocked.fromAddr.getD []) (n + v.votingPower) s hr
          rw [stuck] at same
          exact Option.not_isSome_iff_eq_none.mp (by rw [← same]; simp)

/-- Such a list does fail, and the failure is a returned error. -/
theorem payResult_blocked (front back : VoteRecords) (blocked : VoteRecord) (s : σ)
    (paid : ∀ entry ∈ front, ∃ v : VoteRecord, entry = some v ∧
      (amountOf (m.look s (chain, v.fromAddr.getD []))).isSome)
    (stuck : amountOf (m.look s (chain, blocked.fromAddr.getD [])) = none) :
    ∃ e s', payResult m chain (front ++ some blocked :: back) s = (.error e, s') ∧ e ≠ .panic := by
  induction front generalizing s with
  | nil =>
    cases read : amountResult (m.look s (chain, blocked.fromAddr.getD [])) with
    | error e => exact ⟨e, s, by simp [payResult, read], amountResult_error_ne_panic read⟩
    | ok n =>
      rw [(amountResult_ok_iff _ n).mp read] at stuck
      cases stuck
  | cons entry rest ih =>
    obtain ⟨v, rfl, hr⟩ := paid entry List.mem_cons_self
    obtain ⟨n, amount⟩ := Option.isSome_iff_exists.mp hr
    have read := (amountResult_ok_iff _ n).mpr amount
    obtain ⟨e, s', hrs, hre⟩ :=
      ih (m.put (chain, v.fromAddr.getD []) (formatInt (n + v.votingPower)) s)
      (fun entry hm => by
        obtain ⟨w, rfl, isReadable⟩ := paid entry (List.mem_cons_of_mem _ hm)
        exact ⟨w, rfl, by rwa [readable_put m _ _ _ s hr]⟩)
      (Option.not_isSome_iff_eq_none.mp (by
        rw [readable_put m _ _ _ s hr, stuck]
        simp))
    exact ⟨e, s', by simpa [payResult, read] using hrs, hre⟩

/-- UNFREEZE: both vote keys of the epoch go once every record is paid. -/
theorem runOn_unfreeze (epochNo : UInt64) (s : σ) :
    runOn m (perform ca (.unfreeze epochNo)) s =
      match recordsOf (m.look s (ca.chainID, getEpochRecordKey epochNo)) with
      | none => (.error .json, s)
      | some vrs =>
        match payResult m ca.chainID vrs s with
        | (.error e, s') => (.error e, s')
        | (.ok (), s') =>
          (.ok (), m.del (ca.chainID, getEpochKey epochNo)
            (m.del (ca.chainID, getEpochRecordKey epochNo) s')) := by
  simp only [perform, unFreezePro, run_bind, runOn_getState, run_unmarshalRecords]
  cases recordsOf (m.look s (ca.chainID, getEpochRecordKey epochNo)) with
  | none => rfl
  | some vrs =>
    simp only [Option.elim_some, runOn_payBack]
    rcases payResult m ca.chainID vrs s with ⟨_ | _, s'⟩ <;> rfl

theorem runOn_unfreeze_ok_iff (epochNo : UInt64) (s : σ) :
    runOn m (perform ca (.unfreeze epochNo)) s = (.ok (), s') ↔
      ∃ vrs mid, recordsOf (m.look s (ca.chainID, getEpochRecordKey epochNo)) = some vrs ∧
        payResult m ca.chainID vrs s = (.ok (), mid) ∧ s' = m.del (ca.chainID, getEpochKey epochNo)
          (m.del (ca.chainID, getEpochRecordKey epochNo) mid) := by
  rw [runOn_unfreeze]
  cases recordsOf (m.look s (ca.chainID, getEpochRecordKey epochNo)) with
  | none => simp
  | some vrs =>
    rcases hrs : payResult m ca.chainID vrs s with ⟨_ | _, mid⟩ <;> simp [hrs, eq_comm]

theorem runOn_invoke :
    runOn m (invoke ca) s =
      match decodeAction ca.chainID ca.args with
      | .error e => (.error e, s)
      | .ok action => runOn m (perform ca action) s := by
  rw [invoke_eq]
  cases decodeAction ca.chainID ca.args <;> rfl

/-- A call that returns an error has written nothing, or it is a vote whose record list turns out to
be unreadable after the debit, or an unfreeze that has paid someone before it meets an unreadable
account. -/
theorem invoke_error {s : σ} {e : Err} (hf : runOn m (invoke ca) s = (.error e, s'))
    (hre : e ≠ .panic) : s' = s ∨ (∃ vi, decodeAction ca.chainID ca.args = .ok (.vote vi) ∧
        saveTotalResult m .hnb vi s = (.ok (), s') ∧
        recordsOf (m.look s (.hnb, getEpochRecordKey vi.voteEpoch)) = none) ∨
      ∃ epochNo first front blocked back,
      decodeAction ca.chainID ca.args = .ok (.unfreeze epochNo) ∧
        recordsOf (m.look s (.hnb, getEpochRecordKey epochNo)) =
        some (some first :: front ++ some blocked :: back) ∧
        (∀ entry ∈ some first :: front, ∃ v : VoteRecord, entry = some v ∧
          (amountOf (m.look s (.hnb, v.fromAddr.getD []))).isSome) ∧
        amountOf (m.look s (.hnb, blocked.fromAddr.getD [])) = none := by
  rw [runOn_invoke] at hf
  cases decoded : decodeAction ca.chainID ca.args with
  | error e' =>
    simp only [decoded, Prod.mk.injEq] at hf
    exact .inl hf.2.symm
  | ok action =>
    simp only [decoded] at hf
    cases action with
    | same hx =>
      rw [runOn_same] at hf
      exact .inl (moveResult_error m hf)
    | diff hx =>
      rw [runOn_diff] at hf
      exact .inl (moveResult_error m hf)
    | idle => cases hf
    | vote vi =>
      rw [runOn_vote, chain_of_vote decoded] at hf
      rcases hs : saveTotalResult m .hnb vi s with ⟨_ | _, mid⟩
      · simp only [hs, Prod.mk.injEq] at hf
        exact .inl (hf.2.symm.trans (saveTotalResult_error m hs))
      · simp only [hs, saveFromInfoResult, recordsOf_after_debit m hs] at hf
        split at hf
        next unlisted =>
          cases hf
          exact .inr (.inl ⟨vi, rfl, hs, unlisted⟩)
        · cases hf
    | unfreeze epochNo =>
      rw [runOn_unfreeze, chain_of_unfreeze decoded] at hf
      split at hf
      · cases hf
        exact .inl rfl
      next vrs listed =>
        rcases paid : payResult m .hnb vrs s with ⟨e' | _, mid⟩
        · simp only [paid, Prod.mk.injEq, Except.error.injEq] at hf
          obtain ⟨rfl, rfl⟩ := hf
          obtain ⟨front, blocked, back, rfl, hb, stuck, kept⟩ := payResult_error m paid hre
          cases front with
          | nil => exact .inl (kept rfl)
          | cons first front =>
            obtain ⟨v, rfl, _⟩ := hb first List.mem_cons_self
            exact .inr (.inr ⟨epochNo, v, front, blocked, back, rfl, listed, hb, stuck⟩)
        · simp only [paid] at hf
          cases hf

end Memories

end HNBChain.Audit.Source
