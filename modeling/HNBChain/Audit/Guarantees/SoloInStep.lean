import HNBChain.Audit.Source.Solo

/-!
# The solo server and its ledger

The server numbers its next block with a counter that it moves on after every block, stored or not;
the ledger takes only the block of its own height. The two stay together exactly as long as every
block that does not end the process is one the ledger takes.
-/
namespace HNBChain.Audit.Guarantees.SoloInStep

open Lib Source SoloServer

/-- The counter is the height. -/
def InStep (solo : SoloServer) : Prop := solo.blkNum = solo.ledger.height

/-- The ledger refuses no block that the server makes of transactions with a known contract; what a
call may still do is panic. -/
def NextAccepted (solo : SoloServer) : Prop :=
  ∀ order txs e final, (∀ tx ∈ txs, Registered tx) →
    blockProcess order solo.ledger ⟨solo.blkNum, txs⟩ = (.error e, final) → e = .panic

/-- The block has the ledger's height and names known contracts only. -/
def Fits (solo : SoloServer) : SoloEvent → Prop
  | .own _ none => True
  | .own _ (some txs) => ∀ tx ∈ txs, Registered tx
  | .received _ blk => blk.header = some solo.ledger.height ∧ ∀ tx,
      some tx ∈ blk.txs → Registered tx

section

variable {solo solo' : SoloServer}

theorem InStep.nextAccepted (hi : InStep solo) : NextAccepted solo := by
  intro order txs e final hk hr
  rw [← process_some] at hr
  refine process_error hi (fun tx hm => ?_) hr
  obtain ⟨_, held, same⟩ := List.mem_map.mp hm
  cases same
  exact hk _ held

/-- The next number is another one, also at the end of the range. -/
theorem succ_ne (height : UInt64) : height + 1 ≠ height := by
  intro same
  simp at same

/-- A block that the process survives keeps the counter at the height if and only if it was
stored. -/
theorem writeBlock_inStep_iff {order : MapOrder} {blk : WireBlock} (hi : InStep solo)
    (hs : solo.writeBlock order blk = some solo') :
    InStep solo' ↔ blk.header = some solo.ledger.height ∧ ∀ tx, some tx ∈ blk.txs →
    Registered tx := by
  unfold writeBlock at hs
  cases header : blk.header with
  | none => simp [header] at hs
  | some blockNum =>
    rcases hp : process order solo.ledger blockNum blk.txs with ⟨e | _, ledger⟩
    · have height := process_height hp
      have hre : e ≠ .panic ∧ some ⟨solo.blkNum + 1, ledger⟩ = some solo' := by
        simp only [header, hp] at hs
        cases e <;> first | exact ⟨by simp, hs⟩ | cases hs
      cases hre.2
      constructor
      · intro ha
        change solo.blkNum + 1 = ledger.height at ha
        rw [height, hi] at ha
        exact absurd ha (succ_ne _)
      · rintro ⟨number, hk⟩
        exact absurd (process_error (Option.some.inj number) hk hp) hre.1
    · obtain ⟨number, hk, height⟩ := process_ok hp
      simp only [header, hp, Option.some.injEq] at hs
      cases hs
      refine iff_of_true ?_ ⟨congrArg some number, hk⟩
      change solo.blkNum + 1 = ledger.height
      rw [height, hi]

theorem serve_inStep_iff {e : SoloEvent} (hi : InStep solo)
    (hs : solo.serve e = some solo') : InStep solo' ↔ Fits solo e := by
  cases e with
  | received order blk => exact writeBlock_inStep_iff hi hs
  | own order txs =>
    cases txs with
    | none =>
      cases hs
      exact iff_of_true hi trivial
    | some txs =>
      have hw : solo.writeBlock order (solo.makeBlock txs) = some solo' := hs
      rw [writeBlock_inStep_iff hi hw]
      have number : solo.blkNum = solo.ledger.height := hi
      simp [number, makeBlock, Fits]

end

/-- In every state the run reaches, the counter is the height and the next block is not refused. -/
def KeepsStep (solo : SoloServer) (events : List SoloEvent) : Prop :=
  ∀ done reached, done <+: events → solo.run done = some reached → InStep reached ∧
    NextAccepted reached

/-- Each block of the run that does not end the process fits the ledger it comes to. -/
def AllFit (solo : SoloServer) (events : List SoloEvent) : Prop :=
  ∀ done e before after, done ++ [e] <+: events → solo.run done = some before →
    before.serve e = some after → Fits before e

/-- For every sequence of own and received blocks. -/
theorem run_keepsStep_iff (ledger : Ledger) (events : List SoloEvent) :
    KeepsStep (.start ledger) events ↔ AllFit (.start ledger) events := by
  constructor
  · intro hke done e before after here reached served
    have reached' : (start ledger).run (done ++ [e]) = some after := by
      rw [run_concat, reached]
      exact served
    have hi := (hke done before ((List.prefix_append _ _).trans here) reached).1
    exact (serve_inStep_iff hi served).mp (hke _ after here reached').1
  · intro fit done
    -- from the end of the sequence: the last block comes to a server that is in step
    induction done using List.reverseRecOn with
    | nil =>
      intro reached _ same
      cases same
      have hi : InStep (.start ledger) := rfl
      exact ⟨hi, hi.nextAccepted⟩
    | append_singleton done e ih =>
      intro reached here ran
      rw [run_concat] at ran
      obtain ⟨before, ranBefore, served⟩ := Option.bind_eq_some_iff.mp ran
      have hi := (ih before ((List.prefix_append _ _).trans here) ranBefore).1
      have after := (serve_inStep_iff hi served).mpr
        (fit done e before reached here ranBefore served)
      exact ⟨after, after.nextAccepted⟩

/-- An empty first block, received. -/
noncomputable def firstBlock : SoloEvent := .received (.any true) ⟨some 0, []⟩

/-- The first block arrives twice: the ledger refuses the second copy, the counter moves on, and
then the ledger refuses the server's own block. -/
theorem firstBlock_twice : ∃ reached,
    (start genesisLedger).run [firstBlock, firstBlock] = some reached ∧
      reached.blkNum = 2 ∧ reached.ledger.height = 1 ∧
      blockProcess (.any true) reached.ledger ⟨reached.blkNum, []⟩ =
        (.error (.new "height invalid"), reached.ledger) ∧
      ¬ KeepsStep (.start genesisLedger) [firstBlock, firstBlock] := by
  refine ⟨_, rfl, rfl, rfl, rfl, fun hke => ?_⟩
  have numbers : (2 : UInt64) = 1 := (hke _ _ List.prefix_rfl rfl).1
  exact absurd numbers (by decide)

end HNBChain.Audit.Guarantees.SoloInStep
