import HNBChain.Audit.Source.SyncBlock

/-!
# Answering a request for blocks

`processRequestBlocks` makes its slices for the range that a peer names before it looks into the
ledger, and counts to the end of the range with a variable that wraps around there.
-/
namespace HNBChain.Audit.Guarantees.ServedBlocks

open Source.Sync

variable {ledger : Ledger} {req : RequestBlocks} {endIndex i : UInt64} {room : Nat}

/-- What the ledger has from a number on. -/
def blocksFrom (ledger : Ledger) : UInt64 → Nat → List (Option Block)
  | _, 0 => []
  | i, n + 1 => ledger.lookup i :: blocksFrom ledger (i + 1) n

/-- The blocks of the range, all there. -/
def Complete (ledger : Ledger) (req : RequestBlocks) (blocks : List (Option Block)) : Prop :=
  blocks = blocksFrom ledger req.beginIndex
    (req.endIndex.toNat + 1 - req.beginIndex.toNat) ∧ none ∉ blocks

/-- No panic, no more entries than blocks, and the whole range or nothing. -/
def Safe (ledger : Ledger) (req : RequestBlocks) : Prop :=
  req.length.toNat ≤ ledger.keys.card ∧ ∃ res, processRequestBlocks ledger req = some res ∧
    ∀ blocks, res.blocks = some blocks → Complete ledger req blocks

/-- The blocks before the first that is missing have headers. Where the range ends at the last
number the loop goes on at 0, and only a missing block ends it. -/
structure Readable (ledger : Ledger) (endIndex i : UInt64) (room : Nat) : Prop where
  headers : ∀ k ≤ room, none ∉ blocksFrom ledger i k →
    ∀ block, some block ∈ blocksFrom ledger i k → block.header ≠ none
  ends : endIndex + 1 = 0 → none ∈ blocksFrom ledger i (room + 1)

/-- The numbers from `i` to `endIndex`. -/
def Spans (endIndex i : UInt64) (room : Nat) : Prop :=
  if room = 0 then i = endIndex + 1 else i.toNat + room = endIndex.toNat + 1

theorem Spans.succ (hsp : Spans endIndex i (room + 1)) :
    i ≤ endIndex ∧ Spans endIndex (i + 1) room := by
  simp only [Spans, Nat.succ_ne_zero, if_false] at hsp
  have hs := endIndex.toNat_lt
  refine ⟨UInt64.le_iff_toNat_le.mpr (by omega), ?_⟩
  unfold Spans
  split
  · rw [UInt64.toNat_inj.mp (show i.toNat = endIndex.toNat by omega)]
  · rw [UInt64.toNat_add, UInt64.toNat_one, Nat.mod_eq_of_lt (by omega)]
    omega

theorem succ_le_iff : endIndex + 1 ≤ endIndex ↔ endIndex + 1 = 0 := by
  rw [UInt64.le_iff_toNat_le, ← UInt64.toNat_inj, UInt64.toNat_add, UInt64.toNat_one,
    UInt64.toNat_zero]
  have hs := endIndex.toNat_lt
  omega

theorem readable_succ {block : Block} (hf : ledger.lookup i = some block) :
    Readable ledger endIndex i (room + 1) ↔
      block.header ≠ none ∧ Readable ledger endIndex (i + 1) room := by
  constructor
  · rintro ⟨headers, ends⟩
    refine ⟨headers 1 (by omega) (by simp [blocksFrom, hf]) block
      (by simp [blocksFrom, hf]), ?_, ?_⟩
    · intro k hw hc other hm
      exact headers (k + 1) (by omega) (by simpa [blocksFrom, hf] using hc) other
        (by simp [blocksFrom, hm])
    · intro last
      simpa [blocksFrom, hf] using ends last
  · rintro ⟨header, headers, ends⟩
    refine ⟨fun k hw hc other hm => ?_, fun last => ?_⟩
    · cases k with
      | zero => simp [blocksFrom] at hm
      | succ k =>
        simp only [blocksFrom, hf, List.mem_cons, Option.some.injEq, reduceCtorEq, false_or]
          at hc hm
        rcases hm with rfl | hl
        · exact header
        · exact headers k (by omega) hc other hl
    · simpa [blocksFrom, hf] using ends last

theorem fillBlocks_ne_none (hsp : Spans endIndex i room) :
    fillBlocks ledger endIndex room i ≠ none ↔ Readable ledger endIndex i room := by
  induction room generalizing i with
  | zero =>
    unfold fillBlocks
    rw [hsp, if_congr succ_le_iff rfl rfl]
    split
    next last =>
      have hst : Readable ledger endIndex (endIndex + 1) 0 ↔
          ledger.lookup (endIndex + 1) = none :=
        ⟨fun ⟨_, ends⟩ => by simpa [blocksFrom, eq_comm] using ends last,
          fun missing => ⟨by simp [blocksFrom], fun _ => by simp [blocksFrom, missing]⟩⟩
      rw [hst]
      cases ledger.lookup (endIndex + 1) <;> simp
    next more => exact iff_of_true (by simp) ⟨by simp [blocksFrom], fun last => absurd last more⟩
  | succ room ih =>
    obtain ⟨hw, hl⟩ := hsp.succ
    unfold fillBlocks
    rw [if_pos hw]
    cases found : ledger.lookup i with
    | none =>
      refine iff_of_true (by simp) ⟨fun k _ hc block hm => ?_,
        fun _ => by simp [blocksFrom, found]⟩
      cases k with
      | zero => simp [blocksFrom] at hm
      | succ k => simp [blocksFrom, found] at hc
    | some block =>
      rw [readable_succ found, ← ih hl]
      cases header : block.header <;> simp [header, Option.ne_none_iff_exists']

theorem fillBlocks_complete (hsp : Spans endIndex i room) {blocks : List (Option Block)}
    (filled : fillBlocks ledger endIndex room i = some (some blocks)) :
    blocks = blocksFrom ledger i room ∧ none ∉ blocks := by
  induction room generalizing i blocks with
  | zero =>
    unfold fillBlocks at filled
    split at filled
    · split at filled <;> cases filled
    · cases filled
      exact ⟨rfl, by simp⟩
  | succ room ih =>
    obtain ⟨hw, hl⟩ := hsp.succ
    unfold fillBlocks at filled
    rw [if_pos hw] at filled
    cases found : ledger.lookup i with
    | none => simp [found] at filled
    | some block =>
      simp only [found, Option.bind_eq_bind, Option.bind_eq_some_iff, Option.pure_def,
        Option.some.injEq,
        Option.map_eq_some_iff] at filled
      obtain ⟨_, _, _, filled, rest, rfl, rfl⟩ := filled
      obtain ⟨rfl, hc⟩ := ih hl filled
      exact ⟨by rw [blocksFrom, found], by simp [hc]⟩

theorem length_spans (hfo : req.endIndex < req.beginIndex → req.endIndex + 1 = req.beginIndex) :
    Spans req.endIndex req.beginIndex req.length.toNat ∧ (req.length.toNat =
      req.endIndex.toNat + 1 - req.beginIndex.toNat ∨ req.length.toNat = 0 ∧
      req.beginIndex ≤ req.endIndex) := by
  have last := req.endIndex.toNat_lt
  have h1 := req.beginIndex.toNat_lt
  unfold Spans RequestBlocks.length
  simp only [UInt64.lt_iff_toNat_lt, UInt64.le_iff_toNat_le, ← UInt64.toNat_inj, UInt64.toNat_add,
    UInt64.toNat_sub,
    UInt64.toNat_one] at *
  constructor
  · split <;> omega
  · omega

theorem length_eq_zero (he : req.length.toNat = 0) : req.endIndex + 1 = req.beginIndex := by
  have last := req.endIndex.toNat_lt
  have h1 := req.beginIndex.toNat_lt
  unfold RequestBlocks.length at he
  simp only [← UInt64.toNat_inj, UInt64.toNat_add, UInt64.toNat_sub, UInt64.toNat_one] at *
  omega

/-- A request is served as it should be exactly if its range is not longer than the ledger or than a
slice can be, does not begin after the number that follows its end, and the loop can read it. -/
theorem safe_iff (ledger : Ledger) (req : RequestBlocks) : Safe ledger req ↔
    (req.length.toNat ≤ maxSliceLen ∧ req.length.toNat ≤ ledger.keys.card) ∧
      (req.endIndex < req.beginIndex → req.endIndex + 1 = req.beginIndex) ∧
        Readable ledger req.endIndex req.beginIndex req.length.toNat := by
  unfold Safe processRequestBlocks
  by_cases fits : req.length.toNat ≤ maxSliceLen
  · rw [if_neg (Nat.not_lt.mpr fits)]
    by_cases forward : req.endIndex < req.beginIndex → req.endIndex + 1 = req.beginIndex
    · obtain ⟨hsp, count⟩ := length_spans forward
      rw [← fillBlocks_ne_none hsp]
      cases filled : fillBlocks ledger req.endIndex req.length.toNat req.beginIndex with
      | none => simp
      | some reply =>
        have complete (blocks : List (Option Block)) (all : reply = some blocks) :
            Complete ledger req blocks := by
          rcases count with same | ⟨he, hw⟩
          · unfold Complete
            rw [← same]
            exact fillBlocks_complete hsp (all ▸ filled)
          · rw [he, fillBlocks, if_pos hw, all] at filled
            split at filled <;> cases filled
        exact ⟨fun safe => ⟨⟨fits, safe.1⟩, forward, by simp⟩,
          fun met => ⟨met.1.2, _, rfl, complete⟩⟩
    · -- the loop is not entered, and the entries go out as they are
      obtain ⟨back, ha⟩ := Classical.not_imp.mp forward
      have entries : req.length.toNat ≠ 0 := mt length_eq_zero ha
      obtain ⟨n, many⟩ := Nat.exists_eq_succ_of_ne_zero entries
      refine iff_of_false (fun ⟨_, res, served, complete⟩ => ?_) fun safe => forward safe.2.1
      rw [many, fillBlocks, if_neg (UInt64.not_le.mpr back)] at served
      cases served
      exact (complete _ rfl).2 (by simp)
  · rw [if_pos (Nat.not_le.mp fits)]
    simp [fits]

/-- A ledger with its first block. -/
def genesisOnly : Ledger := Finmap.singleton 0 ⟨some ⟨0⟩⟩

/-- All numbers there are: no entries are made, and the first block has no place. From the last
number back to 0: two blocks without content. A thousand blocks: room for as many. -/
theorem requests_unsafe : (processRequestBlocks genesisOnly ⟨0, 18446744073709551615, 0⟩ = none ∧
      ¬ Safe genesisOnly ⟨0, 18446744073709551615, 0⟩) ∧
      (processRequestBlocks genesisOnly ⟨18446744073709551615, 0, 0⟩ = some ⟨some [none, none], 0⟩ ∧
        ¬ Safe genesisOnly ⟨18446744073709551615, 0, 0⟩) ∧
      ((⟨0, 999, 0⟩ : RequestBlocks).length = 1000 ∧ ¬ Safe genesisOnly ⟨0, 999, 0⟩) := by
  have one : genesisOnly.keys.card = 1 := by decide +kernel
  have all : processRequestBlocks genesisOnly ⟨0, 18446744073709551615, 0⟩ = none :=
    by decide +kernel
  have back : RequestBlocks.length ⟨18446744073709551615, 0, 0⟩ = 2 := by decide +kernel
  refine ⟨⟨all, ?_⟩, ⟨by decide +kernel, ?_⟩, by decide +kernel, ?_⟩
  · rintro ⟨_, res, served, _⟩
    rw [all] at served
    cases served
  · rintro ⟨few, _⟩
    rw [back, one] at few
    exact absurd few (by decide)
  · rintro ⟨few, _⟩
    rw [one] at few
    exact absurd few (by decide +kernel)

end HNBChain.Audit.Guarantees.ServedBlocks
