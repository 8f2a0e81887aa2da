import HNBChain.Audit.Guarantees.EpochQuorum

/-!
# The witnesses of the last epoch

Without enough votes the witnesses are those of an earlier epoch, the latest below the one the
present epoch depends on. `isExist` looks it up in the database if it is not in the list, but then
answers with what it found in the list: an epoch that has only been stored is passed over, while
`GetEpoch` reads it. After a restart, or when the list was cleaned, a node goes back further than
others do, down to epoch 0; and if nothing is stored for epoch 0, it reads the witnesses of no
epoch.
-/
namespace HNBChain.Audit.Guarantees.LastWitnesses

open Lib Source Source.Dbft
open EpochQuorum

/-- The latest epoch below the number for which there is a record; epoch 0 if there is none. -/
def IsLatest (records : UInt64 → Option Epoch) (dependEpochNo e : UInt64) : Prop :=
  ((records e).isSome ∧ e < dependEpochNo ∨ e = 0) ∧ ∀ later < dependEpochNo,
    (records later).isSome → later ≤ e

/-- What comes out is what is recorded for the latest epoch. -/
def FromLatest (m : DbftManager) (dependEpochNo : UInt64) : Prop :=
  ∃ e epoch, IsLatest m.epochRecords dependEpochNo e ∧ m.epochRecords e = some epoch ∧
    (m.getLastWitnesses dependEpochNo).1 = some ((epoch.witnessList, epoch.accum), e)

/-- The latest recorded epoch is in the list; or there is none but epoch 0, which is recorded. -/
def Held (m : DbftManager) (dependEpochNo : UInt64) : Prop :=
  (∃ e, e ≠ 0 ∧ (m.epochList e).isSome ∧ IsLatest m.epochRecords dependEpochNo e) ∨
    IsLatest m.epochRecords dependEpochNo 0 ∧ (m.epochRecords 0).isSome

/-- The list holds records that are stored. -/
def Cached (m : DbftManager) : Prop := ∀ e epoch, m.epochList e = some epoch →
    m.epochRecords e = some epoch

/-- The loop ends at the latest epoch in the list, or at epoch 0. -/
theorem lastListed_spec (list : UInt64 → Option Epoch) (index : Nat) (hsm : index < 2 ^ 64) :
    (lastListed list index).toNat ≤ index ∧
    ((list (lastListed list index)).isSome ∨ lastListed list index = 0) ∧
      ∀ e : UInt64, e.toNat ≤ index → (list e).isSome → e ≤ lastListed list index := by
  induction index with
  | zero =>
    refine ⟨le_rfl, .inr rfl, fun e hb _ => ?_⟩
    exact UInt64.le_iff_toNat_le.mpr hb
  | succ index ih =>
    obtain ⟨hb, hl, hla⟩ := ih (by omega)
    have number : (UInt64.ofNat (index + 1)).toNat = index + 1 := UInt64.toNat_ofNat_of_lt' hsm
    unfold lastListed
    split
    next found =>
      refine ⟨number.le, .inl found, fun e hw _ => ?_⟩
      rw [UInt64.le_iff_toNat_le, number]
      exact hw
    next absent =>
      refine ⟨hb.trans (Nat.le_succ _), hl, fun e hw hp => hla e ?_ hp⟩
      have other : e.toNat ≠ index + 1 := by
        intro same
        rw [← same, UInt64.ofNat_toNat] at absent
        exact absent hp
      omega

section

variable {m : DbftManager} {dependEpochNo : UInt64}

/-- `GetEpoch` reads the record in either place. -/
theorem getEpoch_eq (hc : Cached m) (e : UInt64) : (m.getEpoch e).1 = m.epochRecords e := by
  unfold DbftManager.getEpoch
  cases listed : m.epochList e with
  | some epoch => exact (hc e epoch listed).symm
  | none =>
    cases stored : m.epochRecords e with
    | none => rfl
    | some epoch => rfl

theorem getLastWitnesses_eq (hc : Cached m) : (m.getLastWitnesses dependEpochNo).1 =
      (m.epochRecords (lastListed m.epochList (dependEpochNo.toNat - 1))).map
        fun epoch => ((epoch.witnessList, epoch.accum),
          lastListed m.epochList (dependEpochNo.toNat - 1)) := by
  have looked := getEpoch_eq hc (lastListed m.epochList (dependEpochNo.toNat - 1))
  unfold DbftManager.getLastWitnesses
  dsimp only
  rw [← looked]
  generalize m.getEpoch _ = result
  rcases result with ⟨_ | _, _⟩ <;> rfl

theorem IsLatest.unique {records : UInt64 → Option Epoch} {e e' : UInt64}
    (h1 : IsLatest records dependEpochNo e)
    (h2 : IsLatest records dependEpochNo e') : e = e' := by
  have below {a b : UInt64} (latestA : IsLatest records dependEpochNo a)
    (latestB : IsLatest records dependEpochNo b) :
      a ≤ b := by
    rcases latestA.1 with ⟨hr, hw⟩ | rfl
    · exact latestB.2 a hw hr
    · exact UInt64.zero_le
  exact UInt64.le_antisymm (below h1 h2) (below h2 h1)

/-- The loop finds the latest recorded epoch if it is in the list. -/
theorem lastListed_eq (hc : Cached m) {e : UInt64}
    (hla : IsLatest m.epochRecords dependEpochNo e) (held : (m.epochList e).isSome ∨ e = 0) :
    lastListed m.epochList (dependEpochNo.toNat - 1) = e := by
  obtain ⟨hb, hl, last⟩ :=
    lastListed_spec m.epochList (dependEpochNo.toNat - 1) (by have := dependEpochNo.toNat_lt; omega)
  refine UInt64.le_antisymm ?_ ?_
  · rcases hl with hp | zero
    · obtain ⟨epoch, hs⟩ := Option.isSome_iff_exists.mp hp
      by_cases zero : lastListed m.epochList (dependEpochNo.toNat - 1) = 0
      · rw [zero]
        exact UInt64.zero_le
      · refine hla.2 _ ?_ (by rw [hc _ _ hs]; rfl)
        have hpo : (lastListed m.epochList (dependEpochNo.toNat - 1)).toNat ≠ 0 :=
          fun same => zero (UInt64.toNat_inj.mp same)
        rw [UInt64.lt_iff_toNat_lt]
        omega
    · rw [zero]
      exact UInt64.zero_le
  · by_cases zero : e = 0
    · rw [zero]
      exact UInt64.zero_le
    · obtain ⟨_, hw⟩ := hla.1.resolve_right zero
      rw [UInt64.lt_iff_toNat_lt] at hw
      exact last e (by omega) (held.resolve_right zero)

end

/-- Whatever is recorded, and whatever part of it is in the list, the witnesses are those of the
latest epoch exactly if that one is in the list, or if there is only epoch 0. -/
theorem getLastWitnesses_fromLatest (m : DbftManager) (dependEpochNo : UInt64) (hc : Cached m) :
    FromLatest m dependEpochNo ↔ Held m dependEpochNo := by
  constructor
  · rintro ⟨e, epoch, hla, hr, hre⟩
    rw [getLastWitnesses_eq hc] at hre
    obtain ⟨_, _, same⟩ := Option.map_eq_some_iff.mp hre
    have hf : lastListed m.epochList (dependEpochNo.toNat - 1) = e := congrArg Prod.snd same
    by_cases zero : e = 0
    · subst zero
      exact .inr ⟨hla, by rw [hr]; rfl⟩
    · obtain ⟨_, hl, _⟩ :=
        lastListed_spec m.epochList (dependEpochNo.toNat - 1)
        (by have := dependEpochNo.toNat_lt; omega)
      rw [hf] at hl
      exact .inl ⟨e, zero, hl.resolve_right zero, hla⟩
  · rintro (⟨e, _, hl, hla⟩ | ⟨hla, hr⟩)
    · obtain ⟨epoch, hp⟩ := Option.isSome_iff_exists.mp hl
      have hs := hc e epoch hp
      refine ⟨e, epoch, hla, hs, ?_⟩
      rw [getLastWitnesses_eq hc, lastListed_eq hc hla (.inl hl), hs]
      rfl
    · obtain ⟨epoch, hs⟩ := Option.isSome_iff_exists.mp hr
      refine ⟨0, epoch, hla, hs, ?_⟩
      rw [getLastWitnesses_eq hc, lastListed_eq hc hla (.inr rfl), hs]
      rfl

/-! ## Two nodes with the same records -/

/-- Records of the epochs 0, 1 and 2; the witnesses of epoch 2 are others. -/
def stored : UInt64 → Option Epoch :=
  fun epochNo =>
    if epochNo = 0 ∨ epochNo = 1 then some (firstEpoch epochNo)
    else if epochNo = 2 then some { firstEpoch 2 with witnessList := [⟨[5], [5], 1⟩] }
    else none

/-- A node that has gone through epoch 2, and one that has just been started. -/
def lasting : DbftManager :=
  { starting with
    epochRecords := stored
    epochList := fun e => if e = 2 then stored 2 else none }

def restarted : DbftManager := { starting with epochRecords := stored, epochList := fun _ => none }

theorem stored_latest : IsLatest stored 3 2 := by
  refine ⟨.inl ⟨rfl, by decide⟩, fun later hb _ => ?_⟩
  rw [UInt64.lt_iff_toNat_lt] at hb
  rw [UInt64.le_iff_toNat_le]
  exact Nat.lt_succ_iff.mp hb

theorem lasting_fromLatest : Cached lasting ∧ FromLatest lasting 3 := by
  have hc : Cached lasting := by
    intro e epoch hl
    have two : e = 2 := by
      by_contra other
      change (if e = 2 then stored 2 else none) = some epoch at hl
      rw [if_neg other] at hl
      cases hl
    subst two
    exact hl
  exact ⟨hc, (getLastWitnesses_fromLatest lasting 3 hc).mpr
    (.inl ⟨2, by decide, rfl, stored_latest⟩)⟩

theorem restarted_differs : restarted.epochRecords = lasting.epochRecords ∧ Cached restarted ∧
    (restarted.getLastWitnesses 3).1.map (fun found => (found.1.1, found.2)) =
    some (fourMembers, 0) ∧ (lasting.getLastWitnesses 3).1.map (fun found => (found.1.1, found.2)) =
    some ([⟨[5], [5], 1⟩], 2) ∧ ¬ FromLatest restarted 3 := by
  have hc : Cached restarted := by
    intro _ _ hl
    cases hl
  refine ⟨rfl, hc, by rfl, by rfl, ?_⟩
  rintro ⟨e, epoch, hla, _, hre⟩
  have two := hla.unique stored_latest
  subst two
  cases congrArg (Option.map Prod.snd) hre

end HNBChain.Audit.Guarantees.LastWitnesses
