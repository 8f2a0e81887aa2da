import HNBChain.Audit.Guarantees.EpochQuorum

/-!
# An announced epoch and the node's own

`checkNewEpochMatch` compares the numbers and the lengths of the two lists of witnesses, and looks
up each witness of the message among the node's own by its hash. The message may name one of them
several times in the place of others; and the hash is of the address and the power only, so that the
key and the priority of a witness are taken over unseen.
-/
namespace HNBChain.Audit.Guarantees.EpochMatch

open Lib Source Source.Dbft DbftManager List
open Source.Algorand (Validator)
open EpochQuorum

/-- Witnesses with their priorities, as the validators of the source have them inside. -/
def ranked (witnesses : List Validator) (accum : Bytes → Int) : List (Validator × Int) :=
  witnesses.map fun witness => (witness, accum witness.address)

/-- The numbers agree, and the list of the message is the own one in some order. -/
structure SameEpoch (net : NewEpoch) (witnesses : List (Option Validator))
    (own : Epoch) : Prop where
  beginNum : net.beginNum = own.beginNum
  endNum : net.endNum = own.endNum
  dependEpochNo : net.dependEpochNo = own.dependEpochNo
  witnesses : (ranked witnesses.reduceOption net.accum).Perm (ranked own.witnessList own.accum)

/-- No witness is named twice, and one that has the address and the power of an own one is an own
one, with its key and its priority. -/
structure Sincere (net : NewEpoch) (witnesses : List (Option Validator)) (own : Epoch) : Prop where
  distinct : witnesses.reduceOption.Nodup
  genuine : ∀ witness ∈ witnesses.reduceOption, ∀ other ∈ own.witnessList,
    witness.address = other.address → witness.votingPower = other.votingPower →
      (witness, net.accum witness.address) ∈ ranked own.witnessList own.accum

/-- Different arguments, different hashes. -/
def CollisionFree (env : Env) : Prop :=
  ∀ a p a' p', env.validatorHash a p = env.validatorHash a' p' → a = a' ∧ p = p'

section

variable {env : Env} {net : NewEpoch} {witnesses : List (Option Validator)} {own : Epoch}

variable {list : List Validator}

/-- Every witness is there, and has the hash of an own one. -/
theorem checkWitnesses_true (ha : checkWitnesses env list witnesses = .ok true) :
    witnesses.reduceOption.length = witnesses.length ∧ ∀ witness ∈ witnesses.reduceOption,
    ∃ other ∈ list, env.validatorHash witness.address witness.votingPower =
        env.validatorHash other.address other.votingPower := by
  induction witnesses with
  | nil => exact ⟨rfl, fun _ hm => absurd hm not_mem_nil⟩
  | cons first witnesses ih =>
    cases first with
    | none => cases ha
    | some netWitness =>
      unfold checkWitnesses at ha
      split at ha
      next found =>
        obtain ⟨length, rest⟩ := ih ha
        have head : (some netWitness :: witnesses).reduceOption = netWitness ::
          witnesses.reduceOption := rfl
        rw [head]
        refine ⟨congrArg Nat.succ length, fun witness hm => ?_⟩
        rcases mem_cons.mp hm with rfl | hl
        · obtain ⟨other, inOwn, same⟩ := any_eq_true.mp found
          exact ⟨other, inOwn, of_decide_eq_true same⟩
        · exact rest witness hl
      · cases ha

theorem checkEpochs_true (ha : checkEpochs env net witnesses own = .ok true) :
    net.beginNum = own.beginNum ∧ net.endNum = own.endNum ∧ net.dependEpochNo = own.dependEpochNo ∧
      witnesses.length = own.witnessList.length ∧
      checkWitnesses env own.witnessList witnesses = .ok true := by
  unfold checkEpochs at ha
  split at ha
  · cases ha
  next agree =>
    simp only [not_or, not_not] at agree
    obtain ⟨beginNum, endNum, dependEpochNo, length⟩ := agree
    exact ⟨beginNum, endNum, dependEpochNo, length, ha⟩

theorem ranked_nodup (accum : Bytes → Int) (hd : list.Nodup) : (ranked list accum).Nodup :=
  hd.map fun _ _ same => congrArg Prod.fst same

theorem nodup_of_ranked {accum : Bytes → Int} (hd : (ranked list accum).Nodup) : list.Nodup :=
    hd.of_map

end

/-- An epoch that is accepted is the node's own exactly if the message is sincere. -/
theorem accepted_sameEpoch (env : Env) (net : NewEpoch)
    (witnesses : List (Option Validator)) (own : Epoch)
    (hco : CollisionFree env) (hd : own.witnessList.Nodup)
    (ha : checkEpochs env net witnesses own = .ok true) :
    SameEpoch net witnesses own ↔ Sincere net witnesses own := by
  obtain ⟨beginNum, endNum, dependEpochNo, length, hc⟩ := checkEpochs_true ha
  obtain ⟨hp, hashes⟩ := checkWitnesses_true hc
  constructor
  · intro same
    have nodup := same.witnesses.nodup_iff.mpr (ranked_nodup own.accum hd)
    refine ⟨nodup_of_ranked nodup, fun witness hm _ _ _ _ => ?_⟩
    exact same.witnesses.subset (mem_map_of_mem hm)
  · intro sincere
    refine ⟨beginNum, endNum, dependEpochNo, ?_⟩
    -- an own one each, all different, and as many as there are
    have hi : ranked witnesses.reduceOption net.accum ⊆ ranked own.witnessList own.accum := by
      intro entry hm
      obtain ⟨witness, hn, rfl⟩ := mem_map.mp hm
      obtain ⟨other, inOwn, hash⟩ := hashes witness hn
      obtain ⟨address, power⟩ := hco _ _ _ _ hash
      exact sincere.genuine witness hn other inOwn address power
    have subperm := subperm_of_subset (ranked_nodup net.accum sincere.distinct) hi
    refine subperm.perm_of_length_le ?_
    unfold ranked
    rw [length_map, length_map, hp, length]

/-! ## The first witness twice -/

/-- The power stands in front, as a number of zeros. -/
def exactHash (address : Bytes) (votingPower : Int) : Bytes :=
  replicate (Equiv.intEquivNat votingPower) 0 ++ 1 :: address

theorem exactHash_injective {n n' : Nat} {a a' : Bytes}
    (same : replicate n (0 : UInt8) ++ 1 :: a = replicate n' 0 ++ 1 :: a') : n = n' ∧ a = a' := by
  induction n generalizing n' with
  | zero =>
    cases n' with
    | zero => exact ⟨rfl, tail_eq_of_cons_eq same⟩
    | succ n' => exact absurd (head_eq_of_cons_eq same) (by decide)
  | succ n ih =>
    cases n' with
    | zero => exact absurd (head_eq_of_cons_eq same) (by decide)
    | succ n' =>
      obtain ⟨rfl, rfl⟩ := ih (tail_eq_of_cons_eq same)
      exact ⟨rfl, rfl⟩

def unambiguous : Env := { third with validatorHash := exactHash }

theorem unambiguous_collisionFree : CollisionFree unambiguous := by
  intro a p a' p' same
  obtain ⟨power, address⟩ := exactHash_injective same
  exact ⟨address, Equiv.intEquivNat.injective power⟩

/-- An announcement of epoch 2 with these witnesses, at height 1. -/
def announcement (witnesses : List (Option Validator)) : NewEpoch :=
  ⟨2, 0, [3], some witnesses, fun _ => 0, 1, 1⟩

def ownEpoch : Epoch := ⟨⟨0, 0, 1, 1⟩, fourMembers, fun _ => 0⟩

theorem reversed_sameEpoch : checkEpochs unambiguous (announcement (fourMembers.reverse.map some))
    (fourMembers.reverse.map some) ownEpoch =
      .ok true ∧ SameEpoch (announcement (fourMembers.reverse.map some))
        (fourMembers.reverse.map some) ownEpoch := by
  have ha : checkEpochs unambiguous (announcement (fourMembers.reverse.map some))
      (fourMembers.reverse.map some) ownEpoch = .ok true := rfl
  refine ⟨ha, (accepted_sameEpoch unambiguous _ _ ownEpoch unambiguous_collisionFree
    (by decide) ha).mpr ⟨by decide, ?_⟩⟩
  decide

/-- The first of four witnesses, four times. -/
def repeated : List (Option Validator) := replicate 4 (some ⟨[1], [1], 1⟩)

theorem repeatedWitness_accepted : CollisionFree unambiguous ∧ ownEpoch.witnessList.Nodup ∧
    checkEpochs unambiguous (announcement repeated) repeated ownEpoch = .ok true ∧
    ¬ repeated.reduceOption.Perm ownEpoch.witnessList ∧
    ¬ SameEpoch (announcement repeated) repeated ownEpoch := by
  have other : ¬ repeated.reduceOption.Perm ownEpoch.witnessList := by decide
  refine ⟨unambiguous_collisionFree, by decide, rfl, other, fun same => ?_⟩
  have hme := same.witnesses.map Prod.fst
  unfold ranked at hme
  rw [map_map, map_map] at hme
  exact absurd hme (by decide)

end HNBChain.Audit.Guarantees.EpochMatch
