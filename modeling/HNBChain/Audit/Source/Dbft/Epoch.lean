import HNBChain.Audit.Source.Payload
import HNBChain.Audit.Source.Algorand.Block

/-!
# Epochs and their witnesses

The records of a DPoS epoch, the sets of validators that carry them from block to block, and the
choice of the witnesses of the next epoch. The `Extend` of a validator set is the JSON text of an
epoch record; here it stands decoded beside the set (`EpochSet`).

The witnesses of an epoch are pointers to validators with a priority in each; here the priorities
stand beside the list. Whether a slice is nil or empty is not told apart.
-/
namespace HNBChain.Audit.Source.Dbft

open Lib Algorand

structure EpochInfo where
  epochNo : UInt64
  dependEpochNo : UInt64
  beginNum : UInt64
  endNum : UInt64
  deriving DecidableEq

structure Epoch extends EpochInfo where
  witnessList : List Validator
  accum : Bytes → Int

def Epoch.isBlksToTarget (eb : Epoch) (targetCount : UInt64) : Bool :=
  decide (eb.beginNum ≤ eb.endNum ∧ targetCount ≤ eb.endNum - eb.beginNum)

/-- A validator set with the epoch record in its `Extend`; none is a text without one. -/
structure EpochSet where
  set : ValidatorSet
  info : Option EpochInfo

/-- The priorities of a set that is made anew are those its validators bring. None is the panic of
`IncrementAccum` on no validators. -/
def newValidatorSet (vals : List Validator) (accum : Bytes → Int) (bgID : UInt64)
    (info : EpochInfo) : Option EpochSet :=
  let validators := vals.insertionSort fun v other => keyLe v.address other.address
  (ValidatorSet.incrementAccum 1 ⟨validators, none, accum, bgID.toNat, []⟩).map fun set =>
    ⟨set, some info⟩

theorem newValidatorSet_some {vals : List Validator} (ho : vals ≠ []) (accum : Bytes → Int)
    (bgID : UInt64)
    (info : EpochInfo) : ∃ set, newValidatorSet vals accum bgID info = some set := by
  have kept : (vals.insertionSort fun v other => keyLe v.address other.address) ≠ [] := by
    intro he
    have length := List.length_insertionSort
      (fun v other : Validator => keyLe v.address other.address) vals
    rw [he] at length
    exact ho (List.length_eq_zero_iff.mp length.symm)
  obtain ⟨set, made, _⟩ := incrementAccum_one
    ⟨vals.insertionSort fun v other => keyLe v.address other.address, none, accum,
      bgID.toNat, []⟩ kept
  exact ⟨⟨set, some info⟩, by rw [newValidatorSet, made]; rfl⟩

/-- The validators of the configuration, for the first epoch; the last of them is taken for the
proposer. -/
def loadGeneValidators (validators : List Validator) : Option EpochSet :=
  (newValidatorSet validators (fun _ => 0) 1 ⟨1, 0, 1, 1⟩).map fun vset =>
    { vset with set := { vset.set with proposer := validators.getLast? } }

/-! ## Shuffling -/

/-- The place that the generator gives place `i` of `n`. -/
def shufflePlace (seed : UInt64) (n i : Nat) : Nat :=
  let k := seed + UInt64.ofNat i * 2685821657736338717
  let k := k ^^^ (k >>> 12)
  let k := k ^^^ (k <<< 25)
  let k := k ^^^ (k >>> 27)
  let k := k * 2685821657736338717
  i + k.toNat % (n - i)

def swap {α : Type} (l : List α) (i j : Nat) : List α :=
  match l[i]?, l[j]? with
  | some a, some b => (l.set i b).set j a
  | _, _ => l

def witnessShuffle (seed : UInt64) (sList : List Validator) : List Validator :=
  (List.range sList.length).foldl (fun dList i =>
    swap dList i (shufflePlace seed dList.length i)) sList

/-! ## Selection -/

/-- The loop over the candidates in the order of their votes: the indexes of those that are
validators. -/
def pickByToken (validators : List Validator) (bftNumber : Nat) : List Bytes → List Nat → List Nat
  | [], chosen => chosen
  | key :: rest, chosen =>
    if chosen.length = bftNumber then chosen
    else
      match validators.findIdx? fun val => decide (val.pubKeyStr = key) with
      | none => pickByToken validators bftNumber rest chosen
      | some index => pickByToken validators bftNumber rest (chosen ++ [index])

/-- The loop that fills up with the other validators, all of them in each pass. It ends only if the
number is met exactly; it is met in at most as many passes as it says, so that none is a loop
without end. -/
def fillUp (others : List Validator) (bftNumber : Nat) : (passes : Nat) → List Validator →
    Option (List Validator)
  | passes, witnessList =>
    if witnessList.length = bftNumber then some witnessList
    else
      match passes with
      | 0 => none
      | passes + 1 => fillUp others bftNumber passes (witnessList ++ others)

def witnessesByToken (validators : List Validator) (bftNumber : Nat) (tokenOrder : List Bytes) :
    Option (List Validator) :=
  let chosen := pickByToken validators bftNumber tokenOrder []
  let others := (validators.zipIdx.filter fun entry => entry.2 ∉ chosen).map Prod.fst
  fillUp others bftNumber bftNumber (chosen.filterMap fun index => validators[index]?)

/-- The loop of `getLastWitnesses`: the latest epoch up to the index that is in the cache. -/
def lastListed (list : UInt64 → Option Epoch) : (index : Nat) → UInt64
  | 0 => 0
  | index + 1 =>
    if (list (UInt64.ofNat (index + 1))).isSome then UInt64.ofNat (index + 1)
      else lastListed list index

/-! ## Unfreezing -/

/-- `UnfreezeToken`: the call runs above the stored state, outside of any block, and what it has
changed is stored if it returns no error. -/
def unfreezeToken (order : MapOrder) (w : World) (epochNo : UInt64) : Except Err Unit × World :=
  let h := { getContractApi .hnb with args := encodeAction (.unfreeze epochNo) }
  match runOn (Memory.overlay w) (invoke h) ∅ with
  | (.error e, _) => (.error e, w)
  | (.ok (), pending) => (.ok (), commit (order.items .hnb pending) w)

end HNBChain.Audit.Source.Dbft
