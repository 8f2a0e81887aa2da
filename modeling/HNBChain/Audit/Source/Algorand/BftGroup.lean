import HNBChain.Audit.Source.Algorand.Block

/-!
# Changing the BFT group

`HandleBgDemand` and what it calls: the selection of a group out of the candidates of a demand, the
comparison with the group the demand asks for, and the change of the group of the manager. The
ledger, the curve, SHA-512 and the message handler answer through `BgEnv` and `BgAnswers`.

A nil slice and an empty one are not told apart; a nil entry of a slice is `none`. What the change
of the group does to the message handler, its validators and its votes, is left out.
-/
namespace HNBChain.Audit.Source.Algorand

open Lib

structure BftGroupSwitchAdvice where
  digestAddr : Bytes
  bftGroupNum : UInt64
  height : UInt64
  hash : Bytes
  deriving DecidableEq

structure BftGroupSwitchDemand where
  digestAddr : Bytes
  bftGroupNum : UInt64
  bftGroupCandidates : List (Option BftGroupSwitchAdvice)
  newBftGroup : List (Option BftGroupSwitchAdvice)
  vrfValue : Bytes
  vrfProof : Bytes
  deriving DecidableEq

structure BftGroup where
  bgID : UInt64
  vrfValue : Bytes
  vrfProof : Bytes
  validators : List Validator
  deriving DecidableEq

structure BftMgr where
  totalValidators : ValidatorSet
  bftNumber : UInt8
  id : UInt64
  candidateID : UInt64
  curBftGroup : BftGroup
  bgCandidate : UInt64 → List BftGroupSwitchAdvice
  bgAdvice : UInt64 → List BftGroupSwitchAdvice
  bgDemand : UInt64 → Option BftGroupSwitchDemand

structure VRFBgData where
  bgNum : UInt64
  blockNum : UInt64
  prevVrf : Bytes

/-- The numbers and addresses are those the messages of the source print. -/
inductive BgErr where
  | json
  | noValidators
  | proposer (expected named : Bytes)
  | stale (candidateID bgNum : UInt64)
  | fewAdvices (bgNum : UInt64) (received third : Nat)
  | fewCandidates (candidates newBg : Nat)
  | groupSize (newBg : Nat) (bftNumber : UInt8)
  | heights (bgNum first other : UInt64) (firstAddr otherAddr : Bytes)
  | tooFewToSelect
  | groupsDiffer
  | notFound (bgNum : UInt64) (proposer : Bytes)
  | verify (bgNum : UInt64)
  | verifyFail (bgNum : UInt64)
  | noMember (bgNum : UInt64) (addr : Bytes)
  | ledger
  | reset
  | loadValidators
  | start
  | panic
  deriving DecidableEq

structure BgEnv where
  sha512 : Bytes → Bytes
  /-- None when the key or the proof is not one the curve can read. -/
  verifyVRF4bg : (pubKeyStr : Bytes) → VRFBgData → (vrfValue vrfProof : Bytes) → Option Bool

/-- What the ledger and the message handler answer while a demand is handled; none is their
error. -/
structure BgAnswers where
  blockHeight : Option UInt64
  currentVRF : Option Bytes
  reset : Option Unit
  totalValidators : Option ValidatorSet
  start : Option Unit

/-- The index into the candidates that the bits from `index` on give; none is an index outside the
hash. -/
def calcParticipant (env : BgEnv) (vrf : Bytes) (candidNum index : Nat) : Option Nat :=
  let hash := env.sha512 vrf
  let bIdx := index / 8
  let bits1 := index % 8
  hash[bIdx]?.map fun byte =>
    let v1 := byte.toNat >>> bits1
    let next := (hash[bIdx + 1]?.getD (hash.headD 0)).toNat
    let v2 := next &&& ((1 <<< (8 + bits1)) - 1)
    ((v2 <<< (8 - bits1)) + v1) % candidNum

/-- The loop of `CalcBFTGroupMembersByVRF`: the indexes chosen so far, and those that are still
wanted. No bit lies past the end of the hash, so that a fuel of one more than its bits is never used
up. -/
def chooseMembers (env : BgEnv) (vrf : Bytes) (candidNum groupSize : Nat) :
    (fuel i : Nat) → (chosen : List Nat) → Option (List Nat)
  | 0, _, _ => none
  | fuel + 1, i, chosen =>
    if chosen.length < groupSize then
      (calcParticipant env vrf candidNum i).bind fun nodeID =>
        chooseMembers env vrf candidNum groupSize fuel (i + 1)
          (if nodeID ∈ chosen then chosen else chosen ++ [nodeID])
    else some chosen

def calcBFTGroupMembersByVRF (env : BgEnv) (vrf : Bytes)
    (candidates : List (Option BftGroupSwitchAdvice)) (groupSize : Nat) :
    Except BgErr (List (Option BftGroupSwitchAdvice)) :=
  if candidates.length ≤ groupSize then throw .tooFewToSelect
  else
    match chooseMembers env vrf candidates.length groupSize
        (8 * (env.sha512 vrf).length + 1) 0 [] with
    | none => throw .panic
    | some chosen => pure (chosen.map fun nodeID => candidates.getD nodeID none)

def adviceEqual (advice1 advice2 : BftGroupSwitchAdvice) : Bool :=
  decide (advice1.bftGroupNum = advice2.bftGroupNum) && decide
    (advice1.digestAddr = advice2.digestAddr) &&
    decide (advice1.height = advice2.height) && decide (advice1.hash = advice2.hash)

/-- The walk over two groups of one length, up to the first entries that differ. -/
def advicesEqual : (newBg1 newBg2 : List (Option BftGroupSwitchAdvice)) → Except BgErr Bool
  | [], _ => pure true
  | _, [] => pure true
  | advice1 :: rest1, advice2 :: rest2 =>
    match advice1, advice2 with
    | some advice1, some advice2 =>
      if adviceEqual advice1 advice2 then advicesEqual rest1 rest2 else pure false
    | _, _ => throw .panic

def newBgEqualBCE (newBg1 newBg2 : List (Option BftGroupSwitchAdvice)) : Except BgErr Bool :=
  if newBg1.length = newBg2.length then advicesEqual newBg1 newBg2 else pure false

/-- An answer that may be an error. -/
def answered {α : Type} (e : BgErr) (answer : Option α) : Except BgErr α :=
  match answer with
  | some a => pure a
  | none => throw e

namespace BftMgr

variable (env : BgEnv) (ans : BgAnswers) (mgr : BftMgr)

/-- The validators are sorted by address, and only the address of one is read. -/
def getNewBgProposerAddr (bgNum : UInt64) : Except BgErr Bytes :=
  let sorted := (mgr.totalValidators.validators.map Validator.address).insertionSort keyLe
  if sorted.length = 0 then throw .noValidators
  else pure (sorted.getD (bgNum.toNat % sorted.length) [])

def bgSelectByVRF (bgCandidateSlice : List (Option BftGroupSwitchAdvice)) :
    Except BgErr (List (Option BftGroupSwitchAdvice)) := do
  let currentVRF ← answered .ledger ans.currentVRF
  calcBFTGroupMembersByVRF env currentVRF bgCandidateSlice mgr.bftNumber.toNat

/-- The heights are read before anything else looks for an entry that is missing. -/
def checkHeights (bgNum : UInt64) (first : BftGroupSwitchAdvice) :
    List (Option BftGroupSwitchAdvice) → Except BgErr Unit
  | [] => pure ()
  | none :: _ => throw .panic
  | some other :: rest =>
    if first.height ≠ other.height then
      throw (.heights bgNum first.height other.height first.digestAddr other.digestAddr)
    else checkHeights bgNum first rest

/-- As many candidates as the group needs are the group, whoever they are. -/
def makeNewBgFromBgCandidateSlice (bgNum : UInt64)
    (bgCandidateSlice : List (Option BftGroupSwitchAdvice)) :
    Except BgErr (List (Option BftGroupSwitchAdvice)) :=
  if bgCandidateSlice.length = mgr.bftNumber.toNat then pure bgCandidateSlice
  else
    match bgCandidateSlice with
    | some first :: rest => do
      checkHeights bgNum first rest
      mgr.bgSelectByVRF env ans bgCandidateSlice
    | _ => throw .panic

def getValidatorByAddr (addr : Bytes) : Option Validator :=
  mgr.totalValidators.validators.find? fun val => decide (val.address = addr)

/-- The loop of `MakeNewBgFromBgAdvice`; it is reached with as many advices as the group has
members. -/
def findMembers (bgNum : UInt64) : List (Option BftGroupSwitchAdvice) →
    Except BgErr (List Validator)
  | [] => pure []
  | none :: _ => throw .panic
  | some advice :: rest => do
    let validator ← answered (.noMember bgNum advice.digestAddr)
      (mgr.getValidatorByAddr advice.digestAddr)
    let others ← findMembers bgNum rest
    pure (validator :: others)

def makeNewBgFromBgAdvice (demand : BftGroupSwitchDemand) : Except BgErr BftGroup := do
  let validators ← mgr.findMembers demand.bftGroupNum demand.newBftGroup
  pure ⟨demand.bftGroupNum, demand.vrfValue, demand.vrfProof, validators⟩

/-- The checks of `HandleBgDemand`, up to the group it installs. -/
def demandedGroup (demand : BftGroupSwitchDemand) : Except BgErr BftGroup := do
  let bgNum := demand.bftGroupNum
  let third := mgr.totalValidators.validators.length / 3
  let bgProposerAddr ← mgr.getNewBgProposerAddr bgNum
  if bgProposerAddr ≠ demand.digestAddr then
    throw (.proposer bgProposerAddr demand.digestAddr)
  if bgNum < mgr.curBftGroup.bgID then
    throw (.stale mgr.candidateID bgNum)
  if (mgr.bgAdvice bgNum).length ≤ third then
    throw (.fewAdvices bgNum (mgr.bgAdvice bgNum).length third)
  if demand.bftGroupCandidates.length < demand.newBftGroup.length then
    throw (.fewCandidates demand.bftGroupCandidates.length demand.newBftGroup.length)
  if demand.newBftGroup.length ≠ mgr.bftNumber.toNat then
    throw (.groupSize demand.newBftGroup.length mgr.bftNumber)
  let newBg ← mgr.makeNewBgFromBgCandidateSlice env ans bgNum demand.bftGroupCandidates
  let equal ← newBgEqualBCE newBg demand.newBftGroup
  if equal = false then
    throw .groupsDiffer
  let height ← answered .ledger ans.blockHeight
  let currentVRF ← answered .ledger ans.currentVRF
  let val ← answered (.notFound bgNum demand.digestAddr)
    (mgr.totalValidators.getByAddress demand.digestAddr).2
  let verified ← answered (.verify bgNum)
    (env.verifyVRF4bg val.pubKeyStr ⟨bgNum, height - 1, currentVRF⟩ demand.vrfValue demand.vrfProof)
  if verified = false then
    throw (.verifyFail bgNum)
  mgr.makeNewBgFromBgAdvice demand

/-- The group is installed before the validators are loaded and the handler is started again: an
error of these comes too late. -/
def resetBftGroup (newBg : BftGroup) : Except BgErr Unit × BftMgr :=
  if ans.reset.isNone then (.error .reset, mgr)
  else
    let mgr := { mgr with curBftGroup := newBg, id := newBg.bgID }
    match ans.totalValidators with
    | none => (.error .loadValidators, mgr)
    | some totalVals =>
      let mgr := { mgr with totalValidators := totalVals }
      if ans.start.isNone then (.error .start, mgr)
      else
        (.ok (),
          { mgr with
            candidateID := newBg.bgID + 1
            bgAdvice := Function.update mgr.bgAdvice (newBg.bgID - 1) []
            bgDemand := Function.update mgr.bgDemand (newBg.bgID - 1) none
            bgCandidate := Function.update mgr.bgCandidate (newBg.bgID - 1) [] })

/-- A payload that is no demand is `none`. -/
def handleBgDemand (payload : Option BftGroupSwitchDemand) :
    Except BgErr BftGroupSwitchDemand × BftMgr :=
  match payload with
  | none => (.error .json, mgr)
  | some demand =>
    match mgr.demandedGroup env ans demand with
    | .error e => (.error e, mgr)
    | .ok newBg =>
      match mgr.resetBftGroup ans newBg with
      | (.error e, mgr) => (.error e, mgr)
      | (.ok (), mgr) => (.ok demand, mgr)

end BftMgr

/-! ### What is accepted -/

theorem answered_ok {α : Type} {e : BgErr} {answer : Option α} {a : α}
    (done : answered e answer = .ok a) : answer = some a := by
  cases answer with
  | none => cases done
  | some b => cases done; rfl

/-- Where the advices point; a missing one points nowhere. -/
def addresses (advices : List (Option BftGroupSwitchAdvice)) : List (Option Bytes) :=
  advices.map (Option.map BftGroupSwitchAdvice.digestAddr)

namespace BftMgr

variable {env : BgEnv} {ans : BgAnswers} {mgr : BftMgr}

/-- What `demandedGroup` has checked of the members when it returns a group: the demand asks for as
many as there have to be, and for those its candidates give. -/
theorem demandedGroup_ok {demand : BftGroupSwitchDemand} {newBg : BftGroup}
    (made : mgr.demandedGroup env ans demand = .ok newBg) :
    demand.newBftGroup.length = mgr.bftNumber.toNat ∧
      (∃ selected, mgr.makeNewBgFromBgCandidateSlice env ans demand.bftGroupNum
          demand.bftGroupCandidates = .ok selected ∧
          newBgEqualBCE selected demand.newBftGroup = .ok true) ∧
      mgr.makeNewBgFromBgAdvice demand = .ok newBg := by
  obtain ⟨_, _, made⟩ := bind_ok made
  obtain ⟨_, made⟩ := checked_ok made
  obtain ⟨_, made⟩ := checked_ok made
  obtain ⟨_, made⟩ := checked_ok made
  obtain ⟨_, made⟩ := checked_ok made
  obtain ⟨size, made⟩ := checked_ok made
  obtain ⟨selected, selection, made⟩ := bind_ok made
  obtain ⟨equal, compared, made⟩ := bind_ok made
  obtain ⟨same, made⟩ := checked_ok made
  obtain ⟨_, _, made⟩ := bind_ok made
  obtain ⟨_, _, made⟩ := bind_ok made
  obtain ⟨_, _, made⟩ := bind_ok made
  obtain ⟨_, _, made⟩ := bind_ok made
  obtain ⟨_, made⟩ := checked_ok made
  rw [Bool.not_eq_false] at same
  exact ⟨not_ne_iff.mp size, ⟨selected, selection, same ▸ compared⟩, made⟩

theorem getValidatorByAddr_some {addr : Bytes} {val : Validator}
    (hf : mgr.getValidatorByAddr addr = some val) :
    val ∈ mgr.totalValidators.validators ∧ val.address = addr := by
  have hn := List.find?_some hf
  exact ⟨List.mem_of_find?_eq_some hf, of_decide_eq_true hn⟩

/-- The members are the validators at the addresses of the advices, one for each. -/
theorem findMembers_ok {bgNum : UInt64} {advices : List (Option BftGroupSwitchAdvice)}
    {validators : List Validator} (done : mgr.findMembers bgNum advices = .ok validators) :
    (∀ val ∈ validators, val ∈ mgr.totalValidators.validators) ∧
      addresses advices = validators.map fun val => some val.address := by
  induction advices generalizing validators with
  | nil =>
    cases done
    exact ⟨by simp, rfl⟩
  | cons advice rest ih =>
    cases advice with
    | none => cases done
    | some advice =>
      obtain ⟨val, answer, done⟩ := bind_ok done
      obtain ⟨others, hf, done⟩ := bind_ok done
      cases done
      obtain ⟨hm, hn⟩ := getValidatorByAddr_some (answered_ok answer)
      obtain ⟨hme, addrs⟩ := ih hf
      refine ⟨?_, ?_⟩
      · intro val' hl
        rcases List.mem_cons.mp hl with rfl | hla
        · exact hm
        · exact hme val' hla
      · unfold addresses at addrs ⊢
        rw [List.map_cons, List.map_cons, addrs, Option.map_some, hn]

theorem resetBftGroup_installed {newBg : BftGroup} (reset : ans.reset.isSome) :
    (mgr.resetBftGroup ans newBg).2.curBftGroup = newBg := by
  have stopped : ans.reset.isNone = false := by
    rw [← Option.not_isSome, reset]
    rfl
  unfold resetBftGroup
  rw [stopped, if_neg Bool.false_ne_true]
  cases ans.totalValidators with
  | none => rfl
  | some totalVals =>
    split_ifs <;> rfl

end BftMgr

end HNBChain.Audit.Source.Algorand
