import HNBChain.Audit.Source.Algorand.BftGroup
import HNBChain.Audit.Guarantees.CommitReplay

/-!
# The group a demand installs

The members of a new group are looked up among all validators by the addresses of the advices in the
demand, and there are as many as `BftNumber` says. Nothing compares these advices with each other:
the candidates of the demand are those of its sender, as many of them as the group needs are taken
as they are, and the selection by VRF tells apart the indexes and not the addresses.
-/
namespace HNBChain.Audit.Guarantees.GroupWellFormed

open Lib Source Source.Algorand
open CommitReplay (fourValidators)

/-- The demand passes every check and the message handler can be reset. -/
def Installs (env : BgEnv) (ans : BgAnswers) (mgr : BftMgr) (demand : BftGroupSwitchDemand)
    (newBg : BftGroup) : Prop :=
  mgr.demandedGroup env ans demand = .ok newBg ∧ ans.reset.isSome

variable {env : BgEnv} {ans : BgAnswers} {mgr : BftMgr} {demand : BftGroupSwitchDemand}
  {newBg : BftGroup}

theorem Installs.curBftGroup (hi : Installs env ans mgr demand newBg) :
    (mgr.handleBgDemand env ans (some demand)).2.curBftGroup = newBg := by
  obtain ⟨made, reset⟩ := hi
  have installed := @BftMgr.resetBftGroup_installed ans mgr newBg reset
  unfold BftMgr.handleBgDemand
  dsimp only
  rw [made]
  dsimp only
  revert installed
  rcases mgr.resetBftGroup ans newBg with ⟨result, after⟩
  intro installed
  cases result with
  | error e => exact installed
  | ok _ => exact installed

/-- The members stand in the order of the advices, each at the address of its own. -/
theorem Installs.validators (hi : Installs env ans mgr demand newBg) :
    (∀ val ∈ newBg.validators, val ∈ mgr.totalValidators.validators) ∧
      addresses demand.newBftGroup = newBg.validators.map fun val => some val.address := by
  obtain ⟨_, _, made⟩ := BftMgr.demandedGroup_ok hi.1
  obtain ⟨validators, hf, made⟩ := bind_ok made
  cases made
  exact BftMgr.findMembers_ok hf

theorem Installs.size (hi : Installs env ans mgr demand newBg) :
    newBg.validators.length = mgr.bftNumber.toNat := by
  obtain ⟨size, _⟩ := BftMgr.demandedGroup_ok hi.1
  have lengths := congrArg List.length hi.validators.2
  unfold addresses at lengths
  rw [List.length_map, List.length_map] at lengths
  rw [← lengths, size]

def adviceOf (addr : UInt8) : BftGroupSwitchAdvice := ⟨[addr], 1, 7, []⟩

def plainMgr : BftMgr where
  totalValidators := fourValidators
  bftNumber := 2
  id := 0
  candidateID := 1
  curBftGroup := ⟨0, [], [], [⟨[1], [1], 1⟩, ⟨[2], [2], 1⟩]⟩
  bgCandidate := fun _ => []
  bgAdvice := fun _ => [adviceOf 1, adviceOf 3]
  bgDemand := fun _ => none

def plainBgEnv : BgEnv where
  sha512 := fun _ => List.replicate 64 0
  verifyVRF4bg := fun _ _ _ _ => some true

def plainBgAnswers : BgAnswers where
  blockHeight := some 8
  currentVRF := some [5]
  reset := some ()
  totalValidators := some fourValidators
  start := some ()

end HNBChain.Audit.Guarantees.GroupWellFormed
