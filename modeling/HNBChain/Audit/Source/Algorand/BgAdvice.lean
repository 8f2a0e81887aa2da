import HNBChain.Audit.Source.Algorand.BftGroup

/-!
# Advices to change the group

`HandleBgAdviceMsg` and what it calls, the messages the manager posts to itself, and the loop that
takes messages of peers and its own ones. An advice is recorded under the address it gives itself:
the loop has checked that the message is signed by its sender, and nothing compares the sender with
that address.

A node that is behind starts to sync, which is left out, as is what a timeout does to the message
handler.
-/
namespace HNBChain.Audit.Source.Algorand

open Lib

/-- A message about the group; a payload that does not decode is `none`. -/
inductive BgMsg where
  | advice (payload : Option BftGroupSwitchAdvice)
  | demand (payload : Option BftGroupSwitchDemand)
  deriving DecidableEq

/-- Who the node is. -/
structure BgSelf where
  id : Bytes
  digestAddr : Bytes
  computeVRF4bg : VRFBgData → Option (Bytes × Bytes)

/-- What else is answered while an advice is handled: hashes of stored blocks, whether the node can
sign, and whether the queue of own messages has room. -/
structure AdviceAnswers extends BgAnswers where
  blockHash : UInt64 → Option Bytes
  signs : Bool
  room : Bool

inductive AdviceErr where
  | json
  | stale (bgNum candidateID : UInt64)
  | ledger
  | hash (height : UInt64) (named stored : Bytes)
  | alreadyDemanded
  | sign
  | computeVRF
  | group (e : BgErr)
  deriving DecidableEq

/-- `heard` is a log: each advice that was handled, with the key that signed it. -/
structure BgNode where
  mgr : BftMgr
  curHeight : UInt64
  internalMsgQueue : List BgMsg
  sent : List BgMsg
  heard : List (Bytes × BftGroupSwitchAdvice)

/-! ## Lists of advices -/

/-- `HasBgAdvice` and `HasBgCandidate` on their lists. -/
def hasAddr (advices : List BftGroupSwitchAdvice) (addr : Bytes) (bgNum : UInt64) : Bool :=
  advices.any fun advice => decide (advice.bftGroupNum = bgNum) && decide (addr = advice.digestAddr)

/-- `PutBgAdvice` and `PutBgCandidate` on their maps. -/
def putAdvice (advices : UInt64 → List BftGroupSwitchAdvice) (advice : BftGroupSwitchAdvice) :
    UInt64 → List BftGroupSwitchAdvice :=
  let bgNum := advice.bftGroupNum
  if hasAddr (advices bgNum) advice.digestAddr bgNum then advices
  else Function.update advices bgNum (advices bgNum ++ [advice])

namespace BftMgr

variable (mgr : BftMgr)

def hasBgAdvice (addr : Bytes) (bgNum : UInt64) : Bool := hasAddr (mgr.bgAdvice bgNum) addr bgNum

def putBgAdvice (advice : BftGroupSwitchAdvice) : BftMgr :=
  { mgr with bgAdvice := putAdvice mgr.bgAdvice advice }

def putBgCandidate (advice : BftGroupSwitchAdvice) : BftMgr :=
  { mgr with bgCandidate := putAdvice mgr.bgCandidate advice }

def putBgDemand (demand : BftGroupSwitchDemand) : BftMgr :=
  { mgr with bgDemand := Function.update mgr.bgDemand demand.bftGroupNum (some demand) }

variable {mgr} {advice : BftGroupSwitchAdvice}

theorem putBgAdvice_of_has (hp : mgr.hasBgAdvice advice.digestAddr advice.bftGroupNum = true) :
    mgr.putBgAdvice advice = mgr := by
  have kept : putAdvice mgr.bgAdvice advice = mgr.bgAdvice := if_pos hp
  rw [putBgAdvice, kept]

theorem putBgAdvice_bgAdvice (ha : mgr.hasBgAdvice advice.digestAddr advice.bftGroupNum = false) :
    (mgr.putBgAdvice advice).bgAdvice = Function.update mgr.bgAdvice advice.bftGroupNum
      (mgr.bgAdvice advice.bftGroupNum ++ [advice]) := by
  have new : ¬ mgr.hasBgAdvice advice.digestAddr advice.bftGroupNum = true :=
    by rw [ha]; exact Bool.false_ne_true
  exact if_neg new

end BftMgr

namespace BgNode

variable (env : BgEnv) (self : BgSelf) (ans : AdviceAnswers)

def checkNewBgProposer (bgNum : UInt64) (n : BgNode) : Bool :=
  match n.mgr.getNewBgProposerAddr bgNum with
  | .ok addr => decide (self.digestAddr = addr)
  | .error _ => false

/-- Broadcast, and queued for the node itself. -/
def post (msg : BgMsg) (n : BgNode) : BgNode :=
  { n with
    sent := msg :: n.sent
    internalMsgQueue := if ans.room then n.internalMsgQueue ++ [msg] else n.internalMsgQueue }

def buildBgAdvice (height bgNum : UInt64) : Except AdviceErr BftGroupSwitchAdvice :=
  match ans.blockHash (height - 1) with
  | none => .error .ledger
  | some hash => if ans.signs then .ok ⟨self.digestAddr, bgNum, height, hash⟩ else .error .sign

/-- The part of `HandleBgAdviceMsg` that joins the advice of more than a third. -/
def follow (bgNum : UInt64) (n : BgNode) : Except AdviceErr Unit × BgNode :=
  if n.mgr.totalValidators.validators.length / 3 < (n.mgr.bgAdvice bgNum).length then
    match buildBgAdvice self ans n.curHeight bgNum with
    | .error e => (.error e, n)
    | .ok own =>
      let n := if n.mgr.candidateID < bgNum
        then { n with mgr := { n.mgr with candidateID := bgNum } } else n
      if n.mgr.hasBgAdvice self.digestAddr bgNum then (.ok (), n)
      else (.ok (), n.post ans (.advice (some own)))
  else (.ok (), n)

/-- The candidates stay when a later step fails. -/
def addCandidates (bgNum : UInt64) (advices : List BftGroupSwitchAdvice) (n : BgNode) :
    Except AdviceErr Unit × BgNode :=
  let n := { n with mgr := advices.foldl BftMgr.putBgCandidate n.mgr }
  match ans.blockHash (n.curHeight - 1) with
  | none => (.error .ledger, n)
  | some hash => (.ok (), { n with mgr := n.mgr.putBgCandidate ⟨self.digestAddr, bgNum,
      n.curHeight, hash⟩ })

/-- The demand for the group of the candidates. -/
def makeDemand (bgNum : UInt64) (n : BgNode) : Except AdviceErr BftGroupSwitchDemand :=
  let candidates := (n.mgr.bgCandidate bgNum).map some
  match n.mgr.makeNewBgFromBgCandidateSlice env ans.toBgAnswers bgNum candidates with
  | .error e => .error (.group e)
  | .ok newBg =>
    match ans.currentVRF, ans.blockHeight with
    | some currentVRF, some height =>
      match self.computeVRF4bg ⟨bgNum, height - 1, currentVRF⟩ with
      | none => .error .computeVRF
      | some (value, proof) => .ok ⟨self.digestAddr, bgNum, candidates, newBg, value, proof⟩
    | _, _ => .error .ledger

def buildBgDemand (bgNum : UInt64) (n : BgNode) : Except AdviceErr BftGroupSwitchDemand × BgNode :=
  match n.addCandidates self ans bgNum (n.mgr.bgAdvice bgNum) with
  | (.error e, n) => (.error e, n)
  | (.ok (), n) =>
    match n.makeDemand env self ans bgNum with
    | .error e => (.error e, n)
    | .ok demand =>
      let n := { n with mgr := n.mgr.putBgDemand demand }
      if ans.signs then (.ok demand, n) else (.error .sign, n)

def checkResetBft (bgNum : UInt64) (n : BgNode) : Except AdviceErr Unit × BgNode :=
  if 2 * n.mgr.totalValidators.validators.length / 3 < (n.mgr.bgAdvice bgNum).length ∧
      n.checkNewBgProposer self bgNum then
    match n.buildBgDemand env self ans bgNum with
    | (.error e, n) => (.error e, n)
    | (.ok demand, n) => (.ok (), n.post ans (.demand (some demand)))
  else (.ok (), n)

/-- The checks that come before an advice is recorded; a node that is behind records nothing and
reports no error. -/
def recordable (advice : BftGroupSwitchAdvice) (n : BgNode) : Except AdviceErr Bool :=
  if advice.bftGroupNum < n.mgr.candidateID - 1
    then .error (.stale advice.bftGroupNum n.mgr.candidateID)
  else if n.curHeight < advice.height then .ok false
  else
    match ans.blockHash (advice.height - 1) with
    | none => .error .ledger
    | some hash =>
      if hash ≠ advice.hash then .error (.hash advice.height advice.hash hash)
      else if (n.mgr.bgDemand advice.bftGroupNum).isSome then .error .alreadyDemanded
      else .ok true

def handleBgAdviceMsg (payload : Option BftGroupSwitchAdvice) (n : BgNode) :
    Except AdviceErr Unit × BgNode :=
  match payload with
  | none => (.error .json, n)
  | some advice =>
    match n.recordable ans advice with
    | .error e => (.error e, n)
    | .ok false => (.ok (), n)
    | .ok true =>
      let n := { n with mgr := n.mgr.putBgAdvice advice }
      match n.follow self ans advice.bftGroupNum with
      | (.error e, n) => (.error e, n)
      | (.ok (), n) => n.checkResetBft env self ans advice.bftGroupNum

/-- A demand that is accepted is stored after it has changed the group. -/
def handleDemand (payload : Option BftGroupSwitchDemand) (n : BgNode) : BgNode :=
  match n.mgr.handleBgDemand env ans.toBgAnswers payload with
  | (.error _, mgr) => { n with mgr := mgr }
  | (.ok demand, mgr) => { n with mgr := mgr.putBgDemand demand }

/-- A message that is signed with `key`. -/
def handle (key : Bytes) (msg : BgMsg) (n : BgNode) : BgNode :=
  match msg with
  | .advice payload =>
    let n := { n with heard := (payload.toList.map (key, ·)) ++ n.heard }
    (n.handleBgAdviceMsg env self ans payload).2
  | .demand payload => n.handleDemand env ans payload

end BgNode

/-- What the manager is given: a message of a peer, with what `Verify` says of it and its sender,
the turn of its own oldest message, a new height, and a timeout without blocks, after which it asks
for a new group and may wait in vain. -/
inductive BgEvent where
  | peer (sender : Bytes) (verified : Bool) (msg : BgMsg)
  | own
  | height (h : UInt64)
  | blkTimeout
  | demandTimeout
  deriving DecidableEq

namespace BgNode

variable (env : BgEnv) (self : BgSelf)

/-- `ReqBgChange`, up to the wait for a demand. -/
def reqBgChange (ans : AdviceAnswers) (n : BgNode) : BgNode :=
  match buildBgAdvice self ans n.curHeight n.mgr.candidateID with
  | .error _ => { n with mgr := { n.mgr with candidateID := n.mgr.candidateID + 1 } }
  | .ok own => n.post ans (.advice (some own))

def deliver (ans : AdviceAnswers) (e : BgEvent) (n : BgNode) : BgNode :=
  match e with
  | .peer sender verified msg => if verified then n.handle env self ans sender msg else n
  | .own =>
    match n.internalMsgQueue with
    | [] => n
    | msg :: rest => { n with internalMsgQueue := rest }.handle env self ans self.id msg
  | .height h => { n with curHeight := h }
  | .blkTimeout => n.reqBgChange self ans
  | .demandTimeout => { n with mgr := { n.mgr with candidateID := n.mgr.candidateID + 1 } }

def run (n : BgNode) (events : List (BgEvent × AdviceAnswers)) : BgNode :=
  events.foldl (fun n event => n.deliver env self event.2 event.1) n

end BgNode

end HNBChain.Audit.Source.Algorand
