import HNBChain.Audit.Source.AppMgr
import HNBChain.Lib.ComparisonSort

/-!
# Candidates in the order of their votes

`GetVoteTokenOrder` collects the entries of a tally in the order in which Go ranges over the map,
and sorts them by their votes with `sort.Sort`. Which algorithm that is depends on the version of
Go; it compares and swaps by `Less` and `Swap` only, and need not be stable.

`HexToByte` works on characters; here they are single octets, as in any text of hexadecimal digits.
-/
namespace HNBChain.Audit.Source

open Lib

/-- Two characters of a hexadecimal text. `ParseInt` also reads a sign, and 0 stands for what it
refuses. -/
def hexPair (a b : UInt8) : UInt8 :=
  if a = 43 then UInt8.ofNat ((Octets.hexValue b).getD 0)
  else if a = 45 then 0 - UInt8.ofNat ((Octets.hexValue b).getD 0)
  else
    match Octets.hexValue a, Octets.hexValue b with
    | some x, some y => UInt8.ofNat (x * 16 + y)
    | _, _ => 0

def stringToByteKey : Bytes → Bytes
  | a :: b :: rest => hexPair a b :: stringToByteKey rest
  | _ => []

/-- An order in which Go may range over a tally. -/
structure TallyOrder where
  items : Tally → List (Sigma fun _ : Bytes => Int64)
  complete : ∀ tally, (items tally : Multiset _) = tally.entries

structure PeerInfo where
  votingPower : Int64
  peerID : Bytes
  deriving DecidableEq

/-- `sort.Sort` with the `Less` of `peerInfo`: more votes come first. -/
abbrev VoteSort := ComparisonSort Int fun a b => b < a

def peerInfos (items : List (Sigma fun _ : Bytes => Int64)) : List PeerInfo :=
  items.map fun entry => ⟨entry.2, stringToByteKey entry.1⟩

def PeerInfo.votes (pi : PeerInfo) : Int := pi.votingPower.toInt

def sortInfos (sorter : VoteSort) (pis : List PeerInfo) : List PeerInfo :=
    sorter.sort PeerInfo.votes pis

namespace Hnb

/-- No result is the nil set. -/
def getVoteTokenOrder (sorter : VoteSort) (order : TallyOrder) (ca : ContractApi)
    (epochNo : UInt64) : Call (Option (List Bytes)) := do
  match ← ca.getState (getEpochKey epochNo) with
  | .error _ => return none
  | .ok voteRecord =>
    let voteRecordMap ← unmarshalTally voteRecord
    let pis := peerInfos (order.items (voteRecordMap.getD ∅))
    return some ((sortInfos sorter pis).map PeerInfo.peerID)

end Hnb

/-- The query of `GetVotePeerIDOrderToken`, on the stored state. -/
def getVotePeerIDOrderToken (sorter : VoteSort) (order : TallyOrder) (w : World)
    (epochNo : UInt64) : Except Err (Option (List Bytes)) :=
  (runFlat (Hnb.getVoteTokenOrder sorter order (getContractApi .hnb) epochNo) w).1

/-- The tally of an epoch in the stored state. -/
def tallyAt (w : World) (epochNo : UInt64) : Option (Option Tally) :=
    tallyOf (find w (.hnb, Hnb.getEpochKey epochNo))

theorem getVotePeerIDOrderToken_eq (sorter : VoteSort) (order : TallyOrder) (w : World)
    (epochNo : UInt64) :
    getVotePeerIDOrderToken sorter order w epochNo =
      match tallyAt w epochNo with
      | none => .error .json
      | some tally =>
        .ok (some ((sortInfos sorter (peerInfos (order.items (tally.getD ∅)))).map
          PeerInfo.peerID)) := by
  have chain : (getContractApi .hnb).chainID = .hnb := rfl
  unfold getVotePeerIDOrderToken Hnb.getVoteTokenOrder tallyAt
  simp only [Handler.run_bind, runOn_getState, chain, Memory.flat_look]
  cases find w (.hnb, Hnb.getEpochKey epochNo) with
  | none => simp [Hnb.unmarshalTally, tallyOf]
  | some text =>
    simp only [Hnb.unmarshalTally, tallyOf]
    cases decodeTally text <;> simp [unmarshal]

end HNBChain.Audit.Source
