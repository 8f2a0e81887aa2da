import HNBChain.Audit.Source.VoteOrder

/-!
# Same votes, same order

The witnesses of an epoch are chosen in the order of the votes, and every node sorts the tally for
itself. The order is settled by the votes alone: candidates with equal votes stay in the order in
which Go happened to range over the map, or in whatever order the sort puts them, and two nodes with
the same state may choose different witnesses.
-/
namespace HNBChain.Audit.Guarantees.TokenOrder

open Lib Source Multiset

/-- One list in whatever order the map is ranged over, with the candidates of the tally by falling
votes. -/
structure SameOrder (sorter : VoteSort) (w : World) (epochNo : UInt64) : Prop where
  same : ∀ order order', getVotePeerIDOrderToken sorter order w epochNo =
    getVotePeerIDOrderToken sorter order' w epochNo
  sorted : ∀ order tally, tallyAt w epochNo = some tally → ∃ infos : List PeerInfo,
    getVotePeerIDOrderToken sorter order w epochNo = .ok (some (infos.map PeerInfo.peerID)) ∧
    infos.Perm (peerInfos (order.items (tally.getD ∅))) ∧
    infos.Pairwise fun a b => b.votingPower ≤ a.votingPower

/-- Candidates with equal votes are the same peer. -/
def Untied (w : World) (epochNo : UInt64) : Prop :=
  ∀ tally, tallyAt w epochNo = some (some tally) → ∀ e ∈ tally.entries, ∀ e' ∈ tally.entries,
    e.2 = e'.2 → stringToByteKey e.1 = stringToByteKey e'.1

section

variable (sorter : VoteSort) {w : World} {epochNo : UInt64}

theorem items_perm (order order' : TallyOrder) (tally : Tally) :
    (order.items tally).Perm (order'.items tally) :=
  coe_eq_coe.mp ((order.complete tally).trans (order'.complete tally).symm)

variable {tally : Tally}

theorem mem_items (order : TallyOrder) {e : Sigma fun _ : Bytes => Int64}
    (hm : e ∈ order.items tally) : e ∈ tally.entries := by
  rw [← order.complete tally]
  exact hm

theorem sortInfos_sorted (pis : List PeerInfo) :
    (sortInfos sorter pis).Pairwise fun a b => b.votingPower ≤ a.votingPower :=
  (sorter.sort_sorted PeerInfo.votes pis).imp fun notBefore => Int64.le_iff_toInt_le.mpr
    (not_lt.mp notBefore)

theorem sortInfos_eq (order order' : TallyOrder)
    (untied : ∀ e ∈ tally.entries, ∀ e' ∈ tally.entries, e.2 = e'.2 →
      stringToByteKey e.1 = stringToByteKey e'.1) :
    sortInfos sorter (peerInfos (order.items tally)) =
      sortInfos sorter (peerInfos (order'.items tally)) := by
  refine sorter.sort_eq PeerInfo.votes ((items_perm order order' tally).map _)
    fun a inList b inList' notBefore notBefore' => ?_
  obtain ⟨e, hm, rfl⟩ := List.mem_map.mp inList
  obtain ⟨e', member', rfl⟩ := List.mem_map.mp inList'
  have votes : e.2 = e'.2 := Int64.toInt_inj.mp
    (le_antisymm (not_lt.mp notBefore) (not_lt.mp notBefore'))
  have ids := untied e (mem_items order hm) e' (mem_items order member') votes
  rw [votes, ids]

/-- The order that takes this list for this tally. -/
noncomputable def rangedAs (tally : Tally) (items : List (Sigma fun _ : Bytes => Int64))
    (complete : (items : Multiset _) = tally.entries) : TallyOrder where
  items := Function.update (fun tally => tally.entries.toList) tally items
  complete other := by
    by_cases same : other = tally
    · subst same
      rw [Function.update_self]
      exact complete
    · rw [Function.update_of_ne same]
      exact coe_toList _

theorem items_rangedAs {items : List (Sigma fun _ : Bytes => Int64)}
    (hc : (items : Multiset _) = tally.entries) :
    (rangedAs tally items hc).items tally = items := by
  unfold rangedAs
  dsimp only
  rw [Function.update_self]

/-- Two entries of a tally may be met in either order, before all others. -/
theorem ranged_both {e e' : Sigma fun _ : Bytes => Int64} (hm : e ∈ tally.entries)
    (member' : e' ∈ tally.entries) (differ : e ≠ e') :
    ∃ rest, ((e :: e' :: rest : List _) : Multiset _) = tally.entries ∧
      ((e' :: e :: rest : List _) : Multiset _) = tally.entries := by
  obtain ⟨others, parts⟩ := exists_cons_of_mem hm
  have inOthers : e' ∈ others := by
    rw [parts, mem_cons] at member'
    exact member'.resolve_left differ.symm
  obtain ⟨rest, partsOthers⟩ := exists_cons_of_mem inOthers
  have hw : ((e :: e' :: rest.toList : List _) : Multiset _) = tally.entries := by
    rw [← cons_coe, ← cons_coe, coe_toList, ← partsOthers, ← parts]
  refine ⟨rest.toList, hw, ?_⟩
  rw [← hw]
  exact coe_eq_coe.mpr (List.Perm.swap _ _ _)

end

/-- Whatever the sort, the order of the candidates is the same for all nodes exactly if none have
equal votes. -/
theorem getVotePeerIDOrderToken_same (sorter : VoteSort) (w : World) (epochNo : UInt64) :
    SameOrder sorter w epochNo ↔ Untied w epochNo := by
  constructor
  · intro sameOrder tally hf e hm e' member' votes
    by_contra ids
    have differ : e ≠ e' := by
      rintro rfl
      exact ids rfl
    obtain ⟨rest, hw, whole'⟩ := ranged_both hm member' differ
    have same := sameOrder.same (rangedAs tally _ hw) (rangedAs tally _ whole')
    rw [getVotePeerIDOrderToken_eq, getVotePeerIDOrderToken_eq, hf] at same
    simp only [Option.getD_some, items_rangedAs, Except.ok.injEq, Option.some.injEq] at same
    exact sorter.map_sort_swap_ne PeerInfo.votes PeerInfo.peerID (peerInfos rest)
      (a := ⟨e.2, stringToByteKey e.1⟩) (b := ⟨e'.2, stringToByteKey e'.1⟩)
      (congrArg Int64.toInt votes) ids same
  · intro untied
    refine ⟨fun order order' => ?_, fun order tally hf => ?_⟩
    · rw [getVotePeerIDOrderToken_eq, getVotePeerIDOrderToken_eq]
      cases hf : tallyAt w epochNo with
      | none => rfl
      | some decoded =>
        cases decoded with
        | none =>
          have he : ∀ e ∈ (∅ : Tally).entries, ∀ e' ∈ (∅ : Tally).entries,
              e.2 = e'.2 → stringToByteKey e.1 = stringToByteKey e'.1 :=
            fun e hm => absurd hm (notMem_zero e)
          simp only [Option.getD_none, sortInfos_eq sorter order order' he]
        | some tally =>
          simp only [Option.getD_some, sortInfos_eq sorter order order' (untied tally hf)]
    · refine ⟨_, ?_, sorter.sort_perm _ _, sortInfos_sorted sorter _⟩
      rw [getVotePeerIDOrderToken_eq, hf]
      rfl

/-! ## Two candidates with five votes each -/

def fiveEach : Tally := (Finmap.insert (Octets.encodeHex [2]) 5 ∅).insert (Octets.encodeHex [1]) 5

/-- The state after the votes. -/
def tied : World := Finmap.insert (.hnb, Hnb.getEpochKey 1) (encodeTally fiveEach) ∅

theorem tallyAt_tied : tallyAt tied 1 = some (some fiveEach) := by
  have hs : find tied (.hnb, Hnb.getEpochKey 1) = some (encodeTally fiveEach) := by
    rw [tied, find_insert, if_pos rfl]
  have safe : SafeKeys fiveEach := by
    intro key hm
    rw [Finmap.mem_keys, fiveEach, Finmap.mem_insert, Finmap.mem_insert] at hm
    rcases hm with rfl | rfl | ha
    · exact Json.encodeHex_safe [1]
    · exact Json.encodeHex_safe [2]
    · exact absurd ha Finmap.notMem_empty
  unfold tallyAt
  rw [hs]
  exact decodeTally_encode fiveEach safe

def oneThenTwo : List (Sigma fun _ : Bytes => Int64) :=
    [⟨Octets.encodeHex [1], 5⟩, ⟨Octets.encodeHex [2], 5⟩]

theorem oneThenTwo_complete : (oneThenTwo : Multiset _) = fiveEach.entries := rfl

theorem twoThenOne_complete : (oneThenTwo.reverse : Multiset _) = fiveEach.entries :=
  (coe_reverse oneThenTwo).trans oneThenTwo_complete

noncomputable def firstFirst : TallyOrder := rangedAs fiveEach oneThenTwo oneThenTwo_complete

noncomputable def secondFirst : TallyOrder :=
    rangedAs fiveEach oneThenTwo.reverse twoThenOne_complete

theorem tied_differ : getVotePeerIDOrderToken (.descending Int) firstFirst tied 1 =
    .ok (some [[1], [2]]) ∧
    getVotePeerIDOrderToken (.descending Int) secondFirst tied 1 = .ok (some [[2], [1]]) ∧
    ¬ SameOrder (.descending Int) tied 1 := by
  have h1 : getVotePeerIDOrderToken (.descending Int) firstFirst tied 1 =
      .ok (some [[1], [2]]) := by
    rw [getVotePeerIDOrderToken_eq, tallyAt_tied, firstFirst]
    dsimp only
    rw [Option.getD_some, items_rangedAs]
    rfl
  have h2 : getVotePeerIDOrderToken (.descending Int) secondFirst tied 1 =
      .ok (some [[2], [1]]) := by
    rw [getVotePeerIDOrderToken_eq, tallyAt_tied, secondFirst]
    dsimp only
    rw [Option.getD_some, items_rangedAs]
    rfl
  refine ⟨h1, h2, fun sameOrder => ?_⟩
  have same := sameOrder.same firstFirst secondFirst
  rw [h1, h2] at same
  exact absurd same (by decide)

end HNBChain.Audit.Guarantees.TokenOrder
