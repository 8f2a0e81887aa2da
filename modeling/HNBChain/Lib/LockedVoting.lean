import Mathlib.Data.Fintype.Card
import Mathlib.Data.Finset.Card
import Mathlib.Order.WellFounded

/-!
# Voting in two phases with locks

Validators prevote and precommit blocks in rounds. Less than a third of them are faulty, and of
these nothing is known. Three rules of the others make precommits of more than two thirds agree: a
validator prevotes one block in a round; it precommits a block that more than two thirds have
prevoted; and after a precommit it prevotes another block only if it has precommitted that block in
a round between.

Certificates are sets of more than two thirds of the validators in which every one that is not
faulty has cast the vote. Two of them always share such a validator.
-/
namespace HNBChain.Lib

/-- More than two thirds of the validators, with the votes of those that are not faulty. -/
def Certified {V R B : Type*} [Fintype V] (faulty : Finset V) (cast : V → R → B → Prop) (r : R)
    (b : B) : Prop :=
  ∃ voters : Finset V, 2 * Fintype.card V < 3 * voters.card ∧ ∀ v ∈ voters, v ∉ faulty → cast v r b

structure LockedVoting {V R B : Type*} [Fintype V] [LT R] (faulty : Finset V)
    (prevotes precommits : V → R → B → Prop) : Prop where
  few : 3 * faulty.card < Fintype.card V
  single : ∀ v ∉ faulty, ∀ r b b', prevotes v r b → prevotes v r b' → b = b'
  justified : ∀ v ∉ faulty, ∀ r b, precommits v r b → Certified faulty prevotes r b
  locked : ∀ v ∉ faulty, ∀ r b r' b', precommits v r b → r < r' → prevotes v r' b' →
    b' = b ∨ ∃ r'', r < r'' ∧ r'' < r' ∧ precommits v r'' b'

section

variable {V R B : Type*} [Fintype V] [DecidableEq V] {faulty : Finset V}
  {prevotes precommits : V → R → B → Prop}

/-- Two sets of more than two thirds share a validator that is not faulty. -/
theorem exists_honest_mem_inter (few : 3 * faulty.card < Fintype.card V) {a b : Finset V}
    (ha : 2 * Fintype.card V < 3 * a.card) (hb : 2 * Fintype.card V < 3 * b.card) :
    ∃ v, v ∈ a ∧ v ∈ b ∧ v ∉ faulty := by
  have both := Finset.card_union_add_card_inter a b
  have all := Finset.card_le_univ (a ∪ b)
  have larger : faulty.card < (a ∩ b).card := by omega
  obtain ⟨v, shared, honest⟩ := Finset.exists_mem_notMem_of_card_lt_card larger
  exact ⟨v, (Finset.mem_inter.mp shared).1, (Finset.mem_inter.mp shared).2, honest⟩

theorem Certified.exists_honest {cast cast' : V → R → B → Prop} {r r' : R} {b b' : B}
    (few : 3 * faulty.card < Fintype.card V) (h1 : Certified faulty cast r b)
    (h2 : Certified faulty cast' r' b') : ∃ v ∉ faulty, cast v r b ∧ cast' v r' b' := by
  obtain ⟨voters, many, votes⟩ := h1
  obtain ⟨voters', many', votes'⟩ := h2
  obtain ⟨v, mem, mem', honest⟩ := exists_honest_mem_inter few many many'
  exact ⟨v, honest, votes v mem honest, votes' v mem' honest⟩

namespace LockedVoting

variable [LinearOrder R] (voting : LockedVoting faulty prevotes precommits) {r r' : R} {b b' : B}

include voting

/-- A certificate of precommits comes with one of prevotes. -/
theorem prevoted (hc : Certified faulty precommits r b) : Certified faulty prevotes r b := by
  obtain ⟨v, honest, hp, _⟩ := hc.exists_honest voting.few hc
  exact voting.justified v honest r b hp

/-- After a certificate of precommits no other block gets one of prevotes. -/
theorem prevotes_eq [WellFoundedLT R] (hc : Certified faulty precommits r b) (le : r ≤ r')
    (other : Certified faulty prevotes r' b') : b' = b := by
  -- the first round with a certificate for another block would need a validator that left its lock
  induction r' using WellFoundedLT.induction generalizing b' with
  | ind r' ih =>
    rcases le.lt_or_eq with lt | rfl
    · obtain ⟨v, honest, hp, prevote⟩ := hc.exists_honest voting.few other
      rcases voting.locked v honest r b r' b' hp lt prevote with same | ⟨r'',
        after, before, again⟩
      · exact same
      · exact ih r'' before after.le (voting.justified v honest r'' b' again)
    · obtain ⟨v, honest, h1, h2⟩ :=
        (voting.prevoted hc).exists_honest voting.few other
      exact voting.single v honest r b' b h2 h1

theorem agreement [WellFoundedLT R] (h1 : Certified faulty precommits r b)
    (h2 : Certified faulty precommits r' b') : b = b' := by
  rcases le_total r r' with le | le
  · exact (voting.prevotes_eq h1 le (voting.prevoted h2)).symm
  · exact voting.prevotes_eq h2 le (voting.prevoted h1)

end LockedVoting

end

end HNBChain.Lib
