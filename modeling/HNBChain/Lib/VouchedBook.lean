import Mathlib.Data.Finset.Card
import Mathlib.Data.List.Nodup
import Mathlib.Tactic

/-!
# Counting by the length of a list

A book keeps a list of entries under each number, and each entry names a key. The length of a list
says how many keys stand behind it only if no key is named twice and each one is vouched for.
`Vouched` is that condition; it survives dropping a list, a weaker notion of vouching, and a new
entry with a new key.
-/
namespace HNBChain.Lib

open List

structure Vouched {ι κ α : Type} (book : ι → List α) (key : α → κ)
    (vouch : ι → κ → Prop) : Prop where
  distinct : ∀ i, ((book i).map key).Nodup
  vouched : ∀ i, ∀ a ∈ book i, vouch i (key a)

namespace Vouched

variable {ι κ α : Type} {book book' : ι → List α} {key : α → κ} {vouch vouch' : ι → κ → Prop}

theorem of_empty (he : ∀ i, book i = []) : Vouched book key vouch := by
  refine ⟨fun i => ?_, fun i a hm => ?_⟩
  · rw [he i]
    exact nodup_nil
  · rw [he i] at hm
    cases hm

/-- A list that is longer than a bound has more than that many keys behind it. -/
theorem exceeds [DecidableEq κ] (all : Vouched book key vouch) {i : ι} {bound : Nat}
    (hl : bound < (book i).length) : ∃ keys : Finset κ, bound < keys.card ∧ ∀ k ∈ keys,
    vouch i k := by
  refine ⟨((book i).map key).toFinset, ?_, fun k hm => ?_⟩
  · rw [toFinset_card_of_nodup (all.distinct i), length_map]
    exact hl
  · obtain ⟨a, hli, rfl⟩ := mem_map.mp (mem_toFinset.mp hm)
    exact all.vouched i a hli

theorem mono (all : Vouched book key vouch) (kept : ∀ i, book' i = book i ∨ book' i = [])
    (weaker : ∀ i k, vouch i k → vouch' i k) : Vouched book' key vouch' := by
  refine ⟨fun i => ?_, fun i a hm => ?_⟩
  · rcases kept i with same | hd
    · rw [same]
      exact all.distinct i
    · rw [hd]
      exact nodup_nil
  · rcases kept i with same | hd
    · rw [same] at hm
      exact weaker i _ (all.vouched i a hm)
    · rw [hd] at hm
      cases hm

theorem append [DecidableEq ι] (all : Vouched book key vouch) {i : ι} {a : α}
    (hf : key a ∉ (book i).map key) (good : vouch i (key a)) :
    Vouched (Function.update book i (book i ++ [a])) key vouch := by
  refine ⟨fun j => ?_, fun j b hm => ?_⟩
  · by_cases here : j = i
    · subst here
      rw [Function.update_self, map_append]
      exact (all.distinct j).append (nodup_singleton _) (disjoint_singleton.mpr hf)
    · rw [Function.update_of_ne here]
      exact all.distinct j
  · by_cases here : j = i
    · subst here
      rw [Function.update_self, mem_append, mem_singleton] at hm
      rcases hm with old | rfl
      · exact all.vouched j b old
      · exact good
    · rw [Function.update_of_ne here] at hm
      exact all.vouched j b hm

end Vouched

end HNBChain.Lib
