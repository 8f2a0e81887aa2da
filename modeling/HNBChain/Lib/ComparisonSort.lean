import Mathlib.Data.List.Sigma
import Mathlib.Data.List.Sort
import Mathlib.Tactic

/-!
# Sorting by comparison

A sort that only compares keys and exchanges places arranges the places in a way that depends on the
keys alone, and not on what else the elements carry. Nothing more is known of an algorithm that is
not stable: the arrangement is sorted, and equal keys come out in some order.

Such a sort gives the same result for all arrangements of its input exactly if elements with equal
keys are equal.
-/
namespace HNBChain.Lib

open List

/-- `places keys` lists the places of the input in the order of the output. -/
structure ComparisonSort (κ : Type) (before : κ → κ → Prop) where
  places : List κ → List Nat
  perm : ∀ keys, (places keys).Perm (range keys.length)
  sorted : ∀ keys, ((places keys).filterMap (keys[·]?)).Pairwise fun a b => ¬ before b a

namespace ComparisonSort

section

variable {κ α β : Type} {before : κ → κ → Prop} (s : ComparisonSort κ before) (key : α → κ)

def sort (list : List α) : List α := (s.places (list.map key)).filterMap (list[·]?)

variable (list : List α)

theorem filterMap_range : (range list.length).filterMap (list[·]?) = list := by
  induction list with
  | nil => rfl
  | cons a list ih =>
    rw [length_cons, range_succ_eq_map, filterMap_cons, filterMap_map]
    exact congrArg (a :: ·) ih

theorem sort_perm : (s.sort key list).Perm list := by
  have places := (s.perm (list.map key)).filterMap (list[·]?)
  rw [length_map, filterMap_range] at places
  exact places

theorem sort_sorted : (s.sort key list).Pairwise fun a b => ¬ before (key b) (key a) := by
  have keys : (s.sort key list).map key = (s.places (list.map key)).filterMap
      ((list.map key)[·]?) := by
    rw [sort, map_filterMap]
    exact filterMap_congr fun place _ => getElem?_map.symm
  have hs := s.sorted (list.map key)
  rwa [← keys, pairwise_map] at hs

/-- Two arrangements of the same elements. -/
theorem sort_eq {list list' : List α} (perm : list.Perm list')
    (ties : ∀ a ∈ list, ∀ b ∈ list, ¬ before (key a) (key b) → ¬ before (key b) (key a) → a = b) :
    s.sort key list = s.sort key list' := by
  have same : (s.sort key list).Perm (s.sort key list') :=
    (s.sort_perm key list).trans (perm.trans (s.sort_perm key list').symm)
  refine List.Perm.eq_of_pairwise (fun a b inFirst inSecond notLess notLess' => ?_)
    (s.sort_sorted key list) (s.sort_sorted key list') same
  have h1 : a ∈ list := (s.sort_perm key list).subset inFirst
  have h2 : b ∈ list := perm.symm.subset ((s.sort_perm key list').subset inSecond)
  exact ties a h1 b h2 notLess' notLess

theorem map_getElem?_places :
    (s.places (list.map key)).map (list[·]?) = (s.sort key list).map some := by
  have hi : ∀ place ∈ s.places (list.map key), place < list.length := by
    intro place hm
    simpa using mem_range.mp ((s.perm (list.map key)).subset hm)
  unfold sort
  generalize s.places (list.map key) = places at hi
  induction places with
  | nil => rfl
  | cons place rest ih =>
    have h1 := getElem?_eq_getElem (hi place mem_cons_self)
    rw [filterMap_cons, h1, map_cons, h1, map_cons]
    exact congrArg (_ :: ·) (ih fun other hm => hi other (mem_cons_of_mem _ hm))

theorem getElem?_sort {list : List α} {i place : Nat}
    (ht : (s.places (list.map key))[i]? = some place) :
    (s.sort key list)[i]? = list[place]? := by
  have images := congrArg (·[i]?) (s.map_getElem?_places key list)
  simp only [getElem?_map, ht, Option.map_some] at images
  cases found : (s.sort key list)[i]? with
  | none =>
    rw [found] at images
    cases images
  | some x =>
    rw [found] at images
    exact (Option.some.inj images).symm

/-- Two elements with the same key, exchanged: whatever tells them apart tells the results apart. -/
theorem map_sort_swap_ne (f : α → β) {a b : α} (rest : List α) (tie : key a = key b)
    (differ : f a ≠ f b) :
    (s.sort key (a :: b :: rest)).map f ≠ (s.sort key (b :: a :: rest)).map f := by
  intro same
  have keys : (b :: a :: rest).map key = (a :: b :: rest).map key := by
    rw [map_cons, map_cons, map_cons, map_cons, tie]
  -- wherever the first place goes
  have zero : 0 ∈ s.places ((a :: b :: rest).map key) :=
    (s.perm _).symm.subset (mem_range.mpr (by simp))
  obtain ⟨i, ht⟩ := mem_iff_getElem?.mp zero
  have atFirst : (s.sort key (a :: b :: rest))[i]? = some a := s.getElem?_sort key ht
  rw [← keys] at ht
  have atSecond : (s.sort key (b :: a :: rest))[i]? = some b := s.getElem?_sort key ht
  have images := congrArg (·[i]?) same
  simp only [getElem?_map, atFirst, atSecond, Option.map_some, Option.some.injEq] at images
  exact differ images

end

/-- Insertion sort, with greater keys first. -/
def descending (κ : Type) [LinearOrder κ] : ComparisonSort κ fun a b => b < a where
  places keys := (keys.zipIdx.insertionSort fun a b => b.1 ≤ a.1).map Prod.snd
  perm keys := by
    have arranged := (perm_insertionSort (fun a b : κ × Nat => b.1 ≤ a.1) keys.zipIdx).map Prod.snd
    rw [zipIdx_map_snd, ← range_eq_range'] at arranged
    exact arranged
  sorted keys := by
    have : Std.Total fun a b : κ × Nat => b.1 ≤ a.1 := ⟨fun a b => le_total b.1 a.1⟩
    have : IsTrans (κ × Nat) fun a b => b.1 ≤ a.1 := ⟨fun _ _ _ ab bc => bc.trans ab⟩
    have arranged := pairwise_insertionSort (fun a b : κ × Nat => b.1 ≤ a.1) keys.zipIdx
    have values : ((keys.zipIdx.insertionSort fun a b => b.1 ≤ a.1).map Prod.snd).filterMap
      (keys[·]?) =
        (keys.zipIdx.insertionSort fun a b => b.1 ≤ a.1).map Prod.fst := by
      rw [filterMap_map, ← filterMap_eq_map]
      refine filterMap_congr fun entry member => ?_
      have inside := (perm_insertionSort _ keys.zipIdx).subset member
      exact mem_zipIdx_iff_getElem?.mp inside
    rw [values, pairwise_map]
    exact arranged.imp fun le => not_lt.mpr le

end ComparisonSort

end HNBChain.Lib
