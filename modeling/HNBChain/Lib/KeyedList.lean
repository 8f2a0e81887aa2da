import Mathlib.Data.List.Range
import Mathlib.Data.List.Sort
import Mathlib.Tactic

/-!
# Lists in the order of a number

A `KeyedList` holds at most one element for each key and keeps them in the order of their keys, so
taking a part of it (the keys below a bound, the first few, the run of consecutive keys at its head)
is taking a part of a list. `Splits` says that an operation loses nothing; `Spans` says that the
keys are those of an interval.
-/
namespace HNBChain.Lib

open List

structure KeyedList {α : Type} (key : α → Nat) where
  items : List α
  sorted : items.Pairwise fun a b => key a < key b

namespace KeyedList

variable {α : Type} {key : α → Nat}

def empty : KeyedList key := ⟨[], .nil⟩

def get (l : KeyedList key) (n : Nat) : Option α := l.items.find? fun a => key a = n

def len (l : KeyedList key) : Nat := l.items.length

/-- `a` in its place, instead of an element of the same key. -/
def insertItem (key : α → Nat) (a : α) : List α → List α
  | [] => [a]
  | x :: xs =>
    if key a < key x then a :: x :: xs
    else if key a = key x then a :: xs
    else x :: insertItem key a xs

variable {a : α} {l : KeyedList key} {first next : Nat}

theorem of_mem_insertItem {b : α} {l : List α} (mem : b ∈ insertItem key a l) : b = a ∨ b ∈ l := by
  induction l with
  | nil => simpa [insertItem] using mem
  | cons x xs ih =>
    rw [insertItem] at mem
    split at mem
    · simpa using mem
    split at mem
    · rcases mem_cons.mp mem with rfl | mem
      · exact .inl rfl
      · exact .inr (mem_cons_of_mem x mem)
    · rcases mem_cons.mp mem with rfl | mem
      · exact .inr mem_cons_self
      · exact (ih mem).imp_right (mem_cons_of_mem x)

theorem insertItem_sorted (a : α) {l : List α} (hs : l.Pairwise fun a b => key a < key b) :
    (insertItem key a l).Pairwise fun a b => key a < key b := by
  induction l with
  | nil => simp [insertItem]
  | cons x xs ih =>
    obtain ⟨ha, tail⟩ := pairwise_cons.mp hs
    rw [insertItem]
    split
    next before =>
      refine pairwise_cons.mpr ⟨fun b mem => ?_, hs⟩
      rcases mem_cons.mp mem with rfl | mem
      · exact before
      · exact before.trans (ha b mem)
    split
    next same => exact pairwise_cons.mpr ⟨fun b mem => same ▸ ha b mem, tail⟩
    next notBefore notSame =>
      refine pairwise_cons.mpr ⟨fun b mem => ?_, ih tail⟩
      rcases of_mem_insertItem mem with rfl | mem
      · omega
      · exact ha b mem

def put (a : α) (l : KeyedList key) : KeyedList key :=
  ⟨insertItem key a l.items, insertItem_sorted a l.sorted⟩

/-- The elements that `p` picks, and the list without them. -/
def partition (p : α → Bool) (l : KeyedList key) : List α × KeyedList key :=
  (l.items.filter p, ⟨l.items.filter fun a => !p a, l.sorted.filter _⟩)

/-- The first `n` stay; the others come out from the last one down. -/
def cap (n : Nat) (l : KeyedList key) : List α × KeyedList key :=
  ((l.items.drop n).reverse, ⟨l.items.take n, l.sorted.sublist (take_sublist n l.items)⟩)

/-- The elements of a list as long as their keys go up from `n` one by one, and those left. -/
def runFrom (key : α → Nat) : Nat → List α → List α × List α
  | _, [] => ([], [])
  | n, a :: rest =>
    if key a = n then (a :: (runFrom key (n + 1) rest).1, (runFrom key (n + 1) rest).2)
    else ([], a :: rest)

theorem runFrom_append (n : Nat) (l : List α) : (runFrom key n l).1 ++ (runFrom key n l).2 = l := by
  induction l generalizing n with
  | nil => rfl
  | cons a rest ih =>
    rw [runFrom]
    split
    · rw [cons_append, ih]
    · rfl

theorem runFrom_sublist (n : Nat) (l : List α) : (runFrom key n l).2.Sublist l := by
  have part := sublist_append_right (runFrom key n l).1 (runFrom key n l).2
  rwa [runFrom_append] at part

theorem runFrom_keys (n : Nat) (l : List α) :
    (runFrom key n l).1.map key = range' n (runFrom key n l).1.length := by
  induction l generalizing n with
  | nil => rfl
  | cons a rest ih =>
    rw [runFrom]
    split
    next here => rw [map_cons, ih, here, length_cons, range'_succ]
    · rfl

/-- The run is as long as it can be. -/
theorem runFrom_stops {n : Nat} {l : List α} (hs : l.Pairwise fun a b => key a < key b)
    (ha : ∀ a ∈ l, n ≤ key a) (left : a ∈ (runFrom key n l).2) :
    n + (runFrom key n l).1.length < key a := by
  induction l generalizing n with
  | nil => cases left
  | cons x rest ih =>
    obtain ⟨h1, tail⟩ := pairwise_cons.mp hs
    rw [runFrom] at left ⊢
    split at left
    next here =>
      have further : n + 1 + (runFrom key (n + 1) rest).1.length < key a :=
        ih tail (fun b mem => here ▸ h1 b mem) left
      rw [if_pos here, length_cons]
      omega
    next elsewhere =>
      have least : n ≤ key x := ha x mem_cons_self
      rw [if_neg elsewhere, length_nil]
      rcases mem_cons.mp left with rfl | mem
      · omega
      · have := h1 a mem
        omega

/-- Nothing when the least key is above `start`, else the run of consecutive keys that the least key
begins. -/
def ready (start : Nat) (l : KeyedList key) : List α × KeyedList key :=
  match l.items.head? with
  | none => ([], l)
  | some first =>
    if start < key first then ([], l)
    else
      ((runFrom key (key first) l.items).1, ⟨(runFrom key (key first) l.items).2,
        l.sorted.sublist (runFrom_sublist (key first) l.items)⟩)

/-! ## Looking up -/

theorem keys_nodup (l : KeyedList key) : (l.items.map key).Nodup :=
  pairwise_map.mpr (l.sorted.imp Nat.ne_of_lt)

theorem nodup (l : KeyedList key) : l.items.Nodup := l.keys_nodup.of_map key

/-- A key belongs to one element. -/
theorem eq_of_key {b : α} (memA : a ∈ l.items) (memB : b ∈ l.items)
    (same : key a = key b) : a = b :=
  inj_on_of_nodup_map l.keys_nodup memA memB same

theorem get_eq_some {n : Nat} : l.get n = some a ↔ a ∈ l.items ∧ key a = n := by
  constructor
  · intro got
    exact ⟨mem_of_find?_eq_some got, by simpa using find?_some got⟩
  · rintro ⟨mem, rfl⟩
    have ht : (l.get (key a)).isSome := find?_isSome.mpr ⟨a, mem, by simp⟩
    obtain ⟨b, got⟩ := Option.isSome_iff_exists.mp ht
    have hf : b ∈ l.items := mem_of_find?_eq_some got
    have same : key b = key a := by simpa using find?_some got
    rw [got, eq_of_key hf mem same]

theorem get_eq_none {n : Nat} : l.get n = none ↔ ∀ a ∈ l.items, key a ≠ n := by
  simp [get, find?_eq_none]

theorem get_isSome {n : Nat} : (l.get n).isSome ↔ ∃ a ∈ l.items, key a = n := by
  simp [get, find?_isSome]

theorem mem_put {b : α} : b ∈ (l.put a).items ↔ b = a ∨ b ∈ l.items ∧ key b ≠ key a := by
  have step : ∀ {items : List α}, (items.Pairwise fun a b => key a < key b) →
      (b ∈ insertItem key a items ↔ b = a ∨ b ∈ items ∧ key b ≠ key a) := by
    intro items hs
    induction items with
    | nil => simp [insertItem]
    | cons x xs ih =>
      obtain ⟨ha, tail⟩ := pairwise_cons.mp hs
      have hl : ∀ c ∈ xs, key c ≠ key x := fun c mem => (ha c mem).ne'
      rw [insertItem]
      split
      next before =>
        have hap : ∀ c ∈ x :: xs, key c ≠ key a := by
          rintro c mem same
          rcases mem_cons.mp mem with rfl | mem
          · omega
          · have := ha c mem
            omega
        constructor
        · intro mem
          exact (mem_cons.mp mem).imp_right fun mem => ⟨mem, hap b mem⟩
        · rintro (rfl | ⟨mem, -⟩)
          · exact mem_cons_self
          · exact mem_cons_of_mem a mem
      split
      next same =>
        rw [mem_cons, mem_cons]
        constructor
        · exact Or.imp_right fun mem => ⟨.inr mem, same ▸ hl b mem⟩
        · rintro (rfl | ⟨rfl | mem, hap⟩)
          · exact .inl rfl
          · exact absurd same.symm hap
          · exact .inr mem
      next notSame =>
        rw [mem_cons, mem_cons, ih tail]
        constructor
        · rintro (rfl | rfl | ⟨mem, hap⟩)
          · exact .inr ⟨.inl rfl, fun same => notSame same.symm⟩
          · exact .inl rfl
          · exact .inr ⟨.inr mem, hap⟩
        · rintro (rfl | ⟨rfl | mem, hap⟩)
          · exact .inr (.inl rfl)
          · exact .inl rfl
          · exact .inr (.inr ⟨mem, hap⟩)
  exact step l.sorted

theorem put_ne_nil (a : α) (l : KeyedList key) : (l.put a).items ≠ [] :=
  ne_nil_of_mem (mem_put.mpr (.inl rfl))

theorem put_perm (free : ∀ b ∈ l.items, key b ≠ key a) : (l.put a).items.Perm (a :: l.items) := by
  have hab : a ∉ l.items := fun mem => free a mem rfl
  refine (perm_ext_iff_of_nodup (l.put a).nodup (nodup_cons.mpr ⟨hab, l.nodup⟩)).mpr
    fun b => ?_
  rw [mem_put, mem_cons]
  exact or_congr_right ⟨And.left, fun mem => ⟨mem, free b mem⟩⟩

/-! ## Nothing gets lost -/

/-- `l` is `removed` and `rest`. -/
def Splits (l : KeyedList key) (parts : List α × KeyedList key) : Prop :=
  l.items.Perm (parts.1 ++ parts.2.items)

theorem splits_self (l : KeyedList key) : Splits l ([], l) := List.Perm.refl l.items

theorem splits_ite {p : Prop} [Decidable p] {a b : List α × KeyedList key}
    (one : Splits l a) (other : Splits l b) : Splits l (if p then a else b) := by
  split
  · exact one
  · exact other

theorem partition_splits (p : α → Bool) (l : KeyedList key) : Splits l (l.partition p) :=
  (filter_append_perm p l.items).symm

theorem cap_splits (n : Nat) (l : KeyedList key) : Splits l (l.cap n) := by
  have hw : (l.items.take n ++ l.items.drop n).Perm (l.items.drop n ++ l.items.take n) :=
    perm_append_comm
  rw [take_append_drop] at hw
  exact hw.trans ((reverse_perm _).symm.append_right _)

theorem ready_splits (start : Nat) (l : KeyedList key) : Splits l (l.ready start) := by
  unfold Splits ready
  cases l.items.head? with
  | none => exact List.Perm.refl _
  | some first =>
    dsimp only
    split
    · exact List.Perm.refl _
    · exact (runFrom_append (key first) l.items).symm ▸ List.Perm.refl _

/-- A part of the rest. -/
theorem Splits.trans {rest : KeyedList key} {removed : List α} {parts : List α × KeyedList key}
    (h1 : Splits l (removed, rest)) (h2 : Splits rest parts) :
    Splits l (removed ++ parts.1, parts.2) := by
  have hw : l.items.Perm (removed ++ (parts.1 ++ parts.2.items)) :=
    List.Perm.trans h1 (List.Perm.append_left removed h2)
  rwa [← append_assoc] at hw

/-- Either nothing is ready and every key is above `start`, or a run that begins at or below `start`
is, and the first key after it is missing. -/
theorem ready_spec (start : Nat) (l : KeyedList key) :
    ((l.ready start).1 = [] ∧ (l.ready start).2 = l ∧ ∀ a ∈ l.items, start < key a) ∨
      ∃ n ≤ start, (l.ready start).1 ≠ [] ∧
      (l.ready start).1.map key = range' n (l.ready start).1.length ∧
        ∀ a ∈ (l.ready start).2.items, n + (l.ready start).1.length < key a := by
  obtain ⟨items, hs⟩ := l
  cases items with
  | nil => exact .inl ⟨rfl, rfl, fun a mem => by cases mem⟩
  | cons first rest =>
    have least : ∀ a ∈ first :: rest, key first ≤ key a := by
      intro a mem
      rcases mem_cons.mp mem with rfl | mem
      · exact le_rfl
      · exact ((pairwise_cons.mp hs).1 a mem).le
    rw [ready, head?_cons]
    dsimp only
    split
    next above => exact .inl ⟨rfl, rfl, fun a mem => above.trans_le (least a mem)⟩
    next reached =>
      refine .inr ⟨key first, Nat.not_lt.mp reached, ?_, runFrom_keys _ _,
        fun a mem => runFrom_stops hs least mem⟩
      dsimp only
      rw [runFrom, if_pos rfl]
      exact cons_ne_nil _ _

theorem Splits.mem {parts : List α × KeyedList key} (hsp : Splits l parts)
    : a ∈ l.items ↔ a ∈ parts.1 ∨ a ∈ parts.2.items := by
  rw [List.Perm.mem_iff hsp, mem_append]

/-- Picking by the key of an element picks this element. -/
theorem filter_key (mem : a ∈ l.items) {p : α → Bool}
    (picks : ∀ b, p b = true ↔ key b = key a) : l.items.filter p = [a] := by
  refine perm_singleton.mp ((perm_ext_iff_of_nodup (l.nodup.filter p)
    (nodup_singleton a)).mpr fun b => ?_)
  rw [mem_filter, mem_singleton, picks]
  constructor
  · rintro ⟨also, same⟩
    exact eq_of_key also mem same
  · rintro rfl
    exact ⟨mem, rfl⟩

/-! ## Intervals of keys -/

/-- The keys are the numbers from `first` up to, not including, `next`. -/
def Spans (l : KeyedList key) (first next : Nat) : Prop :=
  ∀ n, (∃ a ∈ l.items, key a = n) ↔ first ≤ n ∧ n < next

theorem Spans.keys (hsa : l.Spans first next) :
    l.items.map key = range' first (next - first) := by
  have ascending : (l.items.map key).Pairwise (· < ·) := pairwise_map.mpr l.sorted
  have same : ∀ n, n ∈ l.items.map key ↔ n ∈ range' first (next - first) := by
    intro n
    rw [mem_map, hsa n, mem_range'_1]
    omega
  have perm : (l.items.map key).Perm (range' first (next - first)) :=
    (perm_ext_iff_of_nodup (ascending.imp Nat.ne_of_lt) nodup_range').mpr same
  exact perm.eq_of_pairwise (fun _ _ _ _ ab ba => absurd ab ba.asymm) ascending pairwise_lt_range'

theorem Spans.len (hsa : l.Spans first next) : l.len = next - first := by
  have := congrArg length hsa.keys
  simpa [KeyedList.len] using this

theorem spans_of_nil (none : l.items = []) (n : Nat) : l.Spans n n := by
  intro m
  simp only [none, not_mem_nil, false_and, exists_false, false_iff]
  omega

theorem Spans.items_eq_nil (hsa : l.Spans first next) (le : next ≤ first) : l.items = [] := by
  refine eq_nil_iff_forall_not_mem.mpr fun a mem => ?_
  have := (hsa (key a)).mp ⟨a, mem, rfl⟩
  omega

theorem Spans.put (hsa : l.Spans first next)
    (le : first ≤ next) (here : key a = next) : (l.put a).Spans first (next + 1) := by
  intro n
  constructor
  · rintro ⟨b, mem, rfl⟩
    rcases mem_put.mp mem with rfl | ⟨mem, -⟩
    · omega
    · have := (hsa (key b)).mp ⟨b, mem, rfl⟩
      omega
  · rintro ⟨low, high⟩
    by_cases last : n = next
    · exact ⟨a, mem_put.mpr (.inl rfl), here.trans last.symm⟩
    · obtain ⟨b, mem, rfl⟩ := (hsa n).mpr ⟨low, by omega⟩
      exact ⟨b, mem_put.mpr (.inr ⟨mem, by omega⟩), rfl⟩

theorem le_getLast {b : α} (last : l.items.getLast? = some a) (mem : b ∈ l.items) :
    key b ≤ key a := by
  have hw : l.items.dropLast ++ [a] = l.items := dropLast_append_getLast? a last
  have parts := l.sorted
  rw [← hw, pairwise_append] at parts
  rw [← hw] at mem
  rcases mem_append.mp mem with mem | mem
  · exact (parts.2.2 b mem a mem_cons_self).le
  · rw [mem_singleton.mp mem]

theorem Spans.getLast (hsa : l.Spans first next) (last : l.items.getLast? = some a) :
    key a + 1 = next := by
  have hi := (hsa (key a)).mp ⟨a, mem_of_getLast? last, rfl⟩
  obtain ⟨b, mem, top⟩ := (hsa (next - 1)).mpr ⟨by omega, by omega⟩
  have le := le_getLast last mem
  omega

/-- Without its last element an interval is an interval. -/
theorem Spans.cap_last (hsa : l.Spans first next) (lt : first < next) :
    ∃ a, (l.cap (l.len - 1)).1 = [a] ∧ key a = next - 1 ∧
    (l.cap (l.len - 1)).2.Spans first (next - 1) := by
  have some : l.items ≠ [] := by
    obtain ⟨a, mem, -⟩ := (hsa first).mpr ⟨le_rfl, lt⟩
    exact ne_nil_of_mem mem
  have last : key (l.items.getLast some) + 1 = next :=
    hsa.getLast (getLast?_eq_some_getLast some)
  have hw : l.items.dropLast ++ [l.items.getLast some] = l.items := dropLast_append_getLast some
  have hb : ∀ b ∈ l.items.dropLast, key b < key (l.items.getLast some) := by
    have parts := l.sorted
    rw [← hw, pairwise_append] at parts
    exact fun b mem => parts.2.2 b mem _ mem_cons_self
  have hst : (l.cap (l.len - 1)).2.items = l.items.dropLast := dropLast_eq_take.symm
  refine ⟨l.items.getLast some, ?_, by omega, fun n => ?_⟩
  · rw [cap, KeyedList.len, drop_length_sub_one some]
    rfl
  rw [hst]
  constructor
  · rintro ⟨b, mem, rfl⟩
    have low := ((hsa _).mp ⟨b, mem_of_mem_dropLast mem, rfl⟩).1
    have high := hb b mem
    omega
  · rintro ⟨low, high⟩
    obtain ⟨b, mem, rfl⟩ := (hsa n).mpr ⟨low, by omega⟩
    rw [← hw] at mem
    rcases mem_append.mp mem with mem | mem
    · exact ⟨b, mem, rfl⟩
    · rw [mem_singleton.mp mem] at high
      omega

end KeyedList
end HNBChain.Lib
