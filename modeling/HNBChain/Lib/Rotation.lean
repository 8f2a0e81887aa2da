import Mathlib.Data.List.Sort
import Mathlib.Data.List.Nodup
import Mathlib.Data.Nat.ModEq
import Mathlib.Order.RelClasses
import Mathlib.Tactic.Linarith
import Mathlib.Tactic.Ring

/-!
# Serving by priority

All members gain the same weight in each step, and the one ahead is served and pays the weight of
all. A member is ahead with a larger priority, at equal ones by a fixed order of the members. If no
priority is further from another than one payment, whoever is served falls behind all others: the
members form a queue, and after as many steps as there are members the priorities are what they
were.
-/
namespace HNBChain.Lib.Rotation

open List

section

variable {κ : Type} (le : κ → κ → Prop) (prio : κ → Int)

def Ahead (x y : κ) : Prop := prio y < prio x ∨ prio x = prio y ∧ le x y

instance [DecidableRel le] : DecidableRel (Ahead le prio) := fun x y =>
  inferInstanceAs (Decidable (prio y < prio x ∨ prio x = prio y ∧ le x y))

instance [Std.Total le] : Std.Total (Ahead le prio) where
  total x y := by
    unfold Ahead
    have := Std.Total.total (r := le) x y
    rcases lt_trichotomy (prio x) (prio y) with less | same | more
    · exact .inr (.inl less)
    · exact this.imp (fun first => .inr ⟨same, first⟩) fun first => .inr ⟨same.symm, first⟩
    · exact .inl (.inl more)

instance [IsTrans κ le] : IsTrans κ (Ahead le prio) where
  trans x y z := by
    rintro (more | ⟨same, first⟩) (more' | ⟨same', first'⟩)
    · exact .inl (more'.trans more)
    · exact .inl (same' ▸ more)
    · exact .inl (same ▸ more')
    · exact .inr ⟨same.trans same', IsTrans.trans _ _ _ first first'⟩

/-- The members in the order in which they are ahead of each other. -/
def queueOf [DecidableRel le] (members : List κ) : List κ := members.insertionSort (Ahead le prio)

theorem mem_queueOf [DecidableRel le] {members : List κ} {x : κ} :
    x ∈ queueOf le prio members ↔ x ∈ members :=
  (perm_insertionSort _ _).mem_iff

theorem length_queueOf [DecidableRel le] (members : List κ) :
    (queueOf le prio members).length = members.length :=
  (perm_insertionSort _ _).length_eq

/-- No two priorities are further apart than one payment; at that distance the order decides. -/
def Near (payment : Int) (members : List κ) : Prop :=
  ∀ x ∈ members, ∀ y ∈ members, prio x - payment < prio y ∨ prio x - payment = prio y ∧ le y x

end

/-! ## One round -/

section

variable {κ : Type} [DecidableEq κ] {le : κ → κ → Prop} {prio : κ → Int} {weight : Int}
  {queue : List κ}

/-- The priorities after the first `j` of the queue have been served. -/
def served (prio : κ → Int) (weight : Int) (queue : List κ) (j : Nat) (x : κ) : Int :=
  prio x + j * weight - if x ∈ queue.take j then queue.length * weight else 0

theorem served_zero (x : κ) : served prio weight queue 0 x = prio x := by
  simp [served]

theorem served_length {x : κ} (hm : x ∈ queue) :
    served prio weight queue queue.length x = prio x := by
  rw [served, take_length, if_pos hm]
  ring

theorem served_succ (nodup : queue.Nodup) {j : Nat} (hw : j < queue.length) (x : κ) :
    served prio weight queue (j + 1) x = served prio weight queue j x + weight - if x = queue[j]
      then queue.length * weight else 0 := by
  unfold served
  rw [take_succ_eq_append_getElem hw]
  have hf : queue[j] ∉ queue.take j := by
    intro hm
    obtain ⟨i, he, same⟩ := mem_take_iff_getElem.mp hm
    have := nodup.getElem_inj_iff.mp same
    omega
  by_cases now : x = queue[j]
  · subst now
    simp only [mem_append, mem_singleton, or_true, if_true, hf, if_false]
    push_cast
    ring
  · simp only [mem_append, mem_singleton, now, or_false, if_false]
    push_cast
    ring

/-- The next of the queue is ahead of all. -/
theorem served_ahead (nodup : queue.Nodup) (ho : queue.Pairwise (Ahead le prio))
    (near : Near le prio (queue.length * weight) queue) (refl : ∀ x, le x x) {j : Nat}
    (hw : j < queue.length)
    {y : κ} (hm : y ∈ queue) : Ahead le (served prio weight queue j) queue[j] y := by
  have fresh {i : Nat} (hi : i < queue.length) (hl : j ≤ i) : queue[i] ∉ queue.take j := by
    intro hm
    obtain ⟨i', he, same⟩ := mem_take_iff_getElem.mp hm
    have := nodup.getElem_inj_iff.mp same
    omega
  have unserved {i : Nat} (hi : i < queue.length) (hl : j ≤ i) :
      served prio weight queue j queue[i] = prio queue[i] + j * weight := by
    rw [served, if_neg (fresh hi hl), sub_zero]
  obtain ⟨i, hi, rfl⟩ := getElem_of_mem hm
  unfold Ahead
  rw [unserved hw le_rfl]
  rcases Nat.lt_or_ge i j with he | hl
  · -- whoever has been served is behind those who have not
    have done : queue[i] ∈ queue.take j := mem_take_iff_getElem.mpr ⟨i, by omega, rfl⟩
    rw [served, if_pos done]
    rcases near _ (getElem_mem hi) _ (getElem_mem hw) with less | ⟨same, h1⟩
    · exact .inl (by linarith)
    · exact .inr ⟨by linarith, h1⟩
  · rw [unserved hi hl]
    rcases Nat.eq_or_lt_of_le hl with same | ha
    · subst same
      exact .inr ⟨rfl, refl _⟩
    · rcases pairwise_iff_getElem.mp ho j i hw hi ha with more | ⟨same, h1⟩
      · exact .inl (by linarith)
      · exact .inr ⟨by linarith, h1⟩

theorem served_bounds (hp : 0 < weight) {j : Nat} (hw : j ≤ queue.length) (x : κ) :
    prio x - queue.length * weight ≤ served prio weight queue j x ∧
      served prio weight queue j x ≤ prio x + queue.length * weight := by
  have paid : (j : Int) * weight ≤ queue.length * weight :=
    mul_le_mul_of_nonneg_right (by exact_mod_cast hw) hp.le
  have gained : (0 : Int) ≤ j * weight := mul_nonneg (Int.natCast_nonneg j) hp.le
  have payment : (0 : Int) ≤ queue.length * weight := mul_nonneg (Int.natCast_nonneg _) hp.le
  unfold served
  split_ifs
  · constructor <;> linarith
  · constructor <;> linarith

/-- Also before the next one pays. -/
theorem served_raised_bounds (hp : 0 < weight) {j : Nat} (hw : j < queue.length) (x : κ) :
    prio x - queue.length * weight ≤ served prio weight queue j x + weight ∧
      served prio weight queue j x + weight ≤ prio x + queue.length * weight := by
  have paid : ((j : Int) + 1) * weight ≤ queue.length * weight :=
    mul_le_mul_of_nonneg_right (by exact_mod_cast hw) hp.le
  have gained : (0 : Int) ≤ j * weight := mul_nonneg (Int.natCast_nonneg j) hp.le
  have payment : (0 : Int) ≤ queue.length * weight := mul_nonneg (Int.natCast_nonneg _) hp.le
  rw [add_mul, one_mul] at paid
  unfold served
  split_ifs
  · constructor <;> linarith
  · constructor <;> linarith

/-! ## Any number of rounds -/

theorem mod_succ (k : Nat) {n : Nat} (hp : 0 < n) : (k + 1) % n = if k % n + 1 = n then 0
    else k % n + 1 := by
  have less := Nat.mod_lt k hp
  rw [← Nat.mod_add_mod]
  split_ifs with full
  · rw [full, Nat.mod_self]
  · exact Nat.mod_eq_of_lt (by omega)

/-- After each round the queue starts again. -/
theorem served_mod_succ (nodup : queue.Nodup) {k : Nat} {next : κ}
    (turn : queue[k % queue.length]? = some next)
    {x : κ} (hm : x ∈ queue) : served prio weight queue ((k + 1) % queue.length) x =
      served prio weight queue (k % queue.length) x + weight -
        if x = next then queue.length * weight else 0 := by
  obtain ⟨hw, rfl⟩ := List.getElem?_eq_some_iff.mp turn
  rw [mod_succ k (List.length_pos_of_mem hm), ← served_succ nodup hw]
  split_ifs with full
  · rw [full, served_zero, served_length hm]
  · rfl

/-- Within one round nobody is served twice. -/
theorem mod_inj_of_window {n i j : Nat} (ha : i < j) (window : j < i + n) : i % n ≠ j % n := by
  intro same
  have divides : n ∣ j - i := (Nat.modEq_iff_dvd' ha.le).mp same
  have := Nat.le_of_dvd (by omega) divides
  omega

end

end HNBChain.Lib.Rotation
