import Mathlib.Tactic

/-!
# Signed 64-bit amounts and their totals

`Int64` addition wraps around. The first lemmas say when it does, in terms of the integers the
amounts stand for. The others are about totals: finitely many accounts hold an amount, the total is
taken in unbounded integers over a chosen set of accounts, and changing one account changes the
total by the difference.
-/
namespace HNBChain.Lib.Amounts

open Function

/-- The sum of two amounts is their sum as integers, moved back into the range. -/
theorem toInt_add_cases (a b : Int64) :
    (-2 ^ 63 ≤ a.toInt + b.toInt ∧ a.toInt + b.toInt < 2 ^ 63 ∧ (a + b).toInt = a.toInt + b.toInt) ∨
      (2 ^ 63 ≤ a.toInt + b.toInt ∧ (a + b).toInt = a.toInt + b.toInt - 2 ^ 64) ∨
      (a.toInt + b.toInt < -2 ^ 63 ∧ (a + b).toInt = a.toInt + b.toInt + 2 ^ 64) := by
  have lowA := a.le_toInt
  have highA := a.toInt_lt
  have lowB := b.le_toInt
  have highB := b.toInt_lt
  rw [Int64.toInt_add, Int.bmod_def]
  split <;> omega

/-- Adding does not lower an amount when it adds no negative one without overflow, or when it
underflows. -/
def NoLoss (amount added : Int64) : Prop :=
  (0 ≤ added.toInt ∧ amount.toInt + added.toInt < 2 ^ 63) ∨ amount.toInt + added.toInt < -2 ^ 63

instance (amount added : Int64) : Decidable (NoLoss amount added) :=
  inferInstanceAs (Decidable (_ ∨ _))

theorem le_add_iff_noLoss (amount added : Int64) : amount ≤ amount + added ↔
    NoLoss amount added := by
  have low := added.le_toInt
  have high := added.toInt_lt
  rw [Int64.le_iff_toInt_le, NoLoss]
  rcases toInt_add_cases amount added with ⟨_, _, sum⟩ | ⟨_, sum⟩ | ⟨_, sum⟩ <;> omega

/-- Without underflow, adding gives at most the sum. -/
theorem toInt_add_le {a b : Int64} (fits : -2 ^ 63 ≤ a.toInt + b.toInt) :
    (a + b).toInt ≤ a.toInt + b.toInt := by
  rcases toInt_add_cases a b with ⟨_, _, sum⟩ | ⟨_, sum⟩ | ⟨low, _⟩ <;> omega

/-- Taking no more than there is cannot underflow. -/
theorem toInt_debit_le {a b : Int64} (he : b ≤ a) : (a + -b).toInt ≤ a.toInt - b.toInt := by
  have bound := Int64.le_iff_toInt_le.mp he
  have lowB := b.le_toInt
  have highA := a.toInt_lt
  rw [← Int64.sub_eq_add_neg, Int64.toInt_sub, Int.bmod_def]
  split <;> omega

theorem toInt_add_modEq (a b : Int64) : (a + b).toInt ≡ a.toInt + b.toInt [ZMOD 2 ^ 64] := by
  rcases toInt_add_cases a b with ⟨_, _, sum⟩ | ⟨_, sum⟩ | ⟨_, sum⟩
    <;> rw [sum, Int.ModEq] <;> omega

theorem toInt_debit_modEq (a b : Int64) : (a + -b).toInt ≡ a.toInt - b.toInt [ZMOD 2 ^ 64] := by
  rw [← Int64.sub_eq_add_neg, Int64.toInt_sub, Int.bmod_def, Int.ModEq]
  split <;> omega

section Totals

variable {α : Type}

theorem finsum_update [DecidableEq α] (f : α → Int) (hf : (support f).Finite) (a : α)
    (value : Int) : ∑ᶠ x, update f a value x = ∑ᶠ x, f x - f a + value := by
  have split : update f a value =
      fun x => f x + (if x = a then value - f a else 0) := by
    funext x
    by_cases same : x = a
    · subst same
      simp
    · simp [same]
  have one : (support fun x => if x = a then value - f a else 0).Finite := by
    refine (Set.finite_singleton a).subset fun x hi => ?_
    by_contra other
    simp [show x ≠ a from other] at hi
  have ha : ∑ᶠ x, (if x = a then value - f a else 0) = value - f a := by
    rw [finsum_eq_single _ a fun x other => if_neg other, if_pos rfl]
  rw [split, finsum_add_distrib hf one, ha]
  omega

/-- The total over the accounts in a set. -/
noncomputable def total (counted : Set α) (amount : α → Int64) : Int :=
  ∑ᶠ a, counted.indicator (fun a => (amount a).toInt) a

variable {amount : α → Int64}

theorem support_indicator_finite (counted : Set α) (hf : (support amount).Finite) :
    (support (counted.indicator fun a => (amount a).toInt)).Finite := by
  refine hf.subset fun a hi => ?_
  intro zero
  simp [zero] at hi

theorem support_update_finite [DecidableEq α] (hf : (support amount).Finite) (a : α)
    (value : Int64) : (support (update amount a value)).Finite := by
  refine (hf.insert a).subset fun x hi => ?_
  by_cases same : x = a
  · exact .inl same
  · rw [mem_support, update_of_ne same] at hi
    exact .inr hi

theorem total_update_of_mem [DecidableEq α] {counted : Set α} (hf : (support amount).Finite)
    {a : α} (hm : a ∈ counted) (value : Int64) :
    total counted (update amount a value) = total counted amount - (amount a).toInt +
    value.toInt := by
  have hs : (counted.indicator fun x => (update amount a value x).toInt) =
      update (counted.indicator fun x => (amount x).toInt) a value.toInt := by
    funext x
    by_cases same : x = a
    · subst same
      simp [hm]
    · simp [same, Set.indicator]
  rw [total, hs, finsum_update _ (support_indicator_finite counted hf), total]
  simp [hm]

theorem total_update_of_notMem [DecidableEq α] {counted : Set α} (amount : α → Int64) {a : α}
    (ho : a ∉ counted) (value : Int64) :
    total counted (update amount a value) = total counted amount := by
  unfold total
  congr 1
  funext x
  by_cases same : x = a
  · subst same
    simp [ho]
  · simp [same, Set.indicator]

/-- Emptying an account is not counting it. -/
theorem total_update_zero [DecidableEq α] (counted : Set α) (amount : α → Int64) (a : α) :
    total counted (update amount a 0) = total (counted \ {a}) amount := by
  unfold total
  congr 1
  funext x
  by_cases same : x = a
  · subst same
    simp [Set.indicator]
  · by_cases member : x ∈ counted <;> simp [same, member]

theorem total_diff_singleton [DecidableEq α] {counted : Set α} (hf : (support amount).Finite)
    {a : α} (hm : a ∈ counted) :
    total (counted \ {a}) amount = total counted amount - (amount a).toInt := by
  rw [← total_update_zero, total_update_of_mem hf hm]
  simp

end Totals

end HNBChain.Lib.Amounts
