import HNBChain.Audit.Source.Algorand.ValidatorOrder

/-!
# Saturating arithmetic

The checked operations on int64 behind the priorities and the total power. Each detects the overflow
of the machine operation and then answers with the bound on the side of the exact result.
-/
namespace HNBChain.Audit.Guarantees.SaturatingArithmetic

open Source.Algorand

variable (a b : Int64)

theorem toInt_range : -2 ^ 63 ≤ a.toInt ∧ a.toInt < 2 ^ 63 := ⟨a.le_toInt, a.toInt_lt⟩

def Fits (n : Int) : Prop := -2 ^ 63 ≤ n ∧ n < 2 ^ 63

/-- Beyond the range, the bound of the sign is the clipped value. -/
theorem bound_eq {n : Int} {negative : Prop} [Decidable negative] (ho : ¬ Fits n)
    (sign : negative ↔ n < 0) :
    (if negative then Int64.minValue else .maxValue).toInt = clip n := by
  unfold Fits at ho
  unfold clip
  split_ifs with below
  · have := sign.mp below
    rw [Int64.toInt_minValue]
    omega
  · have := mt sign.mpr below
    rw [Int64.toInt_maxValue]
    omega

theorem wrapped_eq {n : Int} {result : Int64} (wraps : result.toInt = n.bmod (2 ^ 64))
    (hi : Fits n) : result.toInt = clip n := by
  obtain ⟨low, high⟩ := hi
  rw [wraps, clip_eq low high, Int.bmod_eq_of_le (by omega) (by omega)]

/-- The shape of the sum and of the difference: two conditions find the overflow on either side. -/
theorem saturated {n : Int} {up down : Prop} [Decidable up] [Decidable down] {bound result : Int64}
    (hf : up ∨ down ↔ ¬ Fits n) (hb : ¬ Fits n → bound.toInt = clip n)
    (wraps : result.toInt = n.bmod (2 ^ 64)) :
    (match (if up then (-1, true) else if down then (-1, true)
      else (result, false) : Int64 × Bool) with
      | (c, overflow) => if overflow then bound else c).toInt = clip n := by
  by_cases hi : Fits n
  · obtain ⟨low, high⟩ := not_or.mp (mt hf.mp (not_not.mpr hi))
    rw [if_neg low, if_neg high]
    exact wrapped_eq wraps hi
  · rcases hf.mpr hi with raised | raised
    · rw [if_pos raised]
      exact hb hi
    · rw [if_pos raised, ite_self]
      exact hb hi

theorem safeAddClip_eq : (safeAddClip a b).toInt = clip (a.toInt + b.toInt) := by
  have range := toInt_range a
  have range' := toInt_range b
  refine saturated ?_ (fun ho => bound_eq ho ?_) (Int64.toInt_add a b)
  · simp only [Fits, Int64.lt_iff_toInt_lt, Int64.toInt_sub, Int64.toInt_maxValue,
      Int64.toInt_minValue,
      Int64.toInt_zero, Int.bmod_def]
    omega
  · unfold Fits at ho
    rw [Int64.lt_iff_toInt_lt, Int64.toInt_zero]
    omega

theorem safeSubClip_eq : (safeSubClip a b).toInt = clip (a.toInt - b.toInt) := by
  have range := toInt_range a
  have range' := toInt_range b
  refine saturated ?_ (fun ho => bound_eq ho ?_) (Int64.toInt_sub a b)
  · simp only [Fits, Int64.lt_iff_toInt_lt, Int64.toInt_add, Int64.toInt_maxValue,
      Int64.toInt_minValue,
      Int64.toInt_zero, Int.bmod_def]
    omega
  · unfold Fits at ho
    rw [Int64.lt_iff_toInt_lt, Int64.toInt_zero]
    omega

/-- A product that wraps around is off by at least 2^64, which no division by the factor gives
back. -/
theorem safeMul_overflow {a b : Int64} (zero : b ≠ 0) (one : b ≠ 1) (lowest : a ≠ .minValue) :
    a * b / b = a ↔ Fits (a.toInt * b.toInt) := by
  unfold Fits
  have range := toInt_range a
  have range' := toInt_range b
  have nonzero : b.toInt ≠ 0 := fun same => zero (Int64.toInt_inj.mp same)
  have nonone : b.toInt ≠ 1 := fun same => one (Int64.toInt_inj.mp same)
  have ha : a.toInt ≠ -2 ^ 63 := fun same => lowest (Int64.toInt_inj.mp same)
  rw [← Int64.toInt_inj, Int64.toInt_div, Int64.toInt_mul]
  generalize a.toInt = a at *
  generalize b.toInt = b at *
  constructor
  · intro quotient
    by_cases minus : b = -1
    · subst minus
      omega
    have wrapped : -2 ^ 63 ≤ (a * b).bmod (2 ^ 64) ∧ (a * b).bmod (2 ^ 64) < 2 ^ 63 ∧
        (2 ^ 64 : Int) ∣ a * b - (a * b).bmod (2 ^ 64) := by
      rw [Int.bmod_def]
      omega
    obtain ⟨low, high, off⟩ := wrapped
    generalize (a * b).bmod (2 ^ 64) = c at *
    have split := Int.mul_tdiv_add_tmod c b
    have half : (c.tdiv b).natAbs ≤ c.natAbs / 2 := by
      rw [Int.natAbs_tdiv]
      exact Nat.div_le_div_left (by omega) (by decide)
    rw [Int.bmod_eq_of_le (by omega) (by omega)] at quotient
    have hs : (c.tmod b).natAbs < b.natAbs := by
      rw [Int.natAbs_tmod]
      exact Nat.mod_lt _ (by omega)
    rw [quotient, mul_comm] at split
    omega
  · rintro ⟨low, high⟩
    have kept : (a * b).bmod (2 ^ 64) = a * b := Int.bmod_eq_of_le (by omega) (by omega)
    rw [kept, Int.mul_tdiv_cancel _ nonzero, Int.bmod_eq_of_le (by omega) (by omega)]

theorem safeMulClip_eq : (safeMulClip a b).toInt = clip (a.toInt * b.toInt) := by
  have range := toInt_range a
  have range' := toInt_range b
  have beyond (ho : ¬ Fits (a.toInt * b.toInt)) :
      (if (a < 0 ∨ b < 0) ∧ ¬ (a < 0 ∧ b < 0) then Int64.minValue else .maxValue).toInt = clip
          (a.toInt * b.toInt) := by
    have nonzero : a.toInt * b.toInt ≠ 0 := fun zero => ho (zero ▸ ⟨by decide, by decide⟩)
    have hap := mul_ne_zero_iff.mp nonzero
    refine bound_eq ho ?_
    rw [mul_neg_iff, Int64.lt_iff_toInt_lt, Int64.lt_iff_toInt_lt, Int64.toInt_zero]
    omega
  unfold safeMulClip safeMul
  by_cases zero : a = 0 ∨ b = 0
  · rw [if_pos zero]
    rcases zero with rfl | rfl <;> simp [clip]
  rw [if_neg zero]
  by_cases first : a = 1
  · subst first
    rw [if_pos rfl, Int64.toInt_one, one_mul, clip_eq range'.1 range'.2]
    rfl
  rw [if_neg first]
  by_cases second : b = 1
  · subst second
    rw [if_pos rfl, Int64.toInt_one, mul_one, clip_eq range.1 range.2]
    rfl
  rw [if_neg second]
  by_cases lowest : a = .minValue ∨ b = .minValue
  · rw [if_pos lowest]
    refine beyond fun ⟨low, high⟩ => ?_
    simp only [← Int64.toInt_inj, Int64.toInt_zero, Int64.toInt_one, Int64.toInt_minValue]
      at zero first second lowest
    rcases lowest with least | least
    · rw [least] at low high
      omega
    · rw [least] at low high
      omega
  rw [if_neg lowest]
  have fits := safeMul_overflow (fun same => zero (.inr same)) second fun same => lowest (.inl same)
  by_cases whole : a * b / b = a
  · simp only [whole, ne_eq, not_true, decide_false, Bool.false_eq_true, if_false]
    exact wrapped_eq (Int64.toInt_mul a b) (fits.mp whole)
  · simp only [whole, ne_eq, not_false_iff, decide_true, if_true]
    exact beyond (mt fits.mpr whole)

/-- The operations give the exact result, clipped to the range of an int64. -/
theorem safe_clipped : (safeAddClip a b).toInt = clip (a.toInt + b.toInt) ∧
    (safeSubClip a b).toInt = clip (a.toInt - b.toInt) ∧
    (safeMulClip a b).toInt = clip (a.toInt * b.toInt) :=
  ⟨safeAddClip_eq a b, safeSubClip_eq a b, safeMulClip_eq a b⟩

end HNBChain.Audit.Guarantees.SaturatingArithmetic
