import HNBChain.Lib.Octets

/-!
# Groups of prime order, and numbers as scalars

In a group of prime order, multiples of a point depend on the factor modulo the order only, and a
factor that is not divisible by the order keeps a point other than zero from becoming zero.

A number is written with as many octets as it needs, none for zero, or with zeros in front up to a
fixed length; what is read back is the same.
-/
namespace HNBChain.Lib

/-- A group that a point of prime order generates. -/
structure PrimeGroup (P : Type) [AddCommGroup P] where
  order : Nat
  base : P
  prime : order.Prime
  order_base : order • base = 0
  base_ne : base ≠ 0
  generated : ∀ p : P, ∃ k : Nat, p = k • base

namespace PrimeGroup

variable {P : Type} [AddCommGroup P] (group : PrimeGroup P)

theorem order_smul (p : P) : group.order • p = 0 := by
  obtain ⟨k, rfl⟩ := group.generated p
  rw [smul_comm, group.order_base, smul_zero]

theorem smul_congr {a b : Nat} (same : a ≡ b [MOD group.order]) (p : P) : a • p = b • p := by
  have remainder (k : Nat) : k • p = (k % group.order) • p := by
    conv_lhs => rw [← Nat.mod_add_div k group.order, add_smul, mul_smul, smul_comm,
      group.order_smul, smul_zero, add_zero]
  rw [remainder a, remainder b, show a % group.order = b % group.order from same]

/-- A multiple of a point is zero only for a multiple of the order. -/
theorem smul_eq_zero {k : Nat} {p : P} (point : p ≠ 0) : k • p = 0 ↔ group.order ∣ k := by
  have : Fact group.order.Prime := ⟨group.prime⟩
  have order : addOrderOf p = group.order := addOrderOf_eq_prime (group.order_smul p) point
  rw [← order]
  exact addOrderOf_dvd_iff_nsmul_eq_zero.symm

/-- Multiples of the base are equal for factors that are congruent only. -/
theorem smul_base_inj {a b : Nat} (same : a • group.base = b • group.base) :
    a ≡ b [MOD group.order] := by
  have : Fact group.order.Prime := ⟨group.prime⟩
  have order : addOrderOf group.base = group.order :=
    addOrderOf_eq_prime group.order_base group.base_ne
  rw [← order]
  exact nsmul_eq_nsmul_iff_modEq.mp same

end PrimeGroup

namespace Octets

/-- As many octets as the number needs. -/
def natBytes (n : Nat) : Bytes := (bigEndian (n.log2 / 8 + 1) n).dropWhile (· = 0)

/-- Zeros in front up to the length; none if there are more octets than that. -/
def leftPad (length : Nat) (bytes : Bytes) : Option Bytes :=
  if bytes.length ≤ length then some (List.replicate (length - bytes.length) 0 ++ bytes) else none

theorem ofBigEndian_cons_zero (bytes : Bytes) : ofBigEndian (0 :: bytes) = ofBigEndian bytes := rfl

theorem ofBigEndian_zeros (k : Nat) (bytes : Bytes) :
    ofBigEndian (List.replicate k 0 ++ bytes) = ofBigEndian bytes := by
  induction k with
  | zero => rfl
  | succ k ih => rw [List.replicate_succ, List.cons_append, ofBigEndian_cons_zero, ih]

theorem ofBigEndian_dropWhile (bytes : Bytes) :
    ofBigEndian (bytes.dropWhile (· = 0)) = ofBigEndian bytes := by
  induction bytes with
  | nil => rfl
  | cons b rest ih =>
    by_cases zero : b = 0
    · subst zero
      rw [List.dropWhile_cons_of_pos (by simp), ih, ofBigEndian_cons_zero]
    · rw [List.dropWhile_cons_of_neg (by simpa using zero)]

theorem lt_pow_octets (n : Nat) : n < 256 ^ (n.log2 / 8 + 1) := by
  calc n < 2 ^ (n.log2 + 1) := Nat.lt_log2_self
    _ ≤ 2 ^ (8 * (n.log2 / 8 + 1)) := Nat.pow_le_pow_right (by decide) (by omega)
    _ = 256 ^ (n.log2 / 8 + 1) := by rw [pow_mul]; norm_num

theorem ofBigEndian_natBytes (n : Nat) : ofBigEndian (natBytes n) = n := by
  rw [natBytes, ofBigEndian_dropWhile, ofBigEndian_bigEndian _ _ (lt_pow_octets n)]

theorem length_natBytes_le {n k : Nat} (hp : 0 < k) (fits : n < 256 ^ k) :
    (natBytes n).length ≤ k := by
  have hs : (natBytes n).length ≤ n.log2 / 8 + 1 := by
    have sublist := (List.dropWhile_sublist (· = (0 : UInt8))
      (l := bigEndian (n.log2 / 8 + 1) n)).length_le
    rwa [length_bigEndian] at sublist
  refine hs.trans ?_
  have bits : n.log2 < 8 * k := by
    by_cases zero : n = 0
    · subst zero
      simpa using hp
    · rw [Nat.log2_lt zero, pow_mul]
      exact fits
  omega

/-- A number that fits, padded. -/
theorem leftPad_natBytes {n k : Nat} (hp : 0 < k) (fits : n < 256 ^ k) :
    ∃ padded, leftPad k (natBytes n) = some padded ∧ padded.length = k ∧
    ofBigEndian padded = n := by
  have short := length_natBytes_le hp fits
  refine ⟨_, if_pos short, ?_, ?_⟩
  · rw [List.length_append, List.length_replicate]
    omega
  · rw [ofBigEndian_zeros, ofBigEndian_natBytes]

end Octets

end HNBChain.Lib
