import HNBChain.Audit.Guarantees.VrfCompleteness

/-!
# Who can compute the random value

`hashToCurve` multiplies the base point by the hash of the public key and the message. The secret
multiple of that point is then the multiple of the public key by the same hash: everybody can
compute the value, and who is chosen by it, from the public key and the message.

Of all ways to get the value from two multiples, of the base point and of the public key, by numbers
or hashes of texts made from public data, it is the only one.
-/
namespace HNBChain.Audit.Guarantees.VrfPrediction

open Lib Octets Source.Algorand.Vrf VrfCompleteness

/-- A factor that is public: a number, or the hash of a text made from the encoded public key and
the message. -/
inductive Factor where
  | fixed (k : Nat)
  | hashed (text : (pub m : Bytes) → Bytes)

section

variable {P : Type} [AddCommGroup P]

def Factor.value (curve : Curve P) (h : VrfHash) (pub : P) (m : Bytes) : Factor → Nat
  | .fixed k => k
  | .hashed text => ofBigEndian (h.sum (text (curve.marshal pub) m))

/-- For all hashes, keys and messages, the value is the sum of the two multiples. -/
def Predicts [DecidableEq P] (curve : Curve P) (a b : Factor) : Prop :=
  ∀ (h : VrfHash) (pri : PrivateKey curve) (r m vrf nizk : Bytes), r.length = byteLen →
    computeVRF curve h pri r m = .ok (vrf, nizk) →
    curve.unmarshal vrf = some (a.value curve h pri.pub m • curve.base +
      b.value curve h pri.pub m • pri.pub)

/-- The hash of the public key followed by the message. -/
def IsMessageHash (curve : Curve P) : Factor → Prop
  | .fixed _ => False
  | .hashed text => ∀ (pri : PrivateKey curve) (m : Bytes),
      text (curve.marshal pri.pub) m = curve.marshal pri.pub ++ m

/-- A multiple of the order. -/
def IsZero (curve : Curve P) : Factor → Prop
  | .fixed k => curve.order ∣ k
  | .hashed _ => False

/-! ## The value -/

variable {curve : Curve P} {h : VrfHash}

theorem computeVRF_value [DecidableEq P] {pri : PrivateKey curve} {r m vrf nizk : Bytes}
    (length : r.length = byteLen) (hc : computeVRF curve h pri r m = .ok (vrf, nizk)) :
    vrf = curve.marshal (pri.d • messagePoint curve h pri.pub m) := by
  have point : messagePoint curve h pri.pub m ≠ 0 := by
    intro zero
    unfold computeVRF evaluate at hc
    simp only [hashToCurve_ok, bind, Except.bind, scalarMult_ok (order_fits pri.below), zero,
      smul_zero, if_pos] at hc
    cases hc
  cases challenged : challenge curve h pri r m with
  | ok s =>
    obtain ⟨_, _, _, _, _, _, _, same⟩ := computeVRF_ok pri length point challenged
    rw [hc] at same
    exact congrArg Prod.fst (Except.ok.inj same)
  | error e =>
    rw [computeVRF_error pri length point challenged] at hc
    cases hc

variable (pri : PrivateKey curve)

/-- The secret multiple of the point is a multiple of the public key. -/
theorem secret_messagePoint (m : Bytes) : pri.d • messagePoint curve h pri.pub m = ofBigEndian
    (h.sum (curve.marshal pri.pub ++ m)) • pri.pub := by
  rw [messagePoint, pri.matching, smul_comm]

theorem predicts_messageHash [DecidableEq P] {a b : Factor} (zero : IsZero curve a)
    (hash : IsMessageHash curve b) : Predicts curve a b := by
  intro h pri r m vrf nizk length hc
  cases a with
  | hashed text => exact absurd zero id
  | fixed k =>
    cases b with
    | fixed l => exact absurd hash id
    | hashed text =>
      have vanishes : k • curve.base = 0 := by
        obtain ⟨l, rfl⟩ := zero
        rw [mul_comm, mul_smul, curve.order_base, smul_zero]
      have same := hash pri m
      rw [computeVRF_value length hc, curve.unmarshal_marshal, secret_messagePoint]
      simp only [Factor.value, vanishes, zero_add, same]

/-! ## Other factors -/

/-- The hash that is `c` for one text and `c'` for all others. -/
def prescribed (text : Bytes) (c c' : Nat) : VrfHash where
  sum m := bigEndian byteLen (if m = text then c else c')
  length_sum _ := length_bigEndian _ _

theorem sum_prescribed (text m : Bytes) {c c' : Nat} (low : c ≤ 2) (low' : c' ≤ 2) :
    ofBigEndian ((prescribed text c c').sum m) = if m = text then c else c' := by
  refine ofBigEndian_bigEndian _ _ ?_
  have two : 2 < 256 ^ byteLen := by norm_num [byteLen]
  split <;> omega

/-- With small hashes, there is a value. -/
theorem computeVRF_small [DecidableEq P] (m : Bytes)
    (hpo : ∀ text, 0 < ofBigEndian (h.sum text)) (low : ∀ text, ofBigEndian (h.sum text) ≤ 2) :
    ∃ nizk, computeVRF curve h pri (bigEndian byteLen 1) m =
      .ok (curve.marshal (pri.d • messagePoint curve h pri.pub m), nizk) := by
  have large := curve.large
  have point : messagePoint curve h pri.pub m ≠ 0 := by
    intro zero
    have least := hpo (curve.marshal pri.pub ++ m)
    have most := low (curve.marshal pri.pub ++ m)
    exact Nat.not_dvd_of_pos_of_lt least (by omega) ((curve.smul_eq_zero curve.base_ne).mp zero)
  have hch : ∃ s, challenge curve h pri (bigEndian byteLen 1) m = .ok s := by
    have h1 := low (bigEndian 4 0 ++ challengeText curve h pri (bigEndian byteLen 1) m)
    refine ⟨ofBigEndian (h.sum (bigEndian 4 0 ++ challengeText curve h pri
      (bigEndian byteLen 1) m)) + 1, ?_⟩
    unfold challenge hashToInt
    rw [show (2 ^ 32 : Nat) = (2 ^ 32 - 1) + 1 from rfl]
    unfold hashToIntFrom
    rw [if_pos (by omega)]
  obtain ⟨s, hch⟩ := hch
  obtain ⟨_, _, _, _, _, _, _, hc⟩ :=
    computeVRF_ok pri (length_bigEndian _ _) point hch
  exact ⟨_, hc⟩

/-- What a prediction says of the factors, as numbers modulo the order. -/
theorem Predicts.equation [DecidableEq P] {a b : Factor} (hp : Predicts curve a b)
    (pri : PrivateKey curve) (m : Bytes)
    (hpo : ∀ text, 0 < ofBigEndian (h.sum text)) (low : ∀ text, ofBigEndian (h.sum text) ≤ 2) :
    (a.value curve h pri.pub m + b.value curve h pri.pub m * pri.d : ZMod curve.order) =
      ofBigEndian (h.sum (curve.marshal pri.pub ++ m)) * pri.d := by
  obtain ⟨nizk, hc⟩ := computeVRF_small pri m hpo low
  have sum := hp h pri _ m _ nizk (length_bigEndian _ _) hc
  rw [curve.unmarshal_marshal, secret_messagePoint, pri.matching, ← mul_smul, ← mul_smul,
    ← add_smul] at sum
  have congruent := curve.smul_base_inj (Option.some.inj sum)
  rw [← pri.matching] at congruent
  have cast := (ZMod.natCast_eq_natCast_iff _ _ _).mpr congruent
  push_cast at cast
  exact cast.symm

/-- The hash of the key and the message is 1 or 2, all others are 1. -/
theorem Predicts.prescribed [DecidableEq P] {a b : Factor} (hp : Predicts curve a b)
    (pri : PrivateKey curve) (m : Bytes) {c : Nat} (hpo : 0 < c) (low : c ≤ 2) :
    (a.value curve (prescribed (curve.marshal pri.pub ++ m) c 1) pri.pub m +
      b.value curve (prescribed (curve.marshal pri.pub ++ m) c 1) pri.pub m * pri.d :
      ZMod curve.order) = c * pri.d := by
  have sums (text : Bytes) := sum_prescribed (curve.marshal pri.pub ++ m) text low
    (le_of_lt one_lt_two)
  have equation := hp.equation pri m
    (h := VrfPrediction.prescribed (curve.marshal pri.pub ++ m) c 1)
    (fun text => by rw [sums]; split <;> omega) (fun text => by rw [sums]; split <;> omega)
  rwa [sums, if_pos rfl] at equation

theorem value_hashed {text : (pub m : Bytes) → Bytes} {pri : PrivateKey curve} {m : Bytes} {c : Nat}
    (low : c ≤ 2) :
    (Factor.hashed text).value curve (prescribed (curve.marshal pri.pub ++ m) c 1) pri.pub m =
      if text (curve.marshal pri.pub) m = curve.marshal pri.pub ++ m then c else 1 :=
  sum_prescribed _ _ low (le_of_lt one_lt_two)

theorem value_fixed (k : Nat) (pub : P) (m : Bytes) :
    (Factor.fixed k).value curve h pub m = k := rfl

theorem secret_cast_ne : (pri.d : ZMod curve.order) ≠ 0 := by
  rw [Ne, ZMod.natCast_eq_zero_iff]
  exact Nat.not_dvd_of_pos_of_lt pri.positive pri.below

/-- The key with this secret. -/
def keyOf (curve : Curve P) (d : Nat) (positive : 0 < d) (below : d < curve.order) :
    PrivateKey curve :=
  ⟨d, d • curve.base, positive, below, rfl⟩

/-- One sum cannot be two different multiples of the secret. -/
theorem not_both {x : ZMod curve.order} (one : x = (1 : Nat) * pri.d)
    (two : x = (2 : Nat) * pri.d) : False := by
  refine secret_cast_ne pri ?_
  linear_combination one - two

theorem one_ne (curve : Curve P) : (1 : ZMod curve.order) ≠ 0 := by
  have : Fact curve.order.Prime := ⟨curve.prime⟩
  exact one_ne_zero

/-- A number as the factor of the base point is a multiple of the order, and the other factor is the
hash. -/
theorem Predicts.of_fixed [DecidableEq P] {k : Nat} {b : Factor}
    (hp : Predicts curve (.fixed k) b) : IsZero curve (.fixed k) ∧ IsMessageHash curve b := by
  have large := curve.large
  have key : PrivateKey curve := keyOf curve 1 one_pos (by omega)
  cases b with
  | fixed l =>
    have one := hp.prescribed key [] one_pos one_le_two
    have two := hp.prescribed key [] two_pos le_rfl
    rw [value_fixed, value_fixed] at one two
    exact (not_both key one two).elim
  | hashed text =>
    have hash : IsMessageHash curve (.hashed text) := by
      intro pri m
      by_contra other
      have one := hp.prescribed pri m one_pos one_le_two
      have two := hp.prescribed pri m two_pos le_rfl
      rw [value_fixed, value_hashed one_le_two, if_neg other] at one
      rw [value_fixed, value_hashed le_rfl, if_neg other] at two
      exact not_both pri one two
    have one := hp.prescribed key [] one_pos one_le_two
    rw [value_fixed, value_hashed one_le_two, if_pos (hash key [])] at one
    exact ⟨(ZMod.natCast_eq_zero_iff _ _).mp (by linear_combination one), hash⟩

/-- A hash as the factor of the base point would have to be that of the key and the message. -/
theorem Predicts.hashed_own [DecidableEq P] {f : (pub m : Bytes) → Bytes} {b : Factor}
    (hp : Predicts curve (.hashed f) b) : IsMessageHash curve (.hashed f) := by
  intro pri m
  by_contra other
  have one := hp.prescribed pri m one_pos one_le_two
  have two := hp.prescribed pri m two_pos le_rfl
  rw [value_hashed one_le_two, if_neg other] at one
  rw [value_hashed le_rfl, if_neg other] at two
  cases b with
  | fixed l =>
    rw [value_fixed] at one two
    exact not_both pri one two
  | hashed g =>
    rw [value_hashed one_le_two] at one
    rw [value_hashed le_rfl] at two
    by_cases same : g (curve.marshal pri.pub) m = curve.marshal pri.pub ++ m
    · rw [if_pos same] at one
      refine one_ne curve ?_
      linear_combination one
    · rw [if_neg same] at one two
      exact not_both pri one two

/-- But that does not do for the secret 2. -/
theorem Predicts.not_hashed [DecidableEq P] {f : (pub m : Bytes) → Bytes} {b : Factor}
    (hp : Predicts curve (.hashed f) b) : False := by
  have large := curve.large
  have own := hp.hashed_own
  let key : PrivateKey curve := keyOf curve 2 two_pos (by omega)
  have secret : (key.d : ZMod curve.order) = 2 := Nat.cast_ofNat
  have one := hp.prescribed key [] one_pos one_le_two
  have two := hp.prescribed key [] two_pos le_rfl
  rw [value_hashed one_le_two, if_pos (own key []), secret] at one
  rw [value_hashed le_rfl, if_pos (own key []), secret] at two
  refine one_ne curve ?_
  cases b with
  | fixed l =>
    rw [value_fixed] at one two
    linear_combination one - two
  | hashed g =>
    rw [value_hashed one_le_two] at one
    by_cases same : g (curve.marshal key.pub) [] = curve.marshal key.pub ++ []
    · rw [if_pos same] at one
      linear_combination one
    · rw [if_neg same] at one
      linear_combination one

end

/-- Two public factors give the value of all keys and messages for all hashes exactly if the one of
the base point is zero and the one of the public key is the hash of the key and the message. -/
theorem predicts_iff {P : Type} [AddCommGroup P] [DecidableEq P] (curve : Curve P) (a b : Factor) :
    Predicts curve a b ↔ IsZero curve a ∧ IsMessageHash curve b := by
  refine ⟨fun hp => ?_, fun ⟨zero, hash⟩ => predicts_messageHash zero hash⟩
  cases a with
  | fixed k => exact hp.of_fixed
  | hashed f => exact hp.not_hashed.elim

/-- The value stays hidden from all other pairs of factors. -/
theorem not_predicts_iff {P : Type} [AddCommGroup P] [DecidableEq P] (curve : Curve P)
    (a b : Factor) : ¬ Predicts curve a b ↔ ¬ (IsZero curve a ∧ IsMessageHash curve b) :=
  not_congr (predicts_iff curve a b)

/-! ## The hash gives the value away -/

def keyAndMessage : Factor := .hashed fun pub m => pub ++ m

theorem five_predicted : Predicts five (.fixed 0) keyAndMessage ∧
    ∃ vrf nizk, computeVRF five oneHash secretTwo (bigEndian byteLen 1) [] = .ok (vrf, nizk) ∧
      five.unmarshal vrf = some ((1 : Nat) • secretTwo.pub) := by
  have one (m : Bytes) : ofBigEndian (oneHash.sum m) = 1 := ofBigEndian_bigEndian 32 1 (by norm_num)
  refine ⟨predicts_messageHash (dvd_zero _) fun _ _ => rfl, ?_⟩
  obtain ⟨nizk, hc⟩ := computeVRF_small secretTwo [] (fun m => by rw [one]; exact one_pos)
    fun m => by rw [one]; exact one_le_two
  exact ⟨_, nizk, hc, by rw [five.unmarshal_marshal, secret_messagePoint, one]⟩

end HNBChain.Audit.Guarantees.VrfPrediction
