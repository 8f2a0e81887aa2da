import HNBChain.Audit.Source.Algorand.Vrf

/-!
# Proofs of the random function are accepted

A verifier takes `t` and `s` out of the proof and forms `[t]G + [s]PK` and `[t]H + [s]VRF`, which
are `[r]G` and `[r]H` if `t` is `r - s * d` modulo the order. The challenge is then hashed from the
same octets as by the prover. Scalars are padded in the same way on both sides, so that leading
zeros make no difference.
-/
namespace HNBChain.Audit.Guarantees.VrfCompleteness

open Lib Octets Source.Algorand.Vrf List

section

variable {P : Type} [AddCommGroup P] {curve : Curve P} {h : VrfHash}

/-- The response of the prover to the challenge `s`. -/
def response (curve : Curve P) (d r s : Nat) : Nat := (((r : Int) - s * d) % curve.order).toNat

theorem order_pos (curve : Curve P) : (0 : Int) < curve.order := Int.natCast_pos.mpr curve.prime.pos

theorem response_lt (d r s : Nat) : response curve d r s < curve.order := by
  have hb := Int.emod_lt_of_pos ((r : Int) - s * d) (order_pos curve)
  have hn := Int.emod_nonneg ((r : Int) - s * d) (order_pos curve).ne'
  unfold response
  omega

/-- Response and challenge make up for the randomness. -/
theorem response_modEq (d r s : Nat) : response curve d r s + s * d ≡ r [MOD curve.order] := by
  rw [← Int.natCast_modEq_iff, Nat.cast_add, Nat.cast_mul, response,
    Int.toNat_of_nonneg (Int.emod_nonneg _ (order_pos curve).ne')]
  calc ((r : Int) - s * d) % curve.order + s * d
      ≡ ((r : Int) - s * d) + s * d [ZMOD curve.order] := (Int.mod_modEq _ _).add_right _
    _ = r := by ring

theorem opened (d r s : Nat) (p : P) : response curve d r s • p + s • (d • p) = r • p := by
  rw [← mul_smul, ← add_smul]
  exact curve.smul_congr (response_modEq d r s) p

variable (pri : PrivateKey curve)

/-- The secret multiple of a point that is not zero is not zero. -/
theorem secret_ne {p : P} (point : p ≠ 0) : pri.d • p ≠ 0 := by
  intro zero
  exact Nat.not_dvd_of_pos_of_lt pri.positive pri.below ((curve.smul_eq_zero point).mp zero)

theorem order_fits {n : Nat} (hb : n < curve.order) : (natBytes n).length ≤ byteLen :=
  length_natBytes_le (by decide) (hb.trans curve.small)

/-- What the prover hashes for the challenge. -/
def challengeText (curve : Curve P) (h : VrfHash) (pri : PrivateKey curve) (r m : Bytes) : Bytes :=
  let point := messagePoint curve h pri.pub m
  transcript curve point pri.pub (curve.marshal (pri.d • point)) (ofBigEndian r • curve.base)
    (ofBigEndian r • point)

def challenge (curve : Curve P) (h : VrfHash) (pri : PrivateKey curve) (r m : Bytes) :
    Except VrfErr Nat :=
  hashToInt curve h (challengeText curve h pri r m)

theorem hashToInt_lt {m : Bytes} {s : Nat} (hfo : hashToInt curve h m = .ok s) :
    s < curve.order := by
  unfold hashToInt at hfo
  cases search : hashToIntFrom curve h m (2 ^ 32) 0 with
  | none =>
    rw [search] at hfo
    cases hfo
  | some k =>
    rw [search] at hfo
    cases hfo
    exact hashToIntFrom_lt search

theorem hashToInt_error {m : Bytes} {e : VrfErr} (hf : hashToInt curve h m = .error e) :
    e = .hangs ∧ ∀ i < 2 ^ 32, curve.order - 1 ≤ ofBigEndian (h.sum (bigEndian 4 i ++ m)) := by
  unfold hashToInt at hf
  cases search : hashToIntFrom curve h m (2 ^ 32) 0 with
  | none =>
    rw [search] at hf
    cases hf
    exact ⟨rfl, fun i hb => hashToIntFrom_none.mp search i (Nat.zero_le _)
      (by rwa [Nat.zero_add])⟩
  | some k =>
    rw [search] at hf
    cases hf

/-- The course of the prover, up to the challenge and from there on. -/
theorem evaluate_eq [DecidableEq P] {r m : Bytes} (length : r.length = byteLen)
    (point : messagePoint curve h pri.pub m ≠ 0) : evaluate curve h pri r m =
      (challenge curve h pri r m).bind fun s => (padScalar s).bind fun sBytes =>
          (padScalar (response curve pri.d (ofBigEndian r) s)).bind fun tBytes =>
            .ok (sBytes ++ tBytes ++ curve.marshal (pri.d • messagePoint curve h pri.pub m)) := by
  unfold evaluate
  simp only [hashToCurve_ok, bind, Except.bind, scalarMult_ok (order_fits pri.below),
    scalarMult_ok length.le,
    ofBigEndian_natBytes]
  rw [if_neg (secret_ne pri point)]
  rfl

/-- What the prover writes, once there is a challenge. -/
theorem computeVRF_ok [DecidableEq P] {r m : Bytes} (length : r.length = byteLen)
    (point : messagePoint curve h pri.pub m ≠ 0) {s : Nat}
    (hch : challenge curve h pri r m = .ok s) :
    ∃ sBytes tBytes, padScalar s = .ok sBytes ∧ sBytes.length = byteLen ∧ ofBigEndian sBytes = s ∧
      tBytes.length = byteLen ∧ ofBigEndian tBytes = response curve pri.d (ofBigEndian r) s ∧
      computeVRF curve h pri r m = .ok (curve.marshal (pri.d • messagePoint curve h pri.pub m),
        sBytes ++ tBytes) := by
  obtain ⟨sBytes, sPadded, sLength, sValue⟩ := padScalar_ok curve (hashToInt_lt hch)
  obtain ⟨tBytes, tPadded, tLength, tValue⟩ :=
    padScalar_ok curve (response_lt pri.d (ofBigEndian r) s)
  refine ⟨sBytes, tBytes, sPadded, sLength, sValue, tLength, tValue, ?_⟩
  have both : (sBytes ++ tBytes).length = 2 * byteLen := by
    rw [length_append, sLength, tLength]
    omega
  unfold computeVRF
  rw [evaluate_eq pri length point, hch]
  simp only [Except.bind, sPadded, tPadded, bind, pure, Except.pure]
  rw [drop_left' both, take_left' both, take_of_length_le (curve.length_marshal _).le]

theorem computeVRF_error [DecidableEq P] {r m : Bytes} (length : r.length = byteLen)
    (point : messagePoint curve h pri.pub m ≠ 0) {e : VrfErr}
    (hf : challenge curve h pri r m = .error e) : computeVRF curve h pri r m = .error e := by
  unfold computeVRF
  rw [evaluate_eq pri length point, hf]
  rfl

/-- A proof is accepted if its first scalar is the challenge that the verifier comes to. -/
theorem verifyVRF_true (pk u : P) (m : Bytes) {sBytes tBytes : Bytes}
    (sLength : sBytes.length = byteLen)
    (tLength : tBytes.length = byteLen) (padded : padScalar (ofBigEndian sBytes) = .ok sBytes)
    (hch : hashToInt curve h (transcript curve (messagePoint curve h pk m) pk
      (curve.marshal u) (ofBigEndian tBytes • curve.base + ofBigEndian sBytes • pk)
      (ofBigEndian tBytes • messagePoint curve h pk m + ofBigEndian sBytes • u)) =
      .ok (ofBigEndian sBytes)) :
    verifyVRF curve h pk m (curve.marshal u) (sBytes ++ tBytes) = .ok true := by
  have both : (sBytes ++ tBytes).length = 2 * byteLen := by
    rw [length_append, sLength, tLength]
    omega
  have total : (sBytes ++ tBytes ++ curve.marshal u).length = 2 * byteLen + (2 * byteLen + 1) := by
    rw [length_append, both, curve.length_marshal]
  have sPart : (sBytes ++ tBytes ++ curve.marshal u).take byteLen = sBytes := by
    rw [append_assoc, take_left' sLength]
  have tPart : ((sBytes ++ tBytes ++ curve.marshal u).drop byteLen).take byteLen = tBytes := by
    rw [append_assoc, drop_left' sLength, take_left' tLength]
  have vrfPart : ((sBytes ++ tBytes ++ curve.marshal u).drop (2 * byteLen)).take
      (2 * byteLen + 1) = curve.marshal u := by
    rw [drop_left' both, take_of_length_le (curve.length_marshal u).le]
  have hc : proofToHash curve h pk m (sBytes ++ tBytes ++ curve.marshal u) = .ok () := by
    unfold proofToHash
    simp only [total, sPart, tPart, vrfPart, curve.unmarshal_marshal, scalarMult_ok sLength.le,
      scalarMult_ok tLength.le,
      hashToCurve_ok, bind, Except.bind, ne_eq, not_true_eq_false, if_false, pure, Except.pure]
    simp only [hch, padded, not_true_eq_false, if_false]
  unfold verifyVRF
  rw [if_neg (by simp only [curve.length_marshal, both, ne_eq, not_true_eq_false, or_self,
    not_false_eq_true])]
  simp only [hc, bind, Except.bind, pure, Except.pure]

end

/-- For every key, message and randomness, if the message is not hashed to the point at infinity:
what the prover computes is accepted; and it computes a proof, unless no value of the counter gives
a challenge below the order. -/
theorem computeVRF_accepted {P : Type} [AddCommGroup P] [DecidableEq P]
    (curve : Curve P) (h : VrfHash)
    (pri : PrivateKey curve) (r m : Bytes) (length : r.length = byteLen)
    (point : hashToCurve curve h (curve.marshal pri.pub ++ m) ≠ .ok 0) :
    (∃ vrf nizk, computeVRF curve h pri r m = .ok (vrf, nizk) ∧
      verifyVRF curve h pri.pub m vrf nizk = .ok true) ∨
    (computeVRF curve h pri r m = .error .hangs ∧ ∀ i < 2 ^ 32,
      curve.order - 1 ≤ ofBigEndian (h.sum (bigEndian 4 i ++ challengeText curve h pri r m))) := by
  have notZero : messagePoint curve h pri.pub m ≠ 0 := by
    intro zero
    rw [hashToCurve_ok, zero] at point
    exact point rfl
  cases challenged : challenge curve h pri r m with
  | ok s =>
    obtain ⟨sBytes, tBytes, padded, sLength, sValue, tLength, tValue, hco⟩ :=
      computeVRF_ok pri length notZero challenged
    refine .inl ⟨_, _, hco, verifyVRF_true pri.pub _ m sLength tLength
      (sValue.symm ▸ padded) ?_⟩
    -- the verifier comes to the points of the prover
    have base : ofBigEndian tBytes • curve.base + ofBigEndian sBytes • pri.pub =
        ofBigEndian r • curve.base := by
      rw [sValue, tValue, pri.matching]
      exact opened pri.d (ofBigEndian r) s curve.base
    have hashed : ofBigEndian tBytes • messagePoint curve h pri.pub m +
        ofBigEndian sBytes • (pri.d • messagePoint curve h pri.pub m) =
            ofBigEndian r • messagePoint curve h pri.pub m := by
      rw [sValue, tValue]
      exact opened pri.d (ofBigEndian r) s _
    rw [base, hashed, sValue]
    exact challenged
  | error e =>
    obtain ⟨rfl, great⟩ := hashToInt_error challenged
    exact .inr ⟨computeVRF_error pri length notZero challenged, great⟩

/-! ## A group of five points -/

def marshalFive (p : ZMod 5) : Bytes := 4 :: bigEndian 64 p.val

theorem fits_five (p : ZMod 5) : p.val < 256 ^ 64 := (ZMod.val_lt p).trans (by norm_num)

def five : Curve (ZMod 5) where
  order := 5
  base := 1
  prime := by norm_num
  order_base := rfl
  base_ne := by decide
  generated p := ⟨p.val, by rw [nsmul_eq_mul, mul_one, ZMod.natCast_zmod_val]⟩
  large := by norm_num
  small := by norm_num [byteLen]
  marshal := marshalFive
  unmarshal bytes := some (ofBigEndian bytes.tail : Nat)
  length_marshal p := by rw [marshalFive, length_cons, length_bigEndian]; rfl
  unmarshal_marshal p :=
    by rw [marshalFive, tail_cons, ofBigEndian_bigEndian _ _ (fits_five p), ZMod.natCast_zmod_val]

def oneHash : VrfHash := ⟨fun _ => bigEndian 32 1, fun _ => length_bigEndian _ _⟩

def secretTwo : PrivateKey five := ⟨2, 2, by decide, by decide, by decide⟩

theorem secretTwo_accepted : ∃ vrf nizk, computeVRF five oneHash secretTwo (bigEndian 32 3)
    [] = .ok (vrf, nizk) ∧ verifyVRF five oneHash secretTwo.pub [] vrf nizk = .ok true := by
  have one (m : Bytes) : ofBigEndian (oneHash.sum m) = 1 := ofBigEndian_bigEndian 32 1 (by norm_num)
  have point : hashToCurve five oneHash (five.marshal secretTwo.pub ++ []) ≠ .ok 0 := by
    rw [hashToCurve_ok, messagePoint, one, one_smul]
    intro zero
    exact absurd (Except.ok.inj zero) five.base_ne
  obtain ha | ⟨_, great⟩ := computeVRF_accepted five oneHash secretTwo (bigEndian 32 3) []
    (length_bigEndian _ _) point
  · exact ha
  · have four := great 0 (by norm_num)
    rw [one] at four
    exact absurd four (by decide)

end HNBChain.Audit.Guarantees.VrfCompleteness
