import HNBChain.Lib.PrimeGroup

/-!
# The verifiable random function

`ComputeVRF` and `VerifyVRF` over secp256k1: the value is the secret multiple of a point that the
public key and the message are hashed to, and the proof shows that it is the same multiple as in the
public key.

The operations on points are those of a group of prime order, and points are encoded with 65 octets.
`Marshal` writes the point at infinity as (0, 0), which `IsOnCurve` refuses. The hash is any
function to 32 octets. The randomness of a proof is an argument.

Key schemes other than `ECDSAP256` are left out, and with them the checks of key and hash sizes,
which hold for the only curve and hash there are.
-/
namespace HNBChain.Audit.Source.Algorand.Vrf

open Lib Octets

def byteLen : Nat := 32

structure Curve (P : Type) [AddCommGroup P] extends PrimeGroup P where
  large : 4 < order
  small : order < 256 ^ byteLen
  marshal : P → Bytes
  unmarshal : Bytes → Option P
  length_marshal : ∀ p, (marshal p).length = 2 * byteLen + 1
  unmarshal_marshal : ∀ p, unmarshal (marshal p) = some p

structure VrfHash where
  sum : Bytes → Bytes
  length_sum : ∀ m, (sum m).length = byteLen

/-- A private key with the public key beside it. -/
structure PrivateKey {P : Type} [AddCommGroup P] (curve : Curve P) where
  d : Nat
  pub : P
  positive : 0 < d
  below : d < curve.order
  matching : pub = d • curve.base

inductive VrfErr where
  | invalidVRF
  | panic
  | hangs
  deriving DecidableEq

section

variable {P : Type} [AddCommGroup P] (curve : Curve P) (h : VrfHash)

def scalarMult (p : P) (scalar : Bytes) : Except VrfErr P :=
  if byteLen < scalar.length then .error .panic else .ok (ofBigEndian scalar • p)

def hashToCurve (m : Bytes) : Except VrfErr P := scalarMult curve.base (h.sum m)

/-- The loop of `hashToInt` from one value of its counter on. -/
def hashToIntFrom (m : Bytes) : (fuel i : Nat) → Option Nat
  | 0, _ => none
  | fuel + 1, i =>
    let k := ofBigEndian (h.sum (bigEndian 4 i ++ m))
    if k < curve.order - 1 then some (k + 1) else hashToIntFrom m fuel (i + 1)

/-- The counter has 32 bits; if it comes round, the loop has no end. -/
def hashToInt (m : Bytes) : Except VrfErr Nat :=
  match hashToIntFrom curve h m (2 ^ 32) 0 with
  | some s => .ok s
  | none => .error .hangs

/-- A negative number of zeros to write is a panic. -/
def padScalar (n : Nat) : Except VrfErr Bytes :=
  match leftPad byteLen (natBytes n) with
  | some bytes => .ok bytes
  | none => .error .panic

/-- What both sides hash for the challenge. -/
def transcript (point pub : P) (vrf : Bytes) (rG rH : P) : Bytes :=
  curve.marshal curve.base ++ curve.marshal point ++ curve.marshal pub ++ vrf ++ curve.marshal rG ++
    curve.marshal rH

def evaluate [DecidableEq P] (pri : PrivateKey curve) (r m : Bytes) : Except VrfErr Bytes := do
  let point ← hashToCurve curve h (curve.marshal pri.pub ++ m)
  let sH ← scalarMult point (natBytes pri.d)
  if sH = 0 then throw .panic
  let vrf := curve.marshal sH
  let rG ← scalarMult curve.base r
  let rH ← scalarMult point r
  let s ← hashToInt curve h (transcript curve point pri.pub vrf rG rH)
  let t := (((ofBigEndian r : Int) - s * pri.d) % curve.order).toNat
  let sBytes ← padScalar s
  let tBytes ← padScalar t
  return sBytes ++ tBytes ++ vrf

/-- The value and the proof. -/
def computeVRF [DecidableEq P] (pri : PrivateKey curve) (r m : Bytes) :
    Except VrfErr (Bytes × Bytes) := do
  let proof ← evaluate curve h pri r m
  return ((proof.drop (2 * byteLen)).take (2 * byteLen + 1), proof.take (2 * byteLen))

def proofToHash (pk : P) (m proof : Bytes) : Except VrfErr Unit := do
  if proof.length ≠ 2 * byteLen + (2 * byteLen + 1) then throw .invalidVRF
  let s := proof.take byteLen
  let t := (proof.drop byteLen).take byteLen
  let vrf := (proof.drop (2 * byteLen)).take (2 * byteLen + 1)
  match curve.unmarshal vrf with
  | none => throw .invalidVRF
  | some u =>
    let tG ← scalarMult curve.base t
    let ksG ← scalarMult pk s
    let point ← hashToCurve curve h (curve.marshal pk ++ m)
    let tH ← scalarMult point t
    let sH ← scalarMult u s
    let h2 ← hashToInt curve h (transcript curve point pk vrf (tG + ksG) (tH + sH))
    let padded ← padScalar h2
    if s ≠ padded then throw .invalidVRF

def verifyVRF (pk : P) (m vrf nizk : Bytes) : Except VrfErr Bool := do
  if vrf.length ≠ 2 * byteLen + 1 ∨ nizk.length ≠ 2 * byteLen then return false
  proofToHash curve h pk m (nizk ++ vrf)
  return true

/-! ## What the parts give -/

variable {curve h}

theorem scalarMult_ok {p : P} {scalar : Bytes} (short : scalar.length ≤ byteLen) :
    scalarMult p scalar = .ok (ofBigEndian scalar • p) := if_neg (not_lt.mpr short)

/-- The point that a public key and a message are hashed to. -/
def messagePoint (curve : Curve P) (h : VrfHash) (pub : P) (m : Bytes) : P :=
  ofBigEndian (h.sum (curve.marshal pub ++ m)) • curve.base

theorem hashToCurve_ok (pub : P) (m : Bytes) :
    hashToCurve curve h (curve.marshal pub ++ m) = .ok (messagePoint curve h pub m) :=
  scalarMult_ok (h.length_sum _).le

/-- A challenge is a number from 1 to the order less 1. -/
theorem hashToIntFrom_lt {m : Bytes} {fuel i s : Nat}
    (hf : hashToIntFrom curve h m fuel i = some s) : s < curve.order := by
  have two := curve.prime.two_le
  induction fuel generalizing i with
  | zero => cases hf
  | succ fuel ih =>
    unfold hashToIntFrom at hf
    dsimp only at hf
    split at hf
    next small =>
      cases hf
      omega
    · exact ih hf

/-- The loop has no end only if the hash is too great for each value of the counter. -/
theorem hashToIntFrom_none {m : Bytes} {fuel i : Nat} : hashToIntFrom curve h m fuel i = none ↔
      ∀ j, i ≤ j → j < i + fuel → curve.order - 1 ≤ ofBigEndian (h.sum (bigEndian 4 j ++ m)) := by
  induction fuel generalizing i with
  | zero => exact ⟨fun _ j low high => by omega, fun _ => rfl⟩
  | succ fuel ih =>
    unfold hashToIntFrom
    dsimp only
    split
    next small =>
      refine ⟨fun hf => (by cases hf), fun great => ?_⟩
      exact absurd (great i le_rfl (by omega)) (not_le.mpr small)
    next great =>
      rw [ih]
      constructor
      · intro hl j low high
        rcases low.eq_or_lt with rfl | ha
        · exact not_lt.mp great
        · exact hl j ha (by omega)
      · intro all j low high
        exact all j (by omega) (by omega)

theorem padScalar_ok (curve : Curve P) {n : Nat} (fits : n < curve.order) :
    ∃ padded, padScalar n = .ok padded ∧ padded.length = byteLen ∧ ofBigEndian padded = n := by
  obtain ⟨padded, hf, length, value⟩ :=
    leftPad_natBytes (k := byteLen) (by decide) (fits.trans curve.small)
  exact ⟨padded, by rw [padScalar, hf], length, value⟩

end

end HNBChain.Audit.Source.Algorand.Vrf
