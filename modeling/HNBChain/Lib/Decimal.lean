import Mathlib.Data.List.Basic
import Mathlib.Tactic

/-!
# Decimal numerals of fixed-width integers

`formatInt`, `formatUint`, `parseInt` and `parseUint` follow the documented behaviour of `strconv`
in base ten and width 64: an optional sign, at least one digit, no separators, and a range error
that is raised at the digit that overflows, before any later octet is looked at. A failed `parseInt`
still returns a value (zero for a syntax error, the nearest bound for a range error), because
callers may drop the error.
-/
namespace HNBChain.Lib

/-- A byte string, octet by octet. -/
abbrev Bytes := List UInt8

/-- The octets of an ASCII text. -/
def ascii (text : List Char) : Bytes := text.map fun c => UInt8.ofNat c.toNat

namespace Decimal

inductive NumError where
  | malformed | range
  deriving DecidableEq, Repr

def digitOctet (d : Nat) : UInt8 := UInt8.ofNat (48 + d)

def digitValue (b : UInt8) : Option Nat :=
  if 48 ≤ b.toNat ∧ b.toNat ≤ 57 then some (b.toNat - 48) else none

/-- Most significant digit first; the fuel bounds the number of digits. -/
def natDigits : Nat → Nat → Bytes → Bytes
  | 0, _, acc => acc
  | fuel + 1, n, acc =>
    if n < 10 then digitOctet n :: acc
    else natDigits fuel (n / 10) (digitOctet (n % 10) :: acc)

def formatNat (n : Nat) : Bytes := natDigits (n + 1) n []

def formatUint (n : UInt64) : Bytes := formatNat n.toNat

def formatInteger (i : Int) : Bytes :=
  if i < 0 then 45 :: formatNat i.natAbs else formatNat i.natAbs

def formatInt (i : Int64) : Bytes := formatInteger i.toInt

def parseDigits : Nat → Bytes → Except NumError Nat
  | n, [] => .ok n
  | n, b :: rest =>
    match digitValue b with
    | none => .error .malformed
    | some d => if 2 ^ 64 ≤ n * 10 + d then .error .range else parseDigits (n * 10 + d) rest

def parseNat (text : Bytes) : Except NumError Nat :=
  if text = [] then .error .malformed else parseDigits 0 text

def parseUint (text : Bytes) : Except NumError UInt64 :=
  match parseNat text with
  | .ok n => .ok (UInt64.ofNat n)
  | .error e => .error e

/-- The magnitude read after the sign, turned into the returned pair. -/
def signedResult (negative : Bool) (magnitude : Except NumError Nat) : Int64 × Option NumError :=
  match magnitude with
  | .error .malformed => (0, some .malformed)
  | .error .range => (if negative then Int64.minValue else Int64.maxValue, some .range)
  | .ok n =>
    if negative then
      if 2 ^ 63 < n then (Int64.minValue, some .range) else (Int64.ofInt (-(n : Int)), none)
    else
      if 2 ^ 63 ≤ n then (Int64.maxValue, some .range) else (Int64.ofInt n, none)

def parseInt : Bytes → Int64 × Option NumError
  | [] => (0, some .malformed)
  | b :: rest =>
    if b = 45 then signedResult true (parseNat rest)
    else if b = 43 then signedResult false (parseNat rest)
    else signedResult false (parseNat (b :: rest))

/-- The integer a text denotes, when `parseInt` reports no error. -/
def readInt (text : Bytes) : Option Int64 :=
  match parseInt text with
  | (value, none) => some value
  | (_, some _) => none

theorem digitOctet_toNat (d : Nat) (hsm : d < 10) : (digitOctet d).toNat = 48 + d := by
  simp only [digitOctet, UInt8.toNat_ofNat']
  omega

theorem digitValue_digitOctet (d : Nat) (hsm : d < 10) : digitValue (digitOctet d) = some d := by
  have value := digitOctet_toNat d hsm
  simp only [digitValue, value]
  rw [if_pos (by omega)]
  congr 1
  omega

/-- Reading back the digits written for `n` on top of a parsed prefix `p`. -/
theorem parseDigits_natDigits (fuel n p : Nat) (acc : Bytes) (he : n < fuel)
    (startZero : p = 0) (fits : n < 2 ^ 64) :
    parseDigits p (natDigits fuel n acc) = parseDigits n acc := by
  induction fuel generalizing n acc with
  | zero => omega
  | succ fuel ih =>
    simp only [natDigits]
    split
    · rename_i small
      simp only [parseDigits, digitValue_digitOctet n small]
      rw [if_neg (by omega)]
      congr 1
      omega
    · rename_i large
      rw [ih (n / 10) _ (by omega) (by omega)]
      simp only [parseDigits, digitValue_digitOctet (n % 10) (Nat.mod_lt _ (by decide))]
      rw [if_neg (by omega)]
      congr 1
      omega

theorem natDigits_ne_nil (fuel n : Nat) (acc : Bytes) (h : 0 < fuel) :
    natDigits fuel n acc ≠ [] := by
  induction fuel generalizing n acc with
  | zero => omega
  | succ fuel ih =>
    simp only [natDigits]
    split
    · simp
    · cases fuel with
      | zero => simp [natDigits]
      | succ fuel => exact ih _ _ (by omega)

variable (n : Nat)

theorem formatNat_ne_nil : formatNat n ≠ [] := natDigits_ne_nil _ _ _ (by omega)

theorem parseNat_formatNat (fits : n < 2 ^ 64) : parseNat (formatNat n) = .ok n := by
  simp only [parseNat, formatNat_ne_nil, if_false]
  exact parseDigits_natDigits (n + 1) n 0 [] (by omega) rfl fits

/-- Every octet of a formatted natural number is a digit. -/
theorem mem_natDigits (fuel n : Nat) (acc : Bytes) (b : UInt8) (h : b ∈ natDigits fuel n acc) :
    (48 ≤ b.toNat ∧ b.toNat ≤ 57) ∨ b ∈ acc := by
  induction fuel generalizing n acc with
  | zero => exact .inr h
  | succ fuel ih =>
    simp only [natDigits] at h
    split at h
    · rename_i small
      rcases List.mem_cons.mp h with rfl | tail
      · have value := digitOctet_toNat n small
        exact .inl (by omega)
      · exact .inr tail
    · rcases ih _ _ h with digit | inAcc
      · exact .inl digit
      · rcases List.mem_cons.mp inAcc with rfl | tail
        · have value := digitOctet_toNat (n % 10) (Nat.mod_lt _ (by decide))
          exact .inl (by omega)
        · exact .inr tail

theorem mem_formatNat (b : UInt8) (h : b ∈ formatNat n) : 48 ≤ b.toNat ∧ b.toNat ≤ 57 := by
  rcases mem_natDigits _ _ _ _ h with digit | inNil
  · exact digit
  · cases inNil

/-- The first octet of a formatted natural number is neither sign. -/
theorem formatNat_head : ∃ b rest, formatNat n = b :: rest ∧ b ≠ 45 ∧ b ≠ 43 := by
  cases h : formatNat n with
  | nil => exact absurd h (formatNat_ne_nil n)
  | cons b rest =>
    have digit := mem_formatNat n b (by rw [h]; exact List.mem_cons_self)
    refine ⟨b, rest, rfl, ?_, ?_⟩ <;> rintro rfl <;> simp at digit

theorem natDigits_head_ne_zero (fuel n : Nat) (acc : Bytes) (he : n < fuel) (hp : 0 < n) :
    ∃ b rest, natDigits fuel n acc = b :: rest ∧ b ≠ 48 := by
  induction fuel generalizing n acc with
  | zero => omega
  | succ fuel ih =>
    simp only [natDigits]
    split
    · rename_i small
      refine ⟨_, _, rfl, fun zero => ?_⟩
      have value := digitOctet_toNat n small
      rw [zero] at value
      have : (48 : UInt8).toNat = 48 := rfl
      omega
    · exact ih (n / 10) _ (by omega) (by omega)

/-- No leading zero, except in the numeral of zero itself. -/
theorem formatNat_cases : formatNat n = [48] ∨ ∃ b rest, formatNat n = b :: rest ∧ b ≠ 48 := by
  rcases Nat.eq_zero_or_pos n with rfl | hp
  · exact .inl rfl
  · exact .inr (natDigits_head_ne_zero (n + 1) n [] (by omega) hp)

/-- The numeral written for an `Int64` is read back as that `Int64`. -/
theorem parseInt_formatInt (i : Int64) : parseInt (formatInt i) = (i, none) := by
  have lower := i.le_toInt
  have upper := i.toInt_lt
  have magnitude : i.toInt.natAbs < 2 ^ 64 := by omega
  simp only [formatInt, formatInteger]
  split
  · rename_i negative
    simp only [parseInt, if_true, parseNat_formatNat _ magnitude, signedResult]
    rw [if_neg (by omega)]
    congr 1
    have back : -((i.toInt.natAbs : Nat) : Int) = i.toInt := by omega
    rw [back, Int64.ofInt_toInt]
  · rename_i nonnegative
    obtain ⟨b, rest, hs, notMinus, notPlus⟩ := formatNat_head i.toInt.natAbs
    rw [hs]
    simp only [parseInt, if_neg notMinus, if_neg notPlus]
    rw [← hs, parseNat_formatNat _ magnitude]
    simp only [signedResult, Bool.false_eq_true, if_false]
    rw [if_neg (by omega)]
    congr 1
    have back : ((i.toInt.natAbs : Nat) : Int) = i.toInt := by omega
    rw [back, Int64.ofInt_toInt]

@[simp] theorem readInt_formatInt (i : Int64) : readInt (formatInt i) = some i := by
  simp [readInt, parseInt_formatInt]

theorem formatInt_injective : Function.Injective formatInt := by
  intro i j same
  have back : readInt (formatInt i) = readInt (formatInt j) := by rw [same]
  simpa using back

theorem formatUint_injective : Function.Injective formatUint := by
  intro m n same
  have hm := parseNat_formatNat m.toNat m.toNat_lt
  have hn := parseNat_formatNat n.toNat n.toNat_lt
  simp only [formatUint] at same
  rw [same, hn] at hm
  exact UInt64.toNat_inj.mp (Except.ok.inj hm).symm

theorem parseUint_formatUint (n : UInt64) : parseUint (formatUint n) = .ok n := by
  simp [parseUint, formatUint, parseNat_formatNat n.toNat n.toNat_lt]

/-- The text of an integer starts with a minus sign or a digit. -/
theorem formatInteger_head (i : Int) :
    ∃ b rest, formatInteger i = b :: rest ∧ (b = 45 ∨ 48 ≤ b.toNat ∧ b.toNat ≤ 57) := by
  simp only [formatInteger]
  split
  · exact ⟨45, _, rfl, .inl rfl⟩
  · obtain ⟨b, rest, hs, _, _⟩ := formatNat_head i.natAbs
    refine ⟨b, rest, hs, .inr (mem_formatNat i.natAbs b ?_)⟩
    rw [hs]
    exact List.mem_cons_self

theorem formatUint_eq (n : UInt64) : formatUint n = formatInteger n.toNat := by
  simp [formatUint, formatInteger]

/-- A text that starts with neither sign nor digit denotes no integer. -/
theorem parseInt_of_head (b : UInt8) (rest : Bytes) (notMinus : b ≠ 45) (notPlus : b ≠ 43)
    (notDigit : digitValue b = none) : parseInt (b :: rest) = (0, some .malformed) := by
  simp [parseInt, notMinus, notPlus, parseNat, parseDigits, notDigit, signedResult]

end Decimal
end HNBChain.Lib
