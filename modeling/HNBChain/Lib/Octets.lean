import HNBChain.Lib.Decimal

/-!
# Base64, hexadecimal and big-endian forms of byte strings

`encode64` and `decode64` follow the padded standard base64 alphabet: the decoder drops carriage
returns and line feeds, wants whole quanta of four octets, allows padding in the last quantum only,
and does not look at the bits that padding leaves over. `encodeHex` writes two lower-case digits an
octet; `decodeHex` also reads upper case and refuses an odd length. `bigEndian` writes a number in a
given number of octets.
-/
namespace HNBChain.Lib.Octets

open Option

def digit64 (n : Nat) : UInt8 :=
  if n < 26 then UInt8.ofNat (65 + n)
  else if n < 52 then UInt8.ofNat (71 + n)
  else if n < 62 then UInt8.ofNat (n - 4)
  else if n = 62 then 43
  else 47

def value64 (b : UInt8) : Option Nat :=
  let n := b.toNat
  if 65 ≤ n ∧ n ≤ 90 then some (n - 65)
  else if 97 ≤ n ∧ n ≤ 122 then some (n - 71)
  else if 48 ≤ n ∧ n ≤ 57 then some (n + 4)
  else if n = 43 then some 62
  else if n = 47 then some 63
  else none

def encode64 : Bytes → Bytes
  | [] => []
  | [a] => [digit64 (a.toNat / 4), digit64 (a.toNat % 4 * 16), 61, 61]
  | [a, b] =>
    [digit64 (a.toNat / 4), digit64 (a.toNat % 4 * 16 + b.toNat / 16),
      digit64 (b.toNat % 16 * 4), 61]
  | a :: b :: c :: rest =>
    digit64 (a.toNat / 4) :: digit64 (a.toNat % 4 * 16 + b.toNat / 16) ::
      digit64 (b.toNat % 16 * 4 + c.toNat / 64) :: digit64 (c.toNat % 64) :: encode64 rest

def decodeQuanta : Bytes → Option Bytes
  | [] => some []
  | p :: q :: r :: s :: rest =>
    if r = 61 then
      if s = 61 ∧ rest = [] then do
        let x ← value64 p
        let y ← value64 q
        return [UInt8.ofNat (x * 4 + y / 16)]
      else none
    else if s = 61 then
      if rest = [] then do
        let x ← value64 p
        let y ← value64 q
        let z ← value64 r
        return [UInt8.ofNat (x * 4 + y / 16), UInt8.ofNat (y % 16 * 16 + z / 4)]
      else none
    else do
      let x ← value64 p
      let y ← value64 q
      let z ← value64 r
      let t ← value64 s
      let more ← decodeQuanta rest
      return UInt8.ofNat (x * 4 + y / 16) :: UInt8.ofNat (y % 16 * 16 + z / 4) ::
        UInt8.ofNat (z % 4 * 64 + t) :: more
  | _ => none

def decode64 (text : Bytes) : Option Bytes :=
  decodeQuanta (text.filter fun b => b != 10 && b != 13)

theorem digit64_facts : ∀ n < 64, value64 (digit64 n) = some n ∧ digit64 n ≠ 61 ∧
    digit64 n ≠ 10 ∧ digit64 n ≠ 13 ∧ (32 ≤ digit64 n ∧ digit64 n < 128) ∧ digit64 n ≠ 34 ∧
    digit64 n ≠ 92 ∧ digit64 n ≠ 60 ∧ digit64 n ≠ 62 ∧ digit64 n ≠ 38 := by
  decide

theorem value64_digit64 (n : Nat) (hs : n < 64) : value64 (digit64 n) = some n :=
  (digit64_facts n hs).1

theorem digit64_ne_pad (n : Nat) (hs : n < 64) : digit64 n ≠ 61 :=
  (digit64_facts n hs).2.1

variable (bytes : Bytes)

theorem decodeQuanta_encode64 : decodeQuanta (encode64 bytes) = some bytes := by
  induction bytes using encode64.induct with
  | case1 => rfl
  | case2 a =>
    have ha := a.toNat_lt
    simp only [encode64, decodeQuanta, if_true, and_self, value64_digit64 (a.toNat / 4) (by omega),
      value64_digit64 (a.toNat % 4 * 16) (by omega)]
    have back : a.toNat / 4 * 4 + a.toNat % 4 * 16 / 16 = a.toNat := by omega
    simp only [bind_eq_bind, bind_some, pure_def, back, UInt8.ofNat_toNat]
  | case3 a b =>
    have ha := a.toNat_lt
    have hb := b.toNat_lt
    simp only [encode64, decodeQuanta, digit64_ne_pad (b.toNat % 16 * 4) (by omega), if_false,
      if_true, value64_digit64 (a.toNat / 4) (by omega),
      value64_digit64 (a.toNat % 4 * 16 + b.toNat / 16) (by omega),
      value64_digit64 (b.toNat % 16 * 4) (by omega)]
    have h1 : a.toNat / 4 * 4 + (a.toNat % 4 * 16 + b.toNat / 16) / 16 = a.toNat := by omega
    have h2 : (a.toNat % 4 * 16 + b.toNat / 16) % 16 * 16 + b.toNat % 16 * 4 / 4 = b.toNat := by
      omega
    simp only [bind_eq_bind, bind_some, pure_def, h1, h2, UInt8.ofNat_toNat]
  | case4 a b c rest ih =>
    have ha := a.toNat_lt
    have hb := b.toNat_lt
    have hc := c.toNat_lt
    simp only [encode64, decodeQuanta, digit64_ne_pad (b.toNat % 16 * 4 + c.toNat / 64) (by omega),
      digit64_ne_pad (c.toNat % 64) (by omega), if_false, value64_digit64 (a.toNat / 4) (by omega),
      value64_digit64 (a.toNat % 4 * 16 + b.toNat / 16) (by omega),
      value64_digit64 (b.toNat % 16 * 4 + c.toNat / 64) (by omega),
      value64_digit64 (c.toNat % 64) (by omega), ih]
    have h1 : a.toNat / 4 * 4 + (a.toNat % 4 * 16 + b.toNat / 16) / 16 = a.toNat := by omega
    have h2 : (a.toNat % 4 * 16 + b.toNat / 16) % 16 * 16 +
        (b.toNat % 16 * 4 + c.toNat / 64) / 4 = b.toNat := by omega
    have third : (b.toNat % 16 * 4 + c.toNat / 64) % 4 * 64 + c.toNat % 64 = c.toNat := by omega
    simp only [bind_eq_bind, bind_some, pure_def, h1, h2, third, UInt8.ofNat_toNat]

/-- What base64 text is made of: digits of the alphabet and the padding sign. -/
theorem mem_encode64 (b : UInt8) (h : b ∈ encode64 bytes) : (∃ n < 64, b = digit64 n) ∨ b = 61 := by
  induction bytes using encode64.induct with
  | case1 => cases h
  | case2 a =>
    have ha := a.toNat_lt
    simp only [encode64, List.mem_cons, List.not_mem_nil, or_false] at h
    rcases h with h | h | h | h
    · exact .inl ⟨_, by omega, h⟩
    · exact .inl ⟨_, by omega, h⟩
    · exact .inr h
    · exact .inr h
  | case3 a b' =>
    have ha := a.toNat_lt
    have hb := b'.toNat_lt
    simp only [encode64, List.mem_cons, List.not_mem_nil, or_false] at h
    rcases h with h | h | h | h
    · exact .inl ⟨_, by omega, h⟩
    · exact .inl ⟨_, by omega, h⟩
    · exact .inl ⟨_, by omega, h⟩
    · exact .inr h
  | case4 a b' c rest ih =>
    have ha := a.toNat_lt
    have hb := b'.toNat_lt
    have hc := c.toNat_lt
    simp only [encode64, List.mem_cons] at h
    rcases h with h | h | h | h | h
    · exact .inl ⟨_, by omega, h⟩
    · exact .inl ⟨_, by omega, h⟩
    · exact .inl ⟨_, by omega, h⟩
    · exact .inl ⟨_, by omega, h⟩
    · exact ih h

/-- Base64 text needs no escape in a quoted string and holds no line break. -/
theorem encode64_plain (b : UInt8) (h : b ∈ encode64 bytes) : (b ≠ 10 ∧ b ≠ 13) ∧
      (32 ≤ b ∧ b < 128) ∧ b ≠ 34 ∧ b ≠ 92 ∧ b ≠ 60 ∧ b ≠ 62 ∧ b ≠ 38 := by
  rcases mem_encode64 bytes b h with ⟨n, hs, rfl⟩ | rfl
  · obtain ⟨_, _, notLf, notCr, safe⟩ := digit64_facts n hs
    exact ⟨⟨notLf, notCr⟩, safe⟩
  · decide

theorem decode64_encode64 : decode64 (encode64 bytes) = some bytes := by
  have kept : (encode64 bytes).filter (fun b => b != 10 && b != 13) = encode64 bytes := by
    apply List.filter_eq_self.mpr
    intro b hm
    have plain := encode64_plain bytes b hm
    simp [plain.1.1, plain.1.2]
  rw [decode64, kept, decodeQuanta_encode64]

def hexDigit (n : Nat) : UInt8 := if n < 10 then UInt8.ofNat (48 + n) else UInt8.ofNat (87 + n)

def hexValue (b : UInt8) : Option Nat :=
  let n := b.toNat
  if 48 ≤ n ∧ n ≤ 57 then some (n - 48)
  else if 97 ≤ n ∧ n ≤ 102 then some (n - 87)
  else if 65 ≤ n ∧ n ≤ 70 then some (n - 55)
  else none

def encodeHex : Bytes → Bytes
  | [] => []
  | b :: rest => hexDigit (b.toNat / 16) :: hexDigit (b.toNat % 16) :: encodeHex rest

def decodeHex : Bytes → Option Bytes
  | [] => some []
  | p :: q :: rest => do
    let x ← hexValue p
    let y ← hexValue q
    let more ← decodeHex rest
    return UInt8.ofNat (x * 16 + y) :: more
  | _ => none

theorem hexDigit_facts : ∀ n < 16, hexValue (hexDigit n) = some n ∧
    (32 ≤ hexDigit n ∧ hexDigit n < 128) ∧ hexDigit n ≠ 34 ∧ hexDigit n ≠ 92 ∧
    hexDigit n ≠ 60 ∧ hexDigit n ≠ 62 ∧ hexDigit n ≠ 38 := by
  decide

theorem mem_encodeHex (b : UInt8) (h : b ∈ encodeHex bytes) : ∃ n < 16, b = hexDigit n := by
  induction bytes with
  | nil => cases h
  | cons octet rest ih =>
    have bound := octet.toNat_lt
    simp only [encodeHex, List.mem_cons] at h
    rcases h with h | h | h
    · exact ⟨_, by omega, h⟩
    · exact ⟨_, by omega, h⟩
    · exact ih h

theorem decodeHex_encodeHex : decodeHex (encodeHex bytes) = some bytes := by
  induction bytes with
  | nil => rfl
  | cons b rest ih =>
    have hb := b.toNat_lt
    simp only [encodeHex, decodeHex, (hexDigit_facts (b.toNat / 16) (by omega)).1,
      (hexDigit_facts (b.toNat % 16) (by omega)).1, ih]
    have back : b.toNat / 16 * 16 + b.toNat % 16 = b.toNat := by omega
    simp only [bind_eq_bind, bind_some, pure_def, back, UInt8.ofNat_toNat]

/-- The `k` lowest digits of `n` to the base 256, the highest first. -/
def bigEndian : Nat → Nat → Bytes
  | 0, _ => []
  | k + 1, n => bigEndian k (n / 256) ++ [UInt8.ofNat n]

def ofBigEndian (bytes : Bytes) : Nat := bytes.foldl (fun acc b => acc * 256 + b.toNat) 0

@[simp] theorem length_bigEndian (k n : Nat) : (bigEndian k n).length = k := by
  induction k generalizing n with
  | zero => rfl
  | succ k ih => simp [bigEndian, ih]

theorem ofBigEndian_bigEndian (k n : Nat) (fits : n < 256 ^ k) :
    ofBigEndian (bigEndian k n) = n := by
  induction k generalizing n with
  | zero =>
    have zero : n = 0 := by omega
    rw [zero]
    rfl
  | succ k ih =>
    have high : n / 256 < 256 ^ k := by
      rw [pow_succ] at fits
      omega
    have digits := ih (n / 256) high
    unfold ofBigEndian at digits ⊢
    rw [bigEndian, List.foldl_append, digits, List.foldl_cons, List.foldl_nil, UInt8.toNat_ofNat']
    omega

/-- A number that needs one digit less starts with a zero. -/
theorem bigEndian_head (k n : Nat) (hs : n < 256 ^ k) :
    ∃ rest, bigEndian (k + 1) n = 0 :: rest := by
  induction k generalizing n with
  | zero =>
    have zero : n = 0 := by omega
    exact ⟨[], by rw [zero]; rfl⟩
  | succ k ih =>
    have high : n / 256 < 256 ^ k := by
      rw [pow_succ] at hs
      omega
    obtain ⟨rest, hst⟩ := ih (n / 256) high
    exact ⟨rest ++ [UInt8.ofNat n], by rw [bigEndian, hst]; rfl⟩

end HNBChain.Lib.Octets
