import HNBChain.Lib.JsonText

/-!
# JSON strings of well-formed text

A text that is the UTF-8 encoding of some characters is written as a JSON string and read back
unchanged, whatever the characters are: the ones that are escaped come back from their escapes, and
a multi-octet sequence is taken as a whole.
-/
namespace HNBChain.Lib.Json

open List Octets

def encodeText (chars : List Char) : Bytes := chars.flatMap String.utf8EncodeChar

/-- Well-formed UTF-8. -/
def ValidText (text : Bytes) : Prop := ∃ chars, text = encodeText chars

/-! ## Sequences of a character -/

theorem toNat_ofNat_small {n : Nat} (hs : n < 256) : (UInt8.ofNat n).toNat = n :=
  UInt8.toNat_ofNat_of_lt' hs

theorem isContinuation_ofNat (n : Nat) : isContinuation (UInt8.ofNat (n % 64 + 128)) = true := by
  have octet : (UInt8.ofNat (n % 64 + 128)).toNat = n % 64 + 128 := toNat_ofNat_small (by omega)
  unfold isContinuation
  simp only [UInt8.le_iff_toNat_le, octet, UInt8.reduceToNat, Bool.and_eq_true, decide_eq_true_eq]
  omega

theorem secondInRange_ofNat {a b : Nat} (hs : a < 256) (small' : b < 256)
    (lower : (if a = 224 then 160 else if a = 240 then 144 else 128) ≤ b)
    (upper : b ≤ if a = 237 then 159 else if a = 244 then 143 else 191) :
    secondInRange (UInt8.ofNat a) (UInt8.ofNat b) = true := by
  have firstOctet : (UInt8.ofNat a).toNat = a := toNat_ofNat_small hs
  have secondOctet : (UInt8.ofNat b).toNat = b := toNat_ofNat_small small'
  unfold secondInRange
  simp only [← UInt8.toNat_inj, UInt8.le_iff_toNat_le, firstOctet, secondOctet, UInt8.reduceToNat,
    Bool.and_eq_true]
  constructor
  · split_ifs at lower ⊢ <;> exact decide_eq_true lower
  · split_ifs at upper ⊢ <;> exact decide_eq_true upper

theorem sequenceLength_two {v : Nat} (low : 128 ≤ v) (high : v ≤ 2047) (rest : Bytes) :
    sequenceLength (UInt8.ofNat (v / 64 % 32 + 192) :: UInt8.ofNat (v % 64 + 128) :: rest) = 2 := by
  have lead : (UInt8.ofNat (v / 64 % 32 + 192)).toNat = v / 64 % 32 + 192 :=
    toNat_ofNat_small (by omega)
  rw [sequenceLength]
  simp only [UInt8.le_iff_toNat_le, lead, UInt8.reduceToNat]
  rw [if_pos (by omega), if_pos (isContinuation_ofNat v)]

theorem sequenceLength_three {v : Nat} (low : 2048 ≤ v) (high : v ≤ 65535)
    (scalar : v < 55296 ∨ 57343 < v) (rest : Bytes) :
    sequenceLength (UInt8.ofNat (v / 4096 % 16 + 224) :: UInt8.ofNat (v / 64 % 64 + 128) ::
      UInt8.ofNat (v % 64 + 128) :: rest) = 3 := by
  have lead : (UInt8.ofNat (v / 4096 % 16 + 224)).toNat = v / 4096 % 16 + 224 :=
    toNat_ofNat_small (by omega)
  have h2 : secondInRange (UInt8.ofNat (v / 4096 % 16 + 224))
      (UInt8.ofNat (v / 64 % 64 + 128)) = true := by
    refine secondInRange_ofNat (by omega) (by omega) ?_ ?_
    · split_ifs <;> omega
    · split_ifs <;> omega
  have tail : ([UInt8.ofNat (v % 64 + 128)] : Bytes).all isContinuation = true := by
    rw [all_cons, isContinuation_ofNat, all_nil]
    rfl
  rw [sequenceLength]
  simp only [UInt8.le_iff_toNat_le, lead, UInt8.reduceToNat]
  rw [if_neg (by omega), if_pos (by omega), if_pos ⟨h2, rfl, tail⟩]

theorem sequenceLength_four {v : Nat} (low : 65536 ≤ v) (high : v < 1114112) (rest : Bytes) :
    sequenceLength (UInt8.ofNat (v / 262144 % 8 + 240) :: UInt8.ofNat (v / 4096 % 64 + 128) ::
      UInt8.ofNat (v / 64 % 64 + 128) :: UInt8.ofNat (v % 64 + 128) :: rest) = 4 := by
  have lead : (UInt8.ofNat (v / 262144 % 8 + 240)).toNat = v / 262144 % 8 + 240 :=
    toNat_ofNat_small (by omega)
  have h2 : secondInRange (UInt8.ofNat (v / 262144 % 8 + 240))
      (UInt8.ofNat (v / 4096 % 64 + 128)) = true := by
    refine secondInRange_ofNat (by omega) (by omega) ?_ ?_
    · split_ifs <;> omega
    · split_ifs <;> omega
  have tail : ([UInt8.ofNat (v / 64 % 64 + 128), UInt8.ofNat (v % 64 + 128)] : Bytes).all
    isContinuation =
      true := by
    rw [all_cons, all_cons, isContinuation_ofNat, isContinuation_ofNat, all_nil]
    rfl
  rw [sequenceLength]
  simp only [UInt8.le_iff_toNat_le, lead, UInt8.reduceToNat]
  rw [if_neg (by omega), if_neg (by omega), if_pos (by omega), if_pos ⟨h2, rfl, tail⟩]

/-- A character outside ASCII: its octets are one sequence that starts with no ASCII octet. -/
structure Sequence (octets : Bytes) : Prop where
  lead : ∃ b more, octets = b :: more ∧ ¬ b < 128
  high : ∀ b ∈ octets, 128 ≤ b
  length : ∀ rest, sequenceLength (octets ++ rest) = octets.length

theorem ofNat_high {n : Nat} (low : 128 ≤ n) (high : n < 256) : (128 : UInt8) ≤ UInt8.ofNat n := by
  rw [UInt8.le_iff_toNat_le, toNat_ofNat_small high]
  exact low

theorem utf8EncodeChar_ascii {c : Char} (ascii : c.toNat < 128) :
    String.utf8EncodeChar c = [UInt8.ofNat c.toNat] := by
  exact if_pos (Nat.le_of_lt_succ ascii)

theorem utf8EncodeChar_sequence {c : Char} (wide : ¬ c.toNat < 128) :
    Sequence (String.utf8EncodeChar c) := by
  have scalar : c.val.toNat < 55296 ∨ 57343 < c.val.toNat ∧ c.val.toNat < 1114112 := c.valid
  have wide : ¬ c.val.toNat < 128 := wide
  have one : ¬ c.val.toNat ≤ 127 := by omega
  have build {b : UInt8} {more : Bytes} (high : ∀ x ∈ b :: more, 128 ≤ x)
      (length : ∀ rest, sequenceLength (b :: more ++ rest) = (b :: more).length) :
          Sequence (b :: more) :=
    ⟨⟨b, more, rfl, UInt8.not_lt.mpr (high b mem_cons_self)⟩, high, length⟩
  unfold String.utf8EncodeChar
  rw [if_neg one]
  split_ifs with two three
  · refine build ?_ (sequenceLength_two (by omega) two)
    simp only [forall_mem_cons]
    exact ⟨ofNat_high (by omega) (by omega), ofNat_high (by omega) (by omega),
      fun _ none_ => by cases none_⟩
  · refine build ?_ (sequenceLength_three (by omega) three (by omega))
    simp only [forall_mem_cons]
    exact ⟨ofNat_high (by omega) (by omega), ofNat_high (by omega) (by omega),
      ofNat_high (by omega) (by omega), fun _ none_ => by cases none_⟩
  · refine build ?_ (sequenceLength_four (by omega) (by omega))
    simp only [forall_mem_cons]
    exact ⟨ofNat_high (by omega) (by omega), ofNat_high (by omega) (by omega),
      ofNat_high (by omega) (by omega), ofNat_high (by omega) (by omega),
      fun _ none_ => by cases none_⟩

/-! ## Characters as they are written -/

def quoteChar (c : Char) : Bytes :=
  if c.toNat < 128 then escapeOctet (UInt8.ofNat c.toNat)
  else if String.utf8EncodeChar c = [226, 128, 168] then [92, 117, 50, 48, 50, 56]
  else if String.utf8EncodeChar c = [226, 128, 169] then [92, 117, 50, 48, 50, 57]
  else String.utf8EncodeChar c

theorem ascii_lt {c : Char} (ascii : c.toNat < 128) : UInt8.ofNat c.toNat < 128 := by
  rw [UInt8.lt_iff_toNat_lt, toNat_ofNat_small (by omega)]
  exact ascii

theorem quoteFrom_char (c : Char) (fuel : Nat) (rest : Bytes) :
    quoteFrom (fuel + 1) (String.utf8EncodeChar c ++ rest) = quoteChar c ++
    quoteFrom fuel rest := by
  by_cases ascii : c.toNat < 128
  · rw [utf8EncodeChar_ascii ascii, quoteChar, if_pos ascii, singleton_append, quoteFrom,
      if_pos (ascii_lt ascii)]
  · have sequence := utf8EncodeChar_sequence ascii
    rw [quoteChar, if_neg ascii]
    generalize String.utf8EncodeChar c = octets at sequence ⊢
    obtain ⟨b, more, rfl, wide⟩ := sequence.lead
    have length := sequence.length rest
    rw [cons_append] at length ⊢
    have ht : (b :: more ++ rest).take (b :: more).length = b :: more := take_left
    have hd : (b :: more ++ rest).drop (b :: more).length = rest := drop_left
    rw [length_cons, cons_append] at ht hd
    rw [quoteFrom, if_neg wide, length]
    simp only [length_cons, ht, hd]

variable (chars : List Char)

/-- The number of characters is fuel enough. -/
theorem quoteFrom_encodeText (fuel : Nat) (he : chars.length ≤ fuel) :
    quoteFrom fuel (encodeText chars) = chars.flatMap quoteChar := by
  induction chars generalizing fuel with
  | nil => cases fuel <;> rfl
  | cons c chars ih =>
    obtain ⟨fuel, rfl⟩ : ∃ k, fuel = k + 1 := ⟨fuel - 1, by rw [length_cons] at he; omega⟩
    rw [encodeText, flatMap_cons, quoteFrom_char, flatMap_cons]
    exact congrArg _ (ih fuel (Nat.le_of_succ_le_succ he))

theorem length_le_encodeText : chars.length ≤ (encodeText chars).length := by
  induction chars with
  | nil => exact Nat.le_refl 0
  | cons c chars ih =>
    have one : 1 ≤ (String.utf8EncodeChar c).length := by
      rw [String.length_utf8EncodeChar]
      exact Char.utf8Size_pos c
    rw [encodeText, flatMap_cons, length_append, length_cons]
    have ih : chars.length ≤ (chars.flatMap String.utf8EncodeChar).length := ih
    omega

theorem quote_encodeText : quote (encodeText chars) = chars.flatMap quoteChar :=
  quoteFrom_encodeText chars _ (length_le_encodeText chars)

/-! ## Characters as they are read -/

/-- The escape of a control character or of `<`, `>` and `&`. -/
theorem unquoteRune_hex {b : UInt8} (ascii : b < 128) (rest : Bytes) :
    unquoteRune (48 :: 48 :: hexDigit (b.toNat / 16) :: hexDigit (b.toNat % 16) :: rest) =
      ([b], rest) := by
  have ascii : b.toNat < 128 := ascii
  have high := (hexDigit_facts (b.toNat / 16) (by omega)).1
  have low := (hexDigit_facts (b.toNat % 16) (by omega)).1
  have code : hex4 (48 :: 48 :: hexDigit (b.toNat / 16) :: hexDigit (b.toNat % 16) :: rest) =
      b.toNat := by
    unfold hex4
    simp only [take_succ_cons, take_zero, foldl_cons, foldl_nil, high, low, Option.getD_some]
    have zero : (hexValue 48).getD 0 = 0 := rfl
    omega
  unfold unquoteRune
  rw [code]
  rw [if_neg (by omega), encodeRune, if_pos ascii, UInt8.ofNat_toNat]
  rfl

theorem unquoteFrom_rune {digits rune more : Bytes}
    (read : unquoteRune digits = (rune, more)) (fuel : Nat) :
    unquoteFrom (fuel + 1) (92 :: 117 :: digits) = rune ++ unquoteFrom fuel more := by
  rw [unquoteFrom.eq_def]
  dsimp only
  rw [if_pos rfl, if_pos rfl, read]

theorem unquoteFrom_octet {b : UInt8} (ascii : b < 128) (fuel : Nat) (rest : Bytes) :
    unquoteFrom (fuel + 1) (escapeOctet b ++ rest) = b :: unquoteFrom fuel rest := by
  unfold escapeOctet
  split_ifs with escaped newline return_ tab hex
  · rcases escaped with rfl | rfl <;> rfl
  · rw [newline]; rfl
  · rw [return_]; rfl
  · rw [tab]; rfl
  · have rune := unquoteRune_hex ascii rest
    exact unquoteFrom_rune rune fuel
  · have plain : b ≠ 92 := fun same => escaped (.inr same)
    rw [singleton_append, unquoteFrom.eq_def]
    dsimp only
    rw [if_neg plain, if_pos ascii]

theorem unquoteFrom_char (c : Char) (fuel : Nat) (rest : Bytes) :
    unquoteFrom (fuel + 1) (quoteChar c ++ rest) = String.utf8EncodeChar c ++
    unquoteFrom fuel rest := by
  unfold quoteChar
  split_ifs with ascii line paragraph
  · rw [utf8EncodeChar_ascii ascii, singleton_append]
    exact unquoteFrom_octet (ascii_lt ascii) fuel rest
  · rw [line]
    have rune : unquoteRune (50 :: 48 :: 50 :: 56 :: rest) = ([226, 128, 168], rest) := by
      have code : hex4 (50 :: 48 :: 50 :: 56 :: rest) = 8232 := rfl
      rw [unquoteRune, code]
      rfl
    exact unquoteFrom_rune rune fuel
  · rw [paragraph]
    have rune : unquoteRune (50 :: 48 :: 50 :: 57 :: rest) = ([226, 128, 169], rest) := by
      have code : hex4 (50 :: 48 :: 50 :: 57 :: rest) = 8233 := rfl
      rw [unquoteRune, code]
      rfl
    exact unquoteFrom_rune rune fuel
  · have hse := utf8EncodeChar_sequence ascii
    generalize String.utf8EncodeChar c = octets at hse ⊢
    obtain ⟨b, more, rfl, wide⟩ := hse.lead
    have length := hse.length rest
    have plain : b ≠ 92 := by
      rintro rfl
      exact wide (by decide)
    rw [cons_append] at length ⊢
    rw [unquoteFrom.eq_def]
    dsimp only
    rw [if_neg plain, if_neg wide, length, ← cons_append]
    change take (b :: more).length _ ++ unquoteFrom fuel (drop (b :: more).length _) = _
    rw [take_left, drop_left]

theorem unquoteFrom_quoteText (fuel : Nat) (he : chars.length ≤ fuel) :
    unquoteFrom fuel (chars.flatMap quoteChar) = encodeText chars := by
  induction chars generalizing fuel with
  | nil => cases fuel <;> rfl
  | cons c chars ih =>
    obtain ⟨fuel, rfl⟩ : ∃ k, fuel = k + 1 := ⟨fuel - 1, by rw [length_cons] at he; omega⟩
    rw [flatMap_cons, unquoteFrom_char, encodeText, flatMap_cons]
    exact congrArg _ (ih fuel (Nat.le_of_succ_le_succ he))

theorem length_le_quoteText : chars.length ≤ (chars.flatMap quoteChar).length := by
  induction chars with
  | nil => exact Nat.le_refl 0
  | cons c chars ih =>
    have one : quoteChar c ≠ [] := by
      intro hem
      have read := unquoteFrom_char c 0 []
      rw [hem] at read
      have length := congrArg length read
      rw [length_append, String.length_utf8EncodeChar] at length
      have hp := Char.utf8Size_pos c
      have none_ : (unquoteFrom (0 + 1) ([] ++ [])).length = 0 := rfl
      omega
    rw [flatMap_cons, length_append, length_cons]
    have one := length_pos_iff.mpr one
    omega

theorem unquote_quote {text : Bytes} (hv : ValidText text) : unquote (quote text) = text := by
  obtain ⟨chars, rfl⟩ := hv
  rw [quote_encodeText]
  exact unquoteFrom_quoteText chars _ (length_le_quoteText chars)

/-! ## The scanner -/

theorem scanString_escape {b : UInt8} (ascii : b < 128) (rest : Bytes) :
    scanString (escapeOctet b ++ rest) = (scanString rest).map fun found =>
    (escapeOctet b ++ found.1, found.2) := by
  unfold escapeOctet
  split_ifs with escaped newline return_ tab hex
  · rcases escaped with rfl | rfl <;> rfl
  · rfl
  · rfl
  · rfl
  · have ascii : b.toNat < 128 := ascii
    have high := (hexDigit_facts (b.toNat / 16) (by omega)).1
    have low := (hexDigit_facts (b.toNat % 16) (by omega)).1
    simp only [cons_append, nil_append]
    rw [scanString, if_pos (by simp [high, low]; decide)]
  · simp only [not_or] at escaped hex
    have plain : PlainText [b] := by simp [PlainText, UInt8.not_lt.mp hex.1, escaped]
    exact scanString_octets plain rest

theorem scanString_char (c : Char) (rest : Bytes) :
    scanString (quoteChar c ++ rest) = (scanString rest).map fun found =>
    (quoteChar c ++ found.1, found.2) := by
  unfold quoteChar
  split_ifs with ascii line paragraph
  · exact scanString_escape (ascii_lt ascii) rest
  · rfl
  · rfl
  · refine scanString_octets (fun b hm => ?_) rest
    have high := (utf8EncodeChar_sequence ascii).high b hm
    refine ⟨UInt8.le_trans (by decide) high, ?_, ?_⟩
    · rintro rfl
      exact absurd high (by decide)
    · rintro rfl
      exact absurd high (by decide)

theorem scanString_quote {text : Bytes} (hv : ValidText text) (rest : Bytes) :
    scanString (quote text ++ 34 :: rest) = some (quote text, rest) := by
  obtain ⟨chars, rfl⟩ := hv
  rw [quote_encodeText]
  induction chars with
  | nil => rfl
  | cons c chars ih => rw [flatMap_cons, append_assoc, scanString_char, ih, Option.map_some]

/-- A well-formed text as a JSON document. -/
theorem parse_quote {text : Bytes} (hv : ValidText text) :
    parse (render (str (quote text))) = some (str (quote text)) := by
  have scanned := scanString_quote hv []
  rw [render, parse, length_append, parseValue]
  have hst : skipSpace (34 :: quote text ++ [34]) = 34 :: (quote text ++ [34]) := rfl
  rw [hst]
  simp only [scanned, Option.map_some]
  rfl

end HNBChain.Lib.Json
