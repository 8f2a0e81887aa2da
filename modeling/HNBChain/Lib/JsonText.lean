import HNBChain.Lib.Json

/-!
# The content of JSON strings

`unquote` turns the raw content of a scanned string into the text it stands for; `quote` writes a
text as raw content. Both replace octets that are no part of a well-formed UTF-8 sequence by the
replacement character, and `quote` also escapes `<`, `>`, `&` and the two line separators that
scripts cannot hold.
-/
namespace HNBChain.Lib.Json

open Octets

def isContinuation (b : UInt8) : Bool := 128 ≤ b && b ≤ 191

/-- Bounds of the second octet, which depend on the first one. -/
def secondInRange (first second : UInt8) : Bool :=
  (if first = 224 then 160 ≤ second else if first = 240 then 144 ≤ second else 128 ≤ second) &&
    (if first = 237 then second ≤ 159 else if first = 244 then second ≤ 143 else second ≤ 191)

/-- Length of the well-formed multi-octet sequence at the head, zero when there is none. -/
def sequenceLength : Bytes → Nat
  | a :: b :: rest =>
    if 194 ≤ a ∧ a ≤ 223 then if isContinuation b then 2 else 0
    else if 224 ≤ a ∧ a ≤ 239 then
      if secondInRange a b ∧ (rest.take 1).length = 1 ∧ (rest.take 1).all isContinuation then 3
      else 0
    else if 240 ≤ a ∧ a ≤ 244 then
      if secondInRange a b ∧ (rest.take 2).length = 2 ∧ (rest.take 2).all isContinuation then 4
      else 0
    else 0
  | _ => 0

def replacement : Bytes := [239, 191, 189]

def encodeRune (code : Nat) : Bytes :=
  if code < 128 then [UInt8.ofNat code]
  else if code < 2048 then [UInt8.ofNat (192 + code / 64), UInt8.ofNat (128 + code % 64)]
  else if code < 65536 then
    [UInt8.ofNat (224 + code / 4096), UInt8.ofNat (128 + code / 64 % 64),
      UInt8.ofNat (128 + code % 64)]
  else
    [UInt8.ofNat (240 + code / 262144), UInt8.ofNat (128 + code / 4096 % 64),
      UInt8.ofNat (128 + code / 64 % 64), UInt8.ofNat (128 + code % 64)]

/-- The number four hexadecimal digits stand for. -/
def hex4 (digits : Bytes) : Nat :=
  (digits.take 4).foldl (fun n digit => n * 16 + (hexValue digit).getD 0) 0

def surrogatePair (high : Nat) : Bytes → Option Nat
  | 92 :: 117 :: digits =>
    let low := hex4 digits
    if 55296 ≤ high ∧ high < 56320 ∧ 56320 ≤ low ∧ low < 57344 then
      some ((high - 55296) * 1024 + (low - 56320) + 65536)
    else none
  | _ => none

def escapeValue (escape : UInt8) : UInt8 :=
  if escape = 98 then 8
  else if escape = 102 then 12
  else if escape = 110 then 10
  else if escape = 114 then 13
  else if escape = 116 then 9
  else escape

/-- The rune of a `\u` escape whose digits start the input, and what follows it. -/
def unquoteRune (digits : Bytes) : Bytes × Bytes :=
  let code := hex4 digits
  let after := digits.drop 4
  if 55296 ≤ code ∧ code < 57344 then
    match surrogatePair code after with
    | some full => (encodeRune full, after.drop 6)
    | none => (replacement, after)
  else (encodeRune code, after)

def unquoteFrom : Nat → Bytes → Bytes
  | 0, _ => []
  | _, [] => []
  | fuel + 1, b :: rest =>
    if b = 92 then
      match rest with
      | [] => []
      | escape :: after =>
        if escape = 117 then
          let (rune, more) := unquoteRune after
          rune ++ unquoteFrom fuel more
        else escapeValue escape :: unquoteFrom fuel after
    else if b < 128 then b :: unquoteFrom fuel rest
    else
      match sequenceLength (b :: rest) with
      | 0 => replacement ++ unquoteFrom fuel rest
      | n => (b :: rest).take n ++ unquoteFrom fuel ((b :: rest).drop n)

def unquote (raw : Bytes) : Bytes := unquoteFrom raw.length raw

def escapeOctet (b : UInt8) : Bytes :=
  if b = 34 ∨ b = 92 then [92, b]
  else if b = 10 then [92, 110]
  else if b = 13 then [92, 114]
  else if b = 9 then [92, 116]
  else if b < 32 ∨ b = 60 ∨ b = 62 ∨ b = 38 then
    [92, 117, 48, 48, hexDigit (b.toNat / 16), hexDigit (b.toNat % 16)]
  else [b]

def quoteFrom : Nat → Bytes → Bytes
  | 0, _ => []
  | _, [] => []
  | fuel + 1, b :: rest =>
    if b < 128 then escapeOctet b ++ quoteFrom fuel rest
    else
      match sequenceLength (b :: rest) with
      | 0 => [92, 117, 102, 102, 102, 100] ++ quoteFrom fuel rest
      | n =>
        let sequence := (b :: rest).take n
        let written :=
          if sequence = [226, 128, 168] then [92, 117, 50, 48, 50, 56]
          else if sequence = [226, 128, 169] then [92, 117, 50, 48, 50, 57]
          else sequence
        written ++ quoteFrom fuel ((b :: rest).drop n)

def quote (text : Bytes) : Bytes := quoteFrom text.length text

/-- ASCII text that stands for itself in a JSON string. -/
def SafeText (text : Bytes) : Prop :=
  ∀ b ∈ text, (32 ≤ b ∧ b < 128) ∧ b ≠ 34 ∧ b ≠ 92 ∧ b ≠ 60 ∧ b ≠ 62 ∧ b ≠ 38

theorem SafeText.plain {text : Bytes} (safe : SafeText text) : PlainText text := fun b hm =>
  ⟨(safe b hm).1.1, (safe b hm).2.1, (safe b hm).2.2.1⟩

theorem quote_safe (text : Bytes) (safe : SafeText text) : quote text = text := by
  unfold quote
  induction text with
  | nil => rfl
  | cons b text ih =>
    obtain ⟨⟨printable, ascii⟩, notQuote, notEscape, notLess, notMore, notAnd⟩ :=
      safe b List.mem_cons_self
    have tail := ih fun c hm => safe c (List.mem_cons_of_mem b hm)
    have notControl : ¬ b < 32 := UInt8.not_lt.mpr printable
    have ne : ∀ c : UInt8, c < 32 → b ≠ c := by
      rintro c hs rfl
      exact notControl hs
    simp [quoteFrom, ascii, escapeOctet, tail, notQuote, notEscape, notLess, notMore, notAnd,
      notControl, ne 10 (by decide), ne 13 (by decide), ne 9 (by decide)]

theorem unquote_safe (text : Bytes) (safe : SafeText text) : unquote text = text := by
  unfold unquote
  induction text with
  | nil => rfl
  | cons b text ih =>
    obtain ⟨⟨_, ascii⟩, _, notEscape, _⟩ := safe b List.mem_cons_self
    have tail := ih fun c hm => safe c (List.mem_cons_of_mem b hm)
    simp [unquoteFrom, notEscape, ascii, tail]

theorem encode64_safe (bytes : Bytes) : SafeText (encode64 bytes) := fun b hm =>
  (encode64_plain bytes b hm).2

theorem encodeHex_safe (bytes : Bytes) : SafeText (encodeHex bytes) := by
  intro b hm
  obtain ⟨n, hs, rfl⟩ := mem_encodeHex bytes b hm
  exact (hexDigit_facts n hs).2

end HNBChain.Lib.Json
