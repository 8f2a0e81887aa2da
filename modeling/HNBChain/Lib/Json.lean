import HNBChain.Lib.Octets

/-!
# JSON texts over bytes

A value keeps the literal text of its numbers and the raw content of its strings (what stands
between the quotes, escapes included), so that a reader can interpret both as its target type wants.
The parser skips white space, checks string escapes and the number grammar, and wants the whole
input to be one value. `render` writes without white space.

Every parser takes fuel; the length of the input is always enough, which is what `parse_render`
shows for the texts `render` writes.
-/
namespace HNBChain.Lib

open List Decimal

inductive Json where
  | null
  | bool (b : Bool)
  | num (literal : Bytes)
  | str (raw : Bytes)
  | arr (items : List Json)
  | obj (members : List (Bytes × Json))
  deriving Repr

namespace Json

def isSpace (b : UInt8) : Bool := b == 32 || b == 9 || b == 10 || b == 13

def skipSpace : Bytes → Bytes
  | [] => []
  | b :: rest => if isSpace b then skipSpace rest else b :: rest

def isDigit (b : UInt8) : Bool := 48 ≤ b && b ≤ 57

def simpleEscapes : Bytes := [34, 92, 47, 98, 102, 110, 114, 116]

/-- The raw content of a string up to its closing quote, and what follows it. -/
def scanString : Bytes → Option (Bytes × Bytes)
  | [] => none
  | 34 :: rest => some ([], rest)
  | 92 :: 117 :: a :: b :: c :: d :: rest =>
    if [a, b, c, d].all (fun digit => (Octets.hexValue digit).isSome) then
      (scanString rest).map fun (raw, after) => (92 :: 117 :: a :: b :: c :: d :: raw, after)
    else none
  | 92 :: escape :: rest =>
    if simpleEscapes.contains escape then
      (scanString rest).map fun (raw, after) => (92 :: escape :: raw, after)
    else none
  | b :: rest =>
    if b < 32 ∨ b = 92 then none
    else (scanString rest).map fun (raw, after) => (b :: raw, after)

/-- One digit or more: the digits and what follows them. -/
def scanDigits (input : Bytes) : Option (Bytes × Bytes) :=
  match input.takeWhile isDigit with
  | [] => none
  | digits => some (digits, input.dropWhile isDigit)

/-- The integer part: a lone zero, or digits that do not start with one. -/
def scanWhole : Bytes → Option (Bytes × Bytes)
  | 48 :: rest => some ([48], rest)
  | input => scanDigits input

def scanFraction : Bytes → Option (Bytes × Bytes)
  | 46 :: rest => (scanDigits rest).map fun (digits, after) => (46 :: digits, after)
  | input => some ([], input)

def scanSign : Bytes → Bytes × Bytes
  | 43 :: rest => ([43], rest)
  | 45 :: rest => ([45], rest)
  | input => ([], input)

def scanExponent : Bytes → Option (Bytes × Bytes)
  | [] => some ([], [])
  | b :: rest =>
    if b = 101 ∨ b = 69 then
      let (sign, afterSign) := scanSign rest
      (scanDigits afterSign).map fun (digits, after) => (b :: sign ++ digits, after)
    else some ([], b :: rest)

def scanMinus : Bytes → Bytes × Bytes
  | 45 :: rest => ([45], rest)
  | input => ([], input)

def scanNumber (input : Bytes) : Option (Bytes × Bytes) := do
  let (minus, afterMinus) := scanMinus input
  let (whole, afterWhole) ← scanWhole afterMinus
  let (fraction, afterFraction) ← scanFraction afterWhole
  let (exponent, after) ← scanExponent afterFraction
  return (minus ++ whole ++ fraction ++ exponent, after)

mutual

def parseValue : Nat → Bytes → Option (Json × Bytes)
  | 0, _ => none
  | fuel + 1, input =>
    match skipSpace input with
    | 123 :: rest =>
      match skipSpace rest with
      | 125 :: after => some (obj [], after)
      | inner => (parseMembers fuel inner).map fun (members, after) => (obj members, after)
    | 91 :: rest =>
      match skipSpace rest with
      | 93 :: after => some (arr [], after)
      | inner => (parseItems fuel inner).map fun (items, after) => (arr items, after)
    | 34 :: rest => (scanString rest).map fun (raw, after) => (str raw, after)
    | 110 :: 117 :: 108 :: 108 :: after => some (null, after)
    | 116 :: 114 :: 117 :: 101 :: after => some (bool true, after)
    | 102 :: 97 :: 108 :: 115 :: 101 :: after => some (bool false, after)
    | other => (scanNumber other).map fun (literal, after) => (num literal, after)

def parseItems : Nat → Bytes → Option (List Json × Bytes)
  | 0, _ => none
  | fuel + 1, input =>
    match parseValue fuel input with
    | none => none
    | some (item, rest) =>
      match skipSpace rest with
      | 44 :: more => (parseItems fuel more).map fun (items, after) => (item :: items, after)
      | 93 :: after => some ([item], after)
      | _ => none

def parseMembers : Nat → Bytes → Option (List (Bytes × Json) × Bytes)
  | 0, _ => none
  | fuel + 1, input =>
    match skipSpace input with
    | 34 :: rest =>
      match scanString rest with
      | none => none
      | some (key, afterKey) =>
        match skipSpace afterKey with
        | 58 :: afterColon =>
          match parseValue fuel afterColon with
          | none => none
          | some (value, afterValue) =>
            match skipSpace afterValue with
            | 44 :: more =>
              (parseMembers fuel more).map fun (members, after) => ((key, value) :: members, after)
            | 125 :: after => some ([(key, value)], after)
            | _ => none
        | _ => none
    | _ => none

end

/-- The whole input is one value, white space around it apart. -/
def parse (input : Bytes) : Option Json :=
  match parseValue (input.length + 1) input with
  | some (value, rest) => if skipSpace rest = [] then some value else none
  | none => none

mutual

def render : Json → Bytes
  | null => [110, 117, 108, 108]
  | bool true => [116, 114, 117, 101]
  | bool false => [102, 97, 108, 115, 101]
  | num literal => literal
  | str raw => 34 :: raw ++ [34]
  | arr items => 91 :: renderItems items
  | obj members => 123 :: renderMembers members

/-- The items with the bracket that closes them. -/
def renderItems : List Json → Bytes
  | [] => [93]
  | [item] => render item ++ [93]
  | item :: more => render item ++ 44 :: renderItems more

/-- The members with the brace that closes them. -/
def renderMembers : List (Bytes × Json) → Bytes
  | [] => [125]
  | [(key, value)] => 34 :: key ++ 34 :: 58 :: render value ++ [125]
  | (key, value) :: more => 34 :: key ++ 34 :: 58 :: render value ++ 44 :: renderMembers more

end

/-- String content that needs no escape. -/
def PlainText (raw : Bytes) : Prop := ∀ b ∈ raw, 32 ≤ b ∧ b ≠ 34 ∧ b ≠ 92

instance (raw : Bytes) : Decidable (PlainText raw) :=
  decidableBAll (fun b : UInt8 => 32 ≤ b ∧ b ≠ 34 ∧ b ≠ 92) raw

mutual

/-- Values with plain strings and canonical integer literals. -/
def Simple : Json → Prop
  | null => True
  | bool _ => True
  | num literal => ∃ n : Int, literal = formatInteger n
  | str raw => PlainText raw
  | arr items => SimpleItems items
  | obj members => SimpleMembers members

def SimpleItems : List Json → Prop
  | [] => True
  | item :: more => Simple item ∧ SimpleItems more

def SimpleMembers : List (Bytes × Json) → Prop
  | [] => True
  | (key, value) :: more => PlainText key ∧ Simple value ∧ SimpleMembers more

end

theorem scanString_octet {b : UInt8} (printable : 32 ≤ b) (notQuote : b ≠ 34) (notEscape : b ≠ 92)
    (rest : Bytes) : scanString (b :: rest) = (scanString rest).map fun found =>
    (b :: found.1, found.2) := by
  rw [scanString.eq_def]
  split
  · rename_i empty
    cases empty
  · rename_i shape
    cases shape
    exact absurd rfl notQuote
  · rename_i shape
    simp only [cons.injEq] at shape
    exact absurd shape.1 notEscape
  · rename_i shape
    simp only [cons.injEq] at shape
    exact absurd shape.1 notEscape
  · rename_i shape
    cases shape
    rw [if_neg (by simp [notEscape, UInt8.not_lt.mpr printable])]

theorem scanString_octets {octets : Bytes} (plain : PlainText octets) (rest : Bytes) :
    scanString (octets ++ rest) = (scanString rest).map fun found =>
    (octets ++ found.1, found.2) := by
  induction octets with
  | nil => simp
  | cons b octets ih =>
    obtain ⟨printable, notQuote, notEscape⟩ := plain b mem_cons_self
    rw [cons_append, scanString_octet printable notQuote notEscape,
      ih fun c hm => plain c (mem_cons_of_mem b hm), Option.map_map]
    rfl

theorem scanString_plain (raw rest : Bytes) (plain : PlainText raw) :
    scanString (raw ++ 34 :: rest) = some (raw, rest) := by
  rw [scanString_octets plain, scanString, Option.map_some, append_nil]

/-- What may follow a number without being taken for a part of it. -/
def NumberStop (rest : Bytes) : Prop :=
  ∀ b ∈ rest.head?, isDigit b = false ∧ b ≠ 46 ∧ b ≠ 101 ∧ b ≠ 69

theorem scanFraction_stop (rest : Bytes) (stop : NumberStop rest) :
    scanFraction rest = some ([], rest) := by
  cases rest with
  | nil => rfl
  | cons b rest =>
    obtain ⟨_, notPoint, _, _⟩ := stop b rfl
    rw [scanFraction.eq_def]
    split
    · rename_i shape
      simp only [cons.injEq] at shape
      exact absurd shape.1 notPoint
    · rfl

theorem scanExponent_stop (rest : Bytes) (stop : NumberStop rest) :
    scanExponent rest = some ([], rest) := by
  cases rest with
  | nil => rfl
  | cons b rest =>
    obtain ⟨_, _, notLower, notUpper⟩ := stop b rfl
    simp [scanExponent, notLower, notUpper]

theorem takeWhile_stop (digits rest : Bytes) (all : ∀ b ∈ digits, isDigit b = true)
    (stop : NumberStop rest) :
    (digits ++ rest).takeWhile isDigit = digits ∧ (digits ++ rest).dropWhile isDigit = rest := by
  rw [takeWhile_append_of_pos all, dropWhile_append_of_pos all]
  cases rest with
  | nil => simp
  | cons b rest =>
    have notDigit := (stop b rfl).1
    simp [notDigit]

variable (b : UInt8)

theorem isDigit_of_toNat (h : 48 ≤ b.toNat ∧ b.toNat ≤ 57) : isDigit b = true := by
  simp only [isDigit, Bool.and_eq_true, decide_eq_true_eq, UInt8.le_iff_toNat_le]
  exact h

theorem scanWhole_formatNat (n : Nat) (rest : Bytes) (stop : NumberStop rest) :
    scanWhole (formatNat n ++ rest) = some (formatNat n, rest) := by
  rcases formatNat_cases n with zero | ⟨b, digits, hs, notZero⟩
  · rw [zero]
    rfl
  · have all : ∀ c ∈ formatNat n, isDigit c = true := fun c hm =>
      isDigit_of_toNat c (mem_formatNat n c hm)
    have ht := takeWhile_stop _ rest all stop
    rw [hs] at ht ⊢
    rw [cons_append, scanWhole.eq_def]
    split
    · rename_i head
      simp only [cons.injEq] at head
      exact absurd head.1 notZero
    · rw [cons_append] at ht
      simp only [scanDigits, ht.1, ht.2]

theorem scanMinus_formatNat (n : Nat) (rest : Bytes) :
    scanMinus (formatNat n ++ rest) = ([], formatNat n ++ rest) := by
  obtain ⟨b, digits, hs, notMinus, _⟩ := formatNat_head n
  rw [hs, cons_append, scanMinus.eq_def]
  split
  · rename_i head
    simp only [cons.injEq] at head
    exact absurd head.1 notMinus
  · rfl

theorem scanNumber_formatInteger (i : Int) (rest : Bytes) (stop : NumberStop rest) :
    scanNumber (formatInteger i ++ rest) = some (formatInteger i, rest) := by
  simp only [formatInteger]
  split
  · simp [scanNumber, scanMinus, scanWhole_formatNat _ _ stop, scanFraction_stop _ stop,
      scanExponent_stop _ stop]
  · simp [scanNumber, scanMinus_formatNat, scanWhole_formatNat _ _ stop, scanFraction_stop _ stop,
      scanExponent_stop _ stop]

theorem skipSpace_cons (rest : Bytes) (h : isSpace b = false) :
    skipSpace (b :: rest) = b :: rest := by
  simp [skipSpace, h]

/-- The octets a numeral can start with, a plus sign included. -/
def NumberHead (b : UInt8) : Prop := b = 43 ∨ b = 45 ∨ 48 ≤ b.toNat ∧ b.toNat ≤ 57

theorem NumberHead.ne {b c : UInt8} (head : NumberHead b)
    (ho : c.toNat ≠ 43 ∧ c.toNat ≠ 45 ∧ ¬ (48 ≤ c.toNat ∧ c.toNat ≤ 57)) : b ≠ c := by
  rintro rfl
  rcases head with rfl | rfl | digit
  · exact ho.1 rfl
  · exact ho.2.1 rfl
  · exact ho.2.2 digit

theorem NumberHead.notSpace {b : UInt8} (head : NumberHead b) : isSpace b = false := by
  simp [isSpace, head.ne (c := 32) (by decide), head.ne (c := 9) (by decide),
    head.ne (c := 10) (by decide), head.ne (c := 13) (by decide)]

/-- A text that starts like a numeral is read as a number or not at all. -/
theorem parseValue_numberHead (rest : Bytes) (fuel : Nat) (head : NumberHead b) :
    parseValue (fuel + 1) (b :: rest) =
      (scanNumber (b :: rest)).map fun (literal, after) => (num literal, after) := by
  rw [parseValue, skipSpace_cons b _ head.notSpace]
  split <;> rename_i start <;> try simp only [cons.injEq] at start
  · exact absurd start.1 (head.ne (by decide))
  · exact absurd start.1 (head.ne (by decide))
  · exact absurd start.1 (head.ne (by decide))
  · exact absurd start.1 (head.ne (by decide))
  · exact absurd start.1 (head.ne (by decide))
  · exact absurd start.1 (head.ne (by decide))
  · rfl

theorem parse_numberHead (rest : Bytes) (head : NumberHead b) (value : Json)
    (read : parse (b :: rest) = some value) : ∃ literal, value = num literal := by
  rw [parse, parseValue_numberHead b rest _ head] at read
  cases scanned : scanNumber (b :: rest) with
  | none =>
    rw [scanned] at read
    cases read
  | some result =>
    rw [scanned] at read
    simp only [Option.map_some] at read
    split at read
    · exact ⟨result.1, (Option.some.inj read).symm⟩
    · cases read

/-- JSON that is no number starts like no numeral. -/
theorem parseInt_of_parse (text : Bytes) (value : Json) (read : parse text = some value)
    (notNum : ∀ literal, value ≠ num literal) : parseInt text = (0, some .malformed) := by
  cases text with
  | nil => rfl
  | cons b rest =>
    have notHead : ¬ NumberHead b := fun head =>
      let ⟨literal, same⟩ := parse_numberHead b rest head value read
      notNum literal same
    simp only [NumberHead, not_or] at notHead
    have notDigit : digitValue b = none := by
      simp only [digitValue, if_neg notHead.2.2]
    exact parseInt_of_head b rest notHead.2.1 notHead.1 notDigit

theorem numberHead_of_formatInteger (i : Int) : ∃ b rest, formatInteger i = b :: rest ∧
    NumberHead b := by
  obtain ⟨b, rest, hs, head⟩ := formatInteger_head i
  exact ⟨b, rest, hs, .inr head⟩

theorem parseValue_number (i : Int) (fuel : Nat) (rest : Bytes) (stop : NumberStop rest) :
    parseValue (fuel + 1) (formatInteger i ++ rest) = some (num (formatInteger i), rest) := by
  obtain ⟨b, digits, hs, head⟩ := numberHead_of_formatInteger i
  have scanned := scanNumber_formatInteger i rest stop
  rw [hs, cons_append] at scanned ⊢
  rw [parseValue_numberHead b _ fuel head, scanned]
  rfl

theorem numberStop_cons (rest : Bytes)
    (h : isDigit b = false ∧ b ≠ 46 ∧ b ≠ 101 ∧ b ≠ 69) : NumberStop (b :: rest) := by
  rintro c ⟨⟩
  exact h

/-- A rendered value starts with neither white space nor a closing bracket. -/
theorem render_head (j : Json) (hsi : Simple j) : ∃ b rest, render j = b :: rest ∧
    isSpace b = false ∧ b ≠ 93 := by
  cases j with
  | null => exact ⟨_, _, rfl, by decide, by decide⟩
  | bool b => cases b <;> exact ⟨_, _, rfl, by decide, by decide⟩
  | num literal =>
    obtain ⟨n, rfl⟩ := hsi
    obtain ⟨b, rest, hs, head⟩ := numberHead_of_formatInteger n
    exact ⟨b, rest, by rw [render, hs], head.notSpace, head.ne (by decide)⟩
  | str raw => exact ⟨_, _, rfl, by decide, by decide⟩
  | arr items => exact ⟨_, _, rfl, by decide, by decide⟩
  | obj members => exact ⟨_, _, rfl, by decide, by decide⟩

theorem renderItems_head (item : Json) (more : List Json) (hsi : Simple item) :
    ∃ b rest, renderItems (item :: more) = b :: rest ∧ isSpace b = false ∧ b ≠ 93 := by
  obtain ⟨b, rest, hs, notSpace, notClose⟩ := render_head item hsi
  cases more with
  | nil => exact ⟨b, rest ++ [93], by rw [renderItems, hs, cons_append], notSpace, notClose⟩
  | cons next more =>
    exact ⟨b, rest ++ 44 :: renderItems (next :: more),
      by rw [renderItems, hs, cons_append]; simp, notSpace, notClose⟩

variable (fuel : Nat)

theorem parseValue_items (input : Bytes) (items : List Json) (rest : Bytes)
    (head : ∃ b tail, input = b :: tail ∧ isSpace b = false ∧ b ≠ 93)
    (inner : parseItems fuel input = some (items, rest)) :
    parseValue (fuel + 1) (91 :: input) = some (arr items, rest) := by
  obtain ⟨b, tail, rfl, notSpace, notClose⟩ := head
  rw [parseValue, skipSpace_cons 91 _ (by decide)]
  simp only [skipSpace_cons b tail notSpace]
  split
  · rename_i close
    simp only [cons.injEq] at close
    exact absurd close.1 notClose
  · rw [inner]
    rfl

theorem parseValue_members (tail : Bytes) (members : List (Bytes × Json))
    (rest : Bytes) (inner : parseMembers fuel (34 :: tail) = some (members, rest)) :
    parseValue (fuel + 1) (123 :: 34 :: tail) = some (obj members, rest) := by
  rw [parseValue, skipSpace_cons 123 _ (by decide)]
  simp only [skipSpace_cons 34 tail (by decide)]
  split
  · rename_i close
    cases close
  · rw [inner]
    rfl

theorem renderMembers_cons (key : Bytes) (value : Json) (more : List (Bytes × Json)) :
    ∃ tail, renderMembers ((key, value) :: more) = 34 :: tail := by
  cases more with
  | nil => exact ⟨_, by rw [renderMembers]; rfl⟩
  | cons next more =>
    refine ⟨key ++ 34 :: 58 :: render value ++ 44 :: renderMembers (next :: more), ?_⟩
    rw [renderMembers]
    · simp
    · simp

/-- One member: its key, its value, and the sign after it. -/
theorem parseMembers_step (key : Bytes) (value : Json) (sign : UInt8) (rest : Bytes)
    (plain : PlainText key) (notSpace : isSpace sign = false)
    (read : parseValue fuel (render value ++ sign :: rest) = some (value, sign :: rest)) :
    parseMembers (fuel + 1) (34 :: key ++ 34 :: 58 :: render value ++ sign :: rest) =
    if sign = 44 then
        (parseMembers fuel rest).map fun (members, after) => ((key, value) :: members, after)
      else if sign = 125 then some ([(key, value)], rest) else none := by
  have hs : 34 :: key ++ 34 :: 58 :: render value ++ sign :: rest =
      34 :: (key ++ 34 :: (58 :: (render value ++ sign :: rest))) := by simp
  rw [hs, parseMembers, skipSpace_cons 34 _ (by decide)]
  simp only [scanString_plain key _ plain, skipSpace_cons 58 _ (by decide), read,
    skipSpace_cons sign _ notSpace]
  split
  · rename_i comma
    cases comma
    rfl
  · rename_i close
    cases close
    rfl
  · rename_i notComma notClose
    rw [if_neg fun h => notComma rest (by rw [h]), if_neg fun h => notClose rest (by rw [h])]

theorem parseItems_step (item : Json) (sign : UInt8) (rest : Bytes)
    (notSpace : isSpace sign = false)
    (read : parseValue fuel (render item ++ sign :: rest) = some (item, sign :: rest)) :
    parseItems (fuel + 1) (render item ++ sign :: rest) =
      if sign = 44 then (parseItems fuel rest).map fun (items, after) => (item :: items, after)
      else if sign = 93 then some ([item], rest) else none := by
  rw [parseItems, read]
  simp only [skipSpace_cons sign _ notSpace]
  split
  · rename_i comma
    cases comma
    rfl
  · rename_i close
    cases close
    rfl
  · rename_i notComma notClose
    rw [if_neg fun h => notComma rest (by rw [h]), if_neg fun h => notClose rest (by rw [h])]

/-- With this fuel every rendered value is read back, whatever follows it that is no part of a
number. -/
def ReadsValues (fuel : Nat) : Prop :=
  ∀ (j : Json) (rest : Bytes), Simple j → (render j).length ≤ fuel → NumberStop rest →
    parseValue fuel (render j ++ rest) = some (j, rest)

def ReadsItems (fuel : Nat) : Prop :=
  ∀ (item : Json) (more : List Json) (rest : Bytes), SimpleItems (item :: more) →
    (renderItems (item :: more)).length ≤ fuel →
    parseItems fuel (renderItems (item :: more) ++ rest) = some (item :: more, rest)

def ReadsMembers (fuel : Nat) : Prop :=
  ∀ (key : Bytes) (value : Json) (more : List (Bytes × Json)) (rest : Bytes),
    SimpleMembers ((key, value) :: more) → (renderMembers ((key, value) :: more)).length ≤ fuel →
    parseMembers fuel (renderMembers ((key, value) :: more) ++ rest) =
    some ((key, value) :: more, rest)

theorem readsValues_succ (items : ReadsItems fuel) (members : ReadsMembers fuel) :
    ReadsValues (fuel + 1) := by
  intro j rest hsi he stop
  cases j with
  | null =>
    rw [parseValue]
    rfl
  | bool b =>
    cases b <;>
    · rw [parseValue]
      rfl
  | num literal =>
    obtain ⟨n, rfl⟩ := hsi
    exact parseValue_number n fuel rest stop
  | str raw =>
    have hs : render (str raw) ++ rest = 34 :: (raw ++ 34 :: rest) := by simp [render]
    rw [hs, parseValue, skipSpace_cons 34 _ (by decide)]
    simp only [scanString_plain raw rest hsi, Option.map_some]
  | arr list =>
    cases list with
    | nil =>
      rw [parseValue]
      rfl
    | cons item more =>
      have inner := items item more rest hsi (by simpa [render] using he)
      obtain ⟨b, tail, hs, notSpace, notClose⟩ := renderItems_head item more hsi.1
      exact parseValue_items fuel _ _ rest ⟨b, tail ++ rest,
        by rw [hs]; rfl, notSpace, notClose⟩ inner
  | obj list =>
    cases list with
    | nil =>
      rw [parseValue]
      rfl
    | cons member more =>
      obtain ⟨key, value⟩ := member
      have inner := members key value more rest hsi (by simpa [render] using he)
      obtain ⟨tail, hs⟩ := renderMembers_cons key value more
      rw [render, hs]
      rw [hs] at inner
      exact parseValue_members fuel (tail ++ rest) _ rest inner

theorem readsItems_succ (values : ReadsValues fuel) (items : ReadsItems fuel) :
    ReadsItems (fuel + 1) := by
  intro item more rest hsi he
  cases more with
  | nil =>
    simp only [renderItems, length_append, length_singleton] at he
    have read := values item (93 :: rest) hsi.1 (by omega) (numberStop_cons _ _ (by decide))
    rw [renderItems, append_assoc, cons_append, nil_append,
      parseItems_step fuel item 93 rest (by decide) read]
    rfl
  | cons next more =>
    have hs : renderItems (item :: next :: more) =
        render item ++ 44 :: renderItems (next :: more) := by rw [renderItems]; simp
    rw [hs, length_append, length_cons] at he
    have read := values item (44 :: (renderItems (next :: more) ++ rest)) hsi.1 (by omega)
      (numberStop_cons _ _ (by decide))
    have tail := items next more rest hsi.2 (by omega)
    rw [hs, append_assoc, cons_append, parseItems_step fuel item 44 _ (by decide) read,
      if_pos rfl, tail]
    rfl

theorem readsMembers_succ (values : ReadsValues fuel) (members : ReadsMembers fuel) :
    ReadsMembers (fuel + 1) := by
  intro key value more rest hsi he
  cases more with
  | nil =>
    have hs : renderMembers [(key, value)] ++ rest =
        34 :: key ++ 34 :: 58 :: render value ++ 125 :: rest := by simp [renderMembers]
    simp only [renderMembers, length_append, length_cons, length_nil] at he
    have read := values value (125 :: rest) hsi.2.1 (by omega) (numberStop_cons _ _ (by decide))
    rw [hs, parseMembers_step fuel key value 125 rest hsi.1 (by decide) read]
    rfl
  | cons next more =>
    have flat : renderMembers ((key, value) :: next :: more) =
        34 :: key ++ 34 :: 58 :: render value ++ 44 :: renderMembers (next :: more) := by
      rw [renderMembers]; simp
    have hs : renderMembers ((key, value) :: next :: more) ++ rest =
        34 :: key ++ 34 :: 58 :: render value ++ 44 :: (renderMembers (next :: more) ++ rest) := by
      rw [flat]; simp
    rw [flat] at he
    simp only [length_append, length_cons] at he
    have read := values value _ hsi.2.1 (by omega)
      (numberStop_cons 44 (renderMembers (next :: more) ++ rest) (by decide))
    obtain ⟨nextKey, nextValue⟩ := next
    have tail := members nextKey nextValue more rest hsi.2.2 (by omega)
    rw [hs, parseMembers_step fuel key value 44 _ hsi.1 (by decide) read, if_pos rfl, tail]
    rfl

theorem reads_all : ReadsValues fuel ∧ ReadsItems fuel ∧ ReadsMembers fuel := by
  induction fuel with
  | zero =>
    refine ⟨?_, ?_, ?_⟩
    · intro j rest hsi he
      obtain ⟨b, tail, hs, _⟩ := render_head j hsi
      simp [hs] at he
    · intro item more rest hsi he
      obtain ⟨b, tail, hs, _⟩ := renderItems_head item more hsi.1
      simp [hs] at he
    · intro key value more rest hsi he
      obtain ⟨tail, hs⟩ := renderMembers_cons key value more
      simp [hs] at he
  | succ fuel ih =>
    obtain ⟨values, items, hme⟩ := ih
    exact ⟨readsValues_succ fuel items hme, readsItems_succ fuel values items,
      readsMembers_succ fuel values hme⟩

theorem parse_render (j : Json) (hsi : Simple j) : parse (render j) = some j := by
  have read := (reads_all ((render j).length + 1)).1 j [] hsi (by omega) (by rintro b ⟨⟩)
  rw [append_nil] at read
  simp [parse, read, skipSpace]

end Json

end HNBChain.Lib
