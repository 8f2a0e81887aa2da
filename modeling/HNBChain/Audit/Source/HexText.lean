import HNBChain.Lib.JsonText

/-!
# Hexadecimal text

`util/byteAndStringConv.go`. `HexToByte` counts bytes and indexes characters.
-/
namespace HNBChain.Audit.Source.HexText

open Lib Octets

/-- How much room Go gives a slice of so many characters. What is beyond them in it is zero. -/
structure Runtime where
  cap : Nat → Nat
  enough : ∀ n, n ≤ cap n

/-- The characters of a text, with the single bytes for those that are; of the others it matters
only that they are not. -/
def runesFrom : Nat → Bytes → List (Option UInt8)
  | 0, _ => []
  | _, [] => []
  | fuel + 1, b :: rest =>
    if b < 128 then some b :: runesFrom fuel rest
    else none :: runesFrom fuel (rest.drop (Json.sequenceLength (b :: rest) - 1))

def runes (text : Bytes) : List (Option UInt8) := runesFrom text.length text

/-- `ParseInt` of two characters: a sign and a digit is a number too, and the value after an error
is 0. -/
def parsePair (first second : Option UInt8) : UInt8 :=
  match first.bind fun a => second.bind fun b => (hexValue b).map fun low => (a, low) with
  | none => 0
  | some (a, low) =>
    if a = 43 then UInt8.ofNat low
    else if a = 45 then -UInt8.ofNat low
    else
      match hexValue a with
      | none => 0
      | some high => UInt8.ofNat (16 * high + low)

/-- The loop from `i` on. A slice may be cut beyond its length and not beyond its capacity. -/
def readPairs (rs : List (Option UInt8)) (cap : Nat) : (count i : Nat) → Option Bytes
  | 0, _ => some []
  | count + 1, i =>
    if i * 2 + 2 ≤ cap then
      let value := parsePair (rs.getD (i * 2) (some 0)) (rs.getD (i * 2 + 1) (some 0))
      (readPairs rs cap count (i + 1)).map (value :: ·)
    else none

/-- None for a slice out of range. -/
def hexToByte (rt : Runtime) (hex : Bytes) : Option Bytes :=
  readPairs (runes hex) (rt.cap (runes hex).length) (hex.length / 2) 0

def byteToHex (data : Bytes) : Bytes :=
  data.flatMap fun b =>
    let s :=
      if b < 16 then [hexDigit b.toNat] else [hexDigit (b.toNat / 16), hexDigit (b.toNat % 16)]
    if s.length = 1 then 48 :: s else s

def toHex (b : Bytes) : Bytes :=
  let hex := byteToHex b
  [48, 120] ++ if hex.length = 0 then [48] else hex

/-- The text that `FromHex` hands on. -/
def digits (s : Bytes) : Bytes :=
  let s := if 1 < s.length ∧ (s.take 2 = [48, 120] ∨ s.take 2 = [48, 88]) then s.drop 2 else s
  if s.length % 2 = 1 then 48 :: s else s

def fromHex (rt : Runtime) (s : Bytes) : Option Bytes := hexToByte rt (digits s)

end HNBChain.Audit.Source.HexText
