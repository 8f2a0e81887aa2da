import HNBChain.Lib.Octets

/-!
# Codecs of fixed size

A codec writes every value of its type to the same number of octets and reads it back from them.
Machine integers are written with their lowest octet first, records field by field. A reader of a
stream takes the octets of a value off its head and does not look at what follows.
-/
namespace HNBChain.Lib

open List

structure FixedCodec (α : Type) where
  size : Nat
  write : α → Bytes
  read : Bytes → α
  length_write : ∀ a, (write a).length = size
  read_write : ∀ a, read (write a) = a

namespace FixedCodec

variable {α β : Type}

/-- Values that a number below `256 ^ size` stands for, lowest octet first. -/
def littleEndian (size : Nat) (number : α → Nat) (value : Nat → α)
    (fits : ∀ a, number a < 256 ^ size) (inverse : ∀ a, value (number a) = a) : FixedCodec α where
  size := size
  write a := (Octets.bigEndian size (number a)).reverse
  read octets := value (Octets.ofBigEndian octets.reverse)
  length_write a := by rw [length_reverse, Octets.length_bigEndian]
  read_write a := by rw [reverse_reverse, Octets.ofBigEndian_bigEndian _ _ (fits a), inverse]

def uint8 : FixedCodec UInt8 := littleEndian 1 UInt8.toNat UInt8.ofNat UInt8.toNat_lt fun _ =>
    UInt8.ofNat_toNat

def uint16 : FixedCodec UInt16 :=
  littleEndian 2 UInt16.toNat UInt16.ofNat UInt16.toNat_lt fun _ => UInt16.ofNat_toNat

def uint32 : FixedCodec UInt32 :=
  littleEndian 4 UInt32.toNat UInt32.ofNat UInt32.toNat_lt fun _ => UInt32.ofNat_toNat

def uint64 : FixedCodec UInt64 :=
  littleEndian 8 UInt64.toNat UInt64.ofNat UInt64.toNat_lt fun _ => UInt64.ofNat_toNat

/-- One octet; all but zero are read as true. -/
def bool : FixedCodec Bool where
  size := 1
  write b := [if b then 1 else 0]
  read octets := octets != [0]
  length_write _ := rfl
  read_write b := by cases b <;> rfl

/-- The first octets, with zeros where there are too few. -/
def padded (n : Nat) (octets : Bytes) : List.Vector UInt8 n :=
    ⟨octets.takeD n 0, takeD_length n octets 0⟩

/-- An array of octets. -/
def octets (n : Nat) : FixedCodec (List.Vector UInt8 n) where
  size := n
  write v := v.toList
  read octets := padded n octets
  length_write v := v.toList_length
  read_write v := by
    refine List.Vector.eq _ _ ?_
    have all : v.toList.takeD n 0 = v.toList := by
      rw [takeD_eq_take _ (Nat.le_of_eq v.toList_length.symm),
        take_of_length_le (Nat.le_of_eq v.toList_length)]
    exact all

def pair (first : FixedCodec α) (second : FixedCodec β) : FixedCodec (α × β) where
  size := first.size + second.size
  write v := first.write v.1 ++ second.write v.2
  read octets := (first.read (octets.take first.size), second.read (octets.drop first.size))
  length_write v := by rw [length_append, first.length_write, second.length_write]
  read_write v := by
    rw [← first.length_write v.1, take_left, drop_left, first.read_write, second.read_write]

/-- A record as the tuple of its fields. -/
def record (codec : FixedCodec β) (fields : α → β) (build : β → α)
    (inverse : ∀ a, build (fields a) = a) : FixedCodec α where
  size := codec.size
  write a := codec.write (fields a)
  read octets := build (codec.read octets)
  length_write a := codec.length_write _
  read_write a := by rw [codec.read_write, inverse]

def int64 : FixedCodec Int64 := record uint64 Int64.toUInt64 UInt64.toInt64 fun _ => rfl

/-- The value at the head of a stream and what follows it, or none if the stream ends before. -/
def readFrom (codec : FixedCodec α) (stream : Bytes) : Option (α × Bytes) :=
  if stream.length < codec.size then none
  else some (codec.read (stream.take codec.size), stream.drop codec.size)

theorem readFrom_write (codec : FixedCodec α) (a : α) (rest : Bytes) :
    codec.readFrom (codec.write a ++ rest) = some (a, rest) := by
  have he : ¬ (codec.write a ++ rest).length < codec.size := by
    rw [length_append, codec.length_write]
    omega
  rw [readFrom, if_neg he, ← codec.length_write a, take_left, drop_left, codec.read_write]

end FixedCodec

end HNBChain.Lib
