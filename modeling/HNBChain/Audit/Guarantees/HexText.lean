import HNBChain.Audit.Source.HexText
import Mathlib.Data.List.GetD

/-!
# Bytes to hexadecimal text and back

`HexToByte` counts bytes and indexes characters: a text of wide characters has more bytes than the
slice of its characters can be cut from. `ToHex` writes one digit for no bytes, which `FromHex`
reads as one byte.
-/
namespace HNBChain.Audit.Guarantees.HexText

open Lib Octets Source.HexText

/-- The slices reach up to an even number of characters. -/
def Fits (rt : Runtime) (hex : Bytes) : Prop := hex.length / 2 * 2 ≤ rt.cap (runes hex).length

instance (rt : Runtime) (hex : Bytes) : Decidable (Fits rt hex) :=
  inferInstanceAs (Decidable (_ ≤ _))

/-- The loop gets through exactly if its last slice can be cut. -/
theorem readPairs_isSome (rs : List (Option UInt8)) (cap count i : Nat) :
    (readPairs rs cap count i).isSome ↔ (0 < count → (i + count) * 2 ≤ cap) := by
  induction count generalizing i with
  | zero => simp [readPairs]
  | succ count ih =>
    rw [readPairs]
    split_ifs with cut
    · rw [Option.isSome_map, ih]
      omega
    · refine iff_of_false nofun ?_
      omega

variable (rt : Runtime)

theorem hexToByte_isSome (hex : Bytes) : (hexToByte rt hex).isSome ↔ Fits rt hex := by
  unfold hexToByte Fits
  rw [readPairs_isSome]
  omega

theorem runesFrom_ascii (text : Bytes) (fuel : Nat) (he : text.length ≤ fuel)
    (ascii : ∀ b ∈ text, b < 128) : runesFrom fuel text = text.map some := by
  induction text generalizing fuel with
  | nil => cases fuel <;> rfl
  | cons b rest ih =>
    obtain ⟨fuel, rfl⟩ : ∃ k, fuel = k + 1 := ⟨fuel - 1, by simp at he; omega⟩
    rw [runesFrom, if_pos (ascii b List.mem_cons_self),
        ih fuel (by simpa using he) fun c hm =>
      ascii c (List.mem_cons_of_mem b hm), List.map_cons]

variable (data : Bytes)

theorem byteToHex_eq : byteToHex data = encodeHex data := by
  induction data with
  | nil => rfl
  | cons b rest ih =>
    rw [encodeHex, ← ih, byteToHex, List.flatMap_cons]
    by_cases small : b < 16
    · have digit : b.toNat < 16 := UInt8.lt_iff_toNat_lt.mp small
      rw [Nat.div_eq_of_lt digit, Nat.mod_eq_of_lt digit]
      simp only [small, if_true]
      rfl
    · simp only [small, if_false]
      rfl

theorem length_encodeHex : (encodeHex data).length = data.length * 2 := by
  induction data with
  | nil => rfl
  | cons b rest ih =>
    simp only [encodeHex, List.length_cons, ih]
    omega

theorem parsePair_digits (b : UInt8) :
    parsePair (some (hexDigit (b.toNat / 16))) (some (hexDigit (b.toNat % 16))) = b := by
  have bound := b.toNat_lt
  have high := hexDigit_facts (b.toNat / 16) (by omega)
  have low := hexDigit_facts (b.toNat % 16) (by omega)
  have signs : ∀ n < 16, hexDigit n ≠ 43 ∧ hexDigit n ≠ 45 := by decide
  have plain := signs (b.toNat / 16) (by omega)
  have back : 16 * (b.toNat / 16) + b.toNat % 16 = b.toNat := by omega
  simp [parsePair, high.1, low.1, plain, back]

/-- The digits that were read before stand in front. -/
theorem readPairs_encodeHex (front : List (Option UInt8)) {cap i : Nat}
    (read : front.length = i * 2) (fits : (i + data.length) * 2 ≤ cap) :
    readPairs (front ++ (encodeHex data).map some) cap data.length i = some data := by
  induction data generalizing front i with
  | nil => rfl
  | cons b rest ih =>
    rw [List.length_cons] at fits
    have next := ih (front ++ [some (hexDigit (b.toNat / 16)), some (hexDigit (b.toNat % 16))])
      (i := i + 1) (by simp [read]; omega) (by omega)
    rw [List.append_assoc] at next
    rw [List.length_cons, readPairs, if_pos (by omega)]
    have h1 := List.getD_append_right front ((encodeHex (b :: rest)).map some) (some 0) (i * 2)
      read.le
    have h2 := List.getD_append_right front ((encodeHex (b :: rest)).map some) (some 0)
      (i * 2 + 1) (by omega)
    have one : i * 2 + 1 - i * 2 = 1 := by omega
    rw [h1, h2, read, Nat.sub_self, one]
    exact congrArg (Option.map _) next |>.trans
      (congrArg (fun b => some (b :: rest)) (parsePair_digits b))

theorem hexToByte_encodeHex : hexToByte rt (encodeHex data) = some data := by
  have read : runes (encodeHex data) = (encodeHex data).map some := by
    refine runesFrom_ascii _ _ le_rfl fun b hm => ?_
    obtain ⟨n, hs, rfl⟩ := mem_encodeHex data b hm
    exact (hexDigit_facts n hs).2.1.2
  have room : (0 + data.length) * 2 ≤ rt.cap (data.length * 2) :=
    (Nat.zero_add data.length).symm ▸ rt.enough _
  unfold hexToByte
  rw [read, List.length_map, length_encodeHex, Nat.mul_div_cancel _ (by decide)]
  exact readPairs_encodeHex data [] rfl room

theorem fromHex_toHex : fromHex rt (toHex data) = some data ↔ data ≠ [] := by
  unfold fromHex toHex
  rw [byteToHex_eq]
  cases data with
  | nil =>
    refine iff_of_false (fun same => ?_) (fun some_ => some_ rfl)
    change hexToByte rt [48, 48] = some [] at same
    rw [show ([48, 48] : Bytes) = encodeHex [0] from rfl, hexToByte_encodeHex] at same
    cases same
  | cons b rest =>
    have size := length_encodeHex (b :: rest)
    have kept : digits ([48, 120] ++ encodeHex (b :: rest)) = encodeHex (b :: rest) := by
      simp [digits, size]
    have hw : (encodeHex (b :: rest)).length ≠ 0 := by simp [size]
    dsimp only
    rw [if_neg hw, kept]
    exact iff_of_true (hexToByte_encodeHex rt (b :: rest)) (by simp)

/-- The round trips, and that any text is read. -/
def Converts (b s : Bytes) : Prop :=
  hexToByte rt (byteToHex b) = some b ∧ fromHex rt (toHex b) = some b ∧
    (hexToByte rt s).isSome ∧ (fromHex rt s).isSome

theorem converts_iff (b s : Bytes) : Converts rt b s ↔ b ≠ [] ∧ Fits rt s ∧ Fits rt (digits s) := by
  unfold Converts
  rw [byteToHex_eq, hexToByte_encodeHex, fromHex_toHex, hexToByte_isSome, fromHex, hexToByte_isSome]
  simp only [true_and]

/-- More room than Go gives. -/
def roomy : Runtime := ⟨fun n => max 32 (2 * n), fun n => by omega⟩

theorem wide_panics : fromHex roomy (toHex []) = some [0] ∧
    hexToByte roomy (List.replicate 12 [228, 184, 150]).flatten = none := by
  decide

end HNBChain.Audit.Guarantees.HexText
