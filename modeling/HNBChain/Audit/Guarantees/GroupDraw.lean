import HNBChain.Audit.Source.Algorand.BftGroup

/-!
# Drawing a group from a hash

`CalcBFTGroupMembersByVRF` draws positions until it has enough different ones, from a window that
moves over the bits of a hash. Nothing ends the loop at the last bit: the next draw is an index out
of range. A hash that gives too few different positions for a large group ends the process.
-/
namespace HNBChain.Audit.Guarantees.GroupDraw

open Lib Source Source.Algorand List

/-- As many candidates as asked for come out, from different positions. -/
def Selects (env : BgEnv) (vrf : Bytes) (candidates : List (Option BftGroupSwitchAdvice))
    (groupSize : Nat) : Prop :=
  ∃ positions : List Nat, positions.Nodup ∧ positions.length = groupSize ∧
    (∀ position ∈ positions, position < candidates.length) ∧
    calcBFTGroupMembersByVRF env vrf candidates groupSize =
      .ok (positions.map fun position => candidates.getD position none)

section

variable (env : BgEnv) (vrf : Bytes) (candidNum : Nat)

/-- The positions that the first draws give. -/
def drawn (draws : Nat) : Finset Nat :=
    ((range draws).filterMap (calcParticipant env vrf candidNum)).toFinset

/-- There is a draw for each bit of the hash. -/
def bits : Nat := 8 * (env.sha512 vrf).length

variable {env vrf candidNum}

theorem calcParticipant_some {i : Nat} (hi : i < bits env vrf) (hp : 0 < candidNum) :
    ∃ position < candidNum, calcParticipant env vrf candidNum i = some position := by
  have octet : i / 8 < (env.sha512 vrf).length := by
    unfold bits at hi
    omega
  unfold calcParticipant
  dsimp only
  rw [getElem?_eq_getElem octet]
  exact ⟨_, Nat.mod_lt _ hp, rfl⟩

theorem calcParticipant_none {i : Nat} (ho : bits env vrf ≤ i) :
    calcParticipant env vrf candidNum i = none := by
  have octet : (env.sha512 vrf).length ≤ i / 8 := by
    unfold bits at ho
    omega
  unfold calcParticipant
  dsimp only
  rw [getElem?_eq_none octet]
  rfl

theorem drawn_succ {i position : Nat} (draw : calcParticipant env vrf candidNum i = some position) :
    drawn env vrf candidNum (i + 1) = insert position (drawn env vrf candidNum i) := by
  unfold drawn
  rw [range_succ, filterMap_append, toFinset_append, Finset.union_comm, ← Finset.singleton_union]
  simp [draw]

theorem drawn_mono {i j : Nat} (le : i ≤ j) :
    drawn env vrf candidNum i ⊆ drawn env vrf candidNum j := by
  intro position hm
  rw [drawn, mem_toFinset, mem_filterMap] at hm ⊢
  obtain ⟨k, hb, draw⟩ := hm
  exact ⟨k, mem_range.mpr ((mem_range.mp hb).trans_le le), draw⟩

theorem drawn_lt {draws position : Nat} (hp : 0 < candidNum)
    (hm : position ∈ drawn env vrf candidNum draws) : position < candidNum := by
  rw [drawn, mem_toFinset, mem_filterMap] at hm
  obtain ⟨k, _, draw⟩ := hm
  by_cases inside : k < bits env vrf
  · obtain ⟨found, hb, drew⟩ := calcParticipant_some inside hp
    rw [draw] at drew
    cases drew
    exact hb
  · rw [calcParticipant_none (not_lt.mp inside)] at draw
    cases draw

/-- The loop has the positions drawn so far, and goes on to the last bit. -/
theorem chooseMembers_spec {groupSize fuel i : Nat} {chosen : List Nat} (hp : 0 < candidNum)
    (hd : chosen.Nodup) (sofar : chosen.toFinset = drawn env vrf candidNum i)
    (few : chosen.length ≤ groupSize) (left : i + fuel = bits env vrf + 1) (hi : i ≤ bits env vrf) :
    (groupSize ≤ (drawn env vrf candidNum (bits env vrf)).card →
      ∃ positions, chooseMembers env vrf candidNum groupSize fuel i chosen = some positions ∧
      positions.Nodup ∧ positions.length = groupSize ∧ positions.toFinset ⊆ drawn env vrf candidNum
        (bits env vrf)) ∧ ((drawn env vrf candidNum (bits env vrf)).card < groupSize →
      chooseMembers env vrf candidNum groupSize fuel i chosen = none) := by
  induction fuel generalizing i chosen with
  | zero => omega
  | succ fuel ih =>
    have count : (drawn env vrf candidNum i).card = chosen.length := by
      rw [← sofar, toFinset_card_of_nodup hd]
    unfold chooseMembers
    by_cases wanted : chosen.length < groupSize
    · rw [if_pos wanted]
      by_cases last : i = bits env vrf
      · -- all bits are used up, and too few positions were drawn
        subst last
        rw [calcParticipant_none le_rfl]
        exact ⟨fun he => by omega, fun _ => rfl⟩
      · have next : i < bits env vrf := lt_of_le_of_ne hi last
        obtain ⟨position, _, draw⟩ := calcParticipant_some next hp
        have step := drawn_succ draw
        rw [draw, Option.bind_some]
        split
        next known =>
          refine ih hd ?_ few (by omega) next
          rw [step, ← sofar, Finset.insert_eq_of_mem (mem_toFinset.mpr known)]
        next new =>
          refine ih ?_ ?_ ?_ (by omega) next
          · rw [← concat_eq_append]
            exact hd.concat new
          · rw [step, ← sofar, toFinset_append, Finset.union_comm]
            rfl
          · rw [length_append, length_singleton]
            omega
    · rw [if_neg wanted]
      have full : chosen.length = groupSize := by omega
      refine ⟨fun _ => ⟨chosen, rfl, hd, full, sofar.trans_subset (drawn_mono hi)⟩,
        fun short => ?_⟩
      have more := Finset.card_le_card (@drawn_mono env vrf candidNum _ _ hi)
      omega

end

/-- For every hash, the selection succeeds exactly if its bits give enough different positions. -/
theorem calcBFTGroupMembersByVRF_selects (env : BgEnv) (vrf : Bytes)
    (candidates : List (Option BftGroupSwitchAdvice))
    (groupSize : Nat) (more : groupSize < candidates.length) :
    Selects env vrf candidates groupSize ↔
    groupSize ≤ (drawn env vrf candidates.length (bits env vrf)).card := by
  have hp : 0 < candidates.length := (Nat.zero_le _).trans_lt more
  obtain ⟨hf, panics⟩ := @chooseMembers_spec env vrf candidates.length groupSize _ 0
    [] hp nodup_nil rfl
    (Nat.zero_le _) (Nat.zero_add _) (Nat.zero_le _)
  constructor
  · rintro ⟨positions, _, _, _, hr⟩
    by_contra few
    unfold calcBFTGroupMembersByVRF at hr
    rw [if_neg (not_le.mpr more)] at hr
    have fails := panics (not_le.mp few)
    unfold bits at fails
    rw [fails] at hr
    cases hr
  · intro he
    obtain ⟨positions, chosen, hd, length, hw⟩ := hf he
    refine ⟨positions, hd, length, fun position hm => ?_, ?_⟩
    · exact drawn_lt hp (hw (mem_toFinset.mpr hm))
    · unfold bits at chosen
      unfold calcBFTGroupMembersByVRF
      rw [if_neg (not_le.mpr more), chosen]
      rfl

/-! ## Two of three candidates, and 255 of 256 -/

/-- Every value has this hash. -/
def hashing (hash : Bytes) : BgEnv := ⟨fun _ => hash, fun _ _ _ _ => none⟩

def three : List (Option BftGroupSwitchAdvice) := replicate 3 none

def oneBit : Bytes := 1 :: replicate 63 0

theorem oneBit_selects : (hashing oneBit).sha512 [] = oneBit ∧ oneBit.length = 64 ∧
    Selects (hashing oneBit) [] three 2 := by
  refine ⟨rfl, rfl, (calcBFTGroupMembersByVRF_selects (hashing oneBit) [] three 2
    (by decide)).mpr ?_⟩
  -- the first two draws are 1 and 0
  have two : (drawn (hashing oneBit) [] 3 2).card = 2 := by decide
  rw [← two]
  exact Finset.card_le_card (drawn_mono (by decide))

/-- The three octets of `abc`. -/
def abc : Bytes := [0x61, 0x62, 0x63]

/-- The SHA-512 hash of `abc`. -/
def abcHash : Bytes :=
  [221, 175, 53, 161, 147, 97, 122, 186, 204, 65, 115, 73, 174, 32, 65, 49,
    18, 230, 250, 78, 137, 169, 126, 162, 10, 158, 238, 230, 75, 85, 211, 154,
    33, 146, 153, 42, 39, 79, 193, 168, 54, 186, 60, 35, 163, 254, 235, 189,
    69, 77, 68, 35, 100, 60, 232, 14, 42, 154, 201, 79, 165, 76, 164, 159]

def candidates256 : List (Option BftGroupSwitchAdvice) := replicate 256 none

/-- No draw from the hash of `abc` gives one of these two positions. -/
theorem abcHash_misses : ∀ i < 512, calcParticipant (hashing abcHash) abc 256 i ≠ some 0 ∧
    calcParticipant (hashing abcHash) abc 256 i ≠ some 1 := by decide +kernel

theorem drawn_abcHash_card : (drawn (hashing abcHash) abc 256 512).card < 255 := by
  have hw : drawn (hashing abcHash) abc 256 512 ⊆ ((Finset.range 256).erase 0).erase 1 := by
    intro position hm
    have hb := drawn_lt (by decide) hm
    rw [drawn, mem_toFinset, mem_filterMap] at hm
    obtain ⟨i, hi, draw⟩ := hm
    obtain ⟨h1, h2⟩ := abcHash_misses i (mem_range.mp hi)
    rw [draw] at h1 h2
    simp only [Finset.mem_erase, Finset.mem_range]
    exact ⟨fun same => h2 (congrArg some same), fun same => h1 (congrArg some same), hb⟩
  refine (Finset.card_le_card hw).trans_lt ?_
  rw [Finset.card_erase_of_mem (by simp), Finset.card_erase_of_mem (by simp), Finset.card_range]
  decide

/-- The draws from the hash of `abc` name fewer than 255 of 256 candidates. -/
theorem abcHash_panics : abcHash.length = 64 ∧ candidates256.length = 256 ∧
    calcBFTGroupMembersByVRF (hashing abcHash) abc candidates256 255 = .error .panic ∧
    ¬ Selects (hashing abcHash) abc candidates256 255 := by
  have length : candidates256.length = 256 := length_replicate
  have all : bits (hashing abcHash) abc = 512 := rfl
  have exhausted : chooseMembers (hashing abcHash) abc 256 255 513 0 [] = none := by
    refine (chooseMembers_spec (by decide) nodup_nil rfl (Nat.zero_le _) ?_ (Nat.zero_le _)).2 ?_
    · rw [all]
    · rw [all]
      exact drawn_abcHash_card
  have panics : calcBFTGroupMembersByVRF (hashing abcHash) abc candidates256 255 =
      .error .panic := by
    unfold calcBFTGroupMembersByVRF
    rw [length, if_neg (by decide), show 8 * ((hashing abcHash).sha512 abc).length +
      1 = 513 from rfl,
      exhausted]
    rfl
  refine ⟨rfl, length, panics, ?_⟩
  rintro ⟨positions, _, _, _, hr⟩
  rw [panics] at hr
  cases hr

end HNBChain.Audit.Guarantees.GroupDraw
