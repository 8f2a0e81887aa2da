import HNBChain.Audit.Source.Algorand.Signatures
import HNBChain.Audit.Guarantees.RoundMonotone

/-!
# The commit inside a block

`ValidateBlock` verifies the commit of the previous block and only prints what the verification
says. The verification itself counts a validator once for every precommit that names it, and does
not look at the block a precommit is for.

`cleaned` is the commit without the precommits that should not count. Where the powers do not
overflow, a validated block has a certificate exactly if the verification accepts this one.
-/
namespace HNBChain.Audit.Guarantees.CommitCertificate

open Lib Source Source.Algorand List ValidatorSet

/-- A precommit of the commit's round for the block, signed by the validator with the index. -/
structure Signs (curve : Curve) (vals : ValidatorSet) (height : Nat) (id : BlockID)
    (commit : Commit) (i : Nat) (v : Vote) : Prop where
  listed : some v ∈ commit.precommits
  index : v.validatorIndex = i
  type : v.type = .precommit
  height : v.height = height
  round : v.round = commit.round
  blockID : v.blockID = id
  signature : ∃ val, vals.validators[i]? = some val ∧ mspVerify curve val.pubKeyStr v = .ok true

/-- Distinct validators with more than two thirds of the power. -/
def Certified (curve : Curve) (vals : ValidatorSet) (height : Nat) (id : BlockID)
    (commit : Commit) : Prop :=
  ∃ signers : Finset Nat, (∀ i ∈ signers, ∃ v, Signs curve vals height id commit i v) ∧
    2 * vals.wholePower < 3 * ∑ i ∈ signers, vals.power i

/-! ## The commit without what should not count -/

section

variable (curve : Curve) (s : State)

/-- For the previous block, and signed by the validator it names. -/
def Genuine (v : Vote) : Prop :=
  v.blockID = s.lastBlockID ∧ s.lastValidators.verifyVoteSign curve v = .ok ()

instance decidableGenuine (v : Vote) : Decidable (Genuine curve s v) :=
  inferInstanceAs (Decidable (_ ∧ _))

/-- Of the genuine precommits, the first that names its validator. -/
def clean (seen : List Int) : List (Option Vote) → List (Option Vote)
  | [] => []
  | none :: rest => none :: clean seen rest
  | some v :: rest =>
    if Genuine curve s v ∧ v.validatorIndex ∉ seen then some v :: clean
      (v.validatorIndex :: seen) rest
    else none :: clean seen rest

def cleaned (commit : Commit) : Commit :=
    { commit with precommits := clean curve s [] commit.precommits }

end

section Clean

variable {curve : Curve} {s : State}

theorem mem_clean {seen : List Int} {votes : List (Option Vote)} {v : Vote}
    (hm : some v ∈ clean curve s seen votes) :
    some v ∈ votes ∧ Genuine curve s v ∧ v.validatorIndex ∉ seen := by
  induction votes generalizing seen with
  | nil => cases hm
  | cons first rest ih =>
    cases first with
    | none =>
      obtain ⟨hl, counts⟩ := ih ((mem_cons.mp hm).resolve_left nofun)
      exact ⟨mem_cons_of_mem _ hl, counts⟩
    | some w =>
      unfold clean at hm
      split_ifs at hm with counts
      · rcases mem_cons.mp hm with same | hla
        · obtain rfl := Option.some.inj same
          exact ⟨mem_cons_self, counts⟩
        · obtain ⟨hl, hg, unseen⟩ := ih hla
          exact ⟨mem_cons_of_mem _ hl, hg, fun old => unseen (mem_cons_of_mem _ old)⟩
      · obtain ⟨hl, counts⟩ := ih ((mem_cons.mp hm).resolve_left nofun)
        exact ⟨mem_cons_of_mem _ hl, counts⟩

/-- No validator is named twice in what is left. -/
theorem clean_distinct (seen : List Int) (votes : List (Option Vote)) :
    ((clean curve s seen votes).reduceOption.map Vote.validatorIndex).Nodup := by
  induction votes generalizing seen with
  | nil => exact nodup_nil
  | cons first rest ih =>
    cases first with
    | none => exact ih seen
    | some v =>
      unfold clean
      split_ifs with counts
      · refine nodup_cons.mpr ⟨fun hag => ?_, ih (v.validatorIndex :: seen)⟩
        obtain ⟨w, hm, same⟩ := mem_map.mp hag
        exact (mem_clean (reduceOption_mem_iff.mp hm)).2.2 (same ▸ mem_cons_self)
      · exact ih seen

/-- Every validator that a genuine precommit names is named in what is left. -/
theorem clean_covers (seen : List Int) {votes : List (Option Vote)} {v : Vote}
    (hl : some v ∈ votes) (hg : Genuine curve s v) :
    v.validatorIndex ∈ seen ∨ ∃ w, some w ∈ clean curve s seen votes ∧
    w.validatorIndex = v.validatorIndex := by
  induction votes generalizing seen with
  | nil => cases hl
  | cons first rest ih =>
    cases first with
    | none =>
      rcases ih seen ((mem_cons.mp hl).resolve_left nofun) with old | ⟨w, hm, same⟩
      · exact .inl old
      · exact .inr ⟨w, mem_cons_of_mem _ hm, same⟩
    | some u =>
      unfold clean
      split_ifs with counts
      · rcases mem_cons.mp hl with same | hla
        · obtain rfl := Option.some.inj same
          exact .inr ⟨v, mem_cons_self, rfl⟩
        · rcases ih (u.validatorIndex :: seen) hla with old | ⟨w, hm, same⟩
          · rcases mem_cons.mp old with now | old
            · exact .inr ⟨u, mem_cons_self, now.symm⟩
            · exact .inl old
          · exact .inr ⟨w, mem_cons_of_mem _ hm, same⟩
      · rcases mem_cons.mp hl with same | hla
        · obtain rfl := Option.some.inj same
          exact .inl (not_not.mp fun unseen => counts ⟨hg, unseen⟩)
        · rcases ih seen hla with old | ⟨w, hm, same⟩
          · exact .inl old
          · exact .inr ⟨w, mem_cons_of_mem _ hm, same⟩

end Clean

/-! ## The checks of a commit on its own -/

/-- The precommits of a commit that passed its own checks are of one height and round. -/
theorem of_validateBasic {commit : Commit} (ok : commit.validateBasic = .ok ()) {v : Vote}
    (hl : some v ∈ commit.precommits) :
    v.type = .precommit ∧ v.height = commit.height ∧ v.round = commit.round := by
  unfold Commit.validateBasic at ok
  split_ifs at ok
  have hp := forM_ok ok v (reduceOption_mem_iff.mpr hl)
  split_ifs at hp with type height round
  exact ⟨not_not.mp type, not_not.mp height, not_not.mp round⟩

/-- The precommit that gives a commit its height and round, if there is one. -/
theorem firstPrecommit_of_mem {commit : Commit} {v : Vote} (hl : some v ∈ commit.precommits) :
    ∃ w, some w ∈ commit.precommits ∧ commit.height = w.height ∧ commit.round = w.round := by
  cases found : commit.firstPrecommit with
  | none => exact absurd (findSome?_eq_none_iff.mp found _ hl) nofun
  | some w =>
    obtain ⟨o, hm, same⟩ := exists_of_findSome?_eq_some found
    refine ⟨w, same ▸ hm, ?_, ?_⟩
    · rw [Commit.height, found]
      rfl
    · rw [Commit.round, found]
      rfl

/-! ## The verification of what is left -/

section Main

variable {curve : Curve} {s : State} {votes : List (Option Vote)}

def signersOf (votes : List (Option Vote)) : List Nat :=
  votes.reduceOption.map fun v => v.validatorIndex.toNat

theorem mem_signersOf {i : Nat} :
    i ∈ signersOf votes ↔ ∃ v, some v ∈ votes ∧ v.validatorIndex.toNat = i := by
  unfold signersOf
  simp only [mem_map, reduceOption_mem_iff]

/-- The validator that a genuine precommit names. -/
theorem mem_clean_signs {v : Vote} (left : some v ∈ clean curve s [] votes) :
    ∃ i : Nat, v.validatorIndex = i ∧ ∃ val, s.lastValidators.validators[i]? = some val ∧
      mspVerify curve val.pubKeyStr v = .ok true :=
  verifyVoteSign_ok.mp (mem_clean left).2.1.2

/-- Genuine precommits have the indices of validators, so no two of them agree as numbers either. -/
theorem nodup_signersOf_clean (votes : List (Option Vote)) :
    (signersOf (clean curve s [] votes)).Nodup := by
  have ints : ((clean curve s [] votes).reduceOption.map Vote.validatorIndex).Nodup :=
    clean_distinct [] votes
  have pairs := (pairwise_map.mp ints).imp_of_mem (S := fun v w : Vote =>
      v.validatorIndex.toNat ≠ w.validatorIndex.toNat) fun {v w} left right distinct => by
    obtain ⟨i, index, _⟩ := mem_clean_signs (reduceOption_mem_iff.mp left)
    obtain ⟨j, index', _⟩ := mem_clean_signs (reduceOption_mem_iff.mp right)
    omega
  exact pairwise_map.mpr pairs

/-- No validator counts twice, so the tally is their power and does not overflow. -/
theorem tallyOf_clean (hb : s.lastValidators.Bounded) (votes : List (Option Vote)) :
    tallyOf s.lastValidators (clean curve s [] votes) 0 =
      ∑ i ∈ (signersOf (clean curve s [] votes)).toFinset, s.lastValidators.power i := by
  have each : ∀ v ∈ (clean curve s [] votes).reduceOption, powerOf s.lastValidators v =
      s.lastValidators.power v.validatorIndex.toNat := by
    intro v hm
    obtain ⟨i, index, _⟩ := mem_clean_signs (reduceOption_mem_iff.mp hm)
    rw [powerOf, getByIndex, index, if_neg (by omega)]
    rfl
  have sum : ∑ i ∈ (signersOf (clean curve s [] votes)).toFinset, s.lastValidators.power i =
      ((clean curve s [] votes).reduceOption.map (powerOf s.lastValidators)).sum := by
    rw [sum_toFinset _ (nodup_signersOf_clean votes), signersOf, map_map]
    exact congrArg List.sum (map_congr_left fun v hm => (each v hm).symm)
  have hi : (signersOf (clean curve s [] votes)).toFinset ⊆
      Finset.range s.lastValidators.size := by
    intro i hm
    obtain ⟨v, left, rfl⟩ := mem_signersOf.mp (mem_toFinset.mp hm)
    obtain ⟨i, index, val, hf, _⟩ := mem_clean_signs left
    rw [index, Int.toNat_natCast]
    exact Finset.mem_range.mpr (List.getElem?_eq_some_iff.mp hf).1
  have hbe := Finset.sum_le_sum_of_subset_of_nonneg hi fun i _ _ =>
    power_nonneg hb.nonneg i
  rw [← wholePower_eq_sum] at hbe
  have hsm := hb.small
  have hw := hb.total.1
  rw [sum] at hbe ⊢
  rw [tallyOf_eq (fun v hm => ?_) le_rfl (by omega), zero_add]
  rw [each v hm]
  exact power_nonneg hb.nonneg _

variable {b : Algorand.Block} (bounded : s.lastValidators.Bounded)
  (basic : b.lastCommit.validateBasic = .ok ())

include bounded basic

/-- The precommits that are left and pass are a certificate. -/
theorem certified_of_accepted
    (ha : s.lastValidators.verifyCommitVoteSign curve (b.header.blockNum - 1)
      (cleaned curve s b.lastCommit) = .ok ()) :
    Certified curve s.lastValidators (b.header.blockNum - 1) s.lastBlockID b.lastCommit := by
  obtain ⟨_, hpa, he⟩ := verifyCommitVoteSign_ok.mp ha
  refine ⟨(signersOf (clean curve s [] b.lastCommit.precommits)).toFinset, fun i hm => ?_, ?_⟩
  · obtain ⟨v, left, same⟩ := mem_signersOf.mp (mem_toFinset.mp hm)
    obtain ⟨hl, hg, _⟩ := mem_clean left
    obtain ⟨j, index, signature⟩ := mem_clean_signs left
    obtain rfl : j = i := by omega
    have fits := (hpa v left).1
    exact ⟨v, hl, index, fits.type, fits.height, (of_validateBasic basic hl).2.2, hg.1,
      signature⟩
  · rw [← tallyOf_clean bounded, ← bounded.threshold_lt]
    exact he

theorem accepted_of_certified
    (hc : Certified curve s.lastValidators (b.header.blockNum - 1) s.lastBlockID b.lastCommit) :
    s.lastValidators.verifyCommitVoteSign curve (b.header.blockNum - 1)
      (cleaned curve s b.lastCommit) = .ok () := by
  obtain ⟨signers, signs, he⟩ := hc
  have left : ∀ i ∈ signers, ∃ w, some w ∈ clean curve s [] b.lastCommit.precommits ∧
      w.validatorIndex.toNat = i := by
    intro i hm
    obtain ⟨v, hs⟩ := signs i hm
    have hg : Genuine curve s v :=
      ⟨hs.blockID, verifyVoteSign_ok.mpr ⟨i, hs.index, hs.signature⟩⟩
    obtain ⟨w, ht, same⟩ := (clean_covers [] hs.listed hg).resolve_left nofun
    exact ⟨w, ht, by rw [same, hs.index, Int.toNat_natCast]⟩
  have someone : ∃ i, i ∈ signers := by
    have hw := bounded.total.1
    by_contra nobody
    rw [Finset.eq_empty_of_forall_notMem fun i hm => nobody ⟨i, hm⟩,
      Finset.sum_empty] at he
    omega
  obtain ⟨i, hm⟩ := someone
  obtain ⟨v, hs⟩ := signs i hm
  have height : b.lastCommit.height = b.header.blockNum - 1 :=
    (of_validateBasic basic hs.listed).2.1.symm.trans hs.height
  -- the cleaned commit takes its height and round from one of its own precommits
  obtain ⟨w, ht, _⟩ := left i hm
  have hi : some w ∈ (cleaned curve s b.lastCommit).precommits := ht
  obtain ⟨first, kept, firstHeight, firstRound⟩ := firstPrecommit_of_mem hi
  have firstBasic := of_validateBasic basic (mem_clean kept).1
  refine verifyCommitVoteSign_ok.mpr ⟨?_, fun u left => ?_, ?_⟩
  · rw [firstHeight, firstBasic.2.1, height]
  · obtain ⟨hl, hg, _⟩ := mem_clean left
    obtain ⟨type, sameHeight, sameRound⟩ := of_validateBasic basic hl
    exact ⟨⟨sameHeight.trans height, sameRound.trans (firstRound.trans firstBasic.2.2).symm, type⟩,
      hg.2⟩
  · refine (bounded.threshold_lt _).mpr (he.trans_le ?_)
    change _ ≤ 3 * tallyOf s.lastValidators (clean curve s [] b.lastCommit.precommits) 0
    rw [tallyOf_clean bounded]
    refine Int.mul_le_mul_of_nonneg_left ?_ (by decide)
    refine Finset.sum_le_sum_of_subset_of_nonneg (fun j hm => ?_) fun j _ _ =>
      power_nonneg bounded.nonneg j
    exact mem_toFinset.mpr (mem_signersOf.mpr (left j hm))

end Main

/-- For every block that validates, with powers that do not overflow: the block has a certificate
exactly if the verification accepts the cleaned commit. -/
theorem certified_iff (d : Digests) (s : State) (b : Algorand.Block)
    (hb : s.lastValidators.Bounded) (hla : 1 < b.header.blockNum)
    (hv : validateBlock d s b = .ok ()) :
    s.lastValidators.verifyCommitVoteSign d.curve (b.header.blockNum - 1)
        (cleaned d.curve s b.lastCommit) = .ok () ↔
      Certified d.curve s.lastValidators (b.header.blockNum - 1) s.lastBlockID b.lastCommit := by
  have basic := (validateBlock_ok hv).basic.lastCommit (by omega)
  exact ⟨certified_of_accepted hb basic, accepted_of_certified hb basic⟩

/-! ## A second block -/

open RoundMonotone

/-- One validator, after the first block. -/
def secondState : State :=
  { plainState 1 with
    lastBlockNum := 1
    lastBlockID := plainID 7 }

/-- A precommit of the first validator for the first block. -/
def firstPrecommit (signature : Bytes) : Vote :=
  { voteOf 0 0 .precommit (plainID 7) with signature := signature }

def secondBlock (signature : Bytes) : Algorand.Block :=
  { plainBlock 1 8 with
    header := { (plainBlock 1 8).header with blockNum := 2, lastBlockID := plainID 7 }
    lastCommit := ⟨plainID 7, [some (firstPrecommit signature)]⟩ }

/-- The precommit is signed, and the block has its certificate. -/
theorem certified_iff_second : validateBlock digests secondState (secondBlock [1, 2]) = .ok () ∧
      Certified plainCurve secondState.lastValidators 1 (plainID 7)
        (secondBlock [1, 2]).lastCommit := by
  have hv : validateBlock digests secondState (secondBlock [1, 2]) = .ok () := by decide
  have hb : secondState.lastValidators.Bounded := ⟨by decide, by decide⟩
  exact ⟨hv,
    (certified_iff digests secondState (secondBlock [1, 2]) hb
      (by decide) hv).mp (by decide)⟩

/-- The precommit has one octet for a signature, which is refused, and the block validates all the
same. -/
theorem forged_commit_validates :
    secondState.lastValidators.size ≠ 0 ∧ 1 < (secondBlock [1]).header.blockNum ∧
      validateBlock digests secondState (secondBlock [1]) = .ok () ∧
        ¬ Certified plainCurve secondState.lastValidators 1 (plainID 7)
          (secondBlock [1]).lastCommit := by
  refine ⟨by decide, by decide, by decide, ?_⟩
  rintro ⟨signers, signs, he⟩
  have hn : signers = ∅ := Finset.eq_empty_of_forall_notMem fun i hm => by
    obtain ⟨v, hs⟩ := signs i hm
    obtain rfl : v = firstPrecommit [1] := by simpa [secondBlock] using hs.listed
    obtain ⟨val, _, never⟩ := hs.signature
    cases never
  rw [hn, Finset.sum_empty] at he
  exact absurd he (by decide)

end HNBChain.Audit.Guarantees.CommitCertificate
