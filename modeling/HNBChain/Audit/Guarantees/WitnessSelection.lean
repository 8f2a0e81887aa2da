import HNBChain.Audit.Guarantees.EpochQuorum

/-!
# Witnesses by votes

`getWitnessesByToken` takes the candidates in the order of their votes, and then fills up with the
other validators: with all of them in each pass, until the number is met exactly. If some places are
left and there are more validators than witnesses, the first pass already overshoots, and the loop
goes on without end.

So it comes to an end in two cases only: the votes fill all places, or every validator is a witness.
A candidate that is listed twice is chosen twice.
-/
namespace HNBChain.Audit.Guarantees.WitnessSelection

open Lib Source Source.Dbft Option
open Source.Algorand (Validator)
open EpochQuorum

/-- The validators among the candidates, in the order of the votes. -/
def voted (validators : List Validator) (tokenOrder : List Bytes) : List Validator :=
  tokenOrder.filterMap fun key => validators.find? fun val => decide (val.pubKeyStr = key)

/-- As many validators as asked for, all different, the ones with votes first. -/
def Selected (validators : List Validator) (bftNumber : Nat) (tokenOrder : List Bytes)
    (witness : List Validator) : Prop :=
  witness.length = bftNumber ∧ witness.Nodup ∧ witness ⊆ validators ∧
    (voted validators tokenOrder).take bftNumber <+: witness

/-- No candidate stands twice among those that get a place, and there are enough of them or no other
validators to choose from. -/
def Fitting (validators : List Validator) (bftNumber : Nat) (tokenOrder : List Bytes) : Prop :=
  ((voted validators tokenOrder).take bftNumber).Nodup ∧
    (bftNumber ≤ (voted validators tokenOrder).length ∨ validators.length = bftNumber ∧
      validators.Nodup)

/-! ## The candidates -/

section

variable (validators : List Validator) (bftNumber : Nat)

/-- The places of the candidates among the validators. -/
def known (tokenOrder : List Bytes) : List Nat :=
  tokenOrder.filterMap fun key => validators.findIdx? fun val => decide (val.pubKeyStr = key)

variable (tokenOrder : List Bytes)

/-- The loop stops when the number is reached. -/
theorem pickByToken_eq (chosen : List Nat) (room : chosen.length ≤ bftNumber) :
    pickByToken validators bftNumber tokenOrder chosen =
      chosen ++ (known validators tokenOrder).take (bftNumber - chosen.length) := by
  induction tokenOrder generalizing chosen with
  | nil => simp [pickByToken, known]
  | cons key rest ih =>
    unfold pickByToken
    split
    next full => simp [full]
    next places =>
      unfold known at ih ⊢
      split
      next absent => rw [ih chosen room, List.filterMap_cons, absent]
      next index found =>
        have left : bftNumber - chosen.length = (bftNumber - (chosen ++ [index]).length) + 1 := by
          rw [List.length_append, List.length_singleton]
          omega
        have fits : (chosen ++ [index]).length ≤ bftNumber := by
          rw [List.length_append, List.length_singleton]
          omega
        rw [ih _ fits, List.filterMap_cons, found, left, List.append_assoc, List.singleton_append]
        rfl

/-- The validators at these places, one for each. -/
theorem map_known : (known validators tokenOrder).map (validators[·]?) =
    (voted validators tokenOrder).map some := by
  unfold known voted
  induction tokenOrder with
  | nil => rfl
  | cons key rest ih =>
    rw [List.filterMap_cons, List.filterMap_cons, List.find?_eq_bind_findIdx?_getElem?]
    cases found : validators.findIdx? fun val => decide (val.pubKeyStr = key) with
    | none => exact ih
    | some index =>
      have hi := (List.findIdx?_eq_some_iff_getElem.mp found).1
      simp only [bind_some, List.getElem?_eq_getElem hi, List.map_cons, ih]

theorem map_take_known : ((known validators tokenOrder).take bftNumber).map (validators[·]?) =
      ((voted validators tokenOrder).take bftNumber).map some := by
  rw [List.map_take, map_known, List.map_take]

theorem filterMap_take_known :
    ((known validators tokenOrder).take bftNumber).filterMap (validators[·]?) =
      (voted validators tokenOrder).take bftNumber := by
  have same := congrArg (List.filterMap id) (map_take_known validators bftNumber tokenOrder)
  rwa [List.filterMap_map, List.filterMap_map, Function.id_comp, Function.id_comp,
    List.filterMap_some] at same

theorem voted_subset : voted validators tokenOrder ⊆ validators := by
  intro val hm
  obtain ⟨key, _, hf⟩ := List.mem_filterMap.mp hm
  exact List.mem_of_find?_eq_some hf

end

/-! ## The others -/

/-- The validators at other places. -/
def others (validators : List Validator) (chosen : List Nat) : List Validator :=
  (validators.zipIdx.filter fun entry => entry.2 ∉ chosen).map Prod.fst

/-- Different places and the others are all there are. -/
theorem chosen_others_perm (validators : List Validator) {chosen : List Nat} (hd : chosen.Nodup) :
    (chosen.filterMap (validators[·]?) ++ others validators chosen).Perm validators := by
  have places : validators.zipIdx.Nodup := (List.nodup_zipIdx_map_snd validators).of_map
  -- the chosen ones with their places
  have entries : (chosen.filterMap fun index => validators[index]?.map (·, index)).Perm
      (validators.zipIdx.filter fun entry => entry.2 ∈ chosen) := by
    refine (List.perm_ext_iff_of_nodup ?_ (places.filter _)).mpr fun entry => ?_
    · refine hd.filterMap fun i j entry atI atJ => ?_
      obtain ⟨_, _, rfl⟩ := map_eq_some_iff.mp atI
      obtain ⟨_, _, same⟩ := map_eq_some_iff.mp atJ
      exact (congrArg Prod.snd same).symm
    · rw [List.mem_filterMap, List.mem_filter, List.mem_zipIdx_iff_getElem?, decide_eq_true_eq]
      constructor
      · rintro ⟨index, hm, hf⟩
        obtain ⟨val, ht, rfl⟩ := map_eq_some_iff.mp hf
        exact ⟨ht, hm⟩
      · rintro ⟨ht, hm⟩
        exact ⟨entry.2, hm, by rw [ht]; rfl⟩
  have values : (chosen.filterMap fun index => validators[index]?.map (·, index)).map Prod.fst =
      chosen.filterMap (validators[·]?) := by
    rw [List.map_filterMap]
    refine List.filterMap_congr fun index _ => ?_
    rw [map_map]
    exact map_id'
  have split := (List.filter_append_perm
    (fun entry => decide (entry.2 ∈ chosen)) validators.zipIdx).map Prod.fst
  rw [List.map_append, List.zipIdx_map_fst] at split
  refine List.Perm.trans (List.Perm.append ?_ (List.Perm.of_eq ?_)) split
  · rw [← values]
    exact entries.map _
  · unfold others
    simp only [decide_not]

/-! ## Filling up -/

/-- What comes out has the number, and is the list with the others some number of times. -/
theorem fillUp_some {others : List Validator} {bftNumber passes : Nat}
    {witnessList witness : List Validator}
    (ends : fillUp others bftNumber passes witnessList = some witness) :
    witness.length = bftNumber ∧ ∃ times,
    witness = witnessList ++ (List.replicate times others).flatten := by
  induction passes generalizing witnessList with
  | zero =>
    unfold fillUp at ends
    split at ends
    next met =>
      cases ends
      exact ⟨met, 0, by simp⟩
    · cases ends
  | succ passes ih =>
    unfold fillUp at ends
    split at ends
    next met =>
      cases ends
      exact ⟨met, 0, by simp⟩
    · obtain ⟨met, times, rfl⟩ := ih ends
      exact ⟨met, times + 1, by rw [List.replicate_succ, List.flatten_cons, List.append_assoc]⟩

theorem fillUp_met {others : List Validator} {bftNumber : Nat}
    {witnessList : List Validator} (passes : Nat) (met : witnessList.length = bftNumber) :
    fillUp others bftNumber passes witnessList = some witnessList := by
  unfold fillUp
  rw [if_pos met]

/-- One pass, if it meets the number. -/
theorem fillUp_once {others : List Validator} {bftNumber : Nat} {witnessList : List Validator}
    (places : witnessList.length < bftNumber) (met : (witnessList ++ others).length = bftNumber) :
    fillUp others bftNumber bftNumber witnessList = some (witnessList ++ others) := by
  obtain ⟨passes, rfl⟩ : ∃ passes, bftNumber = passes + 1 := ⟨bftNumber - 1, by omega⟩
  unfold fillUp
  rw [if_neg places.ne]
  exact fillUp_met passes met

/-- If any number of passes is enough, then one for each place that is left: a pass without an end
to it adds at least one. -/
theorem fillUp_enough {others : List Validator} {bftNumber passes : Nat}
    {witnessList witness : List Validator}
    (ends : fillUp others bftNumber passes witnessList = some witness) (k : Nat)
    (room : bftNumber ≤ witnessList.length + k) :
    fillUp others bftNumber k witnessList = some witness := by
  induction passes generalizing witnessList k with
  | zero =>
    unfold fillUp at ends
    split at ends
    next met =>
      cases ends
      exact fillUp_met k met
    · cases ends
  | succ passes ih =>
    unfold fillUp at ends
    split at ends
    next met =>
      cases ends
      exact fillUp_met k met
    next places =>
      by_cases alone : others.length = 0
      · obtain rfl := List.length_eq_zero_iff.mp alone
        rw [List.append_nil] at ends
        exact ih ends k room
      · obtain ⟨met, times, rfl⟩ := fillUp_some ends
        rw [List.length_append, List.length_append] at met
        obtain ⟨k, rfl⟩ : ∃ k', k = k' + 1 := ⟨k - 1, by omega⟩
        unfold fillUp
        rw [if_neg places]
        refine ih ends k ?_
        rw [List.length_append]
        omega

/-! ## Selection -/

section

variable (validators : List Validator) (bftNumber : Nat) (tokenOrder : List Bytes)

theorem witnessesByToken_eq : witnessesByToken validators bftNumber tokenOrder =
      fillUp (others validators ((known validators tokenOrder).take bftNumber)) bftNumber bftNumber
        ((voted validators tokenOrder).take bftNumber) := by
  have picked := pickByToken_eq validators bftNumber tokenOrder [] (Nat.zero_le _)
  rw [List.nil_append, List.length_nil, Nat.sub_zero] at picked
  unfold witnessesByToken
  dsimp only
  rw [picked, filterMap_take_known]
  rfl

variable {validators bftNumber tokenOrder}

/-- Different candidates have different places. -/
theorem known_nodup (hd : ((voted validators tokenOrder).take bftNumber).Nodup) :
    ((known validators tokenOrder).take bftNumber).Nodup := by
  have images : (((known validators tokenOrder).take bftNumber).map (validators[·]?)).Nodup := by
    rw [map_take_known]
    exact hd.map (some_injective _)
  exact images.of_map

theorem voted_others_perm (hd : ((voted validators tokenOrder).take bftNumber).Nodup) :
    ((voted validators tokenOrder).take bftNumber ++
      others validators ((known validators tokenOrder).take bftNumber)).Perm validators := by
  have perm := chosen_others_perm validators (known_nodup hd)
  rwa [filterMap_take_known] at perm

theorem fitting_of_selected {witness : List Validator} (he : bftNumber ≤ validators.length)
    (ends : witnessesByToken validators bftNumber tokenOrder = some witness)
    (hd : witness.Nodup) : Fitting validators bftNumber tokenOrder := by
  rw [witnessesByToken_eq] at ends
  obtain ⟨met, times, rfl⟩ := fillUp_some ends
  have h1 := (List.nodup_append.mp hd).1
  refine ⟨h1, ?_⟩
  by_cases full : bftNumber ≤ (voted validators tokenOrder).length
  · exact .inl full
  · -- some places are left, and one pass over the others has filled them
    have perm := voted_others_perm h1
    have places : ((voted validators tokenOrder).take bftNumber).length < bftNumber := by
      rw [List.length_take]
      omega
    have total := perm.length_eq
    rw [List.length_append, List.length_flatten, List.map_replicate, List.sum_replicate,
      smul_eq_mul] at met
    rw [List.length_append] at total
    obtain rfl : times = 1 := by
      rcases times with _ | _ | times
      · omega
      · rfl
      · have twice : 2 * (others validators ((known validators tokenOrder).take bftNumber)).length ≤
            (times + 1 + 1) * (others validators
                ((known validators tokenOrder).take bftNumber)).length :=
          Nat.mul_le_mul_right _ (by omega)
        omega
    refine .inr ⟨by omega, ?_⟩
    rw [List.replicate_one, List.flatten_singleton] at hd
    exact perm.nodup hd

theorem selected_of_fitting (fitting : Fitting validators bftNumber tokenOrder) :
    ∃ witness, witnessesByToken validators bftNumber tokenOrder = some witness ∧
      Selected validators bftNumber tokenOrder witness := by
  obtain ⟨hd, he⟩ := fitting
  rw [witnessesByToken_eq]
  by_cases full : bftNumber ≤ (voted validators tokenOrder).length
  · have met : ((voted validators tokenOrder).take bftNumber).length = bftNumber :=
      List.length_take_of_le full
    refine ⟨_, fillUp_met bftNumber met, met, hd, ?_, List.prefix_rfl⟩
    exact List.Subset.trans (List.take_subset _ _) (voted_subset validators tokenOrder)
  · obtain ⟨all, hme⟩ := he.resolve_left full
    have perm := voted_others_perm hd
    have places : ((voted validators tokenOrder).take bftNumber).length < bftNumber := by
      rw [List.length_take]
      omega
    have met := perm.length_eq.trans all
    exact ⟨_, fillUp_once places met, met, perm.nodup_iff.mpr hme, perm.subset,
      List.prefix_append _ _⟩

end

/-- Whatever the votes, the choice comes to an end with different witnesses exactly if they are
fitting and the total validators, which are asked for on the way, arrive. -/
theorem getWitnessesByToken_selects (env : Env) (ans : Answers) (m : DbftManager)
    (tokenOrder : List Bytes) (ha : ans.tokenOrder = some tokenOrder)
    (he : env.bftNumber.toNat ≤ m.totalValidators.validators.length) :
    (∃ witness, m.getWitnessesByToken env ans = .ok witness ∧
      Selected m.totalValidators.validators env.bftNumber.toNat tokenOrder witness) ↔
    (DbftManager.loadTotalValidators env ans m.candidateNo).isSome ∧
      Fitting m.totalValidators.validators env.bftNumber.toNat tokenOrder := by
  unfold DbftManager.getWitnessesByToken
  rw [ha]
  cases DbftManager.loadTotalValidators env ans m.candidateNo with
  | none => simp
  | some total =>
    simp only [isSome_some, true_and]
    constructor
    · rintro ⟨witness, ends, selected⟩
      cases hf : witnessesByToken m.totalValidators.validators env.bftNumber.toNat
          tokenOrder with
      | none =>
        rw [hf] at ends
        cases ends
      | some witness' =>
        rw [hf] at ends
        cases ends
        exact fitting_of_selected he hf selected.2.1
    · intro fitting
      obtain ⟨witness, hf, selected⟩ := selected_of_fitting fitting
      exact ⟨witness, by rw [hf], selected⟩

/-! ## Two witnesses of four validators -/

def pair : Env := { third with bftNumber := 2 }

/-- The candidate number is that of the validators of the configuration, for which no server is
asked. -/
def configured : DbftManager := { starting with candidateNo := 0 }

/-- Votes for the third validator, for somebody else, and for the first. -/
noncomputable def twoVoted : Answers := { plain with tokenOrder := some [[3], [9], [1]] }

theorem twoVoted_selects : ∃ witness, configured.getWitnessesByToken pair twoVoted = .ok witness ∧
      Selected configured.totalValidators.validators 2 [[3], [9], [1]] witness := by
  refine (getWitnessesByToken_selects pair twoVoted configured [[3], [9], [1]] rfl
    (by decide)).mpr ⟨rfl, ?_⟩
  exact ⟨by decide, .inl (by decide)⟩

/-- One vote: three validators are left for one place. -/
noncomputable def oneVoted : Answers := { plain with tokenOrder := some [[3]] }

theorem oneVoted_hangs : pair.bftNumber.toNat = 2 ∧
    configured.totalValidators.validators.length = 4 ∧
    (DbftManager.loadTotalValidators pair oneVoted configured.candidateNo).isSome ∧
    configured.getWitnessesByToken pair oneVoted = .error .hangs ∧
    ∀ passes, fillUp (others fourMembers [2]) 2 passes [⟨[3], [3], 1⟩] = none := by
  refine ⟨rfl, rfl, rfl, rfl, fun passes => ?_⟩
  rw [eq_none_iff_forall_not_mem]
  intro witness ends
  have two : fillUp (others fourMembers [2]) 2 2 [⟨[3], [3], 1⟩] = none := rfl
  rw [fillUp_enough ends 2 (by decide)] at two
  cases two

/-! ## The shuffle

The loop writes a list of copies and never the list it is given.
-/

theorem length_swap {α : Type} (l : List α) (i j : Nat) : (swap l i j).length = l.length := by
  unfold swap
  split <;> simp

theorem swap_perm {α : Type} (l : List α) {i j : Nat} (h1 : i < l.length)
    (h2 : j < l.length) : (swap l i j).Perm l := by
  simp only [swap, List.getElem?_eq_getElem h1, List.getElem?_eq_getElem h2]
  exact List.set_set_perm h1 h2

/-- The copies after the first `i` rounds of the loop. -/
def shuffled (seed : UInt64) (sList : List Validator) (i : Nat) : List Validator :=
  (List.range i).foldl (fun dList i => swap dList i (shufflePlace seed dList.length i)) sList

variable (seed : UInt64) (sList : List Validator)

theorem shuffled_succ (i : Nat) : shuffled seed sList (i + 1) =
    swap (shuffled seed sList i) i (shufflePlace seed (shuffled seed sList i).length i) := by
  simp [shuffled, List.range_succ]

theorem length_shuffled (i : Nat) : (shuffled seed sList i).length = sList.length := by
  induction i with
  | zero => rfl
  | succ i ih => rw [shuffled_succ, length_swap, ih]

theorem shufflePlace_lt {n i : Nat} (hi : i < n) : shufflePlace seed n i < n := by
  have room : 0 < n - i := by omega
  have draw := fun k : Nat => Nat.mod_lt k room
  unfold shufflePlace
  exact Nat.add_lt_of_lt_sub' (draw _)

theorem shuffled_perm {i : Nat} (rounds : i ≤ sList.length) :
    (shuffled seed sList i).Perm sList := by
  induction i with
  | zero => exact .refl sList
  | succ i ih =>
    have hi : i < (shuffled seed sList i).length := by
      rw [length_shuffled]
      exact rounds
    rw [shuffled_succ]
    exact (swap_perm _ hi (shufflePlace_lt seed hi)).trans (ih (by omega))

/-- Each round swaps two places that there are, and the witnesses come out in some order. -/
theorem witnessShuffle_permutes (seed : UInt64) (sList : List Validator) :
    (∀ i < sList.length, i < (shuffled seed sList i).length ∧
      shufflePlace seed (shuffled seed sList i).length i < (shuffled seed sList i).length) ∧
    (witnessShuffle seed sList).Perm sList := by
  refine ⟨fun i rounds => ?_, shuffled_perm seed sList le_rfl⟩
  rw [length_shuffled]
  exact ⟨rounds, shufflePlace_lt seed rounds⟩

end HNBChain.Audit.Guarantees.WitnessSelection
