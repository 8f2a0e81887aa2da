import HNBChain.Lib.Rotation
import HNBChain.Audit.Source.Algorand.Block

/-!
# Validators in the order of their addresses and of their priorities

The validators of a set are sorted by address, and `GetByAddress` finds each of them in its place.
Among validators of one power `IncrementAccum` serves them by priority, as long as no priority meets
a bound of int64.
-/
namespace HNBChain.Audit.Source.Algorand

open Lib Lib.Rotation List ValidatorSet

/-- The comparison of addresses is the order that maps are written in. -/
theorem lt_iff_not_keyLe (a b : Bytes) : a < b ↔ ¬ keyLe b a := by
  unfold keyLe
  rw [not_le]
  induction a generalizing b with
  | nil => cases b <;> simp
  | cons x a ih =>
    cases b with
    | nil => simp
    | cons y b =>
      simp only [map_cons, cons_lt_cons_iff, UInt8.lt_iff_toNat_lt, ih, UInt8.toNat_inj]

theorem keyLe_refl (a : Bytes) : keyLe a a := le_refl (a.map UInt8.toNat)

theorem lt_of_keyLe {a b : Bytes} (le : keyLe a b) (hd : a ≠ b) : a < b :=
  (lt_iff_not_keyLe a b).mpr fun back => hd (Std.Antisymm.antisymm _ _ le back)

theorem not_lt_of_lt {a b : Bytes} (less : a < b) : ¬ b < a := by
  rw [lt_iff_not_keyLe] at less ⊢
  exact not_not_intro ((Std.Total.total a b).resolve_right less)

theorem not_lt_self (a : Bytes) : ¬ a < a := fun less => not_lt_of_lt less less

/-! ## Places -/

/-- The search ends at the first place from which on the predicate holds. -/
theorem sortSearch_eq {f : Nat → Bool} {t : Nat} (fuel : Nat) {i j : Nat}
    (hh : ∀ m, i ≤ m → m < j → (f m = true ↔ t ≤ m)) (low : i ≤ t) (high : t ≤ j)
    (hen : j < i + fuel) : sortSearch f fuel i j = t := by
  induction fuel generalizing i j with
  | zero => omega
  | succ fuel ih =>
    unfold sortSearch
    split_ifs with wide
    · dsimp only
      have middle := hh ((i + j) / 2) (by omega) (by omega)
      split_ifs with found
      · exact ih (fun m h1 last => hh m h1 (by omega)) low (middle.mp found) (by omega)
      · have missed : ¬ t ≤ (i + j) / 2 := fun hr => found (middle.mpr hr)
        exact ih (fun m h1 last => hh m (by omega) last) (by omega) high (by omega)
    · omega

section

variable {vals : ValidatorSet}

/-- The validators are sorted, and no address comes twice. -/
def ValidatorSet.Sorted (vals : ValidatorSet) : Prop :=
  vals.validators.Pairwise fun v w => v.address < w.address

variable {v top : Validator}

theorem ValidatorSet.Sorted.inj (hs : vals.Sorted) {w : Validator} (h1 : v ∈ vals.validators)
    (h2 : w ∈ vals.validators) (same : v.address = w.address) : v = w := by
  have pairs := pairwise_iff_getElem.mp hs
  obtain ⟨i, insideI, rfl⟩ := getElem_of_mem h1
  obtain ⟨j, insideJ, rfl⟩ := getElem_of_mem h2
  rcases Nat.lt_trichotomy i j with less | he | more
  · exact absurd (same ▸ pairs i j insideI insideJ less) (not_lt_self _)
  · subst he
    rfl
  · exact absurd (same ▸ pairs j i insideJ insideI more) (not_lt_self _)

theorem searchAddress_eq (hs : vals.Sorted) {i : Nat} (hw : i < vals.validators.length) :
    vals.searchAddress vals.validators[i].address = i := by
  have pairs := pairwise_iff_getElem.mp hs
  refine sortSearch_eq (vals.size + 1) (fun m _ hi => ?_) (Nat.zero_le i) hw.le (by omega)
  have hi : m < vals.validators.length := hi
  rw [decide_eq_true_iff, getElem?_eq_getElem hi, Option.map_some, Option.getD_some]
  constructor
  · intro hab
    by_contra earlier
    exact hab (pairs m i hi hw (by omega))
  · intro hl
    rcases Nat.eq_or_lt_of_le hl with same | haf
    · subst same
      exact not_lt_self _
    · exact not_lt_of_lt (pairs i m hw hi haf)

theorem getByAddress_eq (hs : vals.Sorted) {i : Nat} (place : vals.validators[i]? = some v) :
    (vals.getByAddress v.address).1 = i := by
  obtain ⟨hw, rfl⟩ := List.getElem?_eq_some_iff.mp place
  unfold ValidatorSet.getByAddress ValidatorSet.hasAddress
  rw [searchAddress_eq hs hw, place, Option.map_some, decide_eq_true rfl, if_pos rfl]

/-! ## Priorities -/

theorem compareAccum_ahead {w : Validator} (ha : Ahead keyLe vals.accum v.address w.address)
    (hd : v.address ≠ w.address) : vals.compareAccum v w = v ∧
    vals.compareAccum w v = v := by
  unfold compareAccum
  rcases ha with more | ⟨same, h1⟩
  · rw [if_pos more, if_neg (not_lt_of_gt more), if_pos more]
    exact ⟨rfl, rfl⟩
  · have h1 := lt_of_keyLe h1 hd
    have even : ¬ vals.accum w.address < vals.accum v.address := by omega
    have even' : ¬ vals.accum v.address < vals.accum w.address := by omega
    rw [if_neg even, if_neg even', if_pos h1, if_neg even', if_neg even,
      if_neg (not_lt_of_lt h1)]
    exact ⟨rfl, rfl⟩

theorem compareAccum_cases (v w : Validator) : vals.compareAccum v w = v ∨
    vals.compareAccum v w = w := by
  unfold compareAccum
  split_ifs
  · exact .inl rfl
  · exact .inr rfl
  · exact .inl rfl
  · exact .inr rfl

/-- Whoever is ahead of all others comes out of the comparisons. -/
theorem foldl_compareAccum (others : List Validator) (ha : ∀ w ∈ v :: others, w = top ∨
    Ahead keyLe vals.accum top.address w.address ∧ top.address ≠ w.address)
    (hm : top ∈ v :: others) : others.foldl vals.compareAccum v = top := by
  induction others generalizing v with
  | nil => exact (mem_singleton.mp hm).symm
  | cons w rest ih =>
    have h1 := ha v mem_cons_self
    have h2 := ha w (mem_cons_of_mem _ mem_cons_self)
    have either := @compareAccum_cases vals v w
    rw [foldl_cons]
    refine ih (fun u hi => ?_) ?_
    · rcases mem_cons.mp hi with rfl | hi
      · rcases either with same | same <;> rw [same]
        · exact h1
        · exact h2
      · exact ha u (mem_cons_of_mem _ (mem_cons_of_mem _ hi))
    · -- the top is one of the two, and wins, or comes later
      rcases mem_cons.mp hm with rfl | hm
      · rcases h2 with rfl | ⟨hbe, hd⟩
        · rcases either with same | same <;> exact mem_cons.mpr (.inl same.symm)
        · exact mem_cons.mpr (.inl (compareAccum_ahead hbe hd).1.symm)
      · rcases mem_cons.mp hm with rfl | hm
        · rcases h1 with rfl | ⟨hbe, hd⟩
          · rcases either with same | same <;> exact mem_cons.mpr (.inl same.symm)
          · exact mem_cons.mpr (.inl (compareAccum_ahead hbe hd).2.symm)
        · exact mem_cons_of_mem _ hm

theorem mostest_eq (hm : top ∈ vals.validators)
    (ha : ∀ w ∈ vals.validators, w = top ∨ Ahead keyLe vals.accum top.address w.address ∧
      top.address ≠ w.address) : vals.mostest = some top := by
  unfold mostest
  cases listed : vals.validators with
  | nil =>
    rw [listed] at hm
    exact absurd hm not_mem_nil
  | cons v rest =>
    rw [listed] at hm ha
    exact congrArg some (foldl_compareAccum rest ha hm)

theorem totalVotingPower_eq {power : Int} (he : ∀ v ∈ vals.validators, v.votingPower = power)
    (hn : 0 ≤ power) (hsm : vals.validators.length * power < 2 ^ 63) :
    vals.totalVotingPower = vals.validators.length * power := by
  have sum := sum_powers_of_equal he
  have had := foldl_clip (fun v hm => hn.trans (he v hm).ge) (le_refl (0 : Int))
    (by rwa [sum, zero_add])
  rw [sum, zero_add] at had
  exact had

theorem clip_eq {n : Int} (low : -2 ^ 63 ≤ n) (high : n < 2 ^ 63) : clip n = n := by
  unfold clip
  omega

/-! ## Serving one after the other -/

variable {prio : Bytes → Int} {power : Int} {queue : List Bytes}

/-- The validators of the set are the members of the queue, and the priorities are those after `k`
steps. -/
structure Served (prio : Bytes → Int) (power : Int) (queue : List Bytes) (k : Nat)
    (vals : ValidatorSet) : Prop where
  members : ∀ address, address ∈ queue ↔ ∃ v ∈ vals.validators, v.address = address
  length : vals.validators.length = queue.length
  equal : ∀ v ∈ vals.validators, v.votingPower = power
  accum : ∀ v ∈ vals.validators, vals.accum v.address = served prio power queue
    (k % queue.length) v.address

/-- A queue in which nobody can be served twice before all have been served, with room for the
priorities. -/
structure Fair (prio : Bytes → Int) (power : Int) (queue : List Bytes) : Prop where
  nodup : queue.Nodup
  ordered : queue.Pairwise (Ahead keyLe prio)
  near : Near keyLe prio (queue.length * power) queue
  positive : 0 < power
  room : ∀ address ∈ queue, -2 ^ 63 ≤ prio address - queue.length * power ∧
    prio address + queue.length * power < 2 ^ 63

theorem Served.mem {k : Nat} (now : Served prio power queue k vals) (hm : v ∈ vals.validators) :
    v.address ∈ queue := (now.members _).mpr ⟨v, hm, rfl⟩

/-- The priorities in the middle of a step, when all have gained their power. -/
def ValidatorSet.raised (vals : ValidatorSet) : ValidatorSet :=
  { vals with accum := fun address =>
      match vals.validators.find? (fun v => decide (v.address = address)) with
      | some v => clip (vals.accum address + clip (v.votingPower * (1 : Nat)))
      | none => vals.accum address }

theorem Fair.clip_eq (fair : Fair prio power queue) {address : Bytes}
    (hi : address ∈ queue) {n : Int}
    (hb : prio address - queue.length * power ≤ n ∧ n ≤ prio address + queue.length * power) :
    clip n = n := by
  obtain ⟨low, high⟩ := fair.room address hi
  exact Algorand.clip_eq (low.trans hb.1) (hb.2.trans_lt high)

theorem raised_accum {k : Nat} (fair : Fair prio power queue) (now : Served prio power queue k vals)
    (hm : v ∈ vals.validators) :
    vals.raised.accum v.address = served prio power queue (k % queue.length) v.address + power := by
  have hi := now.mem hm
  have length : 0 < queue.length := length_pos_of_mem hi
  have hsm : clip power = power := by
    obtain ⟨low, high⟩ := fair.room _ hi
    have hp := fair.positive
    have least : 1 * power ≤ queue.length * power :=
      mul_le_mul_of_nonneg_right (by exact_mod_cast length) hp.le
    exact clip_eq (by omega) (by omega)
  obtain ⟨w, hf⟩ : ∃ w, vals.validators.find?
      (fun w => decide (w.address = v.address)) = some w :=
    Option.isSome_iff_exists.mp (find?_isSome.mpr ⟨v, hm, decide_eq_true rfl⟩)
  unfold raised
  simp only [hf]
  rw [now.equal w (mem_of_find?_eq_some hf), now.accum v hm, Nat.cast_one, mul_one, hsm]
  exact fair.clip_eq hi (served_raised_bounds fair.positive (Nat.mod_lt k length) _)

/-- The next of the queue is on top of the heap. -/
theorem raised_mostest {k : Nat} (fair : Fair prio power queue) (hs : vals.Sorted)
    (now : Served prio power queue k vals) (hm : top ∈ vals.validators)
    (turn : queue[k % queue.length]? = some top.address) : vals.raised.mostest = some top := by
  obtain ⟨hw, next⟩ := List.getElem?_eq_some_iff.mp turn
  refine mostest_eq hm fun w other => ?_
  by_cases same : top.address = w.address
  · exact .inl (hs.inj hm other same).symm
  · refine .inr ⟨?_, same⟩
    have ha := served_ahead fair.nodup fair.ordered fair.near keyLe_refl hw (now.mem other)
    rw [next] at ha
    unfold Ahead at ha ⊢
    rw [raised_accum fair now hm, raised_accum fair now other]
    exact ha.imp (fun more => by omega) fun even => ⟨by omega, even.2⟩

/-- One step: the next of the queue is served and becomes the proposer. -/
theorem incrementAccum_served {k : Nat} (fair : Fair prio power queue) (hs : vals.Sorted)
    (now : Served prio power queue k vals) (hm : top ∈ vals.validators)
    (turn : queue[k % queue.length]? = some top.address) :
    ∃ vals', vals.incrementAccum 1 = some vals' ∧ vals'.validators = vals.validators ∧
      vals'.proposer = some top ∧ Served prio power queue (k + 1) vals' := by
  have hst : vals.incrementAccum 1 = some { vals.raised with
      proposer := some top
      accum := Function.update vals.raised.accum top.address
        (clip (vals.raised.accum top.address - vals.raised.totalVotingPower)) } := by
    change vals.raised.decrement 1 = _
    rw [decrement, raised_mostest fair hs now hm turn]
    rfl
  have total : vals.raised.totalVotingPower = queue.length * power := by
    obtain ⟨low, high⟩ := fair.room _ (now.mem hm)
    rw [← now.length] at low high ⊢
    have hsm : vals.validators.length * power < 2 ^ 63 := by omega
    exact totalVotingPower_eq now.equal fair.positive.le hsm
  refine ⟨_, hst, rfl, rfl, now.members, now.length, now.equal, fun v other => ?_⟩
  have hi := now.mem other
  have haf : served prio power queue ((k + 1) % queue.length) v.address =
      served prio power queue (k % queue.length) v.address + power -
        if v.address = top.address then queue.length * power else 0 :=
          served_mod_succ fair.nodup turn hi
  dsimp only
  by_cases same : v.address = top.address
  · have hw := Nat.mod_lt (k + 1) (length_pos_of_mem hi)
    rw [if_pos same] at haf
    rw [same, Function.update_self, ← same, raised_accum fair now other, total, ← haf]
    exact fair.clip_eq hi (served_bounds fair.positive hw.le _)
  · rw [if_neg same, sub_zero] at haf
    rw [Function.update_of_ne same, raised_accum fair now other, haf]

end

end HNBChain.Audit.Source.Algorand
