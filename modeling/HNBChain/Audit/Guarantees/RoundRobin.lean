import HNBChain.Audit.Source.Algorand.ValidatorOrder
import HNBChain.Audit.Guarantees.ProposerAgreement

/-!
# Round robin

In round 0 the witness after the last proposer proposes, and the last proposer is whoever
`IncrementAccum` served one height before. Witnesses of one power are served one after the other if
the priorities with which they come into the epoch are near to each other, and then every witness
proposes once in each round robin.

The first epoch has another proposer to begin with than the one that was served: the last of the
configuration. Unless that is the witness with the smallest address, one of the witnesses is left
out and another proposes twice.
-/
namespace HNBChain.Audit.Guarantees.RoundRobin

open Lib Lib.Rotation Source List
open Source.Algorand (Validator ValidatorSet Fair Served getByAddress_eq incrementAccum_served
  keyLe_refl lt_of_keyLe)
open Source.Dbft Spec
open EpochQuorum ProposerAgreement

/-- Different witnesses of one power, with priorities that are near to each other and leave room for
the steps. -/
structure Level (witnesses : List Validator) (prio : Bytes → Int) (power : Int) : Prop where
  occupied : witnesses ≠ []
  distinct : (witnesses.map Validator.address).Nodup
  equal : ∀ v ∈ witnesses, v.votingPower = power
  positive : 0 < power
  near : Near keyLe prio (witnesses.length * power) (witnesses.map Validator.address)
  room : ∀ v ∈ witnesses, -2 ^ 63 ≤ prio v.address - witnesses.length * power ∧
    prio v.address + witnesses.length * power < 2 ^ 63

/-- The two ways into an epoch. -/
inductive Opens (target : UInt64) (c : Course) (witnesses : List Validator) :
    (start : List Passage) → Prop where
  | genesis {set : EpochSet} {power : Int} (level : Level witnesses (fun _ => 0) power)
    (made : loadGeneValidators witnesses = some set)
    (last : ∃ v, witnesses.getLast? = some v ∧ ∀ w ∈ witnesses, keyLe v.address w.address)
    (validators : c.validators = set) (height : c.height = 1) (epochNo : c.epoch.epochNo = 1)
    (beginNum : c.epoch.beginNum = 1) (witnessList : c.epoch.witnessList = set.set.validators) :
    Opens target c witnesses []
  | entered {newEpoch : Epoch} {past : List Passage} {power : Int}
      (witnessList : newEpoch.witnessList = witnesses)
    (level : Level witnesses newEpoch.accum power)
    (begins : newEpoch.beginNum = (c.replay target past).height) :
    Opens target c witnesses (.entered newEpoch :: past)

/-- Since the start the node has taken `k` blocks, all of them decided by the consensus. -/
inductive Decided (start : List Passage) : Nat → List Passage → Prop where
  | start : Decided start 0 start
  | commit {k : Nat} {p : List Passage} {order : MapOrder} {blk : ChainBlock}
      (before : Decided start k p) :
    Decided start (k + 1) (.commit order blk :: p)
  | unfrozen {k : Nat} {p : List Passage} {order : MapOrder} {epochNo : UInt64}
      (before : Decided start k p) :
    Decided start k (.unfrozen order epochNo :: p)

/-- A state of a run of the node, `k` blocks after the start, with its epoch in the cache. -/
structure After (env : Env) (a : DbftManager) (start : List Passage) (k : Nat)
    (m : DbftManager) : Prop where
  reached : ∃ events, m = a.run env events
  decided : Decided start k m.history
  listed : Listed m

/-- Two different witnesses. -/
def Differ (witnesses : List Validator) (first second : Option (Option Validator)) : Prop :=
  ∃ v ∈ witnesses, ∃ w ∈ witnesses, first = some (some v) ∧ second = some (some w) ∧
    v.address ≠ w.address

/-- At heights after the first one of the epoch that are less than the number of witnesses apart the
proposers of round 0 differ, and so do at each height the proposers of rounds that near. -/
structure Rotates (env : Env) (a : DbftManager) (start : List Passage)
    (witnesses : List Validator) : Prop where
  heights {i j : Nat} {m m' : DbftManager} : 0 < i → i < j → j < i + witnesses.length → j < 2 ^ 64 →
    After env a start i m → After env a start j m' →
    Differ witnesses (proposer env m 0) (proposer env m' 0)
  rounds {k : Nat} {m : DbftManager} {r r' : Int32} : After env a start k m → 0 ≤ r.toInt →
    r.toInt < r'.toInt →
    r'.toInt < r.toInt + witnesses.length → Differ witnesses (proposer env m r) (proposer env m r')

/-! ## Seats -/

section

variable {witnesses : List Validator} {prio : Bytes → Int} {power : Int}

def seats (witnesses : List Validator) : List Validator :=
  witnesses.insertionSort fun v other => keyLe v.address other.address

def line (witnesses : List Validator) (prio : Bytes → Int) : List Bytes :=
  queueOf keyLe prio (witnesses.map Validator.address)

theorem perm_seats : (seats witnesses).Perm witnesses := perm_insertionSort _ _

theorem mem_seats {v : Validator} : v ∈ seats witnesses ↔ v ∈ witnesses := perm_seats.mem_iff

theorem length_seats : (seats witnesses).length = witnesses.length := perm_seats.length_eq

theorem length_line : (line witnesses prio).length = witnesses.length := by
  rw [line, length_queueOf, length_map]

theorem mem_line {address : Bytes} : address ∈ line witnesses prio ↔
    ∃ v ∈ witnesses, v.address = address := by
  rw [line, mem_queueOf, mem_map]

theorem Level.sorted (hle : Level witnesses prio power) :
    (seats witnesses).Pairwise fun v w => v.address < w.address := by
  have hor : (seats witnesses).Pairwise fun v w => keyLe v.address w.address :=
    pairwise_insertionSort _ _
  have hdi : ((seats witnesses).map Validator.address).Nodup :=
    ((perm_seats.map Validator.address).nodup_iff).mpr hle.distinct
  have hd := pairwise_map.mp hdi
  exact hor.imp₂ (fun _ _ le hdf => lt_of_keyLe le hdf) hd

theorem Level.fair (hle : Level witnesses prio power) :
    Fair prio power (line witnesses prio) where
  nodup := ((perm_insertionSort _ _).nodup_iff).mpr hle.distinct
  ordered := pairwise_insertionSort _ _
  near x inX y inY := by
    rw [length_line]
    exact hle.near x ((mem_queueOf _ _).mp inX) y ((mem_queueOf _ _).mp inY)
  positive := hle.positive
  room address inside := by
    obtain ⟨v, hm, rfl⟩ := mem_line.mp inside
    rw [length_line]
    exact hle.room v hm

/-- The witnesses are in their seats, and `k` of them have been served before the proposer. -/
structure Seated (witnesses : List Validator) (prio : Bytes → Int) (power : Int) (k : Nat)
    (set : ValidatorSet) : Prop where
  validators : set.validators = seats witnesses
  served : Served prio power (line witnesses prio) (k + 1) set
  proposer : ∃ v ∈ witnesses, set.proposer = some v ∧
    (line witnesses prio)[k % witnesses.length]? = some v.address

variable {k : Nat} {set : ValidatorSet}

/-- Each step seats the next one of the line. -/
theorem seated_step (hle : Level witnesses prio power)
    (validators : set.validators = seats witnesses)
    (now : Served prio power (line witnesses prio) k set) :
    ∃ set', set.incrementAccum 1 = some set' ∧ Seated witnesses prio power k set' := by
  have hw : k % witnesses.length < (line witnesses prio).length := by
    rw [length_line]
    exact Nat.mod_lt k (length_pos_iff.mpr hle.occupied)
  obtain ⟨v, hm, here⟩ := mem_line.mp (getElem_mem hw)
  have turn : (line witnesses prio)[k % witnesses.length]? = some v.address := by
    rw [getElem?_eq_getElem hw, here]
  have hso : set.Sorted := by
    unfold ValidatorSet.Sorted
    rw [validators]
    exact hle.sorted
  have sits : v ∈ set.validators := by
    rw [validators]
    exact mem_seats.mpr hm
  obtain ⟨set', hst, kept, hpr, haf⟩ :=
    incrementAccum_served hle.fair hso now sits (by rw [length_line]; exact turn)
  exact ⟨set', hst, kept.trans validators, haf, v, hm, hpr, turn⟩

theorem Seated.step (hle : Level witnesses prio power) (hs : Seated witnesses prio power k set) :
    ∃ set', set.incrementAccum 1 = some set' ∧ Seated witnesses prio power (k + 1) set' :=
  seated_step hle hs.validators hs.served

/-- A new set has taken its first step. -/
theorem seated_new (hle : Level witnesses prio power) (bgID : UInt64) (info : EpochInfo) :
    ∃ set, newValidatorSet witnesses prio bgID info = some ⟨set, some info⟩ ∧
    Seated witnesses prio power 0 set := by
  have now : Served prio power (line witnesses prio) 0 ⟨seats witnesses, none, prio,
      bgID.toNat, []⟩ := by
    refine ⟨fun address => ?_, ?_, fun v hm => hle.equal v (mem_seats.mp hm),
      fun v hm => ?_⟩
    · simp only [mem_line, mem_seats]
    · rw [length_line]
      exact length_seats
    · rw [Nat.zero_mod, served_zero]
  obtain ⟨set, hst, hs⟩ := seated_step hle rfl now
  refine ⟨set, ?_, hs⟩
  exact congrArg (Option.map _) hst

/-- In the first epoch the last of the configuration takes the place of whoever was served, and may
be the same. -/
theorem seated_gene (hle : Level witnesses (fun _ => 0) power) {gene : EpochSet}
    (made : loadGeneValidators witnesses = some gene)
    (last : ∃ v, witnesses.getLast? = some v ∧ ∀ w ∈ witnesses, keyLe v.address w.address) :
    Seated witnesses (fun _ => 0) power 0 gene.set ∧ gene.info = some ⟨1, 0, 1, 1⟩ := by
  obtain ⟨set, hf, hs⟩ := seated_new hle 1 ⟨1, 0, 1, 1⟩
  obtain ⟨v, ends, least⟩ := last
  unfold loadGeneValidators at made
  rw [hf, Option.map_some, Option.some.injEq, ends] at made
  subst made
  refine ⟨⟨hs.validators, ⟨hs.served.members, hs.served.length, hs.served.equal,
    hs.served.accum⟩,
    v, List.mem_of_getLast? ends, rfl, ?_⟩, rfl⟩
  -- the first of the line is the smallest address, as all priorities are equal
  obtain ⟨first, hm, _, turn⟩ := hs.proposer
  obtain ⟨hw, head⟩ := List.getElem?_eq_some_iff.mp turn
  obtain ⟨i, hi, place⟩ := List.getElem_of_mem
    (mem_line.mpr ⟨v, List.mem_of_getLast? ends, rfl⟩ :
      v.address ∈ line witnesses (fun _ => 0))
  have ha : Ahead keyLe (fun _ => 0) first.address v.address := by
    rw [← head, ← place]
    rcases Nat.eq_zero_or_pos i with rfl | hl
    · exact .inr ⟨rfl, keyLe_refl _⟩
    · exact List.pairwise_iff_getElem.mp hle.fair.ordered 0 i _ hi hl
  rcases ha with absurd | ⟨_, smaller⟩
  · exact (lt_irrefl _ absurd).elim
  · rw [turn, Std.Antisymm.antisymm _ _ smaller (least first hm)]

/-! ## Heights -/

/-- The epoch `k` blocks after it has begun. -/
structure Turn (witnesses : List Validator) (prio : Bytes → Int) (power : Int)
    (epochNo beginNum : UInt64) (k : Nat) (c : Course) : Prop where
  seated : Seated witnesses prio power k c.validators.set
  info : ∃ pre, c.validators.info = some pre ∧ pre.epochNo = epochNo ∧ pre.beginNum = beginNum
  epochNo : c.epoch.epochNo = epochNo
  height : c.height = beginNum + UInt64.ofNat k

/-- What the choice of the proposer reads at the first height of an epoch, and at the later ones. -/
inductive Choice (witnesses : List Validator) (prio : Bytes → Int) (power : Int)
    (beginNum : UInt64) :
    Nat → Course → Prop where
  | first {c : Course} (witnessList : c.epoch.witnessList.Perm witnesses)
      (begins : c.height = c.epoch.beginNum) :
    Choice witnesses prio power beginNum 0 c
  | later {k : Nat} {c : Course} (witnessList : c.epoch.witnessList = seats witnesses)
    (begun : c.epoch.beginNum = beginNum) (height : c.height = beginNum + UInt64.ofNat (k + 1))
    (last : Seated witnesses prio power k c.lastValidators.set) :
    Choice witnesses prio power beginNum (k + 1) c

variable {target epochNo beginNum : UInt64} {c : Course}

theorem Turn.commit (hle : Level witnesses prio power)
    (turn : Turn witnesses prio power epochNo beginNum k c) (order : MapOrder) (blk : ChainBlock) :
    Turn witnesses prio power epochNo beginNum (k + 1) (c.pass target (.commit order blk)) ∧
      Choice witnesses prio power beginNum (k + 1) (c.pass target (.commit order blk)) := by
  obtain ⟨set, hst, hs⟩ := turn.seated.step hle
  obtain ⟨pre, info, number, begun⟩ := turn.info
  have next : c.height + 1 = beginNum + UInt64.ofNat (k + 1) := by
    rw [turn.height, UInt64.ofNat_add, UInt64.add_assoc]
    rfl
  unfold Course.pass
  rw [hst]
  unfold Course.advance
  have epoch := Course.check_epoch target (c := { c with
    height := c.height + 1
    validators := { c.validators with set := set }
    lastValidators := c.validators }) info
  obtain ⟨kept, pre', info', number', begun'⟩ := Course.check_validators target (c := { c with
    height := c.height + 1
    validators := { c.validators with set := set }
    lastValidators := c.validators }) info
  rw [if_neg (by rw [not_not, turn.epochNo, number])] at epoch
  refine ⟨⟨?_, ⟨pre', info', number'.trans number, begun'.trans begun⟩, ?_, ?_⟩, .later ?_ ?_ ?_ ?_⟩
  · rw [kept]
    exact hs
  · rw [epoch]
    exact number
  · rw [Course.check_height]
    exact next
  · rw [epoch]
    exact hs.validators
  · rw [epoch]
    exact begun
  · rw [Course.check_height]
    exact next
  · rw [Course.check_lastValidators]
    exact turn.seated

/-- The first height of an epoch that is entered in one of the two ways. -/
theorem Opens.begun {start : List Passage} (opens : Opens target c witnesses start) :
    ∃ prio power epochNo beginNum, Level witnesses prio power ∧
      Turn witnesses prio power epochNo beginNum 0 (c.replay target start) ∧
      Choice witnesses prio power beginNum 0 (c.replay target start) := by
  cases opens with
  | genesis hle made last validators height epochNo beginNum hwi =>
    obtain ⟨hs, info⟩ := seated_gene hle made last
    refine ⟨_, _, 1, 1, hle, ⟨?_, ⟨⟨1, 0, 1, 1⟩, ?_, rfl, rfl⟩, epochNo, height⟩, .first ?_ ?_⟩
    · exact validators ▸ hs
    · exact validators ▸ info
    · change c.epoch.witnessList.Perm witnesses
      rw [hwi, hs.validators]
      exact perm_seats
    · exact height.trans beginNum.symm
  | @entered newEpoch past power hwi hle begins =>
    obtain ⟨set, made, hs⟩ := seated_new hle newEpoch.epochNo
      ⟨newEpoch.epochNo, newEpoch.dependEpochNo, (c.replay target past).height,
        (c.replay target past).height⟩
    have hpa : c.replay target (.entered newEpoch :: past) =
        { c.replay target past with validators := ⟨set,
        some ⟨newEpoch.epochNo, newEpoch.dependEpochNo,
            (c.replay target past).height, (c.replay target past).height⟩⟩, epoch :=
                newEpoch } := by
      rw [Course.replay_cons]
      unfold Course.pass
      dsimp only
      rw [hwi, made]
    rw [hpa]
    refine ⟨_, _, newEpoch.epochNo, (c.replay target past).height, hle,
      ⟨hs, ⟨_, rfl, rfl, rfl⟩, rfl, ?_⟩, .first ?_ begins.symm⟩
    · simp
    · rw [hwi]

/-- The blocks that are decided carry the epoch on. -/
theorem Decided.turn {start p : List Passage} (hle : Level witnesses prio power)
    (h1 : Turn witnesses prio power epochNo beginNum 0 (c.replay target start))
    (hc : Choice witnesses prio power beginNum 0 (c.replay target start))
    (hde : Decided start k p) :
    Turn witnesses prio power epochNo beginNum k (c.replay target p) ∧
      Choice witnesses prio power beginNum k (c.replay target p) := by
  induction hde with
  | start => exact ⟨h1, hc⟩
  | commit _ ih =>
    rw [Course.replay_cons]
    exact ih.1.commit hle _ _
  | unfrozen _ ih => exact ih

/-! ## Proposers -/

variable {env : Env} {m : DbftManager}

/-- From a place in the list of witnesses each round goes one further. -/
theorem proposer_eq (hli : Listed m) (ho : 0 < m.epoch.witnessList.length) {place : Nat}
    (next : m.nextPlace m.epoch.witnessList m.handler.height = some (place : Int)) {r : Int32}
    (hr : 0 ≤ r.toInt) : proposer env m r = m.epoch.witnessList[(place + r.toInt.toNat) %
      m.epoch.witnessList.length]?.map some := by
  have hfo : (m.getEpoch m.epoch.epochNo).1 = some m.epoch := by
    unfold DbftManager.getEpoch
    rw [show m.epochList m.epoch.epochNo = some m.epoch from hli]
  have index : ((place : Int) + r.toInt).tmod m.epoch.witnessList.length =
      ((place + r.toInt.toNat) % m.epoch.witnessList.length : Nat) := by
    rw [Int.tmod_eq_emod_of_nonneg (by omega), Int.natCast_emod, Nat.cast_add,
      Int.toNat_of_nonneg hr]
  unfold proposer DbftManager.isProposerByDPoS
  rw [hfo]
  dsimp only
  rw [if_neg (by omega), next, Option.bind_some, index, if_neg (by omega), Int.toNat_natCast,
    Option.map_map]
  rfl

theorem differ_of_getElem {list : List Validator} (hme : list.Perm witnesses)
    (hdi : (witnesses.map Validator.address).Nodup) {i j : Nat} (insideI : i < list.length)
    (insideJ : j < list.length) (hd : i ≠ j) :
    Differ witnesses (list[i]?.map some) (list[j]?.map some) := by
  have unlike := pairwise_iff_getElem.mp
    (pairwise_map.mp (((hme.map Validator.address).nodup_iff).mpr hdi))
  rw [getElem?_eq_getElem insideI, getElem?_eq_getElem insideJ]
  refine ⟨list[i], hme.mem_iff.mp (getElem_mem insideI), list[j],
    hme.mem_iff.mp (getElem_mem insideJ), rfl, rfl, ?_⟩
  rcases Nat.lt_or_gt_of_ne hd with hb | haf
  · exact unlike i j insideI insideJ hb
  · exact (unlike j i insideJ insideI haf).symm

theorem Choice.members (hc : Choice witnesses prio power beginNum k (course m)) :
    m.epoch.witnessList.Perm witnesses := by
  cases hc with
  | first hwi begins => exact hwi
  | later hwi begun height last =>
    have hwi : m.epoch.witnessList = seats witnesses := hwi
    rw [hwi]
    exact perm_seats

/-- The seat of whoever was served last. -/
theorem Seated.seat (hle : Level witnesses prio power)
    (hs : Seated witnesses prio power k set) : ∃ seat v, (seats witnesses)[seat]? = some v ∧
    (line witnesses prio)[k % witnesses.length]? = some v.address ∧
      set.proposer = some v ∧ (set.getByAddress v.address).1 = (seat : Nat) := by
  obtain ⟨v, hm, hpr, turn⟩ := hs.proposer
  obtain ⟨seat, place⟩ := mem_iff_getElem?.mp (mem_seats.mpr hm)
  have hso : set.Sorted := by
    unfold ValidatorSet.Sorted
    rw [hs.validators]
    exact hle.sorted
  exact ⟨seat, v, place, turn, hpr,
    getByAddress_eq hso (by rw [hs.validators]; exact place)⟩

/-- In round 0 the next seat proposes. -/
theorem Choice.later_proposer (hle : Level witnesses prio power)
    (hc : Choice witnesses prio power beginNum (k + 1) (course m)) (hsm : k + 1 < 2 ^ 64)
    (hli : Listed m) : ∃ seat v, (seats witnesses)[seat]? = some v ∧
    (line witnesses prio)[k % witnesses.length]? = some v.address ∧
      proposer env m 0 = (seats witnesses)[(seat + 1) % witnesses.length]?.map some := by
  obtain _ | ⟨hwi, begun, height, last⟩ := hc
  have hwi : m.epoch.witnessList = seats witnesses := hwi
  have begun : m.epoch.beginNum = beginNum := begun
  have height : m.handler.height = beginNum + UInt64.ofNat (k + 1) := height
  have last : Seated witnesses prio power k m.handler.lastValidators.set := last
  obtain ⟨seat, v, place, turn, hpr, sits⟩ := last.seat hle
  have ho : 0 < witnesses.length := length_pos_iff.mpr hle.occupied
  have hl : m.handler.height ≠ m.epoch.beginNum := by
    rw [height, begun]
    intro same
    have around := congrArg UInt64.toNat same
    rw [UInt64.toNat_add, UInt64.toNat_ofNat'] at around
    have range := beginNum.toNat_lt
    omega
  have next : m.nextPlace m.epoch.witnessList m.handler.height =
      some (((if seat + 1 = witnesses.length then 0 else seat + 1 : Nat) : Nat) : Int) := by
    unfold DbftManager.nextPlace
    rw [if_neg hl, hpr, Option.map_some]
    rw [sits, hwi, length_seats]
    by_cases full : seat + 1 = witnesses.length
    · rw [if_pos (by exact_mod_cast full), if_pos full, Nat.cast_zero]
    · rw [if_neg (by exact_mod_cast full), if_neg full, Nat.cast_add, Nat.cast_one]
  refine ⟨seat, v, place, turn, ?_⟩
  rw [proposer_eq hli (by rw [hwi, length_seats]; exact ho) next le_rfl,
    hwi, length_seats]
  congr 2
  split_ifs with full
  · rw [full, Nat.mod_self]
    exact Nat.mod_eq_of_lt ho
  · rfl

/-- At each height there is a place to begin with. -/
theorem Choice.place (hle : Level witnesses prio power)
    (hc : Choice witnesses prio power beginNum k (course m)) :
    ∃ place : Nat, m.nextPlace m.epoch.witnessList m.handler.height = some (place : Int) := by
  unfold DbftManager.nextPlace
  split_ifs with first
  · exact ⟨0, rfl⟩
  · obtain ⟨_, begins⟩ | ⟨_, _, _, last⟩ := hc
    · exact absurd begins first
    · have last : Seated witnesses prio power _ m.handler.lastValidators.set := last
      obtain ⟨seat, v, _, _, hpr, sits⟩ := last.seat hle
      rw [hpr, Option.map_some]
      dsimp only
      rw [sits]
      split_ifs
      · exact ⟨0, rfl⟩
      · exact ⟨seat + 1, rfl⟩

end

/-- The proposers of an epoch take turns, whatever messages and timeouts come between its blocks, if
its witnesses come into it with one power and near priorities; in the first epoch, if the last one
of the configuration has the smallest address. -/
theorem proposers_rotate {env : Env} {a : DbftManager} (hf : a.history = [])
    {witnesses : List Validator}
    {start : List Passage} (opens : Opens env.targetBlkCount (course a) witnesses start) :
    Rotates env a start witnesses := by
  obtain ⟨prio, power, epochNo, beginNum, hle, h1, hc⟩ := opens.begun
  have ho : 0 < witnesses.length := List.length_pos_iff.mpr hle.occupied
  have chosen {k : Nat} {m : DbftManager} (haf : After env a start k m) :
      Choice witnesses prio power beginNum k (course m) := by
    obtain ⟨events, rfl⟩ := haf.reached
    have ht : Traced env.targetBlkCount (course a) (tokens a.ledger) (a.run env events) :=
      run_traced hf events
    rw [ht.course]
    exact (haf.decided.turn hle h1 hc).2
  constructor
  · intro i j m m' hp hb window hsm afterI afterJ
    obtain ⟨i, rfl⟩ := Nat.exists_eq_succ_of_ne_zero hp.ne'
    obtain ⟨j, rfl⟩ := Nat.exists_eq_succ_of_ne_zero (Nat.ne_of_gt (hp.trans hb))
    obtain ⟨seat, v, place, turn, hpr⟩ :=
      (chosen afterI).later_proposer hle (by omega) afterI.listed
    obtain ⟨seat', v', place', turn', proposes'⟩ :=
      (chosen afterJ).later_proposer hle hsm afterJ.listed
    rw [hpr, proposes']
    obtain ⟨hi, _⟩ := List.getElem?_eq_some_iff.mp place
    obtain ⟨inside', _⟩ := List.getElem?_eq_some_iff.mp place'
    rw [length_seats] at hi inside'
    -- one seat for both would be served twice in a round
    have hd : seat ≠ seat' := by
      rintro rfl
      rw [place, Option.some.injEq] at place'
      subst place'
      have twice :=
        (List.getElem?_inj (by rw [length_line]; exact Nat.mod_lt i ho) hle.fair.nodup).mp
        (turn.trans turn'.symm)
      exact mod_inj_of_window (by omega) (by omega) twice
    refine differ_of_getElem perm_seats hle.distinct ?_ ?_ ?_
    · rw [length_seats]
      exact Nat.mod_lt _ ho
    · rw [length_seats]
      exact Nat.mod_lt _ ho
    · rcases Nat.lt_or_gt_of_ne hd with less | more
      · exact mod_inj_of_window (by omega) (by omega)
      · exact (mod_inj_of_window (by omega) (by omega)).symm
  · intro k m r r' haf hr hb window
    have hme := (chosen haf).members
    obtain ⟨place, next⟩ := (chosen haf).place hle
    have hw : 0 < m.epoch.witnessList.length := by
      rw [hme.length_eq]
      exact ho
    rw [proposer_eq haf.listed hw next hr,
      proposer_eq haf.listed hw next (by omega)]
    refine differ_of_getElem hme hle.distinct (Nat.mod_lt _ hw) (Nat.mod_lt _ hw) ?_
    rw [hme.length_eq]
    exact mod_inj_of_window (by omega) (by omega)

/-! ## The first epoch of four -/

/-- The node at height 1, with the validators in this order in its configuration. -/
def launchedWith (validators : List Validator) : DbftManager :=
  let gene := (loadGeneValidators validators).getD fourSet
  let epoch : Epoch := ⟨⟨1, 0, 1, 1⟩, gene.set.validators, gene.set.accum⟩
  { starting with
    ledger := { genesisLedger with height := 1 }
    handler := ⟨1, gene, gene, true⟩
    epoch := epoch
    epochList := fun epochNo => if epochNo = 1 then some epoch else none }

theorem four_level : Level fourMembers.reverse (fun _ => 0) 1 where
  occupied := by decide
  distinct := by decide
  equal := by decide
  positive := by decide
  near := by unfold Near; decide
  room := by decide

theorem descending_rotates : (launchedWith fourMembers.reverse).history = [] ∧
    Opens third.targetBlkCount (course (launchedWith fourMembers.reverse)) fourMembers.reverse [] ∧
    Rotates third (launchedWith fourMembers.reverse) [] fourMembers.reverse := by
  have made : loadGeneValidators fourMembers.reverse =
      some ((loadGeneValidators fourMembers.reverse).getD fourSet) :=
    rfl
  have opens : Opens third.targetBlkCount
      (course (launchedWith fourMembers.reverse)) fourMembers.reverse [] :=
    .genesis four_level made ⟨⟨[1], [1], 1⟩, rfl, by decide⟩ rfl rfl rfl rfl rfl
  exact ⟨rfl, opens, proposers_rotate rfl opens⟩

/-- The first `k` blocks, each made by whoever proposes in round 0. -/
noncomputable def decidedBlocks : Nat → List (Event × Answers)
  | 0 => []
  | k + 1 =>
    let m := (launchedWith fourMembers).run third (decidedBlocks k)
    decidedBlocks k ++ [(.commit (m.makeBlockDPoS [] (proposer third m 0).join), plain)]

theorem ascending_repeats :
    proposer third ((launchedWith fourMembers).run third (decidedBlocks 1)) 0 =
    some (some ⟨[1], [1], 1⟩) ∧
    proposer third ((launchedWith fourMembers).run third (decidedBlocks 4)) 0 =
    some (some ⟨[1], [1], 1⟩) ∧ ¬ Rotates third (launchedWith fourMembers) [] fourMembers := by
  have h1 : proposer third ((launchedWith fourMembers).run third (decidedBlocks 1)) 0 =
      some (some ⟨[1], [1], 1⟩) := by decide +kernel
  have fourth : proposer third ((launchedWith fourMembers).run third (decidedBlocks 4)) 0 =
      some (some ⟨[1], [1], 1⟩) := by decide +kernel
  refine ⟨h1, fourth, fun rotates => ?_⟩
  have afterFirst : After third (launchedWith fourMembers) [] 1
      ((launchedWith fourMembers).run third (decidedBlocks 1)) := ⟨⟨_, rfl⟩, .commit .start, rfl⟩
  have afterFourth : After third (launchedWith fourMembers) [] 4
      ((launchedWith fourMembers).run third (decidedBlocks 4)) :=
    ⟨⟨_, rfl⟩, .commit (.commit (.commit (.commit .start))), rfl⟩
  obtain ⟨v, _, w, _, hpr, proposes', hd⟩ :=
    rotates.heights one_pos (by decide) (by decide) (by decide) afterFirst afterFourth
  rw [h1] at hpr
  rw [fourth] at proposes'
  cases hpr
  cases proposes'
  exact hd rfl

end HNBChain.Audit.Guarantees.RoundRobin
