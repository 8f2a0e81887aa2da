import HNBChain.Audit.Source.Algorand.Ballots
import HNBChain.Audit.Source.Algorand.Locking
import HNBChain.Audit.Source.Algorand.Provenance
import HNBChain.Audit.Guarantees.RoundMonotone

/-!
# Leaving a lock

A node that precommitted a block should prevote another value in a later round only after it has
seen more than two thirds of the prevotes of a round in between go to something else. Three things
in the handlers break this: a lock expires after as many rounds as there are validators,
`enterPrecommit` drops the lock also when the prevotes are for the locked block and the node does
not have it as the proposal, and a proposal that is not valid gets a nil prevote also when it has
the hash of the lock.

`Careful` says of an event that none of the three happens.
-/
namespace HNBChain.Audit.Guarantees.LockLoyalty

open Lib Source Source.Algorand
open RoundMonotone

/-- The node precommitted in this round of its height. -/
def Precommits (n : Node) (r : Int32) : Prop :=
  ∃ v ∈ n.signed, v.type = .precommit ∧ v.height = n.height ∧ v.round = r

/-- In round `r'`, after `r`, the node precommitted on +2/3 prevotes for something else. -/
structure Leaves (n : Node) (r : Int32) (hash : Bytes) (r' : Int32) : Prop where
  later : r < r'
  precommits : Precommits n r'
  polka : ∃ id, n.votes.majority r' .prevote = some id ∧ id.hash ≠ hash

/-- The lock is on the block that was precommitted last, or the node left it; prevotes follow. -/
structure Loyal (env : Env) (n : Node) : Prop where
  coherent : n.Coherent
  ordered : Ordered n
  started : ∀ v ∈ n.signed, 0 ≤ v.round
  lock : ∀ b, n.lockedBlock = some b →
    Casts n .precommit n.height n.lockedRound (b.hash env.digests)
  latest : ∀ r hash, hash ≠ [] → Casts n .precommit n.height r hash →
    (∃ b, n.lockedBlock = some b ∧ b.hash env.digests = hash) ∨ ∃ r', Leaves n r hash r'
  loyal : ∀ r hash r' hash', hash ≠ [] → Casts n .precommit n.height r hash →
    Casts n .prevote n.height r' hash' → r < r' → hash' ≠ hash → ∃ r'' < r', Leaves n r hash r''

/-- A locked node has the locked block as its proposal when more than two thirds prevoted it. -/
def HasLocked (env : Env) (n : Node) : Prop :=
  ∀ b, n.lockedBlock = some b → ∀ id, n.votes.majority n.round .prevote = some id →
    id.hash = b.hash env.digests → Block.hashesTo env.digests n.proposalBlock id.hash

/-- A proposal with the hash of the lock is valid, be it held already or completed only now. -/
def SoundLock (env : Env) (completes : Option Algorand.Block → Prop) (n : Node) : Prop :=
  ∀ b, n.lockedBlock = some b → ∀ p, n.proposalBlock = some p ∨ completes (some p) →
    p.hash env.digests = b.hash env.digests → validateBlock env.digests n.lastCommitState p = .ok ()

/-- In the rounds in which it may prevote, the lock of the node has not expired and is sound. -/
structure Steady (env : Env) (rounds : Int32 → Prop)
    (completes : Option Algorand.Block → Prop) (n : Node) : Prop where
  unexpired : Unexpired rounds n
  sound : ∀ r, rounds r → r ≠ 0 → SoundLock env completes n

section

variable {env : Env} {ans : Answers} {occ : Occasion} {rounds : Int32 → Prop}
  {completes : Option Algorand.Block → Prop} {n n' : Node}

/-! ## Nothing signed -/

variable {r : Int32} {b : Algorand.Block} {id : BlockID} {m : Node}

theorem Precommits.mono (height : n'.height = n.height) (hsi : ∀ v ∈ n.signed, v ∈ n'.signed)
    (precommits : Precommits n r) : Precommits n' r := by
  obtain ⟨v, hm, type, at_, round⟩ := precommits
  exact ⟨v, hsi v hm, type, at_.trans height.symm, round⟩

theorem Leaves.mono {r' : Int32} {hash : Bytes} (height : n'.height = n.height)
    (hsi : ∀ v ∈ n.signed, v ∈ n'.signed)
    (votes : ∀ r id, n.votes.majority r .prevote = some id → n'.votes.majority r .prevote = some id)
    (leaves : Leaves n r hash r') : Leaves n' r hash r' := by
  obtain ⟨hla, precommits, id, hr, other⟩ := leaves
  exact ⟨hla, precommits.mono height hsi, id, votes r' id hr, other⟩

theorem Loyal.of_same (hl : Loyal env n) (hc : n'.Coherent) (ho : Ordered n')
    (height : n'.height = n.height) (lockedRound : n'.lockedRound = n.lockedRound)
    (lockedBlock : n'.lockedBlock = n.lockedBlock) (hsi : n'.signed = n.signed)
    (votes : ∀ r id, n.votes.majority r .prevote = some id →
      n'.votes.majority r .prevote = some id) : Loyal env n' := by
  have casts (t : VoteType) (r : Int32) (hash : Bytes) :
      Casts n' t n'.height r hash ↔ Casts n t n.height r hash := by
    unfold Casts
    rw [hsi, height]
  have leaves {r r' : Int32} {hash : Bytes} : Leaves n r hash r' → Leaves n' r hash r' :=
    Leaves.mono height (fun v hm => hsi ▸ hm) votes
  refine ⟨hc, ho, ?_, ?_, ?_, ?_⟩
  · rw [hsi]
    exact hl.started
  · intro b hlo
    rw [casts, lockedRound]
    exact hl.lock b (lockedBlock ▸ hlo)
  · intro r hash block cast
    rw [lockedBlock]
    exact (hl.latest r hash block ((casts ..).mp cast)).imp_right fun ⟨r', left⟩ =>
      ⟨r', leaves left⟩
  · intro r hash r' hash' block cast cast' hla other
    obtain ⟨r'', hb, left⟩ :=
      hl.loyal r hash r' hash' block ((casts ..).mp cast) ((casts ..).mp cast') hla other
    exact ⟨r'', hb, leaves left⟩

/-! ## A prevote -/

/-- While the lock is young and sound, a prevote is for the locked block. -/
theorem prevoteID_sound (hlo : n.lockedBlock = some b)
    (young : n.round - n.lockedRound < Int32.ofNat n.validators.size)
    (hso : SoundLock env completes n)
    (hch : n.prevoteID env = some id) : id.hash = b.hash env.digests := by
  unfold Node.prevoteID at hch
  split at hch
  · cases hch
    rw [Node.lockedID, hlo]
    rfl
  next open_ =>
    have same : Block.hashesTo env.digests n.lockedBlock (n.proposalHash env) := by
      by_contra other
      exact open_ ⟨hlo ▸ rfl, other, young⟩
    obtain ⟨_, held, block, same⟩ := hashesTo_some same
    obtain rfl : _ = b := Option.some.inj (held.symm.trans hlo)
    rw [Node.proposalHash] at same block
    cases proposed : n.proposalBlock with
    | none =>
      rw [proposed] at block
      exact absurd rfl block
    | some p =>
      rw [proposed] at hch same
      dsimp only at hch
      rw [hso _ hlo p (.inl proposed) same.symm] at hch
      cases hch
      exact same.symm

/-- A node that has not prevoted in its round has not precommitted in it either. -/
theorem Precommits.lt_round (precommits : Precommits n r) (ho : Ordered n)
    (he : n.step < .precommit) : r < n.round := by
  obtain ⟨v, hm, type, height, round⟩ := precommits
  exact Casts.round_lt ho he ⟨v, hm, type, height, round, rfl⟩

theorem Leaves.adds {t : VoteType} {hash : Bytes} {r' : Int32} (adds : Adds env t id n m)
    (left : Leaves n r hash r') : Leaves m r hash r' :=
  left.mono adds.height adds.kept fun _ _ hr => adds.votes ▸ hr

theorem Loyal.prevoted (hl : Loyal env n) (he : n.step < .prevote)
    (hch : n.prevoteID env = some id) (ha : rounds n.round)
    (hs : Steady env rounds completes n) (adds : Adds env .prevote id n m)
    (hc : m.Coherent) (ho : Ordered m) (lockedRound : m.lockedRound = n.lockedRound)
    (lockedBlock : m.lockedBlock = n.lockedBlock) : Loyal env m := by
  have precommit {r : Int32} {hash : Bytes} (cast : Casts m .precommit m.height r hash) :
      Casts n .precommit n.height r hash :=
    adds.height ▸ (adds.cast cast).resolve_right fun ⟨type, _⟩ => nomatch type
  refine ⟨hc, ho, adds.started hl.coherent hl.started, fun b hlo => ?_,
    fun r hash block cast => ?_, fun r hash r' hash' block cast cast' hla other => ?_⟩
  · rw [adds.height, lockedRound]
    exact (hl.lock b (lockedBlock ▸ hlo)).mono adds.kept
  · rw [lockedBlock]
    exact (hl.latest r hash block (precommit cast)).imp_right fun ⟨r', left⟩ =>
      ⟨r', left.adds adds⟩
  · have cast := precommit cast
    rw [adds.height] at cast'
    rcases adds.cast cast' with old | ⟨_, _, rfl, rfl⟩
    · obtain ⟨r'', hb, left⟩ := hl.loyal r hash r' hash' block cast old hla other
      exact ⟨r'', hb, left.adds adds⟩
    · -- the new prevote is for the lock, so the lock is not on `hash` any more
      have he := before_precommit he
      rcases hl.latest r hash block cast with ⟨b, hlo, lockedHash⟩ | ⟨r'', left⟩
      · have hla := (hl.lock b hlo).round_ne_zero hl.ordered hl.started he
        have young := hs.unexpired (hlo ▸ rfl) n.round ha (Int32.le_refl _) hla
        have hso := hs.sound n.round ha hla
        exact absurd ((prevoteID_sound hlo young hso hch).trans lockedHash) other
      · exact ⟨r'', left.precommits.lt_round hl.ordered he, left.adds adds⟩

theorem Calm.loyal (calm : Calm env rounds n n') (hl : Loyal env n)
    (hs : Steady env rounds completes n) : Loyal env n' := by
  have hc := calm.coherent hl.coherent
  have ho := calm.ordered hl.ordered
  cases calm with
  | quiet quiet =>
    exact hl.of_same hc ho quiet.height quiet.lockedRound
      quiet.lockedBlock quiet.signed
      fun r id hr => (quiet.votes.majority r .prevote).trans hr
  | prevote ans id he hch ha =>
    exact hl.prevoted he hch ha hs ⟨rfl, rfl, ans, rfl⟩ hc ho rfl rfl

theorem Steady.still (hs : Steady env rounds completes n) (hst : Still n n') :
    Steady env rounds completes n' := by
  refine ⟨hs.unexpired.still hst, fun r ha hla b hlo p held => ?_⟩
  rw [hst.lastCommitState]
  refine hs.sound r ha hla b (hst.lockedBlock ▸ hlo) p
    (held.imp_left fun hp => ?_)
  rcases hst.proposed with same | hd
  · exact same ▸ hp
  · cases hd.symm.trans hp

/-- Nothing is asked of the lock in round 0, which is before it. -/
theorem steady_zero (completes : Option Algorand.Block → Prop) (n : Node) :
    Steady env (· = 0) completes n :=
  ⟨unexpired_zero n, fun _ zero hla => absurd zero hla⟩

theorem Calms.loyal (hca : Calms env (· = 0) n n') (hl : Loyal env n) : Loyal env n' := by
  induction hca with
  | refl => exact hl
  | tail _ last ih => exact Calm.loyal last ih (steady_zero (fun _ => False) _)

theorem Move.loyal (move : Move env occ n n') (hl : Loyal env n)
    (hs : Steady env occ.rounds occ.completes n) :
    Loyal env n' ∧ Steady env occ.rounds occ.completes n' := by
  have hc := move.coherent hl.coherent
  have ho := move.ordered hl.ordered
  cases move with
  | calm calm => exact ⟨Calm.loyal calm hl hs, hs.still calm.still⟩
  | record v =>
    exact ⟨hl.of_same hc ho rfl rfl rfl rfl fun r id hr =>
      HeightVoteSet.majority_addVote hr v, hs.unexpired, hs.sound⟩
  | recordLast =>
    exact ⟨hl.of_same hc ho rfl rfl rfl rfl fun _ _ hr => hr,
      hs.unexpired, hs.sound⟩
  | propose _ block _ hco =>
    refine ⟨hl.of_same hc ho rfl rfl rfl rfl fun _ _ hr => hr,
      hs.unexpired,
      fun r ha hla b hlo p held => hs.sound r ha hla b hlo p ?_⟩
    rcases held with rfl | hg
    · exact hco.imp_left Eq.symm
    · exact .inr hg

theorem Moves.loyal (hmo : Moves env occ n n') (hl : Loyal env n)
    (hs : Steady env occ.rounds occ.completes n) :
    Loyal env n' ∧ Steady env occ.rounds occ.completes n' := by
  induction hmo with
  | refl => exact ⟨hl, hs⟩
  | tail _ last ih => exact Move.loyal last ih.1 ih.2

/-! ## A precommit -/

/-- A precommit adds no prevote, and none of a later round is there. -/
theorem Loyal.precommit_cast (hl : Loyal env n) (adds : Adds env .precommit id n m)
    (hc : m.Coherent) (ho : Ordered m) (lock : ∀ b, m.lockedBlock = some b →
      Casts m .precommit n.height m.lockedRound (b.hash env.digests))
    (hlt : ∀ r hash, hash ≠ [] → Casts m .precommit n.height r hash →
      (∃ b, m.lockedBlock = some b ∧ b.hash env.digests = hash) ∨ ∃ r',
      Leaves m r hash r') : Loyal env m := by
  rw [← adds.height] at lock hlt
  refine ⟨hc, ho, adds.started hl.coherent hl.started, lock, hlt, ?_⟩
  rw [adds.height]
  intro r hash r' hash' block cast cast' hla other
  have prevote : Casts n .prevote n.height r' hash' :=
    (adds.cast cast').resolve_right fun ⟨type, _⟩ => nomatch type
  rcases adds.cast cast with old | ⟨_, _, rfl, _⟩
  · obtain ⟨r'', hb, left⟩ := hl.loyal r hash r' hash' block old prevote hla other
    exact ⟨r'', hb, left.adds adds⟩
  · exact absurd hla (Int32.not_lt.mpr (prevote.round_le hl.ordered))

/-- A precommit for no block, with the lock as it was. -/
theorem Loyal.precommit_nil (hl : Loyal env n) (adds : Adds env .precommit .zero n m)
    (hc : m.Coherent) (ho : Ordered m) (lockedRound : m.lockedRound = n.lockedRound)
    (lockedBlock : m.lockedBlock = n.lockedBlock) : Loyal env m := by
  refine hl.precommit_cast adds hc ho (fun b hlo => ?_) fun r hash block cast => ?_
  · rw [lockedRound]
    exact (hl.lock b (lockedBlock ▸ hlo)).mono adds.kept
  · rcases adds.cast cast with old | ⟨_, _, _, hem⟩
    · rw [lockedBlock]
      exact (hl.latest r hash block old).imp_right fun ⟨r', left⟩ => ⟨r', left.adds adds⟩
    · exact absurd hem.symm block

/-- The precommit of this round leaves a block that the majority did not prevote. -/
theorem leaves_here {id' : BlockID} {hash : Bytes} (adds : Adds env .precommit id' n m)
    (ho : Ordered n) (he : n.step < .precommit) (hr : n.votes.majority n.round .prevote = some id)
    (cast : Casts n .precommit n.height r hash) (other : id.hash ≠ hash) :
    Leaves m r hash n.round := by
  obtain ⟨v, hm, type, height, round, _⟩ := adds.here
  exact ⟨cast.round_lt ho he, ⟨v, hm, type, height.trans adds.height.symm, round⟩,
    id, adds.votes ▸ hr, other⟩

/-- A precommit for a block, which is locked. -/
theorem Loyal.precommit_block (hl : Loyal env n) (he : n.step < .precommit)
    (adds : Adds env .precommit id n m) (hc : m.Coherent) (ho : Ordered m)
    (hr : n.votes.majority n.round .prevote = some id) (same : b.hash env.digests = id.hash)
    (lockedRound : m.lockedRound = n.round) (lockedBlock : m.lockedBlock = some b) :
    Loyal env m := by
  refine hl.precommit_cast adds hc ho (fun b' hlo => ?_)
    fun r hash block cast => ?_
  · cases lockedBlock.symm.trans hlo
    rw [lockedRound, same]
    exact adds.here
  · by_cases this : id.hash = hash
    · exact .inl ⟨b, lockedBlock, same.trans this⟩
    · rcases adds.cast cast with old | ⟨_, _, _, new⟩
      · exact .inr ⟨n.round, leaves_here adds hl.ordered he hr old this⟩
      · exact absurd new this

/-- The lock is dropped, for the majority prevoted a block that is not the proposal. -/
theorem Loyal.precommit_unlock (hl : Loyal env n) (he : n.step < .precommit)
    (adds : Adds env .precommit .zero n m) (hc : m.Coherent) (ho : Ordered m)
    (has : HasLocked env n) (hr : n.votes.majority n.round .prevote = some id)
    (missing : ¬ Block.hashesTo env.digests n.proposalBlock id.hash)
    (hu : m.lockedBlock = none) : Loyal env m := by
  refine hl.precommit_cast adds hc ho
    (fun b hlo => by cases hu.symm.trans hlo)
    fun r hash block cast => ?_
  rcases adds.cast cast with old | ⟨_, _, _, hem⟩
  · by_cases this : id.hash = hash
    · rcases hl.latest r hash block old with ⟨b, hlo, lockedHash⟩ | ⟨r', left⟩
      · exact absurd (has b hlo id hr (this.trans lockedHash.symm)) missing
      · exact .inr ⟨r', left.adds adds⟩
    · exact .inr ⟨n.round, leaves_here adds hl.ordered he hr old this⟩
  · exact absurd hem.symm block

theorem Loyal.precommitted (hl : Loyal env n) (ans : Answers) (he : n.step < .precommit)
    (has : HasLocked env n) : Loyal env (n.precommitted env ans) := by
  have hc : (n.precommitted env ans).Coherent := hl.coherent.precommitted ans
  have ho : Ordered (n.precommitted env ans) := hl.ordered.precommitted ans he
  unfold Node.precommitted Node.doPrecommit at hc ho ⊢
  cases reached : n.votes.majority n.round .prevote with
  | none =>
    rw [reached] at hc ho
    exact hl.precommit_nil ⟨rfl, rfl, ans, rfl⟩ hc ho rfl rfl
  | some id =>
    rw [reached] at hc ho
    dsimp only at hc ho ⊢
    split_ifs at hc ho ⊢ with empty proposed
    · exact hl.precommit_nil ⟨rfl, rfl, ans, rfl⟩ hc ho rfl rfl
    · obtain ⟨b, held, _, hash⟩ := hashesTo_some proposed
      exact hl.precommit_block he ⟨rfl, rfl, ans, rfl⟩ hc ho reached hash rfl held
    · exact hl.precommit_unlock he
        ⟨rfl, rfl, ans, rfl⟩ hc ho has reached proposed rfl

/-! ## An event -/

/-- The lock is safe in every round in which the node may prevote or precommit. -/
structure Guarded (env : Env) (occ : Occasion) (n : Node) : Prop where
  steady : Steady env occ.rounds occ.completes n
  has : ∀ a, Moves env occ n a → a.step < .precommit → occ.precommits a → HasLocked env a

theorem Advance.loyal (had : Advance env occ n n') (hl : Loyal env n)
    (hgu : Guarded env occ n) : Loyal env n' := by
  cases had with
  | moved hmo => exact (Moves.loyal hmo hl hgu.steady).1
  | precommitted ans hb he ha haf =>
    have hr := (Moves.loyal hb hl hgu.steady).1
    exact Calms.loyal haf (hr.precommitted ans he (hgu.has _ hb he ha))

theorem Entry.loyal (entry : Entry n n') (hl : Loyal env n) : Loyal env n' := by
  have hc := entry.coherent hl.coherent
  have ho := entry.ordered hl.ordered
  cases entry with
  | inside => exact hl
  | enter => exact hl.of_same hc ho rfl rfl rfl rfl fun _ _ hr => hr

/-- Nothing is signed yet at the next height. -/
theorem Loyal.committed (hl : Loyal env n) (c : Saved) (s : State) (precommits : VoteSet)
    (hc : (n.committed c s precommits).Coherent) :
    Loyal env (n.committed c s precommits) := by
  have hsi := (committed_logs n c s precommits).1
  have nothing (t : VoteType) (r : Int32) (hash : Bytes) :
      ¬ Casts (n.committed c s precommits) t (n.committed c s precommits).height r hash := by
    rintro ⟨v, hm, _, height, _⟩
    have height : v.height = n.height + 1 := height
    rcases position_le.mp (hl.ordered.reached v (hsi ▸ hm)) with lower | ⟨same, _⟩
    · exact absurd (Nat.lt_of_le_of_lt (Nat.le_of_eq height.symm) lower)
        (Nat.not_lt.mpr (Nat.le_succ _))
    · exact absurd (height.symm.trans same) (Nat.succ_ne_self _)
  refine ⟨hc, hl.ordered.forward hsi (position_le.mpr (.inl (Nat.lt_succ_self _))), ?_,
    fun b hlo => ?_, fun r hash _ cast => absurd cast (nothing _ _ _),
    fun r hash _ _ _ cast => absurd cast (nothing _ _ _)⟩
  · rw [hsi]
    exact hl.started
  · cases (committed_unlocked ..).symm.trans hlo

theorem Finish.loyal (hf : Finish env n n') (hl : Loyal env n) : Loyal env n' :=
  hf.induction hl.coherent hl
    (fun a _ move hl => (Move.loyal move hl (steady_zero _ a)).1)
    fun _ c s precommits _ _ hsu hl =>
      hl.committed c s precommits (hl.coherent.committed hsu)

theorem Outcome.loyal (hou : Outcome env occ n n') (hl : Loyal env n)
    (hgu : Guarded env occ n) : Loyal env n' := by
  cases hou with
  | waited hb _ =>
    have advanced := Advance.loyal hb hl hgu
    exact advanced.of_same advanced.coherent.waited advanced.ordered.waited rfl rfl rfl rfl
      fun _ _ hr => hr
  | acted act =>
    cases act with
    | advanced had => exact Advance.loyal had hl hgu
    | finished hb entry hf =>
      exact Finish.loyal hf (Entry.loyal entry (Advance.loyal hb hl hgu))

/-! ## What the node saw -/

/-- Prevotes of round `r` that the node held in the course of an event, with more than two thirds
behind one value that is not `hash`. -/
def Saw (leaves : HeightVoteSet → Prop) (n : Node) (r : Int32) (hash : Bytes) : Prop :=
  ∃ votes id, Traced leaves n votes ∧ votes.majority r .prevote = some id ∧ id.hash ≠ hash

/-- Of all that the node has signed at its height when the event is handled: between a precommit for
a block and a later prevote for anything else it precommitted on what it saw in a round between. -/
def Disciplined (leaves : HeightVoteSet → Prop) (n n' : Node) : Prop :=
  ∀ r hash r' hash', hash ≠ [] → Casts n' .precommit n.height r hash →
    Casts n' .prevote n.height r' hash' → r < r' → hash' ≠ hash →
      ∃ r'' hash'', r < r'' ∧ r'' < r' ∧ Casts n' .precommit n.height r'' hash'' ∧
      Saw leaves n r'' hash

theorem Loyal.disciplined {leaves : HeightVoteSet → Prop} (hl : Loyal env m)
    (hw : Within leaves n m)
    (same : ∀ t r hash, Casts n' t n.height r hash ↔ Casts m t n.height r hash) :
    Disciplined leaves n n' := by
  intro r hash r' hash' block cast cast' hla other
  rw [same, ← hw.height] at cast cast'
  obtain ⟨r'', hb, haf, precommits, id, hr, left⟩ :=
    hl.loyal r hash r' hash' block cast cast' hla other
  obtain ⟨v, hm, type, height, round⟩ := precommits
  refine ⟨r'', v.blockID.hash, haf, hb, (same ..).mpr ?_, m.votes, id,
    hw.votes, hr, left⟩
  exact ⟨v, hm, type, height.trans hw.height, round, rfl⟩

/-- Calm moves sign at the height of the node only. -/
theorem Calms.casts (hca : Calms env rounds n n') {t : VoteType} {h : Nat} {hash : Bytes}
    (other : h ≠ n.height) : Casts n' t h r hash ↔ Casts n t h r hash := by
  induction hca with
  | refl => exact Iff.rfl
  | @tail a b hb last ih =>
    rw [← ih]
    cases last with
    | quiet quiet => unfold Casts; rw [quiet.signed]
    | prevote ans id =>
      refine ⟨fun cast => ?_, fun cast => cast.mono fun v hm => List.mem_cons_of_mem _ hm⟩
      rcases cast.of_cons rfl with old | ⟨_, height, _⟩
      · exact old
      · exact absurd (height.symm.trans (Calms.still hb).height) other

/-- After the commit only votes of the next height are signed. -/
theorem Finish.disciplined {leaves : HeightVoteSet → Prop} {a : Node} (hf : Finish env a n')
    (hl : Loyal env a) (hw : Within leaves n a) : Disciplined leaves n n' := by
  have inside {m : Node} (hmo : Moves env .rest a m) : Loyal env m ∧ Within leaves n m :=
    ⟨(Moves.loyal hmo hl (steady_zero _ a)).1,
      hw.trans ((hmo.within hl.coherent).imp fun _ => False.elim)⟩
  cases hf with
  | moved hmo _ => exact (inside hmo).1.disciplined (inside hmo).2 fun _ _ _ => Iff.rfl
  | crashed hb _ _ => exact (inside hb).1.disciplined (inside hb).2 fun _ _ _ => Iff.rfl
  | @committed m _ _ _ _ c _ s hb hre state haf =>
    obtain ⟨hr, hw⟩ := inside hb
    obtain ⟨precommits, _, _, same⟩ := hre.committed hr.coherent state
    rw [same] at haf
    refine hr.disciplined hw fun t r hash => ?_
    have next : n.height ≠ (m.committed c s precommits).height := by
      rw [← hw.height]
      exact (Nat.succ_ne_self _).symm
    rw [Calms.casts haf next]
    unfold Casts
    rw [(committed_logs ..).1]

theorem Outcome.disciplined (hou : Outcome env occ n n') (hl : Loyal env n)
    (hgu : Guarded env occ n) : Disciplined occ.leaves n n' := by
  cases hou with
  | waited hb _ =>
    exact (Advance.loyal hb hl hgu).disciplined (hb.within hl.coherent)
      fun _ _ _ => Iff.rfl
  | acted act =>
    cases act with
    | advanced had =>
      exact (Advance.loyal had hl hgu).disciplined (had.within hl.coherent)
        fun _ _ _ => Iff.rfl
    | finished hb entry hf =>
      have advanced := Advance.loyal hb hl hgu
      exact Finish.disciplined hf (Entry.loyal entry advanced)
        ((hb.within hl.coherent).trans (entry.within advanced.coherent))

/-! ## Runs -/

/-- The event does not restart the node, and if the node is locked on `b`: in the rounds it may vote
in the lock has not expired, more than two thirds of prevotes for `b` find the node in their round
and with `b` as the proposal, and a proposal with the hash of `b` is valid. -/
def Careful (env : Env) (n : Node) (e : Event) : Prop :=
  e ≠ .reset ∧ ∀ b, n.lockedBlock = some b →
    (∀ r, e.turns n r → n.round ≤ r → r - n.lockedRound < Int32.ofNat n.validators.size ∧
      ((r = n.round → n.step < .precommit) → ∀ id,
        (e.recorded n).votes.majority r .prevote = some id →
          id.hash = b.hash env.digests → r = n.round ∧
          Block.hashesTo env.digests n.proposalBlock id.hash)) ∧
    ∀ p, n.proposalBlock = some p ∨ e.completed env n = some p →
      p.hash env.digests = b.hash env.digests →
      validateBlock env.digests n.lastCommitState p = .ok ()

theorem Careful.guarded {e : Event} (careful : Careful env n e) (hc : n.Coherent) :
    Guarded env (e.occasion env n) n := by
  refine ⟨⟨fun held r ha hah hla => ?_, fun _ _ _ b hlo => (careful.2 b hlo).2⟩,
    fun a hmo he ha b hlo id hr same => ?_⟩
  · obtain ⟨b, hlo⟩ := Option.isSome_iff_exists.mp held
    exact ((careful.2 b hlo).1 r (ha.resolve_left hla) hah).1
  · have hpr := precommitting hc hmo he ha
    rw [hpr.lockedBlock] at hlo
    rw [hpr.votes] at hr
    obtain ⟨here, held⟩ :=
      ((careful.2 b hlo).1 a.round hpr.turns hpr.ahead).2
      hpr.early id hr same
    rw [hpr.proposalBlock here]
    exact held

theorem startNode_loyal {s : State} {seenCommit : Commit} (params : s.consensusParams = .zero)
    (hsa : startNode env s seenCommit = some n) : Loyal env n := by
  have hv := startNode_voter params hsa
  have nothing : n.signed = [] ∧ n.lockedBlock = none := by
    obtain ⟨lastCommit, _, rfl⟩ := Option.map_eq_some_iff.mp hsa
    dsimp only
    split <;> exact ⟨rfl, rfl⟩
  have casts (t : VoteType) (h : Nat) (r : Int32) (hash : Bytes) : ¬ Casts n t h r hash := by
    rintro ⟨v, hm, _⟩
    rw [nothing.1] at hm
    exact absurd hm List.not_mem_nil
  refine ⟨hv.coherent, hv.ordered, hv.locks.started, hv.locks.lock,
    fun r hash _ cast => absurd cast (casts _ _ _ _),
    fun r hash _ _ _ cast => absurd cast (casts _ _ _ _)⟩

/-- Every event of the list is careful in the state it comes in. -/
def CarefulRun (env : Env) : Node → List (Event × Answers) → Prop
  | _, [] => True
  | n, event :: rest => Careful env n event.1 ∧ CarefulRun env (n.deliver env event.2 event.1) rest

/-- Every event of the list is handled with discipline. -/
def DisciplinedRun (env : Env) : Node → List (Event × Answers) → Prop
  | _, [] => True
  | n, event :: rest =>
    Disciplined (event.1.occasion env n).leaves n (n.deliver env event.2 event.1) ∧
      DisciplinedRun env (n.deliver env event.2 event.1) rest

theorem Loyal.run (hl : Loyal env n) (events : List (Event × Answers))
    (careful : CarefulRun env n events) : DisciplinedRun env n events := by
  induction events generalizing n with
  | nil => trivial
  | cons event rest ih =>
    obtain ⟨here, hla⟩ := careful
    have hou : Outcome env (event.1.occasion env n) n (n.deliver env event.2 event.1) :=
      deliver_outcome hl.coherent.timed here.1
    have hgu := here.guarded hl.coherent
    exact ⟨Outcome.disciplined hou hl hgu,
      ih (Outcome.loyal hou hl hgu) hla⟩

/-- In a run of careful events, a node that has precommitted a block prevotes something else in a
later round only if it precommitted in a round between on more than two thirds of prevotes for
something else. -/
theorem run_disciplined {s : State} {seenCommit : Commit} (params : s.consensusParams = .zero)
    (hsa : startNode env s seenCommit = some n) (events : List (Event × Answers))
    (careful : CarefulRun env n events) : DisciplinedRun env n events :=
  (startNode_loyal params hsa).run events careful

end

/-- The condition of `Careful` on one round, for a lock on `b`. -/
def KeepsLock (env : Env) (n : Node) (votes : HeightVoteSet) (b : Algorand.Block)
    (r : Int32) : Prop :=
  n.round ≤ r → r - n.lockedRound < Int32.ofNat n.validators.size ∧
    ((r = n.round → n.step < .precommit) → ∀ id ∈ votes.majority r .prevote,
      id.hash = b.hash env.digests → r = n.round ∧
      Block.hashesTo env.digests n.proposalBlock id.hash)

instance decidableKeepsLock (env : Env) (n : Node) (votes : HeightVoteSet)
    (b : Algorand.Block) (r : Int32) :
    Decidable (KeepsLock env n votes b r) := inferInstanceAs (Decidable (_ → _))

instance decidableCareful (env : Env) (n : Node) (e : Event) : Decidable (Careful env n e) :=
  decidable_of_iff (e ≠ .reset ∧ ∀ b ∈ n.lockedBlock,
    (KeepsLock env n (e.recorded n).votes b n.round ∧
      ∀ v ∈ e.carried n, KeepsLock env n (e.recorded n).votes b v.round) ∧
    (∀ p ∈ n.proposalBlock, p.hash env.digests = b.hash env.digests →
      (validateBlock env.digests n.lastCommitState p).isOk) ∧
    ∀ p ∈ e.completed env n, p.hash env.digests = b.hash env.digests →
      (validateBlock env.digests n.lastCommitState p).isOk) (by
    have ok (p : Algorand.Block) : (validateBlock env.digests n.lastCommitState p).isOk ↔
        validateBlock env.digests n.lastCommitState p = .ok () := by
      cases validateBlock env.digests n.lastCommitState p with
      | error e => exact ⟨nofun, nofun⟩
      | ok u => exact ⟨fun _ => rfl, fun _ => rfl⟩
    simp only [ok]
    refine and_congr_right fun _ => forall_congr' fun b => imp_congr_right fun _ => ?_
    refine and_congr Event.forall_turns.symm ?_
    constructor
    · rintro ⟨held, given⟩ p (proposed | completed)
      · exact held p proposed
      · exact given p completed
    · exact fun all => ⟨fun p proposed => all p (.inl proposed),
        fun p completed => all p (.inr completed)⟩)

instance decidableCarefulRun (env : Env) : (n : Node) → (events : List (Event × Answers)) →
    Decidable (CarefulRun env n events)
  | _, [] => .isTrue trivial
  | n, event :: rest =>
    have : Decidable (CarefulRun env (n.deliver env event.2 event.1) rest) :=
      decidableCarefulRun env _ rest
    inferInstanceAs (Decidable (_ ∧ _))

/-- A node of four validators starts, prevotes the block 7, and locks it on the votes of the
others. -/
def toLock : List (Event × Answers) :=
  [(.timeout ⟨1, 0, .newHeight⟩, plainAnswers), (proposalFor 0 7, plainAnswers),
    (partOf 7, plainAnswers),
    (voteFrom 0 0 .prevote (plainID 7), plainAnswers),
    (voteFrom 2 0 .prevote (plainID 7), plainAnswers),
    (voteFrom 3 0 .prevote (plainID 7), plainAnswers)]

/-- The others precommit nothing in round `r`, and the block 8 is proposed in the next round. -/
def toNext (r : Int32) : List (Event × Answers) :=
  [(voteFrom 0 r .precommit .zero, plainAnswers), (voteFrom 2 r .precommit .zero, plainAnswers),
    (voteFrom 3 r .precommit .zero, plainAnswers), (proposalFor (r + 1) 8, plainAnswers),
    (partOf 8, plainAnswers)]

/-- A node that stays with its lock in the next round, where another block is proposed. -/
theorem lock_kept : CarefulRun (plainEnv 4 1) (plainNode 4) (toLock ++ toNext 0) ∧
    DisciplinedRun (plainEnv 4 1) (plainNode 4) (toLock ++ toNext 0) :=
  have careful : CarefulRun (plainEnv 4 1) (plainNode 4) (toLock ++ toNext 0) := by decide +kernel
  ⟨careful, run_disciplined rfl (plainNode_started (by decide)) _ careful⟩

/-! ## The lock expires -/

theorem DisciplinedRun.append {env : Env} {n : Node} (first second : List (Event × Answers))
    (disciplined : DisciplinedRun env n (first ++ second)) :
    DisciplinedRun env (n.run env first) second := by
  induction first generalizing n with
  | nil => exact disciplined
  | cons event rest ih => exact ih disciplined.2

/-- The node when the other block was proposed in round 4, as many rounds after the lock as there
are validators, and what it does when it gets the block. -/
def atExpiry : Node := (plainNode 4).run (plainEnv 4 1) (toLock ++ (toNext 3).take 4)

def expired : Node := atExpiry.deliver (plainEnv 4 1) plainAnswers (partOf 8)

def signs (n : Node) : List (VoteType × Nat × Int32 × Bytes) :=
  n.signed.map fun v => (v.type, v.height, v.round, v.blockID.hash)

/-- The node precommitted the block 7 in round 0 and prevotes the block 8 in round 4. There are no
prevotes with more than two thirds but those of round 0 for the block 7. -/
theorem expired_lock_left : startNode (plainEnv 4 1) (plainState 4)
    ⟨.zero, []⟩ = some (plainNode 4) ∧
    signs expired = [(.prevote, 1, 4, [8]), (.precommit, 1, 0, [7]), (.prevote, 1, 0, [7])] ∧
    (∀ r ∈ [1, 2, 3, 4], expired.votes.majority r .prevote = none) ∧
    ¬ DisciplinedRun (plainEnv 4 1) (plainNode 4) (toLock ++ toNext 3) := by
  have unreached : ([1, 2, 3, 4].all fun r => (expired.votes.majority r .prevote).isNone) = true :=
    by decide +kernel
  refine ⟨plainNode_started (by decide),
    by decide +kernel, fun r among => ?_, fun disciplined => ?_⟩
  · exact Option.isNone_iff_eq_none.mp (List.all_eq_true.mp unreached r among)
  have last : Disciplined _ atExpiry expired :=
    (DisciplinedRun.append (toLock ++ (toNext 3).take 4) ((toNext 3).drop 4) disciplined).1
  have hpe : Casts expired .precommit atExpiry.height 0 [7] := by
    unfold Casts
    decide +kernel
  have prevote : Casts expired .prevote atExpiry.height 4 [8] := by
    unfold Casts
    decide +kernel
  obtain ⟨r, _, haf, _, ⟨v, hm, type, _, rfl, _⟩, _⟩ :=
    last 0 [7] 4 [8] (by decide) hpe prevote (by decide) (by decide)
  have h1 : ∀ v ∈ expired.signed, v.type = .precommit → v.round = 0 := by decide +kernel
  rw [h1 v hm type] at haf
  exact absurd haf Int32.lt_irrefl

end HNBChain.Audit.Guarantees.LockLoyalty
