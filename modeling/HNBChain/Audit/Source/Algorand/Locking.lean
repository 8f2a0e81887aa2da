import HNBChain.Audit.Source.Algorand.Signing

/-!
# The lock of a node

A node locks the block it precommits, and prevotes the locked block while the lock holds. Two things
undo a lock besides a commit: it expires after as many rounds as there are validators, and
`enterPrecommit` drops it when more than two thirds prevoted a block that the node does not hold,
even the locked one.

`Prudent` says of a step that neither happens in it. Where all steps are prudent, a node that has
precommitted a block prevotes another one only after it has precommitted that one.
-/
namespace HNBChain.Audit.Source.Algorand

open Lib

/-- The node has signed such a vote. -/
def Casts (n : Node) (type : VoteType) (height : Nat) (round : Int32) (hash : Bytes) : Prop :=
  ∃ v ∈ n.signed, v.type = type ∧ v.height = height ∧ v.round = round ∧ v.blockID.hash = hash

/-- The lock is on the block of the node's last precommit for a block, and prevotes follow it. -/
structure Locks (env : Env) (n : Node) : Prop where
  started : ∀ v ∈ n.signed, 0 ≤ v.round
  lock : ∀ b, n.lockedBlock = some b →
    Casts n .precommit n.height n.lockedRound (b.hash env.digests)
  latest : ∀ r hash, hash ≠ [] → Casts n .precommit n.height r hash → n.lockedBlock.isSome ∧
    r ≤ n.lockedRound
  loyal : ∀ h r hash r' hash', hash ≠ [] → hash' ≠ [] → Casts n .precommit h r hash →
    Casts n .prevote h r' hash' → r < r' → hash' = hash ∨ ∃ r'', r < r'' ∧ r'' < r' ∧
    Casts n .precommit h r'' hash'

section

variable {env : Env} {ans : Answers} {occ : Occasion} {rounds : Int32 → Prop} {n n' : Node}

variable {hash : Bytes} {height : Nat} {round : Int32} {type : VoteType}

theorem Casts.mono (hs : ∀ v ∈ n.signed, v ∈ n'.signed)
    (hc : Casts n type height round hash) : Casts n' type height round hash := by
  obtain ⟨v, hm, matches_⟩ := hc
  exact ⟨v, hs v hm, matches_⟩

theorem Casts.of_cons {vote : Vote} (hs : n'.signed = vote :: n.signed)
    (hc : Casts n' type height round hash) : Casts n type height round hash ∨
      vote.type = type ∧ vote.height = height ∧ vote.round = round ∧ vote.blockID.hash = hash := by
  obtain ⟨v, hm, matches_⟩ := hc
  rcases List.mem_cons.mp (hs ▸ hm) with rfl | old
  · exact .inr matches_
  · exact .inl ⟨v, old, matches_⟩

/-- A vote that was signed is not ahead of the node. -/
theorem Casts.pos_le (ho : Ordered n) (hc : Casts n type height round hash) :
    position height round type.step.num ≤ n.pos := by
  obtain ⟨v, hm, rfl, rfl, rfl, _⟩ := hc
  exact ho.reached v hm

theorem Casts.round_le (ho : Ordered n) (hc : Casts n type n.height round hash) :
    round ≤ n.round := by
  rcases position_le.mp (hc.pos_le ho) with lower | ⟨_, lt | ⟨eq, _⟩⟩
  · exact absurd lower (Nat.lt_irrefl _)
  · exact Int32.le_of_lt lt
  · exact eq ▸ Int32.le_refl _

/-- The precommits of a node are of earlier rounds until it precommits in its own. -/
theorem Casts.round_lt (ho : Ordered n) (he : n.step < .precommit)
    (hc : Casts n .precommit n.height round hash) : round < n.round := by
  rcases position_le.mp (hc.pos_le ho) with lower | ⟨_, hea | ⟨_, step⟩⟩
  · exact absurd lower (Nat.lt_irrefl _)
  · exact hea
  · exact absurd he (Nat.not_lt.mpr step)

/-- A node that has precommitted and is to precommit again has left round 0. -/
theorem Casts.round_ne_zero (ho : Ordered n) (hsa : ∀ v ∈ n.signed, 0 ≤ v.round)
    (he : n.step < .precommit) (hc : Casts n .precommit n.height round hash) :
    n.round ≠ 0 := by
  intro zero
  have lt := hc.round_lt ho he
  obtain ⟨v, hm, _, _, rfl, _⟩ := hc
  rw [zero] at lt
  exact Int32.not_lt.mpr (hsa v hm) lt

theorem before_precommit (he : n.step < .prevote) : n.step < .precommit :=
  Nat.lt_trans he (by decide : RoundStep.prevote.num < _)

/-- The node has signed one more vote, of its round. -/
structure Adds (env : Env) (t : VoteType) (id : BlockID) (n m : Node) : Prop where
  height : m.height = n.height
  votes : m.votes = n.votes
  signed : ∃ ans, m.signed = n.makeVote env ans t id :: n.signed

namespace Adds

variable {t : VoteType} {id : BlockID} {m : Node} (adds : Adds env t id n m)

include adds

theorem kept : ∀ v ∈ n.signed, v ∈ m.signed := by
  obtain ⟨_, hs⟩ := adds.signed
  exact fun v hm => hs ▸ List.mem_cons_of_mem _ hm

theorem started (hco : n.Coherent) (hsa : ∀ v ∈ n.signed, 0 ≤ v.round) :
    ∀ v ∈ m.signed, 0 ≤ v.round := by
  obtain ⟨_, hs⟩ := adds.signed
  rw [hs]
  exact List.forall_mem_cons.mpr ⟨hco.round, hsa⟩

theorem cast (new : Casts m type height round hash) :
    Casts n type height round hash ∨ t = type ∧ n.height = height ∧ n.round = round ∧
    id.hash = hash := by
  obtain ⟨_, hs⟩ := adds.signed
  exact new.of_cons hs

theorem here : Casts m t n.height n.round id.hash := by
  obtain ⟨_, hs⟩ := adds.signed
  exact ⟨_, hs ▸ List.mem_cons_self, rfl, rfl, rfl, rfl⟩

end Adds

theorem Locks.of_same (locks : Locks env n) (height : n'.height = n.height)
    (lockedRound : n'.lockedRound = n.lockedRound) (lockedBlock : n'.lockedBlock = n.lockedBlock)
    (hs : n'.signed = n.signed) : Locks env n' := by
  have casts (t : VoteType) (h : Nat) (r : Int32) (hash : Bytes) :
      Casts n' t h r hash ↔ Casts n t h r hash := by
    unfold Casts
    rw [hs]
  refine ⟨?_, ?_, ?_, ?_⟩
  · rw [hs]
    exact locks.started
  · intro b hl
    rw [casts, height, lockedRound]
    exact locks.lock b (lockedBlock ▸ hl)
  · intro r hash some_block cast
    rw [lockedBlock, lockedRound]
    exact locks.latest r hash some_block (height ▸ (casts ..).mp cast)
  · intro h r hash r' hash' some_block some_block' cast cast' hla
    simp only [casts] at cast cast' ⊢
    exact locks.loyal h r hash r' hash' some_block some_block' cast cast' hla

theorem hashesTo_some {d : Digests} {b : Option Block} (matches_ : Block.hashesTo d b hash) :
    ∃ block, b = some block ∧ hash ≠ [] ∧ block.hash d = hash := by
  cases b with
  | none => cases matches_
  | some block =>
    simp only [Block.hashesTo, Bool.and_eq_true, decide_eq_true_eq] at matches_
    exact ⟨block, rfl, matches_⟩

/-- While the lock is young, a prevote is for the locked block or for none. -/
theorem prevoteID_locked {b : Block} {id : BlockID} (hl : n.lockedBlock = some b)
    (young : n.round - n.lockedRound < Int32.ofNat n.validators.size)
    (hch : n.prevoteID env = some id) : id.hash = b.hash env.digests ∨ id.hash = [] := by
  unfold Node.prevoteID at hch
  split at hch
  · cases hch
    left
    rw [Node.lockedID, hl]
    rfl
  · rename_i open_
    have same : Block.hashesTo env.digests n.lockedBlock (n.proposalHash env) := by
      by_contra other
      exact open_ ⟨hl ▸ rfl, other, young⟩
    obtain ⟨_, held, _, same⟩ := hashesTo_some same
    obtain rfl : _ = b := Option.some.inj (held.symm.trans hl)
    rw [Node.proposalHash] at same
    split at hch
    · cases hch
      exact .inr rfl
    · rename_i pb proposed
      rw [proposed] at same
      split at hch
      · cases hch
      · cases hch
        exact .inr rfl
      · cases hch
        exact .inl same.symm

/-- The three invariants that the votes of a node need together. -/
structure Voter (env : Env) (n : Node) : Prop where
  coherent : n.Coherent
  ordered : Ordered n
  locks : Locks env n

/-- In none of these rounds has a lock expired. In round 0 there is no earlier one to look back
at. -/
def Unexpired (rounds : Int32 → Prop) (n : Node) : Prop :=
  n.lockedBlock.isSome → ∀ r, rounds r → n.round ≤ r → r ≠ 0 →
    r - n.lockedRound < Int32.ofNat n.validators.size

/-- A node with a lock has the block that more than two thirds prevoted in its round. -/
def Informed (env : Env) (n : Node) : Prop :=
  n.lockedBlock.isSome → ∀ id, n.votes.majority n.round .prevote = some id → id.hash ≠ [] →
    Block.hashesTo env.digests n.proposalBlock id.hash

structure Occasion.Safe (env : Env) (occ : Occasion) (n : Node) : Prop where
  unexpired : Unexpired occ.rounds n
  informed : ∀ a, Moves env occ n a → a.step < .precommit → occ.precommits a → Informed env a

/-! ### A prevote -/

/-- Precommits of one height and round are for one block. -/
theorem Casts.hash_eq {hash' : Bytes} (ho : Ordered n) (h1 : Casts n type height round hash)
    (h2 : Casts n type height round hash') : hash = hash' := by
  obtain ⟨v, hm, rfl, rfl, rfl, rfl⟩ := h1
  obtain ⟨w, member', type, height, round, rfl⟩ := h2
  have same : v = w := ho.eq_of_pos hm member'
    (by rw [Vote.pos, Vote.pos, type, height, round])
  rw [same]

theorem Locks.prevoted {m : Node} {id : BlockID} (hv : Voter env n)
    (adds : Adds env .prevote id n m) (he : n.step < .prevote) (hch : n.prevoteID env = some id)
    (young : n.lockedBlock.isSome → n.round ≠ 0 →
      n.round - n.lockedRound < Int32.ofNat n.validators.size)
    (lockedRound : m.lockedRound = n.lockedRound) (lockedBlock : m.lockedBlock = n.lockedBlock) :
    Locks env m := by
  obtain ⟨hco, ho, locks⟩ := hv
  have he := before_precommit he
  have precommit {h : Nat} {r : Int32} {hash : Bytes} (cast : Casts m .precommit h r hash) :
      Casts n .precommit h r hash := (adds.cast cast).resolve_right fun ⟨type, _⟩ => nomatch type
  refine ⟨adds.started hco locks.started, fun b hl => ?_, fun r hash block cast => ?_, ?_⟩
  · rw [adds.height, lockedRound]
    exact (locks.lock b (lockedBlock ▸ hl)).mono adds.kept
  · rw [lockedBlock, lockedRound]
    exact locks.latest r hash block (adds.height ▸ precommit cast)
  · intro h r hash r' hash' block block' cast cast' hla
    have cast := precommit cast
    rcases adds.cast cast' with old | ⟨_, rfl, rfl, rfl⟩
    · -- both votes are old
      exact (locks.loyal h r hash r' hash' block block' cast old hla).imp_right
        fun ⟨r'', after, before, again⟩ => ⟨r'', after, before, again.mono adds.kept⟩
    · -- the new prevote is for the lock, which is on `hash` or was set since
      obtain ⟨held, hr⟩ := locks.latest r hash block cast
      obtain ⟨b, hl⟩ := Option.isSome_iff_exists.mp held
      have lock := locks.lock b hl
      have young := young held (lock.round_ne_zero ho locks.started he)
      have same : id.hash = b.hash env.digests :=
        (prevoteID_locked hl young hch).resolve_right block'
      rw [← same] at lock
      rcases Int32.lt_or_eq_of_le hr with lt | rfl
      · exact .inr ⟨n.lockedRound, lt, lock.round_lt ho he, lock.mono adds.kept⟩
      · exact .inl (lock.hash_eq ho cast)

theorem Calm.voter (calm : Calm env rounds n n') (hv : Voter env n)
    (hu : Unexpired rounds n) : Voter env n' := by
  refine ⟨calm.coherent hv.coherent, calm.ordered hv.ordered, ?_⟩
  cases calm with
  | quiet quiet =>
    exact hv.locks.of_same quiet.height quiet.lockedRound quiet.lockedBlock quiet.signed
  | prevote ans id he hch ha =>
    exact .prevoted hv ⟨rfl, rfl, ans, rfl⟩ he hch
      (fun hl => hu hl n.round ha (Int32.le_refl _)) rfl rfl

theorem Unexpired.still (hu : Unexpired rounds n) (hst : Still n n') :
    Unexpired rounds n' := by
  unfold Unexpired
  rw [hst.lockedBlock, hst.lockedRound, hst.validators]
  exact fun hl r ha hah =>
    hu hl r ha (Int32.le_trans hst.round_le hah)

theorem unexpired_zero (n : Node) : Unexpired (· = 0) n :=
  fun _ _ zero _ hla => absurd zero hla

theorem Move.voter (move : Move env occ n n') (hv : Voter env n)
    (hu : Unexpired occ.rounds n) : Voter env n' ∧ Unexpired occ.rounds n' := by
  have hco := move.coherent hv.coherent
  have ho := move.ordered hv.ordered
  cases move with
  | calm calm => exact ⟨calm.voter hv hu, hu.still calm.still⟩
  | record => exact ⟨⟨hco, ho, hv.locks.of_same rfl rfl rfl rfl⟩, hu⟩
  | recordLast => exact ⟨⟨hco, ho, hv.locks.of_same rfl rfl rfl rfl⟩, hu⟩
  | propose => exact ⟨⟨hco, ho, hv.locks.of_same rfl rfl rfl rfl⟩, hu⟩

theorem Moves.voter (hmo : Moves env occ n n') (hv : Voter env n)
    (hu : Unexpired occ.rounds n) : Voter env n' ∧ Unexpired occ.rounds n' := by
  induction hmo with
  | refl => exact ⟨hv, hu⟩
  | tail _ last ih => exact last.voter ih.1 ih.2

/-! ### A precommit -/

/-- A precommit for no block, with the lock as it was or with none. -/
theorem Locks.precommitted_nil {m : Node} (locks : Locks env n) (hco : n.Coherent)
    (adds : Adds env .precommit .zero n m)
    (lock : m.lockedRound = n.lockedRound ∧ m.lockedBlock = n.lockedBlock ∨
      m.lockedBlock = none ∧ n.lockedBlock = none) : Locks env m := by
  have old {t : VoteType} {h : Nat} {r : Int32} {hash : Bytes} (block : hash ≠ [])
      (cast : Casts m t h r hash) : Casts n t h r hash :=
    (adds.cast cast).resolve_right fun ⟨_, _, _, empty⟩ => block empty.symm
  refine ⟨adds.started hco locks.started, fun b hl => ?_, fun r hash block cast => ?_, ?_⟩
  · rcases lock with ⟨round, held⟩ | ⟨none, _⟩
    · rw [adds.height, round]
      exact (locks.lock b (held ▸ hl)).mono adds.kept
    · cases none.symm.trans hl
  · have hlt := locks.latest r hash block (adds.height ▸ old block cast)
    rcases lock with ⟨round, held⟩ | ⟨_, none⟩
    · rw [round, held]
      exact hlt
    · rw [none] at hlt
      cases hlt.1
  · intro h r hash r' hash' block block' cast cast' hla
    exact (locks.loyal h r hash r' hash' block block' (old block cast)
      (old block' cast') hla).imp_right
      fun ⟨r'', after, before, again⟩ => ⟨r'', after, before, again.mono adds.kept⟩

/-- A precommit for a block, which is locked. -/
theorem Locks.precommitted_block {id : BlockID} {b : Block} {m : Node} (hv : Voter env n)
    (adds : Adds env .precommit id n m) (hash : b.hash env.digests = id.hash)
    (round : m.lockedRound = n.round) (block : m.lockedBlock = some b) : Locks env m := by
  obtain ⟨hco, ho, locks⟩ := hv
  refine ⟨adds.started hco locks.started, fun b' hl => ?_, fun r hash' _ cast => ?_, ?_⟩
  · cases block.symm.trans hl
    rw [adds.height, round, hash]
    exact adds.here
  · refine ⟨block ▸ rfl, ?_⟩
    rw [round]
    rw [adds.height] at cast
    rcases adds.cast cast with old | ⟨_, _, rfl, _⟩
    · exact old.round_le ho
    · exact Int32.le_refl _
  · intro h r hash₁ r' hash₂ block₁ block₂ cast cast' hla
    have cast' : Casts n .prevote h r' hash₂ :=
      (adds.cast cast').resolve_right fun ⟨type, _⟩ => nomatch type
    rcases adds.cast cast with old | ⟨_, rfl, rfl, _⟩
    · exact (locks.loyal h r hash₁ r' hash₂ block₁ block₂ old cast' hla).imp_right
        fun ⟨r'', after, before, again⟩ => ⟨r'', after, before, again.mono adds.kept⟩
    · -- no prevote of a later round is signed yet
      exact absurd hla (Int32.not_lt.mpr (cast'.round_le ho))

theorem Voter.precommitted (hv : Voter env n) (ans : Answers) (he : n.step < .precommit)
    (informed : Informed env n) : Voter env (n.precommitted env ans) := by
  refine ⟨hv.coherent.precommitted ans, hv.ordered.precommitted ans he, ?_⟩
  unfold Node.precommitted Node.doPrecommit
  cases reached : n.votes.majority n.round .prevote with
  | none => exact hv.locks.precommitted_nil hv.coherent ⟨rfl, rfl, ans, rfl⟩ (.inl ⟨rfl, rfl⟩)
  | some id =>
    dsimp only
    split_ifs with empty proposed
    · exact hv.locks.precommitted_nil hv.coherent ⟨rfl, rfl, ans, rfl⟩ (.inl ⟨rfl, rfl⟩)
    · obtain ⟨b, held, _, hash⟩ := hashesTo_some proposed
      exact .precommitted_block hv ⟨rfl, rfl, ans, rfl⟩ hash rfl held
    · refine hv.locks.precommitted_nil hv.coherent ⟨rfl, rfl, ans, rfl⟩ (.inr ⟨rfl, ?_⟩)
      by_contra locked
      exact proposed (informed (Option.isSome_iff_ne_none.mpr locked) id reached empty)

/-! ### A commit -/

theorem committed_unlocked (n : Node) (c : Saved) (s : State) (precommits : VoteSet) :
    (n.committed c s precommits).lockedBlock = none := by
  unfold Node.committed Node.unlockAny
  split
  · rfl
  · rename_i free
    exact Option.not_isSome_iff_eq_none.mp free

/-- The lock is gone with the height, and nothing is precommitted in the next one. -/
theorem Locks.committed (hv : Voter env n) (c : Saved) (s : State) (precommits : VoteSet) :
    Locks env (n.committed c s precommits) := by
  obtain ⟨hs, _, _⟩ := committed_logs n c s precommits
  have hc (t : VoteType) (h : Nat) (r : Int32) (hash : Bytes) :
      Casts (n.committed c s precommits) t h r hash ↔ Casts n t h r hash := by
    unfold Casts
    rw [hs]
  refine ⟨?_, fun b hl => ?_, fun r hash _ cast => ?_, ?_⟩
  · rw [hs]
    exact hv.locks.started
  · cases (committed_unlocked ..).symm.trans hl
  · rcases position_le.mp (((hc ..).mp cast).pos_le hv.ordered) with lower | ⟨same, _⟩
    · exact absurd lower (Nat.not_lt.mpr (Nat.le_succ _))
    · exact absurd same (Nat.succ_ne_self _)
  · simp only [hc]
    exact hv.locks.loyal

theorem Outcome.voter (hou : Outcome env occ n n') (hv : Voter env n)
    (safe : occ.Safe env n) : Voter env n' := by
  refine hou.induction hv.coherent (fun _ hmo => (hmo.voter hv safe.unexpired).1)
    (fun ans a hb he ha hv => hv.precommitted ans he
      (safe.informed a hb he ha))
    ?_ (fun a _ move hv => (move.voter hv (unexpired_zero a)).1) ?_ ?_
  · intro a b entry hv
    refine ⟨entry.coherent hv.coherent, entry.ordered hv.ordered, ?_⟩
    cases entry with
    | inside => exact hv.locks
    | enter => exact hv.locks.of_same rfl rfl rfl rfl
  · exact fun a c s precommits _ _ hsu hv => ⟨hv.coherent.committed hsu,
      hv.ordered.committed c s precommits, .committed hv c s precommits⟩
  · exact fun a hv =>
      ⟨hv.coherent.waited, hv.ordered.waited, hv.locks.of_same rfl rfl rfl rfl⟩

/-! ### Events -/

/-- The event does not undo a lock. In the round the node is in and in the one it may be led to, the
lock has not expired, and if more than two thirds have prevoted a block there, then the node is in
that round already and has the block. -/
def Prudent (env : Env) (n : Node) (e : Event) : Prop :=
  n.lockedBlock.isSome → ∀ r, e.turns n r → n.round ≤ r →
    r - n.lockedRound < Int32.ofNat n.validators.size ∧
      ((r = n.round → n.step < .precommit) → ∀ id,
        (e.recorded n).votes.majority r .prevote = some id → id.hash ≠ [] →
            r = n.round ∧ Block.hashesTo env.digests n.proposalBlock id.hash)

theorem Event.recorded_fields (n : Node) (e : Event) : (e.recorded n).round = n.round ∧
    (e.recorded n).step = n.step ∧
      (e.recorded n).height = n.height ∧ (e.recorded n).lockedBlock = n.lockedBlock ∧
      (e.recorded n).proposalBlock = n.proposalBlock := by
  have recorded (v : Vote) (n : Node) : (n.recorded v).round = n.round ∧
      (n.recorded v).step = n.step ∧ (n.recorded v).height = n.height ∧
      (n.recorded v).lockedBlock = n.lockedBlock ∧
      (n.recorded v).proposalBlock = n.proposalBlock := by
    unfold Node.recorded Node.next Node.tracked Node.setRound
    split_ifs <;> exact ⟨rfl, rfl, rfl, rfl, rfl⟩
  unfold Event.recorded
  split
  · exact recorded _ n
  · split
    · exact recorded _ _
    · exact ⟨rfl, rfl, rfl, rfl, rfl⟩
  · exact ⟨rfl, rfl, rfl, rfl, rfl⟩

theorem Event.forall_turns {e : Event} {P : Int32 → Prop} :
    (∀ r, e.turns n r → P r) ↔ P n.round ∧ ∀ v ∈ e.carried n, P v.round := by
  constructor
  · intro all
    exact ⟨all _ (.inl rfl), fun v carried => all _ (.inr ⟨v, Event.carries_iff.mpr carried, rfl⟩)⟩
  · rintro ⟨here, ht⟩ r (rfl | ⟨v, carries, rfl⟩)
    · exact here
    · exact ht v (Event.carries_iff.mp carries)

/-- The condition of `Prudent` in one round. -/
def Node.Keeps (env : Env) (n : Node) (votes : HeightVoteSet) (r : Int32) : Prop :=
  n.round ≤ r → r - n.lockedRound < Int32.ofNat n.validators.size ∧
    ((r = n.round → n.step < .precommit) → ∀ id ∈ votes.majority r .prevote, id.hash ≠ [] →
      r = n.round ∧ Block.hashesTo env.digests n.proposalBlock id.hash)

instance (env : Env) (n : Node) (votes : HeightVoteSet) (r : Int32) :
    Decidable (n.Keeps env votes r) := inferInstanceAs (Decidable (_ → _))

instance (env : Env) (n : Node) (e : Event) : Decidable (Prudent env n e) :=
  decidable_of_iff (n.lockedBlock.isSome → n.Keeps env (e.recorded n).votes n.round ∧
    ∀ v ∈ e.carried n, n.Keeps env (e.recorded n).votes v.round)
    (imp_congr_right fun _ => Event.forall_turns.symm)

/-- A node that precommits in the course of an event, with what it then has from before it. -/
structure Precommitting (n : Node) (e : Event) (a : Node) : Prop where
  turns : e.turns n a.round
  ahead : n.round ≤ a.round
  early : a.round = n.round → n.step < .precommit
  lockedBlock : a.lockedBlock = n.lockedBlock
  votes : ∀ r t, a.votes.majority r t = (e.recorded n).votes.majority r t
  proposalBlock : a.round = n.round → a.proposalBlock = n.proposalBlock

theorem precommitting {e : Event} {a : Node} (hco : n.Coherent)
    (hmo : Moves env (e.occasion env n) n a) (he : a.step < .precommit)
    (ha : (e.occasion env n).precommits a) : Precommitting n e a := by
  obtain ⟨hca, turn⟩ := ha
  have hst := hca.still
  obtain ⟨round, step, height, lock, proposal⟩ := e.recorded_fields n
  refine ⟨turn, round ▸ hst.round_le, fun same => ?_, hst.lockedBlock.trans lock,
    hst.votes.majority, fun same => ?_⟩
  · rcases position_le.mp hmo.forward.pos with lower | ⟨_, lt | ⟨_, le⟩⟩
    · exact absurd hmo.forward.height (Nat.ne_of_gt lower)
    · exact absurd lt (same ▸ Int32.lt_irrefl)
    · exact Nat.lt_of_le_of_lt le he
  · have hf : (e.recorded n).Fresh := by
      unfold Node.Fresh
      rw [step, round]
      exact hco.fresh
    exact (hst.proposalBlock (same.trans round.symm) hf).trans proposal

theorem Prudent.safe {e : Event} (prudent : Prudent env n e) (hco : n.Coherent) :
    (e.occasion env n).Safe env n := by
  refine ⟨fun hl r ha hah hla => ?_,
    fun a hmo he ha hl id hr block => ?_⟩
  · exact (prudent hl r (ha.resolve_left hla) hah).1
  · have hp := precommitting hco hmo he ha
    rw [hp.lockedBlock] at hl
    rw [hp.votes] at hr
    obtain ⟨same, held⟩ := (prudent hl a.round hp.turns hp.ahead).2
      hp.early id hr block
    rw [hp.proposalBlock same]
    exact held

theorem Voter.deliver {e : Event} (hv : Voter env n) (ans : Answers) (hn : e ≠ .reset)
    (prudent : Prudent env n e) : Voter env (n.deliver env ans e) :=
  (deliver_outcome hv.coherent.timed hn).voter hv (prudent.safe hv.coherent)

theorem startNode_voter {s : State} {seenCommit : Commit} (params : s.consensusParams = .zero)
    (hsa : startNode env s seenCommit = some n) : Voter env n := by
  refine ⟨startNode_coherent params hsa, startNode_ordered hsa, ?_⟩
  obtain ⟨lastCommit, _, rfl⟩ := Option.map_eq_some_iff.mp hsa
  dsimp only
  split <;>
    exact ⟨nofun, nofun, fun _ _ _ ⟨_, member, _⟩ => absurd member nofun,
      fun _ _ _ _ _ _ _ ⟨_, member, _⟩ => absurd member nofun⟩

end

end HNBChain.Audit.Source.Algorand
