import HNBChain.Audit.Source.Algorand.Provenance
import HNBChain.Audit.Source.Algorand.Locking
import HNBChain.Lib.LockedVoting

/-!
# The nodes of a network

The correct validators run the consensus handlers, and any event may come to any of them at any
time: messages are lost, repeated and reordered by not being among the events or by being there
again, and the faulty validators send what they like. Votes are authentic: what a node records as
the vote of a correct validator was cast by it.

Where no event undoes a lock, the votes of the correct validators follow the rules of voting with
locks.
-/
namespace HNBChain.Audit.Spec

open Lib Source.Algorand Function

/-- Validators with a vote each, less than a third of them faulty. -/
structure Network (k : Nat) where
  envs : Fin k → Env
  vals : List Validator
  faulty : Finset (Fin k)
  size : vals.length = k
  /-- No slice is longer; with more of them the quorum would overflow. -/
  small : k < 2 ^ 62
  power : ∀ v ∈ vals, v.votingPower = 1
  few : 3 * faulty.card < k

namespace Network

variable {k : Nat}

/-- Nodes that were started from states with the validators of the network. -/
def Started (net : Network k) (nodes : Fin k → Node) : Prop :=
  ∀ i ∉ net.faulty, ∃ s seenCommit, s.consensusParams = .zero ∧ s.validators.validators = net.vals ∧
    startNode (net.envs i) s seenCommit = some (nodes i)

/-- Votes under correct validators were cast by them. -/
def Hears (net : Network k) (nodes : Fin k → Node) (votes : HeightVoteSet) : Prop :=
  ∀ r t j v, j ∉ net.faulty → votes.Recorded r t j.val v → v ∈ (nodes j).signed

/-- The states of the nodes in runs without a reset whose events are all allowed. Votes must be
authentic in events that have an effect. -/
inductive Reachable (net : Network k) (allowed : Env → Node → Event → Prop) :
    (Fin k → Node) → Prop where
  | start {nodes : Fin k → Node} (started : net.Started nodes) : Reachable net allowed nodes
  | deliver {nodes : Fin k → Node} (i : Fin k) (ans : Answers) (e : Event)
      (reached : Reachable net allowed nodes) (correct : i ∉ net.faulty) (noReset : e ≠ .reset)
      (authentic : (nodes i).deliver (net.envs i) ans e ≠ nodes i →
        net.Hears nodes (e.recorded (nodes i)).votes)
      (meets : allowed (net.envs i) (nodes i) e) :
      Reachable net allowed (update nodes i ((nodes i).deliver (net.envs i) ans e))

/-- The votes for a block, by round and hash. -/
def Votes (nodes : Fin k → Node) (type : VoteType) (height : Nat) (i : Fin k) (round : Int32)
    (hash : Bytes) : Prop := hash ≠ [] ∧ Casts (nodes i) type height round hash

/-- The precommits for blocks that a node has signed follow certified prevotes. -/
def Justifies (net : Network k) (nodes : Fin k → Node) (n : Node) : Prop :=
  ∀ v ∈ n.signed, v.type = .precommit → v.blockID.hash ≠ [] →
    Certified net.faulty (Votes nodes .prevote v.height) v.round v.blockID.hash

/-- The blocks that a node has stored have certified precommits. -/
def Finalizes (net : Network k) (nodes : Fin k → Node) (env : Env) (n : Node) : Prop :=
  ∀ c ∈ n.saved, Certified net.faulty (Votes nodes .precommit c.block.header.blockNum) c.commitRound
    (c.block.hash env.digests)

/-- What the correct nodes hold comes from each other. -/
structure Sound (net : Network k) (nodes : Fin k → Node) : Prop where
  coherent : ∀ i ∉ net.faulty, (nodes i).Coherent
  members : ∀ i ∉ net.faulty, (nodes i).validators.validators = net.vals
  heard : ∀ i ∉ net.faulty, net.Hears nodes (nodes i).votes
  justified : ∀ i ∉ net.faulty, net.Justifies nodes (nodes i)
  final : ∀ i ∉ net.faulty, net.Finalizes nodes (net.envs i) (nodes i)

section

variable {net : Network k} {nodes nodes' : Fin k → Node} {allowed : Env → Node → Event → Prop}

theorem wholePower_eq (net : Network k) {vals : ValidatorSet}
    (hme : vals.validators = net.vals) : vals.wholePower = k := by
  rw [ValidatorSet.wholePower, hme, sum_powers_of_equal net.power, net.size, mul_one]

theorem bounded (net : Network k) {vals : ValidatorSet}
    (hme : vals.validators = net.vals) : vals.Bounded where
  nonneg v member := by
    rw [net.power v (hme ▸ member)]
    decide
  small := by
    rw [net.wholePower_eq hme]
    have := net.small
    omega

/-- A majority among authentic votes. -/
theorem certified_of_majority {votes : HeightVoteSet} {r : Int32} {t : VoteType} {id : BlockID}
    (hme : votes.valSet.validators = net.vals) (block : id.hash ≠ [])
    (heard : net.Hears nodes votes) (hr : votes.majority r t = some id) :
    Certified net.faulty (Votes nodes t votes.height) r id.hash := by
  obtain ⟨voters, hq, cast⟩ := HeightVoteSet.majority_voters hr
  have hi : ∀ i ∈ voters, i < k := by
    intro i hm
    obtain ⟨v, _, hca, _⟩ := cast i hm
    have lt : i < votes.valSet.validators.length := hca.lt_size
    rwa [hme, net.size] at lt
  have many := ((net.bounded hme).quorum_le_iff _).mp hq
  rw [net.wholePower_eq hme] at many
  refine ⟨voters.attachFin hi, ?_, fun j hm hc => ⟨block, ?_⟩⟩
  · rw [Finset.card_attachFin, Fintype.card_fin]
    omega
  · obtain ⟨v, held, hca, rfl⟩ := cast j.val (Finset.mem_attachFin hi |>.mp hm)
    exact ⟨v, heard r t j v hc held, hca.type, hca.height, hca.round, rfl⟩

theorem Votes.mono {type : VoteType} {height : Nat} (hsi : ∀ j, ∀ v ∈ (nodes j).signed,
    v ∈ (nodes' j).signed) (j : Fin k) (round : Int32) (hash : Bytes)
    (votes : Votes nodes type height j round hash) : Votes nodes' type height j round hash :=
  ⟨votes.1, votes.2.mono (hsi j)⟩

/-- What was certified stays certified. -/
theorem certified_mono {type : VoteType} {height : Nat} {round : Int32} {hash : Bytes}
    (hsi : ∀ j, ∀ v ∈ (nodes j).signed, v ∈ (nodes' j).signed)
    (hce : Certified net.faulty (Votes nodes type height) round hash) :
    Certified net.faulty (Votes nodes' type height) round hash := by
  obtain ⟨voters, many, cast⟩ := hce
  exact ⟨voters, many, fun j hm hc => (cast j hm hc).mono hsi⟩

theorem Started.sound (hst : net.Started nodes) : net.Sound nodes := by
  have hf : ∀ i ∉ net.faulty, (nodes i).Coherent ∧
      (nodes i).validators.validators = net.vals ∧ (nodes i).signed = [] ∧ (nodes i).saved = [] ∧
      ∀ r t j v, ¬ (nodes i).votes.Recorded r t j v := by
    intro i hc
    obtain ⟨s, seenCommit, params, vals, hst⟩ := hst i hc
    refine ⟨startNode_coherent params hst, ?_⟩
    obtain ⟨lastCommit, _, same⟩ := Option.map_eq_some_iff.mp hst
    rw [← same]
    dsimp only
    split <;> exact ⟨vals, rfl, rfl, fun _ _ _ _ => HeightVoteSet.not_recorded_new⟩
  refine ⟨fun i hc => (hf i hc).1, fun i hc => (hf i hc).2.1, ?_, ?_, ?_⟩
  · intro i hc r t j v _ held
    exact absurd held ((hf i hc).2.2.2.2 r t j v)
  · intro i hc v hm
    rw [(hf i hc).2.2.1] at hm
    cases hm
  · intro i hc c hm
    rw [(hf i hc).2.2.2.1] at hm
    cases hm

theorem Sound.deliver {i : Fin k} {ans : Answers} {e : Event} (hs : net.Sound nodes)
    (hc : i ∉ net.faulty) (hn : e ≠ .reset)
    (ha : net.Hears nodes (e.recorded (nodes i)).votes) :
    net.Sound (update nodes i ((nodes i).deliver (net.envs i) ans e)) := by
  generalize delivered : (nodes i).deliver (net.envs i) ans e = n'
  have hco := hs.coherent i hc
  have hg : Gathers _ (nodes i) n' := delivered ▸ deliver_gathers hco e
  have accounts : Accounts (net.envs i) (e.occasion (net.envs i) (nodes i)).leaves (nodes i) n' :=
    delivered ▸ (deliver_outcome hco.timed hn).accounts hco
  have hsi : ∀ j, ∀ v ∈ (nodes j).signed, v ∈ (update nodes i n' j).signed := by
    intro j v hm
    by_cases here : j = i
    · subst here
      rw [update_self]
      exact hg.signed v hm
    · rwa [update_of_ne here]
  -- votes from the node's own sets or from the event were cast by the validator
  have cast {r : Int32} {t : VoteType} {j : Fin k} {v : Vote} (other : j ∉ net.faulty)
      (held : (nodes i).votes.Recorded r t j.val v ∨ ∃ left,
        (e.occasion (net.envs i) (nodes i)).leaves left ∧ left.Recorded r t j.val v) :
      v ∈ (nodes j).signed := by
    rcases held with old | ⟨left, rfl, new⟩
    · exact hs.heard i hc r t j v other old
    · exact ha r t j v other new
  have traced {votes : HeightVoteSet} {r : Int32} {t : VoteType} {id : BlockID}
      (source : Source.Algorand.Traced (e.occasion (net.envs i) (nodes i)).leaves (nodes i) votes)
      (block : id.hash ≠ []) (hr : votes.majority r t = some id) :
      Certified net.faulty (Votes nodes t (nodes i).height) r id.hash := by
    rw [← source.height]
    refine certified_of_majority ?_ block (fun r t j v other held => ?_) hr
    · rw [source.valSet]
      exact hs.members i hc
    · exact cast other (source.recorded r t j.val v held)
  -- the other nodes are as before
  have all {P : Fin k → Node → Prop} (old : ∀ j ∉ net.faulty, P j (nodes j)) (new : P i n') :
      ∀ j ∉ net.faulty, P j (update nodes i n' j) :=
    (forall_update_iff nodes fun j n => j ∉ net.faulty → P j n).mpr ⟨fun _ => new, fun j _ => old j⟩
  refine ⟨all hs.coherent (delivered ▸ hco.deliver e),
    all (P := fun _ n => n.validators.validators = net.vals) hs.members
      (hg.members.trans (hs.members i hc)),
    all (P := fun _ n => net.Hears (update nodes i n') n.votes) ?_ ?_,
    all (P := fun _ => net.Justifies (update nodes i n')) ?_ ?_,
    all (P := fun j => net.Finalizes (update nodes i n') (net.envs j)) ?_ ?_⟩
  · exact fun j other r t l v other' held => hsi l v (hs.heard j other r t l v other' held)
  · exact fun r t l v other held => hsi l v (cast other (accounts.recorded r t l.val v held))
  · exact fun j other v hm type block =>
      certified_mono hsi (hs.justified j other v hm type block)
  · intro v hm type block
    rcases accounts.signed v hm with old | justified
    · exact certified_mono hsi (hs.justified i hc v old type block)
    · obtain ⟨height, votes, source, hr⟩ := justified type block
      rw [height]
      exact certified_mono hsi (traced source block hr)
  · exact fun j other c hm => certified_mono hsi (hs.final j other c hm)
  · intro c hm
    rcases accounts.stored with same | ⟨m, c', precommits, hw, hi, hso, grown, _, _⟩
    · exact certified_mono hsi (hs.final i hc c (same ▸ hm))
    · rcases List.mem_cons.mp (grown ▸ hm) with rfl | old
      · have hr : m.votes.majority c.commitRound .precommit =
            some ⟨c.block.hash (net.envs i).digests, c.partsHeader⟩ := by
          rw [HeightVoteSet.majority, show m.votes.getVoteSet c.commitRound .precommit =
            some precommits from hso.found]
          exact hso.maj23
        rw [hso.blockNum, hw.height]
        exact certified_mono hsi (traced hw.votes hso.hash hr)
      · exact certified_mono hsi (hs.final i hc c old)

theorem Reachable.sound (hr : net.Reachable allowed nodes) : net.Sound nodes := by
  induction hr with
  | start hst => exact hst.sound
  | @deliver nodes i ans e hb hc hn ha _ ih =>
    by_cases idle : (nodes i).deliver (net.envs i) ans e = nodes i
    · rw [idle, update_eq_self]
      exact ih
    · exact ih.deliver hc hn (ha idle)

/-- The votes of correct validators that keep their locks. -/
theorem Reachable.voter (hr : net.Reachable Prudent nodes) {i : Fin k}
    (hc : i ∉ net.faulty) : Voter (net.envs i) (nodes i) := by
  induction hr with
  | start hst =>
    obtain ⟨s, seenCommit, params, _, hst⟩ := hst i hc
    exact startNode_voter params hst
  | @deliver nodes j ans e _ _ hn _ prudent ih =>
    by_cases here : i = j
    · subst here
      rw [update_self]
      exact ih.deliver ans hn prudent
    · rw [update_of_ne here]
      exact ih

theorem lockedVoting (hr : net.Reachable Prudent nodes) (height : Nat) :
    LockedVoting net.faulty (Votes nodes .prevote height) (Votes nodes .precommit height) where
  few := by
    rw [Fintype.card_fin]
    exact net.few
  single i hc r hash hash' first second :=
    first.2.hash_eq (hr.voter hc).ordered second.2
  justified i hc r hash hp := by
    obtain ⟨block, v, hm, type, rfl, rfl, rfl⟩ := hp
    exact hr.sound.justified i hc v hm type block
  locked i hc r hash r' hash' hp later prevote := by
    rcases (hr.voter hc).locks.loyal height r hash r' hash' hp.1
      prevote.1 hp.2
      prevote.2 later with same | ⟨r'', after, before, again⟩
    · exact .inl same
    · exact .inr ⟨r'', after, before, prevote.1, again⟩

/-! ## Runs event by event -/

/-- Events at the nodes, one after the other. -/
def run (net : Network k) (nodes : Fin k → Node) (events : List (Fin k × Event × Answers)) :
    Fin k → Node :=
  events.foldl (fun nodes event => update nodes event.1
    ((nodes event.1).deliver (net.envs event.1) event.2.2 event.2.1)) nodes

/-- The vote of the event is of a faulty validator or was cast by the one it names. -/
def Attested (net : Network k) (nodes : Fin k → Node) (i : Fin k) (e : Event) : Prop :=
  ∀ v ∈ e.carried (nodes i), ∀ j ∉ net.faulty, v.validatorIndex = (j.val : Int) →
    v ∈ (nodes j).signed

instance (net : Network k) (nodes : Fin k → Node) (i : Fin k) (e : Event) :
    Decidable (net.Attested nodes i e) :=
  inferInstanceAs (Decidable (∀ v ∈ e.carried (nodes i), _))

/-- Every event is at a correct node, is allowed there and brings an authentic vote. -/
def Admissible (net : Network k) (allowed : Env → Node → Event → Prop) :
    (Fin k → Node) → List (Fin k × Event × Answers) → Prop
  | _, [] => True
  | nodes, (i, e, ans) :: rest =>
    i ∉ net.faulty ∧ e ≠ .reset ∧ net.Attested nodes i e ∧ allowed (net.envs i) (nodes i) e ∧
      net.Admissible allowed (update nodes i ((nodes i).deliver (net.envs i) ans e)) rest

instance decideAdmissible (net : Network k) (allowed : Env → Node → Event → Prop)
    [∀ env n e, Decidable (allowed env n e)] (nodes : Fin k → Node) :
    (events : List (Fin k × Event × Answers)) → Decidable (net.Admissible allowed nodes events)
  | [] => .isTrue trivial
  | (i, e, ans) :: rest =>
    have := decideAdmissible net allowed
      (update nodes i ((nodes i).deliver (net.envs i) ans e)) rest
    inferInstanceAs (Decidable (_ ∧ _ ∧ _ ∧ _ ∧ _))

/-- Attested votes keep the votes of the nodes authentic. -/
theorem Sound.hears_recorded (hs : net.Sound nodes) {i : Fin k} {e : Event}
    (hc : i ∉ net.faulty) (attested : net.Attested nodes i e) :
    net.Hears nodes (e.recorded (nodes i)).votes := by
  intro r t j v other held
  rcases Event.recorded_votes held with old | ⟨carried, index⟩
  · exact hs.heard i hc r t j v other old
  · exact attested v (Event.carries_iff.mp carried) j other index

theorem Reachable.run (hr : net.Reachable allowed nodes)
    {events : List (Fin k × Event × Answers)} (admissible : net.Admissible allowed nodes events) :
    net.Reachable allowed (net.run nodes events) := by
  induction events generalizing nodes with
  | nil => exact hr
  | cons event rest ih =>
    obtain ⟨i, e, ans⟩ := event
    obtain ⟨hc, hn, attested, meets, more⟩ := admissible
    exact ih (hr.deliver i ans e hc hn
      (fun _ => hr.sound.hears_recorded hc attested) meets) more

end

end Network

end HNBChain.Audit.Spec
