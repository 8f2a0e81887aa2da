import HNBChain.Audit.Guarantees.RoundMonotone

/-!
# Who a recorded vote is from

A message comes with the key its signature was verified with. Nothing compares this key with the
vote inside: `isPeerInbgGroup` does not look at it, and a vote set checks no signature. A vote is
recorded under the index it names, whoever sent it.

If every vote that arrives names the validator whose key the message came with, every recorded vote
is of the validator it stands under.
-/
namespace HNBChain.Audit.Guarantees.VoteAuthenticity

open Lib Source.Algorand RoundMonotone

/-- Of the votes recorded after a run, those that were not there at its start and are not the node's
own were carried by a message with the key of the validator they are recorded under. -/
def Authentic (env : Env) (n : Node) (events : List (Event × Answers)) : Prop :=
  ∀ i v, (n.run env events).Recorded i v → n.Recorded i v ∨ v ∈ (n.run env events).signed ∨
    ∃ val ans, n.validators.validators[i]? = some val ∧
    (.peer val.pubKeyStr (.vote v), ans) ∈ events

/-- A vote names the validator whose key its message came with. -/
def NamesSender (n : Node) : Event → Prop
  | .peer sender (.vote v) => ∀ val, n.validators.getByIndex v.validatorIndex = some val →
      val.pubKeyStr = sender
  | _ => True

/-- Every vote of the run does, in the state it arrives in. -/
def NamesSenders (env : Env) : Node → List (Event × Answers) → Prop
  | _, [] => True
  | n, event :: rest =>
    NamesSender n event.1 ∧ NamesSenders env (n.deliver env event.2 event.1) rest

section

variable {env : Env} {n : Node}

theorem recorded_lt_size {i : Nat} {v : Vote} (hc : n.Coherent) (kept : n.Kept)
    (held : n.Recorded i v) : i < n.validators.validators.length := by
  rcases held with ⟨r, t, vs, hf, hr⟩ | ⟨lc, hf, hr⟩
  · obtain ⟨slot, hs⟩ := HeightVoteSet.getVoteSet_sound hf
    have bound := (hs.recorded_casts hr).lt_size
    rw [slot, hc.votesValSet] at bound
    exact bound
  · obtain ⟨hs, hme⟩ := kept.lastCommit lc hf
    rw [← hme]
    exact (hs.recorded_casts hr).lt_size

/-- One event: a vote that is new is the node's own or came from the validator it names. -/
theorem deliver_recorded (hc : n.Coherent) (kept : n.Kept) {e : Event} {ans : Answers}
    (hn : NamesSender n e) {i : Nat} {v : Vote} (held : (n.deliver env ans e).Recorded i v) :
    n.Recorded i v ∨ v ∈ n.signed ∨
      ∃ val, n.validators.validators[i]? = some val ∧ e = .peer val.pubKeyStr (.vote v) := by
  have hg : Gathers (e.occasion env n).carries n (n.deliver env ans e) :=
    deliver_gathers hc e
  rcases hg.recorded kept i v held with old | ⟨carried, index⟩
  · exact .inl old
  · refine .inr ?_
    have hi := recorded_lt_size (hc.deliver e) (hg.kept kept) held
    rw [hg.members] at hi
    cases e with
    | peer sender msg =>
      cases msg with
      | vote w =>
        obtain rfl : v = w := carried
        have hf : n.validators.getByIndex v.validatorIndex =
            some n.validators.validators[i] := by
          rw [index, ValidatorSet.getByIndex, if_neg (by omega), Int.toNat_natCast]
          exact List.getElem?_eq_getElem hi
        exact .inr ⟨_, List.getElem?_eq_getElem hi, by rw [hn _ hf]⟩
      | _ => exact carried.elim
    | internal j => exact .inl (kept.queue v (List.mem_of_getElem? carried))
    | _ => exact carried.elim

theorem run_signed {v : Vote} (hc : n.Coherent) (events : List (Event × Answers))
    (hm : v ∈ n.signed) : v ∈ (n.run env events).signed := by
  induction events generalizing n with
  | nil => exact hm
  | cons event rest ih =>
    exact ih (hc.deliver event.1) ((deliver_gathers hc event.1).signed v hm)

theorem run_recorded (hc : n.Coherent) (kept : n.Kept) (events : List (Event × Answers))
    (hn : NamesSenders env n events) : Authentic env n events := by
  induction events generalizing n with
  | nil => exact fun i v held => .inl held
  | cons event rest ih =>
    intro i v held
    have hg : Gathers (event.1.occasion env n).carries n (n.deliver env event.2 event.1) :=
      deliver_gathers hc event.1
    have next : (n.deliver env event.2 event.1).Coherent := hc.deliver event.1
    rcases ih next (hg.kept kept) hn.2 i v held with h1 | own | ⟨val, ans, hf, sent⟩
    · rcases deliver_recorded hc kept hn.1 h1 with old | own | ⟨val, hf, sent⟩
      · exact .inl old
      · exact .inr (.inl (run_signed next rest (hg.signed v own)))
      · exact .inr (.inr ⟨val, event.2, hf, sent ▸ List.mem_cons_self⟩)
    · exact .inr (.inl own)
    · exact .inr (.inr ⟨val, ans, hg.members ▸ hf, List.mem_cons_of_mem _ sent⟩)

end

theorem run_authentic {env : Env} {s : State} {seenCommit : Commit} {n : Node}
    (params : s.consensusParams = .zero) (hst : startNode env s seenCommit = some n)
    (events : List (Event × Answers)) (hn : NamesSenders env n events) :
    Authentic env n events :=
  run_recorded (startNode_coherent params hst) (startNode_kept hst) events hn

theorem recorded_of_array {n : Node} {r : Int32} {t : VoteType} {i : Nat} {v : Vote}
    (held : (n.votes.getVoteSet r t).bind (fun vs => vs.votes i) = some v) : n.Recorded i v := by
  obtain ⟨vs, hf, held⟩ := Option.bind_eq_some_iff.mp held
  exact .inl ⟨r, t, vs, hf, .inl held⟩

/-- A precommit of the validator that sends it. -/
theorem own_vote_recorded :
    ((plainNode 4).run (plainEnv 4 3) [(voteFrom 1 0 .precommit .zero, plainAnswers)]).Recorded 1
        (voteOf 1 0 .precommit .zero) ∧
      Authentic (plainEnv 4 3) (plainNode 4) [(voteFrom 1 0 .precommit .zero, plainAnswers)] := by
  refine ⟨recorded_of_array (r := 0) (t := .precommit) (by decide +kernel),
    run_authentic rfl (plainNode_started (by decide)) _ ⟨fun val hf => ?_, trivial⟩⟩
  cases Option.some.inj (hf : some (member 1) = some val)
  rfl

/-- A precommit under the index of another validator than the sender. -/
def forged : Event := .peer [2] (.vote (voteOf 1 0 .precommit .zero))

theorem forged_vote_recorded : ∃ (env : Env) (s : State) (seenCommit : Commit) (n : Node)
    (events : List (Event × Answers)), s.consensusParams = .zero ∧
      startNode env s seenCommit = some n ∧ ¬ Authentic env n events := by
  refine ⟨plainEnv 4 3, plainState 4, _, plainNode 4, [(forged, plainAnswers)], rfl,
    plainNode_started (by decide), fun ha => ?_⟩
  have hr : ((plainNode 4).run (plainEnv 4 3) [(forged, plainAnswers)]).Recorded 1
      (voteOf 1 0 .precommit .zero) :=
    recorded_of_array (r := 0) (t := .precommit) (by decide +kernel)
  have hu : voteOf 1 0 .precommit .zero ∉
      ((plainNode 4).run (plainEnv 4 3) [(forged, plainAnswers)]).signed := by decide +kernel
  rcases ha 1 _ hr with old | own | ⟨val, ans, hf, sent⟩
  · rcases old with ⟨r, t, held⟩ | ⟨lc, held, _⟩
    · exact HeightVoteSet.not_recorded_new held
    · cases held
  · exact hu own
  · cases Option.some.inj (hf : some (member 1) = some val)
    have key := congrArg Prod.fst (List.mem_singleton.mp sent)
    exact absurd (Event.peer.inj key).1 (by decide)

end HNBChain.Audit.Guarantees.VoteAuthenticity
