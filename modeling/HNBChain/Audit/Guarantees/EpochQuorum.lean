import HNBChain.Lib.VouchedBook
import HNBChain.Audit.Source.Dbft.Manager

/-!
# The epoch changes behind a new epoch

A node takes a new epoch when more than a third of the validators have asked for it, and announces
it when more than two thirds have. What it counts is the length of a list to which every epoch
change that passes the checks is appended, whoever has signed it and however often. If each one that
is recorded carries the address of the validator that signed it, which is not in the list yet, then
the count is one of validators.
-/
namespace HNBChain.Audit.Guarantees.EpochQuorum

open Lib Source Source.Dbft
open Source.Algorand (Validator)

/-- The member with this address has signed an epoch change for the epoch. -/
def Sent (members : List Validator) (heard : List (Bytes × EpochChange)) (epochNo : UInt64)
    (addr : Bytes) : Prop :=
  ∃ v ∈ members, v.address = addr ∧ ∃ change, (v.pubKeyStr, change) ∈ heard ∧
    change.epochNo = epochNo

/-- More than `bound` different members have. -/
def Behind (members : List Validator) (heard : List (Bytes × EpochChange)) (epochNo : UInt64)
    (bound : Nat) : Prop :=
  ∃ senders : Finset Bytes, bound < senders.card ∧ ∀ addr ∈ senders, Sent members heard epochNo addr

/-- An announced epoch that is put in place has more than a third behind it, an announcement more
than two thirds. Epochs that end with their last block or come with a block ask for nothing. -/
def Warranted (heard : List (Bytes × EpochChange)) : Act → Prop
  | .installed .message epochNo members => Behind members heard epochNo (members.length / 3)
  | .installed _ _ _ => True
  | .built epochNo members => Behind members heard epochNo (members.length * 2 / 3)

/-- Everything the node has done so far was warranted. -/
def Quorate (m : DbftManager) : Prop := ∀ act ∈ m.acts, Warranted m.heard act

/-- Every record is of another validator, which has signed an epoch change for the epoch. -/
structure Backed (m : DbftManager) : Prop where
  book : Vouched m.epochChange EpochChange.digestAddr (Sent m.totalValidators.validators m.heard)
  quorate : Quorate m

section

variable {env : Env} {ans : Answers} {m m' : DbftManager}

theorem Sent.mono {members members' : List Validator} {heard heard' : List (Bytes × EpochChange)}
    {epochNo : UInt64} {addr : Bytes} (sent : Sent members heard epochNo addr)
    (kept : ∀ v ∈ members, v ∈ members') (grown : ∀ entry ∈ heard, entry ∈ heard') :
    Sent members' heard' epochNo addr := by
  obtain ⟨v, hm, address, change, hs, epoch⟩ := sent
  exact ⟨v, kept v hm, address, change, grown _ hs, epoch⟩

theorem Warranted.mono {heard heard' : List (Bytes × EpochChange)} {act : Act}
    (hw : Warranted heard act)
    (grown : ∀ entry ∈ heard, entry ∈ heard') : Warranted heard' act := by
  have hbe {members : List Validator} {epochNo : UInt64} {bound : Nat}
      (hbe : Behind members heard epochNo bound) : Behind members heard' epochNo bound := by
    obtain ⟨senders, he, sent⟩ := hbe
    exact ⟨senders, he, fun addr hm => (sent addr hm).mono (fun _ same => same) grown⟩
  cases act with
  | built => exact hbe hw
  | installed cause =>
    cases cause with
    | message => exact hbe hw
    | full => trivial
    | found => trivial

/-- Lists may be dropped, members and entries of the log may be added, and what is done must be
warranted. -/
theorem Backed.step (hb : Backed m)
    (records : ∀ epochNo, m'.epochChange epochNo = m.epochChange epochNo ∨
      m'.epochChange epochNo = [])
    (hme : ∀ v ∈ m.totalValidators.validators, v ∈ m'.totalValidators.validators)
    (heard : ∀ entry ∈ m.heard, entry ∈ m'.heard)
    (acts : ∀ act ∈ m'.acts, act ∈ m.acts ∨ Warranted m.heard act) : Backed m' := by
  refine ⟨hb.book.mono records fun _ _ sent => sent.mono hme heard, fun act done => ?_⟩
  rcases acts act done with old | new
  · exact (hb.quorate act old).mono heard
  · exact new.mono heard

theorem Backed.behind (hb : Backed m) {epochNo : UInt64} {bound : Nat}
    (hlo : bound < (m.epochChange epochNo).length) :
    Behind m.totalValidators.validators m.heard epochNo bound :=
  hb.book.exceeds hlo

/-! ## What the handlers write -/

/-- What is counted, the members, and the logs of it are let alone. -/
structure Uncounted (m m' : DbftManager) : Prop where
  epochChange : m'.epochChange = m.epochChange
  totalValidators : m'.totalValidators = m.totalValidators
  heard : m'.heard = m.heard
  acts : m'.acts = m.acts

theorem Uncounted.refl (m : DbftManager) : Uncounted m m := ⟨rfl, rfl, rfl, rfl⟩

theorem Uncounted.trans {a b c : DbftManager} (h1 : Uncounted a b) (h2 : Uncounted b c) :
    Uncounted a c :=
  ⟨h2.epochChange.trans h1.epochChange, h2.totalValidators.trans h1.totalValidators,
    h2.heard.trans h1.heard, h2.acts.trans h1.acts⟩

theorem uncounted_of_calm (calm : Calm m m') : Uncounted m m' :=
  ⟨calm.epochChange, calm.totalValidators, calm.heard, calm.acts⟩

theorem Backed.uncounted (hb : Backed m) (same : Uncounted m m') : Backed m' :=
  hb.step (fun _ => .inl (by rw [same.epochChange]))
    (fun _ hm => same.totalValidators ▸ hm)
    (fun _ hm => same.heard ▸ hm) fun _ done => .inl (same.acts ▸ done)

theorem Backed.calm (hb : Backed m) (calm : Calm m m') : Backed m' :=
  hb.uncounted (uncounted_of_calm calm)

variable (env ans)

/-- A message is built only if the list is long enough. -/
theorem Backed.checkEnterNewEpoch (hb : Backed m) (epochNo : UInt64) :
    Backed (m.checkEnterNewEpoch env ans epochNo).2 := by
  unfold DbftManager.checkEnterNewEpoch DbftManager.buildNewEpochMsg
  split
  next enough =>
    have hmj := hb.behind (of_decide_eq_true enough.1)
    have hbu := buildNewEpoch_calm env ans m
    rcases ran : m.buildNewEpoch env ans with ⟨e | epoch, next⟩
    · rw [ran] at hbu
      exact hb.calm hbu
    · rw [ran] at hbu
      dsimp only
      by_cases signs : ans.signs = true
      · rw [if_pos signs]
        refine (hb.calm hbu).step (fun _ => .inl rfl) (fun _ hm => hm)
          (fun _ hm => hm) fun act done => ?_
        rcases List.mem_cons.mp done with rfl | old
        · refine .inr ?_
          rw [hbu.totalValidators, hbu.heard]
          exact hmj
        · exact .inl old
      · rw [if_neg signs]
        exact hb.calm hbu
  · exact hb

/-- An epoch that is put in place may come with other validators, which must include those there
were. -/
theorem Backed.resetEpoch (hb : Backed m) (cause : Cause) (newEpoch : Epoch)
    (kept : ∀ epochNo vals, DbftManager.loadTotalValidators env ans epochNo = some vals →
      ∀ v ∈ m.totalValidators.validators, v ∈ vals.validators)
    (hw : Warranted m.heard (.installed cause newEpoch.epochNo
      m.totalValidators.validators)) : Backed (m.resetEpoch env ans cause newEpoch).2 := by
  have install (n : DbftManager) (same : Uncounted m n) :
      Backed (n.install env ans cause newEpoch).2 := by
    have hb := hb.uncounted same
    rw [← same.totalValidators] at kept hw
    rw [← same.heard] at hw
    have acts (act : Act)
      (done : act ∈ Act.installed cause newEpoch.epochNo n.totalValidators.validators :: n.acts) :
        act ∈ n.acts ∨ Warranted n.heard act := by
      rcases List.mem_cons.mp done with rfl | old
      · exact .inr hw
      · exact .inl old
    unfold DbftManager.install
    dsimp only
    split
    · exact hb
    · split
      · exact hb.step (fun _ => .inl rfl) (fun _ hm => hm) (fun _ hm => hm) acts
      next vals loaded =>
        have records (epochNo : UInt64) :
            Function.update n.epochChange (newEpoch.epochNo - 1)
            [] epochNo = n.epochChange epochNo ∨
              Function.update n.epochChange (newEpoch.epochNo - 1) [] epochNo = [] := by
          by_cases here : epochNo = newEpoch.epochNo - 1
          · subst here
            exact .inr (Function.update_self ..)
          · exact .inl (Function.update_of_ne here ..)
        split <;>
          exact hb.step records (kept _ vals loaded) (fun _ hm => hm) acts
  unfold DbftManager.resetEpoch
  split
  · exact hb
  · exact hb
  · split
    · exact install _ ⟨rfl, rfl, rfl, rfl⟩
    · exact hb.uncounted ⟨rfl, rfl, rfl, rfl⟩

/-! ## What makes a message count -/

/-- The validators that are loaded with a new epoch include those there were. -/
def Keeps (m : DbftManager) : Prop :=
  ∀ epochNo vals, DbftManager.loadTotalValidators env ans epochNo = some vals →
    ∀ v ∈ m.totalValidators.validators, v ∈ vals.validators

/-- An epoch change that is about to be recorded carries the address of the validator that signed
it, and that address is not in the list of its epoch yet. -/
def Genuine (m : DbftManager) (key : Bytes) : DposMsg → Prop
  | .epochChange (some change) => m.recordable ans change = .ok true →
      change.digestAddr ∉ (m.epochChange change.epochNo).map EpochChange.digestAddr ∧
      ∃ v ∈ m.totalValidators.validators, v.pubKeyStr = key ∧ v.address = change.digestAddr
  | .epochChange none => True
  | .newEpoch _ => Keeps env ans m

variable {env ans}

theorem Backed.handleEpochChange (hb : Backed m) (change : EpochChange)
    (hg : m.recordable ans change = .ok true →
      change.digestAddr ∉ (m.epochChange change.epochNo).map EpochChange.digestAddr ∧
      Sent m.totalValidators.validators m.heard change.epochNo change.digestAddr) :
    Backed (m.handleEpochChange env ans (some change)).2 := by
  unfold DbftManager.handleEpochChange
  dsimp only
  split
  · exact hb
  · exact hb
  next passed =>
    obtain ⟨hf, sent⟩ := hg passed
    have hr : Backed (m.setEpochChange change) :=
      ⟨hb.book.append hf sent, hb.quorate⟩
    have hfo := follow_calm env ans (m.setEpochChange change) change
    split
    next _ _ failed =>
      rw [failed] at hfo
      exact hr.calm hfo
    next _ done =>
      rw [done] at hfo
      exact (hr.calm hfo).checkEnterNewEpoch env ans _

/-- The check that comes first asks for more than a third. -/
theorem expected_behind (hb : Backed m) {newEpoch : NewEpoch}
    (expected : m.expected newEpoch = .ok ()) :
    Behind m.totalValidators.validators m.heard newEpoch.epochNo
      (m.totalValidators.validators.length / 3) := by
  unfold DbftManager.expected at expected
  split at expected
  · cases expected
  · split at expected
    · cases expected
    · split at expected
      · cases expected
      · split at expected
        next enough => exact hb.behind (of_decide_eq_true enough)
        · cases expected

theorem matched_epochNo {newEpoch : NewEpoch} {height : UInt64} {self net : Epoch}
    (hma : DbftManager.matched env newEpoch height self = .ok net) :
    net.epochNo = newEpoch.epochNo := by
  unfold DbftManager.matched at hma
  split at hma
  · cases hma
  · split at hma
    · cases hma
    · cases hma
    · cases hma
      rfl

theorem Backed.handleNewEpoch (hb : Backed m) (payload : Option NewEpoch)
    (hk : Keeps env ans m) : Backed (m.handleNewEpoch env ans payload).2 := by
  unfold DbftManager.handleNewEpoch
  split
  · exact hb
  next newEpoch =>
    split
    · exact hb
    next expected =>
      have hbe := expected_behind hb expected
      have hbu := buildNewEpoch_calm env ans m
      split
      next _ _ failed =>
        rw [failed] at hbu
        exact hb.calm hbu
      next self next done =>
        rw [done] at hbu
        split
        · exact hb.calm hbu
        next net same =>
          have hw : Warranted next.heard
              (.installed .message net.epochNo next.totalValidators.validators) := by
            rw [matched_epochNo same, hbu.heard, hbu.totalValidators]
            exact hbe
          have reset := (hb.calm hbu).resetEpoch env ans .message net
            (by rw [hbu.totalValidators]; exact hk) hw
          split
          next _ _ failed =>
            rw [failed] at reset
            exact reset
          next _ finished =>
            rw [finished] at reset
            exact reset

theorem Backed.handle (hb : Backed m) {key : Bytes} {msg : DposMsg}
    (hg : Genuine env ans m key msg) : Backed (m.handle env ans key msg).2 := by
  cases msg with
  | newEpoch payload =>
    have hh := hb.handleNewEpoch payload hg
    unfold DbftManager.handle
    dsimp only
    split
    next _ _ failed =>
      rw [failed] at hh
      exact hh
    next _ _ done =>
      rw [done] at hh
      exact hh.uncounted ⟨rfl, rfl, rfl, rfl⟩
  | epochChange payload =>
    have logged : Backed { m with heard := payload.toList.map (key, ·) ++ m.heard } :=
      hb.step (fun _ => .inl rfl) (fun _ hm => hm)
        (fun _ hm => List.mem_append_right _ hm) fun _ done => .inl done
    cases payload with
    | none => exact logged
    | some change =>
      refine logged.handleEpochChange change fun hp => ?_
      obtain ⟨hf, v, hm, signer, address⟩ := hg hp
      exact ⟨hf, v, hm, address, change, signer ▸ List.mem_cons_self, rfl⟩

/-! ## Runs -/

variable (env ans)

def GenuineEvent (m : DbftManager) : Event → Prop
  | .peer sender verified msg => verified = true → Genuine env ans m sender msg
  | .own => ∀ msg rest, m.internalMsgQueue = msg :: rest → Genuine env ans m env.id msg
  | .fullBlkChange => Keeps env ans m
  | .blkChange => Keeps env ans m
  | _ => True

theorem Uncounted.checkEpochChange (same : Uncounted m m') :
    Uncounted m (m'.checkEpochChange env).2 := by
  refine same.trans ?_
  unfold DbftManager.checkEpochChange
  split
  · exact .refl m'
  · dsimp only
    split_ifs <;> exact ⟨rfl, rfl, rfl, rfl⟩

theorem commitBlock_uncounted (m : DbftManager) (blk : ChainBlock) :
    Uncounted m (m.commitBlock env ans blk).2 := by
  unfold DbftManager.commitBlock
  split
  · exact ⟨rfl, rfl, rfl, rfl⟩
  · exact ⟨rfl, rfl, rfl, rfl⟩
  · dsimp only
    split
    · exact ⟨rfl, rfl, rfl, rfl⟩
    · exact Uncounted.checkEpochChange env ⟨rfl, rfl, rfl, rfl⟩

theorem syncBlock_uncounted (m : DbftManager) (blk : ChainBlock) :
    Uncounted m (m.syncBlock env ans blk).2 := by
  unfold DbftManager.syncBlock
  split
  · exact ⟨rfl, rfl, rfl, rfl⟩
  · dsimp only
    split
    · exact ⟨rfl, rfl, rfl, rfl⟩
    · exact ⟨rfl, rfl, rfl, rfl⟩
    · exact ⟨rfl, rfl, rfl, rfl⟩
    · exact Uncounted.checkEpochChange env ⟨rfl, rfl, rfl, rfl⟩

theorem Backed.fullBlkChange (hb : Backed m) (hk : Keeps env ans m) :
    Backed (m.fullBlkChange env ans).2 := by
  have hbu := buildNewEpoch_calm env ans m
  unfold DbftManager.fullBlkChange
  split
  next _ _ failed =>
    rw [failed] at hbu
    exact hb.calm hbu
  next _ _ done =>
    rw [done] at hbu
    exact (hb.calm hbu).resetEpoch env ans .full
      _ (by rw [hbu.totalValidators]; exact hk) trivial

variable {env ans}

/-- How a turn ends is not counted. -/
theorem Backed.turn (hb : Backed m) (routine : Routine)
    {body : DbftManager → Except DposErr Unit × DbftManager} (done : Backed (body m).2) :
    Backed (m.turn routine body) := by
  unfold DbftManager.turn
  split
  · exact hb
  · unfold DbftManager.settle
    split
    next _ panicked =>
      rw [panicked] at done
      exact done.uncounted ⟨rfl, rfl, rfl, rfl⟩
    next _ hung =>
      rw [hung] at done
      exact done.uncounted ⟨rfl, rfl, rfl, rfl⟩
    next _ _ _ _ ended =>
      rw [ended] at done
      exact done

theorem Backed.handlerTurn (hb : Backed m)
    {body : DbftManager → Except DposErr Unit × DbftManager} (done : Backed (body m).2) :
    Backed (m.handlerTurn body) := by
  unfold DbftManager.handlerTurn
  split
  · exact hb
  · split
    next _ _ panicked =>
      rw [panicked] at done
      exact done.uncounted ⟨rfl, rfl, rfl, rfl⟩
    next _ ended =>
      rw [ended] at done
      exact done

theorem Backed.deliver (hb : Backed m) {e : Event} (hg : GenuineEvent env ans m e) :
    Backed (m.deliver env ans e) := by
  cases e with
  | peer sender verified msg =>
    cases verified with
    | false => exact hb
    | true => exact hb.turn .listener (hb.handle (hg rfl))
  | own =>
    unfold DbftManager.deliver
    dsimp only
    split
    · exact hb
    next msg rest queued =>
      have ht : Backed { m with internalMsgQueue := rest } :=
        hb.uncounted ⟨rfl, rfl, rfl, rfl⟩
      have same : Genuine env ans { m with internalMsgQueue := rest } env.id msg := by
        have own := hg msg rest queued
        cases msg with
        | newEpoch => exact own
        | epochChange payload => cases payload <;> exact own
      exact hb.turn .listener (ht.handle same)
  | blkTimeout height txs =>
    exact hb.turn .scanner (hb.calm (blkTimeout_calm env ans m height txs))
  | waitOver candidateBgNum =>
    have waited : Backed (m.waitOver ans candidateBgNum) := hb.uncounted ⟨rfl, rfl, rfl, rfl⟩
    unfold DbftManager.deliver
    exact hb.turn .scanner waited
  | commit blk => exact hb.handlerTurn (hb.uncounted (commitBlock_uncounted env ans m blk))
  | sync blk => exact hb.handlerTurn (hb.uncounted (syncBlock_uncounted env ans m blk))
  | refused validators =>
    have ht : Backed (m.takeValidators validators) := hb.uncounted ⟨rfl, rfl, rfl, rfl⟩
    unfold DbftManager.deliver
    exact hb.handlerTurn ht
  | fullBlkChange =>
    unfold DbftManager.deliver
    split_ifs
    · have ht : Backed { m with fullBlkChangeChan := false } :=
        hb.uncounted ⟨rfl, rfl, rfl, rfl⟩
      exact hb.turn .fullBlk (ht.fullBlkChange env ans hg)
    · exact hb
  | blkChange =>
    unfold DbftManager.deliver
    dsimp only
    split
    next newEpoch _ =>
      have ht : Backed { m with blkChangeChan := none } := hb.uncounted ⟨rfl, rfl, rfl, rfl⟩
      exact hb.turn .finder (ht.resetEpoch env ans .found newEpoch hg trivial)
    · exact hb

variable (env)

/-- Each event of the run is genuine in the state it comes to. -/
def GenuineRun : DbftManager → List (Event × Answers) → Prop
  | _, [] => True
  | m, (e, ans) :: rest => GenuineEvent env ans m e ∧ GenuineRun (m.deliver env ans e) rest

variable {env}

theorem Backed.run (hb : Backed m) (events : List (Event × Answers))
    (hg : GenuineRun env m events) (k : Nat) : Backed (m.run env (events.take k)) := by
  induction events generalizing m k with
  | nil =>
    rw [List.take_nil]
    exact hb
  | cons event rest ih =>
    cases k with
    | zero => exact hb
    | succ k => exact ih (hb.deliver hg.1) hg.2 k

/-- Nothing is recorded and nothing has been done. -/
def Fresh (m : DbftManager) : Prop := (∀ epochNo, m.epochChange epochNo = []) ∧ m.acts = []

/-- In every state of every genuine run. -/
theorem run_warranted (hf : Fresh m) (events : List (Event × Answers))
    (hg : GenuineRun env m events) (k : Nat) : Quorate (m.run env (events.take k)) := by
  obtain ⟨hem, idle⟩ := hf
  have hb : Backed m := by
    refine ⟨.of_empty hem, fun act done => ?_⟩
    rw [idle] at done
    cases done
  exact (hb.run events hg k).quorate

end

/-! ### One peer for many validators -/

/-- Four validators, of one vote each; the key of each is its address. -/
def fourMembers : List Validator := [1, 2, 3, 4].map fun i => ⟨[i], [i], 1⟩

def fourSet : EpochSet := ⟨⟨fourMembers, none, fun _ => 0, 1, []⟩, some ⟨1, 0, 1, 1⟩⟩

/-- The third of them. -/
def third : Env := ⟨[3], [3], 4, 100, fourSet.set,
    fun address power => address ++ [UInt8.ofNat power.toNat]⟩

/-- As the client of the epoch server is written, its call does not return. -/
noncomputable def plain : Answers :=
  ⟨.any true, fun _ => some [], some [], fun _ => none, true, true, true, true, .checks⟩

def firstEpoch (epochNo : UInt64) : Epoch := ⟨⟨epochNo, 0, epochNo, 1⟩, fourMembers, fun _ => 0⟩

/-- The manager in the first epoch, before the first block. -/
def starting : DbftManager where
  ledger := genesisLedger
  handler := ⟨1, fourSet, fourSet, true⟩
  totalValidators := fourSet.set
  curHeight := 1
  blkTimeoutCount := 0
  candidateNo := 2
  epoch := firstEpoch 1
  epochList := fun epochNo => if epochNo = 1 then some (firstEpoch 1) else none
  epochRecords := fun epochNo => if epochNo = 0 then some (firstEpoch 0) else none
  epochChange := fun _ => []
  newEpoch := fun _ => none
  internalMsgQueue := []
  fullBlkChangeChan := false
  blkChangeChan := none
  stuck := []
  halted := false
  heard := []
  sent := []
  acts := []
  history := []

/-- A verified epoch change for the second epoch, signed with `key` in the name of `addr`. -/
noncomputable def change (key addr : UInt8) : Event × Answers :=
  (.peer [key] true (.epochChange (some ⟨2, [addr], 1, []⟩)), plain)

theorem keeps_plain (env : Env) (m : DbftManager)
    (same : env.genesisValidators = m.totalValidators) : Keeps env plain m := by
  intro epochNo vals loaded v hm
  unfold DbftManager.loadTotalValidators at loaded
  split at loaded
  · cases loaded
    rw [same]
    exact hm
  · cases loaded

/-- Three validators that sign for themselves, then the node's own announcement. -/
noncomputable def asked : List (Event × Answers) :=
    [change 1 1, change 2 2, change 4 4, (.own, plain)]

theorem asked_genuine : GenuineRun third starting asked := by
  have genuine (m : DbftManager) (addr : UInt8)
    (hme : m.totalValidators.validators = fourMembers)
      (hl : ⟨[addr], [addr], 1⟩ ∈ fourMembers)
      (hf : [addr] ∉ (m.epochChange 2).map EpochChange.digestAddr) :
      GenuineEvent third plain m (change addr addr).1 := by
    intro _ _
    rw [← hme] at hl
    exact ⟨hf, _, hl, rfl, rfl⟩
  refine ⟨genuine _ 1 rfl (by decide) (by decide +kernel),
    genuine _ 2 rfl (by decide) (by decide +kernel),
    genuine _ 4 rfl (by decide) (by decide +kernel), ?_, trivial⟩
  intro msg rest hq
  cases hq
  exact keeps_plain third _ rfl

theorem asked_warranted : Fresh starting ∧ GenuineRun third starting asked ∧
    (starting.run third (asked.take 4)).acts = [.installed .message 2 fourMembers,
      .built 2 fourMembers] ∧ Quorate (starting.run third (asked.take 4)) :=
  have hf : Fresh starting := ⟨fun _ => rfl, rfl⟩
  ⟨hf, asked_genuine, rfl, run_warranted hf asked asked_genuine 4⟩

/-- One and the same epoch change three times, signed by a stranger. -/
noncomputable def repeated : List (Event × Answers) :=
    [change 9 1, change 9 1, change 9 1, (.own, plain)]

/-- The node announces the second epoch and puts it in place, and no validator has asked for it. -/
theorem repeated_installed : Fresh starting ∧
    (starting.run third repeated).acts = [.installed .message 2 fourMembers, .built 2 fourMembers] ∧
    (starting.run third repeated).epoch.epochNo = 2 ∧
    (∀ addr, ¬ Sent fourMembers (starting.run third repeated).heard 2 addr) ∧
    ¬ Quorate (starting.run third repeated) := by
  have acts : (starting.run third repeated).acts = [.installed .message 2 fourMembers,
    .built 2 fourMembers] := rfl
  have stranger : ∀ v ∈ fourMembers, ∀ entry ∈ (starting.run third repeated).heard,
      entry.1 ≠ v.pubKeyStr := by
    decide +kernel
  have nobody (addr : Bytes) : ¬ Sent fourMembers (starting.run third repeated).heard 2 addr := by
    rintro ⟨v, hm, _, change, hs, _⟩
    exact stranger v hm _ hs rfl
  refine ⟨⟨fun _ => rfl, rfl⟩, acts, rfl, nobody, fun quorate => ?_⟩
  obtain ⟨senders, he, sent⟩ := quorate (.installed .message 2 fourMembers)
    (by rw [acts]; exact List.mem_cons_self)
  obtain ⟨addr, hm⟩ := Finset.card_pos.mp (Nat.zero_lt_of_lt he)
  exact nobody addr (sent addr hm)

end HNBChain.Audit.Guarantees.EpochQuorum
