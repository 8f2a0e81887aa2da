import HNBChain.Lib.VouchedBook
import HNBChain.Audit.Source.Algorand.BgAdvice
import HNBChain.Audit.Guarantees.GroupWellFormed

/-!
# The advices behind a change of the group

A node follows an advice and accepts a demand when more than a third of the validators have advised
the group, and makes the demand when more than two thirds have. What it counts are records under
addresses that the messages give themselves. If every advice that is recorded carries the address of
the validator that signed it, the records stand for as many validators; if not, one peer can fill
the list alone.
-/
namespace HNBChain.Audit.Guarantees.AdviceQuorum

open Lib Source Source.Algorand

/-- The validator with this address has signed an advice for the group. -/
def Sent (n : BgNode) (bgNum : UInt64) (addr : Bytes) : Prop :=
  ∃ v ∈ n.mgr.totalValidators.validators, v.address = addr ∧
    ∃ advice, (v.pubKeyStr, advice) ∈ n.heard ∧ advice.bftGroupNum = bgNum

/-- More than `bound` different validators have. -/
def Behind (n : BgNode) (bgNum : UInt64) (bound : Nat) : Prop :=
  ∃ senders : Finset Bytes, bound < senders.card ∧ ∀ addr ∈ senders, Sent n bgNum addr

/-- The two thresholds that the handlers compare the number of advices with. -/
def Quorate (n : BgNode) : Prop :=
  ∀ bgNum, ∀ bound ∈ [n.mgr.totalValidators.validators.length / 3,
    2 * n.mgr.totalValidators.validators.length / 3],
    bound < (n.mgr.bgAdvice bgNum).length → Behind n bgNum bound

/-- Every record is of another validator, which has signed an advice for the group. -/
structure Backed (n : BgNode) : Prop where
  distinct : ∀ bgNum, ((n.mgr.bgAdvice bgNum).map BftGroupSwitchAdvice.digestAddr).Nodup
  group : ∀ bgNum, ∀ advice ∈ n.mgr.bgAdvice bgNum, advice.bftGroupNum = bgNum
  sent : ∀ bgNum, ∀ advice ∈ n.mgr.bgAdvice bgNum, Sent n bgNum advice.digestAddr

section

variable {env : BgEnv} {self : BgSelf} {ans : AdviceAnswers} {n n' : BgNode}

/-- The records as a book of keys that are vouched for. -/
theorem Backed.book (hb : Backed n) :
    Vouched n.mgr.bgAdvice BftGroupSwitchAdvice.digestAddr (Sent n) :=
  ⟨hb.distinct, hb.sent⟩

theorem Backed.quorate (hb : Backed n) : Quorate n :=
  fun _ _ _ he => hb.book.exceeds he

/-! ## What the handlers write -/

/-- The records, the validators and the log are let alone. -/
structure Same (n n' : BgNode) : Prop where
  bgAdvice : n'.mgr.bgAdvice = n.mgr.bgAdvice
  totalValidators : n'.mgr.totalValidators = n.mgr.totalValidators
  heard : n'.heard = n.heard

theorem Same.refl (n : BgNode) : Same n n := ⟨rfl, rfl, rfl⟩

theorem Same.trans {a b c : BgNode} (h1 : Same a b) (h2 : Same b c) : Same a c :=
  ⟨h2.bgAdvice.trans h1.bgAdvice, h2.totalValidators.trans h1.totalValidators,
    h2.heard.trans h1.heard⟩

variable (env self ans n) (bgNum : UInt64)

theorem follow_same : Same n (n.follow self ans bgNum).2 := by
  unfold BgNode.follow
  split
  · split
    · exact .refl n
    · dsimp only
      split_ifs <;> exact ⟨rfl, rfl, rfl⟩
  · exact .refl n

variable (advices : List BftGroupSwitchAdvice)

theorem foldl_putBgCandidate_same (mgr : BftMgr) :
    (advices.foldl BftMgr.putBgCandidate mgr).bgAdvice = mgr.bgAdvice ∧
      (advices.foldl BftMgr.putBgCandidate mgr).totalValidators = mgr.totalValidators := by
  induction advices generalizing mgr with
  | nil => exact ⟨rfl, rfl⟩
  | cons advice rest ih => exact ih (mgr.putBgCandidate advice)

theorem addCandidates_same : Same n (n.addCandidates self ans bgNum advices).2 := by
  obtain ⟨bgAdvice, totalValidators⟩ := foldl_putBgCandidate_same advices n.mgr
  unfold BgNode.addCandidates
  dsimp only
  split <;> exact ⟨bgAdvice, totalValidators, rfl⟩

theorem buildBgDemand_same : Same n (n.buildBgDemand env self ans bgNum).2 := by
  have ha := addCandidates_same self ans n bgNum (n.mgr.bgAdvice bgNum)
  unfold BgNode.buildBgDemand
  split
  next _ m failed =>
    rw [failed] at ha
    exact ha
  next m done =>
    rw [done] at ha
    split
    · exact ha
    · split_ifs <;> exact ha.trans ⟨rfl, rfl, rfl⟩

theorem checkResetBft_same : Same n (n.checkResetBft env self ans bgNum).2 := by
  have hbu := buildBgDemand_same env self ans n bgNum
  unfold BgNode.checkResetBft
  split
  · split
    next _ m failed =>
      rw [failed] at hbu
      exact hbu
    next demand m done =>
      rw [done] at hbu
      exact hbu.trans ⟨rfl, rfl, rfl⟩
  · exact .refl n

/-- An advice is recorded if it passes the checks, and nothing else is written to the records. -/
theorem handleBgAdviceMsg_same (advice : BftGroupSwitchAdvice) :
    n.recordable ans advice = .ok true ∧ Same { n with mgr := n.mgr.putBgAdvice advice }
        (n.handleBgAdviceMsg env self ans (some advice)).2 ∨
      Same n (n.handleBgAdviceMsg env self ans (some advice)).2 := by
  unfold BgNode.handleBgAdviceMsg
  dsimp only
  split
  · exact .inr (.refl n)
  · exact .inr (.refl n)
  next passed =>
    refine .inl ⟨passed, ?_⟩
    have hf := follow_same self ans
      { n with mgr := n.mgr.putBgAdvice advice } advice.bftGroupNum
    split
    next _ m failed =>
      rw [failed] at hf
      exact hf
    next m done =>
      rw [done] at hf
      exact hf.trans (checkResetBft_same env self ans m advice.bftGroupNum)

variable {env self ans n}

theorem Sent.mono {bgNum : UInt64} {addr : Bytes} (sent : Sent n bgNum addr)
    (validators : ∀ v ∈ n.mgr.totalValidators.validators, v ∈ n'.mgr.totalValidators.validators)
    (heard : ∀ entry ∈ n.heard, entry ∈ n'.heard) : Sent n' bgNum addr := by
  obtain ⟨v, hm, address, advice, hs, group⟩ := sent
  exact ⟨v, validators v hm, address, advice, heard _ hs, group⟩

/-- Records may be dropped, validators and entries of the log may be added. -/
theorem Backed.mono (hb : Backed n)
    (records : ∀ bgNum, n'.mgr.bgAdvice bgNum = n.mgr.bgAdvice bgNum ∨ n'.mgr.bgAdvice bgNum = [])
    (validators : ∀ v ∈ n.mgr.totalValidators.validators, v ∈ n'.mgr.totalValidators.validators)
    (heard : ∀ entry ∈ n.heard, entry ∈ n'.heard) : Backed n' := by
  have book : Vouched n'.mgr.bgAdvice BftGroupSwitchAdvice.digestAddr (Sent n') :=
    hb.book.mono records fun _ _ sent => sent.mono validators heard
  refine ⟨book.distinct, fun bgNum advice hm => ?_, book.vouched⟩
  rcases records bgNum with same | hd
  · exact hb.group bgNum advice (same ▸ hm)
  · simp [hd] at hm

theorem Backed.same (hb : Backed n) (same : Same n n') : Backed n' :=
  hb.mono (fun _ => .inl (by rw [same.bgAdvice]))
    (fun _ hm => same.totalValidators ▸ hm)
    fun _ hm => same.heard ▸ hm

theorem hasBgAdvice_iff (hb : Backed n) (addr : Bytes) (bgNum : UInt64) :
    n.mgr.hasBgAdvice addr bgNum = true ↔
    addr ∈ (n.mgr.bgAdvice bgNum).map BftGroupSwitchAdvice.digestAddr := by
  unfold BftMgr.hasBgAdvice hasAddr
  simp only [List.any_eq_true, Bool.and_eq_true, decide_eq_true_eq, List.mem_map]
  constructor
  · rintro ⟨advice, hr, _, same⟩
    exact ⟨advice, hr, same.symm⟩
  · rintro ⟨advice, hr, same⟩
    exact ⟨advice, hr, hb.group bgNum advice hr, same.symm⟩

/-- A new record is of its signer, and of no address that is recorded already. -/
theorem Backed.put (hb : Backed n) (advice : BftGroupSwitchAdvice)
    (hg : n.mgr.hasBgAdvice advice.digestAddr advice.bftGroupNum = false →
      Sent n advice.bftGroupNum advice.digestAddr) :
    Backed { n with mgr := n.mgr.putBgAdvice advice } := by
  by_cases present : n.mgr.hasBgAdvice advice.digestAddr advice.bftGroupNum = true
  · rw [BftMgr.putBgAdvice_of_has present]
    exact hb
  · have hab := present
    rw [hasBgAdvice_iff hb] at hab
    rw [Bool.not_eq_true] at present
    have ha := BftMgr.putBgAdvice_bgAdvice present
    have book := hb.book.append hab (hg present)
    rw [← ha] at book
    refine ⟨book.distinct, fun bgNum a hm => ?_, book.vouched⟩
    rw [ha] at hm
    by_cases here : bgNum = advice.bftGroupNum
    · subst here
      rw [Function.update_self, List.mem_append, List.mem_singleton] at hm
      rcases hm with old | rfl
      · exact hb.group _ a old
      · rfl
    · rw [Function.update_of_ne here] at hm
      exact hb.group bgNum a hm

/-- The records and validators a demand leaves. -/
theorem handleBgDemand_records (env : BgEnv) (ans : BgAnswers) (mgr : BftMgr)
    (payload : Option BftGroupSwitchDemand) :
    (∀ bgNum, (mgr.handleBgDemand env ans payload).2.bgAdvice bgNum = mgr.bgAdvice bgNum ∨
      (mgr.handleBgDemand env ans payload).2.bgAdvice bgNum = []) ∧
    ((mgr.handleBgDemand env ans payload).2.totalValidators = mgr.totalValidators ∨
      ans.totalValidators = some (mgr.handleBgDemand env ans payload).2.totalValidators) := by
  have reset (newBg : BftGroup) : (∀ bgNum,
    (mgr.resetBftGroup ans newBg).2.bgAdvice bgNum = mgr.bgAdvice bgNum ∨
      (mgr.resetBftGroup ans newBg).2.bgAdvice bgNum = []) ∧
      ((mgr.resetBftGroup ans newBg).2.totalValidators = mgr.totalValidators ∨
        ans.totalValidators = some (mgr.resetBftGroup ans newBg).2.totalValidators) := by
    unfold BftMgr.resetBftGroup
    split
    · exact ⟨fun _ => .inl rfl, .inl rfl⟩
    · split
      · exact ⟨fun _ => .inl rfl, .inl rfl⟩
      next loaded =>
        split
        · exact ⟨fun _ => .inl rfl, .inr loaded⟩
        · refine ⟨fun bgNum => ?_, .inr loaded⟩
          by_cases here : bgNum = newBg.bgID - 1
          · subst here
            exact .inr (Function.update_self ..)
          · exact .inl (Function.update_of_ne here ..)
  unfold BftMgr.handleBgDemand
  split
  · exact ⟨fun _ => .inl rfl, .inl rfl⟩
  next demand =>
    split
    · exact ⟨fun _ => .inl rfl, .inl rfl⟩
    next newBg _ =>
      have reset := reset newBg
      split
      next _ m failed =>
        rw [failed] at reset
        exact reset
      next m done =>
        rw [done] at reset
        exact reset

theorem Backed.demand (hb : Backed n) (payload : Option BftGroupSwitchDemand)
    (kept : ∀ vals, ans.totalValidators = some vals →
      ∀ v ∈ n.mgr.totalValidators.validators, v ∈ vals.validators) :
    Backed (n.handleDemand env ans payload) := by
  obtain ⟨records, totals⟩ := handleBgDemand_records env ans.toBgAnswers n.mgr payload
  have validators : ∀ v ∈ n.mgr.totalValidators.validators,
      v ∈ (n.mgr.handleBgDemand env ans.toBgAnswers payload).2.totalValidators.validators := by
    rcases totals with same | loaded
    · rw [same]
      exact fun v hm => hm
    · exact kept _ loaded
  unfold BgNode.handleDemand
  split
  next _ m failed =>
    rw [failed] at records validators
    exact hb.mono records validators fun _ hm => hm
  next demand m done =>
    rw [done] at records validators
    exact hb.mono records validators fun _ hm => hm

/-! ## Runs -/

/-- The message that the event makes the node handle, with the key that signed it. -/
def handled (self : BgSelf) (n : BgNode) : BgEvent → Option (Bytes × BgMsg)
  | .peer sender verified msg => if verified then some (sender, msg) else none
  | .own => n.internalMsgQueue.head?.map (self.id, ·)
  | _ => none

/-- An advice that is about to be recorded carries the address of the validator that signed it, and
the validators that are loaded when a demand changes the group include those there were. -/
def Genuine (ans : AdviceAnswers) (n : BgNode) (key : Bytes) : BgMsg → Prop
  | .advice (some advice) =>
    n.recordable ans advice = .ok true →
    n.mgr.hasBgAdvice advice.digestAddr advice.bftGroupNum = false →
      ∃ v ∈ n.mgr.totalValidators.validators, v.pubKeyStr = key ∧ v.address = advice.digestAddr
  | .advice none => True
  | .demand _ => ∀ vals, ans.totalValidators = some vals →
      ∀ v ∈ n.mgr.totalValidators.validators, v ∈ vals.validators

theorem Backed.handle (hb : Backed n) {key : Bytes} {msg : BgMsg}
    (hg : Genuine ans n key msg) : Backed (n.handle env self ans key msg) := by
  cases msg with
  | demand payload => exact hb.demand payload hg
  | advice payload =>
    have logged : Backed { n with heard := (payload.toList.map (key, ·)) ++ n.heard } :=
      hb.mono (fun _ => .inl rfl) (fun _ hm => hm) fun _ hm =>
      List.mem_append_right _ hm
    unfold BgNode.handle
    cases payload with
    | none => exact logged
    | some advice =>
      rcases handleBgAdviceMsg_same env self ans
        { n with heard := ((some advice).toList.map (key, ·)) ++ n.heard }
        advice with ⟨passed, same⟩ | same
      · refine (logged.put advice fun hab => ?_).same same
        obtain ⟨v, hm, signer, address⟩ := hg passed hab
        exact ⟨v, hm, address, advice, signer ▸ List.mem_cons_self, rfl⟩
      · exact logged.same same

def GenuineEvent (self : BgSelf) (ans : AdviceAnswers) (n : BgNode) (e : BgEvent) : Prop :=
  ∀ key msg, handled self n e = some (key, msg) → Genuine ans n key msg

theorem Backed.deliver (hb : Backed n) {e : BgEvent} (hg : GenuineEvent self ans n e) :
    Backed (n.deliver env self ans e) := by
  cases e with
  | peer sender verified msg =>
    cases verified with
    | false => exact hb
    | true => exact hb.handle (hg sender msg rfl)
  | own =>
    unfold BgNode.deliver
    dsimp only
    split
    · exact hb
    next msg rest queued =>
      have here : handled self n .own = some (self.id, msg) := by
        unfold handled
        rw [queued]
        rfl
      have dequeued : Backed { n with internalMsgQueue := rest } := hb.same ⟨rfl, rfl, rfl⟩
      exact dequeued.handle (hg self.id msg here)
  | height h => exact hb.same ⟨rfl, rfl, rfl⟩
  | blkTimeout =>
    unfold BgNode.deliver BgNode.reqBgChange
    dsimp only
    split <;> exact hb.same ⟨rfl, rfl, rfl⟩
  | demandTimeout => exact hb.same ⟨rfl, rfl, rfl⟩

/-- Every event is genuine in the state it comes in. -/
def GenuineRun (env : BgEnv) (self : BgSelf) : BgNode → List (BgEvent × AdviceAnswers) → Prop
  | _, [] => True
  | n, event :: rest =>
    GenuineEvent self event.2 n event.1 ∧
    GenuineRun env self (n.deliver env self event.2 event.1) rest

theorem Backed.run (hb : Backed n) (events : List (BgEvent × AdviceAnswers))
    (hg : GenuineRun env self n events) (k : Nat) :
    Backed (n.run env self (events.take k)) := by
  induction events generalizing n k with
  | nil =>
    rw [List.take_nil]
    exact hb
  | cons event rest ih =>
    obtain ⟨here, hl⟩ := hg
    cases k with
    | zero => exact hb
    | succ k => exact ih (hb.deliver here) hl k

/-- A manager that has recorded nothing yet. -/
def Fresh (n : BgNode) : Prop := n.mgr.bgAdvice = fun _ => []

/-- In every run of genuine messages, whenever the advices for a group are more than a third or two
thirds of the validators, that many different validators have each signed an advice for it. -/
theorem run_quorate (hfr : Fresh n) (events : List (BgEvent × AdviceAnswers))
    (hg : GenuineRun env self n events) (k : Nat) :
    Quorate (n.run env self (events.take k)) := by
  have empty (bgNum : UInt64) : n.mgr.bgAdvice bgNum = [] := congrFun hfr bgNum
  have book : Vouched n.mgr.bgAdvice BftGroupSwitchAdvice.digestAddr (Sent n) := .of_empty empty
  have hb : Backed n := ⟨book.distinct,
    fun bgNum advice hm => by simp [empty] at hm, book.vouched⟩
  exact (hb.run events hg k).quorate

end

/-! ### One peer for many validators -/

open GroupWellFormed

/-- The second of four validators, which may ask for the first group. -/
def second : BgSelf := ⟨[2], [2], fun _ => some ([6], [7])⟩

def freshNode : BgNode :=
  ⟨{ plainMgr with bftNumber := 4, bgAdvice := fun _ => [] }, 7, [], [], []⟩

def plainAdviceAnswers : AdviceAnswers :=
    { plainBgAnswers with blockHash := fun _ => some [], signs := true, room := true }

/-- Verified advices for the first group, signed with `key` in the name of each of the
validators. -/
def advices (signed : List (UInt8 × UInt8)) : List (BgEvent × AdviceAnswers) :=
  signed.map fun (key, addr) => (.peer [key] true (.advice (some (adviceOf addr))),
    plainAdviceAnswers)

theorem ownAdvices_genuine : GenuineRun plainBgEnv second freshNode (advices [(1, 1), (3, 3)]) := by
  have genuine (n : BgNode) (addr : UInt8)
    (hli : ⟨[addr], [addr], 1⟩ ∈ n.mgr.totalValidators.validators) :
      GenuineEvent second plainAdviceAnswers n
          (.peer [addr] true (.advice (some (adviceOf addr)))) := by
    intro key msg same
    cases same
    exact fun _ _ => ⟨_, hli, rfl, rfl⟩
  exact ⟨genuine _ 1 (by decide +kernel), genuine _ 3 (by decide +kernel), trivial⟩

/-- Two validators that sign for themselves. -/
theorem ownAdvices_quorate : Fresh freshNode ∧
    GenuineRun plainBgEnv second freshNode (advices [(1, 1), (3, 3)]) ∧
    Quorate (freshNode.run plainBgEnv second ((advices [(1, 1), (3, 3)]).take 2)) :=
  have hfr : Fresh freshNode := rfl
  ⟨hfr, ownAdvices_genuine, run_quorate hfr _ ownAdvices_genuine 2⟩

/-- Nobody but a stranger has sent anything. -/
def flooded : BgNode := freshNode.run plainBgEnv second (advices [(9, 1), (9, 3), (9, 4)])

/-- The node counts three of four validators and asks for the new group. -/
theorem flooded_demands : Fresh freshNode ∧ (flooded.mgr.bgAdvice 1).length = 3 ∧
    (∃ demand, flooded.sent.head? = some (.demand (some demand))) ∧
    (∀ addr, ¬ Sent flooded 1 addr) ∧ ¬ Quorate flooded := by
  have stranger : ∀ v ∈ flooded.mgr.totalValidators.validators, ∀ entry ∈ flooded.heard,
      entry.1 ≠ v.pubKeyStr := by decide +kernel
  have nobody (addr : Bytes) : ¬ Sent flooded 1 addr := by
    rintro ⟨v, hm, _, advice, hs, _⟩
    exact stranger v hm _ hs rfl
  have count : (flooded.mgr.bgAdvice 1).length = 3 := by decide +kernel
  refine ⟨rfl, count, ⟨_, rfl⟩, nobody, fun quorate => ?_⟩
  have total : flooded.mgr.totalValidators.validators.length = 4 := by decide +kernel
  obtain ⟨senders, hen, sent⟩ := quorate 1
    (2 * flooded.mgr.totalValidators.validators.length / 3) (by simp) (by rw [total, count]; decide)
  obtain ⟨addr, hm⟩ := Finset.card_pos.mp (Nat.zero_lt_of_lt hen)
  exact nobody addr (sent addr hm)

end HNBChain.Audit.Guarantees.AdviceQuorum
