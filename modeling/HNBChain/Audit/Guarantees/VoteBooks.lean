import HNBChain.Audit.Source.Payload
import HNBChain.Audit.Spec.Supply

/-!
# Vote bookkeeping when reads fail

A VOTE makes three updates: the tally of the epoch, the balance of the voter and the record list of
the epoch. Each starts with a read, and two of the three turn a failed read into success. When the
read of the tally fails, the vote is recorded and never paid for; when the read of the record list
fails, it is paid for and never recorded.

The books agree as long as the two reads of a vote fail together or not at all. A failed UNFREEZE
can pay some of the voters, but it keeps both books.
-/
namespace HNBChain.Audit.Guarantees.VoteBooks

open Lib Source Spec Handler Memory

/-! ## The calls under a pattern of failing reads -/

section Failing

variable (fails : Nat → Option Err) (ca : ContractApi) (w : World) (n : Nat)

def answer (stored : Option Bytes) : Except Err (Option Bytes) :=
  match fails n with
  | some e => .error e
  | none => .ok stored

@[simp] theorem failing_getState (key : Bytes) : (failing fails).run (ca.getState key) (w, n) =
      (.ok (answer fails n (find w (ca.chainID, key))), (w, n + 1)) := by
  rw [ContractApi.getState, run_read]
  cases failed : fails n <;> simp [failing, answer, failed]

@[simp] theorem failing_putState (key value : Bytes) :
    (failing fails).run (ca.putState key value) (w, n) =
      (.ok (), (w.insert (ca.chainID, key) value, n)) := rfl

@[simp] theorem failing_delState (key : Bytes) : (failing fails).run (ca.delState key) (w, n) =
      (.ok (), (w.erase (ca.chainID, key), n)) := rfl

theorem error_ne_ok {ε α σ : Type} {e : ε} {a : α} {first second : σ} :
    ((.error e : Except ε α), first) ≠ (.ok a, second) := nofun

/-- `SaveTokenTotal` reads twice. It is refused and writes nothing, or it succeeds without writing
because its second read fails, or it does what it does without failures. Only a failure of its first
read refuses a vote that would pass. -/
theorem failing_saveTokenTotal (vi : VoteInfo) :
    (∃ e k, (failing fails).run (Hnb.saveTokenTotal ca vi) (w, n) = (.error e, (w, k)) ∧
        (fails n = none → ∀ w', saveTotalResult flat ca.chainID vi w ≠ (.ok (), w'))) ∨
      (fails n = none ∧ ∃ w', (failing fails).run (Hnb.saveTokenTotal ca vi)
        (w, n) = (.ok (), (w', n + 2)) ∧ (w' = w ∧ (fails (n + 1)).isSome ∧ (∀ tally,
          tallyOf (find w (ca.chainID, Hnb.getEpochKey vi.voteEpoch)) =
              some (some tally) → ∃ w'', saveTotalResult flat ca.chainID vi w = (.ok (), w'')) ∨
          saveTotalResult flat ca.chainID vi w = (.ok (), w') ∧ fails (n + 1) = none)) := by
  unfold Hnb.saveTokenTotal saveTotalResult
  rcases vi with ⟨_ | fromAddr, _ | candidate, power, epoch⟩
  · exact .inl ⟨_, _, rfl, fun _ _ => error_ne_ok⟩
  · exact .inl ⟨_, _, rfl, fun _ _ => error_ne_ok⟩
  · exact .inl ⟨_, _, rfl, fun _ _ => error_ne_ok⟩
  by_cases invalid : power = 0 ∨ epoch = 0
  · simp only [invalid, if_true, run_bind, run_throw]
    exact .inl ⟨_, _, rfl, fun _ _ => error_ne_ok⟩
  simp only [invalid, if_false, run_bind, failing_getState, run_orReturn]
  rcases h1 : fails n with _ | e
  · simp only [answer, h1]
    cases stored : find w (ca.chainID, fromAddr) with
    | none =>
      simp only [flat_look, stored, storedResult]
      exact .inl ⟨_, _, rfl, fun _ _ => error_ne_ok⟩
    | some text =>
      simp only [flat_look, stored, storedResult, run_bind, run_parseAmount]
      cases amountResult (some text) with
      | error e => exact .inl ⟨_, _, rfl, fun _ _ => error_ne_ok⟩
      | ok a =>
        by_cases low : a < power
        · simp only [low, if_true, run_bind, run_throw]
          exact .inl ⟨_, _, rfl, fun _ _ => error_ne_ok⟩
        · simp only [low, if_false, run_bind, failing_getState]
          rcases h2 : fails (n + 1) with _ | e
          · simp only [answer, h2, run_bind, run_unmarshalTally]
            rcases tallyOf (find w (ca.chainID, Hnb.getEpochKey epoch)) with _ | _ | tally
            · exact .inl ⟨_, _, rfl, fun _ _ => error_ne_ok⟩
            · exact .inl ⟨_, _, rfl, fun _ _ => error_ne_ok⟩
            · exact .inr ⟨trivial, _, rfl, .inr ⟨rfl, trivial⟩⟩
          · simp only [answer, h2]
            refine .inr ⟨trivial, w, rfl, .inl ⟨rfl, rfl, fun tally hfo => ?_⟩⟩
            rw [hfo]
            exact ⟨_, rfl⟩
  · simp only [answer, h1]
    exact .inl ⟨_, _, rfl, fun hab => absurd hab (Option.some_ne_none e)⟩

theorem failing_saveTokenFromInfo (vi : VoteInfo) :
    ((failing fails).run (Hnb.saveTokenFromInfo ca vi) (w, n)).2.1 =
      if (fails n).isSome then w else (saveFromInfoResult flat ca.chainID vi w).2 := by
  unfold Hnb.saveTokenFromInfo saveFromInfoResult
  simp only [run_bind, failing_getState]
  rcases third : fails n with _ | e
  · simp only [answer, third, run_bind, run_unmarshalRecords, flat_look]
    cases recordsOf (find w (ca.chainID, Hnb.getEpochRecordKey vi.voteEpoch)) <;> rfl
  · simp only [answer, third]
    rfl

theorem failing_getBalance (addr : Bytes) :
    ∃ result, (failing fails).run (Hnb.getBalance ca addr) (w, n) = (result, (w, n + 1)) := by
  simp only [Hnb.getBalance, run_bind, failing_getState, run_orReturn]
  rcases answer fails n (find w (ca.chainID, addr)) with e | _ | text
  · exact ⟨_, rfl⟩
  · exact ⟨_, rfl⟩
  · simp only [run_parseAmount]
    exact ⟨_, rfl⟩

/-- However far the payments get, they touch the accounts of the list only. -/
theorem failing_payBack_frame (vrs : VoteRecords) (key : Bytes)
    (ha : ∀ entry ∈ vrs, recordAccount entry ≠ key) :
    find ((failing fails).run (Hnb.payBack ca vrs) (w, n)).2.1 (ca.chainID, key) =
      find w (ca.chainID, key) := by
  induction vrs generalizing w n with
  | nil => rfl
  | cons entry rest ih =>
    rcases entry with _ | v
    · rfl
    · obtain ⟨result, read⟩ := failing_getBalance fails ca w n (v.fromAddr.getD [])
      simp only [Hnb.payBack, run_bind, read]
      cases result with
      | error e => rfl
      | ok amount =>
        have other : key ≠ v.fromAddr.getD [] := (ha (some v) List.mem_cons_self).symm
        simp only [Hnb.setBalance, failing_putState]
        rw [ih _ _ fun entry hm => ha entry (List.mem_cons_of_mem _ hm), find_insert,
          if_neg (by simpa using other)]

end Failing

/-! ## The sum of a tally -/

variable (tally : Tally)

theorem sumVotes_insert (key : Bytes) (votes : Int64) (hf : key ∉ tally) :
    Hnb.sumVotes (tally.insert key votes) = votes + Hnb.sumVotes tally := by
  simp [Hnb.sumVotes, Finmap.entries_insert_of_notMem hf]

/-- A tally is one candidate's votes and the rest. -/
theorem sumVotes_eq (key : Bytes) :
    Hnb.sumVotes tally = (tally.lookup key).getD 0 + Hnb.sumVotes (tally.erase key) := by
  cases found : tally.lookup key with
  | none =>
    have same : tally.erase key = tally := by
      refine store_ext fun other => ?_
      rw [find_erase]
      split
      · rename_i equal
        rw [equal]
        exact found.symm
      · rfl
    simp [same]
  | some votes =>
    have split : tally = (tally.erase key).insert key votes := by
      refine store_ext fun other => ?_
      rw [find_insert, find_erase]
      split
      · rename_i equal
        rw [equal]
        exact found
      · rfl
    conv_lhs => rw [split]
    rw [sumVotes_insert _ _ _ Finmap.notMem_erase_self, Option.getD_some]

theorem sumVotes_addVotes (candidate : Bytes) (power : Int64) :
    Hnb.sumVotes (Hnb.addVotes tally candidate power) = Hnb.sumVotes tally + power := by
  set key := Octets.encodeHex candidate with named
  have reset : Hnb.addVotes tally candidate power =
      (tally.erase key).insert key ((tally.lookup key).getD 0 + power) := by
    refine store_ext fun other => ?_
    rw [Hnb.addVotes, ← named, find_insert, find_insert, find_erase]
    split <;> rfl
  rw [reset, sumVotes_insert _ _ _ Finmap.notMem_erase_self, sumVotes_eq tally key]
  ac_rfl

variable {tally : Tally} {paid : UInt64 → VoteRecords} {vrs : VoteRecords} {tx : Transaction}
  {vi : VoteInfo}

/-- Candidates are written in hex, so a tally can be read back after a vote. -/
theorem safeKeys_addVotes (safe : SafeKeys tally) (candidate : Bytes) (power : Int64) :
    SafeKeys (Hnb.addVotes tally candidate power) := by
  intro key hm
  rcases Finmap.mem_insert.mp (Finmap.mem_keys.mp hm) with rfl | old
  · exact Json.encodeHex_safe candidate
  · exact safe key (Finmap.mem_keys.mpr old)

/-! ## The books of one epoch -/

/-- What stands under the two keys of an epoch, and that it agrees. `paid` lists what voters have
been debited for votes in the epoch. -/
structure Books (paid : VoteRecords) (w : World) (epoch : UInt64) (tally : Tally)
    (vrs : VoteRecords) : Prop where
  tallied : tallyOf (find w (.hnb, Hnb.getEpochKey epoch)) = some (some tally)
  recorded : recordsOf (find w (.hnb, Hnb.getEpochRecordKey epoch)) = some vrs
  safe : SafeKeys tally
  sum : Hnb.sumVotes tally = Int64.ofInt (listed vrs)
  accounts : ∀ entry ∈ vrs, ¬ VoteKey (recordAccount entry)
  covered : (vrs : Multiset (Option VoteRecord)) ≤ paid

/-- `GetVoteSum` and the record list tell the same, and every record has its own debit. -/
def Balanced (paid : UInt64 → VoteRecords) (w : World) : Prop :=
  ∀ epoch, ∃ vrs, recordsOf (find w (.hnb, Hnb.getEpochRecordKey epoch)) = some vrs ∧
    (∀ ca : ContractApi, ca.chainID = .hnb →
      runFlat (Hnb.getVoteSum ca epoch) w = (.ok (Int64.ofInt (listed vrs)), w)) ∧
    (vrs : Multiset (Option VoteRecord)) ≤ paid epoch

def Kept (paid : UInt64 → VoteRecords) (w : World) : Prop :=
  ∀ epoch, ∃ tally vrs, Books (paid epoch) w epoch tally vrs

theorem runFlat_getVoteSum (ca : ContractApi) (chain : ca.chainID = .hnb) {w : World}
    {epoch : UInt64} (tallied : tallyOf (find w (.hnb, Hnb.getEpochKey epoch)) =
      some (some tally)) : runFlat (Hnb.getVoteSum ca epoch) w = (.ok (Hnb.sumVotes tally), w) := by
  have read : tallyOf (flat.look w (ca.chainID, Hnb.getEpochKey epoch)) =
      some (some tally) := by
    rw [chain]
    exact tallied
  simp only [Hnb.getVoteSum, run_bind, runOn_getState, run_unmarshalTally, read]
  rfl

theorem Kept.balanced {w : World} (kept : Kept paid w) : Balanced paid w := by
  intro epoch
  obtain ⟨tally, vrs, books⟩ := kept epoch
  refine ⟨vrs, books.recorded, fun ca chain => ?_, books.covered⟩
  rw [runFlat_getVoteSum ca chain books.tallied, books.sum]

/-- The books do not depend on anything but the two keys. -/
theorem Books.congr {paid paid' : VoteRecords} {w w' : World} {epoch : UInt64}
    (books : Books paid w epoch tally vrs)
    (ht : find w' (.hnb, Hnb.getEpochKey epoch) = find w (.hnb, Hnb.getEpochKey epoch))
    (hro : find w' (.hnb, Hnb.getEpochRecordKey epoch) = find w
      (.hnb, Hnb.getEpochRecordKey epoch))
    (more : (paid : Multiset (Option VoteRecord)) ≤ paid') : Books paid' w' epoch tally vrs where
  tallied := by rw [ht, books.tallied]
  recorded := by rw [hro, books.recorded]
  safe := books.safe
  sum := books.sum
  accounts := books.accounts
  covered := books.covered.trans more

/-! ## Runs -/

/-- The call of one transaction, on a state whose reads may fail. -/
def execute (fails : Nat → Option Err) (w : World) (tx : Transaction) : World :=
  ((failing fails).run (invoke (contractApi .hnb tx)) (w, 0)).2.1

/-- The voter's balance was lowered by the voting power. -/
def debited (w w' : World) (vi : VoteInfo) : Bool :=
  match vi.fromAddr with
  | none => false
  | some addr =>
    match amountAt w (.hnb, addr) with
    | none => false
    | some amount => amountAt w' (.hnb, addr) = some (amount - vi.votingPower)

/-- The debits made for votes, epoch by epoch, after one more vote. -/
def charge (paid : UInt64 → VoteRecords) (w w' : World) (vi : VoteInfo) : UInt64 → VoteRecords :=
  if debited w w' vi then
    Function.update paid vi.voteEpoch (paid vi.voteEpoch ++ [some ⟨vi.fromAddr, vi.votingPower⟩])
  else paid

/-- Runs of VOTE and UNFREEZE transactions in which every vote meets a condition, with the debits
made on the way. -/
inductive Run (meets : (Nat → Option Err) → World → VoteInfo → Prop) (start : World) :
    (UInt64 → VoteRecords) → World → Prop
  | start : Run meets start (fun _ => []) start
  | vote {paid : UInt64 → VoteRecords} {w : World} {vi : VoteInfo} (tx : Transaction)
      (fails : Nat → Option Err) (before : Run meets start paid w)
      (decoded : decodeAction .hnb tx.payload = .ok (.vote vi))
      (account : ∀ addr, vi.fromAddr = some addr → ¬ VoteKey addr) (met : meets fails w vi) :
      Run meets start (charge paid w (execute fails w tx) vi) (execute fails w tx)
  | unfreeze {paid : UInt64 → VoteRecords} {w : World} {epochNo : UInt64} (tx : Transaction)
      (fails : Nat → Option Err) (before : Run meets start paid w)
      (decoded : decodeAction .hnb tx.payload = .ok (.unfreeze epochNo)) :
      Run meets start paid (execute fails w tx)

/-- A vote that gets past its checks reads the tally (its second read) and the record list (its
third): both reads fail or none does. -/
def Together (fails : Nat → Option Err) (w : World) (vi : VoteInfo) : Prop :=
  VotePasses (fun key => find w (.hnb, key)) vi → fails 0 = none →
    ((fails 1).isSome ↔ (fails 2).isSome)

theorem le_charge (paid : UInt64 → VoteRecords) (w w' : World) (vi : VoteInfo) (epoch : UInt64) :
    (paid epoch : Multiset (Option VoteRecord)) ≤ charge paid w w' vi epoch := by
  unfold charge
  split
  · by_cases same : epoch = vi.voteEpoch
    · subst same
      rw [Function.update_self, ← Multiset.coe_add]
      exact Multiset.le_add_right _ _
    · rw [Function.update_of_ne same]
  · exact le_refl _

theorem execute_eq {action : Action} (fails : Nat → Option Err) (w : World)
    (hd : decodeAction .hnb tx.payload = .ok action) : execute fails w tx =
      ((failing fails).run (perform (contractApi .hnb tx) action) (w, 0)).2.1 := by
  have same : decodeAction (contractApi .hnb tx).chainID (contractApi .hnb tx).args = .ok action :=
    hd
  rw [execute, invoke_eq, same]

/-- A vote that passes its checks and whose first read succeeds goes on to its two other reads. -/
theorem execute_passing {w : World} (fails : Nat → Option Err)
    (hd : decodeAction .hnb tx.payload = .ok (.vote vi))
    (hp : VotePasses (fun key => find w (.hnb, key)) vi) (h1 : fails 0 = none) :
    ∃ w', (w' = w ∧ (fails 1).isSome ∨ saveTotalResult flat .hnb vi w = (.ok (), w') ∧
      fails 1 = none) ∧ execute fails w tx = if (fails 2).isSome then w'
      else (saveFromInfoResult flat .hnb vi w').2 := by
  obtain ⟨done, total⟩ := (votePasses_iff flat .hnb vi w).mp hp
  rw [execute_eq fails w hd]
  simp only [perform, Hnb.votePro, run_bind]
  rcases failing_saveTokenTotal fails (contractApi .hnb tx) w 0 vi with
    ⟨e, k, _, refused⟩ | ⟨_, w', saved, ho⟩
  · exact absurd total (refused h1 done)
  · refine ⟨w', ?_, ?_⟩
    · rcases ho with ⟨same, h2, _⟩ | saved'
      · exact .inl ⟨same, h2⟩
      · exact .inr saved'
    · rw [saved]
      exact failing_saveTokenFromInfo fails (contractApi .hnb tx) w' 2 vi

/-- Any other vote has no effect. -/
theorem execute_refused {fails : Nat → Option Err} {w : World}
    (hd : decodeAction .hnb tx.payload = .ok (.vote vi))
    (hr : ∃ tally, tallyOf (find w (.hnb, Hnb.getEpochKey vi.voteEpoch)) = some (some tally))
    (hre : ¬ (VotePasses (fun key => find w (.hnb, key)) vi ∧ fails 0 = none)) :
    execute fails w tx = w := by
  have hp := (votePasses_iff flat .hnb vi w).mpr
  rw [execute_eq fails w hd]
  simp only [perform, Hnb.votePro, run_bind]
  rcases failing_saveTokenTotal fails (contractApi .hnb tx) w 0 vi with
    ⟨e, k, failed, _⟩ | ⟨first, w', _, ⟨_, _, checked⟩ | ⟨total, _⟩⟩
  · rw [failed]
  · obtain ⟨tally, hfo⟩ := hr
    exact absurd ⟨hp (checked tally hfo), first⟩ hre
  · exact absurd ⟨hp ⟨w', total⟩, first⟩ hre

/-- A vote whose reads fail together has no effect, or the effect it has without failures. -/
theorem execute_vote {fails : Nat → Option Err} {w : World}
    (hd : decodeAction .hnb tx.payload = .ok (.vote vi)) (together : Together fails w vi)
    (hr : ∃ tally, tallyOf (find w (.hnb, Hnb.getEpochKey vi.voteEpoch)) =
      some (some tally)) :
    execute fails w tx = w ∨ ∃ w', saveTotalResult flat .hnb vi w = (.ok (), w') ∧
        execute fails w tx = (saveFromInfoResult flat .hnb vi w').2 := by
  by_cases reads : VotePasses (fun key => find w (.hnb, key)) vi ∧ fails 0 = none
  · have both := together reads.1 reads.2
    obtain ⟨w', ho, done⟩ := execute_passing fails hd reads.1 reads.2
    rcases ho with ⟨rfl, h2⟩ | ⟨total, h2⟩
    · exact .inl (done.trans (if_pos (both.mp h2)))
    · refine .inr ⟨w', total, done.trans (if_neg ?_)⟩
      rw [← both, h2]
      simp
  · exact .inl (execute_refused hd hr reads)

/-- What a vote with its full effect leaves under the keys that the books are about. -/
structure Voted (w w' : World) (vi : VoteInfo) (addr : Bytes) (amount : Int64) (tally : Tally)
    (vrs : VoteRecords) : Prop where
  tallied : find w' (.hnb, Hnb.getEpochKey vi.voteEpoch) = some (encodeTally tally)
  recorded : find w' (.hnb, Hnb.getEpochRecordKey vi.voteEpoch) = some (encodeVoteRecords vrs)
  payer : amountAt w' (.hnb, addr) = some amount
  others : ∀ epoch, epoch ≠ vi.voteEpoch →
    find w' (.hnb, Hnb.getEpochKey epoch) = find w (.hnb, Hnb.getEpochKey epoch) ∧
      find w' (.hnb, Hnb.getEpochRecordKey epoch) = find w (.hnb, Hnb.getEpochRecordKey epoch)

theorem voted (w : World) (vi : VoteInfo) {addr : Bytes} (amount : Int64) (tally : Tally)
    (vrs : VoteRecords) (account : ¬ VoteKey addr) :
    Voted w (((w.insert (.hnb, Hnb.getEpochKey vi.voteEpoch)
      (encodeTally tally)).insert (.hnb, addr)
        (Decimal.formatInt amount)).insert (.hnb, Hnb.getEpochRecordKey vi.voteEpoch)
        (encodeVoteRecords vrs)) vi addr amount tally vrs := by
  have notTally : ∀ epoch, Hnb.getEpochKey epoch ≠ addr := fun epoch same =>
    account ⟨epoch, .inl same.symm⟩
  have notRecord : ∀ epoch, Hnb.getEpochRecordKey epoch ≠ addr := fun epoch same =>
    account ⟨epoch, .inr same.symm⟩
  constructor
  · simp [find_insert, epochKey_ne_recordKey, notTally]
  · simp [find_insert]
  · simp [amountAt, find_insert, (notRecord _).symm]
  · intro epoch other
    have ht : Hnb.getEpochKey epoch ≠ Hnb.getEpochKey vi.voteEpoch := fun same =>
      other (getEpochKey_injective same)
    have hro : Hnb.getEpochRecordKey epoch ≠ Hnb.getEpochRecordKey vi.voteEpoch := fun same =>
      other (getEpochRecordKey_injective same)
    constructor
    · simp [find_insert, epochKey_ne_recordKey, notTally, ht]
    · simp [find_insert, (epochKey_ne_recordKey _ _).symm, notRecord, hro]

/-- Such a vote enters the tally, the record list and the debits alike. -/
theorem Voted.kept {w w' : World} {addr candidate : Bytes} {amount : Int64}
    (haf : Voted w w' vi addr (amount - vi.votingPower)
      (Hnb.addVotes tally candidate vi.votingPower) (vrs ++ [some ⟨vi.fromAddr, vi.votingPower⟩]))
    (kept : Kept paid w) (books : Books (paid vi.voteEpoch) w vi.voteEpoch tally vrs)
    (payer : vi.fromAddr = some addr) (account : ¬ VoteKey addr)
    (held : amountAt w (.hnb, addr) = some amount) : Kept (charge paid w w' vi) w' := by
  have charged : charge paid w w' vi = Function.update paid vi.voteEpoch
      (paid vi.voteEpoch ++ [some ⟨vi.fromAddr, vi.votingPower⟩]) := by
    rw [charge, if_pos]
    simp only [debited, payer, held, haf.payer, decide_true]
  intro epoch
  by_cases same : epoch = vi.voteEpoch
  · subst same
    have safe := safeKeys_addVotes books.safe candidate vi.votingPower
    refine ⟨_, vrs ++ [some ⟨vi.fromAddr, vi.votingPower⟩], ?_, ?_, safe, ?_, ?_, ?_⟩
    · rw [haf.tallied]
      exact decodeTally_encode _ safe
    · rw [haf.recorded]
      exact decodeVoteRecords_encode _
    · rw [sumVotes_addVotes, books.sum, listed_append, Int64.ofInt_add]
      simp [listed, recordPower]
    · intro entry hm
      rcases List.mem_append.mp hm with old | new
      · exact books.accounts entry old
      · rw [List.mem_singleton.mp new]
        simpa [recordAccount, payer] using account
    · rw [charged, Function.update_self, ← Multiset.coe_add, ← Multiset.coe_add]
      exact add_le_add_left books.covered _
  · obtain ⟨tally', vrs', books'⟩ := kept epoch
    obtain ⟨ht, hro⟩ := haf.others epoch same
    exact ⟨tally', vrs', books'.congr ht hro (le_charge paid w w' vi epoch)⟩

theorem kept_vote {w w' : World} (kept : Kept paid w)
    (account : ∀ addr, vi.fromAddr = some addr → ¬ VoteKey addr)
    (hs : saveTotalResult flat .hnb vi w = (.ok (), w')) :
    Kept (charge paid w (saveFromInfoResult flat .hnb vi w').2 vi)
      (saveFromInfoResult flat .hnb vi w').2 := by
  obtain ⟨tally, vrs, books⟩ := kept vi.voteEpoch
  have stillListed := (recordsOf_after_debit flat hs).trans books.recorded
  obtain ⟨candidate, addr, amount, tally', _, payer, _, _, read, _, tallied, rfl⟩ :=
    (saveTotalResult_ok_iff flat .hnb vi w w').mp hs
  obtain rfl : tally = tally' := by simpa [books.tallied] using tallied
  have held : amountAt w (.hnb, addr) = some amount := amountOf_of_read read
  simp only [saveFromInfoResult, stillListed]
  exact (voted w vi _ _ _ (account addr payer)).kept kept books payer (account addr payer) held

/-- Deleting both keys of an epoch clears its books. -/
theorem Kept.cleared {w : World} (kept : Kept paid w) (epochNo : UInt64) :
    Kept paid ((w.erase (.hnb, Hnb.getEpochRecordKey epochNo)).erase
      (.hnb, Hnb.getEpochKey epochNo)) := by
  intro epoch
  by_cases same : epoch = epochNo
  · subst same
    refine ⟨∅, [], ?_, ?_, ?_, rfl, by simp, Multiset.zero_le _⟩
    · simp [find_erase, tallyOf]
    · simp [find_erase, recordsOf]
    · intro key hm
      simp at hm
  · obtain ⟨tally, vrs, books⟩ := kept epoch
    have ht : Hnb.getEpochKey epoch ≠ Hnb.getEpochKey epochNo := fun he =>
      same (getEpochKey_injective he)
    have hro : Hnb.getEpochRecordKey epoch ≠ Hnb.getEpochRecordKey epochNo := fun he =>
      same (getEpochRecordKey_injective he)
    refine ⟨tally, vrs, books.congr ?_ ?_ (le_refl _)⟩
    · simp [find_erase, epochKey_ne_recordKey, ht]
    · simp [find_erase, (epochKey_ne_recordKey _ _).symm, hro]

/-- UNFREEZE, wherever it fails, keeps both books of an epoch or clears them. -/
theorem kept_unfreeze {w : World} {epochNo : UInt64}
    (kept : Kept paid w) (fails : Nat → Option Err) (tx : Transaction)
    (hd : decodeAction .hnb tx.payload = .ok (.unfreeze epochNo)) :
    Kept paid (execute fails w tx) := by
  obtain ⟨tally, vrs, books⟩ := kept epochNo
  have chain : (contractApi .hnb tx).chainID = .hnb := rfl
  rw [execute_eq fails w hd]
  simp only [perform, Hnb.unFreezePro, run_bind, failing_getState, chain]
  rcases h1 : fails 0 with _ | e
  · simp only [answer, h1, run_bind, run_unmarshalRecords, books.recorded, Option.elim_some]
    have frame : ∀ key, VoteKey key →
        find ((failing fails).run (Hnb.payBack (contractApi .hnb tx) vrs) (w, 0 + 1)).2.1
          (.hnb, key) = find w (.hnb, key) := fun key hv =>
      failing_payBack_frame fails (contractApi .hnb tx) w (0 + 1) vrs key
        fun entry hm same => books.accounts entry hm (same ▸ hv)
    generalize (failing fails).run (Hnb.payBack (contractApi .hnb tx) vrs) (w, 0 + 1) = r
      at frame ⊢
    obtain ⟨result, w', k⟩ := r
    have kept' : Kept paid w' := by
      intro epoch
      obtain ⟨tally', vrs', books'⟩ := kept epoch
      exact ⟨tally', vrs', books'.congr (frame _ ⟨epoch, .inl rfl⟩)
        (frame _ ⟨epoch, .inr rfl⟩) (le_refl _)⟩
    cases result with
    | error e => exact kept'
    | ok _ =>
      exact kept'.cleared epochNo
  · simp only [answer, h1]
    exact kept

theorem kept_fresh {start : World} (hf : ∀ key, VoteKey key → find start (.hnb, key) = none) :
    Kept (fun _ => []) start := by
  intro epoch
  refine ⟨∅, [], ?_, ?_, ?_, rfl, by simp, le_refl _⟩
  · rw [hf _ ⟨epoch, .inl rfl⟩, tallyOf]
  · rw [hf _ ⟨epoch, .inr rfl⟩, recordsOf]
  · intro key hm
    simp at hm

theorem kept_of_run {start w : World} (run : Run Together start paid w)
    (hf : ∀ key, VoteKey key → find start (.hnb, key) = none) : Kept paid w := by
  induction run with
  | start => exact kept_fresh hf
  | @vote paid w vi tx fails hb hd account met ih =>
    obtain ⟨tally, _, books⟩ := ih vi.voteEpoch
    rcases execute_vote hd met ⟨tally, books.tallied⟩ with same | ⟨w', hs, done⟩
    · rw [same]
      intro epoch
      obtain ⟨tally', vrs', books'⟩ := ih epoch
      exact ⟨tally', vrs', books'.congr rfl rfl (le_charge paid w w vi epoch)⟩
    · rw [done]
      exact kept_vote ih account hs
  | unfreeze tx fails hb hd ih => exact kept_unfreeze ih fails tx hd

/-- From a state without votes, in every run whose votes read tally and record list together or not
at all, the books of every epoch agree. -/
theorem balanced_of_together {start w : World} {paid : UInt64 → VoteRecords}
    (run : Run Together start paid w)
    (hf : ∀ key, VoteKey key → find start (.hnb, key) = none) : Balanced paid w :=
  (kept_of_run run hf).balanced

theorem founder_account : ¬ VoteKey founder.val := fun hv => absurd hv.head (by decide)

theorem genesis_fresh (key : Bytes) (hv : VoteKey key) : find genesis (.hnb, key) = none := by
  rw [find_genesis, if_neg]
  intro same
  exact founder_account (same ▸ hv)

def foundersVote : VoteInfo :=
  { fromAddr := some founder.val, candidate := some [1], votingPower := 5, voteEpoch := 1 }

theorem foundersVote_account (addr : Bytes) (payer : foundersVote.fromAddr = some addr) :
    ¬ VoteKey addr := by
  rw [foundersVote, Option.some.injEq] at payer
  exact payer ▸ founder_account

theorem foundersVote_decoded :
    decodeAction .hnb (carrying .hnb founder (.vote foundersVote)).payload =
    .ok (.vote foundersVote) :=
  decodeAction_carrying founder _

theorem foundersVote_balanced : ∃ paid w, Run Together genesis paid w ∧
    recordsOf (find w (.hnb, Hnb.getEpochRecordKey 1)) = some [some ⟨some founder.val, 5⟩] ∧
    Balanced paid w := by
  have run : Run Together genesis _ (execute (fun _ => none) genesis
      (carrying .hnb founder (.vote foundersVote))) :=
    .vote _ (fun _ => none) .start foundersVote_decoded foundersVote_account fun _ _ => Iff.rfl
  exact ⟨_, _, run, by decide +kernel, balanced_of_together run genesis_fresh⟩

/-- The second read fails, and no other. -/
def tallyUnread : Nat → Option Err
  | 1 => some .read
  | _ => none

/-- When only the read of the tally fails, the vote is recorded and nobody pays for it. -/
theorem unpaidVote_recorded : ∃ paid w, Run (fun _ _ _ => True) genesis paid w ∧
    recordsOf (find w (.hnb, Hnb.getEpochRecordKey 1)) = some [some ⟨some founder.val, 5⟩] ∧
    runFlat (Hnb.getVoteSum (getContractApi .hnb) 1) w = (.ok 0, w) ∧
    amountAt w (.hnb, founder.val) = some 10000000 ∧ ¬ Balanced paid w := by
  have run : Run (fun _ _ _ => True) genesis _
      (execute tallyUnread genesis (carrying .hnb founder (.vote foundersVote))) :=
    .vote _ tallyUnread .start foundersVote_decoded foundersVote_account trivial
  have hrc :
    recordsOf (find (execute tallyUnread genesis (carrying .hnb founder (.vote foundersVote)))
      (.hnb, Hnb.getEpochRecordKey 1)) = some [some ⟨some founder.val, 5⟩] := by decide +kernel
  have tallied :
    tallyOf (find (execute tallyUnread genesis (carrying .hnb founder (.vote foundersVote)))
      (.hnb, Hnb.getEpochKey 1)) = some (some ∅) := by decide +kernel
  have sum := runFlat_getVoteSum (getContractApi .hnb) rfl tallied
  refine ⟨_, _, run, hrc, sum, by decide +kernel, fun balanced => ?_⟩
  obtain ⟨vrs, hfo, total, _⟩ := balanced 1
  obtain rfl := Option.some.inj (hrc.symm.trans hfo)
  have he := sum.symm.trans (total (getContractApi .hnb) rfl)
  rw [Prod.mk.injEq, Except.ok.injEq] at he
  exact absurd he.1 (by decide)

end HNBChain.Audit.Guarantees.VoteBooks
