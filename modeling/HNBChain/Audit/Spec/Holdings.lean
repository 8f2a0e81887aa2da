import HNBChain.Audit.Source.AppMgr

/-!
# The two tokens as balances and recorded votes

What the contracts are for, without texts and keys: every account has a balance of each token, and
every epoch has a list of recorded votes. `holdings` reads that off a state, and `invoke_holdings`
says that a successful call does to it exactly what `act` does.

The reading needs no assumption on the keys. A key that holds a tally or a record list has balance
zero, and a key that holds a balance has no records, so the two uses of the HNB key space meet in
one place only: UNFREEZE deletes whatever stands under the epoch's tally key.
-/
namespace HNBChain.Audit.Spec

open Lib Source Function Option

/-- A key of the form `epoch#n` or `record_epoch#n`. -/
def VoteKey (key : Bytes) : Prop :=
  ∃ epoch, key = Hnb.getEpochKey epoch ∨ key = Hnb.getEpochRecordKey epoch

/-- Vote keys start with the letter `e` or `r`. -/
theorem VoteKey.head {key : Bytes} (hv : VoteKey key) : key.head? = some 101 ∨
    key.head? = some 114 := by
  obtain ⟨epoch, rfl | rfl⟩ := hv
  · exact .inl rfl
  · exact .inr rfl

@[ext] structure Holdings where
  bal : Key → Int64
  recs : UInt64 → VoteRecords

def holdings (look : Key → Option Bytes) : Holdings where
  bal key := clippedAmount (look key)
  recs epoch := (recordsOf (look (.hnb, Hnb.getEpochRecordKey epoch))).getD []

def recordPower (entry : Option VoteRecord) : Int64 := (entry.map VoteRecord.votingPower).getD 0

namespace Holdings

def setBal (h : Holdings) (key : Key) (amount : Int64) : Holdings :=
  { h with bal := update h.bal key amount }

def setRecs (h : Holdings) (epoch : UInt64) (vrs : VoteRecords) : Holdings :=
  { h with recs := update h.recs epoch vrs }

def credit (h : Holdings) (key : Key) (amount : Int64) : Holdings :=
  h.setBal key (h.bal key + amount)

def move (h : Holdings) (t : Transfer) : Holdings :=
    (h.credit t.src (-t.debit)).credit t.dst t.credit

def vote (h : Holdings) (vi : VoteInfo) : Holdings :=
  (h.credit (.hnb, vi.fromAddr.getD []) (-vi.votingPower)).setRecs vi.voteEpoch
    (h.recs vi.voteEpoch ++ [some ⟨vi.fromAddr, vi.votingPower⟩])

def pay : VoteRecords → Holdings → Holdings
  | [], h => h
  | entry :: rest, h => pay rest (h.credit (.hnb, recordAccount entry) (recordPower entry))

def unfreeze (h : Holdings) (epoch : UInt64) : Holdings :=
  ((pay (h.recs epoch) h).setRecs epoch []).setBal (.hnb, Hnb.getEpochKey epoch) 0

/-- What a successful call does. -/
def act (h : Holdings) (chain : ChainID) (sender : Bytes) : Action → Holdings
  | .same hx => h.move (hx.transfer chain sender)
  | .diff hx => h.move (hx.transfer chain sender)
  | .vote vi => h.vote vi
  | .unfreeze epochNo => h.unfreeze epochNo
  | .idle => h

/-- What a call has checked when it succeeds. -/
def Admits (h : Holdings) (chain : ChainID) (sender : Bytes) : Action → Prop
  | .same hx => sender ≠ hx.outputAddr ∧ hx.amount ≤ h.bal (chain, sender)
  | .diff hx => hx.inAmount ≤ h.bal (chain, sender)
  | .vote vi =>
    chain = .hnb ∧ vi.candidate.isSome ∧ vi.fromAddr.isSome ∧ vi.votingPower ≠ 0 ∧
      vi.voteEpoch ≠ 0 ∧ vi.votingPower ≤ h.bal (.hnb, vi.fromAddr.getD [])
  | .unfreeze epochNo => chain = .hnb ∧ ∀ entry ∈ h.recs epochNo, entry.isSome
  | .idle => True

variable (h : Holdings) (key : Key) (amount : Int64)

@[simp] theorem setBal_bal : (h.setBal key amount).bal = update h.bal key amount := rfl

@[simp] theorem setBal_recs : (h.setBal key amount).recs = h.recs := rfl

@[simp] theorem setRecs_bal (epoch : UInt64) (vrs : VoteRecords) :
    (h.setRecs epoch vrs).bal = h.bal := rfl

@[simp] theorem setRecs_recs (epoch : UInt64) (vrs : VoteRecords) :
    (h.setRecs epoch vrs).recs = update h.recs epoch vrs := rfl

@[simp] theorem credit_recs : (h.credit key amount).recs = h.recs := rfl

@[simp] theorem credit_bal :
    (h.credit key amount).bal = update h.bal key (h.bal key + amount) := rfl

@[simp] theorem pay_recs (vrs : VoteRecords) (h : Holdings) : (pay vrs h).recs = h.recs := by
  induction vrs generalizing h with
  | nil => rfl
  | cons entry rest ih => exact ih _

/-- Paying leaves the accounts that no record names. -/
theorem pay_bal_of_notMem (vrs : VoteRecords) (h : Holdings) (key : Key)
    (unnamed : ∀ entry ∈ vrs, (ChainID.hnb, recordAccount entry) ≠ key) :
    (pay vrs h).bal key = h.bal key := by
  induction vrs generalizing h with
  | nil => rfl
  | cons entry rest ih =>
    rw [pay, ih _ fun other hm => unnamed other (List.mem_cons_of_mem entry hm), credit_bal,
      update_of_ne (unnamed entry List.mem_cons_self).symm]

end Holdings

section Reading

variable {σ : Type} (m : Memory Key Bytes σ)

/-- Writing an amount where an amount can be read is setting a balance. -/
theorem holdings_put_amount (key : Key) (n : Int64) (s : σ)
    (plain : key.1 = .hgs ∨ (amountOf (m.look s key)).isSome) :
    holdings (m.look (m.put key (Decimal.formatInt n) s)) = (holdings (m.look s)).setBal key n := by
  ext1
  · funext other
    simp only [holdings, Holdings.setBal_bal, m.look_put]
    by_cases same : other = key
    · subst same
      rw [if_pos rfl, update_self, clippedAmount_of_amountOf]
      simp [amountOf]
    · rw [if_neg same, update_of_ne same]
  · funext epoch
    simp only [holdings, Holdings.setBal_recs, m.look_put]
    split
    · rename_i same
      subst same
      rcases plain with other | hr
      · cases other
      · obtain ⟨amount, read⟩ := isSome_iff_exists.mp hr
        rw [recordsOf_number]
        cases stored : m.look s (.hnb, Hnb.getEpochRecordKey epoch) with
        | none => rfl
        | some text =>
          rw [stored] at read
          rw [recordsOf_of_readInt read]
    · rfl

variable (epoch : UInt64)

/-- Writing a tally over a tally changes nothing. -/
theorem holdings_put_tally (tally : Tally) (s : σ) {old : Option Tally}
    (hf : tallyOf (m.look s (.hnb, Hnb.getEpochKey epoch)) = some old) :
    holdings (m.look (m.put (.hnb, Hnb.getEpochKey epoch) (encodeTally tally) s)) =
      holdings (m.look s) := by
  ext1
  · funext other
    simp only [holdings, m.look_put]
    split
    · rename_i same
      rw [same, clippedAmount_of_tallyOf hf, clippedAmount, parseInt_encodeTally]
    · rfl
  · funext other
    have hdi : ((.hnb, Hnb.getEpochRecordKey other) : Key) ≠ (.hnb,
        Hnb.getEpochKey epoch) := by
      simpa using (epochKey_ne_recordKey epoch other).symm
    simp only [holdings, m.look_put, if_neg hdi]

theorem recordKey_eq_iff (epoch other : UInt64) :
    ((.hnb, Hnb.getEpochRecordKey other) : Key) = (.hnb, Hnb.getEpochRecordKey epoch) ↔
    other = epoch := by
  simp [getEpochRecordKey_injective.eq_iff]

theorem holdings_put_records (vrs : VoteRecords) (s : σ) {old : VoteRecords}
    (hl : recordsOf (m.look s (.hnb, Hnb.getEpochRecordKey epoch)) = some old) :
    holdings (m.look (m.put (.hnb, Hnb.getEpochRecordKey epoch) (encodeVoteRecords vrs) s)) =
      (holdings (m.look s)).setRecs epoch vrs := by
  have hw : recordsOf (some (encodeVoteRecords vrs)) = some vrs := decodeVoteRecords_encode vrs
  ext1
  · funext other
    simp only [holdings, Holdings.setRecs_bal, m.look_put]
    split
    · rename_i same
      rw [same, clippedAmount_of_recordsOf hl, clippedAmount_of_recordsOf hw]
    · rfl
  · funext other
    simp only [holdings, Holdings.setRecs_recs, m.look_put, recordKey_eq_iff]
    by_cases same : other = epoch
    · rw [if_pos same, same, update_self, hw, getD_some]
    · rw [if_neg same, update_of_ne same]

theorem holdings_del_records (s : σ)
    (he : clippedAmount (m.look s (.hnb, Hnb.getEpochRecordKey epoch)) = 0) :
    holdings (m.look (m.del (.hnb, Hnb.getEpochRecordKey epoch) s)) =
    (holdings (m.look s)).setRecs epoch [] := by
  ext1
  · funext other
    simp only [holdings, Holdings.setRecs_bal, m.look_del]
    split
    · rename_i same
      rw [same, he, clippedAmount]
    · rfl
  · funext other
    simp only [holdings, Holdings.setRecs_recs, m.look_del, recordKey_eq_iff]
    by_cases same : other = epoch
    · rw [if_pos same, same, update_self, recordsOf, getD_some]
    · rw [if_neg same, update_of_ne same]

theorem holdings_del_tally (s : σ) : holdings (m.look (m.del (.hnb, Hnb.getEpochKey epoch) s)) =
      (holdings (m.look s)).setBal (.hnb, Hnb.getEpochKey epoch) 0 := by
  ext1
  · funext other
    simp only [holdings, Holdings.setBal_bal, m.look_del]
    by_cases same : other = (.hnb, Hnb.getEpochKey epoch)
    · rw [if_pos same, same, update_self, clippedAmount]
    · rw [if_neg same, update_of_ne same]
  · funext other
    have hdi : ((.hnb, Hnb.getEpochRecordKey other) : Key) ≠ (.hnb,
        Hnb.getEpochKey epoch) := by
      simpa using (epochKey_ne_recordKey epoch other).symm
    simp only [holdings, Holdings.setBal_recs, m.look_del, if_neg hdi]

end Reading

section Calls

variable {σ : Type} (m : Memory Key Bytes σ)

/-- A token movement between two keys. -/
theorem holdings_apply (t : Transfer) (held had : Int64) (s : σ) (hd : t.src ≠ t.dst)
    (hh : amountOf (m.look s t.src) = some held)
    (has : amountOf (m.look s t.dst) = some had ∨ t.dst.1 = .hgs ∧
      clippedAmount (m.look s t.dst) = had) :
    holdings (m.look (t.apply m held had s)) = (holdings (m.look s)).move t := by
  have hde := holdings_put_amount m t.src (held - t.debit) s (.inr (by rw [hh]; rfl))
  have hu : ∀ text, m.look (m.put t.src text s) t.dst = m.look s t.dst := fun text =>
    m.look_put_ne text s hd.symm
  have plain : t.dst.1 = .hgs ∨
      (amountOf (m.look (m.put t.src (Decimal.formatInt (held - t.debit)) s) t.dst)).isSome := by
    rw [hu]
    rcases has with hr | ⟨hgs, _⟩
    · exact .inr (by rw [hr]; rfl)
    · exact .inl hgs
  have had_eq : (holdings (m.look s)).bal t.dst = had := by
    rcases has with hr | ⟨_, clipped⟩
    · exact clippedAmount_of_amountOf hr
    · exact clipped
  have held_eq : (holdings (m.look s)).bal t.src = held := clippedAmount_of_amountOf hh
  rw [Transfer.apply, holdings_put_amount m _ _ _ plain, hde, Holdings.move, Holdings.credit,
    Holdings.credit, held_eq, Holdings.setBal_bal, update_of_ne hd.symm, had_eq,
    Int64.sub_eq_add_neg]

/-- Paying the records from the front, as far as it gets. -/
theorem holdings_payResult (vrs : VoteRecords) (s : σ) : ∃ front back, vrs = front ++ back ∧
      holdings (m.look (payResult m .hnb vrs s).2) = Holdings.pay front (holdings (m.look s)) ∧
      ((payResult m .hnb vrs s).1 = .ok () → back = [] ∧ ∀ entry ∈ vrs, entry.isSome ∧
        (amountOf (m.look s (.hnb, recordAccount entry))).isSome) := by
  induction vrs generalizing s with
  | nil => exact ⟨[], [], rfl, rfl, by simp⟩
  | cons entry rest ih =>
    rcases entry with _ | v
    · exact ⟨[], _, rfl, rfl, by simp [payResult]⟩
    · cases read : amountResult (m.look s (.hnb, v.fromAddr.getD [])) with
      | error e =>
        exact ⟨[], _, rfl, by simp [payResult, read, Holdings.pay], by simp [payResult, read]⟩
      | ok amount =>
        have hr := (amountResult_ok_iff _ amount).mp read
        have isReadable : (amountOf (m.look s (.hnb, v.fromAddr.getD []))).isSome := by
          rw [hr]
          rfl
        obtain ⟨front, back, hs, paid, hwh⟩ := ih (m.put (.hnb, v.fromAddr.getD [])
          (Decimal.formatInt (amount + v.votingPower)) s)
        have credited := holdings_put_amount m (.hnb, v.fromAddr.getD []) (amount + v.votingPower) s
          (.inr isReadable)
        have held : (holdings (m.look s)).bal (.hnb, v.fromAddr.getD []) = amount :=
          clippedAmount_of_amountOf hr
        refine ⟨some v :: front, back, by rw [hs]; rfl, ?_, ?_⟩
        · simp only [payResult, read]
          rw [paid, credited, Holdings.pay, Holdings.credit]
          simp only [recordAccount, recordPower, bind_some, map_some, getD_some, held]
        · simp only [payResult, read]
          intro done
          obtain ⟨nothing, hn⟩ := hwh done
          refine ⟨nothing, fun entry hm => ?_⟩
          rcases List.mem_cons.mp hm with rfl | hla
          · exact ⟨rfl, isReadable⟩
          · have later' := hn entry hla
            rw [readable_put m _ _ _ s isReadable] at later'
            exact later'

variable {s s' : σ} (ca : ContractApi)

theorem holdings_same (hx : SameTx) (done : runOn m (perform ca (.same hx)) s = (.ok (), s')) :
    (holdings (m.look s)).Admits ca.chainID ca.fromAddr.val (.same hx) ∧
      holdings (m.look s') =
        (holdings (m.look s)).move (hx.transfer ca.chainID ca.fromAddr.val) := by
  rw [runOn_same, moveResult_ok_iff] at done
  obtain ⟨hac, held, had, heldOk, hen, hadOk, rfl⟩ := done
  have hd : ca.fromAddr.val ≠ hx.outputAddr := by
    intro same
    simp [sameAddrError, same] at hac
  have hh := amountOf_of_heldResult heldOk
  refine ⟨⟨hd, ?_⟩, holdings_apply m _ held had s ?_ hh ?_⟩
  · change hx.amount ≤ clippedAmount _
    rw [clippedAmount_of_amountOf hh]
    exact hen
  · simpa [SameTx.transfer] using hd
  · cases chain : ca.chainID with
    | hnb =>
      rw [chain] at hadOk
      exact .inl ((amountResult_ok_iff _ had).mp hadOk)
    | hgs =>
      rw [chain] at hadOk
      exact .inr ⟨rfl, Except.ok.inj hadOk⟩

theorem holdings_diff (hx : DiffTx) (done : runOn m (perform ca (.diff hx)) s = (.ok (), s')) :
    (holdings (m.look s)).Admits ca.chainID ca.fromAddr.val (.diff hx) ∧
      holdings (m.look s') =
        (holdings (m.look s)).move (hx.transfer ca.chainID ca.fromAddr.val) := by
  rw [runOn_diff, moveResult_ok_iff] at done
  obtain ⟨_, held, had, heldOk, hen, hadOk, rfl⟩ := done
  have hh := amountOf_of_heldResult heldOk
  refine ⟨?_, holdings_apply m _ held had s ?_ hh (.inl ((amountResult_ok_iff _ had).mp hadOk))⟩
  · change hx.inAmount ≤ clippedAmount _
    rw [clippedAmount_of_amountOf hh]
    exact hen
  · cases ca.chainID <;> simp [DiffTx.transfer, ChainID.other]

/-- Tally and debit of a vote. -/
theorem holdings_saveTotal (vi : VoteInfo) (hsa : saveTotalResult m .hnb vi s = (.ok (), s')) :
    (holdings (m.look s)).Admits .hnb [] (.vote vi) ∧ holdings (m.look s') =
        (holdings (m.look s)).credit (.hnb, vi.fromAddr.getD []) (-vi.votingPower) := by
  obtain ⟨candidate, fromAddr, amount, tally, hn, payer, power, epoch, read,
      enough, found, rfl⟩ :=
    (saveTotalResult_ok_iff m .hnb vi s s').mp hsa
  obtain ⟨text, hst, integer⟩ := bind_eq_some_iff.mp read
  have hr := amountOf_of_read read
  have held : (holdings (m.look s)).bal (.hnb, fromAddr) = amount :=
    clippedAmount_of_amountOf hr
  have hap : ((.hnb, fromAddr) : Key) ≠ (.hnb, Hnb.getEpochKey vi.voteEpoch) := by
    intro same
    rw [← same, hst, tallyOf_of_readInt integer] at found
    cases found
  have tallied := holdings_put_tally m vi.voteEpoch
    (Hnb.addVotes tally candidate vi.votingPower) s found
  have plain := m.look_put_ne (encodeTally (Hnb.addVotes tally candidate vi.votingPower)) s hap
  rw [payer, getD_some]
  constructor
  · refine ⟨rfl, by simp [hn], by simp [payer], power, epoch, ?_⟩
    rw [payer, getD_some, held]
    exact enough
  · rw [holdings_put_amount m _ _ _ (.inr (by rw [plain, hr]; rfl)), tallied, Holdings.credit,
      held, Int64.sub_eq_add_neg]

theorem holdings_vote (vi : VoteInfo) (chain : ca.chainID = .hnb)
    (done : runOn m (perform ca (.vote vi)) s = (.ok (), s')) :
    (holdings (m.look s)).Admits ca.chainID ca.fromAddr.val (.vote vi) ∧
      holdings (m.look s') = (holdings (m.look s)).vote vi := by
  obtain ⟨middle, vrs, hsa, hl, rfl⟩ := runOn_vote_ok m ca vi done
  rw [chain] at hsa hl ⊢
  obtain ⟨ha, hde⟩ := holdings_saveTotal m vi hsa
  refine ⟨ha, ?_⟩
  have hb : vrs = (holdings (m.look middle)).recs vi.voteEpoch := by simp [holdings, hl]
  rw [holdings_put_records m _ _ _ hl, hb, hde]
  rfl

theorem holdings_unfreeze (epochNo : UInt64) (chain : ca.chainID = .hnb)
    (done : runOn m (perform ca (.unfreeze epochNo)) s = (.ok (), s')) :
    (holdings (m.look s)).Admits ca.chainID ca.fromAddr.val (.unfreeze epochNo) ∧
      holdings (m.look s') = (holdings (m.look s)).unfreeze epochNo := by
  obtain ⟨vrs, middle, hl, hrs, rfl⟩ := (runOn_unfreeze_ok_iff m ca epochNo s).mp done
  rw [chain] at hl hrs ⊢
  obtain ⟨front, back, hs, paid, hwh⟩ := holdings_payResult m vrs s
  rw [hrs] at paid hwh
  obtain ⟨rfl, hn⟩ := hwh rfl
  have recs : (holdings (m.look s)).recs epochNo = vrs := by simp [holdings, hl]
  rw [List.append_nil] at hs
  subst hs
  -- Nobody is paid under the record key: it holds the list, or there is nothing to pay.
  have unnamed : ∀ entry ∈ vrs,
      (ChainID.hnb, recordAccount entry) ≠ (.hnb, Hnb.getEpochRecordKey epochNo) := by
    intro entry hm same
    have hr := (hn entry hm).2
    rw [same] at hr
    cases stored : m.look s (.hnb, Hnb.getEpochRecordKey epochNo) with
    | none =>
      rw [stored] at hl
      cases hl
      cases hm
    | some text =>
      rw [stored] at hr hl
      obtain ⟨amount, integer⟩ := isSome_iff_exists.mp hr
      rw [recordsOf_of_readInt integer] at hl
      cases hl
  have he : clippedAmount (m.look middle (.hnb, Hnb.getEpochRecordKey epochNo)) = 0 := by
    have kept := Holdings.pay_bal_of_notMem vrs (holdings (m.look s)) _ unnamed
    rw [← paid] at kept
    exact kept.trans (clippedAmount_of_recordsOf hl)
  refine ⟨⟨rfl, fun entry hm => ?_⟩, ?_⟩
  · rw [recs] at hm
    exact (hn entry hm).1
  · rw [holdings_del_tally, holdings_del_records m _ _ he, paid, Holdings.unfreeze, recs]

/-- A successful call passes its checks and changes the holdings as its action says. -/
theorem invoke_holdings (done : runOn m (invoke ca) s = (.ok (), s')) :
    ∃ action, decodeAction ca.chainID ca.args = .ok action ∧
      (holdings (m.look s)).Admits ca.chainID ca.fromAddr.val action ∧
      holdings (m.look s') = (holdings (m.look s)).act ca.chainID ca.fromAddr.val action := by
  rw [runOn_invoke] at done
  cases decoded : decodeAction ca.chainID ca.args with
  | error e => simp [decoded] at done
  | ok action =>
    simp only [decoded] at done
    refine ⟨action, rfl, ?_⟩
    cases action with
    | same hx => exact holdings_same m ca hx done
    | diff hx => exact holdings_diff m ca hx done
    | idle =>
      cases done
      exact ⟨trivial, rfl⟩
    | vote vi => exact holdings_vote m ca vi (chain_of_vote decoded) done
    | unfreeze epochNo => exact holdings_unfreeze m ca epochNo (chain_of_unfreeze decoded) done

/-- A call that returns an error has changed nothing, or it is a vote that was debited before its
record list turned out to be unreadable, or an unfreeze that met an unreadable account. -/
theorem invoke_error_holdings {e : Err}
    (hfa : runOn m (invoke ca) s = (.error e, s')) (hre : e ≠ .panic) :
    holdings (m.look s') = holdings (m.look s) ∨
    (∃ vi, decodeAction ca.chainID ca.args = .ok (.vote vi) ∧
        (holdings (m.look s)).Admits ca.chainID ca.fromAddr.val (.vote vi) ∧
        recordsOf (m.look s (.hnb, Hnb.getEpochRecordKey vi.voteEpoch)) = none ∧
        holdings (m.look s') =
          (holdings (m.look s)).credit (.hnb, vi.fromAddr.getD []) (-vi.votingPower)) ∨
      ∃ epochNo front blocked back, decodeAction ca.chainID ca.args = .ok (.unfreeze epochNo) ∧
        (holdings (m.look s)).recs epochNo = front ++ some blocked :: back ∧
        amountOf (m.look s (.hnb, recordAccount (some blocked))) = none := by
  rcases invoke_error m ca hfa hre with
    rfl | ⟨vi, decoded, saved, unlisted⟩ | ⟨epochNo, first, front, blocked, back, decoded,
      listed, _, stuck⟩
  · exact .inl rfl
  · obtain ⟨ha, hde⟩ := holdings_saveTotal m vi saved
    have chain := chain_of_vote decoded
    rw [chain] at decoded ⊢
    exact .inr (.inl ⟨vi, decoded, ha, unlisted, hde⟩)
  · exact .inr (.inr ⟨epochNo, some first :: front, blocked, back, decoded,
      by simp [holdings, listed], stuck⟩)

end Calls

theorem genesis_bal (chain : ChainID) (addr : Bytes) :
    (holdings (find genesis)).bal (chain, addr) = if addr = founder.val then 10000000 else 0 := by
  change clippedAmount (find genesis (chain, addr)) = _
  rw [find_genesis]
  split
  · rw [clippedAmount_formatInt]
  · rfl

theorem genesis_recs (epoch : UInt64) : (holdings (find genesis)).recs epoch = [] := by
  have hab : find genesis (.hnb, Hnb.getEpochRecordKey epoch) = none := by
    rw [find_genesis, if_neg]
    intro same
    have heads := VoteKey.head ⟨epoch, .inr rfl⟩
    rw [same] at heads
    exact absurd heads (by decide)
  simp only [holdings, hab, recordsOf, getD_some]

end HNBChain.Audit.Spec
