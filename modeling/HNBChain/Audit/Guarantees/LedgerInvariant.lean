import HNBChain.Audit.Source.Database

/-!
# What the ledger holds after any sequence of writes

The height counts the accepted blocks, every one of them is read back under its number, and the
index of a transaction leads to a transaction with its id, also where an id occurs again. This needs
the state sets to be of the two contracts: a chain id of another form can make the key of a state
item that of a block or of an index entry.
-/
namespace HNBChain.Audit.Guarantees.LedgerInvariant

open Lib Source Source.Database List

/-- A call of `WriteLedger`. -/
structure Submission where
  blk : StoredBlock
  si : List StateItem
  ni : List NonceItem

inductive Event where
  | write (s : Submission)
  | evict (blkNums : List UInt64) (keys : List Bytes)

/-- The host, and the blocks for which the call returned nil. -/
structure Course where
  host : Host
  accepted : List StoredBlock

def step (c : Course) : Event → Course
  | .write s =>
    match (writeLedger s.blk s.si s.ni).run calm c.host with
    | (some (.ok ()), host') => ⟨host', c.accepted ++ [s.blk]⟩
    | (_, host') => ⟨host', c.accepted⟩
  | .evict blkNums keys => ⟨c.host.evict blkNums keys, c.accepted⟩

def run (events : List Event) : Course := events.foldl step ⟨.empty, []⟩

structure Invariant (c : Course) : Prop where
  height : (getBlockHeight.run calm c.host).1 = some (.ok (UInt64.ofNat c.accepted.length))
  blocks : ∀ n blk, c.accepted[n]? = some blk →
    ((getBlock (UInt64.ofNat n)).run calm c.host).1 = some (.ok blk)
  index : ∀ blk ∈ c.accepted, ∀ tx ∈ blk.block.txs, ∃ blkNum offset tx',
    ((findHashIndex tx.txid).run calm c.host).1 = some (.ok (some (blkNum, offset))) ∧
      ((getTransaction blkNum offset).run calm c.host).1 = some (.ok tx') ∧ tx'.txid = tx.txid

/-- The state is that of the two contracts, and the offsets fit. -/
structure Submission.Plain (s : Submission) : Prop where
  chains : ∀ v ∈ s.si, ∃ chain : ChainID, v.chainID = octets chain.text
  short : s.blk.block.txs.length < 2 ^ 32

def Event.Plain : Event → Prop
  | .write s => s.Plain
  | .evict _ _ => True

/-! ## The records behind it -/

/-- Where a transaction is found. -/
structure Located (accepted : List StoredBlock) (txid : Bytes) (value : Option Value) : Prop where
  found : ∃ m j blk tx, value = some (.index (UInt64.ofNat m) (UInt32.ofNat j)) ∧
    accepted[m]? = some blk ∧ blk.block.txs[j]? = some tx ∧ tx.txid = txid

structure Holds (c : Course) : Prop where
  height : asNumber (find c.host.content heightKey) = some (UInt64.ofNat c.accepted.length)
  stored : ∀ n blk, c.accepted[n]? = some blk →
    find c.host.content (blockKey (UInt64.ofNat n)) = some (.block blk)
  cached : ∀ blkNum blk, find c.host.blockCache blkNum = some blk →
    c.accepted[blkNum.toNat]? = some blk
  index : ∀ blk ∈ c.accepted, ∀ tx ∈ blk.block.txs,
    Located c.accepted tx.txid (find c.host.content (hashIndexKey tx.txid))
  short : ∀ blk ∈ c.accepted, blk.block.txs.length < 2 ^ 32

theorem Holds.empty : Holds ⟨.empty, []⟩ where
  height := rfl
  stored n blk found := by cases found
  cached blkNum blk found := by cases found
  index blk member := by cases member
  short blk member := by cases member

theorem toNat_ofNat {n : Nat} (hs : n < 2 ^ 56) : (UInt64.ofNat n).toNat = n :=
  UInt64.toNat_ofNat_of_lt (by rw [UInt64.size]; omega)

variable {c : Course}

/-- Where a block is and what is cached of it is the same block. -/
theorem Holds.getBlock (hh : Holds c) {n : Nat} {blk : StoredBlock} (hs : n < 2 ^ 56)
    (hf : c.accepted[n]? = some blk) :
    ((getBlock (UInt64.ofNat n)).run calm c.host).1 = some (.ok blk) := by
  rw [getBlock_calm]
  cases cached : find c.host.blockCache (UInt64.ofNat n) with
  | none =>
    rw [hh.stored n blk hf]
    rfl
  | some blk' =>
    have same := hh.cached _ _ cached
    rw [toNat_ofNat hs, hf] at same
    rw [Option.some.inj same]
    rfl

/-- The offset is inside the block, so the check of `GetTransaction` passes. -/
theorem Holds.getTransaction (hh : Holds c) {n j : Nat} {blk : StoredBlock}
    {tx : Transaction} (hs : n < 2 ^ 56) (hf : c.accepted[n]? = some blk)
    (hl : blk.block.txs[j]? = some tx) :
    ((getTransaction (UInt64.ofNat n) (UInt32.ofNat j)).run calm c.host).1 = some (.ok tx) := by
  have short := hh.short blk (List.mem_of_getElem? hf)
  obtain ⟨hi, _⟩ := List.getElem?_eq_some_iff.mp hl
  have length : (UInt32.ofNat blk.block.txs.length).toNat = blk.block.txs.length :=
    UInt32.toNat_ofNat_of_lt (by rw [UInt32.size]; omega)
  have offset : (UInt32.ofNat j).toNat = j := UInt32.toNat_ofNat_of_lt (by rw [UInt32.size]; omega)
  have next : (UInt32.ofNat j + 1).toNat = j + 1 := by
    rw [UInt32.toNat_add, offset]
    exact Nat.mod_eq_of_lt (by change j + 1 < 2 ^ 32; omega)
  have hp : ¬ UInt32.ofNat blk.block.txs.length < UInt32.ofNat j + 1 := by
    rw [UInt32.lt_iff_toNat_lt, length, next]
    omega
  have got := hh.getBlock hs hf
  rcases ran : (Database.getBlock (UInt64.ofNat n)).run calm c.host with ⟨_ | result, host'⟩
  · rw [ran] at got
    cases got
  · rw [ran] at got
    have ok : result = .ok blk := Option.some.inj got
    subst ok
    unfold Database.getTransaction
    rw [run_bind_some ran]
    dsimp only
    rw [if_neg hp, offset, hl]
    rfl

theorem Holds.invariant (hh : Holds c) (few : c.accepted.length < 2 ^ 56) : Invariant c where
  height := by
    rw [getBlockHeight, getNumber_calm, hh.height]
    rfl
  blocks n blk hf := by
    obtain ⟨hi, _⟩ := List.getElem?_eq_some_iff.mp hf
    exact hh.getBlock (by omega) hf
  index blk member tx listed := by
    obtain ⟨m, j, blk', tx', value, hf, listed', txid⟩ :=
      (hh.index blk member tx listed).found
    obtain ⟨hi, _⟩ := List.getElem?_eq_some_iff.mp hf
    refine ⟨UInt64.ofNat m, UInt32.ofNat j, tx', ?_,
      hh.getTransaction (by omega) hf listed', txid⟩
    rw [findHashIndex, getAs_calm, value]
    rfl

/-! ## One event -/

theorem find_foldl_erase {K V : Type} [DecidableEq K] {cache : Store K V} {keys : List K}
    {key : K} {value : V}
    (kept : find (keys.foldl (fun cache key => cache.erase key) cache) key = some value) :
    find cache key = some value := by
  induction keys generalizing cache with
  | nil => exact kept
  | cons first rest ih =>
    have hf := ih kept
    rw [find_erase] at hf
    split at hf
    · cases hf
    · exact hf

theorem Holds.evict (hh : Holds c) (blkNums : List UInt64) (keys : List Bytes) :
    Holds ⟨c.host.evict blkNums keys, c.accepted⟩ where
  height := hh.height
  stored := hh.stored
  cached blkNum blk found := hh.cached blkNum blk (find_foldl_erase found)
  index := hh.index
  short := hh.short

/-- The records of earlier blocks are not among those a block writes. -/
theorem Located.mono {accepted : List StoredBlock} {txid : Bytes} {value : Option Value}
    (located : Located accepted txid value) (blk : StoredBlock) :
    Located (accepted ++ [blk]) txid value := by
  obtain ⟨m, j, blk', tx, eq, hf, rest⟩ := located.found
  obtain ⟨hi, _⟩ := List.getElem?_eq_some_iff.mp hf
  exact ⟨m, j, blk', tx, eq, by rw [List.getElem?_append_left hi, hf], rest⟩

section Accepted

variable {accepted : List StoredBlock} {s : Submission} (base : Store Bytes Value) (plain : s.Plain)
  (few : accepted.length < 2 ^ 56) (number : s.blk.block.blockNum = UInt64.ofNat accepted.length)

include few number in
theorem small_block : (Record.block s.blk.block.blockNum).Small := by
  change s.blk.block.blockNum.toNat < 2 ^ 56
  rwa [number, toNat_ofNat few]

include plain few number

/-- What is stored under a key that the block does not write. -/
theorem find_other {r : Record} (hs : r.Small) (states : r.kind ≠ 5) (nonces : r.kind ≠ 3)
    (height : r ≠ .height) (block : r ≠ .block s.blk.block.blockNum)
    (index : ∀ tx ∈ s.blk.block.txs, r ≠ .hashIndex tx.txid) :
    find (commit (blockWrites s.blk s.si s.ni) base) r.key = find base r.key := by
  refine find_commit_of_notMem _ _ _ fun hm => ?_
  unfold blockWrites at hm
  simp only [map_cons, map_append, mem_cons, mem_append] at hm
  rcases hm with same | same | same | same | same
  · exact block (Record.key_inj hs (small_block few number) same)
  · exact key_notMem_states plain.chains hs states same
  · exact height (Record.key_inj hs (q := .height) trivial same)
  · exact key_notMem_index hs index same
  · exact key_notMem_nonces hs nonces same

/-- A transaction of the block, or one of an earlier block whose id the block does not have. -/
theorem located_accepted {txid : Bytes} (hl : (∃ tx ∈ s.blk.block.txs, tx.txid = txid) ∨
      Located accepted txid (find base (hashIndexKey txid))) :
    Located (accepted ++ [s.blk]) txid
      (find (commit (blockWrites s.blk s.si s.ni) base) (hashIndexKey txid)) := by
  by_cases here : ∃ tx ∈ s.blk.block.txs, tx.txid = txid
  · obtain ⟨tx, hm, rfl⟩ := here
    have split : blockWrites s.blk s.si s.ni =
      (⟨blockKey s.blk.block.blockNum, .changed (.block s.blk)⟩ ::
        (s.si.map StateItem.write ++ [⟨heightKey,
          .changed (.bytes (putUint64 (s.blk.block.blockNum + 1)))⟩])) ++
          (indexWrites s.blk.block.blockNum 0 s.blk.block.txs ++ s.ni.map nonceWrite) := by
      simp [blockWrites]
    have ha : hashIndexKey tx.txid ∉ (s.ni.map nonceWrite).map Sigma.fst :=
      key_notMem_nonces (r := .hashIndex tx.txid) trivial nofun
    rw [split, commit_append, commit_append, find_commit_of_notMem _ _ _ ha]
    obtain ⟨j, tx', at_j, same, hf⟩ :=
      find_indexWrites s.blk.block.blockNum 0 s.blk.block.txs _ hm
    rw [Nat.zero_add] at hf
    exact ⟨accepted.length, j, s.blk, tx', by rw [hf, number], by simp, at_j, same⟩
  · have old := hl.resolve_left here
    have kept : find (commit (blockWrites s.blk s.si s.ni) base) (hashIndexKey txid) =
        find base (hashIndexKey txid) :=
      find_other base plain few number (r := .hashIndex txid) trivial nofun nofun nofun nofun
        fun tx hm same => here ⟨tx, hm, (Record.hashIndex.inj same).symm⟩
    rw [kept]
    exact old.mono s.blk

end Accepted

theorem Holds.accept {s : Submission} {host' : Host} (hh : Holds c) (plain : s.Plain)
    (few : c.accepted.length < 2 ^ 56)
    (number : s.blk.block.blockNum = UInt64.ofNat c.accepted.length)
    (hc : host'.content = commit (blockWrites s.blk s.si s.ni) c.host.content)
    (cache : host'.blockCache = c.host.blockCache.insert s.blk.block.blockNum s.blk) :
    Holds ⟨host', c.accepted ++ [s.blk]⟩ where
  height := by
    change asNumber (find host'.content heightKey) = _
    rw [hc, find_blockWrites_height, asNumber, uint64_putUint64, number, List.length_append,
      UInt64.ofNat_add]
    rfl
  stored n blk found := by
    change find host'.content _ = _
    rw [hc]
    rcases Nat.lt_or_ge n c.accepted.length with old | new
    · rw [List.getElem?_append_left old] at found
      have hs : (Record.block (UInt64.ofNat n)).Small := by
        change (UInt64.ofNat n).toNat < 2 ^ 56
        rw [toNat_ofNat (by omega)]
        omega
      have other : Record.block (UInt64.ofNat n) ≠ .block s.blk.block.blockNum := by
        intro same
        have numbers := congrArg UInt64.toNat (Record.block.inj same)
        rw [number, toNat_ofNat (by omega), toNat_ofNat few] at numbers
        omega
      have kept := find_other c.host.content plain few number hs nofun nofun nofun other
        fun _ _ => nofun
      exact kept.trans (hh.stored n blk found)
    · obtain ⟨hi, last⟩ := List.getElem?_eq_some_iff.mp found
      have at_end : n = c.accepted.length := by
        simp only [List.length_append, List.length_singleton] at hi
        omega
      subst at_end
      simp only [List.getElem_concat_length] at last
      subst last
      rw [← number]
      exact find_blockWrites_block s.blk s.si s.ni _ (small_block few number) plain.chains
  cached blkNum blk found := by
    change find host'.blockCache blkNum = some blk at found
    rw [cache, find_insert] at found
    split at found
    · rename_i same
      cases found
      rw [same, number, toNat_ofNat few]
      simp
    · have old := hh.cached blkNum blk found
      obtain ⟨hi, _⟩ := List.getElem?_eq_some_iff.mp old
      change (c.accepted ++ [s.blk])[blkNum.toNat]? = _
      rw [List.getElem?_append_left hi, old]
  index blk hm tx listed := by
    change Located _ _ (find host'.content _)
    rw [hc]
    refine located_accepted c.host.content plain few number ?_
    rcases List.mem_append.mp hm with old | new
    · exact .inr (hh.index blk old tx listed)
    · rw [List.mem_singleton.mp new] at listed
      exact .inl ⟨tx, listed, rfl⟩
  short blk hm := by
    rcases List.mem_append.mp hm with old | new
    · exact hh.short blk old
    · rw [List.mem_singleton.mp new]
      exact plain.short

theorem Holds.step (hh : Holds c) (few : c.accepted.length < 2 ^ 56) {event : Event}
    (plain : event.Plain) : Holds (step c event) := by
  cases event with
  | evict blkNums keys => exact hh.evict blkNums keys
  | write s =>
    unfold LedgerInvariant.step
    dsimp only
    by_cases number : s.blk.block.blockNum = UInt64.ofNat c.accepted.length
    · obtain ⟨host', hw, hc, cache⟩ := writeLedger_accepted (quiet_calm c.host)
        (hh.height.trans (congrArg some number.symm)) s.si s.ni
      rw [hw]
      exact hh.accept plain few number hc cache
    · rw [writeLedger_run, (quiet_calm c.host).now, hh.height]
      dsimp only
      rw [if_neg number]
      exact ⟨hh.height, hh.stored, hh.cached, hh.index, hh.short⟩

theorem step_length (c : Course) (event : Event) :
    (step c event).accepted.length ≤ c.accepted.length + 1 := by
  cases event with
  | evict blkNums keys => exact Nat.le_succ _
  | write s =>
    unfold step
    dsimp only
    split
    · rw [length_append]
      rfl
    · exact Nat.le_succ _

theorem Holds.foldl (hh : Holds c) {events : List Event}
    (few : c.accepted.length + events.length < 2 ^ 56) (plain : ∀ event ∈ events, event.Plain) :
    Holds (events.foldl LedgerInvariant.step c) ∧
    (events.foldl LedgerInvariant.step c).accepted.length < 2 ^ 56 := by
  induction events generalizing c with
  | nil => exact ⟨hh, few⟩
  | cons event rest ih =>
    have grown := step_length c event
    rw [length_cons] at few
    refine ih (hh.step (by omega) (plain event mem_cons_self)) (by omega) ?_
    exact fun later hm => plain later (mem_cons_of_mem event hm)

theorem ledger_invariant (events : List Event) (few : events.length < 2 ^ 56)
    (plain : ∀ event ∈ events, event.Plain) : Invariant (run events) := by
  obtain ⟨hh, hs⟩ := Holds.empty.foldl (by simpa using few) plain
  exact hh.invariant hs

/-! ## Two blocks -/

def somebody : Address := ⟨replicate 20 7, by decide⟩

/-- A transaction with thirty-two number signs for its id. -/
def signs : Transaction where
  contractName := octets ChainID.hnb.text
  payload := []
  txid := replicate 32 35
  fromAddr := somebody
  nonceValue := 0

def blockOf (blockNum : UInt64) (txs : List Transaction) : StoredBlock :=
  ⟨⟨blockNum, txs⟩, ⟨[], []⟩⟩

/-- The second block has the transaction again, and the caches are emptied after it. -/
theorem ledger_invariant_twice : Invariant (run [.write ⟨blockOf 0 [signs], [], [⟨somebody, 1⟩]⟩,
      .write ⟨blockOf 1 [signs], [⟨[7], [1], .changed, octets ChainID.hgs.text⟩], [⟨somebody, 1⟩]⟩,
      .evict [0, 1] []]) := by
  refine ledger_invariant _ (by decide) fun event hm => ?_
  simp only [mem_cons, not_mem_nil, or_false] at hm
  rcases hm with rfl | rfl | rfl
  · exact ⟨nofun, by decide⟩
  · refine ⟨fun v hl => ⟨.hgs, ?_⟩, by decide⟩
    rw [mem_singleton.mp hl]
  · trivial

/-- The state item of a chain `index` with thirty-one number signs for its key takes the place of
the transaction's index entry. -/
theorem index_overwritten :
    let c := run [.write ⟨blockOf 0 [signs], [], []⟩,
      .write ⟨blockOf 1 [], [⟨replicate 31 35, [1], .changed, octets "index"⟩], []⟩]
    c.accepted = [blockOf 0 [signs], blockOf 1 []] ∧
      ((findHashIndex signs.txid).run calm c.host).1 = some (.error .json) :=
  ⟨rfl, rfl⟩

end HNBChain.Audit.Guarantees.LedgerInvariant
