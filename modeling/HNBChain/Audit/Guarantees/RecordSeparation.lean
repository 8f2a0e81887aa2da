import HNBChain.Audit.Source.Database

/-!
# Records do not disturb each other

Whatever the database and the caches hold, a write or a deletion changes what is read for the
records it is about and for no others: the keys of the seven kinds are told apart by their first
octets, and within a kind by the rest.
-/
namespace HNBChain.Audit.Guarantees.RecordSeparation

open Lib Source Source.Database List

/-- What the stores are asked to write or delete. -/
inductive Write where
  | writeBlock (blk : StoredBlock)
  | rollbackBlock (blkNum : UInt64)
  | setBlockHeight (height : UInt64)
  | setHashIndex (blk : StoredBlock)
  | setNonce (address : Address) (nonce : UInt64)
  | setWrongIndex (txid reason : Bytes)
  | setState (chainID : ChainID) (key state : Bytes)
  | deleteState (chainID : ChainID) (key : Bytes)
  | recordEpochInfo (epochNo : UInt64) (epochData : Bytes)

def Write.perform : Write → Io (Except StoreErr Unit)
  | writeBlock blk => Database.writeBlock blk
  | rollbackBlock blkNum => Database.rollbackBlock blkNum
  | setBlockHeight height => Database.setBlockHeight height
  | setHashIndex blk => Database.setHashIndex blk
  | setNonce address nonce => Database.setNonce address nonce
  | setWrongIndex txid reason => Database.setWrongIndex txid reason
  | setState chainID key state => Database.setState (octets chainID.text) key state
  | deleteState chainID key => Database.deleteState (octets chainID.text) key
  | recordEpochInfo epochNo epochData => Database.recordEpochInfo epochNo epochData

/-- The records that a write is about. -/
def Write.records : Write → List Record
  | writeBlock blk => [.block blk.block.blockNum]
  | rollbackBlock blkNum => [.block blkNum]
  | setBlockHeight _ => [.height]
  | setHashIndex blk => blk.block.txs.map fun tx => .hashIndex tx.txid
  | setNonce address _ => [.nonce address]
  | setWrongIndex txid _ => [.wrongIndex txid]
  | setState chainID key _ => [.state chainID key]
  | deleteState chainID key => [.state chainID key]
  | recordEpochInfo epochNo _ => [.epoch epochNo]

inductive Answer where
  | block (blk : Except StoreErr StoredBlock)
  | height (height : Except StoreErr UInt64)
  | hashIndex (index : Except StoreErr (Option (UInt64 × UInt32)))
  | nonce (nonce : Except StoreErr UInt64)
  | wrongIndex (reason : Except StoreErr Bytes)
  | state (value : Except StoreErr (Option Bytes))
  | epoch (epochData : Except StoreErr Bytes)

/-- The answer of the store that a record belongs to. -/
def readRecord : Record → Io Answer
  | .block blkNum => .block <$> getBlock blkNum
  | .height => .height <$> getBlockHeight
  | .hashIndex txid => .hashIndex <$> findHashIndex txid
  | .nonce address => .nonce <$> getNonce address
  | .wrongIndex txid => .wrongIndex <$> getWrongIndex txid
  | .state chainID key => .state <$> getState (octets chainID.text) key
  | .epoch epochNo => .epoch <$> loadEpochInfo epochNo

/-- Two hosts that hold the same for a record. -/
structure Same (r : Record) (host host' : Host) : Prop where
  content : find host'.content r.key = find host.content r.key
  stateCache : find host'.stateCache r.key = find host.stateCache r.key
  blockCache : ∀ blkNum, r = .block blkNum →
    find host'.blockCache blkNum = find host.blockCache blkNum

variable {r : Record} {host host' : Host}

theorem Same.refl (r : Record) (host : Host) : Same r host host := ⟨rfl, rfl, fun _ _ => rfl⟩

theorem Same.trans {a b c : Host} (h1 : Same r a b) (h2 : Same r b c) : Same r a c :=
  ⟨h2.content.trans h1.content, h2.stateCache.trans h1.stateCache,
    fun blkNum eq => (h2.blockCache blkNum eq).trans (h1.blockCache blkNum eq)⟩

theorem map_fst {α β : Type} (f : α → β) (p : Io α) (host : Host) :
    ((f <$> p).run calm host).1 = (p.run calm host).1.map f := by
  change ((p >>= fun a => pure (f a)).run calm host).1 = _
  rw [run_bind]
  rcases p.run calm host with ⟨_ | _, _⟩ <;> rfl

/-- What is read for a record depends on what the host holds for it. -/
theorem Same.readRecord (same : Same r host host') :
    ((readRecord r).run calm host').1 = ((readRecord r).run calm host).1 := by
  have hco := same.content
  cases r with
  | block blkNum =>
    have hc := same.blockCache blkNum rfl
    simp only [Record.key] at hco
    simp only [RecordSeparation.readRecord, map_fst, getBlock_calm, hc, hco]
  | height =>
    simp only [Record.key] at hco
    simp only [RecordSeparation.readRecord, map_fst, getBlockHeight, getNumber_calm, hco]
  | hashIndex txid =>
    simp only [Record.key] at hco
    simp only [RecordSeparation.readRecord, map_fst, findHashIndex, getAs_calm, hco]
  | nonce address =>
    simp only [Record.key] at hco
    simp only [RecordSeparation.readRecord, map_fst, getNonce, getNumber_calm, hco]
  | wrongIndex txid =>
    simp only [Record.key] at hco
    simp only [RecordSeparation.readRecord, map_fst, getWrongIndex, getAs_calm, hco]
  | state chainID key =>
    have hc := same.stateCache
    simp only [Record.key] at hco hc
    simp only [RecordSeparation.readRecord, map_fst, getState_calm, hc, hco]
  | epoch epochNo =>
    simp only [Record.key] at hco
    simp only [RecordSeparation.readRecord, map_fst, loadEpochInfo_calm, hco]

/-! ## Writes -/

theorem Same.insert {value : Value} {key : Bytes} (other : r.key ≠ key) :
    Same r host { host with content := host.content.insert key value, asked := host.asked + 1 } :=
  ⟨(find_insert ..).trans (if_neg other), rfl, fun _ _ => rfl⟩

/-- The block cache is keyed by the number itself. -/
theorem Same.blockCache_insert {blk : StoredBlock} (other : r ≠ .block blk.block.blockNum) :
    Same r host { host with blockCache := host.blockCache.insert blk.block.blockNum blk } := by
  refine ⟨rfl, rfl, fun blkNum eq => (find_insert ..).trans (if_neg ?_)⟩
  rintro rfl
  exact other eq

theorem Same.blockCache_erase {blkNum : UInt64} (other : r ≠ .block blkNum) :
    Same r host { host with blockCache := host.blockCache.erase blkNum } := by
  refine ⟨rfl, rfl, fun blkNum' eq => (find_erase ..).trans (if_neg ?_)⟩
  rintro rfl
  exact other eq

theorem Same.stateCache_insert {key value : Bytes} (other : r.key ≠ key) :
    Same r host { host with stateCache := host.stateCache.insert key value } :=
  ⟨rfl, (find_insert ..).trans (if_neg other), fun _ _ => rfl⟩

theorem Same.stateCache_erase {key : Bytes} (other : r.key ≠ key) :
    Same r host { host with stateCache := host.stateCache.erase key } :=
  ⟨rfl, (find_erase ..).trans (if_neg other), fun _ _ => rfl⟩

theorem Same.erase {key : Bytes} (other : r.key ≠ key) :
    Same r host { host with content := host.content.erase key, asked := host.asked + 1 } :=
  ⟨(find_erase ..).trans (if_neg other), rfl, fun _ _ => rfl⟩

theorem Same.setHashIndexFrom (blkNum : UInt64) (i : Nat) (txs : List Transaction)
    (ho : ∀ tx ∈ txs, r.key ≠ hashIndexKey tx.txid) :
    Same r host ((setHashIndexFrom blkNum i txs).run calm host).2 := by
  induction txs generalizing i host with
  | nil => exact .refl r host
  | cons tx rest ih =>
    have h1 : Same r host ((put (hashIndexKey tx.txid) (.index blkNum (UInt32.ofNat i))).run
        calm host).2 :=
      .insert (ho tx mem_cons_self)
    exact h1.trans (ih (i + 1) fun tx' hm => ho tx' (mem_cons_of_mem tx hm))

theorem Write.same (w : Write) (smalls : ∀ r' ∈ w.records, r'.Small) (hs : r.Small)
    (other : r ∉ w.records) : Same r host (w.perform.run calm host).2 := by
  have keys : ∀ r' ∈ w.records, r.key ≠ r'.key := by
    intro r' hm same
    exact other (Record.key_inj hs (smalls r' hm) same ▸ hm)
  cases w with
  | writeBlock blk =>
    have ha : r ≠ .block blk.block.blockNum := fun eq => other (mem_singleton.mpr eq)
    exact (Same.blockCache_insert ha).trans (.insert (keys _ mem_cons_self))
  | rollbackBlock blkNum =>
    have ha : r ≠ .block blkNum := fun eq => other (mem_singleton.mpr eq)
    exact (Same.blockCache_erase ha).trans (.erase (keys _ mem_cons_self))
  | setBlockHeight height => exact .insert (keys .height mem_cons_self)
  | setHashIndex blk =>
    refine .setHashIndexFrom _ _ _ fun tx hm => ?_
    exact keys (.hashIndex tx.txid) (mem_map.mpr ⟨tx, hm, rfl⟩)
  | setNonce address nonce =>
    have hc : Same r host
        { host with nonceCache := host.nonceCache.insert (nonceKey address) nonce } :=
      ⟨rfl, rfl, fun _ _ => rfl⟩
    exact hc.trans (.insert (keys (.nonce address) mem_cons_self))
  | setWrongIndex txid reason => exact .insert (keys (.wrongIndex txid) mem_cons_self)
  | setState chainID key state =>
    have ha := keys (.state chainID key) mem_cons_self
    exact (Same.stateCache_insert ha).trans (.insert ha)
  | deleteState chainID key =>
    have ha := keys (.state chainID key) mem_cons_self
    exact (Same.stateCache_erase ha).trans (.erase ha)
  | recordEpochInfo epochNo epochData => exact .insert (keys (.epoch epochNo) mem_cons_self)

/-- Whatever is written or deleted, the other records of its kind and of the other kinds are read as
before. -/
theorem read_frame (host : Host) (w : Write) (r : Record) (smalls : ∀ r' ∈ w.records, r'.Small)
    (hs : r.Small) (other : r ∉ w.records) :
    ((readRecord r).run calm (w.perform.run calm host).2).1 = ((readRecord r).run calm host).1 :=
  (w.same smalls hs other).readRecord

/-- A host with the data of epoch 7 and a balance of the account `[7]`. -/
def keeping : Host :=
  ((Write.setState .hnb [7] [5]).perform.run calm
    ((Write.recordEpochInfo 7 [9]).perform.run calm .empty).2).2

/-- Both can be read, and the data also when the balance is deleted. -/
theorem read_frame_seven :
    ((readRecord (.state .hnb [7])).run calm keeping).1 = some (.state (.ok (some [5]))) ∧
      ((readRecord (.epoch 7)).run calm keeping).1 = some (.epoch (.ok [9])) ∧
      ((readRecord (.epoch 7)).run calm
        ((Write.deleteState .hnb [7]).perform.run calm keeping).2).1 =
          ((readRecord (.epoch 7)).run calm keeping).1 :=
  ⟨rfl, rfl, read_frame keeping (.deleteState .hnb [7]) (.epoch 7) (by decide) (by decide)
    (by decide)⟩

end HNBChain.Audit.Guarantees.RecordSeparation
