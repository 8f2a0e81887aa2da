import HNBChain.Audit.Source.StateCache

/-!
# Reads through pending changes

A course of calls on one `contractApi`, and the same calls made on the ledger at once: every read
gives the same, and the pending changes, written in any order, leave the same store. The cache of
the state store may drop entries at any time on either side.
-/
namespace HNBChain.Audit.Guarantees.OverlayCorrectness

open Lib Source Source.Database Source.StateCache Database

/-- Values are not empty, so nil and an empty value need not be told apart. -/
inductive Call where
  | putState (key value : Bytes)
  | putOtherState (chainID : ChainID) (key value : Bytes)
  | delState (key : Bytes)
  | getState (key : Bytes)
  | getOtherState (chainID : ChainID) (key : Bytes)
  deriving DecidableEq

inductive Step where
  | call (c : Call)
  | evict (keys : List Bytes)

abbrev Answer := Option (Except StoreErr (Option Bytes))

/-! ## The two courses -/

structure Overlaid where
  api : Api
  host : Host
  reads : List Answer

/-- A read, with its answer. -/
def Overlaid.read (o : Overlaid) (p : Io (Except StoreErr (Option Bytes))) : Overlaid :=
  { o with host := (p.run calm o.host).2, reads := o.reads ++ [(p.run calm o.host).1] }

def Overlaid.step (o : Overlaid) : Step → Overlaid
  | .call (.putState key value) => { o with api := o.api.putState key value }
  | .call (.putOtherState chainID key value) =>
    { o with api := o.api.putOtherState (octets chainID.text) key value }
  | .call (.delState key) => { o with api := o.api.delState key }
  | .call (.getState key) => o.read (o.api.getState key)
  | .call (.getOtherState chainID key) => o.read (o.api.getOtherState (octets chainID.text) key)
  | .evict keys => { o with host := o.host.evict [] keys }

def runOverlaid (chain : ChainID) (host : Host) (steps : List Step) : Overlaid :=
  steps.foldl Overlaid.step ⟨⟨∅, octets chain.text⟩, host, []⟩

structure Direct where
  chainID : ChainID
  host : Host
  reads : List Answer

def Direct.read (d : Direct) (chainID : ChainID) (key : Bytes) : Direct :=
  { d with
    host := ((getState (octets chainID.text) key).run calm d.host).2
    reads := d.reads ++ [((getState (octets chainID.text) key).run calm d.host).1] }

/-- The operations on the ledger itself. -/
def Direct.step (d : Direct) : Step → Direct
  | .call (.putState key value) =>
    { d with host := ((setState (octets d.chainID.text) key value).run calm d.host).2 }
  | .call (.putOtherState chainID key value) =>
    { d with host := ((setState (octets chainID.text) key value).run calm d.host).2 }
  | .call (.delState key) =>
    { d with host := ((deleteState (octets d.chainID.text) key).run calm d.host).2 }
  | .call (.getState key) => d.read d.chainID key
  | .call (.getOtherState chainID key) => d.read chainID key
  | .evict keys => { d with host := d.host.evict [] keys }

def runDirect (chain : ChainID) (host : Host) (steps : List Step) : Direct :=
  steps.foldl Direct.step ⟨chain, host, []⟩

def calls : List Step → List Call
  | [] => []
  | .call c :: rest => c :: calls rest
  | .evict _ :: rest => calls rest

/-! ## What both are for: one store, without caches -/

structure Plain where
  chainID : ChainID
  content : Store Bytes Value
  reads : List Answer

/-- Where the state of a contract stands. -/
def slot (key : Key) : Bytes := stateKey (octets key.1.text) key.2

theorem slot_injective : Function.Injective slot := by
  rintro ⟨chain, key⟩ ⟨chain', key'⟩ same
  have records := Record.key_inj (r := .state chain key)
    (q := .state chain' key') trivial trivial same
  injection records with chains keys
  rw [chains, keys]

namespace Plain

def put (p : Plain) (key : Key) (value : Bytes) : Plain :=
  { p with content := p.content.insert (slot key) (.bytes value) }

def read (p : Plain) (key : Key) : Plain :=
  { p with reads := p.reads ++ [some (asState (find p.content (slot key)))] }

def step (p : Plain) : Call → Plain
  | .putState key value => p.put (p.chainID, key) value
  | .putOtherState chainID key value => p.put (chainID, key) value
  | .delState key => { p with content := p.content.erase (slot (p.chainID, key)) }
  | .getState key => p.read (p.chainID, key)
  | .getOtherState chainID key => p.read (chainID, key)

def run (chain : ChainID) (content : Store Bytes Value) (cs : List Call) : Plain :=
  cs.foldl step ⟨chain, content, []⟩

end Plain

/-! ## The cache of the state store -/

/-- What the cache holds is what the database holds. -/
def Coherent (host : Host) : Prop :=
  ∀ key v, find host.stateCache key = some v → find host.content key = some (.bytes v)

section Coherent

variable {host : Host}

theorem Coherent.evict (hc : Coherent host) (keys : List Bytes) :
    Coherent (host.evict [] keys) := by
  have loop : ∀ cache : Store Bytes Bytes,
      (∀ key v, find cache key = some v → find host.content key = some (.bytes v)) →
        ∀ key v, find (keys.foldl (fun cache key => cache.erase key) cache) key = some v →
          find host.content key = some (.bytes v) := by
    induction keys with
    | nil => exact fun _ hh => hh
    | cons first rest ih =>
      intro cache hh
      refine ih (cache.erase first) fun key v hf => ?_
      rw [find_erase] at hf
      split_ifs at hf
      exact hh key v hf
  exact loop host.stateCache hc

theorem Coherent.setState (hc : Coherent host) (chainID key state : Bytes) :
    Coherent ((setState chainID key state).run calm host).2 := by
  intro k v hf
  change find (host.content.insert _ _) k = _
  replace hf : find (host.stateCache.insert _ _) k = some v := hf
  rw [find_insert] at hf ⊢
  split_ifs at hf ⊢
  · rw [Option.some.inj hf]
  · exact hc k v hf

theorem Coherent.deleteState (hc : Coherent host) (chainID key : Bytes) :
    Coherent ((deleteState chainID key).run calm host).2 := by
  intro k v hf
  change find (host.content.erase _) k = _
  replace hf : find (host.stateCache.erase _) k = some v := hf
  rw [find_erase] at hf ⊢
  split_ifs at hf ⊢
  exact hc k v hf

theorem Coherent.setStateItems (hc : Coherent host) (si : List StateItem) :
    Coherent ((setStateItems si).run calm host).2 := by
  induction si generalizing host with
  | nil => exact hc
  | cons v rest ih =>
    unfold setStateItems
    split_ifs
    · exact ih (hc.deleteState v.chainID v.key)
    · exact ih (hc.setState v.chainID v.key v.value)

theorem Coherent.setContractState (hc : Coherent host) (si : List StateItem) :
    Coherent ((Database.setContractState si).run calm host).2 := by
  have hop : Coherent { host with batch := some [] } := hc
  have hw := hop.setStateItems si
  obtain ⟨host', states, wrote, _⟩ :=
    setStateItems_writes si { host with batch := some [] } rfl (quiet_calm _)
  rw [states] at hw
  have hco : ((Database.setContractState si).run calm host).2.content = host'.content :=
    (setContractState_quiet (quiet_calm host) si).2.trans wrote.symm
  have new : newBatch.run calm host = (some (), { host with batch := some [] }) := rfl
  have cache : ((Database.setContractState si).run calm host).2.stateCache = host'.stateCache := by
    unfold Database.setContractState
    rw [run_bind_some new, run_bind_some states]
    rfl
  intro key v hf
  rw [cache] at hf
  rw [hco]
  exact hw key v hf

/-- A read finds what is stored, cached or not. -/
theorem Coherent.getState (hc : Coherent host) (chainID key : Bytes) :
    ((getState chainID key).run calm host).1 =
      some (asState (find host.content (stateKey chainID key))) := by
  rw [getState_calm]
  cases cached : find host.stateCache (stateKey chainID key) with
  | none => rfl
  | some v =>
    rw [hc _ v cached]
    rfl

/-- A read counts as an operation and leaves the rest as it is. -/
theorem getState_host (chainID key : Bytes) (host : Host) :
    ((getState chainID key).run calm host).2 = host ∨
      ((getState chainID key).run calm host).2 = host.tick := by
  have hca : (read (fun host => find host.stateCache (stateKey chainID key))).run calm host =
      (some (find host.stateCache (stateKey chainID key)), host) := rfl
  unfold getState
  rw [run_bind_some hca]
  cases find host.stateCache (stateKey chainID key) with
  | none => exact .inr rfl
  | some v => exact .inl rfl

theorem Coherent.read {host' : Host} (hc : Coherent host)
    (read : host' = host ∨ host' = host.tick) : Coherent host' ∧ host'.content = host.content := by
  rcases read with rfl | rfl
  · exact ⟨hc, rfl⟩
  · exact ⟨hc, rfl⟩

end Coherent

/-! ## The calls made on the ledger -/

structure Direct.Shows (d : Direct) (p : Plain) : Prop where
  chainID : d.chainID = p.chainID
  content : d.host.content = p.content
  coherent : Coherent d.host
  reads : d.reads = p.reads

variable {p : Plain}

theorem Direct.Shows.read {d : Direct} (hs : d.Shows p) (chainID : ChainID) (key : Bytes) :
    (d.read chainID key).Shows (p.read (chainID, key)) := by
  have answer := hs.coherent.getState (octets chainID.text) key
  obtain ⟨hc, hco⟩ := hs.coherent.read (getState_host (octets chainID.text) key d.host)
  refine ⟨hs.chainID, hco.trans hs.content, hc, ?_⟩
  change d.reads ++ [_] = p.reads ++ [_]
  rw [answer, hs.reads, hs.content]
  rfl

theorem Direct.Shows.call {d : Direct} (hs : d.Shows p) (c : Call) :
    (d.step (.call c)).Shows (p.step c) := by
  cases c with
  | putState key value =>
    refine ⟨hs.chainID, ?_, hs.coherent.setState _ _ _, hs.reads⟩
    change d.host.content.insert (slot (d.chainID, key)) _ = p.content.insert
      (slot (p.chainID, key)) _
    rw [hs.content, hs.chainID]
  | putOtherState chainID key value =>
    refine ⟨hs.chainID, ?_, hs.coherent.setState _ _ _, hs.reads⟩
    change d.host.content.insert (slot (chainID, key)) _ = p.content.insert (slot (chainID, key)) _
    rw [hs.content]
  | delState key =>
    refine ⟨hs.chainID, ?_, hs.coherent.deleteState _ _, hs.reads⟩
    change d.host.content.erase (slot (d.chainID, key)) = p.content.erase (slot (p.chainID, key))
    rw [hs.content, hs.chainID]
  | getState key =>
    have read := hs.read d.chainID key
    rw [hs.chainID] at read
    change (d.read d.chainID key).Shows (p.read (p.chainID, key))
    rwa [hs.chainID]
  | getOtherState chainID key => exact hs.read chainID key

theorem Direct.Shows.run {d : Direct} (hs : d.Shows p) (steps : List Step) :
    (steps.foldl Direct.step d).Shows ((calls steps).foldl Plain.step p) := by
  induction steps generalizing d p with
  | nil => exact hs
  | cons first rest ih =>
    cases first with
    | call c => exact ih (hs.call c)
    | evict keys => exact ih ⟨hs.chainID, hs.content, hs.coherent.evict keys, hs.reads⟩

/-! ## The calls made through pending changes -/

/-- The store below, with the filed changes above it, shows another store. -/
structure Above (db : Cache) (below shown : Store Bytes Value) : Prop where
  filed : Filed db
  look : ∀ key, find shown (slot key) = overlaid (filedChange db key) (find below (slot key))
  rest : ∀ k, (∀ key, k ≠ slot key) → find shown k = find below k

section Above

variable {db : Cache} {below shown : Store Bytes Value}

theorem Above.empty (below : Store Bytes Value) : Above ∅ below below :=
  ⟨.empty, fun _ => rfl, fun _ _ => rfl⟩

/-- One more change, filed and made. -/
theorem Above.change {db' : Cache} (ha : Above db below shown) (hfi : Filed db') (k : Key)
    (change : Change Value)
    (changes : ∀ key, filedChange db' key = if key = k then some change else filedChange db key) :
    Above db' below (change.apply (slot k) shown) := by
  refine ⟨hfi, fun key => ?_, fun at_ ho => ?_⟩
  · rw [find_apply, changes, ha.look]
    by_cases same : key = k
    · rw [if_pos (congrArg slot same), if_pos same]
      rfl
    · rw [if_neg (fun eq => same (slot_injective eq)), if_neg same]
  · rw [find_apply, if_neg (ho k)]
    exact ha.rest at_ ho

theorem Above.put (ha : Above db below shown) (k : Key) (value : Bytes) :
    Above (StateCache.put (octets k.1.text) k.2 value db) below
      (shown.insert (slot k) (.bytes value)) :=
  ha.change ha.filed.put k (.changed (.bytes value)) fun key => filedChange_put k key

theorem Above.delete (ha : Above db below shown) (k : Key) :
    Above (StateCache.delete (octets k.1.text) k.2 db) below (shown.erase (slot k)) :=
  ha.change ha.filed.delete k .deleted fun key => ha.filed.filedChange_delete k key

/-- What `GetOtherState` answers. -/
theorem Above.getOtherState {api : Api} {host : Host} (ha : Above api.sc host.content shown)
    (hc : Coherent host) (k : Key) :
    ((api.getOtherState (octets k.1.text) k.2).run calm host).1 =
    some (asState (find shown (slot k))) ∧
      (((api.getOtherState (octets k.1.text) k.2).run calm host).2 = host ∨
        ((api.getOtherState (octets k.1.text) k.2).run calm host).2 = host.tick) := by
  have look := ha.look k
  unfold Api.getOtherState Api.isDelState StateCache.get
  change find shown (slot k) = overlaid
    ((find api.sc (octets k.1.text ++ k.2)).map StateCache.change) _ at look
  cases found : find api.sc (octets k.1.text ++ k.2) with
  | none =>
    rw [found] at look
    rw [look]
    exact ⟨hc.getState (octets k.1.text) k.2, getState_host _ _ host⟩
  | some v =>
    rw [found] at look
    rw [look]
    by_cases deleted : v.state = .deleted
    · have gone : StateCache.change v = .deleted := if_pos deleted
      rw [Option.map_some, gone]
      rw [if_pos (decide_eq_true deleted)]
      exact ⟨rfl, .inl rfl⟩
    · have kept : StateCache.change v = .changed (.bytes v.value) := if_neg deleted
      rw [Option.map_some, kept]
      rw [if_neg (fun marked => deleted (of_decide_eq_true marked))]
      exact ⟨rfl, .inl rfl⟩

theorem write_slot {filed : Bytes} {v : StateItem} (all : Filed db)
    (hf : find db filed = some v) : ∃ key, filed = memoryKey key ∧ v.write.1 = slot key := by
  obtain ⟨key, place, chainID, own⟩ := all filed v hf
  refine ⟨key, place, ?_⟩
  change stateKey v.chainID v.key = slot key
  rw [chainID, own]
  rfl

variable {items : List StateItem}

theorem mem_of_find (listing : Find db items) (v : StateItem) : v ∈ items ↔
    ∃ filed, find db filed = some v := by
  rw [← Multiset.mem_coe, listing, Multiset.mem_map]
  constructor
  · rintro ⟨entry, hm, rfl⟩
    exact ⟨entry.1, Finmap.mem_lookup_iff.mpr hm⟩
  · rintro ⟨filed, hf⟩
    exact ⟨⟨filed, v⟩, Finmap.mem_lookup_iff.mp hf, rfl⟩

/-- No two records are written under one key. -/
theorem nodup_writes (all : Filed db) (listing : Find db items) :
    ((items.map StateItem.write).map Sigma.fst).Nodup := by
  have keys : (((items.map StateItem.write).map Sigma.fst : List Bytes) : Multiset Bytes) =
      db.entries.map fun entry => entry.2.write.1 := by
    rw [List.map_map, ← Multiset.map_coe, listing, Multiset.map_map]
    rfl
  rw [← Multiset.coe_nodup, keys]
  refine Multiset.Nodup.map_on ?_ db.nodup_entries
  rintro ⟨one, v⟩ hm ⟨two, v'⟩ member' same
  have hf := Finmap.mem_lookup_iff.mpr hm
  have found' := Finmap.mem_lookup_iff.mpr member'
  obtain ⟨key, rfl, key_v⟩ := write_slot all hf
  obtain ⟨key', rfl, key_v'⟩ := write_slot all found'
  obtain rfl : key = key' := slot_injective (key_v.symm.trans (same.trans key_v'))
  obtain rfl : v = v' := Option.some.inj (hf.symm.trans found')
  rfl

/-- The records written in any order give what they show. -/
theorem Above.flush (ha : Above db below shown) (listing : Find db items) :
    commit (items.map StateItem.write) below = shown := by
  refine store_ext fun k => ?_
  by_cases there : k ∈ (items.map StateItem.write).map Sigma.fst
  · rw [List.map_map] at there
    obtain ⟨v, hl, rfl⟩ := List.mem_map.mp there
    obtain ⟨filed, hf⟩ := (mem_of_find listing v).mp hl
    obtain ⟨key, rfl, place⟩ := write_slot ha.filed hf
    have hw := find_commit_of_mem _ below v.write (nodup_writes ha.filed listing)
      (List.mem_map_of_mem hl)
    have look := ha.look key
    unfold filedChange at look
    rw [hf] at look
    change find _ v.write.1 = find shown v.write.1
    rw [hw, place, look]
    rfl
  · rw [find_commit_of_notMem _ below k there]
    by_cases state : ∃ key, k = slot key
    · obtain ⟨key, rfl⟩ := state
      have look := ha.look key
      unfold filedChange at look
      cases hf : find db (memoryKey key) with
      | none =>
        rw [look, hf]
        rfl
      | some v =>
        obtain ⟨key', place, own⟩ := write_slot ha.filed hf
        refine absurd ?_ there
        rw [memoryKey_injective place, ← own]
        exact List.mem_map_of_mem (List.mem_map_of_mem ((mem_of_find listing v).mpr ⟨_, hf⟩))
    · exact (ha.rest k fun key same => state ⟨key, same⟩).symm

end Above

structure Overlaid.Shows (o : Overlaid) (p : Plain) : Prop where
  chainID : o.api.chainID = octets p.chainID.text
  above : Above o.api.sc o.host.content p.content
  coherent : Coherent o.host
  reads : o.reads = p.reads

theorem Overlaid.Shows.read {o : Overlaid} (hs : o.Shows p) (k : Key) :
    (o.read (o.api.getOtherState (octets k.1.text) k.2)).Shows (p.read k) := by
  obtain ⟨answer, host⟩ := hs.above.getOtherState hs.coherent k
  have reads : o.reads ++ [((o.api.getOtherState (octets k.1.text) k.2).run calm o.host).1] =
      p.reads ++ [some (asState (find p.content (slot k)))] := by
    rw [answer, hs.reads]
  obtain ⟨hc, hco⟩ := hs.coherent.read host
  exact ⟨hs.chainID, hco.symm ▸ hs.above, hc, reads⟩

theorem Overlaid.Shows.call {o : Overlaid} (hs : o.Shows p) (c : Call) :
    (o.step (.call c)).Shows (p.step c) := by
  have own := hs.chainID
  cases c with
  | putState key value =>
    refine ⟨own, ?_, hs.coherent, hs.reads⟩
    change Above (StateCache.put o.api.chainID key value o.api.sc) _ _
    rw [own]
    exact hs.above.put (p.chainID, key) value
  | putOtherState chainID key value =>
    exact ⟨own, hs.above.put (chainID, key) value, hs.coherent, hs.reads⟩
  | delState key =>
    refine ⟨own, ?_, hs.coherent, hs.reads⟩
    change Above (StateCache.delete o.api.chainID key o.api.sc) _ _
    rw [own]
    exact hs.above.delete (p.chainID, key)
  | getState key =>
    change (o.read (o.api.getOtherState o.api.chainID key)).Shows _
    rw [own]
    exact hs.read (p.chainID, key)
  | getOtherState chainID key => exact hs.read (chainID, key)

theorem Overlaid.Shows.run {o : Overlaid} (hs : o.Shows p) (steps : List Step) :
    (steps.foldl Overlaid.step o).Shows ((calls steps).foldl Plain.step p) := by
  induction steps generalizing o p with
  | nil => exact hs
  | cons first rest ih =>
    cases first with
    | call c => exact ih (hs.call c)
    | evict keys => exact ih ⟨hs.chainID, hs.above, hs.coherent.evict keys, hs.reads⟩

/-! ## The two courses agree -/

/-- The pending changes, written in the order of a list. -/
def flushed (o : Overlaid) (items : List StateItem) : Host :=
    ((setContractState items).run calm o.host).2

theorem overlay_correct (chain : ChainID) (host : Host) (hc : Coherent host)
    (steps steps' : List Step) (same : calls steps = calls steps') :
    (runOverlaid chain host steps).reads = (runDirect chain host steps').reads ∧
      ∀ items, (runOverlaid chain host steps).api.GetAllState items →
        (flushed (runOverlaid chain host steps) items).content =
        (runDirect chain host steps').host.content ∧
          ∀ chainID key keys keys', ((getState chainID key).run calm
              ((flushed (runOverlaid chain host steps) items).evict [] keys)).1 =
            ((getState chainID key).run calm ((runDirect chain host steps').host.evict
              [] keys')).1 := by
  have hst : Overlaid.Shows ⟨⟨∅, octets chain.text⟩, host, []⟩ ⟨chain, host.content, []⟩ :=
    ⟨rfl, .empty host.content, hc, rfl⟩
  have start' : Direct.Shows ⟨chain, host, []⟩ ⟨chain, host.content, []⟩ :=
    ⟨rfl, rfl, hc, rfl⟩
  have hs := hst.run steps
  have shows' := start'.run steps'
  rw [← same] at shows'
  refine ⟨hs.reads.trans shows'.reads.symm, fun items listing => ?_⟩
  have hco : (flushed (runOverlaid chain host steps) items).content =
      (runDirect chain host steps').host.content := by
    refine (setContractState_quiet (quiet_calm _) items).2.trans ?_
    exact (hs.above.flush listing).trans shows'.content.symm
  refine ⟨hco, fun chainID key keys keys' => ?_⟩
  have flushed' := ((hs.coherent.setContractState items).evict keys).getState chainID key
  refine flushed'.trans (Eq.trans ?_ ((shows'.coherent.evict keys').getState chainID key).symm)
  exact congrArg (fun c => some (asState (find c (stateKey chainID key)))) hco

/-- A balance is deleted, put again and read, with the caches emptied on one side. -/
theorem overlay_correct_again :
    let steps : List Step :=
      [.call (.delState [7]), .call (.getState [7]), .call (.putState [7] [1]),
        .evict [slot (.hnb, [7])], .call (.getState [7]), .call (.getOtherState .hgs [7])]
    let host : Host := { Host.empty with
      content := (∅ : Store Bytes Value).insert (slot (.hnb, [7])) (.bytes [9]) }
    (runOverlaid .hnb host steps).reads = (runDirect .hnb host steps).reads ∧
      (runDirect .hnb host steps).reads = [some (.ok none), some (.ok (some [1])),
        some (.ok none)] :=
  ⟨(overlay_correct .hnb _ (fun _ _ hf => by cases hf) _ _ rfl).1, rfl⟩

end HNBChain.Audit.Guarantees.OverlayCorrectness
