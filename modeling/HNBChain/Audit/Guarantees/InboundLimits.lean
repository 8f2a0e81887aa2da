import HNBChain.Audit.Source.P2p.Frames

/-!
# The limits for inbound links

`startSyncAccept` counts the addresses in the inbound record, not the links. A handled `disconnect`
takes the address off the record, and it may be a frame that the remote end sent: before the
handshake there is no neighbour with the id of the link, so that nothing is closed, and the next
connection of the same end is accepted.

The limits hold as long as an address is taken off the record together with the links that have it.
-/
namespace HNBChain.Audit.Guarantees.InboundLimits

open Lib Source Source.P2p NetSubServer List

/-- The objects of connections to the sync port that are still open. -/
def openInbound (s : NetSubServer) : List Nat :=
  s.accepted.filter fun k => (s.links (k, .sync)).conn = .opened

def WithinLimits (config : Config) (s : NetSubServer) : Prop :=
  (openInbound s).length ≤ config.maxConnInBound ∧
    ∀ ip, (openInbound s).countP (fun k => hostOf (s.getAddr k) = ip) ≤
    config.maxConnInBoundForSingleIP

/-! ## The condition -/

/-- A record that a message takes back is that of no open link, apart from the one that is closed
with it: for a `disconnect` the link of the neighbour with its id, for a `version` with the node's
own id the link of the object that is registered under its address. -/
def Orderly (config : Config) (s : NetSubServer) (data : MsgPayload) : Prop :=
  match data.payload with
  | .disconnected => ∀ k ∈ openInbound s, s.getAddr k = data.addr → s.getPeer data.id = some k
  | .version v =>
    v.nonce = config.id → v.isConsensus = false →
      ∀ r ∈ s.getPeerFromAddr data.addr, ∀ k ∈ openInbound s, s.getAddr k = s.getAddr r → k = r
  | _ => True

/-! ## The record covers the open links -/

structure Recorded (config : Config) (s : NetSubServer) : Prop where
  total : s.inConnRecord.length ≤ config.maxConnInBound
  perIP : ∀ ip, s.getIpCountInInConnRecord ip ≤ config.maxConnInBoundForSingleIP
  parted : ∀ addr ∈ s.inConnRecord, colon ∈ addr
  made : ∀ k ∈ s.accepted, k < s.size
  listed : ∀ k ∈ openInbound s, s.getAddr k ∈ s.inConnRecord
  distinct : ((openInbound s).map s.getAddr).Nodup
  strangers : ∀ entry ∈ s.np, entry.1 ≠ config.id

section

variable {config : Config} {s s' : NetSubServer}

theorem Recorded.start : Recorded config {} where
  total := Nat.zero_le _
  perIP _ := Nat.zero_le _
  parted _ member := absurd member not_mem_nil
  made _ member := absurd member not_mem_nil
  listed _ member := absurd member not_mem_nil
  distinct := nodup_nil
  strangers _ member := absurd member not_mem_nil

theorem Recorded.withinLimits (hr : Recorded config s) : WithinLimits config s := by
  have covered : ((openInbound s).map s.getAddr).Subperm s.inConnRecord := by
    refine subperm_of_subset hr.distinct fun addr hm => ?_
    obtain ⟨k, ho, rfl⟩ := mem_map.mp hm
    exact hr.listed k ho
  refine ⟨?_, fun ip => ?_⟩
  · rw [← length_map s.getAddr]
    exact covered.length_le.trans hr.total
  · -- the same host, the same text up to the first colon
    calc (openInbound s).countP (fun k => hostOf (s.getAddr k) = ip)
        ≤ (openInbound s).countP (fun k => (parseIPAddr (s.getAddr k)).1 = ip.takeWhile
            (· ≠ colon)) := by
          refine countP_mono_left fun k ho same => ?_
          have parted := hr.parted _ (hr.listed k ho)
          simp only [decide_eq_true_eq] at same ⊢
          rw [parseIPAddr_hostOf parted, same]
      _ = ((openInbound s).map s.getAddr).countP
          (fun addr => (parseIPAddr addr).1 = ip.takeWhile (· ≠ colon)) := by
          rw [countP_map]
          rfl
      _ ≤ s.getIpCountInInConnRecord (ip.takeWhile (· ≠ colon)) := covered.countP_le _
      _ ≤ config.maxConnInBoundForSingleIP := hr.perIP _

/-- Links that are only closed. -/
theorem openInbound_sublist (kept : LinksKept s s') : (openInbound s').Sublist (openInbound s) := by
  unfold openInbound
  rw [kept.accepted]
  refine monotone_filter_right _ fun k ho => ?_
  simp only [decide_eq_true_eq] at ho ⊢
  exact kept.opened _ ho

theorem getAddr_of_kept (kept : LinksKept s s') (k : Nat) :
    s'.getAddr k = s.getAddr k := kept.addr _

theorem distinct_of_kept (hr : Recorded config s) (kept : LinksKept s s') :
    ((openInbound s').map s'.getAddr).Nodup := by
  have addrs : s'.getAddr = s.getAddr := funext (getAddr_of_kept kept)
  rw [addrs]
  exact hr.distinct.sublist ((openInbound_sublist kept).map _)

theorem Recorded.kept (hr : Recorded config s) (kept : LinksKept s s')
    (strangers : ∀ entry ∈ s'.np, entry.1 ≠ config.id) : Recorded config s' where
  total := by
    rw [kept.record]
    exact hr.total
  perIP ip := by
    unfold getIpCountInInConnRecord
    rw [kept.record]
    exact hr.perIP ip
  parted := by
    rw [kept.record]
    exact hr.parted
  made := by
    rw [kept.accepted, kept.size]
    exact hr.made
  listed k opened := by
    rw [getAddr_of_kept kept, kept.record]
    exact hr.listed k ((openInbound_sublist kept).subset opened)
  distinct := distinct_of_kept hr kept
  strangers := strangers

theorem Recorded.keeps (hr : Recorded config s) (hk : Keeps s s') : Recorded config s' :=
  hr.kept hk.toLinksKept fun entry hm => hr.strangers entry
    (hk.np entry hm)

/-- A record is taken back, and afterwards no open link has its address. -/
theorem Recorded.removed (hr : Recorded config s) {addr : Bytes}
    (hk : Keeps (s.removeFromInConnRecord addr) s')
    (gone : ∀ k ∈ openInbound s', s'.getAddr k ≠ addr) : Recorded config s' := by
  -- as far as links are concerned, the state before is the one with the shorter record
  have links : openInbound (s.removeFromInConnRecord addr) = openInbound s := rfl
  have addrs : (s.removeFromInConnRecord addr).getAddr = s.getAddr := rfl
  have hs : (s.inConnRecord.filter (· ≠ addr)).Sublist s.inConnRecord := filter_sublist
  refine ⟨?_, fun ip => ?_, fun a hm => ?_, ?_, fun k ho => ?_, ?_, fun entry hm => ?_⟩
  · rw [hk.record]
    exact hs.length_le.trans hr.total
  · unfold getIpCountInInConnRecord
    rw [hk.record]
    exact hs.countP_le.trans (hr.perIP ip)
  · rw [hk.record] at hm
    exact hr.parted a (hs.subset hm)
  · rw [hk.accepted, hk.size]
    exact hr.made
  · have hb : k ∈ openInbound s := (openInbound_sublist hk.toLinksKept).subset ho
    have same : s'.getAddr k = s.getAddr k := getAddr_of_kept hk.toLinksKept k
    rw [hk.record]
    refine mem_filter.mpr ⟨?_, ?_⟩
    · rw [same]
      exact hr.listed k hb
    · simpa using gone k ho
  · have sublist := openInbound_sublist hk.toLinksKept
    rw [funext (getAddr_of_kept hk.toLinksKept), addrs]
    exact hr.distinct.sublist (sublist.map _)
  · exact hr.strangers entry (hk.np entry hm)

/-! ## New connections -/

/-- A new object that is not one of the accepted ones. -/
theorem Recorded.attach (hr : Recorded config s) (port : Port) (addr : Bytes) :
    Recorded config (s.attach port addr) := by
  have links (k : Nat) (made : k ∈ s.accepted) :
      (s.attach port addr).links (k, .sync) = s.links (k, .sync) := by
    have old : k ≠ s.size := (hr.made k made).ne
    have other (p : Port) : (k, Port.sync) ≠ (s.size, p) := fun same => old (congrArg Prod.fst same)
    simp [NetSubServer.attach, Function.update_of_ne (other _)]
  have ho : openInbound (s.attach port addr) = openInbound s :=
    List.filter_congr fun k made => by rw [links k made]
  have addrs (k : Nat) (made : k ∈ openInbound s) : (s.attach port addr).getAddr k = s.getAddr k :=
    congrArg ConnInfo.addr (links k (List.mem_filter.mp made).1)
  refine ⟨hr.total, hr.perIP, hr.parted, fun k made => ?_, fun k made => ?_, ?_,
    hr.strangers⟩
  · exact (hr.made k made).trans (Nat.lt_succ_self _)
  · rw [ho] at made
    rw [addrs k made]
    exact hr.listed k made
  · rw [ho, List.map_congr_left addrs]
    exact hr.distinct

theorem Recorded.of_same (hr : Recorded config s) (size : s'.size = s.size)
    (ha : s'.accepted = s.accepted)
    (record : s'.inConnRecord = s.inConnRecord) (links : s'.links = s.links) (np : s'.np = s.np) :
    Recorded config s' :=
  hr.kept (.of_eq size ha record links) (by rw [np]; exact hr.strangers)

/-- The connection that passes the checks of `startSyncAccept`. -/
def afterAccept (s : NetSubServer) (addr : Bytes) : NetSubServer :=
  let k := s.size
  let s := { s with inConnRecord := s.inConnRecord ++ [addr], accepted := k :: s.accepted }
  (s.attach .sync addr).addPeerSyncAddress addr k

theorem links_afterAccept (addr : Bytes) {k : Nat} (old : k < s.size) :
    (afterAccept s addr).links (k, .sync) = s.links (k, .sync) := by
  have other (p : Port) : (k, Port.sync) ≠ (s.size, p) :=
    fun same => old.ne (congrArg Prod.fst same)
  simp [afterAccept, NetSubServer.attach, NetSubServer.addPeerSyncAddress,
    Function.update_of_ne (other _)]

theorem link_afterAccept (addr : Bytes) :
    (afterAccept s addr).links (s.size, .sync) =
      { addr := addr, conn := .opened, recvChan := some .sync } := by
  simp [afterAccept, NetSubServer.attach, NetSubServer.addPeerSyncAddress]

theorem openInbound_afterAccept (hr : Recorded config s) (addr : Bytes) :
    openInbound (afterAccept s addr) = s.size :: openInbound s := by
  have ha : (afterAccept s addr).accepted = s.size :: s.accepted := rfl
  have rest : s.accepted.filter (fun k => ((afterAccept s addr).links (k, .sync)).conn = .opened) =
      openInbound s :=
    filter_congr fun k made => by rw [links_afterAccept addr (hr.made k made)]
  unfold openInbound
  rw [ha, filter_cons_of_pos (by simp [link_afterAccept]), rest]
  rfl

theorem Recorded.afterAccept (hr : Recorded config s) {addr : Bytes} (new : addr ∉ s.inConnRecord)
    (room : s.inConnRecord.length < config.maxConnInBound) (parted : colon ∈ addr)
    (single : s.getIpCountInInConnRecord (parseIPAddr addr).1 < config.maxConnInBoundForSingleIP) :
    Recorded config (afterAccept s addr) := by
  have record : (InboundLimits.afterAccept s addr).inConnRecord = s.inConnRecord ++ [addr] := rfl
  have ho := openInbound_afterAccept hr addr
  have own : (InboundLimits.afterAccept s addr).getAddr s.size = addr :=
    congrArg ConnInfo.addr (link_afterAccept addr)
  have addrs (k : Nat) (made : k ∈ openInbound s) :
      (InboundLimits.afterAccept s addr).getAddr k = s.getAddr k :=
    congrArg ConnInfo.addr (links_afterAccept addr (hr.made k (mem_filter.mp made).1))
  refine ⟨?_, fun ip => ?_, fun a hm => ?_, fun k made => ?_, fun k made => ?_, ?_,
    hr.strangers⟩
  · rw [record, length_append]
    exact room
  · unfold getIpCountInInConnRecord
    rw [record, countP_append, countP_singleton]
    by_cases same : (parseIPAddr addr).1 = ip
    · subst same
      rw [if_pos (by simp)]
      exact single
    · rw [if_neg (by simpa using same)]
      exact hr.perIP ip
  · rw [record, mem_append, mem_singleton] at hm
    rcases hm with old | rfl
    · exact hr.parted a old
    · exact parted
  · rcases mem_cons.mp made with rfl | old
    · exact Nat.lt_succ_self _
    · exact (hr.made k old).trans (Nat.lt_succ_self _)
  · rw [ho] at made
    rw [record, mem_append]
    rcases mem_cons.mp made with rfl | old
    · rw [own]
      exact .inr mem_cons_self
    · rw [addrs k old]
      exact .inl (hr.listed k old)
  · rw [ho, map_cons, own, map_congr_left addrs, nodup_cons]
    refine ⟨fun hm => ?_, hr.distinct⟩
    obtain ⟨k, old, same⟩ := mem_map.mp hm
    rw [← same] at new
    exact new (hr.listed k old)

theorem Recorded.syncAccept (hr : Recorded config s) (addr : Bytes) :
    Recorded config (s.syncAccept config addr) := by
  unfold NetSubServer.syncAccept
  split
  · exact hr
  next new =>
    split
    · exact hr
    next room =>
      split
      · exact hr
      next parted =>
        split
        · exact hr
        next single =>
          have colonIn : colon ∈ addr := by simpa [parseIPAddr] using parted
          exact hr.afterAccept new (not_le.mp room) colonIn (not_le.mp single)

theorem Recorded.consAccept (hr : Recorded config s) (addr : Bytes) :
    Recorded config (s.consAccept addr) := by
  unfold NetSubServer.consAccept
  split
  · exact hr
  · split
    · exact hr
    · exact (hr.attach .cons addr).of_same rfl rfl rfl rfl rfl

theorem Recorded.connected (hr : Recorded config s) (isConsensus written : Bool)
    (addr : Bytes) : Recorded config (s.connected isConsensus written addr) := by
  unfold NetSubServer.connected
  dsimp only
  split
  · have hre : Recorded config
        (((s.attach .cons addr).addPeerConsAddress addr s.size).setPeer s.size fun p =>
            { p with consState := .hand }) :=
      (hr.attach .cons addr).of_same rfl rfl rfl rfl rfl
    exact hre.keeps (NetSubServer.send_kept _ _ _ _)
  · have hre : Recorded config
        ((({ s with outConnRecord := if addr ∈ s.outConnRecord then s.outConnRecord
          else s.outConnRecord ++ [addr] }.attach
            .sync addr).addPeerSyncAddress addr s.size).setPeer s.size fun p =>
                { p with syncState := .hand }) :=
      (hr.attach .sync addr).of_same rfl rfl rfl rfl rfl
    have sent := hre.keeps (NetSubServer.send_kept _ written false s.size)
    generalize NetSubServer.send _ written false s.size = result at sent ⊢
    rcases result with ⟨_ | _, s'⟩
    · exact sent.keeps (NetSubServer.removeFromOutConnRecord_kept _ _)
    · exact sent

/-! ## Messages -/

theorem Recorded.addNbrNode (hr : Recorded config s) {k : Nat}
    (other : (s.peers k).id ≠ config.id) : Recorded config (s.addNbrNode k) := by
  unfold NetSubServer.addNbrNode
  dsimp only
  split
  · exact hr
  · refine hr.kept (.of_eq rfl rfl rfl rfl) fun entry hm => ?_
    rcases List.mem_cons.mp hm with rfl | old
    · exact other
    · exact hr.strangers entry old

theorem Recorded.versionConsensus (hr : Recorded config s) (v : VersionPayload)
    (data : MsgPayload) (written : Bool)
    (remotePeer : Nat) {p : Nat} (hf : s.getPeer v.nonce = some p) :
    Recorded config (s.versionConsensus config v data written remotePeer p) := by
  have merged : Recorded config (s.mergeConsLink v.nonce remotePeer p) :=
    hr.kept (s.mergeConsLink_linksKept v.nonce remotePeer p) hr.strangers
  obtain kept | ⟨self, _⟩ := s.versionConsensus_cases config v data written remotePeer p
  · exact merged.keeps kept
  · exact absurd self (hr.strangers _ (mem_of_getPeer hf))

theorem Recorded.versionSync (hr : Recorded config s) (v : VersionPayload) (data : MsgPayload)
    (written : Bool) {r : Nat} (hal : v.nonce = config.id → ∀ k ∈ openInbound s,
      s.getAddr k = s.getAddr r → k = r) :
    Recorded config (s.versionSync config v data written r) := by
  obtain ⟨self, kept, hc⟩ | ⟨other, hrf | ⟨s', hb, hn, haf⟩⟩ :=
    s.versionSync_cases config v data written r
  · refine hr.removed kept fun k ho same => ?_
    have hb : k ∈ openInbound s := (openInbound_sublist kept.toLinksKept).subset ho
    have own : k = r := hal self k hb ((getAddr_of_kept kept.toLinksKept k).symm.trans same)
    subst own
    exact absurd (by simpa using (mem_filter.mp ho).2) hc
  · exact hr.keeps hrf
  · rw [← hn] at other
    exact ((hr.keeps hb).addNbrNode other).keeps haf

theorem Recorded.disconnectHandle (hr : Recorded config s) {data : MsgPayload}
    (hal : ∀ k ∈ openInbound s, s.getAddr k = data.addr → s.getPeer data.id = some k) :
    Recorded config (s.disconnectHandle data) := by
  obtain ⟨hk, closes⟩ := s.disconnectHandle_kept data
  refine hr.removed hk fun k ho same => ?_
  have hb : k ∈ openInbound s := (openInbound_sublist hk.toLinksKept).subset ho
  have addr : s.getAddr k = data.addr := (getAddr_of_kept hk.toLinksKept k).symm.trans same
  exact closes k (hal k hb addr) addr (by simpa using (mem_filter.mp ho).2)

theorem recorded_preserved : Preserved config (Orderly config) (Recorded config) where
  keeps := Recorded.keeps
  syncAccept addr recorded := recorded.syncAccept addr
  consAccept addr recorded := recorded.consAccept addr
  connected isConsensus written addr recorded := recorded.connected isConsensus written addr
  disconnect recorded orderly message := by
    unfold Orderly at orderly
    rw [message] at orderly
    exact recorded.disconnectHandle orderly
  versionConsensus written recorded _ _ _ _ named := recorded.versionConsensus _ _ written _ named
  versionSync written recorded orderly message plain found := by
    unfold Orderly at orderly
    rw [message] at orderly
    exact recorded.versionSync _ _ written fun self => orderly self plain _ found

end

/-- From the start on, in every run in which records are only taken back with their links, the
limits hold at every point. -/
theorem run_withinLimits (config : Config) (events : List NetEvent)
    (hor : RunMeets config (Orderly config) {} events) (n : Nat) :
    WithinLimits config (run config {} (events.take n)) :=
  (recorded_preserved.run Recorded.start events hor n).withinLimits

/-! ## One inbound connection allowed -/

def single : Config := ⟨1, 1, 1, 10⟩

def firstAddr : Bytes := octets "10.0.0.7:4000"

def secondAddr : Bytes := octets "10.0.0.7:4001"

/-- The remote end closes its connection, the node handles the notice of its own `Rx`, and the end
connects again. -/
def reconnect : List NetEvent := [.syncAccept firstAddr, .rxEnds (0, .sync), .rxMsg .sync true,
    .syncAccept firstAddr]

theorem reconnect_withinLimits : RunMeets single (Orderly single) {} reconnect ∧
    openInbound (run single {} (reconnect.take 4)) = [1] ∧
    WithinLimits single (run single {} (reconnect.take 4)) := by
  have hor : RunMeets single (Orderly single) {} reconnect := by
    refine ⟨trivial, trivial, fun data rest hq => ?_, trivial, trivial⟩
    have notice : data = ⟨0, firstAddr, .disconnected⟩ := (cons.inj hq).1.symm
    have hc : openInbound (run single {} (reconnect.take 2)) = [] := by decide +kernel
    subst notice
    intro k ho
    change k ∈ openInbound (run single {} (reconnect.take 2)) at ho
    rw [hc] at ho
    cases ho
  exact ⟨hor, by decide +kernel, run_withinLimits single reconnect hor 4⟩

/-- Before any handshake the remote end sends a `disconnect`, stays connected and connects once
more. -/
def pretended : List NetEvent :=
  [.syncAccept firstAddr, .received (0, .sync) .disconnected, .rxMsg .sync true,
    .syncAccept secondAddr]

theorem pretended_exceeds : openInbound (run single {} pretended) = [1, 0] ∧
    (∀ k ∈ openInbound (run single {} pretended),
      hostOf ((run single {} pretended).getAddr k) = octets "10.0.0.7") ∧
    ¬ WithinLimits single (run single {} pretended) := by
  have ho : openInbound (run single {} pretended) = [1, 0] := by decide +kernel
  refine ⟨ho, by decide +kernel, fun hw => ?_⟩
  have two := hw.1
  rw [ho] at two
  exact absurd two (by decide)

end HNBChain.Audit.Guarantees.InboundLimits
