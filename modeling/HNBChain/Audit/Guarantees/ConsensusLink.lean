import HNBChain.Audit.Source.P2p.Frames

/-!
# The consensus link of a neighbour

The two links of a node are brought together by the id that a `version` message claims.
`VersionHandle` compares the hosts when a sync link claims the id of a neighbour, but not when a
consensus link does: any host that has a sync link may open a consensus link, claim the id of a
neighbour there, and take the place of its consensus link.

The hosts agree as long as the ones that claim an id are its own.
-/
namespace HNBChain.Audit.Guarantees.ConsensusLink

open Lib Source Source.P2p NetSubServer Function

/-- An open consensus link of a neighbour comes from the host of its sync link. -/
def HostsAgree (s : NetSubServer) : Prop :=
  ∀ entry ∈ s.np, (s.links (s.peers entry.2).consLink).conn = .opened →
    hostOf (s.links (s.peers entry.2).consLink).addr = hostOf (s.getAddr entry.2)

/-! ## The condition -/

/-- An id that is claimed on a consensus link is that of no neighbour from another host, and a
`version` for a sync link comes from a sync connection. -/
def OwnId (s : NetSubServer) (data : MsgPayload) : Prop :=
  match data.payload with
  | .version v =>
    if v.isConsensus then ∀ p ∈ s.getPeer v.nonce, hostOf data.addr = hostOf (s.getAddr p)
    else s.peerSyncAddress data.addr = none → s.peerConsAddress data.addr = none
  | _ => True

/-! ## The invariant -/

/-- The object was made for a connection to a sync port, dialled or accepted. -/
def SyncObject (s : NetSubServer) (k : Nat) : Prop :=
    k < s.size ∧ (s.links (k, .sync)).recvChan = some .sync

/-- Objects are found under the addresses of their own connections, only those of sync connections
are neighbours, and their consensus links, which are among the links made so far, come from their
hosts. -/
structure Joined (s : NetSubServer) : Prop where
  syncAddress : ∀ a k, s.peerSyncAddress a = some k → SyncObject s k ∧ s.getAddr k = a
  consAddress : ∀ a k, s.peerConsAddress a = some k →
    k < s.size ∧ (s.links (k, .sync)).recvChan = none ∧ (s.peers k).consLink = (k, .cons) ∧
    (s.links (k, .cons)).addr = a
  np : ∀ entry ∈ s.np, SyncObject s entry.2
  made : ∀ k < s.size, (s.peers k).consLink.1 < s.size
  hosts : ∀ k, SyncObject s k → (s.links (s.peers k).consLink).conn = .opened →
    hostOf (s.links (s.peers k).consLink).addr = hostOf (s.getAddr k)

section

variable {s s' : NetSubServer}

theorem Joined.start : Joined {} where
  syncAddress _ _ found := nomatch found
  consAddress _ _ found := nomatch found
  np _ member := absurd member List.not_mem_nil
  made _ below := absurd below (Nat.not_lt_zero _)
  hosts _ object := absurd object.1 (Nat.not_lt_zero _)

theorem Joined.hostsAgree (hj : Joined s) : HostsAgree s :=
  fun entry hm ho => hj.hosts entry.2 (hj.np entry hm) ho

theorem syncObject_of_kept (kept : LinksKept s s') (k : Nat) : SyncObject s' k ↔
    SyncObject s k := by
  unfold SyncObject
  rw [kept.size, kept.recvChan]

theorem Joined.keeps (hj : Joined s) (hk : Keeps s s') : Joined s' where
  syncAddress a k found := by
    obtain ⟨hob, addr⟩ := hj.syncAddress a k (hk.syncAddress a k found)
    exact ⟨(syncObject_of_kept hk.toLinksKept k).mpr hob, (hk.addr _).trans addr⟩
  consAddress a k found := by
    rw [hk.size, hk.recvChan, hk.consLink, hk.addr]
    exact hj.consAddress a k (hk.consAddress a k found)
  np entry member := (syncObject_of_kept hk.toLinksKept _).mpr
    (hj.np entry (hk.np entry member))
  made k below := by
    rw [hk.size] at below ⊢
    rw [hk.consLink]
    exact hj.made k below
  hosts k hob opened := by
    rw [hk.consLink] at opened ⊢
    rw [getAddr, hk.addr, hk.addr]
    exact hj.hosts k ((syncObject_of_kept hk.toLinksKept k).mp hob)
      (hk.opened _ opened)

/-- The records play no part. -/
theorem Joined.removeFromInConnRecord (hj : Joined s) (addr : Bytes) :
    Joined (s.removeFromInConnRecord addr) :=
  ⟨hj.syncAddress, hj.consAddress, hj.np, hj.made, hj.hosts⟩

/-! ## New connections -/

section

variable (port : Port) (addr : Bytes)

theorem links_attach {l : LinkId} (old : l.1 < s.size) :
    (s.attach port addr).links l = s.links l := by
  have other (p : Port) : l ≠ (s.size, p) := fun same => old.ne (congrArg Prod.fst same)
  simp [attach, update_of_ne (other _)]

theorem peers_attach {k : Nat} (old : k < s.size) : (s.attach port addr).peers k = s.peers k :=
  update_of_ne old.ne _ _

theorem peer_attach : (s.attach port addr).peers s.size = newPeer s.size := update_self _ _ _

theorem syncObject_attach {k : Nat} (old : k < s.size) : SyncObject (s.attach port addr) k ↔
    SyncObject s k := by
  unfold SyncObject
  rw [links_attach port addr old]
  exact ⟨fun hob => ⟨old, hob.2⟩, fun hob => ⟨old.trans (Nat.lt_succ_self _), hob.2⟩⟩

/-- The link on the other port is unused. -/
theorem cons_attach_sync : (s.attach .sync addr).links (s.size, .cons) = {} := by
  simp [attach]

theorem sync_attach_sync :
    (s.attach .sync addr).links (s.size, .sync) =
      { addr := addr, conn := .opened, recvChan := some .sync } := by
  simp [attach]

theorem sync_attach_cons : (s.attach .cons addr).links (s.size, .sync) = {} := by
  simp [attach]

theorem cons_attach_cons :
    (s.attach .cons addr).links (s.size, .cons) =
      { addr := addr, conn := .opened, recvChan := some .cons } := by
  simp [attach]

/-- A new object is found under no address yet; if it is a sync object, it has no open consensus
link. -/
theorem Joined.attach (hj : Joined s) : Joined (s.attach port addr) where
  syncAddress a k found := by
    obtain ⟨hob, same⟩ := hj.syncAddress a k found
    refine ⟨(syncObject_attach port addr hob.1).mpr hob, ?_⟩
    rw [getAddr, links_attach port addr hob.1]
    exact same
  consAddress a k found := by
    obtain ⟨old, rest⟩ := hj.consAddress a k found
    rw [links_attach port addr old, links_attach port addr old, peers_attach port addr old]
    exact ⟨old.trans (Nat.lt_succ_self _), rest⟩
  np entry member := (syncObject_attach port addr (hj.np entry member).1).mpr
    (hj.np entry member)
  made k hb := by
    rcases Nat.lt_succ_iff_lt_or_eq.mp hb with old | rfl
    · rw [peers_attach port addr old]
      exact (hj.made k old).trans (Nat.lt_succ_self _)
    · rw [peer_attach]
      exact Nat.lt_succ_self _
  hosts k hob opened := by
    rcases Nat.lt_succ_iff_lt_or_eq.mp hob.1 with old | rfl
    · rw [peers_attach port addr old, links_attach port addr (hj.made k old)] at opened ⊢
      rw [getAddr, links_attach port addr old]
      exact hj.hosts k ((syncObject_attach port addr old).mp hob) opened
    · rw [peer_attach] at opened
      cases port with
      | sync =>
        rw [newPeer, cons_attach_sync] at opened
        exact Conn.noConfusion opened
      | cons =>
        have unused := hob.2
        rw [sync_attach_cons] at unused
        cases unused

theorem Joined.attachSync (hj : Joined s) :
    Joined ((s.attach .sync addr).addPeerSyncAddress addr s.size) := by
  have ha := hj.attach .sync addr
  refine ⟨fun a k hf => ?_, ha.consAddress, ha.np, ha.made, ha.hosts⟩
  by_cases same : a = addr
  · subst same
    simp only [addPeerSyncAddress, update_self, Option.some.injEq] at hf
    subst hf
    exact ⟨⟨Nat.lt_succ_self _, congrArg ConnInfo.recvChan (sync_attach_sync a)⟩,
      congrArg ConnInfo.addr (sync_attach_sync a)⟩
  · simp only [addPeerSyncAddress, update_of_ne same] at hf
    exact ha.syncAddress a k hf

theorem Joined.attachCons (hj : Joined s) :
    Joined ((s.attach .cons addr).addPeerConsAddress addr s.size) := by
  have ha := hj.attach .cons addr
  refine ⟨ha.syncAddress, fun a k hf => ?_, ha.np, ha.made, ha.hosts⟩
  by_cases same : a = addr
  · subst same
    simp only [addPeerConsAddress, update_self, Option.some.injEq] at hf
    subst hf
    exact ⟨Nat.lt_succ_self _, congrArg ConnInfo.recvChan (sync_attach_cons a),
      congrArg Peer.consLink (peer_attach .cons a),
      congrArg ConnInfo.addr (cons_attach_cons a)⟩
  · simp only [addPeerConsAddress, update_of_ne same] at hf
    exact ha.consAddress a k hf

end

theorem Joined.syncAccept (hj : Joined s) (config : Config) (addr : Bytes) :
    Joined (s.syncAccept config addr) := by
  have hr : Joined
      { s with inConnRecord := s.inConnRecord ++ [addr], accepted := s.size :: s.accepted } :=
    ⟨hj.syncAddress, hj.consAddress, hj.np, hj.made, hj.hosts⟩
  unfold NetSubServer.syncAccept
  split
  · exact hj
  split
  · exact hj
  split
  · exact hj
  split
  · exact hj
  exact hr.attachSync addr

theorem Joined.consAccept (hj : Joined s) (addr : Bytes) : Joined (s.consAccept addr) := by
  unfold NetSubServer.consAccept
  split
  · exact hj
  split
  · exact hj
  exact hj.attachCons addr

theorem Joined.connected (hj : Joined s) (isConsensus written : Bool) (addr : Bytes) :
    Joined (s.connected isConsensus written addr) := by
  unfold NetSubServer.connected
  dsimp only
  split
  · exact (hj.attachCons addr).keeps
      ((NetSubServer.setPeer_kept _ _ (by intro _; rfl)).trans (NetSubServer.send_kept _ _ _ _))
  · have hl : Joined { s with
        outConnRecord := if addr ∈ s.outConnRecord then s.outConnRecord
            else s.outConnRecord ++ [addr] } :=
      ⟨hj.syncAddress, hj.consAddress, hj.np, hj.made, hj.hosts⟩
    have hre := (hl.attachSync addr).keeps
      (NetSubServer.setPeer_kept _ s.size (f := fun p => { p with syncState := .hand })
        (by intro _; rfl))
    have sent := hre.keeps (NetSubServer.send_kept _ written false s.size)
    generalize NetSubServer.send _ written false s.size = result at sent ⊢
    rcases result with ⟨_ | _, s'⟩
    · exact sent.keeps (NetSubServer.removeFromOutConnRecord_kept _ _)
    · exact sent

/-! ## Messages -/

/-- The consensus link of the object that is found under an address is from the host of the
address. -/
theorem Joined.host_found (hj : Joined s) {addr : Bytes} {r : Nat}
    (hf : s.getPeerFromAddr addr = some r) :
    r < s.size ∧ ((s.links (s.peers r).consLink).conn = .opened →
      hostOf (s.links (s.peers r).consLink).addr = hostOf addr) := by
  unfold getPeerFromAddr at hf
  cases inSync : s.peerSyncAddress addr with
  | some k =>
    rw [inSync] at hf
    cases hf
    obtain ⟨hob, rfl⟩ := hj.syncAddress addr r inSync
    exact ⟨hob.1, hj.hosts r hob⟩
  | none =>
    rw [inSync] at hf
    obtain ⟨old, _, own, rfl⟩ := hj.consAddress addr r hf
    rw [own]
    exact ⟨old, fun _ => rfl⟩

/-- A consensus link is passed on to a neighbour that is at the same host. -/
theorem Joined.mergeConsLink (hj : Joined s) (nonce : UInt64) {r p : Nat} (made : r < s.size)
    (hob : SyncObject s p) (host : (s.links (s.peers r).consLink).conn = .opened →
      hostOf (s.links (s.peers r).consLink).addr = hostOf (s.getAddr p)) :
    Joined (s.mergeConsLink nonce r p) := by
  have kept := s.mergeConsLink_linksKept nonce r p
  have own : ((s.mergeConsLink nonce r p).peers p).consLink = (s.peers r).consLink := by
    simp [NetSubServer.mergeConsLink, NetSubServer.setPeer, NetSubServer.setLink]
  have others (k : Nat) (other : k ≠ p) :
      ((s.mergeConsLink nonce r p).peers k).consLink = (s.peers k).consLink := by
    simp [NetSubServer.mergeConsLink, NetSubServer.setPeer, NetSubServer.setLink,
      Function.update_of_ne other]
  refine ⟨fun a k hf => ?_, fun a k hf => ?_, fun entry hm => ?_, fun k hb => ?_,
    fun k inSync ho => ?_⟩
  · obtain ⟨hkn, addr⟩ := hj.syncAddress a k hf
    exact ⟨(syncObject_of_kept kept k).mpr hkn, (kept.addr _).trans addr⟩
  · -- the neighbour is a sync object, so no consensus address leads to it
    obtain ⟨old, unused, rest⟩ := hj.consAddress a k hf
    have other : k ≠ p := by
      rintro rfl
      rw [hob.2] at unused
      cases unused
    rw [kept.size, kept.recvChan, kept.addr, others k other]
    exact ⟨old, unused, rest⟩
  · exact (syncObject_of_kept kept _).mpr (hj.np entry hm)
  · rw [kept.size] at hb ⊢
    by_cases same : k = p
    · rw [same, own]
      exact hj.made r made
    · rw [others k same]
      exact hj.made k hb
  · have hkn := (syncObject_of_kept kept k).mp inSync
    rw [NetSubServer.getAddr, kept.addr, kept.addr]
    have hbe := kept.opened _ ho
    by_cases same : k = p
    · subst same
      rw [own] at hbe ⊢
      exact host hbe
    · rw [others k same] at hbe ⊢
      exact hj.hosts k hkn hbe

theorem Joined.versionConsensus (hj : Joined s) (config : Config) (v : VersionPayload)
    (data : MsgPayload) (written : Bool) {r p : Nat} (hf : s.getPeerFromAddr data.addr = some r)
    (hn : s.getPeer v.nonce = some p) (same : hostOf data.addr = hostOf (s.getAddr p)) :
    Joined (s.versionConsensus config v data written r p) := by
  obtain ⟨made, host⟩ := hj.host_found hf
  have merged : Joined (s.mergeConsLink v.nonce r p) :=
    hj.mergeConsLink v.nonce made (hj.np _ (mem_of_getPeer hn)) fun ho =>
    (host ho).trans same
  obtain kept | ⟨_, addr, kept⟩ := s.versionConsensus_cases config v data written r p
  · exact merged.keeps kept
  · exact (merged.removeFromInConnRecord addr).keeps kept

theorem Joined.addNbrNode (hj : Joined s) {k : Nat} (hob : SyncObject s k) :
    Joined (s.addNbrNode k) := by
  unfold NetSubServer.addNbrNode
  dsimp only
  split
  · exact hj
  · refine ⟨hj.syncAddress, hj.consAddress, fun entry hm => ?_,
      hj.made, hj.hosts⟩
    rcases List.mem_cons.mp hm with rfl | old
    · exact hob
    · exact hj.np entry old

theorem Joined.versionSync (hj : Joined s) (config : Config) (v : VersionPayload)
    (data : MsgPayload) (written : Bool)
    {r : Nat} (hob : SyncObject s r) : Joined (s.versionSync config v data written r) := by
  obtain ⟨_, kept, _⟩ | ⟨_, hrf | ⟨s', hbe, _, haf⟩⟩ :=
    s.versionSync_cases config v data written r
  · exact (hj.removeFromInConnRecord _).keeps kept
  · exact hj.keeps hrf
  · have hl := (hj.keeps hbe).addNbrNode
      ((syncObject_of_kept hbe.toLinksKept r).mpr hob)
    exact hl.keeps haf

theorem joined_preserved (config : Config) : Preserved config OwnId Joined where
  keeps := Joined.keeps
  syncAccept addr joined := joined.syncAccept config addr
  consAccept addr joined := joined.consAccept addr
  connected isConsensus written addr joined := joined.connected isConsensus written addr
  disconnect {s data} joined _ _ := (joined.removeFromInConnRecord data.addr).keeps
    (s.disconnectHandle_kept data).1
  versionConsensus {s data v r p} written joined ownId message consensus found named := by
    unfold OwnId at ownId
    rw [message] at ownId
    dsimp only at ownId
    rw [if_pos consensus] at ownId
    exact joined.versionConsensus config v data written found named (ownId p named)
  versionSync {s data v r} written joined ownId message plain found := by
    unfold OwnId at ownId
    rw [message] at ownId
    dsimp only at ownId
    rw [if_neg (Bool.eq_false_iff.mp plain)] at ownId
    unfold getPeerFromAddr at found
    cases inSync : s.peerSyncAddress data.addr with
    | some k =>
      rw [inSync] at found
      cases found
      exact joined.versionSync config v data written (joined.syncAddress data.addr r inSync).1
    | none =>
      rw [inSync, ownId inSync] at found
      cases found

end

/-- From the start on, in every run in which ids are claimed by their own hosts, the hosts of the
two links of each neighbour agree at every point. -/
theorem run_hostsAgree (config : Config) (events : List NetEvent)
    (ownIds : RunMeets config OwnId {} events) (n : Nat) :
    HostsAgree (run config {} (events.take n)) :=
  ((joined_preserved config).run Joined.start events ownIds n).hostsAgree

/-! ## Two hosts -/

def config : Config := ⟨1, 10, 10, 10⟩

def version (isConsensus : Bool) (nonce : UInt64) : VersionPayload :=
  { version := 0, services := 0, timeStamp := 0, syncPort := 0, httpInfoPort := 0, consPort := 0
    cap := List.Vector.replicate 32 0, nonce := nonce, startHeight := 0, relay :=
      0, isConsensus := isConsensus }

/-- The node at `10.0.0.1` has made the handshake for its sync link, with the id 7. -/
def greeted : List NetEvent :=
  [.syncAccept (octets "10.0.0.1:4000"), .received (0, .sync) (.version (version false 7)),
    .rxMsg .sync true,
    .received (0, .sync) (.verACK false), .rxMsg .sync true]

/-- It opens its consensus link. -/
def honest : List NetEvent :=
  greeted ++ [.consAccept (octets "10.0.0.1:4001"),
    .received (1, .cons) (.version (version true 7)), .rxMsg .cons true]

theorem honest_hostsAgree : RunMeets config OwnId {} honest ∧
    (let s := run config {} (honest.take 8)
     s.np = [(7, 0)] ∧ (s.peers 0).consLink = (1, .cons) ∧ (s.links (1, .cons)).conn = .opened ∧
     HostsAgree s) := by
  have ownIds : RunMeets config OwnId {} honest := by
    refine ⟨trivial, trivial, fun data rest hq => ?_, trivial, fun data rest hq => ?_,
      trivial, trivial,
      fun data rest hq => ?_, trivial⟩
    · obtain ⟨rfl, rfl⟩ := List.cons.inj hq
      exact fun hab => nomatch hab
    · obtain ⟨rfl, rfl⟩ := List.cons.inj hq
      trivial
    · obtain ⟨rfl, rfl⟩ := List.cons.inj hq
      rintro p hn
      obtain rfl := Option.some.inj hn
      decide +kernel
  exact ⟨ownIds, by decide +kernel, by decide +kernel, by decide +kernel,
    run_hostsAgree config honest ownIds 8⟩

/-- The host `10.0.0.2` opens a sync link, so that its address is on the record, and claims the id 7
on a consensus link. -/
def redirected : List NetEvent :=
  greeted ++ [.syncAccept (octets "10.0.0.2:5000"), .consAccept (octets "10.0.0.2:5001"),
    .received (2, .cons) (.version (version true 7)), .rxMsg .cons true]

theorem redirected_disagree :
    let s := run config {} redirected
    s.np = [(7, 0)] ∧ (s.links (s.peers 0).consLink).conn = .opened ∧
    hostOf (s.links (s.peers 0).consLink).addr = octets "10.0.0.2" ∧
    hostOf (s.getAddr 0) = octets "10.0.0.1" ∧
    ¬ HostsAgree s := by
  intro s
  have np : s.np = [(7, 0)] := by decide +kernel
  have ho : (s.links (s.peers 0).consLink).conn = .opened := by decide +kernel
  have cons : hostOf (s.links (s.peers 0).consLink).addr = octets "10.0.0.2" := by decide +kernel
  have sync : hostOf (s.getAddr 0) = octets "10.0.0.1" := by decide +kernel
  refine ⟨np, ho, cons, sync, fun agree => ?_⟩
  have same := agree (7, 0) (by rw [np]; exact List.mem_cons_self) ho
  rw [cons, sync] at same
  exact absurd same (by decide +kernel)

end HNBChain.Audit.Guarantees.ConsensusLink
