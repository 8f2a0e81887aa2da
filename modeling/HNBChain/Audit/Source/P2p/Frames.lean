import HNBChain.Audit.Source.P2p.Connect

/-!
# What the handlers leave alone

Apart from accepting and dialling, no step makes a link or gives one another address, and links are
only closed. Only three places do more: a record is taken back (`DisconnectHandle`, and a `version`
with the node's own id), a neighbour is listed, and a consensus link is passed on.
-/
namespace HNBChain.Audit.Source.P2p

open Lib Function

/-- The same links with the same addresses, open only if they were, and the same inbound record. -/
structure LinksKept (s s' : NetSubServer) : Prop where
  size : s'.size = s.size
  accepted : s'.accepted = s.accepted
  record : s'.inConnRecord = s.inConnRecord
  addr : ∀ l, (s'.links l).addr = (s.links l).addr
  opened : ∀ l, (s'.links l).conn = .opened → (s.links l).conn = .opened
  recvChan : ∀ l, (s'.links l).recvChan = (s.links l).recvChan

/-- The same consensus link for each object, and nothing that is registered or listed anew. -/
structure OwnersKept (s s' : NetSubServer) : Prop where
  consLink : ∀ k, (s'.peers k).consLink = (s.peers k).consLink
  syncAddress : ∀ a k, s'.peerSyncAddress a = some k → s.peerSyncAddress a = some k
  consAddress : ∀ a k, s'.peerConsAddress a = some k → s.peerConsAddress a = some k
  np : ∀ entry ∈ s'.np, entry ∈ s.np

structure Keeps (s s' : NetSubServer) : Prop extends LinksKept s s', OwnersKept s s'

section

variable {s s' s'' : NetSubServer}

theorem LinksKept.of_eq (size : s'.size = s.size) (ha : s'.accepted = s.accepted)
    (record : s'.inConnRecord = s.inConnRecord) (links : s'.links = s.links) : LinksKept s s' :=
  ⟨size, ha, record, fun _ => by rw [links], fun _ => by rw [links]; exact id,
    fun _ => by rw [links]⟩

theorem OwnersKept.of_eq (peers : s'.peers = s.peers)
    (sync : s'.peerSyncAddress = s.peerSyncAddress)
    (cons : s'.peerConsAddress = s.peerConsAddress) (np : s'.np = s.np) : OwnersKept s s' :=
  ⟨fun _ => by rw [peers], fun _ _ => by rw [sync]; exact id, fun _ _ => by rw [cons]; exact id,
    fun _ => by rw [np]; exact id⟩

theorem Keeps.refl (s : NetSubServer) : Keeps s s :=
    ⟨.of_eq rfl rfl rfl rfl, .of_eq rfl rfl rfl rfl⟩

theorem LinksKept.trans (h1 : LinksKept s s') (h2 : LinksKept s' s'') : LinksKept s s'' where
  size := h2.size.trans h1.size
  accepted := h2.accepted.trans h1.accepted
  record := h2.record.trans h1.record
  addr l := (h2.addr l).trans (h1.addr l)
  opened l stays := h1.opened l (h2.opened l stays)
  recvChan l := (h2.recvChan l).trans (h1.recvChan l)

theorem OwnersKept.trans (h1 : OwnersKept s s') (h2 : OwnersKept s' s'') :
    OwnersKept s s'' where
  consLink k := (h2.consLink k).trans (h1.consLink k)
  syncAddress a k found := h1.syncAddress a k (h2.syncAddress a k found)
  consAddress a k found := h1.consAddress a k (h2.consAddress a k found)
  np entry member := h1.np entry (h2.np entry member)

theorem Keeps.trans (h1 : Keeps s s') (h2 : Keeps s' s'') : Keeps s s'' :=
  ⟨h1.toLinksKept.trans h2.toLinksKept, h1.toOwnersKept.trans h2.toOwnersKept⟩

theorem Keeps.ite {c : Prop} [Decidable c] (yes : Keeps s s') (no : Keeps s s'') :
    Keeps s (if c then s' else s'') := by
  split
  · exact yes
  · exact no

end

namespace NetSubServer

variable (s : NetSubServer)

theorem mem_of_getPeer {s : NetSubServer} {id : UInt64} {k : Nat} (hf : s.getPeer id = some k) :
    (id, k) ∈ s.np := by
  obtain ⟨before, after, parts, _⟩ := List.lookup_eq_some_iff.mp hf
  rw [parts]
  exact List.mem_append_right _ List.mem_cons_self

variable (l : LinkId)

theorem setLink_kept {f : ConnInfo → ConnInfo} (addr : ∀ link, (f link).addr = link.addr)
    (ho : ∀ link, (f link).conn = .opened → link.conn = .opened)
    (recvChan : ∀ link, (f link).recvChan = link.recvChan) : Keeps s (s.setLink l f) := by
  refine ⟨⟨rfl, rfl, rfl, fun other => ?_, fun other hs => ?_, fun other => ?_⟩,
    .of_eq rfl rfl rfl rfl⟩
  · by_cases same : other = l
    · subst same
      simp [setLink, addr]
    · simp [setLink, update_of_ne same]
  · by_cases same : other = l
    · subst same
      rw [setLink] at hs
      exact ho _ (by simpa using hs)
    · simpa [setLink, update_of_ne same] using hs
  · by_cases same : other = l
    · subst same
      simp [setLink, recvChan]
    · simp [setLink, update_of_ne same]

variable (k : Nat)

theorem setPeer_linksKept (f : Peer → Peer) : LinksKept s (s.setPeer k f) :=
  .of_eq rfl rfl rfl rfl

theorem setPeer_kept {f : Peer → Peer} (consLink : ∀ p, (f p).consLink = p.consLink) :
    Keeps s (s.setPeer k f) := by
  refine ⟨.of_eq rfl rfl rfl rfl, fun other => ?_, fun _ _ => id, fun _ _ => id, fun _ => id⟩
  by_cases same : other = k
  · subst same
    simp [setPeer, consLink]
  · simp [setPeer, update_of_ne same]

theorem push_kept (port : Port) (data : MsgPayload) : Keeps s (s.push port data) := by
  cases port <;> exact ⟨.of_eq rfl rfl rfl rfl, .of_eq rfl rfl rfl rfl⟩

theorem closeConn_kept : Keeps s (s.closeConn l) :=
  s.setLink_kept l (fun _ => rfl) (fun _ hs => Conn.noConfusion hs) fun _ => rfl

theorem disconnectNotify_kept : Keeps s (s.disconnectNotify l) := by
  unfold disconnectNotify
  dsimp only
  split
  · exact s.closeConn_kept l
  · exact (s.closeConn_kept l).trans (push_kept _ _ _)

theorem tx_kept (written : Bool) (l : LinkId) : Keeps s (s.tx written l).2 := by
  unfold tx
  split
  · exact .refl s
  · split
    · exact .refl s
    · exact s.disconnectNotify_kept l
  · exact s.disconnectNotify_kept l

theorem send_kept (written isConsensus : Bool) (k : Nat) :
    Keeps s (s.send written isConsensus k).2 := by
  unfold send
  dsimp only
  split <;> exact tx_kept _ _ _

theorem closeLink_kept : Keeps s (s.closeLink l) := by
  refine s.setLink_kept l (fun link => ?_) (fun link hs => ?_) fun link => ?_
  · split <;> rfl
  · split at hs
    next opened => exact opened
    · exact hs
  · split <;> rfl

/-- The link is not open afterwards. -/
theorem closeLink_closed : ((s.closeLink l).links l).conn ≠ .opened := by
  simp only [closeLink, setLink, update_self]
  split
  · exact fun hs => Conn.noConfusion hs
  next closed => exact closed

theorem closeSync_kept : Keeps s (s.closeSync k) := by
  exact (s.setPeer_kept k (by intro _; rfl)).trans (closeLink_kept _ _)

theorem closeCons_kept : Keeps s (s.closeCons k) := by
  exact (s.setPeer_kept k (by intro _; rfl)).trans (closeLink_kept _ _)

theorem closeSync_closed : ((s.closeSync k).links (k, .sync)).conn ≠ .opened := closeLink_closed _ _

variable (addr : Bytes)

theorem removeFromOutConnRecord_kept : Keeps s (s.removeFromOutConnRecord addr) :=
  ⟨.of_eq rfl rfl rfl rfl, .of_eq rfl rfl rfl rfl⟩

theorem removeFromConnectingList_kept : Keeps s (s.removeFromConnectingList addr) :=
  ⟨.of_eq rfl rfl rfl rfl, .of_eq rfl rfl rfl rfl⟩

theorem setOwnAddress_kept : Keeps s (s.setOwnAddress addr) :=
  ⟨.of_eq rfl rfl rfl rfl, .of_eq rfl rfl rfl rfl⟩

theorem removePeerSyncAddress_kept : Keeps s (s.removePeerSyncAddress addr) := by
  refine ⟨.of_eq rfl rfl rfl rfl, fun _ => rfl, fun a k hf => ?_, fun _ _ => id, fun _ => id⟩
  by_cases same : a = addr
  · subst same
    simp [removePeerSyncAddress] at hf
  · simpa [removePeerSyncAddress, update_of_ne same] using hf

theorem removePeerConsAddress_kept : Keeps s (s.removePeerConsAddress addr) := by
  refine ⟨.of_eq rfl rfl rfl rfl, fun _ => rfl, fun _ _ => id, fun a k hf => ?_, fun _ => id⟩
  by_cases same : a = addr
  · subst same
    simp [removePeerConsAddress] at hf
  · simpa [removePeerConsAddress, update_of_ne same] using hf

theorem filterNp_kept (keep : UInt64 × Nat → Bool) : Keeps s { s with np := s.np.filter keep } :=
  ⟨.of_eq rfl rfl rfl rfl, fun _ => rfl, fun _ _ => id, fun _ _ => id,
    fun _ hm => (List.mem_filter.mp hm).1⟩

theorem reply_kept (data : MsgPayload) (written : Bool) : Keeps s (s.reply data written) := by
  unfold reply
  split
  · exact .refl s
  · exact send_kept _ _ _ _

theorem verAckHandle_kept (isConsensus : Bool) (data : MsgPayload) (written : Bool) :
    Keeps s (s.verAckHandle isConsensus data written) := by
  unfold verAckHandle
  cases s.getPeer data.id with
  | none => exact .refl s
  | some k =>
    generalize (if isConsensus then (s.peers k).consState else (s.peers k).syncState) = state
    have stated := s.setPeer_kept k (f := fun p =>
      if isConsensus then { p with consState := .establish }
        else { p with syncState := .establish })
      fun p => by split <;> rfl
    have hl := stated.trans (removeFromConnectingList_kept _ data.addr)
    exact .ite (.refl s) (.ite (hl.trans (send_kept _ _ _ _)) hl)

theorem replaceObsolete_kept (v : VersionPayload) (data : MsgPayload) (remotePeer : Nat) :
    Keeps s (s.replaceObsolete v data remotePeer).2 := by
  unfold replaceObsolete
  split
  · exact .refl s
  · split
    · exact .refl s
    · split
      · exact ((s.filterNp_kept _).trans (closeSync_kept _ _)).trans (closeCons_kept _ _)
      · exact closeSync_kept _ _

theorem mergeConsLink_linksKept (nonce : UInt64) (remotePeer p : Nat) :
    LinksKept s (s.mergeConsLink nonce remotePeer p) := by
  have hp := s.setPeer_linksKept p fun peer =>
    { peer with consLink := (s.peers remotePeer).consLink }
  have hn := setLink_kept (s.setPeer p fun peer =>
    { peer with consLink := (s.peers remotePeer).consLink })
    (s.peers remotePeer).consLink (f := fun link => { link with id := nonce }) (fun _ => rfl)
    (fun _ => id) fun _ => rfl
  unfold mergeConsLink
  exact (hp.trans hn.toLinksKept).trans (setPeer_linksKept _ _ _)

theorem timeout_kept (id : UInt64) : Keeps s (s.timeout id) := by
  unfold timeout
  split
  · exact .refl s
  · split
    · exact (closeSync_kept _ _).trans (closeCons_kept _ _)
    · exact .refl s

theorem closeAll_kept (entries : List (UInt64 × Nat)) :
    Keeps s (entries.foldl (fun s entry => (s.closeSync entry.2).closeCons entry.2) s) := by
  induction entries generalizing s with
  | nil => exact .refl s
  | cons entry rest ih => exact ((closeSync_kept _ _).trans (closeCons_kept _ _)).trans (ih _)

theorem retryInactivePeer_kept : Keeps s s.retryInactivePeer := by
  have hc := s.closeAll_kept (s.np.filter fun entry => s.isInactive entry.2)
  exact ⟨⟨hc.size, hc.accepted, hc.record, hc.addr, hc.opened, hc.recvChan⟩,
    hc.consLink,
    hc.syncAddress, hc.consAddress, fun _ hm => (List.mem_filter.mp hm).1⟩

theorem giveUp_kept : Keeps s (s.giveUp addr) := by
  unfold giveUp
  dsimp only
  split
  · exact removeFromConnectingList_kept _ _
  next k _ =>
    have hl := removeFromConnectingList_kept s addr
    generalize s.removeFromConnectingList addr = s' at hl ⊢
    have forgotten : Keeps s
        (if s'.getAddr k = addr then (s'.removePeerSyncAddress addr).removePeerConsAddress addr
            else s') :=
      .ite (hl.trans ((removePeerSyncAddress_kept _ _).trans (removePeerConsAddress_kept _ _)))
      hl
    generalize (if s'.getAddr k = addr then (s'.removePeerSyncAddress addr).removePeerConsAddress
      addr else s') = s''
      at forgotten ⊢
    have both : Keeps s (if (s''.links (s''.peers k).consLink).addr = addr
        then s''.removePeerConsAddress addr else s'') :=
      .ite (forgotten.trans (removePeerConsAddress_kept _ _)) forgotten
    exact both.trans (filterNp_kept _ _)

theorem received_kept (msg : Message) : Keeps s (s.received l msg) := by
  unfold received
  split
  · dsimp only
    split
    · exact .refl s
    · exact push_kept _ _ _
  · exact .refl s

theorem rxEnds_kept : Keeps s (s.rxEnds l) := by
  unfold rxEnds
  split
  · have ended : Keeps s { s with rx := update s.rx l false } :=
      ⟨.of_eq rfl rfl rfl rfl, .of_eq rfl rfl rfl rfl⟩
    exact ended.trans (disconnectNotify_kept _ l)
  · exact .refl s

/-! ## What the remaining handlers do -/

/-- The handler closes the sync link of the neighbour if it has the address. -/
theorem disconnectHandle_kept (data : MsgPayload) :
    Keeps (s.removeFromInConnRecord data.addr) (s.disconnectHandle data) ∧
      ∀ k, s.getPeer data.id = some k → s.getAddr k = data.addr →
        ((s.disconnectHandle data).links (k, .sync)).conn ≠ .opened := by
  have hst := (s.removeFromInConnRecord data.addr).removeFromOutConnRecord_kept data.addr
  have same : ((s.removeFromInConnRecord data.addr).removeFromOutConnRecord
    data.addr).getPeer data.id =
      s.getPeer data.id := rfl
  unfold disconnectHandle
  dsimp only
  rw [same]
  cases s.getPeer data.id with
  | none => exact ⟨hst, by simp⟩
  | some k =>
    dsimp only
    have hl := hst.trans (removeFromConnectingList_kept _ data.addr)
    have addr : (((s.removeFromInConnRecord data.addr).removeFromOutConnRecord
      data.addr).removeFromConnectingList
        data.addr).getAddr k = s.getAddr k := rfl
    generalize ((s.removeFromInConnRecord data.addr).removeFromOutConnRecord
      data.addr).removeFromConnectingList data.addr = s₁ at hl addr ⊢
    rw [addr]
    -- the sync link, if it has the address
    have h1 : ∃ s₂, (if s.getAddr k = data.addr then
        (((s₁.removePeerSyncAddress data.addr).removePeerConsAddress data.addr).closeSync
          k).closeCons k else s₁) = s₂ ∧
          Keeps (s.removeFromInConnRecord data.addr) s₂ ∧
          (s.getAddr k = data.addr → (s₂.links (k, .sync)).conn ≠ .opened) := by
      refine ⟨_, rfl, ?_⟩
      split
      · have forgotten := (hl.trans (removePeerSyncAddress_kept _ data.addr)).trans
          (removePeerConsAddress_kept _ data.addr)
        refine ⟨(forgotten.trans (closeSync_kept _ k)).trans (closeCons_kept _ k), ?_⟩
        exact fun _ hs => closeSync_closed _ k ((closeCons_kept _ k).opened _ hs)
      next other => exact ⟨hl, fun has => absurd has other⟩
    obtain ⟨s₂, eq, kept, hc⟩ := h1
    rw [eq]
    have h2 := (removePeerConsAddress_kept s₂ data.addr).trans (closeCons_kept _ k)
    have rest : Keeps s₂ (if (s₂.links (s₂.peers k).consLink).addr = data.addr then
        (s₂.removePeerConsAddress data.addr).closeCons k else s₂) := .ite h2 (.refl s₂)
    refine ⟨kept.trans rest, fun k' hf has hs => ?_⟩
    cases hf
    exact hc has (rest.opened _ hs)

variable (config : Config)

/-- A `version` on a consensus link: the link is passed on, and with the node's own id a record is
taken back. -/
theorem versionConsensus_cases (v : VersionPayload) (data : MsgPayload) (written : Bool)
    (remotePeer p : Nat) :
    Keeps (s.mergeConsLink v.nonce remotePeer p)
        (s.versionConsensus config v data written remotePeer p) ∨
      v.nonce = config.id ∧ ∃ addr,
        Keeps ((s.mergeConsLink v.nonce remotePeer p).removeFromInConnRecord addr)
          (s.versionConsensus config v data written remotePeer p) := by
  unfold versionConsensus
  generalize s.mergeConsLink v.nonce remotePeer p = merged
  split
  next self =>
    refine .inr ⟨self, merged.getAddr p, ?_⟩
    have own := (merged.removeFromInConnRecord (merged.getAddr p)).setOwnAddress_kept
      ((parseIPAddr data.addr).1 ++ colon :: Decimal.formatUint v.syncPort.toUInt64)
    exact (own.trans (removeFromOutConnRecord_kept _ _)).trans (closeCons_kept _ _)
  · refine .inl (.ite (closeCons_kept _ _) ?_)
    exact (setPeer_kept _ _ (by intro _; rfl)).trans (send_kept _ _ _ _)

/-- A `version` on a sync link: with the node's own id the link is closed and its record taken back;
otherwise the handshake is refused, or the object is listed under the id. -/
theorem versionSync_cases (v : VersionPayload) (data : MsgPayload) (written : Bool) (r : Nat) :
    (v.nonce = config.id ∧ Keeps (s.removeFromInConnRecord (s.getAddr r))
      (s.versionSync config v data written r) ∧
      ((s.versionSync config v data written r).links (r, .sync)).conn ≠ .opened) ∨
      (v.nonce ≠ config.id ∧ (Keeps s (s.versionSync config v data written r) ∨ ∃ s', Keeps s s' ∧
        (s'.peers r).id = v.nonce ∧
          Keeps (s'.addNbrNode r) (s.versionSync config v data written r))) := by
  unfold versionSync
  dsimp only
  split
  next self =>
    have own := ((s.removeFromInConnRecord (s.getAddr r)).removeFromOutConnRecord_kept
      (s.getAddr r)).trans
      (setOwnAddress_kept _ ((parseIPAddr data.addr).1 ++ colon ::
        Decimal.formatUint v.syncPort.toUInt64))
    exact .inl ⟨self, own.trans (closeSync_kept _ r), closeSync_closed _ r⟩
  next other =>
    refine .inr ⟨other, ?_⟩
    split
    · exact .inl (closeSync_kept _ _)
    · have replaced := s.replaceObsolete_kept v data r
      generalize s.replaceObsolete v data r = result at replaced ⊢
      rcases result with ⟨_ | _, s'⟩
      · exact .inl replaced
      · have hn := (s'.setPeer_kept r (f := fun peer => { peer with id := v.nonce })
          (by intro _; rfl)).trans
          (setLink_kept _ (r, .sync) (f := fun link => { link with id := v.nonce })
            (by intro _; rfl)
              (by intro _; exact id) (by intro _; rfl))
        refine .inr ⟨_, replaced.trans hn, by simp [setLink, setPeer], ?_⟩
        exact (setPeer_kept _ _ (by intro _; rfl)).trans (send_kept _ _ _ _)

/-- A call of `Connect` ends early, or it comes to a connection. -/
theorem connect_cases (addr : Bytes) (isConsensus : Bool) (dialled : Option Bytes)
    (written : Bool) :
    Keeps s (s.connect config addr isConsensus dialled written) ∨ ∃ s' remote, Keeps s s' ∧
        s.connect config addr isConsensus dialled written =
        s'.connected isConsensus written remote := by
  unfold connect
  split
  · exact .inl (.refl s)
  split
  · exact .inl (.refl s)
  split
  · exact .inl (.refl s)
  split
  · exact .inl (.refl s)
  dsimp only
  split
  · exact .inl (.refl s)
  have hl : Keeps s (if decide (addr ∈ s.connectingAddrs) = true
    then s.removeFromConnectingList addr
      else { s with connectingAddrs := s.connectingAddrs ++ [addr] }) :=
    .ite (removeFromConnectingList_kept _ _) ⟨.of_eq rfl rfl rfl rfl, .of_eq rfl rfl rfl rfl⟩
  generalize (if decide (addr ∈ s.connectingAddrs) = true then s.removeFromConnectingList addr
      else { s with connectingAddrs := s.connectingAddrs ++ [addr] }) = s' at hl ⊢
  cases dialled with
  | none => exact .inl (hl.trans (removeFromConnectingList_kept _ _))
  | some remote => exact .inr ⟨s', remote, hl, rfl⟩

end NetSubServer

/-! ## Invariants of runs -/

/-- A condition on the message that the step handles, in the state in which its handler starts. -/
def NetEvent.Meets (condition : NetSubServer → MsgPayload → Prop) (s : NetSubServer) :
    NetEvent → Prop
  | .rxMsg .sync _ => ∀ data rest, s.syncChan = data :: rest →
      condition { s with syncChan := rest } data
  | .rxMsg .cons _ => ∀ data rest, s.consChan = data :: rest →
      condition { s with consChan := rest } data
  | _ => True

def RunMeets (config : Config) (condition : NetSubServer → MsgPayload → Prop) :
    NetSubServer → List NetEvent → Prop
  | _, [] => True
  | s, e :: rest => e.Meets condition s ∧ RunMeets config condition (s.step config e) rest

/-- What is left to show for an invariant: new connections, and the handlers that do more than the
others. -/
structure Preserved (config : Config) (condition : NetSubServer → MsgPayload → Prop)
    (holds : NetSubServer → Prop) : Prop where
  keeps {s s'} : holds s → Keeps s s' → holds s'
  syncAccept {s} (addr) : holds s → holds (s.syncAccept config addr)
  consAccept {s} (addr) : holds s → holds (s.consAccept addr)
  connected {s} (isConsensus written addr) : holds s → holds (s.connected isConsensus written addr)
  disconnect {s data} : holds s → condition s data → data.payload = .disconnected →
    holds (s.disconnectHandle data)
  versionConsensus {s data v r p} (written) : holds s → condition s data →
    data.payload = .version v →
    v.isConsensus = true → s.getPeerFromAddr data.addr = some r → s.getPeer v.nonce = some p →
    holds (s.versionConsensus config v data written r p)
  versionSync {s data v r} (written) : holds s → condition s data → data.payload = .version v →
    v.isConsensus = false → s.getPeerFromAddr data.addr = some r →
    holds (s.versionSync config v data written r)

namespace Preserved

variable {config : Config} {condition : NetSubServer → MsgPayload → Prop}
  {holds : NetSubServer → Prop}
  (preserved : Preserved config condition holds) {s : NetSubServer}

include preserved

theorem versionHandle (now : holds s) {data : MsgPayload} {v : VersionPayload} (written : Bool)
    (meets : condition s data) (message : data.payload = .version v) :
    holds (s.versionHandle config v data written) := by
  unfold NetSubServer.versionHandle
  cases found : s.getPeerFromAddr data.addr with
  | none => exact preserved.keeps now (s.removeFromConnectingList_kept _)
  | some r =>
    dsimp only
    split
    · exact now
    · cases consensus : v.isConsensus with
      | true =>
        rw [if_pos rfl]
        cases named : s.getPeer v.nonce with
        | none =>
          exact preserved.keeps now ((s.closeCons_kept _).trans (NetSubServer.closeSync_kept _ _))
        | some p => exact preserved.versionConsensus written now meets message consensus found named
      | false =>
        rw [if_neg Bool.false_ne_true]
        exact preserved.versionSync written now meets message consensus found

theorem route (now : holds s) (data : MsgPayload) (written : Bool) (meets : condition s data) :
    holds (s.route config data written) := by
  unfold NetSubServer.route
  cases message : data.payload with
  | disconnected => exact preserved.disconnect now meets message
  | version v => exact preserved.versionHandle now written meets message
  | verACK isConsensus => exact preserved.keeps now (s.verAckHandle_kept _ _ _)
  | addrReq => exact preserved.keeps now (s.reply_kept _ _)
  | ping height => exact preserved.keeps now (s.reply_kept _ _)
  | _ => exact now

theorem rxMsg (now : holds s) (port : Port) (written : Bool)
    (meets : (NetEvent.rxMsg port written).Meets condition s) :
    holds (s.rxMsg config port written) := by
  unfold NetSubServer.rxMsg
  cases port with
  | sync =>
    cases queued : s.syncChan with
    | nil => exact now
    | cons data rest =>
      have ht : Keeps s { s with syncChan := rest } :=
        ⟨.of_eq rfl rfl rfl rfl, .of_eq rfl rfl rfl rfl⟩
      exact preserved.route (preserved.keeps now ht) data written (meets data rest queued)
  | cons =>
    cases queued : s.consChan with
    | nil => exact now
    | cons data rest =>
      have ht : Keeps s { s with consChan := rest } :=
        ⟨.of_eq rfl rfl rfl rfl, .of_eq rfl rfl rfl rfl⟩
      exact preserved.route (preserved.keeps now ht) data written (meets data rest queued)

theorem step (now : holds s) (e : NetEvent) (meets : e.Meets condition s) :
    holds (s.step config e) := by
  cases e with
  | syncAccept addr => exact preserved.syncAccept addr now
  | consAccept addr => exact preserved.consAccept addr now
  | connect addr isConsensus dialled written =>
    change holds (s.connect config addr isConsensus dialled written)
    obtain kept | ⟨s', remote, kept, eq⟩ := s.connect_cases config addr isConsensus dialled written
    · exact preserved.keeps now kept
    · rw [eq]
      exact preserved.connected isConsensus written remote (preserved.keeps now kept)
  | received l msg => exact preserved.keeps now (s.received_kept l msg)
  | rxEnds l => exact preserved.keeps now (s.rxEnds_kept l)
  | rxMsg port written => exact preserved.rxMsg now port written meets
  | send k isConsensus written => exact preserved.keeps now (s.send_kept _ _ _)
  | timeout id => exact preserved.keeps now (s.timeout_kept id)
  | retryInactivePeer => exact preserved.keeps now s.retryInactivePeer_kept
  | giveUp addr => exact preserved.keeps now (s.giveUp_kept addr)

theorem run (now : holds s) (events : List NetEvent)
    (meets : RunMeets config condition s events) (n : Nat) :
    holds (s.run config (events.take n)) := by
  induction events generalizing s n with
  | nil =>
    rw [List.take_nil]
    exact now
  | cons e rest ih =>
    cases n with
    | zero => exact now
    | succ n => exact ih (preserved.step now e meets.1) meets.2 n

end Preserved

end HNBChain.Audit.Source.P2p
