import Mathlib.Data.List.DropRight
import HNBChain.Audit.Source.P2p.Message

/-!
# Connections to peers

A connection has a peer object with two links, one for each port; only the link of the connection's
own port is in use. The links of one remote node are brought together later, by the id that its
`version` messages claim: the consensus link of the object that was made for the consensus
connection becomes the consensus link of the neighbour with that id.

Objects are numbered in the order in which they are made, and a link is named by its object and
port, since a consensus link may belong to several objects. Handlers take one message from a channel
and run as one step, as does each call of `Connect`; the calls that handlers start as goroutines are
steps of their own, to any address. Whether a write succeeds is an argument.

Not modelled: what is sent, times, the ports and other data that only replies to other peers read,
connections over TLS, channels that are full.
-/
namespace HNBChain.Audit.Source.P2p

open Lib Function

/-! ## Addresses -/

def colon : UInt8 := 58

/-- The text up to the first colon, and whether there is one. -/
def parseIPAddr (s : Bytes) : Bytes × Bool := (s.takeWhile (· ≠ colon), s.contains colon)

/-- The host of a remote address: the port comes after the last colon. -/
def hostOf (s : Bytes) : Bytes := (s.rdropWhile (· ≠ colon)).dropLast

/-- The text up to the first colon is that of the host. -/
theorem parseIPAddr_hostOf {s : Bytes} (parted : colon ∈ s) :
    (parseIPAddr s).1 = (hostOf s).takeWhile (· ≠ colon) := by
  have kept : s.rdropWhile (· ≠ colon) ≠ [] := by
    rw [Ne, List.rdropWhile_eq_nil_iff]
    exact fun plain => absurd (plain colon parted) (by simp)
  have last : (s.rdropWhile (· ≠ colon)).getLast kept = colon := by
    simpa using List.rdropWhile_last_not (· ≠ colon) s kept
  have hw : hostOf s ++ [colon] = s.rdropWhile (· ≠ colon) := by
    have hj := List.dropLast_append_getLast kept
    rwa [last] at hj
  have parts : hostOf s ++ colon :: s.rtakeWhile (· ≠ colon) = s := by
    rw [← List.singleton_append, ← List.append_assoc, hw, List.rdropWhile_append_rtakeWhile]
  have cut : (hostOf s ++ colon :: s.rtakeWhile (· ≠ colon)).takeWhile (· ≠ colon) =
      (hostOf s).takeWhile (· ≠ colon) := by
    rw [List.takeWhile_append, List.takeWhile_cons_of_neg (by simp), List.append_nil]
    split
    next full => exact (List.IsPrefix.eq_of_length (List.takeWhile_prefix _) full).symm
    · rfl
  rwa [parts] at cut

/-! ## Links and peers -/

/-- The two ports, their channels and their links. -/
inductive Port where
  | sync
  | cons
  deriving DecidableEq

/-- The connection of a link: nil, or a connection that is open or closed. -/
inductive Conn where
  | absent
  | opened
  | closed
  deriving DecidableEq

structure ConnInfo where
  id : UInt64 := 0
  addr : Bytes := []
  conn : Conn := .absent
  recvChan : Option Port := none
  deriving DecidableEq

inductive PeerState where
  | init
  | hand
  | handShake
  | handShaked
  | establish
  | inactivity
  deriving DecidableEq

/-- The peer object and the port. -/
abbrev LinkId := Nat × Port

/-- The sync link of an object is never exchanged. -/
structure Peer where
  id : UInt64
  consLink : LinkId
  syncState : PeerState
  consState : PeerState
  deriving DecidableEq

def newPeer (k : Nat) : Peer := ⟨0, (k, .cons), .init, .init⟩

structure MsgPayload where
  id : UInt64
  addr : Bytes
  payload : Message

structure Config where
  id : UInt64
  maxConnInBound : Nat
  maxConnInBoundForSingleIP : Nat
  maxConnOutBound : Nat

/-- `size` counts the objects made, `rx` says which links have a running `Rx`, and `accepted` lists
the objects made for connections to the sync port. -/
structure NetSubServer where
  size : Nat := 0
  peers : Nat → Peer := newPeer
  links : LinkId → ConnInfo := fun _ => {}
  rx : LinkId → Bool := fun _ => false
  syncChan : List MsgPayload := []
  consChan : List MsgPayload := []
  connectingAddrs : List Bytes := []
  inConnRecord : List Bytes := []
  outConnRecord : List Bytes := []
  peerSyncAddress : Bytes → Option Nat := fun _ => none
  peerConsAddress : Bytes → Option Nat := fun _ => none
  np : List (UInt64 × Nat) := []
  ownAddress : Bytes := []
  accepted : List Nat := []

namespace NetSubServer

variable (config : Config) (s : NetSubServer)

def setLink (l : LinkId) (f : ConnInfo → ConnInfo) : NetSubServer :=
  { s with links := update s.links l (f (s.links l)) }

def setPeer (k : Nat) (f : Peer → Peer) : NetSubServer :=
  { s with peers := update s.peers k (f (s.peers k)) }

def getPeer (id : UInt64) : Option Nat := s.np.lookup id

def getPeerFromAddr (addr : Bytes) : Option Nat :=
  match s.peerSyncAddress addr with
  | some k => some k
  | none => s.peerConsAddress addr

/-- `GetAddr` of a peer is the address of its sync link. -/
def getAddr (k : Nat) : Bytes := (s.links (k, .sync)).addr

def push (port : Port) (data : MsgPayload) : NetSubServer :=
  match port with
  | .sync => { s with syncChan := s.syncChan ++ [data] }
  | .cons => { s with consChan := s.consChan ++ [data] }

/-! ## Sending and closing -/

def closeConn (l : LinkId) : NetSubServer := s.setLink l fun link => { link with conn := .absent }

/-- The connection is closed and given up, and the handlers are told. -/
def disconnectNotify (l : LinkId) : NetSubServer :=
  let link := s.links l
  match link.recvChan with
  | none => s.closeConn l
  | some port => (s.closeConn l).push port ⟨link.id, link.addr, .disconnected⟩

/-- A write to a connection that is closed fails. -/
def tx (written : Bool) (l : LinkId) : Bool × NetSubServer :=
  match (s.links l).conn with
  | .absent => (false, s)
  | .opened => if written then (true, s) else (false, s.disconnectNotify l)
  | .closed => (false, s.disconnectNotify l)

/-- `Send` falls back to the sync link if there is no consensus connection. -/
def send (written isConsensus : Bool) (k : Nat) : Bool × NetSubServer :=
  let consLink := (s.peers k).consLink
  if isConsensus ∧ (s.links consLink).conn ≠ .absent then s.tx written consLink
  else s.tx written (k, .sync)

/-- `conn.Close` on the connection of a link, which keeps it. -/
def closeLink (l : LinkId) : NetSubServer :=
  s.setLink l fun link => if link.conn = .opened then { link with conn := .closed } else link

def closeSync (k : Nat) : NetSubServer :=
  (s.setPeer k fun p => { p with syncState := .inactivity }).closeLink (k, .sync)

def closeCons (k : Nat) : NetSubServer :=
  (s.setPeer k fun p => { p with consState := .inactivity }).closeLink (s.peers k).consLink

/-! ## Records -/

def removeFromInConnRecord (addr : Bytes) : NetSubServer :=
  { s with inConnRecord := s.inConnRecord.filter (· ≠ addr) }

def removeFromOutConnRecord (addr : Bytes) : NetSubServer :=
  { s with outConnRecord := s.outConnRecord.filter (· ≠ addr) }

def removeFromConnectingList (addr : Bytes) : NetSubServer :=
  { s with connectingAddrs := s.connectingAddrs.filter (· ≠ addr) }

def removePeerSyncAddress (addr : Bytes) : NetSubServer :=
  { s with peerSyncAddress := update s.peerSyncAddress addr none }

def removePeerConsAddress (addr : Bytes) : NetSubServer :=
  { s with peerConsAddress := update s.peerConsAddress addr none }

def setOwnAddress (addr : Bytes) : NetSubServer := { s with ownAddress := addr }

def getIpCountInInConnRecord (ip : Bytes) : Nat :=
    s.inConnRecord.countP fun addr => (parseIPAddr addr).1 = ip

def isIPInInConnRecord (ip : Bytes) : Bool :=
    s.inConnRecord.any fun addr => (parseIPAddr addr).1 = ip

def delNbrNode (id : UInt64) : NetSubServer :=
    { s with np := s.np.filter fun entry => entry.1 ≠ id }

/-- A node that is there already stays. -/
def addNbrNode (k : Nat) : NetSubServer :=
  let id := (s.peers k).id
  if (s.np.lookup id).isSome then s else { s with np := (id, k) :: s.np }

/-! ## New connections -/

/-- A new object whose link on one port has the connection, with `Rx` reading from it. -/
def attach (port : Port) (addr : Bytes) : NetSubServer :=
  let k := s.size
  let fresh := update (update s.links (k, .sync) {}) (k, .cons) {}
  { s with
    size := k + 1
    peers := update s.peers k (newPeer k)
    links := update fresh (k, port) { addr := addr, conn := .opened, recvChan := some port }
    rx := update s.rx (k, port) true }

def addPeerSyncAddress (addr : Bytes) (k : Nat) : NetSubServer :=
  { s with peerSyncAddress := update s.peerSyncAddress addr (some k) }

def addPeerConsAddress (addr : Bytes) (k : Nat) : NetSubServer :=
  { s with peerConsAddress := update s.peerConsAddress addr (some k) }

/-- One turn of `startSyncAccept`; a connection that is refused is closed at once. -/
def syncAccept (addr : Bytes) : NetSubServer :=
  if addr ∈ s.inConnRecord then s
  else if config.maxConnInBound ≤ s.inConnRecord.length then s
  else if ¬ (parseIPAddr addr).2 then s
  else if config.maxConnInBoundForSingleIP ≤ s.getIpCountInInConnRecord (parseIPAddr addr).1 then s
  else
    let k := s.size
    let s := { s with inConnRecord := s.inConnRecord ++ [addr], accepted := k :: s.accepted }
    (s.attach .sync addr).addPeerSyncAddress addr k

/-- One turn of `startConsAccept`. -/
def consAccept (addr : Bytes) : NetSubServer :=
  if ¬ (parseIPAddr addr).2 then s
  else if ¬ s.isIPInInConnRecord (parseIPAddr addr).1 then s
  else (s.attach .cons addr).addPeerConsAddress addr s.size

def isNbrPeerAddr (addr : Bytes) (isConsensus : Bool) : Bool :=
  s.np.any fun (_, k) =>
    let p := s.peers k
    decide (p.syncState = .hand ∨ p.syncState = .handShake ∨ p.syncState = .establish) &&
      decide ((if isConsensus then (s.links p.consLink).addr else s.getAddr k) = addr)

/-- The end of `Connect`, with the remote address of the connection. -/
def connected (isConsensus written : Bool) (addr : Bytes) : NetSubServer :=
  let k := s.size
  if isConsensus then
    let s := (s.attach .cons addr).addPeerConsAddress addr k
    ((s.setPeer k fun p => { p with consState := .hand }).send written true k).2
  else
    let s := { s with outConnRecord := if addr ∈ s.outConnRecord then s.outConnRecord
      else s.outConnRecord ++ [addr] }
    let s := (s.attach .sync addr).addPeerSyncAddress addr k
    match (s.setPeer k fun p => { p with syncState := .hand }).send written false k with
    | (true, s) => s
    | (false, s) => s.removeFromOutConnRecord addr

/-- `Connect`, with the remote address if the dialling succeeds. -/
def connect (addr : Bytes) (isConsensus : Bool) (dialled : Option Bytes) (written : Bool) :
    NetSubServer :=
  if addr ∈ s.outConnRecord then s
  else if addr = s.ownAddress then s
  else if config.maxConnOutBound ≤ s.outConnRecord.length then s
  else if s.isNbrPeerAddr addr isConsensus then s
  else
    let again := decide (addr ∈ s.connectingAddrs)
    if again ∧ (s.getPeerFromAddr addr).any (fun k => (s.links (k, .sync)).conn ≠ .absent) then s
    else
      let s := if again then s.removeFromConnectingList addr
        else { s with connectingAddrs := s.connectingAddrs ++ [addr] }
      match dialled with
      | none => s.removeFromConnectingList addr
      | some remote => s.connected isConsensus written remote

/-! ## Handlers -/

/-- The consensus link of the object found under the address becomes that of the neighbour, with its
state. -/
def mergeConsLink (nonce : UInt64) (remotePeer p : Nat) : NetSubServer :=
  let remote := s.peers remotePeer
  let s := s.setPeer p fun peer => { peer with consLink := remote.consLink }
  let s := s.setLink remote.consLink fun link => { link with id := nonce }
  s.setPeer p fun peer => { peer with consState := remote.consState }

/-- The part of `VersionHandle` for a consensus link, when the neighbour that the id names is
`p`. -/
def versionConsensus (v : VersionPayload) (data : MsgPayload) (written : Bool)
    (remotePeer p : Nat) : NetSubServer :=
  let s := s.mergeConsLink v.nonce remotePeer p
  if v.nonce = config.id then
    let s := s.setOwnAddress ((parseIPAddr data.addr).1 ++ colon ::
      Decimal.formatUint v.syncPort.toUInt64)
    ((s.removeFromInConnRecord (s.getAddr p)).removeFromOutConnRecord (s.getAddr p)).closeCons p
  else
    let state := (s.peers p).consState
    if state ≠ .init ∧ state ≠ .hand then s.closeCons p
    else
      let s := s.setPeer p fun peer => { peer with
        id := v.nonce
        consState := if state = .init then .handShake else .handShaked }
      (s.send written true p).2

/-- An older neighbour with the same id gives way if it has the same IP; otherwise the new one is
refused. The result says whether the handshake goes on. -/
def replaceObsolete (v : VersionPayload) (data : MsgPayload) (remotePeer : Nat) :
    Bool × NetSubServer :=
  match s.getPeer v.nonce with
  | none => (true, s)
  | some p =>
    if ¬ (parseIPAddr (s.getAddr p)).2 then (false, s)
    else if (parseIPAddr data.addr).1 = (parseIPAddr (s.getAddr p)).1 then
      (true, ((s.delNbrNode v.nonce).closeSync p).closeCons p)
    else (false, s.closeSync remotePeer)

/-- The part of `VersionHandle` for a sync link. -/
def versionSync (v : VersionPayload) (data : MsgPayload) (written : Bool) (remotePeer : Nat) :
    NetSubServer :=
  if v.nonce = config.id then
    let addr := s.getAddr remotePeer
    let s := (s.removeFromInConnRecord addr).removeFromOutConnRecord addr
    let s := s.setOwnAddress ((parseIPAddr data.addr).1 ++ colon ::
      Decimal.formatUint v.syncPort.toUInt64)
    s.closeSync remotePeer
  else
    let state := (s.peers remotePeer).syncState
    if state ≠ .init ∧ state ≠ .hand then s.closeSync remotePeer
    else
      match s.replaceObsolete v data remotePeer with
      | (false, s) => s
      | (true, s) =>
        let s := s.setPeer remotePeer fun peer => { peer with id := v.nonce }
        let s := s.setLink (remotePeer, .sync) fun link => { link with id := v.nonce }
        let s := s.addNbrNode remotePeer
        let s := s.setPeer remotePeer fun peer =>
          { peer with syncState := if state = .init then .handShake else .handShaked }
        (s.send written false remotePeer).2

def versionHandle (v : VersionPayload) (data : MsgPayload) (written : Bool) : NetSubServer :=
  match s.getPeerFromAddr data.addr with
  | none => s.removeFromConnectingList data.addr
  | some remotePeer =>
    if ¬ (parseIPAddr data.addr).2 then s
    else if v.isConsensus then
      match s.getPeer v.nonce with
      | none => (s.closeCons remotePeer).closeSync remotePeer
      | some p => s.versionConsensus config v data written remotePeer p
    else s.versionSync config v data written remotePeer

/-- The call of `Connect` to the consensus port and the request for addresses are steps of their
own. -/
def verAckHandle (isConsensus : Bool) (data : MsgPayload) (written : Bool) : NetSubServer :=
  match s.getPeer data.id with
  | none => s
  | some k =>
    let state := if isConsensus then (s.peers k).consState else (s.peers k).syncState
    if state ≠ .handShake ∧ state ≠ .handShaked then s
    else
      let s := s.setPeer k fun p =>
        if isConsensus then { p with consState := .establish }
          else { p with syncState := .establish }
      let s := s.removeFromConnectingList data.addr
      if state = .handShake then (s.send written isConsensus k).2 else s

def disconnectHandle (data : MsgPayload) : NetSubServer :=
  let s := (s.removeFromInConnRecord data.addr).removeFromOutConnRecord data.addr
  match s.getPeer data.id with
  | none => s
  | some k =>
    let s := s.removeFromConnectingList data.addr
    let s :=
      if s.getAddr k = data.addr then
        (((s.removePeerSyncAddress data.addr).removePeerConsAddress
          data.addr).closeSync k).closeCons k
      else s
    if (s.links (s.peers k).consLink).addr = data.addr
      then (s.removePeerConsAddress data.addr).closeCons k else s

/-- `AddrReqHandle` and `PingHandle`, as far as links are concerned: a reply to the neighbour with
the id. -/
def reply (data : MsgPayload) (written : Bool) : NetSubServer :=
  match s.getPeer data.id with
  | none => s
  | some k => (s.send written false k).2

/-- The handler of a message; those that are left out leave links and records alone. -/
def route (data : MsgPayload) (written : Bool) : NetSubServer :=
  match data.payload with
  | .version v => s.versionHandle config v data written
  | .verACK isConsensus => s.verAckHandle isConsensus data written
  | .disconnected => s.disconnectHandle data
  | .addrReq => s.reply data written
  | .ping _ => s.reply data written
  | _ => s

/-- One turn of `rxMsg` for one of the channels. -/
def rxMsg (port : Port) (written : Bool) : NetSubServer :=
  match port with
  | .sync =>
    match s.syncChan with
    | [] => s
    | data :: rest => { s with syncChan := rest }.route config data written
  | .cons =>
    match s.consChan with
    | [] => s
    | data :: rest => { s with consChan := rest }.route config data written

/-! ## Services -/

/-- `timeout` for one neighbour that has not been heard of. -/
def timeout (id : UInt64) : NetSubServer :=
  match s.getPeer id with
  | none => s
  | some k => if (s.peers k).syncState = .establish then (s.closeSync k).closeCons k else s

def isInactive (k : Nat) : Bool := decide ((s.peers k).syncState = .inactivity)

/-- `retryInactivePeer`: the neighbours that are inactive are closed and dropped. The list is made
anew with the ids that the peers have, which are the ones they are listed under. -/
def retryInactivePeer : NetSubServer :=
  let closed := (s.np.filter fun entry => s.isInactive entry.2).foldl
    (fun s entry => (s.closeSync entry.2).closeCons entry.2) s
  { closed with np := s.np.filter fun entry => ¬ s.isInactive entry.2 }

/-- The end of `retryInactivePeer` for an address that has been tried too often. -/
def giveUp (addr : Bytes) : NetSubServer :=
  let s := s.removeFromConnectingList addr
  match s.getPeerFromAddr addr with
  | none => s
  | some k =>
    let s := if s.getAddr k = addr then (s.removePeerSyncAddress addr).removePeerConsAddress addr
      else s
    let s := if (s.links (s.peers k).consLink).addr = addr then s.removePeerConsAddress addr else s
    s.delNbrNode (s.peers k).id

/-! ## Reading -/

/-- `Rx` has read a message of any type; what is buffered is read also after the connection was
closed. -/
def received (l : LinkId) (msg : Message) : NetSubServer :=
  if s.rx l then
    let link := s.links l
    match link.recvChan with
    | none => s
    | some port => s.push port ⟨link.id, link.addr, msg⟩
  else s

/-- `Rx` ends with an error: the connection was closed by one of the ends, or a message was
malformed. -/
def rxEnds (l : LinkId) : NetSubServer :=
  if s.rx l then { s with rx := update s.rx l false }.disconnectNotify l else s

end NetSubServer

/-! ## Runs -/

inductive NetEvent where
  | syncAccept (addr : Bytes)
  | consAccept (addr : Bytes)
  | connect (addr : Bytes) (isConsensus : Bool) (dialled : Option Bytes) (written : Bool)
  | received (l : LinkId) (msg : Message)
  | rxEnds (l : LinkId)
  | rxMsg (port : Port) (written : Bool)
  | send (k : Nat) (isConsensus written : Bool)
  | timeout (id : UInt64)
  | retryInactivePeer
  | giveUp (addr : Bytes)

namespace NetSubServer

variable (config : Config)

def step (s : NetSubServer) : NetEvent → NetSubServer
  | .syncAccept addr => s.syncAccept config addr
  | .consAccept addr => s.consAccept addr
  | .connect addr isConsensus dialled written => s.connect config addr isConsensus dialled written
  | .received l msg => s.received l msg
  | .rxEnds l => s.rxEnds l
  | .rxMsg port written => s.rxMsg config port written
  | .send k isConsensus written => (s.send written isConsensus k).2
  | .timeout id => s.timeout id
  | .retryInactivePeer => s.retryInactivePeer
  | .giveUp addr => s.giveUp addr

def run (s : NetSubServer) (events : List NetEvent) : NetSubServer := events.foldl (step config) s

end NetSubServer

end HNBChain.Audit.Source.P2p
