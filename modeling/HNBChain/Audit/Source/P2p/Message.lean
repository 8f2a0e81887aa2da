import HNBChain.Lib.FixedCodec
import HNBChain.Lib.JsonUtf8
import HNBChain.Audit.Source.Codec

/-!
# Messages between peers

A frame is a header of fixed size (magic number, name of the message type padded with zeros, length
and checksum of the payload) and the payload, in the format of the type. `readMessage` takes a
stream and gives the message with what is left of the stream, also when it fails.
-/
namespace HNBChain.Audit.Source.P2p

open Lib

def msgCmdLen : Nat := 12

def checksumLen : Nat := 4

def msgHdrLen : Nat := 24

def maxMsgLen : Nat := 30 * 1024 * 1024

def maxPayloadLen : Nat := maxMsgLen - msgHdrLen

/-- The maximum number of addresses read from one message. -/
def maxAddrNodeCnt : Nat := 64

/-! ## Payloads -/

structure PeerAddr where
  time : Int64
  services : UInt64
  ipAddr : List.Vector UInt8 16
  syncPort : UInt16
  consensusPort : UInt16
  id : UInt64
  deriving DecidableEq

def PeerAddr.codec : FixedCodec PeerAddr :=
  .record (.pair .int64 (.pair .uint64
    (.pair (.octets 16) (.pair .uint16 (.pair .uint16 .uint64)))))
    (fun a => (a.time, a.services, a.ipAddr, a.syncPort, a.consensusPort, a.id))
    (fun (time, services, ipAddr, syncPort, consensusPort, id) =>
      ⟨time, services, ipAddr, syncPort, consensusPort, id⟩)
    fun _ => rfl

structure VersionPayload where
  version : UInt32
  services : UInt64
  timeStamp : Int64
  syncPort : UInt16
  httpInfoPort : UInt16
  consPort : UInt16
  cap : List.Vector UInt8 32
  nonce : UInt64
  startHeight : UInt64
  relay : UInt8
  isConsensus : Bool
  deriving DecidableEq

def VersionPayload.codec : FixedCodec VersionPayload :=
  .record (.pair .uint32 (.pair .uint64 (.pair .int64 (.pair .uint16 (.pair .uint16 (.pair .uint16
      (.pair (.octets 32) (.pair .uint64 (.pair .uint64 (.pair .uint8 .bool))))))))))
    (fun v => (v.version, v.services, v.timeStamp, v.syncPort, v.httpInfoPort, v.consPort,
      v.cap, v.nonce,
        v.startHeight, v.relay, v.isConsensus))
    (fun (version, services, timeStamp, syncPort, httpInfoPort, consPort, cap, nonce,
      startHeight, relay,
          isConsensus) =>
        ⟨version, services, timeStamp, syncPort, httpInfoPort, consPort, cap, nonce, startHeight,
          relay, isConsensus⟩)
    fun _ => rfl

inductive Message where
  | version (p : VersionPayload)
  | verACK (isConsensus : Bool)
  | addr (nodeAddrs : List PeerAddr)
  | addrReq
  | ping (height : UInt64)
  | pong (height : UInt64)
  | disconnected
  | testNetwork (msg : Bytes)
  | txMsg (msg : Bytes)
  | syncMsg (msg : Bytes)
  | consMsg (msg : Bytes)
  deriving DecidableEq

/-- The types of messages that `MakeEmptyMessage` knows. -/
inductive CmdType where
  | version | verACK | addr | addrReq | ping | pong | disconnected | testNetwork | txMsg |
      syncMsg | consMsg
  deriving DecidableEq, Repr

def Message.cmdType : Message → CmdType
  | version _ => .version
  | verACK _ => .verACK
  | addr _ => .addr
  | addrReq => .addrReq
  | ping _ => .ping
  | pong _ => .pong
  | disconnected => .disconnected
  | testNetwork _ => .testNetwork
  | txMsg _ => .txMsg
  | syncMsg _ => .syncMsg
  | consMsg _ => .consMsg

def CmdType.text : CmdType → Bytes
  | version => octets "version"
  | verACK => octets "verack"
  | addr => octets "addr"
  | addrReq => octets "getaddr"
  | ping => octets "ping"
  | pong => octets "pong"
  | disconnected => octets "disconnect"
  | testNetwork => octets "testnetwork"
  | txMsg => octets "tx"
  | syncMsg => octets "sync"
  | consMsg => octets "cons"

/-- Writing to a buffer does not fail. -/
def Message.serialization : Message → Bytes
  | version p => VersionPayload.codec.write p
  | verACK isConsensus => FixedCodec.bool.write isConsensus
  | addr nodeAddrs =>
    FixedCodec.uint64.write (UInt64.ofNat nodeAddrs.length) ++
    nodeAddrs.flatMap PeerAddr.codec.write
  | addrReq => []
  | ping height => FixedCodec.uint64.write height
  | pong height => FixedCodec.uint64.write height
  | disconnected => []
  | testNetwork msg => Json.render (.str (Json.quote msg))
  | txMsg msg => msg
  | syncMsg msg => msg
  | consMsg msg => msg

/-- Why `ReadMessage` fails: the stream has ended or ends too early, or the text of the error. -/
inductive ReadError where
  | eof
  | unexpectedEOF
  | exceed (length : UInt32)
  | mismatch (header payload : List.Vector UInt8 checksumLen)
  | unsupported (cmdType : Bytes)
  | payload (text : String)
  deriving DecidableEq

/-- `binary.Read` of one value, with the error the caller makes of a short buffer. -/
def readValue {α : Type} (codec : FixedCodec α) (text : String) (buf : Bytes) :
    Except ReadError (α × Bytes) :=
  match codec.readFrom buf with
  | some read => .ok read
  | none => .error (.payload text)

/-- The loop of `Addr.Deserialization`. -/
def readAddrs : Nat → Bytes → Except ReadError (List PeerAddr)
  | 0, _ => .ok []
  | count + 1, buf => do
    let (addr, rest) ← readValue PeerAddr.codec "JQK" buf
    let more ← readAddrs count rest
    return addr :: more

/-- `json.Unmarshal` into a string; `null` leaves it empty. -/
def unmarshalString (p : Bytes) : Option Bytes :=
  match Json.parse p with
  | some (.str raw) => some (Json.unquote raw)
  | some .null => some []
  | _ => none

def CmdType.deserialization (p : Bytes) : CmdType → Except ReadError Message
  | version => do
    let (payload, _) ← readValue VersionPayload.codec "456" p
    return .version payload
  | verACK => do
    let (isConsensus, _) ← readValue FixedCodec.bool "789" p
    return .verACK isConsensus
  | addr => do
    let (nodeCnt, rest) ← readValue FixedCodec.uint64 "789" p
    -- further addresses are not read
    let nodeAddrs ← readAddrs (min nodeCnt.toNat maxAddrNodeCnt) rest
    return .addr nodeAddrs
  | addrReq => return .addrReq
  | ping => do
    let (height, _) ← readValue FixedCodec.uint64 "456" p
    return .ping height
  | pong => do
    let (height, _) ← readValue FixedCodec.uint64 "456" p
    return .pong height
  | disconnected => return .disconnected
  | testNetwork =>
    match unmarshalString p with
    | some msg => .ok (.testNetwork msg)
    | none => .error (.payload "456")
  | txMsg => return .txMsg p
  | syncMsg => return .syncMsg p
  | consMsg => return .consMsg p

def CmdType.all : List CmdType :=
  [.version, .verACK, .addr, .addrReq, .ping, .pong, .disconnected, .testNetwork, .txMsg,
    .syncMsg, .consMsg]

def makeEmptyMessage (cmdType : Bytes) : Except ReadError CmdType :=
  match CmdType.all.find? fun t => t.text = cmdType with
  | some t => .ok t
  | none => .error (.unsupported cmdType)

/-! ## Frames -/

structure MessageHeader where
  magic : UInt32
  cmd : List.Vector UInt8 msgCmdLen
  length : UInt32
  checksum : List.Vector UInt8 checksumLen

def MessageHeader.codec : FixedCodec MessageHeader :=
  .record (.pair .uint32 (.pair (.octets msgCmdLen) (.pair .uint32 (.octets checksumLen))))
    (fun h => (h.magic, h.cmd, h.length, h.checksum))
    (fun (magic, cmd, length, checksum) => ⟨magic, cmd, length, checksum⟩)
    fun _ => rfl

/-- `copy` of a text into an array of zeros. -/
def copyInto (n : Nat) (text : Bytes) : List.Vector UInt8 n := FixedCodec.padded n text

section

variable (sha256 : Bytes → Bytes)

def checkSum (p : Bytes) : List.Vector UInt8 checksumLen := copyInto checksumLen (sha256 (sha256 p))

def newMessageHeader (cmd : Bytes) (length : UInt32) (checksum : List.Vector UInt8 checksumLen) :
    MessageHeader :=
  ⟨1, copyInto msgCmdLen cmd, length, checksum⟩

def writeMessage (msg : Message) : Bytes :=
  let buf := msg.serialization
  let hdr := newMessageHeader msg.cmdType.text (UInt32.ofNat buf.length) (checkSum sha256 buf)
  MessageHeader.codec.write hdr ++ buf

/-- `io.ReadFull`: all octets that are left are taken if they are too few. -/
def readFull (n : Nat) (stream : Bytes) : Except ReadError Bytes × Bytes :=
  if n ≤ stream.length then (.ok (stream.take n), stream.drop n)
  else (.error (if stream = [] then .eof else .unexpectedEOF), [])

/-- `bytes.TrimRight` with the cutset of one zero octet. -/
def trimZeros (cmd : Bytes) : Bytes := (cmd.reverse.dropWhile (· = 0)).reverse

/-- The payload of a frame whose header was read. -/
def readPayload (hdr : MessageHeader) (buf : Bytes) : Except ReadError Message := do
  if checkSum sha256 buf ≠ hdr.checksum then throw (.mismatch hdr.checksum (checkSum sha256 buf))
  let t ← makeEmptyMessage (trimZeros hdr.cmd.toList)
  t.deserialization buf

def readMessage (stream : Bytes) : Except ReadError Message × Bytes :=
  match readFull MessageHeader.codec.size stream with
  | (.error e, rest) => (.error e, rest)
  | (.ok header, rest) =>
    let hdr := MessageHeader.codec.read header
    if maxPayloadLen < hdr.length.toNat then (.error (.exceed hdr.length), rest)
    else
      match readFull hdr.length.toNat rest with
      | (.error e, rest) => (.error e, rest)
      | (.ok buf, rest) => (readPayload sha256 hdr buf, rest)

/-- `ReadMessage` called again and again on one stream. -/
def readMessages : Nat → Bytes → List (Except ReadError Message) × Bytes
  | 0, stream => ([], stream)
  | count + 1, stream =>
    let (result, rest) := readMessage sha256 stream
    let (more, left) := readMessages count rest
    (result :: more, left)

end

end HNBChain.Audit.Source.P2p
