import HNBChain.Audit.Source.P2p.Message

/-!
# Frames in a stream

What one peer writes with `WriteMessage`, message after message, another reads back with as many
calls of `ReadMessage`: each call takes the octets of one frame off the stream and none of the next,
whatever the payload is.
-/
namespace HNBChain.Audit.Guarantees.MessageFraming

open Lib Source.P2p Message List

/-- The payload fits into a frame, and what it holds is read as it is written: address lists are not
longer than a reader takes, and texts are well-formed. -/
structure Fits (msg : Message) : Prop where
  length : msg.serialization.length ≤ maxPayloadLen
  addrs : ∀ nodeAddrs, msg = .addr nodeAddrs → nodeAddrs.length ≤ 64
  text : ∀ content, msg = .testNetwork content → Json.ValidText content

/-! ## Payloads -/

theorem readValue_write {α : Type} (codec : FixedCodec α) (text : String) (a : α) (rest : Bytes) :
    readValue codec text (codec.write a ++ rest) = .ok (a, rest) := by
  rw [readValue, codec.readFrom_write]

theorem readValue_exact {α : Type} (codec : FixedCodec α) (text : String) (a : α) :
    readValue codec text (codec.write a) = .ok (a, []) := by
  have read := readValue_write codec text a []
  rwa [append_nil] at read

theorem readAddrs_write (nodeAddrs : List PeerAddr) :
    readAddrs nodeAddrs.length (nodeAddrs.flatMap PeerAddr.codec.write) = .ok nodeAddrs := by
  induction nodeAddrs with
  | nil => rfl
  | cons addr more ih =>
    rw [flatMap_cons, length_cons, readAddrs, readValue_write]
    change (readAddrs more.length (more.flatMap PeerAddr.codec.write) >>= fun more =>
      pure (addr :: more)) = _
    rw [ih]
    rfl

theorem unmarshalString_render {content : Bytes} (hv : Json.ValidText content) :
    unmarshalString (Json.render (.str (Json.quote content))) = some content := by
  rw [unmarshalString, Json.parse_quote hv]
  dsimp only
  rw [Json.unquote_quote hv]

theorem deserialization_serialization {msg : Message} (fits : Fits msg) :
    msg.cmdType.deserialization msg.serialization = .ok msg := by
  cases msg with
  | version p =>
    rw [serialization, cmdType, CmdType.deserialization, readValue_exact]
    rfl
  | verACK isConsensus =>
    rw [serialization, cmdType, CmdType.deserialization, readValue_exact]
    rfl
  | addr nodeAddrs =>
    have few := fits.addrs nodeAddrs rfl
    have count : min (UInt64.ofNat nodeAddrs.length).toNat maxAddrNodeCnt = nodeAddrs.length := by
      rw [UInt64.toNat_ofNat_of_lt' (Nat.lt_of_le_of_lt few (by decide))]
      exact Nat.min_eq_left few
    rw [serialization, cmdType, CmdType.deserialization, readValue_write]
    change (readAddrs (min (UInt64.ofNat nodeAddrs.length).toNat maxAddrNodeCnt) _ >>=
        fun nodeAddrs =>
      pure (addr nodeAddrs)) = _
    rw [count, readAddrs_write]
    rfl
  | ping height =>
    rw [serialization, cmdType, CmdType.deserialization, readValue_exact]
    rfl
  | pong height =>
    rw [serialization, cmdType, CmdType.deserialization, readValue_exact]
    rfl
  | testNetwork content =>
    rw [serialization, cmdType, CmdType.deserialization,
      unmarshalString_render (fits.text content rfl)]
  | addrReq | disconnected | txMsg _ | syncMsg _ | consMsg _ => rfl

/-! ## Frames -/

theorem cmdType_padded (t : CmdType) : trimZeros (copyInto msgCmdLen t.text).toList = t.text := by
  cases t <;> decide

theorem makeEmptyMessage_text (t : CmdType) : makeEmptyMessage t.text = .ok t := by
  cases t <;> decide

theorem readFull_append (octets rest : Bytes) :
    readFull octets.length (octets ++ rest) = (.ok octets, rest) := by
  rw [readFull, if_pos (by rw [length_append]; omega), take_left, drop_left]

section

variable (sha256 : Bytes → Bytes)

theorem readPayload_written {msg : Message} (fits : Fits msg) (length : UInt32) :
    readPayload sha256 (newMessageHeader msg.cmdType.text length
      (checkSum sha256 msg.serialization)) msg.serialization = .ok msg := by
  unfold readPayload newMessageHeader
  rw [if_neg (not_not.mpr rfl), cmdType_padded, makeEmptyMessage_text]
  exact deserialization_serialization fits

theorem readMessage_writeMessage {msg : Message} (fits : Fits msg) (rest : Bytes) :
    readMessage sha256 (writeMessage sha256 msg ++ rest) = (.ok msg, rest) := by
  have short := fits.length
  have length : (UInt32.ofNat msg.serialization.length).toNat = msg.serialization.length :=
    UInt32.toNat_ofNat_of_lt' (Nat.lt_of_le_of_lt short (by decide))
  unfold writeMessage readMessage
  dsimp only
  generalize same : newMessageHeader _ _ _ = hdr
  have hdrLength : hdr.length.toNat = msg.serialization.length := by
    rw [← same]
    exact length
  rw [append_assoc, ← MessageHeader.codec.length_write hdr, readFull_append]
  dsimp only
  rw [MessageHeader.codec.read_write, hdrLength, if_neg (Nat.not_lt.mpr short), readFull_append]
  dsimp only
  rw [← same, readPayload_written sha256 fits]

/-- The first `count` calls give the first `count` messages and leave the frames of the others. -/
theorem readMessages_writeMessages (msgs : List Message)
    (fits : ∀ msg ∈ msgs, Fits msg) (rest : Bytes) (count : Nat) (hi : count ≤ msgs.length) :
    readMessages sha256 count (msgs.flatMap (writeMessage sha256) ++ rest) =
      ((msgs.take count).map .ok, (msgs.drop count).flatMap (writeMessage sha256) ++ rest) := by
  induction msgs generalizing count with
  | nil =>
    obtain rfl : count = 0 := Nat.le_zero.mp hi
    rfl
  | cons msg more ih =>
    cases count with
    | zero => rfl
    | succ count =>
      have hl := ih (fun other hm => fits other (mem_cons_of_mem _ hm)) count
        (Nat.le_of_succ_le_succ hi)
      rw [flatMap_cons, append_assoc, readMessages,
        readMessage_writeMessage sha256 (fits msg mem_cons_self)]
      dsimp only
      rw [hl]
      rfl

end

/-- A handshake, an address and a text with characters that are escaped or take several octets. -/
def greeting : List Message :=
  [.verACK true, .addr [⟨5, 1, ⟨replicate 16 0, rfl⟩, 3000, 3001, 42⟩],
    .testNetwork (Json.encodeText ['<', 'é', '"'])]

theorem greeting_fits : ∀ msg ∈ greeting, Fits msg := by
  unfold greeting
  simp only [forall_mem_cons]
  refine ⟨⟨by decide, ?_, ?_⟩, ⟨by decide, ?_, ?_⟩, ⟨by decide, ?_, ?_⟩, ?_⟩
  · intro _ same
    cases same
  · intro _ same
    cases same
  · intro _ same
    cases same
    decide
  · intro _ same
    cases same
  · intro _ same
    cases same
  · intro _ same
    cases same
    exact ⟨_, rfl⟩
  · exact fun _ hm => absurd hm not_mem_nil

theorem greeting_read : (∀ msg ∈ greeting, Fits msg) ∧
    readMessages (fun p => p) 3 (greeting.flatMap (writeMessage fun p => p) ++ [9]) =
    (greeting.map .ok, [9]) :=
  ⟨greeting_fits, readMessages_writeMessages (fun p => p) greeting greeting_fits [9] 3 (by decide)⟩

end HNBChain.Audit.Guarantees.MessageFraming
