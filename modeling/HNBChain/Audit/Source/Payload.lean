import HNBChain.Audit.Source.AppMgr

/-!
# The payload of every action

A sender can ask for any action: `encodeAction` writes a payload that the contract decodes to
exactly that action. Results about actions are therefore results about payloads, and `carrying` is a
transaction that asks for the action.
-/
namespace HNBChain.Audit.Source

open Lib Json Decimal Octets

def byteSliceJson : Option Bytes → Json
  | none => .null
  | some bytes => .str (encode64 bytes)

def sameJson (hx : SameTx) : Json :=
  .obj [(octets "output", .str (encodeHex hx.outputAddr)),
    (octets "amount", .num (formatInt hx.amount))]

def diffJson (hx : DiffTx) : Json :=
  .obj [(octets "output", .str (encodeHex hx.outputAddr)),
    (octets "amount", .num (formatInt hx.amount)),
    (octets "inAmount", .num (formatInt hx.inAmount))]

def voteJson (vi : VoteInfo) : Json :=
  .obj [(octets "fromAddr", byteSliceJson vi.fromAddr),
    (octets "candidate", byteSliceJson vi.candidate),
    (octets "VotingPower", .num (formatInt vi.votingPower)),
    (octets "voteEpoch", .num (formatUint vi.voteEpoch))]

def contractTxText (txType : UInt64) (payLoad : Bytes) : Bytes :=
  render (.obj [(octets "txType", .num (formatUint txType)),
    (octets "payLoad", .str (encode64 payLoad))])

def encodeAction : Action → Bytes
  | .same hx => contractTxText 1 (render (sameJson hx))
  | .diff hx => contractTxText 2 (render (diffJson hx))
  | .vote vi => contractTxText 3 (render (voteJson vi))
  | .unfreeze epochNo => contractTxText 4 (formatUint epochNo)
  | .idle => contractTxText 0 []

/-- A field name: it needs no escape and is matched by no other name of its struct. -/
def PlainName (name : String) : Prop :=
  Json.PlainText (octets name) ∧ unquote (octets name) = octets name ∧
    isField name (octets name) = true

instance (name : String) : Decidable (PlainName name) :=
  inferInstanceAs (Decidable (Json.PlainText (octets name) ∧ _ ∧ _))

theorem byteSliceJson_simple (slice : Option Bytes) : (byteSliceJson slice).Simple := by
  cases slice with
  | none => trivial
  | some bytes => exact (encode64_safe bytes).plain

theorem decodeByteSlice_json (old slice : Option Bytes) :
    decodeByteSlice old (byteSliceJson slice) = some slice := by
  cases slice with
  | none => rfl
  | some bytes =>
    simp [byteSliceJson, decodeByteSlice, unquote_safe _ (encode64_safe bytes), decode64_encode64]

theorem decodeContractTx_text (txType : UInt64) (payLoad : Bytes) (hsm : txType.toNat < 256) :
    decodeContractTx (contractTxText txType payLoad) =
    some ⟨UInt8.ofNat txType.toNat, payLoad⟩ := by
  have typeName : PlainName "txType" := by decide
  have loadName : PlainName "payLoad" := by decide
  have ha : isField "txType" (octets "payLoad") = false := by decide
  have hs : (obj [(octets "txType", .num (formatUint txType)),
      (octets "payLoad", .str (encode64 payLoad))]).Simple :=
    ⟨typeName.1, ⟨txType.toNat, formatUint_eq txType⟩, loadName.1,
      (encode64_safe payLoad).plain, trivial⟩
  simp [decodeContractTx, contractTxText, parse_render _ hs, decodeStruct,
    typeName.2.1, typeName.2.2, loadName.2.1, loadName.2.2, ha, decodeUint8, decodeByteSlice,
    parseUint_formatUint, hsm, unquote_safe _ (encode64_safe payLoad),
    decode64_encode64]

theorem decodeSameTx_json (hx : SameTx) : decodeSameTx (render (sameJson hx)) = some hx := by
  have outputName : PlainName "output" := by decide
  have amountName : PlainName "amount" := by decide
  have ha : isField "output" (octets "amount") = false := by decide
  have hs : (sameJson hx).Simple :=
    ⟨outputName.1, (encodeHex_safe hx.outputAddr).plain, amountName.1,
      ⟨hx.amount.toInt, rfl⟩, trivial⟩
  rw [decodeSameTx, parse_render _ hs]
  simp [sameJson, decodeStruct, outputName.2.1, outputName.2.2, amountName.2.1, amountName.2.2,
    ha, decodeHexBytes, decodeInt64, decodeHex_encodeHex]

theorem decodeDiffTx_json (hx : DiffTx) : decodeDiffTx (render (diffJson hx)) = some hx := by
  have outputName : PlainName "output" := by decide
  have amountName : PlainName "amount" := by decide
  have inName : PlainName "inAmount" := by decide
  have ha : isField "output" (octets "amount") = false ∧
    isField "output" (octets "inAmount") = false ∧
      isField "amount" (octets "inAmount") = false := by decide
  have hs : (diffJson hx).Simple :=
    ⟨outputName.1, (encodeHex_safe hx.outputAddr).plain, amountName.1,
      ⟨hx.amount.toInt, rfl⟩, inName.1, ⟨hx.inAmount.toInt, rfl⟩, trivial⟩
  rw [decodeDiffTx, parse_render _ hs]
  simp [diffJson, decodeStruct, outputName.2.1, outputName.2.2, amountName.2.1, amountName.2.2,
    inName.2.1, inName.2.2, ha, decodeHexBytes, decodeInt64, decodeHex_encodeHex]

theorem decodeVoteInfo_json (vi : VoteInfo) : decodeVoteInfo (render (voteJson vi)) = some vi := by
  have fromName : PlainName "fromAddr" := by decide
  have candidateName : PlainName "candidate" := by decide
  have powerName : PlainName "VotingPower" := by decide
  have epochName : PlainName "voteEpoch" := by decide
  have ha : isField "fromAddr" (octets "candidate") = false ∧
    isField "fromAddr" (octets "VotingPower") = false ∧
      isField "fromAddr" (octets "voteEpoch") = false ∧
      isField "candidate" (octets "VotingPower") = false ∧
      isField "candidate" (octets "voteEpoch") = false ∧
      isField "VotingPower" (octets "voteEpoch") = false := by decide
  have hs : (voteJson vi).Simple :=
    ⟨fromName.1, byteSliceJson_simple _, candidateName.1, byteSliceJson_simple _, powerName.1,
      ⟨vi.votingPower.toInt, rfl⟩, epochName.1, ⟨vi.voteEpoch.toNat, formatUint_eq _⟩,
      trivial⟩
  rw [decodeVoteInfo, parse_render _ hs]
  simp [voteJson, decodeStruct, fromName.2.1, fromName.2.2, candidateName.2.1, candidateName.2.2,
    powerName.2.1, powerName.2.2, epochName.2.1, epochName.2.2, ha, decodeByteSlice_json,
    decodeInt64, decodeUint64, parseUint_formatUint, Except.toOption]

/-- HNB decodes the payload written for an action to that action. -/
theorem decodeAction_encode (action : Action) :
    decodeAction .hnb (encodeAction action) = .ok action := by
  cases action with
  | same hx =>
    simp [decodeAction, encodeAction, decodeContractTx_text, decodePayLoad, decodeSameTx_json]
  | diff hx =>
    simp [decodeAction, encodeAction, decodeContractTx_text, decodePayLoad, decodeDiffTx_json]
  | vote vi =>
    simp [decodeAction, encodeAction, decodeContractTx_text, decodePayLoad, decodeVoteInfo_json]
  | unfreeze epochNo =>
    simp [decodeAction, encodeAction, decodeContractTx_text, decodePayLoad, parseUint_formatUint]
  | idle => simp [decodeAction, encodeAction, decodeContractTx_text, decodePayLoad]

variable (chain : ChainID)

theorem decodeAction_encode_same (hx : SameTx) :
    decodeAction chain (encodeAction (.same hx)) = .ok (.same hx) := by
  simp [decodeAction, encodeAction, decodeContractTx_text, decodePayLoad, decodeSameTx_json]

theorem decodeAction_encode_diff (hx : DiffTx) :
    decodeAction chain (encodeAction (.diff hx)) = .ok (.diff hx) := by
  simp [decodeAction, encodeAction, decodeContractTx_text, decodePayLoad, decodeDiffTx_json]

theorem length_zeroes : (List.replicate 20 (0 : UInt8)).length = 20 := List.length_replicate

/-- An account to send from. -/
def payer : Address := ⟨List.replicate 20 0, length_zeroes⟩

/-- A transaction that asks a contract for an action. -/
def carrying (chain : ChainID) (sender : Address) (action : Action) : Transaction where
  contractName := octets chain.text
  payload := encodeAction action
  txid := []
  fromAddr := sender
  nonceValue := 0

@[simp] theorem getHandler_carrying (sender : Address) (action : Action) :
    getHandler (carrying chain sender action).contractName = .ok chain := getHandler_text chain

theorem decodeAction_carrying (sender : Address) (action : Action) :
    decodeAction .hnb (carrying .hnb sender action).payload = .ok action :=
    decodeAction_encode action

section

variable {σ : Type} (m : Memory Key Bytes σ) (chain : ChainID) (sender : Address)

theorem runOn_carrying_diff (hx : DiffTx) (s : σ) :
    runOn m (invoke (contractApi chain (carrying chain sender (.diff hx)))) s =
      runOn m (perform (contractApi chain (carrying chain sender (.diff hx))) (.diff hx)) s := by
  rw [runOn_invoke]
  simp only [contractApi, carrying, decodeAction_encode_diff]

end

/-- A payment of 5 HNB by the founder. -/
def foundersPayment : Transaction := carrying .hnb founder (.same ⟨[7], 5⟩)

theorem foundersPayment_done : (runFlat (invoke (contractApi .hnb foundersPayment)) genesis).1 =
    .ok () := by
  decide +kernel

theorem decodeAction_foundersPayment {action : Action}
    (hd : decodeAction .hnb foundersPayment.payload = .ok action) :
    action = .same ⟨[7], 5⟩ := by
  rw [foundersPayment, decodeAction_carrying, Except.ok.injEq] at hd
  exact hd.symm

end HNBChain.Audit.Source
