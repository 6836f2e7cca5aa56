import Ds4.Tp.Command

/-!
# Receiving a command

A decoder works on a command that is empty at first, and tells whether the payload was the one of its
frame. It gives nothing at all when it reads past the end of the payload. A command that is refused is
freed, which leaves it empty.
-/

namespace Ds4.Tp
open C Packed Wire

/-- The frame type with a code. -/
def FrameType.ofCode (code : UInt32) : Option FrameType :=
  [.error, .sync, .eval, .rewind, .invalidate, .stop, .hash, .rdmaInfo, .syncAck, .rdmaReady, .logits,
    .verify, .verifyCommit, .sessionCreate, .sessionDestroy, .evalBatch, .mixedBatch, .commandAck,
    .syncMultimodal, .rdmaWarm, .rdmaPosted, .glmMtp].find? fun type => type.code = code

theorem FrameType.ofCode_code (type : FrameType) : ofCode type.code = some type := by
  cases type <;> rfl

structure TpCommand (nEmbd : UInt32) where
  type : FrameType
  sessionId : UInt64
  seq : UInt64
  value : Int32
  limit : Int32
  tokens : List Int32
  items : List BatchItem
  images : List (VisionSpan nEmbd)

namespace TpCommand

def empty (nEmbd : UInt32) : TpCommand nEmbd := ⟨.error, 0, 0, 0, 0, [], [], []⟩

end TpCommand

section Decode
variable {nEmbd : UInt32}

def ds4TpCommandFree (_ : TpCommand nEmbd) : TpCommand nEmbd := .empty nEmbd

def tpCommandDecodeTokens (command : TpCommand nEmbd) (payload : Bytes) :
    Option (Bool × TpCommand nEmbd) :=
  if payload.length < size TokenCommandHeader then some (false, command)
  else do
    let h : TokenCommandHeader := get (← readAt payload 0 (size TokenCommandHeader))
    let want := size TokenCommandHeader + h.count.toNat * size Int32
    if want ≠ payload.length then some (false, command)
    else
      let wireTokens ← readAt payload (size TokenCommandHeader) (h.count.toNat * size Int32)
      some (true, { command with
        sessionId := h.sessionId
        tokens := getArray Int32 h.count.toNat wireTokens })

/-- The checks on the fixed part of an image. -/
def badWire (nEmbd : UInt32) (wire : VisionWire) : Prop :=
  wire.tokenCount = 0 ∨ wire.dataWidth ≠ nEmbd ∨ wire.width = 0 ∨
    wire.tokenCount.toNat * wire.dataWidth.toNat > uint64Max / size UInt32

instance (nEmbd : UInt32) (wire : VisionWire) : Decidable (badWire nEmbd wire) :=
  inferInstanceAs (Decidable (_ ∨ _))

theorem dataWidth_eq {wire : VisionWire} (h : ¬badWire nEmbd wire) : wire.dataWidth = nEmbd := by
  rw [badWire, not_or, not_or, not_not] at h
  exact h.2.1

def imageOfWire (wire : VisionWire) (h : ¬badWire nEmbd wire) (data : Bytes) : VisionSpan nEmbd where
  tokenStart := wire.tokenStart
  embedding := {
    data := some (getArray UInt32 (wire.tokenCount.toNat * wire.dataWidth.toNat) data)
    tokenCount := wire.tokenCount
    layout := 0
    gridWidth := 0
    gridHeight := 0
    width := wire.width
    height := wire.height
    contentWidth := wire.contentWidth
    contentHeight := wire.contentHeight
    fingerprint := wire.fingerprint
    length_data := by
      intro values hvalues
      cases hvalues
      rw [length_getArray, dataWidth_eq h] }

/-- The images from a place of the payload on and the place behind them, if they are well formed. -/
def decodeImages (nEmbd : UInt32) (payload : Bytes) :
    Nat → Nat → Option (Option (List (VisionSpan nEmbd) × Nat))
  | 0, pos => some (some ([], pos))
  | count + 1, pos =>
    if pos + size VisionWire > payload.length then some none
    else do
      let wire : VisionWire := get (← readAt payload pos (size VisionWire))
      let pos := pos + size VisionWire
      if h : badWire nEmbd wire then some none
      else
        let dataBytes := wire.tokenCount.toNat * wire.dataWidth.toNat * size UInt32
        if dataBytes > payload.length - pos then some none
        else
          let data ← readAt payload pos dataBytes
          match ← decodeImages nEmbd payload count (pos + dataBytes) with
          | none => some none
          | some (images, pos) => some (some (imageOfWire wire h data :: images, pos))

def tpCommandDecodeMultimodal (command : TpCommand nEmbd) (payload : Bytes) :
    Option (Bool × TpCommand nEmbd) :=
  if payload.length < size MultimodalCommandHeader then some (false, command)
  else do
    let h : MultimodalCommandHeader := get (← readAt payload 0 (size MultimodalCommandHeader))
    let pos := size MultimodalCommandHeader
    let tokenBytes := h.tokenCount.toNat * size Int32
    if pos + tokenBytes > payload.length then some (false, command)
    else if h.imageCount.toNat > (payload.length - pos - tokenBytes) / size VisionWire then
      some (false, command)
    else
      let wireTokens ← readAt payload pos tokenBytes
      match ← decodeImages nEmbd payload h.imageCount.toNat (pos + tokenBytes) with
      | none => some (false, command)
      | some (images, pos) =>
        if pos ≠ payload.length then some (false, command)
        else some (true, { command with
          sessionId := h.sessionId
          tokens := getArray Int32 h.tokenCount.toNat wireTokens
          images })

/-- The cases `DS4_TP_FRAME_SESSION_CREATE` and `DS4_TP_FRAME_REWIND`. -/
def decodeValue (command : TpCommand nEmbd) (payload : Bytes) : Option (Bool × TpCommand nEmbd) :=
  if payload.length ≠ size ValueCommand then some (false, command)
  else do
    let msg : ValueCommand := get (← readAt payload 0 (size ValueCommand))
    some (true, { command with sessionId := msg.sessionId, value := msg.value })

/-- The cases `DS4_TP_FRAME_SESSION_DESTROY` and `DS4_TP_FRAME_INVALIDATE`. -/
def decodeSession (command : TpCommand nEmbd) (payload : Bytes) : Option (Bool × TpCommand nEmbd) :=
  if payload.length ≠ size UInt64 then some (false, command)
  else do
    let sessionId : UInt64 := get (← readAt payload 0 (size UInt64))
    some (true, { command with sessionId })

/-- The cases `DS4_TP_FRAME_EVAL` and `DS4_TP_FRAME_GLM_MTP`. -/
def decodeEval (ftype : FrameType) (command : TpCommand nEmbd) (payload : Bytes) :
    Option (Bool × TpCommand nEmbd) :=
  if payload.length ≠ size EvalCommand then some (false, command)
  else do
    let msg : EvalCommand := get (← readAt payload 0 (size EvalCommand))
    let command := { command with sessionId := msg.sessionId, seq := msg.seq, value := msg.token }
    if ftype = .glmMtp then
      if msg.reserved < 1 ∨ msg.reserved > 2 then some (false, command)
      else some (true, { command with limit := msg.reserved.toInt32 })
    else some (msg.reserved = 0, command)

def decodeBatch (command : TpCommand nEmbd) (payload : Bytes) : Option (Bool × TpCommand nEmbd) :=
  if payload.length < size BatchCommandHeader then some (false, command)
  else do
    let h : BatchCommandHeader := get (← readAt payload 0 (size BatchCommandHeader))
    let want := size BatchCommandHeader + h.count.toNat * size BatchItem
    if h.count = 0 ∨ want ≠ payload.length then some (false, command)
    else
      let items ← readAt payload (size BatchCommandHeader) (h.count.toNat * size BatchItem)
      some (true, { command with items := getArray BatchItem h.count.toNat items })

def decodeMixed (command : TpCommand nEmbd) (payload : Bytes) : Option (Bool × TpCommand nEmbd) :=
  if payload.length < size MixedCommandHeader then some (false, command)
  else do
    let h : MixedCommandHeader := get (← readAt payload 0 (size MixedCommandHeader))
    let tokenBytes := h.promptCount.toNat * size Int32
    let itemBytes := h.itemCount.toNat * size BatchItem
    let want := size MixedCommandHeader + tokenBytes + itemBytes
    if h.promptCount = 0 ∨ h.itemCount = 0 ∨ want ≠ payload.length then some (false, command)
    else
      let wireTokens ← readAt payload (size MixedCommandHeader) tokenBytes
      let items ← readAt payload (size MixedCommandHeader + tokenBytes) itemBytes
      some (true, { command with
        sessionId := h.prefillSessionId
        tokens := getArray Int32 h.promptCount.toNat wireTokens
        items := getArray BatchItem h.itemCount.toNat items })

/-- The switch over the type of a frame. -/
def decode (ftype : Option FrameType) (command : TpCommand nEmbd) (payload : Bytes) :
    Option (Bool × TpCommand nEmbd) :=
  match ftype with
  | some .sync | some .verify => tpCommandDecodeTokens command payload
  | some .syncMultimodal => tpCommandDecodeMultimodal command payload
  | some .sessionCreate | some .rewind => decodeValue command payload
  | some .sessionDestroy | some .invalidate => decodeSession command payload
  | some .eval => decodeEval .eval command payload
  | some .glmMtp => decodeEval .glmMtp command payload
  | some .evalBatch => decodeBatch command payload
  | some .mixedBatch => decodeMixed command payload
  | some .stop => some (payload.length = 0, command)
  | _ => some (false, command)

end Decode

def tpReadFull (c : Conn) (len : Nat) : Option (Bytes × Conn) :=
  if len ≤ c.bytes.length then some (c.bytes.take len, c.drop len) else none

def tpReadFrameHeader (c : Conn) : Option (UInt32 × Nat × Conn) := do
  let (s, c) ← tpReadFull c (size FrameHeader)
  let h : FrameHeader := get s
  if h.magic ≠ magic then none else some (h.type, h.bytes.toNat, c)

/-- What `ds4_tp_recv_command` leaves behind. -/
structure Received (nEmbd : UInt32) where
  ok : Bool
  command : TpCommand nEmbd
  err : Bytes
  conn : Conn

def ds4TpRecvCommand (nEmbd : UInt32) (c : Conn) : Option (Received nEmbd) :=
  let command := TpCommand.empty nEmbd
  match tpReadFrameHeader c with
  | none => some ⟨false, command, lit "tp: control channel closed", c.drop (size FrameHeader)⟩
  | some (ftype, bytes, c) =>
    match tpReadFull c bytes with
    | none => some ⟨false, command, lit "tp: truncated command frame", c.drop bytes⟩
    | some (payload, c) => do
      let (ok, command) ← decode (FrameType.ofCode ftype) command payload
      if ok then
        some ⟨true, { command with type := (FrameType.ofCode ftype).getD .error }, [], c⟩
      else
        some ⟨false, ds4TpCommandFree command, lit "tp: invalid command frame type " ++
          lit (toString ftype) ++ lit " (" ++ lit (toString bytes) ++ lit " bytes)", c⟩

end Ds4.Tp
