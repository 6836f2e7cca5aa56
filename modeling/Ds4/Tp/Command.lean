import Ds4.Lib.Packed
import Ds4.Lib.Wire

/-!
# The commands of a tensor-parallel leader

The leader mirrors what it does with its sessions as frames on the control channel. The records of a
frame are copied from memory as they are; both machines have the same byte order. A sender gives the
bytes of its frame, or nothing when it refuses to send it.
-/

namespace Ds4.Tp
open C Packed

def uint32Max : Nat := 2 ^ 32 - 1
def uint64Max : Nat := 2 ^ 64 - 1
def magic : UInt32 := 0x44533454

inductive FrameType
  | error | sync | eval | rewind | invalidate | stop | hash | rdmaInfo | syncAck | rdmaReady | logits
  | verify | verifyCommit | sessionCreate | sessionDestroy | evalBatch | mixedBatch | commandAck
  | syncMultimodal | rdmaWarm | rdmaPosted | glmMtp
  deriving DecidableEq, Repr

def FrameType.code : FrameType → UInt32
  | .error => 0xffffffff
  | .sync => 1
  | .eval => 2
  | .rewind => 3
  | .invalidate => 4
  | .stop => 5
  | .hash => 6
  | .rdmaInfo => 7
  | .syncAck => 8
  | .rdmaReady => 9
  | .logits => 10
  | .verify => 11
  | .verifyCommit => 12
  | .sessionCreate => 13
  | .sessionDestroy => 14
  | .evalBatch => 15
  | .mixedBatch => 16
  | .commandAck => 17
  | .syncMultimodal => 18
  | .rdmaWarm => 19
  | .rdmaPosted => 20
  | .glmMtp => 21

/-! ## Records -/

structure FrameHeader where
  magic : UInt32
  type : UInt32
  bytes : UInt32
  deriving DecidableEq, Repr

instance : Packed FrameHeader :=
  via (fun h => (h.magic, h.type, h.bytes)) (fun (a, b, c) => ⟨a, b, c⟩) fun _ => rfl

structure TokenCommandHeader where
  sessionId : UInt64
  count : UInt32
  reserved : UInt32
  deriving DecidableEq, Repr

instance : Packed TokenCommandHeader :=
  via (fun h => (h.sessionId, h.count, h.reserved)) (fun (a, b, c) => ⟨a, b, c⟩) fun _ => rfl

structure MultimodalCommandHeader where
  sessionId : UInt64
  tokenCount : UInt32
  imageCount : UInt32
  deriving DecidableEq, Repr

instance : Packed MultimodalCommandHeader :=
  via (fun h => (h.sessionId, h.tokenCount, h.imageCount)) (fun (a, b, c) => ⟨a, b, c⟩) fun _ => rfl

structure VisionWire where
  tokenStart : UInt32
  tokenCount : UInt32
  dataWidth : UInt32
  width : UInt32
  height : UInt32
  contentWidth : UInt32
  contentHeight : UInt32
  fingerprint : Vector UInt8 32
  deriving DecidableEq, Repr

instance : Packed VisionWire :=
  via (fun w => (w.tokenStart, w.tokenCount, w.dataWidth, w.width, w.height, w.contentWidth,
      w.contentHeight, w.fingerprint))
    (fun (a, b, c, d, e, f, g, h) => ⟨a, b, c, d, e, f, g, h⟩) fun _ => rfl

structure ValueCommand where
  sessionId : UInt64
  value : Int32
  reserved : UInt32
  deriving DecidableEq, Repr

instance : Packed ValueCommand :=
  via (fun m => (m.sessionId, m.value, m.reserved)) (fun (a, b, c) => ⟨a, b, c⟩) fun _ => rfl

structure EvalCommand where
  sessionId : UInt64
  seq : UInt64
  token : Int32
  reserved : UInt32
  deriving DecidableEq, Repr

instance : Packed EvalCommand :=
  via (fun m => (m.sessionId, m.seq, m.token, m.reserved)) (fun (a, b, c, d) => ⟨a, b, c, d⟩)
    fun _ => rfl

structure BatchCommandHeader where
  count : UInt32
  reserved : UInt32
  deriving DecidableEq, Repr

instance : Packed BatchCommandHeader :=
  via (fun h => (h.count, h.reserved)) (fun (a, b) => ⟨a, b⟩) fun _ => rfl

structure MixedCommandHeader where
  prefillSessionId : UInt64
  promptCount : UInt32
  itemCount : UInt32
  deriving DecidableEq, Repr

instance : Packed MixedCommandHeader :=
  via (fun h => (h.prefillSessionId, h.promptCount, h.itemCount)) (fun (a, b, c) => ⟨a, b, c⟩)
    fun _ => rfl

structure BatchItem where
  sessionId : UInt64
  token : Int32
  reserved : UInt32
  deriving DecidableEq, Repr

instance : Packed BatchItem :=
  via (fun i => (i.sessionId, i.token, i.reserved)) (fun (a, b, c) => ⟨a, b, c⟩) fun _ => rfl

/-- An embedding has a row of the width of the model for each of its tokens. Floats are kept as their
32 bits. -/
structure VisionEmbedding (nEmbd : UInt32) where
  data : Option (List UInt32)
  tokenCount : UInt32
  layout : UInt32
  gridWidth : UInt32
  gridHeight : UInt32
  width : UInt32
  height : UInt32
  contentWidth : UInt32
  contentHeight : UInt32
  fingerprint : Vector UInt8 32
  length_data : ∀ values ∈ data, values.length = tokenCount.toNat * nEmbd.toNat

structure VisionSpan (nEmbd : UInt32) where
  tokenStart : UInt32
  embedding : VisionEmbedding nEmbd

/-! ## Senders -/

def tpSendFrame (type : FrameType) (payload : Bytes) : Bytes :=
  put (FrameHeader.mk magic type.code (UInt32.ofNat payload.length)) ++ payload

def tpSendTokenCommand (type : FrameType) (sessionId : UInt64) (tokens : List Int32) :
    Option Bytes :=
  let bytes64 := size TokenCommandHeader + tokens.length * size Int32
  if bytes64 > uint32Max then none
  else some (tpSendFrame type
    (put (TokenCommandHeader.mk sessionId (UInt32.ofNat tokens.length) 0) ++ putArray tokens))

def ds4TpSendSessionCreate (sessionId : UInt64) (ctxSize : Int32) : Option Bytes :=
  some (tpSendFrame .sessionCreate (put (ValueCommand.mk sessionId ctxSize 0)))

def ds4TpSendSessionDestroy (sessionId : UInt64) : Option Bytes :=
  some (tpSendFrame .sessionDestroy (put sessionId))

def ds4TpSendSync (sessionId : UInt64) (tokens : List Int32) : Option Bytes :=
  tpSendTokenCommand .sync sessionId tokens

section Multimodal
variable {nEmbd : UInt32}

/-- What an image adds to the length of the payload, in 64 bits. -/
def addBytes (image : VisionSpan nEmbd) : Option Nat :=
  let values := image.embedding.tokenCount.toNat * nEmbd.toNat
  if values > uint64Max / size UInt32 then none
  else
    let dataBytes := values * size UInt32
    let addBytes := (size VisionWire + dataBytes) % 2 ^ 64
    if image.embedding.data = none ∨ addBytes > uint32Max then none else some addBytes

def multimodalBytes (bytes64 : Nat) : List (VisionSpan nEmbd) → Option Nat
  | [] => some bytes64
  | image :: images =>
    match addBytes image with
    | none => none
    | some add =>
      if bytes64 > uint32Max - add then none else multimodalBytes (bytes64 + add) images

def visionWire (image : VisionSpan nEmbd) : VisionWire where
  tokenStart := image.tokenStart
  tokenCount := image.embedding.tokenCount
  dataWidth := nEmbd
  width := image.embedding.width
  height := image.embedding.height
  contentWidth := image.embedding.contentWidth
  contentHeight := image.embedding.contentHeight
  fingerprint := image.embedding.fingerprint

def putImage (image : VisionSpan nEmbd) : Bytes :=
  put (visionWire image) ++ putArray (image.embedding.data.getD [])

def ds4TpSendSyncMultimodal (sessionId : UInt64) (tokens : List Int32)
    (images : List (VisionSpan nEmbd)) : Option Bytes :=
  let bytes64 := size MultimodalCommandHeader + tokens.length * size Int32
  if nEmbd = 0 ∨ bytes64 > uint32Max then none
  else
    match multimodalBytes bytes64 images with
    | none => none
    | some bytes64 =>
      let payload :=
        put (MultimodalCommandHeader.mk sessionId (UInt32.ofNat tokens.length)
          (UInt32.ofNat images.length)) ++ (putArray tokens ++ images.flatMap putImage)
      -- A copy past the end of the payload has no meaning.
      if payload.length ≠ bytes64 then none else some (tpSendFrame .syncMultimodal payload)

end Multimodal

def ds4TpSendEval (sessionId seq : UInt64) (token : Int32) : Option Bytes :=
  some (tpSendFrame .eval (put (EvalCommand.mk sessionId seq token 0)))

def ds4TpSendGlmMtp (sessionId seq : UInt64) (token limit : Int32) : Option Bytes :=
  if limit < 1 ∨ limit > 2 then none
  else some (tpSendFrame .glmMtp (put (EvalCommand.mk sessionId seq token limit.toUInt32)))

def ds4TpSendRewind (sessionId : UInt64) (pos : Int32) : Option Bytes :=
  some (tpSendFrame .rewind (put (ValueCommand.mk sessionId pos 0)))

def ds4TpSendInvalidate (sessionId : UInt64) : Option Bytes :=
  some (tpSendFrame .invalidate (put sessionId))

def ds4TpSendEvalBatch (items : List BatchItem) : Option Bytes :=
  let bytes64 := size BatchCommandHeader + items.length * size BatchItem
  if items.length = 0 ∨ bytes64 > uint32Max then none
  else some (tpSendFrame .evalBatch
    (put (BatchCommandHeader.mk (UInt32.ofNat items.length) 0) ++ putArray items))

def ds4TpSendMixedBatch (prefillSessionId : UInt64) (prompt : List Int32) (items : List BatchItem) :
    Option Bytes :=
  let promptBytes := prompt.length * size Int32
  let itemBytes := items.length * size BatchItem
  let bytes64 := size MixedCommandHeader + promptBytes + itemBytes
  if prompt.length = 0 ∨ items.length = 0 ∨ bytes64 > uint32Max then none
  else some (tpSendFrame .mixedBatch
    (put (MixedCommandHeader.mk prefillSessionId (UInt32.ofNat prompt.length)
      (UInt32.ofNat items.length)) ++ (putArray prompt ++ putArray items)))

def ds4TpSendStop : Option Bytes := some (tpSendFrame .stop [])

def ds4TpSendVerify (sessionId : UInt64) (drafts : List Int32) : Option Bytes :=
  tpSendTokenCommand .verify sessionId drafts

end Ds4.Tp
