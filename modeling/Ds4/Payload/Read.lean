import Ds4.Lib.ErrorState
import Ds4.Lib.Spans
import Ds4.Payload.Shape

/-!
# Reading a payload

The loaders read a file whose end they do not know and count the bytes of the payload that are left.
Every call of the accelerator can fail: `device` has the outcomes, calls that it does not list
succeed. `overrun` becomes true when a copy goes past the end of the array it is made to; the file
is read directly into arrays of the CPU, so nothing but the loader's own checks prevents that.
-/

namespace Ds4.Payload
open C ErrorState

variable {ι K : Type}

structure Io (ι K : Type) where
  session : Session ι K
  file : Bytes
  remaining : Nat
  device : List Bool
  overrun : Bool

abbrev Load (ι K α : Type) := EStateM String (Io ι K) α

def sessionIoChunk : Nat := 8 * 1024 * 1024

namespace Io

/-- What `fread` makes of the state when `n` bytes are wanted. -/
def advance (s : Io ι K) (n : Nat) : Io ι K := { s with file := s.file.drop n }

def consume (s : Io ι K) (n : Nat) : Io ι K := { s.advance n with remaining := s.remaining - n }

def mapSession (s : Io ι K) (f : Session ι K → Session ι K) : Io ι K :=
  { s with session := f s.session }

end Io

namespace Session

def mapCaches (s : Session ι K) (f : Caches ι K → Caches ι K) : Session ι K :=
  { s with caches := f s.caches }

def setArray [DecidableEq ι] (s : Session ι K) (key : ι) (il : Nat) (b : Bytes) : Session ι K :=
  s.mapCaches fun c =>
    { c with array := fun k i => if k = key ∧ i = il then some b else c.array k i }

end Session

/-- `payload_read_bytes`; `store` puts what was read where it is read to, also when that is less than
what was wanted. -/
def payloadReadInto (n : Nat) (store : Bytes → Io ι K → Io ι K) : Load ι K Bytes := fun s =>
  if s.remaining < n then .error "truncated session payload" s
  else
    let got := s.file.take n
    if got.length < n then .error "failed to read session payload" (store got (s.advance n))
    else .ok got (store got (s.consume n))

/-- `payload_read_bytes` into a buffer of its own. -/
def payloadReadBytes (n : Nat) : Load ι K Bytes := payloadReadInto n fun _ s => s

def payloadReadU32 : Load ι K Nat := do
  let b ← payloadReadBytes 4
  return leGet b

def payloadSkipBytes (n : Nat) : Load ι K Unit := fun s =>
  if s.remaining < n then .error "truncated session payload" s
  else if s.file.length < n then .error "failed to skip session payload" (s.advance n)
  else .ok () (s.consume n)

/-- One call of the accelerator that only can fail or not. -/
def gpuCall (e : String) : Load ι K Unit := fun s =>
  let s' := { s with device := s.device.tail }
  if s.device.head? = some false then .error e s' else .ok () s'

def gpuSynchronize (e : String) : Load ι K Unit := gpuCall e

section Arrays
variable [DecidableEq ι]

/-- A copy to an array. What goes past its end is noted and not made. -/
def Io.copyTo (s : Io ι K) (key : ι) (il off : Nat) (b : Bytes) : Io ι K :=
  match s.session.caches.array key il with
  | none => { s with overrun := s.overrun || !b.isEmpty }
  | some a =>
    { s with
      session := s.session.setArray key il (overwrite a off (b.take (a.length - off)))
      overrun := s.overrun || decide (a.length < off + b.length) }

def gpuTensorWrite (key : ι) (il off : Nat) (b : Bytes) (e : String) : Load ι K Unit := do
  gpuCall e
  modify fun s => s.copyTo key il off b

/-- The pieces of a span go through a buffer one after the other: `n` units of a piece are `u * n`
bytes of the payload and `w * n` bytes of the tensor. -/
def readPieces (u w : Nat) (convert : Nat → Bytes → Bytes) (key : ι) (il : Nat) (e : String) :
    Nat → List Nat → Load ι K Unit
  | _, [] => pure ()
  | off, n :: ns => do
    let b ← payloadReadBytes (u * n)
    gpuTensorWrite key il off (convert n b) e
    readPieces u w convert key il e (off + w * n) ns

/-- Whether a span of bytes lies in a tensor. -/
def Io.holds (s : Io ι K) (key : ι) (il off n : Nat) : Bool :=
  match s.session.caches.array key il with
  | none => false
  | some a => decide (off ≤ a.length) && decide (n ≤ a.length - off)

def payloadReadTensorSpan (key : ι) (il off bytes : Nat) : Load ι K Unit := do
  let s ← get
  orThrow (s.holds key il off bytes) "session tensor is smaller than the payload"
  readPieces 1 1 (fun _ b => b) key il "failed to restore accelerator session tensor" off
    (chunkSizes sessionIoChunk bytes)

/-- The elements that fit into the buffer in both widths, an even number. -/
def convertChunk : Nat := sessionIoChunk / 6 / 2 * 2

/-- The guards against counts that 64 bits do not hold are left out: a count is a number of rows
times their width. -/
def payloadReadTensorSpanF32AsF16 (pf : Platform) (key : ι) (il off count : Nat) :
    Load ι K Unit := do
  let s ← get
  orThrow (s.holds key il off (2 * count)) "session tensor is smaller than the F16 payload"
  readPieces 4 2 pf.narrowAll key il "failed to restore Metal F16 session tensor" off
    (chunkSizes convertChunk count)

def payloadReadOrSkipGlmFullKvSpan (pf : Platform) (key : ι) (il count : Nat) : Load ι K Unit := do
  let s ← get
  if count = 0 then pure ()
  else if (s.session.caches.array key il).isSome then
    payloadReadTensorSpanF32AsF16 pf key il 0 count
  else payloadSkipBytes (4 * count)

end Arrays

/-- How a span is kept: as the floats that travel, as halves, or as halves if at all. -/
inductive SpanKind
  | floats
  | halves
  | fullKv
  deriving DecidableEq, Repr

/-- A part of an array that a payload holds: `count` bytes of floats, or `count` halves. -/
structure Span (ι : Type) where
  kind : SpanKind
  key : ι
  layer : Nat
  offset : Nat
  count : Nat

/-- The bytes of a span in the payload. -/
def Span.bytes (sp : Span ι) : Nat :=
  match sp.kind with
  | .floats => sp.count
  | .halves | .fullKv => 4 * sp.count

def readSpan [DecidableEq ι] (pf : Platform) (sp : Span ι) : Load ι K Unit :=
  match sp.kind with
  | .floats => payloadReadTensorSpan sp.key sp.layer sp.offset sp.count
  | .halves => payloadReadTensorSpanF32AsF16 pf sp.key sp.layer sp.offset sp.count
  | .fullKv => payloadReadOrSkipGlmFullKvSpan pf sp.key sp.layer sp.count

/-- The CPU reads a span directly into the array. -/
def readCpuSpan [DecidableEq ι] (sp : Span ι) : Load ι K Unit := do
  let _ ← payloadReadInto sp.count fun got s => s.copyTo sp.key sp.layer sp.offset got

/-- The compressed rows of a layer. -/
def attnCompSpan (half : Bool) (sh : Shape) (nComp il : Nat) : Span GraphTensor :=
  if half then ⟨.halves, .attnComp, il, 0, nComp * sh.nHeadDim⟩
  else ⟨.floats, .attnComp, il, 0, nComp * sh.nHeadDim * 4⟩

/-- What stands behind the compressed rows: the states of the compressor, and the rows and states of
the indexer. -/
def stateSpans (sh : Shape) (ratio nIndexComp il : Nat) : List (Span GraphTensor) :=
  [⟨.floats, .attnStateKv, il, 0, sh.layerAttnStateBytes ratio⟩,
   ⟨.floats, .attnStateScore, il, 0, sh.layerAttnStateBytes ratio⟩] ++
  if ratio = 4 then
    [⟨.floats, .indexComp, il, 0, nIndexComp * sh.nIndexerHeadDim * 4⟩,
     ⟨.floats, .indexStateKv, il, 0, sh.layerIndexStateBytes ratio⟩,
     ⟨.floats, .indexStateScore, il, 0, sh.layerIndexStateBytes ratio⟩]
  else []

/-- The raw rows of the positions from `first` on, wherever these lie in the ring. -/
def rawSpans (sh : Shape) (rawCap first rawLive il : Nat) : List (Span GraphTensor) :=
  (List.range rawLive).map fun r =>
    ⟨.floats, .raw, il, (first + r) % rawCap * (sh.nHeadDim * 4), sh.nHeadDim * 4⟩

/-- The spans of a layer of the DeepSeek graph in the order of the payload. -/
def graphLayerSpans (pf : Platform) (sh : Shape) (rawCap first rawLive nComp nIndexComp il : Nat) :
    List (Span GraphTensor) :=
  let ratio := sh.layerCompressRatio il
  rawSpans sh rawCap first rawLive il ++
  if ratio = 0 then []
  else attnCompSpan pf.attnCompF16 sh nComp il :: stateSpans sh ratio nIndexComp il

/-- The raw rows of the CPU are one span. -/
def cpuRawSpan (sh : Shape) (rawStart rawLive il : Nat) : Span GraphTensor :=
  ⟨.floats, .raw, il, rawStart * sh.nHeadDim * 4, rawLive * sh.nHeadDim * 4⟩

def cpuLayerSpans (sh : Shape) (ratio rawStart rawLive nComp nIndexComp il : Nat) :
    List (Span GraphTensor) :=
  cpuRawSpan sh rawStart rawLive il ::
  if ratio = 0 then [] else attnCompSpan false sh nComp il :: stateSpans sh ratio nIndexComp il

/-- The rows of a compact cache of GLM. -/
def glmCompactSpan (pf : Platform) (cache : GlmTensor) (il count : Nat) : Span GlmTensor :=
  if pf.glmCompactF16 then ⟨.halves, cache, il, 0, count⟩ else ⟨.floats, cache, il, 0, count * 4⟩

/-- The spans of a layer of the GLM graph: those of its recurrent state, or its rows. -/
def glmLayerSpans (pf : Platform) (sh : Shape) (fullLive compactLive nIndexComp il : Nat) :
    List (Span GlmTensor) :=
  if sh.layerIsKda il then
    [⟨.floats, .kdaConvState, il, 0, sh.kdaConvStateBytes⟩,
     ⟨.floats, .kdaRecurrentState, il, 0, sh.kdaRecurrentStateBytes⟩]
  else
    [⟨.fullKv, .key, il, 0, fullLive * sh.qDim⟩, ⟨.fullKv, .value, il, 0, fullLive * sh.headsDim⟩] ++
    if compactLive = 0 then []
    else
      [glmCompactSpan pf .kvLora il (compactLive * sh.nKvLora),
       glmCompactSpan pf .kRope il (compactLive * sh.nRot)] ++
      if sh.layerUsesFullIndexer il then
        [glmCompactSpan pf .indexerKey il (nIndexComp * sh.nIndexerHeadDim)] ++
        if sh.glm53 then
          [⟨.floats, .indexerTailK, il, 0, sh.indexerTailBytes⟩,
           ⟨.floats, .indexerTailGate, il, 0, sh.indexerTailBytes⟩]
        else []
      else []

end Ds4.Payload
