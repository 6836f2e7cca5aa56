import Ds4.Lib.LittleEndian

/-!
# Sessions and the shape of their payloads

A session keeps tokens, the logits behind the last one and the caches of its backend. A cache is a
number of arrays for each layer, tensors of the accelerator or arrays of the CPU, and what is known
about them. The payload starts with a header of words; a layer payload has the same header but for
the vocabulary and with a range of layers.
-/

namespace Ds4.Payload
open C

/-- What is used of the shape of a model. -/
structure Dims where
  nLayer : Nat
  nHead : Nat
  nHeadDim : Nat
  nIndexerHeadDim : Nat
  nVocab : Nat
  nSwa : Nat
  nNextnPredict : Nat
  nLeadingDense : Nat
  nKvLora : Nat
  nRot : Nat
  nKeyMla : Nat
  nValueMla : Nat
  nKdaHead : Nat
  nKdaHeadDim : Nat
  nKdaConv : Nat
  glm53 : Bool
  compressRatios : List Nat

/-- The shapes are those of a table of models, and the compression ratios of the model file are
compared with the ones expected. -/
structure Shape extends Dims where
  layers : nLayer ≤ 79
  widths : ∀ d ∈ [nHead * nKeyMla, nHead * nValueMla, nHeadDim, nIndexerHeadDim, nKvLora, nRot,
    nKdaHead * nKdaHeadDim, nKdaHeadDim, nKdaConv], d ≤ 2 ^ 16
  vocab : nVocab < 2 ^ 31
  ratios : ∀ r ∈ compressRatios, r = 0 ∨ r = 4 ∨ r = 128

/-- DeepSeek V4 Flash. -/
def flash : Shape where
  nLayer := 43
  nHead := 64
  nHeadDim := 512
  nIndexerHeadDim := 128
  nVocab := 129280
  nSwa := 128
  nNextnPredict := 0
  nLeadingDense := 0
  nKvLora := 0
  nRot := 64
  nKeyMla := 0
  nValueMla := 0
  nKdaHead := 0
  nKdaHeadDim := 0
  nKdaConv := 0
  glm53 := false
  compressRatios := (List.range 43).map fun il =>
    if il < 2 then 0 else if il % 2 = 0 then 4 else 128
  layers := by decide
  widths := by decide
  vocab := by decide
  ratios := by decide

namespace Shape
variable (sh : Shape)

/-- Also the number of layers of a GLM graph. -/
def normalLayerCount : Nat := sh.nLayer - sh.nNextnPredict

def qDim : Nat := sh.nHead * sh.nKeyMla

def headsDim : Nat := sh.nHead * sh.nValueMla

def layerCompressRatio (il : Nat) : Nat := sh.compressRatios.getD il 0

def layerIsKda (il : Nat) : Bool :=
  sh.glm53 && decide (il + sh.nNextnPredict < sh.nLayer) && il % 4 != 3

def layerUsesFullIndexer (il : Nat) : Bool :=
  if sh.glm53 then !sh.layerIsKda il
  else decide (il < sh.nLeadingDense) || (decide (6 ≤ il) && (il - 6) % 4 == 0)

def coff (ratio : Nat) : Nat := if ratio = 4 then 2 else 1

def layerAttnStateBytes (ratio : Nat) : Nat := coff ratio * sh.nHeadDim * coff ratio * ratio * 4

def layerIndexStateBytes (ratio : Nat) : Nat :=
  coff ratio * sh.nIndexerHeadDim * coff ratio * ratio * 4

def indexPoolSize : Nat := 4

def glmIndexLiveRows (layer compactLive : Nat) : Nat :=
  if compactLive = 0 || !sh.layerUsesFullIndexer layer then 0
  else if sh.glm53 then compactLive / indexPoolSize
  else compactLive

/-- One of the two halves of the tail of an indexer. -/
def indexerTailBytes : Nat := indexPoolSize * sh.nIndexerHeadDim * 4

def glm53IndexerTailBytes : Nat := 2 * indexPoolSize * sh.nIndexerHeadDim * 4

def kdaConvStateBytes : Nat := 3 * (sh.nKdaConv - 1) * (sh.nKdaHead * sh.nKdaHeadDim) * 4

def kdaRecurrentStateBytes : Nat := sh.nKdaHead * sh.nKdaHeadDim * sh.nKdaHeadDim * 4

def defaultRawCap (ctx : Nat) : Nat := max (min sh.nSwa ctx) 1

end Shape

/-- What the build decides: which caches keep halves, and how those are made and read. -/
structure Platform where
  attnCompF16 : Bool
  glmCompactF16 : Bool
  f32ToF16 : UInt32 → UInt16
  f16ToF32 : UInt16 → UInt32

namespace Platform
variable (pf : Platform)

/-- The halves of an array of `n` floats. -/
def narrowAll (n : Nat) (s : Bytes) : Bytes :=
  lePuts 2 ((leGets 4 n s).map fun w => (pf.f32ToF16 (.ofNat w)).toNat)

/-- The floats of an array of `n` halves. -/
def widenAll (n : Nat) (s : Bytes) : Bytes :=
  lePuts 4 ((leGets 2 n s).map fun h => (pf.f16ToF32 (.ofNat h)).toNat)

@[simp] theorem length_narrowAll (n : Nat) (s : Bytes) : (pf.narrowAll n s).length = 2 * n := by
  rw [narrowAll, length_lePuts, List.length_map, length_leGets]

@[simp] theorem length_widenAll (n : Nat) (s : Bytes) : (pf.widenAll n s).length = 4 * n := by
  rw [widenAll, length_lePuts, List.length_map, length_leGets]

end Platform

/-- The arrays of every layer and what is known about them. -/
structure Caches (ι K : Type) where
  array : ι → Nat → Option Bytes
  info : K

structure Session (ι K : Type) where
  ctxSize : Nat
  prefillCap : Nat
  /-- A token is kept as the word that it travels as. -/
  checkpoint : List UInt32
  checkpointValid : Bool
  logits : Bytes
  mtpDraftValid : Bool
  caches : Caches ι K

inductive GraphTensor
  | raw
  | attnComp
  | attnStateKv
  | attnStateScore
  | indexComp
  | indexStateKv
  | indexStateScore
  deriving DecidableEq, Repr

/-- What the DeepSeek graph knows about its tensors. -/
structure GraphInfo where
  rawCap : Nat
  rawWindow : Nat
  compCap : Nat
  layerCompCap : Nat → Nat
  layerNComp : Nat → Nat
  layerNIndexComp : Nat → Nat

abbrev GraphSession := Session GraphTensor GraphInfo

inductive GlmTensor
  | key
  | value
  | kvLora
  | kRope
  | indexerKey
  | indexerTailK
  | indexerTailGate
  | kdaConvState
  | kdaRecurrentState
  deriving DecidableEq, Repr

/-- What the GLM graph knows about its tensors. The two halves of an indexer tail lie in one
allocation; each is a tensor here. -/
structure GlmInfo where
  ready : Bool
  layerStart : Nat
  layerEnd : Nat
  ctxSize : Nat
  ctxCap : Nat
  compactCacheCap : Nat
  fullKvCache : Bool
  denseCacheLen : Nat

abbrev GlmSession := Session GlmTensor GlmInfo

/-- The arrays of the CPU are named as the tensors of the graph. -/
structure CpuLayer where
  nRaw : Nat
  capRaw : Nat
  compressRatio : Nat
  compCap : Nat
  nComp : Nat
  nIndexComp : Nat

abbrev CpuSession := Session GraphTensor (Nat → CpuLayer)

/-- The header of a payload, with the names that the distributed code gives to its words. -/
structure KvLayout where
  ctx : Nat
  prefillCap : Nat
  rawCap : Nat
  rawWindow : Nat
  compCap : Nat
  tokenCount : Nat
  nLayers : Nat
  headDim : Nat
  indexerHeadDim : Nat
  vocab : Nat
  rawLive : Nat
  deriving DecidableEq, Repr

def sessionPayloadMagic : Nat := 0x34565344
def sessionPayloadVersion : Nat := 2
def sessionPayloadFields : Nat := 13
def sessionLayerPayloadMagic : Nat := 0x4c565344
def sessionLayerPayloadVersion : Nat := 1
def sessionLayerPayloadFields : Nat := 14

namespace KvLayout

def sessionWords (l : KvLayout) : List Nat :=
  [sessionPayloadMagic, sessionPayloadVersion, l.ctx, l.prefillCap, l.rawCap, l.rawWindow,
    l.compCap, l.tokenCount, l.nLayers, l.headDim, l.indexerHeadDim, l.vocab, l.rawLive]

def ofSessionWords (h : List Nat) : KvLayout where
  ctx := h.getD 2 0
  prefillCap := h.getD 3 0
  rawCap := h.getD 4 0
  rawWindow := h.getD 5 0
  compCap := h.getD 6 0
  tokenCount := h.getD 7 0
  nLayers := h.getD 8 0
  headDim := h.getD 9 0
  indexerHeadDim := h.getD 10 0
  vocab := h.getD 11 0
  rawLive := h.getD 12 0

def layerWords (l : KvLayout) (layerStart layerEnd : Nat) : List Nat :=
  [sessionLayerPayloadMagic, sessionLayerPayloadVersion, l.ctx, l.prefillCap, l.rawCap, l.rawWindow,
    l.compCap, l.tokenCount, l.nLayers, l.headDim, l.indexerHeadDim, layerStart, layerEnd,
    l.rawLive]

/-- The vocabulary does not travel with a layer payload. -/
def ofLayerWords (vocab : Nat) (h : List Nat) : KvLayout where
  ctx := h.getD 2 0
  prefillCap := h.getD 3 0
  rawCap := h.getD 4 0
  rawWindow := h.getD 5 0
  compCap := h.getD 6 0
  tokenCount := h.getD 7 0
  nLayers := h.getD 8 0
  headDim := h.getD 9 0
  indexerHeadDim := h.getD 10 0
  vocab := vocab
  rawLive := h.getD 13 0

end KvLayout

end Ds4.Payload
