import Ds4.Payload.Read

/-!
# Loading a payload

The loaders of the backends go through the same stations: the header is compared with the session,
tokens and logits are read, then the row counts of the layers; the session is marked as not valid, the
spans of the layers are read, and the session becomes valid again. A layer payload has no tokens and no
logits. `Restore` is what a loader does at the stations.
-/

namespace Ds4.Payload
open C ErrorState

variable {ι K : Type}

structure Restore (ι K : Type) where
  check : Session ι K → KvLayout → Except String Unit
  /-- The layers, by the first one and their number. -/
  start : Nat
  count : Nat
  compOk : Session ι K → KvLayout → Nat → Nat → Bool
  compError : String
  indexOk : Session ι K → KvLayout → Nat → Nat → Bool
  indexError : String
  syncBefore : Option String
  reset : Session ι K → Session ι K
  restoreLayer : KvLayout → (Nat → Nat) → (Nat → Nat) → Nat → Load ι K Unit
  trailing : String
  syncAfter : Option String
  commit : KvLayout → (Nat → Nat) → (Nat → Nat) → Session ι K → Session ι K

def readWords : Nat → Load ι K (List Nat)
  | 0 => pure []
  | n + 1 => do
    let w ← payloadReadU32
    let ws ← readWords n
    return w :: ws

/-- The row counts of some layers; each is checked when it has been read. -/
def readRowCounts (ok : Nat → Nat → Bool) (e : String) : List Nat → Load ι K (List Nat)
  | [] => pure []
  | il :: ls => do
    let n ← payloadReadU32
    orThrow (ok il n) e
    let ns ← readRowCounts ok e ls
    return n :: ns

/-- The count of a layer when the first one is that of the layer `start`. -/
def rowsAt (start : Nat) (ns : List Nat) (il : Nat) : Nat := ns.getD (il - start) 0

def invalidate (s : Session ι K) : Session ι K :=
  { s with checkpointValid := false, mtpDraftValid := false }

def synchronize : Option String → Load ι K Unit
  | none => pure ()
  | some e => gpuSynchronize e

namespace Restore

def layers (r : Restore ι K) : List Nat := List.range' r.start r.count

/-- The counts of the compressed rows and of the indexer rows; `x` is the session as it was found. -/
def readCounts (r : Restore ι K) (x : Session ι K) (l : KvLayout) : Load ι K (List Nat × List Nat) := do
  let nComp ← readRowCounts (r.compOk x l) r.compError r.layers
  let nIndexComp ← readRowCounts (r.indexOk x l) r.indexError r.layers
  synchronize r.syncBefore
  return (nComp, nIndexComp)

/-- From the invalidation on. -/
def restoreRows (r : Restore ι K) (l : KvLayout) (tokens : List UInt32) (nComp nIndexComp : Nat → Nat) :
    Load ι K Unit := do
  modify fun s => s.mapSession fun x => r.reset (invalidate x)
  r.layers.forM (r.restoreLayer l nComp nIndexComp)
  let s ← get
  orThrow (s.remaining == 0) r.trailing
  synchronize r.syncAfter
  modify fun s => s.mapSession fun x =>
    r.commit l nComp nIndexComp
      { x with checkpoint := tokens, checkpointValid := true, mtpDraftValid := false }

def readRows (r : Restore ι K) (x : Session ι K) (l : KvLayout) (tokens : List UInt32) :
    Load ι K Unit := do
  let c ← r.readCounts x l
  r.restoreRows l tokens (rowsAt r.start c.1) (rowsAt r.start c.2)

end Restore

def storeLogits (got : Bytes) (s : Io ι K) : Io ι K :=
  s.mapSession fun x => { x with logits := overwrite x.logits 0 got }

/-- A payload of a whole session. -/
def loadPayload (sh : Shape) (r : Restore ι K) : Load ι K Unit := do
  let h ← readWords sessionPayloadFields
  orThrow (h.getD 0 0 == sessionPayloadMagic && h.getD 1 0 == sessionPayloadVersion)
    "unsupported session payload version"
  let l := KvLayout.ofSessionWords h
  let s ← get
  MonadExcept.ofExcept (r.check s.session l)
  let tokens ← readWords l.tokenCount
  let _ ← payloadReadInto (sh.nVocab * 4) storeLogits
  r.readRows s.session l (tokens.map .ofNat)

/-- A payload of some layers. The tokens come with the request. -/
def loadLayerPayload (sh : Shape) (r : Restore ι K) (precheck : Session ι K → Except String Unit)
    (checkRange : List Nat → Bool) (tokens : List UInt32) : Load ι K Unit := do
  let s ← get
  MonadExcept.ofExcept (precheck s.session)
  let h ← readWords sessionLayerPayloadFields
  orThrow (h.getD 0 0 == sessionLayerPayloadMagic && h.getD 1 0 == sessionLayerPayloadVersion)
    "unsupported session layer payload version"
  orThrow (checkRange h) "KV shard layer range does not match requested worker"
  let l := KvLayout.ofLayerWords sh.nVocab h
  let s ← get
  MonadExcept.ofExcept (r.check s.session l)
  r.readRows s.session l tokens

/-- A check of a header. -/
def orError (c : Bool) (e : String) : Except String Unit := if c then .ok () else .error e

theorem orError_bind_ok {c : Bool} {e : String} {g : Unit → Except String Unit} {u : Unit} :
    (orError c e >>= g) = .ok u ↔ c = true ∧ g () = .ok u := by
  cases c with
  | true => exact ⟨fun h => ⟨rfl, h⟩, fun h => h.2⟩
  | false => exact ⟨fun h => (nomatch h), fun h => (nomatch h.1)⟩

theorem orError_ok {c : Bool} {e : String} {u : Unit} : orError c e = .ok u ↔ c = true := by
  cases c with
  | true => exact ⟨fun _ => rfl, fun _ => rfl⟩
  | false => exact ⟨fun h => (nomatch h), fun h => (nomatch h)⟩

/-- The rows of the raw window that a number of tokens leaves. -/
def expectedRawLive (l : KvLayout) : Nat :=
  if l.tokenCount < l.rawWindow then l.tokenCount else l.rawWindow

/-- The checks of the raw ring and of the compressed caches; `what` is a checkpoint or a shard. -/
def checkRing (what : String) (rawWindow rawCap compCap : Nat) (l : KvLayout) : Except String Unit := do
  orError (l.rawWindow == rawWindow)
    (what ++ " graph chunk layout does not match current runtime")
  orError (l.rawCap != 0 && l.rawLive == expectedRawLive l && decide (l.rawLive ≤ l.rawCap) &&
      decide (l.rawLive ≤ rawCap))
    (what ++ " raw ring layout does not match current context")
  orError (decide (l.compCap ≤ compCap))
    (what ++ " compressed cache is larger than current context")

section Graph
variable (pf : Platform) (sh : Shape)

def restoreGraphLayer (l : KvLayout) (nComp nIndexComp : Nat → Nat) (il : Nat) :
    Load GraphTensor GraphInfo Unit := do
  let s ← get
  (graphLayerSpans pf sh s.session.caches.info.rawCap (l.tokenCount - l.rawLive) l.rawLive (nComp il)
    (nIndexComp il) il).forM (readSpan pf)

/-- What both loaders of the graph have in common; the texts name what is read and where. -/
def graphRestore (what place : String) (start count : Nat)
    (check : GraphSession → KvLayout → Except String Unit) : Restore GraphTensor GraphInfo where
  check := check
  start := start
  count := count
  compOk s l il n := decide (n ≤ l.compCap) && decide (n ≤ s.caches.info.layerCompCap il)
  compError := what ++ " has invalid compressed row count"
  indexOk s l il n := decide (n ≤ l.compCap) && decide (n ≤ s.caches.info.layerCompCap il)
  indexError := what ++ " has invalid indexer row count"
  syncBefore := some ("failed to synchronize accelerator before " ++ place)
  reset s := s
  restoreLayer := restoreGraphLayer pf sh
  trailing := what ++ " has trailing payload bytes"
  syncAfter := some ("failed to synchronize accelerator after " ++ place)
  commit _ nComp nIndexComp s :=
    s.mapCaches fun c =>
      { c with info :=
        { c.info with
          layerNComp := fun il =>
            if start ≤ il ∧ il < start + count then nComp il else c.info.layerNComp il
          layerNIndexComp := fun il =>
            if start ≤ il ∧ il < start + count then nIndexComp il else c.info.layerNIndexComp il } }

def checkGraph (s : GraphSession) (l : KvLayout) : Except String Unit := do
  orError (decide (l.ctx ≤ s.ctxSize) && decide (l.tokenCount < s.ctxSize))
    "KV checkpoint does not fit current context"
  orError (l.nLayers == sh.nLayer && l.headDim == sh.nHeadDim &&
      l.indexerHeadDim == sh.nIndexerHeadDim && l.vocab == sh.nVocab)
    "KV checkpoint was written for a different DS4 layout"
  checkRing "KV checkpoint" s.caches.info.rawWindow s.caches.info.rawCap s.caches.info.compCap l

def sessionGraphRestore : Restore GraphTensor GraphInfo :=
  graphRestore pf sh "KV checkpoint" "KV restore" 0 sh.nLayer (checkGraph sh)

/-- `ds4_session_load_payload` of the graph. -/
def ds4SessionLoadPayloadGraph : Load GraphTensor GraphInfo Unit :=
  loadPayload sh (sessionGraphRestore pf sh)

def checkGraphShard (nTokens : Nat) (s : GraphSession) (l : KvLayout) : Except String Unit := do
  orError (decide (l.ctx ≤ s.ctxSize) && l.tokenCount == nTokens && decide (l.tokenCount < s.ctxSize))
    "KV shard does not fit current context"
  orError (l.nLayers == sh.nLayer && l.headDim == sh.nHeadDim &&
      l.indexerHeadDim == sh.nIndexerHeadDim)
    "KV shard was written for a different DS4 layout"
  checkRing "KV shard" s.caches.info.rawWindow s.caches.info.rawCap s.caches.info.compCap l

def ds4LayerPayloadRangeValid (layerStart layerEnd : Nat) : Bool :=
  sh.normalLayerCount != 0 && decide (layerStart ≤ layerEnd) &&
    decide (layerEnd < sh.normalLayerCount)

/-- The layers that the header of a layer payload names. -/
def rangeIs (layerStart layerEnd : Nat) (h : List Nat) : Bool :=
  h.getD 11 0 == layerStart && h.getD 12 0 == layerEnd

/-- `ds4_session_load_layer_payload` of the graph. -/
def ds4SessionLoadLayerPayloadGraph (tokens : List UInt32) (layerStart layerEnd : Nat) :
    Load GraphTensor GraphInfo Unit :=
  loadLayerPayload sh
    (graphRestore pf sh "KV shard" "KV shard restore" layerStart (layerEnd - layerStart + 1)
      (checkGraphShard sh tokens.length))
    (fun _ => orError (ds4LayerPayloadRangeValid sh layerStart layerEnd)
      "invalid session layer payload load")
    (rangeIs layerStart layerEnd) tokens

end Graph

section Glm
variable (pf : Platform) (sh : Shape)

/-- The compact rows that a payload must have. -/
def expectedCompactLive (l : KvLayout) : Nat :=
  if l.compCap ≠ 0 then if l.tokenCount < l.compCap then l.tokenCount else l.compCap else 0

def glmGraphEnsureCompactCache (g : GlmInfo) (neededRows : Nat) : Bool :=
  neededRows != 0 && ((decide (neededRows ≤ g.ctxCap) && g.compactCacheCap == 0) ||
    decide (neededRows ≤ g.compactCacheCap))

/-- The checks of the caches of GLM. -/
def checkGlmCaches (what : String) (g : GlmInfo) (l : KvLayout) : Except String Unit := do
  orError (l.rawCap != 0 && decide (l.rawCap ≤ g.ctxCap) && l.rawWindow == l.rawCap)
    (what ++ " GLM full-cache layout does not match current runtime")
  orError (decide (l.rawLive ≤ if l.tokenCount < l.rawCap then l.tokenCount else l.rawCap) &&
      decide (l.rawLive ≤ g.ctxCap))
    (what ++ " GLM full-cache row count is invalid")
  orError (decide (l.compCap ≤ g.ctxSize))
    (what ++ " GLM compact cache is larger than current context")
  orError (!(g.compactCacheCap != 0 && l.tokenCount != 0 && l.compCap == 0))
    (what ++ " lacks the GLM compact cache required by this context")
  orError (expectedCompactLive l == 0 || glmGraphEnsureCompactCache g (expectedCompactLive l))
    (what ++ " GLM compact cache could not be allocated")
  orError (decide (expectedCompactLive l ≤ g.compactCacheCap))
    (what ++ " GLM compact row count is invalid")

def restoreGlmLayer (l : KvLayout) (_nComp nIndexComp : Nat → Nat) (il : Nat) :
    Load GlmTensor GlmInfo Unit :=
  (glmLayerSpans pf sh l.rawLive (expectedCompactLive l) (nIndexComp il) il).forM (readSpan pf)

def setDenseCacheLen (n : Nat) (s : GlmSession) : GlmSession :=
  s.mapCaches fun c => { c with info := { c.info with denseCacheLen := n } }

/-- What both loaders of the GLM graph have in common. -/
def glmRestore (what place : String) (start count : Nat)
    (check : GlmSession → KvLayout → Except String Unit) : Restore GlmTensor GlmInfo where
  check := check
  start := start
  count := count
  compOk _ l _ n := n == expectedCompactLive l
  compError := what ++ " GLM compact row count does not match token count"
  indexOk _ l il n := n == sh.glmIndexLiveRows il (expectedCompactLive l)
  indexError := what ++ " GLM indexer row count does not match token count"
  syncBefore := some ("failed to synchronize accelerator before " ++ place)
  reset := setDenseCacheLen 0
  restoreLayer := restoreGlmLayer pf sh
  trailing := what ++ " has trailing payload bytes"
  syncAfter := some ("failed to synchronize accelerator after " ++ place)
  commit l _ _ s := setDenseCacheLen (if s.caches.info.fullKvCache then l.rawLive else 0) s

def checkGlm (s : GlmSession) (l : KvLayout) : Except String Unit := do
  orError s.caches.info.ready "GLM graph is not ready for KV restore"
  orError (decide (l.ctx ≤ s.ctxSize) && decide (l.tokenCount < s.ctxSize))
    "KV checkpoint does not fit current context"
  orError (l.nLayers == sh.normalLayerCount && l.headDim == sh.nKeyMla &&
      l.indexerHeadDim == sh.nValueMla && l.vocab == sh.nVocab)
    "KV checkpoint was written for a different GLM layout"
  checkGlmCaches "KV checkpoint" s.caches.info l

def sessionGlmRestore : Restore GlmTensor GlmInfo :=
  glmRestore pf sh "KV checkpoint" "GLM KV restore" 0 sh.normalLayerCount (checkGlm sh)

/-- `ds4_session_load_payload` of the GLM graph. -/
def ds4SessionLoadPayloadGlm : Load GlmTensor GlmInfo Unit :=
  loadPayload sh (sessionGlmRestore pf sh)

def checkGlmShard (tokens : List UInt32) (s : GlmSession) (l : KvLayout) : Except String Unit := do
  orError (decide (l.ctx ≤ s.ctxSize) && l.tokenCount == tokens.length &&
      decide (l.tokenCount < s.ctxSize))
    "KV shard does not fit current context"
  orError (tokens.all fun t => decide (t.toNat < sh.nVocab)) "KV shard token is outside vocabulary"
  orError (l.nLayers == sh.normalLayerCount && l.headDim == sh.nKeyMla &&
      l.indexerHeadDim == sh.nValueMla)
    "KV shard was written for a different GLM layout"
  checkGlmCaches "KV shard" s.caches.info l

/-- `ds4_session_load_layer_payload` of the GLM graph. -/
def ds4SessionLoadLayerPayloadGlm (tokens : List UInt32) (layerStart layerEnd : Nat) :
    Load GlmTensor GlmInfo Unit :=
  loadLayerPayload sh
    (glmRestore pf sh "KV shard" "GLM KV shard restore" layerStart (layerEnd - layerStart + 1)
      (checkGlmShard sh tokens))
    (fun s => do
      orError (ds4LayerPayloadRangeValid sh layerStart layerEnd) "invalid session layer payload load"
      orError s.caches.info.ready "GLM graph is not ready for KV shard restore"
      orError (layerStart == s.caches.info.layerStart && layerEnd == s.caches.info.layerEnd)
        "requested GLM KV shard does not match loaded slice")
    (rangeIs layerStart layerEnd) tokens

end Glm

section Cpu
variable (sh : Shape)

def zeros (n : Nat) : Bytes := List.replicate n 0

/-- Floats that are `DS4_NEG_INF`. -/
def negInfs (bytes : Nat) : Bytes := (List.replicate (bytes / 4) [0xca, 0xf2, 0x49, 0xf1]).flatten

/-- The arrays that `kv_cache_init` allocates for a layer. -/
def kvCacheArray (ctx ratio : Nat) : GraphTensor → Option Bytes
  | .raw => some (zeros (sh.defaultRawCap ctx * sh.nHeadDim * 4))
  | .attnComp => if ratio ≠ 0 then some (zeros ((ctx / ratio + 2) * sh.nHeadDim * 4)) else none
  | .attnStateKv => if ratio ≠ 0 then some (zeros (sh.layerAttnStateBytes ratio)) else none
  | .attnStateScore => if ratio ≠ 0 then some (negInfs (sh.layerAttnStateBytes ratio)) else none
  | .indexComp => if ratio = 4 then some (zeros ((ctx / ratio + 2) * sh.nIndexerHeadDim * 4)) else none
  | .indexStateKv => if ratio = 4 then some (zeros (sh.layerIndexStateBytes ratio)) else none
  | .indexStateScore => if ratio = 4 then some (negInfs (sh.layerIndexStateBytes ratio)) else none

def kvCacheLayer (ctx ratio : Nat) : CpuLayer where
  nRaw := 0
  capRaw := sh.defaultRawCap ctx
  compressRatio := ratio
  compCap := if ratio ≠ 0 then ctx / ratio + 2 else 0
  nComp := 0
  nIndexComp := 0

/-- `kv_cache_init` with the default capacity of the raw window. -/
def kvCacheInit (ctx : Nat) : Caches GraphTensor (Nat → CpuLayer) where
  array key il := if il < sh.nLayer then kvCacheArray sh ctx (sh.layerCompressRatio il) key else none
  info il := if il < sh.nLayer then kvCacheLayer sh ctx (sh.layerCompressRatio il) else
    ⟨0, 0, 0, 0, 0, 0⟩

/-- The capacity of the first layer with the ratio 4, or of the first that compresses at all. -/
def sessionCpuCompCap (s : CpuSession) : Nat :=
  let layers := List.range sh.nLayer
  match layers.find? fun il => (s.caches.info il).compressRatio == 4 with
  | some il => (s.caches.info il).compCap
  | none =>
    match layers.find? fun il => (s.caches.info il).compressRatio != 0 with
    | some il => (s.caches.info il).compCap
    | none => s.ctxSize

def updateLayer (il : Nat) (f : CpuLayer → CpuLayer) (s : Io GraphTensor (Nat → CpuLayer)) :
    Io GraphTensor (Nat → CpuLayer) :=
  s.mapSession fun x => x.mapCaches fun c =>
    { c with info := fun i => if i = il then f (c.info i) else c.info i }

def restoreCpuLayer (l : KvLayout) (nComp nIndexComp : Nat → Nat) (il : Nat) :
    Load GraphTensor (Nat → CpuLayer) Unit := do
  let s ← get
  let ratio := (s.session.caches.info il).compressRatio
  readCpuSpan (cpuRawSpan sh 0 l.rawLive il)
  modify (updateLayer il fun x => { x with nRaw := l.rawLive })
  if ratio = 0 then pure ()
  else do
    modify (updateLayer il fun x => { x with nComp := nComp il, nIndexComp := nIndexComp il })
    readCpuSpan (attnCompSpan false sh (nComp il) il)
    (stateSpans sh ratio (nIndexComp il) il).forM readCpuSpan

def checkCpu (s : CpuSession) (l : KvLayout) : Except String Unit := do
  orError (decide (l.ctx ≤ s.ctxSize) && decide (l.tokenCount < s.ctxSize))
    "KV checkpoint does not fit current context"
  orError (l.nLayers == sh.nLayer && l.headDim == sh.nHeadDim &&
      l.indexerHeadDim == sh.nIndexerHeadDim && l.vocab == sh.nVocab)
    "KV checkpoint was written for a different DS4 layout"
  let rawCap := sh.defaultRawCap s.ctxSize
  checkRing "KV checkpoint" rawCap rawCap (sessionCpuCompCap sh s) l

def cpuRestore : Restore GraphTensor (Nat → CpuLayer) where
  check := checkCpu sh
  start := 0
  count := sh.nLayer
  -- one capacity for all layers, other than that of the graph
  compOk s l _ n := decide (n ≤ l.compCap) && decide (n ≤ sessionCpuCompCap sh s)
  compError := "KV checkpoint has invalid compressed row count"
  indexOk s l _ n := decide (n ≤ l.compCap) && decide (n ≤ sessionCpuCompCap sh s)
  indexError := "KV checkpoint has invalid indexer row count"
  syncBefore := none
  reset s := { s with caches := kvCacheInit sh s.ctxSize }
  restoreLayer := restoreCpuLayer sh
  trailing := "KV checkpoint has trailing payload bytes"
  syncAfter := none
  commit _ _ _ s := s

/-- `ds4_session_load_payload` of the CPU. -/
def ds4SessionLoadPayloadCpu : Load GraphTensor (Nat → CpuLayer) Unit :=
  loadPayload sh (cpuRestore sh)

end Cpu

end Ds4.Payload
