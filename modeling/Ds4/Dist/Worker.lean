import Ds4.Dist.Route
import Ds4.Dist.Work

/-!
# The sessions of a worker and its frame handlers

A worker keeps a session for each session id of the coordinator. Next to the fields of the source a
session says which tokens its KV shard stands for, if it stands for any: an evaluation or a restore
that breaks off leaves a shard that stands for nothing.

A handler takes the bytes of its frame off the connection and answers. What memory, files, the
backend and the sockets do while it runs is an argument of it.
-/

namespace Ds4.Dist
open C Wire

/-! ## Sessions -/

inductive Backend
  | cpu
  | deepseek
  | glm (recurrent : Bool)
  deriving DecidableEq, Repr

/-- What the layer-slice calls use of a `ds4_session`. -/
structure Slice where
  checkpoint : List UInt32
  checkpointValid : Bool
  /-- The tokens that the shard stands for. -/
  kv : Option (List UInt32)
  deriving DecidableEq, Repr

/-- A session as `ds4_session_create` makes it. -/
def Slice.fresh : Slice := ⟨[], false, some []⟩

structure WorkerSession where
  sessionId : UInt64
  tokenHash : UInt64
  tokenHashValid : Bool
  session : Slice
  deriving DecidableEq, Repr

structure WorkerState where
  modelId : UInt32
  layerStart : UInt32
  layerEnd : UInt32
  hasOutput : Bool
  ctxSize : UInt32
  nLayers : UInt32
  vocab : UInt32
  hiddenValues : Nat
  backend : Backend
  sessions : List WorkerSession

/-- How an evaluation or a restore of a shard ends: it fails before it touches the session, or
behind that, or it succeeds. -/
inductive Outcome
  | early (err : Bytes)
  | late (err : Bytes)
  | done (output : Bytes)
  deriving DecidableEq, Repr

/-- `ds4_session_layer_slice_reset`. The GLM graph keeps the recurrent state of its KDA layers. -/
def sliceReset (backend : Backend) (graphReset : Bool) (s : Slice) : Bool × Slice :=
  match backend with
  | .cpu => (true, ⟨[], false, some []⟩)
  | .glm recurrent =>
    (true, ⟨[], false, if recurrent && s.kv ≠ some [] then none else some []⟩)
  | .deepseek => (graphReset, ⟨[], false, if graphReset then some [] else none⟩)

/-- `ds4_session_slice_check_timeline`, as the text of the refusal. -/
def sliceCheckTimeline (ctxSize : UInt32) (s : Slice) (tokens : List UInt32) (pos0 : UInt32) :
    Option Bytes :=
  if tokens = [] then some (lit "invalid layer-slice token span")
  else if pos0.toNat > intMax ∨ tokens.length > intMax ∨ pos0 > ctxSize ∨
      tokens.length > (ctxSize - pos0).toNat then
    some (lit "layer-slice token span exceeds context")
  else if !s.checkpointValid then
    if pos0 ≠ 0 then some (lit "layer-slice session needs reset before pos " ++ dec pos0) else none
  else if s.checkpoint.length ≠ pos0.toNat then
    some (lit "layer-slice KV position mismatch: have " ++
      dec (UInt32.ofNat s.checkpoint.length) ++ lit " want " ++ dec pos0)
  else none

/-- `ds4_session_eval_layer_slice`, where the session stands and what it holds after it. -/
def sliceEval (backend : Backend) (ctxSize : UInt32) (outcome : Outcome) (s : Slice)
    (tokens : List UInt32) (pos0 : UInt32) : Except Bytes Bytes × Slice :=
  match sliceCheckTimeline ctxSize s tokens pos0 with
  | some err => (.error err, s)
  | none =>
    if backend = .cpu then
      (.error (lit "layer slices require the graph backend"), { s with checkpointValid := false })
    else
      match outcome with
      | .early err => (.error err, s)
      | .late err => (.error err, { s with checkpointValid := false, kv := none })
      | .done output =>
        (.ok output, {
          checkpoint := s.checkpoint ++ tokens
          checkpointValid := true
          kv := s.kv.bind fun ts => if ts.length = pos0.toNat then some (ts ++ tokens) else none })

/-- `ds4_session_load_layer_payload`. The payload is taken to be the shard of the tokens that come
with it. -/
def sliceLoad (outcome : Outcome) (s : Slice) (tokens : List UInt32) : Except Bytes Unit × Slice :=
  match outcome with
  | .early err => (.error err, s)
  | .late err => (.error err, { s with checkpointValid := false, kv := none })
  | .done _ => (.ok (), ⟨tokens, true, some tokens⟩)

/-- What happens around a handler while it deals with one frame: which allocations succeed, what
files and the backend do, and whether the socket takes the answer. -/
structure Env where
  payloadAlloc : Bool
  tokensAlloc : Bool
  routeAlloc : Bool
  resultAlloc : Bool
  decodeAlloc : Bool
  sessionAlloc : Bool
  sessionCreate : Bool
  graphReset : Bool
  eval : Outcome
  evalUsec : UInt32
  tempFile : Bool
  bufAlloc : Bool
  fwrite : Nat → Bool
  fflush : Bool
  ftell : Bool
  fseek : Bool
  save : Except Bytes Bytes
  load : Outcome
  sent : Bool
  enqueued : Bool

/-- What a send returns that is not refused. -/
def Env.sendRc (env : Env) : Int := if env.sent then 1 else -1

namespace WorkerState

def find (state : WorkerState) (id : UInt64) : Option WorkerSession :=
  state.sessions.find? (·.sessionId = id)

/-- The session of an id is changed where it stands in the list. -/
def put (state : WorkerState) (s : WorkerSession) : WorkerState :=
  { state with
    sessions := state.sessions.map fun t => if t.sessionId = s.sessionId then s else t }

/-- `dist_worker_get_session_locked`. -/
def getSession (state : WorkerState) (env : Env) (id : UInt64) :
    Except Bytes WorkerSession × WorkerState :=
  match state.find id with
  | some s => (.ok s, state)
  | none =>
    if !env.sessionAlloc then
      (.error (lit "out of memory creating distributed session"), state)
    else if !env.sessionCreate then
      (.error (lit "failed to create distributed worker session"), state)
    else
      let s : WorkerSession := ⟨id, 0, false, .fresh⟩
      (.ok s, { state with sessions := s :: state.sessions })

end WorkerState

/-! ## Work -/

namespace WorkFixed

def sessionId (w : WorkFixed) : UInt64 := distU64FromHalves w.sessionHi w.sessionLo
def requestId (w : WorkFixed) : UInt64 := distU64FromHalves w.requestHi w.requestLo
def prefixHash (w : WorkFixed) : UInt64 := distU64FromHalves w.prefixHashHi w.prefixHashLo
def resultHash (w : WorkFixed) : UInt64 := distU64FromHalves w.resultHashHi w.resultHashLo
def outputLogits (w : WorkFixed) : Bool := hasFlag w.flags workFOutputLogits
def inputHcPresent (w : WorkFixed) : Bool := hasFlag w.flags workFInputHc
def resetSession (w : WorkFixed) : Bool := hasFlag w.flags workFResetSession
def ackOnly (w : WorkFixed) : Bool := hasFlag w.flags workFAckOnly
def hasNext (w : WorkFixed) : Bool := w.routeIndex + 1 < w.routeCount

end WorkFixed

/-- A token that the model does not have. -/
def badToken (vocab token : UInt32) : Bool := token.toNat > intMax || token ≥ vocab

/-- The checks of `dist_worker_process_work_payload` in front of the route, in their order. -/
def checkWork (state : WorkerState) (env : Env) (f : WorkFrame) : Except Bytes Unit :=
  let w := f.work
  let expectedHcBytes := w.nTokens.toNat * state.hiddenValues * 4
  let expectedWireBytes :=
    distActivationWireBytes w.inputHcBits (w.nTokens.toNat * state.hiddenValues)
  refuse [
    (w.routeCount = 0, lit "WORK frame is missing distributed route"),
    (w.routeIndex ≥ w.routeCount, lit "invalid distributed WORK route metadata"),
    (w.modelId ≠ state.modelId,
      lit "model id mismatch: work=" ++ dec w.modelId ++ lit " worker=" ++ dec state.modelId),
    (w.layerStart ≠ state.layerStart || w.layerEnd ≠ state.layerEnd,
      lit "worker is assigned layers " ++ dec state.layerStart ++ lit ":" ++ dec state.layerEnd ++
        lit " but request asked for " ++ dec w.layerStart ++ lit ":" ++ dec w.layerEnd),
    (w.flags &&& ~~~workFValidMask ≠ 0, lit "invalid distributed WORK flags"),
    (w.nTokens = 0, lit "WORK frame has no tokens"),
    (w.pos0 > state.ctxSize || w.nTokens > state.ctxSize - w.pos0,
      lit "WORK token span exceeds worker context"),
    (w.inputHcPresent && w.layerStart = 0, lit "layer 0 WORK must not provide input hidden-state"),
    (!w.inputHcPresent && w.layerStart ≠ 0,
      lit "nonzero layer WORK requires input hidden-state"),
    (w.outputLogits && !state.hasOutput, lit "worker was not assigned the output head"),
    (w.outputLogits && w.layerEnd + 1 ≠ state.nLayers,
      lit "WORK logits require final transformer layer"),
    (!env.tokensAlloc, lit "out of memory reading WORK tokens"),
    (f.tokens.any (badToken state.vocab), lit "WORK token id is outside the model vocabulary"),
    (distTokenHashUpdateSpan w.prefixHash f.tokens ≠ w.resultHash,
      lit "WORK token prefix hash metadata mismatch"),
    (expectedHcBytes > uint32Max, lit "distributed hidden-state payload is too large"),
    (w.inputHcPresent && expectedWireBytes.isNone, lit "invalid distributed activation width"),
    (w.inputHcPresent && some w.inputHcBytes.toNat ≠ expectedWireBytes,
      lit "input hidden-state size does not match token span"),
    (!w.inputHcPresent && w.inputHcBytes ≠ 0,
      lit "WORK frame has hidden bytes without input flag"),
    (w.routeBytes ≠ 0 && !env.routeAlloc, lit "out of memory reading distributed route")]

/-- The checks of the route. They give the hop that comes next, if there is one. -/
def checkWorkRoute (state : WorkerState) (f : WorkFrame) : Except Bytes (Option RouteEntry) :=
  let w := f.work
  let blob := if w.routeBytes ≠ 0 then some f.route else none
  let count := w.routeCount.toNat
  let index := w.routeIndex.toNat
  match distRouteValidateBlob blob count state.nLayers with
  | .error err => .error err
  | .ok () =>
    match distRouteGetEntry blob count index with
    | .error err => .error err
    | .ok current =>
      if current.layerStart ≠ w.layerStart ∨ current.layerEnd ≠ w.layerEnd then
        .error (lit "WORK layer range does not match route entry")
      else if hasFlag current.flags routeFOutputLogits ≠ w.outputLogits then
        .error (lit "WORK logits flag does not match route entry")
      else if w.hasNext then
        match distRouteGetEntry blob count (index + 1) with
        | .error err => .error err
        | .ok next =>
          if w.outputLogits then .error (lit "non-final route entry requested logits")
          else .ok (some next)
      else
        match distRouteGetReturnTarget blob count with
        | .error err => .error err
        | .ok ret =>
          if ret.kind ≠ routeReturnUpstream then
            .error (lit "unsupported final result destination")
          else .ok none

/-- What a worker does with work that it has evaluated: it answers upstream, or hands the work to
the next worker. -/
inductive WorkDone
  | result (kind bits : UInt32) (telemetry : TelemetryFixed) (payload : Bytes)
  | forward (next : RouteEntry) (telemetry : TelemetryFixed) (hidden : Bytes)
  deriving Repr

/-- The session stage under the lock: the reset, the comparison of the prefix and the evaluation. -/
def evalOnSession (state : WorkerState) (env : Env) (f : WorkFrame) (s : WorkerSession) :
    Except Bytes Bytes × WorkerSession :=
  let w := f.work
  match (if w.resetSession then
      match sliceReset state.backend env.graphReset s.session with
      | (true, session) => (true, { s with session, tokenHash := tokenHashInit, tokenHashValid := true })
      | (false, session) => (false, { s with session })
    else if !s.tokenHashValid then
      (true, { s with tokenHash := distTokenHashPrefix s.session.checkpoint, tokenHashValid := true })
    else (true, s)) with
  | (false, s) => (.error (lit "layer-slice state reset failed"), s)
  | (true, s) =>
    if s.tokenHash ≠ w.prefixHash then (.error (lit "worker KV prefix hash mismatch"), s)
    else
      match sliceEval state.backend state.ctxSize env.eval s.session f.tokens w.pos0 with
      | (.error err, session) => (.error err, { s with session, tokenHashValid := false })
      | (.ok output, session) =>
        (.ok output, { s with session, tokenHash := w.resultHash, tokenHashValid := true })

/-- What is sent of the output of an evaluation. -/
def workDone (state : WorkerState) (env : Env) (f : WorkFrame) (next : Option RouteEntry)
    (output : Bytes) : Except Bytes WorkDone :=
  let w := f.work
  let bits := distActivationBitsOrDefault w.inputHcBits
  let finalAckOnly := w.ackOnly && !w.hasNext
  let localOutputLogits := w.outputLogits && !w.hasNext && !finalAckOnly
  let resultKind :=
    if finalAckOnly then resultAck else if localOutputLogits then resultLogits else resultHiddenState
  let resultBytes :=
    if finalAckOnly then 0 else if localOutputLogits then state.vocab.toNat * 4
    else w.nTokens.toNat * state.hiddenValues * 4
  match (if resultKind = resultHiddenState then
    distActivationWireBytesFromF32Bytes bits resultBytes else some resultBytes) with
  | none => .error (lit "invalid output hidden-state size")
  | some wireBytes =>
    let telemetry : TelemetryFixed := {
      layerStart := w.layerStart
      layerEnd := w.layerEnd
      routeIndex := w.routeIndex
      pos0 := w.pos0
      nTokens := w.nTokens
      evalUsec := env.evalUsec
      downstreamWaitUsec := 0
      forwardSendUsec := 0
      inputBytes := w.tokenBytes + w.inputHcBytes
      outputBytes := UInt32.ofNat wireBytes }
    match next with
    | some next => .ok (.forward next telemetry output)
    | none =>
      .ok (.result resultKind (if resultKind = resultHiddenState then bits else 32) telemetry output)

/-- `dist_worker_process_work_payload`, as far as the answer; an error comes with the request id that
it is sent under. -/
def processWorkPayload (nr : Narrow) (state : WorkerState) (env : Env) (payload : Bytes) :
    Except (UInt64 × Bytes) (WorkFrame × WorkDone) × WorkerState :=
  match readWork payload with
  | .error err =>
    let requestId := if payload.length < sizeof WorkFixed then 0
      else WorkFixed.requestId (fromWire (payload.take (sizeof WorkFixed)))
    (.error (requestId, err), state)
  | .ok f =>
    let fail (err : Bytes) (state : WorkerState) :
        Except (UInt64 × Bytes) (WorkFrame × WorkDone) × WorkerState :=
      (.error (f.work.requestId, err), state)
    match checkWork state env f with
    | .error err => fail err state
    | .ok () =>
      match checkWorkRoute state f with
      | .error err => fail err state
      | .ok next =>
        if !env.resultAlloc then fail (lit "out of memory allocating distributed result") state
        else
          match (if f.work.inputHcPresent then
            (if !env.decodeAlloc then
              Except.error (lit "out of memory decoding distributed activations")
            else distDecodeActivationPayload nr f.inputHc f.work.inputHcBits) else .ok []) with
          | .error err => fail err state
          | .ok _ =>
            match state.getSession env f.work.sessionId with
            | (.error err, state) => fail err state
            | (.ok s, state) =>
              match evalOnSession state env f s with
              | (.error err, s) => fail err (state.put s)
              | (.ok output, s) =>
                match workDone state env f next output with
                | .error err => fail err (state.put s)
                | .ok done => (.ok (f, done), state.put s)

end Ds4.Dist
