import Ds4.Dist.Worker

/-!
# The read loops of a worker

Each turn of a read loop takes a frame header off the connection and leaves the rest of the frame to
a handler. A restore takes the chunk frames of its payload with it.
-/

namespace Ds4.Dist
open C Wire

/-- What a handler returns: its return code, the connection behind what it read, and the worker. -/
structure Handled where
  rc : Int
  conn : Conn
  state : WorkerState

/-- The return code of an answer that its writer may refuse. -/
def Env.answerRc (env : Env) (bytes : Option Bytes) : Int :=
  if bytes.isNone then -1 else env.sendRc

/-- The answer to work that was processed. Forwarded work is answered by the relay; a failed forward
is answered here. -/
def workRc (nr : Narrow) (env : Env) :
    Except (UInt64 × Bytes) (WorkFrame × WorkDone) → Int
  | .error (requestId, err) => env.answerRc (distSendWorkError nr requestId (some err))
  | .ok (f, .result kind bits telemetry payload) =>
    env.answerRc (distSendWorkResult nr f.work.requestId f.work.resultHash 0 kind bits [telemetry]
      payload)
  | .ok (_, .forward _ _ _) => env.sendRc

def distWorkerHandleWork (nr : Narrow) (state : WorkerState) (env : Env) (c : Conn) (bytes : Nat) :
    Handled :=
  if !env.payloadAlloc then
    let err := lit "out of memory reading distributed WORK frame"
    ⟨env.answerRc (distSendWorkError nr 0 (some err)), (distDiscardBytes c bytes).2, state⟩
  else
    match distReadFull c bytes with
    | .error rc => ⟨if rc = 0 then 0 else -1, c.drop bytes, state⟩
    | .ok (payload, c) =>
      let (answer, state) := processWorkPayload nr state env payload
      ⟨workRc nr env answer, c, state⟩

/-- What the worker finds for a snapshot request: the shard, or the text of the refusal. -/
def snapshotShard (state : WorkerState) (env : Env) (req : SnapshotReqFixed) : Except Bytes Bytes :=
  let sessionId := distU64FromHalves req.sessionHi req.sessionLo
  if req.modelId ≠ state.modelId ∨ req.layerStart ≠ state.layerStart ∨
      req.layerEnd ≠ state.layerEnd ∨ req.tokenCount > state.ctxSize then
    .error (lit "snapshot save request does not match worker state")
  else
    match state.find sessionId with
    | none => .error (lit "worker has no distributed session to snapshot")
    | some s =>
      if s.session.checkpoint.length ≠ req.tokenCount.toNat then
        .error (lit "worker snapshot token count mismatch")
      else if distTokenHashPrefix s.session.checkpoint ≠
          distU64FromHalves req.tokenHashHi req.tokenHashLo then
        .error (lit "worker snapshot token hash mismatch")
      else if !env.tempFile then .error (lit "failed to create worker snapshot temp file")
      else
        match env.save with
        | .error err => .error (if err = [] then lit "failed to save worker KV shard" else err)
        | .ok shard =>
          if !env.fflush then .error (lit "failed to flush worker KV shard")
          else if !env.ftell then .error (lit "failed to measure worker KV shard")
          else if !env.fseek then .error (lit "failed to rewind worker KV shard")
          else .ok shard

/-- The request is answered with an error or with the shard; only the sockets and the chunk buffer
decide about the return code. -/
def distWorkerHandleSnapshotSave (state : WorkerState) (env : Env) (c : Conn) (bytes : Nat) :
    Handled :=
  if bytes ≠ sizeof SnapshotReqFixed then ⟨env.sendRc, (distDiscardBytes c bytes).2, state⟩
  else
    match distReadFull c (sizeof SnapshotReqFixed) with
    | .error rc => ⟨if rc = 0 then 0 else -1, c.drop (sizeof SnapshotReqFixed), state⟩
    | .ok (s, c) =>
      match snapshotShard state env (fromWire s) with
      | .error _ => ⟨env.sendRc, c, state⟩
      | .ok _ => ⟨if !env.bufAlloc then -1 else env.sendRc, c, state⟩

/-- The loop over the tokens of a restore. It stops at a token that the model does not have. -/
def readSnapshotTokens (vocab : UInt32) :
    Nat → Conn → Except Int (Except Bytes (List UInt32) × Conn)
  | 0, c => .ok (.ok [], c)
  | count + 1, c =>
    match distReadFull c 4 with
    | .error rc => .error (if rc = 0 then 0 else -1)
    | .ok (s, c) =>
      let token := getU32 s
      if badToken vocab token then
        .ok (.error (lit "snapshot token id is outside the model vocabulary"), c)
      else
        match readSnapshotTokens vocab count c with
        | .error rc => .error rc
        | .ok (.error err, c) => .ok (.error err, c)
        | .ok (.ok tokens, c) => .ok (.ok (token :: tokens), c)

/-- The loop over the chunks of a restore: the error that ended it, how many bytes were stored, and
the connection. -/
def readSnapshotChunks (env : Env) (requestId : UInt64) (payloadBytes received : Nat) (c : Conn) :
    Except Int (Option Bytes × Nat × Conn) :=
  if received ≥ payloadBytes then .ok (none, received, c)
  else
    match h₁ : distReadFrameHeader c with
    | .error rc => .error (if rc = 0 then 0 else -1)
    | .ok (type, chunkFrameBytes, d) =>
      if type ≠ msgSnapshotChunk ∨ chunkFrameBytes < sizeof SnapshotChunkFixed then
        .ok (some (lit "expected distributed snapshot chunk"), received,
          (distDiscardBytes d chunkFrameBytes).2)
      else
        match h₂ : distReadFull d (sizeof SnapshotChunkFixed) with
        | .error rc => .error (if rc = 0 then 0 else -1)
        | .ok (s, d) =>
          let chunk : SnapshotChunkFixed := fromWire s
          let chunkBytes := chunkFrameBytes - sizeof SnapshotChunkFixed
          if distU64FromHalves chunk.requestHi chunk.requestLo ≠ requestId ∨
              chunk.chunkBytes.toNat ≠ chunkBytes ∨ chunkBytes > snapshotChunkBytes ∨
              chunkBytes > payloadBytes - received then
            .ok (some (lit "invalid distributed snapshot chunk"), received,
              (distDiscardBytes d chunkBytes).2)
          else
            match h₃ : distReadFull d chunkBytes with
            | .error rc => .error (if rc = 0 then 0 else -1)
            | .ok (_, d) =>
              if !env.fwrite received then
                .ok (some (lit "failed to write worker KV shard temp file"), received, d)
              else readSnapshotChunks env requestId payloadBytes (received + chunkBytes) d
termination_by c.bytes.length
decreasing_by
  obtain ⟨hlen, rfl, -, -⟩ := distReadFrameHeader_ok h₁
  obtain ⟨-, -, rfl⟩ := distReadFull_ok h₂
  obtain ⟨-, -, rfl⟩ := distReadFull_ok h₃
  simp only [Conn.bytes_drop, List.length_drop]
  omega

namespace SnapshotBeginFixed

def sessionId (b : SnapshotBeginFixed) : UInt64 := distU64FromHalves b.sessionHi b.sessionLo
def requestId (b : SnapshotBeginFixed) : UInt64 := distU64FromHalves b.requestHi b.requestLo
def tokenHash (b : SnapshotBeginFixed) : UInt64 := distU64FromHalves b.tokenHashHi b.tokenHashLo
def payload (b : SnapshotBeginFixed) : Nat := (distU64FromHalves b.payloadHi b.payloadLo).toNat

/-- The sizes of a restore header agree with each other and with the frame. -/
def headerOk (b : SnapshotBeginFixed) (bodyBytes : Nat) : Bool :=
  b.tokenCount.toNat * 4 ≤ uint32Max && b.tokenBytes.toNat = b.tokenCount.toNat * 4 &&
    b.messageBytes = 0 && bodyBytes = b.tokenBytes.toNat

end SnapshotBeginFixed

/-- The error of a restore in front of its chunks, the tokens, and the connection. -/
def readSnapshotBody (state : WorkerState) (env : Env) (b : SnapshotBeginFixed) (bodyBytes : Nat)
    (c : Conn) : Except Int (Except Bytes (List UInt32) × Conn) :=
  if !b.headerOk bodyBytes then
    .ok (.error (lit "invalid distributed snapshot load header"), (distDiscardBytes c bodyBytes).2)
  else if b.tokenCount > state.ctxSize then
    .ok (.error (lit "snapshot token count exceeds worker context size"),
      (distDiscardBytes c bodyBytes).2)
  else if !env.tokensAlloc && b.tokenCount ≠ 0 then
    .ok (.error (lit "out of memory reading snapshot tokens"),
      (distDiscardBytes c b.tokenBytes.toNat).2)
  else
    match readSnapshotTokens state.vocab b.tokenCount.toNat c with
    | .error rc => .error rc
    | .ok (.error err, c) => .ok (.error err, c)
    | .ok (.ok tokens, c) =>
      let checked := refuse [
        (distTokenHashPrefix tokens ≠ b.tokenHash, lit "snapshot load token hash mismatch"),
        (b.modelId ≠ state.modelId || b.layerStart ≠ state.layerStart ||
          b.layerEnd ≠ state.layerEnd || b.tokenCount > state.ctxSize,
          lit "snapshot load request does not match worker state"),
        (!env.tempFile, lit "failed to create worker snapshot restore temp file"),
        (!env.bufAlloc, lit "out of memory restoring worker KV shard")]
      match checked with
      | .error err => .ok (.error err, c)
      | .ok () => .ok (.ok tokens, c)

/-- The restore of a shard whose payload has arrived. -/
def restoreShard (state : WorkerState) (env : Env) (b : SnapshotBeginFixed) (tokens : List UInt32) :
    Except Bytes Unit × WorkerState :=
  if !env.fflush then (.error (lit "failed to flush worker KV shard restore file"), state)
  else if !env.fseek then (.error (lit "failed to rewind worker KV shard restore file"), state)
  else
    match state.getSession env b.sessionId with
    | (.error err, state) => (.error err, state)
    | (.ok s, state) =>
      match sliceLoad env.load s.session tokens with
      | (.ok (), session) =>
        (.ok (), state.put { s with session, tokenHash := b.tokenHash, tokenHashValid := true })
      | (.error err, session) =>
        (.error (if err = [] then lit "failed to restore worker KV shard" else err),
          state.put { s with session, tokenHashValid := false })

def distWorkerHandleSnapshotLoad (state : WorkerState) (env : Env) (c : Conn) (bytes : Nat) :
    Handled :=
  if bytes < sizeof SnapshotBeginFixed then ⟨-1, (distDiscardBytes c bytes).2, state⟩
  else
    match distReadFull c (sizeof SnapshotBeginFixed) with
    | .error rc => ⟨if rc = 0 then 0 else -1, c.drop (sizeof SnapshotBeginFixed), state⟩
    | .ok (s, c) =>
      let b : SnapshotBeginFixed := fromWire s
      match readSnapshotBody state env b (bytes - sizeof SnapshotBeginFixed) c with
      | .error rc => ⟨rc, c, state⟩
      | .ok (.error _, c) => ⟨if 0 < b.payload then -1 else env.sendRc, c, state⟩
      | .ok (.ok tokens, c) =>
        match readSnapshotChunks env b.requestId b.payload 0 c with
        | .error rc => ⟨rc, c, state⟩
        | .ok (some _, received, c) =>
          ⟨if received < b.payload then -1 else env.sendRc, c, state⟩
        | .ok (none, _, c) =>
          let (_, state) := restoreShard state env b tokens
          ⟨env.sendRc, c, state⟩

/-- The two read loops: one handles work itself, the other hands it to the evaluation thread. -/
inductive ReadLoop
  | plain
  | prefetch
  deriving DecidableEq, Repr

/-- A turn of a read loop ends the loop, or keeps the connection. -/
inductive Turn
  | closed (rc : Int)
  | kept (conn : Conn) (state : WorkerState)

/-- A handler that does not return a positive code ends the loop. -/
def Handled.turn (h : Handled) : Turn :=
  if h.rc ≤ 0 then .closed (if h.rc = 0 then 0 else 1) else .kept h.conn h.state

/-- Work on its way to the evaluation thread. -/
def prefetchWork (state : WorkerState) (env : Env) (c : Conn) (bytes : Nat) : Turn :=
  if !env.payloadAlloc then .closed 1
  else
    match distReadFull c bytes with
    | .error rc => .closed (if rc = 0 then 0 else 1)
    | .ok (_, c) => if !env.enqueued then .closed 1 else .kept c state

/-- One turn of `dist_worker_read_loop` or `dist_worker_read_loop_prefetch`. An error of the
coordinator and an unsupported frame end the loop. -/
def readTurn (nr : Narrow) (loop : ReadLoop) (state : WorkerState) (env : Env) (c : Conn) : Turn :=
  match distReadFrameHeader c with
  | .error rc => .closed (if rc = 0 then 0 else 1)
  | .ok (type, bytes, c) =>
    if type = msgError then .closed 1
    else if type = msgWork then
      match loop with
      | .plain => (distWorkerHandleWork nr state env c bytes).turn
      | .prefetch => prefetchWork state env c bytes
    else if type = msgSnapshotSaveReq then (distWorkerHandleSnapshotSave state env c bytes).turn
    else if type = msgSnapshotLoadBegin then (distWorkerHandleSnapshotLoad state env c bytes).turn
    else
      let rc := (distDiscardBytes c bytes).1
      .closed (if rc = 0 then 0 else 1)

end Ds4.Dist
