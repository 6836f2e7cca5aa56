import Ds4.Dist.Frame

/-!
# Work and result frames

A work frame carries tokens, a hidden-state payload and a route blob behind its fixed part, a result
frame telemetry records and a payload. A hidden-state payload is an array of floats, which travel as
they are or narrowed to 16 or 8 bits; what the narrowing does to a float is a parameter. A relay
passes a result on with one more telemetry record.
-/

namespace Ds4.Dist
open C Wire

/-! ## Activations -/

/-- The conversions of one float, by its bits. -/
structure Narrow where
  toF16 : UInt32 → UInt16
  ofF16 : UInt16 → UInt32
  toF8 : UInt32 → UInt8
  ofF8 : UInt8 → UInt32

def distActivationBitsOrDefault (bits : UInt32) : UInt32 :=
  if bits ≠ 0 then bits else activationBitsDefault

def distActivationBitsValid (bits : UInt32) : Bool :=
  let bits := distActivationBitsOrDefault bits
  bits = 32 || bits = 16 || bits = 8

def distActivationWireBytes (bits : UInt32) (values : Nat) : Option Nat :=
  let bits := distActivationBitsOrDefault bits
  if !distActivationBitsValid bits || bits % 8 ≠ 0 then none
  else
    let bytes := values * (bits / 8).toNat
    if bytes > uint32Max then none else some bytes

def distActivationValuesFromWireBytes (bits : UInt32) (bytes : Nat) : Option Nat :=
  let bits := distActivationBitsOrDefault bits
  if !distActivationBitsValid bits || bits % 8 ≠ 0 then none
  else
    let bytesPerValue := (bits / 8).toNat
    if bytesPerValue = 0 || bytes % bytesPerValue ≠ 0 then none else some (bytes / bytesPerValue)

def distActivationWireBytesFromF32Bytes (bits : UInt32) (f32Bytes : Nat) : Option Nat :=
  if f32Bytes % 4 ≠ 0 then none else distActivationWireBytes bits (f32Bytes / 4)

/-- The first floats of an array. -/
def floats (n : Nat) (src : Bytes) : List UInt32 := (leGets 4 n src).map UInt32.ofNat

def putFloats (fs : List UInt32) : Bytes := lePuts 4 (fs.map UInt32.toNat)

section Activation
variable (nr : Narrow)

/-- The bytes that a payload of floats becomes, or nothing when it is refused. -/
def distWriteActivationPayload (src : Bytes) (values : Nat) (bits : UInt32) : Option Bytes :=
  let bits := distActivationBitsOrDefault bits
  if !distActivationBitsValid bits then none
  else if values = 0 then some []
  else if bits = 32 then (distActivationWireBytes bits values).map src.take
  else if bits = 16 then
    some (lePuts 2 ((floats values src).map fun f => (nr.toF16 f).toNat))
  else some (lePuts 1 ((floats values src).map fun f => (nr.toF8 f).toNat))

def distDecodeActivationPayload (wire : Bytes) (bits : UInt32) : Except Bytes Bytes :=
  let bits := distActivationBitsOrDefault bits
  if !distActivationBitsValid bits then
    .error (lit "invalid distributed activation width: " ++ dec bits ++ lit " bits")
  else
    match distActivationValuesFromWireBytes bits wire.length with
    | none => .error (lit "invalid distributed activation payload size")
    | some values =>
      if values * 4 > uint32Max then
        .error (lit "distributed activation payload is too large")
      else if bits = 32 then .ok wire
      else if bits = 16 then
        .ok (putFloats ((leGets 2 values wire).map fun h => nr.ofF16 (UInt16.ofNat h)))
      else .ok (putFloats ((leGets 1 values wire).map fun h => nr.ofF8 (UInt8.ofNat h)))

/-- What an array of floats is at the other end. -/
def narrowed (bits : UInt32) (src : Bytes) : Bytes :=
  let fs := floats (src.length / 4) src
  if distActivationBitsOrDefault bits = 32 then src
  else if distActivationBitsOrDefault bits = 16 then
    putFloats (fs.map fun f => nr.ofF16 (nr.toF16 f))
  else putFloats (fs.map fun f => nr.ofF8 (nr.toF8 f))

end Activation

/-! ## Work frames -/

/-- A work frame as the worker takes it apart. -/
structure WorkFrame where
  work : WorkFixed
  tokens : List UInt32
  inputHc : Bytes
  route : Bytes
  deriving DecidableEq, Repr

def distSendWorkFrame (nr : Narrow) (work : WorkFixed) (tokens : List UInt32)
    (inputHc routeBlob : Option Bytes) : Option Bytes :=
  let tokenBytes := work.nTokens.toNat * 4
  let frameBytes := sizeof WorkFixed + work.tokenBytes.toNat + work.inputHcBytes.toNat +
    work.routeBytes.toNat
  if work.nTokens = 0 then none
  else if tokenBytes > uint32Max || work.tokenBytes.toNat ≠ tokenBytes then none
  else if work.inputHcBytes ≠ 0 && inputHc.isNone then none
  else if work.routeBytes ≠ 0 && routeBlob.isNone then none
  else
    match (if work.inputHcBytes ≠ 0 then
      distActivationValuesFromWireBytes work.inputHcBits work.inputHcBytes.toNat else some 0) with
    | none => none
    | some inputHcValues =>
      if frameBytes > uint32Max then none
      else
        match (if work.inputHcBytes ≠ 0 then
          distWriteActivationPayload nr (orEmpty inputHc) inputHcValues work.inputHcBits
          else some []) with
        | none => none
        | some payload =>
          some (distWriteFrameHeader msgWork frameBytes ++ (toWire work ++
            (putWords (tokens.take work.nTokens.toNat) ++ (payload ++
              (orEmpty routeBlob).take work.routeBytes.toNat))))

/-- How `dist_worker_process_work_payload` cuts a payload. When the sizes add up, none of its later
reads can fall short. -/
def readWork (payload : Bytes) : Except Bytes WorkFrame :=
  if payload.length < sizeof WorkFixed then .error (lit "truncated distributed WORK frame")
  else
    let work : WorkFixed := fromWire (payload.take (sizeof WorkFixed))
    let p := payload.drop (sizeof WorkFixed)
    if work.tokenBytes.toNat ≠ work.nTokens.toNat * 4 ||
        work.tokenBytes.toNat + work.inputHcBytes.toNat + work.routeBytes.toNat ≠ p.length then
      .error (lit "invalid distributed WORK payload sizes")
    else
      let q := p.drop work.tokenBytes.toNat
      .ok {
        work
        tokens := getWords work.nTokens.toNat p
        inputHc := q.take work.inputHcBytes.toNat
        route := (q.drop work.inputHcBytes.toNat).take work.routeBytes.toNat }

/-! ## Result frames -/

/-- A result frame with its payload as it travels. -/
structure ResultFrame where
  result : ResultFixed
  telemetry : List TelemetryFixed
  payload : Bytes
  deriving DecidableEq, Repr

namespace ResultFrame

def requestId (f : ResultFrame) : UInt64 :=
  distU64FromHalves f.result.requestHi f.result.requestLo

def resultHash (f : ResultFrame) : UInt64 :=
  distU64FromHalves f.result.resultHashHi f.result.resultHashLo

def size (f : ResultFrame) : Nat :=
  sizeof ResultFixed + f.telemetry.length * sizeof TelemetryFixed + f.payload.length

/-- The fixed part says how long the other parts are, and the frame has a length that a header can
declare. -/
structure Sized (f : ResultFrame) : Prop where
  telemetryCount : f.result.telemetryCount.toNat = f.telemetry.length
  telemetryBytes : f.result.telemetryBytes.toNat = f.telemetry.length * sizeof TelemetryFixed
  payloadBytes : f.result.payloadBytes.toNat = f.payload.length
  fits : f.size ≤ uint32Max

def put (f : ResultFrame) : Bytes :=
  distWriteFrameHeader msgResult f.size ++
    (toWire f.result ++ (putRecords f.telemetry ++ f.payload))

end ResultFrame

/-- A result is hidden states. -/
def hiddenResult (status resultKind : UInt32) : Bool := status = 0 && resultKind = resultHiddenState

/-- The fixed part that `dist_send_work_result` fills in. -/
def resultFixed (requestId resultHash : UInt64) (status resultKind : UInt32)
    (telemetryCount wirePayloadBytes : Nat) (payloadBits : UInt32) : ResultFixed where
  requestHi := distU64Hi requestId
  requestLo := distU64Lo requestId
  resultHashHi := distU64Hi (if status = 0 then resultHash else 0)
  resultHashLo := distU64Lo (if status = 0 then resultHash else 0)
  status := status
  resultKind := resultKind
  telemetryCount := UInt32.ofNat telemetryCount
  telemetryBytes := UInt32.ofNat (telemetryCount * sizeof TelemetryFixed)
  payloadBytes := UInt32.ofNat wirePayloadBytes
  payloadBits := payloadBits

def distSendWorkResult (nr : Narrow) (requestId resultHash : UInt64) (status resultKind : UInt32)
    (payloadBits : UInt32) (telemetry : List TelemetryFixed) (payload : Bytes) : Option Bytes :=
  let hidden := hiddenResult status resultKind
  let payloadBits :=
    if hidden then distActivationBitsOrDefault payloadBits
    else if status = 0 && resultKind = resultLogits then 32 else 0
  let hiddenValues := payload.length / 4
  match (if hidden then
    (if !distActivationBitsValid payloadBits || payload.length % 4 ≠ 0 then none
      else distActivationWireBytes payloadBits hiddenValues) else some payload.length) with
  | none => none
  | some wirePayloadBytes =>
    let telemetryBytes := telemetry.length * sizeof TelemetryFixed
    let frameBytes := sizeof ResultFixed + telemetryBytes + wirePayloadBytes
    if telemetryBytes > uint32Max then none
    else if frameBytes > uint32Max then none
    else
      let r := resultFixed requestId resultHash status resultKind telemetry.length
        wirePayloadBytes payloadBits
      match (if hidden && wirePayloadBytes ≠ 0 then
        distWriteActivationPayload nr payload hiddenValues payloadBits else some payload) with
      | none => none
      | some wire =>
        some (distWriteFrameHeader msgResult frameBytes ++
          (toWire r ++ (putRecords telemetry ++ wire)))

def distSendWorkError (nr : Narrow) (requestId : UInt64) (msg : Option Bytes) : Option Bytes :=
  let msg := cstr (msg.getD (lit "distributed work failed"))
  distSendWorkResult nr requestId 0 1 0 0 [] (msg.take uint32Max)

/-- Why no result could be taken. -/
inductive RecvError
  | transport (msg : Bytes)
  | remote (msg : Bytes)
  deriving DecidableEq, Repr

/-- What the coordinator gets from a result. -/
structure ResultReply where
  kind : UInt32
  resultHash : UInt64
  telemetry : List TelemetryFixed
  payload : Bytes
  deriving DecidableEq, Repr

/-- The sizes that both readers of a result check. -/
def resultSizesBad (result : ResultFixed) (bodyBytes : Nat) : Bool :=
  result.telemetryBytes.toNat % sizeof TelemetryFixed ≠ 0 ||
    result.telemetryCount.toNat ≠ result.telemetryBytes.toNat / sizeof TelemetryFixed ||
    result.telemetryBytes.toNat > bodyBytes ||
    result.payloadBytes.toNat ≠ bodyBytes - result.telemetryBytes.toNat

/-- The text of a remote error in a buffer of `errlen` bytes. -/
def remoteErrorText (payload : Bytes) (errlen : Nat) : Bytes :=
  if payload = [] then (lit "distributed worker returned an error").take (errlen - 1)
  else payload.take (errlen - 1)

/-- The text of a header that could not be read depends on the system and is left out but for its
start. -/
def distRecvResultAlloc (nr : Narrow) (errlen : Nat) (c : Conn) (requestId : UInt64) :
    Except RecvError ResultReply × Conn :=
  match distReadFrameHeader c with
  | .error rc =>
    (.error (.transport (if rc = 0 then lit "distributed worker closed connection"
      else lit "failed to read frame header")), c.drop (sizeof FrameHeader))
  | .ok (type, bytes, c) =>
    if type ≠ msgResult || bytes < sizeof ResultFixed then
      (.error (.transport (lit "distributed worker returned invalid frame")),
        (distDiscardBytes c bytes).2)
    else
      match distReadFull c (sizeof ResultFixed) with
      | .error _ =>
        (.error (.transport (lit "failed to read distributed result")), c.drop (sizeof ResultFixed))
      | .ok (s, c) =>
        let result : ResultFixed := fromWire s
        let bodyBytes := bytes - sizeof ResultFixed
        if resultSizesBad result bodyBytes then
          (.error (.transport (lit "distributed result telemetry metadata mismatch")),
            (distDiscardBytes c bodyBytes).2)
        else if distU64FromHalves result.requestHi result.requestLo ≠ requestId then
          (.error (.transport (lit "distributed result metadata mismatch")),
            (distDiscardBytes c bodyBytes).2)
        else
          match distReadFull c result.telemetryBytes.toNat with
          | .error _ =>
            (.error (.transport (lit "failed to read distributed result telemetry")),
              c.drop result.telemetryBytes.toNat)
          | .ok (t, c) =>
            match distReadFull c result.payloadBytes.toNat with
            | .error _ =>
              (.error (.transport (lit "failed to read distributed result payload")),
                c.drop result.payloadBytes.toNat)
            | .ok (buf, c) =>
              if result.status ≠ 0 then
                (.error (.remote (remoteErrorText buf errlen)), c)
              else
                let telemetry := getRecords result.telemetryCount.toNat t
                let resultHash := distU64FromHalves result.resultHashHi result.resultHashLo
                if result.resultKind = resultHiddenState && result.payloadBytes ≠ 0 then
                  match distDecodeActivationPayload nr buf result.payloadBits with
                  | .error err => (.error (.transport err), c)
                  | .ok decoded =>
                    (.ok ⟨result.resultKind, resultHash, telemetry, decoded⟩, c)
                else (.ok ⟨result.resultKind, resultHash, telemetry, buf⟩, c)

/-! ## The relay -/

/-- What one turn of the relay does: it passes a result on, or it stops, with an answer for the
oldest pending request when there is one. -/
inductive Relay
  | relayed (bytes : Bytes)
  | stopped (answer : Option (UInt64 × Bytes))
  deriving DecidableEq, Repr

/-- One turn of `dist_worker_forwarder_relay_main` on the connection to the next worker. The oldest
pending request comes with its telemetry, in which the time of the wait is already noted. -/
def relayTurn (c : Conn) (pending : Option (UInt64 × TelemetryFixed)) : Relay × Conn :=
  let stop (msg : String) : Relay := .stopped (pending.map fun p => (p.1, lit msg))
  match distReadFrameHeader c with
  | .error _ => (stop "next worker closed connection", c.drop (sizeof FrameHeader))
  | .ok (type, bytes, c) =>
    if type ≠ msgResult || bytes < sizeof ResultFixed then
      (stop "next worker did not return valid RESULT", (distDiscardBytes c bytes).2)
    else
      match distReadFull c (sizeof ResultFixed) with
      | .error _ => (stop "next worker closed while returning RESULT", c.drop (sizeof ResultFixed))
      | .ok (s, c) =>
        let result : ResultFixed := fromWire s
        let bodyBytes := bytes - sizeof ResultFixed
        if resultSizesBad result bodyBytes then
          (stop "next worker RESULT metadata mismatch", (distDiscardBytes c bodyBytes).2)
        else
          match pending with
          | none => (.stopped none, (distDiscardBytes c bodyBytes).2)
          | some (expectedRequest, localTelemetry) =>
            if distU64FromHalves result.requestHi result.requestLo ≠ expectedRequest then
              (stop "next worker RESULT metadata mismatch", (distDiscardBytes c bodyBytes).2)
            else
              let outTelemetryBytes := result.telemetryBytes.toNat + sizeof TelemetryFixed
              let outTelemetryCount := result.telemetryCount + 1
              let outFrameBytes := sizeof ResultFixed + outTelemetryBytes + result.payloadBytes.toNat
              if outTelemetryBytes > uint32Max || outTelemetryCount = 0 then
                (stop "distributed telemetry chain is too large", (distDiscardBytes c bodyBytes).2)
              else if outFrameBytes > uint32Max then
                (stop "distributed RESULT frame is too large", (distDiscardBytes c bodyBytes).2)
              else
                let out : ResultFixed := { result with
                  telemetryCount := outTelemetryCount
                  telemetryBytes := UInt32.ofNat outTelemetryBytes }
                match distReadFull c result.telemetryBytes.toNat with
                | .error _ => (.stopped none, c.drop result.telemetryBytes.toNat)
                | .ok (telemetry, c) =>
                  match distReadFull c result.payloadBytes.toNat with
                  | .error _ => (.stopped none, c.drop result.payloadBytes.toNat)
                  | .ok (payload, c) =>
                    (.relayed (distWriteFrameHeader msgResult outFrameBytes ++ (toWire out ++
                      (telemetry ++ toWire localTelemetry ++ payload))), c)

end Ds4.Dist
