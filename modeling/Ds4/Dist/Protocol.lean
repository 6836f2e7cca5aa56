import Ds4.Lib.Wire

/-!
# Frames and records of the distributed protocol

Every frame is a header and the bytes that the header declares. The fixed part of a frame is a
record of 32-bit words. Token ids are kept as the words that travel and that the hash sees; floats
are kept as their 32 bits.
-/

namespace Ds4.Dist
open C Wire

def magic : UInt32 := 0x44533444

def msgHello : UInt32 := 1
def msgError : UInt32 := 2
def msgWork : UInt32 := 3
def msgResult : UInt32 := 4
def msgSnapshotSaveReq : UInt32 := 5
def msgSnapshotBegin : UInt32 := 6
def msgSnapshotChunk : UInt32 := 7
def msgSnapshotDone : UInt32 := 8
def msgSnapshotLoadBegin : UInt32 := 9

def workFInputHc : UInt32 := 1
def workFOutputLogits : UInt32 := 2
def workFResetSession : UInt32 := 4
def workFAckOnly : UInt32 := 8
def workFValidMask : UInt32 := workFInputHc ||| workFOutputLogits ||| workFResetSession ||| workFAckOnly

def resultAck : UInt32 := 0
def resultHiddenState : UInt32 := 1
def resultLogits : UInt32 := 2

def activationBitsDefault : UInt32 := 32
def routeFOutputLogits : UInt32 := 1
def routeReturnUpstream : UInt32 := 1
def snapshotChunkBytes : Nat := 8 * 1024 * 1024
def uint32Max : Nat := 2 ^ 32 - 1
def intMax : Nat := 2 ^ 31 - 1
def niMaxHost : Nat := 1025

/-- A flag of a word is set. -/
def hasFlag (flags flag : UInt32) : Bool := flags &&& flag ≠ 0

/-- A number as `%u` prints it. -/
def dec (n : UInt32) : Bytes := lit (toString n)

/-- Checks in the order in which they are made, each with the text of its refusal. -/
def refuse : List (Bool × Bytes) → Except Bytes Unit
  | [] => .ok ()
  | (true, msg) :: _ => .error msg
  | (false, _) :: checks => refuse checks

theorem refuse_ok (h : refuse checks = .ok ()) : ∀ c ∈ checks, c.1 = false := by
  induction checks with
  | nil =>
    intro c hc
    cases hc
  | cons c checks ih =>
    obtain ⟨b, msg⟩ := c
    cases b with
    | true => cases h
    | false =>
      intro c hc
      cases hc with
      | head => rfl
      | tail _ hc => exact ih h c hc

theorem refuse_of_forall (h : ∀ c ∈ checks, c.1 = false) : refuse checks = .ok () := by
  induction checks with
  | nil => rfl
  | cons c checks ih =>
    obtain ⟨b, msg⟩ := c
    have hb : b = false := h (b, msg) List.mem_cons_self
    subst hb
    exact ih fun c hc => h c (List.mem_cons_of_mem _ hc)

structure FrameHeader where
  magic : UInt32
  type : UInt32
  bytes : UInt32
  deriving DecidableEq, Repr

structure HelloFixed where
  modelId : UInt32
  quantBits : UInt32
  layerStart : UInt32
  layerEnd : UInt32
  hasOutput : UInt32
  hasHidden : UInt32
  ctxSize : UInt32
  nLayers : UInt32
  listenPort : UInt32
  modelNameLen : UInt32
  deriving DecidableEq, Repr, Inhabited

structure WorkFixed where
  modelId : UInt32
  sessionHi : UInt32
  sessionLo : UInt32
  requestHi : UInt32
  requestLo : UInt32
  prefixHashHi : UInt32
  prefixHashLo : UInt32
  resultHashHi : UInt32
  resultHashLo : UInt32
  pos0 : UInt32
  nTokens : UInt32
  layerStart : UInt32
  layerEnd : UInt32
  flags : UInt32
  tokenBytes : UInt32
  inputHcBytes : UInt32
  inputHcBits : UInt32
  routeCount : UInt32
  routeIndex : UInt32
  routeBytes : UInt32
  deriving DecidableEq, Repr, Inhabited

structure RouteFixed where
  hostLen : UInt32
  port : UInt32
  layerStart : UInt32
  layerEnd : UInt32
  flags : UInt32
  deriving DecidableEq, Repr, Inhabited

structure RouteReturnFixed where
  kind : UInt32
  hostLen : UInt32
  port : UInt32
  deriving DecidableEq, Repr, Inhabited

structure ResultFixed where
  requestHi : UInt32
  requestLo : UInt32
  resultHashHi : UInt32
  resultHashLo : UInt32
  status : UInt32
  resultKind : UInt32
  telemetryCount : UInt32
  telemetryBytes : UInt32
  payloadBytes : UInt32
  payloadBits : UInt32
  deriving DecidableEq, Repr, Inhabited

structure TelemetryFixed where
  layerStart : UInt32
  layerEnd : UInt32
  routeIndex : UInt32
  pos0 : UInt32
  nTokens : UInt32
  evalUsec : UInt32
  downstreamWaitUsec : UInt32
  forwardSendUsec : UInt32
  inputBytes : UInt32
  outputBytes : UInt32
  deriving DecidableEq, Repr, Inhabited

structure SnapshotReqFixed where
  modelId : UInt32
  sessionHi : UInt32
  sessionLo : UInt32
  requestHi : UInt32
  requestLo : UInt32
  tokenHashHi : UInt32
  tokenHashLo : UInt32
  tokenCount : UInt32
  layerStart : UInt32
  layerEnd : UInt32
  deriving DecidableEq, Repr, Inhabited

structure SnapshotBeginFixed where
  modelId : UInt32
  sessionHi : UInt32
  sessionLo : UInt32
  requestHi : UInt32
  requestLo : UInt32
  tokenHashHi : UInt32
  tokenHashLo : UInt32
  tokenCount : UInt32
  layerStart : UInt32
  layerEnd : UInt32
  payloadHi : UInt32
  payloadLo : UInt32
  status : UInt32
  tokenBytes : UInt32
  messageBytes : UInt32
  deriving DecidableEq, Repr, Inhabited

structure SnapshotChunkFixed where
  requestHi : UInt32
  requestLo : UInt32
  chunkBytes : UInt32
  deriving DecidableEq, Repr, Inhabited

instance : Record FrameHeader where
  words := 3
  toWords h := [h.magic, h.type, h.bytes]
  ofWords
    | [m, t, b] => ⟨m, t, b⟩
    | _ => ⟨0, 0, 0⟩
  length_toWords _ := rfl
  ofWords_toWords _ := rfl

instance : Record WorkFixed where
  words := 20
  toWords w := [w.modelId, w.sessionHi, w.sessionLo, w.requestHi, w.requestLo, w.prefixHashHi,
    w.prefixHashLo, w.resultHashHi, w.resultHashLo, w.pos0, w.nTokens, w.layerStart, w.layerEnd,
    w.flags, w.tokenBytes, w.inputHcBytes, w.inputHcBits, w.routeCount, w.routeIndex, w.routeBytes]
  ofWords
    | [a, b, c, d, e, f, g, h, i, j, k, l, m, n, o, p, q, r, s, t] =>
      ⟨a, b, c, d, e, f, g, h, i, j, k, l, m, n, o, p, q, r, s, t⟩
    | _ => default
  length_toWords _ := rfl
  ofWords_toWords _ := rfl

instance : Record RouteFixed where
  words := 5
  toWords r := [r.hostLen, r.port, r.layerStart, r.layerEnd, r.flags]
  ofWords
    | [a, b, c, d, e] => ⟨a, b, c, d, e⟩
    | _ => default
  length_toWords _ := rfl
  ofWords_toWords _ := rfl

instance : Record RouteReturnFixed where
  words := 3
  toWords r := [r.kind, r.hostLen, r.port]
  ofWords
    | [a, b, c] => ⟨a, b, c⟩
    | _ => default
  length_toWords _ := rfl
  ofWords_toWords _ := rfl

instance : Record ResultFixed where
  words := 10
  toWords r := [r.requestHi, r.requestLo, r.resultHashHi, r.resultHashLo, r.status, r.resultKind,
    r.telemetryCount, r.telemetryBytes, r.payloadBytes, r.payloadBits]
  ofWords
    | [a, b, c, d, e, f, g, h, i, j] => ⟨a, b, c, d, e, f, g, h, i, j⟩
    | _ => default
  length_toWords _ := rfl
  ofWords_toWords _ := rfl

instance : Record TelemetryFixed where
  words := 10
  toWords t := [t.layerStart, t.layerEnd, t.routeIndex, t.pos0, t.nTokens, t.evalUsec,
    t.downstreamWaitUsec, t.forwardSendUsec, t.inputBytes, t.outputBytes]
  ofWords
    | [a, b, c, d, e, f, g, h, i, j] => ⟨a, b, c, d, e, f, g, h, i, j⟩
    | _ => default
  length_toWords _ := rfl
  ofWords_toWords _ := rfl

instance : Record SnapshotReqFixed where
  words := 10
  toWords s := [s.modelId, s.sessionHi, s.sessionLo, s.requestHi, s.requestLo, s.tokenHashHi,
    s.tokenHashLo, s.tokenCount, s.layerStart, s.layerEnd]
  ofWords
    | [a, b, c, d, e, f, g, h, i, j] => ⟨a, b, c, d, e, f, g, h, i, j⟩
    | _ => default
  length_toWords _ := rfl
  ofWords_toWords _ := rfl

instance : Record SnapshotBeginFixed where
  words := 15
  toWords s := [s.modelId, s.sessionHi, s.sessionLo, s.requestHi, s.requestLo, s.tokenHashHi,
    s.tokenHashLo, s.tokenCount, s.layerStart, s.layerEnd, s.payloadHi, s.payloadLo, s.status,
    s.tokenBytes, s.messageBytes]
  ofWords
    | [a, b, c, d, e, f, g, h, i, j, k, l, m, n, o] => ⟨a, b, c, d, e, f, g, h, i, j, k, l, m, n, o⟩
    | _ => default
  length_toWords _ := rfl
  ofWords_toWords _ := rfl

instance : Record SnapshotChunkFixed where
  words := 3
  toWords s := [s.requestHi, s.requestLo, s.chunkBytes]
  ofWords
    | [a, b, c] => ⟨a, b, c⟩
    | _ => default
  length_toWords _ := rfl
  ofWords_toWords _ := rfl

@[simp] theorem sizeof_frameHeader : sizeof FrameHeader = 12 := rfl
@[simp] theorem sizeof_work : sizeof WorkFixed = 80 := rfl
@[simp] theorem sizeof_route : sizeof RouteFixed = 20 := rfl
@[simp] theorem sizeof_routeReturn : sizeof RouteReturnFixed = 12 := rfl
@[simp] theorem sizeof_result : sizeof ResultFixed = 40 := rfl
@[simp] theorem sizeof_telemetry : sizeof TelemetryFixed = 40 := rfl
@[simp] theorem sizeof_snapshotReq : sizeof SnapshotReqFixed = 40 := rfl
@[simp] theorem sizeof_snapshotBegin : sizeof SnapshotBeginFixed = 60 := rfl
@[simp] theorem sizeof_snapshotChunk : sizeof SnapshotChunkFixed = 12 := rfl

def distU64FromHalves (hi lo : UInt32) : UInt64 := (hi.toUInt64 <<< 32) ||| lo.toUInt64

def distU64Hi (v : UInt64) : UInt32 := (v >>> 32).toUInt32

def distU64Lo (v : UInt64) : UInt32 := v.toUInt32

@[simp] theorem distU64FromHalves_halves (v : UInt64) :
    distU64FromHalves (distU64Hi v) (distU64Lo v) = v := by
  apply UInt64.toNat_inj.mp
  have hv : v.toNat < 2 ^ 64 := v.toNat_lt
  have hlo : v.toNat % 2 ^ 32 < 2 ^ 32 := Nat.mod_lt _ (by decide)
  have hhi : v.toNat / 2 ^ 32 % 2 ^ 32 * 2 ^ 32 % 2 ^ 64 = v.toNat / 2 ^ 32 * 2 ^ 32 := by omega
  rw [distU64FromHalves, distU64Hi, distU64Lo]
  simp only [UInt64.toNat_or, UInt64.toNat_shiftLeft, UInt32.toNat_toUInt64, UInt64.toNat_toUInt32,
    UInt64.toNat_shiftRight, UInt64.reduceToNat, Nat.reduceMod, Nat.shiftRight_eq_div_pow,
    Nat.shiftLeft_eq, hhi]
  rw [← Nat.shiftLeft_eq, ← Nat.shiftLeft_add_eq_or_of_lt hlo, Nat.shiftLeft_eq]
  exact Nat.div_add_mod' v.toNat (2 ^ 32)

def tokenHashInit : UInt64 := 1469598103934665603
def tokenHashPrime : UInt64 := 1099511628211

/-- FNV-1a over the four bytes of a token id, lowest first. -/
def distTokenHashUpdate (h : UInt64) (token : UInt32) : UInt64 :=
  (List.range 4).foldl
    (fun h i => (h ^^^ ((token >>> (8 * UInt32.ofNat i)) &&& 0xff).toUInt64) * tokenHashPrime) h

def distTokenHashUpdateSpan (h : UInt64) (tokens : List UInt32) : UInt64 :=
  tokens.foldl distTokenHashUpdate h

def distTokenHashPrefix (tokens : List UInt32) : UInt64 :=
  distTokenHashUpdateSpan tokenHashInit tokens

theorem distTokenHashPrefix_append (ts us : List UInt32) :
    distTokenHashPrefix (ts ++ us) = distTokenHashUpdateSpan (distTokenHashPrefix ts) us :=
  List.foldl_append

end Ds4.Dist
