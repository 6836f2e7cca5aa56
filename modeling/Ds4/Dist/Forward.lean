import Ds4.Dist.Worker

/-!
# Answering and forwarding work

Every answer to a frame of work goes under the request id that the frame carries: an error, the
result of the last worker of a route, and the frame that is handed to the next worker.
-/

namespace Ds4.Dist
open C Wire

/-- The request id under which a payload is answered. -/
def requestIdOf (payload : Bytes) : UInt64 :=
  if payload.length < sizeof WorkFixed then 0
  else WorkFixed.requestId (fromWire (payload.take (sizeof WorkFixed)))

/-- The fixed part of the frame for the next worker, from `dist_forward_work_to_next`. -/
def forwardedWork (work : WorkFixed) (next : RouteEntry) (hiddenHcBytes : Nat) : Option WorkFixed :=
  let bits := distActivationBitsOrDefault work.inputHcBits
  match distActivationWireBytesFromF32Bytes bits hiddenHcBytes with
  | none => none
  | some wireBytes =>
    let flags := work.flags ||| workFInputHc
    some { work with
      layerStart := next.layerStart
      layerEnd := next.layerEnd
      routeIndex := work.routeIndex + 1
      flags := if hasFlag next.flags routeFOutputLogits then flags ||| workFOutputLogits
        else flags &&& ~~~workFOutputLogits
      inputHcBits := bits
      inputHcBytes := UInt32.ofNat wireBytes }

/-- What becomes of a frame of work: the handler writes an answer itself, or it tracks the request and
hands a frame to the next worker, if the frame can be written. -/
inductive WorkAnswer
  | direct (requestId : UInt64)
  | forward (requestId : UInt64) (frame : Option Bytes)
  deriving Repr

/-- How a payload may be answered. Forwarding fails in front of the queue when there is no connection
to the next worker, when the hidden states have no size on the wire, and when the queue is closed. -/
inductive Answers : Bytes → WorkAnswer → Prop
  | error {nr : Narrow} {state : WorkerState} {env : Env} {payload err : Bytes} {requestId : UInt64}
    (h : (processWorkPayload nr state env payload).1 = .error (requestId, err)) :
    Answers payload (.direct requestId)
  | result {nr : Narrow} {state : WorkerState} {env : Env} {payload output : Bytes} {f : WorkFrame}
    {kind bits : UInt32} {telemetry : TelemetryFixed}
    (h : (processWorkPayload nr state env payload).1 = .ok (f, .result kind bits telemetry output)) :
    Answers payload (.direct f.work.requestId)
  | unsent {nr : Narrow} {state : WorkerState} {env : Env} {payload hidden : Bytes} {f : WorkFrame}
    {next : RouteEntry} {telemetry : TelemetryFixed}
    (h : (processWorkPayload nr state env payload).1 = .ok (f, .forward next telemetry hidden)) :
    Answers payload (.direct f.work.requestId)
  | forward {nr : Narrow} {state : WorkerState} {env : Env} {payload hidden : Bytes} {f : WorkFrame}
    {next : RouteEntry} {telemetry : TelemetryFixed} {work : WorkFixed}
    (h : (processWorkPayload nr state env payload).1 = .ok (f, .forward next telemetry hidden))
    (hwork : forwardedWork f.work next hidden.length = some work) :
    Answers payload (.forward f.work.requestId
      (distSendWorkFrame nr work f.tokens (some hidden) (some f.route)))

section Answer
variable {nr : Narrow} {state : WorkerState} {env : Env} {payload s : Bytes} {f : WorkFrame}
  {w work : WorkFixed} {requestId : UInt64}

theorem readWork_requestId (h : readWork payload = .ok f) :
    f.work.requestId = requestIdOf payload := by
  rw [readWork] at h
  rw [requestIdOf]
  split at h
  · cases h
  · next hlen =>
    rw [if_neg hlen]
    dsimp only at h
    split at h
    · cases h
    · cases h
      rfl

/-- The request id of what `processWorkPayload` returns. -/
def answerId : Except (UInt64 × Bytes) (WorkFrame × WorkDone) → UInt64
  | .error (requestId, _) => requestId
  | .ok (f, _) => f.work.requestId

/-- Whatever becomes of a payload goes under its request id. -/
theorem processWorkPayload_requestId (nr : Narrow) (state : WorkerState) (env : Env)
    (payload : Bytes) :
    answerId (processWorkPayload nr state env payload).1 = requestIdOf payload := by
  generalize hr : processWorkPayload nr state env payload = r
  rw [processWorkPayload] at hr
  split at hr
  · rw [← hr]
    rfl
  · next f hread =>
    rw [← readWork_requestId hread, ← hr]
    dsimp only
    split
    · rfl
    · split
      · rfl
      · split
        · rfl
        · split
          · rfl
          · split
            · rfl
            · split
              · rfl
              · split <;> rfl

theorem Answers.direct_requestId (h : Answers payload (.direct requestId)) :
    requestId = requestIdOf payload := by
  generalize ha : WorkAnswer.direct requestId = a at h
  cases h with
  | error h | result h | unsent h =>
    cases ha
    have hid := congrArg answerId h
    rw [processWorkPayload_requestId] at hid
    exact hid.symm
  | forward h hwork => cases ha

theorem forwardedWork_requestId {next : RouteEntry} {bytes : Nat}
    (h : forwardedWork w next bytes = some work) : work.requestId = w.requestId := by
  rw [forwardedWork] at h
  dsimp only at h
  split at h
  · cases h
  · cases h
    rfl

/-- The frame for the next worker carries the request id of the work. -/
theorem distSendWorkFrame_requestId {tokens : List UInt32} {hc blob : Option Bytes}
    (h : distSendWorkFrame nr work tokens hc blob = some s) :
    requestIdOf (s.drop (sizeof FrameHeader)) = work.requestId := by
  obtain ⟨n, rest, rfl⟩ : ∃ n rest, s = distWriteFrameHeader msgWork n ++ (toWire work ++ rest) := by
    rw [distSendWorkFrame] at h
    split at h
    · cases h
    · split at h
      · cases h
      · split at h
        · cases h
        · split at h
          · cases h
          · split at h
            · cases h
            · split at h
              · cases h
              · split at h
                · cases h
                · cases h
                  exact ⟨_, _, rfl⟩
  have hfixed : (toWire work).length = sizeof WorkFixed := length_toWire work
  have hheader : (distWriteFrameHeader msgWork n).length = sizeof FrameHeader :=
    length_distWriteFrameHeader msgWork n
  rw [List.drop_left' hheader, requestIdOf, if_neg (by rw [List.length_append]; omega), List.take_left' hfixed, fromWire_toWire]

theorem Answers.forward_requestId {frame : Option Bytes}
    (h : Answers payload (.forward requestId frame)) :
    requestId = requestIdOf payload ∧
      ∀ s, frame = some s → requestIdOf (s.drop (sizeof FrameHeader)) = requestId := by
  generalize ha : WorkAnswer.forward requestId frame = a at h
  cases h with
  | error h => cases ha
  | result h => cases ha
  | unsent h => cases ha
  | forward h hwork =>
    cases ha
    have hid := congrArg answerId h
    rw [processWorkPayload_requestId] at hid
    refine ⟨hid.symm, fun s hs => ?_⟩
    rw [distSendWorkFrame_requestId hs]
    exact forwardedWork_requestId hwork

end Answer

end Ds4.Dist
