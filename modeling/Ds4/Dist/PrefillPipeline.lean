import Mathlib.Logic.Relation
import Ds4.Lib.RingBuffer
import Ds4.Dist.Prefill

/-!
# Pipelined prefill

Three threads share a ring of frames and a count of results. The submitting thread evaluates the
layers of the coordinator into the free slot of the ring, the sender writes the oldest slot to the
first worker, and the reader takes the results. The frames are those of `sequentialPrefill`, but every
frame in front of the last one asks for nothing but an acknowledgement.
-/

namespace Ds4.Dist
open C Wire

namespace PrefillJob
variable (j : PrefillJob)

/-- The loop that fills `expected_hashes`. -/
def expectedHashesLoop : Nat → UInt64 → Nat → List UInt64
  | 0, _, _ => []
  | count + 1, hash, pos =>
    let chunk := min (j.spanEnd - pos) j.chunkCap
    let hash := distTokenHashUpdateSpan hash ((j.prompt.drop pos).take chunk)
    hash :: expectedHashesLoop count hash (pos + chunk)

def expectedHashes : List UInt64 :=
  j.expectedHashesLoop j.chunkCount (distTokenHashPrefix (j.prompt.take j.spanStart)) j.spanStart

def depth : Nat := distPrefillSendDepth j.requestedDepth j.chunkCount

def windowOf : Except Bytes Nat :=
  distCoordinatorPrefillWindow j.requestedWindow j.route.plan.count j.chunkCount

/-- The checks of the reader on a result. -/
def readerCheck (i : Nat) (reply : ResultReply) : Except Bytes Unit :=
  if j.expectedHashes[i]? ≠ some reply.resultHash then
    .error (lit "distributed pipelined prefill prefix hash mismatch")
  else
    let remaining := j.nTokens - i * j.chunkCap
    let chunk := min remaining j.chunkCap
    let hiddenBytes := chunk * j.hcValues * 4
    if (i + 1 ≠ j.chunkCount ∧ reply.kind = resultAck ∧ reply.payload = []) ∨
        (reply.kind = resultLogits ∧ reply.payload.length = j.vocab * 4) ∨
        (j.lastOutput = false ∧ hiddenBytes ≤ uint32Max ∧ reply.kind = resultHiddenState ∧
          reply.payload.length = hiddenBytes) then .ok ()
    else .error (lit "distributed pipelined prefill returned invalid result")

/-- What the call returns of the last result. -/
def finalLogits : Except Bytes ResultReply → Except Bytes Bytes
  | .error err => .error err
  | .ok reply =>
    if reply.kind = resultLogits ∧ reply.payload.length = j.vocab * 4 then .ok reply.payload
    else if reply.kind = resultHiddenState then
      .ok (j.head reply.payload (j.nTokens - (j.chunkCount - 1) * j.chunkCap))
    else .error (lit "distributed pipelined prefill did not return a final result")

end PrefillJob

/-! ## The threads -/

/-- Where the submitting thread stands. -/
inductive Submit
  /-- In front of a chunk, until there is room in the window. -/
  | window
  /-- Until there is a free slot. -/
  | acquire
  /-- The layers of the coordinator are evaluated into a slot. -/
  | fill (slot : Nat)
  | enqueue (slot : Nat)
  | joinSender
  | joinReader
  | returned (result : Except Bytes Bytes)

inductive Sender
  | idle
  /-- The oldest slot is being sent. -/
  | sending
  | exited
  deriving DecidableEq, Repr

structure Pipelined where
  ring : RingBuffer RemoteWork
  producerDone : Bool
  submit : Submit
  pos : Nat
  submitted : Nat
  requestId : UInt64
  nextPrefixHash : UInt64
  chunks : List (List UInt32)
  sender : Sender
  /-- What has been sent to the first worker. -/
  wire : List RemoteWork
  completed : Nat
  readerDone : Option (Except Bytes ResultReply)

namespace PrefillJob
variable (j : PrefillJob)

def pipelinedStart : Pipelined where
  ring := .empty default
  producerDone := false
  submit := .window
  pos := j.spanStart
  submitted := 0
  requestId := j.firstRequestId
  nextPrefixHash := distTokenHashPrefix (j.prompt.take j.spanStart)
  chunks := []
  sender := .idle
  wire := []
  completed := 0
  readerDone := none

/-- What the submitting thread writes into a slot. -/
def slotWork (s : Pipelined) (resultHash : UInt64) : RemoteWork :=
  let chunk := min (j.spanEnd - s.pos) j.chunkCap
  let tokens := (j.prompt.drop s.pos).take chunk
  { tokens, resultHash
    pos0 := s.pos
    requestId := s.requestId
    prefixHash := s.nextPrefixHash
    resetSession := j.resetFirst && s.pos = j.spanStart
    ackOnly := !j.ackOnlyDisabled && s.pos + chunk < j.spanEnd
    hidden := j.slice (s.chunks ++ [tokens]) }

/-- A step of one of the threads. The workers answer a frame when it has been sent. -/
inductive Step (window : Nat) : Pipelined → Pipelined → Prop
  | readerStopped {s : Pipelined} (submit : s.submit = .window) (more : s.pos < j.spanEnd)
    (done : s.readerDone ≠ none) :
    Step window s { s with
      submit := .returned (.error (lit "distributed prefill result reader stopped")) }
  | windowOpens {s : Pipelined} (submit : s.submit = .window) (more : s.pos < j.spanEnd)
    (running : s.readerDone = none) (room : s.submitted < s.completed + window) :
    Step window s { s with submit := .acquire }
  | acquires {s : Pipelined} (submit : s.submit = .acquire) (free : s.ring.queued ≠ j.depth) :
    Step window s { s with submit := .fill s.ring.tail }
  | fills {s : Pipelined} {slot : Nat} {resultHash : UInt64} (submit : s.submit = .fill slot)
    (hash : j.expectedHashes[s.submitted]? = some resultHash) :
    Step window s { s with
      ring := { s.ring with slots := Function.update s.ring.slots slot (j.slotWork s resultHash) }
      chunks := s.chunks ++ [(j.slotWork s resultHash).tokens]
      submit := .enqueue slot }
  | enqueues {s : Pipelined} {slot : Nat} (submit : s.submit = .enqueue slot) :
    Step window s { s with
      ring := s.ring.push j.depth
      requestId := s.requestId + 1
      submitted := s.submitted + 1
      nextPrefixHash := (s.ring.slots slot).resultHash
      pos := s.pos + min (j.spanEnd - s.pos) j.chunkCap
      submit := .window }
  | finishes {s : Pipelined} (submit : s.submit = .window) (last : ¬s.pos < j.spanEnd) :
    Step window s { s with producerDone := true, submit := .joinSender }
  | senderStarts {s : Pipelined} (sender : s.sender = .idle) (queued : s.ring.queued ≠ 0) :
    Step window s { s with sender := .sending }
  | sends {s : Pipelined} (sender : s.sender = .sending) :
    Step window s { s with
      wire := s.wire ++ [s.ring.front], ring := s.ring.pop j.depth, sender := .idle }
  | senderExits {s : Pipelined} (sender : s.sender = .idle) (queued : s.ring.queued = 0)
    (done : s.producerDone = true) : Step window s { s with sender := .exited }
  | reads {s : Pipelined} {w : RemoteWork} (running : s.readerDone = none)
    (sent : s.wire[s.completed]? = some w)
    (valid : j.readerCheck s.completed (j.answer (s.wire.take s.completed) w) = .ok ()) :
    Step window s { s with
      completed := s.completed + 1
      readerDone := if s.completed + 1 = j.chunkCount then
        some (.ok (j.answer (s.wire.take s.completed) w)) else none }
  | readFails {s : Pipelined} {w : RemoteWork} {err : Bytes} (running : s.readerDone = none)
    (sent : s.wire[s.completed]? = some w)
    (invalid : j.readerCheck s.completed (j.answer (s.wire.take s.completed) w) = .error err) :
    Step window s { s with readerDone := some (.error err) }
  | joinsSender {s : Pipelined} (submit : s.submit = .joinSender) (sender : s.sender = .exited) :
    Step window s { s with submit := .joinReader }
  | joinsReader {s : Pipelined} {r : Except Bytes ResultReply} (submit : s.submit = .joinReader)
    (done : s.readerDone = some r) :
    Step window s { s with submit := .returned (j.finalLogits r) }

/-! ## The frames -/

/-- Only the result of the last chunk is asked for. -/
def ack (i : Nat) : Bool := !j.ackOnlyDisabled && i + 1 < j.chunkCount

def frame (i : Nat) : RemoteWork := j.work (j.ack i) i

def frames (count : Nat) : List RemoteWork := (List.range count).map j.frame

def frameAnswer (i : Nat) : ResultReply := j.answer (j.frames i) (j.frame i)

variable {j} {i k : Nat}

theorem length_frames : (j.frames k).length = k := by
  rw [frames, List.length_map, List.length_range]

theorem frames_succ : j.frames (k + 1) = j.frames k ++ [j.frame k] := map_range_succ _ _

theorem getElem?_frames : (j.frames k)[i]? = if i < k then some (j.frame i) else none := by
  rw [frames, List.getElem?_map]
  by_cases h : i < k
  · rw [if_pos h, List.getElem?_range h]
    rfl
  · rw [if_neg h, List.getElem?_eq_none (by rw [List.length_range]; exact Nat.le_of_not_lt h)]
    rfl

theorem take_frames (h : i ≤ k) : (j.frames k).take i = j.frames i := by
  rw [frames, ← List.map_take, List.take_range, Nat.min_eq_left h, frames]

theorem getElem?_expectedHashesLoop {count : Nat} (h : k < count) :
    (j.expectedHashesLoop count (distTokenHashPrefix (j.prompt.take (j.chunkPos i)))
      (j.chunkPos i))[k]? = some (distTokenHashPrefix (j.prompt.take (j.chunkPos (i + k + 1)))) := by
  induction count generalizing i k with
  | zero => exact absurd h (Nat.not_lt_zero k)
  | succ count ih =>
    rw [expectedHashesLoop, ← chunkTokens_eq, ← hash_chunkPos_succ, ← chunkPos_succ]
    cases k with
    | zero => rfl
    | succ k =>
      rw [List.getElem?_cons_succ, ih (Nat.lt_of_succ_lt_succ h)]
      congr 4
      omega

theorem getElem?_expectedHashes (h : i < j.chunkCount) :
    j.expectedHashes[i]? = some (j.work false i).resultHash := by
  have hloop := getElem?_expectedHashesLoop (j := j) (i := 0) h
  rw [chunkPos_zero, Nat.zero_add] at hloop
  exact hloop

/-- A frame asks for its result exactly in front of the end of the span. -/
theorem chunkPos_succ_lt : j.chunkPos (i + 1) < j.spanEnd ↔ i + 1 < j.chunkCount := by
  constructor
  · intro hlt
    rw [lt_chunkCount]
    rw [chunkPos, spanEnd, before] at hlt
    omega
  · exact chunkPos_lt

theorem frameAnswer_eq :
    j.frameAnswer i =
      if j.ack i then ⟨resultAck, (j.work false i).resultHash, [], []⟩
      else ⟨if j.lastOutput then resultLogits else resultHiddenState, (j.work false i).resultHash, [],
        j.output ((List.range (i + 1)).map (j.work false))⟩ := answer_work j.ack

theorem length_chunkTokens_min (h : i < j.chunkCount) :
    (j.chunkTokens i).length = min (j.nTokens - i * j.chunkCap) j.chunkCap := by
  have hlt := lt_chunkCount.mp h
  have hbefore : j.before i = i * j.chunkCap := by
    rw [before]
    omega
  rw [length_chunkTokens, before_succ, hbefore]
  omega

/-- What the workers answer passes the checks of the reader. -/
theorem readerCheck_frame (h : i < j.chunkCount) :
    j.readerCheck i (j.frameAnswer i) = .ok () := by
  have hlen := length_output (j := j) (i := i)
  have hhash : (j.frameAnswer i).resultHash = (j.work false i).resultHash := by
    rw [frameAnswer_eq]
    cases j.ack i <;> rfl
  rw [readerCheck, getElem?_expectedHashes h, hhash, if_neg (by simp)]
  dsimp only
  rw [← length_chunkTokens_min h]
  refine if_pos ?_
  rw [frameAnswer_eq]
  cases hack : j.ack i with
  | true =>
    have hmore : i + 1 < j.chunkCount := by
      rw [ack, Bool.and_eq_true] at hack
      exact of_decide_eq_true hack.2
    exact .inl ⟨hmore.ne, rfl, rfl⟩
  | false =>
    rw [if_neg Bool.false_ne_true]
    cases hlast : j.lastOutput with
    | true =>
      rw [hlast] at hlen
      exact .inr (.inl ⟨rfl, hlen⟩)
    | false =>
      rw [hlast] at hlen
      have hle := Nat.mul_le_mul_right (j.hcValues * 4) (length_chunkTokens_le (j := j) (i := i))
      have hfit := j.chunkFits
      rw [← Nat.mul_assoc, ← Nat.mul_assoc] at hle
      exact .inr (.inr ⟨rfl, hle.trans hfit, rfl, hlen⟩)

theorem not_ack_last : j.ack (j.chunkCount - 1) = false := by
  have hpos := chunkCount_pos (j := j)
  rw [ack, Nat.sub_add_cancel hpos, decide_eq_false (Nat.lt_irrefl _), Bool.and_false]

theorem finalLogits_frame :
    j.finalLogits (.ok (j.frameAnswer (j.chunkCount - 1))) = .ok (j.logits (j.chunkCount - 1)) := by
  have hpos := chunkCount_pos (j := j)
  have hlast : j.chunkCount - 1 < j.chunkCount := Nat.sub_lt hpos Nat.one_pos
  have hlen := length_output (j := j) (i := j.chunkCount - 1)
  have htokens := length_chunkTokens_min hlast
  have hcover : ¬j.chunkCount * j.chunkCap < j.nTokens := fun h =>
    Nat.lt_irrefl _ (lt_chunkCount.mpr h)
  have hmul : j.chunkCount * j.chunkCap = (j.chunkCount - 1) * j.chunkCap + j.chunkCap := by
    rw [← Nat.add_one_mul, Nat.sub_add_cancel hpos]
  have hmin : min (j.nTokens - (j.chunkCount - 1) * j.chunkCap) j.chunkCap =
      j.nTokens - (j.chunkCount - 1) * j.chunkCap := by
    omega
  rw [hmin] at htokens
  rw [frameAnswer_eq, not_ack_last, if_neg Bool.false_ne_true, finalLogits, logits]
  cases hout : j.lastOutput with
  | true =>
    rw [hout] at hlen
    exact if_pos ⟨rfl, hlen⟩
  | false =>
    have hkind : ¬((if false = true then resultLogits else resultHiddenState) = resultLogits ∧
        (j.output ((List.range (j.chunkCount - 1 + 1)).map (j.work false))).length =
          j.vocab * 4) := by
      intro h
      exact absurd h.1 (by decide)
    dsimp only
    rw [if_neg hkind, htokens]
    exact if_pos rfl

end PrefillJob

end Ds4.Dist
