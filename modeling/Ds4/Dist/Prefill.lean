import Ds4.Dist.Forward

/-!
# Prefill in chunks

The coordinator evaluates its own layers of a chunk and hands the hidden states to the first worker
of the route. `sequentialPrefill` waits for the result of each chunk. What the backend of the
coordinator and the workers compute is an argument: it depends on the chunks and on the work so far,
and not on which results were asked for.
-/

namespace Ds4.Dist
open C Wire

/-- What the coordinator sends to the first worker of a route. -/
structure RemoteWork where
  tokens : List UInt32
  pos0 : Nat
  requestId : UInt64
  prefixHash : UInt64
  resultHash : UInt64
  resetSession : Bool
  ackOnly : Bool
  hidden : Bytes
  deriving DecidableEq, Repr, Inhabited

/-- What the frames of a route have in common. -/
structure RemoteRoute where
  nr : Narrow
  modelId : UInt32
  activationBits : UInt32
  sessionId : UInt64
  plan : RoutePlan

/-- The bytes of `dist_coordinator_send_remote_work_on_fd`. -/
def distCoordinatorSendRemoteWork (route : RemoteRoute) (w : RemoteWork) : Except Bytes Bytes :=
  match route.plan.entry with
  | [] => .error (lit "distributed route has no remote worker")
  | first :: _ =>
    match distActivationWireBytesFromF32Bytes route.activationBits w.hidden.length with
    | none => .error (lit "invalid distributed hidden-state size")
    | some wireHiddenHcBytes =>
      let work : WorkFixed := { (default : WorkFixed) with
        modelId := route.modelId
        sessionHi := distU64Hi route.sessionId
        sessionLo := distU64Lo route.sessionId
        requestHi := distU64Hi w.requestId
        requestLo := distU64Lo w.requestId
        prefixHashHi := distU64Hi w.prefixHash
        prefixHashLo := distU64Lo w.prefixHash
        resultHashHi := distU64Hi w.resultHash
        resultHashLo := distU64Lo w.resultHash
        pos0 := UInt32.ofNat w.pos0
        nTokens := UInt32.ofNat w.tokens.length
        layerStart := first.layerStart
        layerEnd := first.layerEnd
        flags := workFInputHc ||| (if w.resetSession then workFResetSession else 0) |||
          (if w.ackOnly then workFAckOnly else 0) |||
          (if hasFlag first.flags routeFOutputLogits then workFOutputLogits else 0)
        tokenBytes := UInt32.ofNat (w.tokens.length * 4)
        inputHcBytes := UInt32.ofNat wireHiddenHcBytes
        inputHcBits := route.activationBits
        routeCount := UInt32.ofNat route.plan.count
        routeIndex := 0
        routeBytes := UInt32.ofNat route.plan.blob.length }
      match distSendWorkFrame route.nr work w.tokens (some w.hidden) (some route.plan.blob) with
      | none => .error (lit "failed to send distributed work")
      | some s => .ok s

def distCoordinatorPrefillWindow (requested stages chunkCount : Nat) : Except Bytes Nat :=
  if requested > 64 then
    .error (lit "distributed prefill window " ++ lit (toString requested) ++ lit " exceeds limit 64")
  else
    let requested := if requested = 0 then min (max (stages + 2) 2) 8 else requested
    let requested := if chunkCount ≠ 0 then min requested chunkCount else requested
    .ok (if requested ≠ 0 then requested else 1)

/-- `requested` is the number of the environment variable, where it is one from 1 to 8. -/
def distPrefillSendDepth (requested : Option (Fin 8)) (chunkCount : Nat) : Nat :=
  let depth := match requested with
    | some v => v.val + 1
    | none => 2
  let depth := if chunkCount ≠ 0 then min depth chunkCount else depth
  if depth ≠ 0 then depth else 1

/-- A span of a prompt that goes through the workers of a route in chunks, with what the layers of
the coordinator, the workers and the output head compute. -/
structure PrefillJob where
  route : RemoteRoute
  prompt : List UInt32
  spanStart : Nat
  nTokens : Nat
  chunkCap : Nat
  resetFirst : Bool
  firstRequestId : UInt64
  /-- The tokens of the coordinator's session. -/
  checkpoint : List UInt32
  vocab : Nat
  hcValues : Nat
  /-- The last worker of the route has the output head. -/
  lastOutput : Bool
  /-- `DS4_DIST_DISABLE_PREFILL_ACK_ONLY` is set. -/
  ackOnlyDisabled : Bool
  requestedWindow : Nat
  requestedDepth : Option (Fin 8)
  /-- The hidden states of the last of the chunks that the coordinator has evaluated. -/
  slice : List (List UInt32) → Bytes
  /-- The output of the last worker for the last of the frames. -/
  output : List RemoteWork → Bytes
  head : Bytes → Nat → Bytes
  tokens_pos : 0 < nTokens
  cap_pos : 0 < chunkCap
  span : spanStart + nTokens ≤ prompt.length
  chunkFits : chunkCap * hcValues * 4 ≤ uint32Max
  windowFits : requestedWindow ≤ 64
  reset_start : resetFirst = true → spanStart = 0
  continues : resetFirst = false → checkpoint = prompt.take spanStart
  output_length : ∀ before w, (output (before ++ [w])).length =
    if lastOutput then vocab * 4 else w.tokens.length * hcValues * 4

namespace PrefillJob
variable (j : PrefillJob)

def spanEnd : Nat := j.spanStart + j.nTokens

def chunkCount : Nat := (j.nTokens + j.chunkCap - 1) / j.chunkCap

/-- The workers answer a frame behind the frames before it. -/
def answer (before : List RemoteWork) (w : RemoteWork) : ResultReply :=
  if w.ackOnly then ⟨resultAck, w.resultHash, [], []⟩
  else
    let output := j.output ((before ++ [w]).map fun w => { w with ackOnly := false })
    ⟨if j.lastOutput then resultLogits else resultHiddenState, w.resultHash, [], output⟩

/-! ## One chunk after the other -/

/-- The coordinator between two chunks. -/
structure Sequential where
  requestId : UInt64
  checkpoint : List UInt32
  chunks : List (List UInt32)
  sent : List RemoteWork
  logits : Bytes
  deriving Repr

/-- What `dist_coordinator_eval_remote_on_fd` makes of a result. -/
def remoteLogits (reply : ResultReply) (expectedResultHash : UInt64) (nTokens : Nat) :
    Except Bytes Bytes :=
  if reply.resultHash ≠ expectedResultHash then
    .error (lit "distributed result prefix hash mismatch")
  else if reply.kind = resultLogits ∧ reply.payload.length = j.vocab * 4 then .ok reply.payload
  else if reply.kind = resultHiddenState ∧ reply.payload.length = nTokens * j.hcValues * 4 then
    .ok (j.head reply.payload nTokens)
  else if reply.kind = resultHiddenState then
    .error (lit "distributed route returned invalid hidden-state size")
  else .error (lit "distributed route did not return logits or hidden-state")

/-- `dist_coordinator_eval_span` on a route with workers. -/
def evalSpan (s : Sequential) (tokens : List UInt32) (pos0 : Nat) (resetSession : Bool) :
    Except Bytes Sequential :=
  if tokens.length * j.hcValues * 4 > uint32Max then
    .error (lit "distributed coordinator hidden-state chunk is too large")
  else if resetSession ∧ pos0 ≠ 0 then
    .error (lit "distributed reset span must start at position 0")
  else if ¬resetSession ∧ s.checkpoint.length < pos0 then
    .error (lit "distributed session has no " ++ lit (toString pos0) ++ lit "-token prefix")
  else
    let prefixHash := if resetSession then tokenHashInit
      else distTokenHashPrefix (s.checkpoint.take pos0)
    let resultHash := distTokenHashUpdateSpan prefixHash tokens
    let chunks := s.chunks ++ [tokens]
    let w : RemoteWork := {
      tokens, pos0, prefixHash, resultHash, resetSession
      requestId := s.requestId
      ackOnly := false
      hidden := j.slice chunks }
    match j.remoteLogits (j.answer s.sent w) resultHash tokens.length with
    | .error err => .error err
    | .ok logits => .ok {
      chunks, logits
      requestId := s.requestId + 1
      checkpoint := (if resetSession then [] else s.checkpoint) ++ tokens
      sent := s.sent ++ [w] }

/-- The loop of `dist_coordinator_prefill_prompt` and of `ds4_dist_session_sync`. -/
def sequentialLoop (pos : Nat) (s : Sequential) : Except Bytes Sequential :=
  if pos < j.spanEnd then
    let chunk := min (j.spanEnd - pos) j.chunkCap
    match j.evalSpan s ((j.prompt.drop pos).take chunk) pos
        (j.resetFirst && pos = j.spanStart) with
    | .error err => .error err
    | .ok s => sequentialLoop (pos + chunk) s
  else .ok s
termination_by j.spanEnd - pos
decreasing_by
  have := j.cap_pos
  omega

def sequentialPrefill : Except Bytes Sequential :=
  j.sequentialLoop j.spanStart ⟨j.firstRequestId, j.checkpoint, [], [], []⟩

/-! ## The chunks of a span -/

/-- How many tokens of the span lie in the first chunks. -/
def before (i : Nat) : Nat := min (i * j.chunkCap) j.nTokens

def chunkPos (i : Nat) : Nat := j.spanStart + j.before i

def chunkTokens (i : Nat) : List UInt32 :=
  (j.prompt.drop (j.chunkPos i)).take (j.before (i + 1) - j.before i)

/-- The work of a chunk, when its result is asked for or only its arrival. -/
def work (ackOnly : Bool) (i : Nat) : RemoteWork where
  tokens := j.chunkTokens i
  pos0 := j.chunkPos i
  requestId := j.firstRequestId + UInt64.ofNat i
  prefixHash := distTokenHashPrefix (j.prompt.take (j.chunkPos i))
  resultHash := distTokenHashPrefix (j.prompt.take (j.chunkPos (i + 1)))
  resetSession := j.resetFirst && i = 0
  ackOnly := ackOnly
  hidden := j.slice ((List.range (i + 1)).map j.chunkTokens)

/-- The logits that the result of a chunk gives. -/
def logits (i : Nat) : Bytes :=
  let output := j.output ((List.range (i + 1)).map (j.work false))
  if j.lastOutput then output else j.head output (j.chunkTokens i).length

variable {j} {i : Nat}

theorem before_zero : j.before 0 = 0 := by
  rw [before, Nat.zero_mul, Nat.zero_min]

theorem lt_chunkCount : i < j.chunkCount ↔ i * j.chunkCap < j.nTokens := by
  have hcap := j.cap_pos
  have hn := j.tokens_pos
  rw [chunkCount, Nat.lt_iff_add_one_le, Nat.le_div_iff_mul_le hcap, Nat.add_one_mul]
  omega

theorem chunkCount_pos : 0 < j.chunkCount := by
  rw [lt_chunkCount, Nat.zero_mul]
  exact j.tokens_pos

theorem before_lt (h : i < j.chunkCount) : j.before i < j.nTokens := by
  have hlt := lt_chunkCount.mp h
  rw [before]
  omega

theorem before_chunkCount : j.before j.chunkCount = j.nTokens := by
  have hle : ¬j.chunkCount * j.chunkCap < j.nTokens := by
    rw [← lt_chunkCount]
    exact Nat.lt_irrefl _
  rw [before]
  omega

theorem before_le : j.before i ≤ j.nTokens := Nat.min_le_right _ _

/-- A chunk has as many tokens as fit, or those that are left. -/
theorem before_succ : j.before (i + 1) = j.before i + min (j.nTokens - j.before i) j.chunkCap := by
  rw [before, before, Nat.add_one_mul]
  omega

theorem chunkPos_succ :
    j.chunkPos (i + 1) = j.chunkPos i + min (j.spanEnd - j.chunkPos i) j.chunkCap := by
  have hsub : j.spanEnd - j.chunkPos i = j.nTokens - j.before i := by
    rw [spanEnd, chunkPos]
    omega
  rw [hsub, chunkPos, chunkPos, before_succ, Nat.add_assoc]

theorem chunkPos_zero : j.chunkPos 0 = j.spanStart := by
  rw [chunkPos, before_zero, Nat.add_zero]

theorem chunkPos_lt (h : i < j.chunkCount) : j.chunkPos i < j.spanEnd := by
  have hlt := before_lt h
  rw [chunkPos, spanEnd]
  omega

theorem chunkPos_chunkCount : j.chunkPos j.chunkCount = j.spanEnd := by
  rw [chunkPos, before_chunkCount, spanEnd]

theorem chunkPos_le_length : j.chunkPos i ≤ j.prompt.length := by
  have hle := before_le (j := j) (i := i)
  have hspan := j.span
  rw [chunkPos]
  omega

theorem chunkTokens_eq :
    j.chunkTokens i =
      (j.prompt.drop (j.chunkPos i)).take (min (j.spanEnd - j.chunkPos i) j.chunkCap) := by
  have hsucc := chunkPos_succ (j := j) (i := i)
  rw [chunkPos, chunkPos] at hsucc
  rw [chunkTokens]
  congr 1
  rw [chunkPos]
  omega

theorem length_chunkTokens : (j.chunkTokens i).length = j.before (i + 1) - j.before i := by
  have hle := chunkPos_le_length (j := j) (i := i + 1)
  rw [chunkPos] at hle
  rw [chunkTokens, List.length_take, List.length_drop, chunkPos]
  omega

theorem length_chunkTokens_le : (j.chunkTokens i).length ≤ j.chunkCap := by
  rw [length_chunkTokens, before_succ]
  omega

theorem take_chunkPos_succ :
    j.prompt.take (j.chunkPos (i + 1)) = j.prompt.take (j.chunkPos i) ++ j.chunkTokens i := by
  have hadd : j.chunkPos (i + 1) = j.chunkPos i + (j.before (i + 1) - j.before i) := by
    rw [chunkPos, chunkPos, before_succ]
    omega
  rw [hadd, List.take_add, chunkTokens]

theorem chunkPos_add_length : j.chunkPos (i + 1) = j.chunkPos i + (j.chunkTokens i).length := by
  rw [length_chunkTokens, chunkPos, chunkPos, before_succ]
  omega

theorem requestId_succ :
    j.firstRequestId + UInt64.ofNat (i + 1) = j.firstRequestId + UInt64.ofNat i + 1 := by
  rw [UInt64.ofNat_add, UInt64.add_assoc]
  rfl

/-- The hash chain goes through the ends of the chunks. -/
theorem hash_chunkPos_succ :
    distTokenHashPrefix (j.prompt.take (j.chunkPos (i + 1))) =
      distTokenHashUpdateSpan (distTokenHashPrefix (j.prompt.take (j.chunkPos i)))
        (j.chunkTokens i) := by
  rw [take_chunkPos_succ, distTokenHashPrefix_append]

/-! ## What the loop sends -/

/-- The coordinator in front of a chunk. -/
def sequentialAt (j : PrefillJob) (i : Nat) (logits : Bytes) : Sequential where
  requestId := j.firstRequestId + UInt64.ofNat i
  checkpoint := if i = 0 then j.checkpoint else j.prompt.take (j.chunkPos i)
  chunks := (List.range i).map j.chunkTokens
  sent := (List.range i).map (j.work false)
  logits := logits

theorem map_range_succ {α : Type} (f : Nat → α) (i : Nat) :
    (List.range (i + 1)).map f = (List.range i).map f ++ [f i] := by
  rw [List.range_succ, List.map_append]
  rfl

/-- What the workers compute does not depend on which results were asked for. -/
theorem answer_work (ack : Nat → Bool) :
    (j.answer ((List.range i).map fun k => j.work (ack k) k) (j.work (ack i) i)) =
      if ack i then ⟨resultAck, (j.work false i).resultHash, [], []⟩
      else ⟨if j.lastOutput then resultLogits else resultHiddenState, (j.work false i).resultHash, [],
        j.output ((List.range (i + 1)).map (j.work false))⟩ := by
  have herase : (((List.range i).map fun k => j.work (ack k) k) ++ [j.work (ack i) i]).map
      (fun w => { w with ackOnly := false }) = (List.range (i + 1)).map (j.work false) := by
    rw [map_range_succ, List.map_append, List.map_map]
    rfl
  rw [answer, herase]
  rfl

theorem length_output :
    (j.output ((List.range (i + 1)).map (j.work false))).length =
      if j.lastOutput then j.vocab * 4 else (j.chunkTokens i).length * j.hcValues * 4 := by
  rw [map_range_succ, j.output_length]
  rfl

theorem remoteLogits_work :
    j.remoteLogits ⟨if j.lastOutput then resultLogits else resultHiddenState,
        (j.work false i).resultHash, [], j.output ((List.range (i + 1)).map (j.work false))⟩
      (j.work false i).resultHash (j.chunkTokens i).length = .ok (j.logits i) := by
  have hlen := length_output (j := j) (i := i)
  rw [remoteLogits, if_neg (by simp), logits]
  cases hlast : j.lastOutput with
  | true =>
    rw [hlast] at hlen
    rw [if_pos ⟨rfl, hlen⟩]
    rfl
  | false =>
    rw [hlast] at hlen
    have hkind : ¬((if false = true then resultLogits else resultHiddenState) = resultLogits ∧
        (j.output ((List.range (i + 1)).map (j.work false))).length = j.vocab * 4) := by
      intro h
      exact absurd h.1 (by decide)
    dsimp only
    rw [if_neg hkind, if_pos ⟨rfl, hlen⟩]
    rfl

/-- Only the first chunk starts where the span does. -/
theorem chunkPos_eq_spanStart : j.chunkPos i = j.spanStart ↔ i = 0 := by
  constructor
  · intro heq
    by_contra hne
    have hmul : j.chunkCap ≤ i * j.chunkCap := Nat.le_mul_of_pos_left _ (Nat.pos_of_ne_zero hne)
    have hcap := j.cap_pos
    have hn := j.tokens_pos
    rw [chunkPos, before] at heq
    omega
  · intro heq
    rw [heq]
    exact chunkPos_zero

/-- The prefix that a frame claims is the prompt in front of its chunk. -/
theorem prefixHash_sequentialAt (logits : Bytes) :
    (if j.resetFirst && i = 0 then tokenHashInit
      else distTokenHashPrefix ((j.sequentialAt i logits).checkpoint.take (j.chunkPos i))) =
      distTokenHashPrefix (j.prompt.take (j.chunkPos i)) := by
  by_cases hi : i = 0
  · subst hi
    cases hreset : j.resetFirst with
    | true =>
      rw [chunkPos_zero, j.reset_start hreset]
      rfl
    | false =>
      rw [chunkPos_zero, sequentialAt, if_neg (by simp), if_pos rfl, j.continues hreset,
        List.take_take, Nat.min_self]
  · rw [if_neg (by simp [hi]), sequentialAt, if_neg hi, List.take_take, Nat.min_self]

theorem checkpoint_sequentialAt (logits : Bytes) :
    (if j.resetFirst && i = 0 then [] else (j.sequentialAt i logits).checkpoint) ++
      j.chunkTokens i = j.prompt.take (j.chunkPos (i + 1)) := by
  rw [take_chunkPos_succ]
  congr 1
  by_cases hi : i = 0
  · subst hi
    cases hreset : j.resetFirst with
    | true =>
      rw [chunkPos_zero, j.reset_start hreset]
      rfl
    | false =>
      rw [chunkPos_zero, sequentialAt, if_neg (by simp), if_pos rfl, j.continues hreset]
  · rw [if_neg (by simp [hi]), sequentialAt, if_neg hi]

theorem evalSpan_sequentialAt (logits : Bytes) :
    j.evalSpan (j.sequentialAt i logits) (j.chunkTokens i) (j.chunkPos i)
        (j.resetFirst && j.chunkPos i = j.spanStart) =
      .ok (j.sequentialAt (i + 1) (j.logits i)) := by
  have hreset : (j.resetFirst && decide (j.chunkPos i = j.spanStart)) =
      (j.resetFirst && decide (i = 0)) := by
    rw [decide_eq_decide.mpr chunkPos_eq_spanStart]
  have hfits : ¬(j.chunkTokens i).length * j.hcValues * 4 > uint32Max := by
    have hle := Nat.mul_le_mul_right (j.hcValues * 4) (length_chunkTokens_le (j := j) (i := i))
    have hfit := j.chunkFits
    rw [Nat.mul_assoc] at hfit ⊢
    omega
  have hstart : ¬((j.resetFirst && decide (i = 0)) = true ∧ j.chunkPos i ≠ 0) := by
    intro hand
    simp only [Bool.and_eq_true, decide_eq_true_eq] at hand
    rw [hand.1.2, chunkPos_zero] at hand
    exact hand.2 (j.reset_start hand.1.1)
  have hlong : ¬(¬(j.resetFirst && decide (i = 0)) = true ∧
      (j.sequentialAt i logits).checkpoint.length < j.chunkPos i) := by
    intro hand
    obtain ⟨hnot, hshort⟩ := hand
    have hcheckpoint := checkpoint_sequentialAt (j := j) (i := i) logits
    rw [if_neg hnot, take_chunkPos_succ] at hcheckpoint
    rw [List.append_cancel_right hcheckpoint, List.length_take,
      Nat.min_eq_left chunkPos_le_length] at hshort
    exact Nat.lt_irrefl _ hshort
  have hanswer := answer_work (j := j) (i := i) fun _ => false
  rw [if_neg Bool.false_ne_true] at hanswer
  have hlogits := remoteLogits_work (j := j) (i := i)
  rw [← hanswer] at hlogits
  rw [evalSpan, hreset, if_neg hfits, if_neg hstart, if_neg hlong]
  dsimp only
  rw [prefixHash_sequentialAt, checkpoint_sequentialAt, ← hash_chunkPos_succ]
  have hchunks : (j.sequentialAt i logits).chunks ++ [j.chunkTokens i] =
      (List.range (i + 1)).map j.chunkTokens := (map_range_succ _ _).symm
  have hsent : (j.sequentialAt i logits).sent ++ [j.work false i] =
      (List.range (i + 1)).map (j.work false) := (map_range_succ _ _).symm
  rw [hchunks]
  change (match j.remoteLogits (j.answer ((List.range i).map fun k => j.work false k)
    (j.work false i)) (j.work false i).resultHash (j.chunkTokens i).length with
    | .error err => Except.error err
    | .ok logits' => _) = _
  rw [hlogits]
  dsimp only
  change Except.ok (Sequential.mk _ _ _ ((j.sequentialAt i logits).sent ++ [j.work false i]) _) = _
  rw [hsent]
  have hnext : j.sequentialAt (i + 1) (j.logits i) =
      ⟨j.firstRequestId + UInt64.ofNat (i + 1), j.prompt.take (j.chunkPos (i + 1)),
        (List.range (i + 1)).map j.chunkTokens, (List.range (i + 1)).map (j.work false),
        j.logits i⟩ := by
    rw [sequentialAt, if_neg (Nat.succ_ne_zero i)]
  rw [hnext, requestId_succ]
  rfl

/-- From a chunk on, the loop sends the others. -/
theorem sequentialLoop_eq (h : i < j.chunkCount) (logits : Bytes) :
    j.sequentialLoop (j.chunkPos i) (j.sequentialAt i logits) =
      .ok (j.sequentialAt j.chunkCount (j.logits (j.chunkCount - 1))) := by
  obtain ⟨left, hleft⟩ : ∃ left, j.chunkCount = i + 1 + left := Nat.exists_eq_add_of_lt h |>.imp
    fun k hk => by omega
  induction left generalizing i logits with
  | zero =>
    rw [sequentialLoop, if_pos (chunkPos_lt h)]
    dsimp only
    rw [← chunkTokens_eq, evalSpan_sequentialAt, ← chunkPos_succ]
    dsimp only
    have hlast : i + 1 = j.chunkCount := hleft.symm
    rw [hlast, chunkPos_chunkCount, sequentialLoop, if_neg (Nat.lt_irrefl _), ← hlast,
      Nat.add_sub_cancel]
  | succ left ih =>
    rw [sequentialLoop, if_pos (chunkPos_lt h)]
    dsimp only
    rw [← chunkTokens_eq, evalSpan_sequentialAt, ← chunkPos_succ]
    exact ih (by omega) _ (by omega)

/-- The sequential path sends the work of the chunks in their order, and returns the logits of the
last one. -/
theorem sequentialPrefill_eq (j : PrefillJob) :
    j.sequentialPrefill = .ok (j.sequentialAt j.chunkCount (j.logits (j.chunkCount - 1))) := by
  have hstart : (⟨j.firstRequestId, j.checkpoint, [], [], []⟩ : Sequential) =
      j.sequentialAt 0 [] := by
    rw [sequentialAt, if_pos rfl]
    simp
  rw [sequentialPrefill, hstart, ← chunkPos_zero]
  exact sequentialLoop_eq chunkCount_pos []

end PrefillJob

end Ds4.Dist
