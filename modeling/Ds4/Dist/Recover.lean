import Ds4.Dist.WorkerPrefix

/-!
# Replay after a mismatch

The shards of the workers may hold an old prefix. The first span that a worker refuses makes the
coordinator replay the whole transcript, which starts with a reset. A remote error leaves the route as
it is. The sequential path keeps the connection to the first worker; the reader of the pipelined path
has shut it down by then.
-/

namespace Ds4.Dist
open C Wire

/-! ## Workers -/

/-- A session of a worker whose layers are evaluated without a failure. -/
structure Shard where
  checkpoint : List UInt32
  /-- The tokens that the shard stands for. -/
  kv : Option (List UInt32)
  /-- A GLM worker with KDA layers, whose state a reset does not clear. -/
  recurrent : Bool
  deriving DecidableEq, Repr

/-- What a frame asks of a shard. -/
structure Span where
  tokens : List UInt32
  pos0 : Nat
  prefixHash : UInt64
  resetSession : Bool
  deriving DecidableEq, Repr

namespace Shard

def reset (s : Shard) : Shard :=
  { s with checkpoint := [], kv := if s.recurrent && s.kv ≠ some [] then none else some [] }

/-- The worker takes the span, or refuses it. -/
def evalWork (w : Span) (s : Shard) : Bool × Shard :=
  let s := if w.resetSession then s.reset else s
  if distTokenHashPrefix s.checkpoint ≠ w.prefixHash ∨ s.checkpoint.length ≠ w.pos0 then (false, s)
  else (true, { s with
    checkpoint := s.checkpoint ++ w.tokens
    kv := s.kv.bind fun ts => if ts.length = w.pos0 then some (ts ++ w.tokens) else none })

end Shard

/-- A span goes through the workers up to the first one that refuses it. -/
def evalRoute (w : Span) : List Shard → Bool × List Shard
  | [] => (true, [])
  | s :: ss =>
    match s.evalWork w with
    | (false, s) => (false, s :: ss)
    | (true, s) =>
      let (ok, ss) := evalRoute w ss
      (ok, s :: ss)

/-! ## The coordinator -/

inductive RecvRc
  | ok
  | transportError
  | remoteError
  deriving DecidableEq, Repr

structure Coordinator where
  /-- The tokens of the coordinator's session. -/
  checkpoint : List UInt32
  shards : List Shard
  /-- The connection to the first worker has not been shut down. -/
  isOpen : Bool
  deriving DecidableEq, Repr

/-- `dist_coordinator_eval_span`, where the coordinator's own layers are evaluated. -/
def Coordinator.evalSpan (s : Coordinator) (tokens : List UInt32) (pos0 : Nat) (resetSession : Bool) :
    RecvRc × Coordinator :=
  if resetSession ∧ pos0 ≠ 0 then (.transportError, s)
  else if ¬resetSession ∧ s.checkpoint.length < pos0 then (.transportError, s)
  else
    let prefixHash := if resetSession then tokenHashInit
      else distTokenHashPrefix (s.checkpoint.take pos0)
    let checkpoint := if resetSession then [] else s.checkpoint
    if checkpoint.length ≠ pos0 then (.transportError, { s with checkpoint })
    else
      let s := { s with checkpoint := checkpoint ++ tokens }
      if s.shards.isEmpty then (.ok, s)
      else if ¬s.isOpen then (.transportError, s)
      else
        match evalRoute { tokens, pos0, prefixHash, resetSession } s.shards with
        | (true, shards) => (.ok, { s with shards })
        | (false, shards) => (.remoteError, { s with shards })

/-- The workers evaluate the frames in order. Behind a frame that is refused the connection is shut
down, and only some more frames arrive. -/
def evalFrames (reached : Nat) : List Span → List Shard → Bool × List Shard
  | [], ss => (true, ss)
  | w :: ws, ss =>
    match evalRoute w ss with
    | (true, ss) => evalFrames reached ws ss
    | (false, ss) => (false, (ws.take reached).foldl (fun ss w => (evalRoute w ss).2) ss)

/-- How far the threads of a pipelined prefill get that fails: what the coordinator has evaluated
itself, and how many frames behind the refused one reach the workers. -/
structure Race where
  evaluated : Nat
  reached : Nat
  deriving DecidableEq, Repr

structure Recovery where
  chunkCap : Nat
  /-- `DS4_DIST_DISABLE_PREFILL_PIPELINE` is not set, and the output head is reached. -/
  pipeline : Bool
  cap_pos : 0 < chunkCap

namespace Recovery
variable (c : Recovery)

def canPipelinePrefill (s : Coordinator) (nTokens : Nat) : Bool :=
  c.pipeline && c.chunkCap < nTokens && !s.shards.isEmpty

/-- The spans of a transcript, one after the other. -/
def spanLoop (prompt : List UInt32) (reset : Bool) (pos : Nat) (s : Coordinator) :
    RecvRc × Coordinator :=
  if pos < prompt.length then
    let chunk := min (prompt.length - pos) c.chunkCap
    match s.evalSpan ((prompt.drop pos).take chunk) pos (reset && pos = 0) with
    | (.ok, s) => spanLoop prompt reset (pos + chunk) s
    | (rc, s) => (rc, s)
  else (.ok, s)
termination_by prompt.length - pos
decreasing_by
  have := c.cap_pos
  omega

/-- The frames of a pipelined prefill. -/
def frames (prompt : List UInt32) (reset : Bool) (start pos : Nat) : List Span :=
  if pos < prompt.length then
    let chunk := min (prompt.length - pos) c.chunkCap
    { tokens := (prompt.drop pos).take chunk
      pos0 := pos
      prefixHash := distTokenHashPrefix (prompt.take pos)
      resetSession := reset && pos = start } :: frames prompt reset start (pos + chunk)
  else []
termination_by prompt.length - pos
decreasing_by
  have := c.cap_pos
  omega

/-- `dist_coordinator_prefill_prompt_pipelined`. Its reader shuts the connection down when it does
not get a result. -/
def prefillPromptPipelined (race : Race) (prompt : List UInt32) (start : Nat) (reset : Bool)
    (s : Coordinator) : RecvRc × Coordinator :=
  if ¬s.isOpen then (.transportError, { s with checkpoint := prompt.take race.evaluated })
  else
    match evalFrames race.reached (c.frames prompt reset start start) s.shards with
    | (true, shards) => (.ok, { s with checkpoint := prompt, shards })
    | (false, shards) =>
      (.remoteError, { checkpoint := prompt.take race.evaluated, shards, isOpen := false })

def prefillPrompt (race : Race) (prompt : List UInt32) (s : Coordinator) : RecvRc × Coordinator :=
  if c.canPipelinePrefill s prompt.length then c.prefillPromptPipelined race prompt 0 true s
  else c.spanLoop prompt true 0 s

/-- `dist_coordinator_rebuild_from_transcript`. A route that is forgotten is built anew from workers
that are reachable. -/
def rebuildFromTranscript (race : Race) (transcript : List UInt32) (forgetRoute : Bool)
    (s : Coordinator) : Bool × Coordinator :=
  let s := if forgetRoute then { s with isOpen := true } else s
  match c.prefillPrompt race transcript s with
  | (.ok, s) => (true, s)
  | (_, s) => (false, s)

def orRebuild (race : Race) (transcript : List UInt32) : RecvRc × Coordinator → Bool × Coordinator
  | (.ok, s) => (true, s)
  | (rc, s) => c.rebuildFromTranscript race transcript (rc ≠ .remoteError) s

/-- `ds4_dist_session_sync` on a route that is ready. -/
def ds4DistSessionSync (race : Race) (valid : Bool) (prompt : List UInt32) (s : Coordinator) :
    Bool × Coordinator :=
  if prompt = [] then (false, s)
  else if valid ∧ s.checkpoint <+: prompt then
    if s.checkpoint.length = prompt.length then (true, s)
    else
      let pos0 := s.checkpoint.length
      if c.canPipelinePrefill s (prompt.length - pos0) then
        c.orRebuild race prompt (c.prefillPromptPipelined race prompt pos0 false s)
      else c.orRebuild race prompt (c.spanLoop prompt false pos0 s)
  else c.orRebuild race prompt (c.prefillPrompt race prompt s)

/-- `ds4_dist_session_eval` on a route that is ready. The transcript that is replayed is the
checkpoint of the session, behind the token that it may have noted by then, and the token. -/
def ds4DistSessionEval (race : Race) (token : UInt32) (s : Coordinator) : Bool × Coordinator :=
  match s.evalSpan [token] s.checkpoint.length false with
  | (.ok, s) => (true, s)
  | (rc, s) => c.rebuildFromTranscript race (s.checkpoint ++ [token]) (rc ≠ .remoteError) s

end Recovery

/-- The call succeeds, and every shard stands for the checkpoint of the coordinator. -/
def Recovered (r : Bool × Coordinator) : Prop :=
  r.1 = true ∧ ∀ s ∈ r.2.shards, s.kv = some r.2.checkpoint

/-! ## Shards and sessions -/

/-- A session of a worker and the shard that it is. -/
structure Shard.Represents (backend : Backend) (s : WorkerSession) (t : Shard) : Prop where
  checkpoint : s.session.checkpoint = t.checkpoint
  kv : s.session.kv = t.kv
  hash : s.tokenHashValid = true → s.tokenHash = distTokenHashPrefix t.checkpoint
  start : s.session.checkpointValid = false → t.checkpoint = []
  recurrent : t.recurrent = true ↔ backend = .glm true

/-- A frame with a span that fits into the context of the worker. -/
structure Span.Carried (ctxSize : UInt32) (f : WorkFrame) (w : Span) : Prop where
  tokens : f.tokens = w.tokens
  pos0 : f.work.pos0.toNat = w.pos0
  prefixHash : f.work.prefixHash = w.prefixHash
  resultHash : f.work.resultHash = distTokenHashUpdateSpan w.prefixHash w.tokens
  resetSession : f.work.resetSession = w.resetSession
  tokens_ne : w.tokens ≠ []
  fits : ¬(f.work.pos0.toNat > intMax ∨ f.tokens.length > intMax ∨ f.work.pos0 > ctxSize ∨
    f.tokens.length > (ctxSize - f.work.pos0).toNat)

section Worker
variable {state : WorkerState} {env : Env} {f : WorkFrame} {s : WorkerSession} {t : Shard} {w : Span}

/-- The reset of a frame is that of the shard. -/
theorem prepareSession_represents (hbackend : state.backend ≠ .cpu) (hgraph : env.graphReset = true)
    (hw : w.Carried state.ctxSize f) (h : t.Represents state.backend s) :
    ∃ s', prepareSession state.backend env.graphReset f.work s = (true, s') ∧
      (if w.resetSession then t.reset else t).Represents state.backend s' := by
  rw [prepareSession, hw.resetSession]
  cases w.resetSession with
  | true =>
    rw [if_pos rfl, if_pos rfl, hgraph]
    cases hb : state.backend with
    | cpu => exact absurd hb hbackend
    | deepseek =>
      have hrecurrent : t.recurrent = false := Bool.eq_false_iff.mpr fun hr => by
        rw [h.recurrent, hb] at hr
        cases hr
      refine ⟨_, rfl, ⟨rfl, ?_, fun _ => rfl, fun _ => rfl, ?_⟩⟩
      · rw [Shard.reset, hrecurrent]
        rfl
      · rw [Shard.reset, hrecurrent]
        exact ⟨fun hr => (by cases hr), fun hr => (by cases hr)⟩
    | glm recurrent =>
      have hrecurrent : t.recurrent = recurrent := by
        rw [Bool.eq_iff_iff, h.recurrent, hb]
        cases recurrent <;> simp
      refine ⟨_, rfl, ⟨rfl, ?_, fun _ => rfl, fun _ => rfl, ?_⟩⟩
      · rw [Shard.reset, hrecurrent, h.kv]
      · rw [Shard.reset, hrecurrent]
        cases recurrent <;> simp
  | false =>
    rw [if_neg Bool.false_ne_true, if_neg Bool.false_ne_true]
    split
    · refine ⟨_, rfl, ⟨h.checkpoint, h.kv, fun _ => ?_, h.start, h.recurrent⟩⟩
      rw [h.checkpoint]
    · exact ⟨_, rfl, h⟩

/-- The timeline of the session is the place of the span exactly when the shard is as long. -/
theorem timeline_represents (hw : w.Carried state.ctxSize f) (h : t.Represents state.backend s) :
    sliceCheckTimeline state.ctxSize s.session f.tokens f.work.pos0 = none ↔
      t.checkpoint.length = w.pos0 := by
  have htokens : f.tokens ≠ [] := by
    rw [hw.tokens]
    exact hw.tokens_ne
  rw [sliceCheckTimeline, if_neg htokens, if_neg hw.fits, ← hw.pos0]
  cases hvalid : s.session.checkpointValid with
  | false =>
    rw [if_pos Bool.not_false, h.start hvalid]
    constructor
    · intro hnone
      split at hnone
      · cases hnone
      · next hpos =>
        rw [not_not.mp hpos]
        rfl
    · intro hlen
      refine if_neg (not_not.mpr ?_)
      exact UInt32.toNat_inj.mp hlen.symm
  | true =>
    rw [if_neg (by simp), h.checkpoint]
    constructor
    · intro hnone
      split at hnone
      · cases hnone
      · next hlen => exact not_not.mp hlen
    · exact fun hlen => if_neg (not_not.mpr hlen)

/-- A worker whose layers are evaluated without a failure takes the spans that its shard takes. -/
theorem evalOnSession_evalWork {output : Bytes} (hbackend : state.backend ≠ .cpu)
    (hgraph : env.graphReset = true) (heval : env.eval = .done output)
    (hw : w.Carried state.ctxSize f) (h : t.Represents state.backend s) :
    ((∃ out, (evalOnSession state env f s).1 = .ok out) ↔ (t.evalWork w).1 = true) ∧
      (t.evalWork w).2.Represents state.backend (evalOnSession state env f s).2 := by
  obtain ⟨s', hprep, hrep⟩ := prepareSession_represents hbackend hgraph hw h
  have hhash := hrep.hash (prepareSession_valid hprep)
  have htime := timeline_represents hw hrep
  rw [evalOnSession_eq, hprep, Shard.evalWork]
  dsimp only
  generalize (if w.resetSession then t.reset else t) = t' at hrep hhash htime ⊢
  rw [hhash, hw.prefixHash]
  by_cases hagree : distTokenHashPrefix t'.checkpoint = w.prefixHash
  · rw [if_neg (not_not.mpr hagree), sliceEval.eq_def]
    by_cases hlen : t'.checkpoint.length = w.pos0
    · have htakes : ¬(distTokenHashPrefix t'.checkpoint ≠ w.prefixHash ∨ t'.checkpoint.length ≠ w.pos0) := by
        rw [not_or, not_not, not_not]
        exact ⟨hagree, hlen⟩
      rw [htime.mpr hlen]
      dsimp only
      rw [if_neg hbackend, heval, if_neg htakes]
      refine ⟨iff_of_true ⟨_, rfl⟩ rfl, ?_⟩
      constructor
      · dsimp only
        rw [hrep.checkpoint, hw.tokens]
      · dsimp only
        rw [hrep.kv, hw.pos0, hw.tokens]
      · intro _
        dsimp only
        rw [hw.resultHash, distTokenHashPrefix_append, hagree]
      · exact fun hfalse => by cases hfalse
      · exact hrep.recurrent
    · have hrefuses : distTokenHashPrefix t'.checkpoint ≠ w.prefixHash ∨ t'.checkpoint.length ≠ w.pos0 :=
        .inr hlen
      rw [if_pos hrefuses]
      cases hnone : sliceCheckTimeline state.ctxSize s'.session f.tokens f.work.pos0 with
      | none => exact absurd (htime.mp hnone) hlen
      | some err =>
        refine ⟨iff_of_false (by rintro ⟨_, hout⟩; cases hout) Bool.false_ne_true, ?_⟩
        exact ⟨hrep.checkpoint, hrep.kv, fun hfalse => (by cases hfalse), hrep.start, hrep.recurrent⟩
  · have hrefuses : distTokenHashPrefix t'.checkpoint ≠ w.prefixHash ∨ t'.checkpoint.length ≠ w.pos0 :=
      .inl hagree
    rw [if_pos hagree, if_pos hrefuses]
    exact ⟨iff_of_false (by rintro ⟨_, hout⟩; cases hout) Bool.false_ne_true, hrep⟩

end Worker

/-! ## What a span does to the shards -/

namespace Shard
variable {cp ts us : List UInt32} {s : Shard}

/-- The shard passes the comparison with a prefix. -/
def Matches (cp : List UInt32) (s : Shard) : Prop :=
  distTokenHashPrefix s.checkpoint = distTokenHashPrefix cp ∧ s.checkpoint.length = cp.length

instance (cp : List UInt32) (s : Shard) : Decidable (s.Matches cp) := inferInstanceAs (Decidable (_ ∧ _))

/-- The shard stands for its checkpoint or for nothing. -/
def Honest (s : Shard) : Prop := ∀ ts, s.kv = some ts → ts = s.checkpoint

def extend (ts : List UInt32) (s : Shard) : Shard :=
  { s with checkpoint := s.checkpoint ++ ts, kv := s.kv.map (· ++ ts) }

theorem extend_nil : s.extend [] = s := by
  obtain ⟨checkpoint, kv, recurrent⟩ := s
  cases kv <;> simp [extend]

theorem extend_extend : (s.extend ts).extend us = s.extend (ts ++ us) := by
  obtain ⟨checkpoint, kv, recurrent⟩ := s
  cases kv <;> simp [extend]

theorem Honest.extend (h : s.Honest) (ts : List UInt32) : (s.extend ts).Honest := by
  intro us hus
  obtain ⟨vs, hvs, rfl⟩ := Option.map_eq_some_iff.mp hus
  rw [h vs hvs]
  rfl

theorem honest_reset : s.reset.Honest := by
  intro ts hts
  rw [reset] at hts
  dsimp only at hts
  split at hts <;> cases hts
  rfl

theorem matches_reset : s.reset.Matches [] := ⟨rfl, rfl⟩

theorem Matches.extend (h : s.Matches cp) (ts : List UInt32) : (s.extend ts).Matches (cp ++ ts) := by
  obtain ⟨hhash, hlen⟩ := h
  constructor
  · rw [Shard.extend, distTokenHashPrefix_append, distTokenHashPrefix_append, hhash]
  · rw [Shard.extend, List.length_append, List.length_append, hlen]

theorem evalWork_matches (hs : s.Honest) (h : s.Matches cp) (ts : List UInt32) :
    s.evalWork ⟨ts, cp.length, distTokenHashPrefix cp, false⟩ = (true, s.extend ts) := by
  have hkv : (s.kv.bind fun us => if us.length = cp.length then some (us ++ ts) else none) =
      s.kv.map (· ++ ts) := by
    cases hkv : s.kv with
    | none => rfl
    | some us =>
      rw [hs us hkv]
      exact if_pos h.2
  rw [evalWork, if_neg Bool.false_ne_true]
  dsimp only
  rw [if_neg (by rw [not_or, not_not, not_not]; exact h), hkv]
  rfl

theorem evalWork_refused (h : ¬s.Matches cp) (ts : List UInt32) :
    s.evalWork ⟨ts, cp.length, distTokenHashPrefix cp, false⟩ = (false, s) := by
  rw [evalWork, if_neg Bool.false_ne_true]
  exact if_pos (not_and_or.mp h)

theorem evalWork_reset (ts : List UInt32) :
    s.evalWork ⟨ts, 0, tokenHashInit, true⟩ = (true, s.reset.extend ts) := by
  have h := evalWork_matches (s := s.reset) honest_reset matches_reset ts
  rw [← h, evalWork, evalWork, if_pos rfl, if_neg Bool.false_ne_true]
  rfl

/-- A reset leaves an empty shard, unless it is one that it does not clear. -/
theorem reset_kv : s.reset.kv = some [] ↔ (s.recurrent = true → s.kv = some []) := by
  obtain ⟨checkpoint, kv, recurrent⟩ := s
  cases recurrent <;> simp [reset]

end Shard

section Route
variable {cp ts : List UInt32} {ss : List Shard}

theorem evalRoute_matches (hs : ∀ s ∈ ss, s.Honest ∧ s.Matches cp) (ts : List UInt32) :
    evalRoute ⟨ts, cp.length, distTokenHashPrefix cp, false⟩ ss = (true, ss.map (Shard.extend ts)) := by
  induction ss with
  | nil => rfl
  | cons s ss ih =>
    obtain ⟨hhonest, hmatches⟩ := hs s List.mem_cons_self
    rw [evalRoute, Shard.evalWork_matches hhonest hmatches,
      ih fun t ht => hs t (List.mem_cons_of_mem s ht)]
    rfl

theorem evalRoute_reset (ts : List UInt32) (ss : List Shard) :
    evalRoute ⟨ts, 0, tokenHashInit, true⟩ ss = (true, ss.map fun s => s.reset.extend ts) := by
  induction ss with
  | nil => rfl
  | cons s ss ih =>
    rw [evalRoute, Shard.evalWork_reset, ih]
    rfl

/-- A refused span can be replayed: no worker in front of the one that refuses it is recurrent, and
the recurrent shards behind are empty. -/
def Replayable (cp : List UInt32) : List Shard → Prop
  | [] => False
  | s :: ss =>
    if s.Matches cp then s.recurrent = false ∧ Replayable cp ss
    else ∀ t ∈ s :: ss, t.recurrent = true → t.kv = some []

theorem not_replayable (h : ∀ s ∈ ss, s.Matches cp) : ¬Replayable cp ss := by
  induction ss with
  | nil => exact id
  | cons s ss ih =>
    rw [Replayable, if_pos (h s List.mem_cons_self)]
    exact fun hr => ih (fun t ht => h t (List.mem_cons_of_mem s ht)) hr.2

/-- A span that some worker refuses is refused, and what it leaves is cleared by a reset exactly when
it can be replayed. -/
theorem evalRoute_refused (hs : ∀ s ∈ ss, s.Honest) (hts : ts ≠ []) (h : ¬∀ s ∈ ss, s.Matches cp) :
    (evalRoute ⟨ts, cp.length, distTokenHashPrefix cp, false⟩ ss).1 = false ∧
      ((∀ s ∈ (evalRoute ⟨ts, cp.length, distTokenHashPrefix cp, false⟩ ss).2, s.reset.kv = some []) ↔
        Replayable cp ss) := by
  induction ss with
  | nil => exact absurd (fun s hs => nomatch hs) h
  | cons s ss ih =>
    by_cases hmatches : s.Matches cp
    · have hrest : ¬∀ t ∈ ss, t.Matches cp := by
        intro hall
        apply h
        intro t ht
        cases ht with
        | head => exact hmatches
        | tail _ ht => exact hall t ht
      obtain ⟨hfalse, hiff⟩ := ih (fun t ht => hs t (List.mem_cons_of_mem s ht)) hrest
      have hextended : (s.extend ts).reset.kv = some [] ↔ s.recurrent = false := by
        rw [Shard.reset_kv, Shard.extend]
        dsimp only
        cases s.kv <;> cases s.recurrent <;> simp [hts]
      rw [evalRoute, Shard.evalWork_matches (hs s List.mem_cons_self) hmatches, Replayable,
        if_pos hmatches]
      refine ⟨hfalse, ?_⟩
      rw [List.forall_mem_cons, hextended, hiff]
    · rw [evalRoute, Shard.evalWork_refused hmatches, Replayable, if_neg hmatches]
      refine ⟨rfl, forall₂_congr fun t _ => Shard.reset_kv⟩

end Route

/-! ## Prefill on shards that match -/

namespace Recovery
variable {c : Recovery} {s : Coordinator} {prompt ts : List UInt32} {pos start : Nat} {reset : Bool}

/-- The shards pass the comparison with the checkpoint of the coordinator. -/
structure InStep (s : Coordinator) : Prop where
  isOpen : s.isOpen = true
  shards : ∀ t ∈ s.shards, t.Honest ∧ t.Matches s.checkpoint

/-- The coordinator when the next tokens have been evaluated everywhere. -/
def advance (ts : List UInt32) (s : Coordinator) : Coordinator :=
  { s with checkpoint := s.checkpoint ++ ts, shards := s.shards.map (Shard.extend ts) }

theorem InStep.advance (h : InStep s) (ts : List UInt32) : InStep (advance ts s) := by
  refine ⟨h.isOpen, fun t ht => ?_⟩
  obtain ⟨u, hu, rfl⟩ := List.mem_map.mp ht
  obtain ⟨hhonest, hmatches⟩ := h.shards u hu
  exact ⟨hhonest.extend ts, hmatches.extend ts⟩

theorem advance_advance (ts us : List UInt32) : advance us (advance ts s) = advance (ts ++ us) s := by
  simp only [advance, List.append_assoc, List.map_map]
  congr 1
  exact List.map_congr_left fun t _ => Shard.extend_extend

/-- What the workers make of a span decides about it. -/
def spanResult (s : Coordinator) (checkpoint : List UInt32) : Bool × List Shard → RecvRc × Coordinator
  | (true, shards) => (.ok, { s with checkpoint, shards })
  | (false, shards) => (.remoteError, { s with checkpoint, shards })

theorem evalSpan_next (hopen : s.isOpen = true) (ts : List UInt32) :
    s.evalSpan ts s.checkpoint.length false = spanResult s (s.checkpoint ++ ts)
      (evalRoute ⟨ts, s.checkpoint.length, distTokenHashPrefix s.checkpoint, false⟩ s.shards) := by
  obtain ⟨checkpoint, shards, isOpen⟩ := s
  cases hopen
  cases shards with
  | nil => simp [Coordinator.evalSpan, evalRoute, spanResult]
  | cons t us =>
    simp only [Coordinator.evalSpan, Bool.false_eq_true, false_and, if_false, not_false_eq_true,
      true_and, Nat.lt_irrefl, List.take_length, ne_eq, not_true_eq_false, List.isEmpty_cons]
    split <;> next heq => rw [heq]; rfl

theorem evalSpan_reset (hopen : s.isOpen = true) (ts : List UInt32) :
    s.evalSpan ts 0 true = spanResult s ts (evalRoute ⟨ts, 0, tokenHashInit, true⟩ s.shards) := by
  obtain ⟨checkpoint, shards, isOpen⟩ := s
  cases hopen
  cases shards with
  | nil => simp [Coordinator.evalSpan, evalRoute, spanResult]
  | cons t us =>
    simp only [Coordinator.evalSpan, if_true, ne_eq, not_true_eq_false, and_false, false_and, if_false,
      List.length_nil, List.isEmpty_cons, Bool.false_eq_true, List.nil_append]
    split <;> next heq => rw [heq]; rfl

theorem evalSpan_inStep (h : InStep s) (ts : List UInt32) :
    s.evalSpan ts s.checkpoint.length false = (.ok, advance ts s) := by
  rw [evalSpan_next h.isOpen, evalRoute_matches h.shards]
  rfl

theorem chunk_append {chunk : Nat} :
    (prompt.drop pos).take chunk ++ prompt.drop (pos + chunk) = prompt.drop pos := by
  rw [← List.drop_drop, List.take_append_drop]

/-- What is left of a transcript is evaluated span by span. -/
theorem spanLoop_inStep (h : InStep s) (hcheckpoint : s.checkpoint = prompt.take pos)
    (hpos : pos ≤ prompt.length) (hreset : (reset && decide (pos = 0)) = false) :
    c.spanLoop prompt reset pos s = (.ok, advance (prompt.drop pos) s) := by
  induction hleft : prompt.length - pos using Nat.strongRecOn generalizing pos s with
  | _ left ih =>
    have hlen : s.checkpoint.length = pos := by
      rw [hcheckpoint, List.length_take_of_le hpos]
    rw [spanLoop]
    by_cases hlt : pos < prompt.length
    · have hcap := c.cap_pos
      have hspan := evalSpan_inStep h ((prompt.drop pos).take (min (prompt.length - pos) c.chunkCap))
      rw [hlen] at hspan
      rw [if_pos hlt]
      dsimp only
      rw [hreset, hspan]
      dsimp only
      rw [ih _ (by omega) (h.advance _) _ (by omega) _ rfl, advance_advance, chunk_append]
      · rw [advance]
        dsimp only
        rw [hcheckpoint, ← List.take_add]
      · rw [decide_eq_false (by omega), Bool.and_false]
    · have hend : pos = prompt.length := by omega
      have hid : s.shards.map (Shard.extend []) = s.shards := by
        conv_rhs => rw [← List.map_id s.shards]
        exact List.map_congr_left fun t _ => Shard.extend_nil
      rw [if_neg hlt, hend, List.drop_length, advance, List.append_nil, hid]

theorem evalFrames_inStep {reached : Nat} {ss : List Shard}
    (h : ∀ t ∈ ss, t.Honest ∧ t.Matches (prompt.take pos)) (hpos : pos ≤ prompt.length)
    (hreset : reset = true → start < pos) :
    evalFrames reached (c.frames prompt reset start pos) ss =
      (true, ss.map (Shard.extend (prompt.drop pos))) := by
  induction hleft : prompt.length - pos using Nat.strongRecOn generalizing pos ss with
  | _ left ih =>
    rw [frames]
    by_cases hlt : pos < prompt.length
    · have hcap := c.cap_pos
      have hflag : (reset && decide (pos = start)) = false := by
        cases reset with
        | false => rfl
        | true => exact decide_eq_false (Nat.ne_of_gt (hreset rfl))
      have hroute := evalRoute_matches h ((prompt.drop pos).take (min (prompt.length - pos) c.chunkCap))
      rw [List.length_take_of_le hpos] at hroute
      rw [if_pos hlt]
      dsimp only
      rw [hflag, evalFrames, hroute]
      dsimp only
      rw [ih _ (by omega) _ (by omega) (fun hr => by have := hreset hr; omega) rfl, List.map_map]
      · congr 1
        apply List.map_congr_left
        intro t _
        exact Shard.extend_extend.trans (congrArg (fun ts => t.extend ts) chunk_append)
      · intro t ht
        obtain ⟨u, hu, rfl⟩ := List.mem_map.mp ht
        obtain ⟨hhonest, hmatches⟩ := h u hu
        rw [List.take_add]
        exact ⟨hhonest.extend _, hmatches.extend _⟩
    · have hend : pos = prompt.length := by omega
      rw [if_neg hlt, evalFrames, hend, List.drop_length]
      conv_lhs => rw [← List.map_id ss]
      congr 1
      exact List.map_congr_left fun t _ => Shard.extend_nil.symm

/-! ## Prefill from the start -/

/-- The coordinator when a transcript has been evaluated behind a reset. -/
def replayed (ts : List UInt32) (s : Coordinator) : Coordinator :=
  { s with checkpoint := ts, shards := s.shards.map fun t => t.reset.extend ts }

theorem inStep_replayed (hopen : s.isOpen = true) (ts : List UInt32) : InStep (replayed ts s) := by
  refine ⟨hopen, fun t ht => ?_⟩
  obtain ⟨u, -, rfl⟩ := List.mem_map.mp ht
  exact ⟨Shard.honest_reset.extend ts, Shard.matches_reset.extend ts⟩

theorem advance_replayed (ts us : List UInt32) : advance us (replayed ts s) = replayed (ts ++ us) s := by
  simp only [advance, replayed, List.map_map]
  congr 1
  exact List.map_congr_left fun t _ => Shard.extend_extend

theorem spanLoop_start (hopen : s.isOpen = true) (hne : prompt ≠ []) :
    c.spanLoop prompt true 0 s = (.ok, replayed prompt s) := by
  have hlt : 0 < prompt.length := List.length_pos_of_ne_nil hne
  have hcap := c.cap_pos
  rw [spanLoop, if_pos hlt]
  dsimp only
  rw [decide_eq_true rfl, Bool.and_true, evalSpan_reset hopen, evalRoute_reset]
  change c.spanLoop prompt true (0 + min (prompt.length - 0) c.chunkCap)
    (replayed ((prompt.drop 0).take (min (prompt.length - 0) c.chunkCap)) s) = _
  rw [spanLoop_inStep (inStep_replayed hopen _), advance_replayed, chunk_append, List.drop_zero]
  · rw [Nat.zero_add, List.drop_zero]
    rfl
  · omega
  · rw [decide_eq_false (by omega), Bool.and_false]

theorem evalFrames_start {reached : Nat} {ss : List Shard} (hne : prompt ≠ []) :
    evalFrames reached (c.frames prompt true 0 0) ss =
      (true, ss.map fun t => t.reset.extend prompt) := by
  have hlt : 0 < prompt.length := List.length_pos_of_ne_nil hne
  have hcap := c.cap_pos
  rw [frames, if_pos hlt]
  dsimp only
  rw [decide_eq_true rfl, Bool.and_true, evalFrames]
  change (match evalRoute ⟨_, 0, tokenHashInit, true⟩ ss with
    | (true, ss) => evalFrames reached _ ss
    | (false, ss) => _) = _
  rw [evalRoute_reset]
  dsimp only
  rw [evalFrames_inStep _ (by omega) (fun _ => by omega), List.map_map]
  · congr 1
    apply List.map_congr_left
    intro t _
    exact Shard.extend_extend.trans (congrArg (fun ts => t.reset.extend ts)
      (chunk_append.trans List.drop_zero))
  · intro t ht
    obtain ⟨u, -, rfl⟩ := List.mem_map.mp ht
    rw [Nat.zero_add, List.drop_zero]
    exact ⟨Shard.honest_reset.extend _, Shard.matches_reset.extend _⟩

theorem prefillPrompt_open {race : Race} (hopen : s.isOpen = true) (hne : prompt ≠ []) :
    c.prefillPrompt race prompt s = (.ok, replayed prompt s) := by
  rw [prefillPrompt]
  split
  · rw [prefillPromptPipelined, if_neg (by rw [hopen]; simp), evalFrames_start hne]
    rfl
  · exact spanLoop_start hopen hne

/-- Nothing is evaluated on a connection that has been shut down. -/
theorem prefillPrompt_closed (race : Race) (hclosed : s.isOpen = false)
    (hpipeline : c.canPipelinePrefill s prompt.length = true) :
    (c.prefillPrompt race prompt s).1 = .transportError := by
  rw [prefillPrompt, if_pos hpipeline, prefillPromptPipelined, if_pos (by rw [hclosed]; simp)]

theorem recovered_replayed (ts : List UInt32) :
    Recovered (true, replayed ts s) ↔ ∀ t ∈ s.shards, t.reset.kv = some [] := by
  have hkv : ∀ t : Shard, (t.reset.extend ts).kv = some ts ↔ t.reset.kv = some [] := by
    intro t
    rw [Shard.extend, Shard.reset]
    dsimp only
    split <;> simp
  simp only [Recovered, replayed, List.forall_mem_map, hkv, true_and]

theorem recovered_advance (ts : List UInt32) :
    Recovered (true, advance ts s) ↔ ∀ t ∈ s.shards, t.kv = some s.checkpoint := by
  have hkv : ∀ t : Shard, (t.extend ts).kv = some (s.checkpoint ++ ts) ↔ t.kv = some s.checkpoint := by
    intro t
    rw [Shard.extend]
    cases t.kv <;> simp
  simp only [Recovered, advance, List.forall_mem_map, hkv, true_and]

/-! ## When the shards are recovered -/

/-- Before a call every shard stands for some prefix. -/
def Stale (s : Coordinator) : Prop := ∀ t ∈ s.shards, t.kv = some t.checkpoint

/-- When a sync recovers: it replays from the start and can clear the shards, or the shards stand for
the checkpoint, or the suffix is not pipelined and a worker refuses it. -/
def SyncRecovers (c : Recovery) (valid : Bool) (prompt : List UInt32) (s : Coordinator) : Prop :=
  prompt ≠ [] ∧
    if valid ∧ s.checkpoint <+: prompt then
      (∀ t ∈ s.shards, t.kv = some s.checkpoint) ∨
        s.checkpoint.length < prompt.length ∧
          c.canPipelinePrefill s (prompt.length - s.checkpoint.length) = false ∧
          Replayable s.checkpoint s.shards
    else ∀ t ∈ s.shards, t.recurrent = true → t.kv = some []

def EvalRecovers (s : Coordinator) : Prop :=
  (∀ t ∈ s.shards, t.kv = some s.checkpoint) ∨ Replayable s.checkpoint s.shards

theorem Stale.honest (h : Stale s) : ∀ t ∈ s.shards, t.Honest := by
  intro t ht ts hts
  rw [h t ht] at hts
  exact (Option.some.inj hts).symm

theorem Stale.matches (h : Stale s) (hall : ∀ t ∈ s.shards, t.kv = some s.checkpoint) :
    ∀ t ∈ s.shards, t.Matches s.checkpoint := by
  intro t ht
  have heq := hall t ht
  rw [h t ht] at heq
  rw [Shard.Matches, Option.some.inj heq]
  exact ⟨rfl, rfl⟩

theorem evalSpan_refused (hopen : s.isOpen = true) (hstale : Stale s) (hts : ts ≠ [])
    (hrefused : ¬∀ t ∈ s.shards, t.Matches s.checkpoint) :
    ∃ shards, s.evalSpan ts s.checkpoint.length false =
        (.remoteError, { s with checkpoint := s.checkpoint ++ ts, shards }) ∧
      ((∀ t ∈ shards, t.reset.kv = some []) ↔ Replayable s.checkpoint s.shards) := by
  obtain ⟨hfalse, hiff⟩ := evalRoute_refused hstale.honest hts hrefused
  refine ⟨_, ?_, hiff⟩
  rw [evalSpan_next hopen]
  cases hroute : evalRoute ⟨ts, s.checkpoint.length, distTokenHashPrefix s.checkpoint, false⟩ s.shards with
  | mk ok shards =>
    rw [hroute] at hfalse
    cases hfalse
    rfl

/-- A refused span is recovered by the replay exactly when it can be replayed. -/
theorem recovered_remoteError {race : Race} {s' : Coordinator} (hopen : s'.isOpen = true)
    (hne : prompt ≠ []) : Recovered (c.orRebuild race prompt (.remoteError, s')) ↔
      ∀ t ∈ s'.shards, t.reset.kv = some [] := by
  have hreplay : c.orRebuild race prompt (.remoteError, s') = (true, replayed prompt s') := by
    change c.rebuildFromTranscript race prompt false s' = _
    rw [rebuildFromTranscript, if_neg Bool.false_ne_true, prefillPrompt_open hopen hne]
  rw [hreplay, recovered_replayed]

theorem recovered_ok {race : Race} {s' : Coordinator} :
    Recovered (c.orRebuild race prompt (.ok, s')) ↔ Recovered (true, s') := Iff.rfl

theorem evalRecovers_iff {race : Race} (hopen : s.isOpen = true) (hstale : Stale s) (token : UInt32) :
    Recovered (c.ds4DistSessionEval race token s) ↔ EvalRecovers s := by
  rw [ds4DistSessionEval, EvalRecovers]
  by_cases hmatches : ∀ t ∈ s.shards, t.Matches s.checkpoint
  · have hstep : InStep s := ⟨hopen, fun t ht => ⟨hstale.honest t ht, hmatches t ht⟩⟩
    rw [evalSpan_inStep hstep]
    change Recovered (true, advance [token] s) ↔ _
    rw [recovered_advance]
    exact ⟨.inl, fun h => h.resolve_right (not_replayable hmatches)⟩
  · obtain ⟨shards, hspan, hiff⟩ := evalSpan_refused hopen hstale (List.cons_ne_nil token []) hmatches
    rw [hspan]
    -- the checkpoint has noted the token, so that the replayed transcript ends in it twice
    change Recovered (c.orRebuild race (s.checkpoint ++ [token] ++ [token])
      (.remoteError, { s with checkpoint := s.checkpoint ++ [token], shards })) ↔ _
    rw [recovered_remoteError (by exact hopen) (List.append_ne_nil_of_right_ne_nil _ (by simp)), hiff]
    exact ⟨.inr, fun h => h.resolve_left fun hall => hmatches (hstale.matches hall)⟩

theorem length_evalRoute (w : Span) (ss : List Shard) : (evalRoute w ss).2.length = ss.length := by
  induction ss with
  | nil => rfl
  | cons t ss ih =>
    rw [evalRoute]
    split
    · rfl
    · rw [List.length_cons, ih, List.length_cons]

theorem length_foldl_evalRoute (ws : List Span) (ss : List Shard) :
    (ws.foldl (fun ss w => (evalRoute w ss).2) ss).length = ss.length := by
  induction ws generalizing ss with
  | nil => rfl
  | cons w ws ih => rw [List.foldl_cons, ih, length_evalRoute]

/-- A pipelined prefill whose first frame is refused cannot be replayed. -/
theorem pipelined_fails (race : Race) (hopen : s.isOpen = true) (hstale : Stale s)
    (hagree : s.checkpoint = prompt.take s.checkpoint.length)
    (hlt : s.checkpoint.length < prompt.length)
    (hpipeline : c.canPipelinePrefill s (prompt.length - s.checkpoint.length) = true)
    (hrefused : ¬∀ t ∈ s.shards, t.Matches s.checkpoint) :
    (c.orRebuild race prompt
      (c.prefillPromptPipelined race prompt s.checkpoint.length false s)).1 = false := by
  have hcap := c.cap_pos
  have hts : (prompt.drop s.checkpoint.length).take
      (min (prompt.length - s.checkpoint.length) c.chunkCap) ≠ [] := by
    apply List.ne_nil_of_length_pos
    rw [List.length_take, List.length_drop]
    omega
  obtain ⟨hfalse, -⟩ := evalRoute_refused hstale.honest hts hrefused
  obtain ⟨shards, hframes, hlength⟩ : ∃ shards,
      evalFrames race.reached (c.frames prompt false s.checkpoint.length s.checkpoint.length) s.shards =
        (false, shards) ∧ shards.length = s.shards.length := by
    rw [frames, if_pos hlt]
    dsimp only
    rw [Bool.false_and, ← hagree, evalFrames]
    cases hroute : evalRoute ⟨_, s.checkpoint.length, distTokenHashPrefix s.checkpoint, false⟩ s.shards with
    | mk ok shards =>
      have hlength := congrArg (fun r => r.2.length) hroute
      dsimp only at hlength
      rw [length_evalRoute] at hlength
      rw [hroute] at hfalse
      cases hfalse
      exact ⟨_, rfl, (length_foldl_evalRoute _ _).trans hlength.symm⟩
  rw [prefillPromptPipelined, if_neg (by rw [hopen]; simp), hframes]
  have hpipeline' : c.canPipelinePrefill
      { checkpoint := prompt.take race.evaluated, shards, isOpen := false } prompt.length = true := by
    simp only [canPipelinePrefill, Bool.and_eq_true, decide_eq_true_eq, Bool.not_eq_true',
      List.isEmpty_eq_false_iff, ← List.length_pos_iff] at hpipeline ⊢
    exact ⟨⟨hpipeline.1.1, by omega⟩, by omega⟩
  have hclosed := prefillPrompt_closed race rfl hpipeline'
  change (c.rebuildFromTranscript race prompt false _).1 = false
  rw [rebuildFromTranscript, if_neg Bool.false_ne_true]
  cases hprefill : c.prefillPrompt race prompt
      { checkpoint := prompt.take race.evaluated, shards, isOpen := false } with
  | mk rc s' =>
    rw [hprefill] at hclosed
    cases hclosed
    rfl

theorem syncRecovers_iff {race : Race} (hopen : s.isOpen = true) (hstale : Stale s) (valid : Bool)
    (prompt : List UInt32) :
    Recovered (c.ds4DistSessionSync race valid prompt s) ↔ c.SyncRecovers valid prompt s := by
  rw [ds4DistSessionSync, SyncRecovers]
  by_cases hne : prompt = []
  · rw [if_pos hne]
    exact ⟨fun h => (nomatch h.1), fun h => absurd hne h.1⟩
  · rw [if_neg hne]
    by_cases hextends : valid = true ∧ s.checkpoint <+: prompt
    · have hagree : s.checkpoint = prompt.take s.checkpoint.length :=
        (List.prefix_iff_eq_take.mp hextends.2)
      have hle := hextends.2.length_le
      rw [if_pos hextends, if_pos hextends]
      by_cases hlen : s.checkpoint.length = prompt.length
      · rw [if_pos hlen]
        exact ⟨fun h => ⟨hne, .inl h.2⟩, fun h => ⟨rfl, h.2.resolve_right fun hlt => by omega⟩⟩
      · have hlt : s.checkpoint.length < prompt.length := by omega
        rw [if_neg hlen]
        dsimp only
        by_cases hmatches : ∀ t ∈ s.shards, t.Matches s.checkpoint
        · have hstep : InStep s := ⟨hopen, fun t ht => ⟨hstale.honest t ht, hmatches t ht⟩⟩
          have hpipelined : c.prefillPromptPipelined race prompt s.checkpoint.length false s =
              (.ok, advance (prompt.drop s.checkpoint.length) s) := by
            rw [prefillPromptPipelined, if_neg (by rw [hopen]; simp), evalFrames_inStep _ hle (by simp)]
            · rw [advance]
              have happend : s.checkpoint ++ prompt.drop s.checkpoint.length = prompt := by
                conv_lhs => rw [hagree, List.length_take_of_le hle]
                exact List.take_append_drop _ _
              rw [happend]
            · rw [← hagree]
              exact hstep.shards
          rw [spanLoop_inStep hstep hagree hle (Bool.false_and _), hpipelined, ite_self, recovered_ok,
            recovered_advance]
          exact ⟨fun h => ⟨hne, .inl h⟩,
            fun h => h.2.resolve_right fun hr => not_replayable hmatches hr.2.2⟩
        · have hkv : ¬∀ t ∈ s.shards, t.kv = some s.checkpoint := fun hall =>
            hmatches (hstale.matches hall)
          cases hpipeline : c.canPipelinePrefill s (prompt.length - s.checkpoint.length) with
          | true =>
            rw [if_pos rfl]
            have hfails := pipelined_fails race hopen hstale hagree hlt hpipeline hmatches
            exact ⟨fun h => absurd (h.1.symm.trans hfails) (by simp),
              fun h => absurd (h.2.resolve_left hkv).2.1 (by simp)⟩
          | false =>
            have hcap := c.cap_pos
            have hts : (prompt.drop s.checkpoint.length).take
                (min (prompt.length - s.checkpoint.length) c.chunkCap) ≠ [] := by
              apply List.ne_nil_of_length_pos
              rw [List.length_take, List.length_drop]
              omega
            obtain ⟨shards, hspan, hiff⟩ := evalSpan_refused hopen hstale hts hmatches
            rw [if_neg Bool.false_ne_true, spanLoop, if_pos hlt]
            dsimp only
            rw [Bool.false_and, hspan]
            dsimp only
            rw [recovered_remoteError (by exact hopen) hne, hiff]
            exact ⟨fun h => ⟨hne, .inr ⟨hlt, rfl, h⟩⟩, fun h => (h.2.resolve_left hkv).2.2⟩
    · rw [if_neg hextends, if_neg hextends, prefillPrompt_open hopen hne, recovered_ok,
        recovered_replayed]
      simp only [Shard.reset_kv]
      exact ⟨fun h => ⟨hne, h⟩, And.right⟩

/-- A sync or a decode step recovers exactly under these conditions, whatever the shards hold and
however far the threads of a failing prefill get. -/
theorem recovers_iff (c : Recovery) (s : Coordinator) (hopen : s.isOpen = true) (hstale : Stale s)
    (race : Race) :
    (∀ valid prompt, Recovered (c.ds4DistSessionSync race valid prompt s) ↔
      c.SyncRecovers valid prompt s) ∧
      ∀ token, Recovered (c.ds4DistSessionEval race token s) ↔ EvalRecovers s :=
  ⟨syncRecovers_iff hopen hstale, evalRecovers_iff hopen hstale⟩

/-- Chunks of one token, one worker, and a prefix that is not the coordinator's. -/
def smallChunks : Recovery := ⟨1, true, Nat.one_pos⟩

def oneStale : Coordinator := ⟨[1], [⟨[5], some [5], false⟩], true⟩

theorem stale_oneStale : Stale oneStale := by
  intro t ht
  rw [List.mem_singleton.mp ht]

theorem oneStale_recovers :
    Recovered (smallChunks.ds4DistSessionEval ⟨0, 0⟩ 2 oneStale) ∧
      Recovered (smallChunks.ds4DistSessionSync ⟨0, 0⟩ true [1, 2] oneStale) := by
  obtain ⟨hsync, heval⟩ := recovers_iff smallChunks oneStale rfl stale_oneStale ⟨0, 0⟩
  have hreplayable : Replayable oneStale.checkpoint oneStale.shards := by
    rw [oneStale, Replayable, if_neg (by decide)]
    decide
  refine ⟨(heval 2).mpr (.inr hreplayable), (hsync true [1, 2]).mpr ⟨by decide, ?_⟩⟩
  rw [if_pos (by decide)]
  exact .inr ⟨by decide, by decide, hreplayable⟩

/-- An extension by two chunks is pipelined, and its replay finds the connection shut down. -/
theorem pipelined_extension_fails :
    ¬∀ (c : Recovery) (s : Coordinator) (race : Race) (valid : Bool) (prompt : List UInt32),
      s.isOpen = true → Stale s → prompt ≠ [] → (c.ds4DistSessionSync race valid prompt s).1 = true := by
  intro h
  have hok := h smallChunks oneStale ⟨0, 0⟩ true [1, 2, 3] rfl stale_oneStale (by decide)
  rw [ds4DistSessionSync, if_neg (by decide), if_pos (by decide), if_neg (by decide),
    if_pos (by decide)] at hok
  have hagree : oneStale.checkpoint = ([1, 2, 3] : List UInt32).take oneStale.checkpoint.length := rfl
  have hfails := pipelined_fails (c := smallChunks) ⟨0, 0⟩ rfl stale_oneStale hagree (by decide)
    (by decide) (by decide)
  exact absurd (hok.symm.trans hfails) (by decide)

end Recovery

end Ds4.Dist
