import Mathlib.Logic.Relation
import Ds4.Dist.FrameSync

/-!
# Work is evaluated on the prefix that it claims

A session keeps next to its shard the tokens of its checkpoint and a cached hash of them. `Sound` is
what the handlers keep of it: the shard stands for the checkpoint and a cached hash that is marked
valid is the hash of it, or the shard is lost and the checkpoint is not marked valid.
-/

namespace Ds4.Dist
open C Wire

namespace WorkerSession

/-- The shard stands for the checkpoint, and a hash that is marked valid belongs to it. A checkpoint
that is not marked valid is empty; only the CPU, which evaluates no slices, unmarks it. -/
structure Stands (backend : Backend) (s : WorkerSession) : Prop where
  shard : s.session.kv = some s.session.checkpoint
  hash : s.tokenHashValid = true → s.tokenHash = distTokenHashPrefix s.session.checkpoint
  start : s.session.checkpointValid = false → s.session.checkpoint = [] ∨ backend = .cpu

/-- The shard stands for nothing, and the checkpoint says so. -/
structure Lost (s : WorkerSession) : Prop where
  shard : s.session.kv = none
  checkpoint : s.session.checkpointValid = false

def Sound (backend : Backend) (s : WorkerSession) : Prop := s.Stands backend ∨ s.Lost

end WorkerSession

/-- What happens to the session in front of the comparison of the prefix. -/
def prepareSession (backend : Backend) (graphReset : Bool) (w : WorkFixed) (s : WorkerSession) :
    Bool × WorkerSession :=
  if w.resetSession then
    match sliceReset backend graphReset s.session with
    | (true, session) => (true, { s with session, tokenHash := tokenHashInit, tokenHashValid := true })
    | (false, session) => (false, { s with session })
  else if !s.tokenHashValid then
    (true, { s with tokenHash := distTokenHashPrefix s.session.checkpoint, tokenHashValid := true })
  else (true, s)

/-- The work is at position 0 and finds no shard: its session has lost it and is not reset, or the
reset leaves the recurrent state of an earlier prefix. -/
def StartsLost (backend : Backend) (w : WorkFixed) (s : WorkerSession) : Prop :=
  w.pos0 = 0 ∧
    if w.resetSession then backend = .glm true ∧ s.session.kv ≠ some [] else s.session.kv = none

/-- The comparison of the prefix is passed. -/
structure Passes (ctxSize : UInt32) (f : WorkFrame) (s : WorkerSession) : Prop where
  hash : s.tokenHash = f.work.prefixHash
  timeline : sliceCheckTimeline ctxSize s.session f.tokens f.work.pos0 = none

section Session
variable {backend : Backend} {graphReset : Bool} {ctxSize : UInt32} {w : WorkFixed} {f : WorkFrame}
  {s t : WorkerSession} {state state' : WorkerState} {env : Env}

theorem evalOnSession_eq (state : WorkerState) (env : Env) (f : WorkFrame) (s : WorkerSession) :
    evalOnSession state env f s =
      match prepareSession state.backend env.graphReset f.work s with
      | (false, s) => (.error (lit "layer-slice state reset failed"), s)
      | (true, s) =>
        if s.tokenHash ≠ f.work.prefixHash then (.error (lit "worker KV prefix hash mismatch"), s)
        else
          match sliceEval state.backend state.ctxSize env.eval s.session f.tokens f.work.pos0 with
          | (.error err, session) => (.error err, { s with session, tokenHashValid := false })
          | (.ok output, session) =>
            (.ok output, { s with session, tokenHash := f.work.resultHash, tokenHashValid := true }) :=
  rfl

theorem prepareSession_sessionId (h : prepareSession backend graphReset w s = (b, t)) :
    t.sessionId = s.sessionId := by
  rw [prepareSession] at h
  split at h
  · split at h <;> cases h <;> rfl
  · split at h <;> cases h <;> rfl

/-- Only a reset changes the shard in front of the comparison. -/
theorem prepareSession_session (h : prepareSession backend graphReset w s = (b, t))
    (hreset : w.resetSession = false) : t.session = s.session := by
  rw [prepareSession, if_neg (by simp [hreset])] at h
  split at h <;> cases h <;> rfl

theorem prepareSession_sound (h : prepareSession backend graphReset w s = (b, t)) (hs : s.Sound backend) :
    t.Sound backend := by
  rw [prepareSession] at h
  split at h
  · cases backend with
    | cpu =>
      cases h
      exact .inl ⟨rfl, fun _ => rfl, fun _ => .inl rfl⟩
    | deepseek =>
      cases graphReset with
      | false =>
        cases h
        exact .inr ⟨rfl, rfl⟩
      | true =>
        cases h
        exact .inl ⟨rfl, fun _ => rfl, fun _ => .inl rfl⟩
    | glm recurrent =>
      cases h
      by_cases hkv : (recurrent && s.session.kv ≠ some []) = true
      · exact .inr ⟨if_pos hkv, rfl⟩
      · exact .inl ⟨if_neg hkv, fun _ => rfl, fun _ => .inl rfl⟩
  · split at h
    · cases h
      obtain hs | hs := hs
      · exact .inl ⟨hs.shard, fun _ => rfl, hs.start⟩
      · exact .inr ⟨hs.shard, hs.checkpoint⟩
    · cases h
      exact hs

/-- A prepared session whose hash counts, unless it is lost. -/
theorem prepareSession_valid (h : prepareSession backend graphReset w s = (true, t)) :
    t.tokenHashValid = true := by
  rw [prepareSession] at h
  split at h
  · split at h <;> cases h
    rfl
  · split at h
    · cases h
      rfl
    · next hvalid =>
      cases h
      simpa using hvalid

theorem prepareSession_lost (h : prepareSession backend graphReset w s = (true, t))
    (hlost : t.session.kv = none) (hpos : w.pos0 = 0) : StartsLost backend w s := by
  refine ⟨hpos, ?_⟩
  rw [prepareSession] at h
  split at h
  · next hreset =>
    rw [if_pos hreset]
    cases backend with
    | cpu => cases h; cases hlost
    | deepseek =>
      cases graphReset with
      | false => cases h
      | true => cases h; cases hlost
    | glm recurrent =>
      cases h
      by_cases hkv : (recurrent && s.session.kv ≠ some []) = true
      · simp only [Bool.and_eq_true, decide_eq_true_eq] at hkv
        exact ⟨congrArg Backend.glm hkv.1, hkv.2⟩
      · dsimp only at hlost
        rw [if_neg hkv] at hlost
        cases hlost
  · next hreset =>
    rw [if_neg hreset]
    split at h <;> cases h <;> exact hlost

theorem sliceCheckTimeline_none {tokens : List UInt32} {pos0 : UInt32} {v : Slice}
    (h : sliceCheckTimeline ctxSize v tokens pos0 = none) :
    if v.checkpointValid then v.checkpoint.length = pos0.toNat else pos0 = 0 := by
  rw [sliceCheckTimeline] at h
  split at h
  · cases h
  · split at h
    · cases h
    · split at h
      · next hvalid =>
        rw [if_neg (by simpa using hvalid)]
        split at h
        · cases h
        · next hpos => exact not_not.mp hpos
      · next hvalid =>
        rw [if_pos (by simpa using hvalid)]
        split at h
        · cases h
        · next hlen => exact not_not.mp hlen

/-- Work that passes the comparison finds the shard of the prefix that it claims. -/
theorem Passes.stands (h : Passes ctxSize f t)
    (hprep : prepareSession backend graphReset f.work s = (true, t)) (hs : s.Sound backend)
    (hfair : ¬StartsLost backend f.work s) :
    t.Stands backend ∧ f.work.prefixHash = distTokenHashPrefix t.session.checkpoint ∧
      (backend ≠ .cpu → f.work.pos0.toNat = t.session.checkpoint.length) := by
  have htime := sliceCheckTimeline_none h.timeline
  obtain hstands | hlost := prepareSession_sound hprep hs
  · refine ⟨hstands, ?_, fun hcpu => ?_⟩
    · rw [← h.hash]
      exact hstands.hash (prepareSession_valid hprep)
    · cases hvalid : t.session.checkpointValid with
      | true =>
        rw [if_pos hvalid] at htime
        exact htime.symm
      | false =>
        rw [hvalid] at htime
        obtain hnil | hbackend := hstands.start hvalid
        · rw [hnil]
          exact congrArg UInt32.toNat htime
        · exact absurd hbackend hcpu
  · rw [hlost.checkpoint] at htime
    exact absurd (prepareSession_lost hprep hlost.shard htime) hfair

/-! ## The handlers keep the sessions sound -/

/-- An evaluation appends its tokens to a checkpoint that stands, or it is no longer marked valid. -/
theorem evalOnSession_sound {state : WorkerState} (hs : s.Sound state.backend)
    (hfair : ¬StartsLost state.backend f.work s)
    (hresult : distTokenHashUpdateSpan f.work.prefixHash f.tokens = f.work.resultHash) :
    (evalOnSession state env f s).2.Sound state.backend := by
  rw [evalOnSession_eq]
  cases hprep : prepareSession state.backend env.graphReset f.work s with
  | mk ok t =>
    cases ok with
    | false => exact prepareSession_sound hprep hs
    | true =>
      dsimp only
      split
      · exact prepareSession_sound hprep hs
      · next hhash =>
        have hprepared := prepareSession_sound hprep hs
        have hunmarked {u : WorkerSession} (hsession : u.session = t.session)
            (hvalid : u.tokenHashValid = false) : u.Sound state.backend := by
          obtain hstands | hlost := hprepared
          · refine .inl ⟨?_, fun h => ?_, ?_⟩
            · rw [hsession]
              exact hstands.shard
            · rw [hvalid] at h
              cases h
            · rw [hsession]
              exact hstands.start
          · refine .inr ⟨?_, ?_⟩
            · rw [hsession]
              exact hlost.shard
            · rw [hsession]
              exact hlost.checkpoint
        rw [sliceEval.eq_def]
        cases htime : sliceCheckTimeline state.ctxSize t.session f.tokens f.work.pos0 with
        | some err => exact hunmarked rfl rfl
        | none =>
          have hpasses : Passes state.ctxSize f t := ⟨not_not.mp hhash, htime⟩
          obtain ⟨hstands, hprefix, hpos⟩ := hpasses.stands hprep hs hfair
          dsimp only
          by_cases hcpu : state.backend = .cpu
          · rw [if_pos hcpu]
            exact .inl ⟨hstands.shard, fun h => (nomatch h), fun _ => .inr hcpu⟩
          · rw [if_neg hcpu]
            cases env.eval with
            | early err => exact hunmarked rfl rfl
            | late err => exact .inr ⟨rfl, rfl⟩
            | done output =>
              refine .inl ⟨?_, fun _ => ?_, fun h => nomatch h⟩
              · dsimp only
                rw [hstands.shard, Option.bind_some, if_pos (hpos hcpu).symm]
              · dsimp only
                rw [← hresult, hprefix, distTokenHashPrefix_append]

theorem sliceLoad_sound (outcome : Outcome) {tokens : List UInt32} {hash : UInt64}
    (hs : s.Sound backend) (hhash : hash = distTokenHashPrefix tokens) :
    match sliceLoad outcome s.session tokens with
    | (.ok (), session) =>
      ({ s with session, tokenHash := hash, tokenHashValid := true } : WorkerSession).Sound backend
    | (.error _, session) =>
      ({ s with session, tokenHashValid := false } : WorkerSession).Sound backend := by
  cases outcome with
  | early err =>
    obtain hs | hs := hs
    · exact .inl ⟨hs.shard, fun h => (nomatch h), hs.start⟩
    · exact .inr ⟨hs.shard, hs.checkpoint⟩
  | late err => exact .inr ⟨rfl, rfl⟩
  | done output => exact .inl ⟨rfl, fun _ => hhash, fun h => nomatch h⟩

end Session

/-! ## Sessions of a worker -/

namespace WorkerState

def Sound (state : WorkerState) : Prop := ∀ s ∈ state.sessions, s.Sound state.backend

variable {state state' : WorkerState} {env : Env} {id : UInt64} {s t : WorkerSession}

theorem find_some (h : state.find id = some s) : s ∈ state.sessions ∧ s.sessionId = id :=
  ⟨List.mem_of_find?_eq_some h, by simpa using List.find?_some h⟩

/-- The session that a handler works on: the one of the id, or a fresh one in front of the others. -/
theorem getSession_ok (h : state.getSession env id = (.ok s, state')) :
    (state.find id = some s ∧ state' = state) ∨
      state.find id = none ∧ s = ⟨id, 0, false, .fresh⟩ ∧
        state' = { state with sessions := s :: state.sessions } := by
  rw [getSession] at h
  split at h
  · next hfind =>
    cases h
    exact .inl ⟨hfind, rfl⟩
  · next hfind =>
    split at h
    · cases h
    · split at h
      · cases h
      · cases h
        exact .inr ⟨hfind, rfl, rfl⟩

theorem getSession_error {err : Bytes} (h : state.getSession env id = (.error err, state')) :
    state' = state := by
  rw [getSession] at h
  split at h
  · cases h
  · split at h
    · cases h
      rfl
    · split at h <;> cases h
      rfl

theorem getSession_backend (h : state.getSession env id = (.ok s, state')) :
    state'.backend = state.backend ∧ state'.ctxSize = state.ctxSize := by
  obtain ⟨-, rfl⟩ | ⟨-, -, rfl⟩ := getSession_ok h <;> exact ⟨rfl, rfl⟩

theorem getSession_find (h : state.getSession env id = (.ok s, state')) :
    state'.find id = some s ∧ s.sessionId = id := by
  obtain ⟨hfind, rfl⟩ | ⟨hfind, rfl, rfl⟩ := getSession_ok h
  · exact ⟨hfind, (find_some hfind).2⟩
  · exact ⟨List.find?_cons_of_pos (decide_eq_true rfl), rfl⟩

theorem getSession_find_ne {other : UInt64} (h : state.getSession env id = (.ok s, state'))
    (hne : other ≠ id) : state'.find other = state.find other := by
  obtain ⟨-, rfl⟩ | ⟨-, rfl, rfl⟩ := getSession_ok h
  · rfl
  · exact List.find?_cons_of_neg (by simpa using Ne.symm hne)

theorem fresh_sound (backend : Backend) :
    (⟨id, 0, false, .fresh⟩ : WorkerSession).Sound backend :=
  .inl ⟨rfl, fun h => (nomatch h), fun _ => .inl rfl⟩

theorem getSession_sound (h : state.getSession env id = (.ok s, state')) (hs : state.Sound) :
    state'.Sound ∧ s.Sound state.backend := by
  obtain ⟨hfind, rfl⟩ | ⟨-, rfl, rfl⟩ := getSession_ok h
  · exact ⟨hs, hs s (find_some hfind).1⟩
  · refine ⟨fun t ht => ?_, fresh_sound _⟩
    cases ht with
    | head => exact fresh_sound _
    | tail _ ht => exact hs t ht

theorem put_sound (hs : state.Sound) (ht : t.Sound state.backend) : (state.put t).Sound := by
  intro u hu
  obtain ⟨v, hv, rfl⟩ := List.mem_map.mp hu
  split
  · exact ht
  · exact hs v hv

@[simp] theorem put_backend (state : WorkerState) (t : WorkerSession) :
    (state.put t).backend = state.backend := rfl

/-- Where `put` leaves a session alone, `find` sees the same one. -/
theorem find?_put_cons (p : WorkerSession → Bool) (ss : List WorkerSession)
    (h : p s = p (if s.sessionId = t.sessionId then t else s)) :
    ((s :: ss).map fun u => if u.sessionId = t.sessionId then t else u).find? p =
      if p s then some (if s.sessionId = t.sessionId then t else s)
      else (ss.map fun u => if u.sessionId = t.sessionId then t else u).find? p := by
  rw [List.map_cons, List.find?_cons, ← h]
  cases p s <;> rfl

theorem find_put_ne (h : id ≠ t.sessionId) : (state.put t).find id = state.find id := by
  rw [find, find, put]
  dsimp only
  induction state.sessions with
  | nil => rfl
  | cons s ss ih =>
    by_cases hs : s.sessionId = t.sessionId
    · have hne : s.sessionId ≠ id := hs.trans_ne (Ne.symm h)
      rw [find?_put_cons _ _ (by simp [hs]), if_neg (by simpa using hne), ih,
        List.find?_cons, decide_eq_false hne]
    · rw [find?_put_cons _ _ (by rw [if_neg hs]), if_neg hs, ih, List.find?_cons]
      cases decide (s.sessionId = id) <;> rfl

theorem find_put (h : state.find t.sessionId = some s) :
    (state.put t).find t.sessionId = some t := by
  rw [find] at h ⊢
  rw [put]
  dsimp only
  revert h
  induction state.sessions with
  | nil => intro h; cases h
  | cons u us ih =>
    intro h
    by_cases hu : u.sessionId = t.sessionId
    · rw [find?_put_cons _ _ (by simp [hu]), if_pos (by simpa using hu), if_pos hu]
    · rw [find?_put_cons _ _ (by rw [if_neg hu]), if_neg (by simpa using hu)]
      rw [List.find?_cons, decide_eq_false hu] at h
      exact ih h

end WorkerState

/-! ## One frame -/

section Frame
variable {nr : Narrow} {state state' : WorkerState} {env : Env} {payload : Bytes} {f : WorkFrame}

theorem checkWork_hash (h : checkWork state env f = .ok ()) :
    distTokenHashUpdateSpan f.work.prefixHash f.tokens = f.work.resultHash := by
  have hcheck := refuse_ok h (distTokenHashUpdateSpan f.work.prefixHash f.tokens ≠ f.work.resultHash,
    lit "WORK token prefix hash metadata mismatch") (by simp)
  simpa using hcheck

/-- Work is refused in front of the sessions, or it goes to the session of its id. -/
theorem processWorkPayload_cases (nr : Narrow) (state : WorkerState) (env : Env) (payload : Bytes) :
    (∃ e, processWorkPayload nr state env payload = (.error e, state)) ∨
    ∃ f s state', readWork payload = .ok f ∧
      distTokenHashUpdateSpan f.work.prefixHash f.tokens = f.work.resultHash ∧
      state.getSession env f.work.sessionId = (.ok s, state') ∧
      (processWorkPayload nr state env payload).2 = state'.put (evalOnSession state' env f s).2 ∧
      ∀ err, (evalOnSession state' env f s).1 = .error err →
        (processWorkPayload nr state env payload).1 = .error (f.work.requestId, err) := by
  generalize hr : processWorkPayload nr state env payload = r
  rw [processWorkPayload] at hr
  split at hr
  · exact .inl ⟨_, hr.symm⟩
  · next f hread =>
    dsimp only at hr
    split at hr
    · exact .inl ⟨_, hr.symm⟩
    · next hcheck =>
      split at hr
      · exact .inl ⟨_, hr.symm⟩
      · split at hr
        · exact .inl ⟨_, hr.symm⟩
        · split at hr
          · exact .inl ⟨_, hr.symm⟩
          · split at hr
            · next err state' hget =>
              rw [WorkerState.getSession_error hget] at hr
              exact .inl ⟨_, hr.symm⟩
            · next s state' hget =>
              refine .inr ⟨f, s, state', hread, checkWork_hash hcheck, hget, ?_⟩
              split at hr
              · next err t heval =>
                subst hr
                rw [heval]
                refine ⟨rfl, fun err' h => ?_⟩
                cases h
                rfl
              · next output t heval =>
                rw [heval]
                split at hr <;> subst hr <;> exact ⟨rfl, fun err' h => nomatch h⟩

/-- The tokens of a session and what its shard stands for. -/
def WorkerSession.holds (s : WorkerSession) : List UInt32 × Option (List UInt32) :=
  (s.session.checkpoint, s.session.kv)

/-- The sessions behind work that was not evaluated: the tokens and the shards are those of before,
apart from a session that the work resets and one that it creates. -/
structure Rejected (state state' : WorkerState) (w : WorkFixed) : Prop where
  others : ∀ id, id ≠ w.sessionId → state'.find id = state.find id
  same : w.resetSession = false →
    (state'.find w.sessionId).map (·.holds) = (state.find w.sessionId).map (·.holds) ∨
      state.find w.sessionId = none ∧ (state'.find w.sessionId).map (·.holds) = some ([], some [])

/-- Work that passes the comparison of its prefix is evaluated on a session. -/
structure EvaluatesOn (state : WorkerState) (env : Env) (f : WorkFrame) (s : WorkerSession)
    (state' : WorkerState) : Prop where
  graph : state.backend ≠ .cpu
  prepared : ∃ s₀ state₀, state.getSession env f.work.sessionId = (.ok s₀, state₀) ∧
    prepareSession state.backend env.graphReset f.work s₀ = (true, s)
  passes : Passes state.ctxSize f s
  session : (state'.find f.work.sessionId).map (·.session) =
    some (sliceEval state.backend state.ctxSize env.eval s.session f.tokens f.work.pos0).2

theorem evalOnSession_sessionId (s : WorkerSession) :
    (evalOnSession state env f s).2.sessionId = s.sessionId := by
  rw [evalOnSession_eq]
  cases hprep : prepareSession state.backend env.graphReset f.work s with
  | mk ok t =>
    have hid := prepareSession_sessionId hprep
    cases ok with
    | false => exact hid
    | true =>
      dsimp only
      split
      · exact hid
      · split <;> exact hid

/-- The session stage evaluates, or it refuses and leaves what the session holds, up to a reset. -/
theorem evalOnSession_cases (state : WorkerState) (env : Env) (f : WorkFrame) (s : WorkerSession) :
    (∃ t, state.backend ≠ .cpu ∧ prepareSession state.backend env.graphReset f.work s = (true, t) ∧
      Passes state.ctxSize f t ∧ (evalOnSession state env f s).2.session =
        (sliceEval state.backend state.ctxSize env.eval t.session f.tokens f.work.pos0).2) ∨
    (∃ err, (evalOnSession state env f s).1 = .error err) ∧
      (f.work.resetSession = false → (evalOnSession state env f s).2.holds = s.holds) := by
  rw [evalOnSession_eq]
  cases hprep : prepareSession state.backend env.graphReset f.work s with
  | mk ok t =>
    have hsame (hreset : f.work.resetSession = false) : t.holds = s.holds := by
      rw [WorkerSession.holds, WorkerSession.holds, prepareSession_session hprep hreset]
    cases ok with
    | false => exact .inr ⟨⟨_, rfl⟩, hsame⟩
    | true =>
      dsimp only
      split
      · exact .inr ⟨⟨_, rfl⟩, hsame⟩
      · next hhash =>
        cases htime : sliceCheckTimeline state.ctxSize t.session f.tokens f.work.pos0 with
        | some err =>
          rw [sliceEval.eq_def, htime]
          exact .inr ⟨⟨_, rfl⟩, hsame⟩
        | none =>
          by_cases hcpu : state.backend = .cpu
          · rw [sliceEval.eq_def, htime]
            dsimp only
            rw [if_pos hcpu]
            exact .inr ⟨⟨_, rfl⟩, hsame⟩
          · refine .inl ⟨t, hcpu, rfl, ⟨not_not.mp hhash, htime⟩, ?_⟩
            split
            · next heval => rw [heval]
            · next heval => rw [heval]

/-- A frame of work is evaluated on the session of its id, or it is answered with an error. -/
theorem processWorkPayload_evaluates (nr : Narrow) (state : WorkerState) (env : Env)
    (payload : Bytes) :
    let r := processWorkPayload nr state env payload
    (∃ f s, readWork payload = .ok f ∧ EvaluatesOn state env f s r.2) ∨
      (∃ e, r.1 = .error e) ∧
        (r.2 = state ∨ ∃ f, readWork payload = .ok f ∧ Rejected state r.2 f.work) := by
  dsimp only
  obtain ⟨e, hr⟩ | ⟨f, s, state', hread, -, hget, hstate, herror⟩ :=
    processWorkPayload_cases nr state env payload
  · rw [hr]
    exact .inr ⟨⟨e, rfl⟩, .inl rfl⟩
  · obtain ⟨hfind, hid⟩ := WorkerState.getSession_find hget
    obtain ⟨hbackend, hctx⟩ := WorkerState.getSession_backend hget
    have hid' : (evalOnSession state' env f s).2.sessionId = f.work.sessionId :=
      (evalOnSession_sessionId s).trans hid
    have hput : (processWorkPayload nr state env payload).2.find f.work.sessionId =
        some (evalOnSession state' env f s).2 := by
      rw [hstate, ← hid']
      rw [← hid'] at hfind
      exact WorkerState.find_put hfind
    obtain ⟨t, hcpu, hprep, hpasses, hsession⟩ | ⟨⟨err, herr⟩, hsame⟩ :=
      evalOnSession_cases state' env f s
    · rw [hbackend] at hcpu hprep hsession
      rw [hctx] at hpasses hsession
      refine .inl ⟨f, t, hread, hcpu, ⟨s, state', hget, hprep⟩, hpasses, ?_⟩
      rw [hput, Option.map_some, hsession]
    · refine .inr ⟨⟨_, herror err herr⟩, .inr ⟨f, hread, fun id hne => ?_, fun hreset => ?_⟩⟩
      · rw [hstate, WorkerState.find_put_ne (by rw [hid']; exact hne)]
        exact WorkerState.getSession_find_ne hget hne
      · rw [hput, Option.map_some, hsame hreset]
        obtain ⟨hold, -⟩ | ⟨hnone, rfl, -⟩ := WorkerState.getSession_ok hget
        · rw [hold]
          exact .inl rfl
        · exact .inr ⟨hnone, rfl⟩

end Frame

/-! ## Runs -/

/-- The work of a frame starts on a shard that its session does not have. -/
def WorkStartsLost (state : WorkerState) (payload : Bytes) : Prop :=
  ∃ f s, readWork payload = .ok f ∧ state.find f.work.sessionId = some s ∧
    StartsLost state.backend f.work s

/-- A worker handles one frame, whatever happens around it. -/
inductive WorkerStep (nr : Narrow) : WorkerState → WorkerState → Prop
  | work {state : WorkerState} (env : Env) (payload : Bytes) (fair : ¬WorkStartsLost state payload) :
    WorkerStep nr state (processWorkPayload nr state env payload).2
  | save {state : WorkerState} (env : Env) (c : Conn) (bytes : Nat) :
    WorkerStep nr state (distWorkerHandleSnapshotSave state env c bytes).state
  | load {state : WorkerState} (env : Env) (c : Conn) (bytes : Nat) :
    WorkerStep nr state (distWorkerHandleSnapshotLoad state env c bytes).state

section Run
variable {nr : Narrow} {state state' : WorkerState} {env : Env} {payload : Bytes} {c d : Conn}
  {f : WorkFrame} {s : WorkerSession}

/-- A fresh session has lost nothing. -/
theorem not_startsLost_of_getSession (hfair : ¬WorkStartsLost state payload)
    (hread : readWork payload = .ok f)
    (hget : state.getSession env f.work.sessionId = (.ok s, state')) :
    ¬StartsLost state.backend f.work s := by
  intro hlost
  obtain ⟨hfind, -⟩ | ⟨-, rfl, -⟩ := WorkerState.getSession_ok hget
  · exact hfair ⟨f, s, hread, hfind, hlost⟩
  · have hkv := hlost.2
    split at hkv
    · exact hkv.2 rfl
    · cases hkv

theorem processWorkPayload_sound (hs : state.Sound) (hfair : ¬WorkStartsLost state payload) :
    (processWorkPayload nr state env payload).2.Sound := by
  obtain ⟨e, hr⟩ | ⟨f, s, state', hread, hhash, hget, hstate, -⟩ :=
    processWorkPayload_cases nr state env payload
  · rw [hr]
    exact hs
  · have hlost := not_startsLost_of_getSession hfair hread hget
    obtain ⟨hs', hsound⟩ := WorkerState.getSession_sound hget hs
    rw [← (WorkerState.getSession_backend hget).1] at hlost hsound
    rw [hstate]
    exact WorkerState.put_sound hs' (evalOnSession_sound hsound hlost hhash)

theorem distWorkerHandleSnapshotSave_state (c : Conn) (n : Nat) :
    (distWorkerHandleSnapshotSave state env c n).state = state := by
  rw [distWorkerHandleSnapshotSave]
  split
  · rfl
  · split
    · rfl
    · split <;> rfl

theorem readSnapshotBody_hash {b : SnapshotBeginFixed} {bodyBytes : Nat} {tokens : List UInt32}
    (h : readSnapshotBody state env b bodyBytes c = .ok (.ok tokens, d)) :
    b.tokenHash = distTokenHashPrefix tokens := by
  rw [readSnapshotBody] at h
  split at h
  · cases h
  · split at h
    · cases h
    · split at h
      · cases h
      · split at h
        · cases h
        · cases h
        · next tokens' c' htok =>
          dsimp only at h
          split at h
          · cases h
          · next hok =>
            cases h
            have hcheck := refuse_ok hok (distTokenHashPrefix tokens ≠ b.tokenHash,
              lit "snapshot load token hash mismatch") (by simp)
            exact (not_not.mp (of_decide_eq_false hcheck)).symm

theorem restoreShard_sound {b : SnapshotBeginFixed} {tokens : List UInt32} (hs : state.Sound)
    (hhash : b.tokenHash = distTokenHashPrefix tokens) :
    (restoreShard state env b tokens).2.Sound := by
  rw [restoreShard]
  split
  · exact hs
  · split
    · exact hs
    · split
      · next err state' hget =>
        rw [WorkerState.getSession_error hget]
        exact hs
      · next s state' hget =>
        obtain ⟨hs', hsound⟩ := WorkerState.getSession_sound hget hs
        have hload := sliceLoad_sound env.load hsound hhash
        rw [← (WorkerState.getSession_backend hget).1] at hload
        split
        · next hr =>
          rw [hr] at hload
          exact WorkerState.put_sound hs' hload
        · next hr =>
          rw [hr] at hload
          exact WorkerState.put_sound hs' hload

theorem distWorkerHandleSnapshotLoad_sound {n : Nat} (hs : state.Sound) :
    (distWorkerHandleSnapshotLoad state env c n).state.Sound := by
  rw [distWorkerHandleSnapshotLoad]
  split
  · exact hs
  · split
    · exact hs
    · dsimp only
      split
      · exact hs
      · exact hs
      · next hbody =>
        split
        · exact hs
        · exact hs
        · exact restoreShard_sound hs (readSnapshotBody_hash hbody)

theorem WorkerStep.sound (h : WorkerStep nr state state') (hs : state.Sound) : state'.Sound := by
  cases h with
  | work env payload fair => exact processWorkPayload_sound hs fair
  | save env c bytes =>
    rw [distWorkerHandleSnapshotSave_state]
    exact hs
  | load env c bytes => exact distWorkerHandleSnapshotLoad_sound hs

theorem sound_of_run {start : WorkerState} (hstart : start.sessions = [])
    (h : Relation.ReflTransGen (WorkerStep nr) start state) : state.Sound := by
  induction h with
  | refl =>
    intro s hs
    rw [hstart] at hs
    cases hs
  | tail _ hstep ih => exact hstep.sound ih

end Run

/-- In every run without work that starts on a lost shard, a checkpoint that is marked valid is what
its shard stands for, and a hash that is marked valid with it is the hash of these tokens. The next
frame of work is evaluated on the shard of the tokens that it claims, or it is answered with an error
and changes no tokens and no shard but those that it resets. -/
theorem work_is_evaluated_on_its_prefix (nr : Narrow) (start state : WorkerState)
    (hstart : start.sessions = []) (hrun : Relation.ReflTransGen (WorkerStep nr) start state) :
    (∀ s ∈ state.sessions, s.session.checkpointValid = true →
      s.session.kv = some s.session.checkpoint ∧
        (s.tokenHashValid = true → s.tokenHash = distTokenHashPrefix s.session.checkpoint)) ∧
    ∀ env payload, ¬WorkStartsLost state payload →
      let r := processWorkPayload nr state env payload
      (∃ f s, readWork payload = .ok f ∧ EvaluatesOn state env f s r.2 ∧
        s.session.kv = some s.session.checkpoint ∧
        f.work.prefixHash = distTokenHashPrefix s.session.checkpoint ∧
        f.work.pos0.toNat = s.session.checkpoint.length ∧
        ∀ claimed, f.work.prefixHash = distTokenHashPrefix claimed →
          (distTokenHashPrefix claimed = distTokenHashPrefix s.session.checkpoint →
            claimed = s.session.checkpoint) → s.session.kv = some claimed) ∨
      (∃ e, r.1 = .error e) ∧
        (r.2 = state ∨ ∃ f, readWork payload = .ok f ∧ Rejected state r.2 f.work) := by
  have hs := sound_of_run hstart hrun
  refine ⟨fun s hmem hvalid => ?_, fun env payload hfair => ?_⟩
  · obtain hstands | hlost := hs s hmem
    · exact ⟨hstands.shard, hstands.hash⟩
    · rw [hlost.checkpoint] at hvalid
      cases hvalid
  · obtain ⟨f, s, hread, heval⟩ | hreject := processWorkPayload_evaluates nr state env payload
    · obtain ⟨s₀, state₀, hget, hprep⟩ := heval.prepared
      obtain ⟨hstands, hprefix, hpos⟩ := heval.passes.stands hprep
        (WorkerState.getSession_sound hget hs).2 (not_startsLost_of_getSession hfair hread hget)
      refine .inl ⟨f, s, hread, heval, hstands.shard, hprefix, hpos heval.graph, ?_⟩
      intro claimed hclaimed hdistinct
      rw [hdistinct (hclaimed.symm.trans hprefix)]
      exact hstands.shard
    · exact .inr hreject

/-! ## A session of one token -/

/-- The payload of work for the layer of `smallWorker`: one token behind a claimed prefix. -/
def smallWorkPayload (flags pos0 token : UInt32) (prefixHash : UInt64) : Bytes :=
  let resultHash := distTokenHashUpdateSpan prefixHash [token]
  toWire { (default : WorkFixed) with
    prefixHashHi := distU64Hi prefixHash
    prefixHashLo := distU64Lo prefixHash
    resultHashHi := distU64Hi resultHash
    resultHashLo := distU64Lo resultHash
    pos0, nTokens := 1, flags, tokenBytes := 4, routeCount := 1, routeBytes := 33 } ++
  (putU32 token ++ (toWire (⟨1, 1, 0, 0, 0⟩ : RouteFixed) ++ lit "a" ++
    toWire routeReturnUpstreamFixed))

/-- The worker behind its first work, which resets the session. -/
def oneTokenWorker : WorkerState :=
  { smallWorker with
    sessions := [⟨0, distTokenHashPrefix [1], true, ⟨[1], true, some [1]⟩⟩] }

set_option maxRecDepth 4096 in
theorem first_work :
    (processWorkPayload plainNarrow smallWorker fineEnv
      (smallWorkPayload workFResetSession 0 1 tokenHashInit)).2 = oneTokenWorker := rfl

theorem oneTokenWorker_reached :
    Relation.ReflTransGen (WorkerStep plainNarrow) smallWorker oneTokenWorker := by
  rw [← first_work]
  refine .single (.work _ _ ?_)
  intro hlost
  obtain ⟨_, _, -, hfind, -⟩ := hlost
  cases hfind

theorem not_workStartsLost_oneToken (payload : Bytes) : ¬WorkStartsLost oneTokenWorker payload := by
  intro hlost
  obtain ⟨f, s, -, hfind, -, hlost⟩ := hlost
  obtain ⟨hmem, -⟩ := WorkerState.find_some hfind
  obtain rfl := List.mem_singleton.mp hmem
  split at hlost
  · cases hlost.1
  · cases hlost

set_option maxRecDepth 4096 in
/-- The second token goes to the shard of the first one. -/
theorem second_work_evaluated :
    ∃ f s, readWork (smallWorkPayload 0 1 2 (distTokenHashPrefix [1])) = .ok f ∧
      EvaluatesOn oneTokenWorker fineEnv f s (processWorkPayload plainNarrow oneTokenWorker fineEnv
        (smallWorkPayload 0 1 2 (distTokenHashPrefix [1]))).2 ∧ f.work.pos0.toNat = 1 := by
  obtain ⟨-, hwork⟩ := work_is_evaluated_on_its_prefix plainNarrow smallWorker oneTokenWorker rfl
    oneTokenWorker_reached
  obtain ⟨f, s, hread, heval, -⟩ | ⟨⟨e, he⟩, -⟩ := hwork fineEnv
    (smallWorkPayload 0 1 2 (distTokenHashPrefix [1])) (not_workStartsLost_oneToken _)
  · refine ⟨f, s, hread, heval, ?_⟩
    cases hread
    rfl
  · cases he

set_option maxRecDepth 4096 in
/-- A reset is made in front of the comparison, and a refusal behind it does not take it back. -/
theorem refused_work_resets :
    ¬∀ (nr : Narrow) (start state : WorkerState), start.sessions = [] →
      Relation.ReflTransGen (WorkerStep nr) start state → ∀ (env : Env) (payload : Bytes),
        (∃ e, (processWorkPayload nr state env payload).1 = .error e) →
          (processWorkPayload nr state env payload).2.sessions = state.sessions := by
  intro h
  have hreset : (processWorkPayload plainNarrow oneTokenWorker fineEnv
      (smallWorkPayload workFResetSession 1 3 (distTokenHashPrefix [2]))).2.sessions =
        [⟨0, tokenHashInit, true, .fresh⟩] := rfl
  have hsame := h plainNarrow smallWorker oneTokenWorker rfl oneTokenWorker_reached fineEnv
    (smallWorkPayload workFResetSession 1 3 (distTokenHashPrefix [2])) ⟨_, rfl⟩
  rw [hreset] at hsame
  cases hsame

end Ds4.Dist
