import Ds4.Engine.SyncSession

/-!
# Batched evaluation

One token for each of several sessions, with or without the prefill of one more. The backend is CUDA,
for which alone these functions are called, and there is no tensor parallelism, which needs Metal.
The programs run over the backends of all sessions.
-/

namespace Ds4.Sync
open Faulty

variable {ι : Type} [DecidableEq ι]

/-! ## One session -/

/-- `ds4_dist_session_eval`. The coordinator's layers note the token, and so does the checkpoint
from which the replay copies its transcript. -/
def ds4DistSessionEval (d : Dist) (s : Session) (token : Int) : SyncProg (Session × Rc) := do
  if ← link .link then
    match ← d.evalSpan d.plan true s [token] s.checkpoint.length false with
    | (s, true) => pure (s, .ok)
    | (s, false) => d.rebuildFromTranscript (s.checkpoint ++ [token]) s
  else pure (s, .failed "distributed route failed")

/-- `ds4_session_eval_internal`; drafts of a support model are left out. -/
def ds4SessionEvalInternal (o : Options) (s : Session) (token : Int) : SyncProg (Session × Rc) :=
  let pos := s.checkpoint.length
  match o.family with
  | .distributed d => ds4DistSessionEval d s token
  | .cpu => do
    always fun b => b.eval .recurrent pos [token] true
    pure (push s [token] true, .ok)
  | .none => pure (s, .failed "GPU support is not compiled in")
  | .glm g =>
    if !g.graphReady then pure (s, .failed s!"{g.backendName} GLM graph is not initialized")
    else if g.graphCtx ≤ pos then pure (s, .failed s!"GLM Metal context reached ({g.graphCtx})")
    else do
      if ← forward .eval g.kind pos [token] true then
        let s := push s [token] true
        pure (if g.decodeUpdatesDenseCache pos true then g.noteDenseCache s pos 1 else s, .ok)
      else pure (g.drop s, .failed s!"{g.backendName} GLM decode failed")
  | .deepSeek g => do
    if ← forward .eval .recurrent pos [token] true then pure (push s [token] true, .ok)
    else pure ({ s with valid := false }, .failed s!"{g.backendName} decode failed")

/-- `ds4_session_eval`. -/
def ds4SessionEval (o : Options) (s : Session) (token : Int) : SyncProg (Session × Rc) :=
  if !s.valid then pure (s, .failed "decode requires a synchronized checkpoint")
  else ds4SessionEvalInternal o s token

/-! ## Several sessions -/

def Family.isGlm : Family → Bool
  | .glm _ => true
  | .distributed d => d.glm
  | _ => false

def Family.isCpu : Family → Bool
  | .cpu => true
  | _ => false

structure DecodeItem (ι : Type) where
  session : ι
  token : Int

/-- The sessions of a process: the engine that each belongs to and how it is set up. -/
structure Fleet (ι : Type) where
  engine : ι → Nat
  options : ι → Options
  /-- The engine has a support model (`support_kind`). -/
  support : Nat → Bool
  vocab : Nat
  /-- A process has one model. -/
  glm_eq : ∀ i j, (options i).family.isGlm = (options j).family.isGlm

/-- What the environment and the devices allow. -/
structure BatchPaths where
  /-- `DS4_CUDA_SESSION_BATCH_INTERLEAVE` is not 0 and the layers are placed. -/
  pipeline : Bool
  /-- `metal_graph_mixed_prefill_decode_supported`, and not switched off. -/
  mixed : Bool

abbrev FleetProg (ι α : Type) := Prog Call (ι → Backend) α

/-- The checks of an item against those in front of it; `tokens` is the range of tokens, where it is
checked. -/
def checkDecodeItem (c : Fleet ι) (S : ι → Session) (engine : Nat) (tokens : Option Nat)
    (before : List (DecodeItem ι)) (item : DecodeItem ι) : Option String :=
  let i := before.length
  if c.engine item.session ≠ engine then some s!"decode batch item {i} belongs to a different engine"
  else if tokens.any fun n => item.token < 0 || n ≤ item.token then
    some s!"decode batch item {i} has an invalid token"
  else
    match before.findIdx? fun b => b.session = item.session with
    | some j => some s!"decode batch repeats session at items {j} and {i}"
    | none =>
      if (c.options item.session).ctxSize ≤ (S item.session).checkpoint.length then
        some s!"decode batch item {i} reached its context limit"
      else none

def checkDecodeItems (c : Fleet ι) (S : ι → Session) (engine : Nat) (tokens : Option Nat)
    (before : List (DecodeItem ι)) : List (DecodeItem ι) → Option String
  | [] => none
  | item :: items =>
    match checkDecodeItem c S engine tokens before item with
    | some err => some err
    | none => checkDecodeItems c S engine tokens (before ++ [item]) items

/-- The sequential loop; a failure ends it. -/
def evalLoop (c : Fleet ι) : List (DecodeItem ι) → (ι → Session) → FleetProg ι ((ι → Session) × Rc)
  | [], S => pure (S, .ok)
  | item :: items, S => do
    let (s, rc) ← (ds4SessionEval (c.options item.session) (S item.session) item.token).on item.session
    let S := Function.update S item.session s
    if rc = .ok then evalLoop c items S else pure (S, rc)

/-- A call that gets on with the backends of some sessions; a failure leaves them arbitrary. -/
def onBackends (sessions : List ι) (f : ι → Backend → Backend) : FleetProg ι Bool := do
  match ← Prog.ask .eval (fun B => (fun j => if j ∈ sessions then f j (B j) else B j, ()))
      (fun g B j => if j ∈ sessions then g j else B j) with
  | none => pure false
  | some () => pure true

/-- A call that touches no backend. -/
def touchNone : FleetProg ι Bool := onBackends [] fun _ b => b

/-- Tokens are encoded behind the checkpoint, without logits for the host
(`metal_graph_encode_token_raw_swa`). The graph of a distributed session has only the layers of the
coordinator. -/
def encoded (o : Options) (s : Session) (ts : List Int) (b : Backend) : Backend :=
  match o.family with
  | .distributed _ => b
  | _ => b.eval .recurrent s.checkpoint.length ts false

def encodedItems (c : Fleet ι) (S : ι → Session) (items : List (DecodeItem ι)) (j : ι) (b : Backend) :
    Backend :=
  match items.find? fun item => item.session = j with
  | some item => encoded (c.options j) (S j) [item.token] b
  | none => b

/-- The tokens are encoded one after the other. -/
def encodeLoop (c : Fleet ι) (S : ι → Session) : List (DecodeItem ι) → FleetProg ι Bool
  | [] => pure true
  | item :: items => do
    if ← onBackends [item.session] fun j b => encoded (c.options j) (S j) [item.token] b then
      encodeLoop c S items
    else pure false

/-- The logits of the device are read. -/
def readLoop : List ι → FleetProg ι Bool
  | [] => pure true
  | i :: is => do
    if ← onBackends [i] fun _ b => { b with logits := b.caches } then readLoop is else pure false

def pushItems (items : List (DecodeItem ι)) (S : ι → Session) : ι → Session :=
  items.foldl (fun S item => Function.update S item.session (push (S item.session) [item.token] true)) S

def dropSessions (sessions : List ι) (S : ι → Session) : ι → Session :=
  fun j => if j ∈ sessions then { S j with valid := false } else S j

def invalidateSessions (sessions : List ι) (S : ι → Session) : ι → Session :=
  fun j => if j ∈ sessions then invalidate (S j) else S j

/-- A call behind one that went well. -/
def andThen (p q : FleetProg ι Bool) : FleetProg ι Bool := do
  if ← p then q else pure false

/-- The devices are waited for. -/
def wait (sessions : List ι) : FleetProg ι Bool := onBackends sessions fun _ b => b

/-- The calls of the grouped path: all tokens are encoded before the devices are waited for. -/
def groupedCalls (c : Fleet ι) (w : BatchPaths) (S : ι → Session) (items : List (DecodeItem ι)) :
    FleetProg ι Bool :=
  let sessions := items.map DecodeItem.session
  let graphs := items.all fun item =>
    let family := (c.options item.session).family
    !family.isCpu && !family.isGlm && (S item.session).valid && !c.support (c.engine item.session)
  andThen touchNone <| andThen (pure graphs) <|
    andThen (if w.pipeline then onBackends sessions (encodedItems c S items) else encodeLoop c S items) <|
      andThen (wait sessions) (readLoop sessions)

def evalGrouped (c : Fleet ι) (w : BatchPaths) (S : ι → Session) (items : List (DecodeItem ι)) :
    FleetProg ι ((ι → Session) × Rc) := do
  if ← groupedCalls c w S items then pure (pushItems items S, .ok)
  else pure (dropSessions (items.map DecodeItem.session) S, .failed "CUDA batched decode failed")

/-- `ds4_sessions_eval_batch_cuda`. -/
def ds4SessionsEvalBatchCuda (c : Fleet ι) (w : BatchPaths) (items : List (DecodeItem ι))
    (S : ι → Session) : FleetProg ι ((ι → Session) × Rc) :=
  match items with
  | [] => pure (S, .failed "empty decode batch")
  | [item] => do
    let (s, rc) ← (ds4SessionEval (c.options item.session) (S item.session) item.token).on item.session
    pure (Function.update S item.session s, rc)
  | first :: _ =>
    let engine := c.engine first.session
    match checkDecodeItems c S engine none [] items with
    | some err => pure (S, .failed err)
    | none =>
      if !(c.options first.session).family.isGlm && !c.support engine then evalGrouped c w S items
      else do
        match ← evalLoop c items S with
        | (S, .ok) => pure (S, .ok)
        | (S, rc) => pure (invalidateSessions (items.map DecodeItem.session) S, rc)

/-- `ds4_sessions_eval_batch`. -/
def ds4SessionsEvalBatch (c : Fleet ι) (w : BatchPaths) (items : List (DecodeItem ι))
    (S : ι → Session) : FleetProg ι ((ι → Session) × Rc) :=
  match items with
  | first :: _ :: _ =>
    match checkDecodeItems c S (c.engine first.session) (some c.vocab) [] items with
    | some err => pure (S, .failed err)
    | none => ds4SessionsEvalBatchCuda c w items S
  | _ => ds4SessionsEvalBatchCuda c w items S

/-! ## With a prefill -/

/-- The check of an item of a mixed batch. -/
def checkMixedItem (c : Fleet ι) (S : ι → Session) (p : ι) (before : List (DecodeItem ι))
    (item : DecodeItem ι) : Option String :=
  let i := before.length
  let s := S item.session
  if item.session = p ∨ c.engine item.session ≠ c.engine p ∨ !s.valid ∨
      (c.options item.session).ctxSize ≤ s.checkpoint.length then
    some s!"invalid mixed decode item {i}"
  else
    (before.findIdx? fun b => b.session = item.session).map fun j =>
      s!"mixed decode repeats session at items {j} and {i}"

def checkMixedItems (c : Fleet ι) (S : ι → Session) (p : ι) (before : List (DecodeItem ι)) :
    List (DecodeItem ι) → Option String
  | [] => none
  | item :: items =>
    match checkMixedItem c S p before item with
    | some err => some err
    | none => checkMixedItems c S p (before ++ [item]) items

/-- The backends when a mixed batch is encoded. -/
def encodedMixed (c : Fleet ι) (S : ι → Session) (items : List (DecodeItem ι)) (p : ι)
    (prompt : List Int) (j : ι) (b : Backend) : Backend :=
  if j = p then encoded (c.options p) (S p) (prompt.drop (S p).checkpoint.length) b
  else encodedItems c S items j b

/-- `metal_graph_eval_mixed_prefill_decode`. -/
def mixedCalls (c : Fleet ι) (S : ι → Session) (items : List (DecodeItem ι)) (p : ι)
    (prompt : List Int) : FleetProg ι Bool :=
  let sessions := p :: items.map DecodeItem.session
  andThen touchNone <| andThen (onBackends sessions (encodedMixed c S items p prompt)) <|
    andThen (wait sessions) <| andThen (readLoop sessions) (wait sessions)

def evalMixed (c : Fleet ι) (S : ι → Session) (items : List (DecodeItem ι)) (p : ι) (prompt : List Int) :
    FleetProg ι ((ι → Session) × Rc) := do
  if ← mixedCalls c S items p prompt then
    pure (pushItems items (Function.update S p { S p with checkpoint := prompt, valid := true }), .ok)
  else
    pure (dropSessions (p :: items.map DecodeItem.session) S, .failed "CUDA mixed model batch failed")

/-- `ds4_sessions_eval_batch_with_prefill_cuda`. -/
def ds4SessionsEvalBatchWithPrefillCuda (c : Fleet ι) (w : BatchPaths) (items : List (DecodeItem ι))
    (p : ι) (prompt : List Int) (S : ι → Session) : FleetProg ι ((ι → Session) × Rc) :=
  let s := S p
  if items = [] then pure (S, .failed "invalid mixed model batch")
  else if !s.valid ∨ prompt.length ≤ s.checkpoint.length ∨ (c.options p).ctxSize ≤ prompt.length ∨
      !s.checkpoint.isPrefixOf prompt then
    pure (S, .failed "mixed prefill must extend a valid session checkpoint")
  else
    match checkMixedItems c S p [] items with
    | some err => pure (S, .failed err)
    | none =>
      if w.mixed && !(c.options p).family.isGlm && !c.support (c.engine p) then
        evalMixed c S items p prompt
      else do
        let (s, rc) ← (ds4SessionSync (c.options p) [] s prompt).on p
        let S := Function.update S p s
        if rc = .ok then
          match ← ds4SessionsEvalBatch c w items S with
          | (S, .ok) => pure (S, .ok)
          | (S, rc) => pure (invalidateSessions [p] S, rc)
        else pure (S, rc)

/-! ## One session is evaluated -/

/-- What the evaluation of a token ends in. -/
structure EvalPost (k : Kind) (token : Int) (s₀ : Session) (b₀ : Backend) (r : Session × Rc)
    (b : Backend) : Prop where
  consistent : Consistent k r.1 b
  stepped : r.2 = .ok → r.1.valid = true ∧ r.1.checkpoint = s₀.checkpoint ++ [token]
  undone : r.2 ≠ .ok → r.1.valid = false ∨ (r.1 = s₀ ∧ b = b₀)

namespace EvalPost

variable {k : Kind} {token : Int} {s₀ s : Session} {b₀ b : Backend} {err : String}

theorem ok (hb : b.Holds k s.checkpoint) (hl : b.logits = s.checkpoint) (hv : s.valid = true)
    (hc : s.checkpoint = s₀.checkpoint ++ [token]) : EvalPost k token s₀ b₀ (s, .ok) b :=
  ⟨fun _ => ⟨hb, hl⟩, fun _ => ⟨hv, hc⟩, fun h => absurd rfl h⟩

theorem failed (hv : s.valid = false) : EvalPost k token s₀ b₀ (s, .failed err) b :=
  ⟨fun h => (nomatch hv.symm.trans h), fun h => (nomatch h), fun _ => .inl hv⟩

theorem unchanged (h : Consistent k s b) : EvalPost k token s b (s, .failed err) b :=
  ⟨h, fun h => (nomatch h), fun _ => .inr ⟨rfl, rfl⟩⟩

end EvalPost

section Eval

variable {k : Kind} {s : Session} {b : Backend}

/-- The token behind a valid checkpoint. -/
theorem Consistent.eval (h : Consistent k s b) (hv : s.valid = true) (token : Int) :
    (b.eval k s.checkpoint.length [token] true).Holds k (s.checkpoint ++ [token]) ∧
      (b.eval k s.checkpoint.length [token] true).logits = s.checkpoint ++ [token] :=
  ⟨(h hv).1.eval [token] true, (h hv).1.logits_eval [token]⟩

/-- The session of the coordinator when its layers have not evaluated a token. -/
def NotNoted (s : Session) (b : Backend) (s' : Session) (b' : Backend) : Prop :=
  s'.checkpoint = s.checkpoint ∧ (s'.valid = false ∨ (s' = s ∧ b' = b))

theorem safe_evalLayerSlice_token (d : Dist) (p : Plan) (token : Int) (hv : s.valid = true) :
    (d.evalLayerSlice p s [token] s.checkpoint.length).Safe Call.Settled (fun r b' =>
      match r with
      | (s', true) => s' = push s [token] true ∧
          b' = if p.workers then b else b.eval d.kind s.checkpoint.length [token] true
      | (s', false) => NotNoted s b s' b') b := by
  rw [Dist.evalLayerSlice]
  by_cases hcap : d.prefillCap < [token].length
  · rw [if_pos (.inr hcap)]
    exact ⟨rfl, .inr ⟨rfl, rfl⟩⟩
  · rw [if_neg (not_or.2 ⟨by rw [if_pos hv]; exact fun hne => hne rfl, hcap⟩)]
    cases p.workers with
    | true =>
      apply safe_change
      · exact ⟨rfl, rfl⟩
      · exact fun _ _ => ⟨rfl, .inl rfl⟩
    | false =>
      apply safe_forward
      · exact ⟨rfl, rfl⟩
      · exact fun _ _ => ⟨rfl, .inl rfl⟩

/-- The span of the coordinator. A failure of the workers, behind its own layers, is not settled. -/
theorem safe_evalSpan_token (d : Dist) (token : Int) (h : Consistent d.kind s b) (hv : s.valid = true) :
    (d.evalSpan d.plan true s [token] s.checkpoint.length false).Safe Call.Settled (fun r b' =>
      match r with
      | (s', true) => EvalPost d.kind token s b (s', .ok) b'
      | (s', false) => NotNoted s b s' b') b := by
  obtain ⟨hholds, hlogits⟩ := h.eval hv token
  rw [Dist.evalSpan, if_neg (fun hlt => Nat.lt_irrefl _ hlt.2)]
  change (d.evalLayers d.plan true s [token] s.checkpoint.length).Safe _ _ _
  rw [Dist.evalLayers]
  split
  · exact ⟨rfl, .inr ⟨rfl, rfl⟩⟩
  · refine (safe_evalLayerSlice_token d d.plan token hv).bind ?_
    rintro ⟨s', ok⟩ b' hr
    cases ok with
    | false => exact hr
    | true =>
      obtain ⟨rfl, rfl⟩ := hr
      cases d.plan.workers with
      | true =>
        apply safe_forward
        · exact .ok hholds hlogits rfl rfl
        · intro hset
          cases hset
      | false => exact .ok hholds hlogits rfl rfl

theorem safe_ds4DistSessionEval (d : Dist) (hk : d.glm = true → d.kind = .rows) (token : Int)
    (h : Consistent d.kind s b) (hv : s.valid = true) :
    (ds4DistSessionEval d s token).Safe Call.Settled (EvalPost d.kind token s b) b := by
  apply safe_link
  · refine (safe_evalSpan_token d token h hv).bind ?_
    rintro ⟨s', ok⟩ b' hr
    cases ok with
    | true => exact hr
    | false =>
      obtain ⟨hc, hend⟩ := hr
      have hfail : ∀ err, EvalPost d.kind token s b (s', .failed err) b' := by
        intro err
        rcases hend with hf | ⟨rfl, rfl⟩
        · exact .failed hf
        · exact .unchanged h
      change (d.rebuildFromTranscript (s'.checkpoint ++ [token]) s').Safe _ _ _
      rw [hc]
      apply safe_link
      · rw [if_pos rfl]
        cases hd : d.prefillChunkCap with
        | none =>
          rw [Dist.prefillPrompt, hd]
          exact hfail _
        | some cap =>
          refine (Dist.safe_prefillPrompt hk d.newPlan true hd (by simp) s' b').bind ?_
          rintro ⟨s'', ok⟩ b'' hr
          cases ok with
          | false => exact .failed (hr rfl)
          | true =>
            obtain ⟨hv'', hc'', hholds, hlogits⟩ := hr
            exact .ok (hc'' ▸ hholds) (hlogits.trans hc''.symm) hv'' hc''
      · intro hset
        exact .failed hset
  · exact fun _ => .unchanged h

theorem safe_ds4SessionEval (o : Options)
    (hk : ∀ d, o.family = .distributed d → d.glm = true → d.kind = .rows) (token : Int)
    (h : Consistent o.family.kind s b) :
    (ds4SessionEval o s token).Safe Call.Settled (EvalPost o.family.kind token s b) b := by
  rw [ds4SessionEval]
  split
  · exact .unchanged h
  next hv =>
  have hv : s.valid = true := by simpa using hv
  rw [ds4SessionEvalInternal]
  cases hf : o.family with
  | distributed d =>
    rw [hf] at h
    exact safe_ds4DistSessionEval d (hk d hf) token h hv
  | cpu =>
    rw [hf] at h
    obtain ⟨hholds, hlogits⟩ := h.eval hv token
    apply safe_always
    exact .ok hholds hlogits rfl rfl
  | none =>
    rw [hf] at h
    exact .unchanged h
  | deepSeek g =>
    rw [hf] at h
    obtain ⟨hholds, hlogits⟩ := h.eval hv token
    apply safe_forward
    · exact .ok hholds hlogits rfl rfl
    · exact fun _ _ => .failed rfl
  | glm g =>
    rw [hf] at h
    obtain ⟨hholds, hlogits⟩ := h.eval hv token
    dsimp only
    split
    · exact .unchanged h
    split
    · exact .unchanged h
    · apply safe_forward
      · obtain ⟨hc, hv'⟩ := g.ite_noteDenseCache (g.decodeUpdatesDenseCache s.checkpoint.length true = true)
          (push s [token] true) s.checkpoint.length 1
        apply EvalPost.ok
        · rw [hc]
          exact hholds
        · rw [hc]
          exact hlogits
        · exact hv'
        · exact hc
      · intro _ _
        apply EvalPost.failed
        rw [Glm.drop, Glm.capDenseCache_valid]

end Eval

/-! ## Several sessions are evaluated -/

section Stages

variable {may : Call → Prop} {α : Type} {B : ι → Backend} {sessions : List ι}

theorem safe_onBackends {g : ι → Backend → Backend} {f : Bool → FleetProg ι α}
    {Q : α → (ι → Backend) → Prop}
    (hok : Prog.Safe may (f true) Q fun j => if j ∈ sessions then g j (B j) else B j)
    (hfail : ∀ B' : ι → Backend, (∀ j, j ∉ sessions → B' j = B j) → Prog.Safe may (f false) Q B') :
    Prog.Safe may (onBackends sessions g >>= f) Q B :=
  ⟨hok, fun _ _ => hfail _ fun _ hj => if_neg hj⟩

/-- The backends of other sessions are as they were, and those of these as a stage leaves them. -/
def Stage (sessions : List ι) (B : ι → Backend) (R : (ι → Backend) → Prop) (ok : Bool)
    (B' : ι → Backend) : Prop :=
  (∀ j, j ∉ sessions → B' j = B j) ∧ (ok = true → R B')

omit [DecidableEq ι] in
theorem Stage.mono {R R' : (ι → Backend) → Prop} {ok : Bool} {B' : ι → Backend}
    (h : Stage sessions B R ok B') (hR : ∀ B', R B' → R' B') : Stage sessions B R' ok B' :=
  ⟨h.1, fun hok => hR _ (h.2 hok)⟩

omit [DecidableEq ι] in
theorem safe_andThen {R R' : (ι → Backend) → Prop} {p q : FleetProg ι Bool}
    (hp : p.Safe may (Stage sessions B R) B)
    (hq : ∀ B', R B' → q.Safe may (Stage sessions B' R') B') :
    (andThen p q).Safe may (Stage sessions B R') B := by
  refine hp.bind ?_
  rintro ok B' ⟨hframe, hR⟩
  cases ok with
  | false => exact ⟨hframe, fun h => (nomatch h)⟩
  | true =>
    refine (hq B' (hR rfl)).mono ?_
    rintro ok B'' ⟨hframe', hR'⟩
    exact ⟨fun j hj => (hframe' j hj).trans (hframe j hj), hR'⟩

theorem safe_stage (g : ι → Backend → Backend) (sessions' : List ι) (hsub : sessions' ⊆ sessions) :
    (onBackends sessions' g).Safe may
      (Stage sessions B fun B' => ∀ j, B' j = if j ∈ sessions' then g j (B j) else B j) B := by
  apply safe_onBackends (f := pure)
  · exact ⟨fun j hj => if_neg fun hmem => hj (hsub hmem), fun _ _ => rfl⟩
  · exact fun B' hframe => ⟨fun j hj => hframe j fun hmem => hj (hsub hmem), fun h => (nomatch h)⟩

theorem safe_encodeLoop (c : Fleet ι) (S : ι → Session) {items : List (DecodeItem ι)}
    (hnodup : (items.map DecodeItem.session).Nodup) (hsub : items.map DecodeItem.session ⊆ sessions) :
    (encodeLoop c S items).Safe may
      (Stage sessions B fun B' => ∀ j, B' j = encodedItems c S items j (B j)) B := by
  induction items generalizing B with
  | nil => exact ⟨fun _ _ => rfl, fun _ _ => rfl⟩
  | cons item items ih =>
    rw [List.map_cons, List.nodup_cons] at hnodup
    rw [List.map_cons, List.cons_subset] at hsub
    apply safe_onBackends
    · refine (ih hnodup.2 hsub.2).mono ?_
      rintro ok B' ⟨hframe, hall⟩
      refine ⟨fun j hj => (hframe j hj).trans (if_neg ?_), fun hok j => (hall hok j).trans ?_⟩
      · exact fun hmem => hj (List.mem_singleton.1 hmem ▸ hsub.1)
      · by_cases hj : item.session = j
        · subst hj
          have hnone : items.find? (fun it => it.session = item.session) = none := by
            rw [List.find?_eq_none]
            intro it hit
            have hne : it.session ≠ item.session := fun he =>
              hnodup.1 (he ▸ List.mem_map_of_mem hit)
            simpa using hne
          rw [encodedItems, hnone, encodedItems, List.find?_cons_of_pos (by simp)]
          exact if_pos (List.mem_singleton_self _)
        · rw [encodedItems, encodedItems, List.find?_cons_of_neg (by simpa using hj),
            if_neg fun hmem => hj (List.mem_singleton.1 hmem).symm]
    · exact fun B' hframe => ⟨fun j hj => hframe j fun hmem =>
        hj (List.mem_singleton.1 hmem ▸ hsub.1), fun h => (nomatch h)⟩

/-- Reading twice is reading once. -/
theorem safe_readLoop {is : List ι} (hsub : is ⊆ sessions) :
    (readLoop is).Safe may (Stage sessions B fun B' =>
      ∀ j, B' j = if j ∈ is then { B j with logits := (B j).caches } else B j) B := by
  induction is generalizing B with
  | nil => exact ⟨fun _ _ => rfl, fun _ _ => rfl⟩
  | cons i is ih =>
    rw [List.cons_subset] at hsub
    apply safe_onBackends
    · refine (ih hsub.2).mono ?_
      rintro ok B' ⟨hframe, hall⟩
      refine ⟨fun j hj => (hframe j hj).trans (if_neg ?_), fun hok j => (hall hok j).trans ?_⟩
      · exact fun hmem => hj (List.mem_singleton.1 hmem ▸ hsub.1)
      · by_cases hj : j = i
        · subst hj
          simp
        · simp [hj]
    · exact fun B' hframe => ⟨fun j hj => hframe j fun hmem =>
        hj (List.mem_singleton.1 hmem ▸ hsub.1), fun h => (nomatch h)⟩

end Stages

/-! ## Batches -/

def Fleet.kind (c : Fleet ι) (j : ι) : Kind := (c.options j).family.kind

/-- Every valid session says what is so. -/
def Fleet.Consistent (c : Fleet ι) (S : ι → Session) (B : ι → Backend) : Prop :=
  ∀ j, Sync.Consistent (c.kind j) (S j) (B j)

/-- The sessions of the items have taken their tokens. -/
def Stepped (items : List (DecodeItem ι)) (S S' : ι → Session) : Prop :=
  ∀ item ∈ items, (S' item.session).valid = true ∧
    (S' item.session).checkpoint = (S item.session).checkpoint ++ [item.token]

/-- What the items have to end in. The caches of a session that is valid at the end hold its checkpoint,
and its logits are those of the last token, as if it had been evaluated alone. -/
structure BatchPost (c : Fleet ι) (items : List (DecodeItem ι)) (S : ι → Session) (B : ι → Backend)
    (r : (ι → Session) × Rc) (B' : ι → Backend) : Prop where
  frame : ∀ j, j ∉ items.map DecodeItem.session → r.1 j = S j ∧ B' j = B j
  consistent : c.Consistent r.1 B'
  stepped : r.2 = .ok → Stepped items S r.1
  undone : r.2 ≠ .ok → ∀ j ∈ items.map DecodeItem.session,
    (r.1 j).valid = false ∨ (r.1 j = S j ∧ B' j = B j)

section Batches

variable {c : Fleet ι} {items : List (DecodeItem ι)} {S S' : ι → Session} {B B' : ι → Backend}
  {may : Call → Prop} {err : String}

omit [DecidableEq ι] in
/-- The sessions of the items are given up. -/
theorem BatchPost.dropped {rc : Rc} (hrc : rc ≠ .ok) (hcons : c.Consistent S B)
    (hB : ∀ j, j ∉ items.map DecodeItem.session → B' j = B j)
    (hS : ∀ j, j ∉ items.map DecodeItem.session → S' j = S j)
    (hv : ∀ j ∈ items.map DecodeItem.session, (S' j).valid = false) :
    BatchPost c items S B (S', rc) B' where
  frame j hj := ⟨hS j hj, hB j hj⟩
  consistent j := by
    by_cases hj : j ∈ items.map DecodeItem.session
    · exact fun h => (nomatch (hv j hj).symm.trans h)
    · change Sync.Consistent (c.kind j) (S' j) (B' j)
      rw [hS j hj, hB j hj]
      exact hcons j
  stepped h := absurd h hrc
  undone _ j hj := .inl (hv j hj)

omit [DecidableEq ι] in
theorem BatchPost.unchanged (hcons : c.Consistent S B) : BatchPost c items S B (S, .failed err) B where
  frame _ _ := ⟨rfl, rfl⟩
  consistent := hcons
  stepped h := nomatch h
  undone _ _ _ := .inr ⟨rfl, rfl⟩

/-- What the sequential loop ends in. -/
structure LoopPost (c : Fleet ι) (items : List (DecodeItem ι)) (S : ι → Session) (B : ι → Backend)
    (r : (ι → Session) × Rc) (B' : ι → Backend) : Prop where
  frame : ∀ j, j ∉ items.map DecodeItem.session → r.1 j = S j ∧ B' j = B j
  consistent : c.Consistent r.1 B'
  stepped : r.2 = .ok → Stepped items S r.1

/-- One session gets on. -/
theorem consistent_update {i : ι} {s : Session} (hcons : c.Consistent S B) (hB : ∀ j, j ≠ i → B' j = B j)
    (hs : Consistent (c.kind i) s (B' i)) : c.Consistent (Function.update S i s) B' := by
  intro j
  by_cases hj : j = i
  · subst hj
    rw [Function.update_self]
    exact hs
  · rw [Function.update_of_ne hj, hB j hj]
    exact hcons j

theorem safe_evalLoop
    (hk : ∀ j d, (c.options j).family = .distributed d → d.glm = true → d.kind = .rows)
    (hnodup : (items.map DecodeItem.session).Nodup) (hcons : c.Consistent S B) :
    (evalLoop c items S).Safe Call.Settled (LoopPost c items S B) B := by
  induction items generalizing S B with
  | nil => exact ⟨fun _ _ => ⟨rfl, rfl⟩, hcons, fun _ _ h => (nomatch h)⟩
  | cons item items ih =>
    rw [List.map_cons, List.nodup_cons] at hnodup
    refine (safe_ds4SessionEval (c.options item.session) (hk item.session) item.token
      (hcons item.session)).on.bind ?_
    rintro ⟨s, rc⟩ B' ⟨hB, hs⟩
    have hcons' : c.Consistent (Function.update S item.session s) B' :=
      consistent_update hcons hB hs.consistent
    have hframe : ∀ j, j ∉ (item :: items).map DecodeItem.session →
        Function.update S item.session s j = S j ∧ B' j = B j := by
      intro j hj
      have hne : j ≠ item.session := fun he => hj (he ▸ List.mem_cons_self)
      exact ⟨Function.update_of_ne hne _ _, hB j hne⟩
    dsimp only
    split
    · next hrc =>
      refine (ih hnodup.2 hcons').mono ?_
      rintro r B'' ⟨hframe', hcons'', hstepped⟩
      refine ⟨fun j hj => ?_, hcons'', fun hok it hit => ?_⟩
      · obtain ⟨hS, hB'⟩ := hframe' j fun hmem => hj (List.mem_cons_of_mem _ hmem)
        exact ⟨hS.trans (hframe j hj).1, hB'.trans (hframe j hj).2⟩
      · rcases List.mem_cons.1 hit with rfl | hit
        · rw [(hframe' _ hnodup.1).1, Function.update_self]
          exact hs.stepped hrc
        · have hne : it.session ≠ item.session := fun he =>
            hnodup.1 (he ▸ List.mem_map_of_mem hit)
          have := hstepped hok it hit
          rwa [Function.update_of_ne hne] at this
    · next hrc => exact ⟨hframe, hcons', fun hok => absurd hok hrc⟩

theorem fresh_of_checkDecodeItem {engine : Nat} {tokens : Option Nat} {before : List (DecodeItem ι)}
    {item : DecodeItem ι} (h : checkDecodeItem c S engine tokens before item = none) :
    item.session ∉ before.map DecodeItem.session := by
  rw [checkDecodeItem] at h
  split at h
  · cases h
  split at h
  · cases h
  split at h
  · cases h
  · next hnone =>
    rw [List.findIdx?_eq_none_iff] at hnone
    intro hmem
    obtain ⟨b, hb, he⟩ := List.mem_map.1 hmem
    simpa [he] using hnone b hb

omit [DecidableEq ι] in
/-- A list each of whose members is new to those in front of it. -/
theorem nodup_of_fresh {check : List (DecodeItem ι) → DecodeItem ι → Option String}
    {checks : List (DecodeItem ι) → List (DecodeItem ι) → Option String}
    (hcons : ∀ before item items, checks before (item :: items) = none →
      check before item = none ∧ checks (before ++ [item]) items = none)
    (hfresh : ∀ before item, check before item = none → item.session ∉ before.map DecodeItem.session)
    {before : List (DecodeItem ι)} (hbefore : (before.map DecodeItem.session).Nodup)
    (h : checks before items = none) : ((before ++ items).map DecodeItem.session).Nodup := by
  induction items generalizing before with
  | nil => rwa [List.append_nil]
  | cons item items ih =>
    obtain ⟨hitem, hrest⟩ := hcons before item items h
    rw [List.append_cons]
    refine ih ?_ hrest
    rw [List.map_append, List.nodup_append]
    refine ⟨hbefore, List.pairwise_singleton _ _, fun a ha b hb => ?_⟩
    rw [List.map_singleton, List.mem_singleton] at hb
    rw [hb]
    exact fun he => hfresh before item hitem (he ▸ ha)

theorem nodup_of_checkDecodeItems {engine : Nat} {tokens : Option Nat}
    (h : checkDecodeItems c S engine tokens [] items = none) :
    (items.map DecodeItem.session).Nodup := by
  have hnil : (([] : List (DecodeItem ι)).map DecodeItem.session).Nodup := List.Pairwise.nil
  have hfresh : ∀ before item, checkDecodeItem c S engine tokens before item = none →
      item.session ∉ before.map DecodeItem.session := fun _ _ => fresh_of_checkDecodeItem
  refine nodup_of_fresh ?_ hfresh hnil h
  intro before item items h
  rw [checkDecodeItems] at h
  split at h
  · cases h
  · next hitem => exact ⟨hitem, h⟩

/-! ## The grouped path -/

/-- The graph of the session has all layers. -/
def Whole (o : Options) : Prop := ∀ d, o.family = .distributed d → d.glm = true

theorem Whole.plain {o : Options} (h : Whole o) (hglm : o.family.isGlm = false) :
    o.family.kind = .recurrent ∧
      ∀ s ts b, encoded o s ts b = b.eval .recurrent s.checkpoint.length ts false := by
  cases hf : o.family with
  | distributed d =>
    rw [hf, Family.isGlm, h d hf] at hglm
    cases hglm
  | glm g =>
    rw [hf] at hglm
    cases hglm
  | cpu | none | deepSeek => exact ⟨rfl, fun s ts b => by rw [encoded, hf]⟩

/-- Tokens are encoded behind a valid checkpoint, and the logits are read. -/
theorem Whole.consistent_encoded {o : Options} (h : Whole o) (hglm : o.family.isGlm = false) {s : Session}
    {b : Backend} (hs : Sync.Consistent o.family.kind s b) (hv : s.valid = true) (ts : List Int)
    {s' : Session} (hc : s'.checkpoint = s.checkpoint ++ ts) :
    Sync.Consistent o.family.kind s'
      { encoded o s ts b with logits := (encoded o s ts b).caches } := by
  obtain ⟨hkind, hencoded⟩ := h.plain hglm
  have hseen : (b.eval .recurrent s.checkpoint.length ts false).caches = s.checkpoint ++ ts := by
    rw [hkind] at hs
    exact congrArg (· ++ ts) (hs hv).1
  rw [hkind, hencoded]
  intro _
  change (b.eval .recurrent s.checkpoint.length ts false).caches = s'.checkpoint ∧
    (b.eval .recurrent s.checkpoint.length ts false).caches = s'.checkpoint
  rw [hseen, hc]
  exact ⟨rfl, rfl⟩

theorem pushItems_of_not_mem {j : ι} (hj : j ∉ items.map DecodeItem.session) :
    pushItems items S j = S j := by
  induction items generalizing S with
  | nil => rfl
  | cons item items ih =>
    rw [List.map_cons, List.mem_cons, not_or] at hj
    rw [pushItems, List.foldl_cons]
    exact (ih hj.2).trans (Function.update_of_ne hj.1 _ _)

theorem pushItems_of_mem (hnodup : (items.map DecodeItem.session).Nodup) {item : DecodeItem ι}
    (hmem : item ∈ items) :
    pushItems items S item.session = push (S item.session) [item.token] true := by
  induction items generalizing S with
  | nil => cases hmem
  | cons it items ih =>
    rw [List.map_cons, List.nodup_cons] at hnodup
    rw [pushItems, List.foldl_cons]
    rcases List.mem_cons.1 hmem with rfl | hmem
    · exact (pushItems_of_not_mem hnodup.1).trans (Function.update_self _ _ _)
    · have hne : item.session ≠ it.session := fun he => hnodup.1 (he ▸ List.mem_map_of_mem hmem)
      refine (ih hnodup.2 hmem).trans ?_
      rw [Function.update_of_ne hne]

theorem encodedItems_of_mem (hnodup : (items.map DecodeItem.session).Nodup) {item : DecodeItem ι}
    (hmem : item ∈ items) (b : Backend) : encodedItems c S items item.session b =
      encoded (c.options item.session) (S item.session) [item.token] b := by
  induction items with
  | nil => cases hmem
  | cons it items ih =>
    rw [List.map_cons, List.nodup_cons] at hnodup
    rcases List.mem_cons.1 hmem with rfl | hmem
    · rw [encodedItems, List.find?_cons_of_pos (by simp)]
    · have hne : it.session ≠ item.session := fun he => hnodup.1 (he ▸ List.mem_map_of_mem hmem)
      rw [← ih hnodup.2 hmem, encodedItems, encodedItems, List.find?_cons_of_neg (by simpa using hne)]

theorem dropSessions_valid {sessions : List ι} {j : ι} (hj : j ∈ sessions) :
    (dropSessions sessions S j).valid = false := by
  rw [dropSessions, if_pos hj]

theorem invalidateSessions_valid {sessions : List ι} {j : ι} (hj : j ∈ sessions) :
    (invalidateSessions sessions S j).valid = false := by
  rw [invalidateSessions, if_pos hj]
  rfl

theorem safe_touchNone {sessions : List ι} :
    touchNone.Safe may (Stage sessions B fun B' => ∀ j, B' j = B j) B :=
  (safe_stage (fun _ b => b) [] (List.nil_subset _)).mono fun _ _ h => h.mono fun _ h j => (h j).trans rfl

theorem safe_wait {sessions : List ι} :
    (wait sessions).Safe may (Stage sessions B fun B' => ∀ j, B' j = B j) B :=
  (safe_stage (fun _ b => b) sessions (List.Subset.refl _)).mono fun _ _ h =>
    h.mono fun _ h j => (h j).trans (ite_self _)

/-- The backends of the sessions when their tokens are encoded. -/
def Encoded (c : Fleet ι) (S : ι → Session) (items : List (DecodeItem ι)) (B B' : ι → Backend) : Prop :=
  ∀ item ∈ items, B' item.session =
    encoded (c.options item.session) (S item.session) [item.token] (B item.session)

theorem safe_encode (w : BatchPaths) (hnodup : (items.map DecodeItem.session).Nodup) :
    (if w.pipeline then onBackends (items.map DecodeItem.session) (encodedItems c S items)
      else encodeLoop c S items).Safe may
        (Stage (items.map DecodeItem.session) B (Encoded c S items B)) B := by
  split
  · refine (safe_stage _ _ (List.Subset.refl _)).mono fun _ _ h => h.mono fun B' h item hitem => ?_
    rw [h, if_pos (List.mem_map_of_mem hitem), encodedItems_of_mem hnodup hitem]
  · refine (safe_encodeLoop c S hnodup (List.Subset.refl _)).mono fun _ _ h =>
      h.mono fun B' h item hitem => ?_
    rw [h, encodedItems_of_mem hnodup hitem]

/-- The logits of some sessions are read. -/
def Read (sessions : List ι) (B B' : ι → Backend) : Prop :=
  ∀ j ∈ sessions, B' j = { B j with logits := (B j).caches }

theorem safe_read {sessions : List ι} :
    (readLoop sessions).Safe may (Stage sessions B (Read sessions B)) B :=
  (safe_readLoop (List.Subset.refl _)).mono fun _ _ h => h.mono fun _ h j hj => (h j).trans (if_pos hj)

theorem safe_groupedCalls (w : BatchPaths) (hnodup : (items.map DecodeItem.session).Nodup) :
    (groupedCalls c w S items).Safe may (Stage (items.map DecodeItem.session) B fun B' =>
      (∀ item ∈ items, (c.options item.session).family.isGlm = false ∧ (S item.session).valid = true) ∧
        ∃ B₁, Encoded c S items B B₁ ∧ Read (items.map DecodeItem.session) B₁ B') B := by
  refine safe_andThen safe_touchNone fun B₀ h₀ => ?_
  obtain rfl : B₀ = B := funext h₀
  refine safe_andThen (R := fun B' => (∀ item ∈ items, (c.options item.session).family.isGlm = false ∧
    (S item.session).valid = true) ∧ B' = B₀) ⟨fun _ _ => rfl, fun hgraphs => ⟨?_, rfl⟩⟩ ?_
  · intro item hitem
    have := List.all_eq_true.1 hgraphs item hitem
    simp only [Bool.and_eq_true, Bool.not_eq_true'] at this
    exact ⟨this.1.1.2, this.1.2⟩
  rintro B₁ ⟨hgraphs, rfl⟩
  refine safe_andThen (safe_encode w hnodup) fun B₂ hencoded => ?_
  refine safe_andThen safe_wait fun B₃ h₃ => ?_
  obtain rfl : B₃ = B₂ := funext h₃
  exact safe_read.mono fun _ _ h => h.mono fun _ h => ⟨hgraphs, B₃, hencoded, h⟩

theorem safe_evalGrouped (w : BatchPaths) (hnodup : (items.map DecodeItem.session).Nodup)
    (hwhole : ∀ item ∈ items, Whole (c.options item.session)) (hcons : c.Consistent S B) :
    (evalGrouped c w S items).Safe may (BatchPost c items S B) B := by
  refine (safe_groupedCalls w hnodup).bind ?_
  rintro ok B' ⟨hframe, hdone⟩
  cases ok with
  | false =>
    refine .dropped (fun h => (nomatch h)) hcons hframe (fun j hj => ?_) (fun j hj => dropSessions_valid hj)
    exact if_neg hj
  | true =>
    obtain ⟨hgraphs, B₁, hencoded, hread⟩ := hdone rfl
    refine ⟨fun j hj => ⟨pushItems_of_not_mem hj, hframe j hj⟩, fun j => ?_, fun _ item hitem => ?_,
      fun h => absurd rfl h⟩
    · by_cases hj : j ∈ items.map DecodeItem.session
      · obtain ⟨item, hitem, rfl⟩ := List.mem_map.1 hj
        obtain ⟨hglm, hv⟩ := hgraphs item hitem
        rw [hread _ hj, hencoded item hitem]
        exact (hwhole item hitem).consistent_encoded hglm (hcons _) hv [item.token]
          (congrArg Session.checkpoint (pushItems_of_mem hnodup hitem))
      · change Sync.Consistent (c.kind j) (pushItems items S j) (B' j)
        rw [pushItems_of_not_mem hj, hframe j hj]
        exact hcons j
    · have hpush := pushItems_of_mem (S := S) hnodup hitem
      exact ⟨congrArg Session.valid hpush, congrArg Session.checkpoint hpush⟩

theorem safe_ds4SessionsEvalBatchCuda (w : BatchPaths)
    (hk : ∀ j d, (c.options j).family = .distributed d → d.glm = true → d.kind = .rows)
    (hwhole : items.length ≠ 1 → ∀ item ∈ items, Whole (c.options item.session))
    (hcons : c.Consistent S B) :
    (ds4SessionsEvalBatchCuda c w items S).Safe Call.Settled (BatchPost c items S B) B := by
  match items, hwhole with
  | [], _ => exact .unchanged hcons
  | [item], _ =>
    refine (safe_ds4SessionEval (c.options item.session) (hk item.session) item.token
      (hcons item.session)).on.bind ?_
    rintro ⟨s, rc⟩ B' ⟨hB, hs⟩
    refine ⟨fun j hj => ?_, consistent_update hcons hB hs.consistent, fun hok it hit => ?_, fun hrc j hj => ?_⟩
    · have hne : j ≠ item.session := fun he => hj (he ▸ List.mem_cons_self)
      exact ⟨Function.update_of_ne hne _ _, hB j hne⟩
    · obtain rfl := List.mem_singleton.1 hit
      change (Function.update S it.session s it.session).valid = true ∧
        (Function.update S it.session s it.session).checkpoint = _
      rw [Function.update_self]
      exact hs.stepped hok
    · obtain rfl := List.mem_singleton.1 hj
      change (Function.update S item.session s item.session).valid = false ∨
        (Function.update S item.session s item.session = _ ∧ _)
      rw [Function.update_self]
      exact hs.undone hrc
  | first :: second :: rest, hwhole =>
    rw [ds4SessionsEvalBatchCuda]
    swap
    · exact fun h => (nomatch h)
    split
    · exact .unchanged hcons
    · next hcheck =>
      have hnodup := nodup_of_checkDecodeItems hcheck
      split
      · exact safe_evalGrouped w hnodup (hwhole (by simp)) hcons
      · refine (safe_evalLoop hk hnodup hcons).bind ?_
        rintro ⟨S', rc⟩ B' ⟨hframe, hcons', hstepped⟩
        have hfail : ∀ rc, rc ≠ .ok → BatchPost c (first :: second :: rest) S B
            (invalidateSessions ((first :: second :: rest).map DecodeItem.session) S', rc) B' := by
          intro rc hrc
          refine .dropped hrc hcons (fun j hj => (hframe j hj).2) (fun j hj => ?_)
            (fun j hj => invalidateSessions_valid hj)
          exact (if_neg hj).trans (hframe j hj).1
        cases rc with
        | ok => exact ⟨hframe, hcons', hstepped, fun h => absurd rfl h⟩
        | failed err => exact hfail _ (fun h => (nomatch h))
        | interrupted err => exact hfail _ (fun h => (nomatch h))

theorem safe_ds4SessionsEvalBatch (w : BatchPaths)
    (hk : ∀ j d, (c.options j).family = .distributed d → d.glm = true → d.kind = .rows)
    (hwhole : items.length ≠ 1 → ∀ item ∈ items, Whole (c.options item.session))
    (hcons : c.Consistent S B) :
    (ds4SessionsEvalBatch c w items S).Safe Call.Settled (BatchPost c items S B) B := by
  rw [ds4SessionsEvalBatch.eq_def]
  split
  · split
    · exact .unchanged hcons
    · exact safe_ds4SessionsEvalBatchCuda w hk hwhole hcons
  · exact safe_ds4SessionsEvalBatchCuda w hk hwhole hcons

/-! ## With a prefill -/

/-- What a batch with a prefill has to end in; a prefill that is cancelled may leave a prefix of its
prompt. -/
structure MixedPost (c : Fleet ι) (items : List (DecodeItem ι)) (p : ι) (prompt : List Int)
    (S : ι → Session) (B : ι → Backend) (r : (ι → Session) × Rc) (B' : ι → Backend) : Prop where
  frame : ∀ j, j ∉ p :: items.map DecodeItem.session → r.1 j = S j ∧ B' j = B j
  consistent : c.Consistent r.1 B'
  stepped : r.2 = .ok → Stepped items S r.1
  prefilled : r.2 = .ok → (r.1 p).valid = true ∧
    (r.1 p).checkpoint = (c.options p).family.truncate prompt
  undone : r.2 ≠ .ok → ∀ j ∈ items.map DecodeItem.session,
    (r.1 j).valid = false ∨ (r.1 j = S j ∧ B' j = B j)
  failed : ∀ err, r.2 = .failed err → (r.1 p).valid = false ∨ (r.1 p = S p ∧ B' p = B p)
  interrupted : ∀ err, r.2 = .interrupted err →
    (r.1 p).valid = false ∨ (r.1 p).checkpoint <+: prompt ∨ (r.1 p = S p ∧ B' p = B p)

section Mixed

variable {p : ι} {prompt : List Int}

omit [DecidableEq ι] in
theorem MixedPost.unchanged (hcons : c.Consistent S B) :
    MixedPost c items p prompt S B (S, .failed err) B where
  frame _ _ := ⟨rfl, rfl⟩
  consistent := hcons
  stepped h := nomatch h
  prefilled h := nomatch h
  undone _ _ _ := .inr ⟨rfl, rfl⟩
  failed _ _ := .inr ⟨rfl, rfl⟩
  interrupted _ h := nomatch h

theorem checked_of_checkMixedItem {before : List (DecodeItem ι)} {item : DecodeItem ι}
    (h : checkMixedItem c S p before item = none) : item.session ≠ p ∧ (S item.session).valid = true ∧
      item.session ∉ before.map DecodeItem.session := by
  rw [checkMixedItem] at h
  split at h
  · cases h
  · next hgood =>
    simp only [not_or, Bool.not_eq_true', Bool.not_eq_false] at hgood
    refine ⟨hgood.1, hgood.2.2.1, fun hmem => ?_⟩
    rw [Option.map_eq_none_iff, List.findIdx?_eq_none_iff] at h
    obtain ⟨b, hb, he⟩ := List.mem_map.1 hmem
    simpa [he] using h b hb

theorem checkMixedItems_cons {before : List (DecodeItem ι)} {item : DecodeItem ι}
    (h : checkMixedItems c S p before (item :: items) = none) :
    checkMixedItem c S p before item = none ∧ checkMixedItems c S p (before ++ [item]) items = none := by
  rw [checkMixedItems] at h
  split at h
  · cases h
  · next hitem => exact ⟨hitem, h⟩

theorem nodup_of_checkMixedItems (h : checkMixedItems c S p [] items = none) :
    (items.map DecodeItem.session).Nodup := by
  have hnil : (([] : List (DecodeItem ι)).map DecodeItem.session).Nodup := List.Pairwise.nil
  have hfresh : ∀ before item, checkMixedItem c S p before item = none →
      item.session ∉ before.map DecodeItem.session := fun _ _ h => (checked_of_checkMixedItem h).2.2
  exact nodup_of_fresh (fun _ _ _ => checkMixedItems_cons) hfresh hnil h

theorem checked_of_checkMixedItems {before : List (DecodeItem ι)}
    (h : checkMixedItems c S p before items = none) :
    ∀ item ∈ items, item.session ≠ p ∧ (S item.session).valid = true := by
  induction items generalizing before with
  | nil => exact fun _ h => (nomatch h)
  | cons item items ih =>
    obtain ⟨hitem, hrest⟩ := checkMixedItems_cons h
    intro it hit
    rcases List.mem_cons.1 hit with rfl | hit
    · obtain ⟨hne, hv, -⟩ := checked_of_checkMixedItem hitem
      exact ⟨hne, hv⟩
    · exact ih hrest it hit

theorem safe_mixedCalls (hnodup : (items.map DecodeItem.session).Nodup)
    (hne : ∀ item ∈ items, item.session ≠ p) :
    (mixedCalls c S items p prompt).Safe may (Stage (p :: items.map DecodeItem.session) B fun B' =>
      ∃ B₁, B₁ p = encoded (c.options p) (S p) (prompt.drop (S p).checkpoint.length) (B p) ∧
        Encoded c S items B B₁ ∧ Read (p :: items.map DecodeItem.session) B₁ B') B := by
  refine safe_andThen safe_touchNone fun B₀ h₀ => ?_
  obtain rfl : B₀ = B := funext h₀
  refine safe_andThen (safe_stage _ _ (List.Subset.refl _)) fun B₁ h₁ => ?_
  refine safe_andThen safe_wait fun B₂ h₂ => ?_
  obtain rfl : B₂ = B₁ := funext h₂
  refine safe_andThen safe_read fun B₃ hread => ?_
  refine safe_wait.mono fun _ _ h => h.mono fun B₄ h₄ => ?_
  obtain rfl : B₄ = B₃ := funext h₄
  refine ⟨B₂, ?_, fun item hitem => ?_, hread⟩
  · rw [h₁, if_pos List.mem_cons_self, encodedMixed, if_pos rfl]
  · rw [h₁, if_pos (List.mem_cons_of_mem _ (List.mem_map_of_mem hitem)), encodedMixed,
      if_neg (hne item hitem), encodedItems_of_mem hnodup hitem]

omit [DecidableEq ι] in
theorem Family.truncate_of_not_glm {f : Family} (h : f.isGlm = false) (prompt : List Int) :
    f.truncate prompt = prompt := by
  cases f with
  | glm g => cases h
  | _ => rfl

theorem safe_evalMixed (hnodup : (items.map DecodeItem.session).Nodup)
    (hgood : ∀ item ∈ items, item.session ≠ p ∧ (S item.session).valid = true)
    (hglm : ∀ item ∈ items, (c.options item.session).family.isGlm = false)
    (hwhole : ∀ item ∈ items, Whole (c.options item.session)) (hp : Whole (c.options p))
    (hpglm : (c.options p).family.isGlm = false) (hpv : (S p).valid = true)
    (hprompt : (S p).checkpoint <+: prompt) (hcons : c.Consistent S B) :
    (evalMixed c S items p prompt).Safe may (MixedPost c items p prompt S B) B := by
  refine (safe_mixedCalls hnodup fun item hitem => (hgood item hitem).1).bind ?_
  rintro ok B' ⟨hframe, hdone⟩
  cases ok with
  | false =>
    have hv : ∀ j ∈ p :: items.map DecodeItem.session,
        (dropSessions (p :: items.map DecodeItem.session) S j).valid = false :=
      fun j hj => dropSessions_valid hj
    refine ⟨fun j hj => ⟨if_neg hj, hframe j hj⟩, fun j => ?_, fun h => (nomatch h), fun h => (nomatch h),
      fun _ j hj => .inl (hv j (List.mem_cons_of_mem _ hj)), fun _ _ => .inl (hv p List.mem_cons_self),
      fun _ h => (nomatch h)⟩
    by_cases hj : j ∈ p :: items.map DecodeItem.session
    · exact fun h => (nomatch (hv j hj).symm.trans h)
    · change Sync.Consistent (c.kind j) (dropSessions (p :: items.map DecodeItem.session) S j) (B' j)
      rw [dropSessions, if_neg hj, hframe j hj]
      exact hcons j
  | true =>
    obtain ⟨B₁, hB₁, hencoded, hread⟩ := hdone rfl
    let s : Session := { S p with checkpoint := prompt, valid := true }
    have hpmem : p ∉ items.map DecodeItem.session := fun hmem => by
      obtain ⟨item, hitem, he⟩ := List.mem_map.1 hmem
      exact (hgood item hitem).1 he
    have hSp : pushItems items (Function.update S p s) p = s :=
      (pushItems_of_not_mem hpmem).trans (Function.update_self _ _ _)
    have hpush : ∀ item ∈ items, pushItems items (Function.update S p s) item.session =
        push (S item.session) [item.token] true := by
      intro item hitem
      rw [pushItems_of_mem hnodup hitem, Function.update_of_ne (hgood item hitem).1]
    have hrest : ∀ j, j ∉ p :: items.map DecodeItem.session →
        pushItems items (Function.update S p s) j = S j := by
      intro j hj
      rw [List.mem_cons, not_or] at hj
      exact (pushItems_of_not_mem hj.2).trans (Function.update_of_ne hj.1 _ _)
    refine ⟨fun j hj => ⟨hrest j hj, hframe j hj⟩, fun j => ?_, fun _ item hitem => ?_, fun _ => ?_,
      fun h => absurd rfl h, fun _ h => (nomatch h), fun _ h => (nomatch h)⟩
    · change Sync.Consistent (c.kind j) (pushItems items (Function.update S p s) j) (B' j)
      by_cases hj : j ∈ p :: items.map DecodeItem.session
      · rw [hread j hj]
        rcases List.mem_cons.1 hj with rfl | hj
        · rw [hB₁, hSp]
          refine hp.consistent_encoded hpglm (hcons j) hpv _ ?_
          obtain ⟨ts, rfl⟩ := hprompt
          rw [List.drop_left]
        · obtain ⟨item, hitem, rfl⟩ := List.mem_map.1 hj
          rw [hencoded item hitem, hpush item hitem]
          exact (hwhole item hitem).consistent_encoded (hglm item hitem) (hcons _) (hgood item hitem).2
            [item.token] rfl
      · rw [hrest j hj, hframe j hj]
        exact hcons j
    · exact ⟨congrArg Session.valid (hpush item hitem), congrArg Session.checkpoint (hpush item hitem)⟩
    · rw [Family.truncate_of_not_glm hpglm]
      exact ⟨congrArg Session.valid hSp, congrArg Session.checkpoint hSp⟩

theorem safe_ds4SessionsEvalBatchWithPrefillCuda (w : BatchPaths)
    (hk : ∀ j d, (c.options j).family = .distributed d → d.glm = true → d.kind = .rows)
    (hwhole : items.length ≠ 1 ∨ w.mixed = true → ∀ item ∈ items, Whole (c.options item.session))
    (hp : w.mixed = true → Whole (c.options p)) (hcons : c.Consistent S B) :
    (ds4SessionsEvalBatchWithPrefillCuda c w items p prompt S).Safe Call.Settled
      (MixedPost c items p prompt S B) B := by
  rw [ds4SessionsEvalBatchWithPrefillCuda]
  split
  · exact .unchanged hcons
  split
  · exact .unchanged hcons
  next hbad =>
  simp only [not_or, Bool.not_eq_true', Bool.not_eq_false] at hbad
  obtain ⟨hpv, -, -, hprompt⟩ := hbad
  rw [List.isPrefixOf_iff_prefix] at hprompt
  split
  · exact .unchanged hcons
  next hcheck =>
  have hnodup := nodup_of_checkMixedItems hcheck
  have hgood := checked_of_checkMixedItems hcheck
  split
  · next hnative =>
    simp only [Bool.and_eq_true, Bool.not_eq_true'] at hnative
    obtain ⟨⟨hmixed, hpglm⟩, -⟩ := hnative
    exact safe_evalMixed hnodup hgood (fun item _ => (c.glm_eq _ _).trans hpglm) (hwhole (.inr hmixed))
      (hp hmixed) hpglm hpv hprompt hcons
  · refine (safe_ds4SessionSync (c.options p) [] (S p) prompt (B p) (hk p) (hcons p)).on.bind ?_
    rintro ⟨s, rc⟩ B' ⟨hB, hs⟩
    have hpmem : p ∉ items.map DecodeItem.session := fun hmem => by
      obtain ⟨item, hitem, he⟩ := List.mem_map.1 hmem
      exact (hgood item hitem).1 he
    have hcons' : c.Consistent (Function.update S p s) B' := consistent_update hcons hB hs.1
    have hother : ∀ j, j ≠ p → Function.update S p s j = S j ∧ B' j = B j := fun j hj =>
      ⟨Function.update_of_ne hj _ _, hB j hj⟩
    have hitems : ∀ j ∈ items.map DecodeItem.session, j ≠ p := fun j hj he => hpmem (he ▸ hj)
    have hself : Function.update S p s p = s := Function.update_self _ _ _
    have hsplit : ∀ j, j ∉ p :: items.map DecodeItem.session → j ≠ p ∧ j ∉ items.map DecodeItem.session :=
      fun j hj => not_or.1 fun h => hj (List.mem_cons.2 h)
    cases rc with
    | failed err =>
      refine ⟨fun j hj => hother j (hsplit j hj).1, hcons', fun h => (nomatch h), fun h => (nomatch h),
        fun _ j hj => .inr (hother j (hitems j hj)), fun _ _ => ?_, fun _ h => (nomatch h)⟩
      change (Function.update S p s p).valid = false ∨ (Function.update S p s p = S p ∧ B' p = B p)
      rw [hself]
      exact hs.2
    | interrupted err =>
      refine ⟨fun j hj => hother j (hsplit j hj).1, hcons', fun h => (nomatch h), fun h => (nomatch h),
        fun _ j hj => .inr (hother j (hitems j hj)), fun _ h => (nomatch h), fun _ _ => ?_⟩
      change (Function.update S p s p).valid = false ∨ (Function.update S p s p).checkpoint <+: prompt ∨
        (Function.update S p s p = S p ∧ B' p = B p)
      rw [hself]
      exact hs.2.imp_right fun h => h.imp_left fun h => h.trans ((c.options p).family.truncate_isPrefix prompt)
    | ok =>
      refine (safe_ds4SessionsEvalBatch w hk (fun h => hwhole (.inl h)) hcons').bind ?_
      rintro ⟨S', rc⟩ B'' ⟨hframe, hcons'', hstepped, hundone⟩
      have hp' : S' p = s := (hframe p hpmem).1.trans hself
      have hrest : ∀ j, j ∉ p :: items.map DecodeItem.session → S' j = S j ∧ B'' j = B j := by
        intro j hj
        obtain ⟨hne, hj⟩ := hsplit j hj
        exact ⟨(hframe j hj).1.trans (hother j hne).1, (hframe j hj).2.trans (hother j hne).2⟩
      have hlost : ∀ rc, rc ≠ .ok → (∀ j ∈ items.map DecodeItem.session,
          (S' j).valid = false ∨ (S' j = Function.update S p s j ∧ B'' j = B' j)) →
          MixedPost c items p prompt S B (invalidateSessions [p] S', rc) B'' := by
        intro rc hrc hundone
        have hkeep : ∀ j, j ≠ p → invalidateSessions [p] S' j = S' j := fun j hj =>
          if_neg fun hmem => hj (List.mem_singleton.1 hmem)
        have hgone : (invalidateSessions [p] S' p).valid = false :=
          invalidateSessions_valid (List.mem_singleton_self p)
        refine ⟨fun j hj => ⟨(hkeep j (hsplit j hj).1).trans (hrest j hj).1, (hrest j hj).2⟩, fun j => ?_,
          fun h => absurd h hrc, fun h => absurd h hrc, fun _ j hj => ?_, fun _ _ => .inl hgone,
          fun _ _ => .inl hgone⟩
        · by_cases hj : j = p
          · subst hj
            exact fun h => (nomatch hgone.symm.trans h)
          · change Sync.Consistent (c.kind j) (invalidateSessions [p] S' j) (B'' j)
            rw [hkeep j hj]
            exact hcons'' j
        · change (invalidateSessions [p] S' j).valid = false ∨ (invalidateSessions [p] S' j = S j ∧ B'' j = B j)
          obtain ⟨hS, hB⟩ := hother j (hitems j hj)
          rw [hkeep j (hitems j hj), ← hS, ← hB]
          exact hundone j hj
      cases rc with
      | failed err => exact hlost _ (fun h => (nomatch h)) (hundone fun h => (nomatch h))
      | interrupted err => exact hlost _ (fun h => (nomatch h)) (hundone fun h => (nomatch h))
      | ok =>
        refine ⟨hrest, hcons'', fun _ item hitem => ?_, fun _ => ?_, fun h => absurd rfl h,
          fun _ h => (nomatch h), fun _ h => (nomatch h)⟩
        · have := hstepped rfl item hitem
          rwa [Function.update_of_ne (hgood item hitem).1] at this
        · change (S' p).valid = true ∧ (S' p).checkpoint = _
          rw [hp']
          exact hs.2

end Mixed

end Batches

/-- As long as no call fails where a session claims too much, a batch is all or nothing: either every
session has its token, and the prefill its prompt, or the sessions are as they were or not valid, and
in both cases every valid session says what is so. -/
theorem evalBatch_allOrNothing (c : Fleet ι) (w : BatchPaths) (items : List (DecodeItem ι))
    (S : ι → Session) (B : ι → Backend)
    (hk : ∀ j d, (c.options j).family = .distributed d → d.glm = true → d.kind = .rows)
    (hwhole : items.length ≠ 1 ∨ w.mixed = true → ∀ item ∈ items, Whole (c.options item.session))
    (hcons : c.Consistent S B) :
    (∀ os, let r := (ds4SessionsEvalBatchCuda c w items S).exec os B
      (∀ l ∈ r.failed, l.Settled) → BatchPost c items S B r.result r.state) ∧
    ∀ p prompt os, (w.mixed = true → Whole (c.options p)) →
      let r := (ds4SessionsEvalBatchWithPrefillCuda c w items p prompt S).exec os B
      (∀ l ∈ r.failed, l.Settled) → MixedPost c items p prompt S B r.result r.state :=
  ⟨fun os hset => (safe_ds4SessionsEvalBatchCuda w hk (fun h => hwhole (.inl h)) hcons).exec os hset,
    fun _ _ os hp hset => (safe_ds4SessionsEvalBatchWithPrefillCuda w hk hwhole hp hcons).exec os hset⟩

/-- Sessions of a DeepSeek graph. -/
def deepSeekFleet : Fleet Nat where
  engine _ := 0
  options _ := ⟨8, .deepSeek ⟨"CUDA", 4, 4, 4, 1, false, 0, false, false, 0⟩, false, false⟩
  support _ := false
  vocab := 100
  glm_eq _ _ := rfl

/-- Session 2 has its prompt prefilled while sessions 0 and 1 decode. -/
theorem deepSeek_mixed_allOrNothing :
    let S : Nat → Session := fun j => ⟨[j], true, 0, []⟩
    let B : Nat → Backend := fun j => ⟨[j], [j]⟩
    let items : List (DecodeItem Nat) := [⟨0, 7⟩, ⟨1, 8⟩]
    let r := (ds4SessionsEvalBatchWithPrefillCuda deepSeekFleet ⟨true, true⟩ items 2 [2, 3, 4] S).exec [] B
    r.result.2 = .ok ∧ MixedPost deepSeekFleet items 2 [2, 3, 4] S B r.result r.state := by
  refine ⟨rfl, (evalBatch_allOrNothing deepSeekFleet ⟨true, true⟩ [⟨0, 7⟩, ⟨1, 8⟩]
    (fun j => ⟨[j], true, 0, []⟩) (fun j => ⟨[j], [j]⟩) (fun _ _ h => (nomatch h)) (fun _ _ _ _ h => (nomatch h)) (fun _ _ => ⟨rfl, rfl⟩)).2 2 [2, 3, 4] []
    (fun _ _ h => (nomatch h)) ?_⟩
  rw [Prog.exec_nil_failed]
  exact fun l hl => (nomatch hl)

/-- Sessions of a GLM graph whose prompts are cut to two tokens. -/
def truncatingFleet : Fleet Nat where
  engine _ := 0
  options _ := ⟨8, .glm ⟨"CUDA", true, 8, 2, false, true, 8, 0, 0, false, true, false, 0, 0, 0, true, false,
    0, false, 0, 0⟩, false, false⟩
  support _ := false
  vocab := 100
  glm_eq _ _ := rfl

/-- With `DS4_GLM_PREFILL_TRUNC` the checkpoint of the prefill session is not the prompt. -/
theorem truncated_prefill :
    let S : Nat → Session := fun j => ⟨[j], true, 1, []⟩
    let B : Nat → Backend := fun j => ⟨[j], [j]⟩
    let r := (ds4SessionsEvalBatchWithPrefillCuda truncatingFleet ⟨true, false⟩ [⟨0, 7⟩] 2 [2, 3, 4] S).exec [] B
    truncatingFleet.Consistent S B ∧ r.failed = [] ∧ r.result.2 = .ok ∧
      (r.result.1 2).checkpoint ≠ [2, 3, 4] := by
  refine ⟨fun _ _ => ⟨List.prefix_rfl, rfl⟩, Prog.exec_nil_failed _ _, rfl, ?_⟩
  change [2, 3] ≠ [(2 : Int), 3, 4]
  decide

end Ds4.Sync
