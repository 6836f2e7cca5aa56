import Ds4.Engine.Sync

/-!
# Sync of a distributed session

The coordinator evaluates its own layers and notes the tokens in its checkpoint before the workers
evaluate theirs. When an attempt fails it builds the route anew and replays the whole prompt. The
caches of the backend are those of all layers together.
-/

namespace Ds4.Sync
open Faulty

/-- What the coordinator looks at in a route plan. -/
structure Plan where
  /-- There are workers behind the coordinator. -/
  workers : Bool
  /-- The first of them is connected. -/
  linked : Bool
  /-- The last of them returns logits, or the coordinator has the output head. -/
  outputs : Bool
  deriving DecidableEq, Repr

structure Dist where
  glm : Bool
  kind : Kind
  prefillCap : Nat
  /-- The chunk size that was asked for, zero when there is none. -/
  prefillChunk : Nat
  /-- Pipelined prefill is not switched off. -/
  pipeline : Bool
  plan : Plan
  /-- The plan after the route was built anew. -/
  newPlan : Plan
  deriving DecidableEq, Repr

namespace Dist

variable (d : Dist)

/-- `dist_coordinator_prefill_chunk_cap`. -/
def prefillChunkCap : Option Nat :=
  if d.prefillCap = 0 then none
  else
    let requested := if d.prefillChunk = 0 then d.prefillCap else d.prefillChunk
    if d.prefillCap < requested then none else some requested

/-- `dist_coordinator_can_pipeline_prefill`. -/
def canPipelinePrefill (p : Plan) (n cap : Nat) : Bool :=
  d.pipeline && cap ≠ 0 && cap < n && p.workers && p.linked && p.outputs

/-- `ds4_session_layer_slice_reset`; rows of GLM are overwritten and not reset. -/
def layerSliceReset (s : Session) : SyncProg (Session × Bool) :=
  let s := { s with checkpoint := [], valid := false, glmDenseCacheLen := 0, checkpointImages := [] }
  if d.glm then pure (s, true)
  else do
    if ← change .eval fun _ => [] then pure (s, true) else pure (s, false)

/-- `ds4_session_eval_layer_slice` for the layers of the coordinator; the tokens are noted in the
checkpoint. Only a coordinator without workers gets logits from it. -/
def evalLayerSlice (p : Plan) (s : Session) (ts : List Int) (pos0 : Nat) : SyncProg (Session × Bool) :=
  if (if s.valid then s.checkpoint.length ≠ pos0 else pos0 ≠ 0) ∨ d.prefillCap < ts.length then
    pure (s, false)
  else do
    if ← (if p.workers then change .eval id else forward .eval d.kind pos0 ts true) then
      pure ({ s with checkpoint := s.checkpoint ++ ts, valid := true }, true)
    else pure ({ s with valid := false }, false)

/-- A span goes through the layers of the coordinator and then through those of the workers. -/
def evalLayers (p : Plan) (recovering : Bool) (s : Session) (ts : List Int) (pos0 : Nat) :
    SyncProg (Session × Bool) :=
  if p.workers && !p.linked then pure (s, false)
  else do
    match ← d.evalLayerSlice p s ts pos0 with
    | (s, false) => pure (s, false)
    | (s, true) =>
      if p.workers then do
        if ← forward (.dist recovering) d.kind pos0 ts true then pure (s, true) else pure (s, false)
      else pure (s, true)

/-- `dist_coordinator_eval_span`. -/
def evalSpan (p : Plan) (recovering : Bool) (s : Session) (ts : List Int) (pos0 : Nat) (reset : Bool) :
    SyncProg (Session × Bool) :=
  if reset = false ∧ s.checkpoint.length < pos0 then pure (s, false)
  else do
    match ← (if reset then d.layerSliceReset s else pure (s, true)) with
    | (s, false) => pure (s, false)
    | (s, true) => d.evalLayers p recovering s ts pos0

/-- Spans of at most `cap` tokens, one after the other. -/
def spanLoop (p : Plan) (recovering : Bool) (prompt : List Int) (cap : Nat) (reset : Bool) (pos : Nat)
    (s : Session) : SyncProg (Session × Bool) :=
  if pos < prompt.length then do
    let c := min (prompt.length - pos) cap - 1
    match ← d.evalSpan p recovering s ((prompt.drop pos).take (c + 1)) pos (reset && pos = 0) with
    | (s, false) => pure (s, false)
    | (s, true) => spanLoop p recovering prompt cap reset (pos + (c + 1)) s
  else pure (s, true)
termination_by prompt.length - pos

/-- The coordinator's part of a pipelined prefill: for every chunk it waits for a place in the
window, evaluates its layers and hands the chunk to the sender. -/
def pipelineLoop (p : Plan) (recovering : Bool) (prompt : List Int) (cap : Nat) (reset : Bool)
    (start pos : Nat) (s : Session) : SyncProg (Session × Bool) :=
  if pos < prompt.length then do
    let c := min (prompt.length - pos) cap - 1
    if ← change (.dist (recovering && s.valid)) id then
      match ← (if reset && pos = start then d.layerSliceReset s else pure (s, true)) with
      | (s, false) => pure (s, false)
      | (s, true) => do
        match ← d.evalLayerSlice p s ((prompt.drop pos).take (c + 1)) pos with
        | (s, false) => pure (s, false)
        | (s, true) => do
          if ← change (.dist (recovering && s.valid)) id then
            pipelineLoop p recovering prompt cap reset start (pos + (c + 1)) s
          else pure (s, false)
    else pure (s, false)
  else pure (s, true)
termination_by prompt.length - pos

/-- `dist_coordinator_prefill_prompt_pipelined`; the workers are done when the last result is read. -/
def prefillPromptPipelined (p : Plan) (recovering : Bool) (prompt : List Int) (cap start : Nat)
    (reset : Bool) (s : Session) : SyncProg (Session × Bool) := do
  if ← link (.dist (recovering && s.valid)) then
    match ← d.pipelineLoop p recovering prompt cap reset start start s with
    | (s, false) => pure (s, false)
    | (s, true) => do
      if ← forward (.dist (recovering && s.valid)) d.kind start (prompt.drop start) true then
        pure (s, true)
      else pure (s, false)
  else pure (s, false)

/-- `dist_coordinator_prefill_prompt`. -/
def prefillPrompt (p : Plan) (recovering : Bool) (prompt : List Int) (s : Session) :
    SyncProg (Session × Bool) :=
  match d.prefillChunkCap with
  | none => pure (s, false)
  | some cap =>
    if d.canPipelinePrefill p prompt.length cap then
      d.prefillPromptPipelined p recovering prompt cap 0 true s
    else d.spanLoop p recovering prompt cap true 0 s

/-- `dist_coordinator_rebuild_from_transcript`. -/
def rebuildFromTranscript (prompt : List Int) (s : Session) : SyncProg (Session × Rc) := do
  if ← link (.dist s.valid) then
    match ← d.prefillPrompt d.newPlan true prompt s with
    | (s, true) => pure (s, .ok)
    | (s, false) => pure (s, .failed "distributed prefill failed")
  else pure (s, .failed "distributed route failed")

/-- An attempt, and the replay when it fails. -/
def orRebuild (prompt : List Int) (attempt : SyncProg (Session × Bool)) : SyncProg (Session × Rc) := do
  match ← attempt with
  | (s, true) => pure (s, .ok)
  | (s, false) => d.rebuildFromTranscript prompt s

end Dist

/-- `ds4_dist_session_sync`. The texts of its errors are those of many callees and left out. -/
def ds4DistSessionSync (d : Dist) (s : Session) (prompt : List Int) : SyncProg (Session × Rc) := do
  if ← link .link then
    if s.valid && s.checkpoint.isPrefixOf prompt then
      if s.checkpoint.length = prompt.length then pure (s, .ok)
      else
        match d.prefillChunkCap with
        | none => pure (s, .failed "distributed prefill chunk")
        | some cap =>
          let pos0 := s.checkpoint.length
          d.orRebuild prompt
            (if d.canPipelinePrefill d.plan (prompt.length - pos0) cap then
              d.prefillPromptPipelined d.plan false prompt cap pos0 false s
            else d.spanLoop d.plan false prompt cap false pos0 s)
    else d.orRebuild prompt (d.prefillPrompt d.plan false prompt s)
  else pure (s, .failed "distributed route failed")

/-! ## The coordinator keeps session and caches together -/

namespace Dist

variable {d : Dist}

theorem prefillChunkCap_pos {cap : Nat} (h : d.prefillChunkCap = some cap) :
    0 < cap ∧ cap ≤ d.prefillCap := by
  rw [prefillChunkCap] at h
  split at h
  · cases h
  · dsimp only at h
    generalize hr : (if d.prefillChunk = 0 then d.prefillCap else d.prefillChunk) = requested at h
    split at h
    · cases h
    · have he : requested = cap := Option.some.inj h
      split at hr <;> omega

/-- What an attempt ends in: when it is the replay and fails, no checkpoint is left. -/
def Attempt (d : Dist) (recovering : Bool) (prompt : List Int) (r : Session × Bool) (b : Backend) : Prop :=
  match r.2 with
  | true => r.1.valid = true ∧ r.1.checkpoint = prompt ∧ b.Holds d.kind prompt ∧ b.logits = prompt
  | false => recovering = true → r.1.valid = false

/-- The session in front of a span: what it has of the prompt, and what the caches of all layers
hold of it. -/
structure Spans (d : Dist) (prompt : List Int) (pos held : Nat) (s : Session) (b : Backend) : Prop where
  checkpoint : s.checkpoint = prompt.take pos
  start : s.valid = false → pos = 0
  holds : b.Holds d.kind (prompt.take held)

theorem safe_layerSliceReset (hk : d.glm = true → d.kind = .rows) (prompt : List Int) (s : Session)
    (b : Backend) :
    (d.layerSliceReset s).Safe Call.Settled
      (fun r b => r.1.valid = false ∧ (r.2 = true → Spans d prompt 0 0 r.1 b)) b := by
  rw [layerSliceReset]
  split
  · next hg =>
    refine ⟨rfl, fun _ => ⟨rfl, fun _ => rfl, ?_⟩⟩
    rw [hk hg]
    exact List.nil_prefix
  · apply safe_change
    · refine ⟨rfl, fun _ => ⟨rfl, fun _ => rfl, ?_⟩⟩
      cases d.kind with
      | rows => exact List.nil_prefix
      | recurrent => rfl
    · intro _ _
      exact ⟨rfl, fun hf => by cases hf⟩

/-- The layers of the coordinator evaluate the next tokens. -/
theorem safe_evalLayerSlice (p : Plan) {prompt : List Int} {pos held cap c : Nat} {s : Session}
    {b : Backend} (h : Spans d prompt pos held s b) (hlt : pos < prompt.length)
    (hcap : cap ≤ d.prefillCap) (hc : c + 1 ≤ min (prompt.length - pos) cap) :
    (d.evalLayerSlice p s ((prompt.drop pos).take (c + 1)) pos).Safe Call.Settled
      (fun r b' =>
        match r.2 with
        | true => r.1.checkpoint = prompt.take (pos + (c + 1)) ∧ r.1.valid = true ∧
            b' = if p.workers then b else b.eval d.kind pos ((prompt.drop pos).take (c + 1)) true
        | false => r.1.valid = false) b := by
  have hlen : s.checkpoint.length = pos := by
    rw [h.checkpoint, List.length_take_of_le (Nat.le_of_lt hlt)]
  have hpush : s.checkpoint ++ (prompt.drop pos).take (c + 1) = prompt.take (pos + (c + 1)) := by
    rw [h.checkpoint]
    exact List.take_add.symm
  have hgo : ¬((if s.valid then s.checkpoint.length ≠ pos else pos ≠ 0) ∨
      d.prefillCap < ((prompt.drop pos).take (c + 1)).length) := by
    rw [not_or]
    constructor
    · split
      · exact fun hne => hne hlen
      · next hv => exact fun hne => hne (h.start (eq_false_of_ne_true hv))
    · rw [List.length_take]
      omega
  rw [evalLayerSlice, if_neg hgo]
  cases p.workers with
  | true =>
    apply safe_change
    · exact ⟨hpush, rfl, rfl⟩
    · intro _ _
      exact rfl
  | false =>
    apply safe_forward
    · exact ⟨hpush, rfl, rfl⟩
    · intro _ _
      exact rfl

/-- What a span ends in: its tokens are held, or, in the replay, no checkpoint is left. -/
def SpanPost (d : Dist) (p : Plan) (recovering : Bool) (prompt : List Int) (next : Nat)
    (r : Session × Bool) (b : Backend) : Prop :=
  match r.2 with
  | true => Spans d prompt next next r.1 b ∧ r.1.valid = true ∧ b.logits = prompt.take next ∧
      (p.workers = true → p.linked = true)
  | false => recovering = true → r.1.valid = false

theorem safe_evalLayers (p : Plan) (recovering : Bool) {prompt : List Int} {pos cap c : Nat}
    {s : Session} {b : Backend} (h : Spans d prompt pos pos s b) (hlt : pos < prompt.length)
    (hcap : cap ≤ d.prefillCap) (hc : c + 1 ≤ min (prompt.length - pos) cap)
    (hlink : recovering = true → s.valid = true → p.workers = true → p.linked = true) :
    (d.evalLayers p recovering s ((prompt.drop pos).take (c + 1)) pos).Safe Call.Settled
      (SpanPost d p recovering prompt (pos + (c + 1))) b := by
  have hlen : (prompt.take pos).length = pos := List.length_take_of_le (Nat.le_of_lt hlt)
  have htake : prompt.take pos ++ (prompt.drop pos).take (c + 1) = prompt.take (pos + (c + 1)) :=
    List.take_add.symm
  have heval := h.holds.eval ((prompt.drop pos).take (c + 1)) true
  have hlogits := h.holds.logits_eval ((prompt.drop pos).take (c + 1))
  rw [hlen, htake] at heval hlogits
  rw [evalLayers]
  split
  · next hw =>
    rw [Bool.and_eq_true, Bool.not_eq_true'] at hw
    intro hr
    by_contra hv
    have := hlink hr (eq_true_of_ne_false hv) hw.1
    rw [hw.2] at this
    cases this
  · next hw =>
    have hw : p.workers = true → p.linked = true := by
      intro hp
      rw [hp, Bool.true_and, Bool.not_eq_true', Bool.not_eq_false] at hw
      exact hw
    refine (safe_evalLayerSlice p h hlt hcap hc).bind ?_
    intro r b' hr
    obtain ⟨s, ok⟩ := r
    cases ok with
    | false => exact fun _ => hr
    | true =>
      obtain ⟨hs, hv, hb⟩ := hr
      have hstart : s.valid = false → pos + (c + 1) = 0 := fun hf => (by rw [hv] at hf; cases hf)
      dsimp only
      split
      · next hp =>
        rw [if_pos hp] at hb
        subst hb
        apply safe_forward
        · exact ⟨⟨hs, hstart, heval⟩, hv, hlogits, hw⟩
        · intro hset _ hr
          rw [hr] at hset
          cases hset
      · next hp =>
        rw [if_neg hp] at hb
        subst hb
        exact ⟨⟨hs, hstart, heval⟩, hv, hlogits, hw⟩

theorem safe_evalSpan (hk : d.glm = true → d.kind = .rows) (p : Plan) (recovering : Bool)
    {prompt : List Int} {pos cap c : Nat} {s : Session} {b : Backend} (reset : Bool)
    (h : if reset then pos = 0 else Spans d prompt pos pos s b) (hlt : pos < prompt.length)
    (hcap : cap ≤ d.prefillCap) (hc : c + 1 ≤ min (prompt.length - pos) cap)
    (hlink : reset = false → recovering = true → s.valid = true → p.workers = true → p.linked = true) :
    (d.evalSpan p recovering s ((prompt.drop pos).take (c + 1)) pos reset).Safe Call.Settled
      (SpanPost d p recovering prompt (pos + (c + 1))) b := by
  rw [evalSpan]
  cases reset with
  | true =>
    have hz : pos = 0 := h
    rw [if_neg (fun hf => by cases hf.1), if_pos rfl]
    refine (safe_layerSliceReset hk prompt s b).bind ?_
    intro r b hr
    obtain ⟨s, ok⟩ := r
    cases ok with
    | false => exact fun _ => hr.1
    | true =>
      apply safe_evalLayers p recovering _ hlt hcap hc
      · intro _ hv
        rw [hr.1] at hv
        cases hv
      · rw [hz]
        exact hr.2 rfl
  | false =>
    have hs : Spans d prompt pos pos s b := h
    have hlen : s.checkpoint.length = pos := by
      rw [hs.checkpoint, List.length_take_of_le (Nat.le_of_lt hlt)]
    rw [if_neg (by omega)]
    exact safe_evalLayers p recovering hs hlt hcap hc (hlink rfl)

/-- The end of an attempt. -/
theorem attempt_of_spans {recovering : Bool} {prompt : List Int} {pos : Nat} {s : Session} {b : Backend}
    (h : Spans d prompt pos pos s b) (hv : s.valid = true) (hl : b.logits = prompt.take pos)
    (hle : prompt.length ≤ pos) : Attempt d recovering prompt (s, true) b := by
  have htake := List.take_of_length_le hle
  have hck := h.checkpoint
  have hh := h.holds
  rw [htake] at hl hck hh
  exact ⟨hv, hck, hh, hl⟩

theorem safe_spanLoop (hk : d.glm = true → d.kind = .rows) (p : Plan) (recovering : Bool)
    {prompt : List Int} {cap : Nat} (hpos : 0 < cap) (hcap : cap ≤ d.prefillCap) (reset : Bool)
    (n pos : Nat) (s : Session) (b : Backend) (hn : prompt.length - pos ≤ n)
    (h : (reset = true ∧ pos = 0) ∨ Spans d prompt pos pos s b)
    (hdone : prompt.length ≤ pos →
      Spans d prompt pos pos s b ∧ s.valid = true ∧ b.logits = prompt.take pos)
    (hlink : (reset = true ∧ pos = 0) ∨
      (recovering = true → s.valid = true → p.workers = true → p.linked = true)) :
    (d.spanLoop p recovering prompt cap reset pos s).Safe Call.Settled (Attempt d recovering prompt) b := by
  induction n generalizing pos s b with
  | zero =>
    have hle : prompt.length ≤ pos := by omega
    obtain ⟨h, hv, hl⟩ := hdone hle
    rw [spanLoop, if_neg (by omega)]
    exact attempt_of_spans h hv hl hle
  | succ n ih =>
    rw [spanLoop]
    split
    · next hlt =>
      dsimp only
      have hc : min (prompt.length - pos) cap - 1 + 1 ≤ min (prompt.length - pos) cap := by omega
      generalize min (prompt.length - pos) cap - 1 = c at hc ⊢
      refine (safe_evalSpan hk p recovering (reset && pos = 0) ?_ hlt hcap hc ?_).bind ?_
      · split
        · next hr =>
          rw [Bool.and_eq_true] at hr
          exact of_decide_eq_true hr.2
        · next hr => exact h.resolve_left fun hf => hr (by rw [hf.1, hf.2]; rfl)
      · intro hr
        exact hlink.resolve_left fun hf => by rw [hf.1, hf.2] at hr; cases hr
      · intro r b hr
        obtain ⟨s, ok⟩ := r
        cases ok with
        | false => exact hr
        | true =>
          obtain ⟨hs, hv, hl, hw⟩ := hr
          exact ih _ _ _ (by omega) (.inr hs) (fun _ => ⟨hs, hv, hl⟩) (.inr fun _ _ => hw)
    · next hge =>
      have hle := Nat.not_lt.mp hge
      obtain ⟨h, hv, hl⟩ := hdone hle
      exact attempt_of_spans h hv hl hle

/-- A call of the replay that fails where no checkpoint is left. -/
theorem valid_of_settled {recovering : Bool} {s : Session}
    (h : (Call.dist (recovering && s.valid)).Settled) (hr : recovering = true) : s.valid = false := by
  rw [hr, Bool.true_and] at h
  exact h

theorem safe_pipelineLoop (hk : d.glm = true → d.kind = .rows) (p : Plan) (recovering : Bool)
    {prompt : List Int} {cap start : Nat} (hw : p.workers = true) (hpos : 0 < cap)
    (hcap : cap ≤ d.prefillCap) (reset : Bool) (hreset : reset = true → start = 0) (n pos : Nat)
    (s : Session) (b : Backend) (hn : prompt.length - pos ≤ n)
    (h : (reset = true ∧ pos = start) ∨ Spans d prompt pos start s b)
    (hdone : prompt.length ≤ pos → Spans d prompt pos start s b ∧ s.valid = true)
    (hle : start ≤ pos) :
    (d.pipelineLoop p recovering prompt cap reset start pos s).Safe Call.Settled
      (fun r b =>
        match r.2 with
        | true => r.1.checkpoint = prompt ∧ r.1.valid = true ∧ b.Holds d.kind (prompt.take start)
        | false => recovering = true → r.1.valid = false) b := by
  induction n generalizing pos s b with
  | zero =>
    have hend : prompt.length ≤ pos := by omega
    obtain ⟨h, hv⟩ := hdone hend
    rw [pipelineLoop, if_neg (by omega)]
    exact ⟨h.checkpoint.trans (List.take_of_length_le hend), hv, h.holds⟩
  | succ n ih =>
    rw [pipelineLoop]
    split
    · next hlt =>
      dsimp only
      have hc : min (prompt.length - pos) cap - 1 + 1 ≤ min (prompt.length - pos) cap := by omega
      generalize min (prompt.length - pos) cap - 1 = c at hc ⊢
      -- the chunk behind the reset
      have hchunk : ∀ s b, Spans d prompt pos start s b → Prog.Safe Call.Settled (do
          match ← d.evalLayerSlice p s ((prompt.drop pos).take (c + 1)) pos with
          | (s, false) => pure (s, false)
          | (s, true) => do
            if ← change (.dist (recovering && s.valid)) id then
              pipelineLoop d p recovering prompt cap reset start (pos + (c + 1)) s
            else pure (s, false))
          (fun r b =>
            match r.2 with
            | true => r.1.checkpoint = prompt ∧ r.1.valid = true ∧ b.Holds d.kind (prompt.take start)
            | false => recovering = true → r.1.valid = false) b := by
        intro s b h
        refine (safe_evalLayerSlice p h hlt hcap hc).bind ?_
        intro r b' hr
        obtain ⟨s, ok⟩ := r
        cases ok with
        | false => exact fun _ => hr
        | true =>
          obtain ⟨hs, hv, hb⟩ := hr
          rw [if_pos hw] at hb
          subst hb
          apply safe_change
          · have hspan : Spans d prompt (pos + (c + 1)) start s b' :=
              ⟨hs, fun hf => (by rw [hv] at hf; cases hf), h.holds⟩
            exact ih _ _ _ (by omega) (.inr hspan) (fun _ => ⟨hspan, hv⟩) (by omega)
          · intro hset _
            exact valid_of_settled hset
      apply safe_change
      · rw [if_pos rfl]
        by_cases hr : (reset && decide (pos = start)) = true
        · rw [if_pos hr]
          rw [Bool.and_eq_true] at hr
          have hz : pos = start := of_decide_eq_true hr.2
          have hs0 := hreset hr.1
          refine (safe_layerSliceReset hk prompt s _).bind ?_
          intro r b hr
          obtain ⟨s, ok⟩ := r
          cases ok with
          | false => exact fun _ => hr.1
          | true =>
            apply hchunk
            rw [hz, hs0]
            exact hr.2 rfl
        · rw [if_neg hr]
          exact hchunk s b (h.resolve_left fun hf => hr (by rw [hf.1, hf.2]; simp))
      · intro hset _
        exact valid_of_settled hset
    · next hge =>
      have hend := Nat.not_lt.mp hge
      obtain ⟨h, hv⟩ := hdone hend
      exact ⟨h.checkpoint.trans (List.take_of_length_le hend), hv, h.holds⟩

theorem safe_prefillPromptPipelined (hk : d.glm = true → d.kind = .rows) (p : Plan) (recovering : Bool)
    {prompt : List Int} {cap start : Nat} (hw : p.workers = true) (hpos : 0 < cap)
    (hcap : cap ≤ d.prefillCap) (reset : Bool) (hreset : reset = true → start = 0) (s : Session)
    (b : Backend) (hlt : start < prompt.length) (h : reset = true ∨ Spans d prompt start start s b) :
    (d.prefillPromptPipelined p recovering prompt cap start reset s).Safe Call.Settled
      (Attempt d recovering prompt) b := by
  apply safe_link
  · rw [if_pos rfl]
    refine (safe_pipelineLoop hk p recovering hw hpos hcap reset hreset _ start s b (Nat.le_refl _) ?_
      (fun hge => absurd hlt (Nat.not_lt.mpr hge)) (Nat.le_refl _)).bind ?_
    · exact h.imp_left fun hr => ⟨hr, rfl⟩
    · intro r b hr
      obtain ⟨s, ok⟩ := r
      cases ok with
      | false => exact hr
      | true =>
        obtain ⟨hck, hv, hb⟩ := hr
        have heval := hb.eval (prompt.drop start) true
        have hlogits := hb.logits_eval (prompt.drop start)
        rw [List.length_take_of_le (Nat.le_of_lt hlt), List.take_append_drop] at heval hlogits
        apply safe_forward
        · exact ⟨hv, hck, heval, hlogits⟩
        · intro hset _
          exact valid_of_settled hset
  · intro hset
    exact valid_of_settled hset

theorem safe_prefillPrompt (hk : d.glm = true → d.kind = .rows) (p : Plan) (recovering : Bool)
    {prompt : List Int} {cap : Nat} (hd : d.prefillChunkCap = some cap) (hne : 0 < prompt.length)
    (s : Session) (b : Backend) :
    (d.prefillPrompt p recovering prompt s).Safe Call.Settled (Attempt d recovering prompt) b := by
  obtain ⟨hpos, hcap⟩ := prefillChunkCap_pos hd
  rw [prefillPrompt, hd]
  dsimp only
  split
  · next hp =>
    rw [canPipelinePrefill] at hp
    simp only [Bool.and_eq_true] at hp
    exact safe_prefillPromptPipelined hk p recovering hp.1.1.2 hpos hcap true (fun _ => rfl) s b hne
      (.inl rfl)
  · exact safe_spanLoop hk p recovering hpos hcap true _ 0 s b (Nat.le_refl _) (.inl ⟨rfl, rfl⟩)
      (fun hge => absurd hne (Nat.not_lt.mpr hge)) (.inl ⟨rfl, rfl⟩)

theorem Attempt.post {recovering : Bool} {prompt : List Int} {s s₀ : Session} {b b₀ : Backend}
    (h : Attempt d recovering prompt (s, true) b) : Post d.kind prompt s₀ b₀ (s, .ok) b := by
  obtain ⟨hv, hck, hb, hl⟩ := h
  apply Post.ok
  · rw [hck]
    exact hb
  · rw [hck, hl]
  · exact hv
  · exact hck

theorem safe_orRebuild (hk : d.glm = true → d.kind = .rows) {prompt : List Int} {cap : Nat}
    (hd : d.prefillChunkCap = some cap) (hne : 0 < prompt.length) {attempt : SyncProg (Session × Bool)}
    {s₀ : Session} {b b₀ : Backend} (h : attempt.Safe Call.Settled (Attempt d false prompt) b) :
    (d.orRebuild prompt attempt).Safe Call.Settled (Post d.kind prompt s₀ b₀) b := by
  refine h.bind ?_
  intro r b hr
  obtain ⟨s, ok⟩ := r
  cases ok with
  | true => exact hr.post
  | false =>
    apply safe_link
    · rw [if_pos rfl]
      refine (safe_prefillPrompt hk d.newPlan true hd hne s b).bind ?_
      intro r b hr
      obtain ⟨s, ok⟩ := r
      cases ok with
      | true => exact hr.post
      | false => exact .failed (hr rfl)
    · intro hset
      exact .failed hset

end Dist

theorem safe_ds4DistSessionSync (d : Dist) (hk : d.glm = true → d.kind = .rows) (s : Session)
    (prompt : List Int) (b : Backend) (h : Consistent d.kind s b) (hne : 0 < prompt.length) :
    (ds4DistSessionSync d s prompt).Safe Call.Settled (Post d.kind prompt s b) b := by
  apply safe_link
  · rw [if_pos rfl]
    split
    · next hc =>
      rw [Bool.and_eq_true, List.isPrefixOf_iff_prefix] at hc
      obtain ⟨hb, hl⟩ := h hc.1
      have htake := List.prefix_iff_eq_take.mp hc.2
      split
      · next he => exact .ok hb hl hc.1 (hc.2.eq_of_length he)
      · next hlen =>
        have hlt : s.checkpoint.length < prompt.length := Nat.lt_of_le_of_ne hc.2.length_le hlen
        have hspan : Dist.Spans d prompt s.checkpoint.length s.checkpoint.length s b :=
          ⟨htake, fun hf => (by rw [hc.1] at hf; cases hf), htake ▸ hb⟩
        split
        · exact .unchanged h
        · next cap hd =>
          obtain ⟨hpos, hcap⟩ := Dist.prefillChunkCap_pos hd
          apply Dist.safe_orRebuild hk hd hne
          split
          · next hp =>
            rw [Dist.canPipelinePrefill] at hp
            simp only [Bool.and_eq_true] at hp
            exact Dist.safe_prefillPromptPipelined hk d.plan false hp.1.1.2 hpos hcap false
              (fun hf => by cases hf) s b hlt (.inr hspan)
          · exact Dist.safe_spanLoop hk d.plan false hpos hcap false _ _ s b (Nat.le_refl _)
              (.inr hspan) (fun hge => absurd hlt (Nat.not_lt.mpr hge)) (.inr fun hf => by cases hf)
    · cases hd : d.prefillChunkCap with
      | some cap => exact Dist.safe_orRebuild hk hd hne (Dist.safe_prefillPrompt hk d.plan false hd hne s b)
      | none =>
        -- neither attempt evaluates anything
        have hnone : ∀ p recovering, d.prefillPrompt p recovering prompt s = pure (s, false) := by
          intro p recovering
          rw [Dist.prefillPrompt, hd]
        rw [Dist.orRebuild, hnone]
        apply safe_link
        · rw [hnone]
          exact .unchanged h
        · intro _
          exact .unchanged h
  · intro _
    exact .unchanged h

end Ds4.Sync
