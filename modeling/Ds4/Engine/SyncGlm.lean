import Ds4.Engine.Sync
import Mathlib.Data.List.Infix

/-!
# Sync on the GLM graph

The caches of GLM-5.2 are rows by position, so that a checkpoint can be cut back to the part whose
logits are at hand; GLM-5.3 has recurrent layers. A resumed prompt may first have the dense cache
filled up, and is then extended in indexed batches or token by token; other prompts are prefilled
in chunks.
-/

namespace Ds4.Sync
open Faulty

structure Glm where
  backendName : String
  graphReady : Bool
  /-- The context of the graph. -/
  graphCtx : Nat
  /-- `DS4_GLM_PREFILL_TRUNC`, zero when it is not set. -/
  prefillTrunc : Nat
  glm53 : Bool
  fullKvCache : Bool
  ctxCap : Nat
  compactCacheCap : Nat
  indexedPrefillCap : Nat
  /-- The buffers of the indexed batch are there. -/
  batchBuffers : Bool
  /-- The build is neither for Metal nor for ROCm. -/
  cuda : Bool
  /-- A chunk may go from dense to sparse attention. -/
  mixedPrefill : Bool
  /-- `glm_graph_dense_compact_attention_limit`. -/
  denseLimit : Nat
  resumeMin : Nat
  resumeMin53 : Nat
  /-- `glm_tp_token_prefill`, or the layers are placed on several devices. -/
  tokenPrefill : Bool
  tp2 : Bool
  exactPrefillMax : Nat
  /-- Experts are streamed, and token prefill is neither ruled out by the quality mode nor switched
  off. -/
  streaming : Bool
  streamingTokenMax : Nat
  indexerFullLayers : Nat
  deriving DecidableEq, Repr

namespace Glm

variable (o : Glm)

def kind : Kind := if o.glm53 then .recurrent else .rows

def truncate (prompt : List Int) : List Int :=
  if 0 < o.prefillTrunc ∧ o.prefillTrunc < prompt.length then prompt.take o.prefillTrunc else prompt

def indexedPrefillBatchAvailable : Bool :=
  o.compactCacheCap ≠ 0 && o.indexedPrefillCap ≠ 0 && o.batchBuffers

def indexedPrefillBatchReady (pos : Nat) : Bool :=
  o.indexedPrefillBatchAvailable && (!o.fullKvCache || o.ctxCap ≤ pos)

def useIndexedPrefill53 : Bool :=
  o.glm53 && o.indexedPrefillCap ≠ 0 && (o.cuda || !o.fullKvCache)

def limitIndexedPrefillChunk (pos chunk : Nat) : Nat :=
  if o.glm53 && o.indexedPrefillBatchAvailable && o.mixedPrefill then chunk
  else if pos < o.denseLimit then min chunk (o.denseLimit - pos)
  else chunk

def decodeUsesIndexedAttention (pos : Nat) (logits : Bool) : Bool :=
  o.compactCacheCap ≠ 0 &&
    (!o.fullKvCache || o.ctxCap ≤ pos || o.useIndexedPrefill53 || (!o.glm53 && logits))

def decodeUpdatesDenseCache (pos : Nat) (logits : Bool) : Bool :=
  pos < o.ctxCap && !o.decodeUsesIndexedAttention pos logits

def useStreamingTokenPrefill (pos0 n : Nat) : Bool :=
  o.streaming && n ≠ 0 && pos0 < o.ctxCap && n ≤ o.ctxCap - pos0 && o.streamingTokenMax ≠ 0 &&
    n ≤ o.streamingTokenMax

def prefillChunkTokens : Nat := if o.ctxCap ≠ 0 then o.ctxCap else 4096

/-- `ds4_session_glm_cap_dense_cache`. -/
def capDenseCache (s : Session) : Session :=
  if o.graphReady && !o.fullKvCache then { s with glmDenseCacheLen := 0 }
  else
    let cap := if o.graphReady then min s.checkpoint.length o.ctxCap else s.checkpoint.length
    { s with glmDenseCacheLen := min s.glmDenseCacheLen cap }

/-- `ds4_session_glm_note_dense_cache`. -/
def noteDenseCache (s : Session) (pos0 n : Nat) : Session :=
  if n = 0 ∨ (o.graphReady && !o.fullKvCache) = true ∨ s.glmDenseCacheLen < pos0 then s
  else
    o.capDenseCache
      { s with glmDenseCacheLen := if o.graphReady then min (pos0 + n) o.ctxCap else pos0 + n }

@[simp] theorem capDenseCache_checkpoint (s : Session) :
    (o.capDenseCache s).checkpoint = s.checkpoint := by
  rw [capDenseCache]
  split <;> rfl

@[simp] theorem capDenseCache_valid (s : Session) : (o.capDenseCache s).valid = s.valid := by
  rw [capDenseCache]
  split <;> rfl

@[simp] theorem noteDenseCache_checkpoint (s : Session) (pos0 n : Nat) :
    (o.noteDenseCache s pos0 n).checkpoint = s.checkpoint := by
  rw [noteDenseCache]
  split
  · rfl
  · rw [capDenseCache_checkpoint]

@[simp] theorem noteDenseCache_valid (s : Session) (pos0 n : Nat) :
    (o.noteDenseCache s pos0 n).valid = s.valid := by
  rw [noteDenseCache]
  split
  · rfl
  · rw [capDenseCache_valid]

/-- Noting rows, where that is due, changes nothing that the session says. -/
theorem ite_noteDenseCache (p : Prop) [Decidable p] (s : Session) (pos0 n : Nat) :
    (if p then o.noteDenseCache s pos0 n else s).checkpoint = s.checkpoint ∧
      (if p then o.noteDenseCache s pos0 n else s).valid = s.valid := by
  split
  · exact ⟨o.noteDenseCache_checkpoint .., o.noteDenseCache_valid ..⟩
  · exact ⟨rfl, rfl⟩

end Glm

/-- `ds4_session_vision_range_overlaps`. -/
def visionRangeOverlaps (images : List VisionIdentity) (start count : Nat) : Bool :=
  images.any fun i => start < i.tokenStart + i.tokenCount && i.tokenStart < start + count

/-- The checkpoint is given up. -/
def Glm.drop (o : Glm) (s : Session) : Session := o.capDenseCache { s with valid := false }

/-- A checkpoint that is not valid is cut back to the part that the logits are of. -/
def cutBack (s : Session) (lenWithLogits : Nat) : Session :=
  if s.valid then s
  else { s with checkpoint := s.checkpoint.take lenWithLogits, valid := 0 < lenWithLogits }

/-- Tokens behind the checkpoint. -/
def push (s : Session) (ts : List Int) (valid : Bool) : Session :=
  { s with checkpoint := s.checkpoint ++ ts, valid := valid }

/-! ## GLM-5.3 -/

def prefillChunk53 : Nat := 2048

/-- The size of the next chunk. -/
def Glm.chunk53 (o : Glm) (shortResume : Bool) (pos remaining : Nat) : Nat :=
  if shortResume then 1
  else if o.useIndexedPrefill53 || (o.ctxCap ≤ pos && o.indexedPrefillCap ≠ 0) then
    o.limitIndexedPrefillChunk pos (min (min remaining prefillChunk53) o.indexedPrefillCap)
  else if pos < o.ctxCap then min (min remaining prefillChunk53) (o.ctxCap - pos)
  else 1

/-- The loop of GLM-5.3; only the last chunk asks for logits. No graph evaluates an empty chunk. -/
def glm53Loop (o : Glm) (prompt : List Int) (start : Nat) (shortResume : Bool) (i : Nat) (s : Session) :
    SyncProg (Session × Rc) :=
  if i < prompt.length then do
    if ← ds4SessionCancelled (.glm53Poll (i ≠ start)) then
      pure (o.capDenseCache { s with valid := !s.checkpoint.isEmpty }, .interrupted "interrupted")
    else
      let pos := s.checkpoint.length
      match o.chunk53 shortResume pos (prompt.length - i) with
      | 0 => pure (o.drop s, .failed s!"{o.backendName} GLM-5.3 prefill failed at token {i}")
      | c + 1 => do
        let ts := (prompt.drop i).take (c + 1)
        if ← forward .eval o.kind pos ts (i + (c + 1) = prompt.length) then
          let s := push s ts true
          glm53Loop o prompt start shortResume (i + (c + 1))
            (if pos < o.ctxCap then o.noteDenseCache s pos (c + 1) else s)
        else pure (o.drop s, .failed s!"{o.backendName} GLM-5.3 prefill failed at token {i}")
  else pure (s, .ok)
termination_by prompt.length - i

/-! ## GLM-5.2 -/

/-- The compact indexer is warmed up when the prompt has reached the sparse part of the context. -/
def warmAndEnd (o : Glm) (s : Session) : SyncProg (Session × Rc) :=
  let next := s.checkpoint.length
  if o.compactCacheCap = 0 ∨ o.indexerFullLayers = 0 ∨ next < o.ctxCap ∨ o.graphCtx ≤ next then
    pure (s, .ok)
  else do
    if ← change .eval id then pure (s, .ok)
    else pure (o.drop s, .failed s!"{o.backendName} GLM compact indexer warmup failed")

/-- Every token with its logits, for layers on several devices. There is no poll. -/
def glmTokenLoop (o : Glm) (prompt : List Int) : List Int → Session → SyncProg (Session × Rc)
  | [], s => pure ({ s with valid := true }, .ok)
  | t :: ts, s => do
    let pos := prompt.length - (ts.length + 1)
    if ← forward .eval .rows pos [t] true then
      let s := push s [t] s.valid
      glmTokenLoop o prompt ts
        (if o.decodeUpdatesDenseCache pos true then o.noteDenseCache s pos 1 else s)
    else pure (o.drop s, .failed s!"{o.backendName} GLM TP prefill failed at token {pos}")

/-- Where the resumed prompt stands: the place that is left to evaluate and the length of the
checkpoint that the logits are of. -/
structure Resume where
  s : Session
  start : Nat
  lenWithLogits : Nat

/-- The dense bridge: the dense cache is filled up to `denseEnd`, first with tokens that the
checkpoint has already. Neither of the two bounds of a chunk is zero. -/
def denseBridge (o : Glm) (prompt : List Int) (denseEnd densePos : Nat) (r : Resume) :
    SyncProg (Except (Session × Rc) Resume) :=
  if densePos < denseEnd then do
    if ← ds4SessionCancelled .poll then
      pure (.error (o.capDenseCache (cutBack r.s r.lenWithLogits), .interrupted "interrupted"))
    else do
      let c := min (denseEnd - densePos) o.prefillChunkTokens - 1
      let next := densePos + (c + 1)
      let last : Bool := prompt.length ≤ next
      if ← forward (.glmPrefill (r.s.valid || 0 < r.lenWithLogits)) .rows densePos
          ((prompt.drop densePos).take (c + 1)) last then
        let s := o.noteDenseCache r.s densePos (c + 1)
        if next ≤ r.start then denseBridge o prompt denseEnd next { r with s := s }
        else
          let pushFrom := max densePos r.start
          if s.checkpoint.length ≠ pushFrom then
            pure (.error (o.drop s,
              .failed s!"{o.backendName} GLM checkpoint/cache bridge is inconsistent"))
          else
            let s := push s ((prompt.drop pushFrom).take (next - pushFrom)) last
            denseBridge o prompt denseEnd next
              ⟨s, s.checkpoint.length, if last then s.checkpoint.length else r.lenWithLogits⟩
      else
        pure (.error (o.capDenseCache (cutBack r.s r.lenWithLogits),
          .failed s!"{o.backendName} GLM dense prefill failed while rebuilding checkpoint cache"))
  else pure (.ok r)
termination_by denseEnd - densePos

/-- Indexed batches behind a checkpoint. -/
def indexedResumeLoop (o : Glm) (prompt : List Int) (i lenWithLogits : Nat) (s : Session) :
    SyncProg (Session × Rc) :=
  if i < prompt.length then do
    if ← ds4SessionCancelled .poll then
      pure (o.capDenseCache (cutBack { s with valid := false } lenWithLogits),
        .interrupted "interrupted")
    else do
      let pos := s.checkpoint.length
      let c := o.limitIndexedPrefillChunk pos (min (prompt.length - i) o.indexedPrefillCap) - 1
      let ts := (prompt.drop i).take (c + 1)
      let last : Bool := prompt.length ≤ i + (c + 1)
      if ← forward .eval .rows pos ts last then
        let s := push s ts last
        indexedResumeLoop o prompt (i + (c + 1)) (if last then s.checkpoint.length else lenWithLogits) s
      else
        pure (o.drop s,
          .failed s!"{o.backendName} GLM indexed prefill failed while extending checkpoint")
  else warmAndEnd o s
termination_by prompt.length - i

/-- Ordinary decoding behind a checkpoint. -/
def decodeResumeLoop (o : Glm) : List Int → Session → SyncProg (Session × Rc)
  | [], s => warmAndEnd o s
  | t :: ts, s => do
    if ← ds4SessionCancelled (.decodePoll (!s.valid)) then
      pure (o.capDenseCache { s with valid := true }, .interrupted "interrupted")
    else do
      let pos := s.checkpoint.length
      if ← forward .eval .rows pos [t] true then
        let s := push s [t] true
        decodeResumeLoop o ts
          (if o.decodeUpdatesDenseCache pos true then o.noteDenseCache s pos 1 else s)
      else
        pure (o.drop s, .failed s!"{o.backendName} GLM decode failed while extending checkpoint")

/-- The size of the next chunk of the prefill loop. -/
def Glm.fullChunk (o : Glm) (i remaining : Nat) : Nat :=
  if !o.fullKvCache || o.ctxCap ≤ i then
    if o.useStreamingTokenPrefill i remaining then
      if o.streamingTokenMax ≠ 0 then min remaining o.streamingTokenMax else remaining
    else if o.indexedPrefillBatchReady i then
      o.limitIndexedPrefillChunk i (min remaining o.indexedPrefillCap)
    else 1
  else min (min remaining (o.ctxCap - i)) o.prefillChunkTokens

/-- The prefill loop: dense chunks as far as the dense cache goes, batches or tokens behind it. -/
def glmFullLoop (o : Glm) (prompt : List Int) (i lenWithLogits : Nat) (s : Session) :
    SyncProg (Session × Rc) :=
  if i < prompt.length then do
    if ← ds4SessionCancelled .poll then
      pure (o.capDenseCache (cutBack s lenWithLogits), .interrupted "interrupted")
    else
      let fails := (o.capDenseCache (cutBack s lenWithLogits),
        Rc.failed s!"{o.backendName} GLM prefill failed")
      match o.fullChunk i (prompt.length - i) with
      | 0 => pure fails
      | c + 1 => do
        let ts := (prompt.drop i).take (c + 1)
        let last : Bool := prompt.length ≤ i + (c + 1)
        if ← forward (.glmPrefill (s.valid || 0 < lenWithLogits)) .rows i ts last then
          let s := push s ts last
          let s := if o.fullKvCache && i < o.ctxCap then o.noteDenseCache s i (c + 1) else s
          glmFullLoop o prompt (i + (c + 1)) (if last then s.checkpoint.length else lenWithLogits) s
        else pure fails
  else warmAndEnd o s
termination_by prompt.length - i

/-- Behind the dense bridge, if there was one. -/
def extendGlm (o : Glm) (prompt : List Int) (resumed : Bool) (r : Resume) : SyncProg (Session × Rc) :=
  let suffix := prompt.length - r.start
  let gap : Bool := r.s.glmDenseCacheLen < r.start
  if resumed && 0 < suffix && gap && o.resumeMin ≤ suffix && o.indexedPrefillBatchAvailable then
    indexedResumeLoop o prompt r.start r.lenWithLogits r.s
  else if resumed && 0 < suffix && (gap || suffix < o.resumeMin) then
    decodeResumeLoop o (prompt.drop r.start) r.s
  else glmFullLoop o prompt r.start r.lenWithLogits r.s

/-- The prompt behind `start`, on the graph that the options describe. -/
def prefillGlm (o : Glm) (images : List VisionIdentity) (prompt : List Int) (resumed : Bool)
    (s : Session) : SyncProg (Session × Rc) :=
  let start := s.checkpoint.length
  let suffix := prompt.length - start
  if o.glm53 then
    glm53Loop o prompt start
      (resumed && 0 < suffix && suffix < o.resumeMin53 && !visionRangeOverlaps images start suffix)
      start s
  else if o.tokenPrefill || (o.tp2 && suffix ≤ o.exactPrefillMax) then
    glmTokenLoop o prompt (prompt.drop start) s
  else
    let r : Resume := ⟨s, start, if s.valid then start else 0⟩
    let gap : Bool := s.glmDenseCacheLen < start
    let keepsSparse := resumed && 0 < suffix && gap && o.decodeUsesIndexedAttention start true
    if resumed && 0 < suffix && gap && !keepsSparse && o.fullKvCache && s.glmDenseCacheLen < o.ctxCap then do
      match ← denseBridge o prompt (min prompt.length o.ctxCap) s.glmDenseCacheLen r with
      | .error e => pure e
      | .ok r => extendGlm o prompt resumed r
    else extendGlm o prompt resumed r

def syncGlm (o : Glm) (images : List VisionIdentity) (s : Session) (prompt : List Int) :
    SyncProg (Session × Rc) :=
  let prompt := o.truncate prompt
  if !o.graphReady then pure (s, .failed s!"{o.backendName} GLM graph is not initialized")
  else if o.graphCtx ≤ prompt.length then
    pure ({ s with valid := false, glmDenseCacheLen := 0 },
      .failed s!"prompt length {prompt.length} leaves no GLM Metal context room (ctx {o.graphCtx})")
  else if s.valid && s.checkpoint.isPrefixOf prompt then prefillGlm o images prompt true s
  else do
    let s := { s with checkpoint := [], valid := false, glmDenseCacheLen := 0 }
    if o.glm53 then do
      if ← change .eval fun _ => [] then prefillGlm o images prompt false s
      else pure (s, .failed s!"{o.backendName} GLM KDA state reset failed")
    else prefillGlm o images prompt false s

/-! ## Rows by position -/

namespace Backend

variable {b : Backend} {prompt : List Int} {pos : Nat}

theorem seen_rows (h : prompt.take pos <+: b.caches) (hle : pos ≤ prompt.length) (n : Nat) :
    b.seen .rows pos ((prompt.drop pos).take n) = prompt.take (pos + n) := by
  have ht : b.caches.take pos = prompt.take pos := by
    have hlen : (prompt.take pos).length = pos := List.length_take_of_le hle
    rw [← hlen, ← List.prefix_iff_eq_take.mp h]
    rw [hlen]
  rw [seen, ht, List.take_add]

/-- What the rows hold of the prompt they keep, and the tokens of the chunk come to it. -/
theorem eval_rows (h : prompt.take pos <+: b.caches) (hle : pos ≤ prompt.length) (n : Nat)
    (wants : Bool) :
    prompt.take (pos + n) <+: (b.eval .rows pos ((prompt.drop pos).take n) wants).caches ∧
      ∀ p, p <+: prompt → p <+: b.caches →
        p <+: (b.eval .rows pos ((prompt.drop pos).take n) wants).caches := by
  change prompt.take (pos + n) <+: b.write .rows pos _ ∧ ∀ p, _ → _ → p <+: b.write .rows pos _
  rw [write, seen_rows h hle]
  split
  · next hp => exact ⟨hp, fun p _ hb => hb⟩
  · next hp =>
    refine ⟨List.prefix_rfl, fun p hpp hb => ?_⟩
    have hcmp := List.prefix_or_prefix_of_prefix (List.take_prefix (pos + n) prompt) hpp
    rcases hcmp with hcmp | hcmp
    · exact absurd (hcmp.trans hb) hp
    · exact hcmp

end Backend

/-- The session of a prompt in progress on rows: the first `lenWithLogits` tokens of its checkpoint
are those that the logits are of. -/
structure Tracks (prompt : List Int) (lenWithLogits : Nat) (s : Session) (b : Backend) : Prop where
  checkpoint : s.checkpoint <+: prompt
  rows : s.checkpoint <+: b.caches
  logits : s.valid = true → b.logits = s.checkpoint
  le : lenWithLogits ≤ s.checkpoint.length
  cut : 0 < lenWithLogits → b.logits = s.checkpoint.take lenWithLogits

namespace Tracks

variable {prompt ts : List Int} {n : Nat} {s s' : Session} {b : Backend}

theorem congr (h : Tracks prompt n s b) (hc : s'.checkpoint = s.checkpoint) (hv : s'.valid = s.valid) :
    Tracks prompt n s' b := by
  obtain ⟨h1, h2, h3, h4, h5⟩ := h
  constructor
  all_goals rw [hc]
  · exact h1
  · exact h2
  · rw [hv]
    exact h3
  · exact h4
  · exact h5

theorem push (h : Tracks prompt n s b) (hts : s.checkpoint ++ ts <+: prompt) (wants : Bool) :
    Tracks prompt (if wants then (s.checkpoint ++ ts).length else n) (push s ts wants)
      (b.eval .rows s.checkpoint.length ts wants) := by
  have hh : b.Holds .rows s.checkpoint := h.rows
  refine ⟨hts, hh.eval ts wants, fun hv => ?_, ?_, fun hn => ?_⟩
  · cases (hv : wants = true)
    exact hh.logits_eval ts
  · cases wants with
    | true => exact Nat.le_refl _
    | false => exact Nat.le_trans h.le (by simp [Sync.push])
  · cases wants with
    | true =>
      rw [if_pos rfl]
      refine (hh.logits_eval ts).trans ?_
      exact (List.take_length).symm
    | false =>
      change b.logits = (s.checkpoint ++ ts).take n
      rw [List.take_append_of_le_length h.le]
      exact h.cut hn

theorem consistent_cutBack (h : Tracks prompt n s b) :
    Consistent .rows (cutBack s n) b ∧ (cutBack s n).checkpoint <+: prompt := by
  rw [cutBack]
  split
  · exact ⟨fun hv => ⟨h.rows, h.logits hv⟩, h.checkpoint⟩
  · refine ⟨fun hv => ⟨?_, h.cut (of_decide_eq_true hv)⟩, ?_⟩
    · exact (List.take_prefix n _).trans h.rows
    · exact (List.take_prefix n _).trans h.checkpoint

end Tracks

section Ends

variable {k : Kind} {o : Glm} {prompt : List Int} {s s₀ : Session} {b b₀ : Backend} {err : String}

theorem Post.drop : Post k prompt s₀ b₀ (o.drop s, .failed err) b := by
  apply Post.failed
  rw [Glm.drop, Glm.capDenseCache_valid]

theorem Post.capped (hc : Consistent k s b) (hp : s.checkpoint <+: prompt) :
    Post k prompt s₀ b₀ (o.capDenseCache s, .interrupted err) b := by
  apply Post.interrupted_kept
  · rw [Consistent, Glm.capDenseCache_valid, Glm.capDenseCache_checkpoint]
    exact hc
  · rw [Glm.capDenseCache_checkpoint]
    exact hp

/-- A failure of the bridge or of the prefill loop that leaves no checkpoint standing. -/
theorem Post.cutBack {n : Nat} (h : (Call.glmPrefill (s.valid || 0 < n)).Settled) :
    Post k prompt s₀ b₀ (o.capDenseCache (cutBack s n), .failed err) b := by
  have hf : (s.valid || decide (0 < n)) = false := h
  rw [Bool.or_eq_false_iff] at hf
  apply Post.failed
  rw [Glm.capDenseCache_valid, Sync.cutBack, if_neg (by rw [hf.1]; exact Bool.false_ne_true)]
  exact hf.2

theorem safe_warmAndEnd (hb : prompt <+: b.caches) (hl : b.logits = prompt) (hv : s.valid = true)
    (hp : s.checkpoint = prompt) :
    (warmAndEnd o s).Safe Call.Settled (Post .rows prompt s₀ b₀) b := by
  have hok : Post .rows prompt s₀ b₀ (s, .ok) b := by
    apply Post.ok
    · rw [hp]
      exact hb
    · rw [hl, hp]
    · exact hv
    · exact hp
  rw [warmAndEnd]
  split
  · exact hok
  · apply safe_change
    · exact hok
    · intro _ _
      exact .drop

end Ends

/-! ## GLM keeps session and caches together -/

namespace Glm

variable (o : Glm)

theorem prefillChunkTokens_pos : 0 < o.prefillChunkTokens := by
  rw [prefillChunkTokens]
  split <;> omega

theorem limitIndexedPrefillChunk_pos {pos chunk : Nat} (h : 0 < chunk) :
    0 < o.limitIndexedPrefillChunk pos chunk := by
  rw [limitIndexedPrefillChunk]
  split
  · exact h
  · split <;> omega

theorem limitIndexedPrefillChunk_le (pos chunk : Nat) : o.limitIndexedPrefillChunk pos chunk ≤ chunk := by
  rw [limitIndexedPrefillChunk]
  split
  · exact Nat.le_refl _
  · split <;> omega

theorem chunk53_le (short : Bool) (pos : Nat) {remaining : Nat} (h : 0 < remaining) :
    o.chunk53 short pos remaining ≤ remaining := by
  rw [chunk53]
  split
  · omega
  · split
    · exact Nat.le_trans (o.limitIndexedPrefillChunk_le _ _) (by omega)
    · split <;> omega

/-- The prefill loop never evaluates an empty chunk. -/
theorem fullChunk_pos {i remaining : Nat} (h : 0 < remaining) : 0 < o.fullChunk i remaining := by
  rw [fullChunk]
  split
  · split
    · split <;> omega
    · split
      · next hr =>
        apply limitIndexedPrefillChunk_pos
        rw [indexedPrefillBatchReady, indexedPrefillBatchAvailable, Bool.and_eq_true,
          Bool.and_eq_true, Bool.and_eq_true] at hr
        have := of_decide_eq_true hr.1.1.2
        omega
      · exact Nat.zero_lt_one
  · next hd =>
    rw [Bool.or_eq_true, not_or] at hd
    have := of_decide_eq_false (eq_false_of_ne_true hd.2)
    have := o.prefillChunkTokens_pos
    omega

end Glm

section Loops

variable {o : Glm} {prompt : List Int} {s₀ : Session} {b₀ : Backend}

/-- The end of a prompt in progress. -/
theorem Tracks.safe_end {n i : Nat} {s : Session} {b : Backend} (h : Tracks prompt n s b)
    (hs : s.checkpoint = prompt.take i) (hle : prompt.length ≤ i) (hv : s.valid = true) :
    (warmAndEnd o s).Safe Call.Settled (Post .rows prompt s₀ b₀) b := by
  rw [List.take_of_length_le hle] at hs
  apply safe_warmAndEnd
  · exact hs ▸ h.rows
  · exact hs ▸ h.logits hv
  · exact hv
  · exact hs

theorem length_checkpoint {s : Session} {i : Nat} (hs : s.checkpoint = prompt.take i)
    (hlt : i < prompt.length) : s.checkpoint.length = i := by
  rw [hs, List.length_take_of_le (Nat.le_of_lt hlt)]

/-- The next chunk of a prompt. -/
theorem Tracks.chunk {n i c : Nat} {s : Session} {b : Backend} (h : Tracks prompt n s b)
    (hs : s.checkpoint = prompt.take i) (hlt : i < prompt.length) (last : Bool) :
    (Sync.push s ((prompt.drop i).take c) last).checkpoint = prompt.take (i + c) ∧
      Tracks prompt (if last then (Sync.push s ((prompt.drop i).take c) last).checkpoint.length else n)
        (Sync.push s ((prompt.drop i).take c) last)
        (b.eval .rows i ((prompt.drop i).take c) last) := by
  have hpush : s.checkpoint ++ (prompt.drop i).take c = prompt.take (i + c) := by
    rw [hs]
    exact List.take_add.symm
  refine ⟨hpush, ?_⟩
  have hts : s.checkpoint ++ (prompt.drop i).take c <+: prompt := hpush ▸ List.take_prefix _ _
  have ht := h.push hts last
  rw [length_checkpoint hs hlt] at ht
  exact ht

theorem safe_indexedResumeLoop (n i cl : Nat) (s : Session) (b : Backend) (hn : prompt.length - i ≤ n)
    (hs : s.checkpoint = prompt.take i) (h : Tracks prompt cl s b)
    (hv : prompt.length ≤ i → s.valid = true) :
    (indexedResumeLoop o prompt i cl s).Safe Call.Settled (Post .rows prompt s₀ b₀) b := by
  induction n generalizing i cl s b with
  | zero =>
    have hle : prompt.length ≤ i := by omega
    rw [indexedResumeLoop, if_neg (Nat.not_lt.mpr hle)]
    exact h.safe_end hs hle (hv hle)
  | succ n ih =>
    rw [indexedResumeLoop]
    split
    · next hlt =>
      apply safe_cancelled
      · dsimp only
        generalize o.limitIndexedPrefillChunk _ _ - 1 = c
        obtain ⟨hs', h'⟩ := h.chunk (c := c + 1) hs hlt (prompt.length ≤ i + (c + 1))
        rw [length_checkpoint hs hlt]
        apply safe_forward
        · exact ih _ _ _ _ (by omega) hs' h' fun hle => decide_eq_true hle
        · intro _ _
          exact .drop
      · intro _
        have hcut : Tracks prompt cl { s with valid := false } b :=
          ⟨h.checkpoint, h.rows, fun hf => (by cases hf), h.le, h.cut⟩
        obtain ⟨hc, hp⟩ := hcut.consistent_cutBack
        exact .capped hc hp
    · next hge =>
      have hle := Nat.not_lt.mp hge
      exact h.safe_end hs hle (hv hle)

theorem safe_glmFullLoop (n i cl : Nat) (s : Session) (b : Backend) (hn : prompt.length - i ≤ n)
    (hs : s.checkpoint = prompt.take i) (h : Tracks prompt cl s b)
    (hv : prompt.length ≤ i → s.valid = true) :
    (glmFullLoop o prompt i cl s).Safe Call.Settled (Post .rows prompt s₀ b₀) b := by
  induction n generalizing i cl s b with
  | zero =>
    have hle : prompt.length ≤ i := by omega
    rw [glmFullLoop, if_neg (Nat.not_lt.mpr hle)]
    exact h.safe_end hs hle (hv hle)
  | succ n ih =>
    rw [glmFullLoop]
    split
    · next hlt =>
      apply safe_cancelled
      · rw [if_neg Bool.false_ne_true]
        have hpos : 0 < o.fullChunk i (prompt.length - i) := o.fullChunk_pos (by omega)
        dsimp only
        split
        · next hz => omega
        · next c hc =>
          obtain ⟨hs', h'⟩ := h.chunk (c := c + 1) hs hlt (prompt.length ≤ i + (c + 1))
          apply safe_forward
          · rw [if_pos rfl]
            obtain ⟨hc, hv⟩ := o.ite_noteDenseCache ((o.fullKvCache && i < o.ctxCap) = true)
              (Sync.push s ((prompt.drop i).take (c + 1)) (prompt.length ≤ i + (c + 1))) i (c + 1)
            apply ih
            · omega
            · rw [hc, hs']
            · rw [hc]
              exact h'.congr hc hv
            · intro hle
              rw [hv]
              exact decide_eq_true hle
          · intro hset _
            exact .cutBack hset
      · intro _
        obtain ⟨hc, hp⟩ := h.consistent_cutBack
        exact .capped hc hp
    · next hge =>
      have hle := Nat.not_lt.mp hge
      exact h.safe_end hs hle (hv hle)

theorem safe_decodeResumeLoop (ts : List Int) (s : Session) (b : Backend) (hp : s.checkpoint ++ ts = prompt)
    (hb : s.checkpoint <+: b.caches) (hl : s.valid = true → b.logits = s.checkpoint)
    (hv : ts = [] → s.valid = true) :
    (decodeResumeLoop o ts s).Safe Call.Settled (Post .rows prompt s₀ b₀) b := by
  induction ts generalizing s b with
  | nil =>
    rw [List.append_nil] at hp
    have hv := hv rfl
    apply safe_warmAndEnd
    · exact hp ▸ hb
    · exact hp ▸ hl hv
    · exact hv
    · exact hp
  | cons t ts ih =>
    have hh : b.Holds .rows s.checkpoint := hb
    rw [decodeResumeLoop]
    apply safe_cancelled
    · apply safe_forward
      · rw [if_pos rfl]
        have hpush : (push s [t] true).checkpoint ++ ts = prompt := by
          rw [← hp]
          exact List.append_assoc ..
        obtain ⟨hc, hv⟩ := o.ite_noteDenseCache
          (o.decodeUpdatesDenseCache s.checkpoint.length true = true) (push s [t] true)
          s.checkpoint.length 1
        apply ih
        · rw [hc]
          exact hpush
        · rw [hc]
          exact hh.eval [t] true
        · rw [hc]
          exact fun _ => hh.logits_eval [t]
        · rw [hv]
          exact fun _ => rfl
      · intro _ _
        exact .drop
    · intro hset
      have hs : s.valid = true := by
        cases hs : s.valid with
        | true => rfl
        | false =>
          rw [hs] at hset
          cases hset
      exact .capped (fun _ => ⟨hb, hl hs⟩) ⟨_, hp⟩

theorem safe_glmTokenLoop (ts : List Int) (s : Session) (b : Backend) (hp : s.checkpoint ++ ts = prompt)
    (hb : s.checkpoint <+: b.caches) (hl : ts = [] → b.logits = s.checkpoint) :
    (glmTokenLoop o prompt ts s).Safe Call.Settled (Post .rows prompt s₀ b₀) b := by
  induction ts generalizing s b with
  | nil =>
    rw [List.append_nil] at hp
    exact .ok hb (hl rfl) rfl hp
  | cons t ts ih =>
    have hh : b.Holds .rows s.checkpoint := hb
    have hpos : prompt.length - (ts.length + 1) = s.checkpoint.length := by
      rw [← hp, List.length_append, List.length_cons, Nat.add_sub_cancel]
    rw [glmTokenLoop]
    dsimp only
    rw [hpos]
    apply safe_forward
    · rw [if_pos rfl]
      have hpush : (push s [t] s.valid).checkpoint ++ ts = prompt := by
        rw [← hp]
        exact List.append_assoc ..
      obtain ⟨hc, -⟩ := o.ite_noteDenseCache
        (o.decodeUpdatesDenseCache s.checkpoint.length true = true) (push s [t] s.valid)
        s.checkpoint.length 1
      apply ih
      · rw [hc]
        exact hpush
      · rw [hc]
        exact hh.eval [t] true
      · rw [hc]
        exact fun _ => hh.logits_eval [t]
    · intro _ _
      exact .drop

/-- A prompt in progress between two phases. -/
structure Resume.Ready (prompt : List Int) (r : Resume) (b : Backend) : Prop where
  tracks : Tracks prompt r.lenWithLogits r.s b
  start : r.start = r.s.checkpoint.length
  logits : prompt.length ≤ r.start → r.s.valid = true

theorem Resume.Ready.take {r : Resume} {b : Backend} (h : r.Ready prompt b) :
    r.s.checkpoint = prompt.take r.start := by
  rw [h.start]
  exact List.prefix_iff_eq_take.mp h.tracks.checkpoint

theorem Resume.Ready.start_le {r : Resume} {b : Backend} (h : r.Ready prompt b) :
    r.start ≤ prompt.length := by
  rw [h.start]
  exact h.tracks.checkpoint.length_le

/-- The tokens between the checkpoint and the end of a chunk come to it. -/
theorem push_bridge {r : Resume} {b : Backend} (h : r.Ready prompt b) {next : Nat} (hlt : r.start < next) :
    r.s.checkpoint ++ (prompt.drop r.start).take (next - r.start) = prompt.take next := by
  have hn : r.start + (next - r.start) = next := by omega
  rw [h.take, ← List.take_add, hn]

/-- Tokens that the checkpoint has already are evaluated again. -/
theorem Resume.Ready.rewritten {r : Resume} {b : Backend} (h : r.Ready prompt b) {s : Session}
    {densePos c : Nat} (hrows : prompt.take densePos <+: b.caches) (hpos : densePos ≤ r.start)
    (hnext : densePos + (c + 1) ≤ r.start) (hc : s.checkpoint = r.s.checkpoint) (hv : s.valid = r.s.valid) :
    Resume.Ready prompt { r with s := s }
      (b.eval .rows densePos ((prompt.drop densePos).take (c + 1)) (prompt.length ≤ densePos + (c + 1))) := by
  have hle := h.start_le
  have hl : (b.eval .rows densePos ((prompt.drop densePos).take (c + 1))
      (prompt.length ≤ densePos + (c + 1))).logits = b.logits := by
    rw [Backend.eval]
    dsimp only
    split
    · next hlast =>
      have hend := of_decide_eq_true hlast
      rw [Backend.seen_rows hrows (by omega), List.take_of_length_le hend,
        h.tracks.logits (h.logits (by omega)), h.take, List.take_of_length_le (by omega)]
    · rfl
  refine ⟨Tracks.congr ?_ hc hv, ?_, ?_⟩
  · refine ⟨h.tracks.checkpoint, ?_, ?_, h.tracks.le, ?_⟩
    · exact (Backend.eval_rows hrows (by omega) _ _).2 _ h.tracks.checkpoint h.tracks.rows
    · rw [hl]
      exact h.tracks.logits
    · rw [hl]
      exact h.tracks.cut
  · exact h.start.trans (by rw [hc])
  · intro hge
    exact hv.trans (h.logits hge)

/-- Tokens come to the checkpoint. -/
theorem Resume.Ready.bridged {r : Resume} {b : Backend} (h : r.Ready prompt b) {s : Session}
    {densePos c : Nat} (hrows : prompt.take densePos <+: b.caches) (hpos : densePos ≤ r.start)
    (hlt : r.start < densePos + (c + 1)) (hend : densePos + (c + 1) ≤ prompt.length)
    (hc : s.checkpoint = r.s.checkpoint) :
    let last : Bool := prompt.length ≤ densePos + (c + 1)
    let s' := push s ((prompt.drop r.start).take (densePos + (c + 1) - r.start)) last
    s'.checkpoint.length = densePos + (c + 1) ∧
      Resume.Ready prompt ⟨s', s'.checkpoint.length, if last then s'.checkpoint.length else r.lenWithLogits⟩
        (b.eval .rows densePos ((prompt.drop densePos).take (c + 1)) last) := by
  intro last s'
  have hck : s'.checkpoint = prompt.take (densePos + (c + 1)) := by
    rw [← push_bridge h hlt, ← hc]
    rfl
  have hlen : s'.checkpoint.length = densePos + (c + 1) := by
    rw [hck, List.length_take_of_le hend]
  have hle := h.start_le
  have hseen := Backend.seen_rows hrows (by omega) (c + 1)
  refine ⟨hlen, ⟨?_, ?_, fun hv => ?_, ?_, fun hn => ?_⟩, rfl, fun hge => ?_⟩
  · exact hck ▸ List.take_prefix _ _
  · exact hck ▸ (Backend.eval_rows hrows (by omega) _ _).1
  · have hv : last = true := hv
    change (if last then _ else _) = s'.checkpoint
    rw [hv, if_pos rfl, hseen, hck]
  · change (if last then _ else _) ≤ s'.checkpoint.length
    have := h.tracks.le
    have := h.start
    split <;> omega
  · change (if last then _ else _) = s'.checkpoint.take (if last then _ else _)
    cases hv : last with
    | true =>
      rw [if_pos rfl, if_pos rfl, hseen, List.take_length, hck]
    | false =>
      have hn : 0 < r.lenWithLogits := by
        dsimp only at hn
        rw [hv, if_neg Bool.false_ne_true] at hn
        exact hn
      rw [if_neg Bool.false_ne_true, if_neg Bool.false_ne_true, h.tracks.cut hn, hck, h.take,
        List.take_take, List.take_take]
      have := h.tracks.le
      have := h.start
      congr 1
      omega
  · rw [hlen] at hge
    exact decide_eq_true hge

theorem safe_denseBridge (s₀ : Session) (b₀ : Backend) (n denseEnd densePos : Nat) (r : Resume) (b : Backend)
    (hn : denseEnd - densePos ≤ n) (hend : denseEnd ≤ prompt.length) (h : r.Ready prompt b)
    (hpos : densePos ≤ r.start) :
    (denseBridge o prompt denseEnd densePos r).Safe Call.Settled
      (fun e b =>
        match e with
        | .error e => Post .rows prompt s₀ b₀ e b
        | .ok r => r.Ready prompt b) b := by
  induction n generalizing densePos r b with
  | zero =>
    rw [denseBridge, if_neg (by omega)]
    exact h
  | succ n ih =>
    rw [denseBridge]
    split
    · next hlt =>
      apply safe_cancelled
      · rw [if_neg Bool.false_ne_true]
        dsimp only
        have hchunk : min (denseEnd - densePos) o.prefillChunkTokens - 1 + 1 ≤ denseEnd - densePos := by
          omega
        generalize min (denseEnd - densePos) o.prefillChunkTokens - 1 = c at hchunk ⊢
        have hrows : prompt.take densePos <+: b.caches :=
          (List.take_prefix_take_left hpos).trans (h.take ▸ h.tracks.rows)
        have hle := h.start_le
        have hseen := Backend.seen_rows hrows (by omega) (c + 1)
        obtain ⟨hnew, hkeep⟩ := Backend.eval_rows hrows (by omega) (c + 1)
          (prompt.length ≤ densePos + (c + 1))
        apply safe_forward
        · rw [if_pos rfl]
          obtain ⟨hc, hv⟩ := o.ite_noteDenseCache True r.s densePos (c + 1)
          rw [if_pos trivial] at hc hv
          split
          · next hnext =>
            exact ih _ _ _ (by omega) (h.rewritten hrows hpos hnext hc hv) hnext
          · next hnext =>
            have hlt : r.start < densePos + (c + 1) := Nat.not_le.mp hnext
            have hfrom : max densePos r.start = r.start := Nat.max_eq_right hpos
            rw [hfrom, if_neg (by rw [hc, h.start]; exact fun hne => hne rfl)]
            obtain ⟨hlen, hr⟩ := h.bridged hrows hpos hlt (by omega) hc
            exact ih _ _ _ (by omega) hr (Nat.le_of_eq hlen.symm)
        · intro hset g
          exact (Post.cutBack hset : Post .rows prompt s₀ b₀ _ g)
      · intro _
        obtain ⟨hc, hp⟩ := h.tracks.consistent_cutBack
        exact .capped hc hp
    · exact h

theorem safe_extendGlm {r : Resume} {b : Backend} (resumed : Bool) (h : r.Ready prompt b) :
    (extendGlm o prompt resumed r).Safe Call.Settled (Post .rows prompt s₀ b₀) b := by
  rw [extendGlm]
  split
  · exact safe_indexedResumeLoop _ _ _ _ _ (Nat.le_refl _) h.take h.tracks h.logits
  · split
    · apply safe_decodeResumeLoop
      · rw [h.take, List.take_append_drop]
      · exact h.tracks.rows
      · exact h.tracks.logits
      · intro hnil
        exact h.logits (List.drop_eq_nil_iff.mp hnil)
    · exact safe_glmFullLoop _ _ _ _ _ (Nat.le_refl _) h.take h.tracks h.logits

/-- The session of GLM-5.3 in front of a chunk. -/
structure Follows53 (prompt : List Int) (start i : Nat) (s : Session) (b : Backend) : Prop where
  ge : start ≤ i
  le : i ≤ prompt.length
  caches : b.caches = prompt.take i
  checkpoint : s.checkpoint = prompt.take i
  logits : i = start ∨ i = prompt.length → s.valid = true → b.logits = prompt.take i
  start : s.valid = false → s.checkpoint = []

/-- The end of a prompt. -/
theorem Follows53.post {start i : Nat} {s : Session} {b : Backend} (h : Follows53 prompt start i s b)
    (hne : prompt ≠ []) (hge : prompt.length ≤ i) : Post .recurrent prompt s₀ b₀ (s, .ok) b := by
  have he : i = prompt.length := Nat.le_antisymm h.le hge
  have hck := h.checkpoint
  rw [he, List.take_length] at hck
  have hv : s.valid = true := by
    by_contra hv
    exact hne (hck.symm.trans (h.start (eq_false_of_ne_true hv)))
  apply Post.ok
  · exact h.caches.trans h.checkpoint.symm
  · exact (h.logits (.inr he) hv).trans h.checkpoint.symm
  · exact hv
  · exact hck

theorem safe_glm53Loop (ho : o.kind = .recurrent) (start : Nat) (shortResume : Bool) (n i : Nat)
    (s : Session) (b : Backend) (hn : prompt.length - i ≤ n) (hne : prompt ≠ [])
    (h : Follows53 prompt start i s b) :
    (glm53Loop o prompt start shortResume i s).Safe Call.Settled (Post .recurrent prompt s₀ b₀) b := by
  induction n generalizing i s b with
  | zero =>
    rw [glm53Loop, if_neg (by omega)]
    exact h.post hne (by omega)
  | succ n ih =>
    rw [glm53Loop]
    split
    · next hlt =>
      apply safe_cancelled
      · rw [if_neg Bool.false_ne_true]
        have hlen : s.checkpoint.length = i := length_checkpoint h.checkpoint hlt
        have hcle := o.chunk53_le shortResume i (Nat.sub_pos_of_lt hlt)
        dsimp only
        rw [hlen, ho]
        split
        · exact .drop
        · next c hc =>
          rw [hc] at hcle
          have hh : b.Holds .recurrent (prompt.take i) := h.caches
          have htake : prompt.take i ++ (prompt.drop i).take (c + 1) = prompt.take (i + (c + 1)) :=
            List.take_add.symm
          have hseen : b.caches ++ (prompt.drop i).take (c + 1) = prompt.take (i + (c + 1)) := by
            rw [h.caches, htake]
          apply safe_forward
          · rw [if_pos rfl]
            obtain ⟨hck, hv⟩ := o.ite_noteDenseCache (i < o.ctxCap)
              (push s ((prompt.drop i).take (c + 1)) true) i (c + 1)
            apply ih
            · omega
            · have hge := h.ge
              refine ⟨by omega, by omega, hseen, ?_, fun he _ => ?_, fun hf => ?_⟩
              · rw [hck, ← htake, ← h.checkpoint]
                rfl
              · rw [decide_eq_true (he.resolve_left (by omega))]
                exact hseen
              · rw [hv] at hf
                cases hf
          · intro _ _
            exact .drop
      · intro hset
        -- only the poll in front of the first chunk finds the logits as they were
        have hi : i = start := by
          by_contra hi
          have : decide (i ≠ start) = true := decide_eq_true hi
          rw [Call.Settled, Call.stale, this] at hset
          cases hset
        apply Post.capped
        · intro hv
          have hs : s.valid = true := by
            by_contra hs
            have hnil := h.start (eq_false_of_ne_true hs)
            rw [hnil] at hv
            cases hv
          exact ⟨h.caches.trans h.checkpoint.symm, (h.logits (.inl hi) hs).trans h.checkpoint.symm⟩
        · exact h.checkpoint ▸ List.take_prefix _ _
    · exact h.post hne (by omega)

/-- A session in front of the prefill: a resumed one is valid and says what is so, another one has
been emptied. -/
structure Ready (k : Kind) (prompt : List Int) (s : Session) (b : Backend) : Prop where
  checkpoint : s.checkpoint <+: prompt
  holds : b.Holds k s.checkpoint
  logits : s.valid = true → b.logits = s.checkpoint
  start : s.valid = false → s.checkpoint = []

theorem safe_prefillGlm (images : List VisionIdentity) (resumed : Bool) (s : Session) (b : Backend)
    (hne : prompt ≠ []) (h : Ready o.kind prompt s b) :
    (prefillGlm o images prompt resumed s).Safe Call.Settled (Post o.kind prompt s₀ b₀) b := by
  have htake := List.prefix_iff_eq_take.mp h.checkpoint
  have hvalid : prompt.length ≤ s.checkpoint.length → s.valid = true := by
    intro hge
    by_contra hv
    have hnil := h.start (eq_false_of_ne_true hv)
    rw [hnil, List.length_nil, Nat.le_zero, List.length_eq_zero_iff] at hge
    exact hne hge
  rw [prefillGlm]
  dsimp only
  split
  · next h53 =>
    have ho : o.kind = .recurrent := if_pos h53
    have hb : b.caches = s.checkpoint := by
      have := h.holds
      rw [ho] at this
      exact this
    rw [ho]
    apply safe_glm53Loop ho _ _ _ _ _ _ (Nat.le_refl _) hne
    refine ⟨Nat.le_refl _, h.checkpoint.length_le, hb.trans htake, htake, fun _ hv => ?_, h.start⟩
    exact (h.logits hv).trans htake
  · next h52 =>
    have ho : o.kind = .rows := if_neg h52
    have hb : s.checkpoint <+: b.caches := by
      have := h.holds
      rw [ho] at this
      exact this
    have happ : s.checkpoint ++ prompt.drop s.checkpoint.length = prompt := by
      nth_rewrite 1 [htake]
      exact List.take_append_drop _ _
    rw [ho]
    split
    · apply safe_glmTokenLoop _ _ _ happ hb
      intro hnil
      exact h.logits (hvalid (List.drop_eq_nil_iff.mp hnil))
    · have hr : Resume.Ready prompt ⟨s, s.checkpoint.length, if s.valid then s.checkpoint.length else 0⟩ b := by
        refine ⟨⟨h.checkpoint, hb, h.logits, ?_, fun hn => ?_⟩, rfl, hvalid⟩
        · dsimp only
          split
          · exact Nat.le_refl _
          · exact Nat.zero_le _
        · dsimp only at hn ⊢
          split
          · next hv => rw [h.logits hv, List.take_length]
          · next hv =>
            rw [if_neg hv] at hn
            cases hn
      split
      · next hd =>
        refine (safe_denseBridge s₀ b₀ _ _ _ _ b (Nat.le_refl _) (Nat.min_le_left _ _) hr ?_).bind ?_
        · simp only [Bool.and_eq_true, decide_eq_true_eq] at hd
          exact Nat.le_of_lt hd.1.1.1.2
        · intro e b he
          cases e with
          | error e => exact he
          | ok r => exact safe_extendGlm resumed he
      · exact safe_extendGlm resumed hr

end Loops

theorem Glm.truncate_ne_nil (o : Glm) {prompt : List Int} (h : prompt ≠ []) : o.truncate prompt ≠ [] := by
  rw [truncate]
  split
  · next ht =>
    rw [Ne, List.take_eq_nil_iff, not_or]
    exact ⟨Nat.ne_of_gt ht.1, h⟩
  · exact h

theorem safe_syncGlm (o : Glm) (images : List VisionIdentity) (s : Session) (prompt : List Int)
    (b : Backend) (h : Consistent o.kind s b) (hne : prompt ≠ []) :
    (syncGlm o images s prompt).Safe Call.Settled (Post o.kind (o.truncate prompt) s b) b := by
  have hne := o.truncate_ne_nil hne
  rw [syncGlm]
  dsimp only
  generalize o.truncate prompt = prompt at hne ⊢
  split
  · exact .unchanged h
  · split
    · exact .failed rfl
    · split
      · next hc =>
        rw [Bool.and_eq_true, List.isPrefixOf_iff_prefix] at hc
        obtain ⟨hb, hl⟩ := h hc.1
        apply safe_prefillGlm _ _ _ _ hne
        exact ⟨hc.2, hb, fun _ => hl, fun hf => (by rw [hc.1] at hf; cases hf)⟩
      · split
        · next h53 =>
          have ho : o.kind = .recurrent := if_pos h53
          apply safe_change
          · apply safe_prefillGlm _ _ _ _ hne
            rw [ho]
            exact ⟨List.nil_prefix, rfl, fun hf => (by cases hf), fun _ => rfl⟩
          · intro _ _
            exact .failed rfl
        · next h52 =>
          have ho : o.kind = .rows := if_neg h52
          apply safe_prefillGlm _ _ _ _ hne
          rw [ho]
          exact ⟨List.nil_prefix, List.nil_prefix, fun hf => (by cases hf), fun _ => rfl⟩

end Ds4.Sync
