import Ds4.Engine.Sync

/-!
# Sync on the CPU and on the DeepSeek graph

The caches of both go on from where they are: compressed rows and recurrent frontiers cannot be cut
back. A range is prefilled in chunks, or, when experts are streamed, token by token.
-/

namespace Ds4.Sync
open Faulty

/-! ## The CPU -/

/-- The suffix is decoded token by token; whether it was cut short. -/
def cpuDecodeLoop : List Int → Session → SyncProg (Session × Bool)
  | [], s => pure (s, false)
  | t :: ts, s => do
    if ← ds4SessionCancelled .poll then pure ({ s with valid := true }, true)
    else do
      always fun b => b.eval .recurrent s.checkpoint.length [t] true
      cpuDecodeLoop ts { s with checkpoint := s.checkpoint ++ [t] }

def syncCpu (s : Session) (prompt : List Int) : SyncProg (Session × Rc) :=
  if s.valid && s.checkpoint.isPrefixOf prompt then do
    match ← cpuDecodeLoop (prompt.drop s.checkpoint.length) s with
    | (s, true) => pure (s, .interrupted "interrupted")
    | (s, false) => pure ({ s with valid := true }, .ok)
  else do
    always fun b => { b with caches := [] }
    always fun b => b.eval .recurrent 0 prompt true
    pure ({ s with checkpoint := prompt, valid := true }, .ok)

/-! ## Image blocks of a DeepSeek prompt -/

def imageStart : Nat := 0
def imagePad : Nat := 1
def imageEnd : Nat := 4

/-- The place behind the end of an image, when its tokens are image tokens. -/
def imageBody (vocab : Nat) : List Int → Nat → Option Nat
  | [], _ => none
  | t :: ts, i =>
    if t < vocab ∨ (vocab + imageEnd : Nat) < t ∨ t = (vocab + imageStart : Nat) then none
    else if t = (vocab + imageEnd : Nat) then some (i + 1)
    else imageBody vocab ts (i + 1)

/-- `ds4_deepseek4_next_image_span`: where the next block of image tokens starts and the place behind
it; `some none` when there is none, and `none` when a block is malformed. -/
def deepseek4NextImageSpan (vocab : Nat) (tokens : List Int) (cursor : Nat) : Option (Option (Nat × Nat)) :=
  let block := cursor + ((tokens.drop cursor).takeWhile fun t : Int => 0 ≤ t ∧ t < vocab).length
  match tokens.drop block with
  | [] => some none
  | t :: ts =>
    if t < 0 then none
    else
      let start := block + ((t :: ts).takeWhile fun t : Int => t = (vocab + imagePad : Nat)).length
      match tokens.drop start with
      | [] => none
      | t :: ts =>
        if t ≠ (vocab + imageStart : Nat) then none
        else (imageBody vocab ts (start + 1)).map fun after => some (block, after)

/-- The loop of `ds4_deepseek4_prefill_chunk`; every span takes at least one token of the fuel. -/
def prefillChunkLoop (vocab : Nat) (tokens : List Int) (pos0 cap : Nat) :
    Nat → Nat → Nat → Option Nat
  | 0, _, limit => some limit
  | n + 1, cursor, limit =>
    match deepseek4NextImageSpan vocab tokens cursor with
    | none => none
    | some none => some limit
    | some (some (block, after)) =>
      if limit ≤ block then some limit
      else if limit < after then
        if cap < after - pos0 then if block = pos0 then none else some block
        else prefillChunkLoop vocab tokens pos0 cap n after after
      else prefillChunkLoop vocab tokens pos0 cap n after limit

/-- `ds4_deepseek4_prefill_chunk`: a chunk that does not cut an image; zero stands for a failure. -/
def deepseek4PrefillChunk (vocab : Nat) (tokens : List Int) (pos0 cap : Nat) : Nat :=
  if vocab = 0 ∨ cap = 0 ∨ tokens.length ≤ pos0 then 0
  else
    match prefillChunkLoop vocab tokens pos0 cap (tokens.length + 1) pos0
        (pos0 + min (tokens.length - pos0) cap) with
    | none => 0
    | some limit => limit - pos0

/-! ## The DeepSeek graph -/

structure DeepSeek where
  backendName : String
  /-- The capacity of the session, and that of its graph. -/
  prefillCap : Nat
  graphPrefillCap : Nat
  rawCap : Nat
  /-- `metal_graph_resume_prefill_min_tokens`. -/
  resumeMin : Nat
  /-- Experts are streamed and the graph is not in its quality mode. -/
  streaming : Bool
  streamingMax : Nat
  /-- Streamed prefill of a prompt from its start is not switched off. -/
  streamingCold : Bool
  vision : Bool
  vocab : Nat
  deriving DecidableEq, Repr

namespace DeepSeek

variable (o : DeepSeek)

def useStreamingDecodePrefill (n : Nat) : Bool :=
  o.streaming && n ≠ 0 && o.streamingMax ≠ 0 && n ≤ o.streamingMax

def useStreamingDecodePrefillRange (start n : Nat) : Bool :=
  (start ≠ 0 || o.streamingCold) && o.useStreamingDecodePrefill n

/-- The capacity of a chunk that starts at `pos0`; chunks of a resumed range end where those of a
cold one do. -/
def localCap (prompt : List Int) (start pos0 : Nat) : Nat :=
  let chunkCap := if start ≠ 0 ∧ o.rawCap < o.graphPrefillCap then o.rawCap else o.graphPrefillCap
  let mod := pos0 % o.graphPrefillCap
  if o.vision ∧ (o.vocab : Int) ≤ prompt.getD pos0 0 then chunkCap
  else if start ≠ 0 ∧ mod ≠ 0 then min chunkCap (o.graphPrefillCap - mod)
  else chunkCap

/-- `metal_graph_visual_prefill_chunk`. -/
def visualPrefillChunk (prompt : List Int) (pos0 cap : Nat) : Nat :=
  if o.vision then deepseek4PrefillChunk o.vocab prompt pos0 cap else min (prompt.length - pos0) cap

end DeepSeek

/-- How a range ends. -/
inductive RangeEnd
  | done
  | cancelled
  | failed
  deriving DecidableEq, Repr

/-- `ds4_session_note_prefill_progress`: the checkpoint follows the chunks. -/
def notePrefillProgress (s : Session) (prompt : List Int) (current : Nat) : Session :=
  if 0 < current ∧ current ≤ prompt.length then
    { s with checkpoint := prompt.take current, valid := true }
  else s

/-- The loop of `metal_graph_prefill_decode_streaming_range` up to the end of the prompt. Logits are
read, and progress is reported, for the last token only. -/
def streamingLoop (prompt : List Int) (report : Bool) : List Int → Session → SyncProg (Session × RangeEnd)
  | [], s => pure (s, .done)
  | t :: ts, s => do
    let pos := prompt.length - (ts.length + 1)
    if ← ds4SessionCancelled (.streamingPoll (s.valid && pos ≠ s.checkpoint.length)) then
      pure (s, .cancelled)
    else do
      if ← forward .eval .recurrent pos [t] ts.isEmpty then do
        let s := if ts.isEmpty && report then notePrefillProgress s prompt (pos + 1) else s
        if ← ds4SessionCancelled (.streamingPoll (s.valid && pos + 1 ≠ s.checkpoint.length)) then
          pure (s, .cancelled)
        else streamingLoop prompt report ts s
      else pure (s, .failed)

def prefillDecodeStreamingRange (prompt : List Int) (start : Nat) (report : Bool) (s : Session) :
    SyncProg (Session × RangeEnd) :=
  streamingLoop prompt report (prompt.drop start)
    (if report then notePrefillProgress s prompt start else s)

/-- The chunks of `metal_graph_prefill_chunked_range`. The session listens to the progress, so that
every chunk is read back with its logits. -/
def chunkedLoop (o : DeepSeek) (prompt : List Int) (start pos0 : Nat) (s : Session) :
    SyncProg (Session × RangeEnd) :=
  if pos0 < prompt.length then do
    if ← ds4SessionCancelled .poll then pure (s, .cancelled)
    else
      match o.visualPrefillChunk prompt pos0 (o.localCap prompt start pos0) with
      | 0 => pure (s, .failed)
      | c + 1 => do
        if ← forward .eval .recurrent pos0 ((prompt.drop pos0).take (c + 1)) true then do
          let s := notePrefillProgress s prompt (pos0 + (c + 1))
          if ← ds4SessionCancelled .poll then pure (s, .cancelled)
          else chunkedLoop o prompt start (pos0 + (c + 1)) s
        else pure (s, .failed)
  else pure (s, .done)
termination_by prompt.length - pos0

def prefillChunkedRange (o : DeepSeek) (prompt : List Int) (start : Nat) (s : Session) :
    SyncProg (Session × RangeEnd) :=
  if o.graphPrefillCap = 0 then pure (s, .failed)
  else if o.useStreamingDecodePrefillRange start (prompt.length - start) then
    prefillDecodeStreamingRange prompt start true s
  else if start ≠ 0 ∧ o.rawCap = 0 then pure (s, .failed)
  else chunkedLoop o prompt start start (notePrefillProgress s prompt start)

/-- `metal_graph_prefill_raw_swa`: one submission, which cannot be cancelled. -/
def prefillRawSwa (o : DeepSeek) (prompt : List Int) (s : Session) : SyncProg (Session × RangeEnd) :=
  if o.graphPrefillCap < prompt.length then pure (s, .failed)
  else if o.useStreamingDecodePrefillRange 0 prompt.length then
    prefillDecodeStreamingRange prompt 0 false s
  else do
    if ← forward .eval .recurrent 0 prompt true then pure (s, .done) else pure (s, .failed)

/-- A short suffix is decoded token by token. -/
def decodeLoop (o : DeepSeek) : List Int → Session → SyncProg (Session × Rc)
  | [], s => pure (s, .ok)
  | t :: ts, s => do
    if ← ds4SessionCancelled .poll then pure ({ s with valid := true }, .interrupted "interrupted")
    else do
      if ← forward .eval .recurrent s.checkpoint.length [t] true then
        decodeLoop o ts { s with checkpoint := s.checkpoint ++ [t], valid := true }
      else
        pure ({ s with valid := false },
          .failed s!"{o.backendName} decode failed while extending checkpoint")

/-- The checkpoint is a prefix of the prompt and is extended. -/
def resumeDeepSeek (o : DeepSeek) (s : Session) (prompt : List Int) : SyncProg (Session × Rc) :=
  let suffix := prompt.length - s.checkpoint.length
  if 0 < suffix ∧ o.resumeMin ≤ suffix then do
    match ← prefillChunkedRange o prompt s.checkpoint.length s with
    | (s, .cancelled) => pure ({ s with valid := true }, .interrupted "interrupted")
    | (s, .failed) =>
      pure ({ s with valid := false },
        .failed s!"{o.backendName} resumed prefill failed while extending checkpoint")
    | (s, .done) => pure ({ s with checkpoint := prompt, valid := true }, .ok)
  else decodeLoop o (prompt.drop s.checkpoint.length) s

/-- The prompt is prefilled from its start. -/
def coldDeepSeek (o : DeepSeek) (s : Session) (prompt : List Int) : SyncProg (Session × Rc) := do
  let s := { s with valid := false, checkpoint := [] }
  if ← change .eval fun _ => [] then do
    if o.prefillCap < prompt.length then do
      match ← prefillChunkedRange o prompt 0 s with
      | (s, .cancelled) =>
        pure ({ s with valid := !s.checkpoint.isEmpty }, .interrupted "interrupted")
      | (s, .failed) => pure ({ s with valid := false }, .failed s!"{o.backendName} prefill failed")
      | (s, .done) => pure ({ s with checkpoint := prompt, valid := true }, .ok)
    else do
      match ← prefillRawSwa o prompt s with
      | (s, .cancelled) => pure (s, .interrupted "interrupted")
      | (s, .failed) => pure ({ s with valid := false }, .failed s!"{o.backendName} prefill failed")
      | (s, .done) => pure ({ s with checkpoint := prompt, valid := true }, .ok)
  else pure (s, .failed s!"{o.backendName} prefill state reset failed")

def syncDeepSeek (o : DeepSeek) (s : Session) (prompt : List Int) : SyncProg (Session × Rc) :=
  if s.valid && s.checkpoint.isPrefixOf prompt then resumeDeepSeek o s prompt
  else coldDeepSeek o s prompt

/-! ## The CPU keeps session and caches together -/

theorem safe_cpuDecodeLoop (prompt : List Int) (ts : List Int) (s : Session)
    (b : Backend) (hs : s.valid = true) (hb : b.caches = s.checkpoint) (hl : b.logits = s.checkpoint)
    (hp : s.checkpoint ++ ts = prompt) :
    (cpuDecodeLoop ts s).Safe Call.Settled
      (fun r b => r.1.valid = true ∧ b.caches = r.1.checkpoint ∧ b.logits = r.1.checkpoint ∧
        (if r.2 then r.1.checkpoint <+: prompt else r.1.checkpoint = prompt)) b := by
  induction ts generalizing s b with
  | nil =>
    rw [List.append_nil] at hp
    exact ⟨hs, hb, hl, hp⟩
  | cons t ts ih =>
    rw [cpuDecodeLoop]
    apply safe_cancelled
    · apply safe_always
      have hh : b.Holds .recurrent s.checkpoint := hb
      apply ih
      · exact hs
      · exact hh.eval [t] true
      · exact hh.logits_eval [t]
      · rw [← hp, List.append_assoc]
        rfl
    · intro _
      exact ⟨rfl, hb, hl, ⟨_, hp⟩⟩

theorem safe_syncCpu (s : Session) (prompt : List Int) (b : Backend) (h : Consistent .recurrent s b) :
    (syncCpu s prompt).Safe Call.Settled (Post .recurrent prompt s b) b := by
  rw [syncCpu]
  split
  · next hc =>
    rw [Bool.and_eq_true, List.isPrefixOf_iff_prefix] at hc
    obtain ⟨r, hr⟩ := hc.2
    obtain ⟨hb, hl⟩ := h hc.1
    refine (safe_cpuDecodeLoop prompt _ s b hc.1 hb hl ?_).bind ?_
    · rw [← hr, List.drop_left']
      rfl
    · intro r b ⟨hv, hb, hl, hp⟩
      obtain ⟨s, cut⟩ := r
      cases cut with
      | true => exact .interrupted_kept (fun _ => ⟨hb, hl⟩) hp
      | false => exact .ok hb hl rfl hp
  · apply safe_always
    apply safe_always
    have hh : ({ b with caches := [] } : Backend).Holds .recurrent [] := rfl
    exact .ok (hh.eval prompt true) (hh.logits_eval prompt) rfl rfl

/-! ## Chunks -/

theorem imageBody_le {vocab : Nat} {ts : List Int} {i n : Nat} (h : imageBody vocab ts i = some n) :
    n ≤ i + ts.length := by
  induction ts generalizing i with
  | nil => cases h
  | cons t ts ih =>
    rw [imageBody] at h
    rw [List.length_cons]
    split at h
    · cases h
    · split at h
      · cases h
        omega
      · have := ih h
        omega

theorem deepseek4NextImageSpan_le {vocab : Nat} {tokens : List Int} {cursor block after : Nat}
    (h : deepseek4NextImageSpan vocab tokens cursor = some (some (block, after))) :
    block ≤ tokens.length ∧ after ≤ tokens.length := by
  unfold deepseek4NextImageSpan at h
  dsimp only at h
  split at h
  · cases h
  · next t ts hb =>
    have hlt := congrArg List.length hb
    rw [List.length_drop, List.length_cons] at hlt
    split at h
    · cases h
    · split at h
      · cases h
      · next u us hu =>
        have hlu := congrArg List.length hu
        rw [List.length_drop, List.length_cons] at hlu
        split at h
        · cases h
        · obtain ⟨n, hn, he⟩ := Option.map_eq_some_iff.mp h
          cases he
          have := imageBody_le hn
          omega

theorem prefillChunkLoop_le {vocab : Nat} {tokens : List Int} {pos0 cap n cursor limit m : Nat}
    (hl : limit ≤ tokens.length) (h : prefillChunkLoop vocab tokens pos0 cap n cursor limit = some m) :
    m ≤ tokens.length := by
  induction n generalizing cursor limit with
  | zero =>
    cases h
    exact hl
  | succ n ih =>
    rw [prefillChunkLoop] at h
    split at h
    · cases h
    · cases h
      exact hl
    · next block after hs =>
      obtain ⟨hb, ha⟩ := deepseek4NextImageSpan_le hs
      split at h
      · cases h
        exact hl
      · split at h
        · split at h
          · split at h
            · cases h
            · cases h
              exact hb
          · exact ih ha h
        · exact ih hl h

theorem DeepSeek.visualPrefillChunk_le (o : DeepSeek) (prompt : List Int) (pos0 cap : Nat) :
    o.visualPrefillChunk prompt pos0 cap ≤ prompt.length - pos0 := by
  rw [visualPrefillChunk]
  split
  · rw [deepseek4PrefillChunk]
    split
    · exact Nat.zero_le _
    · split
      · exact Nat.zero_le _
      · next hm =>
        exact Nat.sub_le_sub_right (prefillChunkLoop_le (by omega) hm) pos0
  · exact Nat.min_le_left _ _

/-! ## Ranges -/

/-- What a range leaves behind for the session, which was valid or not before. -/
def RangePost (prompt : List Int) (valid : Bool) (r : Session × RangeEnd) (b : Backend) : Prop :=
  match r.2 with
  | .done => b.caches = prompt ∧ b.logits = prompt
  | .cancelled =>
    (valid = true → r.1.valid = true) ∧ (r.1.valid = false → r.1.checkpoint = []) ∧
      (r.1.valid = true → b.caches = r.1.checkpoint ∧ b.logits = r.1.checkpoint ∧
        r.1.checkpoint <+: prompt)
  | .failed => True

/-- The session in front of a chunk: a valid one has followed the chunks so far. -/
structure Follows (prompt : List Int) (pos0 : Nat) (s : Session) (b : Backend) : Prop where
  caches : b.caches = prompt.take pos0
  checkpoint : s.checkpoint = prompt.take pos0
  logits : s.valid = true → b.logits = prompt.take pos0
  start : s.valid = false → s.checkpoint = []

theorem Follows.cancelled (h : Follows prompt pos0 s b) (hv : valid = true → s.valid = true) :
    RangePost prompt valid (s, .cancelled) b := by
  refine ⟨hv, h.start, fun hs => ⟨?_, ?_, ?_⟩⟩
  · rw [h.caches, h.checkpoint]
  · rw [h.logits hs, h.checkpoint]
  · exact h.checkpoint ▸ List.take_prefix _ _

theorem notePrefillProgress_eq {current : Nat} (s : Session) (h : 0 < current) (hle : current ≤ prompt.length) :
    notePrefillProgress s prompt current = { s with checkpoint := prompt.take current, valid := true } :=
  if_pos ⟨h, hle⟩

/-- Progress at the start of a range tells the session nothing new. -/
theorem Follows.note {start : Nat} (h : Follows prompt start s b) (hle : start ≤ prompt.length) :
    notePrefillProgress s prompt start = s := by
  rw [notePrefillProgress]
  split
  · next hlt =>
    have hv : s.valid = true := by
      by_contra hv
      have hnil := h.start (eq_false_of_ne_true hv)
      rw [h.checkpoint, List.take_eq_nil_iff] at hnil
      rcases hnil with hz | hz
      · omega
      · rw [hz, List.length_nil] at hlt
        omega
    rw [← h.checkpoint, ← hv]
  · rfl

theorem safe_chunkedLoop (o : DeepSeek) (prompt : List Int) (start : Nat) {valid : Bool} (n pos0 : Nat)
    (s : Session) (b : Backend) (hn : prompt.length - pos0 ≤ n) (hle : pos0 ≤ prompt.length)
    (h : Follows prompt pos0 s b) (hv : valid = true → s.valid = true)
    (hdone : pos0 = prompt.length → s.valid = true) :
    (chunkedLoop o prompt start pos0 s).Safe Call.Settled (RangePost prompt valid) b := by
  induction n generalizing pos0 s b with
  | zero =>
    have he : pos0 = prompt.length := by omega
    rw [chunkedLoop, if_neg (by omega)]
    refine ⟨?_, ?_⟩
    · rw [h.caches, he, List.take_length]
    · rw [h.logits (hdone he), he, List.take_length]
  | succ n ih =>
    rw [chunkedLoop]
    split
    · next hlt =>
      apply safe_cancelled
      · have hc := o.visualPrefillChunk_le prompt pos0 (o.localCap prompt start pos0)
        rw [if_neg Bool.false_ne_true]
        split
        · trivial
        · next c hcc =>
          rw [hcc] at hc
          have ht : prompt.take pos0 ++ (prompt.drop pos0).take (c + 1) = prompt.take (pos0 + (c + 1)) :=
            List.take_add.symm
          apply safe_forward
          · rw [if_pos rfl]
            dsimp only
            rw [notePrefillProgress_eq s (by omega) (by omega)]
            have hf : Follows prompt (pos0 + (c + 1))
                { s with checkpoint := prompt.take (pos0 + (c + 1)), valid := true }
                (b.eval .recurrent pos0 ((prompt.drop pos0).take (c + 1)) true) := by
              refine ⟨?_, rfl, fun _ => ?_, fun hf => by cases hf⟩
              · rw [← ht, ← h.caches]
                rfl
              · rw [← ht, ← h.caches]
                rfl
            apply safe_cancelled
            · exact ih _ _ _ (by omega) (by omega) hf (fun _ => rfl) (fun _ => rfl)
            · intro _
              exact hf.cancelled fun _ => rfl
          · intro _ _
            trivial
      · intro _
        exact h.cancelled hv
    · have he : pos0 = prompt.length := by omega
      refine ⟨?_, ?_⟩
      · rw [h.caches, he, List.take_length]
      · rw [h.logits (hdone he), he, List.take_length]

/-- The session while tokens are streamed: the caches go ahead of a valid one. -/
structure Streams (prompt ts : List Int) (s : Session) (b : Backend) : Prop where
  caches : b.caches ++ ts = prompt
  logits : s.valid = true → b.logits = s.checkpoint ∧ s.checkpoint <+: prompt
  start : s.valid = false → s.checkpoint = []
  done : ts = [] → b.logits = prompt

theorem Streams.pos (h : Streams prompt ts s b) : prompt.length - ts.length = b.caches.length := by
  rw [← h.caches, List.length_append, Nat.add_sub_cancel]

/-- A cancel request where the caches are not ahead. -/
theorem Streams.cancelled {valid : Bool} (h : Streams prompt ts s b) (hv : valid = true → s.valid = true)
    (hset : (Call.streamingPoll (s.valid && b.caches.length ≠ s.checkpoint.length)).Settled) :
    RangePost prompt valid (s, .cancelled) b := by
  refine ⟨hv, h.start, fun hs => ?_⟩
  obtain ⟨hl, hp⟩ := h.logits hs
  have hlen : b.caches.length = s.checkpoint.length := by
    rw [hs, Bool.true_and] at hset
    exact not_not.mp (of_decide_eq_false hset)
  have hb : b.caches <+: prompt := ⟨ts, h.caches⟩
  exact ⟨(List.prefix_of_prefix_length_le hb hp (by omega)).eq_of_length hlen, hl, hp⟩

theorem safe_streamingLoop {prompt : List Int} {report valid : Bool} (ts : List Int) (s : Session)
    (b : Backend) (h : Streams prompt ts s b) (hr : report = true ∨ s.valid = false)
    (hv : valid = true → s.valid = true) :
    (streamingLoop prompt report ts s).Safe Call.Settled (RangePost prompt valid) b := by
  induction ts generalizing s b with
  | nil =>
    have hb := h.caches
    rw [List.append_nil] at hb
    exact ⟨hb, h.done rfl⟩
  | cons t ts ih =>
    have hpos : prompt.length - (ts.length + 1) = b.caches.length := h.pos
    have hlt : b.caches.length + 1 ≤ prompt.length := by
      have := congrArg List.length h.caches
      rw [List.length_append, List.length_cons] at this
      omega
    have hcaches : (b.caches ++ [t]) ++ ts = prompt := by
      rw [List.append_assoc]
      exact h.caches
    rw [streamingLoop]
    dsimp only
    rw [hpos]
    apply safe_cancelled
    · rw [if_neg Bool.false_ne_true]
      apply safe_forward
      · rw [if_pos rfl]
        have hnext : ∀ s', (s'.valid = true → (b.eval .recurrent b.caches.length [t] ts.isEmpty).logits =
              s'.checkpoint ∧ s'.checkpoint <+: prompt) → (s'.valid = false → s'.checkpoint = []) →
            Streams prompt ts s' (b.eval .recurrent b.caches.length [t] ts.isEmpty) := by
          intro s' hval hstart
          refine ⟨hcaches, hval, hstart, fun hts => ?_⟩
          subst hts
          rw [List.append_nil] at hcaches
          exact hcaches
        have hgo : ∀ s', Streams prompt ts s' (b.eval .recurrent b.caches.length [t] ts.isEmpty) →
            (report = true ∨ s'.valid = false) → (valid = true → s'.valid = true) →
            Prog.Safe Call.Settled (do
              if ← ds4SessionCancelled
                  (.streamingPoll (s'.valid && b.caches.length + 1 ≠ s'.checkpoint.length)) then
                pure (s', .cancelled)
              else streamingLoop prompt report ts s')
              (RangePost prompt valid) (b.eval .recurrent b.caches.length [t] ts.isEmpty) := by
          intro s' hs' hr' hv'
          apply safe_cancelled
          · exact ih s' _ hs' hr' hv'
          · intro hset
            refine hs'.cancelled hv' ?_
            have hlen : (b.eval .recurrent b.caches.length [t] ts.isEmpty).caches.length =
                b.caches.length + 1 := by
              change (b.caches ++ [t]).length = _
              rw [List.length_append]
              rfl
            rw [hlen]
            exact hset
        cases ts with
        | nil =>
          rw [List.append_nil] at hcaches
          cases report with
          | true =>
            have htake : prompt.take (b.caches.length + 1) = prompt := by
              apply List.take_of_length_le
              rw [← hcaches, List.length_append]
              exact Nat.le_refl _
            rw [show (([] : List Int).isEmpty && true) = true from rfl, if_pos rfl,
              notePrefillProgress_eq s (by omega) hlt, htake]
            apply hgo
            · exact hnext _ (fun _ => ⟨hcaches, List.prefix_rfl⟩) fun hf => by cases hf
            · exact .inl rfl
            · exact fun _ => rfl
          | false =>
            have hs := hr.resolve_left Bool.false_ne_true
            rw [show (([] : List Int).isEmpty && false) = false from rfl, if_neg Bool.false_ne_true]
            apply hgo
            · exact hnext _ (fun hs' => by rw [hs] at hs'; cases hs') h.start
            · exact hr
            · exact hv
        | cons u us =>
          apply hgo
          · exact hnext _ h.logits h.start
          · exact hr
          · exact hv
      · intro _ _
        trivial
    · intro hset
      exact h.cancelled hv hset

/-- A range of which something is left. -/
theorem safe_prefillDecodeStreamingRange {prompt : List Int} {start : Nat} {report valid : Bool}
    {s : Session} {b : Backend} (h : Follows prompt start s b) (hlt : start < prompt.length)
    (hr : report = true ∨ s.valid = false) (hv : valid = true → s.valid = true) :
    (prefillDecodeStreamingRange prompt start report s).Safe Call.Settled (RangePost prompt valid) b := by
  have hs : (if report then notePrefillProgress s prompt start else s) = s := by
    rw [h.note (Nat.le_of_lt hlt), ite_self]
  rw [prefillDecodeStreamingRange, hs]
  refine safe_streamingLoop _ s b ⟨?_, fun hv => ?_, h.start, fun hd => ?_⟩ hr hv
  · rw [h.caches, List.take_append_drop]
  · rw [h.logits hv, h.checkpoint]
    exact ⟨rfl, List.take_prefix _ _⟩
  · rw [List.drop_eq_nil_iff] at hd
    omega

theorem safe_prefillChunkedRange {o : DeepSeek} {prompt : List Int} {start : Nat} (valid : Bool)
    {s : Session} {b : Backend} (h : Follows prompt start s b) (hlt : start < prompt.length)
    (hv : valid = true → s.valid = true) :
    (prefillChunkedRange o prompt start s).Safe Call.Settled (RangePost prompt valid) b := by
  rw [prefillChunkedRange]
  split
  · trivial
  · split
    · exact safe_prefillDecodeStreamingRange h hlt (.inl rfl) hv
    · split
      · trivial
      · rw [h.note (Nat.le_of_lt hlt)]
        exact safe_chunkedLoop o prompt start _ _ _ _ (Nat.le_refl _) (Nat.le_of_lt hlt) h hv
          fun he => absurd he (Nat.ne_of_lt hlt)

theorem safe_prefillRawSwa {o : DeepSeek} {prompt : List Int} {s : Session} {b : Backend}
    (h : Follows prompt 0 s b) (hlt : 0 < prompt.length) (hs : s.valid = false) :
    (prefillRawSwa o prompt s).Safe Call.Settled (RangePost prompt false) b := by
  rw [prefillRawSwa]
  split
  · trivial
  · split
    · exact safe_prefillDecodeStreamingRange h hlt (.inr hs) fun hf => by cases hf
    · have hh : b.Holds .recurrent [] := h.caches
      apply safe_forward
      · exact ⟨hh.eval prompt true, hh.logits_eval prompt⟩
      · intro _ _
        trivial

/-! ## The DeepSeek graph keeps session and caches together -/

theorem safe_decodeLoop {o : DeepSeek} {prompt : List Int} {s₀ : Session} {b₀ : Backend} (ts : List Int)
    (s : Session) (b : Backend) (hs : s.valid = true) (hb : b.caches = s.checkpoint)
    (hl : b.logits = s.checkpoint) (hp : s.checkpoint ++ ts = prompt) :
    (decodeLoop o ts s).Safe Call.Settled (Post .recurrent prompt s₀ b₀) b := by
  induction ts generalizing s b with
  | nil =>
    rw [List.append_nil] at hp
    exact .ok hb hl hs hp
  | cons t ts ih =>
    have hh : b.Holds .recurrent s.checkpoint := hb
    rw [decodeLoop]
    apply safe_cancelled
    · apply safe_forward
      · apply ih
        · rfl
        · exact hh.eval [t] true
        · exact hh.logits_eval [t]
        · rw [← hp, List.append_assoc]
          rfl
      · intro _ _
        exact .failed rfl
    · intro _
      exact .interrupted_kept (fun _ => ⟨hb, hl⟩) ⟨_, hp⟩

theorem safe_resumeDeepSeek {o : DeepSeek} {s : Session} {prompt : List Int} {b : Backend}
    (h : Consistent .recurrent s b) (hs : s.valid = true) (hp : s.checkpoint <+: prompt) :
    (resumeDeepSeek o s prompt).Safe Call.Settled (Post .recurrent prompt s b) b := by
  obtain ⟨hb, hl⟩ := h hs
  have hb : b.caches = s.checkpoint := hb
  have htake := List.prefix_iff_eq_take.mp hp
  rw [resumeDeepSeek]
  split
  · next hc =>
    have hf : Follows prompt s.checkpoint.length s b := by
      refine ⟨?_, htake, fun _ => ?_, fun hf => (by rw [hs] at hf; cases hf)⟩
      · rw [hb, ← htake]
      · rw [hl, ← htake]
    refine (safe_prefillChunkedRange true hf (by omega) fun _ => hs).bind ?_
    intro r b hr
    obtain ⟨s, e⟩ := r
    cases e with
    | done => exact .ok hr.1 hr.2 rfl rfl
    | cancelled =>
      obtain ⟨hv, -, hr⟩ := hr
      obtain ⟨hb, hl, hp⟩ := hr (hv rfl)
      exact .interrupted_kept (fun _ => ⟨hb, hl⟩) hp
    | failed => exact .failed rfl
  · apply safe_decodeLoop
    · exact hs
    · exact hb
    · exact hl
    · obtain ⟨r, hr⟩ := hp
      rw [← hr, List.drop_left']
      rfl

theorem safe_coldDeepSeek {o : DeepSeek} {s s₀ : Session} {prompt : List Int} {b b₀ : Backend}
    (hlt : 0 < prompt.length) :
    (coldDeepSeek o s prompt).Safe Call.Settled (Post .recurrent prompt s₀ b₀) b := by
  have hf : Follows prompt 0 { s with valid := false, checkpoint := [] } { b with caches := [] } :=
    ⟨rfl, rfl, fun hv => (by cases hv), fun _ => rfl⟩
  apply safe_change
  · rw [if_pos rfl]
    split
    · refine (safe_prefillChunkedRange false hf hlt fun hf => by cases hf).bind ?_
      intro r b hr
      obtain ⟨s, e⟩ := r
      cases e with
      | done => exact .ok hr.1 hr.2 rfl rfl
      | failed => exact .failed rfl
      | cancelled =>
        obtain ⟨-, hnil, hr⟩ := hr
        cases hv : s.valid with
        | false =>
          apply Post.interrupted
          rw [hnil hv]
          rfl
        | true =>
          obtain ⟨hb, hl, hp⟩ := hr hv
          exact .interrupted_kept (fun _ => ⟨hb, hl⟩) hp
    · refine (safe_prefillRawSwa hf hlt rfl).bind ?_
      intro r b hr
      obtain ⟨s, e⟩ := r
      cases e with
      | done => exact .ok hr.1 hr.2 rfl rfl
      | failed => exact .failed rfl
      | cancelled =>
        obtain ⟨-, -, hr⟩ := hr
        cases hv : s.valid with
        | false => exact .interrupted hv
        | true =>
          obtain ⟨hb, hl, hp⟩ := hr hv
          exact .interrupted_kept (fun _ => ⟨hb, hl⟩) hp
  · intro _ _
    exact .failed rfl

theorem safe_syncDeepSeek (o : DeepSeek) (s : Session) (prompt : List Int) (b : Backend)
    (h : Consistent .recurrent s b) (hlt : 0 < prompt.length) :
    (syncDeepSeek o s prompt).Safe Call.Settled (Post .recurrent prompt s b) b := by
  rw [syncDeepSeek]
  split
  · next hc =>
    rw [Bool.and_eq_true, List.isPrefixOf_iff_prefix] at hc
    exact safe_resumeDeepSeek h hc.1 hc.2
  · exact safe_coldDeepSeek hlt

end Ds4.Sync
