import Ds4.Engine.Sync
import Ds4.Lib.CString
import Mathlib.Data.List.Pairwise

/-!
# Context compaction of the agent

`agent_worker_compact_transcript` has the model summarize a prefix of the transcript and rebuilds
the transcript from the system tokens, the summary and a verbatim tail. The tokenizer and the chat
template are those of an `AgentEngine`, and a `CompactWorld` answers what the function asks of the
session, the user and the background jobs. Status, progress and trace output are left out.
-/

namespace Ds4
open C Sync

/-- What compaction needs of the engine and its vocabulary. -/
structure AgentEngine where
  /-- The model wraps images in a token on either side (GLM), not DeepSeek. -/
  glm : Bool
  /-- `agent_worker_effective_ctx_size`. -/
  ctx : Int
  /-- `agent_worker_build_system_tokens`. -/
  systemTokens : List Int
  /-- `ds4_chat_append_message`, for a role and a text. -/
  message : Bytes → Bytes → List Int
  /-- `ds4_chat_append_assistant_prefix`, with thinking on or off. -/
  assistantPrefix : Bool → List Int
  /-- `agent_special_token_id`. -/
  specialToken : Bytes → Int
  tokenUser : Int
  tokenAssistant : Int
  /-- `ds4_token_is_stop_for_think_mode` without thinking. -/
  tokenIsStop : Int → Bool
  tokenText : Int → Bytes

inductive SyncAnswer
  | ok
  | interrupted
  | failed (err : Bytes)
  deriving DecidableEq, Repr

/-- The answers to what compaction asks, at the places where it asks. -/
structure CompactWorld where
  /-- The sync of the summary prompt. -/
  sync : SyncAnswer
  /-- The loop over the tokens of the summary, by iteration. -/
  interrupt : Nat → Bool
  argmax : Nat → Int
  evalErr : Nat → Option Bytes
  /-- The `calloc` of the list of kept images. -/
  alloc : Bool
  /-- The sync of the rebuilt transcript; `none` is a success. -/
  rebuildErr : Option Bytes
  /-- `agent_bash_jobs_compaction_observation`. -/
  bashUpdate : Option Bytes

structure AgentWorker where
  transcript : List Int
  images : List VisionIdentity
  sessionDirty : Bool
  /-- The tokens that the live session stands for, `none` when it is invalidated. -/
  live : Option (List Int)
  deriving DecidableEq, Repr

/-! ## Cut points -/

def agentCompactTailDivisor : Int := 10
def agentCompactTailCapTokens : Int := 50000
def agentCompactSummaryMaxTokens : Int := 4096

/-- The downward search for the last user token not below `earliest`. -/
def lastUserFrom (tokens : List Int) (userId earliest : Int) : Nat → Option Nat
  | 0 => none
  | i + 1 =>
    if (i : Int) < earliest then none
    else if tokens[i]? = some userId then some i
    else lastUserFrom tokens userId earliest i

def agentCompactTailBoundary (tokens : List Int) (bottom sysLen : Nat) (tailBudget userId : Int) : Int :=
  let target := max ((bottom : Int) - tailBudget) sysLen
  if userId < 0 then target
  else
    match lastUserFrom tokens userId (max ((bottom : Int) - 2 * tailBudget) sysLen) bottom with
    | some i => i
    | none => target

def agentCompactTailStart (e : AgentEngine) (w : AgentWorker) (bottom sysLen : Nat) : Int :=
  let tailBudget := max (min (e.ctx.tdiv agentCompactTailDivisor) agentCompactTailCapTokens) 1
  agentCompactTailBoundary w.transcript bottom sysLen tailBudget
    (e.specialToken (if e.glm then lit "<|user|>" else lit "<｜User｜>"))

/-- Where the block of an image starts, its wrapper token included. -/
def blockStart (glm : Bool) (s : VisionIdentity) : Int := s.tokenStart - if glm then 1 else 0

/-- Where it ends. -/
def blockEnd (glm : Bool) (s : VisionIdentity) : Int :=
  s.tokenStart + s.tokenCount + if glm then 1 else 0

def agentCompactImageBoundary (images : List VisionIdentity) (glm : Bool) (pos : Int) : Int :=
  match images.find? fun s => blockStart glm s < pos ∧ pos < blockEnd glm s with
  | some s => blockStart glm s
  | none => pos

def agentTokensRange (src : List Int) (start fin : Int) : List Int :=
  (src.take fin.toNat).drop start.toNat

/-! ## The summary -/

def agentCompactMakePrompt (reason : Option Bytes) : Bytes :=
  lit "Internal ds4-agent context compaction request. This is not a user request.\n" ++
  lit "Write a durable task-state summary of the conversation so far. Preserve only facts that matter for continuing the work:\n" ++
  lit "- user goals, constraints, and preferences\n" ++
  lit "- files inspected or edited\n" ++
  lit "- commands run and important results\n" ++
  lit "- decisions, rejected approaches, known bugs, and pending next steps\n" ++
  lit "- reloadable bulky data with exact paths/ranges/commands when available\n\n" ++
  lit "Do not invent facts. Do not include generic narration. Do not include raw file contents unless they were essential to a conclusion.\n" ++
  lit "Do not solve unfinished tasks, calculate new results, or finish incomplete code in the summary. " ++
  lit "Record the user's requirements and what actually happened, leaving unfinished work pending.\n" ++
  lit "After the summary, stop. Do not continue the user task, do not call tools, and do not output thinking tags or DSML markup.\n" ++
  lit "Output only the compact summary.\n" ++
  (let reason := reason.getD []
   if reason = [] then [] else lit "\nCompaction reason: " ++ reason ++ lit "\n")

def agentCompactSummaryBudget (ctx : Int) : Int :=
  min (max (ctx.tdiv 8) 256) agentCompactSummaryMaxTokens

/-- The request for a summary that ends with an assistant prefix without thinking. -/
def summaryRequest (e : AgentEngine) (reason : Option Bytes) : List Int :=
  e.message (lit "user") (agentCompactMakePrompt reason) ++ e.assistantPrefix false

def agentCompactReserveTokens (e : AgentEngine) : Int :=
  (summaryRequest e (some (lit "context pressure before continuing the current task"))).length + 64 +
    agentCompactSummaryBudget e.ctx

/-- The end of the prefix that is summarized: the whole transcript, or what fits with the request
and a summary; it cuts no image. -/
def compactSummaryBottom (e : AgentEngine) (w : AgentWorker) (suffixLen : Nat) : Int :=
  agentCompactImageBoundary w.images e.glm
    (min (w.transcript.length : Int) (e.ctx - suffixLen - agentCompactSummaryBudget e.ctx - 1))

inductive SummaryEnd
  | stopped
  | interrupted
  | failed (err : Bytes)
  deriving DecidableEq, Repr

/-- The generation loop; `n` iterations are left. A tool marker ends the summary in front of its `<`. -/
def compactSummaryLoop (e : AgentEngine) (wd : CompactWorld) : Nat → Nat → Bytes → Bytes × SummaryEnd
  | 0, _, summary => (summary, .stopped)
  | n + 1, i, summary =>
    if wd.interrupt i then (summary, .interrupted)
    else
      let token := wd.argmax i
      let dsmlId := e.specialToken (lit "｜DSML｜")
      if e.tokenIsStop token ∨ token = dsmlId then
        (if token = dsmlId ∧ summary.getLast? = some (ch '<') then summary.dropLast else summary, .stopped)
      else
        match wd.evalErr i with
        | some err => (summary, .failed err)
        | none => compactSummaryLoop e wd n (i + 1) (summary ++ e.tokenText token)

def compactSummaryText (summary : Bytes) : Bytes :=
  let text := lit "\n\n[ds4-agent compacted earlier conversation. Durable task-state summary follows.]\n" ++
    cstr summary
  text ++ (if text.getLast? = some (ch '\n') then [] else lit "\n") ++
    lit "[End compacted summary. Recent conversation continues verbatim below.]\n\n"

/-! ## The rebuilt transcript -/

/-- Whether the part of an assistant turn that is cut off leaves its thinking open. -/
def compactInThink (e : AgentEngine) (turn : List Int) : Bool :=
  turn.foldl (fun inThink t =>
    let inThink := if t = e.specialToken (lit "<think>") then true else inThink
    if t = e.specialToken (lit "</think>") then false else inThink) false

/-- What stands between the summary and the tail: a prefix that goes on with an assistant turn of
which the start is cut off, or a note in front of a tail that starts inside a message. -/
def compactJoint (e : AgentEngine) (transcript : List Int) (openAssistant : Option Nat) (tailStart : Int) :
    List Int :=
  match openAssistant with
  | some o =>
    if (o : Int) < tailStart then
      e.assistantPrefix (compactInThink e (agentTokensRange transcript o tailStart))
    else note
  | none => note
where
  note := match transcript[tailStart.toNat]? with
    | some t =>
      if t ≠ e.tokenUser ∧ t ≠ e.tokenAssistant then
        e.message (lit "user") (lit "[Verbatim tail of the previous conversation; it may begin mid-message.]\n")
      else []
    | none => []

/-- Where the open assistant turn starts in the rebuilt transcript. -/
def compactResumedStart (headLen jointLen : Nat) (openAssistant : Option Nat) (tailStart : Int) :
    Option Int :=
  openAssistant.map fun o : Nat =>
    if (o : Int) < tailStart then (headLen : Int) else headLen + jointLen + o - tailStart

/-- The images behind the cut, at their new places. -/
def compactImages (images : List VisionIdentity) (bottom tailDst : Nat) (tailStart : Int) :
    List VisionIdentity :=
  (images.filter fun s => tailStart ≤ s.tokenStart ∧ s.tokenStart + s.tokenCount ≤ bottom).map fun s =>
    { s with tokenStart := (tailDst + s.tokenStart - tailStart).toNat }

def agentWorkerImagesFitTokens (images : List VisionIdentity) (tokens : List Int) : Bool :=
  images.all fun s => s.tokenStart + s.tokenCount ≤ tokens.length

/-- `agent_worker_sync_tokens`: the error, unless the sync succeeds. -/
def agentWorkerSyncTokens (wd : CompactWorld) (images : List VisionIdentity) (tokens : List Int) :
    Option Bytes :=
  if images ≠ [] ∧ !agentWorkerImagesFitTokens images tokens then
    some (lit "image spans do not fit the agent transcript")
  else wd.rebuildErr

/-- What compaction returns: the worker, an error unless it succeeds, and the new place of the open
assistant turn. `shown` is the prompt that the model had to summarize, if it came to that. -/
structure Compacted where
  worker : AgentWorker
  err : Option Bytes
  openAssistant : Option Int
  shown : Option (List Int)
  deriving DecidableEq, Repr

/-- The last step: the transcript and the images are exchanged, and exchanged back when the session
cannot be brought to them. -/
def compactExchange (e : AgentEngine) (wd : CompactWorld) (w : AgentWorker) (summary : Bytes)
    (summaryBottom : Int) (openAssistant : Option Nat) (shown : List Int) : Compacted :=
  let bottom := w.transcript.length
  let failed (err : Bytes) : Compacted :=
    ⟨{ w with live := none }, some err, openAssistant.map Int.ofNat, some shown⟩
  let tailStart := agentCompactImageBoundary w.images e.glm
    (min (agentCompactTailStart e w bottom e.systemTokens.length) summaryBottom)
  let head := e.systemTokens ++ e.message (lit "user") (compactSummaryText summary)
  let joint := compactJoint e w.transcript openAssistant tailStart
  let compacted := head ++ joint ++ agentTokensRange w.transcript tailStart bottom
  if e.ctx - agentCompactReserveTokens e - 128 ≤ (compacted.length : Int) then
    failed (lit "compacted conversation leaves no working room; use a larger --ctx")
  else if w.images ≠ [] ∧ !wd.alloc then failed (lit "out of memory retaining compacted images")
  else
    let images := compactImages w.images bottom (head ++ joint).length tailStart
    match agentWorkerSyncTokens wd images compacted with
    | some err => failed err
    | none =>
      let bash := if openAssistant.isSome then none else wd.bashUpdate
      ⟨{ transcript := compacted ++ (bash.map (e.message (lit "tool"))).getD []
         images := images
         sessionDirty := w.sessionDirty || bash.isSome
         live := some compacted },
        none, compactResumedStart head.length joint.length openAssistant tailStart, some shown⟩

def agentWorkerCompactTranscript (e : AgentEngine) (wd : CompactWorld) (w : AgentWorker)
    (reason : Option Bytes) (openAssistant : Option Nat) : Compacted :=
  let bottom := w.transcript.length
  let opened := openAssistant.map Int.ofNat
  if bottom = 0 ∨ bottom ≤ e.systemTokens.length then ⟨w, none, opened, none⟩
  else
    let suffix := summaryRequest e reason
    let summaryBottom := compactSummaryBottom e w suffix.length
    if summaryBottom ≤ e.systemTokens.length then
      ⟨w, some (lit "context too small to summarize this conversation; use a larger --ctx"), opened, none⟩
    else
      let prompt := agentTokensRange w.transcript 0 summaryBottom ++ suffix
      let room := e.ctx - prompt.length - 1
      if room < 256 then
        ⟨w, some (lit "not enough context left to request compaction summary"), opened, none⟩
      else
        let dropped : AgentWorker := { w with live := none }
        match wd.sync with
        | .interrupted => ⟨dropped, some (lit "interrupted"), opened, some prompt⟩
        | .failed err => ⟨dropped, some err, opened, some prompt⟩
        | .ok =>
          match compactSummaryLoop e wd (min room (agentCompactSummaryBudget e.ctx)).toNat 0 [] with
          | (_, .interrupted) => ⟨dropped, some (lit "interrupted"), opened, some prompt⟩
          | (_, .failed err) => ⟨dropped, some err, opened, some prompt⟩
          | (summary, .stopped) =>
            if cstr summary = [] then
              ⟨dropped, some (lit "compaction summary was empty"), opened, some prompt⟩
            else compactExchange e wd w summary summaryBottom openAssistant prompt

/-! ## Cut points do not cut images -/

/-- Image blocks that lie in a part of the transcript, each apart from the others. -/
structure BlocksLie (glm : Bool) (lo hi : Int) (images : List VisionIdentity) : Prop where
  apart : images.Pairwise fun a b => blockEnd glm a ≤ blockStart glm b ∨ blockEnd glm b ≤ blockStart glm a
  lies : ∀ s ∈ images, lo ≤ blockStart glm s ∧ blockEnd glm s ≤ hi

theorem blockStart_le (glm : Bool) (s : VisionIdentity) : blockStart glm s ≤ s.tokenStart := by
  rw [blockStart]
  split <;> omega

theorem le_blockEnd (glm : Bool) (s : VisionIdentity) : s.tokenStart + s.tokenCount ≤ blockEnd glm s := by
  rw [blockEnd]
  split <;> omega

theorem imageBoundary_le (images : List VisionIdentity) (glm : Bool) (pos : Int) :
    agentCompactImageBoundary images glm pos ≤ pos := by
  rw [agentCompactImageBoundary]
  split
  · next s hs =>
    have := List.find?_some hs
    simp only [decide_eq_true_eq] at this
    omega
  · exact Int.le_refl _

theorem le_imageBoundary (h : BlocksLie glm lo hi images) (hpos : lo ≤ pos) :
    lo ≤ agentCompactImageBoundary images glm pos := by
  rw [agentCompactImageBoundary]
  split
  · next s hs => exact (h.lies s (List.mem_of_find?_eq_some hs)).1
  · exact hpos

/-- The boundary is inside no block: it is the start of the only block that the position is in. -/
theorem imageBoundary_outside (h : BlocksLie glm lo hi images) (pos : Int) (hs : s ∈ images) :
    ¬ (blockStart glm s < agentCompactImageBoundary images glm pos ∧
      agentCompactImageBoundary images glm pos < blockEnd glm s) := by
  rw [agentCompactImageBoundary]
  split
  · next t ht =>
    have hin := List.find?_some ht
    simp only [decide_eq_true_eq] at hin
    by_cases hst : s = t
    · subst hst
      omega
    · have : Std.Symm fun a b : VisionIdentity =>
          blockEnd glm a ≤ blockStart glm b ∨ blockEnd glm b ≤ blockStart glm a := ⟨fun _ _ => Or.symm⟩
      have := h.apart.forall hs (List.mem_of_find?_eq_some ht) hst
      omega
  · next hnone =>
    have := List.find?_eq_none.1 hnone s hs
    simpa using this

theorem le_lastUserFrom (h : lastUserFrom tokens userId earliest n = some i) : earliest ≤ (i : Int) := by
  induction n with
  | zero => cases h
  | succ n ih =>
    rw [lastUserFrom] at h
    split at h
    · cases h
    · split at h
      · cases h
        omega
      · exact ih h

theorem le_tailBoundary (tokens : List Int) (bottom sysLen : Nat) (tailBudget userId : Int) :
    (sysLen : Int) ≤ agentCompactTailBoundary tokens bottom sysLen tailBudget userId := by
  simp only [agentCompactTailBoundary]
  split
  · exact Int.le_max_right _ _
  · split
    · next i hi => exact Int.le_trans (Int.le_max_right _ _) (le_lastUserFrom hi)
    · exact Int.le_max_right _ _

/-! ## What a compaction keeps -/

/-- The image with its wrapper is in the tail. -/
def inTail (glm : Bool) (bottom tailStart : Nat) (s : VisionIdentity) : Bool :=
  tailStart ≤ blockStart glm s ∧ blockEnd glm s ≤ bottom

/-- A compaction that succeeded: the tail that it kept, the part that was summarized, the summary and
what stands between the two. -/
structure Keeps (e : AgentEngine) (w : AgentWorker) (openAssistant : Option Nat) (r : Compacted)
    (tailStart shown : Nat) (summary : Bytes) (joint : List Int) : Prop where
  bounds : e.systemTokens.length ≤ tailStart ∧ tailStart ≤ shown ∧ shown ≤ w.transcript.length
  prompted : ∃ request, r.shown = some (w.transcript.take shown ++ request)
  between : joint = [] ∨ (∃ text, joint = e.message (lit "user") text) ∨
    ∃ o, openAssistant = some o ∧ o < tailStart ∧
      joint = e.assistantPrefix (compactInThink e ((w.transcript.take tailStart).drop o))
  transcript : ∃ bash, r.worker.transcript = e.systemTokens ++
      e.message (lit "user") (compactSummaryText summary) ++ joint ++ w.transcript.drop tailStart ++ bash ∧
    (bash = [] ∨ openAssistant = none ∧ ∃ text, bash = e.message (lit "tool") text)
  outside : ∀ s ∈ w.images, ¬ (blockStart e.glm s < tailStart ∧ (tailStart : Int) < blockEnd e.glm s)
  images : r.worker.images = (w.images.filter (inTail e.glm w.transcript.length tailStart)).map fun s =>
    { s with tokenStart := (e.systemTokens ++ e.message (lit "user") (compactSummaryText summary) ++
      joint).length + (s.tokenStart - tailStart) }
  /-- The turn that is open starts at the same token, or at the prefix that goes on with it. -/
  opened : ∀ o, openAssistant = some o → r.openAssistant = some
    ((if o < tailStart then (e.systemTokens ++ e.message (lit "user") (compactSummaryText summary)).length
      else (e.systemTokens ++ e.message (lit "user") (compactSummaryText summary) ++ joint).length +
        (o - tailStart) : Nat) : Int)

/-- The images that the exchange keeps are those that are in the tail with their wrappers. -/
theorem compactImages_eq {tailStart bottom : Nat} (hb : BlocksLie glm lo bottom images)
    (hout : ∀ s ∈ images, ¬ (blockStart glm s < tailStart ∧ (tailStart : Int) < blockEnd glm s))
    (dst : Nat) : compactImages images bottom dst tailStart =
      (images.filter (inTail glm bottom tailStart)).map fun s =>
        { s with tokenStart := dst + (s.tokenStart - tailStart) } := by
  have hkeep : ∀ s ∈ images, (decide ((tailStart : Int) ≤ s.tokenStart ∧
      s.tokenStart + s.tokenCount ≤ bottom)) = inTail glm bottom tailStart s := by
    intro s hs
    have h1 := blockStart_le glm s
    have h2 := le_blockEnd glm s
    have h3 := hb.lies s hs
    have h4 := hout s hs
    rw [inTail, decide_eq_decide]
    constructor
    · rintro ⟨hstart, -⟩
      refine ⟨?_, h3.2⟩
      -- a cut between the wrapper and the image would be inside the block
      by_contra hlt
      have hwrap : blockStart glm s < blockEnd glm s := by omega
      have : (tailStart : Int) < blockEnd glm s := by
        rw [blockStart] at hlt
        rw [blockEnd]
        split at hlt
        · split <;> omega
        · omega
      exact h4 ⟨by omega, this⟩
    · rintro ⟨hstart, hend⟩
      omega
  rw [compactImages, List.filter_congr hkeep]
  apply List.map_congr_left
  intro s hs
  have hin := (List.mem_filter.1 hs).2
  simp only [inTail, decide_eq_true_eq] at hin
  have h1 := blockStart_le glm s
  congr 1
  omega

/-- A kept image stands for the tokens that it stood for. -/
theorem Keeps.image_tokens (h : Keeps e w openAssistant r tailStart shown summary joint)
    (hin : inTail e.glm w.transcript.length tailStart s) :
    (r.worker.transcript.drop ((e.systemTokens ++ e.message (lit "user") (compactSummaryText summary) ++
      joint).length + (s.tokenStart - tailStart))).take s.tokenCount =
        (w.transcript.drop s.tokenStart).take s.tokenCount := by
  obtain ⟨bash, htr, -⟩ := h.transcript
  have h1 := blockStart_le e.glm s
  have h2 := le_blockEnd e.glm s
  simp only [inTail, decide_eq_true_eq] at hin
  have hle : s.tokenCount ≤ ((w.transcript.drop tailStart).drop (s.tokenStart - tailStart)).length := by
    simp only [List.length_drop]
    omega
  rw [htr, List.append_assoc _ (w.transcript.drop tailStart) bash, ← List.drop_drop, List.drop_left,
    List.drop_append_of_le_length (by
      simp only [List.length_drop]
      omega), List.take_append_of_le_length hle, List.drop_drop]
  congr 2
  omega

/-! ## Compaction -/

theorem compactJoint_cases (e : AgentEngine) (transcript : List Int) (openAssistant : Option Nat)
    (tailStart : Nat) :
    compactJoint e transcript openAssistant tailStart = [] ∨
      (∃ text, compactJoint e transcript openAssistant tailStart = e.message (lit "user") text) ∨
        ∃ o, openAssistant = some o ∧ o < tailStart ∧
          compactJoint e transcript openAssistant tailStart =
            e.assistantPrefix (compactInThink e ((transcript.take tailStart).drop o)) := by
  have hnote : compactJoint.note e transcript tailStart = [] ∨
      ∃ text, compactJoint.note e transcript tailStart = e.message (lit "user") text := by
    rw [compactJoint.note]
    split
    · split
      · exact .inr ⟨_, rfl⟩
      · exact .inl rfl
    · exact .inl rfl
  rw [compactJoint.eq_def]
  split
  · next o =>
    split
    · next hlt => exact .inr (.inr ⟨o, rfl, by omega, rfl⟩)
    · exact hnote.imp_right .inl
  · exact hnote.imp_right .inl

theorem compactResumedStart_eq (head joint : List Int) (o tailStart : Nat) :
    compactResumedStart head.length joint.length (some o) tailStart =
      some ((if o < tailStart then head.length else (head ++ joint).length + (o - tailStart) : Nat) : Int) := by
  rw [compactResumedStart, Option.map_some, List.length_append]
  by_cases h : o < tailStart
  · rw [if_pos h, if_pos (by omega)]
  · rw [if_neg h, if_neg (by omega)]
    congr 1
    omega

theorem compactExchange_shown (e : AgentEngine) (wd : CompactWorld) (w : AgentWorker) (summary : Bytes)
    (summaryBottom : Int) (openAssistant : Option Nat) (shown : List Int) :
    (compactExchange e wd w summary summaryBottom openAssistant shown).shown = some shown := by
  simp only [compactExchange]
  split
  · rfl
  split
  · rfl
  split
  · rfl
  · rfl

/-- What the exchange ends in: everything as it was, or a kept tail. -/
theorem compactExchange_keeps (wd : CompactWorld) {w : AgentWorker} {shown : Nat}
    (hb : BlocksLie e.glm e.systemTokens.length w.transcript.length w.images)
    (hlo : e.systemTokens.length ≤ shown) (hhi : shown ≤ w.transcript.length)
    (summary : Bytes) (openAssistant : Option Nat) (request : List Int) :
    let r := compactExchange e wd w summary shown openAssistant (w.transcript.take shown ++ request)
    (r.err.isSome → r.worker = { w with live := none }) ∧
      (r.err = none → ∃ tailStart joint, Keeps e w openAssistant r tailStart shown summary joint) := by
  have hmin : (e.systemTokens.length : Int) ≤ min
      (agentCompactTailStart e w w.transcript.length e.systemTokens.length) shown := by
    have := le_tailBoundary w.transcript w.transcript.length e.systemTokens.length
      (max (min (e.ctx.tdiv agentCompactTailDivisor) agentCompactTailCapTokens) 1)
      (e.specialToken (if e.glm then lit "<|user|>" else lit "<｜User｜>"))
    rw [agentCompactTailStart]
    omega
  have hlow := le_imageBoundary hb hmin
  have hhigh := imageBoundary_le w.images e.glm (min
    (agentCompactTailStart e w w.transcript.length e.systemTokens.length) shown)
  have hout := fun s hs => imageBoundary_outside (s := s) hb (min
    (agentCompactTailStart e w w.transcript.length e.systemTokens.length) shown) hs
  simp only [compactExchange]
  generalize agentCompactImageBoundary w.images e.glm (min
    (agentCompactTailStart e w w.transcript.length e.systemTokens.length) shown) = cut at *
  obtain ⟨tailStart, rfl⟩ := Int.eq_ofNat_of_zero_le (show 0 ≤ cut by omega)
  split
  · exact ⟨fun _ => rfl, fun h => by cases h⟩
  split
  · exact ⟨fun _ => rfl, fun h => by cases h⟩
  split
  · exact ⟨fun _ => rfl, fun h => by cases h⟩
  · refine ⟨fun h => (nomatch h), fun _ =>
      ⟨tailStart, compactJoint e w.transcript openAssistant tailStart, ?_⟩⟩
    exact
      { bounds := ⟨by omega, by omega, hhi⟩
        prompted := ⟨request, rfl⟩
        between := compactJoint_cases _ _ _ _
        transcript := by
          refine ⟨((if openAssistant.isSome then none else wd.bashUpdate).map
            (e.message (lit "tool"))).getD [], ?_, ?_⟩
          · rw [agentTokensRange]
            simp only [Int.toNat_natCast, List.take_length]
          · cases openAssistant with
            | some o => exact .inl rfl
            | none =>
              cases wd.bashUpdate with
              | none => exact .inl rfl
              | some text => exact .inr ⟨rfl, text, rfl⟩
        outside := hout
        images := compactImages_eq hb hout _
        opened := by
          rintro o rfl
          exact compactResumedStart_eq _ _ _ _ }

/-- A compaction that fails leaves the transcript and the images, and drops the session once the
model has been shown the request. One that succeeds had nothing to do or keeps a tail, and the images
in it, over the tokens that they stood for. -/
theorem compact_keeps_tail (e : AgentEngine) (wd : CompactWorld) (w : AgentWorker) (reason : Option Bytes)
    (openAssistant : Option Nat)
    (hb : BlocksLie e.glm e.systemTokens.length w.transcript.length w.images) :
    let r := agentWorkerCompactTranscript e wd w reason openAssistant
    (r.err.isSome → r.worker = if r.shown.isSome then { w with live := none } else w) ∧
      (r.err = none →
        (w.transcript.length ≤ e.systemTokens.length ∧ r.worker = w) ∨
          ∃ tailStart shown summary joint, Keeps e w openAssistant r tailStart shown summary joint ∧
            ∀ s ∈ w.images, inTail e.glm w.transcript.length tailStart s →
              (r.worker.transcript.drop ((e.systemTokens ++
                e.message (lit "user") (compactSummaryText summary) ++ joint).length +
                  (s.tokenStart - tailStart))).take s.tokenCount =
                (w.transcript.drop s.tokenStart).take s.tokenCount) := by
  simp only [agentWorkerCompactTranscript]
  split
  · next hfew => exact ⟨fun h => (nomatch h), fun _ => .inl ⟨by omega, rfl⟩⟩
  split
  · exact ⟨fun _ => rfl, fun h => nomatch h⟩
  split
  · exact ⟨fun _ => rfl, fun h => nomatch h⟩
  next hfew hlow _ =>
  have hhigh : compactSummaryBottom e w (summaryRequest e reason).length ≤ w.transcript.length :=
    Int.le_trans (imageBoundary_le _ _ _) (Int.min_le_left _ _)
  generalize compactSummaryBottom e w (summaryRequest e reason).length = cut at *
  obtain ⟨shown, rfl⟩ := Int.eq_ofNat_of_zero_le (show 0 ≤ cut by omega)
  split
  · exact ⟨fun _ => rfl, fun h => nomatch h⟩
  · exact ⟨fun _ => rfl, fun h => nomatch h⟩
  split
  · exact ⟨fun _ => rfl, fun h => nomatch h⟩
  · exact ⟨fun _ => rfl, fun h => nomatch h⟩
  · next summary _ =>
    split
    · exact ⟨fun _ => rfl, fun h => nomatch h⟩
    · have hlo : e.systemTokens.length ≤ shown := by omega
      have hhi : shown ≤ w.transcript.length := by omega
      have hprompt : agentTokensRange w.transcript 0 shown = w.transcript.take shown := by
        simp only [agentTokensRange, Int.toNat_natCast, Int.toNat_zero, List.drop_zero]
      obtain ⟨herr, hok⟩ := compactExchange_keeps wd hb hlo hhi summary openAssistant (summaryRequest e reason)
      rw [hprompt, compactExchange_shown]
      refine ⟨herr, fun h => .inr ?_⟩
      obtain ⟨tailStart, joint, hkeeps⟩ := hok h
      exact ⟨tailStart, shown, summary, joint, hkeeps, fun s _ hin => hkeeps.image_tokens hin⟩

/-- A summary of one token, then the stop token; everything else works. -/
def letterWorld : CompactWorld where
  sync := .ok
  interrupt _ := false
  argmax i := if i = 0 then 50 else 51
  evalErr _ := none
  alloc := true
  rebuildErr := none
  bashUpdate := none

def smallEngine : AgentEngine where
  glm := false
  ctx := 600
  systemTokens := [1, 2]
  message _ _ := [3, 4]
  assistantPrefix _ := [6]
  specialToken _ := -1
  tokenUser := 3
  tokenAssistant := 6
  tokenIsStop t := t = 51
  tokenText _ := [ch 'a']

/-- The tail of 60 tokens would start inside the image, and starts in front of it. -/
def pictureWorker : AgentWorker where
  transcript := [1, 2] ++ List.replicate 88 5
  images := [⟨28, 4, []⟩]
  sessionDirty := false
  live := none

theorem pictureWorker_keeps_tail :
    let r := agentWorkerCompactTranscript smallEngine letterWorld pictureWorker none none
    r.worker.transcript = [1, 2, 3, 4, 3, 4] ++ List.replicate 62 5 ∧
      ∃ tailStart shown summary joint,
        Keeps smallEngine pictureWorker none r tailStart shown summary joint := by
  have hb : BlocksLie smallEngine.glm smallEngine.systemTokens.length pictureWorker.transcript.length
      pictureWorker.images := ⟨List.pairwise_singleton _ _, by decide⟩
  obtain ⟨-, hok⟩ := compact_keeps_tail smallEngine letterWorld pictureWorker none none hb
  obtain ⟨hfew, -⟩ | ⟨tailStart, shown, summary, joint, hkeeps, -⟩ := hok (by decide)
  · exact absurd hfew (by decide)
  · exact ⟨by decide, tailStart, shown, summary, joint, hkeeps⟩

end Ds4
