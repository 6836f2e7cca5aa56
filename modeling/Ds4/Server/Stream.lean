import Ds4.Server.Render
import Ds4.Server.Tracker
import Ds4.Server.Utf8

/-!
# The live streams

`openai_sse_stream_update` and `anthropic_sse_stream_update` are called with longer and longer
prefixes of the generated text and send what has become certain. They run the same state machine
over the text and differ in the events they send, so the machine is written once over a `Sink`. An
operation of a sink that fails makes the update return false; the error value is the output so far.
Writes to the socket do not fail here. The random ids of tool calls are left out.

An update is given the buffer `raw` whose length is `raw_len`. A `return true` inside a phase leaves
a mode that the later phases skip, so the phases are composed one after another.
-/

namespace Ds4
open C Scan

/-- What an API does with the parts of the text. -/
structure Sink (σ : Type) where
  thinking : σ → Bytes → Except σ σ
  text : σ → Bytes → Except σ σ
  closeBlock : σ → σ
  toolStart : σ → Nat → Bytes → Except σ σ
  toolArgs : σ → Nat → Bytes → σ
  /-- Whether a tool block that is first seen by the last update is still streamed. -/
  streamsFinalTool : Bool

/-! ## Tool calls -/

inductive DsmlToolStreamState
  | betweenInvokes
  | betweenParams
  | paramValue
  | done
  | error
  deriving DecidableEq

structure ToolStream where
  state : DsmlToolStreamState
  syn : DsmlSyntax
  parsePos : Nat
  index : Nat
  active : Bool
  emittedAny : Bool
  argsOpen : Bool
  firstParam : Bool
  paramIsString : Bool
  deriving DecidableEq

/-- The state after `memset`. The syntax is not read while the stream is not active. -/
def ToolStream.zero : ToolStream where
  state := .betweenInvokes
  syn := dsmlSyntaxLong
  parsePos := 0
  index := 0
  active := false
  emittedAny := false
  argsOpen := false
  firstParam := false
  paramIsString := false

def toolStreamInit (raw : Bytes) (pos : Nat) : ToolStream :=
  match dsmlSyntaxes.find? (fun syn => rawFullLit (raw.drop pos) syn.toolCallsStart) with
  | some syn => { ToolStream.zero with
      active := true, syn := syn, parsePos := pos + syn.toolCallsStart.length }
  | none => { ToolStream.zero with state := .error }

def toolStreamFail (ts : ToolStream) : ToolStream := { ts with active := false, state := .error }

/-- The beginning of a closing tag at the end of the text is held back. -/
def toolMarkerLimit (raw : Bytes) (start : Nat) (paramEnd : Bytes) : Nat :=
  let scan := if start + paramEnd.length < raw.length then raw.length - paramEnd.length else start
  match findLastSubstr [ch '<'] (raw.drop scan) with
  | some i => if rawPartialLit (raw.drop (scan + i)) paramEnd then scan + i else raw.length
  | none => raw.length

/-- So is an entity that may become an escaped closing tag. -/
def toolEntityLimit (raw : Bytes) (start limit : Nat) (paramEnd : Bytes) : Nat :=
  match findLastSubstr [ch '&'] ((raw.take limit).drop start) with
  | some i =>
    if ds4ToolTextPartialEscape ((raw.take limit).drop (start + i)) paramEnd then start + i else limit
  | none => limit

def toolParamValueStreamSafeLen (raw : Bytes) (start : Nat) (paramEnd : Bytes) (isString : Bool) :
    Nat :=
  let limit := toolMarkerLimit raw start paramEnd
  let limit := if isString then toolEntityLimit raw start limit paramEnd else limit
  utf8StreamSafeLen raw start limit false

/-- The tag that a text starts with, when it is complete, and its length. -/
def dsmlTag (r : Bytes) : Option (Bytes × Nat) :=
  (find [ch '>'] r).map fun k => (cstr (r.take (k + 1)), k + 1)

section
variable {σ : Type} (sink : Sink σ)

/-- A part of the value of the current parameter. -/
def toolEmitValue (ts : ToolStream) (out : σ) (text : Bytes) : σ :=
  if text = [] then out
  else sink.toolArgs out ts.index <|
    if ts.paramIsString then jsonEscapeFragment (ds4ToolTextUnescape (cstr text) ts.syn.paramEnd)
    else text

/-- The outcome of one round of the loop: `return true` or go on. -/
inductive ToolFlow (σ : Type)
  | ret (ts : ToolStream) (out : σ)
  | next (ts : ToolStream) (out : σ)

def toolStartInvoke (raw : Bytes) (ts : ToolStream) (out : σ) : Except σ (ToolFlow σ) :=
  match dsmlTag (raw.drop ts.parsePos) with
  | none => .ok (.ret ts out)
  | some (tag, n) =>
    match dsmlAttr tag (lit "name") with
    | none => .ok (.ret (toolStreamFail ts) out)
    | some name => do
      let out ← sink.toolStart out ts.index name
      let ts' := { ts with
        emittedAny := true, argsOpen := true, firstParam := true,
        parsePos := ts.parsePos + n, state := .betweenParams }
      .ok (.next ts' (sink.toolArgs out ts.index (lit "\x7b")))

def toolParamPrefix (ts : ToolStream) (name : Bytes) (isString : Bool) : Bytes :=
  (if ts.firstParam then [] else lit ",") ++ jsonEscape name ++ lit ":" ++
    if isString then lit "\"" else []

def toolStartParam (raw : Bytes) (ts : ToolStream) (out : σ) : ToolFlow σ :=
  match dsmlTag (raw.drop ts.parsePos) with
  | none => .ret ts out
  | some (tag, n) =>
    match dsmlAttr tag (lit "name"), dsmlAttr tag (lit "string") with
    | some name, some isString =>
      let isString := isString == lit "true"
      .next { ts with
        firstParam := false, paramIsString := isString,
        parsePos := ts.parsePos + n, state := .paramValue }
        (sink.toolArgs out ts.index (toolParamPrefix ts name isString))
    | _, _ => .ret (toolStreamFail ts) out

def toolFinishParam (raw : Bytes) (ts : ToolStream) (out : σ) (valueEnd : Nat) : ToolFlow σ :=
  let out := toolEmitValue sink ts out ((raw.take valueEnd).drop ts.parsePos)
  let out := if ts.paramIsString then sink.toolArgs out ts.index (lit "\"") else out
  .next { ts with parsePos := valueEnd + ts.syn.paramEnd.length, state := .betweenParams } out

def toolFinishInvoke (ts : ToolStream) (out : σ) : ToolFlow σ :=
  let out := if ts.argsOpen then sink.toolArgs out ts.index (lit "\x7d") else out
  .next { ts with
    argsOpen := false, parsePos := ts.parsePos + ts.syn.invokeEnd.length,
    index := ts.index + 1, state := .betweenInvokes } (sink.closeBlock out)

def toolSkipSpace (raw : Bytes) (ts : ToolStream) : ToolStream :=
  { ts with parsePos := ts.parsePos + ((raw.drop ts.parsePos).takeWhile isspace).length }

def toolBetweenInvokes (raw : Bytes) (ts : ToolStream) (out : σ) : Except σ (ToolFlow σ) :=
  let r := raw.drop ts.parsePos
  if r = [] then .ok (.ret ts out)
  else if rawFullLit r ts.syn.toolCallsEnd then .ok (.ret { ts with
    parsePos := ts.parsePos + ts.syn.toolCallsEnd.length, active := false, state := .done } out)
  else if rawPartialLit r ts.syn.toolCallsEnd || rawPartialLit r ts.syn.invokeStart then
    .ok (.ret ts out)
  else if rawFullLit r ts.syn.invokeStart then toolStartInvoke sink raw ts out
  else .ok (.ret (toolStreamFail ts) out)

def toolBetweenParams (raw : Bytes) (ts : ToolStream) (out : σ) : ToolFlow σ :=
  let r := raw.drop ts.parsePos
  if r = [] then .ret ts out
  else if rawFullLit r ts.syn.invokeEnd then toolFinishInvoke sink ts out
  else if rawPartialLit r ts.syn.invokeEnd || rawPartialLit r ts.syn.paramStart then .ret ts out
  else if rawFullLit r ts.syn.paramStart then toolStartParam sink raw ts out
  else .ret (toolStreamFail ts) out

def toolParamValue (raw : Bytes) (ts : ToolStream) (out : σ) : ToolFlow σ :=
  match find ts.syn.paramEnd (raw.drop ts.parsePos) with
  | some k => toolFinishParam sink raw ts out (ts.parsePos + k)
  | none =>
    let limit :=
      toolParamValueStreamSafeLen raw ts.parsePos ts.syn.paramEnd ts.paramIsString
    if ts.parsePos < limit then
      .ret { ts with parsePos := limit }
        (toolEmitValue sink ts out ((raw.take limit).drop ts.parsePos))
    else .ret ts out

def toolStreamStep (raw : Bytes) (ts : ToolStream) (out : σ) : Except σ (ToolFlow σ) :=
  match ts.state with
  | .betweenInvokes => toolBetweenInvokes sink raw (toolSkipSpace raw ts) out
  | .betweenParams => .ok (toolBetweenParams sink raw (toolSkipSpace raw ts) out)
  | .paramValue => .ok (toolParamValue sink raw ts out)
  | .done | .error => .ok (.ret ts out)

end

theorem dsmlTag_length (h : dsmlTag r = some (tag, n)) : 0 < n ∧ n ≤ r.length := by
  obtain ⟨k, hk, hn⟩ := Option.map_eq_some_iff.1 h
  cases hn
  exact ⟨Nat.succ_pos k, find_le hk⟩

theorem dsmlTag_drop {raw : Bytes} (h : dsmlTag (raw.drop p) = some (tag, n)) :
    p < p + n ∧ p + n ≤ raw.length := by
  have := dsmlTag_length h
  rw [List.length_drop] at this
  omega

/-- A round that goes on has consumed text. -/
theorem toolStreamStep_next {sink : Sink σ} {raw : Bytes}
    (h : toolStreamStep sink raw ts out = .ok (.next ts' out')) :
    ts.parsePos < ts'.parsePos ∧ ts'.parsePos ≤ raw.length := by
  have hne : ∀ syn : DsmlSyntax, ∀ w ∈ [syn.invokeEnd, syn.paramEnd], w ≠ [] := by
    intro syn w hw
    apply syn.structural_ne_nil
    simp only [List.mem_cons, List.not_mem_nil, or_false] at hw
    rcases hw with rfl | rfl <;> simp [DsmlSyntax.structuralLits]
  have hsp : ts.parsePos ≤ (toolSkipSpace raw ts).parsePos := Nat.le_add_right _ _
  rw [toolStreamStep] at h
  split at h
  · rw [toolBetweenInvokes] at h
    split at h
    · cases h
    split at h
    · cases h
    split at h
    · cases h
    split at h
    · rw [toolStartInvoke] at h
      split at h
      · cases h
      · next tag n ht =>
        have := dsmlTag_drop ht
        split at h
        · cases h
        · cases hs : sink.toolStart out (toolSkipSpace raw ts).index _ with
          | error e => rw [hs] at h; cases h
          | ok out1 =>
            rw [hs] at h
            cases h
            dsimp only
            omega
    · cases h
  · simp only [Except.ok.injEq] at h
    rw [toolBetweenParams] at h
    split at h
    · cases h
    split at h
    · next hf =>
      cases h
      have := add_le_of_prefix_drop (hne (toolSkipSpace raw ts).syn _ (by simp))
        (of_decide_eq_true hf)
      dsimp only
      omega
    split at h
    · cases h
    split at h
    · rw [toolStartParam] at h
      split at h
      · cases h
      · next tag n ht =>
        have := dsmlTag_drop ht
        split at h
        · cases h
          dsimp only
          omega
        · cases h
    · cases h
  · simp only [Except.ok.injEq] at h
    rw [toolParamValue] at h
    split at h
    · next k hk =>
      cases h
      have h1 := find_le hk
      have h2 := List.length_pos_of_ne_nil (hne ts.syn ts.syn.paramEnd (by simp))
      rw [List.length_drop] at h1
      dsimp only
      omega
    · dsimp only at h
      split at h <;> cases h
  · cases h
  · cases h

def toolStreamUpdate (sink : Sink σ) (raw : Bytes) (ts : ToolStream) (out : σ) :
    Except σ (ToolStream × σ) :=
  if ts.active ∧ ts.parsePos < raw.length then
    match _h : toolStreamStep sink raw ts out with
    | .error out => .error out
    | .ok (.ret ts out) => .ok (ts, out)
    | .ok (.next ts' out') => toolStreamUpdate sink raw ts' out'
  else .ok (ts, out)
termination_by raw.length - ts.parsePos
decreasing_by have := toolStreamStep_next _h; omega

/-! ## The stream -/

inductive StreamMode
  | thinking
  | text
  | tool
  | suppress
  deriving DecidableEq

/-- The state of a stream, with the output that its events build. -/
structure Stream (σ : Type) where
  mode : StreamMode
  emitPos : Nat
  checkedThinkPrefix : Bool
  guardSecondReasoning : Bool
  sentThinking : Bool
  sentText : Bool
  tool : ToolStream
  out : σ

def Stream.start (think hasTools : Bool) (out : σ) : Stream σ where
  mode := if think then .thinking else .text
  emitPos := 0
  checkedThinkPrefix := false
  guardSecondReasoning := think && hasTools
  sentThinking := false
  sentText := false
  tool := .zero
  out := out

def textStreamSafeLimit (raw : Bytes) (start : Nat) (hasTools final : Bool) : Nat :=
  if raw.length ≤ start then raw.length
  else if hasTools then
    match findAnyToolStart (cstr (raw.drop start)) with
    | some i => utf8StreamSafeLen raw start (trimToolSeparatorWs raw start (start + i)) true
    | none =>
      if final then utf8StreamSafeLen raw start raw.length true
      else
        let limit := trimToolSeparatorWs raw start raw.length
        -- hold what may become a marker
        let scan := if 80 < raw.length - start then raw.length - 80 else start
        let limit := match findLastSubstr [ch '<'] (raw.drop scan) with
          | some i => min limit (scan + i)
          | none => limit
        utf8StreamSafeLen raw start (trimToolSeparatorWs raw start limit) false
  else utf8StreamSafeLen raw start raw.length final

section
variable (sink : Sink σ) (hasTools : Bool) (raw : Bytes) (final : Bool)

def Stream.closeBlock (st : Stream σ) : Stream σ := { st with out := sink.closeBlock st.out }

def emitThinking (limit : Nat) (st : Stream σ) : Except σ (Stream σ) :=
  if st.emitPos < limit then do
    let out ← sink.thinking st.out ((raw.take limit).drop st.emitPos)
    .ok { st with out := out, sentThinking := true, emitPos := limit }
  else .ok st

def emitText (limit : Nat) (st : Stream σ) : Except σ (Stream σ) :=
  if st.emitPos < limit then do
    let out ← sink.text st.out ((raw.take limit).drop st.emitPos)
    .ok { st with out := out, sentText := true, emitPos := limit }
  else .ok st

/-- The marker searches from the emit position. -/
def streamClose (st : Stream σ) : Option Nat := strstr (raw.drop st.emitPos) (lit "</think>")

def streamTool (st : Stream σ) : Option Nat :=
  if hasTools then findAnyToolStart (cstr (raw.drop st.emitPos)) else none

/-- `none` while the text is too short to tell whether it starts with `<think>`. -/
def checkThinkPrefix (st : Stream σ) : Option (Stream σ) :=
  let opn := lit "<think>"
  if st.checkedThinkPrefix then some st
  else if raw.length < opn.length ∧ raw <+: opn ∧ !final then none
  else some { st with
    emitPos := if opn <+: raw then opn.length else st.emitPos
    checkedThinkPrefix := true }

/-- The tool marker, when it stands before the end of the reasoning. -/
def toolBeforeClose (st : Stream σ) : Option Nat :=
  (streamTool hasTools raw st).filter fun i => (streamClose raw st).all (i < ·)

def thinkingLimit (st : Stream σ) : Nat :=
  match toolBeforeClose hasTools raw st, streamClose raw st with
  | some i, _ => trimToolSeparatorWs raw st.emitPos (st.emitPos + i)
  | none, some k => st.emitPos + k
  | none, none =>
    if final then raw.length
    else
      let hold := (lit "</think>").length - 1
      utf8StreamSafeLen raw st.emitPos (if hold < raw.length then raw.length - hold else st.emitPos)
        false

def streamThinking (st : Stream σ) : Except σ (Stream σ) :=
  match checkThinkPrefix raw final st with
  | none => .ok st
  | some st => do
    let st' ← emitThinking sink raw (thinkingLimit hasTools raw final st) st
    match toolBeforeClose hasTools raw st, streamClose raw st with
    | some i, _ =>
      if (findAnyToolEnd (cstr (raw.drop (st.emitPos + i)))).isSome then
        .ok { st'.closeBlock sink with emitPos := st.emitPos + i, mode := .suppress }
      else .ok st'
    | none, some k => .ok { st'.closeBlock sink with
        emitPos := st.emitPos + k + (lit "</think>").length, mode := .text }
    | none, none => .ok (if final then { st'.closeBlock sink with mode := .suppress } else st')

/-- Text up to a second `</think>` is reasoning; `false` while that is open. -/
def streamGuard (st : Stream σ) : Except σ (Stream σ × Bool) :=
  if st.guardSecondReasoning then
    let tool := streamTool hasTools raw st
    match (streamClose raw st).filter fun k => tool.all (k < ·) with
    | some k => do
      let st' ← emitThinking sink raw (st.emitPos + k) st
      .ok ({ st'.closeBlock sink with
        emitPos := st.emitPos + k + (lit "</think>").length, guardSecondReasoning := false }, true)
    | none =>
      if tool = none ∧ !final then .ok (st, false)
      else .ok ({ st with guardSecondReasoning := false }, true)
  else .ok (st, true)

/-- The content after the guard. -/
def streamContent (st : Stream σ) : Except σ (Stream σ) := do
  let st' ← emitText sink raw (textStreamSafeLimit raw st.emitPos hasTools final) st
  match streamTool hasTools raw st with
  | some i =>
    let pos := st.emitPos + i
    let st' := { st'.closeBlock sink with emitPos := pos }
    if final && !sink.streamsFinalTool then .ok { st' with mode := .suppress }
    else
      let ts := toolStreamInit raw pos
      .ok { st' with tool := ts, mode := if ts.active then .tool else .suppress }
  | none => .ok (if final then { st'.closeBlock sink with mode := .suppress } else st')

def streamText (st : Stream σ) : Except σ (Stream σ) := do
  let (st, go) ← streamGuard sink hasTools raw final st
  if go then streamContent sink hasTools raw final st else .ok st

def streamToolCalls (st : Stream σ) : Except σ (Stream σ) := do
  let (ts, out) ← toolStreamUpdate sink raw st.tool st.out
  .ok { st with tool := ts, out := out, mode := if ts.active then .tool else .suppress }

/-- A phase of an update: it runs in its mode only. -/
def Stream.phase (mode : StreamMode) (f : Stream σ → Except σ (Stream σ)) (st : Stream σ) :
    Except σ (Stream σ) := if st.mode = mode then f st else .ok st

def streamUpdate (st : Stream σ) : Except σ (Stream σ) := do
  let st ← st.phase .thinking (streamThinking sink hasTools raw final)
  let st ← st.phase .text (streamText sink hasTools raw final)
  st.phase .tool (streamToolCalls sink raw)

end

@[simp] theorem Stream.phase_eq {st : Stream σ} (h : st.mode = m) : st.phase m f = f st :=
  if_pos h

@[simp] theorem Stream.phase_ne {st : Stream σ} (h : st.mode ≠ m) : st.phase m f = .ok st :=
  if_neg h

/-- The updates of one generation. -/
def streamUpdates (sink : Sink σ) (hasTools : Bool) (st : Stream σ) (ps : List Bytes) :
    Except σ (Stream σ) := ps.foldlM (fun st p => streamUpdate sink hasTools p false st) st

/-! ## OpenAI -/

def appendJsonArgPair (arg : JsonArg) : Bytes :=
  jsonEscape arg.key ++ lit ":" ++ if arg.isString then jsonEscape arg.value else arg.value

def appendJsonObjectOrEmpty (json : Option Bytes) : Bytes :=
  match jsonArgsParse json with
  | none => lit "\x7b\x7d"
  | some args => lit "\x7b" ++ (lit ",").intercalate (args.map appendJsonArgPair) ++ lit "\x7d"

/-- The chunks of a chat completion, by what the delta holds. -/
inductive OpenaiEvent
  | reasoningContent (text : Bytes)
  | content (text : Bytes)
  | toolCallStart (index : Nat) (name : Bytes)
  | toolCallArgs (index : Nat) (text : Bytes)
  /-- Names and argument objects of all calls in one chunk. -/
  | toolCalls (calls : List (Bytes × Bytes))
  | finishReason (finish : Bytes)
  | done
  deriving DecidableEq

def openaiSink : Sink (List OpenaiEvent) where
  thinking out text := .ok (out ++ [.reasoningContent (cstr text)])
  text out text := .ok (out ++ [.content (cstr text)])
  closeBlock out := out
  toolStart out index name := .ok (out ++ [.toolCallStart index name])
  toolArgs out index text := if text = [] then out else out ++ [.toolCallArgs index (cstr text)]
  streamsFinalTool := true

def openaiStreamStart (think hasTools : Bool) : Stream (List OpenaiEvent) :=
  .start think hasTools []

def openaiSseStreamUpdate := streamUpdate openaiSink

def openaiSseFinishLive (hasTools : Bool) (raw : Bytes) (calls : List ToolCall) (finish : Bytes)
    (st : Stream (List OpenaiEvent)) : Except (List OpenaiEvent) (List OpenaiEvent) := do
  let st ← openaiSseStreamUpdate hasTools raw true st
  let late := if calls ≠ [] ∧ !st.tool.emittedAny then
      [.toolCalls (calls.map fun tc => (orEmpty tc.name, appendJsonObjectOrEmpty tc.arguments))]
    else []
  .ok (st.out ++ late ++ [.finishReason finish, .done])

/-- What a client receives: updates on `ps`, then the end of the stream on `raw`. -/
def openaiRun (think hasTools : Bool) (ps : List Bytes) (raw : Bytes) (calls : List ToolCall)
    (finish : Bytes) : Except (List OpenaiEvent) (List OpenaiEvent) := do
  let st ← streamUpdates openaiSink hasTools (openaiStreamStart think hasTools) ps
  openaiSseFinishLive hasTools raw calls finish st

/-! ## Anthropic -/

inductive AnthropicBlockType
  | thinking
  | text
  | tool
  deriving DecidableEq

inductive AnthropicDelta
  | thinking (text : Bytes)
  | signature
  | text (text : Bytes)
  | inputJson (text : Bytes)
  deriving DecidableEq

/-- Server sent events. The name is that of a tool. -/
inductive AnthropicEvent
  | messageStart
  | contentBlockStart (index : Nat) (type : AnthropicBlockType) (name : Bytes)
  | contentBlockDelta (index : Nat) (delta : AnthropicDelta)
  | contentBlockStop (index : Nat)
  | messageDelta (stopReason : Bytes)
  | messageStop
  deriving DecidableEq

structure AnthropicOut where
  openBlock : Option AnthropicBlockType
  nextIndex : Nat
  events : List AnthropicEvent
  deriving DecidableEq

def AnthropicOut.send (out : AnthropicOut) (e : AnthropicEvent) : AnthropicOut :=
  { out with events := out.events ++ [e] }

/-- Also the opener of tool blocks, which have a name. -/
def anthropicSseOpenBlock (type : AnthropicBlockType) (name : Bytes) (out : AnthropicOut) :
    Except AnthropicOut AnthropicOut :=
  if out.openBlock = some type then .ok out
  else if out.openBlock ≠ none then .error out
  else .ok { out.send (.contentBlockStart out.nextIndex type name) with openBlock := some type }

def anthropicSseDeltaLive (out : AnthropicOut) (delta : AnthropicDelta) : AnthropicOut :=
  out.send (.contentBlockDelta out.nextIndex delta)

def anthropicSseCloseBlockLive (out : AnthropicOut) : AnthropicOut :=
  match out.openBlock with
  | none => out
  | some type =>
    let out := if type = .thinking then anthropicSseDeltaLive out .signature else out
    { out.send (.contentBlockStop out.nextIndex) with
      openBlock := none, nextIndex := out.nextIndex + 1 }

def anthropicSink : Sink AnthropicOut where
  thinking out text := do
    let out ← anthropicSseOpenBlock .thinking [] out
    .ok (anthropicSseDeltaLive out (.thinking (cstr text)))
  text out text := do
    let out ← anthropicSseOpenBlock .text [] out
    .ok (anthropicSseDeltaLive out (.text (cstr text)))
  closeBlock := anthropicSseCloseBlockLive
  toolStart out _ name := anthropicSseOpenBlock .tool name out
  toolArgs out _ text :=
    if text = [] then out else anthropicSseDeltaLive out (.inputJson (cstr text))
  streamsFinalTool := false

def anthropicSseStartLive (think hasTools : Bool) : Stream AnthropicOut :=
  .start think hasTools ⟨none, 0, [.messageStart]⟩

def anthropicSseStreamUpdate := streamUpdate anthropicSink

/-- The three events of a call that was not streamed. -/
def anthropicToolBlock (out : AnthropicOut) (tc : ToolCall) : AnthropicOut :=
  let out := out.send (.contentBlockStart out.nextIndex .tool (orEmpty tc.name))
  let out := out.send (.contentBlockDelta out.nextIndex
    (.inputJson (appendJsonObjectOrEmpty tc.arguments)))
  { out.send (.contentBlockStop out.nextIndex) with nextIndex := out.nextIndex + 1 }

def anthropicSseToolBlocksLive (calls : List ToolCall) (st : Stream AnthropicOut) : AnthropicOut :=
  let alreadyStreamed := if st.tool.emittedAny then st.tool.index else 0
  (calls.drop alreadyStreamed).foldl anthropicToolBlock st.out

def anthropicStopReason (finish : Bytes) : Bytes :=
  if finish = lit "tool_calls" then lit "tool_use"
  else if finish = lit "length" then lit "max_tokens"
  else lit "end_turn"

def anthropicSseStopLive (finish : Bytes) (out : AnthropicOut) : AnthropicOut :=
  (out.send (.messageDelta (anthropicStopReason finish))).send .messageStop

/-- Reasoning alone is followed by an empty text block. -/
def anthropicEmptyText (calls : List ToolCall) (st : Stream AnthropicOut) :
    Except AnthropicOut (Stream AnthropicOut) :=
  if st.sentThinking ∧ !st.sentText ∧ calls = [] then do
    let out ← anthropicSseOpenBlock .text [] st.out
    .ok { st with out := anthropicSseCloseBlockLive out }
  else .ok st

def anthropicSseFinishLive (hasTools : Bool) (raw : Bytes) (calls : List ToolCall) (finish : Bytes)
    (st : Stream AnthropicOut) : Except AnthropicOut AnthropicOut := do
  let st ← anthropicSseStreamUpdate hasTools raw true st
  let st ← anthropicEmptyText calls st
  .ok (anthropicSseStopLive finish (anthropicSseToolBlocksLive calls st))

def anthropicRun (think hasTools : Bool) (ps : List Bytes) (raw : Bytes) (calls : List ToolCall)
    (finish : Bytes) : Except AnthropicOut AnthropicOut := do
  let st ← streamUpdates anthropicSink hasTools (anthropicSseStartLive think hasTools) ps
  anthropicSseFinishLive hasTools raw calls finish st

end Ds4
