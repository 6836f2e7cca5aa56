import Ds4.Server.Render

/-!
# The final parser

`parse_deepseek_generated_message_ex` and `parse_glm_generated_message_ex`: a generated text is
split into reasoning, content and tool calls. A pointer into the text is what is left of the text
there. Calls pushed before a failure are dropped with the failed message, as the callers do.
-/

namespace Ds4
open C Scan

/-- A tag ends leading white space. -/
theorem skipSpace_sharp {w q : Bytes} (hw : Sharp (ch '<') w) : skipSpace (w ++ q) = w ++ q := by
  obtain ⟨tl, rfl, -⟩ := hw
  exact skipSpace_cons_of_not (by decide)

/-! ## Arguments -/

/-- A non-string value is not read as JSON again, only minified. -/
def toolCallJsonArgsAdd (args name value isString : Bytes) : Bytes :=
  args ++ (if args = [] then [] else lit ", ") ++ jsonEscape name ++ lit ": " ++
    if isString = lit "true" then jsonEscape value
    else
      let min := jsonMinifyRawValue (some value)
      if min = [] then lit "null" else min

/-- The tag at `p` when it starts with `start`, and the text after its `>`. -/
def dsmlOpenTag (start p : Bytes) : Option (Bytes × Bytes) :=
  if start <+: p then (find [ch '>'] p).map fun i => (p.take (i + 1), p.drop (i + 1)) else none

/-- A value up to its closing tag, added to the arguments; a missing type means a string. -/
def dsmlParseParamValue (paramEnd name : Bytes) (isString : Option Bytes) (p args : Bytes) :
    Option (Bytes × Bytes) :=
  (find paramEnd p).map fun k =>
    let rawValue := p.take k
    let type := isString.getD (lit "true")
    let value := if type = lit "true" then ds4ToolTextUnescape rawValue paramEnd else rawValue
    (toolCallJsonArgsAdd args name value type, p.drop (k + paramEnd.length))

def dsmlParseLeafParamJson (syn : DsmlSyntax) (p args : Bytes) : Option (Bytes × Bytes) :=
  match dsmlOpenTag syn.paramStart p with
  | none => none
  | some (tag, q) =>
    match dsmlAttr tag (lit "name") with
    | none => none
    | some name => dsmlParseParamValue syn.paramEnd name (dsmlAttr tag (lit "string")) q args

theorem dsmlOpenTag_length (h : dsmlOpenTag start p = some x) : x.2.length < p.length := by
  rw [dsmlOpenTag] at h
  split at h
  · obtain ⟨i, hi, rfl⟩ := Option.map_eq_some_iff.1 h
    have := find_le hi
    simp only [List.length_singleton] at this
    rw [List.length_drop]
    omega
  · cases h

theorem dsmlParseParamValue_length (h : dsmlParseParamValue paramEnd name isString p args = some x) :
    x.2.length ≤ p.length := by
  obtain ⟨k, hk, rfl⟩ := Option.map_eq_some_iff.1 h
  rw [List.length_drop]
  omega

theorem dsmlParseLeafParamJson_length (h : dsmlParseLeafParamJson syn p args = some x) :
    x.2.length < p.length := by
  rw [dsmlParseLeafParamJson] at h
  split at h
  · cases h
  · next tag q hq =>
    split at h
    · cases h
    · exact (dsmlParseParamValue_length h).trans_lt (dsmlOpenTag_length hq)

/-- The loop of `dsml_parse_nested_params_object`: the members and the text after them. -/
def dsmlParseNestedParamsLoop (syn : DsmlSyntax) (p members : Bytes) : Option (Bytes × Bytes) :=
  if syn.paramStart <+: skipSpace p then
    match _h : dsmlParseLeafParamJson syn (skipSpace p) members with
    | none => none
    | some (members, q) => dsmlParseNestedParamsLoop syn q members
  else some (members, skipSpace p)
termination_by p.length
decreasing_by exact (dsmlParseLeafParamJson_length ‹_›).trans_le (length_skipSpace_le p)

def dsmlParseNestedParamsObject (syn : DsmlSyntax) (p : Bytes) : Option (Bytes × Bytes) :=
  if syn.paramStart <+: skipSpace p then
    (dsmlParseNestedParamsLoop syn p []).map fun x => (lit "\x7b" ++ x.1 ++ lit "\x7d", x.2)
  else none

theorem dsmlParseNestedParamsLoop_length (h : dsmlParseNestedParamsLoop syn p members = some x) :
    x.2.length ≤ p.length := by
  fun_induction dsmlParseNestedParamsLoop syn p members with
  | case1 => cases h
  | case2 p members _ members' q hq ih =>
    have h1 := dsmlParseLeafParamJson_length hq
    have h2 := length_skipSpace_le p
    have h3 := ih h
    simp only at h1
    omega
  | case3 p members _ => cases h; exact length_skipSpace_le p

/-- One parameter of an invoke. Child parameters directly inside an untyped one become an object,
whose own closing tag is optional. -/
def dsmlParseParam (syn : DsmlSyntax) (p args : Bytes) : Option (Bytes × Bytes) :=
  match dsmlOpenTag syn.paramStart p with
  | none => none
  | some (tag, q) =>
    match dsmlAttr tag (lit "name") with
    | none => none
    | some name =>
      let isString := dsmlAttr tag (lit "string")
      if isString = none ∧ syn.paramStart <+: skipSpace q then
        (dsmlParseNestedParamsObject syn q).map fun x =>
          let r := skipSpace x.2
          (toolCallJsonArgsAdd args name x.1 (lit "false"),
            if syn.paramEnd <+: r then r.drop syn.paramEnd.length else r)
      else dsmlParseParamValue syn.paramEnd name isString q args

theorem dsmlParseParam_length (h : dsmlParseParam syn p args = some x) :
    x.2.length < p.length := by
  rw [dsmlParseParam] at h
  split at h
  · cases h
  next tag q hq =>
  have hq := dsmlOpenTag_length hq
  split at h
  · cases h
  next name hname =>
  simp only at h hq
  split at h
  · obtain ⟨y, hy, rfl⟩ := Option.map_eq_some_iff.1 h
    rw [dsmlParseNestedParamsObject] at hy
    split at hy
    · obtain ⟨z, hz, rfl⟩ := Option.map_eq_some_iff.1 hy
      have h1 := dsmlParseNestedParamsLoop_length hz
      have h2 := length_skipSpace_le z.2
      simp only
      split
      · rw [List.length_drop]; omega
      · omega
    · cases hy
  · exact (dsmlParseParamValue_length h).trans_lt hq

/-- The parameters of an invoke up to its closing tag: the arguments and the text after the tag. -/
def dsmlParseParams (syn : DsmlSyntax) (p args : Bytes) : Option (Bytes × Bytes) :=
  if syn.invokeEnd <+: skipSpace p then some (args, (skipSpace p).drop syn.invokeEnd.length)
  else
    match _h : dsmlParseParam syn (skipSpace p) args with
    | none => none
    | some (args, q) => dsmlParseParams syn q args
termination_by p.length
decreasing_by exact (dsmlParseParam_length ‹_›).trans_le (length_skipSpace_le p)

theorem dsmlParseParams_length (h : dsmlParseParams syn p args = some x) :
    x.2.length ≤ p.length := by
  fun_induction dsmlParseParams syn p args with
  | case1 p args _ =>
    cases h
    have := length_skipSpace_le p
    rw [List.length_drop]
    omega
  | case2 => cases h
  | case3 p args _ args' q hq ih =>
    have h1 := dsmlParseParam_length hq
    have h2 := length_skipSpace_le p
    have h3 := ih h
    simp only at h1
    omega

/-! ## Tool blocks -/

def dsmlParseInvoke (syn : DsmlSyntax) (p : Bytes) : Option (ToolCall × Bytes) :=
  match dsmlOpenTag syn.invokeStart p with
  | none => none
  | some (tag, q) =>
    match dsmlAttr tag (lit "name") with
    | none => none
    | some name => (dsmlParseParams syn q []).map fun x =>
        (⟨some name, some (lit "\x7b" ++ x.1 ++ lit "\x7d")⟩, x.2)

theorem dsmlParseInvoke_length (h : dsmlParseInvoke syn p = some x) : x.2.length < p.length := by
  rw [dsmlParseInvoke] at h
  split at h
  · cases h
  · next tag q hq =>
    split at h
    · cases h
    · obtain ⟨y, hy, rfl⟩ := Option.map_eq_some_iff.1 h
      exact (dsmlParseParams_length hy).trans_lt (dsmlOpenTag_length hq)

/-- The invokes of a block and the text after its closing tag. -/
def dsmlParseInvokes (syn : DsmlSyntax) (p : Bytes) : Option (List ToolCall × Bytes) :=
  if syn.toolCallsEnd <+: skipSpace p then some ([], (skipSpace p).drop syn.toolCallsEnd.length)
  else
    match _h : dsmlParseInvoke syn (skipSpace p) with
    | none => none
    | some (tc, q) => (dsmlParseInvokes syn q).map fun x => (tc :: x.1, x.2)
termination_by p.length
decreasing_by exact (dsmlParseInvoke_length ‹_›).trans_le (length_skipSpace_le p)

/-- The start of the tool block and its alphabet: an alphabet is preferred over a later one, and a
marker behind an empty line over an earlier one without it. -/
def deepseekBlockStart (s : Bytes) : Option (Nat × DsmlSyntax) :=
  dsmlSyntaxes.findSome? fun syn =>
    ((find (lit "\n\n" ++ syn.toolCallsStart) s).or (find syn.toolCallsStart s)).map (·, syn)

/-- The calls of the block at `p` and the text after it. -/
def deepseekParseBlock (syn : DsmlSyntax) (p : Bytes) : Option (List ToolCall × Bytes) :=
  match find syn.toolCallsStart p with
  | none => none
  | some k => dsmlParseInvokes syn (p.drop (k + syn.toolCallsStart.length))

/-! ## Messages -/

structure GeneratedMessage where
  content : Bytes
  reasoning : Option Bytes
  calls : ToolCalls
  deriving DecidableEq, Repr

def dropThinkTag (s : Bytes) : Bytes := if lit "<think>" <+: s then s.drop 7 else s

/-- Content and reasoning of the first `n` bytes. -/
def splitReasoningContent (text : Bytes) (n : Nat) : Bytes × Option Bytes :=
  let s := text.take n
  let body := dropThinkTag s
  match find (lit "</think>") body with
  | some k => (body.drop (k + 8), some (body.take k))
  | none => (s, none)

def ds4LocalUnterminatedReasoning (text : Bytes) : Bytes × Option Bytes :=
  ([], some (dropThinkTag text))

def ds4UnterminatedReasoningBeforeTool (text : Bytes) (prefixLen : Nat) : Bytes × Option Bytes :=
  let n := min prefixLen text.length
  ([], some (if 7 ≤ n ∧ lit "<think>" <+: text then (text.drop 7).take (n - 7) else text.take n))

def GeneratedMessage.of (split : Bytes × Option Bytes) (calls : ToolCalls) : GeneratedMessage :=
  ⟨split.1, split.2, calls⟩

/-- Where the search for a tool block starts, and whether an unclosed reasoning was given up for a
complete tool block in it. `none` when the reasoning is not closed. -/
def toolSearchStart (toolStart toolEnd : Bytes → Option Nat) (text : Bytes)
    (requireThinkingClosed : Bool) : Option (Nat × Bool) :=
  if requireThinkingClosed then
    match findToolStructuralText text (lit "</think>") true with
    | some i => some (i + 8, false)
    | none =>
      match toolStart text with
      | none => none
      | some i => if (toolEnd (text.drop i)).isSome then some (i, true) else none
  else some (0, false)

/-- The message of a text whose tool block is `raw`, at offset `start`. -/
def toolMessage (text : Bytes) (recovered : Bool) (start : Nat) (raw : Bytes)
    (calls : List ToolCall) : GeneratedMessage :=
  let contentLen := trimToolSeparatorWs text 0 start
  .of (if recovered then ds4UnterminatedReasoningBeforeTool text contentLen
    else splitReasoningContent text contentLen) ⟨calls, some raw⟩

def parseDeepseekGeneratedMessageEx (text : Bytes) (requireThinkingClosed : Bool) :
    Option GeneratedMessage :=
  match toolSearchStart findAnyToolStart findAnyToolEnd text requireThinkingClosed with
  | none => some (.of (ds4LocalUnterminatedReasoning text) ⟨[], none⟩)
  | some (toolSearch, recovered) =>
    match deepseekBlockStart (text.drop toolSearch) with
    | none => some (.of (splitReasoningContent text text.length) ⟨[], none⟩)
    | some (i, syn) =>
      let start := toolSearch + i
      let block := text.drop start
      (deepseekParseBlock syn block).map fun x =>
        toolMessage text recovered start (block.take (block.length - x.2.length)) x.1

/-! ## GLM -/

/-- The arguments of a call up to `</tool_call>`; no key or value may end behind the closing tag
that was found first, where `closeLeft` bytes are left. -/
def glmParseArgs (closeLeft : Nat) (p args : Bytes) : Option (Bytes × Bytes) :=
  if glmToolSyntax.toolCallsEnd <+: skipSpace p then
    some (args, (skipSpace p).drop glmToolSyntax.toolCallsEnd.length)
  else if glmToolSyntax.invokeStart <+: skipSpace p then
    let p' := (skipSpace p).drop glmToolSyntax.invokeStart.length
    match find glmToolSyntax.invokeEnd p' with
    | none => none
    | some k =>
      if (p'.drop k).length < closeLeft then none
      else
        let key := ds4ToolTextUnescape (trimEnd (skipSpace (p'.take k))) glmToolSyntax.invokeEnd
        let q := skipSpace (p'.drop (k + glmToolSyntax.invokeEnd.length))
        if glmToolSyntax.paramStart <+: q then
          let q' := q.drop glmToolSyntax.paramStart.length
          match find glmToolSyntax.paramEnd q' with
          | none => none
          | some l =>
            if (q'.drop l).length < closeLeft then none
            else
              let value := ds4ToolTextUnescape (q'.take l) glmToolSyntax.paramEnd
              glmParseArgs closeLeft (q'.drop (l + glmToolSyntax.paramEnd.length))
                (toolCallJsonArgsAdd args key value (lit "true"))
        else none
  else none
termination_by p.length
decreasing_by
  have h1 := length_skipSpace_le p
  have h2 := List.IsPrefix.length_le (‹glmToolSyntax.invokeStart <+: skipSpace p›)
  have h3 : glmToolSyntax.invokeStart.length = 9 := by decide
  have h4 := length_skipSpace_le (p'.drop (k + glmToolSyntax.invokeEnd.length))
  simp only [List.length_drop, p', q', q] at *
  omega

theorem glmParseArgs_length (h : glmParseArgs closeLeft p args = some x) : x.2.length ≤ p.length := by
  fun_induction glmParseArgs closeLeft p args <;> try cases h
  case case1 p args _ =>
    have := length_skipSpace_le p
    rw [List.length_drop]
    omega
  case case6 p args _ _ p' k _ _ _ q _ q' l _ _ _ ih =>
    have h1 := ih h
    have h2 := length_skipSpace_le p
    have h3 := length_skipSpace_le (p'.drop (k + glmToolSyntax.invokeEnd.length))
    simp only [List.length_drop, p', q', q] at *
    omega

/-- The text between `<tool_call>` and the first key, or the closing tag when it comes first. -/
def glmNameSpan (p : Bytes) (close : Nat) : Bytes :=
  match find glmToolSyntax.invokeStart p with
  | some arg => if close < arg then p.take close else p.take arg
  | none => p.take close

/-- One call after its `<tool_call>`. -/
def glmParseCall (p : Bytes) : Option (ToolCall × Bytes) :=
  match findToolStructuralText p glmToolSyntax.toolCallsEnd false with
  | none => none
  | some close =>
    let nameSpan := glmNameSpan p close
    let nameStart := nameSpan.length - (skipSpace nameSpan).length
    let name := trimEnd (skipSpace nameSpan)
    if name = [] then none
    else
      (glmParseArgs (p.drop close).length (p.drop (nameStart + name.length)) []).map fun x =>
        (⟨some name, some (lit "\x7b" ++ x.1 ++ lit "\x7d")⟩, x.2)

theorem glmParseCall_length (h : glmParseCall p = some x) : x.2.length ≤ p.length := by
  rw [glmParseCall] at h
  split at h
  · cases h
  · simp only at h
    split at h
    · cases h
    · obtain ⟨y, hy, rfl⟩ := Option.map_eq_some_iff.1 h
      have := glmParseArgs_length hy
      simp only [List.length_drop] at this ⊢
      omega

/-- The calls that stand next to each other and the text after them and their white space. -/
def glmParseCalls (p : Bytes) : Option (List ToolCall × Bytes) :=
  if glmToolSyntax.toolCallsStart <+: skipSpace p then
    match _h : glmParseCall ((skipSpace p).drop glmToolSyntax.toolCallsStart.length) with
    | none => none
    | some (tc, q) => (glmParseCalls q).map fun x => (tc :: x.1, x.2)
  else some ([], skipSpace p)
termination_by p.length
decreasing_by
  have h1 := glmParseCall_length ‹_›
  have h2 := length_skipSpace_le p
  have h3 := List.IsPrefix.length_le (‹glmToolSyntax.toolCallsStart <+: skipSpace p›)
  have h4 : glmToolSyntax.toolCallsStart.length = 11 := by decide
  simp only [List.length_drop] at h1
  omega

def parseGlmGeneratedMessageEx (text : Bytes) (requireThinkingClosed : Bool) :
    Option GeneratedMessage :=
  match toolSearchStart (find glmToolSyntax.toolCallsStart) (find glmToolSyntax.toolCallsEnd) text
      requireThinkingClosed with
  | none => some (.of (ds4LocalUnterminatedReasoning text) ⟨[], none⟩)
  | some (toolSearch, recovered) =>
    match find glmToolSyntax.toolCallsStart (text.drop toolSearch) with
    | none => some (.of (splitReasoningContent text text.length) ⟨[], none⟩)
    | some i =>
      let start := toolSearch + i
      -- an empty line in front of the first call belongs to the block
      let rawStart := if lit "\n\n" <:+ text.take start then start - 2 else start
      match glmParseCalls (text.drop start) with
      | none => none
      | some (calls, rest) =>
        if calls = [] then none
        else
          let raw := (text.drop rawStart).take (text.length - rawStart - rest.length)
          some (toolMessage text recovered rawStart raw calls)

def parseGeneratedMessageExForSyntax (stx : ServerModelSyntax) (text : Bytes)
    (requireThinkingClosed : Bool) : Option GeneratedMessage :=
  match stx with
  | .glm => parseGlmGeneratedMessageEx text requireThinkingClosed
  | .deepseek => parseDeepseekGeneratedMessageEx text requireThinkingClosed

end Ds4
