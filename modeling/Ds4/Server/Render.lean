import Ds4.Server.ToolText
import Ds4.Server.Json
import Ds4.Server.Dsml

/-!
# Prompt rendering

The text of tool calls and of whole chats, for the DeepSeek (DSML) and the GLM syntax, and the
live tool tail that a continuation appends to a session. A C buffer that a function appends to is
the text it appends. The loops over the messages run a state machine on flags
(`pending_assistant`, `pending_tool_result`, `observation_open`); the full renderer and the tail
renderer run the same machine, the tail from the state after an assistant message.
-/

namespace Ds4
open C

structure ToolCall where
  name : Option Bytes
  arguments : Option Bytes
  deriving DecidableEq, Repr

structure ToolCalls where
  v : List ToolCall
  rawToolText : Option Bytes := none
  deriving DecidableEq, Repr

/-- The fields the renderers read. Roles are free text in a request. -/
structure ChatMsg where
  role : Bytes
  content : Option Bytes
  reasoning : Option Bytes
  toolCallIds : List Bytes
  calls : ToolCalls
  deriving DecidableEq, Repr

/-- Property order of the tools of a request, by tool name. -/
structure ToolSchemaOrder where
  name : Option Bytes
  prop : List Bytes
  deriving DecidableEq, Repr

inductive Ds4ThinkMode
  | none
  | high
  | max
  deriving DecidableEq, Repr

def ds4ThinkModeEnabled (mode : Ds4ThinkMode) : Bool := mode == .high || mode == .max

def ds4ThinkMaxPrefix : Bytes :=
  lit "Reasoning Effort: Absolute maximum with no shortcuts permitted.\n" ++
  lit "You MUST be very thorough in your thinking and comprehensively decompose the problem to resolve the root cause, rigorously stress-testing your logic against all potential paths, edge cases, and adversarial scenarios.\n" ++
  lit "Explicitly write out your entire deliberation process, documenting every intermediate step, considered alternative, and rejected hypothesis to ensure absolutely no assumption is left unchecked.\n\n"

def ds4GlmReasoningEffortText : Ds4ThinkMode → Option Bytes
  | .high => some (lit "Reasoning Effort: High")
  | .max => some (lit "Reasoning Effort: Max")
  | .none => none

/-! ## Tool schemas in the prompt -/

def appendToolsPromptText (toolSchemas : Option Bytes) : Bytes :=
  if orEmpty toolSchemas = [] then []
  else
    lit "## Tools\n\nYou have access to a set of tools to help answer the user question. You can invoke tools by writing a \"<｜DSML｜tool_calls>\" block like the following:\n\n<｜DSML｜tool_calls>\n<｜DSML｜invoke name=\"$TOOL_NAME\">\n<｜DSML｜parameter name=\"$PARAMETER_NAME\" string=\"true|false\">$PARAMETER_VALUE</｜DSML｜parameter>\n...\n</｜DSML｜invoke>\n<｜DSML｜invoke name=\"$TOOL_NAME2\">\n...\n</｜DSML｜invoke>\n</｜DSML｜tool_calls>\n\n" ++
    lit "String parameters should be specified as raw text and set `string=\"true\"`. Preserve characters such as `>`, `&`, and `&&` exactly; never replace normal string characters with XML or HTML entity escapes. Only if a string value itself contains the exact closing parameter tag `</｜DSML｜parameter>`, write that tag as `&lt;/｜DSML｜parameter>` inside the value. For all other types (numbers, booleans, arrays, objects), pass the value in JSON format and set `string=\"false\"`.\n\n" ++
    lit "When thinking mode is enabled, finish reasoning with </think> before any tool calls or final response.\n\nOtherwise, output directly after </think> with tool calls or final response.\n\n### Available Tool Schemas\n\n" ++
    orEmpty toolSchemas ++
    lit "\n\nYou MUST strictly follow the above defined tool name and parameter schemas to invoke tool calls. Use the exact parameter names from the schemas."

/-- The members of a schema that reach the prompt, comma separated. -/
def appendGlmSchemaMembers : Bool → List JsonArg → Bytes
  | _, [] => []
  | wrote, arg :: args =>
    if arg.key = lit "defer_loading" ∨ arg.key = lit "strict" then appendGlmSchemaMembers wrote args
    else
      (if wrote then lit ", " else []) ++ jsonEscape arg.key ++ lit ": " ++
        (if arg.isString then jsonEscape arg.value else arg.value) ++
        appendGlmSchemaMembers true args

/-- `none` when the schema is not an object; otherwise the text and whether it was emitted. -/
def appendGlmToolSchemaJson (json : Bytes) : Option (Bytes × Bool) :=
  (jsonArgsParse (some json)).map fun args =>
    if args.any fun arg => arg.key == lit "defer_loading" && !arg.isString &&
        arg.value == lit "true" then ([], false)
    else (lit "\x7b" ++ appendGlmSchemaMembers false args ++ lit "\x7d", true)

/-- The loop over the schema values: the text and whether any schema was emitted. -/
def appendGlmToolSchemas (p : Bytes) : Bytes × Bool :=
  if p = [] then ([], false)
  else
    match _h : jsonRawValue p with
    | none => ([], false)
    | some (raw, q) =>
      let (text, emitted) := (appendGlmToolSchemaJson raw).getD (raw, true)
      let (rest, any) := appendGlmToolSchemas (skipSpace q)
      (text ++ (if emitted then lit "\n\n\n" else []) ++ rest, emitted || any)
termination_by p.length
decreasing_by exact (length_skipSpace_le q).trans_lt (jsonRawValue_length ‹_›)

def appendGlmToolsPromptText (toolSchemas : Option Bytes) : Bytes :=
  if orEmpty toolSchemas = [] then []
  else
    let (schemas, any) := appendGlmToolSchemas (skipSpace (orEmpty toolSchemas))
    lit "\n# Tools\n\nYou may call one or more functions to assist with the user query.\n\nYou are provided with function signatures within <tools></tools> XML tags:\n<tools>\n\n" ++
    schemas ++ (if any then [] else lit "\n") ++
    lit "</tools>\n\nFor each function call, output the function name and arguments within the following XML format:\n<tool_call>\x7bfunction-name\x7d<arg_key>\x7barg-key-1\x7d</arg_key><arg_value>\x7barg-value-1\x7d</arg_value><arg_key>\x7barg-key-2\x7d</arg_key><arg_value>\x7barg-value-2\x7d</arg_value>...</tool_call>"

/-! ## Tool calls -/

def appendDsmlAttrByte (c : UInt8) : Bytes :=
  if c = ch '&' then lit "&amp;"
  else if c = ch '<' then lit "&lt;"
  else if c = ch '>' then lit "&gt;"
  else if c = ch '"' then lit "&quot;"
  else [c]

def appendDsmlAttrEscaped (s : Option Bytes) : Bytes := (orEmpty s).flatMap appendDsmlAttrByte

/-- JSON text cannot use the entity escape, so `<` of a closing tag becomes a JSON escape. -/
def dsmlJsonLiteral (fin : Bytes) : Bytes → Bytes
  | [] => []
  | c :: s =>
    if fin <+: c :: s then lit "\\u003c" ++ dsmlJsonLiteral fin s else c :: dsmlJsonLiteral fin s

def appendDsmlJsonLiteral (s : Option Bytes) : Bytes :=
  dsmlJsonLiteral (lit "</｜DSML｜parameter>") (orEmpty s)

def appendDsmlArg (arg : JsonArg) : Bytes :=
  lit "<｜DSML｜parameter name=\"" ++ appendDsmlAttrEscaped (some arg.key) ++ lit "\" string=\"" ++
  (if arg.isString then lit "true" else lit "false") ++ lit "\">" ++
  (if arg.isString then appendDsmlParameterText (some arg.value)
    else appendDsmlJsonLiteral (some arg.value)) ++
  lit "</｜DSML｜parameter>\n"

def appendGlmArg (arg : JsonArg) : Bytes :=
  lit "<arg_key>" ++ appendGlmArgKeyText (some arg.key) ++ lit "</arg_key><arg_value>" ++
  appendGlmArgValueText (some arg.value) ++ lit "</arg_value>"

/-- The order in which members are written: those the schema names, as far as an unused one is
left, then the rest in their own order. -/
def jsonArgsInOrder : List Bytes → List JsonArg → List JsonArg
  | [], args => args
  | key :: keys, args =>
    match args.find? (·.key = key) with
    | none => jsonArgsInOrder keys args
    | some arg => arg :: jsonArgsInOrder keys (args.eraseP (·.key = key))

/-- `append_dsml_arguments_from_json` and `append_glm_arguments_from_json`. -/
def appendArgumentsFromJson (appendArg : JsonArg → Bytes) (json : Option Bytes)
    (order : Option ToolSchemaOrder) : Option Bytes :=
  (jsonArgsParse json).map fun args =>
    (jsonArgsInOrder ((order.map (·.prop)).getD []) args).flatMap appendArg

def appendDsmlArgumentsFromJson := appendArgumentsFromJson appendDsmlArg

def appendGlmArgumentsFromJson := appendArgumentsFromJson appendGlmArg

def appendDsmlToolCall (tc : ToolCall) : Bytes :=
  lit "<｜DSML｜invoke name=\"" ++ appendDsmlAttrEscaped tc.name ++ lit "\">\n" ++
  (appendDsmlArgumentsFromJson tc.arguments none).getD
    (lit "<｜DSML｜parameter name=\"arguments\" string=\"true\">" ++
      appendDsmlParameterText tc.arguments ++ lit "</｜DSML｜parameter>\n") ++
  lit "</｜DSML｜invoke>\n"

def appendDsmlToolCallsText (calls : ToolCalls) : Bytes :=
  if calls.v = [] then []
  else if orEmpty calls.rawToolText ≠ [] then orEmpty calls.rawToolText
  else lit "\n\n<｜DSML｜tool_calls>\n" ++ calls.v.flatMap appendDsmlToolCall ++
    lit "</｜DSML｜tool_calls>"

def toolSchemaOrdersFind (orders : List ToolSchemaOrder) (name : Option Bytes) :
    Option ToolSchemaOrder :=
  if name = none then none else orders.find? (·.name = name)

def appendGlmToolCall (orders : List ToolSchemaOrder) (tc : ToolCall) : Bytes :=
  lit "<tool_call>" ++ orEmpty tc.name ++
  (appendGlmArgumentsFromJson tc.arguments (toolSchemaOrdersFind orders tc.name)).getD
    (lit "<arg_key>arguments</arg_key><arg_value>" ++ appendGlmArgValueText tc.arguments ++
      lit "</arg_value>") ++
  lit "</tool_call>"

def appendGlmToolCallsText (calls : ToolCalls) (orders : List ToolSchemaOrder) : Bytes :=
  if calls.v = [] then []
  else if orEmpty calls.rawToolText ≠ [] then orEmpty calls.rawToolText
  else lit "\n" ++ calls.v.flatMap (appendGlmToolCall orders) ++ lit "\n"

def appendToolCallsTextForSyntax (stx : ServerModelSyntax) (calls : ToolCalls)
    (orders : List ToolSchemaOrder) : Bytes :=
  match stx with
  | .glm => appendGlmToolCallsText calls orders
  | .deepseek => appendDsmlToolCallsText calls

/-! ## Messages -/

def roleIsSystem (role : Bytes) : Bool := role == lit "system" || role == lit "developer"

def roleIsUserLike (role : Bytes) : Bool :=
  role == lit "user" || role == lit "tool" || role == lit "function"

def chatHistoryUsesToolContext (msgs : List ChatMsg) (toolSchemas : Option Bytes) : Bool :=
  orEmpty toolSchemas != [] || msgs.any fun m =>
    (m.role == lit "assistant" && m.calls.v != []) || m.role == lit "tool" ||
      m.role == lit "function"

/-- Index of the last user-like message, counted from 1; 0 when there is none. -/
def lastUserEnd (msgs : List ChatMsg) : Nat :=
  (msgs.rdropWhile fun m => !roleIsUserLike m.role).length

structure DeepseekState where
  out : Bytes
  pendingAssistant : Bool
  pendingToolResult : Bool

/-- One message of the DeepSeek loops; `keep` says whether its reasoning is replayed. -/
def renderDeepseekMsg (think keep : Bool) (st : DeepseekState) (m : ChatMsg) : DeepseekState :=
  if roleIsSystem m.role then st
  else if m.role = lit "user" then
    ⟨st.out ++ lit "<｜User｜>" ++ orEmpty m.content, true, false⟩
  else if m.role = lit "tool" ∨ m.role = lit "function" then
    ⟨st.out ++ (if st.pendingToolResult then [] else lit "<｜User｜>") ++ lit "<tool_result>" ++
      appendToolResultText m.content ++ lit "</tool_result>", true, true⟩
  else if m.role = lit "assistant" then
    let prefixText := if st.pendingAssistant then
        lit "<｜Assistant｜>" ++
        (if think && keep then lit "<think>" ++ orEmpty m.reasoning ++ lit "</think>"
          else lit "</think>")
      else []
    ⟨st.out ++ prefixText ++ orEmpty m.content ++ appendDsmlToolCallsText m.calls ++
      lit "<｜end▁of▁sentence｜>", false, false⟩
  else st

/-- The assistant prefix after the last message. -/
def DeepseekState.finish (st : DeepseekState) (think : Bool) : Bytes :=
  st.out ++ if st.pendingAssistant then
      lit "<｜Assistant｜>" ++ (if think then lit "<think>" else lit "</think>")
    else []

def deepseekSystemText (msgs : List ChatMsg) (toolSchemas : Option Bytes) : Bytes :=
  (msgs.filter (roleIsSystem ·.role)).foldl
    (fun sys m => sys ++ (if sys = [] then [] else lit "\n\n") ++ orEmpty m.content)
    (appendToolsPromptText toolSchemas)

def renderDeepseekChatPromptText (msgs : List ChatMsg) (toolSchemas : Option Bytes)
    (_toolOrders : List ToolSchemaOrder) (thinkMode : Ds4ThinkMode) : Bytes :=
  let think := ds4ThinkModeEnabled thinkMode
  let toolContext := chatHistoryUsesToolContext msgs toolSchemas
  let out := lit "<｜begin▁of▁sentence｜>" ++
    (if thinkMode = .max then ds4ThinkMaxPrefix else []) ++ deepseekSystemText msgs toolSchemas
  (msgs.zipIdx.foldl
    (fun st (m, i) => renderDeepseekMsg think (toolContext || lastUserEnd msgs ≤ i) st m)
    ⟨out, false, false⟩).finish think

def textStartsWithThinkTag (s : Bytes) : Bool := lit "<think>" <+: s || lit "</think>" <+: s

def appendTrimmedText (text : Option Bytes) : Bytes := trimEnd (skipSpace (orEmpty text))

def appendGlmAssistantMessagePrefix (m : ChatMsg) (preserveReasoning : Bool) : Bytes :=
  if textStartsWithThinkTag (orEmpty m.content) then []
  else if preserveReasoning then lit "<think>" ++ orEmpty m.reasoning ++ lit "</think>"
  else lit "<think></think>"

def chatMsgIsGlmToolResult (m : ChatMsg) : Bool :=
  m.role == lit "tool" || m.role == lit "function" ||
    (m.role == lit "user" && m.toolCallIds != [])

def appendGlmToolResponse (text : Bytes) : Bytes :=
  lit "<tool_response>" ++ appendGlmToolResponseText (some text) ++ lit "</tool_response>"

/-- The sections found between `<tool_result>` and `</tool_result>`, `none` when there is none. -/
def appendGlmToolResultSections (p : Bytes) : Option Bytes :=
  match Scan.find (lit "<tool_result>") p with
  | none => none
  | some i =>
    let body := p.drop (i + 13)
    match _h : Scan.find (lit "</tool_result>") body with
    | none => none
    | some j =>
      some (appendGlmToolResponse (body.take j) ++
        (appendGlmToolResultSections (body.drop (j + 14))).getD [])
termination_by p.length
decreasing_by
  have := Scan.find_le ‹_›
  have h14 : (lit "</tool_result>").length = 14 := by decide
  simp only [List.length_drop, body] at this ⊢
  omega

def appendGlmToolResultMessage (m : ChatMsg) : Bytes :=
  let content := orEmpty m.content
  if m.role = lit "user" ∧ m.toolCallIds ≠ [] then
    (appendGlmToolResultSections content).getD (appendGlmToolResponse content)
  else appendGlmToolResponse content

structure GlmState where
  out : Bytes
  pendingAssistant : Bool
  observationOpen : Bool

/-- One message of the GLM loops. -/
def renderGlmMsg (think keep : Bool) (orders : List ToolSchemaOrder) (st : GlmState) (m : ChatMsg) :
    GlmState :=
  if roleIsSystem m.role then { st with observationOpen := false }
  else if chatMsgIsGlmToolResult m then
    ⟨st.out ++ (if st.observationOpen then [] else lit "<|observation|>") ++
      appendGlmToolResultMessage m, true, true⟩
  else if m.role = lit "user" then
    ⟨st.out ++ lit "<|user|>" ++ orEmpty m.content, true, false⟩
  else if m.role = lit "assistant" then
    ⟨st.out ++ lit "<|assistant|>" ++ appendGlmAssistantMessagePrefix m (think && keep) ++
      appendTrimmedText m.content ++ appendToolCallsTextForSyntax .glm m.calls orders, false, false⟩
  else st

def GlmState.finish (st : GlmState) (think : Bool) : Bytes :=
  st.out ++ if st.pendingAssistant then
      lit "<|assistant|>" ++ (if think then lit "<think>" else lit "<think></think>")
    else []

def glmHeadText (msgs : List ChatMsg) (toolSchemas : Option Bytes) (thinkMode : Ds4ThinkMode) :
    Bytes :=
  lit "[gMASK]<sop>" ++
  (if ds4ThinkModeEnabled thinkMode then
    lit "<|system|>" ++ (ds4GlmReasoningEffortText thinkMode).getD (lit "Reasoning Effort: Max")
    else []) ++
  (let tools := appendGlmToolsPromptText toolSchemas
   if tools = [] then [] else lit "<|system|>" ++ tools) ++
  (msgs.filter (roleIsSystem ·.role)).flatMap fun m => lit "<|system|>" ++ orEmpty m.content

def renderGlmChatPromptText (msgs : List ChatMsg) (toolSchemas : Option Bytes)
    (toolOrders : List ToolSchemaOrder) (thinkMode : Ds4ThinkMode) : Bytes :=
  let think := ds4ThinkModeEnabled thinkMode
  let toolContext := chatHistoryUsesToolContext msgs toolSchemas
  (msgs.zipIdx.foldl
    (fun st (m, i) => renderGlmMsg think (toolContext || lastUserEnd msgs ≤ i) toolOrders st m)
    ⟨glmHeadText msgs toolSchemas thinkMode, false, false⟩).finish think

def renderChatPromptTextForSyntax (stx : ServerModelSyntax) (msgs : List ChatMsg)
    (toolSchemas : Option Bytes) (toolOrders : List ToolSchemaOrder) (thinkMode : Ds4ThinkMode) :
    Bytes :=
  match stx with
  | .glm => renderGlmChatPromptText msgs toolSchemas toolOrders thinkMode
  | .deepseek => renderDeepseekChatPromptText msgs toolSchemas toolOrders thinkMode

def renderDeepseekLiveToolTail (msgs : List ChatMsg) (start : Nat) (thinkMode : Ds4ThinkMode) :
    Bytes :=
  let think := ds4ThinkModeEnabled thinkMode
  ((msgs.drop start).foldl (renderDeepseekMsg think true)
    ⟨lit "<｜end▁of▁sentence｜>", false, false⟩).finish think

def renderGlmLiveToolTail (msgs : List ChatMsg) (start : Nat) (toolOrders : List ToolSchemaOrder)
    (thinkMode : Ds4ThinkMode) : Bytes :=
  let think := ds4ThinkModeEnabled thinkMode
  ((msgs.drop start).foldl (renderGlmMsg think true toolOrders) ⟨[], false, false⟩).finish think

def renderLiveToolTailForSyntax (stx : ServerModelSyntax) (msgs : List ChatMsg) (start : Nat)
    (toolOrders : List ToolSchemaOrder) (thinkMode : Ds4ThinkMode) : Bytes :=
  match stx with
  | .glm => renderGlmLiveToolTail msgs start toolOrders thinkMode
  | .deepseek => renderDeepseekLiveToolTail msgs start thinkMode

end Ds4
