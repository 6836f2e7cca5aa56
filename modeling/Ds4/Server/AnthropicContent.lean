import Ds4.Server.JsonArgs
import Ds4.Server.Render

/-!
# Anthropic message content

`parse_anthropic_content` reads the blocks of a message and collapses them into one `chat_msg`: text
is appended to `content`, and a `tool_result` is appended as escaped text between `<tool_result>`
tags. The JSON loops of the server share one shape (`jsonLoop`). Reading the blocks and adding them
to the message are separate functions here; the C loop does both for one block at a time.

The image store is a parameter: `push` decodes an image and returns the store with the marker that
stands for it in the text.
-/

namespace Ds4
open C

/-! ## Loops over JSON members and elements -/

/-- Reads one element into a state; consumes at least one byte. -/
structure Stepper (σ : Type) where
  read : Bytes → σ → Option (σ × Bytes)
  shorter : ∀ {p s x}, read p s = some x → x.2.length < p.length

/-- Reads the value of a member with a given key. -/
structure FieldReader (σ : Type) where
  read : Bytes → Bytes → σ → Option (σ × Bytes)
  shorter : ∀ {key p s x}, read key p s = some x → x.2.length < p.length

/-- White space, at most one comma, and white space again. -/
def skipComma (p : Bytes) : Bytes :=
  let r := skipSpace p
  skipSpace (if r.head? = some (ch ',') then r.drop 1 else r)

theorem length_skipComma_le (p : Bytes) : (skipComma p).length ≤ p.length := by
  refine (length_skipSpace_le _).trans (le_trans ?_ (length_skipSpace_le p))
  split
  · rw [List.length_drop]; omega
  · exact Nat.le_refl _

/-- Elements up to the closing byte; the comma after an element is optional. -/
def jsonLoop (close : UInt8) (f : Stepper σ) (p : Bytes) (s : σ) : Option (σ × Bytes) :=
  if p.head? = some close then some (s, p.drop 1)
  else
    match _h : f.read p s with
    | none => none
    | some (s', q) => jsonLoop close f (skipComma q) s'
termination_by p.length
decreasing_by
  have := f.shorter _h
  exact (length_skipComma_le q).trans_lt this

theorem jsonLoop_length (h : jsonLoop close f p s = some x) : x.2.length < p.length := by
  fun_induction jsonLoop close f p s with
  | case1 p s hc =>
    cases h
    cases p with
    | nil => cases hc
    | cons c p => simp
  | case2 => cases h
  | case3 p s _ s' q hq ih =>
    have := f.shorter hq
    exact (ih h).trans ((length_skipComma_le q).trans_lt this)

/-- A member: the key, a colon, and the value. -/
def FieldReader.readMember (f : FieldReader σ) (p : Bytes) (s : σ) : Option (σ × Bytes) :=
  match jsonString p with
  | none => none
  | some (key, q) =>
    match skipSpace q with
    | [] => none
    | c :: r => if c = ch ':' then f.read key r s else none

theorem FieldReader.readMember_shorter (f : FieldReader σ) {p s x} (h : f.readMember p s = some x) :
    x.2.length < p.length := by
  rw [readMember] at h
  split at h
  · cases h
  · next key q hq =>
    have h1 := jsonString_length hq
    have h2 := length_skipSpace_le q
    split at h
    · cases h
    · next c r hr =>
      rw [hr, List.length_cons] at h2
      split at h
      · have := f.shorter h
        simp only at h1
        omega
      · cases h

def FieldReader.member (f : FieldReader σ) : Stepper σ where
  read := f.readMember
  shorter := f.readMember_shorter

/-- An object, whose opening brace is the first byte of `p`. -/
def jsonObject (f : FieldReader σ) (p : Bytes) (s : σ) : Option (σ × Bytes) :=
  if p.head? = some (ch '\x7b') then jsonLoop (ch '\x7d') f.member (skipSpace (p.drop 1)) s else none

theorem jsonObject_length (h : jsonObject f p s = some x) : x.2.length < p.length := by
  rw [jsonObject] at h
  split at h
  · have := jsonLoop_length h
    have h2 := length_skipSpace_le (p.drop 1)
    rw [List.length_drop] at h2
    omega
  · cases h

/-! ## Content strings -/

/-- A member of a content part, of which only the text is kept. -/
def jsonPartField : FieldReader Bytes where
  read key p s :=
    if key = lit "text" then (jsonString p).map fun x => (s ++ x.1, x.2)
    else (jsonSkipValue p).map fun q => (s, q)
  shorter := by
    intro key p s x h
    split at h
    · obtain ⟨y, hy, rfl⟩ := Option.map_eq_some_iff.1 h
      exact (jsonString_length hy : y.2.length < p.length)
    · obtain ⟨q, hq, rfl⟩ := Option.map_eq_some_iff.1 h
      exact jsonSkipValue_length hq

def jsonPart : Stepper Bytes where
  read p s :=
    if p.head? = some (ch '"') then (jsonString p).map fun x => (s ++ x.1, x.2)
    else if p.head? = some (ch '\x7b') then jsonObject jsonPartField p s
    else (jsonSkipValue p).map fun q => (s, q)
  shorter := by
    intro p s x h
    split at h
    · obtain ⟨y, hy, rfl⟩ := Option.map_eq_some_iff.1 h
      exact (jsonString_length hy : y.2.length < p.length)
    split at h
    · exact jsonObject_length h
    · obtain ⟨q, hq, rfl⟩ := Option.map_eq_some_iff.1 h
      exact jsonSkipValue_length hq

/-- A string, or the texts of an array of parts; any other value counts as empty. -/
def jsonContent (p : Bytes) : Option (Bytes × Bytes) :=
  let p := skipSpace p
  if p.head? = some (ch '"') then jsonString p
  else match jsonLit p (lit "null") with
    | some q => some ([], q)
    | none =>
      if p.head? = some (ch '[') then jsonLoop (ch ']') jsonPart (skipSpace (p.drop 1)) []
      else (jsonSkipValue p).map fun q => ([], q)

theorem jsonContent_length (h : jsonContent p = some x) : x.2.length < p.length := by
  have hs := length_skipSpace_le p
  simp only [jsonContent] at h
  split at h
  · exact (jsonString_length h).trans_le hs
  split at h
  · next q hq =>
    cases h
    rw [jsonLit] at hq
    split at hq
    · next hp =>
      cases hq
      have h4 := hp.length_le
      have h4' : (lit "null").length = 4 := by decide
      rw [List.length_drop]
      omega
    · cases hq
  split at h
  · have h1 := jsonLoop_length h
    have h2 := length_skipSpace_le ((skipSpace p).drop 1)
    rw [List.length_drop] at h2
    omega
  · obtain ⟨q, hq, rfl⟩ := Option.map_eq_some_iff.1 h
    exact (jsonSkipValue_length hq).trans_le hs

/-! ## Blocks -/

structure AnthropicImageSource where
  type : Option Bytes := none
  mediaType : Option Bytes := none
  data : Option Bytes := none
  deriving DecidableEq, Repr

/-- `json_string_replace` into a field. -/
def jsonStringInto (set : Bytes → σ) (p : Bytes) : Option (σ × Bytes) :=
  (jsonString p).map fun x => (set x.1, x.2)

theorem jsonStringInto_length {set : Bytes → σ} (h : jsonStringInto set p = some x) :
    x.2.length < p.length := by
  obtain ⟨y, hy, rfl⟩ := Option.map_eq_some_iff.1 h
  exact jsonString_length hy

def anthropicSourceField : FieldReader AnthropicImageSource where
  read key p s :=
    if key = lit "type" then jsonStringInto (fun v => { s with type := some v }) p
    else if key = lit "media_type" then jsonStringInto (fun v => { s with mediaType := some v }) p
    else if key = lit "data" then jsonStringInto (fun v => { s with data := some v }) p
    else (jsonSkipValue p).map fun q => (s, q)
  shorter := by
    intro key p s x h
    split at h
    · exact jsonStringInto_length h
    split at h
    · exact jsonStringInto_length h
    split at h
    · exact jsonStringInto_length h
    · obtain ⟨q, hq, rfl⟩ := Option.map_eq_some_iff.1 h
      exact jsonSkipValue_length hq

/-- The fields of a content block, in whatever order the client sends them. -/
structure AnthropicBlock where
  type : Option Bytes := none
  text : Option Bytes := none
  thinking : Option Bytes := none
  id : Option Bytes := none
  name : Option Bytes := none
  input : Option Bytes := none
  toolResult : Option Bytes := none
  source : AnthropicImageSource := {}
  deriving DecidableEq, Repr

def anthropicBlockField : FieldReader AnthropicBlock where
  read key p b :=
    if key = lit "type" then jsonStringInto (fun v => { b with type := some v }) p
    else if key = lit "text" then (jsonContent p).map fun x => ({ b with text := some x.1 }, x.2)
    else if key = lit "thinking" then
      (jsonContent p).map fun x => ({ b with thinking := some x.1 }, x.2)
    else if key = lit "id" ∨ key = lit "tool_use_id" then
      jsonStringInto (fun v => { b with id := some v }) p
    else if key = lit "name" then jsonStringInto (fun v => { b with name := some v }) p
    else if key = lit "input" then (jsonRawValue p).map fun x => ({ b with input := some x.1 }, x.2)
    else if key = lit "content" then
      (jsonRawValue p).map fun x => ({ b with toolResult := some x.1 }, x.2)
    else if key = lit "source" then
      (jsonObject anthropicSourceField (skipSpace p) b.source).map fun x =>
        ({ b with source := x.1 }, x.2)
    else (jsonSkipValue p).map fun q => (b, q)
  shorter := by
    intro key p b x h
    split at h
    · exact jsonStringInto_length h
    split at h
    · obtain ⟨y, hy, rfl⟩ := Option.map_eq_some_iff.1 h
      exact jsonContent_length hy
    split at h
    · obtain ⟨y, hy, rfl⟩ := Option.map_eq_some_iff.1 h
      exact jsonContent_length hy
    split at h
    · exact jsonStringInto_length h
    split at h
    · exact jsonStringInto_length h
    split at h
    · obtain ⟨y, hy, rfl⟩ := Option.map_eq_some_iff.1 h
      exact jsonRawValue_length hy
    split at h
    · obtain ⟨y, hy, rfl⟩ := Option.map_eq_some_iff.1 h
      exact jsonRawValue_length hy
    split at h
    · obtain ⟨y, hy, rfl⟩ := Option.map_eq_some_iff.1 h
      exact (jsonObject_length hy).trans_le (length_skipSpace_le p)
    · obtain ⟨q, hq, rfl⟩ := Option.map_eq_some_iff.1 h
      exact jsonSkipValue_length hq

/-- An element of a content array. -/
inductive AnthropicItem
  | text (s : Bytes)
  | block (b : AnthropicBlock)
  | other
  deriving DecidableEq, Repr

def anthropicItem : Stepper (List AnthropicItem) where
  read p items :=
    if p.head? = some (ch '"') then (jsonString p).map fun x => (items ++ [.text x.1], x.2)
    else if p.head? = some (ch '\x7b') then
      (jsonObject anthropicBlockField p {}).map fun x => (items ++ [.block x.1], x.2)
    else (jsonSkipValue p).map fun q => (items ++ [.other], q)
  shorter := by
    intro p items x h
    split at h
    · obtain ⟨y, hy, rfl⟩ := Option.map_eq_some_iff.1 h
      exact (jsonString_length hy : y.2.length < p.length)
    split at h
    · obtain ⟨y, hy, rfl⟩ := Option.map_eq_some_iff.1 h
      exact (jsonObject_length hy : y.2.length < p.length)
    · obtain ⟨q, hq, rfl⟩ := Option.map_eq_some_iff.1 h
      exact jsonSkipValue_length hq

/-- The elements of an array, after its opening bracket. -/
def anthropicItems (p : Bytes) : Option (List AnthropicItem × Bytes) :=
  jsonLoop (ch ']') anthropicItem (skipSpace p) []

/-! ## Messages -/

structure AnthropicMsg (Img : Type) extends ChatMsg where
  images : List Img

/-- `chat_msg msg = {0}`. -/
def AnthropicMsg.empty : AnthropicMsg Img := ⟨⟨[], none, none, [], ⟨[], none⟩⟩, []⟩

def AnthropicMsg.appendContent (m : AnthropicMsg Img) (text : Bytes) : AnthropicMsg Img :=
  { m with content := some (orEmpty m.content ++ text) }

/-- `chat_msg_add_tool_call_id`: a missing, empty or known id adds nothing. -/
def AnthropicMsg.addToolCallId (m : AnthropicMsg Img) (id : Option Bytes) : AnthropicMsg Img :=
  if orEmpty id = [] ∨ orEmpty id ∈ m.toolCallIds then m
  else { m with toolCallIds := m.toolCallIds ++ [orEmpty id] }

section Parser

variable {Img : Type} (push : List Img → Option Bytes → Option Bytes → Option (List Img × Bytes))

/-- What a block adds to the message. -/
def addAnthropicBlock (nested : Bytes → Option (AnthropicMsg Img)) (allowTools : Bool)
    (m : AnthropicMsg Img) (b : AnthropicBlock) : Option (AnthropicMsg Img) :=
  if ¬ allowTools ∧ b.type ≠ some (lit "text") ∧ b.type ≠ some (lit "image") then none
  else if b.type = some (lit "tool_use") then
    some { m with calls := ⟨m.calls.v ++
      [⟨some (orEmpty b.name), some (b.input.getD (lit "\x7b\x7d"))⟩], m.calls.rawToolText⟩ }
  else if b.type = some (lit "tool_result") then
    (nested (b.toolResult.getD (lit "\"\""))).map fun n =>
      let m' := (m.addToolCallId b.id).appendContent
        (lit "<tool_result>" ++ appendToolResultText n.content ++ lit "</tool_result>")
      { m' with images := m.images ++ n.images }
  else if b.type = some (lit "image") then
    if b.source.type = some (lit "base64") then
      (push m.images b.source.mediaType b.source.data).map fun x =>
        { m.appendContent x.2 with images := x.1 }
    else none
  else
    let m := match b.text with
      | some t => m.appendContent t
      | none => m
    some <| match b.thinking with
      | some t => { m with reasoning := some (orEmpty m.reasoning ++ t) }
      | none => m

def addAnthropicItem (add : AnthropicMsg Img → AnthropicBlock → Option (AnthropicMsg Img))
    (m : AnthropicMsg Img) : AnthropicItem → Option (AnthropicMsg Img)
  | .text s => some (m.appendContent s)
  | .block b => add m b
  | .other => some m

/-- `parse_anthropic_content`, over what it does with a block. -/
def parseAnthropicContentWith
    (add : AnthropicMsg Img → AnthropicBlock → Option (AnthropicMsg Img)) (allowTools : Bool)
    (p : Bytes) (m : AnthropicMsg Img) : Option (AnthropicMsg Img × Bytes) :=
  let p := skipSpace p
  if p.head? = some (ch '"') then (jsonString p).map fun x => ({ m with content := some x.1 }, x.2)
  else match jsonLit p (lit "null") with
    | some q => some ({ m with content := some [] }, q)
    | none =>
      if p.head? ≠ some (ch '[') then
        if allowTools then (jsonSkipValue p).map fun q => (m, q) else none
      else (anthropicItems (p.drop 1)).bind fun x =>
        (x.1.foldlM (addAnthropicItem add) m).map fun m =>
          ({ m with content := some (orEmpty m.content) }, x.2)

/-- The content of a tool result; a tool block inside one is refused, so this does not recurse. -/
def parseAnthropicNested (p : Bytes) : Option (AnthropicMsg Img) :=
  (parseAnthropicContentWith (addAnthropicBlock push (fun _ => none) false) false p .empty).map (·.1)

/-- `parse_anthropic_content` for the content of a message. -/
def parseAnthropicContent (p : Bytes) (m : AnthropicMsg Img) : Option (AnthropicMsg Img × Bytes) :=
  parseAnthropicContentWith (addAnthropicBlock push (parseAnthropicNested push) true) true p m

end Parser

end Ds4
