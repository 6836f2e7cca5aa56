import Ds4.Agent.Buf
import Ds4.Agent.Edit
import Ds4.Lib.Strtol

/-!
# Reading a file in chunks

`read` shows a file from a line on, up to a number of lines or to a budget of bytes; `more` goes on where the last chunk
ended. A chunk has its lines behind their numbers unless it is raw, and every line ending of a numbered chunk is `\n`.
-/

namespace Ds4.Agent
open C

def pathMax : Nat := 4096

/-- What the read tools use of the worker. -/
structure AgentReader where
  effectiveCtxSize : Int
  morePath : Bytes
  moreNextLine : Nat
  moreByteOffset : Nat
  moreMidLine : Bool
  moreBare : Bool
  moreValid : Bool

/-- `open`, the checks that the file is a regular one and the reads: its bytes, or the text of the error. -/
abbrev OpenFile := Bytes → Except Bytes Bytes

/-! ## Arguments -/

/-- The white space that `agent_parse_int_default` takes behind a number. -/
def isBlank (c : UInt8) : Bool := c == ch ' ' || c == ch '\t' || c == ch '\r' || c == ch '\n'

def agentParseIntDefault (s : Option Bytes) (d min max : Int) : Int :=
  match s with
  | none => d
  | some s =>
    if s = [] then d
    else if longDigits s = [] then d
    else if ((splitSign (skipSpace s)).2.dropWhile isdigit).dropWhile isBlank ≠ [] then d
    else
      let v := if strtol s < min then min else strtol s
      if max < v then max else v

def agentParseBoolDefault (s : Option Bytes) (d : Bool) : Bool :=
  match s with
  | none => d
  | some s =>
    if s = [] then d
    else if s.map tolower = lit "true" ∨ s.map tolower = lit "yes" ∨ s = lit "1" then true
    else if s.map tolower = lit "false" ∨ s.map tolower = lit "no" ∨ s = lit "0" then false
    else d

def agentReadDefaultLines (w : AgentReader) : Nat :=
  if 0 < w.effectiveCtxSize ∧ w.effectiveCtxSize ≤ 8192 then 120
  else if 0 < w.effectiveCtxSize ∧ w.effectiveCtxSize ≤ 16384 then 240
  else 500

/-! ## One chunk -/

/-- What is left when a line ending that starts with `c` has been read: `\n` behind `\r` belongs to it. -/
def afterChar (c : UInt8) (s : Bytes) : Bytes := if c = ch '\r' ∧ s.head? = some (ch '\n') then s.drop 1 else s

theorem length_afterChar_le (c : UInt8) (s : Bytes) : (afterChar c s).length ≤ s.length := by
  rw [afterChar]
  split
  · exact (List.drop_suffix ..).length_le
  · exact Nat.le_refl _

/-- The lines in front of `startLine` are skipped; where that ends and in which line. -/
def skipLines (startLine line : Nat) : Bytes → Bytes × Nat
  | [] => ([], line)
  | c :: s =>
    if line < startLine then skipLines startLine (if isLineEnd c then line + 1 else line) (afterChar c s) else (c :: s, line)
termination_by s => s.length
decreasing_by exact Nat.lt_succ_of_le (length_afterChar_le c s)

structure ReadState where
  body : Bytes
  line : Nat
  lines : Nat
  lastLine : Nat
  /-- The next character starts a line. -/
  beginning : Bool
  /-- A label is due. -/
  labelled : Bool

inductive ReadEnd
  | binary
  | overflow
  | stopped (st : ReadState) (rest : Bytes)

def readBudget : Nat := agentToolMaxBytes - 4096

def readLabel (line : Nat) (continued : Bool) : Bytes :=
  lit (toString line) ++ (if continued then lit " (continued)" else []) ++ lit " "

/-- What is shown of the character `c` with `s` behind it. -/
def shownChar (bare : Bool) (c : UInt8) (s : Bytes) : Bytes :=
  if c = ch '\r' then
    if s.head? = some (ch '\n') then if bare then [c, ch '\n'] else [ch '\n']
    else if bare then [c] else [ch '\n']
  else [c]

/-- The character `c` is taken over. -/
def readChar (bare : Bool) (st : ReadState) (c : UInt8) (s : Bytes) : ReadState :=
  let label := if st.labelled ∧ ¬bare then readLabel st.line (!st.beginning) else []
  { st with
    lastLine := st.line
    body := st.body ++ label ++ shownChar bare c s
    line := if isLineEnd c then st.line + 1 else st.line
    lines := if isLineEnd c then st.lines + 1 else st.lines
    beginning := isLineEnd c
    labelled := isLineEnd c }

def copyLines (wholeFile bare : Bool) (maxLines : Nat) (st : ReadState) : Bytes → ReadEnd
  | [] => .stopped st []
  | c :: s =>
    if wholeFile ∨ st.lines < maxLines then
      -- a character is not cut as long as it is short
      if readBudget ≤ st.body.length ∧ (¬isCont c ∨ readBudget + 3 ≤ st.body.length) then .stopped st (c :: s)
      else if c = 0 then .binary
      else if isLineEnd c ∧ st.line = intMax then .overflow
      else copyLines wholeFile bare maxLines (readChar bare st c s) (afterChar c s)
    else .stopped st (c :: s)
termination_by s => s.length
decreasing_by exact Nat.lt_succ_of_le (length_afterChar_le c s)

/-! ## The tools -/

def agentWorkerSetMore (w : AgentReader) (path : Option Bytes) (nextLine : Nat) (bare : Bool) : AgentReader :=
  { w with
    -- `more_path` itself fits and stays
    morePath := (orEmpty path).take (pathMax - 1)
    moreNextLine := nextLine
    moreBare := bare
    moreValid := orEmpty path ≠ [] ∧ 0 < nextLine
    moreByteOffset := 0
    moreMidLine := false }

/-- A read that does not come to its end leaves nothing to continue. -/
def readFailed (w : AgentReader) (setMore : Bool) (text : Bytes) : Bytes × AgentReader :=
  (text, if setMore then agentWorkerSetMore w none 0 false else w)

def readError (e : Bytes) : Bytes := lit "Tool error: read failed: " ++ e ++ lit "\n"

/-- A path that can be opened is short enough for the header. -/
def readHeader (path : Bytes) (startLine lastLine : Nat) (more : Bool) : Bytes :=
  path ++ lit ": lines " ++ lit (toString (if lastLine = 0 then 0 else startLine)) ++ lit "-" ++ lit (toString lastLine) ++
    (if more then lit " (partial read)" else lit " (end of file)") ++ lit "\n"

def readNote (line offset : Nat) (beginning : Bool) : Bytes :=
  lit "\n[Read truncated. continue_offset=" ++ lit (toString line) ++ lit "; continue_byte_offset=" ++ lit (toString offset) ++
    (if beginning then [] else lit " (within line)") ++ lit ". Call more to continue.]\n"

/-- The answer for a chunk that ends in the state `st` at `offset`. -/
def readAnswer (path : Bytes) (startLine : Nat) (bare more : Bool) (st : ReadState) (offset : Nat) : Bytes :=
  (if bare then [] else readHeader path startLine st.lastLine more) ++ st.body ++
    (if more then readNote st.line offset st.beginning else [])

def agentReadRangeFrom (openFile : OpenFile) (w : AgentReader) (path : Option Bytes) (startLine maxLines : Int)
    (wholeFile bare setMore : Bool) (offset : Nat) (midLine : Bool) : Bytes × AgentReader :=
  if orEmpty path = [] then (lit "Tool error: read requires path\n", w)
  else
    match openFile (orEmpty path) with
    | .error e => readFailed w setMore (readError e)
    | .ok file =>
      let startLine := if startLine < 1 then 1 else startLine.toNat
      let maxLines := if maxLines ≤ 0 then agentReadDefaultLines w else maxLines.toNat
      let (s, line) := skipLines startLine (if 0 < offset then startLine else 1) (file.drop offset)
      match copyLines wholeFile bare maxLines ⟨[], line, 0, 0, !midLine, true⟩ s with
      | .binary => readFailed w setMore (lit "Tool error: read encountered binary data\n")
      | .overflow => readFailed w setMore (readError (lit "Value too large for defined data type"))
      | .stopped st rest =>
        let nextOffset := offset + ((file.drop offset).length - rest.length)
        let more := decide (rest ≠ [])
        if wholeFile ∧ more then
          readFailed w setMore
            (lit "Tool error: whole read exceeds the 128 KiB output limit; use read and more for chunks\n")
        else
          (readAnswer (orEmpty path) startLine bare more st nextOffset,
            if setMore then
              { agentWorkerSetMore w (if more then path else none) (if more then st.line else 0) bare with
                moreByteOffset := nextOffset
                moreMidLine := !st.beginning }
            else w)

def agentReadRange (openFile : OpenFile) (w : AgentReader) (path : Option Bytes) (startLine maxLines : Int)
    (wholeFile bare setMore : Bool) : Bytes × AgentReader :=
  agentReadRangeFrom openFile w path startLine maxLines wholeFile bare setMore 0 false

def agentToolRead (openFile : OpenFile) (w : AgentReader) (call : AgentToolCall) : Bytes × AgentReader :=
  agentReadRange openFile w (agentToolArgValue call (lit "path"))
    (agentParseIntDefault (agentToolArgValue call (lit "start_line")) 1 1 intMax)
    (agentParseIntDefault (agentToolArgValue call (lit "max_lines")) (agentReadDefaultLines w) 1 intMax)
    (agentParseBoolDefault (agentToolArgValue call (lit "whole")) false)
    (agentParseBoolDefault (agentToolArgValue call (lit "raw")) false) true

def agentToolMore (openFile : OpenFile) (w : AgentReader) (call : AgentToolCall) : Bytes × AgentReader :=
  let count := agentParseIntDefault (agentToolArgValue call (lit "count")) (agentReadDefaultLines w) 1 intMax
  if w.moreValid then
    agentReadRangeFrom openFile w (some w.morePath) w.moreNextLine count false w.moreBare true w.moreByteOffset w.moreMidLine
  else (lit "Tool error: no previous output to continue\n", w)

end Ds4.Agent
