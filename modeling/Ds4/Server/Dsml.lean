import Ds4.Lib.CString

/-!
# The tool-call alphabets

The literals of the three DSML spellings and of the GLM syntax, the attribute reader, and the marker
searches that the final parser, the decode tracker and the live streams share. A `char *` argument
is the C string at that pointer; a result pointer into it is an offset.
-/

namespace Ds4
open C Scan

inductive ServerModelSyntax
  | deepseek
  | glm
  deriving DecidableEq, Repr

/-- A tag alphabet, with what the scanners rely on. -/
structure DsmlSyntax where
  toolCallsStart : Bytes
  toolCallsEnd : Bytes
  invokeStart : Bytes
  invokeEnd : Bytes
  paramStart : Bytes
  paramEnd : Bytes
  /-- `<` opens each literal and does not occur again in it. -/
  sharp : ∀ w ∈ [toolCallsStart, toolCallsEnd, invokeStart, invokeEnd, paramStart, paramEnd],
    Sharp (ch '<') w := by decide
  /-- No literal inside a block begins another one. -/
  free : ∀ v ∈ [toolCallsEnd, invokeStart, invokeEnd, paramStart, paramEnd],
    ∀ w ∈ [toolCallsEnd, invokeStart, invokeEnd, paramStart, paramEnd], v <+: w → v = w := by decide
  deriving DecidableEq

def dsmlSyntaxLong : DsmlSyntax where
  toolCallsStart := lit "<｜DSML｜tool_calls>"
  toolCallsEnd := lit "</｜DSML｜tool_calls>"
  invokeStart := lit "<｜DSML｜invoke"
  invokeEnd := lit "</｜DSML｜invoke>"
  paramStart := lit "<｜DSML｜parameter"
  paramEnd := lit "</｜DSML｜parameter>"

/-- The first vertical bar omitted. -/
def dsmlSyntaxShort : DsmlSyntax where
  toolCallsStart := lit "<DSML｜tool_calls>"
  toolCallsEnd := lit "</DSML｜tool_calls>"
  invokeStart := lit "<DSML｜invoke"
  invokeEnd := lit "</DSML｜invoke>"
  paramStart := lit "<DSML｜parameter"
  paramEnd := lit "</DSML｜parameter>"

def dsmlSyntaxPlain : DsmlSyntax where
  toolCallsStart := lit "<tool_calls>"
  toolCallsEnd := lit "</tool_calls>"
  invokeStart := lit "<invoke"
  invokeEnd := lit "</invoke>"
  paramStart := lit "<parameter"
  paramEnd := lit "</parameter>"

def dsmlSyntaxes : List DsmlSyntax := [dsmlSyntaxLong, dsmlSyntaxShort, dsmlSyntaxPlain]

def glmToolSyntax : DsmlSyntax where
  toolCallsStart := lit "<tool_call>"
  toolCallsEnd := lit "</tool_call>"
  invokeStart := lit "<arg_key>"
  invokeEnd := lit "</arg_key>"
  paramStart := lit "<arg_value>"
  paramEnd := lit "</arg_value>"

/-- The literals that may follow inside a block. -/
def DsmlSyntax.structuralLits (syn : DsmlSyntax) : List Bytes :=
  [syn.toolCallsEnd, syn.invokeStart, syn.invokeEnd, syn.paramStart, syn.paramEnd]

/-! ## Marker searches -/

/-- The candidates of `find_any_tool_start`. -/
def anyToolStarts : List Bytes :=
  dsmlSyntaxes.map (·.toolCallsStart) ++ [glmToolSyntax.toolCallsStart]

def anyToolEnds : List Bytes := dsmlSyntaxes.map (·.toolCallsEnd) ++ [glmToolSyntax.toolCallsEnd]

theorem anyToolStarts_free : ∀ v ∈ anyToolStarts, ∀ w ∈ anyToolStarts, id v <+: id w → v = w := by
  decide

def findAnyToolStart (s : Bytes) : Option Nat := (findAny id anyToolStarts s).map (·.1)

def findAnyToolEnd (s : Bytes) : Option Nat := (findAny id anyToolEnds s).map (·.1)

/-- The last occurrence of a nonempty needle. -/
def findLastSubstr (needle : Bytes) : Bytes → Option Nat
  | [] => none
  | c :: s =>
    match findLastSubstr needle s with
    | some i => some (i + 1)
    | none => if needle <+: c :: s then some 0 else none

theorem findLastSubstr_isPrefix (h : findLastSubstr needle s = some i) : needle <+: s.drop i := by
  induction s generalizing i with
  | nil => cases h
  | cons c s ih =>
    rw [findLastSubstr] at h
    split at h
    · next j hj => cases h; exact ih hj
    · split at h
      · next hp => cases h; exact hp
      · cases h

/-- The last `c` of a text. -/
theorem findLastSubstr_single (h : c ∉ b) : findLastSubstr [c] (a ++ c :: b) = some a.length := by
  have hb : findLastSubstr [c] b = none := by
    cases hf : findLastSubstr [c] b with
    | none => rfl
    | some i =>
      obtain ⟨u, hu⟩ := findLastSubstr_isPrefix hf
      have hm : c ∈ b.drop i := by simp [← hu]
      exact absurd (List.mem_of_mem_drop hm) h
  induction a with
  | nil => simp [findLastSubstr, hb]
  | cons d a ih => simp [findLastSubstr, ih]

def trimToolSeparatorWs (raw : Bytes) (start limit : Nat) : Nat :=
  start + (trimEnd ((raw.take limit).drop start)).length

theorem trimToolSeparatorWs_le (h : start ≤ limit) : trimToolSeparatorWs s start limit ≤ limit := by
  have h1 := (trimEnd_isPrefix ((s.take limit).drop start)).length_le
  rw [List.length_drop, List.length_take] at h1
  rw [trimToolSeparatorWs]
  omega

/-- Wrappers whose bodies are literal data. -/
def toolWrappers : List (Bytes × Bytes) :=
  dsmlSyntaxes.map (fun syn => (syn.paramStart, syn.paramEnd)) ++
    [(glmToolSyntax.invokeStart, glmToolSyntax.invokeEnd),
      (glmToolSyntax.paramStart, glmToolSyntax.paramEnd)]

/-- The loop of `find_tool_structural_text` at offset `pos`. -/
def findToolStructuralLoop (needle : Bytes) (last : Bool) (pos : Nat) (found : Option Nat)
    (s : Bytes) : Option Nat :=
  match s with
  | [] => found
  | c :: s =>
    let here := decide (needle <+: c :: s)
    if here && !last then some pos
    else
      let found := if here then some pos else found
      match toolWrappers.find? (·.1 <+: c :: s) with
      | none => findToolStructuralLoop needle last (pos + 1) found s
      | some (_, close) =>
        match find [ch '>'] (c :: s) with
        | none => found
        | some i =>
          match find close ((c :: s).drop (i + 1)) with
          | none => found
          | some k =>
            findToolStructuralLoop needle last (pos + (i + 1 + k + close.length)) found
              (s.drop (i + k + close.length))
termination_by s.length
decreasing_by all_goals (simp only [List.length_drop, List.length_cons]; omega)

/-- A control marker outside the value and key wrappers: the first or the last one. -/
def findToolStructuralText (s needle : Bytes) (last : Bool) : Option Nat :=
  findToolStructuralLoop needle last 0 none s

/-! ## Attributes -/

def dsmlEntities : List (Bytes × UInt8) :=
  [(lit "&amp;", ch '&'), (lit "&lt;", ch '<'), (lit "&gt;", ch '>'), (lit "&quot;", ch '"'),
    (lit "&apos;", ch '\'')]

def dsmlUnescapeText (s : Bytes) : Bytes :=
  match s with
  | [] => []
  | c :: s =>
    match dsmlEntities.find? (·.1 <+: c :: s) with
    | some (e, b) => b :: dsmlUnescapeText (s.drop (e.length - 1))
    | none => c :: dsmlUnescapeText s
termination_by s.length
decreasing_by all_goals (simp only [List.length_drop, List.length_cons]; omega)

def dsmlAttr (tag name : Bytes) : Option Bytes :=
  let pat := name ++ lit "=\""
  match find pat tag with
  | none => none
  | some i =>
    let p := tag.drop (i + pat.length)
    (find [ch '"'] p).map fun k => dsmlUnescapeText (p.take k)

/-- The slice is copied with `xstrndup` and read as a C string. -/
def dsmlAttrIsStringTrue (tag : Bytes) : Bool :=
  dsmlAttr (cstr tag) (lit "string") == some (lit "true")

end Ds4
