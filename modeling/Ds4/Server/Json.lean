import Ds4.Lib.Strtod

/-!
# The JSON reader and writer of the server

`json_string`, `json_skip_value`, `json_minify_raw_value`, `json_escape` and the argument list
reader `json_args_parse`. A pointer is the text it points to; a reader returns the text after what
it has read. Readers come with the proof that they consume something (`Reader`), which is what the
`for (;;)` loops over members rest on.
-/

namespace Ds4
open C

def jsonHex (c : UInt8) : Option Nat :=
  if ch '0' ≤ c && c ≤ ch '9' then some (c.toNat - (ch '0').toNat)
  else if ch 'a' ≤ c && c ≤ ch 'f' then some (10 + (c.toNat - (ch 'a').toNat))
  else if ch 'A' ≤ c && c ≤ ch 'F' then some (10 + (c.toNat - (ch 'A').toNat))
  else none

def utf8Put (cp : Nat) : Bytes :=
  let cp := if 0x10ffff < cp ∨ 0xd800 ≤ cp ∧ cp ≤ 0xdfff then 0xfffd else cp
  if cp ≤ 0x7f then [UInt8.ofNat cp]
  else if cp ≤ 0x7ff then [UInt8.ofNat (0xc0 + cp / 64), UInt8.ofNat (0x80 + cp % 64)]
  else if cp ≤ 0xffff then
    [UInt8.ofNat (0xe0 + cp / 4096), UInt8.ofNat (0x80 + cp / 64 % 64),
      UInt8.ofNat (0x80 + cp % 64)]
  else
    [UInt8.ofNat (0xf0 + cp / 262144), UInt8.ofNat (0x80 + cp / 4096 % 64),
      UInt8.ofNat (0x80 + cp / 64 % 64), UInt8.ofNat (0x80 + cp % 64)]

/-- The code unit of a `\uXXXX` escape; the caller skips its six bytes. -/
def jsonU16 : Bytes → Option Nat
  | a :: b :: c :: d :: e :: f :: _ =>
    if a = ch '\\' ∧ b = ch 'u' then do
      return (((← jsonHex c) * 16 + (← jsonHex d)) * 16 + (← jsonHex e)) * 16 + (← jsonHex f)
    else none
  | _ => none

/-- The code point of the escape at `p` and how many bytes it takes: a high surrogate is joined
with a low one that follows it, and is replaced when none does. -/
def jsonCodePoint (p : Bytes) : Option (Nat × Nat) := do
  let cp ← jsonU16 p
  if 0xd800 ≤ cp ∧ cp ≤ 0xdbff then
    match jsonU16 (p.drop 6) with
    | some lo =>
      if 0xdc00 ≤ lo ∧ lo ≤ 0xdfff then some (0x10000 + (cp - 0xd800) * 1024 + (lo - 0xdc00), 12)
      else some (0xfffd, 6)
    | none => some (0xfffd, 6)
  else some (cp, 6)

def jsonShortEscape (e : UInt8) : Option UInt8 :=
  if e = ch '"' then some (ch '"')
  else if e = ch '\\' then some (ch '\\')
  else if e = ch '/' then some (ch '/')
  else if e = ch 'b' then some 8
  else if e = ch 'f' then some 12
  else if e = ch 'n' then some (ch '\n')
  else if e = ch 'r' then some (ch '\r')
  else if e = ch 't' then some (ch '\t')
  else none

/-- The loop of `json_string`, after the opening quote: the buffer it fills and the text after the
closing quote. -/
def jsonStringLoop : Bytes → Option (Bytes × Bytes)
  | [] => none
  | c :: p =>
    if c = ch '"' then some ([], p)
    else if c ≠ ch '\\' then (jsonStringLoop p).map fun x => (c :: x.1, x.2)
    else
      match p with
      | [] => none
      | e :: q =>
        if e = ch 'u' then
          match jsonCodePoint (c :: e :: q) with
          | none => none
          | some (cp, n) =>
            (jsonStringLoop (q.drop (n - 2))).map fun x => (utf8Put cp ++ x.1, x.2)
        else
          match jsonShortEscape e with
          | none => none
          | some d => (jsonStringLoop q).map fun x => (d :: x.1, x.2)
termination_by p => p.length
decreasing_by all_goals (simp only [List.length_cons, List.length_drop]; omega)

/-- The result is a `char *`, so a decoded NUL ends it. -/
def jsonString (p : Bytes) : Option (Bytes × Bytes) :=
  match skipSpace p with
  | [] => none
  | c :: p => if c = ch '"' then (jsonStringLoop p).map fun x => (cstr x.1, x.2) else none

theorem jsonStringLoop_length : ∀ {x}, jsonStringLoop p = some x → x.2.length < p.length := by
  fun_induction jsonStringLoop p <;> intro x h <;>
    simp_all only [reduceCtorEq, Option.some.injEq, Option.map_eq_some_iff, List.length_cons]
  case case2 => subst h; simp
  case case3 ih => obtain ⟨y, hy, rfl⟩ := h; have := ih hy; simp only; omega
  case case6 ih =>
    obtain ⟨y, hy, rfl⟩ := h
    have := ih hy
    simp only [List.length_drop] at this
    simp only; omega
  case case8 ih => obtain ⟨y, hy, rfl⟩ := h; have := ih hy; simp only; omega

theorem jsonString_length (h : jsonString p = some x) : x.2.length < p.length := by
  rw [jsonString] at h
  have hs := length_skipSpace_le p
  split at h
  · cases h
  · next c q hq =>
    rw [hq, List.length_cons] at hs
    split at h
    · obtain ⟨y, hy, rfl⟩ := Option.map_eq_some_iff.1 h
      have := jsonStringLoop_length hy
      simp only; omega
    · cases h

def jsonLit (p word : Bytes) : Option Bytes := if word <+: p then some (p.drop word.length) else none

def jsonNumber (p : Bytes) : Option Bytes :=
  let p := skipSpace p
  if strtod p = 0 then none else some (p.drop (strtod p))

/-- `json_bool` and `json_skip_value` try the three words in this order. -/
def jsonWord (p : Bytes) : Option Bytes :=
  (jsonLit p (lit "true")).or ((jsonLit p (lit "false")).or (jsonLit p (lit "null")))

/-- A reader that consumes at least one byte. -/
structure Reader where
  read : Bytes → Option Bytes
  shorter : ∀ {p q}, read p = some q → q.length < p.length

/-- The loop over the elements of an array or the members of an object, up to `close`. -/
def jsonSkipSeq (close : UInt8) (f : Reader) (p : Bytes) : Option Bytes :=
  match _h : f.read p with
  | none => none
  | some q =>
    if (skipSpace q).head? = some close then some ((skipSpace q).drop 1)
    else if (skipSpace q).head? = some (ch ',') then jsonSkipSeq close f ((skipSpace q).drop 1)
    else none
termination_by p.length
decreasing_by
  have h1 := f.shorter ‹_›
  have h2 := length_skipSpace_le q
  rw [List.length_drop]
  omega

theorem jsonSkipSeq_eq (h : f.read p = some q) : jsonSkipSeq close f p =
    if (skipSpace q).head? = some close then some ((skipSpace q).drop 1)
    else if (skipSpace q).head? = some (ch ',') then jsonSkipSeq close f ((skipSpace q).drop 1)
    else none := by
  rw [jsonSkipSeq]
  split <;> simp_all

/-- `json_skip_array_depth` and `json_skip_object_depth` after the opening byte. -/
def jsonSkipGroup (close : UInt8) (f : Reader) (p : Bytes) : Option Bytes :=
  match skipSpace p with
  | [] => none
  | c :: r => if c = close then some r else jsonSkipSeq close f (c :: r)

def jsonSkipMember (f : Reader) (p : Bytes) : Option Bytes :=
  match jsonString p with
  | none => none
  | some (_, q) =>
    match skipSpace q with
    | [] => none
    | c :: r => if c = ch ':' then f.read r else none

theorem jsonSkipSeq_length (h : jsonSkipSeq close f p = some q) : q.length < p.length := by
  fun_induction jsonSkipSeq close f p with
  | case1 => cases h
  | case2 p r hf =>
    cases h
    have h1 := f.shorter hf
    have h2 := length_skipSpace_le r
    rw [List.length_drop]
    omega
  | case3 p r hf _ _ ih =>
    have h1 := f.shorter hf
    have h2 := length_skipSpace_le r
    have h3 := ih h
    rw [List.length_drop] at h3
    omega
  | case4 => cases h

theorem jsonSkipGroup_length (h : jsonSkipGroup close f p = some q) : q.length < p.length := by
  have hs := length_skipSpace_le p
  rw [jsonSkipGroup] at h
  split at h
  · cases h
  · next c r hc =>
    rw [hc, List.length_cons] at hs
    split at h
    · cases h; omega
    · have := jsonSkipSeq_length h
      rw [List.length_cons] at this
      omega

def Reader.member (f : Reader) : Reader where
  read := jsonSkipMember f
  shorter := by
    intro p q h
    rw [jsonSkipMember] at h
    split at h
    · cases h
    · next k r hk =>
      have h1 := jsonString_length hk
      have h2 := length_skipSpace_le r
      split at h
      · cases h
      · next c r' hr =>
        rw [hr, List.length_cons] at h2
        split at h
        · have := f.shorter h
          simp only at h1
          omega
        · cases h

theorem jsonNumber_length (h : jsonNumber p = some q) : q.length < p.length := by
  simp only [jsonNumber] at h
  split at h
  · cases h
  · next hp =>
    cases h
    have h1 := (strtod_split (Nat.pos_of_ne_zero hp)).2
    have h2 := length_skipSpace_le p
    rw [List.length_drop]
    omega

theorem jsonWord_length (h : jsonWord p = some q) : q.length < p.length := by
  have key : ∀ {w}, w ≠ [] → jsonLit p w = some q → q.length < p.length := by
    intro w hw h
    rw [jsonLit] at h
    split at h
    · next hp =>
      cases h
      have h1 := hp.length_le
      have h2 := List.length_pos_of_ne_nil hw
      rw [List.length_drop]
      omega
    · cases h
  rw [jsonWord, Option.or_eq_some_iff, Option.or_eq_some_iff] at h
  rcases h with h | ⟨-, h | ⟨-, h⟩⟩
  · exact key (by decide) h
  · exact key (by decide) h
  · exact key (by decide) h

/-- One level of `json_skip_value_depth`; `inner` reads the values one level deeper and is missing
at the nesting limit. -/
def jsonSkipLevel (inner : Option Reader) : Reader where
  read p :=
    match skipSpace p with
    | [] => none
    | c :: r =>
      if c = ch '"' then (jsonString (c :: r)).map (·.2)
      else if c = ch '\x7b' then
        inner.bind fun f => jsonSkipGroup (ch '\x7d') f.member r
      else if c = ch '[' then inner.bind fun f => jsonSkipGroup (ch ']') f r
      else (jsonWord (c :: r)).or (jsonNumber (c :: r))
  shorter := by
    intro p q h
    have hs := length_skipSpace_le p
    split at h
    · cases h
    · next c r hc =>
      rw [hc] at hs
      refine Nat.lt_of_lt_of_le ?_ hs
      have key : ∀ {close f}, jsonSkipGroup close f r = some q → q.length < (c :: r).length :=
        fun h => (jsonSkipGroup_length h).trans (Nat.lt_succ_self _)
      split at h
      · obtain ⟨x, hx, rfl⟩ := Option.map_eq_some_iff.1 h
        exact jsonString_length hx
      split at h
      · obtain ⟨f, -, h⟩ := Option.bind_eq_some_iff.1 h
        exact key h
      split at h
      · obtain ⟨f, -, h⟩ := Option.bind_eq_some_iff.1 h
        exact key h
      rcases Option.or_eq_some_iff.1 h with h | ⟨-, h⟩
      · exact jsonWord_length h
      · exact jsonNumber_length h

/-- `json_skip_value_depth`, over the nesting levels left: `JSON_MAX_NESTING - depth`. -/
def jsonSkipValueDepth : Nat → Reader
  | 0 => jsonSkipLevel none
  | left + 1 => jsonSkipLevel (some (jsonSkipValueDepth left))

def jsonMaxNesting : Nat := 256

def jsonSkipValue (p : Bytes) : Option Bytes := (jsonSkipValueDepth jsonMaxNesting).read p

theorem jsonSkipValue_length (h : jsonSkipValue p = some q) : q.length < p.length :=
  (jsonSkipValueDepth jsonMaxNesting).shorter h

/-- The value's own text and the text after it. -/
def jsonRawValue (p : Bytes) : Option (Bytes × Bytes) :=
  (jsonSkipValue (skipSpace p)).map fun q =>
    ((skipSpace p).take ((skipSpace p).length - q.length), q)

/-- The copy loop of `json_minify_raw_value` with its two flags. -/
def jsonMinifyLoop (inString escape : Bool) : Bytes → Bytes
  | [] => []
  | c :: s =>
    if inString then
      c :: (if escape then jsonMinifyLoop true false s
        else if c = ch '\\' then jsonMinifyLoop true true s
        else if c = ch '"' then jsonMinifyLoop false false s
        else jsonMinifyLoop true false s)
    else if c = ch '"' then c :: jsonMinifyLoop true false s
    else if isspace c then jsonMinifyLoop false false s
    else c :: jsonMinifyLoop false false s

def jsonMinifyRawValue (json : Option Bytes) : Bytes :=
  let p := json.getD (lit "null")
  match jsonRawValue p with
  | none => p
  | some (raw, _) => jsonMinifyLoop false false raw

def hexDigit (n : Nat) : UInt8 := UInt8.ofNat (if n < 10 then 48 + n else 87 + n)

def jsonEscapeByte (c : UInt8) : Bytes :=
  if c = ch '"' ∨ c = ch '\\' then [ch '\\', c]
  else if c = ch '\n' then lit "\\n"
  else if c = ch '\r' then lit "\\r"
  else if c = ch '\t' then lit "\\t"
  else if c < 0x20 then lit "\\u00" ++ [hexDigit (c.toNat / 16), hexDigit (c.toNat % 16)]
  else [c]

def jsonEscapeFragment (s : Bytes) : Bytes := s.flatMap jsonEscapeByte

def jsonEscape (s : Bytes) : Bytes := ch '"' :: (jsonEscapeFragment s ++ [ch '"'])

/-! ## Argument lists -/

structure JsonArg where
  key : Bytes
  value : Bytes
  isString : Bool
  deriving DecidableEq, Repr

/-- One member value: a string is decoded, any other value is kept as minified text. -/
def jsonArgValue (p : Bytes) : Option ((Bytes × Bool) × Bytes) :=
  if p.head? = some (ch '"') then (jsonString p).map fun x => ((x.1, true), x.2)
  else (jsonRawValue p).map fun x => ((jsonMinifyRawValue (some x.1), false), x.2)

/-- One iteration of the loop of `json_args_parse`; the comma after a member is optional. -/
def jsonArgsMember (p : Bytes) : Option (JsonArg × Bytes) :=
  match jsonString p with
  | none => none
  | some (key, q) =>
    match skipSpace q with
    | [] => none
    | c :: r =>
      if c = ch ':' then
        (jsonArgValue (skipSpace r)).map fun x =>
          let rest := skipSpace x.2
          let rest := if rest.head? = some (ch ',') then rest.drop 1 else rest
          (⟨key, x.1.1, x.1.2⟩, skipSpace rest)
      else none

theorem jsonRawValue_length (h : jsonRawValue p = some x) : x.2.length < p.length := by
  obtain ⟨q, hq, rfl⟩ := Option.map_eq_some_iff.1 h
  exact (jsonSkipValue_length hq).trans_le (length_skipSpace_le p)

theorem jsonArgValue_length (h : jsonArgValue p = some x) : x.2.length < p.length := by
  rw [jsonArgValue] at h
  split at h
  · obtain ⟨y, hy, rfl⟩ := Option.map_eq_some_iff.1 h
    exact jsonString_length hy
  · obtain ⟨y, hy, rfl⟩ := Option.map_eq_some_iff.1 h
    exact jsonRawValue_length hy

theorem jsonArgsMember_length (h : jsonArgsMember p = some x) : x.2.length < p.length := by
  rw [jsonArgsMember] at h
  split at h
  · cases h
  · next key q hq =>
    have h1 := jsonString_length hq
    have h2 := length_skipSpace_le q
    split at h
    · cases h
    · next c r hr =>
      rw [hr, List.length_cons] at h2
      split at h
      · obtain ⟨y, hy, rfl⟩ := Option.map_eq_some_iff.1 h
        have h3 := jsonArgValue_length hy
        have h4 := length_skipSpace_le r
        have h5 := length_skipSpace_le y.2
        have h6 : ∀ s : Bytes, (if s.head? = some (ch ',') then s.drop 1 else s).length ≤ s.length := by
          intro s
          split
          · rw [List.length_drop]; omega
          · exact Nat.le_refl _
        have h7 := (length_skipSpace_le _).trans (h6 (skipSpace y.2))
        simp only at h1 ⊢
        omega
      · cases h

def jsonArgsLoop (p : Bytes) : Option (List JsonArg) :=
  if p.head? = some (ch '\x7d') then some []
  else
    match _h : jsonArgsMember p with
    | none => none
    | some (arg, q) => (jsonArgsLoop q).map (arg :: ·)
termination_by p.length
decreasing_by exact jsonArgsMember_length ‹_›

theorem jsonArgsLoop_eq (hp : p.head? ≠ some (ch '\x7d')) (h : jsonArgsMember p = some x) :
    jsonArgsLoop p = (jsonArgsLoop x.2).map (x.1 :: ·) := by
  obtain ⟨arg, q⟩ := x
  rw [jsonArgsLoop, if_neg hp]
  split <;> simp_all

/-- The arguments of a tool call as an ordered list of members; text after the closing brace is
not looked at. -/
def jsonArgsParse (json : Option Bytes) : Option (List JsonArg) :=
  match skipSpace (orEmpty json) with
  | [] => none
  | c :: p => if c = ch '\x7b' then jsonArgsLoop (skipSpace p) else none

end Ds4
