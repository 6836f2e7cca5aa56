import Ds4.Tokenizer.Alphabet

/-!
# Pieces of a text

The two pre-tokenizers: each reads the length of the next piece off the text in front of it. A `Splitter` is such a
function with the proof that a piece is not empty and stays in the text, which the loop over the pieces rests on.
-/

namespace Ds4.Tokenizer
open C

/-- The length of the character at the start of a text. One that is cut off counts as its first byte. -/
def nextUtf8Char (s : Bytes) : Nat :=
  let n := utf8LenFromFirstByte (s.getD 0 0)
  if s.length < n then 1 else n

def utf8PeekOne (s : Bytes) : Nat := utf8Bits (nextUtf8Char s) s

theorem nextUtf8Char_pos (s : Bytes) : 0 < nextUtf8Char s := by
  rw [nextUtf8Char]
  split
  · exact Nat.succ_pos 0
  · exact utf8LenFromFirstByte_pos _

theorem nextUtf8Char_le {s : Bytes} (h : s ≠ []) : nextUtf8Char s ≤ s.length := by
  have := List.length_pos_of_ne_nil h
  rw [nextUtf8Char]
  split <;> omega

/-! ## Runs -/

/-- The bytes at the start of a text that hold. -/
def runLength (p : UInt8 → Bool) (s : Bytes) : Nat := (s.takeWhile p).length

theorem runLength_le (p : UInt8 → Bool) (s : Bytes) : runLength p s ≤ s.length := (List.takeWhile_prefix p).length_le

/-- The length of the characters at the start of a text in front of which `cond` holds. -/
def consumeWhile (cond : Bytes → Bool) (s : Bytes) : Nat :=
  if s = [] then 0
  else if cond s then nextUtf8Char s + consumeWhile cond (s.drop (nextUtf8Char s))
  else 0
termination_by s.length
decreasing_by
  have h1 := nextUtf8Char_pos s
  have h2 := List.length_pos_of_ne_nil ‹_›
  rw [List.length_drop]
  omega

theorem consumeWhile_le (cond : Bytes → Bool) (s : Bytes) : consumeWhile cond s ≤ s.length := by
  fun_induction consumeWhile cond s with
  | case1 => exact Nat.le_refl _
  | case2 s hne _ ih =>
    have := nextUtf8Char_le hne
    rw [List.length_drop] at ih
    omega
  | case3 => exact Nat.zero_le _

theorem consumeWhile_pos {cond : Bytes → Bool} {s : Bytes} (hne : s ≠ []) (h : cond s = true) :
    0 < consumeWhile cond s := by
  rw [consumeWhile, if_neg hne, if_pos h]
  exact Nat.add_pos_left (nextUtf8Char_pos s) _

/-! ## Character classes -/

def asciiAlpha (c : UInt8) : Bool := ch 'A' ≤ c && c ≤ ch 'Z' || ch 'a' ≤ c && c ≤ ch 'z'

def asciiDigit (c : UInt8) : Bool := ch '0' ≤ c && c ≤ ch '9'

def asciiSpace (c : UInt8) : Bool :=
  c == ch ' ' || c == ch '\t' || c == ch '\n' || c == ch '\r' || c == 0x0b || c == 0x0c

def asciiNewline (c : UInt8) : Bool := c == ch '\n' || c == ch '\r'

def joyaiAsciiPunctSymbol (c : UInt8) : Bool :=
  ch '!' ≤ c && c ≤ ch '/' || ch ':' ≤ c && c ≤ ch '@' || 0x5b ≤ c && c ≤ 0x60 || 0x7b ≤ c && c ≤ ch '~'

/-- A line end is white space, and no byte is in two of the other classes. -/
theorem byteClasses (b : UInt8) :
    (asciiNewline b = true → asciiSpace b = true) ∧
    (asciiDigit b = true → asciiAlpha b = false ∧ joyaiAsciiPunctSymbol b = false ∧ asciiSpace b = false) ∧
    (joyaiAsciiPunctSymbol b = true → asciiAlpha b = false ∧ asciiDigit b = false ∧ asciiSpace b = false) ∧
    (asciiSpace b = true → asciiAlpha b = false ∧ asciiDigit b = false ∧ joyaiAsciiPunctSymbol b = false) := by
  revert b
  exact forall_byte (by decide +kernel)

/-- Each printed byte of ASCII is in a class, and no other byte than those of ASCII is. -/
theorem byteClasses_ascii (b : UInt8) :
    (32 ≤ b.toNat ∧ b.toNat < 127 →
      asciiDigit b = true ∨ asciiAlpha b = true ∨ joyaiAsciiPunctSymbol b = true ∨ asciiSpace b = true) ∧
    (asciiDigit b = true ∨ asciiAlpha b = true ∨ joyaiAsciiPunctSymbol b = true ∨ asciiSpace b = true →
      b < 128 ∧ b ≠ 0) := by
  revert b
  exact forall_byte (by decide +kernel)

def inRanges (l : List (Nat × Nat)) (cp : Nat) : Bool := l.any fun r => r.1 ≤ cp && cp ≤ r.2

def utf8IsCjkHiraKata (cp : Nat) : Bool := inRanges [(0x4e00, 0x9fa5), (0x3040, 0x309f), (0x30a0, 0x30ff)] cp

/-- Every byte outside ASCII counts as part of a letter. -/
def joyaiLetterLikeAt (s : Bytes) : Bool :=
  let c := s.getD 0 0
  if c < 128 then asciiAlpha c else true

def joyaiCjkAt (s : Bytes) : Bool := if s.getD 0 0 < 128 then false else utf8IsCjkHiraKata (utf8PeekOne s)

def joyaiConsumeLetters (s : Bytes) : Nat := consumeWhile joyaiLetterLikeAt s

def glm4UnicodeWhitespace (cp : Nat) : Bool :=
  if cp < 128 then asciiSpace (UInt8.ofNat cp)
  else inRanges [(0x85, 0x85), (0xa0, 0xa0), (0x1680, 0x1680), (0x2000, 0x200a), (0x2028, 0x2028), (0x2029, 0x2029),
    (0x202f, 0x202f), (0x205f, 0x205f), (0x3000, 0x3000)] cp

def glm4UnicodeNumber (cp : Nat) : Bool :=
  if cp < 128 then asciiDigit (UInt8.ofNat cp)
  else inRanges [(0x0660, 0x0669), (0x06f0, 0x06f9), (0x07c0, 0x07c9), (0x0966, 0x096f), (0x09e6, 0x09ef),
    (0x0a66, 0x0a6f), (0x0ae6, 0x0aef), (0x0b66, 0x0b6f), (0x0be6, 0x0bef), (0x0c66, 0x0c6f), (0x0ce6, 0x0cef),
    (0x0d66, 0x0d6f), (0x0de6, 0x0def), (0x0e50, 0x0e59), (0x0ed0, 0x0ed9), (0x0f20, 0x0f29), (0x1040, 0x1049),
    (0x1090, 0x1099), (0x17e0, 0x17e9), (0x1810, 0x1819), (0xff10, 0xff19)] cp

def glm4UnicodePunctSymbol (cp : Nat) : Bool :=
  if cp < 128 then joyaiAsciiPunctSymbol (UInt8.ofNat cp)
  else inRanges [(0xa1, 0xa9), (0xab, 0xac), (0xae, 0xb1), (0xb4, 0xb4), (0xb6, 0xb8), (0xbb, 0xbb), (0xbf, 0xbf),
    (0xd7, 0xd7), (0xf7, 0xf7), (0x02c2, 0x02df), (0x02e5, 0x02eb), (0x02ed, 0x02ff), (0x0375, 0x037e),
    (0x0384, 0x0385), (0x0387, 0x0387), (0x055a, 0x055f), (0x0589, 0x058a), (0x05be, 0x05c0), (0x05c3, 0x05c3),
    (0x05c6, 0x05c7), (0x0609, 0x060a), (0x060c, 0x060d), (0x061b, 0x061b), (0x061e, 0x061f), (0x066a, 0x066a),
    (0x066d, 0x066d), (0x06d4, 0x06d4), (0x2000, 0x206f), (0x20a0, 0x20cf), (0x2100, 0x214f), (0x2190, 0x23ff),
    (0x2460, 0x24ff), (0x2500, 0x2775), (0x2794, 0x2bff), (0x2e00, 0x2e7f), (0x3000, 0x303f), (0xfd3e, 0xfd3f),
    (0xfe10, 0xfe6f), (0xff01, 0xff0f), (0xff1a, 0xff20), (0xff3b, 0xff40), (0xff5b, 0xff65), (0x1f000, 0x1faff)] cp

/-! ## DeepSeek -/

/-- The white space from offset `pos` on: its end, and the end of the last newline in it. -/
def joyaiSpaces (pos lastNewlineEnd : Nat) : Bytes → Nat × Nat
  | [] => (pos, lastNewlineEnd)
  | c :: s =>
    if asciiSpace c then joyaiSpaces (pos + 1) (if asciiNewline c then pos + 1 else lastNewlineEnd) s
    else (pos, lastNewlineEnd)

/-- The piece that the text in front starts with, 0 when no rule applies. -/
def joyaiRule (s : Bytes) : Nat :=
  let c := s.getD 0 0
  if asciiDigit c then runLength asciiDigit (s.take 3)
  else if joyaiCjkAt s then nextUtf8Char s + consumeWhile joyaiCjkAt (s.drop (nextUtf8Char s))
  else if joyaiAsciiPunctSymbol c ∧ 1 < s.length ∧ asciiAlpha (s.getD 1 0) then 1 + runLength asciiAlpha (s.drop 1)
  else if joyaiLetterLikeAt s then joyaiConsumeLetters s
  else if ¬asciiNewline c ∧ ¬joyaiAsciiPunctSymbol c ∧ 1 < s.length ∧ joyaiLetterLikeAt (s.drop 1) then
    1 + joyaiConsumeLetters (s.drop 1)
  else if c = ch ' ' ∧ 1 < s.length ∧ joyaiAsciiPunctSymbol (s.getD 1 0) then
    let p := 1 + runLength joyaiAsciiPunctSymbol (s.drop 1)
    p + runLength asciiNewline (s.drop p)
  else if joyaiAsciiPunctSymbol c then
    let p := runLength joyaiAsciiPunctSymbol s
    p + runLength asciiNewline (s.drop p)
  else if asciiSpace c then
    let (p, lastNewlineEnd) := joyaiSpaces 0 0 s
    if lastNewlineEnd ≠ 0 then lastNewlineEnd
    -- a single blank joins the word behind it
    else if p < s.length ∧ 1 < p ∧ (joyaiLetterLikeAt (s.drop p) ∨ joyaiAsciiPunctSymbol (s.getD p 0)) then p - 1
    else p
  else nextUtf8Char s

def joyaiPiece (s : Bytes) : Nat := if joyaiRule s = 0 then nextUtf8Char s else joyaiRule s

theorem joyaiSpaces_le {pos last : Nat} {s : Bytes} (h : last ≤ pos) :
    (joyaiSpaces pos last s).2 ≤ (joyaiSpaces pos last s).1 ∧ (joyaiSpaces pos last s).1 ≤ pos + s.length := by
  induction s generalizing pos last with
  | nil => exact ⟨h, Nat.le_refl _⟩
  | cons c s ih =>
    rw [joyaiSpaces]
    split
    · obtain ⟨h1, h2⟩ := @ih (pos + 1) (if asciiNewline c then pos + 1 else last) (by split <;> omega)
      exact ⟨h1, h2.trans (by rw [List.length_cons]; omega)⟩
    · exact ⟨h, Nat.le_add_right _ _⟩

theorem joyaiRule_le {s : Bytes} (hne : s ≠ []) : joyaiRule s ≤ s.length := by
  have hlen := List.length_pos_of_ne_nil hne
  have hnext := nextUtf8Char_le hne
  -- a run behind the first `n` bytes ends in the text
  have hrun : ∀ p n, n ≤ s.length → n + runLength p (s.drop n) ≤ s.length := by
    intro p n hn
    have := runLength_le p (s.drop n)
    rw [List.length_drop] at this
    omega
  have hchars : ∀ p n, n ≤ s.length → n + consumeWhile p (s.drop n) ≤ s.length := by
    intro p n hn
    have := consumeWhile_le p (s.drop n)
    rw [List.length_drop] at this
    omega
  rw [joyaiRule]
  dsimp only
  split
  · exact (runLength_le _ _).trans (List.length_take_le' _ _)
  split
  · exact hchars _ _ hnext
  split
  · exact hrun _ _ hlen
  split
  · exact consumeWhile_le _ _
  split
  · exact hchars _ _ hlen
  split
  · exact hrun _ _ (hrun _ _ hlen)
  split
  · exact hrun _ _ (runLength_le _ _)
  split
  · obtain ⟨h1, h2⟩ := joyaiSpaces_le (s := s) (Nat.le_refl 0)
    split <;> [skip; split] <;> omega
  · exact hnext

/-! ## GLM -/

structure Glm4CharInfo where
  cp : Nat
  next : Nat
  valid : Bool
  isLetter : Bool
  isNumber : Bool
  isWhitespace : Bool

/-- The character at the start of a text; none at the end. -/
def glm4CharAt (s : Bytes) : Glm4CharInfo :=
  if s = [] then ⟨0, 0, false, false, false, false⟩
  else
    let cp := utf8PeekOne s
    let isWhitespace := glm4UnicodeWhitespace cp
    let isNumber := glm4UnicodeNumber cp
    let isLetter :=
      if cp < 128 then asciiAlpha (UInt8.ofNat cp)
      else !isWhitespace && !isNumber && !glm4UnicodePunctSymbol cp
    ⟨cp, nextUtf8Char s, true, isLetter, isNumber, isWhitespace⟩

theorem glm4CharAt_of_ne_nil {s : Bytes} (h : s ≠ []) :
    (glm4CharAt s).valid = true ∧ (glm4CharAt s).next = nextUtf8Char s := by
  rw [glm4CharAt, if_neg h]
  exact ⟨rfl, rfl⟩

theorem glm4CharAt_next_le (s : Bytes) : (glm4CharAt s).next ≤ s.length := by
  by_cases h : s = []
  · rw [glm4CharAt, if_pos h]
    exact Nat.zero_le _
  · rw [(glm4CharAt_of_ne_nil h).2]
    exact nextUtf8Char_le h

def asciiTolowerCp (cp : Nat) : Nat := if 0x41 ≤ cp ∧ cp ≤ 0x5a then cp + 0x20 else cp

/-- The characters in front of which a scan holds. -/
def glm4Run (cond : Glm4CharInfo → Bool) (s : Bytes) : Nat :=
  consumeWhile (fun s => (glm4CharAt s).valid && cond (glm4CharAt s)) s

/-- At most `n` digits. -/
def glm4Digits : Nat → Bytes → Nat
  | 0, _ => 0
  | n + 1, s =>
    let scan := glm4CharAt s
    if scan.valid && scan.isNumber then scan.next + glm4Digits n (s.drop scan.next) else 0

/-- White space up to `p`. -/
structure SpaceRun where
  p : Nat
  lastNewlineEnd : Nat
  lastWsStart : Nat
  nspace : Nat

def glm4Newline (cp : Nat) : Bool := cp == (ch '\r').toNat || cp == (ch '\n').toNat

def SpaceRun.push (r : SpaceRun) (scan : Glm4CharInfo) : SpaceRun where
  p := r.p + scan.next
  lastNewlineEnd := if glm4Newline scan.cp then r.p + scan.next else r.lastNewlineEnd
  lastWsStart := r.p
  nspace := r.nspace + 1

/-- The characters of white space behind those of `r`. -/
def glm4Spaces (r : SpaceRun) (s : Bytes) : SpaceRun :=
  if s = [] then r
  else if (glm4CharAt s).valid && (glm4CharAt s).isWhitespace then
    glm4Spaces (r.push (glm4CharAt s)) (s.drop (glm4CharAt s).next)
  else r
termination_by s.length
decreasing_by
  have h1 := nextUtf8Char_pos s
  have h2 := List.length_pos_of_ne_nil ‹_›
  rw [(glm4CharAt_of_ne_nil ‹_›).2, List.length_drop]
  omega

/-- An apostrophe with one of the endings of English contractions. -/
def glm4Contraction (s : Bytes) : Option Nat :=
  let cur := glm4CharAt s
  if cur.cp = (ch '\'').toNat ∧ cur.next < s.length then
    let next := glm4CharAt (s.drop cur.next)
    let n1 := asciiTolowerCp next.cp
    if n1 = (ch 's').toNat ∨ n1 = (ch 't').toNat ∨ n1 = (ch 'm').toNat ∨ n1 = (ch 'd').toNat then
      some (cur.next + next.next)
    else if next.valid ∧ cur.next + next.next < s.length then
      let next2 := glm4CharAt (s.drop (cur.next + next.next))
      let n2 := asciiTolowerCp next2.cp
      if n1 = (ch 'r').toNat ∧ n2 = (ch 'e').toNat ∨ n1 = (ch 'v').toNat ∧ n2 = (ch 'e').toNat ∨
          n1 = (ch 'l').toNat ∧ n2 = (ch 'l').toNat then
        some (cur.next + next.next + next2.next)
      else none
    else none
  else none

/-- Where the punctuation of a piece may start: one blank is left out. -/
def glm4PunctPos (s : Bytes) : Nat := if (glm4CharAt s).cp = (ch ' ').toNat then (glm4CharAt s).next else 0

def glm4IsPunct (scan : Glm4CharInfo) : Bool := !(scan.isWhitespace || scan.isLetter || scan.isNumber)

/-- The end of the punctuation from `pos` on and the newlines behind it. -/
def glm4PunctEnd (s : Bytes) (pos : Nat) : Nat :=
  let p := pos + glm4Run glm4IsPunct (s.drop pos)
  p + glm4Run (fun scan => glm4Newline scan.cp) (s.drop p)

/-- The last character of white space joins the word behind it, unless there is a newline. -/
def glm4SpaceEnd (s : Bytes) : Nat :=
  let r := glm4Spaces ⟨0, 0, 0, 0⟩ s
  if r.lastNewlineEnd ≠ 0 then r.lastNewlineEnd
  else if 1 < r.nspace ∧ r.p < s.length then r.lastWsStart
  else r.p

def glm4Piece (s : Bytes) : Nat :=
  let cur := glm4CharAt s
  let punct := glm4CharAt (s.drop (glm4PunctPos s))
  match glm4Contraction s with
  | some n => n
  | none =>
    if ¬(glm4Newline cur.cp ∨ cur.isNumber) ∧ (cur.isLetter ∨ (glm4CharAt (s.drop cur.next)).isLetter) then
      cur.next + glm4Run (·.isLetter) (s.drop cur.next)
    else if cur.isNumber then glm4Digits 3 s
    else if punct.valid ∧ glm4IsPunct punct then glm4PunctEnd s (glm4PunctPos s)
    else if cur.isWhitespace then glm4SpaceEnd s
    else if cur.next = 0 then nextUtf8Char s
    else cur.next

theorem glm4Digits_le (n : Nat) (s : Bytes) : glm4Digits n s ≤ s.length := by
  induction n generalizing s with
  | zero => exact Nat.zero_le _
  | succ n ih =>
    have h1 := glm4CharAt_next_le s
    have h2 := ih (s.drop (glm4CharAt s).next)
    rw [List.length_drop] at h2
    rw [glm4Digits]
    split <;> omega

/-- What the loop over white space keeps. -/
structure SpaceRun.Ok (r : SpaceRun) : Prop where
  newline : r.lastNewlineEnd ≤ r.p
  start : r.lastWsStart ≤ r.p
  second : 1 < r.nspace → 0 < r.lastWsStart
  first : 0 < r.nspace → 0 < r.p

theorem SpaceRun.Ok.push {r : SpaceRun} {scan : Glm4CharInfo} (h : r.Ok) (hscan : 0 < scan.next) :
    (r.push scan).Ok where
  newline := by
    have := h.newline
    have hp : (r.push scan).p = r.p + scan.next := rfl
    have hend : (r.push scan).lastNewlineEnd =
      if glm4Newline scan.cp then r.p + scan.next else r.lastNewlineEnd := rfl
    rw [hp, hend]
    split <;> omega
  start := Nat.le_add_right _ _
  second := fun hn => h.first (Nat.lt_of_succ_lt_succ hn)
  first := fun _ => Nat.add_pos_right _ hscan

theorem glm4Spaces_spec {r : SpaceRun} {s : Bytes} (h : r.Ok) :
    (glm4Spaces r s).Ok ∧ r.p ≤ (glm4Spaces r s).p ∧ (glm4Spaces r s).p ≤ r.p + s.length := by
  fun_induction glm4Spaces r s with
  | case1 r => exact ⟨h, Nat.le_refl _, Nat.le_add_right _ _⟩
  | case2 r s hne hscan ih =>
    have hnext := (glm4CharAt_of_ne_nil hne).2
    have hle := glm4CharAt_next_le s
    obtain ⟨h1, h2, h3⟩ := ih (h.push (hnext ▸ nextUtf8Char_pos s))
    rw [List.length_drop] at h3
    have hp : (r.push (glm4CharAt s)).p = r.p + (glm4CharAt s).next := rfl
    exact ⟨h1, by omega, by omega⟩
  | case3 r s => exact ⟨h, Nat.le_refl _, Nat.le_add_right _ _⟩

theorem glm4Contraction_some {s : Bytes} {n : Nat} (h : glm4Contraction s = some n) : 0 < n ∧ n ≤ s.length := by
  have hle : ∀ m, m ≤ s.length → m + (glm4CharAt (s.drop m)).next ≤ s.length := by
    intro m hm
    have := glm4CharAt_next_le (s.drop m)
    rw [List.length_drop] at this
    omega
  have hpos : s ≠ [] → 0 < (glm4CharAt s).next := fun hne => (glm4CharAt_of_ne_nil hne).2 ▸ nextUtf8Char_pos s
  rw [glm4Contraction] at h
  dsimp only at h
  split at h
  · next hcur =>
    have hne : s ≠ [] := List.ne_nil_of_length_pos (Nat.zero_lt_of_lt hcur.2)
    have h1 := hle _ hcur.2.le
    split at h
    · cases h
      exact ⟨Nat.add_pos_left (hpos hne) _, h1⟩
    split at h
    · split at h
      · cases h
        exact ⟨Nat.add_pos_left (Nat.add_pos_left (hpos hne) _) _, hle _ h1⟩
      · cases h
    · cases h
  · cases h

theorem glm4Run_le (cond : Glm4CharInfo → Bool) {s : Bytes} {n : Nat} (hn : n ≤ s.length) :
    n + glm4Run cond (s.drop n) ≤ s.length := by
  have := consumeWhile_le (fun s => (glm4CharAt s).valid && cond (glm4CharAt s)) (s.drop n)
  rw [List.length_drop] at this
  rw [glm4Run]
  omega

theorem glm4PunctPos_le (s : Bytes) : glm4PunctPos s ≤ s.length := by
  rw [glm4PunctPos]
  split
  · exact glm4CharAt_next_le s
  · exact Nat.zero_le _

theorem glm4PunctEnd_spec {s : Bytes} {pos : Nat} (hle : pos ≤ s.length)
    (hvalid : (glm4CharAt (s.drop pos)).valid = true) (h : glm4IsPunct (glm4CharAt (s.drop pos)) = true) :
    0 < glm4PunctEnd s pos ∧ glm4PunctEnd s pos ≤ s.length := by
  have hne : s.drop pos ≠ [] := by
    intro hnil
    rw [hnil] at hvalid
    cases hvalid
  have hrun : 0 < glm4Run glm4IsPunct (s.drop pos) :=
    consumeWhile_pos hne (by rw [hvalid, h]; rfl)
  exact ⟨Nat.add_pos_left (Nat.add_pos_right _ hrun) _, glm4Run_le _ (glm4Run_le _ hle)⟩

theorem glm4SpaceEnd_spec {s : Bytes} (hne : s ≠ []) (h : (glm4CharAt s).isWhitespace = true) :
    0 < glm4SpaceEnd s ∧ glm4SpaceEnd s ≤ s.length := by
  have hok : (⟨0, 0, 0, 0⟩ : SpaceRun).Ok :=
    ⟨Nat.le_refl _, Nat.le_refl _, fun h => absurd h (by decide), fun h => absurd h (by decide)⟩
  obtain ⟨hvalid, hnext⟩ := glm4CharAt_of_ne_nil hne
  obtain ⟨hok', -, hle⟩ := glm4Spaces_spec (s := s) hok
  -- the run takes at least the character in front
  have hp : 0 < (glm4Spaces ⟨0, 0, 0, 0⟩ s).p := by
    have hpush : (SpaceRun.push ⟨0, 0, 0, 0⟩ (glm4CharAt s)).Ok := hok.push (hnext ▸ nextUtf8Char_pos s)
    rw [glm4Spaces, if_neg hne, hvalid, h, Bool.and_self, if_pos rfl]
    exact (hpush.first (Nat.succ_pos 0)).trans_le (glm4Spaces_spec hpush).2.1
  have h1 := hok'.newline
  have h2 := hok'.start
  have h3 := hok'.second
  rw [Nat.zero_add] at hle
  rw [glm4SpaceEnd]
  split <;> [skip; split] <;> omega

/-- A piece is not empty and stays in the text. -/
theorem glm4Piece_spec {s : Bytes} (hne : s ≠ []) : 0 < glm4Piece s ∧ glm4Piece s ≤ s.length := by
  obtain ⟨hvalid, hnext⟩ := glm4CharAt_of_ne_nil hne
  have hpos := nextUtf8Char_pos s
  have hle := glm4CharAt_next_le s
  rw [glm4Piece]
  split
  · next n hn => exact glm4Contraction_some hn
  split
  · exact ⟨Nat.add_pos_left (hnext ▸ hpos) _, glm4Run_le _ hle⟩
  split
  · next hnumber =>
    refine ⟨?_, glm4Digits_le 3 s⟩
    rw [glm4Digits, hvalid, hnumber, Bool.and_self, if_pos rfl]
    exact Nat.add_pos_left (hnext ▸ hpos) _
  split
  · next hpunct => exact glm4PunctEnd_spec (glm4PunctPos_le s) hpunct.1 hpunct.2
  split
  · next hspace => exact glm4SpaceEnd_spec hne hspace
  split
  · exact ⟨hpos, nextUtf8Char_le hne⟩
  · exact ⟨hnext ▸ hpos, hle⟩

/-! ## The pieces -/

/-- A rule for the length of the next piece. -/
structure Splitter where
  piece : Bytes → Nat
  spec : ∀ {s : Bytes}, s ≠ [] → 0 < piece s ∧ piece s ≤ s.length

def joyai : Splitter where
  piece := joyaiPiece
  spec := fun {s} hne => by
    rw [joyaiPiece]
    split
    · exact ⟨nextUtf8Char_pos s, nextUtf8Char_le hne⟩
    · next h => exact ⟨Nat.pos_of_ne_zero h, joyaiRule_le hne⟩

def glm4 : Splitter := ⟨glm4Piece, glm4Piece_spec⟩

def Splitter.pieces (p : Splitter) (s : Bytes) : List Bytes :=
  if s = [] then [] else s.take (p.piece s) :: p.pieces (s.drop (p.piece s))
termination_by s.length
decreasing_by
  have h1 := (p.spec ‹_›).1
  have h2 := List.length_pos_of_ne_nil ‹_›
  rw [List.length_drop]
  omega

/-- The pieces are consecutive, cover the text and are not empty. -/
theorem Splitter.pieces_spec (p : Splitter) (s : Bytes) :
    (p.pieces s).flatten = s ∧ ∀ piece ∈ p.pieces s, piece ≠ [] := by
  fun_induction p.pieces s with
  | case1 => exact ⟨rfl, fun _ h => by cases h⟩
  | case2 s hne ih =>
    rw [List.flatten_cons, ih.1, List.take_append_drop]
    refine ⟨rfl, List.forall_mem_cons.mpr ⟨fun hnil => ?_, ih.2⟩⟩
    obtain ⟨hpos, hle⟩ := p.spec hne
    have hlen := congrArg List.length hnil
    rw [List.length_take, Nat.min_eq_left hle, List.length_nil] at hlen
    omega

end Ds4.Tokenizer
