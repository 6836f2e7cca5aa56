import Mathlib.Data.Nat.Find
import Ds4.Agent.Read

/-!
# Reading on

The chunks of `read` and `more` follow each other in the file without a gap. A chunk ends inside a character exactly when
the label of a line, which counts for the budget, uses up what the budget leaves for the first character of the line.
-/

namespace Ds4.Agent
open C

/-! ## The lines of a file -/

/-- A line starts at `p`: at the start of the file and behind a line ending. -/
def lineStart (file : Bytes) (p : Nat) : Bool :=
  p == 0 || file[p - 1]? == some (ch '\n') || (file[p - 1]? == some (ch '\r') && file[p]? != some (ch '\n'))

/-- The number of the line of `p`. -/
def lineNo (file : Bytes) (p : Nat) : Nat := 1 + (List.range p).countP fun q => lineStart file (q + 1)

def lineCount (file : Bytes) : Nat := (List.range file.length).countP (lineStart file)

/-- Where a line starts, or the end of the file if it has no such line. -/
def lineOffset (file : Bytes) (n : Nat) : Nat :=
  ((List.range file.length).find? fun p => decide (n ≤ lineNo file p)).getD file.length

/-- The two bytes of a line ending are not taken apart. -/
def Unsplit (file : Bytes) (p : Nat) : Prop := p = 0 ∨ file[p - 1]? ≠ some (ch '\r') ∨ file[p]? ≠ some (ch '\n')

/-- Every line ending as `\n`. -/
def toLf : Bytes → Bytes
  | [] => []
  | c :: s => if c = ch '\r' then if s.head? = some (ch '\n') then toLf s else ch '\n' :: toLf s else c :: toLf s

section
variable {file : Bytes} {p q n : Nat} {c : UInt8}

theorem lineStart_zero : lineStart file 0 = true := rfl

theorem lineStart_succ (hc : file[p]? = some c) :
    lineStart file (p + 1) = (c == ch '\n' || c == ch '\r' && file[p + 1]? != some (ch '\n')) := by
  rw [lineStart, Nat.add_sub_cancel, hc]
  simp only [beq_eq_false_iff_ne.mpr (Nat.succ_ne_zero p), Bool.false_or, Option.some_beq_some]

theorem lineNo_zero : lineNo file 0 = 1 := rfl

theorem lineNo_succ : lineNo file (p + 1) = lineNo file p + if lineStart file (p + 1) then 1 else 0 := by
  rw [lineNo, lineNo, List.range_succ, List.countP_append, List.countP_singleton, Nat.add_assoc]

theorem lineNo_le_succ : lineNo file p ≤ lineNo file (p + 1) := by
  rw [lineNo_succ]
  exact Nat.le_add_right _ _

theorem lineNo_mono (h : p ≤ q) : lineNo file p ≤ lineNo file q := by
  induction h with
  | refl => exact Nat.le_refl _
  | step _ ih => exact ih.trans lineNo_le_succ

theorem lineNo_pos : 0 < lineNo file p := Nat.lt_of_lt_of_le Nat.one_pos (Nat.le_add_right _ _)

theorem lineNo_eq_countP : lineNo file p = (List.range (p + 1)).countP (lineStart file) := by
  rw [lineNo, List.range_succ_eq_map, List.countP_cons, List.countP_map, if_pos lineStart_zero, Nat.add_comm]
  rfl

theorem lineNo_le_lineCount (h : p < file.length) : lineNo file p ≤ lineCount file := by
  rw [lineNo_eq_countP, lineCount]
  exact (List.range_sublist.mpr h).countP_le

end

/-! ## What a chunk shows -/

/-- The label in front of `p` in a chunk that starts at `a`. -/
def labelAt (file : Bytes) (a p : Nat) : Bytes :=
  if p = a ∨ lineStart file p then readLabel (lineNo file p) (!lineStart file p) else []

/-- What a numbered chunk shows of the byte at `p`. -/
def lfAt (file : Bytes) (p : Nat) : Bytes :=
  match file[p]? with
  | none => []
  | some c => if c = ch '\r' then if file[p + 1]? = some (ch '\n') then [] else [ch '\n'] else [c]

/-- The file from `a` up to `b` as a numbered chunk that starts at `a`. -/
def numbered (file : Bytes) (a b : Nat) : Bytes :=
  (List.range' a (b - a)).flatMap fun p => labelAt file a p ++ lfAt file p

def chunkBody (bare : Bool) (file : Bytes) (a b : Nat) : Bytes :=
  if bare then (file.take b).drop a else numbered file a b

/-- Where the character at `p` ends; the two bytes of a line ending are one. -/
def nextPos (file : Bytes) (p : Nat) : Nat :=
  if file[p]? = some (ch '\r') ∧ file[p + 1]? = some (ch '\n') then p + 2 else p + 1

section
variable {file : Bytes} {a b p q : Nat} {c : UInt8} {bare : Bool}

theorem numbered_self : numbered file a a = [] := by rw [numbered, Nat.sub_self]; rfl

theorem chunkBody_self : chunkBody bare file a a = [] := by
  cases bare with
  | false => exact numbered_self
  | true => exact List.drop_eq_nil_of_le (List.length_take_le ..)

theorem numbered_succ (h : a ≤ p) : numbered file a (p + 1) = numbered file a p ++ (labelAt file a p ++ lfAt file p) := by
  rw [numbered, numbered, Nat.succ_sub h, List.range'_1_concat, List.flatMap_append, List.flatMap_singleton,
    Nat.add_sub_cancel' h]

theorem take_drop_succ (h : a ≤ p) (hc : file[p]? = some c) : (file.take (p + 1)).drop a = (file.take p).drop a ++ [c] := by
  rw [List.take_add_one, hc, List.drop_append_of_le_length]
  · rfl
  · rw [List.length_take, Nat.min_eq_left (List.getElem?_eq_some_iff.mp hc).1.le]
    exact h

theorem drop_take_append (h : a ≤ b) : (file.take b).drop a ++ file.drop b = file.drop a := by
  rw [List.drop_take]
  conv_lhs => rw [← Nat.add_sub_cancel' h, ← List.drop_drop, Nat.add_sub_cancel_left]
  exact List.take_append_drop _ _

theorem lt_nextPos : p < nextPos file p := by
  rw [nextPos]
  split <;> omega

theorem nextPos_le (h : p < file.length) : nextPos file p ≤ file.length := by
  rw [nextPos]
  split
  · next hcrlf => exact (List.getElem?_eq_some_iff.mp hcrlf.2).1
  · exact h

theorem head?_drop_succ : (file.drop (p + 1)).head? = file[p + 1]? := List.head?_drop

/-- The loop goes on at the end of the character. -/
theorem afterChar_drop (hc : file[p]? = some c) : afterChar c (file.drop (p + 1)) = file.drop (nextPos file p) := by
  rw [afterChar, nextPos, head?_drop_succ, hc]
  simp only [Option.some.injEq]
  split
  · rw [List.drop_drop]
  · rfl

theorem take_drop_next (h : a ≤ p) (hc : file[p]? = some c) :
    (file.take (nextPos file p)).drop a = (file.take p).drop a ++ shownChar true c (file.drop (p + 1)) := by
  rw [nextPos, hc, shownChar, head?_drop_succ]
  by_cases hcr : c = ch '\r'
  · rw [if_pos hcr]
    by_cases hlf : file[p + 1]? = some (ch '\n')
    · rw [if_pos ⟨congrArg some hcr, hlf⟩, if_pos hlf, take_drop_succ (Nat.le_succ_of_le h) hlf, take_drop_succ h hc,
        List.append_assoc]
      rfl
    · rw [if_neg fun hand => hlf hand.2, if_neg hlf, take_drop_succ h hc]
      rfl
  · rw [if_neg fun hand => hcr (Option.some.inj hand.1), if_neg hcr, take_drop_succ h hc]

/-- No label stands between the two bytes of a line ending. -/
theorem labelAt_crlf (h : a ≤ p) (hc : file[p]? = some (ch '\r')) (hlf : file[p + 1]? = some (ch '\n')) :
    labelAt file a (p + 1) = [] := by
  have hstart : lineStart file (p + 1) = false := by
    rw [lineStart_succ hc, hlf]
    rfl
  rw [labelAt, hstart, if_neg]
  intro hor
  exact hor.elim (by omega) Bool.false_ne_true

theorem numbered_next (h : a ≤ p) (hc : file[p]? = some c) :
    numbered file a (nextPos file p) = numbered file a p ++ labelAt file a p ++ shownChar false c (file.drop (p + 1)) := by
  rw [nextPos, hc, shownChar, head?_drop_succ]
  by_cases hcr : c = ch '\r'
  · rw [if_pos hcr]
    by_cases hlf : file[p + 1]? = some (ch '\n')
    · rw [if_pos ⟨congrArg some hcr, hlf⟩, if_pos hlf, numbered_succ (Nat.le_succ_of_le h), numbered_succ h,
        labelAt_crlf h (hcr ▸ hc) hlf, lfAt, hc, lfAt, hlf]
      dsimp only
      rw [if_pos hcr, if_pos rfl, if_neg (by decide), List.append_nil]
      rfl
    · rw [if_neg fun hand => hlf hand.2, if_neg hlf, numbered_succ h, lfAt, hc]
      dsimp only
      rw [if_pos hcr, if_neg hlf, List.append_assoc]
      rfl
  · rw [if_neg fun hand => hcr (Option.some.inj hand.1), if_neg hcr, numbered_succ h, lfAt, hc]
    dsimp only
    rw [if_neg hcr, List.append_assoc]

/-- A chunk that is one character longer. -/
theorem chunkBody_next (h : a ≤ p) (hc : file[p]? = some c) :
    chunkBody bare file a (nextPos file p) =
      chunkBody bare file a p ++ (if bare then [] else labelAt file a p) ++ shownChar bare c (file.drop (p + 1)) := by
  cases bare with
  | true =>
    rw [chunkBody, if_pos rfl, take_drop_next h hc, if_pos rfl, List.append_nil]
    rfl
  | false =>
    rw [chunkBody, if_neg Bool.false_ne_true, numbered_next h hc, if_neg Bool.false_ne_true]
    rfl

/-! ### The characters of the loop -/

theorem unsplit_nextPos : Unsplit file (nextPos file p) := by
  rw [nextPos]
  split
  · next h =>
    right
    left
    show file[p + 1]? ≠ _
    rw [h.2]
    decide
  · next h =>
    by_cases hcr : file[p]? = some (ch '\r')
    · exact .inr (.inr fun hlf => h ⟨hcr, hlf⟩)
    · exact .inr (.inl hcr)

theorem lineStart_nextPos (hc : file[p]? = some c) : lineStart file (nextPos file p) = isLineEnd c := by
  rw [nextPos, hc, isLineEnd]
  by_cases hcr : c = ch '\r'
  · subst hcr
    by_cases hlf : file[p + 1]? = some (ch '\n')
    · rw [if_pos ⟨rfl, hlf⟩, lineStart_succ hlf]
      rfl
    · rw [if_neg fun hand => hlf hand.2, lineStart_succ hc, bne_iff_ne.mpr hlf]
      rfl
  · rw [if_neg fun hand => hcr (Option.some.inj hand.1), lineStart_succ hc, beq_eq_false_iff_ne.mpr hcr, Bool.false_and]

theorem lineNo_nextPos (hc : file[p]? = some c) :
    lineNo file (nextPos file p) = if isLineEnd c then lineNo file p + 1 else lineNo file p := by
  have hstart := lineStart_nextPos hc
  have hlast : lineNo file (nextPos file p) = lineNo file p + if lineStart file (nextPos file p) then 1 else 0 := by
    rw [nextPos]
    split
    · next h =>
      have hmid : lineStart file (p + 1) = false := by
        rw [lineStart_succ h.1, h.2]
        rfl
      rw [lineNo_succ, lineNo_succ, hmid]
      rfl
    · exact lineNo_succ
  rw [hlast, hstart]
  split <;> rfl

/-- Between a position and the next one only the middle of a line ending is passed over. -/
theorem split_of_lt_nextPos (h : p < q) (hq : q < nextPos file p) : ¬Unsplit file q := by
  rw [nextPos] at hq
  split at hq
  · next hcrlf =>
    obtain rfl : q = p + 1 := by omega
    intro hun
    exact hun.elim (Nat.succ_ne_zero p) fun h => h.elim (· hcrlf.1) (· hcrlf.2)
  · omega

end

/-! ## A chunk -/

/-- The loop has come to `p` in a chunk that starts at `a`. -/
structure CopyAt (bare : Bool) (file : Bytes) (a p : Nat) (st : ReadState) : Prop where
  start : a ≤ p
  stop : p ≤ file.length
  unsplit : Unsplit file p
  body : st.body = chunkBody bare file a p
  line : st.line = lineNo file p
  lines : lineNo file a + st.lines = lineNo file p
  beginning : p < file.length → st.beginning = lineStart file p
  labelled : p < file.length → st.labelled = decide (p = a ∨ lineStart file p)

/-- A chunk that starts at `a` ends where it comes to `p`. -/
def ChunkEnd (bare : Bool) (file : Bytes) (a lines p : Nat) : Prop :=
  p = file.length ∨ lineNo file a + lines ≤ lineNo file p ∨
    (readBudget ≤ (chunkBody bare file a p).length ∧
      (isCont (file.getD p 0) = false ∨ readBudget + 3 ≤ (chunkBody bare file a p).length))

section
variable {file : Bytes} {a b p q m : Nat} {c : UInt8} {bare : Bool} {st : ReadState}

/-- One character. -/
theorem CopyAt.next (h : CopyAt bare file a p st) (hc : file[p]? = some c) :
    CopyAt bare file a (nextPos file p) (readChar bare st c (file.drop (p + 1))) := by
  have hlt := (List.getElem?_eq_some_iff.mp hc).1
  have hstart := lineStart_nextPos hc
  have hno := lineNo_nextPos hc
  have hpos : a ≠ nextPos file p := (Nat.lt_of_le_of_lt h.start lt_nextPos).ne
  refine ⟨h.start.trans lt_nextPos.le, ?_, unsplit_nextPos, ?_, ?_, ?_, ?_, ?_⟩
  · exact nextPos_le hlt
  · rw [chunkBody_next h.start hc, readChar, h.body]
    dsimp only
    rw [h.labelled hlt, h.beginning hlt, h.line, labelAt]
    cases bare with
    | true => simp
    | false => simp
  · rw [hno, readChar, h.line]
  · rw [hno, readChar, ← h.lines]
    dsimp only
    split <;> rfl
  · intro _
    rw [hstart, readChar]
  · intro _
    simp [hstart, readChar, hpos.symm]

/-- A line that ends is one of the lines of the file. -/
theorem CopyAt.line_lt (h : CopyAt bare file a p st) (hp : p < file.length) (hlines : lineCount file < intMax) :
    st.line ≠ intMax := by
  rw [h.line]
  exact (Nat.lt_of_le_of_lt (lineNo_le_lineCount hp) hlines).ne

theorem getD_of_getElem? (hc : file[p]? = some c) : file.getD p 0 = c := by
  rw [List.getD_eq_getElem?_getD, hc]
  rfl

theorem drop_of_getElem? (hc : file[p]? = some c) : file.drop p = c :: file.drop (p + 1) := by
  obtain ⟨hlt, rfl⟩ := List.getElem?_eq_some_iff.mp hc
  exact List.drop_eq_getElem_cons hlt

theorem copyLines_stop (h : CopyAt bare file a p st) (hend : ChunkEnd bare file a m p) :
    copyLines false bare m st (file.drop p) = .stopped st (file.drop p) := by
  rcases h.stop.eq_or_lt with heq | hlt
  · rw [heq, List.drop_length, copyLines]
  have hc : file[p]? = some file[p] := List.getElem?_eq_getElem hlt
  rw [drop_of_getElem? hc, copyLines]
  rcases hend with heq | hmany | ⟨hfull, hchar⟩
  · exact absurd heq hlt.ne
  · rw [← h.lines, Nat.add_le_add_iff_left] at hmany
    exact if_neg (by simpa using hmany)
  · rw [← h.body, getD_of_getElem? hc] at hchar
    rw [← h.body] at hfull
    rw [if_pos (c := _ ∧ _) ⟨hfull, by simpa using hchar⟩, ite_self]

theorem copyLines_next (hnul : 0 ∉ file) (hlines : lineCount file < intMax) (h : CopyAt bare file a p st)
    (hend : ¬ChunkEnd bare file a m p) (hc : file[p]? = some c) :
    copyLines false bare m st (file.drop p) =
      copyLines false bare m (readChar bare st c (file.drop (p + 1))) (file.drop (nextPos file p)) := by
  have hlt := (List.getElem?_eq_some_iff.mp hc).1
  rw [ChunkEnd, not_or, not_or, ← h.lines, ← h.body, getD_of_getElem? hc, Nat.add_le_add_iff_left] at hend
  obtain ⟨-, hfew, hfull⟩ := hend
  have hz : c ≠ 0 := fun hz => hnul (hz ▸ List.mem_of_getElem? hc)
  rw [drop_of_getElem? hc, copyLines, if_pos (.inr (Nat.lt_of_not_le hfew)), if_neg (by simpa using hfull), if_neg hz,
    if_neg fun hand => h.line_lt hlt hlines hand.2, afterChar_drop hc]

/-- The loop comes to the first position at which the chunk ends. -/
theorem copyLines_spec (hnul : 0 ∉ file) (hlines : lineCount file < intMax) (h : CopyAt bare file a p st) :
    ∃ st' b, copyLines false bare m st (file.drop p) = .stopped st' (file.drop b) ∧ CopyAt bare file a b st' ∧ p ≤ b ∧
      ChunkEnd bare file a m b ∧ ∀ q, p ≤ q → q < b → Unsplit file q → ¬ChunkEnd bare file a m q := by
  induction hn : file.length - p using Nat.strong_induction_on generalizing p st with
  | _ n ih =>
  by_cases hend : ChunkEnd bare file a m p
  · exact ⟨st, p, copyLines_stop h hend, h, Nat.le_refl p, hend, fun q h1 h2 => absurd h1 (Nat.not_le_of_lt h2)⟩
  have hlt : p < file.length := h.stop.lt_of_ne fun heq => hend (.inl heq)
  have hc : file[p]? = some file[p] := List.getElem?_eq_getElem hlt
  have hpn := @lt_nextPos file p
  obtain ⟨st', b, hb, hat, hle, hstop, hbefore⟩ := ih (file.length - nextPos file p) (by omega) (h.next hc) rfl
  refine ⟨st', b, (copyLines_next hnul hlines h hend hc).trans hb, hat, hpn.le.trans hle, hstop, fun q hpq hqb hun => ?_⟩
  rcases Nat.lt_or_ge q (nextPos file p) with hq | hq
  · rcases hpq.eq_or_lt with rfl | hpq
    · exact hend
    · exact absurd hun (split_of_lt_nextPos hpq hq)
  · exact hbefore q hq hqb hun

end

/-! ## The start of the first chunk -/

section
variable {file : Bytes} {a p q k : Nat}

theorem length_drop_nextPos (h : p < file.length) : file.length - nextPos file p < file.length - p := by
  have := @lt_nextPos file p
  omega

/-- The lines in front of line `k` are skipped. -/
theorem skipLines_spec (hp : p ≤ file.length) (hun : Unsplit file p) (hbefore : ∀ q < p, lineNo file q < k) :
    ∃ a, skipLines k (lineNo file p) (file.drop p) = (file.drop a, lineNo file a) ∧ p ≤ a ∧ a ≤ file.length ∧
      Unsplit file a ∧ (∀ q < a, lineNo file q < k) ∧ (a = file.length ∨ k ≤ lineNo file a) := by
  induction hn : file.length - p using Nat.strong_induction_on generalizing p with
  | _ n ih =>
  rcases hp.eq_or_lt with heq | hlt
  · refine ⟨p, ?_, Nat.le_refl p, hp, hun, hbefore, .inl heq⟩
    rw [heq, List.drop_length, skipLines]
  have hc : file[p]? = some file[p] := List.getElem?_eq_getElem hlt
  by_cases hk : lineNo file p < k
  swap
  · refine ⟨p, ?_, Nat.le_refl p, hp, hun, hbefore, .inr (Nat.le_of_not_lt hk)⟩
    rw [drop_of_getElem? hc, skipLines, if_neg hk]
  have hnext : ∀ q < nextPos file p, lineNo file q < k := by
    intro q hq
    rcases Nat.lt_or_ge p q with hpq | hqp
    · -- only the middle of a line ending, which is still in the line
      rw [nextPos] at hq
      split at hq
      · next hcrlf =>
        obtain rfl : q = p + 1 := by omega
        have hmid : lineStart file (p + 1) = false := by
          rw [lineStart_succ hcrlf.1, hcrlf.2]
          rfl
        rw [lineNo_succ, hmid]
        exact hk
      · omega
    · exact Nat.lt_of_le_of_lt (lineNo_mono hqp) hk
  obtain ⟨a, ha, hle, hrest⟩ := ih _ (hn ▸ length_drop_nextPos hlt) (nextPos_le hlt) unsplit_nextPos hnext rfl
  refine ⟨a, ?_, lt_nextPos.le.trans hle, hrest⟩
  rw [drop_of_getElem? hc, skipLines, if_pos hk, afterChar_drop hc, ← lineNo_nextPos hc]
  exact ha

theorem skipLines_self (k : Nat) (s : Bytes) : skipLines k k s = (s, k) := by
  cases s with
  | nil => rw [skipLines]
  | cons c s => rw [skipLines, if_neg (Nat.lt_irrefl k)]

theorem lineOffset_eq (ha : a ≤ file.length) (hbefore : ∀ q < a, lineNo file q < k)
    (hline : a = file.length ∨ k ≤ lineNo file a) : lineOffset file k = a := by
  have hnone : ∀ q < a, (decide (k ≤ lineNo file q)) = false := fun q hq => decide_eq_false (Nat.not_le_of_lt (hbefore q hq))
  rw [lineOffset]
  rcases ha.eq_or_lt with rfl | hlt
  · rw [List.find?_eq_none.mpr]
    · rfl
    · intro q hq
      rw [hnone q (List.mem_range.mp hq)]
      exact Bool.false_ne_true
  · rw [List.find?_range_eq_some.mpr]
    · rfl
    · exact ⟨decide_eq_true (hline.resolve_left hlt.ne), List.mem_range.mpr hlt, fun q hq => by rw [hnone q hq]; rfl⟩

theorem lineStart_of_first (hbefore : ∀ q < a, lineNo file q < k) (hline : k ≤ lineNo file a) : lineStart file a = true := by
  cases a with
  | zero => rfl
  | succ a =>
    have := hbefore a (Nat.lt_succ_self a)
    rw [lineNo_succ] at hline
    by_contra hnot
    rw [if_neg hnot] at hline
    omega

end

/-! ## The answer for a chunk -/

/-- The body of an answer: what is not its header and its note. -/
def HasBody (path : Bytes) (bare : Bool) (text body : Bytes) : Prop :=
  ∃ (startLine : Nat) (more : Bool) (st : ReadState) (offset : Nat),
    st.body = body ∧ text = readAnswer path startLine bare more st offset

/-- What is to be continued at the byte offset of `w`. -/
structure Continues (bare : Bool) (file path : Bytes) (w : AgentReader) : Prop where
  path : w.morePath = path
  bare : w.moreBare = bare
  valid : w.moreValid = true
  line : w.moreNextLine = lineNo file w.moreByteOffset
  midLine : w.moreMidLine = !lineStart file w.moreByteOffset
  pos : 0 < w.moreByteOffset
  lt : w.moreByteOffset < file.length
  unsplit : Unsplit file w.moreByteOffset

/-- An answer for the chunk from `a` on with at most `m` line endings. -/
structure ChunkRead (bare : Bool) (file path : Bytes) (a m ctx : Nat) (r : Bytes × AgentReader) : Prop where
  start : a ≤ r.2.moreByteOffset
  progress : a < file.length → a < r.2.moreByteOffset
  stop : r.2.moreByteOffset ≤ file.length
  body : HasBody path bare r.1 (chunkBody bare file a r.2.moreByteOffset)
  ended : ChunkEnd bare file a m r.2.moreByteOffset
  first : ∀ q, a ≤ q → q < r.2.moreByteOffset → Unsplit file q → ¬ChunkEnd bare file a m q
  valid : r.2.moreValid = decide (r.2.moreByteOffset < file.length)
  more : r.2.moreByteOffset < file.length → Continues bare file path r.2
  lines : agentReadDefaultLines r.2 = ctx

section
variable {file path : Bytes} {a m offset : Nat} {bare midLine : Bool} {openFile : OpenFile} {w : AgentReader}
  {startLine maxLines : Int}

theorem not_chunkEnd_start (ha : a < file.length) (hm : 0 < m) : ¬ChunkEnd bare file a m a := by
  intro h
  rcases h with h | h | h
  · exact ha.ne h
  · omega
  · rw [chunkBody_self] at h
    exact absurd h.1 (by decide)

/-- A read that finds the chunk's start at `a`. -/
theorem chunkRead (hnul : 0 ∉ file) (hlines : lineCount file < intMax) (hopen : openFile path = .ok file) (hpath : path ≠ [])
    (hlen : path.length < pathMax) (hmax : 0 < maxLines)
    (hskip : skipLines (if startLine < 1 then 1 else startLine.toNat)
      (if 0 < offset then if startLine < 1 then 1 else startLine.toNat else 1) (file.drop offset) =
        (file.drop a, lineNo file a))
    (hoff : offset ≤ a) (ha : a ≤ file.length) (hun : Unsplit file a) (hmid : a < file.length → midLine = !lineStart file a) :
    ChunkRead bare file path a maxLines.toNat (agentReadDefaultLines w)
      (agentReadRangeFrom openFile w (some path) startLine maxLines false bare true offset midLine) := by
  have hat : CopyAt bare file a a ⟨[], lineNo file a, 0, 0, !midLine, true⟩ :=
    ⟨Nat.le_refl a, ha, hun, chunkBody_self.symm, rfl, rfl, fun h => by rw [hmid h, Bool.not_not], fun _ => by simp⟩
  obtain ⟨st, b, hloop, hst, hab, hend, hfirst⟩ := @copyLines_spec file a a maxLines.toNat bare _ hnul hlines hat
  have hpos : 0 < maxLines.toNat := by omega
  have hprogress : a < file.length → a < b := by
    intro hlt
    refine hab.lt_of_ne fun heq => ?_
    subst heq
    exact not_chunkEnd_start hlt hpos hend
  have hnext : offset + ((file.drop offset).length - (file.drop b).length) = b := by
    have := hst.stop
    rw [List.length_drop, List.length_drop]
    omega
  have hmore : (file.drop b ≠ []) = (b < file.length) := by
    rw [Ne, List.drop_eq_nil_iff, not_le]
  have hw : agentReadRangeFrom openFile w (some path) startLine maxLines false bare true offset midLine =
      (readAnswer path (if startLine < 1 then 1 else startLine.toNat) bare (decide (b < file.length)) st b,
        { agentWorkerSetMore w (if b < file.length then some path else none) (if b < file.length then st.line else 0) bare with
          moreByteOffset := b
          moreMidLine := !st.beginning }) := by
    have hsome : orEmpty (some path) ≠ [] := hpath
    have hcount : ¬maxLines ≤ 0 := by omega
    rw [agentReadRangeFrom, if_neg hsome]
    simp only [orEmpty, Option.getD_some, hopen, hskip, if_neg hcount, hloop, hnext, hmore, Bool.false_eq_true,
      false_and, if_false, if_true, decide_eq_true_eq]
  rw [hw]
  refine ⟨hab, hprogress, hst.stop, ⟨_, _, st, b, hst.body, rfl⟩, hend, hfirst, ?_, fun hlt => ?_, rfl⟩
  · show decide (_ ∧ _) = _
    by_cases hlt : b < file.length
    · simp [hlt, hpath, hst.line, lineNo_pos]
    · simp [hlt]
  · have hb : 0 < b := Nat.zero_lt_of_lt (hprogress (Nat.lt_of_le_of_lt hab hlt))
    refine ⟨?_, rfl, ?_, ?_, ?_, hb, hlt, hst.unsplit⟩
    · simp only [if_pos hlt, agentWorkerSetMore, orEmpty, Option.getD_some]
      exact List.take_of_length_le (Nat.le_sub_one_of_lt hlen)
    · simp [agentWorkerSetMore, hlt, hpath, hst.line, lineNo_pos]
    · simp only [if_pos hlt, agentWorkerSetMore]
      exact hst.line
    · simp only [hst.beginning hlt]

end

/-! ## The text without its labels -/

/-- A body without the labels of its lines; `label` says whether a label is being read. -/
def stripText : Bool → Bytes → Bytes
  | _, [] => []
  | true, c :: s => stripText (isdigit c) s
  | false, c :: s => c :: stripText (c == ch '\n') s

/-- A body without its labels, of which the first may be marked as continued. -/
def stripLabels (continued : Bool) (body : Bytes) : Bytes :=
  stripText false ((body.dropWhile isdigit).drop (if continued then (lit " (continued) ").length else 1))

section
variable {file s : Bytes} {a b p n : Nat} {c : UInt8}

theorem isdigit_of_mem_number (h : c ∈ lit (toString n)) : isdigit c = true := by
  rw [lit, Nat.toString_eq_repr, Nat.toList_repr] at h
  obtain ⟨d, hd, hc⟩ := List.mem_flatMap.mp h
  have hdigit := Nat.isDigit_of_mem_toDigits (by decide) (by decide) hd
  have hrange : 48 ≤ d.val.toNat ∧ d.val.toNat ≤ 57 := by simpa [Char.isDigit, UInt32.le_iff_toNat_le] using hdigit
  have hbyte : ∀ v < 58, 48 ≤ v → isdigit (UInt8.ofNat v) = true := by decide
  rw [utf8EncodeChar_eq, encode, if_pos (by omega)] at hc
  rw [List.mem_singleton.mp hc]
  exact hbyte _ (by omega) hrange.1

theorem stripText_digits (h : ∀ c ∈ s, isdigit c = true) (t : Bytes) : stripText true (s ++ t) = stripText true t := by
  induction s with
  | nil => rfl
  | cons c s ih =>
    rw [List.cons_append, stripText, h c List.mem_cons_self]
    exact ih fun c hc => h c (List.mem_cons_of_mem _ hc)

theorem stripText_label (n : Nat) (t : Bytes) : stripText true (readLabel n false ++ t) = stripText false t := by
  rw [readLabel, if_neg Bool.false_ne_true, List.append_nil, List.append_assoc,
    stripText_digits fun c hc => isdigit_of_mem_number hc]
  rfl

theorem stripLabels_label (n : Nat) (continued : Bool) (t : Bytes) :
    stripLabels continued (readLabel n continued ++ t) = stripText false t := by
  have hall : ∀ c ∈ lit (toString n), isdigit c = true := fun c hc => isdigit_of_mem_number hc
  rw [stripLabels, readLabel, List.append_assoc, List.append_assoc, List.dropWhile_append_of_pos hall]
  cases continued <;> rfl

theorem lfAt_of_getElem? (hc : file[p]? = some c) :
    lfAt file p = if c = ch '\r' then if file[p + 1]? = some (ch '\n') then [] else [ch '\n'] else [c] := by
  rw [lfAt, hc]

/-- Behind what is shown of a byte a label stands where a line starts. -/
theorem stripText_lfAt (hc : file[p]? = some c) (t : Bytes) :
    stripText false (lfAt file p ++ t) = lfAt file p ++ stripText (lineStart file (p + 1)) t := by
  rw [lfAt_of_getElem? hc, lineStart_succ hc]
  by_cases hcr : c = ch '\r'
  · subst hcr
    by_cases hlf : file[p + 1]? = some (ch '\n')
    · rw [if_pos rfl, if_pos hlf, hlf]
      rfl
    · rw [if_pos rfl, if_neg hlf, bne_iff_ne.mpr hlf]
      rfl
  · rw [if_neg hcr, beq_eq_false_iff_ne.mpr hcr, Bool.false_and, Bool.or_false]
    rfl

theorem stripText_range' (ha : a < p) (hn : p + n ≤ file.length) :
    stripText (lineStart file p) ((List.range' p n).flatMap fun q => labelAt file a q ++ lfAt file q) =
      (List.range' p n).flatMap (lfAt file) := by
  induction n generalizing p with
  | zero =>
    rw [List.range'_zero]
    cases lineStart file p <;> rfl
  | succ n ih =>
    have hc : file[p]? = some file[p] := List.getElem?_eq_getElem (by omega)
    have hlabel : ∀ t, stripText (lineStart file p) (labelAt file a p ++ t) = stripText false t := by
      intro t
      rw [labelAt]
      cases hstart : lineStart file p with
      | true =>
        rw [if_pos (.inr rfl)]
        exact stripText_label _ t
      | false =>
        rw [if_neg fun hor => hor.elim ha.ne' Bool.false_ne_true]
        rfl
    rw [List.range'_succ, List.flatMap_cons, List.flatMap_cons, List.append_assoc, hlabel, stripText_lfAt hc,
      ih (Nat.lt_succ_of_lt ha) (by omega)]

/-- Without the labels a chunk is the text with its line endings as `\n`. -/
theorem stripLabels_numbered (hb : b ≤ file.length) :
    stripLabels (!lineStart file a) (numbered file a b) = (List.range' a (b - a)).flatMap (lfAt file) := by
  rw [numbered]
  cases hn : b - a with
  | zero =>
    rw [List.range'_zero]
    cases lineStart file a <;> rfl
  | succ n =>
    have hc : file[a]? = some file[a] := List.getElem?_eq_getElem (by omega)
    rw [List.range'_succ, List.flatMap_cons, List.flatMap_cons, List.append_assoc, labelAt, if_pos (.inl rfl),
      stripLabels_label, stripText_lfAt hc, stripText_range' (Nat.lt_succ_self a) (by omega)]

theorem toLf_drop (h : p < file.length) : toLf (file.drop p) = lfAt file p ++ toLf (file.drop (p + 1)) := by
  have hc : file[p]? = some file[p] := List.getElem?_eq_getElem h
  rw [drop_of_getElem? hc, toLf, head?_drop_succ, lfAt_of_getElem? hc]
  split
  · split <;> rfl
  · rfl

theorem toLf_range' (hn : p + n ≤ file.length) :
    (List.range' p n).flatMap (lfAt file) ++ toLf (file.drop (p + n)) = toLf (file.drop p) := by
  induction n generalizing p with
  | zero => rfl
  | succ n ih =>
    have hrest := @ih (p + 1) (by omega)
    rw [Nat.add_assoc, Nat.add_comm 1] at hrest
    rw [List.range'_succ, List.flatMap_cons, List.append_assoc, hrest, ← toLf_drop (by omega)]

end

/-! ## The end of a chunk in a text -/

section
variable {s : Bytes} {p q j : Nat} {c : UInt8}

/-- The character at a boundary. -/
theorem charAt_whole (h : Whole s) (hq : Whole (s.take q)) (hlt : q < s.length) :
    q + utf8ExpectedLen (s.getD q 0) ≤ s.length ∧
      ∀ j, 0 < j → j < utf8ExpectedLen (s.getD q 0) → isCont (s.getD (q + j) 0) = true := by
  rcases (h.drop hq).cases with hd | ⟨l, tl, r, hd, hu, -, -⟩
  · rw [List.drop_eq_nil_iff] at hd
    omega
  have hget : ∀ j, s.getD (q + j) 0 = (l :: (tl ++ r)).getD j 0 := by
    intro j
    rw [← hd, List.getD_eq_getElem?_getD, List.getD_eq_getElem?_getD, List.getElem?_drop]
  have hlead : s.getD q 0 = l := hget 0
  have hlen := congrArg List.length hd
  rw [List.length_drop, List.length_cons, List.length_append] at hlen
  rw [hlead, hu.len]
  refine ⟨by omega, fun j hj hjl => ?_⟩
  obtain ⟨j, rfl⟩ := Nat.exists_eq_succ_of_ne_zero hj.ne'
  have hj : j < tl.length := by omega
  rw [hget, List.getD_cons_succ, List.getD_append _ _ _ _ hj, List.getD_eq_getElem _ _ hj]
  exact hu.tail _ (List.getElem_mem hj)

theorem exists_charAt (h : Whole s) (hlt : p < s.length) :
    ∃ q ≤ p, Whole (s.take q) ∧ p < q + utf8ExpectedLen (s.getD q 0) := by
  obtain ⟨i, hi, -, hlead⟩ := h.exists_lead hlt
  have hq := @Nat.findGreatest_spec i (fun q => isCont (s.getD q 0) = false) _ p hi hlead
  have hle := @Nat.findGreatest_le (fun q => isCont (s.getD q 0) = false) _ p
  have hmax : ∀ k, Nat.findGreatest (fun q => isCont (s.getD q 0) = false) p < k → k ≤ p → ¬isCont (s.getD k 0) = false :=
    fun k => Nat.findGreatest_is_greatest
  generalize Nat.findGreatest (fun q => isCont (s.getD q 0) = false) p = q at hq hle hmax
  have hwhole := h.take_of_not_isCont hq
  refine ⟨q, hle, hwhole, ?_⟩
  by_contra hnot
  -- the next character would start behind the last lead byte
  have hpos := (utf8ExpectedLen_bound (s.getD q 0)).1
  have hnext := h.next hwhole (Nat.lt_of_le_of_lt hle hlt)
  exact hmax (q + utf8ExpectedLen (s.getD q 0)) (by omega) (by omega) (h.not_isCont hnext (by omega))

theorem isLineEnd_of_isCont (h : isCont c = true) : isLineEnd c = false := by
  by_contra hnot
  rw [Bool.not_eq_false, isLineEnd, Bool.or_eq_true, beq_iff_eq, beq_iff_eq] at hnot
  rcases hnot with rfl | rfl <;> exact absurd h (by decide)

theorem isLineEnd_of_expectedLen (h : 1 < utf8ExpectedLen c) : isLineEnd c = false := by
  by_contra hnot
  rw [Bool.not_eq_false, isLineEnd, Bool.or_eq_true, beq_iff_eq, beq_iff_eq] at hnot
  rcases hnot with rfl | rfl <;> exact absurd h (by decide)

theorem whole_take_succ (h : Whole s) (hc : s[p]? = some c) (hle : isLineEnd c = true) : Whole (s.take (p + 1)) := by
  have hlen : utf8ExpectedLen (s.getD p 0) = 1 ∧ isCont (s.getD p 0) = false := by
    rw [getD_of_getElem? hc]
    rw [isLineEnd, Bool.or_eq_true, beq_iff_eq, beq_iff_eq] at hle
    rcases hle with rfl | rfl <;> exact ⟨rfl, rfl⟩
  have := h.next (h.take_of_not_isCont hlen.2) (List.getElem?_eq_some_iff.mp hc).1
  rwa [hlen.1] at this

end

section
variable {file : Bytes} {a b p q j m ctx : Nat} {c : UInt8} {bare : Bool}

theorem length_chunkBody_le_succ (h : a ≤ p) : (chunkBody bare file a p).length ≤ (chunkBody bare file a (p + 1)).length := by
  cases bare with
  | true =>
    rw [chunkBody, chunkBody, if_pos rfl, if_pos rfl, List.length_drop, List.length_drop, List.length_take, List.length_take]
    omega
  | false =>
    rw [chunkBody, chunkBody, if_neg Bool.false_ne_true, if_neg Bool.false_ne_true, numbered_succ h, List.length_append]
    exact Nat.le_add_right _ _

theorem length_chunkBody_mono (h : a ≤ p) (hpq : p ≤ q) :
    (chunkBody bare file a p).length ≤ (chunkBody bare file a q).length := by
  induction hpq with
  | refl => exact Nat.le_refl _
  | step hle ih => exact ih.trans (length_chunkBody_le_succ (h.trans hle))

theorem nextPos_of_not_isLineEnd (hc : file[p]? = some c) (hle : isLineEnd c = false) : nextPos file p = p + 1 := by
  rw [isLineEnd, Bool.or_eq_false_iff, beq_eq_false_iff_ne, beq_eq_false_iff_ne] at hle
  rw [nextPos, if_neg]
  rw [hc]
  exact fun hand => hle.2 (Option.some.inj hand.1)

theorem length_chunkBody_succ (h : a ≤ p) (hc : file[p]? = some c) (hle : isLineEnd c = false) :
    (chunkBody bare file a (p + 1)).length =
      (chunkBody bare file a p).length + (if bare then [] else labelAt file a p).length + 1 := by
  have hnext := @chunkBody_next file a p c bare h hc
  rw [nextPos_of_not_isLineEnd hc hle] at hnext
  rw [isLineEnd, Bool.or_eq_false_iff, beq_eq_false_iff_ne, beq_eq_false_iff_ne] at hle
  rw [hnext, shownChar, if_neg hle.2, List.length_append, List.length_append]
  rfl

/-- Up to the end of a character of several bytes a chunk grows by the bytes and the label in front of them. -/
theorem length_chunkBody_char (hw : Whole file) (hq : Whole (file.take q)) (hlt : q < file.length) (h : a ≤ q)
    (hj : j + 1 < utf8ExpectedLen (file.getD q 0)) :
    (chunkBody bare file a (q + (j + 1))).length =
      (chunkBody bare file a q).length + (if bare then [] else labelAt file a q).length + (j + 1) := by
  obtain ⟨hlen, hcont⟩ := charAt_whole hw hq hlt
  have hget : ∀ i, q + i < file.length → file[q + i]? = some (file.getD (q + i) 0) := by
    intro i hi
    rw [List.getD_eq_getElem _ _ hi]
    exact List.getElem?_eq_getElem hi
  have hplain : ∀ i, i < utf8ExpectedLen (file.getD q 0) → isLineEnd (file.getD (q + i) 0) = false := by
    intro i hi
    cases i with
    | zero => exact isLineEnd_of_expectedLen (show 1 < utf8ExpectedLen (file.getD q 0) by omega)
    | succ i => exact isLineEnd_of_isCont (hcont _ (Nat.succ_pos i) hi)
  induction j with
  | zero => exact length_chunkBody_succ h (hget 0 hlt) (hplain 0 (by omega))
  | succ j ih =>
    have hstart : lineStart file (q + (j + 1)) = false := by
      rw [← Nat.add_assoc, ← nextPos_of_not_isLineEnd (hget j (by omega)) (hplain j (by omega)),
        lineStart_nextPos (hget j (by omega))]
      exact hplain j (by omega)
    have hlabel : labelAt file a (q + (j + 1)) = [] := by
      rw [labelAt, hstart, if_neg]
      exact fun hor => hor.elim (by omega) Bool.false_ne_true
    rw [← Nat.add_assoc q (j + 1) 1, length_chunkBody_succ (by omega) (hget _ (by omega)) (hplain _ (by omega)),
      ih (by omega), hlabel, ite_self]
    rfl

/-- In a chunk from `a` on with at most `m` line endings, the label in front of a character of several bytes leaves it
its bytes. -/
def LabelsFit (file : Bytes) (a m : Nat) : Prop :=
  ∀ p, a ≤ p → p < file.length → p = a ∨ lineStart file p = true → lineNo file p < lineNo file a + m →
    (numbered file a p).length < readBudget → 1 < utf8ExpectedLen (file.getD p 0) →
    (numbered file a p).length + (labelAt file a p).length + utf8ExpectedLen (file.getD p 0) ≤ readBudget + 3

/-- Behind a number of lines a line starts, or `\r\n` ends. -/
theorem whole_of_lineNo (hw : Whole file) (ha : a < b) (hb : b ≤ file.length) (hlast : lineNo file a + m ≤ lineNo file b)
    (hfirst : Unsplit file (b - 1) → lineNo file (b - 1) < lineNo file a + m) : Whole (file.take b) := by
  obtain ⟨b, rfl⟩ := Nat.exists_eq_succ_of_ne_zero (Nat.ne_zero_of_lt ha)
  rw [Nat.succ_sub_one] at hfirst
  have hc : file[b]? = some file[b] := List.getElem?_eq_getElem hb
  refine whole_take_succ hw hc ?_
  by_cases hlf : file[b]? = some (ch '\n')
  · rw [Option.some.inj (hc.symm.trans hlf)]
    rfl
  have hless := hfirst (.inr (.inr hlf))
  have hstart : lineStart file (b + 1) = true := by
    by_contra hnot
    rw [lineNo_succ, if_neg hnot] at hlast
    omega
  rw [lineStart_succ hc, Bool.or_eq_true, Bool.and_eq_true] at hstart
  rw [isLineEnd, Bool.or_eq_true]
  exact hstart.imp_right And.left

/-- A chunk that ends inside a character was cut there by the budget. -/
theorem ChunkRead.whole {path : Bytes} {r : Bytes × AgentReader} (h : ChunkRead bare file path a m ctx r) (hw : Whole file)
    (ha : Whole (file.take a)) (hfit : bare = false → LabelsFit file a m) : Whole (file.take r.2.moreByteOffset) := by
  have hstart := h.start
  have hstop := h.stop
  have hfirst := h.first
  have hend := h.ended
  generalize r.2.moreByteOffset = b at hstart hstop hfirst hend
  rcases hstart.eq_or_lt with rfl | hab
  · exact ha
  rcases hend with heq | hlast | ⟨hfull, hchar⟩
  · rw [heq, List.take_length]
    exact hw
  · refine whole_of_lineNo hw hab hstop hlast fun hun => ?_
    by_contra hnot
    exact hfirst (b - 1) (by omega) (by omega) hun (.inr (.inl (Nat.le_of_not_lt hnot)))
  by_cases hcont : isCont (file.getD b 0) = false
  · exact hw.take_of_not_isCont hcont
  have hthree := hchar.resolve_left hcont
  have hblt : b < file.length := by
    by_contra hnot
    rw [List.getD_eq_default _ _ (Nat.le_of_not_lt hnot)] at hcont
    exact hcont rfl
  obtain ⟨q, hqb, hq, hbq⟩ := exists_charAt hw hblt
  have hqlt : q < file.length := Nat.lt_of_le_of_lt hqb hblt
  have hlead := hw.not_isCont hq hqlt
  have hne : q ≠ b := by
    intro heq
    rw [heq] at hlead
    exact hcont hlead
  obtain ⟨-, htail⟩ := charAt_whole hw hq hqlt
  have haq : a ≤ q := by
    by_contra hnot
    have := htail (a - q) (by omega) (by omega)
    rw [Nat.add_sub_cancel' (by omega), hw.not_isCont ha (by omega)] at this
    exact Bool.false_ne_true this
  obtain ⟨j, rfl⟩ := Nat.exists_eq_add_of_lt (Nat.lt_of_le_of_ne hqb hne)
  have hlen := @length_chunkBody_char file a q j bare hw hq hqlt haq (by omega)
  have hline : isLineEnd (file.getD q 0) = false := isLineEnd_of_expectedLen (by omega)
  have hun : Unsplit file q := by
    right
    right
    intro hlf
    rw [getD_of_getElem? hlf] at hline
    exact absurd hline (by decide)
  have hgo := hfirst q haq (by omega) hun
  rw [ChunkEnd, not_or, not_or, not_and_or] at hgo
  obtain ⟨-, hless, hsmall⟩ := hgo
  have hsmall : (chunkBody bare file a q).length < readBudget := by
    rcases hsmall with h | h
    · exact Nat.lt_of_not_le h
    · exact absurd (Or.inl hlead) h
  have hbytes := (utf8ExpectedLen_bound (file.getD q 0)).2
  rw [Nat.add_assoc q j 1] at hthree
  rw [hlen] at hthree
  cases bare with
  | true =>
    rw [if_pos rfl, List.length_nil] at hthree
    omega
  | false =>
    rw [if_neg Bool.false_ne_true] at hthree
    by_cases hlabel : q = a ∨ lineStart file q = true
    · have hchunk : chunkBody false file a q = numbered file a q := if_neg Bool.false_ne_true
      rw [hchunk] at hthree hsmall
      have := hfit rfl q haq hqlt hlabel (Nat.lt_of_not_le hless) hsmall (by omega)
      omega
    · rw [labelAt, if_neg hlabel, List.length_nil] at hthree
      omega

/-- Where a label does not fit, the chunk ends inside the character behind it. -/
theorem ChunkRead.labelsFit {path : Bytes} {r : Bytes × AgentReader} (h : ChunkRead false file path a m ctx r)
    (hw : Whole file) (hend : Whole (file.take r.2.moreByteOffset)) : LabelsFit file a m := by
  intro p hap hp hlabel hless hsmall hlong
  have hstop := h.stop
  have hfirst := h.first
  have hended := h.ended
  have hstart := h.start
  generalize r.2.moreByteOffset = b at hend hstop hfirst hended hstart
  have hchunk : ∀ q, chunkBody false file a q = numbered file a q := fun q => if_neg Bool.false_ne_true
  by_contra hnot
  have hlead : isCont (file.getD p 0) = false := by
    by_contra hcont
    rw [(isCont_spec _ ((Bool.not_eq_false _).mp hcont)).2] at hlong
    exact Nat.lt_irrefl 1 hlong
  have hpw := hw.take_of_not_isCont hlead
  obtain ⟨hlen, htail⟩ := charAt_whole hw hpw hp
  have hpb : p < b := by
    by_contra hbp
    have hle := Nat.le_of_not_lt hbp
    have hno := @lineNo_mono file _ _ hle
    have hsize := @length_chunkBody_mono file a b p false hstart hle
    rw [hchunk p] at hsize
    rcases hended with hended | hended | hended <;> omega
  obtain ⟨j, hj⟩ := Nat.exists_eq_add_of_lt hlong
  have hlast := @length_chunkBody_char file a p j false hw hpw hp hap (by omega)
  rw [hchunk p, if_neg Bool.false_ne_true] at hlast
  have hcont := htail (j + 1) (by omega) (by omega)
  have hbq : b ≤ p + (j + 1) := by
    by_contra hqb
    refine hfirst (p + (j + 1)) (by omega) (by omega) (.inr (.inr fun hlf => ?_)) (.inr (.inr ⟨by omega, .inr (by omega)⟩))
    rw [getD_of_getElem? hlf] at hcont
    exact absurd hcont (by decide)
  have hmid := htail (b - p) (by omega) (by omega)
  rw [Nat.add_sub_cancel' hpb.le, hw.not_isCont hend (by omega)] at hmid
  exact Bool.false_ne_true hmid

end

/-! ## Runs -/

/-- `more` for one call after the other, as long as there is something to continue. -/
def moreChunks (openFile : OpenFile) : AgentReader → List AgentToolCall → List (Bytes × AgentReader)
  | _, [] => []
  | w, call :: calls =>
    if w.moreValid then
      let r := agentToolMore openFile w call
      r :: moreChunks openFile r.2 calls
    else []

/-- A `read` and the calls of `more` behind it. -/
def readMore (openFile : OpenFile) (w : AgentReader) (call : AgentToolCall) (calls : List AgentToolCall) :
    List (Bytes × AgentReader) :=
  let r := agentToolRead openFile w call
  r :: moreChunks openFile r.2 calls

/-- The number of lines that a call asks for. -/
def lineCountOf (call : AgentToolCall) (name : Bytes) (defaultLines : Nat) : Nat :=
  (agentParseIntDefault (agentToolArgValue call name) defaultLines 1 intMax).toNat

/-- The chunks of a run that starts at `a`. -/
inductive Chunks (bare : Bool) (file path : Bytes) (defaultLines : Nat) : Nat → List Nat → List (Bytes × AgentReader) → Prop
  | nil (a : Nat) : Chunks bare file path defaultLines a [] []
  | last {a m counts r} : ChunkRead bare file path a m defaultLines r → r.2.moreValid = false →
    Chunks bare file path defaultLines a (m :: counts) [r]
  | cons {a m counts r rs} : ChunkRead bare file path a m defaultLines r → r.2.moreValid = true →
    Chunks bare file path defaultLines r.2.moreByteOffset counts rs → Chunks bare file path defaultLines a (m :: counts) (r :: rs)

section
variable {file path : Bytes} {a m d offset : Nat} {bare : Bool} {openFile : OpenFile} {w : AgentReader}
  {call : AgentToolCall} {calls : List AgentToolCall} {r : Bytes × AgentReader} {rs : List (Bytes × AgentReader)}
  {counts : List Nat}

theorem agentParseIntDefault_pos {s : Option Bytes} {v : Int} (hv : 0 < v) : 0 < agentParseIntDefault s v 1 intMax := by
  rw [agentParseIntDefault.eq_def]
  split
  · exact hv
  split
  · exact hv
  split
  · exact hv
  split
  · exact hv
  dsimp only
  have : (0 : Int) < intMax := by decide
  split <;> split <;> omega

theorem agentReadDefaultLines_pos (w : AgentReader) : 0 < agentReadDefaultLines w := by
  rw [agentReadDefaultLines]
  split
  · decide
  split <;> decide

theorem ChunkRead.continues (h : ChunkRead bare file path a m d r) (hv : r.2.moreValid = true) :
    Continues bare file path r.2 := by
  rw [h.valid, decide_eq_true_eq] at hv
  exact h.more hv

theorem moreChunks_nil (hv : w.moreValid = false) : moreChunks openFile w calls = [] := by
  cases calls with
  | nil => rfl
  | cons => rw [moreChunks, if_neg (by rw [hv]; exact Bool.false_ne_true)]

section
variable (hnul : 0 ∉ file) (hlines : lineCount file < intMax) (hopen : openFile path = .ok file) (hpath : path ≠ [])
  (hlen : path.length < pathMax)
include hnul hlines hopen hpath hlen

theorem agentToolMore_chunk (h : Continues bare file path w) (call : AgentToolCall) :
    ChunkRead bare file path w.moreByteOffset (lineCountOf call (lit "count") (agentReadDefaultLines w))
      (agentReadDefaultLines w) (agentToolMore openFile w call) := by
  have hcount : 0 < agentParseIntDefault (agentToolArgValue call (lit "count")) (agentReadDefaultLines w) 1 intMax :=
    agentParseIntDefault_pos (Int.natCast_pos.mpr (agentReadDefaultLines_pos w))
  rw [agentToolMore, if_pos h.valid, h.path, h.bare]
  refine chunkRead hnul hlines hopen hpath hlen hcount ?_ (Nat.le_refl _) h.lt.le h.unsplit fun _ => h.midLine
  have hline : (if (w.moreNextLine : Int) < 1 then 1 else (w.moreNextLine : Int).toNat) = lineNo file w.moreByteOffset := by
    rw [if_neg, Int.toNat_natCast, h.line]
    have := @lineNo_pos file w.moreByteOffset
    rw [h.line]
    omega
  rw [hline, if_pos h.pos]
  exact skipLines_self _ _

theorem moreChunks_chunks (h : Continues bare file path w) (calls : List AgentToolCall) :
    Chunks bare file path (agentReadDefaultLines w) w.moreByteOffset
      (calls.map fun call => lineCountOf call (lit "count") (agentReadDefaultLines w)) (moreChunks openFile w calls) := by
  induction calls generalizing w with
  | nil => exact .nil _
  | cons call calls ih =>
    have hchunk := agentToolMore_chunk hnul hlines hopen hpath hlen h call
    rw [moreChunks, if_pos h.valid, List.map_cons]
    cases hv : (agentToolMore openFile w call).2.moreValid with
    | true =>
      have hrest := ih (hchunk.continues hv)
      rw [hchunk.lines] at hrest
      exact .cons hchunk hv hrest
    | false =>
      dsimp only
      rw [moreChunks_nil hv]
      exact .last hchunk hv

/-- The line that a `read` starts with. -/
def startLineOf (call : AgentToolCall) : Nat :=
  (agentParseIntDefault (agentToolArgValue call (lit "start_line")) 1 1 intMax).toNat

def rawOf (call : AgentToolCall) : Bool := agentParseBoolDefault (agentToolArgValue call (lit "raw")) false

theorem agentToolRead_chunk (hpathArg : agentToolArgValue call (lit "path") = some path)
    (hwhole : agentParseBoolDefault (agentToolArgValue call (lit "whole")) false = false) (w : AgentReader) :
    ChunkRead (rawOf call) file path (lineOffset file (startLineOf call))
      (lineCountOf call (lit "max_lines") (agentReadDefaultLines w)) (agentReadDefaultLines w) (agentToolRead openFile w call) := by
  have hcount : 0 < agentParseIntDefault (agentToolArgValue call (lit "max_lines")) (agentReadDefaultLines w) 1 intMax :=
    agentParseIntDefault_pos (Int.natCast_pos.mpr (agentReadDefaultLines_pos w))
  have hstart : 0 < agentParseIntDefault (agentToolArgValue call (lit "start_line")) 1 1 intMax :=
    agentParseIntDefault_pos Int.one_pos
  obtain ⟨a, hskip, -, hle, hun, hbefore, hline⟩ :=
    @skipLines_spec file 0 (startLineOf call) (Nat.zero_le _) (.inl rfl) fun _ h => absurd h (Nat.not_lt_zero _)
  rw [lineOffset_eq hle hbefore hline, agentToolRead, agentReadRange, hpathArg, hwhole]
  refine chunkRead hnul hlines hopen hpath hlen hcount ?_ (Nat.zero_le _) hle hun fun hlt => ?_
  · rw [if_neg (Nat.lt_irrefl 0), if_neg (by omega)]
    exact hskip
  · rw [lineStart_of_first hbefore (hline.resolve_left hlt.ne)]
    rfl

theorem readMore_chunks (hpathArg : agentToolArgValue call (lit "path") = some path)
    (hwhole : agentParseBoolDefault (agentToolArgValue call (lit "whole")) false = false) (w : AgentReader)
    (calls : List AgentToolCall) :
    Chunks (rawOf call) file path (agentReadDefaultLines w) (lineOffset file (startLineOf call))
      (lineCountOf call (lit "max_lines") (agentReadDefaultLines w) ::
        calls.map fun call => lineCountOf call (lit "count") (agentReadDefaultLines w)) (readMore openFile w call calls) := by
  have hchunk := agentToolRead_chunk hnul hlines hopen hpath hlen hpathArg hwhole w
  rw [readMore]
  cases hv : (agentToolRead openFile w call).2.moreValid with
  | true =>
    have hrest := moreChunks_chunks hnul hlines hopen hpath hlen (hchunk.continues hv) calls
    rw [hchunk.lines] at hrest
    exact .cons hchunk hv hrest
  | false =>
    rw [moreChunks_nil hv]
    exact .last hchunk hv

end

end

/-! ## What a run shows -/

/-- Where the chunks of a run end. -/
def chunkEnds (rs : List (Bytes × AgentReader)) : List Nat := rs.map fun r => r.2.moreByteOffset

/-- The bodies of a run that starts at `start` are the file from there on, one chunk after the other. -/
structure ReadsOn (bare : Bool) (file path : Bytes) (start : Nat) (calls : List AgentToolCall)
    (rs : List (Bytes × AgentReader)) (bodies : List Bytes) : Prop where
  answers : List.Forall₂ (fun r body => HasBody path bare r.1 body) rs bodies
  /-- Every call of `more` takes at least one byte. -/
  progress : (chunkEnds rs).IsChain (· < ·)
  finished : file.length ≤ calls.length → ∀ r ∈ rs.getLast?, r.2.moreValid = false
  complete : ∀ r ∈ rs.getLast?, (r.2.moreValid = false ↔ r.2.moreByteOffset = file.length)
  raw : bare = true → ∀ last ∈ (chunkEnds rs).getLast?, bodies.flatten ++ file.drop last = file.drop start
  text : bare = false → ∀ last ∈ (chunkEnds rs).getLast?,
    (List.zipWith (fun a body => stripLabels (!lineStart file a) body) (start :: chunkEnds rs) bodies).flatten ++
      toLf (file.drop last) = toLf (file.drop start)
  /-- The labels are the numbers of their lines, the first one continued when its chunk starts inside the line. -/
  labels : bare = false → bodies = List.zipWith (numbered file) (start :: chunkEnds rs) (chunkEnds rs)

section
variable {bare : Bool} {file path : Bytes} {a d n : Nat} {counts : List Nat} {rs : List (Bytes × AgentReader)}

theorem Chunks.progress (h : Chunks bare file path d a counts rs) :
    (chunkEnds rs).IsChain (· < ·) ∧ (a < file.length → (a :: chunkEnds rs).IsChain (· < ·)) := by
  induction h with
  | nil a => exact ⟨.nil, fun _ => .singleton a⟩
  | last hr _ => exact ⟨.singleton _, fun hlt => .cons_cons (hr.progress hlt) (.singleton _)⟩
  | cons hr hv _ ih =>
    have hlt := (hr.continues hv).lt
    exact ⟨ih.2 hlt, fun ha => .cons_cons (hr.progress ha) (ih.2 hlt)⟩

theorem Chunks.finished (h : Chunks bare file path d a counts rs) (hn : file.length - a < counts.length) :
    ∀ r ∈ rs.getLast?, r.2.moreValid = false := by
  induction h with
  | nil a => exact fun r hr => nomatch hr
  | last _ hv =>
    intro r hr
    rw [← Option.some.inj hr]
    exact hv
  | @cons a m counts r rs hr hv hrest ih =>
    have hlt := (hr.continues hv).lt
    have hprogress := hr.progress (Nat.lt_of_le_of_lt hr.start hlt)
    rw [List.length_cons] at hn
    have hlast := ih (by omega)
    cases rs with
    | nil =>
      -- with bytes left there is a call for them
      cases hrest
      rw [List.length_nil] at hn
      omega
    | cons => exact hlast

theorem Chunks.complete (h : Chunks bare file path d a counts rs) :
    ∀ r ∈ rs.getLast?, (r.2.moreValid = false ↔ r.2.moreByteOffset = file.length) := by
  have hone : ∀ {a m r}, ChunkRead bare file path a m d r → (r.2.moreValid = false ↔ r.2.moreByteOffset = file.length) := by
    intro a m r hr
    have := hr.stop
    rw [hr.valid, decide_eq_false_iff_not]
    omega
  induction h with
  | nil a => exact fun r hr => nomatch hr
  | last hr _ =>
    intro r hlast
    rw [← Option.some.inj hlast]
    exact hone hr
  | @cons a m counts r rs hr hv _ ih =>
    cases rs with
    | nil =>
      intro r' hlast
      rw [← Option.some.inj hlast]
      exact hone hr
    | cons => exact ih

/-- What each chunk joins, the run joins. -/
theorem Chunks.joins (h : Chunks bare file path d a counts rs) {f : Nat → Nat → Bytes} {g : Nat → Bytes}
    (hfg : ∀ a b, a ≤ b → b ≤ file.length → f a b ++ g b = g a) :
    ∀ last ∈ (chunkEnds rs).getLast?, (List.zipWith f (a :: chunkEnds rs) (chunkEnds rs)).flatten ++ g last = g a := by
  induction h with
  | nil a => exact fun last hlast => nomatch hlast
  | last hr _ =>
    intro last hlast
    rw [← Option.some.inj hlast]
    exact (congrArg (· ++ _) (List.append_nil _)).trans (hfg _ _ hr.start hr.stop)
  | @cons a m counts r rs hr hv _ ih =>
    intro last hlast
    have hhere := hfg _ _ hr.start hr.stop
    cases rs with
    | nil =>
      rw [← Option.some.inj hlast]
      exact (congrArg (· ++ _) (List.append_nil _)).trans hhere
    | cons r' rs =>
      have hrest := ih last hlast
      rw [chunkEnds, List.map_cons, List.zipWith_cons_cons, List.flatten_cons, List.append_assoc]
      exact (congrArg (f a r.2.moreByteOffset ++ ·) hrest).trans hhere

theorem Chunks.bodies (h : Chunks bare file path d a counts rs) :
    List.Forall₂ (fun r body => HasBody path bare r.1 body) rs
      (List.zipWith (chunkBody bare file) (a :: chunkEnds rs) (chunkEnds rs)) := by
  induction h with
  | nil a => exact .nil
  | last hr _ => exact .cons hr.body .nil
  | cons hr _ _ ih => exact .cons hr.body ih

theorem zipWith_zipWith {f : Nat → Nat → Bytes} {g : Nat → Bytes → Bytes} (as bs : List Nat) :
    List.zipWith g as (List.zipWith f as bs) = List.zipWith (fun a b => g a (f a b)) as bs := by
  induction as generalizing bs with
  | nil => rfl
  | cons a as ih =>
    cases bs with
    | nil => rfl
    | cons b bs => rw [List.zipWith_cons_cons, List.zipWith_cons_cons, List.zipWith_cons_cons, ih]

/-- The stripped bodies, whose ends lie in the file, are the text. -/
theorem Chunks.text (h : Chunks false file path d a counts rs) :
    ∀ last ∈ (chunkEnds rs).getLast?,
      (List.zipWith (fun a body => stripLabels (!lineStart file a) body) (a :: chunkEnds rs)
        (List.zipWith (numbered file) (a :: chunkEnds rs) (chunkEnds rs))).flatten ++ toLf (file.drop last) =
          toLf (file.drop a) := by
  rw [zipWith_zipWith]
  refine h.joins fun a b hab hb => ?_
  rw [stripLabels_numbered hb]
  have hrange := @toLf_range' file a (b - a) (by omega)
  rwa [Nat.add_sub_cancel' hab] at hrange

theorem Chunks.readsOn {calls : List AgentToolCall} (h : Chunks bare file path d a counts rs)
    (hcounts : counts.length = calls.length + 1) :
    ReadsOn bare file path a calls rs (List.zipWith (chunkBody bare file) (a :: chunkEnds rs) (chunkEnds rs)) where
  answers := h.bodies
  progress := h.progress.1
  finished hn := h.finished (by omega)
  complete := h.complete
  raw hbare := by
    subst hbare
    exact h.joins fun a b hab _ => drop_take_append hab
  text hbare := by
    subst hbare
    exact h.text
  labels hbare := by
    subst hbare
    rfl

/-- The chunks start and end between characters exactly when the labels fit in them. -/
theorem Chunks.whole_iff (h : Chunks bare file path d a counts rs) (hw : Whole file) (ha : Whole (file.take a)) :
    (∀ cut ∈ a :: chunkEnds rs, Whole (file.take cut)) ↔
      (bare = false → ∀ q ∈ ((a :: chunkEnds rs).zip counts).take rs.length, LabelsFit file q.1 q.2) := by
  have hone : ∀ {a m r}, ChunkRead bare file path a m d r → Whole (file.take a) →
      (Whole (file.take r.2.moreByteOffset) ↔ (bare = false → LabelsFit file a m)) := by
    intro a m r hr ha
    refine ⟨fun hend hbare => ?_, fun hfit => hr.whole hw ha hfit⟩
    subst hbare
    exact hr.labelsFit hw hend
  induction h with
  | nil a => exact ⟨fun _ _ q hq => absurd hq (by simp), fun _ cut hcut => by rwa [List.mem_singleton.mp hcut]⟩
  | last hr _ =>
    have hhere := hone hr ha
    constructor
    · intro hcuts hbare q hq
      rw [List.zip_cons_cons, List.length_singleton, List.take_succ_cons, List.take_zero, List.mem_singleton] at hq
      rw [hq]
      exact hhere.mp (hcuts _ (List.mem_cons_of_mem _ List.mem_cons_self)) hbare
    · intro hfit cut hcut
      rcases List.mem_cons.mp hcut with rfl | hcut
      · exact ha
      · rw [List.mem_singleton.mp hcut]
        exact hhere.mpr fun hbare => hfit hbare (_, _) List.mem_cons_self
  | @cons a m counts r rs hr _ _ ih =>
    have hhere := hone hr ha
    rw [chunkEnds, List.map_cons, List.forall_mem_cons, List.zip_cons_cons, List.length_cons, List.take_succ_cons]
    constructor
    · intro hcuts hbare
      have hend := hcuts.2 _ List.mem_cons_self
      exact List.forall_mem_cons.mpr ⟨hhere.mp hend hbare, (ih hend).mp hcuts.2 hbare⟩
    · intro hfit
      have hend := hhere.mpr fun hbare => (List.forall_mem_cons.mp (hfit hbare)).1
      exact ⟨ha, (ih hend).mpr fun hbare => (List.forall_mem_cons.mp (hfit hbare)).2⟩

/-- The first chunk starts between characters. -/
theorem whole_lineOffset (hw : Whole file) (n : Nat) : Whole (file.take (lineOffset file n)) := by
  obtain ⟨a, -, -, hle, -, hbefore, hline⟩ :=
    @skipLines_spec file 0 n (Nat.zero_le _) (.inl rfl) fun _ h => absurd h (Nat.not_lt_zero _)
  rw [lineOffset_eq hle hbefore hline]
  rcases hle.eq_or_lt with rfl | hlt
  · rw [List.take_length]
    exact hw
  have hstart := lineStart_of_first hbefore (hline.resolve_left hlt.ne)
  cases a with
  | zero => exact .nil
  | succ a =>
    have hc : file[a]? = some file[a] := List.getElem?_eq_getElem (Nat.lt_of_succ_lt hlt)
    rw [lineStart_succ hc, Bool.or_eq_true, Bool.and_eq_true] at hstart
    refine whole_take_succ hw hc ?_
    rw [isLineEnd, Bool.or_eq_true]
    exact hstart.imp_right And.left

end

/-- The runs of `read` and `more` show the file from the starting line on. In a text no chunk ends inside a character
exactly when every label in a chunk leaves the character behind it its bytes. -/
theorem read_more {openFile : OpenFile} {file path : Bytes} {call : AgentToolCall} (hopen : openFile path = .ok file)
    (hlong : ∀ path, pathMax ≤ path.length → ∃ e, openFile path = .error e) (hnul : 0 ∉ file)
    (hlines : lineCount file < intMax) (hpath : path ≠ []) (hpathArg : agentToolArgValue call (lit "path") = some path)
    (hwhole : agentParseBoolDefault (agentToolArgValue call (lit "whole")) false = false) (w : AgentReader)
    (calls : List AgentToolCall) :
    (∃ bodies, ReadsOn (rawOf call) file path (lineOffset file (startLineOf call)) calls (readMore openFile w call calls) bodies) ∧
      ((Whole file →
          ∀ cut ∈ lineOffset file (startLineOf call) :: chunkEnds (readMore openFile w call calls), Whole (file.take cut)) ↔
        (Whole file → rawOf call = false →
          ∀ q ∈ ((lineOffset file (startLineOf call) :: chunkEnds (readMore openFile w call calls)).zip
            (lineCountOf call (lit "max_lines") (agentReadDefaultLines w) ::
              calls.map fun call => lineCountOf call (lit "count") (agentReadDefaultLines w))).take
                (readMore openFile w call calls).length, LabelsFit file q.1 q.2)) := by
  have hlen : path.length < pathMax := by
    by_contra hnot
    obtain ⟨e, he⟩ := hlong path (Nat.le_of_not_lt hnot)
    rw [hopen] at he
    cases he
  have hchunks := readMore_chunks hnul hlines hopen hpath hlen hpathArg hwhole w calls
  refine ⟨⟨_, hchunks.readsOn (by rw [List.length_cons, List.length_map])⟩, ?_⟩
  exact imp_congr_right fun hw => hchunks.whole_iff hw (whole_lineOffset hw _)

/-- A disk with one file. -/
def openOne (path file : Bytes) : OpenFile := fun p => if p = path then .ok file else .error []

theorem openOne_long {path file : Bytes} (h : path.length < pathMax) :
    ∀ p, pathMax ≤ p.length → ∃ e, openOne path file p = .error e := by
  intro p hp
  refine ⟨[], if_neg fun heq => ?_⟩
  rw [heq] at hp
  omega

def freshReader : AgentReader := ⟨0, [], 0, 0, false, false, false⟩

/-- `read` with its path alone. -/
def readCall (path : Bytes) : AgentToolCall := ⟨[⟨some (lit "path"), some path⟩]⟩

theorem read_more_two_lines :
    ∃ bodies, ReadsOn (rawOf (readCall (lit "x"))) (lit "a\r\nb") (lit "x")
      (lineOffset (lit "a\r\nb") (startLineOf (readCall (lit "x")))) []
      (readMore (openOne (lit "x") (lit "a\r\nb")) freshReader (readCall (lit "x")) []) bodies :=
  (read_more (if_pos rfl) (openOne_long (by decide)) (by decide) (by decide) (by decide) rfl rfl freshReader []).1

/-- A line of `n` letters and a line that starts with a character of three bytes. -/
def longLine (n : Nat) : Bytes := List.replicate n (ch 'x') ++ lit "\n€"

section
variable {n p : Nat}

theorem longLine_getElem? (h : p < n) : (longLine n)[p]? = some (ch 'x') := by
  rw [longLine, List.getElem?_append_left (by rwa [List.length_replicate]), List.getElem?_replicate, if_pos h]

theorem longLine_getElem?_add (j : Nat) : (longLine n)[n + j]? = (lit "\n€")[j]? := by
  rw [longLine, List.getElem?_append_right (by rw [List.length_replicate]; omega), List.length_replicate,
    Nat.add_sub_cancel_left]

theorem length_longLine (n : Nat) : (longLine n).length = n + 4 := by
  rw [longLine, List.length_append, List.length_replicate]
  rfl

theorem whole_longLine (n : Nat) : Whole (longLine n) := by
  refine Whole.append ?_ (whole_lit _)
  induction n with
  | zero => exact .nil
  | succ n ih => exact Whole.append (whole_lit "x") ih

theorem lineStart_longLine (h : p < n) : lineStart (longLine n) (p + 1) = false := by
  rw [lineStart_succ (longLine_getElem? h)]
  rfl

theorem lineNo_longLine (h : p ≤ n) : lineNo (longLine n) p = 1 := by
  induction p with
  | zero => rfl
  | succ p ih => rw [lineNo_succ, lineStart_longLine h, ih (Nat.le_of_succ_le h)]; rfl

theorem lineStart_longLine_end : lineStart (longLine n) (n + 1) = true := by
  rw [lineStart_succ (longLine_getElem?_add 0)]
  rfl

theorem lineNo_longLine_end : lineNo (longLine n) (n + 1) = 2 := by
  rw [lineNo_succ, lineNo_longLine (Nat.le_refl n), lineStart_longLine_end]
  rfl

theorem length_numbered_longLine (hn : 0 < n) (h : p < n) : (numbered (longLine n) 0 (p + 1)).length = p + 3 := by
  induction p with
  | zero =>
    rw [numbered_succ (Nat.zero_le 0), numbered_self, labelAt, if_pos (.inl rfl), lineNo_zero, lineStart_zero,
      lfAt_of_getElem? (longLine_getElem? hn)]
    rfl
  | succ p ih =>
    have hlabel : labelAt (longLine n) 0 (p + 1) = [] := by
      rw [labelAt, lineStart_longLine (Nat.lt_of_succ_lt h)]
      rfl
    rw [numbered_succ (Nat.zero_le _), hlabel, lfAt_of_getElem? (longLine_getElem? h), List.length_append,
      ih (Nat.lt_of_succ_lt h)]
    rfl

theorem length_numbered_longLine_end (hn : 0 < n) : (numbered (longLine n) 0 (n + 1)).length = n + 3 := by
  obtain ⟨n, rfl⟩ := Nat.exists_eq_succ_of_ne_zero hn.ne'
  have hlabel : labelAt (longLine (n + 1)) 0 (n + 1) = [] := by
    rw [labelAt, lineStart_longLine (Nat.lt_succ_self n)]
    rfl
  rw [numbered_succ (Nat.zero_le _), hlabel, lfAt_of_getElem? (longLine_getElem?_add 0), List.length_append,
    length_numbered_longLine hn (Nat.lt_succ_self n)]
  rfl

end

/-- The label of the second line leaves one byte too few for the character behind it. -/
theorem read_splits_char :
    Whole (longLine 126972) ∧
      ∃ cut ∈ chunkEnds (readMore (openOne (lit "x") (longLine 126972)) freshReader (readCall (lit "x")) []),
        ¬Whole ((longLine 126972).take cut) := by
  have hw := whole_longLine 126972
  have hnul : 0 ∉ longLine 126972 := by
    intro h
    rcases List.mem_append.mp h with h | h
    · exact absurd (List.eq_of_mem_replicate h) (by decide)
    · exact absurd h (by decide)
  have hlines : lineCount (longLine 126972) < intMax := by
    refine Nat.lt_of_le_of_lt List.countP_le_length ?_
    rw [List.length_range, length_longLine]
    decide
  have hchunks := @readMore_chunks (longLine 126972) (lit "x") (openOne (lit "x") (longLine 126972)) (readCall (lit "x")) hnul
    hlines (if_pos rfl) (by decide) (by decide) rfl rfl freshReader []
  have hstart : lineOffset (longLine 126972) (startLineOf (readCall (lit "x"))) = 0 :=
    lineOffset_eq (Nat.zero_le _) (fun _ h => absurd h (Nat.not_lt_zero _)) (.inr (by decide))
  rw [hstart] at hchunks
  refine ⟨hw, ?_⟩
  by_contra hnone
  have hcuts : ∀ cut ∈ 0 :: chunkEnds (readMore (openOne (lit "x") (longLine 126972)) freshReader (readCall (lit "x")) []),
      Whole ((longLine 126972).take cut) := by
    refine List.forall_mem_cons.mpr ⟨.nil, fun cut hcut => ?_⟩
    by_contra hnot
    exact hnone ⟨cut, hcut, hnot⟩
  have hfit : LabelsFit (longLine 126972) 0 500 := (hchunks.whole_iff hw .nil).mp hcuts rfl (0, 500) List.mem_cons_self
  have hlen := length_longLine 126972
  have hsize : (numbered (longLine 126972) 0 126973).length = 126975 := length_numbered_longLine_end (by decide)
  have hno : lineNo (longLine 126972) 126973 = 2 := lineNo_longLine_end
  have hlabel : labelAt (longLine 126972) 0 126973 = lit "2 " := by
    rw [labelAt, lineStart_longLine_end, if_pos (.inr rfl), hno]
    rfl
  have hget : (longLine 126972).getD 126973 0 = 0xe2 := getD_of_getElem? (longLine_getElem?_add 1)
  have hlt : 126973 < (longLine 126972).length := by
    rw [hlen]
    decide
  have hless : lineNo (longLine 126972) 126973 < lineNo (longLine 126972) 0 + 500 := by
    rw [hno]
    decide
  have hsmall : (numbered (longLine 126972) 0 126973).length < readBudget := by
    rw [hsize]
    decide
  have hbound := hfit 126973 (Nat.zero_le _) hlt (.inr lineStart_longLine_end) hless hsmall (by rw [hget]; decide)
  rw [hsize, hlabel, hget] at hbound
  exact absurd hbound (by decide)

end Ds4.Agent
