import Ds4.Lib.Spans
import Ds4.Lib.TextLines

/-!
# The lines an edit moves

After an edit the agent reports which old lines were touched and by how much the lines behind them moved. The touched
lines are found by the first and the last replaced byte, the shift is the difference of the numbers of lines.
-/

namespace Ds4.Agent
open C TextLines

/-- The offsets of a line: its start, the end of its content and its end. -/
structure AgentLineSpan where
  start : Nat
  contentEnd : Nat
  lineEnd : Nat

def AgentLineSpan.text (data : Bytes) (sp : AgentLineSpan) : Bytes := span data sp.start (sp.contentEnd - sp.start)

/-- The length of the line ending at the start of a text. -/
def lineEndingLen (s : Bytes) : Nat :=
  if s = [] then 0 else if s.head? = some (ch '\r') ∧ (s.drop 1).head? = some (ch '\n') then 2 else 1

def contentLen (s : Bytes) : Nat := (s.takeWhile fun c => !(c == ch '\n' || c == ch '\r')).length

theorem lineLen_pos {s : Bytes} (h : s ≠ []) : 0 < contentLen s + lineEndingLen (s.drop (contentLen s)) := by
  by_cases h0 : contentLen s = 0
  · rw [h0, List.drop_zero, lineEndingLen, if_neg h]
    split <;> decide
  · omega

/-- The lines of the rest of the data, which starts at `pos`. -/
def splitLinesFrom (pos : Nat) (s : Bytes) : List AgentLineSpan :=
  if s = [] then []
  else
    let n := contentLen s + lineEndingLen (s.drop (contentLen s))
    ⟨pos, pos + contentLen s, pos + n⟩ :: splitLinesFrom (pos + n) (s.drop n)
termination_by s.length
decreasing_by
  have h1 := lineLen_pos ‹_›
  have h2 := List.length_pos_of_ne_nil ‹_›
  rw [List.length_drop]
  omega

def agentSplitLines (data : Bytes) : List AgentLineSpan := splitLinesFrom 0 data

def agentLineForOffset (spans : List AgentLineSpan) (offset : Nat) : Nat :=
  if spans = [] then 1
  else
    match spans.findIdx? fun sp => offset < sp.lineEnd with
    | some i => i + 1
    | none => spans.length

/-- The first and the last touched line, and the shift. -/
structure LineEffect where
  startLine : Nat
  endLine : Nat
  delta : Int

def agentOldNewLineEffect (oldData newData : Bytes) (editOffset replacedLen : Nat) : Option LineEffect :=
  let oldSpans := agentSplitLines oldData
  let newSpans := agentSplitLines newData
  if oldSpans = [] then none
  else
    let oldLast := if 0 < replacedLen then editOffset + replacedLen - 1 else editOffset
    let oldLast := if oldData.length ≤ oldLast then oldData.length - 1 else oldLast
    some {
      startLine := agentLineForOffset oldSpans editOffset
      endLine := agentLineForOffset oldSpans oldLast
      delta := newSpans.length - oldSpans.length }

/-! ## Spans of lines -/

/-- The spans of lines that stand one behind the other from `pos` on. -/
def spansOf (pos : Nat) : List Line → List AgentLineSpan
  | [] => []
  | l :: ls => ⟨pos, pos + l.content.length, pos + l.bytes.length⟩ :: spansOf (pos + l.bytes.length) ls

section
variable {s content e rest : Bytes} {ls : List Line} {l : Line} {pos i : Nat}

theorem contentLen_line (hc : ∀ c ∈ content, isBreak c = false) (h : Ends e rest) :
    contentLen (content ++ (e ++ rest)) = content.length := by
  have hall : ∀ c ∈ content, (!(c == ch '\n' || c == ch '\r')) = true := fun c hm => by
    rw [Bool.not_eq_true']
    exact hc c hm
  have htake : (e ++ rest).takeWhile (fun c => !(c == ch '\n' || c == ch '\r')) = [] := by cases h <;> rfl
  rw [contentLen, List.takeWhile_append_of_pos hall, htake, List.append_nil]

theorem lineEndingLen_line (h : Ends e rest) : lineEndingLen (e ++ rest) = e.length := by
  cases h with
  | lf => rfl
  | crlf => rfl
  | cr _ hnext =>
    have hne : (13 :: rest) ≠ [] := List.cons_ne_nil _ _
    exact (if_neg hne).trans (if_neg fun h => hnext h.2)
  | eof => rfl

theorem splitLinesFrom_eq (pos : Nat) (s : Bytes) : splitLinesFrom pos s = spansOf pos (lines s) := by
  fun_induction splitLinesFrom pos s with
  | case1 => rw [lines_nil]; rfl
  | case2 pos s hne n ih =>
    obtain ⟨content, e, rest, rfl, -, hc, he, hlines⟩ := lines_cases hne
    have hcontent := contentLen_line hc he
    have hn : n = (content ++ e).length := by
      show contentLen _ + lineEndingLen _ = _
      rw [hcontent, List.drop_left, lineEndingLen_line he, List.length_append]
    have hdrop : (content ++ (e ++ rest)).drop n = rest := by
      rw [hn, ← List.append_assoc, List.drop_left]
    rw [ih, hdrop, hcontent, hlines, hn]
    rfl

theorem length_spansOf (pos : Nat) (ls : List Line) : (spansOf pos ls).length = ls.length := by
  induction ls generalizing pos with
  | nil => rfl
  | cons l ls ih => exact congrArg Nat.succ (ih _)

theorem getElem?_spansOf (pos : Nat) (ls : List Line) (i : Nat) :
    (spansOf pos ls)[i]? = (ls[i]?).map fun l =>
      ⟨pos + offset ls i, pos + offset ls i + l.content.length, pos + offset ls i + l.bytes.length⟩ := by
  induction ls generalizing pos i with
  | nil => rfl
  | cons l ls ih =>
    cases i with
    | zero => rfl
    | succ i =>
      rw [spansOf, List.getElem?_cons_succ, List.getElem?_cons_succ, ih, offset_cons, Nat.add_assoc]

/-- The line in which an offset lies. -/
theorem findIdx?_spansOf {o : Nat} (ls : List Line) (hpos : pos ≤ o) (hlt : o < pos + (ls.flatMap Line.bytes).length) :
    ∃ i l, (spansOf pos ls).findIdx? (fun sp => o < sp.lineEnd) = some i ∧ ls[i]? = some l ∧
      pos + offset ls i ≤ o ∧ o < pos + offset ls i + l.bytes.length := by
  induction ls generalizing pos with
  | nil => exact absurd hlt (by rw [List.flatMap_nil, List.length_nil]; omega)
  | cons l ls ih =>
    rw [spansOf, List.findIdx?_cons]
    by_cases hin : o < pos + l.bytes.length
    · refine ⟨0, l, if_pos (decide_eq_true hin), rfl, ?_, ?_⟩
      · rw [offset_zero]
        exact hpos
      · rw [offset_zero]
        exact hin
    · rw [List.flatMap_cons, List.length_append] at hlt
      obtain ⟨i, l', hfind, hl', hle, hend⟩ := @ih (pos + l.bytes.length) (by omega) (by omega)
      refine ⟨i + 1, l', ?_, hl', ?_, ?_⟩
      · rw [if_neg (by simpa using hin), hfind]
        rfl
      · rw [offset_cons]
        omega
      · rw [offset_cons]
        omega

/-- The content of a line stands at its span. -/
theorem span_line (h : (lines s)[i]? = some l) : span s (offset (lines s) i) l.content.length = l.content := by
  have hi := (List.getElem?_eq_some_iff.mp h).1
  have hsplit : s = ((lines s).take i).flatMap Line.bytes ++ (l.content ++ (l.ending ++
      ((lines s).drop (i + 1)).flatMap Line.bytes)) := by
    conv_lhs => rw [← flatMap_lines s, ← List.take_append_drop i (lines s), List.flatMap_append,
      List.drop_eq_getElem_cons hi, (List.getElem?_eq_some_iff.mp h).2, List.flatMap_cons]
    rw [Line.bytes, List.append_assoc]
  generalize (lines s).drop (i + 1) = after at hsplit
  rw [span, offset]
  generalize (lines s).take i = before at hsplit ⊢
  rw [hsplit, List.drop_left, List.take_left]

theorem offset_succ (h : ls[i]? = some l) : offset ls (i + 1) = offset ls i + l.bytes.length := by
  rw [offset, List.take_add_one, h, List.flatMap_append, List.length_append, Option.toList_some, List.flatMap_singleton]
  rfl

theorem getElem?_agentSplitLines {data : Bytes} (h : (lines data)[i]? = some l) :
    (agentSplitLines data)[i]? =
      some ⟨offset (lines data) i, offset (lines data) i + l.content.length, offset (lines data) (i + 1)⟩ := by
  rw [agentSplitLines, splitLinesFrom_eq, getElem?_spansOf, h, offset_succ h, Option.map_some, Nat.zero_add]

end

/-- The text of a line; the first line has number 1. -/
def lineText (data : Bytes) (k : Int) : Option Bytes :=
  if 1 ≤ k then ((agentSplitLines data)[(k - 1).toNat]?).map fun sp => sp.text data else none

theorem lineText_eq (data : Bytes) (i : Nat) : lineText data (i + 1) = ((lines data)[i]?).map Line.content := by
  rw [lineText, if_pos (by omega), Int.add_sub_cancel, Int.toNat_natCast, agentSplitLines, splitLinesFrom_eq,
    getElem?_spansOf, Option.map_map]
  cases hl : (lines data)[i]? with
  | none => rfl
  | some l =>
    have hspan := span_line hl
    rw [Option.map_some, Option.map_some, Option.some.injEq, Function.comp_apply, AgentLineSpan.text]
    dsimp only
    rw [Nat.zero_add, Nat.add_sub_cancel_left, hspan]

section
variable {old ins : Bytes} {off n o : Nat}

theorem agentLineForOffset_eq (h : o < old.length) :
    ∃ i l, agentLineForOffset (agentSplitLines old) o = i + 1 ∧ (lines old)[i]? = some l ∧
      offset (lines old) i ≤ o ∧ o < offset (lines old) (i + 1) := by
  obtain ⟨i, l, hfind, hl, hle, hlt⟩ := findIdx?_spansOf (lines old) (Nat.zero_le o)
    (by rw [flatMap_lines, Nat.zero_add]; exact h)
  have hne : spansOf 0 (lines old) ≠ [] := by
    rintro hnil
    rw [hnil] at hfind
    exact nomatch hfind
  refine ⟨i, l, ?_, hl, by omega, by rw [offset_succ hl]; omega⟩
  rw [agentLineForOffset, agentSplitLines, splitLinesFrom_eq, if_neg hne, hfind]

/-- Behind the touched lines the new text has the old lines, the first of them perhaps behind other text. -/
theorem lines_behind (ins : Bytes) {j : Nat} (hj : off + n ≤ offset (lines old) j) (hlt : j < (lines old).length) :
    ∃ pre l f rest, lines (old.take off ++ ins ++ old.drop (off + n)) = pre ++ l :: rest ∧
      (lines old).drop j = f :: rest ∧ f.content <:+ l.content := by
  have hdrop := lines_drop old j
  have hne : old.drop (offset (lines old) j) ≠ [] := by
    intro hnil
    rw [offset] at hnil
    rw [hnil, lines_nil] at hdrop
    exact absurd (List.drop_eq_nil_iff.mp hdrop.symm) (Nat.not_le.mpr hlt)
  obtain ⟨k, hk⟩ := Nat.exists_eq_add_of_le hj
  have hsplit : old.take off ++ ins ++ old.drop (off + n)
      = (old.take off ++ ins ++ (old.drop (off + n)).take k) ++ old.drop (offset (lines old) j) := by
    have hbehind : old.drop (off + n + k) = (old.drop (off + n)).drop k := List.drop_drop.symm
    rw [hk, hbehind, List.append_assoc _ ((old.drop (off + n)).take k), List.take_append_drop]
  rw [hsplit, ← hdrop]
  exact lines_append _ hne

/-- An old line behind the touched ones is found again under the number that the shift gives; the first of them may
stand behind other text. -/
theorem lineText_behind (ins : Bytes) {j m : Nat} {t : Bytes} (hj : off + n ≤ offset (lines old) j)
    (ht : lineText old ((j + m : Nat) + 1) = some t) :
    ∃ t', lineText (old.take off ++ ins ++ old.drop (off + n)) ((j + m : Nat) + 1 +
        ((lines (old.take off ++ ins ++ old.drop (off + n))).length - (lines old).length : Int)) = some t' ∧
      t <:+ t' ∧ (0 < m → t' = t) := by
  rw [lineText_eq] at ht
  obtain ⟨g, hg, rfl⟩ := Option.map_eq_some_iff.mp ht
  have hjm := (List.getElem?_eq_some_iff.mp hg).1
  obtain ⟨pre, l, f, rest, hnew, hold, hsuf⟩ := lines_behind ins hj (by omega)
  have hlen : (lines old).length = j + (rest.length + 1) := by
    have := congrArg List.length hold
    rw [List.length_drop, List.length_cons] at this
    omega
  have hnum : ((j + m : Nat) : Int) + 1 + ((lines (old.take off ++ ins ++ old.drop (off + n))).length - (lines old).length)
      = ((pre.length + m : Nat) : Int) + 1 := by
    rw [hnew, hlen, List.length_append, List.length_cons]
    omega
  have hget : (f :: rest)[m]? = some g := by rw [← hold, List.getElem?_drop, hg]
  rw [hnum, lineText_eq, hnew, List.getElem?_append_right (Nat.le_add_right ..), Nat.add_sub_cancel_left]
  cases m with
  | zero =>
    cases hget
    exact ⟨l.content, rfl, hsuf, fun h => absurd h (Nat.lt_irrefl 0)⟩
  | succ m =>
    rw [List.getElem?_cons_succ] at hget ⊢
    exact ⟨g.content, by rw [hget]; rfl, List.suffix_rfl, fun _ => rfl⟩

end

/-- The report of an edit that replaces at least one byte. -/
theorem agentOldNewLineEffect_spec (old ins : Bytes) (off n : Nat) (hn : 0 < n) (hin : off + n ≤ old.length) :
    ∃ r first last, agentOldNewLineEffect old (old.take off ++ ins ++ old.drop (off + n)) off n = some r ∧
      0 < r.startLine ∧ (agentSplitLines old)[r.startLine - 1]? = some first ∧
      first.start ≤ off ∧ off < first.lineEnd ∧
      0 < r.endLine ∧ (agentSplitLines old)[r.endLine - 1]? = some last ∧
      last.start < off + n ∧ off + n ≤ last.lineEnd ∧
      (∀ (k : Nat) (t : Bytes), r.endLine + 1 < k → lineText old k = some t →
        lineText (old.take off ++ ins ++ old.drop (off + n)) (k + r.delta) = some t) ∧
      ∀ t, lineText old (r.endLine + 1) = some t →
        ∃ t', lineText (old.take off ++ ins ++ old.drop (off + n)) (r.endLine + 1 + r.delta) = some t' ∧ t <:+ t' := by
  obtain ⟨i, li, hstart, hli, hi1, hi2⟩ := @agentLineForOffset_eq old off (by omega)
  obtain ⟨j, lj, hend, hlj, hj1, hj2⟩ := @agentLineForOffset_eq old (off + n - 1) (by omega)
  generalize hnew : old.take off ++ ins ++ old.drop (off + n) = new
  have hlen : (agentSplitLines old).length = (lines old).length := by
    rw [agentSplitLines, splitLinesFrom_eq, length_spansOf]
  have hlen' : (agentSplitLines new).length = (lines new).length := by
    rw [agentSplitLines, splitLinesFrom_eq, length_spansOf]
  have hjlen := (List.getElem?_eq_some_iff.mp hlj).1
  have hne : agentSplitLines old ≠ [] := List.ne_nil_of_length_pos (by omega)
  have hnext : off + n ≤ offset (lines old) (j + 1) := by omega
  refine ⟨⟨i + 1, j + 1, (lines new).length - (lines old).length⟩, _, _, ?_, Nat.succ_pos i, getElem?_agentSplitLines hli, hi1, hi2,
    Nat.succ_pos j, getElem?_agentSplitLines hlj, ?_, ?_, fun k t hk ht => ?_, fun t ht => ?_⟩
  · rw [agentOldNewLineEffect]
    dsimp only
    rw [if_neg hne, if_pos hn, if_neg (by omega), hstart, hend, hlen, hlen']
  · show offset (lines old) j < off + n
    omega
  · exact hnext
  · have hk : j + 1 + 1 < k := hk
    obtain ⟨m, rfl⟩ := Nat.exists_eq_add_of_lt hk
    have hcast : ((j + 1 + 1 + m + 1 : Nat) : Int) = ((j + 1 + (m + 1) : Nat) : Int) + 1 := by omega
    rw [hcast] at ht ⊢
    obtain ⟨t', ht', -, heq⟩ := lineText_behind ins (j := j + 1) (m := m + 1) hnext ht
    rw [hnew] at ht'
    rw [ht', heq (Nat.succ_pos m)]
  · obtain ⟨t', ht', hsuf, -⟩ := lineText_behind ins (j := j + 1) (m := 0) hnext ht
    rw [hnew] at ht'
    exact ⟨t', ht', hsuf⟩

/-- A line ending is replaced, and the last line moves up and joins the first. -/
theorem agentOldNewLineEffect_spec_join :
    ∃ r first last, agentOldNewLineEffect (lit "a\nb") (lit "a" ++ lit ", " ++ lit "b") 1 1 = some r ∧
      0 < r.startLine ∧ (agentSplitLines (lit "a\nb"))[r.startLine - 1]? = some first ∧
      first.start ≤ 1 ∧ 1 < first.lineEnd ∧
      0 < r.endLine ∧ (agentSplitLines (lit "a\nb"))[r.endLine - 1]? = some last ∧
      last.start < 1 + 1 ∧ 1 + 1 ≤ last.lineEnd ∧
      (∀ (k : Nat) (t : Bytes), r.endLine + 1 < k → lineText (lit "a\nb") k = some t →
        lineText (lit "a" ++ lit ", " ++ lit "b") (k + r.delta) = some t) ∧
      ∀ t, lineText (lit "a\nb") (r.endLine + 1) = some t →
        ∃ t', lineText (lit "a" ++ lit ", " ++ lit "b") (r.endLine + 1 + r.delta) = some t' ∧ t <:+ t' :=
  agentOldNewLineEffect_spec (lit "a\nb") (lit ", ") 1 1 (by decide) (by decide)

end Ds4.Agent
