import Ds4.Lib.CString

/-!
# Lines of a text

A line ends with `\n`, `\r\n` or `\r`; the last one may have no ending. What is put in front of a text changes at most
its first line, which becomes the end of a line.
-/

namespace TextLines
open C

structure Line where
  content : Bytes
  ending : Bytes

def Line.bytes (l : Line) : Bytes := l.content ++ l.ending

def isBreak (c : UInt8) : Bool := c == 10 || c == 13

/-- The line ending that a text starts with. -/
def ending : Bytes → Bytes
  | [] => []
  | c :: s => if c = 10 then [10] else if c = 13 then if s.head? = some 10 then [13, 10] else [13] else []

def firstLine (s : Bytes) : Line := ⟨s.takeWhile (!isBreak ·), ending (s.dropWhile (!isBreak ·))⟩

/-- `e` is the ending of a line when `rest` is what follows. -/
inductive Ends : Bytes → Bytes → Prop
  | lf (rest : Bytes) : Ends [10] rest
  | crlf (rest : Bytes) : Ends [13, 10] rest
  | cr (rest : Bytes) : rest.head? ≠ some 10 → Ends [13] rest
  | eof : Ends [] []

section
variable {a b s content e rest : Bytes}

theorem ending_append (h : Ends e rest) : ending (e ++ rest) = e := by
  cases h with
  | lf => rfl
  | crlf => rfl
  | cr _ h =>
    show (if (13 : UInt8) = 10 then [10] else if (13 : UInt8) = 13 then if rest.head? = some 10 then [13, 10] else [13]
      else []) = [13]
    rw [if_neg (by decide), if_pos rfl, if_neg h]
  | eof => rfl

theorem Ends.head_break (h : Ends e rest) : (e ++ rest).dropWhile (!isBreak ·) = e ++ rest := by
  cases h <;> rfl

theorem Ends.takeWhile (h : Ends e rest) : (e ++ rest).takeWhile (!isBreak ·) = [] := by
  cases h <;> rfl

theorem firstLine_append (hc : ∀ c ∈ content, isBreak c = false) (h : Ends e rest) :
    firstLine (content ++ (e ++ rest)) = ⟨content, e⟩ := by
  have hall : ∀ c ∈ content, (!isBreak c) = true := fun c hm => by rw [hc c hm]; rfl
  rw [firstLine, List.takeWhile_append_of_pos hall, List.dropWhile_append_of_pos hall, h.takeWhile, h.head_break,
    ending_append h, List.append_nil]

/-- Every text starts with a line. -/
theorem exists_line (s : Bytes) :
    ∃ content e rest, s = content ++ (e ++ rest) ∧ (∀ c ∈ content, isBreak c = false) ∧ Ends e rest := by
  induction s with
  | nil => exact ⟨[], [], [], rfl, fun _ h => absurd h List.not_mem_nil, .eof⟩
  | cons c s ih =>
    by_cases hlf : c = 10
    · exact ⟨[], [10], s, by rw [hlf]; rfl, fun _ h => absurd h List.not_mem_nil, .lf s⟩
    by_cases hcr : c = 13
    · rw [hcr]
      by_cases hnext : s.head? = some 10
      · obtain ⟨s', rfl⟩ := List.head?_eq_some_iff.mp hnext
        exact ⟨[], [13, 10], s', rfl, fun _ h => absurd h List.not_mem_nil, .crlf s'⟩
      · exact ⟨[], [13], s, rfl, fun _ h => absurd h List.not_mem_nil, .cr s hnext⟩
    · obtain ⟨content, e, rest, rfl, hc, he⟩ := ih
      refine ⟨c :: content, e, rest, rfl, fun d hd => ?_, he⟩
      rcases List.mem_cons.mp hd with rfl | hd
      · rw [isBreak, beq_eq_false_iff_ne.mpr hlf, beq_eq_false_iff_ne.mpr hcr]
        rfl
      · exact hc d hd

end

theorem firstLine_bytes_append (s : Bytes) : (firstLine s).bytes ++ s.drop (firstLine s).bytes.length = s := by
  obtain ⟨content, e, rest, rfl, hc, he⟩ := exists_line s
  rw [firstLine_append hc he, Line.bytes, ← List.append_assoc, List.drop_left]

theorem firstLine_bytes_pos {s : Bytes} (h : s ≠ []) : 0 < (firstLine s).bytes.length := by
  obtain ⟨content, e, rest, rfl, hc, he⟩ := exists_line s
  rw [firstLine_append hc he, Line.bytes]
  refine List.length_pos_of_ne_nil fun hnil => h ?_
  obtain ⟨rfl, rfl⟩ := List.append_eq_nil_iff.mp hnil
  cases he
  rfl

def lines (s : Bytes) : List Line :=
  if s = [] then [] else firstLine s :: lines (s.drop (firstLine s).bytes.length)
termination_by s.length
decreasing_by
  have h1 := firstLine_bytes_pos ‹_›
  have h2 := List.length_pos_of_ne_nil ‹_›
  rw [List.length_drop]
  omega

@[simp] theorem lines_nil : lines [] = [] := by rw [lines, if_pos rfl]

section
variable {a b s content e rest : Bytes}

theorem lines_append_line (hne : content ++ e ≠ []) (hc : ∀ c ∈ content, isBreak c = false) (h : Ends e rest) :
    lines (content ++ (e ++ rest)) = ⟨content, e⟩ :: lines rest := by
  rw [lines, if_neg, firstLine_append hc h, Line.bytes, ← List.append_assoc, List.drop_left]
  rw [← List.append_assoc]
  exact fun hnil => hne (List.append_eq_nil_iff.mp hnil).1

/-- A text that is not empty is a line and the lines behind it. -/
theorem lines_cases (hne : s ≠ []) :
    ∃ content e rest, s = content ++ (e ++ rest) ∧ content ++ e ≠ [] ∧ (∀ c ∈ content, isBreak c = false) ∧
      Ends e rest ∧ lines s = ⟨content, e⟩ :: lines rest := by
  obtain ⟨content, e, rest, rfl, hc, he⟩ := exists_line s
  have hne' : content ++ e ≠ [] := by
    intro hnil
    obtain ⟨rfl, rfl⟩ := List.append_eq_nil_iff.mp hnil
    cases he
    exact hne rfl
  exact ⟨content, e, rest, rfl, hne', hc, he, lines_append_line hne' hc he⟩

theorem lines_ne_nil (hne : s ≠ []) : lines s ≠ [] := by
  obtain ⟨_, _, _, _, _, _, _, h⟩ := lines_cases hne
  rw [h]
  exact List.cons_ne_nil _ _

theorem flatMap_lines (s : Bytes) : (lines s).flatMap Line.bytes = s := by
  fun_induction lines s with
  | case1 => rfl
  | case2 s hne ih => rw [List.flatMap_cons, ih, firstLine_bytes_append]

/-- The first `n` lines taken away. -/
theorem lines_drop (s : Bytes) (n : Nat) :
    lines (s.drop (((lines s).take n).flatMap Line.bytes).length) = (lines s).drop n := by
  induction n generalizing s with
  | zero => rfl
  | succ n ih =>
    by_cases hne : s = []
    · rw [hne, List.drop_nil, lines_nil, List.drop_nil]
    · obtain ⟨content, e, rest, rfl, -, -, -, hlines⟩ := lines_cases hne
      rw [hlines, List.take_succ_cons, List.flatMap_cons, List.drop_succ_cons, ← ih rest, Line.bytes,
        List.length_append, ← List.append_assoc, List.drop_length_add_append]

/-- What stands in front of a text joins at most its first line. -/
theorem lines_append (a : Bytes) (hb : b ≠ []) :
    ∃ pre l f rest, lines (a ++ b) = pre ++ l :: rest ∧ lines b = f :: rest ∧ f.content <:+ l.content := by
  induction h : a.length using Nat.strong_induction_on generalizing a with
  | _ n ih =>
    obtain ⟨cb, eb, rb, hb', hneb, hcb, heb, hlb⟩ := lines_cases hb
    by_cases ha : a = []
    · exact ⟨[], _, _, _, by rw [ha, List.nil_append, hlb]; rfl, hlb, List.suffix_rfl⟩
    obtain ⟨content, e, rest, rfl, hne, hc, he, -⟩ := lines_cases ha
    -- the first line of `a` stays a line, and the rest of `a` is shorter
    have hrec : Ends e (rest ++ b) → ∃ pre l f r,
        lines (content ++ (e ++ rest) ++ b) = pre ++ l :: r ∧ lines b = f :: r ∧ f.content <:+ l.content := by
      intro hends
      have hlen : rest.length < n := by
        have := List.length_pos_of_ne_nil hne
        rw [← h, ← List.append_assoc, List.length_append]
        omega
      obtain ⟨pre, l, f, r, hl, hf, hsuf⟩ := ih rest.length hlen rest rfl
      refine ⟨⟨content, e⟩ :: pre, l, f, r, ?_, hf, hsuf⟩
      rw [List.append_assoc, List.append_assoc, lines_append_line hne hc hends, hl]
      rfl
    cases he with
    | lf => exact hrec (.lf _)
    | crlf => exact hrec (.crlf _)
    | cr _ hnext =>
      cases rest with
      | cons c r => exact hrec (.cr _ hnext)
      | nil =>
        by_cases hlf : b.head? = some 10
        · -- the two halves of an ending come together
          obtain ⟨b', rfl⟩ := List.head?_eq_some_iff.mp hlf
          refine ⟨[], ⟨content, [13, 10]⟩, ⟨[], [10]⟩, lines b', ?_, ?_, List.nil_suffix⟩
          · rw [List.append_assoc]
            exact lines_append_line (by simp) hc (.crlf b')
          · exact @lines_append_line [] _ _ (by simp) (fun _ h => absurd h List.not_mem_nil) (.lf b')
        · exact hrec (.cr _ hlf)
    | eof =>
      refine ⟨[], ⟨content ++ cb, eb⟩, _, _, ?_, hlb, List.suffix_append ..⟩
      rw [List.append_nil, List.append_nil, hb', ← List.append_assoc]
      refine lines_append_line ?_ (fun c hm => (List.mem_append.mp hm).elim (hc c) (hcb c)) heb
      rw [List.append_assoc]
      exact fun hnil => hneb (List.append_eq_nil_iff.mp hnil).2

end

/-- Where a line starts. -/
def offset (ls : List Line) (i : Nat) : Nat := ((ls.take i).flatMap Line.bytes).length

theorem offset_zero (ls : List Line) : offset ls 0 = 0 := rfl

theorem offset_cons (l : Line) (ls : List Line) (i : Nat) : offset (l :: ls) (i + 1) = l.bytes.length + offset ls i := by
  rw [offset, List.take_succ_cons, List.flatMap_cons, List.length_append]
  rfl

end TextLines
