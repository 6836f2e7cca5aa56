import Ds4.Lib.CString

/-!
# Tool body escaping (`ds4_tool_text.h`)

Tool bodies are literal text between a start tag and a closing delimiter. Only the delimiter itself
and the spellings `&(amp;)*lt;` of its first character that would collide with the escape are
rewritten. The main result `escapeToolText_spec` says that the code is lossless and that the
delimiter first occurs where the writer put it, for every delimiter of the shape the renderers use.
-/

namespace Ds4
open C Scan

/-- `while (!strncmp(s, "amp;", 4)) s += 4`. -/
def skipAmp (s : Bytes) : Bytes :=
  if _h : lit "amp;" <+: s then skipAmp (s.drop 4) else s
termination_by s.length
decreasing_by
  have hl := List.IsPrefix.length_le ‹_›
  have h4 : (lit "amp;").length = 4 := by decide
  rw [List.length_drop]; omega

def ds4ToolTextEscapedClose (s fin : Bytes) : Bool :=
  match s with
  | [] => false
  | c :: s => c == ch '&' &&
      (decide (lit "lt;" <+: skipAmp s) && decide (fin.drop 1 <+: (skipAmp s).drop 3))

def ds4ToolTextNeedsEscape (s fin : Bytes) : Bool :=
  decide (fin <+: s) || ds4ToolTextEscapedClose s fin

/-- The in-place rewrite never writes past what it has read, so it is a plain function. -/
def ds4ToolTextUnescape (s fin : Bytes) : Bytes :=
  match s with
  | [] => []
  | c :: s =>
    if ds4ToolTextEscapedClose (c :: s) fin then
      if lit "&amp;" <+: c :: s then ch '&' :: ds4ToolTextUnescape (s.drop 4) fin
      else ch '<' :: ds4ToolTextUnescape (s.drop 3) fin
    else c :: ds4ToolTextUnescape s fin
termination_by s.length
decreasing_by all_goals (simp only [List.length_drop, List.length_cons]; omega)

/-- The first `n` bytes of `s` may still grow into an escaped closing delimiter. -/
def ds4ToolTextPartialEscape (s fin : Bytes) : Bool :=
  match s with
  | [] => false
  | c :: s => c == ch '&' &&
      (let r := skipAmp s
       if r.length < 4 ∧ r <+: lit "amp;" then true
       else if r.length < 3 then decide (r <+: lit "lt;")
       else if lit "lt;" <+: r then
         (r.drop 3).length < (fin.drop 1).length && decide (r.drop 3 <+: fin.drop 1)
       else false)

/-- The escape loop of the renderers, over its closing delimiter. -/
def escapeToolText (fin : Bytes) : Bytes → Bytes
  | [] => []
  | c :: s =>
    if ds4ToolTextNeedsEscape (c :: s) fin then
      (if c = ch '<' then lit "&lt;" else lit "&amp;") ++ escapeToolText fin s
    else c :: escapeToolText fin s

def appendDsmlParameterText (s : Option Bytes) : Bytes :=
  escapeToolText (lit "</｜DSML｜parameter>") (orEmpty s)

def appendGlmTagBodyText (s : Option Bytes) (fin : Bytes) : Bytes := escapeToolText fin (orEmpty s)

def appendGlmArgKeyText (s : Option Bytes) : Bytes := appendGlmTagBodyText s (lit "</arg_key>")

def appendGlmArgValueText (s : Option Bytes) : Bytes := appendGlmTagBodyText s (lit "</arg_value>")

def appendGlmToolResponseText (s : Option Bytes) : Bytes :=
  appendGlmTagBodyText s (lit "</tool_response>")

def appendToolResultText (s : Option Bytes) : Bytes :=
  escapeToolText (lit "</tool_result>") (orEmpty s)

/-! ## Words the escape leaves alone -/

/-- A closing delimiter: `<` and then neither `<` nor `&`. -/
structure ClosingDelim (fin : Bytes) : Prop where
  sharp : Sharp (ch '<') fin
  noAmp : ch '&' ∉ fin

instance (fin : Bytes) : Decidable (ClosingDelim fin) :=
  decidable_of_iff (Sharp (ch '<') fin ∧ ch '&' ∉ fin) ⟨fun h => ⟨h.1, h.2⟩, fun h => ⟨h.1, h.2⟩⟩

/-- Bytes the escape never touches and never emits first. -/
def Plain (w : Bytes) : Prop := ch '<' ∉ w ∧ ch '&' ∉ w

theorem Plain.append (ha : Plain a) (hb : Plain b) : Plain (a ++ b) := by
  simp only [Plain, List.mem_append, not_or]
  exact ⟨⟨ha.1, hb.1⟩, ⟨ha.2, hb.2⟩⟩

theorem ClosingDelim.exists_tail (h : ClosingDelim fin) :
    ∃ tl, fin = ch '<' :: tl ∧ Plain tl := by
  obtain ⟨tl, rfl, hc⟩ := h.sharp
  exact ⟨tl, rfl, hc, fun ha => h.noAmp (List.mem_cons_of_mem _ ha)⟩

/-- What follows `&` in an escaped delimiter of depth `k`. -/
def closeWord (k : Nat) (tl : Bytes) : Bytes :=
  (List.replicate k (lit "amp;")).flatten ++ (lit "lt;" ++ tl)

theorem closeWord_succ : closeWord (k + 1) tl = lit "amp;" ++ closeWord k tl := by
  simp [closeWord, List.replicate_succ]

theorem closeWord_plain (h : Plain tl) : Plain (closeWord k tl) := by
  induction k with
  | zero => exact Plain.append (a := lit "lt;") ⟨by decide, by decide⟩ h
  | succ k ih => rw [closeWord_succ]; exact Plain.append ⟨by decide, by decide⟩ ih

theorem skipAmp_append : skipAmp (lit "amp;" ++ s) = skipAmp s := by
  rw [skipAmp, dif_pos (List.prefix_append _ _)]
  rfl

/-- The escaped delimiters are exactly `&` followed by a `closeWord`. -/
theorem escapedClose_iff : ds4ToolTextEscapedClose s (c :: tl) = true ↔
    ∃ k s', s = ch '&' :: s' ∧ closeWord k tl <+: s' := by
  cases s with
  | nil => simp [ds4ToolTextEscapedClose]
  | cons d s =>
    simp only [ds4ToolTextEscapedClose, Bool.and_eq_true, beq_iff_eq, decide_eq_true_eq,
      List.drop_succ_cons, List.drop_zero, List.cons.injEq]
    constructor
    · rintro ⟨rfl, h1, h2⟩
      have hk : ∀ s, lit "lt;" <+: skipAmp s → tl <+: (skipAmp s).drop 3 →
          ∃ k, closeWord k tl <+: s := by
        intro s
        fun_induction skipAmp s with
        | case1 s h ih =>
          intro h1 h2
          obtain ⟨k, u, hu⟩ := ih h1 h2
          obtain ⟨v, rfl⟩ := h
          exact ⟨k + 1, u, by rw [closeWord_succ, List.append_assoc, hu]; rfl⟩
        | case2 s h =>
          rintro ⟨v, rfl⟩ ⟨u, hu⟩
          change tl ++ u = v at hu
          exact ⟨0, u, by simp [closeWord, ← hu]⟩
      obtain ⟨k, hk⟩ := hk s h1 h2
      exact ⟨k, s, ⟨rfl, rfl⟩, hk⟩
    · rintro ⟨k, s', ⟨rfl, rfl⟩, u, rfl⟩
      refine ⟨rfl, ?_⟩
      induction k with
      | zero =>
        have h0 : skipAmp (closeWord 0 tl ++ u) = lit "lt;" ++ (tl ++ u) := by
          rw [skipAmp, dif_neg]
          · simp [closeWord]
          · rintro ⟨v, hv⟩
            exact absurd (List.cons.inj hv).1 (by decide)
        rw [h0]
        exact ⟨List.prefix_append _ _, List.prefix_append _ _⟩
      | succ k ih => rwa [closeWord_succ, List.append_assoc, skipAmp_append]

theorem needsEscape_head (h : ClosingDelim fin) (hn : ds4ToolTextNeedsEscape (c :: s) fin = true) :
    c = ch '<' ∨ c = ch '&' := by
  obtain ⟨tl, rfl, -⟩ := h.exists_tail
  simp only [ds4ToolTextNeedsEscape, Bool.or_eq_true, decide_eq_true_eq] at hn
  rcases hn with ⟨u, hu⟩ | hn
  · exact .inl (List.cons.inj hu).1.symm
  · obtain ⟨k, s', hs, -⟩ := escapedClose_iff.1 hn
    exact .inr (List.cons.inj hs).1

theorem isPrefix_escapeToolText (h : ClosingDelim fin) (hw : Plain w) :
    w <+: escapeToolText fin s ↔ w <+: s := by
  induction w generalizing s with
  | nil => simp
  | cons a w ih =>
    simp only [Plain, List.mem_cons, not_or] at hw
    cases s with
    | nil => simp [escapeToolText]
    | cons d s =>
      rw [escapeToolText]
      split
      · next hn =>
        -- an escaped byte is written with a leading `&`, which `w` does not start with
        have hd := needsEscape_head h hn
        constructor
        · rintro ⟨u, hu⟩
          split at hu <;> exact absurd (List.cons.inj hu).1.symm hw.2.1
        · rintro ⟨u, hu⟩
          rcases hd with rfl | rfl
          · exact absurd (List.cons.inj hu).1.symm hw.1.1
          · exact absurd (List.cons.inj hu).1.symm hw.2.1
      · simp only [List.cons_prefix_cons, ih ⟨hw.1.2, hw.2.2⟩]

theorem escapedClose_escapeToolText (h : ClosingDelim fin) :
    ds4ToolTextEscapedClose (ch '&' :: escapeToolText fin s) fin =
      ds4ToolTextEscapedClose (ch '&' :: s) fin := by
  obtain ⟨tl, rfl, htl⟩ := h.exists_tail
  rw [Bool.eq_iff_iff, escapedClose_iff, escapedClose_iff]
  simp [isPrefix_escapeToolText h (closeWord_plain htl)]

/-! ## The code is lossless and delimiter safe -/

theorem unescape_lt (h : ds4ToolTextEscapedClose (lit "&lt;" ++ s) fin = true) :
    ds4ToolTextUnescape (lit "&lt;" ++ s) fin = ch '<' :: ds4ToolTextUnescape s fin := by
  change ds4ToolTextEscapedClose (ch '&' :: (lit "lt;" ++ s)) fin = true at h
  change ds4ToolTextUnescape (ch '&' :: (lit "lt;" ++ s)) fin = _
  rw [ds4ToolTextUnescape, if_pos h, if_neg]
  · rfl
  · rintro ⟨u, hu⟩
    exact absurd (List.cons.inj (List.cons.inj hu).2).1 (by decide)

theorem unescape_amp (h : ds4ToolTextEscapedClose (lit "&amp;" ++ s) fin = true) :
    ds4ToolTextUnescape (lit "&amp;" ++ s) fin = ch '&' :: ds4ToolTextUnescape s fin := by
  change ds4ToolTextEscapedClose (ch '&' :: (lit "amp;" ++ s)) fin = true at h
  change ds4ToolTextUnescape (ch '&' :: (lit "amp;" ++ s)) fin = _
  rw [ds4ToolTextUnescape, if_pos h, if_pos ⟨s, rfl⟩]
  rfl

theorem unescape_escapeToolText (h : ClosingDelim fin) :
    ds4ToolTextUnescape (escapeToolText fin s) fin = s := by
  obtain ⟨tl, rfl, htl⟩ := h.exists_tail
  induction s with
  | nil => simp [escapeToolText, ds4ToolTextUnescape]
  | cons c s ih =>
    rw [escapeToolText]
    split
    · next hn =>
      by_cases hc : c = ch '<'
      · subst hc
        have hp : tl <+: s := by
          simp only [ds4ToolTextNeedsEscape, Bool.or_eq_true, decide_eq_true_eq] at hn
          rcases hn with hn | hn
          · exact (List.cons_prefix_cons.1 hn).2
          · obtain ⟨k, s', hs, -⟩ := escapedClose_iff.1 hn
            exact absurd (List.cons.inj hs).1 (by decide)
        have hcl : ds4ToolTextEscapedClose (lit "&lt;" ++ escapeToolText (ch '<' :: tl) s)
            (ch '<' :: tl) = true := by
          refine escapedClose_iff.2 ⟨0, _, rfl, ?_⟩
          exact (List.prefix_append_right_inj (lit "lt;")).2
            ((isPrefix_escapeToolText h htl).2 hp)
        rw [if_pos rfl, unescape_lt hcl, ih]
      · have hamp := (needsEscape_head h hn).resolve_left hc
        subst hamp
        obtain ⟨k, s', hs, hk⟩ : ∃ k s', ch '&' :: s = ch '&' :: s' ∧ closeWord k tl <+: s' := by
          simp only [ds4ToolTextNeedsEscape, Bool.or_eq_true, decide_eq_true_eq] at hn
          rcases hn with ⟨u, hu⟩ | hn
          · exact absurd (List.cons.inj hu).1 (by decide)
          · exact escapedClose_iff.1 hn
        cases hs
        have hcl : ds4ToolTextEscapedClose (lit "&amp;" ++ escapeToolText (ch '<' :: tl) s)
            (ch '<' :: tl) = true := by
          refine escapedClose_iff.2 ⟨k + 1, _, rfl, ?_⟩
          rw [closeWord_succ]
          exact (List.prefix_append_right_inj (lit "amp;")).2
            ((isPrefix_escapeToolText h (closeWord_plain htl)).2 hk)
        rw [if_neg hc, unescape_amp hcl, ih]
    · next hn =>
      have hcl : ds4ToolTextEscapedClose (c :: escapeToolText (ch '<' :: tl) s)
          (ch '<' :: tl) = false := by
        by_cases hc : c = ch '&'
        · subst hc
          rw [escapedClose_escapeToolText h]
          simp only [ds4ToolTextNeedsEscape, Bool.or_eq_true, not_or, Bool.not_eq_true] at hn
          exact hn.2
        · simp [ds4ToolTextEscapedClose, hc]
      rw [ds4ToolTextUnescape, hcl, if_neg Bool.false_ne_true, ih]

theorem find_escapeToolText (h : ClosingDelim fin) : find fin (escapeToolText fin s) = none := by
  obtain ⟨tl, rfl, htl⟩ := h.exists_tail
  induction s with
  | nil => rfl
  | cons c s ih =>
    rw [escapeToolText]
    split
    · next hn =>
      split
      · rw [find_append_of_not_mem (by decide), ih]; rfl
      · rw [find_append_of_not_mem (by decide), ih]; rfl
    · next hn =>
      rw [find, if_neg, ih, Option.map_none]
      intro hp
      obtain ⟨rfl, htail⟩ := List.cons_prefix_cons.1 hp
      have htail := (isPrefix_escapeToolText h htl).1 htail
      exact hn (by simp [ds4ToolTextNeedsEscape, htail])

/-- Tool body escaping is lossless and delimiter safe. -/
theorem escapeToolText_spec (fin s : Bytes) (h : ClosingDelim fin) :
    find fin (escapeToolText fin s ++ fin) = some (escapeToolText fin s).length ∧
      ds4ToolTextUnescape (escapeToolText fin s) fin = s := by
  refine ⟨?_, unescape_escapeToolText h⟩
  simpa using h.sharp.find_at (t := []) (find_escapeToolText h)

/-- A body that holds both the closing tag and an already escaped one. -/
theorem escapeToolText_spec_nested :
    find (lit "</tool_result>") (escapeToolText (lit "</tool_result>")
        (lit "</tool_result>&amp;lt;/tool_result>") ++ lit "</tool_result>") = some 42 ∧
      ds4ToolTextUnescape (escapeToolText (lit "</tool_result>")
        (lit "</tool_result>&amp;lt;/tool_result>")) (lit "</tool_result>") =
        lit "</tool_result>&amp;lt;/tool_result>" := by
  have h := escapeToolText_spec (lit "</tool_result>") (lit "</tool_result>&amp;lt;/tool_result>")
    (by decide)
  have hl : (escapeToolText (lit "</tool_result>")
      (lit "</tool_result>&amp;lt;/tool_result>")).length = 42 := by decide +kernel
  rwa [hl] at h

end Ds4
