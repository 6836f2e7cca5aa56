import Ds4.Server.ToolParse
import Ds4.Server.JsonGrammar

/-!
# The text of an invoke

What the parser reads as an invoke is a text of complete tags: `InvokesText` is that text without the parser.
Every block the parser accepts begins with such a text, and it is read the same whatever stands behind it.
-/

namespace Ds4
open C Scan

/-- An opening tag. It ends at its first `>`. -/
structure TagText (start tag : Bytes) : Prop where
  head : start <+: tag
  close : ∃ u, tag = u ++ [ch '>'] ∧ ch '>' ∉ u

/-- The arguments with the value of a parameter added; a missing type means a string. -/
def addValue (paramEnd name : Bytes) (isString : Option Bytes) (value args : Bytes) : Bytes :=
  toolCallJsonArgsAdd args name
    (if isString.getD (lit "true") = lit "true" then ds4ToolTextUnescape value paramEnd else value)
    (isString.getD (lit "true"))

/-- The arguments with an object of child parameters added. -/
def addObject (name members args : Bytes) : Bytes :=
  toolCallJsonArgsAdd args name (lit "\x7b" ++ members ++ lit "\x7d") (lit "false")

section
variable (syn : DsmlSyntax)

/-- A parameter with a value, up to its closing tag. -/
inductive LeafText (args : Bytes) : Bytes → Bytes → Prop
  | intro {tag name value : Bytes} : TagText syn.paramStart tag → dsmlAttr tag (lit "name") = some name →
      find syn.paramEnd value = none →
      LeafText args (tag ++ (value ++ syn.paramEnd))
        (addValue syn.paramEnd name (dsmlAttr tag (lit "string")) value args)

/-- Child parameters next to each other. -/
inductive ChildrenText : Bytes → Bytes → Bytes → Prop
  | nil {args : Bytes} : ChildrenText args [] args
  | cons {args args₁ args₂ a v w : Bytes} : Space a → LeafText syn args v args₁ → ChildrenText args₁ w args₂ →
      ChildrenText args (a ++ (v ++ w)) args₂

/-- An untyped parameter up to the end of its last child. -/
structure ObjectText (args v args' : Bytes) : Prop where
  intro ::
  parts : ∃ tag name cs members, v = tag ++ cs ∧ TagText syn.paramStart tag ∧
    dsmlAttr tag (lit "name") = some name ∧ dsmlAttr tag (lit "string") = none ∧ cs ≠ [] ∧
    ChildrenText syn [] cs members ∧ args' = addObject name members args

/-- The parameters of an invoke up to its closing tag. A parameter with child parameters may lack its own
closing tag when it is the last one. -/
inductive ParamsText : Bytes → Bytes → Bytes → Prop
  | done {args a : Bytes} : Space a → ParamsText args (a ++ syn.invokeEnd) args
  | leaf {args args' a tag name value w : Bytes} : Space a → TagText syn.paramStart tag →
      dsmlAttr tag (lit "name") = some name → find syn.paramEnd value = none →
      ¬(dsmlAttr tag (lit "string") = none ∧ syn.paramStart <+: skipSpace value) →
      ParamsText (addValue syn.paramEnd name (dsmlAttr tag (lit "string")) value args) w args' →
      ParamsText args (a ++ (tag ++ (value ++ (syn.paramEnd ++ w)))) args'
  | object {args args₁ args' a b v w : Bytes} : Space a → ObjectText syn args v args₁ → Space b →
      ParamsText args₁ w args' → ParamsText args (a ++ (v ++ (b ++ (syn.paramEnd ++ w)))) args'
  | openObject {args args' a b v : Bytes} : Space a → ObjectText syn args v args' → Space b →
      ParamsText args (a ++ (v ++ (b ++ syn.invokeEnd))) args'

inductive InvokeText : Bytes → ToolCall → Prop
  | intro {tag name w args : Bytes} : TagText syn.invokeStart tag → dsmlAttr tag (lit "name") = some name →
      ParamsText syn [] w args → InvokeText (tag ++ w) ⟨some name, some (lit "\x7b" ++ args ++ lit "\x7d")⟩

/-- Invokes next to each other. -/
inductive InvokesText : Bytes → List ToolCall → Prop
  | nil : InvokesText [] []
  | cons {a v w : Bytes} {tc : ToolCall} {calls : List ToolCall} : Space a → InvokeText syn v tc →
      InvokesText w calls → InvokesText (a ++ (v ++ w)) (tc :: calls)

end

/-! ## Tags -/

theorem not_prefix_append {v w q : Bytes} (h1 : ¬v <+: w) (h2 : ¬w <+: v) : ¬v <+: w ++ q := fun h =>
  (List.prefix_or_prefix_of_prefix h (List.prefix_append w q)).elim h1 h2

/-- The tags of a block as the parser tells them apart. -/
theorem dsmlSyntaxes_tags : ∀ syn ∈ dsmlSyntaxes,
    ch '>' ∉ syn.paramStart ∧ ch '>' ∉ syn.invokeStart ∧
    (¬syn.paramStart <+: syn.paramEnd ∧ ¬syn.paramEnd <+: syn.paramStart) ∧
    (¬syn.paramStart <+: syn.invokeEnd ∧ ¬syn.invokeEnd <+: syn.paramStart) ∧
    (¬syn.paramEnd <+: syn.invokeEnd ∧ ¬syn.invokeEnd <+: syn.paramEnd) ∧
    (¬syn.toolCallsEnd <+: syn.invokeStart ∧ ¬syn.invokeStart <+: syn.toolCallsEnd) := by decide

theorem DsmlSyntax.sharp_mem (syn : DsmlSyntax) : Sharp (ch '<') syn.toolCallsStart ∧
    Sharp (ch '<') syn.toolCallsEnd ∧ Sharp (ch '<') syn.invokeStart ∧ Sharp (ch '<') syn.invokeEnd ∧
    Sharp (ch '<') syn.paramStart ∧ Sharp (ch '<') syn.paramEnd := by
  simpa only [List.forall_mem_cons, List.not_mem_nil, false_implies, implies_true, and_true] using syn.sharp

theorem skipSpace_append_sharp {value w q : Bytes} (hw : Sharp (ch '<') w) :
    skipSpace (value ++ (w ++ q)) = skipSpace value ++ (w ++ q) := by
  induction value with
  | nil =>
    rw [List.nil_append]
    exact skipSpace_sharp hw
  | cons c value ih =>
    cases hc : isspace c with
    | true => rw [List.cons_append, skipSpace_cons_of hc, skipSpace_cons_of hc, ih]
    | false => rw [List.cons_append, skipSpace_cons_of_not hc, skipSpace_cons_of_not hc, List.cons_append]

theorem TagText.skipSpace {start tag q : Bytes} (hstart : Sharp (ch '<') start) (h : TagText start tag) :
    C.skipSpace (tag ++ q) = tag ++ q := by
  obtain ⟨u, rfl⟩ := h.head
  rw [List.append_assoc]
  exact skipSpace_sharp hstart

theorem dsmlOpenTag_sound {start p tag q : Bytes} (hstart : ch '>' ∉ start)
    (h : dsmlOpenTag start p = some (tag, q)) : p = tag ++ q ∧ TagText start tag := by
  rw [dsmlOpenTag] at h
  split at h
  · next hp =>
    obtain ⟨i, hi, heq⟩ := Option.map_eq_some_iff.mp h
    obtain ⟨rfl, rfl⟩ := Prod.mk.inj heq
    obtain ⟨b, hb, -, -⟩ := find_split hi
    rw [List.append_assoc, List.singleton_append] at hb
    have htake : p.take (i + 1) = p.take i ++ [ch '>'] := by
      have hlen : (p.take i).length = i := by
        have := find_le hi
        rw [List.length_take]
        omega
      refine (congrArg (List.take (i + 1)) hb).trans ?_
      rw [List.take_append, hlen, Nat.add_sub_cancel_left,
        List.take_of_length_le (show (p.take i).length ≤ i + 1 by omega)]
      rfl
    refine ⟨(List.take_append_drop _ _).symm, ?_, _, htake, fun hmem => ?_⟩
    · rw [htake]
      rw [hb] at hp
      exact (prefix_left_of_notMem hstart hp).trans (List.prefix_append _ _)
    · obtain ⟨u, v, hu⟩ := List.append_of_mem hmem
      have hlt : u.length < i := by
        have := congrArg List.length hu
        rw [List.length_take, List.length_append, List.length_cons] at this
        omega
      refine (find_eq_some_iff.mp hi).2 _ hlt ?_
      rw [hb, hu, List.append_assoc, List.drop_left]
      exact ⟨v ++ ch '>' :: b, rfl⟩
  · cases h

theorem TagText.read {start tag : Bytes} (h : TagText start tag) (q : Bytes) :
    dsmlOpenTag start (tag ++ q) = some (tag, q) := by
  obtain ⟨u, rfl, hu⟩ := h.close
  rw [dsmlOpenTag, if_pos (h.head.trans (List.prefix_append _ _)), List.append_assoc, List.singleton_append,
    find_single hu, Option.map_some, List.take_length_add_append, List.drop_length_add_append]
  rfl

/-! ## What the parser reads -/

section
variable {syn : DsmlSyntax} (hsyn : syn ∈ dsmlSyntaxes)

theorem dsmlParseParamValue_sound {name p q args args' : Bytes} {isString : Option Bytes}
    (h : dsmlParseParamValue syn.paramEnd name isString p args = some (args', q)) :
    ∃ value, find syn.paramEnd value = none ∧ p = value ++ (syn.paramEnd ++ q) ∧
      args' = addValue syn.paramEnd name isString value args := by
  obtain ⟨k, hk, heq⟩ := Option.map_eq_some_iff.mp h
  obtain ⟨rfl, rfl⟩ := Prod.mk.inj heq
  obtain ⟨b, hb, hdrop, hle⟩ := find_split hk
  refine ⟨p.take k, ?_, ?_, rfl⟩
  · cases hf : find syn.paramEnd (p.take k) with
    | none => rfl
    | some j =>
      -- an occurrence in the value would be an earlier one
      have hjk := Option.some.inj ((find_mono (List.take_prefix k p) hf).symm.trans hk)
      have hpos := List.length_pos_of_ne_nil syn.sharp_mem.2.2.2.2.2.ne_nil
      have hj := find_le hf
      rw [List.length_take] at hj
      omega
  · rw [hdrop, ← List.append_assoc]
    exact hb

theorem dsmlParseParamValue_read {name value args : Bytes} {isString : Option Bytes}
    (h : find syn.paramEnd value = none) (q : Bytes) :
    dsmlParseParamValue syn.paramEnd name isString (value ++ (syn.paramEnd ++ q)) args =
      some (addValue syn.paramEnd name isString value args, q) := by
  have hfind := syn.sharp_mem.2.2.2.2.2.find_at (t := q) h
  rw [List.append_assoc] at hfind
  rw [dsmlParseParamValue, hfind, Option.map_some]
  dsimp only
  rw [List.take_left, ← List.drop_drop, List.drop_left, List.drop_left]
  rfl

include hsyn

theorem dsmlParseLeafParamJson_sound {p q args args' : Bytes}
    (h : dsmlParseLeafParamJson syn p args = some (args', q)) :
    ∃ v, p = v ++ q ∧ LeafText syn args v args' := by
  rw [dsmlParseLeafParamJson] at h
  split at h
  · cases h
  next tag r hopen =>
  obtain ⟨rfl, htag⟩ := dsmlOpenTag_sound (dsmlSyntaxes_tags syn hsyn).1 hopen
  split at h
  · cases h
  next name hname =>
  obtain ⟨value, hvalue, rfl, rfl⟩ := dsmlParseParamValue_sound h
  refine ⟨_, ?_, .intro htag hname hvalue⟩
  rw [List.append_assoc, List.append_assoc]

omit hsyn in
theorem LeafText.read {args v args' : Bytes} (h : LeafText syn args v args') (q : Bytes) :
    dsmlParseLeafParamJson syn (v ++ q) args = some (args', q) ∧ syn.paramStart <+: v := by
  obtain ⟨htag, hname, hvalue⟩ := h
  refine ⟨?_, htag.head.trans (List.prefix_append _ _)⟩
  rw [dsmlParseLeafParamJson, List.append_assoc, htag.read]
  dsimp only
  rw [hname, List.append_assoc]
  exact dsmlParseParamValue_read hvalue q

/-- The children stop where no further one starts. -/
theorem dsmlParseNestedParamsLoop_sound {p q args args' : Bytes}
    (h : dsmlParseNestedParamsLoop syn p args = some (args', q)) :
    ∃ cs b, p = cs ++ (b ++ q) ∧ ChildrenText syn args cs args' ∧ Space b ∧ ¬syn.paramStart <+: q ∧
      skipSpace q = q ∧ (syn.paramStart <+: skipSpace p → cs ≠ []) := by
  fun_induction dsmlParseNestedParamsLoop syn p args with
  | case1 => cases h
  | case2 p args hp args₁ r hr ih =>
    obtain ⟨v, hv, hleaf⟩ := dsmlParseLeafParamJson_sound hsyn hr
    obtain ⟨cs, b, rfl, hcs, hb, hstop, hskip, -⟩ := ih h
    obtain ⟨a, ha, hpa⟩ := exists_skipSpace p
    refine ⟨a ++ (v ++ cs), b, ?_, .cons ha hleaf hcs, hb, hstop, hskip, fun _ hnil => ?_⟩
    · rw [hpa, hv]
      simp only [List.append_assoc]
    · have hvnil := (List.append_eq_nil_iff.mp (List.append_eq_nil_iff.mp hnil).2).1
      have := (hleaf.read []).2
      rw [hvnil] at this
      exact syn.sharp_mem.2.2.2.2.1.ne_nil (List.prefix_nil.mp this)
  | case3 p args hp =>
    cases h
    obtain ⟨a, ha, hpa⟩ := exists_skipSpace p
    exact ⟨[], a, hpa, .nil, ha, hp, skipSpace_idem p, fun h => absurd h hp⟩

omit hsyn in
theorem ChildrenText.read {args cs args' b q : Bytes} (h : ChildrenText syn args cs args') (hb : Space b)
    (hstop : ¬syn.paramStart <+: q) (hskip : skipSpace q = q) :
    dsmlParseNestedParamsLoop syn (cs ++ (b ++ q)) args = some (args', q) ∧
      (cs ≠ [] → syn.paramStart <+: skipSpace (cs ++ (b ++ q))) := by
  induction h with
  | nil =>
    refine ⟨?_, fun h => absurd rfl h⟩
    rw [dsmlParseNestedParamsLoop, List.nil_append, skipSpace_append hb, hskip, if_neg hstop]
  | @cons args args₁ args₂ a v w ha hleaf hw ih =>
    obtain ⟨hread, hhead⟩ := hleaf.read (w ++ (b ++ q))
    have hskip' : skipSpace (a ++ (v ++ w) ++ (b ++ q)) = v ++ (w ++ (b ++ q)) := by
      obtain ⟨u, rfl⟩ := hhead
      rw [List.append_assoc, skipSpace_append ha, List.append_assoc, List.append_assoc]
      exact skipSpace_sharp syn.sharp_mem.2.2.2.2.1
    have hstart : syn.paramStart <+: v ++ (w ++ (b ++ q)) := hhead.trans (List.prefix_append _ _)
    rw [hskip']
    refine ⟨?_, fun _ => hstart⟩
    rw [dsmlParseNestedParamsLoop, hskip', if_pos hstart, hread]
    exact ih.1

theorem dsmlParseNestedParamsObject_sound {p q obj : Bytes}
    (h : dsmlParseNestedParamsObject syn p = some (obj, q)) :
    ∃ cs b members, p = cs ++ (b ++ q) ∧ ChildrenText syn [] cs members ∧ cs ≠ [] ∧ Space b ∧
      ¬syn.paramStart <+: q ∧ skipSpace q = q ∧ obj = lit "\x7b" ++ members ++ lit "\x7d" := by
  rw [dsmlParseNestedParamsObject] at h
  split at h
  · next hp =>
    obtain ⟨x, hx, heq⟩ := Option.map_eq_some_iff.mp h
    obtain ⟨rfl, rfl⟩ := Prod.mk.inj heq
    obtain ⟨cs, b, hcs, hchildren, hb, hstop, hskip, hne⟩ := dsmlParseNestedParamsLoop_sound hsyn hx
    exact ⟨cs, b, x.1, hcs, hchildren, hne hp, hb, hstop, hskip, rfl⟩
  · cases h

/-- A parameter is a value up to its closing tag, or children with or without one. -/
theorem dsmlParseParam_sound {p q args args' : Bytes} (h : dsmlParseParam syn p args = some (args', q)) :
    (∃ tag name value, TagText syn.paramStart tag ∧ dsmlAttr tag (lit "name") = some name ∧
      find syn.paramEnd value = none ∧
      ¬(dsmlAttr tag (lit "string") = none ∧ syn.paramStart <+: skipSpace value) ∧
      p = tag ++ (value ++ (syn.paramEnd ++ q)) ∧
      args' = addValue syn.paramEnd name (dsmlAttr tag (lit "string")) value args) ∨
    ∃ v b, ObjectText syn args v args' ∧ Space b ∧ (p = v ++ (b ++ (syn.paramEnd ++ q)) ∨
      p = v ++ (b ++ q) ∧ ¬syn.paramStart <+: q ∧ skipSpace q = q) := by
  rw [dsmlParseParam] at h
  split at h
  · cases h
  next tag r hopen =>
  obtain ⟨rfl, htag⟩ := dsmlOpenTag_sound (dsmlSyntaxes_tags syn hsyn).1 hopen
  split at h
  · cases h
  next name hname =>
  dsimp only at h
  split at h
  · next hobj =>
    obtain ⟨x, hx, heq⟩ := Option.map_eq_some_iff.mp h
    obtain ⟨rfl, rfl⟩ := Prod.mk.inj heq
    obtain ⟨cs, b, members, rfl, hchildren, hne, hb, hstop, hskip, hx1⟩ := dsmlParseNestedParamsObject_sound hsyn hx
    refine .inr ⟨tag ++ cs, b, ⟨tag, name, cs, members, rfl, htag, hname, hobj.1, hne, hchildren, ?_⟩, hb, ?_⟩
    · rw [hx1]
      rfl
    · rw [hskip]
      split
      · next hclose =>
        obtain ⟨u, hu⟩ := hclose
        refine .inl ?_
        rw [← hu, List.drop_left, List.append_assoc]
      · exact .inr ⟨(List.append_assoc ..).symm ▸ rfl, hstop, hskip⟩
  · next hleaf =>
    obtain ⟨value, hvalue, rfl, rfl⟩ := dsmlParseParamValue_sound h
    refine .inl ⟨tag, name, value, htag, hname, hvalue, fun hc => hleaf ⟨hc.1, ?_⟩, rfl, rfl⟩
    rw [skipSpace_append_sharp syn.sharp_mem.2.2.2.2.2]
    exact hc.2.trans (List.prefix_append _ _)

theorem dsmlParseParams_sound {p q args args' : Bytes} (h : dsmlParseParams syn p args = some (args', q)) :
    ∃ w, p = w ++ q ∧ ParamsText syn args w args' := by
  fun_induction dsmlParseParams syn p args with
  | case1 p args hend =>
    cases h
    obtain ⟨a, ha, hpa⟩ := exists_skipSpace p
    obtain ⟨u, hu⟩ := hend
    refine ⟨a ++ syn.invokeEnd, ?_, .done ha⟩
    rw [← hu, List.drop_left, List.append_assoc, hu]
    exact hpa
  | case2 => cases h
  | case3 p args _ args₁ r hr ih =>
    obtain ⟨w, rfl, hw⟩ := ih h
    obtain ⟨a, ha, hpa⟩ := exists_skipSpace p
    rcases dsmlParseParam_sound hsyn hr with ⟨tag, name, value, htag, hname, hvalue, hcond, hp, rfl⟩ |
      ⟨v, b, hobj, hb, hp | ⟨hp, hstop, hskip⟩⟩
    · refine ⟨_, ?_, .leaf ha htag hname hvalue hcond hw⟩
      rw [hpa, hp]
      simp only [List.append_assoc]
    · refine ⟨_, ?_, .object ha hobj hb hw⟩
      rw [hpa, hp]
      simp only [List.append_assoc]
    · -- behind an object without its closing tag only the end of the invoke is accepted
      have hstart : ∀ {a tag u : Bytes}, Space a → TagText syn.paramStart tag → w ≠ a ++ (tag ++ u) :=
        fun ha' htag heq => hstop <| by
          rw [heq, List.append_assoc, skipSpace_append ha', List.append_assoc,
            htag.skipSpace syn.sharp_mem.2.2.2.2.1] at hskip
          rw [heq, List.append_assoc, List.append_assoc, ← hskip]
          exact htag.head.trans (List.prefix_append _ _)
      cases hw with
      | done hb' =>
        refine ⟨_, ?_, .openObject ha hobj (List.forall_mem_append.mpr ⟨hb, hb'⟩)⟩
        rw [hpa, hp]
        simp only [List.append_assoc]
      | leaf ha' htag => exact absurd rfl (hstart ha' htag)
      | object ha' hobj' =>
        obtain ⟨tag, _, _, _, rfl, htag, _⟩ := hobj'.parts
        exact absurd (by rw [List.append_assoc]) (hstart ha' htag)
      | openObject ha' hobj' =>
        obtain ⟨tag, _, _, _, rfl, htag, _⟩ := hobj'.parts
        exact absurd (by rw [List.append_assoc]) (hstart ha' htag)

theorem dsmlParseInvoke_sound {p q : Bytes} {tc : ToolCall} (h : dsmlParseInvoke syn p = some (tc, q)) :
    ∃ v, p = v ++ q ∧ InvokeText syn v tc := by
  rw [dsmlParseInvoke] at h
  split at h
  · cases h
  next tag r hopen =>
  obtain ⟨rfl, htag⟩ := dsmlOpenTag_sound (dsmlSyntaxes_tags syn hsyn).2.1 hopen
  split at h
  · cases h
  next name hname =>
  obtain ⟨x, hx, heq⟩ := Option.map_eq_some_iff.mp h
  obtain ⟨rfl, rfl⟩ := Prod.mk.inj heq
  obtain ⟨w, rfl, hw⟩ := dsmlParseParams_sound hsyn hx
  exact ⟨_, (List.append_assoc ..).symm, .intro htag hname hw⟩

/-- An accepted block is a row of invokes, white space and the closing tag. -/
theorem dsmlParseInvokes_sound {p q : Bytes} {calls : List ToolCall}
    (h : dsmlParseInvokes syn p = some (calls, q)) :
    ∃ w b, p = w ++ (b ++ (syn.toolCallsEnd ++ q)) ∧ InvokesText syn w calls ∧ Space b := by
  fun_induction dsmlParseInvokes syn p generalizing calls with
  | case1 p hend =>
    cases h
    obtain ⟨a, ha, hpa⟩ := exists_skipSpace p
    obtain ⟨u, hu⟩ := hend
    refine ⟨[], a, ?_, .nil, ha⟩
    rw [← hu, List.drop_left, hu]
    exact hpa
  | case2 => cases h
  | case3 p _ tc r hr ih =>
    obtain ⟨x, hx, heq⟩ := Option.map_eq_some_iff.mp h
    obtain ⟨rfl, rfl⟩ := Prod.mk.inj heq
    obtain ⟨w, b, rfl, hw, hb⟩ := ih hx
    obtain ⟨v, hv, hinvoke⟩ := dsmlParseInvoke_sound hsyn hr
    obtain ⟨a, ha, hpa⟩ := exists_skipSpace p
    refine ⟨_, b, ?_, .cons ha hinvoke hw, hb⟩
    rw [hpa, hv]
    simp only [List.append_assoc]

/-! ## The text is read whatever follows -/

omit hsyn in
theorem ObjectText.read {args v args' b q : Bytes} (h : ObjectText syn args v args') (hb : Space b)
    (hstop : ¬syn.paramStart <+: q) (hskip : skipSpace q = q) :
    dsmlParseParam syn (v ++ (b ++ q)) args =
      some (args', if syn.paramEnd <+: q then q.drop syn.paramEnd.length else q) := by
  obtain ⟨tag, name, cs, members, rfl, htag, hname, hstring, hne, hcs, rfl⟩ := h.parts
  obtain ⟨hread, hstart⟩ := hcs.read hb hstop hskip
  rw [dsmlParseParam, List.append_assoc, htag.read]
  dsimp only
  rw [hname]
  dsimp only
  rw [if_pos ⟨hstring, hstart hne⟩, dsmlParseNestedParamsObject, if_pos (hstart hne), hread, Option.map_some,
    Option.map_some]
  dsimp only
  rw [hskip]
  rfl

theorem ParamsText.read {args w args' : Bytes} (h : ParamsText syn args w args') (q : Bytes) :
    dsmlParseParams syn (w ++ q) args = some (args', q) := by
  obtain ⟨-, -, hPP, hPI, hEI, -⟩ := dsmlSyntaxes_tags syn hsyn
  obtain ⟨-, -, -, hI, hP, hE⟩ := syn.sharp_mem
  -- a parameter is not taken for the end of the invoke
  have hparam : ∀ {a tag u : Bytes}, Space a → TagText syn.paramStart tag →
      skipSpace (a ++ (tag ++ u)) = tag ++ u ∧ ¬syn.invokeEnd <+: tag ++ u := fun ha htag =>
    ⟨by rw [skipSpace_append ha, htag.skipSpace hP], fun h =>
      (List.prefix_or_prefix_of_prefix h (htag.head.trans (List.prefix_append _ _))).elim hPI.2 hPI.1⟩
  induction h with
  | done ha =>
    rw [dsmlParseParams, List.append_assoc, skipSpace_append ha, skipSpace_sharp hI,
      if_pos (List.prefix_append _ _), List.drop_left]
  | @leaf args args' a tag name value w ha htag hname hvalue hcond hw ih =>
    obtain ⟨hskip, hnot⟩ := hparam (u := value ++ (syn.paramEnd ++ (w ++ q))) ha htag
    have hread : dsmlParseParam syn (tag ++ (value ++ (syn.paramEnd ++ (w ++ q)))) args =
        some (addValue syn.paramEnd name (dsmlAttr tag (lit "string")) value args, w ++ q) := by
      rw [dsmlParseParam, htag.read]
      dsimp only
      rw [hname]
      dsimp only
      rw [if_neg, dsmlParseParamValue_read hvalue]
      rintro ⟨hstring, hstart⟩
      rw [skipSpace_append_sharp hE] at hstart
      obtain ⟨tl, htl, -⟩ := hE
      rw [htl, List.cons_append] at hstart
      by_cases hnil : skipSpace value = []
      · rw [hnil, List.nil_append, ← List.cons_append, ← htl] at hstart
        exact not_prefix_append hPP.1 hPP.2 hstart
      · exact hcond ⟨hstring, hP.prefix_left hnil hstart⟩
    simp only [List.append_assoc]
    rw [dsmlParseParams, hskip, if_neg hnot, hread]
    exact ih
  | @object args args₁ args' a b v w ha hobj hb hw ih =>
    have hread := hobj.read (q := syn.paramEnd ++ (w ++ q)) hb (not_prefix_append hPP.1 hPP.2)
      (skipSpace_sharp hE)
    obtain ⟨tag, _, cs, _, rfl, htag, _⟩ := hobj.parts
    obtain ⟨hskip, hnot⟩ := hparam (u := cs ++ (b ++ (syn.paramEnd ++ (w ++ q)))) ha htag
    rw [if_pos (List.prefix_append _ _), List.drop_left, List.append_assoc] at hread
    simp only [List.append_assoc]
    rw [dsmlParseParams, hskip, if_neg hnot, hread]
    exact ih
  | @openObject args args' a b v ha hobj hb =>
    have hread := hobj.read (q := syn.invokeEnd ++ q) hb (not_prefix_append hPI.1 hPI.2)
      (skipSpace_sharp hI)
    obtain ⟨tag, _, cs, _, rfl, htag, _⟩ := hobj.parts
    obtain ⟨hskip, hnot⟩ := hparam (u := cs ++ (b ++ (syn.invokeEnd ++ q))) ha htag
    rw [if_neg (not_prefix_append hEI.1 hEI.2), List.append_assoc] at hread
    simp only [List.append_assoc]
    rw [dsmlParseParams, hskip, if_neg hnot, hread]
    dsimp only
    rw [dsmlParseParams, skipSpace_sharp hI, if_pos (List.prefix_append _ _), List.drop_left]

theorem InvokeText.read {v : Bytes} {tc : ToolCall} (h : InvokeText syn v tc) (q : Bytes) :
    dsmlParseInvoke syn (v ++ q) = some (tc, q) ∧ syn.invokeStart <+: v := by
  obtain ⟨htag, hname, hw⟩ := h
  refine ⟨?_, htag.head.trans (List.prefix_append _ _)⟩
  rw [dsmlParseInvoke, List.append_assoc, htag.read]
  dsimp only
  rw [hname]
  dsimp only
  rw [hw.read hsyn, Option.map_some]

/-- The calls of a text of invokes come first, whatever the block goes on with. -/
theorem InvokesText.read {w : Bytes} {calls : List ToolCall} (h : InvokesText syn w calls) (q : Bytes) :
    dsmlParseInvokes syn (w ++ q) = (dsmlParseInvokes syn q).map fun x => (calls ++ x.1, x.2) := by
  obtain ⟨-, -, -, -, -, hTI⟩ := dsmlSyntaxes_tags syn hsyn
  induction h with
  | nil => exact Option.map_id'.symm
  | @cons a v w tc calls ha hv hw ih =>
    obtain ⟨hread, hhead⟩ := hv.read hsyn (w ++ q)
    have hskip : skipSpace (a ++ (v ++ w) ++ q) = v ++ (w ++ q) := by
      obtain ⟨u, rfl⟩ := hhead
      rw [List.append_assoc, skipSpace_append ha, List.append_assoc, List.append_assoc]
      exact skipSpace_sharp syn.sharp_mem.2.2.1
    have hnot : ¬syn.toolCallsEnd <+: v ++ (w ++ q) := fun h =>
      (List.prefix_or_prefix_of_prefix h (hhead.trans (List.prefix_append _ _))).elim hTI.1 hTI.2
    rw [dsmlParseInvokes, hskip, if_neg hnot, hread]
    dsimp only
    rw [ih, Option.map_map]
    rfl

end

end Ds4
