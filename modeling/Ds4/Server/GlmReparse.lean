import Ds4.Server.Reasoning
import Ds4.Server.ToolRoundTrip

/-!
# Rendered GLM calls under the parser

What `parse_glm_generated_message_ex` makes of the text that `append_glm_tool_calls_text` writes.
The syntax has no type marker, so every value is read as a string, and keys are trimmed.
-/

namespace Ds4
open C Scan

/-! ## Trimmed text -/

/-- No white space at either end. -/
structure Trimmed (s : Bytes) : Prop where
  left : skipSpace s = s
  right : trimEnd s = s

instance (s : Bytes) : Decidable (Trimmed s) :=
  decidable_of_iff (skipSpace s = s ∧ trimEnd s = s) ⟨fun h => ⟨h.1, h.2⟩, fun h => ⟨h.left, h.right⟩⟩

theorem skipSpace_eq_self_iff : skipSpace s = s ↔ ∀ c ∈ s.head?, isspace c = false := by
  cases s with
  | nil => simp [skipSpace]
  | cons c s =>
    constructor
    · intro h d hd
      cases hd
      exact isspace_of_skipSpace h
    · exact fun h => skipSpace_cons_of_not (h c rfl)

theorem trimEnd_eq_self_iff : trimEnd s = s ↔ ∀ c ∈ s.getLast?, isspace c = false := by
  rw [trimEnd, List.rdropWhile_eq_self_iff]
  constructor
  · intro h c hc
    have hne : s ≠ [] := by rintro rfl; cases hc
    rw [List.getLast?_eq_some_getLast hne] at hc
    cases hc
    simpa using h hne
  · intro h hne
    simpa using h _ (List.getLast?_eq_some_getLast hne)

theorem escapeToolText_head (fin : Bytes) : (escapeToolText fin (c :: s)).head? = some c ∨
    (escapeToolText fin (c :: s)).head? = some (ch '&') := by
  rw [escapeToolText]
  split
  · split <;> exact .inr rfl
  · exact .inl rfl

theorem escapeToolText_getLast (fin : Bytes) (s : Bytes) :
    (escapeToolText fin s).getLast? = s.getLast? ∨
      (escapeToolText fin s).getLast? = some (ch ';') := by
  induction s with
  | nil => exact .inl rfl
  | cons c s ih =>
    cases s with
    | nil =>
      rw [escapeToolText, escapeToolText]
      split
      · split <;> exact .inr rfl
      · exact .inl rfl
    | cons d s =>
      have hne : escapeToolText fin (d :: s) ≠ [] := by
        intro h
        rcases escapeToolText_head (c := d) (s := s) fin with h' | h' <;> rw [h] at h' <;> cases h'
      rw [escapeToolText, List.getLast?_cons_cons]
      split
      · rwa [List.getLast?_append_of_ne_nil _ hne]
      · obtain ⟨e, t, het⟩ := List.exists_cons_of_ne_nil hne
        rw [het, List.getLast?_cons_cons, ← het]
        exact ih

theorem Trimmed.escape (h : Trimmed s) (fin : Bytes) : Trimmed (escapeToolText fin s) := by
  constructor
  · rw [skipSpace_eq_self_iff]
    cases s with
    | nil => exact fun c hc => nomatch hc
    | cons d s =>
      have hd := skipSpace_eq_self_iff.1 h.left d rfl
      intro c hc
      rcases escapeToolText_head (c := d) (s := s) fin with h' | h'
      · rw [h'] at hc; cases hc; exact hd
      · rw [h'] at hc; cases hc; decide
  · rw [trimEnd_eq_self_iff]
    intro c hc
    rcases escapeToolText_getLast fin s with h' | h'
    · rw [h'] at hc; exact trimEnd_eq_self_iff.1 h.right c hc
    · rw [h'] at hc; cases hc; decide

/-! ## The structural search over a call -/

/-- A text without the needle and without a wrapper is stepped over. -/
theorem findToolStructuralLoop_plain (hs : Sharp (ch '<') needle) (hn : ¬ needle <:+: n)
    (hw : ∀ w ∈ toolWrappers, ¬ w.1 <:+: n) :
    findToolStructuralLoop needle last pos found (n ++ ch '<' :: t) =
      findToolStructuralLoop needle last (pos + n.length) found (ch '<' :: t) := by
  induction n generalizing pos with
  | nil => rfl
  | cons c n ih =>
    have hhead : ∀ {w}, Sharp (ch '<') w → ¬ w <:+: c :: n → ¬ w <+: c :: (n ++ ch '<' :: t) := by
      intro w hsw hno hp
      rw [← List.cons_append] at hp
      exact hno (hsw.prefix_left (List.cons_ne_nil _ _) hp).isInfix
    have hnone : toolWrappers.find? (·.1 <+: c :: (n ++ ch '<' :: t)) = none := by
      rw [List.find?_eq_none]
      intro w hmem
      simpa using hhead (wrapper_sharp w hmem).1 (hw w hmem)
    have htail : ∀ {w : Bytes}, ¬ w <:+: c :: n → ¬ w <:+: n := fun hno hi =>
      hno (hi.trans (List.suffix_cons _ _).isInfix)
    rw [List.cons_append, findToolStructuralLoop.eq_def]
    simp only [decide_eq_false (hhead hs hn), hnone, Bool.false_and, Bool.false_eq_true, if_false]
    rw [ih (htail hn) fun w hmem => htail (hw w hmem), List.length_cons, Nat.add_assoc,
      Nat.add_comm 1]

/-- Neither text begins the other one. -/
theorem not_isPrefix_append {v w t : Bytes} (h1 : ¬ w <+: v) (h2 : ¬ v <+: w) : ¬ w <+: v ++ t := by
  intro h
  rcases List.prefix_or_prefix_of_prefix h (List.prefix_append v t) with h' | h'
  · exact h1 h'
  · exact h2 h'

/-- The two wrappers of the GLM syntax. -/
abbrev glmWrappers : List (Bytes × Bytes) :=
  [(glmToolSyntax.invokeStart, glmToolSyntax.invokeEnd),
    (glmToolSyntax.paramStart, glmToolSyntax.paramEnd)]

/-- What the search may look for over the text of a call. -/
abbrev glmNeedles : List Bytes := [glmToolSyntax.toolCallsEnd, lit "</think>"]

theorem find_glmWrapper : ∀ x ∈ glmWrappers,
    toolWrappers.find? (·.1 <+: x.1 ++ t) = some x := by
  intro x hx
  have hfree : ∀ x ∈ glmWrappers, (∀ w ∈ toolWrappers, x.1 <+: w.1 → w.1 <+: x.1) ∧
      toolWrappers.find? (·.1 <+: x.1) = some x := by decide
  rw [← (hfree x hx).2]
  apply List.find?_congr
  intro w hw
  rw [decide_eq_decide]
  refine ⟨fun h => ?_, fun h => h.trans (List.prefix_append _ _)⟩
  rcases List.prefix_or_prefix_of_prefix h (List.prefix_append _ _) with h' | h'
  · exact h'
  · exact (hfree x hx).1 w hw h'

/-- A wrapper of the GLM syntax with its body is stepped over as a whole. -/
theorem findToolStructuralLoop_wrapper {o cl : Bytes} (hoc : (o, cl) ∈ glmWrappers)
    (hn : needle ∈ glmNeedles) (hb : find cl b = none) :
    findToolStructuralLoop needle last pos found (o ++ (b ++ (cl ++ r))) =
      findToolStructuralLoop needle last (pos + (o ++ (b ++ cl)).length) found r := by
  have hshape : ∀ x ∈ glmWrappers, find [ch '>'] x.1 = some (x.1.length - 1) ∧ 0 < x.1.length ∧
      Sharp (ch '<') x.2 ∧ ∀ w ∈ glmNeedles, ¬ w <+: x.1 ∧ ¬ x.1 <+: w := by decide
  obtain ⟨hgt, hpos, hcl, hneedle⟩ := hshape _ hoc
  have hhere : ¬ needle <+: o ++ (b ++ (cl ++ r)) :=
    not_isPrefix_append (hneedle _ hn).1 (hneedle _ hn).2
  have hwrap := find_glmWrapper (t := b ++ (cl ++ r)) _ hoc
  have hgt' := find_append_of_some (t := b ++ (cl ++ r)) hgt
  have hclose : find cl (b ++ (cl ++ r)) = some b.length := by
    rw [← List.append_assoc]
    exact hcl.find_at hb
  obtain ⟨c, o, rfl⟩ := List.exists_cons_of_ne_nil (List.ne_nil_of_length_pos hpos)
  rw [List.cons_append] at hhere hwrap hgt' ⊢
  rw [findToolStructuralLoop.eq_def]
  simp only [List.length_cons, Nat.add_sub_cancel] at hgt'
  simp only [decide_eq_false hhere, hwrap, hgt', Bool.false_and, Bool.false_eq_true, if_false,
    List.drop_succ_cons, List.drop_left, hclose]
  congr 1
  · simp only [List.length_cons, List.length_append]
    omega
  · rw [← List.append_assoc, ← List.append_assoc, ← List.length_append, ← List.length_append,
      List.drop_left]

/-! ## Arguments -/

theorem appendGlmArg_append (a : JsonArg) (r : Bytes) : appendGlmArg a ++ r =
    glmToolSyntax.invokeStart ++ (escapeToolText glmToolSyntax.invokeEnd a.key ++
      (glmToolSyntax.invokeEnd ++ (glmToolSyntax.paramStart ++
        (escapeToolText glmToolSyntax.paramEnd a.value ++ (glmToolSyntax.paramEnd ++ r))))) := by
  have hmid : lit "</arg_key><arg_value>" = lit "</arg_key>" ++ lit "<arg_value>" := by decide
  simp only [appendGlmArg, appendGlmArgKeyText, appendGlmArgValueText, appendGlmTagBodyText, orEmpty,
    Option.getD_some, hmid, List.append_assoc]
  rfl

theorem closingDelim_glm : ClosingDelim glmToolSyntax.invokeEnd ∧ ClosingDelim glmToolSyntax.paramEnd := by
  decide

/-- The arguments of a call are stepped over. -/
theorem findToolStructuralLoop_args (hn : needle ∈ glmNeedles) (as : List JsonArg) (r : Bytes) :
    findToolStructuralLoop needle last pos found (as.flatMap appendGlmArg ++ r) =
      findToolStructuralLoop needle last (pos + (as.flatMap appendGlmArg).length) found r := by
  induction as generalizing pos with
  | nil => rfl
  | cons a as ih =>
    have hlen := congrArg List.length (appendGlmArg_append a [])
    simp only [List.append_nil, List.length_append] at hlen
    rw [List.flatMap_cons, List.append_assoc, appendGlmArg_append,
      findToolStructuralLoop_wrapper (by simp) hn (find_escapeToolText closingDelim_glm.1),
      findToolStructuralLoop_wrapper (by simp) hn (find_escapeToolText closingDelim_glm.2), ih]
    congr 1
    simp only [List.length_append, hlen]
    omega

/-- What the parser adds to the arguments for a rendered one. -/
def glmRereadAdd (args : Bytes) (a : JsonArg) : Bytes :=
  toolCallJsonArgsAdd args a.key a.value (lit "true")

/-- A rendered argument in front of enough text is read back as a string. -/
theorem glmParseArgs_arg (ha : Trimmed a.key) (hc : closeLeft ≤ r.length) :
    glmParseArgs closeLeft (appendGlmArg a ++ r) args =
      glmParseArgs closeLeft r (glmRereadAdd args a) := by
  have hkey : ∀ t, find glmToolSyntax.invokeEnd
      (escapeToolText glmToolSyntax.invokeEnd a.key ++ (glmToolSyntax.invokeEnd ++ t)) =
        some (escapeToolText glmToolSyntax.invokeEnd a.key).length := by
    intro t
    rw [← List.append_assoc]
    exact closingDelim_glm.1.sharp.find_at (find_escapeToolText closingDelim_glm.1)
  have hval : find glmToolSyntax.paramEnd
      (escapeToolText glmToolSyntax.paramEnd a.value ++ (glmToolSyntax.paramEnd ++ r)) =
        some (escapeToolText glmToolSyntax.paramEnd a.value).length := by
    rw [← List.append_assoc]
    exact closingDelim_glm.2.sharp.find_at (find_escapeToolText closingDelim_glm.2)
  have hnot : ∀ t, ¬ glmToolSyntax.toolCallsEnd <+: glmToolSyntax.invokeStart ++ t := fun t =>
    not_isPrefix_append (by decide) (by decide)
  have htrim := ha.escape glmToolSyntax.invokeEnd
  have hi : Sharp (ch '<') glmToolSyntax.invokeStart := by decide
  have hp : Sharp (ch '<') glmToolSyntax.paramStart := by decide
  rw [appendGlmArg_append, glmParseArgs.eq_def]
  simp only [skipSpace_sharp hi, if_neg (hnot _), List.prefix_append, if_true, List.drop_left, hkey,
    List.take_left, htrim.left, htrim.right, unescape_escapeToolText closingDelim_glm.1,
    ← List.drop_drop, skipSpace_sharp hp, hval, unescape_escapeToolText closingDelim_glm.2]
  rw [if_neg (by simp only [List.length_append]; omega),
    if_neg (by simp only [List.length_append]; omega)]
  rfl

theorem glmParseArgs_rendered (as : List JsonArg) (hk : ∀ a ∈ as, Trimmed a.key) (args r : Bytes) :
    glmParseArgs (glmToolSyntax.toolCallsEnd ++ r).length
      (as.flatMap appendGlmArg ++ (glmToolSyntax.toolCallsEnd ++ r)) args =
        some (as.foldl glmRereadAdd args, r) := by
  induction as generalizing args with
  | nil =>
    have he : Sharp (ch '<') glmToolSyntax.toolCallsEnd := by decide
    rw [List.flatMap_nil, List.nil_append, glmParseArgs.eq_def, skipSpace_sharp he,
      if_pos (List.prefix_append _ _), List.drop_left]
    rfl
  | cons a as ih =>
    obtain ⟨ha, has⟩ := List.forall_mem_cons.1 hk
    rw [List.flatMap_cons, List.append_assoc, glmParseArgs_arg ha, ih has, List.foldl_cons]
    simp only [List.length_append]
    omega

/-! ## Calls -/

/-- A name that the syntax can spell: not empty, without white space around it, without a GLM tag
and without a DSML parameter tag, which would hide the end of the call. -/
structure GlmName (n : Bytes) : Prop where
  ne : n ≠ []
  trimmed : Trimmed n
  tags : ∀ w ∈ [glmToolSyntax.toolCallsStart, glmToolSyntax.toolCallsEnd, glmToolSyntax.invokeStart,
    glmToolSyntax.invokeEnd, glmToolSyntax.paramStart, glmToolSyntax.paramEnd], ¬ w <:+: n
  dsml : ∀ syn ∈ dsmlSyntaxes, ¬ syn.paramStart <:+: n

theorem GlmName.wrapper (h : GlmName n) (hw : w ∈ toolWrappers) : ¬ w.1 <:+: n := by
  rcases List.mem_append.1 hw with hw | hw
  · obtain ⟨syn, hs, rfl⟩ := List.mem_map.1 hw
    exact h.dsml syn hs
  · exact h.tags w.1 (by
      rcases List.mem_cons.1 hw with rfl | hw
      · simp
      · cases List.mem_singleton.1 hw
        simp)

/-- The text of a call behind its `<tool_call>`. -/
def glmCallBody (n : Bytes) (as : List JsonArg) (r : Bytes) : Bytes :=
  n ++ (as.flatMap appendGlmArg ++ (glmToolSyntax.toolCallsEnd ++ r))

/-- What follows the name starts with a tag. -/
theorem glmCallBody_tag (as : List JsonArg) (r : Bytes) :
    ∃ t, as.flatMap appendGlmArg ++ (glmToolSyntax.toolCallsEnd ++ r) = ch '<' :: t := by
  cases as with
  | nil => exact ⟨_, rfl⟩
  | cons a as =>
    rw [List.flatMap_cons, List.append_assoc, appendGlmArg_append]
    exact ⟨_, rfl⟩

/-- The structural search steps over the name and the arguments of a call. -/
theorem findToolStructuralLoop_call (h : GlmName n) (hn : needle ∈ glmNeedles) (hno : ¬ needle <:+: n)
    (as : List JsonArg) (r : Bytes) :
    findToolStructuralLoop needle last pos found (glmCallBody n as r) =
      findToolStructuralLoop needle last (pos + (n ++ as.flatMap appendGlmArg).length) found
        (glmToolSyntax.toolCallsEnd ++ r) := by
  have hs : ∀ w ∈ glmNeedles, Sharp (ch '<') w := by decide
  obtain ⟨t, ht⟩ := glmCallBody_tag as r
  rw [glmCallBody, ht, findToolStructuralLoop_plain (hs _ hn) hno fun w hw => h.wrapper hw, ← ht,
    findToolStructuralLoop_args hn, List.length_append, Nat.add_assoc]

theorem glmNameSpan_call (h : GlmName n) (as : List JsonArg) (r : Bytes) :
    glmNameSpan (glmCallBody n as r) (n ++ as.flatMap appendGlmArg).length = n := by
  have hkey : find glmToolSyntax.invokeStart n = none :=
    find_eq_none_iff_absent.2 (h.tags _ (by simp))
  have hsharp : Sharp (ch '<') glmToolSyntax.invokeStart := by decide
  rw [glmNameSpan]
  cases as with
  | nil =>
    have htake : (glmCallBody n [] r).take (n ++ ([] : List JsonArg).flatMap appendGlmArg).length = n := by
      rw [List.flatMap_nil, List.append_nil, glmCallBody, List.take_left]
    split
    · next arg harg =>
      split
      · exact htake
      · next hge =>
        -- a key of this call would start inside the closing tag
        exfalso
        obtain ⟨t, ht⟩ := glmCallBody_tag [] r
        rw [glmCallBody, ht, hsharp.find_append hkey, ← ht] at harg
        obtain ⟨k, hk, rfl⟩ := Option.map_eq_some_iff.1 harg
        simp only [List.flatMap_nil, List.append_nil, List.nil_append] at hge hk
        obtain rfl : k = 0 := by omega
        have := (find_eq_some_iff.1 hk).1
        exact not_isPrefix_append (by decide) (by decide) this
    · exact htake
  | cons a as =>
    have harg : find glmToolSyntax.invokeStart (glmCallBody n (a :: as) r) = some n.length := by
      rw [glmCallBody, List.flatMap_cons, List.append_assoc, appendGlmArg_append, ← List.append_assoc]
      exact hsharp.find_at hkey
    rw [harg]
    simp only [List.length_append]
    rw [if_neg (by omega), glmCallBody, List.take_left]

/-- The first needle ends the search. -/
theorem findToolStructuralLoop_hit (hne : needle ≠ []) :
    findToolStructuralLoop needle false pos found (needle ++ t) = some pos := by
  obtain ⟨c, w, rfl⟩ := List.exists_cons_of_ne_nil hne
  have hp : c :: w <+: c :: (w ++ t) := by
    rw [← List.cons_append]
    exact List.prefix_append _ _
  rw [List.cons_append, findToolStructuralLoop.eq_def]
  simp [hp]

theorem glmParseCall_rendered (h : GlmName n) (hk : ∀ a ∈ as, Trimmed a.key) (r : Bytes) :
    glmParseCall (glmCallBody n as r) =
      some (⟨some n, some (lit "\x7b" ++ as.foldl glmRereadAdd [] ++ lit "\x7d")⟩, r) := by
  have hclose : findToolStructuralText (glmCallBody n as r) glmToolSyntax.toolCallsEnd false =
      some (n ++ as.flatMap appendGlmArg).length := by
    rw [findToolStructuralText, findToolStructuralLoop_call h (by simp) (h.tags _ (by simp)),
      Nat.zero_add]
    exact findToolStructuralLoop_hit (by decide)
  have hrest : (glmCallBody n as r).drop (n ++ as.flatMap appendGlmArg).length =
      glmToolSyntax.toolCallsEnd ++ r := by
    rw [glmCallBody, ← List.append_assoc, List.drop_left]
  have hbody : (glmCallBody n as r).drop n.length =
      as.flatMap appendGlmArg ++ (glmToolSyntax.toolCallsEnd ++ r) := by
    rw [glmCallBody, List.drop_left]
  rw [glmParseCall, hclose]
  simp only [glmNameSpan_call h, h.trimmed.left, h.trimmed.right, if_neg h.ne, Nat.sub_self,
    Nat.zero_add, hrest, hbody, glmParseArgs_rendered as hk, Option.map_some]

/-- The text that is rendered for a call with the name `n` and the arguments `as`. -/
def glmRenderedCall (n : Bytes) (as : List JsonArg) (r : Bytes) : Bytes :=
  glmToolSyntax.toolCallsStart ++ glmCallBody n as r

/-- What the parser returns for it. -/
def glmRereadCall (x : Bytes × List JsonArg) : ToolCall :=
  ⟨some x.1, some (lit "\x7b" ++ x.2.foldl glmRereadAdd [] ++ lit "\x7d")⟩

/-- A name and arguments that can be read back. -/
def GlmSpelled (x : Bytes × List JsonArg) : Prop := GlmName x.1 ∧ ∀ a ∈ x.2, Trimmed a.key

theorem glmParseCalls_eq (hp : glmToolSyntax.toolCallsStart <+: skipSpace p)
    (h : glmParseCall ((skipSpace p).drop glmToolSyntax.toolCallsStart.length) = some x) :
    glmParseCalls p = (glmParseCalls x.2).map fun y => (x.1 :: y.1, y.2) := by
  obtain ⟨tc, q⟩ := x
  rw [glmParseCalls, if_pos hp]
  split <;> simp_all

theorem glmParseCalls_rendered (xs : List (Bytes × List JsonArg)) (h : ∀ x ∈ xs, GlmSpelled x) :
    ∃ r, glmParseCalls (xs.foldr (fun x r => glmRenderedCall x.1 x.2 r) (lit "\n")) =
      some (xs.map glmRereadCall, r) := by
  induction xs with
  | nil =>
    refine ⟨[], ?_⟩
    rw [List.foldr_nil, glmParseCalls, if_neg (by decide)]
    rfl
  | cons x xs ih =>
    obtain ⟨⟨hn, hk⟩, hxs⟩ := List.forall_mem_cons.1 h
    obtain ⟨r, hr⟩ := ih hxs
    have hs : Sharp (ch '<') glmToolSyntax.toolCallsStart := by decide
    have hcall : glmParseCall ((skipSpace (glmToolSyntax.toolCallsStart ++ glmCallBody x.1 x.2
        (xs.foldr (fun x r => glmRenderedCall x.1 x.2 r) (lit "\n")))).drop
          glmToolSyntax.toolCallsStart.length) =
          some (glmRereadCall x, xs.foldr (fun x r => glmRenderedCall x.1 x.2 r) (lit "\n")) := by
      rw [skipSpace_sharp hs, List.drop_left]
      exact glmParseCall_rendered hn hk _
    refine ⟨r, ?_⟩
    rw [List.foldr_cons, glmRenderedCall,
      glmParseCalls_eq (by rw [skipSpace_sharp hs]; exact List.prefix_append _ _) hcall, hr]
    rfl

/-! ## Messages -/

/-- The calls as they are rendered: the name, and the arguments in the order of the schema. -/
def GlmRendered (orders : List ToolSchemaOrder) (tc : ToolCall) (x : Bytes × List JsonArg) : Prop :=
  tc.name = some x.1 ∧ ∃ as, jsonArgsParse tc.arguments = some as ∧
    x.2 = jsonArgsInOrder (((toolSchemaOrdersFind orders tc.name).map (·.prop)).getD []) as

theorem appendGlmToolCall_eq (h : GlmRendered orders tc x) (r : Bytes) :
    appendGlmToolCall orders tc ++ r = glmRenderedCall x.1 x.2 r := by
  obtain ⟨hn, as, has, hx⟩ := h
  simp only [appendGlmToolCall, appendGlmArgumentsFromJson, appendArgumentsFromJson, has,
    Option.map_some, Option.getD_some, ← hx, List.append_assoc]
  rw [hn]
  rfl

theorem flatMap_appendGlmToolCall (h : List.Forall₂ (GlmRendered orders) calls xs) :
    calls.flatMap (appendGlmToolCall orders) ++ lit "\n" =
      xs.foldr (fun x r => glmRenderedCall x.1 x.2 r) (lit "\n") := by
  induction h with
  | nil => rfl
  | cons hx _ ih => rw [List.flatMap_cons, List.append_assoc, ih, appendGlmToolCall_eq hx, List.foldr_cons]

/-- A call that is found where the search starts. -/
theorem parseGlm_of_search (hs : toolSearchStart (find glmToolSyntax.toolCallsStart)
      (find glmToolSyntax.toolCallsEnd) text req = some (k, recovered))
    (hi : find glmToolSyntax.toolCallsStart (text.drop k) = some i)
    (hc : glmParseCalls (text.drop (k + i)) = some (calls, rest)) (hne : calls ≠ []) :
    ∃ msg, parseGlmGeneratedMessageEx text req = some msg ∧ msg.calls.v = calls := by
  simp only [parseGlmGeneratedMessageEx, hs, hi, hc, if_neg hne]
  exact ⟨_, rfl, rfl⟩

/-- A tag in front of a text adds no occurrence of another one. -/
theorem absent_tag {tag w n : Bytes} (ht : Sharp (ch '<') tag) (hw : Sharp (ch '<') w)
    (h1 : ¬ w <+: tag) (h2 : ¬ tag <+: w) (hn : ¬ w <:+: n) : ¬ w <:+: tag ++ n := by
  rintro ⟨a, b, hab⟩
  have ho : w <+: (tag ++ n).drop a.length := by
    rw [← hab, List.append_assoc, List.drop_left]
    exact List.prefix_append _ _
  cases a with
  | nil => exact not_isPrefix_append h1 h2 ho
  | cons c a =>
    obtain ⟨tl, rfl, hc⟩ := ht
    rw [List.cons_append, List.length_cons, List.drop_succ_cons] at ho
    have hle := hw.le_of_notMem hc ho
    rw [List.drop_append, List.drop_eq_nil_of_le hle, List.nil_append] at ho
    exact hn (ho.isInfix.trans (List.drop_suffix _ _).isInfix)

/-- The rendered calls hold no closing tag of a reasoning outside the wrappers. -/
theorem think_absent_calls (xs : List (Bytes × List JsonArg))
    (h : ∀ x ∈ xs, GlmName x.1 ∧ ¬ lit "</think>" <:+: x.1) :
    findToolStructuralLoop (lit "</think>") true pos none
      (xs.foldr (fun x r => glmRenderedCall x.1 x.2 r) (lit "\n")) = none := by
  induction xs generalizing pos with
  | nil => exact findToolStructuralLoop_absent (by decide)
  | cons x xs ih =>
    obtain ⟨⟨hn, hno⟩, hxs⟩ := List.forall_mem_cons.1 h
    have htag : ∀ w ∈ lit "</think>" :: toolWrappers.map (·.1),
        ¬ w <+: glmToolSyntax.toolCallsStart ∧ ¬ glmToolSyntax.toolCallsStart <+: w ∧
          Sharp (ch '<') w := by decide
    have hstart : ∀ w ∈ lit "</think>" :: toolWrappers.map (·.1), ¬ w <:+: x.1 →
        ¬ w <:+: glmToolSyntax.toolCallsStart ++ x.1 := fun w hw hwn =>
      absent_tag (by decide) (htag w hw).2.2 (htag w hw).1 (htag w hw).2.1 hwn
    obtain ⟨t, ht⟩ := glmCallBody_tag x.2 (xs.foldr (fun x r => glmRenderedCall x.1 x.2 r) (lit "\n"))
    rw [List.foldr_cons, glmRenderedCall, glmCallBody, ← List.append_assoc, ht,
      findToolStructuralLoop_plain think_sharp (hstart _ (by simp) hno) fun w hw =>
        hstart w.1 (List.mem_cons_of_mem _ (List.mem_map_of_mem hw)) (hn.wrapper hw),
      ← ht, findToolStructuralLoop_args (by simp)]
    cases xs with
    | nil => exact findToolStructuralLoop_absent (by decide)
    | cons y ys =>
      have hnext : ∃ u, (y :: ys).foldr (fun x r => glmRenderedCall x.1 x.2 r) (lit "\n") = ch '<' :: u :=
        ⟨_, rfl⟩
      obtain ⟨u, hu⟩ := hnext
      rw [hu, findToolStructuralLoop_plain think_sharp (by decide) (by decide), ← hu]
      exact ih hxs

/-- The first call stands behind the line feed. -/
theorem find_call_newline (h : glmToolSyntax.toolCallsStart <+: t) :
    find glmToolSyntax.toolCallsStart (ch '\n' :: t) = some 1 := by
  have hne : ¬ glmToolSyntax.toolCallsStart <+: ch '\n' :: t := by
    intro hp
    rw [show glmToolSyntax.toolCallsStart = ch '<' :: lit "tool_call>" by decide] at hp
    exact absurd (List.cons_prefix_cons.1 hp).1 (by decide)
  rw [find, if_neg hne, find_prefix h]
  rfl

/-- The search for a block starts at the line feed or at the first call. -/
theorem toolSearchStart_calls {x : Bytes × List JsonArg} (hx : ∀ y ∈ x :: xs, GlmName y.1)
    (hthink : req = true → ∀ y ∈ x :: xs, ¬ lit "</think>" <:+: y.1)
    (ht : t = (x :: xs).foldr (fun x r => glmRenderedCall x.1 x.2 r) (lit "\n")) :
    ∃ k recovered, k ≤ 1 ∧ toolSearchStart (find glmToolSyntax.toolCallsStart)
      (find glmToolSyntax.toolCallsEnd) (ch '\n' :: t) req = some (k, recovered) := by
  cases req with
  | false => exact ⟨0, false, Nat.zero_le _, rfl⟩
  | true =>
    have hnone : findToolStructuralText (ch '\n' :: t) (lit "</think>") true = none := by
      obtain ⟨u, hu⟩ : ∃ u, t = ch '<' :: u := by
        rw [ht]
        exact ⟨_, rfl⟩
      rw [findToolStructuralText, ← List.singleton_append, hu,
        findToolStructuralLoop_plain think_sharp (by decide) (by decide), ← hu, ht]
      exact think_absent_calls _ fun y hy => ⟨hx y hy, hthink rfl y hy⟩
    have hstart : glmToolSyntax.toolCallsStart <+: t := by
      rw [ht]
      exact List.prefix_append _ _
    have hfind := find_call_newline hstart
    have hend : (find glmToolSyntax.toolCallsEnd ((ch '\n' :: t).drop 1)).isSome := by
      rw [find_isSome_iff, List.drop_succ_cons, List.drop_zero, ht, List.foldr_cons, glmRenderedCall,
        glmCallBody]
      exact ((List.prefix_append _ _).isInfix.trans (List.suffix_append _ _).isInfix).trans
        ((List.suffix_append _ _).isInfix.trans (List.suffix_append _ _).isInfix)
    refine ⟨1, true, Nat.le_refl _, ?_⟩
    simp only [toolSearchStart, if_true, hnone, hfind, hend]

/-- Every call comes back in its place, whether or not the reasoning has to be closed. -/
theorem parse_appendGlmToolCallsText (hraw : orEmpty calls.rawToolText = [])
    (hxs : List.Forall₂ (GlmRendered orders) calls.v xs) (hsp : ∀ x ∈ xs, GlmSpelled x)
    (hthink : req = true → ∀ x ∈ xs, ¬ lit "</think>" <:+: x.1) :
    ∃ msg, parseGlmGeneratedMessageEx (appendGlmToolCallsText calls orders) req = some msg ∧
      msg.calls.v = xs.map glmRereadCall := by
  cases xs with
  | nil =>
    have hv : calls.v = [] := by
      generalize calls.v = v at hxs
      cases hxs
      rfl
    rw [appendGlmToolCallsText, if_pos hv]
    cases req with
    | false => exact ⟨_, rfl, rfl⟩
    | true =>
      have hnone : findToolStructuralText [] (lit "</think>") true = none := by
        rw [findToolStructuralText, findToolStructuralLoop]
      simp only [parseGlmGeneratedMessageEx, toolSearchStart, if_true, hnone]
      exact ⟨_, rfl, rfl⟩
  | cons x xs =>
    have hv : calls.v ≠ [] := by
      intro hv
      rw [hv] at hxs
      cases hxs
    have htext : appendGlmToolCallsText calls orders =
        ch '\n' :: (x :: xs).foldr (fun x r => glmRenderedCall x.1 x.2 r) (lit "\n") := by
      rw [appendGlmToolCallsText, if_neg hv, if_neg (not_not.2 hraw), List.append_assoc,
        flatMap_appendGlmToolCall hxs]
      rfl
    obtain ⟨k, recovered, hk, hs⟩ := toolSearchStart_calls (fun y hy => (hsp y hy).1) hthink rfl
    obtain ⟨r, hr⟩ := glmParseCalls_rendered _ hsp
    rw [htext]
    generalize ht : (x :: xs).foldr (fun x r => glmRenderedCall x.1 x.2 r) (lit "\n") = t at hs hr
    have hstart : glmToolSyntax.toolCallsStart <+: t := by
      rw [← ht]
      exact List.prefix_append _ _
    have hfind := find_prefix hstart
    rcases Nat.le_one_iff_eq_zero_or_eq_one.1 hk with rfl | rfl
    · exact parseGlm_of_search hs (find_call_newline hstart) hr (by simp)
    · exact parseGlm_of_search hs hfind hr (by simp)

end Ds4
