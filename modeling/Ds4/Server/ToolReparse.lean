import Ds4.Server.ToolParse
import Ds4.Server.JsonArgs

/-!
# The parser on rendered calls

`append_dsml_tool_calls_text` writes calls that `parse_deepseek_generated_message_ex` reads. The
parser accepts every rendered text and returns the calls one by one (`parse_appendDsmlToolCallsText`);
`rereadCall` is the call it returns.
-/

namespace Ds4
open C Scan

/-! ## Attributes -/

theorem dsmlUnescapeText_byte (c : UInt8) :
    dsmlUnescapeText (appendDsmlAttrByte c ++ s) = c :: dsmlUnescapeText s := by
  have ent : ∀ e b, dsmlEntities.find? (·.1 <+: e ++ s) = some (e, b) → e ≠ [] →
      dsmlUnescapeText (e ++ s) = b :: dsmlUnescapeText s := by
    intro e b h hne
    obtain ⟨d, e, rfl⟩ := List.exists_cons_of_ne_nil hne
    rw [List.cons_append] at h ⊢
    rw [dsmlUnescapeText, h]
    simp
  rw [appendDsmlAttrByte]
  split
  · next h => subst h; exact ent _ _ rfl (by decide)
  split
  · next h => subst h; exact ent _ _ rfl (by decide)
  split
  · next h => subst h; exact ent _ _ rfl (by decide)
  split
  · next h => subst h; exact ent _ _ rfl (by decide)
  · next hamp _ _ _ =>
    have hnone : dsmlEntities.find? (·.1 <+: c :: s) = none := by
      simp only [List.find?_eq_none, decide_eq_true_eq]
      intro x hx hp
      have hhead : ∀ x ∈ dsmlEntities, x.1.head? = some (ch '&') := by decide
      obtain ⟨u, hu⟩ := hp
      have := congrArg List.head? hu
      rw [List.head?_append_of_ne_nil _ (by intro h0; have := hhead x hx; rw [h0] at this; cases this),
        hhead x hx] at this
      exact hamp (Option.some.inj this).symm
    rw [List.singleton_append, dsmlUnescapeText, hnone]

theorem dsmlUnescapeText_attrEscaped (s : Bytes) :
    dsmlUnescapeText (appendDsmlAttrEscaped (some s)) = s := by
  simp only [appendDsmlAttrEscaped, orEmpty, Option.getD_some]
  induction s with
  | nil => rw [List.flatMap_nil, dsmlUnescapeText]
  | cons c s ih => rw [List.flatMap_cons, dsmlUnescapeText_byte, ih]

/-- Attribute text holds no quote and no `>`. -/
theorem appendDsmlAttrEscaped_notMem (hd : d = ch '"' ∨ d = ch '>') (s : Option Bytes) :
    d ∉ appendDsmlAttrEscaped s := by
  have byte : ∀ c, ch '"' ∉ appendDsmlAttrByte c ∧ ch '>' ∉ appendDsmlAttrByte c :=
    forall_byte (by decide +kernel)
  intro h
  obtain ⟨c, -, hc⟩ := List.mem_flatMap.1 h
  rcases hd with rfl | rfl
  · exact (byte c).1 hc
  · exact (byte c).2 hc

theorem suffix_attrEscaped (hw : (w.all fun c => appendDsmlAttrByte c == [c]) = true)
    (hb : ch ';' ∉ w) : w <:+ appendDsmlAttrEscaped (some s) ↔ w <:+ s := by
  have last : ∀ c, appendDsmlAttrByte c = [c] ∨ ∃ u, appendDsmlAttrByte c = u ++ [ch ';'] := by
    intro c
    rw [appendDsmlAttrByte]
    split
    · exact .inr ⟨lit "&amp", rfl⟩
    split
    · exact .inr ⟨lit "&lt", rfl⟩
    split
    · exact .inr ⟨lit "&gt", rfl⟩
    split
    · exact .inr ⟨lit "&quot", rfl⟩
    · exact .inl rfl
  simp only [appendDsmlAttrEscaped, orEmpty, Option.getD_some]
  induction w using List.reverseRecOn generalizing s with
  | nil => simp
  | append_singleton w c ih =>
    simp only [List.all_append, Bool.and_eq_true, List.all_cons, List.all_nil, beq_iff_eq,
      and_true, List.mem_append, List.mem_singleton, not_or] at hw hb
    induction s using List.reverseRecOn with
    | nil => simp
    | append_singleton s d _ =>
      rw [List.flatMap_append, List.flatMap_singleton, List.suffix_concat_iff]
      rcases last d with hd | ⟨u, hu⟩
      · rw [hd, List.suffix_concat_iff]
        simp [ih hw.1 hb.1]
      · rw [hu, ← List.append_assoc, List.suffix_concat_iff]
        have hdc : d ≠ c := by
          rintro rfl
          rw [hw.2] at hu
          have := congrArg List.getLast? hu
          simp at this
          exact hb.2 this.symm
        simp [hdc.symm, Ne.symm hb.2]

theorem drop_past (X Y : Bytes) : (X ++ c :: Y).drop (X.length + 1 + n) = Y.drop n := by
  rw [Nat.add_assoc, ← List.drop_drop, List.drop_left, Nat.add_comm 1, List.drop_succ_cons]

/-- The attribute at the first quote of a tag. -/
theorem dsmlAttr_here (hX : ch '"' ∉ X) (hn : ch '"' ∉ name) (hs : name ++ lit "=" <:+ X)
    (hV : ch '"' ∉ V) :
    dsmlAttr (X ++ ch '"' :: (V ++ ch '"' :: Z)) name = some (dsmlUnescapeText V) := by
  have hpat : name ++ lit "=\"" = (name ++ lit "=") ++ [ch '"'] := by simp [lit]; rfl
  have hw : ch '"' ∉ name ++ lit "=" := by
    simp only [List.mem_append, not_or]
    exact ⟨hn, by decide⟩
  have hlen := hs.length_le
  have hdrop : (X ++ ch '"' :: (V ++ ch '"' :: Z)).drop
      (X.length - (name ++ lit "=").length + ((name ++ lit "=") ++ [ch '"']).length) =
        V ++ ch '"' :: Z := by
    have hl : (name ++ lit "=" ++ [ch '"']).length = (name ++ lit "=").length + 1 :=
      List.length_append
    rw [hl, ← Nat.add_assoc, Nat.sub_add_cancel hlen]
    exact drop_past (n := 0) X _
  simp only [dsmlAttr, hpat, find_snoc hw hX, if_pos hs, hdrop, find_single hV]
  simp

/-- An attribute of another name is passed over. -/
theorem dsmlAttr_skip (hX : ch '"' ∉ X) (hn : ch '"' ∉ name) (hs : ¬ name ++ lit "=" <:+ X) :
    dsmlAttr (X ++ ch '"' :: Y) name = dsmlAttr Y name := by
  have hpat : name ++ lit "=\"" = (name ++ lit "=") ++ [ch '"'] := by simp [lit]; rfl
  have hw : ch '"' ∉ name ++ lit "=" := by
    simp only [List.mem_append, not_or]
    exact ⟨hn, by decide⟩
  simp only [dsmlAttr, hpat, find_snoc hw hX, if_neg hs]
  cases find (name ++ lit "=" ++ [ch '"']) Y with
  | none => rfl
  | some i =>
    have hdrop : (X ++ ch '"' :: Y).drop (X.length + 1 + i + (name ++ lit "=" ++ [ch '"']).length) =
        Y.drop (i + (name ++ lit "=" ++ [ch '"']).length) := by
      rw [Nat.add_assoc (X.length + 1)]
      exact drop_past X Y
    simp only [Option.map_some, hdrop]

theorem dsmlOpenTag_eq (h : start <+: X) (hX : ch '>' ∉ X) :
    dsmlOpenTag start (X ++ ch '>' :: r) = some (X ++ [ch '>'], r) := by
  have htake : (X ++ ch '>' :: r).take (X.length + 1) = X ++ [ch '>'] := by
    rw [List.take_append]
    simp
  rw [dsmlOpenTag, if_pos (h.trans (List.prefix_append _ _)), find_single hX, Option.map_some,
    htake, drop_past (n := 0)]
  rfl

/-! ## Bodies -/

theorem isPrefix_dsmlJsonLiteral (hfin : Sharp (ch '<') fin) (h1 : ch '<' ∉ w) (h2 : ch '\\' ∉ w) :
    w <+: dsmlJsonLiteral fin s ↔ w <+: s := by
  induction w generalizing s with
  | nil => simp
  | cons a w ih =>
    simp only [List.mem_cons, not_or] at h1 h2
    cases s with
    | nil => simp [dsmlJsonLiteral]
    | cons d s =>
      rw [dsmlJsonLiteral]
      split
      · next hp =>
        obtain ⟨tl, rfl, -⟩ := hfin
        obtain ⟨rfl, -⟩ := List.cons_prefix_cons.1 hp
        constructor
        · intro h
          exact absurd (List.cons_prefix_cons.1 h).1.symm h2.1
        · intro h
          exact absurd (List.cons_prefix_cons.1 h).1.symm h1.1
      · rw [List.cons_prefix_cons, List.cons_prefix_cons, ih h1.2 h2.2]

theorem find_dsmlJsonLiteral (hfin : Sharp (ch '<') fin) (hb : ch '\\' ∉ fin) :
    find fin (dsmlJsonLiteral fin s) = none := by
  obtain ⟨tl, rfl, htl⟩ := id hfin
  induction s with
  | nil => rfl
  | cons c s ih =>
    rw [dsmlJsonLiteral]
    split
    · rw [find_append_of_not_mem (by decide), ih]
      rfl
    · next hn =>
      rw [find, if_neg, ih, Option.map_none]
      intro hp
      obtain ⟨rfl, ht⟩ := List.cons_prefix_cons.1 hp
      have ht := (isPrefix_dsmlJsonLiteral hfin htl (fun h => hb (List.mem_cons_of_mem _ h))).1 ht
      exact hn (List.cons_prefix_cons.2 ⟨rfl, ht⟩)

theorem spell_dsmlJsonLiteral (hfin : Sharp (ch '<') fin) (s : Bytes) :
    Spell s (dsmlJsonLiteral fin s) := by
  induction s with
  | nil => exact .nil
  | cons c s ih =>
    rw [dsmlJsonLiteral]
    split
    · next hp =>
      obtain ⟨tl, rfl, -⟩ := hfin
      obtain ⟨rfl, -⟩ := List.cons_prefix_cons.1 hp
      exact .lt ih
    · exact .byte ih

/-- The body of a rendered parameter. -/
def renderedBody (arg : JsonArg) : Bytes :=
  if arg.isString then appendDsmlParameterText (some arg.value)
  else appendDsmlJsonLiteral (some arg.value)

theorem find_renderedBody (arg : JsonArg) :
    find dsmlSyntaxLong.paramEnd (renderedBody arg) = none := by
  rw [renderedBody]
  split
  · exact find_escapeToolText (by decide)
  · exact find_dsmlJsonLiteral (by decide) (by decide)

/-- The type that is read off the tag of a rendered parameter. -/
def rereadType (arg : JsonArg) : Bytes :=
  if lit "string=" <:+ arg.key then lit " string="
  else if arg.isString then lit "true" else lit "false"

def rereadValue (arg : JsonArg) : Bytes :=
  if rereadType arg = lit "true" then arg.value else renderedBody arg

theorem dsmlAttr_name_rendered (key : Bytes) (hX : ch '"' ∉ X) (hs : lit "name" ++ lit "=" <:+ X) :
    dsmlAttr (X ++ ch '"' :: (appendDsmlAttrEscaped (some key) ++ ch '"' :: Z)) (lit "name") =
      some key := by
  rw [dsmlAttr_here hX (by decide) hs (appendDsmlAttrEscaped_notMem (.inl rfl) _),
    dsmlUnescapeText_attrEscaped]

theorem dsmlAttr_string_rendered (arg : JsonArg) :
    dsmlAttr (lit "<｜DSML｜parameter name=" ++ ch '"' ::
      (appendDsmlAttrEscaped (some arg.key) ++ ch '"' :: (lit " string=" ++ ch '"' ::
        ((if arg.isString then lit "true" else lit "false") ++ ch '"' :: Z)))) (lit "string") =
      some (rereadType arg) := by
  have hesc : lit "string=" <:+ appendDsmlAttrEscaped (some arg.key) ↔ lit "string=" <:+ arg.key :=
    suffix_attrEscaped (by decide) (by decide)
  have hq := appendDsmlAttrEscaped_notMem (d := ch '"') (.inl rfl) (some arg.key)
  rw [dsmlAttr_skip (by decide) (by decide) (by decide), rereadType]
  by_cases hk : lit "string=" <:+ arg.key
  · rw [if_pos hk, dsmlAttr_here hq (by decide) (hesc.2 hk) (by decide)]
    decide +kernel
  · rw [if_neg hk, dsmlAttr_skip hq (by decide) (mt hesc.1 hk),
      dsmlAttr_here (by decide) (by decide) (by decide) (by split <;> decide)]
    split <;> decide +kernel

/-! ## The parser on rendered calls -/

theorem dsmlParseParamValue_eq (hfin : Sharp (ch '<') fin) (hb : find fin body = none) :
    dsmlParseParamValue fin name (some type) (body ++ (fin ++ r)) args =
      some (toolCallJsonArgsAdd args name
        (if type = lit "true" then ds4ToolTextUnescape body fin else body) type, r) := by
  have hk : find fin (body ++ (fin ++ r)) = some body.length := by
    rw [← List.append_assoc]
    exact hfin.find_at hb
  rw [dsmlParseParamValue, hk]
  simp [List.drop_append]

theorem rereadValue_eq (arg : JsonArg) :
    (if rereadType arg = lit "true" then ds4ToolTextUnescape (renderedBody arg)
      dsmlSyntaxLong.paramEnd else renderedBody arg) = rereadValue arg := by
  rw [rereadValue]
  split
  · next h =>
    have hstr : arg.isString = true := by
      rw [rereadType] at h
      split at h
      · exact absurd h (by decide)
      · by_contra hn
        rw [if_neg hn] at h
        exact absurd h (by decide)
    rw [renderedBody, if_pos hstr]
    exact unescape_escapeToolText (by decide)
  · rfl

theorem dsmlParseParam_rendered (arg : JsonArg) (r args : Bytes) :
    dsmlParseParam dsmlSyntaxLong (appendDsmlArg arg ++ r) args =
      some (toolCallJsonArgsAdd args arg.key (rereadValue arg) (rereadType arg), ch '\n' :: r) := by
  have htext : appendDsmlArg arg ++ r = (lit "<｜DSML｜parameter name=\"" ++
      (appendDsmlAttrEscaped (some arg.key) ++ (lit "\" string=\"" ++
        ((if arg.isString then lit "true" else lit "false") ++ [ch '"'])))) ++ ch '>' ::
          (renderedBody arg ++ (dsmlSyntaxLong.paramEnd ++ ch '\n' :: r)) := by
    have h1 : lit "\">" = [ch '"'] ++ [ch '>'] := by decide
    have h2 : lit "</｜DSML｜parameter>\n" = dsmlSyntaxLong.paramEnd ++ [ch '\n'] := by decide
    simp only [appendDsmlArg, renderedBody, h1, h2, List.append_assoc, List.cons_append,
      List.nil_append]
  have hgt : ch '>' ∉ lit "<｜DSML｜parameter name=\"" ++
      (appendDsmlAttrEscaped (some arg.key) ++ (lit "\" string=\"" ++
        ((if arg.isString then lit "true" else lit "false") ++ [ch '"']))) := by
    simp only [List.mem_append, not_or]
    exact ⟨by decide, appendDsmlAttrEscaped_notMem (.inr rfl) _, by decide, by split <;> decide,
      by decide⟩
  have htag : lit "<｜DSML｜parameter name=\"" ++
      (appendDsmlAttrEscaped (some arg.key) ++ (lit "\" string=\"" ++
        ((if arg.isString then lit "true" else lit "false") ++ [ch '"']))) ++ [ch '>'] =
      lit "<｜DSML｜parameter name=" ++ ch '"' :: (appendDsmlAttrEscaped (some arg.key) ++ ch '"' ::
        (lit " string=" ++ ch '"' :: ((if arg.isString then lit "true" else lit "false") ++
          ch '"' :: [ch '>']))) := by
    have h1 : lit "<｜DSML｜parameter name=\"" = lit "<｜DSML｜parameter name=" ++ [ch '"'] := by decide
    have h2 : lit "\" string=\"" = [ch '"'] ++ (lit " string=" ++ [ch '"']) := by decide
    simp only [h1, h2, List.append_assoc, List.cons_append, List.nil_append]
  have hname := dsmlAttr_name_rendered (X := lit "<｜DSML｜parameter name=")
    (Z := lit " string=" ++ ch '"' :: ((if arg.isString then lit "true" else lit "false") ++
      ch '"' :: [ch '>'])) arg.key (by decide) (by decide)
  have hstart : dsmlSyntaxLong.paramStart <+: lit "<｜DSML｜parameter name=\"" := by decide
  rw [htext, dsmlParseParam, dsmlOpenTag_eq (hstart.trans (List.prefix_append _ _)) hgt, htag]
  simp only [hname, dsmlAttr_string_rendered, reduceCtorEq, false_and, ↓reduceIte]
  rw [dsmlParseParamValue_eq (by decide) (find_renderedBody arg), rereadValue_eq]

theorem space_newline : Space [ch '\n'] := by
  intro c hc
  rw [List.mem_singleton.1 hc]
  decide

/-- One argument added to the arguments of the call. -/
def rereadAdd (args : Bytes) (arg : JsonArg) : Bytes :=
  toolCallJsonArgsAdd args arg.key (rereadValue arg) (rereadType arg)

theorem dsmlParseParams_rendered (as : List JsonArg) (hs : Space a) (r args : Bytes) :
    dsmlParseParams dsmlSyntaxLong (a ++ (as.flatMap appendDsmlArg ++
      (dsmlSyntaxLong.invokeEnd ++ r))) args = some (as.foldl rereadAdd args, r) := by
  induction as generalizing a args with
  | nil =>
    have hskip : skipSpace (a ++ (dsmlSyntaxLong.invokeEnd ++ r)) =
        dsmlSyntaxLong.invokeEnd ++ r := skipSpace_append hs
    rw [List.flatMap_nil, List.nil_append, dsmlParseParams, hskip, if_pos (List.prefix_append _ _)]
    simp
  | cons arg as ih =>
    have hskip : skipSpace (a ++ ((arg :: as).flatMap appendDsmlArg ++
        (dsmlSyntaxLong.invokeEnd ++ r))) = appendDsmlArg arg ++ (as.flatMap appendDsmlArg ++
          (dsmlSyntaxLong.invokeEnd ++ r)) := by
      rw [skipSpace_append hs, List.flatMap_cons, List.append_assoc]
      rfl
    have hno : ¬ dsmlSyntaxLong.invokeEnd <+: appendDsmlArg arg ++ (as.flatMap appendDsmlArg ++
        (dsmlSyntaxLong.invokeEnd ++ r)) := by
      rintro ⟨u, hu⟩
      exact absurd (List.cons.inj (List.cons.inj hu).2).1 (by decide)
    rw [dsmlParseParams, hskip, if_neg hno]
    split
    · next h => rw [dsmlParseParam_rendered] at h; cases h
    · next args' q h =>
      rw [dsmlParseParam_rendered] at h
      cases h
      exact ih space_newline _

/-- The call that is read back. -/
def rereadCall (tc : ToolCall) (as : List JsonArg) : ToolCall :=
  ⟨some (orEmpty tc.name), some (lit "\x7b" ++ as.foldl rereadAdd [] ++ lit "\x7d")⟩

theorem dsmlParseInvoke_rendered (h : jsonArgsParse tc.arguments = some as) (r : Bytes) :
    dsmlParseInvoke dsmlSyntaxLong (appendDsmlToolCall tc ++ r) =
      some (rereadCall tc as, ch '\n' :: r) := by
  have hargs : appendDsmlArgumentsFromJson tc.arguments none = some (as.flatMap appendDsmlArg) := by
    rw [appendDsmlArgumentsFromJson, appendArgumentsFromJson, h]
    rfl
  have htext : appendDsmlToolCall tc ++ r = (lit "<｜DSML｜invoke name=" ++ ch '"' ::
      (appendDsmlAttrEscaped tc.name ++ [ch '"'])) ++ ch '>' :: ([ch '\n'] ++
        (as.flatMap appendDsmlArg ++ (dsmlSyntaxLong.invokeEnd ++ ch '\n' :: r))) := by
    have h1 : lit "<｜DSML｜invoke name=\"" = lit "<｜DSML｜invoke name=" ++ [ch '"'] := by decide
    have h2 : lit "\">\n" = [ch '"'] ++ ([ch '>'] ++ [ch '\n']) := by decide
    have h3 : lit "</｜DSML｜invoke>\n" = dsmlSyntaxLong.invokeEnd ++ [ch '\n'] := by decide
    simp only [appendDsmlToolCall, hargs, Option.getD_some, h1, h2, h3, List.append_assoc,
      List.cons_append, List.nil_append]
  have hgt : ch '>' ∉ lit "<｜DSML｜invoke name=" ++ ch '"' ::
      (appendDsmlAttrEscaped tc.name ++ [ch '"']) := by
    simp only [List.mem_append, List.mem_cons, not_or]
    exact ⟨by decide, by decide, appendDsmlAttrEscaped_notMem (.inr rfl) _, by decide, by decide⟩
  have htag : lit "<｜DSML｜invoke name=" ++ ch '"' :: (appendDsmlAttrEscaped tc.name ++ [ch '"']) ++
      [ch '>'] = lit "<｜DSML｜invoke name=" ++ ch '"' :: (appendDsmlAttrEscaped (some (orEmpty tc.name)) ++
        ch '"' :: [ch '>']) := by
    simp [appendDsmlAttrEscaped]
  have hname := dsmlAttr_name_rendered (X := lit "<｜DSML｜invoke name=") (Z := [ch '>'])
    (orEmpty tc.name) (by decide) (by decide)
  have hstart : dsmlSyntaxLong.invokeStart <+: lit "<｜DSML｜invoke name=" := by decide
  rw [htext, dsmlParseInvoke, dsmlOpenTag_eq (hstart.trans (List.prefix_append _ _)) hgt, htag]
  simp only [hname, dsmlParseParams_rendered as space_newline, Option.map_some, rereadCall]

/-- The calls of a list with their arguments. -/
def ArgsOf (calls : List ToolCall) (as : List (List JsonArg)) : Prop :=
  List.Forall₂ (fun tc as => jsonArgsParse tc.arguments = some as) calls as

theorem dsmlParseInvokes_rendered (h : ArgsOf calls as) (hs : Space a) :
    dsmlParseInvokes dsmlSyntaxLong (a ++ (calls.flatMap appendDsmlToolCall ++
      dsmlSyntaxLong.toolCallsEnd)) = some (List.zipWith rereadCall calls as, []) := by
  induction h generalizing a with
  | nil =>
    have hskip : skipSpace (a ++ dsmlSyntaxLong.toolCallsEnd) = dsmlSyntaxLong.toolCallsEnd :=
      skipSpace_append hs
    rw [List.flatMap_nil, List.nil_append, dsmlParseInvokes, hskip, if_pos (List.prefix_refl _)]
    simp
  | @cons tc as₁ calls as htc _ ih =>
    have hskip : skipSpace (a ++ ((tc :: calls).flatMap appendDsmlToolCall ++
        dsmlSyntaxLong.toolCallsEnd)) = appendDsmlToolCall tc ++ (calls.flatMap appendDsmlToolCall ++
          dsmlSyntaxLong.toolCallsEnd) := by
      rw [skipSpace_append hs, List.flatMap_cons, List.append_assoc]
      rfl
    have hno : ¬ dsmlSyntaxLong.toolCallsEnd <+: appendDsmlToolCall tc ++
        (calls.flatMap appendDsmlToolCall ++ dsmlSyntaxLong.toolCallsEnd) := by
      rintro ⟨u, hu⟩
      exact absurd (List.cons.inj (List.cons.inj hu).2).1 (by decide)
    rw [dsmlParseInvokes, hskip, if_neg hno]
    split
    · next h => rw [dsmlParseInvoke_rendered htc] at h; cases h
    · next tc' q h =>
      rw [dsmlParseInvoke_rendered htc] at h
      cases h
      have := ih space_newline
      rw [List.singleton_append] at this
      rw [this]
      rfl

/-- The parser accepts every rendered text. -/
theorem parse_appendDsmlToolCallsText (hraw : orEmpty calls.rawToolText = [])
    (h : ArgsOf calls.v as) : ∃ msg,
      parseDeepseekGeneratedMessageEx (appendDsmlToolCallsText calls) false = some msg ∧
        msg.calls.v = List.zipWith rereadCall calls.v as := by
  by_cases hv : calls.v = []
  · rw [appendDsmlToolCallsText, if_pos hv]
    exact ⟨⟨[], none, ⟨[], none⟩⟩, by decide, by rw [hv]; rfl⟩
  · have htext : appendDsmlToolCallsText calls = lit "\n\n" ++ (dsmlSyntaxLong.toolCallsStart ++
        ([ch '\n'] ++ (calls.v.flatMap appendDsmlToolCall ++ dsmlSyntaxLong.toolCallsEnd))) := by
      have h1 : lit "\n\n<｜DSML｜tool_calls>\n" =
        lit "\n\n" ++ (dsmlSyntaxLong.toolCallsStart ++ [ch '\n']) := by decide
      rw [appendDsmlToolCallsText, if_neg hv, if_neg (by simpa using hraw), h1]
      simp only [List.append_assoc]
      rfl
    have hstart : deepseekBlockStart (appendDsmlToolCallsText calls) = some (0, dsmlSyntaxLong) := by
      have hf : find (lit "\n\n" ++ dsmlSyntaxLong.toolCallsStart) (appendDsmlToolCallsText calls) =
          some 0 := by
        rw [htext, ← List.append_assoc (lit "\n\n")]
        exact find_prefix (List.prefix_append _ _)
      simp [deepseekBlockStart, dsmlSyntaxes, hf]
    have hblock : deepseekParseBlock dsmlSyntaxLong (appendDsmlToolCallsText calls) =
        some (List.zipWith rereadCall calls.v as, []) := by
      have hf : find dsmlSyntaxLong.toolCallsStart (appendDsmlToolCallsText calls) = some 2 := by
        have hsh : Sharp (ch '<') dsmlSyntaxLong.toolCallsStart := by decide
        rw [htext, ← List.append_assoc (lit "\n\n")]
        exact hsh.find_at (by decide)
      have hd : (appendDsmlToolCallsText calls).drop (2 + dsmlSyntaxLong.toolCallsStart.length) =
          [ch '\n'] ++ (calls.v.flatMap appendDsmlToolCall ++ dsmlSyntaxLong.toolCallsEnd) := by
        rw [← List.drop_drop, htext]
        change List.drop _ (dsmlSyntaxLong.toolCallsStart ++ _) = _
        exact List.drop_left
      rw [deepseekParseBlock, hf]
      simp only [hd]
      exact dsmlParseInvokes_rendered h space_newline
    simp only [parseDeepseekGeneratedMessageEx, toolSearchStart, Bool.false_eq_true, ↓reduceIte,
      List.drop_zero, hstart, hblock, Nat.add_zero, Option.map_some]
    exact ⟨_, rfl, rfl⟩

end Ds4
