import Ds4.Server.GlmReparse

/-!
# Rendered GLM calls read back

The GLM syntax has no place for the type of a value. A call comes back with its name and its keys,
and with every value as a string: a string as it was, any other value as its JSON text
(`glm_returns_strings`).
-/

namespace Ds4
open C Scan

/-- The member that the parser writes for a rendered argument. -/
def glmMember (a : JsonArg) : Bytes := jsonEscape a.key ++ (lit ": " ++ jsonEscape a.value)

theorem foldl_glmRereadAdd (as : List JsonArg) :
    as.foldl glmRereadAdd [] ++ lit "\x7d" = membersText glmMember as := by
  apply foldl_members
  · intro a
    simp [glmRereadAdd, toolCallJsonArgsAdd, glmMember]
  · intro args a h
    simp [glmRereadAdd, toolCallJsonArgsAdd, glmMember, h]
  · intro a
    simp [glmMember, jsonEscape]

/-- The argument with its value as a string. -/
def JsonArg.asString (a : JsonArg) : JsonArg := { a with isString := true }

theorem jsonArgsMember_glm (hk : 0 ∉ a.key) (hv : 0 ∉ a.value) (as : List JsonArg) :
    jsonArgsMember (glmMember a ++ membersTail glmMember as) =
      some (a.asString, membersText glmMember as) := by
  have hcolon : skipSpace (lit ": " ++ (jsonEscape a.value ++ membersTail glmMember as)) =
      ch ':' :: ch ' ' :: (jsonEscape a.value ++ membersTail glmMember as) := rfl
  have hskip : skipSpace (ch ' ' :: (jsonEscape a.value ++ membersTail glmMember as)) =
      jsonEscape a.value ++ membersTail glmMember as :=
    (skipSpace_cons_of (by decide)).trans (skipSpace_cons_of_not (by decide))
  rw [glmMember, List.append_assoc, List.append_assoc, jsonArgsMember, jsonString_jsonEscape hk]
  simp only [hcolon, ↓reduceIte, hskip, jsonArgValue_jsonEscape hv, Option.map_some,
    @membersTail_next _ glmMember (fun _ _ => skipSpace_cons_of_not (by decide))]
  rfl

theorem jsonArgsLoop_glm (h : ∀ a ∈ as, 0 ∉ a.key ∧ 0 ∉ a.value) :
    jsonArgsLoop (membersText glmMember as) = some (as.map JsonArg.asString) := by
  induction as with
  | nil => rw [membersText, jsonArgsLoop, if_pos (by rfl)]; rfl
  | cons a as ih =>
    obtain ⟨⟨hk, hv⟩, has⟩ := List.forall_mem_cons.1 h
    have hhead : (glmMember a ++ membersTail glmMember as).head? ≠ some (ch '\x7d') := by
      change some (ch '"') ≠ _
      decide
    rw [membersText, jsonArgsLoop_eq hhead (jsonArgsMember_glm hk hv as), ih has]
    rfl

theorem jsonArgsParse_glmRereadCall (h : ∀ a ∈ as, 0 ∉ a.key ∧ 0 ∉ a.value) :
    jsonArgsParse (glmRereadCall (n, as)).arguments = some (as.map JsonArg.asString) := by
  have htext : skipSpace (orEmpty (glmRereadCall (n, as)).arguments) =
      ch '\x7b' :: membersText glmMember as := by
    simp only [glmRereadCall, orEmpty, Option.getD_some, List.append_assoc, foldl_glmRereadAdd]
    exact skipSpace_cons_of_not (by decide)
  have hskip : skipSpace (membersText glmMember as) = membersText glmMember as := by
    cases as <;> exact skipSpace_cons_of_not (by decide)
  rw [jsonArgsParse, htext]
  simp only [↓reduceIte, hskip, jsonArgsLoop_glm h]

/-! ## Text without NUL

A NUL would end a string on its way back. None can stand in a C string, and reading a value adds
none. -/

theorem jsonMinifyLoop_sublist (s : Bytes) (inString escape : Bool) :
    (jsonMinifyLoop inString escape s).Sublist s := by
  induction s generalizing inString escape with
  | nil => rw [jsonMinifyLoop]
  | cons c s ih =>
    rw [jsonMinifyLoop]
    split
    · refine .cons_cons _ ?_
      split
      · exact ih _ _
      split
      · exact ih _ _
      split <;> exact ih _ _
    split
    · exact (ih _ _).cons_cons _
    split
    · exact (ih _ _).cons _
    · exact (ih _ _).cons_cons _

theorem jsonString_suffix (h : jsonString p = some x) : x.2 <:+ p := by
  obtain ⟨a, k, -, -, rfl⟩ := jsonString_sound h
  refine .trans ?_ (List.suffix_append _ _)
  refine .trans ?_ (List.suffix_cons _ _)
  exact (List.suffix_cons _ _).trans (List.suffix_append _ _)

theorem jsonArgValue_noNul (h : jsonArgValue p = some x) (hp : 0 ∉ p) :
    0 ∉ x.1.1 ∧ 0 ∉ x.2 := by
  rw [jsonArgValue] at h
  split at h
  · obtain ⟨y, hy, rfl⟩ := Option.map_eq_some_iff.1 h
    exact ⟨jsonString_noNul hy, fun h0 => hp ((jsonString_suffix hy).mem h0)⟩
  · obtain ⟨y, hy, rfl⟩ := Option.map_eq_some_iff.1 h
    obtain ⟨hv, hs⟩ := jsonRawValue_sound hy
    have hall : ∀ c ∈ y.1 ++ y.2, c ∈ p := fun c hc =>
      (skipSpace_suffix p).mem (hs ▸ hc)
    refine ⟨fun h0 => hp ?_, fun h0 => hp (hall 0 (List.mem_append_right _ h0))⟩
    rw [hv.minifyRawValue] at h0
    exact hall 0 (List.mem_append_left _ ((jsonMinifyLoop_sublist _ _ _).mem h0))

theorem jsonArgsMember_noNul (h : jsonArgsMember p = some x) (hp : 0 ∉ p) :
    (0 ∉ x.1.key ∧ 0 ∉ x.1.value) ∧ 0 ∉ x.2 := by
  rw [jsonArgsMember] at h
  split at h
  · cases h
  next key q hq =>
  split at h
  · cases h
  next c r hr =>
  split at h
  · obtain ⟨y, hy, rfl⟩ := Option.map_eq_some_iff.1 h
    have hr0 : 0 ∉ skipSpace r := fun h0 => hp <| (jsonString_suffix hq).mem <|
      (skipSpace_suffix q).mem <| hr ▸ List.mem_cons_of_mem _ ((skipSpace_suffix r).mem h0)
    obtain ⟨hv, hrest⟩ := jsonArgValue_noNul hy hr0
    refine ⟨⟨jsonString_noNul hq, hv⟩, fun h0 => hrest ?_⟩
    replace h0 := (skipSpace_suffix _).mem h0
    split at h0
    · exact (skipSpace_suffix _).mem ((List.drop_suffix _ _).mem h0)
    · exact (skipSpace_suffix _).mem h0
  · cases h

theorem jsonArgsLoop_noNul (h : jsonArgsLoop p = some as) (hp : 0 ∉ p) :
    ∀ a ∈ as, 0 ∉ a.key ∧ 0 ∉ a.value := by
  fun_induction jsonArgsLoop p generalizing as with
  | case1 => cases h; exact fun _ ha => by cases ha
  | case2 => cases h
  | case3 p _ arg q hq ih =>
    obtain ⟨bs, hbs, rfl⟩ := Option.map_eq_some_iff.1 h
    obtain ⟨ha, hrest⟩ := jsonArgsMember_noNul hq hp
    exact List.forall_mem_cons.2 ⟨ha, ih hbs hrest⟩

theorem jsonArgsParse_noNul (h : jsonArgsParse json = some as) (hp : 0 ∉ orEmpty json) :
    ∀ a ∈ as, 0 ∉ a.key ∧ 0 ∉ a.value := by
  rw [jsonArgsParse] at h
  split at h
  · cases h
  · next c p hs =>
    have hp' : 0 ∉ c :: p := fun h0 => hp ((skipSpace_suffix _).mem (hs ▸ h0))
    split at h
    · exact jsonArgsLoop_noNul h fun h0 =>
        hp' (List.mem_cons_of_mem _ ((skipSpace_suffix p).mem h0))
    · cases h

/-! ## Calls -/

theorem perm_cons_eraseP {as : List JsonArg} {p : JsonArg → Bool} (h : as.find? p = some a) :
    as.Perm (a :: as.eraseP p) := by
  obtain ⟨hp, xs, ys, rfl, hxs⟩ := List.find?_eq_some_iff_append.1 h
  have hfree : ∀ b ∈ xs, ¬ p b = true := fun b hb => by simpa using hxs b hb
  rw [List.eraseP_append_right _ hfree, List.eraseP_cons_of_pos hp]
  exact List.perm_middle

/-- The schema only reorders the arguments. -/
theorem jsonArgsInOrder_perm (keys : List Bytes) (as : List JsonArg) :
    (jsonArgsInOrder keys as).Perm as := by
  induction keys generalizing as with
  | nil => exact .refl _
  | cons key keys ih =>
    rw [jsonArgsInOrder]
    split
    · exact ih as
    · next a ha => exact ((ih _).cons a).trans (perm_cons_eraseP ha).symm

/-- A call whose text the GLM syntax can carry. -/
structure GlmCarried (req : Bool) (tc : ToolCall) : Prop where
  /-- When a reasoning has to be closed first, its closing tag cannot stand in a name. -/
  name : ∃ n, tc.name = some n ∧ GlmName n ∧ (req = true → ¬ lit "</think>" <:+: n)
  args : ∃ as, jsonArgsParse tc.arguments = some as ∧ ∀ a ∈ as, Trimmed a.key
  noNul : 0 ∉ orEmpty tc.arguments

/-- `tc'` is `tc` with every argument `a` as `back a`, in some order. -/
structure GlmReturned (back : JsonArg → JsonArg) (tc tc' : ToolCall) : Prop where
  name : tc'.name = tc.name
  args : ∃ as bs, jsonArgsParse tc.arguments = some as ∧ jsonArgsParse tc'.arguments = some bs ∧
    bs.Perm (as.map back)

/-- What is rendered for a call, and what comes back for it. -/
theorem GlmCarried.rendered (h : GlmCarried req tc) (orders : List ToolSchemaOrder) :
    ∃ x, GlmRendered orders tc x ∧ GlmSpelled x ∧ (req = true → ¬ lit "</think>" <:+: x.1) ∧
      GlmReturned JsonArg.asString tc (glmRereadCall x) := by
  obtain ⟨n, hn, hname, hthink⟩ := h.name
  obtain ⟨as, has, hkeys⟩ := h.args
  have hperm := jsonArgsInOrder_perm (((toolSchemaOrdersFind orders tc.name).map (·.prop)).getD []) as
  have hnul : ∀ a ∈ as, 0 ∉ a.key ∧ 0 ∉ a.value := jsonArgsParse_noNul has h.noNul
  refine ⟨(n, _), ⟨hn, as, has, rfl⟩, ⟨hname, fun a ha => hkeys a (hperm.mem_iff.1 ha)⟩, hthink,
    hn.symm, as, _, has, jsonArgsParse_glmRereadCall fun a ha => hnul a (hperm.mem_iff.1 ha), ?_⟩
  exact hperm.map _

theorem exists_glmRendered (orders : List ToolSchemaOrder) (h : ∀ tc ∈ calls, GlmCarried req tc) :
    ∃ xs, List.Forall₂ (GlmRendered orders) calls xs ∧ (∀ x ∈ xs, GlmSpelled x) ∧
      (req = true → ∀ x ∈ xs, ¬ lit "</think>" <:+: x.1) ∧
        List.Forall₂ (GlmReturned JsonArg.asString) calls (xs.map glmRereadCall) := by
  induction calls with
  | nil => exact ⟨[], .nil, nofun, fun _ => nofun, .nil⟩
  | cons tc calls ih =>
    obtain ⟨htc, hcalls⟩ := List.forall_mem_cons.1 h
    obtain ⟨x, hx, hsp, hthink, hback⟩ := htc.rendered orders
    obtain ⟨xs, hxs, hsps, hthinks, hbacks⟩ := ih hcalls
    exact ⟨x :: xs, .cons hx hxs, List.forall_mem_cons.2 ⟨hsp, hsps⟩,
      fun hr => List.forall_mem_cons.2 ⟨hthink hr, hthinks hr⟩, .cons hback hbacks⟩

/-- Every call comes back in its place, with its name and its keys, and with every value as a
string. -/
theorem glm_returns_strings (calls : ToolCalls) (orders : List ToolSchemaOrder) (req : Bool)
    (hraw : orEmpty calls.rawToolText = []) (h : ∀ tc ∈ calls.v, GlmCarried req tc) :
    ∃ msg, parseGlmGeneratedMessageEx (appendGlmToolCallsText calls orders) req = some msg ∧
      List.Forall₂ (GlmReturned JsonArg.asString) calls.v msg.calls.v := by
  obtain ⟨xs, hxs, hsp, hthink, hback⟩ := exists_glmRendered orders h
  obtain ⟨msg, hmsg, hcalls⟩ := parse_appendGlmToolCallsText hraw hxs hsp hthink
  exact ⟨msg, hmsg, hcalls ▸ hback⟩

/-- A call with a number, whose arguments the schema writes in the other order. -/
def numberCall : ToolCalls :=
  ⟨[⟨some (lit "bash"), some (lit "\x7b\"timeout\": 10, \"command\": \"echo </arg_value>\"\x7d")⟩], none⟩

theorem jsonArgsParse_numberCall :
    jsonArgsParse (some (lit "\x7b\"timeout\": 10, \"command\": \"echo </arg_value>\"\x7d")) =
      some [⟨lit "timeout", lit "10", false⟩, ⟨lit "command", lit "echo </arg_value>", true⟩] := by
  decide +kernel

theorem numberCall_returns_strings : ∃ msg, parseGlmGeneratedMessageEx
    (appendGlmToolCallsText numberCall [⟨lit "bash", [lit "command", lit "timeout"]⟩]) true = some msg ∧
      List.Forall₂ (GlmReturned JsonArg.asString) numberCall.v msg.calls.v := by
  refine glm_returns_strings _ _ _ rfl ?_
  simp only [numberCall, List.mem_singleton, forall_eq]
  refine ⟨⟨_, rfl, ⟨by decide, by decide, by decide, by decide⟩, fun _ => by decide⟩,
    ⟨_, jsonArgsParse_numberCall, ?_⟩, by decide⟩
  simp only [List.forall_mem_cons]
  exact ⟨by decide, by decide, nofun⟩

/-- A call that also keeps the types: a value that is no string comes back as it was, and so does a
string that does not read as a value. -/
structure TypesKept (tc tc' : ToolCall) : Prop where
  name : tc'.name = tc.name
  args : ∃ as bs, jsonArgsParse tc.arguments = some as ∧ jsonArgsParse tc'.arguments = some bs ∧
    ∀ a ∈ as, (a.isString = true → jsonRawValue a.value = none) → a ∈ bs

/-- The number comes back as a string. -/
theorem not_typesKept_numberCall : ¬ ∃ msg, parseGlmGeneratedMessageEx
    (appendGlmToolCallsText numberCall []) false = some msg ∧
      List.Forall₂ TypesKept numberCall.v msg.calls.v := by
  have hmsg : (parseGlmGeneratedMessageEx (appendGlmToolCallsText numberCall []) false).map (·.calls.v) =
      some [⟨some (lit "bash"), some (lit "\x7b\"timeout\": \"10\", \"command\": \"echo </arg_value>\"\x7d")⟩] := by
    decide +kernel
  have hback : jsonArgsParse (some (lit "\x7b\"timeout\": \"10\", \"command\": \"echo </arg_value>\"\x7d")) =
      some [⟨lit "timeout", lit "10", true⟩, ⟨lit "command", lit "echo </arg_value>", true⟩] := by
    decide +kernel
  rintro ⟨msg, h, hall⟩
  rw [h, Option.map_some] at hmsg
  rw [Option.some.inj hmsg] at hall
  cases hall with
  | cons hcall _ =>
    obtain ⟨as, bs, has, hbs, hkept⟩ := hcall.args
    rw [jsonArgsParse_numberCall] at has
    rw [hback] at hbs
    cases has
    cases hbs
    exact absurd (hkept _ List.mem_cons_self nofun) (by decide)

end Ds4
