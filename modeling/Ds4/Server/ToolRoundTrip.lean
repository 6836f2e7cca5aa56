import Ds4.Server.ToolReparse

/-!
# Rendered tool calls read back

The arguments of a rendered call come back unchanged, except for string values whose key ends with
`string=`. There the attribute reader takes the end of the key for the `string` attribute, and the
value is read as raw JSON (`roundTrips_iff`).
-/

namespace Ds4
open C Scan

/-! ## What is to be preserved -/

/-- Some `<` that start the closing tag `fin` are spelled `\u003c` in the second text. -/
inductive Respelled (fin : Bytes) : Bytes → Bytes → Prop
  | nil : Respelled fin [] []
  | byte : Respelled fin s s' → Respelled fin (c :: s) (c :: s')
  | lt : fin <+: ch '<' :: s → Respelled fin s s' →
      Respelled fin (ch '<' :: s) (lit "\\u003c" ++ s')

structure SameArg (a b : JsonArg) : Prop where
  key : b.key = a.key
  isString : b.isString = a.isString
  string : a.isString = true → b.value = a.value
  raw : a.isString = false → Respelled (lit "</｜DSML｜parameter>") a.value b.value

structure SameCall (tc tc' : ToolCall) : Prop where
  name : tc'.name = tc.name
  args : ∃ as bs, jsonArgsParse tc.arguments = some as ∧ jsonArgsParse tc'.arguments = some bs ∧
    List.Forall₂ SameArg as bs

/-- The calls survive being rendered and parsed. -/
def RoundTrips (calls : ToolCalls) : Prop :=
  ∃ msg, parseDeepseekGeneratedMessageEx (appendDsmlToolCallsText calls) false = some msg ∧
    List.Forall₂ SameCall calls.v msg.calls.v

theorem respelled_dsmlJsonLiteral (hfin : Sharp (ch '<') fin) (s : Bytes) :
    Respelled fin s (dsmlJsonLiteral fin s) := by
  induction s with
  | nil => exact .nil
  | cons c s ih =>
    rw [dsmlJsonLiteral]
    split
    · next hp =>
      obtain ⟨tl, rfl, -⟩ := id hfin
      obtain ⟨rfl, -⟩ := List.cons_prefix_cons.1 hp
      exact .lt hp ih
    · exact .byte ih

/-! ## The text of the arguments -/

/-- What the parser writes for a body that it takes for JSON. -/
def rawText (e : Bytes) : Bytes :=
  let min := jsonMinifyRawValue (some e)
  if min = [] then lit "null" else min

/-- The member that the parser writes for a rendered argument. -/
def rereadMember (arg : JsonArg) : Bytes :=
  jsonEscape arg.key ++ (lit ": " ++
    if rereadType arg = lit "true" then jsonEscape (rereadValue arg) else rawText (rereadValue arg))

/-- The members after the first one and the closing brace. -/
def rereadTail (as : List JsonArg) : Bytes :=
  as.flatMap (fun a => lit ", " ++ rereadMember a) ++ lit "\x7d"

/-- What the argument reader sees after the opening brace, or after a comma. -/
def rereadText : List JsonArg → Bytes
  | [] => lit "\x7d"
  | a :: as => rereadMember a ++ rereadTail as

theorem rereadAdd_eq (h : args ≠ []) : rereadAdd args a = args ++ (lit ", " ++ rereadMember a) := by
  simp [rereadAdd, toolCallJsonArgsAdd, rereadMember, rawText, h]

theorem rereadText_eq (as : List JsonArg) : as.foldl rereadAdd [] ++ lit "\x7d" = rereadText as := by
  have htext : rereadText as = membersText rereadMember as := by cases as <;> rfl
  rw [htext]
  apply foldl_members
  · intro a
    simp [rereadAdd, toolCallJsonArgsAdd, rereadMember, rawText]
  · exact fun args a h => rereadAdd_eq h
  · intro a
    simp [rereadMember, jsonEscape]

theorem rereadTail_stops (as : List JsonArg) : Stops (rereadTail as) :=
  membersTail_stops rereadMember as

/-- After a value, the reader skips the separator. -/
theorem rereadTail_next (as : List JsonArg) :
    skipSpace (if (skipSpace (rereadTail as)).head? = some (ch ',') then
      (skipSpace (rereadTail as)).drop 1 else skipSpace (rereadTail as)) = rereadText as := by
  have htext : rereadText as = membersText rereadMember as := by cases as <;> rfl
  rw [htext]
  exact membersTail_next (fun _ _ => skipSpace_cons_of_not (by decide)) as

/-- Reading a member comes down to reading its value. -/
theorem jsonArgsMember_reread (h : 0 ∉ a.key) (hv : rereadMember a = jsonEscape a.key ++ (lit ": " ++ v)) :
    jsonArgsMember (rereadMember a ++ rereadTail as) =
      (jsonArgValue (skipSpace (v ++ rereadTail as))).map fun x =>
        let rest := skipSpace x.2
        let rest := if rest.head? = some (ch ',') then rest.drop 1 else rest
        (⟨a.key, x.1.1, x.1.2⟩, skipSpace rest) := by
  have hcolon : skipSpace (lit ": " ++ (v ++ rereadTail as)) =
      ch ':' :: ch ' ' :: (v ++ rereadTail as) := rfl
  rw [hv, List.append_assoc, List.append_assoc, jsonArgsMember, jsonString_jsonEscape h]
  simp only [hcolon, ↓reduceIte, skipSpace_cons_of (show isspace (ch ' ') = true by decide)]

/-! ## Arguments that come back -/

/-- A string value whose type the attribute reader misses. -/
def TypeLost (a : JsonArg) : Prop := a.isString = true ∧ lit "string=" <:+ a.key

theorem jsonArgValue_jsonEscape (h : 0 ∉ s) :
    jsonArgValue (jsonEscape s ++ r) = some ((s, true), r) := by
  rw [jsonArgValue, if_pos (by rfl), jsonString_jsonEscape h]
  rfl

/-- A kept argument is read back as the same argument. -/
theorem jsonArgsMember_kept (as : List JsonArg) (ha : a.Wf) (hk : ¬ TypeLost a) :
    ∃ b, SameArg a b ∧ jsonArgsMember (rereadMember a ++ rereadTail as) = some (b, rereadText as) := by
  cases hs : a.isString with
  | true =>
    have htype : rereadType a = lit "true" := by
      rw [rereadType, if_neg fun h => hk ⟨hs, h⟩, if_pos hs]
    have hmem : rereadMember a = jsonEscape a.key ++ (lit ": " ++ jsonEscape a.value) := by
      rw [rereadMember, if_pos htype, rereadValue, if_pos htype]
    have hskip : skipSpace (jsonEscape a.value ++ rereadTail as) =
      jsonEscape a.value ++ rereadTail as := rfl
    refine ⟨⟨a.key, a.value, true⟩, ⟨rfl, hs.symm, fun _ => rfl, fun h => ?_⟩, ?_⟩
    · rw [hs] at h; cases h
    · rw [jsonArgsMember_reread ha.key hmem, hskip, jsonArgValue_jsonEscape (ha.str hs)]
      simp only [Option.map_some, rereadTail_next]
  | false =>
    obtain ⟨hc, hhead⟩ := ha.raw hs
    have htype : rereadType a ≠ lit "true" := by
      rw [rereadType, hs]
      split <;> decide
    have hval : rereadValue a = dsmlJsonLiteral (lit "</｜DSML｜parameter>") a.value := by
      rw [rereadValue, if_neg htype, renderedBody, hs]
      rfl
    have hc' : Compact (rereadValue a) := by
      rw [hval]
      exact hc.spell (spell_dsmlJsonLiteral (by decide) a.value)
    have hmem : rereadMember a = jsonEscape a.key ++ (lit ": " ++ rereadValue a) := by
      have hraw : rawText (rereadValue a) = rereadValue a := by
        rw [rawText, hc'.minifyRawValue]
        exact if_neg hc'.ne_nil
      rw [rereadMember, if_neg htype, hraw]
    have hhead' : (rereadValue a).head? ≠ some (ch '"') := by
      rw [hval]
      cases hv : a.value with
      | nil => exact absurd hv hc.ne_nil
      | cons c t =>
        rw [dsmlJsonLiteral]
        split
        · exact fun h => absurd (Option.some.inj h) (by decide)
        · rwa [hv] at hhead
    refine ⟨⟨a.key, rereadValue a, false⟩, ⟨rfl, hs.symm, fun h => ?_, fun _ => ?_⟩, ?_⟩
    · rw [hs] at h; cases h
    · rw [hval]
      exact respelled_dsmlJsonLiteral (by decide) a.value
    · rw [jsonArgsMember_reread ha.key hmem, hc'.val.skipSpace, hc'.read hhead' (rereadTail_stops as)]
      simp only [Option.map_some, rereadTail_next]

/-! ## Strings that do not -/

/-- The number of quotes and backslashes: what decoding a string can only lower. -/
def marks (s : Bytes) : Nat := s.countP fun c => c == ch '"' || c == ch '\\'

theorem marks_append (a b : Bytes) : marks (a ++ b) = marks a + marks b := List.countP_append

theorem marks_cons (c : UInt8) (s : Bytes) : marks (c :: s) = marks [c] + marks s :=
  marks_append [c] s

theorem marks_drop_le (s : Bytes) (n : Nat) : marks (s.drop n) ≤ marks s :=
  (List.drop_sublist n s).countP_le

theorem marks_escapeToolText (h : ClosingDelim fin) (s : Bytes) :
    marks (escapeToolText fin s) = marks s := by
  induction s with
  | nil => rfl
  | cons c s ih =>
    rw [escapeToolText, marks_cons c s]
    split
    · next hn =>
      rw [marks_append, ih]
      rcases needsEscape_head h hn with rfl | rfl
      · rfl
      · rfl
    · rw [marks_cons, ih]

theorem marks_high {l : List Nat} (h : ∀ n ∈ l, 128 ≤ n ∧ n < 256) : marks (l.map UInt8.ofNat) = 0 := by
  have byte : ∀ n < 256, 128 ≤ n →
      ¬ (UInt8.ofNat n == ch '"' || UInt8.ofNat n == ch '\\') = true := by decide +kernel
  rw [marks, List.countP_eq_zero]
  intro c hc
  obtain ⟨n, hn, rfl⟩ := List.mem_map.1 hc
  exact byte n (h n hn).2 (h n hn).1

theorem marks_utf8Put_le (cp : Nat) : marks (utf8Put cp) ≤ 1 := by
  have key : ∀ n ≤ 0x10ffff, marks (if n ≤ 0x7f then [UInt8.ofNat n]
      else if n ≤ 0x7ff then [UInt8.ofNat (0xc0 + n / 64), UInt8.ofNat (0x80 + n % 64)]
      else if n ≤ 0xffff then
        [UInt8.ofNat (0xe0 + n / 4096), UInt8.ofNat (0x80 + n / 64 % 64), UInt8.ofNat (0x80 + n % 64)]
      else
        [UInt8.ofNat (0xf0 + n / 262144), UInt8.ofNat (0x80 + n / 4096 % 64),
          UInt8.ofNat (0x80 + n / 64 % 64), UInt8.ofNat (0x80 + n % 64)]) ≤ 1 := by
    intro n hn
    split
    · exact List.countP_le_length
    split
    · refine (Nat.le_of_eq (marks_high (l := [_, _]) ?_)).trans (Nat.zero_le _)
      simp only [List.forall_mem_cons, List.not_mem_nil, false_implies, implies_true, and_true]
      omega
    split
    · refine (Nat.le_of_eq (marks_high (l := [_, _, _]) ?_)).trans (Nat.zero_le _)
      simp only [List.forall_mem_cons, List.not_mem_nil, false_implies, implies_true, and_true]
      omega
    · refine (Nat.le_of_eq (marks_high (l := [_, _, _, _]) ?_)).trans (Nat.zero_le _)
      simp only [List.forall_mem_cons, List.not_mem_nil, false_implies, implies_true, and_true]
      omega
  exact key _ (by split <;> omega)

theorem jsonStringLoop_marks : ∀ {x}, jsonStringLoop p = some x →
    marks x.1 + marks x.2 + 1 ≤ marks p := by
  have one : ∀ c, marks [c] ≤ 1 := fun c => List.countP_le_length
  have hback : marks [ch '\\'] = 1 := by decide
  fun_induction jsonStringLoop p <;> intro x h <;>
    simp_all only [reduceCtorEq, Option.some.injEq, Option.map_eq_some_iff, ne_eq, not_not]
  case case2 p =>
    subst h
    rw [marks_cons]
    exact Nat.le_of_eq (by simp [marks, Nat.add_comm])
  case case3 c p _ _ ih =>
    obtain ⟨y, hy, rfl⟩ := h
    have := ih hy
    simp only
    rw [marks_cons c, marks_cons c p]
    omega
  case case6 q cp n _ _ _ ih =>
    obtain ⟨y, hy, rfl⟩ := h
    have h1 := ih hy
    have h2 := marks_drop_le q (n - 2)
    have h3 := marks_utf8Put_le cp
    simp only
    rw [marks_append, marks_cons (ch '\\'), hback, marks_cons (ch 'u')]
    omega
  case case8 e q d _ _ _ _ ih =>
    obtain ⟨y, hy, rfl⟩ := h
    have h1 := ih hy
    have h2 := one d
    simp only
    rw [marks_cons d, marks_cons (ch '\\'), hback, marks_cons e]
    omega

/-- A quote inside a string body stands behind a backslash. -/
theorem StrBody.quote (h : StrBody w) (hw : w = x ++ ch '"' :: y) : ∃ z, x = z ++ [ch '\\'] := by
  induction h generalizing x with
  | nil => cases x <;> cases hw
  | plain h1 _ _ ih =>
    cases x with
    | nil => exact absurd (List.cons.inj hw).1 h1
    | cons d x =>
      obtain ⟨z, rfl⟩ := ih (List.cons.inj hw).2
      exact ⟨d :: z, rfl⟩
  | @short e d w he hd _ ih =>
    rcases x with _ | ⟨d₁, _ | ⟨d₂, x⟩⟩
    · exact absurd (List.cons.inj hw).1 (by decide)
    · exact ⟨[], by rw [← (List.cons.inj hw).1]; rfl⟩
    · obtain ⟨z, rfl⟩ := ih (List.cons.inj (List.cons.inj hw).2).2
      exact ⟨d₁ :: d₂ :: z, rfl⟩
  | @unicode a b c d w hu _ ih =>
    have hex : ∀ x ∈ [a, b, c, d], x ≠ ch '"' := by
      obtain ⟨n, hn⟩ := Option.isSome_iff_exists.1 hu
      simp only [jsonU16, and_self, ↓reduceIte, Option.bind_eq_bind, Option.bind_eq_some_iff] at hn
      obtain ⟨na, ha, nb, hb, nc, hc, nd, hd, -⟩ := hn
      rintro x hx rfl
      simp only [List.mem_cons, List.not_mem_nil, or_false] at hx
      have hq : jsonHex (ch '"') = none := by decide
      rcases hx with rfl | rfl | rfl | rfl <;> simp_all
    have hno : ch '"' ∉ [ch '\\', ch 'u', a, b, c, d] := by
      simp only [List.mem_cons, List.not_mem_nil, or_false, not_or]
      exact ⟨by decide, by decide, (hex a (by simp)).symm, (hex b (by simp)).symm,
        (hex c (by simp)).symm, (hex d (by simp)).symm⟩
    rcases List.append_eq_append_iff.1 (show [ch '\\', ch 'u', a, b, c, d] ++ w = _ from hw) with
      ⟨x', rfl, hx⟩ | ⟨t, ht, hx⟩
    · obtain ⟨z, rfl⟩ := ih hx
      exact ⟨[ch '\\', ch 'u', a, b, c, d] ++ z, by simp⟩
    · cases t with
      | nil =>
        obtain ⟨z, hz⟩ := ih (x := []) (by simpa using hx.symm)
        simp at hz
      | cons e t => exact absurd (by rw [ht, ← (List.cons.inj hx).1]; simp) hno

/-- A string that starts in a lost value and is closed behind it ends at the next key. -/
theorem jsonStringLoop_runs_on (h : jsonStringLoop q = none)
    (hr : jsonStringLoop (q ++ rereadTail as) = some x) : marks x.1 ≤ marks q := by
  have hm := jsonStringLoop_marks hr
  rw [marks_append] at hm
  suffices marks (rereadTail as) = marks x.2 + 1 by omega
  obtain ⟨w, hw, hx⟩ := jsonStringLoop_sound hr
  rcases List.append_eq_append_iff.1 hx with ⟨t, rfl, ht⟩ | ⟨t, rfl, ht⟩
  · cases as with
    | nil =>
      rcases t with _ | ⟨d, _ | ⟨e, t⟩⟩
      · exact absurd (List.cons.inj ht).1 (by decide)
      · cases (List.cons.inj ht).2
      · cases (List.cons.inj ht).2
    | cons b bs =>
      obtain ⟨u, hu⟩ : ∃ u, rereadTail (b :: bs) = ch ',' :: ch ' ' :: ch '"' :: u := ⟨_, rfl⟩
      rw [hu] at ht
      rcases t with _ | ⟨d, _ | ⟨e, _ | ⟨f, t⟩⟩⟩
      · exact absurd (List.cons.inj ht).1 (by decide)
      · exact absurd (List.cons.inj (List.cons.inj ht).2).1 (by decide)
      · have hux := (List.cons.inj (List.cons.inj (List.cons.inj ht).2).2).2
        have hm : marks [ch ',', ch ' ', ch '"'] = 1 := by decide
        rw [hu, hux, Nat.add_comm, ← hm]
        exact marks_append [ch ',', ch ' ', ch '"'] x.2
      · -- the quote of the next key cannot be part of the string
        simp only [List.cons_append, List.cons.injEq] at ht
        obtain ⟨hd, he, hf, -⟩ := ht
        obtain ⟨z, hz⟩ := hw.quote (x := q ++ [ch ',', ch ' ']) (y := t) (by simp [hd, he, hf])
        have := congrArg List.getLast? hz
        simp only [List.getLast?_append, List.getLast?_cons_cons, List.getLast?_singleton,
          Option.some_or, Option.some.injEq] at this
        exact absurd this (by decide)
  · cases t with
    | nil => cases as <;> exact absurd (List.cons.inj ht).1 (by decide)
    | cons d t =>
      obtain ⟨rfl, -⟩ := List.cons.inj ht
      obtain ⟨b, hb⟩ := hw.read
      rw [hb t] at h
      cases h

/-- When a string is read at a lost value, it has fewer quotes and backslashes than the value. -/
theorem marks_rawText (h : skipSpace (rawText e ++ rereadTail as) = ch '"' :: q)
    (hq : jsonStringLoop q = some x) : marks x.1 < marks e := by
  cases hraw : jsonRawValue e with
  | some y =>
    -- the body starts with a JSON value, which is copied without its white space
    obtain ⟨hv, he⟩ := jsonRawValue_sound hraw
    obtain ⟨c, t, hy, hc, -⟩ := Val.headed hv
    have hmin : jsonMinifyRawValue (some e) = jsonMinifyLoop false false y.1 := by
      simp [jsonMinifyRawValue, hraw]
    have hhead := jsonMinifyLoop_head (s := t) hc
    rw [← hy, ← hmin] at hhead
    obtain ⟨s, hs⟩ : ∃ s, jsonMinifyRawValue (some e) = c :: s := by
      cases hm : jsonMinifyRawValue (some e) with
      | nil => rw [hm] at hhead; cases hhead
      | cons d s => rw [hm] at hhead; cases hhead; exact ⟨s, rfl⟩
    have htext : rawText e = c :: s := by
      rw [rawText, hs]
      exact if_neg (by simp)
    rw [htext, List.cons_append, skipSpace_cons_of_not hc] at h
    obtain ⟨rfl, rfl⟩ := List.cons.inj h
    obtain ⟨k, hk, hyk⟩ : ∃ k, StrBody k ∧ y.1 = ch '"' :: (k ++ [ch '"']) := by
      rw [hy] at hv ⊢
      exact Val.str hv
    have hsk : s = k ++ [ch '"'] := by
      rw [hmin, hyk, (Minifies.str hk).eq] at hs
      exact (List.cons.inj hs).2.symm
    rw [hsk, List.append_assoc, List.singleton_append] at hq
    obtain ⟨b, hb⟩ := hk.read
    have hx := hb (rereadTail as)
    rw [hq] at hx
    cases hx
    have h1 := jsonStringLoop_marks hq
    have h2 := marks_drop_le e (e.length - (skipSpace e).length)
    have hdrop : e.drop (e.length - (skipSpace e).length) = skipSpace e :=
      (List.suffix_iff_eq_drop.1 (skipSpace_suffix e)).symm
    have hm : marks [ch '"'] = 1 := by decide
    rw [hdrop, he, hyk, marks_append, marks_cons, marks_append, hm] at h2
    rw [marks_append, marks_cons (ch '"'), hm] at h1
    simp only at h1 ⊢
    omega
  | none =>
    have hmin : jsonMinifyRawValue (some e) = e := by simp [jsonMinifyRawValue, hraw]
    rw [rawText, hmin] at h
    split at h
    · exact absurd (List.cons.inj h).1 (by decide)
    obtain ⟨a, ha, hae⟩ := exists_skipSpace e
    rw [hae, List.append_assoc, skipSpace_append ha] at h
    cases hse : skipSpace e with
    | nil =>
      rw [hse] at h
      cases as <;> exact absurd (List.cons.inj h).1 (by decide)
    | cons c t =>
      have hc := isspace_of_skipSpace hse
      rw [hse, List.cons_append, skipSpace_cons_of_not hc] at h
      obtain ⟨rfl, rfl⟩ := List.cons.inj h
      have hnone : jsonStringLoop t = none := by
        have hsk : jsonSkipValue (ch '"' :: t) = none := by
          rw [jsonRawValue, hse, Option.map_eq_none_iff] at hraw
          exact hraw
        have hstr : jsonSkipValue (ch '"' :: t) = (jsonString (ch '"' :: t)).map (·.2) := rfl
        rw [hstr, jsonString, skipSpace_cons_of_not hc] at hsk
        simpa using hsk
      have h1 := jsonStringLoop_runs_on hnone hq
      have h2 := marks_append a (skipSpace e)
      have hm : marks [ch '"'] = 1 := by decide
      rw [← hae, hse, marks_cons, hm] at h2
      omega

/-- A lost string is not read back. -/
theorem jsonArgsMember_lost (ha : a.Wf) (hl : TypeLost a)
    (h : jsonArgsMember (rereadMember a ++ rereadTail as) = some x) : ¬ SameArg a x.1 := by
  have htype : rereadType a = lit " string=" := by rw [rereadType, if_pos hl.2]
  have hmem : rereadMember a = jsonEscape a.key ++
      (lit ": " ++ rawText (escapeToolText (lit "</｜DSML｜parameter>") a.value)) := by
    have hne : lit " string=" ≠ lit "true" := by decide
    rw [rereadMember, rereadValue, htype, if_neg hne, if_neg hne, renderedBody, if_pos hl.1]
    rfl
  rw [jsonArgsMember_reread ha.key hmem] at h
  obtain ⟨y, hy, rfl⟩ := Option.map_eq_some_iff.1 h
  intro hsame
  have hstr : y.1.2 = true := hsame.isString.trans hl.1
  have hval : y.1.1 = a.value := hsame.string hl.1
  rw [jsonArgValue] at hy
  split at hy
  · next hq =>
    obtain ⟨z, hz, rfl⟩ := Option.map_eq_some_iff.1 hy
    cases hp : skipSpace (rawText (escapeToolText (lit "</｜DSML｜parameter>") a.value) ++
        rereadTail as) with
    | nil => rw [hp] at hq; cases hq
    | cons c q =>
      rw [hp] at hq hz
      cases hq
      rw [jsonString, skipSpace_cons_of_not (by decide)] at hz
      simp only [↓reduceIte] at hz
      obtain ⟨w, hw, rfl⟩ := Option.map_eq_some_iff.1 hz
      have h1 := marks_rawText hp hw
      have h2 : marks (cstr w.1) ≤ marks w.1 := (cstr_isPrefix w.1).sublist.countP_le
      rw [marks_escapeToolText (by decide)] at h1
      simp only at hval
      rw [hval] at h2
      omega
  · obtain ⟨z, hz, rfl⟩ := Option.map_eq_some_iff.1 hy
    cases hstr

/-! ## Calls -/

theorem rereadMember_head (a : JsonArg) (s : Bytes) :
    (rereadMember a ++ s).head? ≠ some (ch '\x7d') := by
  change some (ch '"') ≠ _
  decide

/-- The arguments come back when no string value among them is lost. -/
theorem jsonArgsLoop_reread_iff (hwf : ∀ a ∈ as, a.Wf) :
    (∃ bs, jsonArgsLoop (rereadText as) = some bs ∧ List.Forall₂ SameArg as bs) ↔
      ∀ a ∈ as, ¬ TypeLost a := by
  induction as with
  | nil =>
    refine ⟨fun _ => nofun, fun _ => ⟨[], ?_, .nil⟩⟩
    rw [rereadText, jsonArgsLoop, if_pos (by rfl)]
  | cons a as ih =>
    obtain ⟨ha, has⟩ := List.forall_mem_cons.1 hwf
    rw [List.forall_mem_cons, ← ih has, rereadText]
    have hhead := rereadMember_head a (rereadTail as)
    constructor
    · rintro ⟨bs, hbs, hall⟩
      by_cases hl : TypeLost a
      · rw [jsonArgsLoop, if_neg hhead] at hbs
        split at hbs
        · cases hbs
        · next b q hb =>
          obtain ⟨bs, -, rfl⟩ := Option.map_eq_some_iff.1 hbs
          cases hall with
          | cons hab _ => exact absurd hab (jsonArgsMember_lost ha hl hb)
      · obtain ⟨b, -, hb⟩ := jsonArgsMember_kept as ha hl
        rw [jsonArgsLoop_eq hhead hb] at hbs
        obtain ⟨cs, hcs, rfl⟩ := Option.map_eq_some_iff.1 hbs
        cases hall with
        | cons _ hall => exact ⟨hl, cs, hcs, hall⟩
    · rintro ⟨hl, bs, hbs, hall⟩
      obtain ⟨b, hab, hb⟩ := jsonArgsMember_kept as ha hl
      refine ⟨b :: bs, ?_, .cons hab hall⟩
      rw [jsonArgsLoop_eq hhead hb, hbs]
      rfl

theorem jsonArgsParse_rereadCall (tc : ToolCall) (as : List JsonArg) :
    jsonArgsParse (rereadCall tc as).arguments = jsonArgsLoop (rereadText as) := by
  have htext : skipSpace (orEmpty (rereadCall tc as).arguments) = ch '\x7b' :: rereadText as := by
    simp only [rereadCall, orEmpty, Option.getD_some, List.append_assoc, rereadText_eq]
    rfl
  have hskip : skipSpace (rereadText as) = rereadText as := by cases as <;> rfl
  rw [jsonArgsParse, htext]
  simp only [↓reduceIte, hskip]

theorem sameCall_iff (hn : tc.name ≠ none) (h : jsonArgsParse tc.arguments = some as) :
    SameCall tc (rereadCall tc as) ↔ ∀ a ∈ as, ¬ TypeLost a := by
  obtain ⟨n, hn⟩ := Option.ne_none_iff_exists'.1 hn
  rw [← jsonArgsLoop_reread_iff (jsonArgsParse_wf h), ← jsonArgsParse_rereadCall tc as]
  constructor
  · rintro ⟨-, as', bs, has, hbs, hall⟩
    rw [h] at has
    cases has
    exact ⟨bs, hbs, hall⟩
  · rintro ⟨bs, hbs, hall⟩
    exact ⟨by rw [rereadCall, hn]; rfl, as, bs, h, hbs, hall⟩

theorem exists_argsOf (h : ∀ tc ∈ calls, (jsonArgsParse tc.arguments).isSome) :
    ∃ as, ArgsOf calls as := by
  induction calls with
  | nil => exact ⟨[], .nil⟩
  | cons tc calls ih =>
    obtain ⟨htc, hcalls⟩ := List.forall_mem_cons.1 h
    obtain ⟨l, hl⟩ := Option.isSome_iff_exists.1 htc
    obtain ⟨as, has⟩ := ih hcalls
    exact ⟨l :: as, .cons hl has⟩

theorem forall₂_sameCall_iff (h : ArgsOf calls as) (hn : ∀ tc ∈ calls, tc.name ≠ none) :
    List.Forall₂ SameCall calls (List.zipWith rereadCall calls as) ↔
      ∀ tc ∈ calls, ∀ l, jsonArgsParse tc.arguments = some l → ∀ a ∈ l, ¬ TypeLost a := by
  induction h with
  | nil => simp
  | @cons tc l calls as htc _ ih =>
    obtain ⟨hn, hns⟩ := List.forall_mem_cons.1 hn
    rw [List.zipWith_cons_cons, List.forall₂_cons, sameCall_iff hn htc, ih hns,
      List.forall_mem_cons]
    have hl : (∀ l', jsonArgsParse tc.arguments = some l' → ∀ a ∈ l', ¬ TypeLost a) ↔
        ∀ a ∈ l, ¬ TypeLost a := by simp [htc]
    rw [hl]

/-- Calls with a name and readable arguments survive rendering and parsing exactly when no string
argument has a key that ends with `string=`. -/
theorem roundTrips_iff (calls : ToolCalls) (hraw : orEmpty calls.rawToolText = [])
    (hname : ∀ tc ∈ calls.v, tc.name ≠ none)
    (hargs : ∀ tc ∈ calls.v, (jsonArgsParse tc.arguments).isSome) :
    RoundTrips calls ↔ ∀ tc ∈ calls.v, ∀ as, jsonArgsParse tc.arguments = some as →
      ∀ a ∈ as, a.isString = true → ¬ lit "string=" <:+ a.key := by
  obtain ⟨as, has⟩ := exists_argsOf hargs
  obtain ⟨msg, hmsg, hcalls⟩ := parse_appendDsmlToolCallsText hraw has
  have hround : RoundTrips calls ↔
      List.Forall₂ SameCall calls.v (List.zipWith rereadCall calls.v as) := by
    rw [← hcalls]
    constructor
    · rintro ⟨msg', hmsg', h⟩
      rw [hmsg] at hmsg'
      cases hmsg'
      exact h
    · exact fun h => ⟨msg, hmsg, h⟩
  rw [hround, forall₂_sameCall_iff has hname]
  simp only [TypeLost, not_and]

/-- A call whose arguments hold a closing tag, in a string and in a nested value. -/
def quotingCall : ToolCalls :=
  ⟨[⟨some (lit "write"), some (lit "\x7b\"path\": \"</｜DSML｜parameter>\", \"opts\": [\"</｜DSML｜parameter>\", 1]\x7d")⟩],
    none⟩

theorem roundTrips_quotingCall : RoundTrips quotingCall := by
  have hargs : jsonArgsParse (some (lit "\x7b\"path\": \"</｜DSML｜parameter>\", \"opts\": [\"</｜DSML｜parameter>\", 1]\x7d")) =
      some [⟨lit "path", lit "</｜DSML｜parameter>", true⟩,
        ⟨lit "opts", lit "[\"</｜DSML｜parameter>\",1]", false⟩] := by decide +kernel
  refine (roundTrips_iff quotingCall rfl ?_ ?_).2 ?_
  · simp [quotingCall]
  · simp [quotingCall, hargs]
  · simp only [quotingCall, List.mem_singleton, forall_eq, hargs, Option.some.injEq, forall_eq',
      List.forall_mem_cons]
    exact ⟨fun _ => by decide, fun h => absurd h (by decide)⟩

/-- The value of the argument `string=` is read back as JSON. -/
def lostCall : ToolCalls := ⟨[⟨some (lit "f"), some (lit "\x7b\"string=\": \"1\"\x7d")⟩], none⟩

theorem not_roundTrips_lostCall : ¬ RoundTrips lostCall := by
  have hargs : jsonArgsParse (some (lit "\x7b\"string=\": \"1\"\x7d")) =
      some [⟨lit "string=", lit "1", true⟩] := by decide +kernel
  have hmsg : parseDeepseekGeneratedMessageEx (appendDsmlToolCallsText lostCall) false =
      some ⟨[], none, ⟨[⟨some (lit "f"), some (lit "\x7b\"string=\": 1\x7d")⟩],
        some (appendDsmlToolCallsText lostCall)⟩⟩ := by decide +kernel
  have hback : jsonArgsParse (some (lit "\x7b\"string=\": 1\x7d")) =
      some [⟨lit "string=", lit "1", false⟩] := by decide +kernel
  rintro ⟨msg, h, hall⟩
  rw [hmsg] at h
  cases h
  cases hall with
  | cons hcall _ =>
    obtain ⟨as, bs, has, hbs, hargs'⟩ := hcall.args
    rw [hargs] at has
    rw [hback] at hbs
    cases has
    cases hbs
    cases hargs' with
    | cons harg _ => exact absurd harg.isString (by decide)

end Ds4
