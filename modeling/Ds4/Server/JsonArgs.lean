import Ds4.Server.JsonGrammar

/-!
# Writing and re-reading arguments

What `json_escape` writes, `json_string` reads back, and what `json_args_parse` returns is in a form
that survives being written and read again (`JsonArg.Wf`).
-/

namespace Ds4
open C

/-! ## Strings -/

theorem jsonStringLoop_jsonEscapeByte (c : UInt8) :
    jsonStringLoop (jsonEscapeByte c ++ p) = (jsonStringLoop p).map fun x => (c :: x.1, x.2) := by
  rw [jsonEscapeByte]
  split
  · next h =>
    rcases h with rfl | rfl
    · exact jsonStringLoop_short (by decide) (by decide)
    · exact jsonStringLoop_short (by decide) (by decide)
  split
  · next h => subst h; exact jsonStringLoop_short (by decide) (by decide)
  split
  · next h => subst h; exact jsonStringLoop_short (by decide) (by decide)
  split
  · next h => subst h; exact jsonStringLoop_short (by decide) (by decide)
  split
  · next hlt =>
    have key : ∀ c : UInt8, c < 0x20 → jsonU16 [ch '\\', ch 'u', ch '0', ch '0',
        hexDigit (c.toNat / 16), hexDigit (c.toNat % 16)] = some c.toNat ∧ utf8Put c.toNat = [c] :=
      forall_byte (by decide +kernel)
    obtain ⟨hu, hput⟩ := key c hlt
    have hc : c.toNat < 0x20 := UInt8.lt_iff_toNat_lt.1 hlt
    have hcp : jsonCodePoint (ch '\\' :: ch 'u' :: ch '0' :: ch '0' :: hexDigit (c.toNat / 16) ::
        hexDigit (c.toNat % 16) :: p) = some (c.toNat, 6) := by
      have hr : ¬ (0xd800 ≤ c.toNat ∧ c.toNat ≤ 0xdbff) := by omega
      simp only [jsonCodePoint, jsonU16_append hu, Option.bind_eq_bind, Option.bind_some, if_neg hr]
    have := jsonStringLoop_unicode hcp
    rw [hput] at this
    exact this
  · next hne _ _ _ _ =>
    simp only [not_or] at hne
    exact jsonStringLoop_plain hne.1 hne.2

theorem jsonStringLoop_jsonEscapeFragment (s r : Bytes) :
    jsonStringLoop (jsonEscapeFragment s ++ ch '"' :: r) = some (s, r) := by
  induction s with
  | nil =>
    rw [jsonEscapeFragment, List.flatMap_nil, List.nil_append, jsonStringLoop.eq_def]
    simp
  | cons c s ih =>
    rw [jsonEscapeFragment] at ih ⊢
    rw [List.flatMap_cons, List.append_assoc, jsonStringLoop_jsonEscapeByte, ih]
    rfl

theorem jsonString_jsonEscape (h : 0 ∉ s) : jsonString (jsonEscape s ++ r) = some (s, r) := by
  rw [jsonEscape, List.cons_append, List.append_assoc, List.singleton_append, jsonString,
    skipSpace_cons_of_not (by decide)]
  simp [jsonStringLoop_jsonEscapeFragment, cstr_of_notMem h]

/-! ## Values -/

theorem Val.skipSpace (h : Val n w) : C.skipSpace (w ++ r) = w ++ r := by
  obtain ⟨c, t, rfl, hc, -⟩ := Val.headed h
  exact skipSpace_cons_of_not hc

/-- A value is read as it stands, wherever nothing extends it. -/
theorem Val.rawValue (h : Val jsonMaxNesting w) (hr : Stops r) :
    jsonRawValue (w ++ r) = some (w, r) := by
  have hread : jsonSkipValue (w ++ r) = some r := Val.read (a := []) .nil h hr
  rw [jsonRawValue, h.skipSpace, hread]
  simp

theorem jsonRawValue_sound (h : jsonRawValue p = some x) :
    Val jsonMaxNesting x.1 ∧ C.skipSpace p = x.1 ++ x.2 := by
  obtain ⟨q, hq, rfl⟩ := Option.map_eq_some_iff.1 h
  obtain ⟨a, w, ha, hw, hp⟩ := read_sound hq
  have hs : C.skipSpace p = w ++ q := by
    have := skipSpace_idem p
    rw [hp, skipSpace_append ha, hw.skipSpace] at this
    rw [hp, ← this]
  have htake : (C.skipSpace p).take ((C.skipSpace p).length - q.length) = w := by
    rw [hs]
    simp
  simp only [htake]
  exact ⟨hw, hs⟩

theorem Val.minifyRawValue (h : Val jsonMaxNesting w) :
    jsonMinifyRawValue (some w) = jsonMinifyLoop false false w := by
  have := h.rawValue (r := []) (fun _ h => nomatch h)
  rw [List.append_nil] at this
  simp [jsonMinifyRawValue, this]

/-- A value that starts with a quote is a string. -/
theorem Val.str (h : Val n (ch '"' :: t)) : ∃ k, StrBody k ∧ ch '"' :: t = ch '"' :: (k ++ [ch '"']) := by
  have atom : Atom (ch '"' :: t) → ∃ k, StrBody k ∧ ch '"' :: t = ch '"' :: (k ++ [ch '"']) := by
    intro h
    generalize hw : ch '"' :: t = w at h
    cases h with
    | str hk => exact ⟨_, hk, rfl⟩
    | word hm =>
      subst hw
      simp only [List.mem_cons, List.not_mem_nil, or_false] at hm
      rcases hm with hm | hm | hm <;> exact absurd (List.cons.inj hm).1 (by decide)
    | num hm =>
      subst hw
      exact absurd rfl (isNumeral_head hm).1
  cases n with
  | zero => exact atom h
  | succ n =>
    rcases h with h | h | h
    · exact atom h
    · generalize hw : ch '"' :: t = w at h
      cases h <;> exact absurd (List.cons.inj hw).1 (by decide)
    · generalize hw : ch '"' :: t = w at h
      cases h <;> exact absurd (List.cons.inj hw).1 (by decide)

/-- A value without white space between its parts. -/
structure Compact (w : Bytes) : Prop where
  val : Val jsonMaxNesting w
  minify : jsonMinifyLoop false false w = w

theorem Compact.minifyRawValue (h : Compact w) : jsonMinifyRawValue (some w) = w := by
  rw [h.val.minifyRawValue, h.minify]

theorem Compact.ne_nil (h : Compact w) : w ≠ [] := by
  obtain ⟨c, t, rfl, -⟩ := Val.headed h.val
  simp

theorem Compact.of_val (h : Val jsonMaxNesting w) : Compact (jsonMinifyRawValue (some w)) := by
  obtain ⟨w', hm, hv⟩ := Val.compact h
  rw [h.minifyRawValue]
  refine ⟨hm.eq ▸ hv, ?_⟩
  exact jsonMinifyLoop_idem w false false fun _ => rfl

theorem Compact.spell (h : Compact w) (hs : Spell w w') : Compact w' :=
  ⟨Val.spell h.val hs, hs.minifyLoop false false (fun _ => rfl) h.minify⟩

theorem Compact.read (h : Compact w) (hq : w.head? ≠ some (ch '"')) (hr : Stops r) :
    jsonArgValue (w ++ r) = some ((w, false), r) := by
  have hq' : (w ++ r).head? ≠ some (ch '"') := by
    rwa [List.head?_append_of_ne_nil _ h.ne_nil]
  rw [jsonArgValue, if_neg hq', h.val.rawValue hr, Option.map_some, h.minifyRawValue]

/-! ## Arguments -/

/-- An argument as the reader returns it. -/
structure JsonArg.Wf (a : JsonArg) : Prop where
  key : 0 ∉ a.key
  str : a.isString = true → 0 ∉ a.value
  raw : a.isString = false → Compact a.value ∧ a.value.head? ≠ some (ch '"')

theorem jsonString_noNul (h : jsonString p = some x) : 0 ∉ x.1 := by
  rw [jsonString] at h
  split at h
  · cases h
  · split at h
    · obtain ⟨y, -, rfl⟩ := Option.map_eq_some_iff.1 h
      exact zero_notMem_cstr _
    · cases h

theorem jsonMinifyLoop_head (hc : isspace c = false) :
    (jsonMinifyLoop false false (c :: s)).head? = some c := by
  rw [jsonMinifyLoop, if_neg Bool.false_ne_true]
  split
  · rfl
  · rw [if_neg (by simp [hc])]; rfl

theorem jsonArgsMember_wf (h : jsonArgsMember p = some x) : x.1.Wf := by
  rw [jsonArgsMember] at h
  split at h
  · cases h
  next key q hq =>
  split at h
  · cases h
  next c r hr =>
  split at h
  · obtain ⟨y, hy, rfl⟩ := Option.map_eq_some_iff.1 h
    rw [jsonArgValue] at hy
    split at hy
    · obtain ⟨z, hz, rfl⟩ := Option.map_eq_some_iff.1 hy
      exact ⟨jsonString_noNul hq, fun _ => jsonString_noNul hz, nofun⟩
    · next hhead =>
      obtain ⟨z, hz, rfl⟩ := Option.map_eq_some_iff.1 hy
      obtain ⟨hv, hs⟩ := jsonRawValue_sound hz
      refine ⟨jsonString_noNul hq, nofun, fun _ => ⟨.of_val hv, ?_⟩⟩
      obtain ⟨d, t, hd, hsp, -⟩ := Val.headed hv
      rw [skipSpace_idem, hd] at hs
      rw [hs] at hhead
      simp only
      rw [hv.minifyRawValue, hd, jsonMinifyLoop_head hsp]
      exact hhead
  · cases h

theorem jsonArgsLoop_wf (h : jsonArgsLoop p = some args) : ∀ a ∈ args, a.Wf := by
  fun_induction jsonArgsLoop p generalizing args with
  | case1 => cases h; exact nofun
  | case2 => cases h
  | case3 p _ arg q hq ih =>
    obtain ⟨as, has, rfl⟩ := Option.map_eq_some_iff.1 h
    exact List.forall_mem_cons.2 ⟨jsonArgsMember_wf hq, ih has⟩

theorem jsonArgsParse_wf (h : jsonArgsParse json = some args) : ∀ a ∈ args, a.Wf := by
  rw [jsonArgsParse] at h
  split at h
  · cases h
  · split at h
    · exact jsonArgsLoop_wf h
    · cases h

/-! ## The text of an object -/

section Members

variable {α : Type} {member : α → Bytes} {add : Bytes → α → Bytes} {xs : List α}

/-- The members after the first one and the closing brace. -/
def membersTail (member : α → Bytes) (xs : List α) : Bytes :=
  xs.flatMap (fun x => lit ", " ++ member x) ++ lit "\x7d"

/-- What the argument reader sees after the opening brace, or after a comma. -/
def membersText (member : α → Bytes) : List α → Bytes
  | [] => lit "\x7d"
  | x :: xs => member x ++ membersTail member xs

theorem membersTail_stops (member : α → Bytes) (xs : List α) : Stops (membersTail member xs) := by
  cases xs <;> exact stops_cons (by decide)

/-- After a value, the reader skips the separator. -/
theorem membersTail_next (hm : ∀ x s, skipSpace (member x ++ s) = member x ++ s) (xs : List α) :
    skipSpace (if (skipSpace (membersTail member xs)).head? = some (ch ',') then
      (skipSpace (membersTail member xs)).drop 1 else skipSpace (membersTail member xs)) =
        membersText member xs := by
  cases xs with
  | nil => rfl
  | cons x xs =>
    have htail : membersTail member (x :: xs) =
        ch ',' :: ch ' ' :: (member x ++ membersTail member xs) := by
      simp only [membersTail, List.flatMap_cons, List.append_assoc]
      rfl
    rw [htail, skipSpace_cons_of_not (by decide)]
    exact (skipSpace_cons_of (by decide)).trans (hm x _)

/-- Members that are added one after another. -/
theorem foldl_members (h0 : ∀ x, add [] x = member x)
    (hadd : ∀ args x, args ≠ [] → add args x = args ++ (lit ", " ++ member x))
    (hne : ∀ x, member x ≠ []) (xs : List α) :
    xs.foldl add [] ++ lit "\x7d" = membersText member xs := by
  have key : ∀ (xs : List α) (args : Bytes), args ≠ [] →
      xs.foldl add args = args ++ xs.flatMap (fun x => lit ", " ++ member x) := by
    intro xs
    induction xs with
    | nil => simp
    | cons x xs ih =>
      intro args hargs
      rw [List.foldl_cons, hadd _ _ hargs, ih _ (by simp [hargs])]
      simp
  cases xs with
  | nil => rfl
  | cons x xs =>
    rw [List.foldl_cons, h0, key _ _ (hne x), List.append_assoc]
    rfl

end Members

end Ds4
