import Ds4.Lib.CString

/-!
# Prompt prefix files

A prompt prefix file has turns that begin with `USER:` or `ASSISTANT:` at the start of a line and go on
up to the next marker at the start of a line. The parser takes one blank after the marker and one line
ending before the next marker away. Allocation succeeds.
-/

namespace Ds4.PromptPrefix
open C Scan

inductive PromptPrefixRole
  | user
  | assistant
  deriving DecidableEq, Repr

structure PromptPrefixTurn where
  role : PromptPrefixRole
  content : Bytes
  deriving DecidableEq, Repr

namespace PromptPrefixRole

def marker : PromptPrefixRole → Bytes
  | .user => lit "USER:"
  | .assistant => lit "ASSISTANT:"

def name : PromptPrefixRole → Bytes
  | .user => lit "USER"
  | .assistant => lit "ASSISTANT"

end PromptPrefixRole

/-- The text is that from the position on. -/
def prefixMarkerAt (s : Bytes) : Option PromptPrefixRole :=
  if PromptPrefixRole.user.marker <+: s then some .user
  else if PromptPrefixRole.assistant.marker <+: s then some .assistant
  else none

/-- The code, the turns and the error, before it is cut to the buffer of the caller. -/
structure PromptPrefixResult where
  rc : Int
  out : List PromptPrefixTurn
  error : Bytes
  deriving DecidableEq, Repr

def ds4PromptPrefixFree (_ : List PromptPrefixTurn) : List PromptPrefixTurn := []

/-- An error that comes with the release of the turns read so far. -/
def reject (out : List PromptPrefixTurn) (error : Bytes) : PromptPrefixResult :=
  ⟨-1, ds4PromptPrefixFree out, error⟩

def lineText (line : Nat) : Bytes := lit (toString line)

def skipBlank : Bytes → Bytes
  | [] => []
  | c :: s => if c = ch ' ' ∨ c = ch '\t' then s else c :: s

/-- A turn up to the next marker at the start of a line, the text from there on, and the lines passed
on the way. -/
structure TurnEnd where
  region : Bytes
  next : Bytes
  lines : Nat

def splitTurn : Bytes → TurnEnd
  | [] => ⟨[], [], 0⟩
  | c :: s =>
    if c = ch '\n' ∧ (prefixMarkerAt s).isSome then ⟨[c], s, 1⟩
    else
      let r := splitTurn s
      ⟨c :: r.region, r.next, r.lines + if c = ch '\n' then 1 else 0⟩

/-- One `\n` or `\r\n` at the end is taken away. -/
def trimLineEnd (s : Bytes) : Bytes :=
  if s.getLast? = some (ch '\n') then
    if s.dropLast.getLast? = some (ch '\r') then s.dropLast.dropLast else s.dropLast
  else s

/-- The role of the turn with an index. -/
def expectedRole (i : Nat) : PromptPrefixRole := if i % 2 = 0 then .user else .assistant

def finish (out : List PromptPrefixTurn) : PromptPrefixResult :=
  match out.getLast? with
  | none => ⟨-1, out, lit "prefix file contains no turns"⟩
  | some t =>
    if t.role = .assistant then ⟨0, out, []⟩
    else reject out (lit "prefix file must end with an ASSISTANT turn")

theorem splitTurn_next_length (s : Bytes) : (splitTurn s).next.length ≤ s.length := by
  induction s with
  | nil => exact Nat.le_refl 0
  | cons c s ih =>
    rw [splitTurn]
    split
    · exact Nat.le_succ _
    · exact Nat.le_succ_of_le ih

theorem length_skipBlank_le (s : Bytes) : (skipBlank s).length ≤ s.length := by
  cases s with
  | nil => exact Nat.le_refl 0
  | cons c s =>
    rw [skipBlank]
    split
    · exact Nat.le_succ _
    · exact Nat.le_refl _

theorem skipBlank_blank (s : Bytes) : skipBlank (ch ' ' :: s) = s := by
  rw [skipBlank, if_pos (.inl rfl)]

theorem PromptPrefixRole.marker_pos (role : PromptPrefixRole) : 0 < role.marker.length := by
  cases role <;> decide

def parseLoop (line : Nat) (out : List PromptPrefixTurn) (s : Bytes) : PromptPrefixResult :=
  if _hs : s = [] then finish out
  else
    match prefixMarkerAt s with
    | none => reject out (lit "line " ++ lineText line ++ lit " must start with USER: or ASSISTANT:")
    | some role =>
      if role = expectedRole out.length then
        let turn := splitTurn (skipBlank (s.drop role.marker.length))
        let content := trimLineEnd turn.region
        if content = [] then
          reject out (lit "line " ++ lineText line ++ lit " has an empty " ++ role.name ++ lit " turn")
        else parseLoop (line + turn.lines) (out ++ [⟨role, content⟩]) turn.next
      else
        reject out (lit "line " ++ lineText line ++ lit ": expected " ++
          (expectedRole out.length).name ++ lit ":")
termination_by s.length
decreasing_by
  have h := splitTurn_next_length (skipBlank (s.drop role.marker.length))
  have h' := length_skipBlank_le (s.drop role.marker.length)
  have hpos := role.marker_pos
  have hs := List.length_pos_of_ne_nil _hs
  rw [List.length_drop] at h'
  omega

def byteOrderMark : Bytes := [0xef, 0xbb, 0xbf]

def ds4PromptPrefixParse (data : Bytes) : PromptPrefixResult :=
  if data = [] then ⟨-1, [], lit "prefix file is empty"⟩
  else if 0 ∈ data then ⟨-1, [], lit "prefix file contains a NUL byte"⟩
  else parseLoop 1 [] (if byteOrderMark <+: data then data.drop 3 else data)

/-! ## What is accepted -/

/-- Turns alternate, beginning with the user, and none is empty. -/
def Alternating (out : List PromptPrefixTurn) : Prop :=
  ∀ i t, out[i]? = some t → t.role = expectedRole i ∧ t.content ≠ []

theorem Alternating.append {out : List PromptPrefixTurn} (h : Alternating out) {role : PromptPrefixRole}
    {content : Bytes} (hrole : role = expectedRole out.length) (hcontent : content ≠ []) :
    Alternating (out ++ [⟨role, content⟩]) := by
  intro i t ht
  rcases Nat.lt_trichotomy i out.length with hi | rfl | hi
  · rw [List.getElem?_append_left hi] at ht
    exact h i t ht
  · rw [List.getElem?_concat_length, Option.some.injEq] at ht
    exact ht ▸ ⟨hrole, hcontent⟩
  · rw [List.getElem?_eq_none (by rw [List.length_append, List.length_singleton]; omega)] at ht
    exact nomatch ht

/-- What a result says about the turns that it returns. -/
def Sound (r : PromptPrefixResult) : Prop :=
  (r.rc = 0 → Alternating r.out ∧ ∃ t, r.out.getLast? = some t ∧ t.role = .assistant) ∧
    (r.rc ≠ 0 → r.out = [])

theorem sound_reject (out : List PromptPrefixTurn) (error : Bytes) : Sound (reject out error) :=
  ⟨fun h => absurd h (show (-1 : Int) ≠ 0 by decide), fun _ => rfl⟩

theorem sound_finish {out : List PromptPrefixTurn} (h : Alternating out) : Sound (finish out) := by
  rw [finish]
  cases hlast : out.getLast? with
  | none =>
    exact ⟨fun h => absurd h (show (-1 : Int) ≠ 0 by decide), fun _ => List.getLast?_eq_none_iff.mp hlast⟩
  | some t =>
    dsimp only
    split
    · next hrole => exact ⟨fun _ => ⟨h, t, hlast, hrole⟩, fun h' => absurd rfl h'⟩
    · exact sound_reject _ _

theorem sound_parseLoop {line : Nat} {out : List PromptPrefixTurn} {s : Bytes} (h : Alternating out) :
    Sound (parseLoop line out s) := by
  induction line, out, s using parseLoop.induct with
  | case1 line out =>
    rw [parseLoop]
    exact sound_finish h
  | case2 line out s hs hm =>
    rw [parseLoop, dif_neg hs, hm]
    exact sound_reject _ _
  | case3 line out s hs hm turn content hempty =>
    rw [parseLoop, dif_neg hs, hm]
    dsimp only
    rw [if_pos rfl, if_pos hempty]
    exact sound_reject _ _
  | case4 line out s hs hm turn content hcontent ih =>
    rw [parseLoop, dif_neg hs, hm]
    dsimp only
    rw [if_pos rfl, if_neg hcontent]
    exact ih (h.append rfl hcontent)
  | case5 line out s hs role hm hrole =>
    rw [parseLoop, dif_neg hs, hm]
    dsimp only
    rw [if_neg hrole]
    exact sound_reject _ _

theorem sound_parse (data : Bytes) : Sound (ds4PromptPrefixParse data) := by
  rw [ds4PromptPrefixParse]
  split
  · exact ⟨fun h => absurd h (by decide), fun _ => rfl⟩
  split
  · exact ⟨fun h => absurd h (by decide), fun _ => rfl⟩
  · exact sound_parseLoop fun i t ht => nomatch ht

/-! ## Files of turns -/

def lineEnd (crlf : Bool) : Bytes := if crlf then lit "\r\n" else lit "\n"

/-- A turn as it is written to a file. -/
def turnText (crlf : Bool) (t : PromptPrefixTurn) : Bytes :=
  t.role.marker ++ ch ' ' :: (t.content ++ lineEnd crlf)

/-- The turns with some contents, from the turn with an index on. -/
def turnsFrom : Nat → List Bytes → List PromptPrefixTurn
  | _, [] => []
  | i, c :: cs => ⟨expectedRole i, c⟩ :: turnsFrom (i + 1) cs

def fileText (bom crlf : Bool) (contents : List Bytes) : Bytes :=
  (if bom then byteOrderMark else []) ++ (turnsFrom 0 contents).flatMap (turnText crlf)

/-- What a content must be to come back. -/
structure PlainContent (c : Bytes) : Prop where
  ne_nil : c ≠ []
  noNul : 0 ∉ c
  noReturn : c.getLast? ≠ some (ch '\r')
  noMarker : ∀ role : PromptPrefixRole, ¬ ch '\n' :: role.marker <:+: c

section Turns
variable {role : PromptPrefixRole} {c r : Bytes} {crlf : Bool}

theorem prefixMarkerAt_isSome_iff {s : Bytes} :
    (prefixMarkerAt s).isSome ↔ ∃ role : PromptPrefixRole, role.marker <+: s := by
  rw [prefixMarkerAt]
  split
  · next h => exact ⟨fun _ => ⟨_, h⟩, fun _ => rfl⟩
  split
  · next h => exact ⟨fun _ => ⟨_, h⟩, fun _ => rfl⟩
  · next hu ha =>
    refine ⟨fun h => (nomatch h), ?_⟩
    rintro ⟨_ | _, h⟩
    · exact absurd h hu
    · exact absurd h ha

theorem prefixMarkerAt_marker (role : PromptPrefixRole) (s : Bytes) :
    prefixMarkerAt (role.marker ++ s) = some role := by
  rw [prefixMarkerAt]
  cases role with
  | user => exact if_pos (List.prefix_append _ _)
  | assistant =>
    have hu : ¬PromptPrefixRole.user.marker <+: PromptPrefixRole.assistant.marker ++ s := fun h =>
      absurd (List.cons_prefix_cons.mp h).1 (by decide)
    rw [if_neg hu, if_pos (List.prefix_append _ _)]

/-- A marker in a text that goes on with a line ending ends in front of it. -/
theorem marker_prefix_left (h : role.marker <+: c ++ (lineEnd crlf ++ r)) : role.marker <+: c := by
  obtain ⟨x, t, hx, hmem⟩ : ∃ x t, lineEnd crlf ++ r = x :: t ∧ x ∉ role.marker := by
    cases crlf with
    | true => exact ⟨ch '\r', ch '\n' :: r, rfl, by cases role <;> decide⟩
    | false => exact ⟨ch '\n', r, rfl, by cases role <;> decide⟩
  rw [hx] at h
  exact prefix_left_of_notMem hmem h

/-- Where no newline of the content has a marker behind it, the turn ends with the line ending. -/
theorem splitTurn_content (crlf : Bool) (hc : ∀ role : PromptPrefixRole, ¬ ch '\n' :: role.marker <:+: c)
    (hr : r = [] ∨ (prefixMarkerAt r).isSome) :
    ∃ lines, splitTurn (c ++ (lineEnd crlf ++ r)) = ⟨c ++ lineEnd crlf, r, lines⟩ := by
  induction c with
  | nil =>
    have hnewline : ∃ lines, splitTurn (ch '\n' :: r) = ⟨[ch '\n'], r, lines⟩ := by
      rw [splitTurn]
      rcases hr with rfl | hr
      · exact ⟨1, rfl⟩
      · exact ⟨1, if_pos ⟨rfl, hr⟩⟩
    obtain ⟨lines, hlines⟩ := hnewline
    cases crlf with
    | false => exact ⟨lines, hlines⟩
    | true =>
      refine ⟨lines, ?_⟩
      change splitTurn (ch '\r' :: ch '\n' :: r) = _
      rw [splitTurn, if_neg fun h => absurd h.1 (by decide), hlines]
      rfl
  | cons b c ih =>
    obtain ⟨lines, hlines⟩ := ih fun role h => hc role (h.trans (List.infix_cons (List.infix_refl c)))
    have hnot : ¬(b = ch '\n' ∧ (prefixMarkerAt (c ++ (lineEnd crlf ++ r))).isSome) := by
      rintro ⟨rfl, hm⟩
      obtain ⟨role, hrole⟩ := prefixMarkerAt_isSome_iff.mp hm
      exact hc role (List.cons_prefix_cons.mpr ⟨rfl, marker_prefix_left hrole⟩).isInfix
    rw [List.cons_append, splitTurn, if_neg hnot, hlines]
    exact ⟨_, rfl⟩

theorem trimLineEnd_content (hc : c.getLast? ≠ some (ch '\r')) : trimLineEnd (c ++ lineEnd crlf) = c := by
  cases crlf with
  | false =>
    rw [show lineEnd false = [ch '\n'] from rfl, trimLineEnd, if_pos List.getLast?_concat,
      List.dropLast_concat, if_neg hc]
  | true =>
    rw [show c ++ lineEnd true = c ++ [ch '\r'] ++ [ch '\n'] by rw [List.append_assoc]; rfl, trimLineEnd,
      if_pos List.getLast?_concat, List.dropLast_concat, if_pos List.getLast?_concat,
      List.dropLast_concat]

/-- The turns of a file are read one after the other. -/
theorem parseLoop_turns (cs : List Bytes) (hcs : ∀ c ∈ cs, PlainContent c) (line : Nat)
    (out : List PromptPrefixTurn) :
    parseLoop line out ((turnsFrom out.length cs).flatMap (turnText crlf)) =
      finish (out ++ turnsFrom out.length cs) := by
  induction cs generalizing line out with
  | nil =>
    rw [turnsFrom, List.flatMap_nil, parseLoop, dif_pos rfl, List.append_nil]
  | cons c cs ih =>
    obtain ⟨hc, hcs⟩ := List.forall_mem_cons.mp hcs
    have hnext : (turnsFrom (out.length + 1) cs).flatMap (turnText crlf) = [] ∨
        (prefixMarkerAt ((turnsFrom (out.length + 1) cs).flatMap (turnText crlf))).isSome := by
      cases cs with
      | nil => exact .inl rfl
      | cons c' cs =>
        refine .inr ?_
        rw [turnsFrom, List.flatMap_cons, turnText, List.append_assoc, prefixMarkerAt_marker]
        rfl
    have hlen : out.length + 1 = (out ++ [(⟨expectedRole out.length, c⟩ : PromptPrefixTurn)]).length := by
      rw [List.length_append, List.length_singleton]
    obtain ⟨lines, hlines⟩ := splitTurn_content crlf hc.noMarker hnext
    have hne : (expectedRole out.length).marker ++ ch ' ' :: (c ++ (lineEnd crlf ++
        (turnsFrom (out.length + 1) cs).flatMap (turnText crlf))) ≠ [] := by
      refine List.append_ne_nil_of_right_ne_nil _ (List.cons_ne_nil _ _)
    rw [turnsFrom, List.flatMap_cons, turnText, List.append_assoc, List.cons_append, List.append_assoc,
      parseLoop, dif_neg hne, prefixMarkerAt_marker]
    dsimp only
    rw [if_pos rfl, List.drop_left' rfl, skipBlank_blank, hlines]
    dsimp only
    rw [trimLineEnd_content hc.noReturn, if_neg hc.ne_nil, hlen, ih hcs, List.append_assoc,
      List.singleton_append]

theorem length_turnsFrom (i : Nat) (cs : List Bytes) : (turnsFrom i cs).length = cs.length := by
  induction cs generalizing i with
  | nil => rfl
  | cons c cs ih => rw [turnsFrom, List.length_cons, ih, List.length_cons]

theorem getLast?_turnsFrom {cs : List Bytes} (hne : cs ≠ []) (i : Nat) :
    ∃ t, (turnsFrom i cs).getLast? = some t ∧ t.role = expectedRole (i + cs.length - 1) := by
  induction cs generalizing i with
  | nil => exact absurd rfl hne
  | cons c cs ih =>
    cases cs with
    | nil => exact ⟨_, rfl, rfl⟩
    | cons c' cs =>
      obtain ⟨t, ht, hrole⟩ := ih (List.cons_ne_nil c' cs) (i + 1)
      refine ⟨t, ?_, ?_⟩
      · rw [turnsFrom, List.getLast?_cons, ht, Option.getD_some]
      · have hindex : i + 1 + (c' :: cs).length - 1 = i + (c :: c' :: cs).length - 1 := by
          rw [List.length_cons, List.length_cons, List.length_cons]
          omega
        rw [hrole, hindex]

theorem zero_notMem_turnText {t : PromptPrefixTurn} (h : 0 ∉ t.content) : 0 ∉ turnText crlf t := by
  have hmarker : 0 ∉ t.role.marker := by cases t.role <;> decide
  have hend : 0 ∉ lineEnd crlf := by cases crlf <;> decide
  rw [turnText, List.mem_append, List.mem_cons, List.mem_append]
  rintro (h' | h' | h' | h')
  · exact hmarker h'
  · exact absurd h' (by decide)
  · exact h h'
  · exact hend h'

theorem zero_notMem_turns {cs : List Bytes} (hcs : ∀ c ∈ cs, PlainContent c) (i : Nat) :
    0 ∉ (turnsFrom i cs).flatMap (turnText crlf) := by
  induction cs generalizing i with
  | nil => exact List.not_mem_nil
  | cons c cs ih =>
    obtain ⟨hc, hcs⟩ := List.forall_mem_cons.mp hcs
    rw [turnsFrom, List.flatMap_cons, List.mem_append, not_or]
    exact ⟨zero_notMem_turnText hc.noNul, ih hcs (i + 1)⟩

end Turns

/-- A file of plain contents comes back as its turns; whatever else is accepted has alternating turns
that are not empty and ends with the assistant, and whatever is rejected leaves no turns. -/
theorem ds4PromptPrefixParse_fileText (bom crlf : Bool) (contents : List Bytes) (hne : contents ≠ [])
    (heven : contents.length % 2 = 0) (hplain : ∀ c ∈ contents, PlainContent c) (data : Bytes) :
    ds4PromptPrefixParse (fileText bom crlf contents) = ⟨0, turnsFrom 0 contents, []⟩ ∧
    ((ds4PromptPrefixParse data).rc = 0 →
      Alternating (ds4PromptPrefixParse data).out ∧
        ∃ t, (ds4PromptPrefixParse data).out.getLast? = some t ∧ t.role = .assistant) ∧
    ((ds4PromptPrefixParse data).rc ≠ 0 → (ds4PromptPrefixParse data).out = []) := by
  refine ⟨?_, sound_parse data⟩
  obtain ⟨text, htext⟩ : ∃ text, text = (turnsFrom 0 contents).flatMap (turnText crlf) := ⟨_, rfl⟩
  obtain ⟨s, hs⟩ : ∃ s, text = ch 'U' :: s := by
    obtain ⟨c, cs, rfl⟩ := List.exists_cons_of_ne_nil hne
    exact ⟨_, htext⟩
  have hparse : parseLoop 1 [] text = ⟨0, turnsFrom 0 contents, []⟩ := by
    obtain ⟨t, ht, hrole⟩ := getLast?_turnsFrom hne 0
    have hlast : t.role = .assistant := by
      have hpos := List.length_pos_of_ne_nil hne
      rw [hrole, expectedRole, if_neg (by omega)]
    rw [htext]
    refine (parseLoop_turns contents hplain 1 []).trans ?_
    rw [List.nil_append, finish, List.length_nil, ht]
    exact if_pos hlast
  have hnul : 0 ∉ text := htext ▸ zero_notMem_turns hplain 0
  rw [ds4PromptPrefixParse, fileText, ← htext]
  cases bom with
  | true =>
    have hmem : 0 ∉ byteOrderMark ++ text := fun h =>
      (List.mem_append.mp h).elim (by decide) hnul
    have hbomne : byteOrderMark ++ text ≠ [] := List.cons_ne_nil _ _
    rw [if_pos rfl, if_neg hbomne, if_neg hmem, if_pos (List.prefix_append _ _)]
    exact hparse
  | false =>
    have hno : ¬byteOrderMark <+: text := fun h => by
      rw [hs] at h
      exact absurd (List.cons_prefix_cons.mp h).1 (by decide)
    have htextne : text ≠ [] := hs ▸ List.cons_ne_nil _ _
    rw [if_neg Bool.false_ne_true, List.nil_append, if_neg htextne, if_neg hnul, if_neg hno]
    exact hparse

theorem ds4PromptPrefixParse_fileText_two :
    ds4PromptPrefixParse (fileText true true [lit "a\n\nUSER", lit " b"]) =
      ⟨0, turnsFrom 0 [lit "a\n\nUSER", lit " b"], []⟩ := by
  have hplain : ∀ c ∈ [lit "a\n\nUSER", lit " b"], PlainContent c := by
    refine List.forall_mem_cons.mpr ⟨⟨by decide, by decide, by decide, ?_⟩,
      List.forall_mem_singleton.mpr ⟨by decide, by decide, by decide, ?_⟩⟩ <;>
    rintro (_ | _) <;> decide
  exact (ds4PromptPrefixParse_fileText true true _ (by decide) rfl hplain []).1

end Ds4.PromptPrefix
