import Ds4.Lib.CString

/-!
# The edit tool

`agent_tool_edit` replaces a part of a file that the old text selects, directly or by its head and its
tail around one `[upto]`. A match is the offset of the text in the file. The calls of the system
succeed and nobody else writes, so a file is replaced when it still is what was read.
-/

namespace Ds4.Agent
open C Scan

structure AgentToolArg where
  name : Option Bytes
  value : Option Bytes

structure AgentToolCall where
  args : List AgentToolArg

def agentToolArgValue (call : AgentToolCall) (name : Bytes) : Option Bytes :=
  (call.args.find? fun a => a.name == some name).map fun a => orEmpty a.value

/-- The regular files by their paths, and why a path cannot be opened. -/
structure Disk where
  file : Bytes → Option Bytes
  openError : Bytes → Bytes

def Disk.write (d : Disk) (path data : Bytes) : Disk :=
  { d with file := fun p => if p = path then some data else d.file p }

def agentFileMaxBytes : Nat := 16 * 1024 * 1024

def agentReadFileBytes (d : Disk) (path : Bytes) : Except Bytes Bytes :=
  match d.file path with
  | none => .error (lit "open " ++ path ++ lit ": " ++ d.openError path)
  | some data =>
    if data.length > agentFileMaxBytes then
      .error (lit "file too large: " ++ path ++ lit " exceeds 16777216 bytes")
    else .ok data

/-- `agent_memmem_simple`. -/
def agentMemmemSimple (hay needle : Bytes) : Option Nat := find needle hay

def agentFindUnique (data needle label : Bytes) : Except Bytes Nat :=
  if needle = [] then .error (label ++ lit " anchor is empty")
  else
    match agentMemmemSimple data needle with
    | none => .error (label ++ lit " anchor not found")
    | some first =>
      if first + 1 ≤ data.length ∧ (agentMemmemSimple (data.drop (first + 1)) needle).isSome then
        .error (label ++ lit " anchor is not unique")
      else .ok first

def agentFindUniqueAfter (data : Bytes) (start : Nat) (needle label : Bytes) : Except Bytes Nat :=
  if needle = [] then .error (label ++ lit " anchor is empty")
  else if start > data.length then .error (label ++ lit " search starts outside file")
  else
    match (agentMemmemSimple (data.drop start) needle).map (start + ·) with
    | none => .error (label ++ lit " anchor not found after old head")
    | some first =>
      if first + 1 ≤ data.length ∧ (agentMemmemSimple (data.drop (first + 1)) needle).isSome then
        .error (label ++ lit " anchor is not unique after old head")
      else .ok first

def agentSpanHasNonspace (s : Bytes) : Bool := s.any fun c => !isspace c

def uptoMarker : Bytes := lit "[upto]"

/-- A part of a file, and whether it was selected by a head and a tail. -/
structure OldSpan where
  start : Nat
  len : Nat
  anchored : Bool

def isLineEnd (c : UInt8) : Bool := c == ch '\n' || c == ch '\r'

/-- The tail of an old text whose marker is at `m`. -/
def uptoTail (old : Bytes) (m : Nat) : Bytes := (old.drop (m + uptoMarker.length)).dropWhile isLineEnd

def agentEditFindOldSpan (data old : Bytes) (allowUpto : Bool) : Except Bytes OldSpan := do
  match if allowUpto then find uptoMarker old else none with
  | none =>
    let start ← agentFindUnique data old (lit "old text")
    return ⟨start, old.length, false⟩
  | some m =>
    if (find uptoMarker (old.drop (m + uptoMarker.length))).isSome then
      .error (lit "old text contains more than one [upto] marker")
    else if !agentSpanHasNonspace (uptoTail old m) then
      .error (lit "old text after [upto] must include a unique tail anchor")
    else
      let head ← agentFindUnique data (old.take m) (lit "old head")
      let tail ← agentFindUniqueAfter data (head + m) (uptoTail old m) (lit "old tail")
      return ⟨head, tail - head + (uptoTail old m).length, true⟩

def agentPreflightEditOld (allowUpto : Bool) (call : AgentToolCall) (d : Disk) : Except Bytes Unit :=
  match agentToolArgValue call (lit "path") with
  | none | some [] => .ok ()
  | some path =>
    match agentToolArgValue call (lit "old") with
    | none | some [] => .error (lit "edit requires non-empty old text")
    | some old => do
      let data ← agentReadFileBytes d path
      let _ ← agentEditFindOldSpan data old allowUpto

def agentReplaceFile (d : Disk) (path data expected : Bytes) : Except Bytes Disk :=
  if d.file path = some expected then .ok (d.write path data)
  else .error (lit "file changed while editing; read it again: " ++ path)

def agentApplyFileSplice (d : Disk) (path data : Bytes) (s : OldSpan) (insert : Bytes) :
    Except Bytes Disk :=
  agentReplaceFile d path (data.take s.start ++ insert ++ data.drop (s.start + s.len)) data

/-- What a tool answers and the files after it. The answer to a replacement is a report on the new file;
here it is how the replaced part was selected. -/
structure ToolResult where
  answer : Except Bytes Bytes
  disk : Disk

def agentToolEdit (allowUpto : Bool) (call : AgentToolCall) (d : Disk) : ToolResult :=
  match agentToolArgValue call (lit "path") with
  | none | some [] => ⟨.error (lit "Tool error: edit requires path\n"), d⟩
  | some path =>
    match agentToolArgValue call (lit "old"), agentToolArgValue call (lit "new") with
    | none, _ | some [], _ => ⟨.error (lit "Tool error: edit requires non-empty old text\n"), d⟩
    | _, none => ⟨.error (lit "Tool error: edit requires new text\n"), d⟩
    | some old, some new =>
      let edited : Except Bytes (OldSpan × Disk) := do
        let data ← agentReadFileBytes d path
        let s ← agentEditFindOldSpan data old allowUpto
        let d' ← agentApplyFileSplice d path data s new
        return (s, d')
      match edited with
      | .error e => ⟨.error (lit "Tool error: " ++ e ++ lit "\n"), d⟩
      | .ok (s, d') =>
        ⟨.ok (if s.anchored then lit "anchored old/new replacement" else lit "old/new replacement"), d'⟩

/-! ## Selected parts -/

def Occurs (needle data : Bytes) (i : Nat) : Prop := i ≤ data.length ∧ needle <+: data.drop i

/-- The only occurrence at or behind `start`. -/
structure OnlyFrom (start : Nat) (needle data : Bytes) (i : Nat) : Prop where
  le : start ≤ i
  occurs : Occurs needle data i
  only : ∀ j, start ≤ j → Occurs needle data j → j = i

/-- The part of `n` bytes at `i` that an old text selects: the old text itself, or all from a head
through a tail that stand on either side of the only marker. -/
inductive Selects (allowUpto : Bool) (data old : Bytes) : Nat → Nat → Prop
  | plain (i : Nat) : allowUpto = false ∨ (∀ m, ¬Occurs uptoMarker old m) → OnlyFrom 0 old data i →
      Selects allowUpto data old i old.length
  | anchored (m i j : Nat) : allowUpto = true → OnlyFrom 0 uptoMarker old m →
      (∃ c ∈ uptoTail old m, isspace c = false) → OnlyFrom 0 (old.take m) data i →
      OnlyFrom (i + m) (uptoTail old m) data j →
      Selects allowUpto data old i (j + (uptoTail old m).length - i)

section Occurrences
variable {needle data : Bytes} {start i k : Nat}

theorem occurs_iff (hne : needle ≠ []) : Occurs needle data i ↔ needle <+: data.drop i := by
  refine ⟨fun h => h.2, fun h => ⟨Nat.le_of_not_lt fun hlt => hne ?_, h⟩⟩
  rwa [List.drop_eq_nil_of_le hlt.le, List.prefix_nil] at h

theorem Occurs.lt (h : Occurs needle data i) (hne : needle ≠ []) : i < data.length := by
  refine Nat.lt_of_not_le fun hle => hne ?_
  have hp := h.2
  rwa [List.drop_eq_nil_of_le hle, List.prefix_nil] at hp

/-- Two searches decide whether there is only one occurrence; the second begins one byte behind the
first match, so matches that overlap it count. -/
theorem find_only_iff (data : Bytes) (start k : Nat) (hne : needle ≠ []) :
    (find needle (data.drop start) = some k ∧ find needle (data.drop (start + k + 1)) = none) ↔
      OnlyFrom start needle data (start + k) := by
  rw [find_eq_some_iff, find_eq_none_iff]
  constructor
  · rintro ⟨⟨hk, hbefore⟩, hafter⟩
    rw [List.drop_drop] at hk
    refine ⟨Nat.le_add_right _ _, (occurs_iff hne).mpr hk, fun j hj hocc => ?_⟩
    obtain ⟨l, rfl⟩ := Nat.exists_eq_add_of_le hj
    rcases Nat.lt_trichotomy l k with hl | rfl | hl
    · refine absurd hocc.2 ?_
      have hl' := hbefore l hl
      rwa [List.drop_drop] at hl'
    · rfl
    · obtain ⟨m, rfl⟩ := Nat.exists_eq_add_of_lt hl
      refine absurd hocc.2 ?_
      have hm := hafter m
      rw [List.drop_drop] at hm
      rwa [show start + (k + m + 1) = start + k + 1 + m by omega]
  · intro h
    refine ⟨⟨?_, fun j hj hp => ?_⟩, fun j hp => ?_⟩
    · rw [List.drop_drop]
      exact h.occurs.2
    · rw [List.drop_drop] at hp
      have heq := h.only (start + j) (Nat.le_add_right _ _) ((occurs_iff hne).mpr hp)
      omega
    · rw [List.drop_drop] at hp
      have heq := h.only (start + k + 1 + j) (by omega) ((occurs_iff hne).mpr hp)
      omega

/-- What both kinds of unique search come to, whatever their texts are. -/
theorem search_only {e e' : Bytes} (hne : needle ≠ []) :
    (match (find needle (data.drop start)).map (start + ·) with
      | none => .error e
      | some first =>
        if first + 1 ≤ data.length ∧ (find needle (data.drop (first + 1))).isSome then .error e'
        else .ok first) = (.ok i : Except Bytes Nat) ↔ OnlyFrom start needle data i := by
  have honly := fun k => find_only_iff data start k hne
  cases hfind : find needle (data.drop start) with
  | none =>
    refine ⟨fun h => (nomatch h), fun h => ?_⟩
    obtain ⟨k, rfl⟩ := Nat.exists_eq_add_of_le h.le
    have hsome := ((honly k).mpr h).1
    rw [hfind] at hsome
    exact nomatch hsome
  | some k =>
    have hk := (find_eq_some_iff.mp hfind).1
    rw [List.drop_drop] at hk
    have hlt : start + k + 1 ≤ data.length := Occurs.lt ((occurs_iff hne).mpr hk) hne
    rw [Option.map_some]
    dsimp only
    cases hsecond : find needle (data.drop (start + k + 1)) with
    | none =>
      rw [if_neg fun h => Bool.false_ne_true h.2, Except.ok.injEq]
      have hfirst := (honly k).mp ⟨hfind, hsecond⟩
      exact ⟨fun h => h ▸ hfirst, fun h => h.only _ hfirst.le hfirst.occurs⟩
    | some second =>
      rw [if_pos ⟨hlt, rfl⟩]
      refine ⟨fun h => (nomatch h), fun h => ?_⟩
      obtain ⟨l, rfl⟩ := Nat.exists_eq_add_of_le h.le
      obtain ⟨hi, hnone⟩ := (honly l).mpr h
      rw [hfind, Option.some.injEq] at hi
      rw [← hi, hsecond] at hnone
      exact nomatch hnone

theorem agentFindUnique_ok {label : Bytes} :
    agentFindUnique data needle label = .ok i ↔ needle ≠ [] ∧ OnlyFrom 0 needle data i := by
  rw [agentFindUnique]
  by_cases hne : needle = []
  · rw [if_pos hne]
    exact ⟨fun h => (nomatch h), fun h => absurd hne h.1⟩
  have hstart : find needle data = (find needle (data.drop 0)).map (0 + ·) := by
    rw [List.drop_zero, show ((0 + ·) : Nat → Nat) = id from funext Nat.zero_add, Option.map_id, id]
  rw [if_neg hne, agentMemmemSimple, hstart, and_iff_right hne]
  exact search_only hne

theorem agentFindUniqueAfter_ok {label : Bytes} :
    agentFindUniqueAfter data start needle label = .ok i ↔
      needle ≠ [] ∧ OnlyFrom start needle data i := by
  rw [agentFindUniqueAfter]
  by_cases hne : needle = []
  · rw [if_pos hne]
    exact ⟨fun h => (nomatch h), fun h => absurd hne h.1⟩
  rw [if_neg hne]
  by_cases hstart : start > data.length
  · rw [if_pos hstart]
    refine ⟨fun h => (nomatch h), fun h => ?_⟩
    have hle := h.2.le.trans h.2.occurs.1
    omega
  · rw [if_neg hstart, agentMemmemSimple, and_iff_right hne]
    exact search_only hne

end Occurrences

section Marker
variable {allowUpto : Bool} {data old tail : Bytes} {m i j n : Nat}

theorem uptoMarker_ne_nil : uptoMarker ≠ [] := by decide

/-- A text with only one occurrence of the marker has it where the search finds it. -/
theorem find_marker_iff :
    (find uptoMarker old = some m ∧ find uptoMarker (old.drop (m + uptoMarker.length)) = none) ↔
      OnlyFrom 0 uptoMarker old m := by
  have hone : (find uptoMarker old = some m ∧ find uptoMarker (old.drop (m + 1)) = none) ↔
      OnlyFrom 0 uptoMarker old m := by
    have honly := find_only_iff old 0 m uptoMarker_ne_nil
    simpa only [Nat.zero_add, List.drop_zero] using honly
  rw [← hone]
  refine and_congr_right fun hm => ⟨fun h => ?_, fun h => ?_⟩
  · rw [find_eq_none_iff] at h ⊢
    intro k hk
    have hsharp : Sharp (ch '[') uptoMarker := by decide
    have hk' : uptoMarker <+: old.drop (m + 1 + k) := by rwa [← List.drop_drop]
    -- markers do not overlap
    rcases hsharp.disjoint hsharp (find_eq_some_iff.mp hm).1 hk' with heq | hle | hle
    · omega
    · obtain ⟨l, hl⟩ := Nat.exists_eq_add_of_le hle
      refine h l ?_
      rw [List.drop_drop, ← hl]
      exact hk'
    · omega
  · have hdrop : old.drop (m + uptoMarker.length) = (old.drop (m + 1)).drop (uptoMarker.length - 1) := by
      rw [List.drop_drop]
      rfl
    rw [hdrop]
    exact find_drop_none h

theorem agentSpanHasNonspace_iff :
    agentSpanHasNonspace tail = true ↔ ∃ c ∈ tail, isspace c = false := by
  simp only [agentSpanHasNonspace, List.any_eq_true, Bool.not_eq_true']

theorem exists_bind_ok {α β : Type} {x : Except Bytes α} {f : α → Except Bytes β} {b : β} :
    (x >>= f) = .ok b ↔ ∃ a, x = .ok a ∧ f a = .ok b := by
  cases x with
  | error e => exact ⟨fun h => (nomatch h), fun ⟨_, h, _⟩ => (nomatch h)⟩
  | ok a => exact ⟨fun h => ⟨a, rfl, h⟩, fun ⟨_, ha, h⟩ => by cases ha; exact h⟩

/-- A tail that occurs behind the only occurrence of a head shows that the head is not empty. -/
theorem OnlyFrom.ne_nil (h : OnlyFrom 0 old data i) (htail : Occurs tail data j) (hne : tail ≠ []) :
    old ≠ [] := by
  rintro rfl
  have hzero := h.only 0 (Nat.le_refl 0) ⟨Nat.zero_le _, List.nil_prefix⟩
  have hlast := h.only data.length (Nat.zero_le _) ⟨Nat.le_refl _, List.nil_prefix⟩
  have hlt := htail.lt hne
  omega

theorem Selects.plain_iff (h : allowUpto = false ∨ ∀ m, ¬Occurs uptoMarker old m) :
    Selects allowUpto data old i n ↔ OnlyFrom 0 old data i ∧ n = old.length := by
  refine ⟨fun hs => ?_, fun ⟨hi, hn⟩ => hn ▸ .plain i h hi⟩
  cases hs with
  | plain _ _ hi => exact ⟨hi, rfl⟩
  | anchored m _ j hallow hm => 
    rcases h with h | h
    · exact absurd (h.symm.trans hallow) Bool.false_ne_true
    · exact absurd hm.occurs (h m)

theorem Selects.anchored_iff (hallow : allowUpto = true) (hm : find uptoMarker old = some m) :
    Selects allowUpto data old i n ↔ OnlyFrom 0 uptoMarker old m ∧
      (∃ c ∈ uptoTail old m, isspace c = false) ∧ OnlyFrom 0 (old.take m) data i ∧
      ∃ j, OnlyFrom (i + m) (uptoTail old m) data j ∧ n = j + (uptoTail old m).length - i := by
  have hocc : Occurs uptoMarker old m :=
    (occurs_iff uptoMarker_ne_nil).mpr (find_eq_some_iff.mp hm).1
  constructor
  · intro hs
    cases hs with
    | plain _ h _ =>
      rcases h with h | h
      · exact absurd (h.symm.trans hallow) Bool.false_ne_true
      · exact absurd hocc (h m)
    | anchored k _ j _ hk hspace hi hj =>
      obtain rfl := hk.only m (Nat.zero_le m) hocc
      exact ⟨hk, hspace, hi, j, hj, rfl⟩
  · rintro ⟨hk, hspace, hi, j, hj, rfl⟩
    exact .anchored m i j hallow hk hspace hi hj

/-- The search for the old text finds a part exactly when the text selects it. -/
theorem agentEditFindOldSpan_ok (hold : old ≠ []) :
    (∃ a, agentEditFindOldSpan data old allowUpto = .ok ⟨i, n, a⟩) ↔ Selects allowUpto data old i n := by
  rw [agentEditFindOldSpan]
  cases hm : if allowUpto then find uptoMarker old else none with
  | none =>
    have hplain : allowUpto = false ∨ ∀ m, ¬Occurs uptoMarker old m := by
      cases allowUpto with
      | false => exact .inl rfl
      | true => exact .inr fun m h => find_eq_none_iff.mp hm m h.2
    rw [Selects.plain_iff hplain]
    dsimp only
    constructor
    · rintro ⟨a, h⟩
      obtain ⟨k, hk, heq⟩ := exists_bind_ok.mp h
      cases heq
      exact ⟨(agentFindUnique_ok.mp hk).2, rfl⟩
    · rintro ⟨hi, rfl⟩
      exact ⟨false, exists_bind_ok.mpr ⟨i, agentFindUnique_ok.mpr ⟨hold, hi⟩, rfl⟩⟩
  | some m =>
    obtain ⟨hallow, hfind⟩ : allowUpto = true ∧ find uptoMarker old = some m := by
      cases allowUpto with
      | false => exact nomatch hm
      | true => exact ⟨rfl, hm⟩
    rw [Selects.anchored_iff hallow hfind, ← find_marker_iff, ← agentSpanHasNonspace_iff]
    dsimp only
    cases hsecond : find uptoMarker (old.drop (m + uptoMarker.length)) with
    | some k => exact ⟨fun ⟨_, h⟩ => (nomatch h), fun h => (nomatch h.1.2)⟩
    | none =>
      rw [if_neg (by exact Bool.false_ne_true), and_iff_right ⟨hfind, rfl⟩]
      cases hspace : agentSpanHasNonspace (uptoTail old m) with
      | false => exact ⟨fun ⟨_, h⟩ => (nomatch h), fun h => (nomatch h.1)⟩
      | true =>
        have htail : uptoTail old m ≠ [] := fun h => by
          rw [h] at hspace
          exact nomatch hspace
        rw [if_neg (by exact Bool.false_ne_true), and_iff_right rfl]
        constructor
        · rintro ⟨a, h⟩
          obtain ⟨k, hk, h⟩ := exists_bind_ok.mp h
          obtain ⟨j, hj, heq⟩ := exists_bind_ok.mp h
          cases heq
          have honly := (agentFindUniqueAfter_ok.mp hj).2
          have hle := honly.le
          exact ⟨(agentFindUnique_ok.mp hk).2, j, honly, by omega⟩
        · rintro ⟨hi, j, hj, rfl⟩
          have hle := hj.le
          have hlen : j + (uptoTail old m).length - i = j - i + (uptoTail old m).length := by omega
          rw [hlen]
          refine ⟨true, exists_bind_ok.mpr ⟨i, agentFindUnique_ok.mpr ⟨?_, hi⟩, exists_bind_ok.mpr
            ⟨j, agentFindUniqueAfter_ok.mpr ⟨htail, hj⟩, rfl⟩⟩⟩
          exact hi.ne_nil hj.occurs htail

end Marker

/-- An edit replaces what the old text selects, and nothing when it selects nothing; the check that is
made before the new text is there accepts the same old texts. -/
theorem agentToolEdit_selects (allowUpto : Bool) (call : AgentToolCall) (d : Disk)
    (path old new data : Bytes) (hpath : agentToolArgValue call (lit "path") = some path)
    (hpath' : path ≠ []) (hold : agentToolArgValue call (lit "old") = some old) (hold' : old ≠ [])
    (hnew : agentToolArgValue call (lit "new") = some new) (hfile : d.file path = some data)
    (hsize : data.length ≤ agentFileMaxBytes) :
    (∀ i n, Selects allowUpto data old i n →
      (agentToolEdit allowUpto call d).disk =
        d.write path (data.take i ++ new ++ data.drop (i + n))) ∧
    ((¬∃ i n, Selects allowUpto data old i n) → (agentToolEdit allowUpto call d).disk = d) ∧
    ((agentToolEdit allowUpto call d).answer.isOk ↔ ∃ i n, Selects allowUpto data old i n) ∧
    ((agentPreflightEditOld allowUpto call d).isOk ↔ ∃ i n, Selects allowUpto data old i n) := by
  obtain ⟨c, path, rfl⟩ := List.exists_cons_of_ne_nil hpath'
  obtain ⟨c', old, rfl⟩ := List.exists_cons_of_ne_nil hold'
  have hread : agentReadFileBytes d (c :: path) = .ok data := by
    rw [agentReadFileBytes, hfile]
    exact if_neg (by omega)
  have hpreflight : agentPreflightEditOld allowUpto call d =
      (agentEditFindOldSpan data (c' :: old) allowUpto).map fun _ => () := by
    rw [agentPreflightEditOld, hpath, hold]
    dsimp only
    rw [hread]
    rfl
  cases hspan : agentEditFindOldSpan data (c' :: old) allowUpto with
  | error e =>
    have hnone : ¬∃ i n, Selects allowUpto data (c' :: old) i n := by
      rintro ⟨i, n, hs⟩
      obtain ⟨a, ha⟩ := (agentEditFindOldSpan_ok hold').mpr hs
      exact nomatch hspan.symm.trans ha
    have hedit : agentToolEdit allowUpto call d = ⟨.error (lit "Tool error: " ++ e ++ lit "\n"), d⟩ := by
      rw [agentToolEdit, hpath, hold, hnew]
      dsimp only
      rw [hread]
      dsimp only [bind, Except.bind]
      rw [hspan]
    rw [hpreflight, hspan, hedit]
    exact ⟨fun i n hs => absurd ⟨i, n, hs⟩ hnone, fun _ => rfl, ⟨fun h => (nomatch h), fun h =>
      absurd h hnone⟩, fun h => (nomatch h), fun h => absurd h hnone⟩
  | ok s =>
    have hs : Selects allowUpto data (c' :: old) s.start s.len :=
      (agentEditFindOldSpan_ok hold').mp ⟨s.anchored, hspan⟩
    have hedit : agentToolEdit allowUpto call d =
        ⟨.ok (if s.anchored then lit "anchored old/new replacement" else lit "old/new replacement"),
          d.write (c :: path) (data.take s.start ++ new ++ data.drop (s.start + s.len))⟩ := by
      rw [agentToolEdit, hpath, hold, hnew]
      dsimp only
      rw [hread]
      dsimp only [bind, Except.bind]
      rw [hspan]
      dsimp only
      rw [agentApplyFileSplice, agentReplaceFile, if_pos hfile]
      rfl
    have hsome : ∃ i n, Selects allowUpto data (c' :: old) i n := ⟨_, _, hs⟩
    rw [hpreflight, hspan, hedit]
    refine ⟨fun i n hin => ?_, fun hnone => absurd hsome hnone, ⟨fun _ => hsome, fun _ => rfl⟩,
      fun _ => hsome, fun _ => rfl⟩
    obtain ⟨a, ha⟩ := (agentEditFindOldSpan_ok hold').mpr hin
    rw [hspan, Except.ok.injEq] at ha
    rw [ha]

/-- A call that edits the file `f`. -/
def editCall (old new : String) : AgentToolCall :=
  ⟨[⟨some (lit "path"), some (lit "f")⟩, ⟨some (lit "old"), some (lit old)⟩,
    ⟨some (lit "new"), some (lit new)⟩]⟩

def oneFile (text : String) : Disk :=
  ⟨fun p => if p = lit "f" then some (lit text) else none, fun _ => lit "No such file or directory"⟩

theorem agentToolEdit_selects_head_tail :
    (∀ i n, Selects true (lit "abcd") (lit "ab[upto]d") i n →
      (agentToolEdit true (editCall "ab[upto]d" "x") (oneFile "abcd")).disk =
        (oneFile "abcd").write (lit "f") ((lit "abcd").take i ++ lit "x" ++ (lit "abcd").drop (i + n))) ∧
    ((¬∃ i n, Selects true (lit "abcd") (lit "ab[upto]d") i n) →
      (agentToolEdit true (editCall "ab[upto]d" "x") (oneFile "abcd")).disk = oneFile "abcd") ∧
    ((agentToolEdit true (editCall "ab[upto]d" "x") (oneFile "abcd")).answer.isOk ↔
      ∃ i n, Selects true (lit "abcd") (lit "ab[upto]d") i n) ∧
    ((agentPreflightEditOld true (editCall "ab[upto]d" "x") (oneFile "abcd")).isOk ↔
      ∃ i n, Selects true (lit "abcd") (lit "ab[upto]d") i n) :=
  agentToolEdit_selects true (editCall "ab[upto]d" "x") (oneFile "abcd") (lit "f") (lit "ab[upto]d")
    (lit "x") (lit "abcd") (by decide) (by decide) (by decide) (by decide) (by decide) rfl (by decide)

/-- Occurrences that overlap make an old text ambiguous. -/
example : (agentToolEdit false (editCall "aa" "x") (oneFile "aaa")).answer.isOk = false := by decide

end Ds4.Agent
