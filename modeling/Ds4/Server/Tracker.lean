import Ds4.Lib.Growing
import Ds4.Server.Dsml

/-!
# The decode tracker

`dsml_decode_tracker_update` reads the text generated so far and remembers where it is inside a tool
call. One round of its loops is one `trackStep`, which either continues or returns. The main result
is that the tracker does not depend on how the text was cut: a state in which an update returned
continues on a longer text exactly as the uncut run does.
-/

namespace Ds4
open C Scan

inductive DsmlDecodeState
  | outside
  | structural
  | stringBody
  | jsonStructural
  | jsonString
  deriving DecidableEq

/-- The modes after the search carry the syntax that was found, `dt->syn`. -/
inductive DsmlTrackMode
  | search
  | structural (syn : DsmlSyntax)
  | stringBody (syn : DsmlSyntax)
  | jsonParam (syn : DsmlSyntax)
  | done (syn : DsmlSyntax)
  deriving DecidableEq

def DsmlTrackMode.syn : DsmlTrackMode → Option DsmlSyntax
  | .search => none
  | .structural syn | .stringBody syn | .jsonParam syn | .done syn => some syn

structure DsmlDecodeTracker where
  mode : DsmlTrackMode
  decode : DsmlDecodeState
  pos : Nat
  jsonInString : Bool
  jsonEscaped : Bool
  modelSyntax : ServerModelSyntax
  deriving DecidableEq

def dsmlDecodeTrackerInit (modelSyntax : ServerModelSyntax) : DsmlDecodeTracker :=
  ⟨.search, .outside, 0, false, false, modelSyntax⟩

def dsmlDecodeStateIsTool (state : DsmlDecodeState) : Bool := state != .outside

def dsmlMaxToolStartLen : Nat :=
  (dsmlSyntaxes.map (·.toolCallsStart.length)).foldl max 0

def rawFullLit (r w : Bytes) : Bool := decide (w <+: r)

/-- The text ends inside the literal. -/
def rawPartialLit (r w : Bytes) : Bool := decide (r.length < w.length ∧ r <+: w)

/-! ## One round -/

/-- The outcome of one round of the loops: `return` or go on. -/
inductive Flow
  | ret (dt : DsmlDecodeTracker)
  | next (dt : DsmlDecodeTracker)
  deriving DecidableEq

def toolSyntaxes : ServerModelSyntax → List DsmlSyntax
  | .glm => [glmToolSyntax]
  | .deepseek => dsmlSyntaxes

/-- The first tool start in the text that is left, and its syntax. -/
def trackFindStart (modelSyntax : ServerModelSyntax) (r : Bytes) : Option (Nat × DsmlSyntax) :=
  findAny (·.toolCallsStart) (toolSyntaxes modelSyntax) r

def trackSearch (dt : DsmlDecodeTracker) (rawLen : Nat) (r : Bytes) : Flow :=
  match trackFindStart dt.modelSyntax r with
  | none => .ret { dt with pos := rawLen - dsmlMaxToolStartLen, decode := .outside }
  | some (i, syn) => .next { dt with
      mode := .structural syn, pos := dt.pos + i + syn.toolCallsStart.length, decode := .structural }

def trackStringBody (dt : DsmlDecodeTracker) (syn : DsmlSyntax) (r : Bytes) : Flow :=
  match r with
  | [] => .ret { dt with decode := .stringBody }
  | _ :: _ =>
    if rawFullLit r syn.paramEnd then .next { dt with
      pos := dt.pos + syn.paramEnd.length, mode := .structural syn, decode := .structural }
    else if rawPartialLit r syn.paramEnd then
      .ret { dt with decode := if 2 ≤ r.length then .structural else .stringBody }
    else .next { dt with pos := dt.pos + 1 }

/-- The JSON string flags after one more byte. -/
def trackJsonByte (dt : DsmlDecodeTracker) (c : UInt8) : DsmlDecodeTracker :=
  if dt.jsonInString then
    if dt.jsonEscaped then { dt with jsonEscaped := false }
    else if c = ch '\\' then { dt with jsonEscaped := true }
    else if c = ch '"' then { dt with jsonInString := false }
    else dt
  else if c = ch '"' then { dt with jsonInString := true }
  else dt

def trackJsonParam (dt : DsmlDecodeTracker) (syn : DsmlSyntax) (r : Bytes) : Flow :=
  match r with
  | [] => .ret { dt with decode := if dt.jsonInString then .jsonString else .jsonStructural }
  | c :: _ =>
    if !dt.jsonInString && rawFullLit r syn.paramEnd then .next { dt with
      pos := dt.pos + syn.paramEnd.length, mode := .structural syn, decode := .structural }
    else if !dt.jsonInString && rawPartialLit r syn.paramEnd then
      .ret { dt with decode := if 2 ≤ r.length then .structural else .jsonStructural }
    else .next { trackJsonByte dt c with pos := dt.pos + 1 }

def trackStructural (dt : DsmlDecodeTracker) (syn : DsmlSyntax) (r : Bytes) : Flow :=
  match r with
  | [] => .ret { dt with decode := .structural }
  | c :: _ =>
    if isspace c then .next { dt with pos := dt.pos + 1 }
    else if rawFullLit r syn.toolCallsEnd then .ret { dt with
      mode := .done syn, pos := dt.pos + syn.toolCallsEnd.length, decode := .outside }
    else if rawFullLit r syn.invokeEnd then .next { dt with pos := dt.pos + syn.invokeEnd.length }
    else if rawFullLit r syn.invokeStart then
      match find [ch '>'] r with
      | none => .ret { dt with decode := .structural }
      | some i => .next { dt with pos := dt.pos + i + 1 }
    else if rawFullLit r syn.paramStart then
      match find [ch '>'] r with
      | none => .ret { dt with decode := .structural }
      | some i =>
        if dt.modelSyntax == .glm || dsmlAttrIsStringTrue (r.take (i + 1)) then .next { dt with
          pos := dt.pos + i + 1, mode := .stringBody syn, decode := .stringBody }
        else .next { dt with
          pos := dt.pos + i + 1, mode := .jsonParam syn, jsonInString := false,
          jsonEscaped := false, decode := .jsonStructural }
    else if syn.structuralLits.any (rawPartialLit r) then .ret { dt with decode := .structural }
    -- GLM puts function and argument names between tags
    else if dt.modelSyntax = .glm then .next { dt with pos := dt.pos + 1 }
    else .ret { dt with decode := .structural }

def trackStep (raw : Bytes) (dt : DsmlDecodeTracker) : Flow :=
  let r := raw.drop dt.pos
  match dt.mode with
  | .done _ => .ret { dt with decode := .outside }
  | .search => trackSearch dt raw.length r
  | .stringBody syn => trackStringBody dt syn r
  | .jsonParam syn => trackJsonParam dt syn r
  | .structural syn => trackStructural dt syn r

/-! ## Progress -/

/-- The text from a position that is inside it. -/
theorem lt_length_of_drop {raw : Bytes} (h : raw.drop p = c :: r) : p < raw.length := by
  by_contra hp
  rw [List.drop_eq_nil_of_le (by omega)] at h
  cases h

theorem add_le_of_prefix_drop {raw w : Bytes} (hw : w ≠ []) (h : w <+: raw.drop p) :
    p < p + w.length ∧ p + w.length ≤ raw.length := by
  have h1 := h.length_le
  have h2 := List.length_pos_of_ne_nil hw
  rw [List.length_drop] at h1
  omega

theorem add_le_of_find_drop {raw : Bytes} (h : find [c] (raw.drop p) = some i) :
    p < p + i + 1 ∧ p + i + 1 ≤ raw.length := by
  have h1 := find_le h
  simp only [List.length_drop, List.length_cons, List.length_nil] at h1
  omega

theorem DsmlSyntax.structural_ne_nil (syn : DsmlSyntax) (h : w ∈ syn.structuralLits) : w ≠ [] :=
  (syn.sharp w (List.mem_cons_of_mem _ (by simpa [structuralLits] using h))).ne_nil

theorem findStart_pos {r : Bytes} (h : trackFindStart stx r = some (i, syn)) :
    find syn.toolCallsStart r = some i := (findAny_some h).2.1

/-- A round that goes on has consumed text. -/
theorem trackStep_next {raw : Bytes} (h : trackStep raw dt = .next dt') :
    dt.pos < dt'.pos ∧ dt'.pos ≤ raw.length := by
  unfold trackStep at h
  dsimp only at h
  split at h
  · cases h
  · rw [trackSearch] at h
    split at h
    · cases h
    · next i syn hf =>
      cases h
      have hle := find_le (findStart_pos hf)
      have hpos := List.length_pos_of_ne_nil (syn.sharp syn.toolCallsStart (by simp)).ne_nil
      rw [List.length_drop] at hle
      dsimp only
      omega
  · next syn _ =>
    rw [trackStringBody.eq_def] at h
    split at h
    · cases h
    · next c r hr =>
      have := lt_length_of_drop hr
      split at h
      · next hf =>
        cases h
        exact add_le_of_prefix_drop (syn.structural_ne_nil (by simp [DsmlSyntax.structuralLits]))
          (of_decide_eq_true hf)
      · split at h <;> cases h
        dsimp only
        omega
  · next syn _ =>
    rw [trackJsonParam.eq_def] at h
    split at h
    · cases h
    · next c r hr =>
      have := lt_length_of_drop hr
      split at h
      · next hf =>
        cases h
        rw [Bool.and_eq_true] at hf
        exact add_le_of_prefix_drop (syn.structural_ne_nil (by simp [DsmlSyntax.structuralLits]))
          (of_decide_eq_true hf.2)
      · split at h <;> cases h
        dsimp only
        omega
  · next syn _ =>
    rw [trackStructural.eq_def] at h
    split at h
    · cases h
    · next c r hr =>
      have := lt_length_of_drop hr
      split at h
      · cases h
        dsimp only
        omega
      split at h
      · cases h
      split at h
      · next hf =>
        cases h
        exact add_le_of_prefix_drop (syn.structural_ne_nil (by simp [DsmlSyntax.structuralLits]))
          (of_decide_eq_true hf)
      split at h
      · split at h
        · cases h
        · next hf => cases h; exact add_le_of_find_drop hf
      split at h
      · split at h
        · cases h
        · next hf => split at h <;> cases h <;> exact add_le_of_find_drop hf
      split at h
      · cases h
      split at h <;> cases h
      dsimp only
      omega

def dsmlDecodeTrackerUpdate (raw : Bytes) (dt : DsmlDecodeTracker) : DsmlDecodeTracker :=
  match _h : trackStep raw dt with
  | .ret dt' => dt'
  | .next dt' => dsmlDecodeTrackerUpdate raw dt'
termination_by raw.length - dt.pos
decreasing_by have := trackStep_next ‹_›; omega

/-- The update takes `k` rounds of its loops, the last of which returns. -/
inductive Rounds (raw : Bytes) : DsmlDecodeTracker → Nat → DsmlDecodeTracker → Prop
  | ret : trackStep raw dt = .ret dt' → Rounds raw dt 1 dt'
  | next : trackStep raw dt = .next dt' → Rounds raw dt' k dt'' → Rounds raw dt (k + 1) dt''

theorem update_ret {raw : Bytes} (h : trackStep raw dt = .ret dt') :
    dsmlDecodeTrackerUpdate raw dt = dt' := by
  rw [dsmlDecodeTrackerUpdate]
  split
  · next h' => rw [h] at h'; cases h'; rfl
  · next h' => rw [h] at h'; cases h'

theorem update_next {raw : Bytes} (h : trackStep raw dt = .next dt') :
    dsmlDecodeTrackerUpdate raw dt = dsmlDecodeTrackerUpdate raw dt' := by
  rw [dsmlDecodeTrackerUpdate]
  split
  · next h' => rw [h] at h'; cases h'
  · next h' => rw [h] at h'; cases h'; rfl

/-- An update ends after at most one round for each byte that is left. -/
theorem update_rounds (raw : Bytes) (dt : DsmlDecodeTracker) :
    ∃ k ≤ raw.length - dt.pos + 1, Rounds raw dt k (dsmlDecodeTrackerUpdate raw dt) := by
  fun_induction dsmlDecodeTrackerUpdate raw dt with
  | case1 dt dt' h => exact ⟨1, by omega, .ret h⟩
  | case2 dt dt' h ih =>
    obtain ⟨k, hk, hr⟩ := ih
    have := trackStep_next h
    exact ⟨k + 1, by omega, .next h hr⟩

/-! ## Chunking -/

theorem rawFull_mono {s t w : Bytes} (hst : s <+: t) (h : rawFullLit s w = true) :
    rawFullLit t w = true :=
  decide_eq_true ((of_decide_eq_true h : w <+: s).trans hst)

/-- A literal that did not fit and does not begin here is not there in a longer text either. -/
theorem rawFull_of_not {s t w : Bytes} (hst : s <+: t) (hf : rawFullLit s w = false)
    (hp : rawPartialLit s w = false) : rawFullLit t w = false := by
  simp only [rawFullLit, rawPartialLit, decide_eq_false_iff_not, not_and] at *
  intro hw
  rcases Nat.lt_or_ge s.length w.length with hl | hl
  · exact hp hl (List.prefix_of_prefix_length_le hst hw hl.le)
  · exact hf (List.prefix_of_prefix_length_le hw hst hl)

theorem rawPartial_of_not {s t w : Bytes} (hst : s <+: t) (hp : rawPartialLit s w = false) :
    rawPartialLit t w = false := by
  simp only [rawPartialLit, decide_eq_false_iff_not, not_and] at *
  intro hl hw
  exact hp (hst.length_le.trans_lt hl) (hst.trans hw)

/-- Where one literal of the alphabet begins no other does. -/
theorem DsmlSyntax.rawFull_eq (syn : DsmlSyntax) {s t v w : Bytes} (hst : s <+: t)
    (hv : v ∈ syn.structuralLits) (hw : w ∈ syn.structuralLits) (hs : rawFullLit s v = true)
    (hf : rawFullLit s w = false) : rawFullLit t w = false := by
  have hv' : v <+: s := of_decide_eq_true hs
  rw [rawFullLit, decide_eq_false_iff_not]
  intro hwt
  rcases List.prefix_or_prefix_of_prefix (hv'.trans hst) hwt with h | h
  · rw [rawFullLit, ← syn.free v hv w hw h, decide_eq_false_iff_not] at hf
    exact hf hv'
  · rw [rawFullLit, syn.free w hw v hv h, decide_eq_false_iff_not] at hf
    exact hf hv'

theorem find_byte_mono {s t : Bytes} (hst : s <+: t) (h : find [c] s = some i) :
    find [c] t = some i ∧ t.take (i + 1) = s.take (i + 1) := by
  have hle := find_le h
  obtain ⟨u, rfl⟩ := hst
  refine ⟨find_append_of_some h, ?_⟩
  exact List.take_append_of_le_length hle

theorem toolSyntaxes_free : ∀ x ∈ toolSyntaxes stx, ∀ y ∈ toolSyntaxes stx,
    x.toolCallsStart <+: y.toolCallsStart → x = y := by
  cases stx <;> decide

theorem length_toolCallsStart_le : ∀ x ∈ toolSyntaxes stx,
    x.toolCallsStart.length ≤ dsmlMaxToolStartLen := by
  cases stx <;> decide

theorem trackFindStart_mono {s t : Bytes} (hst : s <+: t)
    (h : trackFindStart stx s = some r) : trackFindStart stx t = some r :=
  findAny_mono (fun x _ => x.sharp _ (by simp)) toolSyntaxes_free hst h

theorem exists_cons_of_prefix {t : Bytes} (h : c :: r <+: t) : ∃ r', t = c :: r' := by
  obtain ⟨u, rfl⟩ := h
  exact ⟨r ++ u, rfl⟩

/-- A round that goes on does the same on a longer text. -/
theorem trackStringBody_mono {s t : Bytes} (hst : s <+: t)
    (h : trackStringBody dt syn s = .next dt') : trackStringBody dt syn t = .next dt' := by
  cases s with
  | nil => cases h
  | cons c r =>
    obtain ⟨r', rfl⟩ := exists_cons_of_prefix hst
    simp only [trackStringBody] at h ⊢
    cases hf : rawFullLit (c :: r) syn.paramEnd with
    | true => rw [hf] at h; rwa [rawFull_mono hst hf]
    | false =>
      rw [hf] at h
      cases hp : rawPartialLit (c :: r) syn.paramEnd with
      | true => rw [hp] at h; cases h
      | false =>
        rw [hp] at h
        rwa [rawFull_of_not hst hf hp, rawPartial_of_not hst hp]

theorem trackJsonParam_mono {s t : Bytes} (hst : s <+: t)
    (h : trackJsonParam dt syn s = .next dt') : trackJsonParam dt syn t = .next dt' := by
  cases s with
  | nil => cases h
  | cons c r =>
    obtain ⟨r', rfl⟩ := exists_cons_of_prefix hst
    simp only [trackJsonParam] at h ⊢
    by_cases hj : dt.jsonInString = true
    · simpa [hj] using h
    · simp only [hj, Bool.not_false, Bool.true_and] at h ⊢
      cases hf : rawFullLit (c :: r) syn.paramEnd with
      | true => rw [hf] at h; rwa [rawFull_mono hst hf]
      | false =>
        rw [hf] at h
        cases hp : rawPartialLit (c :: r) syn.paramEnd with
        | true => rw [hp] at h; cases h
        | false =>
          rw [hp] at h
          rwa [rawFull_of_not hst hf hp, rawPartial_of_not hst hp]

theorem trackStructural_mono {s t : Bytes} (hst : s <+: t)
    (h : trackStructural dt syn s = .next dt') : trackStructural dt syn t = .next dt' := by
  have hlit : ∀ {v w}, v ∈ syn.structuralLits → w ∈ syn.structuralLits → rawFullLit s v = true →
      rawFullLit s w = false → rawFullLit t w = false := syn.rawFull_eq hst
  simp only [DsmlSyntax.structuralLits, List.mem_cons, List.not_mem_nil, or_false] at hlit
  cases s with
  | nil => cases h
  | cons c r =>
    obtain ⟨r', rfl⟩ := exists_cons_of_prefix hst
    simp only [trackStructural] at h ⊢
    by_cases hc : isspace c = true
    · rwa [if_pos hc] at h ⊢
    rw [if_neg hc] at h ⊢
    cases h1 : rawFullLit (c :: r) syn.toolCallsEnd with
    | true => rw [h1] at h; cases h
    | false =>
    rw [h1] at h
    cases h2 : rawFullLit (c :: r) syn.invokeEnd with
    | true =>
      rw [h2] at h
      rwa [hlit (by simp) (by simp) h2 h1, rawFull_mono hst h2]
    | false =>
    rw [h2] at h
    cases h3 : rawFullLit (c :: r) syn.invokeStart with
    | true =>
      rw [h3] at h
      rw [hlit (by simp) (by simp) h3 h1, hlit (by simp) (by simp) h3 h2, rawFull_mono hst h3]
      simp only [Bool.false_eq_true, ↓reduceIte] at h ⊢
      cases hf : find [ch '>'] (c :: r) with
      | none => rw [hf] at h; cases h
      | some i =>
        rw [hf] at h
        rw [(find_byte_mono hst hf).1]
        exact h
    | false =>
    rw [h3] at h
    cases h4 : rawFullLit (c :: r) syn.paramStart with
    | true =>
      rw [h4] at h
      rw [hlit (by simp) (by simp) h4 h1, hlit (by simp) (by simp) h4 h2,
        hlit (by simp) (by simp) h4 h3, rawFull_mono hst h4]
      simp only [Bool.false_eq_true, ↓reduceIte] at h ⊢
      cases hf : find [ch '>'] (c :: r) with
      | none => rw [hf] at h; cases h
      | some i =>
        rw [hf] at h
        obtain ⟨hf1, hf2⟩ := find_byte_mono hst hf
        rw [hf1]
        dsimp only at h ⊢
        rwa [hf2]
    | false =>
    rw [h4] at h
    cases hp : syn.structuralLits.any (rawPartialLit (c :: r)) with
    | true => rw [hp] at h; cases h
    | false =>
      -- no literal begins here, whatever follows
      rw [hp] at h
      have hp' : ∀ w ∈ syn.structuralLits, rawPartialLit (c :: r) w = false := by
        simpa using hp
      have hany : syn.structuralLits.any (rawPartialLit (c :: r')) = false := by
        rw [List.any_eq_false]
        intro w hw
        rw [rawPartial_of_not hst (hp' w hw)]
        exact Bool.false_ne_true
      simp only [DsmlSyntax.structuralLits, List.mem_cons, List.not_mem_nil, or_false] at hp'
      rw [rawFull_of_not hst h1 (hp' _ (by simp)), rawFull_of_not hst h2 (hp' _ (by simp)),
        rawFull_of_not hst h3 (hp' _ (by simp)), rawFull_of_not hst h4 (hp' _ (by simp)), hany]
      exact h

theorem trackStep_mono {s t : Bytes} (hst : s <+: t) (h : trackStep s dt = .next dt') :
    trackStep t dt = .next dt' := by
  have hd : s.drop dt.pos <+: t.drop dt.pos := by
    obtain ⟨u, rfl⟩ := hst
    rw [List.drop_append]
    exact List.prefix_append _ _
  unfold trackStep at h ⊢
  dsimp only at h ⊢
  split at h
  · cases h
  · rw [trackSearch] at h ⊢
    split at h
    · cases h
    · next hf => rw [trackFindStart_mono hd hf]; exact h
  · exact trackStringBody_mono hd h
  · exact trackJsonParam_mono hd h
  · exact trackStructural_mono hd h

/-- The decode state of the last update is not read. -/
theorem trackStep_decode (raw : Bytes) (dt : DsmlDecodeTracker) (d : DsmlDecodeState) :
    (∃ x, trackStep raw dt = .ret x ∧ trackStep raw { dt with decode := d } = .ret x) ∨
    ∃ x e, trackStep raw dt = .next x ∧
      trackStep raw { dt with decode := d } = .next { x with decode := e } := by
  obtain ⟨mode, decode, pos, inStr, esc, stx⟩ := dt
  unfold trackStep
  dsimp only
  cases mode with
  | done syn => exact .inl ⟨_, rfl, rfl⟩
  | search =>
    simp only [trackSearch]
    split
    · exact .inl ⟨_, rfl, rfl⟩
    · exact .inr ⟨_, _, rfl, rfl⟩
  | stringBody syn =>
    simp only [trackStringBody.eq_def]
    repeat' split
    all_goals first | exact .inl ⟨_, rfl, rfl⟩ | exact .inr ⟨_, _, rfl, rfl⟩
  | jsonParam syn =>
    simp only [trackJsonParam.eq_def, trackJsonByte]
    repeat' split
    all_goals first | exact .inl ⟨_, rfl, rfl⟩ | exact .inr ⟨_, _, rfl, rfl⟩
  | structural syn =>
    simp only [trackStructural.eq_def]
    repeat' split
    all_goals first | exact .inl ⟨_, rfl, rfl⟩ | exact .inr ⟨_, _, rfl, rfl⟩

theorem update_decode (raw : Bytes) (dt : DsmlDecodeTracker) (d : DsmlDecodeState) :
    dsmlDecodeTrackerUpdate raw { dt with decode := d } = dsmlDecodeTrackerUpdate raw dt := by
  fun_induction dsmlDecodeTrackerUpdate raw dt generalizing d with
  | case1 dt dt' h =>
    rcases trackStep_decode raw dt d with ⟨x, h1, h2⟩ | ⟨x, e, h1, -⟩
    · rw [h] at h1; cases h1
      exact update_ret h2
    · rw [h] at h1; cases h1
  | case2 dt dt' h ih =>
    rcases trackStep_decode raw dt d with ⟨x, h1, -⟩ | ⟨x, e, h1, h2⟩
    · rw [h] at h1; cases h1
    · rw [h] at h1; cases h1
      rw [update_next h2, ih]

/-- Outside the search a round that returns either waits where it is or has reached the end of the
block, whatever follows. -/
theorem trackStep_ret {s t : Bytes} (hst : s <+: t) (hm : dt.mode ≠ .search)
    (h : trackStep s dt = .ret dt') :
    (∃ d, dt' = { dt with decode := d }) ∨
    ∃ syn, dt'.mode = .done syn ∧ dt'.decode = .outside ∧ trackStep t dt = .ret dt' := by
  have hd : s.drop dt.pos <+: t.drop dt.pos := by
    obtain ⟨u, rfl⟩ := hst
    rw [List.drop_append]
    exact List.prefix_append _ _
  unfold trackStep at h ⊢
  dsimp only at h ⊢
  split at h
  · cases h; exact .inl ⟨_, rfl⟩
  · next hs => exact absurd hs hm
  · next syn _ =>
    left
    rw [trackStringBody.eq_def] at h
    split at h
    · cases h; exact ⟨_, rfl⟩
    split at h
    · cases h
    split at h
    · cases h; exact ⟨_, rfl⟩
    · cases h
  · next syn _ =>
    left
    rw [trackJsonParam.eq_def] at h
    split at h
    · cases h; exact ⟨_, rfl⟩
    split at h
    · cases h
    split at h
    · cases h; exact ⟨_, rfl⟩
    · cases h
  · next syn _ =>
    generalize s.drop dt.pos = s' at h hd
    generalize t.drop dt.pos = t' at hd ⊢
    cases s' with
    | nil => cases h; exact .inl ⟨_, rfl⟩
    | cons c r =>
      obtain ⟨r', rfl⟩ := exists_cons_of_prefix hd
      simp only [trackStructural] at h ⊢
      by_cases hc : isspace c = true
      · rw [if_pos hc] at h; cases h
      rw [if_neg hc] at h ⊢
      by_cases h1 : rawFullLit (c :: r) syn.toolCallsEnd = true
      · rw [if_pos h1] at h
        cases h
        exact .inr ⟨syn, rfl, rfl, by rw [if_pos (rawFull_mono hd h1)]⟩
      left
      rw [if_neg h1] at h
      split at h
      · cases h
      split at h
      · split at h <;> cases h
        exact ⟨_, rfl⟩
      split at h
      · split at h
        · cases h; exact ⟨_, rfl⟩
        · split at h <;> cases h
      split at h
      · cases h; exact ⟨_, rfl⟩
      split at h <;> cases h
      exact ⟨_, rfl⟩

theorem trackJsonByte_mode : (trackJsonByte dt c).mode = dt.mode := by
  rw [trackJsonByte]
  repeat' split
  all_goals rfl

theorem trackStep_next_mode {raw : Bytes} (h : trackStep raw dt = .next dt') :
    dt'.mode ≠ .search := by
  unfold trackStep at h
  dsimp only at h
  split at h
  · cases h
  · rw [trackSearch] at h
    split at h <;> cases h
    simp
  · next hm =>
    rw [trackStringBody.eq_def] at h
    repeat' split at h
    all_goals cases h
    all_goals simp [hm]
  · next hm =>
    rw [trackJsonParam.eq_def] at h
    repeat' split at h
    all_goals cases h
    all_goals simp [hm, trackJsonByte_mode]
  · next hm =>
    rw [trackStructural.eq_def] at h
    repeat' split at h
    all_goals cases h
    all_goals simp [hm]

/-- A tracker that is inside a block continues as if the text had not been cut. -/
theorem update_resume {s t : Bytes} (hst : s <+: t) (hm : dt.mode ≠ .search) :
    dsmlDecodeTrackerUpdate t (dsmlDecodeTrackerUpdate s dt) = dsmlDecodeTrackerUpdate t dt := by
  fun_induction dsmlDecodeTrackerUpdate s dt with
  | case1 dt dt' h =>
    rcases trackStep_ret hst hm h with ⟨d, rfl⟩ | ⟨syn, h1, h2, h3⟩
    · exact update_decode t dt d
    · rw [update_ret h3]
      refine update_ret ?_
      obtain ⟨mode, decode, pos, inStr, esc, stx⟩ := dt'
      cases h1; cases h2
      rfl
  | case2 dt dt' h ih => rw [ih (trackStep_next_mode h), update_next (trackStep_mono hst h)]

theorem trackFindStart_drop_none {t : Bytes} (h : trackFindStart stx t = none) :
    trackFindStart stx (t.drop j) = none := by
  rw [trackFindStart, findAny_eq_none_iff] at h ⊢
  exact fun x hx => find_drop_none (h x hx)

/-- A marker that was not there before starts in the part of the text that was held back. -/
theorem hold_le_of_trackFindStart {s t : Bytes} (hst : s <+: t) (hs : trackFindStart stx s = none)
    (ht : trackFindStart stx t = some (i, syn)) : s.length - dsmlMaxToolStartLen ≤ i := by
  obtain ⟨hx, hi, -⟩ := findAny_some ht
  have hlong : s.length < i + syn.toolCallsStart.length := by
    by_contra hle
    have := find_prefix_of_le hst hi (by omega)
    rw [findAny_eq_none_iff.1 hs syn hx] at this
    cases this
  have := length_toolCallsStart_le syn hx
  omega

/-- After an unsuccessful search the next one may start at the hold-back position. -/
theorem trackStep_hold {s t : Bytes} (hst : s <+: t) (hs : trackFindStart stx s = none) :
    trackStep t { dsmlDecodeTrackerInit stx with pos := s.length - dsmlMaxToolStartLen } =
      trackStep t (dsmlDecodeTrackerInit stx) := by
  simp only [trackStep, dsmlDecodeTrackerInit, trackSearch, List.drop_zero]
  cases ht : trackFindStart stx t with
  | none => rw [trackFindStart_drop_none ht]
  | some r =>
    obtain ⟨i, syn⟩ := r
    have hle := hold_le_of_trackFindStart hst hs ht
    rw [trackFindStart, findAny_drop ht hle toolSyntaxes_free]
    simp only [Flow.next.injEq, DsmlDecodeTracker.mk.injEq, true_and, and_true]
    omega

theorem update_init_resume {s t : Bytes} (hst : s <+: t) :
    dsmlDecodeTrackerUpdate t (dsmlDecodeTrackerUpdate s (dsmlDecodeTrackerInit stx)) =
      dsmlDecodeTrackerUpdate t (dsmlDecodeTrackerInit stx) := by
  cases hf : trackFindStart stx s with
  | some r =>
    obtain ⟨dt, h⟩ : ∃ dt, trackStep s (dsmlDecodeTrackerInit stx) = .next dt := by
      simp only [trackStep, dsmlDecodeTrackerInit, trackSearch, List.drop_zero, hf]
      exact ⟨_, rfl⟩
    rw [update_next h, update_next (trackStep_mono hst h)]
    exact update_resume hst (trackStep_next_mode h)
  | none =>
    have h : trackStep s (dsmlDecodeTrackerInit stx) = .ret { dsmlDecodeTrackerInit stx with
        pos := s.length - dsmlMaxToolStartLen } := by
      simp only [trackStep, dsmlDecodeTrackerInit, trackSearch, List.drop_zero, hf]
    have hstep := trackStep_hold hst hf
    rw [update_ret h]
    cases hc : trackStep t (dsmlDecodeTrackerInit stx) with
    | ret dt => rw [update_ret hc, update_ret (hstep.trans hc)]
    | next dt => rw [update_next hc, update_next (hstep.trans hc)]

/-- The tracker is independent of chunking, and every update ends. -/
theorem dsmlDecodeTrackerUpdate_growing (stx : ServerModelSyntax) (t : Bytes) (ps : List Bytes)
    (h : Growing (ps ++ [t])) :
    (ps ++ [t]).foldl (fun dt s => dsmlDecodeTrackerUpdate s dt) (dsmlDecodeTrackerInit stx) =
        dsmlDecodeTrackerUpdate t (dsmlDecodeTrackerInit stx) ∧
      ∀ raw dt, ∃ k ≤ raw.length + 1, Rounds raw dt k (dsmlDecodeTrackerUpdate raw dt) := by
  constructor
  · -- a state between two updates is as good as the initial one for every longer text
    let I (s : Bytes) (dt : DsmlDecodeTracker) : Prop := ∀ u, s <+: u →
      dsmlDecodeTrackerUpdate u dt = dsmlDecodeTrackerUpdate u (dsmlDecodeTrackerInit stx)
    obtain ⟨s, dt, hst, hi, he⟩ := h.foldl (f := fun dt s => dsmlDecodeTrackerUpdate s dt) (I := I)
      (fun s t dt hst hi u htu => by rw [hi t hst]; exact update_init_resume htu) (fun u _ => rfl)
    rw [he]
    exact hi t hst
  · intro raw dt
    obtain ⟨k, hk, hr⟩ := update_rounds raw dt
    exact ⟨k, by omega, hr⟩

/-- A start marker that arrives in two pieces. -/
theorem dsmlDecodeTrackerUpdate_growing_marker :
    [lit "<tool", lit "<tool_calls>"].foldl (fun dt s => dsmlDecodeTrackerUpdate s dt)
        (dsmlDecodeTrackerInit .deepseek) =
      dsmlDecodeTrackerUpdate (lit "<tool_calls>") (dsmlDecodeTrackerInit .deepseek) :=
  (dsmlDecodeTrackerUpdate_growing .deepseek (lit "<tool_calls>") [lit "<tool"] (by decide)).1

end Ds4
