import Ds4.Server.AnthropicBrackets

/-!
# The tool blocks of an Anthropic stream

The tool stream opens a block with an invoke and stops it at the closing tag. `invokesClosed` reads
the text of a tool block and says that every invoke that opens is closed; over such a text the
stream, however it is cut, ends with no block open.
-/

namespace Ds4
open C Scan

/-! ## Invokes that are closed -/

/-- The name of an invoke is read before anything is sent. -/
def invokeOpens (r : Bytes) : Option Nat :=
  (dsmlTag r).bind fun x => (dsmlAttr x.1 (lit "name")).map fun _ => x.2

/-- A parameter tag with both attributes. -/
def paramOpens (r : Bytes) : Option Nat :=
  (dsmlTag r).bind fun x =>
    (dsmlAttr x.1 (lit "name")).bind fun _ => (dsmlAttr x.1 (lit "string")).map fun _ => x.2

theorem invokeOpens_length (h : invokeOpens r = some n) : 0 < n ∧ n ≤ r.length := by
  obtain ⟨⟨tag, m⟩, h1, h2⟩ := Option.bind_eq_some_iff.1 h
  obtain ⟨_, -, rfl⟩ := Option.map_eq_some_iff.1 h2
  exact dsmlTag_length h1

theorem paramOpens_length (h : paramOpens r = some n) : 0 < n ∧ n ≤ r.length := by
  obtain ⟨⟨tag, m⟩, h1, h2⟩ := Option.bind_eq_some_iff.1 h
  obtain ⟨_, -, h3⟩ := Option.bind_eq_some_iff.1 h2
  obtain ⟨_, -, rfl⟩ := Option.map_eq_some_iff.1 h3
  exact dsmlTag_length h1

/-- In the text of a tool block every invoke that opens is closed: its parameters have complete tags
with both attributes and are closed, and then the closing tag of the invoke follows. What stands
between invokes does not matter. -/
def invokesClosed (syn : DsmlSyntax) (inside : Bool) (r : Bytes) : Bool :=
  match r with
  | [] => !inside
  | c :: r' =>
    if isspace c then invokesClosed syn inside r'
    else if inside then
      if syn.invokeEnd <+: c :: r' then
        invokesClosed syn false (r'.drop (syn.invokeEnd.length - 1))
      else if syn.paramStart <+: c :: r' then
        match paramOpens (c :: r') with
        | none => false
        | some n =>
          match find syn.paramEnd ((c :: r').drop n) with
          | none => false
          | some k => invokesClosed syn true (r'.drop (n + k + syn.paramEnd.length - 1))
      else false
    else if syn.invokeStart <+: c :: r' then
      match invokeOpens (c :: r') with
      | none => true
      | some n => invokesClosed syn true (r'.drop (n - 1))
    else true
termination_by r.length
decreasing_by all_goals (simp only [List.length_drop, List.length_cons]; omega)

theorem invokesClosed_drop_space (hs : r <+: t) :
    invokesClosed syn inside (t.drop (r.takeWhile isspace).length) = invokesClosed syn inside t := by
  induction r generalizing t with
  | nil => rfl
  | cons c r ih =>
    obtain ⟨u, rfl⟩ := hs
    by_cases hc : isspace c
    · rw [List.takeWhile_cons_of_pos hc, List.length_cons, List.cons_append, List.drop_succ_cons,
        ih (List.prefix_append _ _), invokesClosed.eq_def syn inside (c :: (r ++ u))]
      simp [hc]
    · rw [List.takeWhile_cons_of_neg hc]
      rfl

/-- What a text with an open invoke starts with. -/
theorem invokesClosed_inside (hc : isspace c = false)
    (h : invokesClosed syn true (c :: r) = true) :
    (syn.invokeEnd <+: c :: r ∧
      invokesClosed syn false ((c :: r).drop syn.invokeEnd.length) = true) ∨
    (¬ syn.invokeEnd <+: c :: r ∧ syn.paramStart <+: c :: r ∧
      ∃ n k, paramOpens (c :: r) = some n ∧ find syn.paramEnd ((c :: r).drop n) = some k ∧
        invokesClosed syn true ((c :: r).drop (n + k + syn.paramEnd.length)) = true) := by
  have hne : ∀ w ∈ [syn.invokeEnd, syn.paramEnd], 0 < w.length := by
    intro w hw
    apply List.length_pos_of_ne_nil
    apply syn.structural_ne_nil
    simp only [List.mem_cons, List.not_mem_nil, or_false] at hw
    rcases hw with rfl | rfl <;> simp [DsmlSyntax.structuralLits]
  have hdrop : ∀ n, 0 < n → (c :: r).drop n = r.drop (n - 1) := by
    intro n hn
    obtain ⟨m, rfl⟩ := Nat.exists_eq_add_of_le' hn
    rfl
  rw [invokesClosed.eq_def] at h
  simp only [hc, Bool.false_eq_true, if_false, if_true] at h
  split at h
  · next he =>
    exact .inl ⟨he, by rw [hdrop _ (hne _ (by simp))]; exact h⟩
  · next he =>
    split at h
    · next hp =>
      cases hn : paramOpens (c :: r) with
      | none => rw [hn] at h; cases h
      | some n =>
        rw [hn] at h
        dsimp only at h
        cases hk : find syn.paramEnd ((c :: r).drop n) with
        | none => rw [hk] at h; cases h
        | some k =>
          rw [hk] at h
          refine .inr ⟨he, hp, n, k, rfl, hk, ?_⟩
          have h1 := hne syn.paramEnd (by simp)
          rw [hdrop _ (by omega)]
          exact h
    · cases h

theorem invokesClosed_opens (hc : isspace c = false) (hs : syn.invokeStart <+: c :: r)
    (hn : invokeOpens (c :: r) = some n) (h : invokesClosed syn false (c :: r) = true) :
    invokesClosed syn true ((c :: r).drop n) = true := by
  rw [invokesClosed.eq_def] at h
  simp only [hc, Bool.false_eq_true, if_false, if_pos hs, hn] at h
  obtain ⟨m, rfl⟩ := Nat.exists_eq_add_of_le' (invokeOpens_length hn).1
  exact h

/-! ## The tool blocks -/

/-- The output and the rest of the whole text `t`, by the state of the tool stream. -/
def ToolOk (t : Bytes) (ts : ToolStream) (out : AnthropicOut) : Prop :=
  if ts.active then
    match ts.state with
    | .betweenInvokes =>
      out.openBlock = none ∧ invokesClosed ts.syn false (t.drop ts.parsePos) = true
    | .betweenParams =>
      out.openBlock = some .tool ∧ invokesClosed ts.syn true (t.drop ts.parsePos) = true
    | .paramValue => out.openBlock = some .tool ∧
      ∃ k, find ts.syn.paramEnd (t.drop ts.parsePos) = some k ∧
        invokesClosed ts.syn true (t.drop (ts.parsePos + k + ts.syn.paramEnd.length)) = true
    | .done | .error => False
  else out.openBlock = none

/-- A round that goes on keeps the invariant, and so does one that returns; a return on the whole
text leaves no block open. -/
def ToolFlow.Ok (t s : Bytes) : ToolFlow AnthropicOut → Prop
  | .next ts out => out.Sound ∧ ToolOk t ts out
  | .ret ts out => out.Sound ∧ ToolOk t ts out ∧ (s = t → out.openBlock = none)

theorem toolArgs_sound {out : AnthropicOut} (i : Nat) (text : Bytes) (h : out.Sound)
    (ho : out.openBlock = some .tool) : (anthropicSink.toolArgs out i text).Sound ∧
      (anthropicSink.toolArgs out i text).openBlock = some .tool := by
  simp only [anthropicSink]
  split
  · exact ⟨h, ho⟩
  · exact ⟨anthropicSseDeltaLive_sound (d := .inputJson (cstr text)) h ho, ho⟩

theorem toolEmitValue_sound {out : AnthropicOut} (ts : ToolStream) (text : Bytes) (h : out.Sound)
    (ho : out.openBlock = some .tool) : (toolEmitValue anthropicSink ts out text).Sound ∧
      (toolEmitValue anthropicSink ts out text).openBlock = some .tool := by
  rw [toolEmitValue]
  split
  · exact ⟨h, ho⟩
  · exact toolArgs_sound _ _ h ho

theorem dsmlTag_mono (hr : r <+: r') (h : dsmlTag r = some x) : dsmlTag r' = some x := by
  obtain ⟨k, hk, rfl⟩ := Option.map_eq_some_iff.1 h
  have hle : k + 1 ≤ r.length := find_le hk
  obtain ⟨u, rfl⟩ := hr
  rw [dsmlTag, find_append_of_some hk, Option.map_some, List.take_append_of_le_length hle]

theorem not_isspace_of_skip {r : Bytes} (h : r.drop (r.takeWhile isspace).length = c :: r') :
    isspace c = false := by
  induction r with
  | nil => cases h
  | cons d r ih =>
    by_cases hd : isspace d
    · rw [List.takeWhile_cons_of_pos hd, List.length_cons, List.drop_succ_cons] at h
      exact ih h
    · rw [List.takeWhile_cons_of_neg hd] at h
      cases h
      simpa using hd

section
variable {s t : Bytes} {ts : ToolStream} {out : AnthropicOut}

/-- Between invokes nothing can go wrong: no block is open. -/
theorem toolBetweenInvokes_ok (hs : s <+: t) (hsp : ∀ c r, s.drop ts.parsePos = c :: r →
      isspace c = false) (ha : ts.active = true) (hst : ts.state = .betweenInvokes)
    (h : out.Sound) (ho : out.openBlock = none)
    (hcl : invokesClosed ts.syn false (t.drop ts.parsePos) = true) :
    ∃ flow, toolBetweenInvokes anthropicSink s ts out = .ok flow ∧ flow.Ok t s := by
  have hstay : ToolOk t ts out := by
    rw [ToolOk, if_pos ha, hst]
    exact ⟨ho, hcl⟩
  have hfail : ToolOk t (toolStreamFail ts) out := ho
  rw [toolBetweenInvokes]
  split
  · exact ⟨_, rfl, h, hstay, fun _ => ho⟩
  next hne =>
  split
  · exact ⟨_, rfl, h, ho, fun _ => ho⟩
  split
  · exact ⟨_, rfl, h, hstay, fun _ => ho⟩
  split
  · next hi =>
    rw [toolStartInvoke]
    split
    · exact ⟨_, rfl, h, hstay, fun _ => ho⟩
    · next tag n ht =>
      split
      · exact ⟨_, rfl, h, hfail, fun _ => ho⟩
      · next name hname =>
        obtain ⟨out1, h1, h2, h3⟩ := anthropicSseOpenBlock_sound .tool name h (.inl ho)
        obtain ⟨h4, h5⟩ := toolArgs_sound ts.index (lit "\x7b") h2 h3
        refine ⟨.next { ts with
          emittedAny := true, argsOpen := true, firstParam := true,
          parsePos := ts.parsePos + n, state := .betweenParams }
          (anthropicSink.toolArgs out1 ts.index (lit "\x7b")), ?_, h4, ?_⟩
        · change anthropicSseOpenBlock .tool name out >>= _ = _
          rw [h1]
          rfl
        rw [ToolOk, if_pos ha]
        refine ⟨h5, ?_⟩
        -- the tag is complete in the whole text too
        have hpre := isPrefix_drop hs ts.parsePos
        have htt := dsmlTag_mono hpre ht
        have hopen : invokeOpens (t.drop ts.parsePos) = some n := by
          simp [invokeOpens, htt, hname]
        obtain ⟨c, r, hr⟩ := List.exists_cons_of_ne_nil hne
        obtain ⟨u, hu⟩ := hpre
        have hc := hsp c r hr
        have hi' : ts.syn.invokeStart <+: t.drop ts.parsePos :=
          (of_decide_eq_true hi).trans ⟨u, hu⟩
        rw [hr, List.cons_append] at hu
        rw [← hu] at hcl hopen hi'
        have := invokesClosed_opens hc hi' hopen hcl
        rw [hu, List.drop_drop] at this
        exact this
  · exact ⟨_, rfl, h, hfail, fun _ => ho⟩

theorem toolStartParam_ok (hs : s <+: t) (ha : ts.active = true) (h : out.Sound)
    (ho : out.openBlock = some .tool) (hstay : ToolOk t ts out)
    (hn : paramOpens (t.drop ts.parsePos) = some n)
    (hk : find ts.syn.paramEnd (t.drop (ts.parsePos + n)) = some k)
    (hcl : invokesClosed ts.syn true (t.drop (ts.parsePos + n + k + ts.syn.paramEnd.length)) = true) :
    (toolStartParam anthropicSink s ts out).Ok t s := by
  obtain ⟨⟨tag, m⟩, hm1, hm2⟩ := Option.bind_eq_some_iff.1 hn
  obtain ⟨name, hm3, hm4⟩ := Option.bind_eq_some_iff.1 hm2
  obtain ⟨str, hm5, rfl⟩ := Option.map_eq_some_iff.1 hm4
  dsimp only at hm3 hm5 hk hcl
  rw [toolStartParam]
  split
  · next hnone =>
    refine ⟨h, hstay, ?_⟩
    rintro rfl
    rw [hnone] at hm1
    cases hm1
  · next tag' m' hsome =>
    rw [dsmlTag_mono (isPrefix_drop hs _) hsome] at hm1
    cases hm1
    rw [hm3, hm5]
    obtain ⟨h1, h2⟩ := toolArgs_sound ts.index (toolParamPrefix ts name (str == lit "true")) h ho
    refine ⟨h1, ?_⟩
    rw [ToolOk, if_pos ha]
    exact ⟨h2, k, hk, hcl⟩

/-- Inside an invoke the text goes on with a parameter or with the closing tag. -/
theorem toolBetweenParams_ok (hs : s <+: t) (hsp : ∀ c r, s.drop ts.parsePos = c :: r →
      isspace c = false) (ha : ts.active = true) (hst : ts.state = .betweenParams)
    (h : out.Sound) (ho : out.openBlock = some .tool)
    (hcl : invokesClosed ts.syn true (t.drop ts.parsePos) = true) :
    (toolBetweenParams anthropicSink s ts out).Ok t s := by
  have hstay : ToolOk t ts out := by
    rw [ToolOk, if_pos ha, hst]
    exact ⟨ho, hcl⟩
  have hpre := isPrefix_drop hs ts.parsePos
  rw [toolBetweenParams]
  split
  · next hnil =>
    refine ⟨h, hstay, ?_⟩
    rintro rfl
    rw [hnil] at hcl
    simp [invokesClosed] at hcl
  next hne =>
  obtain ⟨c, r, hr⟩ := List.exists_cons_of_ne_nil hne
  have hc := hsp c r hr
  obtain ⟨R, hR⟩ : ∃ R, t.drop ts.parsePos = c :: R := by
    obtain ⟨u, hu⟩ := hpre
    rw [hr] at hu
    exact ⟨_, hu.symm⟩
  rw [hR] at hcl
  rcases invokesClosed_inside hc hcl with ⟨hend, hcl'⟩ | ⟨hend, hparam, n, k, hn, hk, hcl'⟩
  · rw [← hR] at hend hcl'
    rcases full_or_partial hpre hend with hf | hf
    · rw [if_pos hf]
      have h1 : (if ts.argsOpen then anthropicSink.toolArgs out ts.index (lit "\x7d")
          else out).Sound := by
        split
        · exact (toolArgs_sound _ _ h ho).1
        · exact h
      obtain ⟨h2, h3⟩ := anthropicSseCloseBlockLive_sound h1
      refine ⟨h2, ?_⟩
      rw [ToolOk, if_pos ha]
      refine ⟨h3, ?_⟩
      rw [List.drop_drop] at hcl'
      exact hcl'
    · have hnf : ¬ rawFullLit (s.drop ts.parsePos) ts.syn.invokeEnd = true := by
        intro hf'
        simp only [rawFullLit, rawPartialLit, decide_eq_true_eq] at hf hf'
        exact absurd hf'.length_le (by omega)
      rw [if_neg hnf, if_pos (by simp [hf])]
      refine ⟨h, hstay, ?_⟩
      rintro rfl
      exact absurd (decide_eq_true hend) hnf
  · rw [← hR] at hend hparam hn hk hcl'
    have hnf : ¬ rawFullLit (s.drop ts.parsePos) ts.syn.invokeEnd = true := by
      intro hf
      exact hend ((of_decide_eq_true hf).trans hpre)
    rw [if_neg hnf]
    split
    · next hpart =>
      refine ⟨h, hstay, ?_⟩
      rintro rfl
      -- on the whole text the parameter tag is complete
      exfalso
      have hlt := hparam.length_le
      simp only [rawPartialLit, Bool.or_eq_true, decide_eq_true_eq] at hpart
      rcases hpart with ⟨-, h2⟩ | ⟨h1, -⟩
      · have hpe := ts.syn.free ts.syn.paramStart (by simp) ts.syn.invokeEnd (by simp)
          (hparam.trans h2)
        exact hend (hpe ▸ hparam)
      · omega
    next hpart =>
    rcases full_or_partial hpre hparam with hf | hf
    · rw [if_pos hf]
      rw [List.drop_drop] at hk hcl'
      exact toolStartParam_ok hs ha h ho hstay hn hk (by
        rw [show ts.parsePos + n + k + ts.syn.paramEnd.length =
          ts.parsePos + (n + k + ts.syn.paramEnd.length) by omega]
        exact hcl')
    · exact absurd (by simp [hf]) hpart

/-- Inside a value the closing tag of the parameter follows. -/
theorem toolParamValue_ok (hs : s <+: t) (ha : ts.active = true) (hst : ts.state = .paramValue)
    (h : out.Sound) (ho : out.openBlock = some .tool)
    (hk : find ts.syn.paramEnd (t.drop ts.parsePos) = some k)
    (hcl : invokesClosed ts.syn true (t.drop (ts.parsePos + k + ts.syn.paramEnd.length)) = true) :
    (toolParamValue anthropicSink s ts out).Ok t s := by
  rw [toolParamValue]
  split
  · next k' hk' =>
    obtain rfl : k = k' := by
      have := find_mono (isPrefix_drop hs ts.parsePos) hk'
      rw [hk] at this
      cases this
      rfl
    obtain ⟨h1, h2⟩ := toolEmitValue_sound ts ((s.take (ts.parsePos + k)).drop ts.parsePos) h ho
    rw [toolFinishParam]
    have h3 : ∀ o : AnthropicOut, o.Sound → o.openBlock = some .tool →
        (if ts.paramIsString then anthropicSink.toolArgs o ts.index (lit "\"") else o).Sound ∧
        (if ts.paramIsString then anthropicSink.toolArgs o ts.index (lit "\"") else o).openBlock =
          some .tool := by
      intro o ho1 ho2
      split
      · exact toolArgs_sound _ _ ho1 ho2
      · exact ⟨ho1, ho2⟩
    obtain ⟨h4, h5⟩ := h3 _ h1 h2
    refine ⟨h4, ?_⟩
    rw [ToolOk, if_pos ha]
    exact ⟨h5, hcl⟩
  · next hnone =>
    have hsharp : Sharp (ch '<') ts.syn.paramEnd := ts.syn.sharp _ (by simp)
    have hle := toolParamValueStreamSafeLen_le ts.paramIsString hsharp hs hnone hk
    generalize hlim : toolParamValueStreamSafeLen s ts.parsePos ts.syn.paramEnd ts.paramIsString =
      limit at hle
    dsimp only
    split
    · next hlt =>
      obtain ⟨h1, h2⟩ := toolEmitValue_sound ts ((s.take limit).drop ts.parsePos) h ho
      refine ⟨h1, ?_, ?_⟩
      · rw [ToolOk, if_pos ha, hst]
        refine ⟨h2, k - (limit - ts.parsePos), ?_, ?_⟩
        · have := find_drop hk (j := limit - ts.parsePos) (by omega)
          rw [List.drop_drop, Nat.add_sub_cancel' hlt.le] at this
          exact this
        · rw [show limit + (k - (limit - ts.parsePos)) = ts.parsePos + k by omega]
          exact hcl
      · rintro rfl
        rw [hk] at hnone
        cases hnone
    · refine ⟨h, ?_, ?_⟩
      · rw [ToolOk, if_pos ha, hst]
        exact ⟨ho, k, hk, hcl⟩
      · rintro rfl
        rw [hk] at hnone
        cases hnone

theorem toolStreamStep_ok (hs : s <+: t) (ha : ts.active = true) (h : out.Sound)
    (hok : ToolOk t ts out) :
    ∃ flow, toolStreamStep anthropicSink s ts out = .ok flow ∧ flow.Ok t s := by
  have hpre := isPrefix_drop hs ts.parsePos
  have hsp : ∀ c r, s.drop (toolSkipSpace s ts).parsePos = c :: r → isspace c = false := by
    intro c r hr
    rw [toolSkipSpace, ← List.drop_drop] at hr
    exact not_isspace_of_skip hr
  have hcl : ∀ inside, invokesClosed ts.syn inside (t.drop ts.parsePos) = true →
      invokesClosed (toolSkipSpace s ts).syn inside (t.drop (toolSkipSpace s ts).parsePos) =
        true := by
    intro inside hc
    rw [toolSkipSpace, ← List.drop_drop]
    exact (invokesClosed_drop_space hpre).trans hc
  rw [ToolOk, if_pos ha] at hok
  rw [toolStreamStep]
  cases hst : ts.state with
  | betweenInvokes =>
    rw [hst] at hok
    exact toolBetweenInvokes_ok hs hsp ha hst h hok.1 (hcl false hok.2)
  | betweenParams =>
    rw [hst] at hok
    exact ⟨_, rfl, toolBetweenParams_ok hs hsp ha hst h hok.1 (hcl true hok.2)⟩
  | paramValue =>
    rw [hst] at hok
    obtain ⟨ho, k, hk, hc⟩ := hok
    exact ⟨_, rfl, toolParamValue_ok hs ha hst h ho hk hc⟩
  | done => rw [hst] at hok; exact hok.elim
  | error => rw [hst] at hok; exact hok.elim

/-- The text is used up: only between invokes the condition allows that. -/
theorem ToolOk.of_end (hok : ToolOk t ts out) (hp : t.length ≤ ts.parsePos) :
    out.openBlock = none := by
  have hnil := List.drop_eq_nil_of_le hp
  rw [ToolOk, hnil] at hok
  split at hok
  · split at hok
    · exact hok.1
    · simp [invokesClosed] at hok
    · obtain ⟨-, k, hk, -⟩ := hok
      have hle := find_le hk
      have hpos := List.length_pos_of_ne_nil
        (ts.syn.structural_ne_nil (w := ts.syn.paramEnd) (by simp [DsmlSyntax.structuralLits]))
      simp only [List.length_nil] at hle
      omega
    · exact hok.elim
    · exact hok.elim
  · exact hok

/-- The whole loop. -/
theorem toolStreamUpdate_ok (hs : s <+: t) (h : out.Sound) (hok : ToolOk t ts out) :
    ∃ ts' out', toolStreamUpdate anthropicSink s ts out = .ok (ts', out') ∧ out'.Sound ∧
      ToolOk t ts' out' ∧ (s = t → out'.openBlock = none) := by
  induction hm : s.length - ts.parsePos using Nat.strong_induction_on generalizing ts out with
  | _ m ih =>
    rw [toolStreamUpdate]
    split
    · next hcond =>
      obtain ⟨flow, hf, hflow⟩ := toolStreamStep_ok hs hcond.1 h hok
      cases flow with
      | ret ts' out' =>
        split
        · next he => rw [hf] at he; cases he
        · next he =>
          rw [hf] at he
          cases he
          exact ⟨ts', out', rfl, hflow⟩
        · next he => rw [hf] at he; cases he
      | next ts' out' =>
        have hnext := toolStreamStep_next hf
        split
        · next he => rw [hf] at he; cases he
        · next he => rw [hf] at he; cases he
        · next he =>
          rw [hf] at he
          cases he
          exact ih _ (by omega) hflow.1 hflow.2 rfl
    · next hcond =>
      refine ⟨ts, out, rfl, h, hok, ?_⟩
      rintro rfl
      by_cases ha : ts.active = true
      · exact hok.of_end (by simp only [ha, true_and] at hcond; omega)
      · rw [ToolOk, if_neg ha] at hok
        exact hok

end

end Ds4
