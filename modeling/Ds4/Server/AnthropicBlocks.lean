import Ds4.Server.AnthropicTools

/-!
# The block lifecycle of an Anthropic stream

`anthropic_sse_finish_live` closes a thinking or a text block that is still open, but not the tool
block of an invoke that the text leaves open, and not the thinking block in front of a tool marker
that has no end. `BlocksClosed` is the condition on the text that excludes both; under it every run
is well bracketed.
-/

namespace Ds4
open C Scan

/-! ## The condition on the text -/

/-- Where the content starts: behind the first closing tag of the reasoning. Searches stop at a zero
byte, so in a text with zero bytes any closing tag may be the one that is seen. -/
def ContentStart (think : Bool) (t : Bytes) (c : Nat) : Prop :=
  if think then ∃ k, lit "</think>" <+: t.drop k ∧ (0 ∉ t → find (lit "</think>") t = some k) ∧
    c = k + (lit "</think>").length
  else c = 0

/-- The first DSML block from an offset (with zero bytes, every one) closes its invokes. -/
def ContentClosed (t : Bytes) (p : Nat) : Prop :=
  ∀ i, p ≤ i → ∀ syn ∈ dsmlSyntaxes, syn.toolCallsStart <+: t.drop i →
    (0 ∉ t → ∀ j, p ≤ j → j < i → ¬ MarkerAt t j) →
    invokesClosed syn false (t.drop (i + syn.toolCallsStart.length)) = true

/-- The first closing tag of the reasoning is not before an offset. -/
def CloseAhead (t : Bytes) (p : Nat) : Prop :=
  0 ∉ t → ∀ k, find (lit "</think>") t = some k → p ≤ k

/-- A tool start marker in the reasoning is followed by an end marker, and every invoke that the
content's tool block opens is closed. -/
structure BlocksClosed (think hasTools : Bool) (t : Bytes) : Prop where
  reasoning : think = true → hasTools = true → ∀ i, MarkerAt t i → CloseAhead t i →
    (findAnyToolEnd (cstr (t.drop i))).isSome = true
  content : hasTools = true → ∀ c, ContentStart think t c → ContentClosed t c

theorem ContentClosed.advance (h : ContentClosed t p) (hq : p ≤ q)
    (hn : 0 ∉ t → ∀ j, p ≤ j → j < q → ¬ MarkerAt t j) : ContentClosed t q := by
  intro i hi syn hsyn hp hfirst
  refine h i (hq.trans hi) syn hsyn hp fun h0 j hj hji => ?_
  rcases Nat.lt_or_ge j q with hlt | hge
  · exact hn h0 j hj hlt
  · exact hfirst h0 j hge hji

/-- The invariant of the updates. -/
def BlockInv (think hasTools : Bool) (t : Bytes) (st : Stream AnthropicOut) : Prop :=
  st.out.Sound ∧
  match st.mode with
  | .thinking => think = true ∧ st.out.accepts .thinking ∧ CloseAhead t st.emitPos
  | .text => st.out.accepts .text ∧
    (st.guardSecondReasoning = true → st.out.openBlock = none) ∧
    (hasTools = true → ContentClosed t st.emitPos)
  | .tool => ToolOk t st.tool st.out
  | .suppress => st.out.openBlock = none

theorem BlockInv.thinking_iff {st : Stream AnthropicOut} (hm : st.mode = .thinking) :
    BlockInv think hasTools t st ↔ st.out.Sound ∧ think = true ∧ st.out.accepts .thinking ∧
      CloseAhead t st.emitPos := by
  rw [BlockInv, hm]

theorem BlockInv.text_iff {st : Stream AnthropicOut} (hm : st.mode = .text) :
    BlockInv think hasTools t st ↔ st.out.Sound ∧ st.out.accepts .text ∧
      (st.guardSecondReasoning = true → st.out.openBlock = none) ∧
      (hasTools = true → ContentClosed t st.emitPos) := by
  rw [BlockInv, hm]

/-! ## The reasoning -/

section
variable {think hasTools : Bool} {s t : Bytes} {st : Stream AnthropicOut} {final : Bool}

theorem emitThinking_sound (n : Nat) (h : st.out.Sound) (ho : st.out.accepts .thinking) :
    ∃ out, emitThinking anthropicSink s n st = .ok { st with
        out := out, sentThinking := st.sentThinking || decide (st.emitPos < n),
        emitPos := max st.emitPos n } ∧ out.Sound ∧ out.accepts .thinking := by
  rw [emitThinking]
  split
  · next hlt =>
    obtain ⟨out, h1, h2, h3⟩ := anthropicSseOpenBlock_sound .thinking [] h ho
    refine ⟨_, ?_, anthropicSseDeltaLive_sound (d := .thinking (cstr ((s.take n).drop st.emitPos)))
      h2 h3, .inr h3⟩
    simp [anthropicSink, h1, hlt, max_eq_right hlt.le, bind, Except.bind]
  · next hge =>
    refine ⟨st.out, ?_, h, ho⟩
    simp [hge, max_eq_left (Nat.le_of_not_lt hge)]

theorem emitText_sound (n : Nat) (h : st.out.Sound) (ho : st.out.accepts .text) :
    ∃ out, emitText anthropicSink s n st = .ok { st with
        out := out, sentText := st.sentText || decide (st.emitPos < n),
        emitPos := max st.emitPos n } ∧ out.Sound ∧ out.accepts .text := by
  rw [emitText]
  split
  · next hlt =>
    obtain ⟨out, h1, h2, h3⟩ := anthropicSseOpenBlock_sound .text [] h ho
    refine ⟨_, ?_, anthropicSseDeltaLive_sound (d := .text (cstr ((s.take n).drop st.emitPos)))
      h2 h3, .inr h3⟩
    simp [anthropicSink, h1, hlt, max_eq_right hlt.le, bind, Except.bind]
  · next hge =>
    refine ⟨st.out, ?_, h, ho⟩
    simp [hge, max_eq_left (Nat.le_of_not_lt hge)]

theorem close_sharp : Sharp (ch '<') (lit "</think>") := by decide

/-- A marker in front of the closing tag keeps it ahead. -/
theorem CloseAhead.marker (h : CloseAhead t st.emitPos) (hs : s <+: t)
    (hi : toolBeforeClose hasTools s st = some i) : CloseAhead t (st.emitPos + i) := by
  intro h0 k hk
  obtain ⟨htool, hall⟩ := Option.filter_eq_some_iff.1 hi
  have he := h h0 k hk
  have htool' : findAnyToolStart (cstr (s.drop st.emitPos)) = some i := by
    rw [streamTool] at htool
    split at htool
    · exact htool
    · cases htool
  obtain ⟨w, hw, hwp, hle⟩ := markerAt_of_found hs htool'
  by_contra hlt
  have hd := close_sharp.disjoint (anyToolStarts_sharp w hw).1 (find_eq_some_iff.1 hk).1 hwp
  have hpos := List.length_pos_of_ne_nil (anyToolStarts_sharp w hw).1.ne_nil
  -- the closing tag is complete in the received part, so it would have been found first
  have hfound : streamClose s st = some (k - st.emitPos) := by
    rw [streamClose_eq st h0 hs]
    exact find_prefix_of_le (isPrefix_drop hs _) (find_drop hk he)
      (by rw [List.length_drop]; omega)
  simp only [hfound, Option.all_some, decide_eq_true_eq] at hall
  omega

/-- The closing tag that is found is the first one. -/
theorem CloseAhead.contentStart (h : CloseAhead t st.emitPos) (hs : s <+: t)
    (hk : streamClose s st = some k) :
    ContentStart true t (st.emitPos + k + (lit "</think>").length) := by
  have hf : find (lit "</think>") (cstr (s.drop st.emitPos)) = some k := hk
  have hp := (find_eq_some_iff.1 hf).1.trans
    ((isPrefix_drop (cstr_isPrefix _) k).trans (isPrefix_drop (isPrefix_drop hs st.emitPos) k))
  rw [List.drop_drop] at hp
  refine ⟨st.emitPos + k, hp, fun h0 => ?_, rfl⟩
  rw [streamClose_eq st h0 hs] at hk
  cases hc : find (lit "</think>") t with
  | none => exact absurd hp (find_eq_none_iff.1 hc _)
  | some k0 =>
    have he := h h0 k0 hc
    have h1 := find_drop hc he
    rw [find_mono (isPrefix_drop hs _) hk] at h1
    cases h1
    rw [Nat.add_sub_cancel' he]

theorem open_sharp : Sharp (ch '<') (lit "<think>") := by decide

theorem checkThinkPrefix_block (hs : s <+: t) (h : CloseAhead t st.emitPos)
    (hc : checkThinkPrefix s final st = some st') :
    st' = { st with emitPos := st'.emitPos, checkedThinkPrefix := true } ∧
      CloseAhead t st'.emitPos := by
  rw [checkThinkPrefix] at hc
  split at hc
  · next hck =>
    cases hc
    refine ⟨?_, h⟩
    rw [← hck]
  split at hc
  · cases hc
  cases hc
  refine ⟨rfl, fun h0 k hk => ?_⟩
  dsimp only
  split
  · next ho =>
    -- the opening tag does not overlap the closing one
    have hp : lit "<think>" <+: t.drop 0 := ho.trans hs
    have hcl := (find_eq_some_iff.1 hk).1
    rcases open_sharp.disjoint close_sharp hp hcl with rfl | hd | hd
    · rcases List.prefix_or_prefix_of_prefix hp hcl with hx | hx
      · exact absurd hx (by decide)
      · exact absurd hx (by decide)
    · simpa using hd
    · have : (lit "</think>").length = 8 := rfl
      omega
  · exact h h0 k hk

theorem toolBeforeClose_tools (h : toolBeforeClose hasTools s st = some i) :
    hasTools = true ∧ findAnyToolStart (cstr (s.drop st.emitPos)) = some i := by
  have htool := (Option.filter_eq_some_iff.1 h).1
  rw [streamTool] at htool
  split at htool
  · next ht => exact ⟨ht, htool⟩
  · cases htool

/-- The reasoning phase. In the last update a marker without an end would leave the block open. -/
theorem streamThinking_block (hs : s <+: t) (hf : final = true → s = t)
    (hcond : BlocksClosed think hasTools t) (hm : st.mode = .thinking)
    (h : BlockInv think hasTools t st) :
    ∃ st', streamThinking anthropicSink hasTools s final st = .ok st' ∧
      BlockInv think hasTools t st' ∧ (final = true → st'.mode ≠ .thinking) := by
  obtain ⟨hsound, hthink, hacc, hahead⟩ := (BlockInv.thinking_iff hm).1 h
  rw [streamThinking]
  cases hc : checkThinkPrefix s final st with
  | none =>
    refine ⟨st, rfl, h, ?_⟩
    rintro rfl
    rw [checkThinkPrefix] at hc
    simp only [Bool.not_true, Bool.false_eq_true, and_false, if_false] at hc
    split at hc <;> cases hc
  | some st1 =>
  obtain ⟨heq, hahead1⟩ := checkThinkPrefix_block hs hahead hc
  have hmode1 : st1.mode = .thinking := by rw [heq]; exact hm
  have hout1 : st1.out = st.out := by rw [heq]
  have hacc1 : st1.out.accepts .thinking := hout1 ▸ hacc
  have hsound1 : st1.out.Sound := hout1 ▸ hsound
  obtain ⟨out, he, hso, hao⟩ :=
    emitThinking_sound (s := s) (thinkingLimit hasTools s final st1) hsound1 hacc1
  obtain ⟨hcs, hco⟩ := anthropicSseCloseBlockLive_sound hso
  dsimp only
  rw [he]
  cases hi : toolBeforeClose hasTools s st1 with
  | some i =>
    obtain ⟨htools, hfound⟩ := toolBeforeClose_tools hi
    have hai := hahead1.marker hs hi
    simp only [bind, Except.bind]
    split
    · refine ⟨_, rfl, ⟨hcs, hco⟩, fun _ => ?_⟩
      simp
    · next hend =>
      have hlim : thinkingLimit hasTools s final st1 ≤ st1.emitPos + i := by
        rw [thinkingLimit, hi]
        exact trimToolSeparatorWs_le (Nat.le_add_right _ _)
      refine ⟨_, rfl, (BlockInv.thinking_iff ?_).2 ⟨hso, hthink, hao, fun h0 k hk => ?_⟩, ?_⟩
      · exact hmode1
      · exact max_le (hahead1 h0 k hk) (hlim.trans (hai h0 k hk))
      · rintro rfl
        obtain rfl := hf rfl
        obtain ⟨w, hw, hwp, -⟩ := markerAt_of_found hs hfound
        exact absurd (hcond.reasoning hthink htools _ ⟨w, hw, hwp⟩ hai) hend
  | none =>
    cases hk : streamClose s st1 with
    | some k =>
      have hstart := hahead1.contentStart hs hk
      rw [← hthink] at hstart
      refine ⟨_, rfl, ⟨hcs, .inl hco, fun _ => hco, fun ht => ?_⟩, fun _ => by simp⟩
      exact hcond.content ht _ hstart
    | none =>
      cases final with
      | true => exact ⟨_, rfl, ⟨hcs, hco⟩, fun _ => by simp⟩
      | false =>
        refine ⟨_, rfl, (BlockInv.thinking_iff ?_).2 ⟨hso, hthink, hao, fun h0 k hkt =>
          max_le (hahead1 h0 k hkt) ?_⟩, fun h => by cases h⟩
        · exact hmode1
        -- the bytes that are held back
        rw [streamClose_eq st1 h0 hs] at hk
        rw [thinkingLimit, hi, streamClose_eq st1 h0 hs, hk]
        dsimp only
        rw [if_neg Bool.false_ne_true]
        have h7 : (lit "</think>").length - 1 = 7 := rfl
        refine (utf8StreamSafeLen_le ..).trans ?_
        rw [h7]
        have he1 := hahead1 h0 k hkt
        split
        · next hlen =>
          rcases Nat.lt_or_ge st1.emitPos (s.length - 7) with h1 | h1
          · have := hold_le_close hs hk (n := s.length - 7) (by omega) h1.le (find_drop hkt he1)
            omega
          · omega
        · exact he1

/-! ## The content -/

theorem streamTool_some (h : streamTool hasTools s st = some i) :
    hasTools = true ∧ findAnyToolStart (cstr (s.drop st.emitPos)) = some i := by
  rw [streamTool] at h
  split at h
  · next ht => exact ⟨ht, h⟩
  · cases h

/-- No marker stands in front of a closing tag that comes first. -/
theorem not_markerAt_close (h0 : 0 ∉ t) (hs : s <+: t) (ht : hasTools = true)
    (hk : streamClose s st = some k) (hall : (streamTool hasTools s st).all (k < ·) = true)
    (hj : st.emitPos ≤ j) (hjk : j < st.emitPos + k + (lit "</think>").length) :
    ¬ MarkerAt t j := by
  intro ⟨v, hv, hp⟩
  rw [streamClose_eq st h0 hs] at hk
  have hcp := (find_eq_some_iff.1 (find_mono (isPrefix_drop hs _) hk)).1
  rw [List.drop_drop] at hcp
  have hle := find_le hk
  rw [List.length_drop] at hle
  have hvpos := List.length_pos_of_ne_nil (anyToolStarts_sharp v hv).1.ne_nil
  rcases close_sharp.disjoint (anyToolStarts_sharp v hv).1 hcp hp with he | hd | hd
  · have hfree : ∀ v ∈ anyToolStarts, ¬ v <+: lit "</think>" ∧ ¬ lit "</think>" <+: v := by decide
    rw [he] at hcp
    rcases List.prefix_or_prefix_of_prefix hcp hp with hx | hx
    · exact (hfree v hv).2 hx
    · exact (hfree v hv).1 hx
  · omega
  · -- the marker is complete and would have been found
    rw [streamTool, if_pos ht] at hall
    cases hf : findAnyToolStart (cstr (s.drop st.emitPos)) with
    | none =>
      have := cut_of_not_found h0 hs hf hv hp hj
      omega
    | some i =>
      rw [hf] at hall
      simp only [Option.all_some, decide_eq_true_eq] at hall
      exact not_markerAt_before h0 hs hf hj (by omega) ⟨v, hv, hp⟩

theorem streamGuard_block (final : Bool) (hs : s <+: t) (hm : st.mode = .text)
    (h : BlockInv think hasTools t st) :
    ∃ st' go, streamGuard anthropicSink hasTools s final st = .ok (st', go) ∧
      BlockInv think hasTools t st' ∧ st'.mode = .text ∧ (final = true → go = true) ∧
      (go = true → st'.guardSecondReasoning = false) := by
  obtain ⟨hsound, hacc, hguard, hcl⟩ := (BlockInv.text_iff hm).1 h
  rw [streamGuard]
  split
  · next hg =>
    dsimp only
    cases hk : (streamClose s st).filter fun k => (streamTool hasTools s st).all (k < ·) with
    | some k =>
      obtain ⟨hk1, hk2⟩ := Option.filter_eq_some_iff.1 hk
      obtain ⟨out, he, hso, -⟩ :=
        emitThinking_sound (s := s) (st.emitPos + k) hsound (.inl (hguard hg))
      obtain ⟨hcs, hco⟩ := anthropicSseCloseBlockLive_sound hso
      dsimp only
      rw [he]
      refine ⟨_, _, rfl, (BlockInv.text_iff ?_).2 ⟨hcs, .inl hco, fun h => (by cases h), fun ht =>
        (hcl ht).advance ?_ ?_⟩, hm, fun _ => rfl, fun _ => rfl⟩
      · exact hm
      · dsimp only
        omega
      · exact fun h0 j hj hjk => not_markerAt_close h0 hs ht hk1 hk2 hj hjk
    | none =>
      dsimp only
      split
      · next hw =>
        refine ⟨st, false, rfl, h, hm, fun hf => ?_, fun h => by cases h⟩
        simp [hf] at hw
      · refine ⟨_, true, rfl, (BlockInv.text_iff ?_).2 ⟨hsound, hacc, fun h => (by cases h), hcl⟩, hm,
          fun _ => rfl, fun _ => rfl⟩
        exact hm
  · next hg => exact ⟨st, true, rfl, h, hm, fun _ => rfl, fun _ => by simpa using hg⟩

theorem streamContent_block (hs : s <+: t) (hm : st.mode = .text)
    (hg : st.guardSecondReasoning = false) (h : BlockInv think hasTools t st) :
    ∃ st', streamContent anthropicSink hasTools s final st = .ok st' ∧
      BlockInv think hasTools t st' ∧ (final = true → st'.mode = .suppress) := by
  obtain ⟨hsound, hacc, -, hcl⟩ := (BlockInv.text_iff hm).1 h
  obtain ⟨out, he, hso, hao⟩ :=
    emitText_sound (s := s) (textStreamSafeLimit s st.emitPos hasTools final) hsound hacc
  obtain ⟨hcs, hco⟩ := anthropicSseCloseBlockLive_sound hso
  rw [streamContent, he]
  simp only [bind, Except.bind]
  cases hi : streamTool hasTools s st with
  | some i =>
    obtain ⟨ht, hfound⟩ := streamTool_some hi
    cases final with
    | true => exact ⟨_, rfl, ⟨hcs, hco⟩, fun _ => rfl⟩
    | false =>
      refine ⟨_, rfl, ⟨hcs, ?_⟩, fun h => nomatch h⟩
      dsimp only
      rw [toolStreamInit]
      cases hsyn : dsmlSyntaxes.find? (fun syn =>
          rawFullLit (s.drop (st.emitPos + i)) syn.toolCallsStart) with
      | none => exact hco
      | some syn =>
        have hmem := List.mem_of_find?_eq_some hsyn
        have hfull := List.find?_some hsyn
        have hp : syn.toolCallsStart <+: t.drop (st.emitPos + i) :=
          (of_decide_eq_true hfull).trans (isPrefix_drop hs _)
        refine ⟨hco, ?_⟩
        exact hcl ht _ (Nat.le_add_right _ _) syn hmem hp
          fun h0 j hj hji => not_markerAt_before h0 hs hfound hj hji
  | none =>
    cases final with
    | true => exact ⟨_, rfl, ⟨hcs, hco⟩, fun _ => rfl⟩
    | false =>
      refine ⟨_, rfl, (BlockInv.text_iff ?_).2 ⟨hso, hao, fun h => ?_, fun ht =>
        (hcl ht).advance (Nat.le_max_left _ _) fun h0 j hj hjm => ?_⟩, fun h => nomatch h⟩
      · exact hm
      · exact absurd (hg.symm.trans h) Bool.false_ne_true
      · intro ⟨v, hv, hp⟩
        rw [streamTool, if_pos ht] at hi
        have hcut := cut_of_not_found h0 hs hi hv hp hj
        obtain ⟨h1, h2⟩ := anyToolStarts_sharp v hv
        have hle := textStreamSafeLimit_le h1 h2 hs hi hp hj hcut
        have hjm' : j < max st.emitPos (textStreamSafeLimit s st.emitPos hasTools false) := hjm
        rw [ht] at hjm'
        omega

theorem streamText_block (final : Bool) (hs : s <+: t) (hm : st.mode = .text)
    (h : BlockInv think hasTools t st) :
    ∃ st', streamText anthropicSink hasTools s final st = .ok st' ∧
      BlockInv think hasTools t st' ∧ (final = true → st'.mode = .suppress) := by
  obtain ⟨st1, go, h1, h2, h3, h4, h5⟩ := streamGuard_block final hs hm h
  rw [streamText, h1]
  cases go with
  | true => exact streamContent_block hs h3 (h5 rfl) h2
  | false => exact ⟨st1, rfl, h2, fun hf => by cases h4 hf⟩

/-! ## Runs -/

/-- Every update keeps the invariant, and after the last one no block is open. -/
theorem streamUpdate_block (final : Bool) (hs : s <+: t) (hf : final = true → s = t)
    (hcond : BlocksClosed think hasTools t) (h : BlockInv think hasTools t st) :
    ∃ st', streamUpdate anthropicSink hasTools s final st = .ok st' ∧
      BlockInv think hasTools t st' ∧ (final = true → st'.out.openBlock = none) := by
  obtain ⟨st1, he1, h1, hf1⟩ : ∃ st1, st.phase .thinking
      (streamThinking anthropicSink hasTools s final) = .ok st1 ∧ BlockInv think hasTools t st1 ∧
      (final = true → st1.mode ≠ .thinking) := by
    by_cases hm : st.mode = .thinking
    · rw [Stream.phase_eq hm]
      exact streamThinking_block hs hf hcond hm h
    · exact ⟨st, Stream.phase_ne hm, h, fun _ => hm⟩
  obtain ⟨st2, he2, h2, hf2⟩ : ∃ st2, st1.phase .text
      (streamText anthropicSink hasTools s final) = .ok st2 ∧ BlockInv think hasTools t st2 ∧
      (final = true → st2.mode ≠ .thinking ∧ st2.mode ≠ .text) := by
    by_cases hm : st1.mode = .text
    · rw [Stream.phase_eq hm]
      obtain ⟨st2, he, h2, hf2⟩ := streamText_block final hs hm h1
      exact ⟨st2, he, h2, fun hfin => by simp [hf2 hfin]⟩
    · exact ⟨st1, Stream.phase_ne hm, h1, fun hfin => ⟨hf1 hfin, hm⟩⟩
  rw [streamUpdate, he1]
  change ∃ st', (st1.phase .text (streamText anthropicSink hasTools s final) >>=
    Stream.phase .tool (streamToolCalls anthropicSink s)) = .ok st' ∧ _
  rw [he2]
  change ∃ st', st2.phase .tool (streamToolCalls anthropicSink s) = .ok st' ∧ _
  by_cases hm : st2.mode = .tool
  · rw [BlockInv, hm] at h2
    obtain ⟨ts, out, h3, h4, h5, h6⟩ := toolStreamUpdate_ok hs h2.1 h2.2
    rw [Stream.phase_eq hm, streamToolCalls, h3]
    refine ⟨_, rfl, ⟨h4, ?_⟩, fun hfin => h6 (hf hfin)⟩
    dsimp only
    by_cases ha : ts.active = true
    · simp only [ha, if_true]
      exact h5
    · rw [ToolOk, if_neg ha] at h5
      simp only [ha]
      exact h5
  · refine ⟨st2, Stream.phase_ne hm, h2, fun hfin => ?_⟩
    obtain ⟨hn1, hn2⟩ := hf2 hfin
    rw [BlockInv] at h2
    cases hmode : st2.mode with
    | thinking => exact absurd hmode hn1
    | text => exact absurd hmode hn2
    | tool => exact absurd hmode hm
    | suppress =>
      rw [hmode] at h2
      exact h2.2

/-- The events that reach the client, also when an operation fails. -/
def sentEvents : Except AnthropicOut AnthropicOut → List AnthropicEvent
  | .ok out | .error out => out.events

/-- Every run over a text that leaves no block open is well bracketed, for every way to cut the text
and every outcome of the final parse. -/
theorem anthropicRun_wellBracketed (think hasTools : Bool) (t : Bytes) (ps : List Bytes)
    (calls : List ToolCall) (finish : Bytes) (hps : Growing (ps ++ [t]))
    (hcond : BlocksClosed think hasTools t) :
    WellBracketed (sentEvents (anthropicRun think hasTools ps t calls finish)) := by
  have hinit : BlockInv think hasTools t (anthropicSseStartLive think hasTools) := by
    refine ⟨rfl, ?_⟩
    cases think with
    | true => exact ⟨rfl, .inl rfl, fun _ _ _ => Nat.zero_le _⟩
    | false => exact ⟨.inl rfl, fun _ => rfl, fun ht => hcond.content ht 0 rfl⟩
  obtain ⟨s', st, hst, hi, hrun⟩ := Growing.foldlM
    (f := fun st p => streamUpdate anthropicSink hasTools p false st)
    (I := fun _ => BlockInv think hasTools t)
    (fun s p st _ hpt hi => by
      obtain ⟨st', he, h1, -⟩ := streamUpdate_block false hpt (fun h => nomatch h) hcond hi
      exact ⟨st', he, h1⟩) hps hinit
  obtain ⟨st', he, h1, h2⟩ := streamUpdate_block true List.prefix_rfl (fun _ => rfl) hcond hi
  obtain ⟨st2, h3, h4⟩ := anthropicSseFinish_wellBracketed calls finish h1.1 (h2 rfl)
  rw [anthropicRun, streamUpdates, hrun]
  simp only [bind, Except.bind, anthropicSseFinishLive, anthropicSseStreamUpdate, he, h3]
  exact h4

/-- A complete call, cut inside its tag. -/
theorem anthropicRun_wellBracketed_call :
    WellBracketed (sentEvents (anthropicRun false true
      [lit "<tool_calls><invoke na"] (lit "<tool_calls><invoke name=\"f\"></invoke></tool_calls>") []
      (lit "tool_calls"))) := by
  refine anthropicRun_wellBracketed false true _ _ _ _ (by decide) ⟨fun h => (nomatch h), ?_⟩
  rintro - c rfl i - syn hsyn hp hfirst
  -- the text starts with the marker, so the first marker is at zero
  have hi : i = 0 := by
    by_contra hne
    exact hfirst (by decide) 0 (Nat.le_refl _) (Nat.pos_of_ne_zero hne)
      ⟨lit "<tool_calls>", by decide, by decide⟩
  subst hi
  revert hp
  revert syn
  decide +kernel

/-- Text that ends inside an invoke leaves a tool block open, and a marker without an end leaves the
thinking block open. -/
theorem open_block_at_stop :
    ¬ WellBracketed (sentEvents (anthropicRun false true [lit "<tool_calls><invoke name=\"f\">"]
      (lit "<tool_calls><invoke name=\"f\">") [] (lit "length"))) ∧
    ¬ WellBracketed (sentEvents (anthropicRun true true [] (lit "x<tool_calls>y") []
      (lit "stop"))) := by
  decide +kernel

end

end Ds4
