import Mathlib.Data.List.Find
import Ds4.Server.ToolParse

/-!
# The split of reasoning and content

What the final parser makes of a closed reasoning without a tool call after it. The closing tag is
looked for outside the wrappers of tool arguments, so a wrapper that the reasoning opens and does
not close hides it (`split_iff`).
-/

namespace Ds4
open C Scan

/-- The final parser returns the reasoning `R`, the content `C` and no calls. -/
def Splits (stx : ServerModelSyntax) (R C : Bytes) : Prop :=
  ∃ m, parseGeneratedMessageExForSyntax stx (R ++ lit "</think>" ++ C) true = some m ∧
    m.calls.v = [] ∧ m.reasoning = some R ∧ m.content = C

/-- Every wrapper that is met from the left outside the earlier ones is closed in the text. -/
def wrappersClosed (s : Bytes) : Bool :=
  match s with
  | [] => true
  | c :: s =>
    match toolWrappers.find? (·.1 <+: c :: s) with
    | none => wrappersClosed s
    | some (_, close) =>
      match find [ch '>'] (c :: s) with
      | none => false
      | some i =>
        match find close ((c :: s).drop (i + 1)) with
        | none => false
        | some k => wrappersClosed (s.drop (i + k + close.length))
termination_by s.length
decreasing_by all_goals (simp only [List.length_drop, List.length_cons]; omega)

/-- A reasoning with `<tool_call>` but none of the DSML start markers, and some end marker behind
that `<tool_call>`, in the reasoning or in the content. -/
def QuotesGlmCall (R C : Bytes) : Prop :=
  (∀ syn ∈ dsmlSyntaxes, ¬ syn.toolCallsStart <:+: R) ∧
  ∃ i, find glmToolSyntax.toolCallsStart R = some i ∧
    ∃ w ∈ anyToolEnds, w <:+: (R ++ lit "</think>" ++ C).drop i

/-! ## Markers around the closing tag -/

/-- A start marker: sharp, and not the start of a closing tag. -/
structure StartMarker (w : Bytes) : Prop where
  sharp : Sharp (ch '<') w
  open_ : ¬ lit "</" <+: w
  two : 2 ≤ w.length

instance (w : Bytes) : Decidable (StartMarker w) :=
  decidable_of_iff (Sharp (ch '<') w ∧ ¬ lit "</" <+: w ∧ 2 ≤ w.length)
    ⟨fun h => ⟨h.1, h.2.1, h.2.2⟩, fun h => ⟨h.sharp, h.open_, h.two⟩⟩

theorem startMarker_of_mem : ∀ w ∈ anyToolStarts, StartMarker w := by decide

theorem think_eq : lit "</think>" = ch '<' :: lit "/think>" := by decide

theorem think_append (s : Bytes) : lit "</think>" ++ s = ch '<' :: (lit "/think>" ++ s) := rfl

theorem think_sharp : Sharp (ch '<') (lit "</think>") := by decide

theorem StartMarker.not_think (hw : StartMarker w) : ¬ w <+: lit "</think>" ++ C := by
  intro hp
  apply hw.open_
  have h2 : lit "</" <+: lit "</think>" ++ C := (by decide : lit "</" <+: lit "</think>").trans
    (List.prefix_append _ _)
  exact List.prefix_of_prefix_length_le h2 hp (by have := hw.two; exact this)

/-- A start marker that the content does not hold stands in the reasoning. -/
theorem StartMarker.prefix_left (hw : StartMarker w) (hC : ¬ w <:+: C)
    (hp : w <+: (R ++ lit "</think>" ++ C).drop p) : w <+: R.drop p := by
  rw [List.append_assoc] at hp
  rcases Nat.lt_or_ge p R.length with hlt | hge
  · rw [List.drop_append_of_le_length hlt.le, think_eq, List.cons_append] at hp
    refine hw.sharp.prefix_left ?_ hp
    rw [ne_eq, List.drop_eq_nil_iff]
    omega
  · exfalso
    rw [List.drop_append, List.drop_eq_nil_of_le hge, List.nil_append] at hp
    generalize p - R.length = k at hp
    cases k with
    | zero => exact hw.not_think hp
    | succ k =>
      rw [think_eq, List.cons_append, List.drop_succ_cons] at hp
      have hk := hw.sharp.le_of_notMem (by decide) hp
      rw [List.drop_append, List.drop_eq_nil_of_le hk, List.nil_append] at hp
      exact hC (hp.isInfix.trans (List.drop_suffix _ _).isInfix)

/-! ## The search for the closing tag -/

/-- A text without the needle does not change what was found. -/
theorem findToolStructuralLoop_absent (h : ¬ needle <:+: s) :
    findToolStructuralLoop needle last pos found s = found := by
  have hdrop : ∀ {c : UInt8} {s : Bytes} n, ¬ needle <:+: c :: s → ¬ needle <:+: s.drop n :=
    fun n hn hi => hn (hi.trans ((List.drop_suffix n _).isInfix.trans (List.suffix_cons _ _).isInfix))
  have hhere : ∀ {c : UInt8} {s : Bytes}, ¬ needle <:+: c :: s → ¬ needle <+: c :: s :=
    fun hn hp => hn hp.isInfix
  fun_induction findToolStructuralLoop needle last pos found s with
  | case1 => rfl
  | case2 pos found c s here hl =>
    simp only [here, Bool.and_eq_true, decide_eq_true_eq] at hl
    exact absurd hl.1 (hhere h)
  | case3 pos found c s here _ found' _ ih =>
    rw [ih (hdrop 0 h)]
    simp [found', here, hhere h]
  | case4 pos found c s here _ found' => simp [found', here, hhere h]
  | case5 pos found c s here _ found' => simp [found', here, hhere h]
  | case6 pos found c s here _ found' _ _ _ _ _ _ _ ih =>
    rw [ih (hdrop _ h)]
    simp [found', here, hhere h]

theorem wrapper_sharp : ∀ w ∈ toolWrappers, Sharp (ch '<') w.1 ∧ Sharp (ch '<') w.2 := by decide

/-- The wrapper at the start of a nonempty text is the same with the closing tag behind it. -/
theorem find_wrapper_append : toolWrappers.find? (·.1 <+: c :: (s ++ (lit "</think>" ++ C))) =
    toolWrappers.find? (·.1 <+: c :: s) := by
  apply List.find?_congr
  intro w hw
  rw [decide_eq_decide, ← List.cons_append]
  refine ⟨fun h => ?_, fun h => h.trans (List.prefix_append _ _)⟩
  rw [think_append] at h
  exact (wrapper_sharp w hw).1.prefix_left (List.cons_ne_nil _ _) h

/-- No closing tag is left behind the one of the reasoning. -/
theorem not_think_drop (hC : ¬ lit "</think>" <:+: C) (hn : s.length < n) :
    ¬ lit "</think>" <:+: (s ++ (lit "</think>" ++ C)).drop n := by
  rw [List.drop_append, List.drop_eq_nil_of_le hn.le, List.nil_append]
  obtain ⟨k, hk⟩ := Nat.exists_eq_succ_of_ne_zero (Nat.sub_ne_zero_of_lt hn)
  rw [hk, think_eq, List.cons_append, List.drop_succ_cons, ← think_eq]
  intro hi
  have hi := hi.trans (List.drop_suffix k _).isInfix
  obtain ⟨a, b, hab⟩ := hi
  have hp : lit "</think>" <+: (lit "/think>" ++ C).drop a.length := by
    rw [← hab, List.append_assoc, List.drop_left]
    exact List.prefix_append _ _
  have hle := think_sharp.le_of_notMem (by decide) hp
  rw [List.drop_append, List.drop_eq_nil_of_le hle, List.nil_append] at hp
  exact hC (hp.isInfix.trans (List.drop_suffix _ _).isInfix)

/-- The closing tag is found exactly when no wrapper of the reasoning is left open. -/
theorem findToolStructuralLoop_think (hR : ¬ lit "</think>" <:+: R) (hC : ¬ lit "</think>" <:+: C) :
    findToolStructuralLoop (lit "</think>") true pos found (R ++ (lit "</think>" ++ C)) =
      if wrappersClosed R then some (pos + R.length) else found := by
  have hhere : ∀ {c : UInt8} {s : Bytes}, ¬ lit "</think>" <:+: c :: s →
      ¬ lit "</think>" <+: c :: (s ++ (lit "</think>" ++ C)) := by
    intro c s hn hp
    rw [think_append, ← List.cons_append] at hp
    exact hn (think_sharp.prefix_left (List.cons_ne_nil _ _) hp).isInfix
  fun_induction wrappersClosed R generalizing pos with
  | case1 =>
    have hw : toolWrappers.find? (·.1 <+: lit "</think>" ++ C) = none := by
      rw [List.find?_eq_none]
      intro w hw
      have hm : ∀ w ∈ toolWrappers, StartMarker w.1 := by decide
      simpa using (hm w hw).not_think
    rw [List.nil_append, if_pos rfl, think_eq, List.cons_append, findToolStructuralLoop.eq_def]
    simp only [← List.cons_append, ← think_eq, hw, List.prefix_append, decide_true, Bool.true_and]
    exact findToolStructuralLoop_absent (not_think_drop (s := []) hC Nat.zero_lt_one)
  | case2 c s hw ih =>
    rw [List.cons_append, findToolStructuralLoop.eq_def]
    simp only [decide_eq_false (hhere hR), find_wrapper_append, hw, Bool.false_and,
      Bool.false_eq_true, if_false]
    rw [ih fun h => hR (h.trans (List.suffix_cons _ _).isInfix), List.length_cons, Nat.add_assoc,
      Nat.add_comm 1]
  | case3 c s o close hw hgt =>
    rw [List.cons_append, findToolStructuralLoop.eq_def]
    simp only [decide_eq_false (hhere hR), find_wrapper_append, hw, Bool.false_and,
      Bool.false_eq_true, if_false]
    cases hgt' : find [ch '>'] (c :: (s ++ (lit "</think>" ++ C))) with
    | none => rfl
    | some i =>
      -- the wrapper's tag runs into the closing tag
      have hi : s.length < i := by
        by_contra hlt
        have : find [ch '>'] (c :: s) = some i :=
          find_prefix_of_le (by rw [← List.cons_append]; exact List.prefix_append _ _) hgt'
            (by simp only [List.length_cons, List.length_nil]; omega)
        rw [this] at hgt
        cases hgt
      simp only
      split
      · rfl
      · exact findToolStructuralLoop_absent (not_think_drop hC (by omega))
  | case4 c s o close hw i hgt hcl =>
    rw [List.cons_append, findToolStructuralLoop.eq_def]
    have hgt' : find [ch '>'] (c :: (s ++ (lit "</think>" ++ C))) = some i := by
      rw [← List.cons_append]
      exact find_append_of_some hgt
    have hile := find_le hgt
    simp only [List.length_cons, List.length_nil] at hile
    simp only [decide_eq_false (hhere hR), find_wrapper_append, hw, Bool.false_and,
      Bool.false_eq_true, if_false, hgt']
    split
    · rfl
    · next k hk =>
      -- the wrapper is closed in the content
      have hsharp := (wrapper_sharp _ (List.mem_of_find?_eq_some hw)).2
      rw [List.drop_succ_cons, List.drop_append_of_le_length (by omega), think_eq,
        List.cons_append, hsharp.find_append (by simpa using hcl)] at hk
      obtain ⟨j, -, rfl⟩ := Option.map_eq_some_iff.1 hk
      have hpos := List.length_pos_of_ne_nil hsharp.ne_nil
      apply findToolStructuralLoop_absent (not_think_drop hC _)
      rw [List.length_drop]
      simp only at hpos
      omega
  | case5 c s o close hw i hgt k hcl ih =>
    rw [List.cons_append, findToolStructuralLoop.eq_def]
    have hgt' : find [ch '>'] (c :: (s ++ (lit "</think>" ++ C))) = some i := by
      rw [← List.cons_append]
      exact find_append_of_some hgt
    have hile := find_le hgt
    have hkle := find_le hcl
    simp only [List.length_cons, List.length_nil, List.length_drop] at hile hkle
    have hcl' : find close ((c :: (s ++ (lit "</think>" ++ C))).drop (i + 1)) = some k := by
      rw [← List.cons_append, List.drop_append_of_le_length (by simp only [List.length_cons]; omega)]
      exact find_append_of_some hcl
    simp only [decide_eq_false (hhere hR), find_wrapper_append, hw, Bool.false_and,
      Bool.false_eq_true, if_false, hgt', hcl']
    rw [List.drop_append_of_le_length (by omega), ih fun h => hR (h.trans
      ((List.drop_suffix _ _).isInfix.trans (List.suffix_cons _ _).isInfix)), List.length_drop,
      List.length_cons]
    congr 2
    omega

theorem findToolStructuralText_think (hR : ¬ lit "</think>" <:+: R) (hC : ¬ lit "</think>" <:+: C) :
    findToolStructuralText (R ++ lit "</think>" ++ C) (lit "</think>") true =
      if wrappersClosed R then some R.length else none := by
  rw [findToolStructuralText, List.append_assoc, findToolStructuralLoop_think hR hC, Nat.zero_add]

/-! ## The message -/

/-- The split itself takes the first closing tag. -/
theorem splitReasoningContent_closed (hR : ¬ lit "</think>" <:+: R) (ho : ¬ lit "<think>" <+: R) :
    splitReasoningContent (R ++ lit "</think>" ++ C) (R ++ lit "</think>" ++ C).length =
      (C, some R) := by
  have hopen : ¬ lit "<think>" <+: R ++ lit "</think>" ++ C := by
    intro hp
    have hm : StartMarker (lit "<think>") := by decide
    rw [List.append_assoc] at hp
    cases R with
    | nil => exact hm.not_think hp
    | cons c R =>
      rw [think_append] at hp
      exact ho (hm.sharp.prefix_left (List.cons_ne_nil _ _) hp)
  have hfind : find (lit "</think>") (R ++ lit "</think>" ++ C) = some R.length :=
    think_sharp.find_at (find_eq_none_iff_absent.2 hR)
  have hlen : (lit "</think>").length = 8 := by decide
  rw [splitReasoningContent, List.take_length]
  simp only [dropThinkTag, if_neg hopen, hfind]
  rw [List.append_assoc, List.take_left, ← List.append_assoc, ← hlen, ← List.length_append,
    List.drop_left]

theorem deepseekBlockStart_eq_none :
    deepseekBlockStart s = none ↔ ∀ syn ∈ dsmlSyntaxes, ¬ syn.toolCallsStart <:+: s := by
  rw [deepseekBlockStart, List.findSome?_eq_none_iff]
  refine forall₂_congr fun syn _ => ?_
  rw [Option.map_eq_none_iff, Option.or_eq_none_iff, find_eq_none_iff_absent,
    find_eq_none_iff_absent]
  exact ⟨And.right, fun h => ⟨fun hi => h ((List.suffix_append _ _).isInfix.trans hi), h⟩⟩

/-- A block starts at a marker or at the empty line in front of it. -/
theorem deepseekBlockStart_some (h : deepseekBlockStart s = some (i, syn)) :
    syn ∈ dsmlSyntaxes ∧ ∃ p, i ≤ p ∧ syn.toolCallsStart <+: s.drop p := by
  obtain ⟨syn', hs, he⟩ := List.exists_of_findSome?_eq_some h
  obtain ⟨k, hk, he⟩ := Option.map_eq_some_iff.1 he
  cases he
  refine ⟨hs, ?_⟩
  rcases Option.or_eq_some_iff.1 hk with hk | ⟨-, hk⟩
  · obtain ⟨u, hu⟩ := (find_eq_some_iff.1 hk).1
    refine ⟨i + 2, Nat.le_add_right _ _, u, ?_⟩
    have hlen : (lit "\n\n").length = 2 := by decide
    rw [← List.drop_drop, ← hu, List.append_assoc, ← hlen, List.drop_left]
  · exact ⟨i, Nat.le_refl _, (find_eq_some_iff.1 hk).1⟩

/-- A reasoning that was given up for a tool block ends before the block. -/
theorem toolMessage_recovered_length (h : (toolMessage text true start raw calls).reasoning = some r) :
    r.length ≤ start := by
  have hle := trimToolSeparatorWs_le (s := text) (Nat.zero_le start)
  simp only [toolMessage, if_true, GeneratedMessage.of, ds4UnterminatedReasoningBeforeTool,
    Option.some.injEq] at h
  rw [← h]
  split
  · rw [List.length_take]
    omega
  · rw [List.length_take]
    omega

/-- The whole text taken for an unfinished reasoning. -/
theorem unterminated_ne : (ds4LocalUnterminatedReasoning (R ++ lit "</think>" ++ C)).2 ≠ some R := by
  intro h
  have hlen : (lit "</think>").length = 8 := by decide
  have h7 : (lit "<think>").length = 7 := by decide
  have := congrArg List.length (Option.some.inj h)
  rw [dropThinkTag] at this
  split at this
  · next hp =>
    simp only [List.length_drop, List.length_append, hlen] at this
    omega
  · simp only [List.length_append, hlen] at this
    omega

theorem findAnyToolEnd_isSome : (findAnyToolEnd s).isSome ↔ ∃ w ∈ anyToolEnds, w <:+: s := by
  rw [findAnyToolEnd, Option.isSome_map, ← not_iff_not, Bool.not_eq_true, Option.isSome_eq_false_iff,
    Option.isNone_iff_eq_none, findAny_eq_none_iff]
  simp only [id, find_eq_none_iff_absent, not_exists, not_and]

/-- What the DeepSeek parser does with a text whose closing tag is hidden. -/
theorem parseDeepseek_hidden (h : findToolStructuralText t (lit "</think>") true = none) :
    parseDeepseekGeneratedMessageEx t true =
      match findAnyToolStart t with
      | none => some (.of (ds4LocalUnterminatedReasoning t) ⟨[], none⟩)
      | some i =>
        if (findAnyToolEnd (t.drop i)).isSome then
          match deepseekBlockStart (t.drop i) with
          | none => some (.of (splitReasoningContent t t.length) ⟨[], none⟩)
          | some (j, syn) =>
            (deepseekParseBlock syn (t.drop (i + j))).map fun x =>
              toolMessage t true (i + j)
                ((t.drop (i + j)).take ((t.drop (i + j)).length - x.2.length)) x.1
        else some (.of (ds4LocalUnterminatedReasoning t) ⟨[], none⟩) := by
  simp only [parseDeepseekGeneratedMessageEx, toolSearchStart, if_true, h]
  cases findAnyToolStart t with
  | none => rfl
  | some i =>
    simp only
    cases (findAnyToolEnd (t.drop i)).isSome <;> rfl

section SplitIff

variable {R C : Bytes} (hR : ¬ lit "</think>" <:+: R) (ho : ¬ lit "<think>" <+: R)
  (hC : ¬ lit "</think>" <:+: C) (hm : ∀ w ∈ anyToolStarts, ¬ w <:+: C)

include hR ho hC hm in
/-- A reasoning with all its wrappers closed is split off, whatever the syntax. -/
theorem splits_of_wrappersClosed (h : wrappersClosed R = true) : Splits stx R C := by
  have hfind := findToolStructuralText_think hR hC
  rw [if_pos h] at hfind
  have hdrop : (R ++ lit "</think>" ++ C).drop (R.length + 8) = C := by
    have hlen : (lit "</think>").length = 8 := by decide
    rw [← hlen, ← List.length_append, List.drop_left]
  refine ⟨.of (C, some R) ⟨[], none⟩, ?_, rfl, rfl, rfl⟩
  rw [← splitReasoningContent_closed (C := C) hR ho]
  cases stx with
  | deepseek =>
    have hb : deepseekBlockStart C = none := deepseekBlockStart_eq_none.2 fun syn hs =>
      hm _ (List.mem_append_left _ (List.mem_map_of_mem hs))
    simp only [parseGeneratedMessageExForSyntax, parseDeepseekGeneratedMessageEx, toolSearchStart,
      if_true, hfind, hdrop, hb]
  | glm =>
    have hb : find glmToolSyntax.toolCallsStart C = none :=
      find_eq_none_iff_absent.2 (hm _ (by simp [anyToolStarts]))
    simp only [parseGeneratedMessageExForSyntax, parseGlmGeneratedMessageEx, toolSearchStart,
      if_true, hfind, hdrop, hb]

include hR hC in
/-- GLM never splits when a wrapper is left open: an unfinished reasoning is taken whole, and a
block in it gives a call. -/
theorem not_splits_glm (h : wrappersClosed R = false) : ¬ Splits .glm R C := by
  rintro ⟨m, hp, hcalls, hr, -⟩
  have hfind := findToolStructuralText_think hR hC
  rw [h, if_neg Bool.false_ne_true] at hfind
  simp only [parseGeneratedMessageExForSyntax, parseGlmGeneratedMessageEx, toolSearchStart,
    if_true, hfind] at hp
  cases hs : find glmToolSyntax.toolCallsStart (R ++ lit "</think>" ++ C) with
  | none =>
    rw [hs] at hp
    cases hp
    exact unterminated_ne hr
  | some i =>
    simp only [hs] at hp
    cases he : (find glmToolSyntax.toolCallsEnd ((R ++ lit "</think>" ++ C).drop i)).isSome with
    | false =>
      simp only [he, Bool.false_eq_true, if_false] at hp
      cases hp
      exact unterminated_ne hr
    | true =>
      have hi : find glmToolSyntax.toolCallsStart ((R ++ lit "</think>" ++ C).drop i) = some 0 :=
        find_prefix (find_eq_some_iff.1 hs).1
      simp only [he, if_true, hi] at hp
      split at hp
      · cases hp
      · split at hp
        · cases hp
        · next hne =>
          cases hp
          exact hne hcalls

include hR ho hC hm in
/-- DeepSeek splits by luck when a GLM call is quoted: the call makes it search for a block, and
without one it splits at the first closing tag after all. -/
theorem splits_deepseek_iff (h : wrappersClosed R = false) :
    Splits .deepseek R C ↔ QuotesGlmCall R C := by
  have hfind := findToolStructuralText_think hR hC
  rw [h, if_neg Bool.false_ne_true] at hfind
  have hleft : ∀ {w p}, w ∈ anyToolStarts → w <+: (R ++ lit "</think>" ++ C).drop p → w <+: R.drop p :=
    fun hw hp => (startMarker_of_mem _ hw).prefix_left (hm _ hw) hp
  have hwithin : ∀ {w p}, w <+: R.drop p → w <:+: R := fun hp =>
    hp.isInfix.trans (List.drop_suffix _ _).isInfix
  rw [Splits, parseGeneratedMessageExForSyntax, parseDeepseek_hidden hfind]
  constructor
  · rintro ⟨m, hp, -, hr, -⟩
    rw [findAnyToolStart] at hp
    cases hs : findAny id anyToolStarts (R ++ lit "</think>" ++ C) with
    | none =>
      rw [hs] at hp
      cases hp
      exact absurd hr unterminated_ne
    | some x =>
      obtain ⟨i, w⟩ := x
      simp only [hs, Option.map_some] at hp
      split at hp
      · next hend =>
        obtain ⟨hw, hwi, hmin⟩ := (findAny_eq_some_iff anyToolStarts_free).1 hs
        cases hb : deepseekBlockStart ((R ++ lit "</think>" ++ C).drop i) with
        | none =>
          -- no DSML marker behind the first marker, hence none at all
          have hno : ∀ syn ∈ dsmlSyntaxes, ¬ syn.toolCallsStart <:+: R := by
            rintro syn hsyn ⟨a, b, rfl⟩
            have hmem : syn.toolCallsStart ∈ anyToolStarts :=
              List.mem_append_left _ (List.mem_map_of_mem hsyn)
            have ho : syn.toolCallsStart <+:
                (a ++ syn.toolCallsStart ++ b ++ lit "</think>" ++ C).drop a.length := by
              simp only [List.append_assoc, List.drop_left]
              exact List.prefix_append _ _
            have hle : i ≤ a.length := by
              by_contra hlt
              exact hmin _ hmem _ (by omega) ho
            apply deepseekBlockStart_eq_none.1 hb syn hsyn
            rw [← Nat.add_sub_cancel' hle, ← List.drop_drop] at ho
            exact ho.isInfix.trans (List.drop_suffix _ _).isInfix
          have hwR := hleft hw hwi
          have hglm : w = glmToolSyntax.toolCallsStart := by
            rcases List.mem_append.1 hw with hd | hg
            · obtain ⟨syn, hsyn, rfl⟩ := List.mem_map.1 hd
              exact absurd (hwithin hwR) (hno syn hsyn)
            · exact List.mem_singleton.1 hg
          subst hglm
          refine ⟨hno, i, find_eq_some_iff.2 ⟨hwR, fun j hj hjR => hmin _ hw j hj ?_⟩,
            findAnyToolEnd_isSome.1 hend⟩
          have hjlen : j ≤ R.length := by
            have := hwR.length_le
            have hpos : 0 < glmToolSyntax.toolCallsStart.length := by decide
            rw [List.length_drop] at this
            omega
          rw [List.append_assoc, List.drop_append_of_le_length hjlen]
          exact hjR.trans (List.prefix_append _ _)
        | some x =>
          -- the reasoning would end before the block
          obtain ⟨j, syn⟩ := x
          rw [hb] at hp
          obtain ⟨y, -, rfl⟩ := Option.map_eq_some_iff.1 hp
          obtain ⟨hsyn, q, hq, hqs⟩ := deepseekBlockStart_some hb
          rw [List.drop_drop] at hqs
          have hqR := hleft (List.mem_append_left _ (List.mem_map_of_mem hsyn)) hqs
          have hlen := hqR.length_le
          have hpos := (startMarker_of_mem _
            (List.mem_append_left _ (List.mem_map_of_mem hsyn))).two
          have := toolMessage_recovered_length hr
          rw [List.length_drop] at hlen
          omega
      · cases hp
        exact absurd hr unterminated_ne
  · rintro ⟨hno, i, hi, hend⟩
    have hnoD : ∀ {syn p}, syn ∈ dsmlSyntaxes →
        ¬ syn.toolCallsStart <+: (R ++ lit "</think>" ++ C).drop p := fun hsyn hp =>
      hno _ hsyn (hwithin (hleft (List.mem_append_left _ (List.mem_map_of_mem hsyn)) hp))
    have hs : findAny id anyToolStarts (R ++ lit "</think>" ++ C) =
        some (i, glmToolSyntax.toolCallsStart) := by
      rw [findAny_eq_some_iff anyToolStarts_free]
      refine ⟨by simp [anyToolStarts], ?_, fun y hy j hj hyj => ?_⟩
      · have hle := find_le hi
        rw [List.append_assoc, List.drop_append_of_le_length (by omega)]
        exact (find_eq_some_iff.1 hi).1.trans (List.prefix_append _ _)
      · rcases List.mem_append.1 hy with hd | hg
        · obtain ⟨syn, hsyn, rfl⟩ := List.mem_map.1 hd
          exact hnoD hsyn hyj
        · cases List.mem_singleton.1 hg
          exact (find_eq_some_iff.1 hi).2 j hj (hleft hy hyj)
    have hb : deepseekBlockStart ((R ++ lit "</think>" ++ C).drop i) = none := by
      rw [deepseekBlockStart_eq_none]
      rintro syn hsyn ⟨a, b, hab⟩
      apply hnoD (p := i + a.length) hsyn
      rw [← List.drop_drop, ← hab, List.append_assoc, List.drop_left]
      exact List.prefix_append _ _
    refine ⟨.of (C, some R) ⟨[], none⟩, ?_, rfl, rfl, rfl⟩
    rw [findAnyToolStart, hs]
    simp only [Option.map_some, findAnyToolEnd_isSome.2 hend, if_true, hb,
      splitReasoningContent_closed hR ho]

end SplitIff

/-- A closed reasoning in front of a content without markers is split off exactly when the
reasoning closes every argument wrapper that it opens, or quotes a GLM call to the DeepSeek
parser. -/
theorem split_iff (stx : ServerModelSyntax) (R C : Bytes) (hR : ¬ lit "</think>" <:+: R)
    (ho : ¬ lit "<think>" <+: R) (hC : ¬ lit "</think>" <:+: C)
    (hm : ∀ w ∈ anyToolStarts, ¬ w <:+: C) :
    Splits stx R C ↔ wrappersClosed R = true ∨ stx = .deepseek ∧ QuotesGlmCall R C := by
  cases h : wrappersClosed R with
  | true => exact ⟨fun _ => .inl rfl, fun _ => splits_of_wrappersClosed hR ho hC hm h⟩
  | false =>
    cases stx with
    | deepseek =>
      rw [splits_deepseek_iff hR ho hC hm h]
      simp
    | glm => simp [not_splits_glm hR hC h]

/-- A reasoning that closes the wrapper it mentions. -/
theorem closed_wrapper_splits : Splits .glm (lit "<arg_key>k</arg_key>") (lit "Answer") := by
  refine (split_iff .glm (lit "<arg_key>k</arg_key>") (lit "Answer") (by decide) (by decide)
    (by decide) (by decide)).2 (.inl ?_)
  rw [wrappersClosed.eq_def]
  show wrappersClosed [] = true
  rw [wrappersClosed]

/-- A mere mention of a wrapper: the answer is lost, and the reasoning holds all of it. -/
theorem mentioned_wrapper_hides_answer :
    parseGeneratedMessageExForSyntax .deepseek (lit "<arg_key>" ++ lit "</think>" ++ lit "Answer")
      true = some ⟨[], some (lit "<arg_key></think>Answer"), ⟨[], none⟩⟩ ∧
    ∀ stx, ¬ ∀ R C, ¬ lit "</think>" <:+: R → ¬ lit "<think>" <+: R → ¬ lit "</think>" <:+: C →
      (∀ w ∈ anyToolStarts, ¬ w <:+: C) → Splits stx R C := by
  have hopen : wrappersClosed (lit "<arg_key>") = false := by
    rw [wrappersClosed.eq_def]
    rfl
  have hfind := findToolStructuralText_think (R := lit "<arg_key>") (C := lit "Answer") (by decide)
    (by decide)
  rw [hopen, if_neg Bool.false_ne_true] at hfind
  constructor
  · rw [parseGeneratedMessageExForSyntax, parseDeepseek_hidden hfind]
    rfl
  · intro stx h
    have h := h (lit "<arg_key>") (lit "Answer") (by decide) (by decide) (by decide) (by decide)
    cases stx with
    | glm => exact not_splits_glm (by decide) (by decide) hopen h
    | deepseek =>
      rw [splits_deepseek_iff (by decide) (by decide) (by decide) (by decide) hopen] at h
      obtain ⟨-, i, hi, -⟩ := h
      have hnone : find glmToolSyntax.toolCallsStart (lit "<arg_key>") = none := by decide
      rw [hnone] at hi
      cases hi

end Ds4
