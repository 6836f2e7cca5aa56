import Ds4.Server.InvokeText
import Ds4.Server.Reasoning

/-!
# The repair of a truncated block

`try_repair_dsml`: the closing tags of the outer wrapper that a generated text lacks. Its calls are then complete
in the text itself (`repair_calls`).
-/

namespace Ds4
open C Scan

structure TagCounts where
  tos : Nat
  toe : Nat
  ios : Nat
  ioe : Nat
  pos : Nat
  poe : Nat
  deriving DecidableEq, Repr

/-- The single pass over the text. A tag that was counted is skipped. -/
def countTags (syn : DsmlSyntax) (n : TagCounts) (p : Bytes) : TagCounts :=
  match p with
  | [] => n
  | c :: p =>
    if syn.toolCallsStart <+: c :: p then
      countTags syn { n with tos := n.tos + 1 } (p.drop (syn.toolCallsStart.length - 1))
    else if syn.toolCallsEnd <+: c :: p then
      countTags syn { n with toe := n.toe + 1 } (p.drop (syn.toolCallsEnd.length - 1))
    else if syn.invokeStart <+: c :: p then
      countTags syn { n with ios := n.ios + 1 } (p.drop (syn.invokeStart.length - 1))
    else if syn.invokeEnd <+: c :: p then
      countTags syn { n with ioe := n.ioe + 1 } (p.drop (syn.invokeEnd.length - 1))
    else if syn.paramStart <+: c :: p then
      countTags syn { n with pos := n.pos + 1 } (p.drop (syn.paramStart.length - 1))
    else if syn.paramEnd <+: c :: p then
      countTags syn { n with poe := n.poe + 1 } (p.drop (syn.paramEnd.length - 1))
    else countTags syn n p
termination_by p.length
decreasing_by all_goals (simp only [List.length_drop, List.length_cons]; omega)

/-- The text from the last `</think>` on. -/
def repairScanStart (s : Bytes) : Bytes :=
  match findToolStructuralText s (lit "</think>") true with
  | some i => s.drop (i + 8)
  | none => s

/-- `n` copies of a closing tag. -/
def repeatTag (tag : Bytes) (n : Nat) : Bytes := (List.replicate n tag).flatten

/-- The alphabet is that of the first start marker, in the order of preference. -/
def tryRepairDsml (s : Bytes) : Option Bytes :=
  if s = [] then none
  else
    let scanStart := repairScanStart s
    match dsmlSyntaxes.find? fun syn => (find syn.toolCallsStart scanStart).isSome with
    | none => none
    | some syn =>
      let n := countTags syn ⟨0, 0, 0, 0, 0, 0⟩ scanStart
      if n.ios ≠ n.ioe ∨ n.pos ≠ n.poe then none
      else if n.tos = n.toe then none
      -- extra closing tags are no truncation
      else if n.toe > n.tos ∨ n.ioe > n.ios ∨ n.poe > n.pos then none
      else some (s ++ repeatTag syn.toolCallsEnd (n.tos - n.toe))

theorem tryRepairDsml_some {s r : Bytes} (h : tryRepairDsml s = some r) :
    ∃ syn ∈ dsmlSyntaxes, ∃ n, r = s ++ repeatTag syn.toolCallsEnd n := by
  rw [tryRepairDsml] at h
  split at h
  · cases h
  dsimp only at h
  split at h
  · cases h
  next syn hsyn =>
  split at h
  · cases h
  split at h
  · cases h
  split at h
  · cases h
  cases h
  exact ⟨syn, List.mem_of_find?_eq_some hsyn, _, rfl⟩

/-! ## Closing tags behind a text -/

/-- A search does not see what is put behind the text when no occurrence reaches into it. -/
theorem find_append_eq {w s t : Bytes} (h : ∀ p, w <+: (s ++ t).drop p → w <+: s.drop p) :
    find w (s ++ t) = find w s := by
  cases hs : find w s with
  | some i => exact find_append_of_some hs
  | none => exact find_eq_none_iff.mpr fun p hp => find_eq_none_iff.mp hs p (h p hp)

/-- A sharp word that a tag does not hold is not found across its start either. -/
theorem occurs_append_tag {w tag s : Bytes} {p : Nat} (hw : Sharp (ch '<') w) (htag : Sharp (ch '<') tag)
    (hno : find w tag = none) (h : w <+: (s ++ tag).drop p) : w <+: s.drop p := by
  obtain ⟨tl, rfl, -⟩ := htag
  rcases Nat.lt_or_ge p s.length with hlt | hge
  · rw [List.drop_append_of_le_length hlt.le] at h
    refine hw.prefix_left (fun hnil => ?_) h
    rw [List.drop_eq_nil_iff] at hnil
    omega
  · rw [List.drop_append, List.drop_eq_nil_of_le hge, List.nil_append] at h
    exact absurd h (find_eq_none_iff.mp hno _)

/-- A sharp word that the tag does not hold. -/
def Foreign (tag w : Bytes) : Prop := Sharp (ch '<') w ∧ find w tag = none

instance (tag w : Bytes) : Decidable (Foreign tag w) :=
  inferInstanceAs (Decidable (Sharp (ch '<') w ∧ find w tag = none))

theorem foreign_of_mem : ∀ syn ∈ dsmlSyntaxes, ∀ syn' ∈ dsmlSyntaxes,
    Foreign syn.toolCallsEnd syn'.toolCallsStart ∧ Foreign syn.toolCallsEnd syn'.invokeEnd := by decide

section
variable {tag : Bytes} (htag : Sharp (ch '<') tag) {n : Nat}
include htag

theorem Foreign.occurs {w s : Bytes} {p : Nat} (hw : Foreign tag w)
    (h : w <+: (s ++ repeatTag tag n).drop p) : w <+: s.drop p := by
  induction n with
  | zero => simpa [repeatTag] using h
  | succ n ih =>
    rw [repeatTag, List.replicate_succ', List.flatten_append, ← List.append_assoc, List.flatten_singleton] at h
    exact ih (occurs_append_tag hw.1 htag hw.2 h)

theorem Foreign.find_eq {w s : Bytes} (hw : Foreign tag w) : find w (s ++ repeatTag tag n) = find w s :=
  find_append_eq fun _ => hw.occurs htag

end

/-! ## The calls of the text -/

theorem ParamsText.suffix {syn : DsmlSyntax} {args w args' : Bytes} (h : ParamsText syn args w args') :
    syn.invokeEnd <:+ w := by
  induction h with
  | done => exact List.suffix_append _ _
  | leaf _ _ _ _ _ _ ih =>
    exact ih.trans <| ((List.suffix_append _ _).trans (List.suffix_append _ _)).trans <|
      (List.suffix_append _ _).trans (List.suffix_append _ _)
  | object _ _ _ _ ih =>
    exact ih.trans <| ((List.suffix_append _ _).trans (List.suffix_append _ _)).trans <|
      (List.suffix_append _ _).trans (List.suffix_append _ _)
  | openObject => exact ((List.suffix_append _ _).trans (List.suffix_append _ _)).trans (List.suffix_append _ _)

/-- The last tag of a row of invokes closes the last one. -/
theorem InvokesText.suffix {syn : DsmlSyntax} {w : Bytes} {calls : List ToolCall} (h : InvokesText syn w calls)
    (hne : w ≠ []) : syn.invokeEnd <:+ w := by
  induction h with
  | nil => exact absurd rfl hne
  | @cons a v w tc calls _ hv _ ih =>
    by_cases hw : w = []
    · obtain ⟨-, -, hparams⟩ := hv
      rw [hw, List.append_nil]
      exact (hparams.suffix.trans (List.suffix_append _ _)).trans (List.suffix_append _ _)
    · exact ((ih hw).trans (List.suffix_append _ _)).trans (List.suffix_append _ _)

/-- Closing tags behind a block do not add a call: the calls are a row of invokes in the block itself. -/
theorem dsmlParseInvokes_repeatTag {syn : DsmlSyntax} (hsyn : syn ∈ dsmlSyntaxes) {tag : Bytes}
    (htag : Sharp (ch '<') tag) (hend : Foreign tag syn.invokeEnd) {n : Nat} {p q : Bytes} {calls : List ToolCall}
    (h : dsmlParseInvokes syn (p ++ repeatTag tag n) = some (calls, q)) :
    ∃ w b, p = w ++ b ∧ InvokesText syn w calls := by
  obtain ⟨w, b, heq, hw, -⟩ := dsmlParseInvokes_sound hsyn h
  have hlen : w.length ≤ p.length := by
    by_cases hne : w = []
    · rw [hne]
      exact Nat.zero_le _
    · obtain ⟨u, rfl⟩ := hw.suffix hne
      have hocc : syn.invokeEnd <+: (p ++ repeatTag tag n).drop u.length := by
        rw [heq, List.append_assoc, List.drop_left]
        exact List.prefix_append _ _
      have hle := (hend.occurs htag hocc).length_le
      have hpos := List.length_pos_of_ne_nil hend.1.ne_nil
      rw [List.length_drop] at hle
      rw [List.length_append]
      omega
  obtain ⟨b', rfl⟩ : w <+: p := List.prefix_of_prefix_length_le ⟨_, heq.symm⟩ (List.prefix_append _ _) hlen
  exact ⟨w, b', rfl, hw⟩

/-- The calls of a text whose tool block is known. -/
theorem parseDeepseek_block {text : Bytes} {req recovered : Bool} {toolSearch i : Nat} {syn : DsmlSyntax}
    {msg : GeneratedMessage} (h : parseDeepseekGeneratedMessageEx text req = some msg)
    (hsearch : toolSearchStart findAnyToolStart findAnyToolEnd text req = some (toolSearch, recovered))
    (hstart : deepseekBlockStart (text.drop toolSearch) = some (i, syn)) :
    ∃ k q, find syn.toolCallsStart (text.drop (toolSearch + i)) = some k ∧
      dsmlParseInvokes syn ((text.drop (toolSearch + i)).drop (k + syn.toolCallsStart.length)) =
        some (msg.calls.v, q) := by
  rw [parseDeepseekGeneratedMessageEx, hsearch] at h
  dsimp only at h
  rw [hstart] at h
  obtain ⟨x, hx, rfl⟩ := Option.map_eq_some_iff.mp h
  rw [deepseekParseBlock] at hx
  split at hx
  · cases hx
  next k hk => exact ⟨k, x.2, hk, hx⟩

/-- The calls are a row of invokes of `t`, in the tool block that the parser finds in `r`. They come first in every
longer text with its tool block at that place. -/
def CompleteIn (t r : Bytes) (req : Bool) (calls : List ToolCall) : Prop :=
  ∃ toolSearch recovered i syn front w b,
    toolSearchStart findAnyToolStart findAnyToolEnd r req = some (toolSearch, recovered) ∧
    deepseekBlockStart (r.drop toolSearch) = some (i, syn) ∧
    t = front ++ (syn.toolCallsStart ++ (w ++ b)) ∧ toolSearch + i ≤ front.length ∧ InvokesText syn w calls ∧
    ∀ x req' recovered' msg,
      toolSearchStart findAnyToolStart findAnyToolEnd (t ++ x) req' = some (toolSearch, recovered') →
      deepseekBlockStart ((t ++ x).drop toolSearch) = some (i, syn) →
      parseDeepseekGeneratedMessageEx (t ++ x) req' = some msg → calls <+: msg.calls.v

/-- A repair makes no call that was not complete in the text. -/
theorem repair_calls (t r : Bytes) (req : Bool) (msg : GeneratedMessage) (hrepair : tryRepairDsml t = some r)
    (hparse : parseDeepseekGeneratedMessageEx r req = some msg) :
    (∃ syn ∈ dsmlSyntaxes, ∃ n, r = t ++ repeatTag syn.toolCallsEnd n) ∧
      (msg.calls.v = [] ∨ CompleteIn t r req msg.calls.v) := by
  have hclosed := tryRepairDsml_some hrepair
  refine ⟨hclosed, ?_⟩
  obtain ⟨syn', hsyn', n, rfl⟩ := hclosed
  have htag := syn'.sharp_mem.2.1
  cases hsearch : toolSearchStart findAnyToolStart findAnyToolEnd (t ++ repeatTag syn'.toolCallsEnd n) req with
  | none =>
    rw [parseDeepseekGeneratedMessageEx, hsearch] at hparse
    cases hparse
    exact .inl rfl
  | some y =>
  obtain ⟨toolSearch, recovered⟩ := y
  cases hstart : deepseekBlockStart ((t ++ repeatTag syn'.toolCallsEnd n).drop toolSearch) with
  | none =>
    rw [parseDeepseekGeneratedMessageEx, hsearch] at hparse
    dsimp only at hparse
    rw [hstart] at hparse
    cases hparse
    exact .inl rfl
  | some y =>
  obtain ⟨i, syn⟩ := y
  obtain ⟨hsyn, j, hij, hj⟩ := deepseekBlockStart_some hstart
  obtain ⟨hforeign, hend⟩ := foreign_of_mem syn' hsyn' syn hsyn
  -- the block starts in the text, since the closing tags hold no start marker
  have hlen : toolSearch + i ≤ t.length := by
    rw [List.drop_drop] at hj
    have hle := (hforeign.occurs htag hj).length_le
    have hpos := List.length_pos_of_ne_nil hforeign.1.ne_nil
    rw [List.length_drop] at hle
    omega
  have hdrop : ∀ x, (t ++ x).drop (toolSearch + i) = t.drop (toolSearch + i) ++ x := fun x =>
    List.drop_append_of_le_length hlen
  obtain ⟨k, q, hk, hcalls⟩ := parseDeepseek_block hparse hsearch hstart
  rw [hdrop, hforeign.find_eq htag] at hk
  obtain ⟨u, hu, hudrop, hkle⟩ := find_split hk
  rw [hdrop, List.drop_append_of_le_length hkle, hudrop] at hcalls
  obtain ⟨w, b, rfl, hw⟩ := dsmlParseInvokes_repeatTag hsyn htag hend hcalls
  refine .inr ⟨toolSearch, recovered, i, syn, t.take (toolSearch + i) ++ (t.drop (toolSearch + i)).take k, w, b, hsearch,
    hstart, ?_, ?_, hw, ?_⟩
  · rw [List.append_assoc, ← List.append_assoc _ syn.toolCallsStart, ← hu, List.take_append_drop]
  · rw [List.length_append, List.length_take, Nat.min_eq_left hlen]
    exact Nat.le_add_right _ _
  · intro x req' recovered' msg' hsearch' hstart' hparse'
    obtain ⟨k', q', hk', hcalls'⟩ := parseDeepseek_block hparse' hsearch' hstart'
    rw [hdrop] at hk' hcalls'
    cases (find_append_of_some hk).symm.trans hk'
    rw [List.drop_append_of_le_length hkle, hudrop, List.append_assoc, hw.read hsyn] at hcalls'
    obtain ⟨y, -, heq⟩ := Option.map_eq_some_iff.mp hcalls'
    exact ⟨y.1, (Prod.mk.inj heq).1⟩

/-- A call without its outer closing tag. -/
def truncatedCall : Bytes := lit "<tool_calls><invoke name=\"a\"></invoke>"

theorem repair_calls_truncatedCall :
    CompleteIn truncatedCall (truncatedCall ++ lit "</tool_calls>") false
      [⟨some (lit "a"), some (lit "\x7b\x7d")⟩] :=
  (repair_calls truncatedCall _ false
    ⟨[], none, [⟨some (lit "a"), some (lit "\x7b\x7d")⟩], some (truncatedCall ++ lit "</tool_calls>")⟩
    (by decide +kernel) (by decide +kernel)).2.resolve_left (List.cons_ne_nil _ _)

/-- A later marker of a preferred alphabet takes the place of the block. A closing tag anywhere in the text stands in
for the one that an object of parameters lacks. -/
theorem repair_other_block :
    (parseDeepseekGeneratedMessageEx truncatedCall false = none ∧
      tryRepairDsml truncatedCall = some (truncatedCall ++ lit "</tool_calls>") ∧
      (parseDeepseekGeneratedMessageEx (truncatedCall ++ lit "</tool_calls>") false).map (·.calls.v) =
        some [⟨some (lit "a"), some (lit "\x7b\x7d")⟩] ∧
      (parseDeepseekGeneratedMessageEx
        (truncatedCall ++ lit "\n\n<｜DSML｜tool_calls></｜DSML｜tool_calls>") false).map (·.calls.v) = some []) ∧
    let t := lit "</parameter><tool_calls><invoke name=\"f\"><parameter name=\"o\">" ++
      lit "<parameter name=\"a\" string=\"true\">v</parameter></invoke>"
    parseDeepseekGeneratedMessageEx t false = none ∧ tryRepairDsml t = some (t ++ lit "</tool_calls>") ∧
      (parseDeepseekGeneratedMessageEx (t ++ lit "</tool_calls>") false).map (·.calls.v) =
        some [⟨some (lit "f"), some (lit "\x7b\"o\": \x7b\"a\":\"v\"\x7d\x7d")⟩] := by
  decide +kernel

end Ds4
