import Ds4.Server.AnthropicContent

/-!
# Tool results under the GLM renderer

`append_glm_tool_result_message` finds the blocks of an Anthropic user message again by searching
its content for `<tool_result>` tags. Text between the tags is all that it keeps, and the bodies are
escaped a second time (`blocks_survive_iff`).
-/

namespace Ds4
open C Scan

/-! ## The blocks of a user message -/

/-- What a client sends in a user message, images apart. -/
inductive UserBlock
  | text (t : Bytes)
  | result (id : Option Bytes) (t : Bytes)
  deriving DecidableEq, Repr

def UserBlock.texts (bs : List UserBlock) : List Bytes :=
  bs.filterMap fun | .text t => some t | .result _ _ => none

def UserBlock.results (bs : List UserBlock) : List Bytes :=
  bs.filterMap fun | .text _ => none | .result _ t => some t

/-- How a block stands in the content of the message. -/
def UserBlock.content : UserBlock → Bytes
  | .text t => t
  | .result _ t =>
    lit "<tool_result>" ++ escapeToolText (lit "</tool_result>") t ++ lit "</tool_result>"

section
variable {Img : Type} (push : List Img → Option Bytes → Option Bytes → Option (List Img × Bytes))

/-- An element of the content array as a block; `none` for anything else than a text or a result. -/
def AnthropicItem.user : AnthropicItem → Option UserBlock
  | .text s => some (.text s)
  | .other => none
  | .block b =>
    if b.type = some (lit "text") then b.text.map .text
    else if b.type = some (lit "tool_result") then
      (parseAnthropicNested push (b.toolResult.getD (lit "\"\""))).map fun n =>
        .result b.id (orEmpty n.content)
    else none

/-- The blocks of a content array of texts and tool results. -/
def userBlocks (p : Bytes) : Option (List UserBlock) :=
  if (skipSpace p).head? = some (ch '[') then
    (anthropicItems ((skipSpace p).drop 1)).bind fun x => x.1.mapM (AnthropicItem.user push)
  else none

variable {push}

/-- What the blocks of a user message make of it. -/
structure Collected (m m' : AnthropicMsg Img) (bs : List UserBlock) : Prop where
  content : orEmpty m'.content = orEmpty m.content ++ bs.flatMap UserBlock.content
  ids : m'.toolCallIds = [] ↔ m.toolCallIds = [] ∧ ∀ id t, .result id t ∈ bs → orEmpty id = []

theorem Collected.trans (h : Collected m m' bs) (h' : Collected m' m'' bs') :
    Collected m m'' (bs ++ bs') := by
  constructor
  · rw [h'.content, h.content, List.append_assoc, List.flatMap_append]
  · rw [h'.ids, h.ids]
    simp only [List.mem_append]
    constructor
    · rintro ⟨⟨hm, h1⟩, h2⟩
      exact ⟨hm, fun id t ht => ht.elim (h1 id t) (h2 id t)⟩
    · rintro ⟨hm, h1⟩
      exact ⟨⟨hm, fun id t ht => h1 id t (.inl ht)⟩, fun id t ht => h1 id t (.inr ht)⟩

theorem addToolCallId_eq_nil {m : AnthropicMsg Img} {id : Option Bytes} :
    (m.addToolCallId id).toolCallIds = [] ↔ m.toolCallIds = [] ∧ orEmpty id = [] := by
  rw [AnthropicMsg.addToolCallId]
  split
  · next h =>
    refine ⟨fun hm => ⟨hm, h.resolve_right fun h => ?_⟩, fun h => h.1⟩
    rw [hm] at h
    cases h
  · next h => simp [(not_or.1 h).1]

theorem addAnthropicItem_user (m : AnthropicMsg Img) (h : AnthropicItem.user push item = some b) :
    ∃ m', addAnthropicItem (addAnthropicBlock push (parseAnthropicNested push) true) m item =
      some m' ∧ Collected m m' [b] := by
  cases item with
  | text s =>
    cases h
    exact ⟨_, rfl, by simp [AnthropicMsg.appendContent, orEmpty, UserBlock.content],
      by simp [AnthropicMsg.appendContent]⟩
  | other => cases h
  | block blk =>
    rw [AnthropicItem.user] at h
    split at h
    · next ht =>
      obtain ⟨t, htext, rfl⟩ := Option.map_eq_some_iff.1 h
      have h1 : lit "text" ≠ lit "tool_use" := by decide
      have h2 : lit "text" ≠ lit "tool_result" := by decide
      have h3 : lit "text" ≠ lit "image" := by decide
      simp only [addAnthropicItem, addAnthropicBlock, ht, htext, Option.some.injEq, h1, h2, h3,
        ne_eq, not_true_eq_false, false_and, and_false, if_false]
      refine ⟨_, rfl, ?_, ?_⟩ <;> cases blk.thinking <;>
        simp [AnthropicMsg.appendContent, orEmpty, UserBlock.content]
    split at h
    · next ht =>
      obtain ⟨n, hn, rfl⟩ := Option.map_eq_some_iff.1 h
      have h1 : lit "tool_result" ≠ lit "tool_use" := by decide
      simp only [addAnthropicItem, addAnthropicBlock, ht, hn, Option.some.injEq, h1,
        not_true_eq_false, false_and, if_false, if_true, Option.map_some]
      refine ⟨_, rfl, ?_, ?_⟩
      · simp only [AnthropicMsg.appendContent, List.flatMap_singleton, UserBlock.content,
          AnthropicMsg.addToolCallId, appendToolResultText]
        split <;> rfl
      · simp only [AnthropicMsg.appendContent, addToolCallId_eq_nil, List.mem_singleton,
          UserBlock.result.injEq]
        constructor
        · rintro ⟨hm, hid⟩
          exact ⟨hm, fun id t he => he.1 ▸ hid⟩
        · exact fun ⟨hm, hid⟩ => ⟨hm, hid _ _ ⟨rfl, rfl⟩⟩
    · cases h

theorem foldlM_user {items : List AnthropicItem} (m : AnthropicMsg Img) (h : items.mapM (AnthropicItem.user push) = some bs) :
    ∃ m', items.foldlM (addAnthropicItem (addAnthropicBlock push (parseAnthropicNested push) true))
      m = some m' ∧ Collected m m' bs := by
  induction items generalizing m bs with
  | nil =>
    cases h
    exact ⟨m, rfl, by simp, by simp⟩
  | cons item items ih =>
    rw [List.mapM_cons] at h
    obtain ⟨b, hb, h⟩ := Option.bind_eq_some_iff.1 h
    obtain ⟨bs', hbs, h⟩ := Option.bind_eq_some_iff.1 h
    cases h
    obtain ⟨m1, h1, hc1⟩ := addAnthropicItem_user m hb
    obtain ⟨m2, h2, hc2⟩ := ih m1 hbs
    refine ⟨m2, ?_, hc1.trans hc2⟩
    rw [List.foldlM_cons, h1]
    exact h2

/-- A content array of texts and tool results is accepted, and becomes one string. -/
theorem parseAnthropicContent_user (h : userBlocks push p = some bs) :
    ∃ m rest, parseAnthropicContent push p .empty = some (m, rest) ∧
      m.content = some (bs.flatMap UserBlock.content) ∧
        (m.toolCallIds = [] ↔ ∀ id t, .result id t ∈ bs → orEmpty id = []) := by
  rw [userBlocks] at h
  split at h
  · next hh =>
    obtain ⟨⟨items, rest⟩, hi, h⟩ := Option.bind_eq_some_iff.1 h
    obtain ⟨m, hm, hc⟩ := foldlM_user .empty h
    have hq : some (ch '[') ≠ some (ch '"') := by decide
    have hnull : jsonLit (skipSpace p) (lit "null") = none := by
      rw [jsonLit, if_neg]
      intro hp
      obtain ⟨t, ht⟩ := hp
      rw [← ht] at hh
      change some (ch 'n') = _ at hh
      exact absurd hh (by decide)
    refine ⟨{ m with content := some (orEmpty m.content) }, rest, ?_, ?_, ?_⟩
    · simp only [parseAnthropicContent, parseAnthropicContentWith, hh, if_neg hq, hnull, ne_eq,
        not_true_eq_false, if_false, hi, Option.bind_some, hm, Option.map_some]
    · rw [hc.content]
      rfl
    · rw [hc.ids]
      simp [AnthropicMsg.empty]
  · cases h

end

/-! ## What a reader finds in the prompt -/

/-- The first section: the text before it, its body, and what follows it. -/
def nextToolResponse (r : Bytes) : Option (Bytes × Bytes × Bytes) :=
  (find (lit "<tool_response>") r).bind fun i =>
    let b := r.drop (i + 15)
    (find (lit "</tool_response>") b).map fun j => (r.take i, b.take j, b.drop (j + 16))

/-- Texts that stand in another text, one behind the other. -/
inductive TextsIn : List Bytes → Bytes → Prop
  | nil : TextsIn [] g
  | cons : TextsIn ts g → TextsIn (t :: ts) (a ++ (t ++ g))

/-- The blocks as a reader of the prompt finds them: one section for every result, with its text as
the unescaped body, and the texts of the message around the sections, all in order. -/
inductive Survives : List UserBlock → Bytes → Prop
  | last : nextToolResponse r = none → TextsIn ts r → Survives (ts.map .text) r
  | next {id : Option Bytes} : nextToolResponse r = some (g, b, r') → TextsIn ts g →
      ds4ToolTextUnescape b (lit "</tool_response>") = t → Survives bs r' →
        Survives (ts.map .text ++ .result id t :: bs) r

theorem texts_append (bs bs' : List UserBlock) :
    UserBlock.texts (bs ++ bs') = UserBlock.texts bs ++ UserBlock.texts bs' := List.filterMap_append

theorem results_append (bs bs' : List UserBlock) :
    UserBlock.results (bs ++ bs') = UserBlock.results bs ++ UserBlock.results bs' :=
  List.filterMap_append

@[simp] theorem texts_map_text (ts : List Bytes) : UserBlock.texts (ts.map .text) = ts := by
  induction ts with
  | nil => rfl
  | cons t ts ih => exact congrArg (t :: ·) ih

@[simp] theorem results_map_text (ts : List Bytes) : UserBlock.results (ts.map .text) = [] := by
  induction ts with
  | nil => rfl
  | cons t ts ih => exact ih

theorem TextsIn.of_nil (h : TextsIn ts g) (hg : g = []) : ∀ t ∈ ts, t = [] := by
  induction h with
  | nil => exact nofun
  | cons _ ih =>
    obtain ⟨-, h⟩ := List.append_eq_nil_iff.1 hg
    obtain ⟨ht, hg⟩ := List.append_eq_nil_iff.1 h
    exact List.forall_mem_cons.2 ⟨ht, ih hg⟩

theorem textsIn_of_nil (h : ∀ t ∈ ts, t = []) : TextsIn ts g := by
  induction ts with
  | nil => exact .nil
  | cons t ts ih =>
    obtain ⟨rfl, hts⟩ := List.forall_mem_cons.1 h
    exact .cons (a := []) (ih hts)

/-! ## Sections of a result message -/

theorem toolResponse_delims : Sharp (ch '<') (lit "<tool_response>") ∧
    ClosingDelim (lit "</tool_response>") ∧ ClosingDelim (lit "</tool_result>") ∧
      Sharp (ch '<') (lit "<tool_result>") := by decide

theorem nextToolResponse_section (b r : Bytes) :
    nextToolResponse (appendGlmToolResponse b ++ r) =
      some ([], escapeToolText (lit "</tool_response>") b, r) := by
  obtain ⟨-, hclose, -, -⟩ := toolResponse_delims
  have hfind : find (lit "</tool_response>") (escapeToolText (lit "</tool_response>") b ++
      (lit "</tool_response>" ++ r)) = some (escapeToolText (lit "</tool_response>") b).length := by
    rw [← List.append_assoc]
    exact hclose.sharp.find_at (find_escapeToolText hclose)
  have hsection : appendGlmToolResponse b ++ r = lit "<tool_response>" ++
      (escapeToolText (lit "</tool_response>") b ++ (lit "</tool_response>" ++ r)) := by
    simp only [appendGlmToolResponse, appendGlmToolResponseText, appendGlmTagBodyText, orEmpty,
      Option.getD_some, List.append_assoc]
  have hopen : ∀ s, (lit "<tool_response>" ++ s).drop (0 + 15) = s := fun s => by
    rw [show 0 + 15 = (lit "<tool_response>").length by decide, List.drop_left]
  have hrest : ∀ b s : Bytes, (b ++ (lit "</tool_response>" ++ s)).drop (b.length + 16) = s := fun b s => by
    rw [← List.drop_drop, List.drop_left, show 16 = (lit "</tool_response>").length by decide,
      List.drop_left]
  rw [nextToolResponse, hsection, find_prefix (List.prefix_append _ _)]
  simp only [Option.bind_some, hopen, hfind, Option.map_some, List.take_zero, List.take_left, hrest]

/-- Over a message of sections, exactly the unescaped bodies can be read back, and no text. -/
theorem survives_sections_iff (bodies : List Bytes) (bs : List UserBlock) :
    Survives bs (bodies.flatMap appendGlmToolResponse) ↔
      (∀ t ∈ UserBlock.texts bs, t = []) ∧ UserBlock.results bs = bodies := by
  have hdelim := toolResponse_delims.2.1
  constructor
  · intro h
    generalize hr : bodies.flatMap appendGlmToolResponse = r at h
    induction h generalizing bodies with
    | last hnone hts =>
      cases bodies with
      | nil => exact ⟨by simpa using hts.of_nil hr.symm, by simp⟩
      | cons b bodies =>
        rw [← hr, List.flatMap_cons, nextToolResponse_section] at hnone
        cases hnone
    | @next r g b r' ts t bs _ hsome hts hb _ ih =>
      cases bodies with
      | nil =>
        rw [← hr] at hsome
        cases hsome
      | cons body bodies =>
        rw [← hr, List.flatMap_cons, nextToolResponse_section] at hsome
        cases hsome
        obtain ⟨htexts, hresults⟩ := ih bodies rfl
        rw [unescape_escapeToolText hdelim] at hb
        subst hb
        refine ⟨?_, ?_⟩
        · intro t ht
          rw [texts_append, List.mem_append, texts_map_text] at ht
          exact ht.elim (hts.of_nil rfl t) (htexts t)
        · rw [results_append, results_map_text, List.nil_append]
          exact congrArg (body :: ·) hresults
  · rintro ⟨htexts, hresults⟩
    -- the blocks in front of a result are texts, and all of them are empty
    have key : ∀ (bs : List UserBlock) (ts : List Bytes) (bodies : List Bytes),
        (∀ t ∈ ts, t = []) → (∀ t ∈ UserBlock.texts bs, t = []) → UserBlock.results bs = bodies →
          Survives (ts.map .text ++ bs) (bodies.flatMap appendGlmToolResponse) := by
      intro bs
      induction bs with
      | nil =>
        intro ts bodies hts _ hres
        subst hres
        rw [List.append_nil]
        exact .last (by rfl) (textsIn_of_nil hts)
      | cons b bs ih =>
        intro ts bodies hts htexts hres
        cases b with
        | text t =>
          have := ih (ts ++ [t]) bodies ?_ ?_ hres
          · simpa using this
          · intro u hu
            rcases List.mem_append.1 hu with hu | hu
            · exact hts u hu
            · rw [List.mem_singleton.1 hu]
              exact htexts t List.mem_cons_self
          · exact fun u hu => htexts u (List.mem_cons_of_mem _ hu)
        | result id t =>
          subst hres
          have := ih [] (UserBlock.results bs) nofun htexts rfl
          exact .next (nextToolResponse_section t _) (textsIn_of_nil hts)
            (unescape_escapeToolText hdelim) this
    exact key bs [] bodies nofun htexts hresults

/-! ## The search for the results -/

theorem sections_eq (hi : find (lit "<tool_result>") p = some i)
    (hj : find (lit "</tool_result>") (p.drop (i + 13)) = some j) :
    appendGlmToolResultSections p = some (appendGlmToolResponse ((p.drop (i + 13)).take j) ++
      (appendGlmToolResultSections ((p.drop (i + 13)).drop (j + 14))).getD []) := by
  rw [appendGlmToolResultSections, hi]
  dsimp only
  split
  · next h => rw [hj] at h; cases h
  · next h => rw [hj] at h; cases h; rfl

theorem sections_bodies (h : appendGlmToolResultSections p = some r) :
    ∃ bodies : List Bytes, r = bodies.flatMap appendGlmToolResponse := by
  induction hn : p.length using Nat.strong_induction_on generalizing p r with
  | _ n ih =>
    subst hn
    cases hi : find (lit "<tool_result>") p with
    | none =>
      rw [appendGlmToolResultSections, hi] at h
      cases h
    | some i =>
      cases hj : find (lit "</tool_result>") (p.drop (i + 13)) with
      | none =>
        rw [appendGlmToolResultSections, hi] at h
        dsimp only at h
        split at h
        · cases h
        · next h' => rw [hj] at h'; cases h'
      | some j =>
        rw [sections_eq hi hj, Option.some.injEq] at h
        cases hs : appendGlmToolResultSections ((p.drop (i + 13)).drop (j + 14)) with
        | none => exact ⟨[(p.drop (i + 13)).take j], by rw [← h, hs]; simp⟩
        | some r' =>
          have hle := find_le hi
          have h13 : (lit "<tool_result>").length = 13 := by decide
          obtain ⟨bodies, rfl⟩ := ih _ (by simp only [List.length_drop]; omega) hs rfl
          exact ⟨(p.drop (i + 13)).take j :: bodies, by rw [← h, hs]; simp⟩

/-- A complete pair of tags is enough to find something, whatever stands in front of it. -/
theorem sections_isSome (a e z : Bytes) : (appendGlmToolResultSections
    (a ++ (lit "<tool_result>" ++ (e ++ (lit "</tool_result>" ++ z))))).isSome := by
  have hopen := find_isSome_iff.2 ((List.prefix_append (lit "<tool_result>")
    (e ++ (lit "</tool_result>" ++ z))).isInfix.trans (List.suffix_append a _).isInfix)
  obtain ⟨i, hi⟩ := Option.isSome_iff_exists.1 hopen
  have hle : i ≤ a.length := by
    by_contra hlt
    exact (find_eq_some_iff.1 hi).2 a.length (by omega) (by
      rw [List.drop_left]
      exact List.prefix_append _ _)
  have hclose : (find (lit "</tool_result>")
      ((a ++ (lit "<tool_result>" ++ (e ++ (lit "</tool_result>" ++ z)))).drop (i + 13))).isSome := by
    rw [find_isSome_iff]
    have htail : lit "</tool_result>" ++ z <:+
        a ++ (lit "<tool_result>" ++ (e ++ (lit "</tool_result>" ++ z))) :=
      ((List.suffix_append _ _).trans (List.suffix_append _ _)).trans (List.suffix_append _ _)
    have hlast : lit "</tool_result>" ++ z <:+
        (a ++ (lit "<tool_result>" ++ (e ++ (lit "</tool_result>" ++ z)))).drop (i + 13) := by
      apply List.suffix_of_suffix_length_le htail (List.drop_suffix _ _)
      · have h13 : (lit "<tool_result>").length = 13 := by decide
        simp only [List.length_drop, List.length_append, h13]
        omega
    exact (List.prefix_append _ _).isInfix.trans hlast.isInfix
  obtain ⟨j, hj⟩ := Option.isSome_iff_exists.1 hclose
  rw [sections_eq hi hj]
  rfl

/-- Results without text between them are found one by one. -/
theorem sections_results (ts : List Bytes) (hts : ts ≠ []) :
    appendGlmToolResultSections (ts.flatMap fun t =>
      lit "<tool_result>" ++ escapeToolText (lit "</tool_result>") t ++ lit "</tool_result>") =
        some ((ts.map (escapeToolText (lit "</tool_result>"))).flatMap appendGlmToolResponse) := by
  obtain ⟨-, -, hdelim, -⟩ := toolResponse_delims
  induction ts with
  | nil => exact absurd rfl hts
  | cons t ts ih =>
    have hfind : ∀ s, find (lit "</tool_result>") (escapeToolText (lit "</tool_result>") t ++
        (lit "</tool_result>" ++ s)) = some (escapeToolText (lit "</tool_result>") t).length := by
      intro s
      rw [← List.append_assoc]
      exact hdelim.sharp.find_at (find_escapeToolText hdelim)
    have hopen : ∀ s, (lit "<tool_result>" ++ s).drop (0 + 13) = s := fun s => by
      rw [show 0 + 13 = (lit "<tool_result>").length by decide, List.drop_left]
    have hrest : ∀ b s : Bytes, (b ++ (lit "</tool_result>" ++ s)).drop (b.length + 14) = s :=
      fun b s => by
        rw [← List.drop_drop, List.drop_left, show 14 = (lit "</tool_result>").length by decide,
          List.drop_left]
    have hstart : ∀ s : Bytes, find (lit "<tool_result>") (lit "<tool_result>" ++ s) = some 0 :=
      fun s => find_prefix (List.prefix_append _ _)
    rw [List.flatMap_cons, List.append_assoc, List.append_assoc,
      sections_eq (hstart _) (by rw [hopen]; exact hfind _), hopen,
      List.take_left, hrest, List.map_cons, List.flatMap_cons]
    cases ts with
    | nil =>
      rw [List.flatMap_nil, appendGlmToolResultSections]
      rfl
    | cons t' ts => rw [ih (List.cons_ne_nil _ _), Option.getD_some]

/-! ## Texts that the escape changes -/

theorem length_le_escapeToolText (fin s : Bytes) : s.length ≤ (escapeToolText fin s).length := by
  induction s with
  | nil => exact Nat.le_refl _
  | cons c s ih =>
    have h4 : (lit "&lt;").length = 4 ∧ (lit "&amp;").length = 5 := by decide
    rw [escapeToolText]
    split
    · split <;> simp only [List.length_append, List.length_cons] <;> omega
    · simp only [List.length_cons]; omega

/-- The escape keeps a text exactly when it finds nothing to escape. -/
theorem escapeToolText_eq_self_iff (fin s : Bytes) :
    escapeToolText fin s = s ↔ ∀ q, q <:+ s → ds4ToolTextNeedsEscape q fin = true → q = [] := by
  induction s with
  | nil => exact ⟨fun _ q hq _ => List.suffix_nil.1 hq, fun _ => rfl⟩
  | cons c s ih =>
    have h4 : (lit "&lt;").length = 4 ∧ (lit "&amp;").length = 5 := by decide
    rw [escapeToolText]
    split
    · next hn =>
      constructor
      · intro h
        have hlen := congrArg List.length h
        have hle := length_le_escapeToolText fin s
        exfalso
        split at hlen <;> simp only [List.length_append, List.length_cons] at hlen <;> omega
      · intro h
        exact absurd (h _ (List.suffix_refl _) hn) (List.cons_ne_nil _ _)
    · next hn =>
      rw [List.cons_inj_right, ih]
      constructor
      · intro h q hq hneed
        rcases List.suffix_cons_iff.1 hq with rfl | hq
        · exact absurd hneed hn
        · exact h q hq hneed
      · exact fun h q hq => h q (hq.trans (List.suffix_cons _ _))

/-! ## A message that is not recognized as results

Without a call id the content is rendered as it is. An `n` then tells that no sections can be read
in it: the tags of a section have two, the tags in the content have none, and neither escape writes
one. -/

/-- The bytes `n` of the blocks, with `k` more for each result. -/
def nWeight (k : Nat) : List UserBlock → Nat
  | [] => 0
  | .text t :: bs => t.count (ch 'n') + nWeight k bs
  | .result _ t :: bs => t.count (ch 'n') + k + nWeight k bs

theorem nWeight_append (k : Nat) (bs bs' : List UserBlock) :
    nWeight k (bs ++ bs') = nWeight k bs + nWeight k bs' := by
  induction bs with
  | nil => simp [nWeight]
  | cons b bs ih => cases b <;> simp only [List.cons_append, nWeight, ih] <;> omega

theorem nWeight_zero_add (k : Nat) (bs : List UserBlock) :
    nWeight k bs = nWeight 0 bs + k * (UserBlock.results bs).length := by
  induction bs with
  | nil => rfl
  | cons b bs ih =>
    cases b with
    | text t => simp only [nWeight, ih, UserBlock.results, List.filterMap_cons]; omega
    | result id t =>
      simp only [nWeight, ih, UserBlock.results, List.filterMap_cons, List.length_cons, Nat.mul_add]
      omega

theorem count_escapeToolText_le (fin s : Bytes) :
    (escapeToolText fin s).count (ch 'n') ≤ s.count (ch 'n') := by
  have hesc : (lit "&lt;").count (ch 'n') = 0 ∧ (lit "&amp;").count (ch 'n') = 0 := by decide
  induction s with
  | nil => exact Nat.le_refl _
  | cons c s ih =>
    rw [escapeToolText, List.count_cons]
    split
    · rw [List.count_append]
      split <;> omega
    · rw [List.count_cons]
      omega

theorem count_unescape_le (s fin : Bytes) :
    (ds4ToolTextUnescape s fin).count (ch 'n') ≤ s.count (ch 'n') := by
  have hdrop : ∀ (s : Bytes) k, (s.drop k).count (ch 'n') ≤ s.count (ch 'n') :=
    fun s k => (List.drop_sublist k s).count_le _
  fun_induction ds4ToolTextUnescape s fin with
  | case1 => exact Nat.le_refl _
  | case2 c s _ _ ih =>
    rw [List.count_cons_of_ne (by decide), List.count_cons]
    exact (ih.trans (hdrop s 4)).trans (Nat.le_add_right _ _)
  | case3 c s _ _ ih =>
    rw [List.count_cons_of_ne (by decide), List.count_cons]
    exact (ih.trans (hdrop s 3)).trans (Nat.le_add_right _ _)
  | case4 c s _ ih =>
    rw [List.count_cons, List.count_cons]
    omega

theorem TextsIn.count (h : TextsIn ts g) : nWeight k (ts.map .text) ≤ g.count (ch 'n') := by
  induction h with
  | nil => exact Nat.zero_le _
  | cons _ ih =>
    rw [List.map_cons, nWeight, List.count_append, List.count_append]
    omega

theorem nextToolResponse_eq (h : nextToolResponse r = some (g, b, r')) :
    r = g ++ (lit "<tool_response>" ++ (b ++ (lit "</tool_response>" ++ r'))) := by
  obtain ⟨i, hi, h⟩ := Option.bind_eq_some_iff.1 h
  obtain ⟨j, hj, h⟩ := Option.map_eq_some_iff.1 h
  cases h
  obtain ⟨x, hx, hxd, -⟩ := find_split hi
  obtain ⟨y, hy, hyd, -⟩ := find_split hj
  have h15 : i + 15 = i + (lit "<tool_response>").length := rfl
  have h16 : j + 16 = j + (lit "</tool_response>").length := rfl
  rw [h15, hxd] at hy hyd ⊢
  rw [h16, hyd, ← List.append_assoc (x.take j), ← hy, ← List.append_assoc, ← hx]

theorem Survives.count (h : Survives bs r) : nWeight 2 bs ≤ r.count (ch 'n') := by
  have htags : (lit "<tool_response>").count (ch 'n') = 1 ∧
      (lit "</tool_response>").count (ch 'n') = 1 := by decide
  induction h with
  | last _ hts => exact hts.count
  | @next r g b r' ts t bs id hsome hts hb _ ih =>
    have hbody := count_unescape_le b (lit "</tool_response>")
    have htexts : nWeight 2 (ts.map .text) ≤ g.count (ch 'n') := hts.count
    rw [hb] at hbody
    rw [nextToolResponse_eq hsome, nWeight_append, nWeight]
    simp only [List.count_append]
    omega

theorem count_content_le (bs : List UserBlock) :
    (bs.flatMap UserBlock.content).count (ch 'n') ≤ nWeight 0 bs := by
  have htags : (lit "<tool_result>").count (ch 'n') = 0 ∧
      (lit "</tool_result>").count (ch 'n') = 0 := by decide
  induction bs with
  | nil => exact Nat.le_refl _
  | cons b bs ih =>
    rw [List.flatMap_cons, List.count_append]
    cases b with
    | text t => exact Nat.add_le_add_left ih _
    | result id t =>
      have := count_escapeToolText_le (lit "</tool_result>") t
      simp only [UserBlock.content, List.count_append, nWeight]
      omega

theorem not_survives_content (h : UserBlock.results bs ≠ []) :
    ¬ Survives bs (bs.flatMap UserBlock.content) := by
  intro hs
  have h1 := hs.count
  have h2 := count_content_le bs
  have h3 := nWeight_zero_add 2 bs
  have h4 := List.length_pos_of_ne_nil h
  omega

/-! ## The whole message -/

/-- What the GLM renderer writes for a user message behind its marker. -/
def glmUserText (m : ChatMsg) : Bytes :=
  if m.toolCallIds ≠ [] then appendGlmToolResultMessage m else orEmpty m.content

theorem renderGlmMsg_user (h : m.role = lit "user") (think keep : Bool)
    (orders : List ToolSchemaOrder) (st : GlmState) :
    ∃ mark ∈ [[], lit "<|observation|>", lit "<|user|>"],
      (renderGlmMsg think keep orders st m).out = st.out ++ mark ++ glmUserText m := by
  have hsys : roleIsSystem m.role = false := by rw [h]; decide
  have hrole : (m.role == lit "tool" || m.role == lit "function") = false := by rw [h]; decide
  have hres : chatMsgIsGlmToolResult m = (m.toolCallIds != []) := by
    rw [chatMsgIsGlmToolResult, hrole, h]
    simp
  rw [renderGlmMsg, hsys, hres, glmUserText]
  by_cases hids : m.toolCallIds = []
  · refine ⟨lit "<|user|>", by simp, ?_⟩
    simp [hids, h]
  · cases hobs : st.observationOpen with
    | true => exact ⟨[], by simp, by simp [hids]⟩
    | false => exact ⟨lit "<|observation|>", by simp, by simp [hids]⟩

/-- Blocks that the renderer can carry: results with a call id and nothing to escape, and no text. -/
structure BlocksFit (bs : List UserBlock) : Prop where
  id : ∃ id t, .result id t ∈ bs ∧ orEmpty id ≠ []
  texts : ∀ t, .text t ∈ bs → t = []
  results : ∀ id t, .result id t ∈ bs → ∀ q, q <:+ t →
    ds4ToolTextNeedsEscape q (lit "</tool_result>") = true → q = []

theorem mem_texts_iff {bs : List UserBlock} : t ∈ UserBlock.texts bs ↔ .text t ∈ bs := by
  rw [UserBlock.texts, List.mem_filterMap]
  constructor
  · rintro ⟨b, hb, h⟩
    cases b with
    | text t' => cases h; exact hb
    | result => cases h
  · exact fun h => ⟨_, h, rfl⟩

theorem mem_results_iff {bs : List UserBlock} :
    t ∈ UserBlock.results bs ↔ ∃ id, .result id t ∈ bs := by
  rw [UserBlock.results, List.mem_filterMap]
  constructor
  · rintro ⟨b, hb, h⟩
    cases b with
    | text => cases h
    | result id t' => cases h; exact ⟨id, hb⟩
  · exact fun ⟨id, h⟩ => ⟨_, h, rfl⟩

/-- Without text, the content is the results one behind the other. -/
theorem content_results (h : ∀ t ∈ UserBlock.texts bs, t = []) :
    bs.flatMap UserBlock.content = (UserBlock.results bs).flatMap fun t =>
      lit "<tool_result>" ++ escapeToolText (lit "</tool_result>") t ++ lit "</tool_result>" := by
  induction bs with
  | nil => rfl
  | cons b bs ih =>
    cases b with
    | text t =>
      obtain ⟨rfl, hts⟩ := List.forall_mem_cons.1 h
      exact ih hts
    | result id t => exact congrArg (UserBlock.content (.result id t) ++ ·) (ih h)

theorem sections_content_isSome (h : UserBlock.results bs ≠ []) :
    (appendGlmToolResultSections (bs.flatMap UserBlock.content)).isSome := by
  obtain ⟨t, ht⟩ := List.exists_mem_of_ne_nil _ h
  obtain ⟨id, hid⟩ := mem_results_iff.1 ht
  obtain ⟨bs1, bs2, rfl⟩ := List.append_of_mem hid
  rw [List.flatMap_append, List.flatMap_cons, UserBlock.content, List.append_assoc,
    List.append_assoc]
  exact sections_isSome _ _ _

/-- With a call id, the blocks survive exactly when there is no text and nothing to escape. -/
theorem survives_result_message_iff {m : ChatMsg} (hrole : m.role = lit "user")
    (hids : m.toolCallIds ≠ []) (hc : m.content = some (bs.flatMap UserBlock.content))
    (hres : UserBlock.results bs ≠ []) :
    Survives bs (appendGlmToolResultMessage m) ↔ (∀ t ∈ UserBlock.texts bs, t = []) ∧
      ∀ t ∈ UserBlock.results bs, escapeToolText (lit "</tool_result>") t = t := by
  have htext : appendGlmToolResultMessage m =
      (appendGlmToolResultSections (bs.flatMap UserBlock.content)).getD
        (appendGlmToolResponse (bs.flatMap UserBlock.content)) := by
    simp only [appendGlmToolResultMessage, hrole, hids, hc, orEmpty, Option.getD_some, ne_eq,
      not_false_eq_true, and_self, if_true]
  have hplain : (∀ t ∈ UserBlock.texts bs, t = []) → appendGlmToolResultMessage m =
      ((UserBlock.results bs).map (escapeToolText (lit "</tool_result>"))).flatMap
        appendGlmToolResponse := by
    intro hempty
    rw [htext, content_results hempty, sections_results _ hres, Option.getD_some]
  have hmap : UserBlock.results bs =
      (UserBlock.results bs).map (escapeToolText (lit "</tool_result>")) ↔
        ∀ t ∈ UserBlock.results bs, escapeToolText (lit "</tool_result>") t = t := by
    have h := @List.map_inj_left _ _ (UserBlock.results bs) (escapeToolText (lit "</tool_result>")) id
    rw [List.map_id] at h
    rw [eq_comm]
    exact h
  constructor
  · intro h
    obtain ⟨r, hr⟩ := Option.isSome_iff_exists.1 (sections_content_isSome hres)
    obtain ⟨bodies, rfl⟩ := sections_bodies hr
    have h' := h
    rw [htext, hr, Option.getD_some, survives_sections_iff] at h'
    rw [hplain h'.1, survives_sections_iff, hmap] at h
    exact h
  · rintro ⟨hempty, hesc⟩
    rw [hplain hempty, survives_sections_iff, hmap]
    exact ⟨hempty, hesc⟩

theorem blocksFit_iff {bs : List UserBlock} :
    BlocksFit bs ↔ (∃ id t, .result id t ∈ bs ∧ orEmpty id ≠ []) ∧
      (∀ t ∈ UserBlock.texts bs, t = []) ∧
        ∀ t ∈ UserBlock.results bs, escapeToolText (lit "</tool_result>") t = t := by
  simp only [mem_texts_iff, mem_results_iff, escapeToolText_eq_self_iff]
  constructor
  · exact fun h => ⟨h.id, h.texts, fun t ⟨id, ht⟩ => h.results id t ht⟩
  · exact fun ⟨hid, htexts, hresults⟩ => ⟨hid, htexts, fun id t ht => hresults t ⟨id, ht⟩⟩

/-- A user message of texts and tool results is accepted; what the GLM renderer writes for it shows
its blocks exactly when they carry a call id, no text, and no spelling of `</tool_result>`. -/
theorem blocks_survive_iff {Img : Type}
    (push : List Img → Option Bytes → Option Bytes → Option (List Img × Bytes)) (p : Bytes)
    (bs : List UserBlock) (hp : userBlocks push p = some bs) (hres : UserBlock.results bs ≠ []) :
    ∃ m rest, parseAnthropicContent push p .empty = some (m, rest) ∧
      (Survives bs (glmUserText { m.toChatMsg with role := lit "user" }) ↔ BlocksFit bs) := by
  obtain ⟨m, rest, hm, hc, hids⟩ := parseAnthropicContent_user hp
  refine ⟨m, rest, hm, ?_⟩
  rw [blocksFit_iff, glmUserText]
  by_cases hno : m.toolCallIds = []
  · have hnone : ¬ ∃ id t, UserBlock.result id t ∈ bs ∧ orEmpty id ≠ [] :=
      fun ⟨id, t, ht, hid⟩ => hid (hids.1 hno id t ht)
    rw [if_neg (not_not.2 hno)]
    simp only [hc, orEmpty, Option.getD_some, hnone, false_and, iff_false]
    exact not_survives_content hres
  · have hsome : ∃ id t, UserBlock.result id t ∈ bs ∧ orEmpty id ≠ [] := by
      by_contra h
      exact hno (hids.2 fun id t ht => not_not.1 fun hid => h ⟨id, t, ht, hid⟩)
    have key := survives_result_message_iff (m := { m.toChatMsg with role := lit "user" }) rfl hno hc hres
    rw [if_pos hno, key]
    exact ⟨fun h => ⟨hsome, h⟩, fun h => h.2⟩

/-- Two results and nothing else. -/
def resultsContent : Bytes := lit ("[\x7b\"type\": \"tool_result\", \"tool_use_id\": \"toolu_1\", \"content\": \"a < b\"\x7d," ++
  "\x7b\"content\": [\x7b\"type\": \"text\", \"text\": \"done\"\x7d], \"type\": \"tool_result\", \"tool_use_id\": \"toolu_2\"\x7d]")

/-- No image is accepted. -/
def noImages : List Unit → Option Bytes → Option Bytes → Option (List Unit × Bytes) := fun _ _ _ => none

theorem resultsContent_survives : ∃ m rest, parseAnthropicContent noImages resultsContent .empty = some (m, rest) ∧
    (Survives [.result (some (lit "toolu_1")) (lit "a < b"), .result (some (lit "toolu_2")) (lit "done")]
      (glmUserText { m.toChatMsg with role := lit "user" }) ↔
        BlocksFit [.result (some (lit "toolu_1")) (lit "a < b"), .result (some (lit "toolu_2")) (lit "done")]) :=
  blocks_survive_iff noImages _ _ (by decide +kernel) (by decide)

/-- A result and a text behind it. -/
def resultTextContent : Bytes := lit ("[\x7b\"type\": \"tool_result\", \"tool_use_id\": \"toolu_1\", \"content\": \"done\"\x7d," ++
  "\x7b\"type\": \"text\", \"text\": \"continue\"\x7d]")

/-- The text is not in the prompt. -/
theorem resultTextContent_lost : userBlocks noImages resultTextContent =
      some [.result (some (lit "toolu_1")) (lit "done"), .text (lit "continue")] ∧
    ∃ m rest, parseAnthropicContent noImages resultTextContent .empty = some (m, rest) ∧
      glmUserText { m.toChatMsg with role := lit "user" } =
        lit "<tool_response>done</tool_response>" ∧
      ¬ Survives [.result (some (lit "toolu_1")) (lit "done"), .text (lit "continue")]
        (glmUserText { m.toChatMsg with role := lit "user" }) := by
  have hblocks : userBlocks noImages resultTextContent =
      some [.result (some (lit "toolu_1")) (lit "done"), .text (lit "continue")] := by
    decide +kernel
  obtain ⟨m, rest, hm, hc, hids⟩ := parseAnthropicContent_user hblocks
  have hno : m.toolCallIds ≠ [] := fun h => absurd (hids.1 h _ _ List.mem_cons_self) (by decide)
  have htext : glmUserText { m.toChatMsg with role := lit "user" } =
      lit "<tool_response>done</tool_response>" := by
    have hsections : appendGlmToolResultSections (lit "<tool_result>done</tool_result>continue") =
        some (lit "<tool_response>done</tool_response>") := by decide +kernel
    have hcontent : m.content = some (lit "<tool_result>done</tool_result>continue") :=
      hc.trans (by decide +kernel)
    simp only [glmUserText, hno, ne_eq, not_false_eq_true, if_true, appendGlmToolResultMessage,
      and_self, hcontent, orEmpty, Option.getD_some, hsections]
  refine ⟨hblocks, m, rest, hm, htext, fun h => ?_⟩
  have hone : lit "<tool_response>done</tool_response>" =
      [lit "done"].flatMap appendGlmToolResponse := by decide
  rw [htext, hone, survives_sections_iff] at h
  exact absurd (h.1 (lit "continue") (by decide)) (by decide)

end Ds4
