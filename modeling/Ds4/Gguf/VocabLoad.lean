import Ds4.Gguf.Lookup
import Ds4.Tokenizer.Chat

/-!
# The vocabulary of a model

`vocab_load` reads the token and merge tables of an accepted file and looks up the control tokens. The tables are the document's
(`vocabLoad_iff`), and a chat that is tokenised with a loaded vocabulary is read back (`load_tokenize`).
-/

namespace Ds4.Gguf
open C Cursor Tokenizer

def tokensKey : Bytes := lit "tokenizer.ggml.tokens"

def mergesKey : Bytes := lit "tokenizer.ggml.merges"

/-- The strings of an array in their order. -/
def readStrings (m : Model) (ref : Model.ArrayRef) : Except String (List Bytes) :=
  match times cursorString ref.len m.map ref.dataPos with
  | .ok (ss, _) => .ok ss
  | .error e => .error e

def tokenTable (m : Model) : Except String Model.ArrayRef :=
  match m.getArray tokensKey with
  | some ref =>
    if ref.type ≠ typeString ∨ ref.len > Model.intMax then .error "GGUF tokenizer token table is missing or invalid"
    else .ok ref
  | none => .error "GGUF tokenizer token table is missing or invalid"

def mergeTable (m : Model) : Except String Model.ArrayRef :=
  match m.getArray mergesKey with
  | some ref => if ref.type ≠ typeString then .error "GGUF tokenizer merge table is missing or invalid" else .ok ref
  | none => .error "GGUF tokenizer merge table is missing or invalid"

def vocabLookup (token : List Bytes) (text : String) : Except String Int :=
  match (tableOf Int.ofNat token).get hashBytes (lit text) with
  | some id => .ok id
  | none => .error ("required tokenizer token is missing: " ++ text)

def vocabLookupOptional (token : List Bytes) (text : String) : Int :=
  ((tableOf Int.ofNat token).get hashBytes (lit text)).getD (-1)

/-- The vocabulary with its control tokens when the tables are read. -/
def vocabIds (family : ModelFamily) (m : Model) (token merges : List Bytes) : Except String Vocab :=
  match family with
  | .glmDsa => .ok
    { token := token
      merges := merges
      bosId := ((m.getTokenId (lit "tokenizer.ggml.bos_token_id")).map Int.ofNat).getD (vocabLookupOptional token "<sop>")
      eosId := ((m.getTokenId (lit "tokenizer.ggml.eos_token_id")).map Int.ofNat).getD
        (vocabLookupOptional token "<|endoftext|>")
      systemId := vocabLookupOptional token "<|system|>"
      userId := vocabLookupOptional token "<|user|>"
      assistantId := vocabLookupOptional token "<|assistant|>"
      observationId := vocabLookupOptional token "<|observation|>"
      sopId := vocabLookupOptional token "<sop>"
      thinkStartId := vocabLookupOptional token "<think>"
      thinkEndId := vocabLookupOptional token "</think>"
      toolCallStartId := vocabLookupOptional token "<tool_call>"
      toolCallEndId := vocabLookupOptional token "</tool_call>"
      toolResponseStartId := vocabLookupOptional token "<tool_response>"
      toolResponseEndId := vocabLookupOptional token "</tool_response>"
      argKeyStartId := vocabLookupOptional token "<arg_key>"
      argKeyEndId := vocabLookupOptional token "</arg_key>"
      argValueStartId := vocabLookupOptional token "<arg_value>"
      argValueEndId := vocabLookupOptional token "</arg_value>"
      dsmlId := -1 }
  | .deepseek => do
    let bos ← vocabLookup token "<｜begin▁of▁sentence｜>"
    let eos ← vocabLookup token "<｜end▁of▁sentence｜>"
    let user ← vocabLookup token "<｜User｜>"
    let assistant ← vocabLookup token "<｜Assistant｜>"
    let thinkStart ← vocabLookup token "<think>"
    let thinkEnd ← vocabLookup token "</think>"
    let dsml ← vocabLookup token "｜DSML｜"
    return {
      token := token
      merges := merges
      bosId := bos
      eosId := eos
      systemId := -1
      userId := user
      assistantId := assistant
      observationId := -1
      sopId := -1
      thinkStartId := thinkStart
      thinkEndId := thinkEnd
      toolCallStartId := -1
      toolCallEndId := -1
      toolResponseStartId := -1
      toolResponseEndId := -1
      argKeyStartId := -1
      argKeyEndId := -1
      argValueStartId := -1
      argValueEndId := -1
      dsmlId := dsml }

def vocabLoad (family : ModelFamily) (m : Model) : Except String Vocab := do
  let tokens ← tokenTable m
  let merges ← mergeTable m
  let token ← readStrings m tokens
  let merge ← readStrings m merges
  vocabIds family m token merge

/-! ## The tables -/

def encodeString (s : Bytes) : Bytes := lePut 8 s.length ++ s

/-- The entry is an array of these strings. -/
def Doc.Strings (d : Doc) (key : Bytes) (ss : List Bytes) : Prop :=
  d.Array key typeString (ss.map encodeString) ∧ ∀ s ∈ ss, s.length < 256 ^ 8

theorem exact_cursorStrings (n : Nat) : Exact (times cursorString n) fun _ _ ss b =>
    ss.length = n ∧ (∀ s ∈ ss, s.length < 256 ^ 8) ∧ b = ss.flatMap encodeString := by
  have hstring : Exact cursorString fun _ pos s b =>
      ∃ e : Bytes, e.length < 256 ^ 8 ∧ b = encodeString e ∧ s = (fun _ => id) pos e := by
    refine exact_cursorString.congr fun _ _ s b => ?_
    constructor
    · rintro ⟨hs, rfl⟩
      exact ⟨s, hs, rfl, rfl⟩
    · rintro ⟨e, he, rfl, rfl⟩
      exact ⟨he, rfl⟩
  have hplace : ∀ (pos : Nat) (ss : List Bytes), place (fun _ => id) encodeString pos ss = ss := by
    intro pos ss
    induction ss generalizing pos with
    | nil => rfl
    | cons s ss ih => exact congrArg _ (ih _)
  refine (hstring.times n).congr fun _ _ ss b => ?_
  constructor
  · rintro ⟨hlen, hrow⟩
    obtain ⟨es, hes, rfl, rfl⟩ := row_iff.mp hrow
    rw [hplace] at hlen ⊢
    exact ⟨hlen, hes, rfl⟩
  · rintro ⟨hlen, hss, rfl⟩
    exact ⟨hlen, row_iff.mpr ⟨ss, hss, rfl, (hplace _ ss).symm⟩⟩

/-- The items of an array of strings are encoded strings. -/
theorem exists_strings {items : List Bytes} (h : ∀ b ∈ items, Encoded levels typeString b) :
    ∃ ss : List Bytes, items = ss.map encodeString ∧ ∀ s ∈ ss, s.length < 256 ^ 8 := by
  refine ⟨items.map fun b => b.drop 8, ?_, ?_⟩
  · rw [List.map_map]
    refine (List.map_id items).symm.trans (List.map_congr_left fun b hb => ?_)
    exact (h b hb).text.2
  · intro s hs
    obtain ⟨b, hb, rfl⟩ := List.mem_map.mp hs
    exact (h b hb).text.1

theorem bind_eq_ok {ε α β : Type} {x : Except ε α} {k : α → Except ε β} {b : β} :
    x >>= k = .ok b ↔ ∃ a, x = .ok a ∧ k a = .ok b := by
  cases x with
  | error e => exact ⟨nofun, fun ⟨_, hx, _⟩ => absurd hx nofun⟩
  | ok a =>
    constructor
    · exact fun hk => ⟨a, rfl, hk⟩
    · rintro ⟨a', hx, hk⟩
      cases hx
      exact hk

theorem tokenTable_iff (m : Model) (ref : Model.ArrayRef) : tokenTable m = .ok ref ↔
    m.getArray tokensKey = some ref ∧ ref.type = typeString ∧ ref.len ≤ Model.intMax := by
  rw [tokenTable]
  cases m.getArray tokensKey with
  | none => exact ⟨nofun, fun hget => absurd hget.1 nofun⟩
  | some ref' =>
    dsimp only
    split
    · next hbad =>
      refine ⟨nofun, ?_⟩
      rintro ⟨hget, htype, hlen⟩
      obtain rfl := Option.some.inj hget
      cases hbad with
      | inl hbad => exact absurd htype hbad
      | inr hbad => exact absurd hbad (Nat.not_lt.mpr hlen)
    · next hgood =>
      rw [not_or, not_not] at hgood
      constructor
      · intro hok
        cases hok
        exact ⟨rfl, hgood.1, Nat.le_of_not_lt hgood.2⟩
      · rintro ⟨hget, -⟩
        exact congrArg _ (Option.some.inj hget)

theorem mergeTable_iff (m : Model) (ref : Model.ArrayRef) : mergeTable m = .ok ref ↔
    m.getArray mergesKey = some ref ∧ ref.type = typeString := by
  rw [mergeTable]
  cases m.getArray mergesKey with
  | none => exact ⟨nofun, fun hget => absurd hget.1 nofun⟩
  | some ref' =>
    dsimp only
    split
    · next hbad =>
      refine ⟨nofun, ?_⟩
      rintro ⟨hget, htype⟩
      obtain rfl := Option.some.inj hget
      exact absurd htype hbad
    · next hgood =>
      constructor
      · intro hok
        cases hok
        exact ⟨rfl, not_not.mp hgood⟩
      · rintro ⟨hget, -⟩
        exact congrArg _ (Option.some.inj hget)

section
variable {d : Doc} {file : Bytes} (h : d.At file)
include h

theorem readStrings_exact {key : Bytes} {ref : Model.ArrayRef} (hget : (d.model file).getArray key = some ref)
    {items : List Bytes} (harray : d.Array key ref.type items) (ss : List Bytes) : readStrings (d.model file) ref = .ok ss ↔
      ss.length = items.length ∧ (∀ s ∈ ss, s.length < 256 ^ 8) ∧ ss.flatMap encodeString <+: file.drop ref.dataPos := by
  obtain ⟨items', harray', hlen, hpos, -⟩ := getArray_some h hget
  obtain ⟨-, hlen', -⟩ := harray.unique harray'
  have hexact := exact_cursorStrings ref.len file ref.dataPos hpos ss
  rw [hlen', ← hlen]
  constructor
  · intro hok
    rw [readStrings] at hok
    split at hok
    · next ss' pos' heq =>
      cases hok
      obtain ⟨_, ⟨hn, hss, rfl⟩, hpre, -⟩ := (hexact _).mp heq
      exact ⟨hn, hss, hpre⟩
    · cases hok
  · rintro ⟨hn, hss, hpre⟩
    rw [readStrings, show times cursorString ref.len (d.model file).map ref.dataPos = .ok (ss, _) from
      (hexact _).mpr ⟨_, ⟨hn, hss, rfl⟩, hpre, rfl⟩]

/-- The strings of a table are the document's. -/
theorem readStrings_iff {key : Bytes} {ref : Model.ArrayRef} (hget : (d.model file).getArray key = some ref)
    (htype : ref.type = typeString) (ss : List Bytes) :
    readStrings (d.model file) ref = .ok ss ↔ d.Strings key ss ∧ ss.length = ref.len := by
  obtain ⟨items, harray, hlen, hpos, hpre⟩ := getArray_some h hget
  rw [readStrings_exact h hget harray]
  have hitems := harray
  obtain ⟨e, hfind, harr, hvalue, htlt, hlt, hitems⟩ := hitems
  rw [htype] at hitems
  obtain ⟨ss', rfl, hss'⟩ := exists_strings hitems
  constructor
  · rintro ⟨hn, hss, hpre'⟩
    have hok := (readStrings_exact h hget harray ss).mpr ⟨hn, hss, hpre'⟩
    have hok' := (readStrings_exact h hget harray ss').mpr ⟨(List.length_map ..).symm, hss', by rwa [List.flatMap_def]⟩
    obtain rfl : ss' = ss := Except.ok.inj (hok'.symm.trans hok)
    exact ⟨⟨htype ▸ harray, hss⟩, hn.trans hlen.symm⟩
  · rintro ⟨⟨harray', hss⟩, hn⟩
    obtain ⟨-, hn', hflat⟩ := harray'.unique harray
    rw [List.length_map] at hn'
    refine ⟨hn', hss, ?_⟩
    rw [List.flatMap_def, hflat]
    exact hpre

/-- A table of strings of the document is found. -/
theorem exists_table {key : Bytes} {ss : List Bytes} (hss : d.Strings key ss) : ∃ ref, (d.model file).getArray key = some ref ∧
    ref.type = typeString ∧ ref.len = ss.length ∧ readStrings (d.model file) ref = .ok ss := by
  obtain ⟨e, hfind, harr, -⟩ := hss.1
  obtain ⟨ref, hget⟩ := Option.isSome_iff_exists.mp (getArray_isSome h hfind harr)
  obtain ⟨items, harray, hlen, hpos, hpre⟩ := getArray_some h hget
  obtain ⟨htype, hn, -⟩ := harray.unique hss.1
  rw [List.length_map] at hn
  exact ⟨ref, hget, htype, hlen.trans hn, (readStrings_iff h hget htype ss).mpr ⟨hss, hn.symm.trans hlen.symm⟩⟩

/-- A vocabulary is loaded exactly from the tables of strings that the document has under the two keys. -/
theorem vocabLoad_iff (family : ModelFamily) (v : Vocab) : vocabLoad family (d.model file) = .ok v ↔
    ∃ token merges, d.Strings tokensKey token ∧ token.length ≤ Model.intMax ∧ d.Strings mergesKey merges ∧
      vocabIds family (d.model file) token merges = .ok v := by
  simp only [vocabLoad, bind_eq_ok, tokenTable_iff, mergeTable_iff]
  constructor
  · rintro ⟨ref, ⟨hget, htype, hlen⟩, ref', ⟨hget', htype'⟩, token, htoken, merges, hmerges, hids⟩
    obtain ⟨htoken, hn⟩ := (readStrings_iff h hget htype token).mp htoken
    obtain ⟨hmerges, -⟩ := (readStrings_iff h hget' htype' merges).mp hmerges
    exact ⟨token, merges, htoken, hn ▸ hlen, hmerges, hids⟩
  · rintro ⟨token, merges, htoken, hlen, hmerges, hids⟩
    obtain ⟨ref, hget, htype, hlen', hread⟩ := exists_table h htoken
    obtain ⟨ref', hget', htype', -, hread'⟩ := exists_table h hmerges
    exact ⟨ref, ⟨hget, htype, hlen' ▸ hlen⟩, ref', ⟨hget', htype'⟩, token, hread, merges, hread', hids⟩

end

/-! ## Control tokens -/

/-- The markers that stand for a token of another text. -/
def aliases : List Bytes := [lit "[gMASK]", lit "<|user|>", lit "<|assistant|>"]

theorem vocabLookup_ok {token : List Bytes} {text : String} {id : Int} (h : vocabLookup token text = .ok id) :
    ∃ i : Nat, token[i]? = some (lit text) ∧ id = i := by
  rw [vocabLookup] at h
  split at h
  · next id' hget =>
    cases h
    exact get_tableOf_some hget
  · cases h

theorem vocabLookup_of_mem {token : List Bytes} {text : String} (h : lit text ∈ token) :
    ∃ id, vocabLookup token text = .ok id := by
  have hsome : ((tableOf Int.ofNat token).get hashBytes (lit text)).isSome := get_tableOf_isSome h
  obtain ⟨id, hget⟩ := Option.isSome_iff_exists.mp hsome
  exact ⟨id, by rw [vocabLookup, hget]⟩

/-- The token of a marker has the marker's text, an alias apart. -/
theorem specials_deepseek {m : Model} {token merges : List Bytes} {v : Vocab} (h : vocabIds .deepseek m token merges = .ok v) :
    v.token = token ∧ v.merges = merges ∧ ∀ x ∈ specials v, 0 ≤ x.2 →
      ∃ s, v.token[x.2.toNat]? = some s ∧ (Graphic s ∨ vocabTokenIsLiteralSpecial s = true) ∧ (x.1 ∉ aliases → s = x.1) := by
  simp only [vocabIds, bind_eq_ok] at h
  obtain ⟨bos, hbos, eos, heos, user, huser, assistant, hassistant, start, hstart, stop, hstop, dsml, hdsml, hv⟩ := h
  cases hv
  obtain ⟨bos, bosText, rfl⟩ := vocabLookup_ok hbos
  obtain ⟨eos, eosText, rfl⟩ := vocabLookup_ok heos
  obtain ⟨user, userText, rfl⟩ := vocabLookup_ok huser
  obtain ⟨assistant, assistantText, rfl⟩ := vocabLookup_ok hassistant
  obtain ⟨start, startText, rfl⟩ := vocabLookup_ok hstart
  obtain ⟨stop, stopText, rfl⟩ := vocabLookup_ok hstop
  obtain ⟨dsml, dsmlText, rfl⟩ := vocabLookup_ok hdsml
  have hbar : ∀ s ∈ [lit "<｜begin▁of▁sentence｜>", lit "<｜end▁of▁sentence｜>", lit "<｜User｜>", lit "<｜Assistant｜>", lit "｜DSML｜"],
      vocabTokenIsLiteralSpecial s = true := by decide
  have hgraphic : ∀ s ∈ [lit "<think>", lit "</think>"], Graphic s :=
    fun s hs => graphic_of_all (by revert s; decide)
  simp only [List.forall_mem_cons] at hbar hgraphic
  refine ⟨rfl, rfl, ?_⟩
  intro x hx hpos
  simp only [specials, List.mem_cons, List.not_mem_nil, or_false] at hx
  -- the control tokens that the vocabulary has, in the order of the markers; the others have the id -1
  rcases hx with rfl | rfl | rfl | rfl | rfl | rfl | rfl | rfl | rfl | rfl | rfl | rfl | rfl | rfl | rfl | rfl | rfl | rfl |
    rfl | rfl | rfl
  · exact ⟨_, bosText, .inr hbar.1, fun _ => rfl⟩
  · exact ⟨_, eosText, .inr hbar.2.1, fun _ => rfl⟩
  · exact ⟨_, bosText, .inr hbar.1, fun hno => absurd (by simp [aliases]) hno⟩
  · exact absurd hpos (by decide)
  · exact absurd hpos (by decide)
  · exact ⟨_, userText, .inr hbar.2.2.1, fun _ => rfl⟩
  · exact ⟨_, assistantText, .inr hbar.2.2.2.1, fun _ => rfl⟩
  · exact ⟨_, userText, .inr hbar.2.2.1, fun hno => absurd (by simp [aliases]) hno⟩
  · exact ⟨_, assistantText, .inr hbar.2.2.2.1, fun hno => absurd (by simp [aliases]) hno⟩
  · exact absurd hpos (by decide)
  · exact ⟨_, startText, .inl hgraphic.1, fun _ => rfl⟩
  · exact ⟨_, stopText, .inl hgraphic.2.1, fun _ => rfl⟩
  all_goals first | exact absurd hpos (by decide) | exact ⟨_, dsmlText, .inr hbar.2.2.2.2.1, fun _ => rfl⟩

theorem marker_ne_nil (v : Vocab) : ∀ x ∈ specials v, x.1 ≠ [] := by
  simp [specials, lit]

/-- Where no alias occurs, every marker is replaced with itself. -/
theorem replaceMarkers_eq {v : Vocab} (h : ∀ x ∈ specials v, 0 ≤ x.2 → x.1 ∉ aliases → Tokenizer.rawText v x.2 = x.1)
    (p : Bytes) (haliases : ∀ a ∈ aliases, ¬a <:+: p) : replaceMarkers v p = p := by
  fun_induction replaceMarkers v p with
  | case1 => rfl
  | case2 c p marker token hmarker ih =>
    have hmem := List.mem_of_find?_eq_some hmarker
    have hfound := List.find?_some hmarker
    rw [Bool.and_eq_true, decide_eq_true_eq, decide_eq_true_eq] at hfound
    obtain ⟨hpos, u, hu⟩ := hfound
    have hself : Tokenizer.rawText v token = marker := h _ hmem hpos fun ha => haliases _ ha ⟨[], u, hu⟩
    cases marker with
    | nil => exact absurd rfl (marker_ne_nil v _ hmem)
    | cons c' rest =>
      rw [List.cons_append] at hu
      cases hu
      rw [List.length_cons, Nat.add_sub_cancel, List.drop_left] at ih ⊢
      rw [hself, ih fun a ha hin => haliases a ha (hin.trans (List.suffix_append (c :: rest) u).isInfix),
        List.cons_append]
  | case3 c p hmarker ih =>
    rw [ih fun a ha hin => haliases a ha (hin.trans (List.suffix_cons c p).isInfix)]

/-- A vocabulary that is loaded from an accepted file has the tables of the document at the file's start. When the tables are
complete, a chat without an alias is read back from its tokens. -/
theorem load_tokenize {file : Bytes} (hfile : file.length < 2 ^ 63) {m : Model} (hopen : modelOpen file = .ok m) {v : Vocab}
    (hload : vocabLoad .deepseek m = .ok v) :
    (∃ d : Doc, d.At file ∧ d.Strings tokensKey v.token ∧ d.Strings mergesKey v.merges) ∧
      (v.Complete → ∀ text, (∀ a ∈ aliases, ¬a <:+: text) →
        (tokenizeRenderedChatVocab .deepseek v text).flatMap (ds4TokenText v) = text) := by
  obtain ⟨-, d, hwf, hpre, -, rfl⟩ := (modelOpen_iff file hfile m).mp hopen
  have h : d.At file := ⟨hwf, hpre⟩
  obtain ⟨token, merges, htoken, -, hmerges, hids⟩ := (vocabLoad_iff h .deepseek v).mp hload
  obtain ⟨rfl, rfl, hspecial⟩ := specials_deepseek hids
  refine ⟨⟨d, h, htoken, hmerges⟩, fun hcomplete text haliases => ?_⟩
  have hcontrol : ∀ x ∈ specials v, 0 ≤ x.2 → ControlText v x.2 := by
    intro x hx hpos
    obtain ⟨s, hs, htext, -⟩ := hspecial x hx hpos
    exact ⟨s, hs, htext⟩
  have hraw : ∀ x ∈ specials v, 0 ≤ x.2 → x.1 ∉ aliases → Tokenizer.rawText v x.2 = x.1 := by
    intro x hx hpos ha
    obtain ⟨s, hs, -, heq⟩ := hspecial x hx hpos
    rw [Tokenizer.rawText, hs]
    exact heq ha
  rw [tokenizeRenderedChatVocab, ds4TokenText_tokenizeLoop hcomplete hcontrol, List.nil_append,
    replaceMarkers_eq hraw text haliases]

/-! ## A small model -/

def stringsEntry (key : Bytes) (ss : List Bytes) : Entry :=
  ⟨key, typeArray, lePut 4 typeString ++ (lePut 8 (ss.map encodeString).length ++ (ss.map encodeString).flatten)⟩

def requiredTokens : List Bytes :=
  [lit "<｜begin▁of▁sentence｜>", lit "<｜end▁of▁sentence｜>", lit "<｜User｜>", lit "<｜Assistant｜>", lit "<think>", lit "</think>",
    lit "｜DSML｜"]

/-- The byte symbols and the control tokens. -/
def smallTokens : List Bytes := byteSymbols ++ requiredTokens

def smallDoc : Doc := ⟨[stringsEntry tokensKey smallTokens, stringsEntry mergesKey []], []⟩

theorem stringsEntry_wf {key : Bytes} {ss : List Bytes} (hkey : key.length < 256 ^ 8) (hlen : ss.length < 256 ^ 8)
    (hss : ∀ s ∈ ss, s.length < 256 ^ 8) : (stringsEntry key ss).WF := by
  have htype : typeArray < 256 ^ 4 := by decide
  refine ⟨hkey, htype, .array (by decide) rfl (by rwa [List.length_map]) fun b hb => ?_⟩
  obtain ⟨s, hs, rfl⟩ := List.mem_map.mp hb
  exact .string (hss s hs)

theorem smallTokens_length : smallTokens.length = 263 := by
  rw [smallTokens, List.length_append, byteSymbols, List.length_map, List.length_range]
  rfl

theorem smallDoc_length : (∀ s ∈ smallTokens, s.length < 256 ^ 8) ∧ 32 ≤ smallDoc.encode.length ∧
    smallDoc.encode.length < 2 ^ 63 := by
  decide +kernel

theorem smallDoc_at : smallDoc.At smallDoc.encode where
  wf :=
    { entries := by
        simp only [smallDoc, List.forall_mem_cons]
        exact ⟨stringsEntry_wf (by decide) (by rw [smallTokens_length]; decide) smallDoc_length.1,
          stringsEntry_wf (by decide) (by decide) nofun, nofun⟩
      tensors := nofun
      nEntries := by decide
      nTensors := by decide }
  encode := List.prefix_rfl

theorem smallDoc_open : modelOpen smallDoc.encode = .ok (smallDoc.model smallDoc.encode) :=
  (modelOpen_iff _ smallDoc_length.2.2 _).mpr ⟨smallDoc_length.2.1, smallDoc, smallDoc_at.wf, smallDoc_at.encode, nofun, rfl⟩

theorem strings_stringsEntry {d : Doc} {key : Bytes} {ss : List Bytes} (hfind : d.find key = some (stringsEntry key ss))
    (hlen : ss.length < 256 ^ 8) (hss : ∀ s ∈ ss, s.length < 256 ^ 8) : d.Strings key ss := by
  refine ⟨⟨_, hfind, rfl, rfl, by decide, by rwa [List.length_map], fun b hb => ?_⟩, hss⟩
  obtain ⟨s, hs, rfl⟩ := List.mem_map.mp hb
  exact .string (hss s hs)

theorem smallDoc_strings : smallDoc.Strings tokensKey smallTokens ∧ smallDoc.Strings mergesKey [] := by
  have htokens : smallDoc.find tokensKey = some (stringsEntry tokensKey smallTokens) :=
    List.find?_cons_of_pos (decide_eq_true rfl)
  have hmerges : smallDoc.find mergesKey = some (stringsEntry mergesKey []) := by
    rw [Doc.find, smallDoc, List.find?_cons_of_neg (by decide)]
    exact List.find?_cons_of_pos (decide_eq_true rfl)
  exact ⟨strings_stringsEntry htokens (by rw [smallTokens_length]; decide) smallDoc_length.1,
    strings_stringsEntry hmerges (by decide) nofun⟩

theorem exists_smallVocab : ∃ v, vocabLoad .deepseek (smallDoc.model smallDoc.encode) = .ok v ∧ v.token = smallTokens ∧
    v.merges = [] := by
  have hmem : ∀ s ∈ requiredTokens, s ∈ smallTokens := fun s hs => List.mem_append_right _ hs
  simp only [requiredTokens, List.forall_mem_cons] at hmem
  obtain ⟨hbos, heos, huser, hassistant, hstart, hstop, hdsml, -⟩ := hmem
  obtain ⟨bos, hbos⟩ := vocabLookup_of_mem hbos
  obtain ⟨eos, heos⟩ := vocabLookup_of_mem heos
  obtain ⟨user, huser⟩ := vocabLookup_of_mem huser
  obtain ⟨assistant, hassistant⟩ := vocabLookup_of_mem hassistant
  obtain ⟨start, hstart⟩ := vocabLookup_of_mem hstart
  obtain ⟨stop, hstop⟩ := vocabLookup_of_mem hstop
  obtain ⟨dsml, hdsml⟩ := vocabLookup_of_mem hdsml
  have hids : ∃ v, vocabIds .deepseek (smallDoc.model smallDoc.encode) smallTokens [] = .ok v := by
    simp only [vocabIds, bind_eq_ok]
    exact ⟨_, bos, hbos, eos, heos, user, huser, assistant, hassistant, start, hstart, stop, hstop, dsml, hdsml, rfl⟩
  obtain ⟨v, hids⟩ := hids
  obtain ⟨htoken, hmerges, -⟩ := specials_deepseek hids
  exact ⟨v, (vocabLoad_iff smallDoc_at .deepseek v).mpr ⟨_, _, smallDoc_strings.1, by rw [smallTokens_length]; decide,
    smallDoc_strings.2, hids⟩,
    htoken, hmerges⟩

theorem load_tokenize_small : ∃ v, vocabLoad .deepseek (smallDoc.model smallDoc.encode) = .ok v ∧
    (tokenizeRenderedChatVocab .deepseek v (lit "<｜User｜>hi <think>")).flatMap (ds4TokenText v) = lit "<｜User｜>hi <think>" := by
  obtain ⟨v, hload, htoken, hmerges⟩ := exists_smallVocab
  have hcomplete : v.Complete := by
    constructor
    · intro b
      rw [htoken]
      exact List.mem_append_left _ (List.mem_map.mpr ⟨b.toNat, List.mem_range.mpr b.toNat_lt, by rw [UInt8.ofNat_toNat]⟩)
    · intro x y _ _ hmem
      rw [hmerges] at hmem
      cases hmem
  refine ⟨v, hload, (load_tokenize smallDoc_length.2.2 smallDoc_open hload).2 hcomplete _ ?_⟩
  simp only [aliases, List.forall_mem_cons]
  exact ⟨by decide, by decide, by decide, nofun⟩

end Ds4.Gguf
