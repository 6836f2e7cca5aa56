import Ds4.Tokenizer.Bpe
import Ds4.Tokenizer.Split

/-!
# Tokens of a text and of a rendered chat

`bpe_tokenize_text` and `tokenize_rendered_chat_vocab`. No byte of a text is lost: the tokens spell it, with the text
of its control token in place of each control marker (`tokenize_lossless`).
-/

namespace Ds4.Tokenizer
open C

inductive ModelFamily
  | deepseek
  | glmDsa
  deriving DecidableEq, Repr

def splitter : ModelFamily → Splitter
  | .glmDsa => glm4
  | .deepseek => joyai

def bpeTokenizeText (family : ModelFamily) (v : Vocab) (text : Bytes) : List Int :=
  ((splitter family).pieces text).flatMap (bpeEmitPiece v)

/-- The control markers in the order in which they are tried. -/
def specials (v : Vocab) : List (Bytes × Int) :=
  [(lit "<｜begin▁of▁sentence｜>", v.bosId),
    (lit "<｜end▁of▁sentence｜>", v.eosId),
    (lit "[gMASK]", v.bosId),
    (lit "<sop>", v.sopId),
    (lit "<|system|>", v.systemId),
    (lit "<｜User｜>", v.userId),
    (lit "<｜Assistant｜>", v.assistantId),
    (lit "<|user|>", v.userId),
    (lit "<|assistant|>", v.assistantId),
    (lit "<|observation|>", v.observationId),
    (lit "<think>", v.thinkStartId),
    (lit "</think>", v.thinkEndId),
    (lit "<tool_call>", v.toolCallStartId),
    (lit "</tool_call>", v.toolCallEndId),
    (lit "<tool_response>", v.toolResponseStartId),
    (lit "</tool_response>", v.toolResponseEndId),
    (lit "<arg_key>", v.argKeyStartId),
    (lit "</arg_key>", v.argKeyEndId),
    (lit "<arg_value>", v.argValueStartId),
    (lit "</arg_value>", v.argValueEndId),
    (lit "｜DSML｜", v.dsmlId)]

/-- The marker at the start of a text and its token. -/
def specialTokenAt (v : Vocab) (p : Bytes) : Option (Bytes × Int) :=
  (specials v).find? fun x => 0 ≤ x.2 && decide (x.1 <+: p)

def tokenizeSpan (family : ModelFamily) (v : Vocab) (span : Bytes) : List Int :=
  if span = [] then [] else bpeTokenizeText family v span

/-- The loop at the text `p`, with the text since the last marker. -/
def tokenizeLoop (family : ModelFamily) (v : Vocab) (span p : Bytes) : List Int :=
  match p with
  | [] => tokenizeSpan family v span
  | c :: p =>
    match specialTokenAt v (c :: p) with
    | some (marker, token) =>
      tokenizeSpan family v span ++ token :: tokenizeLoop family v [] (p.drop (marker.length - 1))
    | none => tokenizeLoop family v (span ++ [c]) p
termination_by p.length
decreasing_by all_goals (simp only [List.length_drop, List.length_cons]; omega)

def tokenizeRenderedChatVocab (family : ModelFamily) (v : Vocab) (text : Bytes) : List Int :=
  tokenizeLoop family v [] text

/-! ## No byte is lost -/

/-- The text of a token as the vocabulary has it. -/
def rawText (v : Vocab) (token : Int) : Bytes := (v.token[token.toNat]?).getD []

/-- The text with the raw text of its control token in place of each marker. -/
def replaceMarkers (v : Vocab) (p : Bytes) : Bytes :=
  match p with
  | [] => []
  | c :: p =>
    match specialTokenAt v (c :: p) with
    | some (marker, token) => rawText v token ++ replaceMarkers v (p.drop (marker.length - 1))
    | none => c :: replaceMarkers v p
termination_by p.length
decreasing_by all_goals (simp only [List.length_drop, List.length_cons]; omega)

/-- ASCII letters, digits and punctuation, which the alphabet has as they are. -/
def Graphic (s : Bytes) : Prop := ∀ c ∈ s, 33 ≤ c.toNat ∧ c.toNat ≤ 126

/-- A control token is in the vocabulary, as graphic ASCII or with the fullwidth bar. -/
def ControlText (v : Vocab) (token : Int) : Prop :=
  ∃ s, v.token[token.toNat]? = some s ∧ (Graphic s ∨ vocabTokenIsLiteralSpecial s = true)

theorem decodeSymbols_graphic {s : Bytes} (h : Graphic s) : decodeSymbols s = s := by
  have henc : byteEncode s = s := by
    have hbyte : ∀ c ∈ s, byteSymbol c = [c] := by
      intro c hc
      obtain ⟨hlow, hhigh⟩ := h c hc
      exact byteSymbol_graphic hlow hhigh
    rw [byteEncode, List.flatMap_congr hbyte, List.flatMap_singleton']
  conv_lhs => rw [← henc]
  exact decodeSymbols_byteEncode s

theorem ds4TokenText_control {v : Vocab} {token : Int} (hpos : 0 ≤ token) (h : ControlText v token) :
    ds4TokenText v token = rawText v token := by
  obtain ⟨s, hs, htext⟩ := h
  obtain ⟨i, rfl⟩ := Int.eq_ofNat_of_zero_le hpos
  rw [Int.toNat_natCast] at hs
  rw [ds4TokenText_of_getElem hs, rawText, Int.toNat_natCast, hs, Option.getD_some]
  split
  · rfl
  · next hbar => exact decodeSymbols_graphic (htext.resolve_right hbar)

section
variable {family : ModelFamily} {v : Vocab} (hv : v.Complete)
include hv

theorem ds4TokenText_bpeTokenizeText (text : Bytes) :
    (bpeTokenizeText family v text).flatMap (ds4TokenText v) = text := by
  have hpiece : ∀ piece ∈ (splitter family).pieces text, (bpeEmitPiece v piece).flatMap (ds4TokenText v) = piece :=
    fun _ _ => ds4TokenText_bpeEmitPiece hv
  rw [bpeTokenizeText, List.flatMap_assoc, List.flatMap_congr hpiece, List.flatMap_id', (Splitter.pieces_spec _ _).1]

theorem ds4TokenText_tokenizeSpan (span : Bytes) :
    (tokenizeSpan family v span).flatMap (ds4TokenText v) = span := by
  rw [tokenizeSpan]
  split
  · next h => rw [h, List.flatMap_nil]
  · exact ds4TokenText_bpeTokenizeText hv span

theorem ds4TokenText_tokenizeLoop (hcontrol : ∀ x ∈ specials v, 0 ≤ x.2 → ControlText v x.2) (span p : Bytes) :
    (tokenizeLoop family v span p).flatMap (ds4TokenText v) = span ++ replaceMarkers v p := by
  fun_induction tokenizeLoop family v span p with
  | case1 span => rw [ds4TokenText_tokenizeSpan hv, replaceMarkers, List.append_nil]
  | case2 span c p marker token hmarker ih =>
    have hmem := List.mem_of_find?_eq_some hmarker
    have hpos : 0 ≤ token := by
      have := List.find?_some hmarker
      rw [Bool.and_eq_true] at this
      exact of_decide_eq_true this.1
    rw [List.flatMap_append, ds4TokenText_tokenizeSpan hv, List.flatMap_cons, ih, replaceMarkers, hmarker,
      ds4TokenText_control hpos (hcontrol _ hmem hpos)]
    rfl
  | case3 span c p hmarker ih =>
    rw [ih, replaceMarkers, hmarker, List.append_assoc]
    rfl

end

/-- Tokenisation is lossless. The pieces cut the text, the tokens of a text spell it, and those of a rendered chat
spell it with its markers replaced. No search in a table of the vocabulary goes on for ever. -/
theorem tokenize_lossless (family : ModelFamily) (v : Vocab) (hv : v.Complete) (text : Bytes) :
    (((splitter family).pieces text).flatten = text ∧ ∀ piece ∈ (splitter family).pieces text, piece ≠ []) ∧
    (bpeTokenizeText family v text).flatMap (ds4TokenText v) = text ∧
    ((∀ x ∈ specials v, 0 ≤ x.2 → ControlText v x.2) →
      (tokenizeRenderedChatVocab family v text).flatMap (ds4TokenText v) = replaceMarkers v text) ∧
    ∀ k, (v.tokenToId.locate hashBytes k).isSome ∧ (v.mergeRank.locate hashBytes k).isSome :=
  ⟨Splitter.pieces_spec _ _, ds4TokenText_bpeTokenizeText hv text, fun hcontrol => by
    rw [tokenizeRenderedChatVocab, ds4TokenText_tokenizeLoop hv hcontrol, List.nil_append],
    fun _ => ⟨locate_tableOf, locate_tableOf⟩⟩

def byteSymbols : List Bytes := (List.range 256).map fun n => byteSymbol (UInt8.ofNat n)

/-- The byte symbols and one control token. -/
def byteVocab (bos : Bytes) : Vocab where
  token := byteSymbols ++ [bos]
  merges := []
  bosId := 256
  eosId := -1
  systemId := -1
  userId := -1
  assistantId := -1
  observationId := -1
  sopId := -1
  thinkStartId := -1
  thinkEndId := -1
  toolCallStartId := -1
  toolCallEndId := -1
  toolResponseStartId := -1
  toolResponseEndId := -1
  argKeyStartId := -1
  argKeyEndId := -1
  argValueStartId := -1
  argValueEndId := -1
  dsmlId := -1

theorem byteVocab_complete (bos : Bytes) : (byteVocab bos).Complete where
  bytes := fun b => List.mem_append_left _ <|
    List.mem_map.mpr ⟨b.toNat, List.mem_range.mpr b.toNat_lt, by rw [UInt8.ofNat_toNat]⟩
  merges := fun _ _ _ _ h => nomatch h

theorem byteVocab_token (bos : Bytes) : (byteVocab bos).token[256]? = some bos := by
  have hlen : byteSymbols.length = 256 := by rw [byteSymbols, List.length_map, List.length_range]
  rw [byteVocab, List.getElem?_append_right hlen.le, hlen]
  rfl

theorem byteVocab_specials (bos : Bytes) : ∀ x ∈ specials (byteVocab bos), 0 ≤ x.2 → x.2 = 256 := by
  simp [specials, byteVocab]

theorem graphic_of_all {s : Bytes} (h : (s.all fun c => 33 ≤ c.toNat && c.toNat ≤ 126) = true) : Graphic s :=
  fun c hc => by simpa using List.all_eq_true.mp h c hc

theorem tokenize_lossless_byteVocab :
    (tokenizeRenderedChatVocab .glmDsa (byteVocab (lit "<sop>")) (lit "[gMASK]a")).flatMap
      (ds4TokenText (byteVocab (lit "<sop>"))) = lit "<sop>a" := by
  rw [(tokenize_lossless .glmDsa _ (byteVocab_complete _) (lit "[gMASK]a")).2.2.1 fun x hx hpos =>
    byteVocab_specials _ x hx hpos ▸ ⟨lit "<sop>", byteVocab_token _, .inl (graphic_of_all (by decide))⟩]
  decide +kernel

/-- A blank in the text of a control token is lost, since the alphabet has another symbol for it. -/
theorem tokenize_blank_lost :
    (byteVocab (lit "a b")).Complete ∧
    (∀ x ∈ specials (byteVocab (lit "a b")), 0 ≤ x.2 →
      ∃ s, (byteVocab (lit "a b")).token[x.2.toNat]? = some s ∧ ∀ c ∈ s, c < 128) ∧
    (tokenizeRenderedChatVocab .glmDsa (byteVocab (lit "a b")) (lit "[gMASK]")).flatMap
      (ds4TokenText (byteVocab (lit "a b"))) = lit "ab" ∧
    replaceMarkers (byteVocab (lit "a b")) (lit "[gMASK]") = lit "a b" := by
  refine ⟨byteVocab_complete _, fun x hx hpos => ?_, by decide +kernel, by decide +kernel⟩
  rw [byteVocab_specials _ x hx hpos]
  have hall : ((lit "a b").all fun c => c < 128) = true := by decide
  exact ⟨lit "a b", byteVocab_token _, fun c hc => by simpa using List.all_eq_true.mp hall c hc⟩

end Ds4.Tokenizer
