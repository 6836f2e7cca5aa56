import Ds4.Server.Tracker

/-!
# Tool markers while generating

The part of the token loop of `generate_job_inner` that watches the generated text of a chat with
tools and thinking enabled: the thinking state, the position of the decode tracker and
`observe_tool_markers`. The recovery of a complete call from unclosed reasoning, which ends the loop,
is not part of it.

The tracker is put behind `</think>` when the reasoning closes, but an unsuccessful search moves it
back by the length of the longest marker. `sawToolStart_iff` says for which reasoning texts this
makes a quoted marker look like a call.
-/

namespace Ds4
open C Scan

structure ThinkingState where
  inside : Bool
  /-- The last bytes that were fed, at most 8. -/
  tail : Bytes
  deriving DecidableEq

def thinkingFeedByte (st : ThinkingState) (c : UInt8) : ThinkingState :=
  let tail := (if st.tail.length = 8 then st.tail.drop 1 else st.tail) ++ [c]
  if lit "<think>" <:+ tail then ⟨true, tail⟩
  else if lit "</think>" <:+ tail then ⟨false, tail⟩
  else { st with tail := tail }

def thinkingStateFeed (st : ThinkingState) (p : Bytes) : ThinkingState := p.foldl thinkingFeedByte st

def thinkingStateFromPrompt (promptText : Bytes) : ThinkingState :=
  thinkingStateFeed ⟨false, []⟩ promptText

/-- The new values of `saw_start` and `saw_end`, and whether an orphan end marker was seen. -/
def observeToolMarkers (tracker : DsmlDecodeTracker) (scan : Bytes) (sawStart sawEnd : Bool) :
    Bool × Bool × Bool :=
  let sawStart := sawStart || tracker.mode.syn.isSome
  match tracker.mode with
  | .done _ => (sawStart, true, false)
  | _ => (sawStart, sawEnd, !sawStart && (findAnyToolEnd scan).isSome)

structure DecodeLoop where
  text : Bytes
  thinking : ThinkingState
  tracker : DsmlDecodeTracker
  sawToolStart : Bool
  sawToolEnd : Bool
  sawOrphanToolEnd : Bool
  toolScanFrom : Nat
  toolScanWaitingForThinkClose : Bool

def decodeLoopInit (modelSyntax : ServerModelSyntax) (promptText : Bytes) : DecodeLoop where
  text := []
  thinking := thinkingStateFromPrompt promptText
  tracker := dsmlDecodeTrackerInit modelSyntax
  sawToolStart := false
  sawToolEnd := false
  sawOrphanToolEnd := false
  toolScanFrom := 0
  toolScanWaitingForThinkClose := (thinkingStateFromPrompt promptText).inside

/-- The offset behind the last `</think>`, or the end of the text. -/
def afterLastThink (text : Bytes) : Nat :=
  match findLastSubstr (lit "</think>") (cstr text) with
  | some i => i + 8
  | none => text.length

/-- The tracker after a piece, `text` being the text with it. -/
def trackPiece (wasThinking inside : Bool) (tracker : DsmlDecodeTracker) (text : Bytes) :
    DsmlDecodeTracker :=
  if inside then { dsmlDecodeTrackerInit tracker.modelSyntax with pos := text.length }
  else dsmlDecodeTrackerUpdate text
    (if wasThinking then { tracker with pos := afterLastThink text } else tracker)

def decodePiece (d : DecodeLoop) (piece : Bytes) : DecodeLoop :=
  let text := d.text ++ piece
  let thinking := if dsmlDecodeStateIsTool d.tracker.decode then d.thinking
    else thinkingStateFeed d.thinking piece
  let tracker := trackPiece d.thinking.inside thinking.inside d.tracker text
  if thinking.inside then
    { d with
      text := text, thinking := thinking, tracker := tracker,
      toolScanWaitingForThinkClose := true, toolScanFrom := text.length }
  else
    let scanFrom := min text.length
      (if d.toolScanWaitingForThinkClose then afterLastThink text else d.toolScanFrom)
    let (sawStart, sawEnd, orphan) := observeToolMarkers tracker (cstr (text.drop scanFrom))
      d.sawToolStart d.sawToolEnd
    { d with
      text := text, thinking := thinking, tracker := tracker
      sawToolStart := sawStart, sawToolEnd := sawEnd
      sawOrphanToolEnd := d.sawOrphanToolEnd || orphan
      toolScanWaitingForThinkClose := false
      toolScanFrom := max scanFrom (text.length - 80) }

def decodePieces (modelSyntax : ServerModelSyntax) (promptText : Bytes) (pieces : List Bytes) :
    DecodeLoop := pieces.foldl decodePiece (decodeLoopInit modelSyntax promptText)

/-! ## The thinking state -/

theorem rtake_suffix (l : List α) : l.rtake n <:+ l := List.drop_suffix _ _

theorem length_rtake (l : List α) : (l.rtake n).length = min n l.length := by
  simp only [List.rtake, List.length_drop]; omega

theorem rtake_rtake_append (l w : List α) : (l.rtake n ++ w).rtake n = (l ++ w).rtake n := by
  have h1 : (l.rtake n ++ w).rtake n <:+ l ++ w := by
    refine (rtake_suffix _).trans ?_
    obtain ⟨u, hu⟩ := rtake_suffix (n := n) l
    exact ⟨u, by rw [← List.append_assoc, hu]⟩
  have hl : ((l.rtake n ++ w).rtake n).length = ((l ++ w).rtake n).length := by
    simp only [length_rtake, List.length_append]; omega
  exact (List.suffix_of_suffix_length_le h1 (rtake_suffix _) hl.le).eq_of_length hl

theorem suffix_rtake_iff {l w : List α} (hl : w.length ≤ n) : w <:+ l.rtake n ↔ w <:+ l := by
  refine ⟨fun h => h.trans (rtake_suffix l), fun hw => ?_⟩
  refine List.suffix_of_suffix_length_le hw (rtake_suffix l) ?_
  have := hw.length_le
  rw [length_rtake]; omega

theorem thinkingFeedByte_eq (h : st.tail.length ≤ 8) : thinkingFeedByte st c =
    ⟨if lit "<think>" <:+ st.tail ++ [c] then true
      else if lit "</think>" <:+ st.tail ++ [c] then false else st.inside,
      (st.tail ++ [c]).rtake 8⟩ := by
  have he : (if st.tail.length = 8 then st.tail.drop 1 else st.tail) ++ [c] =
      (st.tail ++ [c]).rtake 8 := by
    rw [List.rtake]
    split
    · next h8 => rw [List.length_append, h8, List.drop_append_of_le_length (by simp [h8])]; rfl
    · rw [List.length_append, List.length_singleton,
        show st.tail.length + 1 - 8 = 0 by omega, List.drop_zero]
  rw [thinkingFeedByte, he]
  simp only [suffix_rtake_iff (show (lit "<think>").length ≤ 8 by decide),
    suffix_rtake_iff (show (lit "</think>").length ≤ 8 by decide)]
  repeat' split
  all_goals rfl

theorem thinkingStateFeed_append :
    thinkingStateFeed st (a ++ b) = thinkingStateFeed (thinkingStateFeed st a) b :=
  List.foldl_append

/-- The tail holds the last bytes of everything that was fed. -/
theorem thinkingStateFeed_tail (h : st.tail.length ≤ 8) :
    (thinkingStateFeed st w).tail = (st.tail ++ w).rtake 8 := by
  induction w generalizing st with
  | nil =>
    rw [List.append_nil, List.rtake, Nat.sub_eq_zero_of_le h, List.drop_zero]
    rfl
  | cons c w ih =>
    have ht : (thinkingFeedByte st c).tail = (st.tail ++ [c]).rtake 8 := by
      rw [thinkingFeedByte_eq h]
    have hl : (thinkingFeedByte st c).tail.length ≤ 8 := by rw [ht, length_rtake]; omega
    change (thinkingStateFeed (thinkingFeedByte st c) w).tail = _
    rw [ih hl, ht, rtake_rtake_append]
    simp

/-- Feeding one more byte, in terms of everything that was fed. -/
theorem thinkingStateFeed_snoc (h : st.tail.length ≤ 8) :
    (thinkingStateFeed st (w ++ [c])).inside =
      if lit "<think>" <:+ st.tail ++ (w ++ [c]) then true
      else if lit "</think>" <:+ st.tail ++ (w ++ [c]) then false
      else (thinkingStateFeed st w).inside := by
  have hl : (thinkingStateFeed st w).tail.length ≤ 8 := by
    rw [thinkingStateFeed_tail h, length_rtake]; omega
  have hs : ∀ v : Bytes, v.length ≤ 8 →
      (v <:+ (thinkingStateFeed st w).tail ++ [c] ↔ v <:+ st.tail ++ (w ++ [c])) := by
    intro v hv
    rw [thinkingStateFeed_tail h, ← suffix_rtake_iff hv, rtake_rtake_append, suffix_rtake_iff hv,
      List.append_assoc]
  rw [thinkingStateFeed_append]
  change (thinkingFeedByte _ _).inside = _
  rw [thinkingFeedByte_eq hl]
  simp only [hs (lit "<think>") (by decide), hs (lit "</think>") (by decide)]

/-- Reasoning closes only where a closing tag ends. -/
theorem exists_close_of_outside (hi : st.inside = true) (ht : st.tail.length ≤ 8)
    (h : (thinkingStateFeed st w).inside = false) :
    ∃ x, x <+: w ∧ x ≠ [] ∧ lit "</think>" <:+ st.tail ++ x := by
  induction w using List.reverseRecOn with
  | nil => rw [thinkingStateFeed, List.foldl_nil, hi] at h; cases h
  | append_singleton w c ih =>
    rw [thinkingStateFeed_snoc ht] at h
    split at h
    · cases h
    split at h
    · next h2 => exact ⟨w ++ [c], List.prefix_rfl, by simp, h2⟩
    · obtain ⟨x, hx, h3⟩ := ih h
      exact ⟨x, hx.trans (List.prefix_append _ _), h3⟩

theorem suffix_think_snoc {u : Bytes} :
    u ++ lit "<think>" = (u ++ lit "<think") ++ [ch '>'] := by
  rw [List.append_assoc]; rfl

/-- A prompt that ends with the opening tag starts generation inside the reasoning. -/
theorem thinkingStateFromPrompt_open (h : lit "<think>" <:+ prompt) :
    (thinkingStateFromPrompt prompt).inside = true := by
  obtain ⟨u, rfl⟩ := h
  rw [thinkingStateFromPrompt, suffix_think_snoc, thinkingStateFeed_snoc (by simp), if_pos]
  rw [← suffix_think_snoc]
  exact ⟨u, by simp⟩

/-! ## The text of a closed reasoning -/

/-- A generated text with one closed reasoning `R`, in a session whose prompt opened it; no tool
start marker of the model stands in the content `C`. -/
structure ClosedReasoning (stx : ServerModelSyntax) (prompt R C : Bytes) : Prop where
  opened : lit "<think>" <:+ prompt
  unclosed : find (lit "</think>") R = none
  content : ∀ syn ∈ toolSyntaxes stx, find syn.toolCallsStart C = none

/-- Every marker in the reasoning starts before position `p`. -/
def QuotedBefore (stx : ServerModelSyntax) (R : Bytes) (p : Nat) : Prop :=
  ∀ syn ∈ toolSyntaxes stx, ∀ q, syn.toolCallsStart <+: R.drop q → q < p

theorem quotedBefore_length : QuotedBefore stx R (R.length + k) := by
  intro syn _ q hq
  have h1 := hq.length_le
  have h2 := List.length_pos_of_ne_nil (syn.sharp syn.toolCallsStart (by simp)).ne_nil
  rw [List.length_drop] at h1
  omega

theorem toolCallsStart_head {syn : DsmlSyntax} (hs : syn ∈ toolSyntaxes stx) :
    syn.toolCallsStart.take 1 = lit "<" ∧ syn.toolCallsStart.take 2 ≠ lit "</" ∧
      2 ≤ syn.toolCallsStart.length := by
  revert syn
  cases stx <;> decide

section ClosedReasoning

variable {stx : ServerModelSyntax} {prompt R C : Bytes} (h : ClosedReasoning stx prompt R C)
include h

theorem ClosedReasoning.close_pos (hx : x <+: R ++ lit "</think>" ++ C)
    (hp : lit "</think>" <+: x.drop p) : R.length ≤ p := by
  have hf : find (lit "</think>") (R ++ lit "</think>" ++ C) = some R.length :=
    Sharp.find_at (c := ch '<') (by decide) h.unclosed
  by_contra hlt
  refine (find_eq_some_iff.1 hf).2 p (by omega) ?_
  obtain ⟨u, hu⟩ := hx
  rw [← hu, List.drop_append]
  exact hp.trans (List.prefix_append _ _)

/-- Markers occur in the reasoning only. -/
theorem ClosedReasoning.marker_pos {syn : DsmlSyntax} (hs : syn ∈ toolSyntaxes stx)
    (hp : syn.toolCallsStart <+: (R ++ lit "</think>" ++ C).drop p) :
    syn.toolCallsStart <+: R.drop p := by
  obtain ⟨h1, h2, h3⟩ := toolCallsStart_head hs
  rw [List.append_assoc] at hp
  rcases Nat.lt_or_ge p R.length with hlt | hge
  · rw [List.drop_append_of_le_length hlt.le] at hp
    refine (syn.sharp syn.toolCallsStart (by simp)).prefix_left ?_ hp
    simp only [ne_eq, List.drop_eq_nil_iff]; omega
  · exfalso
    rw [List.drop_append, List.drop_eq_nil_of_le hge, List.nil_append] at hp
    generalize p - R.length = k at hp
    have htake : ∀ n ≤ 2, syn.toolCallsStart.take n = ((lit "</think>" ++ C).drop k).take n := by
      intro n hn
      obtain ⟨u, hu⟩ := hp
      rw [← hu, List.take_append_of_le_length (by omega)]
    rcases Nat.lt_or_ge k 8 with hk | hk
    · have hdrop : (lit "</think>" ++ C).drop k = (lit "</think>").drop k ++ C :=
        List.drop_append_of_le_length (by have : (lit "</think>").length = 8 := by decide
                                          omega)
      rcases Nat.eq_zero_or_pos k with rfl | hpos
      · have := htake 2 le_rfl
        rw [hdrop] at this
        exact h2 this
      · have hone : ∀ k < 8, 0 < k → ((lit "</think>").drop k).take 1 ≠ lit "<" ∧
            1 ≤ ((lit "</think>").drop k).length := by decide
        obtain ⟨ho, hl⟩ := hone k hk hpos
        have := htake 1 (by omega)
        rw [hdrop, List.take_append_of_le_length hl, h1] at this
        exact ho this.symm
    · rw [List.drop_append, List.drop_eq_nil_of_le (show (lit "</think>").length ≤ k from hk),
        List.nil_append] at hp
      exact find_eq_none_iff.1 (h.content syn hs) _ hp

/-- The search finds nothing behind the quoted markers. -/
theorem ClosedReasoning.trackFindStart_none (hx : x <+: R ++ lit "</think>" ++ C)
    (hq : QuotedBefore stx R p) : trackFindStart stx (x.drop p) = none := by
  rw [trackFindStart, findAny_eq_none_iff]
  intro syn hs
  rw [find_eq_none_iff]
  intro j hj
  rw [List.drop_drop] at hj
  have hT : syn.toolCallsStart <+: (R ++ lit "</think>" ++ C).drop (p + j) := by
    obtain ⟨u, hu⟩ := hx
    rw [← hu, List.drop_append]
    exact hj.trans (List.prefix_append _ _)
  have := hq syn hs _ (h.marker_pos hs hT)
  omega

/-- Reasoning is not left before its closing tag is complete. -/
theorem ClosedReasoning.length_of_outside (hx : x <+: R ++ lit "</think>" ++ C)
    (ho : (thinkingStateFeed (thinkingStateFromPrompt prompt) x).inside = false) :
    R.length + 8 ≤ x.length := by
  have htail : (thinkingStateFromPrompt prompt).tail = prompt.rtake 8 := by
    rw [thinkingStateFromPrompt, thinkingStateFeed_tail (by simp)]; rfl
  obtain ⟨y, hy, hne, hclose⟩ := exists_close_of_outside (thinkingStateFromPrompt_open h.opened)
    (by rw [htail, length_rtake]; omega) ho
  rcases Nat.lt_or_ge y.length 8 with hlt | hge
  · -- the tag would have to begin in the prompt, which ends with `>`
    exfalso
    obtain ⟨w, hw⟩ : lit "<think>" <:+ prompt.rtake 8 :=
      (suffix_rtake_iff (by decide)).2 h.opened
    rw [htail, ← hw, List.append_assoc] at hclose
    have hpos := List.length_pos_of_ne_nil hne
    obtain ⟨u, hu⟩ : lit "</think>" <:+ lit "<think>" ++ y := by
      refine List.suffix_of_suffix_length_le hclose (List.suffix_append _ _) ?_
      rw [List.length_append, show (lit "</think>").length = 8 by decide,
        show (lit "<think>").length = 7 by decide]
      omega
    have hl := congrArg List.length hu
    rw [List.length_append, List.length_append, show (lit "</think>").length = 8 by decide,
      show (lit "<think>").length = 7 by decide] at hl
    have hd : ((u ++ lit "</think>").drop u.length).take (7 - u.length) =
      ((lit "<think>" ++ y).drop u.length).take (7 - u.length) := by rw [hu]
    rw [List.drop_left, List.drop_append_of_le_length (by
        rw [show (lit "<think>").length = 7 by decide]; omega),
      List.take_append_of_le_length (by
        rw [List.length_drop, show (lit "<think>").length = 7 by decide]),
      List.take_of_length_le (l := (lit "<think>").drop u.length) (by
        rw [List.length_drop, show (lit "<think>").length = 7 by decide])] at hd
    have hno : ∀ k < 7, (lit "</think>").take (7 - k) ≠ (lit "<think>").drop k := by decide
    exact hno u.length (by omega) hd
  · have hsuf : lit "</think>" <:+ y :=
      List.suffix_of_suffix_length_le hclose (List.suffix_append _ _) hge
    obtain ⟨u, hu⟩ := hsuf
    have := h.close_pos (p := u.length) (hy.trans hx) (by rw [← hu, List.drop_left])
    have hl := hy.length_le
    rw [← hu, List.length_append, show (lit "</think>").length = 8 by decide] at hl
    omega

theorem ClosedReasoning.le_afterLastThink (hx : x <+: R ++ lit "</think>" ++ C)
    (hl : R.length + 8 ≤ x.length) : R.length + 8 ≤ afterLastThink x := by
  rw [afterLastThink]
  split
  · next i hi =>
    have := h.close_pos ((cstr_isPrefix x).trans hx) (findLastSubstr_isPrefix hi)
    omega
  · exact hl

end ClosedReasoning

/-! ## The loop while no call was seen -/

/-- The loop after the text `x`, with the tracker still searching. -/
structure Watching (stx : ServerModelSyntax) (prompt x : Bytes) (d : DecodeLoop) : Prop where
  text : d.text = x
  thinking : d.thinking = thinkingStateFeed (thinkingStateFromPrompt prompt) x
  mode : d.tracker.mode = .search
  decode : d.tracker.decode = .outside
  modelSyntax : d.tracker.modelSyntax = stx
  saw : d.sawToolStart = false
  pos : d.thinking.inside = false → d.tracker.pos = x.length - dsmlMaxToolStartLen

theorem Watching.init (h : lit "<think>" <:+ prompt) :
    Watching stx prompt [] (decodeLoopInit stx prompt) where
  text := rfl
  thinking := rfl
  mode := rfl
  decode := rfl
  modelSyntax := rfl
  saw := rfl
  pos hi := by
    have := thinkingStateFromPrompt_open h
    rw [show (decodeLoopInit stx prompt).thinking = thinkingStateFromPrompt prompt from rfl,
      this] at hi
    cases hi

/-- An unsuccessful search. -/
theorem update_of_not_found {dt : DsmlDecodeTracker} (hm : dt.mode = .search)
    (hf : trackFindStart dt.modelSyntax (raw.drop dt.pos) = none) :
    dsmlDecodeTrackerUpdate raw dt =
      { dt with pos := raw.length - dsmlMaxToolStartLen, decode := .outside } := by
  refine update_ret ?_
  obtain ⟨mode, decode, pos, inStr, esc, stx⟩ := dt
  cases hm
  simp only [trackStep, trackSearch] at hf ⊢
  rw [hf]

theorem Watching.thinking_append (h : Watching stx prompt x d) (p : Bytes) :
    thinkingStateFeed d.thinking p =
      thinkingStateFeed (thinkingStateFromPrompt prompt) (x ++ p) := by
  rw [h.thinking, thinkingStateFeed_append]

/-- One more piece, when the tracker cannot be behind a quoted marker. -/
theorem Watching.step (h : ClosedReasoning stx prompt R C) (hw : Watching stx prompt x d)
    (hx : x ++ p <+: R ++ lit "</think>" ++ C)
    (hsafe : d.thinking.inside = false → QuotedBefore stx R (x.length - dsmlMaxToolStartLen)) :
    Watching stx prompt (x ++ p) (decodePiece d p) := by
  have hth := hw.thinking_append p
  have hfeed : (if dsmlDecodeStateIsTool d.tracker.decode then d.thinking
      else thinkingStateFeed d.thinking p) = thinkingStateFeed d.thinking p := by
    rw [hw.decode]; rfl
  unfold decodePiece
  dsimp only
  rw [hfeed, hth, hw.text]
  cases hi : (thinkingStateFeed (thinkingStateFromPrompt prompt) (x ++ p)).inside with
  | true => exact ⟨rfl, rfl, rfl, rfl, hw.modelSyntax, hw.saw, fun h => by simp [hi] at h⟩
  | false =>
    have hlen := h.length_of_outside hx hi
    have htr : trackPiece d.thinking.inside false d.tracker (x ++ p) = { d.tracker with
        pos := (x ++ p).length - dsmlMaxToolStartLen, decode := .outside } := by
      rw [trackPiece, if_neg Bool.false_ne_true]
      cases hwas : d.thinking.inside with
      | true =>
        rw [if_pos rfl, update_of_not_found]
        · exact hw.mode
        · obtain ⟨k, hk⟩ := Nat.exists_eq_add_of_le (h.le_afterLastThink hx hlen)
          rw [hw.modelSyntax]
          refine h.trackFindStart_none hx ?_
          dsimp only
          rw [hk, Nat.add_assoc]
          exact quotedBefore_length
      | false =>
        rw [if_neg Bool.false_ne_true, update_of_not_found hw.mode]
        rw [hw.modelSyntax, hw.pos hwas]
        exact h.trackFindStart_none hx (hsafe hwas)
    rw [if_neg Bool.false_ne_true, htr]
    refine ⟨rfl, rfl, hw.mode, rfl, hw.modelSyntax, ?_, fun _ => rfl⟩
    simp [observeToolMarkers, hw.mode, hw.saw, DsmlTrackMode.syn]

theorem decodePieces_snoc : decodePieces stx prompt (ps ++ [p]) =
    decodePiece (decodePieces stx prompt ps) p := by
  rw [decodePieces, List.foldl_append]; rfl

theorem Watching.inside (h : ClosedReasoning stx prompt R C) (hw : Watching stx prompt x d)
    (hx : x <+: R ++ lit "</think>" ++ C) (hl : x.length < R.length + 8) :
    d.thinking.inside = true := by
  by_contra hi
  rw [Bool.not_eq_true, hw.thinking] at hi
  have := h.length_of_outside hx hi
  omega

theorem length_closed : (R ++ lit "</think>" ++ C).length = R.length + 8 + C.length := by
  simp only [List.length_append, show (lit "</think>").length = 8 by decide]

/-- A whole run, when no quoted marker is close to the end of the reasoning. -/
theorem watching_decodePieces (h : ClosedReasoning stx prompt R C)
    (hc : C = [] ∨ QuotedBefore stx R (R.length - 14)) (hne : ∀ p ∈ ps, p ≠ [])
    (hx : ps.flatten <+: R ++ lit "</think>" ++ C) :
    Watching stx prompt ps.flatten (decodePieces stx prompt ps) := by
  induction ps using List.reverseRecOn with
  | nil => exact .init h.opened
  | append_singleton ps p ih =>
    rw [List.flatten_append, List.flatten_singleton] at hx ⊢
    have hx' : ps.flatten <+: R ++ lit "</think>" ++ C := (List.prefix_append _ _).trans hx
    have hw := ih (fun p hp => hne p (List.mem_append_left _ hp)) hx'
    rw [decodePieces_snoc]
    refine hw.step h hx fun hout => ?_
    have hlen : R.length + 8 ≤ ps.flatten.length := by
      rw [hw.thinking] at hout
      exact h.length_of_outside hx' hout
    rcases hc with rfl | hc
    · -- the text was complete already
      have h1 := hx.length_le
      have h2 := List.length_pos_of_ne_nil (hne p (by simp))
      rw [length_closed, List.length_append, List.length_nil] at h1
      omega
    · intro syn hs q hq
      have := hc syn hs q hq
      have hm : dsmlMaxToolStartLen = 22 := by decide
      omega

theorem update_mode_ne_search {dt : DsmlDecodeTracker} (hm : dt.mode ≠ .search) :
    (dsmlDecodeTrackerUpdate raw dt).mode ≠ .search := by
  fun_induction dsmlDecodeTrackerUpdate raw dt with
  | case1 dt dt' h =>
    rcases trackStep_ret List.prefix_rfl hm h with ⟨d, rfl⟩ | ⟨syn, h1, -⟩
    · exact hm
    · rw [h1]; simp
  | case2 dt dt' h ih => exact ih (trackStep_next_mode h)

/-- A tracker that searches behind a marker enters it. -/
theorem update_of_found {dt : DsmlDecodeTracker} (hm : dt.mode = .search)
    (hf : trackFindStart dt.modelSyntax (raw.drop dt.pos) ≠ none) :
    (dsmlDecodeTrackerUpdate raw dt).mode ≠ .search := by
  obtain ⟨r, hr⟩ := Option.ne_none_iff_exists'.1 hf
  obtain ⟨dt', h⟩ : ∃ dt', trackStep raw dt = .next dt' := by
    rw [trackStep, hm]
    simp only [trackSearch, hr]
    exact ⟨_, rfl⟩
  rw [update_next h]
  exact update_mode_ne_search (trackStep_next_mode h)

/-- No opening tag ends at or one byte after a closing tag. -/
theorem open_not_suffix (u w : Bytes) (hw : w.length ≤ 1) :
    ¬ lit "<think>" <:+ u ++ (lit "</think>" ++ w) := by
  intro h
  have hl8 : (lit "</think>").length = 8 := by decide
  have hl7 : (lit "<think>").length = 7 := by decide
  obtain ⟨v, hv⟩ : lit "<think>" <:+ lit "</think>" ++ w :=
    List.suffix_of_suffix_length_le h (List.suffix_append _ _)
      (by rw [List.length_append, hl7, hl8]; omega)
  have hl := congrArg List.length hv
  rw [List.length_append, List.length_append, hl7, hl8] at hl
  have hd : ((v ++ lit "<think>").drop v.length).take 1 =
    ((lit "</think>" ++ w).drop v.length).take 1 := by rw [hv]
  rw [List.drop_left, List.drop_append_of_le_length (by omega),
    List.take_append_of_le_length (by rw [List.length_drop]; omega)] at hd
  have hno : ∀ k < 3, 0 < k → (lit "<think>").take 1 ≠ ((lit "</think>").drop k).take 1 := by
    decide
  exact hno v.length (by omega) (by omega) hd

/-- The pieces that expose a marker near the end of the reasoning: the closing tag alone, then one
byte of content. -/
theorem sawToolStart_of_quoted (h : ClosedReasoning stx prompt R (c :: C)) {syn : DsmlSyntax}
    (hs : syn ∈ toolSyntaxes stx) (hq : syn.toolCallsStart <+: R.drop q)
    (hle : R.length ≤ q + 14) :
    (decodePieces stx prompt [R, lit "</think>", [c]]).sawToolStart = true := by
  have hT : R ++ lit "</think>" ++ [c] <+: R ++ lit "</think>" ++ c :: C :=
    ⟨C, by simp⟩
  have hl8 : (lit "</think>").length = 8 := by decide
  have h0 : Watching stx prompt [] (decodePieces stx prompt []) := .init h.opened
  have hin0 := h0.inside h List.nil_prefix (by simp)
  have h1 : Watching stx prompt R (decodePieces stx prompt [R]) :=
    h0.step (p := R) h (by simp) fun ho => by cases hin0.symm.trans ho
  have hin1 := h1.inside h (by simp) (by omega)
  have h2 : Watching stx prompt (R ++ lit "</think>")
      (decodePieces stx prompt [R, lit "</think>"]) :=
    h1.step h ((List.prefix_append _ _).trans hT) fun ho => by cases hin1.symm.trans ho
  have htail : (thinkingStateFromPrompt prompt).tail.length ≤ 8 := by
    rw [thinkingStateFromPrompt, thinkingStateFeed_tail (by simp), length_rtake]; omega
  have hin2 : (decodePieces stx prompt [R, lit "</think>"]).thinking.inside = false := by
    have he : R ++ lit "</think>" = (R ++ lit "</think") ++ [ch '>'] := by
      rw [List.append_assoc]; rfl
    have hno := open_not_suffix ((thinkingStateFromPrompt prompt).tail ++ R) [] (by simp)
    rw [List.append_nil, List.append_assoc] at hno
    rw [h2.thinking, he, thinkingStateFeed_snoc htail, ← he, if_neg hno, ← List.append_assoc,
      if_pos (List.suffix_append _ _)]
  have hin3 : (thinkingStateFeed (decodePieces stx prompt [R, lit "</think>"]).thinking
      [c]).inside = false := by
    rw [h2.thinking_append, thinkingStateFeed_snoc htail, ← h2.thinking, hin2, List.append_assoc R,
      ← List.append_assoc, if_neg (open_not_suffix _ [c] (by simp))]
    split <;> rfl
  rw [show [R, lit "</think>", [c]] = [R, lit "</think>"] ++ [[c]] from rfl, decodePieces_snoc]
  generalize hd : decodePieces stx prompt [R, lit "</think>"] = d at *
  have hfeed : (if dsmlDecodeStateIsTool d.tracker.decode then d.thinking
      else thinkingStateFeed d.thinking [c]) = thinkingStateFeed d.thinking [c] := by
    rw [h2.decode]; rfl
  have hmode : (trackPiece d.thinking.inside false d.tracker (d.text ++ [c])).mode ≠ .search := by
    rw [trackPiece, if_neg Bool.false_ne_true, hin2, if_neg Bool.false_ne_true]
    refine update_of_found h2.mode fun hnone => ?_
    rw [h2.pos hin2, h2.modelSyntax, h2.text, trackFindStart, findAny_eq_none_iff] at hnone
    refine find_eq_none_iff.1 (hnone syn hs) (q - (R.length - 14)) ?_
    have hm : dsmlMaxToolStartLen = 22 := by decide
    have hpos : (R ++ lit "</think>").length - dsmlMaxToolStartLen + (q - (R.length - 14)) = q := by
      rw [List.length_append, hl8, hm]; omega
    rw [List.drop_drop, hpos, List.append_assoc, List.drop_append]
    exact hq.trans (List.prefix_append _ _)
  unfold decodePiece
  dsimp only
  rw [hfeed, hin3, if_neg Bool.false_ne_true]
  generalize trackPiece d.thinking.inside false d.tracker (d.text ++ [c]) = tr at hmode
  have hsyn : tr.mode.syn.isSome = true := by
    cases hc : tr.mode <;> simp_all [DsmlTrackMode.syn]
  simp only [observeToolMarkers, hsyn, Bool.or_true]
  split <;> rfl

/-- Quoted markers never start a call, whatever the pieces, exactly when there is no content or no
marker starts within the last 14 bytes of the reasoning. -/
theorem sawToolStart_iff (stx : ServerModelSyntax) (prompt R C : Bytes)
    (h : ClosedReasoning stx prompt R C) :
    (∀ pieces : List Bytes, (∀ p ∈ pieces, p ≠ []) →
      pieces.flatten = R ++ lit "</think>" ++ C →
      ∀ n, (decodePieces stx prompt (pieces.take n)).sawToolStart = false) ↔
    C = [] ∨ ∀ syn ∈ toolSyntaxes stx, ∀ q, syn.toolCallsStart <+: R.drop q → q + 14 < R.length := by
  constructor
  · intro hall
    by_contra hbad
    push Not at hbad
    obtain ⟨hC, syn, hs, q, hq, hle⟩ := hbad
    obtain ⟨c, C', rfl⟩ := List.exists_cons_of_ne_nil hC
    have hR : R ≠ [] := by
      rintro rfl
      rw [List.drop_nil, List.prefix_nil] at hq
      exact (syn.sharp syn.toolCallsStart (by simp)).ne_nil hq
    have htrue := sawToolStart_of_quoted h hs hq hle
    have hfalse := hall ([R, lit "</think>", [c]] ++ (if C' = [] then [] else [C'])) ?_ ?_ 3
    · cases htrue.symm.trans hfalse
    · intro p hp
      simp only [List.cons_append, List.nil_append, List.mem_cons] at hp
      rcases hp with rfl | rfl | rfl | hp
      · exact hR
      · decide
      · simp
      · split at hp <;> simp_all
    · split <;> simp_all
  · intro hc pieces hne hflat n
    have hsub : (pieces.take n).flatten <+: R ++ lit "</think>" ++ C :=
      ⟨(pieces.drop n).flatten, by rw [← List.flatten_append, List.take_append_drop, hflat]⟩
    refine (watching_decodePieces h (hc.imp_right fun hq => ?_)
      (fun p hp => hne p (List.mem_of_mem_take hp)) hsub).saw
    intro syn hs q hp
    have := hq syn hs q hp
    omega

/-- A quoted marker at the end of the reasoning and no content. -/
theorem sawToolStart_iff_no_content :
    (decodePieces .deepseek (lit "<｜Assistant｜><think>")
      ([lit "<tool_calls>", lit "</think>"].take 2)).sawToolStart = false :=
  (sawToolStart_iff .deepseek (lit "<｜Assistant｜><think>") (lit "<tool_calls>") []
    ⟨by decide, by decide, by decide⟩).2 (.inl rfl) [lit "<tool_calls>", lit "</think>"]
    (by decide) (by decide) 2

/-- The same reasoning with one byte of content. -/
theorem quoted_marker_starts_call :
    ClosedReasoning .deepseek (lit "<｜Assistant｜><think>") (lit "<tool_calls>") (lit "x") ∧
    findAnyToolEnd (lit "<tool_calls>") = none ∧
    (decodePieces .deepseek (lit "<｜Assistant｜><think>")
      [lit "<tool_calls>", lit "</think>", lit "x"]).sawToolStart = true :=
  ⟨⟨by decide, by decide, by decide⟩, by decide, by decide +kernel⟩

end Ds4
