import Ds4.Server.StreamHold

/-!
# Streams without tools

For a request without tools the deltas of a live stream are the reasoning and the content of the
generated text, however the text was cut. The invariant says at every call that what was sent and
what is left make up the split of the whole text. Both APIs are treated at once: a `Transcript` of a
sink reads back the thinking and the content deltas.
-/

namespace Ds4
open C Scan

/-- The reasoning and the content of a text that starts inside the reasoning. -/
def splitClose (s : Bytes) : Bytes × Bytes :=
  match find (lit "</think>") s with
  | some i => (s.take i, s.drop (i + (lit "</think>").length))
  | none => (s, [])

def dropOpen (s : Bytes) : Bytes :=
  if lit "<think>" <+: s then s.drop (lit "<think>").length else s

/-- What a client of a request without tools is to see: with thinking, the reasoning before the
first closing tag without a leading opening tag, and the content after it. -/
def thinkSplit (think : Bool) (t : Bytes) : Bytes × Bytes :=
  if think then (dropOpen (splitClose t).1, (splitClose t).2) else ([], t)

/-- The deltas of a sink, and the outputs in which a thinking or a content delta may follow. -/
structure Transcript (sink : Sink σ) where
  thinkings : σ → List Bytes
  texts : σ → List Bytes
  mayThink : σ → Prop
  mayText : σ → Prop
  thinking_spec : ∀ out d, mayThink out → ∃ out', sink.thinking out d = .ok out' ∧ mayThink out' ∧
    thinkings out' = thinkings out ++ [cstr d] ∧ texts out' = texts out
  text_spec : ∀ out d, mayText out → ∃ out', sink.text out d = .ok out' ∧ mayText out' ∧
    thinkings out' = thinkings out ∧ texts out' = texts out ++ [cstr d]
  close_spec : ∀ out, mayThink out ∨ mayText out → mayThink (sink.closeBlock out) ∧
    mayText (sink.closeBlock out) ∧ thinkings (sink.closeBlock out) = thinkings out ∧
    texts (sink.closeBlock out) = texts out

/-! ## The split -/

/-- Text without a closing tag moves to the reasoning. -/
theorem splitClose_advance (h : ∀ k, find (lit "</think>") s = some k → n ≤ k) :
    splitClose s = (s.take n ++ (splitClose (s.drop n)).1, (splitClose (s.drop n)).2) := by
  rw [splitClose, splitClose]
  cases hf : find (lit "</think>") s with
  | none =>
    rw [find_drop_none hf]
    simp
  | some k =>
    have hk := h k hf
    have hs : s.take k = s.take n ++ (s.drop n).take (k - n) := by
      rw [← List.take_add, Nat.add_sub_cancel' hk]
    rw [find_drop hf hk]
    simp only [List.drop_drop, hs, show n + (k - n + (lit "</think>").length) =
      k + (lit "</think>").length by omega]

theorem splitClose_open (r : Bytes) : splitClose (lit "<think>" ++ r) =
    (lit "<think>" ++ (splitClose r).1, (splitClose r).2) := by
  have hn : ¬ lit "</think>" <+: lit "<think>" ++ r := by
    intro h
    have h1 := List.prefix_iff_eq_take.1 ((List.take_prefix 2 _).trans h)
    revert h1
    exact (by decide : ¬ (lit "</think>").take 2 = (lit "<think>").take 2)
  have hf : find (lit "</think>") (lit "<think>" ++ r) = (find (lit "</think>") r).map (7 + ·) := by
    rw [show lit "<think>" ++ r = ch '<' :: (lit "think>" ++ r) from rfl] at hn ⊢
    rw [find, if_neg hn, show lit "</think>" = ch '<' :: lit "/think>" from rfl,
      find_append_of_not_mem (by decide)]
    cases find (ch '<' :: lit "/think>") r with
    | none => rfl
    | some k =>
      simp only [Option.map_some, Option.some.injEq, show (lit "think>").length = 6 from rfl]
      omega
  rw [splitClose, splitClose, hf]
  cases find (lit "</think>") r with
  | none => rfl
  | some k =>
    have h7 : (lit "<think>").length = 7 := rfl
    simp only [Option.map_some, Prod.mk.injEq]
    constructor
    · rw [List.take_append, h7, List.take_of_length_le (by omega), Nat.add_sub_cancel_left]
    · rw [List.drop_append, h7, List.drop_eq_nil_of_le (by omega), List.nil_append]
      congr 1
      omega

/-- The opening tag may be dropped first. -/
theorem thinkSplit_true (t : Bytes) : thinkSplit true t = splitClose (dropOpen t) := by
  rw [thinkSplit, if_pos rfl, dropOpen, dropOpen]
  by_cases h : lit "<think>" <+: t
  · obtain ⟨r, rfl⟩ := h
    simp only [splitClose_open, List.prefix_append, if_true, List.drop_left]
  · have hn : ¬ lit "<think>" <+: (splitClose t).1 := by
      intro hp
      apply h
      rw [splitClose] at hp
      split at hp
      · exact hp.trans (List.take_prefix _ _)
      · exact hp
    rw [if_neg h, if_neg hn]

/-! ## The invariant -/

section
variable {sink : Sink σ} (T : Transcript sink) {t s : Bytes} {st : Stream σ} {final : Bool}

/-- Whole characters were sent, up to a boundary inside the text received so far. -/
structure Sent (t s : Bytes) (st : Stream σ) : Prop where
  guard : st.guardSecondReasoning = false
  pos : st.emitPos ≤ s.length
  bound : Whole (t.take st.emitPos)
  thinkings : ∀ d ∈ T.thinkings st.out, Whole d
  texts : ∀ d ∈ T.texts st.out, Whole d

/-- Inside the reasoning: what was sent and the split of the rest make up the whole split. -/
structure ThinkingPhase (t : Bytes) (st : Stream σ) : Prop where
  mode : st.mode = .thinking
  may : T.mayThink st.out
  texts : T.texts st.out = []
  left : if st.checkedThinkPrefix then thinkSplit true t =
      ((T.thinkings st.out).flatten ++ (splitClose (t.drop st.emitPos)).1,
        (splitClose (t.drop st.emitPos)).2)
    else st.emitPos = 0 ∧ T.thinkings st.out = []

/-- In the content: the reasoning is complete. -/
structure TextPhase (think : Bool) (t : Bytes) (st : Stream σ) : Prop where
  mode : st.mode = .text
  may : T.mayText st.out
  thinkings : (T.thinkings st.out).flatten = (thinkSplit think t).1
  left : (T.texts st.out).flatten ++ t.drop st.emitPos = (thinkSplit think t).2

/-- Everything was sent and no block is open. -/
structure Finished (think : Bool) (t : Bytes) (st : Stream σ) : Prop where
  mode : st.mode = .suppress
  may : T.mayText st.out
  thinkings : (T.thinkings st.out).flatten = (thinkSplit think t).1
  texts : (T.texts st.out).flatten = (thinkSplit think t).2

variable {T}

theorem Sent.mono (h : Sent T t s st) (hs : s <+: s') : Sent T t s' st :=
  { h with pos := h.pos.trans hs.length_le }

/-- The delta between two offsets of the received text. -/
theorem delta_spec (ht : Whole t) (h0 : 0 ∉ t) (hs : s <+: t) (hb : Whole (t.take p))
    (hl : Whole (t.take n)) (hn : n ≤ s.length) (hp : p ≤ n) :
    cstr ((s.take n).drop p) = (t.drop p).take (n - p) ∧ Whole ((t.drop p).take (n - p)) := by
  have he : (s.take n).drop p = (t.drop p).take (n - p) := by
    obtain ⟨u, rfl⟩ := hs
    rw [List.drop_take, List.drop_append_of_le_length (by omega), List.take_append_of_le_length
      (by rw [List.length_drop]; omega)]
  refine ⟨?_, ?_⟩
  · rw [he, cstr_of_notMem]
    intro hm
    exact h0 (List.mem_of_mem_drop (List.mem_of_mem_take hm))
  · have hx : t.take n = t.take p ++ (t.drop p).take (n - p) := by
      rw [← List.take_add, Nat.add_sub_cancel' hp]
    rw [hx] at hl
    exact hl.of_append hb

theorem emitThinking_spec (ht : Whole t) (h0 : 0 ∉ t) (hs : s <+: t) (h : Sent T t s st)
    (hm : T.mayThink st.out) (hn : n ≤ s.length) (hb : st.emitPos < n → Whole (t.take n)) :
    ∃ out, emitThinking sink s n st = .ok { st with
        out := out, sentThinking := st.sentThinking || decide (st.emitPos < n),
        emitPos := max st.emitPos n } ∧
      T.mayThink out ∧ T.texts out = T.texts st.out ∧ (∀ d ∈ T.thinkings out, Whole d) ∧
      (T.thinkings out).flatten =
        (T.thinkings st.out).flatten ++ (t.drop st.emitPos).take (n - st.emitPos) := by
  rw [emitThinking]
  split
  · next hlt =>
    obtain ⟨hd, hw⟩ := delta_spec ht h0 hs h.bound (hb hlt) hn hlt.le
    obtain ⟨out, h1, h2, h3, h4⟩ := T.thinking_spec st.out ((s.take n).drop st.emitPos) hm
    rw [hd] at h3
    refine ⟨out, ?_, h2, h4, ?_, ?_⟩
    · rw [h1]
      simp [hlt, max_eq_right hlt.le, bind, Except.bind]
    · rw [h3]
      intro d hd
      rcases List.mem_append.1 hd with hd | hd
      · exact h.thinkings d hd
      · rw [List.mem_singleton.1 hd]
        exact hw
    · rw [h3]
      simp
  · next hge =>
    refine ⟨st.out, ?_, hm, rfl, h.thinkings, ?_⟩
    · simp [hge, max_eq_left (Nat.le_of_not_lt hge)]
    · rw [Nat.sub_eq_zero_of_le (by omega)]
      simp

theorem emitText_spec (ht : Whole t) (h0 : 0 ∉ t) (hs : s <+: t) (h : Sent T t s st)
    (hm : T.mayText st.out) (hn : n ≤ s.length) (hb : st.emitPos < n → Whole (t.take n)) :
    ∃ out, emitText sink s n st = .ok { st with
        out := out, sentText := st.sentText || decide (st.emitPos < n),
        emitPos := max st.emitPos n } ∧
      T.mayText out ∧ T.thinkings out = T.thinkings st.out ∧ (∀ d ∈ T.texts out, Whole d) ∧
      (T.texts out).flatten =
        (T.texts st.out).flatten ++ (t.drop st.emitPos).take (n - st.emitPos) := by
  rw [emitText]
  split
  · next hlt =>
    obtain ⟨hd, hw⟩ := delta_spec ht h0 hs h.bound (hb hlt) hn hlt.le
    obtain ⟨out, h1, h2, h3, h4⟩ := T.text_spec st.out ((s.take n).drop st.emitPos) hm
    rw [hd] at h4
    refine ⟨out, ?_, h2, h3, ?_, ?_⟩
    · rw [h1]
      simp [hlt, max_eq_right hlt.le, bind, Except.bind]
    · rw [h4]
      intro d hd
      rcases List.mem_append.1 hd with hd | hd
      · exact h.texts d hd
      · rw [List.mem_singleton.1 hd]
        exact hw
    · rw [h4]
      simp
  · next hge =>
    refine ⟨st.out, ?_, hm, rfl, h.texts, ?_⟩
    · simp [hge, max_eq_left (Nat.le_of_not_lt hge)]
    · rw [Nat.sub_eq_zero_of_le (by omega)]
      simp

/-- The opening tag is recognised as on the whole text, or nothing happens yet. -/
theorem checkThinkPrefix_spec (hs : s <+: t) (hf : final = true → s = t) (h : Sent T t s st)
    (hp : ThinkingPhase T t st) :
    (checkThinkPrefix s final st = none ∧ final = false) ∨
    ∃ st', checkThinkPrefix s final st = some st' ∧ st'.checkedThinkPrefix = true ∧
      Sent T t s st' ∧ ThinkingPhase T t st' := by
  have hl := hp.left
  rw [checkThinkPrefix]
  split
  · next hc => exact .inr ⟨st, rfl, hc, h, hp⟩
  next hc =>
  rw [if_neg hc] at hl
  split
  · next hw => exact .inl ⟨rfl, by simpa using hw.2.2⟩
  next hw =>
  have hiff : lit "<think>" <+: s ↔ lit "<think>" <+: t := by
    refine ⟨fun h => h.trans hs, fun ho => ?_⟩
    rcases Nat.lt_or_ge s.length (lit "<think>").length with hlt | hge
    · have hso := List.prefix_of_prefix_length_le hs ho hlt.le
      cases final with
      | true => rwa [hf rfl]
      | false => exact absurd ⟨hlt, hso, rfl⟩ hw
    · exact List.prefix_of_prefix_length_le ho hs hge
  refine .inr ⟨_, rfl, rfl, ?_, ?_⟩
  · refine { h with pos := ?_, bound := ?_ }
    · dsimp only
      split
      · next ho => exact ho.length_le
      · exact h.pos
    · dsimp only
      split
      · next ho =>
        rw [List.prefix_iff_eq_take.1 (hiff.1 ho) |>.symm]
        exact whole_lit _
      · exact h.bound
  · refine { hp with left := ?_ }
    rw [if_pos rfl, thinkSplit_true, dropOpen, hl.2, hl.1]
    simp only [hiff, List.flatten_nil, List.nil_append]
    split <;> rfl

theorem streamClose_eq (st : Stream σ) (h0 : 0 ∉ t) (hs : s <+: t) :
    streamClose s st = find (lit "</think>") (s.drop st.emitPos) := by
  rw [streamClose, strstr_of_notMem]
  exact fun h => h0 (hs.subset (List.mem_of_mem_drop h))

/-- The seven bytes that are held back keep a cut closing tag out of the reasoning. -/
theorem hold_le_close (hs : s <+: t) (hn : find (lit "</think>") (s.drop p) = none)
    (hlim : n + 7 ≤ s.length) (hp : p ≤ n)
    (hk : find (lit "</think>") (t.drop p) = some k) : n - p ≤ k := by
  by_contra hlt
  have h8 : (lit "</think>").length = 8 := rfl
  rw [find_prefix_of_le (isPrefix_drop hs p) hk
    (by rw [List.length_drop, h8]; omega)] at hn
  cases hn

/-- The end of the reasoning is in the received text. -/
theorem streamThinking_close (ht : Whole t) (h0 : 0 ∉ t) (hs : s <+: t) (h : Sent T t s st)
    (hp : ThinkingPhase T t st) (hck : st.checkedThinkPrefix = true)
    (hk : find (lit "</think>") (s.drop st.emitPos) = some k) :
    ∃ st', (do
        let st' ← emitThinking sink s (st.emitPos + k) st
        .ok { st'.closeBlock sink with
          emitPos := st.emitPos + k + (lit "</think>").length, mode := .text }) = .ok st' ∧
      Sent T t s st' ∧ TextPhase T true t st' := by
  have hleft := hp.left
  rw [if_pos hck] at hleft
  have hkt := find_mono (isPrefix_drop hs st.emitPos) hk
  have hle := find_le hk
  rw [List.length_drop] at hle
  have hpos := h.pos
  have hpre := (find_eq_some_iff.1 hkt).1
  rw [List.drop_drop] at hpre
  obtain ⟨hb1, hb2⟩ := ht.occurrence hpre rfl (whole_lit "</think>")
  obtain ⟨out, he, hmay, htx, hw, hfl⟩ :=
    emitThinking_spec ht h0 hs h hp.may (n := st.emitPos + k) (by omega) (fun _ => hb1)
  obtain ⟨-, hc2, hc3, hc4⟩ := T.close_spec out (.inl hmay)
  have hsp : splitClose (t.drop st.emitPos) =
      ((t.drop st.emitPos).take k, t.drop (st.emitPos + k + (lit "</think>").length)) := by
    rw [splitClose, hkt]
    simp only [List.drop_drop, Nat.add_assoc]
  rw [hsp] at hleft
  rw [he]
  refine ⟨_, rfl, ⟨h.guard, by dsimp only; omega, hb2, ?_, ?_⟩, rfl, hc2, ?_, ?_⟩
  · rw [Stream.closeBlock, hc3]
    exact hw
  · rw [Stream.closeBlock, hc4, htx, hp.texts]
    exact fun _ h => by cases h
  · simp only [Stream.closeBlock, hc3, hfl, hleft, Nat.add_sub_cancel_left]
  · simp only [Stream.closeBlock, hc4, htx, hp.texts, hleft, List.flatten_nil, List.nil_append]

/-- The text ends inside the reasoning. -/
theorem streamThinking_final (ht : Whole t) (h0 : 0 ∉ t) (h : Sent T t t st)
    (hp : ThinkingPhase T t st) (hck : st.checkedThinkPrefix = true)
    (hk : find (lit "</think>") (t.drop st.emitPos) = none) :
    ∃ st', (do
        let st' ← emitThinking sink t t.length st
        .ok { st'.closeBlock sink with mode := .suppress }) = .ok st' ∧
      Sent T t t st' ∧ Finished T true t st' := by
  have hleft := hp.left
  rw [if_pos hck, splitClose, hk] at hleft
  obtain ⟨out, he, hmay, htx, hw, hfl⟩ := emitThinking_spec ht h0 List.prefix_rfl h hp.may
    (Nat.le_refl _) (fun _ => by rwa [List.take_length])
  obtain ⟨-, hc2, hc3, hc4⟩ := T.close_spec out (.inl hmay)
  have hmax := max_eq_right h.pos
  rw [he]
  refine ⟨_, rfl, ⟨h.guard, ?_, ?_, ?_, ?_⟩, rfl, hc2, ?_, ?_⟩
  · rw [Stream.closeBlock, hmax]
  · rw [Stream.closeBlock, hmax, List.take_length]
    exact ht
  · rw [Stream.closeBlock, hc3]
    exact hw
  · rw [Stream.closeBlock, hc4, htx, hp.texts]
    exact fun _ h => by cases h
  · simp only [Stream.closeBlock, hc3, hfl, hleft]
    rw [List.take_of_length_le (by rw [List.length_drop])]
  · simp only [Stream.closeBlock, hc4, htx, hp.texts, hleft, List.flatten_nil]

/-- Nothing is sent, or up to a boundary seven bytes before the end. -/
theorem thinkingHold_spec (ht : Whole t) (hs : s <+: t) (h : Sent T t s st)
    (hn : utf8StreamSafeLen s st.emitPos (if 7 < s.length then s.length - 7 else st.emitPos)
      false = n) :
    n ≤ s.length ∧ (st.emitPos < n → n + 7 ≤ s.length ∧ Whole (t.take n)) := by
  have hpos := h.pos
  rcases Nat.lt_or_ge (if 7 < s.length then s.length - 7 else st.emitPos) st.emitPos with hlt | hge
  · rw [utf8StreamSafeLen, if_pos (by simpa using hlt.le)] at hn
    rw [hn] at hlt
    exact ⟨by omega, fun h => absurd h (by omega)⟩
  · obtain ⟨u1, u2, u3⟩ := utf8StreamSafeLen_spec ht hs h.bound hge (by split <;> omega)
    rw [hn] at u1 u2 u3
    split at u2
    · exact ⟨by omega, fun _ => ⟨by omega, u3⟩⟩
    · exact ⟨by omega, fun h => absurd h (by omega)⟩

theorem streamThinking_hold (ht : Whole t) (h0 : 0 ∉ t) (hs : s <+: t) (h : Sent T t s st)
    (hp : ThinkingPhase T t st) (hck : st.checkedThinkPrefix = true)
    (hk : find (lit "</think>") (s.drop st.emitPos) = none)
    (hn : utf8StreamSafeLen s st.emitPos (if 7 < s.length then s.length - 7 else st.emitPos)
      false = n) :
    ∃ st', emitThinking sink s n st = .ok st' ∧ Sent T t s st' ∧ ThinkingPhase T t st' := by
  have hleft := hp.left
  rw [if_pos hck] at hleft
  obtain ⟨hle, hlt⟩ := thinkingHold_spec ht hs h hn
  obtain ⟨out, he, hmay, htx, hw, hfl⟩ :=
    emitThinking_spec ht h0 hs h hp.may hle (fun h => (hlt h).2)
  have hadv : splitClose (t.drop st.emitPos) = ((t.drop st.emitPos).take (n - st.emitPos) ++
      (splitClose (t.drop (max st.emitPos n))).1, (splitClose (t.drop (max st.emitPos n))).2) := by
    rw [splitClose_advance (n := n - st.emitPos), List.drop_drop,
      show st.emitPos + (n - st.emitPos) = max st.emitPos n by omega]
    intro k hkt
    rcases Nat.lt_or_ge st.emitPos n with h1 | h1
    · exact hold_le_close hs hk (hlt h1).1 h1.le hkt
    · omega
  refine ⟨_, he, ⟨h.guard, max_le h.pos hle, ?_, hw, ?_⟩, hp.mode, hmay, ?_, ?_⟩
  · rcases Nat.lt_or_ge st.emitPos n with h1 | h1
    · rw [max_eq_right h1.le]
      exact (hlt h1).2
    · rw [max_eq_left h1]
      exact h.bound
  · rw [htx, hp.texts]
    exact fun _ h => by cases h
  · rw [htx, hp.texts]
  · rw [if_pos hck, hleft, hadv, hfl, List.append_assoc]

/-- The reasoning phase of an update without tools. -/
theorem streamThinking_spec (ht : Whole t) (h0 : 0 ∉ t) (hs : s <+: t)
    (hf : final = true → s = t) (h : Sent T t s st) (hp : ThinkingPhase T t st) :
    ∃ st', streamThinking sink false s final st = .ok st' ∧ Sent T t s st' ∧
      ((final = false ∧ ThinkingPhase T t st') ∨ TextPhase T true t st' ∨
        (final = true ∧ Finished T true t st')) := by
  rw [streamThinking]
  rcases checkThinkPrefix_spec hs hf h hp with ⟨hc, hff⟩ | ⟨st1, hc, hck, h1, hp1⟩
  · rw [hc]
    exact ⟨st, rfl, h, .inl ⟨hff, hp⟩⟩
  have htb : toolBeforeClose false s st1 = none := rfl
  have hcl := streamClose_eq st1 h0 hs
  rw [hc]
  dsimp only
  rw [thinkingLimit, htb]
  cases hk : find (lit "</think>") (s.drop st1.emitPos) with
  | some k =>
    rw [hk] at hcl
    obtain ⟨st', he, h2, h3⟩ := streamThinking_close ht h0 hs h1 hp1 hck hk
    rw [hcl]
    exact ⟨st', he, h2, .inr (.inl h3)⟩
  | none =>
    rw [hk] at hcl
    rw [hcl]
    cases final with
    | true =>
      obtain rfl := hf rfl
      obtain ⟨st', he, h2, h3⟩ := streamThinking_final ht h0 h1 hp1 hck hk
      exact ⟨st', he, h2, .inr (.inr ⟨rfl, h3⟩)⟩
    | false =>
      obtain ⟨st', he, h2, h3⟩ := streamThinking_hold ht h0 hs h1 hp1 hck hk rfl
      refine ⟨st', ?_, h2, .inl ⟨rfl, h3⟩⟩
      exact (congrArg (· >>= Except.ok) he).trans rfl

/-- The limit of the content phase without tools. -/
theorem textLimit_spec (ht : Whole t) (hs : s <+: t) (h : Sent T t s st)
    (hn : textStreamSafeLimit s st.emitPos false final = n) (hf : final = true → s = t) :
    n ≤ s.length ∧ (st.emitPos < n → Whole (t.take n)) ∧ (final = true → n = t.length) := by
  rw [textStreamSafeLimit] at hn
  split at hn
  · next hle =>
    subst hn
    exact ⟨Nat.le_refl _, fun hlt => absurd hle (by omega), fun h => by rw [hf h]⟩
  · next hgt =>
    rw [if_neg Bool.false_ne_true] at hn
    cases final with
    | true =>
      rw [utf8StreamSafeLen, if_pos (by simp)] at hn
      obtain rfl := hf rfl
      subst hn
      exact ⟨Nat.le_refl _, fun _ => by rwa [List.take_length], fun _ => rfl⟩
    | false =>
      obtain ⟨-, u2, u3⟩ := utf8StreamSafeLen_spec ht hs h.bound h.pos (Nat.le_refl _)
      rw [hn] at u2 u3
      exact ⟨u2, fun _ => u3, fun h => by cases h⟩

/-- The content phase of an update without tools. -/
theorem streamText_spec (ht : Whole t) (h0 : 0 ∉ t) (hs : s <+: t)
    (hf : final = true → s = t) (h : Sent T t s st) (hp : TextPhase T think t st) :
    ∃ st', streamText sink false s final st = .ok st' ∧ Sent T t s st' ∧
      ((final = false ∧ TextPhase T think t st') ∨ (final = true ∧ Finished T think t st')) := by
  have hg : streamText sink false s final st = streamContent sink false s final st := by
    rw [streamText, streamGuard, h.guard]
    rfl
  obtain ⟨hle, hb, hfin⟩ := textLimit_spec ht hs h rfl hf
  obtain ⟨out, he, hmay, hth, hw, hfl⟩ := emitText_spec ht h0 hs h hp.may hle hb
  have hbound : Whole (t.take (max st.emitPos (textStreamSafeLimit s st.emitPos false final))) := by
    rcases Nat.lt_or_ge st.emitPos (textStreamSafeLimit s st.emitPos false final) with h1 | h1
    · rw [max_eq_right h1.le]
      exact hb h1
    · rw [max_eq_left h1]
      exact h.bound
  have hthink : ∀ d ∈ T.thinkings out, Whole d := by
    rw [hth]
    exact h.thinkings
  have hrest : (T.texts out).flatten ++
      t.drop (max st.emitPos (textStreamSafeLimit s st.emitPos false final)) =
      (thinkSplit think t).2 := by
    rw [hfl, ← hp.left, List.append_assoc]
    congr 1
    rw [show max st.emitPos (textStreamSafeLimit s st.emitPos false final) =
      st.emitPos + (textStreamSafeLimit s st.emitPos false final - st.emitPos) by omega,
      ← List.drop_drop, List.take_append_drop]
  rw [hg, streamContent, he]
  cases final with
  | false =>
    refine ⟨_, rfl, ⟨h.guard, max_le h.pos hle, hbound, hthink, hw⟩,
      .inl ⟨rfl, hp.mode, hmay, ?_, hrest⟩⟩
    change (T.thinkings out).flatten = _
    rw [hth]
    exact hp.thinkings
  | true =>
    obtain ⟨-, hc2, hc3, hc4⟩ := T.close_spec out (.inr hmay)
    refine ⟨_, rfl, ⟨h.guard, max_le h.pos hle, hbound, ?_, ?_⟩, .inr ⟨rfl, rfl, hc2, ?_, ?_⟩⟩
    · change ∀ d ∈ T.thinkings (sink.closeBlock out), Whole d
      rwa [hc3]
    · change ∀ d ∈ T.texts (sink.closeBlock out), Whole d
      rwa [hc4]
    · change (T.thinkings (sink.closeBlock out)).flatten = _
      rw [hc3, hth]
      exact hp.thinkings
    · change (T.texts (sink.closeBlock out)).flatten = _
      rw [hc4, ← hrest, List.drop_eq_nil_of_le, List.append_nil]
      rw [hfin rfl]
      exact Nat.le_max_right _ _

/-- The invariant of the updates. -/
def StreamInv (T : Transcript sink) (think : Bool) (t s : Bytes) (st : Stream σ) : Prop :=
  Sent T t s st ∧ (think = true ∧ ThinkingPhase T t st ∨ TextPhase T think t st)

theorem streamUpdate_spec (final : Bool) (ht : Whole t) (h0 : 0 ∉ t) (hs : s <+: t)
    (hf : final = true → s = t) (hs' : s' <+: s) (h : StreamInv T think t s' st) :
    ∃ st', streamUpdate sink false s final st = .ok st' ∧ Sent T t s st' ∧
      ((final = false ∧ StreamInv T think t s st') ∨ (final = true ∧ Finished T think t st')) := by
  obtain ⟨hsent, hphase⟩ := h
  replace hsent := hsent.mono hs'
  -- the text phase ends the update, since there is no tool phase
  have htext : ∀ st1 : Stream σ, Sent T t s st1 → TextPhase T think t st1 →
      ∃ st', (st1.phase .text (streamText sink false s final) >>=
          Stream.phase .tool (streamToolCalls sink s)) = .ok st' ∧ Sent T t s st' ∧
        ((final = false ∧ StreamInv T think t s st') ∨ (final = true ∧ Finished T think t st')) := by
    intro st1 h1 hp1
    obtain ⟨st2, he, h2, h3⟩ := streamText_spec ht h0 hs hf h1 hp1
    refine ⟨st2, ?_, h2, h3.imp_left fun h => ⟨h.1, h2, .inr h.2⟩⟩
    have hm : st2.mode ≠ .tool := by
      rcases h3 with ⟨-, h3⟩ | ⟨-, h3⟩ <;> simp [h3.mode]
    rw [Stream.phase_eq hp1.mode, he]
    exact Stream.phase_ne hm
  rw [streamUpdate]
  rcases hphase with ⟨rfl, hp⟩ | hp
  · obtain ⟨st1, he, h1, h2⟩ := streamThinking_spec ht h0 hs hf hsent hp
    rw [Stream.phase_eq hp.mode, he]
    rcases h2 with ⟨hff, h2⟩ | h2 | ⟨hff, h2⟩
    · refine ⟨st1, ?_, h1, .inl ⟨hff, h1, .inl ⟨rfl, h2⟩⟩⟩
      simp [bind, Except.bind, h2.mode]
    · exact htext st1 h1 h2
    · refine ⟨st1, ?_, h1, .inr ⟨hff, h2⟩⟩
      simp [bind, Except.bind, h2.mode]
  · rw [Stream.phase_ne (by simp [hp.mode])]
    exact htext st hsent hp

/-- A whole run of updates and the last one. -/
theorem streamUpdates_spec (T : Transcript sink) (think : Bool) (out : σ) (ht : Whole t) (h0 : 0 ∉ t)
    (hps : Growing (ps ++ [t])) (hout : T.mayThink out ∧ T.mayText out)
    (h1 : T.thinkings out = []) (h2 : T.texts out = []) :
    ∃ st st', streamUpdates sink false (.start think false out) ps = .ok st ∧
      streamUpdate sink false t true st = .ok st' ∧ Sent T t t st' ∧ Finished T think t st' := by
  have hinit : StreamInv T think t [] (.start think false out) := by
    refine ⟨⟨by simp [Stream.start], Nat.le_refl _, Whole.nil, ?_, ?_⟩, ?_⟩
    · simp [Stream.start, h1]
    · simp [Stream.start, h2]
    · cases think with
      | true => exact .inl ⟨rfl, rfl, hout.1, h2, rfl, h1⟩
      | false =>
        refine .inr ⟨rfl, hout.2, ?_, ?_⟩
        · simp [Stream.start, h1, thinkSplit]
        · simp [Stream.start, h2, thinkSplit]
  obtain ⟨s', st, hst, hi, hrun⟩ := Growing.foldlM
    (f := fun st p => streamUpdate sink false p false st) (I := StreamInv T think t)
    (fun s p st hsp hpt hi => by
      obtain ⟨st', he, -, h3⟩ := streamUpdate_spec false ht h0 hpt (fun h => nomatch h) hsp hi
      rcases h3 with ⟨-, h3⟩ | ⟨h3, -⟩
      · exact ⟨st', he, h3⟩
      · cases h3) hps hinit
  obtain ⟨st', he, h3, h4⟩ := streamUpdate_spec true ht h0 List.prefix_rfl (fun _ => rfl) hst hi
  rcases h4 with ⟨h4, -⟩ | ⟨-, h4⟩
  · cases h4
  · exact ⟨st, st', hrun, he, h3, h4⟩

end

/-! ## The two APIs -/

def OpenaiEvent.reasoning? : OpenaiEvent → Option Bytes
  | .reasoningContent d => some d
  | _ => none

def OpenaiEvent.content? : OpenaiEvent → Option Bytes
  | .content d => some d
  | _ => none

def AnthropicEvent.thinking? : AnthropicEvent → Option Bytes
  | .contentBlockDelta _ (.thinking d) => some d
  | _ => none

def AnthropicEvent.text? : AnthropicEvent → Option Bytes
  | .contentBlockDelta _ (.text d) => some d
  | _ => none

def openaiTranscript : Transcript openaiSink where
  thinkings out := out.filterMap OpenaiEvent.reasoning?
  texts out := out.filterMap OpenaiEvent.content?
  mayThink _ := True
  mayText _ := True
  thinking_spec out d _ := ⟨_, rfl, trivial, by simp [OpenaiEvent.reasoning?],
    by simp [OpenaiEvent.content?]⟩
  text_spec out d _ := ⟨_, rfl, trivial, by simp [OpenaiEvent.reasoning?],
    by simp [OpenaiEvent.content?]⟩
  close_spec _ _ := ⟨trivial, trivial, rfl, rfl⟩

def AnthropicOut.thinkings (out : AnthropicOut) : List Bytes :=
  out.events.filterMap AnthropicEvent.thinking?

def AnthropicOut.texts (out : AnthropicOut) : List Bytes :=
  out.events.filterMap AnthropicEvent.text?

@[simp] theorem AnthropicOut.thinkings_send (out : AnthropicOut) (e : AnthropicEvent) :
    (out.send e).thinkings = out.thinkings ++ e.thinking?.toList := by
  cases h : e.thinking? <;> simp [thinkings, send, h]

@[simp] theorem AnthropicOut.texts_send (out : AnthropicOut) (e : AnthropicEvent) :
    (out.send e).texts = out.texts ++ e.text?.toList := by
  cases h : e.text? <;> simp [texts, send, h]

/-- No block is open, or one of the given type. -/
def AnthropicOut.accepts (type : AnthropicBlockType) (out : AnthropicOut) : Prop :=
  out.openBlock = none ∨ out.openBlock = some type

theorem anthropicSseOpenBlock_accepts (name : Bytes) (h : out.accepts type) :
    ∃ out', anthropicSseOpenBlock type name out = .ok out' ∧ out'.openBlock = some type ∧
      out'.thinkings = out.thinkings ∧ out'.texts = out.texts := by
  rcases h with h | h
  · refine ⟨_, by simp [anthropicSseOpenBlock, h]; rfl, rfl, ?_, ?_⟩
    · exact (AnthropicOut.thinkings_send ..).trans (List.append_nil _)
    · exact (AnthropicOut.texts_send ..).trans (List.append_nil _)
  · exact ⟨out, by simp [anthropicSseOpenBlock, h], h, rfl, rfl⟩

theorem anthropicSseCloseBlockLive_spec (out : AnthropicOut) :
    (anthropicSseCloseBlockLive out).openBlock = none ∧
    (anthropicSseCloseBlockLive out).thinkings = out.thinkings ∧
    (anthropicSseCloseBlockLive out).texts = out.texts := by
  cases h : out.openBlock with
  | none => simp [anthropicSseCloseBlockLive, h]
  | some type =>
    simp only [anthropicSseCloseBlockLive, h]
    refine ⟨trivial, (AnthropicOut.thinkings_send ..).trans ?_,
      (AnthropicOut.texts_send ..).trans ?_⟩
    all_goals
      split <;> simp [anthropicSseDeltaLive, AnthropicEvent.thinking?, AnthropicEvent.text?]

def anthropicTranscript : Transcript anthropicSink where
  thinkings := AnthropicOut.thinkings
  texts := AnthropicOut.texts
  mayThink := AnthropicOut.accepts .thinking
  mayText := AnthropicOut.accepts .text
  thinking_spec out d h := by
    obtain ⟨out', h1, h2, h3, h4⟩ := anthropicSseOpenBlock_accepts [] h
    refine ⟨anthropicSseDeltaLive out' (.thinking (cstr d)), ?_, .inr h2, ?_, ?_⟩
    · simp only [anthropicSink, h1, bind, Except.bind]
    · simp [anthropicSseDeltaLive, h3, AnthropicEvent.thinking?]
    · simp [anthropicSseDeltaLive, h4, AnthropicEvent.text?]
  text_spec out d h := by
    obtain ⟨out', h1, h2, h3, h4⟩ := anthropicSseOpenBlock_accepts [] h
    refine ⟨anthropicSseDeltaLive out' (.text (cstr d)), ?_, .inr h2, ?_, ?_⟩
    · simp only [anthropicSink, h1, bind, Except.bind]
    · simp [anthropicSseDeltaLive, h3, AnthropicEvent.thinking?]
    · simp [anthropicSseDeltaLive, h4, AnthropicEvent.text?]
  close_spec out _ := by
    obtain ⟨h1, h2, h3⟩ := anthropicSseCloseBlockLive_spec out
    exact ⟨.inl h1, .inl h1, h2, h3⟩

/-- The end of an Anthropic stream sends no further thinking or content. -/
theorem anthropicToolBlocks_deltas (calls : List ToolCall) (out : AnthropicOut) :
    (calls.foldl anthropicToolBlock out).thinkings = out.thinkings ∧
    (calls.foldl anthropicToolBlock out).texts = out.texts := by
  induction calls generalizing out with
  | nil => exact ⟨rfl, rfl⟩
  | cons tc calls ih =>
    obtain ⟨h1, h2⟩ := ih (anthropicToolBlock out tc)
    have h3 : (anthropicToolBlock out tc).thinkings = out.thinkings :=
      (AnthropicOut.thinkings_send ..).trans (by simp [AnthropicEvent.thinking?])
    have h4 : (anthropicToolBlock out tc).texts = out.texts :=
      (AnthropicOut.texts_send ..).trans (by simp [AnthropicEvent.text?])
    exact ⟨h1.trans h3, h2.trans h4⟩

theorem anthropicEmptyText_deltas {st : Stream AnthropicOut} (calls : List ToolCall)
    (h : st.out.accepts .text) :
    ∃ st', anthropicEmptyText calls st = .ok st' ∧ st'.out.thinkings = st.out.thinkings ∧
      st'.out.texts = st.out.texts := by
  rw [anthropicEmptyText]
  split
  · obtain ⟨out', h1, -, h3, h4⟩ := anthropicSseOpenBlock_accepts [] h
    obtain ⟨-, h5, h6⟩ := anthropicSseCloseBlockLive_spec out'
    exact ⟨_, by rw [h1]; rfl, h5.trans h3, h6.trans h4⟩
  · exact ⟨st, rfl, rfl, rfl⟩

/-- The deltas of one stream are the split of the text and each is a whole number of characters. -/
structure Lossless (think : Bool) (t : Bytes) (thinkings texts : List Bytes) : Prop where
  thinking : thinkings.flatten = (thinkSplit think t).1
  content : texts.flatten = (thinkSplit think t).2
  whole : ∀ d ∈ thinkings ++ texts, Whole d

theorem Finished.lossless {sink : Sink σ} {T : Transcript sink} {st : Stream σ}
    (h : Sent T t t st) (hf : Finished T think t st) :
    Lossless think t (T.thinkings st.out) (T.texts st.out) := by
  refine ⟨hf.thinkings, hf.texts, fun d hd => ?_⟩
  rcases List.mem_append.1 hd with hd | hd
  · exact h.thinkings d hd
  · exact h.texts d hd

theorem openaiRun_lossless (ht : Whole t) (h0 : 0 ∉ t) (hps : Growing (ps ++ [t])) :
    ∃ evs, openaiRun think false ps t calls finish = .ok evs ∧
      Lossless think t (evs.filterMap OpenaiEvent.reasoning?)
        (evs.filterMap OpenaiEvent.content?) := by
  obtain ⟨st, st', h1, h2, h3, h4⟩ := streamUpdates_spec openaiTranscript think []
    ht h0 hps ⟨trivial, trivial⟩ rfl rfl
  obtain ⟨late, he, hl1, hl2⟩ : ∃ late, openaiRun think false ps t calls finish =
      .ok (st'.out ++ late) ∧ late.filterMap OpenaiEvent.reasoning? = [] ∧
      late.filterMap OpenaiEvent.content? = [] := by
    rw [openaiRun, openaiStreamStart, h1]
    simp only [bind, Except.bind, openaiSseFinishLive, openaiSseStreamUpdate, h2, List.append_assoc]
    refine ⟨_, rfl, ?_, ?_⟩
    all_goals
      split <;> simp [OpenaiEvent.reasoning?, OpenaiEvent.content?]
  refine ⟨_, he, ?_⟩
  rw [List.filterMap_append, List.filterMap_append, hl1, hl2, List.append_nil, List.append_nil]
  exact h4.lossless h3

theorem anthropicRun_lossless (ht : Whole t) (h0 : 0 ∉ t) (hps : Growing (ps ++ [t])) :
    ∃ out, anthropicRun think false ps t calls finish = .ok out ∧
      Lossless think t out.thinkings out.texts := by
  obtain ⟨st, st', h1, h2, h3, h4⟩ := streamUpdates_spec anthropicTranscript think
    ⟨none, 0, [.messageStart]⟩ ht h0 hps ⟨.inl rfl, .inl rfl⟩ rfl rfl
  obtain ⟨st2, h5, h6, h7⟩ := anthropicEmptyText_deltas calls h4.may
  have hb := anthropicToolBlocks_deltas
    (calls.drop (if st2.tool.emittedAny then st2.tool.index else 0)) st2.out
  refine ⟨anthropicSseStopLive finish (anthropicSseToolBlocksLive calls st2), ?_, ?_⟩
  · rw [anthropicRun, anthropicSseStartLive, h1]
    simp only [bind, Except.bind, anthropicSseFinishLive, anthropicSseStreamUpdate, h2, h5]
  · have h8 : (anthropicSseStopLive finish (anthropicSseToolBlocksLive calls st2)).thinkings =
        st'.out.thinkings := by
      simp only [anthropicSseStopLive, AnthropicOut.thinkings_send, AnthropicEvent.thinking?,
        Option.toList_none, List.append_nil]
      exact hb.1.trans h6
    have h9 : (anthropicSseStopLive finish (anthropicSseToolBlocksLive calls st2)).texts =
        st'.out.texts := by
      simp only [anthropicSseStopLive, AnthropicOut.texts_send, AnthropicEvent.text?,
        Option.toList_none, List.append_nil]
      exact hb.2.trans h7
    rw [h8, h9]
    exact h4.lossless h3

/-- Streams without tools lose nothing and do not depend on the cuts: for every text without a zero
byte and every way to cut it into growing prefixes, both APIs send the split of the text in deltas of
whole characters. -/
theorem streams_lossless (cs : List Char) (think : Bool) (ps : List Bytes) (calls : List ToolCall)
    (finish : Bytes) (h0 : 0 ∉ cs.flatMap String.utf8EncodeChar)
    (hps : Growing (ps ++ [cs.flatMap String.utf8EncodeChar])) :
    (∃ evs, openaiRun think false ps (cs.flatMap String.utf8EncodeChar) calls finish = .ok evs ∧
      Lossless think (cs.flatMap String.utf8EncodeChar) (evs.filterMap OpenaiEvent.reasoning?)
        (evs.filterMap OpenaiEvent.content?)) ∧
    ∃ out, anthropicRun think false ps (cs.flatMap String.utf8EncodeChar) calls finish = .ok out ∧
      Lossless think (cs.flatMap String.utf8EncodeChar) out.thinkings out.texts :=
  ⟨openaiRun_lossless ⟨cs, rfl⟩ h0 hps, anthropicRun_lossless ⟨cs, rfl⟩ h0 hps⟩

/-- A cut inside a character and inside the closing tag. -/
theorem streams_lossless_cut :
    ∃ evs, openaiRun true false [(lit "é</think>x").take 1, (lit "é</think>x").take 5]
        (lit "é</think>x") [] (lit "stop") = .ok evs ∧
      Lossless true (lit "é</think>x") (evs.filterMap OpenaiEvent.reasoning?)
        (evs.filterMap OpenaiEvent.content?) :=
  (streams_lossless "é</think>x".toList true [(lit "é</think>x").take 1, (lit "é</think>x").take 5] []
    (lit "stop") (by decide) (by decide)).1

/-- Without thinking the closing tag is ordinary content, and a zero byte ends a delta. -/
theorem not_lossless_without_thinking :
    (∃ evs, openaiRun false false [] (lit "a") [] (lit "stop") = .ok evs ∧
      (evs.filterMap OpenaiEvent.reasoning?).flatten ≠ (thinkSplit true (lit "a")).1) ∧
    ∃ evs, openaiRun true false [] (lit "\x00a") [] (lit "stop") = .ok evs ∧
      (evs.filterMap OpenaiEvent.reasoning?).flatten ≠ (thinkSplit true (lit "\x00a")).1 :=
  ⟨⟨_, rfl, by decide⟩, _, rfl, by decide⟩

end Ds4
