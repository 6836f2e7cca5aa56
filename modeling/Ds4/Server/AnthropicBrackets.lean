import Ds4.Server.StreamText

/-!
# Well-bracketed messages

The events of a message are well bracketed: `message_start`, then blocks numbered from zero, each
started and stopped before the next one with deltas of its own type in between, then `message_stop`.
The checker `Brackets` reads a list of events; the output of an Anthropic stream keeps the state of
the checker in `open_block` and `next_index`.
-/

namespace Ds4
open C Scan

inductive Brackets
  | init
  | idle (next : Nat)
  | block (index : Nat) (type : AnthropicBlockType)
  | stopped
  deriving DecidableEq

def AnthropicDelta.type : AnthropicDelta → AnthropicBlockType
  | .thinking _ | .signature => .thinking
  | .text _ => .text
  | .inputJson _ => .tool

/-- The checker: `none` when the event may not follow. -/
def Brackets.step : Brackets → AnthropicEvent → Option Brackets
  | .init, .messageStart => some (.idle 0)
  | .idle n, .contentBlockStart i type _ => if i = n then some (.block n type) else none
  | .block n type, .contentBlockDelta i d =>
    if i = n ∧ d.type = type then some (.block n type) else none
  | .block n _, .contentBlockStop i => if i = n then some (.idle (n + 1)) else none
  | .idle n, .messageDelta _ => some (.idle n)
  | .idle _, .messageStop => some .stopped
  | _, _ => none

def Brackets.run (b : Brackets) (evs : List AnthropicEvent) : Option Brackets :=
  evs.foldlM Brackets.step b

def WellBracketed (evs : List AnthropicEvent) : Prop := Brackets.init.run evs = some .stopped

instance (evs : List AnthropicEvent) : Decidable (WellBracketed evs) :=
  inferInstanceAs (Decidable (_ = _))

theorem Brackets.run_append (b : Brackets) (xs ys : List AnthropicEvent) :
    b.run (xs ++ ys) = (b.run xs).bind (·.run ys) := List.foldlM_append

/-- The state of the checker that an output stands for. -/
def AnthropicOut.brackets (out : AnthropicOut) : Brackets :=
  match out.openBlock with
  | none => .idle out.nextIndex
  | some type => .block out.nextIndex type

/-- The events sent so far are accepted. -/
def AnthropicOut.Sound (out : AnthropicOut) : Prop :=
  Brackets.init.run out.events = some out.brackets

theorem AnthropicOut.run_send {out : AnthropicOut} (h : out.Sound) (e : AnthropicEvent) :
    Brackets.init.run (out.send e).events = out.brackets.step e := by
  rw [send, Brackets.run_append, h]
  exact (bind_pure (m := Option) _)

theorem anthropicSseDeltaLive_sound {out : AnthropicOut} (h : out.Sound)
    (ho : out.openBlock = some d.type) : (anthropicSseDeltaLive out d).Sound := by
  have hb : out.brackets = .block out.nextIndex d.type := by rw [AnthropicOut.brackets, ho]
  have hs := AnthropicOut.run_send h (.contentBlockDelta out.nextIndex d)
  rw [hb] at hs
  rw [AnthropicOut.Sound, anthropicSseDeltaLive, hs]
  simp [Brackets.step, AnthropicOut.brackets, AnthropicOut.send, ho]

theorem anthropicSseOpenBlock_sound {out : AnthropicOut} (type : AnthropicBlockType) (name : Bytes)
    (h : out.Sound) (ho : out.accepts type) : ∃ out', anthropicSseOpenBlock type name out = .ok out' ∧
      out'.Sound ∧ out'.openBlock = some type := by
  rcases ho with ho | ho
  · refine ⟨{ out.send (.contentBlockStart out.nextIndex type name) with openBlock := some type },
      by simp [anthropicSseOpenBlock, ho], ?_, rfl⟩
    have hs := AnthropicOut.run_send h (.contentBlockStart out.nextIndex type name)
    rw [AnthropicOut.brackets, ho] at hs
    exact hs.trans (by simp [Brackets.step, AnthropicOut.brackets, AnthropicOut.send])
  · exact ⟨out, by simp [anthropicSseOpenBlock, ho], h, ho⟩

theorem anthropicSseCloseBlockLive_sound {out : AnthropicOut} (h : out.Sound) :
    (anthropicSseCloseBlockLive out).Sound ∧
    (anthropicSseCloseBlockLive out).openBlock = none := by
  have hstop : ∀ out : AnthropicOut, out.Sound → ∀ type, out.openBlock = some type →
      AnthropicOut.Sound { out.send (.contentBlockStop out.nextIndex) with
        openBlock := none, nextIndex := out.nextIndex + 1 } := by
    intro out h type ho
    have hs := AnthropicOut.run_send h (.contentBlockStop out.nextIndex)
    rw [AnthropicOut.brackets, ho] at hs
    exact hs.trans (by simp [Brackets.step, AnthropicOut.brackets])
  cases ho : out.openBlock with
  | none => simpa [anthropicSseCloseBlockLive, ho] using h
  | some type =>
    refine ⟨?_, by simp [anthropicSseCloseBlockLive, ho]⟩
    simp only [anthropicSseCloseBlockLive, ho]
    split
    · next ht =>
      subst ht
      exact hstop _ (anthropicSseDeltaLive_sound (d := .signature) h ho) .thinking ho
    · exact hstop out h type ho

theorem anthropicToolBlock_sound {out : AnthropicOut} (tc : ToolCall) (h : out.Sound)
    (ho : out.openBlock = none) :
    (anthropicToolBlock out tc).Sound ∧ (anthropicToolBlock out tc).openBlock = none := by
  refine ⟨?_, ho⟩
  rw [AnthropicOut.Sound, anthropicToolBlock]
  simp only [AnthropicOut.send, List.append_assoc]
  rw [Brackets.run_append, h]
  simp [AnthropicOut.brackets, ho, Brackets.run, Brackets.step, AnthropicDelta.type]

theorem anthropicToolBlocks_sound {out : AnthropicOut} (calls : List ToolCall) (h : out.Sound)
    (ho : out.openBlock = none) : (calls.foldl anthropicToolBlock out).Sound ∧
      (calls.foldl anthropicToolBlock out).openBlock = none := by
  induction calls generalizing out with
  | nil => exact ⟨h, ho⟩
  | cons tc calls ih =>
    obtain ⟨h1, h2⟩ := anthropicToolBlock_sound tc h ho
    exact ih h1 h2

/-- After the last update no block is open: the rest of the message is well bracketed. -/
theorem anthropicSseFinish_wellBracketed {st : Stream AnthropicOut} (calls : List ToolCall)
    (finish : Bytes) (h : st.out.Sound) (ho : st.out.openBlock = none) :
    ∃ st', anthropicEmptyText calls st = .ok st' ∧
      WellBracketed (anthropicSseStopLive finish (anthropicSseToolBlocksLive calls st')).events := by
  obtain ⟨st', he, h1, h2⟩ : ∃ st', anthropicEmptyText calls st = .ok st' ∧ st'.out.Sound ∧
      st'.out.openBlock = none := by
    rw [anthropicEmptyText]
    split
    · obtain ⟨out, h1, h2, -⟩ := anthropicSseOpenBlock_sound .text [] h (.inl ho)
      obtain ⟨h3, h4⟩ := anthropicSseCloseBlockLive_sound h2
      exact ⟨_, by rw [h1]; rfl, h3, h4⟩
    · exact ⟨st, rfl, h, ho⟩
  refine ⟨st', he, ?_⟩
  obtain ⟨h3, h4⟩ := anthropicToolBlocks_sound
    (calls.drop (if st'.tool.emittedAny then st'.tool.index else 0)) h1 h2
  rw [WellBracketed, anthropicSseStopLive, anthropicSseToolBlocksLive]
  simp only [AnthropicOut.send, List.append_assoc]
  rw [Brackets.run_append, h3]
  simp [AnthropicOut.brackets, h4, Brackets.run, Brackets.step]

end Ds4
