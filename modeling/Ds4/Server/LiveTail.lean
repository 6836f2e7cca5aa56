import Ds4.Server.Render

/-!
# The live tool tail

A continuation does not render the chat again: it appends a tail to what the session already holds.
The tail renderer runs the loop of the full renderer from the state after an assistant message. Here
both loops are cut at that message: what was written before does not influence a step, so the full
rendering is the rendering of the history followed by the tail.
-/

namespace Ds4
open C

theorem foldl_zipIdx_of_eq {f : σ → α × Nat → σ} {g : σ → α → σ} (h : ∀ st m i, f st (m, i) = g st m)
    (l : List α) (st : σ) : l.zipIdx.foldl f st = l.foldl g st := by
  have hf : f = fun st p => g st p.1 := by
    funext st ⟨m, i⟩; exact h st m i
  rw [hf, ← List.foldl_map (f := Prod.fst), List.zipIdx_map_fst]

theorem foldl_hom {g : σ → α → σ} {p : σ → σ} (h : ∀ st m, g (p st) m = p (g st m))
    (l : List α) (st : σ) : l.foldl g (p st) = p (l.foldl g st) := by
  induction l generalizing st with
  | nil => rfl
  | cons m l ih => rw [List.foldl_cons, List.foldl_cons, h, ih]

/-- The text before `start` together with the system messages after it. -/
def historyWithSystem (msgs : List ChatMsg) (start : Nat) : List ChatMsg :=
  msgs.take start ++ (msgs.drop start).filter (roleIsSystem ·.role)

theorem filter_historyWithSystem : (historyWithSystem msgs start).filter (roleIsSystem ·.role) =
    msgs.filter (roleIsSystem ·.role) := by
  rw [historyWithSystem, List.filter_append, List.filter_filter]
  simp only [Bool.and_self]
  rw [← List.filter_append, List.take_append_drop]

theorem take_subset_historyWithSystem : msgs.take start ⊆ historyWithSystem msgs start :=
  List.subset_append_left _ _

theorem chatHistoryUsesToolContext_mono (h : a ⊆ b)
    (hc : chatHistoryUsesToolContext a schemas = true) :
    chatHistoryUsesToolContext b schemas = true := by
  simp only [chatHistoryUsesToolContext, Bool.or_eq_true, List.any_eq_true] at hc ⊢
  exact hc.imp_right fun ⟨m, hm, h'⟩ => ⟨m, h hm, h'⟩

/-- The history before `start` ends with an assistant message. -/
structure EndsWithAssistant (msgs : List ChatMsg) (start : Nat) (a : ChatMsg) : Prop where
  split : msgs.take start = msgs.take (start - 1) ++ [a]
  role : a.role = lit "assistant"

theorem EndsWithAssistant.mk' (hs : 0 < start) (ha : msgs[start - 1]? = some a)
    (hr : a.role = lit "assistant") : EndsWithAssistant msgs start a := by
  obtain ⟨n, rfl⟩ : ∃ n, start = n + 1 := ⟨start - 1, by omega⟩
  refine ⟨?_, hr⟩
  simp only [Nat.add_sub_cancel] at ha ⊢
  rw [List.take_add_one, ha]; rfl

/-! ## DeepSeek -/

/-- The state with `out` written before everything else. -/
def DeepseekState.after (out : Bytes) (st : DeepseekState) : DeepseekState :=
  { st with out := out ++ st.out }

theorem renderDeepseekMsg_after : renderDeepseekMsg think keep (st.after out) m =
    (renderDeepseekMsg think keep st m).after out := by
  obtain ⟨o, p, q⟩ := st
  simp only [renderDeepseekMsg, DeepseekState.after]
  split
  · rfl
  split
  · simp only [List.append_assoc]
  split
  · simp only [List.append_assoc]
    rfl
  split
  · simp only [List.append_assoc]
  · rfl

theorem DeepseekState.finish_after {out : Bytes} (st : DeepseekState) :
    (st.after out).finish think = out ++ st.finish think := by
  exact List.append_assoc ..

theorem renderDeepseekMsg_keep {think keep : Bool} (h : keep = true ∨ think = false) :
    renderDeepseekMsg think keep st m = renderDeepseekMsg think true st m := by
  rcases h with rfl | rfl <;> simp [renderDeepseekMsg]

theorem renderDeepseekMsg_system (h : roleIsSystem m.role = true) :
    renderDeepseekMsg think keep st m = st := by
  rw [renderDeepseekMsg, if_pos h]

theorem foldl_renderDeepseekMsg_system {l : List ChatMsg} (h : ∀ m ∈ l, roleIsSystem m.role = true) :
    l.foldl (renderDeepseekMsg think keep) st = st := by
  induction l with
  | nil => rfl
  | cons m l ih =>
    rw [List.foldl_cons, renderDeepseekMsg_system (h m List.mem_cons_self),
      ih fun m hm => h m (List.mem_cons_of_mem _ hm)]

/-- An assistant message leaves the state the tail renderer starts in. -/
theorem renderDeepseekMsg_assistant (h : a.role = lit "assistant") :
    ∃ x, renderDeepseekMsg think keep st a =
      DeepseekState.after x ⟨lit "<｜end▁of▁sentence｜>", false, false⟩ := by
  have h1 : roleIsSystem a.role = false := by rw [h]; decide
  have h2 : a.role ≠ lit "user" := by rw [h]; decide
  have h3 : ¬ (a.role = lit "tool" ∨ a.role = lit "function") := by rw [h]; decide
  rw [renderDeepseekMsg, if_neg (by simp [h1]), if_neg h2, if_neg h3, if_pos h]
  exact ⟨_, rfl⟩

theorem renderDeepseekChatPromptText_eq
    (h : chatHistoryUsesToolContext msgs schemas = true ∨ ds4ThinkModeEnabled mode = false) :
    renderDeepseekChatPromptText msgs schemas orders mode =
      (msgs.foldl (renderDeepseekMsg (ds4ThinkModeEnabled mode) true)
        ⟨lit "<｜begin▁of▁sentence｜>" ++ (if mode = .max then ds4ThinkMaxPrefix else []) ++
          deepseekSystemText msgs schemas, false, false⟩).finish (ds4ThinkModeEnabled mode) := by
  rw [renderDeepseekChatPromptText, foldl_zipIdx_of_eq]
  intro st m i
  exact renderDeepseekMsg_keep (h.imp_left fun h => by simp [h])

theorem renderDeepseekLiveToolTail_spec (orders : List ToolSchemaOrder)
    (ha : EndsWithAssistant msgs start a)
    (hc : chatHistoryUsesToolContext (msgs.take start) schemas = true ∨
      ds4ThinkModeEnabled mode = false) :
    ∃ q, renderDeepseekChatPromptText (historyWithSystem msgs start) schemas orders mode =
        q ++ lit "<｜end▁of▁sentence｜>" ∧
      renderDeepseekChatPromptText msgs schemas orders mode =
        q ++ renderDeepseekLiveToolTail msgs start mode := by
  rw [renderDeepseekChatPromptText_eq (hc.imp_left (chatHistoryUsesToolContext_mono
      take_subset_historyWithSystem)),
    renderDeepseekChatPromptText_eq (hc.imp_left (chatHistoryUsesToolContext_mono
      (List.take_subset _ _)))]
  simp only [deepseekSystemText, filter_historyWithSystem, renderDeepseekLiveToolTail]
  generalize lit "<｜begin▁of▁sentence｜>" ++ _ ++ _ = head
  generalize ds4ThinkModeEnabled mode = think at *
  -- both loops reach the state after the assistant message
  obtain ⟨x, hx⟩ : ∃ x, (msgs.take start).foldl (renderDeepseekMsg think true)
      ⟨head, false, false⟩ =
        DeepseekState.after x ⟨lit "<｜end▁of▁sentence｜>", false, false⟩ := by
    rw [ha.split, List.foldl_append]
    exact renderDeepseekMsg_assistant ha.role
  refine ⟨x, ?_, ?_⟩
  · rw [historyWithSystem, List.foldl_append, hx,
      foldl_renderDeepseekMsg_system fun m hm => (List.mem_filter.1 hm).2,
      DeepseekState.finish_after]
    rfl
  · conv_lhs => rw [← List.take_append_drop start msgs]
    rw [List.foldl_append, hx, foldl_hom fun st m => renderDeepseekMsg_after,
      DeepseekState.finish_after]

/-! ## GLM -/

def GlmState.after (out : Bytes) (st : GlmState) : GlmState := { st with out := out ++ st.out }

theorem renderGlmMsg_after : renderGlmMsg think keep orders (st.after out) m =
    (renderGlmMsg think keep orders st m).after out := by
  obtain ⟨o, p, q⟩ := st
  simp only [renderGlmMsg, GlmState.after]
  split
  · rfl
  split
  · simp only [List.append_assoc]
    rfl
  split
  · simp only [List.append_assoc]
  split
  · simp only [List.append_assoc]
  · rfl

theorem GlmState.finish_after {out : Bytes} (st : GlmState) :
    (st.after out).finish think = out ++ st.finish think := by
  exact List.append_assoc ..

theorem renderGlmMsg_keep {think keep : Bool} (h : keep = true ∨ think = false) :
    renderGlmMsg think keep orders st m = renderGlmMsg think true orders st m := by
  rcases h with rfl | rfl <;> simp [renderGlmMsg]

/-- A system message closes an open observation. After an assistant message none is open. -/
theorem foldl_renderGlmMsg_system {l : List ChatMsg} (h : ∀ m ∈ l, roleIsSystem m.role = true) :
    l.foldl (renderGlmMsg think keep orders) ⟨out, p, false⟩ = ⟨out, p, false⟩ := by
  induction l with
  | nil => rfl
  | cons m l ih =>
    rw [List.foldl_cons, renderGlmMsg, if_pos (h m List.mem_cons_self),
      ih fun m hm => h m (List.mem_cons_of_mem _ hm)]

theorem renderGlmMsg_assistant (h : a.role = lit "assistant") :
    ∃ x, renderGlmMsg think keep orders st a = GlmState.after x ⟨[], false, false⟩ := by
  have h1 : roleIsSystem a.role = false := by rw [h]; decide
  have h2 : a.role ≠ lit "user" := by rw [h]; decide
  have h3 : chatMsgIsGlmToolResult a = false := by
    simp only [chatMsgIsGlmToolResult, h]
    rw [show (lit "assistant" == lit "tool") = false by decide,
      show (lit "assistant" == lit "function") = false by decide,
      show (lit "assistant" == lit "user") = false by decide]
    rfl
  rw [renderGlmMsg, if_neg (by simp [h1]), if_neg (by simp [h3]), if_neg h2, if_pos h]
  exact ⟨_, by rw [GlmState.after, List.append_nil]⟩

theorem renderGlmChatPromptText_eq
    (h : chatHistoryUsesToolContext msgs schemas = true ∨ ds4ThinkModeEnabled mode = false) :
    renderGlmChatPromptText msgs schemas orders mode =
      (msgs.foldl (renderGlmMsg (ds4ThinkModeEnabled mode) true orders)
        ⟨glmHeadText msgs schemas mode, false, false⟩).finish (ds4ThinkModeEnabled mode) := by
  rw [renderGlmChatPromptText, foldl_zipIdx_of_eq]
  intro st m i
  exact renderGlmMsg_keep (h.imp_left fun h => by simp [h])

theorem renderGlmLiveToolTail_spec (ha : EndsWithAssistant msgs start a)
    (hc : chatHistoryUsesToolContext (msgs.take start) schemas = true ∨
      ds4ThinkModeEnabled mode = false) :
    renderGlmChatPromptText msgs schemas orders mode =
      renderGlmChatPromptText (historyWithSystem msgs start) schemas orders mode ++
        renderGlmLiveToolTail msgs start orders mode := by
  rw [renderGlmChatPromptText_eq (hc.imp_left (chatHistoryUsesToolContext_mono
      take_subset_historyWithSystem)),
    renderGlmChatPromptText_eq (hc.imp_left (chatHistoryUsesToolContext_mono
      (List.take_subset _ _)))]
  simp only [glmHeadText, filter_historyWithSystem, renderGlmLiveToolTail]
  generalize lit "[gMASK]<sop>" ++ _ ++ _ ++ _ = head
  generalize ds4ThinkModeEnabled mode = think at *
  obtain ⟨x, hx⟩ : ∃ x, (msgs.take start).foldl (renderGlmMsg think true orders)
      ⟨head, false, false⟩ = GlmState.after x ⟨[], false, false⟩ := by
    rw [ha.split, List.foldl_append]
    exact renderGlmMsg_assistant ha.role
  have hq : (historyWithSystem msgs start).foldl (renderGlmMsg think true orders)
      ⟨head, false, false⟩ = GlmState.after x ⟨[], false, false⟩ := by
    rw [historyWithSystem, List.foldl_append, hx]
    exact foldl_renderGlmMsg_system fun m hm => (List.mem_filter.1 hm).2
  rw [hq]
  conv_lhs => rw [← List.take_append_drop start msgs]
  rw [List.foldl_append, hx, foldl_hom fun st m => renderGlmMsg_after, GlmState.finish_after,
    GlmState.finish_after]
  simp [GlmState.finish]

/-! ## Both syntaxes -/

/-- What the full rendering puts after an assistant message and the live session does not hold. -/
def endMarker : ServerModelSyntax → Bytes
  | .deepseek => lit "<｜end▁of▁sentence｜>"
  | .glm => []

/-- The full rendering is the rendering of the history, without its end marker, followed by the live
tail. -/
theorem renderLiveToolTailForSyntax_spec (stx : ServerModelSyntax) (msgs : List ChatMsg)
    (toolSchemas : Option Bytes) (toolOrders : List ToolSchemaOrder) (thinkMode : Ds4ThinkMode)
    (start : Nat) (a : ChatMsg) (hs : 0 < start) (ha : msgs[start - 1]? = some a)
    (hr : a.role = lit "assistant")
    (hc : chatHistoryUsesToolContext (msgs.take start) toolSchemas = true ∨
      ds4ThinkModeEnabled thinkMode = false) :
    ∃ q, renderChatPromptTextForSyntax stx (historyWithSystem msgs start) toolSchemas toolOrders
          thinkMode = q ++ endMarker stx ∧
      renderChatPromptTextForSyntax stx msgs toolSchemas toolOrders thinkMode =
        q ++ renderLiveToolTailForSyntax stx msgs start toolOrders thinkMode := by
  have ha := EndsWithAssistant.mk' hs ha hr
  cases stx with
  | deepseek => exact renderDeepseekLiveToolTail_spec toolOrders ha hc
  | glm => exact ⟨_, (List.append_nil _).symm, renderGlmLiveToolTail_spec ha hc⟩

/-- A tool round trip with a system message after the call. -/
def toolRoundTrip : List ChatMsg :=
  let msg role content calls : ChatMsg := ⟨lit role, some (lit content), none, [], ⟨calls, none⟩⟩
  [msg "user" "list" [],
   msg "assistant" "" [⟨some (lit "ls"), some (lit "\x7b\x7d")⟩],
   msg "tool" "a.c" [], msg "system" "be brief" []]

theorem renderLiveToolTailForSyntax_toolRoundTrip :
    ∃ q, renderChatPromptTextForSyntax .deepseek (historyWithSystem toolRoundTrip 2) none [] .high =
          q ++ endMarker .deepseek ∧
      renderChatPromptTextForSyntax .deepseek toolRoundTrip none [] .high =
        q ++ renderLiveToolTailForSyntax .deepseek toolRoundTrip 2 [] .high :=
  renderLiveToolTailForSyntax_spec .deepseek toolRoundTrip none [] .high 2 _ (by decide) rfl rfl
    (.inl (by decide))

end Ds4
