import Ds4.Engine.SyncDeepSeek
import Ds4.Engine.SyncGlm
import Ds4.Engine.SyncDist

/-!
# Session sync

`ds4_session_sync`: the live session and its backend are brought to a prompt. A leader of tensor
parallelism mirrors the call to its worker, and the images of the prompt are noted at the end.
-/

namespace Ds4.Sync
open Faulty

/-- The backend that a session runs on. -/
inductive Family
  | distributed (d : Dist)
  | cpu
  /-- `DS4_NO_GPU`. -/
  | none
  | glm (o : Glm)
  | deepSeek (o : DeepSeek)
  deriving DecidableEq, Repr

structure Options where
  ctxSize : Nat
  family : Family
  /-- The session leads one that is mirrored by a worker. -/
  mirror : Bool
  vocabSplit : Bool
  deriving DecidableEq, Repr

def Family.kind : Family → Kind
  | .distributed d => d.kind
  | .glm o => o.kind
  | _ => .recurrent

/-- The prompt that is evaluated. -/
def Family.truncate : Family → List Int → List Int
  | .glm o, prompt => o.truncate prompt
  | _, prompt => prompt

/-- `ds4_session_vision_prefix_matches`: the images of the checkpoint are the first of the prompt, and
the next one is behind the checkpoint. -/
def visionPrefixMatches (s : Session) (images : List VisionIdentity) : Bool :=
  s.valid && s.checkpointImages.isPrefixOf images &&
    match images.drop s.checkpointImages.length with
    | [] => true
    | next :: _ => s.checkpoint.length ≤ next.tokenStart

/-- `ds4_session_invalidate`. -/
def invalidate (s : Session) : Session :=
  { s with checkpoint := [], valid := false, glmDenseCacheLen := 0, checkpointImages := [] }

def ds4SessionSyncInternal (o : Options) (images : List VisionIdentity) (s : Session)
    (prompt : List Int) : SyncProg (Session × Rc) :=
  if prompt = [] then pure (s, .failed "empty prompt")
  else if o.ctxSize ≤ prompt.length then
    pure (s, .failed
      s!"prompt length {prompt.length} exceeds context {o.ctxSize} (one token of generation room is required)")
  else do
    if ← ds4SessionCancelled .poll then pure (s, .interrupted "interrupted")
    else
      match o.family with
      | .distributed d => ds4DistSessionSync d s prompt
      | .cpu => syncCpu s prompt
      | .none => pure (s, .failed "GPU support is not compiled in")
      | .glm g => syncGlm g images s prompt
      | .deepSeek g => syncDeepSeek g s prompt

/-- `ds4_session_store_vision_identities`, when the sync has succeeded. -/
def storeVisionIdentities (images : List VisionIdentity) (s : Session) : SyncProg (Session × Rc) := do
  if ← (if images = [] then pure true else link .link) then
    pure ({ s with checkpointImages := images }, .ok)
  else pure (invalidate s, .failed "unable to retain image prompt identity")

/-- The leader waits for its worker, and for the worker's half of the logits. -/
def awaitMirror (o : Options) (s : Session) (rc : Rc) : SyncProg (Session × Rc) := do
  let ack ← link .link
  let half ← if ack && o.vocabSplit then link .link else pure true
  if rc = .ok && ack && half then pure (s, rc)
  else if rc = .ok then
    pure (invalidate s, .failed (if ack then "tp: worker sync logits half missing" else "tp: prefill sync"))
  else pure (invalidate s, rc)

def ds4SessionSync (o : Options) (images : List VisionIdentity) (s : Session) (prompt : List Int) :
    SyncProg (Session × Rc) := do
  let s := if s.valid && !visionPrefixMatches s images then invalidate s else s
  if ← (if o.mirror && prompt ≠ [] then link .link else pure true) then
    let (s, rc) ← ds4SessionSyncInternal o images s prompt
    let (s, rc) ← if o.mirror then awaitMirror o s rc else pure (s, rc)
    if rc = .ok then storeVisionIdentities images s else pure (s, rc)
  else pure (s, .failed "tp: worker sync send failed")

/-! ## Sync keeps session and backend together -/

theorem Family.truncate_isPrefix (f : Family) (prompt : List Int) : f.truncate prompt <+: prompt := by
  cases f with
  | glm o =>
    change o.truncate prompt <+: prompt
    rw [Glm.truncate]
    split
    · exact List.take_prefix _ _
    · exact List.prefix_rfl
  | _ => exact List.prefix_rfl

theorem safe_ds4SessionSyncInternal (o : Options) (images : List VisionIdentity) (s : Session)
    (prompt : List Int) (b : Backend)
    (hk : ∀ d, o.family = .distributed d → d.glm = true → d.kind = .rows)
    (h : Consistent o.family.kind s b) :
    (ds4SessionSyncInternal o images s prompt).Safe Call.Settled
      (Post o.family.kind (o.family.truncate prompt) s b) b := by
  rw [ds4SessionSyncInternal]
  split
  · exact .unchanged h
  · next hne =>
    have hlt : 0 < prompt.length := List.length_pos_of_ne_nil hne
    split
    · exact .unchanged h
    · apply safe_cancelled
      · rw [if_neg Bool.false_ne_true]
        cases hf : o.family with
        | distributed d =>
          rw [hf] at h
          exact safe_ds4DistSessionSync d (hk d hf) s prompt b h hlt
        | cpu =>
          rw [hf] at h
          exact safe_syncCpu s prompt b h
        | none =>
          rw [hf] at h
          exact .unchanged h
        | glm g =>
          rw [hf] at h
          exact safe_syncGlm g images s prompt b h hne
        | deepSeek g =>
          rw [hf] at h
          exact safe_syncDeepSeek g s prompt b h hlt
      · intro _
        exact .unchanged_interrupted h

section Ends

variable {k : Kind} {prompt : List Int} {s s₀ : Session} {b b₀ : Backend}

theorem safe_storeVisionIdentities (images : List VisionIdentity) (h : Post k prompt s₀ b₀ (s, .ok) b) :
    (storeVisionIdentities images s).Safe Call.Settled (Post k prompt s₀ b₀) b := by
  obtain ⟨hc, hv, hp⟩ := h
  have hok : Post k prompt s₀ b₀ ({ s with checkpointImages := images }, .ok) b := ⟨hc, hv, hp⟩
  rw [storeVisionIdentities]
  split
  · exact hok
  · apply safe_link
    · exact hok
    · intro _
      exact .failed rfl

theorem safe_awaitMirror (o : Options) {rc : Rc} (h : Post k prompt s₀ b₀ (s, rc) b) :
    (awaitMirror o s rc).Safe Call.Settled (Post k prompt s₀ b₀) b := by
  have hlost : ∀ rc, rc ≠ .ok → Post k prompt s₀ b₀ (invalidate s, rc) b := by
    intro rc hrc
    cases rc with
    | ok => exact absurd rfl hrc
    | failed err => exact .failed rfl
    | interrupted err => exact .interrupted rfl
  have hend : ∀ ack half : Bool, Prog.Safe Call.Settled
      (if rc = .ok && ack && half then pure (s, rc)
      else if rc = .ok then
        pure (invalidate s, .failed (if ack then "tp: worker sync logits half missing" else "tp: prefill sync"))
      else pure (invalidate s, rc) : SyncProg (Session × Rc)) (Post k prompt s₀ b₀) b := by
    intro ack half
    split
    · exact h
    · split
      · exact .failed rfl
      · next hrc => exact hlost rc hrc
  apply safe_link
  · cases hs : o.vocabSplit with
    | false => exact hend true true
    | true =>
      apply safe_link
      · exact hend true true
      · intro _
        exact hend true false
  · intro _
    exact hend false true

end Ends

/-- A session that is given up at once is not one that was turned away. -/
theorem Post.of_invalidated {k : Kind} {prompt : List Int} {s s' : Session} {b₀ b : Backend}
    {r : Session × Rc} (hs : s' = s ∨ s'.valid = false) (h : Post k prompt s' b₀ r b) :
    Post k prompt s b₀ r b := by
  obtain ⟨hc, hr⟩ := h
  refine ⟨hc, ?_⟩
  have hturn : r.1 = s' ∧ b = b₀ → r.1.valid = false ∨ (r.1 = s ∧ b = b₀) := by
    rintro ⟨he, hb⟩
    rcases hs with hs | hs
    · exact .inr ⟨he.trans hs, hb⟩
    · exact .inl (he ▸ hs)
  split at hr
  · exact hr
  · exact hr.elim .inl hturn
  · rcases hr with hv | hp | hr
    · exact .inl hv
    · exact .inr (.inl hp)
    · exact (hturn hr).imp_right .inr

theorem safe_ds4SessionSync (o : Options) (images : List VisionIdentity) (s : Session)
    (prompt : List Int) (b : Backend)
    (hk : ∀ d, o.family = .distributed d → d.glm = true → d.kind = .rows)
    (h : Consistent o.family.kind s b) :
    (ds4SessionSync o images s prompt).Safe Call.Settled
      (Post o.family.kind (o.family.truncate prompt) s b) b := by
  rw [ds4SessionSync]
  dsimp only
  generalize hs : (if s.valid && !visionPrefixMatches s images then invalidate s else s) = s'
  have hkeep : s' = s ∨ s'.valid = false := by
    rw [← hs]
    split
    · exact .inr rfl
    · exact .inl rfl
  have h' : Consistent o.family.kind s' b := by
    rcases hkeep with he | hv
    · rw [he]
      exact h
    · intro hv'
      rw [hv] at hv'
      cases hv'
  have hgo : Prog.Safe Call.Settled (do
      let (s, rc) ← ds4SessionSyncInternal o images s' prompt
      let (s, rc) ← if o.mirror then awaitMirror o s rc else pure (s, rc)
      if rc = .ok then storeVisionIdentities images s else pure (s, rc))
      (Post o.family.kind (o.family.truncate prompt) s b) b := by
    refine (safe_ds4SessionSyncInternal o images s' prompt b hk h').bind ?_
    rintro ⟨s₁, rc₁⟩ b₁ h₁
    have hend : ∀ r b₂, Post o.family.kind (o.family.truncate prompt) s' b r b₂ →
        Prog.Safe Call.Settled
          (if r.2 = .ok then storeVisionIdentities images r.1 else pure r : SyncProg (Session × Rc))
          (Post o.family.kind (o.family.truncate prompt) s b) b₂ := by
      rintro ⟨s₂, rc₂⟩ b₂ h₂
      split
      · next hrc =>
        cases (hrc : rc₂ = .ok)
        exact (safe_storeVisionIdentities images h₂).mono fun _ _ => .of_invalidated hkeep
      · exact .of_invalidated hkeep h₂
    dsimp only
    split
    · exact (safe_awaitMirror o h₁).bind hend
    · exact hend _ _ h₁
  split
  · apply safe_link
    · exact hgo
    · intro _
      exact .of_invalidated hkeep (.unchanged h')
  · exact hgo

/-- As long as no call fails where the session claims too much, a sync leaves a valid session that
says what is so, ends a success with the prompt as the checkpoint, and leaves after a failure or a
cancel request a checkpoint that is invalid or a prefix of the prompt, unless it has turned the call
away and left everything as it was. -/
theorem ds4SessionSync_consistent (o : Options) (images : List VisionIdentity) (s : Session)
    (prompt : List Int) (b : Backend) (os : List (Option Backend))
    (hk : ∀ d, o.family = .distributed d → d.glm = true → d.kind = .rows)
    (hs : Consistent o.family.kind s b)
    (hset : ∀ l ∈ ((ds4SessionSync o images s prompt).exec os b).failed, l.Settled) :
    let r := (ds4SessionSync o images s prompt).exec os b
    (r.result.1.valid = true →
      r.state.Holds o.family.kind r.result.1.checkpoint ∧ r.state.logits = r.result.1.checkpoint) ∧
    (r.result.2 = .ok →
      r.result.1.valid = true ∧ r.result.1.checkpoint = o.family.truncate prompt) ∧
    (r.result.2 ≠ .ok →
      r.result.1.valid = false ∨ r.result.1.checkpoint <+: prompt ∨
        (r.result.1 = s ∧ r.state = b)) := by
  obtain ⟨hc, hr⟩ := (safe_ds4SessionSync o images s prompt b hk hs).exec os hset
  refine ⟨hc, fun hok => ?_, fun hne => ?_⟩
  · rw [hok] at hr
    exact hr
  · split at hr
    · next hok => exact absurd hok hne
    · exact hr.imp_right .inr
    · exact hr.imp_right fun hr => hr.imp_left fun hp => hp.trans (o.family.truncate_isPrefix prompt)

/-- A prompt that goes on from the checkpoint of a CPU session. -/
theorem cpuSync_consistent :
    let r := (ds4SessionSync ⟨8, .cpu, false, false⟩ [] ⟨[1], true, 0, []⟩ [1, 2]).exec [] ⟨[1], [1]⟩
    (r.result.1.valid = true → r.state.Holds .recurrent r.result.1.checkpoint ∧
      r.state.logits = r.result.1.checkpoint) ∧
    (r.result.2 = .ok → r.result.1.valid = true ∧ r.result.1.checkpoint = [1, 2]) ∧
    (r.result.2 ≠ .ok → r.result.1.valid = false ∨ r.result.1.checkpoint <+: [1, 2] ∨
      (r.result.1 = ⟨[1], true, 0, []⟩ ∧ r.state = ⟨[1], [1]⟩)) :=
  ds4SessionSync_consistent ⟨8, .cpu, false, false⟩ [] ⟨[1], true, 0, []⟩ [1, 2] ⟨[1], [1]⟩ []
    (fun _ hf => by cases hf) (fun _ => ⟨rfl, rfl⟩)
    (fun l hl => by rw [Prog.exec_nil_failed] at hl; cases hl)

/-- A cancel request at the entry leaves the checkpoint of another prompt standing. -/
theorem cancelled_at_entry :
    let s : Session := ⟨[1], true, 0, []⟩
    let b : Backend := ⟨[1], [1]⟩
    let r := (ds4SessionSync ⟨8, .cpu, false, false⟩ [] s [2]).exec [some b] b
    Consistent .recurrent s b ∧ r.result.2 = .interrupted "interrupted" ∧
      r.result.1.valid = true ∧ ¬r.result.1.checkpoint <+: [2] := by
  refine ⟨fun _ => ⟨rfl, rfl⟩, rfl, rfl, ?_⟩
  change ¬[1] <+: [(2 : Int)]
  decide

end Ds4.Sync
