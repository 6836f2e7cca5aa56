import Ds4.Lib.Faulty
import Mathlib.Data.List.Basic

/-!
# Sessions, backends and the calls of the sync routine

A session says which tokens it stands for and whether that holds. The backend is known by the tokens
that its caches hold and by those that the logits were computed for. A call evaluates tokens, polls
the cancel callback or waits for something else; it may fail, and a cancel request is a poll that
fails. The calls carry where they stand, so that it can be said which failures leave a session that
claims too much.
-/

namespace Ds4.Sync
open Faulty

/-- How caches hold tokens: in rows that are written by position, so that every prefix is held too,
or in a recurrent state that goes on from where it is. -/
inductive Kind
  | rows
  | recurrent
  deriving DecidableEq, Repr

structure Backend where
  caches : List Int
  logits : List Int
  deriving DecidableEq, Repr

namespace Backend

/-- The tokens that an evaluation at a position has seen. -/
def seen (k : Kind) (b : Backend) (pos : Nat) (ts : List Int) : List Int :=
  match k with
  | .rows => b.caches.take pos ++ ts
  | .recurrent => b.caches ++ ts

/-- Rows that are written again with the tokens they had keep what is behind them. -/
def write (k : Kind) (b : Backend) (pos : Nat) (ts : List Int) : List Int :=
  match k with
  | .rows => if b.seen .rows pos ts <+: b.caches then b.caches else b.seen .rows pos ts
  | .recurrent => b.seen .recurrent pos ts

/-- Tokens are evaluated at a position, with logits when they are wanted. -/
def eval (k : Kind) (b : Backend) (pos : Nat) (ts : List Int) (wants : Bool) : Backend where
  caches := b.write k pos ts
  logits := if wants then b.seen k pos ts else b.logits

/-- The caches represent some tokens. -/
def Holds (k : Kind) (b : Backend) (ts : List Int) : Prop :=
  match k with
  | .rows => ts <+: b.caches
  | .recurrent => b.caches = ts

variable {k : Kind} {b : Backend} {ts us : List Int}

theorem Holds.seen (h : b.Holds k ts) (us : List Int) : b.seen k ts.length us = ts ++ us := by
  cases k with
  | rows =>
    obtain ⟨r, hr⟩ := h
    rw [Backend.seen, ← hr, List.take_left']
    rfl
  | recurrent =>
    rw [Backend.seen]
    exact congrArg (· ++ us) h

/-- Evaluating at the end of what is held. -/
theorem Holds.eval (h : b.Holds k ts) (us : List Int) (wants : Bool) :
    (b.eval k ts.length us wants).Holds k (ts ++ us) := by
  have hs := h.seen us
  cases k with
  | rows =>
    change ts ++ us <+: b.write .rows ts.length us
    rw [write, hs]
    split
    · next hp => exact hp
    · exact List.prefix_rfl
  | recurrent => exact hs

theorem Holds.logits_eval (h : b.Holds k ts) (us : List Int) :
    (b.eval k ts.length us true).logits = ts ++ us := h.seen us

end Backend

/-- An image in a prompt: where its tokens are and what it is. -/
structure VisionIdentity where
  tokenStart : Nat
  tokenCount : Nat
  fingerprint : List UInt8
  deriving DecidableEq, Repr

structure Session where
  checkpoint : List Int
  valid : Bool
  /-- The rows of the dense cache that are in use, for GLM. -/
  glmDenseCacheLen : Nat
  checkpointImages : List VisionIdentity
  deriving DecidableEq, Repr

/-- What a valid session says is so: the caches represent the checkpoint, and the logits are those
of its last token. -/
def Consistent (k : Kind) (s : Session) (b : Backend) : Prop :=
  s.valid = true → b.Holds k s.checkpoint ∧ b.logits = s.checkpoint

/-- A call of the sync routine. The flag of a call tells whether the session, when the call fails,
stays or becomes valid without the backend being as it says. -/
inductive Call
  /-- A poll of the cancel callback, where the logits are those of the checkpoint. -/
  | poll
  /-- A poll of the GLM-5.3 loop, which may be behind a chunk without logits. -/
  | glm53Poll (stale : Bool)
  /-- A poll of the GLM decode loop, which may be behind a dense chunk without logits. -/
  | decodePoll (stale : Bool)
  /-- A poll between the tokens of a streamed prefill. -/
  | streamingPoll (stale : Bool)
  /-- An evaluation after whose failure the checkpoint is given up. -/
  | eval
  /-- An evaluation of the GLM dense bridge or of the GLM prefill loop. -/
  | glmPrefill (stale : Bool)
  /-- A call to the workers of a distributed session. -/
  | dist (stale : Bool)
  /-- A call that touches neither the caches nor the logits. -/
  | link
  deriving DecidableEq, Repr

/-- The flag of a call. -/
def Call.stale : Call → Bool
  | .glm53Poll f | .decodePoll f | .streamingPoll f | .glmPrefill f | .dist f => f
  | .poll | .eval | .link => false

/-- The failures that leave no session that claims too much. -/
def Call.Settled (l : Call) : Prop := l.stale = false

/-- How a call of the routine ends; `interrupted` is `DS4_SESSION_SYNC_INTERRUPTED`. -/
inductive Rc
  | ok
  | failed (err : String)
  | interrupted (err : String)
  deriving DecidableEq, Repr

abbrev SyncProg (α : Type) := Prog Call Backend α

/-- `ds4_session_cancelled`: a poll that fails is a cancel request. -/
def ds4SessionCancelled (l : Call) : SyncProg Bool := do
  match ← Prog.ask l (fun b => (b, ())) fun _ b => b with
  | none => pure true
  | some _ => pure false

/-- A chunk for the backend; a failure leaves it arbitrary. -/
def forward (l : Call) (k : Kind) (pos : Nat) (ts : List Int) (wants : Bool) : SyncProg Bool := do
  match ← Prog.ask l (fun b => (b.eval k pos ts wants, ())) fun g _ => g with
  | none => pure false
  | some _ => pure true

/-- A call that only changes the caches, such as their reset. -/
def change (l : Call) (f : List Int → List Int) : SyncProg Bool := do
  match ← Prog.ask l (fun b => ({ b with caches := f b.caches }, ())) fun g _ => g with
  | none => pure false
  | some _ => pure true

/-- A call that touches neither the caches nor the logits. -/
def link (l : Call) : SyncProg Bool := do
  match ← Prog.ask l (fun b => (b, ())) fun _ b => b with
  | none => pure false
  | some _ => pure true

/-- An effect that cannot fail. -/
def always (f : Backend → Backend) : SyncProg Unit :=
  Prog.call .eval (fun b => (f b, ())) (fun _ b => f b) fun _ => .ret ()

section Rules

variable {may : Call → Prop} {α : Type} {l : Call} {f : Bool → SyncProg α} {b : Backend}
  {Q : α → Backend → Prop}

theorem safe_cancelled (hgo : Prog.Safe may (f false) Q b) (hcut : may l → Prog.Safe may (f true) Q b) :
    Prog.Safe may (ds4SessionCancelled l >>= f) Q b := ⟨hgo, fun hl _ => hcut hl⟩

theorem safe_forward {k : Kind} {pos : Nat} {ts : List Int} {wants : Bool}
    (hok : Prog.Safe may (f true) Q (b.eval k pos ts wants))
    (hfail : may l → ∀ g, Prog.Safe may (f false) Q g) :
    Prog.Safe may (forward l k pos ts wants >>= f) Q b := ⟨hok, hfail⟩

theorem safe_change {g : List Int → List Int}
    (hok : Prog.Safe may (f true) Q { b with caches := g b.caches })
    (hfail : may l → ∀ g, Prog.Safe may (f false) Q g) :
    Prog.Safe may (change l g >>= f) Q b := ⟨hok, hfail⟩

theorem safe_link (hok : Prog.Safe may (f true) Q b) (hfail : may l → Prog.Safe may (f false) Q b) :
    Prog.Safe may (link l >>= f) Q b := ⟨hok, fun hl _ => hfail hl⟩

theorem safe_always {g : Backend → Backend} {f : Unit → SyncProg α}
    (h : Prog.Safe may (f ()) Q (g b)) : Prog.Safe may (always g >>= f) Q b := ⟨h, fun _ _ => h⟩

end Rules

/-- What a call of the sync routine has to end in: a session that says what is so; the prompt as its
checkpoint after a success; and otherwise a checkpoint that is invalid, or a prefix of the prompt when
the call was cancelled, unless it was turned away with everything as it was. -/
def Post (k : Kind) (prompt : List Int) (s₀ : Session) (b₀ : Backend) (r : Session × Rc)
    (b : Backend) : Prop :=
  Consistent k r.1 b ∧
    match r.2 with
    | .ok => r.1.valid = true ∧ r.1.checkpoint = prompt
    | .failed _ => r.1.valid = false ∨ (r.1 = s₀ ∧ b = b₀)
    | .interrupted _ => r.1.valid = false ∨ r.1.checkpoint <+: prompt ∨ (r.1 = s₀ ∧ b = b₀)

namespace Post

variable {k : Kind} {prompt : List Int} {s₀ s : Session} {b₀ b : Backend} {err : String}

theorem ok (hh : b.Holds k s.checkpoint) (hl : b.logits = s.checkpoint) (hv : s.valid = true)
    (hp : s.checkpoint = prompt) : Post k prompt s₀ b₀ (s, .ok) b := ⟨fun _ => ⟨hh, hl⟩, hv, hp⟩

theorem failed (hv : s.valid = false) : Post k prompt s₀ b₀ (s, .failed err) b :=
  ⟨fun h => absurd h (by rw [hv]; exact Bool.false_ne_true), .inl hv⟩

theorem interrupted_kept (hc : Consistent k s b) (hp : s.checkpoint <+: prompt) :
    Post k prompt s₀ b₀ (s, .interrupted err) b := ⟨hc, .inr (.inl hp)⟩

theorem interrupted (hv : s.valid = false) : Post k prompt s₀ b₀ (s, .interrupted err) b :=
  ⟨fun h => absurd h (by rw [hv]; exact Bool.false_ne_true), .inl hv⟩

/-- Turned away. -/
theorem unchanged (hc : Consistent k s b) : Post k prompt s b (s, .failed err) b :=
  ⟨hc, .inr ⟨rfl, rfl⟩⟩

theorem unchanged_interrupted (hc : Consistent k s b) : Post k prompt s b (s, .interrupted err) b :=
  ⟨hc, .inr (.inr ⟨rfl, rfl⟩)⟩

end Post

end Ds4.Sync
