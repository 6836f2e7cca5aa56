import Ds4.Engine.Backend

/-!
# Speculative argmax decoding with an MTP drafter

`ds4_session_eval_speculative_argmax_impl` on the DeepSeek graph with a legacy MTP drafter. The
switches it reads from the engine and the environment are fields of `MtpOptions`; the margin of the
last draft, a floating point comparison, is one of them. What the drafter proposes is a parameter of
the calls. A phase of the function returns, fails, or falls through to the next one.
-/

namespace Ds4.Engine
open Faulty

variable {κ L τ : Type} [DecidableEq τ]

/-- The part of a session that decoding reads and writes. -/
structure Session (L τ : Type) where
  checkpoint : List τ
  valid : Bool
  logits : L
  /-- The draft prepared by the last evaluation. -/
  mtpDraft : Option τ

structure MtpOptions where
  ctxSize : Int
  mtpReady : Bool
  draftTokens : Int
  /-- The quality mode or `DS4_MTP_STRICT`. -/
  strict : Bool
  /-- There is a margin threshold. -/
  margin : Bool
  /-- The margin of the second draft is below it. -/
  lowMargin : Bool
  /-- The build prefers the exact verifier of two rows. -/
  preferDecode2 : Bool
  batchVerify : Bool
  capturePrefix1 : Bool
  exactReplay : Bool
  forceSnapshot : Bool
  deriving DecidableEq, Repr

/-- How a phase of the function ends: it returns the accepted tokens, returns an error, or goes on. -/
inductive Verdict (τ : Type)
  | returns (accepted : List τ)
  | fails
  | falls
  deriving DecidableEq, Repr

/-- Which tokens end a generation. -/
structure Stops (τ : Type) where
  eos : τ
  ignoreEos : Bool
  isStop : τ → Bool

/-- One token is decoded and, when that is asked for, a draft prepared. -/
def ds4SessionEvalProbe (m : Model κ L τ) (proposal : Nat → τ) (s : Session L τ) (t : τ)
    (probe : Bool) : GraphProg κ L (Session L τ × Bool) := do
  let s := if probe then { s with mtpDraft := none } else s
  match ← metalGraphEvalToken m .minded t s.checkpoint.length with
  | none => pure ({ s with valid := false }, false)
  | some l =>
    let s := { s with logits := l, checkpoint := s.checkpoint ++ [t], valid := true }
    if probe then do
      match ← metalGraphEvalMtpDraft (proposal 0) with
      | some d => pure ({ s with mtpDraft := some d }, true)
      | none => pure (s, true)
    else pure (s, true)

/-- The drafts behind the first one, at most `n` of them; `none` when the drafter fails. -/
def draftLoop (proposal : Nat → τ) (st : Stops τ) : Nat → List τ → GraphProg κ L (Option (List τ))
  | 0, drafts => pure (some drafts)
  | n + 1, drafts => do
    match ← metalGraphEvalMtpDraft (proposal drafts.length) with
    | none => pure none
    | some d =>
      if st.ignoreEos && st.isStop d then pure (some drafts)
      else if d = st.eos then pure (some (if st.ignoreEos then drafts else drafts ++ [d]))
      else draftLoop proposal st n (drafts ++ [d])

/-- The drafts that are accepted, up to an end of sequence. -/
def acceptLoop (cap : Nat) (eos : τ) : List τ → List τ → List τ
  | accepted, [] => accepted
  | accepted, d :: ds =>
    if accepted.length < cap then
      if d = eos then accepted ++ [d] else acceptLoop cap eos (accepted ++ [d]) ds
    else accepted

/-- The drafts that the verified rows confirm; the first one is known to be right. -/
def commitDrafts (drafts tops : List τ) : Nat :=
  1 + ((drafts.tail.zip tops).takeWhile fun x => x.2 = x.1).length

/-- A draft of low margin is decoded alone. -/
def marginSkip (m : Model κ L τ) (s : Session L τ) (accepted : List τ) (d : τ) :
    GraphProg κ L (Session L τ × Verdict τ) := do
  match ← metalGraphEvalToken m .minded d s.checkpoint.length with
  | none => pure ({ s with valid := false }, .fails)
  | some l =>
    pure ({ checkpoint := s.checkpoint ++ [d], valid := true, logits := l, mtpDraft := none },
      .returns (accepted ++ [d]))

/-- The exact verifier of two rows. -/
def decode2Exact (m : Model κ L τ) (s : Session L τ) (cap : Nat) (accepted : List τ) (d0 d1 : τ) :
    GraphProg κ L (Session L τ × Verdict τ) := do
  let start := s.checkpoint.length
  match ← specFrontierSnapshot with
  | none => pure (s, .falls)
  | some _ =>
    match ← metalGraphVerifyDecode2Exact m d0 d1 start with
    | none => do
      let _ ← specFrontierRestore .ignored
      pure (s, .falls)
    | some (top, l0, l1) =>
      if top = d1 then
        pure ({ checkpoint := s.checkpoint ++ [d0, d1], valid := true, logits := l1, mtpDraft := none },
          .returns (if (accepted ++ [d0]).length < cap then accepted ++ [d0, d1] else accepted ++ [d0]))
      else do
        match ← specFrontierCommitPrefix 1 with
        | some _ =>
          pure ({ checkpoint := s.checkpoint ++ [d0], valid := true, logits := l0, mtpDraft := none },
            .returns (accepted ++ [d0]))
        | none => do
          let _ ← specFrontierRestore .ignored
          pure (s, .falls)

/-- The drafts are evaluated one by one until a call fails: the tokens pushed and the logits of the
last one. -/
def replayLoop (m : Model κ L τ) (care : Care) : List τ → Session L τ → Option L →
    GraphProg κ L (Session L τ × Option (Option L))
  | [], s, l => pure (s, some l)
  | d :: ds, s, _ => do
    match ← metalGraphEvalToken m care d s.checkpoint.length with
    | none => pure (s, none)
    | some l => replayLoop m care ds { s with checkpoint := s.checkpoint ++ [d] } (some l)

/-- `DS4_MTP_EXACT_REPLAY`: the frontier is restored and the confirmed drafts are decoded again. The
result of a failed call is lost when all drafts are confirmed, since the next branch overwrites it. -/
def exactReplay (m : Model κ L τ) (s : Session L τ) (start : Nat) (drafts : List τ) (commit : Nat)
    (accept : List τ → List τ) : GraphProg κ L (Session L τ × Verdict τ) := do
  let care := if commit = drafts.length then Care.ignored else Care.minded
  let s := { s with checkpoint := s.checkpoint.take start }
  match ← specFrontierRestore care with
  | none => pure (s, .falls)
  | some _ =>
    match ← replayLoop m care (drafts.take commit) s none with
    | (s, some l) =>
      pure ({ s with logits := l.getD s.logits, valid := true, mtpDraft := none },
        .returns (accept (drafts.take commit)))
    | (s, none) => pure (s, .falls)

/-- All drafts are confirmed: the logits of the last row are those of the session. -/
def commitAll (s : Session L τ) (drafts : List τ) (accept : List τ → List τ) :
    GraphProg κ L (Session L τ × Verdict τ) := do
  match ← metalGraphReadSpecLogitsRow (drafts.length - 1) with
  | none => pure (s, .falls)
  | some l => pure ({ s with logits := l, valid := true, mtpDraft := none }, .returns (accept drafts))

/-- One of two drafts is confirmed and the state behind it was kept. -/
def commitPrefix1 (s : Session L τ) (start : Nat) (accepted : List τ) (d : τ) :
    GraphProg κ L (Session L τ × Verdict τ) := do
  let s := { s with checkpoint := s.checkpoint.take start }
  match ← specFrontierCommitPrefix 1 with
  | none => pure (s, .falls)
  | some _ =>
    match ← metalGraphReadSpecLogitsRow 0 with
    | none => pure (s, .falls)
    | some l =>
      pure ({ checkpoint := s.checkpoint ++ [d], valid := true, logits := l, mtpDraft := none },
        .returns (accepted ++ [d]))

/-- The frontier is restored and the confirmed drafts are evaluated again: one of two alone, others
in one pass. -/
def rollBack (m : Model κ L τ) (s : Session L τ) (start : Nat) (accepted : List τ) (d : τ) (ds : List τ)
    (commit : Nat) (accept : List τ → List τ) : GraphProg κ L (Session L τ × Verdict τ) := do
  let s := { s with checkpoint := s.checkpoint.take start }
  match ← specFrontierRestore .minded with
  | none => pure (s, .falls)
  | some _ =>
    if ds.length = 1 ∧ commit = 1 then do
      match ← metalGraphEvalToken m .minded d start with
      | none => pure (s, .falls)
      | some l =>
        pure ({ checkpoint := s.checkpoint ++ [d], valid := true, logits := l, mtpDraft := none },
          .returns (accepted ++ [d]))
    else do
      let confirmed := (d :: ds).take commit
      let s := { s with checkpoint := s.checkpoint ++ confirmed }
      match ← metalGraphVerifySuffixTops m confirmed start false with
      | none => pure (s, .falls)
      | some _ =>
        match ← metalGraphReadSpecLogitsRow (commit - 1) with
        | none => pure (s, .falls)
        | some l =>
          pure ({ s with logits := l, valid := true, mtpDraft := none }, .returns (accept confirmed))

/-- The next phase, when one falls through. -/
def orElse (p : GraphProg κ L (Session L τ × Verdict τ))
    (next : Session L τ → GraphProg κ L (Session L τ × Verdict τ)) :
    GraphProg κ L (Session L τ × Verdict τ) := do
  let (s, v) ← p
  match v with
  | .falls => next s
  | v => pure (s, v)

/-- The choices of the batched verifier. -/
structure Micro where
  capture : Bool
  frontier : Bool
  replay : Bool

/-- The drafts were verified: the confirmed ones are committed. -/
def commitVerified (m : Model κ L τ) (c : Micro) (s : Session L τ) (start : Nat)
    (accepted : List τ) (d : τ) (ds : List τ) (commit : Nat) (accept : List τ → List τ) :
    GraphProg κ L (Session L τ × Verdict τ) :=
  orElse
    (if c.replay && c.frontier then exactReplay m s start (d :: ds) commit accept else pure (s, .falls))
    fun s => orElse (if commit = (d :: ds).length then commitAll s (d :: ds) accept else pure (s, .falls))
      fun s =>
        if ds.length = 1 ∧ commit = 1 ∧ c.capture then commitPrefix1 s start accepted d
        else if c.frontier then rollBack m s start accepted d ds commit accept
        else pure ({ s with checkpoint := s.checkpoint.take start }, .falls)

/-- The verifier is given up: back to the frontier if there is one. -/
def abandon (s : Session L τ) (start : Nat) (frontier : Bool) :
    GraphProg κ L (Session L τ × Verdict τ) := do
  let s := { s with checkpoint := s.checkpoint.take start }
  if frontier then do
    let _ ← specFrontierRestore .ignored
    pure (s, .falls)
  else pure ({ s with valid := false }, .fails)

/-- The batched verifier. -/
def microVerify (m : Model κ L τ) (o : MtpOptions) (s : Session L τ) (cap : Nat) (eos : τ)
    (accepted : List τ) (d : τ) (ds : List τ) : GraphProg κ L (Session L τ × Verdict τ) := do
  let n := ds.length + 1
  let start := s.checkpoint.length
  let capture := n = 2 && (!o.strict || o.capturePrefix1)
  let required := 2 < n || (n = 2 && (!capture || o.exactReplay)) || o.forceSnapshot
  let frontier ← if required then Option.isSome <$> specFrontierSnapshot else pure false
  if required && !frontier then pure (s, .falls)
  else do
    let s := { s with checkpoint := s.checkpoint ++ d :: ds }
    match ← metalGraphVerifySuffixTops m (d :: ds) start capture with
    | none => abandon s start frontier
    | some tops =>
      orElse
        (commitVerified m ⟨capture, frontier, o.exactReplay⟩ s start accepted d ds
          (commitDrafts (d :: ds) tops) (acceptLoop cap eos accepted))
        fun s => abandon s start frontier

/-- The drafts are decoded one by one as long as they are the ones the model would choose. -/
def sequentialLoop (m : Model κ L τ) (cap : Nat) (eos : τ) :
    List τ → Session L τ → List τ → τ → GraphProg κ L (Session L τ × Option (List τ))
  | [], s, accepted, _ => pure (s, some accepted)
  | d :: ds, s, accepted, top =>
    if accepted.length < cap ∧ top = d then do
      match ← metalGraphEvalTokenTop m d s.checkpoint.length with
      | none => pure ({ s with valid := false }, none)
      | some top =>
        let s := { s with checkpoint := s.checkpoint ++ [d] }
        if d = eos then pure (s, some (accepted ++ [d]))
        else sequentialLoop m cap eos ds s (accepted ++ [d]) top
    else pure (s, some accepted)

def sequentialVerify (m : Model κ L τ) (s : Session L τ) (cap : Nat) (eos : τ) (accepted drafts : List τ) :
    GraphProg κ L (Session L τ × Verdict τ) := do
  match ← sequentialLoop m cap eos drafts s accepted (m.argmax s.logits) with
  | (s, none) => pure (s, .fails)
  | (s, some accepted') =>
    if accepted.length < accepted'.length then do
      match ← readLogits with
      | none => pure ({ s with valid := false }, .fails)
      | some l => pure ({ s with logits := l }, .returns accepted')
    else pure (s, .returns accepted')

/-- The drafts are verified in one of the ways that the options select. -/
def verifyDrafts (m : Model κ L τ) (o : MtpOptions) (s : Session L τ) (cap : Nat) (eos : τ)
    (accepted : List τ) (d : τ) (ds : List τ) : GraphProg κ L (Session L τ × Verdict τ) :=
  if !o.strict && ds.length = 1 && o.margin && o.lowMargin then marginSkip m s accepted d
  else
    orElse
      (match ds with
      | [d1] =>
        if (o.strict || o.preferDecode2) && !o.batchVerify then decode2Exact m s cap accepted d d1
        else microVerify m o s cap eos accepted d ds
      | _ => microVerify m o s cap eos accepted d ds)
      fun s => sequentialVerify m s cap eos accepted (d :: ds)

def ds4SessionEvalSpeculativeArgmaxImpl (m : Model κ L τ) (o : MtpOptions) (proposal : Nat → τ)
    (st : Stops τ) (s : Session L τ) (first : τ) (maxTokens acceptedCap : Int) :
    GraphProg κ L (Session L τ × Verdict τ) :=
  if maxTokens ≤ 0 ∨ acceptedCap ≤ 0 then pure (s, .returns [])
  else if s.valid = false then pure (s, .fails)
  else do
    let cap := min acceptedCap maxTokens
    let (s, ok) ← ds4SessionEvalProbe m proposal s first (first ≠ st.eos && 1 < cap)
    if ok = false then pure (s, .fails)
    else if first = st.eos ∨ cap ≤ 1 then pure (s, .returns [first])
    else if o.mtpReady = false ∨ o.draftTokens ≤ 1 then pure (s, .returns [first])
    else
      match s.mtpDraft with
      | none => pure (s, .returns [first])
      | some d =>
        let draftCap := min o.draftTokens (min (cap - 1) (o.ctxSize - s.checkpoint.length - 1))
        if draftCap ≤ 0 then pure (s, .returns [first])
        else do
          let s := { s with mtpDraft := none }
          if st.ignoreEos && st.isStop d then pure (s, .returns [first])
          else if m.argmax s.logits ≠ d then pure (s, .returns [first])
          else do
            let draftCap := if !st.ignoreEos && d = st.eos then 1 else draftCap.toNat
            match ← draftLoop proposal st (draftCap - 1) [d] with
            | some (d :: ds) => verifyDrafts m o s cap.toNat st.eos [first] d ds
            | _ => pure (s, .returns [first])

def ds4SessionEvalSpeculativeArgmax (m : Model κ L τ) (o : MtpOptions) (proposal : Nat → τ)
    (s : Session L τ) (first : τ) (maxTokens : Int) (eos : τ) (acceptedCap : Int) :
    GraphProg κ L (Session L τ × Verdict τ) :=
  ds4SessionEvalSpeculativeArgmaxImpl m o proposal ⟨eos, false, fun _ => false⟩ s first maxTokens
    acceptedCap

end Ds4.Engine
