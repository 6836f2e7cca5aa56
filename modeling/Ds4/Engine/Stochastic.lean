import Ds4.Engine.Speculate
import Ds4.Sampling.Point

/-!
# Stochastic speculative decoding

`ds4_session_eval_dspark_speculative_stochastic` of a session that is not tensor parallel. The calls to the graph take their
outcomes from a list, the random numbers are drawn by the program, and arithmetic is exact. Statistics and the scheduler of
the drafter are left out.
-/

namespace Ds4.Engine
open Faulty Ds4.Sampling

/-- A graph and the outcomes of the calls to come. -/
structure World (κ L : Type) where
  graph : Graph κ L
  outcomes : List (Option (Graph κ L))

def World.call {κ L α : Type} (w : World κ L) (p : GraphProg κ L α) : α × World κ L :=
  let e := p.exec w.outcomes w.graph
  (e.result, ⟨e.state, e.rest⟩)

/-- A logit is `none` where it is not finite. -/
abbrev Logits (K : Type) := ℕ → Option K

structure SampleOptions (K : Type) where
  temperature : K
  topK : ℤ
  topP : K
  minP : K

structure DsparkEngine (K : Type) where
  expf : K → K
  sampleArgmax : Logits K → ℕ
  nVocab : ℕ
  ctxSize : ℤ
  /-- `DS4_SPEC_PREFIX_SLOTS` -/
  prefixSlots : ℕ

/-- `dspark_draft_valid`, `dspark_stochastic_draft` and the draft tokens. -/
structure DsparkDraft where
  valid : Bool
  stochastic : Bool
  tokens : List ℤ

def DsparkDraft.cleared : DsparkDraft := ⟨false, false, []⟩

/-- What a cycle leaves; the accepted tokens are `none` where it returns -1. -/
structure DsparkCycle (κ K : Type) where
  session : Session (Logits K) ℤ
  draft : DsparkDraft
  accepted : Option (List ℤ)
  world : World κ (Logits K)

/-- The outcome of the loop that judges the drafts. -/
structure Judged where
  ok : Bool
  acceptedDrafts : ℕ
  replacement : Option ℕ

section
variable {κ K : Type} [Field K] [LinearOrder K] (m : Model κ (Logits K) ℤ) (e : DsparkEngine K) (o : SampleOptions K)

def targetProbs (logits : Logits K) : Option (ℕ → K) :=
  sampleBuildProbabilities e.expf (e.sampleArgmax logits) logits e.nVocab o.temperature o.topK o.topP o.minP

/-- The drafts up to the first end of sequence. -/
def cutAtEos (eos : ℤ) : List ℤ → List ℤ
  | [] => []
  | d :: ds => if d = eos then [d] else d :: cutAtEos eos ds

def ds4SessionEvalProbeTp (s : Session (Logits K) ℤ) (t : ℤ) : GraphProg κ (Logits K) (Session (Logits K) ℤ × Bool) :=
  if s.valid then ds4SessionEvalProbe m (fun _ => t) s t false else pure (s, false)

/-- The loop over the drafts behind the first one: row `i - 1` judges draft `i`. -/
def judgeRows : List ℤ → ℕ → ℕ → World κ (Logits K) → Draws K (Judged × World κ (Logits K))
  | [], _, n, w => .ret (⟨true, n, none⟩, w)
  | d :: ds, i, n, w =>
    match w.call (metalGraphReadSpecLogitsRow (i - 1)) with
    | (none, w) => .ret (⟨false, n, none⟩, w)
    | (some logits, w) =>
      match targetProbs e o logits with
      | none => .ret (⟨false, n, none⟩, w)
      | some probs => (speculativePointAccept (probs d.toNat) 1).bind fun
        | true => judgeRows ds (i + 1) (n + 1) w
        | false => (speculativePointReplacement probs e.nVocab d).bind fun r => .ret (⟨r.isSome, n, r⟩, w)

/-- The tokens that there is room for are handed out. -/
def emit (acceptedCap : ℤ) (accepted ts : List ℤ) : List ℤ := accepted ++ ts.take (acceptedCap - accepted.length).toNat

/-- The replacement is evaluated and the accepted drafts are handed out with it. -/
def finishPartial (acceptedCap : ℤ) (accepted drafts : List ℤ) (r : ℕ) (s : Session (Logits K) ℤ)
    (w : World κ (Logits K)) : DsparkCycle κ K :=
  match w.call (ds4SessionEvalProbeTp m s r) with
  | ((s, false), w) => ⟨s, .cleared, none, w⟩
  | ((s, true), w) => ⟨s, .cleared, some (emit acceptedCap (emit acceptedCap accepted drafts) [(r : ℤ)]), w⟩

/-- The verifier gave no result: back to the frontier. -/
def abandonVerifier (start : ℕ) (accepted : List ℤ) (s : Session (Logits K) ℤ) (w : World κ (Logits K)) : DsparkCycle κ K :=
  let s := { s with checkpoint := s.checkpoint.take start }
  match w.call (specFrontierRestore .minded) with
  | (none, w) => ⟨{ s with valid := false }, .cleared, none, w⟩
  | (some _, w) => ⟨s, .cleared, some accepted, w⟩

/-- All drafts are accepted: the logits of the last row are those of the session. -/
def commitFull (start : ℕ) (acceptedCap eos : ℤ) (accepted drafts : List ℤ) (s : Session (Logits K) ℤ)
    (w : World κ (Logits K)) : DsparkCycle κ K :=
  match w.call (metalGraphReadSpecLogitsRow (drafts.length - 1)) with
  | (none, w) => abandonVerifier start accepted s w
  | (some logits, w) =>
    ⟨{ s with logits := logits, valid := true }, .cleared, some (acceptLoop acceptedCap.toNat eos accepted drafts), w⟩

/-- Some drafts are accepted and the next one is replaced: the state behind the accepted ones was kept, or the frontier is
restored and they are evaluated again. -/
def commitPartial (start : ℕ) (acceptedCap : ℤ) (accepted drafts : List ℤ) (r : ℕ) (s : Session (Logits K) ℤ)
    (w : World κ (Logits K)) : DsparkCycle κ K :=
  let s := { s with checkpoint := s.checkpoint.take start }
  let direct :=
    if 0 < drafts.length ∧ drafts.length ≤ e.prefixSlots then w.call (specFrontierCommitPrefix drafts.length) else (none, w)
  match direct with
  | (some _, w) =>
    finishPartial m acceptedCap accepted drafts r { s with checkpoint := s.checkpoint ++ drafts, valid := true } w
  | (none, w) =>
    match w.call (specFrontierRestore .minded) with
    | (none, w) => ⟨{ s with valid := false }, .cleared, none, w⟩
    | (some _, w) =>
      match w.call (replayLoop m .minded drafts s none) with
      | ((s, none), w) => ⟨{ s with valid := false }, .cleared, none, w⟩
      | ((s, some _), w) => finishPartial m acceptedCap accepted drafts r { s with valid := true } w

/-- The drafts were judged. -/
def commitJudged (start : ℕ) (acceptedCap eos : ℤ) (accepted drafts : List ℤ) (s : Session (Logits K) ℤ) (j : Judged)
    (w : World κ (Logits K)) : DsparkCycle κ K :=
  match j.ok, j.replacement with
  | true, some r => commitPartial m e start acceptedCap accepted (drafts.take j.acceptedDrafts) r s w
  | true, none =>
    if j.acceptedDrafts = drafts.length then commitFull start acceptedCap eos accepted drafts s w
    else abandonVerifier start accepted s w
  | false, _ => abandonVerifier start accepted s w

/-- The first draft is accepted: all are verified in one pass. -/
def verifyStochastic (acceptedCap eos : ℤ) (accepted drafts : List ℤ) (s : Session (Logits K) ℤ) (w : World κ (Logits K)) :
    Draws K (DsparkCycle κ K) :=
  let start := s.checkpoint.length
  match w.call specFrontierSnapshot with
  | (none, w) => .ret ⟨s, .cleared, some accepted, w⟩
  | (some _, w) =>
    let s := { s with checkpoint := s.checkpoint ++ drafts }
    match w.call (metalGraphVerifySuffixTops m drafts start (decide (1 < drafts.length))) with
    | (none, w) => .ret (abandonVerifier start accepted s w)
    | (some _, w) =>
      (judgeRows e o drafts.tail 1 1 w).bind fun (j, w) => .ret (commitJudged m e start acceptedCap eos accepted drafts s j w)

/-- The first draft is not accepted: its replacement is decoded. -/
def firstMiss (probs : ℕ → K) (accepted : List ℤ) (d : ℤ) (s : Session (Logits K) ℤ) (w : World κ (Logits K)) :
    Draws K (DsparkCycle κ K) :=
  (speculativePointReplacement probs e.nVocab d).bind fun
  | none => .ret ⟨s, .cleared, none, w⟩
  | some r =>
    match w.call (ds4SessionEvalProbeTp m s r) with
    | ((s, false), w) => .ret ⟨s, .cleared, none, w⟩
    | ((s, true), w) => .ret ⟨s, .cleared, some (accepted ++ [(r : ℤ)]), w⟩

/-- The drafts that are judged, when there is room and they are tokens. -/
def draftsOf (maxTokens acceptedCap eos : ℤ) (s : Session (Logits K) ℤ) (d : DsparkDraft) (accepted : List ℤ) : List ℤ :=
  let n : ℤ := accepted.length
  let room := e.ctxSize - s.checkpoint.length
  let draftN := min (min (min (d.tokens.length : ℤ) (maxTokens - n)) (acceptedCap - n)) (room - 1)
  let drafts := d.tokens.take draftN.toNat
  if ∀ x ∈ drafts, 0 ≤ x ∧ x < e.nVocab then cutAtEos eos drafts else []

def ds4SessionEvalDsparkSpeculativeStochastic (maxTokens acceptedCap eos : ℤ) (s : Session (Logits K) ℤ) (d : DsparkDraft)
    (accepted : List ℤ) (w : World κ (Logits K)) : Draws K (DsparkCycle κ K) :=
  if d.valid = false ∨ d.stochastic = false ∨ d.tokens = [] then .ret ⟨s, d, some accepted, w⟩
  else
    match draftsOf e maxTokens acceptedCap eos s d accepted with
    | [] => .ret ⟨s, .cleared, some accepted, w⟩
    | d :: ds =>
      match targetProbs e o s.logits with
      | none => .ret ⟨s, .cleared, some accepted, w⟩
      | some probs => (speculativePointAccept (probs d.toNat) 1).bind fun
        | true => verifyStochastic m e o acceptedCap eos accepted (d :: ds) s w
        | false => firstMiss m e probs accepted d s w

end

end Ds4.Engine
