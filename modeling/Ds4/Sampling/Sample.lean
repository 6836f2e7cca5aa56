import Mathlib.Algebra.Order.Field.Basic
import Mathlib.Data.Prod.Lex
import Ds4.Lib.TopK
import Ds4.Lib.WeightedDraw

/-!
# Sampling from the logits

`sample_build_probabilities` and `sample_top_p_min_p` with exact arithmetic. A logit is `none` where it is not finite,
`expf` is a parameter, and so is the index `sample_argmax` gives, which is used where no logit is finite. The number a path
draws is `u`.
-/

namespace Ds4.Sampling

/-- `sample_candidate` -/
structure Candidate (K : Type) where
  id : ℕ
  logit : K
  prob : K

section
variable {K : Type} [LinearOrder K]

/-- `sample_candidate_gt` -/
def Candidate.gt (a b : Candidate K) : Prop := if a.logit ≠ b.logit then b.logit < a.logit else a.id < b.id

instance : DecidableRel (Candidate.gt (K := K)) := fun _ _ => inferInstanceAs (Decidable (ite ..))

/-- `sample_candidate_cmp_desc` -/
def sampleCandidateCmpDesc (a b : Candidate K) : ℤ :=
  let logitOrder : ℤ := (if a.logit < b.logit then 1 else 0) - (if b.logit < a.logit then 1 else 0)
  if logitOrder ≠ 0 then logitOrder else (if b.id < a.id then 1 else 0) - (if a.id < b.id then 1 else 0)

def qsort (l : List (Candidate K)) : List (Candidate K) := l.mergeSort fun a b => decide (sampleCandidateCmpDesc a b ≤ 0)

def sampleHeapSiftUp (heap : ℕ → Candidate K) (idx : ℕ) : ℕ → Candidate K := TopK.siftUp Candidate.gt heap idx

def sampleHeapSiftDown (heap : ℕ → Candidate K) (n idx : ℕ) : ℕ → Candidate K := TopK.siftDown Candidate.gt heap n idx

end

/-! ## The loops over the vocabulary -/

section
variable {K : Type}

/-- `if (!isfinite(v)) continue;` -/
def eachFinite {σ : Type} (logits : ℕ → Option K) (nVocab : ℕ) (body : σ → ℕ → K → σ) (s : σ) : σ :=
  (List.range nVocab).foldl (fun s i =>
    match logits i with
    | none => s
    | some v => body s i v) s

/-- `finite`, `max_logit` and `best`; `none` is `DS4_NEG_INF`. -/
structure Scan (K : Type) where
  finite : ℕ
  maxLogit : Option K
  best : ℕ

def scanLogits [LinearOrder K] (logits : ℕ → Option K) (nVocab : ℕ) : Scan K :=
  eachFinite logits nVocab (fun s i v =>
    if ∀ m ∈ s.maxLogit, m < v then ⟨s.finite + 1, some v, i⟩ else { s with finite := s.finite + 1 }) ⟨0, none, 0⟩

variable [Field K] [LinearOrder K]

instance : Inhabited (Candidate K) := ⟨⟨0, 0, 0⟩⟩

structure Heap (K : Type) where
  heap : ℕ → Candidate K
  n : ℕ
  sum : K
  heapSum : K

/-- The body of the heap loops. -/
def Heap.see (raw : K → K) (cap : ℕ) (s : Heap K) (i : ℕ) (v : K) : Heap K :=
  let p := raw v
  let cand : Candidate K := ⟨i, v, p⟩
  if s.n < cap then
    { heap := sampleHeapSiftUp (Function.update s.heap s.n cand) s.n
      n := s.n + 1
      sum := s.sum + p
      heapSum := s.heapSum + p }
  else if cand.gt (s.heap 0) then
    { heap := sampleHeapSiftDown (Function.update s.heap 0 cand) s.n 0
      n := s.n
      sum := s.sum + p
      heapSum := s.heapSum - (s.heap 0).prob + p }
  else { s with sum := s.sum + p }

def heapLoop (raw : K → K) (cap : ℕ) (logits : ℕ → Option K) (nVocab : ℕ) : Heap K :=
  eachFinite logits nVocab (Heap.see raw cap) ⟨fun _ => default, 0, 0, 0⟩

/-- The finite logits with their weights, in the order of the vocabulary, and the sum of the weights. -/
def collect (raw : K → K) (logits : ℕ → Option K) (nVocab : ℕ) : List (Candidate K) × K :=
  eachFinite logits nVocab (fun s i v => (s.1 ++ [⟨i, v, raw v⟩], s.2 + raw v)) ([], 0)

/-! ## The filters -/

structure Filtered (K : Type) where
  kept : List (Candidate K)
  sum : K
  stoppedByMinP : Bool
  reachedTopP : Bool

/-- The loops over the sorted candidates: `below` is the comparison with the least probability, made from the second
entry on. -/
def filterLoop (below : Candidate K → Prop) [DecidablePred below] (baseSum topP : K) :
    Filtered K → List (Candidate K) → Filtered K
  | s, [] => s
  | s, c :: cs =>
    if s.kept ≠ [] ∧ below c then { s with stoppedByMinP := true }
    else
      let s : Filtered K := { s with kept := s.kept ++ [c], sum := s.sum + c.prob }
      if topP ≤ s.sum / baseSum then { s with reachedTopP := true } else filterLoop below baseSum topP s cs

def Filtered.start : Filtered K := ⟨[], 0, false, false⟩

/-- `r -= p; if (r <= 0.0f) return id;` -/
def drawLoop (l : List (Candidate K)) (r : K) (last : ℕ) : ℕ := WeightedDraw.draw (l.map fun c => (c.id, c.prob)) r last

def clampTopP (topP : K) : K := if topP ≤ 0 ∨ 1 < topP then 1 else topP

def clampMinP (minP : K) : K := if minP < 0 then 0 else minP

/-! ## The paths -/

section
variable (expf : K → K) (argmax : ℕ) (logits : ℕ → Option K) (nVocab : ℕ) (temperature : K) (topK : ℤ) (topP minP : K)

def oneHot (id : ℕ) : ℕ → K := Function.update (fun _ => 0) id 1

/-- `probs`, or `none` where the function returns false. -/
def sampleBuildProbabilities : Option (ℕ → K) :=
  if nVocab = 0 then none
  else if temperature ≤ 0 then some (oneHot argmax)
  else
    let topP := clampTopP topP
    let minP := clampMinP minP
    let topK := if 1024 < topK then 1024 else topK
    let topK := if topK < 0 then 0 else topK
    let topK := if (nVocab : ℤ) < topK then (nVocab : ℤ) else topK
    let heapCap : ℕ := if 0 < topK then topK.toNat else 512
    let scan := scanLogits logits nVocab
    match scan.maxLogit with
    | none => some (oneHot argmax)
    | some maxLogit =>
      let raw := fun v => expf ((v - maxLogit) / temperature)
      let s := heapLoop raw heapCap logits nVocab
      if s.sum ≤ 0 ∨ s.n = 0 then some (oneHot argmax)
      else
        let heap := qsort (TopK.elems s.heap s.n)
        let baseSum := if 0 < topK then s.heapSum else s.sum
        let minRaw := heap.head!.prob * minP
        let f := filterLoop (fun c => c.prob < minRaw) baseSum topP .start heap
        let heapHasAll := s.n = scan.finite
        let minPProvesTailFiltered := f.stoppedByMinP = true ∧ heap.getLast!.prob < minRaw
        let fastComplete := 0 < topK ∨ heapHasAll ∨ f.reachedTopP = true ∨ minPProvesTailFiltered
        let (cand, f) :=
          if fastComplete then (heap, f)
          else
            let cand := qsort (collect raw logits nVocab).1
            let fullMinRaw := cand.head!.prob * minP
            (cand, filterLoop (fun c => c.prob < fullMinRaw) s.sum topP .start cand)
        if f.kept = [] ∨ f.sum ≤ 0 then some (oneHot cand.head!.id)
        else
          let invSum := 1 / f.sum
          some (f.kept.foldl (fun probs c => Function.update probs c.id (c.prob * invSum)) fun _ => 0)

/-- The token, or `none` where the function returns false. -/
def sampleFastTopP (finite : ℕ) (maxLogit : K) (best : ℕ) (u : K) : Option ℕ :=
  if finite = 0 then none
  else if 512 < finite ∧ 999 / 1000 ≤ topP then none
  else
    let cap := if finite < 512 then finite else 512
    let s := heapLoop (fun v => expf ((v - maxLogit) / temperature)) cap logits nVocab
    if s.sum ≤ 0 then some best
    else if s.n < finite ∧ s.heapSum < topP * s.sum then none
    else
      let heap := qsort (TopK.elems s.heap s.n)
      let minRel := if 0 < minP then minP else 0
      let minProb := heap.head!.prob / s.sum * minRel
      let minProbRaw := heap.head!.prob * minRel
      let f := filterLoop (fun c => c.prob / s.sum < minProb) s.sum topP .start heap
      if s.n < finite ∧ f.stoppedByMinP = true ∧ 0 < minP ∧ minProbRaw ≤ heap.getLast!.prob then none
      else if f.kept = [] then some best
      else some (drawLoop f.kept (u * f.sum) f.kept.getLast!.id)

/-- The boundary below which no weight is computed, after at most eight steps of `nextafterf` from `logf(min_rel)`. -/
def rejectScaled (nextafter : K → K) (minRel : K) : ℕ → K → Option K
  | 0, _ => none
  | n + 1, cutoff =>
    let cutoff := nextafter cutoff
    if expf cutoff < minRel then some cutoff else rejectScaled nextafter minRel n cutoff

/-- `logf` and `nextafterf(·, -FLT_MAX)` choose the boundary. -/
def sampleFullVocab (logf nextafter : K → K) (u : K) : ℕ :=
  let scan := scanLogits logits nVocab
  match scan.maxLogit with
  | none => argmax
  | some maxLogit =>
    let raw := fun v => expf ((v - maxLogit) / temperature)
    let fast := if topP < 1 then sampleFastTopP expf logits nVocab temperature topP minP scan.finite maxLogit scan.best u else none
    match fast with
    | some token => token
    | none =>
      if 1 ≤ topP then
        let minRel := if 0 < minP then minP else 0
        if 1 < minRel then scan.best
        else
          let reject := if 0 < minRel then rejectScaled expf nextafter minRel 8 (logf minRel) else none
          let (cand, sum) := eachFinite logits nVocab (fun s i v =>
            let scaled := (v - maxLogit) / temperature
            if ∃ r ∈ reject, scaled ≤ r then s
            else if expf scaled < minRel then s
            else (s.1 ++ [(⟨i, v, expf scaled⟩ : Candidate K)], s.2 + expf scaled)) ([], 0)
          if sum ≤ 0 then scan.best else drawLoop cand (u * sum) scan.best
      else
        let (all, sum) := collect raw logits nVocab
        -- with a least probability up to one only the candidates that can survive it are sorted
        let cand := if 0 < minP ∧ minP ≤ 1 then all.filter fun c => ¬c.prob / sum < 1 / sum * minP else all
        if sum ≤ 0 ∨ cand = [] then scan.best
        else
          let cand := qsort cand
          let minProb := cand.head!.prob / sum * (if 0 < minP then minP else 0)
          let f := filterLoop (fun c => c.prob / sum < minProb) sum topP .start cand
          if f.kept = [] then scan.best else drawLoop f.kept (u * f.sum) f.kept.getLast!.id

/-- `ids` and `vals` of the candidates seen so far, in descending order. -/
structure Insertion (K : Type) where
  entries : ℕ → ℕ × K
  n : ℕ

/-- The body of the insertion loop: equal values stay in front of the new one. -/
def Insertion.see (topK : ℕ) (s : Insertion K) (i : ℕ) (v : K) : Insertion K :=
  if s.n = topK ∧ v ≤ (s.entries (s.n - 1)).2 then s
  else
    { entries := TopK.place (fun e f : ℕ × K => e.2 < f.2) s.entries (i, v) (if s.n < topK then s.n else s.n - 1)
      n := if s.n < topK then s.n + 1 else s.n }

def sampleTopPMinP (logf nextafter : K → K) (u : K) : ℕ :=
  if temperature ≤ 0 then argmax
  else
    let topP := clampTopP topP
    let minP := clampMinP minP
    if topK ≤ 0 then sampleFullVocab expf argmax logits nVocab temperature topP minP logf nextafter u
    else
      let topK := if 1024 < topK then 1024 else topK
      let topK := if (nVocab : ℤ) < topK then (nVocab : ℤ) else topK
      let s := eachFinite logits nVocab (Insertion.see topK.toNat) ⟨fun _ => (0, 0), 0⟩
      if s.n = 0 then argmax
      else
        let maxLogit := (s.entries 0).2
        let cand := (TopK.elems s.entries s.n).map fun e => (⟨e.1, e.2, expf ((e.2 - maxLogit) / temperature)⟩ : Candidate K)
        let sum := (cand.map Candidate.prob).sum
        if sum ≤ 0 then (s.entries 0).1
        else
          let minProb := cand.head!.prob / sum * minP
          let f := filterLoop (fun c => c.prob / sum < minProb) sum topP .start cand
          if f.kept = [] then (s.entries 0).1 else drawLoop f.kept (u * f.sum) f.kept.getLast!.id

end

end

end Ds4.Sampling
