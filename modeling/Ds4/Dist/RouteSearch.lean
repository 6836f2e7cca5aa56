import Mathlib.Data.List.Sort
import Ds4.Dist.Protocol

/-!
# The search for a route

The coordinator registers the workers whose hello it accepts and looks for a chain of them that
starts behind its own layers. `Chain` says what a route is; the backtracking search over the sorted
workers finds one exactly when there is one.
-/

namespace Ds4.Dist
open C

structure CoordinatorState where
  modelId : UInt32
  modelName : Bytes
  nLayers : UInt32
  localStart : UInt32
  localEnd : UInt32
  ctxSize : UInt32
  localHasOutput : Bool
  localCanOutputHead : Bool
  activationBits : UInt32
  generation : UInt64

/-- The checks of `dist_coordinator_client_main` on a hello. -/
def distCoordinatorCheckHello (state : CoordinatorState) (hello : HelloFixed) (modelName : Bytes) :
    Except Bytes Unit :=
  refuse [
    (hello.modelId ≠ state.modelId, lit "model id mismatch: worker=" ++ dec hello.modelId ++
      lit " coordinator=" ++ dec state.modelId),
    (modelName ≠ state.modelName, lit "model family mismatch: worker=" ++ modelName ++
      lit " coordinator=" ++ state.modelName),
    (hello.nLayers ≠ state.nLayers, lit "layer count mismatch: worker=" ++ dec hello.nLayers ++
      lit " coordinator=" ++ dec state.nLayers),
    (hello.quantBits ≠ 2 && hello.quantBits ≠ 4,
      lit "unsupported worker quant profile Q" ++ dec hello.quantBits),
    (hello.hasOutput > 1, lit "invalid worker output-head flag " ++ dec hello.hasOutput),
    (hello.hasHidden > 1, lit "invalid worker hidden-state flag " ++ dec hello.hasHidden),
    (hello.layerStart ≥ hello.nLayers || hello.layerEnd ≥ hello.nLayers ||
      hello.layerEnd < hello.layerStart, lit "invalid worker layer range " ++
        dec hello.layerStart ++ lit ":" ++ dec hello.layerEnd ++ lit " for " ++
        dec hello.nLayers ++ lit " layers"),
    (hello.hasOutput ≠ 0 && hello.layerEnd + 1 ≠ hello.nLayers,
      lit "worker output head requires final layer: range=" ++ dec hello.layerStart ++ lit ":" ++
        dec hello.layerEnd ++ lit " layers=" ++ dec hello.nLayers),
    (state.ctxSize ≠ 0 && hello.ctxSize < state.ctxSize, lit "worker context too small: worker=" ++
      dec hello.ctxSize ++ lit " coordinator=" ++ dec state.ctxSize),
    (hello.listenPort = 0 || hello.listenPort > 65535,
      lit "invalid worker data listen port " ++ dec hello.listenPort)]

/-- A registered worker: where it connected from and the hello that was accepted. -/
structure WorkerEntry (state : CoordinatorState) where
  peerHost : Bytes
  hello : HelloFixed
  modelName : Bytes
  accepted : distCoordinatorCheckHello state hello modelName = .ok ()

namespace WorkerEntry
variable {state : CoordinatorState} (w : WorkerEntry state)

def layerStart : UInt32 := w.hello.layerStart
def layerEnd : UInt32 := w.hello.layerEnd
def hasOutput : Bool := w.hello.hasOutput ≠ 0
def hasHidden : Bool := w.hello.hasHidden ≠ 0
def listenPort : UInt32 := w.hello.listenPort

theorem nLayers_eq : w.hello.nLayers = state.nLayers := by
  have h := refuse_ok w.accepted
  simp only [List.mem_cons, forall_eq_or_imp] at h
  simpa using h.2.2.1

theorem range : w.layerStart ≤ w.layerEnd ∧ w.layerEnd < state.nLayers := by
  have h := refuse_ok w.accepted
  simp only [List.mem_cons, forall_eq_or_imp] at h
  have hr := h.2.2.2.2.2.2.1
  simp only [Bool.or_eq_false_iff, decide_eq_false_iff_not, UInt32.not_lt, ge_iff_le,
    UInt32.not_le] at hr
  rw [w.nLayers_eq] at hr
  exact ⟨hr.2, hr.1.2⟩

theorem output (h : w.hasOutput = true) : w.layerEnd + 1 = state.nLayers := by
  have hc := refuse_ok w.accepted
  simp only [List.mem_cons, forall_eq_or_imp] at hc
  have ho := hc.2.2.2.2.2.2.2.1
  rw [hasOutput] at h
  rw [h, Bool.true_and, decide_eq_false_iff_not, not_not, w.nLayers_eq] at ho
  exact ho

theorem port : w.listenPort ≠ 0 ∧ w.listenPort ≤ 65535 := by
  have h := refuse_ok w.accepted
  simp only [List.mem_cons, forall_eq_or_imp] at h
  have hp := h.2.2.2.2.2.2.2.2.2.1
  simp only [Bool.or_eq_false_iff, decide_eq_false_iff_not, gt_iff_lt, UInt32.not_lt] at hp
  exact hp

theorem toNat_layerEnd_add_one : (w.layerEnd + 1).toNat = w.layerEnd.toNat + 1 := by
  have hb : w.layerEnd.toNat < state.nLayers.toNat := w.range.2
  have hn : state.nLayers.toNat < 2 ^ 32 := state.nLayers.toNat_lt
  rw [UInt32.toNat_add]
  exact Nat.mod_eq_of_lt (Nat.lt_of_le_of_lt hb hn)

end WorkerEntry

section Search
variable {state : CoordinatorState}

/-- The order in which the workers are sorted for the search. -/
def distWorkerRouteCmp (a b : WorkerEntry state) : Int :=
  if a.layerStart < b.layerStart then -1
  else if a.layerStart > b.layerStart then 1
  else if a.hasOutput ≠ b.hasOutput then (if a.hasOutput then -1 else 1)
  else if a.layerEnd > b.layerEnd then -1
  else if a.layerEnd < b.layerEnd then 1
  else 0

def distWorkerRouteCandidateOk (w : WorkerEntry state) (last : UInt32) : Bool :=
  let needsHidden := w.layerEnd < last || !w.hasOutput
  if needsHidden && !w.hasHidden then false
  else if w.layerEnd ≥ last && !w.hasOutput && !state.localCanOutputHead then false
  else true

/-- The loop over the workers that are left, with the path so far and the missing layer. A worker
that starts the next slice is tried; what follows it is searched among all workers again. -/
def distRouteSearchFrom (workers : List (WorkerEntry state)) (last next : UInt32) (sawStart : Bool)
    (path : List (WorkerEntry state)) (missingLayer : UInt32) :
    List (WorkerEntry state) → Bool × List (WorkerEntry state) × UInt32
  | [] => (false, path, if !sawStart && next > missingLayer then next else missingLayer)
  | w :: rest =>
    if w.layerStart < next then
      distRouteSearchFrom workers last next sawStart path missingLayer rest
    else if _ : w.layerStart > next then
      (false, path, if !sawStart && next > missingLayer then next else missingLayer)
    else if !distWorkerRouteCandidateOk w last then
      distRouteSearchFrom workers last next true path missingLayer rest
    else if w.layerEnd ≥ last then
      (true, path ++ [w], missingLayer)
    else
      match distRouteSearchFrom workers last (w.layerEnd + 1) false (path ++ [w]) (w.layerEnd + 1)
          workers with
      | (true, path, _) => (true, path, missingLayer)
      | (false, path, childMissing) =>
        distRouteSearchFrom workers last next true path.dropLast
          (if childMissing > missingLayer then childMissing else missingLayer) rest
termination_by ws => (2 ^ 32 - next.toNat, ws.length)
decreasing_by
  · exact Prod.Lex.right _ (Nat.lt_succ_self _)
  · exact Prod.Lex.right _ (Nat.lt_succ_self _)
  · next h _ _ =>
    apply Prod.Lex.left
    have hs : w.layerStart.toNat ≤ w.layerEnd.toNat := w.range.1
    have hn : next.toNat ≤ w.layerStart.toNat := UInt32.not_lt.mp ‹¬w.layerStart < next›
    have hb := (w.layerEnd + 1).toNat_lt
    rw [w.toNat_layerEnd_add_one] at hb ⊢
    omega
  · exact Prod.Lex.right _ (Nat.lt_succ_self _)

def distRouteSearchWorkers (workers : List (WorkerEntry state)) (next last : UInt32) :
    Bool × List (WorkerEntry state) × UInt32 :=
  distRouteSearchFrom workers last next false [] next workers

/-- The workers as `qsort` leaves them. -/
def sortWorkers (workers : List (WorkerEntry state)) : List (WorkerEntry state) :=
  workers.mergeSort fun a b => distWorkerRouteCmp a b ≤ 0

/-- A route can end with a worker: it returns logits, or hidden states to a coordinator that has
the output head. -/
def Ends (w : WorkerEntry state) : Prop :=
  w.hasOutput = true ∨ (w.hasHidden = true ∧ state.localCanOutputHead = true)

/-- Workers that cover the layers from one to the last, each starting where the one before it
stopped. A worker that is not the last one has to return hidden states. -/
inductive Chain (last : Nat) : Nat → List (WorkerEntry state) → Prop
  | final {w : WorkerEntry state} {next : Nat} (start : w.layerStart.toNat = next)
    (stop : w.layerEnd.toNat = last) (ends : Ends w) : Chain last next [w]
  | hop {w : WorkerEntry state} {ws : List (WorkerEntry state)} {next : Nat}
    (start : w.layerStart.toNat = next) (stop : w.layerEnd.toNat < last)
    (hidden : w.hasHidden = true) (rest : Chain last (w.layerEnd.toNat + 1) ws) :
    Chain last next (w :: ws)

variable {workers ws ps path path' : List (WorkerEntry state)} {w : WorkerEntry state}
  {last next missing missing' : UInt32} {saw : Bool}

theorem Chain.ne_nil {last next : Nat} (h : Chain last next ps) : ps ≠ [] := by
  cases h <;> exact List.cons_ne_nil _ _

theorem Chain.start_le {last next : Nat} (h : Chain last next ps) :
    ∀ p ∈ ps, next ≤ p.layerStart.toNat := by
  induction h with
  | final start _ _ =>
    intro p hp
    cases List.mem_singleton.mp hp
    exact start.ge
  | @hop w _ _ start _ _ _ ih =>
    intro p hp
    have hw : w.layerStart.toNat ≤ w.layerEnd.toNat := w.range.1
    cases hp with
    | head => exact start.ge
    | tail _ hp =>
      have hle := ih p hp
      omega

/-- No worker is used twice. -/
theorem Chain.nodup {last next : Nat} (h : Chain last next ps) : ps.Nodup := by
  induction h with
  | final _ _ _ => exact List.nodup_singleton _
  | @hop w _ _ _ _ _ rest ih =>
    apply List.nodup_cons.mpr
    refine ⟨fun hm => ?_, ih⟩
    have hle := rest.start_le w hm
    have hw : w.layerStart.toNat ≤ w.layerEnd.toNat := w.range.1
    omega

theorem candidateOk_iff (w : WorkerEntry state) (last : UInt32) :
    distWorkerRouteCandidateOk w last = true ↔
      (w.layerEnd < last → w.hasHidden = true) ∧ (last ≤ w.layerEnd → Ends w) := by
  rw [distWorkerRouteCandidateOk, Ends]
  have hlt : w.layerEnd < last ↔ ¬last ≤ w.layerEnd := UInt32.not_le.symm
  by_cases hl : last ≤ w.layerEnd <;>
    cases w.hasOutput <;> cases w.hasHidden <;> cases state.localCanOutputHead <;>
    simp [hl, hlt]

/-- The head of a chain passes the check of the search. -/
theorem Chain.candidateOk (h : Chain last.toNat next.toNat (w :: ws)) :
    w.layerStart = next ∧ w.layerEnd ≤ last ∧ distWorkerRouteCandidateOk w last = true := by
  cases h with
  | final start stop ends =>
    have hl : w.layerEnd = last := UInt32.toNat_inj.mp stop
    refine ⟨UInt32.toNat_inj.mp start, hl ▸ UInt32.le_refl _, (candidateOk_iff w last).mpr ?_⟩
    exact ⟨fun hlt => absurd (hl ▸ hlt) (UInt32.lt_irrefl _), fun _ => ends⟩
  | hop start stop hidden rest =>
    have hl : w.layerEnd < last := stop
    refine ⟨UInt32.toNat_inj.mp start, UInt32.le_of_lt hl, (candidateOk_iff w last).mpr ?_⟩
    exact ⟨fun _ => hidden, fun hle => absurd hl (UInt32.not_lt.mpr hle)⟩

/-- A search that fails leaves the path as it found it; one that succeeds has added a chain of
workers to it. -/
theorem distRouteSearchFrom_sound (hlast : ∀ w ∈ workers, w.layerEnd ≤ last)
    (hsub : ∀ w ∈ ws, w ∈ workers) :
    (∀ path' m, distRouteSearchFrom workers last next saw path missing ws = (false, path', m) →
      path' = path) ∧
    ∀ path' m, distRouteSearchFrom workers last next saw path missing ws = (true, path', m) →
      ∃ ps, path' = path ++ ps ∧ Chain last.toNat next.toNat ps ∧ ∀ p ∈ ps, p ∈ workers := by
  induction next, saw, path, missing, ws using distRouteSearchFrom.induct workers last with
  | case1 next saw path missing =>
    rw [distRouteSearchFrom]
    exact ⟨fun _ _ h => (congrArg (·.2.1) h).symm, fun _ _ h => nomatch h⟩
  | case2 next saw path missing w rest hlt ih =>
    rw [distRouteSearchFrom, if_pos hlt]
    exact ih fun v hv => hsub v (List.mem_cons_of_mem _ hv)
  | case3 next saw path missing w rest hlt hgt =>
    rw [distRouteSearchFrom, if_neg hlt, dif_pos hgt]
    exact ⟨fun _ _ h => (congrArg (·.2.1) h).symm, fun _ _ h => nomatch h⟩
  | case4 next saw path missing w rest hlt hgt hc ih =>
    rw [distRouteSearchFrom, if_neg hlt, dif_neg hgt, if_pos hc]
    exact ih fun v hv => hsub v (List.mem_cons_of_mem _ hv)
  | case5 next saw path missing w rest hlt hgt hc hend =>
    have hstart : w.layerStart = next :=
      UInt32.le_antisymm (UInt32.not_lt.mp hgt) (UInt32.not_lt.mp hlt)
    have hok := (candidateOk_iff w last).mp (by simpa using hc)
    have hw : w ∈ workers := hsub w List.mem_cons_self
    rw [distRouteSearchFrom, if_neg hlt, dif_neg hgt, if_neg hc, if_pos hend]
    refine ⟨fun _ _ h => (nomatch h), fun _ _ h => ⟨[w], (congrArg (·.2.1) h).symm, ?_, ?_⟩⟩
    · exact .final (congrArg UInt32.toNat hstart)
        (congrArg UInt32.toNat (UInt32.le_antisymm (hlast w hw) hend)) (hok.2 hend)
    · intro p hp
      cases List.mem_singleton.mp hp
      exact hw
  | case6 next saw path missing w rest hlt hgt hc hend path₁ m₁ hchild ih =>
    have hstart : w.layerStart = next :=
      UInt32.le_antisymm (UInt32.not_lt.mp hgt) (UInt32.not_lt.mp hlt)
    have hok := (candidateOk_iff w last).mp (by simpa using hc)
    have hless : w.layerEnd < last := UInt32.not_le.mp hend
    obtain ⟨ps, hps, hchain, hmem⟩ := (ih fun _ h => h).2 _ _ hchild
    rw [w.toNat_layerEnd_add_one] at hchain
    rw [distRouteSearchFrom, if_neg hlt, dif_neg hgt, if_neg hc, if_neg hend, hchild]
    refine ⟨fun _ _ h => (nomatch h), fun _ _ h => ⟨w :: ps, ?_, ?_, ?_⟩⟩
    · have hpath := congrArg (·.2.1) h
      dsimp only at hpath
      rw [← hpath, List.append_cons]
      exact hps
    · exact .hop (congrArg UInt32.toNat hstart) hless (hok.1 hless) hchain
    · intro p hp
      cases hp with
      | head => exact hsub w List.mem_cons_self
      | tail _ hp => exact hmem p hp
  | case7 next saw path missing w rest hlt hgt hc hend path₁ m₁ hchild ihChild ih =>
    have hpath : path₁.dropLast = path := by
      rw [(ihChild fun _ h => h).1 _ _ hchild, List.dropLast_concat]
    rw [distRouteSearchFrom, if_neg hlt, dif_neg hgt, if_neg hc, if_neg hend, hchild]
    dsimp only
    rw [hpath] at ih ⊢
    exact ih fun v hv => hsub v (List.mem_cons_of_mem _ hv)

/-- A chain whose first worker is still to be tried is not missed. -/
theorem distRouteSearchFrom_complete (hsort : ws.Pairwise fun a b => a.layerStart ≤ b.layerStart)
    (hall : workers.Pairwise fun a b => a.layerStart ≤ b.layerStart)
    (hchain : Chain last.toNat next.toNat (w :: ps)) (hw : w ∈ ws)
    (hps : ∀ p ∈ ps, p ∈ workers) :
    (distRouteSearchFrom workers last next saw path missing ws).1 = true := by
  induction next, saw, path, missing, ws using distRouteSearchFrom.induct workers last
    generalizing w ps with
  | case1 => cases hw
  | case2 next saw path missing v rest hlt ih =>
    rw [distRouteSearchFrom, if_pos hlt]
    have hne : w ≠ v := by
      rintro rfl
      exact absurd hchain.candidateOk.1 (UInt32.ne_of_lt hlt)
    exact ih (List.pairwise_cons.mp hsort).2 hchain (List.mem_of_ne_of_mem hne hw) hps
  | case3 next saw path missing v rest hlt hgt =>
    have hstart := hchain.candidateOk.1
    have hle : v.layerStart ≤ w.layerStart := by
      cases hw with
      | head => exact UInt32.le_refl _
      | tail _ hw => exact (List.pairwise_cons.mp hsort).1 w hw
    exact absurd hgt (UInt32.not_lt.mpr (hstart ▸ hle))
  | case4 next saw path missing v rest hlt hgt hc ih =>
    rw [distRouteSearchFrom, if_neg hlt, dif_neg hgt, if_pos hc]
    have hne : w ≠ v := by
      rintro rfl
      rw [hchain.candidateOk.2.2] at hc
      cases hc
    exact ih (List.pairwise_cons.mp hsort).2 hchain (List.mem_of_ne_of_mem hne hw) hps
  | case5 next saw path missing v rest hlt hgt hc hend =>
    rw [distRouteSearchFrom, if_neg hlt, dif_neg hgt, if_neg hc, if_pos hend]
  | case6 next saw path missing v rest hlt hgt hc hend path₁ m₁ hchild ih =>
    rw [distRouteSearchFrom, if_neg hlt, dif_neg hgt, if_neg hc, if_neg hend, hchild]
  | case7 next saw path missing v rest hlt hgt hc hend path₁ m₁ hchild ihChild ih =>
    rw [distRouteSearchFrom, if_neg hlt, dif_neg hgt, if_neg hc, if_neg hend, hchild]
    have hne : w ≠ v := by
      rintro rfl
      cases hchain with
      | final _ stop _ => exact hend (UInt32.le_of_eq (UInt32.toNat_inj.mp stop).symm)
      | hop _ _ _ rest =>
        -- the child search would have found what follows this worker
        obtain ⟨u, us, rfl⟩ := List.exists_cons_of_ne_nil rest.ne_nil
        rw [← w.toNat_layerEnd_add_one] at rest
        have hfound := ihChild hall rest (hps u List.mem_cons_self)
          fun p hp => hps p (List.mem_cons_of_mem _ hp)
        rw [hchild] at hfound
        cases hfound
    exact ih (List.pairwise_cons.mp hsort).2 hchain (List.mem_of_ne_of_mem hne hw) hps

theorem distWorkerRouteCmp_le_trans (a b c : WorkerEntry state)
    (hab : distWorkerRouteCmp a b ≤ 0) (hbc : distWorkerRouteCmp b c ≤ 0) :
    distWorkerRouteCmp a c ≤ 0 := by
  rw [distWorkerRouteCmp] at hab hbc ⊢
  grind

theorem distWorkerRouteCmp_le_total (a b : WorkerEntry state) :
    distWorkerRouteCmp a b ≤ 0 ∨ distWorkerRouteCmp b a ≤ 0 := by
  rw [distWorkerRouteCmp, distWorkerRouteCmp]
  grind

theorem layerStart_le_of_cmp {a b : WorkerEntry state} (h : distWorkerRouteCmp a b ≤ 0) :
    a.layerStart ≤ b.layerStart := by
  rw [distWorkerRouteCmp] at h
  split at h
  · next hlt => exact UInt32.le_of_lt hlt
  · split at h
    · cases h
    · next hgt => exact UInt32.not_lt.mp hgt

theorem mem_sortWorkers : w ∈ sortWorkers ws ↔ w ∈ ws := List.mem_mergeSort

theorem sortWorkers_pairwise (ws : List (WorkerEntry state)) :
    (sortWorkers ws).Pairwise fun a b => a.layerStart ≤ b.layerStart := by
  have h : (sortWorkers ws).Pairwise fun a b => decide (distWorkerRouteCmp a b ≤ 0) = true :=
    List.pairwise_mergeSort
      (fun a b c hab hbc => decide_eq_true
        (distWorkerRouteCmp_le_trans a b c (of_decide_eq_true hab) (of_decide_eq_true hbc)))
      (fun a b => by simpa using distWorkerRouteCmp_le_total a b) ws
  exact h.imp fun hab => layerStart_le_of_cmp (of_decide_eq_true hab)

end Search

end Ds4.Dist
