import Mathlib.Data.List.FinRange
import Ds4.Lib.LinkedQueue
import Ds4.Lib.SlotSum

/-!
# The request scheduler

Client threads enqueue stack-owned jobs, `dispatch_jobs_locked` hands them to slots, one worker per
slot takes, runs and finishes them, and a client whose socket closed cancels its job. Everything
that happens under `s->mu` in one critical section is one step. What the scheduler reads of the
sessions and of the live tool states is a parameter of the step, since other locks protect it and it
may change between two scans of the queue.

`log` is a ghost field with one entry for each enqueue, hand-over and call of `job_complete`.
-/

namespace Ds4
open Linked Slots

/-- What the scheduler asks a slot about a job. -/
structure SlotView where
  /-- The job needs a live Responses tool state and the slot's contains all its calls. -/
  responsesBound : Bool
  anthropicBound : Bool
  visibleMatch : Bool
  livePos : Nat
  visionPrefixMatches : Bool
  common : Nat

abbrev View (n : Nat) (J : Type) := J → Fin n → SlotView

/-- Where the thread of `slot_worker_main` is; `generating j` is between the take and
`job_complete(j)`, `finishing` between that and the second critical section. -/
inductive Worker (J : Type)
  | waiting
  | generating (j : J)
  | finishing
  | exited
  deriving DecidableEq

structure Slot (J : Type) where
  assigned : Option J
  busy : Bool
  worker : Worker J

inductive Event (J : Type)
  | enqueued (j : J)
  | handed (j : J)
  | completedByWorker (j : J)
  | completedByCancel (j : J)
  deriving DecidableEq

structure Server (n : Nat) (J : Type) where
  queue : Queue J
  slots : Fin n → Slot J
  batchedMode : Bool
  stopping : Bool
  log : List (Event J)

variable {n : Nat} {J : Type}

/-- A server in batched mode before the first request. -/
def Server.init (n : Nat) (J : Type) : Server n J :=
  ⟨Queue.empty, fun _ => ⟨none, false, .waiting⟩, true, false, []⟩

/-! ## Dispatch -/

def intMin : Int := -2 ^ 31

def intMax : Int := 2 ^ 31 - 1

/-- `none` is the answer -1. -/
def jobRequiredSlotLocked (view : Fin n → SlotView) : Option (Fin n) :=
  (List.finRange n).find? fun i => (view i).responsesBound || (view i).anthropicBound

def jobSlotScore (view : SlotView) (slot : Slot J) (i : Fin n) (required : Option (Fin n)) : Int :=
  if slot.busy || slot.assigned.isSome then intMin
  else if required.isSome && required ≠ some i then intMin
  else if required = some i then intMax
  else if view.visibleMatch then view.livePos
  else if 0 < view.livePos && !view.visionPrefixMatches then -1
  else view.common

def betterSlot (score : Fin n → Int) (best : Option (Fin n) × Int) (i : Fin n) :
    Option (Fin n) × Int :=
  if score i > best.2 then (some i, score i) else best

/-- The loop over the slots: the first one with the highest score. -/
def bestSlot (view : Fin n → SlotView) (slots : Fin n → Slot J) : Option (Fin n) :=
  ((List.finRange n).foldl (betterSlot fun i =>
    jobSlotScore (view i) (slots i) i (jobRequiredSlotLocked view)) (none, intMin)).1

theorem foldl_betterSlot (score : Fin n → Int) (l : List (Fin n)) (b : Option (Fin n) × Int) :
    ((l.foldl (betterSlot score) b).1 = none → b.1 = none ∧ ∀ i ∈ l, score i ≤ b.2) ∧
    ∀ i, (l.foldl (betterSlot score) b).1 = some i → b.1 = some i ∨ b.2 < score i := by
  induction l generalizing b with
  | nil => exact ⟨fun h => ⟨h, fun _ h => nomatch h⟩, fun i h => .inl h⟩
  | cons k l ih =>
    rw [List.foldl_cons, betterSlot]
    split
    · next hk =>
      obtain ⟨h1, h2⟩ := ih (some k, score k)
      refine ⟨fun h => (nomatch (h1 h).1), fun i h => .inr ?_⟩
      rcases h2 i h with h | h
      · cases h; exact hk
      · exact lt_trans hk h
    · next hk =>
      obtain ⟨h1, h2⟩ := ih b
      refine ⟨fun h => ⟨(h1 h).1, ?_⟩, h2⟩
      rintro i (_ | ⟨_, hi⟩)
      · exact not_lt.1 hk
      · exact (h1 h).2 i hi

/-- A slot that is chosen is free. -/
theorem bestSlot_eq_some {view : Fin n → SlotView} {slots : Fin n → Slot J} {i : Fin n}
    (h : bestSlot view slots = some i) : (slots i).busy = false ∧ (slots i).assigned = none := by
  rcases (foldl_betterSlot _ _ _).2 i h with h | h
  · cases h
  · rw [jobSlotScore] at h
    split at h
    · exact absurd h (lt_irrefl _)
    · next hb => simpa using hb

/-- A free slot that is not excluded by the required one has a score above `INT_MIN`. -/
theorem intMin_lt_jobSlotScore (view : SlotView) {slot : Slot J} {i : Fin n}
    {required : Option (Fin n)} (hb : slot.busy = false) (ha : slot.assigned = none)
    (hr : required = none ∨ required = some i) :
    intMin < jobSlotScore view slot i required := by
  have hfree : ¬ (slot.busy || slot.assigned.isSome) = true := by simp [hb, ha]
  have hreq : ¬ (required.isSome && required ≠ some i) = true := by
    rcases hr with rfl | rfl <;> simp
  rw [jobSlotScore, if_neg hfree, if_neg hreq]
  repeat' split
  all_goals simp only [intMin, intMax]; omega

/-- With every slot free, every job has a slot. -/
theorem bestSlot_isSome {view : Fin n → SlotView} {slots : Fin n → Slot J} (hn : 0 < n)
    (h : ∀ i, (slots i).busy = false ∧ (slots i).assigned = none) :
    bestSlot view slots ≠ none := by
  intro hnone
  have hle := ((foldl_betterSlot _ _ _).1 hnone).2
  obtain ⟨i, hi⟩ : ∃ i, jobRequiredSlotLocked view = none ∨ jobRequiredSlotLocked view = some i := by
    cases jobRequiredSlotLocked view with
    | none => exact ⟨⟨0, hn⟩, .inl rfl⟩
    | some i => exact ⟨i, .inr rfl⟩
  have := hle i (List.mem_finRange i)
  have := intMin_lt_jobSlotScore (view i) (h i).1 (h i).2 hi
  dsimp only at *
  omega

/-- The loop over the queue. It visits fewer jobs than were ever enqueued, see
`Inv.length_lt`. -/
def chooseJob (view : View n J) (s : Server n J) : Option (J × Option J × Fin n) :=
  Queue.scan s.queue.next (fun j => bestSlot (view j) s.slots) (s.log.length + 1) none s.queue.head

theorem chooseJob_free {view : View n J} {s : Server n J} (h : chooseJob view s = some (j, prev, i)) :
    (s.slots i).busy = false ∧ (s.slots i).assigned = none :=
  bestSlot_eq_some (Queue.scan_some (f := fun j => bestSlot (view j) s.slots) h)

variable [DecidableEq J]

def assignJob (s : Server n J) (j : J) (prev : Option J) (i : Fin n) : Server n J :=
  { s with
    queue := s.queue.unlink prev j
    slots := Function.update s.slots i { s.slots i with assigned := some j, busy := true } }

def Slot.free (slot : Slot J) : Nat := if slot.busy then 0 else 1

def freeSlots (s : Server n J) : Nat := ∑ i, (s.slots i).free

theorem freeSlots_assignJob {s : Server n J} (h : (s.slots i).busy = false) :
    freeSlots (assignJob s j prev i) < freeSlots s := by
  have hu := sum_update Slot.free s.slots i { s.slots i with assigned := some j, busy := true }
  have h1 : (s.slots i).free = 1 := by simp [Slot.free, h]
  have h0 : Slot.free { s.slots i with assigned := some j, busy := true } = 0 := rfl
  rw [h1, h0] at hu
  exact Nat.lt_of_succ_le (Nat.le_of_eq hu)

/-- `for (;;)`: each round takes one job out of the queue and one free slot. -/
def dispatchLoop (views : Nat → View n J) (k : Nat) (s : Server n J) : Server n J :=
  match _h : chooseJob (views k) s with
  | none => s
  | some (j, prev, i) => dispatchLoop views (k + 1) (assignJob s j prev i)
termination_by freeSlots s
decreasing_by exact freeSlots_assignJob (chooseJob_free ‹_›).1

def dispatchJobsLocked (views : Nat → View n J) (s : Server n J) : Server n J :=
  if s.batchedMode then dispatchLoop views 0 s else s

/-! ## Steps -/

/-- `none` when the server is stopping and the job is refused. -/
def enqueue (views : Nat → View n J) (s : Server n J) (j : J) : Option (Server n J) :=
  if s.stopping then none
  else
    let s := { s with queue := s.queue.push j, log := .enqueued j :: s.log }
    some (if s.batchedMode then dispatchJobsLocked views s else s)

def setSlot (s : Server n J) (i : Fin n) (slot : Slot J) : Server n J :=
  { s with slots := Function.update s.slots i slot }

/-- First critical section of `slot_worker_main`; `none` while the worker waits. -/
def slotWorkerTake (s : Server n J) (i : Fin n) : Option (Server n J) :=
  if (s.slots i).worker = .waiting then
    match (s.slots i).assigned with
    | some j => some { setSlot s i { s.slots i with assigned := none, worker := .generating j } with
        log := .handed j :: s.log }
    | none => if s.stopping && s.queue.head.isNone then
        some (setSlot s i { s.slots i with worker := .exited }) else none
  else none

/-- `generate_job` has returned: `job_complete(j)`. -/
def slotWorkerComplete (s : Server n J) (i : Fin n) : Option (Server n J) :=
  match (s.slots i).worker with
  | .generating j => some { setSlot s i { s.slots i with worker := .finishing } with
      log := .completedByWorker j :: s.log }
  | _ => none

/-- Second critical section of `slot_worker_main`. -/
def slotWorkerFinish (views : Nat → View n J) (s : Server n J) (i : Fin n) : Option (Server n J) :=
  if (s.slots i).worker = .finishing then
    some (dispatchJobsLocked views
      (setSlot s i { s.slots i with busy := false, worker := .waiting }))
  else none

/-- The detached job is completed by the cancelling thread. A job that a worker owns is only marked,
which the scheduler does not see. -/
def serverCancelJob (views : Nat → View n J) (s : Server n J) (j : J) : Server n J :=
  match Queue.scan s.queue.next (fun it => if it = j then some () else none) (s.log.length + 1) none
      s.queue.head with
  | some (it, prev, _) =>
    { s with queue := s.queue.unlink prev it, log := .completedByCancel j :: s.log }
  | none =>
    if s.batchedMode then
      match (List.finRange n).find? fun i => (s.slots i).assigned = some j with
      | some i =>
        -- `job_complete(j)` follows the dispatch, which writes nothing to the log
        dispatchJobsLocked views
          { setSlot s i { s.slots i with assigned := none, busy := false } with
            log := .completedByCancel j :: s.log }
      | none => s
    else s

def serverRequestWorkerStop (views : Nat → View n J) (s : Server n J) : Server n J :=
  dispatchJobsLocked views { s with stopping := true }

inductive Op (n : Nat) (J : Type)
  | enqueue (views : Nat → View n J) (j : J)
  | take (i : Fin n)
  | complete (i : Fin n)
  | finish (views : Nat → View n J) (i : Fin n)
  | cancel (views : Nat → View n J) (j : J)
  | stop (views : Nat → View n J)

/-- One step of any thread; `none` when it is not enabled. A job object is enqueued once. -/
def step (s : Server n J) : Op n J → Option (Server n J)
  | .enqueue views j => if .enqueued j ∈ s.log then none else some ((enqueue views s j).getD s)
  | .take i => slotWorkerTake s i
  | .complete i => slotWorkerComplete s i
  | .finish views i => slotWorkerFinish views s i
  | .cancel views j => some (serverCancelJob views s j)
  | .stop views => some (serverRequestWorkerStop views s)

/-- The states of all interleavings. -/
inductive Reachable : Server n J → Prop
  | init : Reachable (Server.init n J)
  | step : Reachable s → step s op = some s' → Reachable s'

/-! ## The invariant -/

def Worker.active : Worker J → Bool
  | .generating _ | .finishing => true
  | .waiting | .exited => false

/-- How often a slot holds a job for its worker. -/
def Slot.assignedTo (slot : Slot J) (j : J) : Nat := if slot.assigned = some j then 1 else 0

/-- How often the worker of a slot runs a job. -/
def Slot.runs (slot : Slot J) (j : J) : Nat := if slot.worker = .generating j then 1 else 0

def assignedOn (slots : Fin n → Slot J) (j : J) : Nat := ∑ i, (slots i).assignedTo j

def runningOn (slots : Fin n → Slot J) (j : J) : Nat := ∑ i, (slots i).runs j

/-- Calls of `job_complete` for a job. -/
def completions (log : List (Event J)) (j : J) : Nat :=
  log.count (.completedByWorker j) + log.count (.completedByCancel j)

theorem assignedOn_update (slots : Fin n → Slot J) (i : Fin n) (v : Slot J) (j : J) :
    assignedOn (Function.update slots i v) j + (slots i).assignedTo j =
      assignedOn slots j + v.assignedTo j := sum_update (·.assignedTo j) slots i v

theorem runningOn_update (slots : Fin n → Slot J) (i : Fin n) (v : Slot J) (j : J) :
    runningOn (Function.update slots i v) j + (slots i).runs j = runningOn slots j + v.runs j :=
  sum_update (·.runs j) slots i v

structure Slot.WellFormed (slot : Slot J) : Prop where
  busy : slot.busy = (slot.assigned.isSome || slot.worker.active)
  waiting : slot.assigned ≠ none → slot.worker = .waiting

/-- The state between two critical sections, `q` being the queue. -/
structure Inv (s : Server n J) (q : List J) : Prop where
  repr : s.queue.Repr q
  batched : s.batchedMode = true
  length_le : q.length ≤ s.log.length
  fresh : ∀ j, s.log.count (.enqueued j) ≤ 1
  place : ∀ j, q.count j + assignedOn s.slots j + runningOn s.slots j + completions s.log j =
    s.log.count (.enqueued j)
  handed : ∀ j, s.log.count (.handed j) =
    runningOn s.slots j + s.log.count (.completedByWorker j)
  slot : ∀ i, (s.slots i).WellFormed
  exited : ∀ i, (s.slots i).worker = .exited → s.stopping = true ∧ q = []

theorem Inv.init : Inv (Server.init n J) [] where
  repr := .empty
  batched := rfl
  length_le := Nat.le_refl _
  fresh _ := Nat.zero_le _
  place j := by simp [Server.init, assignedOn, runningOn, completions, Slot.assignedTo, Slot.runs]
  handed j := by simp [Server.init, runningOn, Slot.runs]
  slot i := ⟨rfl, fun h => absurd rfl h⟩
  exited i h := nomatch h

/-- What a step that touches one slot has to show. -/
theorem Inv.update {s s' : Server n J} {q q' : List J} {i : Fin n} {v : Slot J} (h : Inv s q)
    (hslots : s'.slots = Function.update s.slots i v) (hrepr : s'.queue.Repr q')
    (hbatched : s'.batchedMode = s.batchedMode) (hlen : q'.length ≤ s'.log.length)
    (henq : ∀ j, s'.log.count (.enqueued j) = s.log.count (.enqueued j))
    (hplace : ∀ j, q'.count j + v.assignedTo j + v.runs j + completions s'.log j =
      q.count j + (s.slots i).assignedTo j + (s.slots i).runs j + completions s.log j)
    (hhanded : ∀ j, s'.log.count (.handed j) + (s.slots i).runs j +
        s.log.count (.completedByWorker j) =
      s.log.count (.handed j) + v.runs j + s'.log.count (.completedByWorker j))
    (hwf : v.WellFormed) (hexit : v.worker = .exited → s'.stopping = true ∧ q' = [])
    (hstop : s.stopping = true → s'.stopping = true) (hq : q = [] → q' = []) : Inv s' q' := by
  constructor
  · exact hrepr
  · rw [hbatched, h.batched]
  · exact hlen
  · intro j
    rw [henq]
    exact h.fresh j
  · intro j
    have h1 := h.place j
    have h2 := hplace j
    have h3 := assignedOn_update s.slots i v j
    have h4 := runningOn_update s.slots i v j
    rw [hslots, henq]
    omega
  · intro j
    have h1 := h.handed j
    have h2 := hhanded j
    have h4 := runningOn_update s.slots i v j
    rw [hslots]
    omega
  · intro k
    rw [hslots, Function.update_apply]
    split
    · exact hwf
    · exact h.slot k
  · intro k hk
    rw [hslots, Function.update_apply] at hk
    split at hk
    · exact hexit hk
    · exact ⟨hstop (h.exited k hk).1, hq (h.exited k hk).2⟩

omit [DecidableEq J] in
theorem Slot.WellFormed.of_free {slot : Slot J} (h : slot.WellFormed) (hb : slot.busy = false) :
    slot.assigned = none ∧ slot.worker.active = false := by
  have := h.busy
  rw [hb, eq_comm, Bool.or_eq_false_iff] at this
  exact ⟨by simpa using this.1, this.2⟩

theorem Inv.assign {s : Server n J} (h : Inv s (a ++ j :: b)) (hb : (s.slots i).busy = false) :
    Inv (assignJob s j a.getLast? i) (a ++ b) := by
  obtain ⟨ha, hw⟩ := (h.slot i).of_free hb
  have hwait : (s.slots i).worker = .waiting := by
    cases hc : (s.slots i).worker with
    | waiting => rfl
    | exited => exact absurd (h.exited i hc).2 (by simp)
    | generating _ => rw [hc] at hw; cases hw
    | finishing => rw [hc] at hw; cases hw
  refine h.update (i := i) rfl h.repr.unlink rfl ?_ (fun _ => rfl) (fun k => ?_) (fun k => rfl)
    ⟨rfl, fun _ => hwait⟩ (fun hx => ?_) id (fun hx => by simp at hx)
  · refine Nat.le_trans ?_ h.length_le
    simp only [List.length_append, List.length_cons]
    omega
  · simp only [ha, List.count_append, List.count_cons, beq_iff_eq, Slot.assignedTo, Slot.runs,
      Option.some.injEq, assignJob, reduceCtorEq, ↓reduceIte]
    omega
  · change (s.slots i).worker = _ at hx
    rw [hwait] at hx
    cases hx

/-- The scan of the queue stops at the first job that can run. -/
theorem Inv.chooseJob_eq {s : Server n J} (h : Inv s q) (view : View n J) :
    (chooseJob view s = none ∧ ∀ j ∈ q, bestSlot (view j) s.slots = none) ∨
    ∃ a j b i, q = a ++ j :: b ∧ chooseJob view s = some (j, a.getLast?, i) := by
  rcases h.repr.chain.scan_eq (fun j => bestSlot (view j) s.slots)
    (Nat.lt_succ_of_le h.length_le) none with h1 | ⟨a, j, b, i, h1, -, -, h2⟩
  · exact .inl h1
  · refine .inr ⟨a, j, b, i, h1, ?_⟩
    rw [Option.or_none] at h2
    exact h2

/-- Some slot is busy when a job waits. -/
def Saturated (s : Server n J) (q : List J) : Prop := q ≠ [] → ∃ i, (s.slots i).busy = true

theorem Inv.dispatchLoop {s : Server n J} (hn : 0 < n) (views : Nat → View n J) (k : Nat)
    (h : Inv s q) : ∃ q', Inv (dispatchLoop views k s) q' ∧ Saturated (dispatchLoop views k s) q' := by
  fun_induction Ds4.dispatchLoop views k s generalizing q with
  | case1 k s hc =>
    refine ⟨q, h, fun hq => ?_⟩
    rcases h.chooseJob_eq (views k) with ⟨-, hnone⟩ | ⟨a, j, b, i, -, hs⟩
    · by_contra hfree
      simp only [not_exists, Bool.not_eq_true] at hfree
      obtain ⟨j, hj⟩ := List.exists_mem_of_ne_nil q hq
      exact bestSlot_isSome hn (fun i => ⟨hfree i, ((h.slot i).of_free (hfree i)).1⟩) (hnone j hj)
    · rw [hc] at hs
      cases hs
  | case2 k s j prev i hc ih =>
    rcases h.chooseJob_eq (views k) with ⟨hnone, -⟩ | ⟨a, j', b, i', rfl, hs⟩
    · rw [hc] at hnone
      cases hnone
    · rw [hc] at hs
      cases hs
      exact ih (h.assign (chooseJob_free hc).1)

theorem Inv.dispatch {s : Server n J} (hn : 0 < n) (views : Nat → View n J) (h : Inv s q) :
    ∃ q', Inv (dispatchJobsLocked views s) q' ∧ Saturated (dispatchJobsLocked views s) q' := by
  rw [dispatchJobsLocked, if_pos h.batched]
  exact h.dispatchLoop hn views 0

/-! ## Every step keeps the invariant -/

/-- The invariant with a busy slot whenever the queue is not empty. -/
def Ok (s : Server n J) : Prop := ∃ q, Inv s q ∧ Saturated s q

theorem Inv.enqueue {s : Server n J} (hn : 0 < n) (h : Inv s q) (hs : s.stopping = false)
    (hj : .enqueued j ∉ s.log) : Ok ((enqueue views s j).getD s) := by
  have h0 := h.place j
  rw [List.count_eq_zero_of_not_mem hj] at h0
  have hjq : j ∉ q := List.count_eq_zero.1 (by omega)
  simp only [Ds4.enqueue, hs, Bool.false_eq_true, ↓reduceIte, Option.getD_some, h.batched]
  refine Inv.dispatch (q := q ++ [j]) hn views ?_
  constructor
  · exact h.repr.push hjq
  · rfl
  · simpa using h.length_le
  · intro k
    have := h.fresh k
    simp only [List.count_cons, beq_iff_eq, Event.enqueued.injEq]
    split
    · next e => subst e; rw [List.count_eq_zero_of_not_mem hj]
    · omega
  · intro k
    have := h.place k
    simp only [List.count_cons, List.count_append, List.count_nil, completions, beq_iff_eq,
      Event.enqueued.injEq, reduceCtorEq, ↓reduceIte] at this ⊢
    omega
  · intro k
    have := h.handed k
    simp only [List.count_cons, beq_iff_eq, reduceCtorEq, ↓reduceIte]
    omega
  · exact h.slot
  · intro i hi
    rw [(h.exited i hi).1] at hs
    cases hs

theorem Inv.take {s s' : Server n J} (h : Inv s q)
    (ht : slotWorkerTake s i = some s') : Ok s' := by
  rw [slotWorkerTake] at ht
  split at ht
  · next hw =>
    refine ⟨q, ?_⟩
    cases ha : (s.slots i).assigned with
    | some j =>
      rw [ha] at ht
      cases ht
      have hb : (s.slots i).busy = true := by rw [(h.slot i).busy, ha]; rfl
      refine ⟨h.update (i := i) rfl h.repr rfl (Nat.le_succ_of_le h.length_le) (fun k => ?_)
        (fun k => ?_) (fun k => ?_) ⟨by rw [hb]; rfl, fun hx => absurd rfl hx⟩
        (fun hx => nomatch hx) id id, fun hq => ?_⟩
      · simp
      · simp only [ha, hw, Slot.assignedTo, Slot.runs, completions, List.count_cons, beq_iff_eq,
          Option.some.injEq, Worker.generating.injEq, reduceCtorEq, ↓reduceIte]
        omega
      · simp only [hw, Slot.runs, List.count_cons, beq_iff_eq, Event.handed.injEq,
          Worker.generating.injEq, reduceCtorEq, ↓reduceIte]
        omega
      · exact ⟨i, by simp [setSlot, hb]⟩
    | none =>
      rw [ha] at ht
      dsimp only at ht
      split at ht
      · next hst =>
        cases ht
        rw [Bool.and_eq_true, Option.isNone_iff_eq_none, h.repr.head_eq_none_iff] at hst
        obtain ⟨hst, rfl⟩ := hst
        have hb : (s.slots i).busy = false := by rw [(h.slot i).busy, ha, hw]; rfl
        refine ⟨h.update (i := i) rfl h.repr rfl h.length_le (fun k => rfl) (fun k => ?_)
          (fun k => ?_) ⟨by rw [hb, ha]; rfl, fun hx => absurd ha hx⟩ (fun _ => ⟨hst, rfl⟩) id id,
          fun hq => absurd rfl hq⟩
        · simp [Slot.assignedTo, Slot.runs, hw, setSlot]
        · simp [Slot.runs, hw, setSlot]
      · cases ht
  · cases ht

theorem Inv.complete {s s' : Server n J} (h : Inv s q)
    (ht : slotWorkerComplete s i = some s') : Ok s' := by
  rw [slotWorkerComplete] at ht
  split at ht
  · next j hw =>
    cases ht
    have ha : (s.slots i).assigned = none := by
      by_contra hx
      rw [(h.slot i).waiting hx] at hw
      cases hw
    have hb : (s.slots i).busy = true := by rw [(h.slot i).busy, ha, hw]; rfl
    refine ⟨q, h.update (i := i) rfl h.repr rfl (Nat.le_succ_of_le h.length_le) (fun k => ?_)
      (fun k => ?_) (fun k => ?_) ⟨by rw [hb, ha]; rfl, fun hx => absurd ha hx⟩
      (fun hx => nomatch hx) id id, fun hq => ?_⟩
    · simp
    · simp only [ha, hw, Slot.assignedTo, Slot.runs, completions, List.count_cons, beq_iff_eq,
        Event.completedByWorker.injEq, Worker.generating.injEq, reduceCtorEq, ↓reduceIte]
      omega
    · simp only [hw, Slot.runs, List.count_cons, beq_iff_eq, Event.completedByWorker.injEq,
        Worker.generating.injEq, reduceCtorEq, ↓reduceIte]
      omega
    · exact ⟨i, by simp [setSlot, hb]⟩
  · cases ht

theorem Inv.finish {s s' : Server n J} (hn : 0 < n) (h : Inv s q)
    (ht : slotWorkerFinish views s i = some s') : Ok s' := by
  rw [slotWorkerFinish] at ht
  split at ht
  · next hw =>
    cases ht
    have ha : (s.slots i).assigned = none := by
      by_contra hx
      rw [(h.slot i).waiting hx] at hw
      cases hw
    refine Inv.dispatch (q := q) hn views ?_
    refine h.update (i := i) rfl h.repr rfl h.length_le (fun k => rfl) (fun k => ?_) (fun k => ?_)
      ⟨by rw [ha]; rfl, fun hx => absurd ha hx⟩ (fun hx => nomatch hx) id id
    · simp [Slot.assignedTo, Slot.runs, hw, setSlot]
    · simp [Slot.runs, hw, setSlot]
  · cases ht

theorem Inv.stop {s : Server n J} (hn : 0 < n) (h : Inv s q) :
    Ok (serverRequestWorkerStop views s) := by
  refine Inv.dispatch (q := q) hn views ?_
  exact ⟨h.repr, h.batched, h.length_le, h.fresh, h.place, h.handed, h.slot,
    fun i hi => ⟨rfl, (h.exited i hi).2⟩⟩

theorem Inv.cancel {s : Server n J} (hn : 0 < n) (h : Inv s q) (hs : Saturated s q) :
    Ok (serverCancelJob views s j) := by
  rw [serverCancelJob]
  rcases h.repr.chain.scan_eq (fun it => if it = j then some () else none)
    (Nat.lt_succ_of_le h.length_le) none with ⟨hscan, -⟩ | ⟨a, it, b, _, rfl, -, hit, hscan⟩
  · rw [hscan]
    dsimp only
    rw [if_pos h.batched]
    cases hf : (List.finRange n).find? fun i => (s.slots i).assigned = some j with
    | none => exact ⟨q, h, hs⟩
    | some i =>
      have ha : (s.slots i).assigned = some j := by simpa using List.find?_some hf
      have hw := (h.slot i).waiting (by simp [ha])
      refine Inv.dispatch (q := q) hn views ?_
      refine h.update (i := i) rfl h.repr rfl (Nat.le_succ_of_le h.length_le) (fun k => ?_)
        (fun k => ?_) (fun k => ?_) ⟨by rw [hw]; rfl, fun hx => absurd rfl hx⟩ (fun hx => ?_) id id
      · simp
      · simp only [ha, Slot.assignedTo, Slot.runs, completions, List.count_cons, beq_iff_eq,
          Option.some.injEq, Event.completedByCancel.injEq, reduceCtorEq, ↓reduceIte]
        omega
      · simp [Slot.runs]
      · change (s.slots i).worker = _ at hx
        rw [hw] at hx
        cases hx
  · obtain rfl : it = j := by
      split at hit
      · assumption
      · cases hit
    rw [hscan, Option.or_none]
    refine ⟨a ++ b, ?_, fun _ => hs (by simp)⟩
    constructor
    · exact h.repr.unlink
    · exact h.batched
    · have := h.length_le
      simp only [List.length_append, List.length_cons] at this ⊢
      omega
    · intro k
      simpa using h.fresh k
    · intro k
      have := h.place k
      simp only [List.count_append, List.count_cons, completions, beq_iff_eq, reduceCtorEq,
        Event.completedByCancel.injEq, ↓reduceIte] at this ⊢
      omega
    · intro k
      simpa using h.handed k
    · exact h.slot
    · intro i hi
      exact absurd (h.exited i hi).2 (by simp)

theorem Ok.step {s s' : Server n J} (hn : 0 < n) (h : Ok s) (hs : step s op = some s') : Ok s' := by
  obtain ⟨q, hi, hsat⟩ := h
  cases op with
  | enqueue views j =>
    rw [Ds4.step] at hs
    split at hs
    · cases hs
    · next hj =>
      cases hs
      cases hst : s.stopping with
      | false => exact hi.enqueue hn hst hj
      | true =>
        rw [enqueue, hst]
        exact ⟨q, hi, hsat⟩
  | take i => exact hi.take hs
  | complete i => exact hi.complete hs
  | finish views i => exact hi.finish hn hs
  | cancel views j => cases hs; exact hi.cancel hn hsat
  | stop views => cases hs; exact hi.stop hn

theorem Reachable.ok {s : Server n J} (hn : 0 < n) (h : Reachable s) : Ok s := by
  induction h with
  | init => exact ⟨[], .init, fun h => absurd rfl h⟩
  | step _ hs ih => exact ih.step hn hs

/-! ## Main results -/

/-- The steps of the slot workers, which no other thread has to enable. -/
def Op.isWorker : Op n J → Bool
  | .take _ | .complete _ | .finish _ _ => true
  | .enqueue _ _ | .cancel _ _ | .stop _ => false

/-- The promises of the scheduler in one state; `q` is the queue. -/
structure Safe (s : Server n J) (q : List J) : Prop where
  queue : s.queue.Repr q
  tail : s.queue.tail = q.getLast? ∧ (s.queue.tail = none ↔ q = [])
  /-- An enqueued job is in the queue once, assigned to one slot, running on one slot or
  completed. -/
  place : ∀ j, .enqueued j ∈ s.log →
    q.count j + assignedOn s.slots j + runningOn s.slots j + completions s.log j = 1
  /-- Nothing else is. -/
  stray : ∀ j, .enqueued j ∉ s.log →
    q.count j + assignedOn s.slots j + runningOn s.slots j + completions s.log j = 0
  handed : ∀ j, s.log.count (.handed j) ≤ 1
  completed : ∀ j, completions s.log j ≤ 1
  slot : ∀ i, (s.slots i).assigned = none ∨ ∀ j, (s.slots i).worker ≠ .generating j
  busy : q ≠ [] → ∃ i, (s.slots i).busy = true
  /-- When the workers have nothing left to do, every job has been completed. -/
  drained : (∀ op : Op n J, op.isWorker = true → step s op = none) →
    ∀ j, .enqueued j ∈ s.log → completions s.log j = 1

theorem Inv.idle {s : Server n J} (h : Inv s q)
    (hd : ∀ op : Op n J, op.isWorker = true → step s op = none) (i : Fin n) :
    (s.slots i).assigned = none ∧ (s.slots i).worker.active = false := by
  have ha : (s.slots i).assigned = none := by
    cases hc : (s.slots i).assigned with
    | none => rfl
    | some j =>
      have := hd (.take i) rfl
      simp [step, slotWorkerTake, (h.slot i).waiting (by simp [hc]), hc] at this
  refine ⟨ha, ?_⟩
  cases hc : (s.slots i).worker with
  | waiting => rfl
  | exited => rfl
  | generating j =>
    have := hd (.complete i) rfl
    simp [step, slotWorkerComplete, hc] at this
  | finishing =>
    have := hd (.finish (fun _ _ _ => ⟨false, false, false, 0, false, 0⟩) i) rfl
    simp [step, slotWorkerFinish, hc] at this

theorem Inv.enqueued_count {s : Server n J} (h : Inv s q) (hj : .enqueued j ∈ s.log) :
    s.log.count (.enqueued j) = 1 := by
  have := List.count_pos_iff.2 hj
  have := h.fresh j
  omega

/-- With nothing left for the workers, no job is assigned, running or queued. -/
theorem Inv.drained {s : Server n J} (h : Inv s q) (hs : Saturated s q)
    (hd : ∀ op : Op n J, op.isWorker = true → step s op = none) (hj : .enqueued j ∈ s.log) :
    completions s.log j = 1 := by
  have hidle := h.idle hd
  have hq : q = [] := by
    by_contra hq
    obtain ⟨i, hi⟩ := hs hq
    rw [(h.slot i).busy, (hidle i).1, (hidle i).2] at hi
    cases hi
  have ha : assignedOn s.slots j = 0 := by simp [assignedOn, Slot.assignedTo, fun i => (hidle i).1]
  have hr : runningOn s.slots j = 0 := by
    refine Finset.sum_eq_zero fun i _ => ?_
    rw [Slot.runs, if_neg]
    intro e
    have := (hidle i).2
    rw [e] at this
    cases this
  have := h.place j
  rw [hq, List.count_nil, ha, hr, h.enqueued_count hj] at this
  omega

/-- Every job runs or is detached exactly once, in every interleaving. -/
theorem scheduler_safe (n : Nat) (J : Type) [DecidableEq J] (s : Server n J) (hn : 0 < n)
    (h : Reachable s) : ∃ q, Safe s q := by
  obtain ⟨q, hi, hs⟩ := h.ok hn
  refine ⟨q, hi.repr, ⟨hi.repr.tail, ?_⟩, fun j hj => ?_, fun j hj => ?_, fun j => ?_, fun j => ?_,
    fun i => ?_, hs, fun hd j hj => hi.drained hs hd hj⟩
  · rw [hi.repr.tail, List.getLast?_eq_none_iff]
  · rw [hi.place, hi.enqueued_count hj]
  · rw [hi.place, List.count_eq_zero_of_not_mem hj]
  · have h1 := hi.handed j
    have h2 := hi.place j
    have h3 := hi.fresh j
    rw [completions] at h2
    omega
  · have h2 := hi.place j
    have h3 := hi.fresh j
    omega
  · by_cases ha : (s.slots i).assigned = none
    · exact .inl ha
    · refine .inr fun j e => ?_
      rw [(hi.slot i).waiting ha] at e
      cases e

/-- One slot, one request. -/
theorem scheduler_safe_one : ∃ s : Server 1 Nat, Reachable s ∧ ∃ q, Safe s q :=
  let views : Nat → View 1 Nat := fun _ _ _ => ⟨false, false, false, 0, true, 0⟩
  have h : Reachable _ := .step .init (rfl : step (Server.init 1 Nat) (.enqueue views 7) = some _)
  ⟨_, h, scheduler_safe 1 Nat _ (by decide) h⟩

end Ds4
