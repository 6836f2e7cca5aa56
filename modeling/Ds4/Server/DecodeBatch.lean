import Mathlib.Algebra.Order.BigOperators.Group.Finset
import Mathlib.Data.List.FinRange
import Mathlib.Logic.Relation
import Ds4.Lib.CString
import Ds4.Lib.SlotSum

/-!
# The batched decode coordinator

Slot threads submit one token at a time (`server_eval_token`) and wait, one decode worker gathers
the submitted tokens into batches, and prefills of single slots take turns with the batches. What
happens under `s->model_mu` in one critical section is one step; a thread that waits on the
condition variable may wake up at any time. The batch itself runs between two steps of the worker.

`log` is a ghost field: submissions, batches with their items and return codes, withdrawals and
what `server_eval_token` returned.
-/

namespace Ds4
open C Slots

def ds4SessionSyncInterrupted : Int := 2

/-- Where the thread of a slot is. -/
inductive SlotThread
  | idle
  | prefillWaiting
  | prefilling
  | evalWaiting
  deriving DecidableEq, Repr

/-- `cancelled` is what `slot_job_cancelled` answers. -/
structure DecodeSlot where
  prefillWaiting : Bool
  decodePending : Bool
  decodeInFlight : Bool
  decodeDone : Bool
  decodeToken : Int
  decodeRc : Int
  decodeErr : Bytes
  cancelled : Bool
  thread : SlotThread
  deriving DecidableEq, Repr

/-- `ready` is the worker between its first wait and the gathering, where it waits for more tokens
and for the model; the waits in between end by time and change nothing. -/
inductive DecodeWorker (n : Nat)
  | waiting
  | ready
  | running (items : List (Fin n × Int))
  | exited
  deriving DecidableEq, Repr

inductive DecodeEvent (n : Nat)
  | submitted (i : Fin n) (token : Int)
  | batchStarted (items : List (Fin n × Int))
  | batchReturned (items : List (Fin n × Int)) (rc : Int)
  | withdrawn (i : Fin n)
  | returned (i : Fin n) (stop : Bool) (rc : Int) (err : Bytes)
  | refused (i : Fin n) (rc : Int) (err : Bytes)
  deriving DecidableEq, Repr

structure DecodeServer (n : Nat) where
  slots : Fin n → DecodeSlot
  modelBusy : Bool
  modelStopping : Bool
  decodePending : Int
  lastPrefillSlot : Nat
  stopRequested : Bool
  worker : DecodeWorker n
  log : List (DecodeEvent n)

variable {n : Nat}

def DecodeSlot.init : DecodeSlot := ⟨false, false, false, false, 0, 0, [], false, .idle⟩

def DecodeServer.init (n : Nat) : DecodeServer n :=
  ⟨fun _ => .init, false, false, 0, n - 1, false, .waiting, []⟩

/-- One slot changes. -/
def DecodeServer.set (st : DecodeServer n) (i : Fin n) (s : DecodeSlot) : DecodeServer n :=
  { st with slots := Function.update st.slots i s }

/-! ## Prefill -/

/-- The first waiting slot after the one that was served last; `none` is the answer -1. -/
def serverNextPrefillSlotLocked (st : DecodeServer n) : Option Nat :=
  ((List.range' 1 n).map fun k => (st.lastPrefillSlot + k) % n).find? fun id =>
    if h : id < n then (st.slots ⟨id, h⟩).prefillWaiting else false

/-- The wait loop of `server_prefill_enter` and what follows it. -/
def prefillCheck (st : DecodeServer n) (i : Fin n) : DecodeServer n :=
  let s := st.slots i
  if st.stopRequested || s.cancelled then
    st.set i { s with prefillWaiting := false, thread := .idle }
  else if st.modelBusy || decide (0 < st.decodePending) ||
      serverNextPrefillSlotLocked st != some i.val then
    st.set i { s with thread := .prefillWaiting }
  else
    { st.set i { s with prefillWaiting := false, thread := .prefilling } with
      lastPrefillSlot := i, modelBusy := true }

def serverPrefillEnter (st : DecodeServer n) (i : Fin n) : DecodeServer n :=
  prefillCheck (st.set i { st.slots i with prefillWaiting := true }) i

def serverPrefillLeave (st : DecodeServer n) (i : Fin n) : DecodeServer n :=
  { st.set i { st.slots i with thread := .idle } with modelBusy := false }

/-! ## Decode -/

/-- `none` is the answer false. -/
def serverCancelPendingDecodeLocked (st : DecodeServer n) (i : Fin n) : Option (DecodeServer n) :=
  let s := st.slots i
  if !s.decodePending || s.decodeInFlight then none
  else some { st.set i { s with
      decodePending := false, decodeRc := ds4SessionSyncInterrupted,
      decodeErr := lit "client disconnected", decodeDone := true } with
    decodePending := st.decodePending - 1
    log := st.log ++ [.withdrawn i] }

/-- A success after a requested shutdown is reported as interrupted. -/
def evalReport (stop : Bool) (rc : Int) : Int :=
  if stop && rc == 0 then ds4SessionSyncInterrupted else rc

/-- The end of `server_eval_token`. -/
def evalCollect (st : DecodeServer n) (i : Fin n) : DecodeServer n :=
  let s := st.slots i
  let rc := evalReport st.stopRequested s.decodeRc
  let err := if rc = 0 then []
    else if st.stopRequested then lit "shutdown requested"
    else if s.decodeErr ≠ [] then s.decodeErr else lit "decode interrupted"
  { st.set i { s with decodeDone := false, thread := .idle } with
    log := st.log ++ [.returned i st.stopRequested rc err] }

/-- The wait loop of `server_eval_token`: the slot's own cancellation withdraws the token while it
is pending; a token in flight is waited for. -/
def evalCheck (st : DecodeServer n) (i : Fin n) : DecodeServer n :=
  let s := st.slots i
  if s.decodeDone then evalCollect st i
  else if s.cancelled || st.stopRequested then
    match serverCancelPendingDecodeLocked st i with
    | some st' =>
      evalCollect (if s.cancelled then st'
        else st'.set i { st'.slots i with decodeErr := lit "shutdown requested" }) i
    | none => st
  else st

def serverEvalToken (st : DecodeServer n) (i : Fin n) (token : Int) : DecodeServer n :=
  let s := st.slots i
  if st.stopRequested || s.cancelled then
    { st with log := st.log ++ [.refused i ds4SessionSyncInterrupted
        (if st.stopRequested then lit "shutdown requested" else lit "client disconnected")] }
  else if s.decodePending || s.decodeInFlight then
    { st with log := st.log ++ [.refused i 1 (lit "session already has a decode in flight")] }
  else
    evalCheck { st.set i { s with
        decodeToken := token, decodeRc := 1, decodeErr := [], decodeDone := false,
        decodePending := true, thread := .evalWaiting } with
      decodePending := st.decodePending + 1
      log := st.log ++ [.submitted i token] } i

/-! ## The decode worker -/

/-- The first wait of the loop of `decode_worker_main`. -/
def decodeWorkerWake (st : DecodeServer n) : DecodeServer n :=
  if st.decodePending = 0 then if st.modelStopping then { st with worker := .exited } else st
  else { st with worker := .ready }

def pendingItems (st : DecodeServer n) : List (Fin n × Int) :=
  ((List.finRange n).filter fun i => (st.slots i).decodePending).map fun i =>
    (i, (st.slots i).decodeToken)

def DecodeSlot.gather (s : DecodeSlot) : DecodeSlot :=
  if s.decodePending then { s with decodePending := false, decodeInFlight := true } else s

/-- The loop over the slots that collects the items of a batch. -/
def gatherPending (st : DecodeServer n) : DecodeServer n :=
  { st with
    slots := fun i => (st.slots i).gather
    decodePending := st.decodePending - (pendingItems st).length
    modelBusy := true
    worker := .running (pendingItems st)
    log := st.log ++ [.batchStarted (pendingItems st)] }

/-- The last wait, for the model, and the gathering. -/
def decodeWorkerGather (st : DecodeServer n) : DecodeServer n :=
  if st.modelBusy then st
  else if st.modelStopping && st.decodePending == 0 then { st with worker := .exited }
  else if pendingItems st = [] then { st with worker := .waiting }
  else gatherPending st

def DecodeSlot.publish (rc : Int) (batchErr : Bytes) (s : DecodeSlot) : DecodeSlot :=
  { s with
    decodeInFlight := false, decodeRc := rc, decodeDone := true,
    decodeErr := if rc = 0 then s.decodeErr
      else if batchErr ≠ [] then batchErr else lit "batched decode failed" }

/-- The publication of the return code of a batch to its members. -/
def decodeWorkerPublish (st : DecodeServer n) (items : List (Fin n × Int)) (rc : Int)
    (batchErr : Bytes) : DecodeServer n :=
  { st with
    slots := fun i =>
      if i ∈ items.map (·.1) then (st.slots i).publish rc batchErr else st.slots i
    modelBusy := false
    worker := .waiting
    log := st.log ++ [.batchReturned items rc] }

inductive DecodeStep : DecodeServer n → DecodeServer n → Prop
  | requestStop : DecodeStep st { st with stopRequested := true }
  | requestDecodeStop : DecodeStep st { st with modelStopping := true }
  | cancelJob (i) : DecodeStep st (st.set i { st.slots i with cancelled := true })
  | nextJob (i) : (st.slots i).thread = .idle →
      DecodeStep st (st.set i { st.slots i with cancelled := false })
  | withdraw (i) : serverCancelPendingDecodeLocked st i = some st' → DecodeStep st st'
  | prefillEnter (i) : (st.slots i).thread = .idle → DecodeStep st (serverPrefillEnter st i)
  | prefillWake (i) : (st.slots i).thread = .prefillWaiting → DecodeStep st (prefillCheck st i)
  | prefillLeave (i) : (st.slots i).thread = .prefilling → DecodeStep st (serverPrefillLeave st i)
  | evalSubmit (i token) : (st.slots i).thread = .idle → DecodeStep st (serverEvalToken st i token)
  | evalWake (i) : (st.slots i).thread = .evalWaiting → DecodeStep st (evalCheck st i)
  | workerWake : st.worker = .waiting → DecodeStep st (decodeWorkerWake st)
  | workerGather : st.worker = .ready → DecodeStep st (decodeWorkerGather st)
  | workerPublish (rc batchErr) : st.worker = .running items →
      DecodeStep st (decodeWorkerPublish st items rc batchErr)

def DecodeReachable (st : DecodeServer n) : Prop :=
  Relation.ReflTransGen DecodeStep (DecodeServer.init n) st

/-! ## What a slot sees -/

inductive SlotEvent
  | submitted (token : Int)
  | taken (token : Int)
  | evaluated (rc : Int)
  | withdrawn
  | returned (stop : Bool) (rc : Int)
  deriving DecidableEq, Repr

def DecodeEvent.view (i : Fin n) : DecodeEvent n → List SlotEvent
  | .submitted j token => if j = i then [.submitted token] else []
  | .batchStarted items => (items.filter (·.1 = i)).map fun x => .taken x.2
  | .batchReturned items rc => (items.filter (·.1 = i)).map fun _ => .evaluated rc
  | .withdrawn j => if j = i then [.withdrawn] else []
  | .returned j stop rc _ => if j = i then [.returned stop rc] else []
  | .refused _ _ _ => []

def DecodeServer.history (st : DecodeServer n) (i : Fin n) : List SlotEvent :=
  st.log.flatMap (·.view i)

/-- What happens to a submitted token: one batch takes it and its return code is reported, or it is
withdrawn and reported as interrupted. -/
inductive Round (report : Bool → Int → Int) : List SlotEvent → Prop
  | evaluated : Round report
      [.submitted token, .taken token, .evaluated rc, .returned stop (report stop rc)]
  | withdrawn : Round report
      [.submitted token, .withdrawn, .returned stop ds4SessionSyncInterrupted]

/-- Complete rounds, then the part `op` of one that is not finished. -/
def RoundsThen (report : Bool → Int → Int) (h op : List SlotEvent) : Prop :=
  ∃ rs : List (List SlotEvent), (∀ r ∈ rs, Round report r) ∧ h = rs.flatten ++ op

def Lifecycle (report : Bool → Int → Int) (h : List SlotEvent) : Prop :=
  ∃ op r, RoundsThen report h op ∧ Round report r ∧ op <+: r ∧ op ≠ r

/-- The slots with a pending token. -/
def DecodeServer.pendingSlots (st : DecodeServer n) : Nat := ∑ i, (st.slots i).decodePending.toNat

def DecodeSlot.prefills (s : DecodeSlot) : Nat := if s.thread = .prefilling then 1 else 0

def DecodeWorker.decodes : DecodeWorker n → Nat
  | .running _ => 1
  | _ => 0

/-- The prefills and the batch that hold the model. -/
def DecodeServer.holders (st : DecodeServer n) : Nat :=
  ∑ i, (st.slots i).prefills + st.worker.decodes

structure DecodeSafe (report : Bool → Int → Int) (st : DecodeServer n) : Prop where
  pending : st.decodePending = st.pendingSlots
  exclusive : ∀ i, ¬ ((st.slots i).decodePending ∧ (st.slots i).decodeInFlight)
  oneHolder : st.holders ≤ 1
  busy : st.modelBusy ↔ st.holders = 1
  lifecycle : ∀ i, Lifecycle report (st.history i)

/-! ## The invariant -/

def DecodeWorker.items : DecodeWorker n → List (Fin n × Int)
  | .running items => items
  | _ => []

def inFlightItems (st : DecodeServer n) : List (Fin n × Int) :=
  ((List.finRange n).filter fun i => (st.slots i).decodeInFlight).map fun i =>
    (i, (st.slots i).decodeToken)

/-- The flags of a slot say how far its current round is. -/
inductive Open (s : DecodeSlot) : List SlotEvent → Prop
  | closed : s.thread ≠ .evalWaiting → s.decodePending = false → s.decodeInFlight = false →
      s.decodeDone = false → Open s []
  | pending : s.thread = .evalWaiting → s.decodePending = true → s.decodeInFlight = false →
      s.decodeDone = false → Open s [.submitted s.decodeToken]
  | inFlight : s.thread = .evalWaiting → s.decodePending = false → s.decodeInFlight = true →
      s.decodeDone = false → Open s [.submitted s.decodeToken, .taken s.decodeToken]
  | evaluated : s.thread = .evalWaiting → s.decodePending = false → s.decodeInFlight = false →
      s.decodeDone = true →
      Open s [.submitted s.decodeToken, .taken s.decodeToken, .evaluated s.decodeRc]
  | withdrawn : s.thread = .evalWaiting → s.decodePending = false → s.decodeInFlight = false →
      s.decodeDone = true → s.decodeRc = ds4SessionSyncInterrupted →
      Open s [.submitted s.decodeToken, .withdrawn]

structure DecodeInv (st : DecodeServer n) : Prop where
  pending : st.decodePending = st.pendingSlots
  inFlight : st.worker.items = inFlightItems st
  busy : st.modelBusy.toNat = st.holders
  slot : ∀ i, ∃ op, RoundsThen evalReport (st.history i) op ∧ Open (st.slots i) op

theorem evalReport_interrupted : evalReport stop ds4SessionSyncInterrupted =
    ds4SessionSyncInterrupted := by
  cases stop <;> rfl

theorem Open.exclusive (h : Open s op) : ¬ (s.decodePending ∧ s.decodeInFlight) := by
  cases h <;> simp_all

theorem Open.lifecycle (h : Open s op) (hr : RoundsThen evalReport hist op) :
    Lifecycle evalReport hist := by
  have hev : ∀ token rc, Round evalReport [.submitted token, .taken token, .evaluated rc,
      .returned false (evalReport false rc)] := fun _ _ => .evaluated
  have hw : ∀ token, Round evalReport [.submitted token, .withdrawn,
      .returned false ds4SessionSyncInterrupted] := fun _ => .withdrawn
  cases h with
  | closed => exact ⟨_, _, hr, hev 0 0, List.nil_prefix, by simp⟩
  | pending => exact ⟨_, _, hr, hev _ 0, ⟨_, rfl⟩, by simp⟩
  | inFlight => exact ⟨_, _, hr, hev _ 0, ⟨_, rfl⟩, by simp⟩
  | evaluated => exact ⟨_, _, hr, hev _ _, ⟨_, rfl⟩, by simp⟩
  | withdrawn => exact ⟨_, _, hr, hw _, ⟨_, rfl⟩, by simp⟩

theorem DecodeInv.safe (h : DecodeInv st) : DecodeSafe evalReport st where
  pending := h.pending
  exclusive i := by
    obtain ⟨op, -, hop⟩ := h.slot i
    exact hop.exclusive
  oneHolder := by
    rw [← h.busy]
    exact Bool.toNat_le _
  busy := by
    rw [← h.busy]
    cases st.modelBusy <;> simp
  lifecycle i := by
    obtain ⟨op, hr, hop⟩ := h.slot i
    exact hop.lifecycle hr

theorem DecodeInv.init : DecodeInv (DecodeServer.init n) where
  pending := by simp [DecodeServer.init, DecodeServer.pendingSlots, DecodeSlot.init]
  inFlight := by simp [DecodeServer.init, DecodeWorker.items, inFlightItems, DecodeSlot.init]
  busy := by
    simp [DecodeServer.init, DecodeServer.holders, DecodeSlot.init, DecodeSlot.prefills,
      DecodeWorker.decodes]
  slot i := ⟨[], ⟨[], nofun, rfl⟩, .closed nofun rfl rfl rfl⟩

/-! ## Steps of one slot -/

/-- The round goes on with `evs`, or ends with them. -/
def Advances (a b : DecodeSlot) (evs : List SlotEvent) : Prop :=
  ∀ op, Open a op → Open b (op ++ evs) ∨ Round evalReport (op ++ evs) ∧ Open b []

theorem RoundsThen.advance (h : RoundsThen evalReport hist op) (ho : Open a op)
    (ha : Advances a b evs) : ∃ op, RoundsThen evalReport (hist ++ evs) op ∧ Open b op := by
  obtain ⟨rs, hrs, rfl⟩ := h
  rcases ha op ho with hb | ⟨hr, hb⟩
  · exact ⟨_, ⟨rs, hrs, by simp⟩, hb⟩
  · refine ⟨[], ⟨rs ++ [op ++ evs], ?_, by simp⟩, hb⟩
    intro r hmem
    rcases List.mem_append.1 hmem with hmem | hmem
    · exact hrs r hmem
    · rw [List.mem_singleton.1 hmem]
      exact hr

/-- How a step that changes one slot keeps the invariant. -/
structure SlotStep (st st' : DecodeServer n) (i : Fin n) (s : DecodeSlot) (evs : List (DecodeEvent n)) :
    Prop where
  slots : st'.slots = Function.update st.slots i s
  worker : st'.worker = st.worker
  log : st'.log = st.log ++ evs
  others : ∀ j, j ≠ i → evs.flatMap (·.view j) = []
  inFlight : s.decodeInFlight = (st.slots i).decodeInFlight
  token : s.decodeInFlight = true → s.decodeToken = (st.slots i).decodeToken
  pending : st'.decodePending + (st.slots i).decodePending.toNat =
    st.decodePending + s.decodePending.toNat
  busy : st'.modelBusy.toNat + (st.slots i).prefills = st.modelBusy.toNat + s.prefills
  round : Advances (st.slots i) s (evs.flatMap (·.view i))

theorem DecodeInv.slotStep {st st' : DecodeServer n} (h : DecodeInv st) (evs : List (DecodeEvent n))
    (hs : SlotStep st st' i s evs) : DecodeInv st' where
  pending := by
    have h1 := hs.pending
    have h2 := sum_update (·.decodePending.toNat) st.slots i s
    have h3 := h.pending
    rw [DecodeServer.pendingSlots] at h3
    rw [DecodeServer.pendingSlots, hs.slots]
    omega
  inFlight := by
    have hfl : ∀ j, (st'.slots j).decodeInFlight = (st.slots j).decodeInFlight := by
      intro j
      rw [hs.slots, Function.update_apply]
      split
      · next hj => rw [hs.inFlight, hj]
      · rfl
    rw [hs.worker, h.inFlight, inFlightItems, inFlightItems]
    simp only [hfl]
    refine List.map_congr_left fun j hj => ?_
    rw [hs.slots, Function.update_apply]
    split
    · next hji =>
      subst hji
      rw [hs.token (hs.inFlight.trans (List.mem_filter.1 hj).2)]
    · rfl
  busy := by
    have h1 := hs.busy
    have h2 := sum_update DecodeSlot.prefills st.slots i s
    have h3 := h.busy
    rw [DecodeServer.holders] at h3
    rw [DecodeServer.holders, hs.slots, hs.worker]
    omega
  slot j := by
    obtain ⟨op, hr, hop⟩ := h.slot j
    have hhist : st'.history j = st.history j ++ evs.flatMap (·.view j) := by
      rw [DecodeServer.history, hs.log, List.flatMap_append]
      rfl
    rw [hhist, hs.slots, Function.update_apply]
    split
    · next hj =>
      subst hj
      exact hr.advance hop hs.round
    · next hj =>
      rw [hs.others j hj, List.append_nil]
      exact ⟨op, hr, hop⟩

/-- A change of a slot that its rounds do not depend on. -/
structure SameRound (a b : DecodeSlot) : Prop where
  thread : b.thread = .evalWaiting ↔ a.thread = .evalWaiting
  pending : b.decodePending = a.decodePending
  inFlight : b.decodeInFlight = a.decodeInFlight
  done : b.decodeDone = a.decodeDone
  token : b.decodeToken = a.decodeToken
  rc : b.decodeRc = a.decodeRc

theorem SameRound.advances (h : SameRound a b) : Advances a b [] := by
  intro op ho
  rw [List.append_nil]
  left
  cases ho with
  | closed h1 h2 h3 h4 =>
    exact .closed (mt h.thread.1 h1) (h.pending.trans h2) (h.inFlight.trans h3) (h.done.trans h4)
  | pending h1 h2 h3 h4 =>
    rw [← h.token]
    exact .pending (h.thread.2 h1) (h.pending.trans h2) (h.inFlight.trans h3) (h.done.trans h4)
  | inFlight h1 h2 h3 h4 =>
    rw [← h.token]
    exact .inFlight (h.thread.2 h1) (h.pending.trans h2) (h.inFlight.trans h3) (h.done.trans h4)
  | evaluated h1 h2 h3 h4 =>
    rw [← h.token, ← h.rc]
    exact .evaluated (h.thread.2 h1) (h.pending.trans h2) (h.inFlight.trans h3) (h.done.trans h4)
  | withdrawn h1 h2 h3 h4 h5 =>
    rw [← h.token]
    exact .withdrawn (h.thread.2 h1) (h.pending.trans h2) (h.inFlight.trans h3) (h.done.trans h4)
      (h.rc.trans h5)

theorem DecodeInv.quiet {st st' : DecodeServer n} (h : DecodeInv st)
    (hslots : st'.slots = Function.update st.slots i s) (hworker : st'.worker = st.worker)
    (hlog : st'.log = st.log) (hpending : st'.decodePending = st.decodePending)
    (hbusy : st'.modelBusy.toNat + (st.slots i).prefills = st.modelBusy.toNat + s.prefills)
    (hs : SameRound (st.slots i) s) : DecodeInv st' := by
  refine h.slotStep [] ⟨hslots, hworker, by simp [hlog], by simp, hs.inFlight,
    fun _ => hs.token, by rw [hpending, hs.pending], hbusy, hs.advances⟩

theorem DecodeInv.prefillCheck (h : DecodeInv st)
    (ht : (st.slots i).thread = .idle ∨ (st.slots i).thread = .prefillWaiting) :
    DecodeInv (prefillCheck st i) := by
  have hne : (st.slots i).thread ≠ .evalWaiting := by rcases ht with ht | ht <;> simp [ht]
  have hno : (st.slots i).prefills = 0 := by
    rcases ht with ht | ht <;> simp [DecodeSlot.prefills, ht]
  rw [Ds4.prefillCheck]
  split
  · refine h.quiet rfl rfl rfl rfl ?_ ⟨?_, rfl, rfl, rfl, rfl, rfl⟩
    · rw [hno]; rfl
    · simp [hne]
  split
  · refine h.quiet rfl rfl rfl rfl ?_ ⟨?_, rfl, rfl, rfl, rfl, rfl⟩
    · rw [hno]; rfl
    · simp [hne]
  · next hfree =>
    refine h.quiet rfl rfl rfl rfl ?_ ⟨?_, rfl, rfl, rfl, rfl, rfl⟩
    · simp only [Bool.or_eq_true, not_or, Bool.not_eq_true] at hfree
      rw [hno, hfree.1.1]
      rfl
    · simp [hne]

theorem DecodeInv.prefillEnter (h : DecodeInv st) (ht : (st.slots i).thread = .idle) :
    DecodeInv (serverPrefillEnter st i) := by
  rw [serverPrefillEnter]
  apply DecodeInv.prefillCheck
  · exact h.quiet rfl rfl rfl rfl rfl ⟨.rfl, rfl, rfl, rfl, rfl, rfl⟩
  · simp [DecodeServer.set, ht]

theorem DecodeInv.prefillLeave (h : DecodeInv st) (ht : (st.slots i).thread = .prefilling) :
    DecodeInv (serverPrefillLeave st i) := by
  have hyes : (st.slots i).prefills = 1 := by simp [DecodeSlot.prefills, ht]
  have hbusy : st.modelBusy = true := by
    have h1 := h.busy
    have h2 : (st.slots i).prefills ≤ ∑ k, (st.slots k).prefills :=
      Finset.single_le_sum (f := fun k => (st.slots k).prefills) (fun _ _ => Nat.zero_le _)
        (Finset.mem_univ i)
    rw [DecodeServer.holders] at h1
    cases hb : st.modelBusy with
    | true => rfl
    | false =>
      rw [hb, Bool.toNat_false] at h1
      omega
  refine h.quiet rfl rfl rfl rfl ?_ ⟨?_, rfl, rfl, rfl, rfl, rfl⟩
  · rw [hyes, hbusy]; rfl
  · simp [ht]

theorem DecodeInv.withdraw (h : DecodeInv st) (hw : serverCancelPendingDecodeLocked st i = some st') :
    DecodeInv st' ∧ (st'.slots i).thread = (st.slots i).thread ∧ (st'.slots i).decodeDone = true := by
  rw [serverCancelPendingDecodeLocked] at hw
  split at hw
  · cases hw
  next hp =>
  simp only [Bool.or_eq_true, Bool.not_eq_true', not_or, Bool.not_eq_false, Bool.not_eq_true] at hp
  cases hw
  refine ⟨?_, by simp [DecodeServer.set], by simp [DecodeServer.set]⟩
  refine h.slotStep [.withdrawn i] ⟨rfl, rfl, rfl, ?_, rfl, fun _ => rfl, ?_, rfl, ?_⟩
  · intro j hj
    simp [DecodeEvent.view, hj.symm]
  · rw [hp.1]
    simp
  · intro op ho
    left
    cases ho with
    | pending h1 h2 h3 h4 =>
      simp only [DecodeEvent.view, List.flatMap_cons, List.flatMap_nil, ↓reduceIte, List.append_nil]
      exact .withdrawn h1 rfl h3 rfl rfl
    | closed _ h2 => rw [hp.1] at h2; cases h2
    | inFlight _ h2 => rw [hp.1] at h2; cases h2
    | evaluated _ h2 => rw [hp.1] at h2; cases h2
    | withdrawn _ h2 => rw [hp.1] at h2; cases h2

theorem DecodeInv.collect (h : DecodeInv st) (ht : (st.slots i).thread = .evalWaiting)
    (hd : (st.slots i).decodeDone = true) : DecodeInv (evalCollect st i) := by
  rw [evalCollect]
  refine h.slotStep _ ⟨rfl, rfl, rfl, ?_, rfl, fun _ => rfl, rfl, ?_, ?_⟩
  · intro j hj
    simp [DecodeEvent.view, hj.symm]
  · simp [DecodeSlot.prefills, DecodeServer.set, ht]
  · intro op ho
    right
    simp only [DecodeEvent.view, List.flatMap_cons, List.flatMap_nil, ↓reduceIte, List.append_nil]
    cases ho with
    | evaluated h1 h2 h3 h4 => exact ⟨.evaluated, .closed nofun h2 h3 rfl⟩
    | withdrawn h1 h2 h3 h4 h5 =>
      rw [h5, evalReport_interrupted]
      exact ⟨.withdrawn, .closed nofun h2 h3 rfl⟩
    | closed h1 => exact absurd ht h1
    | pending _ _ _ h4 => rw [hd] at h4; cases h4
    | inFlight _ _ _ h4 => rw [hd] at h4; cases h4

theorem DecodeInv.evalCheck (h : DecodeInv st) (ht : (st.slots i).thread = .evalWaiting) :
    DecodeInv (evalCheck st i) := by
  rw [Ds4.evalCheck]
  split
  · next hd => exact h.collect ht hd
  split
  · split
    · next st' hw =>
      obtain ⟨h', ht', hd'⟩ := h.withdraw hw
      rw [ht] at ht'
      split
      · exact h'.collect ht' hd'
      · apply DecodeInv.collect
        · exact h'.quiet rfl rfl rfl rfl rfl ⟨.rfl, rfl, rfl, rfl, rfl, rfl⟩
        · simp [DecodeServer.set, ht']
        · simp [DecodeServer.set, hd']
    · exact h
  · exact h

theorem DecodeInv.refused (h : DecodeInv st) (i : Fin n) (rc : Int) (err : Bytes) :
    DecodeInv { st with log := st.log ++ [.refused i rc err] } := by
  refine h.slotStep (i := i) (s := st.slots i) _ ⟨?_, rfl, rfl, ?_, rfl,
    fun _ => rfl, rfl, rfl, ?_⟩
  · exact (Function.update_eq_self i st.slots).symm
  · intro j _
    simp [DecodeEvent.view]
  · exact SameRound.advances ⟨.rfl, rfl, rfl, rfl, rfl, rfl⟩

theorem DecodeInv.evalToken (h : DecodeInv st) (ht : (st.slots i).thread = .idle) (token : Int) :
    DecodeInv (serverEvalToken st i token) := by
  rw [serverEvalToken]
  split
  · exact h.refused i _ _
  split
  · exact h.refused i _ _
  next hfree =>
  simp only [Bool.or_eq_true, not_or, Bool.not_eq_true] at hfree
  apply DecodeInv.evalCheck
  · refine h.slotStep [.submitted i token] ⟨rfl, rfl, rfl, ?_, rfl, ?_, ?_, ?_, ?_⟩
    · intro j hj
      simp [DecodeEvent.view, hj.symm]
    · intro hf
      exact absurd hf (by simp [hfree.2])
    · rw [hfree.1]
      simp
    · simp [DecodeSlot.prefills, DecodeServer.set, ht]
    · intro op ho
      left
      simp only [DecodeEvent.view, List.flatMap_cons, List.flatMap_nil, ↓reduceIte, List.append_nil]
      cases ho with
      | closed => exact .pending rfl rfl hfree.2 rfl
      | pending h1 => rw [ht] at h1; cases h1
      | inFlight h1 => rw [ht] at h1; cases h1
      | evaluated h1 => rw [ht] at h1; cases h1
      | withdrawn h1 => rw [ht] at h1; cases h1
  · simp [DecodeServer.set]

/-! ## Steps of the worker -/

/-- The items of one slot among those of the slots with a flag. -/
theorem filter_items (p : Fin n → Bool) (f : Fin n → Int) (i : Fin n) :
    (((List.finRange n).filter p).map fun j => (j, f j)).filter (·.1 = i) =
      if p i then [(i, f i)] else [] := by
  have hone : (List.finRange n).filter (fun j => decide (j = i)) = [i] := by
    rw [List.filter_eq, List.count_eq_one_of_mem (List.nodup_finRange n) (List.mem_finRange i)]
    rfl
  have hcomm : ((List.finRange n).filter fun j => decide (j = i) && p j) = [i].filter p := by
    rw [← hone, List.filter_filter]
    refine List.filter_congr fun j _ => ?_
    rw [Bool.and_comm]
  rw [List.filter_map]
  simp only [Function.comp_def, List.filter_filter, hcomm]
  cases hp : p i <;> simp [hp]

theorem length_pendingItems (st : DecodeServer n) : (pendingItems st).length = st.pendingSlots := by
  have key : ∀ l : List (Fin n), (l.filter fun i => (st.slots i).decodePending).length =
      (l.map fun i => (st.slots i).decodePending.toNat).sum := by
    intro l
    induction l with
    | nil => rfl
    | cons i l ih => cases hi : (st.slots i).decodePending <;> simp [hi, ih, Nat.add_comm]
  rw [pendingItems, List.length_map, key, DecodeServer.pendingSlots, Fin.sum_univ_def]

theorem mem_inFlightItems (st : DecodeServer n) (i : Fin n) :
    i ∈ (inFlightItems st).map (·.1) ↔ (st.slots i).decodeInFlight = true := by
  simp [inFlightItems]

theorem inFlightItems_eq_nil {st : DecodeServer n} (h : ∀ i, (st.slots i).decodeInFlight = false) :
    inFlightItems st = [] := by
  simp [inFlightItems, h]

theorem DecodeInv.worker {st : DecodeServer n} {w : DecodeWorker n} (h : DecodeInv st)
    (hi : w.items = st.worker.items) (hd : w.decodes = st.worker.decodes) :
    DecodeInv { st with worker := w } := by
  refine ⟨h.pending, hi.trans h.inFlight, ?_, h.slot⟩
  rw [DecodeServer.holders, hd]
  exact h.busy

theorem DecodeInv.wake (h : DecodeInv st) (hw : st.worker = .waiting) :
    DecodeInv (decodeWorkerWake st) := by
  rw [decodeWorkerWake]
  split
  · split
    · apply h.worker <;> rw [hw] <;> rfl
    · exact h
  · apply h.worker <;> rw [hw] <;> rfl

theorem Advances.gather (s : DecodeSlot) :
    Advances s s.gather (if s.decodePending then [.taken s.decodeToken] else []) := by
  intro op ho
  left
  rw [DecodeSlot.gather]
  cases hp : s.decodePending with
  | true =>
    simp only [↓reduceIte]
    cases ho with
    | pending h1 h2 h3 h4 => exact .inFlight h1 rfl rfl h4
    | closed _ h2 => rw [hp] at h2; cases h2
    | inFlight _ h2 => rw [hp] at h2; cases h2
    | evaluated _ h2 => rw [hp] at h2; cases h2
    | withdrawn _ h2 => rw [hp] at h2; cases h2
  | false => simpa using ho

theorem DecodeInv.gatherPending (h : DecodeInv st) (hd : st.worker.decodes = 0)
    (hbusy : st.modelBusy = false) (hnone : ∀ i, (st.slots i).decodeInFlight = false) :
    DecodeInv (gatherPending st) where
  pending := by
    have h1 := h.pending
    rw [← length_pendingItems] at h1
    simp only [Ds4.gatherPending, DecodeServer.pendingSlots, h1, Int.sub_self]
    rw [Finset.sum_eq_zero]
    · rfl
    · intro i _
      rw [DecodeSlot.gather]
      split
      · rfl
      · next hp => simp [hp]
  inFlight := by
    have hfl : ∀ i, (st.slots i).gather.decodeInFlight = (st.slots i).decodePending := by
      intro i
      rw [DecodeSlot.gather]
      split
      · next hp => exact hp.symm
      · next hp => rw [hnone i]; simpa using hp
    have htok : ∀ i, (st.slots i).gather.decodeToken = (st.slots i).decodeToken := by
      intro i
      rw [DecodeSlot.gather]
      split <;> rfl
    simp only [Ds4.gatherPending, DecodeWorker.items, pendingItems, inFlightItems, hfl, htok]
  busy := by
    have h1 := h.busy
    have hsame : ∀ i, (st.slots i).gather.prefills = (st.slots i).prefills := by
      intro i
      rw [DecodeSlot.gather]
      split <;> rfl
    rw [DecodeServer.holders, hd, hbusy, Bool.toNat_false] at h1
    simp only [Ds4.gatherPending, DecodeServer.holders, DecodeWorker.decodes, Bool.toNat_true, hsame]
    omega
  slot i := by
    obtain ⟨op, hr, hop⟩ := h.slot i
    have hhist : (Ds4.gatherPending st).history i = st.history i ++
        if (st.slots i).decodePending then [.taken (st.slots i).decodeToken] else [] := by
      rw [DecodeServer.history, Ds4.gatherPending, List.flatMap_append]
      congr 1
      simp only [List.flatMap_cons, List.flatMap_nil, List.append_nil, DecodeEvent.view, pendingItems,
        filter_items]
      split <;> rfl
    rw [hhist]
    exact hr.advance hop (.gather (st.slots i))

theorem DecodeInv.gather (h : DecodeInv st) (hw : st.worker = .ready) :
    DecodeInv (decodeWorkerGather st) := by
  rw [decodeWorkerGather]
  split
  · exact h
  next hbusy =>
  split
  · apply h.worker <;> rw [hw] <;> rfl
  split
  · apply h.worker <;> rw [hw] <;> rfl
  · apply h.gatherPending
    · rw [hw]; rfl
    · simpa using hbusy
    · -- no batch is running, so no token is in flight
      intro i
      have := (mem_inFlightItems st i).not
      rw [← h.inFlight, hw] at this
      simpa [DecodeWorker.items] using this

theorem Advances.publish (rc : Int) (batchErr : Bytes) :
    Advances s (if s.decodeInFlight then s.publish rc batchErr else s)
      (if s.decodeInFlight then [.evaluated rc] else []) := by
  intro op ho
  left
  cases hf : s.decodeInFlight with
  | true =>
    simp only [↓reduceIte]
    cases ho with
    | inFlight h1 h2 h3 h4 => exact .evaluated (s := s.publish rc batchErr) h1 h2 rfl rfl
    | closed _ _ h3 => rw [hf] at h3; cases h3
    | pending _ _ h3 => rw [hf] at h3; cases h3
    | evaluated _ _ h3 => rw [hf] at h3; cases h3
    | withdrawn _ _ h3 => rw [hf] at h3; cases h3
  | false => simpa using ho

theorem DecodeInv.publish (h : DecodeInv st) (hw : st.worker = .running items) (rc : Int)
    (batchErr : Bytes) : DecodeInv (decodeWorkerPublish st items rc batchErr) := by
  have hitems : items = inFlightItems st := by
    have := h.inFlight
    rwa [hw] at this
  subst hitems
  have hslot : ∀ i, (decodeWorkerPublish st (inFlightItems st) rc batchErr).slots i =
      if (st.slots i).decodeInFlight then (st.slots i).publish rc batchErr else st.slots i := by
    intro i
    simp only [decodeWorkerPublish, mem_inFlightItems]
  constructor
  · have hsame : ∀ i, ((decodeWorkerPublish st (inFlightItems st) rc batchErr).slots i).decodePending =
        (st.slots i).decodePending := by
      intro i
      rw [hslot]
      split <;> rfl
    have hsum : (decodeWorkerPublish st (inFlightItems st) rc batchErr).pendingSlots =
        st.pendingSlots := Finset.sum_congr rfl fun i _ => by rw [hsame i]
    rw [hsum]
    exact h.pending
  · have hnone : ∀ i, ((decodeWorkerPublish st (inFlightItems st) rc batchErr).slots i).decodeInFlight =
        false := by
      intro i
      rw [hslot]
      split
      · rfl
      · next hf => simpa using hf
    rw [inFlightItems_eq_nil hnone]
    rfl
  · have h1 := h.busy
    have hle := Bool.toNat_le st.modelBusy
    have hsame : ∀ i, ((decodeWorkerPublish st (inFlightItems st) rc batchErr).slots i).prefills =
        (st.slots i).prefills := by
      intro i
      rw [hslot]
      split <;> rfl
    rw [DecodeServer.holders, hw] at h1
    rw [DecodeServer.holders]
    simp only [hsame]
    simp only [DecodeWorker.decodes] at h1
    simp only [decodeWorkerPublish, DecodeWorker.decodes, Bool.toNat_false]
    omega
  · intro i
    obtain ⟨op, hr, hop⟩ := h.slot i
    have hhist : (decodeWorkerPublish st (inFlightItems st) rc batchErr).history i =
        st.history i ++ if (st.slots i).decodeInFlight then [.evaluated rc] else [] := by
      rw [DecodeServer.history, decodeWorkerPublish, List.flatMap_append]
      congr 1
      simp only [List.flatMap_cons, List.flatMap_nil, List.append_nil, DecodeEvent.view,
        inFlightItems, filter_items]
      split <;> rfl
    rw [hhist, hslot]
    exact hr.advance hop (.publish rc batchErr)

/-! ## Runs -/

theorem DecodeInv.step (h : DecodeInv st) (hs : DecodeStep st st') : DecodeInv st' := by
  cases hs with
  | requestStop => exact ⟨h.pending, h.inFlight, h.busy, h.slot⟩
  | requestDecodeStop => exact ⟨h.pending, h.inFlight, h.busy, h.slot⟩
  | cancelJob i => exact h.quiet rfl rfl rfl rfl rfl ⟨.rfl, rfl, rfl, rfl, rfl, rfl⟩
  | nextJob i _ => exact h.quiet rfl rfl rfl rfl rfl ⟨.rfl, rfl, rfl, rfl, rfl, rfl⟩
  | withdraw i hw => exact (h.withdraw hw).1
  | prefillEnter i ht => exact h.prefillEnter ht
  | prefillWake i ht => exact h.prefillCheck (.inr ht)
  | prefillLeave i ht => exact h.prefillLeave ht
  | evalSubmit i token ht => exact h.evalToken ht token
  | evalWake i ht => exact h.evalCheck ht
  | workerWake hw => exact h.wake hw
  | workerGather hw => exact h.gather hw
  | workerPublish rc batchErr hw => exact h.publish hw rc batchErr

theorem DecodeReachable.inv {st : DecodeServer n} (h : DecodeReachable st) : DecodeInv st := by
  induction h with
  | refl => exact .init
  | tail _ hstep ih => exact ih.step hstep

/-- Every reachable state of the coordinator is safe, where a success after a requested shutdown is
reported as interrupted. -/
theorem decode_safe (st : DecodeServer n) (h : DecodeReachable st) : DecodeSafe evalReport st :=
  h.inv.safe

/-- One slot submits a token, a batch evaluates it, and a shutdown is requested before the slot
collects the result. -/
def stoppedRun (stop : Bool) : DecodeServer 1 :=
  let st := decodeWorkerGather (decodeWorkerWake (serverEvalToken (.init 1) 0 7))
  let st := decodeWorkerPublish st [(0, 7)] 0 []
  evalCheck { st with stopRequested := stop } 0

theorem stoppedRun_reachable : DecodeReachable (stoppedRun true) := by
  have h1 : DecodeReachable (serverEvalToken (.init 1) 0 7) := .single (.evalSubmit 0 7 rfl)
  have h2 := h1.tail (.workerWake (by rfl))
  have h3 := h2.tail (.workerGather (by rfl))
  have h4 := h3.tail (.workerPublish 0 [] (show _ = DecodeWorker.running [(0, 7)] by decide))
  have h5 := h4.tail .requestStop
  exact h5.tail (.evalWake 0 (by decide))

theorem decode_safe_stopped : DecodeSafe evalReport (stoppedRun true) :=
  decode_safe _ stoppedRun_reachable

/-- The slot of that run is told that its evaluated token was interrupted. -/
theorem stopped_success_reported_interrupted :
    DecodeReachable (stoppedRun true) ∧ ¬ DecodeSafe (fun _ rc => rc) (stoppedRun true) := by
  refine ⟨stoppedRun_reachable, fun h => ?_⟩
  have hhist : (stoppedRun true).history 0 =
      [.submitted 7, .taken 7, .evaluated 0, .returned true 2] := by decide
  obtain ⟨op, r, ⟨rs, hrs, hh⟩, hr, hop, hne⟩ := h.lifecycle 0
  rw [hhist] at hh
  cases rs with
  | nil =>
    rw [List.flatten_nil, List.nil_append] at hh
    have hlen : r.length ≤ op.length := by
      rw [← hh]
      cases hr <;> simp
    exact hne (hop.eq_of_length_le hlen)
  | cons r₁ rs =>
    rw [List.flatten_cons, List.append_assoc] at hh
    cases hrs r₁ (by simp) with
    | evaluated =>
      simp only [List.cons_append, List.cons.injEq, SlotEvent.evaluated.injEq,
        SlotEvent.returned.injEq] at hh
      omega
    | withdrawn => simp at hh

end Ds4
