import Mathlib.Logic.Relation
import Mathlib.Logic.Function.Basic
import Ds4.Dist.Forward
import Ds4.Dist.FrameSync

/-!
# The order of the results

A chain of workers behind a coordinator. Each worker has a handler that takes the frames of work off
its upstream connection one by one, a queue of the requests that it has handed to the next worker,
and a relay that reads the results of that worker and writes them upstream. The handler and the relay
write to one connection, and nothing but a lock around each frame orders them.
-/

namespace Ds4.Dist
open C Wire

/-- Where the handler of a worker stands. -/
inductive Handler
  | idle
  | working (payload : Bytes)
  /-- The request is in the queue and its frame is on its way to the next worker. -/
  | sending (requestId : UInt64) (frame : Option Bytes)
  deriving Repr

/-- A worker with its upstream connection. Beside the source's data it keeps what arrived on that
connection and which request ids its results carried. -/
structure Stage where
  received : List Bytes
  inbox : List Bytes
  handler : Handler
  pending : List UInt64
  /-- The request that the relay has popped, and whether its result is the right one. -/
  relay : Option (UInt64 × Bool)
  written : List UInt64
  unread : List UInt64
  isOpen : Bool
  deriving Repr

namespace Stage

def fresh : Stage := ⟨[], [], .idle, [], none, [], [], true⟩

/-- A frame of work arrives on an open connection. -/
def receive (n : Stage) (payload : Bytes) : Stage :=
  if n.isOpen then { n with received := n.received ++ [payload], inbox := n.inbox ++ [payload] }
  else n

/-- A result is written to an open connection. -/
def write (n : Stage) (requestId : UInt64) : Stage :=
  if n.isOpen then { n with written := n.written ++ [requestId], unread := n.unread ++ [requestId] }
  else n

def close (n : Stage) : Stage := { n with isOpen := false }

end Stage

/-- The coordinator with its sender and its reader, and the workers of the chain. -/
structure Pipeline where
  firstRequestId : UInt64
  sent : List UInt64
  answers : List UInt64
  nodes : Nat → Stage

namespace Pipeline

def start (firstRequestId : UInt64) : Pipeline := ⟨firstRequestId, [], [], fun _ => .fresh⟩

def set (c : Pipeline) (i : Nat) (n : Stage) : Pipeline :=
  { c with nodes := Function.update c.nodes i n }

end Pipeline

/-- A step of one of the threads. -/
inductive Pipeline.Event
  /-- The coordinator's sender sends the next frame of work. -/
  | submit (payload : Bytes)
  /-- The coordinator's reader takes a result. -/
  | collect
  /-- The handler takes a frame. -/
  | take (i : Nat)
  /-- The handler has no memory for a frame and answers under request id 0. -/
  | blind (i : Nat)
  /-- The handler writes an answer itself. -/
  | answer (i : Nat)
  /-- The handler puts a request in the queue. -/
  | enqueue (i : Nat)
  | send (i : Nat)
  /-- The frame for the next worker cannot be sent: the request leaves the queue, is answered with an
  error, and the upstream connection is shut down. -/
  | sendFails (i : Nat)
  /-- The relay reads a result and pops the request that it belongs to. -/
  | relayPop (i : Nat)
  /-- The relay finds no valid result and pops the request that it answers with an error. -/
  | relayEnd (i : Nat)
  | relayWrite (i : Nat)
  /-- A connection breaks. -/
  | close (i : Nat)
  deriving Repr

/-- The steps of the threads. The queue of a worker holds at most `depth` requests, where `depth` is
not zero. -/
inductive Pipeline.Step (depth : Nat) : Pipeline → Pipeline.Event → Pipeline → Prop
  | submit {c : Pipeline} {payload : Bytes}
    (next : requestIdOf payload = c.firstRequestId + UInt64.ofNat c.sent.length) :
    Step depth c (.submit payload)
      { c.set 0 ((c.nodes 0).receive payload) with sent := c.sent ++ [requestIdOf payload] }
  | collect {c : Pipeline} {id : UInt64} {rest : List UInt64} (unread : (c.nodes 0).unread = id :: rest) :
    Step depth c .collect
      { c.set 0 { c.nodes 0 with unread := rest } with answers := c.answers ++ [id] }
  | take {c : Pipeline} {i : Nat} {p : Bytes} {rest : List Bytes} (idle : (c.nodes i).handler = .idle)
    (inbox : (c.nodes i).inbox = p :: rest) :
    Step depth c (.take i) (c.set i { c.nodes i with inbox := rest, handler := .working p })
  | blind {c : Pipeline} {i : Nat} {p : Bytes} {rest : List Bytes} (idle : (c.nodes i).handler = .idle)
    (inbox : (c.nodes i).inbox = p :: rest) :
    Step depth c (.blind i) (c.set i (Stage.write { c.nodes i with inbox := rest } 0))
  | answer {c : Pipeline} {i : Nat} {p : Bytes} {id : UInt64}
    (working : (c.nodes i).handler = .working p) (answers : Answers p (.direct id)) :
    Step depth c (.answer i) (c.set i (Stage.write { c.nodes i with handler := .idle } id))
  | enqueue {c : Pipeline} {i : Nat} {p : Bytes} {id : UInt64} {frame : Option Bytes}
    (working : (c.nodes i).handler = .working p) (answers : Answers p (.forward id frame))
    (room : depth = 0 ∨ (c.nodes i).pending.length < depth) :
    Step depth c (.enqueue i) (c.set i
      { c.nodes i with handler := .sending id frame, pending := (c.nodes i).pending ++ [id] })
  | send {c : Pipeline} {i : Nat} {id : UInt64} {s : Bytes}
    (sending : (c.nodes i).handler = .sending id (some s)) :
    Step depth c (.send i)
      ((c.set (i + 1) ((c.nodes (i + 1)).receive (s.drop (sizeof FrameHeader)))).set i
        { c.nodes i with handler := .idle })
  | sendFails {c : Pipeline} {i : Nat} {id : UInt64} {frame : Option Bytes}
    (sending : (c.nodes i).handler = .sending id frame) :
    Step depth c (.sendFails i) (c.set i (Stage.close (Stage.write
      { c.nodes i with handler := .idle, pending := (c.nodes i).pending.erase id } id)))
  | relayPop {c : Pipeline} {i : Nat} {got expected : UInt64} {rest pending : List UInt64}
    (free : (c.nodes i).relay = none) (unread : (c.nodes (i + 1)).unread = got :: rest)
    (pop : (c.nodes i).pending = expected :: pending) :
    Step depth c (.relayPop i)
      ((c.set (i + 1) { c.nodes (i + 1) with unread := rest }).set i
        { c.nodes i with pending, relay := some (expected, got = expected) })
  | relayEnd {c : Pipeline} {i : Nat} {expected : UInt64} {pending : List UInt64}
    (free : (c.nodes i).relay = none) (pop : (c.nodes i).pending = expected :: pending) :
    Step depth c (.relayEnd i)
      (c.set i { c.nodes i with pending, relay := some (expected, false) })
  | relayWrite {c : Pipeline} {i : Nat} {expected : UInt64} {valid : Bool}
    (relay : (c.nodes i).relay = some (expected, valid)) :
    Step depth c (.relayWrite i)
      (c.set i (if valid then Stage.write { c.nodes i with relay := none } expected
        else Stage.close (Stage.write { c.nodes i with relay := none } expected)))
  | close {c : Pipeline} {i : Nat} : Step depth c (.close i) (c.set i (c.nodes i).close)

/-! ## When the order is kept -/

/-- No request that the worker has handed on waits for its result, in the queue or with the relay. -/
structure Stage.Settled (n : Stage) : Prop where
  queue : n.pending = []
  relay : n.relay = none

/-- A worker that writes an answer itself has no other answer outstanding, and it writes it under the
request id of the frame. -/
def Pipeline.Orderly (c : Pipeline) : Pipeline.Event → Prop
  | .answer i => (c.nodes i).isOpen = true → (c.nodes i).Settled
  | .blind i => (c.nodes i).isOpen = true → (c.nodes i).Settled ∧
      ∀ p ∈ (c.nodes i).inbox.head?, requestIdOf p = 0
  | .sendFails i => (c.nodes i).isOpen = true → (c.nodes i).pending.length = 1 ∧
      (c.nodes i).relay = none
  | _ => True

/-- The request ids of the answers that a worker owes, in the order in which they are due. -/
def Stage.owed (n : Stage) : List UInt64 :=
  (n.relay.toList.map Prod.fst ++ n.pending) ++ ((match n.handler with
    | .working p => [requestIdOf p]
    | _ => []) ++ n.inbox.map requestIdOf)

/-- The results of a worker are those of a first part of the frames that it got, and while its
connection is open those of the other frames are still owed. -/
structure Stage.InOrder (n : Stage) : Prop where
  results : n.written <+: n.received.map requestIdOf
  owed : n.isOpen = true → n.received.map requestIdOf = n.written ++ n.owed

/-- A request whose frame is on its way is the last one of the queue, unless the relay took it, and
the frame carries its request id. -/
structure Stage.Sending (n : Stage) : Prop where
  last : ∀ id frame, n.handler = .sending id frame → ∀ p ∈ n.pending.getLast?, p = id
  frame : ∀ id s, n.handler = .sending id (some s) → requestIdOf (s.drop (sizeof FrameHeader)) = id

/-- The request whose frame is on its way. -/
def Stage.onItsWay (n : Stage) : List UInt64 :=
  match n.handler with
  | .sending id _ => [id]
  | _ => []

/-- While both connections are open and the relay has not given up, the queue of a worker holds what
the next worker got, and is about to get, without what the relay has read. -/
def Linked (n m : Stage) : Prop :=
  n.isOpen = true → m.isOpen = true → (∀ id, n.relay ≠ some (id, false)) →
    ∃ read, m.written = read ++ m.unread ∧
      m.received.map requestIdOf ++ n.onItsWay = read ++ n.pending

/-- The reader of the coordinator reads what the first worker wrote, and this worker got what was
sent, as long as its connection was open. -/
structure Pipeline.Served (c : Pipeline) : Prop where
  ids : ∀ i id, c.sent[i]? = some id → id = c.firstRequestId + UInt64.ofNat i
  arrived : (c.nodes 0).received.map requestIdOf <+: c.sent
  all : (c.nodes 0).isOpen = true → (c.nodes 0).received.map requestIdOf = c.sent
  read : (c.nodes 0).written = c.answers ++ (c.nodes 0).unread

/-- What the steps keep of the workers. -/
structure Kept (nodes : Nat → Stage) : Prop where
  order : ∀ i, (nodes i).InOrder
  sending : ∀ i, (nodes i).Sending
  linked : ∀ i, Linked (nodes i) (nodes (i + 1))

section Stage
variable {n n' m : Stage} {id : UInt64} {p : Bytes}

/-- A change that leaves the logs and what is owed. -/
theorem Stage.InOrder.keep (h : n.InOrder) (hreceived : n'.received = n.received)
    (hwritten : n'.written = n.written) (hopen : n'.isOpen = true → n.isOpen = true)
    (howed : n'.isOpen = true → n'.owed = n.owed) : n'.InOrder := by
  refine ⟨?_, fun ho => ?_⟩
  · rw [hreceived, hwritten]
    exact h.results
  · rw [hreceived, hwritten, howed ho]
    exact h.owed (hopen ho)

theorem Stage.InOrder.receive (h : n.InOrder) (p : Bytes) : (n.receive p).InOrder := by
  rw [Stage.receive]
  split
  · next hopen =>
    refine ⟨?_, fun _ => ?_⟩
    · rw [List.map_append]
      exact h.results.trans (List.prefix_append _ _)
    · rw [List.map_append, h.owed hopen, Stage.owed, Stage.owed]
      simp only [List.map_append, List.append_assoc, List.map_cons, List.map_nil]
  · exact h

/-- The answer that is due next is written. -/
theorem Stage.InOrder.write (h : n.InOrder) (hreceived : n'.received = n.received)
    (hwritten : n'.written = n.written) (hopen : n'.isOpen = n.isOpen)
    (howed : n.isOpen = true → n.owed = id :: n'.owed) : (n'.write id).InOrder := by
  rw [Stage.write]
  split
  · next ho =>
    have hdue : n'.received.map requestIdOf = (n'.written ++ [id]) ++ n'.owed := by
      rw [hreceived, hwritten, h.owed (hopen ▸ ho), howed (hopen ▸ ho), List.append_assoc]
      rfl
    refine ⟨?_, fun _ => ?_⟩
    · dsimp only
      rw [hdue]
      exact List.prefix_append _ _
    · exact hdue
  · next ho =>
    refine ⟨?_, fun ho' => absurd ho' ho⟩
    rw [hreceived, hwritten]
    exact h.results

theorem Stage.InOrder.close (h : n.InOrder) : n.close.InOrder := ⟨h.results, fun ho => nomatch ho⟩

@[simp] theorem Stage.write_handler : (n.write id).handler = n.handler := by
  rw [Stage.write]
  split <;> rfl

@[simp] theorem Stage.write_pending : (n.write id).pending = n.pending := by
  rw [Stage.write]
  split <;> rfl

@[simp] theorem Stage.write_relay : (n.write id).relay = n.relay := by
  rw [Stage.write]
  split <;> rfl

@[simp] theorem Stage.write_received : (n.write id).received = n.received := by
  rw [Stage.write]
  split <;> rfl

@[simp] theorem Stage.write_isOpen : (n.write id).isOpen = n.isOpen := by
  rw [Stage.write]
  split <;> rfl

@[simp] theorem Stage.receive_handler : (n.receive p).handler = n.handler := by
  rw [Stage.receive]
  split <;> rfl

@[simp] theorem Stage.receive_pending : (n.receive p).pending = n.pending := by
  rw [Stage.receive]
  split <;> rfl

@[simp] theorem Stage.receive_relay : (n.receive p).relay = n.relay := by
  rw [Stage.receive]
  split <;> rfl

@[simp] theorem Stage.receive_written : (n.receive p).written = n.written := by
  rw [Stage.receive]
  split <;> rfl

@[simp] theorem Stage.receive_unread : (n.receive p).unread = n.unread := by
  rw [Stage.receive]
  split <;> rfl

@[simp] theorem Stage.receive_isOpen : (n.receive p).isOpen = n.isOpen := by
  rw [Stage.receive]
  split <;> rfl

/-- What is written behind what was read stays behind it. -/
theorem Stage.write_unread {read : List UInt64} (h : n.written = read ++ n.unread) :
    (n.write id).written = read ++ (n.write id).unread := by
  rw [Stage.write]
  split
  · dsimp only
    rw [h, List.append_assoc]
  · exact h

theorem Stage.Sending.keep (h : n.Sending) (hhandler : n'.handler = n.handler)
    (hlast : ∀ p ∈ n'.pending.getLast?, p ∈ n.pending.getLast?) : n'.Sending := by
  refine ⟨fun id frame hs p hp => ?_, fun id s hs => ?_⟩
  · exact h.last id frame (hhandler ▸ hs) p (hlast p hp)
  · exact h.frame id s (hhandler ▸ hs)

theorem Stage.Sending.of_not (h : ∀ id frame, n.handler ≠ .sending id frame) : n.Sending :=
  ⟨fun id frame hs => absurd hs (h id frame), fun id s hs => absurd hs (h id (some s))⟩

/-- The link sees of the first worker its connection, its relay, its queue and its frame. -/
theorem Linked.left (h : Linked n m) (hopen : n'.isOpen = true → n.isOpen = true)
    (hrelay : (∀ id, n'.relay ≠ some (id, false)) → ∀ id, n.relay ≠ some (id, false))
    (hpending : n'.pending = n.pending) (hway : n'.onItsWay = n.onItsWay) : Linked n' m := by
  intro hn hm hr
  rw [hpending, hway]
  exact h (hopen hn) hm (hrelay hr)

/-- The link sees of the second worker its connection, what it got and what is written and read. -/
theorem Linked.right {m' : Stage} (h : Linked n m) (hopen : m'.isOpen = true → m.isOpen = true)
    (hreceived : m'.received = m.received)
    (hwritten : ∀ read, m.written = read ++ m.unread → m'.written = read ++ m'.unread) :
    Linked n m' := by
  intro hn hm hr
  obtain ⟨read, hread, hqueue⟩ := h hn (hopen hm) hr
  refine ⟨read, hwritten read hread, ?_⟩
  rw [hreceived]
  exact hqueue

end Stage

/-! ## The steps keep the order -/

namespace Pipeline

variable {nodes : Nat → Stage} {c c' : Pipeline} {i depth : Nat} {n m : Stage} {e : Event}

/-- Two neighbours change, and the links of both to their other neighbours stay. -/
theorem set₂_kept (h : Kept nodes) (hn : n.InOrder) (hns : n.Sending) (hm : m.InOrder)
    (hms : m.Sending) (hlink : Linked n m) (hleft : i ≠ 0 → ∀ l, Linked l (nodes i) → Linked l n)
    (hright : ∀ r, Linked (nodes (i + 1)) r → Linked m r) :
    Kept (Function.update (Function.update nodes (i + 1) m) i n) := by
  have hnodes (j : Nat) : Function.update (Function.update nodes (i + 1) m) i n j =
      if j = i then n else if j = i + 1 then m else nodes j := by
    simp only [Function.update_apply]
  refine ⟨fun j => ?_, fun j => ?_, fun j => ?_⟩
  · rw [hnodes]
    split
    · exact hn
    · split
      · exact hm
      · exact h.order j
  · rw [hnodes]
    split
    · exact hns
    · split
      · exact hms
      · exact h.sending j
  · rw [hnodes, hnodes]
    by_cases hj : j = i
    · subst hj
      rw [if_pos rfl, if_neg (by omega), if_pos rfl]
      exact hlink
    · rw [if_neg hj]
      by_cases hj1 : j = i + 1
      · subst hj1
        rw [if_pos rfl, if_neg (by omega), if_neg (by omega)]
        exact hright _ (h.linked _)
      · rw [if_neg hj1]
        by_cases hj2 : j + 1 = i
        · rw [if_pos hj2]
          refine hleft (by omega) _ ?_
          rw [← hj2]
          exact h.linked j
        · rw [if_neg hj2, if_neg (by omega)]
          exact h.linked j

/-- One worker changes. -/
theorem set_kept (h : Kept nodes) (hn : n.InOrder) (hns : n.Sending)
    (hlink : Linked n (nodes (i + 1))) (hleft : i ≠ 0 → ∀ l, Linked l (nodes i) → Linked l n) :
    Kept (Function.update nodes i n) := by
  have hset := set₂_kept (i := i) h hn hns (h.order (i + 1)) (h.sending (i + 1)) hlink hleft
    (fun r hr => hr)
  rwa [Function.update_eq_self] at hset

/-- What the coordinator sees of the first worker stays. -/
theorem Served.set (h : c.Served) (hopen : n.isOpen = true → (c.nodes i).isOpen = true)
    (hreceived : n.received = (c.nodes i).received)
    (hwritten : ∀ read, (c.nodes i).written = read ++ (c.nodes i).unread →
      n.written = read ++ n.unread) : (c.set i n).Served := by
  by_cases hi : i = 0
  · subst hi
    refine ⟨h.ids, ?_, ?_, ?_⟩ <;> simp only [Pipeline.set, Function.update_self]
    · rw [hreceived]
      exact h.arrived
    · rw [hreceived]
      exact fun ho => h.all (hopen ho)
    · exact hwritten _ h.read
  · refine ⟨h.ids, ?_, ?_, ?_⟩ <;> simp only [Pipeline.set, Function.update_of_ne (Ne.symm hi)]
    · exact h.arrived
    · exact h.all
    · exact h.read

theorem Served.set_succ (h : c.Served) : (c.set (i + 1) m).Served := by
  have hne : 0 ≠ i + 1 := (Nat.succ_ne_zero i).symm
  refine ⟨h.ids, ?_, ?_, ?_⟩ <;> simp only [Pipeline.set, Function.update_of_ne hne]
  · exact h.arrived
  · exact h.all
  · exact h.read

/-- What the steps keep of the chain. -/
structure Invariant (c : Pipeline) : Prop where
  kept : Kept c.nodes
  served : c.Served

/-- One worker changes, and neither what it got nor what of its results is unread. -/
theorem Invariant.set (h : c.Invariant) (hn : n.InOrder) (hns : n.Sending)
    (hlink : Linked n (c.nodes (i + 1))) (hopen : n.isOpen = true → (c.nodes i).isOpen = true)
    (hreceived : n.received = (c.nodes i).received)
    (hwritten : ∀ read, (c.nodes i).written = read ++ (c.nodes i).unread →
      n.written = read ++ n.unread) : (c.set i n).Invariant :=
  ⟨set_kept h.kept hn hns hlink fun _ _ hl => hl.right hopen hreceived hwritten,
    h.served.set hopen hreceived hwritten⟩

/-- A worker that answers nothing and gets nothing. -/
theorem Invariant.quiet (h : c.Invariant) (hns : n.Sending)
    (hlink : Linked n (c.nodes (i + 1))) (hopen : n.isOpen = true → (c.nodes i).isOpen = true)
    (hreceived : n.received = (c.nodes i).received) (hwritten : n.written = (c.nodes i).written)
    (hunread : n.unread = (c.nodes i).unread)
    (howed : n.isOpen = true → n.owed = (c.nodes i).owed) : (c.set i n).Invariant := by
  refine h.set ((h.kept.order i).keep hreceived hwritten hopen howed) hns hlink hopen hreceived ?_
  intro read hread
  rw [hwritten, hunread]
  exact hread

/-- A worker that writes the answer that is due next. -/
theorem Invariant.answers {id : UInt64} (h : c.Invariant)
    (hns : n.Sending) (hlink : Linked (n.write id) (c.nodes (i + 1)))
    (hopen : n.isOpen = (c.nodes i).isOpen) (hreceived : n.received = (c.nodes i).received)
    (hwritten : n.written = (c.nodes i).written) (hunread : n.unread = (c.nodes i).unread)
    (howed : (c.nodes i).isOpen = true → (c.nodes i).owed = id :: n.owed) :
    (c.set i (n.write id)).Invariant := by
  refine h.set ((h.kept.order i).write hreceived hwritten hopen howed) ?_ hlink ?_ ?_ ?_
  · exact hns.keep Stage.write_handler (by simp)
  · rw [Stage.write_isOpen, hopen]
    exact fun ho => ho
  · rw [Stage.write_received, hreceived]
  · intro read hread
    refine Stage.write_unread ?_
    rw [hwritten, hunread]
    exact hread

theorem Invariant.close (h : c.Invariant) : (c.set i (c.nodes i).close).Invariant := by
  refine h.set (h.kept.order i).close ((h.kept.sending i).keep rfl fun _ hp => hp) ?_ ?_ rfl
    fun _ hread => hread
  · intro ho
    cases ho
  · intro ho
    cases ho

theorem Step.take_kept (h : c.Invariant) {p : Bytes} {rest : List Bytes}
    (idle : (c.nodes i).handler = .idle) (inbox : (c.nodes i).inbox = p :: rest) :
    (c.set i { c.nodes i with inbox := rest, handler := .working p }).Invariant := by
  refine h.quiet (.of_not fun _ _ hs => nomatch hs) ?_ (fun ho => ho) rfl rfl rfl ?_
  · refine (h.kept.linked i).left (fun ho => ho) (fun hr => hr) rfl ?_
    rw [Stage.onItsWay, Stage.onItsWay, idle]
  · intro _
    rw [Stage.owed, Stage.owed, idle, inbox]
    rfl

theorem Step.answer_kept (h : c.Invariant) {p : Bytes} {id : UInt64}
    (working : (c.nodes i).handler = .working p) (answers : Answers p (.direct id))
    (settled : (c.nodes i).isOpen = true → (c.nodes i).Settled) :
    (c.set i (Stage.write { c.nodes i with handler := .idle } id)).Invariant := by
  refine h.answers (.of_not fun _ _ hs => nomatch hs) ?_ rfl rfl rfl rfl ?_
  · refine (h.kept.linked i).left ?_ ?_ ?_ ?_
    · simp
    · simp
    · simp
    · rw [Stage.onItsWay, Stage.onItsWay, working, Stage.write_handler]
  · intro ho
    obtain ⟨hqueue, hrelay⟩ := settled ho
    rw [Stage.owed, Stage.owed, working, hqueue, hrelay, answers.direct_requestId]
    rfl

theorem Step.blind_kept (h : c.Invariant) {p : Bytes} {rest : List Bytes}
    (idle : (c.nodes i).handler = .idle) (inbox : (c.nodes i).inbox = p :: rest)
    (orderly : (c.nodes i).isOpen = true → (c.nodes i).Settled ∧
      ∀ p ∈ (c.nodes i).inbox.head?, requestIdOf p = 0) :
    (c.set i (Stage.write { c.nodes i with inbox := rest } 0)).Invariant := by
  refine h.answers (.of_not fun _ _ hs => ?_) ?_ rfl rfl rfl rfl ?_
  · rw [idle] at hs
    cases hs
  · refine (h.kept.linked i).left ?_ ?_ ?_ ?_
    · simp
    · simp
    · simp
    · rw [Stage.onItsWay, Stage.onItsWay, Stage.write_handler]
  · intro ho
    obtain ⟨⟨hqueue, hrelay⟩, hzero⟩ := orderly ho
    rw [inbox] at hzero
    have hp : requestIdOf p = 0 := hzero p rfl
    rw [Stage.owed, Stage.owed, idle, inbox, hqueue, hrelay]
    simp [hp]

theorem Step.enqueue_kept (h : c.Invariant) {p : Bytes} {id : UInt64} {frame : Option Bytes}
    (working : (c.nodes i).handler = .working p) (answers : Answers p (.forward id frame)) :
    (c.set i { c.nodes i with
      handler := .sending id frame, pending := (c.nodes i).pending ++ [id] }).Invariant := by
  obtain ⟨hid, hframe⟩ := answers.forward_requestId
  refine h.quiet ⟨?_, ?_⟩ ?_ (fun ho => ho) rfl rfl rfl ?_
  · intro id' frame' hs q hq
    cases hs
    rw [List.getLast?_concat] at hq
    cases hq
    rfl
  · intro id' s hs
    cases hs
    exact hframe s rfl
  · intro hn hm hr
    obtain ⟨read, hread, hqueue⟩ := h.kept.linked i hn hm hr
    refine ⟨read, hread, ?_⟩
    rw [Stage.onItsWay, working] at hqueue
    rw [List.append_nil] at hqueue
    rw [Stage.onItsWay, hqueue, List.append_assoc]
  · intro _
    rw [Stage.owed, Stage.owed, working, hid]
    simp

theorem Step.send_kept (h : c.Invariant) {id : UInt64} {s : Bytes}
    (sending : (c.nodes i).handler = .sending id (some s)) :
    ((c.set (i + 1) ((c.nodes (i + 1)).receive (s.drop (sizeof FrameHeader)))).set i
      { c.nodes i with handler := .idle }).Invariant := by
  have hid := (h.kept.sending i).frame id s sending
  have hin := h.kept.order i
  have hsend := h.kept.sending (i + 1)
  refine ⟨?_, ?_⟩
  · refine set₂_kept h.kept (hin.keep rfl rfl (fun ho => ho) fun _ => ?_)
      (.of_not fun _ _ hs => nomatch hs) ((h.kept.order (i + 1)).receive _) ?_ ?_ ?_ ?_
    · rw [Stage.owed, Stage.owed, sending]
    · exact hsend.keep Stage.receive_handler (by simp)
    · intro hn hm hr
      rw [Stage.receive_isOpen] at hm
      obtain ⟨read, hread, hqueue⟩ := h.kept.linked i hn hm hr
      refine ⟨read, ?_, ?_⟩
      · rw [Stage.receive_written, Stage.receive_unread]
        exact hread
      · rw [Stage.onItsWay, sending] at hqueue
        rw [Stage.receive, if_pos hm, Stage.onItsWay]
        dsimp only
        rw [List.map_append, List.append_nil, List.map_cons, List.map_nil, hid]
        exact hqueue
    · intro _ l hl
      exact hl.right (fun ho => ho) rfl fun _ hread => hread
    · intro r hr
      refine hr.left ?_ ?_ ?_ ?_
      · simp
      · simp
      · simp
      · rw [Stage.onItsWay, Stage.onItsWay, Stage.receive_handler]
  · have hnode : (c.set (i + 1) ((c.nodes (i + 1)).receive (s.drop (sizeof FrameHeader)))).nodes i =
        c.nodes i := Function.update_of_ne (Nat.succ_ne_self i).symm _ _
    refine h.served.set_succ.set ?_ ?_ ?_ <;> rw [hnode]
    · exact fun ho => ho
    · exact fun _ hread => hread

theorem Step.sendFails_kept (h : c.Invariant) {id : UInt64} {frame : Option Bytes}
    (sending : (c.nodes i).handler = .sending id frame)
    (orderly : (c.nodes i).isOpen = true → (c.nodes i).pending.length = 1 ∧
      (c.nodes i).relay = none) :
    (c.set i (Stage.close (Stage.write
      { c.nodes i with handler := .idle, pending := (c.nodes i).pending.erase id } id))).Invariant := by
  have hlast := (h.kept.sending i).last id frame sending
  refine h.set (Stage.InOrder.close ((h.kept.order i).write rfl rfl rfl ?_))
    (.of_not fun _ _ hs => ?_) (fun ho => nomatch ho) (fun ho => nomatch ho) ?_ ?_
  · intro ho
    obtain ⟨hlen, hrelay⟩ := orderly ho
    obtain ⟨q, hq⟩ := List.length_eq_one_iff.mp hlen
    rw [hq] at hlast
    have hqid : q = id := hlast q rfl
    rw [Stage.owed, Stage.owed, sending, hrelay, hq, hqid]
    simp
  · simp [Stage.close] at hs
  · exact Stage.write_received
  · intro read hread
    exact Stage.write_unread hread

theorem Step.relayPop_kept (h : c.Invariant) {got expected : UInt64} {rest pending : List UInt64}
    (free : (c.nodes i).relay = none) (unread : (c.nodes (i + 1)).unread = got :: rest)
    (pop : (c.nodes i).pending = expected :: pending) :
    ((c.set (i + 1) { c.nodes (i + 1) with unread := rest }).set i
      { c.nodes i with pending, relay := some (expected, got = expected) }).Invariant := by
  have hsend := h.kept.sending i
  refine ⟨?_, ?_⟩
  · refine set₂_kept h.kept ((h.kept.order i).keep rfl rfl (fun ho => ho) fun _ => ?_)
      (hsend.keep rfl fun q hq => ?_)
      ((h.kept.order (i + 1)).keep rfl rfl (fun ho => ho) fun _ => rfl)
      ((h.kept.sending (i + 1)).keep rfl fun _ hq => hq) ?_ ?_ ?_
    · rw [Stage.owed, Stage.owed, free, pop]
      rfl
    · rw [pop, List.getLast?_cons]
      dsimp only at hq
      rw [Option.mem_def.mp hq]
      rfl
    · intro hn hm hr
      obtain ⟨read, hread, hqueue⟩ := h.kept.linked i hn hm fun id hid => by
        rw [free] at hid
        cases hid
      have hgot : got = expected := by
        have hvalid := hr expected
        simpa using hvalid
      refine ⟨read ++ [got], ?_, ?_⟩
      · rw [hread, unread, List.append_assoc]
        rfl
      · rw [Stage.onItsWay] at hqueue ⊢
        dsimp only
        rw [hqueue, pop, hgot, List.append_assoc]
        rfl
    · intro _ l hl
      exact hl.right (fun ho => ho) rfl fun _ hread => hread
    · intro r hr
      exact hr.left (fun ho => ho) (fun hr => hr) rfl rfl
  · have hnode : (c.set (i + 1) { c.nodes (i + 1) with unread := rest }).nodes i = c.nodes i :=
      Function.update_of_ne (Nat.succ_ne_self i).symm _ _
    refine h.served.set_succ.set ?_ ?_ ?_ <;> rw [hnode]
    · exact fun ho => ho
    · exact fun _ hread => hread

theorem Step.relayEnd_kept (h : c.Invariant) {expected : UInt64} {pending : List UInt64}
    (free : (c.nodes i).relay = none) (pop : (c.nodes i).pending = expected :: pending) :
    (c.set i { c.nodes i with pending, relay := some (expected, false) }).Invariant := by
  refine h.quiet ((h.kept.sending i).keep rfl fun q hq => ?_) ?_ (fun ho => ho) rfl rfl rfl ?_
  · rw [pop, List.getLast?_cons]
    dsimp only at hq
    rw [Option.mem_def.mp hq]
    rfl
  · intro _ _ hr
    exact absurd rfl (hr expected)
  · intro _
    rw [Stage.owed, Stage.owed, free, pop]
    rfl

theorem Step.relayWrite_kept (h : c.Invariant) {expected : UInt64} {valid : Bool}
    (relay : (c.nodes i).relay = some (expected, valid)) :
    (c.set i (if valid then Stage.write { c.nodes i with relay := none } expected
      else Stage.close (Stage.write { c.nodes i with relay := none } expected))).Invariant := by
  have hns : ({ c.nodes i with relay := none } : Stage).Sending :=
    (h.kept.sending i).keep rfl fun _ hq => hq
  have howed : (c.nodes i).owed = expected :: ({ c.nodes i with relay := none } : Stage).owed := by
    rw [Stage.owed, Stage.owed, relay]
    rfl
  cases valid with
  | true =>
    rw [if_pos rfl]
    refine h.answers hns ?_ rfl rfl rfl rfl fun _ => howed
    refine (h.kept.linked i).left ?_ ?_ ?_ ?_
    · simp
    · intro _ id hid
      rw [relay] at hid
      cases hid
    · simp
    · rw [Stage.onItsWay, Stage.onItsWay, Stage.write_handler]
  | false =>
    rw [if_neg Bool.false_ne_true]
    refine h.set (Stage.InOrder.close ((h.kept.order i).write rfl rfl rfl fun _ => howed)) ?_
      (fun ho => nomatch ho) (fun ho => nomatch ho) ?_ ?_
    · exact hns.keep Stage.write_handler (by simp [Stage.close])
    · exact Stage.write_received
    · intro read hread
      exact Stage.write_unread hread

/-! ## The coordinator -/

theorem Step.submit_kept (h : c.Invariant) {p : Bytes}
    (next : requestIdOf p = c.firstRequestId + UInt64.ofNat c.sent.length) :
    Invariant { c.set 0 ((c.nodes 0).receive p) with sent := c.sent ++ [requestIdOf p] } := by
  refine ⟨?_, ?_, ?_, ?_, ?_⟩
  · refine set_kept h.kept ((h.kept.order 0).receive p) ?_ ?_ ?_
    · exact (h.kept.sending 0).keep Stage.receive_handler (by simp)
    · refine (h.kept.linked 0).left ?_ ?_ ?_ ?_
      · simp
      · simp
      · simp
      · rw [Stage.onItsWay, Stage.onItsWay, Stage.receive_handler]
    · intro hzero
      exact absurd rfl hzero
  · intro i id hid
    dsimp only at hid ⊢
    rw [List.getElem?_append] at hid
    split at hid
    · exact h.served.ids i id hid
    · next hi =>
      have hlen : i = c.sent.length := by
        by_contra hne
        rw [List.getElem?_eq_none (by simp; omega)] at hid
        cases hid
      rw [hlen, Nat.sub_self] at hid
      cases hid
      rw [hlen]
      exact next
  · simp only [Pipeline.set, Function.update_self]
    rw [Stage.receive]
    split
    · next ho =>
      dsimp only
      rw [List.map_append, h.served.all ho]
      exact List.prefix_rfl
    · exact h.served.arrived.trans (List.prefix_append _ _)
  · simp only [Pipeline.set, Function.update_self]
    intro ho
    rw [Stage.receive_isOpen] at ho
    rw [Stage.receive, if_pos ho]
    dsimp only
    rw [List.map_append, h.served.all ho]
    rfl
  · simp only [Pipeline.set, Function.update_self, Stage.receive_written, Stage.receive_unread]
    exact h.served.read

theorem Step.collect_kept (h : c.Invariant) {id : UInt64} {rest : List UInt64}
    (unread : (c.nodes 0).unread = id :: rest) :
    Invariant { c.set 0 { c.nodes 0 with unread := rest } with answers := c.answers ++ [id] } := by
  refine ⟨?_, ?_, ?_, ?_, ?_⟩
  · refine set_kept h.kept ((h.kept.order 0).keep rfl rfl (fun ho => ho) fun _ => rfl)
      ((h.kept.sending 0).keep rfl fun _ hq => hq) ?_ fun hzero => absurd rfl hzero
    exact (h.kept.linked 0).left (fun ho => ho) (fun hr => hr) rfl rfl
  · exact h.served.ids
  · simp only [Pipeline.set, Function.update_self]
    exact h.served.arrived
  · simp only [Pipeline.set, Function.update_self]
    exact h.served.all
  · simp only [Pipeline.set, Function.update_self]
    rw [h.served.read, unread, List.append_assoc]
    rfl

/-! ## Runs -/

theorem Step.kept (h : Step depth c e c') (horderly : c.Orderly e) (hc : c.Invariant) :
    c'.Invariant := by
  cases h with
  | submit next => exact submit_kept hc next
  | collect unread => exact collect_kept hc unread
  | take idle inbox => exact take_kept hc idle inbox
  | blind idle inbox => exact blind_kept hc idle inbox horderly
  | answer working answers => exact answer_kept hc working answers horderly
  | enqueue working answers room => exact enqueue_kept hc working answers
  | send sending => exact send_kept hc sending
  | sendFails sending => exact sendFails_kept hc sending horderly
  | relayPop free unread pop => exact relayPop_kept hc free unread pop
  | relayEnd free pop => exact relayEnd_kept hc free pop
  | relayWrite relay => exact relayWrite_kept hc relay
  | close => exact hc.close

theorem Invariant.start (firstRequestId : UInt64) : (start firstRequestId).Invariant := by
  refine ⟨⟨fun i => ⟨List.prefix_rfl, fun _ => rfl⟩, fun i => .of_not fun _ _ hs => (nomatch hs),
    fun i _ _ _ => ⟨[], rfl, rfl⟩⟩, fun i id hid => ?_, List.prefix_rfl, fun _ => rfl, rfl⟩
  cases hid

/-- Steps of the threads that all meet a condition on the state in front of them. -/
inductive Run (P : Pipeline → Event → Prop) (depth : Nat) (firstRequestId : UInt64) :
    Pipeline → Prop
  | start : Run P depth firstRequestId (start firstRequestId)
  | step {c c' : Pipeline} {e : Event} (run : Run P depth firstRequestId c) (holds : P c e)
    (step : Step depth c e c') : Run P depth firstRequestId c'

theorem Run.kept {firstRequestId : UInt64} (h : Run Orderly depth firstRequestId c) :
    c.Invariant := by
  induction h with
  | start => exact .start firstRequestId
  | step _ orderly step ih => exact step.kept orderly ih

theorem Run.first {P : Pipeline → Event → Prop} {firstRequestId : UInt64}
    (h : Run P depth firstRequestId c) : c.firstRequestId = firstRequestId := by
  induction h with
  | start => rfl
  | step _ _ step ih =>
    rw [← ih]
    cases step <;> rfl

/-- A relay reads the result of the request that it pops. -/
theorem Invariant.relay_match (h : c.Invariant) {got expected : UInt64} {rest pending : List UInt64}
    (hn : (c.nodes i).isOpen = true) (hm : (c.nodes (i + 1)).isOpen = true)
    (hr : ∀ id, (c.nodes i).relay ≠ some (id, false))
    (unread : (c.nodes (i + 1)).unread = got :: rest)
    (pop : (c.nodes i).pending = expected :: pending) : got = expected := by
  obtain ⟨read, hread, hqueue⟩ := h.kept.linked i hn hm hr
  obtain ⟨later, hlater⟩ := (h.kept.order (i + 1)).results
  rw [← hlater, hread, unread, pop, List.append_assoc, List.append_assoc] at hqueue
  exact (List.cons.inj (List.append_cancel_left hqueue)).1

end Pipeline

/-- A frame of one token for a route of two workers. -/
def twoHopPayload (requestId flags pos0 token : UInt32) (prefixHash : UInt64) : Bytes :=
  let resultHash := distTokenHashUpdateSpan prefixHash [token]
  toWire { (default : WorkFixed) with
    requestLo := requestId
    prefixHashHi := distU64Hi prefixHash
    prefixHashLo := distU64Lo prefixHash
    resultHashHi := distU64Hi resultHash
    resultHashLo := distU64Lo resultHash
    pos0, nTokens := 1, flags, tokenBytes := 4, routeCount := 2, routeBytes := 54 } ++
  (putU32 token ++ (toWire (⟨1, 1, 0, 0, 0⟩ : RouteFixed) ++ lit "a" ++
    (toWire (⟨1, 1, 1, 1, 0⟩ : RouteFixed) ++ lit "b" ++ toWire routeReturnUpstreamFixed)))

/-- The first worker of the route. -/
def frontWorker : WorkerState := ⟨0, 0, 0, false, 8, 2, 10, 1, .deepseek, []⟩

def firstPayload : Bytes := twoHopPayload 1 workFResetSession 0 1 tokenHashInit
def secondPayload : Bytes := twoHopPayload 2 0 1 2 (distTokenHashPrefix [1])

set_option maxRecDepth 8192 in
theorem firstPayload_forward : ∃ s, Answers firstPayload (.forward 1 (some s)) := by
  refine ⟨_, @Answers.forward plainNarrow frontWorker { fineEnv with eval := .done [0, 0, 0, 0] }
    firstPayload _ _ _ _ _ rfl rfl⟩

set_option maxRecDepth 8192 in
/-- The evaluation of the second frame fails. -/
theorem secondPayload_error : Answers secondPayload (.direct 2) :=
  @Answers.error plainNarrow
    (processWorkPayload plainNarrow frontWorker { fineEnv with eval := .done [0, 0, 0, 0] }
      firstPayload).2 { fineEnv with eval := .late (lit "evaluation failed") } secondPayload _ _ rfl

/-- The first frame has been handed on, and the second one is with the handler. -/
theorem second_with_handler (P : Pipeline → Pipeline.Event → Prop)
    (hP : ∀ c e, (∀ i, e ≠ .answer i ∧ e ≠ .blind i ∧ e ≠ .sendFails i) → P c e) :
    ∃ c, Pipeline.Run P 4 1 c ∧ (c.nodes 0).handler = .working secondPayload ∧
      (c.nodes 0).pending = [1] ∧ (c.nodes 0).written = [] ∧ (c.nodes 0).isOpen = true ∧
      (c.nodes 0).received = [firstPayload, secondPayload] := by
  obtain ⟨s, hforward⟩ := firstPayload_forward
  have hfirst : requestIdOf firstPayload = 1 := hforward.forward_requestId.1.symm
  have hsecond : requestIdOf secondPayload = 2 := secondPayload_error.direct_requestId.symm
  refine ⟨_, .step (.step (.step (.step (.step (.step .start (hP _ _ ?_)
    (.submit hfirst)) (hP _ _ ?_)
    (.submit hsecond)) (hP _ _ ?_) (.take (i := 0) rfl rfl)) (hP _ _ ?_)
    (.enqueue (i := 0) rfl hforward (.inr (by decide))))
    (hP _ _ ?_) (.send (i := 0) rfl)) (hP _ _ ?_) (.take (i := 0) rfl rfl), rfl, rfl, rfl, rfl, rfl⟩
  all_goals exact fun i => ⟨(nomatch ·), (nomatch ·), (nomatch ·)⟩

end Ds4.Dist
