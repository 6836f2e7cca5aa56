import Mathlib.Data.List.Range
import Ds4.Dist.PrefillPipeline

/-!
# The runs of pipelined prefill

`Coherent` holds in every state of a run, whatever the order of the threads: what has been sent and
what waits in the ring are together the frames of the chunks that were submitted. A rank drops with
every step, so that a run comes to an end, and it ends with the logits of the last chunk.
-/

namespace Ds4.Dist
open C Wire

namespace PrefillJob
variable {j : PrefillJob} {i k : Nat}

/-! ## What holds in every state -/

/-- The chunks that have been evaluated and not yet counted. -/
def filled : Submit → Nat
  | .enqueue _ => 1
  | _ => 0

/-- There is a chunk to submit, and room for it in the window. -/
structure Room (j : PrefillJob) (window : Nat) (s : Pipelined) : Prop where
  producing : s.producerDone = false
  more : s.submitted < j.chunkCount
  window : s.submitted < s.completed + window

/-- What holds where the submitting thread stands. -/
def SubmitAt (j : PrefillJob) (window : Nat) (s : Pipelined) : Submit → Prop
  | .window => s.producerDone = false
  | .acquire => j.Room window s
  | .fill slot => j.Room window s ∧ slot = s.ring.tail ∧ s.ring.queued < j.depth
  | .enqueue slot => j.Room window s ∧ slot = s.ring.tail ∧ s.ring.queued < j.depth ∧
      s.ring.slots slot = j.frame s.submitted
  | .joinSender => s.producerDone = true ∧ s.submitted = j.chunkCount
  | .joinReader => s.submitted = j.chunkCount ∧ s.sender = .exited
  | .returned r => r = .ok (j.logits (j.chunkCount - 1)) ∧ s.wire = j.frames j.chunkCount

/-- What holds where the sender stands. -/
def SenderAt (s : Pipelined) : Sender → Prop
  | .idle => True
  | .sending => s.ring.queued ≠ 0
  | .exited => s.ring.queued = 0 ∧ s.producerDone = true

structure Coherent (j : PrefillJob) (window : Nat) (s : Pipelined) : Prop where
  submitted_le : s.submitted ≤ j.chunkCount
  pos : s.pos = j.chunkPos s.submitted
  requestId : s.requestId = j.firstRequestId + UInt64.ofNat s.submitted
  prefixHash : s.nextPrefixHash = distTokenHashPrefix (j.prompt.take (j.chunkPos s.submitted))
  chunks : s.chunks = (List.range (s.submitted + filled s.submit)).map j.chunkTokens
  frames : ∃ xs, s.ring.Holds j.depth xs ∧ s.wire ++ xs = j.frames s.submitted
  inWindow : s.submitted ≤ s.completed + window
  completed_le : s.completed ≤ s.wire.length
  reader : s.readerDone = if s.completed = j.chunkCount then
    some (.ok (j.frameAnswer (j.chunkCount - 1))) else none
  submit : j.SubmitAt window s s.submit
  sender : SenderAt s s.sender

section coherent
variable {window : Nat} {s t : Pipelined}

theorem ite_ne_zero_pos (n : Nat) : 0 < if n ≠ 0 then n else 1 := by
  split <;> omega

theorem depth_pos : 0 < j.depth := ite_ne_zero_pos _

theorem coherent_start : j.Coherent window j.pipelinedStart where
  submitted_le := Nat.zero_le _
  pos := chunkPos_zero.symm
  requestId := (UInt64.add_zero _).symm
  prefixHash := congrArg (fun pos => distTokenHashPrefix (j.prompt.take pos)) chunkPos_zero.symm
  chunks := rfl
  frames := ⟨[], .empty depth_pos default, rfl⟩
  inWindow := Nat.zero_le _
  completed_le := Nat.le_refl 0
  reader := (if_neg chunkCount_pos.ne).symm
  submit := rfl
  sender := trivial

theorem Coherent.wire_eq (h : j.Coherent window s) : s.wire = j.frames s.wire.length := by
  obtain ⟨xs, _, hwire⟩ := h.frames
  have hle : s.wire.length ≤ s.submitted := by
    rw [← length_frames (j := j) (k := s.submitted), ← hwire, List.length_append]
    exact Nat.le_add_right _ _
  rw [← take_frames hle, ← hwire, List.take_left]

theorem Coherent.wire_le (h : j.Coherent window s) : s.wire.length ≤ s.submitted := by
  obtain ⟨xs, _, hwire⟩ := h.frames
  rw [← length_frames (j := j) (k := s.submitted), ← hwire, List.length_append]
  exact Nat.le_add_right _ _

/-- The frames that have been sent are those the reader waits for. -/
theorem Coherent.answer_sent {w : RemoteWork} (h : j.Coherent window s)
    (sent : s.wire[s.completed]? = some w) :
    s.completed < j.chunkCount ∧ j.answer (s.wire.take s.completed) w = j.frameAnswer s.completed := by
  have hlt := (List.getElem?_eq_some_iff.mp sent).1
  have hle := h.wire_le
  have hcount := h.submitted_le
  rw [h.wire_eq, getElem?_frames, if_pos hlt] at sent
  cases sent
  refine ⟨by omega, ?_⟩
  rw [h.wire_eq, take_frames hlt.le]
  rfl

/-- The work in front of the submitting thread is the frame of its chunk. -/
theorem Coherent.slotWork_eq (h : j.Coherent window s) {slot : Nat}
    (hsubmit : s.submit = .fill slot) (more : s.submitted < j.chunkCount) {resultHash : UInt64}
    (hash : j.expectedHashes[s.submitted]? = some resultHash) :
    j.slotWork s resultHash = j.frame s.submitted := by
  rw [getElem?_expectedHashes more] at hash
  cases hash
  have hchunks : s.chunks = (List.range s.submitted).map j.chunkTokens := by
    rw [h.chunks, hsubmit]
    rfl
  have hack : decide (j.chunkPos s.submitted + min (j.spanEnd - j.chunkPos s.submitted) j.chunkCap <
      j.spanEnd) = decide (s.submitted + 1 < j.chunkCount) := by
    rw [← chunkPos_succ]
    exact decide_eq_decide.mpr chunkPos_succ_lt
  have hreset : decide (j.chunkPos s.submitted = j.spanStart) = decide (s.submitted = 0) :=
    decide_eq_decide.mpr chunkPos_eq_spanStart
  rw [slotWork, h.pos, h.requestId, h.prefixHash, hchunks, ← chunkTokens_eq, ← map_range_succ, hack, hreset]
  rfl

/-! ## The submitting thread -/

/-- The reader is not done while there are chunks left. -/
theorem Coherent.not_readerDone (h : j.Coherent window s) (more : s.submitted < j.chunkCount) :
    s.readerDone = none := by
  have hle := h.completed_le
  have hwire := h.wire_le
  rw [h.reader, if_neg (by omega)]

theorem Coherent.more (h : j.Coherent window s) : s.pos < j.spanEnd ↔ s.submitted < j.chunkCount := by
  rw [h.pos]
  constructor
  · intro hlt
    refine h.submitted_le.lt_of_ne fun heq => ?_
    rw [heq, chunkPos_chunkCount] at hlt
    exact Nat.lt_irrefl _ hlt
  · exact chunkPos_lt

theorem Coherent.windowOpens (h : j.Coherent window s) (submit : s.submit = .window)
    (more : s.pos < j.spanEnd) (room : s.submitted < s.completed + window) :
    j.Coherent window { s with submit := .acquire } := by
  have hchunks := h.chunks
  have hsubmit := h.submit
  rw [submit] at hchunks hsubmit
  exact { h with
    chunks := hchunks
    submit := ⟨hsubmit, h.more.mp more, room⟩ }

theorem Coherent.acquires (h : j.Coherent window s) (submit : s.submit = .acquire)
    (free : s.ring.queued ≠ j.depth) :
    j.Coherent window { s with submit := .fill s.ring.tail } := by
  obtain ⟨xs, hholds, _⟩ := h.frames
  have hroom : s.ring.queued < j.depth := by
    have hle := hholds.room
    rw [← hholds.queued] at hle
    exact hle.lt_of_ne free
  have hchunks := h.chunks
  have hsubmit := h.submit
  rw [submit] at hchunks hsubmit
  obtain ⟨hproducing, hmore, hwindow⟩ := hsubmit
  exact { h with
    chunks := hchunks
    submit := ⟨⟨hproducing, hmore, hwindow⟩, rfl, hroom⟩ }

theorem Coherent.fills (h : j.Coherent window s) {slot : Nat} {resultHash : UInt64}
    (submit : s.submit = .fill slot)
    (hash : j.expectedHashes[s.submitted]? = some resultHash) :
    j.Coherent window { s with
      ring := { s.ring with slots := Function.update s.ring.slots slot (j.slotWork s resultHash) }
      chunks := s.chunks ++ [(j.slotWork s resultHash).tokens]
      submit := .enqueue slot } := by
  have hsubmit := h.submit
  have hchunks := h.chunks
  rw [submit] at hsubmit hchunks
  obtain ⟨hroom, htail, hqueued⟩ := hsubmit
  obtain ⟨xs, hholds, hwire⟩ := h.frames
  have hwork := h.slotWork_eq submit hroom.more hash
  subst htail
  exact { h with
    chunks := by
      dsimp only
      rw [hchunks, hwork]
      exact (map_range_succ _ _).symm
    frames := ⟨xs, hholds.put hqueued _, hwire⟩
    submit := ⟨⟨hroom.1, hroom.2, hroom.3⟩, rfl, hqueued, by
      dsimp only
      rw [hwork, Function.update_self]⟩
    sender := by
      have hsender := h.sender
      dsimp only
      cases hs : s.sender with
      | idle => trivial
      | sending =>
        rw [hs] at hsender
        exact hsender
      | exited =>
        rw [hs] at hsender
        exact hsender }

theorem Coherent.enqueues (h : j.Coherent window s) {slot : Nat} (submit : s.submit = .enqueue slot) :
    j.Coherent window { s with
      ring := s.ring.push j.depth
      requestId := s.requestId + 1
      submitted := s.submitted + 1
      nextPrefixHash := (s.ring.slots slot).resultHash
      pos := s.pos + min (j.spanEnd - s.pos) j.chunkCap
      submit := .window } := by
  have hsubmit := h.submit
  have hchunks := h.chunks
  rw [submit] at hsubmit hchunks
  obtain ⟨hroom, htail, hqueued, hslot⟩ := hsubmit
  obtain ⟨xs, hholds, hwire⟩ := h.frames
  rw [htail] at hslot
  exact {
    submitted_le := hroom.more
    pos := by
      dsimp only
      rw [chunkPos_succ, h.pos]
    requestId := by
      dsimp only
      rw [h.requestId, requestId_succ]
    prefixHash := by
      dsimp only
      rw [htail, hslot]
      rfl
    chunks := hchunks
    frames := by
      refine ⟨xs ++ [j.frame s.submitted], hholds.push hqueued hslot, ?_⟩
      dsimp only
      rw [frames_succ, ← hwire, List.append_assoc]
    inWindow := hroom.window
    completed_le := h.completed_le
    reader := h.reader
    submit := hroom.producing
    sender := by
      have hsender := h.sender
      dsimp only
      cases hs : s.sender with
      | idle => trivial
      | sending => exact Nat.succ_ne_zero _
      | exited =>
        rw [hs] at hsender
        have hproducing := hroom.producing
        rw [hsender.2] at hproducing
        cases hproducing }

theorem Coherent.finishes (h : j.Coherent window s) (submit : s.submit = .window)
    (last : ¬s.pos < j.spanEnd) :
    j.Coherent window { s with producerDone := true, submit := .joinSender } := by
  have hchunks := h.chunks
  rw [submit] at hchunks
  have hcount : s.submitted = j.chunkCount := by
    have hle := h.submitted_le
    rw [h.more] at last
    omega
  exact { h with
    chunks := hchunks
    submit := ⟨rfl, hcount⟩
    sender := by
      have hsender := h.sender
      dsimp only
      cases hs : s.sender with
      | idle => trivial
      | sending =>
        rw [hs] at hsender
        exact hsender
      | exited =>
        rw [hs] at hsender
        exact ⟨hsender.1, rfl⟩ }

theorem Coherent.joinsSender (h : j.Coherent window s) (submit : s.submit = .joinSender)
    (sender : s.sender = .exited) : j.Coherent window { s with submit := .joinReader } := by
  have hchunks := h.chunks
  have hsubmit := h.submit
  rw [submit] at hchunks hsubmit
  exact { h with
    chunks := hchunks
    submit := ⟨hsubmit.2, sender⟩ }

/-- When the sender has left, every frame is on its way. -/
theorem Coherent.wire_exited (h : j.Coherent window s) (sender : s.sender = .exited) :
    s.wire = j.frames s.submitted := by
  obtain ⟨xs, hholds, hwire⟩ := h.frames
  have hsender := h.sender
  rw [sender] at hsender
  have hnil : xs = [] := by
    apply List.eq_nil_of_length_eq_zero
    rw [← hholds.queued]
    exact hsender.1
  rw [hnil, List.append_nil] at hwire
  exact hwire

theorem Coherent.joinsReader (h : j.Coherent window s) {r : Except Bytes ResultReply}
    (submit : s.submit = .joinReader) (done : s.readerDone = some r) :
    j.Coherent window { s with submit := .returned (j.finalLogits r) } := by
  have hchunks := h.chunks
  have hsubmit := h.submit
  have hreader := h.reader
  rw [submit] at hchunks hsubmit
  have hr : r = .ok (j.frameAnswer (j.chunkCount - 1)) := by
    rw [done] at hreader
    split at hreader
    · exact Option.some.inj hreader
    · cases hreader
  exact { h with
    chunks := hchunks
    submit := by
      refine ⟨?_, ?_⟩
      · rw [hr, finalLogits_frame]
      · exact (h.wire_exited hsubmit.2).trans (congrArg j.frames hsubmit.1) }

/-! ## The sender and the reader -/

/-- A step of another thread, as the submitting thread sees it. -/
structure Unnoticed (s t : Pipelined) : Prop where
  producerDone : t.producerDone = s.producerDone
  submitted : t.submitted = s.submitted
  tail : t.ring.tail = s.ring.tail
  slots : t.ring.slots = s.ring.slots
  queued : t.ring.queued ≤ s.ring.queued
  completed : s.completed ≤ t.completed

theorem Room.unnoticed (h : j.Room window s) (u : Unnoticed s t) : j.Room window t := by
  have hcompleted := u.completed
  have hwindow := h.window
  refine ⟨u.producerDone.trans h.producing, ?_, ?_⟩
  · rw [u.submitted]
    exact h.more
  · rw [u.submitted]
    omega

theorem SubmitAt.unnoticed {p : Submit} (h : j.SubmitAt window s p) (u : Unnoticed s t)
    (hjoin : p = .joinReader → t.sender = .exited)
    (hreturned : ∀ r, p = .returned r → t.wire = s.wire) : j.SubmitAt window t p := by
  have hqueued := u.queued
  cases p with
  | window => exact u.producerDone.trans h
  | acquire => exact Room.unnoticed h u
  | fill slot =>
    obtain ⟨hroom, htail, hfree⟩ := h
    exact ⟨hroom.unnoticed u, htail.trans u.tail.symm, by omega⟩
  | enqueue slot =>
    obtain ⟨hroom, htail, hfree, hslot⟩ := h
    refine ⟨hroom.unnoticed u, htail.trans u.tail.symm, by omega, ?_⟩
    rw [u.slots, u.submitted]
    exact hslot
  | joinSender => exact ⟨u.producerDone.trans h.1, u.submitted.trans h.2⟩
  | joinReader => exact ⟨u.submitted.trans h.1, hjoin rfl⟩
  | returned r => exact ⟨h.1, (hreturned r rfl).trans h.2⟩

/-- The submitting thread waits for the reader when the sender has left. -/
theorem Coherent.joinReader_exited (h : j.Coherent window s) (submit : s.submit = .joinReader) :
    s.sender = .exited := by
  have hsubmit := h.submit
  rw [submit] at hsubmit
  exact hsubmit.2

theorem Coherent.senderStarts (h : j.Coherent window s) (sender : s.sender = .idle)
    (queued : s.ring.queued ≠ 0) : j.Coherent window { s with sender := .sending } := by
  have hbusy : s.submit ≠ .joinReader := fun hjoin =>
    absurd (sender.symm.trans (h.joinReader_exited hjoin)) (by decide)
  exact { h with
    submit := h.submit.unnoticed ⟨rfl, rfl, rfl, rfl, Nat.le_refl _, Nat.le_refl _⟩
      (fun hjoin => absurd hjoin hbusy) fun _ _ => rfl
    sender := queued }

theorem Coherent.senderExits (h : j.Coherent window s) (queued : s.ring.queued = 0)
    (done : s.producerDone = true) : j.Coherent window { s with sender := .exited } :=
  { h with
    submit := h.submit.unnoticed ⟨rfl, rfl, rfl, rfl, Nat.le_refl _, Nat.le_refl _⟩
      (fun _ => rfl) fun _ _ => rfl
    sender := ⟨queued, done⟩ }

theorem Coherent.sends (h : j.Coherent window s) (sender : s.sender = .sending) :
    j.Coherent window { s with
      wire := s.wire ++ [s.ring.front], ring := s.ring.pop j.depth, sender := .idle } := by
  have hqueued := h.sender
  rw [sender] at hqueued
  obtain ⟨xs, hholds, hwire⟩ := h.frames
  cases xs with
  | nil => exact absurd hholds.queued hqueued
  | cons w xs =>
    have hmore : s.wire.length < j.chunkCount := by
      have hlen := congrArg List.length hwire
      rw [List.length_append, List.length_cons, length_frames] at hlen
      have hle := h.submitted_le
      omega
    have hbusy : s.submit ≠ .joinReader := fun hjoin =>
      absurd (sender.symm.trans (h.joinReader_exited hjoin)) (by decide)
    have hrunning : ∀ r, s.submit ≠ .returned r := by
      intro r hreturned
      have hsubmit := h.submit
      rw [hreturned] at hsubmit
      rw [hsubmit.2, length_frames] at hmore
      exact Nat.lt_irrefl _ hmore
    exact { h with
      frames := by
        refine ⟨xs, hholds.pop, ?_⟩
        dsimp only
        rw [hholds.front, List.append_assoc]
        exact hwire
      completed_le := by
        have hle := h.completed_le
        dsimp only
        rw [List.length_append]
        omega
      submit := h.submit.unnoticed ⟨rfl, rfl, rfl, rfl, Nat.sub_le _ _, Nat.le_refl _⟩
        (fun hjoin => absurd hjoin hbusy) fun r hreturned => absurd hreturned (hrunning r)
      sender := trivial }

theorem Coherent.reads (h : j.Coherent window s) {w : RemoteWork}
    (sent : s.wire[s.completed]? = some w) :
    j.Coherent window { s with
      completed := s.completed + 1
      readerDone := if s.completed + 1 = j.chunkCount then
        some (.ok (j.answer (s.wire.take s.completed) w)) else none } := by
  have hwindow := h.inWindow
  obtain ⟨hmore, hanswer⟩ := h.answer_sent sent
  exact { h with
    inWindow := by
      dsimp only
      omega
    completed_le := (List.getElem?_eq_some_iff.mp sent).1
    reader := by
      dsimp only
      rw [hanswer]
      split
      · next heq => rw [← heq, Nat.add_sub_cancel]
      · rfl
    submit := h.submit.unnoticed ⟨rfl, rfl, rfl, rfl, Nat.le_refl _, Nat.le_succ _⟩
      (fun hjoin => h.joinReader_exited hjoin) fun _ _ => rfl }

/-! ## The runs -/

theorem Coherent.step (h : j.Coherent window s) (step : j.Step window s t) :
    j.Coherent window t := by
  cases step with
  | readerStopped submit more done => exact absurd (h.not_readerDone (h.more.mp more)) done
  | windowOpens submit more _ room => exact h.windowOpens submit more room
  | acquires submit free => exact h.acquires submit free
  | fills submit hash => exact h.fills submit hash
  | enqueues submit => exact h.enqueues submit
  | finishes submit last => exact h.finishes submit last
  | senderStarts sender queued => exact h.senderStarts sender queued
  | sends sender => exact h.sends sender
  | senderExits _ queued done => exact h.senderExits queued done
  | reads _ sent _ => exact h.reads sent
  | readFails _ sent invalid =>
    obtain ⟨hmore, hanswer⟩ := h.answer_sent sent
    rw [hanswer, readerCheck_frame hmore] at invalid
    cases invalid
  | joinsSender submit sender => exact h.joinsSender submit sender
  | joinsReader submit done => exact h.joinsReader submit done

theorem coherent_of_run (run : Relation.ReflTransGen (j.Step window) j.pipelinedStart s) :
    j.Coherent window s := by
  induction run with
  | refl => exact coherent_start
  | tail _ step ih => exact ih.step step

/-- A frame in the ring is sent. -/
theorem Coherent.sender_progress (h : j.Coherent window s) (queued : s.ring.queued ≠ 0) :
    ∃ t, j.Step window s t := by
  have hsender := h.sender
  cases hs : s.sender with
  | idle => exact ⟨_, .senderStarts hs queued⟩
  | sending => exact ⟨_, .sends hs⟩
  | exited =>
    rw [hs] at hsender
    exact absurd hsender.1 queued

/-- A result that has been sent for is read. -/
theorem Coherent.reader_progress (h : j.Coherent window s) (more : s.completed < s.wire.length) :
    ∃ t, j.Step window s t := by
  have hsent : s.wire[s.completed]? = some s.wire[s.completed] := List.getElem?_eq_getElem more
  obtain ⟨hlt, hanswer⟩ := h.answer_sent hsent
  have hrunning : s.readerDone = none := by
    rw [h.reader, if_neg hlt.ne]
  have hvalid := readerCheck_frame hlt
  rw [← hanswer] at hvalid
  exact ⟨_, .reads hrunning hsent hvalid⟩

/-- What has been submitted and not yet sent waits in the ring. -/
theorem Coherent.queued_ne_zero (h : j.Coherent window s) (more : s.wire.length < s.submitted) :
    s.ring.queued ≠ 0 := by
  obtain ⟨xs, hholds, hwire⟩ := h.frames
  have hlen := congrArg List.length hwire
  rw [List.length_append, length_frames] at hlen
  have hqueued := hholds.queued
  omega

/-- As long as the call has not returned, one of the threads can go on. -/
theorem Coherent.progress (h : j.Coherent window s) (hwindow : 0 < window)
    (running : ∀ r, s.submit ≠ .returned r) : ∃ t, j.Step window s t := by
  have hsubmit := h.submit
  have hcompleted := h.completed_le
  cases hs : s.submit with
  | window =>
    by_cases more : s.pos < j.spanEnd
    · by_cases room : s.submitted < s.completed + window
      · exact ⟨_, .windowOpens hs more (h.not_readerDone (h.more.mp more)) room⟩
      · by_cases sent : s.completed < s.wire.length
        · exact h.reader_progress sent
        · exact h.sender_progress (h.queued_ne_zero (by omega))
    · exact ⟨_, .finishes hs more⟩
  | acquire =>
    by_cases free : s.ring.queued = j.depth
    · have hdepth := depth_pos (j := j)
      exact h.sender_progress (by omega)
    · exact ⟨_, .acquires hs free⟩
  | fill slot =>
    rw [hs] at hsubmit
    exact ⟨_, .fills hs (getElem?_expectedHashes hsubmit.1.more)⟩
  | enqueue slot => exact ⟨_, .enqueues hs⟩
  | joinSender =>
    rw [hs] at hsubmit
    by_cases queued : s.ring.queued = 0
    · cases hsender : s.sender with
      | idle => exact ⟨_, .senderExits hsender queued hsubmit.1⟩
      | sending => exact ⟨_, .sends hsender⟩
      | exited => exact ⟨_, .joinsSender hs hsender⟩
    · exact h.sender_progress queued
  | joinReader =>
    rw [hs] at hsubmit
    by_cases last : s.completed = j.chunkCount
    · have hdone := h.reader
      rw [if_pos last] at hdone
      exact ⟨_, .joinsReader hs hdone⟩
    · apply h.reader_progress
      have hwire := h.wire_le
      have hcount : s.submitted = j.chunkCount := hsubmit.1
      rw [h.wire_exited hsubmit.2, length_frames]
      omega
  | returned r => exact absurd hs (running r)

/-! ## Every run ends -/

/-- What is left of the work of the submitting thread. -/
def submitRank (j : PrefillJob) (s : Pipelined) : Nat :=
  4 * (j.chunkCount - s.submitted) + match s.submit with
    | .window => 3
    | .acquire => 2
    | .fill _ => 1
    | .enqueue _ => 0
    | .joinSender => 2
    | .joinReader => 1
    | .returned _ => 0

def senderRank (j : PrefillJob) (s : Pipelined) : Nat :=
  2 * (j.chunkCount - s.wire.length) + match s.sender with
    | .idle => 2
    | .sending => 1
    | .exited => 0

def rank (j : PrefillJob) (s : Pipelined) : Nat :=
  j.submitRank s + j.senderRank s + (j.chunkCount - s.completed)

theorem Coherent.rank_lt (h : j.Coherent window s) (step : j.Step window s t) :
    j.rank t < j.rank s := by
  have hcoherent := h.step step
  have hsubmitted := hcoherent.submitted_le
  have hwire := hcoherent.wire_le
  have hcompleted := hcoherent.completed_le
  cases step with
  | readerStopped submit more done => exact absurd (h.not_readerDone (h.more.mp more)) done
  | readFails _ sent invalid =>
    obtain ⟨hmore, hanswer⟩ := h.answer_sent sent
    rw [hanswer, readerCheck_frame hmore] at invalid
    cases invalid
  | windowOpens submit | acquires submit | fills submit | finishes submit | joinsSender submit
  | joinsReader submit =>
    rw [rank, rank, submitRank, submitRank, senderRank, senderRank, submit]
    dsimp only
    omega
  | enqueues submit =>
    rw [rank, rank, submitRank, submitRank, senderRank, senderRank, submit]
    dsimp only at hsubmitted ⊢
    omega
  | senderStarts sender | senderExits sender =>
    rw [rank, rank, submitRank, submitRank, senderRank, senderRank, sender]
    dsimp only
    omega
  | sends sender =>
    rw [rank, rank, submitRank, submitRank, senderRank, senderRank, sender]
    dsimp only at hsubmitted hwire ⊢
    rw [List.length_append, List.length_singleton] at hwire ⊢
    omega
  | reads =>
    rw [rank, rank, submitRank, submitRank, senderRank, senderRank]
    dsimp only at hsubmitted hwire hcompleted ⊢
    omega

/-! ## Against the sequential path -/

/-- The work of the chunks of a span, one behind the other. -/
structure Covers (j : PrefillJob) (ws : List RemoteWork) : Prop where
  tokens : ws.flatMap (·.tokens) = (j.prompt.drop j.spanStart).take j.nTokens
  first : ∃ w, ws.head? = some w ∧ w.pos0 = j.spanStart ∧ w.requestId = j.firstRequestId ∧
    w.prefixHash = distTokenHashPrefix (j.prompt.take j.spanStart)
  next : ws.IsChain fun w w' => w'.pos0 = w.pos0 + w.tokens.length ∧
    w'.requestId = w.requestId + 1 ∧ w'.prefixHash = w.resultHash

/-- The same work, where only the result of the last chunk is asked for. -/
def acknowledged (j : PrefillJob) (ws : List RemoteWork) : List RemoteWork :=
  ws.mapIdx fun i w => { w with ackOnly := j.ack i }

theorem flatMap_chunkTokens :
    ((List.range k).flatMap j.chunkTokens) = (j.prompt.drop j.spanStart).take (j.before k) := by
  induction k with
  | zero => rw [before_zero, List.take_zero]; rfl
  | succ k ih =>
    have hle : j.before k ≤ j.before (k + 1) := by
      rw [before_succ]
      exact Nat.le_add_right _ _
    rw [List.range_succ, List.flatMap_append, ih, List.flatMap_singleton]
    conv_rhs => rw [← Nat.add_sub_cancel' hle, List.take_add, List.drop_drop]
    rfl

theorem covers_work : j.Covers ((List.range j.chunkCount).map (j.work false)) where
  tokens := by
    rw [List.flatMap_map, ← before_chunkCount]
    exact flatMap_chunkTokens
  first := by
    obtain ⟨n, hn⟩ := Nat.exists_eq_succ_of_ne_zero (chunkCount_pos (j := j)).ne'
    refine ⟨j.work false 0, ?_, chunkPos_zero, UInt64.add_zero _, ?_⟩
    · rw [hn, List.range_succ_eq_map]
      rfl
    · exact congrArg (fun pos => distTokenHashPrefix (j.prompt.take pos)) chunkPos_zero
  next := by
    rw [List.isChain_map, List.isChain_range]
    intro i _
    exact ⟨chunkPos_add_length, requestId_succ, rfl⟩

theorem acknowledged_work :
    j.acknowledged ((List.range k).map (j.work false)) = j.frames k := by
  apply List.ext_getElem?
  intro i
  rw [acknowledged, List.getElem?_mapIdx, getElem?_frames, List.getElem?_map]
  by_cases h : i < k
  · rw [List.getElem?_range h, if_pos h]
    rfl
  · rw [List.getElem?_eq_none (by rw [List.length_range]; exact Nat.le_of_not_lt h), if_neg h]
    rfl

theorem windowOf_pos (h : j.windowOf = .ok window) : 0 < window := by
  rw [windowOf, distCoordinatorPrefillWindow] at h
  split at h
  · cases h
  · cases h
    exact ite_ne_zero_pos _

/-- What waits in the ring stays as it is. -/
theorem Coherent.live_slot (h : j.Coherent window s) (step : j.Step window s t) {slot : Nat}
    (live : s.ring.Live j.depth slot) : t.ring.slots slot = s.ring.slots slot := by
  cases step with
  | fills submit hash =>
    have hsubmit := h.submit
    rw [submit] at hsubmit
    obtain ⟨-, htail, hqueued⟩ := hsubmit
    obtain ⟨xs, hholds, -⟩ := h.frames
    refine Function.update_of_ne (fun heq => ?_) _ _
    rw [heq, htail] at live
    exact hholds.tail_free hqueued live
  | _ => rfl

/-- What the sender is sending waits in the ring. -/
theorem Coherent.live_head (h : j.Coherent window s) (sender : s.sender = .sending) :
    s.ring.Live j.depth s.ring.head := by
  have hqueued := h.sender
  rw [sender] at hqueued
  obtain ⟨xs, hholds, -⟩ := h.frames
  exact ⟨0, Nat.pos_of_ne_zero hqueued, (Nat.mod_eq_of_lt hholds.head).symm⟩

/-- The frames of the pipelined path are those of the sequential path, except that all but the last
one ask for an acknowledgement. The window holds, no slot of the ring is written over, every run
ends, and it returns what the sequential path returns. -/
theorem pipelined_refines_sequential (j : PrefillJob) {window : Nat}
    (hwindow : j.windowOf = .ok window) :
    ∃ seq, j.sequentialPrefill = .ok seq ∧ j.Covers seq.sent ∧
      ∀ s, Relation.ReflTransGen (j.Step window) j.pipelinedStart s →
        s.wire <+: j.acknowledged seq.sent ∧
        s.submitted ≤ s.completed + window ∧
        (s.sender = .sending → s.ring.Live j.depth s.ring.head) ∧
        (∀ t slot, j.Step window s t → s.ring.Live j.depth slot →
          t.ring.slots slot = s.ring.slots slot) ∧
        (∀ r, s.submit = .returned r →
          r = .ok seq.logits ∧ s.wire = j.acknowledged seq.sent) ∧
        ((∀ r, s.submit ≠ .returned r) → ∃ t, j.Step window s t) ∧
        ∀ t, j.Step window s t → j.rank t < j.rank s := by
  refine ⟨_, j.sequentialPrefill_eq, covers_work, fun s run => ?_⟩
  have h := coherent_of_run run
  have hsent : j.acknowledged (j.sequentialAt j.chunkCount (j.logits (j.chunkCount - 1))).sent =
      j.frames j.chunkCount := acknowledged_work
  rw [hsent]
  refine ⟨?_, h.inWindow, h.live_head, fun t slot step live => h.live_slot step live, ?_,
    h.progress (windowOf_pos hwindow), fun t step => h.rank_lt step⟩
  · rw [h.wire_eq, ← take_frames (h.wire_le.trans h.submitted_le)]
    exact List.take_prefix _ _
  · intro r hreturned
    have hsubmit := h.submit
    rw [hreturned] at hsubmit
    exact hsubmit

/-- A run goes on until the call returns. -/
theorem Coherent.completes (h : j.Coherent window s) (hwindow : 0 < window) :
    ∃ t, Relation.ReflTransGen (j.Step window) s t ∧ ∃ r, t.submit = .returned r := by
  obtain ⟨n, hn⟩ : ∃ n, j.rank s ≤ n := ⟨_, Nat.le_refl _⟩
  induction n generalizing s with
  | zero =>
    by_cases running : ∀ r, s.submit ≠ .returned r
    · obtain ⟨t, step⟩ := h.progress hwindow running
      have hlt := h.rank_lt step
      omega
    · exact ⟨s, .refl, by simpa using running⟩
  | succ n ih =>
    by_cases running : ∀ r, s.submit ≠ .returned r
    · obtain ⟨t, step⟩ := h.progress hwindow running
      have hlt := h.rank_lt step
      obtain ⟨u, run, hreturned⟩ := ih (h.step step) (by omega)
      exact ⟨u, .head step run, hreturned⟩
    · exact ⟨s, .refl, by simpa using running⟩

end coherent

/-- Two tokens in two chunks, through one worker. -/
def twoChunks : PrefillJob where
  route := ⟨⟨fun _ => 0, fun _ => 0, fun _ => 0, fun _ => 0⟩, 0, 32, 7, ⟨[⟨lit "a", 1, 1, 1, routeFOutputLogits⟩], []⟩⟩
  prompt := [3, 4]
  spanStart := 0
  nTokens := 2
  chunkCap := 1
  resetFirst := true
  firstRequestId := 1
  checkpoint := []
  vocab := 1
  hcValues := 1
  lastOutput := true
  ackOnlyDisabled := false
  requestedWindow := 0
  requestedDepth := none
  slice _ := [0, 0, 0, 0]
  output _ := [0, 0, 0, 0]
  head _ _ := [0, 0, 0, 0]
  tokens_pos := Nat.zero_lt_two
  cap_pos := Nat.one_pos
  span := Nat.le_refl 2
  chunkFits := by decide
  windowFits := Nat.zero_le _
  reset_start _ := rfl
  continues h := nomatch h
  output_length _ _ := rfl

theorem twoChunks_returns :
    ∃ seq s, twoChunks.sequentialPrefill = .ok seq ∧
      Relation.ReflTransGen (twoChunks.Step 2) twoChunks.pipelinedStart s ∧
      s.submit = .returned (.ok seq.logits) ∧ s.wire = twoChunks.acknowledged seq.sent := by
  obtain ⟨seq, hseq, -, hruns⟩ :=
    pipelined_refines_sequential twoChunks (rfl : twoChunks.windowOf = .ok 2)
  obtain ⟨s, run, r, hreturned⟩ :=
    (coherent_start (j := twoChunks)).completes (Nat.two_pos : 0 < 2)
  obtain ⟨-, -, -, -, hresult, -, -⟩ := hruns s run
  obtain ⟨hr, hwire⟩ := hresult r hreturned
  rw [hr] at hreturned
  exact ⟨seq, s, hseq, run, hreturned, hwire⟩

/-- The first frame asks for an acknowledgement, where the sequential path asks for logits. -/
theorem acknowledgements_differ :
    ¬∀ (j : PrefillJob) (window : Nat) (seq : Sequential) (s : Pipelined) (r : Except Bytes Bytes),
      j.windowOf = .ok window → j.sequentialPrefill = .ok seq →
      Relation.ReflTransGen (j.Step window) j.pipelinedStart s → s.submit = .returned r →
      s.wire.map (distCoordinatorSendRemoteWork j.route) =
        seq.sent.map (distCoordinatorSendRemoteWork j.route) := by
  intro h
  obtain ⟨s, run, r, hreturned⟩ := (coherent_start (j := twoChunks)).completes
    (Nat.two_pos : 0 < 2)
  have hsubmit := (coherent_of_run run).submit
  rw [hreturned] at hsubmit
  have hsame := h twoChunks 2 _ s r rfl twoChunks.sequentialPrefill_eq run hreturned
  rw [hsubmit.2] at hsame
  have hfirst : distCoordinatorSendRemoteWork twoChunks.route (twoChunks.frame 0) =
      distCoordinatorSendRemoteWork twoChunks.route (twoChunks.work false 0) :=
    (List.cons.inj hsame).1
  revert hfirst
  decide

end PrefillJob

end Ds4.Dist
