import Ds4.Agent.BashJob

/-!
# What a shell job captures

Every round keeps the counters true to the output file, and a job that is over without an error has moved every byte of the
pipe. Two answers of the system break this: a wait that fails before the end of the pipe, and a write that succeeds after one
that failed.
-/

namespace Ds4.Agent
open C ErrorState BashM

namespace Call

def written : Call → Bytes
  | .write _ s (.ok n) => s.take n
  | _ => []

def delivered : Call → Bytes
  | .read _ (.ok s) => s
  | _ => []

def isEof : Call → Bool
  | .read _ (.ok s) => s.isEmpty
  | _ => false

def writeFails : Call → Bool
  | .write _ _ (.ok n) => n == 0
  | .write _ _ (.error e) => decide (e ≠ .eintr)
  | _ => false

def readFails : Call → Bool
  | .read _ (.error e) => decide (e ≠ .eintr ∧ e ≠ .eagain ∧ e ≠ .ewouldblock)
  | _ => false

def reaps : Call → Bool
  | .waitpid _ (.ok (some _)) => true
  | _ => false

/-- A wait without blocking that fails. -/
def waitFails : Call → Bool
  | .waitpid true (.error e) => decide (e ≠ .eintr)
  | _ => false

def signals (pid : Int) : Call → Bool
  | .kill p _ => decide (p = pid)
  | _ => false

def usesFd : Call → Bool
  | .read .. => true
  | .write .. => true
  | .close .. => true
  | .poll .. => true
  | _ => false

end Call

/-- The content of the output file. -/
def outputFile (log : List Call) : Bytes := log.flatMap Call.written

/-- The bytes that the pipe delivered. -/
def pipeBytes (log : List Call) : Bytes := log.flatMap Call.delivered

/-- Waiting for the child fails only after the end of the pipe or an error on the way to the file. -/
def WaitOk (log : List Call) : Prop :=
  ∀ a c b, log = a ++ c :: b → c.waitFails = true → ∃ d ∈ a, d.isEof = true ∨ d.readFails = true ∨ d.writeFails = true

/-- After a write that failed none takes a byte. -/
def WriteOk (log : List Call) : Prop := log.Pairwise fun c d => c.writeFails = true → d.written = []

/-- The capture of a job with the process id `pid`. -/
structure Captured (pid : Int) (s : BashSys) : Prop where
  bytes : s.job.bytes = (outputFile s.log).length
  content : outputFile s.log <+: pipeBytes s.log
  newlines : s.job.newlineCount = min ((outputFile s.log).count (ch '\n')) (intMax - 1)
  last : ∀ b ∈ (outputFile s.log).getLast?, s.job.lastByte = b
  /-- The child is reaped once and not signalled after that. -/
  reaped : s.log.Pairwise fun c d => c.reaps = true → d.reaps = false ∧ d.signals pid = false
  complete : s.job.running = false → s.job.outputError = 0 →
    (∃ c ∈ s.log, c.isEof = true) ∧ outputFile s.log = pipeBytes s.log

section
variable {log a b : List Call} {c : Call} {j j' : BashJob} {rest s : Bytes} {pid : Int} {e : Errno} {fd : Int}

theorem outputFile_snoc : outputFile (log ++ [c]) = outputFile log ++ c.written := by
  rw [outputFile, List.flatMap_append, List.flatMap_singleton, outputFile]

theorem pipeBytes_snoc : pipeBytes (log ++ [c]) = pipeBytes log ++ c.delivered := by
  rw [pipeBytes, List.flatMap_append, List.flatMap_singleton, pipeBytes]

theorem exists_snoc {p : Call → Prop} : (∃ d ∈ log ++ [c], p d) ↔ (∃ d ∈ log, p d) ∨ p c := by
  simp only [List.mem_append, List.mem_singleton, or_and_right, exists_or, exists_eq_left]

theorem forall_snoc {p : Call → Prop} : (∀ d ∈ log ++ [c], p d) ↔ (∀ d ∈ log, p d) ∧ p c := by
  rw [List.forall_mem_append, List.forall_mem_singleton]

theorem pairwise_snoc {R : Call → Call → Prop} : (log ++ [c]).Pairwise R ↔ log.Pairwise R ∧ ∀ d ∈ log, R d c := by
  rw [List.pairwise_append]
  simp only [List.pairwise_singleton, true_and, List.mem_singleton, forall_eq]

theorem WaitOk.append (h : WaitOk (a ++ b)) : WaitOk a := by
  intro l c r hs hc
  exact h l c (r ++ b) (by rw [hs, List.append_assoc, List.cons_append]) hc

/-- The newlines are counted up to the cap. -/
theorem foldl_newlines (s : Bytes) (n m : Nat) :
    s.foldl (fun n b => if b = ch '\n' ∧ n < m then n + 1 else n) (min n m) = min (n + s.count (ch '\n')) m := by
  induction s generalizing n with
  | nil => rfl
  | cons b s ih =>
    have hnext : (if b = ch '\n' ∧ min n m < m then min n m + 1 else min n m) = min (n + if b = ch '\n' then 1 else 0) m := by
      by_cases hb : b = ch '\n'
      · by_cases hlt : min n m < m
        · rw [if_pos ⟨hb, hlt⟩, if_pos hb]
          omega
        · rw [if_neg fun h => hlt h.2, if_pos hb]
          omega
      · rw [if_neg fun h => hb h.1, if_neg hb, Nat.add_zero]
    rw [List.foldl_cons, hnext, ih, List.count_cons, Nat.add_assoc, Nat.add_comm (ite _ _ _)]
    simp only [beq_iff_eq]

theorem writeFails_of_written (h : c.written ≠ []) : c.writeFails = false := by
  cases c with
  | write fd s r =>
    cases r with
    | ok n =>
      cases n with
      | zero => exact absurd rfl h
      | succ n => rfl
    | error e => exact absurd rfl h
  | _ => rfl

/-- What the calls so far say of a job; `rest` is what was read and not yet written. -/
structure Inv (pid : Int) (rest : Bytes) (j : BashJob) (log : List Call) : Prop where
  proc : j.pid = pid
  bytes : j.bytes = (outputFile log).length
  newlines : j.newlineCount = min ((outputFile log).count (ch '\n')) (intMax - 1)
  last : ∀ b ∈ (outputFile log).getLast?, j.lastByte = b
  eof : j.pipeEof = true ↔ ∃ c ∈ log, c.isEof = true
  failed : j.outputError = 0 → ∀ c ∈ log, c.readFails = false ∧ c.writeFails = false
  whole : (∀ c ∈ log, c.writeFails = false) → outputFile log ++ rest = pipeBytes log
  content : WriteOk log → outputFile log <+: pipeBytes log
  waited : j.reaped = false → ∀ c ∈ log, c.reaps = false
  reaped : log.Pairwise fun c d => c.reaps = true → d.reaps = false ∧ d.signals pid = false

/-- What a call does to a job and to the bytes that are not yet written. -/
structure Noted (pid : Int) (rest : Bytes) (j : BashJob) (c : Call) (rest' : Bytes) (j' : BashJob) : Prop where
  proc : j'.pid = j.pid
  bytes : j'.bytes = (agentBashNoteOutput c.written j).bytes
  newlines : j'.newlineCount = (agentBashNoteOutput c.written j).newlineCount
  last : j'.lastByte = (agentBashNoteOutput c.written j).lastByte
  eof : j'.pipeEof = (j.pipeEof || c.isEof)
  failed : j'.outputError = 0 → j.outputError = 0 ∧ c.readFails = false ∧ c.writeFails = false
  moved : c.writeFails = false → rest ++ c.delivered = c.written ++ rest'
  reaped : j'.reaped = (j.reaped || c.reaps)
  once : j.reaped = true → c.reaps = false ∧ c.signals pid = false

theorem Inv.start (h1 : j.pid = pid) (h2 : j.bytes = 0) (h3 : j.newlineCount = 0) (h4 : j.pipeEof = false) :
    Inv pid [] j [] where
  proc := h1
  bytes := h2
  newlines := h3
  last := fun _ h => nomatch h
  eof := by simp [h4]
  failed := fun _ _ h => nomatch h
  whole := fun _ => rfl
  content := fun _ => List.nil_prefix
  waited := fun _ _ h => nomatch h
  reaped := .nil

/-- Every call keeps the job true to the calls. -/
theorem Inv.snoc {rest' : Bytes} (h : Inv pid rest j log) (hc : Noted pid rest j c rest' j') :
    Inv pid rest' j' (log ++ [c]) where
  proc := hc.proc.trans h.proc
  bytes := by
    rw [outputFile_snoc, List.length_append, ← h.bytes]
    exact hc.bytes
  newlines := by
    rw [outputFile_snoc, List.count_append, hc.newlines, agentBashNoteOutput, h.newlines]
    exact foldl_newlines _ _ _
  last := by
    intro b hb
    rw [outputFile_snoc, List.getLast?_append] at hb
    rw [hc.last, agentBashNoteOutput]
    cases hw : c.written.getLast? with
    | none =>
      rw [hw] at hb
      exact h.last b hb
    | some d =>
      rw [hw] at hb
      exact Option.some.inj hb
  eof := by
    rw [exists_snoc, hc.eof, Bool.or_eq_true, h.eof]
  failed := by
    rw [forall_snoc]
    exact fun hj => ⟨h.failed (hc.failed hj).1, (hc.failed hj).2⟩
  whole := by
    rw [forall_snoc, outputFile_snoc, pipeBytes_snoc]
    intro hall
    rw [List.append_assoc, ← hc.moved hall.2, ← List.append_assoc, h.whole hall.1]
  content := by
    rw [WriteOk, pairwise_snoc, outputFile_snoc, pipeBytes_snoc]
    intro hok
    by_cases hw : c.written = []
    · rw [hw, List.append_nil]
      exact (h.content hok.1).trans (List.prefix_append _ _)
    · -- no write failed before, so the file and what is left are what the pipe delivered
      have hall : ∀ d ∈ log, d.writeFails = false := fun d hd => Bool.eq_false_iff.mpr fun hf => hw (hok.2 d hd hf)
      rw [← h.whole hall, List.append_assoc, hc.moved (writeFails_of_written hw), ← List.append_assoc]
      exact List.prefix_append _ _
  waited := by
    rw [forall_snoc]
    intro hj
    rw [hc.reaped, Bool.or_eq_false_iff] at hj
    exact ⟨h.waited hj.1, hj.2⟩
  reaped := by
    rw [pairwise_snoc]
    refine ⟨h.reaped, fun d hd hdr => hc.once ?_⟩
    rw [← Bool.not_eq_false]
    exact fun hj => absurd hdr (Bool.eq_false_iff.mp (h.waited hj d hd))

/-! ## Programs -/

/-- The parts of a job that the work on its output leaves alone, and what it keeps. -/
structure Frame (s t : BashSys) : Prop where
  proc : t.job.pid = s.job.pid
  running : t.job.running = s.job.running
  eof : s.job.pipeEof = true → t.job.pipeEof = true
  error : s.job.outputError ≠ 0 → t.job.outputError ≠ 0
  log : s.log <+: t.log

theorem Frame.refl (s : BashSys) : Frame s s := ⟨rfl, rfl, id, id, List.prefix_rfl⟩

theorem Frame.trans {s t u : BashSys} (h : Frame s t) (h' : Frame t u) : Frame s u :=
  ⟨h'.proc.trans h.proc, h'.running.trans h.running, fun hs => h'.eof (h.eof hs), fun hs => h'.error (h.error hs),
    h.log.trans h'.log⟩

/-- From `s` the program ends in `Q`, unless the answers give out. -/
def Does {α : Type} (x : BashM α) (s : BashSys) (Q : α → BashSys → Prop) : Prop := Ends x s Q fun _ => True

theorem Does.bind {α β : Type} {x : BashM α} {f : α → BashM β} {s : BashSys} {R : α → BashSys → Prop} {Q : β → BashSys → Prop}
    (h : Does x s R) (hf : ∀ a t, R a t → Does (f a) t Q) : Does (x >>= f) s Q := Ends.bind h hf

theorem Does.pure {α : Type} {a : α} {s : BashSys} {Q : α → BashSys → Prop} (h : Q a s) : Does (pure a) s Q := h

theorem Does.mono {α : Type} {x : BashM α} {s : BashSys} {R Q : α → BashSys → Prop} (h : Does x s R)
    (hQ : ∀ a t, R a t → Q a t) : Does x s Q := Ends.mono h hQ fun _ _ => trivial

theorem does_throw {α : Type} {s : BashSys} {Q : α → BashSys → Prop} : Does (throw () : BashM α) s Q := trivial

theorem does_job {β : Type} {f : BashJob → BashM β} {s : BashSys} {Q : β → BashSys → Prop} (h : Does (f s.job) s Q) :
    Does (job >>= f) s Q := h

theorem does_setJob {g : BashJob → BashJob} {s : BashSys} {Q : Unit → BashSys → Prop} (h : Q () { s with job := g s.job }) :
    Does (setJob g) s Q := h

theorem does_call {s : BashSys} {Q : Unit → BashSys → Prop} (h : Q () { s with log := s.log ++ [c] }) :
    Does (call c) s Q := h

theorem does_setJob_bind {β : Type} {g : BashJob → BashJob} {f : Unit → BashM β} {s : BashSys} {Q : β → BashSys → Prop}
    (h : Does (f ()) { s with job := g s.job } Q) : Does (setJob g >>= f) s Q := h

theorem does_call_bind {β : Type} {f : Unit → BashM β} {s : BashSys} {Q : β → BashSys → Prop}
    (h : Does (f ()) { s with log := s.log ++ [c] } Q) : Does (call c >>= f) s Q := h

theorem does_answer {β : Type} {f : Answer → BashM β} {s : BashSys} {Q : β → BashSys → Prop}
    (h : ∀ a as, Does (f a) { s with answers := as } Q) : Does (answer >>= f) s Q := by
  cases hs : s.answers with
  | nil =>
    have hnil : answer s = .error () s := by rw [answer, hs]
    rw [Does, Ends, bind_error hnil]
    trivial
  | cons a as =>
    have hcons : answer s = .ok a { s with answers := as } := by rw [answer, hs]
    rw [Does, Ends, bind_ok hcons]
    exact h a as

/-- A call with an answer is noted. -/
theorem does_read {s : BashSys} : Does (BashM.read fd) s fun r t => t.job = s.job ∧ t.log = s.log ++ [.read fd r] := by
  refine does_answer fun a as => ?_
  cases a with
  | read r => exact ⟨rfl, rfl⟩
  | _ => exact does_throw

theorem does_write {s : BashSys} {buf : Bytes} : Does (BashM.write fd buf) s fun r t => t.job = s.job ∧
    t.log = s.log ++ [.write fd buf r] ∧ ∀ n, r = .ok n → n ≤ buf.length := by
  refine does_answer fun a as => ?_
  cases a with
  | write r =>
    refine ⟨rfl, rfl, fun n hn => ?_⟩
    cases r with
    | ok m =>
      obtain rfl := Except.ok.inj hn
      exact Nat.min_le_right _ _
    | error e => cases hn
  | _ => exact does_throw

theorem does_waitpid {s : BashSys} {nohang : Bool} : Does (BashM.waitpid nohang) s fun r t => t.job = s.job ∧
    t.log = s.log ++ [.waitpid nohang r] := by
  refine does_answer fun a as => ?_
  cases a with
  | waitpid r => exact ⟨rfl, rfl⟩
  | _ => exact does_throw

theorem does_nowSec {s : BashSys} : Does nowSec s fun _ t => t.job = s.job ∧ t.log = s.log := by
  refine does_answer fun a as => ?_
  cases a with
  | now t => exact ⟨rfl, rfl⟩
  | _ => exact does_throw

theorem Frame.snoc {s t : BashSys} (hj : t.job = s.job) (hl : t.log = s.log ++ [c]) : Frame s t := by
  rw [← List.append_nil [c]] at hl
  exact ⟨by rw [hj], by rw [hj], by rw [hj]; exact id, by rw [hj]; exact id, by rw [hl]; exact List.prefix_append _ _⟩

/-! ### Output -/

/-- What work on the output does: the child and the end of the job are left alone. -/
structure Moved (pid : Int) (s t : BashSys) : Prop where
  inv : Inv pid [] t.job t.log
  frame : Frame s t
  reaped : t.job.reaped = s.job.reaped

theorem Moved.after {s t u : BashSys} (h : Moved pid t u) (hf : Frame s t) (hr : t.job.reaped = s.job.reaped) :
    Moved pid s u := ⟨h.inv, hf.trans h.frame, h.reaped.trans hr⟩

/-- A call that only tells that it is to be made again, or that there is nothing yet. -/
theorem Noted.retry (hw : c.written = []) (hd : c.delivered = []) (he : c.isEof = false) (hf : c.writeFails = false)
    (hr : c.readFails = false) (hp : c.reaps = false) (hs : j.reaped = true → c.signals pid = false) :
    Noted pid rest j c rest j where
  proc := rfl
  bytes := by rw [hw]; rfl
  newlines := by rw [hw]; rfl
  last := by rw [hw]; rfl
  eof := by rw [he, Bool.or_false]
  failed := fun h => ⟨h, hr, hf⟩
  moved := fun _ => by rw [hw, hd, List.append_nil, List.nil_append]
  reaped := by rw [hp, Bool.or_false]
  once := fun h => ⟨hp, hs h⟩

/-- A call that fails; what was not written is lost. -/
theorem Noted.fails {n : Nat} (hn : n ≠ 0) (hw : c.written = []) (hd : c.delivered = []) (he : c.isEof = false)
    (hf : c.writeFails = true ∨ rest = []) (hp : c.reaps = false) (hs : c.signals pid = false) :
    Noted pid rest j c [] { j with outputError := n } where
  proc := rfl
  bytes := by rw [hw]; rfl
  newlines := by rw [hw]; rfl
  last := by rw [hw]; rfl
  eof := by rw [he, Bool.or_false]
  failed := fun h => absurd h hn
  moved := by
    intro hok
    rw [hw, hd, hf.resolve_left (Bool.eq_false_iff.mp hok)]
  reaped := by rw [hp, Bool.or_false]
  once := fun _ => ⟨hp, hs⟩

theorem does_writeOutput {fuel : Nat} {buf : Bytes} {s : BashSys} (h : Inv pid buf s.job s.log) :
    Does (writeOutput fuel buf) s fun _ t => Moved pid s t := by
  induction fuel generalizing buf s with
  | zero => exact does_throw
  | succ fuel ih =>
    rw [writeOutput]
    split
    · next hbuf =>
      rw [hbuf] at h
      exact Does.pure ⟨h, .refl s, rfl⟩
    refine does_job (does_write.bind fun r t ⟨hj, hl, hn⟩ => ?_)
    have hframe := Frame.snoc hj hl
    rw [← hj] at h
    cases r with
    | error e =>
      by_cases he : e = .eintr
      · have hinv := h.snoc (@Noted.retry (.write s.job.tmpFd buf (.error e)) t.job buf pid rfl rfl rfl
          (decide_eq_false (not_not.mpr he)) rfl rfl fun _ => rfl)
        rw [← hl] at hinv
        dsimp only
        rw [if_pos he]
        exact (ih hinv).mono fun _ u hu => hu.after hframe (by rw [hj])
      · have hinv := h.snoc (@Noted.fails (.write s.job.tmpFd buf (.error e)) t.job buf pid e.val e.property rfl rfl rfl
          (.inl (decide_eq_true he)) rfl rfl)
        rw [← hl] at hinv
        dsimp only
        rw [if_neg he]
        refine does_setJob_bind (Does.pure ?_)
        exact ⟨hinv, hframe.trans ⟨rfl, rfl, id, fun _ => e.property, List.prefix_rfl⟩, by rw [hj]⟩
    | ok n =>
      cases n with
      | zero =>
        have hinv := h.snoc (@Noted.fails (.write s.job.tmpFd buf (.ok 0)) t.job buf pid Errno.eio.val Errno.eio.property rfl rfl rfl
          (.inl rfl) rfl rfl)
        rw [← hl] at hinv
        refine does_setJob_bind (Does.pure ?_)
        exact ⟨hinv, hframe.trans ⟨rfl, rfl, id, fun _ => Errno.eio.property, List.prefix_rfl⟩, by rw [hj]⟩
      | succ n =>
        have hnoted : Noted pid buf t.job (.write s.job.tmpFd buf (.ok (n + 1))) (buf.drop (n + 1))
            (agentBashNoteOutput (buf.take (n + 1)) t.job) := by
          refine ⟨rfl, rfl, rfl, rfl, (Bool.or_false _).symm, fun h => ⟨h, rfl, rfl⟩, fun _ => ?_, (Bool.or_false _).symm,
            fun _ => ⟨rfl, rfl⟩⟩
          exact (List.append_nil _).trans (List.take_append_drop _ _).symm
        have hinv := h.snoc hnoted
        rw [← hl] at hinv
        refine does_setJob_bind ?_
        refine (ih hinv).mono fun _ v hv => hv.after (hframe.trans ⟨rfl, rfl, id, id, List.prefix_rfl⟩) (by rw [← hj]; rfl)

theorem does_drainLoop {fuel drained : Nat} {s : BashSys} (h : Inv pid [] s.job s.log) :
    Does (drainLoop fuel drained) s fun _ t => Moved pid s t := by
  induction fuel generalizing drained s with
  | zero => exact does_throw
  | succ fuel ih =>
    rw [drainLoop]
    split
    · refine does_job (does_read.bind fun r t ⟨hj, hl⟩ => ?_)
      have hframe := Frame.snoc hj hl
      rw [← hj] at h
      cases r with
      | error e =>
        dsimp only
        by_cases he : e = .eintr
        · have hinv := h.snoc (@Noted.retry (.read s.job.pipeFd (.error e)) t.job [] pid rfl rfl rfl rfl
            (decide_eq_false fun h => h.1 he) rfl fun _ => rfl)
          rw [← hl] at hinv
          rw [if_pos he]
          exact (ih hinv).mono fun _ u hu => hu.after hframe (by rw [hj])
        rw [if_neg he]
        split
        · have hinv := h.snoc (@Noted.fails (.read s.job.pipeFd (.error e)) t.job [] pid e.val e.property rfl rfl rfl
            (.inr rfl) rfl rfl)
          rw [← hl] at hinv
          refine does_setJob ?_
          exact ⟨hinv, hframe.trans ⟨rfl, rfl, id, fun _ => e.property, List.prefix_rfl⟩, by rw [hj]⟩
        · next hwait =>
          have hinv := h.snoc (@Noted.retry (.read s.job.pipeFd (.error e)) t.job [] pid rfl rfl rfl rfl
            (decide_eq_false fun h => hwait h.2) rfl fun _ => rfl)
          rw [← hl] at hinv
          exact Does.pure ⟨hinv, hframe, by rw [hj]⟩
      | ok buf =>
        cases buf with
        | nil =>
          have hnoted : Noted pid [] t.job (.read s.job.pipeFd (.ok [])) [] { t.job with pipeEof := true } :=
            ⟨rfl, rfl, rfl, rfl, (Bool.or_true _).symm, fun h => ⟨h, rfl, rfl⟩, fun _ => rfl, (Bool.or_false _).symm,
              fun _ => ⟨rfl, rfl⟩⟩
          have hinv := h.snoc hnoted
          rw [← hl] at hinv
          refine does_setJob ?_
          exact ⟨hinv, hframe.trans ⟨rfl, rfl, fun _ => rfl, id, List.prefix_rfl⟩, by rw [hj]⟩
        | cons b buf =>
          have hnoted : Noted pid [] t.job (.read s.job.pipeFd (.ok (b :: buf))) (b :: buf) t.job :=
            ⟨rfl, rfl, rfl, rfl, (Bool.or_false _).symm, fun h => ⟨h, rfl, rfl⟩, fun _ => rfl, (Bool.or_false _).symm,
              fun _ => ⟨rfl, rfl⟩⟩
          have hinv := h.snoc hnoted
          rw [← hl] at hinv
          refine (does_writeOutput hinv).bind fun all u hu => ?_
          have hu := hu.after hframe (by rw [hj])
          cases all with
          | true => exact (ih hu.inv).mono fun _ v hv => hv.after hu.frame hu.reaped
          | false => exact Does.pure hu
    · exact Does.pure ⟨h, .refl s, rfl⟩

theorem does_agentBashDrain {fuel : Nat} {s : BashSys} (h : Inv pid [] s.job s.log) :
    Does (agentBashDrain fuel) s fun _ t => Moved pid s t := by
  refine does_job ?_
  split
  · exact does_drainLoop h
  · exact Does.pure ⟨h, .refl s, rfl⟩

/-! ### The end of a job -/

/-- The fields that the calls say nothing of. -/
theorem Inv.same (h : Inv pid rest j log) (h1 : j'.pid = j.pid) (h2 : j'.bytes = j.bytes)
    (h3 : j'.newlineCount = j.newlineCount) (h4 : j'.lastByte = j.lastByte) (h5 : j'.pipeEof = j.pipeEof)
    (h6 : j'.outputError = j.outputError) (h7 : j'.reaped = j.reaped) : Inv pid rest j' log where
  proc := h1.trans h.proc
  bytes := h2.trans h.bytes
  newlines := h3.trans h.newlines
  last := fun b hb => h4.trans (h.last b hb)
  eof := by rw [h5]; exact h.eof
  failed := by rw [h6]; exact h.failed
  whole := h.whole
  content := h.content
  waited := by rw [h7]; exact h.waited
  reaped := h.reaped

/-- A call that has nothing to do with the output or the child. -/
theorem Inv.quiet (h : Inv pid rest j log) (hw : c.written = []) (hd : c.delivered = []) (he : c.isEof = false)
    (hf : c.writeFails = false) (hr : c.readFails = false) (hp : c.reaps = false)
    (hs : j.reaped = true → c.signals pid = false) : Inv pid rest j (log ++ [c]) :=
  h.snoc (.retry hw hd he hf hr hp hs)

theorem does_closePipe {s : BashSys} (h : Inv pid [] s.job s.log) : Does closePipe s fun _ t => Moved pid s t := by
  refine does_job ?_
  split
  · refine does_call_bind (does_setJob ?_)
    exact ⟨(h.quiet rfl rfl rfl rfl rfl rfl fun _ => rfl).same rfl rfl rfl rfl rfl rfl rfl,
      ⟨rfl, rfl, id, id, List.prefix_append _ _⟩, rfl⟩
  · exact Does.pure ⟨h, .refl s, rfl⟩

theorem does_closeTmp {s : BashSys} (h : Inv pid [] s.job s.log) : Does closeTmp s fun _ t => Moved pid s t := by
  refine does_job ?_
  split
  · refine does_call_bind (does_setJob ?_)
    exact ⟨(h.quiet rfl rfl rfl rfl rfl rfl fun _ => rfl).same rfl rfl rfl rfl rfl rfl rfl,
      ⟨rfl, rfl, id, id, List.prefix_append _ _⟩, rfl⟩
  · exact Does.pure ⟨h, .refl s, rfl⟩

/-- A step of a job that keeps its errors, its end of the pipe and its calls. -/
structure Went (pid : Int) (s t : BashSys) : Prop where
  inv : Inv pid [] t.job t.log
  eof : s.job.pipeEof = true → t.job.pipeEof = true
  error : s.job.outputError ≠ 0 → t.job.outputError ≠ 0
  log : s.log <+: t.log

theorem Moved.went {s t : BashSys} (h : Moved pid s t) : Went pid s t := ⟨h.inv, h.frame.eof, h.frame.error, h.frame.log⟩

theorem Went.trans {s t u : BashSys} (h : Went pid s t) (h' : Went pid t u) : Went pid s u :=
  ⟨h'.inv, fun hs => h'.eof (h.eof hs), fun hs => h'.error (h.error hs), h.log.trans h'.log⟩

theorem does_agentBashFinalize {fuel : Nat} {status : WaitStatus} {s : BashSys} (h : Inv pid [] s.job s.log) :
    Does (agentBashFinalize fuel status) s fun _ t => Went pid s t := by
  refine (does_agentBashDrain h).bind fun _ t ht => (does_closePipe ht.inv).bind fun _ u hu =>
    (does_closeTmp hu.inv).bind fun _ v hv => does_setJob_bind (does_nowSec.bind fun _ w ⟨hj, hl⟩ => does_setJob ?_)
  have hwent := ht.went.trans (hu.went.trans hv.went)
  refine hwent.trans ⟨?_, ?_, ?_, ?_⟩
  · rw [hj, hl]
    exact hwent.inv.same rfl rfl rfl rfl rfl rfl rfl
  · rw [hj]
    exact id
  · rw [hj]
    exact id
  · rw [hl]

theorem does_endWaitError {s : BashSys} (h : Inv pid [] s.job s.log) : Does endWaitError s fun _ t => Went pid s t := by
  refine does_setJob_bind (does_nowSec.bind fun e t ⟨hj, hl⟩ => does_setJob_bind ?_)
  have hinv : Inv pid [] { t.job with endTime := e } t.log := by
    rw [hj, hl]
    exact h.same rfl rfl rfl rfl rfl rfl rfl
  refine (@does_closePipe pid { t with job := { t.job with endTime := e } } hinv).bind fun _ u hu => (does_closeTmp hu.inv).mono fun _ v hv => ?_
  have hwent := hu.went.trans hv.went
  refine ⟨hwent.inv, fun he => hwent.eof ?_, fun he => hwent.error ?_, ?_⟩
  · show t.job.pipeEof = true
    rw [hj]
    exact he
  · show t.job.outputError ≠ 0
    rw [hj]
    exact he
  · have hlog : t.log <+: v.log := hwent.log
    rwa [hl] at hlog

/-! ### Signals -/

theorem does_killJob {sig : Nat} {s : BashSys} (hpid : 0 < pid) (h : Inv pid [] s.job s.log) :
    Does (killJob sig) s fun _ t => t.job = s.job ∧ Inv pid [] t.job t.log ∧ s.log <+: t.log := by
  have hgroup : (Call.kill (-s.job.pid) sig).signals pid = false := by
    rw [Call.signals, h.proc]
    exact decide_eq_false (by omega)
  have hinv := h.quiet (c := .kill (-s.job.pid) sig) rfl rfl rfl rfl rfl rfl fun _ => hgroup
  refine does_job (does_call_bind ?_)
  split
  · exact Does.pure ⟨rfl, hinv, List.prefix_append _ _⟩
  · next hr =>
    refine does_call ⟨rfl, hinv.quiet rfl rfl rfl rfl rfl rfl fun h => absurd h hr, ?_⟩
    exact (List.prefix_append _ _).trans (List.prefix_append _ _)

/-- A child that is not waited for any more. -/
theorem Inv.reapedNow {status : WaitStatus} (h : Inv pid rest j log) :
    Inv pid rest { j with reaped := true, childStatus := status } log :=
  ⟨h.proc, h.bytes, h.newlines, h.last, h.eof, h.failed, h.whole, h.content, fun h => absurd h.symm Bool.false_ne_true, h.reaped⟩

theorem Inv.reap {nohang : Bool} {status : WaitStatus} (h : Inv pid rest j log) (hr : j.reaped = false) :
    Inv pid rest { j with reaped := true, childStatus := status } (log ++ [.waitpid nohang (.ok (some status))]) := by
  refine h.snoc ⟨rfl, rfl, rfl, rfl, (Bool.or_false _).symm, fun h => ⟨h, rfl, rfl⟩, fun _ => List.append_nil _,
    (Bool.or_true _).symm, fun h => absurd h (Bool.eq_false_iff.mp hr)⟩

theorem does_waitLoop {fuel : Nat} {s : BashSys} (h : Inv pid [] s.job s.log) (hr : s.job.reaped = false) :
    Does (waitLoop fuel) s fun status t => t.job = s.job ∧
      Inv pid [] { t.job with reaped := true, childStatus := status } t.log ∧ s.log <+: t.log := by
  induction fuel generalizing s with
  | zero => exact does_throw
  | succ fuel ih =>
    refine does_waitpid.bind fun r t ⟨hj, hl⟩ => ?_
    have hpre : s.log <+: t.log := by rw [hl]; exact List.prefix_append _ _
    rw [← hj] at h hr
    cases r with
    | error e =>
      have hinv := h.quiet (c := .waitpid false (.error e)) rfl rfl rfl rfl rfl rfl fun _ => rfl
      rw [← hl] at hinv
      dsimp only
      split
      · exact (ih hinv hr).mono fun _ u ⟨hu, hui, hul⟩ => ⟨hu.trans hj, hui, hpre.trans hul⟩
      · exact Does.pure ⟨hj, hinv.reapedNow, hpre⟩
    | ok status =>
      cases status with
      | none =>
        have hinv := h.quiet (c := .waitpid false (.ok none)) rfl rfl rfl rfl rfl rfl fun _ => rfl
        rw [← hl] at hinv
        exact Does.pure ⟨hj, hinv.reapedNow, hpre⟩
      | some status =>
        have hinv : Inv pid [] { t.job with reaped := true, childStatus := status }
          (s.log ++ [.waitpid false (.ok (some status))]) := h.reap hr
        rw [← hl] at hinv
        exact Does.pure ⟨hj, hinv, hpre⟩

theorem does_mustKill {s : BashSys} : Does mustKill s fun _ t => t.job = s.job ∧ t.log = s.log := by
  refine does_job ?_
  split
  · exact Does.pure ⟨rfl, rfl⟩
  split
  · exact Does.pure ⟨rfl, rfl⟩
  · exact does_nowSec.bind fun _ t ht => Does.pure ht

theorem does_pastTimeout {s : BashSys} {j : BashJob} : Does (pastTimeout j) s fun _ t => t.job = s.job ∧ t.log = s.log := by
  rw [pastTimeout]
  split
  · exact does_nowSec.bind fun _ t ht => Does.pure ht
  · exact Does.pure ⟨rfl, rfl⟩

theorem does_mustEnd {s : BashSys} : Does mustEnd s fun _ t => t.job = s.job ∧ t.log = s.log := by
  refine does_job ?_
  split
  · exact Does.pure ⟨rfl, rfl⟩
  refine does_pastTimeout.bind fun _ t ⟨hj, hl⟩ => ?_
  split
  · exact Does.pure ⟨hj, hl⟩
  split
  · exact does_nowSec.bind fun _ u ⟨hj', hl'⟩ => Does.pure ⟨hj'.trans hj, hl'.trans hl⟩
  · exact Does.pure ⟨hj, hl⟩

theorem does_killIfLate {fuel : Nat} {s : BashSys} (hpid : 0 < pid) (h : Inv pid [] s.job s.log) :
    Does (killIfLate fuel) s fun _ t => Went pid s t ∧ t.job.running = s.job.running := by
  refine does_mustKill.bind fun late t ⟨hj, hl⟩ => ?_
  have hwent : Went pid s t := ⟨by rw [hj, hl]; exact h, by rw [hj]; exact id, by rw [hj]; exact id, by rw [hl]⟩
  split
  · refine does_setJob_bind ?_
    have hinv : Inv pid [] { t.job with timedOut := decide (t.job.outputError = 0) } t.log :=
      hwent.inv.same rfl rfl rfl rfl rfl rfl rfl
    refine (does_killJob hpid hinv).bind fun _ u ⟨hu, hui, hul⟩ => does_job ?_
    have hwent' : Went pid s u := hwent.trans ⟨hui, by rw [hu]; exact id, by rw [hu]; exact id, hul⟩
    have hrun : u.job.running = s.job.running := by rw [hu, ← hj]
    split
    · exact Does.pure ⟨hwent', hrun⟩
    · next hr =>
      refine (does_waitLoop hui (Bool.eq_false_iff.mpr hr)).bind fun status v ⟨hv, hvi, hvl⟩ => does_setJob ?_
      exact ⟨hwent'.trans ⟨hvi, by rw [hv]; exact id, by rw [hv]; exact id, hvl⟩, by rw [← hrun, ← hv]⟩
  · exact Does.pure ⟨hwent, by rw [hj]⟩

/-! ### Rounds -/

/-- A job that is over has seen the end of the pipe or notes an error. -/
def Over (j : BashJob) : Prop := j.outputError ≠ 0 ∨ j.pipeEof = true

theorem Went.over {s t : BashSys} (h : Went pid s t) (ho : Over s.job) : Over t.job := ho.imp h.error h.eof

theorem noteCutOff_keeps : (noteCutOff j).pipeEof = j.pipeEof ∧ (j.outputError ≠ 0 → (noteCutOff j).outputError ≠ 0) := by
  rw [noteCutOff]
  split
  · exact ⟨rfl, fun _ => Errno.eio.property⟩
  · exact ⟨rfl, id⟩

theorem Inv.noteCutOff (h : Inv pid rest j log) : Inv pid rest (noteCutOff j) log ∧ Over (noteCutOff j) := by
  rw [Agent.noteCutOff]
  split
  · exact ⟨⟨h.proc, h.bytes, h.newlines, h.last, h.eof, fun h => absurd h Errno.eio.property, h.whole, h.content, h.waited,
      h.reaped⟩, .inl Errno.eio.property⟩
  · next hcut =>
    refine ⟨h, ?_⟩
    by_cases he : j.outputError = 0
    · exact .inr (not_not.mp fun hp => hcut ⟨he, hp⟩)
    · exact .inl he

theorem does_endRound {fuel : Nat} {s : BashSys} (hpid : 0 < pid) (h : Inv pid [] s.job s.log) :
    Does (endRound fuel) s fun _ t => Went pid s t ∧ (t.job.running = s.job.running ∨ Over t.job) := by
  refine does_job ?_
  split
  · next hend => exact (does_agentBashFinalize h).mono fun _ t ht => ⟨ht, .inr (ht.over (.inr hend.2))⟩
  · refine (does_killIfLate hpid h).bind fun _ t ⟨ht, hrun⟩ => does_mustEnd.bind fun stop u ⟨hj, hl⟩ => ?_
    have hwent : Went pid s u := ht.trans ⟨by rw [hj, hl]; exact ht.inv, by rw [hj]; exact id, by rw [hj]; exact id, by rw [hl]⟩
    split
    · obtain ⟨hinv, hover⟩ := hwent.inv.noteCutOff
      refine does_setJob_bind (does_job ((does_agentBashFinalize hinv).mono fun _ v hv => ⟨?_, .inr (hv.over hover)⟩))
      exact hwent.trans ⟨hv.inv, fun he => hv.eof (noteCutOff_keeps.1.trans he), fun he => hv.error (noteCutOff_keeps.2 he), hv.log⟩
    · exact Does.pure ⟨hwent, .inl (by rw [hj]; exact hrun)⟩

theorem does_askChild {s : BashSys} : Does askChild s fun rc t => t.job = s.job ∧ (rc = .ok none ∧ t.log = s.log ∨
    s.job.reaped = false ∧ t.log = s.log ++ [.waitpid true rc]) := by
  refine does_job ?_
  split
  · exact Does.pure ⟨rfl, .inl ⟨rfl, rfl⟩⟩
  · next hr => exact does_waitpid.mono fun _ t ⟨hj, hl⟩ => ⟨hj, .inr ⟨Bool.eq_false_iff.mpr hr, hl⟩⟩

/-- The job and the calls after the child was asked for. -/
theorem does_noteChild {rc : Except Errno (Option WaitStatus)} {s t : BashSys} (h : Inv pid [] s.job s.log)
    (hj : t.job = s.job) (hl : rc = .ok none ∧ t.log = s.log ∨ s.job.reaped = false ∧ t.log = s.log ++ [.waitpid true rc]) :
    Does (noteChild rc) t fun _ u => Went pid s u ∧ u.job.running = s.job.running ∧ u.log = t.log := by
  have hquiet : ∀ r, rc = r → r = .ok none ∨ (∃ e, r = .error e) → Went pid s t := by
    intro r hr hrc
    refine ⟨?_, by rw [hj]; exact id, by rw [hj]; exact id, ?_⟩
    · obtain ⟨-, hl⟩ | ⟨-, hl⟩ := hl
      · rw [hj, hl]
        exact h
      · rw [hj, hl, hr]
        obtain rfl | ⟨e, rfl⟩ := hrc
        · exact h.quiet rfl rfl rfl rfl rfl rfl fun _ => rfl
        · exact h.quiet rfl rfl rfl rfl rfl rfl fun _ => rfl
    · obtain ⟨-, hl⟩ | ⟨-, hl⟩ := hl
      · rw [hl]
      · rw [hl]
        exact List.prefix_append _ _
  cases rc with
  | error e => exact Does.pure ⟨hquiet _ rfl (.inr ⟨e, rfl⟩), by rw [hj], rfl⟩
  | ok status =>
    cases status with
    | none => exact Does.pure ⟨hquiet _ rfl (.inl rfl), by rw [hj], rfl⟩
    | some status =>
      obtain ⟨hr, -⟩ | ⟨hr, hl⟩ := hl
      · cases hr
      have hinv : Inv pid [] { s.job with reaped := true, childStatus := status }
          (s.log ++ [.waitpid true (.ok (some status))]) := h.reap hr
      rw [← hl, ← hj] at hinv
      rw [noteChild]
      refine does_setJob ?_
      refine ⟨⟨hinv, by rw [← hj]; exact id, by rw [← hj]; exact id, ?_⟩, by rw [← hj], rfl⟩
      show s.log <+: t.log
      rw [hl]
      exact List.prefix_append _ _

/-- A wait that may fail does so only for a job that has seen the end of the pipe or notes an error. -/
theorem WaitOk.over (h : WaitOk log) (hinv : Inv pid rest j a) (hc : c.waitFails = true) (hs : a ++ [c] <+: log) : Over j := by
  obtain ⟨b, rfl⟩ := hs
  obtain ⟨d, hd, hend⟩ := h a c b (by rw [List.append_assoc]; rfl) hc
  by_contra hover
  rw [Over, not_or, not_not] at hover
  obtain ⟨hr, hw⟩ := hinv.failed hover.1 d hd
  rw [hr, hw] at hend
  exact hover.2 (hinv.eof.mpr ⟨d, hd, by simpa using hend⟩)

theorem does_agentBashPoll {fuel : Nat} {s : BashSys} (hpid : 0 < pid) (h : Inv pid [] s.job s.log) :
    Does (agentBashPoll fuel) s fun _ t => (s.job.running = false → t.job = s.job ∧ t.log = s.log) ∧
      (s.job.running = true → Inv pid [] t.job t.log ∧ (t.job.running = true ∨ (WaitOk t.log → Over t.job))) := by
  refine does_job ?_
  split
  · next hrun =>
    refine (does_agentBashDrain h).bind fun _ t ht => does_askChild.bind fun rc u ⟨hj, hl⟩ =>
      (does_noteChild ht.inv hj hl).bind fun _ v ⟨hv, hvr, hvl⟩ => ?_
    split
    · next hfail =>
      refine (does_endWaitError hv.inv).mono fun _ w hw =>
        ⟨fun h => absurd hrun (Bool.eq_false_iff.mp h), fun _ => ⟨hw.inv, .inr fun hok => ?_⟩⟩
      have hlog : u.log = t.log ++ [.waitpid true rc] := by
        obtain ⟨rfl, -⟩ | ⟨-, hl⟩ := hl
        · cases hfail
        · exact hl
      have hc : (Call.waitpid true rc).waitFails = true := by
        cases rc with
        | ok => cases hfail
        | error e => exact hfail
      refine hw.over (hv.over (hok.over ht.inv hc ?_))
      rw [← hlog, ← hvl]
      exact hw.log
    · refine (does_endRound hpid hv.inv).mono fun _ w ⟨hw, hor⟩ =>
        ⟨fun h => absurd hrun (Bool.eq_false_iff.mp h), fun _ => ⟨hw.inv, ?_⟩⟩
      refine hor.imp (fun h => ?_) fun h _ => h
      rw [h, hvr, ht.frame.running, hrun]
  · next hrun => exact Does.pure ⟨fun _ => ⟨rfl, rfl⟩, fun h => absurd h hrun⟩

theorem does_agentBashSignal {sig : Nat} {s : BashSys} (hpid : 0 < pid) (h : Inv pid [] s.job s.log) :
    Does (agentBashSignal sig) s fun _ t => (s.job.running = false → t.job = s.job ∧ t.log = s.log) ∧
      (s.job.running = true → Inv pid [] t.job t.log ∧ t.job.running = true) := by
  refine does_job ?_
  split
  · next hrun =>
    have hdeadline : Does (setStopDeadline sig) s fun _ t => Inv pid [] t.job t.log ∧ t.job.running = true := by
      refine does_job ?_
      split
      · refine does_nowSec.bind fun _ t ⟨hj, hl⟩ => does_setJob ?_
        rw [hj, hl]
        exact ⟨h.same rfl rfl rfl rfl rfl rfl rfl, hrun⟩
      · exact Does.pure ⟨h, hrun⟩
    refine hdeadline.bind fun _ t ⟨ht, htr⟩ => (does_killJob hpid ht).mono fun _ u ⟨hu, hui, _⟩ =>
      ⟨fun h => absurd hrun (Bool.eq_false_iff.mp h), fun _ => ⟨hui, by rw [hu]; exact htr⟩⟩
  · next hrun => exact Does.pure ⟨fun _ => ⟨rfl, rfl⟩, fun h => absurd h hrun⟩

/-! ## Runs -/

/-- What holds between the critical sections. -/
structure Monitored (pid : Int) (s : BashState) : Prop where
  inv : Inv pid [] s.sys.job s.sys.log
  ended : s.sys.job.running = true ∨ (WaitOk s.sys.log → Over s.sys.job)
  pc : ∀ fd, s.pc = .poll fd → s.sys.job.running = true

theorem Does.ok {α : Type} {x : BashM α} {s t : BashSys} {a : α} {Q : α → BashSys → Prop} (h : Does x s Q)
    (hx : x s = .ok a t) : Q a t := by
  rw [Does, Ends, hx] at h
  exact h

theorem Inv.captured {s : BashSys} (h : Inv pid [] s.job s.log) (hover : s.job.running = true ∨ (WaitOk s.log → Over s.job))
    (hwait : WaitOk s.log) (hwrite : WriteOk s.log) : Captured pid s where
  bytes := h.bytes
  content := h.content hwrite
  newlines := h.newlines
  last := h.last
  reaped := h.reaped
  complete := by
    intro hrun herr
    obtain hover | hover := hover
    · exact absurd hover (Bool.eq_false_iff.mp hrun)
    · have hwhole := h.whole fun c hc => (h.failed herr c hc).2
      rw [List.append_nil] at hwhole
      exact ⟨h.eof.mp ((hover hwait).resolve_left fun h => h herr), hwhole⟩

theorem Monitored.step {s t : BashState} (hpid : 0 < pid) (h : Monitored pid s) (hst : BashStep s t) : Monitored pid t := by
  cases hst with
  | @poll u fuel answers hpc hx =>
    obtain ⟨hoff, hon⟩ := (@does_agentBashPoll pid fuel { s.sys with answers := answers } hpid h.inv).ok hx
    cases hrun : s.sys.job.running with
    | true =>
      obtain ⟨hinv, hover⟩ := hon hrun
      refine ⟨hinv, hover, fun fd hfd => ?_⟩
      by_cases hu : u.job.running = true
      · exact hu
      · dsimp only at hfd
        rw [if_neg hu] at hfd
        cases hfd
    | false =>
      obtain ⟨hj, hl⟩ := hoff hrun
      refine ⟨?_, ?_, fun fd hfd => ?_⟩
      · rw [hj, hl]
        exact h.inv
      · rw [hj, hl]
        exact h.ended
      · dsimp only at hfd
        rw [hj] at hfd
        dsimp only at hfd
        rw [hrun] at hfd
        cases hfd
  | @wait fd hpc =>
    have hrun := h.pc fd hpc
    exact ⟨h.inv.quiet rfl rfl rfl rfl rfl rfl fun _ => rfl, .inl hrun, fun _ _ => hrun⟩
  | @signal u sig answers hx =>
    obtain ⟨hoff, hon⟩ := (@does_agentBashSignal pid sig { s.sys with answers := answers } hpid h.inv).ok hx
    cases hrun : s.sys.job.running with
    | true =>
      obtain ⟨hinv, hu⟩ := hon hrun
      exact ⟨hinv, .inl hu, fun _ _ => hu⟩
    | false =>
      obtain ⟨hj, hl⟩ := hoff hrun
      refine ⟨by rw [hj, hl]; exact h.inv, by rw [hj, hl]; exact h.ended, fun fd hfd => ?_⟩
      rw [hj]
      exact h.pc fd hfd

theorem monitored_run {s t : BashState} (hpid : 0 < pid) (h : Monitored pid s) (hst : Relation.ReflTransGen BashStep s t) :
    Monitored pid t := by
  induction hst with
  | refl => exact h
  | tail _ hst ih => exact ih.step hpid hst

/-- After its end a job stays as it is, and no call is made for it. -/
theorem Monitored.frozen {s t : BashState} (hpid : 0 < pid) (h : Monitored pid s) (hrun : s.sys.job.running = false)
    (hst : Relation.ReflTransGen BashStep s t) : t.sys.job = s.sys.job ∧ t.sys.log = s.sys.log := by
  induction hst with
  | refl => exact ⟨rfl, rfl⟩
  | @tail u t hsu hut ih =>
    have hu := monitored_run hpid h hsu
    have hurun : u.sys.job.running = false := by rw [ih.1]; exact hrun
    cases hut with
    | @poll v fuel answers hpc hx =>
      obtain ⟨hj, hl⟩ := ((@does_agentBashPoll pid fuel { u.sys with answers := answers } hpid hu.inv).ok hx).1 hurun
      exact ⟨hj.trans ih.1, hl.trans ih.2⟩
    | @wait fd hpc => exact absurd (hu.pc fd hpc) (Bool.eq_false_iff.mp hurun)
    | @signal v sig answers hx =>
      obtain ⟨hj, hl⟩ := ((@does_agentBashSignal pid sig { u.sys with answers := answers } hpid hu.inv).ok hx).1 hurun
      exact ⟨hj.trans ih.1, hl.trans ih.2⟩

end

variable {pid pipeFd tmpFd : Nat} {startTime timeoutSec : ℚ} {s : BashState}

theorem monitored_start : Monitored pid (agentBashStart pid pipeFd tmpFd startTime timeoutSec) :=
  ⟨.start rfl rfl rfl rfl, .inl rfl, fun _ h => nomatch h⟩

/-- In every run in which the wait for the child and the writes go as `WaitOk` and `WriteOk` say, the capture is true and,
once the job is over, complete unless it notes an error; and after the job is over it makes no call. -/
theorem bash_captured (hpid : 0 < pid)
    (h : Relation.ReflTransGen BashStep (agentBashStart pid pipeFd tmpFd startTime timeoutSec) s)
    (hwait : WaitOk s.sys.log) (hwrite : WriteOk s.sys.log) :
    Captured pid s.sys ∧ (s.sys.job.running = false → ∀ t, Relation.ReflTransGen BashStep s t →
      t.sys.job.running = false ∧ t.sys.log.filter Call.usesFd = s.sys.log.filter Call.usesFd) := by
  have hmon := monitored_run (Int.natCast_pos.mpr hpid) monitored_start h
  refine ⟨hmon.inv.captured hmon.ended hwait hwrite, fun hrun t ht => ?_⟩
  obtain ⟨hj, hl⟩ := hmon.frozen (Int.natCast_pos.mpr hpid) hrun ht
  rw [hj, hl]
  exact ⟨hrun, rfl⟩

theorem WaitOk.of_none {log : List Call} (h : ∀ c ∈ log, c.waitFails = false) : WaitOk log := by
  intro a c b hs hc
  exact absurd hc (Bool.eq_false_iff.mp (h c (by rw [hs]; exact List.mem_append_right _ List.mem_cons_self)))

theorem WriteOk.of_none {log : List Call} (h : ∀ c ∈ log, c.writeFails = false) : WriteOk log :=
  List.pairwise_of_forall_mem_list fun c hc _ _ hf => absurd hf (Bool.eq_false_iff.mp (h c hc))

theorem bash_captured_exit : ∃ s, Captured 7 s ∧ s.job.running = false := by
  let log : List Call := [.read 3 (.ok [104, 105]), .write 4 [104, 105] (.ok 2), .read 3 (.ok []),
    .waitpid true (.ok (some (.exited 0))), .read 3 (.ok []), .close 3, .close 4]
  let job : BashJob :=
    { (agentBashStart 7 3 4 0 60).sys.job with
      pipeFd := -1, tmpFd := -1, endTime := 1, bytes := 2, lastByte := 105, exitStatus := 0, running := false, reaped := true,
      pipeEof := true }
  have hrun : Relation.ReflTransGen BashStep (agentBashStart 7 3 4 0 60) ⟨⟨job, [], log⟩, .done⟩ :=
    .single (.poll 4 [.read (.ok [104, 105]), .write (.ok 2), .read (.ok []), .waitpid (.ok (some (.exited 0))), .read (.ok []),
      .now 1] rfl rfl)
  have hwrite : ∀ c ∈ log, c.writeFails = false := by decide
  exact ⟨⟨job, [], log⟩, (bash_captured (by decide) hrun (.of_none (by decide)) (.of_none hwrite)).1, rfl⟩

theorem job_run (s : BashSys) : BashM.job s = .ok s.job s := rfl

/-- A wait that fails before the end of the pipe ends the job without an error; and a write after one that failed leaves
a hole in the file. -/
theorem bash_not_captured :
    (∃ s, Relation.ReflTransGen BashStep (agentBashStart 7 3 4 0 60) s ∧ s.sys.job.running = false ∧
      s.sys.job.outputError = 0 ∧ ¬∃ c ∈ s.sys.log, c.isEof = true) ∧
    ∃ s, Relation.ReflTransGen BashStep (agentBashStart 7 3 4 0 60) s ∧ ¬outputFile s.sys.log <+: pipeBytes s.sys.log := by
  constructor
  · let log : List Call := [.read 3 (.error .eagain), .waitpid true (.error ⟨10, by decide⟩), .close 3, .close 4]
    let job : BashJob :=
      { (agentBashStart 7 3 4 0 60).sys.job with pipeFd := -1, tmpFd := -1, endTime := 1, exitStatus := -1, running := false }
    refine ⟨⟨⟨job, [], log⟩, .done⟩, .single (.poll 4 [.read (.error .eagain), .waitpid (.error ⟨10, by decide⟩), .now 1]
      rfl rfl), rfl, rfl, by decide⟩
  · let log : List Call := [.read 3 (.ok [97]), .write 4 [97] (.error ⟨28, by decide⟩),
      .waitpid true (.ok (some (.exited 0))), .kill (-7) 9]
    let last : List Call := [.read 3 (.ok [98]), .write 4 [98] (.ok 1), .read 3 (.ok []), .close 3, .close 4]
    let answers : List Answer := [.read (.ok [98]), .write (.ok 1), .read (.ok []), .now 1]
    let job : BashJob := { (agentBashStart 7 3 4 0 60).sys.job with reaped := true, outputError := 28 }
    let job' : BashJob :=
      { job with
        pipeFd := -1, tmpFd := -1, endTime := 1, bytes := 1, lastByte := 98, exitStatus := 0, running := false,
        pipeEof := true }
    have hdrain : agentBashDrain 4 ⟨(agentBashStart 7 3 4 0 60).sys.job,
        .read (.ok [97]) :: .write (.error ⟨28, by decide⟩) :: .waitpid (.ok (some (.exited 0))) :: answers, []⟩ =
        .ok () ⟨{ job with reaped := false }, .waitpid (.ok (some (.exited 0))) :: answers, log.take 2⟩ := rfl
    have hchild : askChild ⟨{ job with reaped := false }, .waitpid (.ok (some (.exited 0))) :: answers, log.take 2⟩ =
        .ok (.ok (some (.exited 0))) ⟨{ job with reaped := false }, answers, log.take 3⟩ := rfl
    have hkill : killIfLate 4 ⟨job, answers, log.take 3⟩ = .ok () ⟨job, answers, log⟩ := rfl
    have hlast : agentBashDrain 4 ⟨job, answers, log⟩ =
        .ok () ⟨{ job with pipeEof := true, bytes := 1, lastByte := 98 }, [.now 1], log ++ last.take 3⟩ := rfl
    have hend : agentBashFinalize 4 (.exited 0) ⟨job, answers, log⟩ = .ok () ⟨job', [], log ++ last⟩ := bind_ok hlast
    have hround : endRound 4 ⟨job, answers, log.take 3⟩ = .ok () ⟨job', [], log ++ last⟩ := by
      rw [endRound, bind_ok (job_run _), if_neg (by decide)]
      exact (bind_ok hkill).trans hend
    have hpoll : agentBashPoll 4 ⟨(agentBashStart 7 3 4 0 60).sys.job,
        .read (.ok [97]) :: .write (.error ⟨28, by decide⟩) :: .waitpid (.ok (some (.exited 0))) :: answers, []⟩ =
        .ok () ⟨job', [], log ++ last⟩ := by
      rw [agentBashPoll, bind_ok (job_run _), if_pos (by rfl), bind_ok hdrain, bind_ok hchild]
      exact hround
    exact ⟨⟨⟨job', [], log ++ last⟩, .done⟩, .single (.poll 4 _ rfl hpoll), by decide⟩

end Ds4.Agent
