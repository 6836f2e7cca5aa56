import Mathlib.Algebra.Order.Ring.Unbundled.Rat
import Ds4.Agent.Buf
import Ds4.Lib.ErrorState

/-!
# Shell jobs

A job of `agent_bash_start` is watched by a monitor: each of its rounds moves what the pipe holds to the output file, asks
for the child and ends the job when it is over, out of time or to be stopped. What the system answers is taken from a list,
and every call is noted with its result, so what the file holds can be read off from the calls.
-/

namespace Ds4.Agent
open C ErrorState

/-- An error of a call. -/
def Errno : Type := { n : Nat // n ≠ 0 }

instance : DecidableEq Errno := inferInstanceAs (DecidableEq { n : Nat // n ≠ 0 })

namespace Errno

def eintr : Errno := ⟨4, by decide⟩
def eio : Errno := ⟨5, by decide⟩
def eagain : Errno := ⟨11, by decide⟩
def ewouldblock : Errno := ⟨11, by decide⟩

end Errno

def sigkill : Nat := 9

inductive WaitStatus
  | exited (code : Nat)
  | signaled (sig : Nat)
  | other

inductive Answer
  | read (r : Except Errno Bytes)
  | write (r : Except Errno Nat)
  /-- `none` while the child runs. -/
  | waitpid (r : Except Errno (Option WaitStatus))
  | now (t : ℚ)

inductive Call
  | read (fd : Int) (r : Except Errno Bytes)
  | write (fd : Int) (s : Bytes) (r : Except Errno Nat)
  | close (fd : Int)
  | waitpid (nohang : Bool) (r : Except Errno (Option WaitStatus))
  | kill (pid : Int) (sig : Nat)
  | poll (fd : Int)

structure BashJob where
  pid : Int
  pipeFd : Int
  tmpFd : Int
  startTime : ℚ
  endTime : ℚ
  stopDeadline : ℚ
  timeoutSec : ℚ
  bytes : Nat
  newlineCount : Nat
  lastByte : UInt8
  exitStatus : Int
  running : Bool
  timedOut : Bool
  reaped : Bool
  pipeEof : Bool
  childStatus : WaitStatus
  outputError : Nat

/-- A job, the answers to come and the calls so far. -/
structure BashSys where
  job : BashJob
  answers : List Answer
  log : List Call

/-- It stops where no answer comes. -/
abbrev BashM := EStateM Unit BashSys

namespace BashM

def job : BashM BashJob := fun s => .ok s.job s

def setJob (f : BashJob → BashJob) : BashM Unit := fun s => .ok () { s with job := f s.job }

def call (c : Call) : BashM Unit := fun s => .ok () { s with log := s.log ++ [c] }

def answer : BashM Answer := fun s =>
  match s.answers with
  | [] => .error () s
  | a :: as => .ok a { s with answers := as }

/-- At most 4096 bytes. None are the end of the file. -/
def read (fd : Int) : BashM (Except Errno Bytes) := do
  match ← answer with
  | .read r =>
    let r := r.map (·.take 4096)
    call (.read fd r)
    return r
  | _ => throw ()

def write (fd : Int) (s : Bytes) : BashM (Except Errno Nat) := do
  match ← answer with
  | .write r =>
    let r := r.map (min · s.length)
    call (.write fd s r)
    return r
  | _ => throw ()

def waitpid (nohang : Bool) : BashM (Except Errno (Option WaitStatus)) := do
  match ← answer with
  | .waitpid r =>
    call (.waitpid nohang r)
    return r
  | _ => throw ()

def nowSec : BashM ℚ := do
  match ← answer with
  | .now t => return t
  | _ => throw ()

end BashM

open BashM

def agentBashNoteOutput (s : Bytes) (job : BashJob) : BashJob :=
  { job with
    newlineCount := s.foldl (fun n b => if b = ch '\n' ∧ n < intMax - 1 then n + 1 else n) job.newlineCount
    lastByte := s.getLast?.getD job.lastByte
    bytes := job.bytes + s.length }

/-- A job that is stopped has a second left. -/
def setStopDeadline (sig : Nat) : BashM Unit := do
  if sig = sigkill ∧ (← job).stopDeadline = 0 then
    let t ← nowSec
    setJob fun j => { j with stopDeadline := t + 1 }
  else return ()

def killJob (sig : Nat) : BashM Unit := do
  let j ← job
  call (.kill (-j.pid) sig)
  if j.reaped then return () else call (.kill j.pid sig)

def agentBashSignal (sig : Nat) : BashM Unit := do
  if (← job).running then
    setStopDeadline sig
    killJob sig
  else return ()

/-- The loop over the bytes of one read; whether all of them were written. -/
def writeOutput : Nat → Bytes → BashM Bool
  | 0, _ => throw ()
  | fuel + 1, s =>
    if s = [] then return true
    else do
      match ← write (← job).tmpFd s with
      | .error e =>
        if e = .eintr then writeOutput fuel s
        else do
          setJob fun j => { j with outputError := e.val }
          return false
      | .ok 0 =>
        setJob fun j => { j with outputError := Errno.eio.val }
        return false
      | .ok n =>
        setJob (agentBashNoteOutput (s.take n))
        writeOutput fuel (s.drop n)

def drainLoop : Nat → Nat → BashM Unit
  | 0, _ => throw ()
  | fuel + 1, drained =>
    -- an endless writer does not keep its deadline from being checked
    if drained < 256 * 1024 then do
      match ← read (← job).pipeFd with
      | .ok [] => setJob fun j => { j with pipeEof := true }
      | .ok s => if ← writeOutput fuel s then drainLoop fuel (drained + s.length) else return ()
      | .error e =>
        if e = .eintr then drainLoop fuel drained
        else if e ≠ .eagain ∧ e ≠ .ewouldblock then setJob fun j => { j with outputError := e.val }
        else return ()
    else return ()

def agentBashDrain (fuel : Nat) : BashM Unit := do
  if 0 ≤ (← job).pipeFd then drainLoop fuel 0 else return ()

def closePipe : BashM Unit := do
  let j ← job
  if 0 ≤ j.pipeFd then
    call (.close j.pipeFd)
    setJob fun j => { j with pipeFd := -1 }
  else return ()

def closeTmp : BashM Unit := do
  let j ← job
  if 0 ≤ j.tmpFd then
    call (.close j.tmpFd)
    setJob fun j => { j with tmpFd := -1 }
  else return ()

def exitStatusOf : WaitStatus → Int
  | .exited code => code
  | .signaled sig => 128 + sig
  | .other => -1

def agentBashFinalize (fuel : Nat) (status : WaitStatus) : BashM Unit := do
  agentBashDrain fuel
  closePipe
  closeTmp
  setJob fun j => { j with exitStatus := exitStatusOf status, running := false }
  let t ← nowSec
  setJob fun j => { j with endTime := t }

/-- `while (waitpid(job->pid, &status, 0) < 0 && errno == EINTR) {}` -/
def waitLoop : Nat → BashM WaitStatus
  | 0 => throw ()
  | fuel + 1 => do
    match ← waitpid false with
    | .error e => if e = .eintr then waitLoop fuel else return .exited 0
    | .ok status => return status.getD (.exited 0)

/-- The end of a job whose child cannot be waited for. -/
def endWaitError : BashM Unit := do
  setJob fun j => { j with exitStatus := -1, running := false }
  let t ← nowSec
  setJob fun j => { j with endTime := t }
  closePipe
  closeTmp

/-- The output cannot be written or the job is out of time. -/
def mustKill : BashM Bool := do
  let j ← job
  if j.timedOut then return false
  else if j.outputError ≠ 0 then return true
  else return decide (j.timeoutSec ≤ (← nowSec) - j.startTime)

/-- The child is killed and reaped. -/
def killLate (fuel : Nat) : BashM Unit := do
  setJob fun j => { j with timedOut := decide (j.outputError = 0) }
  killJob sigkill
  if (← job).reaped then return ()
  else
    let status ← waitLoop fuel
    setJob fun j => { j with reaped := true, childStatus := status }

def pastTimeout (j : BashJob) : BashM Bool := do
  if j.timedOut then return decide (j.timeoutSec + 1 < (← nowSec) - j.startTime) else return false

/-- The job ends although its pipe may still be open. -/
def mustEnd : BashM Bool := do
  let j ← job
  if j.outputError ≠ 0 then return true
  else if ← pastTimeout j then return true
  else if j.stopDeadline ≠ 0 then return decide (j.stopDeadline ≤ (← nowSec))
  else return false

/-- A descendant that keeps the pipe open does not keep the job from ending. -/
def noteCutOff (j : BashJob) : BashJob :=
  if j.outputError = 0 ∧ ¬j.pipeEof then { j with outputError := Errno.eio.val } else j

def askChild : BashM (Except Errno (Option WaitStatus)) := do
  if (← job).reaped then return .ok none else waitpid true

def noteChild : Except Errno (Option WaitStatus) → BashM Unit
  | .ok (some status) => setJob fun j => { j with reaped := true, childStatus := status }
  | _ => return ()

def killIfLate (fuel : Nat) : BashM Unit := do
  if ← mustKill then killLate fuel else return ()

/-- The part of a round behind the wait for the child. -/
def endRound (fuel : Nat) : BashM Unit := do
  let j ← job
  if j.reaped ∧ j.pipeEof then agentBashFinalize fuel j.childStatus
  else
    killIfLate fuel
    if ← mustEnd then
      setJob noteCutOff
      agentBashFinalize fuel (← job).childStatus
    else return ()

def waitFailed : Except Errno (Option WaitStatus) → Bool
  | .error e => decide (e ≠ .eintr)
  | .ok _ => false

def agentBashPoll (fuel : Nat) : BashM Unit := do
  if (← job).running then
    agentBashDrain fuel
    let rc ← askChild
    noteChild rc
    if waitFailed rc then endWaitError else endRound fuel
  else return ()

/-! ## Runs -/

/-- Where the monitor thread is between its critical sections. -/
inductive MonitorPc
  | lock
  | poll (fd : Int)
  | done

structure BashState where
  sys : BashSys
  pc : MonitorPc

/-- The monitor and the tool thread in any order, with any answers. -/
inductive BashStep : BashState → BashState → Prop
  | poll {s : BashState} {t : BashSys} (fuel : Nat) (answers : List Answer) (hpc : s.pc = .lock)
      (h : agentBashPoll fuel { s.sys with answers := answers } = .ok () t) :
      BashStep s ⟨t, if t.job.running then .poll t.job.pipeFd else .done⟩
  | wait {s : BashState} {fd : Int} (hpc : s.pc = .poll fd) :
      BashStep s ⟨{ s.sys with log := s.sys.log ++ [.poll fd] }, .lock⟩
  | signal {s : BashState} {t : BashSys} (sig : Nat) (answers : List Answer)
      (h : agentBashSignal sig { s.sys with answers := answers } = .ok () t) : BashStep s ⟨t, s.pc⟩

/-- The job that `agent_bash_start` sets up. -/
def agentBashStart (pid pipeFd tmpFd : Nat) (startTime timeoutSec : ℚ) : BashState where
  sys :=
    { job :=
        { pid := pid, pipeFd := pipeFd, tmpFd := tmpFd, startTime := startTime, endTime := 0, stopDeadline := 0,
          timeoutSec := timeoutSec, bytes := 0, newlineCount := 0, lastByte := 0, exitStatus := -1, running := true,
          timedOut := false, reaped := false, pipeEof := false, childStatus := .exited 0, outputError := 0 }
      answers := []
      log := [] }
  pc := .lock

end Ds4.Agent
