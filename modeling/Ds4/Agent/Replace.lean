import Ds4.Lib.CString
import Ds4.Lib.Vfs

/-!
# Replacing a file

`agent_replace_file` as a state machine over its system calls. Each of them is one step and may fail; between two of them
other processes may do what they like to the files. Symbolic links do not change during the call.
-/

namespace Ds4.Agent.Replace
open C Vfs

abbrev Path := Bytes

structure Ino where
  dev : Nat
  ino : Nat
  deriving DecidableEq

abbrev FileSystem := Fs Path Ino UInt8

/-- `struct stat`; times are in nanoseconds. -/
structure Stat where
  ino : Ino
  size : Nat
  nlink : Nat
  regular : Bool
  mode : Nat
  uid : Nat
  gid : Nat
  mtim : Nat
  ctim : Nat

def statOf (fs : FileSystem) (i : Ino) : Stat :=
  let f := fs.file i
  ⟨i, f.content.length, f.nlink, f.regular, f.mode, f.uid, f.gid, f.mtim, f.ctim⟩

def agentSameFileVersion (a b : Stat) : Bool :=
  a.ino.dev == b.ino.dev && a.ino.ino == b.ino.ino && a.size == b.size && a.nlink == b.nlink && a.mtim == b.mtim &&
    a.ctim == b.ctim

/-- The arguments. -/
structure Call where
  path : Path
  data : Bytes
  expected : Option Bytes

/-- What the system and the process have that no step changes. -/
structure System where
  /-- Symbolic links followed. -/
  resolve : Path → Path
  resolve_resolve : ∀ p, resolve (resolve p) = resolve p
  strerror : Nat → Bytes
  uid : Nat
  gid : Nat
  umask : Nat

/-- The next system call. -/
inductive Pc
  | lstat
  | realpath
  | openTarget
  | fstat
  | read (pos : Nat)
  | mkstemp
  | unlinkFirst
  | closeFirst
  | openTemp
  | write (pos : Nat)
  | fchown
  | fchmod
  | copyXattrs
  | fsync
  | close
  | realpathAgain
  | stat
  | rename
  | link
  | unlinkLinked
  | closeFd
  | closeSrc
  | unlinkTemp
  | returned

structure State where
  fs : FileSystem
  pc : Pc
  target : Path
  /-- `none` is `temp[0] == 0`. -/
  temp : Option Path
  fileExists : Bool
  before : Stat
  src : Option Ino
  fd : Option Ino
  rc : Int
  err : Bytes

def State.start (fs : FileSystem) : State where
  fs
  pc := .lstat
  target := []
  temp := none
  fileExists := false
  before := ⟨⟨0, 0⟩, 0, 0, false, 0, 0, 0, 0, 0⟩
  src := none
  fd := none
  rc := -1
  err := []

/-- What a system call answers. -/
inductive Outcome
  | ok
  | fail (errno : Nat)
  | count (n : Nat)
  /-- A new file, with the six characters of its name that `mkstemp` chooses. -/
  | made (suffix : Bytes) (i : Ino)

def enoent : Nat := 2
def eintr : Nat := 4
def eio : Nat := 5
def enametoolong : Nat := 36
def pathMax : Nat := 4096

section
variable (sys : System) (c : Call) (s : State)

/-! ## The exits -/

def changed : State := { s with err := lit "file changed while editing; read it again: " ++ c.path, pc := .closeFd }

def refused : State :=
  { s with err := lit "refusing to replace non-regular or hard-linked file: " ++ c.path, pc := .closeFd }

def failed (errno : Nat) : State :=
  { s with err := lit "replace " ++ c.path ++ lit ": " ++ sys.strerror errno, pc := .closeFd }

/-- Calls that answer nothing but their success. -/
def check (o : Outcome) (next : State) (onFail : Nat → State) : Option State :=
  match o with
  | .ok => some next
  | .fail e => some (onFail e)
  | _ => none

/-! ## The target -/

/-- The name of the temporary file has to fit. -/
def nameTemp : State :=
  if pathMax ≤ s.target.length + 11 then failed sys c s enametoolong else { s with pc := .mkstemp }

def isPresent (fs : FileSystem) : Bool := (fs.dir (sys.resolve c.path)).isSome

/-- No file and no symbolic link. -/
def isAbsent (fs : FileSystem) : Bool := (fs.dir c.path).isNone && sys.resolve c.path == c.path

def absent : State :=
  if c.expected.isSome then changed c { s with fileExists := false }
  else
    let s := { s with fileExists := false, target := c.path.take (pathMax - 1) }
    if pathMax ≤ c.path.length then failed sys c s enametoolong else nameTemp sys c s

def onLstat : Outcome → Option State
  | .ok => if isAbsent sys c s.fs then none else some { s with fileExists := true, pc := .realpath }
  | .fail e =>
    if e = enoent then (if isAbsent sys c s.fs then some (absent sys c s) else none)
    else some (failed sys c s e)
  | _ => none

def onRealpath : Outcome → Option State
  | .ok => if isPresent sys c s.fs then some { s with target := sys.resolve c.path, pc := .openTarget } else none
  | .fail e => some (failed sys c s e)
  | _ => none

def onOpenTarget (o : Outcome) : Option State :=
  match o, s.fs.dir s.target with
  | .ok, some i => some { s with src := some i, pc := .fstat }
  | .fail e, _ => some (failed sys c s e)
  | _, _ => none

/-- `while (pos < expected_len)` -/
def readOn (expected : Bytes) (pos : Nat) : State :=
  if pos < expected.length then { s with pc := .read pos } else nameTemp sys c s

def opened : State :=
  if s.before.regular = false ∨ s.before.nlink ≠ 1 then refused c s
  else
    match c.expected with
    | none => nameTemp sys c s
    | some e => if s.before.size ≠ e.length then changed c s else readOn sys c s e 0

def onFstat (o : Outcome) : Option State :=
  match o, s.src with
  | .ok, some i => some (opened sys c { s with before := statOf s.fs i })
  | .fail e, _ => some (failed sys c s e)
  | _, _ => none

/-- At the end of the file `read` answers 0, and only there. -/
def onRead (pos : Nat) (o : Outcome) : Option State :=
  match o, s.src, c.expected with
  | .count n, some i, some e =>
    let content := (s.fs.file i).content
    if n ≤ min (min (e.length - pos) 8192) (content.length - pos) ∧ (n = 0 → content.length ≤ pos) then
      if n = 0 ∨ (content.drop pos).take n ≠ (e.drop pos).take n then some (changed c s)
      else some (readOn sys c s e (pos + n))
    else none
  | .fail e, _, _ => if e = eintr then some s else some (failed sys c s e)
  | _, _, _ => none

/-! ## The temporary file -/

/-- `for (size_t pos = 0; pos < len;)` -/
def writeOn (pos : Nat) : State :=
  if pos < c.data.length then { s with pc := .write pos }
  else if s.fileExists then { s with pc := .fchown }
  else { s with pc := .fsync }

def tempName (target suffix : Bytes) : Path := target ++ lit ".ds4-" ++ suffix

def onMkstemp : Outcome → Option State
  | .made suffix i =>
    let temp := tempName s.target suffix
    if suffix.length = 6 ∧ (s.fs.dir temp).isNone ∧ sys.resolve temp = temp ∧ s.src ≠ some i then
      let s := { s with fs := s.fs.create temp i 0o600 sys.uid sys.gid, temp := some temp, fd := some i }
      some (if s.fileExists then writeOn c s 0 else { s with pc := .unlinkFirst })
    else none
  | .fail e => some (failed sys c s e)
  | _ => none

/-- `unlink(temp)` with what follows it. -/
def unlinkThen (o : Outcome) (next : State → State) (onFail : Nat → State) : Option State :=
  match o, s.temp with
  | .ok, some temp => (s.fs.dir temp).map fun i => next { s with fs := s.fs.unlink temp i }
  | .fail e, some _ => some (onFail e)
  | _, _ => none

def onUnlinkFirst (o : Outcome) : Option State :=
  unlinkThen s o (fun s => { s with pc := .closeFirst }) (failed sys c s)

def onCloseFirst (o : Outcome) : Option State :=
  let s := { s with fd := none, pc := .openTemp }
  check o s fun _ => s

def onOpenTemp (o : Outcome) : Option State :=
  match o, s.temp with
  | .made _ i, some temp =>
    if (s.fs.dir temp).isNone ∧ s.src ≠ some i then
      some (writeOn c
        { s with fs := s.fs.create temp i (0o666 - (0o666 &&& sys.umask)) sys.uid sys.gid, fd := some i } 0)
    else none
  | .fail e, _ => some (failed sys c { s with temp := none, fd := none } e)
  | _, _ => none

def onWrite (pos : Nat) (o : Outcome) : Option State :=
  match o, s.fd with
  | .count n, some i =>
    if n = 0 then some (failed sys c s eio)
    else if n ≤ c.data.length - pos then
      some (writeOn c { s with fs := s.fs.write 0 i pos ((c.data.drop pos).take n) } (pos + n))
    else none
  | .fail e, _ => if e = eintr then some s else some (failed sys c s e)
  | _, _ => none

/-- A call that changes what is known about the temporary file. -/
def onMeta (f : File UInt8 → File UInt8) (next : Pc) (o : Outcome) : Option State :=
  match s.fd with
  | some i => check o { s with fs := s.fs.set i (f (s.fs.file i)), pc := next } (failed sys c s)
  | none => none

def onFchown : Outcome → Option State :=
  onMeta sys c s (fun f => { f with uid := s.before.uid, gid := s.before.gid }) .fchmod

def onFchmod : Outcome → Option State := onMeta sys c s (fun f => { f with mode := s.before.mode % 0o10000 }) .copyXattrs

/-- `agent_copy_file_xattrs` may have copied some attributes when it fails. -/
def agentCopyFileXattrs (o : Outcome) : Option State :=
  match s.fd with
  | some i =>
    let s := { s with fs := s.fs.set i (s.fs.file i) }
    check o { s with pc := .fsync } (failed sys c s)
  | none => none

def onFsync (o : Outcome) : Option State := check o { s with pc := .close } (failed sys c s)

def onClose (o : Outcome) : Option State :=
  let s := { s with fd := none }
  check o { s with pc := if s.fileExists then .realpathAgain else .link } (failed sys c s)

/-! ## The commit -/

def onRealpathAgain : Outcome → Option State
  | .ok =>
    if isPresent sys c s.fs then some (if sys.resolve c.path ≠ s.target then changed c s else { s with pc := .stat })
    else none
  | .fail _ => some (changed c s)
  | _ => none

def onStat (o : Outcome) : Option State :=
  match o, s.fs.dir s.target with
  | .ok, some i => some (if agentSameFileVersion s.before (statOf s.fs i) then { s with pc := .rename } else changed c s)
  | .fail _, _ => some (changed c s)
  | _, _ => none

def onRename (o : Outcome) : Option State :=
  match o, s.temp with
  | .ok, some temp => (s.fs.dir temp).map fun i =>
    { s with fs := s.fs.rename temp s.target i, temp := none, rc := 0, pc := .closeFd }
  | .fail e, some _ => some (failed sys c s e)
  | _, _ => none

def onLink (o : Outcome) : Option State :=
  match o, s.temp with
  | .ok, some temp =>
    if (s.fs.dir s.target).isNone then
      (s.fs.dir temp).map fun i => { s with fs := s.fs.link s.target i, pc := .unlinkLinked }
    else none
  | .fail e, some _ => some (failed sys c s e)
  | _, _ => none

def onUnlinkLinked (o : Outcome) : Option State :=
  let done := fun s : State => { s with temp := none, rc := 0, pc := .closeFd }
  unlinkThen s o done fun _ => done s

/-! ## `done:` -/

def onCloseFd (o : Outcome) : Option State :=
  let s := { s with fd := none, pc := .closeSrc }
  check o s fun _ => s

def onCloseSrc (o : Outcome) : Option State :=
  let s := { s with src := none, pc := .unlinkTemp }
  check o s fun _ => s

def onUnlinkTemp (o : Outcome) : Option State :=
  match s.temp, o with
  | some _, _ => unlinkThen s o (fun s => { s with pc := .returned }) fun _ => { s with pc := .returned }
  | none, .ok => some { s with pc := .returned }
  | none, _ => none

/-- One system call of `agent_replace_file` and what follows it; `none` where the call cannot answer this. -/
def callStep (o : Outcome) : Option State :=
  match s.pc with
  | .lstat => onLstat sys c s o
  | .realpath => onRealpath sys c s o
  | .openTarget => onOpenTarget sys c s o
  | .fstat => onFstat sys c s o
  | .read pos => onRead sys c s pos o
  | .mkstemp => onMkstemp sys c s o
  | .unlinkFirst => onUnlinkFirst sys c s o
  | .closeFirst => onCloseFirst s o
  | .openTemp => onOpenTemp sys c s o
  | .write pos => onWrite sys c s pos o
  | .fchown => onFchown sys c s o
  | .fchmod => onFchmod sys c s o
  | .copyXattrs => agentCopyFileXattrs sys c s o
  | .fsync => onFsync sys c s o
  | .close => onClose sys c s o
  | .realpathAgain => onRealpathAgain sys c s o
  | .stat => onStat c s o
  | .rename => onRename sys c s o
  | .link => onLink sys c s o
  | .unlinkLinked => onUnlinkLinked s o
  | .closeFd => onCloseFd s o
  | .closeSrc => onCloseSrc s o
  | .unlinkTemp => onUnlinkTemp s o
  | .returned => none

end

/-! ## Runs -/

/-- A new file is one that no name stands for. -/
def Outcome.Fresh (fs : FileSystem) : Outcome → Prop
  | .made _ i => ∀ p, fs.dir p ≠ some i
  | _ => True

/-- A step of the call, with the answer, or of another process. -/
structure Transition where
  outcome : Option Outcome
  src : State
  dst : State

section
variable (sys : System) (c : Call) (env : State → FileSystem → Prop)

inductive Step : Option Outcome → State → State → Prop
  | call {s s' : State} {o : Outcome} (hstep : callStep sys c s o = some s') (hfresh : o.Fresh s.fs) : Step (some o) s s'
  | other {s : State} {fs : FileSystem} (hpc : s.pc ≠ .returned) (hlater : s.fs.Later fs) (henv : env s fs) :
    Step none s { s with fs }

/-- The transitions from the start of the call. -/
inductive Run (fs : FileSystem) : List Transition → State → Prop
  | start : Run fs [] (.start fs)
  | step {ts : List Transition} {s s' : State} {o : Option Outcome} (hrun : Run fs ts s)
    (hstep : Step sys c env o s s') : Run fs (ts ++ [⟨o, s, s'⟩]) s'

end

end Ds4.Agent.Replace
