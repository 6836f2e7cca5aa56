import Mathlib.Algebra.BigOperators.Group.List.Basic
import Mathlib.Algebra.Group.Int.Defs
import Mathlib.Algebra.GroupWithZero.Nat
import Mathlib.Data.List.Nodup

/-!
# Programs over a directory of files

A directory is a finite map from names to contents. A program is a tree of file operations, each of
which may succeed, fail without an effect, or be the point of a crash. `run` is the run in which
every operation that can succeed does; `exec` takes the outcomes from a list and records the
operations done. `Safe G p Q d` is the weakest precondition for "every operation of `p` satisfies `G`
and `p` ends in `Q`", whatever the outcomes are.
-/

namespace Files

variable {ν β : Type} [DecidableEq ν]

/-! ## Directories -/

/-- Files with their names; no name occurs twice. -/
@[ext] structure Dir (ν β : Type) where
  files : List (ν × List β)
  nodup : (files.map Prod.fst).Nodup

namespace Dir

variable {d : Dir ν β} {n m : ν} {c c' : List β}

def empty : Dir ν β := ⟨[], List.nodup_nil⟩

def get (d : Dir ν β) (n : ν) : Option (List β) := (d.files.find? (·.1 = n)).map Prod.snd

def erase (d : Dir ν β) (n : ν) : Dir ν β where
  files := d.files.filter (·.1 ≠ n)
  nodup := d.nodup.sublist (List.filter_sublist.map _)

def put (d : Dir ν β) (n : ν) (c : List β) : Dir ν β where
  files := (d.erase n).files ++ [(n, c)]
  nodup := by
    rw [List.map_append, List.nodup_append]
    refine ⟨(d.erase n).nodup, List.nodup_singleton _, ?_⟩
    rintro a ha b hb rfl
    obtain ⟨f, hf, rfl⟩ := List.mem_map.1 ha
    have := (List.mem_filter.1 hf).2
    simp_all

theorem get_eq_some : d.get n = some c ↔ (n, c) ∈ d.files := by
  rw [get, Option.map_eq_some_iff]
  constructor
  · rintro ⟨f, hf, rfl⟩
    have h1 := List.find?_some hf
    have h2 := List.mem_of_find?_eq_some hf
    simp only [decide_eq_true_eq] at h1
    rwa [← h1]
  · intro h
    cases hf : d.files.find? (·.1 = n) with
    | none =>
      have := List.find?_eq_none.1 hf _ h
      simp at this
    | some f =>
      have h1 := List.find?_some hf
      have h2 := List.mem_of_find?_eq_some hf
      simp only [decide_eq_true_eq] at h1
      have := List.inj_on_of_nodup_map d.nodup h2 h h1
      exact ⟨f, rfl, by rw [this]⟩

@[simp] theorem get_empty : (empty : Dir ν β).get n = none := rfl

theorem ext_get {d' : Dir ν β} (h : ∀ f, f ∈ d.files ↔ f ∈ d'.files) : d.get n = d'.get n := by
  ext c
  rw [get_eq_some, get_eq_some, h]

theorem mem_erase {f : ν × List β} : f ∈ (d.erase n).files ↔ f ∈ d.files ∧ f.1 ≠ n := by
  simp [erase]

theorem mem_put {f : ν × List β} : f ∈ (d.put n c).files ↔ (f ∈ d.files ∧ f.1 ≠ n) ∨ f = (n, c) := by
  rw [put, List.mem_append, mem_erase, List.mem_singleton]

@[simp] theorem get_put_self : (d.put n c).get n = some c := by
  rw [get_eq_some, mem_put]
  exact .inr rfl

theorem get_put_of_ne (h : m ≠ n) : (d.put n c).get m = d.get m := by
  ext x
  rw [get_eq_some, get_eq_some, mem_put]
  constructor
  · rintro (⟨hx, -⟩ | hx)
    · exact hx
    · exact absurd (congrArg Prod.fst hx) h
  · exact fun hx => .inl ⟨hx, h⟩

@[simp] theorem get_erase_self : (d.erase n).get n = none := by
  cases h : (d.erase n).get n with
  | none => rfl
  | some x =>
    rw [get_eq_some, mem_erase] at h
    exact absurd rfl h.2

theorem get_erase_of_ne (h : m ≠ n) : (d.erase n).get m = d.get m := by
  ext x
  rw [get_eq_some, get_eq_some, mem_erase]
  exact ⟨fun hx => hx.1, fun hx => ⟨hx, h⟩⟩

theorem erase_put_self : (d.put n c).erase n = d.erase n := by
  ext1
  simp [put, erase]

theorem put_put : (d.put n c).put n c' = d.put n c' := by
  ext1
  change ((d.put n c).erase n).files ++ _ = _
  rw [erase_put_self]
  rfl

/-- A weight of the files, summed up. -/
def sum (w : ν × List β → Nat) (d : Dir ν β) : Nat := (d.files.map w).sum

theorem sum_erase (w : ν × List β → Nat) (h : d.get n = some c) :
    (d.erase n).sum w + w (n, c) = d.sum w := by
  obtain ⟨a, b, hab⟩ := List.append_of_mem (get_eq_some.1 h)
  have hnd := d.nodup
  rw [hab, List.map_append, List.map_cons, List.nodup_middle, List.nodup_cons, ← List.map_append]
    at hnd
  have hfilter : (d.erase n).files = a ++ b := by
    change d.files.filter (·.1 ≠ n) = a ++ b
    rw [hab, List.filter_append, List.filter_cons_of_neg (by simp), ← List.filter_append,
      List.filter_eq_self]
    intro f hf
    have : f.1 ≠ n := fun hn => hnd.1 (List.mem_map.2 ⟨f, hf, hn⟩)
    simp [this]
  rw [sum, sum, hfilter, hab]
  simp only [List.map_append, List.map_cons, List.sum_append, List.sum_cons]
  omega

theorem erase_of_get_none (h : d.get n = none) : (d.erase n).files = d.files := by
  rw [erase, List.filter_eq_self]
  intro f hf
  have : f.1 ≠ n := by
    rintro rfl
    have := get_eq_some.2 hf
    rw [h] at this
    cases this
  simp [this]

theorem sum_put (w : ν × List β → Nat) : (d.put n c).sum w = (d.erase n).sum w + w (n, c) := by
  simp [sum, put]

end Dir

/-! ## Operations -/

/-- `opened` stands for the operations that leave the directory as it is. -/
inductive FileOp (ν β : Type)
  | create (name : ν)
  | append (name : ν) (bytes : List β)
  | overwrite (name : ν) (bytes : List β)
  | truncate (name : ν) (len : Nat) (pad : β)
  | unlink (name : ν)
  | rename (old new : ν)
  | opened (name : ν)
  deriving DecidableEq

namespace FileOp

/-- The operation finds the file it needs. -/
def can (op : FileOp ν β) (d : Dir ν β) : Bool :=
  match op with
  | create _ => true
  | append n _ | overwrite n _ | truncate n _ _ | unlink n | rename n _ | opened n => (d.get n).isSome

def effect (op : FileOp ν β) (d : Dir ν β) : Dir ν β :=
  match op with
  | create n => d.put n []
  | append n b => d.put n ((d.get n).getD [] ++ b)
  | overwrite n b => d.put n (b ++ ((d.get n).getD []).drop b.length)
  | truncate n len pad =>
    let c := (d.get n).getD []
    d.put n (c.take len ++ List.replicate (len - c.length) pad)
  | unlink n => d.erase n
  | rename a b => (d.erase a).put b ((d.get a).getD [])
  | opened _ => d

/-- The name is given up or goes to another file. -/
def replaces (op : FileOp ν β) (n : ν) : Prop :=
  match op with
  | unlink m => m = n
  | rename a b => a = n ∨ b = n
  | _ => False

end FileOp

/-! ## Programs -/

inductive Prog (ν β α : Type)
  | ret (a : α)
  | act (op : FileOp ν β) (k : Bool → Prog ν β α)
  | look (k : Dir ν β → Prog ν β α)

namespace Prog

variable {α γ : Type}

def bind : Prog ν β α → (α → Prog ν β γ) → Prog ν β γ
  | ret a, f => f a
  | act op k, f => act op fun ok => (k ok).bind f
  | look k, f => look fun d => (k d).bind f

omit [DecidableEq ν] in
instance : Monad (Prog ν β) where
  pure := ret
  bind := bind

/-- Do one operation and tell whether it succeeded. -/
def op (o : FileOp ν β) : Prog ν β Bool := act o ret

def dir : Prog ν β (Dir ν β) := look ret

/-- The result and the directory when every operation that can succeed does. -/
def run : Prog ν β α → Dir ν β → α × Dir ν β
  | ret a, d => (a, d)
  | look k, d => run (k d) d
  | act op k, d => if op.can d then run (k true) (op.effect d) else run (k false) d

@[simp] theorem run_pure (a : α) (d : Dir ν β) : run (pure a) d = (a, d) := rfl

@[simp] theorem run_bind (p : Prog ν β α) (f : α → Prog ν β γ) (d : Dir ν β) :
    run (p >>= f) d = run (f (run p d).1) (run p d).2 := by
  change run (p.bind f) d = _
  induction p generalizing d with
  | ret a => rfl
  | look k ih => exact ih d d
  | act op k ih =>
    rw [bind, run, run]
    split
    · exact ih true _
    · exact ih false _

theorem run_op (o : FileOp ν β) (d : Dir ν β) :
    run (op o) d = if o.can d then (true, o.effect d) else (false, d) := rfl

@[simp] theorem run_dir (d : Dir ν β) : run dir d = (d, d) := rfl

/-! ## Outcomes -/

inductive Outcome
  | ok
  | fail
  | crash
  deriving DecidableEq, Repr

/-- An execution: its result unless it crashed, the outcomes left, the directory, and the operations
done, each with the directory before it. -/
structure Exec (ν β α : Type) where
  result : Option α
  rest : List Outcome
  dir : Dir ν β
  steps : List (FileOp ν β × Dir ν β)

/-- Outcomes that are not given are successes. -/
def exec : Prog ν β α → List Outcome → Dir ν β → Exec ν β α
  | ret a, os, d => ⟨some a, os, d, []⟩
  | look k, os, d => exec (k d) os d
  | act op k, os, d =>
    match os.headD .ok with
    | .crash => ⟨none, [], d, []⟩
    | .fail => exec (k false) os.tail d
    | .ok =>
      if op.can d then
        let r := exec (k true) os.tail (op.effect d)
        { r with steps := (op, d) :: r.steps }
      else exec (k false) os.tail d

/-- Operations that lead from one directory to another, each with the directory before it. -/
def Chain : Dir ν β → List (FileOp ν β × Dir ν β) → Dir ν β → Prop
  | d, [], d' => d = d'
  | d, s :: ss, d' => s.2 = d ∧ Chain (s.1.effect d) ss d'

theorem exec_chain (p : Prog ν β α) (os : List Outcome) (d : Dir ν β) :
    Chain d (p.exec os d).steps (p.exec os d).dir := by
  induction p generalizing os d with
  | ret a => rfl
  | look k ih => exact ih d os d
  | act op k ih =>
    rw [exec]
    split
    · rfl
    · exact ih false _ d
    · split
      · exact ⟨rfl, ih true _ _⟩
      · exact ih false _ d

/-- The steps of the run in which every operation that can succeed does. -/
def steps (p : Prog ν β α) (d : Dir ν β) : List (FileOp ν β × Dir ν β) := (p.exec [] d).steps

@[simp] theorem steps_pure (a : α) (d : Dir ν β) : steps (pure a : Prog ν β α) d = [] := rfl

@[simp] theorem steps_dir (d : Dir ν β) : steps (dir : Prog ν β _) d = [] := rfl

theorem steps_op (o : FileOp ν β) (d : Dir ν β) :
    steps (op o) d = if o.can d then [(o, d)] else [] := by
  rw [steps, op, exec]
  split
  · cases ‹_›
  · cases ‹_›
  · split <;> rfl

@[simp] theorem steps_bind (p : Prog ν β α) (f : α → Prog ν β γ) (d : Dir ν β) :
    steps (p >>= f) d = steps p d ++ steps (f (run p d).1) (run p d).2 := by
  change steps (p.bind f) d = _
  induction p generalizing d with
  | ret a => rfl
  | look k ih => exact ih d d
  | act op k ih =>
    simp only [steps, bind, exec, List.headD_nil, List.tail_nil, run] at ih ⊢
    split
    · rw [List.cons_append, ← ih true]
    · exact ih false d

/-- Every operation satisfies `G` and the program ends in `Q`, for all outcomes. -/
def Safe (G : FileOp ν β → Dir ν β → Prop) : Prog ν β α → (α → Dir ν β → Prop) → Dir ν β → Prop
  | ret a, Q, d => Q a d
  | look k, Q, d => Safe G (k d) Q d
  | act op k, Q, d =>
    (op.can d = true → G op d ∧ Safe G (k true) Q (op.effect d)) ∧ Safe G (k false) Q d

namespace Safe

variable {G : FileOp ν β → Dir ν β → Prop} {p : Prog ν β α} {Q : α → Dir ν β → Prop} {d : Dir ν β}

theorem pure (h : Q a d) : Safe G (Pure.pure a) Q d := h

theorem mono {Q' : α → Dir ν β → Prop} (h : Safe G p Q d) (hQ : ∀ a d, Q a d → Q' a d) :
    Safe G p Q' d := by
  induction p generalizing d with
  | ret a => exact hQ a d h
  | look k ih => exact ih d h
  | act op k ih => exact ⟨fun hc => ⟨(h.1 hc).1, ih true (h.1 hc).2⟩, ih false h.2⟩

theorem bind {f : α → Prog ν β γ} {R : γ → Dir ν β → Prop} (h : Safe G p Q d)
    (hf : ∀ a d, Q a d → Safe G (f a) R d) : Safe G (p >>= f) R d := by
  change Safe G (p.bind f) R d
  induction p generalizing d with
  | ret a => exact hf a d h
  | look k ih => exact ih d h
  | act op k ih => exact ⟨fun hc => ⟨(h.1 hc).1, ih true (h.1 hc).2⟩, ih false h.2⟩

theorem op {o : FileOp ν β} {Q : Bool → Dir ν β → Prop}
    (hok : o.can d = true → G o d ∧ Q true (o.effect d)) (hfail : Q false d) :
    Safe G (Prog.op o) Q d := ⟨hok, hfail⟩

theorem dir {Q : Dir ν β → Dir ν β → Prop} (h : Q d d) : Safe G Prog.dir Q d := h

/-- The first program leaves the directory as it is. -/
theorem bind_same {f : α → Prog ν β γ} {R : γ → Dir ν β → Prop} (h : Safe G p (fun _ d' => d' = d) d)
    (hf : ∀ a, Safe G (f a) R d) : Safe G (p >>= f) R d := by
  apply h.bind
  intro a d' hd
  rw [hd]
  exact hf a

theorem bind_dir {f : Dir ν β → Prog ν β γ} {R : γ → Dir ν β → Prop} (h : Safe G (f d) R d) :
    Safe G (Prog.dir >>= f) R d := h

/-- What an execution keeps. -/
theorem exec (h : Safe G p Q d) (os : List Outcome) :
    (∀ s ∈ (p.exec os d).steps, G s.1 s.2) ∧
      ∀ a, (p.exec os d).result = some a → Q a (p.exec os d).dir := by
  induction p generalizing d os with
  | ret a =>
    refine ⟨nofun, ?_⟩
    rintro _ ⟨⟩
    exact h
  | look k ih => exact ih d h os
  | act op k ih =>
    rw [Prog.exec]
    cases os.headD .ok with
    | crash => exact ⟨nofun, nofun⟩
    | fail => exact ih false h.2 os.tail
    | ok =>
      by_cases hc : op.can d = true
      · obtain ⟨hG, hk⟩ := h.1 hc
        obtain ⟨hsteps, hres⟩ := ih true hk os.tail
        simp only [if_pos hc]
        refine ⟨?_, hres⟩
        intro s hs
        rcases List.mem_cons.1 hs with rfl | hs
        · exact hG
        · exact hsteps s hs
      · simp only [if_neg hc]
        exact ih false h.2 os.tail

end Safe

end Prog

end Files
