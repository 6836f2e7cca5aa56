import Ds4.Lib.Faulty

/-!
# The target model and the graph of a session

The model is a deterministic function of the tokens: `step` evaluates a token at a position on the
caches, and `logits` are those of the last token evaluated. The graph holds the caches of a session
together with what speculative decoding keeps beside them: the copy of the frontier, the states
behind the first tokens of a verified suffix, and the logits of its rows. The calls are those of the
session code to the graph; each of them can fail and then leaves what it writes unspecified.
-/

namespace Ds4.Engine
open Faulty

variable {κ L τ : Type}

structure Model (κ L τ : Type) where
  init : κ
  step : κ → τ → Nat → κ
  logits : κ → L
  argmax : L → τ

namespace Model

variable (m : Model κ L τ)

/-- Tokens evaluated one after the other from a position on. -/
def steps (k : κ) (pos : Nat) : List τ → κ
  | [] => k
  | t :: ts => steps (m.step k t pos) (pos + 1) ts

/-- The caches of plain decoding. -/
def state (ts : List τ) : κ := m.steps m.init 0 ts

/-- The logits of plain decoding. -/
def out (ts : List τ) : L := m.logits (m.state ts)

/-- The greedy continuation of some tokens. -/
def next (ts : List τ) : τ := m.argmax (m.out ts)

theorem steps_append (k : κ) (pos : Nat) (a b : List τ) :
    m.steps k pos (a ++ b) = m.steps (m.steps k pos a) (pos + a.length) b := by
  induction a generalizing k pos with
  | nil => rfl
  | cons t a ih =>
    rw [List.cons_append, steps, ih, steps, List.length_cons, Nat.add_assoc, Nat.add_comm 1]

theorem state_append (a b : List τ) : m.state (a ++ b) = m.steps (m.state a) a.length b := by
  rw [state, steps_append, Nat.zero_add]
  rfl

theorem state_concat (a : List τ) (t : τ) : m.state (a ++ [t]) = m.step (m.state a) t a.length :=
  m.state_append a [t]

end Model

/-- The graph of a session. -/
structure Graph (κ L : Type) where
  /-- The caches. -/
  live : κ
  /-- The copy of the frontier that a snapshot makes. -/
  frontier : κ
  /-- The states behind the first tokens of a verified suffix. -/
  prefixes : Nat → κ
  /-- The logits of the rows of a verified suffix. -/
  rows : Nat → L
  /-- The logits of the last token evaluated. -/
  head : L

/-- What becomes of a failure: the session code looks at the result, or it goes on without. -/
inductive Care
  | minded
  | ignored
  deriving DecidableEq, Repr

abbrev GraphProg (κ L α : Type) := Prog Care (Graph κ L) α

/-- The rows of a suffix that is evaluated from a state on. -/
def Model.row (m : Model κ L τ) (k : κ) (start : Nat) (ts : List τ) (i : Nat) : κ :=
  m.steps k start (ts.take (i + 1))

variable (m : Model κ L τ)

def metalGraphEvalToken (care : Care) (t : τ) (pos : Nat) : GraphProg κ L (Option L) :=
  .ask care
    (fun g =>
      let k := m.step g.live t pos
      ({ g with live := k, head := m.logits k }, m.logits k))
    fun x g => { g with live := x.live, head := x.head }

/-- The token with the highest logit behind the token evaluated; the logits stay in the graph. -/
def metalGraphEvalTokenTop (t : τ) (pos : Nat) : GraphProg κ L (Option τ) :=
  .ask .minded
    (fun g =>
      let k := m.step g.live t pos
      ({ g with live := k, head := m.logits k }, m.argmax (m.logits k)))
    fun x g => { g with live := x.live, head := x.head }

def readLogits : GraphProg κ L (Option L) := .ask .minded (fun g => (g, g.head)) fun _ g => g

def specFrontierSnapshot : GraphProg κ L (Option Unit) :=
  .ask .minded (fun g => ({ g with frontier := g.live }, ())) fun x g => { g with frontier := x.frontier }

def specFrontierRestore (care : Care) : GraphProg κ L (Option Unit) :=
  .ask care (fun g => ({ g with live := g.frontier }, ())) fun x g => { g with live := x.live }

def specFrontierCommitPrefix (len : Nat) : GraphProg κ L (Option Unit) :=
  .ask .minded (fun g => ({ g with live := g.prefixes (len - 1) }, ())) fun x g =>
    { g with live := x.live }

/-- The rows are evaluated in one pass; all but the last are followed by the token with the highest
logit, and the states behind them are kept when that is asked for. -/
def metalGraphVerifySuffixTops (ts : List τ) (start : Nat) (capture : Bool) :
    GraphProg κ L (Option (List τ)) :=
  .ask .minded
    (fun g =>
      ({ g with
          live := m.steps g.live start ts
          prefixes := if capture && 1 < ts.length then m.row g.live start ts else g.prefixes
          rows := fun i => m.logits (m.row g.live start ts i) },
        (List.range (ts.length - 1)).map fun i => m.argmax (m.logits (m.row g.live start ts i))))
    fun x g => { g with live := x.live, prefixes := x.prefixes, rows := x.rows }

def metalGraphReadSpecLogitsRow (row : Nat) : GraphProg κ L (Option L) :=
  .ask .minded (fun g => (g, g.rows row)) fun _ g => g

/-- Two tokens: the token with the highest logit behind the first one, and the logits of both. -/
def metalGraphVerifyDecode2Exact (t0 t1 : τ) (start : Nat) : GraphProg κ L (Option (τ × L × L)) :=
  .ask .minded
    (fun g =>
      let k0 := m.step g.live t0 start
      let k1 := m.step k0 t1 (start + 1)
      ({ g with live := k1, prefixes := fun i => if i = 0 then k0 else g.prefixes i },
        (m.argmax (m.logits k0), m.logits k0, m.logits k1)))
    fun x g => { g with live := x.live, prefixes := x.prefixes }

/-- The draft model proposes a token; its own caches are not part of the graph here. -/
def metalGraphEvalMtpDraft (t : τ) : GraphProg κ L (Option τ) := .ask .minded (fun g => (g, t)) fun _ g => g

end Ds4.Engine
