import Mathlib.Algebra.Group.Int.Defs
import Mathlib.Algebra.GroupWithZero.Nat
import Mathlib.Data.List.Chain

/-!
# Growing inputs

A consumer that is called with longer and longer prefixes of one text. `Growing ps` says that each
input is a prefix of the next one; `Growing.foldl` is the induction rule for what the consumer
has done before the last call.
-/

namespace Scan

variable {α σ : Type*} {s t : List α} {ps : List (List α)} {st : σ}

/-- Each input is a prefix of the next. -/
abbrev Growing (ps : List (List α)) : Prop := ps.IsChain (· <+: ·)

theorem Growing.foldl_cons {f : σ → List α → σ} {I : List α → σ → Prop}
    (hstep : ∀ s t st, s <+: t → I s st → I t (f st t)) (h : Growing (s :: (ps ++ [t])))
    (hi : I s st) : ∃ s' st', s' <+: t ∧ I s' st' ∧ (ps ++ [t]).foldl f st = f st' t := by
  induction ps generalizing s st with
  | nil => exact ⟨s, st, (List.isChain_cons_cons.1 h).1, hi, rfl⟩
  | cons p ps ih =>
    obtain ⟨h1, h2⟩ := List.isChain_cons_cons.1 h
    exact ih h2 (hstep s p st h1 hi)

/-- An invariant that relates the last input to the state holds before the last call. -/
theorem Growing.foldl {f : σ → List α → σ} {I : List α → σ → Prop}
    (hstep : ∀ s t st, s <+: t → I s st → I t (f st t)) (h : Growing (ps ++ [t]))
    (hi : I [] st) : ∃ s' st', s' <+: t ∧ I s' st' ∧ (ps ++ [t]).foldl f st = f st' t := by
  refine Growing.foldl_cons hstep (s := []) ?_ hi
  cases ps with
  | nil => exact .cons_cons List.nil_prefix h
  | cons p ps => exact .cons_cons List.nil_prefix h

theorem Growing.isPrefix_last (h : Growing (s :: (ps ++ [t]))) : s <+: t := by
  induction ps generalizing s with
  | nil => exact (List.isChain_cons_cons.1 h).1
  | cons p ps ih =>
    obtain ⟨h1, h2⟩ := List.isChain_cons_cons.1 h
    exact h1.trans (ih h2)

/-- The same for a consumer that may fail: if a step from the invariant does not fail, no call of
the run does. -/
theorem Growing.foldlM_cons {ε : Type*} {f : σ → List α → Except ε σ} {I : List α → σ → Prop}
    (hstep : ∀ s p st, s <+: p → p <+: t → I s st → ∃ st', f st p = .ok st' ∧ I p st')
    (h : Growing (s :: (ps ++ [t]))) (hi : I s st) :
    ∃ s' st', s' <+: t ∧ I s' st' ∧ ps.foldlM f st = .ok st' := by
  induction ps generalizing s st with
  | nil => exact ⟨s, st, (List.isChain_cons_cons.1 h).1, hi, rfl⟩
  | cons p ps ih =>
    obtain ⟨h1, h2⟩ := List.isChain_cons_cons.1 h
    obtain ⟨st1, hf, hi1⟩ := hstep s p st h1 (Growing.isPrefix_last h2) hi
    obtain ⟨s', st', h3, h4, h5⟩ := ih h2 hi1
    refine ⟨s', st', h3, h4, ?_⟩
    rw [List.foldlM_cons, hf]
    exact h5

theorem Growing.foldlM {ε : Type*} {f : σ → List α → Except ε σ} {I : List α → σ → Prop}
    (hstep : ∀ s p st, s <+: p → p <+: t → I s st → ∃ st', f st p = .ok st' ∧ I p st')
    (h : Growing (ps ++ [t])) (hi : I [] st) :
    ∃ s' st', s' <+: t ∧ I s' st' ∧ ps.foldlM f st = .ok st' := by
  apply Growing.foldlM_cons hstep (s := []) _ hi
  cases ps with
  | nil => exact .cons_cons List.nil_prefix h
  | cons p ps => exact .cons_cons List.nil_prefix h

end Scan
