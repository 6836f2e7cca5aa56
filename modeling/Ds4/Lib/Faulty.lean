import Mathlib.Algebra.Group.Int.Defs
import Mathlib.Algebra.GroupWithZero.Nat
import Mathlib.Logic.Function.Basic

/-!
# Programs over a device whose calls may fail

A call has an effect on the state of the device and a result. When it fails there is no result, and
`spoil g s` is the state it leaves: what the call was to write is taken from an arbitrary state `g`.
The labels tell calls apart in what is said about failures. `exec` takes the outcomes from a list,
and `Safe may p Q s` is the weakest precondition for "`p` ends in `Q`" when only the calls whose
labels satisfy `may` fail.
-/

namespace Faulty

variable {Λ σ α γ : Type}

inductive Prog (Λ σ α : Type) : Type 1
  | ret (a : α)
  | call {ρ : Type} (l : Λ) (f : σ → σ × ρ) (spoil : σ → σ → σ) (k : Option ρ → Prog Λ σ α)

namespace Prog

def bind : Prog Λ σ α → (α → Prog Λ σ γ) → Prog Λ σ γ
  | ret a, f => f a
  | call l g spoil k, f => call l g spoil fun r => (k r).bind f

instance : Monad (Prog Λ σ) where
  pure := ret
  bind := bind

/-- One call and its result unless it failed. -/
def ask {ρ : Type} (l : Λ) (f : σ → σ × ρ) (spoil : σ → σ → σ) : Prog Λ σ (Option ρ) :=
  call l f spoil ret

/-- The result and the state of an execution, the outcomes left, and the labels of the calls that
failed. -/
structure Exec (Λ σ α : Type) where
  result : α
  state : σ
  rest : List (Option σ)
  failed : List Λ

/-- An outcome `some g` is a failure that spoils with `g`; outcomes that are not given are successes. -/
def exec : Prog Λ σ α → List (Option σ) → σ → Exec Λ σ α
  | ret a, os, s => ⟨a, s, os, []⟩
  | call l f spoil k, os, s =>
    match os.head?.join with
    | some g =>
      let r := exec (k none) os.tail (spoil g s)
      { r with failed := l :: r.failed }
    | none => exec (k (some (f s).2)) os.tail (f s).1

/-- The program ends in `Q`, whatever calls that may fail do. -/
def Safe (may : Λ → Prop) : Prog Λ σ α → (α → σ → Prop) → σ → Prop
  | ret a, Q, s => Q a s
  | call l f spoil k, Q, s =>
    Safe may (k (some (f s).2)) Q (f s).1 ∧ (may l → ∀ g, Safe may (k none) Q (spoil g s))

/-- The program on one of several devices. -/
def on {ι : Type} [DecidableEq ι] (i : ι) : Prog Λ σ α → Prog Λ (ι → σ) α
  | ret a => ret a
  | call l f spoil k =>
    call l (fun s => (Function.update s i (f (s i)).1, (f (s i)).2))
      (fun g s => Function.update s i (spoil (g i) (s i))) fun r => (k r).on i

/-- Without outcomes nothing fails. -/
theorem exec_nil_failed (p : Prog Λ σ α) (s : σ) : (p.exec [] s).failed = [] := by
  induction p generalizing s with
  | ret a => rfl
  | call l f spoil k ih => exact ih _ _

namespace Safe

variable {may : Λ → Prop} {p : Prog Λ σ α} {Q : α → σ → Prop} {s : σ}

theorem pure (h : Q a s) : Safe may (Pure.pure a) Q s := h

theorem mono {Q' : α → σ → Prop} (h : Safe may p Q s) (hQ : ∀ a s, Q a s → Q' a s) :
    Safe may p Q' s := by
  induction p generalizing s with
  | ret a => exact hQ a s h
  | call l f spoil k ih => exact ⟨ih _ h.1, fun hl g => ih _ (h.2 hl g)⟩

theorem bind {f : α → Prog Λ σ γ} {R : γ → σ → Prop} (h : Safe may p Q s)
    (hf : ∀ a s, Q a s → Safe may (f a) R s) : Safe may (p >>= f) R s := by
  change Safe may (p.bind f) R s
  induction p generalizing s with
  | ret a => exact hf a s h
  | call l g spoil k ih => exact ⟨ih _ h.1, fun hl x => ih _ (h.2 hl x)⟩

/-- A call in front of a program. -/
theorem ask {ρ : Type} {l : Λ} {f : σ → σ × ρ} {spoil : σ → σ → σ} {k : Option ρ → Prog Λ σ γ}
    {R : γ → σ → Prop} (hok : Safe may (k (some (f s).2)) R (f s).1)
    (hfail : may l → ∀ g, Safe may (k none) R (spoil g s)) :
    Safe may (Prog.ask l f spoil >>= k) R s := ⟨hok, hfail⟩

/-- The other devices stay as they are. -/
theorem on {ι : Type} [DecidableEq ι] {i : ι} {s : ι → σ} (h : Safe may p Q (s i)) :
    Safe may (p.on i) (fun a s' => (∀ j, j ≠ i → s' j = s j) ∧ Q a (s' i)) s := by
  induction p generalizing s with
  | ret a => exact ⟨fun _ _ => rfl, h⟩
  | call l f spoil k ih =>
    have hstep : ∀ r t, Safe may (k r) Q t → Safe may ((k r).on i)
        (fun a s' => (∀ j, j ≠ i → s' j = s j) ∧ Q a (s' i)) (Function.update s i t) := by
      intro r t ht
      rw [← Function.update_self i t s] at ht
      refine (ih r ht).mono ?_
      rintro a s' ⟨hframe, hQ⟩
      exact ⟨fun j hj => (hframe j hj).trans (Function.update_of_ne hj _ _), hQ⟩
    exact ⟨hstep _ _ h.1, fun hl g => hstep _ _ (h.2 hl (g i))⟩

/-- What an execution ends in. -/
theorem exec (h : Safe may p Q s) (os : List (Option σ)) (hmay : ∀ l ∈ (p.exec os s).failed, may l) :
    Q (p.exec os s).result (p.exec os s).state := by
  induction p generalizing s os with
  | ret a => exact h
  | call l f spoil k ih =>
    rw [Prog.exec] at hmay ⊢
    cases hos : os.head?.join with
    | some g =>
      rw [hos] at hmay
      have hl : may l := hmay l List.mem_cons_self
      exact ih none (h.2 hl g) os.tail fun l hl => hmay l (List.mem_cons_of_mem _ hl)
    | none =>
      rw [hos] at hmay
      exact ih _ h.1 os.tail hmay

end Safe

end Prog

end Faulty
