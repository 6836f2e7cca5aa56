import Mathlib.Algebra.Group.Int.Defs
import Mathlib.Algebra.GroupWithZero.Nat
import Mathlib.Data.List.Basic

/-!
# Programs with a state and errors

`Ends x s Q E`: from the state `s` the program `x` ends in a result and a state that satisfy `Q`, or
with an error in a state that satisfies `E`; the state of an error is the one that was reached.
-/

namespace ErrorState

variable {ε σ α β ι : Type}

def Ends (x : EStateM ε σ α) (s : σ) (Q : α → σ → Prop) (E : σ → Prop) : Prop :=
  match x s with
  | .ok a t => Q a t
  | .error _ t => E t

/-- A step of a program that fails unless a condition holds. -/
def orThrow (c : Bool) (e : ε) : EStateM ε σ Unit := if c then pure () else throw e

section Runs
variable {x : EStateM ε σ α} {f : α → EStateM ε σ β} {s t : σ} {a : α} {e : ε}

theorem bind_ok (h : x s = .ok a t) : (x >>= f) s = f a t := by
  change EStateM.bind x f s = f a t
  rw [EStateM.bind, h]

theorem bind_error (h : x s = .error e t) : (x >>= f) s = .error e t := by
  change EStateM.bind x f s = .error e t
  rw [EStateM.bind, h]

theorem orThrow_true (e : ε) (s : σ) : orThrow true e s = .ok () s := rfl

theorem orThrow_false (e : ε) (s : σ) : orThrow false e s = .error e s := rfl

end Runs

namespace Ends

variable {x : EStateM ε σ α} {f : α → EStateM ε σ β} {s : σ} {Q R : α → σ → Prop} {E F : σ → Prop}
  {P : β → σ → Prop}

theorem pure {a : α} (h : Q a s) : Ends (Pure.pure a : EStateM ε σ α) s Q E := h

theorem throw {e : ε} (h : E s) : Ends (MonadExcept.throw e : EStateM ε σ α) s Q E := h

theorem get {Q : σ → σ → Prop} (h : Q s s) : Ends (MonadState.get : EStateM ε σ σ) s Q E := h

theorem modify {g : σ → σ} {Q : PUnit → σ → Prop} (h : Q ⟨⟩ (g s)) : 
    Ends (MonadStateOf.modifyGet (fun t => (⟨⟩, g t)) : EStateM ε σ PUnit) s Q E := h

theorem mono (h : Ends x s R F) (hQ : ∀ a t, R a t → Q a t) (hE : ∀ t, F t → E t) : Ends x s Q E := by
  rw [Ends] at h ⊢
  cases hx : x s with
  | ok a t =>
    rw [hx] at h
    exact hQ a t h
  | error e t =>
    rw [hx] at h
    exact hE t h

theorem and (h : Ends x s Q E) (h' : Ends x s R F) :
    Ends x s (fun a t => Q a t ∧ R a t) fun t => E t ∧ F t := by
  rw [Ends] at h h' ⊢
  cases hx : x s with
  | ok a t =>
    rw [hx] at h h'
    exact ⟨h, h'⟩
  | error e t =>
    rw [hx] at h h'
    exact ⟨h, h'⟩

/-- A program ends in one way or the other. -/
theorem absurd (h : Ends x s Q E) (hQ : ∀ a t, ¬Q a t) (hE : ∀ t, ¬E t) : False := by
  rw [Ends] at h
  cases hx : x s with
  | ok a t =>
    rw [hx] at h
    exact hQ a t h
  | error e t =>
    rw [hx] at h
    exact hE t h

theorem bind (h : Ends x s R E) (hf : ∀ a t, R a t → Ends (f a) t P E) : Ends (x >>= f) s P E := by
  rw [Ends] at h
  cases hx : x s with
  | ok a t =>
    rw [hx] at h
    rw [Ends, bind_ok hx]
    exact hf a t h
  | error e t =>
    rw [hx] at h
    rw [Ends, bind_error hx]
    exact h

/-- A program that begins with a look at its state. -/
theorem get_bind {f : σ → EStateM ε σ β} (h : Ends (f s) s P E) :
    Ends ((MonadState.get : EStateM ε σ σ) >>= f) s P E := h

/-- A program that begins with a change of its state. -/
theorem modify_bind {g : σ → σ} {f : PUnit → EStateM ε σ β} (h : Ends (f ⟨⟩) (g s) P E) :
    Ends ((MonadStateOf.modifyGet fun t => (⟨⟩, g t) : EStateM ε σ PUnit) >>= f) s P E := h

theorem orThrow_bind {c : Bool} {e : ε} {f : Unit → EStateM ε σ β}
    (hok : c = true → Ends (f ()) s P E) (herr : c = false → E s) :
    Ends (ErrorState.orThrow c e >>= f) s P E := by
  cases c with
  | true => exact hok rfl
  | false => exact herr rfl

theorem ofExcept_bind {c : Except ε α} {f : α → EStateM ε σ β}
    (hok : ∀ a, c = .ok a → Ends (f a) s P E) (herr : ∀ e, c = .error e → E s) :
    Ends ((MonadExcept.ofExcept c : EStateM ε σ α) >>= f) s P E := by
  cases c with
  | ok a => exact hok a rfl
  | error e => exact herr e rfl

/-- A loop keeps what each of its turns keeps. -/
theorem forM {l : List ι} {body : ι → EStateM ε σ PUnit} {I : σ → Prop} (h : I s)
    (hbody : ∀ i ∈ l, ∀ t, I t → Ends (body i) t (fun _ => I) E) :
    Ends (l.forM body) s (fun _ => I) E := by
  induction l generalizing s with
  | nil => exact h
  | cons i l ih =>
    exact (hbody i List.mem_cons_self s h).bind fun _ t ht =>
      ih ht fun j hj => hbody j (List.mem_cons_of_mem i hj)

end Ends

end ErrorState
