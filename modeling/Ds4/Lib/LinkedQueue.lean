import Mathlib.Algebra.Group.Int.Defs
import Mathlib.Algebra.GroupWithZero.Nat
import Mathlib.Data.List.Nodup
import Mathlib.Logic.Function.Basic

/-!
# Singly linked queues

A queue of nodes that carry their own `next` pointer, with a head and a tail pointer. `q.Repr l`
says that the pointers spell the list `l`. The operations are those of an intrusive list: append at
the tail, walk from the head with the node before in hand, and unlink the node the walk stopped at.
-/

namespace Linked

variable {α β : Type*}

structure Queue (α : Type*) where
  head : Option α
  tail : Option α
  next : α → Option α

namespace Queue

def empty : Queue α := ⟨none, none, fun _ => none⟩

/-- The first node at which `f` answers, with the node before it. The first argument bounds the
number of nodes visited. -/
def scan (next : α → Option α) (f : α → Option β) :
    Nat → Option α → Option α → Option (α × Option α × β)
  | 0, _, _ => none
  | _ + 1, _, none => none
  | n + 1, prev, some x =>
    match f x with
    | some b => some (x, prev, b)
    | none => scan next f n (some x) (next x)

variable [DecidableEq α]

def push (q : Queue α) (x : α) : Queue α where
  head := if q.tail = none then some x else q.head
  tail := some x
  next := match q.tail with
    | some t => Function.update q.next t (some x)
    | none => q.next

/-- Take `x` out, `prev` being the node before it. -/
def unlink (q : Queue α) (prev : Option α) (x : α) : Queue α where
  head := if prev = none then q.next x else q.head
  tail := if q.tail = some x then prev else q.tail
  next := match prev with
    | some y => Function.update (Function.update q.next y (q.next x)) x none
    | none => Function.update q.next x none

end Queue

/-! ## Chains -/

/-- Following `next` from a pointer visits exactly `l`. -/
inductive Chain (next : α → Option α) : Option α → List α → Prop
  | nil : Chain next none []
  | cons {x : α} {l : List α} : Chain next (next x) l → Chain next (some x) (x :: l)

variable [DecidableEq α] {next : α → Option α} {p : Option α} {x y : α} {l l' a b : List α}

omit [DecidableEq α] in
theorem Chain.unique (h : Chain next p l) (h' : Chain next p l') : l = l' := by
  induction h generalizing l' with
  | nil => cases h'; rfl
  | cons _ ih =>
    cases h' with
    | cons h' => rw [ih h']

theorem Chain.update (h : Chain next p l) (hx : x ∉ l) :
    Chain (Function.update next x v) p l := by
  induction h with
  | nil => exact .nil
  | @cons y l _ ih =>
    rw [List.mem_cons, not_or] at hx
    refine .cons ?_
    rw [Function.update_of_ne (Ne.symm hx.1)]
    exact ih hx.2

theorem Chain.snoc (h : Chain next p (l ++ [y])) (hn : (l ++ [y]).Nodup) (hx : next x = none)
    (hxy : x ∉ l ++ [y]) : Chain (Function.update next y (some x)) p (l ++ [y, x]) := by
  induction l generalizing p with
  | nil =>
    cases h
    have hne : x ≠ y := by simpa using hxy
    refine .cons ?_
    rw [Function.update_self]
    refine .cons ?_
    rw [Function.update_of_ne hne, hx]
    exact .nil
  | cons z l ih =>
    cases h with
    | cons h =>
      rw [List.cons_append, List.nodup_cons] at hn
      have hzy : z ≠ y := by rintro rfl; exact hn.1 (by simp)
      refine .cons ?_
      rw [Function.update_of_ne hzy]
      exact ih h hn.2 fun hm => hxy (List.mem_cons_of_mem _ hm)

/-- The pointers of `q` spell `l`, and nodes outside of it point nowhere. -/
structure Queue.Repr (q : Queue α) (l : List α) : Prop where
  chain : Chain q.next q.head l
  tail : q.tail = l.getLast?
  nodup : l.Nodup
  off : ∀ x ∉ l, q.next x = none

namespace Queue.Repr

variable {q : Queue α}

omit [DecidableEq α] in
theorem empty : (Queue.empty : Queue α).Repr [] := ⟨.nil, rfl, List.nodup_nil, fun _ _ => rfl⟩

omit [DecidableEq α] in
theorem unique (h : q.Repr l) (h' : q.Repr l') : l = l' := h.chain.unique h'.chain

omit [DecidableEq α] in
theorem head_eq_none_iff (h : q.Repr l) : q.head = none ↔ l = [] := by
  have hc := h.chain
  constructor
  · intro hh
    rw [hh] at hc
    cases hc; rfl
  · rintro rfl
    generalize q.head = p at hc
    cases hc; rfl

theorem push (h : q.Repr l) (hx : x ∉ l) : (q.push x).Repr (l ++ [x]) := by
  obtain ⟨hc, ht, hn, ho⟩ := h
  have hnd : (l ++ [x]).Nodup := by
    simpa [List.nodup_append, hn] using fun a ha (e : a = x) => hx (e ▸ ha)
  refine ⟨?_, by simp [Queue.push], hnd, fun z hz => ?_⟩
  · rcases List.eq_nil_or_concat l with rfl | ⟨l, y, rfl⟩
    · have ht : q.tail = none := ht
      simp only [Queue.push, ht]
      refine .cons ?_
      rw [ho x hx]
      exact .nil
    · simp only [List.concat_eq_append, List.getLast?_append_cons, List.getLast?_singleton] at *
      simp only [Queue.push, ht, List.append_assoc, List.singleton_append]
      exact hc.snoc hn (ho x hx) hx
  · rw [List.mem_append, not_or, List.mem_singleton] at hz
    rcases List.eq_nil_or_concat l with rfl | ⟨l, y, rfl⟩
    · have ht : q.tail = none := ht
      simp only [Queue.push, ht]
      exact ho z hz.1
    · simp only [List.concat_eq_append, List.getLast?_append_cons, List.getLast?_singleton] at *
      simp only [Queue.push, ht]
      rw [Function.update_of_ne (by rintro rfl; exact hz.1 (by simp))]
      exact ho z hz.1

end Queue.Repr

/-! ## Walks -/

omit [DecidableEq α] in
theorem Queue.scan_some {f : α → Option β} {r : β}
    (h : Queue.scan next f n prev p = some (x, prev', r)) : f x = some r := by
  induction n generalizing prev p with
  | zero => cases h
  | succ n ih =>
    cases p with
    | none => cases h
    | some y =>
      rw [Queue.scan] at h
      cases hf : f y with
      | some _ => rw [hf] at h; cases h; exact hf
      | none => rw [hf] at h; exact ih h

omit [DecidableEq α] in
/-- A walk with enough steps finds the first node at which `f` answers. -/
theorem Chain.scan_eq (h : Chain next p l) (f : α → Option β) (hn : l.length < n)
    (prev : Option α) :
    (Queue.scan next f n prev p = none ∧ ∀ x ∈ l, f x = none) ∨
    ∃ a x b r, l = a ++ x :: b ∧ (∀ y ∈ a, f y = none) ∧ f x = some r ∧
      Queue.scan next f n prev p = some (x, a.getLast?.or prev, r) := by
  induction h generalizing n prev with
  | nil =>
    obtain ⟨n, rfl⟩ : ∃ m, n = m + 1 := ⟨n - 1, by omega⟩
    exact .inl ⟨rfl, fun _ h => nomatch h⟩
  | @cons x l hc ih =>
    obtain ⟨n, rfl⟩ : ∃ m, n = m + 1 := ⟨n - 1, by omega⟩
    rw [List.length_cons] at hn
    rw [Queue.scan]
    cases hf : f x with
    | some r => exact .inr ⟨[], x, l, r, rfl, (fun _ h => nomatch h), hf, rfl⟩
    | none =>
      rcases ih (show l.length < n by omega) (some x) with ⟨h1, h2⟩ | ⟨a, z, b, r, rfl, h2, h3, h4⟩
      · refine .inl ⟨h1, ?_⟩
        rintro y (_ | ⟨_, hy⟩)
        · exact hf
        · exact h2 y hy
      · refine .inr ⟨x :: a, z, b, r, rfl, ?_, h3, ?_⟩
        · rintro y (_ | ⟨_, hy⟩)
          · exact hf
          · exact h2 y hy
        · simp only [h4, List.getLast?_cons]
          cases a.getLast? <;> rfl

/-! ## Unlinking -/

theorem Chain.unlink_tail (h : Chain next p (l ++ y :: x :: b)) (hn : (l ++ y :: x :: b).Nodup) :
    Chain (Function.update (Function.update next y (next x)) x none) p (l ++ y :: b) := by
  induction l generalizing p with
  | nil =>
    cases h with
    | cons h =>
      generalize hy : next y = r at h
      cases h with
      | cons h =>
        rw [List.nil_append, List.nodup_cons, List.nodup_cons, List.mem_cons, not_or] at hn
        refine .cons ?_
        rw [Function.update_of_ne hn.1.1, Function.update_self]
        exact (h.update hn.1.2).update hn.2.1
  | cons z l ih =>
    cases h with
    | cons h =>
      rw [List.cons_append, List.nodup_cons] at hn
      refine .cons ?_
      rw [Function.update_of_ne (by rintro rfl; exact hn.1 (by simp)),
        Function.update_of_ne (by rintro rfl; exact hn.1 (by simp))]
      exact ih h hn.2

/-- Unlinking the node a walk stopped at erases it from the list. -/
theorem Queue.Repr.unlink {q : Queue α} (h : q.Repr (a ++ x :: b)) :
    (q.unlink a.getLast? x).Repr (a ++ b) := by
  obtain ⟨hc, ht, hn, ho⟩ := h
  have hx : x ∉ a ++ b := by
    have := (List.nodup_middle.1 hn)
    exact (List.nodup_cons.1 this).1
  have hnd : (a ++ b).Nodup := (List.nodup_cons.1 (List.nodup_middle.1 hn)).2
  have hb : b ≠ [] → b.getLast? ≠ some x := fun _ e =>
    hx (List.mem_append_right _ (List.mem_of_getLast? e))
  have htail : (q.unlink a.getLast? x).tail = (a ++ b).getLast? := by
    simp only [Queue.unlink, ht, List.getLast?_append, List.getLast?_cons]
    cases b with
    | nil => simp
    | cons c b =>
      have := hb (by simp)
      simp only [List.getLast?_cons] at this ⊢
      simp [this]
  rcases List.eq_nil_or_concat a with rfl | ⟨a, y, rfl⟩
  · refine ⟨?_, htail, hnd, fun z hz => ?_⟩
    · simp only [List.nil_append] at hc hx ⊢
      generalize hp : q.head = p at hc
      cases hc with
      | cons hc => exact hc.update hx
    · simp only [Queue.unlink, List.getLast?_nil]
      by_cases hzx : z = x
      · rw [hzx, Function.update_self]
      · rw [Function.update_of_ne hzx]
        exact ho z (by simp [hzx]; simpa using hz)
  · simp only [List.concat_eq_append, List.append_assoc, List.singleton_append,
      List.getLast?_append_cons, List.getLast?_singleton] at *
    refine ⟨?_, by rw [List.getLast?_append_cons]; exact htail, hnd, fun z hz => ?_⟩
    · exact hc.unlink_tail hn
    · simp only [Queue.unlink]
      by_cases hzx : z = x
      · rw [hzx, Function.update_self]
      · have hzy : z ≠ y := by rintro rfl; exact hz (by simp)
        rw [Function.update_of_ne hzx, Function.update_of_ne hzy]
        refine ho z fun hm => hz ?_
        simp only [List.mem_append, List.mem_cons] at hm ⊢
        rcases hm with h | h | h | h
        · exact .inl h
        · exact .inr (.inl h)
        · exact absurd h hzx
        · exact .inr (.inr h)

end Linked
