import Ds4.Lib.LinkedQueue

/-!
# Doubly linked lists

Nodes carry `prev` and `next` pointers. `d.Repr l` says that following `next` from the head spells
`l` and following `prev` from the tail spells it backwards. `linkHead` and `unlink` are the two
operations of an intrusive recency list.
-/

namespace Linked

variable {α : Type*} [DecidableEq α] {next : α → Option α} {p : Option α} {x y e : α}
  {l a b : List α}

structure DList (α : Type*) where
  head : Option α
  tail : Option α
  prev : α → Option α
  next : α → Option α

/-! ## Chains -/

/-- The nodes a loop over the list visits, with a bound on their number. -/
def walk (next : α → Option α) : Nat → Option α → List α
  | n + 1, some x => x :: walk next n (next x)
  | _, _ => []

omit [DecidableEq α] in
theorem Chain.walk_eq (h : Chain next p l) (hn : l.length ≤ n) : walk next n p = l := by
  induction h generalizing n with
  | nil => cases n <;> rfl
  | cons _ ih =>
    cases n with
    | zero => simp at hn
    | succ n =>
      rw [walk, ih (Nat.le_of_succ_le_succ hn)]

omit [DecidableEq α] in
theorem Chain.head_eq (h : Chain next p l) : p = l.head? := by
  cases h <;> rfl

omit [DecidableEq α] in
/-- A node points to the one after it. -/
theorem Chain.next_eq (h : Chain next p (a ++ x :: b)) : next x = b.head? := by
  induction a generalizing p with
  | nil =>
    cases h with
    | cons h => exact h.head_eq
  | cons y a ih =>
    cases h with
    | cons h => exact ih h

/-- A node is taken out by redirecting the pointer of the one before it. -/
theorem Chain.unlink (h : Chain next p (a ++ x :: b)) (hn : (a ++ x :: b).Nodup) :
    Chain (Function.update (match a.getLast? with
        | some y => Function.update next y (next x)
        | none => next) x none) (if a = [] then next x else p) (a ++ b) := by
  rcases List.eq_nil_or_concat a with rfl | ⟨a, y, rfl⟩
  · have hx : x ∉ b := (List.nodup_cons.1 hn).1
    cases h with
    | cons h => exact h.update hx
  · have hne : a ++ [y] ≠ [] := by simp
    simp only [List.concat_eq_append, List.append_assoc, List.singleton_append,
      List.getLast?_append, List.getLast?_singleton, Option.some_or] at h hn ⊢
    rw [if_neg hne]
    exact h.unlink_tail hn

/-! ## Operations -/

namespace DList

omit [DecidableEq α] in
def empty : DList α := ⟨none, none, fun _ => none, fun _ => none⟩

def linkHead (d : DList α) (e : α) : DList α where
  head := some e
  tail := if d.head = none then some e else d.tail
  prev := match d.head with
    | some h => Function.update (Function.update d.prev e none) h (some e)
    | none => Function.update d.prev e none
  next := Function.update d.next e d.head

def unlink (d : DList α) (e : α) : DList α where
  head := if d.prev e = none then d.next e else d.head
  tail := if d.next e = none then d.prev e else d.tail
  prev := Function.update (match d.next e with
    | some n => Function.update d.prev n (d.prev e)
    | none => d.prev) e none
  next := Function.update (match d.prev e with
    | some n => Function.update d.next n (d.next e)
    | none => d.next) e none

structure Repr (d : DList α) (l : List α) : Prop where
  next : Chain d.next d.head l
  prev : Chain d.prev d.tail l.reverse
  nodup : l.Nodup

namespace Repr

variable {d : DList α}

omit [DecidableEq α] in
theorem empty : (DList.empty : DList α).Repr [] := ⟨.nil, .nil, List.nodup_nil⟩

omit [DecidableEq α] in
theorem head_eq (h : d.Repr l) : d.head = l.head? := h.next.head_eq

omit [DecidableEq α] in
theorem tail_eq (h : d.Repr l) : d.tail = l.getLast? := by
  rw [h.prev.head_eq, List.head?_reverse]

theorem linkHead (h : d.Repr l) (he : e ∉ l) : (d.linkHead e).Repr (e :: l) := by
  refine ⟨?_, ?_, List.nodup_cons.2 ⟨he, h.nodup⟩⟩
  · refine .cons ?_
    simp only [DList.linkHead, Function.update_self]
    exact h.next.update he
  · have hprev := h.prev
    have hhead := h.head_eq
    cases l with
    | nil =>
      simp only [DList.linkHead, hhead, List.head?_nil, ↓reduceIte, List.reverse_singleton]
      refine .cons ?_
      rw [Function.update_self]
      exact .nil
    | cons y l =>
      have hy : ∀ {m : List α}, m = (y :: l).reverse → e ∉ m := by
        rintro m rfl hm
        exact he (List.mem_reverse.1 hm)
      simp only [DList.linkHead, hhead, List.head?_cons, reduceCtorEq, ↓reduceIte,
        List.reverse_cons, List.append_assoc, List.cons_append, List.nil_append] at hprev hy ⊢
      refine Chain.snoc (hprev.update (hy rfl)) ?_ (Function.update_self ..) (hy rfl)
      simpa [List.reverse_cons] using List.nodup_reverse.2 h.nodup

omit [DecidableEq α] in
theorem prev_eq (h : d.Repr (a ++ x :: b)) : d.prev x = a.getLast? := by
  have := h.prev
  rw [List.reverse_append, List.reverse_cons, List.append_assoc, List.singleton_append] at this
  rw [this.next_eq, List.head?_reverse]

theorem unlink (h : d.Repr (a ++ x :: b)) : (d.unlink x).Repr (a ++ b) := by
  have hp := h.prev_eq
  have hn := h.next.next_eq
  refine ⟨?_, ?_, (List.nodup_cons.1 (List.nodup_middle.1 h.nodup)).2⟩
  · have := h.next.unlink h.nodup
    simpa only [DList.unlink, hp, List.getLast?_eq_none_iff] using this
  · have hrev : (a ++ x :: b).reverse = b.reverse ++ x :: a.reverse := by simp
    have hprev := h.prev
    have hnodup := List.nodup_reverse.2 h.nodup
    rw [hrev] at hprev hnodup
    have := hprev.unlink hnodup
    simpa only [DList.unlink, hn, List.getLast?_reverse, List.reverse_append, List.reverse_eq_nil_iff,
      List.head?_eq_none_iff] using this

end Repr

end DList

end Linked
