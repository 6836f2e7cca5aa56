import Mathlib.Algebra.Group.Int.Defs
import Mathlib.Algebra.GroupWithZero.Nat
import Mathlib.Data.Nat.ModEq
import Mathlib.Logic.Function.Basic

/-!
# Ring buffers

A ring of `n` slots with the places of its oldest entry and of its next free slot. An entry is
written into the free slot first and counted later, and an entry that is being read stays counted
until it is dropped. `Holds` says which list a ring stands for; the free slot is never one of the
slots of that list.
-/

structure RingBuffer (α : Type u) where
  slots : Nat → α
  head : Nat
  tail : Nat
  queued : Nat

namespace RingBuffer

variable {α : Type u} {n : Nat} {r : RingBuffer α} {a : α} {xs : List α} {k : Nat}

def empty (a : α) : RingBuffer α := ⟨fun _ => a, 0, 0, 0⟩

/-- The slot at the tail is filled. -/
def put (r : RingBuffer α) (a : α) : RingBuffer α := { r with slots := Function.update r.slots r.tail a }

/-- The slot at the tail is counted. -/
def push (n : Nat) (r : RingBuffer α) : RingBuffer α :=
  { r with tail := (r.tail + 1) % n, queued := r.queued + 1 }

def front (r : RingBuffer α) : α := r.slots r.head

/-- The slot at the head is dropped. -/
def pop (n : Nat) (r : RingBuffer α) : RingBuffer α :=
  { r with head := (r.head + 1) % n, queued := r.queued - 1 }

/-- A slot that is counted. -/
def Live (n : Nat) (r : RingBuffer α) (k : Nat) : Prop := ∃ i < r.queued, k = (r.head + i) % n

structure Holds (n : Nat) (r : RingBuffer α) (xs : List α) : Prop where
  queued : r.queued = xs.length
  room : xs.length ≤ n
  head : r.head < n
  tail : r.tail = (r.head + r.queued) % n
  slots : ∀ i a, xs[i]? = some a → r.slots ((r.head + i) % n) = a

theorem Holds.empty (hn : 0 < n) (a : α) : Holds n (empty a) [] :=
  ⟨rfl, Nat.zero_le n, hn, (Nat.mod_eq_of_lt hn).symm, fun _ _ h => nomatch h⟩

/-- Two places of a ring that are less than a turn apart are different. -/
theorem add_mod_ne {h i j : Nat} (hij : i < j) (hj : j < i + n) : (h + i) % n ≠ (h + j) % n := by
  intro heq
  have hmod : h + i ≡ h + j [MOD n] := heq
  have hdvd : n ∣ j - i := (Nat.modEq_iff_dvd' hij.le).mp (Nat.ModEq.add_left_cancel' h hmod)
  have hle := Nat.le_of_dvd (by omega) hdvd
  omega

/-- As long as there is room, the free slot is not one that is counted. -/
theorem Holds.tail_free (h : Holds n r xs) (hroom : r.queued < n) : ¬Live n r r.tail := by
  intro hlive
  obtain ⟨i, hi, htail⟩ := hlive
  rw [h.tail] at htail
  exact add_mod_ne hi (by omega) htail.symm

theorem Holds.put (h : Holds n r xs) (hroom : r.queued < n) (a : α) : Holds n (r.put a) xs := by
  refine ⟨h.queued, h.room, h.head, h.tail, fun i b hb => ?_⟩
  have hi : i < r.queued := by
    rw [h.queued]
    exact (List.getElem?_eq_some_iff.mp hb).1
  have hne : (r.head + i) % n ≠ r.tail := fun heq => h.tail_free hroom ⟨i, hi, heq.symm⟩
  rw [RingBuffer.put]
  dsimp only
  rw [Function.update_of_ne hne]
  exact h.slots i b hb

theorem put_tail (r : RingBuffer α) (a : α) : (r.put a).slots (r.put a).tail = a :=
  Function.update_self ..

theorem Holds.push (h : Holds n r xs) (hroom : r.queued < n) (ha : r.slots r.tail = a) :
    Holds n (r.push n) (xs ++ [a]) := by
  refine ⟨?_, ?_, h.head, ?_, fun i b hb => ?_⟩
  · rw [List.length_append, ← h.queued]
    rfl
  · rw [List.length_append, ← h.queued]
    exact hroom
  · rw [RingBuffer.push]
    dsimp only
    rw [h.tail, Nat.mod_add_mod, Nat.add_assoc]
  · rw [List.getElem?_append] at hb
    split at hb
    · exact h.slots i b hb
    · next hi =>
      have hlen : i = xs.length := by
        by_contra hne
        rw [List.getElem?_eq_none (by rw [List.length_singleton]; omega)] at hb
        cases hb
      rw [hlen, Nat.sub_self] at hb
      cases hb
      rw [← ha, h.tail, h.queued, hlen]
      rfl

theorem Holds.front (h : Holds n r (a :: xs)) : r.front = a := by
  have ha := h.slots 0 a rfl
  rw [Nat.add_zero, Nat.mod_eq_of_lt h.head] at ha
  exact ha

theorem Holds.pop (h : Holds n r (a :: xs)) : Holds n (r.pop n) xs := by
  have hq : r.queued = xs.length + 1 := h.queued
  have hn : 0 < n := Nat.lt_of_le_of_lt (Nat.zero_le _) h.head
  refine ⟨?_, Nat.le_of_succ_le h.room, Nat.mod_lt _ hn, ?_, fun i b hb => ?_⟩
  · rw [RingBuffer.pop]
    dsimp only
    omega
  · rw [RingBuffer.pop]
    dsimp only
    rw [h.tail, Nat.mod_add_mod]
    congr 1
    omega
  · rw [RingBuffer.pop]
    dsimp only
    have hb' : (a :: xs)[i + 1]? = some b := hb
    rw [← h.slots (i + 1) b hb', Nat.mod_add_mod, Nat.add_assoc, Nat.add_comm 1 i]

end RingBuffer
