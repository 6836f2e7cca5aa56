import Ds4.Lib.LittleEndian

/-!
# Packed structures

A structure without padding is the bytes of its fields, lowest byte first, one field behind the other.
`readAt` takes a slice out of a buffer, and gives nothing when the slice reaches past its end.
-/

open C

/-- A type whose values are copied from and to memory. -/
class Packed (α : Type) where
  size : Nat
  put : α → Bytes
  get : Bytes → α
  length_put : ∀ a, (put a).length = size
  get_put : ∀ a, get (put a) = a

namespace Packed

attribute [simp] length_put get_put

instance : Packed UInt32 where
  size := 4
  put w := lePut 4 w.toNat
  get s := UInt32.ofNat (leGet s)
  length_put _ := length_lePut ..
  get_put w := by
    have h : w.toNat < 256 ^ 4 := w.toNat_lt
    rw [leGet_lePut h, UInt32.ofNat_toNat]

instance : Packed UInt64 where
  size := 8
  put w := lePut 8 w.toNat
  get s := UInt64.ofNat (leGet s)
  length_put _ := length_lePut ..
  get_put w := by
    have h : w.toNat < 256 ^ 8 := w.toNat_lt
    rw [leGet_lePut h, UInt64.ofNat_toNat]

section
variable {α β : Type} [Packed α] [Packed β]

/-- A structure that is copied as another type. -/
@[reducible] def via (f : β → α) (g : α → β) (h : ∀ b, g (f b) = b) : Packed β where
  size := size α
  put b := put (f b)
  get s := g (get s)
  length_put b := length_put (f b)
  get_put b := by rw [get_put, h]

instance : Packed Int32 := via Int32.toUInt32 UInt32.toInt32 fun _ => rfl

instance : Packed (α × β) where
  size := size α + size β
  put p := put p.1 ++ put p.2
  get s := (get (s.take (size α)), get (s.drop (size α)))
  length_put p := by rw [List.length_append, length_put, length_put]
  get_put p := by
    rw [List.take_left' (length_put p.1), List.drop_left' (length_put p.1), get_put, get_put]

/-- Bytes that are copied as they are. -/
instance {n : Nat} : Packed (Vector UInt8 n) where
  size := n
  put v := v.toList
  get s := Vector.ofFn fun i => s.getD i 0
  length_put v := v.length_toList
  get_put v := by
    ext i hi
    rw [Vector.getElem_ofFn, List.getD_eq_getElem?_getD, Vector.getElem?_toList,
      Vector.getElem?_eq_getElem hi]
    rfl

/-! ## Arrays -/

def putArray (as : List α) : Bytes := as.flatMap put

variable (α) in
def getArray : Nat → Bytes → List α
  | 0, _ => []
  | n + 1, s => get (s.take (size α)) :: getArray n (s.drop (size α))

theorem putArray_cons (a : α) (as : List α) : putArray (a :: as) = put a ++ putArray as := rfl

@[simp] theorem length_putArray (as : List α) : (putArray as).length = as.length * size α := by
  induction as with
  | nil => rw [List.length_nil, Nat.zero_mul]; rfl
  | cons a as ih =>
    rw [putArray_cons, List.length_append, length_put, ih, List.length_cons, Nat.succ_mul,
      Nat.add_comm]

@[simp] theorem length_getArray (n : Nat) (s : Bytes) : (getArray α n s).length = n := by
  induction n generalizing s with
  | zero => rfl
  | succ n ih => rw [getArray, List.length_cons, ih]

@[simp] theorem getArray_putArray (as : List α) : getArray α as.length (putArray as) = as := by
  induction as with
  | nil => rfl
  | cons a as ih =>
    rw [List.length_cons, getArray, putArray_cons, List.take_left' (length_put a),
      List.drop_left' (length_put a), get_put, ih]

end

/-! ## Slices -/

/-- The bytes of a buffer from a place on. -/
def readAt (s : Bytes) (pos len : Nat) : Option Bytes :=
  if pos + len ≤ s.length then some ((s.drop pos).take len) else none

theorem readAt_of_le {s : Bytes} {pos len : Nat} (h : pos + len ≤ s.length) :
    readAt s pos len = some ((s.drop pos).take len) := if_pos h

/-- The slice between two parts of a buffer. -/
theorem readAt_middle {s t u : Bytes} {pos len : Nat} (hs : s.length = pos) (ht : t.length = len) :
    readAt (s ++ (t ++ u)) pos len = some t := by
  rw [readAt_of_le (by rw [List.length_append, List.length_append]; omega), List.drop_left' hs,
    List.take_left' ht]

theorem readAt_left {t u : Bytes} {len : Nat} (ht : t.length = len) :
    readAt (t ++ u) 0 len = some t := readAt_middle (s := []) rfl ht

theorem readAt_right {s t : Bytes} {pos len : Nat} (hs : s.length = pos) (ht : t.length = len) :
    readAt (s ++ t) pos len = some t := by
  have h := readAt_middle (u := []) hs ht
  rwa [List.append_nil] at h

end Packed
