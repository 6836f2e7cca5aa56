import Ds4.Lib.LittleEndian

/-!
# Words and records in network byte order

A word is four bytes, highest byte first. A record is a fixed number of words; the instance of a
structure names its fields in the order in which they travel. A connection is known by the bytes that
are still to arrive on it and by how it ends after them.
-/

namespace Wire
open C

def putU32 (w : UInt32) : Bytes := (lePut 4 w.toNat).reverse

def getU32 (s : Bytes) : UInt32 := UInt32.ofNat (leGet s.reverse)

@[simp] theorem length_putU32 (w : UInt32) : (putU32 w).length = 4 := by
  rw [putU32, List.length_reverse, length_lePut]

@[simp] theorem getU32_putU32 (w : UInt32) : getU32 (putU32 w) = w := by
  have h : w.toNat < 256 ^ 4 := w.toNat_lt
  rw [getU32, putU32, List.reverse_reverse, leGet_lePut h, UInt32.ofNat_toNat]

def putWords (ws : List UInt32) : Bytes := ws.flatMap putU32

def getWords : Nat → Bytes → List UInt32
  | 0, _ => []
  | n + 1, s => getU32 (s.take 4) :: getWords n (s.drop 4)

@[simp] theorem putWords_nil : putWords [] = [] := rfl

theorem putWords_cons (w : UInt32) (ws : List UInt32) :
    putWords (w :: ws) = putU32 w ++ putWords ws := rfl

@[simp] theorem putWords_append (ws us : List UInt32) :
    putWords (ws ++ us) = putWords ws ++ putWords us := List.flatMap_append

@[simp] theorem length_putWords (ws : List UInt32) : (putWords ws).length = 4 * ws.length := by
  induction ws with
  | nil => rfl
  | cons w ws ih =>
    rw [putWords_cons, List.length_append, length_putU32, ih, List.length_cons]
    omega

@[simp] theorem length_getWords (n : Nat) (s : Bytes) : (getWords n s).length = n := by
  induction n generalizing s with
  | zero => rfl
  | succ n ih => rw [getWords, List.length_cons, ih]

theorem getWords_putWords_append (ws : List UInt32) (s : Bytes) :
    getWords ws.length (putWords ws ++ s) = ws := by
  induction ws with
  | nil => rfl
  | cons w ws ih =>
    have h4 : (putU32 w).length = 4 := length_putU32 w
    rw [List.length_cons, getWords, putWords_cons, List.append_assoc, List.take_left' h4,
      List.drop_left' h4, getU32_putU32, ih]

@[simp] theorem getWords_putWords (ws : List UInt32) : getWords ws.length (putWords ws) = ws := by
  have h := getWords_putWords_append ws []
  rwa [List.append_nil] at h

/-- A structure that travels as a fixed number of words. -/
class Record (α : Type) where
  words : Nat
  toWords : α → List UInt32
  ofWords : List UInt32 → α
  length_toWords : ∀ a, (toWords a).length = words
  ofWords_toWords : ∀ a, ofWords (toWords a) = a

section Record
variable (α : Type) [Record α]

/-- The bytes of a record. -/
def sizeof : Nat := 4 * Record.words α

variable {α}

def toWire (a : α) : Bytes := putWords (Record.toWords a)

def fromWire (s : Bytes) : α := Record.ofWords (getWords (Record.words α) s)

@[simp] theorem length_toWire (a : α) : (toWire a).length = sizeof α := by
  rw [toWire, length_putWords, Record.length_toWords, sizeof]

@[simp] theorem fromWire_toWire (a : α) : fromWire (toWire a) = a := by
  rw [fromWire, toWire, ← Record.length_toWords a, getWords_putWords, Record.ofWords_toWords]

def putRecords (as : List α) : Bytes := as.flatMap toWire

def getRecords : Nat → Bytes → List α
  | 0, _ => []
  | n + 1, s => fromWire (s.take (sizeof α)) :: getRecords n (s.drop (sizeof α))

@[simp] theorem putRecords_append (as bs : List α) :
    putRecords (as ++ bs) = putRecords as ++ putRecords bs := List.flatMap_append

@[simp] theorem putRecords_singleton (a : α) : putRecords [a] = toWire a := by
  rw [putRecords, List.flatMap_singleton]

@[simp] theorem length_putRecords (as : List α) :
    (putRecords as).length = as.length * sizeof α := by
  induction as with
  | nil => rw [List.length_nil, Nat.zero_mul]; rfl
  | cons a as ih =>
    rw [putRecords, List.flatMap_cons, List.length_append, length_toWire, ← putRecords, ih,
      List.length_cons, Nat.succ_mul, Nat.add_comm]

@[simp] theorem getRecords_putRecords (as : List α) : getRecords as.length (putRecords as) = as := by
  induction as with
  | nil => rfl
  | cons a as ih =>
    have h : (toWire a).length = sizeof α := length_toWire a
    rw [List.length_cons, getRecords, putRecords, List.flatMap_cons, ← putRecords,
      List.take_left' h, List.drop_left' h, fromWire_toWire, ih]

end Record

/-- The receiving side of a connection: what is still to arrive, and whether the connection then
breaks instead of being closed. -/
structure Conn where
  bytes : Bytes
  broken : Bool
  deriving DecidableEq, Repr

namespace Conn

def drop (c : Conn) (n : Nat) : Conn := { c with bytes := c.bytes.drop n }

/-- What a read returns that gets no more bytes. -/
def ending (c : Conn) : Int := if c.broken then -1 else 0

@[simp] theorem drop_zero (c : Conn) : c.drop 0 = c := rfl

@[simp] theorem bytes_drop (c : Conn) (n : Nat) : (c.drop n).bytes = c.bytes.drop n := rfl

@[simp] theorem ending_drop (c : Conn) (n : Nat) : (c.drop n).ending = c.ending := rfl

@[simp] theorem drop_drop (c : Conn) (n k : Nat) : (c.drop n).drop k = c.drop (n + k) := by
  rw [drop, drop, drop, List.drop_drop]

theorem ending_nonpos (c : Conn) : c.ending ≤ 0 := by
  rw [ending]
  split
  · exact Int.neg_nonpos_of_nonneg (Int.zero_le_ofNat 1)
  · exact Int.le_refl 0

end Conn

end Wire
