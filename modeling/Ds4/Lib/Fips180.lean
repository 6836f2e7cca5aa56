import Mathlib.Algebra.Group.Int.Defs
import Mathlib.Algebra.GroupWithZero.Nat
import Mathlib.Data.List.Basic

/-!
# SHA-1 after FIPS 180

The padding of a message, the message schedule and the hash computation of the standard, over bytes for the message and
over 32-bit words for the computation.
-/

namespace Fips180

abbrev Word := BitVec 32

/-! ## Functions and constants -/

def ch (x y z : Word) : Word := (x &&& y) ^^^ (~~~x &&& z)

def parity (x y z : Word) : Word := x ^^^ y ^^^ z

def maj (x y z : Word) : Word := (x &&& y) ^^^ (x &&& z) ^^^ (y &&& z)

def f (t : Nat) : Word → Word → Word → Word :=
  if t < 20 then ch else if t < 40 then parity else if t < 60 then maj else parity

def k (t : Nat) : Word :=
  if t < 20 then 0x5a827999#32 else if t < 40 then 0x6ed9eba1#32 else if t < 60 then 0x8f1bbcdc#32 else 0xca62c1d6#32

/-! ## The hash of a block -/

/-- The words of a hash value, or the working variables. -/
@[ext] structure Hash where
  a : Word
  b : Word
  c : Word
  d : Word
  e : Word

def Hash.add (s t : Hash) : Hash := ⟨s.a + t.a, s.b + t.b, s.c + t.c, s.d + t.d, s.e + t.e⟩

/-- The message schedule of a block with the words `m`. -/
def schedule (m : Nat → Word) (t : Nat) : Word :=
  if t < 16 then m t
  else (schedule m (t - 3) ^^^ schedule m (t - 8) ^^^ schedule m (t - 14) ^^^ schedule m (t - 16)).rotateLeft 1

def round (m : Nat → Word) (s : Hash) (t : Nat) : Hash :=
  ⟨s.a.rotateLeft 5 + f t s.b s.c s.d + s.e + k t + schedule m t, s.a, s.b.rotateLeft 30, s.c, s.d⟩

def compress (h : Hash) (m : Nat → Word) : Hash := h.add ((List.range 80).foldl (round m) h)

/-! ## The hash of a message -/

def initial : Hash := ⟨0x67452301#32, 0xefcdab89#32, 0x98badcfe#32, 0x10325476#32, 0xc3d2e1f0#32⟩

/-- The number of zero bytes between the byte with the bit one and the length. -/
def zeros (length : Nat) : Nat := (119 - length % 64) % 64

/-- The number of bits of the message, with the highest byte first. -/
def lengthBytes (length : Nat) : List UInt8 :=
  [7, 6, 5, 4, 3, 2, 1, 0].map fun i => UInt8.ofNat (8 * length / 256 ^ i)

def pad (message : List UInt8) : List UInt8 :=
  message ++ 0x80 :: (List.replicate (zeros message.length) 0 ++ lengthBytes message.length)

/-- The word `t` of a block, with the highest byte first. -/
def word (block : List UInt8) (t : Nat) : Word :=
  (block.getD (4 * t) 0).toBitVec ++ (block.getD (4 * t + 1) 0).toBitVec ++ (block.getD (4 * t + 2) 0).toBitVec ++
    (block.getD (4 * t + 3) 0).toBitVec

/-- The hash value behind `n` blocks of 64 bytes. -/
def hashBlocks : Nat → Hash → List UInt8 → Hash
  | 0, h, _ => h
  | n + 1, h, s => hashBlocks n (compress h (word (s.take 64))) (s.drop 64)

def Hash.bytes (h : Hash) : List UInt8 :=
  [h.a, h.b, h.c, h.d, h.e].flatMap fun w => [24, 16, 8, 0].map fun i => UInt8.ofNat (w.toNat / 2 ^ i)

def sha1 (message : List UInt8) : List UInt8 := (hashBlocks ((pad message).length / 64) initial (pad message)).bytes

theorem zeros_spec (length : Nat) : (length + 1 + zeros length) % 64 = 56 ∧ zeros length < 64 := by
  rw [zeros]
  omega

/-- The padding is as short as it can be. -/
theorem zeros_min {length n : Nat} (h : n < zeros length) : (length + 1 + n) % 64 ≠ 56 := by
  rw [zeros] at h
  omega

theorem length_pad (message : List UInt8) : (pad message).length = message.length + 1 + zeros message.length + 8 := by
  rw [pad, List.length_append, List.length_cons, List.length_append, List.length_replicate, lengthBytes, List.length_map]
  simp only [List.length_cons, List.length_nil]
  omega

theorem length_pad_mod (message : List UInt8) : (pad message).length % 64 = 0 := by
  have := (zeros_spec message.length).1
  rw [length_pad]
  omega

end Fips180
