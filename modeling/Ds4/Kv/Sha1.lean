import Ds4.Lib.CString

/-!
# SHA-1

The hash that names the cache files, and the names: forty hexadecimal digits and `.kv`.
-/

namespace Ds4.Kv
open C

def rol32 (v n : UInt32) : UInt32 := (v <<< n) ||| (v >>> (32 - n))

structure Sha1Words where
  h0 : UInt32
  h1 : UInt32
  h2 : UInt32
  h3 : UInt32
  h4 : UInt32
  deriving DecidableEq, Repr

/-- `block` holds the `used` bytes that have not been transformed yet. -/
structure Sha1Ctx where
  h : Sha1Words
  bytes : Nat
  block : Bytes
  deriving DecidableEq, Repr

/-! ## The transform -/

/-- The big-endian words of a block. -/
def sha1Words : Bytes → List UInt32
  | a :: b :: c :: d :: s =>
    ((a.toUInt32 <<< 24) ||| (b.toUInt32 <<< 16) ||| (c.toUInt32 <<< 8) ||| d.toUInt32) :: sha1Words s
  | _ => []

/-- `n` more words of the schedule, the newest first. -/
def sha1Extend : Nat → List UInt32 → List UInt32
  | 0, w => w
  | n + 1, w =>
    sha1Extend n (rol32 (w.getD 2 0 ^^^ w.getD 7 0 ^^^ w.getD 13 0 ^^^ w.getD 15 0) 1 :: w)

def sha1Round (i : Nat) (s : Sha1Words) (w : UInt32) : Sha1Words :=
  let b := s.h1
  let c := s.h2
  let d := s.h3
  let (f, k) : UInt32 × UInt32 :=
    if i < 20 then ((b &&& c) ||| (~~~b &&& d), 0x5a827999)
    else if i < 40 then (b ^^^ c ^^^ d, 0x6ed9eba1)
    else if i < 60 then ((b &&& c) ||| (b &&& d) ||| (c &&& d), 0x8f1bbcdc)
    else (b ^^^ c ^^^ d, 0xca62c1d6)
  ⟨rol32 s.h0 5 + f + s.h4 + k + w, s.h0, rol32 b 30, c, d⟩

def sha1Transform (s : Sha1Words) (block : Bytes) : Sha1Words :=
  let w := (sha1Extend 64 (sha1Words block).reverse).reverse
  let r := w.zipIdx.foldl (fun s wi => sha1Round wi.2 s wi.1) s
  ⟨s.h0 + r.h0, s.h1 + r.h1, s.h2 + r.h2, s.h3 + r.h3, s.h4 + r.h4⟩

/-! ## Hashing -/

def sha1Init : Sha1Ctx :=
  ⟨⟨0x67452301, 0xefcdab89, 0x98badcfe, 0x10325476, 0xc3d2e1f0⟩, 0, []⟩

/-- One byte of `sha1_update`, which copies as many as fit at a time. -/
def sha1UpdateByte (c : Sha1Ctx) (b : UInt8) : Sha1Ctx :=
  let block := c.block ++ [b]
  if block.length = 64 then ⟨sha1Transform c.h block, c.bytes + 1, []⟩
  else ⟨c.h, c.bytes + 1, block⟩

def sha1Update (c : Sha1Ctx) (s : Bytes) : Sha1Ctx := s.foldl sha1UpdateByte c

/-- Zeros until 56 bytes of the block are used; the first argument bounds their number. -/
def sha1Pad : Nat → Sha1Ctx → Sha1Ctx
  | 0, c => c
  | n + 1, c => if c.block.length = 56 then c else sha1Pad n (sha1UpdateByte c 0)

def beBytes : Nat → Nat → Bytes
  | 0, _ => []
  | k + 1, n => UInt8.ofNat (n / 256 ^ k) :: beBytes k n

def sha1Final (c : Sha1Ctx) : Bytes :=
  let bits := c.bytes * 8
  let c := sha1Update (sha1Pad 64 (sha1UpdateByte c 0x80)) (beBytes 8 bits)
  [c.h.h0, c.h.h1, c.h.h2, c.h.h3, c.h.h4].flatMap fun w => beBytes 4 w.toNat

/-! ## Names -/

def hexDigit (n : Nat) : UInt8 := (lit "0123456789abcdef").getD n 0

def hex20 (s : Bytes) : Bytes := s.flatMap fun b => [hexDigit (b.toNat / 16), hexDigit (b.toNat % 16)]

def ds4KvstoreSha1BytesHex (s : Bytes) : Bytes := hex20 (sha1Final (sha1Update sha1Init s))

/-- The SHA-1 in the name of a cache file, in lower case. -/
def ds4KvstoreShaHexName (name : Bytes) : Option Bytes :=
  if name.length ≠ 43 ∨ name.drop 40 ≠ lit ".kv" then none
  else if (name.take 40).all isxdigit then some ((name.take 40).map tolower)
  else none

def ds4KvstorePathForSha (sha : Bytes) : Bytes := sha ++ lit ".kv"

theorem length_beBytes (k n : Nat) : (beBytes k n).length = k := by
  induction k with
  | zero => rfl
  | succ k ih => rw [beBytes, List.length_cons, ih]

theorem length_sha1Hex (s : Bytes) : (ds4KvstoreSha1BytesHex s).length = 40 := by
  simp [ds4KvstoreSha1BytesHex, hex20, sha1Final, length_beBytes]

theorem hexDigit_lower (h : n < 16) : isxdigit (hexDigit n) = true ∧ tolower (hexDigit n) = hexDigit n := by
  revert n
  decide

/-- The hash is written in lower case. -/
theorem sha1Hex_lower (s : Bytes) (hc : c ∈ ds4KvstoreSha1BytesHex s) :
    isxdigit c = true ∧ tolower c = c := by
  rw [ds4KvstoreSha1BytesHex, hex20] at hc
  obtain ⟨b, -, hc⟩ := List.mem_flatMap.1 hc
  have hb : b.toNat < 256 := b.toNat_lt
  simp only [List.mem_cons, List.not_mem_nil, or_false] at hc
  rcases hc with rfl | rfl
  · exact hexDigit_lower (by omega)
  · exact hexDigit_lower (by omega)

theorem ds4KvstoreShaHexName_path (s : Bytes) :
    ds4KvstoreShaHexName (ds4KvstorePathForSha (ds4KvstoreSha1BytesHex s)) =
      some (ds4KvstoreSha1BytesHex s) := by
  have hlen := length_sha1Hex s
  have hkv : (lit ".kv").length = 3 := by decide
  rw [ds4KvstoreShaHexName, ds4KvstorePathForSha, List.take_left' hlen, List.drop_left' hlen,
    if_neg (by simp [hlen, hkv]), if_pos]
  · rw [List.map_congr_left fun c hc => (sha1Hex_lower s hc).2, List.map_id']
  · rw [List.all_eq_true]
    exact fun c hc => (sha1Hex_lower s hc).1

theorem pathForSha_inj (h : ds4KvstorePathForSha a = ds4KvstorePathForSha b) : a = b :=
  List.append_cancel_right h

example : ds4KvstoreSha1BytesHex (lit "abc") = lit "a9993e364706816aba3e25717850c26c9cd0d89d" := by
  decide +kernel

end Ds4.Kv
