import Ds4.Lib.CString

/-!
# The byte alphabet

The vocabulary spells bytes as printable code points, so that a merge never looks at a raw byte. `byte_encode` spells a
text and `ds4_token_text` reads a token back.
-/

namespace Ds4.Tokenizer
open C

def utf8Put (cp : Nat) : Bytes :=
  if cp ≤ 0x7f then [UInt8.ofNat cp]
  else if cp ≤ 0x7ff then [UInt8.ofNat (0xc0 ||| cp >>> 6), UInt8.ofNat (0x80 ||| cp &&& 0x3f)]
  else if cp ≤ 0xffff then
    [UInt8.ofNat (0xe0 ||| cp >>> 12), UInt8.ofNat (0x80 ||| cp >>> 6 &&& 0x3f), UInt8.ofNat (0x80 ||| cp &&& 0x3f)]
  else
    [UInt8.ofNat (0xf0 ||| cp >>> 18), UInt8.ofNat (0x80 ||| cp >>> 12 &&& 0x3f),
      UInt8.ofNat (0x80 ||| cp >>> 6 &&& 0x3f), UInt8.ofNat (0x80 ||| cp &&& 0x3f)]

/-- The bytes that stand for themselves. -/
def printable (x : Nat) : Bool := 33 ≤ x && x ≤ 126 || 161 ≤ x && x ≤ 172 || 174 ≤ x && x ≤ 255

/-- The other bytes, in the order of their code points from 256 on. -/
def unprintable : List Nat := (List.range 256).filter fun x => !printable x

def gpt2ByteToCodepoint (b : UInt8) : Nat :=
  if printable b.toNat then b.toNat
  else
    match unprintable.idxOf? b.toNat with
    | some n => 256 + n
    | none => b.toNat

def byteSymbol (b : UInt8) : Bytes := utf8Put (gpt2ByteToCodepoint b)

def byteEncode (s : Bytes) : Bytes := s.flatMap byteSymbol

def gpt2CodepointToByte (cp : Nat) : Option UInt8 :=
  if printable cp then some (UInt8.ofNat cp)
  else if 256 ≤ cp then (unprintable[cp - 256]?).map UInt8.ofNat
  else none

def utf8LenFromFirstByte (c : UInt8) : Nat :=
  if c < 0x80 then 1
  else if c &&& 0xe0 = 0xc0 then 2
  else if c &&& 0xf0 = 0xe0 then 3
  else if c &&& 0xf8 = 0xf0 then 4
  else 1

theorem utf8LenFromFirstByte_pos (c : UInt8) : 0 < utf8LenFromFirstByte c := by
  rw [utf8LenFromFirstByte]
  repeat' split
  all_goals exact Nat.succ_pos _

/-- The code point of a character by its length; the bytes behind the first are not checked. -/
def utf8Bits (n : Nat) (s : Bytes) : Nat :=
  let p := fun i => (s.getD i 0).toNat
  if n = 2 then (p 0 &&& 0x1f) <<< 6 ||| p 1 &&& 0x3f
  else if n = 3 then (p 0 &&& 0x0f) <<< 12 ||| (p 1 &&& 0x3f) <<< 6 ||| p 2 &&& 0x3f
  else if n = 4 then
    (p 0 &&& 0x07) <<< 18 ||| (p 1 &&& 0x3f) <<< 12 ||| (p 2 &&& 0x3f) <<< 6 ||| p 3 &&& 0x3f
  else p 0

/-- The code point at the start of a text and its length. A character that is cut off is read as its first byte. -/
def utf8DecodeOne (s : Bytes) : Nat × Nat :=
  let c := s.getD 0 0
  if c < 0x80 ∨ s.length ≤ 1 then (utf8Bits 1 s, 1)
  else if c &&& 0xe0 = 0xc0 ∧ 1 < s.length then (utf8Bits 2 s, 2)
  else if c &&& 0xf0 = 0xe0 ∧ 2 < s.length then (utf8Bits 3 s, 3)
  else if c &&& 0xf8 = 0xf0 ∧ 3 < s.length then (utf8Bits 4 s, 4)
  else (utf8Bits 1 s, 1)

theorem utf8DecodeOne_pos (s : Bytes) : 0 < (utf8DecodeOne s).2 := by
  rw [utf8DecodeOne]
  repeat' split
  all_goals exact Nat.succ_pos _

/-- The loop of `ds4_token_text`. A code point outside the alphabet is dropped. -/
def decodeSymbols (s : Bytes) : Bytes :=
  if s = [] then []
  else (gpt2CodepointToByte (utf8DecodeOne s).1).toList ++ decodeSymbols (s.drop (utf8DecodeOne s).2)
termination_by s.length
decreasing_by
  have h1 := utf8DecodeOne_pos s
  have h2 := List.length_pos_of_ne_nil ‹_›
  rw [List.length_drop]
  omega

/-! ## Spelling and reading back -/

/-- The symbol of a byte is one character that is read back as the byte. -/
def spells (b : UInt8) (sym : Bytes) : Bool :=
  match sym with
  | [c] => c < 0x80 && gpt2CodepointToByte (utf8Bits 1 [c]) == some b
  | [c, d] => !(c < 0x80) && c &&& 0xe0 == 0xc0 && gpt2CodepointToByte (utf8Bits 2 [c, d]) == some b
  | _ => false

theorem byteSymbol_table (b : UInt8) :
    spells b (byteSymbol b) = true ∧ ((0xef : UInt8) ∉ byteSymbol b ∧ ch ' ' ∉ byteSymbol b) ∧
      (33 ≤ b.toNat → b.toNat ≤ 126 → byteSymbol b = [b]) := by
  revert b
  exact forall_byte (by decide +kernel)

theorem spells_byteSymbol (b : UInt8) : spells b (byteSymbol b) = true := (byteSymbol_table b).1

/-- No symbol holds a byte of the fullwidth bar, which marks a token as literal, or a blank. -/
theorem byteSymbol_plain (b : UInt8) : (0xef : UInt8) ∉ byteSymbol b ∧ ch ' ' ∉ byteSymbol b := (byteSymbol_table b).2.1

/-- A graphic byte of ASCII is its own symbol. -/
theorem byteSymbol_graphic {b : UInt8} (hlow : 33 ≤ b.toNat) (hhigh : b.toNat ≤ 126) : byteSymbol b = [b] :=
  (byteSymbol_table b).2.2 hlow hhigh

theorem byteSymbol_ne_nil (b : UInt8) : byteSymbol b ≠ [] := by
  intro h
  have := spells_byteSymbol b
  rw [h] at this
  cases this

theorem decodeSymbols_byteSymbol (b : UInt8) (s : Bytes) :
    decodeSymbols (byteSymbol b ++ s) = b :: decodeSymbols s := by
  have h := spells_byteSymbol b
  have hne : byteSymbol b ++ s ≠ [] := fun h' => byteSymbol_ne_nil b (List.append_eq_nil_iff.mp h').1
  rw [decodeSymbols, if_neg hne]
  generalize byteSymbol b = sym at h
  match sym, h with
  | [c], h =>
    rw [spells, Bool.and_eq_true, beq_iff_eq] at h
    have hd : utf8DecodeOne ([c] ++ s) = (utf8Bits 1 [c], 1) := by
      rw [utf8DecodeOne]
      exact if_pos (.inl (of_decide_eq_true h.1))
    rw [hd, h.2]
    rfl
  | [c, d], h =>
    rw [spells, Bool.and_eq_true, Bool.and_eq_true, beq_iff_eq, beq_iff_eq, Bool.not_eq_true', decide_eq_false_iff_not] at h
    have hd : utf8DecodeOne ([c, d] ++ s) = (utf8Bits 2 [c, d], 2) := by
      have hlen : 1 < ([c, d] ++ s).length := by
        rw [List.length_append]
        exact Nat.lt_of_lt_of_le (Nat.lt_succ_self 1) (Nat.le_add_right _ _)
      have hhead : ([c, d] ++ s).getD 0 0 = c := rfl
      rw [utf8DecodeOne, hhead, if_neg (not_or.mpr ⟨h.1.1, Nat.not_le.mpr hlen⟩), if_pos ⟨h.1.2, hlen⟩]
      rfl
    rw [hd, h.2]
    rfl

/-- A spelled text is read back. -/
theorem decodeSymbols_byteEncode (s : Bytes) : decodeSymbols (byteEncode s) = s := by
  induction s with
  | nil =>
    rw [byteEncode, List.flatMap_nil, decodeSymbols, if_pos rfl]
  | cons b s ih =>
    rw [byteEncode, List.flatMap_cons, decodeSymbols_byteSymbol]
    exact congrArg (b :: ·) ih

theorem byteEncode_append (s t : Bytes) : byteEncode (s ++ t) = byteEncode s ++ byteEncode t := List.flatMap_append

theorem byteEncode_plain (s : Bytes) : (0xef : UInt8) ∉ byteEncode s ∧ ch ' ' ∉ byteEncode s := by
  simp only [byteEncode, List.mem_flatMap, not_exists, not_and]
  exact ⟨fun b _ => (byteSymbol_plain b).1, fun b _ => (byteSymbol_plain b).2⟩

end Ds4.Tokenizer
