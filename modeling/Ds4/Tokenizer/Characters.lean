import Ds4.Server.Utf8
import Ds4.Tokenizer.Split

/-!
# Characters of a text

On the encoding of a list of characters the scanners of the pre-tokenizers go from character to character.
-/

namespace Ds4.Tokenizer
open C

/-- The bytes of a text. -/
def encodeText (cs : List Char) : Bytes := cs.flatMap String.utf8EncodeChar

section
variable {c : Char} {cs ds : List Char}

theorem encodeText_cons : encodeText (c :: cs) = encode c.toNat ++ encodeText cs := by
  rw [encodeText, List.flatMap_cons, utf8EncodeChar_eq]
  rfl

theorem encodeText_append : encodeText (cs ++ ds) = encodeText cs ++ encodeText ds := List.flatMap_append

theorem toNat_lt (c : Char) : c.toNat < 0x110000 := by
  rcases c.valid with h | h
  · exact Nat.lt_trans h (by decide)
  · exact h.2

/-- The bits of the bytes of a character. -/
theorem leadBits :
    (∀ n < 128, utf8LenFromFirstByte (UInt8.ofNat n) = 1 ∧ (UInt8.ofNat n).toNat = n) ∧
    (∀ n < 32, utf8LenFromFirstByte (UInt8.ofNat (n + 192)) = 2 ∧ (UInt8.ofNat (n + 192)).toNat &&& 0x1f = n) ∧
    (∀ n < 16, utf8LenFromFirstByte (UInt8.ofNat (n + 224)) = 3 ∧ (UInt8.ofNat (n + 224)).toNat &&& 0x0f = n) ∧
    (∀ n < 8, utf8LenFromFirstByte (UInt8.ofNat (n + 240)) = 4 ∧ (UInt8.ofNat (n + 240)).toNat &&& 0x07 = n) := by
  decide +kernel

theorem contBits (n : Nat) : (contByte n).toNat &&& 0x3f = n % 64 := by
  have h : ∀ m < 64, (UInt8.ofNat (m + 128)).toNat &&& 0x3f = m := by decide +kernel
  exact h _ (Nat.mod_lt _ (by decide))

theorem encode_length_pos (v : Nat) : encode v ≠ [] := by
  rw [encode]
  repeat' split
  all_goals exact List.cons_ne_nil _ _

/-- Where the first byte tells the length, that many bytes are taken. -/
theorem nextUtf8Char_append {b s : Bytes} (h : utf8LenFromFirstByte ((b ++ s).getD 0 0) = b.length) :
    nextUtf8Char (b ++ s) = b.length := by
  rw [nextUtf8Char, h, if_neg]
  rw [List.length_append]
  omega

/-- Six more bits behind those of `a`. -/
theorem shift_or (a b i : Nat) (hb : b < 2 ^ i) : a <<< i ||| b = a * 2 ^ i + b := by
  rw [← Nat.shiftLeft_add_eq_or_of_lt hb, Nat.shiftLeft_eq]

theorem utf8_encode {v : Nat} (hv : v < 0x110000) (s : Bytes) :
    nextUtf8Char (encode v ++ s) = (encode v).length ∧ utf8PeekOne (encode v ++ s) = v := by
  obtain ⟨h1, h2, h3, h4⟩ := leadBits
  have hmod : ∀ n, n % 64 < 2 ^ 6 := fun n => Nat.mod_lt _ (by decide)
  rw [utf8PeekOne, encode]
  split
  · next h =>
    obtain ⟨hlen, hbits⟩ := h1 v h
    have hnext := @nextUtf8Char_append [UInt8.ofNat v] s hlen
    refine ⟨hnext, ?_⟩
    rw [hnext]
    exact hbits
  split
  · next h =>
    obtain ⟨hlen, hbits⟩ := h2 (v / 64 % 32) (Nat.mod_lt _ (by decide))
    have hnext := @nextUtf8Char_append [UInt8.ofNat (v / 64 % 32 + 192), contByte v] s hlen
    refine ⟨hnext, ?_⟩
    rw [hnext]
    show ((UInt8.ofNat (v / 64 % 32 + 192)).toNat &&& 0x1f) <<< 6 ||| ((contByte v).toNat &&& 0x3f) = v
    rw [hbits, contBits, shift_or _ _ _ (hmod v)]
    omega
  split
  · next h =>
    obtain ⟨hlen, hbits⟩ := h3 (v / 4096 % 16) (Nat.mod_lt _ (by decide))
    have hnext := @nextUtf8Char_append [UInt8.ofNat (v / 4096 % 16 + 224), contByte (v / 64), contByte v] s hlen
    refine ⟨hnext, ?_⟩
    rw [hnext]
    show ((UInt8.ofNat (v / 4096 % 16 + 224)).toNat &&& 0x0f) <<< 12 ||| ((contByte (v / 64)).toNat &&& 0x3f) <<< 6 |||
      ((contByte v).toNat &&& 0x3f) = v
    rw [hbits, contBits, contBits, Nat.or_assoc, shift_or _ _ 6 (hmod v), shift_or _ _ 12 (by omega)]
    omega
  · next h =>
    obtain ⟨hlen, hbits⟩ := h4 (v / 262144 % 8) (Nat.mod_lt _ (by decide))
    have hnext := @nextUtf8Char_append
      [UInt8.ofNat (v / 262144 % 8 + 240), contByte (v / 4096), contByte (v / 64), contByte v] s hlen
    refine ⟨hnext, ?_⟩
    rw [hnext]
    show ((UInt8.ofNat (v / 262144 % 8 + 240)).toNat &&& 0x07) <<< 18 ||| ((contByte (v / 4096)).toNat &&& 0x3f) <<< 12 |||
      ((contByte (v / 64)).toNat &&& 0x3f) <<< 6 ||| ((contByte v).toNat &&& 0x3f) = v
    rw [hbits, contBits, contBits, contBits, Nat.or_assoc, Nat.or_assoc, shift_or _ _ 6 (hmod v),
      shift_or _ _ 12 (by omega), shift_or _ _ 18 (by omega)]
    omega

theorem nextUtf8Char_encodeText : nextUtf8Char (encodeText (c :: cs)) = (encode c.toNat).length := by
  rw [encodeText_cons]
  exact (utf8_encode (toNat_lt c) _).1

theorem utf8PeekOne_encodeText : utf8PeekOne (encodeText (c :: cs)) = c.toNat := by
  rw [encodeText_cons]
  exact (utf8_encode (toNat_lt c) _).2

theorem drop_next_encodeText : (encodeText (c :: cs)).drop (nextUtf8Char (encodeText (c :: cs))) = encodeText cs := by
  rw [nextUtf8Char_encodeText, encodeText_cons, List.drop_left]

theorem drop_encodeText (a b : List Char) : (encodeText (a ++ b)).drop (encodeText a).length = encodeText b := by
  rw [encodeText_append, List.drop_left]

theorem length_encodeText_cons : (encodeText (c :: cs)).length = (encode c.toNat).length + (encodeText cs).length := by
  rw [encodeText_cons, List.length_append]

theorem encodeText_ne_nil : encodeText (c :: cs) ≠ [] := by
  rw [encodeText_cons]
  exact fun h => encode_length_pos _ (List.append_eq_nil_iff.mp h).1

theorem encodeText_eq_nil_iff : encodeText cs = [] ↔ cs = [] := by
  cases cs with
  | nil => exact iff_of_true rfl rfl
  | cons c cs => exact iff_of_false encodeText_ne_nil (List.cons_ne_nil _ _)

/-- A scan over characters takes those in front that hold. -/
theorem consumeWhile_encodeText {cond : Bytes → Bool} {p : Char → Bool}
    (h : ∀ c cs, cond (encodeText (c :: cs)) = p c) (cs : List Char) :
    consumeWhile cond (encodeText cs) = (encodeText (cs.takeWhile p)).length := by
  induction cs with
  | nil =>
    rw [consumeWhile]
    exact if_pos rfl
  | cons c cs ih =>
    rw [consumeWhile, if_neg encodeText_ne_nil, h, drop_next_encodeText, ih, List.takeWhile_cons]
    split
    · rw [nextUtf8Char_encodeText, encodeText_cons, List.length_append]
    · rfl

end
end Ds4.Tokenizer
