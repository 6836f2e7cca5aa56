import Mathlib.Data.List.Rotate
import Ds4.Lib.CString

/-!
# Spans of byte arrays

`overwrite a off b` is what a copy of `b` to the offset `off` of an array makes of it, `span a off n`
are `n` bytes at an offset. A long copy goes through a buffer of `cap` bytes: `chunkSizes` are the
sizes of its pieces.
-/

namespace C

variable {a b c : Bytes} {off i n : Nat}

def span (a : Bytes) (off n : Nat) : Bytes := (a.drop off).take n

def overwrite (a : Bytes) (off : Nat) (b : Bytes) : Bytes :=
  a.take off ++ (b ++ a.drop (off + b.length))

theorem length_span (h : off + n ≤ a.length) : (span a off n).length = n := by
  rw [span, List.length_take, List.length_drop]
  omega

theorem length_overwrite (h : off + b.length ≤ a.length) : (overwrite a off b).length = a.length := by
  rw [overwrite, List.length_append, List.length_append, List.length_take, List.length_drop]
  omega

@[simp] theorem overwrite_nil (a : Bytes) (off : Nat) : overwrite a off [] = a := by
  rw [overwrite, List.nil_append, List.length_nil, Nat.add_zero, List.take_append_drop]

theorem length_take_off (h : off ≤ a.length) : (a.take off).length = off := by
  rw [List.length_take, Nat.min_eq_left h]

theorem span_overwrite (h : off ≤ a.length) : span (overwrite a off b) off b.length = b := by
  rw [span, overwrite, List.drop_left' (length_take_off h), List.take_left' rfl]

/-- A copy leaves what is in front of it. -/
theorem span_overwrite_before (h : off ≤ a.length) (hi : i + n ≤ off) :
    span (overwrite a off b) i n = span a i n := by
  have hlen := length_take_off h
  have hin : n ≤ ((a.take off).drop i).length := by
    rw [List.length_drop, hlen]
    omega
  rw [span, overwrite, List.drop_append_of_le_length (by rw [hlen]; omega),
    List.take_append_of_le_length hin, span, List.drop_take, List.take_take,
    Nat.min_eq_left (by omega)]

/-- A copy leaves what is behind it. -/
theorem span_overwrite_after (h : off ≤ a.length) (hi : off + b.length ≤ i) :
    span (overwrite a off b) i n = span a i n := by
  have hlen := length_take_off h
  obtain ⟨k, rfl⟩ := Nat.exists_eq_add_of_le hi
  rw [span, overwrite, Nat.add_assoc, ← List.drop_drop, List.drop_left' hlen, ← List.drop_drop,
    List.drop_left' rfl, List.drop_drop, span, Nat.add_assoc]

/-- Two copies one behind the other are one copy. -/
theorem overwrite_overwrite (h : off ≤ a.length) :
    overwrite (overwrite a off b) (off + b.length) c = overwrite a off (b ++ c) := by
  have hb : (a.take off ++ b).length = off + b.length := by
    rw [List.length_append, length_take_off h]
  have htake : (overwrite a off b).take (off + b.length) = a.take off ++ b := by
    rw [overwrite, ← List.append_assoc, List.take_left' hb]
  have hdrop : (overwrite a off b).drop (off + b.length + c.length)
      = a.drop (off + (b ++ c).length) := by
    rw [overwrite, ← List.append_assoc, ← List.drop_drop, List.drop_left' hb, List.drop_drop,
      List.length_append, Nat.add_assoc]
  rw [overwrite, htake, hdrop, overwrite, List.append_assoc, List.append_assoc]

/-- A copy of what is there changes nothing. -/
theorem overwrite_span (h : off + n ≤ a.length) : overwrite a off (span a off n) = a := by
  rw [overwrite, length_span h, span, ← List.drop_drop, List.take_append_drop, List.take_append_drop]

/-- The whole array replaced. -/
theorem overwrite_all (h : b.length = a.length) : overwrite a 0 b = b := by
  rw [overwrite, List.take_zero, List.nil_append, Nat.zero_add, h, List.drop_length, List.append_nil]

theorem span_append_left {a₁ a₂ : Bytes} (h : a₁.length = n) : span (a₁ ++ a₂) 0 n = a₁ := by
  rw [span, List.drop_zero, List.take_left' h]

theorem overwrite_append_left (h : off + b.length ≤ a.length) :
    overwrite (a ++ c) off b = overwrite a off b ++ c := by
  rw [overwrite, List.take_append_of_le_length (by omega), List.drop_append_of_le_length h, overwrite,
    List.append_assoc, List.append_assoc]

theorem overwrite_append_right : overwrite (a ++ c) (a.length + off) b = a ++ overwrite c off b := by
  rw [overwrite, Nat.add_assoc, List.take_length_add_append, List.drop_length_add_append, overwrite,
    List.append_assoc]

/-- A copy to the place `k` of a ring that starts behind `a`, which does not go around its end. -/
theorem rotate_overwrite {k : Nat} (hk : k + b.length ≤ (a ++ c).length)
    (hend : (a.length + k) % (a ++ c).length + b.length ≤ (a ++ c).length) :
    (overwrite (a ++ c) ((a.length + k) % (a ++ c).length) b).rotate a.length
      = overwrite ((a ++ c).rotate a.length) k b := by
  rw [List.length_append] at hk hend ⊢
  rw [List.rotate_append_length_eq]
  rcases Nat.lt_or_ge k c.length with hlt | hge
  · -- the place is behind the start
    have hpos : (a.length + k) % (a.length + c.length) = a.length + k := Nat.mod_eq_of_lt (by omega)
    rw [hpos] at hend ⊢
    rw [overwrite_append_right, List.rotate_append_length_eq, overwrite_append_left (by omega)]
  · -- the place is in front of the start
    obtain ⟨j, rfl⟩ := Nat.exists_eq_add_of_le hge
    rcases Nat.lt_or_ge j a.length with hj | hj
    · have hpos : (a.length + (c.length + j)) % (a.length + c.length) = j := by
        rw [← Nat.add_assoc, Nat.add_mod_left, Nat.mod_eq_of_lt (by omega)]
      rw [hpos, overwrite_append_left (by omega), overwrite_append_right]
      have hlen : (overwrite a j b).length = a.length := length_overwrite (by omega)
      rw [← hlen, List.rotate_append_length_eq]
    · -- only an empty copy fits
      have hb : b = [] := List.eq_nil_of_length_eq_zero (by omega)
      rw [hb, overwrite_nil, overwrite_nil, List.rotate_append_length_eq]

def chunkSizes (cap total : Nat) : List Nat :=
  List.replicate (total / cap) cap ++ if total % cap = 0 then [] else [total % cap]

theorem sum_chunkSizes (cap total : Nat) : (chunkSizes cap total).sum = total := by
  have h := Nat.div_add_mod total cap
  rw [Nat.mul_comm] at h
  rw [chunkSizes, List.sum_append, List.sum_replicate_nat]
  split
  · next h0 => rw [List.sum_nil, ← h0, h]
  · rw [List.sum_singleton, h]

end C
