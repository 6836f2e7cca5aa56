import Ds4.Dist.Protocol

/-!
# Reading and writing frames

A read that gets all its bytes returns them with the connection behind them, and otherwise the
return code: zero when the peer closed, negative when the connection broke or the bytes are not those
of the protocol. A writer gives the bytes of its frame, or nothing when it refuses to write it.
-/

namespace Ds4.Dist
open C Wire

def distReadFull (c : Conn) (len : Nat) : Except Int (Bytes × Conn) :=
  if len ≤ c.bytes.length then .ok (c.bytes.take len, c.drop len) else .error c.ending

/-- The bytes are read in pieces of a buffer; a piece that does not arrive ends it. -/
def distDiscardBytes (c : Conn) (bytes : Nat) : Int × Conn :=
  if bytes = 0 then
    (1, c)
  else
    let n := if bytes < 4096 then bytes else 4096
    match distReadFull c n with
    | .error rc => (if rc = 0 then 0 else -1, c.drop n)
    | .ok (_, c) => distDiscardBytes c (bytes - n)
termination_by bytes
decreasing_by split <;> omega

def distReadFrameHeader (c : Conn) : Except Int (UInt32 × Nat × Conn) :=
  match distReadFull c (sizeof FrameHeader) with
  | .error rc => .error rc
  | .ok (s, c) =>
    let h : FrameHeader := fromWire s
    if h.magic ≠ magic then .error (-1) else .ok (h.type, h.bytes.toNat, c)

def distWriteFrameHeader (type : UInt32) (bytes : Nat) : Bytes :=
  toWire (α := FrameHeader) { magic, type, bytes := UInt32.ofNat bytes }

section Read
variable {c d : Conn} {n : Nat} {s : Bytes}

theorem distReadFull_ok (h : distReadFull c n = .ok (s, d)) :
    n ≤ c.bytes.length ∧ s = c.bytes.take n ∧ d = c.drop n := by
  rw [distReadFull] at h
  split at h
  · next hn =>
    cases h
    exact ⟨hn, rfl, rfl⟩
  · cases h

theorem distReadFull_of_le (h : n ≤ c.bytes.length) :
    distReadFull c n = .ok (c.bytes.take n, c.drop n) := if_pos h

theorem distReadFull_error (h : distReadFull c n = .error rc) :
    c.bytes.length < n ∧ rc = c.ending := by
  rw [distReadFull] at h
  split at h
  · cases h
  · next hn =>
    cases h
    exact ⟨Nat.lt_of_not_le hn, rfl⟩

/-- Discarding leaves what is behind the bytes, and nothing when they do not all arrive. -/
theorem distDiscardBytes_conn (c : Conn) (n : Nat) : (distDiscardBytes c n).2 = c.drop n := by
  induction n using Nat.strongRecOn generalizing c with
  | _ n ih =>
    rw [distDiscardBytes]
    split
    · next h => rw [h, Conn.drop_zero]
    · next hn =>
      dsimp only
      generalize hk : (if n < 4096 then n else 4096) = k
      have hkn : 0 < k ∧ k ≤ n := by
        rw [← hk]
        split <;> omega
      split
      · next rc h =>
        have hlen := (distReadFull_error h).1
        have hk' : c.bytes.drop k = [] := List.drop_eq_nil_of_le (by omega)
        have hn' : c.bytes.drop n = [] := List.drop_eq_nil_of_le (by omega)
        rw [Conn.drop, Conn.drop, hk', hn']
      · next s d h =>
        obtain ⟨-, -, rfl⟩ := distReadFull_ok h
        rw [ih (n - k) (by omega), Conn.drop_drop, Nat.add_sub_cancel' hkn.2]

theorem distReadFrameHeader_ok (h : distReadFrameHeader c = .ok (type, bytes, d)) :
    12 ≤ c.bytes.length ∧ d = c.drop 12 ∧
      (fromWire (c.bytes.take 12) : FrameHeader) = ⟨magic, type, UInt32.ofNat bytes⟩ ∧
      bytes < 2 ^ 32 := by
  rw [distReadFrameHeader] at h
  split at h
  · cases h
  · next s d' hr =>
    obtain ⟨hlen, rfl, rfl⟩ := distReadFull_ok hr
    dsimp only at h
    split at h
    · cases h
    · next hm =>
      cases h
      rw [sizeof_frameHeader] at hlen hm ⊢
      generalize (fromWire (c.bytes.take 12) : FrameHeader) = r at hm ⊢
      obtain ⟨m, t, b⟩ := r
      have hm' : m = magic := Decidable.of_not_not hm
      subst hm'
      refine ⟨hlen, rfl, ?_, b.toNat_lt⟩
      rw [UInt32.ofNat_toNat]

end Read

theorem length_distWriteFrameHeader (type : UInt32) (bytes : Nat) :
    (distWriteFrameHeader type bytes).length = 12 := length_toWire _

/-- A header that was written is read back, with what follows it. -/
theorem distReadFrameHeader_write (type : UInt32) (h : n < 2 ^ 32) (s : Bytes) (broken : Bool) :
    distReadFrameHeader ⟨distWriteFrameHeader type n ++ s, broken⟩ = .ok (type, n, ⟨s, broken⟩) := by
  have hlen : (distWriteFrameHeader type n).length = sizeof FrameHeader :=
    length_distWriteFrameHeader type n
  have hn : (UInt32.ofNat n).toNat = n := UInt32.toNat_ofNat_of_lt' h
  rw [distReadFrameHeader, distReadFull_of_le (by rw [List.length_append]; omega)]
  dsimp only [Conn.drop]
  rw [List.take_left' hlen, List.drop_left' hlen, distWriteFrameHeader, fromWire_toWire]
  dsimp only
  rw [if_neg (by simp), hn]

end Ds4.Dist
