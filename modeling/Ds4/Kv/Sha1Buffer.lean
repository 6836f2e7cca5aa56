import Mathlib.Data.List.GetD
import Ds4.Kv.Sha1Fips

/-!
# Hashing in pieces

`sha1_update` copies as many bytes as the block still takes and transforms it when it is full. However a text is cut into
pieces, the hash is the one of the whole text.
-/

namespace Ds4.Kv.Buffered
open C

structure Sha1Ctx where
  h : Sha1Words
  bytes : UInt64
  block : Vector UInt8 64
  used : Nat

/-- The block is left as it is. -/
def sha1Init (c : Sha1Ctx) : Sha1Ctx := { c with h := Kv.sha1Init.h, bytes := 0, used := 0 }

/-- `memcpy(block + used, s, n)` with the `n` bytes of `s`. -/
def copyInto (block : Vector UInt8 64) (used : Nat) (s : Bytes) : Vector UInt8 64 :=
  Vector.ofFn fun i => if used ≤ i ∧ i < used + s.length then s.getD (i - used) 0 else block[i]

/-- A full block is transformed. -/
def copied (c : Sha1Ctx) : Sha1Ctx :=
  if c.used = 64 then { c with h := sha1Transform c.h c.block.toList, used := 0 } else c

/-- The loop of `sha1_update`; the first argument bounds its rounds. -/
def updateLoop : Nat → Sha1Ctx → Bytes → Option Sha1Ctx
  | _, c, [] => some c
  | 0, _, _ => none
  | fuel + 1, c, b :: s =>
    let n := min (64 - c.used) (s.length + 1)
    let block := copyInto c.block c.used ((b :: s).take n)
    updateLoop fuel (copied { c with block := block, used := c.used + n }) ((b :: s).drop n)

def sha1Update (c : Sha1Ctx) (s : Bytes) : Option Sha1Ctx :=
  updateLoop s.length { c with bytes := c.bytes + UInt64.ofNat s.length } s

/-- `while (c->used != 56) sha1_update(c, &zero, 1)` -/
def padLoop : Nat → Sha1Ctx → Option Sha1Ctx
  | 0, c => if c.used = 56 then some c else none
  | fuel + 1, c => if c.used = 56 then some c else (sha1Update c [0]).bind (padLoop fuel)

def lenBytes (bits : UInt64) : Bytes := [7, 6, 5, 4, 3, 2, 1, 0].map fun i : UInt64 => (bits >>> (8 * i)).toUInt8

def outBytes (w : UInt32) : Bytes := [24, 16, 8, 0].map fun i : UInt32 => (w >>> i).toUInt8

def sha1Final (c : Sha1Ctx) : Option Bytes := do
  let bits := c.bytes * 8
  let c ← sha1Update c [0x80]
  let c ← padLoop 64 c
  let c ← sha1Update c (lenBytes bits)
  return [c.h.h0, c.h.h1, c.h.h2, c.h.h3, c.h.h4].flatMap outBytes

/-- The block holds the bytes that are not hashed yet. -/
structure Holds (c : Sha1Ctx) (d : Kv.Sha1Ctx) : Prop where
  h : c.h = d.h
  used : c.used = d.block.length
  lt : c.used < 64
  block : c.block.toList.take c.used = d.block

section
variable {c c' : Sha1Ctx} {d : Kv.Sha1Ctx} {s : Bytes} {fuel used n : Nat} {block : Vector UInt8 64}

theorem getElem_copyInto {i : Nat} (hi : i < 64) :
    (copyInto block used s)[i] = if used ≤ i ∧ i < used + s.length then s.getD (i - used) 0 else block[i] :=
  Vector.getElem_ofFn hi

theorem take_copyInto (h : used + s.length ≤ 64) :
    (copyInto block used s).toList.take (used + s.length) = block.toList.take used ++ s := by
  have hlen : (block.toList.take used).length = used := by
    rw [List.length_take, Vector.length_toList]
    omega
  refine List.ext_getElem ?_ fun i h1 h2 => ?_
  · rw [List.length_take, Vector.length_toList, List.length_append, hlen]
    omega
  · rw [List.length_append, hlen] at h2
    rw [List.getElem_take, Vector.getElem_toList, getElem_copyInto]
    by_cases hlt : i < used
    · rw [List.getElem_append_left (by rwa [hlen]), if_neg (by omega), List.getElem_take, Vector.getElem_toList]
    · have hi : i - used < s.length := by omega
      rw [List.getElem_append_right (by rw [hlen]; omega), if_pos ⟨Nat.le_of_not_lt hlt, h2⟩, List.getD_eq_getElem _ _ hi]
      simp only [hlen]

/-- The bytes that are copied at a time. -/
theorem Holds.step (h : Holds c d) (hs : s ≠ []) (hn : c.used + s.length ≤ 64) :
    Holds (copied { c with block := copyInto c.block c.used s, used := c.used + s.length }) (Kv.sha1Update d s) := by
  have hcopy := @take_copyInto s c.used c.block hn
  rw [h.block] at hcopy
  rw [copied]
  split
  · next hfull =>
    dsimp only at hfull
    rw [hfull, List.take_of_length_le (by rw [Vector.length_toList])] at hcopy
    rw [sha1Update_fill hs (by rw [← h.used, hfull]), hcopy, h.h]
    exact ⟨rfl, rfl, Nat.zero_lt_succ 63, rfl⟩
  · next hfull =>
    dsimp only at hfull
    rw [sha1Update_short (by rw [← h.used]; omega)]
    exact ⟨h.h, by rw [List.length_append, ← h.used], by dsimp only; omega, hcopy⟩

theorem bytes_copied (c : Sha1Ctx) : (copied c).bytes = c.bytes := by
  rw [copied]
  split <;> rfl

/-- The loop ends, and the block holds what it does after the bytes one by one. -/
theorem Holds.updateLoop (h : Holds c d) (hfuel : s.length ≤ fuel) :
    ∃ c', updateLoop fuel c s = some c' ∧ Holds c' (Kv.sha1Update d s) ∧ c'.bytes = c.bytes := by
  induction fuel generalizing c d s with
  | zero =>
    rw [List.length_eq_zero_iff.mp (Nat.le_zero.mp hfuel)]
    exact ⟨c, rfl, h, rfl⟩
  | succ fuel ih =>
    cases s with
    | nil => exact ⟨c, rfl, h, rfl⟩
    | cons b s =>
      have hlt := h.lt
      rw [List.length_cons] at hfuel
      have hlen : ((b :: s).take (min (64 - c.used) (s.length + 1))).length = min (64 - c.used) (s.length + 1) := by
        rw [List.length_take, List.length_cons]
        omega
      have hne : (b :: s).take (min (64 - c.used) (s.length + 1)) ≠ [] := fun hnil => by
        rw [hnil, List.length_nil] at hlen
        omega
      have hstep := h.step hne (by rw [hlen]; omega)
      rw [hlen] at hstep
      obtain ⟨c', hc', hheld, hbytes⟩ := @ih _ _ ((b :: s).drop (min (64 - c.used) (s.length + 1))) hstep
        (by rw [List.length_drop, List.length_cons]; omega)
      rw [← sha1Update_append, List.take_append_drop] at hheld
      exact ⟨c', hc', hheld, hbytes.trans (bytes_copied _)⟩

/-- The counters agree. -/
def Counts (c : Sha1Ctx) (d : Kv.Sha1Ctx) : Prop := c.bytes = UInt64.ofNat d.bytes

theorem Holds.update (h : Holds c d) (hb : Counts c d) (s : Bytes) :
    ∃ c', sha1Update c s = some c' ∧ Holds c' (Kv.sha1Update d s) ∧ Counts c' (Kv.sha1Update d s) := by
  have hadded : Holds { c with bytes := c.bytes + UInt64.ofNat s.length } d := ⟨h.h, h.used, h.lt, h.block⟩
  obtain ⟨c', hc', hheld, hbytes⟩ := hadded.updateLoop (Nat.le_refl s.length)
  have hcount := (@sha1Update_block d (h.used ▸ h.lt) s).2
  refine ⟨c', hc', hheld, ?_⟩
  rw [Counts, hbytes, hcount, UInt64.ofNat_add, ← hb]

theorem Holds.foldlM (h : Holds c d) (hb : Counts c d) (pieces : List Bytes) :
    ∃ c', pieces.foldlM sha1Update c = some c' ∧ Holds c' (Kv.sha1Update d pieces.flatten) ∧
      Counts c' (Kv.sha1Update d pieces.flatten) := by
  induction pieces generalizing c d with
  | nil => exact ⟨c, rfl, h, hb⟩
  | cons s pieces ih =>
    obtain ⟨c₁, hc₁, h₁, hb₁⟩ := h.update hb s
    obtain ⟨c₂, hc₂, h₂⟩ := ih h₁ hb₁
    rw [List.flatten_cons, sha1Update_append]
    exact ⟨c₂, by rw [List.foldlM_cons, hc₁]; exact hc₂, h₂⟩

/-- The padding loop ends at the first byte 56. -/
theorem Holds.padLoop (h : Holds c d) (hb : Counts c d) {j : Nat} (hj : (c.used + j) % 64 = 56) (hn : j ≤ n) :
    ∃ c', padLoop n c = some c' ∧ Holds c' (sha1Pad n d) ∧ Counts c' (sha1Pad n d) := by
  induction n generalizing c d j with
  | zero =>
    have hused : c.used = 56 := by
      have := h.lt
      omega
    exact ⟨c, if_pos hused, h, hb⟩
  | succ n ih =>
    rw [Buffered.padLoop, sha1Pad, ← h.used]
    split
    · exact ⟨c, rfl, h, hb⟩
    · next hne =>
      obtain ⟨c₁, hc₁, h₁, hb₁⟩ := h.update hb [0]
      have hused := h₁.used
      have hlen := (@sha1Update_block d (h.used ▸ h.lt) [0]).1
      rw [← hused, ← h.used, List.length_singleton] at hlen
      have hlt := h.lt
      cases j with
      | zero => omega
      | succ j =>
        obtain ⟨c₂, hc₂, h₂⟩ := ih h₁ hb₁ (j := j) (by rw [hlen, Nat.mod_add_mod]; omega) (by omega)
        exact ⟨c₂, by rw [hc₁]; exact hc₂, h₂⟩

theorem toUInt8_shift64 (x k : UInt64) (hk : k.toNat < 64) : (x >>> k).toUInt8 = UInt8.ofNat (x.toNat / 2 ^ k.toNat) := by
  refine UInt8.toNat_inj.mp ?_
  rw [UInt64.toNat_toUInt8, UInt64.toNat_shiftRight, Nat.mod_eq_of_lt hk, Nat.shiftRight_eq_div_pow, UInt8.toNat_ofNat']

theorem toUInt8_shift32 (x k : UInt32) (hk : k.toNat < 32) : (x >>> k).toUInt8 = UInt8.ofNat (x.toNat / 2 ^ k.toNat) := by
  refine UInt8.toNat_inj.mp ?_
  rw [UInt32.toNat_toUInt8, UInt32.toNat_shiftRight, Nat.mod_eq_of_lt hk, Nat.shiftRight_eq_div_pow, UInt8.toNat_ofNat']

theorem lenBytes_eq (bits : UInt64) : lenBytes bits = beBytes 8 bits.toNat := by
  have hbyte : ∀ i : UInt64, (8 * i).toNat < 64 → (bits >>> (8 * i)).toUInt8 = UInt8.ofNat (bits.toNat / 2 ^ (8 * i).toNat) :=
    fun i hi => toUInt8_shift64 bits (8 * i) hi
  simp only [lenBytes, List.map_cons, List.map_nil]
  rw [hbyte 7 (by decide), hbyte 6 (by decide), hbyte 5 (by decide), hbyte 4 (by decide), hbyte 3 (by decide),
    hbyte 2 (by decide), hbyte 1 (by decide), hbyte 0 (by decide)]
  rfl

theorem outBytes_eq (w : UInt32) : outBytes w = beBytes 4 w.toNat := by
  simp only [outBytes, List.map_cons, List.map_nil]
  rw [toUInt8_shift32 w 24 (by decide), toUInt8_shift32 w 16 (by decide), toUInt8_shift32 w 8 (by decide),
    toUInt8_shift32 w 0 (by decide)]
  rfl

/-- The hash that is written is the one of the bytes one by one, as long as the number of bits fits. -/
theorem Holds.final (h : Holds c d) (hb : Counts c d) (hlen : d.bytes < 2 ^ 61) : sha1Final c = some (Kv.sha1Final d) := by
  have hbits : (c.bytes * 8).toNat = d.bytes * 8 := by
    have height : (8 : UInt64).toNat = 8 := rfl
    rw [hb, UInt64.toNat_mul, UInt64.toNat_ofNat', height]
    omega
  have hlength : lenBytes (c.bytes * 8) = beBytes 8 (d.bytes * 8) := by rw [lenBytes_eq, hbits]
  have hone : Kv.sha1Update d [0x80] = sha1UpdateByte d 0x80 := rfl
  obtain ⟨c₁, hc₁, h₁, hb₁⟩ := h.update hb [0x80]
  rw [hone] at h₁ hb₁
  have hlt₁ := h₁.lt
  obtain ⟨c₂, hc₂, h₂, hb₂⟩ := h₁.padLoop hb₁ (j := (120 - c₁.used) % 64) (n := 64) (by omega) (by omega)
  obtain ⟨c₃, hc₃, h₃, -⟩ := h₂.update hb₂ (beBytes 8 (d.bytes * 8))
  have hout : ([c₃.h.h0, c₃.h.h1, c₃.h.h2, c₃.h.h3, c₃.h.h4].flatMap outBytes) = Kv.sha1Final d := by
    rw [sha1Final_eq, ← bytes_toHash, ← h₃.h]
    exact List.flatMap_congr fun w _ => outBytes_eq w
  rw [sha1Final, hlength, hc₁, Option.bind_eq_bind, Option.bind_some, hc₂, Option.bind_some, hc₃, Option.bind_some,
    hout]
  rfl

end

/-- However a text is cut into pieces, `used` stays below 64 and the hash is the SHA-1 of the text. -/
theorem sha1_pieces (c : Sha1Ctx) (pieces : List Bytes) (h : pieces.flatten.length < 2 ^ 61) :
    (∀ c s, c.used < 64 → ∃ c', sha1Update c s = some c' ∧ c'.used < 64) ∧
      ∃ c', pieces.foldlM sha1Update (sha1Init c) = some c' ∧ c'.used < 64 ∧
        sha1Final c' = some (Fips180.sha1 pieces.flatten) := by
  constructor
  · intro c s hc
    have hheld : Holds c ⟨c.h, c.bytes.toNat, c.block.toList.take c.used⟩ := by
      refine ⟨rfl, ?_, hc, rfl⟩
      dsimp only
      rw [List.length_take, Vector.length_toList]
      omega
    obtain ⟨c', hc', h', -⟩ := hheld.update UInt64.ofNat_toNat.symm s
    exact ⟨c', hc', h'.lt⟩
  · have hinit : Holds (sha1Init c) Kv.sha1Init := ⟨rfl, rfl, Nat.zero_lt_succ 63, rfl⟩
    obtain ⟨c', hc', h', hb'⟩ := hinit.foldlM rfl pieces
    have hbytes : (Kv.sha1Update Kv.sha1Init pieces.flatten).bytes = pieces.flatten.length :=
      (sha1Update_block (by decide) _).2.trans (Nat.zero_add _)
    refine ⟨c', hc', h'.lt, ?_⟩
    rw [h'.final hb' (by rw [hbytes]; exact h), sha1_eq]

theorem sha1_pieces_abc :
    ∃ c', [lit "a", [], lit "bc"].foldlM sha1Update (sha1Init ⟨Kv.sha1Init.h, 0, Vector.replicate 64 0, 0⟩) = some c' ∧
      c'.used < 64 ∧ sha1Final c' = some (Fips180.sha1 (lit "abc")) :=
  (sha1_pieces ⟨Kv.sha1Init.h, 0, Vector.replicate 64 0, 0⟩ [lit "a", [], lit "bc"] (by decide)).2

end Ds4.Kv.Buffered
