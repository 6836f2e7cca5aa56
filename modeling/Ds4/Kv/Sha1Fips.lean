import Ds4.Kv.Sha1
import Ds4.Lib.Fips180

/-!
# The hash is SHA-1

The transform computes the standard's hash of a block, and the bytes that are hashed at the end are the padded message.
-/

namespace Ds4.Kv
open C

def Sha1Words.toHash (s : Sha1Words) : Fips180.Hash :=
  ⟨s.h0.toBitVec, s.h1.toBitVec, s.h2.toBitVec, s.h3.toBitVec, s.h4.toBitVec⟩

section
variable {s t : Bytes} {b c d : UInt8} {i n : Nat}

theorem toBitVec_rol32 (v : UInt32) :
    (rol32 v 1).toBitVec = v.toBitVec.rotateLeft 1 ∧ (rol32 v 5).toBitVec = v.toBitVec.rotateLeft 5 ∧
      (rol32 v 30).toBitVec = v.toBitVec.rotateLeft 30 := ⟨rfl, rfl, rfl⟩

/-! ## The transform -/

/-- Four bytes put together by shifts. -/
theorem bytes_or (a b c d : BitVec 8) :
    a.setWidth 32 <<< 24 ||| b.setWidth 32 <<< 16 ||| c.setWidth 32 <<< 8 ||| d.setWidth 32 = a ++ b ++ c ++ d := by
  refine BitVec.eq_of_getLsbD_eq fun i hi => ?_
  simp only [BitVec.getLsbD_append, BitVec.getLsbD_or, BitVec.getLsbD_shiftLeft, BitVec.getLsbD_setWidth]
  by_cases h1 : i < 8
  · simp [h1, hi, show i < 24 by omega, show i < 16 by omega]
  have hd := BitVec.getLsbD_of_ge d i (by omega)
  by_cases h2 : i - 8 < 8
  · simp [h1, h2, hi, hd, show i < 24 by omega, show i < 16 by omega, show i - 8 < 32 by omega]
  have hc := BitVec.getLsbD_of_ge c (i - 8) (by omega)
  by_cases h3 : i - 16 < 8
  · simp [h1, h2, h3, hd, hc, hi, show i < 24 by omega, show ¬i < 16 by omega, Nat.sub_sub, show i - 16 < 32 by omega]
  · have hb := BitVec.getLsbD_of_ge b (i - 16) (by omega)
    simp [h1, h2, h3, hd, hc, hb, hi, show ¬i < 24 by omega, show ¬i < 16 by omega, Nat.sub_sub, show i - 24 < 32 by omega]

theorem toBitVec_word (a b c d : UInt8) :
    ((a.toUInt32 <<< 24) ||| (b.toUInt32 <<< 16) ||| (c.toUInt32 <<< 8) ||| d.toUInt32).toBitVec =
      a.toBitVec ++ b.toBitVec ++ c.toBitVec ++ d.toBitVec := bytes_or ..

theorem sha1Words_eq (h : s.length = 4 * n) : (sha1Words s).map UInt32.toBitVec = (List.range n).map (Fips180.word s) := by
  induction n generalizing s with
  | zero =>
    rw [List.length_eq_zero_iff.mp h]
    rfl
  | succ n ih =>
    obtain _ | ⟨a, _ | ⟨b, _ | ⟨c, _ | ⟨d, s⟩⟩⟩⟩ := s
    · cases h
    · simp at h; omega
    · simp at h; omega
    · simp at h; omega
    · have hlen : s.length = 4 * n := by
        simp only [List.length_cons] at h
        omega
      rw [sha1Words, List.map_cons, ih hlen, List.range_succ_eq_map, List.map_cons, List.map_map, toBitVec_word]
      rfl

/-- The schedule, the newest word first. -/
def newestFirst (m : Nat → Fips180.Word) (n : Nat) : List Fips180.Word := ((List.range n).map (Fips180.schedule m)).reverse

theorem newestFirst_succ (m : Nat → Fips180.Word) (n : Nat) :
    newestFirst m (n + 1) = Fips180.schedule m n :: newestFirst m n := by
  rw [newestFirst, List.range_succ, List.map_append, List.reverse_append]
  rfl

theorem newestFirst_getD (m : Nat → Fips180.Word) (h : i < n) : (newestFirst m n).getD i 0 = Fips180.schedule m (n - 1 - i) := by
  induction i generalizing n with
  | zero =>
    obtain ⟨n, rfl⟩ := Nat.exists_eq_succ_of_ne_zero h.ne'
    rw [newestFirst_succ]
    rfl
  | succ i ih =>
    obtain ⟨n, rfl⟩ := Nat.exists_eq_succ_of_ne_zero (Nat.ne_zero_of_lt h)
    rw [newestFirst_succ, List.getD_cons_succ, ih (Nat.lt_of_succ_lt_succ h)]
    congr 1
    omega

theorem getD_map_toBitVec (w : List UInt32) (i : Nat) : (w.map UInt32.toBitVec).getD i 0 = (w.getD i 0).toBitVec := by
  rw [List.getD_eq_getElem?_getD, List.getElem?_map, List.getD_eq_getElem?_getD]
  cases w[i]? <;> rfl

theorem sha1Extend_eq (m : Nat → Fips180.Word) {w : List UInt32} (hn : 16 ≤ n) (hw : w.map UInt32.toBitVec = newestFirst m n)
    (k : Nat) : (sha1Extend k w).map UInt32.toBitVec = newestFirst m (n + k) := by
  induction k generalizing n w with
  | zero => exact hw
  | succ k ih =>
    have hget : ∀ i < n, (w.getD i 0).toBitVec = Fips180.schedule m (n - 1 - i) := fun i hi => by
      rw [← getD_map_toBitVec, hw, newestFirst_getD m hi]
    rw [sha1Extend, ← Nat.succ_add_eq_add_succ]
    refine ih (Nat.le_succ_of_le hn) ?_
    rw [List.map_cons, hw, newestFirst_succ, Fips180.schedule, if_neg (Nat.not_lt.mpr hn), (toBitVec_rol32 _).1,
      UInt32.toBitVec_xor, UInt32.toBitVec_xor, UInt32.toBitVec_xor, hget 2 (by omega), hget 7 (by omega), hget 13 (by omega),
      hget 15 (by omega), Nat.sub_sub, Nat.sub_sub, Nat.sub_sub, Nat.sub_sub]

/-- The two ways to write `Ch` and `Maj`. -/
theorem or_eq_xor (x y z : BitVec 32) :
    (x &&& y ||| ~~~x &&& z) = Fips180.ch x y z ∧ (x &&& y ||| x &&& z ||| y &&& z) = Fips180.maj x y z := by
  constructor
  · refine BitVec.eq_of_getLsbD_eq fun i hi => ?_
    simp only [Fips180.ch, BitVec.getLsbD_or, BitVec.getLsbD_and, BitVec.getLsbD_xor, BitVec.getLsbD_not, hi, decide_true,
      Bool.true_and]
    cases x.getLsbD i <;> cases y.getLsbD i <;> cases z.getLsbD i <;> rfl
  · refine BitVec.eq_of_getLsbD_eq fun i hi => ?_
    simp only [Fips180.maj, BitVec.getLsbD_or, BitVec.getLsbD_and, BitVec.getLsbD_xor]
    cases x.getLsbD i <;> cases y.getLsbD i <;> cases z.getLsbD i <;> rfl

theorem sha1Round_eq (m : Nat → Fips180.Word) (r : Sha1Words) (w : UInt32) (hw : w.toBitVec = Fips180.schedule m i) :
    (sha1Round i r w).toHash = Fips180.round m r.toHash i := by
  have h5 := (toBitVec_rol32 r.h0).2.1
  have h30 := (toBitVec_rol32 r.h1).2.2
  have hf : ∀ f k : UInt32, f.toBitVec = Fips180.f i r.h1.toBitVec r.h2.toBitVec r.h3.toBitVec → k.toBitVec = Fips180.k i →
      Sha1Words.toHash ⟨rol32 r.h0 5 + f + r.h4 + k + w, r.h0, rol32 r.h1 30, r.h2, r.h3⟩ =
        Fips180.round m r.toHash i := by
    intro f k hf hk
    rw [Fips180.round, Sha1Words.toHash, ← hw, Sha1Words.toHash]
    dsimp only
    rw [← hf, ← hk, ← h5, ← h30]
    rfl
  obtain ⟨hch, hmaj⟩ := or_eq_xor r.h1.toBitVec r.h2.toBitVec r.h3.toBitVec
  rw [sha1Round]
  by_cases h20 : i < 20
  · simp only [if_pos h20]
    exact hf _ _ (by rw [Fips180.f, if_pos h20, ← hch]; rfl) (by rw [Fips180.k, if_pos h20]; rfl)
  by_cases h40 : i < 40
  · simp only [if_neg h20, if_pos h40]
    exact hf _ _ (by rw [Fips180.f, if_neg h20, if_pos h40]; rfl) (by rw [Fips180.k, if_neg h20, if_pos h40]; rfl)
  by_cases h60 : i < 60
  · simp only [if_neg h20, if_neg h40, if_pos h60]
    exact hf _ _ (by rw [Fips180.f, if_neg h20, if_neg h40, if_pos h60, ← hmaj]; rfl)
      (by rw [Fips180.k, if_neg h20, if_neg h40, if_pos h60]; rfl)
  · simp only [if_neg h20, if_neg h40, if_neg h60]
    exact hf _ _ (by rw [Fips180.f, if_neg h20, if_neg h40, if_neg h60]; rfl)
      (by rw [Fips180.k, if_neg h20, if_neg h40, if_neg h60]; rfl)

theorem foldl_sha1Round (m : Nat → Fips180.Word) {w : List UInt32} (hw : w.map UInt32.toBitVec = (List.range n).map (Fips180.schedule m))
    (r : Sha1Words) :
    (w.zipIdx.foldl (fun s wi => sha1Round wi.2 s wi.1) r).toHash = (List.range n).foldl (Fips180.round m) r.toHash := by
  induction n generalizing w with
  | zero =>
    rw [List.map_eq_nil_iff.mp hw]
    rfl
  | succ n ih =>
    rw [List.range_succ, List.map_append] at hw
    obtain ⟨u, v, rfl, hu, hv⟩ := List.map_eq_append_iff.mp hw
    obtain ⟨x, v, rfl, hx, hv⟩ := List.map_eq_cons_iff.mp hv
    rw [List.map_eq_nil_iff.mp hv]
    have hlen : u.length = n := by
      have := congrArg List.length hu
      rwa [List.length_map, List.length_map, List.length_range] at this
    rw [List.zipIdx_append, List.foldl_append, List.range_succ, List.foldl_append, ← ih hu, hlen, Nat.zero_add]
    exact sha1Round_eq m _ x hx

theorem sha1Transform_eq (r : Sha1Words) (h : s.length = 64) :
    (sha1Transform r s).toHash = Fips180.compress r.toHash (Fips180.word s) := by
  have hwords : (sha1Words s).reverse.map UInt32.toBitVec = newestFirst (Fips180.word s) 16 := by
    rw [List.map_reverse, sha1Words_eq (n := 16) h, newestFirst]
    congr 1
    refine List.map_congr_left fun t ht => ?_
    rw [Fips180.schedule, if_pos (List.mem_range.mp ht)]
  have hall := sha1Extend_eq (Fips180.word s) (Nat.le_refl 16) hwords 64
  have hfold := foldl_sha1Round (n := 80) (Fips180.word s)
    (by rw [List.map_reverse, hall, newestFirst, List.reverse_reverse]) r
  rw [Fips180.compress, ← hfold]
  rfl

/-! ## The message -/

theorem sha1Update_append (c : Sha1Ctx) (s t : Bytes) : sha1Update c (s ++ t) = sha1Update (sha1Update c s) t := List.foldl_append

/-- Bytes that do not fill the block are kept in it. -/
theorem sha1Update_short {c : Sha1Ctx} (h : c.block.length + s.length < 64) :
    sha1Update c s = ⟨c.h, c.bytes + s.length, c.block ++ s⟩ := by
  induction s generalizing c with
  | nil => rw [List.append_nil]; rfl
  | cons b s ih =>
    have hlen : (c.block ++ [b]).length = c.block.length + 1 := List.length_append
    rw [List.length_cons] at h
    rw [sha1Update, List.foldl_cons, ← sha1Update, sha1UpdateByte, if_neg (by omega), ih (by dsimp only; omega)]
    dsimp only
    rw [List.append_assoc, List.length_cons, Nat.add_right_comm]
    rfl

/-- Bytes that fill the block are hashed with it. -/
theorem sha1Update_fill {c : Sha1Ctx} (hs : s ≠ []) (h : c.block.length + s.length = 64) :
    sha1Update c s = ⟨sha1Transform c.h (c.block ++ s), c.bytes + s.length, []⟩ := by
  have hpos := List.length_pos_of_ne_nil hs
  have hlen : s.dropLast.length = s.length - 1 := List.length_dropLast
  conv_lhs => rw [← List.dropLast_append_getLast hs]
  rw [sha1Update_append, @sha1Update_short s.dropLast c (by omega), sha1Update, List.foldl_cons, List.foldl_nil, sha1UpdateByte,
    if_pos (by rw [List.length_append, List.length_append, List.length_singleton]; omega), List.append_assoc,
    List.dropLast_append_getLast hs]
  dsimp only
  congr 1
  omega

theorem length_block_sha1UpdateByte {c : Sha1Ctx} (h : c.block.length < 64) (b : UInt8) :
    (sha1UpdateByte c b).block.length = (c.block.length + 1) % 64 := by
  have hlen : (c.block ++ [b]).length = c.block.length + 1 := List.length_append
  rw [sha1UpdateByte]
  split
  · next hfull =>
    rw [hlen] at hfull
    rw [hfull]
    rfl
  · next hfull =>
    rw [hlen] at hfull
    rw [hlen, Nat.mod_eq_of_lt (by omega)]

theorem sha1Update_block {c : Sha1Ctx} (h : c.block.length < 64) (s : Bytes) :
    (sha1Update c s).block.length = (c.block.length + s.length) % 64 ∧ (sha1Update c s).bytes = c.bytes + s.length := by
  induction s generalizing c with
  | nil => exact ⟨(Nat.mod_eq_of_lt h).symm, rfl⟩
  | cons b s ih =>
    have hb := length_block_sha1UpdateByte h b
    have hbytes : (sha1UpdateByte c b).bytes = c.bytes + 1 := by
      rw [sha1UpdateByte]
      split <;> rfl
    obtain ⟨hblock, hcount⟩ := @ih (sha1UpdateByte c b) (by rw [hb]; exact Nat.mod_lt _ (by decide))
    rw [hb, Nat.mod_add_mod] at hblock
    rw [hbytes] at hcount
    rw [List.length_cons, ← Nat.add_assoc, ← Nat.add_assoc, Nat.add_right_comm _ s.length 1, Nat.add_right_comm _ s.length 1]
    exact ⟨hblock, hcount⟩

/-- Whole blocks are hashed one after the other. -/
theorem sha1Update_blocks (h : s.length = 64 * n) (r : Sha1Words) (bytes : Nat) :
    (sha1Update ⟨r, bytes, []⟩ s).h.toHash = Fips180.hashBlocks n r.toHash s := by
  induction n generalizing s r bytes with
  | zero =>
    rw [List.length_eq_zero_iff.mp h]
    rfl
  | succ n ih =>
    have hlen : (s.take 64).length = 64 := by
      rw [List.length_take]
      omega
    have hne : s.take 64 ≠ [] := fun hnil => by
      rw [hnil] at hlen
      cases hlen
    rw [Fips180.hashBlocks]
    conv_lhs => rw [← List.take_append_drop 64 s]
    rw [sha1Update_append, sha1Update_fill hne (by rw [hlen]; rfl), List.nil_append,
      ih (by rw [List.length_drop]; omega), sha1Transform_eq r hlen]

/-- Zeros are added up to 56 bytes in the block. -/
theorem sha1Pad_eq {c : Sha1Ctx} {j : Nat} (hc : c.block.length < 64) (hj : (c.block.length + j) % 64 = 56)
    (hmin : ∀ i < j, (c.block.length + i) % 64 ≠ 56) (hn : j ≤ n) : sha1Pad n c = sha1Update c (List.replicate j 0) := by
  induction n generalizing c j with
  | zero =>
    rw [Nat.le_zero.mp hn]
    rfl
  | succ n ih =>
    cases j with
    | zero =>
      rw [Nat.add_zero, Nat.mod_eq_of_lt hc] at hj
      rw [sha1Pad, if_pos hj]
      rfl
    | succ j =>
      have hlen := length_block_sha1UpdateByte hc 0
      have hne : c.block.length ≠ 56 := by
        have := hmin 0 (Nat.succ_pos j)
        rwa [Nat.add_zero, Nat.mod_eq_of_lt hc] at this
      rw [sha1Pad, if_neg hne, List.replicate_succ, sha1Update, List.foldl_cons, ← sha1Update]
      refine ih (by rw [hlen]; exact Nat.mod_lt _ (by decide)) ?_ (fun i hi => ?_) (Nat.le_of_succ_le_succ hn)
      · rw [hlen, Nat.mod_add_mod]
        omega
      · have := hmin (i + 1) (Nat.succ_lt_succ hi)
        rw [hlen, Nat.mod_add_mod]
        omega

theorem bytes_toHash (r : Sha1Words) :
    ([r.h0, r.h1, r.h2, r.h3, r.h4].flatMap fun w => beBytes 4 w.toNat) = r.toHash.bytes := rfl

theorem sha1Final_eq (c : Sha1Ctx) :
    sha1Final c = (sha1Update (sha1Pad 64 (sha1UpdateByte c 0x80)) (beBytes 8 (c.bytes * 8))).h.toHash.bytes :=
  bytes_toHash _

theorem beBytes_bits (n : Nat) : beBytes 8 (n * 8) = Fips180.lengthBytes n := by
  rw [Nat.mul_comm]
  rfl

/-- The bytes that are hashed at the end complete the padded message. -/
theorem sha1Final_update (s : Bytes) :
    sha1Final (sha1Update sha1Init s) = (sha1Update sha1Init (Fips180.pad s)).h.toHash.bytes := by
  obtain ⟨hblock, hbytes⟩ := @sha1Update_block sha1Init (by decide) s
  have hlt : (sha1Update sha1Init s).block.length < 64 := by
    rw [hblock]
    exact Nat.mod_lt _ (by decide)
  have hone := length_block_sha1UpdateByte hlt 0x80
  have hlen : sha1Init.block.length = 0 := rfl
  have hused : (sha1UpdateByte (sha1Update sha1Init s) 0x80).block.length = (s.length + 1) % 64 := by
    rw [hone, hblock, hlen, Nat.mod_add_mod, Nat.zero_add]
  have hpad := @sha1Pad_eq 64 (sha1UpdateByte (sha1Update sha1Init s) 0x80) (Fips180.zeros s.length)
    (by rw [hused]; exact Nat.mod_lt _ (by decide))
    (by rw [hused, Nat.mod_add_mod]; exact (Fips180.zeros_spec _).1)
    (fun i hi => by rw [hused, Nat.mod_add_mod]; exact Fips180.zeros_min hi)
    (Fips180.zeros_spec _).2.le
  have hcount : sha1Init.bytes + s.length = s.length := Nat.zero_add _
  have hbyte : ∀ c t, sha1Update (sha1UpdateByte c 0x80) t = sha1Update c (0x80 :: t) := fun _ _ => rfl
  rw [sha1Final_eq, hbytes, hcount, beBytes_bits, hpad, ← sha1Update_append, hbyte, ← sha1Update_append, Fips180.pad]

/-- The hash of a text is its SHA-1. -/
theorem sha1_eq (s : Bytes) : sha1Final (sha1Update sha1Init s) = Fips180.sha1 s := by
  have hmod := Fips180.length_pad_mod s
  rw [sha1Final_update, Fips180.sha1]
  congr 1
  exact sha1Update_blocks (by omega) sha1Init.h 0

end

example :
    Fips180.sha1 (lit "abc") =
      [0xa9, 0x99, 0x3e, 0x36, 0x47, 0x06, 0x81, 0x6a, 0xba, 0x3e, 0x25, 0x71, 0x78, 0x50, 0xc2, 0x6c, 0x9c, 0xd0, 0xd8,
        0x9d] := by
  rw [← sha1_eq]
  decide +kernel

end Ds4.Kv
