import Mathlib.Data.Nat.Bitwise
import Ds4.Dist.Activation16

/-!
# Rounding to 16 bits

On the fields of a single the branches of `dist_f32_to_f16` are one rounding to the nearest half with ties to even; the way
back is exact.
-/

namespace Ds4.Dist
open BinaryFormat

/-! ## The fields of the patterns -/

section
variable {a b c i n : Nat}

theorem or_eq_add (h : b < 2 ^ i) : a * 2 ^ i ||| b = a * 2 ^ i + b := by
  rw [Nat.mul_comm, Nat.two_pow_add_eq_or_of_lt h]

theorem and_one_eq (n : Nat) : n &&& 1 = n % 2 := Nat.and_two_pow_sub_one_eq_mod n 1

theorem and_bit_eq (n i : Nat) : n &&& 2 ^ i = n / 2 ^ i % 2 * 2 ^ i := by
  rw [Nat.and_two_pow, Nat.toNat_testBit]

theorem toNat_shiftLeft {x : UInt32} {i j : Nat} (hi : i < 32) (hx : x.toNat < 2 ^ j) (hij : j + i ≤ 32) :
    (x <<< UInt32.ofNat i).toNat = x.toNat * 2 ^ i := by
  have hi' : (UInt32.ofNat i).toNat % 32 = i := by
    rw [UInt32.toNat_ofNat_of_lt' (by show i < 2 ^ 32; omega)]
    exact Nat.mod_eq_of_lt hi
  have hlt : x.toNat * 2 ^ i < 2 ^ 32 := calc
    _ < 2 ^ j * 2 ^ i := Nat.mul_lt_mul_of_pos_right hx (Nat.two_pow_pos i)
    _ = 2 ^ (j + i) := (Nat.pow_add 2 j i).symm
    _ ≤ 2 ^ 32 := Nat.pow_le_pow_right (by decide) hij
  rw [UInt32.toNat_shiftLeft, hi', Nat.shiftLeft_eq]
  exact Nat.mod_eq_of_lt hlt

/-- A pattern is its exponent field and its fraction. -/
theorem unsigned_fields (p w n : Nat) : unsigned p w n = n / 2 ^ p % 2 ^ w * 2 ^ p + n % 2 ^ p := by
  have hmod : n % 2 ^ (p + w) = n % 2 ^ p + 2 ^ p * (n / 2 ^ p % 2 ^ w) := by rw [Nat.pow_add, Nat.mod_mul]
  rw [unsigned, hmod, Nat.mul_comm, Nat.add_comm]

theorem negative_le_one (hn : n < 2 ^ (a + b + 1)) : negative a b n ≤ 1 := by
  have : negative a b n < 2 := Nat.div_lt_of_lt_mul (by rwa [Nat.pow_succ] at hn)
  omega

end

section
variable (b : UInt32) (h : UInt16)

theorem negative_single : negative 23 8 b.toNat ≤ 1 := negative_le_one b.toNat_lt

theorem negative_half : negative 10 5 h.toNat ≤ 1 := negative_le_one h.toNat_lt

theorem toNat_signSingle : ((b >>> 16) &&& 0x8000).toNat = negative 23 8 b.toNat * 2 ^ 15 := by
  rw [UInt32.toNat_and, UInt32.toNat_shiftRight]
  show (b.toNat >>> 16) &&& 2 ^ 15 = _
  rw [and_bit_eq, Nat.shiftRight_eq_div_pow, Nat.div_div_eq_div_mul, ← Nat.pow_add]
  congr 1
  exact Nat.mod_eq_of_lt (Nat.lt_succ_of_le (negative_single b))

theorem toNat_expSingle : ((b >>> 23) &&& 0xff).toNat = b.toNat / 2 ^ 23 % 2 ^ 8 := by
  rw [UInt32.toNat_and, UInt32.toNat_shiftRight]
  show (b.toNat >>> 23) &&& (2 ^ 8 - 1) = _
  rw [Nat.and_two_pow_sub_one_eq_mod, Nat.shiftRight_eq_div_pow]

theorem toNat_mantSingle : (b &&& 0x7fffff).toNat = b.toNat % 2 ^ 23 := by
  rw [UInt32.toNat_and]
  exact Nat.and_two_pow_sub_one_eq_mod b.toNat 23

theorem toNat_signHalf : ((h &&& 0x8000).toUInt32 <<< 16).toNat = negative 10 5 h.toNat * 2 ^ 31 := by
  rw [UInt32.toNat_shiftLeft, UInt16.toNat_toUInt32, UInt16.toNat_and]
  show ((h.toNat &&& 2 ^ 15) <<< 16) % 2 ^ 32 = _
  have hsign : h.toNat / 2 ^ 15 % 2 = negative 10 5 h.toNat := Nat.mod_eq_of_lt (Nat.lt_succ_of_le (negative_half h))
  have := negative_half h
  rw [and_bit_eq, hsign, Nat.shiftLeft_eq]
  omega

theorem toNat_expHalf : ((h >>> 10) &&& 0x1f).toNat = h.toNat / 2 ^ 10 % 2 ^ 5 := by
  rw [UInt16.toNat_and, UInt16.toNat_shiftRight]
  show (h.toNat >>> 10) &&& (2 ^ 5 - 1) = _
  rw [Nat.and_two_pow_sub_one_eq_mod, Nat.shiftRight_eq_div_pow]

theorem toNat_mantHalf : (h &&& 0x03ff).toUInt32.toNat = h.toNat % 2 ^ 10 := by
  rw [UInt16.toNat_toUInt32, UInt16.toNat_and]
  exact Nat.and_two_pow_sub_one_eq_mod h.toNat 10

end

/-! ## The rounding to a half -/

/-- The remainder `rem` of a pattern `r` is above one half, or at one half with an odd pattern. -/
def RoundsUp (rem half r : Nat) : Prop := half < rem ∨ rem = half ∧ ¬Even r

instance (rem half r : Nat) : Decidable (RoundsUp rem half r) := inferInstanceAs (Decidable (_ ∨ _))

/-- The highest bit of the remainder, and whether a lower one is set, decide. -/
theorem roundsUp_bits {low half bit r : Nat} (hlow : low < half) (hbit : bit = 0 ∨ bit = 1) :
    RoundsUp (low + half * bit) half r ↔ bit ≠ 0 ∧ (low ≠ 0 ∨ ¬Even r) := by
  rw [RoundsUp]
  cases hbit with
  | inl hbit =>
    subst hbit
    omega
  | inr hbit =>
    subst hbit
    by_cases heven : Even r
    · simp only [heven, not_true, and_false, or_false]
      omega
    · simp only [heven, not_false_iff, and_true, or_true]
      omega

/-- The pattern without its sign for the exponent field `e` and the fraction `m` of a single. -/
def halfPattern (e m : Nat) : Nat :=
  if e < 102 then 0
  else if e < 113 then
    let r := (2 ^ 23 + m) / 2 ^ (126 - e)
    if RoundsUp ((2 ^ 23 + m) % 2 ^ (126 - e)) (2 ^ (125 - e)) r then r + 1 else r
  else if e < 143 then
    let r := (e - 112) * 2 ^ 10 + m / 2 ^ 13
    if RoundsUp (m % 2 ^ 13) (2 ^ 12) r then r + 1 else r
  else if e = 255 ∧ m ≠ 0 then 0x7e00
  else 0x7c00

theorem ne_zero_iff_toNat (x : UInt32) : x ≠ 0 ↔ x.toNat ≠ 0 := not_congr UInt32.toNat_inj.symm

theorem and_one_ne_zero_iff (x : UInt32) : x &&& 1 ≠ 0 ↔ ¬Even x.toNat := by
  have hone : (x &&& 1).toNat = x.toNat % 2 := by
    rw [UInt32.toNat_and]
    exact and_one_eq _
  rw [ne_zero_iff_toNat, hone, Nat.even_iff]

section
variable {mant shift : UInt32}

theorem subnormalHalf_eq (h0 : 0 < shift.toNat) (h32 : shift.toNat < 32) :
    (subnormalHalf mant shift).toNat =
      if RoundsUp (mant.toNat % 2 ^ shift.toNat) (2 ^ (shift.toNat - 1)) (mant.toNat / 2 ^ shift.toNat) then
        mant.toNat / 2 ^ shift.toNat + 1
      else mant.toNat / 2 ^ shift.toNat := by
  have hshift : (shift - 1).toNat = shift.toNat - 1 := UInt32.toNat_sub_of_le _ _ (UInt32.le_iff_toNat_le.mpr h0)
  have hq : (mant >>> shift).toNat = mant.toNat / 2 ^ shift.toNat := by
    rw [UInt32.toNat_shiftRight, Nat.mod_eq_of_lt h32, Nat.shiftRight_eq_div_pow]
  have hbit : ((mant >>> (shift - 1)) &&& 1).toNat = mant.toNat / 2 ^ (shift.toNat - 1) % 2 := by
    rw [UInt32.toNat_and, UInt32.toNat_shiftRight, hshift, Nat.mod_eq_of_lt (by omega), Nat.shiftRight_eq_div_pow]
    exact and_one_eq _
  have hsticky : (mant &&& ((1 <<< (shift - 1)) - 1)).toNat = mant.toNat % 2 ^ (shift.toNat - 1) := by
    have hlt : 2 ^ (shift.toNat - 1) < 2 ^ 32 := Nat.pow_lt_pow_right (by decide) (by omega)
    have hone : ((1 : UInt32) <<< (shift - 1)).toNat = 2 ^ (shift.toNat - 1) := by
      have hk : (shift.toNat - 1) % 32 = shift.toNat - 1 := Nat.mod_eq_of_lt (by omega)
      rw [UInt32.toNat_shiftLeft, hshift, hk, Nat.shiftLeft_eq]
      show 1 * 2 ^ (shift.toNat - 1) % 2 ^ 32 = _
      rw [Nat.one_mul, Nat.mod_eq_of_lt hlt]
    have hpos : (1 : UInt32) ≤ 1 <<< (shift - 1) := UInt32.le_iff_toNat_le.mpr (by rw [hone]; exact Nat.two_pow_pos _)
    rw [UInt32.toNat_and, UInt32.toNat_sub_of_le _ _ hpos, hone]
    exact Nat.and_two_pow_sub_one_eq_mod _ _
  have hrem : mant.toNat % 2 ^ shift.toNat =
      mant.toNat % 2 ^ (shift.toNat - 1) + 2 ^ (shift.toNat - 1) * (mant.toNat / 2 ^ (shift.toNat - 1) % 2) := by
    conv_lhs => rw [← Nat.sub_add_cancel h0]
    exact Nat.mod_pow_succ
  have hup : ((mant >>> (shift - 1)) &&& 1 ≠ 0 ∧ (mant &&& ((1 <<< (shift - 1)) - 1) ≠ 0 ∨ mant >>> shift &&& 1 ≠ 0)) ↔
      RoundsUp (mant.toNat % 2 ^ shift.toNat) (2 ^ (shift.toNat - 1)) (mant.toNat / 2 ^ shift.toNat) := by
    rw [ne_zero_iff_toNat, hbit, ne_zero_iff_toNat, hsticky, and_one_ne_zero_iff, hq, hrem]
    exact (roundsUp_bits (Nat.mod_lt _ (Nat.two_pow_pos _)) (Nat.mod_two_eq_zero_or_one _)).symm
  have hsmall : mant.toNat / 2 ^ shift.toNat < 2 ^ 31 := by
    refine Nat.div_lt_of_lt_mul ?_
    have hle : 2 ^ 1 ≤ 2 ^ shift.toNat := Nat.pow_le_pow_right (by decide) h0
    have := mant.toNat_lt
    omega
  rw [subnormalHalf]
  by_cases h : (mant >>> (shift - 1)) &&& 1 ≠ 0 ∧ (mant &&& ((1 <<< (shift - 1)) - 1) ≠ 0 ∨ mant >>> shift &&& 1 ≠ 0)
  · rw [if_pos h, if_pos (hup.mp h), UInt32.toNat_add, hq]
    exact Nat.mod_eq_of_lt (by show mant.toNat / 2 ^ shift.toNat + 1 < _; omega)
  · rw [if_neg h, if_neg (fun hu => h (hup.mpr hu)), hq]

end

section
variable {sign x y : UInt32} {s : Nat}

theorem toNat_withSign (hs : sign.toNat = s * 2 ^ 15) (hs1 : s ≤ 1) (hx : x.toNat < 2 ^ 15) :
    (sign ||| x).toUInt16.toNat = s * 2 ^ 15 + x.toNat := by
  rw [UInt32.toNat_toUInt16, UInt32.toNat_or, hs, or_eq_add hx]
  exact Nat.mod_eq_of_lt (by omega)

/-- The three fields of a half. -/
theorem toNat_fields (hs : sign.toNat = s * 2 ^ 15) {e : Nat} (he : e < 2 ^ 5) (hy : y.toNat < 2 ^ 10) :
    (sign ||| (UInt32.ofNat e <<< 10) ||| y).toNat = s * 2 ^ 15 + (e * 2 ^ 10 + y.toNat) := by
  have hofNat : (UInt32.ofNat e).toNat = e := UInt32.toNat_ofNat_of_lt' (he.trans (by decide))
  have hshl : (UInt32.ofNat e <<< 10).toNat = e * 2 ^ 10 := by
    rw [← hofNat] at he
    exact (@toNat_shiftLeft _ 10 5 (by decide) he (by decide)).trans (by rw [hofNat])
  have hfield : e * 2 ^ 10 < 2 ^ 15 := Nat.mul_lt_mul_of_pos_right he (Nat.two_pow_pos 10)
  rw [UInt32.toNat_or, UInt32.toNat_or, hs, hshl, or_eq_add hfield]
  have hpack : s * 2 ^ 15 + e * 2 ^ 10 = (s * 2 ^ 5 + e) * 2 ^ 10 := by ring
  rw [hpack, or_eq_add hy]
  ring

end

section
variable {e m : Nat}

theorem halfPattern_subnormal (h102 : 102 ≤ e) (h113 : e < 113) :
    halfPattern e m =
      if RoundsUp ((2 ^ 23 + m) % 2 ^ (126 - e)) (2 ^ (125 - e)) ((2 ^ 23 + m) / 2 ^ (126 - e)) then
        (2 ^ 23 + m) / 2 ^ (126 - e) + 1
      else (2 ^ 23 + m) / 2 ^ (126 - e) := by
  rw [halfPattern, if_neg (Nat.not_lt.mpr h102), if_pos h113]

theorem halfPattern_normal (h113 : 113 ≤ e) (h143 : e < 143) :
    halfPattern e m =
      if RoundsUp (m % 2 ^ 13) (2 ^ 12) ((e - 112) * 2 ^ 10 + m / 2 ^ 13) then (e - 112) * 2 ^ 10 + m / 2 ^ 13 + 1
      else (e - 112) * 2 ^ 10 + m / 2 ^ 13 := by
  rw [halfPattern, if_neg (by omega), if_neg (Nat.not_lt.mpr h113), if_pos h143]

theorem halfPattern_high (h143 : 143 ≤ e) : halfPattern e m = if e = 255 ∧ m ≠ 0 then 0x7e00 else 0x7c00 := by
  rw [halfPattern, if_neg (by omega), if_neg (by omega), if_neg (Nat.not_lt.mpr h143)]

theorem halfPattern_lt (hm : m < 2 ^ 23) : halfPattern e m < 2 ^ 15 := by
  by_cases h102 : e < 102
  · rw [halfPattern, if_pos h102]
    decide
  · by_cases h113 : e < 113
    · have hquot : (2 ^ 23 + m) / 2 ^ (126 - e) < 2 ^ 10 := by
        refine Nat.div_lt_of_lt_mul ?_
        have : 2 ^ 14 ≤ 2 ^ (126 - e) := Nat.pow_le_pow_right (by decide) (by omega)
        omega
      rw [halfPattern_subnormal (by omega) h113]
      split <;> omega
    · by_cases h143 : e < 143
      · rw [halfPattern_normal (by omega) h143]
        split <;> omega
      · rw [halfPattern_high (by omega)]
        split <;> decide

end

/-! ### The branches -/

section
variable {sign exp mant : UInt32} {s : Nat}

theorem toNat_subnormal (hs : sign.toNat = s * 2 ^ 15) (hs1 : s ≤ 1) (hm : mant.toNat < 2 ^ 23) (h102 : 102 ≤ exp.toNat)
    (h113 : exp.toNat < 113) :
    (sign ||| subnormalHalf (mant ||| 0x800000) (UInt32.ofNat (14 - ((exp.toNat : Int) - 127 + 15)).toNat)).toUInt16.toNat =
      s * 2 ^ 15 + halfPattern exp.toNat mant.toNat := by
  have hsh : (14 - ((exp.toNat : Int) - 127 + 15)).toNat = 126 - exp.toNat := by omega
  have hshift : (UInt32.ofNat (126 - exp.toNat)).toNat = 126 - exp.toNat :=
    UInt32.toNat_ofNat_of_lt' (by show _ < 2 ^ 32; omega)
  have hlead : (mant ||| 0x800000).toNat = 2 ^ 23 + mant.toNat := by
    rw [UInt32.or_comm, UInt32.toNat_or]
    exact @or_eq_add 1 _ _ hm
  have hhalf : 126 - exp.toNat - 1 = 125 - exp.toNat := by omega
  have hround : (subnormalHalf (mant ||| 0x800000) (UInt32.ofNat (126 - exp.toNat))).toNat =
      halfPattern exp.toNat mant.toNat := by
    rw [subnormalHalf_eq (by omega) (by omega), hshift, hlead, hhalf, halfPattern_subnormal h102 h113]
  rw [hsh, toNat_withSign hs hs1 (by rw [hround]; exact halfPattern_lt hm), hround]

theorem toNat_normal (hs : sign.toNat = s * 2 ^ 15) (hs1 : s ≤ 1) (hm : mant.toNat < 2 ^ 23) (h113 : 113 ≤ exp.toNat)
    (h143 : exp.toNat < 143) {half : UInt32}
    (hhalf : half = sign ||| (UInt32.ofNat ((exp.toNat : Int) - 127 + 15).toNat <<< 10) ||| (mant >>> 13)) :
    (if 0x1000 < mant &&& 0x1fff ∨ (mant &&& 0x1fff = 0x1000 ∧ half &&& 1 ≠ 0) then (half + 1).toUInt16
      else half.toUInt16).toNat = s * 2 ^ 15 + halfPattern exp.toNat mant.toNat := by
  have hexp : ((exp.toNat : Int) - 127 + 15).toNat = exp.toNat - 112 := by omega
  have hfrac : (mant >>> 13).toNat = mant.toNat / 2 ^ 13 := by
    rw [UInt32.toNat_shiftRight]
    exact Nat.shiftRight_eq_div_pow _ _
  have hrest : (mant &&& 0x1fff).toNat = mant.toNat % 2 ^ 13 := by
    rw [UInt32.toNat_and]
    exact Nat.and_two_pow_sub_one_eq_mod _ 13
  have hpattern : half.toNat = s * 2 ^ 15 + ((exp.toNat - 112) * 2 ^ 10 + mant.toNat / 2 ^ 13) := by
    rw [hhalf, hexp, ← hfrac]
    exact toNat_fields hs (by omega) (by rw [hfrac]; omega)
  have heven : Even half.toNat ↔ Even ((exp.toNat - 112) * 2 ^ 10 + mant.toNat / 2 ^ 13) := by
    rw [Nat.even_iff, Nat.even_iff]
    omega
  have hup : (0x1000 < mant &&& 0x1fff ∨ (mant &&& 0x1fff = 0x1000 ∧ half &&& 1 ≠ 0)) ↔
      RoundsUp (mant.toNat % 2 ^ 13) (2 ^ 12) ((exp.toNat - 112) * 2 ^ 10 + mant.toNat / 2 ^ 13) := by
    rw [and_one_ne_zero_iff, heven, UInt32.lt_iff_toNat_lt, ← UInt32.toNat_inj, hrest]
    rfl
  rw [halfPattern_normal h113 h143]
  by_cases h : 0x1000 < mant &&& 0x1fff ∨ (mant &&& 0x1fff = 0x1000 ∧ half &&& 1 ≠ 0)
  · rw [if_pos h, if_pos (hup.mp h), UInt32.toNat_toUInt16, UInt32.toNat_add, hpattern]
    show (_ + 1) % 2 ^ 32 % 2 ^ 16 = _
    omega
  · rw [if_neg h, if_neg (fun hu => h (hup.mpr hu)), UInt32.toNat_toUInt16, hpattern]
    exact Nat.mod_eq_of_lt (by omega)

theorem toNat_high (hs : sign.toNat = s * 2 ^ 15) (hs1 : s ≤ 1) (h143 : 143 ≤ exp.toNat) :
    (if exp = 0xff ∧ mant ≠ 0 then (sign ||| 0x7e00).toUInt16 else (sign ||| 0x7c00).toUInt16).toNat =
      s * 2 ^ 15 + halfPattern exp.toNat mant.toNat := by
  have hnan : (exp = 0xff ∧ mant ≠ 0) ↔ (exp.toNat = 255 ∧ mant.toNat ≠ 0) :=
    and_congr UInt32.toNat_inj.symm (ne_zero_iff_toNat mant)
  rw [halfPattern_high h143]
  by_cases h : exp = 0xff ∧ mant ≠ 0
  · rw [if_pos h, if_pos (hnan.mp h)]
    exact toNat_withSign hs hs1 (by decide)
  · rw [if_neg h, if_neg (fun hn => h (hnan.mpr hn))]
    exact toNat_withSign hs hs1 (by decide)

end

/-- The conversion on the fields. -/
theorem toNat_distF32ToF16 (b : UInt32) :
    (distF32ToF16 b).toNat = negative 23 8 b.toNat * 2 ^ 15 + halfPattern (b.toNat / 2 ^ 23 % 2 ^ 8) (b.toNat % 2 ^ 23) := by
  have hs := toNat_signSingle b
  have hs1 := negative_single b
  have hm : (b &&& 0x7fffff).toNat < 2 ^ 23 := by
    rw [toNat_mantSingle]
    exact Nat.mod_lt _ (by decide)
  rw [distF32ToF16, ← toNat_expSingle, ← toNat_mantSingle]
  by_cases hsub : ((b >>> 23) &&& 0xff).toNat < 113
  · rw [if_pos (by omega)]
    by_cases hzero : ((b >>> 23) &&& 0xff).toNat < 102
    · rw [if_pos (by omega), halfPattern, if_pos hzero, UInt32.toNat_toUInt16, hs, Nat.add_zero]
      exact Nat.mod_eq_of_lt (by omega)
    · rw [if_neg (by omega)]
      exact toNat_subnormal hs hs1 hm (by omega) hsub
  · rw [if_neg (by omega)]
    by_cases hhigh : 143 ≤ ((b >>> 23) &&& 0xff).toNat
    · rw [if_pos (by omega)]
      exact toNat_high hs hs1 hhigh
    · rw [if_neg (by omega)]
      exact toNat_normal hs hs1 hm (by omega) (by omega) rfl

/-! ### The nearest half -/

/-- The values of the halves in the least unit of a single. -/
def halfGrid (n : Nat) : ℚ := mag 10 n * 2 ^ 125

theorem halfGrid_strictMono : StrictMono halfGrid := fun a b hab => by
  have : (mag 10 a : ℚ) < mag 10 b := by exact_mod_cast mag_strictMono 10 hab
  exact mul_lt_mul_of_pos_right this (by positivity)

section
variable {e m : Nat}

theorem mag_single (hm : m < 2 ^ 23) (he : 0 < e) : mag 23 (e * 2 ^ 23 + m) = (2 ^ 23 + m) * 2 ^ (e - 1) := by
  obtain ⟨k, rfl⟩ := Nat.exists_eq_succ_of_ne_zero he.ne'
  exact mag_normal hm.le

theorem mag_single_lt (hm : m < 2 ^ 23) (he : e < 102) : mag 23 (e * 2 ^ 23 + m) < 2 ^ 124 := by
  have hpat : e * 2 ^ 23 + m < 101 * 2 ^ 23 + 2 ^ 23 := by omega
  calc mag 23 (e * 2 ^ 23 + m) < mag 23 (101 * 2 ^ 23 + 2 ^ 23) := mag_strictMono 23 hpat
    _ = 2 ^ 124 := by
      rw [@mag_normal 23 100 (2 ^ 23) le_rfl]
      norm_num

theorem roundsEven_halfPattern (hm : m < 2 ^ 23) (he : e < 143) :
    RoundsEven halfGrid (mag 23 (e * 2 ^ 23 + m)) (halfPattern e m) := by
  by_cases h102 : e < 102
  · have hlt : (mag 23 (e * 2 ^ 23 + m) : ℚ) < 2 ^ 124 := by exact_mod_cast mag_single_lt hm h102
    have hzero : halfGrid 0 = 0 := by simp [halfGrid, mag]
    have hone : halfGrid (0 + 1) = 2 ^ 125 := by simp [halfGrid, mag]
    rw [halfPattern, if_pos h102]
    refine ⟨⟨fun q hq => absurd hq (by omega), ?_⟩, fun q hq => absurd hq (by omega), fun _ => Even.zero⟩
    rw [hzero, hone]
    linarith
  · by_cases h113 : e < 113
    · rw [halfPattern_subnormal (by omega) h113, mag_single hm (by omega)]
      have hquot : (2 ^ 23 + m) / 2 ^ (126 - e) < 2 ^ 10 := by
        refine Nat.div_lt_of_lt_mul ?_
        have : 2 ^ 14 ≤ 2 ^ (126 - e) := Nat.pow_le_pow_right (by decide) (by omega)
        omega
      have hhalf : 2 * 2 ^ (125 - e) = 2 ^ (126 - e) := by
        rw [← Nat.pow_succ']
        congr 1
        omega
      have hunit : (2 : ℚ) * 2 ^ (125 - e) * 2 ^ (e - 1) = 2 ^ 125 := by
        rw [← pow_succ', ← pow_add]
        congr 1
        omega
      have hdiv := Nat.div_add_mod (2 ^ 23 + m) (2 ^ (126 - e))
      have hlt := Nat.mod_lt (2 ^ 23 + m) (Nat.two_pow_pos (126 - e))
      generalize (2 ^ 23 + m) / 2 ^ (126 - e) = t at hdiv hquot ⊢
      generalize (2 ^ 23 + m) % 2 ^ (126 - e) = rem at hdiv hlt ⊢
      rw [← hdiv, ← hhalf] at *
      refine roundsEven_of_rem halfGrid_strictMono (w := 2 ^ (e - 1)) (t := t) (by positivity) hlt ?_ ?_ ?_ Iff.rfl
      · push_cast
        ring
      · rw [halfGrid, mag_small hquot.le]
        push_cast
        rw [← hunit]
        ring
      · rw [halfGrid, mag_small hquot]
        push_cast
        rw [← hunit]
        ring
    · rw [halfPattern_normal (by omega) he, mag_single hm (by omega)]
      have hunit : (2 : ℚ) ^ (e - 113) * 2 ^ 125 = 2 * 2 ^ 12 * 2 ^ (e - 1) := by
        rw [← pow_succ', ← pow_add, ← pow_add]
        congr 1
        omega
      have hdiv := Nat.div_add_mod m (2 ^ 13)
      have hlt := Nat.mod_lt m (Nat.two_pow_pos 13)
      have hpat : (e - 112) * 2 ^ 10 = (e - 113 + 1) * 2 ^ 10 := by
        congr 1
        omega
      have hquot : m / 2 ^ 13 < 2 ^ 10 := by omega
      rw [hpat]
      generalize m / 2 ^ 13 = t at *
      generalize m % 2 ^ 13 = rem at *
      subst hdiv
      refine roundsEven_of_rem halfGrid_strictMono (w := 2 ^ (e - 1)) (t := 2 ^ 10 + t) (by positivity) hlt ?_ ?_ ?_ Iff.rfl
      · push_cast
        ring
      · rw [halfGrid, mag_normal hquot.le]
        push_cast
        rw [mul_assoc, hunit]
        ring
      · rw [halfGrid, Nat.add_assoc, mag_normal hquot]
        push_cast
        rw [mul_assoc, hunit]
        ring

end

/-! ### The conversion on the patterns without their signs -/

def toHalf (u : Nat) : Nat := halfPattern (u / 2 ^ 23) (u % 2 ^ 23)

section
variable {u u' : Nat}

theorem toHalf_rounds (hu : u < 143 * 2 ^ 23) : RoundsEven halfGrid (mag 23 u) (toHalf u) := by
  have hround := roundsEven_halfPattern (Nat.mod_lt u (Nat.two_pow_pos 23)) (Nat.div_lt_of_lt_mul (by omega) : u / 2 ^ 23 < 143)
  rwa [Nat.div_add_mod' u (2 ^ 23)] at hround

theorem toHalf_high (h143 : 143 * 2 ^ 23 ≤ u) (hnan : u ≤ 255 * 2 ^ 23) : toHalf u = 0x7c00 := by
  rw [toHalf, halfPattern_high (by omega), if_neg (by omega)]

theorem toHalf_nan (hnan : 255 * 2 ^ 23 < u) (hu : u < 2 ^ 31) : toHalf u = 0x7e00 := by
  rw [toHalf, halfPattern_high (by omega), if_pos (by omega)]

theorem toHalf_le (hnan : u ≤ 255 * 2 ^ 23) : toHalf u ≤ 0x7c00 := by
  by_cases hu : u < 143 * 2 ^ 23
  · refine (toHalf_rounds hu).mono (roundsEven_self halfGrid_strictMono 0x7c00) halfGrid_strictMono ?_
    have hlt : mag 23 u < mag 23 (143 * 2 ^ 23) := mag_strictMono 23 hu
    have hval : mag 23 (143 * 2 ^ 23) = mag 10 0x7c00 * 2 ^ 125 := by norm_num [mag]
    rw [hval] at hlt
    rw [halfGrid]
    exact_mod_cast hlt.le
  · exact (toHalf_high (Nat.le_of_not_lt hu) hnan).le

theorem toHalf_mono (hnan : u' ≤ 255 * 2 ^ 23) (h : u ≤ u') : toHalf u ≤ toHalf u' := by
  by_cases hu : u' < 143 * 2 ^ 23
  · refine (toHalf_rounds (by omega)).mono (toHalf_rounds hu) halfGrid_strictMono ?_
    exact_mod_cast (mag_strictMono 23).monotone h
  · rw [toHalf_high (Nat.le_of_not_lt hu) hnan]
    exact toHalf_le (by omega)

/-- Between the largest half and the next power of two the midpoint is 65520. -/
theorem toHalf_inf_iff (hnan : u ≤ 255 * 2 ^ 23) : toHalf u = 0x7c00 ↔ 65520 * 2 ^ 149 ≤ (mag 23 u : ℚ) := by
  have hmid : halfGrid 0x7bff + halfGrid (0x7bff + 1) = 2 * (65520 * 2 ^ 149) := by norm_num [halfGrid, mag]
  by_cases hu : u < 143 * 2 ^ 23
  · have habove := (toHalf_rounds hu).above_odd halfGrid_strictMono (show ¬Even 0x7bff by decide)
    have hle := toHalf_le hnan
    rw [hmid, mul_le_mul_iff_right₀ two_pos] at habove
    rw [← habove]
    omega
  · refine iff_of_true (toHalf_high (Nat.le_of_not_lt hu) hnan) ?_
    have hle : mag 23 (143 * 2 ^ 23) ≤ mag 23 u := (mag_strictMono 23).monotone (Nat.le_of_not_lt hu)
    have hval : 65520 * 2 ^ 149 ≤ mag 23 (143 * 2 ^ 23) := by norm_num [mag]
    exact_mod_cast hval.trans hle

end

section
variable (b : UInt32)

theorem unsigned_div : unsigned 23 8 b.toNat / 2 ^ 23 = b.toNat / 2 ^ 23 % 2 ^ 8 := by
  rw [unsigned_fields]
  have := Nat.mod_lt b.toNat (Nat.two_pow_pos 23)
  omega

theorem unsigned_mod : unsigned 23 8 b.toNat % 2 ^ 23 = b.toNat % 2 ^ 23 := Nat.mod_mod_of_dvd _ ⟨2 ^ 8, rfl⟩

theorem distF32ToF16_fields : (distF32ToF16 b).toNat = negative 23 8 b.toNat * 2 ^ 15 + toHalf (unsigned 23 8 b.toNat) := by
  rw [toNat_distF32ToF16, toHalf, unsigned_div, unsigned_mod]

theorem toHalf_lt : toHalf (unsigned 23 8 b.toNat) < 2 ^ 15 := halfPattern_lt (Nat.mod_lt _ (by decide))

theorem negative_distF32ToF16 : negative 10 5 (distF32ToF16 b).toNat = negative 23 8 b.toNat := by
  have := toHalf_lt b
  rw [negative, distF32ToF16_fields]
  omega

theorem unsigned_distF32ToF16 : unsigned 10 5 (distF32ToF16 b).toNat = toHalf (unsigned 23 8 b.toNat) := by
  have := toHalf_lt b
  rw [unsigned, distF32ToF16_fields]
  omega

end

/-! ### Values -/

/-- No half is nearer, and at a tie the last place is zero. -/
structure NearestHalf (b : UInt32) (h : UInt16) : Prop where
  finite : IsFinite 10 5 h.toNat
  nearest : ∀ q : UInt16, IsFinite 10 5 q.toNat →
    |value 23 8 b.toNat - value 10 5 h.toNat| ≤ |value 23 8 b.toNat - value 10 5 q.toNat|
  even : ∀ q : UInt16, IsFinite 10 5 q.toNat → value 10 5 h.toNat ≠ value 10 5 q.toNat →
    |value 23 8 b.toNat - value 10 5 h.toNat| = |value 23 8 b.toNat - value 10 5 q.toNat| → Even h.toNat

theorem value_half (n : Nat) : value 10 5 n = signOf 10 5 n * (halfGrid (unsigned 10 5 n) * (1 / 2 ^ 149)) := by
  have hunit : (1 : ℚ) / 2 ^ (10 + 2 ^ (5 - 1) - 2) = 2 ^ 125 * (1 / 2 ^ 149) := by norm_num
  rw [value, halfGrid, hunit, mul_assoc]

section
variable {p w n : Nat}

theorem abs_signOf : |signOf p w n| = 1 := by
  rw [signOf]
  split
  · exact abs_one
  · rw [abs_neg, abs_one]

theorem abs_value : |value p w n| = mag p (unsigned p w n) * (1 / 2 ^ (p + 2 ^ (w - 1) - 2)) := by
  rw [value, abs_mul, abs_signOf, one_mul]
  exact abs_of_nonneg (mul_nonneg (Nat.cast_nonneg _) (one_div_pos.mpr (pow_pos two_pos _)).le)

theorem signOf_or (p' w' n' : Nat) : signOf p' w' n' = signOf p w n ∨ signOf p' w' n' = -signOf p w n := by
  rw [signOf, signOf]
  split <;> split <;> simp

end

section
variable {a b : UInt32}

theorem isInf_distF32ToF16 (hfin : IsFinite 23 8 b.toNat) :
    IsInf 10 5 (distF32ToF16 b).toNat ↔ 65520 ≤ |value 23 8 b.toNat| := by
  have hunit : (65520 : ℚ) * 2 ^ 149 * (1 / 2 ^ 149) = 65520 := by norm_num
  have hpos : (0 : ℚ) < 1 / 2 ^ 149 := by positivity
  rw [IsInf, unsigned_distF32ToF16, abs_value, ← hunit]
  exact (toHalf_inf_iff (Nat.le_of_lt hfin)).trans (mul_le_mul_iff_left₀ hpos).symm

theorem nearestHalf_distF32ToF16 (hfin : IsFinite 23 8 b.toNat) (hsmall : |value 23 8 b.toNat| < 65520) :
    NearestHalf b (distF32ToF16 b) := by
  have hnotInf : ¬IsInf 10 5 (distF32ToF16 b).toNat := fun hinf =>
    absurd ((isInf_distF32ToF16 hfin).mp hinf) (not_le_of_gt hsmall)
  have hle := toHalf_le (Nat.le_of_lt hfin)
  have hlt : unsigned 23 8 b.toNat < 143 * 2 ^ 23 := by
    by_contra hge
    exact hnotInf ((unsigned_distF32ToF16 b).trans (toHalf_high (Nat.le_of_not_lt hge) (Nat.le_of_lt hfin)))
  have hunit : (0 : ℚ) < 1 / 2 ^ 149 := by positivity
  have hround := (toHalf_rounds hlt).scale hunit
  have hmono : StrictMono fun n => halfGrid n * (1 / 2 ^ 149) := fun i j hij =>
    mul_lt_mul_of_pos_right (halfGrid_strictMono hij) hunit
  have hzero : halfGrid 0 * (1 / 2 ^ 149) = 0 := by simp [halfGrid, mag]
  have hsign : signOf 10 5 (distF32ToF16 b).toNat = signOf 23 8 b.toNat := by rw [signOf, signOf, negative_distF32ToF16]
  have hval : value 23 8 b.toNat = signOf 23 8 b.toNat * (mag 23 (unsigned 23 8 b.toNat) * (1 / 2 ^ 149)) := rfl
  have heven : Even (toHalf (unsigned 23 8 b.toNat)) → Even (distF32ToF16 b).toNat := fun h => by
    rw [distF32ToF16_fields]
    exact ((Nat.even_pow.mpr ⟨even_two, by decide⟩).mul_left _).add h
  refine ⟨?_, fun q _ => ?_, fun q _ hne htie => heven ?_⟩
  · rw [IsInf, unsigned_distF32ToF16] at hnotInf
    rw [IsFinite, unsigned_distF32ToF16]
    exact lt_of_le_of_ne hle hnotInf
  · rw [hval, value_half, value_half, hsign, unsigned_distF32ToF16]
    exact hround.nearest_signed hmono hzero (by positivity) abs_signOf (signOf_or 10 5 q.toNat) _
  · rw [hval, value_half, value_half, hsign, unsigned_distF32ToF16] at htie
    rw [value_half, value_half, hsign, unsigned_distF32ToF16] at hne
    exact hround.even_of_tie_signed hmono hzero (by positivity) abs_signOf (signOf_or 10 5 q.toNat) htie hne

theorem atMost_distF32ToF16 (ha : ¬IsNan 23 8 a.toNat) (hb : ¬IsNan 23 8 b.toNat) (hab : AtMost 23 8 a.toNat b.toNat) :
    AtMost 10 5 (distF32ToF16 a).toNat (distF32ToF16 b).toNat := by
  have ha' := Nat.le_of_not_lt ha
  have hb' := Nat.le_of_not_lt hb
  have hna : ¬IsNan 10 5 (distF32ToF16 a).toNat := by
    rw [IsNan, unsigned_distF32ToF16]
    exact Nat.not_lt.mpr (toHalf_le ha')
  have hnb : ¬IsNan 10 5 (distF32ToF16 b).toNat := by
    rw [IsNan, unsigned_distF32ToF16]
    exact Nat.not_lt.mpr (toHalf_le hb')
  rw [atMost_iff (by decide) ha hb, key, key] at hab
  rw [atMost_iff (by decide) hna hnb, key, key, negative_distF32ToF16, negative_distF32ToF16, unsigned_distF32ToF16,
    unsigned_distF32ToF16]
  have hzero : toHalf 0 = 0 := rfl
  split_ifs at hab ⊢ with hsa hsb hsb
  · exact_mod_cast toHalf_mono hb' (by exact_mod_cast hab)
  · -- both are zero
    have hua : unsigned 23 8 a.toNat = 0 := by omega
    have hub : unsigned 23 8 b.toNat = 0 := by omega
    rw [hua, hub, hzero]
    exact le_rfl
  · omega
  · exact neg_le_neg (by exact_mod_cast toHalf_mono ha' (by omega))

theorem isInf_of_isInf (hinf : IsInf 23 8 b.toNat) : IsInf 10 5 (distF32ToF16 b).toNat := by
  rw [IsInf, unsigned_distF32ToF16, hinf]
  rfl

theorem isNan_of_isNan (hnan : IsNan 23 8 b.toNat) : IsNan 10 5 (distF32ToF16 b).toNat := by
  rw [IsNan, unsigned_distF32ToF16, toHalf_nan hnan (Nat.mod_lt _ (by decide))]
  decide

end

end Ds4.Dist
