import Mathlib.Data.Nat.Log
import Ds4.Dist.Round16

/-!
# Sixteen bits and back

`dist_f16_to_f32` gives the single of the same value, so `dist_f32_to_f16` finds the half again.
-/

namespace Ds4.Dist
open BinaryFormat

/-! ## The fields of a half -/

/-- The shifts stop at the first fraction with the leading bit. -/
theorem normalizeHalf_spec {k n : Nat} {exp : Int} {mant : UInt32} (hk : k ≤ n) (hlow : 2 ^ 10 ≤ mant.toNat * 2 ^ k)
    (hhigh : mant.toNat * 2 ^ k < 2 ^ 11) :
    (normalizeHalf n exp mant).1 = exp - k ∧ (normalizeHalf n exp mant).2.toNat = mant.toNat * 2 ^ k := by
  induction k generalizing n exp mant with
  | zero =>
    rw [Nat.pow_zero, Nat.mul_one] at *
    have hbit : (mant &&& 0x0400).toNat = 2 ^ 10 := by
      have hdiv : mant.toNat / 2 ^ 10 % 2 = 1 := by omega
      rw [UInt32.toNat_and]
      show mant.toNat &&& 2 ^ 10 = _
      rw [and_bit_eq, hdiv, Nat.one_mul]
    have hset : ¬mant &&& 0x0400 = 0 := fun h => absurd (h ▸ hbit) (by decide)
    cases n with
    | zero => exact ⟨(sub_zero exp).symm, rfl⟩
    | succ n =>
      rw [normalizeHalf, if_neg hset]
      exact ⟨(sub_zero exp).symm, rfl⟩
  | succ k ih =>
    obtain ⟨n, rfl⟩ := Nat.exists_eq_succ_of_ne_zero (Nat.ne_zero_of_lt hk)
    have hpow : mant.toNat * 2 ^ (k + 1) = mant.toNat * 2 * 2 ^ k := by rw [Nat.pow_succ']; exact (Nat.mul_assoc _ _ _).symm
    have hsmall : mant.toNat < 2 ^ 10 := by
      have : 2 ^ 1 ≤ 2 ^ (k + 1) := Nat.pow_le_pow_right (by decide) (by omega)
      have := Nat.mul_le_mul_left mant.toNat this
      omega
    have hclear : mant &&& 0x0400 = 0 := by
      rw [← UInt32.toNat_inj, UInt32.toNat_and]
      show mant.toNat &&& 2 ^ 10 = 0
      rw [and_bit_eq, Nat.div_eq_of_lt hsmall, Nat.zero_mod, Nat.zero_mul]
    have hshl : (mant <<< 1).toNat = mant.toNat * 2 := @toNat_shiftLeft _ 1 10 (by decide) hsmall (by decide)
    rw [hpow, ← hshl] at hlow hhigh ⊢
    obtain ⟨hexp, hmant⟩ := @ih n (exp - 1) (mant <<< 1) (by omega) hlow hhigh
    rw [normalizeHalf, if_pos hclear]
    exact ⟨by rw [hexp]; push_cast; ring, hmant⟩

theorem toNat_packSingle {sign mant : UInt32} {exp : Int} {s e : Nat} (hs : sign.toNat = s * 2 ^ 31) (he : exp + 127 - 15 = e)
    (he8 : e < 2 ^ 8) (hm : mant.toNat < 2 ^ 10) :
    (packSingle sign exp mant).toNat = s * 2 ^ 31 + (e * 2 ^ 23 + mant.toNat * 2 ^ 13) := by
  have hofNat : (UInt32.ofNat e).toNat = e := UInt32.toNat_ofNat_of_lt' (he8.trans (by decide))
  have hexp : (UInt32.ofNat e <<< 23).toNat = e * 2 ^ 23 := by
    rw [← hofNat] at he8
    exact (@toNat_shiftLeft _ 23 8 (by decide) he8 (by decide)).trans (by rw [hofNat])
  have hmant : (mant <<< 13).toNat = mant.toNat * 2 ^ 13 := @toNat_shiftLeft _ 13 10 (by decide) hm (by decide)
  have hexp31 : e * 2 ^ 23 < 2 ^ 31 := Nat.mul_lt_mul_of_pos_right he8 (Nat.two_pow_pos 23)
  have hmant23 : mant.toNat * 2 ^ 13 < 2 ^ 23 := Nat.mul_lt_mul_of_pos_right hm (Nat.two_pow_pos 13)
  have hpack : s * 2 ^ 31 + e * 2 ^ 23 = (s * 2 ^ 8 + e) * 2 ^ 23 := by ring
  rw [packSingle, he, Int.toNat_natCast, UInt32.toNat_or, UInt32.toNat_or, hs, hexp, hmant, or_eq_add hexp31, hpack,
    or_eq_add hmant23]
  ring

/-! ## The pattern without its sign -/

/-- The single for the pattern `v` of a half. -/
def toSingle (v : Nat) : Nat :=
  let e := v / 2 ^ 10
  let m := v % 2 ^ 10
  if e = 0 then
    if m = 0 then 0 else (103 + Nat.log 2 m) * 2 ^ 23 + (m * 2 ^ (10 - Nat.log 2 m) - 2 ^ 10) * 2 ^ 13
  else if e = 31 then 255 * 2 ^ 23 + m * 2 ^ 13
  else (e + 112) * 2 ^ 23 + m * 2 ^ 13

section
variable {m v : Nat}

theorem log_lt_ten (hm : m < 2 ^ 10) (h0 : m ≠ 0) : Nat.log 2 m < 10 := Nat.log_lt_of_lt_pow h0 hm

/-- Shifting by the leading zeros gives the leading bit. -/
theorem normal_bounds (hm : m < 2 ^ 10) (h0 : m ≠ 0) :
    2 ^ 10 ≤ m * 2 ^ (10 - Nat.log 2 m) ∧ m * 2 ^ (10 - Nat.log 2 m) < 2 ^ 11 := by
  have hlog := log_lt_ten hm h0
  have hlow := Nat.pow_log_le_self 2 h0
  have hhigh := Nat.lt_pow_succ_log_self (by decide : 1 < 2) m
  have hpow : 2 ^ Nat.log 2 m * 2 ^ (10 - Nat.log 2 m) = 2 ^ 10 := by
    rw [← Nat.pow_add]
    congr 1
    omega
  constructor
  · rw [← hpow]
    exact Nat.mul_le_mul_right _ hlow
  · calc m * 2 ^ (10 - Nat.log 2 m) < 2 ^ (Nat.log 2 m + 1) * 2 ^ (10 - Nat.log 2 m) :=
          Nat.mul_lt_mul_of_pos_right hhigh (Nat.two_pow_pos _)
      _ = 2 ^ Nat.log 2 m * 2 ^ (10 - Nat.log 2 m) * 2 := by ring
      _ = 2 ^ 11 := by rw [hpow]; rfl

theorem normal_fraction {x : Nat} (hlow : 2 ^ 10 ≤ x) (hhigh : x < 2 ^ 11) :
    (x - 2 ^ 10) * 2 ^ 13 < 2 ^ 23 ∧ 2 ^ 23 + (x - 2 ^ 10) * 2 ^ 13 = x * 2 ^ 13 := by
  omega

theorem toSingle_mag (hv : v < 31 * 2 ^ 10) :
    toSingle v < 143 * 2 ^ 23 ∧ mag 23 (toSingle v) = mag 10 v * 2 ^ 125 := by
  have hm := Nat.mod_lt v (Nat.two_pow_pos 10)
  have he : v / 2 ^ 10 < 31 := Nat.div_lt_of_lt_mul (by omega)
  have hfields := Nat.div_add_mod' v (2 ^ 10)
  rw [toSingle]
  generalize v / 2 ^ 10 = e at *
  generalize v % 2 ^ 10 = m at *
  clear hv
  subst hfields
  cases e with
  | zero =>
    rw [if_pos rfl, Nat.zero_mul, Nat.zero_add, mag_small hm.le]
    by_cases h0 : m = 0
    · rw [if_pos h0, h0]
      exact ⟨by decide, rfl⟩
    · have hlog := log_lt_ten hm h0
      have hbound : (103 + Nat.log 2 m) * 2 ^ 23 + 2 ^ 23 ≤ 143 * 2 ^ 23 := by omega
      obtain ⟨hlow, hhigh⟩ := normal_bounds hm h0
      obtain ⟨hfrac, hlead⟩ := normal_fraction hlow hhigh
      have hexp : 10 - Nat.log 2 m + (13 + (103 + Nat.log 2 m - 1)) = 125 := by omega
      rw [if_neg h0, mag_single (e := 103 + Nat.log 2 m) hfrac (by omega), hlead, Nat.mul_assoc, Nat.mul_assoc, ← Nat.pow_add,
        ← Nat.pow_add, hexp]
      exact ⟨(Nat.add_lt_add_left hfrac _).trans_le hbound, rfl⟩
  | succ e =>
    rw [if_neg (Nat.succ_ne_zero e), if_neg (by omega), mag_single (m := m * 2 ^ 13) (e := e + 1 + 112) (by omega) (by omega),
      mag_normal hm.le]
    refine ⟨by omega, ?_⟩
    have hexp : e + 1 + 112 - 1 = e + 112 := by omega
    rw [hexp]
    ring

theorem toSingle_high (hv : 31 * 2 ^ 10 ≤ v) (hv' : v < 2 ^ 15) : toSingle v = 255 * 2 ^ 23 + v % 2 ^ 10 * 2 ^ 13 := by
  rw [toSingle, if_neg (by omega), if_pos (by omega)]

end

/-- The conversion on the fields. -/
theorem toNat_distF16ToF32 (h : UInt16) :
    (distF16ToF32 h).toNat = negative 10 5 h.toNat * 2 ^ 31 + toSingle (unsigned 10 5 h.toNat) := by
  have hs := toNat_signHalf h
  have hm := toNat_mantHalf h
  have he := toNat_expHalf h
  have hmlt := Nat.mod_lt h.toNat (Nat.two_pow_pos 10)
  have helt := Nat.mod_lt (h.toNat / 2 ^ 10) (Nat.two_pow_pos 5)
  have hdiv : unsigned 10 5 h.toNat / 2 ^ 10 = h.toNat / 2 ^ 10 % 2 ^ 5 := by
    rw [unsigned_fields]
    omega
  have hmod : unsigned 10 5 h.toNat % 2 ^ 10 = h.toNat % 2 ^ 10 := Nat.mod_mod_of_dvd _ ⟨2 ^ 5, rfl⟩
  rw [distF16ToF32, toSingle, hdiv, hmod, ← he, ← hm]
  rw [← he] at helt
  rw [← hm] at hmlt
  generalize (h &&& 0x8000).toUInt32 <<< 16 = sign at *
  generalize (h &&& 0x03ff).toUInt32 = mant at *
  generalize ((h >>> 10) &&& 0x1f).toNat = e at *
  generalize negative 10 5 h.toNat = s at *
  by_cases he0 : e = 0
  · rw [if_pos he0, if_pos (by omega)]
    by_cases hm0 : mant = 0
    · rw [if_pos hm0, if_pos (by rw [hm0]; rfl), hs]
      exact (Nat.add_zero _).symm
    · have hm0' : mant.toNat ≠ 0 := (ne_zero_iff_toNat mant).mp hm0
      have hlog := log_lt_ten hmlt hm0'
      obtain ⟨hlow, hhigh⟩ := normal_bounds hmlt hm0'
      obtain ⟨hexp, hmant⟩ := @normalizeHalf_spec _ 10 1 mant (Nat.sub_le _ _) hlow hhigh
      generalize normalizeHalf 10 1 mant = r at *
      generalize mant.toNat * 2 ^ (10 - Nat.log 2 mant.toNat) = x at *
      have hfrac : (r.2 &&& 0x03ff).toNat = x - 2 ^ 10 := by
        rw [UInt32.toNat_and, hmant]
        refine (Nat.and_two_pow_sub_one_eq_mod x 10).trans ?_
        omega
      rw [if_neg hm0, if_neg hm0', ← hfrac]
      exact toNat_packSingle hs (by omega) (by omega) (by omega)
  · rw [if_neg he0, if_neg (by omega)]
    by_cases h31 : e = 31
    · have hfield : 255 * 2 ^ 23 < 2 ^ 31 := by decide
      have hfrac : (mant <<< 13).toNat = mant.toNat * 2 ^ 13 := @toNat_shiftLeft _ 13 10 (by decide) hmlt (by decide)
      have hfrac23 : mant.toNat * 2 ^ 13 < 2 ^ 23 := Nat.mul_lt_mul_of_pos_right hmlt (Nat.two_pow_pos 13)
      have hpack : s * 2 ^ 31 + 255 * 2 ^ 23 = (s * 2 ^ 8 + 255) * 2 ^ 23 := by ring
      have hexp : (0x7f800000 : UInt32).toNat = 255 * 2 ^ 23 := rfl
      rw [if_pos h31, if_pos (by omega), UInt32.toNat_or, UInt32.toNat_or, hs, hexp, or_eq_add hfield, hfrac, hpack,
        or_eq_add hfrac23]
      ring
    · rw [if_neg h31, if_neg (by omega)]
      exact toNat_packSingle hs (by omega) (by omega) hmlt

section
variable (h : UInt16)

theorem unsigned_half_lt : unsigned 10 5 h.toNat < 2 ^ 15 := Nat.mod_lt _ (by decide)

theorem toSingle_lt : toSingle (unsigned 10 5 h.toNat) < 2 ^ 31 := by
  have hv := unsigned_half_lt h
  by_cases hfin : unsigned 10 5 h.toNat < 31 * 2 ^ 10
  · exact (toSingle_mag hfin).1.trans (by decide)
  · have hfrac := Nat.mod_lt (unsigned 10 5 h.toNat) (Nat.two_pow_pos 10)
    rw [toSingle_high (Nat.le_of_not_lt hfin) hv]
    omega

theorem negative_distF16ToF32 : negative 23 8 (distF16ToF32 h).toNat = negative 10 5 h.toNat := by
  have := toSingle_lt h
  rw [negative, toNat_distF16ToF32]
  omega

theorem unsigned_distF16ToF32 : unsigned 23 8 (distF16ToF32 h).toNat = toSingle (unsigned 10 5 h.toNat) := by
  have := toSingle_lt h
  rw [unsigned, toNat_distF16ToF32]
  omega

end

/-- The rounding of a value that is a half. -/
theorem toHalf_toSingle {v : Nat} (hv : v ≤ 31 * 2 ^ 10) : toHalf (toSingle v) = v := by
  rcases hv.eq_or_lt with rfl | hfin
  · rfl
  · obtain ⟨hlt, hmag⟩ := toSingle_mag hfin
    have hround := toHalf_rounds hlt
    have hval : (mag 23 (toSingle v) : ℚ) = halfGrid v := by
      rw [hmag, halfGrid]
      push_cast
      rfl
    rw [hval] at hround
    exact hround.unique (roundsEven_self halfGrid_strictMono v) halfGrid_strictMono

theorem distF32ToF16_distF16ToF32 {h : UInt16} (hn : ¬IsNan 10 5 h.toNat) : distF32ToF16 (distF16ToF32 h) = h := by
  have hv : unsigned 10 5 h.toNat ≤ 31 * 2 ^ 10 := Nat.le_of_not_lt hn
  rw [← UInt16.toNat_inj, distF32ToF16_fields, negative_distF16ToF32, unsigned_distF16ToF32, toHalf_toSingle hv]
  exact Nat.div_add_mod' h.toNat (2 ^ 15)

section
variable {h : UInt16}

theorem isFinite_distF16ToF32 (hfin : IsFinite 10 5 h.toNat) : IsFinite 23 8 (distF16ToF32 h).toNat := by
  rw [IsFinite, unsigned_distF16ToF32]
  exact (toSingle_mag hfin).1.trans (by decide)

theorem value_distF16ToF32 (hfin : IsFinite 10 5 h.toNat) : value 23 8 (distF16ToF32 h).toNat = value 10 5 h.toNat := by
  have hsign : signOf 23 8 (distF16ToF32 h).toNat = signOf 10 5 h.toNat := by rw [signOf, signOf, negative_distF16ToF32]
  have hunit : (1 : ℚ) / 2 ^ (23 + 2 ^ (8 - 1) - 2) = 1 / 2 ^ 149 := by norm_num
  rw [value_half, value, hsign, unsigned_distF16ToF32, (toSingle_mag hfin).2, halfGrid, hunit]
  push_cast
  rfl

theorem isInf_distF16ToF32 (hinf : IsInf 10 5 h.toNat) : IsInf 23 8 (distF16ToF32 h).toNat := by
  rw [IsInf, unsigned_distF16ToF32, hinf]
  rfl

theorem isNan_distF16ToF32 (hnan : IsNan 10 5 h.toNat) : IsNan 23 8 (distF16ToF32 h).toNat := by
  have hv := unsigned_half_lt h
  have hnan' : 31 * 2 ^ 10 < unsigned 10 5 h.toNat := hnan
  have hfrac : unsigned 10 5 h.toNat % 2 ^ 10 ≠ 0 := by omega
  rw [IsNan, unsigned_distF16ToF32, toSingle_high hnan'.le hv]
  exact Nat.lt_add_of_pos_right (Nat.mul_pos (Nat.pos_of_ne_zero hfrac) (by decide))

end

/-- The two conversions between singles and halves. -/
theorem f16_conversions :
    (∀ b : UInt32, negative 10 5 (distF32ToF16 b).toNat = negative 23 8 b.toNat) ∧
    (∀ b : UInt32, IsFinite 23 8 b.toNat →
      (IsInf 10 5 (distF32ToF16 b).toNat ↔ 65520 ≤ |value 23 8 b.toNat|) ∧
      (|value 23 8 b.toNat| < 65520 → NearestHalf b (distF32ToF16 b))) ∧
    (∀ a b : UInt32, ¬IsNan 23 8 a.toNat → ¬IsNan 23 8 b.toNat → AtMost 23 8 a.toNat b.toNat →
      AtMost 10 5 (distF32ToF16 a).toNat (distF32ToF16 b).toNat) ∧
    (∀ b : UInt32, IsInf 23 8 b.toNat → IsInf 10 5 (distF32ToF16 b).toNat) ∧
    (∀ b : UInt32, IsNan 23 8 b.toNat → IsNan 10 5 (distF32ToF16 b).toNat) ∧
    (∀ h : UInt16, negative 23 8 (distF16ToF32 h).toNat = negative 10 5 h.toNat) ∧
    (∀ h : UInt16, IsFinite 10 5 h.toNat →
      IsFinite 23 8 (distF16ToF32 h).toNat ∧ value 23 8 (distF16ToF32 h).toNat = value 10 5 h.toNat) ∧
    (∀ h : UInt16, IsInf 10 5 h.toNat → IsInf 23 8 (distF16ToF32 h).toNat) ∧
    (∀ h : UInt16, IsNan 10 5 h.toNat → IsNan 23 8 (distF16ToF32 h).toNat) ∧
    ∀ h : UInt16, ¬IsNan 10 5 h.toNat → distF32ToF16 (distF16ToF32 h) = h := by
  refine ⟨negative_distF32ToF16, fun b hfin => ?_, fun a b => atMost_distF32ToF16, fun b => isInf_of_isInf,
    fun b => isNan_of_isNan, negative_distF16ToF32, fun h hfin => ?_, fun h => isInf_distF16ToF32, fun h => isNan_distF16ToF32,
    fun h => distF32ToF16_distF16ToF32⟩
  · exact ⟨isInf_distF32ToF16 hfin, nearestHalf_distF32ToF16 hfin⟩
  · exact ⟨isFinite_distF16ToF32 hfin, value_distF16ToF32 hfin⟩

/-- The midpoint above the largest half, the value before it, and the least half. -/
theorem f16_conversions_bounds :
    IsInf 10 5 (distF32ToF16 0x477ff000).toNat ∧ NearestHalf 0x477fefff (distF32ToF16 0x477fefff) ∧
      distF32ToF16 (distF16ToF32 0x0001) = 0x0001 := by
  have hmid : mag 23 (unsigned 23 8 (0x477ff000 : UInt32).toNat) = (2 ^ 23 + 0x7ff000) * 2 ^ 141 := rfl
  have hbelow : mag 23 (unsigned 23 8 (0x477fefff : UInt32).toNat) = (2 ^ 23 + 0x7fefff) * 2 ^ 141 := rfl
  refine ⟨(f16_conversions.2.1 0x477ff000 (by decide)).1.mpr ?_, (f16_conversions.2.1 0x477fefff (by decide)).2 ?_,
    f16_conversions.2.2.2.2.2.2.2.2.2 0x0001 (by decide)⟩
  · rw [abs_value, hmid]
    norm_num
  · rw [abs_value, hbelow]
    norm_num

end Ds4.Dist
