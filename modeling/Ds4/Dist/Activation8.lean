import Mathlib.Data.Int.Log
import Mathlib.Data.Rat.Floor
import Ds4.Dist.Round16

/-!
# Activations of 8 bits

`dist_f32_to_f8_e4m3` and `dist_f8_e4m3_to_f32` with the values of the floats as rational numbers.
-/

namespace Ds4.Dist
open BinaryFormat

/-! ## The conversions -/

/-- `frexpf` of a positive number: the number is below `2 ^ exp2` and not below its half. -/
def frexpExp (a : ℚ) : Int := Int.log 2 a + 1

/-- Numbers below the least normal one have the mantissa up to 7. -/
def subnormalE4m3 (sign : UInt8) (a : ℚ) : UInt8 :=
  let mant := ⌊a * 512 + 1 / 2⌋
  if mant ≤ 0 then sign
  else
    let mant := if 7 < mant then 7 else mant
    sign ||| UInt8.ofNat mant.toNat

def distF32ToF8E4m3 (f : ℚ) : UInt8 :=
  let sign : UInt8 := if f < 0 then 0x80 else 0
  let a := |f|
  if a = 0 then sign
  else if 240 ≤ a then sign ||| 0x77
  else if a < 1 / 512 then subnormalE4m3 sign a
  else
    let exp2 := frexpExp a
    let exp := exp2 - 1 + 7
    if exp ≤ 0 then subnormalE4m3 sign a
    else
      let base : ℚ := 2 ^ (exp2 - 1)
      let mant := ⌊(a / base - 1) * 8 + 1 / 2⌋
      let (exp, mant) := if 8 ≤ mant then (exp + 1, 0) else (exp, mant)
      if 15 ≤ exp then sign ||| 0x77
      else sign ||| (UInt8.ofNat exp.toNat <<< 3) ||| UInt8.ofNat mant.toNat

def distF8E4m3ToF32 (h : UInt8) : ℚ :=
  let sign : ℚ := if h &&& 0x80 ≠ 0 then -1 else 1
  let exp := (h >>> 3) &&& 0x0f
  let mant := h &&& 0x07
  if exp = 0 then sign * mant.toNat * (1 / 512)
  else if 15 ≤ exp then sign * 240
  else sign * ((1 + mant.toNat / 8) * 2 ^ ((exp.toNat : Int) - 7))

/-! ## The magnitude of a pattern -/

/-- The values of the patterns without a sign; the largest exponent stands for the largest value. -/
def e4m3Grid (n : Nat) : ℚ := mag 3 n * (1 / 512)

theorem e4m3Grid_strictMono : StrictMono e4m3Grid := fun a b hab => by
  have hlt : (mag 3 a : ℚ) < mag 3 b := by exact_mod_cast mag_strictMono 3 hab
  exact mul_lt_mul_of_pos_right hlt (by norm_num)

theorem e4m3Grid_zero : e4m3Grid 0 = 0 := by simp [e4m3Grid, mag]

theorem e4m3Grid_seven : e4m3Grid 7 = 7 / 512 := by norm_num [e4m3Grid, mag]

theorem e4m3Grid_eight : e4m3Grid 8 = 1 / 64 := by norm_num [e4m3Grid, mag]

theorem e4m3Grid_nonneg (n : Nat) : 0 ≤ e4m3Grid n := e4m3Grid_zero ▸ e4m3Grid_strictMono.monotone (Nat.zero_le n)

theorem e4m3Grid_largest : e4m3Grid 0x77 = 240 := by norm_num [e4m3Grid, mag]

/-- The sign of a pattern. -/
def signE4m3 (h : UInt8) : ℚ := if h.toNat / 2 ^ 7 = 0 then 1 else -1

/-- The pattern without its sign, at most that of the largest value. -/
def magnitudeE4m3 (h : UInt8) : Nat := min (h.toNat % 2 ^ 7) 0x77

section
variable (h : UInt8)

theorem signBitE4m3 : h &&& 0x80 ≠ 0 ↔ h.toNat / 2 ^ 7 ≠ 0 := by
  have hbit : (h &&& 0x80).toNat = h.toNat / 2 ^ 7 * 2 ^ 7 := by
    have hle : h.toNat / 2 ^ 7 < 2 := Nat.div_lt_of_lt_mul h.toNat_lt
    rw [UInt8.toNat_and]
    refine (and_bit_eq h.toNat 7).trans ?_
    rw [Nat.mod_eq_of_lt hle]
  refine not_congr ?_
  rw [← UInt8.toNat_inj, hbit]
  exact Nat.mul_eq_zero.trans (or_iff_left (by decide))

theorem expE4m3 : ((h >>> 3) &&& 0x0f).toNat = h.toNat % 2 ^ 7 / 2 ^ 3 := by
  rw [UInt8.toNat_and, UInt8.toNat_shiftRight]
  refine (Nat.and_two_pow_sub_one_eq_mod (h.toNat >>> 3) 4).trans ?_
  rw [Nat.shiftRight_eq_div_pow]
  omega

theorem mantE4m3 : (h &&& 0x07).toNat = h.toNat % 2 ^ 7 % 2 ^ 3 := by
  rw [UInt8.toNat_and]
  refine (Nat.and_two_pow_sub_one_eq_mod h.toNat 3).trans ?_
  omega

theorem distF8E4m3ToF32_eq : distF8E4m3ToF32 h = signE4m3 h * e4m3Grid (magnitudeE4m3 h) := by
  have he := expE4m3 h
  have hm := mantE4m3 h
  have hsign : (if h &&& 0x80 ≠ 0 then (-1 : ℚ) else 1) = signE4m3 h := by
    rw [signE4m3, if_congr (signBitE4m3 h) rfl rfl, ite_not]
  have hlt := Nat.mod_lt h.toNat (Nat.two_pow_pos 7)
  have hfields := Nat.div_add_mod' (h.toNat % 2 ^ 7) (2 ^ 3)
  have hmlt := Nat.mod_lt (h.toNat % 2 ^ 7) (Nat.two_pow_pos 3)
  have hzero : (h >>> 3) &&& 0x0f = 0 ↔ h.toNat % 2 ^ 7 / 2 ^ 3 = 0 := by
    rw [← UInt8.toNat_inj, he]
    rfl
  have htop : (15 : UInt8) ≤ (h >>> 3) &&& 0x0f ↔ 15 ≤ h.toNat % 2 ^ 7 / 2 ^ 3 := by
    rw [UInt8.le_iff_toNat_le, he]
    rfl
  rw [distF8E4m3ToF32, hsign, magnitudeE4m3, if_congr hzero rfl rfl, if_congr htop rfl rfl, he, hm]
  clear hzero htop
  generalize h.toNat % 2 ^ 7 = n at *
  by_cases hsub : n / 2 ^ 3 = 0
  · have hn : min n 0x77 = n % 2 ^ 3 := by omega
    rw [if_pos hsub, hn, e4m3Grid, mag_small hmlt.le, mul_assoc]
  · rw [if_neg hsub]
    by_cases hlargest : 15 ≤ n / 2 ^ 3
    · have hn : min n 0x77 = 0x77 := by omega
      rw [if_pos hlargest, hn, e4m3Grid]
      norm_num [mag]
    · obtain ⟨e, he⟩ := Nat.exists_eq_succ_of_ne_zero hsub
      have hn : min n 0x77 = (e + 1) * 2 ^ 3 + n % 2 ^ 3 := by omega
      have hpow : (2 : ℚ) ^ (((e + 1 : Nat) : Int) - 7) = 2 ^ e / 64 := by
        rw [zpow_sub₀ two_ne_zero, zpow_natCast, pow_succ]
        norm_num
        ring
      rw [if_neg hlargest, he, hn, e4m3Grid, mag_normal hmlt.le, Nat.succ_eq_add_one, hpow]
      push_cast
      ring

end

/-! ## The pattern of a magnitude -/

section
variable {sign x : UInt8} {s e m : Nat}

theorem toNat_signE4m3 (hs : sign.toNat = s * 2 ^ 7) (hx : x.toNat < 2 ^ 7) : (sign ||| x).toNat = s * 2 ^ 7 + x.toNat := by
  rw [UInt8.toNat_or, hs, or_eq_add hx]

theorem toNat_fieldsE4m3 (hs : sign.toNat = s * 2 ^ 7) (he : e < 2 ^ 4) (hm : m < 2 ^ 3) :
    (sign ||| (UInt8.ofNat e <<< 3) ||| UInt8.ofNat m).toNat = s * 2 ^ 7 + (e * 2 ^ 3 + m) := by
  have hofE : (UInt8.ofNat e).toNat = e := UInt8.toNat_ofNat_of_lt' (he.trans (by decide))
  have hofM : (UInt8.ofNat m).toNat = m := UInt8.toNat_ofNat_of_lt' (hm.trans (by decide))
  have hfield : e * 2 ^ 3 < 2 ^ 7 := Nat.mul_lt_mul_of_pos_right he (Nat.two_pow_pos 3)
  have hshl : (UInt8.ofNat e <<< 3).toNat = e * 2 ^ 3 := by
    rw [UInt8.toNat_shiftLeft, hofE]
    show e <<< 3 % 2 ^ 8 = _
    rw [Nat.shiftLeft_eq]
    exact Nat.mod_eq_of_lt (hfield.trans (by decide))
  have hpack : s * 2 ^ 7 + e * 2 ^ 3 = (s * 2 ^ 4 + e) * 2 ^ 3 := by ring
  rw [UInt8.toNat_or, UInt8.toNat_or, hs, hshl, hofM, or_eq_add hfield, hpack, or_eq_add hm]
  ring

end

/-- Rounded half up, but not above 7 below the least normal number, and not above the largest value. -/
structure Rounded (a : ℚ) (r : Nat) : Prop where
  le : r ≤ 0x77
  largest : 240 ≤ a → r = 0x77
  capped : 15 / 1024 ≤ a → a < 1 / 64 → r = 7
  halfUp : a < 240 → (15 / 1024 ≤ a → 1 / 64 ≤ a) → HalfUp e4m3Grid a r

section
variable {sign : UInt8} {s : Nat} {a : ℚ}

theorem e4m3Grid_small {n : Nat} (hn : n ≤ 8) : e4m3Grid n = n * (1 / 512) := by rw [e4m3Grid, mag_small hn]

theorem subnormalE4m3_spec (hs : sign.toNat = s * 2 ^ 7) (h0 : 0 < a) (hsub : a < 1 / 64) :
    ∃ r, Rounded a r ∧ (subnormalE4m3 sign a).toNat = s * 2 ^ 7 + r := by
  have hfloor := Int.floor_le (a * 512 + 1 / 2)
  have hfloor' := Int.lt_floor_add_one (a * 512 + 1 / 2)
  rw [subnormalE4m3]
  generalize ⌊a * 512 + 1 / 2⌋ = mant at *
  have hnonneg : 0 ≤ mant := by
    have : (-1 : ℚ) < mant := by linarith
    have : -1 < mant := by exact_mod_cast this
    omega
  obtain ⟨n, rfl⟩ := Int.eq_ofNat_of_zero_le hnonneg
  have hhalfUp : a < 15 / 1024 → n ≤ 7 ∧ HalfUp e4m3Grid a n := fun hlt => by
    have hn : n ≤ 7 := by
      have : ((n : Int) : ℚ) < 8 := by linarith
      have : (n : Int) < 8 := by exact_mod_cast this
      omega
    refine ⟨hn, fun q hq => ?_, ?_⟩
    · subst hq
      rw [e4m3Grid_small (by omega), e4m3Grid_small (by omega)]
      push_cast at *
      linarith
    · rw [e4m3Grid_small (by omega), e4m3Grid_small (by omega)]
      push_cast at *
      linarith
  have hcapped : 15 / 1024 ≤ a → 7 < n := fun hle => by
    have : (7 : ℚ) < (n : Int) := by linarith
    exact_mod_cast this
  by_cases hle : 15 / 1024 ≤ a
  · have hn := hcapped hle
    refine ⟨7, ⟨by decide, fun h => absurd h (by linarith), fun _ _ => rfl, fun _ h => absurd (h hle) (by linarith)⟩, ?_⟩
    rw [if_neg (by omega), if_pos (by omega)]
    exact toNat_signE4m3 hs (by decide)
  · obtain ⟨hn, hround⟩ := hhalfUp (lt_of_not_ge hle)
    refine ⟨n, ⟨by omega, fun h => absurd h (by linarith), fun h => absurd h hle, fun _ _ => hround⟩, ?_⟩
    by_cases hzero : (n : Int) ≤ 0
    · have hn0 : n = 0 := by omega
      rw [if_pos hzero, hs, hn0, Nat.add_zero]
    · have hofN : (UInt8.ofNat n).toNat = n := UInt8.toNat_ofNat_of_lt' (show n < 2 ^ 8 by omega)
      rw [if_neg hzero, if_neg (by omega)]
      exact (toNat_signE4m3 hs (by rw [Int.toNat_natCast, hofN]; omega)).trans (by rw [Int.toNat_natCast, hofN])

/-- The unit of the exponent field `e + 1`. -/
theorem e4m3Grid_normal {e n : Nat} (hn : n ≤ 8) : e4m3Grid ((e + 1) * 2 ^ 3 + n) = (8 + n) * (2 ^ e / 512) := by
  rw [e4m3Grid, mag_normal hn]
  push_cast
  ring

/-- The carry of a mantissa of 8 gives the next exponent. -/
theorem normal_halfUp {e n : Nat} (hn : n ≤ 8) (hle : 8 * (2 ^ e / 512) ≤ a) (hlt : a < 16 * (2 ^ e / 512))
    (hlow : (n + 15 / 2) * (2 ^ e / 512) ≤ a) (hup : a < (n + 17 / 2) * (2 ^ e / 512)) :
    HalfUp e4m3Grid a ((e + 1) * 2 ^ 3 + n) where
  lower q hq := by
    cases n with
    | zero =>
      have hqr := e4m3Grid_strictMono (show q < (e + 1) * 2 ^ 3 + 0 by omega)
      have hr := @e4m3Grid_normal e 0 hn
      rw [Nat.cast_zero] at hr
      generalize (2 : ℚ) ^ e / 512 = unit at *
      linarith
    | succ n =>
      have hq' : q = (e + 1) * 2 ^ 3 + n := by omega
      rw [hq', e4m3Grid_normal hn, e4m3Grid_normal (by omega)]
      push_cast at *
      linarith
  upper := by
    rcases hn.eq_or_lt with rfl | hn'
    · have hnext := e4m3Grid_strictMono (Nat.lt_succ_self ((e + 1) * 2 ^ 3 + 8))
      have hr := @e4m3Grid_normal e 8 hn
      rw [Nat.cast_ofNat] at hr
      simp only [Nat.succ_eq_add_one] at hnext
      generalize (2 : ℚ) ^ e / 512 = unit at *
      linarith
    · rw [Nat.add_assoc ((e + 1) * 2 ^ 3), e4m3Grid_normal hn, e4m3Grid_normal hn']
      push_cast
      linarith

theorem two_zpow_neg_six : (2 : ℚ) ^ (-6 : Int) = 1 / 64 := by norm_num

theorem log_normal (hnormal : 1 / 64 ≤ a) : -6 ≤ Int.log 2 a := by
  have hhigh := Int.lt_zpow_succ_log_self (b := 2) (by decide) a
  rw [Nat.cast_two] at hhigh
  by_contra hlt
  have hpow : (2 : ℚ) ^ (Int.log 2 a + 1) ≤ 2 ^ (-6 : Int) := zpow_le_zpow_right₀ one_le_two (by omega)
  rw [two_zpow_neg_six] at hpow
  exact absurd (hhigh.trans_le hpow) (not_lt_of_ge hnormal)

theorem log_subnormal (h0 : 0 < a) (hsub : a < 1 / 64) : Int.log 2 a ≤ -7 := by
  have hlow := Int.zpow_log_le_self (b := 2) (by decide) h0
  rw [Nat.cast_two] at hlow
  by_contra hlt
  have hpow : (2 : ℚ) ^ (-6 : Int) ≤ 2 ^ Int.log 2 a := zpow_le_zpow_right₀ one_le_two (by omega)
  rw [two_zpow_neg_six] at hpow
  exact absurd (hpow.trans hlow) (not_le_of_gt hsub)

theorem normalE4m3_spec (hnormal : 1 / 64 ≤ a) (hlargest : a < 240) :
    ∃ e n : Nat, Int.log 2 a = (e : Int) - 6 ∧ ⌊(a / 2 ^ Int.log 2 a - 1) * 8 + 1 / 2⌋ = (n : Int) ∧ n ≤ 8 ∧
      (e + 1) * 2 ^ 3 + n ≤ 0x77 ∧ HalfUp e4m3Grid a ((e + 1) * 2 ^ 3 + n) := by
  have h0 : 0 < a := by linarith
  obtain ⟨e, he⟩ := Int.eq_ofNat_of_zero_le (show 0 ≤ Int.log 2 a + 6 by linarith [log_normal hnormal])
  have hlog : Int.log 2 a = (e : Int) - 6 := by omega
  have hlow := Int.zpow_log_le_self (b := 2) (by decide) h0
  have hhigh := Int.lt_zpow_succ_log_self (b := 2) (by decide) a
  have hbase : (2 : ℚ) ^ Int.log 2 a = 8 * (2 ^ e / 512) := by
    rw [hlog, zpow_sub₀ two_ne_zero, zpow_natCast]
    norm_num
    ring
  have hunit : (0 : ℚ) < 2 ^ e / 512 := by positivity
  have hquot : (a / (8 * (2 ^ e / 512)) - 1) * 8 + 1 / 2 = a / (2 ^ e / 512) - 15 / 2 := by
    field_simp
    ring
  rw [Nat.cast_two] at hlow hhigh
  rw [zpow_add_one₀ two_ne_zero, hbase] at hhigh
  rw [hbase] at hlow
  rw [hbase, hquot]
  have hfloor := Int.floor_le (a / (2 ^ e / 512) - 15 / 2)
  have hfloor' := Int.lt_floor_add_one (a / (2 ^ e / 512) - 15 / 2)
  generalize ⌊a / (2 ^ e / 512) - 15 / 2⌋ = mant at *
  have hlower : (mant + 15 / 2) * (2 ^ e / 512) ≤ a := (le_div_iff₀ hunit).mp (by linarith)
  have hupper : a < (mant + 17 / 2) * (2 ^ e / 512) := (div_lt_iff₀ hunit).mp (by linarith)
  have hnonneg : 0 ≤ mant := by
    have : (8 : ℚ) * (2 ^ e / 512) < (mant + 17 / 2) * (2 ^ e / 512) := hlow.trans_lt hupper
    have := lt_of_mul_lt_mul_right this hunit.le
    have : (-1 : ℚ) < mant := by linarith
    have : -1 < mant := by exact_mod_cast this
    omega
  have hle : mant ≤ 8 := by
    have : (mant + 15 / 2) * (2 ^ e / 512) < (16 : ℚ) * (2 ^ e / 512) := by linarith
    have := lt_of_mul_lt_mul_right this hunit.le
    have : (mant : ℚ) < 9 := by linarith
    have : mant < 9 := by exact_mod_cast this
    omega
  obtain ⟨n, rfl⟩ := Int.eq_ofNat_of_zero_le hnonneg
  have hround : HalfUp e4m3Grid a ((e + 1) * 2 ^ 3 + n) :=
    normal_halfUp (by omega) hlow (by linarith) (by exact_mod_cast hlower) (by exact_mod_cast hupper)
  have hmax : a ≤ e4m3Grid 0x77 := by
    rw [e4m3Grid_largest]
    exact hlargest.le
  exact ⟨e, n, hlog, rfl, by omega, hround.mono (halfUp_self e4m3Grid_strictMono 0x77) e4m3Grid_strictMono hmax, hround⟩

end

/-- The pattern without its sign is rounded from the magnitude, the sign is that of the number. -/
theorem distF32ToF8E4m3_spec (f : ℚ) :
    ∃ r, Rounded |f| r ∧ (distF32ToF8E4m3 f).toNat = (if f < 0 then 1 else 0) * 2 ^ 7 + r := by
  have hs : (if f < 0 then (0x80 : UInt8) else 0).toNat = (if f < 0 then 1 else 0) * 2 ^ 7 := by split <;> rfl
  have ha := abs_nonneg f
  rw [distF32ToF8E4m3]
  generalize (if f < 0 then (0x80 : UInt8) else 0) = sign at *
  generalize (if f < 0 then 1 else 0) = s at *
  generalize |f| = a at *
  by_cases h0 : a = 0
  · refine ⟨0, ⟨by decide, fun h => absurd h (by linarith), fun h => absurd h (by linarith), fun _ _ => ?_⟩, ?_⟩
    · have hzero := halfUp_self e4m3Grid_strictMono 0
      rwa [e4m3Grid_zero, ← h0] at hzero
    · rw [if_pos h0, hs, Nat.add_zero]
  · rw [if_neg h0]
    by_cases hlargest : 240 ≤ a
    · refine ⟨0x77, ⟨le_rfl, fun _ => rfl, fun _ h => absurd h (by linarith), fun h => absurd h (by linarith)⟩, ?_⟩
      rw [if_pos hlargest]
      exact toNat_signE4m3 hs (by decide)
    · have hpos : 0 < a := lt_of_le_of_ne ha (Ne.symm h0)
      rw [if_neg hlargest]
      by_cases hnormal : 1 / 64 ≤ a
      · obtain ⟨e, n, hlog, hmant, hn, hle, hround⟩ := normalE4m3_spec hnormal (lt_of_not_ge hlargest)
        have hexp2 : frexpExp a - 1 = Int.log 2 a := Int.add_sub_cancel _ _
        refine ⟨(e + 1) * 2 ^ 3 + n, ⟨hle, fun h => absurd h hlargest, fun _ h => absurd h (by linarith), fun _ _ => hround⟩, ?_⟩
        rw [if_neg (by linarith)]
        dsimp only
        rw [hexp2, if_neg (show ¬Int.log 2 a + 7 ≤ 0 by omega), hmant]
        by_cases hcarry : n = 8
        · have hexp : (Int.log 2 a + 7 + 1).toNat = e + 2 := by omega
          have hr : (e + 1) * 2 ^ 3 + n = (e + 2) * 2 ^ 3 + 0 := by omega
          rw [if_pos (show (8 : Int) ≤ n by omega)]
          dsimp only
          rw [if_neg (by omega), hexp, hr]
          exact toNat_fieldsE4m3 hs (by omega) (by decide)
        · have hexp : (Int.log 2 a + 7).toNat = e + 1 := by omega
          rw [if_neg (show ¬(8 : Int) ≤ n by omega)]
          dsimp only
          rw [if_neg (by omega), hexp, Int.toNat_natCast]
          exact toNat_fieldsE4m3 hs (by omega) (by omega)
      · obtain ⟨r, hround, hr⟩ := subnormalE4m3_spec hs hpos (lt_of_not_ge hnormal)
        have hlog := log_subnormal hpos (lt_of_not_ge hnormal)
        have hexp2 : frexpExp a - 1 = Int.log 2 a := Int.add_sub_cancel _ _
        refine ⟨r, hround, ?_⟩
        dsimp only
        rw [hexp2, if_pos (show Int.log 2 a + 7 ≤ 0 by omega), ite_self]
        exact hr

/-! ## There and back -/

/-- The sign in front of a number. -/
def signRat (f : ℚ) : ℚ := if f < 0 then -1 else 1

theorem abs_signRat (f : ℚ) : |signRat f| = 1 := by
  rw [signRat]
  split
  · rw [abs_neg, abs_one]
  · exact abs_one

theorem signRat_mul_abs (f : ℚ) : signRat f * |f| = f := by
  rw [signRat]
  split
  · rw [abs_of_neg (by assumption), neg_one_mul, neg_neg]
  · rw [abs_of_nonneg (le_of_not_gt (by assumption)), one_mul]

theorem signE4m3_or (f : ℚ) (h : UInt8) : signE4m3 h = signRat f ∨ signE4m3 h = -signRat f := by
  rw [signE4m3, signRat]
  split <;> split <;> simp

theorem roundTrip_eq (f : ℚ) :
    ∃ r, Rounded |f| r ∧ distF8E4m3ToF32 (distF32ToF8E4m3 f) = signRat f * e4m3Grid r := by
  obtain ⟨r, hround, hr⟩ := distF32ToF8E4m3_spec f
  have hle := hround.le
  refine ⟨r, hround, ?_⟩
  rw [distF8E4m3ToF32_eq, signE4m3, magnitudeE4m3, hr, signRat]
  split
  · have hmod : min ((1 * 2 ^ 7 + r) % 2 ^ 7) 0x77 = r := by omega
    rw [if_neg (by omega), hmod]
  · have hmod : min ((0 * 2 ^ 7 + r) % 2 ^ 7) 0x77 = r := by omega
    rw [if_pos (by omega), hmod]

section
variable {a b f f' : ℚ} {r s : Nat}

/-- In the capped range the pattern 8 is the rounded one. -/
theorem halfUp_eight (hlow : 15 / 1024 ≤ a) (hup : a < 1 / 64) : HalfUp e4m3Grid a 8 where
  lower q hq := by
    have hq7 : q = 7 := by omega
    rw [hq7, e4m3Grid_seven, e4m3Grid_eight]
    linarith
  upper := by
    have hnext : e4m3Grid 8 < e4m3Grid (8 + 1) := e4m3Grid_strictMono (Nat.lt_succ_self 8)
    rw [e4m3Grid_eight] at hnext ⊢
    linarith

theorem Rounded.mono (hr : Rounded a r) (hs : Rounded b s) (hab : a ≤ b) : r ≤ s := by
  by_cases hb : 240 ≤ b
  · rw [hs.largest hb]
    exact hr.le
  · have ha : a < 240 := by linarith
    by_cases hgap : 15 / 1024 ≤ b → 1 / 64 ≤ b
    · have hsup := hs.halfUp (lt_of_not_ge hb) hgap
      by_cases hgapA : 15 / 1024 ≤ a → 1 / 64 ≤ a
      · exact (hr.halfUp ha hgapA).mono hsup e4m3Grid_strictMono hab
      · rw [Classical.not_imp, not_le] at hgapA
        rw [hr.capped hgapA.1 hgapA.2]
        exact (Nat.le_succ 7).trans ((halfUp_eight hgapA.1 hgapA.2).mono hsup e4m3Grid_strictMono hab)
    · rw [Classical.not_imp, not_le] at hgap
      rw [hs.capped hgap.1 hgap.2]
      by_cases hlow : 15 / 1024 ≤ a
      · rw [hr.capped hlow (by linarith)]
      · have hrup := hr.halfUp ha (fun h => absurd h hlow)
        have hle := hrup.mono (halfUp_eight hgap.1 hgap.2) e4m3Grid_strictMono hab
        rcases hle.lt_or_eq with hlt | rfl
        · exact Nat.le_of_lt_succ hlt
        · have hmid := hrup.lower 7 rfl
          rw [e4m3Grid_seven, e4m3Grid_eight] at hmid
          exact absurd hmid (by linarith)

theorem roundTrip_mono (hff : f ≤ f') : distF8E4m3ToF32 (distF32ToF8E4m3 f) ≤ distF8E4m3ToF32 (distF32ToF8E4m3 f') := by
  obtain ⟨r, hr, hval⟩ := roundTrip_eq f
  obtain ⟨s, hs, hval'⟩ := roundTrip_eq f'
  have hr0 := e4m3Grid_nonneg r
  have hs0 := e4m3Grid_nonneg s
  rw [hval, hval', signRat, signRat]
  by_cases hf : f < 0
  · by_cases hf' : f' < 0
    · have habs : |f'| ≤ |f| := by
        rw [abs_of_neg hf, abs_of_neg hf']
        exact neg_le_neg hff
      have hgrid := e4m3Grid_strictMono.monotone (hs.mono hr habs)
      rw [if_pos hf, if_pos hf']
      linarith
    · rw [if_pos hf, if_neg hf']
      linarith
  · have hf' : ¬f' < 0 := by linarith
    have habs : |f| ≤ |f'| := by
      rw [abs_of_nonneg (le_of_not_gt hf), abs_of_nonneg (le_of_not_gt hf')]
      exact hff
    have hgrid := e4m3Grid_strictMono.monotone (hr.mono hs habs)
    rw [if_neg hf, if_neg hf']
    linarith

/-- A value of the format is no midpoint and does not lie in the capped range. -/
theorem Rounded.of_grid {n : Nat} (hn : n ≤ 0x77) (hr : Rounded (e4m3Grid n) r) : r = n := by
  rcases hn.eq_or_lt with rfl | hlt
  · exact hr.largest e4m3Grid_largest.ge
  · have hlargest : e4m3Grid n < 240 := e4m3Grid_largest ▸ e4m3Grid_strictMono hlt
    refine (hr.halfUp hlargest fun hlow => ?_).unique (halfUp_self e4m3Grid_strictMono n) e4m3Grid_strictMono
    by_contra hsmall
    rw [← e4m3Grid_eight, not_le] at hsmall
    have hn7 := e4m3Grid_strictMono.monotone (Nat.le_of_lt_succ (e4m3Grid_strictMono.lt_iff_lt.mp hsmall))
    rw [e4m3Grid_seven] at hn7
    exact absurd hlow (by linarith)

end

theorem roundTrip_decoded (h : UInt8) : distF8E4m3ToF32 (distF32ToF8E4m3 (distF8E4m3ToF32 h)) = distF8E4m3ToF32 h := by
  have hn : magnitudeE4m3 h ≤ 0x77 := Nat.min_le_right _ _
  have habs : |distF8E4m3ToF32 h| = e4m3Grid (magnitudeE4m3 h) := by
    rw [distF8E4m3ToF32_eq, signE4m3]
    split
    · rw [one_mul, abs_of_nonneg (e4m3Grid_nonneg _)]
    · rw [neg_one_mul, abs_neg, abs_of_nonneg (e4m3Grid_nonneg _)]
  obtain ⟨r, hround, hval⟩ := roundTrip_eq (distF8E4m3ToF32 h)
  rw [habs] at hround
  rw [hval, hround.of_grid hn, ← habs, signRat_mul_abs]

/-- No value of the format is nearer to `f` than `v`. -/
def Nearest (f v : ℚ) : Prop := ∀ h : UInt8, |f - v| ≤ |f - distF8E4m3ToF32 h|

section
variable {f : ℚ}

theorem nearest_of_between {r : Nat} (hb : Between e4m3Grid |f| r) : Nearest f (signRat f * e4m3Grid r) := fun h => by
  have hnear := hb.nearest_signed e4m3Grid_strictMono e4m3Grid_zero (abs_nonneg f) (abs_signRat f) (signE4m3_or f h)
    (magnitudeE4m3 h)
  rwa [signRat_mul_abs, ← distF8E4m3ToF32_eq] at hnear

/-- Above the midpoint the least normal number is nearer than the largest mantissa below it. -/
theorem not_nearest_capped (hlow : 15 / 1024 < |f|) (hup : |f| < 1 / 64) : ¬Nearest f (signRat f * e4m3Grid 7) := fun hn => by
  have hvalue : ∃ h : UInt8, distF8E4m3ToF32 h = signRat f * e4m3Grid 8 := by
    rw [signRat]
    split
    · exact ⟨0x88, distF8E4m3ToF32_eq 0x88⟩
    · exact ⟨0x08, distF8E4m3ToF32_eq 0x08⟩
  obtain ⟨h, hh⟩ := hvalue
  have hle := hn h
  have hdist : ∀ v, |f - signRat f * v| = abs (|f| - v) := fun v => by
    have hsub : f - signRat f * v = signRat f * (|f| - v) := by rw [mul_sub, signRat_mul_abs]
    rw [hsub, abs_mul, abs_signRat, one_mul]
  rw [hh, hdist, hdist, e4m3Grid_seven, e4m3Grid_eight, abs_of_nonneg (a := |f| - 7 / 512) (by linarith),
    abs_of_nonpos (a := |f| - 1 / 64) (by linarith)] at hle
  linarith

end

/-- The value after both conversions is the nearest one except above the last midpoint of the subnormal numbers. -/
theorem f8_round_trip {f : ℚ} (hf : |f| ≤ 240) (f' : ℚ) (h : UInt8) :
    (Nearest f (distF8E4m3ToF32 (distF32ToF8E4m3 f)) ↔ ¬(15 / 1024 < |f| ∧ |f| < 1 / 64)) ∧
    (f ≤ f' → distF8E4m3ToF32 (distF32ToF8E4m3 f) ≤ distF8E4m3ToF32 (distF32ToF8E4m3 f')) ∧
    distF8E4m3ToF32 (distF32ToF8E4m3 (distF8E4m3ToF32 h)) = distF8E4m3ToF32 h := by
  refine ⟨?_, roundTrip_mono, roundTrip_decoded h⟩
  obtain ⟨r, hround, hval⟩ := roundTrip_eq f
  rw [hval]
  constructor
  · intro hn hgap
    rw [hround.capped hgap.1.le hgap.2] at hn
    exact not_nearest_capped hgap.1 hgap.2 hn
  · intro hgap
    refine nearest_of_between ?_
    rcases hf.eq_or_lt with hlargest | hlt
    · rw [hround.largest hlargest.ge, hlargest, ← e4m3Grid_largest]
      exact (halfUp_self e4m3Grid_strictMono 0x77).between
    · by_cases hcapped : 15 / 1024 ≤ |f| → 1 / 64 ≤ |f|
      · exact (hround.halfUp hlt hcapped).between
      · -- the midpoint itself is as near to both
        rw [Classical.not_imp, not_le] at hcapped
        have hmid : |f| = 15 / 1024 := by
          by_contra hne
          exact hgap ⟨lt_of_le_of_ne hcapped.1 (Ne.symm hne), hcapped.2⟩
        rw [hround.capped hcapped.1 hcapped.2, hmid]
        refine ⟨fun q hq => ?_, ?_⟩
        · have hq6 := e4m3Grid_strictMono.monotone (show q ≤ 7 by omega)
          rw [e4m3Grid_seven] at *
          linarith
        · rw [e4m3Grid_seven, e4m3Grid_eight]
          norm_num

/-- A quarter unit above the midpoint of 7 / 512 and 8 / 512. -/
theorem f8_capped :
    |(31 / 2048 : ℚ)| ≤ 240 ∧ distF8E4m3ToF32 (distF32ToF8E4m3 (31 / 2048)) = 7 / 512 ∧
      distF8E4m3ToF32 0x08 = 8 / 512 ∧ ¬Nearest (31 / 2048) (distF8E4m3ToF32 (distF32ToF8E4m3 (31 / 2048))) := by
  have habs : |(31 / 2048 : ℚ)| = 31 / 2048 := abs_of_nonneg (by norm_num)
  have hsign : signRat (31 / 2048) = 1 := by
    rw [signRat]
    norm_num
  obtain ⟨r, hround, hval⟩ := roundTrip_eq (31 / 2048)
  rw [habs] at hround
  rw [hround.capped (by norm_num) (by norm_num)] at hval
  refine ⟨by rw [habs]; norm_num, ?_, ?_, ?_⟩
  · rw [hval, hsign, e4m3Grid_seven, one_mul]
  · have hs : signE4m3 0x08 = 1 := rfl
    have hm : magnitudeE4m3 0x08 = 8 := rfl
    rw [distF8E4m3ToF32_eq, hs, hm, e4m3Grid_eight]
    norm_num
  · rw [hval]
    exact not_nearest_capped (by rw [habs]; norm_num) (by rw [habs]; norm_num)

/-- The midpoint itself, a larger number, and the least normal value. -/
theorem f8_round_trip_midpoint :
    Nearest (15 / 1024) (distF8E4m3ToF32 (distF32ToF8E4m3 (15 / 1024))) ∧
      distF8E4m3ToF32 (distF32ToF8E4m3 (15 / 1024)) ≤ distF8E4m3ToF32 (distF32ToF8E4m3 (1 / 32)) ∧
      distF8E4m3ToF32 (distF32ToF8E4m3 (distF8E4m3ToF32 0x08)) = distF8E4m3ToF32 0x08 := by
  have habs : |(15 / 1024 : ℚ)| = 15 / 1024 := abs_of_nonneg (by norm_num)
  obtain ⟨hnear, hmono, hself⟩ := f8_round_trip (f := 15 / 1024) (by rw [habs]; norm_num) (1 / 32) 0x08
  exact ⟨hnear.mpr (by rw [habs]; norm_num), hmono (by norm_num), hself⟩

end Ds4.Dist
