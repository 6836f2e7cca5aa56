import Mathlib.Algebra.Order.Ring.Abs
import Mathlib.Algebra.Ring.Parity
import Mathlib.Data.Int.ConditionallyCompleteOrder
import Mathlib.Order.Monotone.Basic
import Mathlib.Tactic.Linarith
import Mathlib.Tactic.Ring

/-!
# Rounding on a grid and binary formats

The values of a binary format are a strictly increasing grid over its patterns. A value is rounded to a point of a grid when
it lies between the midpoints next to this point; at a midpoint the point with the even index may be asked for.
-/

namespace BinaryFormat

section Grid
variable {K : Type} [CommRing K] [LinearOrder K] [IsStrictOrderedRing K] {g : Nat → K} {v w : K} {q r s : Nat}

/-- `v` lies between the midpoints next to the point `r`. -/
structure Between (g : Nat → K) (v : K) (r : Nat) : Prop where
  lower : ∀ q, r = q + 1 → g q + g r ≤ 2 * v
  upper : 2 * v ≤ g r + g (r + 1)

/-- At a midpoint the index is even. -/
structure RoundsEven (g : Nat → K) (v : K) (r : Nat) : Prop extends Between g v r where
  evenLower : ∀ q, r = q + 1 → g q + g r = 2 * v → Even r
  evenUpper : 2 * v = g r + g (r + 1) → Even r

/-- At a midpoint the upper point is taken. -/
structure HalfUp (g : Nat → K) (v : K) (r : Nat) : Prop where
  lower : ∀ q, r = q + 1 → g q + g r ≤ 2 * v
  upper : 2 * v < g r + g (r + 1)

theorem HalfUp.between (h : HalfUp g v r) : Between g v r := ⟨h.lower, h.upper.le⟩

theorem HalfUp.mono (hr : HalfUp g v r) (hs : HalfUp g w s) (hg : StrictMono g) (hvw : v ≤ w) : r ≤ s := by
  by_contra hlt
  obtain ⟨p, rfl⟩ := Nat.exists_eq_succ_of_ne_zero (Nat.ne_zero_of_lt (Nat.lt_of_not_le hlt))
  have hsp : s ≤ p := Nat.le_of_lt_succ (Nat.lt_of_not_le hlt)
  have hlow := hr.lower p rfl
  have hup := hs.upper
  have h1 := hg.monotone hsp
  have h2 := hg.monotone (Nat.succ_le_succ hsp)
  simp only [Nat.succ_eq_add_one] at *
  linarith

theorem HalfUp.unique (hr : HalfUp g v r) (hs : HalfUp g v s) (hg : StrictMono g) : r = s :=
  Nat.le_antisymm (hr.mono hs hg le_rfl) (hs.mono hr hg le_rfl)

theorem halfUp_self (hg : StrictMono g) (r : Nat) : HalfUp g (g r) r where
  lower q hq := by
    have := hg (show q < r by omega)
    linarith
  upper := by
    have := hg (Nat.lt_succ_self r)
    simp only [Nat.succ_eq_add_one] at this
    linarith

/-- No other point is nearer. -/
theorem Between.nearest (h : Between g v r) (hg : StrictMono g) (q : Nat) : |v - g r| ≤ |v - g q| := by
  rcases lt_trichotomy q r with hqr | rfl | hqr
  · obtain ⟨p, rfl⟩ := Nat.exists_eq_succ_of_ne_zero (Nat.ne_zero_of_lt hqr)
    have hlow := h.lower p rfl
    have hqp := hg.monotone (Nat.le_of_lt_succ hqr)
    have hpr := hg (Nat.lt_succ_self p)
    rw [abs_of_nonneg (a := v - g q) (by linarith), abs_le]
    constructor <;> linarith
  · exact le_refl _
  · have hup := h.upper
    have hrq := hg.monotone hqr
    have hrr := hg (Nat.lt_succ_self r)
    rw [abs_sub_comm v (g q), abs_of_nonneg (a := g q - v) (by simp only [Nat.succ_eq_add_one] at *; linarith), abs_le]
    constructor <;> simp only [Nat.succ_eq_add_one] at * <;> linarith

/-- Where another point is as near, the index is even. -/
theorem RoundsEven.even_of_tie (h : RoundsEven g v r) (hg : StrictMono g) (hne : q ≠ r) (htie : |v - g r| = |v - g q|) :
    Even r := by
  rcases Nat.lt_or_gt_of_ne hne with hqr | hqr
  · obtain ⟨p, rfl⟩ := Nat.exists_eq_succ_of_ne_zero (Nat.ne_zero_of_lt hqr)
    have hlow := h.lower p rfl
    have hqp := hg.monotone (Nat.le_of_lt_succ hqr)
    have hqr' := hg hqr
    refine h.evenLower p rfl (le_antisymm hlow ?_)
    rw [abs_of_nonneg (a := v - g q) (by linarith)] at htie
    rcases abs_choice (v - g p.succ) with hp | hp <;> rw [hp] at htie <;> linarith
  · have hup := h.upper
    have hrq := hg.monotone hqr
    have hqr' := hg hqr
    refine h.evenUpper (le_antisymm hup ?_)
    rw [Nat.succ_eq_add_one] at hrq
    rw [abs_sub_comm v (g q), abs_of_nonneg (a := g q - v) (by linarith)] at htie
    rcases abs_choice (v - g r) with hp | hp <;> rw [hp] at htie <;> linarith

theorem RoundsEven.mono (hr : RoundsEven g v r) (hs : RoundsEven g w s) (hg : StrictMono g) (hvw : v ≤ w) : r ≤ s := by
  by_contra hlt
  obtain ⟨p, rfl⟩ := Nat.exists_eq_succ_of_ne_zero (Nat.ne_zero_of_lt (Nat.lt_of_not_le hlt))
  have hsp : s ≤ p := Nat.le_of_lt_succ (Nat.lt_of_not_le hlt)
  have hlow := hr.lower p rfl
  have hup := hs.upper
  have h1 := hg.monotone hsp
  have h2 := hg.monotone (Nat.succ_le_succ hsp)
  simp only [Nat.succ_eq_add_one] at *
  -- both lie at the midpoint of two neighbours, of which one has an odd index
  have heq : s = p := hg.injective (by linarith)
  subst heq
  have he := hs.evenUpper (by linarith)
  have he' := hr.evenLower s rfl (by linarith)
  exact Nat.even_add_one.mp he' he

theorem RoundsEven.unique (hr : RoundsEven g v r) (hs : RoundsEven g v s) (hg : StrictMono g) : r = s :=
  Nat.le_antisymm (hr.mono hs hg le_rfl) (hs.mono hr hg le_rfl)

/-- A point of the grid is rounded to itself. -/
theorem roundsEven_self (hg : StrictMono g) (r : Nat) : RoundsEven g (g r) r := by
  have hup := hg (Nat.lt_succ_self r)
  refine ⟨⟨fun q hq => ?_, by simp only [Nat.succ_eq_add_one] at hup; linarith⟩, fun q hq heq => ?_, fun heq => ?_⟩
  · have := hg (show q < r by omega)
    linarith
  · have := hg (show q < r by omega)
    exact absurd heq (by linarith)
  · simp only [Nat.succ_eq_add_one] at hup
    exact absurd heq (by linarith)

/-- The midpoint above an odd point belongs to the next point. -/
theorem RoundsEven.above_odd (h : RoundsEven g v r) (hg : StrictMono g) (hodd : ¬Even s) :
    s < r ↔ g s + g (s + 1) ≤ 2 * v := by
  constructor
  · intro hsr
    obtain ⟨q, rfl⟩ := Nat.exists_eq_succ_of_ne_zero (Nat.ne_zero_of_lt hsr)
    have hlow := h.lower q rfl
    have h1 := hg.monotone (Nat.le_of_lt_succ hsr)
    have h2 := hg.monotone (Nat.succ_le_succ (Nat.le_of_lt_succ hsr))
    simp only [Nat.succ_eq_add_one] at *
    linarith
  · intro hmid
    by_contra hle
    have hrs : r ≤ s := Nat.le_of_not_lt hle
    have hup := h.upper
    have h1 := hg.monotone hrs
    have h2 := hg.monotone (Nat.succ_le_succ hrs)
    simp only [Nat.succ_eq_add_one] at *
    have heq : r = s := hg.injective (by linarith)
    subst heq
    exact hodd (h.evenUpper (by linarith))

/-- Between two neighbours the upper one is taken above the midpoint, and at it when the lower one is odd. -/
theorem roundsEven_of_floor (hg : StrictMono g) (hlow : g r ≤ v) (hup : v < g (r + 1)) {up : Prop} [Decidable up]
    (h : up ↔ g r + g (r + 1) < 2 * v ∨ g r + g (r + 1) = 2 * v ∧ ¬Even r) : RoundsEven g v (if up then r + 1 else r) := by
  have hnext := hg (Nat.lt_succ_self (r + 1))
  simp only [Nat.succ_eq_add_one] at hnext
  by_cases hu : up
  · rw [if_pos hu]
    have hmid := h.mp hu
    refine ⟨⟨fun q hq => ?_, by linarith⟩, fun q hq heq => ?_, fun heq => absurd heq (by linarith)⟩
    · rw [← Nat.succ.inj hq]
      rcases hmid with hmid | hmid
      · exact hmid.le
      · exact hmid.1.le
    · rw [← Nat.succ.inj hq] at heq
      rcases hmid with hmid | hmid
      · exact absurd heq hmid.ne
      · exact Nat.even_add_one.mpr hmid.2
  · rw [if_neg hu]
    rw [h, not_or, not_and_not_right] at hu
    refine ⟨⟨fun q hq => ?_, le_of_not_gt hu.1⟩, fun q hq heq => ?_, fun heq => hu.2 heq.symm⟩
    · have := hg (show q < r by omega)
      linarith
    · have := hg (show q < r by omega)
      exact absurd heq (by linarith)

/-- A quotient `t` with the remainder `rem` in the unit `w`, between two points that are `2 * half` units apart. -/
theorem roundsEven_of_rem (hg : StrictMono g) {t half rem : Nat} (hw : 0 < w) (hrem : rem < 2 * half)
    (hv : v = (2 * half * t + rem) * w) (hr : g r = 2 * half * t * w) (hr' : g (r + 1) = 2 * half * (t + 1) * w)
    {up : Prop} [Decidable up] (h : up ↔ half < rem ∨ rem = half ∧ ¬Even r) : RoundsEven g v (if up then r + 1 else r) := by
  have hremw : (0 : K) ≤ rem * w := mul_nonneg (Nat.cast_nonneg _) hw.le
  have hrem' : (rem : K) * w < 2 * half * w := mul_lt_mul_of_pos_right (by exact_mod_cast hrem) hw
  have hcmp : g r + g (r + 1) < 2 * v ↔ half < rem := by
    have hlt : (half : K) * w < rem * w ↔ half < rem := by rw [mul_lt_mul_iff_left₀ hw, Nat.cast_lt]
    rw [← hlt, hv, hr, hr']
    constructor <;> intro h <;> linarith
  have hcmp' : g r + g (r + 1) = 2 * v ↔ rem = half := by
    have heq : (rem : K) * w = half * w ↔ rem = half := by rw [mul_left_inj' hw.ne', Nat.cast_inj]
    rw [← heq, hv, hr, hr']
    constructor <;> intro h <;> linarith
  refine roundsEven_of_floor hg ?_ ?_ ?_
  · rw [hr, hv]
    linarith
  · rw [hr', hv]
    linarith
  · rw [h, hcmp, hcmp']

/-- A finer unit does not matter. -/
theorem RoundsEven.scale (h : RoundsEven g v r) (hw : 0 < w) : RoundsEven (fun n => g n * w) (v * w) r where
  lower q hq := by
    have := mul_le_mul_of_nonneg_right (h.lower q hq) hw.le
    linarith
  upper := by
    have := mul_le_mul_of_nonneg_right h.upper hw.le
    linarith
  evenLower q hq heq := h.evenLower q hq (mul_right_cancel₀ hw.ne' (by linarith))
  evenUpper heq := h.evenUpper (mul_right_cancel₀ hw.ne' (by linarith))

/-- With signs the nearest point is on the side of the value. -/
theorem Between.nearest_signed (h : Between g v r) (hg : StrictMono g) (h0 : g 0 = 0) (hv : 0 ≤ v) {s t : K}
    (hs : |s| = 1) (ht : t = s ∨ t = -s) (q : Nat) : |s * v - s * g r| ≤ |s * v - t * g q| := by
  have hq : 0 ≤ g q := h0 ▸ hg.monotone (Nat.zero_le q)
  rw [← mul_sub, abs_mul, hs, one_mul]
  rcases ht with rfl | rfl
  · rw [← mul_sub, abs_mul, hs, one_mul]
    exact h.nearest hg q
  · have hzero := h.nearest hg 0
    rw [h0, sub_zero, abs_of_nonneg hv] at hzero
    rw [neg_mul, sub_neg_eq_add, ← mul_add, abs_mul, hs, one_mul, abs_of_nonneg (add_nonneg hv hq)]
    linarith

theorem RoundsEven.even_of_tie_signed (h : RoundsEven g v r) (hg : StrictMono g) (h0 : g 0 = 0) (hv : 0 ≤ v) {s t : K}
    (hs : |s| = 1) (ht : t = s ∨ t = -s) (htie : |s * v - s * g r| = |s * v - t * g q|) (hne : s * g r ≠ t * g q) :
    Even r := by
  have hq : 0 ≤ g q := h0 ▸ hg.monotone (Nat.zero_le q)
  rw [← mul_sub, abs_mul, hs, one_mul] at htie
  rcases ht with rfl | rfl
  · rw [← mul_sub, abs_mul, hs, one_mul] at htie
    exact h.even_of_tie hg (fun heq => hne (by rw [heq])) htie
  · rw [neg_mul, sub_neg_eq_add, ← mul_add, abs_mul, hs, one_mul, abs_of_nonneg (add_nonneg hv hq)] at htie
    -- the other side is as near only at zero
    rcases Nat.eq_zero_or_pos r with rfl | hr
    · exact Even.zero
    · have hzero := h.nearest hg 0
      rw [h0, sub_zero, abs_of_nonneg hv] at hzero
      refine h.even_of_tie hg hr.ne ?_
      rw [h0, sub_zero, abs_of_nonneg hv]
      linarith

/-- The grid and its mirror image below zero. -/
def signedGrid (g : Nat → K) : Int → K
  | .ofNat n => g n
  | .negSucc n => -g (n + 1)

theorem signedGrid_strictMono (hg : StrictMono g) (h0 : g 0 = 0) : StrictMono (signedGrid g) :=
  strictMono_int_of_lt_succ fun k =>
    match k with
    | .ofNat n => hg (Nat.lt_succ_self n)
    | .negSucc 0 => by
      show -g 1 < g 0
      have := hg (Nat.lt_succ_self 0)
      rw [h0] at *
      exact neg_neg_of_pos this
    | .negSucc (n + 1) => neg_lt_neg (hg (Nat.lt_succ_self (n + 1)))

end Grid

/-! ## Formats -/

/-- The value of the pattern `n` without a sign in a format with `p` bits behind the point, in the least unit. -/
def mag (p n : Nat) : Nat := if n / 2 ^ p = 0 then n % 2 ^ p else (2 ^ p + n % 2 ^ p) * 2 ^ (n / 2 ^ p - 1)

section
variable {p e m n : Nat}

theorem mag_small (h : n ≤ 2 ^ p) : mag p n = n := by
  rcases h.eq_or_lt with rfl | h
  · rw [mag, Nat.div_self (Nat.two_pow_pos p), Nat.mod_self]
    simp
  · rw [mag, Nat.div_eq_of_lt h, if_pos rfl, Nat.mod_eq_of_lt h]

/-- A fraction that has come to the end of its range gives the next exponent. -/
theorem mag_normal (hm : m ≤ 2 ^ p) : mag p ((e + 1) * 2 ^ p + m) = (2 ^ p + m) * 2 ^ e := by
  have hpos := Nat.two_pow_pos p
  rcases hm.eq_or_lt with rfl | hm
  · have heq : (e + 1) * 2 ^ p + 2 ^ p = 2 ^ p * (e + 2) := by ring
    rw [mag, heq, Nat.mul_div_cancel_left _ hpos, Nat.mul_mod_right, if_neg (by omega)]
    show (2 ^ p + 0) * 2 ^ (e + 1) = _
    ring
  · rw [mag, Nat.add_comm, Nat.add_mul_div_right _ _ hpos, Nat.div_eq_of_lt hm, Nat.add_mul_mod_self_right,
      Nat.mod_eq_of_lt hm, if_neg (by omega)]
    congr 2
    omega

theorem mag_succ (p n : Nat) : mag p (n + 1) = mag p n + 2 ^ (n / 2 ^ p - 1) := by
  have hlt := Nat.mod_lt n (Nat.two_pow_pos p)
  have hdiv := Nat.div_add_mod' n (2 ^ p)
  generalize n / 2 ^ p = e at hdiv
  generalize n % 2 ^ p = m at hlt hdiv
  subst hdiv
  cases e with
  | zero =>
    rw [Nat.zero_mul, Nat.zero_add, mag_small hlt.le, mag_small hlt]
    rfl
  | succ e =>
    rw [Nat.add_assoc, mag_normal hlt.le, mag_normal hlt, Nat.succ_sub_one, Nat.succ_eq_add_one]
    ring

theorem mag_strictMono (p : Nat) : StrictMono (mag p) :=
  strictMono_nat_of_lt_succ fun n => by
    rw [mag_succ]
    exact Nat.lt_add_of_pos_right (Nat.two_pow_pos _)

end

/-! ### Patterns with a sign

`p` bits behind the point and `w` bits of exponent, of which the highest value stands for what is not finite. -/

variable (p w n : Nat)

def negative : Nat := n / 2 ^ (p + w)

/-- The pattern without its sign. -/
def unsigned : Nat := n % 2 ^ (p + w)

def infPattern : Nat := (2 ^ w - 1) * 2 ^ p

def IsFinite : Prop := unsigned p w n < infPattern p w

def IsInf : Prop := unsigned p w n = infPattern p w

def IsNan : Prop := infPattern p w < unsigned p w n

instance : Decidable (IsFinite p w n) := inferInstanceAs (Decidable (_ < _))

instance : Decidable (IsInf p w n) := inferInstanceAs (Decidable (_ = _))

instance : Decidable (IsNan p w n) := inferInstanceAs (Decidable (_ < _))

def signOf : ℚ := if negative p w n = 0 then 1 else -1

/-- The least unit is `2 ^ -(p + 2 ^ (w - 1) - 2)`. -/
def value : ℚ := signOf p w n * (mag p (unsigned p w n) * (1 / 2 ^ (p + 2 ^ (w - 1) - 2)))

/-- The order of the patterns that are numbers or infinities. -/
def AtMost (m n : Nat) : Prop :=
  (IsInf p w m ∧ negative p w m ≠ 0) ∨ (IsInf p w n ∧ negative p w n = 0) ∨
    (IsFinite p w m ∧ IsFinite p w n ∧ value p w m ≤ value p w n)

/-- The pattern as a number with the sign in front. -/
def key : Int := if negative p w n = 0 then (unsigned p w n : Int) else -(unsigned p w n : Int)

theorem value_eq_key : value p w n = signedGrid (fun k => (mag p k : ℚ) * (1 / 2 ^ (p + 2 ^ (w - 1) - 2))) (key p w n) := by
  rw [value, signOf, key]
  split
  · exact one_mul _
  · cases unsigned p w n with
    | zero => simp [signedGrid, mag]
    | succ k => exact neg_one_mul _

variable {p w n}

theorem value_le_iff {m : Nat} : value p w m ≤ value p w n ↔ key p w m ≤ key p w n := by
  rw [value_eq_key, value_eq_key]
  refine (signedGrid_strictMono (fun a b hab => ?_) (by simp [mag])).le_iff_le
  have hlt : (mag p a : ℚ) < mag p b := by exact_mod_cast mag_strictMono p hab
  have hunit : (0 : ℚ) < 1 / 2 ^ (p + 2 ^ (w - 1) - 2) := one_div_pos.mpr (pow_pos two_pos _)
  exact mul_lt_mul_of_pos_right hlt hunit

theorem atMost_iff {m : Nat} (hw : 0 < w) (hm : ¬IsNan p w m) (hn : ¬IsNan p w n) :
    AtMost p w m n ↔ key p w m ≤ key p w n := by
  have hpos : 0 < infPattern p w := Nat.mul_pos (Nat.sub_pos_of_lt (Nat.one_lt_two_pow hw.ne')) (Nat.two_pow_pos p)
  rw [AtMost, value_le_iff, IsInf, IsInf, IsFinite, IsFinite, key, key]
  rw [IsNan] at hm hn
  split <;> split <;> omega

end BinaryFormat
