import Ds4.Lib.BinaryFormat

/-!
# Activations of 16 bits

`dist_f32_to_f16` and `dist_f16_to_f32` on the bit patterns of the two formats.
-/

namespace Ds4.Dist

/-- A significand that is shifted out is rounded up above one half, and at one half when what is left is odd. -/
def subnormalHalf (mant shift : UInt32) : UInt32 :=
  let halfMant := mant >>> shift
  let roundBit := (mant >>> (shift - 1)) &&& 1
  let sticky := mant &&& ((1 <<< (shift - 1)) - 1)
  if roundBit ≠ 0 ∧ (sticky ≠ 0 ∨ halfMant &&& 1 ≠ 0) then halfMant + 1 else halfMant

def distF32ToF16 (bits : UInt32) : UInt16 :=
  let sign := (bits >>> 16) &&& 0x8000
  let exp : Int := ((bits >>> 23) &&& 0xff).toNat - 127 + 15
  let mant := bits &&& 0x7fffff
  if exp ≤ 0 then
    if exp < -10 then sign.toUInt16
    else (sign ||| subnormalHalf (mant ||| 0x800000) (UInt32.ofNat (14 - exp).toNat)).toUInt16
  else if 31 ≤ exp then
    if (bits >>> 23) &&& 0xff = 0xff ∧ mant ≠ 0 then (sign ||| 0x7e00).toUInt16 else (sign ||| 0x7c00).toUInt16
  else
    let half := sign ||| (UInt32.ofNat exp.toNat <<< 10) ||| (mant >>> 13)
    let round := mant &&& 0x1fff
    if 0x1000 < round ∨ (round = 0x1000 ∧ half &&& 1 ≠ 0) then (half + 1).toUInt16 else half.toUInt16

/-- `while ((mant & 0x0400u) == 0)`: ten places at most for a fraction that is not zero. -/
def normalizeHalf : Nat → Int → UInt32 → Int × UInt32
  | 0, exp, mant => (exp, mant)
  | n + 1, exp, mant => if mant &&& 0x0400 = 0 then normalizeHalf n (exp - 1) (mant <<< 1) else (exp, mant)

/-- The pattern of a number that is not zero. -/
def packSingle (sign : UInt32) (exp : Int) (mant : UInt32) : UInt32 :=
  sign ||| (UInt32.ofNat (exp + 127 - 15).toNat <<< 23) ||| (mant <<< 13)

def distF16ToF32 (h : UInt16) : UInt32 :=
  let sign : UInt32 := (h &&& 0x8000).toUInt32 <<< 16
  let exp : Int := ((h >>> 10) &&& 0x1f).toNat
  let mant := (h &&& 0x03ff).toUInt32
  if exp = 0 then
    if mant = 0 then sign
    else
      let (exp, mant) := normalizeHalf 10 1 mant
      packSingle sign exp (mant &&& 0x03ff)
  else if exp = 31 then sign ||| (0x7f800000 : UInt32) ||| (mant <<< 13)
  else packSingle sign exp mant

end Ds4.Dist
