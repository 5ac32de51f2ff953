import Mathlib

/-!
# Rounding to doubles

A quotient of integers is rounded to the nearest number with a significand of
53 bits, and a tie to the even significand.  Exponents are not bounded here:
the rounding is that of doubles for magnitudes that are neither subnormal nor
too large.
-/

namespace ConvexWasm.DoubleRounding

variable (value : ℚ)

def roundHalfEven : ℤ :=
  if value - ⌊value⌋ < 1 / 2 then ⌊value⌋
  else if 1 / 2 < value - ⌊value⌋ then ⌊value⌋ + 1
  else if Even ⌊value⌋ then ⌊value⌋ else ⌊value⌋ + 1

theorem floor_le_roundHalfEven : ⌊value⌋ ≤ roundHalfEven value := by
  unfold roundHalfEven
  split_ifs <;> omega

theorem roundHalfEven_le_floor : roundHalfEven value ≤ ⌊value⌋ + 1 := by
  unfold roundHalfEven
  split_ifs <;> omega

theorem roundHalfEven_intCast (number : ℤ) : roundHalfEven number = number := by
  unfold roundHalfEven
  rw [Int.floor_intCast, sub_self, if_pos (by norm_num)]

theorem roundHalfEven_mono : Monotone roundHalfEven := by
  intro left right hle
  rcases (Int.floor_le_floor hle).lt_or_eq with hlt | heq
  · calc roundHalfEven left ≤ ⌊left⌋ + 1 := roundHalfEven_le_floor left
      _ ≤ ⌊right⌋ := hlt
      _ ≤ roundHalfEven right := floor_le_roundHalfEven right
  · have hrest : left - ⌊left⌋ ≤ right - ⌊right⌋ := by
      rw [heq]
      linarith
    unfold roundHalfEven
    rw [heq] at hrest ⊢
    split_ifs <;> first | omega | linarith

/-- The distance of neighbouring doubles at a positive number. -/
def spacing : ℚ := 2 ^ (Int.log 2 value - 52)

def toDouble : ℚ := roundHalfEven (value / spacing value) * spacing value

theorem spacing_pos : 0 < spacing value := zpow_pos (by norm_num) _

theorem spacing_mul : (2 ^ 52 : ℤ) * spacing value = 2 ^ Int.log 2 value := by
  rw [spacing, zpow_sub₀ (by norm_num)]
  ring

theorem pow_log_le_toDouble {value : ℚ} (hpos : 0 < value) :
    (2 : ℚ) ^ Int.log 2 value ≤ toDouble value := by
  have hbits : (2 ^ 52 : ℤ) ≤ roundHalfEven (value / spacing value) := by
    rw [← roundHalfEven_intCast (2 ^ 52)]
    apply roundHalfEven_mono
    rw [le_div_iff₀ (spacing_pos value), spacing_mul]
    exact_mod_cast Int.zpow_log_le_self (by norm_num) hpos
  rw [← spacing_mul]
  exact mul_le_mul_of_nonneg_right (by exact_mod_cast hbits) (spacing_pos value).le

theorem toDouble_le_pow_log {value : ℚ} : toDouble value ≤ 2 ^ (Int.log 2 value + 1) := by
  have hbits : roundHalfEven (value / spacing value) ≤ 2 ^ 53 := by
    rw [← roundHalfEven_intCast (2 ^ 53)]
    apply roundHalfEven_mono
    have hupper : value < 2 ^ (Int.log 2 value + 1) := by
      exact_mod_cast Int.lt_zpow_succ_log_self (by norm_num) value
    rw [div_le_iff₀ (spacing_pos value)]
    calc value ≤ 2 ^ (Int.log 2 value + 1) := hupper.le
      _ = 2 * ((2 ^ 52 : ℤ) * spacing value) := by
          rw [spacing_mul, zpow_add_one₀ (by norm_num), mul_comm]
      _ = ((2 ^ 53 : ℤ) : ℚ) * spacing value := by
          ring
  calc toDouble value ≤ ((2 ^ 53 : ℤ) : ℚ) * spacing value :=
        mul_le_mul_of_nonneg_right (by exact_mod_cast hbits) (spacing_pos value).le
    _ = 2 * ((2 ^ 52 : ℤ) * spacing value) := by
        ring
    _ = 2 ^ (Int.log 2 value + 1) := by
        rw [spacing_mul, zpow_add_one₀ (by norm_num), mul_comm]

/-- Rounding keeps the order of positive numbers. -/
theorem toDouble_mono {left right : ℚ} (hpos : 0 < left) (hle : left ≤ right) :
    toDouble left ≤ toDouble right := by
  rcases (Int.log_mono_right hpos hle : Int.log 2 left ≤ _).lt_or_eq with hlt | heq
  · calc toDouble left ≤ 2 ^ (Int.log 2 left + 1) := toDouble_le_pow_log
      _ ≤ 2 ^ Int.log 2 right := zpow_le_zpow_right₀ (by norm_num) (by omega)
      _ ≤ toDouble right := pow_log_le_toDouble (hpos.trans_le hle)
  · have hsame : spacing left = spacing right := by rw [spacing, spacing, heq]
    unfold toDouble
    rw [hsame]
    apply mul_le_mul_of_nonneg_right _ (spacing_pos right).le
    exact_mod_cast roundHalfEven_mono (div_le_div_of_nonneg_right hle (spacing_pos right).le)

theorem toDouble_one : toDouble 1 = 1 := by
  have hspacing : spacing 1 = 2 ^ (-52 : ℤ) := by
    rw [spacing, Int.log_one_right]
    norm_num
  have hquotient : (1 : ℚ) / 2 ^ (-52 : ℤ) = ((2 ^ 52 : ℤ) : ℚ) := by norm_num
  rw [toDouble, hspacing, hquotient, roundHalfEven_intCast]
  norm_num

example : toDouble (1 / 3) = 6004799503160661 / 2 ^ 54 := by decide +kernel

end ConvexWasm.DoubleRounding
