import Mathlib

/-!
# Numbers of the guest

Numbers are doubles, with one value that is not a number.  A finite number is
a sign, a biased exponent and a fraction; its magnitude counts units of the
smallest subnormal.
-/

namespace ConvexWasm.Guest

inductive JsNumber
  | nan
  | infinity (negative : Bool)
  | finite (negative : Bool) (exponent : Fin 2047) (fraction : Fin (2 ^ 52))
  deriving DecidableEq

namespace JsNumber

def signBit (negative : Bool) : ℕ :=
  if negative then 2 ^ 63 else 0

/-- The bits in memory; the engine writes the quiet form of what is no number. -/
def toBits : JsNumber → ℕ
  | nan => 2047 * 2 ^ 52 + 2 ^ 51
  | infinity negative => signBit negative + 2047 * 2 ^ 52
  | finite negative exponent fraction => signBit negative + exponent * 2 ^ 52 + fraction

def ofBits (bits : ℕ) : JsNumber :=
  let negative := decide (bits / 2 ^ 63 % 2 = 1)
  if hexponent : bits / 2 ^ 52 % 2048 < 2047 then
    finite negative ⟨bits / 2 ^ 52 % 2048, hexponent⟩
      ⟨bits % 2 ^ 52, Nat.mod_lt _ (Nat.two_pow_pos 52)⟩
  else if bits % 2 ^ 52 = 0 then infinity negative
  else nan

/-- The magnitude of a finite number in units of `2 ^ -1074`. -/
def units (exponent : Fin 2047) (fraction : Fin (2 ^ 52)) : ℕ :=
  if exponent.val = 0 then fraction else (2 ^ 52 + fraction) * 2 ^ (exponent.val - 1)

/-- `1 / value === -Infinity`.  The quotient of a finite number rounds to
infinity when its magnitude is `2 ^ 1024 - 2 ^ 970` or more, as for zero. -/
def reciprocalIsNegativeInfinity : JsNumber → Bool
  | finite true exponent fraction =>
    decide (units exponent fraction * (2 ^ 1024 - 2 ^ 970) ≤ 2 ^ 1074)
  | _ => false

/-- What the encoder writes with a tag and the restorer accepts under one. -/
def isTagged : JsNumber → Bool
  | nan | infinity _ => true
  | number => number.reciprocalIsNegativeInfinity

/-- Not a number, infinite or negative zero. -/
def isSpecial : JsNumber → Bool
  | nan | infinity _ => true
  | finite negative exponent fraction => negative && decide (units exponent fraction = 0)

/-- Negative and not zero, but so small that the reciprocal overflows. -/
def isTiny : JsNumber → Bool
  | finite negative exponent fraction =>
    negative && decide (0 < units exponent fraction ∧ units exponent fraction ≤ 2 ^ 50)
  | _ => false

theorem overflow_iff (count : ℕ) : count * (2 ^ 1024 - 2 ^ 970) ≤ 2 ^ 1074 ↔ count ≤ 2 ^ 50 := by
  have hthreshold : 2 ^ 1024 - 2 ^ 970 = 2 ^ 970 * (2 ^ 54 - 1) := by
    rw [Nat.mul_sub, ← pow_add, Nat.mul_one]
  have hunits : 2 ^ 1074 = 2 ^ 970 * 2 ^ 104 := by rw [← pow_add]
  calc count * (2 ^ 1024 - 2 ^ 970) ≤ 2 ^ 1074
      ↔ 2 ^ 970 * (count * (2 ^ 54 - 1)) ≤ 2 ^ 970 * 2 ^ 104 := by
        rw [hthreshold, hunits, Nat.mul_left_comm]
    _ ↔ count * (2 ^ 54 - 1) ≤ 2 ^ 104 := Nat.mul_le_mul_left_iff (Nat.two_pow_pos 970)
    _ ↔ count ≤ 2 ^ 50 := by
        omega

/-- The test by reciprocal also takes the tiny negative numbers. -/
theorem isTagged_iff (number : JsNumber) :
    number.isTagged = true ↔ number.isSpecial = true ∨ number.isTiny = true := by
  cases number with
  | nan | infinity _ => simp [isTagged, isSpecial]
  | finite negative exponent fraction =>
    cases negative with
    | false => simp [isTagged, reciprocalIsNegativeInfinity, isSpecial, isTiny]
    | true =>
      simp only [isTagged, reciprocalIsNegativeInfinity, isSpecial, isTiny, Bool.true_and,
        decide_eq_true_eq, overflow_iff]
      omega

theorem isTiny_not_special {number : JsNumber} (htiny : number.isTiny = true) :
    number.isSpecial = false := by
  cases number with
  | nan | infinity _ => cases htiny
  | finite negative exponent fraction =>
    simp only [isTiny, Bool.and_eq_true, decide_eq_true_eq] at htiny
    simp only [isSpecial, Bool.and_eq_false_iff, decide_eq_false_iff_not]
    exact .inr (by omega)

theorem toBits_lt (number : JsNumber) : number.toBits < 2 ^ 64 := by
  cases number with
  | nan => norm_num [toBits]
  | infinity negative => cases negative <;> norm_num [toBits, signBit]
  | finite negative exponent fraction =>
    cases negative <;> simp only [toBits, signBit] <;> norm_num at * <;> omega

/-- The three fields of the bits of a finite number. -/
theorem fields_of_bits {sign exponent fraction : ℕ} (hsign : sign ≤ 1) (hexponent : exponent < 2048)
    (hfraction : fraction < 2 ^ 52) :
    (sign * 2 ^ 63 + exponent * 2 ^ 52 + fraction) / 2 ^ 63 % 2 = sign ∧
      (sign * 2 ^ 63 + exponent * 2 ^ 52 + fraction) / 2 ^ 52 % 2048 = exponent ∧
      (sign * 2 ^ 63 + exponent * 2 ^ 52 + fraction) % 2 ^ 52 = fraction := by
  omega

theorem signBit_eq (negative : Bool) : signBit negative = negative.toNat * 2 ^ 63 := by
  cases negative
  all_goals rfl

/-- Every number is read back from its bits. -/
theorem ofBits_toBits (number : JsNumber) : ofBits number.toBits = number := by
  cases number with
  | nan => rfl
  | infinity negative => cases negative <;> rfl
  | finite negative exponent fraction =>
    have hexponent := exponent.isLt
    obtain ⟨hsign, hmiddle, hlow⟩ := fields_of_bits (Bool.toNat_le negative)
      (hexponent.trans (by decide)) fraction.isLt
    have hbits : (finite negative exponent fraction).toBits =
        negative.toNat * 2 ^ 63 + exponent * 2 ^ 52 + fraction := by
      rw [toBits, signBit_eq]
    rw [hbits, ofBits]
    have hlt : (negative.toNat * 2 ^ 63 + exponent * 2 ^ 52 + fraction) / 2 ^ 52 % 2048 <
        2047 := by rw [hmiddle]; exact hexponent
    rw [dif_pos hlt]
    congr 1
    · rw [hsign]
      cases negative
      all_goals rfl
    · exact Fin.ext hmiddle
    · exact Fin.ext hlow

/-- Only bits that are no number are changed by reading and writing. -/
theorem toBits_ofBits {bits : ℕ} (hbits : bits < 2 ^ 64) (hnumber : ofBits bits ≠ nan) :
    (ofBits bits).toBits = bits := by
  have hsign : signBit (decide (bits / 2 ^ 63 % 2 = 1)) = bits / 2 ^ 63 * 2 ^ 63 := by
    have hhigh : bits / 2 ^ 63 < 2 := by
      omega
    obtain h | h : bits / 2 ^ 63 = 0 ∨ bits / 2 ^ 63 = 1 := by omega
    all_goals rw [h]; rfl
  unfold ofBits at hnumber ⊢
  by_cases hexponent : bits / 2 ^ 52 % 2048 < 2047
  · rw [dif_pos hexponent, toBits, hsign]
    norm_num at *
    omega
  · rw [dif_neg hexponent] at hnumber ⊢
    by_cases hfraction : bits % 2 ^ 52 = 0
    · rw [if_pos hfraction, toBits, hsign]
      omega
    · rw [if_neg hfraction] at hnumber
      exact absurd rfl hnumber

end JsNumber

end ConvexWasm.Guest
