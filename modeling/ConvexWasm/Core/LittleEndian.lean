import Mathlib

/-!
# Little-endian bytes

Numbers below a power of 256 and byte strings of that length determine each
other.
-/

namespace ConvexWasm

/-- Little endian, truncated to `width` bytes. -/
def littleEndian : ℕ → ℕ → List UInt8
  | 0, _ => []
  | width + 1, value => UInt8.ofNat (value % 256) :: littleEndian width (value / 256)

def readLittleEndian : List UInt8 → ℕ
  | [] => 0
  | byte :: bytes => byte.toNat + 256 * readLittleEndian bytes

@[simp]
theorem length_littleEndian (width value : ℕ) : (littleEndian width value).length = width := by
  induction width generalizing value with
  | zero => rfl
  | succ width ih => rw [littleEndian, List.length_cons, ih]

theorem readLittleEndian_littleEndian {width value : ℕ} (hvalue : value < 256 ^ width) :
    readLittleEndian (littleEndian width value) = value := by
  induction width generalizing value with
  | zero => exact (Nat.lt_one_iff.mp hvalue).symm
  | succ width ih =>
    have hhigh : value / 256 < 256 ^ width :=
      Nat.div_lt_of_lt_mul (by rwa [pow_succ, Nat.mul_comm] at hvalue)
    have hlow : (UInt8.ofNat (value % 256)).toNat = value % 256 := by
      rw [UInt8.toNat_ofNat']
      omega
    calc readLittleEndian (littleEndian (width + 1) value)
        = (UInt8.ofNat (value % 256)).toNat +
            256 * readLittleEndian (littleEndian width (value / 256)) := rfl
      _ = value % 256 + 256 * (value / 256) := by rw [hlow, ih hhigh]
      _ = value := Nat.mod_add_div value 256

theorem readLittleEndian_lt (bytes : List UInt8) : readLittleEndian bytes < 256 ^ bytes.length := by
  induction bytes with
  | nil => exact Nat.one_pos
  | cons byte bytes ih =>
    have hbyte := byte.toNat_lt
    calc byte.toNat + 256 * readLittleEndian bytes
        < 256 * (readLittleEndian bytes + 1) := by omega
      _ ≤ 256 * 256 ^ bytes.length := Nat.mul_le_mul_left 256 ih
      _ = 256 ^ (byte :: bytes).length := by rw [List.length_cons, pow_succ, Nat.mul_comm]

theorem littleEndian_readLittleEndian (bytes : List UInt8) :
    littleEndian bytes.length (readLittleEndian bytes) = bytes := by
  induction bytes with
  | nil => rfl
  | cons byte bytes ih =>
    have hbyte := byte.toNat_lt
    have hlow : (byte.toNat + 256 * readLittleEndian bytes) % 256 = byte.toNat := by omega
    have hhigh : (byte.toNat + 256 * readLittleEndian bytes) / 256 = readLittleEndian bytes := by
      omega
    rw [List.length_cons, littleEndian, readLittleEndian, hlow, hhigh, ih, UInt8.ofNat_toNat]

end ConvexWasm
