import Mathlib

/-!
# Files as bytes

Positioned reads and writes of a file of bytes.
-/

namespace ConvexWasm

open List

/-- The bytes between two offsets, as far as the file reaches. -/
def slice (offset length : ℕ) (file : List UInt8) : List UInt8 :=
  (file.drop offset).take length

def readExactAt (offset length : ℕ) (file : List UInt8) : Option (List UInt8) :=
  if offset + length ≤ file.length then some (slice offset length file) else none

/-- A gap before the offset is filled with zeros. -/
def writeAllAt (offset : ℕ) (bytes file : List UInt8) : List UInt8 :=
  file.take offset ++ List.replicate (offset - file.length) 0 ++ bytes ++
    file.drop (offset + bytes.length)

variable {offset other length : ℕ} {bytes file : List UInt8}

/-- A slice of a slice. -/
theorem slice_slice {inner count : ℕ} (hinner : inner + count ≤ length) :
    slice inner count (slice offset length file) = slice (offset + inner) count file := by
  rw [slice, slice, slice, drop_take, drop_drop, take_take,
    min_eq_left (by omega)]

variable (hwithin : offset + bytes.length ≤ file.length)
include hwithin

theorem writeAllAt_eq :
    writeAllAt offset bytes file =
      file.take offset ++ bytes ++ file.drop (offset + bytes.length) := by
  rw [writeAllAt, Nat.sub_eq_zero_of_le (by omega), replicate_zero, List.append_nil]

theorem length_writeAllAt : (writeAllAt offset bytes file).length = file.length := by
  rw [writeAllAt_eq hwithin]
  simp only [length_append, length_take, length_drop]
  omega

/-- What was written is read. -/
theorem slice_writeAllAt_self :
    slice offset bytes.length (writeAllAt offset bytes file) = bytes := by
  have hfront : (file.take offset).length = offset := by
    rw [length_take]
    omega
  rw [writeAllAt_eq hwithin, slice, append_assoc, drop_left' hfront, take_left]

theorem slice_writeAllAt_before (hbefore : other + length ≤ offset) :
    slice other length (writeAllAt offset bytes file) = slice other length file := by
  have hfront : (file.take offset).length = offset := by
    rw [length_take]
    omega
  calc slice other length (writeAllAt offset bytes file)
      = slice other length (file.take offset) := by
        rw [writeAllAt_eq hwithin, slice, slice, append_assoc,
          drop_append_of_le_length (by omega),
          take_append_of_le_length (by rw [length_drop]; omega)]
    _ = slice other length (slice 0 offset file) := by rw [slice, slice, slice, drop_zero]
    _ = slice (0 + other) length file := slice_slice hbefore
    _ = slice other length file := by rw [Nat.zero_add]

theorem slice_writeAllAt_after (hafter : offset + bytes.length ≤ other) :
    slice other length (writeAllAt offset bytes file) = slice other length file := by
  have hfront : (file.take offset ++ bytes).length = offset + bytes.length := by
    rw [length_append, length_take]
    omega
  rw [writeAllAt_eq hwithin, slice, slice, drop_append,
    drop_eq_nil_of_le (by omega), hfront, nil_append, drop_drop,
    Nat.add_sub_cancel' hafter]

end ConvexWasm
