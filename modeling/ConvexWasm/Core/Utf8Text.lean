import Mathlib

/-!
# Text as UTF-8 bytes

The bytes of a text split between any two of its characters into the bytes of two
texts, and pieces that are texts are a text together.
-/

namespace ConvexWasm.Utf8Text

/-- The bytes encode a text. -/
def Utf8 (bytes : List UInt8) : Prop :=
  ∃ text : List Char, text.flatMap String.utf8EncodeChar = bytes

def bytesOf (source : String) : List UInt8 := source.toUTF8.data.toList

def fromUtf8 (bytes : List UInt8) : Option String := String.fromUTF8? ⟨bytes.toArray⟩

/-- The offset is an end, or a byte stands there that continues no character. -/
def isCharBoundary (bytes : List UInt8) (offset : ℕ) : Bool :=
  offset == 0 ||
    match bytes[offset]? with
    | some byte => byte < 128 || 192 ≤ byte
    | none => offset == bytes.length

/-- The bytes between two offsets. -/
def between (bytes : List UInt8) (start stop : ℕ) : List UInt8 := (bytes.take stop).drop start

variable {result : String} {bytes before after : List UInt8}

theorem utf8_nil : Utf8 [] := ⟨[], rfl⟩

theorem Utf8.append (hbefore : Utf8 before) (hafter : Utf8 after) : Utf8 (before ++ after) := by
  obtain ⟨first, rfl⟩ := hbefore
  obtain ⟨second, rfl⟩ := hafter
  exact ⟨first ++ second, List.flatMap_append⟩

theorem isValidUTF8_iff : (ByteArray.mk bytes.toArray).IsValidUTF8 ↔ Utf8 bytes := by
  have harray : ∀ text : List Char,
      (ByteArray.mk bytes.toArray = text.utf8Encode ↔
        text.flatMap String.utf8EncodeChar = bytes) := by
    intro text
    rw [List.utf8Encode, ByteArray.ext_iff, ← Array.toList_inj, List.data_toByteArray]
    exact eq_comm
  constructor
  · rintro ⟨text, htext⟩
    exact ⟨text, (harray text).mp htext⟩
  · rintro ⟨text, htext⟩
    exact ⟨text, (harray text).mpr htext⟩

theorem utf8_bytesOf (source : String) : Utf8 (bytesOf source) :=
  isValidUTF8_iff.mp source.isValidUTF8

theorem fromUtf8_eq_some : fromUtf8 bytes = some result ↔ bytesOf result = bytes := by
  rw [fromUtf8, String.fromUTF8?]
  constructor
  · intro hresult
    split at hresult
    · cases hresult
      rfl
    · cases hresult
  · rintro rfl
    exact dif_pos result.isValidUTF8

theorem exists_fromUtf8 (hutf8 : Utf8 bytes) : ∃ result, fromUtf8 bytes = some result :=
  ⟨_, dif_pos (isValidUTF8_iff.mpr hutf8)⟩

variable {offset : ℕ}

theorem continues_ofNat (value : ℕ) :
    128 ≤ UInt8.ofNat (value % 64 + 128) ∧ UInt8.ofNat (value % 64 + 128) < 192 := by
  have htoNat : (UInt8.ofNat (value % 64 + 128)).toNat = value % 64 + 128 := by
    rw [UInt8.toNat_ofNat']
    omega
  rw [UInt8.le_iff_toNat_le, UInt8.lt_iff_toNat_lt, htoNat]
  exact ⟨Nat.le_add_left 128 _, by simp; omega⟩

/-- Every byte of a character but its first continues it. -/
theorem continues_of_utf8EncodeChar {symbol : Char} {byte : UInt8}
    (hbyte : (String.utf8EncodeChar symbol)[offset + 1]? = some byte) :
    128 ≤ byte ∧ byte < 192 := by
  have hmem : byte ∈ (String.utf8EncodeChar symbol).tail := by
    rw [← List.getElem?_tail] at hbyte
    exact List.mem_of_getElem? hbyte
  rw [String.utf8EncodeChar] at hmem
  split_ifs at hmem
  · cases hmem
  all_goals
    simp only [List.tail_cons, List.mem_cons, List.not_mem_nil, or_false] at hmem
    obtain rfl | rfl | rfl := hmem
    all_goals exact continues_ofNat _

/-- The bytes of a text are split by an offset between two characters. -/
theorem Utf8.split (hutf8 : Utf8 bytes) (hboundary : isCharBoundary bytes offset = true) :
    Utf8 (bytes.take offset) ∧ Utf8 (bytes.drop offset) := by
  obtain ⟨text, rfl⟩ := hutf8
  induction text generalizing offset with
  | nil => simp [utf8_nil]
  | cons symbol rest ih =>
    rw [List.flatMap_cons] at hboundary ⊢
    cases offset with
    | zero => exact ⟨utf8_nil, symbol :: rest, rfl⟩
    | succ offset =>
      by_cases hinside : offset + 1 < (String.utf8EncodeChar symbol).length
      · rw [isCharBoundary, List.getElem?_append_left hinside,
          List.getElem?_eq_getElem hinside] at hboundary
        have hcontinues :=
          continues_of_utf8EncodeChar (List.getElem?_eq_getElem hinside)
        simp only [Bool.or_eq_true, decide_eq_true_eq, UInt8.le_iff_toNat_le,
          UInt8.lt_iff_toNat_lt] at hboundary
        obtain hzero | hlt | hle := hboundary
        · cases hzero
        · exact absurd hlt (not_lt.mpr hcontinues.1)
        · exact absurd hle (not_le.mpr hcontinues.2)
      · obtain ⟨later, hlater⟩ := Nat.exists_eq_add_of_le (not_lt.mp hinside)
        rw [hlater, List.take_length_add_append, List.drop_length_add_append]
        have hrest : isCharBoundary (rest.flatMap String.utf8EncodeChar) later = true := by
          rw [isCharBoundary, hlater, List.getElem?_append_right (Nat.le_add_right _ _),
            Nat.add_sub_cancel_left, List.length_append] at hboundary
          rw [isCharBoundary]
          cases later with
          | zero => rfl
          | succ later =>
            cases hbyte : (rest.flatMap String.utf8EncodeChar)[later + 1]? with
            | none => simpa [hbyte] using hboundary
            | some byte => simpa [hbyte] using hboundary
        obtain ⟨hbefore, hafter⟩ := ih hrest
        exact ⟨Utf8.append ⟨[symbol], by simp⟩ hbefore, hafter⟩

theorem utf8_of_ascii (hascii : ∀ byte ∈ bytes, byte < 128) : Utf8 bytes := by
  have hbyte : ∀ byte : UInt8, byte < 128 →
      String.utf8EncodeChar (Char.ofNat byte.toNat) = [byte] := by decide +kernel
  induction bytes with
  | nil => exact utf8_nil
  | cons byte rest ih =>
    rw [List.forall_mem_cons] at hascii
    have hfirst : Utf8 [byte] := ⟨[Char.ofNat byte.toNat], by simp [hbyte byte hascii.1]⟩
    exact hfirst.append (ih hascii.2)

end ConvexWasm.Utf8Text
