import Mathlib

/-!
# JavaScript string order

JavaScript compares strings by their UTF-16 code units.  Lean compares code
points, which differs above the basic plane, so the order used by the cache
tools is stated here on code units.
-/

namespace ConvexWasm.JsText

/-- UTF-16 code units of one Unicode scalar value. -/
def codeUnits (char : Char) : List ℕ :=
  if char.toNat < 0x10000 then [char.toNat]
  else [0xD800 + (char.toNat - 0x10000) / 0x400,
    0xDC00 + (char.toNat - 0x10000) % 0x400]

def utf16 (text : String) : List ℕ :=
  text.toList.flatMap codeUnits

/-- `left <= right` as JavaScript orders strings. -/
def compareStringsLe (left right : String) : Prop :=
  utf16 left ≤ utf16 right

instance (left right : String) : Decidable (compareStringsLe left right) :=
  inferInstanceAs (Decidable (utf16 left ≤ utf16 right))

section Injectivity

variable {char other : Char} {rest later : List ℕ}

/-- A character is read back from the front of the code units. -/
theorem codeUnits_append_inj (heq : codeUnits char ++ rest = codeUnits other ++ later) :
    char = other ∧ rest = later := by
  have hchar : char.toNat < 0xD800 ∨ (0xDFFF < char.toNat ∧ char.toNat < 0x110000) := char.valid
  have hother : other.toNat < 0xD800 ∨ (0xDFFF < other.toNat ∧ other.toNat < 0x110000) :=
    other.valid
  have hinj : char.toNat = other.toNat → char = other := fun hnat =>
    Char.ext (UInt32.toNat_inj.mp hnat)
  unfold codeUnits at heq
  split_ifs at heq with hshort hlong hlong
  · obtain ⟨hfirst, hrest⟩ := List.cons.inj heq
    exact ⟨hinj hfirst, hrest⟩
  · obtain ⟨hfirst, -⟩ := List.cons.inj heq
    omega
  · obtain ⟨hfirst, -⟩ := List.cons.inj heq
    omega
  · obtain ⟨hfirst, hnext⟩ := List.cons.inj heq
    obtain ⟨hsecond, hrest⟩ := List.cons.inj hnext
    exact ⟨hinj (by omega), hrest⟩

theorem utf16_injective : Function.Injective utf16 := by
  have hlists : ∀ left right : List Char,
      left.flatMap codeUnits = right.flatMap codeUnits → left = right := by
    intro left
    induction left with
    | nil =>
      intro right heq
      cases right with
      | nil => rfl
      | cons char rest =>
        rw [List.flatMap_cons, codeUnits] at heq
        split_ifs at heq <;> simp at heq
    | cons char rest ih =>
      intro right heq
      cases right with
      | nil =>
        rw [List.flatMap_cons, codeUnits] at heq
        split_ifs at heq <;> simp at heq
      | cons other later =>
        obtain ⟨rfl, hrest⟩ := codeUnits_append_inj heq
        rw [ih later hrest]
  intro left right heq
  exact String.toList_injective (hlists _ _ heq)

end Injectivity

end ConvexWasm.JsText
