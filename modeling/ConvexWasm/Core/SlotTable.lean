import Mathlib

/-!
# Tables of slots

A growing array whose slots are empty or hold one entry.  Entries are put into
a slot, cleared again and counted.
-/

namespace ConvexWasm.SlotTable

open List

variable {Entry : Type*}

def lookup (table : List (Option Entry)) (slot : ℕ) : Option Entry :=
  table[slot]?.join

/-- The table grows until it has the slot. -/
def put (table : List (Option Entry)) (slot : ℕ) (entry : Entry) : List (Option Entry) :=
  (table ++ List.replicate (slot + 1 - table.length) none).set slot (some entry)

def clear (table : List (Option Entry)) (slot : ℕ) : List (Option Entry) :=
  table.set slot none

/-- The number of slots that hold an entry. -/
def occupied (table : List (Option Entry)) : ℕ :=
  table.countP Option.isSome

variable {table : List (Option Entry)} {slot : ℕ} {entry : Entry}

@[simp]
theorem occupied_nil : occupied ([] : List (Option Entry)) = 0 :=
  rfl

theorem lookup_padded (extra other : ℕ) :
    lookup (table ++ List.replicate extra none) other = lookup table other := by
  unfold lookup
  by_cases hother : other < table.length
  · rw [List.getElem?_append_left hother]
  · have hnone : table[other]? = none := List.getElem?_eq_none (not_lt.mp hother)
    rw [List.getElem?_append_right (not_lt.mp hother), hnone, List.getElem?_replicate]
    split_ifs <;> rfl

theorem lookup_put (other : ℕ) :
    lookup (put table slot entry) other =
      if other = slot then some entry else lookup table other := by
  by_cases hother : other = slot
  · rw [if_pos hother, hother, lookup, put, List.getElem?_set_self]
    · rfl
    · simp only [length_append, length_replicate]
      omega
  · rw [if_neg hother, lookup, put, List.getElem?_set_ne (Ne.symm hother)]
    exact lookup_padded (slot + 1 - table.length) other

theorem lookup_clear (other : ℕ) :
    lookup (clear table slot) other = if other = slot then none else lookup table other := by
  unfold lookup clear
  rw [List.getElem?_set]
  by_cases hother : other = slot
  · rw [if_pos hother, if_pos hother.symm]
    split_ifs <;> rfl
  · rw [if_neg hother, if_neg fun hslot => hother hslot.symm]

theorem lookup_push (other : ℕ) :
    lookup (table ++ [some entry]) other =
      if other = table.length then some entry else lookup table other := by
  unfold lookup
  rw [List.getElem?_append]
  split_ifs with hless hequal hequal
  · omega
  · rfl
  · rw [hequal, Nat.sub_self]
    rfl
  · rw [List.getElem?_eq_none (by simp; omega), List.getElem?_eq_none (by omega)]

theorem lt_length_of_lookup (hlookup : lookup table slot = some entry) : slot < table.length := by
  unfold lookup at hlookup
  by_contra hslot
  rw [List.getElem?_eq_none (not_lt.mp hslot)] at hlookup
  cases hlookup

theorem getElem?_of_lookup (hlookup : lookup table slot = some entry) :
    table[slot]? = some (some entry) := by
  unfold lookup at hlookup
  cases hget : table[slot]? with
  | none =>
    rw [hget] at hlookup
    cases hlookup
  | some found =>
    rw [hget] at hlookup
    exact congrArg some hlookup

theorem occupied_set {found value : Option Entry} (hget : table[slot]? = some found) :
    occupied (table.set slot value) + (if found.isSome then 1 else 0) =
      occupied table + if value.isSome then 1 else 0 := by
  unfold occupied
  induction table generalizing slot with
  | nil => cases hget
  | cons head rest ih =>
    cases slot with
    | zero =>
      cases hget
      rw [set_cons_zero, countP_cons, countP_cons]
      omega
    | succ slot =>
      have hrest := ih hget
      rw [set_cons_succ, countP_cons, countP_cons]
      omega

theorem occupied_padded (extra : ℕ) :
    occupied (table ++ List.replicate extra none) = occupied table := by
  unfold occupied
  simp

/-- An entry in an empty slot is one more. -/
theorem occupied_put (hempty : lookup table slot = none) :
    occupied (put table slot entry) = occupied table + 1 := by
  rw [put]
  have hlookup := (@lookup_padded _ table (slot + 1 - table.length) slot).trans hempty
  have hlength : slot < (table ++ List.replicate (slot + 1 - table.length) none).length := by
    simp only [length_append, length_replicate]
    omega
  have hget := List.getElem?_eq_getElem hlength
  have hnone : (table ++ List.replicate (slot + 1 - table.length) none)[slot] = none := by
    unfold lookup at hlookup
    rw [hget] at hlookup
    exact hlookup
  rw [hnone] at hget
  have hcount := @occupied_set _ _ _ _ (some entry) hget
  rw [occupied_padded] at hcount
  simpa using hcount

/-- A cleared entry is one less. -/
theorem occupied_clear (hlookup : lookup table slot = some entry) :
    occupied (clear table slot) + 1 = occupied table := by
  rw [clear]
  simpa using @occupied_set _ _ _ _ none (getElem?_of_lookup hlookup)

theorem occupied_eq_zero : occupied table = 0 ↔ ∀ slot, lookup table slot = none := by
  unfold occupied
  rw [countP_eq_zero]
  constructor
  · intro hall slot
    cases hlookup : lookup table slot with
    | none => rfl
    | some entry =>
      have hmem := mem_of_getElem? (getElem?_of_lookup hlookup)
      exact absurd rfl (hall _ hmem)
  · intro hall found hfound hsome
    obtain ⟨slot, hslot⟩ := mem_iff_getElem?.mp hfound
    obtain ⟨entry, rfl⟩ := Option.isSome_iff_exists.mp hsome
    have hnone := hall slot
    unfold lookup at hnone
    rw [hslot] at hnone
    cases hnone

end ConvexWasm.SlotTable
