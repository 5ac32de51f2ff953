import Mathlib

/-!
# The first member that fits

Taking the first member with a property out of a list leaves the others in their
order.
-/

namespace ConvexWasm

variable {Item : Type*}

/-- The first member with the property and the rest of the list. -/
def takeFirst (fits : Item → Bool) : List Item → Option (Item × List Item)
  | [] => none
  | item :: rest =>
    if fits item then some (item, rest)
    else (takeFirst fits rest).map fun taken => (taken.1, item :: taken.2)

variable {fits : Item → Bool} {items rest : List Item} {item : Item}

theorem takeFirst_eq_some_iff :
    takeFirst fits items = some (item, rest) ↔
      ∃ before after, items = before ++ item :: after ∧ rest = before ++ after ∧
        fits item = true ∧ ∀ earlier ∈ before, fits earlier = false := by
  induction items generalizing rest with
  | nil => simp [takeFirst]
  | cons first others ih =>
    rw [takeFirst]
    by_cases hfirst : fits first = true
    · rw [if_pos hfirst]
      constructor
      · intro htaken
        obtain ⟨rfl, rfl⟩ := Prod.mk.inj (Option.some.inj htaken)
        exact ⟨[], others, rfl, rfl, hfirst, fun _ hmem => absurd hmem List.not_mem_nil⟩
      · rintro ⟨before, after, hitems, rfl, _, hearlier⟩
        cases before with
        | nil =>
          obtain ⟨rfl, rfl⟩ := List.cons.inj hitems
          rfl
        | cons head tail =>
          obtain ⟨rfl, _⟩ := List.cons.inj hitems
          rw [hearlier first List.mem_cons_self] at hfirst
          cases hfirst
    · rw [if_neg hfirst, Option.map_eq_some_iff]
      constructor
      · rintro ⟨⟨found, left⟩, htaken, heq⟩
        obtain ⟨rfl, rfl⟩ := Prod.mk.inj heq
        obtain ⟨before, after, rfl, rfl, hfits, hearlier⟩ := ih.mp htaken
        refine ⟨first :: before, after, rfl, rfl, hfits, ?_⟩
        exact List.forall_mem_cons.mpr ⟨Bool.eq_false_of_not_eq_true hfirst, hearlier⟩
      · rintro ⟨before, after, hitems, rfl, hfits, hearlier⟩
        cases before with
        | nil =>
          obtain ⟨rfl, _⟩ := List.cons.inj hitems
          exact absurd hfits hfirst
        | cons head tail =>
          obtain ⟨rfl, rfl⟩ := List.cons.inj hitems
          have hlater := (List.forall_mem_cons.mp hearlier).2
          exact ⟨(item, tail ++ after), ih.mpr ⟨tail, after, rfl, rfl, hfits, hlater⟩, rfl⟩

end ConvexWasm
