import Mathlib

/-!
# Stores that are searched layer by layer

A read returns what the first layer that holds the key has for it.  A write goes to
one layer only, where it may displace another key.  Reads return the last write as
long as no layer in front of the written one has another value, and no displaced key
has another value behind it.
-/

namespace ConvexWasm

open Function List Option

/-- What every layer holds, the first searched first. -/
abbrev Layers (Key Value : Type*) := List (Key → Option Value)

namespace Layers

variable {Key Value : Type*} {layers : Layers Key Value} {layer : ℕ} {key other : Key}
  {value : Value}

def read (layers : Layers Key Value) (key : Key) : Option Value :=
  layers.findSome? fun holds => holds key

theorem read_append (front back : Layers Key Value) (key : Key) :
    (front ++ back).read key = (front.read key).or (back.read key) :=
  List.findSome?_append

theorem read_cons (holds : Key → Option Value) (layers : Layers Key Value) (key : Key) :
    read (holds :: layers) key = (holds key).or (layers.read key) := by
  rw [read, List.findSome?_cons]
  cases holds key <;> rfl

theorem read_eq_or (hlayer : layer < layers.length) (key : Key) :
    layers.read key = (read (layers.take layer) key).or
      ((layers[layer] key).or (read (layers.drop (layer + 1)) key)) := by
  rw [← read_cons, ← read_append, cons_getElem_drop_succ, take_append_drop]

/-- Another value is found before the layer that is written. -/
def Shadowed (layers : Layers Key Value) (layer : ℕ) (key : Key) (value : Value) : Prop :=
  ∃ found, read (layers.take layer) key = some found ∧ found ≠ value

/-- The layer has the value that is read, and another value lies behind it. -/
def Covers (layers : Layers Key Value) (layer : ℕ) (key : Key) : Prop :=
  ∃ holds value next, layers[layer]? = some holds ∧ holds key = some value ∧
    read (layers.take layer) key = none ∧
    read (layers.drop (layer + 1)) key = some next ∧ next ≠ value

section Write

variable [DecidableEq Key]

/-- A layer takes the value and loses the displaced key. -/
def write (layer : ℕ) (key : Key) (value : Value) (displaced : Option Key)
    (layers : Layers Key Value) : Layers Key Value :=
  layers.modify layer fun holds found =>
    if found = key then some value else if displaced = some found then none else holds found

variable {displaced : Option Key}

theorem take_write (count : ℕ) :
    (layers.write layer key value displaced).take count =
      Layers.write layer key value displaced (layers.take count) :=
  take_modify ..

section

variable (hlayer : layer < layers.length)
include hlayer

theorem read_write (other : Key) :
    (layers.write layer key value displaced).read other =
      (read (layers.take layer) other).or
        ((if other = key then some value
          else if displaced = some other then none else layers[layer] other).or
          (read (layers.drop (layer + 1)) other)) := by
  have hwritten : layer < (layers.write layer key value displaced).length := by
    rwa [write, length_modify]
  have hfront : (layers.write layer key value displaced).take layer = layers.take layer := by
    rw [take_write, write, modify_eq_self (by simp)]
  have hback : (layers.write layer key value displaced).drop (layer + 1) =
      layers.drop (layer + 1) := by
    exact drop_modify_of_lt _ _ _ _ (Nat.lt_succ_self layer)
  have hholds : (layers.write layer key value displaced)[layer] other =
      if other = key then some value
      else if displaced = some other then none else layers[layer] other :=
    congrFun (getElem_modify_eq _ _ _ hwritten) other
  rw [read_eq_or hwritten, hfront, hback, hholds]

/-- What is read of the written key, which nothing in front of it hides. -/
theorem read_write_self :
    (layers.write layer key value displaced).read key =
      (read (layers.take layer) key).or (some value) := by
  rw [read_write hlayer, if_pos rfl]
  rfl

theorem read_write_displaced (hne : other ≠ key) (hdisplaced : displaced = some other) :
    (layers.write layer key value displaced).read other =
      (read (layers.take layer) other).or (read (layers.drop (layer + 1)) other) := by
  rw [read_write hlayer, if_neg hne, if_pos hdisplaced, none_or]

theorem read_write_other (hne : other ≠ key) (hdisplaced : displaced ≠ some other) :
    (layers.write layer key value displaced).read other = layers.read other := by
  rw [read_write hlayer, if_neg hne, if_neg hdisplaced, read_eq_or hlayer]

/-- A write makes no other key appear. -/
theorem read_write_eq_none (hne : other ≠ key) (hnone : layers.read other = none) :
    (layers.write layer key value displaced).read other = none := by
  by_cases hdisplaced : displaced = some other
  · rw [read_eq_or hlayer, or_eq_none_iff, or_eq_none_iff] at hnone
    rw [read_write_displaced hlayer hne hdisplaced, hnone.1, hnone.2.2, or_none]
  · rw [read_write_other hlayer hne hdisplaced, hnone]

end

/-- The write neither is hidden nor uncovers an old value. -/
structure Clean (layers : Layers Key Value) (layer : ℕ) (key : Key) (value : Value)
    (displaced : Option Key) : Prop where
  seen : ¬ layers.Shadowed layer key value
  lost : ∀ other, displaced = some other → ¬ layers.Covers layer other

/-- Only last writes are read. -/
def Fresh (layers : Layers Key Value) (latest : Key → Option Value) : Prop :=
  ∀ key value, layers.read key = some value → latest key = some value

variable {latest : Key → Option Value}

variable (hfresh : layers.Fresh latest) (hlayer : layer < layers.length)
include hfresh hlayer

theorem Fresh.write (hclean : layers.Clean layer key value displaced) :
    (layers.write layer key value displaced).Fresh (update latest key (some value)) := by
  intro other found hread
  by_cases hother : other = key
  · subst hother
    rw [read_write_self hlayer] at hread
    rw [update_self]
    cases hfront : read (layers.take layer) other with
    | none =>
      rw [hfront] at hread
      exact hread
    | some first =>
      rw [hfront] at hread
      obtain rfl := Option.some.inj hread
      by_contra hne
      exact hclean.seen ⟨_, hfront, fun heq => hne (congrArg some heq.symm)⟩
  · rw [update_of_ne hother]
    by_cases hdisplaced : displaced = some other
    · rw [read_write_displaced hlayer hother hdisplaced] at hread
      refine hfresh other found ?_
      rw [read_eq_or hlayer]
      cases hfront : read (layers.take layer) other with
      | some first => rwa [hfront] at hread
      | none =>
        rw [hfront, none_or] at hread
        cases hholds : layers[layer] other with
        | none => exact hread
        | some old =>
          by_contra hne
          refine hclean.lost other hdisplaced ⟨_, old, found,
            List.getElem?_eq_getElem hlayer, hholds, hfront, hread, fun heq => hne ?_⟩
          rw [heq]
          rfl
    · rw [read_write_other hlayer hother hdisplaced] at hread
      exact hfresh other found hread

/-- A write that hides or uncovers an old value is noticed at once. -/
theorem Clean.of_fresh (hself : displaced ≠ some key)
    (hwritten : (layers.write layer key value displaced).Fresh
      (update latest key (some value))) : layers.Clean layer key value displaced where
  seen := by
    rintro ⟨found, hfront, hne⟩
    have hlatest := hwritten key found (by rw [read_write_self hlayer, hfront]; rfl)
    rw [update_self] at hlatest
    exact hne (Option.some.inj hlatest).symm
  lost := by
    rintro other hdisplaced ⟨holds, old, next, hholds, hold, hfront, hback, hne⟩
    have hother : other ≠ key := fun heq => hself (heq ▸ hdisplaced)
    have hbefore : latest other = some old := by
      obtain ⟨_, rfl⟩ := List.getElem?_eq_some_iff.mp hholds
      exact hfresh other old (by rw [read_eq_or hlayer, hfront, hold]; rfl)
    have hafter := hwritten other next (by
      rw [read_write_displaced hlayer hother hdisplaced, hfront, hback]
      rfl)
    rw [update_of_ne hother, hbefore] at hafter
    exact hne (Option.some.inj hafter).symm

/-- The reads stay fresh exactly when the write is clean. -/
theorem fresh_write_iff (hself : displaced ≠ some key) :
    (layers.write layer key value displaced).Fresh (update latest key (some value)) ↔
      layers.Clean layer key value displaced :=
  ⟨Clean.of_fresh hfresh hlayer hself, hfresh.write hlayer⟩

end Write

end Layers

end ConvexWasm
