import Mathlib

/-!
# JSON values and their equality

Two JSON values are the same when they have the same shape and their numbers are
the same in the sense of the program that compares them.
-/

namespace ConvexWasm

open List

inductive JsonValue (Number : Type)
  | null
  | boolean (value : Bool)
  | number (value : Number)
  | string (value : String)
  | array (elements : List (JsonValue Number))
  | object (fields : List (String × JsonValue Number))

namespace JsonValue

variable {Number : Type}

/-- The value of a field; what is no object has none. -/
def field (name : String) : JsonValue Number → Option (JsonValue Number)
  | .object fields => fields.lookup name
  | _ => none

section Same

variable (sameNumber : Number → Number → Bool)

mutual

def same : JsonValue Number → JsonValue Number → Bool
  | .null, .null => true
  | .boolean left, .boolean right => left = right
  | .number left, .number right => sameNumber left right
  | .string left, .string right => left = right
  | .array left, .array right => sameElements left right
  | .object left, .object right => left.length = right.length && sameFields left right
  | _, _ => false

def sameElements : List (JsonValue Number) → List (JsonValue Number) → Bool
  | [], [] => true
  | left :: lefts, right :: rights => same left right && sameElements lefts rights
  | _, _ => false

/-- Every field on the left is the same on the right. -/
def sameFields : List (String × JsonValue Number) → List (String × JsonValue Number) → Bool
  | [], _ => true
  | (name, left) :: lefts, rights =>
    (match rights.lookup name with
      | some right => same left right
      | none => false) && sameFields lefts rights

end

end Same

section Distinct

mutual

/-- No object has a field twice. -/
def Distinct : JsonValue Number → Prop
  | .array elements => DistinctElements elements
  | .object fields => (fields.map Prod.fst).Nodup ∧ DistinctFields fields
  | _ => True

def DistinctElements : List (JsonValue Number) → Prop
  | [] => True
  | element :: elements => Distinct element ∧ DistinctElements elements

def DistinctFields : List (String × JsonValue Number) → Prop
  | [] => True
  | (_, value) :: fields => Distinct value ∧ DistinctFields fields

end

variable {sameNumber : Number → Number → Bool}

theorem lookup_append_of_notMem {name : String} {before fields : List (String × JsonValue Number)}
    (hbefore : name ∉ before.map Prod.fst) :
    (before ++ fields).lookup name = fields.lookup name := by
  induction before with
  | nil => rfl
  | cons first rest ih =>
    rw [map_cons, mem_cons, not_or] at hbefore
    rw [cons_append, lookup_cons, beq_false_of_ne hbefore.1]
    exact ih hbefore.2

mutual

theorem same_self (hnumber : ∀ number, sameNumber number number = true) :
    ∀ value : JsonValue Number, value.Distinct → same sameNumber value value = true
  | .null, _ => by rw [same]
  | .boolean value, _ => by simp [same]
  | .number value, _ => by simp [same, hnumber]
  | .string value, _ => by simp [same]
  | .array elements, hdistinct => by
    rw [Distinct] at hdistinct
    rw [same]
    exact sameElements_self hnumber elements hdistinct
  | .object fields, hdistinct => by
    rw [Distinct] at hdistinct
    rw [same, Bool.and_eq_true]
    exact ⟨decide_eq_true rfl,
      sameFields_self hnumber fields [] hdistinct.1 hdistinct.2⟩

theorem sameElements_self (hnumber : ∀ number, sameNumber number number = true) :
    ∀ elements : List (JsonValue Number), DistinctElements elements →
      sameElements sameNumber elements elements = true
  | [], _ => by rw [sameElements]
  | element :: elements, hdistinct => by
    rw [DistinctElements] at hdistinct
    rw [sameElements, Bool.and_eq_true]
    exact ⟨same_self hnumber element hdistinct.1,
      sameElements_self hnumber elements hdistinct.2⟩

/-- The fields after the first ones find themselves in the whole object. -/
theorem sameFields_self (hnumber : ∀ number, sameNumber number number = true) :
    ∀ (fields before : List (String × JsonValue Number)),
      ((before ++ fields).map Prod.fst).Nodup → DistinctFields fields →
      sameFields sameNumber fields (before ++ fields) = true
  | [], _, _, _ => by rw [sameFields]
  | (name, value) :: fields, before, hnodup, hdistinct => by
    rw [DistinctFields] at hdistinct
    have hlookup : (before ++ (name, value) :: fields).lookup name = some value := by
      rw [lookup_append_of_notMem, lookup_cons_self]
      rw [map_append, map_cons] at hnodup
      exact fun hmem => (nodup_middle.mp hnodup).notMem
        (mem_append_left _ hmem)
    rw [sameFields, hlookup, Bool.and_eq_true]
    refine ⟨same_self hnumber value hdistinct.1, ?_⟩
    have hrest := sameFields_self hnumber fields (before ++ [(name, value)])
      (by simpa using hnodup) hdistinct.2
    simpa using hrest

end

end Distinct

end JsonValue

end ConvexWasm
