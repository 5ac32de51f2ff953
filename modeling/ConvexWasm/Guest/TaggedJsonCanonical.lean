import ConvexWasm.Guest.TaggedJsonRoundTrip

/-!
# Restored values are encoded

A value with the contents of a restored tree is always encoded, and the JSON
comes back exactly where it was written in the encoder's own form.  Values
that contain themselves have no contents, so they are refused.
-/

namespace ConvexWasm.Guest

open List

mutual

/-- The fields of every object in the order of their names. -/
def Json.sorted : Json → Json
  | .array elements => .array (sortedElements elements)
  | .object fields => .object (sortFields (sortedFields fields))
  | json => json

def sortedElements : List Json → List Json
  | [] => []
  | json :: later => json.sorted :: sortedElements later

def sortedFields : List (JsString × Json) → List (JsString × Json)
  | [] => []
  | (key, json) :: later => (key, json.sorted) :: sortedFields later

end

mutual

def GuestTree.sorted : GuestTree → GuestTree
  | .array trees => .array (sortedTrees trees)
  | .object fields => .object (sortFields (sortedTreeFields fields))
  | tree => tree

def sortedTrees : List GuestTree → List GuestTree
  | [] => []
  | tree :: later => tree.sorted :: sortedTrees later

def sortedTreeFields : List (JsString × GuestTree) → List (JsString × GuestTree)
  | [] => []
  | (key, tree) :: later => (key, tree.sorted) :: sortedTreeFields later

end

/-- The bits that the engine writes for what is not a number. -/
def quietBits : ℕ := JsNumber.nan.toBits

def canonicalText : Json → Bool
  | .string text => Base64.isCanonical text
  | _ => true

/-- A tagged number that is not one has the bits that the engine writes. -/
def canonicalFloat : Json → Bool
  | .string text => Base64.isCanonical text &&
      match Base64.decode text with
      | some bytes =>
        JsNumber.ofBits (readLittleEndian bytes) != .nan || readLittleEndian bytes == quietBits
      | none => true
  | _ => true

def canonicalTag (key : JsString) (value : Json) : Option Bool :=
  if key = commitTsTag then some true
  else if key = floatTag then some (canonicalFloat value)
  else if key = integerTag ∨ key = bytesTag then some (canonicalText value)
  else none

def canonicalSingle : List (JsString × Json) → Option Bool
  | [(key, value)] => canonicalTag key value
  | _ => none

mutual

/-- No number stands bare that is written with a tag, and what stands under
the tags has one form. -/
def Json.isCanonical : Json → Bool
  | .number value => !value.isTagged
  | .array elements => canonicalElements elements
  | .object fields =>
    match canonicalSingle fields with
    | some canonical => canonical
    | none => canonicalFields fields
  | _ => true

def canonicalElements : List Json → Bool
  | [] => true
  | json :: later => json.isCanonical && canonicalElements later

def canonicalFields : List (JsString × Json) → Bool
  | [] => true
  | (_, json) :: later => json.isCanonical && canonicalFields later

end

def integerText (value : ℤ) : JsString :=
  Base64.encode (littleEndian 8 (value % 2 ^ 64).toNat)

mutual

/-- What the encoder writes for the contents of a value. -/
def encodeTree : GuestTree → Json
  | .null => .null
  | .boolean value => .boolean value
  | .number value => encodeNumber value
  | .string value => .string value
  | .bigint value => tagged integerTag (.string (integerText value))
  | .commitTs => tagged commitTsTag .null
  | .bytes content => tagged bytesTag (.string (encodeBytes content))
  | .array trees => .array (encodeTrees trees)
  | .object fields => .object (encodeTreeFields fields)

def encodeTrees : List GuestTree → List Json
  | [] => []
  | tree :: later => encodeTree tree :: encodeTrees later

def encodeTreeFields : List (JsString × GuestTree) → List (JsString × Json)
  | [] => []
  | (key, tree) :: later => (key, encodeTree tree) :: encodeTreeFields later

end

mutual

/-- The integers have 64 bits and the names are those of fields. -/
def Valid : GuestTree → Prop
  | .bigint value => -(2 ^ 63) ≤ value ∧ value ≤ 2 ^ 63 - 1
  | .array trees => ValidTrees trees
  | .object fields => ValidFields fields
  | _ => True

def ValidTrees : List GuestTree → Prop
  | [] => True
  | tree :: later => Valid tree ∧ ValidTrees later

def ValidFields : List (JsString × GuestTree) → Prop
  | [] => True
  | (key, tree) :: later =>
    validateObjectField key = .ok () ∧ Valid tree ∧ ValidFields later

end

variable {heap : GuestHeap}

mutual

/-- A value has one tree of contents. -/
theorem Denotes.unique : ∀ {first second : GuestTree} {slot : GuestSlot},
    Denotes heap first slot → Denotes heap second slot → first = second
  | .null, second, slot, hfirst, hsecond | .commitTs, second, slot, hfirst, hsecond => by
    cases hfirst
    cases second
    all_goals simp [Denotes] at hsecond
    rfl
  | .boolean _, second, slot, hfirst, hsecond | .number _, second, slot, hfirst, hsecond
  | .string _, second, slot, hfirst, hsecond | .bigint _, second, slot, hfirst, hsecond => by
    cases hfirst
    cases second
    all_goals simp [Denotes] at hsecond
    rw [hsecond]
  | .bytes content, second, slot, hfirst, hsecond => by
    obtain ⟨address, rfl, hcell⟩ := hfirst
    cases second
    all_goals simp [Denotes, hcell] at hsecond
    rw [hsecond]
  | .array trees, second, slot, hfirst, hsecond => by
    obtain ⟨address, elements, rfl, hcell, htrees⟩ := hfirst
    cases second with
    | array others =>
      simp only [Denotes, GuestSlot.reference.injEq, exists_and_left, exists_eq_left',
        hcell, Option.some.injEq, GuestCell.array.injEq] at hsecond
      rw [DenotesElements.unique htrees hsecond]
    | _ => simp [Denotes, hcell] at hsecond
  | .object trees, second, slot, hfirst, hsecond => by
    obtain ⟨address, fields, rfl, hcell, -, htrees⟩ := hfirst
    cases second with
    | object others =>
      simp only [Denotes, GuestSlot.reference.injEq, exists_and_left, exists_eq_left',
        hcell, Option.some.injEq, GuestCell.object.injEq, true_and] at hsecond
      rw [DenotesFields.unique htrees hsecond.2]
    | _ => simp [Denotes, hcell] at hsecond

theorem DenotesElements.unique : ∀ {first second : List GuestTree}
    {elements : List (Option GuestSlot)},
    DenotesElements heap first elements → DenotesElements heap second elements → first = second
  | [], second, elements, hfirst, hsecond => by
    cases hfirst
    cases second
    all_goals simp [DenotesElements] at hsecond
    rfl
  | tree :: later, second, elements, hfirst, hsecond => by
    obtain ⟨slot, rest, rfl, htree, hlater⟩ := hfirst
    cases second with
    | nil => simp [DenotesElements] at hsecond
    | cons other others =>
      obtain ⟨slot', rest', heq, hother, hothers⟩ := hsecond
      cases heq
      rw [Denotes.unique htree hother, DenotesElements.unique hlater hothers]

theorem DenotesFields.unique : ∀ {first second : List (JsString × GuestTree)}
    {fields : List (JsString × GuestSlot)},
    DenotesFields heap first fields → DenotesFields heap second fields → first = second
  | [], second, fields, hfirst, hsecond => by
    cases hfirst
    cases second
    all_goals simp [DenotesFields] at hsecond
    rfl
  | (key, tree) :: later, second, fields, hfirst, hsecond => by
    obtain ⟨slot, rest, rfl, htree, hlater⟩ := hfirst
    cases second with
    | nil => simp [DenotesFields] at hsecond
    | cons other others =>
      obtain ⟨slot', rest', heq, hother, hothers⟩ := hsecond
      cases heq
      rw [Denotes.unique htree hother, DenotesFields.unique hlater hothers]

end

/-- The objects entered are different, and each holds more than what is left. -/
structure Room (heap : GuestHeap) (fuel : ℕ) (ancestors : List ℕ) (size : ℕ) : Prop where
  nodup : ancestors.Nodup
  stored : ∀ address ∈ ancestors, address < heap.length
  fuel : heap.length < fuel + ancestors.length
  larger : ∀ address ∈ ancestors, ∃ tree, Denotes heap tree (.reference address) ∧
    size < sizeOf tree

variable {ancestors : List ℕ}

theorem Room.mono {fuel size smaller : ℕ} (hroom : Room heap fuel ancestors size)
    (hsize : smaller ≤ size) :
    Room heap fuel ancestors smaller := { hroom with
  larger address hmem := by
    obtain ⟨tree, hdenotes, hlarger⟩ := hroom.larger address hmem
    exact ⟨tree, hdenotes, hsize.trans_lt hlarger⟩ }

theorem fuel_pos {fuel : ℕ} (hnodup : ancestors.Nodup)
    (hstored : ∀ address ∈ ancestors, address < heap.length)
    (hfuel : heap.length < fuel + ancestors.length) : ∃ rest, fuel = rest + 1 := by
  have hsubset : ancestors ⊆ List.range heap.length := fun address hmem =>
    mem_range.mpr (hstored address hmem)
  have hlength := (hnodup.subperm hsubset).length_le
  rw [length_range] at hlength
  exact Nat.exists_eq_succ_of_ne_zero (by omega)

variable {fuel address : ℕ}

theorem enter (hfuel : heap.length < fuel + 1 + ancestors.length) :
    heap.length < fuel + (address :: ancestors).length := by
  rw [length_cons]
  omega

variable {tree : GuestTree}

/-- An object whose contents are left has not been entered. -/
theorem Room.not_mem (hroom : Room heap fuel ancestors (sizeOf tree))
    (hdenotes : Denotes heap tree (.reference address)) : address ∉ ancestors := by
  intro hmem
  obtain ⟨other, hother, hlarger⟩ := hroom.larger address hmem
  rw [hother.unique hdenotes] at hlarger
  exact lt_irrefl _ hlarger

theorem Room.enter {fuel address size : ℕ} (hroom : Room heap (fuel + 1) ancestors (sizeOf tree))
    (hdenotes : Denotes heap tree (.reference address)) (hstored : address < heap.length)
    (hsize : size < sizeOf tree) : Room heap fuel (address :: ancestors) size where
  nodup := nodup_cons.mpr ⟨hroom.not_mem hdenotes, hroom.nodup⟩
  stored := forall_mem_cons.mpr ⟨hstored, hroom.stored⟩
  fuel := Guest.enter hroom.fuel
  larger := forall_mem_cons.mpr
    ⟨⟨tree, hdenotes, hsize⟩, (hroom.mono hsize.le).larger⟩

theorem Denotes.defined {slot : GuestSlot} (hdenotes : Denotes heap tree slot) :
    slot ≠ .undefined := by
  rintro rfl
  cases tree
  all_goals simp [Denotes] at hdenotes

theorem stored_of_getElem? {address : ℕ} {cell : GuestCell} (hcell : heap[address]? = some cell) :
    address < heap.length :=
  (List.getElem?_eq_some_iff.mp hcell).1

variable {value : GuestSlot}

theorem encodeFields_data_eq (encodeValue : GuestSlot → Except Failure Json) (key : JsString)
    (later : List (JsString × GuestProperty)) (hdefined : value ≠ .undefined) :
    encodeFields encodeValue ((key, .data value) :: later) = (do
      validateObjectField key
      let json ← encodeValue value
      let rest ← encodeFields encodeValue later
      return (key, json) :: rest) := by
  cases value
  all_goals first | exact absurd rfl hdefined | rfl

/-- Undefined fields are stepped over. -/
theorem encodeFields_defined (encodeValue : GuestSlot → Except Failure Json)
    {fields : List (JsString × GuestProperty)} (hdata : ∀ field ∈ fields, field.2 ≠ .accessor) :
    encodeFields encodeValue fields = encodeFields encodeValue
      ((fields.filterMap definedField).map fun field => (field.1, .data field.2)) := by
  induction fields with
  | nil => rfl
  | cons field later ih =>
    obtain ⟨key, property⟩ := field
    obtain ⟨hfield, hlater⟩ := forall_mem_cons.mp hdata
    cases property with
    | accessor => exact absurd rfl hfield
    | data value =>
      by_cases hdefined : value = .undefined
      · subst hdefined
        exact ih hlater
      · rw [filterMap_cons, definedField_data hdefined, map_cons,
          encodeFields_data_eq _ _ _ hdefined, encodeFields_data_eq _ _ _ hdefined, ih hlater]

theorem encodeFields_data {encodeValue : GuestSlot → Except Failure Json} {key : JsString}
    {later : List (JsString × GuestProperty)} {json : Json} {rest : List (JsString × Json)}
    (hdefined : value ≠ .undefined) (hkey : validateObjectField key = .ok ())
    (hvalue : encodeValue value = .ok json) (hlater : encodeFields encodeValue later = .ok rest) :
    encodeFields encodeValue ((key, .data value) :: later) = .ok ((key, json) :: rest) := by
  rw [encodeFields_data_eq _ _ _ hdefined, hkey, hvalue, hlater]
  rfl

theorem encodeInteger_of_range {value : ℤ} (hrange : -(2 ^ 63) ≤ value ∧ value ≤ 2 ^ 63 - 1) :
    encodeInteger value = .ok (integerText value) := by
  rw [encodeInteger, if_neg (by omega), integerText]

mutual

/-- Valid contents are encoded, whatever else the heap shares or holds. -/
theorem encodeTagged_of_denotes : ∀ {tree : GuestTree} {slot : GuestSlot} {fuel : ℕ}
    {ancestors : List ℕ}, Valid tree → Denotes heap tree slot →
    Room heap fuel ancestors (sizeOf tree) →
    encodeTagged heap fuel ancestors slot = .ok (encodeTree tree)
  | .null, slot, fuel, ancestors, _, hdenotes, _ | .commitTs, slot, fuel, ancestors, _, hdenotes, _
  | .boolean _, slot, fuel, ancestors, _, hdenotes, _
  | .number _, slot, fuel, ancestors, _, hdenotes, _
  | .string _, slot, fuel, ancestors, _, hdenotes, _ => by
    cases hdenotes
    rw [encodeTagged, encodeTree]
  | .bigint value, slot, fuel, ancestors, hvalid, hdenotes, hroom => by
    cases hdenotes
    rw [encodeTagged, encodeTree, encodeInteger_of_range hvalid]
    rfl
  | .bytes content, slot, fuel, ancestors, hvalid, hdenotes, hroom => by
    obtain ⟨address, rfl, hcell⟩ := hdenotes
    obtain ⟨rest, rfl⟩ := fuel_pos hroom.nodup hroom.stored hroom.fuel
    rw [encodeTagged, hcell, encodeTree]
  | .array trees, slot, fuel, ancestors, hvalid, hdenotes, hroom => by
    have hwhole := hdenotes
    obtain ⟨address, elements, rfl, hcell, htrees⟩ := hdenotes
    obtain ⟨rest, rfl⟩ := fuel_pos hroom.nodup hroom.stored hroom.fuel
    have hsmaller : sizeOf trees < sizeOf (GuestTree.array trees) := by simp
    have hinner := hroom.enter hwhole (stored_of_getElem? hcell) hsmaller
    rw [encodeTagged, hcell]
    simp only [if_neg (hroom.not_mem hwhole),
      encodeElements_of_denotes hvalid htrees hinner]
    rfl
  | .object trees, slot, fuel, ancestors, hvalid, hdenotes, hroom => by
    have hwhole := hdenotes
    obtain ⟨address, fields, rfl, hcell, hdata, htrees⟩ := hdenotes
    obtain ⟨rest, rfl⟩ := fuel_pos hroom.nodup hroom.stored hroom.fuel
    have hsmaller : sizeOf trees < sizeOf (GuestTree.object trees) := by simp
    have hinner := hroom.enter hwhole (stored_of_getElem? hcell) hsmaller
    have hsorted : ∀ field ∈ sortFields fields, field.2 ≠ .accessor := fun field hmem =>
      hdata field ((perm_insertionSort _ _).mem_iff.mp hmem)
    have hfields : encodeFields (encodeTagged heap rest (address :: ancestors))
        (sortFields fields) = .ok (encodeTreeFields trees) := by
      rw [encodeFields_defined _ hsorted]
      exact encodeFields_of_denotes hvalid htrees hinner
    rw [encodeTagged, hcell]
    simp only [if_neg (hroom.not_mem hwhole), Bool.not_true, Bool.false_eq_true, if_false,
      hfields]
    rfl

theorem encodeElements_of_denotes : ∀ {trees : List GuestTree}
    {elements : List (Option GuestSlot)} {fuel : ℕ} {ancestors : List ℕ}, ValidTrees trees →
    DenotesElements heap trees elements → Room heap fuel ancestors (sizeOf trees) →
    encodeElements (encodeTagged heap fuel ancestors) elements = .ok (encodeTrees trees)
  | [], elements, fuel, ancestors, hvalid, hdenotes, hroom => by
    cases hdenotes
    rw [encodeElements, encodeTrees]
  | tree :: later, elements, fuel, ancestors, hvalid, hdenotes, hroom => by
    obtain ⟨slot, rest, rfl, htree, hlater⟩ := hdenotes
    have hfirst : sizeOf tree ≤ sizeOf (tree :: later) := by simp; omega
    have hrest : sizeOf later ≤ sizeOf (tree :: later) := by simp
    rw [encodeElements, encodeTagged_of_denotes hvalid.1 htree (hroom.mono hfirst),
      encodeElements_of_denotes hvalid.2 hlater (hroom.mono hrest)]
    rfl

theorem encodeFields_of_denotes : ∀ {trees : List (JsString × GuestTree)}
    {fields : List (JsString × GuestSlot)} {fuel : ℕ} {ancestors : List ℕ}, ValidFields trees →
    DenotesFields heap trees fields → Room heap fuel ancestors (sizeOf trees) →
    encodeFields (encodeTagged heap fuel ancestors)
      (fields.map fun field => (field.1, .data field.2)) = .ok (encodeTreeFields trees)
  | [], fields, fuel, ancestors, hvalid, hdenotes, hroom => by
    cases hdenotes
    rw [encodeTreeFields]
    rfl
  | (key, tree) :: later, fields, fuel, ancestors, hvalid, hdenotes, hroom => by
    obtain ⟨slot, rest, rfl, htree, hlater⟩ := hdenotes
    have hfirst : sizeOf tree ≤ sizeOf ((key, tree) :: later) := by simp; omega
    have hrest : sizeOf later ≤ sizeOf ((key, tree) :: later) := by simp
    exact encodeFields_data htree.defined hvalid.1
      (encodeTagged_of_denotes hvalid.2.1 htree (hroom.mono hfirst))
      (encodeFields_of_denotes hvalid.2.2 hlater (hroom.mono hrest))

end

theorem guestEncodeTagged_of_denotes {tree : GuestTree} {slot : GuestSlot} (hvalid : Valid tree)
    (hdenotes : Denotes heap tree slot) : guestEncodeTagged heap slot = .ok (encodeTree tree) :=
  encodeTagged_of_denotes hvalid hdenotes
    ⟨nodup_nil, by simp, by simp, by simp⟩

end ConvexWasm.Guest
