import ConvexWasm.Core.Fallible
import ConvexWasm.Guest.TaggedJson

/-!
# Encoded values are restored

What the encoder accepts is restored from its text with the same contents:
undefined fields are dropped and the fields stand in the order of their names.
-/

namespace ConvexWasm.Guest

open Fallible List

section Denotation

/-- The fields of an object that have a value, in the order of their names. -/
def definedFields (fields : List (JsString × GuestProperty)) : List (JsString × GuestSlot) :=
  (sortFields fields).filterMap fun field =>
    match field.2 with
    | .data .undefined | .accessor => none
    | .data value => some (field.1, value)

variable (heap : GuestHeap)

mutual

/-- The tree has the contents of the value. -/
def Denotes : GuestTree → GuestSlot → Prop
  | .null, slot => slot = .null
  | .boolean value, slot => slot = .boolean value
  | .number value, slot => slot = .number value
  | .string value, slot => slot = .string value
  | .bigint value, slot => slot = .bigint value
  | .commitTs, slot => slot = .commitTs
  | .bytes content, slot =>
    ∃ address, slot = .reference address ∧ heap[address]? = some (.bytes content)
  | .array trees, slot =>
    ∃ address elements, slot = .reference address ∧
      heap[address]? = some (.array elements) ∧ DenotesElements trees elements
  | .object trees, slot =>
    ∃ address fields, slot = .reference address ∧
      heap[address]? = some (.object true false fields) ∧
      (∀ field ∈ fields, field.2 ≠ .accessor) ∧ DenotesFields trees (definedFields fields)

def DenotesElements : List GuestTree → List (Option GuestSlot) → Prop
  | [], elements => elements = []
  | tree :: later, elements =>
    ∃ slot rest, elements = some slot :: rest ∧ Denotes tree slot ∧ DenotesElements later rest

def DenotesFields : List (JsString × GuestTree) → List (JsString × GuestSlot) → Prop
  | [], fields => fields = []
  | (key, tree) :: later, fields =>
    ∃ slot rest, fields = (key, slot) :: rest ∧ Denotes tree slot ∧ DenotesFields later rest

end

end Denotation

theorem decodeBase64_encode (bytes : List UInt8) (tag : String) :
    decodeBase64 (.string (Base64.encode bytes)) tag = .ok bytes := by
  rw [decodeBase64, Base64.decode_encode]

theorem restoreInteger_encodeInteger {value : ℤ} {text : JsString}
    (hencode : encodeInteger value = .ok text) :
    restoreInteger (.string text) = .ok (.bigint value) := by
  unfold encodeInteger at hencode
  split at hencode
  · cases hencode
  · rename_i hrange
    cases hencode
    push Not at hrange
    have hlt : (value % 2 ^ 64).toNat < 256 ^ 8 := by
      norm_num at *
      omega
    rw [restoreInteger, decodeBase64_encode]
    simp only [bind, Except.bind, length_littleEndian, if_pos, pure, Except.pure,
      readLittleEndian_littleEndian hlt]
    congr 2
    norm_num at *
    split
    all_goals omega

theorem restoreFloat_encodeFloat {value : JsNumber} (htagged : value.isTagged = true) :
    restoreFloat (.string (encodeFloat value)) = .ok (.number value) := by
  have hlt : value.toBits < 256 ^ 8 := by
    have hbits := value.toBits_lt
    norm_num at *
    exact hbits
  rw [restoreFloat, encodeFloat, encodeBytes, decodeBase64_encode]
  simp [pure, Except.pure, readLittleEndian_littleEndian hlt, JsNumber.ofBits_toBits, htagged]

theorem restoreTagged_encodeNumber (value : JsNumber) :
    restoreTagged (reparse (encodeNumber value)) = .ok (.number value) := by
  unfold encodeNumber
  split
  · rename_i htagged
    exact restoreFloat_encodeFloat htagged
  · rename_i huntagged
    cases value with
    | nan | infinity _ => exact absurd rfl huntagged
    | finite negative exponent fraction =>
      have hsign : (negative && decide (JsNumber.units exponent fraction ≠ 0)) = negative := by
        cases negative with
        | false => rfl
        | true =>
          rw [Bool.true_and, decide_eq_true_eq]
          intro hzero
          refine huntagged ((JsNumber.isTagged_iff _).mpr (.inl ?_))
          simp [JsNumber.isSpecial, hzero]
      rw [reparse, reparseNumber, hsign]
      rfl

section RoundTrip

variable {heap : GuestHeap} {encodeValue : GuestSlot → Except Failure Json}

theorem map_eq_ok {First Second : Type} {attempt : Except Failure First} {next : First → Second}
    {result : Second} (hmap : attempt.map next = .ok result) :
    ∃ first, attempt = .ok first ∧ next first = result := by
  cases attempt with
  | error failure => cases hmap
  | ok first =>
    cases hmap
    exact ⟨first, rfl, rfl⟩

/-- A value is restored with its contents wherever the encoder accepts it. -/
def Restores (heap : GuestHeap) (encodeValue : GuestSlot → Except Failure Json) : Prop :=
  ∀ slot json, encodeValue slot = .ok json →
    ∃ tree, restoreTagged (reparse json) = .ok tree ∧ Denotes heap tree slot

theorem restores_elements (hvalues : Restores heap encodeValue)
    {elements : List (Option GuestSlot)} {jsons : List Json}
    (hencode : encodeElements encodeValue elements = .ok jsons) :
    ∃ trees, restoreElements (reparseElements jsons) = .ok trees ∧
      DenotesElements heap trees elements := by
  induction elements generalizing jsons with
  | nil =>
    cases hencode
    exact ⟨[], rfl, rfl⟩
  | cons element later ih =>
    cases element with
    | none => cases hencode
    | some slot =>
      obtain ⟨json, hvalue, hencode⟩ := bind_eq_ok.mp hencode
      obtain ⟨rest, hrest, hencode⟩ := bind_eq_ok.mp hencode
      cases hencode
      obtain ⟨tree, hrestore, hdenotes⟩ := hvalues slot json hvalue
      obtain ⟨trees, hrestored, hall⟩ := ih hrest
      refine ⟨tree :: trees, ?_, slot, later, rfl, hdenotes, hall⟩
      rw [reparseElements, restoreElements, hrestore, hrestored]
      rfl

/-- The fields that a value is written with are those that are defined. -/
def definedField (field : JsString × GuestProperty) : Option (JsString × GuestSlot) :=
  match field.2 with
  | .data .undefined | .accessor => none
  | .data value => some (field.1, value)

theorem encodeFields_cons {key : JsString} {property : GuestProperty}
    {later : List (JsString × GuestProperty)} {jsons : List (JsString × Json)}
    (hencode : encodeFields encodeValue ((key, property) :: later) = .ok jsons) :
    (property = .data .undefined ∧ encodeFields encodeValue later = .ok jsons) ∨
    ∃ value json rest, property = .data value ∧ value ≠ .undefined ∧
      validateObjectField key = .ok () ∧ encodeValue value = .ok json ∧
      encodeFields encodeValue later = .ok rest ∧ jsons = (key, json) :: rest := by
  cases property with
  | accessor => cases hencode
  | data value =>
    by_cases hundefined : value = .undefined
    · subst hundefined
      exact .inl ⟨rfl, hencode⟩
    · refine .inr ?_
      have hbind : (do
          validateObjectField key
          let json ← encodeValue value
          let rest ← encodeFields encodeValue later
          return (key, json) :: rest) = Except.ok jsons := by
        cases value
        all_goals first | exact absurd rfl hundefined | exact hencode
      obtain ⟨_, hvalid, hbind⟩ := bind_eq_ok.mp hbind
      obtain ⟨json, hvalue, hbind⟩ := bind_eq_ok.mp hbind
      obtain ⟨rest, hrest, hbind⟩ := bind_eq_ok.mp hbind
      cases hbind
      exact ⟨value, json, rest, rfl, hundefined, hvalid, hvalue, hrest, rfl⟩

theorem definedField_data {key : JsString} {value : GuestSlot} (hvalue : value ≠ .undefined) :
    definedField (key, .data value) = some (key, value) := by
  cases value
  all_goals first | rfl | exact absurd rfl hvalue

theorem restores_fields (hvalues : Restores heap encodeValue)
    {fields : List (JsString × GuestProperty)} {jsons : List (JsString × Json)}
    (hencode : encodeFields encodeValue fields = .ok jsons) :
    (∀ field ∈ fields, field.2 ≠ .accessor) ∧
      (∀ field ∈ reparseFields jsons, validateObjectField field.1 = .ok ()) ∧
      ∃ trees, restoreFields (reparseFields jsons) = .ok trees ∧
        DenotesFields heap trees (fields.filterMap definedField) := by
  induction fields generalizing jsons with
  | nil =>
    cases hencode
    exact ⟨by simp, by simp [reparseFields], [], rfl, rfl⟩
  | cons field later ih =>
    obtain ⟨key, property⟩ := field
    obtain ⟨rfl, hlater⟩ | ⟨value, json, rest, rfl, hdefined, hvalid, hvalue, hlater, rfl⟩ :=
      encodeFields_cons hencode
    · obtain ⟨hdata, hkeys, trees, hrestored, hdenotes⟩ := ih hlater
      exact ⟨forall_mem_cons.mpr ⟨by simp, hdata⟩, hkeys, trees, hrestored, hdenotes⟩
    · obtain ⟨hdata, hkeys, trees, hrestored, hdenotes⟩ := ih hlater
      obtain ⟨tree, hrestore, htree⟩ := hvalues value json hvalue
      refine ⟨forall_mem_cons.mpr ⟨by simp, hdata⟩,
        forall_mem_cons.mpr ⟨hvalid, hkeys⟩, (key, tree) :: trees, ?_, ?_⟩
      · rw [reparseFields, restoreFields, hvalid, hrestore, hrestored]
        rfl
      · rw [filterMap_cons, definedField_data hdefined]
        exact ⟨value, _, rfl, htree, hdenotes⟩

/-- No tag is a field name. -/
theorem restoreTag_of_valid {key : JsString} {value : Json}
    (hvalid : validateObjectField key = .ok ()) : restoreTag key value = none := by
  have hdollar : key.head? ≠ some 36 := by
    intro hhead
    rw [validateObjectField, if_pos hhead] at hvalid
    split at hvalid
    all_goals cases hvalid
  have hne : ∀ tag : JsString, tag.head? = some 36 → key ≠ tag := by
    rintro tag htag rfl
    exact hdollar htag
  unfold restoreTag
  rw [if_neg (hne _ rfl), if_neg (hne _ rfl), if_neg (hne _ rfl), if_neg (hne _ rfl),
    if_neg (not_or.mpr ⟨hne _ rfl, hne _ rfl⟩)]

theorem restoreSingle_of_valid {fields : List (JsString × Json)}
    (hvalid : ∀ field ∈ fields, validateObjectField field.1 = .ok ()) :
    restoreSingle fields = none := by
  unfold restoreSingle
  split
  · exact restoreTag_of_valid (hvalid _ mem_cons_self)
  · rfl

theorem definedFields_eq (fields : List (JsString × GuestProperty)) :
    definedFields fields = (sortFields fields).filterMap definedField := rfl

/-- Values without parts are restored. -/
theorem restores_scalar {fuel : ℕ} {ancestors : List ℕ} {slot : GuestSlot} {json : Json}
    (hscalar : ∀ address, slot ≠ .reference address)
    (hencode : encodeTagged heap fuel ancestors slot = .ok json) :
    ∃ tree, restoreTagged (reparse json) = .ok tree ∧ Denotes heap tree slot := by
  cases slot with
  | reference address => exact absurd rfl (hscalar address)
  | null =>
    simp only [encodeTagged] at hencode
    cases hencode
    exact ⟨.null, rfl, rfl⟩
  | boolean value =>
    simp only [encodeTagged] at hencode
    cases hencode
    exact ⟨.boolean value, rfl, rfl⟩
  | string value =>
    simp only [encodeTagged] at hencode
    cases hencode
    exact ⟨.string value, rfl, rfl⟩
  | number value =>
    simp only [encodeTagged] at hencode
    cases hencode
    exact ⟨.number value, restoreTagged_encodeNumber value, rfl⟩
  | commitTs =>
    simp only [encodeTagged] at hencode
    cases hencode
    exact ⟨.commitTs, rfl, rfl⟩
  | bigint value =>
    simp only [encodeTagged] at hencode
    obtain ⟨text, htext, rfl⟩ := map_eq_ok hencode
    exact ⟨.bigint value, restoreInteger_encodeInteger htext, rfl⟩
  | undefined | function =>
    simp only [encodeTagged] at hencode
    cases hencode

/-- What the encoder accepts is restored with its contents. -/
theorem restores_encodeTagged (fuel : ℕ) (ancestors : List ℕ) :
    Restores heap (encodeTagged heap fuel ancestors) := by
  induction fuel generalizing ancestors with
  | zero =>
    intro slot json hencode
    refine restores_scalar (fun address hreference => ?_) hencode
    rw [hreference, encodeTagged] at hencode
    cases hencode
  | succ fuel ih =>
    intro slot json hencode
    by_cases hscalar : ∀ address, slot ≠ .reference address
    · exact restores_scalar hscalar hencode
    · push Not at hscalar
      obtain ⟨address, rfl⟩ := hscalar
      rw [encodeTagged] at hencode
      cases hcell : heap[address]? with
      | none =>
        rw [hcell] at hencode
        cases hencode
      | some cell =>
        rw [hcell] at hencode
        cases cell with
        | bytes content =>
          cases hencode
          refine ⟨.bytes content, ?_, address, rfl, hcell⟩
          have hrestore : restoreBytes (.string (encodeBytes content)) =
              .ok (.bytes content) := by
            rw [restoreBytes, encodeBytes, decodeBase64_encode]
            rfl
          exact hrestore
        | array elements =>
          simp only at hencode
          split at hencode
          · cases hencode
          · obtain ⟨jsons, hjsons, rfl⟩ := map_eq_ok hencode
            obtain ⟨trees, hrestored, hdenotes⟩ :=
              restores_elements (ih (address :: ancestors)) hjsons
            refine ⟨.array trees, ?_, address, elements, rfl, hcell, hdenotes⟩
            rw [reparse, restoreTagged, hrestored]
            rfl
        | object plain symbols fields =>
          simp only at hencode
          split at hencode
          · cases hencode
          · split at hencode
            · cases hencode
            · rename_i hplain
              split at hencode
              · cases hencode
              · rename_i hsymbols
                obtain ⟨jsons, hjsons, rfl⟩ := map_eq_ok hencode
                obtain ⟨hdata, hkeys, trees, hrestored, hdenotes⟩ :=
                  restores_fields (ih (address :: ancestors)) hjsons
                obtain rfl : plain = true := by simpa using hplain
                obtain rfl : symbols = false := by simpa using hsymbols
                refine ⟨.object trees, ?_, address, fields, rfl, hcell, ?_, hdenotes⟩
                · rw [reparse, restoreTagged, restoreSingle_of_valid hkeys]
                  simp only [hrestored]
                  rfl
                · exact fun field hmem => hdata field ((perm_insertionSort _ _).mem_iff.mpr hmem)

end RoundTrip

end ConvexWasm.Guest
