import ConvexWasm.Guest.TaggedJsonCanonical

/-!
# The codec of the guest

The encoder and the restorer are inverse to each other but for what the
restorer takes in more than one form.
-/

namespace ConvexWasm.Guest

open Fallible JsText List

/-- Sorting looks at the names alone. -/
theorem map_sortFields {First Second : Type} (change : First → Second)
    (fields : List (JsString × First)) :
    (sortFields fields).map (fun field => (field.1, change field.2)) =
      sortFields (fields.map fun field => (field.1, change field.2)) :=
  map_insertionSort _ _ _ _ fun _ _ _ _ => Iff.rfl

theorem exists_pairing {First Second : Type} :
    ∀ {first : List (JsString × First)} {second : List (JsString × Second)},
      first.map Prod.fst = second.map Prod.fst →
      ∃ pairing : List (JsString × First × Second),
        first = pairing.map (fun field => (field.1, field.2.1)) ∧
          second = pairing.map fun field => (field.1, field.2.2)
  | [], [], _ => ⟨[], rfl, rfl⟩
  | [], _ :: _, hkeys => by cases hkeys
  | _ :: _, [], hkeys => by cases hkeys
  | (key, value) :: first, (other, image) :: second, hkeys => by
    obtain ⟨hkey, hlater⟩ := List.cons.inj hkeys
    obtain ⟨pairing, hfirst, hsecond⟩ := exists_pairing hlater
    have hsame : key = other := hkey
    exact ⟨(key, value, image) :: pairing, by rw [map_cons, ← hfirst],
      by rw [map_cons, ← hsecond, hsame]⟩

theorem sortFields_inj {Value : Type} {first second : List (JsString × Value)}
    (hkeys : first.map Prod.fst = second.map Prod.fst)
    (hsort : sortFields first = sortFields second) : first = second := by
  obtain ⟨pairing, rfl, rfl⟩ := exists_pairing hkeys
  have hsorted : (sortFields pairing).map (fun field => (field.1, field.2.1)) =
      (sortFields pairing).map fun field => (field.1, field.2.2) := by
    rw [map_sortFields Prod.fst, map_sortFields Prod.snd, hsort]
  rw [map_inj_left] at hsorted ⊢
  exact fun field hmem => hsorted field ((perm_insertionSort _ _).mem_iff.mpr hmem)

variable (fields : List (JsString × GuestTree))

theorem encodeTreeFields_eq_map :
    encodeTreeFields fields = fields.map fun field => (field.1, encodeTree field.2) := by
  induction fields with
  | nil => rfl
  | cons field later ih => rw [encodeTreeFields, ih, map_cons]

theorem sortedTreeFields_eq_map :
    sortedTreeFields fields = fields.map fun field => (field.1, field.2.sorted) := by
  induction fields with
  | nil => rfl
  | cons field later ih => rw [sortedTreeFields, ih, map_cons]

theorem sortedFields_eq_map (fields : List (JsString × Json)) :
    sortedFields fields = fields.map fun field => (field.1, field.2.sorted) := by
  induction fields with
  | nil => rfl
  | cons field later ih => rw [sortedFields, ih, map_cons]

variable {json : Json}

theorem restoreElements_cons {later : List Json} {trees : List GuestTree}
    (hrestore : restoreElements (json :: later) = .ok trees) :
    ∃ tree rest, restoreTagged json = .ok tree ∧ restoreElements later = .ok rest ∧
      trees = tree :: rest := by
  obtain ⟨tree, htree, hrestore⟩ := bind_eq_ok.mp hrestore
  obtain ⟨rest, hrest, hrestore⟩ := bind_eq_ok.mp hrestore
  cases hrestore
  exact ⟨tree, rest, htree, hrest, rfl⟩

variable {key : JsString}

theorem restoreFields_cons {later : List (JsString × Json)} {trees : List (JsString × GuestTree)}
    (hrestore : restoreFields ((key, json) :: later) = .ok trees) :
    ∃ tree rest, validateObjectField key = .ok () ∧ restoreTagged json = .ok tree ∧
      restoreFields later = .ok rest ∧ trees = (key, tree) :: rest := by
  obtain ⟨_, hkey, hrestore⟩ := bind_eq_ok.mp hrestore
  obtain ⟨tree, htree, hrestore⟩ := bind_eq_ok.mp hrestore
  obtain ⟨rest, hrest, hrestore⟩ := bind_eq_ok.mp hrestore
  cases hrestore
  exact ⟨tree, rest, hkey, htree, hrest, rfl⟩

variable {tree : GuestTree}

theorem restoreTagged_array {elements : List Json}
    (hrestore : restoreTagged (.array elements) = .ok tree) :
    ∃ trees, restoreElements elements = .ok trees ∧ tree = .array trees := by
  obtain ⟨trees, htrees, rfl⟩ := map_eq_ok hrestore
  exact ⟨trees, htrees, rfl⟩

theorem restoreTagged_object {fields : List (JsString × Json)}
    (hrestore : restoreTagged (.object fields) = .ok tree) :
    (∃ key value, fields = [(key, value)] ∧ restoreTag key value = some (.ok tree)) ∨
      restoreSingle fields = none ∧ ∃ trees, restoreFields fields = .ok trees ∧
        tree = .object trees := by
  rw [restoreTagged] at hrestore
  cases hsingle : restoreSingle fields with
  | none =>
    simp only [hsingle] at hrestore
    obtain ⟨trees, htrees, rfl⟩ := map_eq_ok hrestore
    exact .inr ⟨rfl, trees, htrees, rfl⟩
  | some restored =>
    simp only [hsingle] at hrestore
    subst hrestore
    unfold restoreSingle at hsingle
    split at hsingle
    · exact .inl ⟨_, _, rfl, hsingle⟩
    · cases hsingle

theorem restoreTag_ok {value : Json} (hrestore : restoreTag key value = some (.ok tree)) :
    (key = commitTsTag ∧ value = .null ∧ tree = .commitTs) ∨
      (key = floatTag ∧ restoreFloat value = .ok tree) ∨
      (key = integerTag ∧ restoreInteger value = .ok tree) ∨
      (key = bytesTag ∧ restoreBytes value = .ok tree) := by
  unfold restoreTag at hrestore
  split_ifs at hrestore with hcommit hfloat hinteger hbytes hcollection
  · have htree := Option.some.inj hrestore
    cases value
    case null =>
      cases htree
      exact .inl ⟨hcommit, rfl, rfl⟩
    all_goals cases htree
  · exact .inr (.inl ⟨hfloat, Option.some.inj hrestore⟩)
  · exact .inr (.inr (.inl ⟨hinteger, Option.some.inj hrestore⟩))
  · exact .inr (.inr (.inr ⟨hbytes, Option.some.inj hrestore⟩))
  · cases hrestore

variable {encoded : Json} {bytes : List UInt8}

theorem decodeBase64_ok {tag : String} (hdecode : decodeBase64 encoded tag = .ok bytes) :
    ∃ text, encoded = .string text ∧ Base64.decode text = some bytes := by
  unfold decodeBase64 at hdecode
  split at hdecode
  · split at hdecode
    · rename_i text _ _ htext
      cases hdecode
      exact ⟨text, rfl, htext⟩
    · cases hdecode
  · cases hdecode

/-- The integer of eight bytes, which wraps round at the middle. -/
def wrapped (bytes : List UInt8) : ℤ :=
  if 2 ^ 63 - 1 < (readLittleEndian bytes : ℤ) then (readLittleEndian bytes : ℤ) - 2 ^ 64
  else readLittleEndian bytes

theorem restoreInteger_ok (hrestore : restoreInteger encoded = .ok tree) :
    ∃ text bytes, encoded = .string text ∧ Base64.decode text = some bytes ∧
      bytes.length = 8 ∧ tree = .bigint (wrapped bytes) := by
  obtain ⟨bytes, hdecode, hrestore⟩ := bind_eq_ok.mp hrestore
  split at hrestore
  · rename_i hlength
    cases hrestore
    obtain ⟨text, rfl, htext⟩ := decodeBase64_ok hdecode
    exact ⟨text, bytes, rfl, htext, hlength, rfl⟩
  · cases hrestore

theorem restoreFloat_ok (hrestore : restoreFloat encoded = .ok tree) :
    ∃ text bytes, encoded = .string text ∧ Base64.decode text = some bytes ∧
      bytes.length = 8 ∧ (JsNumber.ofBits (readLittleEndian bytes)).isTagged = true ∧
      tree = .number (JsNumber.ofBits (readLittleEndian bytes)) := by
  obtain ⟨bytes, hdecode, hrestore⟩ := bind_eq_ok.mp hrestore
  split at hrestore
  · rename_i hlength
    dsimp only at hrestore
    split at hrestore
    · rename_i htagged
      cases hrestore
      obtain ⟨text, rfl, htext⟩ := decodeBase64_ok hdecode
      exact ⟨text, bytes, rfl, htext, hlength, htagged, rfl⟩
    · cases hrestore
  · cases hrestore

theorem restoreBytes_ok (hrestore : restoreBytes encoded = .ok tree) :
    ∃ text bytes, encoded = .string text ∧ Base64.decode text = some bytes ∧
      tree = .bytes bytes := by
  obtain ⟨bytes, hdecode, hrestore⟩ := bind_eq_ok.mp hrestore
  cases hrestore
  obtain ⟨text, rfl, htext⟩ := decodeBase64_ok hdecode
  exact ⟨text, bytes, rfl, htext, rfl⟩

/-- Eight bytes are those of the integer they stand for, which is in range. -/
theorem wrapped_spec (hlength : bytes.length = 8) :
    (-(2 ^ 63) ≤ wrapped bytes ∧ wrapped bytes ≤ 2 ^ 63 - 1) ∧
      integerText (wrapped bytes) = Base64.encode bytes := by
  have hbound := readLittleEndian_lt bytes
  rw [hlength] at hbound
  have hvalue : (wrapped bytes % 2 ^ 64).toNat = readLittleEndian bytes := by
    unfold wrapped
    split
    all_goals omega
  have hrange : -(2 ^ 63) ≤ wrapped bytes ∧ wrapped bytes ≤ 2 ^ 63 - 1 := by
    unfold wrapped
    split
    all_goals omega
  refine ⟨hrange, ?_⟩
  rw [integerText, hvalue, ← hlength, littleEndian_readLittleEndian]

theorem validFields_iff :
    ValidFields fields ↔
      ∀ field ∈ fields, validateObjectField field.1 = .ok () ∧ Valid field.2 := by
  induction fields with
  | nil => simp [ValidFields]
  | cons field later ih =>
    rw [ValidFields, forall_mem_cons, ih, and_assoc]

mutual

/-- Whatever is restored can be encoded. -/
theorem valid_of_restoreTagged : ∀ {json : Json} {tree : GuestTree},
    restoreTagged json = .ok tree → Valid tree.sorted
  | .null, _, hrestore | .boolean _, _, hrestore | .number _, _, hrestore
  | .string _, _, hrestore => by
    cases hrestore
    trivial
  | .array elements, tree, hrestore => by
    obtain ⟨trees, htrees, rfl⟩ := restoreTagged_array hrestore
    exact valid_of_restoreElements htrees
  | .object fields, tree, hrestore => by
    obtain ⟨key, value, rfl, htag⟩ | ⟨-, trees, htrees, rfl⟩ := restoreTagged_object hrestore
    · obtain ⟨-, -, rfl⟩ | ⟨-, hfloat⟩ | ⟨-, hinteger⟩ | ⟨-, hbytes⟩ := restoreTag_ok htag
      · trivial
      · obtain ⟨text, bytes, -, -, -, -, rfl⟩ := restoreFloat_ok hfloat
        trivial
      · obtain ⟨text, bytes, -, -, hlength, rfl⟩ := restoreInteger_ok hinteger
        exact (wrapped_spec hlength).1
      · obtain ⟨text, bytes, -, -, rfl⟩ := restoreBytes_ok hbytes
        trivial
    · have hvalid := valid_of_restoreFields htrees
      rw [validFields_iff] at hvalid
      rw [GuestTree.sorted, Valid, validFields_iff]
      exact fun field hmem => hvalid field ((perm_insertionSort _ _).mem_iff.mp hmem)

theorem valid_of_restoreElements : ∀ {elements : List Json} {trees : List GuestTree},
    restoreElements elements = .ok trees → ValidTrees (sortedTrees trees)
  | [], trees, hrestore => by
    cases hrestore
    trivial
  | json :: later, trees, hrestore => by
    obtain ⟨tree, rest, htree, hrest, rfl⟩ := restoreElements_cons hrestore
    exact ⟨valid_of_restoreTagged htree, valid_of_restoreElements hrest⟩

theorem valid_of_restoreFields : ∀ {fields : List (JsString × Json)}
    {trees : List (JsString × GuestTree)}, restoreFields fields = .ok trees →
    ValidFields (sortedTreeFields trees)
  | [], trees, hrestore => by
    cases hrestore
    trivial
  | (key, json) :: later, trees, hrestore => by
    obtain ⟨tree, rest, hkey, htree, hrest, rfl⟩ := restoreFields_cons hrestore
    exact ⟨hkey, valid_of_restoreTagged htree, valid_of_restoreFields hrest⟩

end

theorem tagged_inj {tag : JsString} {first second : JsString} :
    tagged tag (.string first) = tagged tag (.string second) ↔ first = second := by
  simp [tagged]

/-- A tagged number comes back when its text is canonical and its bits are
those that the engine writes. -/
theorem encodeFloat_eq_iff {text : JsString} {bytes : List UInt8}
    (hdecode : Base64.decode text = some bytes) (hlength : bytes.length = 8) :
    encodeFloat (JsNumber.ofBits (readLittleEndian bytes)) = text ↔
      canonicalFloat (.string text) = true := by
  have hbound := readLittleEndian_lt bytes
  rw [hlength] at hbound
  have hbits : (JsNumber.ofBits (readLittleEndian bytes)).toBits = readLittleEndian bytes ↔
      (JsNumber.ofBits (readLittleEndian bytes) = .nan → readLittleEndian bytes = quietBits) := by
    by_cases hnan : JsNumber.ofBits (readLittleEndian bytes) = .nan
    · rw [hnan]
      exact ⟨fun h _ => h.symm, fun h => (h rfl).symm⟩
    · have hlt : readLittleEndian bytes < 2 ^ 64 := by
        exact hbound
      exact ⟨fun _ h => absurd h hnan, fun _ => JsNumber.toBits_ofBits hlt hnan⟩
  have hwritten : encodeFloat (JsNumber.ofBits (readLittleEndian bytes)) = Base64.encode bytes ↔
      (JsNumber.ofBits (readLittleEndian bytes)).toBits = readLittleEndian bytes := by
    constructor
    · intro hencode
      have hbytes := Base64.encode_injective hencode
      have hnumber : (JsNumber.ofBits (readLittleEndian bytes)).toBits < 256 ^ 8 := by
        have hlt := (JsNumber.ofBits (readLittleEndian bytes)).toBits_lt
        exact hlt
      rw [← readLittleEndian_littleEndian hnumber, hbytes]
    · intro hsame
      rw [encodeFloat, hsame, ← hlength, littleEndian_readLittleEndian, encodeBytes]
  have hcanonical : canonicalFloat (.string text) = true ↔
      Base64.isCanonical text = true ∧
        (JsNumber.ofBits (readLittleEndian bytes) = .nan →
          readLittleEndian bytes = quietBits) := by
    rw [canonicalFloat, hdecode, Bool.and_eq_true, Bool.or_eq_true, bne_iff_ne, beq_iff_eq,
      imp_iff_not_or]
  have hencoded := Base64.encode_eq_iff hdecode
  rw [hcanonical, ← hbits, ← hwritten, ← hencoded]
  constructor
  · intro htext
    obtain ⟨content, hcontent⟩ : ∃ content, text = Base64.encode content := ⟨_, htext.symm⟩
    have hsame : Base64.encode bytes = text := by
      rw [hcontent, Base64.decode_encode] at hdecode
      rw [hcontent, Option.some.inj hdecode]
    exact ⟨hsame, htext.trans hsame.symm⟩
  · rintro ⟨hsame, htext⟩
    exact htext.trans hsame

theorem encodeNumber_eq_iff (value : JsNumber) :
    encodeNumber value = .number value ↔ (Json.number value).isCanonical = true := by
  rw [encodeNumber, Json.isCanonical]
  cases value.isTagged
  · simp
  · simp [tagged]

theorem restoreTag_canonical {key : JsString} {value : Json} {tree : GuestTree}
    (hrestore : restoreTag key value = some (.ok tree)) :
    encodeTree tree.sorted = (Json.object [(key, value)]).sorted ↔
      (Json.object [(key, value)]).isCanonical = true := by
  obtain ⟨rfl, rfl, rfl⟩ | ⟨rfl, hfloat⟩ | ⟨rfl, hinteger⟩ | ⟨rfl, hbytes⟩ :=
    restoreTag_ok hrestore
  · exact ⟨fun _ => rfl, fun _ => rfl⟩
  · obtain ⟨text, bytes, rfl, hdecode, hlength, htagged, rfl⟩ := restoreFloat_ok hfloat
    have hleft : encodeTree (GuestTree.number (JsNumber.ofBits (readLittleEndian bytes))).sorted =
        tagged floatTag (.string (encodeFloat (JsNumber.ofBits (readLittleEndian bytes)))) := by
      rw [GuestTree.sorted, encodeTree, encodeNumber, if_pos htagged]
      all_goals simp
    rw [hleft]
    exact tagged_inj.trans (encodeFloat_eq_iff hdecode hlength)
  · obtain ⟨text, bytes, rfl, hdecode, hlength, rfl⟩ := restoreInteger_ok hinteger
    have hcanonical := Base64.encode_eq_iff hdecode
    rw [← (wrapped_spec hlength).2] at hcanonical
    exact tagged_inj.trans hcanonical
  · obtain ⟨text, bytes, rfl, hdecode, rfl⟩ := restoreBytes_ok hbytes
    exact tagged_inj.trans (Base64.encode_eq_iff hdecode)

theorem canonicalSingle_of_none {fields : List (JsString × Json)}
    (hsingle : restoreSingle fields = none) : canonicalSingle fields = none := by
  unfold restoreSingle at hsingle
  split at hsingle
  · unfold restoreTag at hsingle
    split_ifs at hsingle with hcommit hfloat hinteger hbytes hcollection
    rw [canonicalSingle, canonicalTag, if_neg hcommit, if_neg hfloat,
      if_neg (not_or.mpr ⟨hinteger, hbytes⟩)]
  · rename_i hfields
    unfold canonicalSingle
    split
    · exact absurd rfl (hfields _ _)
    · rfl

theorem keys_restoreFields : ∀ {fields : List (JsString × Json)}
    {trees : List (JsString × GuestTree)}, restoreFields fields = .ok trees →
    trees.map Prod.fst = fields.map Prod.fst
  | [], trees, hrestore => by
    cases hrestore
    rfl
  | (key, json) :: later, trees, hrestore => by
    obtain ⟨tree, rest, -, -, hrest, rfl⟩ := restoreFields_cons hrestore
    rw [map_cons, map_cons, keys_restoreFields hrest]

mutual

/-- What is restored is written again as it was exactly from canonical JSON. -/
theorem encodeTree_restored : ∀ {json : Json} {tree : GuestTree},
    restoreTagged json = .ok tree →
    (encodeTree tree.sorted = json.sorted ↔ json.isCanonical = true)
  | .null, _, hrestore | .boolean _, _, hrestore | .string _, _, hrestore => by
    cases hrestore
    exact ⟨fun _ => rfl, fun _ => rfl⟩
  | .number value, tree, hrestore => by
    cases hrestore
    exact encodeNumber_eq_iff value
  | .array elements, tree, hrestore => by
    obtain ⟨trees, htrees, rfl⟩ := restoreTagged_array hrestore
    rw [GuestTree.sorted, encodeTree, Json.sorted, Json.array.injEq,
      encodeTrees_restored htrees, Json.isCanonical]
  | .object fields, tree, hrestore => by
    obtain ⟨key, value, rfl, htag⟩ | ⟨hsingle, trees, htrees, rfl⟩ :=
      restoreTagged_object hrestore
    · exact restoreTag_canonical htag
    · have hkeys : (encodeTreeFields (sortedTreeFields trees)).map Prod.fst =
          (sortedFields fields).map Prod.fst := by
        rw [encodeTreeFields_eq_map, sortedTreeFields_eq_map, sortedFields_eq_map]
        simp only [map_map, Function.comp_def]
        exact keys_restoreFields htrees
      have hencode : encodeTreeFields (sortFields (sortedTreeFields trees)) =
          sortFields (encodeTreeFields (sortedTreeFields trees)) := by
        rw [encodeTreeFields_eq_map, encodeTreeFields_eq_map]
        exact map_sortFields encodeTree _
      rw [GuestTree.sorted, encodeTree, Json.sorted, Json.object.injEq, hencode,
        Json.isCanonical, canonicalSingle_of_none hsingle, ← encodeTreeFields_restored htrees]
      exact ⟨sortFields_inj hkeys, congrArg sortFields⟩

theorem encodeTrees_restored : ∀ {elements : List Json} {trees : List GuestTree},
    restoreElements elements = .ok trees →
    (encodeTrees (sortedTrees trees) = sortedElements elements ↔
      canonicalElements elements = true)
  | [], trees, hrestore => by
    cases hrestore
    exact ⟨fun _ => rfl, fun _ => rfl⟩
  | json :: later, trees, hrestore => by
    obtain ⟨tree, rest, htree, hrest, rfl⟩ := restoreElements_cons hrestore
    rw [sortedTrees, encodeTrees, sortedElements, canonicalElements, List.cons.injEq,
      encodeTree_restored htree, encodeTrees_restored hrest, Bool.and_eq_true]

theorem encodeTreeFields_restored : ∀ {fields : List (JsString × Json)}
    {trees : List (JsString × GuestTree)}, restoreFields fields = .ok trees →
    (encodeTreeFields (sortedTreeFields trees) = sortedFields fields ↔
      canonicalFields fields = true)
  | [], trees, hrestore => by
    cases hrestore
    exact ⟨fun _ => rfl, fun _ => rfl⟩
  | (key, json) :: later, trees, hrestore => by
    obtain ⟨tree, rest, -, htree, hrest, rfl⟩ := restoreFields_cons hrestore
    rw [sortedTreeFields, encodeTreeFields, sortedFields, canonicalFields, List.cons.injEq,
      Prod.mk.injEq, encodeTree_restored htree, encodeTreeFields_restored hrest,
      Bool.and_eq_true]
    simp

end

section Cycles

/-- An object holds another as an element or as a field. -/
def Refers (heap : GuestHeap) (holder held : ℕ) : Prop :=
  (∃ elements, heap[holder]? = some (.array elements) ∧ some (.reference held) ∈ elements) ∨
    ∃ plain symbols fields key, heap[holder]? = some (.object plain symbols fields) ∧
      (key, .data (.reference held)) ∈ fields

/-- From the value an object is reached that holds itself, through others or not. -/
def Cyclic (heap : GuestHeap) (slot : GuestSlot) : Prop :=
  ∃ address inner, slot = .reference address ∧ Relation.ReflTransGen (Refers heap) address inner ∧
    Relation.TransGen (Refers heap) inner inner

variable {heap : GuestHeap}

theorem DenotesElements.element : ∀ {trees : List GuestTree} {elements : List (Option GuestSlot)}
    {slot : GuestSlot}, DenotesElements heap trees elements → some slot ∈ elements →
    ∃ tree ∈ trees, Denotes heap tree slot
  | [], elements, slot, hdenotes, hmem => by
    cases hdenotes
    cases hmem
  | tree :: later, elements, slot, hdenotes, hmem => by
    obtain ⟨first, rest, rfl, htree, hlater⟩ := hdenotes
    cases hmem with
    | head => exact ⟨tree, mem_cons_self, htree⟩
    | tail _ hrest =>
      obtain ⟨other, hother, hdenoted⟩ := hlater.element hrest
      exact ⟨other, mem_cons_of_mem tree hother, hdenoted⟩

theorem DenotesFields.field : ∀ {trees : List (JsString × GuestTree)}
    {fields : List (JsString × GuestSlot)} {key : JsString} {slot : GuestSlot},
    DenotesFields heap trees fields → (key, slot) ∈ fields →
    ∃ tree, (key, tree) ∈ trees ∧ Denotes heap tree slot
  | [], fields, key, slot, hdenotes, hmem => by
    cases hdenotes
    cases hmem
  | (name, tree) :: later, fields, key, slot, hdenotes, hmem => by
    obtain ⟨first, rest, rfl, htree, hlater⟩ := hdenotes
    cases hmem with
    | head => exact ⟨tree, mem_cons_self, htree⟩
    | tail _ hrest =>
      obtain ⟨other, hother, hdenoted⟩ := hlater.field hrest
      exact ⟨other, mem_cons_of_mem _ hother, hdenoted⟩

variable {holder held : ℕ}

section

variable (hdenotes : Denotes heap tree (.reference holder))
include hdenotes

/-- What an object holds has a smaller part of its contents. -/
theorem Denotes.smaller (hrefers : Refers heap holder held) :
    ∃ part, Denotes heap part (.reference held) ∧ sizeOf part < sizeOf tree := by
  obtain ⟨elements, hcell, hmem⟩ | ⟨plain, symbols, fields, key, hcell, hmem⟩ := hrefers
  · cases tree with
    | array trees =>
      obtain ⟨address, others, haddress, hothers, htrees⟩ := hdenotes
      cases haddress
      rw [hcell] at hothers
      cases hothers
      obtain ⟨part, hpart, hdenoted⟩ := htrees.element hmem
      have hsize := sizeOf_lt_of_mem hpart
      exact ⟨part, hdenoted, by simp; omega⟩
    | _ => simp [Denotes, hcell] at hdenotes
  · cases tree with
    | object trees =>
      obtain ⟨address, others, haddress, hothers, -, htrees⟩ := hdenotes
      cases haddress
      rw [hcell] at hothers
      cases hothers
      have hdefined : (key, GuestSlot.reference held) ∈ definedFields fields := by
        rw [definedFields_eq, mem_filterMap]
        exact ⟨_, (perm_insertionSort _ _).mem_iff.mpr hmem, rfl⟩
      obtain ⟨part, hpart, hdenoted⟩ := htrees.field hdefined
      have hsize := sizeOf_lt_of_mem hpart
      have hpair : sizeOf part < sizeOf (key, part) := by simp
      exact ⟨part, hdenoted, by simp; omega⟩
    | _ => simp [Denotes, hcell] at hdenotes

theorem Denotes.reached (hreach : Relation.ReflTransGen (Refers heap) holder held) :
    ∃ part, Denotes heap part (.reference held) := by
  induction hreach with
  | refl => exact ⟨tree, hdenotes⟩
  | tail _ hrefers ih =>
    obtain ⟨part, hpart⟩ := ih
    obtain ⟨inner, hinner, -⟩ := hpart.smaller hrefers
    exact ⟨inner, hinner⟩

theorem Denotes.reached_smaller (hreach : Relation.TransGen (Refers heap) holder held) :
    ∃ part, Denotes heap part (.reference held) ∧ sizeOf part < sizeOf tree := by
  induction hreach with
  | single hrefers => exact hdenotes.smaller hrefers
  | tail _ hrefers ih =>
    obtain ⟨part, hpart, hsize⟩ := ih
    obtain ⟨inner, hinner, hless⟩ := hpart.smaller hrefers
    exact ⟨inner, hinner, hless.trans hsize⟩

end

theorem Denotes.not_cyclic {slot : GuestSlot} (hdenotes : Denotes heap tree slot) :
    ¬Cyclic heap slot := by
  rintro ⟨address, inner, rfl, hreach, hcycle⟩
  obtain ⟨part, hpart⟩ := hdenotes.reached hreach
  obtain ⟨again, hagain, hsize⟩ := hpart.reached_smaller hcycle
  rw [hagain.unique hpart] at hsize
  exact lt_irrefl _ hsize

/-- A failure is one that the guest sees. -/
def Ends {Result : Type} (attempt : Except Failure Result) : Prop :=
  attempt ≠ .error .exhausted

theorem Ends.bind {First Second : Type} {attempt : Except Failure First}
    {next : First → Except Failure Second} (hattempt : Ends attempt)
    (hnext : ∀ first, Ends (next first)) : Ends (attempt >>= next) := by
  cases attempt with
  | error failure => exact fun hfailure => hattempt (congrArg _ (Except.error.inj hfailure))
  | ok first => exact hnext first

theorem Ends.map {First Second : Type} {attempt : Except Failure First} {next : First → Second}
    (hattempt : Ends attempt) : Ends (attempt.map next) := by
  cases attempt with
  | error failure => exact fun hfailure => hattempt (congrArg _ (Except.error.inj hfailure))
  | ok first => exact fun hfailure => by cases hfailure

variable {Result : Type}

theorem ends_ok (result : Result) : Ends (.ok result) := fun hfailure => by
  cases hfailure

theorem ends_thrown (message : String) :
    Ends (.error (.thrown message) : Except Failure Result) := fun hfailure => by
  cases hfailure

theorem ends_validateObjectField (key : JsString) : Ends (validateObjectField key) := by
  unfold validateObjectField
  split_ifs
  · exact ends_thrown _
  · exact ends_thrown _
  · exact ends_ok ()
  · exact ends_thrown _

variable {encodeValue : GuestSlot → Except Failure Json}

theorem ends_encodeElements (hvalues : ∀ slot, Ends (encodeValue slot))
    (elements : List (Option GuestSlot)) : Ends (encodeElements encodeValue elements) := by
  induction elements with
  | nil => exact ends_ok []
  | cons element later ih =>
    cases element with
    | none => exact ends_thrown _
    | some slot => exact (hvalues slot).bind fun _ => ih.bind fun _ => ends_ok _

theorem ends_encodeFields (hvalues : ∀ slot, Ends (encodeValue slot))
    (fields : List (JsString × GuestProperty)) : Ends (encodeFields encodeValue fields) := by
  induction fields with
  | nil => exact ends_ok []
  | cons field later ih =>
    obtain ⟨key, property⟩ := field
    cases property with
    | accessor => exact ends_thrown _
    | data value =>
      by_cases hdefined : value = .undefined
      · subst hdefined
        exact ih
      · rw [encodeFields_data_eq _ _ _ hdefined]
        exact (ends_validateObjectField key).bind fun _ =>
          (hvalues value).bind fun _ => ih.bind fun _ => ends_ok _

/-- The encoder ends on every heap: it never enters an object twice. -/
theorem ends_encodeTagged {fuel : ℕ} {ancestors : List ℕ} (slot : GuestSlot)
    (hnodup : ancestors.Nodup) (hstored : ∀ address ∈ ancestors, address < heap.length)
    (hfuel : heap.length < fuel + ancestors.length) :
    Ends (encodeTagged heap fuel ancestors slot) := by
  induction fuel generalizing ancestors slot with
  | zero =>
    obtain ⟨rest, hrest⟩ := fuel_pos hnodup hstored hfuel
    cases hrest
  | succ fuel ih =>
    cases slot with
    | reference address =>
      rw [encodeTagged]
      cases hcell : heap[address]? with
      | none => exact ends_thrown _
      | some cell =>
        have hinner : address ∉ ancestors → ∀ value,
            Ends (encodeTagged heap fuel (address :: ancestors) value) := fun hfresh value =>
          ih value (nodup_cons.mpr ⟨hfresh, hnodup⟩)
            (forall_mem_cons.mpr ⟨stored_of_getElem? hcell, hstored⟩)
            (enter hfuel)
        cases cell with
        | bytes content => exact ends_ok _
        | array elements =>
          split_ifs with hentered
          · exact ends_thrown _
          · exact (ends_encodeElements (hinner hentered) elements).map
        | object plain symbols fields =>
          simp only
          split_ifs with hentered
          · exact ends_thrown _
          · exact ends_thrown _
          · exact ends_thrown _
          · exact (ends_encodeFields (hinner hentered) _).map
    | bigint value =>
      rw [encodeTagged, encodeInteger]
      split_ifs
      · exact ends_thrown _
      · exact ends_ok _
    | undefined | function =>
      exact ends_thrown _
    | _ =>
      exact ends_ok _

theorem guestEncodeTagged_cases (slot : GuestSlot) :
    (∃ json, guestEncodeTagged heap slot = .ok json) ∨
      ∃ message, guestEncodeTagged heap slot = .error (.thrown message) := by
  have hends : Ends (guestEncodeTagged heap slot) :=
    ends_encodeTagged slot nodup_nil (by simp) (by simp)
  cases hresult : guestEncodeTagged heap slot with
  | ok json => exact .inl ⟨json, rfl⟩
  | error failure =>
    cases failure with
    | thrown message => exact .inr ⟨message, rfl⟩
    | exhausted => exact absurd hresult hends

end Cycles

/-- The codec over all heaps, values and JSON: encoded values are restored,
cyclic ones are refused, and the exact forms and numbers on which restoring
and encoding again gives the same JSON and the tag the meaning it promises. -/
theorem guest_tagged_codec (heap : GuestHeap) (slot : GuestSlot) (json : Json) (value : JsNumber) :
    (guestEncodeTagged heap slot = .ok json →
      ∃ tree, restoreTagged (reparse json) = .ok tree ∧ Denotes heap tree slot) ∧
    (Cyclic heap slot → ∃ message, guestEncodeTagged heap slot = .error (.thrown message)) ∧
    (∀ tree, restoreTagged json = .ok tree → Denotes heap tree.sorted slot →
      (guestEncodeTagged heap slot = .ok json.sorted ↔ json.isCanonical = true)) ∧
    (((∃ text, encodeNumber value = tagged floatTag text) ↔ value.isSpecial = true) ↔
      value.isTiny = false) ∧
    ∀ encoded, restoreFloat encoded = .ok (.number value) →
      (value.isSpecial = true ↔ value.isTiny = false) := by
  have htagged : ∀ value : JsNumber,
      (value.isTagged = true ↔ value.isSpecial = true) ↔ value.isTiny = false := by
    intro value
    rw [JsNumber.isTagged_iff]
    cases htiny : value.isTiny with
    | false => simp
    | true => simp [JsNumber.isTiny_not_special htiny]
  refine ⟨restores_encodeTagged _ _ slot json, fun hcyclic => ?_,
    fun tree hrestore hdenotes => ?_, ?_, fun encoded hrestore => ?_⟩
  · obtain ⟨json, hencode⟩ | hthrown := guestEncodeTagged_cases slot
    · obtain ⟨tree, -, hdenotes⟩ := restores_encodeTagged _ _ slot json hencode
      exact absurd hcyclic hdenotes.not_cyclic
    · exact hthrown
  · rw [guestEncodeTagged_of_denotes (valid_of_restoreTagged hrestore) hdenotes,
      Except.ok.injEq]
    exact encodeTree_restored hrestore
  · rw [← htagged]
    have hnumber : (∃ text, encodeNumber value = tagged floatTag text) ↔
        value.isTagged = true := by
      unfold encodeNumber
      split
      · rename_i htag
        exact ⟨fun _ => htag, fun _ => ⟨_, rfl⟩⟩
      · rename_i hplain
        constructor
        · rintro ⟨text, htext⟩
          cases htext
        · exact fun htag => absurd htag hplain
    rw [hnumber]
  · obtain ⟨text, bytes, -, -, -, htag, hvalue⟩ := restoreFloat_ok hrestore
    rw [← htagged, GuestTree.number.inj hvalue, htag]
    exact ⟨fun hspecial => ⟨fun _ => hspecial, fun _ => rfl⟩, fun hsame => hsame.mp rfl⟩

theorem isTagged_smallest : (JsNumber.finite true 0 1).isTagged = true :=
  (JsNumber.isTagged_iff _).mpr (.inr (by decide))

/-- An unpadded text, shared contents, a cycle and ordinary numbers. -/
theorem guest_tagged_codec_applied :
    (∃ tree, restoreTagged (reparse (.array [.null, .null])) = .ok tree ∧
      Denotes [.array [some .null, some .null]] tree (.reference 0)) ∧
    (∃ message, guestEncodeTagged [.array [some (.reference 0)]] (.reference 0) =
      .error (.thrown message)) ∧
    (guestEncodeTagged [.bytes [65]] (.reference 0) =
      .ok (Json.sorted (tagged bytesTag (.string (utf16 "QQ==")))) ↔
      (tagged bytesTag (.string (utf16 "QQ=="))).isCanonical = true) ∧
    (((∃ text, encodeNumber (.finite true 0 0) = tagged floatTag text) ↔
      (JsNumber.finite true 0 0).isSpecial = true) ↔ (JsNumber.finite true 0 0).isTiny = false) ∧
    ((JsNumber.infinity true).isSpecial = true ↔ (JsNumber.infinity true).isTiny = false) := by
  obtain ⟨hrestored, -, -, htag, -⟩ := guest_tagged_codec [.array [some .null, some .null]]
    (.reference 0) (.array [.null, .null]) (.finite true 0 0)
  obtain ⟨-, hcyclic, -, -, hfloat⟩ := guest_tagged_codec [.array [some (.reference 0)]]
    (.reference 0) .null (.infinity true)
  obtain ⟨-, -, hcanonical, -⟩ := guest_tagged_codec [.bytes [65]] (.reference 0)
    (tagged bytesTag (.string (utf16 "QQ=="))) .nan
  refine ⟨hrestored rfl, hcyclic ?_, hcanonical (.bytes [65]) rfl ⟨0, rfl, rfl⟩, htag,
    hfloat (.string (encodeFloat (.infinity true))) (restoreFloat_encodeFloat rfl)⟩
  exact ⟨0, 0, rfl, .refl, .single (.inl ⟨_, rfl, mem_cons_self⟩)⟩

/-- The smallest negative number is written with the tag of the special ones,
and bytes whose text has no padding come back with it. -/
theorem guest_tagged_codec_slips :
    ((JsNumber.finite true 0 1).isSpecial = false ∧
      encodeNumber (.finite true 0 1) = tagged floatTag (.string (utf16 "AQAAAAAAAIA=")) ∧
      restoreFloat (.string (utf16 "AQAAAAAAAIA=")) = .ok (.number (.finite true 0 1))) ∧
    restoreTagged (tagged bytesTag (.string (utf16 "QQ"))) = .ok (.bytes [65]) ∧
      Denotes [.bytes [65]] (GuestTree.bytes [65]).sorted (.reference 0) ∧
      guestEncodeTagged [.bytes [65]] (.reference 0) =
        .ok (tagged bytesTag (.string (utf16 "QQ=="))) ∧
      utf16 "QQ==" ≠ utf16 "QQ" := by
  have htext : encodeFloat (.finite true 0 1) = utf16 "AQAAAAAAAIA=" := by decide +kernel
  refine ⟨⟨by decide, ?_, ?_⟩, rfl, ⟨0, rfl, rfl⟩, rfl, by decide⟩
  · rw [encodeNumber, if_pos isTagged_smallest, htext]
  · rw [← htext]
    exact restoreFloat_encodeFloat isTagged_smallest

end ConvexWasm.Guest
