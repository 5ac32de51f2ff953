import ConvexWasm.Selector.SelectorSource

/-!
# The lookup of a dependency

The generated function takes a candidate by the eight digits near the end of a
specifier and compares the whole specifier with the one in the table.  It finds
the dependency of the chunk that has the specifier, and no other.
-/

namespace ConvexWasm.Selector

open Fallible List

section Functions

/-- A string literal, as the C compiler reads it. -/
def bytesOf (value : String) : List UInt8 := value.toList.flatMap String.utf8EncodeChar

/-- The loop over the digits, in 32-bit arithmetic. -/
def readDigits : List UInt8 → ℕ → Option ℕ
  | [], occurrence => some occurrence
  | byte :: rest, occurrence =>
    let digit := (byte.toNat + (2 ^ 32 - 48)) % 2 ^ 32
    if 9 < digit then none else readDigits rest ((occurrence * 10 + digit) % 2 ^ 32)

/-- The row among those of the chunk that can have the specifier. -/
def candidateOccurrence (count : ℕ) (specifier : List UInt8) : Option ℕ :=
  if 1 < count then
    if specifier.length < 11 then none
    else
      match readDigits ((specifier.drop (specifier.length - 11)).take 8) 0 with
      | some occurrence => if count ≤ occurrence then none else some occurrence
      | none => none
  else some 0

variable (source : SelectorSource)

/-- `convex_wasm_application_chunk_dependency_by_specifier` -/
def dependencyBySpecifier (unitSlot : ℤ) (specifier : Option (List UInt8)) : ℤ :=
  match specifier with
  | none => -1
  | some specifier =>
    if unitSlot < 0 ∨ (source.chunkSlotCount : ℤ) ≤ unitSlot then -1
    else
      match source.dependencyRanges[unitSlot.toNat]? with
      | none => -1
      | some (offset, count) =>
        if count = 0 then -1
        else
          match candidateOccurrence count specifier with
          | none => -1
          | some occurrence =>
            match source.dependencyRows[offset + occurrence]? with
            | none => -1
            | some row => if specifier = bytesOf row.1 then row.2 else -1

/-- `convex_wasm_application_factory_by_unit_slot` -/
def factoryByUnitSlot (unitSlot : ℤ) : Option String :=
  if unitSlot < 0 then none else source.factorySymbols[unitSlot.toNat]?

/-- The slot of the dependency that a chunk has under a specifier. -/
def dependencySlot (descriptor : ApplicationDescriptor) (unitSlot : ℤ)
    (specifier : List UInt8) : ℤ :=
  if unitSlot < 0 ∨ (descriptor.chunkSlotCount : ℤ) ≤ unitSlot then -1
  else
    match descriptor.units[unitSlot.toNat]? with
    | none => -1
    | some unit =>
      match unit.dependencies.find? fun dependency =>
        bytesOf dependency.executableSpecifier = specifier with
      | none => -1
      | some dependency => dependency.slot

end Functions

theorem encode_digit {digit : Char} (hdigit : digit.isDigit = true) :
    ∃ byte, String.utf8EncodeChar digit = [byte] ∧ byte.toNat = digit.toNat ∧
      48 ≤ digit.toNat ∧ digit.toNat ≤ 57 := by
  have hrange : 48 ≤ digit.toNat ∧ digit.toNat ≤ 57 := by
    simp only [Char.isDigit, Bool.and_eq_true, decide_eq_true_eq] at hdigit
    exact hdigit
  refine ⟨UInt8.ofNat digit.toNat, ?_, ?_, hrange⟩
  · exact if_pos (show digit.toNat ≤ 127 by omega)
  · rw [UInt8.toNat_ofNat']
    omega

theorem readDigits_flatMap {digits : List Char} (hdigits : ∀ digit ∈ digits, digit.isDigit = true)
    (value : ℕ) (hbound : (value + 1) * 10 ^ digits.length ≤ 2 ^ 32) :
    readDigits (digits.flatMap String.utf8EncodeChar) value =
      some (digits.foldl (fun value digit => value * 10 + (digit.toNat - 48)) value) := by
  induction digits generalizing value with
  | nil => rfl
  | cons digit rest ih =>
    obtain ⟨byte, hencode, hbyte, hlow, hhigh⟩ := encode_digit (hdigits digit mem_cons_self)
    have hdigit : (byte.toNat + (2 ^ 32 - 48)) % 2 ^ 32 = digit.toNat - 48 := by omega
    have hpow : 1 ≤ 10 ^ rest.length := Nat.one_le_pow _ _ (by norm_num)
    -- The digits that are left to read bound the number read so far.
    have hnext : (value * 10 + (digit.toNat - 48) + 1) * 10 ^ rest.length ≤ 2 ^ 32 :=
      calc
        (value * 10 + (digit.toNat - 48) + 1) * 10 ^ rest.length ≤
            ((value + 1) * 10) * 10 ^ rest.length := Nat.mul_le_mul_right _ (by omega)
        _ = (value + 1) * (10 ^ rest.length * 10) := by ring
        _ ≤ 2 ^ 32 := hbound
    have hsmall : value * 10 + (digit.toNat - 48) < 2 ^ 32 := by nlinarith
    rw [flatMap_cons, hencode, singleton_append, readDigits, hdigit,
      if_neg (by omega), Nat.mod_eq_of_lt hsmall,
      ih (fun other hmem => hdigits other (mem_cons_of_mem _ hmem)) _ hnext,
      foldl_cons]

theorem length_flatMap_digits {digits : List Char}
    (hdigits : ∀ digit ∈ digits, digit.isDigit = true) :
    (digits.flatMap String.utf8EncodeChar).length = digits.length := by
  induction digits with
  | nil => rfl
  | cons digit rest ih =>
    obtain ⟨byte, hencode, _⟩ := encode_digit (hdigits digit mem_cons_self)
    rw [flatMap_cons, hencode, length_append, length_singleton,
      ih fun other hmem => hdigits other (mem_cons_of_mem _ hmem), length_cons,
      Nat.add_comm]

variable {specifier : String} {identity : ExecutableDependency} {rest : List Char} {found : ℕ}

/-- An executable specifier ends in eight digits and an extension. -/
def EndsInOccurrence (specifier : String) (occurrence : ℕ) : Prop :=
  ∃ before digits, specifier.toList = before ++ (digits ++ ".js".toList) ∧ digits.length = 8 ∧
    (∀ digit ∈ digits, digit.isDigit = true) ∧ occurrence = digitsValue digits

theorem ends_of_parseOccurrence {before : List Char} (hparse : parseOccurrence rest = some found)
    (hspecifier : specifier.toList = before ++ rest) : EndsInOccurrence specifier found := by
  rw [parseOccurrence] at hparse
  split at hparse
  · next hshape =>
      obtain ⟨hlength, hdigits, hafter⟩ := hshape
      refine ⟨before, rest.take 8, ?_, hlength, all_eq_true.mp hdigits, ?_⟩
      · rw [← hafter, take_append_drop, hspecifier]
      · exact (Option.some.inj hparse).symm
  · cases hparse

theorem ends_of_parseInitialization
    (hparse : parseInitialization specifier.toList = some identity) :
    EndsInOccurrence specifier identity.occurrence := by
  obtain ⟨after, hafter, hrest⟩ := Option.bind_eq_some_iff.mp hparse
  obtain ⟨occurrence, hoccurrence, hidentity⟩ := Option.bind_eq_some_iff.mp hrest
  obtain ⟨before, hspecifier, _⟩ := List.dropPrefix?_eq_some_iff.mp hafter
  rw [← Option.some.inj hidentity]
  exact ends_of_parseOccurrence hoccurrence hspecifier

theorem ends_of_parseNamed {kind : DependencyKind} {name : String}
    (hparse : parseNamed kind name specifier.toList = some identity) :
    EndsInOccurrence specifier identity.occurrence := by
  obtain ⟨after, hafter, hrest⟩ := Option.bind_eq_some_iff.mp hparse
  obtain ⟨digits, hdigits, hlater⟩ := Option.bind_eq_some_iff.mp hrest
  obtain ⟨occurrence, hoccurrence, hidentity⟩ := Option.bind_eq_some_iff.mp hlater
  obtain ⟨before, hspecifier, _⟩ := List.dropPrefix?_eq_some_iff.mp hafter
  obtain ⟨between, hbetween, _⟩ := List.dropPrefix?_eq_some_iff.mp hdigits
  have hparts : specifier.toList = (before ++ (after.take 64 ++ between)) ++ digits := by
    rw [append_assoc, append_assoc, ← hbetween, take_append_drop, hspecifier]
  split at hidentity
  · rw [← Option.some.inj hidentity]
    exact ends_of_parseOccurrence hoccurrence hparts
  · cases hidentity

theorem ends_of_parse
    (hparse : parseConvexWasmOfficialOutputExecutableDependencySpecifier specifier = .ok identity) :
    EndsInOccurrence specifier identity.occurrence := by
  rw [parseConvexWasmOfficialOutputExecutableDependencySpecifier] at hparse
  split at hparse
  · next parsed hparsed =>
      obtain rfl := Except.ok.inj hparse
      rw [Option.orElse_eq_orElse, Option.orElse_eq_or, Option.or_eq_some_iff] at hparsed
      rcases hparsed with hfirst | ⟨_, hlater⟩
      · exact ends_of_parseInitialization hfirst
      · rw [Option.orElse_eq_or, Option.or_eq_some_iff] at hlater
        rcases hlater with hsecond | ⟨_, hthird⟩
        · exact ends_of_parseNamed hsecond
        · exact ends_of_parseNamed hthird
  · cases hparse

/-- The generated loop reads the occurrence that the parser reads. -/
theorem candidateOccurrence_bytesOf {occurrence count : ℕ}
    (hends : EndsInOccurrence specifier occurrence) (hcount : 1 < count)
    (hoccurrence : occurrence < count) :
    candidateOccurrence count (bytesOf specifier) = some occurrence := by
  obtain ⟨before, digits, hspecifier, hlength, hdigits, rfl⟩ := hends
  have hextension : (".js".toList.flatMap String.utf8EncodeChar).length = 3 := by decide
  have hbytes : bytesOf specifier = before.flatMap String.utf8EncodeChar ++
      (digits.flatMap String.utf8EncodeChar ++ ".js".toList.flatMap String.utf8EncodeChar) := by
    rw [bytesOf, hspecifier, flatMap_append, flatMap_append]
  have hread : readDigits (digits.flatMap String.utf8EncodeChar) 0 = some (digitsValue digits) :=
    readDigits_flatMap hdigits 0 (by rw [hlength]; norm_num)
  have hdigitBytes := length_flatMap_digits hdigits
  have htotal : (bytesOf specifier).length =
      (before.flatMap String.utf8EncodeChar).length + 11 := by
    rw [hbytes, length_append, length_append, hdigitBytes, hlength, hextension]
  have hcut : ((bytesOf specifier).drop ((bytesOf specifier).length - 11)).take 8 =
      digits.flatMap String.utf8EncodeChar := by
    rw [htotal, Nat.add_sub_cancel, hbytes, drop_left, ← hlength, ← hdigitBytes, take_left]
  rw [candidateOccurrence, if_pos hcount, if_neg (by omega), hcut, hread]
  exact if_neg (by omega)

theorem candidateOccurrence_lt {occurrence count : ℕ} {bytes : List UInt8} (hcount : 0 < count)
    (hcandidate : candidateOccurrence count bytes = some occurrence) : occurrence < count := by
  rw [candidateOccurrence] at hcandidate
  split at hcandidate
  · split at hcandidate
    · cases hcandidate
    · split at hcandidate
      · split at hcandidate
        · cases hcandidate
        · next hless => exact Option.some.inj hcandidate ▸ not_le.mp hless
      · cases hcandidate
  · exact Option.some.inj hcandidate ▸ hcount

variable {dependencies : List Dependency} {namespaceSlotCount : ℕ} {description : String}
  {normalized : List (Dependency × ExecutableDependency)}

theorem normalizeDependency_parse {index : ℕ} {dependency : Dependency}
    {identity : ExecutableDependency}
    (hnormalize : normalizeDependency namespaceSlotCount description index dependency =
      .ok identity) :
    parseConvexWasmOfficialOutputExecutableDependencySpecifier dependency.executableSpecifier =
      .ok identity := by
  rw [normalizeDependency] at hnormalize
  split at hnormalize
  · cases hnormalize
  · obtain ⟨executable, hexecutable, hrest⟩ := bind_eq_ok.mp hnormalize
    obtain ⟨parsed, hparsed, hlater⟩ := bind_eq_ok.mp hrest
    have hsame : executable = dependency.executableSpecifier := by
      simp only [requireManifestString] at hexecutable
      split_ifs at hexecutable <;> first | cases hexecutable; rfl | cases hexecutable
    split at hlater
    · cases hlater
    · obtain ⟨_, _, hpath⟩ := bind_eq_ok.mp hlater
      obtain ⟨_, _, hspecifier⟩ := bind_eq_ok.mp hpath
      rw [← hsame, hparsed, ← Except.ok.inj hspecifier]

theorem normalizeDependencies_spec {index : ℕ}
    (hnormalize : normalizeDependencies namespaceSlotCount description index dependencies =
      .ok normalized) :
    normalized.map Prod.fst = dependencies ∧ ∀ entry ∈ normalized,
      parseConvexWasmOfficialOutputExecutableDependencySpecifier entry.1.executableSpecifier =
        .ok entry.2 := by
  induction dependencies generalizing index normalized with
  | nil =>
    rw [← Except.ok.inj hnormalize]
    exact ⟨rfl, fun entry hentry => absurd hentry not_mem_nil⟩
  | cons dependency rest ih =>
    obtain ⟨identity, hidentity, hrest⟩ := bind_eq_ok.mp hnormalize
    obtain ⟨later, hlater, hnormalized⟩ := bind_eq_ok.mp hrest
    obtain ⟨hfirst, hparse⟩ := ih hlater
    rw [← Except.ok.inj hnormalized]
    refine ⟨by rw [map_cons, hfirst], ?_⟩
    exact forall_mem_cons.mpr ⟨normalizeDependency_parse hidentity, hparse⟩

/-- What the selector relies on: the specifiers are distinct and their
occurrences, in order, count the dependencies. -/
structure DenseDependencies (dependencies : List Dependency) : Prop where
  ends : ∀ dependency ∈ dependencies,
    EndsInOccurrence dependency.executableSpecifier (occurrenceOf dependency)
  distinct : (dependencies.map (·.executableSpecifier)).Nodup
  dense : (dependencies.map occurrenceOf).insertionSort (· ≤ ·) = List.range dependencies.length

theorem normalize_dense
    (hnormalize : normalizeConvexWasmOfficialOutputChunkDependencies dependencies
      namespaceSlotCount description = .ok normalized) : DenseDependencies dependencies := by
  obtain ⟨found, hfound, hrest⟩ := bind_eq_ok.mp hnormalize
  obtain ⟨hfirst, hparse⟩ := normalizeDependencies_spec hfound
  have hoccurrence : ∀ entry ∈ found, occurrenceOf entry.1 = entry.2.occurrence :=
    fun entry hentry => by rw [occurrenceOf, hparse entry hentry]
  have hoccurrences : dependencies.map occurrenceOf = found.map (·.2.occurrence) := by
    rw [← hfirst, map_map]
    exact map_congr_left hoccurrence
  split at hrest
  · cases hrest
  · next hdistinct =>
      dsimp only at hrest
      split at hrest
      · cases hrest
      · next hdense =>
          refine ⟨fun dependency hmem => ?_, not_not.mp hdistinct, ?_⟩
          · rw [← hfirst] at hmem
            obtain ⟨entry, hentry, rfl⟩ := mem_map.mp hmem
            rw [hoccurrence entry hentry]
            exact ends_of_parse (hparse entry hentry)
          · rw [hoccurrences, not_not.mp hdense, length_insertionSort, length_map,
              ← hfirst, length_map]

theorem DenseDependencies.occurrence_lt (hdense : DenseDependencies dependencies)
    {dependency : Dependency} (hmem : dependency ∈ dependencies) :
    occurrenceOf dependency < dependencies.length := by
  rw [← mem_range, ← hdense.dense, mem_insertionSort]
  exact mem_map_of_mem hmem

theorem DenseDependencies.eq_of_occurrence (hdense : DenseDependencies dependencies)
    {left right : Dependency} (hleft : left ∈ dependencies) (hright : right ∈ dependencies)
    (hsame : occurrenceOf left = occurrenceOf right) : left = right := by
  have hnodup : (dependencies.map occurrenceOf).Nodup := by
    rw [← (perm_insertionSort (· ≤ ·) _).nodup_iff, hdense.dense]
    exact nodup_range
  exact inj_on_of_nodup_map hnodup hleft hright hsame

/-- The row of an occurrence is the dependency with that occurrence. -/
theorem orderedRows_spec {unit : ApplicationUnit} (hdense : DenseDependencies unit.dependencies)
    {occurrence : ℕ} (hoccurrence : occurrence < unit.dependencies.length) :
    ∃ dependency ∈ unit.dependencies, occurrenceOf dependency = occurrence ∧
      (orderedRows unit)[occurrence]? = some (dependency.executableSpecifier, dependency.slot) := by
  let ordered := unit.dependencies.insertionSort fun left right =>
    occurrenceOf left ≤ occurrenceOf right
  have hlength : ordered.length = unit.dependencies.length := length_insertionSort _ _
  have hbound : occurrence < ordered.length := hlength ▸ hoccurrence
  have hsorted : ordered.map occurrenceOf = List.range unit.dependencies.length := by
    rw [← hdense.dense]
    exact map_insertionSort _ _ _ _ fun _ _ _ _ => Iff.rfl
  refine ⟨ordered[occurrence], ?_, ?_, ?_⟩
  · exact (mem_insertionSort _).mp (getElem_mem hbound)
  · have hfound : (ordered.map occurrenceOf)[occurrence]? = some occurrence := by
      rw [hsorted, List.getElem?_range hoccurrence]
    rw [List.getElem?_map, List.getElem?_eq_getElem hbound] at hfound
    exact Option.some.inj hfound
  · rw [orderedRows, List.getElem?_map]
    exact congrArg _ (List.getElem?_eq_getElem hbound)

section Tables

theorem dependencyTables_append (units : List ApplicationUnit) (unit : ApplicationUnit) :
    dependencyTables (units ++ [unit]) =
      ((dependencyTables units).1 ++ orderedRows unit,
        (dependencyTables units).2 ++
          [((dependencyTables units).1.length, unit.dependencies.length)]) := by
  rw [dependencyTables, foldl_append]
  rfl

theorem length_orderedRows (unit : ApplicationUnit) :
    (orderedRows unit).length = unit.dependencies.length := by
  rw [orderedRows, length_map, length_insertionSort]

theorem length_dependencyRanges (units : List ApplicationUnit) :
    (dependencyTables units).2.length = units.length := by
  induction units using List.reverseRecOn with
  | nil => rfl
  | append_singleton units unit ih =>
    rw [dependencyTables_append, length_append, length_append, ih]
    rfl

/-- The range of a chunk has its rows. -/
theorem dependencyTables_range {units : List ApplicationUnit} {slot : ℕ} {unit : ApplicationUnit}
    (hunit : units[slot]? = some unit) :
    ∃ offset, (dependencyTables units).2[slot]? = some (offset, unit.dependencies.length) ∧
      ∀ occurrence < unit.dependencies.length,
        (dependencyTables units).1[offset + occurrence]? = (orderedRows unit)[occurrence]? := by
  induction units using List.reverseRecOn with
  | nil => cases hunit
  | append_singleton units last ih =>
    rw [dependencyTables_append]
    by_cases hbefore : slot < units.length
    · rw [List.getElem?_append_left hbefore] at hunit
      obtain ⟨offset, hrange, hrows⟩ := ih hunit
      have hslot : slot < (dependencyTables units).2.length :=
        (List.getElem?_eq_some_iff.mp hrange).1
      refine ⟨offset, by rw [List.getElem?_append_left hslot, hrange], ?_⟩
      intro occurrence hoccurrence
      have hrow := hrows occurrence hoccurrence
      have hfound : ∃ row, (orderedRows unit)[occurrence]? = some row :=
        ⟨_, List.getElem?_eq_getElem (by rwa [length_orderedRows])⟩
      obtain ⟨row, hfound⟩ := hfound
      rw [hfound] at hrow ⊢
      rw [List.getElem?_append_left (List.getElem?_eq_some_iff.mp hrow).1, hrow]
    · have hslot : slot = units.length := by
        have hbound := (List.getElem?_eq_some_iff.mp hunit).1
        rw [length_append, length_singleton] at hbound
        omega
      rw [hslot, List.getElem?_concat_length] at hunit
      rw [hslot, ← Option.some.inj hunit]
      refine ⟨(dependencyTables units).1.length, ?_, ?_⟩
      · rw [← length_dependencyRanges units, List.getElem?_concat_length]
      · intro occurrence _
        rw [List.getElem?_append_right (Nat.le_add_right _ _), Nat.add_sub_cancel_left]

variable {source : SelectorSource} {descriptor : ApplicationDescriptor}

/-- The candidate of a chunk is the dependency with the specifier, if there is one. -/
theorem candidate_spec {unit : ApplicationUnit} (hdense : DenseDependencies unit.dependencies)
    {dependency : Dependency} (hmem : dependency ∈ unit.dependencies) :
    candidateOccurrence unit.dependencies.length (bytesOf dependency.executableSpecifier) =
      some (occurrenceOf dependency) := by
  have hbound := hdense.occurrence_lt hmem
  by_cases hcount : 1 < unit.dependencies.length
  · exact candidateOccurrence_bytesOf (hdense.ends dependency hmem) hcount hbound
  · rw [candidateOccurrence, if_neg hcount]
    congr 1
    omega

theorem dependencyBySpecifier_eq (hcount : source.chunkSlotCount = descriptor.chunkSlotCount)
    (hrows : source.dependencyRows =
      (dependencyTables (descriptor.units.take descriptor.chunkSlotCount)).1)
    (hranges : source.dependencyRanges =
      (dependencyTables (descriptor.units.take descriptor.chunkSlotCount)).2)
    (unitSlot : ℤ) (specifier : List UInt8) :
    dependencyBySpecifier source unitSlot (some specifier) =
      dependencySlot descriptor unitSlot specifier := by
  rw [dependencyBySpecifier, dependencySlot, hcount]
  by_cases houtside : unitSlot < 0 ∨ (descriptor.chunkSlotCount : ℤ) ≤ unitSlot
  · rw [if_pos houtside, if_pos houtside]
  rw [if_neg houtside, if_neg houtside]
  have hslot : unitSlot.toNat < descriptor.chunkSlotCount := by omega
  have hlength : unitSlot.toNat < descriptor.units.length := by
    rw [descriptor.units_length]
    exact Nat.lt_add_right _ hslot
  let unit := descriptor.units[unitSlot.toNat]
  have hunit : descriptor.units[unitSlot.toNat]? = some unit := List.getElem?_eq_getElem hlength
  have htaken : (descriptor.units.take descriptor.chunkSlotCount)[unitSlot.toNat]? = some unit := by
    rw [List.getElem?_take_of_lt hslot, hunit]
  obtain ⟨offset, hrange, hrow⟩ := dependencyTables_range htaken
  obtain ⟨_, hnormalize⟩ := descriptor.dependencies unit (getElem_mem hlength)
  have hdense := normalize_dense hnormalize
  rw [hunit, hranges, hrange, hrows]
  dsimp only
  by_cases hempty : unit.dependencies.length = 0
  · rw [if_pos hempty, length_eq_zero_iff.mp hempty]
    rfl
  rw [if_neg hempty]
  cases hfind : unit.dependencies.find? fun dependency =>
      bytesOf dependency.executableSpecifier = specifier with
  | some dependency =>
    have hmem := mem_of_find?_eq_some hfind
    have hsame : bytesOf dependency.executableSpecifier = specifier := by
      simpa using List.find?_some hfind
    have hbound := hdense.occurrence_lt hmem
    obtain ⟨other, hother, hoccurrence, hfound⟩ := orderedRows_spec hdense hbound
    have heq : other = dependency := hdense.eq_of_occurrence hother hmem hoccurrence
    rw [← hsame, candidate_spec hdense hmem]
    dsimp only
    rw [hrow _ hbound, hfound, heq]
    exact if_pos rfl
  | none =>
    have hnone : ∀ dependency ∈ unit.dependencies,
        specifier ≠ bytesOf dependency.executableSpecifier := fun dependency hmem heq =>
      List.find?_eq_none.mp hfind dependency hmem (decide_eq_true heq.symm)
    cases hcandidate : candidateOccurrence unit.dependencies.length specifier with
    | none => rfl
    | some occurrence =>
      dsimp only
      have hbound := candidateOccurrence_lt (Nat.pos_of_ne_zero hempty) hcandidate
      obtain ⟨other, hother, _, hfound⟩ := orderedRows_spec hdense hbound
      rw [hrow _ hbound, hfound]
      exact if_neg (hnone other hother)

end Tables

end ConvexWasm.Selector
