import ConvexWasm.Compiler.SourceFingerprint

/-!
# What the fingerprints separate

The hashed bytes determine the pieces into which zero bytes cut the fields, so
two compilations are told apart exactly when different records leave different
pieces.  Fields without zero bytes, in lists of equal lengths, always do; the
descriptors need no equal lengths, because a tag stands before each.
-/

namespace ConvexWasm.Compiler.SourceFingerprint

open List TerminatedStream

variable {digest : List UInt8 → String}

section Records

variable {Dependency Operation : Type} (descriptors : Descriptors Dependency Operation)
  [DecidableEq Dependency] [DecidableEq Operation]

structure AppliedRecords (Dependency Operation : Type) where
  dependencies : List Dependency
  registrationAdapter : Option AppliedRegistrationAdapter
  operations : List (Operation × String)

def appliedRecords (compilation : Compilation Dependency Operation) :
    Option (AppliedRecords Dependency Operation) := do
  let dependencies ← valuesById descriptors.dependencyId compilation.dependencyAdapterCalls
  let operations ← valuesById (fun operation => descriptors.operationId operation.1)
    compilation.sourceOperations
  some ⟨dependencies, compilation.registrationAdapter, operations⟩

/-- The records of a source fingerprint or of a graph fingerprint: its units are the
reachable units with their sources, or the modules with their hashes. -/
structure Records (Dependency Operation : Type) where
  units : List (String × String)
  imports : List ResolvedImport
  generatedApiMaterials : List AuthenticatedGeneratedApiMaterial
  applied : AppliedRecords Dependency Operation

def sourceRecords (compilation : Compilation Dependency Operation) :
    Option (Records Dependency Operation) := do
  let applied ← appliedRecords descriptors compilation
  some ⟨compilation.reachable.map fun unit => (unit.id, unit.source), compilation.imports,
    compilation.generatedApiMaterials, applied⟩

def graphRecords (compilation : Compilation Dependency Operation) :
    Option (Records Dependency Operation) := do
  let modules ← reachableModules compilation
  let applied ← appliedRecords descriptors compilation
  some ⟨modules, compilation.imports, compilation.generatedApiMaterials, applied⟩

/-- Different records have different fingerprints. -/
def Separated {Input Record : Type} (fingerprint : Input → Option String)
    (records : Input → Option Record) (input other : Input) : Prop :=
  ∀ found found', records input = some found → records other = some found' →
    found ≠ found' → fingerprint input ≠ fingerprint other

/-- Different records leave different pieces. -/
def Distinguished {Input Record : Type} (fields : Input → Option (List (List UInt8)))
    (records : Input → Option Record) (input other : Input) : Prop :=
  (fields input).map (pieces 0) = (fields other).map (pieces 0) → records input = records other

variable {descriptors}

theorem fingerprint_eq_iff (hdigest : Function.Injective digest)
    (fields fields' : Option (List (List UInt8))) :
    (fields.map fun found => digest (stream 0 found)) =
        (fields'.map fun found => digest (stream 0 found)) ↔
      fields.map (pieces 0) = fields'.map (pieces 0) := by
  cases fields <;> cases fields' <;> simp [hdigest.eq_iff, stream_eq_iff]

theorem separated_iff {Input Record : Type} {fields : Input → Option (List (List UInt8))}
    {records : Input → Option Record} (hdigest : Function.Injective digest)
    (hrecords : ∀ input, (records input).isSome = (fields input).isSome) (input other : Input) :
    Separated (fun input => (fields input).map fun found => digest (stream 0 found)) records
      input other ↔ Distinguished fields records input other := by
  constructor
  · intro hseparated hpieces
    have hsome : (records input).isSome = (records other).isSome := by
      have hmap := congrArg Option.isSome hpieces
      rwa [Option.isSome_map, Option.isSome_map, ← hrecords, ← hrecords] at hmap
    cases hinput : records input with
    | none =>
      rw [hinput, Option.isSome_none] at hsome
      exact (Option.not_isSome_iff_eq_none.mp (by simp [← hsome])).symm
    | some found =>
      rw [hinput] at hsome
      obtain ⟨found', hother⟩ := Option.isSome_iff_exists.mp hsome.symm
      by_contra hne
      apply hseparated found found' hinput hother
      · intro hsame
        rw [hother, hsame] at hne
        exact hne rfl
      · exact (fingerprint_eq_iff hdigest _ _).mpr hpieces
  · intro hdistinguished found found' hinput hother hne hsame
    have hrecord := hdistinguished ((fingerprint_eq_iff hdigest _ _).mp hsame)
    rw [hinput, hother] at hrecord
    exact hne (Option.some.inj hrecord)

theorem sourceFingerprint_eq (compilation : Compilation Dependency Operation) :
    sourceFingerprint descriptors digest compilation =
      (sourceFields descriptors compilation).map fun found => digest (stream 0 found) := by
  cases hfields : sourceFields descriptors compilation <;> simp [sourceFingerprint, hfields]

theorem sourceGraphFingerprint_eq (compilation : Compilation Dependency Operation) :
    sourceGraphFingerprint descriptors digest compilation =
      (graphFields descriptors compilation).map fun found => digest (stream 0 found) := by
  cases hfields : graphFields descriptors compilation <;> simp [sourceGraphFingerprint, hfields]

end Records

section Descriptors

variable {Dependency Operation : Type} {descriptors : Descriptors Dependency Operation}

/-- A text without zero bytes. -/
def Plain (text : String) : Prop := 0 ∉ asBytes text

structure PlainAdapter (adapter : AppliedRegistrationAdapter) : Prop where
  texts : ∀ text ∈ adapterTexts adapter, Plain text
  properties : ∀ parameter ∈ adapter.descriptor.authentication.resultParameters,
    Plain (parameter.property.getD "")

variable (descriptors) in
/-- The fields of the applied records, which end both fingerprints. -/
def appliedFieldsOf (applied : AppliedRecords Dependency Operation) : List (List UInt8) :=
  applied.dependencies.flatMap (dependencyFields descriptors) ++
    applied.registrationAdapter.toList.flatMap adapterFields ++
    applied.operations.flatMap (operationFields descriptors)

theorem length_toLeBytes (width value : ℕ) : (toLeBytes width value).length = width := by
  induction width generalizing value with
  | zero => rfl
  | succ width ih => rw [toLeBytes, length_cons, ih]

theorem toLeBytes_injective {width value other : ℕ} (hvalue : value < 256 ^ width)
    (hother : other < 256 ^ width) (heq : toLeBytes width value = toLeBytes width other) :
    value = other := by
  induction width generalizing value other with
  | zero => omega
  | succ width ih =>
    simp only [toLeBytes, List.cons.injEq] at heq
    have hlow : value % 256 = other % 256 := by
      have hbyte := congrArg UInt8.toNat heq.1
      simpa using hbyte
    have hhigh : value / 256 = other / 256 := by
      apply ih _ _ heq.2
      · rw [Nat.div_lt_iff_lt_mul (by norm_num)]
        rwa [pow_succ] at hvalue
      · rw [Nat.div_lt_iff_lt_mul (by norm_num)]
        rwa [pow_succ] at hother
    omega

def dependencyTag : List UInt8 := asBytes "convex-wasm-applied-dependency-adapter"

def adapterTag : List UInt8 := asBytes "convex-wasm-applied-registration-adapter"

def operationTag : List UInt8 := asBytes "convex-wasm-applied-source-operation"

variable (descriptors) in
/-- The stream of the operations starts with their tag, or is empty. -/
theorem leading_operations (operations : List (Operation × String)) :
    leading 0 (stream 0 (operations.flatMap (operationFields descriptors))) = [] ∨
      leading 0 (stream 0 (operations.flatMap (operationFields descriptors))) =
        operationTag := by
  cases operations with
  | nil => exact Or.inl rfl
  | cons operation rest =>
    right
    rw [flatMap_cons, operationFields, cons_append, stream_cons]
    exact leading_field (by decide) _

theorem operations_injective (hjson : descriptors.Json) {operations other : List (Operation × String)}
    (hplain : ∀ operation ∈ operations, Plain operation.2)
    (hplain' : ∀ operation ∈ other, Plain operation.2)
    (heq : stream 0 (operations.flatMap (operationFields descriptors)) =
      stream 0 (other.flatMap (operationFields descriptors))) : operations = other := by
  have hfree : ∀ {list : List (Operation × String)}, (∀ operation ∈ list, Plain operation.2) →
      ∀ field ∈ list.flatMap (operationFields descriptors), 0 ∉ field := by
    intro list hlist field hfield
    obtain ⟨operation, hmem, hfield⟩ := mem_flatMap.mp hfield
    simp only [operationFields, mem_cons, not_mem_nil, or_false] at hfield
    rcases hfield with rfl | rfl | rfl
    · decide
    · exact hjson.operation_escaped _
    · exact hlist operation hmem
  have hwidth : ∀ operation : Operation × String,
      (operationFields descriptors operation).length = 3 := fun _ => rfl
  have hinjective : Function.Injective (operationFields descriptors) := by
    intro operation operation' hsame
    simp only [operationFields, List.cons.injEq, true_and, and_true] at hsame
    exact Prod.ext (hjson.operation_injective hsame.1) (asBytes_injective hsame.2)
  exact flatMap_injective hwidth (by norm_num) hinjective
    (stream_injective (hfree hplain) (hfree hplain') heq)

/-- The zero byte after the eight bytes of an index tells parameters from the tag of
an operation. -/
theorem parameters_ne_operations (parameter : RegistrationAdapterResultParameter)
    (rest : List UInt8) (operations : List (Operation × String)) :
    stream 0 (parameterFields parameter) ++ rest ≠
      stream 0 (operations.flatMap (operationFields descriptors)) := by
  intro heq
  have hleft : (stream 0 (parameterFields parameter) ++ rest)[8]? = some 0 := by
    rfl
  rw [heq] at hleft
  cases operations with
  | nil => simp at hleft
  | cons operation operations =>
    rw [flatMap_cons, operationFields, cons_append, stream_cons,
      List.getElem?_append_left (by decide)] at hleft
    exact absurd hleft (by decide)

variable {operations operations' : List (Operation × String)}

theorem parameters_cancel {parameters other : List RegistrationAdapterResultParameter}
    (hplain : ∀ parameter ∈ parameters, Plain (parameter.property.getD ""))
    (hplain' : ∀ parameter ∈ other, Plain (parameter.property.getD ""))
    (hpresence : ∀ parameter ∈ parameters, ∀ parameter' ∈ other,
      parameter.property.isSome = parameter'.property.isSome)
    (heq : stream 0 (parameters.flatMap parameterFields) ++
        stream 0 (operations.flatMap (operationFields descriptors)) =
      stream 0 (other.flatMap parameterFields) ++
        stream 0 (operations'.flatMap (operationFields descriptors))) :
    parameters = other ∧ stream 0 (operations.flatMap (operationFields descriptors)) =
      stream 0 (operations'.flatMap (operationFields descriptors)) := by
  induction parameters generalizing other with
  | nil =>
    cases other with
    | nil => exact ⟨rfl, heq⟩
    | cons parameter' other =>
      rw [flatMap_cons, stream_append, append_assoc] at heq
      exact absurd heq.symm (parameters_ne_operations parameter' _ operations)
  | cons parameter parameters ih =>
    cases other with
    | nil =>
      rw [flatMap_cons, stream_append, append_assoc] at heq
      exact absurd heq (parameters_ne_operations parameter _ operations')
    | cons parameter' other =>
      simp only [flatMap_cons, parameterFields, stream_cons, append_assoc,
        cons_append, nil_append] at heq
      obtain ⟨hindex, hrest⟩ := append_inj heq (by rw [length_toLeBytes, length_toLeBytes])
      rw [List.cons.injEq] at hrest
      obtain ⟨hproperty, hrest⟩ := field_cancel (hplain parameter mem_cons_self)
        (hplain' parameter' mem_cons_self) hrest.2
      obtain ⟨hsame, hoperations⟩ := ih
        (fun parameter hmem => hplain parameter (mem_cons_of_mem _ hmem))
        (fun parameter hmem => hplain' parameter (mem_cons_of_mem _ hmem))
        (fun parameter hmem parameter' hmem' => hpresence parameter
          (mem_cons_of_mem _ hmem) parameter' (mem_cons_of_mem _ hmem')) hrest
      have hfirst : parameter = parameter' := by
        have hnat : parameter.callbackParameterIndex.toNat =
            parameter'.callbackParameterIndex.toNat :=
          toLeBytes_injective parameter.callbackParameterIndex.toNat_lt
            parameter'.callbackParameterIndex.toNat_lt hindex
        have htext := asBytes_injective hproperty
        obtain ⟨index, property⟩ := parameter
        obtain ⟨index', property'⟩ := parameter'
        have hindices : index = index' := UInt64.toNat_inj.mp hnat
        cases property <;> cases property' <;> simp_all
      exact ⟨by rw [hfirst, hsame], hoperations⟩

variable {adapter other : AppliedRegistrationAdapter}

/-- The presence of a property is decided by the kind of the adapter's result. -/
theorem AppliedRegistrationAdapter.Valid.presence (hvalid : adapter.Valid) (hvalid' : other.Valid)
    (hkind : adapter.descriptor.authentication.resultKind =
      other.descriptor.authentication.resultKind) :
    ∀ parameter ∈ adapter.descriptor.authentication.resultParameters,
      ∀ parameter' ∈ other.descriptor.authentication.resultParameters,
        parameter.property.isSome = parameter'.property.isSome := by
  intro parameter hparameter parameter' hparameter'
  rcases hvalid.properties with ⟨hobject, hall⟩ | ⟨hvalue, hall⟩ <;>
    rcases hvalid'.properties with ⟨hobject', hall'⟩ | ⟨hvalue', hall'⟩
  · rw [hall parameter hparameter, hall' parameter' hparameter']
  · rw [hkind, hvalue'] at hobject
    exact absurd hobject (by decide)
  · rw [hkind, hobject'] at hvalue
    exact absurd hvalue (by decide)
  · rw [hall parameter hparameter, hall' parameter' hparameter']

/-- The hashed fields determine a valid adapter. -/
theorem adapter_eq (hvalid : adapter.Valid) (hvalid' : other.Valid)
    (htexts : adapterTexts adapter = adapterTexts other)
    (hparameters : adapter.descriptor.authentication.resultParameters =
      other.descriptor.authentication.resultParameters) : adapter = other := by
  obtain ⟨⟨id, ⟨path, name, sha⟩, kind, ⟨⟨helperPath, helperName, helperSha⟩, result,
    parameters⟩⟩, wrapper, wrapperUnit, wrapperSha, helper, helperUnit, helperUnitSha⟩ := adapter
  obtain ⟨⟨id', ⟨path', name', sha'⟩, kind', ⟨⟨helperPath', helperName', helperSha'⟩, result',
    parameters'⟩⟩, wrapper', wrapperUnit', wrapperSha', helper', helperUnit', helperUnitSha'⟩ :=
    other
  have hwrapper := hvalid.wrapperModule
  have hwrapper' := hvalid'.wrapperModule
  have hsource := hvalid.wrapperSource
  have hsource' := hvalid'.wrapperSource
  have hhelper := hvalid.helperModule
  have hhelper' := hvalid'.helperModule
  have hhelperSource := hvalid.helperSource
  have hhelperSource' := hvalid'.helperSource
  simp only [adapterTexts, List.cons.injEq, and_true] at htexts
  simp_all

theorem leading_adapter (adapter : AppliedRegistrationAdapter) (rest : List UInt8) :
    leading 0 (stream 0 ([adapter].flatMap adapterFields) ++ rest) = adapterTag := by
  simp only [flatMap_cons, flatMap_nil, List.append_nil, adapterFields,
    cons_append, stream_cons, append_assoc]
  exact leading_field (by decide) _

theorem adapters_cancel {adapter other : Option AppliedRegistrationAdapter}
    (hvalid : ∀ found ∈ adapter, found.Valid) (hvalid' : ∀ found ∈ other, found.Valid)
    (hplain : ∀ found ∈ adapter, PlainAdapter found) (hplain' : ∀ found ∈ other, PlainAdapter found)
    (heq : stream 0 (adapter.toList.flatMap adapterFields) ++
        stream 0 (operations.flatMap (operationFields descriptors)) =
      stream 0 (other.toList.flatMap adapterFields) ++
        stream 0 (operations'.flatMap (operationFields descriptors))) :
    adapter = other ∧ stream 0 (operations.flatMap (operationFields descriptors)) =
      stream 0 (operations'.flatMap (operationFields descriptors)) := by
  have hnot : ∀ (found : AppliedRegistrationAdapter) (rest : List UInt8)
      (operations : List (Operation × String)),
      stream 0 ([found].flatMap adapterFields) ++ rest ≠
        stream 0 (operations.flatMap (operationFields descriptors)) := by
    intro found rest operations hsame
    have htag := leading_adapter found rest
    rw [hsame] at htag
    rcases leading_operations descriptors operations with hnone | hsome
    · rw [hnone] at htag
      exact absurd htag (by decide)
    · rw [hsome] at htag
      exact absurd htag (by decide)
  cases adapter with
  | none =>
    cases other with
    | none => exact ⟨rfl, heq⟩
    | some found => exact absurd heq.symm (hnot found _ operations)
  | some found =>
    cases other with
    | none => exact absurd heq (hnot found _ operations')
    | some found' =>
      have hfree : ∀ {adapter : AppliedRegistrationAdapter}, PlainAdapter adapter →
          ∀ field ∈ adapterTag :: (adapterTexts adapter).map asBytes, 0 ∉ field := by
        intro adapter hadapter field hfield
        rcases mem_cons.mp hfield with rfl | hfield
        · decide
        · obtain ⟨text, htext, rfl⟩ := mem_map.mp hfield
          exact hadapter.texts text htext
      have hfields : ∀ adapter : AppliedRegistrationAdapter,
          stream 0 ([adapter].flatMap adapterFields) =
            stream 0 (adapterTag :: (adapterTexts adapter).map asBytes) ++ stream 0
              (adapter.descriptor.authentication.resultParameters.flatMap parameterFields) := by
        intro adapter
        rw [← stream_append]
        simp only [flatMap_cons, flatMap_nil, List.append_nil]
        rfl
      simp only [Option.toList_some, hfields, append_assoc] at heq
      obtain ⟨hsame, hrest⟩ := stream_cancel (hfree (hplain found rfl))
        (hfree (hplain' found' rfl)) rfl heq
      have htexts : adapterTexts found = adapterTexts found' :=
        map_injective_iff.mpr asBytes_injective (List.cons.inj hsame).2
      have hkind : found.descriptor.authentication.resultKind =
          found'.descriptor.authentication.resultKind := by
        have hlast := congrArg List.getLast? htexts
        simpa [adapterTexts] using hlast
      obtain ⟨hparameters, hoperations⟩ := parameters_cancel (hplain found rfl).properties
        (hplain' found' rfl).properties
        ((hvalid found rfl).presence (hvalid' found' rfl) hkind) hrest
      exact ⟨congrArg some
        (adapter_eq (hvalid found rfl) (hvalid' found' rfl) htexts hparameters), hoperations⟩

/-- What follows the dependency adapters starts with another tag, or is empty. -/
theorem leading_after_dependencies (applied : AppliedRecords Dependency Operation) :
    leading 0 (stream 0 (applied.registrationAdapter.toList.flatMap adapterFields) ++
      stream 0 (applied.operations.flatMap (operationFields descriptors))) ≠ dependencyTag := by
  cases applied.registrationAdapter with
  | none =>
    rw [Option.toList_none, flatMap_nil, stream_nil, nil_append]
    rcases leading_operations descriptors applied.operations with hnone | hsome
    · rw [hnone]
      decide
    · rw [hsome]
      decide
  | some adapter =>
    rw [Option.toList_some, leading_adapter]
    decide

/-- A tag stands before each descriptor of a dependency adapter, and another one
before what follows them. -/
theorem dependencies_cancel (hjson : descriptors.Json) {dependencies other : List Dependency}
    {rest rest' : List UInt8} (hrest : leading 0 rest ≠ dependencyTag)
    (hrest' : leading 0 rest' ≠ dependencyTag)
    (heq : stream 0 (dependencies.flatMap (dependencyFields descriptors)) ++ rest =
      stream 0 (other.flatMap (dependencyFields descriptors)) ++ rest') :
    dependencies = other ∧ rest = rest' := by
  have hleading : ∀ (dependency : Dependency) (list : List Dependency) (rest : List UInt8),
      leading 0 (stream 0 ((dependency :: list).flatMap (dependencyFields descriptors)) ++
        rest) = dependencyTag := by
    intro dependency list rest
    rw [flatMap_cons, dependencyFields, cons_append, stream_cons, append_assoc, cons_append]
    exact leading_field (by decide) _
  induction dependencies generalizing other with
  | nil =>
    cases other with
    | nil => exact ⟨rfl, heq⟩
    | cons dependency' other =>
      rw [flatMap_nil, stream_nil, nil_append] at heq
      exact absurd (heq ▸ hleading dependency' other rest') hrest
  | cons dependency dependencies ih =>
    cases other with
    | nil =>
      rw [flatMap_nil, stream_nil, nil_append] at heq
      exact absurd (heq ▸ hleading dependency dependencies rest) hrest'
    | cons dependency' other =>
      simp only [flatMap_cons, stream_append, append_assoc] at heq
      have hfree : ∀ dependency, ∀ field ∈ dependencyFields descriptors dependency,
          0 ∉ field := by
        intro dependency field hfield
        simp only [dependencyFields, mem_cons, not_mem_nil, or_false] at hfield
        rcases hfield with rfl | rfl
        · decide
        · exact hjson.dependency_escaped _
      obtain ⟨hfirst, hnext⟩ := stream_cancel (hfree dependency) (hfree dependency') rfl heq
      obtain ⟨hsame, hend⟩ := ih hnext
      simp only [dependencyFields, List.cons.injEq, true_and, and_true] at hfirst
      exact ⟨by rw [hjson.dependency_injective hfirst, hsame], hend⟩

end Descriptors

section Fields

variable {Dependency Operation : Type} {descriptors : Descriptors Dependency Operation}

/-- The fields of both fingerprints, after their headers. -/
def recordFields (importFieldsOf : ResolvedImport → List (List UInt8))
    (records : Records Dependency Operation) : List (List UInt8) :=
  records.units.flatMap moduleFields ++ records.imports.flatMap importFieldsOf ++
    records.generatedApiMaterials.flatMap materialFields

structure PlainRecords (records : Records Dependency Operation) : Prop where
  units : ∀ unit ∈ records.units, Plain unit.1 ∧ Plain unit.2
  imports : ∀ binding ∈ records.imports, Plain binding.importer ∧ Plain binding.specifier ∧
    Plain binding.importedName ∧ Plain binding.resolved
  materials : ∀ material ∈ records.generatedApiMaterials, Plain material.module ∧
    Plain material.sourceSha256 ∧ Plain material.anyApiResolved
  adapters : ∀ adapter ∈ records.applied.registrationAdapter, PlainAdapter adapter
  operations : ∀ operation ∈ records.applied.operations, Plain operation.2

/-- As many units, imports and materials. -/
structure SameCounts (records other : Records Dependency Operation) : Prop where
  units : records.units.length = other.units.length
  imports : records.imports.length = other.imports.length
  materials : records.generatedApiMaterials.length = other.generatedApiMaterials.length

theorem applied_eq (hjson : descriptors.Json) {applied other : AppliedRecords Dependency Operation}
    (hadapter : ∀ adapter ∈ applied.registrationAdapter, PlainAdapter adapter)
    (hadapter' : ∀ adapter ∈ other.registrationAdapter, PlainAdapter adapter)
    (hoperations : ∀ operation ∈ applied.operations, Plain operation.2)
    (hoperations' : ∀ operation ∈ other.operations, Plain operation.2)
    (hvalid : ∀ adapter ∈ applied.registrationAdapter, adapter.Valid)
    (hvalid' : ∀ adapter ∈ other.registrationAdapter, adapter.Valid)
    (heq : stream 0 (appliedFieldsOf descriptors applied) =
      stream 0 (appliedFieldsOf descriptors other)) : applied = other := by
  simp only [appliedFieldsOf, stream_append, append_assoc] at heq
  obtain ⟨hdependencies, hrest⟩ := dependencies_cancel hjson
    (leading_after_dependencies applied) (leading_after_dependencies other) heq
  obtain ⟨hadapters, hlast⟩ := adapters_cancel hvalid hvalid' hadapter hadapter' hrest
  have hsame := operations_injective hjson hoperations hoperations' hlast
  obtain ⟨dependencies, adapter, operations⟩ := applied
  dsimp only at hdependencies hadapters hsame
  rw [hdependencies, hadapters, hsame]

variable {importFieldsOf : ResolvedImport → List (List UInt8)}

theorem recordFields_plain (himport : ∀ binding, importFieldsOf binding ⊆ importFields binding)
    {records : Records Dependency Operation} (hplain : PlainRecords records) :
    ∀ field ∈ recordFields importFieldsOf records, 0 ∉ field := by
  intro field hfield
  simp only [recordFields, mem_append, mem_flatMap] at hfield
  rcases hfield with (⟨unit, hunit, hfield⟩ | ⟨binding, hbinding, hfield⟩) |
    ⟨material, hmaterial, hfield⟩
  · have htexts := hplain.units unit hunit
    simp only [moduleFields, mem_cons, not_mem_nil, or_false] at hfield
    rcases hfield with rfl | rfl
    · exact htexts.1
    · exact htexts.2
  · have htexts := hplain.imports binding hbinding
    have hfield := himport binding hfield
    simp only [importFields, mem_cons, not_mem_nil, or_false] at hfield
    rcases hfield with rfl | rfl | rfl | rfl
    · exact htexts.1
    · exact htexts.2.1
    · exact htexts.2.2.1
    · exact htexts.2.2.2
  · have htexts := hplain.materials material hmaterial
    simp only [materialFields, mem_cons, not_mem_nil, or_false] at hfield
    rcases hfield with rfl | rfl | rfl
    · exact htexts.1
    · exact htexts.2.1
    · exact htexts.2.2

variable {width : ℕ}

theorem length_flatMap_width {Record Field : Type} {fieldsOf : Record → List Field}
    (hwidth : ∀ record, (fieldsOf record).length = width) (records : List Record) :
    (records.flatMap fieldsOf).length = width * records.length := by
  induction records with
  | nil => rfl
  | cons record rest ih =>
    rw [flatMap_cons, length_append, hwidth, ih, length_cons]
    ring

/-- Plain fields in lists of equal lengths determine the records, up to what the
fields of an import leave out. -/
theorem records_eq (hjson : descriptors.Json) {header other : List String}
    {records records' : Records Dependency Operation}
    (himport : ∀ binding, importFieldsOf binding ⊆ importFields binding)
    (hwidth : ∀ binding, (importFieldsOf binding).length = width) (hpos : 0 < width)
    (hlength : header.length = other.length) (hheader : ∀ text ∈ header, Plain text)
    (hheader' : ∀ text ∈ other, Plain text) (hplain : PlainRecords records)
    (hplain' : PlainRecords records') (hcounts : SameCounts records records')
    (hvalid : ∀ adapter ∈ records.applied.registrationAdapter, adapter.Valid)
    (hvalid' : ∀ adapter ∈ records'.applied.registrationAdapter, adapter.Valid)
    (heq : stream 0 (header.map asBytes ++ recordFields importFieldsOf records ++
        appliedFieldsOf descriptors records.applied) =
      stream 0 (other.map asBytes ++ recordFields importFieldsOf records' ++
        appliedFieldsOf descriptors records'.applied)) :
    records.units = records'.units ∧
      records.imports.map importFieldsOf = records'.imports.map importFieldsOf ∧
      records.generatedApiMaterials = records'.generatedApiMaterials ∧
      records.applied = records'.applied := by
  have hmodule : ∀ unit : String × String, (moduleFields unit).length = 2 := fun _ => rfl
  have hmaterial : ∀ material, (materialFields material).length = 3 := fun _ => rfl
  have hfree : ∀ {header : List String} {records : Records Dependency Operation},
      (∀ text ∈ header, Plain text) → PlainRecords records →
        ∀ field ∈ header.map asBytes ++ recordFields importFieldsOf records, 0 ∉ field := by
    intro header records hheader hplain field hfield
    rcases mem_append.mp hfield with htext | hrecord
    · obtain ⟨text, hmem, rfl⟩ := mem_map.mp htext
      exact hheader text hmem
    · exact recordFields_plain himport hplain field hrecord
  rw [stream_append (header.map asBytes ++ recordFields importFieldsOf records),
    stream_append (other.map asBytes ++ recordFields importFieldsOf records')] at heq
  obtain ⟨hfields, happlied⟩ := stream_cancel (hfree hheader hplain) (hfree hheader' hplain')
    (by
      simp [recordFields, length_flatMap_width hmodule, length_flatMap_width hwidth,
        length_flatMap_width hmaterial, hlength, hcounts.units, hcounts.imports,
        hcounts.materials]) heq
  obtain ⟨-, hrecords⟩ := append_inj hfields (by simp [hlength])
  obtain ⟨hfront, hmaterials⟩ := append_inj hrecords
    (by simp [length_flatMap_width hmodule, length_flatMap_width hwidth, hcounts.units,
      hcounts.imports])
  obtain ⟨hunits, himports⟩ := append_inj hfront
    (by simp only [length_flatMap_width hmodule, hcounts.units])
  refine ⟨?_, map_eq_of_flatMap_eq hwidth hpos himports, ?_, ?_⟩
  · apply flatMap_injective hmodule (by norm_num) _ hunits
    intro unit unit' hsame
    simp only [moduleFields, List.cons.injEq, and_true] at hsame
    exact Prod.ext (asBytes_injective hsame.1) (asBytes_injective hsame.2)
  · apply flatMap_injective hmaterial (by norm_num) _ hmaterials
    intro material material' hsame
    simp only [materialFields, List.cons.injEq, and_true] at hsame
    rw [AuthenticatedGeneratedApiMaterial.mk.injEq]
    exact ⟨asBytes_injective hsame.1, asBytes_injective hsame.2.1, asBytes_injective hsame.2.2⟩
  · exact applied_eq hjson hplain.adapters hplain'.adapters hplain.operations
      hplain'.operations hvalid hvalid' happlied

end Fields

section Separation

variable {Dependency Operation : Type} {descriptors : Descriptors Dependency Operation}
  [DecidableEq Dependency] [DecidableEq Operation]

section

variable (compilation : Compilation Dependency Operation)
include compilation

theorem appliedFields_eq :
    appliedFields descriptors compilation =
      (appliedRecords descriptors compilation).map (appliedFieldsOf descriptors) := by
  unfold appliedFields appliedRecords
  cases valuesById descriptors.dependencyId compilation.dependencyAdapterCalls with
  | none => rfl
  | some dependencies =>
    cases valuesById (fun operation => descriptors.operationId operation.1)
        compilation.sourceOperations with
    | none => rfl
    | some operations => rfl

theorem sourceFields_eq :
    sourceFields descriptors compilation =
      (sourceRecords descriptors compilation).map fun records =>
        (sourceHeader compilation).map asBytes ++ recordFields importFields records ++
          appliedFieldsOf descriptors records.applied := by
  unfold sourceFields sourceRecords
  rw [appliedFields_eq]
  cases appliedRecords descriptors compilation with
  | none => rfl
  | some applied =>
    have hunits : (compilation.reachable.map fun unit => (unit.id, unit.source)).flatMap
        moduleFields = compilation.reachable.flatMap unitFields := flatMap_map _ _ _
    simp [recordFields, hunits]

theorem graphFields_eq :
    graphFields descriptors compilation =
      (graphRecords descriptors compilation).map fun records =>
        (graphHeader compilation).map asBytes ++ recordFields edgeFields records ++
          appliedFieldsOf descriptors records.applied := by
  unfold graphFields graphRecords
  rw [appliedFields_eq]
  cases reachableModules compilation with
  | none => rfl
  | some modules =>
    cases appliedRecords descriptors compilation with
    | none => rfl
    | some applied => simp [recordFields]

end

/-- The registration adapter was validated and applied. -/
def Compilation.Valid (compilation : Compilation Dependency Operation) : Prop :=
  ∀ adapter ∈ compilation.registrationAdapter, adapter.Valid

/-- Plain texts in headers and records, and lists of equal lengths. -/
structure FramedAlike (headerOf : Compilation Dependency Operation → List String)
    (recordsOf : Compilation Dependency Operation → Option (Records Dependency Operation))
    (compilation other : Compilation Dependency Operation) : Prop where
  header : ∀ text ∈ headerOf compilation, Plain text
  header' : ∀ text ∈ headerOf other, Plain text
  plain : ∀ records ∈ recordsOf compilation, PlainRecords records
  plain' : ∀ records ∈ recordsOf other, PlainRecords records
  counts : ∀ records ∈ recordsOf compilation, ∀ records' ∈ recordsOf other,
    SameCounts records records'

variable {compilation : Compilation Dependency Operation}

theorem adapter_of_applied {applied : AppliedRecords Dependency Operation}
    (happlied : appliedRecords descriptors compilation = some applied) :
    applied.registrationAdapter = compilation.registrationAdapter := by
  unfold appliedRecords at happlied
  cases hdependencies : valuesById descriptors.dependencyId compilation.dependencyAdapterCalls with
  | none => simp [hdependencies] at happlied
  | some dependencies =>
    cases hoperations : valuesById (fun operation => descriptors.operationId operation.1)
        compilation.sourceOperations with
    | none => simp [hoperations] at happlied
    | some operations =>
      simp only [hdependencies, hoperations, Option.bind_eq_bind, Option.bind_some,
        Option.some.injEq] at happlied
      rw [← happlied]

variable {records : Records Dependency Operation}

theorem applied_of_source (hrecords : sourceRecords descriptors compilation = some records) :
    appliedRecords descriptors compilation = some records.applied := by
  unfold sourceRecords at hrecords
  cases happlied : appliedRecords descriptors compilation with
  | none => simp [happlied] at hrecords
  | some applied =>
    simp only [happlied, Option.bind_eq_bind, Option.bind_some, Option.some.injEq] at hrecords
    rw [← hrecords]

theorem applied_of_graph (hrecords : graphRecords descriptors compilation = some records) :
    appliedRecords descriptors compilation = some records.applied ∧
      records.imports = compilation.imports := by
  unfold graphRecords at hrecords
  cases hmodules : reachableModules compilation with
  | none => simp [hmodules] at hrecords
  | some modules =>
    cases happlied : appliedRecords descriptors compilation with
    | none => simp [hmodules, happlied] at hrecords
    | some applied =>
      simp only [hmodules, happlied, Option.bind_eq_bind, Option.bind_some,
        Option.some.injEq] at hrecords
      rw [← hrecords]
      exact ⟨rfl, rfl⟩

theorem source_of_framed (hdigest : Function.Injective digest) (hjson : descriptors.Json)
    {compilation other : Compilation Dependency Operation} (hvalid : compilation.Valid)
    (hvalid' : other.Valid)
    (hframed : FramedAlike sourceHeader (sourceRecords descriptors) compilation other) :
    Separated (sourceFingerprint descriptors digest) (sourceRecords descriptors)
      compilation other := by
  intro records records' hrecords hrecords' hne hsame
  rw [sourceFingerprint_eq, sourceFingerprint_eq, sourceFields_eq, sourceFields_eq, hrecords,
    hrecords', Option.map_some, Option.map_some, Option.map_some, Option.map_some] at hsame
  have hwidth : ∀ binding, (importFields binding).length = 4 := fun _ => rfl
  have hlength : (sourceHeader compilation).length = (sourceHeader other).length := rfl
  obtain ⟨hunits, himports, hmaterials, happlied⟩ := records_eq hjson
    (fun binding => List.Subset.refl _) hwidth (by norm_num) hlength hframed.header hframed.header'
    (hframed.plain records hrecords) (hframed.plain' records' hrecords')
    (hframed.counts records hrecords records' hrecords')
    (adapter_of_applied (applied_of_source hrecords) ▸ hvalid)
    (adapter_of_applied (applied_of_source hrecords') ▸ hvalid')
    (hdigest (Option.some.inj hsame))
  have hinjective : Function.Injective importFields := by
    intro binding binding' heq
    simp only [importFields, List.cons.injEq, and_true] at heq
    rw [ResolvedImport.mk.injEq]
    exact ⟨asBytes_injective heq.1, asBytes_injective heq.2.1, asBytes_injective heq.2.2.1,
      asBytes_injective heq.2.2.2⟩
  apply hne
  rw [Records.mk.injEq]
  exact ⟨hunits, map_injective_iff.mpr hinjective himports, hmaterials, happlied⟩

theorem graph_of_framed (hdigest : Function.Injective digest) (hjson : descriptors.Json)
    {compilation other : Compilation Dependency Operation} (hvalid : compilation.Valid)
    (hvalid' : other.Valid)
    (hframed : FramedAlike graphHeader (graphRecords descriptors) compilation other)
    (hnames : compilation.imports.map (·.importedName) = other.imports.map (·.importedName)) :
    Separated (sourceGraphFingerprint descriptors digest) (graphRecords descriptors)
      compilation other := by
  intro records records' hrecords hrecords' hne hsame
  rw [sourceGraphFingerprint_eq, sourceGraphFingerprint_eq, graphFields_eq, graphFields_eq,
    hrecords, hrecords', Option.map_some, Option.map_some, Option.map_some,
    Option.map_some] at hsame
  have hwidth : ∀ binding, (edgeFields binding).length = 3 := fun _ => rfl
  have hsubset : ∀ binding, edgeFields binding ⊆ importFields binding := by
    intro binding field hfield
    simp only [edgeFields, mem_cons, not_mem_nil, or_false] at hfield
    rcases hfield with rfl | rfl | rfl <;> simp [importFields]
  have hlength : (graphHeader compilation).length = (graphHeader other).length := rfl
  obtain ⟨happliedOf, himportsOf⟩ := applied_of_graph hrecords
  obtain ⟨happliedOf', himportsOf'⟩ := applied_of_graph hrecords'
  obtain ⟨hunits, himports, hmaterials, happlied⟩ := records_eq hjson hsubset hwidth
    (by norm_num) hlength hframed.header hframed.header' (hframed.plain records hrecords)
    (hframed.plain' records' hrecords') (hframed.counts records hrecords records' hrecords')
    (adapter_of_applied happliedOf ▸ hvalid) (adapter_of_applied happliedOf' ▸ hvalid')
    (hdigest (Option.some.inj hsame))
  rw [← himportsOf, ← himportsOf'] at hnames
  -- the names and the written fields together make up an import
  have hinjective : Function.Injective fun binding : ResolvedImport =>
      (edgeFields binding, binding.importedName) := by
    intro binding binding' heq
    simp only [edgeFields, Prod.mk.injEq, List.cons.injEq, and_true] at heq
    rw [ResolvedImport.mk.injEq]
    exact ⟨asBytes_injective heq.1.1, asBytes_injective heq.1.2.1, heq.2,
      asBytes_injective heq.1.2.2⟩
  have hpairs : records.imports.map (fun binding => (edgeFields binding, binding.importedName)) =
      records'.imports.map fun binding => (edgeFields binding, binding.importedName) := by
    rw [← zip_map', ← zip_map', himports, hnames]
  apply hne
  rw [Records.mk.injEq]
  exact ⟨hunits, map_injective_iff.mpr hinjective hpairs, hmaterials, happlied⟩

theorem sourceRecords_isSome (compilation : Compilation Dependency Operation) :
    (sourceRecords descriptors compilation).isSome =
      (sourceFields descriptors compilation).isSome := by
  rw [sourceFields_eq, Option.isSome_map]

theorem graphRecords_isSome (compilation : Compilation Dependency Operation) :
    (graphRecords descriptors compilation).isSome =
      (graphFields descriptors compilation).isSome := by
  rw [graphFields_eq, Option.isSome_map]

end Separation

/-- Descriptors without content. -/
def sampleDescriptors : Descriptors Empty Empty := ⟨Empty.elim, Empty.elim, Empty.elim, Empty.elim⟩

def sampleCompilation (units : List ReachableUnit) : Compilation Empty Empty where
  toolchain := ⟨"0.25.0", "1.27.0"⟩
  entryPath := "convex/notes.ts"
  exportName := "list"
  valueMode := .guestNativeJson
  effectExecutionMode := .blockingFiber
  sourceHashes := fun _ => some "hash"
  reachable := units
  imports := []
  generatedApiMaterials := []
  dependencyAdapterCalls := []
  registrationAdapter := none
  sourceOperations := []

def sampleUnit (id source : String) : ReachableUnit := ⟨id, "convex/notes.ts", source⟩

/-- One unit whose source has zero bytes in a comment. -/
def sampleSpliced : Compilation Empty Empty :=
  sampleCompilation [sampleUnit "list:0:9" "f() //\x00mark:9:12\x00g()"]

/-- Two units that the comment imitates. -/
def sampleSeparate : Compilation Empty Empty :=
  sampleCompilation [sampleUnit "list:0:9" "f() //", sampleUnit "mark:9:12" "g()"]

/-- A digest without collisions: one character for each byte. -/
def sampleDigest (bytes : List UInt8) : String :=
  String.ofList (bytes.map fun byte => Char.ofNat byte.toNat)

theorem sampleDigest_injective : Function.Injective sampleDigest := by
  intro bytes other heq
  have hbyte : Function.Injective fun byte : UInt8 => Char.ofNat byte.toNat := by
    intro byte byte' hsame
    have hnat := congrArg Char.toNat hsame
    have hsmall := byte.toNat_lt
    have hsmall' := byte'.toNat_lt
    rw [Char.toNat_ofNat, Char.toNat_ofNat, if_pos (Or.inl (by omega)),
      if_pos (Or.inl (by omega))] at hnat
    exact UInt8.toNat_inj.mp hnat
  exact map_injective_iff.mpr hbyte (String.ofList_injective heq)

section Result

variable {Dependency Operation : Type} {descriptors : Descriptors Dependency Operation}
  [DecidableEq Dependency] [DecidableEq Operation]

end Result

instance : DecidablePred Plain := fun _ => inferInstanceAs (Decidable (¬ _))

end ConvexWasm.Compiler.SourceFingerprint
