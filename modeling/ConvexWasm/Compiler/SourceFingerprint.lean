import ConvexWasm.Core.TerminatedStream

/-!
# Source fingerprints

A fingerprint hashes the records of a compilation: its units, imports, generated
interfaces and the descriptors that were applied.  Every field is followed by a
zero byte; the units, imports and interfaces are written without a count and
without a tag before them.
-/

namespace ConvexWasm.Compiler.SourceFingerprint

open TerminatedStream

/-- The bytes of a text in UTF-8. -/
def asBytes (text : String) : List UInt8 := text.toByteArray.data.toList

theorem asBytes_injective : Function.Injective asBytes := by
  intro text other heq
  apply String.toByteArray_inj.mp
  apply ByteArray.ext
  exact Array.toList_inj.mp heq

inductive ValueMode
  | opaqueValues | guestNativeJson
  deriving DecidableEq

def ValueMode.identity : ValueMode → String
  | .opaqueValues => "opaque"
  | .guestNativeJson => "guest-native-json"

inductive EffectExecutionMode
  | blockingFiber | guestPromiseEventLoop
  deriving DecidableEq

def EffectExecutionMode.identity : EffectExecutionMode → String
  | .blockingFiber => "blocking-fiber"
  | .guestPromiseEventLoop => "guest-promise-event-loop"

structure Toolchain where
  esbuild : String
  convex : String
  deriving DecidableEq

structure ReachableUnit where
  id : String
  module : String
  source : String
  deriving DecidableEq

structure ResolvedImport where
  importer : String
  specifier : String
  importedName : String
  resolved : String
  deriving DecidableEq

structure AuthenticatedGeneratedApiMaterial where
  module : String
  sourceSha256 : String
  anyApiResolved : String
  deriving DecidableEq

structure RegistrationAdapterExportIdentity where
  modulePath : String
  exportName : String
  sourceSha256 : String
  deriving DecidableEq

structure RegistrationAdapterResultParameter where
  callbackParameterIndex : UInt64
  property : Option String
  deriving DecidableEq

structure RegistrationAdapterAuthentication where
  helper : RegistrationAdapterExportIdentity
  resultKind : String
  resultParameters : List RegistrationAdapterResultParameter
  deriving DecidableEq

structure RegistrationAdapterDescriptorEntry where
  id : String
  wrapper : RegistrationAdapterExportIdentity
  registrationKind : String
  authentication : RegistrationAdapterAuthentication
  deriving DecidableEq

structure AppliedRegistrationAdapter where
  descriptor : RegistrationAdapterDescriptorEntry
  wrapperModule : String
  wrapperUnitName : String
  wrapperUnitSourceSha256 : String
  helperModule : String
  helperUnitName : String
  helperUnitSourceSha256 : String
  deriving DecidableEq

/-- What validation and application ensure of an adapter. -/
structure AppliedRegistrationAdapter.Valid (adapter : AppliedRegistrationAdapter) : Prop where
  wrapperModule : adapter.wrapperModule = adapter.descriptor.wrapper.modulePath
  wrapperSource : adapter.wrapperUnitSourceSha256 = adapter.descriptor.wrapper.sourceSha256
  helperModule :
    adapter.helperModule = adapter.descriptor.authentication.helper.modulePath
  helperSource :
    adapter.helperUnitSourceSha256 = adapter.descriptor.authentication.helper.sourceSha256
  properties :
    (adapter.descriptor.authentication.resultKind = "object" ∧
        ∀ parameter ∈ adapter.descriptor.authentication.resultParameters,
          parameter.property.isSome) ∨
      (adapter.descriptor.authentication.resultKind = "value" ∧
        ∀ parameter ∈ adapter.descriptor.authentication.resultParameters,
          parameter.property = none)

/-- The descriptors of dependency adapters and of source operations, with their
encodings as JSON, which escapes control characters. -/
structure Descriptors (Dependency Operation : Type) where
  dependencyId : Dependency → String
  dependencyJson : Dependency → List UInt8
  operationId : Operation → String
  operationJson : Operation → List UInt8

structure Descriptors.Json {Dependency Operation : Type}
    (descriptors : Descriptors Dependency Operation) : Prop where
  dependency_injective : Function.Injective descriptors.dependencyJson
  dependency_escaped : ∀ descriptor, 0 ∉ descriptors.dependencyJson descriptor
  operation_injective : Function.Injective descriptors.operationJson
  operation_escaped : ∀ descriptor, 0 ∉ descriptors.operationJson descriptor

/-- The arguments of the two fingerprints.  The reachable units and the materials
are listed by their keys, the calls in any order. -/
structure Compilation (Dependency Operation : Type) where
  toolchain : Toolchain
  entryPath : String
  exportName : String
  valueMode : ValueMode
  effectExecutionMode : EffectExecutionMode
  sourceHashes : String → Option String
  reachable : List ReachableUnit
  imports : List ResolvedImport
  generatedApiMaterials : List AuthenticatedGeneratedApiMaterial
  dependencyAdapterCalls : List Dependency
  registrationAdapter : Option AppliedRegistrationAdapter
  sourceOperations : List (Operation × String)

section Hashing

def compilerSchema : String := "convex-wasm-compiler-output"

def abiVersion : String := "convex-wasm-opaque"

def oxcVersion : String := "0.155.0"

/-- The low byte comes first. -/
def toLeBytes : ℕ → ℕ → List UInt8
  | 0, _ => []
  | width + 1, value => UInt8.ofNat (value % 256) :: toLeBytes width (value / 256)

/-- The values of a map from the identifiers; two different values of one
identifier are a failed assertion. -/
def valuesById {Value : Type} [DecidableEq Value] (id : Value → String) (values : List Value) :
    Option (List Value) :=
  if values.Pairwise fun value other => id value = id other → value = other then
    some (values.dedup.insertionSort fun value other => id value ≤ id other)
  else none

variable {Dependency Operation : Type} (descriptors : Descriptors Dependency Operation)

def dependencyFields (descriptor : Dependency) : List (List UInt8) :=
  [asBytes "convex-wasm-applied-dependency-adapter", descriptors.dependencyJson descriptor]

def operationFields (operation : Operation × String) : List (List UInt8) :=
  [asBytes "convex-wasm-applied-source-operation", descriptors.operationJson operation.1,
    asBytes operation.2]

def parameterFields (parameter : RegistrationAdapterResultParameter) : List (List UInt8) :=
  [toLeBytes 8 parameter.callbackParameterIndex.toNat, asBytes (parameter.property.getD "")]

def adapterTexts (adapter : AppliedRegistrationAdapter) : List String :=
  [adapter.descriptor.id, adapter.descriptor.registrationKind, adapter.wrapperModule,
    adapter.descriptor.wrapper.exportName, adapter.wrapperUnitName,
    adapter.wrapperUnitSourceSha256, adapter.helperModule,
    adapter.descriptor.authentication.helper.exportName, adapter.helperUnitName,
    adapter.helperUnitSourceSha256, adapter.descriptor.authentication.resultKind]

def adapterFields (adapter : AppliedRegistrationAdapter) : List (List UInt8) :=
  asBytes "convex-wasm-applied-registration-adapter" :: (adapterTexts adapter).map asBytes ++
    adapter.descriptor.authentication.resultParameters.flatMap parameterFields

def unitFields (unit : ReachableUnit) : List (List UInt8) :=
  [asBytes unit.id, asBytes unit.source]

def importFields (binding : ResolvedImport) : List (List UInt8) :=
  [asBytes binding.importer, asBytes binding.specifier, asBytes binding.importedName,
    asBytes binding.resolved]

def materialFields (material : AuthenticatedGeneratedApiMaterial) : List (List UInt8) :=
  [asBytes material.module, asBytes material.sourceSha256, asBytes material.anyApiResolved]

def moduleFields (module : String × String) : List (List UInt8) :=
  [asBytes module.1, asBytes module.2]

/-- The graph of modules does not write the imported names. -/
def edgeFields (binding : ResolvedImport) : List (List UInt8) :=
  [asBytes binding.importer, asBytes binding.specifier, asBytes binding.resolved]

variable [DecidableEq Dependency] [DecidableEq Operation]

variable (compilation : Compilation Dependency Operation)

/-- The fields of the applied descriptors, which end both fingerprints. -/
def appliedFields :
    Option (List (List UInt8)) := do
  let dependencies ← valuesById descriptors.dependencyId compilation.dependencyAdapterCalls
  let operations ← valuesById (fun operation => descriptors.operationId operation.1)
    compilation.sourceOperations
  some (dependencies.flatMap (dependencyFields descriptors) ++
    compilation.registrationAdapter.toList.flatMap adapterFields ++
    operations.flatMap (operationFields descriptors))

def sourceHeader : List String :=
  [compilerSchema, abiVersion, oxcVersion, compilation.toolchain.esbuild,
    compilation.toolchain.convex, compilation.entryPath, compilation.exportName,
    compilation.valueMode.identity, compilation.effectExecutionMode.identity]

def sourceFields :
    Option (List (List UInt8)) := do
  let applied ← appliedFields descriptors compilation
  some ((sourceHeader compilation).map asBytes ++ compilation.reachable.flatMap unitFields ++
    compilation.imports.flatMap importFields ++
    compilation.generatedApiMaterials.flatMap materialFields ++ applied)

def sourceFingerprint (digest : List UInt8 → String)
    (compilation : Compilation Dependency Operation) : Option String := do
  let fields ← sourceFields descriptors compilation
  some (digest (stream 0 fields))

/-- The modules of the reachable units, each once and in order, with the hashes of
their sources. -/
def reachableModules : Option (List (String × String)) :=
  (((compilation.reachable.map (·.module)).dedup).insertionSort (· ≤ ·)).mapM fun module => do
    let sourceHash ← compilation.sourceHashes module
    some (module, sourceHash)

def graphHeader : List String :=
  ["convex-wasm-reachable-source-graph", compilation.toolchain.esbuild,
    compilation.toolchain.convex, compilation.valueMode.identity,
    compilation.effectExecutionMode.identity]

def graphFields :
    Option (List (List UInt8)) := do
  let modules ← reachableModules compilation
  let applied ← appliedFields descriptors compilation
  some ((graphHeader compilation).map asBytes ++ modules.flatMap moduleFields ++
    compilation.imports.flatMap edgeFields ++
    compilation.generatedApiMaterials.flatMap materialFields ++ applied)

def sourceGraphFingerprint (digest : List UInt8 → String)
    (compilation : Compilation Dependency Operation) : Option String := do
  let fields ← graphFields descriptors compilation
  some (digest (stream 0 fields))

end Hashing

end ConvexWasm.Compiler.SourceFingerprint
