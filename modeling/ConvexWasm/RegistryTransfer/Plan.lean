import ConvexWasm.Core.KeyedMap
import ConvexWasm.RegistryTransfer.Catalog

/-!
# Registry transfer plans

A plan lists the directories and files to copy, the hard links that take the
place of repeated artifacts, and the catalog of the destination.  Paths are
kept as their components: the code joins them with slashes, which no component
contains.
-/

namespace ConvexWasm.RegistryTransfer

open Fallible

inductive ArtifactKind
  | coreWasm | aot
  deriving DecidableEq

structure Artifact where
  stage : String
  cacheKey : String
  sha256 : String
  size : ℤ
  path : String
  deriving DecidableEq

structure RoleArtifacts where
  coreWasm : Artifact
  aot : Artifact
  deriving DecidableEq

structure ModuleGraph where
  graphManifestSha256 : String
  packagePath : String
  graphManifestPath : String
  base : RoleArtifacts
  shared : List RoleArtifacts
  leaf : RoleArtifacts
  deriving DecidableEq

structure GenerationReference where
  deploymentSha256 : String
  generation : Generation
  generationSha256 : String
  sourcePackageRuntimeContentSha256 : String
  moduleGraphs : List ModuleGraph
  deriving DecidableEq

structure Preflight where
  registryPath : String
  catalogEntries : List CatalogEntry
  generationReferences : List GenerationReference
  deriving DecidableEq

/-- The components of a path below the root of the registry. -/
abbrev RegistryPath := List String

def pathText (path : RegistryPath) : String := String.intercalate "/" path

/-- What the code uses of `path`; separators are those of the registry layout. -/
structure PathOperations where
  isAbsolute : String → Bool
  relative : String → String → String

def payloadName : ArtifactKind → String
  | .coreWasm => "artifact.wasm"
  | .aot => "artifact.cwasm"

def stageSuffix : ArtifactKind → String
  | .coreWasm => "-core-wasm"
  | .aot => "-wasmtime-aot"

def kindName : ArtifactKind → String
  | .coreWasm => "coreWasm"
  | .aot => "aot"

def isLowerLetter (char : Char) : Bool := decide ('a' ≤ char) && decide (char ≤ 'z')

/-- A letter and up to 127 letters, digits and dashes. -/
def isStageName : List Char → Bool
  | [] => false
  | first :: rest => isLowerLetter first && decide (rest.length ≤ 127) &&
      rest.all fun char => isLowerLetter char || char.isDigit || decide (char = '-')

/-- `STAGE_PATTERN`. -/
def isStage (stage : String) : Bool :=
  [ArtifactKind.coreWasm, .aot].any fun kind =>
    let name := stage.toList.drop "module-graph-".length
    let ending := (stageSuffix kind).toList
    "module-graph-".toList.isPrefixOf stage.toList && ending.isSuffixOf name &&
      isStageName (name.take (name.length - ending.length))

def relativeRegistryPath (operations : PathOperations) (registryRoot absolutePath : String)
    (expected : RegistryPath) (description : String) : Except String Unit :=
  if operations.isAbsolute absolutePath = false then
    .error (description ++ " must be an absolute path")
  else
    let relativePath := operations.relative registryRoot absolutePath
    if relativePath = "" ∨ relativePath = ".." ∨
        "../".toList.isPrefixOf relativePath.toList = true ∨
        operations.isAbsolute relativePath = true ∨ relativePath ≠ pathText expected then
      .error (description ++ " is outside its authenticated registry layout")
    else .ok ()

variable (paths : List RegistryPath)

/-- Adds a path to the set, in the order of insertion. -/
def addPath (path : RegistryPath) : List RegistryPath :=
  if path ∈ paths then paths else paths ++ [path]

def addDirectory (path : RegistryPath) : List RegistryPath :=
  path.inits.tail.foldl addPath paths

def addFile (path : RegistryPath) : List RegistryPath :=
  addPath (addDirectory paths path.dropLast) path

def addFiles (directory : RegistryPath) (names : List String) : List RegistryPath :=
  names.foldl (fun paths name => addFile paths (directory ++ [name])) paths

/-- An artifact where the registry keeps it. -/
structure PlacedArtifact where
  kind : ArtifactKind
  artifact : Artifact
  deriving DecidableEq

namespace PlacedArtifact

variable (placed : PlacedArtifact)

def directory : RegistryPath :=
  ["module-graph-cache", "immutable", "v6", "artifacts", placed.artifact.stage,
    placed.artifact.cacheKey]

def path : RegistryPath := placed.directory ++ [payloadName placed.kind]

def identity : ArtifactKind × String :=
  (placed.kind, placed.artifact.sha256)

end PlacedArtifact

structure CanonicalPayload where
  path : RegistryPath
  size : ℤ
  deriving DecidableEq

structure TransferState where
  artifactPayloads : KeyedMap (ArtifactKind × String) CanonicalPayload
  hardlinksByTarget : KeyedMap RegistryPath RegistryPath
  paths : List RegistryPath

section Transfer

variable (operations : PathOperations) (registryRoot : String)

variable (state : TransferState) (placed : PlacedArtifact)

/-- The checks of an artifact. -/
def checkArtifact : Except String Unit := do
  let name := kindName placed.kind
  if isStage placed.artifact.stage = false then
    .error ("module graph " ++ name ++ " artifact has an unsupported stage")
  else
    let _ ← requireSha256 placed.artifact.cacheKey ("module graph " ++ name ++ " cache key")
    let _ ← requireSha256 placed.artifact.sha256
      ("module graph " ++ name ++ " artifact identity")
    if maxSafeInteger < placed.artifact.size ∨ placed.artifact.size ≤ 0 then
      .error ("module graph " ++ name ++ " artifact size must be a positive safe integer")
    else if (stageSuffix placed.kind).toList.isSuffixOf placed.artifact.stage.toList = false then
      .error ("module graph " ++ name ++ " artifact stage does not match its kind")
    else
      relativeRegistryPath operations registryRoot placed.artifact.path placed.path
        ("module graph " ++ name ++ " artifact path")

/-- The first path of an artifact is copied; later ones become hard links to it. -/
def placeArtifact : Except String TransferState :=
  match state.artifactPayloads.get? placed.identity with
  | none => .ok { state with
      artifactPayloads := state.artifactPayloads.insert placed.identity
        ⟨placed.path, placed.artifact.size⟩
      paths := addFile state.paths placed.path }
  | some canonical =>
    if canonical.size ≠ placed.artifact.size then
      .error ("module graph " ++ kindName placed.kind ++
        " artifact identity repeats with a different size")
    else if canonical.path ≠ placed.path then
      if (state.hardlinksByTarget.get? placed.path).any fun previousSource =>
          decide (previousSource ≠ canonical.path) then
        .error "runtime registry hard-link target has conflicting source identities"
      else .ok { state with
        hardlinksByTarget := state.hardlinksByTarget.insert placed.path canonical.path
        paths := addDirectory state.paths placed.directory }
    else .ok state

def transferArtifact :
    Except String TransferState := do
  checkArtifact operations registryRoot placed
  placeArtifact
    { state with paths := addFiles state.paths placed.directory ["COMPLETE", "entry.json"] } placed

def transferRole (role : RoleArtifacts) : Except String TransferState :=
  [⟨.coreWasm, role.coreWasm⟩, ⟨.aot, role.aot⟩].foldlM
    (transferArtifact operations registryRoot) state

variable (graph : ModuleGraph)

def packageRoot : RegistryPath :=
  ["module-graph-cache", "immutable", "v6", "packages", graph.graphManifestSha256]

def rolesOf : List RoleArtifacts := graph.base :: graph.shared ++ [graph.leaf]

def transferGraph : Except String TransferState := do
  let _ ← requireSha256 graph.graphManifestSha256 "module graph manifest identity"
  relativeRegistryPath operations registryRoot graph.packagePath (packageRoot graph)
    "module graph package path"
  relativeRegistryPath operations registryRoot graph.graphManifestPath
    (packageRoot graph ++ ["graph-manifest.json"]) "module graph manifest path"
  (rolesOf graph).foldlM (transferRole operations registryRoot)
    { state with
      paths := addFiles state.paths (packageRoot graph)
        ["COMPLETE", "build-provenance.json", "graph-manifest.json", "package-entry.json"] }

def generationRoot (reference : GenerationReference) : RegistryPath :=
  ["generations", reference.deploymentSha256, reference.generationSha256]

def transferReference (reference : GenerationReference) :
    Except String TransferState := do
  let _ ← requireSha256 reference.deploymentSha256 "reachable deployment identity"
  let _ ← requireSha256 reference.generationSha256 "reachable generation identity"
  let paths := addFiles state.paths (generationRoot reference)
    ["COMPLETE", "deployment.json", "generation.json"]
  if reference.moduleGraphs = [] then
    .error "selective registry transfer requires module-graph generation references"
  else
    reference.moduleGraphs.foldlM (transferGraph operations registryRoot)
      { state with paths := paths }

def initialTransfer : TransferState where
  artifactPayloads := .empty
  hardlinksByTarget := .empty
  paths := [["generations"], ["packages"],
    ["module-graph-cache", "immutable", "v6", "artifacts"],
    ["module-graph-cache", "immutable", "v6", "packages"]].foldl addDirectory []

end Transfer

abbrev GenerationKey := String × String

def referenceKey (reference : GenerationReference) : GenerationKey :=
  (reference.deploymentSha256, reference.generationSha256)

def entryKey (entry : CatalogEntry) : GenerationKey :=
  (entry.deploymentSha256, entry.generationSha256)

def recordReference (references : KeyedMap GenerationKey GenerationReference)
    (reference : GenerationReference) :
    Except String (KeyedMap GenerationKey GenerationReference) := do
  let _ ← requireSha256 reference.deploymentSha256 "runtime registry deployment identity"
  let _ ← requireSha256 reference.generationSha256 "runtime registry generation identity"
  if references.containsKey (referenceKey reference) then
    .error "runtime registry preflight repeats a generation reference"
  else return references.insert (referenceKey reference) reference

def recordEntry (entries : KeyedMap GenerationKey CatalogEntry) (entry : CatalogEntry) :
    Except String (KeyedMap GenerationKey CatalogEntry) := do
  let _ ← requireSha256 entry.deploymentSha256 "source catalog deployment identity"
  let _ ← requireSha256 entry.generationSha256 "source catalog generation identity"
  let _ ← requireSha256 entry.sourcePackageRuntimeContentSha256
    "source catalog source-package identity"
  if entries.containsKey (entryKey entry) then
    .error "runtime registry source catalog repeats a generation reference"
  else return entries.insert (entryKey entry) entry

/-- The entry of a reference says what the reference says. -/
def describes (entry : CatalogEntry) (reference : GenerationReference) : Bool :=
  decide (reference.sourcePackageRuntimeContentSha256 =
    entry.sourcePackageRuntimeContentSha256) && decide (reference.generation = entry.generation)

structure HardLink where
  source : RegistryPath
  target : RegistryPath
  deriving DecidableEq

structure TransferPlan where
  hardlinks : List HardLink
  paths : List RegistryPath
  sourceCatalog : SourceCatalog
  deriving DecidableEq

section Derivation

variable {Collation : Type} [LinearOrder Collation] (operations : PathOperations)
  (fingerprint : CatalogKind → List CatalogEntry → String) (collate : String → Collation)

/-- Shorter paths first. -/
def transferPathKey (path : RegistryPath) : ℕ ×ₗ Collation :=
  toLex (path.length, collate (pathText path))

/-- The entries of the destination: the retained ones, then those of the references. -/
def outputCatalogEntries (retainedEntries : List CatalogEntry)
    (catalogEntriesByKey : KeyedMap GenerationKey CatalogEntry)
    (references : List GenerationReference) : KeyedMap (List String) CatalogEntry :=
  (retainedEntries ++ references.filterMap fun reference =>
    catalogEntriesByKey.get? (referenceKey reference)).foldl
      (fun entries entry => entries.insert (sourceCatalogEntryKey entry) entry) .empty

/-- The entries of the destination's catalog, when it has one. -/
def validateRetained (retainedSourceCatalog : Option SourceCatalog) :
    Except String (List CatalogEntry) :=
  match retainedSourceCatalog with
  | none => .ok []
  | some catalog => (validateRuntimeRegistrySourceCatalog fingerprint catalog).map (·.entries)

def deriveRuntimeRegistryTransferPlan (preflight : Preflight)
    (retainedSourceCatalog : Option SourceCatalog) : Except String TransferPlan := do
  if operations.isAbsolute preflight.registryPath = false then
    .error "runtime registry preflight path must be absolute"
  else if preflight.catalogEntries = [] then
    .error "runtime registry source catalog must contain at least one entry"
  else
    let referencesByKey ← preflight.generationReferences.foldlM recordReference .empty
    let catalogEntriesByKey ← preflight.catalogEntries.foldlM recordEntry .empty
    let retainedEntries ← validateRetained fingerprint retainedSourceCatalog
    if retainedEntries.any fun retained =>
        (catalogEntriesByKey.get? (entryKey retained)).any fun entry =>
          decide (entry ≠ retained) then
      .error "destination source catalog conflicts with the local catalog for one generation"
    else
      let references := referencesByKey.values
      if references.any fun reference =>
          !(catalogEntriesByKey.get? (referenceKey reference)).any fun entry =>
            describes entry reference then
        .error "source catalog entry differs from its authenticated generation reference"
      else
        let state ← references.foldlM (transferReference operations preflight.registryPath)
          initialTransfer
        let sourceCatalog ← createRuntimeRegistrySourceCatalog fingerprint collate
          (outputCatalogEntries retainedEntries catalogEntriesByKey references).values
        return {
          hardlinks := (state.hardlinksByTarget.entries.map fun link =>
            (⟨link.2, link.1⟩ : HardLink)).insertionSort fun left right =>
              collate (pathText left.target) ≤ collate (pathText right.target)
          paths := state.paths.insertionSort fun left right =>
            transferPathKey collate left ≤ transferPathKey collate right
          sourceCatalog := sourceCatalog }

end Derivation

end ConvexWasm.RegistryTransfer
