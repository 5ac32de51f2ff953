import ConvexWasm.Core.JsText

/-!
# The immutable cache inventory

Records of the immutable cache as the collector hands them to the planner:
certificate lookup roots, module-graph packages and artifacts (generic ones and
C bundles), each with the dependency edges that survive authentication.  Edges
are cache keys; the tree statistics a record spreads into itself live in a
separate table, because maintenance refreshes only those between waves.
-/

namespace ConvexWasm.Retention

open ConvexWasm.JsText

abbrev Sha256 := String

def compilerOutputStage : String := "module-graph-compiler-output"

def topologyStage : String := "module-graph-compiler-output-topology"

/-- The text `${stage}\0${key}` that names one artifact entry. -/
structure ArtifactKey where
  stage : String
  key : Sha256
  deriving DecidableEq

/-- Canonical position of an entry in the cache.  `evictionCandidatePath`
computes the position of an object record from its type, stage and key. -/
inductive CachePath
  | snapshot (name : String)
  | certificateRoot (key : Sha256)
  | package (key : Sha256)
  | artifact (stage : String) (key : Sha256)
  deriving DecidableEq

/-- Position below the cache root, as the source joins it. -/
def CachePath.render : CachePath → String
  | .snapshot name => "state/v1/cache-retention/v1/recent-success/" ++ name
  | .certificateRoot key => "immutable/packages/deployment-results/v1/" ++ key
  | .package key => "immutable/packages/" ++ key
  | .artifact stage key => "immutable/artifacts/" ++ stage ++ "/" ++ key

def ArtifactKey.path (key : ArtifactKey) : CachePath := .artifact key.stage key.key

@[simp]
theorem ArtifactKey.path_inj {left right : ArtifactKey} :
    left.path = right.path ↔ left = right := by
  cases left
  cases right
  simp [ArtifactKey.path]

def compilerOutputKey (key : Sha256) : ArtifactKey := ⟨compilerOutputStage, key⟩

def topologyKey (key : Sha256) : ArtifactKey := ⟨topologyStage, key⟩

inductive InvalidReason
  | authenticationFailed
  | missingPackageDependency
  deriving DecidableEq

/-- Whether a record authenticated.  An invalid record may lack statistics:
the collector keeps unsafe or disappearing objects without measuring them. -/
inductive Authority
  | authenticated
  | invalid (reason : InvalidReason) (measured : Bool)
  deriving DecidableEq

def Authority.isAuthenticated : Authority → Bool
  | .authenticated => true
  | .invalid _ _ => false

def Authority.isMeasured : Authority → Bool
  | .authenticated => true
  | .invalid _ measured => measured

/-- Result of `treeStats` on one record. -/
structure TreeStats where
  allocatedBytes : ℕ
  estimatedReclaimBytes : ℕ
  mtimeMs : ℚ
  treeIdentity : String
  deriving DecidableEq

structure CertificateEntry where
  key : Sha256
  authenticated : Bool
  packageKeys : List Sha256
  deriving DecidableEq

/-- A certificate lookup root.  A root that could not be read exposes no
certificates. -/
structure CertificateRoot where
  key : Sha256
  authority : Authority
  certificates : Option (List CertificateEntry)
  deriving DecidableEq

/-- `packageKeys`: what the certificates of a readable root name together. -/
def CertificateRoot.packageKeys (root : CertificateRoot) : Option (List Sha256) :=
  root.certificates.map fun certificates =>
    (certificates.flatMap CertificateEntry.packageKeys).dedup

structure PackageRecord where
  key : Sha256
  authority : Authority
  artifactKeys : List ArtifactKey
  deriving DecidableEq

inductive ArtifactType
  | artifact
  | cBundle
  deriving DecidableEq

/-- The `type` of an object record. -/
inductive RecordType
  | certificateRoot
  | package
  | artifact
  | cBundle
  deriving DecidableEq

/-- Roots are retired first, then packages, then independent artifacts. -/
def RecordType.removalPriority : RecordType → ℕ
  | .certificateRoot => 0
  | .package => 1
  | .artifact => 2
  | .cBundle => 2

inductive CompilerOutputSchema
  | current
  | legacyV6
  | legacy
  deriving DecidableEq

structure CapsuleClosure where
  compilerOutputCacheKey : Sha256
  topologyCertificateCacheKey : Sha256
  deriving DecidableEq

structure ArtifactRecord where
  stage : String
  key : Sha256
  type : ArtifactType
  authority : Authority
  compilerOutputSchema : Option CompilerOutputSchema
  closureArtifactKeys : List ArtifactKey
  topologyCompilerOutputReference : Option Sha256
  orphanedTopologyCertificate : Bool
  capsuleClosure : Option CapsuleClosure
  layoutReferences : List ArtifactKey
  deriving DecidableEq

variable (record : ArtifactRecord)

def ArtifactRecord.cacheKey : ArtifactKey := ⟨record.stage, record.key⟩

def ArtifactRecord.path : CachePath := .artifact record.stage record.key

def PackageRecord.path (record : PackageRecord) : CachePath := .package record.key

def CertificateRoot.path (record : CertificateRoot) : CachePath := .certificateRoot record.key

@[simp]
theorem ArtifactRecord.cacheKey_path :
    record.cacheKey.path = record.path := rfl

/-- A recent-success snapshot with every package it names still present. -/
structure Snapshot where
  name : String
  certificateSha256s : List Sha256
  compilerOutputKeys : List Sha256
  packageKeys : List Sha256
  deriving DecidableEq

/-- The authenticated inventory.  Records come from directory listings, so no
two share a position.  A Static Hermes layout entry is keyed by an identity
without a retained layout, so it never refers to further layout entries. -/
structure Inventory where
  snapshots : List Snapshot
  packages : List PackageRecord
  artifacts : List ArtifactRecord
  certificates : List CertificateRoot
  packages_nodup : (packages.map PackageRecord.key).Nodup
  artifacts_nodup : (artifacts.map ArtifactRecord.cacheKey).Nodup
  certificates_nodup : (certificates.map CertificateRoot.key).Nodup
  layout_shallow : ∀ bundle ∈ artifacts, ∀ key ∈ bundle.layoutReferences,
    ∀ entry ∈ artifacts, entry.cacheKey = key → entry.layoutReferences = []

/-- Any record of the inventory's three families. -/
inductive ObjectRecord
  | certificate (root : CertificateRoot)
  | package (record : PackageRecord)
  | artifact (record : ArtifactRecord)
  deriving DecidableEq

namespace ObjectRecord

def path : ObjectRecord → CachePath
  | .certificate root => root.path
  | .package record => record.path
  | .artifact record => record.path

def authority : ObjectRecord → Authority
  | .certificate root => root.authority
  | .package record => record.authority
  | .artifact record => record.authority

def key : ObjectRecord → Sha256
  | .certificate root => root.key
  | .package record => record.key
  | .artifact record => record.key

def stage : ObjectRecord → Option String
  | .certificate _ => none
  | .package _ => none
  | .artifact record => some record.stage

def type : ObjectRecord → RecordType
  | .certificate _ => .certificateRoot
  | .package _ => .package
  | .artifact record =>
    match record.type with
    | .artifact => .artifact
    | .cBundle => .cBundle

def isAuthenticated (record : ObjectRecord) : Bool := record.authority.isAuthenticated

end ObjectRecord

namespace Inventory

variable (inventory : Inventory)

/-- `[...certificates, ...packages, ...artifacts]`. -/
def objectRecords : List ObjectRecord :=
  inventory.certificates.map .certificate ++ inventory.packages.map .package ++
    inventory.artifacts.map .artifact

def objectPaths : List CachePath :=
  inventory.objectRecords.map ObjectRecord.path

/-- `packagesByKey`: authenticated packages only. -/
def packageByKey (key : Sha256) : Option PackageRecord :=
  inventory.packages.find? fun record =>
    record.authority.isAuthenticated && record.key == key

/-- `artifactsByKey`: authenticated artifacts only. -/
def artifactByKey (key : ArtifactKey) : Option ArtifactRecord :=
  inventory.artifacts.find? fun record =>
    record.authority.isAuthenticated && record.cacheKey == key

/-- `artifactRecordsByKey.has`: authenticated or not. -/
def hasArtifactRecord (key : ArtifactKey) : Bool :=
  inventory.artifacts.any fun record => record.cacheKey == key

/-- The authenticated certificates of every readable root, with their root. -/
def readableCertificates : List (CertificateEntry × CertificateRoot) :=
  inventory.certificates.flatMap fun root =>
    ((root.certificates.getD []).filter CertificateEntry.authenticated).map
      fun certificate => (certificate, root)

/-- `certificatesBySha256`. -/
def certificateBySha256 (key : Sha256) : Option (CertificateEntry × CertificateRoot) :=
  inventory.readableCertificates.find? fun entry => entry.1.key == key

/-- `packagesByKey.keys()`. -/
def authenticatedPackageKeys : List Sha256 :=
  (inventory.packages.filter fun record => record.authority.isAuthenticated).map PackageRecord.key

/-- Package keys a certificate root may open: its own when it exposes them,
every authenticated package otherwise. -/
def openablePackageKeys (root : CertificateRoot) : List Sha256 :=
  root.packageKeys.getD inventory.authenticatedPackageKeys

/-- The inventory after the roots of `deleted` left it. -/
def removeDeleted (deleted : List CachePath) : Inventory where
  snapshots := inventory.snapshots
  packages := inventory.packages.filter fun record => record.path ∉ deleted
  artifacts := inventory.artifacts.filter fun record => record.path ∉ deleted
  certificates := inventory.certificates.filter fun record => record.path ∉ deleted
  packages_nodup := inventory.packages_nodup.sublist (List.filter_sublist.map _)
  artifacts_nodup := inventory.artifacts_nodup.sublist (List.filter_sublist.map _)
  certificates_nodup := inventory.certificates_nodup.sublist (List.filter_sublist.map _)
  layout_shallow := by
    intro bundle hbundle key hkey entry hentry hcacheKey
    exact inventory.layout_shallow bundle (List.mem_of_mem_filter hbundle) key
      hkey entry (List.mem_of_mem_filter hentry) hcacheKey

end Inventory

end ConvexWasm.Retention
