import ConvexWasm.Retention.Inventory

/-!
# Deriving one immutable eviction plan

`deriveImmutablePlan` pins everything a surviving authority may still open,
lists the other authenticated records as candidates and, under disk pressure,
takes candidates until the estimated reclaim reaches the excess.  The loops of
the source that pin records all call the same four closures, so each loop is
given by the requests its body makes for one record.
-/

namespace ConvexWasm.Retention

open ConvexWasm.JsText

structure Settings where
  highWatermarkAllocatedBytes : ℕ
  maxRetainedPackages : ℕ
  nowMs : ℕ
  recentRetentionMilliseconds : ℕ
  deriving DecidableEq

def Settings.recentCutoffMs (settings : Settings) : ℤ :=
  settings.nowMs - settings.recentRetentionMilliseconds

/-- The statistics currently spread into each record. -/
abbrev StatsTable := CachePath → TreeStats

/-- The four sets the planner accumulates. -/
@[ext]
structure Retained where
  paths : Finset CachePath
  packageKeys : Finset Sha256
  artifactKeys : Finset ArtifactKey
  certificateSha256s : Finset Sha256
  deriving DecidableEq

/-- A call of `retainArtifact`, `retainPackage`, `retainCertificate` or
`retainCompilerOutput`. -/
inductive Request
  | artifact (key : ArtifactKey)
  | package (key : Sha256)
  | certificate (key : Sha256)
  | compilerOutput (key : Sha256)
  deriving DecidableEq

def fail {Result : Type} (message : String) : Except String Result :=
  .error ("Convex Wasm immutable cache retention: " ++ message)

section Retaining

variable (settings : Settings) (inventory : Inventory)

variable (retained : Retained)

def retainArtifact (key : ArtifactKey) : Except String Retained :=
  match inventory.artifactByKey key with
  | none => fail s!"retained artifact is unavailable: {key.stage}\x00{key.key}"
  | some record =>
    .ok { retained with
      artifactKeys := insert key retained.artifactKeys
      paths := insert record.path retained.paths }

def retainPackage (key : Sha256) : Except String Retained :=
  if settings.maxRetainedPackages ≤ retained.packageKeys.card ∧
      key ∉ retained.packageKeys then
    fail "retained package bound exceeded"
  else
    match inventory.packageByKey key with
    | none => fail s!"retained package is unavailable: {key}"
    | some record =>
      record.artifactKeys.foldlM (retainArtifact inventory)
        { retained with
          packageKeys := insert key retained.packageKeys
          paths := insert record.path retained.paths }

def retainCertificate (key : Sha256) : Except String Retained :=
  match inventory.certificateBySha256 key with
  | none => fail s!"retained deployment certificate is unavailable: {key}"
  | some (certificate, root) =>
    certificate.packageKeys.foldlM (retainPackage settings inventory)
      { retained with
        certificateSha256s := insert key retained.certificateSha256s
        paths := insert root.path retained.paths }

def retainCompilerOutput (key : Sha256) : Except String Retained :=
  match inventory.artifactByKey (compilerOutputKey key) with
  | none =>
    fail s!"retained compiler-output cache entry is unavailable: {key}"
  | some compilerOutput =>
    if compilerOutput.type = .artifact then do
      let retained ← retainArtifact inventory retained (compilerOutputKey key)
      if compilerOutput.compilerOutputSchema = some .current then
        compilerOutput.closureArtifactKeys.foldlM (retainArtifact inventory) retained
      else
        .ok retained
    else
      fail s!"retained compiler-output cache entry is unavailable: {key}"

def retain : Request → Except String Retained
  | .artifact key => retainArtifact inventory retained key
  | .package key => retainPackage settings inventory retained key
  | .certificate key => retainCertificate settings inventory retained key
  | .compilerOutput key => retainCompilerOutput inventory retained key

def retainAll (requests : List Request) : Except String Retained :=
  requests.foldlM (retain settings inventory) retained

end Retaining

variable (record : ArtifactRecord)

/-- Every surviving topology authority keeps its full record. -/
def topologyRequests : List Request :=
  if record.authority.isAuthenticated ∧ record.orphanedTopologyCertificate = false then
    record.topologyCompilerOutputReference.toList.map .compilerOutput
  else []

def packageClosureRequests (record : PackageRecord) : List Request :=
  if record.authority.isAuthenticated then record.artifactKeys.map .artifact
  else []

/-- A current compiler output pins the stages it names. -/
def compilerOutputClosureRequests : List Request :=
  if record.authority.isAuthenticated ∧ record.type = .artifact ∧
      record.stage = compilerOutputStage ∧
      record.compilerOutputSchema = some .current then
    record.closureArtifactKeys.map .artifact
  else []

def capsuleRequests : List Request :=
  if record.authority.isAuthenticated then
    record.capsuleClosure.toList.flatMap fun closure =>
      [.compilerOutput closure.compilerOutputCacheKey,
        .artifact (topologyKey closure.topologyCertificateCacheKey)]
  else []

def snapshotRequests (snapshot : Snapshot) : List Request :=
  snapshot.certificateSha256s.map .certificate ++
    snapshot.compilerOutputKeys.map .compilerOutput ++
    snapshot.packageKeys.map .package

/-- The first key already seen earlier in the list. -/
def firstDuplicate (seen : List Sha256) : List Sha256 → Option Sha256
  | [] => none
  | key :: rest =>
    if key ∈ seen then some key else firstDuplicate (key :: seen) rest

section Planning

variable (settings : Settings) (stats : StatsTable) (inventory : Inventory)

/-- `record.mtimeMs >= recentCutoffMs`; an unmeasured record has no time and
compares false. -/
def isRecent (record : ObjectRecord) : Bool :=
  record.authority.isMeasured &&
    decide ((settings.recentCutoffMs : ℚ) ≤ (stats record.path).mtimeMs)

def recentCertificateRequests (root : CertificateRoot) : List Request :=
  if isRecent settings stats (.certificate root) then
    ((root.certificates.getD []).filter CertificateEntry.authenticated).map
      fun certificate => .certificate certificate.key
  else []

/-- A readable recent root keeps its own path as well. -/
def recentCertificatePaths (root : CertificateRoot) : List CachePath :=
  if root.certificates.isSome ∧ isRecent settings stats (.certificate root) then
    [root.path]
  else []

def recentPackageRequests (record : PackageRecord) : List Request :=
  if record.authority.isAuthenticated ∧
      isRecent settings stats (.package record) then
    [.package record.key]
  else []

def recentArtifactKeys (record : ArtifactRecord) : List ArtifactKey :=
  if record.authority.isAuthenticated ∧
      isRecent settings stats (.artifact record) then
    [record.cacheKey]
  else []

/-- A live bundle pins the layout entries that still exist. -/
def layoutRequests (retained : Retained) (record : ArtifactRecord) : List Request :=
  if record.type = .cBundle ∧ record.cacheKey ∈ retained.artifactKeys then
    (record.layoutReferences.filter inventory.hasArtifactRecord).map .artifact
  else []

def retainLayout (retained : Retained) (record : ArtifactRecord) : Except String Retained :=
  retainAll settings inventory retained (layoutRequests inventory retained record)

/-- Paths of the packages that some certificate root can open. -/
def openablePackagePaths : List CachePath :=
  inventory.certificates.flatMap fun root =>
    (inventory.openablePackageKeys root).flatMap fun key =>
      ((inventory.packageByKey key).map PackageRecord.path).toList

/-- The first pass: everything that surviving records and snapshots pin. -/
def dependencyRequests : List Request :=
  inventory.artifacts.flatMap topologyRequests ++
    inventory.packages.flatMap packageClosureRequests ++
    inventory.artifacts.flatMap compilerOutputClosureRequests ++
    inventory.artifacts.flatMap capsuleRequests ++
    inventory.snapshots.flatMap snapshotRequests

/-- A recent record that failed authentication stops the plan, unless it is a
certificate root whose only defect is an already missing package. -/
def corruptRecentRecord : Option ObjectRecord :=
  inventory.objectRecords.find? fun record =>
    match record.authority with
    | .authenticated => false
    | .invalid reason measured =>
      reason ≠ .missingPackageDependency && measured && isRecent settings stats record

def certificateKeys : List Sha256 := inventory.readableCertificates.map fun entry => entry.1.key

/-- The retained sets at the end of the pinning phase. -/
def deriveRetained : Except String Retained := do
  if let some key := firstDuplicate [] (certificateKeys inventory) then
    fail s!"deployment certificate key is duplicated: {key}"
  let retained : Retained :=
    { paths := (inventory.snapshots.map fun snapshot =>
        CachePath.snapshot snapshot.name).toFinset ∪ (openablePackagePaths inventory).toFinset
      packageKeys := ∅
      artifactKeys := ∅
      certificateSha256s := ∅ }
  let retained ← retainAll settings inventory retained (dependencyRequests inventory)
  if let some record := corruptRecentRecord settings stats inventory then
    fail s!"recent immutable authority is corrupt: {record.path.render}"
  let retained := { retained with
    paths := retained.paths ∪
      (inventory.certificates.flatMap (recentCertificatePaths settings stats)).toFinset }
  let retained ← retainAll settings inventory retained
    (inventory.certificates.flatMap (recentCertificateRequests settings stats))
  let retained ← retainAll settings inventory retained
    (inventory.packages.flatMap (recentPackageRequests settings stats))
  let retained := { retained with
    artifactKeys := retained.artifactKeys ∪
      (inventory.artifacts.flatMap (recentArtifactKeys settings stats)).toFinset }
  let retained ← inventory.artifacts.foldlM (retainLayout settings inventory) retained
  return { retained with
    paths := retained.paths ∪
      ((inventory.artifacts.filter fun record =>
        record.cacheKey ∈ retained.artifactKeys).map ArtifactRecord.path).toFinset }

end Planning

structure Candidate where
  allocationBytes : ℕ
  estimatedReclaimBytes : ℕ
  key : Sha256
  mtimeMs : ℚ
  path : CachePath
  stage : Option String
  treeIdentity : String
  type : RecordType
  deriving DecidableEq

def candidateOf (stats : StatsTable) (record : ObjectRecord) : Candidate where
  allocationBytes := (stats record.path).allocatedBytes
  estimatedReclaimBytes := (stats record.path).estimatedReclaimBytes
  key := record.key
  mtimeMs := (stats record.path).mtimeMs
  path := record.path
  stage := record.stage
  treeIdentity := (stats record.path).treeIdentity
  type := record.type

/-- The comparison of `candidates.sort`: removal priority, then the larger
estimate, then the path. -/
def candidateLe (left right : Candidate) : Prop :=
  left.type.removalPriority < right.type.removalPriority ∨
    (left.type.removalPriority = right.type.removalPriority ∧
      (right.estimatedReclaimBytes < left.estimatedReclaimBytes ∨
        (left.estimatedReclaimBytes = right.estimatedReclaimBytes ∧
          compareStringsLe left.path.render right.path.render)))

instance : DecidableRel candidateLe := fun left right => by
  unfold candidateLe
  infer_instance

/-- Take candidates until the running estimate reaches the target. -/
def selectEvictions (target : ℕ) : ℕ → List Candidate → List Candidate
  | _, [] => []
  | total, candidate :: rest =>
    if target ≤ total + candidate.estimatedReclaimBytes then [candidate]
    else
      candidate :: selectEvictions target (total + candidate.estimatedReclaimBytes) rest

structure Plan where
  evictions : List Candidate
  estimatedReclaimBytes : ℕ
  incomplete : Bool
  pressureActive : Bool
  reclaimToHighWatermarkBytes : ℕ
  retained : Retained
  deriving DecidableEq

structure Derivation where
  candidates : List Candidate
  plan : Plan
  deriving DecidableEq

section Deriving

variable (settings : Settings) (stats : StatsTable) (inventory : Inventory)

/-- Authenticated records that are neither retained nor recent. -/
def evictable (retained : Retained) (record : ObjectRecord) : Bool :=
  record.isAuthenticated && decide (record.path ∉ retained.paths) && !isRecent settings stats record

def sortedCandidates (retained : Retained) : List Candidate :=
  ((inventory.objectRecords.filter
    (evictable settings stats retained)).map (candidateOf stats)).insertionSort candidateLe

def planFrom (immutableAllocatedBytes : ℕ) (retained : Retained)
    (candidates : List Candidate) : Plan :=
  let pressure := settings.highWatermarkAllocatedBytes < immutableAllocatedBytes
  let target := immutableAllocatedBytes - settings.highWatermarkAllocatedBytes
  let evictions := if pressure then selectEvictions target 0 candidates else []
  let reclaim := (evictions.map Candidate.estimatedReclaimBytes).sum
  { evictions := evictions
    estimatedReclaimBytes := reclaim
    incomplete := decide (reclaim < target)
    pressureActive := pressure
    reclaimToHighWatermarkBytes := target
    retained := retained }

def deriveImmutablePlan (immutableAllocatedBytes : ℕ) :
    Except String Derivation := do
  let retained ← deriveRetained settings stats inventory
  let candidates := sortedCandidates settings stats inventory retained
  return {
    candidates := candidates
    plan := planFrom settings immutableAllocatedBytes retained candidates }

end Deriving

end ConvexWasm.Retention
