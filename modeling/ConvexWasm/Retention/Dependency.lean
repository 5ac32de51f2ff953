import ConvexWasm.Core.DependencySweep
import ConvexWasm.Retention.Plan

/-!
# The dependency graph of the immutable cache

What the collector is for, stated on records alone: which records another
record opens strictly, which entries a live bundle keeps in use, and which
records are protected without any dependant.
-/

namespace ConvexWasm.Retention

open ConvexWasm.DependencySweep

/-- Entries that an artifact record fails closed without. -/
def ArtifactRecord.Requires (source : ArtifactRecord) (key : ArtifactKey) : Prop :=
  (source.type = .artifact ∧ source.stage = compilerOutputStage ∧
    source.compilerOutputSchema = some .current ∧
      key ∈ source.closureArtifactKeys) ∨
  (source.orphanedTopologyCertificate = false ∧
    ∃ reference ∈ source.topologyCompilerOutputReference,
      key = compilerOutputKey reference) ∨
  ∃ closure ∈ source.capsuleClosure,
    key = compilerOutputKey closure.compilerOutputCacheKey ∨
      key = topologyKey closure.topologyCertificateCacheKey

/-- A certificate root opens the packages its certificates name; a root that
exposes no package keys may open any.  Packages open their artifacts, and
authenticated artifacts the entries they require. -/
def StrictDependency : ObjectRecord → ObjectRecord → Prop
  | .certificate root, .package target =>
    ∀ keys ∈ root.packageKeys, target.key ∈ keys
  | .package source, .artifact target =>
    source.authority.isAuthenticated ∧ target.cacheKey ∈ source.artifactKeys
  | .artifact source, .artifact target =>
    source.authority.isAuthenticated ∧ source.Requires target.cacheKey
  | _, _ => False

/-- A bundle keeps the layout entries it was built from and published. -/
def LayoutDependency : ObjectRecord → ObjectRecord → Prop
  | .artifact source, .artifact target =>
    source.authority.isAuthenticated ∧ source.type = .cBundle ∧
      target.cacheKey ∈ source.layoutReferences
  | _, _ => False

/-- Records a valid snapshot names. -/
def Snapshot.Names (snapshot : Snapshot) : ObjectRecord → Prop
  | .certificate root =>
    ∃ certificate ∈ root.certificates.getD [],
      certificate.authenticated ∧ certificate.key ∈ snapshot.certificateSha256s
  | .package record => record.key ∈ snapshot.packageKeys
  | .artifact record =>
    ∃ key ∈ snapshot.compilerOutputKeys, record.cacheKey = compilerOutputKey key

/-- Records protected in their own right. -/
def ProtectedRoot (settings : Settings) (stats : StatsTable)
    (snapshots : List Snapshot) (record : ObjectRecord) : Prop :=
  record.isAuthenticated = false ∨ isRecent settings stats record ∨
    ∃ snapshot ∈ snapshots, snapshot.Names record

def dependencyGraph (settings : Settings) (stats : StatsTable)
    (snapshots : List Snapshot) : Graph ObjectRecord where
  root := ProtectedRoot settings stats snapshots
  strict := StrictDependency
  loose := LayoutDependency

def Inventory.present (inventory : Inventory) : Set ObjectRecord :=
  { record | record ∈ inventory.objectRecords }

@[simp]
theorem Inventory.mem_present {inventory : Inventory} {record : ObjectRecord} :
    record ∈ inventory.present ↔ record ∈ inventory.objectRecords := Iff.rfl

theorem Inventory.finite_present (inventory : Inventory) : inventory.present.Finite :=
  inventory.objectRecords.finite_toSet

section Records

variable {inventory : Inventory}

@[simp]
theorem Inventory.mem_objectRecords_certificate {root : CertificateRoot} :
    .certificate root ∈ inventory.objectRecords ↔
      root ∈ inventory.certificates := by
  simp [Inventory.objectRecords]

@[simp]
theorem Inventory.mem_objectRecords_package {record : PackageRecord} :
    .package record ∈ inventory.objectRecords ↔
      record ∈ inventory.packages := by
  simp [Inventory.objectRecords]

@[simp]
theorem Inventory.mem_objectRecords_artifact {record : ArtifactRecord} :
    .artifact record ∈ inventory.objectRecords ↔
      record ∈ inventory.artifacts := by
  simp [Inventory.objectRecords]

theorem ObjectRecord.eq_artifact_of_path {record : ObjectRecord}
    {key : ArtifactKey} (hpath : record.path = key.path) :
    ∃ artifact, record = .artifact artifact ∧ artifact.cacheKey = key := by
  cases record with
  | certificate root => cases hpath
  | package package => cases hpath
  | artifact artifact =>
    exact ⟨artifact, rfl, ArtifactKey.path_inj.mp hpath⟩

theorem ObjectRecord.eq_package_of_path {record : ObjectRecord} {key : Sha256}
    (hpath : record.path = .package key) :
    ∃ package, record = .package package ∧ package.key = key := by
  cases record with
  | certificate root => cases hpath
  | package package =>
    refine ⟨package, rfl, ?_⟩
    simpa [ObjectRecord.path, PackageRecord.path] using hpath
  | artifact artifact => cases hpath

theorem Inventory.artifact_eq {first second : ArtifactRecord} (hfirst : first ∈ inventory.artifacts)
    (hsecond : second ∈ inventory.artifacts)
    (hkey : first.cacheKey = second.cacheKey) : first = second :=
  List.inj_on_of_nodup_map inventory.artifacts_nodup hfirst hsecond hkey

theorem Inventory.package_eq {first second : PackageRecord}
    (hfirst : first ∈ inventory.packages) (hsecond : second ∈ inventory.packages)
    (hkey : first.key = second.key) : first = second :=
  List.inj_on_of_nodup_map inventory.packages_nodup hfirst hsecond hkey

theorem Inventory.certificate_eq {first second : CertificateRoot}
    (hfirst : first ∈ inventory.certificates) (hsecond : second ∈ inventory.certificates)
    (hkey : first.key = second.key) : first = second :=
  List.inj_on_of_nodup_map inventory.certificates_nodup hfirst hsecond hkey

/-- No two records share a position. -/
theorem Inventory.record_eq_of_path {first second : ObjectRecord}
    (hfirst : first ∈ inventory.objectRecords) (hsecond : second ∈ inventory.objectRecords)
    (hpath : first.path = second.path) : first = second := by
  cases second with
  | certificate root =>
    cases first with
    | certificate root' =>
      rw [Inventory.mem_objectRecords_certificate] at hfirst hsecond
      rw [inventory.certificate_eq hfirst hsecond
        (by simpa [ObjectRecord.path, CertificateRoot.path] using hpath)]
    | package record => cases hpath
    | artifact record => cases hpath
  | package record =>
    obtain ⟨record', rfl, hkey⟩ := ObjectRecord.eq_package_of_path hpath
    rw [Inventory.mem_objectRecords_package] at hfirst hsecond
    rw [inventory.package_eq hfirst hsecond hkey]
  | artifact record =>
    obtain ⟨record', rfl, hkey⟩ := ObjectRecord.eq_artifact_of_path
      (hpath.trans record.cacheKey_path.symm)
    rw [Inventory.mem_objectRecords_artifact] at hfirst hsecond
    rw [inventory.artifact_eq hfirst hsecond hkey]

theorem Inventory.mem_readableCertificates {certificate : CertificateEntry}
    {root : CertificateRoot} :
    (certificate, root) ∈ inventory.readableCertificates ↔
      root ∈ inventory.certificates ∧
        certificate ∈ root.certificates.getD [] ∧ certificate.authenticated := by
  simp [Inventory.readableCertificates]

/-- A readable root names the packages of each of its certificates. -/
theorem strictDependency_of_certificate {certificate : CertificateEntry}
    {root : CertificateRoot} {target : PackageRecord}
    (hcertificate : certificate ∈ root.certificates.getD [])
    (hkey : target.key ∈ certificate.packageKeys) :
    StrictDependency (.certificate root) (.package target) := by
  intro keys hkeys
  obtain ⟨certificates, hcertificates, rfl⟩ := Option.map_eq_some_iff.mp hkeys
  rw [hcertificates, Option.getD_some] at hcertificate
  simp only [List.mem_dedup, List.mem_flatMap]
  exact ⟨certificate, hcertificate, hkey⟩

end Records

end ConvexWasm.Retention
