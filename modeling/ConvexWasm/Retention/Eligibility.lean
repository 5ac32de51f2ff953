import ConvexWasm.Retention.Dependency
import ConvexWasm.Retention.Derivation

/-!
# Eligibility is exactly the absence of a reason to keep

The planner's retained sets are compared with the dependency graph: a record of
the inventory is a candidate of a successful plan if and only if the graph
gives no reason to keep it.
-/

namespace ConvexWasm.Retention

open ConvexWasm.DependencySweep List

section Matched

/-- Artifact positions and artifact keys of a total name the same entries. -/
def Retained.Matched (retained : Retained) : Prop :=
  ∀ key : ArtifactKey, key.path ∈ retained.paths ↔ key ∈ retained.artifactKeys

theorem Retained.Matched.add {left right : Retained} (hleft : left.Matched)
    (hright : right.Matched) : (left + right).Matched := by
  intro key
  simp [hleft key, hright key]

theorem Retained.Matched.sum {Item : Type*} {items : List Item}
    {effect : Item → Retained} (heffect : ∀ item, (effect item).Matched) :
    (items.map effect).sum.Matched := by
  intro key
  simp only [Retained.mem_paths_sum, Retained.mem_artifactKeys_sum, fun item => heffect item key]

theorem matched_zero : (0 : Retained).Matched := by
  intro key
  simp

theorem matched_artifactEffect (key : ArtifactKey) : (artifactEffect key).Matched := by
  intro key'
  simp [artifactEffect]

variable (inventory : Inventory)

theorem matched_packageEffect (key : Sha256) : (packageEffect inventory key).Matched := by
  unfold packageEffect
  split
  · exact matched_zero
  · apply Retained.Matched.add
    · intro key'
      simp [ArtifactKey.path, PackageRecord.path]
    · exact Retained.Matched.sum matched_artifactEffect

theorem matched_certificateEffect (key : Sha256) : (certificateEffect inventory key).Matched := by
  unfold certificateEffect
  split
  · exact matched_zero
  · apply Retained.Matched.add
    · intro key'
      simp [ArtifactKey.path, CertificateRoot.path]
    · exact Retained.Matched.sum (matched_packageEffect inventory)

theorem matched_compilerOutputEffect (key : Sha256) :
    (compilerOutputEffect inventory key).Matched := by
  unfold compilerOutputEffect
  split
  · exact matched_zero
  · apply Retained.Matched.add (matched_artifactEffect _)
    split
    · exact Retained.Matched.sum matched_artifactEffect
    · exact matched_zero

theorem matched_effect (request : Request) : (request.effect inventory).Matched := by
  cases request with
  | artifact key => exact matched_artifactEffect key
  | package key => exact matched_packageEffect inventory key
  | certificate key => exact matched_certificateEffect inventory key
  | compilerOutput key => exact matched_compilerOutputEffect inventory key

end Matched

variable {inventory : Inventory} {path : CachePath}

section Effects

theorem mem_artifactEffect {key : ArtifactKey} :
    path ∈ (artifactEffect key).paths ↔ path = key.path := by
  simp [artifactEffect]

variable {key : Sha256}

theorem mem_packageEffect {record : PackageRecord}
    (hfind : inventory.packageByKey key = some record) :
    path ∈ (packageEffect inventory key).paths ↔
      path = record.path ∨ ∃ artifact ∈ record.artifactKeys, path = artifact.path := by
  simp [packageEffect, hfind, Retained.mem_paths_sum, mem_artifactEffect]

theorem mem_certificateEffect {certificate : CertificateEntry} {root : CertificateRoot}
    (hfind : inventory.certificateBySha256 key = some (certificate, root)) :
    path ∈ (certificateEffect inventory key).paths ↔
      path = root.path ∨ ∃ package ∈ certificate.packageKeys,
        path ∈ (packageEffect inventory package).paths := by
  simp [certificateEffect, hfind, Retained.mem_paths_sum]

theorem mem_compilerOutputEffect {record : ArtifactRecord}
    (hfind : inventory.artifactByKey (compilerOutputKey key) = some record) :
    path ∈ (compilerOutputEffect inventory key).paths ↔
      path = (compilerOutputKey key).path ∨
        (record.compilerOutputSchema = some .current ∧
          ∃ artifact ∈ record.closureArtifactKeys, path = artifact.path) := by
  simp only [compilerOutputEffect, hfind, Retained.paths_add, Finset.mem_union, mem_artifactEffect]
  split
  · rename_i hcurrent
    simp [Retained.mem_paths_sum, mem_artifactEffect, hcurrent]
  · rename_i hstale
    simp [hstale]

end Effects

variable {settings : Settings} {stats : StatsTable}

section Kept

/-- Every record at a position has a reason to be kept. -/
def KeptPath (settings : Settings) (stats : StatsTable) (inventory : Inventory)
    (path : CachePath) : Prop :=
  ∀ record ∈ inventory.objectRecords, record.path = path →
    Kept (dependencyGraph settings stats inventory.snapshots) inventory.present record

variable {record : ObjectRecord}

theorem KeptPath.of_record (hrecord : record ∈ inventory.objectRecords)
    (hkept : Kept (dependencyGraph settings stats inventory.snapshots)
      inventory.present record) : KeptPath settings stats inventory record.path := by
  intro record' hrecord' hpath
  rwa [inventory.record_eq_of_path hrecord' hrecord hpath]

theorem kept_of_strict {source target : ObjectRecord} (hsource : source ∈ inventory.objectRecords)
    (hstrict : StrictDependency source target) :
    Kept (dependencyGraph settings stats inventory.snapshots) inventory.present target :=
  .strict hsource hstrict

theorem keptPath_of_requires {source : ArtifactRecord} {key : ArtifactKey}
    (hsource : source ∈ inventory.artifacts) (hauthenticated : source.authority.isAuthenticated)
    (hrequires : source.Requires key) : KeptPath settings stats inventory key.path := by
  intro record _ hpath
  obtain ⟨target, rfl, rfl⟩ := ObjectRecord.eq_artifact_of_path hpath
  have hstrict : StrictDependency (.artifact source) (.artifact target) :=
    ⟨hauthenticated, hrequires⟩
  exact kept_of_strict (by simpa using hsource) hstrict

theorem keptPath_of_package {source : PackageRecord} {key : ArtifactKey}
    (hsource : source ∈ inventory.packages) (hauthenticated : source.authority.isAuthenticated)
    (hkey : key ∈ source.artifactKeys) : KeptPath settings stats inventory key.path := by
  intro record _ hpath
  obtain ⟨target, rfl, rfl⟩ := ObjectRecord.eq_artifact_of_path hpath
  have hstrict : StrictDependency (.package source) (.artifact target) := ⟨hauthenticated, hkey⟩
  exact kept_of_strict (by simpa using hsource) hstrict

variable {key : Sha256}

/-- Apart from the package itself, a package request pins what the package
opens. -/
theorem keptPath_of_packageEffect (havailable : packageAvailable inventory key)
    (hself : KeptPath settings stats inventory (.package key))
    (hpath : path ∈ (packageEffect inventory key).paths) :
    KeptPath settings stats inventory path := by
  obtain ⟨record, hfind, _⟩ := havailable
  obtain ⟨hrecord, hauthenticated, hkey⟩ := packageByKey_key hfind
  rcases (mem_packageEffect hfind).mp hpath with rfl | ⟨artifact, hartifact, rfl⟩
  · rwa [PackageRecord.path, hkey]
  · exact keptPath_of_package hrecord hauthenticated hartifact

theorem keptPath_of_compilerOutputEffect (havailable : compilerOutputAvailable inventory key)
    (hself : KeptPath settings stats inventory (compilerOutputKey key).path)
    (hpath : path ∈ (compilerOutputEffect inventory key).paths) :
    KeptPath settings stats inventory path := by
  obtain ⟨record, hfind, htype, _⟩ := havailable
  obtain ⟨hrecord, hauthenticated, hkey⟩ := artifactByKey_cacheKey hfind
  rcases (mem_compilerOutputEffect hfind).mp hpath with
    rfl | ⟨hcurrent, artifact, hartifact, rfl⟩
  · exact hself
  · have hstage : record.stage = compilerOutputStage := congrArg ArtifactKey.stage hkey
    exact keptPath_of_requires hrecord hauthenticated (.inl ⟨htype, hstage, hcurrent, hartifact⟩)

theorem keptPath_of_certificateEffect (havailable : certificateAvailable inventory key)
    (hself : ∀ entry ∈ inventory.readableCertificates, entry.1.key = key →
      KeptPath settings stats inventory entry.2.path)
    (hpath : path ∈ (certificateEffect inventory key).paths) :
    KeptPath settings stats inventory path := by
  obtain ⟨certificate, root, hfind, hpackages⟩ := havailable
  obtain ⟨hentry, hkey⟩ := certificateBySha256_key hfind
  obtain ⟨hroot, hcertificate, _⟩ := Inventory.mem_readableCertificates.mp hentry
  rcases (mem_certificateEffect hfind).mp hpath with
    rfl | ⟨package, hpackage, hpackagePath⟩
  · exact hself _ hentry hkey
  · apply keptPath_of_packageEffect (hpackages package hpackage) _ hpackagePath
    intro record _ hrecordPath
    obtain ⟨target, rfl, rfl⟩ := ObjectRecord.eq_package_of_path hrecordPath
    exact kept_of_strict (by simpa using hroot)
      (strictDependency_of_certificate hcertificate hpackage)

theorem keptPath_of_root (hrecord : record ∈ inventory.objectRecords)
    (hroot : ProtectedRoot settings stats inventory.snapshots record) :
    KeptPath settings stats inventory record.path :=
  .of_record hrecord (.root hroot)

end Kept

variable {request : Request} {snapshot : Snapshot}

section Retained

variable {record : ArtifactRecord}

section

variable (hpath : path ∈ (request.effect inventory).paths)
include hpath

theorem keptPath_of_topologyRequest (hrecord : record ∈ inventory.artifacts)
    (hrequest : request ∈ topologyRequests record) (havailable : request.Available inventory) :
    KeptPath settings stats inventory path := by
  unfold topologyRequests at hrequest
  split at hrequest
  · rename_i hauthority
    obtain ⟨reference, hreference, rfl⟩ :
        ∃ reference ∈ record.topologyCompilerOutputReference,
          Request.compilerOutput reference = request := by
      simpa using hrequest
    exact keptPath_of_compilerOutputEffect havailable
      (keptPath_of_requires hrecord hauthority.1
        (.inr (.inl ⟨hauthority.2, reference, hreference, rfl⟩))) hpath
  · cases hrequest

theorem keptPath_of_packageClosureRequest {record : PackageRecord}
    (hrecord : record ∈ inventory.packages) (hrequest : request ∈ packageClosureRequests record) :
    KeptPath settings stats inventory path := by
  unfold packageClosureRequests at hrequest
  split at hrequest
  · rename_i hauthenticated
    obtain ⟨key, hkey, rfl⟩ := mem_map.mp hrequest
    rw [mem_artifactEffect.mp hpath]
    exact keptPath_of_package hrecord hauthenticated hkey
  · cases hrequest

theorem keptPath_of_compilerOutputClosureRequest (hrecord : record ∈ inventory.artifacts)
    (hrequest : request ∈ compilerOutputClosureRequests record) :
    KeptPath settings stats inventory path := by
  unfold compilerOutputClosureRequests at hrequest
  split at hrequest
  · rename_i hcurrent
    obtain ⟨hauthenticated, htype, hstage, hschema⟩ := hcurrent
    obtain ⟨key, hkey, rfl⟩ := mem_map.mp hrequest
    rw [mem_artifactEffect.mp hpath]
    exact keptPath_of_requires hrecord hauthenticated (.inl ⟨htype, hstage, hschema, hkey⟩)
  · cases hrequest

theorem keptPath_of_capsuleRequest (hrecord : record ∈ inventory.artifacts)
    (hrequest : request ∈ capsuleRequests record) (havailable : request.Available inventory) :
    KeptPath settings stats inventory path := by
  unfold capsuleRequests at hrequest
  split at hrequest
  · rename_i hauthenticated
    obtain ⟨closure, hclosure, hrequest⟩ := mem_flatMap.mp hrequest
    rw [Option.mem_toList] at hclosure
    simp only [mem_cons, not_mem_nil, or_false] at hrequest
    rcases hrequest with rfl | rfl
    · exact keptPath_of_compilerOutputEffect havailable
        (keptPath_of_requires hrecord hauthenticated
          (.inr (.inr ⟨closure, hclosure, .inl rfl⟩))) hpath
    · rw [mem_artifactEffect.mp hpath]
      exact keptPath_of_requires hrecord hauthenticated (.inr (.inr ⟨closure, hclosure, .inr rfl⟩))
  · cases hrequest

end

theorem keptPath_of_names (hsnapshot : snapshot ∈ inventory.snapshots)
    (hnames : ∀ record ∈ inventory.objectRecords, record.path = path →
      snapshot.Names record) : KeptPath settings stats inventory path := by
  intro record hrecord hpath
  exact .root (.inr (.inr ⟨snapshot, hsnapshot, hnames record hrecord hpath⟩))

theorem keptPath_of_snapshotRequest (hsnapshot : snapshot ∈ inventory.snapshots)
    (hrequest : request ∈ snapshotRequests snapshot) (havailable : request.Available inventory)
    (hpath : path ∈ (request.effect inventory).paths) : KeptPath settings stats inventory path := by
  simp only [snapshotRequests, mem_append, mem_map] at hrequest
  rcases hrequest with (⟨key, hkey, rfl⟩ | ⟨key, hkey, rfl⟩) | ⟨key, hkey, rfl⟩
  · apply keptPath_of_certificateEffect havailable _ hpath
    rintro ⟨certificate, root⟩ hentry rfl
    obtain ⟨hroot, hcertificate, hauthenticated⟩ := Inventory.mem_readableCertificates.mp hentry
    have hroot' : .certificate root ∈ inventory.objectRecords := by
      simpa using hroot
    exact keptPath_of_root hroot' (.inr (.inr ⟨snapshot, hsnapshot,
      certificate, hcertificate, hauthenticated, hkey⟩))
  · apply keptPath_of_compilerOutputEffect havailable _ hpath
    apply keptPath_of_names hsnapshot
    intro record _ hrecordPath
    obtain ⟨artifact, rfl, hartifact⟩ := ObjectRecord.eq_artifact_of_path hrecordPath
    exact ⟨key, hkey, hartifact⟩
  · apply keptPath_of_packageEffect havailable _ hpath
    apply keptPath_of_names hsnapshot
    intro record _ hrecordPath
    obtain ⟨package, rfl, rfl⟩ := ObjectRecord.eq_package_of_path hrecordPath
    exact hkey

/-- Whatever the first pass pins has a reason to be kept. -/
theorem keptPath_of_dependencyRequest (hrequest : request ∈ dependencyRequests inventory)
    (havailable : request.Available inventory) (hpath : path ∈ (request.effect inventory).paths) :
    KeptPath settings stats inventory path := by
  simp only [dependencyRequests, mem_append, mem_flatMap] at hrequest
  rcases hrequest with (((⟨record, hrecord, hrequest⟩ | ⟨record, hrecord, hrequest⟩) |
    ⟨record, hrecord, hrequest⟩) | ⟨record, hrecord, hrequest⟩) | ⟨snapshot, hsnapshot, hrequest⟩
  · exact keptPath_of_topologyRequest hpath hrecord hrequest havailable
  · exact keptPath_of_packageClosureRequest hpath hrecord hrequest
  · exact keptPath_of_compilerOutputClosureRequest hpath hrecord hrequest
  · exact keptPath_of_capsuleRequest hpath hrecord hrequest havailable
  · exact keptPath_of_snapshotRequest hsnapshot hrequest havailable hpath

/-- Certificate keys are unique, so a key has one root. -/
theorem Plannable.entry_eq (hplannable : Plannable settings stats inventory)
    {first second : CertificateEntry × CertificateRoot}
    (hfirst : first ∈ inventory.readableCertificates)
    (hsecond : second ∈ inventory.readableCertificates)
    (hkey : first.1.key = second.1.key) : first = second :=
  inj_on_of_nodup_map hplannable.certificates_nodup hfirst hsecond hkey

theorem keptPath_of_recentRequest (hplannable : Plannable settings stats inventory)
    (hrequest : request ∈ recentRequests settings stats inventory)
    (hpath : path ∈ (request.effect inventory).paths) : KeptPath settings stats inventory path := by
  have havailable := hplannable.recent request hrequest
  simp only [recentRequests, mem_append, mem_flatMap] at hrequest
  rcases hrequest with ⟨root, hroot, hrequest⟩ | ⟨record, hrecord, hrequest⟩
  · unfold recentCertificateRequests at hrequest
    split at hrequest
    · rename_i hrecent
      obtain ⟨certificate, hcertificate, rfl⟩ := mem_map.mp hrequest
      have hentry : (certificate, root) ∈ inventory.readableCertificates :=
        Inventory.mem_readableCertificates.mpr ⟨hroot, by simpa using hcertificate⟩
      apply keptPath_of_certificateEffect havailable _ hpath
      intro entry hother hkey
      rw [hplannable.entry_eq hother hentry hkey]
      have hroot' : .certificate root ∈ inventory.objectRecords := by
        simpa using hroot
      exact keptPath_of_root hroot' (.inr (.inl hrecent))
    · cases hrequest
  · unfold recentPackageRequests at hrequest
    split at hrequest
    · rename_i hrecent
      obtain rfl := mem_singleton.mp hrequest
      apply keptPath_of_packageEffect havailable _ hpath
      have hrecord' : .package record ∈ inventory.objectRecords := by
        simpa using hrecord
      exact keptPath_of_root hrecord' (.inr (.inl hrecent.2))
    · cases hrequest

variable {key : ArtifactKey}

theorem artifactAvailable_of_effect (havailable : request.Available inventory)
    (hkey : key ∈ (request.effect inventory).artifactKeys) : artifactAvailable inventory key := by
  have hpackage : ∀ package, packageAvailable inventory package →
      key ∈ (packageEffect inventory package).artifactKeys →
        artifactAvailable inventory key := by
    rintro package ⟨record, hfind, hartifacts⟩ hmem
    rw [← matched_packageEffect inventory package key, mem_packageEffect hfind] at hmem
    rcases hmem with hself | ⟨artifact, hartifact, heq⟩
    · cases hself
    · rw [ArtifactKey.path_inj.mp heq]
      exact hartifacts artifact hartifact
  cases request with
  | artifact key' =>
    have heq : key = key' := by
      simpa [Request.effect, artifactEffect] using hkey
    rw [heq]
    exact havailable
  | package package => exact hpackage package havailable hkey
  | certificate certificate =>
    obtain ⟨entry, root, hfind, hpackages⟩ := havailable
    rw [← matched_effect inventory _ key] at hkey
    rcases (mem_certificateEffect hfind).mp hkey with hself | ⟨package, hmem, hpath⟩
    · cases hself
    · exact hpackage package (hpackages package hmem)
        ((matched_packageEffect inventory package key).mp hpath)
  | compilerOutput output =>
    obtain ⟨record, hfind, _, hclosure⟩ := havailable
    rw [← matched_effect inventory _ key] at hkey
    rcases (mem_compilerOutputEffect hfind).mp hkey with
      hself | ⟨hcurrent, artifact, hartifact, heq⟩
    · rw [ArtifactKey.path_inj.mp hself]
      simp [artifactAvailable, hfind]
    · rw [ArtifactKey.path_inj.mp heq]
      exact hclosure hcurrent artifact hartifact

theorem isAuthenticated_of_available (hrecord : record ∈ inventory.artifacts)
    (havailable : artifactAvailable inventory record.cacheKey) :
    record.authority.isAuthenticated := by
  obtain ⟨found, hfind⟩ := Option.isSome_iff_exists.mp havailable
  obtain ⟨hfound, hauthenticated, hkey⟩ := artifactByKey_cacheKey hfind
  rwa [← inventory.artifact_eq hfound hrecord hkey]

theorem mem_recentArtifactKeys :
    key ∈ inventory.artifacts.flatMap (recentArtifactKeys settings stats) ↔
      ∃ record ∈ inventory.artifacts, record.authority.isAuthenticated ∧
        isRecent settings stats (.artifact record) ∧ key = record.cacheKey := by
  rw [mem_flatMap]
  refine exists_congr fun record => and_congr_right fun _ => ?_
  unfold recentArtifactKeys
  split
  · rename_i hrecent
    simp [hrecent]
  · rename_i hold
    simp only [not_mem_nil, false_iff]
    rintro ⟨hauthenticated, hrecent, _⟩
    exact hold ⟨hauthenticated, hrecent⟩

/-- Entries live before the layout loop are authenticated and have a reason to
be kept. -/
theorem beforeLayout_key (hplannable : Plannable settings stats inventory)
    (hrecord : record ∈ inventory.artifacts) (hkey : record.cacheKey ∈
      (retainedBeforeLayout settings stats inventory).artifactKeys) :
    record.authority.isAuthenticated ∧
      KeptPath settings stats inventory record.path := by
  simp only [retainedBeforeLayout, initialRetained, Retained.artifactKeys_add,
    Finset.mem_union, Retained.mem_artifactKeys_sum, mem_toFinset,
    Retained.artifactKeys_zero, Finset.notMem_empty, false_or, or_false] at hkey
  rcases hkey with (⟨request, hrequest, hkey⟩ | ⟨request, hrequest, hkey⟩) | hkey
  · have havailable := hplannable.dependencies request hrequest
    have hpath := (matched_effect inventory request _).mpr hkey
    exact ⟨isAuthenticated_of_available hrecord
      (artifactAvailable_of_effect havailable hkey),
      keptPath_of_dependencyRequest hrequest havailable hpath⟩
  · have hpath := (matched_effect inventory request _).mpr hkey
    exact ⟨isAuthenticated_of_available hrecord
      (artifactAvailable_of_effect (hplannable.recent request hrequest) hkey),
      keptPath_of_recentRequest hplannable hrequest hpath⟩
  · obtain ⟨other, hother, hauthenticated, hrecent, heq⟩ := mem_recentArtifactKeys.mp hkey
    obtain rfl := inventory.artifact_eq hrecord hother heq
    have hrecord' : .artifact record ∈ inventory.objectRecords := by
      simpa using hrecord
    exact ⟨hauthenticated, keptPath_of_root hrecord' (.inr (.inl hrecent))⟩

theorem keptPath_of_layoutRequest (hplannable : Plannable settings stats inventory)
    (hrequest : request ∈ allLayoutRequests settings stats inventory)
    (hpath : path ∈ (request.effect inventory).paths) : KeptPath settings stats inventory path := by
  obtain ⟨bundle, hbundle, hrequest⟩ := mem_flatMap.mp hrequest
  obtain ⟨htype, hlive, key, hreference, _, rfl⟩ := mem_layoutRequests.mp hrequest
  obtain ⟨hauthenticated, hkept⟩ := beforeLayout_key hplannable hbundle hlive
  have hbundle' : .artifact bundle ∈ inventory.objectRecords := by
    simpa using hbundle
  rw [mem_artifactEffect.mp hpath]
  intro record _ hrecordPath
  obtain ⟨target, rfl, rfl⟩ := ObjectRecord.eq_artifact_of_path hrecordPath
  have hlayout : LayoutDependency (.artifact bundle) (.artifact target) :=
    ⟨hauthenticated, htype, hreference⟩
  exact .loose hbundle' (hkept _ hbundle' rfl) hlayout

end Retained

section Soundness

theorem mem_openablePackagePaths :
    path ∈ openablePackagePaths inventory ↔
      ∃ root ∈ inventory.certificates, ∃ key ∈ inventory.openablePackageKeys root,
        ∃ record, inventory.packageByKey key = some record ∧ path = record.path := by
  simp [openablePackagePaths, @eq_comm _ path]

theorem keptPath_of_openable (hpath : path ∈ openablePackagePaths inventory) :
    KeptPath settings stats inventory path := by
  obtain ⟨root, hroot, key, hkey, record, hfind, rfl⟩ := mem_openablePackagePaths.mp hpath
  obtain ⟨hrecord, _, rfl⟩ := packageByKey_key hfind
  have hrecord' : .package record ∈ inventory.objectRecords := by
    simpa using hrecord
  have hstrict : StrictDependency (.certificate root) (.package record) := by
    intro keys hkeys
    rwa [Inventory.openablePackageKeys, hkeys, Option.getD_some] at hkey
  have hroot' : .certificate root ∈ inventory.objectRecords := by
    simpa using hroot
  exact KeptPath.of_record hrecord' (kept_of_strict hroot' hstrict)

theorem keptPath_of_initial (hpath : path ∈ (initialRetained inventory).paths) :
    KeptPath settings stats inventory path := by
  simp only [initialRetained, Finset.mem_union, mem_toFinset, mem_map] at hpath
  rcases hpath with ⟨snapshot, _, rfl⟩ | hopenable
  · intro record _ hrecord
    cases record <;> cases hrecord
  · exact keptPath_of_openable hopenable

theorem keptPath_of_recentCertificatePath
    (hpath : path ∈ inventory.certificates.flatMap (recentCertificatePaths settings stats)) :
    KeptPath settings stats inventory path := by
  obtain ⟨root, hroot, hpath⟩ := mem_flatMap.mp hpath
  unfold recentCertificatePaths at hpath
  split at hpath
  · rename_i hrecent
    obtain rfl := mem_singleton.mp hpath
    have hroot' : .certificate root ∈ inventory.objectRecords := by
      simpa using hroot
    exact keptPath_of_root hroot' (.inr (.inl hrecent.2))
  · cases hpath

/-- Whatever a successful plan retains has a reason to be kept. -/
theorem keptPath_of_retained (hplannable : Plannable settings stats inventory)
    (hpath : path ∈ (finalRetained settings stats inventory).paths) :
    KeptPath settings stats inventory path := by
  have hlayoutKey : ∀ record ∈ inventory.artifacts,
      record.cacheKey ∈ (retainedAfterLayout settings stats inventory).artifactKeys →
        KeptPath settings stats inventory record.path := by
    intro record hrecord hkey
    rw [retainedAfterLayout, Retained.artifactKeys_add, Finset.mem_union] at hkey
    rcases hkey with hbefore | hlayout
    · exact (beforeLayout_key hplannable hrecord hbefore).2
    · obtain ⟨request, hrequest, hmem⟩ := Retained.mem_artifactKeys_sum.mp hlayout
      exact keptPath_of_layoutRequest hplannable hrequest
        ((matched_effect inventory request _).mpr hmem)
  simp only [finalRetained, retainedAfterLayout, retainedBeforeLayout,
    Retained.paths_add, Finset.mem_union, Retained.mem_paths_sum,
    mem_toFinset, mem_map, mem_filter] at hpath
  rcases hpath with (((((hinitial | ⟨request, hrequest, hpath⟩) | hrecent) |
    ⟨request, hrequest, hpath⟩) | hempty) | ⟨request, hrequest, hpath⟩) |
      ⟨record, ⟨hrecord, hkey⟩, rfl⟩
  · exact keptPath_of_initial hinitial
  · exact keptPath_of_dependencyRequest hrequest (hplannable.dependencies request hrequest) hpath
  · exact keptPath_of_recentCertificatePath hrecent
  · exact keptPath_of_recentRequest hplannable hrequest hpath
  · simp at hempty
  · exact keptPath_of_layoutRequest hplannable hrequest hpath
  · exact hlayoutKey record hrecord (of_decide_eq_true hkey)

end Soundness

section Completeness

theorem retained_of_before (hpath : path ∈ (retainedBeforeLayout settings stats inventory).paths) :
    path ∈ (finalRetained settings stats inventory).paths := by
  simp only [finalRetained, retainedAfterLayout, Retained.paths_add, Finset.mem_union]
  exact .inl (.inl hpath)

theorem retained_of_initial (hpath : path ∈ (initialRetained inventory).paths) :
    path ∈ (finalRetained settings stats inventory).paths := by
  apply retained_of_before
  simp only [retainedBeforeLayout, Retained.paths_add, Finset.mem_union]
  exact .inl (.inl (.inl (.inl hpath)))

theorem retained_of_dependencyRequest (hrequest : request ∈ dependencyRequests inventory)
    (hpath : path ∈ (request.effect inventory).paths) :
    path ∈ (finalRetained settings stats inventory).paths := by
  apply retained_of_before
  simp only [retainedBeforeLayout, Retained.paths_add, Finset.mem_union, Retained.mem_paths_sum]
  exact .inl (.inl (.inl (.inr ⟨request, hrequest, hpath⟩)))

variable {key : ArtifactKey}

theorem retained_of_artifactRequest (hrequest : .artifact key ∈ dependencyRequests inventory) :
    key.path ∈ (finalRetained settings stats inventory).paths :=
  retained_of_dependencyRequest hrequest (mem_artifactEffect.mpr rfl)

theorem retained_of_compilerOutputRequest {key : Sha256}
    (hplannable : Plannable settings stats inventory)
    (hrequest : .compilerOutput key ∈ dependencyRequests inventory) :
    (compilerOutputKey key).path ∈ (finalRetained settings stats inventory).paths := by
  obtain ⟨record, hfind, _⟩ := hplannable.dependencies _ hrequest
  exact retained_of_dependencyRequest hrequest ((mem_compilerOutputEffect hfind).mpr (.inl rfl))

variable {record : PackageRecord}

theorem packageByKey_of_mem (hrecord : record ∈ inventory.packages)
    (hauthenticated : record.authority.isAuthenticated) :
    inventory.packageByKey record.key = some record := by
  have hfound : (inventory.packageByKey record.key).isSome := by
    rw [Inventory.packageByKey, List.find?_isSome]
    exact ⟨record, hrecord, by simp [hauthenticated]⟩
  obtain ⟨found, hfind⟩ := Option.isSome_iff_exists.mp hfound
  obtain ⟨hmem, _, hkey⟩ := packageByKey_key hfind
  rw [hfind, inventory.package_eq hmem hrecord hkey]

theorem retained_of_openable {root : CertificateRoot} (hroot : root ∈ inventory.certificates)
    (hrecord : record ∈ inventory.packages) (hauthenticated : record.authority.isAuthenticated)
    (hstrict : StrictDependency (.certificate root) (.package record)) :
    record.path ∈ (finalRetained settings stats inventory).paths := by
  have hkey : record.key ∈ inventory.openablePackageKeys root := by
    unfold Inventory.openablePackageKeys
    cases hkeys : root.packageKeys with
    | none =>
      exact mem_map_of_mem (by simp [hrecord, hauthenticated])
    | some keys => exact hstrict keys hkeys
  apply retained_of_initial
  simp only [initialRetained, Finset.mem_union, mem_toFinset]
  exact .inr (mem_openablePackagePaths.mpr ⟨root, hroot, record.key, hkey, record,
    packageByKey_of_mem hrecord hauthenticated, rfl⟩)

theorem mem_dependencyRequests_of_package {source : PackageRecord}
    (hsource : source ∈ inventory.packages) (hauthenticated : source.authority.isAuthenticated)
    (hkey : key ∈ source.artifactKeys) : .artifact key ∈ dependencyRequests inventory := by
  have hrequest : .artifact key ∈ packageClosureRequests source := by
    simp [packageClosureRequests, hauthenticated, hkey]
  simp only [dependencyRequests, mem_append, mem_flatMap]
  exact .inl (.inl (.inl (.inr ⟨source, hsource, hrequest⟩)))

theorem mem_dependencyRequests_of_snapshot (hsnapshot : snapshot ∈ inventory.snapshots)
    (hrequest : request ∈ snapshotRequests snapshot) : request ∈ dependencyRequests inventory := by
  simp only [dependencyRequests, mem_append, mem_flatMap]
  exact .inr ⟨snapshot, hsnapshot, hrequest⟩

variable (hplannable : Plannable settings stats inventory)
include hplannable

/-- The three ways an artifact requires another all become requests. -/
theorem retained_of_requires {source : ArtifactRecord} (hsource : source ∈ inventory.artifacts)
    (hauthenticated : source.authority.isAuthenticated) (hrequires : source.Requires key) :
    key.path ∈ (finalRetained settings stats inventory).paths := by
  rcases hrequires with ⟨htype, hstage, hschema, hkey⟩ |
    ⟨horphaned, reference, hreference, rfl⟩ | ⟨closure, hclosure, hkey⟩
  · apply retained_of_artifactRequest
    have hrequest : .artifact key ∈ compilerOutputClosureRequests source := by
      simp [compilerOutputClosureRequests, hauthenticated, htype, hstage, hschema, hkey]
    simp only [dependencyRequests, mem_append, mem_flatMap]
    exact .inl (.inl (.inr ⟨source, hsource, hrequest⟩))
  · apply retained_of_compilerOutputRequest hplannable
    have hrequest : .compilerOutput reference ∈ topologyRequests source := by
      simpa [topologyRequests, hauthenticated, horphaned] using hreference
    simp only [dependencyRequests, mem_append, mem_flatMap]
    exact .inl (.inl (.inl (.inl ⟨source, hsource, hrequest⟩)))
  · have hcapsule : ∀ request ∈ [Request.compilerOutput closure.compilerOutputCacheKey,
        .artifact (topologyKey closure.topologyCertificateCacheKey)],
        request ∈ dependencyRequests inventory := by
      intro request hrequest
      have hmem : request ∈ capsuleRequests source := by
        rw [capsuleRequests, if_pos hauthenticated, mem_flatMap]
        exact ⟨closure, Option.mem_toList.mpr hclosure, hrequest⟩
      simp only [dependencyRequests, mem_append, mem_flatMap]
      exact .inl (.inr ⟨source, hsource, hmem⟩)
    rcases hkey with rfl | rfl
    · exact retained_of_compilerOutputRequest hplannable (hcapsule _ (by simp))
    · exact retained_of_artifactRequest (hcapsule _ (by simp))

theorem retained_of_strict {source target : ObjectRecord}
    (hsource : source ∈ inventory.objectRecords) (htarget : target ∈ inventory.objectRecords)
    (hauthenticated : target.isAuthenticated) (hstrict : StrictDependency source target) :
    target.path ∈ (finalRetained settings stats inventory).paths := by
  cases source with
  | certificate root =>
    cases target with
    | certificate _ => cases hstrict
    | package record =>
      exact retained_of_openable (by simpa using hsource)
        (by simpa using htarget) hauthenticated hstrict
    | artifact _ => cases hstrict
  | package source =>
    cases target with
    | certificate _ => cases hstrict
    | package _ => cases hstrict
    | artifact target =>
      exact retained_of_artifactRequest (mem_dependencyRequests_of_package
        (by simpa using hsource) hstrict.1 hstrict.2)
  | artifact source =>
    cases target with
    | certificate _ => cases hstrict
    | package _ => cases hstrict
    | artifact target =>
      exact retained_of_requires hplannable (by simpa using hsource) hstrict.1 hstrict.2

theorem retained_of_names {record : ObjectRecord} (hsnapshot : snapshot ∈ inventory.snapshots)
    (hrecord : record ∈ inventory.objectRecords) (hnames : snapshot.Names record) :
    record.path ∈ (finalRetained settings stats inventory).paths := by
  cases record with
  | certificate root =>
    obtain ⟨certificate, hcertificate, hauthenticated, hkey⟩ := hnames
    have hrequest : .certificate certificate.key ∈ dependencyRequests inventory :=
      mem_dependencyRequests_of_snapshot hsnapshot (by simp [snapshotRequests, hkey])
    obtain ⟨found, root', hfind, _⟩ := hplannable.dependencies _ hrequest
    obtain ⟨hfound, hfoundKey⟩ := certificateBySha256_key hfind
    have hentry : (certificate, root) ∈ inventory.readableCertificates :=
      Inventory.mem_readableCertificates.mpr ⟨by simpa using hrecord, hcertificate, hauthenticated⟩
    have hroot : root' = root := congrArg Prod.snd (hplannable.entry_eq hfound hentry hfoundKey)
    exact retained_of_dependencyRequest hrequest
      ((mem_certificateEffect hfind).mpr (.inl (by rw [hroot]; rfl)))
  | package package =>
    have hrequest : .package package.key ∈ dependencyRequests inventory := by
      apply mem_dependencyRequests_of_snapshot hsnapshot
      simp only [snapshotRequests, mem_append, mem_map]
      exact .inr ⟨package.key, hnames, rfl⟩
    obtain ⟨found, hfind, _⟩ := hplannable.dependencies _ hrequest
    have hkey := (packageByKey_key hfind).2.2
    apply retained_of_dependencyRequest hrequest
    rw [Request.effect, mem_packageEffect hfind]
    exact .inl (congrArg CachePath.package hkey.symm)
  | artifact artifact =>
    obtain ⟨key, hkey, hcacheKey⟩ := hnames
    have hrequest : .compilerOutput key ∈ dependencyRequests inventory := by
      apply mem_dependencyRequests_of_snapshot hsnapshot
      simp only [snapshotRequests, mem_append, mem_map]
      exact .inl (.inr ⟨key, hkey, rfl⟩)
    have hretained := retained_of_compilerOutputRequest hplannable hrequest
    rwa [← hcacheKey] at hretained

end Completeness

section Eligible

/-- Every artifact position that is retained comes with its key. -/
theorem retainedAfterLayout_of_path {key : ArtifactKey}
    (hpath : key.path ∈ (finalRetained settings stats inventory).paths) :
    key ∈ (retainedAfterLayout settings stats inventory).artifactKeys := by
  have hmatched : ∀ requests : List Request,
      key.path ∈ (requests.map (Request.effect inventory)).sum.paths →
        key ∈ (requests.map (Request.effect inventory)).sum.artifactKeys :=
    fun requests => (Retained.Matched.sum (matched_effect inventory) key).mp
  simp only [finalRetained, Retained.paths_add, Finset.mem_union,
    mem_toFinset, mem_map, mem_filter] at hpath
  rcases hpath with hpath | ⟨record, ⟨_, hkey⟩, hrecord⟩
  · simp only [retainedAfterLayout, retainedBeforeLayout, Retained.paths_add,
      Finset.mem_union, mem_toFinset] at hpath
    simp only [retainedAfterLayout, retainedBeforeLayout,
      Retained.artifactKeys_add, Finset.mem_union]
    rcases hpath with ((((hinitial | hpath) | hrecent) | hpath) | hempty) | hpath
    · exfalso
      simp only [initialRetained, Finset.mem_union, mem_toFinset, mem_map] at hinitial
      rcases hinitial with ⟨_, _, heq⟩ | hopenable
      · cases heq
      · obtain ⟨_, _, _, _, _, _, heq⟩ := mem_openablePackagePaths.mp hopenable
        cases heq
    · exact .inl (.inl (.inl (.inl (.inr (hmatched _ hpath)))))
    · exfalso
      obtain ⟨root, _, hrecent⟩ := mem_flatMap.mp hrecent
      unfold recentCertificatePaths at hrecent
      split at hrecent
      · cases mem_singleton.mp hrecent
      · cases hrecent
    · exact .inl (.inl (.inr (hmatched _ hpath)))
    · simp at hempty
    · exact .inr (hmatched _ hpath)
  · rw [← record.cacheKey_path, ArtifactKey.path_inj] at hrecord
    rw [← hrecord]
    exact of_decide_eq_true hkey

/-- A bundle with layout references is live before the layout loop as soon as
it is retained at all. -/
theorem beforeLayout_of_retained {bundle : ArtifactRecord} (hbundle : bundle ∈ inventory.artifacts)
    (hlayout : bundle.layoutReferences ≠ [])
    (hkey : bundle.cacheKey ∈ (retainedAfterLayout settings stats inventory).artifactKeys) :
    bundle.cacheKey ∈
      (retainedBeforeLayout settings stats inventory).artifactKeys := by
  rw [retainedAfterLayout, Retained.artifactKeys_add, Finset.mem_union] at hkey
  rcases hkey with hbefore | hadded
  · exact hbefore
  · obtain ⟨request, hrequest, hmem⟩ := Retained.mem_artifactKeys_sum.mp hadded
    obtain ⟨other, hother, hrequest⟩ := mem_flatMap.mp hrequest
    obtain ⟨_, _, key, hreference, _, rfl⟩ := mem_layoutRequests.mp hrequest
    have hself : bundle.cacheKey = key := by
      simpa [Request.effect, artifactEffect] using hmem
    exact absurd
      (inventory.layout_shallow other hother key hreference bundle hbundle hself)
      hlayout

theorem retained_of_layout {bundle target : ArtifactRecord}
    (hbundle : bundle ∈ inventory.artifacts) (htarget : target ∈ inventory.artifacts)
    (hlive : bundle.cacheKey ∈ (retainedBeforeLayout settings stats inventory).artifactKeys)
    (htype : bundle.type = .cBundle) (hreference : target.cacheKey ∈ bundle.layoutReferences) :
    target.path ∈ (finalRetained settings stats inventory).paths := by
  have hpresent : inventory.hasArtifactRecord target.cacheKey := by
    rw [Inventory.hasArtifactRecord, any_eq_true]
    exact ⟨target, htarget, by simp⟩
  have hrequest : .artifact target.cacheKey ∈
      allLayoutRequests settings stats inventory := by
    refine mem_flatMap.mpr ⟨bundle, hbundle, mem_layoutRequests.mpr ?_⟩
    exact ⟨htype, hlive, target.cacheKey, hreference, hpresent, rfl⟩
  simp only [finalRetained, retainedAfterLayout, Retained.paths_add,
    Finset.mem_union, Retained.mem_paths_sum]
  exact .inl (.inr ⟨_, hrequest, mem_artifactEffect.mpr rfl⟩)

variable {record : ObjectRecord}

theorem not_evictable_iff {retained : Retained} :
    evictable settings stats retained record = false ↔
      record.isAuthenticated = false ∨ record.path ∈ retained.paths ∨
        isRecent settings stats record := by
  unfold evictable
  cases record.isAuthenticated <;> cases isRecent settings stats record <;> simp

variable (hplannable : Plannable settings stats inventory)
  (hrecord : record ∈ inventory.objectRecords)
include hplannable hrecord

theorem not_evictable_of_kept (hkept : Kept (dependencyGraph settings stats inventory.snapshots)
      inventory.present record) :
    evictable settings stats (finalRetained settings stats inventory) record =
      false := by
  rw [not_evictable_iff]
  induction hkept with
  | root hroot =>
    rcases hroot with hinvalid | hrecent | ⟨snapshot, hsnapshot, hnames⟩
    · exact .inl hinvalid
    · exact .inr (.inr hrecent)
    · exact .inr (.inl (retained_of_names hplannable hsnapshot hrecord hnames))
  | @strict source target hsource hstrict =>
    by_cases hauthenticated : target.isAuthenticated
    · exact .inr (.inl (retained_of_strict hplannable hsource hrecord hauthenticated hstrict))
    · exact .inl (by simpa using hauthenticated)
  | @loose source target hsource _ hloose ih =>
    cases source with
    | certificate _ => cases target <;> cases hloose
    | package _ => cases target <;> cases hloose
    | artifact bundle =>
      cases target with
      | certificate _ => cases hloose
      | package _ => cases hloose
      | artifact target =>
        obtain ⟨hauthenticated, htype, hreference⟩ := hloose
        have hbundle : bundle ∈ inventory.artifacts := by simpa using hsource
        have hlive : bundle.cacheKey ∈
            (retainedBeforeLayout settings stats inventory).artifactKeys := by
          rcases ih hsource with hinvalid | hpath | hrecent
          · rw [ObjectRecord.isAuthenticated, ObjectRecord.authority, hauthenticated] at hinvalid
            cases hinvalid
          · exact beforeLayout_of_retained hbundle
              (ne_nil_of_mem hreference)
              (retainedAfterLayout_of_path hpath)
          · have hkey := mem_recentArtifactKeys.mpr ⟨bundle, hbundle, hauthenticated, hrecent, rfl⟩
            rw [retainedBeforeLayout, Retained.artifactKeys_add, Finset.mem_union]
            exact .inr (mem_toFinset.mpr hkey)
        exact .inr (.inl (retained_of_layout hbundle (by simpa using hrecord)
          hlive htype hreference))

/-- The candidates of a successful plan are exactly the records that nothing
gives a reason to keep. -/
theorem evictable_iff :
    evictable settings stats (finalRetained settings stats inventory) record ↔
      ¬ Kept (dependencyGraph settings stats inventory.snapshots)
        inventory.present record := by
  constructor
  · intro hevictable hkept
    rw [not_evictable_of_kept hplannable hrecord hkept] at hevictable
    cases hevictable
  · intro hkept
    by_contra hevictable
    rw [Bool.not_eq_true, not_evictable_iff] at hevictable
    rcases hevictable with hinvalid | hpath | hrecent
    · exact hkept (.root (.inl hinvalid))
    · exact hkept (keptPath_of_retained hplannable hpath record hrecord rfl)
    · exact hkept (.root (.inr (.inl hrecent)))

end Eligible

end ConvexWasm.Retention
