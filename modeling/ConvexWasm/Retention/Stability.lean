import ConvexWasm.Retention.Eligibility

/-!
# Plans survive their own evictions

Removing records that a successful plan did not retain leaves every remaining
request available with the same effect, so the next derivation succeeds as
well.  The same holds when statistics are refreshed without moving a record
across the recency cutoff.
-/

namespace ConvexWasm.Retention

open Finset List

variable {inventory : Inventory} {deleted : List CachePath}

@[simp]
theorem Inventory.removeDeleted_snapshots :
    (inventory.removeDeleted deleted).snapshots = inventory.snapshots := rfl

theorem Inventory.mem_artifacts_removeDeleted {record : ArtifactRecord} :
    record ∈ (inventory.removeDeleted deleted).artifacts ↔
      record ∈ inventory.artifacts ∧ record.path ∉ deleted := by
  simp [Inventory.removeDeleted]

theorem Inventory.mem_packages_removeDeleted {record : PackageRecord} :
    record ∈ (inventory.removeDeleted deleted).packages ↔
      record ∈ inventory.packages ∧ record.path ∉ deleted := by
  simp [Inventory.removeDeleted]

theorem Inventory.mem_certificates_removeDeleted {root : CertificateRoot} :
    root ∈ (inventory.removeDeleted deleted).certificates ↔
      root ∈ inventory.certificates ∧ root.path ∉ deleted := by
  simp [Inventory.removeDeleted]

theorem Inventory.objectRecords_removeDeleted :
    (inventory.removeDeleted deleted).objectRecords =
      inventory.objectRecords.filter fun record => record.path ∉ deleted := by
  simp only [objectRecords, removeDeleted, filter_append, filter_map]
  rfl

theorem Inventory.mem_objectRecords_removeDeleted {record : ObjectRecord} :
    record ∈ (inventory.removeDeleted deleted).objectRecords ↔
      record ∈ inventory.objectRecords ∧ record.path ∉ deleted := by
  simp [objectRecords_removeDeleted]

theorem Inventory.objectPaths_removeDeleted :
    (inventory.removeDeleted deleted).objectPaths = inventory.objectPaths.filter (· ∉ deleted) := by
  simp only [objectPaths, objectRecords_removeDeleted, filter_map]
  rfl

theorem find?_filter_of_some {Item : Type*} {items : List Item}
    {kept found : Item → Bool} {item : Item}
    (hfind : items.find? found = some item) (hkept : kept item) :
    (items.filter kept).find? found = some item := by
  obtain ⟨hfound, before, after, rfl, hbefore⟩ := List.find?_eq_some_iff_append.mp hfind
  rw [filter_append, filter_cons_of_pos hkept]
  refine List.find?_eq_some_iff_append.mpr ⟨hfound, _, _, rfl, ?_⟩
  exact fun earlier hearlier => hbefore earlier (mem_of_mem_filter hearlier)

theorem artifactByKey_removeDeleted {key : ArtifactKey} {record : ArtifactRecord}
    (hfind : inventory.artifactByKey key = some record) (hkept : key.path ∉ deleted) :
    (inventory.removeDeleted deleted).artifactByKey key = some record := by
  have hpath : record.path = key.path := by
    rw [← record.cacheKey_path, (artifactByKey_cacheKey hfind).2.2]
  exact find?_filter_of_some hfind (by simpa [hpath] using hkept)

theorem packageByKey_removeDeleted {key : Sha256} {record : PackageRecord}
    (hfind : inventory.packageByKey key = some record) (hkept : record.path ∉ deleted) :
    (inventory.removeDeleted deleted).packageByKey key = some record :=
  find?_filter_of_some hfind (by simpa using hkept)

theorem Inventory.readableCertificates_removeDeleted :
    (inventory.removeDeleted deleted).readableCertificates =
      inventory.readableCertificates.filter fun entry =>
        entry.2.path ∉ deleted := by
  simp only [Inventory.readableCertificates, Inventory.removeDeleted]
  induction inventory.certificates with
  | nil => rfl
  | cons root rest ih =>
    simp only [decide_not] at ih ⊢
    by_cases hdeleted : root.path ∈ deleted
    all_goals simp [hdeleted, ih, filter_map]

theorem certificateBySha256_removeDeleted {key : Sha256}
    {certificate : CertificateEntry} {root : CertificateRoot}
    (hfind : inventory.certificateBySha256 key = some (certificate, root))
    (hkept : root.path ∉ deleted) :
    (inventory.removeDeleted deleted).certificateBySha256 key = some (certificate, root) := by
  rw [Inventory.certificateBySha256, Inventory.readableCertificates_removeDeleted]
  exact find?_filter_of_some hfind (by simpa using hkept)

/-- A request is unaffected by a removal when it stays available with the same
effect. -/
def Request.Unaffected (inventory : Inventory) (deleted : List CachePath)
    (request : Request) : Prop :=
  request.Available (inventory.removeDeleted deleted) ∧
    request.effect (inventory.removeDeleted deleted) = request.effect inventory

theorem unaffected_artifact {key : ArtifactKey}
    (havailable : artifactAvailable inventory key) (hkept : key.path ∉ deleted) :
    Request.Unaffected inventory deleted (.artifact key) := by
  obtain ⟨record, hfind⟩ := Option.isSome_iff_exists.mp havailable
  refine ⟨?_, rfl⟩
  have hfind' := artifactByKey_removeDeleted hfind hkept
  simp [Request.Available, artifactAvailable, hfind']

theorem unaffected_package {key : Sha256} (havailable : packageAvailable inventory key)
    (hkept : ∀ path ∈ (packageEffect inventory key).paths, path ∉ deleted) :
    Request.Unaffected inventory deleted (.package key) := by
  obtain ⟨record, hfind, hartifacts⟩ := havailable
  simp only [mem_packageEffect hfind] at hkept
  have hfind' := packageByKey_removeDeleted hfind (hkept _ (.inl rfl))
  constructor
  · refine ⟨record, hfind', fun artifact hartifact => ?_⟩
    exact (unaffected_artifact (hartifacts artifact hartifact)
      (hkept _ (.inr ⟨artifact, hartifact, rfl⟩))).1
  · simp only [Request.effect, packageEffect, hfind, hfind']

theorem unaffected_certificate {key : Sha256} (havailable : certificateAvailable inventory key)
    (hkept : ∀ path ∈ (certificateEffect inventory key).paths, path ∉ deleted) :
    Request.Unaffected inventory deleted (.certificate key) := by
  obtain ⟨certificate, root, hfind, hpackages⟩ := havailable
  simp only [mem_certificateEffect hfind] at hkept
  have hfind' := certificateBySha256_removeDeleted hfind (hkept _ (.inl rfl))
  have hpackage : ∀ package ∈ certificate.packageKeys,
      Request.Unaffected inventory deleted (.package package) := by
    intro package hpackage
    apply unaffected_package (hpackages package hpackage)
    exact fun path hpath => hkept path (.inr ⟨package, hpackage, hpath⟩)
  constructor
  · exact ⟨certificate, root, hfind', fun package hmem => (hpackage package hmem).1⟩
  · have heffects : certificate.packageKeys.map
        (packageEffect (inventory.removeDeleted deleted)) =
        certificate.packageKeys.map (packageEffect inventory) :=
      map_congr_left fun package hmem => (hpackage package hmem).2
    simp only [Request.effect, certificateEffect, hfind, hfind', heffects]

theorem unaffected_compilerOutput {key : Sha256}
    (havailable : compilerOutputAvailable inventory key)
    (hkept : ∀ path ∈ (compilerOutputEffect inventory key).paths, path ∉ deleted) :
    Request.Unaffected inventory deleted (.compilerOutput key) := by
  obtain ⟨record, hfind, htype, hclosure⟩ := havailable
  simp only [mem_compilerOutputEffect hfind] at hkept
  have hfind' := artifactByKey_removeDeleted hfind (hkept _ (.inl rfl))
  constructor
  · refine ⟨record, hfind', htype, fun hcurrent artifact hartifact => ?_⟩
    exact (unaffected_artifact (hclosure hcurrent artifact hartifact)
      (hkept _ (.inr ⟨hcurrent, artifact, hartifact, rfl⟩))).1
  · simp only [Request.effect, compilerOutputEffect, hfind, hfind']

theorem Request.unaffected {request : Request} (havailable : request.Available inventory)
    (hkept : ∀ path ∈ (request.effect inventory).paths, path ∉ deleted) :
    request.Unaffected inventory deleted := by
  cases request with
  | artifact key =>
    exact unaffected_artifact havailable (hkept _ (mem_artifactEffect.mpr rfl))
  | package key => exact unaffected_package havailable hkept
  | certificate key => exact unaffected_certificate havailable hkept
  | compilerOutput key => exact unaffected_compilerOutput havailable hkept

section Replanning

variable {settings : Settings} {stats : StatsTable}
variable {request : Request}

theorem mem_dependencyRequests_of_removeDeleted
    (hrequest : request ∈ dependencyRequests (inventory.removeDeleted deleted)) :
    request ∈ dependencyRequests inventory := by
  simp only [dependencyRequests, mem_append, mem_flatMap,
    Inventory.mem_artifacts_removeDeleted, Inventory.mem_packages_removeDeleted,
    Inventory.removeDeleted_snapshots] at hrequest ⊢
  rcases hrequest with (((⟨record, hrecord, hrequest⟩ | ⟨record, hrecord, hrequest⟩) |
    ⟨record, hrecord, hrequest⟩) | ⟨record, hrecord, hrequest⟩) | hsnapshot
  · exact .inl (.inl (.inl (.inl ⟨record, hrecord.1, hrequest⟩)))
  · exact .inl (.inl (.inl (.inr ⟨record, hrecord.1, hrequest⟩)))
  · exact .inl (.inl (.inr ⟨record, hrecord.1, hrequest⟩))
  · exact .inl (.inr ⟨record, hrecord.1, hrequest⟩)
  · exact .inr hsnapshot

theorem mem_recentRequests_of_removeDeleted
    (hrequest : request ∈ recentRequests settings stats (inventory.removeDeleted deleted)) :
    request ∈ recentRequests settings stats inventory := by
  simp only [recentRequests, mem_append, mem_flatMap,
    Inventory.mem_certificates_removeDeleted,
    Inventory.mem_packages_removeDeleted] at hrequest ⊢
  rcases hrequest with ⟨root, hroot, hrequest⟩ | ⟨record, hrecord, hrequest⟩
  · exact .inl ⟨root, hroot.1, hrequest⟩
  · exact .inr ⟨record, hrecord.1, hrequest⟩

theorem retained_of_recentRequest {path : CachePath}
    (hrequest : request ∈ recentRequests settings stats inventory)
    (hpath : path ∈ (request.effect inventory).paths) :
    path ∈ (finalRetained settings stats inventory).paths := by
  apply retained_of_before
  simp only [retainedBeforeLayout, Retained.paths_add, mem_union, Retained.mem_paths_sum]
  exact .inl (.inr ⟨request, hrequest, hpath⟩)

theorem retained_of_layoutRequest {path : CachePath}
    (hrequest : request ∈ allLayoutRequests settings stats inventory)
    (hpath : path ∈ (request.effect inventory).paths) :
    path ∈ (finalRetained settings stats inventory).paths := by
  simp only [finalRetained, retainedAfterLayout, Retained.paths_add,
    mem_union, Retained.mem_paths_sum]
  exact .inl (.inr ⟨request, hrequest, hpath⟩)

/-- The removed positions avoid everything the plan retained. -/
def AvoidsRetained (settings : Settings) (stats : StatsTable)
    (inventory : Inventory) (deleted : List CachePath) : Prop :=
  ∀ path ∈ (finalRetained settings stats inventory).paths, path ∉ deleted

variable (hplannable : Plannable settings stats inventory)
variable (havoids : AvoidsRetained settings stats inventory deleted)

include hplannable havoids

theorem dependencyRequest_unaffected
    (hrequest : request ∈ dependencyRequests (inventory.removeDeleted deleted)) :
    request.Unaffected inventory deleted := by
  have hbefore := mem_dependencyRequests_of_removeDeleted hrequest
  exact Request.unaffected (hplannable.dependencies request hbefore)
    fun path hpath => havoids path (retained_of_dependencyRequest hbefore hpath)

theorem recentRequest_unaffected
    (hrequest : request ∈ recentRequests settings stats (inventory.removeDeleted deleted)) :
    request.Unaffected inventory deleted := by
  have hbefore := mem_recentRequests_of_removeDeleted hrequest
  exact Request.unaffected (hplannable.recent request hbefore)
    fun path hpath => havoids path (retained_of_recentRequest hbefore hpath)

/-- Less is live before the layout loop than before the removal. -/
theorem beforeLayout_artifactKeys_subset :
    (retainedBeforeLayout settings stats
      (inventory.removeDeleted deleted)).artifactKeys ⊆
        (retainedBeforeLayout settings stats inventory).artifactKeys := by
  intro key hkey
  simp only [retainedBeforeLayout, initialRetained, Retained.artifactKeys_add,
    mem_union, Retained.mem_artifactKeys_sum, mem_toFinset,
    Retained.artifactKeys_zero, notMem_empty, false_or, or_false]
    at hkey ⊢
  rcases hkey with (⟨request, hrequest, hkey⟩ | ⟨request, hrequest, hkey⟩) | hkey
  · rw [(dependencyRequest_unaffected hplannable havoids hrequest).2] at hkey
    exact .inl (.inl ⟨request, mem_dependencyRequests_of_removeDeleted hrequest, hkey⟩)
  · rw [(recentRequest_unaffected hplannable havoids hrequest).2] at hkey
    exact .inl (.inr ⟨request, mem_recentRequests_of_removeDeleted hrequest, hkey⟩)
  · obtain ⟨record, hrecord, hrecent⟩ := mem_recentArtifactKeys.mp hkey
    rw [Inventory.mem_artifacts_removeDeleted] at hrecord
    exact .inr (mem_recentArtifactKeys.mpr ⟨record, hrecord.1, hrecent⟩)

section

variable (hrequest : request ∈ allLayoutRequests settings stats (inventory.removeDeleted deleted))
include hrequest

theorem mem_allLayoutRequests_of_removeDeleted :
    request ∈ allLayoutRequests settings stats inventory := by
  obtain ⟨bundle, hbundle, hrequest⟩ := mem_flatMap.mp hrequest
  obtain ⟨htype, hlive, key, hreference, hpresent, rfl⟩ := mem_layoutRequests.mp hrequest
  rw [Inventory.mem_artifacts_removeDeleted] at hbundle
  have hpresent' : inventory.hasArtifactRecord key := by
    obtain ⟨record, hrecord, hkey⟩ := any_eq_true.mp hpresent
    rw [Inventory.mem_artifacts_removeDeleted] at hrecord
    exact any_eq_true.mpr ⟨record, hrecord.1, hkey⟩
  have hlive' := beforeLayout_artifactKeys_subset hplannable havoids hlive
  exact mem_flatMap.mpr ⟨bundle, hbundle.1, mem_layoutRequests.mpr
    ⟨htype, hlive', key, hreference, hpresent', rfl⟩⟩

theorem layoutRequest_unaffected : request.Unaffected inventory deleted := by
  have hbefore := mem_allLayoutRequests_of_removeDeleted hplannable havoids hrequest
  exact Request.unaffected (hplannable.layout request hbefore)
    fun path hpath => havoids path (retained_of_layoutRequest hbefore hpath)

end

theorem afterLayout_packageKeys_subset :
    (retainedAfterLayout settings stats
      (inventory.removeDeleted deleted)).packageKeys ⊆
        (retainedAfterLayout settings stats inventory).packageKeys := by
  intro key hkey
  simp only [retainedAfterLayout, retainedBeforeLayout, initialRetained,
    Retained.packageKeys_add, mem_union, Retained.mem_packageKeys_sum,
    Retained.packageKeys_zero, notMem_empty, false_or, or_false]
    at hkey ⊢
  rcases hkey with (⟨request, hrequest, hkey⟩ | ⟨request, hrequest, hkey⟩) |
    ⟨request, hrequest, hkey⟩
  · rw [(dependencyRequest_unaffected hplannable havoids hrequest).2] at hkey
    exact .inl (.inl ⟨request, mem_dependencyRequests_of_removeDeleted hrequest, hkey⟩)
  · rw [(recentRequest_unaffected hplannable havoids hrequest).2] at hkey
    exact .inl (.inr ⟨request, mem_recentRequests_of_removeDeleted hrequest, hkey⟩)
  · rw [(layoutRequest_unaffected hplannable havoids hrequest).2] at hkey
    exact .inr ⟨request, mem_allLayoutRequests_of_removeDeleted hplannable havoids hrequest, hkey⟩

/-- The next derivation succeeds when the removal avoided what the plan
retained. -/
theorem Plannable.removeDeleted : Plannable settings stats (inventory.removeDeleted deleted) where
  certificates_nodup := by
    rw [certificateKeys, Inventory.readableCertificates_removeDeleted]
    exact hplannable.certificates_nodup.sublist (filter_sublist.map _)
  dependencies request hrequest := (dependencyRequest_unaffected hplannable havoids hrequest).1
  none_corrupt := by
    have hcorrupt := hplannable.none_corrupt
    rw [corruptRecentRecord, List.find?_eq_none] at hcorrupt ⊢
    intro record hrecord
    exact hcorrupt record (Inventory.mem_objectRecords_removeDeleted.mp hrecord).1
  recent request hrequest := (recentRequest_unaffected hplannable havoids hrequest).1
  layout request hrequest := (layoutRequest_unaffected hplannable havoids hrequest).1
  bound := packageBound_of_subset
    (afterLayout_packageKeys_subset hplannable havoids) hplannable.bound

end Replanning

end ConvexWasm.Retention
