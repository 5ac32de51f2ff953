import ConvexWasm.Core.Fallible
import ConvexWasm.Retention.Pinning

/-!
# The outcome of the pinning phase

`deriveRetained` succeeds exactly when certificate keys are unique, no recent
record is corrupt, every request its loops make is available and the package
bound holds; the retained sets are then the union of what the loops add.
-/

namespace ConvexWasm.Retention

open ConvexWasm.Fallible ConvexWasm.GuardedAccumulation List

theorem firstDuplicate_eq_none {keys seen : List Sha256} :
    firstDuplicate seen keys = none ↔
      keys.Nodup ∧ ∀ key ∈ keys, key ∉ seen := by
  induction keys generalizing seen with
  | nil => simp [firstDuplicate]
  | cons key rest ih =>
    by_cases hseen : key ∈ seen
    · simp [firstDuplicate, hseen]
    · simp only [firstDuplicate, if_neg hseen, ih, nodup_cons, mem_cons, forall_eq_or_imp, not_or]
      constructor
      · rintro ⟨hnodup, hrest⟩
        refine ⟨⟨?_, hnodup⟩, hseen, fun later hlater => (hrest later hlater).2⟩
        intro hmem
        exact (hrest key hmem).1 rfl
      · rintro ⟨⟨hkey, hnodup⟩, _, hrest⟩
        refine ⟨hnodup, fun later hlater => ⟨?_, hrest later hlater⟩⟩
        rintro rfl
        exact hkey hlater

variable {settings : Settings} {inventory : Inventory}

section Layout

variable {start total total' : Retained}

/-- Both totals keep the same bundles that refer to layout entries. -/
def AgreesOnBundles (inventory : Inventory) (start total : Retained) : Prop :=
  ∀ record ∈ inventory.artifacts, record.layoutReferences ≠ [] →
    (record.cacheKey ∈ total.artifactKeys ↔ record.cacheKey ∈ start.artifactKeys)

theorem layoutRequests_eq_of_agrees (hagrees : AgreesOnBundles inventory start total)
    {record : ArtifactRecord} (hrecord : record ∈ inventory.artifacts) :
    layoutRequests inventory total record =
      layoutRequests inventory start record := by
  by_cases hlayout : record.layoutReferences = []
  · simp [layoutRequests, hlayout]
  · simp only [layoutRequests, hagrees record hrecord hlayout]

theorem mem_layoutRequests {record : ArtifactRecord} {request : Request} :
    request ∈ layoutRequests inventory total record ↔
      record.type = .cBundle ∧ record.cacheKey ∈ total.artifactKeys ∧
        ∃ key ∈ record.layoutReferences,
          inventory.hasArtifactRecord key ∧ request = .artifact key := by
  unfold layoutRequests
  split
  · rename_i hlive
    simp only [hlive, true_and, mem_map, mem_filter]
    constructor
    · rintro ⟨key, ⟨hkey, hpresent⟩, rfl⟩
      exact ⟨key, hkey, hpresent, rfl⟩
    · rintro ⟨key, hkey, hpresent, rfl⟩
      exact ⟨key, ⟨hkey, hpresent⟩, rfl⟩
  · rename_i hdead
    simp only [not_mem_nil, false_iff]
    rintro ⟨htype, hlive, _⟩
    exact hdead ⟨htype, hlive⟩

/-- Layout entries refer to no further layout entries, so retaining those of
one bundle does not change which bundles are live. -/
theorem agreesOnBundles_of_layout {record : ArtifactRecord} (hrecord : record ∈ inventory.artifacts)
    (hagrees : AgreesOnBundles inventory start total) (htotal : total' = total +
      ((layoutRequests inventory start record).map (Request.effect inventory)).sum) :
    AgreesOnBundles inventory start total' := by
  intro bundle hbundle hlayout
  rw [← hagrees bundle hbundle hlayout, htotal]
  simp only [Retained.artifactKeys_add, Finset.mem_union, or_iff_left_iff_imp,
    Retained.mem_artifactKeys_sum]
  rintro ⟨request, hrequest, hkey⟩
  obtain ⟨_, _, key, hreference, _, rfl⟩ := mem_layoutRequests.mp hrequest
  have hself : bundle.cacheKey = key := by
    simpa [Request.effect, artifactEffect] using hkey
  exact absurd
    (inventory.layout_shallow record hrecord key hreference bundle hbundle hself)
    hlayout

theorem foldlM_retainLayout {records : List ArtifactRecord}
    (hrecords : ∀ record ∈ records, record ∈ inventory.artifacts)
    (hagrees : AgreesOnBundles inventory start total) :
    records.foldlM (retainLayout settings inventory) total =
      retainAll settings inventory total
        (records.flatMap (layoutRequests inventory start)) := by
  induction records generalizing total with
  | nil => rfl
  | cons record rest ih =>
    have hrecord := hrecords record (by simp)
    rw [foldlM_cons, flatMap_cons, retainAll, foldlM_append,
      retainLayout, layoutRequests_eq_of_agrees hagrees hrecord, retainAll]
    cases hfirst : (layoutRequests inventory start record).foldlM
        (retain settings inventory) total with
    | error failure => rfl
    | ok next =>
      have hnext := (guarded_retain.foldlM_sound hfirst).2.1
      exact ih (fun later hlater => hrecords later (by simp [hlater]))
        (agreesOnBundles_of_layout hrecord hagrees hnext)

end Layout

section Outcome

variable (settings : Settings) (stats : StatsTable) (inventory : Inventory)

/-- The retained sets before any request. -/
def initialRetained : Retained :=
  { (0 : Retained) with
    paths := (inventory.snapshots.map fun snapshot =>
      CachePath.snapshot snapshot.name).toFinset ∪ (openablePackagePaths inventory).toFinset }

/-- The requests for recent records. -/
def recentRequests : List Request :=
  inventory.certificates.flatMap (recentCertificateRequests settings stats) ++
    inventory.packages.flatMap (recentPackageRequests settings stats)

/-- What the loops before the layout loop retain. -/
def retainedBeforeLayout : Retained :=
  initialRetained inventory +
    ((dependencyRequests inventory).map (Request.effect inventory)).sum +
    { (0 : Retained) with
      paths := (inventory.certificates.flatMap (recentCertificatePaths settings stats)).toFinset } +
    ((recentRequests settings stats inventory).map (Request.effect inventory)).sum +
    { (0 : Retained) with
      artifactKeys := (inventory.artifacts.flatMap (recentArtifactKeys settings stats)).toFinset }

def allLayoutRequests : List Request :=
  inventory.artifacts.flatMap
    (layoutRequests inventory (retainedBeforeLayout settings stats inventory))

def retainedAfterLayout : Retained :=
  retainedBeforeLayout settings stats inventory +
    ((allLayoutRequests settings stats inventory).map (Request.effect inventory)).sum

/-- The retained sets of a successful pinning phase. -/
def finalRetained : Retained :=
  let retained := retainedAfterLayout settings stats inventory
  retained +
    { (0 : Retained) with
      paths := ((inventory.artifacts.filter fun record =>
        record.cacheKey ∈ retained.artifactKeys).map ArtifactRecord.path).toFinset }

/-- The exact condition under which the pinning phase succeeds. -/
structure Plannable : Prop where
  certificates_nodup : (certificateKeys inventory).Nodup
  dependencies : ∀ request ∈ dependencyRequests inventory, request.Available inventory
  none_corrupt : corruptRecentRecord settings stats inventory = none
  recent : ∀ request ∈ recentRequests settings stats inventory, request.Available inventory
  layout : ∀ request ∈ allLayoutRequests settings stats inventory, request.Available inventory
  bound : packageBound settings (retainedAfterLayout settings stats inventory)

end Outcome

section Derivation

variable {stats : StatsTable}

theorem packageBound_of_subset {part whole : Retained}
    (hsubset : part.packageKeys ⊆ whole.packageKeys)
    (hbound : packageBound settings whole) : packageBound settings part :=
  le_trans (Finset.card_le_card hsubset) hbound

theorem retainAll_append (total : Retained) (first second : List Request) :
    retainAll settings inventory total (first ++ second) =
      retainAll settings inventory total first >>= fun next =>
        retainAll settings inventory next second := by
  simp [retainAll]

theorem withPaths_eq_add (retained : Retained) (paths : Finset CachePath) :
    { retained with paths := retained.paths ∪ paths } =
      retained + { (0 : Retained) with paths := paths } := by
  ext <;> simp

theorem withArtifactKeys_eq_add (retained : Retained) (keys : Finset ArtifactKey) :
    { retained with artifactKeys := retained.artifactKeys ∪ keys } =
      retained + { (0 : Retained) with artifactKeys := keys } := by
  ext <;> simp

theorem foldlM_retainLayout_all :
    inventory.artifacts.foldlM (retainLayout settings inventory)
        (retainedBeforeLayout settings stats inventory) =
      retainAll settings inventory (retainedBeforeLayout settings stats inventory)
        (allLayoutRequests settings stats inventory) :=
  foldlM_retainLayout (fun _ hrecord => hrecord) fun _ _ _ => Iff.rfl

/-- The phases of the pinning phase, with the two loops over recent records
joined. -/
theorem deriveRetained_eq (hduplicate :
      firstDuplicate [] (certificateKeys inventory) = none)
    (hcorrupt : corruptRecentRecord settings stats inventory = none) :
    deriveRetained settings stats inventory =
      (retainAll settings inventory (initialRetained inventory)
        (dependencyRequests inventory) >>= fun pinned =>
      retainAll settings inventory
        (pinned + { (0 : Retained) with
          paths := (inventory.certificates.flatMap
            (recentCertificatePaths settings stats)).toFinset })
        (recentRequests settings stats inventory) >>= fun recent =>
      inventory.artifacts.foldlM (retainLayout settings inventory)
        (recent + { (0 : Retained) with
          artifactKeys := (inventory.artifacts.flatMap
            (recentArtifactKeys settings stats)).toFinset }) >>= fun live =>
      .ok (live + { (0 : Retained) with
        paths := ((inventory.artifacts.filter fun record =>
          record.cacheKey ∈ live.artifactKeys).map
            ArtifactRecord.path).toFinset })) := by
  simp only [deriveRetained, hduplicate, hcorrupt, recentRequests,
    retainAll_append, bind_assoc, ← withPaths_eq_add, ← withArtifactKeys_eq_add]
  rfl

theorem deriveRetained_sound {retained : Retained}
    (hderive : deriveRetained settings stats inventory = .ok retained) :
    Plannable settings stats inventory ∧
      retained = finalRetained settings stats inventory := by
  cases hduplicate : firstDuplicate [] (certificateKeys inventory) with
  | some key =>
    simp only [deriveRetained, hduplicate] at hderive
    cases hderive
  | none =>
    cases hcorrupt : corruptRecentRecord settings stats inventory with
    | some record =>
      simp only [deriveRetained, hduplicate, hcorrupt] at hderive
      obtain ⟨_, _, hfail⟩ := bind_eq_ok.mp hderive
      cases hfail
    | none =>
      rw [deriveRetained_eq hduplicate hcorrupt] at hderive
      obtain ⟨pinned, hpinned, hderive⟩ := bind_eq_ok.mp hderive
      obtain ⟨recent, hrecent, hderive⟩ := bind_eq_ok.mp hderive
      obtain ⟨live, hlive, hresult⟩ := bind_eq_ok.mp hderive
      obtain ⟨hdependencies, rfl, hbound⟩ := guarded_retain.foldlM_sound hpinned
      obtain ⟨hrecents, rfl, hbound'⟩ := guarded_retain.foldlM_sound hrecent
      have hlayout := hlive
      change inventory.artifacts.foldlM (retainLayout settings inventory)
        (retainedBeforeLayout settings stats inventory) = _ at hlayout
      rw [foldlM_retainLayout_all] at hlayout
      obtain ⟨hlayouts, rfl, hbound''⟩ := guarded_retain.foldlM_sound hlayout
      have hempty : packageBound settings (initialRetained inventory) := Nat.zero_le _
      refine ⟨⟨(firstDuplicate_eq_none.mp hduplicate).1, hdependencies,
        hcorrupt, hrecents, hlayouts, ?_⟩, ?_⟩
      · apply hbound''
        apply packageBound_of_subset _ (hbound' (packageBound_of_subset _ (hbound hempty)))
        · simp [retainedBeforeLayout]
        · simp
      · cases hresult
        rfl

theorem deriveRetained_complete (hplannable : Plannable settings stats inventory) :
    deriveRetained settings stats inventory =
      .ok (finalRetained settings stats inventory) := by
  have hduplicate : firstDuplicate [] (certificateKeys inventory) = none :=
    firstDuplicate_eq_none.mpr ⟨hplannable.certificates_nodup, by simp⟩
  have hbefore : packageBound settings
      (retainedBeforeLayout settings stats inventory) :=
    packageBound_of_add _ _ hplannable.bound
  have hrecent := packageBound_of_add _ _ hbefore
  have hpinned := packageBound_of_add _ _ (packageBound_of_add _ _ hrecent)
  have hlayout : inventory.artifacts.foldlM (retainLayout settings inventory)
      (retainedBeforeLayout settings stats inventory) =
      .ok (retainedAfterLayout settings stats inventory) := by
    rw [foldlM_retainLayout_all]
    exact guarded_retain.foldlM_complete hplannable.layout hplannable.bound
  rw [deriveRetained_eq hduplicate hplannable.none_corrupt]
  refine bind_eq_ok.mpr ⟨_, guarded_retain.foldlM_complete hplannable.dependencies hpinned, ?_⟩
  refine bind_eq_ok.mpr ⟨_, guarded_retain.foldlM_complete hplannable.recent hrecent, ?_⟩
  exact bind_eq_ok.mpr ⟨_, hlayout, rfl⟩

end Derivation

end ConvexWasm.Retention
