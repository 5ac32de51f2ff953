import ConvexWasm.Retention.Stability

/-!
# Candidates and selected evictions

A derivation succeeds exactly when the inventory is plannable.  Its candidates
are the evictable records, and its evictions are a prefix of them that is
nonempty under pressure.
-/

namespace ConvexWasm.Retention

open List

variable {settings : Settings} {stats : StatsTable} {inventory : Inventory}

theorem selectEvictions_initial (target total : ℕ) (candidates : List Candidate) :
    selectEvictions target total candidates <+: candidates := by
  induction candidates generalizing total with
  | nil => simp [selectEvictions]
  | cons candidate rest ih =>
    unfold selectEvictions
    split
    · simp
    · exact cons_prefix_cons.mpr ⟨rfl, ih _⟩

theorem selectEvictions_ne_nil {target total : ℕ} {candidates : List Candidate}
    (hcandidates : candidates ≠ []) : selectEvictions target total candidates ≠ [] := by
  cases candidates with
  | nil => exact absurd rfl hcandidates
  | cons candidate rest =>
    unfold selectEvictions
    split <;> simp

variable {retained : Retained} {candidates : List Candidate} {allocated : ℕ}

theorem planFrom_evictions_initial :
    (planFrom settings allocated retained candidates).evictions <+: candidates := by
  simp only [planFrom]
  split
  · exact selectEvictions_initial _ _ _
  · simp

theorem planFrom_evictions_ne_nil (hpressure : settings.highWatermarkAllocatedBytes < allocated)
    (hcandidates : candidates ≠ []) :
    (planFrom settings allocated retained candidates).evictions ≠ [] := by
  simp only [planFrom, if_pos hpressure]
  exact selectEvictions_ne_nil hcandidates

theorem mem_sortedCandidates {candidate : Candidate} :
    candidate ∈ sortedCandidates settings stats inventory retained ↔
      ∃ record ∈ inventory.objectRecords,
        evictable settings stats retained record ∧
          candidateOf stats record = candidate := by
  rw [sortedCandidates, mem_insertionSort]
  simp [and_assoc]

theorem length_sortedCandidates_le :
    (sortedCandidates settings stats inventory retained).length ≤
      inventory.objectRecords.length := by
  rw [sortedCandidates, length_insertionSort, length_map]
  exact length_filter_le _ _

section Outcome

variable (settings : Settings) (stats : StatsTable) (inventory : Inventory)

/-- The derivation of a plannable inventory. -/
def derivationOf (allocated : ℕ) : Derivation :=
  let retained := finalRetained settings stats inventory
  let candidates := sortedCandidates settings stats inventory retained
  { candidates := candidates
    plan := planFrom settings allocated retained candidates }

theorem derivationOf_length_evictions_le (allocated : ℕ) :
    (derivationOf settings stats inventory allocated).plan.evictions.length ≤
      inventory.objectRecords.length :=
  planFrom_evictions_initial.length_le.trans length_sortedCandidates_le

variable {settings stats inventory}

theorem deriveImmutablePlan_eq_ok_iff {allocated : ℕ} {derivation : Derivation} :
    deriveImmutablePlan settings stats inventory allocated = .ok derivation ↔
      Plannable settings stats inventory ∧
        derivation = derivationOf settings stats inventory allocated := by
  constructor
  · intro hderive
    obtain ⟨retained, hretained, hresult⟩ := Fallible.bind_eq_ok.mp hderive
    obtain ⟨hplannable, rfl⟩ := deriveRetained_sound hretained
    cases hresult
    exact ⟨hplannable, rfl⟩
  · rintro ⟨hplannable, rfl⟩
    rw [deriveImmutablePlan, deriveRetained_complete hplannable]
    rfl

/-- Every selected eviction is an evictable record of the inventory. -/
theorem exists_record_of_eviction {allocated : ℕ} {candidate : Candidate}
    (hcandidate : candidate ∈ (derivationOf settings stats inventory allocated).plan.evictions) :
    ∃ record ∈ inventory.objectRecords,
      evictable settings stats (finalRetained settings stats inventory) record ∧
        record.path = candidate.path := by
  obtain ⟨record, hrecord, hevictable, hcandidate⟩ :=
    mem_sortedCandidates.mp (planFrom_evictions_initial.subset hcandidate)
  exact ⟨record, hrecord, hevictable, by rw [← hcandidate]; rfl⟩

theorem avoidsRetained_evictions {allocated : ℕ} :
    AvoidsRetained settings stats inventory
      ((derivationOf settings stats inventory allocated).plan.evictions.map Candidate.path) := by
  intro path hpath hdeleted
  obtain ⟨candidate, hcandidate, rfl⟩ := mem_map.mp hdeleted
  obtain ⟨record, _, hevictable, hrecord⟩ := exists_record_of_eviction hcandidate
  rw [← hrecord] at hpath
  simp [evictable, hpath] at hevictable

end Outcome

variable {stats' : StatsTable}

theorem isRecent_congr (hmtime : ∀ path, (stats' path).mtimeMs = (stats path).mtimeMs) :
    isRecent settings stats' = isRecent settings stats := by
  funext record
  simp only [isRecent, hmtime]

theorem deriveRetained_congr (hrecent : isRecent settings stats' = isRecent settings stats) :
    deriveRetained settings stats' inventory =
      deriveRetained settings stats inventory := by
  have hcertificates : recentCertificateRequests settings stats' =
      recentCertificateRequests settings stats := by
    funext root
    simp only [recentCertificateRequests, hrecent]
  have hpaths : recentCertificatePaths settings stats' =
      recentCertificatePaths settings stats := by
    funext root
    simp only [recentCertificatePaths, hrecent]
  have hpackages : recentPackageRequests settings stats' =
      recentPackageRequests settings stats := by
    funext record
    simp only [recentPackageRequests, hrecent]
  have hartifacts : recentArtifactKeys settings stats' =
      recentArtifactKeys settings stats := by
    funext record
    simp only [recentArtifactKeys, hrecent]
  have hcorrupt : corruptRecentRecord settings stats' inventory =
      corruptRecentRecord settings stats inventory := by
    simp only [corruptRecentRecord, hrecent]
  simp only [deriveRetained, hcertificates, hpaths, hpackages, hartifacts, hcorrupt]

/-- Refreshed statistics that leave recency alone leave the retained sets
alone. -/
theorem Plannable.refresh (hplannable : Plannable settings stats inventory)
    (hrecent : isRecent settings stats' = isRecent settings stats) :
    Plannable settings stats' inventory ∧
      finalRetained settings stats' inventory =
        finalRetained settings stats inventory := by
  have hderive : deriveRetained settings stats' inventory =
      .ok (finalRetained settings stats inventory) := by
    rw [deriveRetained_congr hrecent]
    exact deriveRetained_complete hplannable
  obtain ⟨hplannable', heq⟩ := deriveRetained_sound hderive
  exact ⟨hplannable', heq.symm⟩

/-- A refresh may reorder the candidates but does not add or drop any. -/
theorem sortedCandidates_eq_nil_iff {retained : Retained}
    (hrecent : isRecent settings stats' = isRecent settings stats) :
    sortedCandidates settings stats' inventory retained = [] ↔
      sortedCandidates settings stats inventory retained = [] := by
  have hlength : (sortedCandidates settings stats' inventory retained).length =
      (sortedCandidates settings stats inventory retained).length := by
    have hevictable : evictable settings stats' retained =
        evictable settings stats retained := by
      funext record
      simp only [evictable, hrecent]
    simp [sortedCandidates, hevictable]
  rw [← length_eq_zero_iff, hlength, length_eq_zero_iff]

end ConvexWasm.Retention
