import ConvexWasm.Core.TransitionSystem
import ConvexWasm.Retention.Selection

/-!
# The maintenance loop

`maintainConvexWasmImmutableGc` alternates planning and sweeping.  The model
follows the loop one effect at a time: deciding whether to go on, refreshing
the candidates of a later wave, moving one selected root out of the cache, and
closing a wave with a new measurement.  Every reachable state is a point at
which the process may stop.
-/

namespace ConvexWasm.Retention

open ConvexWasm.DependencySweep ConvexWasm.TransitionSystem List

inductive Phase
  | deciding (derivation : Derivation)
  | sweeping (plan : Plan) (pending : List Candidate)
  | finished (derivation : Derivation)
  | failed (message : String)

/-- The loop's variables and the positions that hold a record on disk. -/
structure MaintenanceState where
  inventory : Inventory
  stats : StatsTable
  disk : List CachePath
  remainingAllocatedBytes : ℕ
  waves : ℕ
  phase : Phase

/-- The phase after `derive()`. -/
def afterDerive : Except String Derivation → Phase
  | .ok derivation => .deciding derivation
  | .error message => .failed message

/-- The phase of a later wave after its candidates were refreshed and the plan
derived again. -/
def afterRefresh : Except String Derivation → Phase
  | .ok derivation => .sweeping derivation.plan derivation.plan.evictions
  | .error message => .failed message

/-- What a refresh may change: only candidates are measured again, and the
inventory fence rejects any change of times or allocated blocks.  Unlinked
shared files still move reclaim estimates and physical identities. -/
structure Refreshed (candidates : List Candidate) (stats stats' : StatsTable) : Prop where
  only_candidates : ∀ path, path ∉ candidates.map Candidate.path → stats' path = stats path
  mtimeMs_eq : ∀ path, (stats' path).mtimeMs = (stats path).mtimeMs
  allocatedBytes_eq : ∀ path, (stats' path).allocatedBytes = (stats path).allocatedBytes

section Loop

variable (settings : Settings)

/-- Whether the loop goes on to another wave. -/
def underPressure (state : MaintenanceState) (derivation : Derivation) : Prop :=
  settings.highWatermarkAllocatedBytes < state.remainingAllocatedBytes ∧ derivation.candidates ≠ []

/-- One effect of the loop. -/
inductive Step : MaintenanceState → MaintenanceState → Prop
  | finish {state : MaintenanceState} {derivation : Derivation} :
      state.phase = .deciding derivation →
      ¬ underPressure settings state derivation →
        Step state { state with phase := .finished derivation }
  | firstWave {state : MaintenanceState} {derivation : Derivation} :
      state.phase = .deciding derivation →
      underPressure settings state derivation → state.waves = 0 →
        Step state { state with
          phase := .sweeping derivation.plan derivation.plan.evictions }
  | laterWave {state : MaintenanceState} {derivation : Derivation}
      {stats' : StatsTable} :
      state.phase = .deciding derivation →
      underPressure settings state derivation → state.waves ≠ 0 →
      Refreshed derivation.candidates state.stats stats' →
        Step state { state with
          stats := stats'
          phase := afterRefresh (deriveImmutablePlan settings stats'
            state.inventory state.remainingAllocatedBytes) }
  | remove {state : MaintenanceState} {plan : Plan} {candidate : Candidate}
      {pending : List Candidate} :
      state.phase = .sweeping plan (candidate :: pending) →
        Step state { state with
          disk := state.disk.filter (· ≠ candidate.path)
          phase := .sweeping plan pending }
  | closeWave {state : MaintenanceState} {plan : Plan} (measured : ℕ) :
      state.phase = .sweeping plan [] →
        Step state { state with
          inventory := state.inventory.removeDeleted (plan.evictions.map Candidate.path)
          remainingAllocatedBytes := measured
          waves := state.waves + 1
          phase := afterDerive (deriveImmutablePlan settings state.stats
            (state.inventory.removeDeleted (plan.evictions.map Candidate.path))
            measured) }

/-- The loop is entered after the first derivation succeeded, with every
inventoried record on disk. -/
structure Initial (stats : StatsTable) (inventory : Inventory)
    (state : MaintenanceState) : Prop where
  inventory_eq : state.inventory = inventory
  stats_eq : state.stats = stats
  disk_eq : state.disk = inventory.objectPaths
  waves_eq : state.waves = 0
  derived : ∃ derivation,
    deriveImmutablePlan settings stats inventory
      state.remainingAllocatedBytes = .ok derivation ∧ state.phase = .deciding derivation

/-- The states of a maintenance run over an inventory. -/
def MaintenanceReachable (stats : StatsTable) (inventory : Inventory) : MaintenanceState → Prop :=
  Reachable (Initial settings stats inventory) (Step settings)

end Loop

/-- The evictions the current plan selects. -/
def MaintenanceState.selection (state : MaintenanceState) : List Candidate :=
  match state.phase with
  | .deciding derivation => derivation.plan.evictions
  | .sweeping plan _ => plan.evictions
  | .finished derivation => derivation.plan.evictions
  | .failed _ => []

/-- The records of the initial inventory that are still on disk. -/
def MaintenanceState.survivors (state : MaintenanceState)
    (inventory : Inventory) : Set ObjectRecord :=
  { record | record ∈ inventory.objectRecords ∧ record.path ∈ state.disk }

section Invariant

variable (settings : Settings)

/-- What each phase knows about its plan and the disk. -/
def PhaseInvariant (state : MaintenanceState) : Phase → Prop
  | .deciding derivation =>
    state.disk = state.inventory.objectPaths ∧
      derivation = derivationOf settings state.stats state.inventory state.remainingAllocatedBytes
  | .sweeping plan pending =>
    plan = (derivationOf settings state.stats state.inventory state.remainingAllocatedBytes).plan ∧
    plan.evictions ≠ [] ∧
    ∃ removed, plan.evictions = removed ++ pending ∧
      state.disk = (state.inventory.removeDeleted (removed.map Candidate.path)).objectPaths
  | .finished derivation =>
    state.disk = state.inventory.objectPaths ∧
      derivation = derivationOf settings state.stats state.inventory state.remainingAllocatedBytes ∧
      ¬ underPressure settings state derivation
  | .failed _ => False

/-- The invariant of the loop, relative to the inventory it started from. -/
structure MaintenanceInvariant (stats : StatsTable) (inventory : Inventory)
    (state : MaintenanceState) : Prop where
  snapshots_eq : state.inventory.snapshots = inventory.snapshots
  recent_eq : isRecent settings state.stats = isRecent settings stats
  plannable : Plannable settings state.stats state.inventory
  swept : Swept (dependencyGraph settings stats inventory.snapshots)
    inventory.present state.inventory.present
  phase : PhaseInvariant settings state state.phase

end Invariant

variable {settings : Settings} {stats : StatsTable} {inventory : Inventory}

section Waves

variable (allocated : ℕ)

section

variable (hplannable : Plannable settings stats inventory)
include hplannable

/-- Any part of a plan's evictions is a wave of the dependency graph. -/
theorem wave_of_evictions {removed : List Candidate} (hremoved : ∀ candidate ∈ removed, candidate ∈
      (derivationOf settings stats inventory allocated).plan.evictions) :
    Wave (dependencyGraph settings stats inventory.snapshots) inventory.present
      (inventory.removeDeleted (removed.map Candidate.path)).present where
  subset record hrecord := (Inventory.mem_objectRecords_removeDeleted.mp hrecord).1
  keeps record hrecord hkept := by
    refine Inventory.mem_objectRecords_removeDeleted.mpr ⟨hrecord, ?_⟩
    intro hdeleted
    obtain ⟨candidate, hcandidate, hpath⟩ := mem_map.mp hdeleted
    obtain ⟨evicted, hevicted, hevictable, hevictedPath⟩ :=
      exists_record_of_eviction (hremoved candidate hcandidate)
    have heq : evicted = record :=
      inventory.record_eq_of_path hevicted hrecord (hevictedPath.trans hpath)
    rw [heq] at hevictable
    exact (evictable_iff hplannable hrecord).mp hevictable hkept

theorem plannable_of_evictions :
    Plannable settings stats (inventory.removeDeleted
      ((derivationOf settings stats inventory allocated).plan.evictions.map Candidate.path)) :=
  hplannable.removeDeleted avoidsRetained_evictions

theorem deriveImmutablePlan_of_plannable :
    deriveImmutablePlan settings stats inventory allocated =
      .ok (derivationOf settings stats inventory allocated) :=
  deriveImmutablePlan_eq_ok_iff.mpr ⟨hplannable, rfl⟩

end

/-- A wave that evicts anything makes the inventory smaller. -/
theorem length_removeDeleted_lt
    (hevictions : (derivationOf settings stats inventory allocated).plan.evictions ≠ []) :
    (inventory.removeDeleted
      ((derivationOf settings stats inventory allocated).plan.evictions.map
        Candidate.path)).objectRecords.length < inventory.objectRecords.length := by
  obtain ⟨candidate, hcandidate⟩ := exists_mem_of_ne_nil _ hevictions
  obtain ⟨record, hrecord, _, hpath⟩ := exists_record_of_eviction hcandidate
  rw [Inventory.objectRecords_removeDeleted]
  refine length_filter_lt_length_iff_exists.mpr ⟨record, hrecord, ?_⟩
  have hdeleted : record.path ∈
      (derivationOf settings stats inventory allocated).plan.evictions.map
        Candidate.path := mem_map.mpr ⟨candidate, hcandidate, hpath.symm⟩
  simp [hdeleted]

end Waves

variable {state state' : MaintenanceState}

theorem MaintenanceInvariant.graph_eq (hinv : MaintenanceInvariant settings stats inventory state) :
    dependencyGraph settings state.stats state.inventory.snapshots =
      dependencyGraph settings stats inventory.snapshots := by
  have hroot : ProtectedRoot settings state.stats state.inventory.snapshots =
      ProtectedRoot settings stats inventory.snapshots := by
    funext record
    simp only [ProtectedRoot, hinv.recent_eq, hinv.snapshots_eq]
  simp only [dependencyGraph, hroot]

theorem MaintenanceInvariant.initial (hinitial : Initial settings stats inventory state) :
    MaintenanceInvariant settings stats inventory state := by
  obtain ⟨rfl, rfl, hdisk, _, derivation, hderive, hphase⟩ := hinitial
  obtain ⟨hplannable, hderivation⟩ := deriveImmutablePlan_eq_ok_iff.mp hderive
  refine ⟨rfl, rfl, hplannable, .refl _, ?_⟩
  rw [hphase]
  exact ⟨hdisk, hderivation⟩

/-- Starting a wave keeps the disk and selects something. -/
theorem phaseInvariant_sweeping (state : MaintenanceState)
    (hdisk : state.disk = state.inventory.objectPaths)
    (hpressure : settings.highWatermarkAllocatedBytes < state.remainingAllocatedBytes)
    (hcandidates : (derivationOf settings state.stats state.inventory
      state.remainingAllocatedBytes).candidates ≠ []) :
    PhaseInvariant settings state (.sweeping
      (derivationOf settings state.stats state.inventory state.remainingAllocatedBytes).plan
      (derivationOf settings state.stats state.inventory
        state.remainingAllocatedBytes).plan.evictions) := by
  refine ⟨rfl, planFrom_evictions_ne_nil hpressure hcandidates, [], rfl, ?_⟩
  rw [hdisk, map_nil, Inventory.objectPaths_removeDeleted]
  simp

/-- One effect of the loop preserves the invariant. -/
theorem MaintenanceInvariant.step (hinv : MaintenanceInvariant settings stats inventory state)
    (hstep : Step settings state state') :
    MaintenanceInvariant settings stats inventory state' := by
  have hphaseInv := hinv.phase
  cases hstep with
  | finish hphase hdone =>
    rw [hphase] at hphaseInv
    obtain ⟨hdisk, rfl⟩ := hphaseInv
    exact { hinv with phase := ⟨hdisk, rfl, hdone⟩ }
  | firstWave hphase hpressure _ =>
    rw [hphase] at hphaseInv
    obtain ⟨hdisk, rfl⟩ := hphaseInv
    exact { hinv with
      phase := phaseInvariant_sweeping _ hdisk hpressure.1 hpressure.2 }
  | @laterWave _ stats' hphase hpressure _ hrefresh =>
    rw [hphase] at hphaseInv
    obtain ⟨hdisk, rfl⟩ := hphaseInv
    have hrecent : isRecent settings stats' = isRecent settings state.stats :=
      isRecent_congr hrefresh.mtimeMs_eq
    obtain ⟨hplannable, hretained⟩ := hinv.plannable.refresh hrecent
    refine ⟨hinv.snapshots_eq, hrecent.trans hinv.recent_eq, hplannable, hinv.swept, ?_⟩
    have hcandidates : (derivationOf settings stats' state.inventory
        state.remainingAllocatedBytes).candidates ≠ [] := by
      intro hempty
      apply hpressure.2
      simp only [derivationOf, hretained] at hempty ⊢
      exact (sortedCandidates_eq_nil_iff hrecent).mp hempty
    simp only [deriveImmutablePlan_of_plannable _ hplannable, afterRefresh]
    exact phaseInvariant_sweeping { state with stats := stats', phase := _ }
      hdisk hpressure.1 hcandidates
  | @remove plan candidate pending hphase =>
    rw [hphase] at hphaseInv
    obtain ⟨hplan, hevictions, removed, hremoved, hdisk⟩ := hphaseInv
    refine { hinv with phase := ⟨hplan, hevictions, removed ++ [candidate], ?_, ?_⟩ }
    · rw [hremoved, append_assoc, singleton_append]
    · simp only [hdisk, Inventory.objectPaths_removeDeleted, filter_filter]
      refine filter_congr fun path _ => ?_
      rw [Bool.eq_iff_iff]
      simp [and_comm]
  | closeWave measured hphase =>
    rw [hphase] at hphaseInv
    obtain ⟨rfl, _, removed, hremoved, hdisk⟩ := hphaseInv
    rw [List.append_nil] at hremoved
    have hwave := wave_of_evictions state.remainingAllocatedBytes
      hinv.plannable fun _ hcandidate => hcandidate
    have hplannable := plannable_of_evictions state.remainingAllocatedBytes hinv.plannable
    rw [hinv.graph_eq] at hwave
    refine ⟨hinv.snapshots_eq, hinv.recent_eq, hplannable, hinv.swept.wave hwave, ?_⟩
    rw [deriveImmutablePlan_of_plannable _ hplannable]
    refine ⟨?_, rfl⟩
    rw [hdisk, ← hremoved]

theorem MaintenanceInvariant.of_reachable
    (hreachable : MaintenanceReachable settings stats inventory state) :
    MaintenanceInvariant settings stats inventory state :=
  Reachable.invariant (fun _ => .initial) (fun _ _ => .step) hreachable

section Survivors

theorem survivors_eq_present {current : Inventory} (hsubset : current.present ⊆ inventory.present)
    (hdisk : state.disk = current.objectPaths) : state.survivors inventory = current.present := by
  ext record
  simp only [MaintenanceState.survivors, Set.mem_ofPred_eq, hdisk]
  constructor
  · rintro ⟨hrecord, hpath⟩
    obtain ⟨other, hother, heq⟩ := mem_map.mp hpath
    rwa [← inventory.record_eq_of_path (hsubset hother) hrecord heq]
  · intro hrecord
    exact ⟨hsubset hrecord, mem_map_of_mem hrecord⟩

variable (hinv : MaintenanceInvariant settings stats inventory state)
include hinv

/-- At every point of a run, also inside a wave, the records on disk are a
sweep of the initial inventory. -/
theorem MaintenanceInvariant.survivors_swept :
    Swept (dependencyGraph settings stats inventory.snapshots) inventory.present
      (state.survivors inventory) := by
  have hphaseInv := hinv.phase
  cases hphase : state.phase with
  | deciding derivation =>
    rw [hphase] at hphaseInv
    rw [survivors_eq_present hinv.swept.subset hphaseInv.1]
    exact hinv.swept
  | finished derivation =>
    rw [hphase] at hphaseInv
    rw [survivors_eq_present hinv.swept.subset hphaseInv.1]
    exact hinv.swept
  | sweeping plan pending =>
    rw [hphase] at hphaseInv
    obtain ⟨rfl, _, removed, hremoved, hdisk⟩ := hphaseInv
    have hwave := wave_of_evictions state.remainingAllocatedBytes
      hinv.plannable fun _ hcandidate =>
        hremoved ▸ mem_append_left pending hcandidate
    rw [hinv.graph_eq] at hwave
    have hswept := hinv.swept.wave hwave
    rwa [survivors_eq_present hswept.subset hdisk]
  | failed message =>
    rw [hphase] at hphaseInv
    exact hphaseInv.elim

/-- A selected eviction is a present record without a reason to keep it. -/
theorem MaintenanceInvariant.not_kept_of_selected {candidate : Candidate}
    (hselected : candidate ∈ state.selection) {record : ObjectRecord}
    (hrecord : record ∈ inventory.objectRecords) (hpath : record.path = candidate.path) :
    record ∈ state.inventory.present ∧
      ¬ Kept (dependencyGraph settings stats inventory.snapshots)
        state.inventory.present record := by
  have hphaseInv := hinv.phase
  have heviction : candidate ∈ (derivationOf settings state.stats state.inventory
      state.remainingAllocatedBytes).plan.evictions := by
    unfold MaintenanceState.selection at hselected
    cases hphase : state.phase with
    | deciding derivation =>
      rw [hphase] at hphaseInv hselected
      rwa [← hphaseInv.2]
    | sweeping plan pending =>
      rw [hphase] at hphaseInv hselected
      rwa [← hphaseInv.1]
    | finished derivation =>
      rw [hphase] at hphaseInv hselected
      rwa [← hphaseInv.2.1]
    | failed message =>
      rw [hphase] at hphaseInv
      exact hphaseInv.elim
  obtain ⟨evicted, hevicted, hevictable, hevictedPath⟩ := exists_record_of_eviction heviction
  have heq : evicted = record := inventory.record_eq_of_path
    (hinv.swept.subset hevicted) hrecord (hevictedPath.trans hpath.symm)
  rw [← heq]
  refine ⟨hevicted, ?_⟩
  rw [← hinv.graph_eq]
  exact (evictable_iff hinv.plannable hevicted).mp hevictable

end Survivors

def sampleRoot : CertificateRoot :=
  ⟨"r", .authenticated, some [⟨"c", true, ["p"]⟩]⟩

def samplePackage : PackageRecord := ⟨"p", .authenticated, [⟨"wasm", "a"⟩]⟩

def sampleArtifact : ArtifactRecord :=
  ⟨"wasm", "a", .artifact, .authenticated, none, [], none, false, none, []⟩

/-- An old certificate root, its package and the package's artifact. -/
def sampleInventory : Inventory where
  snapshots := []
  packages := [samplePackage]
  artifacts := [sampleArtifact]
  certificates := [sampleRoot]
  packages_nodup := by decide
  artifacts_nodup := by decide
  certificates_nodup := by decide
  layout_shallow := by decide

def sampleSettings : Settings := ⟨0, 8, 10, 0⟩

def sampleStats : StatsTable := fun _ => ⟨1, 1, 0, "t"⟩

def sampleStart : MaintenanceState where
  inventory := sampleInventory
  stats := sampleStats
  disk := sampleInventory.objectPaths
  remainingAllocatedBytes := 3
  waves := 0
  phase := .deciding (derivationOf sampleSettings sampleStats sampleInventory 3)

def samplePlan : Plan := (derivationOf sampleSettings sampleStats sampleInventory 3).plan

def sampleCandidate : Candidate := candidateOf sampleStats (.certificate sampleRoot)

/-- The first wave has selected the certificate root. -/
def sampleSelected : MaintenanceState :=
  { sampleStart with phase := .sweeping samplePlan [sampleCandidate] }

/-- The first wave has moved the certificate root away and stops there. -/
def sampleInterrupted : MaintenanceState :=
  { sampleStart with
    disk := sampleStart.disk.filter (· ≠ sampleCandidate.path)
    phase := .sweeping samplePlan [] }

theorem sampleStart_reachable :
    MaintenanceReachable sampleSettings sampleStats sampleInventory sampleStart :=
  .start ⟨rfl, rfl, rfl, rfl, _, rfl, rfl⟩

theorem sampleInterrupted_reachable :
    MaintenanceReachable sampleSettings sampleStats sampleInventory
      sampleInterrupted := by
  have hselect : Step sampleSettings sampleStart sampleSelected :=
    .firstWave rfl ⟨by decide, by decide⟩ rfl
  have hremove : Step sampleSettings sampleSelected sampleInterrupted := .remove rfl
  exact (sampleStart_reachable.next hselect).next hremove

/-- No survivor has lost a strict dependency that was present at the start, at
any point of any run. -/
theorem maintenance_keeps_strict_dependencies
    (hreachable : MaintenanceReachable settings stats inventory state)
    {source target : ObjectRecord} (hsource : source ∈ inventory.objectRecords)
    (hsurvives : source.path ∈ state.disk) (htarget : target ∈ inventory.objectRecords)
    (hdepends : StrictDependency source target) : target.path ∈ state.disk := by
  have hswept := (MaintenanceInvariant.of_reachable hreachable).survivors_swept
  exact (hswept.strict_closed source ⟨hsource, hsurvives⟩ target htarget hdepends).2

theorem sample_keeps_package_artifact : CachePath.artifact "wasm" "a" ∈ sampleInterrupted.disk := by
  have hdepends : StrictDependency (.package samplePackage)
      (.artifact sampleArtifact) := ⟨rfl, by decide⟩
  exact maintenance_keeps_strict_dependencies sampleInterrupted_reachable
    (by decide) (by decide) (by decide) hdepends

theorem MaintenanceInvariant.not_live_of_selected
    (hinv : MaintenanceInvariant settings stats inventory state)
    {candidate : Candidate} (hselected : candidate ∈ state.selection)
    {record : ObjectRecord} (hrecord : record ∈ inventory.objectRecords)
    (hpath : record.path = candidate.path) :
    ¬ Live (dependencyGraph settings stats inventory.snapshots)
      inventory.present record := by
  intro hlive
  have hkept := ((hinv.swept.live_iff record).mp hlive).kept
  exact (hinv.not_kept_of_selected hselected hrecord hpath).2 hkept

/-- A root that exposes no package keys keeps every package in use. -/
theorem live_package_of_unknown_root {root : CertificateRoot}
    (hroot : root ∈ inventory.certificates) (hinvalid : root.authority.isAuthenticated = false)
    (hunknown : root.packageKeys = none) {package : PackageRecord}
    (hpackage : package ∈ inventory.packages) :
    Live (dependencyGraph settings stats inventory.snapshots) inventory.present
      (.package package) := by
  have hrootPresent : .certificate root ∈ inventory.present := by simpa using hroot
  have hstrict : StrictDependency (.certificate root) (.package package) := by
    intro keys hkeys
    rw [hunknown] at hkeys
    cases hkeys
  exact .edge (.root hrootPresent (.inl hinvalid)) (by simpa using hpackage) (.inl hstrict)

/-- No wave selects protected data or anything it reaches. -/
theorem maintenance_never_selects_protected
    (hreachable : MaintenanceReachable settings stats inventory state)
    {candidate : Candidate} (hselected : candidate ∈ state.selection)
    {record : ObjectRecord} (hrecord : record ∈ inventory.objectRecords)
    (hpath : record.path = candidate.path) :
    record.isAuthenticated = true ∧ isRecent settings stats record = false ∧
      (∀ root ∈ inventory.objectRecords,
        ProtectedRoot settings stats inventory.snapshots root →
          ¬ Relation.ReflTransGen
            ((dependencyGraph settings stats inventory.snapshots).within
              inventory.present) root record) ∧
      ∀ root ∈ inventory.certificates, root.authority.isAuthenticated = false →
        root.packageKeys = none → ∀ package ∈ inventory.packages,
          ¬ Relation.ReflTransGen
            ((dependencyGraph settings stats inventory.snapshots).within
              inventory.present) (.package package) record := by
  have hinv := MaintenanceInvariant.of_reachable hreachable
  have hdead := hinv.not_live_of_selected hselected hrecord hpath
  have hroot : ¬ ProtectedRoot settings stats inventory.snapshots record :=
    fun hroot => hdead (.root hrecord hroot)
  refine ⟨?_, ?_, ?_, ?_⟩
  · rw [← Bool.not_eq_false]
    exact fun hinvalid => hroot (.inl hinvalid)
  · rw [← Bool.not_eq_true]
    exact fun hrecent => hroot (.inr (.inl hrecent))
  · intro root hrootMem hprotected hreaches
    exact hdead (Live.of_reaches (.root hrootMem hprotected) hreaches)
  · intro root hrootMem hinvalid hunknown package hpackage hreaches
    exact hdead (Live.of_reaches
      (live_package_of_unknown_root hrootMem hinvalid hunknown hpackage) hreaches)

theorem sample_selects_unprotected_root :
    isRecent sampleSettings sampleStats (.certificate sampleRoot) = false := by
  have hselected : sampleCandidate ∈ sampleInterrupted.selection := by decide
  exact (maintenance_never_selects_protected sampleInterrupted_reachable hselected
    (by decide) rfl).2.1

/-- The rank of a phase: the removals a wave may still make. -/
def phaseRank (records : ℕ) : Phase → ℕ
  | .deciding _ => records + 2
  | .sweeping _ pending => pending.length + 1
  | .finished _ => 0
  | .failed _ => 0

/-- Records first, then the removals of the current wave. -/
def maintenanceRank (state : MaintenanceState) : ℕ ×ₗ ℕ :=
  toLex (state.inventory.objectRecords.length,
    phaseRank state.inventory.objectRecords.length state.phase)

theorem MaintenanceInvariant.closeWave_lt
    (hinv : MaintenanceInvariant settings stats inventory state) {plan : Plan}
    {pending : List Candidate} (hphase : state.phase = .sweeping plan pending) :
    (state.inventory.removeDeleted
      (plan.evictions.map Candidate.path)).objectRecords.length <
        state.inventory.objectRecords.length := by
  have hphaseInv := hinv.phase
  rw [hphase] at hphaseInv
  obtain ⟨rfl, hevictions, _⟩ := hphaseInv
  exact length_removeDeleted_lt _ hevictions

theorem MaintenanceInvariant.rank_lt (hinv : MaintenanceInvariant settings stats inventory state)
    (hstep : Step settings state state') : maintenanceRank state' < maintenanceRank state := by
  have hphaseInv := hinv.phase
  rw [maintenanceRank, maintenanceRank, Prod.Lex.toLex_lt_toLex]
  cases hstep with
  | finish hphase _ =>
    rw [hphase]
    exact .inr ⟨rfl, Nat.succ_pos _⟩
  | firstWave hphase _ _ =>
    rw [hphase] at hphaseInv ⊢
    obtain ⟨_, rfl⟩ := hphaseInv
    have hlength := derivationOf_length_evictions_le settings state.stats
      state.inventory state.remainingAllocatedBytes
    refine .inr ⟨rfl, ?_⟩
    simp only [phaseRank]
    omega
  | @laterWave _ stats' hphase _ _ _ =>
    rw [hphase]
    refine .inr ⟨rfl, ?_⟩
    cases hderive : deriveImmutablePlan settings stats' state.inventory
        state.remainingAllocatedBytes with
    | error message => exact Nat.succ_pos _
    | ok derivation =>
      obtain ⟨_, rfl⟩ := deriveImmutablePlan_eq_ok_iff.mp hderive
      have hlength := derivationOf_length_evictions_le settings stats'
        state.inventory state.remainingAllocatedBytes
      simp only [afterRefresh, phaseRank]
      omega
  | remove hphase =>
    rw [hphase]
    refine .inr ⟨rfl, ?_⟩
    simp only [phaseRank, length_cons]
    omega
  | closeWave measured hphase => exact .inl (hinv.closeWave_lt hphase)

theorem maintenance_terminates : Terminates (Initial settings stats inventory) (Step settings) :=
  terminates_of_rank maintenanceRank (fun _ => MaintenanceInvariant.initial)
    (fun _ _ => MaintenanceInvariant.step) fun _ _ => MaintenanceInvariant.rank_lt

/-- A wave begun under pressure selects something. -/
theorem MaintenanceInvariant.wave_selects
    (hinv : MaintenanceInvariant settings stats inventory state)
    {derivation : Derivation} (hphase : state.phase = .deciding derivation)
    (hpressure : underPressure settings state derivation) (hstep : Step settings state state') :
    ∃ plan, state'.phase = .sweeping plan plan.evictions ∧ plan.evictions ≠ [] := by
  have hnext := hinv.step hstep
  have hphaseInv := hnext.phase
  cases hstep with
  | finish hphase' hdone =>
    rw [hphase] at hphase'
    cases hphase'
    exact absurd hpressure hdone
  | @firstWave derivation' hphase' _ _ => exact ⟨derivation'.plan, rfl, hphaseInv.2.1⟩
  | @laterWave _ stats' hphase' _ _ _ =>
    cases hderive : deriveImmutablePlan settings stats' state.inventory
        state.remainingAllocatedBytes with
    | error message =>
      simp only [hderive] at hphaseInv
      exact hphaseInv.elim
    | ok derivation' =>
      simp only [hderive] at hphaseInv
      exact ⟨derivation'.plan, rfl, hphaseInv.2.1⟩
  | remove hphase' =>
    rw [hphase] at hphase'
    cases hphase'
  | closeWave _ hphase' =>
    rw [hphase] at hphase'
    cases hphase'

/-- A closed wave leaves fewer records. -/
theorem MaintenanceInvariant.wave_removes
    (hinv : MaintenanceInvariant settings stats inventory state) {plan : Plan}
    (hphase : state.phase = .sweeping plan []) (hstep : Step settings state state') :
    state'.inventory.objectRecords.length <
      state.inventory.objectRecords.length := by
  cases hstep with
  | finish hphase' _ =>
    rw [hphase] at hphase'
    cases hphase'
  | firstWave hphase' _ _ =>
    rw [hphase] at hphase'
    cases hphase'
  | laterWave hphase' _ _ _ =>
    rw [hphase] at hphase'
    cases hphase'
  | remove hphase' =>
    rw [hphase] at hphase'
    cases hphase'
  | closeWave _ hphase' => exact hinv.closeWave_lt hphase'

theorem refreshed_refl (candidates : List Candidate) (stats : StatsTable) :
    Refreshed candidates stats stats :=
  ⟨fun _ _ => rfl, fun _ => rfl, fun _ => rfl⟩

/-- A run only stops by finishing. -/
theorem MaintenanceInvariant.step_or_finished
    (hinv : MaintenanceInvariant settings stats inventory state) :
    (∃ state', Step settings state state') ∨ ∃ derivation, state.phase = .finished derivation := by
  cases hphase : state.phase with
  | deciding derivation =>
    left
    by_cases hpressure : underPressure settings state derivation
    · by_cases hwaves : state.waves = 0
      · exact ⟨_, .firstWave hphase hpressure hwaves⟩
      · exact ⟨_, .laterWave hphase hpressure hwaves (refreshed_refl _ _)⟩
    · exact ⟨_, .finish hphase hpressure⟩
  | sweeping plan pending =>
    left
    cases pending with
    | nil => exact ⟨_, .closeWave 0 hphase⟩
    | cons candidate rest => exact ⟨_, .remove hphase⟩
  | finished derivation => exact .inr ⟨derivation, rfl⟩
  | failed message =>
    have hphaseInv := hinv.phase
    rw [hphase] at hphaseInv
    exact hphaseInv.elim

/-- Without candidates, every present record is kept. -/
theorem kept_of_no_candidates (hplannable : Plannable settings stats inventory) {allocated : ℕ}
    (hcandidates : (derivationOf settings stats inventory allocated).candidates = []) :
    ∀ record ∈ inventory.present,
      Kept (dependencyGraph settings stats inventory.snapshots)
        inventory.present record := by
  intro record hrecord
  by_contra hkept
  have hevictable := (evictable_iff hplannable hrecord).mpr hkept
  have hcandidate := mem_sortedCandidates.mpr ⟨record, hrecord, hevictable, rfl⟩
  simp only [derivationOf] at hcandidates
  rw [hcandidates] at hcandidate
  cases hcandidate

/-- An exhausted run of an acyclic inventory leaves exactly what is live. -/
theorem MaintenanceInvariant.survivors_isLeast
    (hinv : MaintenanceInvariant settings stats inventory state)
    (hacyclic : (dependencyGraph settings stats inventory.snapshots).Acyclic inventory.present)
    {derivation : Derivation} (hphase : state.phase = .finished derivation)
    (hpressure : settings.highWatermarkAllocatedBytes < state.remainingAllocatedBytes) :
    IsLeast { closed | RootClosed
      (dependencyGraph settings stats inventory.snapshots) inventory.present
        closed } (state.survivors inventory) := by
  have hphaseInv := hinv.phase
  rw [hphase] at hphaseInv
  obtain ⟨hdisk, rfl, hdone⟩ := hphaseInv
  have hempty : (derivationOf settings state.stats state.inventory
      state.remainingAllocatedBytes).candidates = [] := by
    by_contra hcandidates
    exact hdone ⟨hpressure, hcandidates⟩
  have hkept := kept_of_no_candidates hinv.plannable hempty
  rw [hinv.graph_eq] at hkept
  have hlive := live_of_all_kept state.inventory.finite_present
    (hacyclic.mono hinv.swept.subset) hkept
  have heq : state.survivors inventory = { record | Live
      (dependencyGraph settings stats inventory.snapshots) inventory.present record } := by
    rw [survivors_eq_present hinv.swept.subset hdisk]
    ext record
    rw [Set.mem_ofPred_eq, hinv.swept.live_iff]
    exact ⟨hlive record, Live.mem⟩
  rw [heq]
  exact isLeast_live

/-- The loop terminates, every wave under pressure removes something, and a
run ends at the watermark or with exactly the protected closure on disk. -/
theorem maintenance_complete
    (hacyclic : (dependencyGraph settings stats inventory.snapshots).Acyclic inventory.present) :
    Terminates (Initial settings stats inventory) (Step settings) ∧
      ∀ state, MaintenanceReachable settings stats inventory state →
        (∀ derivation state', state.phase = .deciding derivation →
          underPressure settings state derivation → Step settings state state' →
            ∃ plan, state'.phase = .sweeping plan plan.evictions ∧ plan.evictions ≠ []) ∧
        (∀ plan state', state.phase = .sweeping plan [] →
          Step settings state state' →
            state'.inventory.objectRecords.length < state.inventory.objectRecords.length) ∧
        ((∃ state', Step settings state state') ∨
          (∃ derivation, state.phase = .finished derivation) ∧
            (state.remainingAllocatedBytes ≤ settings.highWatermarkAllocatedBytes ∨
              IsLeast { closed | RootClosed
                (dependencyGraph settings stats inventory.snapshots)
                  inventory.present closed } (state.survivors inventory))) := by
  refine ⟨maintenance_terminates, fun state hreachable => ?_⟩
  have hinv := MaintenanceInvariant.of_reachable hreachable
  refine ⟨fun _ _ => hinv.wave_selects, fun _ _ => hinv.wave_removes, ?_⟩
  rcases hinv.step_or_finished with hstep | ⟨derivation, hphase⟩
  · exact .inl hstep
  · refine .inr ⟨⟨derivation, hphase⟩, ?_⟩
    by_cases hpressure : settings.highWatermarkAllocatedBytes < state.remainingAllocatedBytes
    · exact .inr (hinv.survivors_isLeast hacyclic hphase hpressure)
    · exact .inl (not_lt.mp hpressure)

theorem sample_acyclic :
    (dependencyGraph sampleSettings sampleStats []).Acyclic sampleInventory.present := by
  apply Graph.acyclic_of_rank fun record => record.type.removalPriority
  rintro source target ⟨hsource, htarget, hdepends⟩
  have hrecords : sampleInventory.objectRecords =
      [.certificate sampleRoot, .package samplePackage, .artifact sampleArtifact] :=
    rfl
  simp only [Inventory.mem_present, hrecords, mem_cons, not_mem_nil, or_false] at hsource htarget
  -- Every edge but those of the artifact, which requires nothing, lowers the kind.
  rcases hsource with rfl | rfl | rfl <;> rcases htarget with rfl | rfl | rfl
  all_goals first
    | decide
    | simp [Graph.DependsOn, dependencyGraph, StrictDependency, LayoutDependency,
        ArtifactRecord.Requires, sampleArtifact] at hdepends

theorem sample_maintenance_complete :
    Terminates (Initial sampleSettings sampleStats sampleInventory) (Step sampleSettings) :=
  (maintenance_complete sample_acyclic).1

section Reruns

/-- What a run starts from after others, each of which may have stopped anywhere.  Between
two runs roots may be given up, as time passes and snapshots go. -/
inductive Rerun (inventory : Inventory) : Settings → StatsTable → Inventory → Prop
  | first (settings : Settings) (stats : StatsTable) : Rerun inventory settings stats inventory
  | next {settings settings' : Settings} {stats stats' : StatsTable} {left left' : Inventory}
      {state : MaintenanceState} : Rerun inventory settings stats left →
      MaintenanceReachable settings stats left state →
      left'.present = state.survivors left →
      (∀ record, ProtectedRoot settings' stats' left'.snapshots record →
        ProtectedRoot settings stats left.snapshots record) →
      Rerun inventory settings' stats' left'

variable {left : Inventory}

theorem Rerun.swept (hrerun : Rerun inventory settings stats left) :
    Swept (dependencyGraph settings stats left.snapshots) inventory.present left.present := by
  induction hrerun with
  | first => exact .refl _
  | next _ hreachable hleft hroots ih =>
    have hswept := ih.trans (MaintenanceInvariant.of_reachable hreachable).survivors_swept
    rw [← hleft] at hswept
    exact hswept.of_roots hroots

/-- Interruptions do no harm: no survivor ever loses a strict dependency, and a last run that
is exhausted leaves what it would have left of the first inventory. -/
theorem maintenance_resumes (hrerun : Rerun inventory settings stats left)
    (hreachable : MaintenanceReachable settings stats left state) :
    (∀ source ∈ state.survivors left, ∀ target ∈ inventory.objectRecords,
      StrictDependency source target → target ∈ state.survivors left) ∧
    ((dependencyGraph settings stats left.snapshots).Acyclic inventory.present →
      ∀ derivation, state.phase = .finished derivation →
        settings.highWatermarkAllocatedBytes < state.remainingAllocatedBytes →
          IsLeast { closed | RootClosed (dependencyGraph settings stats left.snapshots)
            inventory.present closed } (state.survivors left)) := by
  have hinv := MaintenanceInvariant.of_reachable hreachable
  have hswept := hrerun.swept
  refine ⟨(hswept.trans hinv.survivors_swept).strict_closed,
    fun hacyclic derivation hphase hpressure => ?_⟩
  have hleast := hinv.survivors_isLeast (hacyclic.mono hswept.subset) hphase hpressure
  have hlive : { record | Live (dependencyGraph settings stats left.snapshots)
      inventory.present record } = state.survivors left := by
    rw [hleast.unique isLeast_live]
    exact Set.ext hswept.live_iff
  exact hlive ▸ isLeast_live

/-- What the interrupted run has left. -/
def sampleLeft : Inventory := sampleInventory.removeDeleted [sampleCandidate.path]

def sampleResumed : MaintenanceState :=
  { sampleStart with
    inventory := sampleLeft
    disk := sampleLeft.objectPaths
    phase := .deciding (derivationOf sampleSettings sampleStats sampleLeft 3) }

theorem sample_maintenance_resumes :
    sampleLeft.objectRecords.length < sampleInventory.objectRecords.length ∧
      ∀ source ∈ sampleResumed.survivors sampleLeft, ∀ target ∈ sampleInventory.objectRecords,
        StrictDependency source target → target ∈ sampleResumed.survivors sampleLeft := by
  have hleft : sampleLeft.present = sampleInterrupted.survivors sampleInventory :=
    (survivors_eq_present (fun _ hrecord => (Inventory.mem_objectRecords_removeDeleted.mp hrecord).1)
      (by decide)).symm
  exact ⟨by decide, (maintenance_resumes
    (.next (.first _ _) sampleInterrupted_reachable hleft fun _ hroot => hroot)
    (.start ⟨rfl, rfl, rfl, rfl, _, rfl, rfl⟩)).1⟩

end Reruns

end ConvexWasm.Retention
