import ConvexWasm.LaunchScheduler.Progress

/-!
# What the launch scheduler promises

Both theorems are about every order in which requests arrive and operations end,
requests made while an operation is being started included.
-/

namespace ConvexWasm.LaunchScheduler

open List TransitionSystem

variable {policy : LaunchPolicy} {Failure : Type} {machine machine' : Machine policy Failure}

section Reached

/-- The scheduler before the first request. -/
def Machine.Initial (machine : Machine policy Failure) : Prop := machine = {}

theorem Machine.balanced_initial : ({} : Machine policy Failure).Balanced where
  accounts :=
    { queue := rfl, requestCount := rfl, activeCount := rfl, activeWorkerSlots := rfl,
      activeAdmissionWorkingSetEstimateBytes := rfl, activeWorkingSetEstimateBytes := rfl,
      completedCount := rfl, failedCount := rfl,
      stageStats := fun _ => ⟨rfl, rfl, rfl, rfl, rfl, rfl⟩
      classStats := fun _ => ⟨rfl, rfl, rfl, rfl, rfl, rfl⟩ }
  workerSlots_le := Int.natCast_nonneg _
  admission_le := Int.natCast_nonneg _
  places := List.Perm.refl _
  started := List.Perm.refl _

theorem Machine.ordered_initial : ({} : Scheduler policy Failure).Ordered [] where
  sorted := List.Pairwise.nil
  queue_lt := fun _ hmem => absurd hmem not_mem_nil
  started_lt := fun _ hmem => absurd hmem not_mem_nil
  backfilledHead_lt := fun _ hhead => by cases hhead
  allowance := fun _ => Nat.zero_le _
  head := fun _ _ hsplit => by cases hsplit
  later := fun _ _ hsplit => by cases hsplit
  passes := fun _ hmem => absurd hmem not_mem_nil
  waiting := fun _ hmem => absurd hmem not_mem_nil
  order := List.Pairwise.nil

variable (hreachable : Reachable Machine.Initial Step machine)

include hreachable

theorem balanced_of_reachable : machine.Balanced :=
  hreachable.invariant (fun _ hinitial => by rw [hinitial]; exact Machine.balanced_initial)
    fun _ _ hbalanced hstep => hbalanced.step hstep

theorem ordered_of_reachable : machine.scheduler.Ordered machine.started := by
  induction hreachable with
  | start hinitial =>
    rw [hinitial]
    exact Machine.ordered_initial
  | next _ hstep ih => exact hstep.ordered ih

theorem awake_of_reachable : machine.Awake := by
  refine hreachable.invariant ?_ fun _ _ hawake hstep => hawake.step hstep
  intro machine hinitial
  rw [hinitial]
  exact
    { linked := trivial
      blocked := fun _ _ _ hsplit => by cases hsplit
      closed := fun _ hfailure => by cases hfailure }

theorem closing_of_reachable : machine.Closing := by
  refine hreachable.invariant ?_ fun _ _ hclosing hstep => hclosing.step hstep
  intro machine hinitial
  rw [hinitial]
  exact ⟨rfl, fun _ _ hmem => absurd hmem not_mem_nil⟩

end Reached

def twoJobs : LaunchPolicy where
  aggregateMemoryMaxBytes := 4096 * mebibyte
  aotWorkers := 1
  jobs := 2
  aggregateMemoryMaxBytes_pos := by decide
  jobs_pos := by decide
  aotWorkers_le := by decide

def linkRequest : Request :=
  { stage := "core-wasm", failureClosesAdmission := true, workerSlots := 2
    workingSetEstimateBytes := none }

/-- The machine that is starting the operation of its first request. -/
def starting : Machine twoJobs Unit := (({} : Machine twoJobs Unit).run linkRequest).drain.drain

theorem starting_reachable : Reachable Machine.Initial Step starting := by
  have hinitial : Reachable Machine.Initial Step ({} : Machine twoJobs Unit) := .start rfl
  have hrun : Reachable Machine.Initial Step (({} : Machine twoJobs Unit).run linkRequest) :=
    hinitial.next (.call linkRequest rfl)
  exact (hrun.next (.enter rfl)).next (.loop rfl)

theorem perm_settled (settled : List (Entry policy × Outcome Failure)) :
    (settled.map Prod.fst).Perm (settled.filterMap completedEntry ++
      settled.filterMap failedEntry ++ settled.filterMap droppedEntry) := by
  induction settled with
  | nil => exact List.Perm.refl _
  | cons first rest ih =>
    obtain ⟨entry, outcome⟩ := first
    cases outcome with
    | completed => exact ih.cons entry
    | failed error =>
      refine (ih.cons entry).trans ?_
      simp only [filterMap_cons, completedEntry, failedEntry, droppedEntry, append_assoc]
      exact perm_middle.symm
    | dropped error =>
      refine (ih.cons entry).trans ?_
      exact perm_middle.symm

/-- Nobody waits at rest unless an operation is active. -/
theorem queue_eq_nil_of_idle (hbalanced : machine.Balanced) (hawake : machine.Awake)
    (hstack : machine.stack = []) (hactive : machine.active = []) :
    machine.scheduler.queue = [] := by
  cases hqueue : machine.scheduler.queue with
  | nil => rfl
  | cons head later =>
    have hblocked := hawake.blocked hstack head later hqueue
    have hslots := hbalanced.accounts.activeWorkerSlots
    have hadmission := hbalanced.accounts.activeAdmissionWorkingSetEstimateBytes
    rw [show machine.ledger.active = [] from hactive] at hslots hadmission
    have hfree : machine.scheduler.canAdmit head = true := by
      rw [Scheduler.canAdmit_iff, hslots, hadmission, total_nil, total_nil, zero_add, zero_add]
      exact ⟨Int.ofNat_le.mpr head.workerSlots_le, Int.ofNat_le.mpr head.admission_le⟩
    rw [hfree] at hblocked
    cases hblocked

/-- Where the accepted requests and their operations are. -/
structure Machine.Safe (machine : Machine policy Failure) : Prop where
  workerSlots_le : machine.scheduler.activeWorkerSlots ≤ policy.jobs
  admission_le : machine.scheduler.activeAdmissionWorkingSetEstimateBytes ≤
    policy.aggregateMemoryMaxBytes
  counters : machine.scheduler.Agrees machine.ledger
  startedOnce : (machine.started.map (·.entry.id)).Nodup
  started : (machine.started.map (·.entry)).Perm
    (machine.active ++ machine.settled.filterMap completedEntry ++
      machine.settled.filterMap failedEntry)
  settledOnce : (machine.settled.map (·.1.id)).Nodup
  settled : ∀ id < machine.scheduler.requestCount,
    id ∈ machine.settled.map (·.1.id) ↔ id ∉ (machine.scheduler.queue ++ machine.active).map (·.id)
  settledAll : machine.stack = [] → machine.active = [] →
    (machine.settled.map (·.1.id)).Perm (List.range machine.scheduler.requestCount)
  requestCount : (machine.scheduler.requestCount : ℤ) =
    machine.scheduler.completedCount + machine.scheduler.failedCount +
      machine.scheduler.activeCount + machine.scheduler.queue.length +
      (machine.settled.filterMap droppedEntry).length

theorem Machine.Balanced.perm (hbalanced : machine.Balanced) :
    ((machine.scheduler.queue ++ machine.active).map (·.id) ++
      machine.settled.map (·.1.id)).Perm (List.range machine.scheduler.requestCount) := by
  refine List.Perm.trans ?_ hbalanced.places
  have hsettled := (perm_settled machine.settled).append_left
    (machine.scheduler.queue ++ machine.active)
  have hmap := hsettled.map (fun entry : Entry policy => entry.id)
  rw [map_append, map_map] at hmap
  refine hmap.trans (List.Perm.of_eq ?_)
  simp [Machine.ledger, Ledger.entries]

/-- The limits are kept, the counters are the sums that they stand for, every
operation is started at most once and every accepted request is settled once. -/
theorem launch_scheduler_safe (hreachable : Reachable Machine.Initial Step machine) :
    machine.Safe := by
  have hbalanced := balanced_of_reachable hreachable
  have hperm := hbalanced.perm
  have hnodup := (nodup_append.mp (hperm.nodup_iff.mpr nodup_range))
  exact
    { hbalanced with
      counters := hbalanced.accounts
      startedOnce := by
        have hentries := hbalanced.places.nodup_iff.mpr nodup_range
        have hsub : (machine.ledger.begun.map (·.id)).Sublist
            (machine.ledger.entries.map (·.id)) := by
          apply List.Sublist.map
          simp only [Ledger.begun, Ledger.entries, append_assoc]
          exact (((List.Sublist.refl _).append ((List.Sublist.refl _).append
            (sublist_append_left _ _)))).trans (sublist_append_right _ _)
        have hstarted := hbalanced.started.map (fun entry : Entry policy => entry.id)
        rw [map_map] at hstarted
        exact hstarted.nodup_iff.mpr (hentries.sublist hsub)
      settledOnce := hnodup.2.1
      settled := fun id hid => by
        have hmem := hperm.mem_iff.mpr (mem_range.mpr hid)
        constructor
        · intro hsettled hwaiting
          exact hnodup.2.2 id hwaiting id hsettled rfl
        · exact (mem_append.mp hmem).resolve_left
      settledAll := fun hstack hactive => by
        have hqueue := queue_eq_nil_of_idle hbalanced (awake_of_reachable hreachable) hstack hactive
        rw [hqueue, hactive] at hperm
        exact hperm
      requestCount := by
        have hcount := hbalanced.accounts.requestCount
        rw [Ledger.accepted] at hcount
        simp only [total_one] at hcount
        rw [hbalanced.accounts.activeCount, hbalanced.accounts.completedCount,
          hbalanced.accounts.failedCount]
        exact hcount }

theorem launch_scheduler_safe_starting :
    (starting.started.map (·.entry.stage)) = ["core-wasm"] ∧ starting.Safe :=
  ⟨rfl, launch_scheduler_safe starting_reachable⟩

/-- After the failure the waiting requests stay in the queue until they are rejected
with it. -/
theorem Step.queue_closed {error : Failure} (hawake : machine.Awake) (hstep : Step machine machine')
    (hfailure : machine.scheduler.schedulingFailure = some error) {entry : Entry policy}
    (hmem : entry ∈ machine.scheduler.queue) :
    entry ∈ machine'.scheduler.queue ∨ (entry, .dropped error) ∈ machine'.settled := by
  cases hstep.changes with
  | same hscheduler _ _ _ => exact .inl (by rwa [hscheduler])
  | blocked _ _ hscheduler _ _ _ => exact .inl (by rwa [hscheduler])
  | enqueue _ hnone _ _ _ _ =>
    rw [hfailure] at hnone
    cases hnone
  | start hstack _ _ _ _ _ _ =>
    rcases hawake.closed error hfailure with hempty | ⟨rest, henter⟩
    · rw [hempty] at hmem
      exact absurd hmem not_mem_nil
    · rw [hstack] at henter
      cases henter
  | complete _ hscheduler _ _ => exact .inl (by rwa [hscheduler])
  | fail _ hscheduler _ _ => exact .inl (by rwa [hscheduler])
  | drop hdropped _ _ hsettled _ =>
    obtain rfl := Option.some.inj (hfailure.symm.trans hdropped)
    rw [hsettled]
    exact .inr (mem_append_right _ (mem_map_of_mem hmem))

theorem Step.settled_subset (hstep : Step machine machine') : machine.settled ⊆ machine'.settled := by
  cases hstep.changes with
  | same _ _ hsettled _ => rw [hsettled]; exact List.Subset.refl _
  | blocked _ _ _ _ hsettled _ => rw [hsettled]; exact List.Subset.refl _
  | enqueue _ _ _ _ hsettled _ => rw [hsettled]; exact List.Subset.refl _
  | start _ _ _ _ _ hsettled _ => rw [hsettled]; exact List.Subset.refl _
  | complete _ _ hsettled _ => rw [hsettled]; exact subset_append_left _ _
  | fail _ _ hsettled _ => rw [hsettled]; exact subset_append_left _ _
  | drop _ _ _ hsettled _ => rw [hsettled]; exact subset_append_left _ _

/-- What is left to happen once the admission is closed. -/
structure Machine.Closed (machine machine' : Machine policy Failure) (error : Failure) : Prop where
  failure : machine'.scheduler.schedulingFailure = some error
  started : machine'.started = machine.started
  requestCount : machine'.scheduler.requestCount = machine.scheduler.requestCount
  queued : ∀ entry ∈ machine.scheduler.queue,
    entry ∈ machine'.scheduler.queue ∨ (entry, .dropped error) ∈ machine'.settled
  dropped : ∀ entry other, (entry, Outcome.dropped other) ∈ machine'.settled → other = error
  emptied : machine'.scheduler.queue = [] ∨ ∃ rest, machine'.stack = .enter :: rest

theorem closed_of_failure {error : Failure} (hreachable : Reachable Machine.Initial Step machine)
    (hfailure : machine.scheduler.schedulingFailure = some error)
    (hruns : Relation.ReflTransGen Step machine machine') :
    Reachable Machine.Initial Step machine' ∧ machine.Closed machine' error := by
  induction hruns with
  | refl =>
    refine ⟨hreachable, ⟨hfailure, rfl, rfl, fun entry hmem => .inl hmem, ?_, ?_⟩⟩
    · intro entry other hmem
      have hother := (closing_of_reachable hreachable).dropped entry other hmem
      exact Option.some.inj (hother.symm.trans hfailure)
    · exact (awake_of_reachable hreachable).closed error hfailure
  | tail _ hstep ih =>
    obtain ⟨hbefore, hclosed⟩ := ih
    have hawake := awake_of_reachable hbefore
    have hafter := hbefore.next hstep
    obtain ⟨hkept, hstarted, hcount⟩ := hstep.closed hawake hclosed.failure
    refine ⟨hafter, ⟨hkept, hstarted.trans hclosed.started,
      hcount.trans hclosed.requestCount, ?_, ?_, ?_⟩⟩
    · intro entry hmem
      rcases hclosed.queued entry hmem with hqueued | hdropped
      · exact hstep.queue_closed hawake hclosed.failure hqueued
      · exact .inr (hstep.settled_subset hdropped)
    · intro entry other hmem
      have hother := (closing_of_reachable hafter).dropped entry other hmem
      exact Option.some.inj (hother.symm.trans hkept)
    · exact (awake_of_reachable hafter).closed error hkept

/-- Nothing is stuck, little is overtaken, and the first failure ends the starting. -/
structure Machine.Fair (machine : Machine policy Failure) : Prop where
  awake : machine.stack = [] → machine.scheduler.queue ≠ [] → machine.active ≠ []
  passes : ∀ start ∈ machine.started, start.entry.id ≠ start.head →
    start.headBlocked = true ∧ start.head < start.entry.id
  order : machine.started.Pairwise fun earlier later => later.entry.id < earlier.entry.id →
    earlier.head ≤ later.entry.id ∧ earlier.entry.id ≠ earlier.head
  allowance : ∀ head, overtaken machine.started head ≤ policy.jobs - 1
  closed : ∀ error, machine.scheduler.schedulingFailure = some error →
    firstFailure machine.settled = some error ∧
      ∀ machine', Relation.ReflTransGen Step machine machine' → machine.Closed machine' error

theorem launch_scheduler_fair (hreachable : Reachable Machine.Initial Step machine) :
    machine.Fair := by
  have hordered := ordered_of_reachable hreachable
  exact
    { hordered with
      awake := fun hstack hqueue hactive =>
        hqueue (queue_eq_nil_of_idle (balanced_of_reachable hreachable)
          (awake_of_reachable hreachable) hstack hactive)
      closed := fun error hfailure =>
        ⟨(closing_of_reachable hreachable).first ▸ hfailure, fun _ hruns =>
          (closed_of_failure hreachable hfailure hruns).2⟩ }

theorem launch_scheduler_fair_starting :
    (starting.started.map (·.entry.stage)) = ["core-wasm"] ∧ starting.Fair :=
  ⟨rfl, launch_scheduler_fair starting_reachable⟩

end ConvexWasm.LaunchScheduler
