import ConvexWasm.Core.TransitionSystem
import ConvexWasm.LaunchScheduler.Accounts

/-!
# What holds in every reachable state of the scheduler

The accounts balance, nothing exceeds the limits, every accepted request is in one
place, and what is passed past a waiting head is paid out of its allowance.
-/

namespace ConvexWasm.LaunchScheduler

open List TransitionSystem

variable {policy : LaunchPolicy} {Failure : Type}

variable {entry : Entry policy}

section Dequeue

variable {scheduler left : Scheduler policy Failure} {head : Entry policy}
  {later : List (Entry policy)}

/-- The worker slots that have gone past the head. -/
def Scheduler.backfilled (scheduler : Scheduler policy Failure) (head : ℕ) : ℕ :=
  if scheduler.backfilledHead = some head then scheduler.backfilledWorkerSlots else 0

/-- How an entry is taken out of the queue: the head, or a later entry past a head
that has to wait. -/
inductive Scheduler.Dequeues (scheduler : Scheduler policy Failure) :
    Entry policy → Scheduler policy Failure → Prop
  | head {head : Entry policy} {later : List (Entry policy)} :
      scheduler.queue = head :: later → scheduler.canAdmit head = true →
      Dequeues scheduler head
        (if scheduler.backfilledHead = some head.id then
          { scheduler with queue := later, backfilledHead := none, backfilledWorkerSlots := 0 }
        else { scheduler with queue := later })
  | backfill {head entry : Entry policy} {before after : List (Entry policy)} :
      scheduler.queue = head :: (before ++ entry :: after) → scheduler.canAdmit head = false →
      scheduler.canAdmit entry = true →
      (entry.workerSlots : ℤ) ≤ policy.jobs - 1 - scheduler.backfilled head.id →
      Dequeues scheduler entry
        { scheduler with
          queue := head :: (before ++ after)
          backfilledHead := some head.id
          backfilledWorkerSlots := scheduler.backfilled head.id + entry.workerSlots }

theorem dequeues_of_some (hdequeue : scheduler.dequeueNextAdmissible = (some entry, left)) :
    scheduler.Dequeues entry left := by
  rw [Scheduler.dequeueNextAdmissible] at hdequeue
  split at hdequeue
  · cases hdequeue
  case h_2 head later hqueue =>
    by_cases hhead : scheduler.canAdmit head = true
    · rw [if_pos hhead] at hdequeue
      obtain ⟨hentry, rfl⟩ := Prod.mk.inj hdequeue
      cases hentry
      exact .head hqueue hhead
    · rw [if_neg hhead] at hdequeue
      dsimp only at hdequeue
      split at hdequeue
      · cases hdequeue
      case h_2 taken rest htaken =>
        obtain ⟨hentry, rfl⟩ := Prod.mk.inj hdequeue
        cases hentry
        obtain ⟨before, after, rfl, rfl, hfits, _⟩ := takeFirst_eq_some_iff.mp htaken
        obtain ⟨hslots, hfree⟩ := Bool.and_eq_true_iff.mp hfits
        exact .backfill hqueue (Bool.eq_false_of_not_eq_true hhead) hfree (of_decide_eq_true hslots)

/-- When nothing can be started, only the allowance of the head is looked up. -/
theorem dequeue_none (hqueue : scheduler.queue = head :: later)
    (hdequeue : scheduler.dequeueNextAdmissible = (none, left)) :
    scheduler.canAdmit head = false ∧
      left = { scheduler with
        backfilledHead := some head.id
        backfilledWorkerSlots := scheduler.backfilled head.id } := by
  rw [Scheduler.dequeueNextAdmissible, hqueue] at hdequeue
  dsimp only at hdequeue
  by_cases hhead : scheduler.canAdmit head = true
  · rw [if_pos hhead] at hdequeue
    cases (Prod.mk.inj hdequeue).1
  · rw [if_neg hhead] at hdequeue
    split at hdequeue
    · rw [← hqueue] at hdequeue
      exact ⟨Bool.eq_false_of_not_eq_true hhead, (Prod.mk.inj hdequeue).2.symm⟩
    · cases (Prod.mk.inj hdequeue).1

section

variable (hdequeues : scheduler.Dequeues entry left)
include hdequeues

theorem Scheduler.Dequeues.canAdmit :
    scheduler.canAdmit entry = true := by
  cases hdequeues with
  | head _ hfree => exact hfree
  | backfill _ _ hfree _ => exact hfree

theorem Scheduler.Dequeues.perm :
    scheduler.queue.Perm (entry :: left.queue) := by
  cases hdequeues with
  | head hqueue _ => rw [hqueue]; split <;> rfl
  | backfill hqueue _ _ _ =>
    rw [hqueue]
    exact (perm_middle.cons _).trans (List.Perm.swap _ _ _)

/-- Besides the queue only the allowance of the head changes. -/
theorem Scheduler.Dequeues.eq :
    left = { scheduler with
      queue := left.queue
      backfilledHead := left.backfilledHead
      backfilledWorkerSlots := left.backfilledWorkerSlots } := by
  cases hdequeues with
  | head _ _ => split <;> rfl
  | backfill _ _ _ _ => rfl

end

end Dequeue

section Places

def Frame.entries : Frame policy → List (Entry policy)
  | .operation entry => [entry]
  | _ => []

def completedEntry : Entry policy × Outcome Failure → Option (Entry policy)
  | (entry, .completed) => some entry
  | _ => none

def failedEntry : Entry policy × Outcome Failure → Option (Entry policy)
  | (entry, .failed _) => some entry
  | _ => none

def droppedEntry : Entry policy × Outcome Failure → Option (Entry policy)
  | (entry, .dropped _) => some entry
  | _ => none

variable (machine : Machine policy Failure)

/-- The operations that were started and are not over. -/
def Machine.active : List (Entry policy) := machine.stack.flatMap Frame.entries ++ machine.pending

def Machine.ledger : Ledger policy where
  queued := machine.scheduler.queue
  active := machine.active
  completed := machine.settled.filterMap completedEntry
  failed := machine.settled.filterMap failedEntry
  dropped := machine.settled.filterMap droppedEntry

/-- The entries of the ledger, one place after the other. -/
def Ledger.entries (ledger : Ledger policy) : List (Entry policy) :=
  ledger.queued ++ ledger.active ++ ledger.completed ++ ledger.failed ++ ledger.dropped

/-- The entries whose operation was started. -/
def Ledger.begun (ledger : Ledger policy) : List (Entry policy) :=
  ledger.active ++ ledger.completed ++ ledger.failed

end Places

variable {machine machine' : Machine policy Failure}

section Changes

/-- What a step does to the scheduler, the active operations and the history. -/
inductive Machine.Changes (machine machine' : Machine policy Failure) : Prop
  | same :
      machine'.scheduler = machine.scheduler → machine.active.Perm machine'.active →
      machine'.settled = machine.settled → machine'.started = machine.started →
      Changes machine machine'
  | blocked {head : Entry policy} {later : List (Entry policy)} :
      machine.scheduler.queue = head :: later → machine.scheduler.canAdmit head = false →
      machine'.scheduler = { machine.scheduler with
        backfilledHead := some head.id
        backfilledWorkerSlots := machine.scheduler.backfilled head.id } →
      machine'.active = machine.active →
      machine'.settled = machine.settled → machine'.started = machine.started →
      Changes machine machine'
  | enqueue {entry : Entry policy} :
      entry.id = machine.scheduler.requestCount → machine.scheduler.schedulingFailure = none →
      machine'.scheduler = machine.scheduler.enqueue entry → machine'.active = machine.active →
      machine'.settled = machine.settled → machine'.started = machine.started →
      Changes machine machine'
  | start {entry head : Entry policy} {later : List (Entry policy)}
      {left : Scheduler policy Failure} {rest : List (Frame policy)} :
      machine.stack = .loop :: rest → machine.scheduler.queue = head :: later → machine.scheduler.Dequeues entry left →
      machine'.scheduler = left.activate entry → machine'.active = entry :: machine.active →
      machine'.settled = machine.settled →
      machine'.started = machine.started ++
        [{ entry, head := head.id, headBlocked := !machine.scheduler.canAdmit head }] →
      Changes machine machine'
  | complete {entry : Entry policy} :
      machine.active.Perm (entry :: machine'.active) →
      machine'.scheduler = (machine.scheduler.complete entry).release entry →
      machine'.settled = machine.settled ++ [(entry, .completed)] →
      machine'.started = machine.started → Changes machine machine'
  | fail {entry : Entry policy} {error : Failure} :
      machine.active.Perm (entry :: machine'.active) →
      machine'.scheduler = (machine.scheduler.recordFailure entry error).release entry →
      machine'.settled = machine.settled ++ [(entry, .failed error)] →
      machine'.started = machine.started → Changes machine machine'
  | drop {error : Failure} :
      machine.scheduler.schedulingFailure = some error →
      machine'.scheduler = machine.scheduler.dropQueue → machine'.active = machine.active →
      machine'.settled =
        machine.settled ++ machine.scheduler.queue.map (fun entry => (entry, .dropped error)) →
      machine'.started = machine.started → Changes machine machine'

theorem prepareEntry_of_checkRequest {request : Request} {prepare : ℕ → Entry policy}
    (hcheck : checkRequest policy request = .ok prepare) (id : ℕ) : (prepare id).id = id := by
  rw [checkRequest] at hcheck
  split at hcheck
  · cases hcheck
  · split at hcheck
    · cases hcheck
    · obtain ⟨slots, _, hcheck⟩ := Fallible.bind_eq_ok.mp hcheck
      obtain ⟨estimate, _, hcheck⟩ := Fallible.bind_eq_ok.mp hcheck
      split at hcheck
      · cases hcheck
      · split at hcheck
        · cases hcheck
        · cases hcheck
          rfl

theorem Machine.run_changes (request : Request) : machine.Changes (machine.run request) := by
  rw [Machine.run]
  split
  · exact .same rfl (List.Perm.refl _) rfl rfl
  case h_2 prepare hcheck =>
    by_cases hfailure : machine.scheduler.schedulingFailure.isSome
    · rw [if_pos hfailure]
      exact .same rfl (List.Perm.refl _) rfl rfl
    · rw [if_neg hfailure]
      exact .enqueue (prepareEntry_of_checkRequest hcheck _)
        (Option.not_isSome_iff_eq_none.mp hfailure) rfl rfl rfl rfl

variable {rest : List (Frame policy)}

theorem Machine.enter_changes (hstack : machine.stack = .enter :: rest) :
    machine.Changes machine.drain := by
  have hactive : machine.active = rest.flatMap Frame.entries ++ machine.pending := by
    simp [Machine.active, hstack, Frame.entries]
  rw [Machine.drain, hstack]
  dsimp only
  split
  case h_1 error hfailure => exact .drop hfailure rfl hactive.symm rfl rfl
  · refine .same rfl ?_ rfl rfl
    rw [hactive]
    rfl

theorem Machine.loop_changes (hstack : machine.stack = .loop :: rest) :
    machine.Changes machine.drain := by
  have hactive : machine.active = rest.flatMap Frame.entries ++ machine.pending := by
    simp [Machine.active, hstack, Frame.entries]
  rw [Machine.drain, hstack]
  dsimp only
  split
  · exact .same rfl (hactive ▸ List.Perm.refl _) rfl rfl
  case h_2 head later hqueue =>
    split
    case h_1 left hdequeue =>
      obtain ⟨hblocked, hleft⟩ := dequeue_none hqueue hdequeue
      exact .blocked hqueue hblocked hleft hactive.symm rfl rfl
    case h_2 entry left hdequeue =>
      refine .start hstack hqueue (dequeues_of_some hdequeue) rfl ?_ rfl rfl
      rw [hactive]
      rfl

theorem Step.changes (hstep : Step machine machine') : machine.Changes machine' := by
  cases hstep with
  | call request _ => exact Machine.run_changes request
  | nestedCall request _ => exact Machine.run_changes request
  | enter hstack => exact Machine.enter_changes hstack
  | loop hstack => exact Machine.loop_changes hstack
  | wait hstack =>
    refine .same rfl ?_ rfl rfl
    simp only [Machine.active, hstack, flatMap_cons, Frame.entries, singleton_append]
    exact perm_middle.symm
  | throw error hstack =>
    refine .fail ?_ rfl rfl rfl
    simp only [Machine.active, Machine.fail, hstack, flatMap_cons, Frame.entries]
    rfl
  | resolve hstack hpending =>
    refine .complete ?_ rfl rfl rfl
    simp only [Machine.active, Machine.complete, hstack, hpending, flatMap_cons,
      flatMap_nil, Frame.entries, nil_append]
    exact perm_middle
  | reject error hstack hpending =>
    refine .fail ?_ rfl rfl rfl
    simp only [Machine.active, Machine.fail, hstack, hpending, flatMap_cons,
      flatMap_nil, Frame.entries, nil_append]
    exact perm_middle

end Changes

section Balance

/-- The accounts of a machine are in order. -/
structure Machine.Balanced (machine : Machine policy Failure) : Prop where
  accounts : machine.scheduler.Agrees machine.ledger
  workerSlots_le : machine.scheduler.activeWorkerSlots ≤ policy.jobs
  admission_le : machine.scheduler.activeAdmissionWorkingSetEstimateBytes ≤
    policy.aggregateMemoryMaxBytes
  places : (machine.ledger.entries.map (·.id)).Perm (List.range machine.scheduler.requestCount)
  started : (machine.started.map (·.entry)).Perm machine.ledger.begun

theorem Scheduler.canAdmit_iff {scheduler : Scheduler policy Failure} :
    scheduler.canAdmit entry = true ↔
      scheduler.activeWorkerSlots + entry.workerSlots ≤ policy.jobs ∧
        scheduler.activeAdmissionWorkingSetEstimateBytes +
          entry.admissionWorkingSetEstimateBytes ≤ policy.aggregateMemoryMaxBytes := by
  simp [Scheduler.canAdmit]

theorem coe_of_perm {entries rest : List (Entry policy)} (hperm : entries.Perm (entry :: rest)) :
    (entries : Multiset (Entry policy)) = {entry} + (rest : Multiset (Entry policy)) := by
  exact Multiset.coe_eq_coe.mpr hperm

variable {ledger : Ledger policy}

theorem Ledger.places_enqueue {count : ℕ}
    (hplaces : (ledger.entries.map (·.id)).Perm (List.range count)) (hid : entry.id = count) :
    ((ledger.enqueue entry).entries.map (·.id)).Perm (List.range (count + 1)) := by
  have hentries : (ledger.enqueue entry).entries.Perm (ledger.entries ++ [entry]) := by
    apply Multiset.coe_eq_coe.mp
    simp only [Ledger.entries, Ledger.enqueue, ← Multiset.coe_add]
    abel
  rw [range_succ, ← hid]
  exact (hentries.map _).trans (by simpa [hid] using hplaces.append_right [count])

variable {rest : List (Entry policy)}

theorem Ledger.entries_activate (hqueued : ledger.queued.Perm (entry :: rest)) :
    (ledger.activate entry rest).entries.Perm ledger.entries := by
  apply Multiset.coe_eq_coe.mp
  simp only [Ledger.entries, Ledger.activate, ← Multiset.coe_add, coe_of_perm hqueued,
    ← Multiset.cons_coe, ← Multiset.singleton_add]
  abel

section

variable (hactive : ledger.active.Perm (entry :: rest))
include hactive

theorem Ledger.entries_complete : (ledger.complete entry rest).entries.Perm ledger.entries := by
  apply Multiset.coe_eq_coe.mp
  simp only [Ledger.entries, Ledger.complete, ← Multiset.coe_add, coe_of_perm hactive,
    Multiset.coe_singleton]
  abel

theorem Ledger.begun_complete : (ledger.complete entry rest).begun.Perm ledger.begun := by
  apply Multiset.coe_eq_coe.mp
  simp only [Ledger.begun, Ledger.complete, ← Multiset.coe_add, coe_of_perm hactive,
    Multiset.coe_singleton]
  abel

theorem Ledger.entries_fail : (ledger.fail entry rest).entries.Perm ledger.entries := by
  apply Multiset.coe_eq_coe.mp
  simp only [Ledger.entries, Ledger.fail, ← Multiset.coe_add, coe_of_perm hactive,
    Multiset.coe_singleton]
  abel

theorem Ledger.begun_fail : (ledger.fail entry rest).begun.Perm ledger.begun := by
  apply Multiset.coe_eq_coe.mp
  simp only [Ledger.begun, Ledger.fail, ← Multiset.coe_add, coe_of_perm hactive,
    Multiset.coe_singleton]
  abel

end

theorem Ledger.entries_dropQueue : ledger.dropQueue.entries.Perm ledger.entries := by
  apply Multiset.coe_eq_coe.mp
  simp only [Ledger.entries, Ledger.dropQueue, ← Multiset.coe_add, Multiset.coe_nil]
  abel

/-- The ledger that a change leads to. -/
theorem Machine.Balanced.of_ledger {started : List (Start policy)}
    (hscheduler : machine.scheduler = left) (hstarted : machine.started = started)
    (hledger : machine.ledger = ledger) (haccounts : left.Agrees ledger)
    (hslots : left.activeWorkerSlots ≤ policy.jobs)
    (hadmission : left.activeAdmissionWorkingSetEstimateBytes ≤
      policy.aggregateMemoryMaxBytes)
    (hplaces : (ledger.entries.map (·.id)).Perm (List.range left.requestCount))
    (hbegun : (started.map (·.entry)).Perm ledger.begun) : machine.Balanced := by
  subst hscheduler hstarted hledger
  exact ⟨haccounts, hslots, hadmission, hplaces, hbegun⟩

theorem filterMap_dropped (error : Failure) (entries : List (Entry policy)) :
    (entries.map fun entry => (entry, Outcome.dropped error)).filterMap completedEntry = [] ∧
      (entries.map fun entry => (entry, Outcome.dropped error)).filterMap failedEntry = [] ∧
      (entries.map fun entry => (entry, Outcome.dropped error)).filterMap droppedEntry =
        entries := by
  induction entries with
  | nil => exact ⟨rfl, rfl, rfl⟩
  | cons entry rest ih => simpa [completedEntry, failedEntry, droppedEntry] using ih

section

variable (hbalanced : machine.Balanced)
include hbalanced

theorem Machine.Balanced.same (hscheduler : machine'.scheduler = machine.scheduler)
    (hactive : machine.active.Perm machine'.active) (hsettled : machine'.settled = machine.settled)
    (hstarted : machine'.started = machine.started) : machine'.Balanced := by
  have hledger : machine'.ledger = { machine.ledger with active := machine'.active } := by
    simp [Machine.ledger, hscheduler, hsettled]
  refine .of_ledger hscheduler hstarted hledger (hbalanced.accounts.perm hactive)
    hbalanced.workerSlots_le hbalanced.admission_le ?_ ?_
  · refine List.Perm.trans (List.Perm.map _ ?_) hbalanced.places
    exact (((hactive.symm.append_left _).append_right _).append_right _).append_right _
  · exact hbalanced.started.trans ((hactive.append_right _).append_right _)

theorem Machine.Balanced.enqueue (hid : entry.id = machine.scheduler.requestCount)
    (hscheduler : machine'.scheduler = machine.scheduler.enqueue entry)
    (hactive : machine'.active = machine.active) (hsettled : machine'.settled = machine.settled)
    (hstarted : machine'.started = machine.started) : machine'.Balanced := by
  have hledger : machine'.ledger = machine.ledger.enqueue entry := by
    simp only [Machine.ledger, hscheduler, hsettled, hactive]
    rfl
  exact .of_ledger hscheduler hstarted hledger hbalanced.accounts.enqueue
    hbalanced.workerSlots_le hbalanced.admission_le (Ledger.places_enqueue hbalanced.places hid)
    hbalanced.started

theorem Machine.Balanced.start {start : Start policy} {left : Scheduler policy Failure}
    (hdequeues : machine.scheduler.Dequeues start.entry left)
    (hscheduler : machine'.scheduler = left.activate start.entry)
    (hactive : machine'.active = start.entry :: machine.active)
    (hsettled : machine'.settled = machine.settled)
    (hstarted : machine'.started = machine.started ++ [start]) : machine'.Balanced := by
  have hledger : machine'.ledger = machine.ledger.activate start.entry left.queue := by
    simp only [Machine.ledger, hscheduler, hsettled, hactive]
    rfl
  obtain ⟨hslots, hadmission⟩ := Scheduler.canAdmit_iff.mp hdequeues.canAdmit
  refine .of_ledger hscheduler hstarted hledger
    (hbalanced.accounts.activate hdequeues.perm hdequeues.eq) ?_ ?_ ?_ ?_
  · rw [hdequeues.eq]
    exact hslots
  · rw [hdequeues.eq]
    exact hadmission
  · rw [hdequeues.eq]
    exact ((Ledger.entries_activate hdequeues.perm).map _).trans hbalanced.places
  · rw [map_append]
    exact perm_append_singleton _ _ |>.trans (hbalanced.started.cons _)

/-- What both ends of an operation have in common. -/
theorem Machine.Balanced.finish (entry : Entry policy) (hscheduler : machine'.scheduler = left)
    (hledger : machine'.ledger = ledger) (haccounts : left.Agrees ledger)
    (hslots : left.activeWorkerSlots = machine.scheduler.activeWorkerSlots - entry.workerSlots)
    (hadmission : left.activeAdmissionWorkingSetEstimateBytes =
      machine.scheduler.activeAdmissionWorkingSetEstimateBytes -
        entry.admissionWorkingSetEstimateBytes)
    (hcount : left.requestCount = machine.scheduler.requestCount)
    (hentries : ledger.entries.Perm machine.ledger.entries)
    (hbegun : ledger.begun.Perm machine.ledger.begun)
    (hstarted : machine'.started = machine.started) : machine'.Balanced := by
  have hslotsBefore := hbalanced.workerSlots_le
  have hadmissionBefore := hbalanced.admission_le
  refine .of_ledger hscheduler hstarted hledger haccounts ?_ ?_ ?_
    (hbalanced.started.trans hbegun.symm)
  · omega
  · omega
  · rw [hcount]
    exact (hentries.map _).trans hbalanced.places

theorem Machine.Balanced.complete {entry : Entry policy}
    (hactive : machine.active.Perm (entry :: machine'.active))
    (hscheduler : machine'.scheduler = (machine.scheduler.complete entry).release entry)
    (hsettled : machine'.settled = machine.settled ++ [(entry, .completed)])
    (hstarted : machine'.started = machine.started) : machine'.Balanced := by
  have hledger : machine'.ledger = machine.ledger.complete entry machine'.active := by
    simp [Machine.ledger, Ledger.complete, hscheduler, hsettled, completedEntry, failedEntry,
      droppedEntry, Scheduler.complete, Scheduler.release, Scheduler.updateStats]
  exact hbalanced.finish entry hscheduler hledger (hbalanced.accounts.complete hactive) rfl rfl rfl
    (Ledger.entries_complete hactive) (Ledger.begun_complete hactive) hstarted

theorem Machine.Balanced.fail {entry : Entry policy} {error : Failure}
    (hactive : machine.active.Perm (entry :: machine'.active))
    (hscheduler : machine'.scheduler = (machine.scheduler.recordFailure entry error).release entry)
    (hsettled : machine'.settled = machine.settled ++ [(entry, .failed error)])
    (hstarted : machine'.started = machine.started) : machine'.Balanced := by
  have hledger : machine'.ledger = machine.ledger.fail entry machine'.active := by
    simp [Machine.ledger, Ledger.fail, hscheduler, hsettled, completedEntry, failedEntry,
      droppedEntry, Scheduler.recordFailure, Scheduler.release, Scheduler.updateStats]
  exact hbalanced.finish entry hscheduler hledger (hbalanced.accounts.fail hactive) rfl rfl rfl
    (Ledger.entries_fail hactive) (Ledger.begun_fail hactive) hstarted

end

theorem Scheduler.dropQueue_eq (scheduler : Scheduler policy Failure) :
    scheduler.dropQueue = { scheduler with
      queue := []
      stageStats := scheduler.dropQueue.stageStats
      classStats := scheduler.dropQueue.classStats } := by
  rw [Scheduler.dropQueue, foldl_drop]

theorem Machine.Balanced.drop {error : Failure} (hbalanced : machine.Balanced)
    (hscheduler : machine'.scheduler = machine.scheduler.dropQueue)
    (hactive : machine'.active = machine.active) (hsettled : machine'.settled =
      machine.settled ++ machine.scheduler.queue.map (fun entry => (entry, .dropped error)))
    (hstarted : machine'.started = machine.started) : machine'.Balanced := by
  obtain ⟨hcompleted, hfailed, hdropped⟩ := filterMap_dropped error machine.scheduler.queue
  have hledger : machine'.ledger = machine.ledger.dropQueue := by
    rw [Machine.ledger, hscheduler, hsettled, hactive, Scheduler.dropQueue_eq]
    simp only [filterMap_append, hcompleted, hfailed, hdropped, List.append_nil]
    rfl
  have hdrop := machine.scheduler.dropQueue_eq
  refine .of_ledger hscheduler hstarted hledger hbalanced.accounts.dropQueue ?_ ?_ ?_
    hbalanced.started
  · rw [hdrop]
    exact hbalanced.workerSlots_le
  · rw [hdrop]
    exact hbalanced.admission_le
  · rw [hdrop]
    exact (Ledger.entries_dropQueue.map _).trans hbalanced.places

theorem Machine.Balanced.blocked {head : Option ℕ} {slots : ℕ} (hbalanced : machine.Balanced)
    (hscheduler : machine'.scheduler =
      { machine.scheduler with backfilledHead := head, backfilledWorkerSlots := slots })
    (hactive : machine'.active = machine.active) (hsettled : machine'.settled = machine.settled)
    (hstarted : machine'.started = machine.started) : machine'.Balanced := by
  have hledger : machine'.ledger = machine.ledger := by
    simp only [Machine.ledger, hscheduler, hsettled, hactive]
  exact .of_ledger hscheduler hstarted hledger hbalanced.accounts.backfill
    hbalanced.workerSlots_le hbalanced.admission_le hbalanced.places hbalanced.started

theorem Machine.Balanced.step (hbalanced : machine.Balanced) (hstep : Step machine machine') :
    machine'.Balanced := by
  cases hstep.changes with
  | same hscheduler hactive hsettled hstarted =>
    exact hbalanced.same hscheduler hactive hsettled hstarted
  | blocked _ _ hscheduler hactive hsettled hstarted =>
    exact hbalanced.blocked hscheduler hactive hsettled hstarted
  | enqueue hid _ hscheduler hactive hsettled hstarted =>
    exact hbalanced.enqueue hid hscheduler hactive hsettled hstarted
  | start _ _ hdequeues hscheduler hactive hsettled hstarted =>
    exact hbalanced.start hdequeues hscheduler hactive hsettled hstarted
  | complete hactive hscheduler hsettled hstarted =>
    exact hbalanced.complete hactive hscheduler hsettled hstarted
  | fail hactive hscheduler hsettled hstarted =>
    exact hbalanced.fail hactive hscheduler hsettled hstarted
  | drop _ hscheduler hactive hsettled hstarted =>
    exact hbalanced.drop hscheduler hactive hsettled hstarted

end Balance

end ConvexWasm.LaunchScheduler
