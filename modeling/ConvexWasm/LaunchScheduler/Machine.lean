import ConvexWasm.Core.TakeFirst
import ConvexWasm.LaunchScheduler.Policy

/-!
# The native launch scheduler

Requests wait in a queue until the worker slots and the memory of the policy leave
room for them.  An operation that is being started may itself call `run` or throw,
so that the loops that drain the queue are kept on a stack.
-/

namespace ConvexWasm.LaunchScheduler

variable {policy : LaunchPolicy} {Failure : Type}

/-- The counters of a stage or of a scheduling class. -/
structure Stat where
  requestCount : ℤ := 0
  queuedCount : ℤ := 0
  maximumQueuedCount : ℤ := 0
  activeCount : ℤ := 0
  activeWorkingSetEstimateBytes : ℤ := 0
  maximumActiveCount : ℤ := 0
  maximumEstimatedWorkingSetBytes : ℤ := 0
  completedCount : ℤ := 0
  failedCount : ℤ := 0
  deriving DecidableEq

def Stat.request (stat : Stat) : Stat :=
  { stat with
    requestCount := stat.requestCount + 1
    queuedCount := stat.queuedCount + 1
    maximumQueuedCount := max stat.maximumQueuedCount (stat.queuedCount + 1) }

def Stat.activate (bytes : ℕ) (stat : Stat) : Stat :=
  { stat with
    activeCount := stat.activeCount + 1
    activeWorkingSetEstimateBytes := stat.activeWorkingSetEstimateBytes + bytes
    queuedCount := stat.queuedCount - 1
    maximumActiveCount := max stat.maximumActiveCount (stat.activeCount + 1)
    maximumEstimatedWorkingSetBytes :=
      max stat.maximumEstimatedWorkingSetBytes (stat.activeWorkingSetEstimateBytes + bytes) }

def Stat.drop (stat : Stat) : Stat :=
  { stat with queuedCount := stat.queuedCount - 1 }

def Stat.complete (stat : Stat) : Stat :=
  { stat with completedCount := stat.completedCount + 1 }

def Stat.recordFailure (stat : Stat) : Stat :=
  { stat with failedCount := stat.failedCount + 1 }

def Stat.release (bytes : ℕ) (stat : Stat) : Stat :=
  { stat with
    activeCount := stat.activeCount - 1
    activeWorkingSetEstimateBytes := stat.activeWorkingSetEstimateBytes - bytes }

def updateStat (label : Entry policy → String) (stats : String → Stat) (entry : Entry policy)
    (update : Stat → Stat) : String → Stat :=
  Function.update stats (label entry) (update (stats (label entry)))

section Scheduler

structure Scheduler (policy : LaunchPolicy) (Failure : Type) where
  queue : List (Entry policy) := []
  activeCount : ℤ := 0
  activeAdmissionWorkingSetEstimateBytes : ℤ := 0
  activeWorkerSlots : ℤ := 0
  activeWorkingSetEstimateBytes : ℤ := 0
  completedCount : ℕ := 0
  failedCount : ℕ := 0
  requestCount : ℕ := 0
  maximumActiveCount : ℤ := 0
  maximumActiveWorkerSlots : ℤ := 0
  maximumEstimatedWorkingSetBytes : ℤ := 0
  maximumQueuedCount : ℕ := 0
  schedulingFailure : Option Failure := none
  backfilledHead : Option ℕ := none
  backfilledWorkerSlots : ℕ := 0
  stageStats : String → Stat := fun _ => {}
  classStats : String → Stat := fun _ => {}

variable (scheduler : Scheduler policy Failure)

def Scheduler.updateStats (entry : Entry policy) (update : Stat → Stat) :
    Scheduler policy Failure :=
  { scheduler with
    stageStats := updateStat (·.stage) scheduler.stageStats entry update
    classStats := updateStat (·.schedulingClass) scheduler.classStats entry update }

def Scheduler.canAdmit (entry : Entry policy) : Bool :=
  scheduler.activeWorkerSlots + entry.workerSlots ≤ policy.jobs &&
    scheduler.activeAdmissionWorkingSetEstimateBytes + entry.admissionWorkingSetEstimateBytes ≤
      policy.aggregateMemoryMaxBytes

/-- The next entry and what is left, or nothing for a blocked head that no later
entry may pass. -/
def Scheduler.dequeueNextAdmissible : Option (Entry policy) × Scheduler policy Failure :=
  match scheduler.queue with
  | [] => (none, scheduler)
  | head :: later =>
    if scheduler.canAdmit head then
      (some head,
        if scheduler.backfilledHead = some head.id then
          { scheduler with queue := later, backfilledHead := none, backfilledWorkerSlots := 0 }
        else { scheduler with queue := later })
    else
      let backfilled := if scheduler.backfilledHead = some head.id then
        scheduler.backfilledWorkerSlots else 0
      let fits := fun entry : Entry policy =>
        (entry.workerSlots : ℤ) ≤ policy.jobs - 1 - backfilled && scheduler.canAdmit entry
      match takeFirst fits later with
      | none =>
        (none, { scheduler with
          backfilledHead := some head.id, backfilledWorkerSlots := backfilled })
      | some (entry, rest) =>
        (some entry, { scheduler with
          queue := head :: rest
          backfilledHead := some head.id
          backfilledWorkerSlots := backfilled + entry.workerSlots })

/-- The counters when an operation is about to be started. -/
def Scheduler.activate (entry : Entry policy) : Scheduler policy Failure :=
  let active := scheduler.activeCount + 1
  let slots := scheduler.activeWorkerSlots + entry.workerSlots
  let bytes := scheduler.activeWorkingSetEstimateBytes + entry.workingSetEstimateBytes
  { scheduler with
    activeAdmissionWorkingSetEstimateBytes :=
      scheduler.activeAdmissionWorkingSetEstimateBytes + entry.admissionWorkingSetEstimateBytes
    activeWorkingSetEstimateBytes := bytes
    activeCount := active
    activeWorkerSlots := slots
    maximumActiveCount := max scheduler.maximumActiveCount active
    maximumActiveWorkerSlots := max scheduler.maximumActiveWorkerSlots slots
    maximumEstimatedWorkingSetBytes := max scheduler.maximumEstimatedWorkingSetBytes bytes
    : Scheduler policy Failure }.updateStats entry (Stat.activate entry.workingSetEstimateBytes)

/-- The counters after an operation, whatever came of it. -/
def Scheduler.release (entry : Entry policy) : Scheduler policy Failure :=
  { scheduler with
    activeAdmissionWorkingSetEstimateBytes :=
      scheduler.activeAdmissionWorkingSetEstimateBytes - entry.admissionWorkingSetEstimateBytes
    activeWorkingSetEstimateBytes :=
      scheduler.activeWorkingSetEstimateBytes - entry.workingSetEstimateBytes
    activeCount := scheduler.activeCount - 1
    activeWorkerSlots := scheduler.activeWorkerSlots - entry.workerSlots
    : Scheduler policy Failure }.updateStats entry (Stat.release entry.workingSetEstimateBytes)

def Scheduler.complete (entry : Entry policy) : Scheduler policy Failure :=
  { scheduler with completedCount := scheduler.completedCount + 1
    : Scheduler policy Failure }.updateStats entry Stat.complete

/-- The first failure that closes the admission is kept. -/
def Scheduler.recordFailure (entry : Entry policy) (error : Failure) : Scheduler policy Failure :=
  { scheduler with
    failedCount := scheduler.failedCount + 1
    schedulingFailure :=
      if entry.failureClosesAdmission && scheduler.schedulingFailure.isNone then some error
      else scheduler.schedulingFailure
    : Scheduler policy Failure }.updateStats entry Stat.recordFailure

def Scheduler.enqueue (entry : Entry policy) : Scheduler policy Failure :=
  let counted := { scheduler with requestCount := scheduler.requestCount + 1
    : Scheduler policy Failure }.updateStats entry Stat.request
  { counted with
    queue := counted.queue ++ [entry]
    maximumQueuedCount := max counted.maximumQueuedCount (counted.queue.length + 1) }

/-- All entries are taken out of the queue. -/
def Scheduler.dropQueue : Scheduler policy Failure :=
  scheduler.queue.foldl (fun dropped entry => dropped.updateStats entry Stat.drop)
    { scheduler with queue := [] }

end Scheduler

section Machine

/-- What a promise was settled with. -/
inductive Outcome (Failure : Type)
  | completed
  | failed (error : Failure)
  | dropped (error : Failure)

/-- A call in progress: `drain` about to look at the failure, the loop of `drain`,
or the operation of an entry up to where it first waits. -/
inductive Frame (policy : LaunchPolicy)
  | enter
  | loop
  | operation (entry : Entry policy)

/-- An operation that was started, with the head of the queue at that time. -/
structure Start (policy : LaunchPolicy) where
  entry : Entry policy
  head : ℕ
  headBlocked : Bool

/-- The scheduler with what goes on around it: the calls in progress, the
operations that are waited for, and the history of starts and settlements. -/
structure Machine (policy : LaunchPolicy) (Failure : Type) where
  scheduler : Scheduler policy Failure := {}
  stack : List (Frame policy) := []
  pending : List (Entry policy) := []
  settled : List (Entry policy × Outcome Failure) := []
  started : List (Start policy) := []

variable (machine : Machine policy Failure)

/-- `run`, up to its call of `drain`. -/
def Machine.run (request : Request) : Machine policy Failure :=
  match checkRequest policy request with
  | .error _ => machine
  | .ok prepare =>
    if machine.scheduler.schedulingFailure.isSome then machine
    else
      { machine with
        scheduler := machine.scheduler.enqueue (prepare machine.scheduler.requestCount)
        stack := .enter :: machine.stack }

/-- One turn of `drain`. -/
def Machine.drain : Machine policy Failure :=
  match machine.stack with
  | .enter :: rest =>
    match machine.scheduler.schedulingFailure with
    | some error =>
      { machine with
        scheduler := machine.scheduler.dropQueue
        settled := machine.settled ++
          machine.scheduler.queue.map fun entry => (entry, .dropped error)
        stack := rest }
    | none => { machine with stack := .loop :: rest }
  | .loop :: rest =>
    match machine.scheduler.queue with
    | [] => { machine with stack := rest }
    | head :: _ =>
      match machine.scheduler.dequeueNextAdmissible with
      | (none, left) => { machine with scheduler := left, stack := rest }
      | (some entry, left) =>
        { machine with
          scheduler := left.activate entry
          stack := .operation entry :: .loop :: rest
          started := machine.started ++
            [{ entry, head := head.id
               headBlocked := !machine.scheduler.canAdmit head }] }
  | _ => machine

/-- An operation failed; `drain` is called at the end. -/
def Machine.fail (entry : Entry policy) (error : Failure) : Machine policy Failure :=
  { machine with
    scheduler := (machine.scheduler.recordFailure entry error).release entry
    settled := machine.settled ++ [(entry, .failed error)]
    stack := .enter :: machine.stack }

/-- An operation returned its timing; `drain` is called at the end. -/
def Machine.complete (entry : Entry policy) : Machine policy Failure :=
  { machine with
    scheduler := (machine.scheduler.complete entry).release entry
    settled := machine.settled ++ [(entry, .completed)]
    stack := .enter :: machine.stack }

/-- What may happen next.  Code outside the scheduler runs when nothing is in
progress or while an operation is being started. -/
inductive Step : Machine policy Failure → Machine policy Failure → Prop
  | call {machine : Machine policy Failure} (request : Request) :
      machine.stack = [] → Step machine (machine.run request)
  | nestedCall {machine : Machine policy Failure} {entry : Entry policy}
      {rest : List (Frame policy)} (request : Request) :
      machine.stack = .operation entry :: rest → Step machine (machine.run request)
  | enter {machine : Machine policy Failure} {rest : List (Frame policy)} :
      machine.stack = .enter :: rest → Step machine machine.drain
  | loop {machine : Machine policy Failure} {rest : List (Frame policy)} :
      machine.stack = .loop :: rest → Step machine machine.drain
  | wait {machine : Machine policy Failure} {entry : Entry policy} {rest : List (Frame policy)} :
      machine.stack = .operation entry :: rest →
        Step machine { machine with stack := rest, pending := entry :: machine.pending }
  | throw {machine : Machine policy Failure} {entry : Entry policy} {rest : List (Frame policy)}
      (error : Failure) : machine.stack = .operation entry :: rest →
        Step machine ({ machine with stack := rest : Machine policy Failure }.fail entry error)
  | resolve {machine : Machine policy Failure} {entry : Entry policy}
      {before after : List (Entry policy)} :
      machine.stack = [] → machine.pending = before ++ entry :: after →
        Step machine
          ({ machine with pending := before ++ after : Machine policy Failure }.complete entry)
  | reject {machine : Machine policy Failure} {entry : Entry policy}
      {before after : List (Entry policy)} (error : Failure) :
      machine.stack = [] → machine.pending = before ++ entry :: after →
        Step machine
          ({ machine with pending := before ++ after : Machine policy Failure }.fail entry error)

end Machine

end ConvexWasm.LaunchScheduler
