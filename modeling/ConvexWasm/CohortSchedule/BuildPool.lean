import ConvexWasm.Core.TransitionSystem

/-!
# The pool of cohort builds

A bounded number of workers share a cursor into the cohorts of a schedule, an
array of results and a slot for the first error.  A worker runs from its start,
or from the settlement of the build it awaits, to the next `await` without
interruption.  A settled promise only queues its worker, so other workers may
run between the settlement of a build and the moment its worker learns of it.
-/

namespace ConvexWasm.CohortSchedule

variable {Cohort Result Error : Type*}

/-- The part of an authenticated schedule that the pool reads. -/
structure BuildSchedule (Cohort : Type*) where
  cohorts : List Cohort
  identitySha256 : String

/-- The argument of `build` -/
structure BuildRequest (Cohort : Type*) where
  cohort : Cohort
  cohortIndex : ℕ
  scheduleIdentity : String

/-- What can be observed of the builds.  `caught` is the moment at which a
worker learns of a failure. -/
inductive Event (Cohort Result Error : Type*)
  | started (request : BuildRequest Cohort)
  | completed (index : ℕ) (result : Result)
  | rejected (index : ℕ) (error : Error)
  | threw (index : ℕ) (error : Error)
  | caught (error : Error)

structure Pool (Cohort Result Error : Type*) where
  toLaunch : ℕ
  /-- builds that have not settled -/
  pending : List ℕ
  /-- settled builds whose workers have not resumed, in the order of settlement -/
  settled : List (ℕ × Except Error Result)
  returned : ℕ
  nextIndex : ℕ
  failed : Bool
  firstError : Option Error
  results : List (Option Result)
  outcome : Option (Except (Option Error) (List (Option Result)))
  history : List (Event Cohort Result Error)

/-- A call of `build` returns a promise or throws. -/
inductive Call (Error : Type*)
  | promise
  | throws (error : Error)

inductive Action (Result Error : Type*)
  | launch (call : Call Error)
  | settle (index : ℕ) (outcome : Except Error Result)
  | deliver (call : Call Error)
  | finish

def maximumSafeInteger : ℕ := 2 ^ 53 - 1

/-- The workers that `Array.from` creates. -/
def workerCount (schedule : BuildSchedule Cohort) (concurrency : ℕ) : ℕ :=
  min concurrency schedule.cohorts.length

def start (authenticated : Bool) (concurrency : ℕ) (schedule : BuildSchedule Cohort) :
    Except String (Pool Cohort Result Error) :=
  if concurrency = 0 ∨ maximumSafeInteger < concurrency then
    .error ("Convex Wasm official-output cohort schedule: " ++
      "cohort build concurrency must be a positive safe integer")
  else if ¬ authenticated then
    .error ("Convex Wasm official-output cohort schedule: " ++
      "cohort build requires a schedule authenticated by this module")
  else
    .ok {
      toLaunch := workerCount schedule concurrency
      pending := []
      settled := []
      returned := 0
      nextIndex := 0
      failed := false
      firstError := none
      results := List.replicate schedule.cohorts.length none
      outcome := none
      history := [] }

namespace Pool

variable (pool : Pool Cohort Result Error)

def record (event : Event Cohort Result Error) : Pool Cohort Result Error :=
  { pool with history := pool.history ++ [event] }

/-- `catch (error)`: the worker returns. -/
def catchError (error : Error) : Pool Cohort Result Error :=
  { pool with
    failed := true
    firstError := if pool.failed then pool.firstError else some error
    returned := pool.returned + 1
    history := pool.history ++ [.caught error] }

def retire : Pool Cohort Result Error :=
  { pool with returned := pool.returned + 1 }

/-- One turn of the loop of a worker, up to its `await` or its return. -/
def proceed (schedule : BuildSchedule Cohort) (call : Call Error)
    (pool : Pool Cohort Result Error) : Pool Cohort Result Error :=
  if pool.failed then pool.retire
  else
    let index := pool.nextIndex
    let pool := { pool with nextIndex := index + 1 }
    match schedule.cohorts[index]? with
    | none => pool.retire
    | some cohort =>
      let pool := pool.record (.started ⟨cohort, index, schedule.identitySha256⟩)
      match call with
      | .promise => { pool with pending := pool.pending ++ [index] }
      | .throws error => (pool.record (.threw index error)).catchError error

def settlement (index : ℕ) : Except Error Result → Event Cohort Result Error
  | .ok result => .completed index result
  | .error error => .rejected index error

/-- The settlement of a build that a worker awaits. -/
def settle (index : ℕ) (outcome : Except Error Result) : Pool Cohort Result Error :=
  { pool with
    pending := pool.pending.erase index
    settled := pool.settled ++ [(index, outcome)]
    history := pool.history ++ [settlement index outcome] }

end Pool

/-- Workers are launched one after another without interruption; afterwards the
queued workers resume in order.  The pool settles when all workers returned. -/
def step (schedule : BuildSchedule Cohort) (concurrency : ℕ) :
    Action Result Error → Pool Cohort Result Error → Option (Pool Cohort Result Error)
  | .launch call, pool =>
    if pool.toLaunch = 0 then none
    else some ({ pool with toLaunch := pool.toLaunch - 1 }.proceed schedule call)
  | .settle index outcome, pool =>
    if index ∈ pool.pending then some (pool.settle index outcome) else none
  | .deliver call, pool =>
    if pool.toLaunch ≠ 0 then none
    else
      match pool.settled with
      | [] => none
      | (index, .ok result) :: rest =>
        some ({ pool with
          settled := rest
          results := pool.results.set index (some result) }.proceed schedule call)
      | (_, .error error) :: rest => some ({ pool with settled := rest }.catchError error)
  | .finish, pool =>
    if pool.returned = workerCount schedule concurrency ∧ pool.outcome.isNone then
      some { pool with
        outcome := some (if pool.failed then .error pool.firstError else .ok pool.results) }
    else none

/-- The pools that a call can lead to, whatever the builds do. -/
def Reaches (authenticated : Bool) (concurrency : ℕ) (schedule : BuildSchedule Cohort) :
    Pool Cohort Result Error → Prop :=
  TransitionSystem.Reachable (fun pool => start authenticated concurrency schedule = .ok pool)
    fun pool pool' => ∃ action, step schedule concurrency action pool = some pool'

variable (history : List (Event Cohort Result Error))

/-- The indices of the builds that were started. -/
def startedIndices : List ℕ :=
  history.filterMap fun event =>
    match event with
    | .started request => some request.cohortIndex
    | _ => none

/-- The indices of the builds that have completed or failed. -/
def settledIndices : List ℕ :=
  history.filterMap fun event =>
    match event with
    | .completed index _ => some index
    | .rejected index _ => some index
    | .threw index _ => some index
    | _ => none

def inFlight : List ℕ :=
  (startedIndices history).filter fun index => index ∉ settledIndices history

/-- The failures in the order of time. -/
def failures (history : List (Event Cohort Result Error)) : List Error :=
  history.filterMap fun event =>
    match event with
    | .rejected _ error => some error
    | .threw _ error => some error
    | _ => none

/-- The failures in the order in which workers learn of them. -/
def caughtErrors : List Error :=
  history.filterMap fun event =>
    match event with
    | .caught error => some error
    | _ => none

/-- No call of `build` throws; an asynchronous function never does. -/
def Asynchronous : Prop :=
  ∀ index error, .threw index error ∉ history

end ConvexWasm.CohortSchedule
