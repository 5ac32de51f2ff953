import ConvexWasm.Core.Fallible

/-!
# Requests of the native launch scheduler

A request names a stage and the worker slots and the memory that its operation is
expected to take.  What is admitted to the queue fits an empty scheduler.
-/

namespace ConvexWasm.LaunchScheduler

open Fallible

def fail {Result : Type} (message : String) : Except String Result :=
  .error ("Convex Wasm artifact pipeline: " ++ message)

def maxSafeInteger : ℤ := 2 ^ 53 - 1

def requirePositiveInteger (value : ℤ) (description : String) : Except String ℕ+ :=
  if hrange : maxSafeInteger < value ∨ value ≤ 0 then
    fail (description ++ " must be a positive safe integer")
  else .ok ⟨value.toNat, by omega⟩

section Stages

def mebibyte : ℕ := 1024 * 1024

def aotMinimumWorkingSetEstimateBytes : ℕ := 512 * mebibyte

def generatedCFallbackWorkingSetEstimateBytes : ℕ := 1024 * mebibyte

structure StagePolicy where
  schedulingClass : String
  workingSetEstimateBytes : ℕ
  deriving DecidableEq

def nativePhaseSchedulingStages : List (String × StagePolicy) :=
  [ ("capability-bridge-generated-c", ⟨"generated-c", 1024 * mebibyte⟩),
    ("capability-bridge-object", ⟨"object", 512 * mebibyte⟩),
    ("cohort-selector-object", ⟨"object", 256 * mebibyte⟩),
    ("console-formatter-generated-c", ⟨"generated-c", 1024 * mebibyte⟩),
    ("console-formatter-object", ⟨"object", 256 * mebibyte⟩),
    ("core-wasm", ⟨"link", 1024 * mebibyte⟩),
    ("export-object", ⟨"object", 2048 * mebibyte⟩),
    ("module-graph-application-pic-object", ⟨"object", 512 * mebibyte⟩),
    ("static-hermes-runtime-prelude-pch", ⟨"object", 512 * mebibyte⟩),
    ("module-graph-support-object", ⟨"object", 512 * mebibyte⟩),
    ("generated-c", ⟨"generated-c", 1024 * mebibyte⟩),
    ("c-optimization-level-zero-c-bundle-member-object",
      ⟨"c-optimization-level-zero-object", 1024 * mebibyte⟩),
    ("runtime-main-object", ⟨"object", 256 * mebibyte⟩),
    ("wasmtime-aot", ⟨"aot", 512 * mebibyte⟩),
    ("core-wasm-normalization", ⟨"core-wasm-normalization", 1024 * mebibyte⟩),
    ("module-graph-common-wasmtime-aot",
      ⟨"module-graph-common-wasmtime-aot", aotMinimumWorkingSetEstimateBytes⟩),
    ("module-graph-shared-wasmtime-aot",
      ⟨"module-graph-shared-wasmtime-aot", aotMinimumWorkingSetEstimateBytes⟩),
    ("module-graph-leaf-wasmtime-aot",
      ⟨"module-graph-leaf-wasmtime-aot", aotMinimumWorkingSetEstimateBytes⟩) ]

def StagePolicy.isAot (stagePolicy : StagePolicy) : Bool :=
  "aot".toList.isSuffixOf stagePolicy.schedulingClass.toList

def defaultStageWorkingSetEstimateBytes (stagePolicy : StagePolicy) : ℕ :=
  if stagePolicy.schedulingClass = "generated-c" then generatedCFallbackWorkingSetEstimateBytes
  else stagePolicy.workingSetEstimateBytes

def effectiveNativePhaseWorkerSlots (stagePolicy : StagePolicy) (requestedWorkerSlots : ℕ)
    (inputWorkingSetEstimateBytes : Option ℕ) : ℕ :=
  match inputWorkingSetEstimateBytes with
  | none => requestedWorkerSlots
  | some estimate =>
    if stagePolicy.isAot then
      min requestedWorkerSlots
        (max 1 ((estimate + aotMinimumWorkingSetEstimateBytes - 1) /
          aotMinimumWorkingSetEstimateBytes))
    else requestedWorkerSlots

variable {stagePolicy : StagePolicy} {requested : ℕ} {estimate : Option ℕ}

theorem effectiveNativePhaseWorkerSlots_pos (hpos : 0 < requested) :
    0 < effectiveNativePhaseWorkerSlots stagePolicy requested estimate := by
  cases estimate with
  | none => exact hpos
  | some bytes =>
    simp only [effectiveNativePhaseWorkerSlots]
    split
    · exact lt_min hpos (lt_of_lt_of_le Nat.one_pos (le_max_left _ _))
    · exact hpos

/-- Fewer slots may be charged than were asked for, never more. -/
theorem effectiveNativePhaseWorkerSlots_le :
    effectiveNativePhaseWorkerSlots stagePolicy requested estimate ≤ requested := by
  cases estimate with
  | none => exact le_rfl
  | some bytes =>
    simp only [effectiveNativePhaseWorkerSlots]
    split
    · exact min_le_left _ _
    · exact le_rfl

end Stages

section Requests

structure LaunchPolicy where
  aggregateMemoryMaxBytes : ℕ
  aotWorkers : ℕ
  jobs : ℕ
  aggregateMemoryMaxBytes_pos : 0 < aggregateMemoryMaxBytes
  jobs_pos : 0 < jobs
  aotWorkers_le : aotWorkers ≤ jobs

/-- The arguments of `run`, but for the operation. -/
structure Request where
  stage : String
  failureClosesAdmission : Bool
  workerSlots : ℤ
  workingSetEstimateBytes : Option ℤ
  deriving DecidableEq

/-- What `run` puts into the queue.  An entry is told apart by its number. -/
structure Entry (policy : LaunchPolicy) where
  id : ℕ
  stage : String
  schedulingClass : String
  failureClosesAdmission : Bool
  workerSlots : ℕ
  admissionWorkingSetEstimateBytes : ℕ
  workingSetEstimateBytes : ℕ
  workerSlots_pos : 0 < workerSlots
  workerSlots_le : workerSlots ≤ policy.jobs
  admission_le : admissionWorkingSetEstimateBytes ≤ policy.aggregateMemoryMaxBytes

def requireEstimate : Option ℤ → Except String (Option ℕ)
  | none => .ok none
  | some estimate =>
    (requirePositiveInteger estimate "native-phase scheduling working-set estimate").map
      fun bytes => some bytes.val

variable (policy : LaunchPolicy)

/-- An estimate over the budget is charged as the whole budget, so that it runs
alone. -/
def prepareEntry (request : Request) (stagePolicy : StagePolicy) (workerSlots : ℕ+)
    (estimate : Option ℕ) (hjobs : workerSlots ≤ policy.jobs) (id : ℕ) : Entry policy where
  id := id
  stage := request.stage
  schedulingClass := stagePolicy.schedulingClass
  failureClosesAdmission := request.failureClosesAdmission
  workerSlots := effectiveNativePhaseWorkerSlots stagePolicy workerSlots estimate
  admissionWorkingSetEstimateBytes :=
    min (estimate.getD (defaultStageWorkingSetEstimateBytes stagePolicy))
      policy.aggregateMemoryMaxBytes
  workingSetEstimateBytes := estimate.getD (defaultStageWorkingSetEstimateBytes stagePolicy)
  workerSlots_pos := effectiveNativePhaseWorkerSlots_pos workerSlots.pos
  workerSlots_le := effectiveNativePhaseWorkerSlots_le.trans hjobs
  admission_le := min_le_right _ _

/-- The checks of `run`; the entry is numbered when it is accepted. -/
def checkRequest (request : Request) : Except String (ℕ → Entry policy) := do
  if request.stage = "" ∨ Char.ofNat 0 ∈ request.stage.toList then
    fail "native-phase scheduling stage must be a non-empty string without NUL bytes"
  else
    match nativePhaseSchedulingStages.lookup request.stage with
    | none =>
      fail ("native-phase scheduling stage \"" ++ request.stage ++ "\" is unsupported")
    | some stagePolicy => do
        let workerSlots ← requirePositiveInteger request.workerSlots
          "native-phase scheduling worker slots"
        let estimate ← requireEstimate request.workingSetEstimateBytes
        if hjobs : policy.jobs < workerSlots then
          fail ("native-phase scheduling worker slots " ++ toString workerSlots.val ++
            " exceed launch jobs " ++ toString policy.jobs)
        else if stagePolicy.isAot ∧ policy.aotWorkers < workerSlots then
          fail ("native-phase scheduling AOT worker slots " ++ toString workerSlots.val ++
            " exceed configured AOT workers " ++ toString policy.aotWorkers)
        else
          return prepareEntry policy request stagePolicy workerSlots estimate (not_lt.mp hjobs)

end Requests

end ConvexWasm.LaunchScheduler
