import ConvexWasm.Guest.QueryStreams

/-!
# Invocations of a retained runtime

The native runtime prepares an entry, runs handlers on the guest that it
retains, and lets the host maintain its memory in between.  A run calls the
guest bridge, drains the microtasks and settles operations as the host completes
them; whatever fails on the way leads through one cleanup, on the guest and on
the host, and may cost the runtime.
-/

namespace ConvexWasm.Runtime

open SlotTable
open ConvexWasm.Guest (UdfKind)

inductive JSErrorPhase
  | reserveCompileProfileOutput
  | initializeBridgeUnit
  | retainBridgeBootstrap
  | openCompileProfileOutput
  | exposeApplicationBindings
  | initializeApplicationUnit
  | closeCompileProfileOutput
  | clearApplicationBindings
  | installGuestBridge
  | readCapabilityIdentity
  | createInvocationContext
  | readInvocationRequest
  | selectHandler
  | invokeHandler
  | drainInitialMicrotasks
  | readInvocationDone
  | settleOperation
  | drainOperationMicrotasks
  | cleanupInvocation
  | validateCleanupResult
  | readInvocationStatus
  | validateRuntimeSupportInstaller
  | initializeFormatterUnit
  | verifyRuntimeSupportInstallation
  | activateSdkFacade
  | initializeOfficialChunkUnit
  | initializeOfficialEntryPublicationUnit
  | validateIntrinsicDescriptorState
  | validatePreparationAuthority
  | validatePreparationQuiescence
  deriving DecidableEq

def JSErrorPhase.code : JSErrorPhase → ℤ
  | .reserveCompileProfileOutput => 40
  | .initializeBridgeUnit => 41
  | .retainBridgeBootstrap => 42
  | .openCompileProfileOutput => 43
  | .exposeApplicationBindings => 44
  | .initializeApplicationUnit => 45
  | .closeCompileProfileOutput => 46
  | .clearApplicationBindings => 47
  | .installGuestBridge => 48
  | .readCapabilityIdentity => 49
  | .createInvocationContext => 50
  | .readInvocationRequest => 51
  | .selectHandler => 52
  | .invokeHandler => 53
  | .drainInitialMicrotasks => 54
  | .readInvocationDone => 55
  | .settleOperation => 56
  | .drainOperationMicrotasks => 57
  | .cleanupInvocation => 58
  | .validateCleanupResult => 59
  | .readInvocationStatus => 60
  | .validateRuntimeSupportInstaller => 61
  | .initializeFormatterUnit => 62
  | .verifyRuntimeSupportInstallation => 63
  | .activateSdkFacade => 64
  | .initializeOfficialChunkUnit => 65
  | .initializeOfficialEntryPublicationUnit => 66
  | .validateIntrinsicDescriptorState => 67
  | .validatePreparationAuthority => 68
  | .validatePreparationQuiescence => 69

/-- Why a run ends early: the phase of an error, or an invocation failure of
the runtime's own (microtasks that do not drain, a host that does not wait). -/
inductive Failure
  | jsError (phase : JSErrorPhase)
  | undrained
  | noCompletion
  deriving DecidableEq

def Failure.status : Failure → ℤ
  | .jsError phase => phase.code
  | .undrained => 2
  | .noCompletion => 3

/-- The guest that the runtime retains.  An operation has the number in which
it was started, a microtask that of the run that queued it; the guest sees
neither.  `retainedValid` is what the runtime finds when it checks the state
that it retains. -/
structure Guest where
  activeUdfKind : Option UdfKind
  pendingOperations : List (Option ℕ)
  microtasks : List (Option ℕ)
  invocationDone : Bool
  invocationStatus : ℤ
  retainedValid : Bool

/-- The numbers of operations that guest and host have abandoned. -/
structure Abandoned where
  guest : ℕ
  host : ℕ
  deriving DecidableEq

/-- The program counter of `convex_wasm_udf_run`. -/
inductive RunPhase
  | idle
  | activating (kind : UdfKind)
  | requesting
  | invoking
  | draining (initial : Bool)
  | checkingDone
  | waiting
  | settling (handle : ℕ)
  | polling
  | cleaning
  | readingStatus (abandoned : Abandoned)
  | recovering (caught : Failure)
  deriving DecidableEq

/-- A call that has returned to the host. -/
inductive Returned
  | prepare (status : ℤ)
  | run (status : ℤ) (retained : Bool) (abandoned : Option Abandoned)
  | maintenance
  | destroy
  deriving DecidableEq

/-- The runtime and its host.  `history` is what has returned, the latest first. -/
structure State where
  runtime : Option Guest
  outstanding : List (Option ℕ)
  memoryBoundaryReady : Bool
  invocationHasStarted : Bool
  memoryImagePrepared : Bool
  invocationActivated : Bool
  phase : RunPhase
  started : ℕ
  settled : List ℕ
  invocation : ℕ
  history : List Returned

def initialState : State where
  runtime := none
  outstanding := []
  memoryBoundaryReady := false
  invocationHasStarted := false
  memoryImagePrepared := false
  invocationActivated := false
  phase := .idle
  started := 0
  settled := []
  invocation := 0
  history := []

def newGuest : Guest where
  activeUdfKind := none
  pendingOperations := []
  microtasks := []
  invocationDone := false
  invocationStatus := 0
  retainedValid := true

variable (state : State)

/-- `reset_runtime_state` -/
def State.reset : State :=
  { state with
    runtime := none, memoryBoundaryReady := false, invocationHasStarted := false
    memoryImagePrepared := false }

/-- `retained_runtime_state_is_valid` of a runtime that there is. -/
def State.retainedValid (state : State) : Bool :=
  state.runtime.any Guest.retainedValid

/-- A runtime whose retained state is no longer valid is reset. -/
def State.resetIfInvalid : State :=
  if state.retainedValid then state else state.reset

def State.onGuest (change : Guest → Guest) : State :=
  { state with runtime := state.runtime.map change }

def State.returns (state : State) (returned : Returned) : State :=
  { state with
    phase := .idle, invocationActivated := false, history := returned :: state.history }

/-- A run returns; the memory boundary is as the caller has left it. -/
def State.returnsRun (status : ℤ) (abandoned : Option Abandoned) : State :=
  state.returns (.run status state.runtime.isSome abandoned)

/-- What guest code can do to the runtime: start an operation of the host and
register its promise or fail before that, queue a microtask, finish the
invocation, or leave a state that the runtime will not retain. -/
inductive GuestAction
  | start (handle : ℕ) (registers : Bool)
  | enqueue
  | finish (status : ℤ)
  | spoil

variable (guest : Guest)

/-- A slot that is in use is not registered again. -/
def Guest.register (slot operation : ℕ) : Guest :=
  match lookup guest.pendingOperations slot with
  | some _ => guest
  | none => { guest with pendingOperations := put guest.pendingOperations slot operation }

/-- Code of the guest acts; a handle of an outstanding operation is none that
the host starts. -/
def State.perform (origin : Option ℕ) : GuestAction → State
  | .start handle registers =>
    if handle = 0 ∨ (lookup state.outstanding (handle - 1)).isSome then state
    else
      let started : State :=
        { state with
          outstanding := put state.outstanding (handle - 1) state.started
          started := state.started + 1 }
      if registers then started.onGuest (·.register (handle - 1) state.started) else started
  | .enqueue => state.onGuest fun guest =>
    { guest with microtasks := guest.microtasks ++ [origin] }
  | .finish status => state.onGuest fun guest =>
    { guest with invocationDone := true, invocationStatus := status }
  | .spoil => state.onGuest fun guest => { guest with retainedValid := false }

def State.performAll (origin : Option ℕ) (actions : List GuestAction) : State :=
  actions.foldl (fun state action => state.perform origin action) state

/-- `__convexCapabilityCleanup` -/
def Guest.cleanup (guest : Guest) : Guest :=
  { guest with pendingOperations := [], activeUdfKind := none }

/-- A cleanup that throws has cleared the first slots only. -/
def Guest.interruptedCleanup (cleared : ℕ) : Guest :=
  { guest with
    pendingOperations :=
      List.replicate (min cleared guest.pendingOperations.length) none ++
        guest.pendingOperations.drop cleared }

/-- How a preparation goes: whether the selection is valid, whether a runtime
can be created, whether the topology is the declared one, what initialisation
does and where it fails, and what is found at the end. -/
structure Preparation where
  selectionValid : Bool
  created : Bool
  topologyMatches : Bool
  actions : List GuestAction
  failure : Option JSErrorPhase
  entryPrepared : Bool
  capabilityCurrent : Bool

/-- `convex_wasm_udf_prepare_selected_entry` -/
def State.prepare (state : State) (preparation : Preparation) : State :=
  let leased := { state with memoryBoundaryReady := false }
  if ¬preparation.selectionValid then leased.returns (.prepare 8)
  else if leased.runtime.isNone ∧ ¬preparation.created then leased.returns (.prepare 1)
  else if leased.runtime.isSome ∧ ¬(preparation.topologyMatches ∧ leased.retainedValid) then
    leased.reset.returns (.prepare 9)
  else
    let created := { leased with runtime := some (leased.runtime.getD newGuest) }
    let initialized := created.performAll none preparation.actions
    match preparation.failure with
    | some phase => initialized.reset.returns (.prepare phase.code)
    | none =>
      if ¬(preparation.entryPrepared ∧ initialized.retainedValid) then
        initialized.reset.returns (.prepare 9)
      else if preparation.capabilityCurrent then
        initialized.reset.returns (.prepare JSErrorPhase.validatePreparationAuthority.code)
      else
        let cancelled := { initialized with outstanding := [] }
        if occupied initialized.outstanding ≠ 0 then
          cancelled.reset.returns (.prepare JSErrorPhase.validatePreparationQuiescence.code)
        else { cancelled with memoryBoundaryReady := true }.returns (.prepare 0)

/-- A maintenance call: what it is asked for, and what it finds. -/
structure Maintenance where
  operation : ℕ
  argument : ℕ
  capabilityCurrent : Bool
  entriesPrepared : Bool
  collects : Bool

/-- `convex_wasm_udf_memory_maintenance`, if it does not trap. -/
def State.maintain (call : Maintenance) : Option State :=
  if ¬state.memoryBoundaryReady ∨ state.runtime.isNone ∨ 6 < call.operation ∨
      (call.operation = 5 ∧ call.argument = 0) ∨
      (call.operation ≠ 1 ∧ call.operation ≠ 3 ∧ call.operation ≠ 5 ∧ call.argument ≠ 0) ∨
      ¬call.collects then none
  else if call.operation = 0 then
    if state.invocationHasStarted ∨ call.capabilityCurrent ∨ ¬call.entriesPrepared then none
    else some ({ state with memoryImagePrepared := true }.returns .maintenance)
  else if ¬state.memoryImagePrepared then none
  else some (state.returns .maintenance)

/-- `convex_wasm_udf_destroy_runtime` -/
def State.destroy (state : State) : State :=
  state.reset.returns .destroy

/-- How a run begins: what the selection and the topology are, whether the
entry is prepared and whether the host has a capability for it. -/
structure Selection where
  valid : Bool
  topologyMatches : Bool
  entryPrepared : Bool
  capabilityCurrent : Bool
  kind : UdfKind

/-- `convex_wasm_udf_run` up to the first call of the bridge. -/
def State.beginRun (selection : Selection) : State :=
  let leased := { state with memoryBoundaryReady := false }
  if ¬selection.valid then leased.returnsRun 8 none
  else if ¬(leased.retainedValid ∧ selection.topologyMatches ∧ selection.entryPrepared) then
    (if leased.runtime.isSome then leased.reset else leased).returnsRun 9 none
  else
    let begun :=
      { leased with invocationHasStarted := true, invocation := leased.invocation + 1 }
    if selection.capabilityCurrent then { begun with phase := .activating selection.kind }
    else begun.returnsRun 7 none

/-- An error is caught: an activated invocation is cleaned up first. -/
def State.fail (failure : Failure) : State :=
  if state.invocationActivated then { state with phase := .recovering failure }
  else state.resetIfInvalid.returnsRun failure.status none

/-- `convex_async_operation_cancel_all` -/
def State.cancelAll : State :=
  { state with outstanding := [] }

/-- The cleanup of a run that has not failed. -/
def State.cleanUp : State :=
  let abandoned : Abandoned := ⟨occupied guest.pendingOperations, occupied state.outstanding⟩
  let cleaned := { state.onGuest Guest.cleanup with invocationActivated := false }.cancelAll
  if abandoned.host ≠ abandoned.guest then
    cleaned.resetIfInvalid.returnsRun 6 (some abandoned)
  else { cleaned with phase := .readingStatus abandoned }

/-- The cleanup of a run that has failed. -/
def State.recover (caught : Failure) : State :=
  let abandoned : Abandoned := ⟨occupied guest.pendingOperations, occupied state.outstanding⟩
  let cleaned := (state.onGuest Guest.cleanup).cancelAll
  if abandoned.host ≠ abandoned.guest then cleaned.reset.returnsRun 6 (some abandoned)
  else cleaned.resetIfInvalid.returnsRun caught.status (some abandoned)

/-- The status of a finished invocation is returned. -/
def State.report (abandoned : Abandoned) : State :=
  let checked := state.resetIfInvalid
  { checked with
    memoryBoundaryReady := decide (guest.invocationStatus = 0) && checked.runtime.isSome
  }.returnsRun guest.invocationStatus (some abandoned)

/-- A call of the host, or the next thing that happens in a run: the bridge,
the guest or the host returns or fails. -/
inductive Event
  | prepare (preparation : Preparation)
  | beginRun (selection : Selection)
  | maintain (call : Maintenance)
  | destroy
  | returned
  | failed (failure : Failure)
  | act (action : GuestAction)
  | microtask (actions : List GuestAction)
  | completed (handle : ℕ)
  | settled (reactions : ℕ)
  | noneReady
  | interrupted (cleared : ℕ)

/-- The errors that a phase of a run can end with. -/
def RunPhase.canFail : RunPhase → Failure → Bool
  | .activating _, failure => failure == .jsError .activateSdkFacade
  | .requesting, failure =>
    failure == .jsError .readInvocationRequest || failure == .jsError .selectHandler ||
      failure == .jsError .createInvocationContext
  | .invoking, failure => failure == .jsError .invokeHandler
  | .draining initial, failure =>
    failure == .undrained ||
      failure == .jsError (if initial then .drainInitialMicrotasks else .drainOperationMicrotasks)
  | .checkingDone, failure => failure == .jsError .readInvocationDone
  | .waiting, failure | .polling, failure => failure == .noCompletion
  | .settling _, failure => failure == .jsError .settleOperation
  | .readingStatus _, failure => failure == .jsError .readInvocationStatus
  | .idle, _ | .cleaning, _ | .recovering _, _ => false

/-- What happens in a state, if it can happen there.  The handler is called with
the invocation marked as not done. -/
def State.step (event : Event) : Option State :=
  match state.phase, state.runtime, event with
  | .idle, _, .prepare preparation => some (state.prepare preparation)
  | .idle, _, .beginRun selection => some (state.beginRun selection)
  | .idle, _, .maintain call => state.maintain call
  | .idle, _, .destroy => some state.destroy
  | .activating kind, some guest, .returned =>
    if guest.activeUdfKind = none then
      some { state.onGuest fun guest => { guest with activeUdfKind := some kind } with
        invocationActivated := true, phase := .requesting }
    else none
  | .requesting, some _, .act action | .invoking, some _, .act action =>
    some (state.perform (some state.invocation) action)
  | .requesting, some _, .returned =>
    some { state.onGuest fun guest =>
        { guest with invocationDone := false, invocationStatus := 0 } with
      phase := .invoking }
  | .invoking, some _, .returned => some { state with phase := .draining true }
  | .draining _, some guest, .microtask actions =>
    match guest.microtasks with
    | [] => none
    | _ :: later => some ((state.onGuest fun guest => { guest with microtasks := later }).performAll
        (some state.invocation) actions)
  | .draining _, some guest, .returned =>
    if guest.microtasks = [] then some { state with phase := .checkingDone } else none
  | .checkingDone, some guest, .returned =>
    some { state with phase := if guest.invocationDone then .cleaning else .waiting }
  | .waiting, some _, .completed handle | .polling, some _, .completed handle =>
    if handle ≠ 0 ∧ (lookup state.outstanding (handle - 1)).isSome then
      some { state with
        outstanding := clear state.outstanding (handle - 1), phase := .settling handle }
    else none
  | .polling, some _, .noneReady => some { state with phase := .draining false }
  | .settling handle, some guest, .settled reactions =>
    match lookup guest.pendingOperations (handle - 1) with
    | none => none
    | some operation =>
      some { state.onGuest fun guest =>
          { guest with
            pendingOperations := clear guest.pendingOperations (handle - 1)
            microtasks := guest.microtasks ++
              List.replicate reactions (some state.invocation) } with
        settled := operation :: state.settled, phase := .polling }
  | .cleaning, some guest, .returned => some (state.cleanUp guest)
  | .cleaning, some _, .interrupted cleared =>
    some ((state.onGuest (·.interruptedCleanup cleared)).fail (.jsError .cleanupInvocation))
  | .readingStatus abandoned, some guest, .returned => some (state.report guest abandoned)
  | .recovering caught, some guest, .returned => some (state.recover guest caught)
  | .recovering _, some _, .interrupted _ =>
    some (state.cancelAll.reset.returnsRun JSErrorPhase.cleanupInvocation.code none)
  | phase, some _, .failed failure =>
    if phase.canFail failure then some (state.fail failure) else none
  | _, _, _ => none

end ConvexWasm.Runtime
