import ConvexWasm.Core.TransitionSystem

/-!
# Initialisation of official chunks

The runtime evaluates the factory of a chunk when guest code first requires it.
The factory is guest code itself: it registers namespaces, requires other chunks,
in cycles too, catches what they throw, and publishes in the end.  The stack is
that of the native calls, where each factory knows who asked for it; whatever
is not on the stack is the choice of guest code.
-/

namespace ConvexWasm.Runtime.ChunkInitialization

open Function TransitionSystem

def kMaxApplicationUnitSlots : ℕ := 1024

/-- The graph that was compiled into the runtime, as
`validate_official_chunk_application_topology` admits it. -/
structure Topology where
  chunkSlotCount : ℕ
  entryCount : ℕ
  dependencyBySpecifier : ℕ → String → Option ℕ
  factoryByUnitSlot : ℕ → Bool
  entryChunkSlot : ℕ → ℕ
  publicationUnitSlot : ℕ → ℕ
  chunkSlotCount_pos : 0 < chunkSlotCount
  unitSlots_le : chunkSlotCount + entryCount ≤ kMaxApplicationUnitSlots
  entryChunkSlot_lt : ∀ entry < entryCount, entryChunkSlot entry < chunkSlotCount

def initializeImportsSpecifier : String :=
  "./__convex_wasm_initialize_imports.js"

/-- The specifier that the runtime formats for the import with an index. -/
def importInitializationSpecifier (index : ℕ) : String :=
  let digits := toString index
  "./__convex_wasm_import_initialization_" ++
    String.ofList (List.replicate (8 - digits.length) '0') ++ digits ++ ".js"

/-- A value that guest code passes to the loader.  Objects have an identity; an
array of import bindings has names and callbacks, and `none` where an element is
no such pair. -/
inductive Value
  | text (value : String)
  | integer (value : ℤ)
  | object (identity : ℕ)
  | bindings (identity : ℕ) (elements : List (Option (String × ℕ)))
  | other

/-- The identity of a value for which `isObject` holds. -/
def Value.identity? : Value → Option ℕ
  | .object identity | .bindings identity _ => some identity
  | .text _ | .integer _ | .other => none

inductive ChunkApplicationUnitState
  | uninitialized
  | initializing
  | initialized
  deriving DecidableEq

structure ChunkApplicationUnitSlot where
  state : ChunkApplicationUnitState
  namespaceValue : Option ℕ
  published : Bool
  deriving DecidableEq

def emptySlot : ChunkApplicationUnitSlot where
  state := .uninitialized
  namespaceValue := none
  published := false

/-- A call of an import callback: which binding it belongs to, the chunk that
was initialised for it and the namespace it received. -/
structure ImportCall where
  binding : ℕ
  target : ℕ
  namespaceValue : ℕ
  deriving DecidableEq

/-- An ordered initialisation that guest code has asked for.  `callbacks` has
the binding of a target whose callback is still to be called. -/
structure OrderedImports where
  unit : ℕ
  bindings : List (String × ℕ)
  callbacks : ℕ → Option ℕ
  index : ℕ
  calls : List ImportCall

/-- Who asked for a chunk: guest code, an ordered initialisation on behalf of
one of its bindings, or the initialisation of an entry. -/
inductive Caller
  | guest
  | imports (imports : OrderedImports) (binding : ℕ)
  | entry (slot : ℕ)

/-- Guest code that has been called and has not returned. -/
inductive Frame
  | factory (unit : ℕ) (caller : Caller)
  | callback (imports : OrderedImports)
  | publication (entry : ℕ)

/-- Something that has happened since the runtime was created. -/
inductive Occurrence
  | evaluated (unit : ℕ)
  | begun (unit : ℕ) (namespaceValue : ℕ)
  | published (unit : ℕ) (namespaceValue : ℕ)
  | returned (unit : ℕ) (namespaceValue : ℕ) (initialized : Bool)
  | imported (imports : OrderedImports)
  | interrupted (imports : OrderedImports)
  | failed

inductive Mode
  | outside
  | preparing
  | running
  deriving DecidableEq

/-- The loader's part of the runtime.  `trace` has what happened, the latest
first; the runtime itself keeps no such record. -/
structure State where
  runtime : Bool
  mode : Mode
  units : ℕ → ChunkApplicationUnitSlot
  exports : ℕ → Option ℕ
  unitInitializationCount : ℕ → ℕ
  pendingExports : ℕ → Option ℕ
  dirty : Bool
  validatedChunkSlotCount : ℕ
  stack : List Frame
  trace : List Occurrence

def initialState : State where
  runtime := false
  mode := .outside
  units := fun _ => emptySlot
  exports := fun _ => none
  unitInitializationCount := fun _ => 0
  pendingExports := fun _ => none
  dirty := false
  validatedChunkSlotCount := 0
  stack := []
  trace := []

/-- `reset_runtime_state`, with which the entry point returns. -/
def State.reset (_ : State) : State := initialState

def State.record (state : State) (occurrence : Occurrence) : State :=
  { state with trace := occurrence :: state.trace }

/-- `official_chunk_initialization_dirty = true` -/
def State.fail (state : State) : State :=
  { state with dirty := true, trace := .failed :: state.trace }

def State.setUnit (state : State) (unit : ℕ) (slot : ChunkApplicationUnitSlot) : State :=
  { state with
    validatedChunkSlotCount := 0, units := update state.units unit slot }

def State.push (state : State) (frame : Frame) : State :=
  { state with stack := frame :: state.stack }

section Loader

variable (topology : Topology)

/-- What a call of the loader comes to: a namespace, an error, or a factory that
is to be evaluated first. -/
inductive Initialization
  | returned (namespaceValue : ℕ)
  | threw
  | evaluating

variable (state : State) (unit : ℕ)

/-- `initialize_official_chunk_unit` up to the evaluation of the factory. -/
def State.initializeOfficialChunkUnit (caller : Caller) : State × Initialization :=
  if topology.chunkSlotCount ≤ unit then (state.fail, .threw)
  else
    let slot := state.units unit
    match slot.state, slot.namespaceValue with
    | .initialized, some namespaceValue =>
      if slot.published then
        (state.record (.returned unit namespaceValue true), .returned namespaceValue)
      else (state.fail, .threw)
    | .initialized, none => (state.fail, .threw)
    | .initializing, some namespaceValue =>
      -- CommonJS cycles observe the namespace registered before evaluation.
      (state.record (.returned unit namespaceValue false), .returned namespaceValue)
    | .initializing, none => (state.fail, .threw)
    | .uninitialized, _ =>
      if topology.factoryByUnitSlot unit then
        (((state.setUnit unit { slot with state := .initializing }).record
          (.evaluated unit)).push (.factory unit caller), .evaluating)
      else (state.fail, .threw)

variable (imports : OrderedImports)

/-- The callback of a binding is called with the namespace of its target. -/
def State.callImport (binding unit namespaceValue : ℕ) : State :=
  state.push (.callback
    { imports with calls := imports.calls ++ [⟨binding, unit, namespaceValue⟩] })

/-- An ordered initialisation throws. -/
def State.interrupt : State :=
  state.fail.record (.interrupted imports)

/-- The next round of the loop over the numbered specifiers. -/
def State.importNext : State :=
  if imports.index = imports.bindings.length then state.record (.imported imports)
  else
    match topology.dependencyBySpecifier imports.unit
        (importInitializationSpecifier imports.index) with
    | none => state.interrupt imports
    | some target =>
      if topology.chunkSlotCount ≤ target then state.interrupt imports
      else
        match imports.callbacks target with
        | none => state.interrupt imports
        | some binding =>
          let consumed : OrderedImports :=
            { imports with
              callbacks := update imports.callbacks target none
              index := imports.index + 1 }
          match state.initializeOfficialChunkUnit topology target (.imports consumed binding) with
          | (state, .returned namespaceValue) =>
            state.callImport consumed binding target namespaceValue
          | (state, .threw) => state.interrupt consumed
          | (state, .evaluating) => state

/-- The loop over the bindings: each names a target of its own. -/
def collectCallbacks (unit : ℕ) :
    List (String × ℕ) → ℕ → (ℕ → Option ℕ) → Option (ℕ → Option ℕ)
  | [], _, callbacks => some callbacks
  | (name, _) :: rest, index, callbacks =>
    match topology.dependencyBySpecifier unit name with
    | none => none
    | some target =>
      if topology.chunkSlotCount ≤ target ∨ callbacks target ≠ none then none
      else collectCallbacks unit rest (index + 1) (update callbacks target (some index))

/-- The ordered initialisation that a call of `require` asks for. -/
def orderedImports (elements : List (Option (String × ℕ))) : Option OrderedImports :=
  if elements = [] ∨ topology.chunkSlotCount < elements.length then none
  else
    match elements.mapM id with
    | none => none
    | some bindings =>
      (collectCallbacks topology unit bindings 0 fun _ => none).map fun callbacks =>
        { unit, bindings, callbacks, index := 0, calls := [] }

/-- `requireOfficialChunkNamespace` of a unit -/
def State.requireNamespace : List Value → State
  | .text specifier :: rest =>
    if specifier = initializeImportsSpecifier then
      match rest with
      | [.bindings _ elements] =>
        match orderedImports topology unit elements with
        | none => state.fail
        | some imports => state.importNext topology imports
      | _ => state.fail
    else if rest ≠ [] then state.fail
    else
      match topology.dependencyBySpecifier unit specifier with
      | none => state.fail
      | some target =>
        match state.initializeOfficialChunkUnit topology target .guest with
        | (state, .threw) => state.fail
        | (state, _) => state
  | _ => state.fail

/-- `beginOfficialChunkNamespace` of a unit -/
def State.beginNamespace : List Value → State
  | [value] =>
    let slot := state.units unit
    match value.identity? with
    | some namespaceValue =>
      if slot.state = .initializing ∧ slot.published = false then
        (state.setUnit unit { slot with namespaceValue := some namespaceValue }).record
          (.begun unit namespaceValue)
      else state.fail
    | none => state.fail
  | _ => state.fail

/-- `publishOfficialChunkNamespace` of a unit -/
def State.publishNamespace : List Value → State
  | [value] =>
    let slot := state.units unit
    match value.identity? with
    | some namespaceValue =>
      if slot.state = .initializing ∧ slot.published = false ∧
          slot.namespaceValue = some namespaceValue then
        (state.setUnit unit { slot with published := true }).record (.published unit namespaceValue)
      else state.fail
    | none => state.fail
  | _ => state.fail

end Loader

section Entries

variable (topology : Topology)

variable (state : State) (entry : ℕ)

/-- The publication unit of an entry is evaluated. -/
def State.publishEntry : State :=
  if topology.factoryByUnitSlot (topology.publicationUnitSlot entry) then
    state.push (.publication entry)
  else state.reset

/-- `initialize_official_chunk_entry` up to the first factory.  What it throws
ends the preparation, which resets the runtime. -/
def State.initializeOfficialChunkEntry : State :=
  if topology.entryCount ≤ entry ∨ state.exports entry ≠ none ∨
      state.unitInitializationCount entry ≠ 0 ∨ state.pendingExports entry ≠ none then state.reset
  else
    match state.initializeOfficialChunkUnit topology (topology.entryChunkSlot entry)
        (.entry entry) with
    | (state, .returned _) => state.publishEntry topology entry
    | (state, .threw) => state.reset
    | (state, .evaluating) => state

/-- `readOfficialChunkNamespace` of an entry -/
def State.readNamespace : List Value → State
  | [.integer requested] =>
    let slot := state.units (topology.entryChunkSlot entry)
    if requested = topology.entryChunkSlot entry ∧ slot.state = .initialized ∧
        slot.published ∧ slot.namespaceValue ≠ none then state
    else state.fail
  | _ => state.fail

/-- `publishOfficialEntryNamespace` of an entry -/
def State.publishEntryNamespace : List Value → State
  | [.integer handoff, value] =>
    let slot := state.units (topology.entryChunkSlot entry)
    match value.identity? with
    | some namespaceValue =>
      if handoff = entry ∧ state.pendingExports entry = none ∧ slot.state = .initialized ∧
          slot.namespaceValue = some namespaceValue then
        { state with
          pendingExports := update state.pendingExports entry (some namespaceValue) }
      else state.fail
    | none => state.fail
  | _ => state.fail

/-- The publication unit of an entry has returned. -/
def State.finishEntry : State :=
  match state.pendingExports entry with
  | none => state.reset
  | some exported =>
    { state with
      exports := update state.exports entry (some exported)
      unitInitializationCount := update state.unitInitializationCount entry 1
      pendingExports := update state.pendingExports entry none }

end Entries

section Unwinding

variable (topology : Topology)

/-- A factory has thrown, or what it left is not accepted. -/
def State.failFactory (state : State) : Caller → State
  | .guest => state.fail
  | .imports imports _ => state.fail.interrupt imports
  | .entry _ => state.reset

/-- `initialize_official_chunk_unit` after the evaluation of the factory.  The
intrinsic descriptors may turn out to be invalid. -/
def State.finishFactory (state : State) (unit : ℕ) (caller : Caller) (descriptorsValid : Bool) :
    State :=
  let slot := state.units unit
  match slot.published, slot.namespaceValue with
  | true, some namespaceValue =>
    let initialized := state.setUnit unit { slot with state := .initialized }
    if descriptorsValid then
      let returned := initialized.record (.returned unit namespaceValue true)
      match caller with
      | .guest => returned
      | .imports imports binding => returned.callImport imports binding unit namespaceValue
      | .entry entry => returned.publishEntry topology entry
    else initialized.failFactory caller
  | _, _ => state.failFactory caller

end Unwinding

section Validation

variable (topology : Topology)

/-- What a unit slot has to be like when no initialisation is active. -/
def settledSlot (unit : ℕ) (slot : ChunkApplicationUnitSlot) : Bool :=
  if unit < topology.chunkSlotCount ∧ slot.state = .initialized then
    slot.published && slot.namespaceValue.isSome
  else slot = emptySlot

variable (state : State)

def State.unitsSettled : Bool :=
  (List.range kMaxApplicationUnitSlots).all fun unit => settledSlot topology unit (state.units unit)

def State.entriesConsistent : Bool :=
  (List.range topology.entryCount).all fun entry =>
    match state.exports entry with
    | some _ => state.unitInitializationCount entry = 1
    | none => state.unitInitializationCount entry = 0

variable (supportValid : Bool)

/-- What `retained_runtime_state_is_valid` checks before it turns to the unit
slots.  Whether the rest of the runtime is there is not the loader's concern. -/
def State.entriesValid : Bool :=
  supportValid && !state.dirty && state.entriesConsistent topology

/-- `retained_runtime_state_is_valid` -/
def State.retainedStateIsValid : Bool :=
  state.entriesValid topology supportValid &&
    (state.validatedChunkSlotCount = topology.chunkSlotCount || state.unitsSettled topology) &&
    (List.range topology.entryCount).all fun entry => state.pendingExports entry = none

/-- The count that the check leaves behind. -/
def State.validate : State :=
  if state.entriesValid topology supportValid && state.unitsSettled topology then
    { state with validatedChunkSlotCount := topology.chunkSlotCount }
  else state

/-- A call of the host goes on in a mode with a valid state, or else resets. -/
def State.continueValid (mode : Mode) (supportValid : Bool) : State :=
  if state.retainedStateIsValid topology supportValid then
    { state.validate topology supportValid with mode }
  else state.reset

end Validation

section Events

variable (topology : Topology)

/-- What the host, the guest and the loader do next. -/
inductive Event
  | enterPrepare (supportValid : Bool)
  | initializeEntry (entry : ℕ)
  | prepareFails
  | enterRun (supportValid : Bool)
  | leave (supportValid : Bool)
  | require (unit : ℕ) (arguments : List Value)
  | begin (unit : ℕ) (arguments : List Value)
  | publish (unit : ℕ) (arguments : List Value)
  | readNamespace (entry : ℕ) (arguments : List Value)
  | publishEntryNamespace (entry : ℕ) (arguments : List Value)
  | returns (descriptorsValid : Bool)
  | throws

/-- The code on top of the stack returns. -/
def State.returnTop (state : State) (descriptorsValid : Bool) : Option State :=
  match state.stack with
  | [] => none
  | .factory unit caller :: rest =>
    some ({ state with stack := rest }.finishFactory topology unit caller descriptorsValid)
  | .callback imports :: rest => some ({ state with stack := rest }.importNext topology imports)
  | .publication entry :: rest => some ({ state with stack := rest }.finishEntry entry)

/-- The code on top of the stack throws. -/
def State.throwTop (state : State) : Option State :=
  match state.stack with
  | [] => none
  | .factory _ caller :: rest => some ({ state with stack := rest }.failFactory caller)
  | .callback imports :: rest => some ({ state with stack := rest }.interrupt imports)
  | .publication _ :: _ => some state.reset

/-- One step.  Guest code acts while an entry point has not returned, through
the bindings of units that have been evaluated; the errors it does not catch are
thrown by the code on top of the stack. -/
def State.step (state : State) : Event → Option State
  | .enterPrepare supportValid =>
    if state.mode ≠ .outside then none
    else if state.runtime then some (state.continueValid topology .preparing supportValid)
    else some { state with runtime := true, mode := .preparing }
  | .initializeEntry entry =>
    match state.mode, state.stack with
    | .preparing, [] => some (state.initializeOfficialChunkEntry topology entry)
    | _, _ => none
  | .prepareFails => if state.mode = .preparing then some state.reset else none
  | .enterRun supportValid =>
    if state.mode ≠ .outside then none
    else if state.runtime then some (state.continueValid topology .running supportValid)
    else some state
  | .leave supportValid =>
    match state.mode, state.stack with
    | .outside, _ | _, _ :: _ => none
    | _, [] => some (state.continueValid topology .outside supportValid)
  | .require unit arguments =>
    if state.mode = .outside ∨ (state.units unit).state = .uninitialized then none
    else some (state.requireNamespace topology unit arguments)
  | .begin unit arguments =>
    if state.mode = .outside ∨ (state.units unit).state = .uninitialized then none
    else some (state.beginNamespace unit arguments)
  | .publish unit arguments =>
    if state.mode = .outside ∨ (state.units unit).state = .uninitialized then none
    else some (state.publishNamespace unit arguments)
  | .readNamespace entry arguments =>
    if state.mode = .outside then none else some (state.readNamespace topology entry arguments)
  | .publishEntryNamespace entry arguments =>
    if state.mode = .outside then none
    else some (state.publishEntryNamespace topology entry arguments)
  | .returns descriptorsValid =>
    if state.mode = .outside then none else state.returnTop topology descriptorsValid
  | .throws => if state.mode = .outside then none else state.throwTop

/-- The states that a runtime for the topology can get into. -/
def Arises (state : State) : Prop :=
  Reachable (fun state => state = initialState)
    (fun state state' => ∃ event, State.step topology state event = some state') state

end Events

end ConvexWasm.Runtime.ChunkInitialization
