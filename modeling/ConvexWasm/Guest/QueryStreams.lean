import ConvexWasm.Core.SlotTable

/-!
# Query streams

An iterator over a query holds a stream of the host.  Its state is a few
variables, a slot among the cleanups of the invocation and, while it reads, a
slot among the pending operations.  A completion of the host settles a slot and
leaves a microtask; cleanup at the end of an invocation clears all the slots.
-/

namespace ConvexWasm.Guest

open Function SlotTable

/-- What happens to the streams of the host. -/
inductive StreamEvent
  | opened (stream : ℕ)
  | read (stream : ℕ)
  | ended (stream : ℕ)
  | closed (stream : ℕ)
  | cancelled
  deriving DecidableEq

/-- A stream that has been opened and neither reported its end or a failure nor
been closed or cancelled; the latest event comes first. -/
def Usable (stream : ℕ) : List StreamEvent → Prop
  | [] => False
  | .opened other :: earlier => other = stream ∨ Usable stream earlier
  | .read _ :: earlier => Usable stream earlier
  | .ended other :: earlier | .closed other :: earlier => other ≠ stream ∧ Usable stream earlier
  | .cancelled :: _ => False

/-- Only usable streams are read, closed and come to an end, and every stream
is opened once. -/
def Orderly : List StreamEvent → Prop
  | [] => True
  | .opened stream :: earlier => 0 < stream ∧ .opened stream ∉ earlier ∧ Orderly earlier
  | .read stream :: earlier | .ended stream :: earlier | .closed stream :: earlier =>
    Usable stream earlier ∧ Orderly earlier
  | .cancelled :: earlier => Orderly earlier

/-- An operation that the host has started and not completed. -/
inductive HostOperation
  | read (stream : ℕ)
  | other
  deriving DecidableEq

/-- How the host completes a read. -/
inductive Outcome
  | answered
  | invalid
  | failed
  deriving DecidableEq

section Bridge

inductive UdfKind
  | query
  | mutation
  deriving DecidableEq

inductive IteratorKind
  | capability
  | sdk
  deriving DecidableEq

/-- The variables of an iterator or the state of an SDK stream.  The last three
fields say what the guest cannot see: the stream it was opened for, the number
of the invocation and the documents that it has handed out. -/
structure IteratorState (Document : Type) where
  kind : IteratorKind
  streamHandle : ℕ
  done : Bool
  pending : Bool
  cleanupSlot : Option ℕ
  origin : ℕ
  invocation : ℕ
  handed : List Document

/-- The result with which the promise of a read is settled. -/
inductive ReadResult (Document : Type)
  | document (document : Document)
  | finished
  | invalid
  | failed
  deriving DecidableEq

/-- What waits for an operation: an iterator or other guest code. -/
inductive Continuation
  | iterator (index : ℕ)
  | other
  deriving DecidableEq

/-- The guest bridge and its host. -/
structure Bridge (Document : Type) where
  activeUdfKind : Option UdfKind
  iterators : ℕ → IteratorState Document
  iteratorCount : ℕ
  sdkQueryStreams : List (Option ℕ)
  openQueryStreamCleanups : List (Option ℕ)
  pendingOperations : List (Option Continuation)
  microtasks : List (ℕ × ReadResult Document)
  documents : ℕ → List Document
  remaining : ℕ → List Document
  streamCount : ℕ
  outstanding : ℕ → Option HostOperation
  log : List StreamEvent
  invocation : ℕ
  registered : ℕ
  settled : ℕ
  cancelled : ℕ

/-- What a call of the guest gives back. -/
inductive Reply
  | nothing
  | promise
  | iterationDone
  | opened (number : ℕ)
  | abandoned (operations : ℕ)
  | refused (message : String)
  deriving DecidableEq

variable {Document : Type}

def closedIterator : IteratorState Document where
  kind := .capability
  streamHandle := 0
  done := true
  pending := false
  cleanupSlot := none
  origin := 0
  invocation := 0
  handed := []

def emptyBridge : Bridge Document where
  activeUdfKind := none
  iterators _ := closedIterator
  iteratorCount := 0
  sdkQueryStreams := []
  openQueryStreamCleanups := []
  pendingOperations := []
  microtasks := []
  documents _ := []
  remaining _ := []
  streamCount := 0
  outstanding _ := none
  log := []
  invocation := 0
  registered := 0
  settled := 0
  cancelled := 0

def Bridge.setIterator (bridge : Bridge Document) (index : ℕ) (state : IteratorState Document) :
    Bridge Document :=
  { bridge with iterators := update bridge.iterators index state }

end Bridge

section Iterators

variable {Document : Type}

variable (bridge : Bridge Document)

/-- `__convexCapabilityOpenQueryStream` or its typed form, and the registration
of the new iterator; the host may refuse the stream. -/
def openQueryStream (kind : IteratorKind)
    (documents : Option (List Document)) : Bridge Document × Reply :=
  if kind = .sdk ∧ bridge.activeUdfKind = none then
    (bridge, .refused "Invocation SDK facade is unavailable")
  else
    match documents with
    | none => (bridge, .refused "Capability returned an invalid query stream handle")
    | some documents =>
      let stream := bridge.streamCount + 1
      let index := bridge.iteratorCount
      let opened : Bridge Document :=
        { bridge with
          iterators := update bridge.iterators index
            { kind, streamHandle := stream, done := false, pending := false,
              cleanupSlot := some bridge.openQueryStreamCleanups.length, origin := stream,
              invocation := bridge.invocation, handed := [] }
          iteratorCount := index + 1
          openQueryStreamCleanups := bridge.openQueryStreamCleanups ++ [some index]
          documents := update bridge.documents stream documents
          remaining := update bridge.remaining stream documents
          streamCount := stream
          log := .opened stream :: bridge.log }
      match kind with
      | .capability => (opened, .opened index)
      | .sdk =>
        ({ opened with sdkQueryStreams := bridge.sdkQueryStreams ++ [some index] },
          .opened (bridge.sdkQueryStreams.length + 1))

/-- `__convexReleaseOpenQueryStream` -/
def releaseOpenQueryStream (slot : Option ℕ) : Bridge Document × Option String :=
  match slot.bind fun slot => (lookup bridge.openQueryStreamCleanups slot).map fun _ => slot with
  | none => (bridge, some "Query stream cleanup slot is invalid")
  | some slot =>
    ({ bridge with openQueryStreamCleanups := clear bridge.openQueryStreamCleanups slot }, none)

variable (index : ℕ)

/-- `releaseStream` and `__convexSdkReleaseQueryStream` -/
def releaseStream (closeHost : Bool) : Bridge Document × Option String :=
  let state := bridge.iterators index
  if state.done then (bridge, none)
  else
    let closed :=
      if closeHost then { bridge with log := .closed state.streamHandle :: bridge.log }
      else bridge
    let released := closed.setIterator index { state with done := true, streamHandle := 0 }
    match releaseOpenQueryStream released state.cleanupSlot with
    | (cleared, none) =>
      (cleared.setIterator index
        { state with done := true, streamHandle := 0, cleanupSlot := none }, none)
    | (cleared, some message) => (cleared, some message)

def enqueue (result : ReadResult Document) : Bridge Document :=
  { bridge with microtasks := bridge.microtasks ++ [(index, result)] }

/-- `__convexRegisterCapabilityOperation`; what it throws rejects the promise. -/
def registerCapabilityOperation (handle : ℕ)
    (continuation : Continuation) : Bridge Document × Option String :=
  if handle = 0 then (bridge, some "Convex async operation returned an invalid handle")
  else if (lookup bridge.pendingOperations (handle - 1)).isSome then
    (bridge, some "Convex async operation handle was reused")
  else
    ({ bridge with
        pendingOperations := put bridge.pendingOperations (handle - 1) continuation
        registered := bridge.registered + 1 }, none)

/-- `__convexStartCapabilityQueryStreamNext`: the host starts the read under a
handle or refuses it. -/
def startCapabilityQueryStreamNext (reply : Option ℕ) : Bridge Document :=
  let stream := (bridge.iterators index).streamHandle
  let asked := { bridge with log := .read stream :: bridge.log }
  match reply with
  | none => enqueue asked index .failed
  | some handle =>
    let started :=
      { asked with outstanding := update asked.outstanding handle (some (.read stream)) }
    match registerCapabilityOperation started handle (.iterator index) with
    | (waiting, none) => waiting
    | (refused, some _) => enqueue refused index .failed

/-- `next` of a capability iterator. -/
def iteratorNext (reply : Option ℕ) : Bridge Document × Reply :=
  let state := bridge.iterators index
  if state.done then (bridge, .iterationDone)
  else if state.pending then (bridge, .refused "Convex query stream already has a pending read")
  else
    (startCapabilityQueryStreamNext (bridge.setIterator index { state with pending := true })
      index reply, .promise)

/-- `return` of a capability iterator. -/
def iteratorReturn : Bridge Document × Reply :=
  if (bridge.iterators index).pending then
    (bridge, .refused "Convex query stream cannot close during a pending read")
  else
    match releaseStream bridge index true with
    | (released, none) => (released, .iterationDone)
    | (released, some message) => (released, .refused message)

/-- A query that the guest has opened through the SDK: the number that it was
given, and the invocation in which it was given, which the code does not see. -/
structure Ticket where
  queryId : ℕ
  invocation : ℕ

/-- `__convexSdkRequireQueryStream` -/
def requireQueryStream (queryId : ℕ) : Except String ℕ :=
  if bridge.activeUdfKind = none then .error "Invocation SDK facade is unavailable"
  else if queryId = 0 then .error "Convex SDK query ID is invalid"
  else
    match lookup bridge.sdkQueryStreams (queryId - 1) with
    | none => .error "Convex SDK query stream is unavailable"
    | some index => .ok index

/-- `__convexSdkQueryStreamNext` -/
def queryStreamNext (ticket : Ticket) (reply : Option ℕ) : Bridge Document × Reply :=
  match requireQueryStream bridge ticket.queryId with
  | .error message => (bridge, .refused message)
  | .ok index =>
    let state := bridge.iterators index
    if state.done then (bridge, .refused "Convex SDK query stream is closed")
    else if state.pending then
      (bridge, .refused "Convex SDK query stream already has a pending read")
    else
      (startCapabilityQueryStreamNext (bridge.setIterator index { state with pending := true })
        index reply, .promise)

/-- The system call `1.0/queryCleanup`. -/
def queryCleanup (ticket : Ticket) : Bridge Document × Reply :=
  match requireQueryStream bridge ticket.queryId with
  | .error message => (bridge, .refused message)
  | .ok index =>
    let state := bridge.iterators index
    if state.pending then (bridge, .refused "Convex SDK query stream has a pending read")
    else
      match releaseStream bridge index (!state.done) with
      | (released, some message) => (released, .refused message)
      | (released, none) =>
        ({ released with
            sdkQueryStreams := clear released.sdkQueryStreams (ticket.queryId - 1) }, .nothing)

/-- What is done when the promise of a read is settled.  Only the SDK closes a
stream that has given something that is no iteration result. -/
def settleRead (result : ReadResult Document) : Bridge Document :=
  let state := bridge.iterators index
  let settled := bridge.setIterator index { state with pending := false }
  match result with
  | .document document =>
    bridge.setIterator index
      { state with pending := false, handed := state.handed ++ [document] }
  | .finished | .failed => (releaseStream settled index false).1
  | .invalid =>
    match state.kind with
    | .capability => settled
    | .sdk => (releaseStream settled index true).1

end Iterators

section Invocation

variable {Document : Type}

variable (bridge : Bridge Document)

/-- Another operation than a read is started. -/
def startOperation (reply : Option ℕ) : Bridge Document × Reply :=
  match reply with
  | none => (bridge, .refused "Capability returned an invalid operation handle")
  | some handle =>
    match registerCapabilityOperation
      { bridge with outstanding := update bridge.outstanding handle (some .other) }
      handle .other with
    | (waiting, none) => (waiting, .promise)
    | (refused, some message) => (refused, .refused message)

/-- The host completes an operation: the next document or the end of a stream,
a failure, or for a read something that is no iteration result. -/
def complete (operation : HostOperation) (outcome : Outcome) :
    Bridge Document × ReadResult Document :=
  match operation, outcome with
  | .other, .failed => (bridge, .failed)
  | .other, _ | .read _, .invalid => (bridge, .invalid)
  | .read stream, .failed => ({ bridge with log := .ended stream :: bridge.log }, .failed)
  | .read stream, .answered =>
    match bridge.remaining stream with
    | [] => ({ bridge with log := .ended stream :: bridge.log }, .finished)
    | document :: later =>
      ({ bridge with remaining := update bridge.remaining stream later },
        .document document)

/-- `__convexCapabilitySettle` after a completion of the host. -/
def settle (handle : ℕ) (outcome : Outcome) : Bridge Document × Reply :=
  match bridge.outstanding handle with
  | none => (bridge, .refused "Convex async completion has no pending Promise")
  | some operation =>
    let (completed, result) := complete
      { bridge with outstanding := update bridge.outstanding handle none }
      operation outcome
    match lookup completed.pendingOperations (handle - 1) with
    | none => (completed, .refused "Convex async completion has no pending Promise")
    | some continuation =>
      let cleared : Bridge Document :=
        { completed with
          pendingOperations := clear completed.pendingOperations (handle - 1)
          settled := completed.settled + 1 }
      match continuation with
      | .iterator index => (enqueue cleared index result, .nothing)
      | .other => (cleared, .nothing)

/-- A microtask runs; the theorems do not need that it is the oldest. -/
def runMicrotask (place : ℕ) : Bridge Document × Reply :=
  match bridge.microtasks[place]? with
  | none => (bridge, .nothing)
  | some (index, result) =>
    (settleRead { bridge with microtasks := bridge.microtasks.eraseIdx place } index result,
      .nothing)

/-- The cleanup that an iterator has registered. -/
def IteratorState.abandon (state : IteratorState Document) : IteratorState Document :=
  { state with done := true, streamHandle := 0, cleanupSlot := none }

/-- `__convexCapabilityCleanup` and the `cancel_all` of the host behind it. -/
def capabilityCleanup : Bridge Document × Reply :=
  let abandoned := occupied bridge.pendingOperations
  ({ bridge with
      activeUdfKind := none
      iterators := fun index =>
        if some index ∈ bridge.openQueryStreamCleanups then (bridge.iterators index).abandon
        else bridge.iterators index
      sdkQueryStreams := []
      openQueryStreamCleanups := []
      pendingOperations := []
      outstanding := fun _ => none
      log := .cancelled :: bridge.log
      invocation := bridge.invocation + 1
      cancelled := bridge.cancelled + abandoned }, .abandoned abandoned)

/-- `__convexSdkActivate` -/
def activate (kind : UdfKind) : Bridge Document × Reply :=
  if bridge.activeUdfKind = none then ({ bridge with activeUdfKind := some kind }, .nothing)
  else (bridge, .refused "Invocation SDK facade is already active")

end Invocation

section Steps

variable {Document : Type}

/-- One call of the guest, completion of the host, microtask or boundary of an
invocation. -/
inductive BridgeEvent (Document : Type)
  | openQueryStream (kind : IteratorKind) (documents : Option (List Document))
  | iteratorNext (index : ℕ) (reply : Option ℕ)
  | iteratorReturn (index : ℕ)
  | queryStreamNext (ticket : Ticket) (reply : Option ℕ)
  | queryCleanup (ticket : Ticket)
  | startOperation (reply : Option ℕ)
  | settle (handle : ℕ) (outcome : Outcome)
  | microtask (place : ℕ)
  | cleanup
  | activate (kind : UdfKind)

variable (bridge : Bridge Document)

def step : BridgeEvent Document → Bridge Document × Reply
  | .openQueryStream kind documents => openQueryStream bridge kind documents
  | .iteratorNext index reply => iteratorNext bridge index reply
  | .iteratorReturn index => iteratorReturn bridge index
  | .queryStreamNext ticket reply => queryStreamNext bridge ticket reply
  | .queryCleanup ticket => queryCleanup bridge ticket
  | .startOperation reply => startOperation bridge reply
  | .settle handle outcome => settle bridge handle outcome
  | .microtask place => runMicrotask bridge place
  | .cleanup => capabilityCleanup bridge
  | .activate kind => activate bridge kind

/-- What the host and the guest can do: an operation starts under a positive
handle that no outstanding operation has, only outstanding operations complete,
and only iterators that exist are used. -/
def Possible : BridgeEvent Document → Prop
  | .iteratorNext index reply =>
    index < bridge.iteratorCount ∧
      ∀ handle ∈ reply, 0 < handle ∧ bridge.outstanding handle = none
  | .iteratorReturn index => index < bridge.iteratorCount
  | .queryStreamNext _ reply | .startOperation reply =>
    ∀ handle ∈ reply, 0 < handle ∧ bridge.outstanding handle = none
  | .settle handle _ => bridge.outstanding handle ≠ none
  | .openQueryStream _ _ | .queryCleanup _ | .microtask _ | .cleanup | .activate _ => True

/-- An SDK query of an earlier invocation is not used while its number is that
of a query of the present one. -/
def Timely : BridgeEvent Document → Prop
  | .queryStreamNext ticket _ | .queryCleanup ticket =>
    ticket.invocation = bridge.invocation ∨
      ∃ message, requireQueryStream bridge ticket.queryId = .error message
  | _ => True

/-- A possible event happens. -/
def PossibleStep (bridge bridge' : Bridge Document) : Prop :=
  ∃ event, Possible bridge event ∧ bridge' = (step bridge event).1

/-- A possible and timely event happens. -/
def TimelyStep (bridge bridge' : Bridge Document) : Prop :=
  ∃ event, Possible bridge event ∧ Timely bridge event ∧ bridge' = (step bridge event).1

end Steps

end ConvexWasm.Guest
