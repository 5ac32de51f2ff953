import ConvexWasm.Core.EpochReplay
import ConvexWasm.Core.JsText
import ConvexWasm.Core.JsonValue
import ConvexWasm.Core.TakeFirst

/-!
# Replaying captured JSON syscalls

Captured calls are sorted into epochs of reads that end with a write.  The replay
hands out query ids of its own and answers every call with the captured text.
-/

namespace ConvexWasm.SyscallReplay

/-- JSON as the host reads it. -/
structure JsonText (Number : Type) where
  parse : String → Option (JsonValue Number)
  sameNumber : Number → Number → Bool
  safeInteger : Number → Option ℤ
  integer : ℤ → Number

variable {Number : Type} (json : JsonText Number)

def parseReplayJson (serialized : String) : Except String (JsonValue Number) :=
  match json.parse serialized with
  | none => .error "Malformed replay JSON"
  | some value => .ok value

def equalJson (left right : JsonValue Number) : Bool :=
  JsonValue.same json.sameNumber left right

def queryId (value : JsonValue Number) : Option ℤ :=
  match value.field "queryId" with
  | some (.number id) => json.safeInteger id
  | _ => none

def doneFlag (value : JsonValue Number) : Option Bool :=
  match value.field "done" with
  | some (.boolean done) => some done
  | _ => none

/-- How many keys `Object.keys` finds; it throws on null. -/
def keyCount : JsonValue Number → Option ℕ
  | .null => none
  | .boolean _ => some 0
  | .number _ => some 0
  | .string value => some (JsText.utf16 value).length
  | .array elements => some elements.length
  | .object fields => some fields.length

section Prepare

structure Call where
  sequence : ℤ
  channel : String
  operation : String
  arguments : String
  result : String
  startedEvent : ℤ
  completedEvent : ℤ

/-- An array of calls; arrays are shorter than this. -/
structure Capture where
  calls : List Call
  length_lt : calls.length < 2 ^ 32

structure Entry (Number : Type) where
  operation : String
  arguments : JsonValue Number
  result : String
  next : List String := []
  cleanup : Option String := none

structure Prepared (Number : Type) where
  epochs : List (Epoch (Entry Number) (Entry Number))
  calls : ℕ

/-- What the loop keeps; an open query knows where its entry is among the reads. -/
structure Preparing (Number : Type) where
  epochs : List (Epoch (Entry Number) (Entry Number)) := []
  reads : List (Entry Number) := []
  queries : KeyedMap ℤ (ℕ × ℤ) := .empty
  events : List ℤ := []
  lastReadCompletion : ℤ := -1
  lastStart : ℤ := -1
  lastWriteCompletion : ℤ := -1

def isSafeInteger (value : ℤ) : Bool :=
  -(2 ^ 53 - 1) ≤ value && value ≤ 2 ^ 53 - 1

def isValidCall (count index : ℕ) (call : Call) (state : Preparing Number) : Bool :=
  call.sequence = index && ["syscall", "asyncSyscall"].contains call.channel &&
    isSafeInteger call.startedEvent && isSafeInteger call.completedEvent &&
    state.lastStart < call.startedEvent && call.startedEvent < call.completedEvent &&
    call.completedEvent < count * 2 && !state.events.contains call.startedEvent &&
    !state.events.contains call.completedEvent

def writeOperations : List String :=
  ["1.0/insert", "1.0/shallowMerge", "1.0/replace", "1.0/remove", "1.0/schedule",
    "1.0/cancel_job"]

variable (call : Call) (state : Preparing Number)

def prepareGet (entry : Entry Number) : Except String (Preparing Number) :=
  if call.channel ≠ "asyncSyscall" then .error "Get replay requires an async call"
  else if call.startedEvent < state.lastWriteCompletion then
    .error "Replay does not support reads overlapping a write"
  else
    .ok { state with
      reads := state.reads ++ [entry]
      lastReadCompletion := max state.lastReadCompletion call.completedEvent }

def prepareStart (entry : Entry Number) (result : JsonValue Number) :
    Except String (Preparing Number) :=
  match queryId json result with
  | none => .error "Invalid replay query start"
  | some id =>
    if call.channel ≠ "syscall" ∨ state.queries.containsKey id then
      .error "Invalid replay query start"
    else if call.startedEvent < state.lastWriteCompletion then
      .error "Replay does not support reads overlapping a write"
    else
      .ok { state with
        reads := state.reads ++ [entry]
        queries := state.queries.insert id (state.reads.length, call.completedEvent) }

/-- Whether the last item so far ended the query. -/
def isDone (next : List String) : Bool :=
  match next.getLast? with
  | none => false
  | some last => (json.parse last).bind doneFlag = some true

def prepareNext (arguments result : JsonValue Number) : Except String (Preparing Number) :=
  match queryId json arguments with
  | none => .error "Invalid replay query continuation"
  | some id =>
    match state.queries.get? id with
    | none => .error "Invalid replay query continuation"
    | some (position, completed) =>
      if call.channel ≠ "asyncSyscall" ∨ doneFlag result = none ∨
          call.startedEvent < completed ∨
          (state.reads[position]?.any fun entry => isDone json entry.next) then
        .error "Invalid replay query continuation"
      else
        .ok { state with
          reads := state.reads.modify position fun entry =>
            { entry with next := entry.next ++ [call.result] }
          queries := state.queries.insert id (position, call.completedEvent)
          lastReadCompletion := max state.lastReadCompletion call.completedEvent }

def prepareCleanup (arguments : JsonValue Number) : Except String (Preparing Number) :=
  match queryId json arguments with
  | none => .error "Invalid replay query cleanup"
  | some id =>
    match state.queries.get? id with
    | none => .error "Invalid replay query cleanup"
    | some (position, completed) =>
      if call.channel ≠ "syscall" ∨ call.startedEvent < completed then
        .error "Invalid replay query cleanup"
      else
        .ok { state with
          reads := state.reads.modify position fun entry =>
            { entry with cleanup := some call.result }
          queries := state.queries.erase id }

/-- A write ends the epoch when no read is under way. -/
def prepareWrite (entry : Entry Number) : Except String (Preparing Number) :=
  if call.channel ≠ "asyncSyscall" ∨ !state.queries.entries.isEmpty ∨
      call.startedEvent < state.lastReadCompletion then
    .error "Replay does not support reads overlapping a write"
  else
    .ok { state with
      epochs := state.epochs ++ [⟨state.reads, some entry⟩]
      reads := []
      lastWriteCompletion := max state.lastWriteCompletion call.completedEvent }

def prepareCall (count index : ℕ) : Except String (Preparing Number) :=
  if !isValidCall count index call state then
    .error ("Invalid replay call " ++ toString index)
  else do
    let arguments ← parseReplayJson json call.arguments
    let result ← parseReplayJson json call.result
    let seen := { state with
      lastStart := call.startedEvent
      events := call.completedEvent :: call.startedEvent :: state.events }
    let entry := { operation := call.operation, arguments, result := call.result }
    if call.operation = "1.0/get" then prepareGet call seen entry
    else if call.operation = "1.0/queryStream" then prepareStart json call seen entry result
    else if call.operation = "1.0/queryStreamNext" then prepareNext json call seen arguments result
    else if call.operation = "1.0/queryCleanup" then prepareCleanup json call seen arguments
    else if writeOperations.contains call.operation then prepareWrite call seen entry
    else .error ("Unsupported replay operation at call " ++ toString index)

def prepareCalls (count : ℕ) : ℕ → List Call → Preparing Number →
    Except String (Preparing Number)
  | _, [], state => .ok state
  | index, call :: later, state => do
      let next ← prepareCall json call state count index
      prepareCalls count (index + 1) later next

def prepareConvexWasmSyscallReplay (capture : Capture) : Except String (Prepared Number) := do
  let state ← prepareCalls json capture.calls.length 0 capture.calls {}
  if !state.queries.entries.isEmpty then .error "Replay capture contains unclosed queries"
  else
    return { epochs := state.epochs ++ [⟨state.reads, none⟩], calls := capture.calls.length }

end Prepare

section Replay

structure OpenQuery (Number : Type) where
  entry : Entry Number
  index : ℕ

structure Replay (Number : Type) where
  prepared : Prepared Number
  epochIndex : ℕ
  remaining : List (Entry Number)
  queries : KeyedMap ℤ (OpenQuery Number)
  nextQuery : ℤ
  calls : ℕ
  failure : Option String

def readsOf (prepared : Prepared Number) (index : ℕ) : List (Entry Number) :=
  (prepared.epochs[index]?.map (·.reads)).getD []

def createConvexWasmSyscallReplay (prepared : Prepared Number) : Replay Number where
  prepared := prepared
  epochIndex := 0
  remaining := readsOf prepared 0
  queries := .empty
  nextQuery := 1
  calls := 0
  failure := none

/-- A captured text, or the text of an object with a query id. -/
inductive Answer
  | recorded (text : String)
  | query (id : ℤ)
  | undefined
  deriving DecidableEq

variable (replay : Replay Number)

/-- The first failure is kept. -/
def Replay.fail (message : String) : Except String Answer × Replay Number :=
  (.error message, { replay with failure := some message })

def Replay.invokeNext (query : OpenQuery Number) (id : ℤ) : Except String Answer × Replay Number :=
  match query.entry.next[query.index]? with
  | none => replay.fail "Replay query has no remaining result"
  | some text =>
    (.ok (.recorded text),
      { replay with queries := replay.queries.insert id { query with index := query.index + 1 } })

def Replay.invokeCleanup (query : OpenQuery Number) (id : ℤ) :
    Except String Answer × Replay Number :=
  if query.index ≠ query.entry.next.length then
    replay.fail "Replay query closed with unread results"
  else
    (.ok (match query.entry.cleanup with
      | none => .undefined
      | some text => .recorded text),
      { replay with queries := replay.queries.erase id })

variable (operation : String) (arguments : JsonValue Number)

def Replay.invokeOpen : Except String Answer × Replay Number :=
  match keyCount arguments with
  -- the error of `Object.keys` is thrown past the failure that is kept
  | none => (.error "TypeError", replay)
  | some keys =>
    if keys ≠ 1 then replay.fail "Unexpected replay query arguments"
    else
      match queryId json arguments with
      | none => replay.fail "Replay query is not open"
      | some id =>
        match replay.queries.get? id with
        | none => replay.fail "Replay query is not open"
        | some query =>
          if operation = "1.0/queryStreamNext" then replay.invokeNext query id
          else replay.invokeCleanup query id

def asked (entry : Entry Number) : Bool :=
  entry.operation = operation && equalJson json entry.arguments arguments

def Replay.invokeRead : Except String Answer × Replay Number :=
  match takeFirst (asked json operation arguments) replay.remaining with
  | none =>
    replay.fail ("Replay read differs in epoch " ++ toString replay.epochIndex ++ " (" ++
      operation ++ ")")
  | some (entry, rest) =>
    if operation = "1.0/queryStream" then
      (.ok (.query replay.nextQuery),
        { replay with
          remaining := rest
          queries := replay.queries.insert replay.nextQuery { entry, index := 0 }
          nextQuery := replay.nextQuery + 1 })
    else (.ok (.recorded entry.result), { replay with remaining := rest })

def Replay.invokeWrite : Except String Answer × Replay Number :=
  match replay.prepared.epochs[replay.epochIndex]?.bind (·.write) with
  | none =>
    replay.fail ("Replay write differs in epoch " ++ toString replay.epochIndex ++ " (" ++
      operation ++ ")")
  | some entry =>
    if !replay.remaining.isEmpty || !replay.queries.entries.isEmpty ||
        !asked json operation arguments entry then
      replay.fail ("Replay write differs in epoch " ++ toString replay.epochIndex ++ " (" ++
        operation ++ ")")
    else
      (.ok (.recorded entry.result),
        { replay with
          epochIndex := replay.epochIndex + 1
          remaining := readsOf replay.prepared (replay.epochIndex + 1) })

def isContinuation : Bool :=
  operation = "1.0/queryStreamNext" || operation = "1.0/queryCleanup"

def isRead : Bool :=
  operation = "1.0/get" || operation = "1.0/queryStream"

def channelOf : String :=
  if operation = "1.0/queryStream" || operation = "1.0/queryCleanup" then "syscall"
  else "asyncSyscall"

def Replay.invoke (channel operation serializedArgs : String) :
    Except String Answer × Replay Number :=
  match replay.failure with
  | some message => (.error message, replay)
  | none =>
    match json.parse serializedArgs with
    | none => replay.fail "Malformed replay JSON"
    | some arguments =>
      if channel ≠ channelOf operation then
        replay.fail ("Replay channel differs at call " ++ toString replay.calls)
      else
        let counted := { replay with calls := replay.calls + 1 }
        if isContinuation operation then counted.invokeOpen json operation arguments
        else if isRead operation then counted.invokeRead json operation arguments
        else counted.invokeWrite json operation arguments

def Replay.jsSyscall : Except String Answer × Replay Number :=
  match replay.failure with
  | some message => (.error message, replay)
  | none => replay.fail "Value syscalls are outside this JSON replay contract"

/-- The calls and the writes, if everything was replayed. -/
def Replay.assertComplete : Except String (ℕ × ℕ) :=
  match replay.failure with
  | some message => .error message
  | none =>
    if replay.epochIndex + 1 ≠ replay.prepared.epochs.length || !replay.remaining.isEmpty ||
        !replay.queries.entries.isEmpty || replay.calls ≠ replay.prepared.calls then
      .error ("Incomplete syscall replay: " ++ toString replay.calls ++ " calls, " ++
        toString replay.prepared.calls ++ " expected")
    else .ok (replay.calls, replay.epochIndex)

end Replay

end ConvexWasm.SyscallReplay
