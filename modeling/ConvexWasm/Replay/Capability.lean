import ConvexWasm.Core.EpochReplay
import ConvexWasm.Core.JsonValue
import ConvexWasm.Core.TakeFirst

/-!
# Replaying captured capability calls

A captured trace is checked once and then answers the calls of a guest: reads of the
current epoch in any order, streams item by item or as a whole, and writes one after
the other.  The library that parses JSON is a parameter.
-/

namespace ConvexWasm.CapabilityReplay

open Fallible

/-- What is used of the JSON library. -/
structure SerdeJson (Number : Type) where
  parse : String → Option (JsonValue Number)
  asU64 : Number → Option ℕ
  /-- Whether two numbers are the same as floating-point numbers. -/
  sameNumber : Number → Number → Bool

variable {Number : Type} (json : SerdeJson Number)

structure Entry (Number : Type) where
  operation : String
  arguments : JsonValue Number
  result : String
  next : Option (List String)
  cleanup : Option String

structure Trace (Number : Type) where
  epochs : List (Epoch (Entry Number) (Entry Number))
  calls : ℕ

def parseResult (serialized : String) : Except String (JsonValue Number) :=
  match json.parse serialized with
  | none => .error "Malformed replay result"
  | some value => .ok value

/-- The captured arguments but for the version of the SDK. -/
def requestArguments (entry : Entry Number) : Except String (JsonValue Number) :=
  match entry.arguments with
  | .object fields =>
    match fields.lookup "version" with
    | none => .ok (.object fields)
    | some (.string _) => .ok (.object (fields.filter fun field => field.1 ≠ "version"))
    | some _ => .error "Replay SDK version is invalid"
  | _ => .error "Replay arguments are not an object"

def sameArguments (left right : JsonValue Number) : Bool :=
  JsonValue.same json.sameNumber left right

def isNull : JsonValue Number → Bool
  | .null => true
  | _ => false

def isObject : JsonValue Number → Bool
  | .object _ => true
  | _ => false

def isString : JsonValue Number → Bool
  | .string _ => true
  | _ => false

def isEmptyObject : JsonValue Number → Bool
  | .object [] => true
  | _ => false

def isQueryStart : JsonValue Number → Bool
  | .object fields =>
    fields.length = 1 &&
      match fields.lookup "queryId" with
      | some (.number id) => (json.asU64 id).any fun id => id ≤ 9007199254740991
      | _ => false
  | _ => false

def doneFlag (value : JsonValue Number) : Option Bool :=
  match value.field "done" with
  | some (.boolean done) => some done
  | _ => none

def hasTwoFields : JsonValue Number → Bool
  | .object fields => fields.length = 2
  | _ => false

/-- The items of a stream: documents, and nothing after the end. -/
def checkNext : Bool → List String → Except String Unit
  | _, [] => .ok ()
  | done, serialized :: later => do
      let value ← parseResult json serialized
      if done || !hasTwoFields value then .error "Replay query continuation is invalid"
      else
        match doneFlag value with
        | none => .error "Replay query done flag is invalid"
        | some finished =>
          match value.field "value" with
          | none => .error "Replay query document is invalid"
          | some document =>
            if finished && !isNull document || !finished && !isObject document then
              .error "Replay query document is invalid"
            else checkNext finished later

def checkQuery (read : Entry Number) (result : JsonValue Number) : Except String ℕ := do
  if !isQueryStart json result then .error "Replay query start result is invalid"
  else
    match read.next, read.cleanup with
    | none, _ => .error "Replay query has no results"
    | some _, none => .error "Replay query is not closed"
    | some next, some cleanup => do
        let cleaned ← parseResult json cleanup
        if !isEmptyObject cleaned then .error "Replay query cleanup result is invalid"
        else
          let _ ← checkNext json false next
          return next.length + 2

/-- The calls that a captured read stands for. -/
def checkRead (read : Entry Number) : Except String ℕ := do
  let _ ← requestArguments read
  let result ← parseResult json read.result
  if read.operation = "1.0/get" then
    if read.next.isNone && read.cleanup.isNone && (isNull result || isObject result) then .ok 1
    else .error "Unsupported replay read"
  else if read.operation = "1.0/queryStream" then checkQuery json read result
  else .error "Unsupported replay read"

def isInserted : JsonValue Number → Bool
  | .object fields => fields.length = 1 && (fields.lookup "_id").any isString
  | _ => false

def checkWriteResult (operation : String) (result : JsonValue Number) : Bool :=
  if operation = "1.0/insert" then isInserted result
  else if operation ∈ ["1.0/shallowMerge", "1.0/replace", "1.0/remove", "1.0/cancel_job"] then
    isEmptyObject result
  else if operation = "1.0/schedule" then isString result
  else false

def checkWrite : Option (Entry Number) → Except String ℕ
  | none => .ok 0
  | some write => do
      let _ ← requestArguments write
      let result ← parseResult json write.result
      if write.next.isSome || write.cleanup.isSome then
        .error "Replay write contains query state"
      else if checkWriteResult write.operation result then .ok 1
      else .error "Unsupported replay write or result"

def countCalls : List (Epoch (Entry Number) (Entry Number)) → Except String ℕ
  | [] => .ok 0
  | epoch :: later => do
      if !later.isEmpty && epoch.write.isNone then
        .error "Replay trace has an intermediate terminal epoch"
      else
        let reads ← epoch.reads.mapM (checkRead json)
        let write ← checkWrite json epoch.write
        let rest ← countCalls later
        return reads.sum + write + rest

section Replay

structure Stream (Number : Type) where
  next : List (JsonValue Number)
  consumed : ℕ

structure Replay (Number : Type) where
  trace : Trace Number
  epoch : ℕ
  remaining : List (Entry Number)
  streams : KeyedMap ℕ (Stream Number)
  nextStream : ℕ
  calls : ℕ
  failed : Bool

def Replay.new (trace : Trace Number) : Except String (Replay Number) :=
  match trace.epochs.head?, trace.epochs.getLast? with
  | some first, some last =>
    if last.write.isSome then .error "Replay trace has no terminal read epoch"
    else do
      let count ← countCalls json trace.epochs
      if count ≠ trace.calls then .error "Replay call count differs from its entries"
      else
        return {
          trace, epoch := 0, remaining := first.reads, streams := .empty, nextStream := 1
          calls := 0, failed := false }
  | _, _ => .error "Replay trace has no terminal read epoch"

inductive Operation (Number : Type)
  | get (arguments : JsonValue Number)
  | query (query : JsonValue Number) (collect : Bool)
  | streamNext (handle : ℕ)
  | streamClose (handle : ℕ)
  | write (operation : String) (arguments : JsonValue Number)

inductive Answer (Number : Type)
  | value (value : JsonValue Number)
  | documents (documents : List (JsonValue Number))
  | stream (handle : ℕ)
  | closed

/-- The outcome of an operation and the replay after it, which an error changes as
well. -/
abbrev Outcome (Number Result : Type) := Except String Result × Replay Number

variable (replay : Replay Number)

/-- Whether a captured read is the one asked for. -/
def asked (operation : String) (arguments : JsonValue Number) (entry : Entry Number) : Bool :=
  entry.operation = operation &&
    match requestArguments entry with
    | .ok expected => sameArguments json expected arguments
    | .error _ => false

def Replay.takeRead (operation : String) (arguments : JsonValue Number) :
    Outcome Number (Entry Number) :=
  if replay.failed then (.error "Replay has failed", replay)
  else
    match takeFirst (asked json operation arguments) replay.remaining with
    | none =>
      (.error "Replay read differs from the current epoch", { replay with failed := true })
    | some (entry, rest) =>
      (.ok entry, { replay with remaining := rest, calls := replay.calls + 1, failed := false })

def Replay.get (arguments : JsonValue Number) : Outcome Number (Answer Number) :=
  match replay.takeRead json "1.0/get" arguments with
  | (.error message, left) => (.error message, left)
  | (.ok entry, left) => ((parseResult json entry.result).map .value, left)

/-- The items that are not the end, without their flags. -/
def documents (next : List (JsonValue Number)) : Option (List (JsonValue Number)) :=
  (next.filter fun value => doneFlag value = some false).mapM (·.field "value")

def queryItems (entry : Entry Number) : Except String (List (JsonValue Number)) :=
  match entry.next with
  | none => .error "Replay query results disappeared"
  | some next => next.mapM (parseResult json)

/-- Whether a stream was read to its end. -/
def isWhole (next : List (JsonValue Number)) : Bool :=
  next.getLast?.any fun value => doneFlag value = some true

def Replay.query (query : JsonValue Number) (collect : Bool) : Outcome Number (Answer Number) :=
  match replay.takeRead json "1.0/queryStream" (.object [("query", query)]) with
  | (.error message, left) => (.error message, left)
  | (.ok entry, left) =>
    match queryItems json entry with
    | .error message => (.error message, { left with failed := true })
    | .ok next =>
      if collect then
        if !isWhole next then
          (.error "A partial stream cannot supply a bulk replay result",
            { left with failed := true })
        else
          match documents next with
          -- taking the document out of an item that has none would panic
          | none => (.error "panicked", { left with failed := true })
          | some documents =>
            (.ok (.documents documents),
              { left with calls := left.calls + (next.length + 1), failed := false })
      else if left.nextStream + 1 < 2 ^ 32 then
        (.ok (.stream left.nextStream),
          { left with
            nextStream := left.nextStream + 1
            streams := left.streams.insert left.nextStream { next, consumed := 0 }
            failed := false })
      else (.error "Replay query handle overflow", { left with failed := true })

def Replay.streamNext (handle : ℕ) : Outcome Number (Answer Number) :=
  if replay.failed then (.error "Replay has failed", replay)
  else
    match replay.streams.get? handle with
    | none => (.error "Replay query is not open", { replay with failed := true })
    | some stream =>
      match stream.next[stream.consumed]? with
      | none => (.error "Replay query has no remaining result", { replay with failed := true })
      | some value =>
        (.ok (.value value),
          { replay with
            streams := replay.streams.insert handle
              { stream with consumed := stream.consumed + 1 }
            calls := replay.calls + 1
            failed := false })

def Replay.streamClose (handle : ℕ) : Outcome Number (Answer Number) :=
  if replay.failed then (.error "Replay has failed", replay)
  else
    match replay.streams.get? handle with
    | none => (.error "Replay query is not open", { replay with failed := true })
    | some stream =>
      if stream.consumed ≠ stream.next.length then
        (.error "Replay query closed with unread results",
          { replay with streams := replay.streams.erase handle, failed := true })
      else
        (.ok .closed,
          { replay with
            streams := replay.streams.erase handle, calls := replay.calls + 1, failed := false })

/-- What a write returns of its captured result. -/
def writeResult (operation : String) (result : JsonValue Number) : JsonValue Number :=
  if operation = "1.0/insert" then (result.field "_id").getD .null
  else if operation = "1.0/schedule" then result
  else .null

def Replay.write (operation : String) (arguments : JsonValue Number) :
    Outcome Number (Answer Number) :=
  if replay.failed then (.error "Replay has failed", replay)
  else
    match replay.trace.epochs[replay.epoch]?.bind (·.write) with
    | none => (.error "Replay has no remaining write", { replay with failed := true })
    | some entry =>
      if !replay.remaining.isEmpty || !replay.streams.entries.isEmpty ||
          !asked json operation arguments entry then
        (.error "Replay write differs from the current epoch", { replay with failed := true })
      else
        match parseResult json entry.result with
        | .error message => (.error message, { replay with failed := true })
        | .ok result =>
          (.ok (.value (writeResult operation result)),
            { replay with
              epoch := replay.epoch + 1
              remaining := ((replay.trace.epochs[replay.epoch + 1]?).map (·.reads)).getD []
              calls := replay.calls + 1
              failed := false })

def Replay.finish : Except String ℕ :=
  if replay.failed || replay.epoch + 1 ≠ replay.trace.epochs.length ||
      !replay.remaining.isEmpty || !replay.streams.entries.isEmpty ||
      replay.calls ≠ replay.trace.calls then
    .error "Incomplete or failed capability replay"
  else .ok replay.calls

def Replay.perform : Operation Number → Outcome Number (Answer Number)
  | .get arguments => replay.get json arguments
  | .query query collect => replay.query json query collect
  | .streamNext handle => replay.streamNext handle
  | .streamClose handle => replay.streamClose handle
  | .write operation arguments => replay.write json operation arguments

/-- What a guest sees of its operations, and the replay after them. -/
def Replay.run : Replay Number → List (Operation Number) →
    List (Operation Number × Except String (Answer Number)) × Replay Number
  | replay, [] => ([], replay)
  | replay, operation :: later =>
    let (answer, next) := replay.perform json operation
    let (answers, last) := Replay.run next later
    ((operation, answer) :: answers, last)

end Replay

end ConvexWasm.CapabilityReplay
