import ConvexWasm.Guest.OperationManifest

/-!
# Queries at run time

A query is built by calls that return new queries, and its range by calls that
return new ranges.  The terminal call looks the operation up by everything the
calls have said and passes it the operands in their order.
-/

namespace ConvexWasm.Guest

section Ranges

variable {Value : Type}

/-- A range is what has been said of it so far, in three lists. -/
structure RangeState (Value : Type) where
  fields : List String
  operators : List ConstraintOperator
  values : List Value

def RangeState.root : RangeState Value := ⟨[], [], []⟩

/-- A call of a method on one of the ranges; a field may be no string. -/
structure RangeCall (Value : Type) where
  receiver : ℕ
  operator : ConstraintOperator
  field : Option String
  value : Value

/-- `add` -/
def RangeState.add (range : RangeState Value) (call : RangeCall Value) :
    Except String (RangeState Value) :=
  match call.field with
  | none => .error "Index constraint field and operator must be strings"
  | some field =>
    if range.operators.getLast?.any (· != .eq) then
      .error "Index equality constraints must precede the range constraint"
    else if field ∈ range.fields then .error "Index constraint fields must be unique"
    else .ok ⟨range.fields ++ [field], range.operators ++ [call.operator],
      range.values ++ [call.value]⟩

/-- The ranges after a call.  A call that throws leaves none behind, and the
caller may go on. -/
def addRange (states : List (RangeState Value)) (call : RangeCall Value) :
    List (RangeState Value) :=
  match states[call.receiver]? with
  | none => states
  | some range =>
    match range.add call with
    | .error _ => states
    | .ok next => states ++ [next]

def buildRanges (calls : List (RangeCall Value)) : List (RangeState Value) :=
  calls.foldl addRange [.root]

end Ranges

section Queries

variable {Value : Type}

inductive NameValue
  | undefined
  | text (name : String)
  | other
  deriving DecidableEq

inductive OrderName
  | asc
  | desc
  deriving DecidableEq

/-- What a query object closes over. -/
structure Query (Value : Type) where
  table : String
  index : NameValue
  range : Option (RangeState Value)
  order : Option OrderName

def createQuery (table : String) : Query Value := ⟨table, .undefined, none, none⟩

/-- A call on a query that returns a query: the calls that the callback makes
on ranges and which range it returns, if any; an order that is none of the two
names is `none`. -/
inductive QueryStage (Value : Type)
  | withIndex (index : NameValue) (calls : List (RangeCall Value)) (returned : Option ℕ)
  | order (order : Option OrderName)

def Query.apply (query : Query Value) : QueryStage Value → Except String (Query Value)
  | .withIndex index calls returned =>
    if query.index ≠ .undefined then .error "withIndex was already called"
    else
      match returned.bind ((buildRanges calls)[·]?) with
      | none => .error "Unsupported index range expression"
      | some range =>
        if range.fields = [] then .error "Unsupported index range expression"
        else .ok { query with index, range := some range }
  | .order none => .error "Invalid query order"
  | .order (some order) => .ok { query with order := some order }

/-- The value of a limit at run time. -/
inductive LimitValue
  | null
  | integer (value : ℤ)
  | other
  deriving DecidableEq

/-- The terminal call; only `take` passes a limit. -/
inductive TerminalCall
  | collect
  | first
  | stream
  | unique
  | take (limit : LimitValue)
  deriving DecidableEq

def TerminalCall.limit : TerminalCall → LimitValue
  | take limit => limit
  | collect | first | stream | unique => .null

def TerminalCall.isTake : TerminalCall → Bool
  | take _ => true
  | collect | first | stream | unique => false

def TerminalCall.normalized : TerminalCall → QueryTerminal
  | collect | take _ => .collect
  | first => .first
  | stream => .stream
  | unique => .unique

def normalizedOrder : Option OrderName → QueryOrder
  | none | some .asc => .ascending
  | some .desc => .descending

end Queries

section Lookup

def notAdmitted : String := "Convex operation was not admitted by the execution manifest"

def limitMatches (query : IndexQuery) (terminal : TerminalCall) : Bool :=
  match query.limitArgumentIndex with
  | none =>
    terminal.limit == match query.limit with
      | none => .null
      | some limit => .integer limit
  | some _ =>
    terminal.isTake && match terminal.limit with
      | .integer limit => isLimit limit
      | .null | .other => false

/-- The comparisons of one branch of `__convexIndexQueryOperationId`. -/
def indexQueryMatches (query : IndexQuery) (table : String) (index : NameValue)
    (fields : List String) (operators : List ConstraintOperator) (order : Option OrderName)
    (terminal : TerminalCall) : Bool :=
  table == query.table && index == .text query.index &&
    fields == query.constraints.map IndexConstraint.field &&
    operators == query.constraints.map IndexConstraint.operator &&
    normalizedOrder order == query.order && terminal.normalized == query.terminal &&
    limitMatches query terminal

/-- Only the index queries among the operations have a branch. -/
def indexBranch (table : String) (index : NameValue) (fields : List String)
    (operators : List ConstraintOperator) (order : Option OrderName) (terminal : TerminalCall)
    (operation : Operation) : Bool :=
  match operation.kind with
  | .databaseIndexQuery query =>
    indexQueryMatches query table index fields operators order terminal
  | _ => false

variable (operations : List Operation)

def indexQueryOperationId (table : String) (index : NameValue)
    (fields : List String) (operators : List ConstraintOperator) (order : Option OrderName)
    (terminal : TerminalCall) : Except String ℤ :=
  match operations.find? (indexBranch table index fields operators order terminal) with
  | some operation => .ok operation.id
  | none => .error notAdmitted

def directBatchArgumentCount : OperationKind → ℕ
  | .authenticationGetUserIdentity => 0
  | .databaseWrite .databasePatch _ | .databaseWrite .databaseReplace _ | .schedule _ _ => 2
  | .databaseIndexQuery query =>
    query.constraints.length + (if query.limitArgumentIndex = none then 0 else 1)
  | _ => 1

/-- `__convexAsyncBatchArgumentCount` -/
def asyncBatchArgumentCount (id : ℤ) : Except String ℕ :=
  match operations.find? fun operation => decide (operation.id = id) with
  | some operation => .ok (directBatchArgumentCount operation.kind)
  | none => .error "Convex batch operation was not admitted by the execution manifest"

/-- What is passed to the host: a value of the guest or the limit. -/
inductive Operand (Value : Type)
  | value (value : Value)
  | limit (limit : LimitValue)
  deriving DecidableEq

variable {Value : Type}

/-- `operation(terminal, limit)` of a query. -/
def Query.operation (query : Query Value)
    (terminal : TerminalCall) : Except String (ℤ × List (Operand Value)) :=
  match query.index, query.range with
  | .undefined, _ | _, none => .error "Only indexed constraint queries are admitted"
  | index, some range => do
      let id ← indexQueryOperationId operations query.table index range.fields range.operators
        query.order terminal
      let count ← asyncBatchArgumentCount operations id
      return (id, range.values.map .value ++
        if range.values.length < count then [.limit terminal.limit] else [])

/-- A whole query call, from `query` to the terminal call. -/
def performQuery (table : String) (stages : List (QueryStage Value))
    (terminal : TerminalCall) : Except String (ℤ × List (Operand Value)) := do
  let query ← stages.foldlM Query.apply (createQuery table)
  query.operation operations terminal

/-- The other calls that look an operation up. -/
inductive DirectCall (Value : Type)
  | getUserIdentity
  | createFunctionHandle (address : Value)
  | normalizeId (table : String) (value : Value)
  | get (table : String) (id : Value)
  | write (kind : WriteKind) (table : String) (id value : Value)
  | schedule (kind : ScheduleKind) (functionReference : Option String) (time arguments : Value)

/-- The first operation of a kind, as the lookups by kind, table and function
reference find it. -/
def operationId (kind : OperationKind) (refusal : String) : Except String ℤ :=
  match operations.find? fun operation => decide (operation.kind = kind) with
  | some operation => .ok operation.id
  | none => .error refusal

def databaseGetOperationId (table : String) : Except String ℤ :=
  operationId operations (.databaseGet table)
    "Convex database get was not admitted by the execution manifest"

def authenticationGetUserIdentityOperationId : Except String ℤ :=
  operationId operations .authenticationGetUserIdentity
    "Convex authentication identity operation was not admitted by the execution manifest"

def functionHandleCreateOperationId : Except String ℤ :=
  operationId operations .functionHandleCreate
    "Convex function-handle creation was not admitted by the execution manifest"

def databaseNormalizeIdOperationId (table : String) : Except String ℤ :=
  operationId operations (.databaseNormalizeId table)
    "Convex database normalizeId operation was not admitted by the execution manifest"

def databaseWriteOperationId (kind : WriteKind) (table : String) : Except String ℤ :=
  operationId operations (.databaseWrite kind table)
    "Convex database write was not admitted by the execution manifest"

/-- A reference that is none of those known at compile time is no text. -/
def schedulerOperationId (kind : ScheduleKind)
    (functionReference : Option String) : Except String ℤ :=
  let refusal := "Convex scheduler operation was not admitted by the execution manifest"
  match functionReference with
  | some functionReference => operationId operations (.schedule kind functionReference) refusal
  | none => .error refusal

/-- A call with the operands that it passes to the host. -/
def performDirect :
    DirectCall Value → Except String (ℤ × List (Operand Value))
  | .getUserIdentity => do
      let id ← authenticationGetUserIdentityOperationId operations
      return (id, [])
  | .createFunctionHandle address => do
      let id ← functionHandleCreateOperationId operations
      return (id, [.value address])
  | .normalizeId table value => do
      let id ← databaseNormalizeIdOperationId operations table
      return (id, [.value value])
  | .get table id => do
      let operation ← databaseGetOperationId operations table
      return (operation, [.value id])
  | .write kind table id value => do
      let operation ← databaseWriteOperationId operations kind table
      return (operation,
        match kind with
        | .databaseInsert => [.value value]
        | .databaseDelete => [.value id]
        | .databasePatch | .databaseReplace => [.value id, .value value])
  | .schedule kind functionReference time arguments => do
      let id ← schedulerOperationId operations kind functionReference
      return (id, [.value time, .value arguments])

end Lookup

end ConvexWasm.Guest
