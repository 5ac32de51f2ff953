import ConvexWasm.Compiler.DatabaseOperation

/-!
# What a chain of calls passes to the database

A chain that begins at the database of a Convex context calls its methods one
after another.  An execution gives the values of the expressions it evaluates;
the callback of an index is called with a range and makes calls on it.
-/

namespace ConvexWasm.Compiler.DatabaseOperation

/-- The values of expressions where they stand, and the elements that spread
arguments yield. -/
structure Execution (Value : Type) where
  value : SourceRange → Value
  elements : SourceRange → List Value

/-- A value that is passed; of a literal also its text or number is known. -/
structure PassedValue (Value : Type) where
  literal : Option JsLiteral
  value : Value

def PassedValue.text {Value : Type} (passed : PassedValue Value) : Option String :=
  match passed.literal with
  | some (.text text) => some text
  | _ => none

/-- A call on the range of an index. -/
structure RangeCall (Value : Type) where
  method : String
  arguments : List (PassedValue Value)

/-- An argument of a stage; of a function also the calls it makes on a range
are known, and whether it returns them in a promise. -/
structure StageArgument (Value : Type) extends PassedValue Value where
  callback : Option (List (RangeCall Value) × Bool)

structure StageCall (Value : Type) where
  method : String
  arguments : List (StageArgument Value)

section Calls

variable {Value : Type} (execution : Execution Value)

def passedValues : JsNode → List (PassedValue Value)
  | .wrapper _ expression => passedValues expression
  | .spread range _ => (execution.elements range).map fun value => ⟨none, value⟩
  | .literal range value => [⟨some value, execution.value range⟩]
  | node => [⟨none, execution.value node.range⟩]

/-- The name of a member, also in brackets. -/
def memberName (property : JsNode) (computed : Bool) : Option String :=
  if computed then property.valueString else property.identifierName

mutual

/-- The calls on the parameter that lead to the value of an expression. -/
def rangeCalls (parameter : String) : JsNode → Option (List (RangeCall Value))
  | .wrapper _ expression => rangeCalls parameter expression
  | .chain _ expression => rangeCalls parameter expression
  | .identifier _ name => if name = parameter then some [] else none
  | .call _ callee arguments _ =>
    (rangeReceiver parameter callee).map fun (method, before) =>
      before ++ [⟨method, arguments.flatMap (passedValues execution)⟩]
  | _ => none

def rangeReceiver (parameter : String) : JsNode → Option (String × List (RangeCall Value))
  | .wrapper _ expression => rangeReceiver parameter expression
  | .chain _ expression => rangeReceiver parameter expression
  | .member _ object property computed _ =>
    match memberName property computed with
    | none => none
    | some method => (rangeCalls parameter object).map (method, ·)
  | _ => none

end

def callbackCalls : JsNode → Option (List (RangeCall Value) × Bool)
  | .arrow _ [.identifier _ parameter] body isAsync
  | .function _ [.identifier _ parameter] body isAsync =>
    (rangeCalls execution parameter body).map (·, isAsync)
  | _ => none

def stageArguments (node : JsNode) : List (StageArgument Value) :=
  (passedValues execution node).map fun passed =>
    { passed with callback := callbackCalls execution node.unwrapRuntimeExpression }

/-- `context.db`, for any name of the context. -/
def isDatabase (node : JsNode) : Bool :=
  match node.memberSegments with
  | some [_, "db"] => true
  | _ => false

mutual

/-- The calls on the database that lead to the value of an expression. -/
def databaseCalls : JsNode → Option (List (StageCall Value))
  | .wrapper _ expression => databaseCalls expression
  | .chain _ expression => databaseCalls expression
  | .call _ callee arguments _ =>
    (databaseReceiver callee).map fun (method, before) =>
      before ++ [⟨method, arguments.flatMap (stageArguments execution)⟩]
  | _ => none

def databaseReceiver : JsNode → Option (String × List (StageCall Value))
  | .wrapper _ expression => databaseReceiver expression
  | .chain _ expression => databaseReceiver expression
  | .member _ object property computed _ =>
    match memberName property computed with
    | none => none
    | some method =>
      if isDatabase object then some (method, [])
      else (databaseCalls object).map (method, ·)
  | _ => none

end

end Calls

section Performed

structure PerformedConstraint (Value : Type) where
  field : Option String
  operator : String
  operands : List Value
  deriving DecidableEq

/-- A limit is a number or one of the values passed, the operands of the
constraints first. -/
inductive PerformedLimit
  | fixed (limit : ℕ)
  | argument (index : ℕ)
  deriving DecidableEq

/-- What the database performs.  The stages that are neither an index nor an
order are kept as they are. -/
structure PerformedOperation (Value : Type) where
  kind : String
  table : Option String
  index : Option String := none
  constraints : List (PerformedConstraint Value) := []
  order : Option String := none
  terminal : Option String := none
  limit : Option PerformedLimit := none
  furtherStages : List (StageCall Value) := []

variable {Value : Type}

def performedConstraint (call : RangeCall Value) : PerformedConstraint Value where
  field := call.arguments.head?.bind PassedValue.text
  operator := call.method
  operands := call.arguments.tail.map (·.value)

def documentMethods : List String :=
  ["get", "insert", "patch", "replace", "delete"]

def performedDocument (call : StageCall Value) : Option (PerformedOperation Value) :=
  if call.method ∈ documentMethods then
    some {
      kind := "db." ++ call.method
      table := call.arguments.head?.bind fun table => table.text }
  else none

def performedOrder : List (StageCall Value) → Option String
  | [] => some "ascending"
  | [call] =>
    match call.arguments.map fun order => order.text with
    | [some "asc"] => some "ascending"
    | [some "desc"] => some "descending"
    | _ => none
  | _ => none

def performedTerminal (operands : ℕ) (call : StageCall Value) :
    Option (String × Option PerformedLimit) :=
  match call.method, call.arguments with
  | "collect", [] => some ("collect", none)
  | "first", [] => some ("first", none)
  | "unique", [] => some ("unique", none)
  | "take", [limit] =>
    match limit.literal with
    | some (.number value) => some ("collect", some (.fixed value.num.toNat))
    | _ => some ("collect", some (.argument operands))
  | _, _ => none

/-- Calls with this name. -/
def named (name : String) (calls : List (StageCall Value)) : List (StageCall Value) :=
  calls.filter fun call => call.method == name

def furtherStages (calls : List (StageCall Value)) : List (StageCall Value) :=
  calls.filter fun call => call.method != "withIndex" && call.method != "order"

/-- The calls of a callback that returns its range and no promise. -/
def settledCalls (range : StageArgument Value) : Option (List (RangeCall Value)) :=
  match range.callback with
  | some (calls, false) => some calls
  | _ => none

/-- A query whose one index has a callback that returns its range. -/
def performedQuery (opening : StageCall Value) (middle : List (StageCall Value))
    (terminal : StageCall Value) : Option (PerformedOperation Value) :=
  match (named "withIndex" middle).map fun call => call.arguments with
  | [[index, range]] => do
      let calls ← settledCalls range
      let constraints := calls.map performedConstraint
      let order ← performedOrder (named "order" middle)
      let (terminal, limit) ←
        performedTerminal (constraints.flatMap (·.operands)).length terminal
      return {
        kind := "db.query"
        table := opening.arguments.head?.bind fun table => table.text
        index := index.text
        constraints := constraints
        order := some order
        terminal := some terminal
        limit := limit
        furtherStages := furtherStages middle }
  | _ => none

/-- What a call performs when the root of its chain is a Convex context. -/
def performedOperation (execution : Execution Value) (node : JsNode) :
    Option (PerformedOperation Value) :=
  match databaseCalls execution node with
  | some [call] => performedDocument call
  | some (opening :: later) =>
    if opening.method = "query" then
      later.getLast?.bind (performedQuery opening later.dropLast)
    else none
  | _ => none

def limitPerformed (limit : Option ℕ) (argumentIndex : Option ℕ) : Option PerformedLimit :=
  match limit with
  | some limit => some (.fixed limit)
  | none => argumentIndex.map .argument

/-- What a candidate says is performed: nothing but its own fields. -/
def OperationCandidate.performed (candidate : OperationCandidate) (execution : Execution Value) :
    PerformedOperation Value where
  kind := candidate.kind
  table := candidate.table
  index := candidate.index
  constraints := candidate.indexConstraints.map fun constraint =>
    ⟨some constraint.field, constraint.operator, [execution.value constraint.value]⟩
  order := candidate.order
  terminal := candidate.terminal
  limit := limitPerformed candidate.limit candidate.limitArgumentIndex

end Performed

end ConvexWasm.Compiler.DatabaseOperation
