import ConvexWasm.Compiler.SourceTree

/-!
# Recognising database operations

A call is recognised by its chain of methods.  A query is read backwards from
its terminal method to `query`; the stages in between are then looked up by
name.
-/

namespace ConvexWasm.Compiler.DatabaseOperation

open JsNode

structure IndexConstraintCandidate where
  field : String
  operator : String
  valueSource : String
  value : SourceRange
  deriving DecidableEq

structure OperationCandidate where
  kind : String
  range : SourceRange
  table : Option String
  index : Option String := none
  indexConstraints : List IndexConstraintCandidate := []
  order : Option String := none
  terminal : Option String := none
  limit : Option ℕ := none
  limitArgumentIndex : Option ℕ := none
  effect : SourceRange
  effectPath : String
  deriving DecidableEq

structure CanonicalIndexQueryShape where
  order : String
  terminal : String
  limit : Option ℕ
  dynamicLimit : Bool
  deriving DecidableEq

def canonicalOrder : Option String → Option String
  | none | some "asc" => some "ascending"
  | some "desc" => some "descending"
  | some _ => none

def canonicalTerminal : String → Option ℕ → Bool → Option (String × Option ℕ)
  | "collect", none, false => some ("collect", none)
  | "first", none, false => some ("first", none)
  | "unique", none, false => some ("unique", none)
  | "take", some limit, false =>
    if 1 ≤ limit ∧ limit ≤ 100000 then some ("collect", some limit) else none
  | "take", none, true => some ("collect", none)
  | _, _, _ => none

def canonicalIndexQueryShape (order : Option String) (terminal : String) (limit : Option ℕ)
    (dynamicLimit : Bool) : Option CanonicalIndexQueryShape := do
  let order ← canonicalOrder order
  let (terminal, limit) ← canonicalTerminal terminal limit dynamicLimit
  return ⟨order, terminal, limit, dynamicLimit⟩

/-- The bytes of a range, if they are text. -/
def sourceSlice (source : String) (range : SourceRange) : Option String :=
  let bytes := source.toUTF8
  if range.start ≤ range.stop ∧ range.stop ≤ bytes.size then
    String.fromUTF8? (bytes.extract range.start range.stop)
  else none

structure ParsedIndexConstraint where
  field : String
  operator : String
  value : JsNode
  unwrapped : ∀ expression range, value ≠ .wrapper range expression

def constraintOperators : List String :=
  ["eq", "gt", "gte", "lt", "lte"]

/-- One call on the range parameter: an operator with a field and a value. -/
def parseIndexConstraint (operator : String) (arguments : List JsNode) :
    Option ParsedIndexConstraint :=
  match arguments with
  | [field, value] =>
    if operator ∈ constraintOperators then
      match field.valueString with
      | some "" | none => none
      | some field => some ⟨field, operator, value.unwrapRuntimeExpression,
          value.unwrapRuntimeExpression_ne⟩
    else none
  | _ => none

mutual

/-- The constraints of a chain of calls on the range parameter, in the order in
which they are called; only a receiver may be the parameter itself. -/
def constraintsOf (parameter : String) : Bool → JsNode → Option (List ParsedIndexConstraint)
  | receiver, .wrapper _ expression => constraintsOf parameter receiver expression
  | true, .identifier _ name => if name = parameter then some [] else none
  | _, .call _ callee arguments optional =>
    if optional || callee.expressionHasOptionalChain then none
    else
      match constraintReceiver parameter callee with
      | none => none
      | some (operator, before) =>
        (parseIndexConstraint operator arguments).map fun constraint => before ++ [constraint]
  | _, _ => none

/-- The method of a call and the constraints of its receiver. -/
def constraintReceiver (parameter : String) :
    JsNode → Option (String × List ParsedIndexConstraint)
  | .wrapper _ expression => constraintReceiver parameter expression
  | .member _ object property computed _ =>
    if computed then none
    else
      match property.identifierName with
      | none => none
      | some operator => (constraintsOf parameter true object).map (operator, ·)
  | _ => none

end

/-- Distinct fields, equalities before at most one bound, and an equality first. -/
def constraintsOrdered (constraints : List ParsedIndexConstraint) : Bool :=
  (constraints.head?.map (·.operator)) == some "eq" &&
    decide (constraints.map (·.field)).Nodup &&
    constraints.dropLast.all fun constraint => constraint.operator == "eq"

def parseIndexConstraints (callback : JsNode) : Option (List ParsedIndexConstraint) :=
  match callback.unwrapRuntimeExpression with
  | .arrow _ parameters body _ | .function _ parameters body _ =>
    match parameters with
    | [.identifier _ parameter] =>
      match constraintsOf parameter false body with
      | none => none
      | some constraints => if constraintsOrdered constraints then some constraints else none
    | _ => none
  | _ => none

/-- One method call of a chain. -/
structure Stage where
  method : String
  callee : JsNode
  arguments : List JsNode

mutual

/-- The calls of a chain from its beginning; none for what is no call. -/
def stagesOf : JsNode → Option (List Stage)
  | .wrapper _ expression => stagesOf expression
  | .call _ callee arguments _ =>
    (calleeStages callee).map fun (method, before) => before ++ [⟨method, callee, arguments⟩]
  | _ => some []

/-- The method of a call and the stages of its receiver. -/
def calleeStages : JsNode → Option (String × List Stage)
  | .wrapper _ expression => calleeStages expression
  | .member _ object property computed _ =>
    if computed then none
    else
      match property.identifierName with
      | none => none
      | some method => (stagesOf object).map (method, ·)
  | _ => none

end

/-- The stages of a recognised call, whose own node type is not looked at. -/
def chainStages : JsNode → Option (List Stage)
  | .wrapper _ expression => chainStages expression
  | .call _ callee arguments _ | .construct _ callee arguments =>
    (calleeStages callee).map fun (method, before) => before ++ [⟨method, callee, arguments⟩]
  | _ => none

/-- Operations on a document: kind and number of arguments. -/
def documentOperation : List String → Option (String × ℕ)
  | [_, "db", "get"] => some ("db.get", 2)
  | [_, "db", "insert"] => some ("db.insert", 2)
  | [_, "db", "patch"] => some ("db.patch", 3)
  | [_, "db", "replace"] => some ("db.replace", 3)
  | [_, "db", "delete"] => some ("db.delete", 2)
  | _ => none

def parseDocumentOperation (range effect : SourceRange) (segments : List String) (kind : String)
    (arity : ℕ) (arguments : List JsNode) : Option OperationCandidate :=
  if arguments.length = arity then
    match arguments.head?.bind valueString with
    | some "" | none => none
    | some table => some {
        kind := kind
        range := range
        table := some table
        effect := effect
        effectPath := ".".intercalate segments }
  else none

/-- A limit is a whole number in range, or known only at run time. -/
def takeLimit (argument : JsNode) : Option (Option ℕ × Bool) :=
  match argument.unwrapRuntimeExpression with
  | .literal _ (.number value) =>
    if value.den = 1 ∧ 1 ≤ value ∧ value ≤ 100000 then some (some value.num.toNat, false)
    else none
  | .literal _ _ | .spread _ _ => none
  | _ => some (none, true)

/-- The limit that the terminal method passes, and whether it is known only at
run time. -/
def terminalLimit (terminal : String) (arguments : List JsNode) : Option (Option ℕ × Bool) :=
  if terminal = "take" then
    match arguments with
    | [argument] => takeLimit argument
    | _ => none
  else if arguments.isEmpty then some (none, false) else none

/-- The only stage with this name. -/
def singleStage (name : String) (stages : List Stage) : Option (Option Stage) :=
  match stages.filter (fun stage => stage.method == name) with
  | [] => some none
  | [stage] => some (some stage)
  | _ => none

/-- The name of the index and the constraints of its callback. -/
def indexStage (stage : Stage) : Option (String × List ParsedIndexConstraint) :=
  match stage.arguments with
  | [index, callback] =>
    match index.valueString with
    | some "" | none => none
    | some index => (parseIndexConstraints callback).map (index, ·)
  | _ => none

def orderStage (stage : Option Stage) : Option (Option String) :=
  match stage with
  | none => some none
  | some stage =>
    match stage.arguments with
    | [order] => order.valueString.map some
    | _ => none

/-- The table of the first stage, which must be `query` of a database. -/
def queryTable (stage : Stage) : Option (String × List String) :=
  if stage.method = "query" then
    match stage.callee.memberSegments, stage.arguments with
    | some [root, "db", "query"], [table] =>
      match table.valueString with
      | some "" | none => none
      | some table => some (table, [root, "db", "query"])
    | _, _ => none
  else none

def indexConstraintCandidate (source : String) (constraint : ParsedIndexConstraint) :
    IndexConstraintCandidate where
  field := constraint.field
  operator := constraint.operator
  valueSource := (sourceSlice source constraint.value.range).getD ""
  value := constraint.value.range

/-- A query from its first stage, the other stages and its terminal method. -/
def parseQuery (source : String) (range : SourceRange) (opening : Stage) (stages : List Stage)
    (terminal : String) (terminalArguments : List JsNode) : Option OperationCandidate := do
  let (limit, dynamicLimit) ← terminalLimit terminal terminalArguments
  let (table, segments) ← queryTable opening
  let indexed ← singleStage "withIndex" stages
  let indexed ← indexed
  let (index, constraints) ← indexStage indexed
  let ordered ← singleStage "order" stages
  let order ← orderStage ordered
  let shape ← canonicalIndexQueryShape order terminal limit dynamicLimit
  let indexConstraints := constraints.map (indexConstraintCandidate source)
  return {
    kind := "db.query"
    range := range
    table := some table
    index := some index
    indexConstraints := indexConstraints
    order := some shape.order
    terminal := some shape.terminal
    limit := shape.limit
    limitArgumentIndex := if shape.dynamicLimit then some indexConstraints.length else none
    effect := opening.callee.range
    effectPath := ".".intercalate segments }

def terminalMethods : List String :=
  ["collect", "first", "unique", "take"]

/-- `parse_db_operation_for_source` of a call in the source itself. -/
def parseDbOperation (node : JsNode) (source : String) : Option OperationCandidate :=
  let call := node.unwrapRuntimeExpression
  if call.callHasOptionalCallee then none
  else
    match call with
    | .call range callee arguments _ | .construct range callee arguments =>
      match callee.memberSegments.bind fun segments =>
          (documentOperation segments).map (segments, ·) with
      | some (segments, kind, arity) =>
        parseDocumentOperation range callee.range segments kind arity arguments
      | none =>
        match chainStages call with
        | some (opening :: later) =>
          match (opening :: later).getLast? with
          | some terminal =>
            if terminal.method ∈ terminalMethods then
              parseQuery source range opening (opening :: later) terminal.method
                terminal.arguments
            else none
          | none => none
        | _ => none
    | _ => none

end ConvexWasm.Compiler.DatabaseOperation
