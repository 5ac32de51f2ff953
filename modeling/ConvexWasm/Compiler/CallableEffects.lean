import ConvexWasm.Core.ValueTracing

/-!
# Callable effects

An effect of a helper whose static operands are parameters is specialised at
the calls of the helper.  Each operand is resolved to the literals that every
chain of calls passes for it; what is resolved once is cached.
-/

namespace ConvexWasm.Compiler.CallableEffects

inductive StaticOperandField
  | table
  | index
  | functionReference
  deriving DecidableEq

structure StaticOperand where
  field : StaticOperandField
  parameterIndex : ℕ
  deriving DecidableEq

inductive EffectTiming
  | synchronous
  | suspending
  deriving DecidableEq

structure EffectTemplate where
  id : String
  unitId : String
  staticOperands : List StaticOperand
  timing : EffectTiming
  tailReturnSafe : Bool
  deriving DecidableEq

/-- Unit and index of a parameter. -/
abbrev ParameterKey := String × ℕ

inductive ArgumentFlow
  | literalString (value : String)
  | parameter (key : ParameterKey)
  | unknown
  deriving DecidableEq

inductive CallPosition
  | synchronous
  | sequentialAwait
  | tailReturn
  deriving DecidableEq

structure CallEdge where
  callerModule : String
  callStart : ℕ
  callEnd : ℕ
  targetUnitId : String
  arguments : List ArgumentFlow
  argumentsSafe : Bool
  position : CallPosition
  deriving DecidableEq

inductive EffectPropagationPolicy
  | blockingFiberCompatibility
  | staticHermesGuestPromise
  deriving DecidableEq

/-- The operands assigned so far; a later operand of the same field replaces an
earlier one. -/
structure StaticAssignment where
  table : Option String
  index : Option String
  functionReference : Option String
  deriving DecidableEq

def StaticAssignment.empty : StaticAssignment := ⟨none, none, none⟩

def StaticAssignment.insert (assignment : StaticAssignment) (value : String) :
    StaticOperandField → StaticAssignment
  | .table => { assignment with table := some value }
  | .index => { assignment with index := some value }
  | .functionReference => { assignment with functionReference := some value }

structure EffectSpecialization where
  templateId : String
  callerModule : String
  callStart : ℕ
  callEnd : ℕ
  staticOperands : StaticAssignment
  position : CallPosition
  deriving DecidableEq

/-- The literals of a parameter, listed without repetition, when all are known. -/
abbrev StaticValues := Option (List String)

/-- Resolved parameters, the latest first. -/
abbrev StaticCache := List (ParameterKey × StaticValues)

section Resolution

variable (calls : List CallEdge) (completeTargets : Option (List String))

def incoming (unitId : String) : List CallEdge :=
  calls.filter fun call => decide (call.targetUnitId = unitId)

/-- Without a set of complete targets every target counts as complete. -/
def isComplete (unitId : String) : Bool :=
  completeTargets.all fun targets => decide (unitId ∈ targets)

/-- The loop over the incoming calls; it stops at the first call that leaves the
parameter unknown. -/
def collectArguments
    (resolve : ArgumentFlow → StaticCache → StaticValues × StaticCache) (index : ℕ) :
    List CallEdge → List String → StaticCache → StaticValues × StaticCache
  | [], values, cache => (if values = [] then none else some values, cache)
  | call :: rest, values, cache =>
    match call.arguments[index]? with
    | none => (none, cache)
    | some argument =>
      match resolve argument cache with
      | (none, cache) => (none, cache)
      | (some found, cache) =>
        collectArguments resolve index rest (values ∪ found) cache

/-- One nested parameter per unit of fuel. -/
def resolveParameter :
    ℕ → ParameterKey → StaticCache → List ParameterKey → StaticValues × StaticCache
  | 0, _, cache, _ => (none, cache)
  | fuel + 1, key, cache, visiting =>
    match cache.lookup key with
    | some cached => (cached, cache)
    | none =>
      if key ∈ visiting then (none, cache)
      else if ¬ isComplete completeTargets key.1 then (none, (key, none) :: cache)
      else
        let resolve : ArgumentFlow → StaticCache → StaticValues × StaticCache
          | .literalString value, cache => (some [value], cache)
          | .parameter origin, cache =>
            resolveParameter fuel origin cache (key :: visiting)
          | .unknown, cache => (none, cache)
        let (result, cache) := collectArguments resolve key.2 (incoming calls key.1) [] cache
        (result, (key, result) :: cache)

/-- The parameters that calls pass on. -/
def passedParameters : List ParameterKey :=
  calls.flatMap fun call => call.arguments.filterMap fun argument =>
    match argument with
    | .parameter key => some key
    | _ => none

/-- Parameters that may still be nested in the visited ones. -/
def unvisited (calls : List CallEdge) (start : ParameterKey) (visiting : List ParameterKey) : ℕ :=
  ((start :: passedParameters calls).filter fun key => decide (key ∉ visiting)).length

/-- A nested parameter is one that a call passes on, and none is nested in itself. -/
def resolutionFuel : ℕ := (passedParameters calls).length + 2

def resolveArgument (argument : ArgumentFlow) (cache : StaticCache) : StaticValues × StaticCache :=
  match argument with
  | .literalString value => (some [value], cache)
  | .parameter key =>
    resolveParameter calls completeTargets (resolutionFuel calls) key cache []
  | .unknown => (none, cache)

/-- The assignments of one call to the operands of a template. -/
def expandOperands (call : CallEdge) :
    List StaticOperand → List StaticAssignment → StaticCache → List StaticAssignment × StaticCache
  | [], assignments, cache => (assignments, cache)
  | operand :: rest, assignments, cache =>
    match call.arguments[operand.parameterIndex]? with
    | none => ([], cache)
    | some argument =>
      match resolveArgument calls completeTargets argument cache with
      | (none, cache) => ([], cache)
      | (some values, cache) =>
        expandOperands call rest
          (assignments.flatMap fun assignment =>
            values.map fun value => assignment.insert value operand.field) cache

def compatiblePosition (policy : EffectPropagationPolicy) (template : EffectTemplate)
    (call : CallEdge) : Bool :=
  match policy with
  | .blockingFiberCompatibility =>
    decide (template.timing ≠ .suspending) ||
      decide (call.position = .sequentialAwait) ||
      (template.tailReturnSafe && decide (call.position = .tailReturn))
  | .staticHermesGuestPromise => true

def specialization (template : EffectTemplate) (call : CallEdge)
    (assignment : StaticAssignment) : EffectSpecialization where
  templateId := template.id
  callerModule := call.callerModule
  callStart := call.callStart
  callEnd := call.callEnd
  staticOperands := assignment
  position := call.position

/-- The specialisations of a template at its calls, with the cache passed on. -/
def specializeCalls (policy : EffectPropagationPolicy) (template : EffectTemplate) :
    List CallEdge → StaticCache → List EffectSpecialization × StaticCache
  | [], cache => ([], cache)
  | call :: rest, cache =>
    if ¬ call.argumentsSafe ∨ ¬ compatiblePosition policy template call then
      specializeCalls policy template rest cache
    else
      let (assignments, cache) := expandOperands calls completeTargets call
        template.staticOperands [.empty] cache
      let (later, cache) := specializeCalls policy template rest cache
      (assignments.map (specialization template call) ++ later, cache)

def specializeTemplates (policy : EffectPropagationPolicy) :
    List EffectTemplate → StaticCache → List EffectSpecialization × StaticCache
  | [], cache => ([], cache)
  | template :: rest, cache =>
    if ¬ isComplete completeTargets template.unitId then
      specializeTemplates policy rest cache
    else
      let (found, cache) := specializeCalls calls completeTargets policy template
        (incoming calls template.unitId) cache
      let (later, cache) := specializeTemplates policy rest cache
      (found ++ later, cache)

end Resolution

/-- The entries of the ordered map, by field. -/
def StaticAssignment.entries (assignment : StaticAssignment) : List (ℕ × String) :=
  (assignment.table.map (0, ·)).toList ++ (assignment.index.map (1, ·)).toList ++
    (assignment.functionReference.map (2, ·)).toList

def compareEntries : List (ℕ × String) → List (ℕ × String) → Ordering
  | [], [] => .eq
  | [], _ :: _ => .lt
  | _ :: _, [] => .gt
  | left :: lefts, right :: rights =>
    (compare left.1 right.1).then <| (compare left.2 right.2).then <| compareEntries lefts rights

/-- The order the output is sorted in; positions are not compared. -/
def specializationOrder (left right : EffectSpecialization) : Ordering :=
  (compare left.templateId right.templateId).then <|
    (compare left.callerModule right.callerModule).then <|
      (compare left.callStart right.callStart).then <|
        (compare left.callEnd right.callEnd).then <|
          compareEntries left.staticOperands.entries right.staticOperands.entries

/-- `Vec::dedup`: of equal neighbours the first stays. -/
def dedupNeighbours : List EffectSpecialization → List EffectSpecialization
  | [] => []
  | first :: rest =>
    match dedupNeighbours rest with
    | [] => [first]
    | next :: later => if first = next then next :: later else first :: next :: later

def specializeEffectsWithPolicy (templates : List EffectTemplate) (calls : List CallEdge)
    (completeTargets : Option (List String)) (policy : EffectPropagationPolicy) :
    List EffectSpecialization :=
  let output := (specializeTemplates calls completeTargets policy templates []).1
  dedupNeighbours (output.insertionSort fun left right =>
    (specializationOrder left right).isLE = true)

end ConvexWasm.Compiler.CallableEffects
