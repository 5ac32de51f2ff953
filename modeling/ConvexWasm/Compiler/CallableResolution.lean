import ConvexWasm.Compiler.StaticTarget

/-!
# The index of reachable static calls

Calls and references are attributed to the innermost reachable callable that
contains them and resolved to their targets.  Dispatch to a target is exact
when every indexed reference to it is the callee of an indexed call.
-/

namespace ConvexWasm.Compiler

structure ResolvedStaticCall where
  target : StaticCallableTarget
  caller : ReachableUnit
  call : CallCandidate
  deriving DecidableEq

structure ResolvedStaticReference where
  target : StaticCallableTarget
  caller : ReachableUnit
  reference : ReferenceOccurrence
  directCall : Bool
  deriving DecidableEq

structure InexactStaticReference where
  target : StaticCallableTarget
  module : String
  reference : ReferenceOccurrence
  deriving DecidableEq

/-- The maps of the source, with the target kept in each entry. -/
structure ReachableStaticCallIndex where
  calls : List ResolvedStaticCall
  references : List ResolvedStaticReference
  inexactReferences : List InexactStaticReference
  deriving DecidableEq

namespace ReachableStaticCallIndex

variable (index : ReachableStaticCallIndex)

variable (target : StaticCallableTarget)

def callsTo : List ResolvedStaticCall :=
  index.calls.filter fun call => decide (call.target = target)

def referencesTo : List ResolvedStaticReference :=
  index.references.filter fun reference => decide (reference.target = target)

def inexactReferencesTo : List InexactStaticReference :=
  index.inexactReferences.filter fun reference =>
    decide (reference.target = target)

def dispatchIsExact : Bool :=
  (index.inexactReferencesTo target).isEmpty &&
    !(index.referencesTo target).isEmpty &&
    (index.referencesTo target).all fun indexed =>
      !indexed.reference.write && indexed.directCall

def targetForCall (caller : ReachableUnit) (call : CallCandidate) : Option StaticCallableTarget :=
  (index.calls.find? fun indexed =>
    decide (indexed.caller.id = caller.id ∧ indexed.call.range = call.range)).map
      ResolvedStaticCall.target

end ReachableStaticCallIndex

/-- The parameter of the caller that the argument reads. -/
def callerParameterForReference (modules : LoadedModules) (caller : ReachableUnit)
    (argument : SourceRange) : Except String (Option ParameterSummary) :=
  match modules.get? caller.module with
  | none => .error "callable graph caller module disappeared"
  | some module =>
    match module.units.get? caller.name with
    | none => .error "callable graph caller unit disappeared"
    | some unit => .ok (unit.parameters.find? fun parameter =>
      parameter.references.any fun reference =>
        reference.readOnly && decide (reference.range = argument))

/-- A reachable callable with its authenticated range. -/
abbrev CallableOwner := ReachableUnit × SourceRange

section Owners

variable (modules : LoadedModules)

/-- The range a handler or a source unit declares for its callable. -/
def declaredCallableRange (module : ModuleSummary) (caller : ReachableUnit) :
    Except String (Option SourceRange) :=
  if caller.kind = "handler" then .ok (some caller.range)
  else
    match module.units.get? caller.name with
    | none => .error "reachable callable-resolution source unit disappeared"
    | some unit => .ok unit.callableRange

/-- The owner a reachable unit contributes; a unit that is not callable
contributes none. -/
def callableOwner (caller : ReachableUnit) : Except String (Option CallableOwner) :=
  match modules.get? caller.module with
  | none => .error "reachable callable-resolution caller module disappeared"
  | some module => do
      let callableRange ← declaredCallableRange module caller
      match callableRange with
      | none => return none
      | some range =>
        if caller.range.Contains range ∧ range.start < range.stop then
          return some (caller, range)
        else
          .error s!"reachable callable {caller.id} has an invalid authenticated callable range"

def callableOwners (reachable : ReachableUnits) :
    Except String (List CallableOwner) := do
  let owners ← reachable.units.mapM (callableOwner modules)
  return owners.reduceOption

end Owners

variable (owners : List CallableOwner)

def ownersOf (module : String) : List CallableOwner :=
  owners.filter fun owner => decide (owner.1.module = module)

def ownerModules : List String :=
  (owners.map fun owner => owner.1.module).dedup

def validateOwnerPair (left right : CallableOwner) : Except String Unit :=
  let disjoint := left.2.stop ≤ right.2.start ∨ right.2.stop ≤ left.2.start
  if ¬ disjoint ∧ ¬ left.2.Contains right.2 ∧ ¬ right.2.Contains left.2 then
    .error s!"reachable callable ranges partially overlap for {left.1.id} and {right.1.id}"
  else if left.2 = right.2 then
    .error s!"reachable callable range has multiple owners: {left.1.id} and {right.1.id}"
  else .ok ()

def validateCallableOwnerRanges : List CallableOwner → Except String Unit
  | [] => .ok ()
  | left :: rest => do
      rest.forM (validateOwnerPair left)
      validateCallableOwnerRanges rest

/-- One iteration of `innermost_callable_owner`. -/
def selectInnermost (range : SourceRange)
    (selected : Option (ReachableUnit × ℕ)) (owner : CallableOwner) :
    Except String (Option (ReachableUnit × ℕ)) :=
  if ¬ owner.2.Contains range then .ok selected
  else
    let width := owner.2.stop - owner.2.start
    match selected with
    | none => .ok (some (owner.1, width))
    | some (selectedOwner, selectedWidth) =>
      if selectedWidth < width then .ok selected
      else if selectedWidth = width then
        .error s!"callable fact has ambiguous owners {selectedOwner.id} and {owner.1.id}"
      else .ok (some (owner.1, width))

def innermostCallableOwner (range : SourceRange) :
    Except String (Option ReachableUnit) := do
  let selected ← owners.foldlM (selectInnermost range) none
  return selected.map Prod.fst

def unitCallableRange (unit : UnitSummary) : Option SourceRange :=
  unit.callableRange <|> unit.registration.map RegistrationSummary.handler

/-- Ranges of the module's callables that no reachable unit owns. -/
def unreachableCallableRanges (moduleKey : String) (module : ModuleSummary) : List SourceRange :=
  (module.units.values.filterMap unitCallableRange).filter fun range =>
    range ∉ (ownersOf owners moduleKey).map Prod.snd

/-- Whether a reference initialises the exact alias a unit declares. -/
def UnitSummary.initializedBy (unit : UnitSummary) (reference : ReferenceOccurrence) : Bool :=
  match unit.staticCallableAlias with
  | none => false
  | some aliased =>
    decide (aliased.target = reference.name) &&
      decide (aliased.reference = reference.range) && reference.readOnly

/-- The facts of one scanned module. -/
structure ModuleScan where
  calls : List (ReachableUnit × CallCandidate)
  references : List (ReachableUnit × ReferenceOccurrence)
  unowned : List (String × ReferenceOccurrence)

section Index

variable (graph : GraphInput) (modules : LoadedModules)

def scanModule (owners : List CallableOwner) (moduleKey : String) : Except String ModuleScan :=
  match modules.get? moduleKey with
  | none => .error "callable-resolution owner module disappeared"
  | some module => do
      let calls ← module.calls.mapM fun call => do
        let caller ← innermostCallableOwner (ownersOf owners moduleKey) call.range
        return (caller, call)
      let references ← module.references.mapM fun reference => do
        let caller ←
          innermostCallableOwner (ownersOf owners moduleKey) reference.range
        return (caller, reference)
      return {
        calls := calls.filterMap fun fact => fact.1.map fun caller => (caller, fact.2)
        references := references.filterMap fun fact =>
          fact.1.map fun caller => (caller, fact.2)
        unowned := (references.filter fun fact => fact.1.isNone &&
          !(unreachableCallableRanges owners moduleKey module).any fun range =>
            decide (range.Contains fact.2.range)).map fun fact => (moduleKey, fact.2) }

def resolveCall (fact : ReachableUnit × CallCandidate) :
    Except String (Option ResolvedStaticCall) := do
  let target ← resolveStaticSourceTarget graph modules fact.1.module fact.2.callee
  return target.map fun target => ⟨target, fact.1, fact.2⟩

/-- Whether a reference is the callee of an owned call of the same caller. -/
def isDirectCall (calls : List (ReachableUnit × CallCandidate))
    (fact : ReachableUnit × ReferenceOccurrence) : Bool :=
  calls.any fun call => decide (call.1.id = fact.1.id ∧
    call.2.calleeStart = fact.2.range.start ∧ call.2.callee = fact.2.name)

def callerUnit (caller : ReachableUnit) : Option UnitSummary :=
  (modules.get? caller.module).bind fun module => module.units.get? caller.name

def resolveReference (calls : List (ReachableUnit × CallCandidate))
    (fact : ReachableUnit × ReferenceOccurrence) : Except String (Option ResolvedStaticReference) :=
  if (callerUnit modules fact.1).any fun unit => unit.initializedBy fact.2 then
    .ok none
  else do
    let target ← resolveStaticSourceTarget graph modules fact.1.module fact.2.name
    return target.map fun target => ⟨target, fact.1, fact.2, isDirectCall calls fact⟩

def resolveUnowned (fact : String × ReferenceOccurrence) :
    Except String (Option InexactStaticReference) :=
  if (modules.get? fact.1).any fun module =>
      module.units.values.any fun unit => unit.initializedBy fact.2 then
    .ok none
  else do
    let target ← resolveStaticSourceTarget graph modules fact.1 fact.2.name
    return target.map fun target => ⟨target, fact.1, fact.2⟩

/-- Facts are keyed by module and range; the scan keeps them listed and the
check for repeated keys follows it. -/
def indexReachableStaticCalls (reachable : ReachableUnits) :
    Except String ReachableStaticCallIndex := do
  let owners ← callableOwners modules reachable
  (ownerModules owners).forM fun module =>
    validateCallableOwnerRanges (ownersOf owners module)
  let scans ← (ownerModules owners).mapM (scanModule modules owners)
  let calls := scans.flatMap ModuleScan.calls
  if ¬ (calls.map fun fact => (fact.1.module, fact.2.range)).Nodup then
    throw "callable-resolution call fact is duplicated"
  let references := scans.flatMap ModuleScan.references
  if ¬ (references.map fun fact => (fact.1.module, fact.2.range)).Nodup then
    throw "callable-resolution reference fact is duplicated"
  let resolvedCalls ← calls.mapM (resolveCall graph modules)
  if ¬ (resolvedCalls.reduceOption.map fun indexed =>
      (indexed.caller.id, indexed.call.range)).Nodup then
    throw "callable-resolution callsite target is duplicated"
  let resolvedReferences ←
    references.mapM (resolveReference graph modules calls)
  let inexactReferences ←
    (scans.flatMap ModuleScan.unowned).mapM (resolveUnowned graph modules)
  return {
    calls := resolvedCalls.reduceOption
    references := resolvedReferences.reduceOption
    inexactReferences := inexactReferences.reduceOption }

end Index

end ConvexWasm.Compiler
