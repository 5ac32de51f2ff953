import ConvexWasm.Compiler.CallableResolution

/-!
# Capability flow

A binding of a reachable unit is owned when every call that reaches the unit
forwards an owned binding to it.  The handler's context and the context of an
applied adapter helper are owned from the start; the other bindings wait for
their requirements and are promoted one by one or in closed regions.
-/

namespace ConvexWasm.Compiler

structure CapabilityBindingKey where
  module : String
  start : ℕ
  path : List String
  deriving DecidableEq, Repr

structure CapabilityReferenceKey where
  module : String
  unitId : String
  range : SourceRange
  deriving DecidableEq

inductive CapabilityRequirement
  | reference (key : CapabilityReferenceKey)
  | parameterProjection (key : CapabilityBindingKey)
  deriving DecidableEq

structure CapabilityOwner where
  module : String
  unitId : String
  bindingStart : ℕ
  parameterIndex : Option ℕ
  argumentProjection : List String
  name : String
  references : List ReferenceOccurrence
  dependencyChain : List String
  deriving DecidableEq

abbrev CapabilityOwners := KeyedMap CapabilityBindingKey CapabilityOwner

structure CallableKey where
  module : String
  unitId : String
  deriving DecidableEq

def callableKey (module : String) (range : SourceRange) : CallableKey :=
  ⟨module, s!"span:{range.start}:{range.stop}"⟩

structure AppliedRegistrationAdapter where
  descriptorId : String
  helperModule : String
  helperUnitName : String
  helperParameterStart : ℕ
  deriving DecidableEq

namespace CapabilityOwner

def bindingKey (owner : CapabilityOwner) : CapabilityBindingKey :=
  ⟨owner.module, owner.bindingStart, owner.argumentProjection⟩

/-- The read-only references, as the owned references record them. -/
def referenceKeys (owner : CapabilityOwner) : List CapabilityReferenceKey :=
  (owner.references.filter ReferenceOccurrence.readOnly).map fun reference =>
    ⟨owner.module, owner.unitId, reference.range⟩

end CapabilityOwner

/-- The argument a call passes for the owner's binding, itself or as a property
of an object literal. -/
def exactCapabilityArgument (call : CallCandidate) (owner : CapabilityOwner) : Option SourceRange :=
  match owner.parameterIndex with
  | none => none
  | some argumentIndex =>
    if owner.argumentProjection = [] then
      if call.argumentAwaitCounts[argumentIndex]? = some 0 then
        call.arguments[argumentIndex]?
      else none
    else
      match call.argumentProjections[argumentIndex]? with
      | none => none
      | some projections =>
        (projections.find? fun projection =>
          decide (projection.path = owner.argumentProjection) &&
            decide (projection.awaitCount = 0)).map
          CallArgumentProjectionCandidate.value

section Requirements

variable (modules : LoadedModules) (reachable : ReachableUnits) (index : ReachableStaticCallIndex)

/-- The caller's binding whose projection a call forwards by passing the whole
parameter on. -/
def forwardedParameterProjectionKey (caller : ReachableUnit) (call : CallCandidate)
    (owner : CapabilityOwner) : Except String (Option CapabilityBindingKey) :=
  if owner.argumentProjection = [] ∨ (exactCapabilityArgument call owner).isSome then
    .ok none
  else
    match owner.parameterIndex with
    | none => .ok none
    | some argumentIndex =>
      if call.argumentAwaitCounts[argumentIndex]? ≠ some 0 then .ok none
      else
        match call.arguments[argumentIndex]? with
        | none => .ok none
        | some argument => do
            let parameter ← callerParameterForReference modules caller argument
            return parameter.map fun parameter =>
              ⟨caller.module, parameter.start, owner.argumentProjection⟩

def capabilityParameterTarget (owner : CapabilityOwner) : Except String StaticCallableTarget :=
  match reachable.get? owner.unitId with
  | none => .error "capability parameter target unit disappeared"
  | some target => .ok (target.module, target.name)

/-- What a call must pass for the binding to be owned, when it is exact. -/
def exactCapabilityRequirement (caller : ReachableUnit) (call : CallCandidate)
    (owner : CapabilityOwner) (candidates : CapabilityOwners) :
    Except String (Option CapabilityRequirement) :=
  match exactCapabilityArgument call owner with
  | some argument => .ok (some (.reference ⟨caller.module, caller.id, argument⟩))
  | none => do
      let key ← forwardedParameterProjectionKey modules caller call owner
      return (key.filter fun key => candidates.containsKey key).map .parameterProjection

/-- The requirements of all calls, when each call is exact. -/
def callRequirements (candidates : CapabilityOwners) (owner : CapabilityOwner) :
    List ResolvedStaticCall → Except String (Option (List CapabilityRequirement))
  | [] => .ok (some [])
  | indexed :: rest => do
      match ← exactCapabilityRequirement modules indexed.caller indexed.call owner candidates with
      | none => return none
      | some requirement =>
        let requirements ← callRequirements candidates owner rest
        return requirements.map (requirement :: ·)

def capabilityParameterRequirements (candidates : CapabilityOwners)
    (owner : CapabilityOwner) : Except String (Option (List CapabilityRequirement)) :=
  match owner.parameterIndex with
  | none => .error "capability candidate parameter has no argument index"
  | some _ => do
      let target ← capabilityParameterTarget reachable owner
      if !index.dispatchIsExact target then return none
      else if (index.callsTo target).isEmpty then return none
      else
        let requirements ← callRequirements modules candidates owner (index.callsTo target)
        return requirements.map List.dedup

end Requirements

section Candidates

variable (modules : LoadedModules) (reachable : ReachableUnits) (index : ReachableStaticCallIndex)

variable (candidates : CapabilityOwners) (unit : ReachableUnit) (parameter : ParameterSummary)

def parameterOwner : CapabilityOwner where
  module := unit.module
  unitId := unit.id
  bindingStart := parameter.start
  parameterIndex := some parameter.index
  argumentProjection := []
  name := parameter.name
  references := parameter.references
  dependencyChain := unit.dependencyChain

def projectionOwner (projection : CapabilityProjectionSummary) : CapabilityOwner where
  module := unit.module
  unitId := unit.id
  bindingStart := projection.bindingStart
  parameterIndex := some parameter.index
  argumentProjection := projection.path
  name := projection.name
  references := projection.references
  dependencyChain := unit.dependencyChain

def parameterOwners : List CapabilityOwner :=
  parameterOwner unit parameter ::
    parameter.capabilityProjections.map (projectionOwner unit parameter)

def insertCandidate (owner : CapabilityOwner) : CapabilityOwners :=
  candidates.insert owner.bindingKey owner

/-- The bindings of one reachable unit; a registration contributes none. -/
def insertUnitCandidates : Except String CapabilityOwners :=
  match modules.get? unit.module with
  | none => .error "reachable capability candidate module disappeared"
  | some module =>
    match module.units.get? unit.name with
    | none => .error "reachable capability candidate unit disappeared"
    | some source =>
      if source.registration.isSome then .ok candidates
      else .ok ((source.parameters.flatMap (parameterOwners unit)).foldl insertCandidate candidates)

def declaredCandidates : Except String CapabilityOwners :=
  (reachable.units.filter fun unit => decide (unit.kind ≠ "handler")).foldlM
    (insertUnitCandidates modules) .empty

/-- The owner of a projection that a caller forwards without naming it. -/
def forwardedOwner (caller : ReachableUnit) (parameter : ParameterSummary)
    (owner : CapabilityOwner) : CapabilityOwner :=
  let projection := parameter.capabilityProjections.find? fun projection =>
    decide (projection.bindingStart = parameter.start) &&
      decide (projection.path = owner.argumentProjection)
  { module := caller.module
    unitId := caller.id
    bindingStart := parameter.start
    parameterIndex := some parameter.index
    argumentProjection := owner.argumentProjection
    name := match projection with
      | none => parameter.name ++ "." ++ ".".intercalate owner.argumentProjection
      | some projection => projection.name
    references := match projection with
      | none => []
      | some projection => projection.references
    dependencyChain := caller.dependencyChain }

/-- One call of the loop over the calls of a projected candidate. -/
def forwardThroughCall (owner : CapabilityOwner)
    (state : CapabilityOwners × Bool) (indexed : ResolvedStaticCall) :
    Except String (CapabilityOwners × Bool) :=
  if indexed.caller.kind = "handler" then .ok state
  else do
    let key ← forwardedParameterProjectionKey modules indexed.caller indexed.call owner
    match key with
    | none => return state
    | some key =>
      if state.1.containsKey key then return state
      else
        match modules.get? indexed.caller.module with
        | none =>
          throw "forwarded capability projection caller module disappeared"
        | some module =>
          match module.units.get? indexed.caller.name with
          | none =>
            throw "forwarded capability projection caller unit disappeared"
          | some source =>
            match source.parameters.find? fun parameter =>
                decide (parameter.start = key.start) with
            | none =>
              throw "forwarded capability projection caller parameter disappeared"
            | some parameter =>
              return (state.1.insert key (forwardedOwner indexed.caller parameter owner), true)

def forwardOwner (state : CapabilityOwners × Bool) (owner : CapabilityOwner) :
    Except String (CapabilityOwners × Bool) := do
  let target ← capabilityParameterTarget reachable owner
  if !index.dispatchIsExact target then return state
  else (index.callsTo target).foldlM (forwardThroughCall modules owner) state

/-- One iteration of the forwarding loop. -/
def forwardPass : Except String (CapabilityOwners × Bool) :=
  (candidates.values.filter fun owner =>
    decide (owner.argumentProjection ≠ [])).foldlM
    (forwardOwner modules reachable index) (candidates, false)

/-- One pass per unit of fuel; `none` means that the fuel ran out. -/
def forwardProjections : ℕ → CapabilityOwners → Option (Except String CapabilityOwners)
  | 0, _ => none
  | fuel + 1, candidates =>
    match forwardPass modules reachable index candidates with
    | .error message => some (.error message)
    | .ok (forwarded, inserted) =>
      if inserted then forwardProjections fuel forwarded
      else some (.ok forwarded)

/-- The starts of the parameters a caller may forward. -/
def callerParameterStarts (caller : ReachableUnit) : List ℕ :=
  match modules.get? caller.module with
  | none => []
  | some module =>
    match module.units.get? caller.name with
    | none => []
    | some source => source.parameters.map ParameterSummary.start

def projectionPaths : List (List String) :=
  candidates.values.map CapabilityOwner.argumentProjection

/-- The keys that forwarding can insert. -/
def forwardedKeys (paths : List (List String)) : List CapabilityBindingKey :=
  index.calls.flatMap fun indexed =>
    (callerParameterStarts modules indexed.caller).flatMap fun start =>
      paths.map fun path => ⟨indexed.caller.module, start, path⟩

def populateForwardedProjectionCandidates : Except String CapabilityOwners :=
  let fuel := (forwardedKeys modules index (projectionPaths candidates)).length + 1
  (forwardProjections modules reachable index fuel candidates).getD (.ok candidates)

end Candidates

/-- What the worklist starts from: every candidate binding, the bindings owned
at the start, and the requirements of the candidates whose calls are exact. -/
structure PromotionInput where
  candidates : CapabilityOwners
  roots : CapabilityOwners
  requirements : KeyedMap CapabilityBindingKey (List CapabilityRequirement)

def PromotionInput.empty : PromotionInput := ⟨.empty, .empty, .empty⟩

/-- The state of the worklist; a key without a counter has none pending. -/
structure Promotion where
  owned : CapabilityOwners
  ownedReferences : List CapabilityReferenceKey
  remaining : CapabilityBindingKey → Option ℕ
  waiting : CapabilityRequirement → List CapabilityBindingKey
  ready : List CapabilityBindingKey

/-- `OwnedCapabilityReferences::insert`: the references owned afterwards and
those newly inserted. -/
def insertReferences (ownedReferences : List CapabilityReferenceKey) (owner : CapabilityOwner) :
    List CapabilityReferenceKey × List CapabilityReferenceKey :=
  let inserted := (owner.referenceKeys.filter fun key =>
    decide (key ∉ ownedReferences)).dedup
  (ownedReferences ++ inserted, inserted)

def capabilityRequirementIsSatisfied (owned : CapabilityOwners)
    (ownedReferences : List CapabilityReferenceKey) : CapabilityRequirement → Bool
  | .reference key => decide (key ∈ ownedReferences)
  | .parameterProjection key => owned.containsKey key

namespace Promotion

def satisfies (state : Promotion) (requirement : CapabilityRequirement) : Bool :=
  capabilityRequirementIsSatisfied state.owned state.ownedReferences requirement

/-- One decrement of `remaining_requirements`. -/
def release (state : Promotion) (key : CapabilityBindingKey) : Except String Promotion :=
  match state.remaining key with
  | none => .error "waiting capability requirement disappeared"
  | some 0 => .error "capability requirement count underflow"
  | some (remaining + 1) => .ok { state with
      remaining := Function.update state.remaining key (some remaining)
      ready := if remaining = 0 then state.ready.insert key else state.ready }

/-- The keys waiting for an inserted requirement are released. -/
def settle (state : Promotion) (requirement : CapabilityRequirement) : Except String Promotion :=
  (state.waiting requirement).foldlM release
    { state with waiting := Function.update state.waiting requirement [] }

/-- Owned references and inserted requirements after the owner's references. -/
def recordOwner (recorded : List CapabilityReferenceKey × List CapabilityRequirement)
    (entry : CapabilityBindingKey × CapabilityOwner) :
    List CapabilityReferenceKey × List CapabilityRequirement :=
  let references := insertReferences recorded.1 entry.2
  (references.1, recorded.2 ++ .parameterProjection entry.1 :: references.2.map .reference)

def ownEntry (owned : CapabilityOwners) (entry : CapabilityBindingKey × CapabilityOwner) :
    Except String CapabilityOwners :=
  if owned.containsKey entry.1 then
    .error "promoted capability candidate was already owned"
  else .ok (owned.insert entry.1 entry.2)

end Promotion

namespace PromotionInput

variable (input : PromotionInput)

def candidateEntry (key : CapabilityBindingKey) :
    Except String (CapabilityBindingKey × CapabilityOwner) :=
  match input.candidates.get? key with
  | none => .error s!"capability candidate {repr key} disappeared"
  | some owner => .ok (key, owner)

def promoteCapabilityParameters (keys : List CapabilityBindingKey)
    (state : Promotion) : Except String Promotion := do
  let owners ← (keys.filter fun key => !state.owned.containsKey key).mapM input.candidateEntry
  let recorded := owners.foldl Promotion.recordOwner (state.ownedReferences, [])
  let owned ← owners.foldlM Promotion.ownEntry state.owned
  recorded.2.foldlM Promotion.settle
    { state with owned := owned, ownedReferences := recorded.1 }

/-- Records the candidate that reads a reference. -/
def recordReference (parameters : KeyedMap CapabilityReferenceKey CapabilityBindingKey)
    (entry : CapabilityReferenceKey × CapabilityBindingKey) :
    Except String (KeyedMap CapabilityReferenceKey CapabilityBindingKey) :=
  match parameters.get? entry.1 with
  | none => .ok (parameters.insert entry.1 entry.2)
  | some existing =>
    if existing = entry.2 then .ok parameters
    else .error "capability reference belongs to multiple candidate parameters"

def candidateReferences : List (CapabilityReferenceKey × CapabilityBindingKey) :=
  input.candidates.entries.flatMap fun entry =>
    entry.2.referenceKeys.map fun reference => (reference, entry.1)

def parameterByReference : Except String (KeyedMap CapabilityReferenceKey CapabilityBindingKey) :=
  input.candidateReferences.foldlM recordReference .empty

/-- The candidate an unsatisfied requirement is traced to. -/
def requirementProvider (parameters : KeyedMap CapabilityReferenceKey CapabilityBindingKey) :
    CapabilityRequirement → Option CapabilityBindingKey
  | .reference key => parameters.get? key
  | .parameterProjection key => if input.candidates.containsKey key then some key else none

def unresolved (state : Promotion) : List CapabilityBindingKey :=
  input.requirements.keys.filter fun key =>
    (state.remaining key).any (fun remaining => decide (0 < remaining)) &&
      !state.owned.containsKey key

/-- The depth-first search of a region, one key per unit of fuel; the region is
`none` when it is not closed. -/
def closedRegion (state : Promotion)
    (parameters : KeyedMap CapabilityReferenceKey CapabilityBindingKey) :
    ℕ → List CapabilityBindingKey → List CapabilityBindingKey →
      Except String (Option (List CapabilityBindingKey))
  | 0, _, _ => .error "capability region search ran out of fuel"
  | _ + 1, [], region => .ok (some region)
  | fuel + 1, key :: pending, region =>
    if key ∈ region then closedRegion state parameters fuel pending region
    else
      match input.requirements.get? key with
      | none => .error "unresolved capability candidate requirements disappeared"
      | some requirements =>
        let providers := (requirements.filter fun requirement =>
          !state.satisfies requirement).map fun requirement =>
            (input.requirementProvider parameters requirement).filter fun provider =>
              decide (provider ∈ input.unresolved state)
        if providers.all Option.isSome then
          closedRegion state parameters fuel
            (providers.reduceOption.reverse ++ pending) (key :: region)
        else .ok none

/-- Each step of a region search takes one pending key, and a key adds at most
its requirements to them. -/
def regionFuel : ℕ := (input.requirements.values.map List.length).sum + 2

/-- The first closed region that starts at one of the keys. -/
def firstClosedRegion (state : Promotion)
    (parameters : KeyedMap CapabilityReferenceKey CapabilityBindingKey) :
    List CapabilityBindingKey → Except String (Option (List CapabilityBindingKey))
  | [] => .ok none
  | root :: rest => do
      match ← input.closedRegion state parameters input.regionFuel [root] [] with
      | none => firstClosedRegion state parameters rest
      | some region => return some region

def pendingRequirements (key : CapabilityBindingKey) : List CapabilityRequirement :=
  let ownedReferences := input.roots.values.foldl
    (fun references owner => (insertReferences references owner).1) []
  ((input.requirements.get? key).getD []).filter fun requirement =>
    !capabilityRequirementIsSatisfied input.roots ownedReferences requirement

/-- The state before the first promotion. -/
def initialPromotion : Promotion where
  owned := input.roots
  ownedReferences := input.roots.values.foldl
    (fun references owner => (insertReferences references owner).1) []
  remaining key :=
    if key ∈ input.requirements.keys ∧ input.pendingRequirements key ≠ [] then
      some (input.pendingRequirements key).length
    else none
  waiting requirement := input.requirements.keys.filter fun key =>
    decide (requirement ∈ input.pendingRequirements key)
  ready := input.requirements.keys.filter fun key =>
    decide (input.pendingRequirements key = [])

/-- `ready.pop_first()`: the keys are listed in their order. -/
def nextReady (state : Promotion) : Option CapabilityBindingKey :=
  input.requirements.keys.find? fun key => decide (key ∈ state.ready)

end PromotionInput

section Worklist

variable (modules : LoadedModules) (reachable : ReachableUnits) (index : ReachableStaticCallIndex)

def exactOwnedCapabilityArgument (candidates owned : CapabilityOwners)
    (ownedReferences : List CapabilityReferenceKey) (owner : CapabilityOwner)
    (indexed : ResolvedStaticCall) : Except String Bool := do
  let requirement ← exactCapabilityRequirement modules indexed.caller indexed.call owner candidates
  return requirement.any (capabilityRequirementIsSatisfied owned ownedReferences)

def capabilityParameterHasOwnedCaller (candidates owned : CapabilityOwners)
    (ownedReferences : List CapabilityReferenceKey) (owner : CapabilityOwner) :
    Except String Bool :=
  match owner.parameterIndex with
  | none => .ok false
  | some _ =>
    match capabilityParameterTarget reachable owner with
    | .error _ => .ok false
    | .ok target => (index.callsTo target).anyM
        (exactOwnedCapabilityArgument modules candidates owned ownedReferences owner)

def keyHasOwnedCaller (input : PromotionInput) (state : Promotion)
    (key : CapabilityBindingKey) : Except String Bool :=
  match input.candidates.get? key with
  | none => .ok false
  | some owner => capabilityParameterHasOwnedCaller modules reachable index
      input.candidates state.owned state.ownedReferences owner

/-- The unresolved keys that an owned binding is already passed to. -/
def rootedKeys (input : PromotionInput) (state : Promotion) :
    Except String (List CapabilityBindingKey) := do
  let callers ← (input.unresolved state).mapM fun key => do
    let rooted ← keyHasOwnedCaller modules reachable index input state key
    return (key, rooted)
  return (callers.filter Prod.snd).map Prod.fst

/-- `none` when no region was promoted. -/
def promoteRootedClosedCapabilityRegions (input : PromotionInput)
    (state : Promotion) : Except String (Option Promotion) :=
  if input.unresolved state = [] then .ok none
  else do
    let parameters ← input.parameterByReference
    let roots ← rootedKeys modules reachable index input state
    match ← input.firstClosedRegion state parameters roots with
    | none => return none
    | some region =>
      let promoted ← input.promoteCapabilityParameters region state
      return some promoted

/-- The two nested loops, one promotion or skipped key per unit of fuel. -/
def promotionLoop (input : PromotionInput) : ℕ → Promotion → Except String Promotion
  | 0, _ => .error "capability promotion ran out of fuel"
  | fuel + 1, state =>
    match input.nextReady state with
    | some key =>
      let popped := { state with ready := state.ready.erase key }
      if popped.owned.containsKey key then promotionLoop input fuel popped
      else do
        let promoted ← input.promoteCapabilityParameters [key] popped
        promotionLoop input fuel promoted
    | none => do
        match ← promoteRootedClosedCapabilityRegions modules reachable index input state with
        | none => return state
        | some promoted => promotionLoop input fuel promoted

/-- A candidate is promoted and leaves its counter at most once each. -/
def promotionFuel (input : PromotionInput) : ℕ := 2 * input.requirements.keys.length + 1

end Worklist

structure CapabilityFlowProof where
  registrationKind : String
  candidateParameters : CapabilityOwners
  owned : CapabilityOwners
  ownedReferences : List CapabilityReferenceKey
  guestRuntimeAwaitedCallables : List CallableKey

section Build

variable (modules : LoadedModules) (reachable : ReachableUnits) (index : ReachableStaticCallIndex)

/-- The adapter helper when all references to it are direct static calls. -/
def awaitedHelper (adapter : AppliedRegistrationAdapter) (owner : CapabilityOwner) :
    Except String (List CallableKey) :=
  let target := (adapter.helperModule, adapter.helperUnitName)
  if (index.inexactReferencesTo target).isEmpty &&
      (index.referencesTo target).all fun indexed =>
        !indexed.reference.write && indexed.directCall then
    match reachable.get? owner.unitId with
    | none => .error s!"registration adapter {adapter.descriptorId} helper reachable unit disappeared"
    | some helper =>
      match (modules.get? adapter.helperModule).bind fun module =>
          module.units.get? adapter.helperUnitName with
      | none => .error s!"registration adapter {adapter.descriptorId} helper callable unit disappeared"
      | some unit =>
        match unit.callableRange with
        | none => .error s!"registration adapter {adapter.descriptorId} helper has no callable range"
        | some callable =>
          if helper.range.Contains callable then
            .ok [callableKey adapter.helperModule callable]
          else
            .error "registration adapter helper callable range escaped its reachable unit"
  else .ok []

def AppliedRegistrationAdapter.contextKey (adapter : AppliedRegistrationAdapter) :
    CapabilityBindingKey :=
  ⟨adapter.helperModule, adapter.helperParameterStart, []⟩

/-- The bindings owned at the start and the callables the guest awaits. -/
def rootOwners (candidates : CapabilityOwners) (rootOwner : CapabilityOwner) :
    Option AppliedRegistrationAdapter → Except String (CapabilityOwners × List CallableKey)
  | none => .ok (KeyedMap.empty.insert rootOwner.bindingKey rootOwner, [])
  | some adapter =>
    let owned := KeyedMap.empty.insert rootOwner.bindingKey rootOwner
    match candidates.get? adapter.contextKey with
    | none => .error s!"registration adapter {adapter.descriptorId} helper context parameter is not reachable"
    | some owner =>
      if owned.containsKey adapter.contextKey then
        .error "registration adapter helper context parameter duplicates the root owner"
      else do
        let awaited ← awaitedHelper modules reachable index adapter owner
        return (owned.insert adapter.contextKey owner, awaited)

/-- `requirements_by_parameter`: candidates owned at the start are left out. -/
def requirementsByParameter (candidates roots : CapabilityOwners) :
    Except String (KeyedMap CapabilityBindingKey (List CapabilityRequirement)) :=
  candidates.filterMapM fun key owner =>
    if roots.containsKey key then .ok none
    else capabilityParameterRequirements modules reachable index candidates owner

variable (registration : RegistrationSummary)

def registrationRootOwner (root : ReachableUnit)
    (contextName : String) (contextStart : ℕ) : CapabilityOwner where
  module := root.module
  unitId := root.id
  bindingStart := contextStart
  parameterIndex := none
  argumentProjection := []
  name := contextName
  references := registration.contextReferences
  dependencyChain := root.dependencyChain

/-- Everything `build_capability_flow_proof` computes before its worklist;
without a context parameter nothing is a candidate. -/
def promotionInput (adapter : Option AppliedRegistrationAdapter) :
    Except String (PromotionInput × List CallableKey) :=
  match registration.contextParameter with
  | none => .ok (.empty, [])
  | some contextName =>
    match registration.contextParameterStart with
    | none => .error "registration context parameter has no source start"
    | some contextStart =>
      match reachable.units.find? fun unit => decide (unit.kind = "handler") with
      | none => .error "reachable registration handler disappeared"
      | some root => do
          let declared ← declaredCandidates modules reachable
          let candidates ← populateForwardedProjectionCandidates modules reachable index declared
          let rootOwner := registrationRootOwner registration root contextName contextStart
          let (roots, awaited) ← rootOwners modules reachable index candidates rootOwner adapter
          let requirements ← requirementsByParameter modules reachable index candidates roots
          return (⟨candidates, roots, requirements⟩, awaited)

def buildCapabilityFlowProof
    (adapter : Option AppliedRegistrationAdapter) : Except String CapabilityFlowProof := do
  let (input, awaited) ← promotionInput modules reachable index registration adapter
  let promoted ← promotionLoop modules reachable index input (promotionFuel input)
    input.initialPromotion
  return {
    registrationKind := registration.kind
    candidateParameters := input.candidates
    owned := promoted.owned
    ownedReferences := promoted.ownedReferences
    guestRuntimeAwaitedCallables := awaited }

end Build

inductive CapabilityPredicateEvaluation
  | provedTrue
  | unknown
  deriving DecidableEq

namespace CapabilityFlowProof

variable (proof : CapabilityFlowProof)

def exactOwnedReference (caller : ReachableUnit) (reference : SourceRange) : Bool :=
  decide (⟨caller.module, caller.id, reference⟩ ∈ proof.ownedReferences)

/-- The calls of the caller that are written as the test is. -/
def predicateCalls (module : ModuleSummary) (caller : ReachableUnit) (callee : String)
    (calleeSpan argument : SourceRange) : List CallCandidate :=
  module.calls.filter fun call =>
    decide (caller.range.Contains call.range) && decide (call.callee = callee) &&
      decide (call.calleeStart = calleeSpan.start) &&
      decide (call.calleeEnd = calleeSpan.stop) &&
      decide (call.arguments = [argument]) && decide (call.argumentAwaitCounts = [0])

/-- Whether the target's predicate template tests an owned parameter for `db`. -/
def templateOwned (targetModule : String) (target : UnitSummary) : Bool :=
  match target.capabilityPredicate with
  | none => false
  | some template =>
    match target.parameters.find? fun parameter =>
        decide (parameter.index = template.parameterIndex) with
    | none => false
    | some parameter => decide (template.member = "db") &&
        proof.owned.containsKey ⟨targetModule, parameter.start, []⟩

def evaluatePredicateTest (graph : GraphInput) (modules : LoadedModules)
    (caller : ReachableUnit) (test : CapabilityPredicateTestCandidate) :
    Except String CapabilityPredicateEvaluation :=
  if proof.registrationKind ∉
      ["query", "internalQuery", "mutation", "internalMutation"] then
    .ok .unknown
  else
    match test with
    | .directMember member _ object =>
      if member = "db" ∧ proof.exactOwnedReference caller object = true then
        .ok .provedTrue
      else .ok .unknown
    | .directCall callee calleeSpan argument =>
      if ¬ proof.exactOwnedReference caller argument = true then .ok .unknown
      else
        match modules.get? caller.module with
        | none => .error "capability predicate caller module disappeared"
        | some module =>
          if (predicateCalls module caller callee calleeSpan argument).length ≠ 1 then
            .ok .unknown
          else do
            match ← resolveStaticSourceTarget graph modules caller.module callee with
            | none => return .unknown
            | some target =>
              match (modules.get? target.1).bind fun module =>
                  module.units.get? target.2 with
              | none => return .unknown
              | some unit =>
                if proof.templateOwned target.1 unit then return .provedTrue
                else return .unknown

end CapabilityFlowProof

end ConvexWasm.Compiler
