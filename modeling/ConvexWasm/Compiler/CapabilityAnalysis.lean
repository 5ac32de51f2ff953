import ConvexWasm.Compiler.ControlPlans

/-!
# The analysis of owned capabilities

Every reference to an owned binding has to be accounted for: by a specialised
effect, a call of a dependency adapter, an operation of the source, or one
static call that forwards it to a parameter.  What is left over is diagnosed,
and so is a parameter that a capability reaches and that is not owned.
-/

namespace ConvexWasm.Compiler.CapabilityAnalysis

open ControlPlans

/-- A diagnostic at a place of a module, whose line, column and text follow from it. -/
structure Diagnostic where
  code : String
  message : String
  file : String
  start : ℕ
  construct : Option String
  dependencyChain : List String
  deriving DecidableEq

structure OperationIdentity where
  module : String
  range : SourceRange
  deriving DecidableEq

/-- The part of a unit that an effect with its own authority covers. -/
structure SpecializedEffect where
  module : String
  unitId : String
  range : SourceRange
  deriving DecidableEq

structure LegacyEffectSpecialization where
  targetModule : String
  targetUnitId : String
  operation : SourceRange
  deriving DecidableEq

structure AppliedDependencyAdapterCall where
  descriptorId : String
  semanticKind : String
  importerModule : String
  importerUnitId : String
  operation : SourceRange
  effect : SourceRange
  effectPath : String
  dependencyChain : List String
  deriving DecidableEq

def AppliedDependencyAdapterCall.identity (call : AppliedDependencyAdapterCall) :
    OperationIdentity :=
  ⟨call.importerModule, call.operation⟩

/-- What the analysis is given besides the proof of the capability flow.  Whether a
guest effect site is closed and which effects are specialised the older way is
decided elsewhere. -/
structure EffectAuthorities where
  plans : List CallableEffectPlan
  closesGuestEffectSite : CallableEffectPlan → Bool
  legacySpecializations : List LegacyEffectSpecialization
  authorizedQueryValues : List OperationIdentity
  representedQueryConstructions : List SpecializedEffect
  dependencyAdapterCalls : List AppliedDependencyAdapterCall

structure OwnedCapabilityAnalysis where
  admittedOperations : List OperationIdentity
  authorizedCallableEffects : List OperationIdentity
  authorizedQueryValues : List OperationIdentity
  legacyInterproceduralEffects : List LegacyEffectSpecialization
  deriving DecidableEq

def EffectAuthorities.callsFor (authorities : EffectAuthorities) (module unitId : String) :
    List AppliedDependencyAdapterCall :=
  authorities.dependencyAdapterCalls.filter fun call =>
    decide (call.importerModule = module ∧ call.importerUnitId = unitId)

/-- The path of the operation below the name that owns it. -/
def operationSuffix : String → Option String
  | "auth.getUserIdentity" => some ".auth.getUserIdentity"
  | "db.normalizeId" => some ".db.normalizeId"
  | "db.get" => some ".db.get"
  | "db.query" => some ".db.query"
  | "db.insert" => some ".db.insert"
  | "db.patch" => some ".db.patch"
  | "db.replace" => some ".db.replace"
  | "db.delete" => some ".db.delete"
  | "scheduler.runAfter" => some ".scheduler.runAfter"
  | "scheduler.runAt" => some ".scheduler.runAt"
  | _ => none

def ownedOperationEffectPath (owner kind path : String) : Bool :=
  match operationSuffix kind with
  | none => false
  | some suffix => decide (path = owner ++ suffix)

/-- The code and the message for an operation on the context that is rejected. -/
def rejectedContextOperationDiagnostic : String → Option (String × String)
  | "rejected.auth.getUserIdentity.computed" =>
    some ("unsupported-authentication-get-user-identity-shape",
      "authentication identity admission requires a non-computed getUserIdentity member call")
  | "rejected.auth.getUserIdentity.optional" =>
    some ("unsupported-authentication-get-user-identity-shape",
      "authentication identity admission does not allow optional member access or calls")
  | "rejected.auth.getUserIdentity.arity" =>
    some ("unsupported-authentication-get-user-identity-shape",
      "authentication identity admission requires exactly zero arguments")
  | "rejected.db.normalizeId.computed" =>
    some ("unsupported-database-normalize-id-shape",
      "database ID normalization admission requires a non-computed normalizeId member call")
  | "rejected.db.normalizeId.optional" =>
    some ("unsupported-database-normalize-id-shape",
      "database ID normalization admission does not allow optional member access or calls")
  | "rejected.db.normalizeId.arity" =>
    some ("unsupported-database-normalize-id-shape",
      "database ID normalization admission requires exactly two arguments")
  | "rejected.db.normalizeId.dynamicTable" =>
    some ("unsupported-database-normalize-id-shape",
      "database ID normalization admission requires a nonempty static string table name")
  | _ => none

/-- The effects that the guest runs only by a plan of their callable. -/
def guestDirectEffectRequiresCallablePlan (kind : String) : Bool :=
  decide (kind ∈ ["db.get", "db.query", "db.insert", "db.patch", "db.replace", "db.delete",
    "scheduler.runAfter", "scheduler.runAt"])

section Analysis

variable (graph : GraphInput) (modules : LoadedModules) (reachable : ReachableUnits)
variable (index : ReachableStaticCallIndex) (proof : CapabilityFlowProof)
variable (authorities : EffectAuthorities)

def diagnosticAt (code message file : String) (start : ℕ) (construct : Option String)
    (dependencyChain : List String) : Except String Diagnostic :=
  match modules.get? file with
  | none => .error s!"module source was not preloaded: {file}"
  | some _ => .ok ⟨code, message, file, start, construct, dependencyChain⟩

variable (plan : CallableEffectPlan)

def planOwner : Option CapabilityOwner :=
  proof.owned.values.find? fun owner =>
    decide (owner.module = plan.provenance.capabilityBinding.module ∧
      owner.bindingStart = plan.provenance.capabilityBinding.start ∧
      owner.name = plan.provenance.capabilityName)

variable (owner : CapabilityOwner) (target : ReachableUnit)

/-- The plan stands in the unit of the owner and reads one of its references. -/
def planMatches : Bool :=
  let binding := plan.provenance.capabilityBinding
  let effect := plan.provenance.targetEffect
  let reference := plan.provenance.capabilityReference
  decide (target.range.Contains ⟨binding.start, binding.stop⟩) &&
    decide (target.range.Contains ⟨effect.start, effect.stop⟩) &&
    owner.references.any fun owned =>
      decide (owned.range = ⟨reference.start, reference.stop⟩) && owned.readOnly

/-- The effect that a plan authorises. -/
def planEffect : Except String (Option SpecializedEffect) :=
  match planOwner proof plan with
  | none => .ok none
  | some owner =>
    match reachable.get? owner.unitId with
    | none => .error "authorized callable effect target disappeared"
    | some target =>
      if !planMatches plan owner target then .ok none
      else if graph.effectExecutionMode = .guestPromiseEventLoop ∧
          authorities.closesGuestEffectSite plan = false then .ok none
      else
        let effect := plan.provenance.targetEffect
        .ok (some ⟨owner.module, owner.unitId, ⟨effect.start, effect.stop⟩⟩)

def planIdentity : OperationIdentity :=
  let effect := plan.provenance.targetEffect
  ⟨effect.module, ⟨effect.start, effect.stop⟩⟩

/-- The authorised plans with the effects they cover. -/
def planEffects : Except String (List (CallableEffectPlan × SpecializedEffect)) := do
  let effects ← authorities.plans.mapM fun plan => do
    let effect ← planEffect graph reachable proof authorities plan
    return effect.map fun effect => (plan, effect)
  return effects.reduceOption

def specializations : List LegacyEffectSpecialization :=
  match graph.effectExecutionMode with
  | .blockingFiber => authorities.legacySpecializations
  | .guestPromiseEventLoop => []

def LegacyEffectSpecialization.effect (specialization : LegacyEffectSpecialization) :
    SpecializedEffect :=
  ⟨specialization.targetModule, specialization.targetUnitId, specialization.operation⟩

def LegacyEffectSpecialization.identity (specialization : LegacyEffectSpecialization) :
    OperationIdentity :=
  ⟨specialization.targetModule, specialization.operation⟩

/-- Everything that has authority of its own: queries, planned effects and the effects
specialised the older way. -/
def specializedEffects : Except String (List SpecializedEffect) := do
  let effects ← planEffects graph reachable proof authorities
  return authorities.representedQueryConstructions ++ effects.map Prod.snd ++
    (specializations graph authorities).map LegacyEffectSpecialization.effect

def attemptedParameters : Except String (List CapabilityBindingKey) := do
  let callers ← proof.candidateParameters.entries.mapM fun entry => do
    let attempted ← capabilityParameterHasOwnedCaller modules reachable index
      proof.candidateParameters proof.owned proof.ownedReferences entry.2
    return (entry.1, attempted)
  return (callers.filter Prod.snd).map Prod.fst

/-- A place among the arguments of a call, or a property of one. -/
structure ForwardedCall where
  call : CallCandidate
  argumentIndex : ℕ
  argumentProjection : List String
  deriving DecidableEq

def forwardedArguments (reference : SourceRange) (call : CallCandidate) : List ForwardedCall :=
  (call.arguments.zipIdx.filter fun argument => decide (argument.1 = reference)).map
    fun argument => ⟨call, argument.2, []⟩

def forwardedProjections (reference : SourceRange) (call : CallCandidate) : List ForwardedCall :=
  call.argumentProjections.zipIdx.flatMap fun projections =>
    (projections.1.filter fun projection =>
      decide (projection.awaitCount = 0 ∧ projection.value = reference)).map
      fun projection => ⟨call, projections.2, projection.path⟩

variable (module : ModuleSummary) (unit : ReachableUnit) (reference : ReferenceOccurrence)

/-- Where the calls of the unit take the reference, when it only reads. -/
def forwardedCalls : List ForwardedCall :=
  if reference.readOnly then
    (module.calls.filter fun call => decide (unit.range.Contains call.range)).flatMap
      fun call => forwardedArguments reference.range call ++
        forwardedProjections reference.range call
  else []

/-- The parameters that the place among the arguments is passed to. -/
def resolveForwardedCapabilityKeys (caller : ReachableUnit) (forwarded : ForwardedCall) :
    Except String (List CapabilityBindingKey) :=
  match index.targetForCall caller forwarded.call with
  | none => .ok []
  | some target =>
    match modules.get? target.1 with
    | none => .error "capability target module disappeared"
    | some summary =>
      match summary.units.get? target.2 with
      | none => .ok []
      | some unit =>
        if unit.registration.isSome then .ok []
        else
          match reachable.units.find? fun unit =>
              decide (unit.module = target.1 ∧ unit.name = target.2) with
          | none => .ok []
          | some reachableTarget =>
            .ok ((proof.candidateParameters.entries.filter fun entry =>
              decide (entry.2.module = target.1 ∧
                entry.2.unitId = reachableTarget.id ∧
                entry.2.parameterIndex = some forwarded.argumentIndex ∧
                entry.2.argumentProjection = forwarded.argumentProjection)).map
              Prod.fst)

/-- The parameters that a reference is passed to when just one call takes it. -/
def soleForwardedKeys (caller : ReachableUnit) :
    List ForwardedCall → Except String (List CapabilityBindingKey)
  | [forwarded] => resolveForwardedCapabilityKeys modules reachable index proof caller forwarded
  | _ => .ok []

/-- The calls of adapters that take the reference as their database. -/
def representedDependencyCalls : List AppliedDependencyAdapterCall :=
  (authorities.callsFor owner.module owner.unitId).filter fun call =>
    decide (call.effect.Contains reference.range) &&
      (decide (call.effectPath = reference.name) ||
        decide (call.effectPath = reference.name ++ ".db"))

/-- The effect of the operation holds the range. -/
def effectContains (operation : OperationCandidate) (range : SourceRange) : Bool :=
  operation.effectStart.any (fun start => decide (start ≤ range.start)) &&
    operation.effectEnd.any fun stop => decide (range.stop ≤ stop)

/-- The operations of the unit whose effect is rooted in the reference. -/
def representedOperations : List OperationCandidate :=
  module.operations.filter fun operation =>
    decide (unit.range.Contains operation.range) &&
      effectContains operation reference.range &&
      operation.effectPath.any (ownedOperationEffectPath reference.name operation.kind) &&
      module.effects.any fun effect =>
        decide (operation.effectStart = some effect.range.start ∧
          operation.effectEnd = some effect.range.stop ∧
          operation.effectPath = some effect.path)

/-- The widest effect at the reference, the last of those as wide. -/
def widestEffect : Option EffectCandidate :=
  (module.effects.filter fun effect =>
    decide (effect.range.Contains reference.range) &&
      (decide (effect.path = reference.name) ||
        (reference.name ++ ".").toList.isPrefixOf effect.path.toList)).foldl
    (fun widest effect => match widest with
      | none => some effect
      | some found =>
        if found.range.stop - found.range.start ≤ effect.range.stop - effect.range.start then
          some effect
        else some found) none

/-- What becomes of one reference. -/
inductive ReferenceOutcome
  | covered
  | admitted (identity : OperationIdentity)
  | diagnosed (diagnostic : Diagnostic)
  deriving DecidableEq

/-- The diagnostic of a reference that nothing accounts for. -/
def unrepresentedReference : Except String Diagnostic :=
  let effect := widestEffect module reference
  let start := (effect.map fun effect => effect.range.start).getD reference.range.start
  let path := (effect.map EffectCandidate.path).getD reference.name
  let rejected := module.operations.find? fun operation =>
    decide (unit.range.Contains operation.range) && effectContains operation reference.range &&
      (rejectedContextOperationDiagnostic operation.kind).isSome
  match rejected.bind fun operation =>
      (rejectedContextOperationDiagnostic operation.kind).map fun texts =>
        (operation.range.start, texts) with
  | some (rejectedStart, code, message) =>
    diagnosticAt modules code message owner.module rejectedStart (some path)
      owner.dependencyChain
  | none =>
    diagnosticAt modules "unsupported-convex-effect"
      s!"reachable Convex capability access {path} is not represented by an admitted operation or an exact static source call"
      owner.module start (some path) owner.dependencyChain

def analyzeReference (specialized : List SpecializedEffect)
    (attempted : List CapabilityBindingKey) (owner : CapabilityOwner) (module : ModuleSummary)
    (unit : ReachableUnit) (reference : ReferenceOccurrence) :
    Except String ReferenceOutcome := do
  if specialized.any fun effect => decide (effect.module = owner.module ∧
      effect.unitId = owner.unitId ∧ effect.range.Contains reference.range) then
    return .covered
  match reference.readOnly, representedDependencyCalls authorities owner reference with
  | true, [call] => return .admitted call.identity
  | _, _ =>
    match reference.readOnly, representedOperations module unit reference with
    | true, [operation] =>
      if ¬ (graph.effectExecutionMode = .guestPromiseEventLoop ∧
          guestDirectEffectRequiresCallablePlan operation.kind = true) then
        return .admitted ⟨owner.module, operation.range⟩
      else forward
    | _, _ => forward
where
  /-- The last way to account for the reference: it is forwarded. -/
  forward : Except String ReferenceOutcome := do
    let keys ← soleForwardedKeys modules reachable index proof unit
      (forwardedCalls module unit reference)
    if keys.any fun key => decide (key ∈ attempted) then
      return .covered
    else
      let diagnostic ← unrepresentedReference modules owner module unit reference
      return .diagnosed diagnostic

def analyzeOwner (specialized : List SpecializedEffect) (attempted : List CapabilityBindingKey)
    (owner : CapabilityOwner) : Except String (List ReferenceOutcome) :=
  match reachable.get? owner.unitId with
  | none => .error "owned capability source unit disappeared"
  | some unit =>
    match modules.get? owner.module with
    | none => .error "owned capability source module disappeared"
    | some module =>
      owner.references.mapM (analyzeReference graph modules reachable index proof
        authorities specialized attempted owner module unit)

/-- The call forwards something that is not owned to a parameter that is taken for owned. -/
def diagnoseMixedCall (argumentIndex : ℕ) (indexed : ResolvedStaticCall) :
    Except String (Option Diagnostic) := do
  let exact ← exactOwnedCapabilityArgument modules proof.candidateParameters proof.owned
    proof.ownedReferences owner indexed
  if exact then return none
  let argument := exactCapabilityArgument indexed.call owner <|>
    indexed.call.arguments[argumentIndex]?
  let start := (argument.map SourceRange.start).getD indexed.call.range.start
  let diagnostic ← diagnosticAt modules "mixed-capability-callsite"
    s!"reachable call to capability-owned helper {target.name} argument {argumentIndex} is not an exact owned capability forwarding edge"
    indexed.caller.module start (some indexed.call.callee) indexed.caller.dependencyChain
  return some diagnostic

def diagnoseReference (indexed : ResolvedStaticReference) : Except String (Option Diagnostic) :=
  if indexed.reference.write then
    some <$> diagnosticAt modules "capability-helper-binding-write"
      s!"reachable write to capability-owned helper {target.name} can change static call dispatch"
      indexed.caller.module indexed.reference.range.start (some indexed.reference.name)
      indexed.caller.dependencyChain
  else if indexed.directCall then .ok none
  else
    some <$> diagnosticAt modules "indirect-capability-callsite"
      s!"reachable capability-owned helper {target.name} is referenced outside a direct static call"
      indexed.caller.module indexed.reference.range.start (some indexed.reference.name)
      indexed.caller.dependencyChain

def diagnoseInexactReference (indexed : InexactStaticReference) : Except String Diagnostic :=
  diagnosticAt modules "indirect-capability-callsite"
    s!"reachable capability-owned helper {target.name} is referenced outside a reachable direct static call"
    indexed.module indexed.reference.range.start (some indexed.reference.name)
    owner.dependencyChain

/-- A parameter that a capability reaches and that is not owned has something wrong with
its calls or with the references to its function. -/
def diagnoseRejectedParameter (attempted : List CapabilityBindingKey)
    (entry : CapabilityBindingKey × CapabilityOwner) : Except String (List Diagnostic) :=
  if proof.owned.containsKey entry.1 ∨ entry.1 ∉ attempted then .ok []
  else
    match entry.2.parameterIndex with
    | none => .error "rejected capability parameter has no argument index"
    | some argumentIndex =>
      match reachable.get? entry.2.unitId with
      | none => .error "rejected capability target unit disappeared"
      | some target => do
          let key := (target.module, target.name)
          let calls ← (index.callsTo key).mapM
            (diagnoseMixedCall modules proof entry.2 target argumentIndex)
          let references ← (index.referencesTo key).mapM (diagnoseReference modules target)
          let inexact ← (index.inexactReferencesTo key).mapM
            (diagnoseInexactReference modules entry.2 target)
          return calls.reduceOption ++ references.reduceOption ++ inexact

def diagnoseRejectedCapabilityParameters (attempted : List CapabilityBindingKey) :
    Except String (List Diagnostic) := do
  let diagnostics ← proof.candidateParameters.entries.mapM
    (diagnoseRejectedParameter modules reachable index proof attempted)
  return diagnostics.flatten

def diagnoseDependencyCall (admitted : List OperationIdentity)
    (call : AppliedDependencyAdapterCall) : Except String (Option Diagnostic) :=
  if call.identity ∈ admitted then .ok none
  else
    some <$> diagnosticAt modules "unsupported-dependency-adapter-capability"
      s!"adapter {call.descriptorId} database argument is not an exact owned Convex database capability"
      call.importerModule call.effect.start (some call.semanticKind) call.dependencyChain

/-- The analysis with the diagnostics it adds. -/
def analyzeOwnedCapabilities : Except String (OwnedCapabilityAnalysis × List Diagnostic) := do
  let handles := (authorities.dependencyAdapterCalls.filter fun call =>
    decide (call.semanticKind = "functionHandleCreate")).map AppliedDependencyAdapterCall.identity
  if proof.owned.entries.isEmpty then
    return (⟨authorities.authorizedQueryValues ++ handles, [],
      authorities.authorizedQueryValues, []⟩, [])
  let planned ← planEffects graph reachable proof authorities
  let authorized := planned.map fun effect => planIdentity effect.1
  let specialized ← specializedEffects graph reachable proof authorities
  let attempted ← attemptedParameters modules reachable index proof
  let outcomes ← proof.owned.values.mapM
    (analyzeOwner graph modules reachable index proof authorities specialized attempted)
  let admitted := authorities.authorizedQueryValues ++ handles ++ authorized ++
    (specializations graph authorities).map LegacyEffectSpecialization.identity ++
    outcomes.flatten.filterMap fun outcome => match outcome with
      | .admitted identity => some identity
      | _ => none
  let rejected ← diagnoseRejectedCapabilityParameters modules reachable index proof attempted
  let dependencies ← authorities.dependencyAdapterCalls.mapM
    (diagnoseDependencyCall modules admitted)
  let unrepresented := outcomes.flatten.filterMap fun outcome => match outcome with
    | .diagnosed diagnostic => some diagnostic
    | _ => none
  return (⟨admitted, authorized, authorities.authorizedQueryValues,
    specializations graph authorities⟩, unrepresented ++ rejected ++ dependencies.reduceOption)

end Analysis

end ConvexWasm.Compiler.CapabilityAnalysis
