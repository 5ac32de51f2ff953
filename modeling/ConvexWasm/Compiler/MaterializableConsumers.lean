import ConvexWasm.Compiler.ExactCallRoutes

/-!
# Consumers of materialized effects

An effect with a plan of its own is materialized where it stands, or at a call
of its callable from which its value comes back.  The plan of such a consumer
records the calls between them.  How the operands of the effect are projected
to the consumer is left open; it decides only whether there is a plan.
-/

namespace ConvexWasm.Compiler.EffectValueGraph

open ControlPlans

/-- An effect plan with its effect key and operands. -/
structure OperandEffectPlan (Operands : Type) extends CallableEffectPlan where
  operands : Operands
  deriving DecidableEq

structure AuthenticatedMaterializedEffectValueSource (Operands : Type) where
  source : AuthenticatedEffectValueSource
  plan : OperandEffectPlan Operands

inductive AuthenticatedMaterializationRoute
  | directSource
  | exactCalls (calls : List CallableControlCallPlan)
  deriving DecidableEq

structure AuthenticatedMaterializableConsumerPlan (Operands : Type) where
  source : AuthenticatedEffectValueSource
  consumer : SourceAnchor
  plan : OperandEffectPlan Operands
  route : AuthenticatedMaterializationRoute

structure MaterializingGraph (Operands : Type) extends RecordedEffectValueGraph where
  materializedSourceEffects : List (AuthenticatedMaterializedEffectValueSource Operands)

def consumerSite {Operands : Type} (plan : OperandEffectPlan Operands) : SourceAnchor :=
  plan.provenance.callerCallsite.getD plan.provenance.targetEffect

section Consumers

variable {Operands : Type} [DecidableEq Operands]
  (projectOperands : Operands → CallableControlCallPlan → Option Operands)
  (validate : OperandEffectPlan Operands → Except String Unit)
  (graph : MaterializingGraph Operands)

variable (plan : OperandEffectPlan Operands)

/-- The safe routes from effects that match the plan, with their sources. -/
def matchingSourceRoutes : List (AuthenticatedEffectValueRoute × AuthenticatedEffectValueSource) :=
  (graph.routes.filter (routeIsSafe graph.toRecordedEffectValueGraph)).filterMap fun route =>
    match route.origin with
    | .effectSite source =>
      if source.matchesEffectPlan plan.toCallableEffectPlan then some (route, source) else none
    | .parameter _ _ _ _ => none
    | .callResult _ _ _ => none

def routesFromEffectSource (source : AuthenticatedEffectValueSource) :
    List AuthenticatedEffectValueRoute :=
  graph.routes.filter fun route => decide (route.origin = .effectSite source)

def materializedSourceForSpecializedPlan :
    Option (AuthenticatedMaterializedEffectValueSource Operands) :=
  match graph.materializedSourceEffects.filter fun candidate =>
      candidate.source.matchesEffectPlan plan.toCallableEffectPlan &&
        decide (candidate.plan.callable = plan.provenance.targetCallable) &&
        decide (candidate.plan.callableSource = plan.provenance.targetCallableSource) &&
        candidate.plan.provenance.callerCallsite.isNone with
  | [source] => some source
  | _ => none

/-- Some return instruction of the skeleton returns the value of the await. -/
def returnsAwait (skeleton : CallableControlSkeletonCandidate)
    (sink : AuthenticatedEffectValueSink) : Bool :=
  match sink with
  | .await site _ =>
    skeleton.blocks.any fun block => block.instructions.any fun instruction =>
      decide (instruction.kind = .return) &&
        decide (instruction.valueStart = some site.start) &&
        decide (instruction.valueStop = some site.stop)
  | .return _ _ => false
  | .callArgument _ _ _ _ _ => false

variable (source : AuthenticatedMaterializedEffectValueSource Operands)

def sourceAwaitsDirectEffectToReturn : Bool :=
  match graph.controlSkeletons.get? source.source.targetCallable with
  | none => false
  | some skeleton =>
    let found := routesFromEffectSource graph source.source
    !found.isEmpty &&
      (found.all fun route =>
        route.callsites.isEmpty && routeIsSafe graph.toRecordedEffectValueGraph route &&
          returnsAwait skeleton route.sink) &&
      closesRoutes graph.toAuthenticatedEffectValueGraph found []

variable (route : AuthenticatedEffectValueRoute)

def fixedPromiseAllChildWitness (callsite : SourceAnchor) : Option AuthenticatedEffectValueStep :=
  match route.steps.filter fun step =>
      match step with
      | .promiseAll _ _ _ none _ _ child => decide (child = callsite)
      | _ => false with
  | [witness] => some witness
  | _ => none

def callResultClosesFixedPromiseAll (caller : CallableKey) (callsite : SourceAnchor) : Bool :=
  let found := graph.routes.filter fun route =>
    decide (route.originCallable = caller) &&
      match route.origin with
      | .callResult origin _ _ => decide (origin = callsite)
      | .parameter _ _ _ _ => false
      | .effectSite _ => false
  match found.head?.bind fun route => fixedPromiseAllChildWitness route callsite with
  | none => false
  | some witness =>
    (found.all fun route =>
      route.callsites.isEmpty && routeIsSafe graph.toRecordedEffectValueGraph route &&
        (match route.sink with
          | .await _ _ => true
          | .return _ _ => false
          | .callArgument _ _ _ _ _ => false) &&
        decide (fixedPromiseAllChildWitness route callsite = some witness)) &&
      closesRoutes graph.toAuthenticatedEffectValueGraph found []

/-- The materialized effects of a callable. -/
def ownMaterializedEffects (callable : CallableKey) :
    List (AuthenticatedMaterializedEffectValueSource Operands) :=
  graph.materializedSourceEffects.filter fun candidate =>
    decide (candidate.source.targetCallable = callable) &&
      candidate.plan.provenance.callerCallsite.isNone

variable (edge : AuthenticatedEffectValueCallEdge)

/-- The tests that come before the operands; they include that there is one call. -/
def projectsOnce (calls : List CallableControlCallPlan) : Bool :=
  decide (source.plan.callable = source.source.targetCallable) &&
    decide (source.plan.callableSource = source.source.targetCallableSource) &&
    source.plan.provenance.callerCallsite.isNone &&
    decide (edge.control.position = .synchronous) && decide (edge.caller ≠ edge.target) &&
    decide (edge.target = source.source.targetCallable) &&
    decide ((ownMaterializedEffects graph source.source.targetCallable).length = 1) &&
    decide (calls = [edge.control]) && decide (edge.callsite = edge.control.callsite) &&
    decide (edge.target = edge.control.target) && edge.composable && !edge.recursive

def projectExactSynchronousConsumer (calls : List CallableControlCallPlan) :
    Except String (Option (AuthenticatedMaterializableConsumerPlan Operands)) :=
  if !projectsOnce graph source edge calls then .ok none
  else
    match graph.controlSources.get? edge.caller with
    | none => .error "authenticated effect-value call lost its caller source"
    | some callerSource =>
      match projectOperands source.plan.operands edge.control with
      | none => .ok none
      | some operands => do
          let plan : OperandEffectPlan Operands :=
            { callable := edge.caller
              callableSource := callerSource
              provenance :=
                { source.plan.provenance with callerCallsite := some edge.control.callsite }
              operands := operands }
          validate plan
          return some ⟨source.source, edge.control.callsite, plan, .exactCalls calls⟩

/-- The exact edge from the plan's callable to the callable of its effect. -/
def specializedEdge (callerCallsite : SourceAnchor) : Option AuthenticatedEffectValueCallEdge :=
  match graph.callEdges.filter fun edge =>
      edge.composable && !edge.recursive && decide (edge.caller = plan.callable) &&
        decide (edge.target = plan.provenance.targetCallable) &&
        decide (edge.callsite = callerCallsite) &&
        decide (edge.control.callsite = callerCallsite) &&
        decide (edge.control.target = plan.provenance.targetCallable) &&
        decide (edge.control.targetSource = plan.provenance.targetCallableSource) &&
        edge.control.dispatchExact && edge.control.argumentsSafe with
  | [edge] => some edge
  | _ => none

/-- The calls that all matching routes through the edge have in common. -/
def directCalls : Option (List CallableControlCallPlan) :=
  match (matchingSourceRoutes graph source.plan).filterMap fun found =>
      if found.2 ≠ source.source then none
      else
        (exactCallRoute graph.toRecordedEffectValueGraph found.1).bind fun calls =>
          if edge.control ∈ calls then some calls else none with
  | [] => none
  | first :: rest => if rest.all fun candidate => decide (candidate = first) then some first else none

def specializedCalls : Option (List CallableControlCallPlan) :=
  match directCalls graph source edge with
  | some calls => some calls
  | none => if sourceAwaitsDirectEffectToReturn graph source then some [edge.control] else none

def graphOwnsSpecializedConsumer :
    Except String (Option (AuthenticatedMaterializableConsumerPlan Operands)) :=
  match plan.provenance.callerCallsite with
  | none => .ok none
  | some callerCallsite =>
    if plan.callable = plan.provenance.targetCallable ∨
        graph.controlSources.get? plan.callable ≠ some plan.callableSource ∨
        graph.controlSources.get? plan.provenance.targetCallable ≠
          some plan.provenance.targetCallableSource ∨
        sourceAnchorContains plan.callableSource callerCallsite = false then .ok none
    else
      match specializedEdge graph plan callerCallsite,
          materializedSourceForSpecializedPlan graph plan with
      | some edge, some source =>
        match specializedCalls graph source edge with
        | none => .ok none
        | some calls => do
            match ← projectExactSynchronousConsumer projectOperands validate graph source edge
                calls with
            | none => return none
            | some projected => return if projected.plan = plan then some projected else none
      | _, _ => .ok none

/-- The unique edge of a recovered call from the sink of the route. -/
def promiseAllEdge (call : CallableControlCallPlan) : Option AuthenticatedEffectValueCallEdge :=
  match graph.callEdges.filter fun edge =>
      decide (edge.control = call) && edge.composable && !edge.recursive &&
        decide (edge.caller = route.sinkCallable) &&
        decide (edge.target = source.source.targetCallable) with
  | [edge] => some edge
  | _ => none

def projectFixedPromiseAllConsumer :
    Except String (Option (AuthenticatedMaterializableConsumerPlan Operands)) :=
  if !routeIsSafe graph.toRecordedEffectValueGraph route ||
      !(match route.origin with
        | .effectSite origin => origin.matchesEffectPlan source.plan.toCallableEffectPlan
        | .parameter _ _ _ _ => false
        | .callResult _ _ _ => false) ||
      decide (source.plan.callable ≠ source.source.targetCallable) ||
      decide (source.plan.callableSource ≠ source.source.targetCallableSource) ||
      source.plan.provenance.callerCallsite.isSome then .ok none
  else
    match exactCallRoute graph.toRecordedEffectValueGraph route with
    | some [call] =>
      match promiseAllEdge graph source route call with
      | none => .ok none
      | some edge =>
        if call.position ≠ .synchronous ∨ route.originCallable ≠ call.target ∨
            route.sinkCallable ≠ edge.caller ∨
            (route.steps.any fun step =>
              match step with
              | .promiseAll _ _ _ none _ _ child => decide (child = call.callsite)
              | _ => false) = false then .ok none
        else
          projectExactSynchronousConsumer projectOperands validate graph source edge [call]
    | _ => .ok none

/-- The synchronous calls of the effect's callable whose results a `Promise.all` closes. -/
def awaitedReturnEdges : List AuthenticatedEffectValueCallEdge :=
  if !sourceAwaitsDirectEffectToReturn graph source then []
  else
    graph.callEdges.filter fun edge =>
      edge.composable && !edge.recursive && decide (edge.target = source.source.targetCallable) &&
        decide (edge.callsite = edge.control.callsite) &&
        decide (edge.target = edge.control.target) &&
        decide (edge.control.targetSource = source.source.targetCallableSource) &&
        decide (edge.control.position = .synchronous) && edge.control.dispatchExact &&
        edge.control.argumentsSafe &&
        ((graph.controlSources.get? edge.caller).any fun callerSource =>
          sourceAnchorContains callerSource edge.callsite) &&
        callResultClosesFixedPromiseAll graph edge.caller edge.callsite

/-- The consumers of one kind, in order; an error ends the pass. -/
def collectConsumers {Item : Type}
    (project : Item → Except String (Option (AuthenticatedMaterializableConsumerPlan Operands)))
    (items : List Item) : Except String (List (AuthenticatedMaterializableConsumerPlan Operands)) :=
  (items.mapM project).map (·.filterMap id)

/-- Plans for one effect at one consumer must agree on their calls; the first is kept. -/
def keepConsumer (kept : List (AuthenticatedMaterializableConsumerPlan Operands))
    (candidate : AuthenticatedMaterializableConsumerPlan Operands) :
    Except String (List (AuthenticatedMaterializableConsumerPlan Operands)) :=
  match kept.find? fun previous =>
      decide (previous.source = candidate.source) && decide (previous.plan = candidate.plan) &&
        decide (previous.consumer = candidate.consumer) with
  | none => .ok (kept ++ [candidate])
  | some previous =>
    if previous.route = candidate.route then .ok kept
    else .error ("effect-value graph has conflicting exact route witnesses for one " ++
      "materializable plan")

/-- The effects that have a safe route of their own. -/
def directConsumers : List (AuthenticatedMaterializableConsumerPlan Operands) :=
  graph.materializedSourceEffects.filterMap fun source =>
    if (matchingSourceRoutes graph source.plan).any fun found =>
        decide (found.2 = source.source) then
      some ⟨source.source, consumerSite source.plan, source.plan, .directSource⟩
    else none

/-- `rebuild_materializable_consumer_plans`; the plans of the effects of all
control plans are given in order, and `before` compares the keys of the sort. -/
def rebuildMaterializableConsumerPlans (before : AuthenticatedMaterializableConsumerPlan Operands →
      AuthenticatedMaterializableConsumerPlan Operands → Bool)
    (effects : List (OperandEffectPlan Operands)) :
    Except String (List (AuthenticatedMaterializableConsumerPlan Operands)) :=
  if graph.incomplete then .ok []
  else do
    let specialized ← collectConsumers
      (graphOwnsSpecializedConsumer projectOperands validate graph) effects
    let projected ← graph.materializedSourceEffects.mapM fun source => do
      let passed ← collectConsumers
        (projectFixedPromiseAllConsumer projectOperands validate graph source) graph.routes
      let returned ← collectConsumers
        (fun edge => projectExactSynchronousConsumer projectOperands validate graph source edge
          [edge.control]) (awaitedReturnEdges graph source)
      return passed ++ returned
    let kept ← (directConsumers graph ++ specialized ++ projected.flatten).foldlM keepConsumer []
    return kept.insertionSort fun left right => before left right = true

end Consumers

end ConvexWasm.Compiler.EffectValueGraph
