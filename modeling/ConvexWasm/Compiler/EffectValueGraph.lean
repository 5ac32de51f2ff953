import ConvexWasm.Core.BoundedClosure
import ConvexWasm.Core.DepthFirst
import ConvexWasm.Compiler.ControlPlans

/-!
# The effect-value graph

Each callable lists the local paths of its effect values, from a parameter, a
call result or an effect to an await, a return or a call argument.  The graph
composes them along exact calls, up to a depth and a number of routes, and
answers whether every route of a call result ends in an await.
-/

namespace ConvexWasm.Compiler.EffectValueGraph

open BoundedClosure ControlPlans

inductive AuthenticatedEffectValueOrigin
  | parameter (index : ℕ) (name : String) (declaration reference : SourceAnchor)
  | callResult (callsite : SourceAnchor) (callee : String) (calleeProvenance : SourceAnchor)
  | effectSite (source : AuthenticatedEffectValueSource)
  deriving DecidableEq

structure AuthenticatedPromiseAllArrayAlias where
  binding : SourceAnchor
  initializer : SourceAnchor
  reference : SourceAnchor
  awaitSite : Option SourceAnchor
  deriving DecidableEq

inductive AuthenticatedEffectValueStep
  | alias (binding initializer reference : SourceAnchor)
  | choice (site : SourceAnchor) (branch : ℕ) (child : SourceAnchor)
  | promiseAll (site promise argument : SourceAnchor)
      (arrayAlias : Option AuthenticatedPromiseAllArrayAlias) (childIndex childCount : ℕ)
      (child : SourceAnchor)
  deriving DecidableEq

inductive AuthenticatedEffectValueSink
  | await (site value : SourceAnchor)
  | return (site value : SourceAnchor)
  | callArgument (callsite : SourceAnchor) (callee : String) (calleeProvenance : SourceAnchor)
      (argumentIndex : ℕ) (value : SourceAnchor)
  deriving DecidableEq

structure AuthenticatedEffectValuePath where
  origin : AuthenticatedEffectValueOrigin
  steps : List AuthenticatedEffectValueStep
  sink : AuthenticatedEffectValueSink
  deriving DecidableEq

structure AuthenticatedEffectValueFlowRejection where
  origin : AuthenticatedEffectValueOrigin
  provenance : SourceAnchor
  reason : String
  deriving DecidableEq

structure AuthenticatedCallableEffectValueFlow where
  callable : CallableKey
  callableSource : SourceAnchor
  parameterCount : ℕ
  handler : Bool
  paths : List AuthenticatedEffectValuePath
  rejections : List AuthenticatedEffectValueFlowRejection
  deriving DecidableEq

structure AuthenticatedEffectValueRoute where
  originCallable : CallableKey
  origin : AuthenticatedEffectValueOrigin
  sinkCallable : CallableKey
  sink : AuthenticatedEffectValueSink
  steps : List AuthenticatedEffectValueStep
  callablePath : List CallableKey
  callsites : List SourceAnchor
  basePathIds : List ℕ
  blocked : Bool
  handlerSink : Bool
  deriving DecidableEq

structure AuthenticatedEffectValueCallEdge where
  caller : CallableKey
  callsite : SourceAnchor
  target : CallableKey
  control : CallableControlCallPlan
  composable : Bool
  recursive : Bool
  deriving DecidableEq

structure AuthenticatedEffectValueGraph where
  routes : List AuthenticatedEffectValueRoute
  callEdges : List AuthenticatedEffectValueCallEdge
  recursiveCallables : List CallableKey
  incomplete : Bool
  deriving DecidableEq

def maxEffectValueRoutes : ℕ := 1024

def maxEffectValueDepth : ℕ := 12

def sameAuthenticatedEffectValueOrigin :
    AuthenticatedEffectValueOrigin → AuthenticatedEffectValueOrigin → Bool
  | .parameter leftIndex _ leftDeclaration _, .parameter rightIndex _ rightDeclaration _ =>
    decide (leftIndex = rightIndex) && decide (leftDeclaration = rightDeclaration)
  | .callResult left _ _, .callResult right _ _ => decide (left = right)
  | .effectSite left, .effectSite right => decide (left = right)
  | _, _ => false

/-- What the first loop records of the control plans. -/
structure PlanRecords where
  incomplete : Bool
  controlSkeletons : KeyedMap CallableKey CallableControlSkeletonCandidate
  controlSources : KeyedMap CallableKey SourceAnchor
  sourceBlocks : List CallableControlSourceEffect

def PlanRecords.empty : PlanRecords := ⟨false, .empty, .empty, []⟩

variable (plan : CallableControlPlan)

def skeletonFits : Bool :=
  decide (plan.skeleton.callableStart = plan.callableSource.start) &&
    decide (plan.skeleton.callableStop = plan.callableSource.stop) &&
    plan.skeleton.blocks.any fun block => decide (block.id = plan.skeleton.entryBlock)

/-- The effects of a plan that start in its own callable. -/
def ownEffects : List CallableEffectPlan :=
  plan.effects.filter fun effect =>
    decide (effect.callable = plan.callable) &&
      decide (effect.callableSource = plan.callableSource) &&
      effect.provenance.callerCallsite.isNone

/-- A source has at most one of the plan's own effects, and each of these exactly
one source. -/
def effectsMatch : Bool :=
  (plan.sourceEffects.all fun sourceEffect =>
    decide (((ownEffects plan).filter fun effect =>
      sourceEffect.source.matchesEffectPlan effect).length ≤ 1)) &&
  (ownEffects plan).all fun effect =>
    decide ((plan.sourceEffects.filter fun sourceEffect =>
      sourceEffect.source.matchesEffectPlan effect).length = 1)

def recordPlan (records : PlanRecords) (plan : CallableControlPlan) : PlanRecords :=
  if !skeletonFits plan then { records with incomplete := true }
  else if (records.controlSkeletons.get? plan.callable).any
      fun previous => decide (previous ≠ plan.skeleton) then
    { records with incomplete := true }
  else
    let controlSkeletons :=
      if records.controlSkeletons.containsKey plan.callable then records.controlSkeletons
      else records.controlSkeletons.insert plan.callable plan.skeleton
    if (records.controlSources.get? plan.callable).any
        fun previous => decide (previous ≠ plan.callableSource) then
      { records with
        incomplete := true
        controlSkeletons := controlSkeletons }
    else
      { incomplete := records.incomplete || !effectsMatch plan
        controlSkeletons := controlSkeletons
        controlSources :=
          if records.controlSources.containsKey plan.callable then records.controlSources
          else records.controlSources.insert plan.callable plan.callableSource
        sourceBlocks := records.sourceBlocks ++ plan.sourceEffects }

/-- The block of each recorded source is one of its callable's skeleton. -/
def blocksExist (records : PlanRecords) : Bool :=
  records.sourceBlocks.all fun source =>
    (records.controlSkeletons.get? source.source.targetCallable).any fun skeleton =>
      skeleton.blocks.any fun block => decide (block.id = source.block)

def plansIncomplete (plans : List CallableControlPlan) : Bool :=
  let records := plans.foldl recordPlan .empty
  records.incomplete || !blocksExist records

def callEdgeKey (edge : AuthenticatedEffectValueCallEdge) :
    String ×ₗ ℕ ×ₗ ℕ ×ₗ (String ×ₗ String) ×ₗ (String ×ₗ String) :=
  toLex (edge.callsite.module, toLex (edge.callsite.start, toLex (edge.callsite.stop,
    toLex (toLex (edge.caller.module, edge.caller.unitId),
      toLex (edge.target.module, edge.target.unitId)))))

/-- The calls as edges in the order of their places. -/
def plainCallEdges (plans : List CallableControlPlan) : List AuthenticatedEffectValueCallEdge :=
  ((plannedCalls plans).map fun planned =>
    { caller := planned.1
      callsite := planned.2.callsite
      target := planned.2.target
      control := planned.2
      composable := decide ((callsAt plans planned.1 planned.2.callsite).length = 1) &&
        planned.2.dispatchExact && planned.2.argumentsSafe
      recursive := false : AuthenticatedEffectValueCallEdge }).insertionSort
    fun edge other => callEdgeKey edge ≤ callEdgeKey other

variable (edges : List AuthenticatedEffectValueCallEdge)

def adjacency (caller : CallableKey) : List CallableKey :=
  (edges.filter fun edge => decide (edge.caller = caller)).map (·.target)

/-- The search enters each callable once, so there is fuel for every edge. -/
def reaches (current target : CallableKey) : Bool :=
  (DepthFirst.search (adjacency edges) target (edges.length + 1) current []).1

def markRecursive : List AuthenticatedEffectValueCallEdge :=
  edges.map fun edge =>
    { edge with
      recursive := decide (edge.caller = edge.target) || reaches edges edge.target edge.caller }

def callEdges (plans : List CallableControlPlan) : List AuthenticatedEffectValueCallEdge :=
  markRecursive (plainCallEdges plans)

def recursiveCallables : List CallableKey :=
  (edges.filter (·.recursive)).flatMap fun edge => [edge.caller, edge.target]

section Routes

/-- The route of one local path, before it is numbered. -/
def localRoute (flow : AuthenticatedCallableEffectValueFlow)
    (path : AuthenticatedEffectValuePath) : AuthenticatedEffectValueRoute where
  originCallable := flow.callable
  origin := path.origin
  sinkCallable := flow.callable
  sink := path.sink
  steps := path.steps
  callablePath := [flow.callable]
  callsites := []
  basePathIds := []
  blocked := flow.rejections.any fun rejection =>
    sameAuthenticatedEffectValueOrigin rejection.origin path.origin
  handlerSink := flow.handler

def routeKey (route : AuthenticatedEffectValueRoute) :
    (String ×ₗ String) ×ₗ (String ×ₗ String) ×ₗ ℕ :=
  toLex (toLex (route.originCallable.module, route.originCallable.unitId),
    toLex (toLex (route.sinkCallable.module, route.sinkCallable.unitId),
      route.callablePath.length))

/-- The sorted local routes; equal neighbours are listed once. -/
def localRoutes (flows : List AuthenticatedCallableEffectValueFlow) :
    List AuthenticatedEffectValueRoute :=
  ((flows.flatMap fun flow => flow.paths.map (localRoute flow)).insertionSort
    fun route other => routeKey route ≤ routeKey other).destutter (· ≠ ·)

def numberRoute (route : AuthenticatedEffectValueRoute) (basePathId : ℕ) :
    AuthenticatedEffectValueRoute :=
  { route with basePathIds := [basePathId] }

def numberRoutes (routes : List AuthenticatedEffectValueRoute) :
    List AuthenticatedEffectValueRoute :=
  routes.zipIdx.map fun numbered => numberRoute numbered.1 numbered.2

/-- The last flow of a callable. -/
def flowOf (flows : List AuthenticatedCallableEffectValueFlow) (callable : CallableKey) :
    Option AuthenticatedCallableEffectValueFlow :=
  flows.reverse.find? fun flow => decide (flow.callable = callable)

variable (flows : List AuthenticatedCallableEffectValueFlow) (plans : List CallableControlPlan)

variable (first second : AuthenticatedEffectValueRoute)

/-- The exact call that carries the value of the first route into the second,
with its caller. -/
def connectingCall : Option (CallableKey × CallableControlCallPlan) :=
  match first.sink, second.origin with
  | .callArgument callsite _ _ argumentIndex _, .parameter index _ _ _ =>
    if argumentIndex = index then
      (exactCallAt plans first.sinkCallable callsite).bind fun call =>
        if call.target = second.originCallable ∧
            ((flowOf flows call.target).any fun target =>
              decide (argumentIndex < target.parameterCount)) = true then
          some (first.sinkCallable, call)
        else none
    else none
  | .return _ _, .callResult callsite _ _ =>
    (exactCallAt plans second.originCallable callsite).bind fun call =>
      if call.target = first.sinkCallable then some (second.originCallable, call) else none
  | _, _ => none

def joinRoutes (callsite : SourceAnchor) : AuthenticatedEffectValueRoute where
  originCallable := first.originCallable
  origin := first.origin
  sinkCallable := second.sinkCallable
  sink := second.sink
  steps := first.steps ++ second.steps
  callablePath := first.callablePath ++ second.callablePath
  callsites := first.callsites ++ callsite :: second.callsites
  basePathIds := first.basePathIds ++ second.basePathIds
  blocked := first.blocked || second.blocked
  handlerSink := second.handlerSink

def composeEffectValueRoutes
    (call : CallableControlCallPlan) : Composition AuthenticatedEffectValueRoute :=
  if maxEffectValueDepth < (first.callablePath ++ second.callablePath).length then .tooLong
  else .composed (joinRoutes first second call.callsite)

/-- Recursive calls are not followed. -/
def composeRoutes : Composition AuthenticatedEffectValueRoute :=
  match connectingCall flows plans first second with
  | none => .apart
  | some (caller, call) =>
    if (callEdges plans).any fun edge =>
        edge.recursive && decide (edge.caller = caller) &&
          decide (edge.callsite = call.callsite) && decide (edge.target = call.target) then
      .apart
    else composeEffectValueRoutes first second call

/-- The graph without its plans for consumers, which no closure reads. -/
def buildAuthenticatedEffectValueGraph : AuthenticatedEffectValueGraph :=
  let base := numberRoutes (localRoutes flows)
  if maxEffectValueRoutes < base.length then
    { routes := base.take maxEffectValueRoutes
      callEdges := callEdges plans
      recursiveCallables := recursiveCallables (callEdges plans)
      incomplete := true }
  else
    let saturation := saturate maxEffectValueRoutes (composeRoutes flows plans)
      (maxEffectValueRoutes + 1) ⟨base, plansIncomplete plans, true, false⟩
    { routes := saturation.routes
      callEdges := callEdges plans
      recursiveCallables := recursiveCallables (callEdges plans)
      incomplete := saturation.incomplete }

end Routes

section Closure

/-- The candidate extends the route, first through the callsite. -/
def descendantThroughCall (route candidate : AuthenticatedEffectValueRoute)
    (callsite : SourceAnchor) : Bool :=
  decide (route.basePathIds.length < candidate.basePathIds.length) &&
    route.basePathIds.isPrefixOf candidate.basePathIds &&
    decide (candidate.callsites[route.callsites.length]? = some callsite)

variable (graph : AuthenticatedEffectValueGraph)

def routeIsFullyExpanded (route : AuthenticatedEffectValueRoute)
    (matching : List AuthenticatedEffectValueRoute) : Bool :=
  match route.sink with
  | .callArgument callsite _ _ _ _ =>
    (graph.callEdges.find? fun edge => decide (edge.callsite = callsite)).any fun edge =>
      edge.composable && matching.any fun candidate =>
        descendantThroughCall route candidate callsite
  | .return _ _ =>
    if route.handlerSink then false
    else
      let inbound := graph.callEdges.filter fun edge => decide (edge.target = route.sinkCallable)
      !inbound.isEmpty && inbound.all fun edge =>
        edge.composable && matching.any fun candidate =>
          descendantThroughCall route candidate edge.callsite
  | .await _ _ => false

/-- Module, start and end of a call whose result a batch consumes. -/
abbrev BatchClosure := String × ℕ × ℕ

def SourceAnchor.batchClosure (anchor : SourceAnchor) : BatchClosure :=
  (anchor.module, anchor.start, anchor.stop)

def endsClosed (batchClosures : List BatchClosure) (route : AuthenticatedEffectValueRoute) : Bool :=
  (match route.sink with
    | .await _ _ => true
    | .return _ _ => route.handlerSink
    | .callArgument _ _ _ _ _ => false) ||
  route.callsites.getLast?.any fun callsite =>
    decide (SourceAnchor.batchClosure callsite ∈ batchClosures)

def closesRoutes (matching : List AuthenticatedEffectValueRoute)
    (batchClosures : List BatchClosure) : Bool :=
  let frontier := matching.filter fun route => !routeIsFullyExpanded graph route matching
  !frontier.isEmpty && frontier.all fun route =>
    !route.blocked &&
      (!route.callablePath.any fun callable => decide (callable ∈ graph.recursiveCallables)) &&
      endsClosed batchClosures route

/-- The routes of the result of the call at a place. -/
def startsAtCall (module : String) (start stop : ℕ) (route : AuthenticatedEffectValueRoute) :
    Bool :=
  match route.origin with
  | .callResult callsite _ _ =>
    decide (callsite.module = module) && decide (callsite.start = start) &&
      decide (callsite.stop = stop)
  | .parameter _ _ _ _ => false
  | .effectSite _ => false

def closesCallResult (module : String) (start stop : ℕ) (batchClosures : List BatchClosure) :
    Bool :=
  if (module, start, stop) ∈ batchClosures then true
  else if graph.incomplete then false
  else closesRoutes graph (graph.routes.filter (startsAtCall module start stop)) batchClosures

end Closure

end ConvexWasm.Compiler.EffectValueGraph
