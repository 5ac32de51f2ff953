import ConvexWasm.Compiler.EffectValueMust
import ConvexWasm.Compiler.MaterializableConsumers

/-!
# The calls along which values travel

The plans of consumers come from three places.  Each records the calls of a
route that recovery has followed, or the one call through which an awaited
effect comes back.
-/

namespace ConvexWasm.Compiler.EffectValueGraph

open ControlPlans Fallible List

section Meaning

variable {Operands : Type} [DecidableEq Operands]

/-- The built graph with its materialized effects. -/
def materializingGraph (flows : List AuthenticatedCallableEffectValueFlow)
    (plans : List CallableControlPlan)
    (materialized : List (AuthenticatedMaterializedEffectValueSource Operands)) :
    MaterializingGraph Operands :=
  { buildRecordedEffectValueGraph flows plans with materializedSourceEffects := materialized }

variable (flows : List AuthenticatedCallableEffectValueFlow) (plans : List CallableControlPlan)

/-- Recovery finds the calls that join the local routes of a route. -/
def Recovered (route : AuthenticatedEffectValueRoute) : Prop :=
  ∀ links calls, CallChain flows plans (baseRoutes flows) links route calls →
    exactCallRoute (buildRecordedEffectValueGraph flows plans) route = some (calls.map (·.2))

/-- The value of the route is only passed down, along recorded calls. -/
def OnlyPassedDown (route : AuthenticatedEffectValueRoute) : Prop :=
  ∀ links calls, CallChain flows plans (baseRoutes flows) links route calls →
    PassedDown (buildRecordedEffectValueGraph flows plans) links calls

/-- The calls are those of a safe route from an effect that matches the plan. -/
def TravelsAlong (plan : OperandEffectPlan Operands) (calls : List CallableControlCallPlan) :
    Prop :=
  ∃ route ∈ (buildRecordedEffectValueGraph flows plans).routes,
    routeIsSafe (buildRecordedEffectValueGraph flows plans) route = true ∧
    (∃ source, route.origin = .effectSite source ∧
      source.matchesEffectPlan plan.toCallableEffectPlan = true) ∧
    ∀ links chainCalls, CallChain flows plans (baseRoutes flows) links route chainCalls →
      calls = chainCalls.map (·.2)

/-- The effect is awaited, its value returned, and the call is the one exact call
through which it comes back to the consumer. -/
def ComesBack (materialized : List (AuthenticatedMaterializedEffectValueSource Operands))
    (consumer : AuthenticatedMaterializableConsumerPlan Operands)
    (calls : List CallableControlCallPlan) : Prop :=
  ∃ source ∈ materialized, source.source = consumer.source ∧
    sourceAwaitsDirectEffectToReturn (materializingGraph flows plans materialized) source = true ∧
    ∃ edge ∈ callEdges plans, edge.composable = true ∧ edge.recursive = false ∧
      edge.target = consumer.source.targetCallable ∧ edge.caller = consumer.plan.callable ∧
      edge.callsite = consumer.consumer ∧ calls = [edge.control]

/-- The plan of a consumer carries the calls along which its value travels. -/
def Travelled (materialized : List (AuthenticatedMaterializedEffectValueSource Operands))
    (consumer : AuthenticatedMaterializableConsumerPlan Operands) : Prop :=
  match consumer.route with
  | .directSource => consumer.consumer = consumerSite consumer.plan ∧
      ∃ route ∈ (buildRecordedEffectValueGraph flows plans).routes,
        routeIsSafe (buildRecordedEffectValueGraph flows plans) route = true ∧
        route.origin = .effectSite consumer.source
  | .exactCalls calls => TravelsAlong flows plans consumer.plan calls ∨
      ComesBack flows plans materialized consumer calls

end Meaning

section Projection

variable {Operands : Type} [DecidableEq Operands]
  {projectOperands : Operands → CallableControlCallPlan → Option Operands}
  {validate : OperandEffectPlan Operands → Except String Unit}
  {graph : MaterializingGraph Operands}
  {source : AuthenticatedMaterializedEffectValueSource Operands}
  {edge : AuthenticatedEffectValueCallEdge} {calls : List CallableControlCallPlan}
  {consumer : AuthenticatedMaterializableConsumerPlan Operands}

/-- What a projected consumer is. -/
structure Projected (source : AuthenticatedMaterializedEffectValueSource Operands)
    (edge : AuthenticatedEffectValueCallEdge) (calls : List CallableControlCallPlan)
    (consumer : AuthenticatedMaterializableConsumerPlan Operands) : Prop where
  sameSource : consumer.source = source.source
  site : edge.callsite = consumer.consumer
  ofCaller : edge.caller = consumer.plan.callable
  ofTarget : edge.target = consumer.source.targetCallable
  isComposable : edge.composable = true
  notRecursive : edge.recursive = false
  onlyCall : calls = [edge.control]
  exactRoute : consumer.route = .exactCalls calls
  sameProvenance : consumer.plan.provenance.toAuthenticatedEffectValueSource =
    source.plan.provenance.toAuthenticatedEffectValueSource

theorem project_spec
    (hproject : projectExactSynchronousConsumer projectOperands validate graph source edge calls =
      .ok (some consumer)) : Projected source edge calls consumer := by
  unfold projectExactSynchronousConsumer at hproject
  split at hproject
  · simp at hproject
  next honce =>
  split at hproject
  · simp at hproject
  split at hproject
  · simp at hproject
  obtain ⟨_, -, hproject⟩ := Fallible.bind_eq_ok.mp hproject
  obtain rfl := Option.some.inj (Except.ok.inj hproject)
  simp only [Bool.not_eq_true', Bool.not_eq_false, projectsOnce, Bool.and_eq_true,
    decide_eq_true_eq] at honce
  obtain ⟨⟨⟨⟨⟨⟨-, htarget⟩, -⟩, hcalls⟩, hcallsite⟩, -⟩, hcomposable⟩ := honce.1
  have hplain : edge.recursive = false := honce.2
  exact ⟨rfl, hcallsite, rfl, htarget, hcomposable, hplain, hcalls, rfl, rfl⟩

variable {consumers : List (AuthenticatedMaterializableConsumerPlan Operands)}

theorem collect_spec {Item : Type} {items : List Item}
    {project : Item → Except String (Option (AuthenticatedMaterializableConsumerPlan Operands))}
    (hcollect : collectConsumers project items = .ok consumers) (hconsumer : consumer ∈ consumers) :
    ∃ item ∈ items, project item = .ok (some consumer) := by
  unfold collectConsumers at hcollect
  cases hresults : items.mapM project with
  | error failure =>
    rw [hresults] at hcollect
    simp [Except.map] at hcollect
  | ok results =>
    rw [hresults] at hcollect
    obtain rfl := Except.ok.inj hcollect
    obtain ⟨result, hresult, hsome⟩ := mem_filterMap.mp hconsumer
    obtain rfl : result = some consumer := hsome
    exact exists_item_of_mem hresults hresult

/-- Nothing is kept that was not a candidate. -/
theorem keep_subset {candidates kept : List (AuthenticatedMaterializableConsumerPlan Operands)}
    (hkeep : candidates.foldlM keepConsumer [] = .ok kept) :
    ∀ consumer ∈ kept, consumer ∈ candidates := by
  apply foldlM_invariant (fun kept => ∀ consumer ∈ kept, consumer ∈ candidates) _
    (by simp) hkeep
  intro state candidate next hcandidate hstate hstep
  unfold keepConsumer at hstep
  split at hstep
  · obtain rfl := Except.ok.inj hstep
    intro consumer hconsumer
    cases mem_append.mp hconsumer with
    | inl hold => exact hstate consumer hold
    | inr hlast => exact mem_singleton.mp hlast ▸ hcandidate
  · split at hstep
    · obtain rfl := Except.ok.inj hstep
      exact hstate
    · simp at hstep

/-- Where the rebuilt plans come from. -/
theorem rebuild_cases {before : AuthenticatedMaterializableConsumerPlan Operands →
      AuthenticatedMaterializableConsumerPlan Operands → Bool}
    {effects : List (OperandEffectPlan Operands)}
    (hrebuild : rebuildMaterializableConsumerPlans projectOperands validate graph before effects =
      .ok consumers) (hconsumer : consumer ∈ consumers) :
    consumer ∈ directConsumers graph ∨
      (∃ plan, graphOwnsSpecializedConsumer projectOperands validate graph plan =
        .ok (some consumer)) ∨
      (∃ source ∈ graph.materializedSourceEffects, ∃ route ∈ graph.routes,
        projectFixedPromiseAllConsumer projectOperands validate graph source route =
          .ok (some consumer)) ∨
      ∃ source ∈ graph.materializedSourceEffects, ∃ edge ∈ awaitedReturnEdges graph source,
        projectExactSynchronousConsumer projectOperands validate graph source edge
          [edge.control] = .ok (some consumer) := by
  unfold rebuildMaterializableConsumerPlans at hrebuild
  split at hrebuild
  · obtain rfl := Except.ok.inj hrebuild
    simp at hconsumer
  obtain ⟨specialized, hspecialized, hrebuild⟩ := Fallible.bind_eq_ok.mp hrebuild
  obtain ⟨projected, hprojected, hrebuild⟩ := Fallible.bind_eq_ok.mp hrebuild
  obtain ⟨kept, hkept, hrebuild⟩ := Fallible.bind_eq_ok.mp hrebuild
  obtain rfl := Except.ok.inj hrebuild
  have hcandidate := keep_subset hkept consumer
    ((perm_insertionSort _ _).mem_iff.mp hconsumer)
  rw [append_assoc, mem_append, mem_append] at hcandidate
  rcases hcandidate with hdirect | howned | hlist
  · exact .inl hdirect
  · obtain ⟨plan, -, hplan⟩ := collect_spec hspecialized howned
    exact .inr (.inl ⟨plan, hplan⟩)
  · obtain ⟨found, hfound, hmem⟩ := mem_flatten.mp hlist
    obtain ⟨source, hsource, hlists⟩ := exists_item_of_mem hprojected hfound
    obtain ⟨passed, hpassed, hlists⟩ := Fallible.bind_eq_ok.mp hlists
    obtain ⟨returned, hreturned, hlists⟩ := Fallible.bind_eq_ok.mp hlists
    obtain rfl := Except.ok.inj hlists
    cases mem_append.mp hmem with
    | inl hmem =>
      obtain ⟨route, hroute, hproject⟩ := collect_spec hpassed hmem
      exact .inr (.inr (.inl ⟨source, hsource, route, hroute, hproject⟩))
    | inr hmem =>
      obtain ⟨edge, hedge, hproject⟩ := collect_spec hreturned hmem
      exact .inr (.inr (.inr ⟨source, hsource, edge, hedge, hproject⟩))

variable {route : AuthenticatedEffectValueRoute}

theorem mem_matchingSourceRoutes {plan : OperandEffectPlan Operands}
    {found : AuthenticatedEffectValueSource}
    (hmem : (route, found) ∈ matchingSourceRoutes graph plan) :
    route ∈ graph.routes ∧ routeIsSafe graph.toRecordedEffectValueGraph route = true ∧
      route.origin = .effectSite found ∧
      found.matchesEffectPlan plan.toCallableEffectPlan = true := by
  obtain ⟨other, hother, hfound⟩ := mem_filterMap.mp hmem
  obtain ⟨hroute, hsafe⟩ := mem_filter.mp hother
  split at hfound
  · next source horigin =>
      split at hfound
      · next hmatches =>
          obtain ⟨rfl, rfl⟩ : other = route ∧ source = found := by simpa using hfound
          exact ⟨hroute, hsafe, horigin, hmatches⟩
      · simp at hfound
  · simp at hfound
  · simp at hfound

/-- The calls of a specialized consumer are those of a matching route, or the effect
comes back through the edge. -/
theorem specializedCalls_cases (hcalls : specializedCalls graph source edge = some calls) :
    (∃ route found, (route, found) ∈ matchingSourceRoutes graph source.plan ∧
        exactCallRoute graph.toRecordedEffectValueGraph route = some calls) ∨
      sourceAwaitsDirectEffectToReturn graph source = true := by
  unfold specializedCalls at hcalls
  split at hcalls
  · next direct hdirect =>
      obtain rfl := Option.some.inj hcalls
      left
      unfold directCalls at hdirect
      split at hdirect
      · simp at hdirect
      next first rest hlist =>
      split at hdirect
      · obtain rfl := Option.some.inj hdirect
        have hmem : first ∈ _ := hlist ▸ mem_cons_self
        obtain ⟨⟨route, found⟩, hfound, hroute⟩ := mem_filterMap.mp hmem
        split at hroute
        · simp at hroute
        obtain ⟨recovered, hrecovered, hroute⟩ := Option.bind_eq_some_iff.mp hroute
        split at hroute
        · obtain rfl := Option.some.inj hroute
          exact ⟨route, found, hfound, hrecovered⟩
        · simp at hroute
      · simp at hdirect
  · split at hcalls
    · next hawaits => exact .inr hawaits
    · simp at hcalls

/-- A call that leads through a fixed `Promise.all` is the recovered one. -/
theorem fixedPromiseAll_spec
    (hproject : projectFixedPromiseAllConsumer projectOperands validate graph source route =
      .ok (some consumer)) :
    ∃ found edge call, routeIsSafe graph.toRecordedEffectValueGraph route = true ∧
      route.origin = .effectSite found ∧
      found.matchesEffectPlan source.plan.toCallableEffectPlan = true ∧
      exactCallRoute graph.toRecordedEffectValueGraph route = some [call] ∧
      projectExactSynchronousConsumer projectOperands validate graph source edge [call] =
        .ok (some consumer) := by
  unfold projectFixedPromiseAllConsumer at hproject
  cases horigin : route.origin with
  | parameter _ _ _ _ => simp [horigin] at hproject
  | callResult _ _ _ => simp [horigin] at hproject
  | effectSite found =>
    simp only [horigin] at hproject
    split at hproject
    · simp at hproject
    next hsafe =>
    simp only [Bool.or_eq_true, Bool.not_eq_true', not_or, Bool.not_eq_false] at hsafe
    obtain ⟨⟨⟨⟨hsafe, hmatches⟩, -⟩, -⟩, -⟩ := hsafe
    split at hproject
    · next call hcalls =>
        split at hproject
        · simp at hproject
        next edge _ =>
        split at hproject
        · simp at hproject
        · exact ⟨found, edge, call, hsafe, rfl, hmatches, hcalls, hproject⟩
    · simp at hproject

end Projection

variable {flows : List AuthenticatedCallableEffectValueFlow} {plans : List CallableControlPlan}

section Exactness

variable {Operands : Type} [DecidableEq Operands]
  {projectOperands : Operands → CallableControlCallPlan → Option Operands}
  {validate : OperandEffectPlan Operands → Except String Unit}
  {materialized : List (AuthenticatedMaterializedEffectValueSource Operands)}
  {source : AuthenticatedMaterializedEffectValueSource Operands}
  {edge : AuthenticatedEffectValueCallEdge} {calls : List CallableControlCallPlan}
  {consumer : AuthenticatedMaterializableConsumerPlan Operands}

omit [DecidableEq Operands] in
theorem recovered_iff (route : AuthenticatedEffectValueRoute) :
    Recovered flows plans route ↔ OnlyPassedDown flows plans route :=
  forall₃_congr fun _ _ hchain => exactCallRoute_eq_calls_iff hchain

theorem projected_comesBack (hsource : source ∈ materialized)
    (hawaits : sourceAwaitsDirectEffectToReturn (materializingGraph flows plans materialized)
      source = true)
    (hedge : edge ∈ callEdges plans) (hprojected : Projected source edge calls consumer) :
    Travelled flows plans materialized consumer := by
  unfold Travelled
  rw [hprojected.exactRoute]
  exact .inr ⟨source, hsource, hprojected.sameSource.symm, hawaits, edge, hedge,
    hprojected.isComposable, hprojected.notRecursive, hprojected.ofTarget, hprojected.ofCaller,
    hprojected.site, hprojected.onlyCall⟩

section

variable (hall : ∀ route ∈ (buildRecordedEffectValueGraph flows plans).routes, routeIsSafe
  (buildRecordedEffectValueGraph flows plans) route = true → Recovered flows plans route)
include hall

theorem projected_along {route : AuthenticatedEffectValueRoute}
    {found : AuthenticatedEffectValueSource}
    (hroute : route ∈ (buildRecordedEffectValueGraph flows plans).routes)
    (hsafe : routeIsSafe (buildRecordedEffectValueGraph flows plans) route = true)
    (horigin : route.origin = .effectSite found)
    (hmatches : found.matchesEffectPlan source.plan.toCallableEffectPlan = true)
    (hcalls : exactCallRoute (buildRecordedEffectValueGraph flows plans) route = some calls)
    (hprojected : Projected source edge calls consumer) :
    Travelled flows plans materialized consumer := by
  unfold Travelled
  rw [hprojected.exactRoute]
  refine .inl ⟨route, hroute, hsafe, ⟨found, horigin, ?_⟩, ?_⟩
  · simpa [AuthenticatedEffectValueSource.matchesEffectPlan, hprojected.sameProvenance] using hmatches
  · intro links chainCalls hchain
    have hrecovered := hall route hroute hsafe links chainCalls hchain
    rw [hcalls] at hrecovered
    exact Option.some.inj hrecovered

/-- When the calls of all safe routes are recovered, each rebuilt plan carries the
calls along which its value travels. -/
theorem rebuild_travelled {before : AuthenticatedMaterializableConsumerPlan Operands →
      AuthenticatedMaterializableConsumerPlan Operands → Bool}
    {effects : List (OperandEffectPlan Operands)}
    {consumers : List (AuthenticatedMaterializableConsumerPlan Operands)}
    (hrebuild : rebuildMaterializableConsumerPlans projectOperands validate
      (materializingGraph flows plans materialized) before effects = .ok consumers)
    (hconsumer : consumer ∈ consumers) : Travelled flows plans materialized consumer := by
  have hedges : (materializingGraph flows plans materialized).callEdges = callEdges plans :=
    build_callEdges
  rcases rebuild_cases hrebuild hconsumer with hdirect | ⟨plan, howned⟩ |
    ⟨source, hsource, route, hroute, hproject⟩ | ⟨source, hsource, edge, hedge, hproject⟩
  · obtain ⟨source, hsource, hsome⟩ := mem_filterMap.mp hdirect
    split at hsome
    · next hroutes =>
        obtain rfl := Option.some.inj hsome
        obtain ⟨⟨route, found⟩, hmem, hsame⟩ := any_eq_true.mp hroutes
        obtain ⟨hroute, hsafe, horigin, -⟩ := mem_matchingSourceRoutes hmem
        rw [decide_eq_true_eq] at hsame
        exact ⟨rfl, route, hroute, hsafe, hsame ▸ horigin⟩
    · simp at hsome
  · unfold graphOwnsSpecializedConsumer at howned
    split at howned
    · simp at howned
    split at howned
    · simp at howned
    split at howned
    · next edge source hedge hsource =>
        split at howned
        · simp at howned
        next calls hcalls =>
        obtain ⟨result, hproject, howned⟩ := Fallible.bind_eq_ok.mp howned
        cases result with
        | none => simp [pure, Except.pure] at howned
        | some projected =>
          have hsame : projected = consumer := by
            simp only [pure, Except.pure, Except.ok.injEq] at howned
            split at howned
            · exact Option.some.inj howned
            · simp at howned
          subst hsame
          have hprojected := project_spec hproject
          have hedge' : edge ∈ callEdges plans := by
            unfold specializedEdge at hedge
            split at hedge
            · next only honly =>
                obtain rfl := Option.some.inj hedge
                exact hedges ▸ (mem_filter.mp (honly ▸ mem_cons_self)).1
            · simp at hedge
          have hsource' : source ∈ materialized := by
            unfold materializedSourceForSpecializedPlan at hsource
            split at hsource
            · next only honly =>
                obtain rfl := Option.some.inj hsource
                exact (mem_filter.mp (honly ▸ mem_cons_self)).1
            · simp at hsource
          rcases specializedCalls_cases hcalls with ⟨route, found, hmem, hrecovered⟩ | hawaits
          · obtain ⟨hroute, hsafe, horigin, hmatches⟩ := mem_matchingSourceRoutes hmem
            exact projected_along hall hroute hsafe horigin hmatches hrecovered hprojected
          · exact projected_comesBack hsource' hawaits hedge' hprojected
    · simp at howned
  · obtain ⟨found, edge, call, hsafe, horigin, hmatches, hcalls, hproject⟩ :=
      fixedPromiseAll_spec hproject
    exact projected_along hall hroute hsafe horigin hmatches hcalls (project_spec hproject)
  · unfold awaitedReturnEdges at hedge
    split at hedge
    · simp at hedge
    next hawaits =>
    rw [Bool.not_eq_true', Bool.not_eq_false] at hawaits
    exact projected_comesBack hsource hawaits (hedges ▸ (mem_filter.mp hedge).1)
      (project_spec hproject)

end

/-- In a complete graph, recovery finds the calls of all safe routes, and so all
consumers carry the calls along which their values travel, exactly when the values
of the safe routes are only passed down. -/
theorem routes_recovered_iff
    (projectOperands : Operands → CallableControlCallPlan → Option Operands)
    (validate : OperandEffectPlan Operands → Except String Unit)
    (before : AuthenticatedMaterializableConsumerPlan Operands →
      AuthenticatedMaterializableConsumerPlan Operands → Bool)
    (flows : List AuthenticatedCallableEffectValueFlow) (plans : List CallableControlPlan)
    (materialized : List (AuthenticatedMaterializedEffectValueSource Operands))
    (effects : List (OperandEffectPlan Operands))
    (hcomplete : (buildRecordedEffectValueGraph flows plans).incomplete = false) :
    ((∀ route ∈ (buildRecordedEffectValueGraph flows plans).routes,
        routeIsSafe (buildRecordedEffectValueGraph flows plans) route = true →
          (∃ links calls, CallChain flows plans (baseRoutes flows) links route calls) ∧
            Recovered flows plans route) ∧
      ∀ consumers, rebuildMaterializableConsumerPlans projectOperands validate
          (materializingGraph flows plans materialized) before effects = .ok consumers →
        ∀ consumer ∈ consumers, Travelled flows plans materialized consumer) ↔
      ∀ route ∈ (buildRecordedEffectValueGraph flows plans).routes,
        routeIsSafe (buildRecordedEffectValueGraph flows plans) route = true →
          OnlyPassedDown flows plans route := by
  constructor
  · intro h route hroute hsafe
    exact (recovered_iff route).mp (h.1 route hroute hsafe).2
  · intro hdown
    have hall : ∀ route ∈ (buildRecordedEffectValueGraph flows plans).routes,
        routeIsSafe (buildRecordedEffectValueGraph flows plans) route = true →
          Recovered flows plans route :=
      fun route hroute hsafe => (recovered_iff route).mpr (hdown route hroute hsafe)
    refine ⟨fun route hroute hsafe => ⟨?_, hall route hroute hsafe⟩,
      fun consumers hrebuild consumer hconsumer => rebuild_travelled hall hrebuild hconsumer⟩
    obtain ⟨links, hchain⟩ := (mem_routes_iff hcomplete).mp hroute
    exact ⟨links, exists_callChain hchain⟩

end Exactness

section Samples

def isReturn (sink : AuthenticatedEffectValueSink) : Bool :=
  match sink with
  | .return _ _ => true
  | .await _ _ => false
  | .callArgument _ _ _ _ _ => false

/-- Where no path ends in a return and the sources of all calls are recorded, values
are only passed down. -/
theorem onlyPassedDown_of_no_return (hsinks : ∀ link ∈ baseRoutes flows, isReturn link.sink = false)
    (hrecorded : ∀ planned ∈ plannedCalls plans,
      callIsRecorded (buildRecordedEffectValueGraph flows plans) planned.1 planned.2.target
        planned.2 = true) (route : AuthenticatedEffectValueRoute) :
    OnlyPassedDown flows plans route := by
  have hall : ∀ links route calls, CallChain flows plans (baseRoutes flows) links route calls →
      isReturn route.sink = false ∧
        PassedDown (buildRecordedEffectValueGraph flows plans) links calls := by
    intro links route calls hchain
    induction hchain with
    | single hroute => exact ⟨hsinks _ hroute, by simp, by simp⟩
    | @extend links route next calls caller call hbefore hnext hcall hplain ih =>
      obtain ⟨hsink, hdown⟩ := ih
      have hargument : isArgument route.sink = true := by
        cases hroute : route.sink with
        | await _ _ => simp [connectingCall, hroute] at hcall
        | «return» site value => simp [isReturn, hroute] at hsink
        | callArgument _ _ _ _ _ => rfl
      have hplanned : (caller, call) ∈ plannedCalls plans := by
        rcases connectingCall_cases hcall with ⟨-, -, -, _, hexact⟩ | ⟨-, -, -, _, hexact⟩
        · exact (exactCallAt_mem hexact).1
        · exact (exactCallAt_mem hexact).1
      obtain ⟨last, hlast, hlastSink, -⟩ := hbefore.sink
      refine ⟨hsinks next hnext, ?_, ?_⟩
      · intro link hlink
        rw [dropLast_concat, ← dropLast_append_getLast? last hlast,
          mem_append, mem_singleton] at hlink
        rcases hlink with hlink | rfl
        · exact hdown.arguments link hlink
        · exact hlastSink ▸ hargument
      · intro joined hjoined
        rcases mem_append.mp hjoined with hold | hlast
        · exact hdown.recorded joined hold
        · exact mem_singleton.mp hlast ▸ hrecorded _ hplanned
  exact fun links calls hchain => (hall links route calls hchain).2

/-- An effect of a callable. -/
def sampleEffect (unitId : String) : AuthenticatedEffectValueSource where
  targetCallable := sampleCallable unitId
  targetCallableSource := sampleAnchor 0 100
  targetEffect := sampleAnchor 20 25
  targetCallee := sampleAnchor 20 23
  capabilityReference := sampleAnchor 20 21
  capabilityBinding := sampleAnchor 1 2
  capabilityName := "ctx"

def passingFlow : AuthenticatedCallableEffectValueFlow :=
  sampleFlow "handler" true [⟨.effectSite (sampleEffect "handler"), [],
    .callArgument (sampleAnchor 50 55) "load" (sampleAnchor 50 54) 0 (sampleAnchor 20 25)⟩]

def awaitingFlow : AuthenticatedCallableEffectValueFlow :=
  { sampleFlow "helper" false [⟨.parameter 0 "value" (sampleAnchor 2 3) (sampleAnchor 10 15), [],
      .await (sampleAnchor 9 16) (sampleAnchor 10 15)⟩] with parameterCount := 1 }

/-- The handler passes its effect to a helper, which awaits it. -/
def passedFlows : List AuthenticatedCallableEffectValueFlow := [passingFlow, awaitingFlow]

/-- The routes of two callables, joined by the call of the handler. -/
def joinedRoute (first second : AuthenticatedCallableEffectValueFlow) (firstId secondId : ℕ) :
    Option AuthenticatedEffectValueRoute :=
  match first.paths, second.paths with
  | [path], [next] => some (joinRoutes (numberRoute (localRoute first path) firstId)
      (numberRoute (localRoute second next) secondId) (sampleAnchor 50 55))
  | _, _ => none

theorem calls_not_recursive :
    ¬IsRecursiveCall samplePlans (sampleCallable "handler") (sampleCall 50 "helper") := by
  unfold IsRecursiveCall
  decide

theorem routes_recovered_passed :
    ∃ route, joinedRoute passingFlow awaitingFlow 0 1 = some route ∧
      exactCallRoute (buildRecordedEffectValueGraph passedFlows samplePlans) route =
        some [sampleCall 50 "helper"] := by
  have hrecovered := (routes_recovered_iff (fun (_ : Unit) _ => none)
    (fun _ => .ok ()) (fun _ _ => true) passedFlows samplePlans [] []
    (by decide)).mpr fun route _ _ => onlyPassedDown_of_no_return (by decide) (by decide) route
  exact ⟨_, rfl, (hrecovered.1 _ (by decide) (by decide)).2 _ _
    ((CallChain.single (by decide)).extend (by decide) (by decide) calls_not_recursive)⟩

def returningFlow : AuthenticatedCallableEffectValueFlow :=
  sampleFlow "helper" false [⟨.effectSite (sampleEffect "helper"), [],
    .return (sampleAnchor 9 26) (sampleAnchor 20 25)⟩]

def receivingFlow : AuthenticatedCallableEffectValueFlow :=
  sampleFlow "handler" true [samplePath 50 (.await (sampleAnchor 49 56) (sampleAnchor 50 55))]

/-- A helper returns its effect to the handler, which awaits the result of the call. -/
def returnedFlows : List AuthenticatedCallableEffectValueFlow := [returningFlow, receivingFlow]

/-- The effect comes back through one exact call, but no call is recovered: recovery
looks for it in the helper. -/
theorem returned_route_lost :
    (buildRecordedEffectValueGraph returnedFlows samplePlans).incomplete = false ∧
      ∃ route links, joinedRoute returningFlow receivingFlow 1 0 = some route ∧
        route ∈ (buildRecordedEffectValueGraph returnedFlows samplePlans).routes ∧
        routeIsSafe (buildRecordedEffectValueGraph returnedFlows samplePlans) route = true ∧
        CallChain returnedFlows samplePlans (baseRoutes returnedFlows) links route
          [(sampleCallable "handler", sampleCall 50 "helper")] ∧
        exactCallRoute (buildRecordedEffectValueGraph returnedFlows samplePlans) route = none :=
  ⟨by decide, _, _, rfl, by decide, by decide,
    (CallChain.single (by decide)).extend (by decide) (by decide) calls_not_recursive, by decide⟩

end Samples

end ConvexWasm.Compiler.EffectValueGraph
