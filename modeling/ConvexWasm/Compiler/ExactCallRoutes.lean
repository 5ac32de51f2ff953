import ConvexWasm.Compiler.EffectValueClosure

/-!
# Recovering the calls of a route

A route of effect values lists the callsites at which local routes were joined,
in the order in which the value flows.  Recovery follows them as calls from the
callable where the value starts, looking for the one exact call at each place.
A value that is returned flows from the target of a call to its caller, against
the direction in which recovery goes.
-/

namespace ConvexWasm.Compiler.EffectValueGraph

open ControlPlans List

/-- The sources and skeletons that the graph keeps of the control plans. -/
structure RecordedEffectValueGraph extends AuthenticatedEffectValueGraph where
  controlSkeletons : KeyedMap CallableKey CallableControlSkeletonCandidate
  controlSources : KeyedMap CallableKey SourceAnchor

def buildRecordedEffectValueGraph (flows : List AuthenticatedCallableEffectValueFlow)
    (plans : List CallableControlPlan) : RecordedEffectValueGraph :=
  { buildAuthenticatedEffectValueGraph flows plans with
    controlSkeletons := (plans.foldl recordPlan .empty).controlSkeletons
    controlSources := (plans.foldl recordPlan .empty).controlSources }

def sourceAnchorContains (container contained : SourceAnchor) : Bool :=
  decide (container.module = contained.module) &&
    decide (container.sourceSha256 = contained.sourceSha256) &&
    decide (container.start ≤ contained.start) && decide (contained.stop ≤ container.stop)

section Recovery

variable (graph : RecordedEffectValueGraph)

def routeIsSafe (route : AuthenticatedEffectValueRoute) : Bool :=
  !route.blocked &&
    !route.callablePath.any fun callable => decide (callable ∈ graph.recursiveCallables)

/-- The recorded sources agree with the call. -/
def callIsRecorded (caller target : CallableKey) (call : CallableControlCallPlan) : Bool :=
  ((graph.controlSources.get? caller).any fun source =>
    sourceAnchorContains source call.callsite) &&
    decide (graph.controlSources.get? target = some call.targetSource)

def exactEdges (caller : CallableKey) (callsite : SourceAnchor) :
    List AuthenticatedEffectValueCallEdge :=
  graph.callEdges.filter fun edge =>
    edge.composable && !edge.recursive && decide (edge.caller = caller) &&
      decide (edge.callsite = callsite) && decide (edge.callsite = edge.control.callsite) &&
      decide (edge.target = edge.control.target) && edge.control.dispatchExact &&
      edge.control.argumentsSafe && callIsRecorded graph edge.caller edge.target edge.control

/-- One turn of the loop of `exact_call_route`. -/
def recoverCall (recovered : CallableKey × List CallableControlCallPlan)
    (callsite : SourceAnchor) : Option (CallableKey × List CallableControlCallPlan) :=
  match exactEdges graph recovered.1 callsite with
  | [edge] => some (edge.target, recovered.2 ++ [edge.control])
  | _ => none

def exactCallRoute (route : AuthenticatedEffectValueRoute) :
    Option (List CallableControlCallPlan) :=
  (route.callsites.foldlM (recoverCall graph) (route.originCallable, [])).bind fun recovered =>
    if recovered.1 = route.sinkCallable then some recovered.2 else none

end Recovery

variable {links : List AuthenticatedEffectValueRoute} {route : AuthenticatedEffectValueRoute}
  {calls : List (CallableKey × CallableControlCallPlan)}

section Travel

variable (flows : List AuthenticatedCallableEffectValueFlow) (plans : List CallableControlPlan)
  (base : List AuthenticatedEffectValueRoute)

/-- A route composed of local routes, with the calls that join them. -/
inductive CallChain : List AuthenticatedEffectValueRoute → AuthenticatedEffectValueRoute →
    List (CallableKey × CallableControlCallPlan) → Prop
  | single {route : AuthenticatedEffectValueRoute} : route ∈ base → CallChain [route] route []
  | extend {links : List AuthenticatedEffectValueRoute}
      {route next : AuthenticatedEffectValueRoute}
      {calls : List (CallableKey × CallableControlCallPlan)} {caller : CallableKey}
      {call : CallableControlCallPlan} :
      CallChain links route calls → next ∈ base →
      connectingCall flows plans route next = some (caller, call) →
      ¬IsRecursiveCall plans caller call →
        CallChain (links ++ [next]) (joinRoutes route next call.callsite)
          (calls ++ [(caller, call)])

variable {flows plans base}

theorem exists_callChain (hchain : Chain flows plans base links route) :
    ∃ calls, CallChain flows plans base links route calls := by
  induction hchain with
  | single hroute => exact ⟨[], .single hroute⟩
  | extend _ hnext hjoins ih =>
    obtain ⟨calls, hcalls⟩ := ih
    obtain ⟨caller, call, hcall, rfl, hplain⟩ := hjoins
    exact ⟨_, hcalls.extend hnext hcall hplain⟩

/-- The value leaves the chain where its last local route ends. -/
theorem CallChain.sink (hchain : CallChain flows plans base links route calls) :
    ∃ last, links.getLast? = some last ∧ last.sink = route.sink ∧
      last.sinkCallable = route.sinkCallable := by
  cases hchain with
  | single _ => exact ⟨route, rfl, rfl, rfl⟩
  | extend _ _ _ _ => exact ⟨_, List.getLast?_concat .., rfl, rfl⟩

def isArgument (sink : AuthenticatedEffectValueSink) : Bool :=
  match sink with
  | .callArgument _ _ _ _ _ => true
  | .await _ _ => false
  | .return _ _ => false

/-- The two ways in which a call joins routes. -/
theorem connectingCall_cases {first second : AuthenticatedEffectValueRoute}
    {caller : CallableKey} {call : CallableControlCallPlan}
    (hcall : connectingCall flows plans first second = some (caller, call)) :
    (isArgument first.sink = true ∧ caller = first.sinkCallable ∧
        call.target = second.originCallable ∧
        ∃ callsite, exactCallAt plans caller callsite = some call) ∨
      (isArgument first.sink = false ∧ caller = second.originCallable ∧
        call.target = first.sinkCallable ∧
        ∃ callsite, exactCallAt plans caller callsite = some call) := by
  unfold connectingCall at hcall
  split at hcall
  · next callsite _ _ _ _ _ _ _ _ hsink _ =>
      left
      split at hcall
      · obtain ⟨found, hfound, hcall⟩ := Option.bind_eq_some_iff.mp hcall
        split at hcall
        · next htarget =>
            obtain ⟨rfl, rfl⟩ : first.sinkCallable = caller ∧ found = call := by simpa using hcall
            exact ⟨by rw [hsink]; rfl, rfl, htarget.1, callsite, hfound⟩
        · simp at hcall
      · simp at hcall
  · next callsite _ _ hsink _ =>
      right
      obtain ⟨found, hfound, hcall⟩ := Option.bind_eq_some_iff.mp hcall
      split at hcall
      · next htarget =>
          obtain ⟨rfl, rfl⟩ : second.originCallable = caller ∧ found = call := by
            simpa using hcall
          exact ⟨by rw [hsink]; rfl, rfl, htarget, callsite, hfound⟩
      · simp at hcall
  · simp at hcall

end Travel

variable {flows : List AuthenticatedCallableEffectValueFlow} {plans : List CallableControlPlan}

section Edges

variable {caller : CallableKey} {call : CallableControlCallPlan}

/-- Exactly the planned calls are edges. -/
theorem callEdges_perm : (callEdges plans).Perm ((plannedCalls plans).map fun planned =>
    ⟨planned.1, planned.2.callsite, planned.2.target, planned.2,
      decide ((callsAt plans planned.1 planned.2.callsite).length = 1) &&
        planned.2.dispatchExact && planned.2.argumentsSafe,
      decide (planned.1 = planned.2.target) ||
        reaches (plainCallEdges plans) planned.2.target planned.1⟩) := by
  have hperm := (perm_insertionSort (fun edge other : AuthenticatedEffectValueCallEdge =>
    callEdgeKey edge ≤ callEdgeKey other) ((plannedCalls plans).map fun planned =>
      { caller := planned.1
        callsite := planned.2.callsite
        target := planned.2.target
        control := planned.2
        composable := decide ((callsAt plans planned.1 planned.2.callsite).length = 1) &&
          planned.2.dispatchExact && planned.2.argumentsSafe
        recursive := false : AuthenticatedEffectValueCallEdge })).map fun edge =>
    { edge with
      recursive := decide (edge.caller = edge.target) ||
        reaches (plainCallEdges plans) edge.target edge.caller }
  rw [map_map] at hperm
  exact hperm

/-- An exact call is found at its place when it is not recursive and recorded. -/
theorem exactEdges_of_exact {callsite : SourceAnchor}
    (hexact : exactCallAt plans caller callsite = some call)
    (hplain : ¬IsRecursiveCall plans caller call)
    (hrecorded : callIsRecorded (buildRecordedEffectValueGraph flows plans) caller call.target
      call = true) :
    ∃ edge, exactEdges (buildRecordedEffectValueGraph flows plans) caller call.callsite = [edge] ∧
      edge.control = call ∧ edge.target = call.target := by
  obtain ⟨hplanned, hplace⟩ := exactCallAt_mem hexact
  obtain ⟨hcalls, hdispatch, harguments⟩ := exactCallAt_eq_some_iff.mp hexact
  have hsame : ∀ anchor : SourceAnchor, anchor.SamePlace call.callsite ↔
      anchor.SamePlace callsite := by
    intro anchor
    unfold SourceAnchor.SamePlace at hplace ⊢
    rw [hplace.1, hplace.2.1, hplace.2.2]
  have hat : callsAt plans caller call.callsite = [(caller, call)] := by
    rw [← hcalls]
    apply filter_congr
    intro planned _
    simp only [hsame]
  have hedges : (buildRecordedEffectValueGraph flows plans).callEdges = callEdges plans :=
    build_callEdges
  let edge : AuthenticatedEffectValueCallEdge :=
    ⟨caller, call.callsite, call.target, call,
      decide ((callsAt plans caller call.callsite).length = 1) && call.dispatchExact &&
        call.argumentsSafe,
      decide (caller = call.target) || reaches (plainCallEdges plans) call.target caller⟩
  have hmem : edge ∈ callEdges plans := mem_callEdges.mpr ⟨caller, call, hplanned, rfl⟩
  have hrecursive : edge.recursive = false := by
    by_contra hrecursive
    exact hplain ⟨edge, hmem, by simpa using hrecursive, rfl, rfl, rfl⟩
  have hfound : edge ∈ exactEdges (buildRecordedEffectValueGraph flows plans) caller
      call.callsite := by
    rw [exactEdges, hedges, mem_filter]
    refine ⟨hmem, ?_⟩
    have hplain' : ¬caller = call.target ∧
        reaches (plainCallEdges plans) call.target caller = false := by
      simpa [edge] using hrecursive
    simp [edge, hat, hdispatch, harguments, hrecorded, hplain']
  have hshort : (exactEdges (buildRecordedEffectValueGraph flows plans) caller
      call.callsite).length ≤ 1 := by
    rw [exactEdges, hedges, (callEdges_perm.filter _).length_eq, filter_map, length_map]
    calc _ ≤ (callsAt plans caller call.callsite).length := by
          rw [callsAt, ← countP_eq_length_filter, ← countP_eq_length_filter]
          apply countP_mono_left
          intro planned _ hmatches
          simp only [Function.comp_apply, Bool.and_eq_true, decide_eq_true_eq] at hmatches
          obtain ⟨⟨⟨⟨⟨⟨⟨-, hcaller⟩, hcallsite⟩, -⟩, -⟩, -⟩, -⟩, -⟩ := hmatches
          simp [hcaller, hcallsite, SourceAnchor.SamePlace]
      _ = 1 := by rw [hat]; rfl
  obtain ⟨only, honly⟩ := length_eq_one_iff.mp (le_antisymm hshort (length_pos_of_mem hfound))
  rw [honly, mem_singleton] at hfound
  exact ⟨only, honly, by rw [← hfound], by rw [← hfound]⟩

/-- What a recovered edge is. -/
theorem exactEdges_spec {graph : RecordedEffectValueGraph}
    {edge : AuthenticatedEffectValueCallEdge} {callsite : SourceAnchor}
    (hedge : edge ∈ exactEdges graph caller callsite) :
    edge ∈ graph.callEdges ∧ edge.recursive = false ∧ edge.caller = caller ∧
      edge.callsite = callsite ∧ edge.target = edge.control.target ∧
      callIsRecorded graph caller edge.target edge.control = true := by
  rw [exactEdges, mem_filter] at hedge
  simp only [Bool.and_eq_true, Bool.not_eq_true', decide_eq_true_eq] at hedge
  obtain ⟨hmem, ⟨⟨⟨⟨⟨⟨⟨-, hplain⟩, hcaller⟩, hcallsite⟩, -⟩, htarget⟩, -⟩, -⟩, hrecorded⟩ := hedge
  exact ⟨hmem, hplain, hcaller, hcallsite, htarget, hcaller ▸ hrecorded⟩

/-- No edge that is not recursive leads from a callable to itself. -/
theorem edge_not_loop {edge : AuthenticatedEffectValueCallEdge}
    (hedge : edge ∈ callEdges plans) (hplain : edge.recursive = false) :
    edge.caller ≠ edge.target := by
  obtain ⟨caller, call, -, rfl⟩ := mem_callEdges.mp hedge
  intro heq
  simp only [Bool.or_eq_false_iff, decide_eq_false_iff_not] at hplain
  exact hplain.1 heq

end Edges

section Recovered

/-- The value is only passed down, as an argument of calls whose sources are recorded. -/
structure PassedDown (graph : RecordedEffectValueGraph) (links : List AuthenticatedEffectValueRoute)
    (calls : List (CallableKey × CallableControlCallPlan)) : Prop where
  arguments : ∀ link ∈ links.dropLast, isArgument link.sink = true
  recorded : ∀ joined ∈ calls, callIsRecorded graph joined.1 joined.2.target joined.2 = true

theorem baseRoute_local (hroute : route ∈ baseRoutes flows) :
    route.originCallable = route.sinkCallable ∧ route.callsites = [] := by
  obtain ⟨flow, -, path, -, id, -, rfl⟩ := mem_baseRoutes hroute
  exact ⟨rfl, rfl⟩

variable (hchain : CallChain flows plans (baseRoutes flows) links route calls)
include hchain

/-- Recovery along a route that is passed down comes to its last callable. -/
theorem recover_of_passedDown
    (hdown : PassedDown (buildRecordedEffectValueGraph flows plans) links calls) :
    route.callsites.foldlM (recoverCall (buildRecordedEffectValueGraph flows plans))
        (route.originCallable, []) = some (route.sinkCallable, calls.map (·.2)) := by
  induction hchain with
  | single hroute =>
    obtain ⟨hsame, hnone⟩ := baseRoute_local hroute
    rw [hnone, hsame]
    rfl
  | @extend links route next calls caller call hbefore hnext hcall hplain ih =>
    obtain ⟨harguments, hrecorded⟩ := hdown
    rw [dropLast_concat] at harguments
    have hinner := ih ⟨fun link hlink => harguments link (mem_of_mem_dropLast hlink),
      fun joined hjoined => hrecorded joined (mem_append_left _ hjoined)⟩
    obtain ⟨last, hlast, hsink, -⟩ := hbefore.sink
    have hargument : isArgument route.sink = true := hsink ▸ harguments last (mem_of_getLast? hlast)
    obtain ⟨hsame, hnone⟩ := baseRoute_local hnext
    rcases connectingCall_cases hcall with ⟨-, rfl, htarget, callsite, hexact⟩ | ⟨hreturn, -⟩
    · obtain ⟨edge, hedge, hcontrol, hedgeTarget⟩ :=
        exactEdges_of_exact hexact hplain (hrecorded (route.sinkCallable, call) (by simp))
      have hsites : (joinRoutes route next call.callsite).callsites =
          route.callsites ++ [call.callsite] := by
        simp [joinRoutes, hnone]
      have horigin : (joinRoutes route next call.callsite).originCallable =
          route.originCallable := rfl
      rw [hsites, foldlM_append, horigin, hinner]
      have hsink : (joinRoutes route next call.callsite).sinkCallable = edge.target := by
        rw [hedgeTarget, htarget, hsame]
        rfl
      rw [hsink, map_append]
      simp [recoverCall, hedge, hcontrol]
    · rw [hargument] at hreturn
      simp at hreturn

/-- A route whose own calls are recovered is passed down. -/
theorem passedDown_of_recover {reached : CallableKey}
    (hrecover : route.callsites.foldlM (recoverCall (buildRecordedEffectValueGraph flows plans))
      (route.originCallable, []) = some (reached, calls.map (·.2))) :
    reached = route.sinkCallable ∧
      PassedDown (buildRecordedEffectValueGraph flows plans) links calls := by
  induction hchain generalizing reached with
  | @single route hroute =>
    obtain ⟨hsame, hnone⟩ := baseRoute_local hroute
    rw [hnone] at hrecover
    have hreached : route.originCallable = reached := by simpa using hrecover
    exact ⟨by rw [← hreached, hsame], by simp, by simp⟩
  | @extend links route next calls caller call hbefore hnext hcall hplain ih =>
    obtain ⟨hsame, hnone⟩ := baseRoute_local hnext
    have hsites : (joinRoutes route next call.callsite).callsites =
        route.callsites ++ [call.callsite] := by
      simp [joinRoutes, hnone]
    rw [hsites, foldlM_append] at hrecover
    obtain ⟨⟨middle, found⟩, hinner, hrecover⟩ := Option.bind_eq_some_iff.mp hrecover
    obtain ⟨last, hstep, hrecover⟩ := Option.bind_eq_some_iff.mp hrecover
    obtain rfl := Option.some.inj hrecover
    unfold recoverCall at hstep
    split at hstep
    · next edge hedges =>
        obtain ⟨rfl, hcalls⟩ : edge.target = reached ∧
            found ++ [edge.control] = calls.map (·.2) ++ [call] := by
          simpa using hstep
        obtain ⟨rfl, hcontrol⟩ := append_inj' hcalls rfl
        obtain rfl : edge.control = call := by simpa using hcontrol
        obtain ⟨rfl, harguments, hrecorded⟩ := ih hinner
        obtain ⟨hmem, hopen, hcaller, -, htarget, hknown⟩ :=
          exactEdges_spec (by rw [hedges]; exact mem_cons_self)
        have hmem' : edge ∈ callEdges plans := by
          have hbuilt : (buildRecordedEffectValueGraph flows plans).callEdges =
              callEdges plans := build_callEdges
          exact hbuilt ▸ hmem
        rcases connectingCall_cases hcall with
          ⟨hargument, rfl, hnextTarget, -⟩ | ⟨-, -, hreturned, -⟩
        · refine ⟨by rw [htarget, hnextTarget, hsame]; rfl, ?_, ?_⟩
          · intro link hlink
            rw [dropLast_concat] at hlink
            obtain ⟨final, hfinal, hsink, -⟩ := hbefore.sink
            obtain ⟨front, rfl⟩ := List.getLast?_eq_some_iff.mp hfinal
            rw [dropLast_concat] at harguments
            cases mem_append.mp hlink with
            | inl hfront => exact harguments link hfront
            | inr hlast =>
              rw [mem_singleton.mp hlast, hsink]
              exact hargument
          · intro joined hjoined
            cases mem_append.mp hjoined with
            | inl hold => exact hrecorded joined hold
            | inr hnew =>
              rw [mem_singleton.mp hnew]
              exact htarget ▸ hknown
        · exact absurd (by rw [hcaller, htarget, hreturned]) (edge_not_loop hmem' hopen)
    · simp at hstep

/-- The calls of a route are recovered exactly when its value is only passed down. -/
theorem exactCallRoute_eq_calls_iff :
    exactCallRoute (buildRecordedEffectValueGraph flows plans) route = some (calls.map (·.2)) ↔
      PassedDown (buildRecordedEffectValueGraph flows plans) links calls := by
  constructor
  · intro hroute
    obtain ⟨⟨reached, found⟩, hrecover, hroute⟩ := Option.bind_eq_some_iff.mp hroute
    split at hroute
    · obtain rfl := Option.some.inj hroute
      exact (passedDown_of_recover hchain hrecover).2
    · simp at hroute
  · intro hdown
    rw [exactCallRoute, recover_of_passedDown hchain hdown]
    simp

end Recovered

end ConvexWasm.Compiler.EffectValueGraph
