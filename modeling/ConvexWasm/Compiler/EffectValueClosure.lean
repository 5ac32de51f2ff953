import ConvexWasm.Compiler.EffectValueChains

/-!
# Closed call results

The value of a call propagates along local paths: an argument enters the
parameter of the exact target, a return enters the result of every call of its
callable.  When the complete graph closes the call, every propagation can go
on until it ends in an await or in the return of a handler.
-/

namespace ConvexWasm.Compiler.EffectValueGraph

open BoundedClosure ControlPlans List

variable {flows : List AuthenticatedCallableEffectValueFlow} {route : AuthenticatedEffectValueRoute}

theorem mem_destutter_ne {α : Type*} [DecidableEq α] {value : α} {values : List α} :
    value ∈ values.destutter (· ≠ ·) ↔ value ∈ values := by
  refine ⟨fun hmem => (destutter_sublist _ values).subset hmem, fun hmem => ?_⟩
  cases values with
  | nil => exact hmem
  | cons head rest =>
    rw [destutter_cons']
    induction rest generalizing head with
    | nil => simpa using hmem
    | cons next rest ih =>
      rw [List.destutter'_cons]
      by_cases hsame : head = next
      · subst hsame
        rw [if_neg (by simp)]
        exact ih head (by simpa using hmem)
      · rw [if_pos hsame]
        rcases mem_cons.mp hmem with rfl | hmem
        · exact mem_cons_self
        · exact mem_cons_of_mem _ (ih next hmem)

theorem mem_localRoutes :
    route ∈ localRoutes flows ↔
      ∃ flow ∈ flows, ∃ path ∈ flow.paths, localRoute flow path = route := by
  rw [localRoutes, mem_destutter_ne, mem_insertionSort, mem_flatMap]
  simp

theorem mem_numberRoutes {routes : List AuthenticatedEffectValueRoute} :
    route ∈ numberRoutes routes ↔
      ∃ id plain, routes[id]? = some plain ∧ numberRoute plain id = route := by
  simp only [numberRoutes, mem_map, Prod.exists]
  constructor
  · intro h
    obtain ⟨plain, id, hmem, hroute⟩ := h
    exact ⟨id, plain, mem_zipIdx_iff_getElem?.mp hmem, hroute⟩
  · intro h
    obtain ⟨id, plain, hat, hroute⟩ := h
    exact ⟨plain, id, mem_zipIdx_iff_getElem?.mpr hat, hroute⟩

/-- The numbered local routes of all flows. -/
def baseRoutes (flows : List AuthenticatedCallableEffectValueFlow) :
    List AuthenticatedEffectValueRoute :=
  numberRoutes (localRoutes flows)

theorem mem_baseRoutes (hroute : route ∈ baseRoutes flows) :
    ∃ flow ∈ flows, ∃ path ∈ flow.paths, ∃ id,
      (localRoutes flows)[id]? = some (localRoute flow path) ∧
        route = numberRoute (localRoute flow path) id := by
  obtain ⟨id, plain, hat, rfl⟩ := mem_numberRoutes.mp hroute
  obtain ⟨flow, hflow, path, hpath, rfl⟩ := mem_localRoutes.mp (mem_of_getElem? hat)
  exact ⟨flow, hflow, path, hpath, id, hat, rfl⟩

theorem exists_baseRoute {flow : AuthenticatedCallableEffectValueFlow}
    {path : AuthenticatedEffectValuePath} (hflow : flow ∈ flows) (hpath : path ∈ flow.paths) :
    ∃ id, numberRoute (localRoute flow path) id ∈ baseRoutes flows := by
  have hmem : localRoute flow path ∈ localRoutes flows :=
    mem_localRoutes.mpr ⟨flow, hflow, path, hpath, rfl⟩
  obtain ⟨id, hat⟩ := mem_iff_getElem?.mp hmem
  exact ⟨id, mem_numberRoutes.mpr ⟨id, _, hat, rfl⟩⟩

theorem numbered_baseRoutes (flows : List AuthenticatedCallableEffectValueFlow) :
    Numbered (baseRoutes flows) := by
  refine ⟨?_, ?_, ?_, ?_⟩
  · intro route hroute
    obtain ⟨flow, -, path, -, id, -, rfl⟩ := mem_baseRoutes hroute
    rfl
  · intro route hroute
    obtain ⟨flow, -, path, -, id, -, rfl⟩ := mem_baseRoutes hroute
    rfl
  · intro route hroute
    obtain ⟨flow, -, path, -, id, -, rfl⟩ := mem_baseRoutes hroute
    exact ⟨id, rfl⟩
  · intro route hroute other hother hids
    obtain ⟨flow, -, path, -, id, hat, rfl⟩ := mem_baseRoutes hroute
    obtain ⟨flow', -, path', -, id', hat', rfl⟩ := mem_baseRoutes hother
    obtain rfl : id = id' := by simpa [numberRoute] using hids
    rw [hat] at hat'
    rw [Option.some.inj hat']

theorem baseRoutes_nodup (flows : List AuthenticatedCallableEffectValueFlow) :
    (baseRoutes flows).Nodup := by
  have hids : ((baseRoutes flows).map (·.basePathIds)).Nodup := by
    have hmap : (baseRoutes flows).map (·.basePathIds) =
        (List.range' 0 (localRoutes flows).length).map fun id => [id] := by
      rw [← zipIdx_map_snd 0 (localRoutes flows), map_map, baseRoutes, numberRoutes, map_map]
      rfl
    rw [hmap]
    exact List.Nodup.map singleton_injective nodup_range'
  exact hids.of_map _

variable {plans : List CallableControlPlan}

/-- One callable calls another, exactly or not. -/
def CallsInto (plans : List CallableControlPlan) (caller target : CallableKey) : Prop :=
  ∃ call, (caller, call) ∈ plannedCalls plans ∧ call.target = target

def RecursiveCallable (plans : List CallableControlPlan) (callable : CallableKey) : Prop :=
  Relation.TransGen (CallsInto plans) callable callable

variable {edge : AuthenticatedEffectValueCallEdge}

theorem mem_plainCallEdges :
    edge ∈ plainCallEdges plans ↔ ∃ caller call, (caller, call) ∈ plannedCalls plans ∧
      edge = ⟨caller, call.callsite, call.target, call,
        decide ((callsAt plans caller call.callsite).length = 1) && call.dispatchExact &&
          call.argumentsSafe, false⟩ := by
  rw [plainCallEdges, mem_insertionSort, mem_map]
  constructor
  · intro h
    obtain ⟨⟨caller, call⟩, hplanned, rfl⟩ := h
    exact ⟨caller, call, hplanned, rfl⟩
  · intro h
    obtain ⟨caller, call, hplanned, rfl⟩ := h
    exact ⟨(caller, call), hplanned, rfl⟩

theorem mem_adjacency {caller target : CallableKey} :
    target ∈ adjacency (plainCallEdges plans) caller ↔ CallsInto plans caller target := by
  simp only [adjacency, mem_map, mem_filter, decide_eq_true_eq]
  constructor
  · intro h
    obtain ⟨edge, ⟨hedge, rfl⟩, rfl⟩ := h
    obtain ⟨caller, call, hplanned, rfl⟩ := mem_plainCallEdges.mp hedge
    exact ⟨call, hplanned, rfl⟩
  · intro h
    obtain ⟨call, hplanned, rfl⟩ := h
    exact ⟨_, ⟨mem_plainCallEdges.mpr ⟨caller, call, hplanned, rfl⟩, rfl⟩, rfl⟩

theorem edge_adjacency : DepthFirst.Edge (adjacency (plainCallEdges plans)) = CallsInto plans := by
  funext caller target
  exact propext mem_adjacency

/-- The search of the source decides whether calls lead from one callable to another. -/
theorem reaches_iff {current target : CallableKey} :
    reaches (plainCallEdges plans) current target = true ↔
      Relation.TransGen (CallsInto plans) current target := by
  have hclosed : ∀ node, ∀ next ∈ adjacency (plainCallEdges plans) node,
      next ∈ ((plainCallEdges plans).map (·.target)).toFinset := by
    intro node next hnext
    obtain ⟨edge, hedge, rfl⟩ := mem_map.mp hnext
    exact mem_toFinset.mpr (mem_map_of_mem (mem_filter.mp hedge).1)
  have hfuel : ((plainCallEdges plans).map (·.target)).toFinset.card <
      (plainCallEdges plans).length + 1 := by
    have := toFinset_card_le ((plainCallEdges plans).map (·.target))
    rw [length_map] at this
    omega
  rw [reaches, DepthFirst.search_iff hclosed hfuel, edge_adjacency]

theorem mem_callEdges :
    edge ∈ callEdges plans ↔ ∃ caller call, (caller, call) ∈ plannedCalls plans ∧
      edge = ⟨caller, call.callsite, call.target, call,
        decide ((callsAt plans caller call.callsite).length = 1) && call.dispatchExact &&
          call.argumentsSafe,
        decide (caller = call.target) || reaches (plainCallEdges plans) call.target caller⟩ := by
  rw [callEdges, markRecursive, mem_map]
  constructor
  · intro h
    obtain ⟨plain, hplain, rfl⟩ := h
    obtain ⟨caller, call, hplanned, rfl⟩ := mem_plainCallEdges.mp hplain
    exact ⟨caller, call, hplanned, rfl⟩
  · intro h
    obtain ⟨caller, call, hplanned, rfl⟩ := h
    exact ⟨_, mem_plainCallEdges.mpr ⟨caller, call, hplanned, rfl⟩, rfl⟩

/-- The callables of recursive edges are those that calls lead back to. -/
theorem mem_recursiveCallables {callable : CallableKey} :
    callable ∈ recursiveCallables (callEdges plans) ↔ RecursiveCallable plans callable := by
  simp only [recursiveCallables, mem_flatMap, mem_filter]
  constructor
  · intro h
    obtain ⟨edge, ⟨hedge, hrecursive⟩, hends⟩ := h
    obtain ⟨caller, call, hplanned, rfl⟩ := mem_callEdges.mp hedge
    simp only [Bool.or_eq_true, decide_eq_true_eq, reaches_iff] at hrecursive
    have hstep : CallsInto plans caller call.target := ⟨call, hplanned, rfl⟩
    have hback : Relation.ReflTransGen (CallsInto plans) call.target caller := by
      rcases hrecursive with rfl | hpath
      · exact Relation.ReflTransGen.refl
      · exact hpath.to_reflTransGen
    simp only [mem_cons, not_mem_nil, or_false] at hends
    rcases hends with rfl | rfl
    · exact Relation.TransGen.head' hstep hback
    · exact Relation.TransGen.tail' hback hstep
  · intro hcycle
    obtain ⟨next, ⟨call, hplanned, rfl⟩, hback⟩ := Relation.TransGen.head'_iff.mp hcycle
    refine ⟨_, ⟨mem_callEdges.mpr ⟨callable, call, hplanned, rfl⟩, ?_⟩, mem_cons_self⟩
    simp only [Bool.or_eq_true, decide_eq_true_eq, reaches_iff]
    rcases Relation.reflTransGen_iff_eq_or_transGen.mp hback with heq | hpath
    · exact Or.inl heq
    · exact Or.inr hpath

variable {caller : CallableKey} {call : CallableControlCallPlan}

theorem IsRecursiveCall.ends (hcall : IsRecursiveCall plans caller call) :
    RecursiveCallable plans caller ∧ RecursiveCallable plans call.target := by
  obtain ⟨edge, hedge, hrecursive, rfl, -, htarget⟩ := hcall
  rw [← htarget]
  have hfiltered : edge ∈ (callEdges plans).filter (·.recursive) :=
    mem_filter.mpr ⟨hedge, hrecursive⟩
  constructor
  · rw [← mem_recursiveCallables]
    exact mem_flatMap.mpr ⟨edge, hfiltered, by simp⟩
  · rw [← mem_recursiveCallables]
    exact mem_flatMap.mpr ⟨edge, hfiltered, by simp⟩

/-- A composable edge stands for the one exact call at its place. -/
theorem exactCallAt_of_composable (hplanned : (caller, call) ∈ plannedCalls plans)
    (hcomposable : (decide ((callsAt plans caller call.callsite).length = 1) &&
      call.dispatchExact && call.argumentsSafe) = true) :
    exactCallAt plans caller call.callsite = some call := by
  simp only [Bool.and_eq_true, decide_eq_true_eq] at hcomposable
  obtain ⟨⟨hlength, hexact⟩, hsafe⟩ := hcomposable
  have hmem : (caller, call) ∈ callsAt plans caller call.callsite :=
    mem_callsAt.mpr ⟨hplanned, rfl, rfl, rfl, rfl⟩
  obtain ⟨only, honly⟩ := length_eq_one_iff.mp hlength
  rw [exactCallAt_eq_some_iff]
  refine ⟨?_, hexact, hsafe⟩
  rw [honly] at hmem ⊢
  rw [mem_singleton.mp hmem]

/-- The loop starts from the numbered local routes. -/
def startSaturation (flows : List AuthenticatedCallableEffectValueFlow)
    (plans : List CallableControlPlan) : Saturation AuthenticatedEffectValueRoute :=
  ⟨baseRoutes flows, plansIncomplete plans, true, false⟩

theorem build_of_few (hfew : (baseRoutes flows).length ≤ maxEffectValueRoutes) :
    buildAuthenticatedEffectValueGraph flows plans =
      { routes := (saturate maxEffectValueRoutes (composeRoutes flows plans)
          (maxEffectValueRoutes + 1) (startSaturation flows plans)).routes
        callEdges := callEdges plans
        recursiveCallables := recursiveCallables (callEdges plans)
        incomplete := (saturate maxEffectValueRoutes (composeRoutes flows plans)
          (maxEffectValueRoutes + 1) (startSaturation flows plans)).incomplete } :=
  if_neg (Nat.not_lt.mpr hfew)

theorem build_of_many (hmany : maxEffectValueRoutes < (baseRoutes flows).length) :
    buildAuthenticatedEffectValueGraph flows plans =
      { routes := (baseRoutes flows).take maxEffectValueRoutes
        callEdges := callEdges plans
        recursiveCallables := recursiveCallables (callEdges plans)
        incomplete := true } :=
  if_pos hmany

theorem build_callEdges : (buildAuthenticatedEffectValueGraph flows plans).callEdges =
    callEdges plans := by
  by_cases hfew : (baseRoutes flows).length ≤ maxEffectValueRoutes
  · rw [build_of_few hfew]
  · rw [build_of_many (by omega)]

theorem build_recursiveCallables :
    (buildAuthenticatedEffectValueGraph flows plans).recursiveCallables =
      recursiveCallables (callEdges plans) := by
  by_cases hfew : (baseRoutes flows).length ≤ maxEffectValueRoutes
  · rw [build_of_few hfew]
  · rw [build_of_many (by omega)]

theorem listed_start (hfew : (baseRoutes flows).length ≤ maxEffectValueRoutes) :
    Listed maxEffectValueRoutes (composeRoutes flows plans)
      (· ∈ (startSaturation flows plans).routes) (startSaturation flows plans) where
  generated := fun _ hroute => Generated.given hroute
  nodup := baseRoutes_nodup flows
  bounded := hfew

/-- The graph is complete exactly when the plans agree, the local routes fit the
limit, and so do the routes that they generate. -/
theorem build_complete_iff :
    (buildAuthenticatedEffectValueGraph flows plans).incomplete = false ↔
      (baseRoutes flows).length ≤ maxEffectValueRoutes ∧ plansIncomplete plans = false ∧
        Fits maxEffectValueRoutes (composeRoutes flows plans) (· ∈ baseRoutes flows) := by
  by_cases hfew : (baseRoutes flows).length ≤ maxEffectValueRoutes
  · rw [build_of_few hfew]
    by_cases hplans : plansIncomplete plans = true
    · have hincomplete : (saturate maxEffectValueRoutes (composeRoutes flows plans)
          (maxEffectValueRoutes + 1) (startSaturation flows plans)).incomplete = true :=
        saturate_incomplete hplans
      simp [hincomplete, hplans]
    · rw [Bool.not_eq_true] at hplans
      rw [saturate_complete_iff (listed_start hfew) (by omega) hplans]
      simp [hfew, hplans, startSaturation]
  · rw [build_of_many (by omega)]
    simp [hfew]

section

variable (hcomplete : (buildAuthenticatedEffectValueGraph flows plans).incomplete = false)
include hcomplete

/-- The routes of a complete graph are all chains of local routes. -/
theorem mem_routes_iff :
    route ∈ (buildAuthenticatedEffectValueGraph flows plans).routes ↔
      ∃ links, Chain flows plans (baseRoutes flows) links route := by
  obtain ⟨hfew, -, hfits⟩ := build_complete_iff.mp hcomplete
  rw [build_of_few hfew] at hcomplete ⊢
  rw [mem_saturate_iff (listed_start hfew) (by omega) hcomplete]
  change Generated (composeRoutes flows plans) (· ∈ baseRoutes flows) route ↔ _
  rw [generated_iff_chain (numbered_baseRoutes flows)]
  constructor
  · intro h
    obtain ⟨links, hchain, -⟩ := h
    exact ⟨links, hchain⟩
  · intro h
    obtain ⟨links, hchain⟩ := h
    exact ⟨links, hchain, hchain.length_le (numbered_baseRoutes flows) hfits.short⟩

theorem chain_length_le
    {links : List AuthenticatedEffectValueRoute}
    (hchain : Chain flows plans (baseRoutes flows) links route) :
    links.length ≤ maxEffectValueDepth :=
  hchain.length_le (numbered_baseRoutes flows) (build_complete_iff.mp hcomplete).2.2.short

end

section Propagation

/-- A local path with the flow that lists it. -/
structure LocalPath where
  flow : AuthenticatedCallableEffectValueFlow
  path : AuthenticatedEffectValuePath

def LocalPath.Blocked (link : LocalPath) : Prop :=
  ∃ rejection ∈ link.flow.rejections,
    sameAuthenticatedEffectValueOrigin rejection.origin link.path.origin = true

variable (flows : List AuthenticatedCallableEffectValueFlow) (plans : List CallableControlPlan)

def LocalPath.Listed (link : LocalPath) : Prop := link.flow ∈ flows ∧ link.path ∈ link.flow.paths

/-- The value of the first path flows into the second: an argument of an exact call
into the parameter of its target, or a return into the result of an exact call. -/
inductive Continues (first second : LocalPath) : SourceAnchor → Prop
  | argument {callsite calleeProvenance value declaration reference : SourceAnchor}
      {callee name : String} {index : ℕ} {call : CallableControlCallPlan}
      {target : AuthenticatedCallableEffectValueFlow} :
      first.path.sink = .callArgument callsite callee calleeProvenance index value →
      second.path.origin = .parameter index name declaration reference →
      exactCallAt plans first.flow.callable callsite = some call →
      call.target = second.flow.callable →
      flowOf flows call.target = some target → index < target.parameterCount →
        Continues first second call.callsite
  | result {site value callsite calleeProvenance : SourceAnchor} {callee : String}
      {call : CallableControlCallPlan} :
      first.path.sink = .return site value →
      second.path.origin = .callResult callsite callee calleeProvenance →
      exactCallAt plans second.flow.callable callsite = some call →
      call.target = first.flow.callable → Continues first second call.callsite

/-- The path starts at the result of the call at a place. -/
def LocalPath.StartsAt (module : String) (start stop : ℕ) (link : LocalPath) : Prop :=
  ∃ callsite callee calleeProvenance,
    link.path.origin = .callResult callsite callee calleeProvenance ∧
      callsite.module = module ∧ callsite.start = start ∧ callsite.stop = stop

/-- The result of the call propagates along the listed paths and reaches the last one. -/
inductive Propagates (module : String) (start stop : ℕ) : List LocalPath → LocalPath → Prop
  | start {link : LocalPath} : link.Listed flows → link.StartsAt module start stop →
      Propagates module start stop [] link
  | next {before : List LocalPath} {link next : LocalPath} {callsite : SourceAnchor} :
      Propagates module start stop before link → next.Listed flows →
        Continues flows plans link next callsite →
          Propagates module start stop (before ++ [link]) next

/-- A propagation ends in an await or in the return of a handler. -/
def LocalPath.Ends (link : LocalPath) : Prop :=
  match link.path.sink with
  | .await _ _ => True
  | .return _ _ => link.flow.handler = true
  | .callArgument _ _ _ _ _ => False

/-- The path may carry a closed value: nothing blocks it, its callable is not
recursive, and the value goes on unless it has reached its end.  A returned
value goes on through every call of the callable. -/
structure Carries (link : LocalPath) : Prop where
  unblocked : ¬link.Blocked
  nonrecursive : ¬RecursiveCallable plans link.flow.callable
  continues : ¬link.Ends → ∃ next callsite, next.Listed flows ∧
    Continues flows plans link next callsite
  every_call : ¬link.Ends → (∃ site value, link.path.sink = .return site value) →
    ∀ caller call, (caller, call) ∈ plannedCalls plans → call.target = link.flow.callable →
      exactCallAt plans caller call.callsite = some call ∧
        ∃ next, next.Listed flows ∧ Continues flows plans link next call.callsite

end Propagation

end ConvexWasm.Compiler.EffectValueGraph
