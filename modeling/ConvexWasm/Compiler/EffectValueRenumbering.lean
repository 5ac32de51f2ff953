import ConvexWasm.Compiler.EffectValueOrder

/-!
# Renumbered routes

Reordered flows give the same local routes under other numbers.  The calls do
not depend on the order of the plans either, so a complete graph of reordered
inputs has the same routes, renumbered, and closes the same call results.
-/

namespace ConvexWasm.Compiler.EffectValueGraph

open BoundedClosure ControlPlans List

variable {plans plans' : List CallableControlPlan}

section Calls

section

variable (hplans : plans.Perm plans')
include hplans

theorem callsInto_perm : CallsInto plans' = CallsInto plans := by
  unfold CallsInto
  simp only [(plannedCalls_perm hplans).mem_iff]

theorem recursiveCallable_perm : RecursiveCallable plans' = RecursiveCallable plans := by
  funext callable
  rw [RecursiveCallable, RecursiveCallable, callsInto_perm hplans]

theorem mem_callEdges_perm {edge : AuthenticatedEffectValueCallEdge} :
    edge ∈ callEdges plans' ↔ edge ∈ callEdges plans := by
  have hreaches : ∀ current target, reaches (plainCallEdges plans') current target =
      reaches (plainCallEdges plans) current target := by
    intro current target
    rw [Bool.eq_iff_iff, reaches_iff, reaches_iff, callsInto_perm hplans]
  simp only [mem_callEdges, (plannedCalls_perm hplans).mem_iff, hreaches,
    (callsAt_perm hplans _ _).length_eq]

theorem isRecursiveCall_perm {caller : CallableKey} {call : CallableControlCallPlan} :
    IsRecursiveCall plans' caller call ↔ IsRecursiveCall plans caller call := by
  simp only [IsRecursiveCall, mem_callEdges_perm hplans]

end

theorem callEdges_sorted (plans : List CallableControlPlan) :
    (callEdges plans).Pairwise fun edge other => callEdgeKey edge ≤ callEdgeKey other := by
  unfold callEdges markRecursive
  rw [pairwise_map]
  exact pairwise_insertionSort _ _

variable {edge other : AuthenticatedEffectValueCallEdge}

/-- The first edge at a callsite has the least key of all. -/
theorem find_least {edges : List AuthenticatedEffectValueCallEdge}
    (hsorted : edges.Pairwise fun edge other => callEdgeKey edge ≤ callEdgeKey other)
    {accepts : AuthenticatedEffectValueCallEdge → Bool} (hfind : edges.find? accepts = some edge)
    (hother : other ∈ edges) (haccepts : accepts other = true) :
    callEdgeKey edge ≤ callEdgeKey other := by
  induction edges with
  | nil => simp at hother
  | cons head rest ih =>
    rw [pairwise_cons] at hsorted
    rw [List.find?_cons] at hfind
    cases hhead : accepts head with
    | true =>
      obtain rfl : head = edge := by simpa [hhead] using hfind
      rcases mem_cons.mp hother with rfl | hother
      · exact le_rfl
      · exact hsorted.1 other hother
    | false =>
      rw [hhead] at hfind
      rcases mem_cons.mp hother with rfl | hother
      · simp [hhead] at haccepts
      · exact ih hsorted.2 hfind hother

theorem eq_of_composable_key (hedge : edge ∈ callEdges plans) (hother : other ∈ callEdges plans)
    (hkey : callEdgeKey edge = callEdgeKey other) (hcomposable : edge.composable = true) :
    edge = other := by
  obtain ⟨caller, call, hplanned, rfl⟩ := mem_callEdges.mp hedge
  obtain ⟨caller', call', hplanned', rfl⟩ := mem_callEdges.mp hother
  have hparts : call.callsite.module = call'.callsite.module ∧
      call.callsite.start = call'.callsite.start ∧ call.callsite.stop = call'.callsite.stop ∧
      (caller.module = caller'.module ∧ caller.unitId = caller'.unitId) ∧
      (call.target.module = call'.target.module ∧ call.target.unitId = call'.target.unitId) := by
    simpa [callEdgeKey] using hkey
  obtain ⟨hmodule, hstart, hstop, ⟨hcallerModule, hcallerUnit⟩, -⟩ := hparts
  obtain rfl : caller = caller' := by
    cases caller
    simp_all
  have honly := (exactCallAt_eq_some_iff.mp (exactCallAt_of_composable hplanned hcomposable)).1
  have hmem : (caller, call') ∈ callsAt plans caller call.callsite :=
    mem_callsAt.mpr ⟨hplanned', rfl, hmodule.symm, hstart.symm, hstop.symm⟩
  rw [honly, mem_singleton] at hmem
  obtain rfl : call' = call := by simpa using hmem
  rfl

/-- Whether the first edge at a callsite is composable does not depend on the order
of the plans. -/
theorem find_composable_perm (hplans : plans.Perm plans') (callsite : SourceAnchor)
    (descends : Bool) :
    (((callEdges plans').find? fun edge => decide (edge.callsite = callsite)).any fun edge =>
      edge.composable && descends) =
      ((callEdges plans).find? fun edge => decide (edge.callsite = callsite)).any fun edge =>
        edge.composable && descends := by
  have himplies : ∀ {first second : List CallableControlPlan}, first.Perm second →
      (((callEdges first).find? fun edge => decide (edge.callsite = callsite)).any fun edge =>
        edge.composable && descends) = true →
      (((callEdges second).find? fun edge => decide (edge.callsite = callsite)).any fun edge =>
        edge.composable && descends) = true := by
    intro first second hperm hany
    obtain ⟨edge, hfind, hedge⟩ := (Option.any_eq_true _ _).mp hany
    rw [Bool.and_eq_true] at hedge
    have hmem := mem_of_find?_eq_some hfind
    have hcallsite := List.find?_some hfind
    have hmem' := (mem_callEdges_perm hperm).mpr hmem
    have hsome : ((callEdges second).find? fun edge =>
        decide (edge.callsite = callsite)).isSome = true :=
      List.find?_isSome.mpr ⟨edge, hmem', hcallsite⟩
    obtain ⟨other, hother⟩ := Option.isSome_iff_exists.mp hsome
    have hotherMem := mem_of_find?_eq_some hother
    have hotherMem' := (mem_callEdges_perm hperm).mp hotherMem
    have hotherCallsite : decide (other.callsite = callsite) = true := by
      simpa using List.find?_some hother
    have hkey : callEdgeKey edge = callEdgeKey other := le_antisymm
      (find_least (callEdges_sorted first) hfind hotherMem' hotherCallsite)
      (find_least (callEdges_sorted second) hother hmem' hcallsite)
    obtain rfl := eq_of_composable_key hmem hotherMem' hkey hedge.1
    exact (Option.any_eq_true _ _).mpr ⟨edge, hother, by simp [hedge.1, hedge.2]⟩
  rw [Bool.eq_iff_iff]
  exact ⟨himplies hplans.symm, himplies hplans⟩

end Calls

variable {flows flows' : List AuthenticatedCallableEffectValueFlow}

section Flows

/-- The same flow with its paths listed in another order. -/
structure SamePaths (flow flow' : AuthenticatedCallableEffectValueFlow) : Prop where
  callable : flow'.callable = flow.callable
  parameterCount : flow'.parameterCount = flow.parameterCount
  handler : flow'.handler = flow.handler
  rejections : flow'.rejections = flow.rejections
  paths : flow.paths.Perm flow'.paths

/-- The same flows, with the flows and the paths of each listed in another order. -/
def Reordered (flows flows' : List AuthenticatedCallableEffectValueFlow) : Prop :=
  ∃ middle, flows.Perm middle ∧ List.Forall₂ SamePaths middle flows'

/-- One flow for each callable, and no path listed twice. -/
structure ListedOnce (flows : List AuthenticatedCallableEffectValueFlow) : Prop where
  callables : (flows.map (·.callable)).Nodup
  paths : ∀ flow ∈ flows, flow.paths.Nodup

variable {flow flow' : AuthenticatedCallableEffectValueFlow}

theorem SamePaths.symm (hsame : SamePaths flow flow') : SamePaths flow' flow :=
  ⟨hsame.callable.symm, hsame.parameterCount.symm, hsame.handler.symm, hsame.rejections.symm,
    hsame.paths.symm⟩

theorem SamePaths.localRoute (hsame : SamePaths flow flow') :
    localRoute flow' = localRoute flow := by
  funext path
  simp only [EffectValueGraph.localRoute, hsame.callable, hsame.handler, hsame.rejections]

theorem Forall₂.exists_left {α β : Type*} {related : α → β → Prop} {left : List α}
    {right : List β} (hrelated : List.Forall₂ related left right) :
    ∀ value ∈ left, ∃ other ∈ right, related value other := by
  induction hrelated with
  | nil => simp
  | cons hhead _ ih =>
    intro value hvalue
    rcases mem_cons.mp hvalue with rfl | hvalue
    · exact ⟨_, mem_cons_self, hhead⟩
    · obtain ⟨other, hother, hfound⟩ := ih value hvalue
      exact ⟨other, mem_cons_of_mem _ hother, hfound⟩

theorem Reordered.exists_same (hreordered : Reordered flows flows') :
    ∀ flow ∈ flows, ∃ flow' ∈ flows', SamePaths flow flow' := by
  obtain ⟨middle, hperm, hsame⟩ := hreordered
  intro flow hflow
  exact Forall₂.exists_left hsame flow (hperm.mem_iff.mp hflow)

theorem Reordered.exists_same' (hreordered : Reordered flows flows') :
    ∀ flow' ∈ flows', ∃ flow ∈ flows, SamePaths flow flow' := by
  obtain ⟨middle, hperm, hsame⟩ := hreordered
  intro flow' hflow'
  obtain ⟨flow, hflow, hfound⟩ := Forall₂.exists_left hsame.flip flow' hflow'
  exact ⟨flow, hperm.mem_iff.mpr hflow, hfound⟩

variable {middle : List AuthenticatedCallableEffectValueFlow}

theorem map_callable_eq (hsame : List.Forall₂ SamePaths middle flows') :
    flows'.map (·.callable) = middle.map (·.callable) := by
  induction hsame with
  | nil => rfl
  | cons hhead _ ih => simp [hhead.callable, ih]

theorem ListedOnce.reordered (honce : ListedOnce flows) (hreordered : Reordered flows flows') :
    ListedOnce flows' := by
  constructor
  · obtain ⟨middle, hperm, hsame⟩ := hreordered
    rw [map_callable_eq hsame]
    exact (hperm.map _).nodup_iff.mp honce.callables
  · intro flow' hflow'
    obtain ⟨flow, hflow, hsame⟩ := hreordered.exists_same' flow' hflow'
    exact hsame.paths.nodup_iff.mp (honce.paths flow hflow)

theorem flatMap_perm_of_forall₂ (hsame : List.Forall₂ SamePaths middle flows') :
    (middle.flatMap fun flow => flow.paths.map (localRoute flow)).Perm
      (flows'.flatMap fun flow => flow.paths.map (localRoute flow)) := by
  induction hsame with
  | nil => exact List.Perm.refl _
  | cons hhead _ ih =>
    simp only [flatMap_cons]
    rw [hhead.localRoute]
    exact (hhead.paths.map _).append ih

theorem localRoute_injective (flow : AuthenticatedCallableEffectValueFlow) :
    Function.Injective (localRoute flow) := by
  intro path path' hroutes
  cases path
  simp only [localRoute, AuthenticatedEffectValueRoute.mk.injEq] at hroutes
  simp [hroutes.2.1, hroutes.2.2.2.1, hroutes.2.2.2.2.1]

variable (honce : ListedOnce flows)
include honce

theorem plainRoutes_nodup : (flows.flatMap fun flow => flow.paths.map (localRoute flow)).Nodup := by
  rw [nodup_flatMap]
  refine ⟨fun flow hflow => (honce.paths flow hflow).map (localRoute_injective flow), ?_⟩
  have hdistinct := pairwise_map.mp honce.callables
  refine hdistinct.imp fun {flow flow'} hne => ?_
  intro route hroute hroute'
  obtain ⟨path, -, rfl⟩ := mem_map.mp hroute
  obtain ⟨path', -, hroutes⟩ := mem_map.mp hroute'
  exact hne (congrArg AuthenticatedEffectValueRoute.originCallable hroutes).symm

/-- Without repetitions the local routes are only sorted. -/
theorem localRoutes_perm :
    (localRoutes flows).Perm (flows.flatMap fun flow => flow.paths.map (localRoute flow)) := by
  have hsorted := perm_insertionSort (fun route other => routeKey route ≤ routeKey other)
    (flows.flatMap fun flow => flow.paths.map (localRoute flow))
  rw [localRoutes, destutter_of_isChain]
  · exact hsorted
  · exact (hsorted.nodup_iff.mpr (plainRoutes_nodup honce)).isChain

theorem localRoutes_reordered (hreordered : Reordered flows flows') :
    (localRoutes flows).Perm (localRoutes flows') := by
  refine (localRoutes_perm honce).trans (List.Perm.trans ?_
    (localRoutes_perm (honce.reordered hreordered)).symm)
  obtain ⟨middle, hperm, hsame⟩ := hreordered
  exact (hperm.flatMap_right _).trans (flatMap_perm_of_forall₂ hsame)

theorem flowOf_any (callable : CallableKey) (accepts : AuthenticatedCallableEffectValueFlow → Bool)
    :
    (flowOf flows callable).any accepts = true ↔
      ∃ flow ∈ flows, flow.callable = callable ∧ accepts flow = true := by
  rw [Option.any_eq_true]
  constructor
  · intro h
    obtain ⟨flow, hfound, haccepts⟩ := h
    exact ⟨flow, mem_reverse.mp (mem_of_find?_eq_some hfound),
      by simpa using List.find?_some hfound, haccepts⟩
  · intro h
    obtain ⟨flow, hflow, rfl, haccepts⟩ := h
    have hsome : (flowOf flows flow.callable).isSome = true :=
      List.find?_isSome.mpr ⟨flow, mem_reverse.mpr hflow, by simp⟩
    obtain ⟨found, hfound⟩ := Option.isSome_iff_exists.mp hsome
    have hmem := mem_reverse.mp (mem_of_find?_eq_some hfound)
    have hcallable : found.callable = flow.callable := by simpa using List.find?_some hfound
    obtain rfl := inj_on_of_nodup_map honce.callables hmem hflow hcallable
    exact ⟨found, hfound, haccepts⟩

/-- The parameters of a callable's flow do not depend on the order of the flows. -/
theorem flowOf_reordered (hreordered : Reordered flows flows') (callable : CallableKey) (index : ℕ)
    :
    ((flowOf flows' callable).any fun flow => decide (index < flow.parameterCount)) =
      (flowOf flows callable).any fun flow => decide (index < flow.parameterCount) := by
  rw [Bool.eq_iff_iff, flowOf_any honce, flowOf_any (honce.reordered hreordered)]
  constructor
  · intro h
    obtain ⟨flow', hflow', rfl, hindex⟩ := h
    obtain ⟨flow, hflow, hsame⟩ := hreordered.exists_same' flow' hflow'
    exact ⟨flow, hflow, hsame.callable.symm, hsame.parameterCount ▸ hindex⟩
  · intro h
    obtain ⟨flow, hflow, rfl, hindex⟩ := h
    obtain ⟨flow', hflow', hsame⟩ := hreordered.exists_same flow hflow
    exact ⟨flow', hflow', hsame.callable, hsame.parameterCount.symm ▸ hindex⟩

end Flows

variable {order : Equiv.Perm ℕ}

section Numbering

/-- A permutation that fixes zero and moves the successors as the given one moves
their predecessors. -/
def shiftPerm (order : Equiv.Perm ℕ) : Equiv.Perm ℕ where
  toFun
    | 0 => 0
    | n + 1 => order n + 1
  invFun
    | 0 => 0
    | n + 1 => order.symm n + 1
  left_inv := by
    intro n
    cases n <;> simp
  right_inv := by
    intro n
    cases n <;> simp

/-- Permuted lists hold the same values at permuted places. -/
theorem exists_renumbering {α : Type*} {values values' : List α} (hperm : values.Perm values') :
    ∃ order : Equiv.Perm ℕ, ∀ n, values'[order n]? = values[n]? := by
  induction hperm with
  | nil => exact ⟨Equiv.refl ℕ, fun n => by simp⟩
  | cons value _ ih =>
    obtain ⟨order, horder⟩ := ih
    refine ⟨shiftPerm order, fun n => ?_⟩
    cases n with
    | zero => rfl
    | succ n => simpa [shiftPerm] using horder n
  | swap first second rest =>
    refine ⟨Equiv.swap 0 1, fun n => ?_⟩
    rcases n with _ | _ | n
    · simp
    · simp
    · rw [Equiv.swap_apply_of_ne_of_ne (by omega) (by omega)]
      simp
  | trans _ _ ihfirst ihsecond =>
    obtain ⟨order, horder⟩ := ihfirst
    obtain ⟨order', horder'⟩ := ihsecond
    exact ⟨order.trans order', fun n => by rw [Equiv.trans_apply, horder', horder]⟩

def renumber (order : Equiv.Perm ℕ) (route : AuthenticatedEffectValueRoute) :
    AuthenticatedEffectValueRoute :=
  { route with basePathIds := route.basePathIds.map order }

variable {route candidate : AuthenticatedEffectValueRoute}

/-- The reordered base is the renumbered one. -/
theorem mem_baseRoutes_renumber
    (horder : ∀ n, (localRoutes flows')[order n]? = (localRoutes flows)[n]?) :
    route ∈ baseRoutes flows' ↔ ∃ origin, origin ∈ baseRoutes flows ∧ renumber order origin = route := by
  constructor
  · intro hroute
    obtain ⟨id, plain, hat, rfl⟩ := mem_numberRoutes.mp hroute
    refine ⟨numberRoute plain (order.symm id), mem_numberRoutes.mpr
      ⟨order.symm id, plain, ?_, rfl⟩, by simp [renumber, numberRoute]⟩
    rw [← horder, Equiv.apply_symm_apply, hat]
  · intro h
    obtain ⟨origin, horigin, rfl⟩ := h
    obtain ⟨id, plain, hat, rfl⟩ := mem_numberRoutes.mp horigin
    exact mem_numberRoutes.mpr ⟨order id, plain, by rw [horder, hat], rfl⟩

theorem renumber_join (first second : AuthenticatedEffectValueRoute) (callsite : SourceAnchor) :
    renumber order (joinRoutes first second callsite) =
      joinRoutes (renumber order first) (renumber order second) callsite := by
  simp [renumber, joinRoutes]

variable (honce : ListedOnce flows) (hreordered : Reordered flows flows')
  (hplans : plans.Perm plans')
include honce hreordered hplans

theorem joins_renumber {first second : AuthenticatedEffectValueRoute} {callsite : SourceAnchor} :
    Joins flows' plans' (renumber order first) (renumber order second) callsite ↔
      Joins flows plans first second callsite := by
  have hcall : connectingCall flows' plans' (renumber order first) (renumber order second) =
      connectingCall flows plans first second := by
    simp only [connectingCall, renumber, ← exactCallAt_perm hplans,
      flowOf_reordered honce hreordered]
    rfl
  simp only [Joins, hcall, isRecursiveCall_perm hplans]

/-- The composition commutes with the renumbering. -/
theorem composeRoutes_renumber (first second : AuthenticatedEffectValueRoute) :
    composeRoutes flows' plans' (renumber order first) (renumber order second) =
      (composeRoutes flows plans first second).map (renumber order) := by
  by_cases hjoins : ∃ callsite, Joins flows plans first second callsite
  · obtain ⟨callsite, hjoins⟩ := hjoins
    rw [composeRoutes_of_joins hjoins,
      composeRoutes_of_joins ((joins_renumber honce hreordered hplans).mpr hjoins),
      ← renumber_join]
    change (if maxEffectValueDepth < first.callablePath.length + second.callablePath.length
      then _ else _) = _
    split <;> rfl
  · rw [composeRoutes_of_apart hjoins, composeRoutes_of_apart]
    · rfl
    · simpa only [joins_renumber honce hreordered hplans] using hjoins

end Numbering

section Closing

section

variable (honce : ListedOnce flows) (hreordered : Reordered flows flows')
include honce hreordered

theorem baseRoutes_length : (baseRoutes flows').length = (baseRoutes flows).length := by
  simp only [baseRoutes, numberRoutes, length_map, length_zipIdx]
  exact (localRoutes_reordered honce hreordered).symm.length_eq

section

variable (hplans : plans.Perm plans')
  (horder : ∀ n, (localRoutes flows')[order n]? = (localRoutes flows)[n]?)
  (hcomplete : (buildAuthenticatedEffectValueGraph flows plans).incomplete = false)
include hplans horder hcomplete

theorem complete_of_reordered :
    (buildAuthenticatedEffectValueGraph flows' plans').incomplete = false := by
  obtain ⟨hfew, hagree, hfits⟩ := build_complete_iff.mp hcomplete
  rw [build_complete_iff]
  refine ⟨(baseRoutes_length honce hreordered).trans_le hfew,
    (plansIncomplete_perm hplans).trans hagree, ?_⟩
  exact hfits.renamed (composeRoutes_renumber honce hreordered hplans)
    fun route => mem_baseRoutes_renumber horder

/-- The routes of a complete graph are renumbered. -/
theorem mem_routes_reordered (route : AuthenticatedEffectValueRoute) :
    route ∈ (buildAuthenticatedEffectValueGraph flows' plans').routes ↔
      ∃ origin, origin ∈ (buildAuthenticatedEffectValueGraph flows plans).routes ∧
        renumber order origin = route := by
  have hcomplete' := complete_of_reordered honce hreordered hplans horder hcomplete
  have hgenerated : ∀ {flows : List AuthenticatedCallableEffectValueFlow}
      {plans : List CallableControlPlan} {route : AuthenticatedEffectValueRoute},
      (buildAuthenticatedEffectValueGraph flows plans).incomplete = false →
      (route ∈ (buildAuthenticatedEffectValueGraph flows plans).routes ↔
        Generated (composeRoutes flows plans) (· ∈ baseRoutes flows) route) := by
    intro flows plans route hcomplete
    obtain ⟨hfew, -, -⟩ := build_complete_iff.mp hcomplete
    rw [build_of_few hfew] at hcomplete ⊢
    exact mem_saturate_iff (listed_start hfew) (by omega) hcomplete
  rw [hgenerated hcomplete', generated_rename_iff (composeRoutes_renumber honce hreordered hplans)
    fun route => mem_baseRoutes_renumber horder]
  simp only [hgenerated hcomplete]

end

end

theorem descendantThroughCall_renumber (route candidate : AuthenticatedEffectValueRoute)
    (callsite : SourceAnchor) :
    descendantThroughCall (renumber order route) (renumber order candidate) callsite =
      descendantThroughCall route candidate callsite := by
  have hgrows : ((route.basePathIds.map order).isPrefixOf (candidate.basePathIds.map order)) =
      route.basePathIds.isPrefixOf candidate.basePathIds := by
    rw [Bool.eq_iff_iff, isPrefixOf_iff_prefix, isPrefixOf_iff_prefix]
    exact prefix_map_iff_of_injective order.injective
  simp only [descendantThroughCall, renumber, length_map, hgrows]
  rfl

variable {routes routes' : List AuthenticatedEffectValueRoute}
  {accepts accepts' : AuthenticatedEffectValueRoute → Bool}

section

variable
  (hroutes : ∀ route, route ∈ routes' ↔ ∃ origin, origin ∈ routes ∧ renumber order origin = route)
include hroutes

section

variable (haccepts : ∀ route, accepts' (renumber order route) = accepts route)
include haccepts

/-- A test that ignores the numbers passes on some renumbered route exactly when it
passes on some route. -/
theorem any_renumber :
    routes'.any accepts' = routes.any accepts := by
  rw [Bool.eq_iff_iff, any_eq_true, any_eq_true]
  constructor
  · intro h
    obtain ⟨route, hroute, hfound⟩ := h
    obtain ⟨origin, horigin, rfl⟩ := (hroutes route).mp hroute
    exact ⟨origin, horigin, (haccepts origin).symm.trans hfound⟩
  · intro h
    obtain ⟨origin, horigin, hfound⟩ := h
    exact ⟨_, (hroutes _).mpr ⟨origin, horigin, rfl⟩, (haccepts origin).trans hfound⟩

theorem all_renumber :
    routes'.all accepts' = routes.all accepts := by
  rw [all_eq_not_any_not, all_eq_not_any_not]
  exact congrArg not (any_renumber hroutes fun route => congrArg not (haccepts route))

end

theorem isEmpty_renumber : routes'.isEmpty = routes.isEmpty := by
  rw [Bool.eq_iff_iff, List.isEmpty_iff, List.isEmpty_iff, eq_nil_iff_forall_not_mem,
    eq_nil_iff_forall_not_mem]
  constructor
  · intro h route hroute
    exact h _ ((hroutes _).mpr ⟨route, hroute, rfl⟩)
  · intro h route hroute
    obtain ⟨origin, horigin, rfl⟩ := (hroutes route).mp hroute
    exact h origin horigin

end

variable {α : Type*} {values values' : List α}

theorem isEmpty_of_mem_iff (hvalues : ∀ value, value ∈ values' ↔ value ∈ values) :
    values'.isEmpty = values.isEmpty := by
  rw [Bool.eq_iff_iff, List.isEmpty_iff, List.isEmpty_iff, eq_nil_iff_forall_not_mem,
    eq_nil_iff_forall_not_mem]
  simp only [hvalues]

theorem all_of_mem_iff (hvalues : ∀ value, value ∈ values' ↔ value ∈ values) (accepts : α → Bool) :
    values'.all accepts = values.all accepts := by
  rw [Bool.eq_iff_iff, all_eq_true, all_eq_true]
  simp only [hvalues]

theorem routeIsFullyExpanded_renumber (hplans : plans.Perm plans')
    {matching matching' : List AuthenticatedEffectValueRoute}
    (hmatching : ∀ route, route ∈ matching' ↔
      ∃ origin, origin ∈ matching ∧ renumber order origin = route)
    (route : AuthenticatedEffectValueRoute) :
    routeIsFullyExpanded (buildAuthenticatedEffectValueGraph flows' plans')
        (renumber order route) matching' =
      routeIsFullyExpanded (buildAuthenticatedEffectValueGraph flows plans) route matching := by
  have hdescends : ∀ callsite, (matching'.any fun candidate =>
      descendantThroughCall (renumber order route) candidate callsite) =
      matching.any fun candidate => descendantThroughCall route candidate callsite := fun callsite =>
    any_renumber hmatching fun candidate => descendantThroughCall_renumber route candidate callsite
  have hinbound : ∀ edge, edge ∈ ((callEdges plans').filter fun edge =>
      decide (edge.target = route.sinkCallable)) ↔ edge ∈ ((callEdges plans).filter fun edge =>
      decide (edge.target = route.sinkCallable)) := by
    intro edge
    rw [mem_filter, mem_filter, mem_callEdges_perm hplans]
  cases hsink : route.sink with
  | await site value =>
    have hsink' : (renumber order route).sink = .await site value := hsink
    simp only [routeIsFullyExpanded, hsink, hsink']
  | «return» site value =>
    have hsink' : (renumber order route).sink = .return site value := hsink
    simp only [routeIsFullyExpanded, hsink, hsink', build_callEdges, hdescends]
    change (if route.handlerSink = true then _ else _) = _
    split
    · rfl
    · exact congrArg₂ (fun empty all => !empty && all) (isEmpty_of_mem_iff hinbound)
        (all_of_mem_iff hinbound _)
  | callArgument callsite callee calleeProvenance argumentIndex value =>
    have hsink' : (renumber order route).sink =
        .callArgument callsite callee calleeProvenance argumentIndex value := hsink
    simp only [routeIsFullyExpanded, hsink, hsink', build_callEdges, hdescends]
    exact find_composable_perm hplans callsite _

/-- A complete graph closes the same call results after a reordering. -/
theorem closesCallResult_reordered (honce : ListedOnce flows)
    (hreordered : Reordered flows flows') (hplans : plans.Perm plans')
    (horder : ∀ n, (localRoutes flows')[order n]? = (localRoutes flows)[n]?)
    (hcomplete : (buildAuthenticatedEffectValueGraph flows plans).incomplete = false)
    (module : String) (start stop : ℕ) :
    closesCallResult (buildAuthenticatedEffectValueGraph flows' plans') module start stop [] =
      closesCallResult (buildAuthenticatedEffectValueGraph flows plans) module start stop [] := by
  have hroutes := mem_routes_reordered honce hreordered hplans horder hcomplete
  have hmatching : ∀ route, route ∈ matchingRoutes
      (buildAuthenticatedEffectValueGraph flows' plans') module start stop ↔
      ∃ origin, origin ∈ matchingRoutes (buildAuthenticatedEffectValueGraph flows plans)
        module start stop ∧ renumber order origin = route := by
    intro route
    simp only [matchingRoutes, mem_filter, hroutes]
    constructor
    · intro h
      obtain ⟨⟨origin, horigin, rfl⟩, hstarts⟩ := h
      exact ⟨origin, ⟨horigin, hstarts⟩, rfl⟩
    · intro h
      obtain ⟨origin, ⟨horigin, hstarts⟩, rfl⟩ := h
      exact ⟨⟨origin, horigin, rfl⟩, hstarts⟩
  have hexpanded : ∀ route, routeIsFullyExpanded
      (buildAuthenticatedEffectValueGraph flows' plans') (renumber order route)
        (matchingRoutes (buildAuthenticatedEffectValueGraph flows' plans') module start stop) =
      routeIsFullyExpanded (buildAuthenticatedEffectValueGraph flows plans) route
        (matchingRoutes (buildAuthenticatedEffectValueGraph flows plans) module start stop) :=
    routeIsFullyExpanded_renumber hplans hmatching
  have hfrontier : ∀ route, route ∈ ((matchingRoutes
      (buildAuthenticatedEffectValueGraph flows' plans') module start stop).filter fun route =>
        !routeIsFullyExpanded (buildAuthenticatedEffectValueGraph flows' plans') route
          (matchingRoutes (buildAuthenticatedEffectValueGraph flows' plans') module start stop)) ↔
      ∃ origin, origin ∈ ((matchingRoutes (buildAuthenticatedEffectValueGraph flows plans)
        module start stop).filter fun route =>
        !routeIsFullyExpanded (buildAuthenticatedEffectValueGraph flows plans) route
          (matchingRoutes (buildAuthenticatedEffectValueGraph flows plans) module start stop)) ∧
        renumber order origin = route := by
    intro route
    simp only [mem_filter, hmatching]
    constructor
    · intro h
      obtain ⟨⟨origin, horigin, rfl⟩, hopen⟩ := h
      exact ⟨origin, ⟨horigin, by rwa [hexpanded] at hopen⟩, rfl⟩
    · intro h
      obtain ⟨origin, ⟨horigin, hopen⟩, rfl⟩ := h
      exact ⟨⟨origin, horigin, rfl⟩, by rwa [hexpanded]⟩
  rw [Bool.eq_iff_iff, closes_iff, closes_iff, hcomplete,
    complete_of_reordered honce hreordered hplans horder hcomplete, closesRoutes, closesRoutes]
  simp only [true_and, Bool.and_eq_true, Bool.not_eq_true', isEmpty_renumber hfrontier,
    build_recursiveCallables]
  refine and_congr_right fun _ => iff_of_eq (congrArg (· = true) ?_)
  apply all_renumber hfrontier
  intro route
  have hrecursive : ∀ callable, decide (callable ∈ recursiveCallables (callEdges plans')) =
      decide (callable ∈ recursiveCallables (callEdges plans)) := by
    intro callable
    rw [decide_eq_decide, mem_recursiveCallables, mem_recursiveCallables,
      recursiveCallable_perm hplans]
  simp only [hrecursive]
  rfl

end Closing

end ConvexWasm.Compiler.EffectValueGraph
