import ConvexWasm.Compiler.EffectValueClosure

/-!
# Propagations of a closed call result

Every route of a closed call result extends to one that the graph does not
expand further, and that one is unblocked and ends in an await or in the
return of a handler.  So each propagation is the start of such a route.
-/

namespace ConvexWasm.Compiler.EffectValueGraph

open BoundedClosure ControlPlans List

variable {flows : List AuthenticatedCallableEffectValueFlow} {plans : List CallableControlPlan}
  {route next : AuthenticatedEffectValueRoute}

variable {link : LocalPath}

/-- The route ends where the local path does. -/
structure EndsAt (route : AuthenticatedEffectValueRoute) (link : LocalPath) : Prop where
  sink : route.sink = link.path.sink
  sinkCallable : route.sinkCallable = link.flow.callable
  handlerSink : route.handlerSink = link.flow.handler
  callable : link.flow.callable ∈ route.callablePath
  blocked : link.Blocked → route.blocked = true

theorem endsAt_localRoute (link : LocalPath) (id : ℕ) :
    EndsAt (numberRoute (localRoute link.flow link.path) id) link where
  sink := rfl
  sinkCallable := rfl
  handlerSink := rfl
  callable := mem_cons_self
  blocked := fun hblocked => any_eq_true.mpr hblocked

variable {callsite : SourceAnchor}

theorem EndsAt.join (hends : EndsAt next link) : EndsAt (joinRoutes route next callsite) link where
  sink := hends.sink
  sinkCallable := hends.sinkCallable
  handlerSink := hends.handlerSink
  callable := mem_append_right _ hends.callable
  blocked := fun hblocked => by simp [joinRoutes, hends.blocked hblocked]

/-- The local path that a route of the base stands for. -/
theorem exists_localPath (hroute : route ∈ baseRoutes flows) :
    ∃ link : LocalPath, link.Listed flows ∧
      ∃ id, route = numberRoute (localRoute link.flow link.path) id := by
  obtain ⟨flow, hflow, path, hpath, id, -, rfl⟩ := mem_baseRoutes hroute
  exact ⟨⟨flow, path⟩, ⟨hflow, hpath⟩, id, rfl⟩

theorem continues_of_joins (hends : EndsAt route link) (hnext : next ∈ baseRoutes flows)
    (hjoins : Joins flows plans route next callsite) :
    ∃ following : LocalPath, following.Listed flows ∧
      Continues flows plans link following callsite := by
  obtain ⟨following, hlisted, id, rfl⟩ := exists_localPath hnext
  refine ⟨following, hlisted, ?_⟩
  obtain ⟨caller, call, hcall, rfl, -⟩ := hjoins
  unfold connectingCall at hcall
  split at hcall
  · next hsink horigin =>
      split at hcall
      · next hindex =>
          obtain ⟨found, hexact, hfound⟩ := Option.bind_eq_some_iff.mp hcall
          split at hfound
          · next htarget =>
              obtain ⟨-, rfl⟩ : route.sinkCallable = caller ∧ found = call := by
                simpa using hfound
              obtain ⟨target, hflow, hcount⟩ := (Option.any_eq_true _ _).mp htarget.2
              subst hindex
              exact Continues.argument (hends.sink ▸ hsink) horigin (hends.sinkCallable ▸ hexact)
                htarget.1 hflow (by simpa using hcount)
          · simp at hfound
      · simp at hcall
  · next hsink horigin =>
      obtain ⟨found, hexact, hfound⟩ := Option.bind_eq_some_iff.mp hcall
      split at hfound
      · next htarget =>
          obtain ⟨-, rfl⟩ : following.flow.callable = caller ∧ found = call := by
            simpa [numberRoute, localRoute] using hfound
          exact Continues.result (hends.sink ▸ hsink) horigin hexact (hends.sinkCallable ▸ htarget)
      · simp at hfound
  · simp at hcall

/-- A continuation from a callable that is not recursive joins the routes. -/
theorem joins_of_continues {link following : LocalPath} (id : ℕ) (hends : EndsAt route link)
    (hplain : ¬RecursiveCallable plans link.flow.callable)
    (hcontinues : Continues flows plans link following callsite) :
    Joins flows plans route (numberRoute (localRoute following.flow following.path) id)
      callsite := by
  cases hcontinues with
  | @argument place calleeProvenance value declaration reference callee name index call target
      hsink horigin hexact htarget hflow hcount =>
      refine ⟨link.flow.callable, call, ?_, rfl, fun hcall => hplain hcall.ends.1⟩
      have hany : ((flowOf flows call.target).any fun target =>
          decide (index < target.parameterCount)) = true := by simp [hflow, hcount]
      simp only [connectingCall, hends.sink, hends.sinkCallable, hsink, numberRoute, localRoute,
        horigin, if_true, hexact, Option.bind_some, hany, and_true]
      exact if_pos htarget
  | @result site value place calleeProvenance callee call hsink horigin hexact htarget =>
    refine ⟨following.flow.callable, call, ?_, rfl, fun hcall => hplain (htarget ▸ hcall.ends.2)⟩
    simp only [connectingCall, hends.sink, hends.sinkCallable, hsink, numberRoute, localRoute,
      horigin, hexact, Option.bind_some]
    exact if_pos htarget

variable {module : String} {start stop : ℕ}

/-- The routes of the call result, as the closure collects them. -/
def matchingRoutes (graph : AuthenticatedEffectValueGraph) (module : String) (start stop : ℕ) :
    List AuthenticatedEffectValueRoute :=
  graph.routes.filter (startsAtCall module start stop)

variable {graph : AuthenticatedEffectValueGraph}

theorem closes_iff :
    closesCallResult graph module start stop [] = true ↔
      graph.incomplete = false ∧
        closesRoutes graph (matchingRoutes graph module start stop) [] = true := by
  unfold closesCallResult matchingRoutes
  cases graph.incomplete <;> simp

theorem mem_matching_iff
    (hcomplete : (buildAuthenticatedEffectValueGraph flows plans).incomplete = false) :
    route ∈ matchingRoutes (buildAuthenticatedEffectValueGraph flows plans) module start stop ↔
      (∃ links, Chain flows plans (baseRoutes flows) links route) ∧
        startsAtCall module start stop route = true := by
  rw [matchingRoutes, mem_filter, mem_routes_iff hcomplete]

/-- A candidate that descends from a route is a longer chain. -/
theorem descendant_chain {links links' : List AuthenticatedEffectValueRoute}
    {candidate : AuthenticatedEffectValueRoute} {callsite : SourceAnchor}
    (hchain : Chain flows plans (baseRoutes flows) links route)
    (hchain' : Chain flows plans (baseRoutes flows) links' candidate)
    (hdescendant : descendantThroughCall route candidate callsite = true) :
    links <+: links' ∧ links.length < links'.length ∧
      candidate.callsites[route.callsites.length]? = some callsite := by
  simp only [descendantThroughCall, Bool.and_eq_true, decide_eq_true_eq,
    isPrefixOf_iff_prefix] at hdescendant
  obtain ⟨⟨hlonger, hgrows⟩, hat⟩ := hdescendant
  rw [hchain.ids, hchain'.ids] at hgrows hlonger
  have hlinks := prefix_of_ids_prefix (numbered_baseRoutes flows) hchain.subset hchain'.subset
    hgrows
  refine ⟨hlinks, ?_, hat⟩
  by_contra hshort
  obtain rfl := hlinks.eq_of_length_le (by omega)
  omega

variable {matching : List AuthenticatedEffectValueRoute}

/-- A route that is expanded has a longer route among the matching ones. -/
theorem exists_longer (hexpanded : routeIsFullyExpanded graph route matching = true) :
    ∃ candidate ∈ matching, ∃ callsite, descendantThroughCall route candidate callsite = true := by
  unfold routeIsFullyExpanded at hexpanded
  split at hexpanded
  · obtain ⟨edge, -, hedge⟩ := (Option.any_eq_true _ _).mp hexpanded
    rw [Bool.and_eq_true] at hedge
    obtain ⟨candidate, hcandidate, hdescendant⟩ := any_eq_true.mp hedge.2
    exact ⟨candidate, hcandidate, _, hdescendant⟩
  · split at hexpanded
    · simp at hexpanded
    · simp only [Bool.and_eq_true, Bool.not_eq_true', isEmpty_eq_false_iff] at hexpanded
      obtain ⟨edge, hedge⟩ := exists_mem_of_ne_nil _ hexpanded.1
      have hall := all_eq_true.mp hexpanded.2 edge hedge
      rw [Bool.and_eq_true] at hall
      obtain ⟨candidate, hcandidate, hdescendant⟩ := any_eq_true.mp hall.2
      exact ⟨candidate, hcandidate, _, hdescendant⟩
  · simp at hexpanded

/-- What the closure asks of the routes that are not expanded. -/
structure GoodEnd (graph : AuthenticatedEffectValueGraph)
    (route : AuthenticatedEffectValueRoute) : Prop where
  unblocked : route.blocked = false
  nonrecursive : ∀ callable ∈ route.callablePath, callable ∉ graph.recursiveCallables
  ends : (∃ site value, route.sink = .await site value) ∨
    route.handlerSink = true ∧ ∃ site value, route.sink = .return site value

theorem goodEnd_of_closes (hcloses : closesRoutes graph matching [] = true)
    (hroute : route ∈ matching) (hunexpanded : routeIsFullyExpanded graph route matching = false) :
    GoodEnd graph route := by
  simp only [closesRoutes, Bool.and_eq_true] at hcloses
  have hgood := all_eq_true.mp hcloses.2 route (mem_filter.mpr ⟨hroute, by simp [hunexpanded]⟩)
  simp only [Bool.and_eq_true, Bool.not_eq_true', any_eq_false, decide_eq_true_eq] at hgood
  obtain ⟨⟨hunblocked, hplain⟩, hends⟩ := hgood
  refine ⟨hunblocked, hplain, ?_⟩
  simp only [endsClosed, not_mem_nil, decide_false, Bool.or_eq_true] at hends
  rcases hends with hends | hends
  · cases hsink : route.sink with
    | await site value => exact Or.inl ⟨site, value, rfl⟩
    | «return» site value =>
      rw [hsink] at hends
      exact Or.inr ⟨hends, site, value, rfl⟩
    | callArgument _ _ _ _ _ => simp [hsink] at hends
  · obtain ⟨callsite, -, hfalse⟩ := (Option.any_eq_true _ _).mp hends
    simp at hfalse

variable {links : List AuthenticatedEffectValueRoute}

/-- Each matching route is the start of one that is not expanded. -/
theorem exists_frontier
    (hcomplete : (buildAuthenticatedEffectValueGraph flows plans).incomplete = false)
    (hchain : Chain flows plans (baseRoutes flows) links route)
    (hroute : route ∈ matchingRoutes (buildAuthenticatedEffectValueGraph flows plans)
      module start stop) :
    ∃ links' candidate, Chain flows plans (baseRoutes flows) links' candidate ∧
      links <+: links' ∧
      candidate ∈ matchingRoutes (buildAuthenticatedEffectValueGraph flows plans)
        module start stop ∧
      routeIsFullyExpanded (buildAuthenticatedEffectValueGraph flows plans) candidate
        (matchingRoutes (buildAuthenticatedEffectValueGraph flows plans)
          module start stop) = false := by
  induction hroom : maxEffectValueDepth - links.length using Nat.strong_induction_on
    generalizing links route with
  | _ room ih =>
    by_cases hexpanded : routeIsFullyExpanded (buildAuthenticatedEffectValueGraph flows plans)
        route (matchingRoutes (buildAuthenticatedEffectValueGraph flows plans)
          module start stop) = true
    · obtain ⟨candidate, hcandidate, callsite, hdescendant⟩ := exists_longer hexpanded
      obtain ⟨⟨links', hchain'⟩, -⟩ := (mem_matching_iff hcomplete).mp hcandidate
      obtain ⟨hgrows, hlonger, -⟩ := descendant_chain hchain hchain' hdescendant
      have hbound := chain_length_le hcomplete hchain'
      obtain ⟨links'', last, hlast, hextends, hmem, hstops⟩ :=
        ih (maxEffectValueDepth - links'.length) (by omega) hchain' hcandidate rfl
      exact ⟨links'', last, hlast, hgrows.trans hextends, hmem, hstops⟩
    · rw [Bool.not_eq_true] at hexpanded
      exact ⟨links, route, hchain, prefix_rfl, hroute, hexpanded⟩

/-- All routes of a closed call result are unblocked and stay out of recursive
callables. -/
theorem matching_good (hcloses : closesCallResult (buildAuthenticatedEffectValueGraph flows plans)
      module start stop [] = true) (hchain : Chain flows plans (baseRoutes flows) links route)
    (hstarts : startsAtCall module start stop route = true) :
    route.blocked = false ∧
      ∀ callable ∈ route.callablePath, ¬RecursiveCallable plans callable := by
  obtain ⟨hcomplete, hroutes⟩ := closes_iff.mp hcloses
  obtain ⟨links', candidate, hchain', hgrows, hmem, hstops⟩ := exists_frontier hcomplete hchain
    ((mem_matching_iff hcomplete).mpr ⟨⟨links, hchain⟩, hstarts⟩)
  have hgood := goodEnd_of_closes hroutes hmem hstops
  constructor
  · have hclear := hgood.unblocked
    rw [hchain'.blocked, any_eq_false] at hclear
    rw [hchain.blocked, any_eq_false]
    exact fun link hlink => hclear link (hgrows.subset hlink)
  · intro callable hcallable
    rw [← mem_recursiveCallables, ← build_recursiveCallables]
    apply hgood.nonrecursive
    rw [hchain.callables, mem_flatMap] at hcallable
    obtain ⟨link, hlink, hcallable⟩ := hcallable
    rw [hchain'.callables, mem_flatMap]
    exact ⟨link, hgrows.subset hlink, hcallable⟩

variable {before : List LocalPath}

/-- A propagation is a chain of local routes. -/
theorem Propagates.exists_chain
    (hcloses : closesCallResult (buildAuthenticatedEffectValueGraph flows plans)
      module start stop [] = true)
    (hpropagates : Propagates flows plans module start stop before link) :
    ∃ links route, Chain flows plans (baseRoutes flows) links route ∧ EndsAt route link ∧
      startsAtCall module start stop route = true ∧ links.length = before.length + 1 := by
  induction hpropagates with
  | @start link hlisted hstarts =>
    obtain ⟨id, hbase⟩ := exists_baseRoute hlisted.1 hlisted.2
    refine ⟨_, _, Chain.single hbase, endsAt_localRoute link id, ?_, rfl⟩
    obtain ⟨callsite, callee, calleeProvenance, horigin, rfl, rfl, rfl⟩ := hstarts
    simp [startsAtCall, numberRoute, localRoute, horigin]
  | @next before link following callsite _ hlisted hcontinues ih =>
    obtain ⟨links, route, hchain, hends, hstarts, hlength⟩ := ih
    have hplain := (matching_good hcloses hchain hstarts).2 _ hends.callable
    obtain ⟨id, hbase⟩ := exists_baseRoute hlisted.1 hlisted.2
    have hjoins := joins_of_continues id hends hplain hcontinues
    exact ⟨_, _, Chain.extend hchain hbase hjoins, (endsAt_localRoute following id).join,
      hstarts, by simp [hlength]⟩

/-- A descendant of a route shows that the value goes on from its last path. -/
theorem continues_of_descendant {links : List AuthenticatedEffectValueRoute}
    {matching : List AuthenticatedEffectValueRoute} {callsite : SourceAnchor}
    (hmatching : ∀ candidate ∈ matching,
      ∃ links', Chain flows plans (baseRoutes flows) links' candidate)
    (hchain : Chain flows plans (baseRoutes flows) links route) (hends : EndsAt route link)
    (hany : (matching.any fun candidate =>
      descendantThroughCall route candidate callsite) = true) :
    ∃ following : LocalPath, following.Listed flows ∧
      Continues flows plans link following callsite := by
  obtain ⟨candidate, hcandidate, hdescendant⟩ := any_eq_true.mp hany
  obtain ⟨links', hchain'⟩ := hmatching candidate hcandidate
  obtain ⟨hgrows, hlonger, hat⟩ := descendant_chain hchain hchain' hdescendant
  obtain ⟨next, hnext, callsite', hjoins, hat'⟩ := hchain.goes_on hchain' hgrows hlonger
  obtain rfl : callsite = callsite' := by simpa [hat] using hat'
  exact continues_of_joins hends hnext hjoins

/-- The last path of each propagation of a closed call result may carry it. -/
theorem Propagates.carries
    (hcloses : closesCallResult (buildAuthenticatedEffectValueGraph flows plans)
      module start stop [] = true)
    (hpropagates : Propagates flows plans module start stop before link) :
    before.length < maxEffectValueDepth ∧ Carries flows plans link := by
  obtain ⟨links, route, hchain, hends, hstarts, hlength⟩ := hpropagates.exists_chain hcloses
  obtain ⟨hcomplete, hroutes⟩ := closes_iff.mp hcloses
  obtain ⟨hunblocked, hplain⟩ := matching_good hcloses hchain hstarts
  have hmem := (mem_matching_iff hcomplete).mpr ⟨⟨links, hchain⟩, hstarts⟩
  have hmatching : ∀ candidate ∈ matchingRoutes (buildAuthenticatedEffectValueGraph flows plans)
      module start stop, ∃ links', Chain flows plans (baseRoutes flows) links' candidate :=
    fun candidate hcandidate => ((mem_matching_iff hcomplete).mp hcandidate).1
  have hbound := chain_length_le hcomplete hchain
  have hexpanded : ¬link.Ends →
      routeIsFullyExpanded (buildAuthenticatedEffectValueGraph flows plans) route
        (matchingRoutes (buildAuthenticatedEffectValueGraph flows plans)
          module start stop) = true := by
    intro hopen
    by_contra hstops
    rw [Bool.not_eq_true] at hstops
    apply hopen
    unfold LocalPath.Ends
    rw [← hends.sink, ← hends.handlerSink]
    rcases (goodEnd_of_closes hroutes hmem hstops).ends with
      ⟨site, value, hsink⟩ | ⟨hhandler, site, value, hsink⟩
    · simp [hsink]
    · simp [hsink, hhandler]
  have hinbound : ¬link.Ends → (∃ site value, link.path.sink = .return site value) →
      (∃ caller call, (caller, call) ∈ plannedCalls plans ∧ call.target = link.flow.callable) ∧
      ∀ caller call, (caller, call) ∈ plannedCalls plans → call.target = link.flow.callable →
        exactCallAt plans caller call.callsite = some call ∧
          ∃ following : LocalPath, following.Listed flows ∧
            Continues flows plans link following call.callsite := by
    intro hopen hreturn
    obtain ⟨site, value, hsink⟩ := hreturn
    have hhandler : route.handlerSink = false := by
      rw [hends.handlerSink]
      by_contra hhandler
      exact hopen (by simp [LocalPath.Ends, hsink, hhandler])
    have hroute := hexpanded hopen
    simp only [routeIsFullyExpanded, hends.sink, hsink, hhandler, build_callEdges,
      hends.sinkCallable, Bool.false_eq_true, if_false, Bool.and_eq_true, Bool.not_eq_true',
      isEmpty_eq_false_iff] at hroute
    obtain ⟨hcalled, hall⟩ := hroute
    constructor
    · obtain ⟨edge, hedge⟩ := exists_mem_of_ne_nil _ hcalled
      obtain ⟨hedge, htarget⟩ := mem_filter.mp hedge
      obtain ⟨caller, call, hplanned, rfl⟩ := mem_callEdges.mp hedge
      exact ⟨caller, call, hplanned, by simpa using htarget⟩
    · intro caller call hplanned htarget
      have hedge := all_eq_true.mp hall _ (mem_filter.mpr
        ⟨mem_callEdges.mpr ⟨caller, call, hplanned, rfl⟩, by simpa using htarget⟩)
      rw [Bool.and_eq_true] at hedge
      exact ⟨exactCallAt_of_composable hplanned hedge.1,
        continues_of_descendant hmatching hchain hends hedge.2⟩
  refine ⟨by omega, ⟨?_, ?_, ?_, ?_⟩⟩
  · intro hblocked
    rw [hends.blocked hblocked] at hunblocked
    simp at hunblocked
  · exact hplain _ hends.callable
  · intro hopen
    cases hsink : link.path.sink with
    | await site value => exact absurd (by simp [LocalPath.Ends, hsink]) hopen
    | «return» site value =>
      obtain ⟨⟨caller, call, hplanned, htarget⟩, hall⟩ := hinbound hopen ⟨site, value, hsink⟩
      obtain ⟨-, following, hlisted, hcontinues⟩ := hall caller call hplanned htarget
      exact ⟨following, _, hlisted, hcontinues⟩
    | callArgument callsite callee calleeProvenance argumentIndex value =>
      have hroute := hexpanded hopen
      simp only [routeIsFullyExpanded, hends.sink, hsink] at hroute
      obtain ⟨edge, -, hedge⟩ := (Option.any_eq_true _ _).mp hroute
      rw [Bool.and_eq_true] at hedge
      obtain ⟨following, hlisted, hcontinues⟩ :=
        continues_of_descendant hmatching hchain hends hedge.2
      exact ⟨following, _, hlisted, hcontinues⟩
  · intro hopen hreturn
    exact (hinbound hopen hreturn).2

end ConvexWasm.Compiler.EffectValueGraph
