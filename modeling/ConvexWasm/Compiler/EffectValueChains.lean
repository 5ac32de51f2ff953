import ConvexWasm.Compiler.EffectValueGraph

/-!
# Routes as chains of local routes

Every composed route is a chain of local routes, each joined to the next by an
exact call that is not recursive.  The chain is read off the identifiers of
the route, so a route that extends another one is a longer chain.
-/

namespace ConvexWasm.Compiler.EffectValueGraph

open BoundedClosure ControlPlans List

section Joins

variable (flows : List AuthenticatedCallableEffectValueFlow) (plans : List CallableControlPlan)

def IsRecursiveCall (plans : List CallableControlPlan) (caller : CallableKey)
    (call : CallableControlCallPlan) : Prop :=
  ∃ edge ∈ callEdges plans, edge.recursive = true ∧ edge.caller = caller ∧
    edge.callsite = call.callsite ∧ edge.target = call.target

/-- The value of the first route flows into the second through a call that is not
recursive. -/
def Joins (first second : AuthenticatedEffectValueRoute) (callsite : SourceAnchor) : Prop :=
  ∃ caller call, connectingCall flows plans first second = some (caller, call) ∧
    call.callsite = callsite ∧ ¬IsRecursiveCall plans caller call

variable {flows plans} {first second route : AuthenticatedEffectValueRoute}
  {callsite : SourceAnchor}

theorem composeRoutes_of_joins (hjoins : Joins flows plans first second callsite) :
    composeRoutes flows plans first second =
      if maxEffectValueDepth < first.callablePath.length + second.callablePath.length then .tooLong
      else .composed (joinRoutes first second callsite) := by
  obtain ⟨caller, call, hcall, rfl, hplain⟩ := hjoins
  have hany : ((callEdges plans).any fun edge =>
      edge.recursive && decide (edge.caller = caller) &&
        decide (edge.callsite = call.callsite) && decide (edge.target = call.target)) = false := by
    rw [any_eq_false]
    intro edge hedge hmatches
    simp only [Bool.and_eq_true, decide_eq_true_eq] at hmatches
    exact hplain ⟨edge, hedge, hmatches.1.1.1, hmatches.1.1.2, hmatches.1.2, hmatches.2⟩
  unfold composeRoutes
  simp only [hcall, hany, composeEffectValueRoutes, length_append]
  rfl

theorem composeRoutes_of_apart (hapart : ¬∃ callsite, Joins flows plans first second callsite) :
    composeRoutes flows plans first second = .apart := by
  unfold composeRoutes
  cases hcall : connectingCall flows plans first second with
  | none => rfl
  | some connection =>
    obtain ⟨caller, call⟩ := connection
    have hrecursive : IsRecursiveCall plans caller call := by
      by_contra hplain
      exact hapart ⟨call.callsite, caller, call, hcall, rfl, hplain⟩
    obtain ⟨edge, hedge, hmarked, hcaller, hcallsite, htarget⟩ := hrecursive
    have hany : ((callEdges plans).any fun edge =>
        edge.recursive && decide (edge.caller = caller) &&
          decide (edge.callsite = call.callsite) &&
          decide (edge.target = call.target)) = true :=
      any_eq_true.mpr ⟨edge, hedge, by simp [hmarked, hcaller, hcallsite, htarget]⟩
    simp [hany]

theorem composeRoutes_eq_composed_iff :
    composeRoutes flows plans first second = .composed route ↔
      ∃ callsite, Joins flows plans first second callsite ∧
        first.callablePath.length + second.callablePath.length ≤ maxEffectValueDepth ∧
        route = joinRoutes first second callsite := by
  by_cases hjoins : ∃ callsite, Joins flows plans first second callsite
  · obtain ⟨callsite, hjoins⟩ := hjoins
    rw [composeRoutes_of_joins hjoins]
    constructor
    · intro hcomposed
      split at hcomposed
      · simp at hcomposed
      · next hshort =>
          exact ⟨callsite, hjoins, by omega, by simpa using hcomposed.symm⟩
    · intro h
      obtain ⟨callsite', hjoins', hshort, rfl⟩ := h
      rw [if_neg (by omega)]
      obtain ⟨caller, call, hcall, rfl, -⟩ := hjoins
      obtain ⟨caller', call', hcall', rfl, -⟩ := hjoins'
      rw [hcall] at hcall'
      obtain ⟨rfl, rfl⟩ : caller = caller' ∧ call = call' := by simpa using hcall'
      rfl
  · rw [composeRoutes_of_apart hjoins]
    constructor
    · simp
    · intro h
      obtain ⟨callsite, hjoined, -⟩ := h
      exact absurd ⟨callsite, hjoined⟩ hjoins

theorem Joins.callsite_unique {callsite' : SourceAnchor}
    (hjoins : Joins flows plans first second callsite)
    (hjoins' : Joins flows plans first second callsite') : callsite = callsite' := by
  obtain ⟨caller, call, hcall, rfl, -⟩ := hjoins
  obtain ⟨caller', call', hcall', rfl, -⟩ := hjoins'
  rw [hcall] at hcall'
  obtain ⟨-, rfl⟩ : caller = caller' ∧ call = call' := by simpa using hcall'
  rfl

theorem joinRoutes_assoc (first second third : AuthenticatedEffectValueRoute)
    (callsite callsite' : SourceAnchor) :
    joinRoutes (joinRoutes first second callsite) third callsite' =
      joinRoutes first (joinRoutes second third callsite') callsite := by
  simp [joinRoutes, Bool.or_assoc]

end Joins

section Chains

variable (flows : List AuthenticatedCallableEffectValueFlow) (plans : List CallableControlPlan)
  (base : List AuthenticatedEffectValueRoute)

/-- The route that a list of local routes composes to. -/
inductive Chain : List AuthenticatedEffectValueRoute → AuthenticatedEffectValueRoute → Prop
  | single {route : AuthenticatedEffectValueRoute} : route ∈ base → Chain [route] route
  | extend {links : List AuthenticatedEffectValueRoute}
      {route next : AuthenticatedEffectValueRoute} {callsite : SourceAnchor} :
      Chain links route → next ∈ base → Joins flows plans route next callsite →
        Chain (links ++ [next]) (joinRoutes route next callsite)

/-- A base of numbered local routes. -/
structure Numbered : Prop where
  callable : ∀ route ∈ base, route.callablePath = [route.sinkCallable]
  callsites : ∀ route ∈ base, route.callsites = []
  numbered : ∀ route ∈ base, ∃ id, route.basePathIds = [id]
  unique : ∀ route ∈ base, ∀ other ∈ base, route.basePathIds = other.basePathIds → route = other

variable {flows plans base} {links : List AuthenticatedEffectValueRoute}
  {route : AuthenticatedEffectValueRoute}

section

variable (hchain : Chain flows plans base links route)
include hchain

theorem Chain.ne_nil : links ≠ [] := by
  cases hchain <;> simp

theorem Chain.subset : ∀ link ∈ links, link ∈ base := by
  induction hchain with
  | single hroute => simpa using hroute
  | extend _ hnext _ ih =>
    intro link hlink
    rcases mem_append.mp hlink with hlink | hlink
    · exact ih link hlink
    · rw [mem_singleton.mp hlink]
      exact hnext

theorem Chain.ids : route.basePathIds = links.flatMap (·.basePathIds) := by
  induction hchain with
  | single _ => simp
  | extend _ _ _ ih => simp [joinRoutes, ih]

theorem Chain.callables : route.callablePath = links.flatMap (·.callablePath) := by
  induction hchain with
  | single _ => simp
  | extend _ _ _ ih => simp [joinRoutes, ih]

end

theorem Chain.blocked (hchain : Chain flows plans base links route) :
    route.blocked = links.any (·.blocked) := by
  induction hchain with
  | single _ => simp
  | extend _ _ _ ih => simp [joinRoutes, ih]

theorem Chain.length_callables (hnumbered : Numbered base)
    (hchain : Chain flows plans base links route) : route.callablePath.length = links.length := by
  induction hchain with
  | single hroute => simp [hnumbered.callable _ hroute]
  | extend _ hnext _ ih => simp [joinRoutes, ih, hnumbered.callable _ hnext]

variable {route' : AuthenticatedEffectValueRoute}

theorem Chain.unique (hchain : Chain flows plans base links route)
    (hchain' : Chain flows plans base links route') : route = route' := by
  induction hchain generalizing route' with
  | single _ =>
    generalize hlinks : [_] = links at hchain'
    cases hchain' with
    | single _ => simpa using hlinks
    | extend hgrows _ _ =>
      have hlength := congrArg List.length hlinks
      simp only [length_singleton, length_append] at hlength
      exact absurd (eq_nil_of_length_eq_zero (by omega)) hgrows.ne_nil
  | extend hgrows _ hjoins ih =>
    generalize hlinks : _ ++ [_] = links at hchain'
    cases hchain' with
    | single _ =>
      have hlength := congrArg List.length hlinks
      simp only [length_singleton, length_append] at hlength
      exact absurd (eq_nil_of_length_eq_zero (by omega)) hgrows.ne_nil
    | extend hgrows' _ hjoins' =>
      obtain ⟨rfl, hlast⟩ := append_inj' hlinks rfl
      obtain rfl := singleton_injective hlast
      obtain rfl := ih hgrows'
      rw [hjoins.callsite_unique hjoins']

variable {links' : List AuthenticatedEffectValueRoute}

/-- Two chains join when the first reaches the second. -/
theorem Chain.join {callsite : SourceAnchor} (hfirst : Chain flows plans base links route)
    (hsecond : Chain flows plans base links' route')
    (hjoins : Joins flows plans route route' callsite) :
    Chain flows plans base (links ++ links') (joinRoutes route route' callsite) := by
  induction hsecond with
  | single hmem => exact Chain.extend hfirst hmem hjoins
  | extend _ hnext hlast ih =>
    rw [← append_assoc, ← joinRoutes_assoc]
    exact Chain.extend (ih hjoins) hnext hlast

/-- The routes generated from the base are its chains up to the depth limit. -/
theorem generated_iff_chain (hnumbered : Numbered base) :
    Generated (composeRoutes flows plans) (· ∈ base) route ↔
      ∃ links, Chain flows plans base links route ∧ links.length ≤ maxEffectValueDepth := by
  constructor
  · intro hroute
    induction hroute with
    | given hmem => exact ⟨[_], Chain.single hmem, by simp [maxEffectValueDepth]⟩
    | composed _ _ hcomposed hfirst hsecond =>
      obtain ⟨links, hchain, -⟩ := hfirst
      obtain ⟨links', hchain', -⟩ := hsecond
      obtain ⟨callsite, hjoins, hshort, rfl⟩ := composeRoutes_eq_composed_iff.mp hcomposed
      rw [hchain.length_callables hnumbered, hchain'.length_callables hnumbered] at hshort
      exact ⟨links ++ links', hchain.join hchain' hjoins, by simpa using hshort⟩
  · intro h
    obtain ⟨links, hchain, hshort⟩ := h
    induction hchain with
    | single hmem => exact Generated.given hmem
    | extend hgrows hnext hjoins ih =>
      rw [length_append, length_singleton] at hshort
      refine Generated.composed (ih (by omega)) (Generated.given hnext) ?_
      rw [composeRoutes_eq_composed_iff]
      refine ⟨_, hjoins, ?_, rfl⟩
      rw [hgrows.length_callables hnumbered, hnumbered.callable _ hnext]
      exact hshort

/-- When nothing is too long, no chain is. -/
theorem Chain.length_le (hnumbered : Numbered base)
    (hshort : ∀ first second, Generated (composeRoutes flows plans) (· ∈ base) first →
      Generated (composeRoutes flows plans) (· ∈ base) second →
        composeRoutes flows plans first second ≠ .tooLong)
    (hchain : Chain flows plans base links route) : links.length ≤ maxEffectValueDepth := by
  induction hchain with
  | single _ => simp [maxEffectValueDepth]
  | extend hgrows hnext hjoins ih =>
    by_contra hlong
    have hroute := (generated_iff_chain hnumbered).mpr ⟨_, hgrows, ih⟩
    apply hshort _ _ hroute (Generated.given hnext)
    rw [composeRoutes_of_joins hjoins, if_pos]
    rw [hgrows.length_callables hnumbered, hnumbered.callable _ hnext]
    simpa using hlong

/-- A chain that starts with another one goes on from it through some callsite. -/
theorem Chain.goes_on (hchain : Chain flows plans base links route)
    (hchain' : Chain flows plans base links' route') (hgrows : links <+: links')
    (hlonger : links.length < links'.length) :
    ∃ next ∈ base, ∃ callsite, Joins flows plans route next callsite ∧
      route'.callsites[route.callsites.length]? = some callsite := by
  induction hchain' with
  | single _ =>
    have hempty : links = [] := eq_nil_of_length_eq_zero (by simpa using hlonger)
    exact absurd hempty hchain.ne_nil
  | @extend links' route' next callsite hbefore hnext hjoins ih =>
    have hshorter : links.length ≤ links'.length := by
      rw [length_append, length_singleton] at hlonger
      omega
    have hinner : links <+: links' :=
      prefix_of_prefix_length_le hgrows (prefix_append _ _) hshorter
    by_cases hsame : links.length = links'.length
    · obtain rfl := hinner.eq_of_length hsame
      obtain rfl := hchain.unique hbefore
      exact ⟨next, hnext, callsite, hjoins, by simp [joinRoutes]⟩
    · obtain ⟨found, hfound, callsite', hjoins', hat⟩ := ih hinner (by omega)
      refine ⟨found, hfound, callsite', hjoins', ?_⟩
      have hlt := (List.getElem?_eq_some_iff.mp hat).1
      simpa [joinRoutes, List.getElem?_append_left hlt] using hat

/-- The identifiers tell the chains apart. -/
theorem prefix_of_ids_prefix (hnumbered : Numbered base) (hlinks : ∀ link ∈ links, link ∈ base)
    (hlinks' : ∀ link ∈ links', link ∈ base)
    (hgrows : links.flatMap (·.basePathIds) <+: links'.flatMap (·.basePathIds)) :
    links <+: links' := by
  induction links generalizing links' with
  | nil => exact nil_prefix
  | cons link rest ih =>
    obtain ⟨id, hid⟩ := hnumbered.numbered link (hlinks link mem_cons_self)
    cases links' with
    | nil => simp [hid] at hgrows
    | cons link' rest' =>
      have hmem' := hlinks' link' mem_cons_self
      obtain ⟨id', hid'⟩ := hnumbered.numbered link' hmem'
      simp only [flatMap_cons, hid, hid', singleton_append,
        cons_prefix_cons] at hgrows
      obtain ⟨rfl, hrest⟩ := hgrows
      obtain rfl : link = link' :=
        hnumbered.unique link (hlinks link mem_cons_self) link' hmem' (hid.trans hid'.symm)
      exact (prefix_cons_inj link).mpr
        (ih (fun other hother => hlinks other (mem_cons_of_mem _ hother))
          (fun other hother => hlinks' other (mem_cons_of_mem _ hother)) hrest)

end Chains

end ConvexWasm.Compiler.EffectValueGraph
