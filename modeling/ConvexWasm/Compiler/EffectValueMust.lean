import ConvexWasm.Compiler.EffectValueRenumbering

/-!
# Closure of a call result is a must property

A call result that the graph closes is consumed on every propagation, whatever
order the inputs are listed in.  A composition that a limit cuts leaves the
graph incomplete, and an incomplete graph closes nothing.
-/

namespace ConvexWasm.Compiler.EffectValueGraph

open BoundedClosure ControlPlans List

variable {flows : List AuthenticatedCallableEffectValueFlow} {plans : List CallableControlPlan}

/-- A limit has cut something: a local path has no route, or two routes that join
have no route together. -/
def Cut (flows : List AuthenticatedCallableEffectValueFlow) (plans : List CallableControlPlan) :
    Prop :=
  (∃ flow ∈ flows, ∃ path ∈ flow.paths, ∀ id, numberRoute (localRoute flow path) id ∉
    (buildAuthenticatedEffectValueGraph flows plans).routes) ∨
  ∃ first ∈ (buildAuthenticatedEffectValueGraph flows plans).routes,
    ∃ second ∈ (buildAuthenticatedEffectValueGraph flows plans).routes,
      ∃ callsite, Joins flows plans first second callsite ∧
        joinRoutes first second callsite ∉
          (buildAuthenticatedEffectValueGraph flows plans).routes

theorem incomplete_of_cut (hcut : Cut flows plans) :
    (buildAuthenticatedEffectValueGraph flows plans).incomplete = true := by
  by_contra hcomplete
  rw [Bool.not_eq_true] at hcomplete
  rcases hcut with ⟨flow, hflow, path, hpath, hmissing⟩ |
    ⟨first, hfirst, second, hsecond, callsite, hjoins, hmissing⟩
  · obtain ⟨id, hbase⟩ := exists_baseRoute hflow hpath
    exact hmissing id ((mem_routes_iff hcomplete).mpr ⟨_, Chain.single hbase⟩)
  · obtain ⟨links, hchain⟩ := (mem_routes_iff hcomplete).mp hfirst
    obtain ⟨links', hchain'⟩ := (mem_routes_iff hcomplete).mp hsecond
    exact hmissing ((mem_routes_iff hcomplete).mpr ⟨_, hchain.join hchain' hjoins⟩)

theorem closes_eq_false_of_incomplete {graph : AuthenticatedEffectValueGraph}
    (hincomplete : graph.incomplete = true) (module : String) (start stop : ℕ) :
    closesCallResult graph module start stop [] = false := by
  simp [closesCallResult, hincomplete]

variable {flows' : List AuthenticatedCallableEffectValueFlow} {plans' : List CallableControlPlan}

theorem Reordered.symm (hreordered : Reordered flows flows') : Reordered flows' flows := by
  obtain ⟨middle, hperm, hsame⟩ := hreordered
  obtain ⟨middle', hsame', hperm'⟩ := List.perm_comp_forall₂ hperm hsame
  exact ⟨middle', hperm'.symm, hsame'.flip.imp fun _ _ h => SamePaths.symm h⟩

theorem incomplete_reordered (honce : ListedOnce flows) (hreordered : Reordered flows flows')
    (hplans : plans.Perm plans') :
    (buildAuthenticatedEffectValueGraph flows' plans').incomplete =
      (buildAuthenticatedEffectValueGraph flows plans).incomplete := by
  have honce' := honce.reordered hreordered
  obtain ⟨order, horder⟩ := exists_renumbering (localRoutes_reordered honce hreordered)
  obtain ⟨order', horder'⟩ := exists_renumbering (localRoutes_reordered honce' hreordered.symm)
  rw [Bool.eq_iff_iff, ← Bool.not_eq_false, ← Bool.not_eq_false, not_iff_not]
  exact ⟨complete_of_reordered honce' hreordered.symm hplans.symm horder',
    complete_of_reordered honce hreordered hplans horder⟩

/-- A closed call result is carried on along every propagation until an await or a
handler's return; the answers and the routes of a complete graph do not depend
on the order of inputs that list everything once; and a cut leaves nothing
closed. -/
theorem closed_call_result_must (flows : List AuthenticatedCallableEffectValueFlow)
    (plans : List CallableControlPlan) :
    (∀ module start stop,
      closesCallResult (buildAuthenticatedEffectValueGraph flows plans) module start stop [] =
          true →
        ∀ before link, Propagates flows plans module start stop before link →
          before.length < maxEffectValueDepth ∧ Carries flows plans link) ∧
    (ListedOnce flows → ∀ flows' plans', Reordered flows flows' → plans.Perm plans' →
      (buildAuthenticatedEffectValueGraph flows' plans').incomplete =
          (buildAuthenticatedEffectValueGraph flows plans).incomplete ∧
        ((buildAuthenticatedEffectValueGraph flows plans).incomplete = false →
          ∃ order : Equiv.Perm ℕ, ∀ route,
            route ∈ (buildAuthenticatedEffectValueGraph flows' plans').routes ↔
              ∃ origin, origin ∈ (buildAuthenticatedEffectValueGraph flows plans).routes ∧
                renumber order origin = route) ∧
        ∀ module start stop,
          closesCallResult (buildAuthenticatedEffectValueGraph flows' plans')
              module start stop [] =
            closesCallResult (buildAuthenticatedEffectValueGraph flows plans)
              module start stop []) ∧
    (Cut flows plans → (buildAuthenticatedEffectValueGraph flows plans).incomplete = true) ∧
    ((buildAuthenticatedEffectValueGraph flows plans).incomplete = true →
      ∀ module start stop, closesCallResult (buildAuthenticatedEffectValueGraph flows plans)
        module start stop [] = false) := by
  refine ⟨?_, ?_, incomplete_of_cut, closes_eq_false_of_incomplete⟩
  · intro module start stop hcloses before link hpropagates
    exact hpropagates.carries hcloses
  · intro honce flows' plans' hreordered hplans
    obtain ⟨order, horder⟩ := exists_renumbering (localRoutes_reordered honce hreordered)
    have hincomplete := incomplete_reordered honce hreordered hplans
    refine ⟨hincomplete, ?_, ?_⟩
    · intro hcomplete
      exact ⟨order, mem_routes_reordered honce hreordered hplans horder hcomplete⟩
    · intro module start stop
      cases hflag : (buildAuthenticatedEffectValueGraph flows plans).incomplete with
      | false =>
        exact closesCallResult_reordered honce hreordered hplans horder hflag module start stop
      | true =>
        rw [closes_eq_false_of_incomplete hflag,
          closes_eq_false_of_incomplete (hincomplete.trans hflag)]

def sampleAnchor (start stop : ℕ) : SourceAnchor := ⟨"main.ts", "source", start, stop, "slice"⟩

def sampleCallable (unitId : String) : CallableKey := ⟨"main.ts", unitId⟩

/-- The path of a call result to a sink. -/
def samplePath (start : ℕ) (sink : AuthenticatedEffectValueSink) : AuthenticatedEffectValuePath :=
  ⟨.callResult (sampleAnchor start (start + 5)) "load" (sampleAnchor start (start + 4)), [], sink⟩

def sampleFlow (unitId : String) (handler : Bool) (paths : List AuthenticatedEffectValuePath) :
    AuthenticatedCallableEffectValueFlow :=
  ⟨sampleCallable unitId, sampleAnchor 0 100, 0, handler, paths, []⟩

def samplePlan (unitId : String) (calls : List CallableControlCallPlan) : CallableControlPlan where
  callable := sampleCallable unitId
  callableSource := sampleAnchor 0 100
  skeleton := ⟨0, 100, 0, [⟨0, false, [], []⟩], []⟩
  sourceEffects := []
  effects := []
  calls := calls

def sampleCall (start : ℕ) (target : String) : CallableControlCallPlan where
  callsite := sampleAnchor start (start + 5)
  target := sampleCallable target
  targetSource := sampleAnchor 0 100
  block := 0
  position := .synchronous
  dispatchExact := true
  argumentsSafe := true
  arguments := []

/-- A helper returns the result of its call to the handler, which awaits it. -/
def sampleFlows : List AuthenticatedCallableEffectValueFlow :=
  [sampleFlow "helper" false [samplePath 10 (.return (sampleAnchor 9 16) (sampleAnchor 10 15))],
    sampleFlow "handler" true [samplePath 50 (.await (sampleAnchor 49 56) (sampleAnchor 50 55))]]

def samplePlans : List CallableControlPlan :=
  [samplePlan "helper" [], samplePlan "handler" [sampleCall 50 "helper"]]

theorem closed_call_result_must_sample :
    (∀ before link, Propagates sampleFlows samplePlans "main.ts" 10 15 before link →
      before.length < maxEffectValueDepth ∧ Carries sampleFlows samplePlans link) ∧
    closesCallResult (buildAuthenticatedEffectValueGraph sampleFlows.reverse samplePlans.reverse)
      "main.ts" 10 15 [] = true := by
  have hsame : ∀ flow, SamePaths flow flow := fun flow =>
    ⟨rfl, rfl, rfl, rfl, List.Perm.refl _⟩
  have honce : ListedOnce sampleFlows := ⟨by decide, by decide⟩
  have hreordered : Reordered sampleFlows sampleFlows.reverse :=
    ⟨sampleFlows.reverse, (reverse_perm _).symm,
      List.forall₂_same.mpr fun flow _ => hsame flow⟩
  have hcloses : closesCallResult (buildAuthenticatedEffectValueGraph sampleFlows samplePlans)
      "main.ts" 10 15 [] = true := by decide
  constructor
  · exact (closed_call_result_must sampleFlows samplePlans).1 "main.ts" 10 15 hcloses
  · rw [((closed_call_result_must sampleFlows samplePlans).2.1 honce _ _ hreordered
      (reverse_perm _).symm).2.2]
    exact hcloses

section Repeated

variable {α : Type*}

variable (first second : α) (count : ℕ)

/-- Two values in turn. -/
def alternating : List α :=
  (List.replicate count [first, second]).flatten

/-- One value as often as the other, each in a block of its own. -/
def grouped : List α :=
  List.replicate count first ++ List.replicate count second

theorem alternating_succ :
    alternating first second (count + 1) = first :: second :: alternating first second count := by
  simp [alternating, replicate_succ]

theorem alternating_perm : (alternating first second count).Perm (grouped first second count) := by
  induction count with
  | zero => exact List.Perm.refl _
  | succ count ih =>
    exact ((ih.cons second).trans perm_middle.symm).cons first

theorem map_alternating {β : Type*} (f : α → β) (first second : α) (count : ℕ) :
    (alternating first second count).map f = alternating (f first) (f second) count := by
  simp [alternating, map_flatten]

theorem length_alternating : (alternating first second count).length = 2 * count := by
  induction count with
  | zero => rfl
  | succ count ih =>
    rw [alternating_succ, length_cons, length_cons, ih]
    omega

theorem alternating_isChain {first second : α} (hne : first ≠ second) (count : ℕ) :
    (alternating first second count).IsChain (· ≠ ·) := by
  have hboth : ∀ count, (second :: alternating first second count).IsChain (· ≠ ·) := by
    intro count
    induction count with
    | zero => exact isChain_singleton second
    | succ count ih =>
      exact List.IsChain.cons_cons hne.symm (List.IsChain.cons_cons hne ih)
  cases count with
  | zero => exact isChain_nil
  | succ count =>
    exact List.IsChain.cons_cons hne (hboth count)

theorem destutter_grouped [DecidableEq α] {first second : α} (hne : first ≠ second)
    (count : ℕ) : (grouped first second (count + 1)).destutter (· ≠ ·) = [first, second] := by
  have hblock : ∀ (value : α) (n : ℕ) (rest : List α),
      (List.replicate n value ++ rest).destutter' (· ≠ ·) value = rest.destutter' (· ≠ ·) value := by
    intro value n rest
    induction n with
    | zero => rfl
    | succ n ih =>
      rw [replicate_succ, cons_append, List.destutter'_cons_neg _ (by simp), ih]
  rw [grouped, replicate_succ, cons_append, destutter_cons', hblock,
    replicate_succ, List.destutter'_cons_pos _ hne]
  have htail := hblock second count []
  rw [List.append_nil] at htail
  rw [htail]
  rfl

end Repeated

/-- Two awaited call results of the handler. -/
def firstAwait : AuthenticatedEffectValuePath :=
  samplePath 10 (.await (sampleAnchor 9 16) (sampleAnchor 10 15))

def secondAwait : AuthenticatedEffectValuePath :=
  samplePath 50 (.await (sampleAnchor 49 56) (sampleAnchor 50 55))

def handlerFlow (paths : List AuthenticatedEffectValuePath) :
    List AuthenticatedCallableEffectValueFlow := [sampleFlow "handler" true paths]

/-- The local routes of one callable keep the order of their paths. -/
theorem localRoutes_handlerFlow (paths : List AuthenticatedEffectValuePath) :
    localRoutes (handlerFlow paths) =
      (paths.map (localRoute (sampleFlow "handler" true []))).destutter (· ≠ ·) := by
  have hroutes : (handlerFlow paths).flatMap (fun flow => flow.paths.map (localRoute flow)) =
      paths.map (localRoute (sampleFlow "handler" true [])) := by
    simp only [handlerFlow, flatMap_cons, flatMap_nil, List.append_nil]
    rfl
  rw [localRoutes, hroutes, List.Pairwise.insertionSort_eq]
  rw [pairwise_map]
  exact pairwise_of_forall fun _ _ => le_of_eq rfl

theorem localRoute_awaits_ne : localRoute (sampleFlow "handler" true []) firstAwait ≠
    localRoute (sampleFlow "handler" true []) secondAwait :=
  (localRoute_injective _).ne (by decide)

theorem composeRoutes_without_plans (flows : List AuthenticatedCallableEffectValueFlow) :
    composeRoutes flows [] = fun _ _ => .apart := by
  funext first second
  apply composeRoutes_of_apart
  intro h
  obtain ⟨callsite, caller, call, hcall, -⟩ := h
  unfold connectingCall at hcall
  split at hcall
  · split at hcall <;> simp [exactCallAt, callsAt, plannedCalls] at hcall
  · simp [exactCallAt, callsAt, plannedCalls] at hcall
  · simp at hcall

/-- Listing two paths in turn passes the limit on the routes, listing them in blocks
does not: the same paths in another order change the answer. -/
theorem closes_depends_on_path_order :
    Reordered (handlerFlow (alternating firstAwait secondAwait 513))
        (handlerFlow (grouped firstAwait secondAwait 513)) ∧
      closesCallResult (buildAuthenticatedEffectValueGraph
        (handlerFlow (alternating firstAwait secondAwait 513)) []) "main.ts" 10 15 [] = false ∧
      closesCallResult (buildAuthenticatedEffectValueGraph
        (handlerFlow (grouped firstAwait secondAwait 513)) []) "main.ts" 10 15 [] = true := by
  refine ⟨⟨_, List.Perm.refl _, List.Forall₂.cons
    ⟨rfl, rfl, rfl, rfl, alternating_perm _ _ _⟩ List.Forall₂.nil⟩, ?_, ?_⟩
  · apply closes_eq_false_of_incomplete
    rw [build_of_many]
    rw [baseRoutes, numberRoutes, length_map, length_zipIdx, localRoutes_handlerFlow,
      map_alternating, destutter_of_isChain _ _ (alternating_isChain localRoute_awaits_ne 513),
      length_alternating]
    decide
  · have hlocal : localRoutes (handlerFlow (grouped firstAwait secondAwait 513)) =
        localRoutes (handlerFlow [firstAwait, secondAwait]) := by
      rw [localRoutes_handlerFlow, localRoutes_handlerFlow, grouped, map_append,
        map_replicate, map_replicate]
      change (grouped _ _ (512 + 1)).destutter (· ≠ ·) = _
      rw [destutter_grouped localRoute_awaits_ne]
      rfl
    have hbuild : buildAuthenticatedEffectValueGraph
        (handlerFlow (grouped firstAwait secondAwait 513)) [] =
          buildAuthenticatedEffectValueGraph (handlerFlow [firstAwait, secondAwait]) [] := by
      unfold buildAuthenticatedEffectValueGraph
      rw [hlocal, composeRoutes_without_plans, composeRoutes_without_plans]
    rw [hbuild]
    decide

end ConvexWasm.Compiler.EffectValueGraph
