import ConvexWasm.Compiler.EffectValueGraph

/-!
# Fixed `Promise.all` plans

The children of a `Promise.all` over an array literal are gathered from the
routes that pass one of its elements: the element is an effect or the result of
a call.  The plan lists what was found, if the indices found are contiguous and
each has one origin.
-/

namespace ConvexWasm.Compiler.FixedPromiseAll

open ControlPlans EffectValueGraph List

structure AuthenticatedMaterializedEffectValueSource where
  source : AuthenticatedEffectValueSource
  plan : CallableEffectPlan
  deriving DecidableEq

inductive AuthenticatedFixedPromiseAllChildOrigin
  | effectSite (plan : CallableEffectPlan)
  | callResult (callsite : SourceAnchor)
  deriving DecidableEq

structure AuthenticatedFixedPromiseAllChild where
  childIndex : ℕ
  child : SourceAnchor
  origin : AuthenticatedFixedPromiseAllChildOrigin
  deriving DecidableEq

structure AuthenticatedFixedPromiseAllPlan where
  site : SourceAnchor
  promise : SourceAnchor
  argument : SourceAnchor
  children : List AuthenticatedFixedPromiseAllChild
  deriving DecidableEq

/-- The steps that `predecessor_steps` records for the elements of the array. -/
def predecessorSteps (site promise argument : SourceAnchor)
    (arrayAlias : Option AuthenticatedPromiseAllArrayAlias) (elements : List SourceAnchor) :
    List AuthenticatedEffectValueStep :=
  elements.zipIdx.map fun element =>
    .promiseAll site promise argument arrayAlias element.2 elements.length element.1

section Plan

variable (graph : AuthenticatedEffectValueGraph)
  (materializedSourceEffects : List AuthenticatedMaterializedEffectValueSource)

def materializedPlanForSource (source : AuthenticatedEffectValueSource) :
    Option CallableEffectPlan :=
  match materializedSourceEffects.filter fun candidate => decide (candidate.source = source) with
  | [candidate] => some candidate.plan
  | _ => none

/-- The call edges at a place, if there are any, are one exact call that does not recurse. -/
def resolvesCall (callsite : SourceAnchor) : Bool :=
  match graph.callEdges.filter fun edge => decide (edge.callsite = callsite) with
  | [] => true
  | [edge] => edge.composable && !edge.recursive
  | _ => false

variable (route : AuthenticatedEffectValueRoute)

/-- The origin of a route that starts at the element itself; `none` gives up the
plan, `some none` skips the route. -/
def directOrigin (child : SourceAnchor) : Option (Option AuthenticatedFixedPromiseAllChildOrigin) :=
  match route.origin with
  | .effectSite source =>
    if source.targetEffect = child then
      (materializedPlanForSource materializedSourceEffects source).map fun plan =>
        some (.effectSite plan)
    else some none
  | .callResult callsite _ _ =>
    if callsite = child then
      if resolvesCall graph callsite then some (some (.callResult callsite)) else none
    else some none
  | .parameter _ _ _ _ => some none

def routeIsSafe : Bool :=
  !route.blocked &&
    !route.callablePath.any fun callable => decide (callable ∈ graph.recursiveCallables)

def endsAwaited : Bool :=
  match route.sink with
  | .await _ _ => true
  | .return _ _ => false
  | .callArgument _ _ _ _ _ => false

structure Gathered where
  siteProvenance : Option (SourceAnchor × SourceAnchor × SourceAnchor)
  children : KeyedMap ℕ (SourceAnchor × List AuthenticatedFixedPromiseAllChildOrigin)

/-- An element of the array at the site, passed by a route. -/
structure Passage where
  site : SourceAnchor
  promise : SourceAnchor
  argument : SourceAnchor
  childIndex : ℕ
  child : SourceAnchor
  deriving DecidableEq

variable (module : String) (siteStart siteStop : ℕ)

/-- Elements of aliased arrays and of other sites are passed over. -/
def passage (step : AuthenticatedEffectValueStep) : Option Passage :=
  match step with
  | .promiseAll site promise argument none childIndex _ child =>
    if site.module = module ∧ site.start = siteStart ∧ site.stop = siteStop then
      some ⟨site, promise, argument, childIndex, child⟩
    else none
  | _ => none

/-- `children.entry(child_index)` with one more origin. -/
def addOrigin (gathered : Gathered) (found : Passage)
    (origin : AuthenticatedFixedPromiseAllChildOrigin) : Option Gathered :=
  let entry := (gathered.children.get? found.childIndex).getD (found.child, [])
  if entry.1 ≠ found.child then none
  else
    some {
      siteProvenance := some (found.site, found.promise, found.argument)
      children := gathered.children.insert found.childIndex
        (entry.1, if origin ∈ entry.2 then entry.2 else entry.2 ++ [origin]) }

def gather (gathered : Gathered)
    (passed : AuthenticatedEffectValueRoute × AuthenticatedEffectValueStep) : Option Gathered :=
  match passage module siteStart siteStop passed.2 with
  | none => some gathered
  | some found =>
    match directOrigin graph materializedSourceEffects passed.1 found.child with
    | none => none
    | some none => some gathered
    | some (some origin) =>
      if !routeIsSafe graph passed.1 || !endsAwaited passed.1 then none
      else if gathered.siteProvenance.any fun previous =>
          decide (previous ≠ (found.site, found.promise, found.argument)) then none
      else addOrigin gathered found origin

/-- The steps of all routes with their routes, in the order of the nested loops. -/
def passedSteps : List (AuthenticatedEffectValueRoute × AuthenticatedEffectValueStep) :=
  graph.routes.flatMap fun route => route.steps.map fun step => (route, step)

/-- One child of the plan: its index is its position, and its origin is unique. -/
def orderedChild (entry : (ℕ × SourceAnchor × List AuthenticatedFixedPromiseAllChildOrigin) × ℕ) :
    Option AuthenticatedFixedPromiseAllChild :=
  match entry.1.2.2 with
  | [origin] =>
    if entry.1.1 ≠ entry.2 then none else some ⟨entry.1.1, entry.1.2.1, origin⟩
  | _ => none

def fixedPromiseAllPlan : Option AuthenticatedFixedPromiseAllPlan :=
  if graph.incomplete then none
  else
    ((passedSteps graph).foldlM (gather graph materializedSourceEffects module siteStart siteStop)
        ⟨none, .empty⟩).bind fun gathered =>
      gathered.siteProvenance.bind fun provenance =>
        ((gathered.children.entries.insertionSort fun left right => left.1 ≤ right.1).zipIdx.mapM
            orderedChild).bind fun ordered =>
          if ordered.isEmpty then none
          else some ⟨provenance.1, provenance.2.1, provenance.2.2, ordered⟩

end Plan

section Meaning

variable (graph : AuthenticatedEffectValueGraph)
  (materializedSourceEffects : List AuthenticatedMaterializedEffectValueSource)
  (module : String) (siteStart siteStop : ℕ) (elements : List SourceAnchor)

/-- The steps at the site are those of one array without an alias. -/
def DescribesArray : Prop :=
  ∀ passed ∈ passedSteps graph, ∀ found, passage module siteStart siteStop passed.2 = some found →
    ∃ site promise argument, passed.2 ∈ predecessorSteps site promise argument none elements

/-- A route starts at the element and passes it. -/
def PassesDirectly (passed : AuthenticatedEffectValueRoute × AuthenticatedEffectValueStep)
    (found : Passage) (origin : AuthenticatedFixedPromiseAllChildOrigin) : Prop :=
  passed ∈ passedSteps graph ∧ passage module siteStart siteStop passed.2 = some found ∧
    directOrigin graph materializedSourceEffects passed.1 found.child = some (some origin)

/-- Some route starts at the element with this index. -/
def ElementRouted (index : ℕ) : Prop :=
  ∃ passed found origin, PassesDirectly graph materializedSourceEffects module siteStart siteStop
    passed found origin ∧ found.childIndex = index

/-- What a complete plan of the array is. -/
structure CompletePlan (plan : AuthenticatedFixedPromiseAllPlan) : Prop where
  count : plan.children.length = elements.length
  ordered : ∀ (index : ℕ) child, plan.children[index]? = some child →
    child.childIndex = index ∧ elements[index]? = some child.child
  routed : ∀ child ∈ plan.children, ∃ passed found,
    PassesDirectly graph materializedSourceEffects module siteStart siteStop passed found
        child.origin ∧ found.childIndex = child.childIndex ∧ found.child = child.child
  owned : ∀ child ∈ plan.children, ∀ passed found origin,
    PassesDirectly graph materializedSourceEffects module siteStart siteStop passed found origin →
      found.childIndex = child.childIndex →
        origin = child.origin ∧ routeIsSafe graph passed.1 = true ∧ endsAwaited passed.1 = true

end Meaning

variable {graph : AuthenticatedEffectValueGraph}
  {materializedSourceEffects : List AuthenticatedMaterializedEffectValueSource} {module : String}
  {siteStart siteStop : ℕ} {elements : List SourceAnchor}

/-- What the pass has gathered from the steps it has seen. -/
structure GatheredFrom (graph : AuthenticatedEffectValueGraph)
    (materializedSourceEffects : List AuthenticatedMaterializedEffectValueSource)
    (module : String) (siteStart siteStop : ℕ)
    (seen : List (AuthenticatedEffectValueRoute × AuthenticatedEffectValueStep))
    (gathered : Gathered) : Prop where
  owned : ∀ passed ∈ seen, ∀ found origin,
    passage module siteStart siteStop passed.2 = some found →
    directOrigin graph materializedSourceEffects passed.1 found.child = some (some origin) →
      routeIsSafe graph passed.1 = true ∧ endsAwaited passed.1 = true ∧
        ∃ origins, gathered.children.get? found.childIndex = some (found.child, origins) ∧
          origin ∈ origins
  routed : ∀ index child origins, gathered.children.get? index = some (child, origins) →
    ∀ origin ∈ origins, ∃ passed ∈ seen, ∃ found,
      passage module siteStart siteStop passed.2 = some found ∧
      directOrigin graph materializedSourceEffects passed.1 found.child = some (some origin) ∧
        found.childIndex = index ∧ found.child = child

variable {seen : List (AuthenticatedEffectValueRoute × AuthenticatedEffectValueStep)}
  {passed : AuthenticatedEffectValueRoute × AuthenticatedEffectValueStep}
  {gathered gathered' : Gathered}

section

variable (hgathered : GatheredFrom graph materializedSourceEffects module siteStart siteStop seen
  gathered)
include hgathered

/-- A step that adds nothing. -/
theorem GatheredFrom.skip
    (hskip : ∀ found origin, passage module siteStart siteStop passed.2 = some found →
      directOrigin graph materializedSourceEffects passed.1 found.child ≠ some (some origin)) :
    GatheredFrom graph materializedSourceEffects module siteStart siteStop (seen ++ [passed])
      gathered where
  owned := by
    intro other hother found origin hfound horigin
    cases mem_append.mp hother with
    | inl hold => exact hgathered.owned other hold found origin hfound horigin
    | inr hlast =>
      rw [mem_singleton.mp hlast] at hfound horigin
      exact absurd horigin (hskip found origin hfound)
  routed := by
    intro index child origins hentry origin horigin
    obtain ⟨other, hother, hrest⟩ := hgathered.routed index child origins hentry origin horigin
    exact ⟨other, mem_append_left _ hother, hrest⟩

/-- A step that passes an element directly. -/
theorem GatheredFrom.add {found : Passage} {origin : AuthenticatedFixedPromiseAllChildOrigin}
    (hfound : passage module siteStart siteStop passed.2 = some found)
    (horigin : directOrigin graph materializedSourceEffects passed.1 found.child =
      some (some origin))
    (hsafe : routeIsSafe graph passed.1 = true) (hawaited : endsAwaited passed.1 = true)
    (hadd : addOrigin gathered found origin = some gathered') :
    GatheredFrom graph materializedSourceEffects module siteStart siteStop (seen ++ [passed])
      gathered' := by
  simp only [addOrigin] at hadd
  split at hadd
  · simp at hadd
  next hchild =>
  obtain rfl := Option.some.inj hadd
  rw [not_not] at hchild
  have hentry : ∀ child origins,
      gathered.children.get? found.childIndex = some (child, origins) → child = found.child := by
    intro child origins hget
    rw [hget] at hchild
    exact hchild
  rw [hchild]
  constructor
  · intro other hother found' origin' hfound' horigin'
    cases mem_append.mp hother with
    | inl hold =>
      obtain ⟨hsafe', hawaited', origins, hget, hmem⟩ :=
        hgathered.owned other hold found' origin' hfound' horigin'
      refine ⟨hsafe', hawaited', ?_⟩
      by_cases hindex : found'.childIndex = found.childIndex
      · rw [hindex] at hget ⊢
        rw [KeyedMap.get?_insert_self, hentry _ _ hget, hget]
        refine ⟨_, rfl, ?_⟩
        split
        · exact hmem
        · exact mem_append_left _ hmem
      · exact ⟨origins, by rw [KeyedMap.get?_insert_of_ne hindex, hget], hmem⟩
    | inr hlast =>
      rw [mem_singleton.mp hlast, hfound] at hfound'
      obtain rfl := Option.some.inj hfound'
      rw [mem_singleton.mp hlast, horigin] at horigin'
      obtain rfl : origin = origin' := by simpa using horigin'
      rw [mem_singleton.mp hlast]
      refine ⟨hsafe, hawaited, _, KeyedMap.get?_insert_self, ?_⟩
      split
      · next hmem => exact hmem
      · exact mem_append_right _ mem_cons_self
  · intro index child origins hget origin' horigin'
    by_cases hindex : index = found.childIndex
    · subst hindex
      rw [KeyedMap.get?_insert_self] at hget
      obtain ⟨rfl, rfl⟩ : found.child = child ∧ _ = origins := by simpa using hget
      have hcases : origin' ∈ ((gathered.children.get? found.childIndex).getD
          (found.child, [])).2 ∨ origin' = origin := by
        split at horigin'
        · exact .inl horigin'
        · simpa using horigin'
      cases hcases with
      | inl hold =>
        cases hprevious : gathered.children.get? found.childIndex with
        | none => simp [hprevious] at hold
        | some entry =>
          rw [hprevious] at hold
          obtain ⟨other, hother, found', hfound', horigin'', hindex, hchild'⟩ :=
            hgathered.routed found.childIndex entry.1 entry.2 hprevious origin' hold
          exact ⟨other, mem_append_left _ hother, found', hfound', horigin'', hindex,
            hchild'.trans (hentry entry.1 entry.2 hprevious)⟩
      | inr hnew =>
        exact ⟨passed, by simp, found, hfound, hnew ▸ horigin, rfl, rfl⟩
    · rw [KeyedMap.get?_insert_of_ne hindex] at hget
      obtain ⟨other, hother, hrest⟩ := hgathered.routed index child origins hget origin' horigin'
      exact ⟨other, mem_append_left _ hother, hrest⟩

theorem GatheredFrom.step
    (hstep : gather graph materializedSourceEffects module siteStart siteStop gathered passed =
      some gathered') :
    GatheredFrom graph materializedSourceEffects module siteStart siteStop (seen ++ [passed])
      gathered' := by
  unfold gather at hstep
  split at hstep
  · next hnone =>
      obtain rfl := Option.some.inj hstep
      exact hgathered.skip fun found origin hfound => by simp [hnone] at hfound
  next found hfound =>
  split at hstep
  · simp at hstep
  · next hskipped =>
      obtain rfl := Option.some.inj hstep
      apply hgathered.skip
      intro found' origin hfound'
      rw [hfound] at hfound'
      obtain rfl := Option.some.inj hfound'
      simp [hskipped]
  next origin horigin =>
  split at hstep
  · simp at hstep
  next hclosed =>
  split at hstep
  · simp at hstep
  simp only [Bool.or_eq_true, Bool.not_eq_true', not_or, Bool.not_eq_false] at hclosed
  exact hgathered.add hfound horigin hclosed.1 hclosed.2 hstep

end

theorem gathered_run
    {seen rest : List (AuthenticatedEffectValueRoute × AuthenticatedEffectValueStep)}
    (hgathered : GatheredFrom graph materializedSourceEffects module siteStart siteStop seen
      gathered)
    (hrun : rest.foldlM (gather graph materializedSourceEffects module siteStart siteStop)
      gathered = some gathered') :
    GatheredFrom graph materializedSourceEffects module siteStart siteStop (seen ++ rest)
      gathered' := by
  induction rest generalizing seen gathered with
  | nil =>
    obtain rfl := Option.some.inj hrun
    rwa [List.append_nil]
  | cons passed rest ih =>
    obtain ⟨middle, hstep, hrest⟩ := Option.bind_eq_some_iff.mp hrun
    have hdone := ih (hgathered.step hstep) hrest
    rwa [append_assoc] at hdone

theorem gatheredFrom_nil :
    GatheredFrom graph materializedSourceEffects module siteStart siteStop []
      ⟨none, .empty⟩ where
  owned := by simp
  routed := by simp [KeyedMap.get?_empty]

/-- The children are the entries, in order and each with its one origin. -/
theorem mapM_orderedChild
    {entries : List (ℕ × SourceAnchor × List AuthenticatedFixedPromiseAllChildOrigin)}
    {offset : ℕ} {ordered : List AuthenticatedFixedPromiseAllChild}
    (hordered : (entries.zipIdx offset).mapM orderedChild = some ordered) :
    ordered.length = entries.length ∧ ∀ (index : ℕ) child, ordered[index]? = some child →
      child.childIndex = offset + index ∧
        entries[index]? = some (offset + index, child.child, [child.origin]) := by
  induction entries generalizing offset ordered with
  | nil =>
    obtain rfl : [] = ordered := by simpa using hordered
    simp
  | cons entry rest ih =>
    rw [zipIdx_cons, mapM_cons] at hordered
    obtain ⟨first, hfirst, hordered⟩ := Option.bind_eq_some_iff.mp hordered
    obtain ⟨others, hothers, hordered⟩ := Option.bind_eq_some_iff.mp hordered
    obtain rfl := Option.some.inj hordered
    obtain ⟨hlength, hread⟩ := ih hothers
    refine ⟨by simp [hlength], ?_⟩
    intro index child hchild
    cases index with
    | zero =>
      obtain rfl : first = child := by simpa using hchild
      obtain ⟨entryIndex, entryChild, origins⟩ := entry
      simp only [orderedChild] at hfirst
      split at hfirst
      · next origin =>
          split at hfirst
          · simp at hfirst
          next hindex =>
          obtain rfl := Option.some.inj hfirst
          rw [not_not] at hindex
          simp [hindex]
      · simp at hfirst
    | succ index =>
      have hnext := hread index child hchild
      rwa [show offset + (index + 1) = offset + 1 + index by omega]

variable {plan : AuthenticatedFixedPromiseAllPlan}

/-- What a returned plan was made of. -/
theorem fixedPromiseAllPlan_gathered
    (hplan : fixedPromiseAllPlan graph materializedSourceEffects module siteStart siteStop =
      some plan) :
    ∃ gathered, GatheredFrom graph materializedSourceEffects module siteStart siteStop
        (passedSteps graph) gathered ∧
      plan.children.length = gathered.children.entries.length ∧
      ∀ (index : ℕ) child, plan.children[index]? = some child → child.childIndex = index ∧
        gathered.children.get? index = some (child.child, [child.origin]) := by
  unfold fixedPromiseAllPlan at hplan
  split at hplan
  · simp at hplan
  obtain ⟨gathered, hrun, hplan⟩ := Option.bind_eq_some_iff.mp hplan
  obtain ⟨provenance, -, hplan⟩ := Option.bind_eq_some_iff.mp hplan
  obtain ⟨ordered, hordered, hplan⟩ := Option.bind_eq_some_iff.mp hplan
  split at hplan
  · simp at hplan
  obtain rfl := Option.some.inj hplan
  obtain ⟨hlength, hread⟩ := mapM_orderedChild hordered
  have hperm := perm_insertionSort
    (fun left right : ℕ × SourceAnchor × List AuthenticatedFixedPromiseAllChildOrigin =>
      left.1 ≤ right.1) gathered.children.entries
  refine ⟨gathered, gathered_run gatheredFrom_nil hrun, ?_, ?_⟩
  · rw [hlength, hperm.length_eq]
  · intro index child hchild
    obtain ⟨hindex, hentry⟩ := hread index child hchild
    rw [Nat.zero_add] at hindex hentry
    exact ⟨hindex, KeyedMap.get?_eq_some_iff.mpr (hperm.mem_iff.mp (mem_of_getElem? hentry))⟩

/-- The indices that were gathered are those below the length of the plan. -/
theorem gathered_index_iff {gathered : Gathered}
    (hlength : plan.children.length = gathered.children.entries.length)
    (hread : ∀ (index : ℕ) child, plan.children[index]? = some child → child.childIndex = index ∧
      gathered.children.get? index = some (child.child, [child.origin])) (index : ℕ) :
    index ∈ gathered.children.keys ↔ index < plan.children.length := by
  have hsubset : List.range plan.children.length ⊆ gathered.children.keys := by
    intro other hother
    rw [mem_range] at hother
    have hchild := List.getElem?_eq_getElem hother
    exact KeyedMap.mem_keys_of_get? (hread other _ hchild).2
  have hperm : (List.range plan.children.length).Perm gathered.children.keys := by
    apply (nodup_range.subperm hsubset).perm_of_length_le
    rw [length_range, hlength, KeyedMap.keys, length_map]
  rw [← hperm.mem_iff, mem_range]

/-- A plan that is returned is complete exactly when each element of the array
starts a route of its own. -/
theorem fixedPromiseAllPlan_complete_iff
    (hdescribes : DescribesArray graph module siteStart siteStop elements)
    (hplan : fixedPromiseAllPlan graph materializedSourceEffects module siteStart siteStop =
      some plan) :
    CompletePlan graph materializedSourceEffects module siteStart siteStop elements plan ↔
      ∀ index < elements.length,
        ElementRouted graph materializedSourceEffects module siteStart siteStop index := by
  obtain ⟨gathered, hgathered, hlength, hread⟩ := fixedPromiseAllPlan_gathered hplan
  have hkeys := gathered_index_iff hlength hread
  have helement : ∀ passed found origin,
      PassesDirectly graph materializedSourceEffects module siteStart siteStop passed found
        origin → elements[found.childIndex]? = some found.child := by
    intro passed found origin hpasses
    obtain ⟨hpassed, hfound, -⟩ := hpasses
    obtain ⟨site, promise, argument, hstep⟩ := hdescribes passed hpassed found hfound
    obtain ⟨⟨child, index⟩, hmem, hstep⟩ := mem_map.mp hstep
    rw [← hstep, passage] at hfound
    split at hfound
    · obtain rfl := Option.some.inj hfound
      exact (mk_mem_zipIdx_iff_getElem?).mp hmem
    · simp at hfound
  have hrouted : ∀ index (child : AuthenticatedFixedPromiseAllChild),
      plan.children[index]? = some child → ∃ passed found,
        PassesDirectly graph materializedSourceEffects module siteStart siteStop passed found
          child.origin ∧ found.childIndex = index ∧ found.child = child.child := by
    intro index child hchild
    obtain ⟨-, hentry⟩ := hread index child hchild
    obtain ⟨passed, hpassed, found, hfound, horigin, hindex, hsame⟩ :=
      hgathered.routed index _ _ hentry child.origin mem_cons_self
    exact ⟨passed, found, ⟨hpassed, hfound, horigin⟩, hindex, hsame⟩
  constructor
  · intro hcomplete index hindex
    rw [← hcomplete.count] at hindex
    obtain ⟨passed, found, hpasses, hfound, -⟩ := hrouted index _ (List.getElem?_eq_getElem hindex)
    exact ⟨passed, found, _, hpasses, hfound⟩
  · intro hall
    have hlower : elements.length ≤ plan.children.length := by
      by_contra hshort
      rw [not_le] at hshort
      obtain ⟨passed, found, origin, hpasses, hindex⟩ := hall _ hshort
      obtain ⟨-, -, origins, hentry, -⟩ :=
        hgathered.owned passed hpasses.1 found origin hpasses.2.1 hpasses.2.2
      have hbound := (hkeys found.childIndex).mp (KeyedMap.mem_keys_of_get? hentry)
      omega
    have hupper : plan.children.length ≤ elements.length := by
      by_contra hlong
      rw [not_le] at hlong
      obtain ⟨passed, found, hpasses, hindex, -⟩ := hrouted _ _ (List.getElem?_eq_getElem hlong)
      have hbound := (List.getElem?_eq_some_iff.mp (helement passed found _ hpasses)).1
      omega
    have hposition : ∀ child ∈ plan.children, ∃ index : ℕ,
        plan.children[index]? = some child ∧ child.childIndex = index := by
      intro child hchild
      obtain ⟨index, hindex⟩ := mem_iff_getElem?.mp hchild
      exact ⟨index, hindex, (hread index child hindex).1⟩
    refine ⟨le_antisymm hupper hlower, ?_, ?_, ?_⟩
    · intro index child hchild
      obtain ⟨passed, found, hpasses, hindex, hsame⟩ := hrouted index child hchild
      have hfound := helement passed found _ hpasses
      rw [hindex, hsame] at hfound
      exact ⟨(hread index child hchild).1, hfound⟩
    · intro child hchild
      obtain ⟨index, hindex, hsame⟩ := hposition child hchild
      rw [hsame]
      exact hrouted index child hindex
    · intro child hchild passed found origin hpasses hindex
      obtain ⟨position, hposition, hsame⟩ := hposition child hchild
      obtain ⟨hsafe, hawaited, origins, hentry, hmem⟩ :=
        hgathered.owned passed hpasses.1 found origin hpasses.2.1 hpasses.2.2
      rw [hindex, hsame, (hread position child hposition).2] at hentry
      obtain ⟨-, rfl⟩ : child.child = found.child ∧ [child.origin] = origins := by
        simpa using hentry
      exact ⟨mem_singleton.mp hmem, hsafe, hawaited⟩

def tailAnchor (start : ℕ) : SourceAnchor := ⟨"module", "sha", start, start + 1, "slice"⟩

/-- `await Promise.all([first(), ..])`, where only the call at index 0 has a route. -/
def tailRoute (elements : List SourceAnchor) : AuthenticatedEffectValueRoute where
  originCallable := ⟨"module", "handler"⟩
  origin := .callResult (tailAnchor 20) "first" (tailAnchor 21)
  sinkCallable := ⟨"module", "handler"⟩
  sink := .await (tailAnchor 0) (tailAnchor 10)
  steps := [.promiseAll (tailAnchor 10) (tailAnchor 11) (tailAnchor 12) none 0 elements.length
    (tailAnchor 20)]
  callablePath := [⟨"module", "handler"⟩]
  callsites := []
  basePathIds := [0]
  blocked := false
  handlerSink := true

def tailGraph (elements : List SourceAnchor) : AuthenticatedEffectValueGraph :=
  ⟨[tailRoute elements], [], [], false⟩

def tailPlan : AuthenticatedFixedPromiseAllPlan where
  site := tailAnchor 10
  promise := tailAnchor 11
  argument := tailAnchor 12
  children := [⟨0, tailAnchor 20, .callResult (tailAnchor 20)⟩]

theorem tailGraph_describes (rest : List SourceAnchor) :
    DescribesArray (tailGraph (tailAnchor 20 :: rest)) "module" 10 11 (tailAnchor 20 :: rest) := by
  intro passed hpassed found _
  have hstep : passed.2 = .promiseAll (tailAnchor 10) (tailAnchor 11) (tailAnchor 12) none 0
      (rest.length + 1) (tailAnchor 20) := by
    simp only [tailGraph, passedSteps, tailRoute, flatMap_cons, flatMap_nil,
      map_cons, map_nil, List.append_nil, mem_singleton] at hpassed
    rw [hpassed]
    rfl
  refine ⟨tailAnchor 10, tailAnchor 11, tailAnchor 12, ?_⟩
  rw [hstep]
  exact mem_cons_self

/-- `await Promise.all([first()])` has a complete plan. -/
theorem fixedPromiseAllPlan_complete_single :
    CompletePlan (tailGraph [tailAnchor 20]) [] "module" 10 11 [tailAnchor 20] tailPlan := by
  apply (fixedPromiseAllPlan_complete_iff (tailGraph_describes []) (by decide +kernel)).mpr
  intro index hindex
  obtain rfl : index = 0 := by simpa using hindex
  exact ⟨(tailRoute [tailAnchor 20], _), _, .callResult (tailAnchor 20),
    ⟨mem_cons_self, rfl, by decide +kernel⟩, rfl⟩

/-- `await Promise.all([first(), 1])` has the same plan, without its last element. -/
theorem fixedPromiseAllPlan_drops_tail :
    DescribesArray (tailGraph [tailAnchor 20, tailAnchor 30]) "module" 10 11
        [tailAnchor 20, tailAnchor 30] ∧
      fixedPromiseAllPlan (tailGraph [tailAnchor 20, tailAnchor 30]) [] "module" 10 11 =
        some tailPlan ∧
      tailPlan.children.length < [tailAnchor 20, tailAnchor 30].length :=
  ⟨tailGraph_describes [tailAnchor 30], by decide +kernel, by decide⟩

end ConvexWasm.Compiler.FixedPromiseAll
