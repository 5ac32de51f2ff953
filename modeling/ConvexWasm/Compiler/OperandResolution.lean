import ConvexWasm.Compiler.CallableEffects

/-!
# Resolved operands are the literals behind them

A parameter resolves exactly when every chain of calls behind it has complete
targets, never returns to a parameter and ends in literals.  A cached answer is
as good as a new one: a parameter that is given up because it is being visited
lies on a cycle.
-/

namespace ConvexWasm.Compiler.CallableEffects

open List Relation

section Flow

variable (calls : List CallEdge) (completeTargets : Option (List String))

/-- What the calls of a unit pass for a parameter. -/
def Passes (key : ParameterKey) (argument : ArgumentFlow) : Prop :=
  ∃ call ∈ calls, call.targetUnitId = key.1 ∧ call.arguments[key.2]? = some argument

/-- The flow of values into parameters.  A parameter is closed when its target
is complete and called, and each call passes a literal or a parameter for it. -/
def parameterFlow : FlowGraph ParameterKey String where
  source key origin := Passes calls key (.parameter origin)
  yields key value := Passes calls key (.literalString value)
  closed key := isComplete completeTargets key.1 = true ∧
    (∃ call ∈ calls, call.targetUnitId = key.1) ∧
    ∀ call ∈ calls, call.targetUnitId = key.1 →
      ∃ argument, call.arguments[key.2]? = some argument ∧ argument ≠ .unknown

def ArgumentTraceable : ArgumentFlow → Prop
  | .literalString _ => True
  | .parameter key => (parameterFlow calls completeTargets).Traceable key
  | .unknown => False

def argumentValues : ArgumentFlow → Set String
  | .literalString value => {value}
  | .parameter key => (parameterFlow calls completeTargets).values key
  | .unknown => ∅

/-- A result is right for an argument. -/
def ResolvesTo (argument : ArgumentFlow) : StaticValues → Prop
  | none => ¬ ArgumentTraceable calls completeTargets argument
  | some values => ArgumentTraceable calls completeTargets argument ∧ values ≠ [] ∧
      ∀ value, value ∈ values ↔ value ∈ argumentValues calls completeTargets argument

def CacheCorrect (cache : StaticCache) : Prop :=
  ∀ key result, cache.lookup key = some result →
    ResolvesTo calls completeTargets (.parameter key) result

end Flow

variable {calls : List CallEdge} {completeTargets : Option (List String)}
  {cache : StaticCache} {key : ParameterKey}

theorem cacheCorrect_nil : CacheCorrect calls completeTargets [] := by
  intro key result hlookup
  cases hlookup

theorem CacheCorrect.cons (hcache : CacheCorrect calls completeTargets cache)
    {result : StaticValues} (hresult : ResolvesTo calls completeTargets (.parameter key) result) :
    CacheCorrect calls completeTargets ((key, result) :: cache) := by
  intro other found hlookup
  rw [lookup_cons] at hlookup
  by_cases hsame : other = key
  · subst hsame
    rw [beq_self_eq_true] at hlookup
    cases hlookup
    exact hresult
  · rw [beq_false_of_ne hsame] at hlookup
    exact hcache other found hlookup

/-- A parameter resolves when its target is complete and called and each call
passes something that resolves. -/
theorem parameter_traceable_iff :
    (parameterFlow calls completeTargets).Traceable key ↔
      isComplete completeTargets key.1 = true ∧
        (∃ call ∈ calls, call.targetUnitId = key.1) ∧
        ∀ call ∈ calls, call.targetUnitId = key.1 →
          ∃ argument, call.arguments[key.2]? = some argument ∧
            ArgumentTraceable calls completeTargets argument := by
  rw [FlowGraph.traceable_iff]
  constructor
  · rintro ⟨⟨hcomplete, hcalled, hknown⟩, hsources⟩
    refine ⟨hcomplete, hcalled, fun call hcall htarget => ?_⟩
    obtain ⟨argument, hargument, hne⟩ := hknown call hcall htarget
    refine ⟨argument, hargument, ?_⟩
    cases argument with
    | literalString value => trivial
    | parameter origin => exact hsources origin ⟨call, hcall, htarget, hargument⟩
    | unknown => exact absurd rfl hne
  · rintro ⟨hcomplete, hcalled, hall⟩
    refine ⟨⟨hcomplete, hcalled, fun call hcall htarget => ?_⟩, ?_⟩
    · obtain ⟨argument, hargument, htraceable⟩ := hall call hcall htarget
      refine ⟨argument, hargument, ?_⟩
      rintro rfl
      exact htraceable
    · rintro origin ⟨call, hcall, htarget, hargument⟩
      obtain ⟨found, hfound, htraceable⟩ := hall call hcall htarget
      rw [hargument] at hfound
      cases hfound
      exact htraceable

theorem mem_parameter_values {value : String} :
    value ∈ (parameterFlow calls completeTargets).values key ↔
      ∃ call ∈ calls, call.targetUnitId = key.1 ∧
        ∃ argument, call.arguments[key.2]? = some argument ∧
          value ∈ argumentValues calls completeTargets argument := by
  rw [FlowGraph.mem_values_iff]
  constructor
  · rintro (⟨call, hcall, htarget, hargument⟩ | ⟨origin, ⟨call, hcall, htarget, hargument⟩, hvalue⟩)
    · exact ⟨call, hcall, htarget, _, hargument, rfl⟩
    · exact ⟨call, hcall, htarget, _, hargument, hvalue⟩
  · rintro ⟨call, hcall, htarget, argument, hargument, hvalue⟩
    cases argument with
    | literalString literal =>
      cases hvalue
      exact .inl ⟨call, hcall, htarget, hargument⟩
    | parameter origin => exact .inr ⟨origin, ⟨call, hcall, htarget, hargument⟩, hvalue⟩
    | unknown => cases hvalue

/-- What the loop over the incoming calls computes. -/
structure Collected (calls : List CallEdge) (completeTargets : Option (List String))
    (index : ℕ) (visited : List CallEdge) (before : List String)
    (outcome : StaticValues × StaticCache) : Prop where
  cache : CacheCorrect calls completeTargets outcome.2
  known : ∀ values, outcome.1 = some values → values ≠ [] ∧
    (∀ call ∈ visited, ∃ argument, call.arguments[index]? = some argument ∧
      ArgumentTraceable calls completeTargets argument) ∧
    ∀ value, value ∈ values ↔ value ∈ before ∨ ∃ call ∈ visited, ∃ argument,
      call.arguments[index]? = some argument ∧ value ∈ argumentValues calls completeTargets argument
  unknown : outcome.1 = none → visited = [] ∧ before = [] ∨
    ∃ call ∈ visited, ∀ argument, call.arguments[index]? = some argument →
      ¬ ArgumentTraceable calls completeTargets argument

theorem collectArguments_spec
    {resolve : ArgumentFlow → StaticCache → StaticValues × StaticCache} {index : ℕ}
    {visited : List CallEdge}
    (hresolve : ∀ call ∈ visited, ∀ argument, call.arguments[index]? = some argument →
      ∀ cache, CacheCorrect calls completeTargets cache →
        ResolvesTo calls completeTargets argument (resolve argument cache).1 ∧
          CacheCorrect calls completeTargets (resolve argument cache).2) :
    ∀ before cache, CacheCorrect calls completeTargets cache →
      Collected calls completeTargets index visited before
        (collectArguments resolve index visited before cache) := by
  induction visited with
  | nil =>
    intro before cache hcache
    by_cases hempty : before = []
    · subst hempty
      exact ⟨hcache, (by intro values hsome; cases hsome), fun _ => .inl ⟨rfl, rfl⟩⟩
    · rw [collectArguments, if_neg hempty]
      refine ⟨hcache, ?_, (by intro hnone; cases hnone)⟩
      rintro values hsome
      cases hsome
      exact ⟨hempty, by simp, by simp⟩
  | cons call rest ih =>
    intro before cache hcache
    rw [collectArguments]
    cases hargument : call.arguments[index]? with
    | none =>
      refine ⟨hcache, (by intro values hsome; cases hsome), fun _ => .inr ?_⟩
      refine ⟨call, mem_cons_self, fun argument hsome => ?_⟩
      rw [hargument] at hsome
      cases hsome
    | some argument =>
      obtain ⟨hresult, hcacheNext⟩ := hresolve call mem_cons_self argument hargument cache hcache
      cases houtcome : resolve argument cache with
      | mk result next =>
        rw [houtcome] at hresult hcacheNext
        cases result with
        | none =>
          simp only [houtcome]
          refine ⟨hcacheNext, (by intro values hsome; cases hsome), fun _ => .inr ?_⟩
          refine ⟨call, mem_cons_self, fun other hother => ?_⟩
          rw [hargument] at hother
          cases hother
          exact hresult
        | some found =>
          simp only [houtcome]
          obtain ⟨htraceable, hfoundNonempty, hfound⟩ := hresult
          have hrest := ih (fun later hlater =>
            hresolve later (mem_cons_of_mem _ hlater))
            (before ∪ found) next hcacheNext
          refine ⟨hrest.cache, fun values hsome => ?_, fun hnone => .inr ?_⟩
          · obtain ⟨hnonempty, hall, hmem⟩ := hrest.known values hsome
            refine ⟨hnonempty, fun other hother => ?_, fun value => ?_⟩
            · rcases mem_cons.mp hother with rfl | hother
              · exact ⟨argument, hargument, htraceable⟩
              · exact hall other hother
            · rw [hmem, mem_union_iff, hfound, or_assoc]
              simp [hargument]
          · rcases hrest.unknown hnone with ⟨_, hempty⟩ | ⟨other, hother, hopen⟩
            · have hfoundEmpty : found = [] := by
                rw [eq_nil_iff_forall_not_mem]
                intro value hvalue
                have hmem : value ∈ before ∪ found := mem_union_iff.mpr (.inr hvalue)
                rw [hempty] at hmem
                cases hmem
              exact absurd hfoundEmpty hfoundNonempty
            · exact ⟨other, mem_cons_of_mem _ hother, hopen⟩

theorem unvisited_cons_lt {start : ParameterKey} {visiting : List ParameterKey}
    (hkey : key ∈ start :: passedParameters calls) (hvisiting : key ∉ visiting) :
    unvisited calls start (key :: visiting) < unvisited calls start visiting := by
  have hsplit : (start :: passedParameters calls).filter
      (fun other => decide (other ∉ key :: visiting)) =
      ((start :: passedParameters calls).filter fun other =>
        decide (other ∉ visiting)).filter fun other => decide (other ≠ key) := by
    rw [filter_filter]
    refine filter_congr fun other _ => ?_
    simp
  rw [unvisited, unvisited, hsplit]
  refine length_filter_lt_length_iff_exists.mpr ⟨key, ?_, by simp⟩
  exact mem_filter.mpr ⟨hkey, decide_eq_true hvisiting⟩

theorem mem_passedParameters {call : CallEdge} {index : ℕ} (hcall : call ∈ calls)
    (hargument : call.arguments[index]? = some (.parameter key)) :
    key ∈ passedParameters calls := by
  refine mem_flatMap.mpr ⟨call, hcall, mem_filterMap.mpr ?_⟩
  exact ⟨.parameter key, mem_of_getElem? hargument, rfl⟩

/-- How the search resolves the argument of a nested call. -/
def resolveNested (calls : List CallEdge) (completeTargets : Option (List String))
    (fuel : ℕ) (visiting : List ParameterKey) :
    ArgumentFlow → StaticCache → StaticValues × StaticCache
  | .literalString value, cache => (some [value], cache)
  | .parameter origin, cache =>
    resolveParameter calls completeTargets fuel origin cache visiting
  | .unknown, cache => (none, cache)

/-- A parameter that is neither cached nor being visited, with a complete target. -/
theorem resolveParameter_succ {fuel : ℕ} {visiting : List ParameterKey}
    (hlookup : cache.lookup key = none) (hcycle : key ∉ visiting)
    (hcomplete : isComplete completeTargets key.1 = true) :
    resolveParameter calls completeTargets (fuel + 1) key cache visiting =
      let outcome := collectArguments
        (resolveNested calls completeTargets fuel (key :: visiting)) key.2
        (incoming calls key.1) [] cache
      (outcome.1, (key, outcome.1) :: outcome.2) := by
  rw [resolveParameter, hlookup]
  rw [if_neg hcycle, if_neg (not_not.mpr hcomplete)]
  refine congrArg (fun resolve : ArgumentFlow → StaticCache → StaticValues × StaticCache =>
    let outcome := collectArguments resolve key.2 (incoming calls key.1) [] cache
    (outcome.1, (key, outcome.1) :: outcome.2)) ?_
  funext argument cache
  cases argument <;> rfl

theorem resolvesTo_literal {value : String} :
    ResolvesTo calls completeTargets (.literalString value) (some [value]) := by
  refine ⟨trivial, cons_ne_nil _ _, fun other => ?_⟩
  rw [mem_singleton]
  rfl

theorem resolvesTo_unknown : ResolvesTo calls completeTargets .unknown none := fun htrace => htrace

theorem mem_incoming {call : CallEdge} {unitId : String} :
    call ∈ incoming calls unitId ↔ call ∈ calls ∧ call.targetUnitId = unitId := by
  rw [incoming, mem_filter, decide_eq_true_iff]

/-- What the loop collects from all calls of a complete target is right for the
parameter. -/
theorem Collected.resolvesTo {outcome : StaticValues × StaticCache}
    (hcomplete : isComplete completeTargets key.1 = true)
    (hcollected : Collected calls completeTargets key.2 (incoming calls key.1) [] outcome) :
    ResolvesTo calls completeTargets (.parameter key) outcome.1 := by
  cases hresult : outcome.1 with
  | none =>
    intro htrace
    obtain ⟨_, ⟨called, hcalled, htarget⟩, hall⟩ := parameter_traceable_iff.mp htrace
    rcases hcollected.unknown hresult with ⟨hempty, _⟩ | ⟨call, hcall, hopen⟩
    · have hmem : called ∈ incoming calls key.1 := mem_incoming.mpr ⟨hcalled, htarget⟩
      rw [hempty] at hmem
      cases hmem
    · obtain ⟨hmem, hcallTarget⟩ := mem_incoming.mp hcall
      obtain ⟨argument, hargument, htraceable⟩ := hall call hmem hcallTarget
      exact hopen argument hargument htraceable
  | some values =>
    obtain ⟨hnonempty, hall, hvalues⟩ := hcollected.known values hresult
    have hmem : ∀ value, value ∈ values ↔
        value ∈ argumentValues calls completeTargets (.parameter key) := by
      intro value
      rw [hvalues, argumentValues, mem_parameter_values]
      simp [mem_incoming, and_assoc]
    refine ⟨?_, hnonempty, hmem⟩
    obtain ⟨value, hvalue⟩ := exists_mem_of_ne_nil values hnonempty
    obtain ⟨call, hcall, htarget, _⟩ := mem_parameter_values.mp ((hmem value).mp hvalue)
    refine parameter_traceable_iff.mpr ⟨hcomplete, ⟨call, hcall, htarget⟩, ?_⟩
    intro other hother hotherTarget
    exact hall other (mem_incoming.mpr ⟨hother, hotherTarget⟩)

/-- The depth-first search is right wherever it starts: everything being
visited leads to the key, so meeting it again closes a cycle. -/
theorem resolveParameter_spec (start : ParameterKey) (fuel : ℕ) :
    ∀ key cache visiting, CacheCorrect calls completeTargets cache →
      (∀ visited ∈ visiting, TransGen (parameterFlow calls completeTargets).source visited key) →
      key ∈ start :: passedParameters calls →
      unvisited calls start visiting < fuel →
      ResolvesTo calls completeTargets (.parameter key)
          (resolveParameter calls completeTargets fuel key cache visiting).1 ∧
        CacheCorrect calls completeTargets
          (resolveParameter calls completeTargets fuel key cache visiting).2 := by
  induction fuel with
  | zero => exact fun _ _ _ _ _ _ hfuel => absurd hfuel (Nat.not_lt_zero _)
  | succ fuel ih =>
    intro key cache visiting hcache hvisiting hkey hfuel
    cases hlookup : cache.lookup key with
    | some cached =>
      rw [resolveParameter, hlookup]
      exact ⟨hcache key cached hlookup, hcache⟩
    | none =>
      by_cases hcycle : key ∈ visiting
      · rw [resolveParameter, hlookup]
        rw [if_pos hcycle]
        exact ⟨FlowGraph.not_traceable_of_cycle (hvisiting key hcycle), hcache⟩
      by_cases hcomplete : isComplete completeTargets key.1 = true
      · rw [resolveParameter_succ hlookup hcycle hcomplete]
        have hfewer := unvisited_cons_lt hkey hcycle
        have hnested : ∀ call ∈ incoming calls key.1, ∀ argument,
            call.arguments[key.2]? = some argument →
            ∀ cache, CacheCorrect calls completeTargets cache →
              ResolvesTo calls completeTargets argument
                  (resolveNested calls completeTargets fuel (key :: visiting) argument cache).1 ∧
                CacheCorrect calls completeTargets
                  (resolveNested calls completeTargets fuel (key :: visiting)
                    argument cache).2 := by
          intro call hcall argument hargument cache hcache
          obtain ⟨hmem, htarget⟩ := mem_incoming.mp hcall
          cases argument with
          | literalString value => exact ⟨resolvesTo_literal, hcache⟩
          | unknown => exact ⟨resolvesTo_unknown, hcache⟩
          | parameter origin =>
            have hsource : (parameterFlow calls completeTargets).source key origin :=
              ⟨call, hmem, htarget, hargument⟩
            refine ih origin cache (key :: visiting) hcache ?_
              (mem_cons_of_mem _ (mem_passedParameters hmem hargument)) (by omega)
            intro visited hvisited
            rcases mem_cons.mp hvisited with rfl | hearlier
            · exact .single hsource
            · exact (hvisiting visited hearlier).tail hsource
        have hcollected := collectArguments_spec hnested [] cache hcache
        have hresult := hcollected.resolvesTo hcomplete
        exact ⟨hresult, hcollected.cache.cons hresult⟩
      · rw [resolveParameter, hlookup]
        rw [if_neg hcycle, if_pos hcomplete]
        have hresult : ResolvesTo calls completeTargets (.parameter key) none :=
          fun htrace => hcomplete (parameter_traceable_iff.mp htrace).1
        exact ⟨hresult, hcache.cons hresult⟩

theorem unvisited_nil_lt_resolutionFuel (start : ParameterKey) :
    unvisited calls start [] < resolutionFuel calls := by
  have hlength := length_filter_le (fun key => decide (key ∉ ([] : List ParameterKey)))
    (start :: passedParameters calls)
  rw [length_cons] at hlength
  rw [unvisited, resolutionFuel]
  omega

/-- Resolving an argument outside a search. -/
theorem resolveArgument_spec (argument : ArgumentFlow)
    (hcache : CacheCorrect calls completeTargets cache) :
    ResolvesTo calls completeTargets argument
        (resolveArgument calls completeTargets argument cache).1 ∧
      CacheCorrect calls completeTargets
        (resolveArgument calls completeTargets argument cache).2 := by
  cases argument with
  | literalString value => exact ⟨resolvesTo_literal, hcache⟩
  | unknown => exact ⟨resolvesTo_unknown, hcache⟩
  | parameter key =>
    exact resolveParameter_spec key (resolutionFuel calls) key cache [] hcache
      (fun _ hvisited => absurd hvisited not_mem_nil) mem_cons_self
      (unvisited_nil_lt_resolutionFuel key)

end ConvexWasm.Compiler.CallableEffects
