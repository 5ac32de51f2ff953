import ConvexWasm.Compiler.CapabilityFixpoint

/-!
# Owned bindings hold the context

Executions are chains of activations: they start at the registration handler or
at the helper of an applied adapter and continue through indexed calls.  A
promoted binding is the context in every activation of its unit, as long as the
adapter's helper is entered with the context and arguments keep their position.
-/

namespace ConvexWasm.Compiler

open Fallible List Option PromotionInput TransitionSystem

/-- The input of the capability flow with what parsing and the reachability
walk guarantee: a callable has one reachable unit besides a handler, a unit
that declares a registration has no parameters, and callers are reachable. -/
structure RegistrationProgram where
  modules : LoadedModules
  reachable : ReachableUnits
  index : ReachableStaticCallIndex
  registration : RegistrationSummary
  adapter : Option AppliedRegistrationAdapter
  units_unique : ∀ first ∈ reachable.units, ∀ second ∈ reachable.units,
    first.kind ≠ "handler" → second.kind ≠ "handler" →
      first.module = second.module → first.name = second.name → first = second
  handler_parameters : ∀ unit ∈ reachable.units, unit.kind = "handler" →
    callerParameterStarts modules unit = []
  callers_reachable : ∀ indexed ∈ index.calls, indexed.caller ∈ reachable.units

/-- The values of a run: the Convex context, the property a path leads to, and
the argument ranges that are spread elements in the source text. -/
structure ExecutionModel (Value : Type*) where
  context : Value
  project : Value → List String → Value
  project_nil : ∀ value, project value [] = value
  isSpread : String → SourceRange → Prop

/-- One activation of a unit: its arguments and what each of its expressions
evaluates to.  The context is the first argument of a handler. -/
structure Activation (Value : Type*) where
  unit : ReachableUnit
  arguments : ℕ → Value
  eval : SourceRange → Value

section Executions

variable {Value : Type*} (program : RegistrationProgram) (model : ExecutionModel Value)

def Activation.bindingValue (activation : Activation Value) (owner : CapabilityOwner) : Value :=
  model.project (activation.arguments (owner.parameterIndex.getD 0)) owner.argumentProjection

/-- The unit summary an activation runs. -/
def RegistrationProgram.source (unit : ReachableUnit) : Option UnitSummary :=
  (program.modules.get? unit.module).bind fun module => module.units.get? unit.name

/-- Each reference evaluates to the value of its binding. -/
structure Activation.Coherent (activation : Activation Value) : Prop where
  context : activation.unit.kind = "handler" →
    ∀ reference ∈ program.registration.contextReferences, reference.readOnly = true →
      activation.eval reference.range = activation.arguments 0
  parameter : ∀ source, program.source activation.unit = some source →
    ∀ parameter ∈ source.parameters, ∀ reference ∈ parameter.references,
      reference.readOnly = true →
        activation.eval reference.range = activation.arguments parameter.index
  projection : ∀ source, program.source activation.unit = some source →
    ∀ parameter ∈ source.parameters, ∀ projection ∈ parameter.capabilityProjections,
      ∀ reference ∈ projection.references, reference.readOnly = true →
        activation.eval reference.range =
          model.project (activation.arguments parameter.index) projection.path

/-- The activation of an adapter's helper, with its context parameter bound. -/
structure StartsHelper (adapter : AppliedRegistrationAdapter)
    (activation : Activation Value) : Prop where
  applied : program.adapter = some adapter
  reachable : activation.unit ∈ program.reachable.units
  callable : activation.unit.kind ≠ "handler"
  module : activation.unit.module = adapter.helperModule
  name : activation.unit.name = adapter.helperUnitName
  context : ∀ source, program.source activation.unit = some source →
    ∀ parameter ∈ source.parameters,
      adapter.helperParameterStart ∈ parameter.bindingStarts →
        activation.arguments parameter.index = model.context

/-- Where an execution starts. -/
inductive Starts (activation : Activation Value) : Prop
  | handler :
      program.reachable.units.find? (fun unit => decide (unit.kind = "handler")) =
        some activation.unit →
      activation.arguments 0 = model.context →
      activation.Coherent program model → Starts activation
  | helper (adapter : AppliedRegistrationAdapter) :
      StartsHelper program model adapter activation →
      activation.Coherent program model → Starts activation

/-- No spread element comes at or before an argument position. -/
def Positional (caller : ReachableUnit) (call : CallCandidate) (position : ℕ) : Prop :=
  ∀ earlier ≤ position, ∀ range, call.arguments[earlier]? = some range →
    ¬ model.isSpread caller.module range

/-- An indexed call activates its target with the values of its arguments. -/
structure Enters (caller : Activation Value) (indexed : ResolvedStaticCall)
    (callee : Activation Value) : Prop where
  listed : indexed ∈ program.index.calls
  calledFrom : indexed.caller = caller.unit
  reachable : callee.unit ∈ program.reachable.units
  callable : callee.unit.kind ≠ "handler"
  target : indexed.target = (callee.unit.module, callee.unit.name)
  coherent : callee.Coherent program model
  argument : ∀ position range, indexed.call.arguments[position]? = some range →
    indexed.call.argumentAwaitCounts[position]? = some 0 →
    Positional model caller.unit indexed.call position →
      callee.arguments position = caller.eval range
  property : ∀ position projections,
    indexed.call.argumentProjections[position]? = some projections →
    ∀ projection ∈ projections,
    projection.awaitCount = 0 →
    Positional model caller.unit indexed.call position →
      model.project (callee.arguments position) projection.path = caller.eval projection.value

/-- The candidate bindings of the program. -/
def RegistrationProgram.candidates : Except String CapabilityOwners := do
  let declared ← declaredCandidates program.modules program.reachable
  populateForwardedProjectionCandidates program.modules program.reachable program.index declared

/-- A candidate binding that every call of its unit forwards something exact to. -/
def ForwardedByCalls (owner : CapabilityOwner) : Prop :=
  ∃ candidates key requirements, program.candidates = .ok candidates ∧
    candidates.get? key = some owner ∧
    capabilityParameterRequirements program.modules program.reachable program.index
      candidates owner = .ok (some requirements)

/-- The start of an adapter's helper passes the context to each other binding of
the helper that its calls forward something exact to. -/
def StartForwards (activation : Activation Value) : Prop :=
  activation.unit.kind ≠ "handler" → ∀ owner, ForwardedByCalls program owner →
    owner.unitId = activation.unit.id → activation.bindingValue model owner = model.context

/-- A call of the adapter's helper passes the context as its context parameter,
and what a call forwards exactly keeps its position. -/
structure CallForwards (caller : Activation Value)
    (indexed : ResolvedStaticCall) (callee : Activation Value) : Prop where
  helper : ∀ adapter, program.adapter = some adapter →
    callee.unit.module = adapter.helperModule →
      ∀ source, program.source callee.unit = some source →
        ∀ parameter ∈ source.parameters,
          adapter.helperParameterStart ∈ parameter.bindingStarts →
            callee.arguments parameter.index = model.context
  positional : ∀ owner position, ForwardedByCalls program owner →
    owner.unitId = callee.unit.id → owner.parameterIndex = some position →
        Positional model caller.unit indexed.call position

/-- All activations of all executions. -/
def Executed : Activation Value → Prop :=
  Reachable (Starts program model) fun caller callee =>
    ∃ indexed, Enters program model caller indexed callee

/-- Activations of the executions that meet the conditions on helper and spread. -/
def ExecutedForwarding : Activation Value → Prop :=
  Reachable (fun activation => Starts program model activation ∧
      StartForwards program model activation)
    fun caller callee => ∃ indexed, Enters program model caller indexed callee ∧
      CallForwards program model caller indexed callee

end Executions

variable {program : RegistrationProgram} {key : CapabilityBindingKey} {owner : CapabilityOwner}

section Candidates

variable {candidates : CapabilityOwners}

/-- A candidate binds a parameter of a reachable callable, or a projection of it. -/
structure BindsParameter (program : RegistrationProgram) (key : CapabilityBindingKey)
    (owner : CapabilityOwner) (unit : ReachableUnit) (source : UnitSummary)
    (parameter : ParameterSummary) : Prop where
  reachable : unit ∈ program.reachable.units
  callable : unit.kind ≠ "handler"
  summary : program.source unit = some source
  declared : parameter ∈ source.parameters
  module : owner.module = unit.module
  unitId : owner.unitId = unit.id
  keyModule : key.module = unit.module
  keyStart : key.start ∈ parameter.bindingStarts
  index : owner.parameterIndex = some parameter.index
  path : owner.argumentProjection = key.path
  references : (key.path = [] ∧ owner.references = parameter.references) ∨
    (∃ projection ∈ parameter.capabilityProjections, projection.path = key.path ∧
      owner.references = projection.references) ∨ owner.references = []

def Bound (program : RegistrationProgram) (candidates : CapabilityOwners) : Prop :=
  ∀ key owner, candidates.get? key = some owner →
    ∃ unit source parameter, BindsParameter program key owner unit source parameter

theorem bindsParameter_of_mem {unit : ReachableUnit} {source : UnitSummary}
    (hunit : unit ∈ program.reachable.units) (hcallable : unit.kind ≠ "handler")
    (hsource : program.source unit = some source)
    (howner : owner ∈ source.parameters.flatMap (parameterOwners unit)) :
    ∃ parameter, BindsParameter program owner.bindingKey owner unit source parameter := by
  obtain ⟨parameter, hparameter, howner⟩ := mem_flatMap.mp howner
  refine ⟨parameter, ?_⟩
  rcases mem_cons.mp howner with rfl | howner
  · exact
      { reachable := hunit, callable := hcallable, summary := hsource
        declared := hparameter, module := rfl, unitId := rfl, keyModule := rfl
        keyStart := mem_cons_self, index := rfl, path := rfl
        references := .inl ⟨rfl, rfl⟩ }
  · obtain ⟨projection, hprojection, rfl⟩ := mem_map.mp howner
    exact
      { reachable := hunit, callable := hcallable, summary := hsource
        declared := hparameter, module := rfl, unitId := rfl, keyModule := rfl
        keyStart := mem_cons_of_mem _ (mem_map_of_mem hprojection)
        index := rfl, path := rfl
        references := .inr (.inl ⟨projection, hprojection, rfl, rfl⟩) }

theorem Bound.insert (hbound : Bound program candidates)
    (howner : ∃ unit source parameter, BindsParameter program key owner unit source parameter) :
    Bound program (candidates.insert key owner) := by
  intro other found hget
  by_cases hkey : other = key
  · subst hkey
    rw [KeyedMap.get?_insert_self, Option.some.injEq] at hget
    exact hget ▸ howner
  · rw [KeyedMap.get?_insert_of_ne hkey] at hget
    exact hbound other found hget

theorem foldl_insertCandidate_bound {owners : List CapabilityOwner}
    (howners : ∀ owner ∈ owners, ∃ unit source parameter,
      BindsParameter program owner.bindingKey owner unit source parameter) :
    ∀ candidates, Bound program candidates →
      Bound program (owners.foldl insertCandidate candidates) := by
  induction owners with
  | nil => exact fun _ hbound => hbound
  | cons owner rest ih =>
    intro candidates hbound
    exact ih (fun later hlater => howners later (mem_cons_of_mem _ hlater)) _
      (hbound.insert (howners owner mem_cons_self))

theorem declaredCandidates_bound
    (hok : declaredCandidates program.modules program.reachable = .ok candidates) :
    Bound program candidates := by
  refine foldlM_invariant (Bound program) ?_ (fun _ _ hget => by cases hget) hok
  intro state unit next hunit hstate hok
  obtain ⟨hreachable, hcallable⟩ := mem_filter.mp hunit
  have hcallable : unit.kind ≠ "handler" := of_decide_eq_true hcallable
  rw [insertUnitCandidates] at hok
  cases hmodule : program.modules.get? unit.module with
  | none =>
    rw [hmodule] at hok
    cases hok
  | some module =>
    simp only [hmodule] at hok
    cases hsource : module.units.get? unit.name with
    | none =>
      rw [hsource] at hok
      cases hok
    | some source =>
      simp only [hsource] at hok
      by_cases hregistration : source.registration.isSome = true
      · rw [if_pos hregistration] at hok
        cases hok
        exact hstate
      · rw [if_neg hregistration] at hok
        cases hok
        have hprogramSource : program.source unit = some source := by
          rw [RegistrationProgram.source, hmodule]
          exact hsource
        refine foldl_insertCandidate_bound (fun owner howner => ?_) _ hstate
        obtain ⟨parameter, hbinds⟩ :=
          bindsParameter_of_mem hreachable hcallable hprogramSource howner
        exact ⟨unit, source, parameter, hbinds⟩

/-- What a caller's parameter reference finds. -/
theorem callerParameter_source {caller : ReachableUnit} {argument : SourceRange}
    {parameter : ParameterSummary}
    (hok : callerParameterForReference program.modules caller argument = .ok (some parameter)) :
    ∃ source, program.source caller = some source ∧ parameter ∈ source.parameters ∧
      ∃ reference ∈ parameter.references,
        reference.readOnly = true ∧ reference.range = argument := by
  obtain ⟨module, source, hmodule, hsource, hparameter, hreference⟩ :=
    callerParameterForReference_eq_some hok
  refine ⟨source, ?_, hparameter, hreference⟩
  rw [RegistrationProgram.source, hmodule]
  exact hsource

theorem forwardedOwner_binds {caller : ReachableUnit} {source : UnitSummary}
    {parameter : ParameterSummary} (hcaller : caller ∈ program.reachable.units)
    (hcallable : caller.kind ≠ "handler") (hsource : program.source caller = some source)
    (hparameter : parameter ∈ source.parameters) :
    BindsParameter program ⟨caller.module, parameter.start, owner.argumentProjection⟩
      (forwardedOwner caller parameter owner) caller source parameter where
  reachable := hcaller
  callable := hcallable
  summary := hsource
  declared := hparameter
  module := rfl
  unitId := rfl
  keyModule := rfl
  keyStart := mem_cons_self
  index := rfl
  path := rfl
  references := by
    cases hfound : parameter.capabilityProjections.find? fun projection =>
        decide (projection.bindingStart = parameter.start) &&
          decide (projection.path = owner.argumentProjection) with
    | none => exact .inr (.inr (by simp only [forwardedOwner, hfound]))
    | some projection =>
      have hpath := List.find?_some hfound
      simp only [Bool.and_eq_true, decide_eq_true_eq] at hpath
      exact .inr (.inl ⟨projection, mem_of_find?_eq_some hfound, hpath.2,
        by simp only [forwardedOwner, hfound]⟩)

theorem forwardPass_bound {forwarded : CapabilityOwners × Bool} (hbound : Bound program candidates)
    (hok : forwardPass program.modules program.reachable program.index candidates =
      .ok forwarded) : Bound program forwarded.1 := by
  let inv : CapabilityOwners × Bool → Prop := fun state => Bound program state.1
  have hcall : ∀ owner state indexed next, indexed ∈ program.index.calls → inv state →
      forwardThroughCall program.modules owner state indexed = .ok next → inv next := by
    intro owner state indexed next hindexed hstate hok
    obtain rfl | ⟨module, source, named, parameter, hhandler, hmodule, hsource, _, hparameter, _,
      rfl⟩ := forwardThroughCall_cases hok
    · exact hstate
    · have hstart : parameter.start = named.start := by
        simpa using List.find?_some hparameter
      have hprogramSource : program.source indexed.caller = some source := by
        rw [RegistrationProgram.source, hmodule]
        exact hsource
      refine Bound.insert hstate ⟨indexed.caller, source, parameter, ?_⟩
      rw [← hstart]
      exact forwardedOwner_binds (program.callers_reachable indexed hindexed) hhandler
        hprogramSource (mem_of_find?_eq_some hparameter)
  refine foldlM_invariant inv ?_ hbound hok
  intro state owner next _ hstate hok
  obtain ⟨target, _, hok⟩ := Fallible.bind_eq_ok.mp hok
  by_cases hexact : program.index.dispatchIsExact target = true
  · simp only [hexact, Bool.not_true, Bool.false_eq_true, if_false] at hok
    refine foldlM_invariant inv ?_ hstate hok
    intro state indexed next hindexed hstate hok
    exact hcall owner state indexed next (mem_of_mem_filter hindexed) hstate hok
  · simp only [hexact, Bool.not_false, if_true] at hok
    cases hok
    exact hstate

theorem forwardProjections_bound (fuel : ℕ) :
    ∀ before, Bound program before →
      forwardProjections program.modules program.reachable program.index fuel before =
        some (.ok candidates) → Bound program candidates := by
  induction fuel with
  | zero =>
    intro before _ hok
    cases hok
  | succ fuel ih =>
    intro before hbound hok
    rw [forwardProjections] at hok
    cases hpass : forwardPass program.modules program.reachable program.index before with
    | error message =>
      simp only [hpass] at hok
      cases hok
    | ok next =>
      obtain ⟨forwarded, inserted⟩ := next
      have hforwarded : Bound program forwarded := forwardPass_bound hbound hpass
      simp only [hpass] at hok
      cases inserted with
      | true => exact ih forwarded hforwarded hok
      | false =>
        cases hok
        exact hforwarded

/-- Every candidate of the program binds a parameter of a reachable callable. -/
theorem candidates_bound (hok : program.candidates = .ok candidates) :
    Bound program candidates := by
  obtain ⟨declared, hdeclared, hok⟩ := Fallible.bind_eq_ok.mp hok
  have hbound := declaredCandidates_bound hdeclared
  rw [populateForwardedProjectionCandidates] at hok
  cases hforwarded : forwardProjections program.modules program.reachable program.index
      ((forwardedKeys program.modules program.index (projectionPaths declared)).length + 1)
      declared with
  | none =>
    rw [hforwarded] at hok
    cases hok
    exact hbound
  | some outcome =>
    rw [hforwarded] at hok
    have hok : outcome = .ok candidates := hok
    rw [hok] at hforwarded
    exact forwardProjections_bound _ declared hbound hforwarded

end Candidates

section Soundness

variable {Value : Type*} {model : ExecutionModel Value} {input : PromotionInput}
  {awaited : List CallableKey} {final : Promotion} {unit : ReachableUnit} {source : UnitSummary}
  {parameter : ParameterSummary} {activation caller callee : Activation Value}
  {indexed : ResolvedStaticCall}

/-- The worklist has computed `final` from the program. -/
structure Promoted (program : RegistrationProgram) (input : PromotionInput)
    (final : Promotion) : Prop where
  computed : ∃ awaited, promotionInput program.modules program.reachable program.index
    program.registration program.adapter = .ok (input, awaited)
  sound : final.Sound input

section

variable (hbinds : BindsParameter program key owner unit source parameter)
include hbinds

/-- Two parameters declared at one place of a module are one. -/
theorem BindsParameter.eq_of_start {other : ReachableUnit} {otherSource : UnitSummary}
    {otherParameter : ParameterSummary} (hmodule : other.module = key.module)
    (hsource : program.source other = some otherSource)
    (hparameter : otherParameter ∈ otherSource.parameters)
    (hstart : key.start ∈ otherParameter.bindingStarts) :
    unit.name = other.name ∧ parameter = otherParameter := by
  have hlookup := hbinds.summary
  rw [RegistrationProgram.source, ← hbinds.keyModule] at hlookup
  rw [RegistrationProgram.source, hmodule] at hsource
  cases hget : program.modules.get? key.module with
  | none =>
    rw [hget] at hlookup
    cases hlookup
  | some module =>
    rw [hget] at hlookup hsource
    have hfirst := KeyedMap.get?_eq_some_iff.mp hlookup
    have hsecond := KeyedMap.get?_eq_some_iff.mp hsource
    obtain ⟨hentries, hsame⟩ := module.bindings_unique _ hfirst parameter
      hbinds.declared _ hsecond otherParameter hparameter key.start hbinds.keyStart hstart
    exact ⟨congrArg Prod.fst hentries, hsame⟩

theorem BindsParameter.bindingValue_eq :
    activation.bindingValue model owner =
      model.project (activation.arguments parameter.index) key.path := by
  rw [Activation.bindingValue, hbinds.index, hbinds.path]
  rfl

end

/-- References of an owned binding evaluate to its value. -/
theorem BindsParameter.eval_eq
    (hbinds : BindsParameter program key owner activation.unit source parameter)
    (hcoherent : activation.Coherent program model) {reference : ReferenceOccurrence}
    (hreference : reference ∈ owner.references) (hread : reference.readOnly = true) :
    activation.eval reference.range = activation.bindingValue model owner := by
  rw [hbinds.bindingValue_eq]
  rcases hbinds.references with ⟨hpath, hsame⟩ | ⟨projection, hmem, hpath, hsame⟩ | hnone
  · rw [hsame] at hreference
    rw [hpath, model.project_nil]
    exact hcoherent.parameter source hbinds.summary parameter hbinds.declared reference
      hreference hread
  · rw [hsame] at hreference
    rw [← hpath]
    exact hcoherent.projection source hbinds.summary parameter hbinds.declared projection
      hmem reference hreference hread
  · rw [hnone] at hreference
    cases hreference

/-- The bindings owned at the start. -/
theorem rootOwners_get? {candidates roots : CapabilityOwners}
    {rootOwner : CapabilityOwner} {adapter : Option AppliedRegistrationAdapter}
    (hok : rootOwners program.modules program.reachable program.index candidates rootOwner
      adapter = .ok (roots, awaited)) (hget : roots.get? key = some owner) :
    (key = rootOwner.bindingKey ∧ owner = rootOwner) ∨
      ∃ applied, adapter = some applied ∧ key = applied.contextKey ∧
        candidates.get? key = some owner := by
  have hroot : ∀ owner, (KeyedMap.empty.insert rootOwner.bindingKey rootOwner).get? key =
      some owner → key = rootOwner.bindingKey ∧ owner = rootOwner := by
    intro owner hget
    by_cases hkey : key = rootOwner.bindingKey
    · rw [hkey, KeyedMap.get?_insert_self, Option.some.injEq] at hget
      exact ⟨hkey, hget.symm⟩
    · rw [KeyedMap.get?_insert_of_ne hkey] at hget
      cases hget
  cases adapter with
  | none =>
    cases hok
    exact .inl (hroot owner hget)
  | some applied =>
    rw [rootOwners] at hok
    cases hcandidate : candidates.get? applied.contextKey with
    | none =>
      simp only [hcandidate] at hok
      cases hok
    | some contextOwner =>
      simp only [hcandidate] at hok
      by_cases hcontains : (KeyedMap.empty.insert rootOwner.bindingKey
          rootOwner).containsKey applied.contextKey = true
      · rw [if_pos hcontains] at hok
        cases hok
      · rw [if_neg hcontains] at hok
        obtain ⟨_, _, hok⟩ := Fallible.bind_eq_ok.mp hok
        cases hok
        by_cases hkey : key = applied.contextKey
        · subst hkey
          rw [KeyedMap.get?_insert_self, Option.some.injEq] at hget
          exact .inr ⟨applied, rfl, rfl, hget ▸ hcandidate⟩
        · rw [KeyedMap.get?_insert_of_ne hkey] at hget
          exact .inl (hroot owner hget)

/-- An owned binding is the handler's context, the context of the applied
adapter's helper, or a promoted candidate. -/
inductive OwnedAs (program : RegistrationProgram) (input : PromotionInput)
    (key : CapabilityBindingKey) (owner : CapabilityOwner) : Prop
  | context {root : ReachableUnit} {name : String} {start : ℕ} :
      program.reachable.units.find? (fun unit => decide (unit.kind = "handler")) =
        some root →
      owner = registrationRootOwner program.registration root name start →
      key.path = [] → OwnedAs program input key owner
  | helper {adapter : AppliedRegistrationAdapter} : program.adapter = some adapter →
      key = adapter.contextKey → input.candidates.get? key = some owner →
      OwnedAs program input key owner
  | promoted : key ∉ input.roots.keys → input.candidates.get? key = some owner →
      OwnedAs program input key owner

section

variable (hpromoted : Promoted program input final)
include hpromoted

/-- The candidates of a nonempty input are those of the program. -/
theorem Promoted.candidates (hget : input.candidates.get? key = some owner) :
    program.candidates = .ok input.candidates := by
  obtain ⟨awaited, hinput⟩ := hpromoted.computed
  rcases promotionInput_eq_ok hinput with
    ⟨_, rfl⟩ | ⟨_, _, _, declared, _, _, _, hdeclared, hcandidates, _⟩
  · cases hget
  · rw [RegistrationProgram.candidates, hdeclared]
    exact hcandidates

theorem Promoted.ownedAs (hget : final.owned.get? key = some owner) :
    OwnedAs program input key owner := by
  have howner := hpromoted.sound.recorded.owner key owner hget
  obtain ⟨awaited, hinput⟩ := hpromoted.computed
  rcases promotionInput_eq_ok hinput with
    ⟨_, rfl⟩ | ⟨name, start, root, _, _, _, hroot, _, _, hroots, _⟩
  · cases howner
  · rw [ownerOf] at howner
    cases hrootGet : input.roots.get? key with
    | none =>
      rw [hrootGet] at howner
      exact .promoted (KeyedMap.get?_eq_none_iff.mp hrootGet) howner
    | some rootOwner =>
      rw [hrootGet] at howner
      have howner : rootOwner = owner := Option.some.inj howner
      subst howner
      rcases rootOwners_get? hroots hrootGet with
        ⟨hkey, howner⟩ | ⟨adapter, hadapter, hkey, hcandidate⟩
      · refine .context hroot howner ?_
        rw [hkey]
        rfl
      · exact .helper hadapter hkey hcandidate

theorem Promoted.binds (hget : input.candidates.get? key = some owner) :
    ∃ unit source parameter, BindsParameter program key owner unit source parameter :=
  candidates_bound (hpromoted.candidates hget) key owner hget

end

theorem handler_mem {root : ReachableUnit}
    (hroot : program.reachable.units.find? (fun unit => decide (unit.kind = "handler")) =
      some root) : root ∈ program.reachable.units ∧ root.kind = "handler" :=
  ⟨mem_of_find?_eq_some hroot, by simpa using List.find?_some hroot⟩

/-- All owned bindings of the activation's unit are the context. -/
def OwnsContext (model : ExecutionModel Value) (final : Promotion)
    (activation : Activation Value) : Prop :=
  ∀ key owner, final.owned.get? key = some owner → owner.unitId = activation.unit.id →
    activation.bindingValue model owner = model.context

/-- What holds of every activation of an execution. -/
structure Invariant (program : RegistrationProgram) (model : ExecutionModel Value)
    (final : Promotion) (activation : Activation Value) : Prop where
  reachable : activation.unit ∈ program.reachable.units
  coherent : activation.Coherent program model
  owns : OwnsContext model final activation

/-- A read of an owned binding evaluates to the context. -/
theorem Invariant.eval_owned (hpromoted : Promoted program input final)
    (hinv : Invariant program model final activation) {range : SourceRange}
    (howned : ⟨activation.unit.module, activation.unit.id, range⟩ ∈
      final.ownedReferences) : activation.eval range = model.context := by
  obtain ⟨key, owner, hget, hrecorded⟩ := (hpromoted.sound.recorded.reference _).mp howned
  obtain ⟨reference, hreference, hsame⟩ := mem_map.mp hrecorded
  obtain ⟨hreference, hread⟩ := mem_filter.mp hreference
  obtain ⟨_, hunitId, hrange⟩ := CapabilityReferenceKey.mk.inj hsame
  subst hrange
  rw [← hinv.owns key owner hget hunitId]
  have hcandidate : input.candidates.get? key = some owner →
      activation.eval reference.range = activation.bindingValue model owner := by
    intro hcandidate
    obtain ⟨unit, source, parameter, hbinds⟩ := hpromoted.binds hcandidate
    have hunit : unit = activation.unit :=
      ReachableUnits.eq_of_id hbinds.reachable hinv.reachable (hbinds.unitId.symm.trans hunitId)
    subst hunit
    exact hbinds.eval_eq hinv.coherent hreference hread
  cases hpromoted.ownedAs hget with
  | @context root name start hroot howner _ =>
    obtain ⟨hmem, hkind⟩ := handler_mem hroot
    have hunit : root = activation.unit :=
      ReachableUnits.eq_of_id hmem hinv.reachable (by rw [← hunitId, howner]; rfl)
    rw [howner] at hreference ⊢
    have heval := hinv.coherent.context (hunit ▸ hkind) reference hreference hread
    rw [heval, Activation.bindingValue]
    exact (model.project_nil _).symm
  | helper _ _ hget => exact hcandidate hget
  | promoted _ hget => exact hcandidate hget

/-- What an exact argument of a call passes to the owner's binding. -/
theorem Enters.exactArgument (henters : Enters program model caller indexed callee)
    {range : SourceRange} {position : ℕ} (hposition : owner.parameterIndex = some position)
    (hargument : exactCapabilityArgument indexed.call owner = some range)
    (hpositional : Positional model caller.unit indexed.call position) :
    callee.bindingValue model owner = caller.eval range := by
  rw [exactCapabilityArgument, hposition] at hargument
  rw [Activation.bindingValue, hposition, getD_some]
  by_cases hpath : owner.argumentProjection = []
  · simp only [hpath, if_true] at hargument
    by_cases hawait : indexed.call.argumentAwaitCounts[position]? = some 0
    · rw [if_pos hawait] at hargument
      rw [hpath, model.project_nil]
      exact henters.argument position range hargument hawait hpositional
    · rw [if_neg hawait] at hargument
      cases hargument
  · simp only [hpath, if_false] at hargument
    cases hprojections : indexed.call.argumentProjections[position]? with
    | none =>
      rw [hprojections] at hargument
      cases hargument
    | some projections =>
      simp only [hprojections] at hargument
      obtain ⟨projection, hfind, rfl⟩ := Option.map_eq_some_iff.mp hargument
      have hprojection := List.find?_some hfind
      simp only [Bool.and_eq_true, decide_eq_true_eq] at hprojection
      rw [← hprojection.1]
      exact henters.property position projections hprojections projection
        (mem_of_find?_eq_some hfind) hprojection.2 hpositional

/-- A parameter that a caller forwards has a reachable callable for its caller. -/
theorem caller_callable (hcaller : unit ∈ program.reachable.units)
    (hsource : program.source unit = some source) (hparameter : parameter ∈ source.parameters) :
    unit.kind ≠ "handler" := by
  intro hhandler
  have hstarts := program.handler_parameters unit hcaller hhandler
  have hmem : parameter.start ∈ callerParameterStarts program.modules unit := by
    rw [callerParameterStarts]
    rw [RegistrationProgram.source] at hsource
    cases hmodule : program.modules.get? unit.module with
    | none =>
      rw [hmodule] at hsource
      cases hsource
    | some module =>
      rw [hmodule] at hsource
      have hsource : module.units.get? unit.name = some source := hsource
      simp only [hsource]
      exact mem_map_of_mem hparameter
  rw [hstarts] at hmem
  cases hmem

/-- A call passes the context to every promoted binding of its target. -/
theorem Invariant.promoted_binding (hpromoted : Promoted program input final)
    (hcaller : Invariant program model final caller)
    (henters : Enters program model caller indexed callee)
    (hforwards : CallForwards program model caller indexed callee)
    (hget : final.owned.get? key = some owner) (hroot : key ∉ input.roots.keys)
    (hcandidate : input.candidates.get? key = some owner)
    (hunitId : owner.unitId = callee.unit.id) :
    callee.bindingValue model owner = model.context := by
  obtain ⟨awaited, hinput⟩ := hpromoted.computed
  obtain ⟨unit, source, parameter, hbinds⟩ := hpromoted.binds hcandidate
  obtain ⟨hrule, hsatisfied⟩ := hpromoted.sound.derived.supported key
    (KeyedMap.mem_keys_of_get? hget) hroot
  obtain ⟨requirements, hrequirements⟩ := KeyedMap.mem_keys_iff.mp hrule.1
  obtain ⟨_, found, hfound, hok⟩ := promotionInput_describes hinput key requirements hrequirements
  have hsame : found = owner := Option.some.inj (hfound.symm.trans hcandidate)
  subst hsame
  have hpositional := hforwards.positional found parameter.index
    ⟨input.candidates, key, requirements, hpromoted.candidates hcandidate, hcandidate, hok⟩
    hunitId hbinds.index
  obtain ⟨target, calls, _, htarget, _, _, hcalls, hdedup⟩ :=
    capabilityParameterRequirements_eq_some hok
  have htargetEq : target = (callee.unit.module, callee.unit.name) := by
    rw [capabilityParameterTarget, hunitId, ReachableUnits.get?_id henters.reachable] at htarget
    exact (Except.ok.inj htarget).symm
  have hmemCall : indexed ∈ program.index.callsTo target :=
    mem_filter.mpr ⟨henters.listed, decide_eq_true (henters.target.trans htargetEq.symm)⟩
  obtain ⟨requirement, hrequirement, hexact⟩ :
      ∃ requirement ∈ calls, exactCapabilityRequirement program.modules indexed.caller
        indexed.call found input.candidates = .ok (some requirement) := by
    obtain ⟨position, hposition, hnth⟩ := mem_iff_getElem.mp hmemCall
    have hall := callRequirements_eq_some hcalls
    have hlength := hall.length_eq
    refine ⟨calls.get ⟨position, hlength ▸ hposition⟩, get_mem _ _, ?_⟩
    have hpair := hall.get hposition (hlength ▸ hposition)
    simp only [get_eq_getElem, hnth] at hpair
    exact hpair
  have hmemRequirement : requirement ∈ input.rules.requirements key := by
    change requirement ∈ input.requirementsOf key
    rw [requirementsOf, hrequirements, hdedup]
    exact mem_dedup.mpr hrequirement
  have hstate := hpromoted.sound.recorded.satisfies_iff.mpr (hsatisfied requirement hmemRequirement)
  rw [henters.calledFrom, exactCapabilityRequirement] at hexact
  cases hargument : exactCapabilityArgument indexed.call found with
  | some range =>
    simp only [hargument, Except.ok.injEq, Option.some.injEq] at hexact
    subst hexact
    have hownedReference := of_decide_eq_true hstate
    rw [henters.exactArgument hbinds.index hargument hpositional]
    exact hcaller.eval_owned hpromoted hownedReference
  | none =>
    simp only [hargument] at hexact
    obtain ⟨forwarded, hforwarded, hexact⟩ := Fallible.bind_eq_ok.mp hexact
    cases forwarded with
    | none => cases hexact
    | some forwardedKey =>
      obtain ⟨position, range, named, hpath, hposition, hawait, hrange, hnamed, rfl⟩ :=
        forwardedParameterProjectionKey_eq_some hforwarded
      have hsamePosition : parameter.index = position :=
        Option.some.inj (hbinds.index.symm.trans hposition)
      have hexact : some requirement = (Option.filter (fun key =>
          input.candidates.containsKey key)
          (some ⟨caller.unit.module, named.start, found.argumentProjection⟩)).map
            CapabilityRequirement.parameterProjection :=
        (Except.ok.inj hexact).symm
      have hrequirementEq : requirement = .parameterProjection
          ⟨caller.unit.module, named.start, found.argumentProjection⟩ := by
        by_cases hcontains : input.candidates.containsKey
            ⟨caller.unit.module, named.start, found.argumentProjection⟩ = true
        · simp only [filter_some, hcontains, if_true, map_some,
            Option.some.injEq] at hexact
          exact hexact
        · simp [hcontains] at hexact
      subst hrequirementEq
      obtain ⟨projected, hprojected⟩ :=
        KeyedMap.mem_keys_iff.mp (KeyedMap.containsKey_iff.mp hstate)
      obtain ⟨callerSource, hcallerSource, hnamedMem, reference, hreference, hread,
        hreferenceRange⟩ := callerParameter_source hnamed
      have hcallable := caller_callable hcaller.reachable hcallerSource hnamedMem
      have hprojectedCandidate : input.candidates.get?
          ⟨caller.unit.module, named.start, found.argumentProjection⟩ =
            some projected := by
        cases hpromoted.ownedAs hprojected with
        | context _ _ hempty => exact absurd hempty hpath
        | helper _ hkey hget => exact hget
        | promoted _ hget => exact hget
      obtain ⟨other, otherSource, otherParameter, hother⟩ := hpromoted.binds hprojectedCandidate
      obtain ⟨hname, hparameterEq⟩ := hother.eq_of_start rfl hcallerSource hnamedMem mem_cons_self
      have hotherUnit : other = caller.unit :=
        program.units_unique other hother.reachable caller.unit hcaller.reachable
          hother.callable hcallable hother.keyModule.symm hname
      have hvalue := hcaller.owns _ projected hprojected
        (hother.unitId.trans (congrArg ReachableUnit.id hotherUnit))
      rw [hother.bindingValue_eq, hparameterEq] at hvalue
      have heval : caller.eval range = caller.arguments named.index := by
        rw [← hreferenceRange]
        exact hcaller.coherent.parameter callerSource hcallerSource named hnamedMem
          reference hreference hread
      have hpassed := henters.argument position range hrange hawait (hsamePosition ▸ hpositional)
      rw [hbinds.bindingValue_eq, hsamePosition, hpassed, heval, ← hbinds.path]
      exact hvalue

/-- The activation's unit is not the handler when a candidate binds it. -/
theorem helper_binding (hpromoted : Promoted program input final)
    (hreachable : activation.unit ∈ program.reachable.units)
    (hcandidate : input.candidates.get? key = some owner)
    (hunitId : owner.unitId = activation.unit.id) :
    ∃ source parameter,
      BindsParameter program key owner activation.unit source parameter := by
  obtain ⟨unit, source, parameter, hbinds⟩ := hpromoted.binds hcandidate
  have hunit : unit = activation.unit := ReachableUnits.eq_of_id hbinds.reachable
    hreachable (hbinds.unitId.symm.trans hunitId)
  exact ⟨source, parameter, hunit ▸ hbinds⟩

/-- The context parameter of the adapter's helper, as a binding. -/
theorem helper_bindingValue {adapter : AppliedRegistrationAdapter}
    (hbinds : BindsParameter program key owner activation.unit source parameter)
    (hkey : key = adapter.contextKey) (hcontext : ∀ found ∈ source.parameters,
      adapter.helperParameterStart ∈ found.bindingStarts →
        activation.arguments found.index = model.context) :
    activation.bindingValue model owner = model.context := by
  have hstart : adapter.helperParameterStart ∈ parameter.bindingStarts := by
    have hstart := hbinds.keyStart
    rw [hkey] at hstart
    exact hstart
  rw [hbinds.bindingValue_eq, hcontext parameter hbinds.declared hstart, hkey]
  exact model.project_nil _

theorem Invariant.start (hpromoted : Promoted program input final)
    (hstarts : Starts program model activation)
    (hforwards : StartForwards program model activation) :
    Invariant program model final activation := by
  cases hstarts with
  | handler hroot hcontext hcoherent =>
    obtain ⟨hmem, hkind⟩ := handler_mem hroot
    refine ⟨hmem, hcoherent, fun key owner hget hunitId => ?_⟩
    have hcandidate : input.candidates.get? key ≠ some owner := by
      intro hcandidate
      obtain ⟨source, parameter, hbinds⟩ := helper_binding hpromoted hmem hcandidate hunitId
      exact hbinds.callable hkind
    cases hpromoted.ownedAs hget with
    | context _ howner _ =>
      rw [Activation.bindingValue, howner]
      exact (model.project_nil _).trans hcontext
    | helper _ _ hget => exact absurd hget hcandidate
    | promoted _ hget => exact absurd hget hcandidate
  | helper adapter hhelper hcoherent =>
    refine ⟨hhelper.reachable, hcoherent, fun key owner hget hunitId => ?_⟩
    cases hpromoted.ownedAs hget with
    | context hroot howner _ =>
      obtain ⟨hmem, hkind⟩ := handler_mem hroot
      rw [howner] at hunitId
      have hunit := ReachableUnits.eq_of_id hmem hhelper.reachable hunitId
      exact absurd (hunit ▸ hkind) hhelper.callable
    | @helper applied happlied hkey hcandidate =>
      have hsame : applied = adapter := Option.some.inj (happlied.symm.trans hhelper.applied)
      subst hsame
      obtain ⟨source, parameter, hbinds⟩ :=
        helper_binding hpromoted hhelper.reachable hcandidate hunitId
      exact helper_bindingValue hbinds hkey (hhelper.context source hbinds.summary)
    | promoted hroot hcandidate =>
      obtain ⟨awaited, hinput⟩ := hpromoted.computed
      obtain ⟨hrule, _⟩ := hpromoted.sound.derived.supported key
        (KeyedMap.mem_keys_of_get? hget) hroot
      obtain ⟨requirements, hrequirements⟩ := KeyedMap.mem_keys_iff.mp hrule.1
      obtain ⟨_, found, hfound, hok⟩ := promotionInput_describes hinput key
        requirements hrequirements
      have hsame : found = owner := Option.some.inj (hfound.symm.trans hcandidate)
      subst hsame
      exact hforwards hhelper.callable found ⟨input.candidates, key, requirements,
        hpromoted.candidates hcandidate, hcandidate, hok⟩ hunitId

theorem Invariant.step (hpromoted : Promoted program input final)
    (hcaller : Invariant program model final caller)
    (henters : Enters program model caller indexed callee)
    (hforwards : CallForwards program model caller indexed callee) :
    Invariant program model final callee := by
  refine ⟨henters.reachable, henters.coherent, fun key owner hget hunitId => ?_⟩
  cases hpromoted.ownedAs hget with
  | context hroot howner _ =>
    obtain ⟨hmem, hkind⟩ := handler_mem hroot
    rw [howner] at hunitId
    have hunit := ReachableUnits.eq_of_id hmem henters.reachable hunitId
    exact absurd (hunit ▸ hkind) henters.callable
  | @helper adapter happlied hkey hcandidate =>
    obtain ⟨source, parameter, hbinds⟩ :=
      helper_binding hpromoted henters.reachable hcandidate hunitId
    have hmodule : callee.unit.module = adapter.helperModule := by
      rw [← hbinds.keyModule, hkey]
      rfl
    exact helper_bindingValue hbinds hkey
      (hforwards.helper adapter happlied hmodule source hbinds.summary)
  | promoted hroot hcandidate =>
    exact hcaller.promoted_binding hpromoted henters hforwards hget hroot hcandidate hunitId

/-- The invariant holds of every activation of the executions considered. -/
theorem ExecutedForwarding.invariant (hpromoted : Promoted program input final)
    (hexecuted : ExecutedForwarding program model activation) :
    Invariant program model final activation := by
  refine Reachable.invariant ?_ ?_ hexecuted
  · rintro started ⟨hstarts, hforwards⟩
    exact Invariant.start hpromoted hstarts hforwards
  · rintro caller callee hcaller ⟨indexed, henters, hforwards⟩
    exact hcaller.step hpromoted henters hforwards

/-- What a predicate test is applied to. -/
def operand : CapabilityPredicateTestCandidate → SourceRange
  | .directMember _ _ object => object
  | .directCall _ _ argument => argument

/-- A test is proved only when its operand is an owned reference. -/
theorem exactOwnedReference_of_provedTrue {proof : CapabilityFlowProof}
    {graph : GraphInput} {test : CapabilityPredicateTestCandidate}
    (hok : proof.evaluatePredicateTest graph program.modules unit test =
      .ok .provedTrue) : proof.exactOwnedReference unit (operand test) = true := by
  rw [CapabilityFlowProof.evaluatePredicateTest.eq_def] at hok
  by_cases hkind : proof.registrationKind ∉
      ["query", "internalQuery", "mutation", "internalMutation"]
  · rw [if_pos hkind] at hok
    cases hok
  · rw [if_neg hkind] at hok
    cases test with
    | directMember member objectName object =>
      by_cases howned : member = "db" ∧ proof.exactOwnedReference unit object = true
      · exact howned.2
      · simp only [if_neg howned] at hok
        cases hok
    | directCall callee calleeSpan argument =>
      by_cases howned : proof.exactOwnedReference unit argument = true
      · exact howned
      · simp only [if_pos howned] at hok
        cases hok

/-- In every execution that enters the adapter's helper with the context and
keeps forwarded arguments in place, each owned binding is the context in every
activation of its unit, and so is the operand of each test proved true. -/
theorem owned_capability_is_context {Value : Type*} (program : RegistrationProgram)
    (model : ExecutionModel Value) {proof : CapabilityFlowProof}
    (hbuild : buildCapabilityFlowProof program.modules program.reachable program.index
      program.registration program.adapter = .ok proof) {activation : Activation Value}
    (hexecuted : ExecutedForwarding program model activation) :
    (∀ key owner, proof.owned.get? key = some owner →
      owner.unitId = activation.unit.id → activation.bindingValue model owner = model.context) ∧
    ∀ graph test, proof.evaluatePredicateTest graph program.modules activation.unit test =
        .ok .provedTrue →
      activation.eval (operand test) = model.context := by
  obtain ⟨⟨input, awaited⟩, hinput, _⟩ := Fallible.bind_eq_ok.mp hbuild
  rcases promotion_result hinput with
    hfail | ⟨built, final, hbuilt, _, howned, hreferences, _, hsound, _, _⟩
  · rw [hbuild] at hfail
    cases hfail
  · rw [hbuild] at hbuilt
    have hsame : proof = built := Except.ok.inj hbuilt
    subst hsame
    have hpromoted : Promoted program input final := ⟨⟨awaited, hinput⟩, hsound⟩
    have hinv := hexecuted.invariant hpromoted
    refine ⟨fun key owner hget => ?_, fun graph test hproved => ?_⟩
    · rw [howned] at hget
      exact hinv.owns key owner hget
    · have hreference := exactOwnedReference_of_provedTrue hproved
      rw [CapabilityFlowProof.exactOwnedReference, hreferences, decide_eq_true_eq] at hreference
      exact hinv.eval_owned hpromoted hreference

end Soundness

def recursiveProgram : RegistrationProgram where
  modules := recursiveModules
  reachable := recursiveReachable
  index := recursiveIndex
  registration := recursiveRegistration
  adapter := none
  units_unique := by decide
  handler_parameters := by decide
  callers_reachable := by decide

def flagModel : ExecutionModel Bool where
  context := true
  project value path := value && decide (path = [])
  project_nil value := by cases value <;> rfl
  isSpread _ _ := False

def recursiveHandlerRun : Activation Bool where
  unit := recursiveHandler
  arguments position := decide (position = 0)
  eval range := decide (range = ⟨20, 23⟩)

def recursiveWalkRun : Activation Bool where
  unit := recursiveWalk
  arguments position := decide (position = 0)
  eval range := decide (range = ⟨56, 57⟩)

theorem recursiveHandlerRun_starts : Starts recursiveProgram flagModel recursiveHandlerRun := by
  refine .handler rfl rfl ⟨fun _ => by decide, ?_, ?_⟩
  · rintro source hsource
    cases hsource
    simp
  · rintro source hsource
    cases hsource
    simp

theorem recursiveWalkRun_enters :
    Enters recursiveProgram flagModel recursiveHandlerRun
      ⟨("m.ts", "walk"), recursiveHandler,
        ⟨"walk", 15, 19, ⟨15, 24⟩, [⟨20, 23⟩], [0], [[]]⟩⟩ recursiveWalkRun where
  listed := by decide
  calledFrom := rfl
  reachable := by decide
  callable := by decide
  target := rfl
  coherent := by
    refine ⟨by decide, ?_, ?_⟩
    · rintro source hsource
      cases hsource
      decide
    · rintro source hsource
      cases hsource
      simp
  argument := by
    intro position range hrange _ _
    rcases position with _ | position
    · cases hrange
      rfl
    · cases hrange
  property := by
    intro position projections hprojections projection hmem
    rcases position with _ | position
    · cases hprojections
      cases hmem
    · cases hprojections

/-- The argument of `walk(ctx)` is the context. -/
theorem recursiveWalkRun_owned :
    ∃ proof, buildCapabilityFlowProof recursiveModules recursiveReachable recursiveIndex
        recursiveRegistration none = .ok proof ∧
      ∃ owner, proof.owned.get? ⟨"m.ts", 45, []⟩ = some owner ∧
        recursiveWalkRun.bindingValue flagModel owner = flagModel.context := by
  have hexecuted : ExecutedForwarding recursiveProgram flagModel recursiveWalkRun := by
    refine .next (.start ⟨recursiveHandlerRun_starts, fun hcallable => ?_⟩)
      ⟨_, recursiveWalkRun_enters, ?_, ?_⟩
    · exact absurd rfl hcallable
    · intro adapter hadapter
      cases hadapter
    · exact fun _ _ _ _ _ _ _ _ _ hspread => hspread
  exact ⟨_, rfl, _, rfl, (owned_capability_is_context recursiveProgram flagModel rfl
    hexecuted).1 ⟨"m.ts", 45, []⟩ _ rfl rfl⟩

/-- A registration whose handler calls the adapter's helper with its arguments. -/
def adaptedModule : ModuleSummary where
  units := ⟨[("run", ⟨"run", none, [], none, none,
      some ⟨"query", ⟨10, 35⟩, some "ctx", some 11, []⟩⟩)], by decide⟩
  imports := .empty
  exports := .empty
  calls := []
  references := []
  operations := []
  effects := []
  bindings_unique := by decide

def adapterHelperModule : ModuleSummary where
  units := ⟨[("wrap", ⟨"wrap", some ⟨0, 30⟩,
      [⟨0, "ctx", 14, [⟨"ctx", ⟨20, 23⟩, true, false⟩], []⟩], none, none, none⟩)], by decide⟩
  imports := .empty
  exports := .empty
  calls := []
  references := []
  operations := []
  effects := []
  bindings_unique := by decide

def adaptedHandler : ReachableUnit :=
  ⟨"m.ts#run:handler", "m.ts", "run", ⟨10, 35⟩, "handler", []⟩

def adapterHelper : ReachableUnit :=
  ⟨"h.ts#wrap", "h.ts", "wrap", ⟨0, 30⟩, "function", []⟩

def adaptedCall : ResolvedStaticCall :=
  ⟨("h.ts", "wrap"), adaptedHandler,
    ⟨"wrap", 20, 24, ⟨20, 30⟩, [⟨25, 29⟩], [0], [[]]⟩⟩

def adaptedProgram : RegistrationProgram where
  modules := ⟨[("h.ts", adapterHelperModule), ("m.ts", adaptedModule)], by decide⟩
  reachable := ⟨[adapterHelper, adaptedHandler], by decide⟩
  index := ⟨[adaptedCall],
    [⟨("h.ts", "wrap"), adaptedHandler, ⟨"wrap", ⟨20, 24⟩, true, false⟩, true⟩], []⟩
  registration := ⟨"query", ⟨10, 35⟩, some "ctx", some 11, []⟩
  adapter := some ⟨"auth", "h.ts", "wrap", 14⟩
  units_unique := by decide
  handler_parameters := by decide
  callers_reachable := by decide

def adaptedHandlerRun : Activation Bool where
  unit := adaptedHandler
  arguments position := decide (position = 0)
  eval _ := false

def adapterHelperRun : Activation Bool where
  unit := adapterHelper
  arguments _ := false
  eval _ := false

/-- The helper's context parameter is owned, but the handler's call binds it to
the arguments of the registration. -/
theorem adapterHelper_not_context :
    ∃ proof activation key owner,
      buildCapabilityFlowProof adaptedProgram.modules adaptedProgram.reachable
        adaptedProgram.index adaptedProgram.registration adaptedProgram.adapter = .ok proof ∧
      Executed adaptedProgram flagModel activation ∧
      proof.owned.get? key = some owner ∧ owner.unitId = activation.unit.id ∧
      activation.bindingValue flagModel owner ≠ flagModel.context := by
  have hstarts : Starts adaptedProgram flagModel adaptedHandlerRun := by
    refine .handler rfl rfl ⟨fun _ => by decide, ?_, ?_⟩
    · rintro source hsource
      cases hsource
      simp
    · rintro source hsource
      cases hsource
      simp
  have henters : Enters adaptedProgram flagModel adaptedHandlerRun adaptedCall
      adapterHelperRun :=
    { listed := by decide
      calledFrom := rfl
      reachable := by decide
      callable := by decide
      target := rfl
      coherent := by
        refine ⟨by decide, ?_, ?_⟩
        · rintro source hsource
          cases hsource
          decide
        · rintro source hsource
          cases hsource
          simp
      argument := fun _ _ _ _ _ => rfl
      property := by
        intro position projections hprojections projection hmem
        rcases position with _ | position
        · cases hprojections
          cases hmem
        · cases hprojections }
  exact ⟨_, adapterHelperRun, ⟨"h.ts", 14, []⟩, _, rfl,
    .next (.start hstarts) ⟨adaptedCall, henters⟩, rfl, rfl, by decide⟩

end ConvexWasm.Compiler
