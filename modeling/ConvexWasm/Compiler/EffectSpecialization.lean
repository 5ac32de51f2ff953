import ConvexWasm.Compiler.OperandResolution

/-!
# Specialised effects

A template is specialised at each safe and compatible call of its unit.  The
assignments are the product of what its operands resolve to, so the operands of
a chain of calls are among them, in whatever order templates and calls come.
-/

namespace ConvexWasm.Compiler.CallableEffects

open List

section Products

variable (calls : List CallEdge) (completeTargets : Option (List String))

/-- The literals that a call passes for an operand. -/
def operandValues (call : CallEdge) (operand : StaticOperand) : Set String :=
  {value | ∃ argument, call.arguments[operand.parameterIndex]? = some argument ∧
    value ∈ argumentValues calls completeTargets argument}

def OperandResolves (call : CallEdge) (operand : StaticOperand) : Prop :=
  ∃ argument, call.arguments[operand.parameterIndex]? = some argument ∧
    ArgumentTraceable calls completeTargets argument

/-- The operands take the values in turn. -/
def assignOperands (operands : List StaticOperand) (values : List String)
    (assignment : StaticAssignment) : StaticAssignment :=
  (operands.zip values).foldl (fun assigned pair => assigned.insert pair.2 pair.1.field) assignment

/-- One value for each operand. -/
def Choice (call : CallEdge) : List StaticOperand → List String → Prop :=
  List.Forall₂ fun operand value => value ∈ operandValues calls completeTargets call operand

/-- A template is specialised at a call with an assignment. -/
structure Specializes (policy : EffectPropagationPolicy) (template : EffectTemplate)
    (call : CallEdge) (assignment : StaticAssignment) : Prop where
  complete : isComplete completeTargets template.unitId = true
  target : call.targetUnitId = template.unitId
  safe : call.argumentsSafe = true
  compatible : compatiblePosition policy template call = true
  resolves : ∀ operand ∈ template.staticOperands, OperandResolves calls completeTargets call operand
  product : ∃ values, Choice calls completeTargets call template.staticOperands values ∧
    assignment = assignOperands template.staticOperands values .empty

end Products

variable {calls : List CallEdge} {completeTargets : Option (List String)}

/-- Expanding the operands of a call multiplies out what they resolve to. -/
theorem expandOperands_spec (call : CallEdge) (operands : List StaticOperand) :
    ∀ assignments cache, CacheCorrect calls completeTargets cache →
      CacheCorrect calls completeTargets
          (expandOperands calls completeTargets call operands assignments cache).2 ∧
        ∀ final, final ∈
            (expandOperands calls completeTargets call operands assignments cache).1 ↔
          (∀ operand ∈ operands, OperandResolves calls completeTargets call operand) ∧
            ∃ start ∈ assignments, ∃ values,
              Choice calls completeTargets call operands values ∧
                final = assignOperands operands values start := by
  induction operands with
  | nil =>
    intro assignments cache hcache
    refine ⟨hcache, fun final => ?_⟩
    simp [expandOperands, Choice, assignOperands]
  | cons operand rest ih =>
    intro assignments cache hcache
    rw [expandOperands]
    cases hargument : call.arguments[operand.parameterIndex]? with
    | none =>
      refine ⟨hcache, fun final => iff_of_false not_mem_nil ?_⟩
      rintro ⟨hresolves, _⟩
      obtain ⟨argument, hsome, _⟩ := hresolves operand mem_cons_self
      rw [hargument] at hsome
      cases hsome
    | some argument =>
      obtain ⟨hresult, hcacheNext⟩ := resolveArgument_spec argument hcache
      simp only
      cases houtcome : resolveArgument calls completeTargets argument cache with
      | mk result next =>
        rw [houtcome] at hresult hcacheNext
        cases result with
        | none =>
          refine ⟨hcacheNext, fun final => iff_of_false not_mem_nil ?_⟩
          rintro ⟨hresolves, _⟩
          obtain ⟨other, hsome, htraceable⟩ := hresolves operand mem_cons_self
          rw [hargument] at hsome
          cases hsome
          exact hresult htraceable
        | some found =>
          obtain ⟨htraceable, _, hfound⟩ := hresult
          obtain ⟨hcacheFinal, hmem⟩ := ih (assignments.flatMap fun assignment =>
            found.map fun value => assignment.insert value operand.field)
            next hcacheNext
          refine ⟨hcacheFinal, fun final => ?_⟩
          have hvalues : ∀ value, value ∈ found ↔
              value ∈ operandValues calls completeTargets call operand := by
            intro value
            rw [hfound, operandValues, Set.mem_ofPred_eq, hargument]
            simp
          have hresolves : OperandResolves calls completeTargets call operand :=
            ⟨argument, hargument, htraceable⟩
          rw [hmem, forall_mem_cons]
          refine and_congr (iff_and_self.mpr fun _ => hresolves) ?_
          constructor
          · rintro ⟨middle, hmiddle, later, hlater, rfl⟩
            obtain ⟨start, hstart, hinsert⟩ := mem_flatMap.mp hmiddle
            obtain ⟨value, hvalue, rfl⟩ := mem_map.mp hinsert
            exact ⟨start, hstart, value :: later, .cons ((hvalues value).mp hvalue) hlater, rfl⟩
          · rintro ⟨start, hstart, values, hchoice, rfl⟩
            cases hchoice with
            | @cons _ value _ later hvalue hlater =>
              refine ⟨start.insert value operand.field, ?_, later, hlater, rfl⟩
              exact mem_flatMap.mpr ⟨start, hstart,
                mem_map.mpr ⟨value, (hvalues value).mpr hvalue, rfl⟩⟩

theorem specializeCalls_spec (policy : EffectPropagationPolicy) (template : EffectTemplate)
    (hcomplete : isComplete completeTargets template.unitId = true) (visited : List CallEdge)
    (htarget : ∀ call ∈ visited, call.targetUnitId = template.unitId) :
    ∀ cache, CacheCorrect calls completeTargets cache →
      CacheCorrect calls completeTargets
          (specializeCalls calls completeTargets policy template visited cache).2 ∧
        ∀ found, found ∈
            (specializeCalls calls completeTargets policy template visited cache).1 ↔
          ∃ call ∈ visited, ∃ assignment,
            Specializes calls completeTargets policy template call assignment ∧
              found = specialization template call assignment := by
  induction visited with
  | nil =>
    intro cache hcache
    exact ⟨hcache, by simp [specializeCalls]⟩
  | cons call rest ih =>
    intro cache hcache
    have hrest := ih fun later hlater => htarget later (mem_cons_of_mem _ hlater)
    rw [specializeCalls]
    by_cases hskipped : ¬ call.argumentsSafe = true ∨
        ¬ compatiblePosition policy template call = true
    · rw [if_pos hskipped]
      obtain ⟨hcacheFinal, hmem⟩ := hrest cache hcache
      refine ⟨hcacheFinal, fun found => ?_⟩
      rw [hmem, exists_mem_cons_iff, or_iff_right]
      rintro ⟨assignment, hspecializes, _⟩
      exact hskipped.elim (· hspecializes.safe) (· hspecializes.compatible)
    · rw [if_neg hskipped]
      obtain ⟨hsafe, hcompatible⟩ := not_or.mp hskipped
      rw [not_not] at hsafe hcompatible
      obtain ⟨hcacheNext, hassignments⟩ :=
        expandOperands_spec call template.staticOperands [.empty] cache hcache
      obtain ⟨hcacheFinal, hmem⟩ := hrest _ hcacheNext
      refine ⟨hcacheFinal, fun found => ?_⟩
      rw [mem_append, hmem, exists_mem_cons_iff, mem_map]
      refine or_congr_left (exists_congr fun assignment => ?_)
      rw [hassignments, @eq_comm _ (specialization template call assignment)]
      refine and_congr_left fun _ => ?_
      constructor
      · rintro ⟨hresolves, start, hstart, values, hchoice, hassignment⟩
        rw [mem_singleton] at hstart
        subst hstart
        exact ⟨hcomplete, htarget call mem_cons_self, hsafe, hcompatible, hresolves,
          values, hchoice, hassignment⟩
      · intro hspecializes
        exact ⟨hspecializes.resolves, .empty, mem_singleton_self _, hspecializes.product⟩

theorem specializeTemplates_spec (policy : EffectPropagationPolicy)
    (templates : List EffectTemplate) :
    ∀ cache, CacheCorrect calls completeTargets cache → ∀ found,
      found ∈ (specializeTemplates calls completeTargets policy templates cache).1 ↔
        ∃ template ∈ templates, ∃ call ∈ calls, ∃ assignment,
          Specializes calls completeTargets policy template call assignment ∧
            found = specialization template call assignment := by
  induction templates with
  | nil =>
    intro cache _ found
    simp [specializeTemplates]
  | cons template rest ih =>
    intro cache hcache found
    rw [specializeTemplates, exists_mem_cons_iff]
    by_cases hcomplete : isComplete completeTargets template.unitId = true
    · rw [if_neg (not_not.mpr hcomplete)]
      obtain ⟨hcacheNext, hfound⟩ := specializeCalls_spec policy template hcomplete
        (incoming calls template.unitId) (fun call hcall => (mem_incoming.mp hcall).2)
        cache hcache
      rw [mem_append, hfound, ih _ hcacheNext]
      refine or_congr_left (exists_congr fun call => ?_)
      rw [mem_incoming, and_assoc]
      refine and_congr_right fun _ => and_iff_right_of_imp ?_
      rintro ⟨assignment, hspecializes, _⟩
      exact hspecializes.target
    · rw [if_pos hcomplete, ih cache hcache, or_iff_right]
      rintro ⟨call, _, assignment, hspecializes, _⟩
      exact hcomplete hspecializes.complete

theorem mem_dedupNeighbours (found : EffectSpecialization) (output : List EffectSpecialization) :
    found ∈ dedupNeighbours output ↔ found ∈ output := by
  induction output with
  | nil => rfl
  | cons first rest ih =>
    rw [dedupNeighbours, mem_cons, ← ih]
    cases dedupNeighbours rest with
    | nil => simp
    | cons next later =>
      by_cases hsame : first = next
      · simp [hsame]
      · simp [hsame]

variable {policy : EffectPropagationPolicy}

/-- The effects emitted for templates and calls. -/
theorem mem_specializeEffectsWithPolicy {templates : List EffectTemplate}
    {found : EffectSpecialization} :
    found ∈ specializeEffectsWithPolicy templates calls completeTargets policy ↔
      ∃ template ∈ templates, ∃ call ∈ calls, ∃ assignment,
        Specializes calls completeTargets policy template call assignment ∧
          found = specialization template call assignment := by
  rw [specializeEffectsWithPolicy, mem_dedupNeighbours, (perm_insertionSort _ _).mem_iff]
  exact specializeTemplates_spec policy templates [] cacheCorrect_nil found

/-- The literal that a chain of calls, the last call first, passes for a
parameter of the last target. -/
def chainValue : List CallEdge → ℕ → Option String
  | [], _ => none
  | call :: earlier, index =>
    match call.arguments[index]? with
    | some (.literalString value) => some value
    | some (.parameter key) =>
      if earlier.head?.map CallEdge.targetUnitId = some key.1 then
        chainValue earlier key.2
      else none
    | _ => none

/-- What a chain of calls passes is among the literals behind its last call. -/
theorem chainValue_mem {value : String} (chain : List CallEdge)
    (hchain : ∀ call ∈ chain, call ∈ calls) :
    ∀ index, chainValue chain index = some value →
      ∃ call ∈ chain.head?, ∃ argument, call.arguments[index]? = some argument ∧
        value ∈ argumentValues calls completeTargets argument := by
  induction chain with
  | nil =>
    intro index hvalue
    cases hvalue
  | cons call earlier ih =>
    intro index hvalue
    refine ⟨call, rfl, ?_⟩
    rw [chainValue] at hvalue
    cases hargument : call.arguments[index]? with
    | none =>
      rw [hargument] at hvalue
      cases hvalue
    | some argument =>
      rw [hargument] at hvalue
      refine ⟨argument, rfl, ?_⟩
      cases argument with
      | unknown => cases hvalue
      | literalString literal =>
        cases hvalue
        rfl
      | parameter key =>
        simp only at hvalue
        split at hvalue
        case isFalse => cases hvalue
        case isTrue htarget =>
          obtain ⟨next, hnext, argument, hpassed, hmem⟩ :=
            ih (fun other hother => hchain other (mem_cons_of_mem _ hother)) key.2 hvalue
          rw [hnext] at htarget
          have hnextMem : next ∈ earlier := mem_of_head? hnext
          exact mem_parameter_values.mpr ⟨next,
            hchain next (mem_cons_of_mem _ hnextMem), Option.some.inj htarget,
            argument, hpassed, hmem⟩

/-- The caches that resolving one argument after another leaves behind. -/
inductive Resolved (calls : List CallEdge) (completeTargets : Option (List String)) :
    StaticCache → Prop
  | empty : Resolved calls completeTargets []
  | argument {cache : StaticCache} (argument : ArgumentFlow)
      (hcache : Resolved calls completeTargets cache) :
      Resolved calls completeTargets (resolveArgument calls completeTargets argument cache).2

theorem Resolved.cacheCorrect {cache : StaticCache}
    (hresolved : Resolved calls completeTargets cache) :
    CacheCorrect calls completeTargets cache := by
  induction hresolved with
  | empty => exact cacheCorrect_nil
  | argument argument _ ih => exact (resolveArgument_spec argument ih).2

variable {reordered : List CallEdge}

section

variable (hcalls : ∀ call, call ∈ calls ↔ call ∈ reordered)
include hcalls

/-- The flow of values depends on which calls there are, not on their order. -/
theorem parameterFlow_congr :
    parameterFlow calls completeTargets = parameterFlow reordered completeTargets := by
  simp only [parameterFlow, Passes, hcalls]

theorem argumentValues_congr :
    argumentValues calls completeTargets = argumentValues reordered completeTargets := by
  funext argument
  cases argument with
  | literalString value => rfl
  | unknown => rfl
  | parameter key => rw [argumentValues, argumentValues, parameterFlow_congr hcalls]

theorem argumentTraceable_congr :
    ArgumentTraceable calls completeTargets =
      ArgumentTraceable reordered completeTargets := by
  funext argument
  cases argument with
  | literalString value => rfl
  | unknown => rfl
  | parameter key => rw [ArgumentTraceable, ArgumentTraceable, parameterFlow_congr hcalls]

theorem specializes_congr {template : EffectTemplate} {call : CallEdge}
    {assignment : StaticAssignment}
    (hspecializes : Specializes calls completeTargets policy template call assignment) :
    Specializes reordered completeTargets policy template call assignment := by
  obtain ⟨values, hchoice, hassignment⟩ := hspecializes.product
  refine ⟨hspecializes.complete, hspecializes.target, hspecializes.safe,
    hspecializes.compatible, fun operand hoperand => ?_, values, ?_, hassignment⟩
  · have hresolves := hspecializes.resolves operand hoperand
    rwa [OperandResolves, argumentTraceable_congr hcalls] at hresolves
  · rw [Choice] at hchoice ⊢
    have hvalues : operandValues calls completeTargets call =
        operandValues reordered completeTargets call := by
      funext operand
      rw [operandValues, operandValues, argumentValues_congr hcalls]
    rwa [hvalues] at hchoice

end

/-- Resolution finds exactly the literals behind a parameter, whatever was
resolved before, and every template is specialised to their product: the
operands of a chain of calls are emitted, in whatever order templates and calls
are listed. -/
theorem specializes_to_resolved_operands (templates : List EffectTemplate)
    (calls : List CallEdge) (completeTargets : Option (List String))
    (policy : EffectPropagationPolicy) :
    (∀ cache, Resolved calls completeTargets cache → ∀ key,
      let result := (resolveParameter calls completeTargets (resolutionFuel calls) key cache []).1
      (result.isSome = true ↔ (parameterFlow calls completeTargets).Traceable key) ∧
        ∀ values, result = some values →
          ∀ value, value ∈ values ↔ value ∈ (parameterFlow calls completeTargets).values key) ∧
    (∀ found, found ∈ specializeEffectsWithPolicy templates calls completeTargets policy ↔
      ∃ template ∈ templates, ∃ call ∈ calls, ∃ assignment,
        Specializes calls completeTargets policy template call assignment ∧
          found = specialization template call assignment) ∧
    (∀ template ∈ templates, ∀ call earlier, (∀ other ∈ call :: earlier, other ∈ calls) →
      isComplete completeTargets template.unitId = true →
      call.targetUnitId = template.unitId → call.argumentsSafe = true →
      compatiblePosition policy template call = true →
      (∀ operand ∈ template.staticOperands, OperandResolves calls completeTargets call operand) →
      ∀ values, List.Forall₂ (fun operand value =>
          chainValue (call :: earlier) operand.parameterIndex = some value)
        template.staticOperands values →
      specialization template call (assignOperands template.staticOperands values .empty) ∈
        specializeEffectsWithPolicy templates calls completeTargets policy) ∧
    ∀ reorderedTemplates reorderedCalls, templates.Perm reorderedTemplates →
      calls.Perm reorderedCalls → ∀ found,
        (found ∈ specializeEffectsWithPolicy templates calls completeTargets policy ↔
          found ∈ specializeEffectsWithPolicy reorderedTemplates reorderedCalls
            completeTargets policy) := by
  refine ⟨?_, fun found => mem_specializeEffectsWithPolicy, ?_, ?_⟩
  · intro cache hresolved key
    have hresult := (resolveArgument_spec (.parameter key) hresolved.cacheCorrect).1
    rw [resolveArgument] at hresult
    cases hsearch : (resolveParameter calls completeTargets (resolutionFuel calls) key
        cache []).1 with
    | none =>
      rw [hsearch] at hresult
      refine ⟨iff_of_false Bool.false_ne_true hresult, fun values hsome => ?_⟩
      cases hsome
    | some values =>
      rw [hsearch] at hresult
      refine ⟨iff_of_true rfl hresult.1, fun found hsome => ?_⟩
      cases hsome
      exact hresult.2.2
  · intro template htemplate call earlier hchain hcomplete htarget hsafe hcompatible hresolves
      values hvalues
    refine mem_specializeEffectsWithPolicy.mpr ⟨template, htemplate, call,
      hchain call mem_cons_self, _, ⟨hcomplete, htarget, hsafe, hcompatible, hresolves,
        values, hvalues.imp fun operand value hvalue => ?_, rfl⟩, rfl⟩
    obtain ⟨last, hlast, argument, hargument, hmem⟩ :=
      chainValue_mem (call :: earlier) hchain operand.parameterIndex hvalue
    cases hlast
    exact ⟨argument, hargument, hmem⟩
  · intro reorderedTemplates reorderedCalls htemplates hcalls found
    have hmem : ∀ call, call ∈ calls ↔ call ∈ reorderedCalls := fun _ => hcalls.mem_iff
    rw [mem_specializeEffectsWithPolicy, mem_specializeEffectsWithPolicy]
    constructor
    · rintro ⟨template, htemplate, call, hcall, assignment, hspecializes, hfound⟩
      exact ⟨template, htemplates.mem_iff.mp htemplate, call, (hmem call).mp hcall, assignment,
        specializes_congr hmem hspecializes, hfound⟩
    · rintro ⟨template, htemplate, call, hcall, assignment, hspecializes, hfound⟩
      exact ⟨template, htemplates.mem_iff.mpr htemplate, call, (hmem call).mpr hcall, assignment,
        specializes_congr (fun other => (hmem other).symm) hspecializes, hfound⟩

/-- A loader of the table that its parameter names. -/
def loadTemplate : EffectTemplate where
  id := "load:get"
  unitId := "load"
  staticOperands := [⟨.table, 0⟩]
  timing := .suspending
  tailReturnSafe := false

/-- A helper that passes its own parameter on to the loader. -/
def loadCall : CallEdge where
  callerModule := "forward.ts"
  callStart := 10
  callEnd := 20
  targetUnitId := "load"
  arguments := [.parameter ("forward", 0)]
  argumentsSafe := true
  position := .sequentialAwait

def forwardCall : CallEdge where
  callerModule := "entry.ts"
  callStart := 30
  callEnd := 40
  targetUnitId := "forward"
  arguments := [.literalString "users"]
  argumentsSafe := true
  position := .sequentialAwait

theorem specializes_to_forwarded_literal :
    (parameterFlow [loadCall, forwardCall] none).Traceable ("load", 0) ∧
      specialization loadTemplate loadCall ⟨some "users", none, none⟩ ∈
        specializeEffectsWithPolicy [loadTemplate] [forwardCall, loadCall] none
          .blockingFiberCompatibility := by
  obtain ⟨hresolve, -, hchains, horder⟩ := specializes_to_resolved_operands [loadTemplate]
    [loadCall, forwardCall] none .blockingFiberCompatibility
  have hload : (parameterFlow [loadCall, forwardCall] none).Traceable ("load", 0) :=
    (hresolve [] .empty ("load", 0)).1.mp (by decide)
  have hforward : (parameterFlow [loadCall, forwardCall] none).Traceable ("forward", 0) :=
    (hresolve [] .empty ("forward", 0)).1.mp (by decide)
  have hchain := hchains loadTemplate (mem_singleton_self _) loadCall [forwardCall]
    (fun _ hother => hother) (by decide) rfl rfl (by decide)
    (fun operand hoperand => by
      rw [mem_singleton.mp hoperand]
      exact ⟨.parameter ("forward", 0), rfl, hforward⟩)
    ["users"] (.cons (by decide) .nil)
  exact ⟨hload, (horder [loadTemplate] [forwardCall, loadCall] (.refl _)
    (.swap forwardCall loadCall []) _).mp hchain⟩

/-- The target of the parameter is complete and its only chain of calls ends in
a literal, but the helper in between is not complete. -/
theorem incomplete_forwarder_not_resolved :
    isComplete (some ["load"]) "load" = true ∧
      (parameterFlow [loadCall, forwardCall] none).Traceable ("load", 0) ∧
      (resolveParameter [loadCall, forwardCall] (some ["load"])
        (resolutionFuel [loadCall, forwardCall]) ("load", 0) [] []).1 = none := by
  refine ⟨by decide, ?_, by decide⟩
  have hcache : CacheCorrect [loadCall, forwardCall] none [] := cacheCorrect_nil
  have hresult := (resolveArgument_spec (.parameter ("load", 0)) hcache).1
  have hsearch : (resolveArgument [loadCall, forwardCall] none (.parameter ("load", 0))
      []).1 = some ["users"] := by decide
  exact hresult.1

end ConvexWasm.Compiler.CallableEffects
