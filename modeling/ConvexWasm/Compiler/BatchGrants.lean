import ConvexWasm.Compiler.BatchBinding

/-!
# Batches that keep their shape

An authorisation is granted for the shape of a batch of the source.  The same
batch of the generated text is bound with its own ranges, unless the effect is
that of a helper with a limit argument: the limit is compared and never taken
over from the operation.
-/

namespace ConvexWasm.Compiler.BatchBinding

open Fallible List

section Granted

variable (operations : List AdmittedOperation)

/-- The call of the helper whose effect the operation is. -/
structure HelperCallGranted (texts : EffectTexts) (operation : AdmittedOperation)
    (authorization : EffectAuthorization) (helperCallee : String) (shape : EffectShape) : Prop where
  indirection : shape.shapeError = some texts.indirection
  callee : shape.helperCallee = some helperCallee
  indices : ∀ index ∈ authorization.helperDynamicArgumentIndices,
    index < shape.helperArguments.length
  count : authorization.helperDynamicArgumentIndices.length =
    operationDynamicArgumentCount operation
  noLimit : shape.limitArgumentIndex = none
  kind : ∃ kind, directBatchCandidateOperationKind operation = .ok kind

/-- The effect that the authorisation was granted for. -/
def EffectGranted (texts : EffectTexts) (authorization : EffectAuthorization)
    (shape : EffectShape) : Prop :=
  ∃ operation,
    operations.find? (fun operation => decide (operation.id = authorization.operationId)) =
        some operation ∧
      authorization.operationKind = operation.kind ∧
      directBatchResultKind operation = .ok authorization.resultKind ∧
      authorization.dynamicArguments.length = operationDynamicArgumentCount operation ∧
      match authorization.helperCallee with
      | none => shape.shapeError = none ∧ operationMatches operation shape = true
      | some helperCallee =>
        HelperCallGranted texts operation authorization helperCallee shape

/-- The batch that the authorisation was granted for. -/
def Granted (authorization : DirectAsyncBatchAuthorization)
    (candidate : DirectAsyncBatchCandidate) : Prop :=
  match authorization.shape with
  | .singleEffectMap map =>
    candidate.batchKind = "singleEffectMap" ∧
      EffectGranted operations mappedTexts map.toEffectAuthorization candidate.toEffectShape ∧
      candidate.iteratorField = map.argumentField ∧
      candidate.callbackParameter = some map.callbackParameter ∧
      candidate.iteratorStart.isSome ∧ candidate.iteratorStop.isSome
  | .fixedEffectArray children =>
    candidate.batchKind = "fixedEffectArray" ∧
      List.Forall₂ (fun child generated => EffectGranted operations fixedTexts
        child.toEffectAuthorization generated.toEffectShape) children candidate.fixedChildren

def DirectAsyncBatchAuthorizationShape.effects :
    DirectAsyncBatchAuthorizationShape → List EffectAuthorization
  | .singleEffectMap map => [map.toEffectAuthorization]
  | .fixedEffectArray children => children.map fun child => child.toEffectAuthorization

/-- The effect is not read through a helper with a limit argument. -/
def WithoutHelperLimit (authorization : EffectAuthorization) : Prop :=
  authorization.helperCallee.isSome → ∀ operation,
    operations.find? (fun operation => decide (operation.id = authorization.operationId)) =
      some operation → operation.limitArgumentIndex = none

end Granted

section Kept

variable (text : GeneratedText)

/-- The helper that the effect continues in stands in the generated text as it was. -/
def ContinuationKept (authorization : EffectAuthorization) (shape : EffectShape) : Prop :=
  ∀ continuation, authorization.helperContinuation = some continuation →
    ∃ function generated,
      text.functions.filter (fun function =>
          decide (function.name = continuation.helperBinding)) = [function] ∧
        function.helper.shapeError = none ∧
        function.helper.dynamicParameterIndices = authorization.helperDynamicArgumentIndices ∧
        function.helper.continuation = some generated ∧
        function.parameters = .ok continuation.helperParameters ∧
        continuation.helperArguments.length = shape.helperArguments.length

def ContinuationsKept (authorization : DirectAsyncBatchAuthorization)
    (candidate : DirectAsyncBatchCandidate) : Prop :=
  match authorization.shape with
  | .singleEffectMap map =>
    ContinuationKept text map.toEffectAuthorization candidate.toEffectShape
  | .fixedEffectArray children =>
    List.Forall₂ (fun child generated => ContinuationKept text
      child.toEffectAuthorization generated.toEffectShape) children candidate.fixedChildren

def EffectShape.spans (shape : EffectShape) : List SourceRange :=
  shape.dynamicArguments ++ shape.helperArguments

/-- The spans of the batch that the binding cuts out of the text. -/
def DirectAsyncBatchCandidate.spans (candidate : DirectAsyncBatchCandidate) : List SourceRange :=
  candidate.range :: candidate.toEffectShape.spans ++
    (candidate.iteratorStart.bind fun start =>
      candidate.iteratorStop.map fun stop => ⟨start, stop⟩).toList ++
    candidate.fixedChildren.flatMap fun child => child.range :: child.toEffectShape.spans

/-- The text can be cut at the spans. -/
def Legible (spans : List SourceRange) : Prop := ∀ span ∈ spans, (text.digest span).isSome

end Kept

/-- The ranges of the arguments that the effect is called with. -/
def argumentRanges (authorization : EffectAuthorization) (shape : EffectShape) : List SourceRange :=
  match authorization.helperCallee with
  | none => shape.dynamicArguments
  | some _ =>
    authorization.helperDynamicArgumentIndices.filterMap fun index =>
      shape.helperArguments[index]?

/-- The authorisation now has the ranges of the effect of the occurrence. -/
structure EffectBound (authorization : EffectAuthorization) (shape : EffectShape)
    (bound : EffectAuthorization) : Prop where
  operationId : bound.operationId = authorization.operationId
  operationKind : bound.operationKind = authorization.operationKind
  resultKind : bound.resultKind = authorization.resultKind
  sources : bound.dynamicArguments.map (fun argument => argument.source) =
    authorization.dynamicArguments.map fun argument => argument.source
  ranges : bound.dynamicArguments.map (fun argument => argument.generated) =
    argumentRanges authorization shape

def ShapeBound (candidate : DirectAsyncBatchCandidate) :
    DirectAsyncBatchAuthorizationShape → DirectAsyncBatchAuthorizationShape → Prop
  | .singleEffectMap map, .singleEffectMap bound =>
    EffectBound map.toEffectAuthorization candidate.toEffectShape
        bound.toEffectAuthorization ∧
      candidate.iteratorStart = some bound.generatedIterator.start ∧
      candidate.iteratorStop = some bound.generatedIterator.stop
  | .fixedEffectArray children, .fixedEffectArray bounds =>
    List.Forall₂ (fun child bound => bound.source = child.1.source ∧
        bound.generated = child.2.range ∧ EffectBound child.1.toEffectAuthorization
          child.2.toEffectShape bound.toEffectAuthorization)
      (children.zip candidate.fixedChildren) bounds
  | _, _ => False

/-- The authorisation now has the ranges of the occurrence, and of nothing else. -/
structure Bound (authorization : DirectAsyncBatchAuthorization)
    (candidate : DirectAsyncBatchCandidate) (bound : DirectAsyncBatchAuthorization) : Prop where
  id : bound.id = authorization.id
  file : bound.file = authorization.file
  source : bound.source = authorization.source
  generated : bound.generated = candidate.range
  shape : ShapeBound candidate authorization.shape bound.shape

variable {text : GeneratedText}

section Arguments

theorem sourceSlice_ok {range : SourceRange} (hlegible : (text.digest range).isSome) :
    ∃ sha256, sourceSlice text range = .ok sha256 := by
  obtain ⟨sha256, hdigest⟩ := Option.isSome_iff_exists.mp hlegible
  exact ⟨sha256, by rw [sourceSlice, hdigest]⟩

variable {ranges : List SourceRange}

theorem bindArguments_map {authorizations bound : List DirectAsyncBatchArgumentAuthorization}
    (hlength : authorizations.length = ranges.length)
    (hbound : bindArguments text authorizations ranges = .ok bound) :
    bound.map (fun argument => argument.source) =
        authorizations.map (fun argument => argument.source) ∧
      bound.map (fun argument => argument.generated) = ranges := by
  induction authorizations generalizing ranges bound with
  | nil =>
    obtain rfl : ranges = [] := length_eq_zero_iff.mp hlength.symm
    cases hbound
    exact ⟨rfl, rfl⟩
  | cons authorization rest ih =>
    cases ranges with
    | nil => cases hlength
    | cons range ranges =>
      obtain ⟨first, hfirst, hrest⟩ := Fallible.bind_eq_ok.mp hbound
      obtain ⟨later, hlater, hresult⟩ := Fallible.bind_eq_ok.mp hrest
      obtain ⟨sha256, -, hargument⟩ := Fallible.bind_eq_ok.mp hfirst
      cases hargument
      cases hresult
      obtain ⟨hsources, hranges⟩ := ih (by simpa using hlength) hlater
      exact ⟨by rw [map_cons, map_cons, hsources], by rw [map_cons, hranges]⟩

theorem bindArguments_ok {authorizations : List DirectAsyncBatchArgumentAuthorization}
    (hlegible : Legible text ranges) :
    ∃ bound, bindArguments text authorizations ranges = .ok bound := by
  induction authorizations generalizing ranges with
  | nil => exact ⟨[], by rw [bindArguments]; simp⟩
  | cons authorization rest ih =>
    cases ranges with
    | nil => exact ⟨authorization :: rest, rfl⟩
    | cons range ranges =>
      obtain ⟨sha256, hslice⟩ := sourceSlice_ok (hlegible range mem_cons_self)
      have hranges : Legible text ranges := fun span hspan =>
        hlegible span (mem_cons_of_mem _ hspan)
      obtain ⟨later, hlater⟩ := ih hranges
      rw [bindArguments, hlater, bindGeneratedDirectAsyncBatchArgument, hslice]
      exact ⟨_, rfl⟩

theorem bindContinuation_ok {authorization : EffectAuthorization} {shape : EffectShape}
    (hkept : ContinuationKept text authorization shape)
    (hlegible : Legible text shape.helperArguments) :
    ∃ bound, bindContinuation text shape.helperArguments
      authorization.helperDynamicArgumentIndices authorization.helperContinuation =
        .ok bound := by
  cases hcontinuation : authorization.helperContinuation with
  | none => exact ⟨none, rfl⟩
  | some continuation =>
    obtain ⟨function, generated, hfunction, hshape, hindices, hgenerated, hparameters,
      hlength⟩ := hkept continuation hcontinuation
    obtain ⟨arguments, harguments⟩ : ∃ bound,
        bindArguments text continuation.helperArguments shape.helperArguments = .ok bound :=
      bindArguments_ok hlegible
    rw [bindContinuation, bindGeneratedHelperContinuation]
    simp only [hfunction, hshape, hindices, hgenerated, hparameters, hlength, harguments,
      and_self, not_true_eq_false, if_false, ok_bind]
    exact ⟨_, rfl⟩

end Arguments

variable {operations : List AdmittedOperation}

section Effects

variable {texts : EffectTexts}
variable {authorization : EffectAuthorization} {shape : EffectShape}

variable {operation : AdmittedOperation}

theorem expectedOperationKind_of_candidate {kind : String}
    (hkind : directBatchCandidateOperationKind operation = .ok kind) :
    expectedOperationKind kind = some operation.kind := by
  unfold directBatchCandidateOperationKind at hkind
  split at hkind <;> cases hkind <;> simp_all [expectedOperationKind]

variable {indices : List ℕ}

/-- Once the arguments agree in number, a helper's effect matches its operation when
the operation has no more of a limit argument than the call of the helper. -/
theorem bindGeneratedHelperShape_matches {indirection changed helperCallee : String}
    {bound : EffectShape}
    (hbound : bindGeneratedHelperShape indirection changed shape operation helperCallee
      indices = .ok bound) :
    operationMatches operation bound = true ↔
      operation.limitArgumentIndex = shape.limitArgumentIndex ∧
        operationDynamicArgumentCount operation =
          (indices.filterMap fun index => shape.helperArguments[index]?).length := by
  rw [bindGeneratedHelperShape] at hbound
  split at hbound
  · cases hbound
  obtain ⟨kind, hkind, hresult⟩ := Fallible.bind_eq_ok.mp hbound
  cases hresult
  have hconstraints : (generatedIndexConstraintCandidates operation).map
      (fun constraint => (constraint.field, constraint.operator)) =
        operation.indexConstraints.map fun constraint =>
          (constraint.field, constraint.operator) := by
    rw [generatedIndexConstraintCandidates, map_map]
    rfl
  simp [operationMatches, expectedOperationKind_of_candidate hkind, hconstraints]

theorem length_filterMap_get {ranges : List SourceRange}
    (hindices : ∀ index ∈ indices, index < ranges.length) :
    (indices.filterMap fun index => ranges[index]?).length = indices.length := by
  induction indices with
  | nil => rfl
  | cons index rest ih =>
    have hlt := hindices index mem_cons_self
    rw [filterMap_cons_some (List.getElem?_eq_getElem hlt), length_cons,
      ih fun later hlater => hindices later (mem_cons_of_mem _ hlater),
      length_cons]

theorem resolvedShape_arguments {resolved : EffectShape}
    (hresolved : resolvedShape texts operation authorization shape = .ok resolved) :
    resolved.dynamicArguments = argumentRanges authorization shape ∧
      resolved.helperArguments = shape.helperArguments := by
  rw [resolvedShape] at hresolved
  rw [argumentRanges]
  split at hresolved
  · next helperCallee hcallee =>
      rw [bindGeneratedHelperShape] at hresolved
      split at hresolved
      · cases hresolved
      obtain ⟨kind, -, hresult⟩ := Fallible.bind_eq_ok.mp hresolved
      cases hresult
      rw [hcallee]
      exact ⟨rfl, rfl⟩
  · next hcallee =>
      split at hresolved
      · cases hresolved
      cases hresolved
      rw [hcallee]
      exact ⟨rfl, rfl⟩

theorem argumentRanges_subset : argumentRanges authorization shape ⊆ shape.spans := by
  intro span hspan
  rw [argumentRanges] at hspan
  split at hspan
  · exact mem_append_left _ hspan
  · obtain ⟨index, -, hget⟩ := mem_filterMap.mp hspan
    exact mem_append_right _ (mem_of_getElem? hget)

theorem operationMatches_count (hmatches : operationMatches operation shape = true) :
    operationDynamicArgumentCount operation = shape.dynamicArguments.length := by
  rw [operationMatches] at hmatches
  split at hmatches
  · cases hmatches
  · exact of_decide_eq_true (Bool.and_eq_true_iff.mp hmatches).2

variable {Span : Type} {accepted : Bool} {span : Except String Span}

/-- What a successful binding of an effect went through. -/
theorem bindEffect_inv {bound : Span × EffectAuthorization}
    (hbound : bindEffect text operations texts accepted span authorization shape = .ok bound) :
    (∃ operation resolved,
      operations.find? (fun operation => decide (operation.id = authorization.operationId)) =
          some operation ∧
        resolvedShape texts operation authorization shape = .ok resolved ∧
        operationMatches operation resolved = true) ∧
      accepted = true ∧ span = .ok bound.1 ∧ EffectBound authorization shape bound.2 := by
  obtain ⟨operation, hoperation, hbound⟩ := Fallible.bind_eq_ok.mp hbound
  obtain ⟨resolved, hresolved, hbound⟩ := Fallible.bind_eq_ok.mp hbound
  obtain ⟨continuation, hcontinuation, hbound⟩ := Fallible.bind_eq_ok.mp hbound
  dsimp only at hbound
  split at hbound
  · cases hbound
  next haccepted =>
  split at hbound
  · cases hbound
  obtain ⟨resultKind, hresultKind, hbound⟩ := Fallible.bind_eq_ok.mp hbound
  split at hbound
  · cases hbound
  next hmetadata =>
  obtain ⟨value, hvalue, hbound⟩ := Fallible.bind_eq_ok.mp hbound
  obtain ⟨arguments, harguments, hbound⟩ := Fallible.bind_eq_ok.mp hbound
  cases hbound
  have hfound : operations.find?
      (fun operation => decide (operation.id = authorization.operationId)) = some operation := by
    rw [findOperation] at hoperation
    split at hoperation
    · cases hoperation
    · next found hfound =>
        cases hoperation
        exact hfound
  obtain ⟨hsources, hranges⟩ := bindArguments_map (not_not.mp hmetadata).2 harguments
  refine ⟨⟨operation, resolved, hfound, hresolved, (not_not.mp haccepted).1⟩,
    (not_not.mp haccepted).2, hvalue, ⟨rfl, rfl, rfl, hsources, ?_⟩⟩
  rw [hranges]
  exact (resolvedShape_arguments hresolved).1

/-- An effect is bound on what it was granted for exactly when no limit stands in a
helper. -/
theorem bindEffect_ok_iff {value : Span} (haccepted : accepted = true) (hspan : span = .ok value)
    (hgranted : EffectGranted operations texts authorization shape)
    (hkept : ContinuationKept text authorization shape) (hlegible : Legible text shape.spans) :
    (∃ bound, bindEffect text operations texts accepted span authorization shape =
        .ok bound) ↔ WithoutHelperLimit operations authorization := by
  obtain ⟨operation, hfound, hkind, hresultKind, hcount, hshape⟩ := hgranted
  constructor
  · rintro ⟨bound, hbound⟩ hhelper found hother
    obtain ⟨⟨other, resolved, hfound', hresolved, hmatches⟩, -⟩ := bindEffect_inv hbound
    obtain rfl : other = found := Option.some.inj (hfound'.symm.trans hother)
    obtain ⟨helperCallee, hcallee⟩ := Option.isSome_iff_exists.mp hhelper
    rw [hcallee] at hshape
    rw [resolvedShape, hcallee] at hresolved
    rw [((bindGeneratedHelperShape_matches hresolved).mp hmatches).1, hshape.noLimit]
  · intro hlimit
    obtain ⟨resolved, hresolved, hmatches⟩ : ∃ resolved,
        resolvedShape texts operation authorization shape = .ok resolved ∧
          operationMatches operation resolved = true := by
      cases hcallee : authorization.helperCallee with
      | none =>
        rw [hcallee] at hshape
        refine ⟨shape, ?_, hshape.2⟩
        rw [resolvedShape, hcallee]
        simp [hshape.1]
      | some helperCallee =>
        rw [hcallee] at hshape
        obtain ⟨kind, hcandidate⟩ := hshape.kind
        have hcall : shape.shapeError = some texts.indirection ∧
            shape.helperCallee = some helperCallee ∧
            ∀ index ∈ authorization.helperDynamicArgumentIndices,
              index < shape.helperArguments.length :=
          ⟨hshape.indirection, hshape.callee, hshape.indices⟩
        obtain ⟨resolved, hresolved⟩ : ∃ resolved,
            bindGeneratedHelperShape texts.indirection texts.changed shape operation
              helperCallee authorization.helperDynamicArgumentIndices = .ok resolved := by
          rw [bindGeneratedHelperShape, if_neg (not_not.mpr hcall), hcandidate]
          exact ⟨_, rfl⟩
        refine ⟨resolved, by rw [resolvedShape, hcallee]; exact hresolved, ?_⟩
        apply (bindGeneratedHelperShape_matches hresolved).mpr
        constructor
        · rw [hshape.noLimit]
          exact hlimit (by rw [hcallee]; rfl) operation hfound
        · rw [length_filterMap_get hshape.indices, hshape.count]
    obtain ⟨hdynamic, hhelper⟩ := resolvedShape_arguments hresolved
    have hdynamicLegible : Legible text resolved.dynamicArguments := by
      rw [hdynamic]
      intro span hspan
      exact hlegible span (argumentRanges_subset hspan)
    have hhelperLegible : Legible text shape.helperArguments := fun span hspan =>
      hlegible span (mem_append_right _ hspan)
    obtain ⟨continuation, hcontinuation⟩ := bindContinuation_ok hkept hhelperLegible
    obtain ⟨arguments, harguments⟩ : ∃ bound, bindArguments text
        authorization.dynamicArguments resolved.dynamicArguments = .ok bound :=
      bindArguments_ok hdynamicLegible
    have hlength : authorization.dynamicArguments.length =
        resolved.dynamicArguments.length := by
      rw [hcount, operationMatches_count hmatches]
    rw [bindEffect, findOperation, hfound]
    simp only [ok_bind, hresolved, hhelper, hcontinuation, hmatches, haccepted,
      hkind, hresultKind, hlength, hspan, harguments, and_self, not_true_eq_false, if_false,
      ne_eq]
    exact ⟨_, rfl⟩

end Effects

section Batches

variable {authorization : DirectAsyncBatchAuthorization} {candidate : DirectAsyncBatchCandidate}

theorem required_inv {value : Option ℕ} {missing : String} {found : ℕ}
    (hfound : required value missing = .ok found) : value = some found := by
  cases value with
  | none => cases hfound
  | some value =>
    cases hfound
    rfl

theorem iteratorSpan_inv {bound : SourceRange × String}
    (hspan : iteratorSpan text candidate = .ok bound) :
    candidate.iteratorStart = some bound.1.start ∧
      candidate.iteratorStop = some bound.1.stop := by
  obtain ⟨start, hstart, hspan⟩ := Fallible.bind_eq_ok.mp hspan
  obtain ⟨stop, hstop, hspan⟩ := Fallible.bind_eq_ok.mp hspan
  obtain ⟨sha256, -, hspan⟩ := Fallible.bind_eq_ok.mp hspan
  cases hspan
  exact ⟨required_inv hstart, required_inv hstop⟩

theorem bindShape_bound {shape bound : DirectAsyncBatchAuthorizationShape}
    (hbound : bindShape text operations candidate shape = .ok bound) :
    ShapeBound candidate shape bound := by
  cases shape with
  | singleEffectMap map =>
    obtain ⟨result, hresult, hbound⟩ := Fallible.bind_eq_ok.mp hbound
    cases hbound
    rw [bindSingleEffectMap] at hresult
    split at hresult
    · cases hresult
    obtain ⟨effect, heffect, hresult⟩ := Fallible.bind_eq_ok.mp hresult
    cases hresult
    obtain ⟨-, -, hspan, hbound⟩ := bindEffect_inv heffect
    exact ⟨hbound, iteratorSpan_inv hspan⟩
  | fixedEffectArray children =>
    rw [bindShape] at hbound
    split at hbound
    · cases hbound
    obtain ⟨results, hresults, hbound⟩ := Fallible.bind_eq_ok.mp hbound
    cases hbound
    apply (Fallible.mapM_eq_ok_iff.mp hresults).imp
    intro child result hchild
    obtain ⟨effect, heffect, hresult⟩ := Fallible.bind_eq_ok.mp hchild
    cases hresult
    exact ⟨rfl, rfl, (bindEffect_inv heffect).2.2.2⟩

/-- A bound authorisation has the ranges of the occurrence it was paired with. -/
theorem bindAuthorization_bound {bound : DirectAsyncBatchAuthorization}
    (hbound : bindAuthorization text operations authorization candidate = .ok bound) :
    Bound authorization candidate bound := by
  obtain ⟨sha256, -, hbound⟩ := Fallible.bind_eq_ok.mp hbound
  obtain ⟨shape, hshape, hbound⟩ := Fallible.bind_eq_ok.mp hbound
  cases hbound
  exact ⟨rfl, rfl, rfl, rfl, bindShape_bound hshape⟩

theorem iteratorSpan_ok (hstart : candidate.iteratorStart.isSome)
    (hstop : candidate.iteratorStop.isSome) (hlegible : Legible text candidate.spans) :
    ∃ span, iteratorSpan text candidate = .ok span := by
  obtain ⟨start, hstart⟩ := Option.isSome_iff_exists.mp hstart
  obtain ⟨stop, hstop⟩ := Option.isSome_iff_exists.mp hstop
  have hmem : (⟨start, stop⟩ : SourceRange) ∈ candidate.spans := by
    simp [DirectAsyncBatchCandidate.spans, hstart, hstop]
  obtain ⟨sha256, hslice⟩ := sourceSlice_ok (hlegible _ hmem)
  rw [iteratorSpan, hstart, hstop]
  simp only [required, ok_bind, hslice]
  exact ⟨_, rfl⟩

theorem bindSingleEffectMap_ok_iff {map : SingleEffectMapAuthorization}
    (hshape : authorization.shape = .singleEffectMap map)
    (hgranted : Granted operations authorization candidate)
    (hkept : ContinuationsKept text authorization candidate)
    (hlegible : Legible text candidate.spans) :
    (∃ bound, bindSingleEffectMap text operations map candidate = .ok bound) ↔
      WithoutHelperLimit operations map.toEffectAuthorization := by
  rw [Granted, hshape] at hgranted
  rw [ContinuationsKept, hshape] at hkept
  obtain ⟨hkind, heffect, hfield, hparameter, hstart, hstop⟩ := hgranted
  obtain ⟨span, hspan⟩ := iteratorSpan_ok hstart hstop hlegible
  have hspans : Legible text candidate.toEffectShape.spans := by
    intro range hrange
    apply hlegible
    simp [DirectAsyncBatchCandidate.spans, hrange]
  have haccepted : decide (candidate.iteratorField = map.argumentField ∧
      candidate.callbackParameter = some map.callbackParameter) = true :=
    decide_eq_true ⟨hfield, hparameter⟩
  rw [← bindEffect_ok_iff haccepted hspan heffect hkept hspans, bindSingleEffectMap,
    if_neg (not_not.mpr hkind)]
  exact exists_bind_pure_ok

theorem bindFixedChild_ok_iff {child : DirectAsyncBatchFixedChildAuthorization}
    {generated : DirectAsyncBatchFixedChildCandidate}
    (hgranted : EffectGranted operations fixedTexts child.toEffectAuthorization
      generated.toEffectShape)
    (hkept : ContinuationKept text child.toEffectAuthorization generated.toEffectShape)
    (hlegible : Legible text (generated.range :: generated.toEffectShape.spans)) :
    (∃ bound, bindFixedChild text operations child generated = .ok bound) ↔
      WithoutHelperLimit operations child.toEffectAuthorization := by
  obtain ⟨sha256, hslice⟩ := sourceSlice_ok (hlegible _ mem_cons_self)
  have hspans : Legible text generated.toEffectShape.spans := fun range hrange =>
    hlegible range (mem_cons_of_mem _ hrange)
  rw [← bindEffect_ok_iff rfl hslice hgranted hkept hspans, bindFixedChild]
  exact exists_bind_pure_ok

/-- The children are bound in step, so each needs to be bound. -/
theorem bindChildren_ok_iff {children : List DirectAsyncBatchFixedChildAuthorization}
    {candidates : List DirectAsyncBatchFixedChildCandidate}
    (hgranted : List.Forall₂ (fun child generated => EffectGranted operations fixedTexts
      child.toEffectAuthorization generated.toEffectShape) children candidates)
    (hkept : List.Forall₂ (fun child generated => ContinuationKept text
      child.toEffectAuthorization generated.toEffectShape) children candidates)
    (hlegible : ∀ generated ∈ candidates,
      Legible text (generated.range :: generated.toEffectShape.spans)) :
    (∀ pair ∈ children.zip candidates,
      ∃ bound, bindFixedChild text operations pair.1 pair.2 = .ok bound) ↔
        ∀ child ∈ children, WithoutHelperLimit operations child.toEffectAuthorization := by
  induction hgranted with
  | nil => simp
  | @cons child generated children candidates hchild _ ih =>
    obtain ⟨hfirst, hrest⟩ := List.forall₂_cons.mp hkept
    rw [zip_cons_cons, forall_mem_cons, forall_mem_cons,
      bindFixedChild_ok_iff hchild hfirst (hlegible generated mem_cons_self),
      ih hrest fun later hlater => hlegible later (mem_cons_of_mem _ hlater)]

/-- The batch is bound on what it was granted for exactly when no limit stands in a
helper. -/
theorem bindAuthorization_ok_iff (hgranted : Granted operations authorization candidate)
    (hkept : ContinuationsKept text authorization candidate)
    (hlegible : Legible text candidate.spans) :
    (∃ bound, bindAuthorization text operations authorization candidate = .ok bound) ↔
      ∀ effect ∈ authorization.shape.effects, WithoutHelperLimit operations effect := by
  have hrange : candidate.range ∈ candidate.spans := by
    simp [DirectAsyncBatchCandidate.spans]
  obtain ⟨sha256, hslice⟩ := sourceSlice_ok (hlegible _ hrange)
  have hshape : (∃ bound, bindAuthorization text operations authorization candidate =
      .ok bound) ↔
        ∃ bound, bindShape text operations candidate authorization.shape = .ok bound := by
    rw [bindAuthorization, hslice, ok_bind]
    exact exists_bind_pure_ok
  rw [hshape]
  cases hauthorized : authorization.shape with
  | singleEffectMap map =>
    rw [DirectAsyncBatchAuthorizationShape.effects, forall_mem_singleton,
      ← bindSingleEffectMap_ok_iff hauthorized hgranted hkept hlegible]
    exact exists_bind_pure_ok
  | fixedEffectArray children =>
    rw [Granted, hauthorized] at hgranted
    rw [ContinuationsKept, hauthorized] at hkept
    have hspans : ∀ generated ∈ candidate.fixedChildren,
        Legible text (generated.range :: generated.toEffectShape.spans) := by
      intro generated hgenerated range hmem
      apply hlegible
      exact mem_append_right _ (mem_flatMap.mpr ⟨generated, hgenerated, hmem⟩)
    rw [DirectAsyncBatchAuthorizationShape.effects, forall_mem_map,
      ← bindChildren_ok_iff hgranted.2 hkept hspans, ← exists_mapM_ok_iff,
      bindShape, if_neg (not_not.mpr ⟨hgranted.1, hgranted.2.length_eq⟩)]
    exact exists_bind_pure_ok

end Batches

end ConvexWasm.Compiler.BatchBinding
