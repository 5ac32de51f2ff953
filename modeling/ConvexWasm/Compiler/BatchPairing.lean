import ConvexWasm.Compiler.BatchGrants
import ConvexWasm.Compiler.UnitEmission

/-!
# Pairing batches with their own occurrences

The authorisations stand in the order of the unit identifiers and the batches of
the generated text in the order of emission.  Pairing them by position is right
exactly when the units that have batches stand in both orders alike.
-/

namespace ConvexWasm.Compiler.BatchBinding

open List UnitEmission

section Relocation

variable (place : ℕ → ℕ)

def relocate (range : SourceRange) : SourceRange := ⟨place range.start, place range.stop⟩

def EffectShape.relocate (shape : EffectShape) : EffectShape :=
  { shape with
    operationStart := shape.operationStart.map place
    operationStop := shape.operationStop.map place
    dynamicArguments := shape.dynamicArguments.map (BatchBinding.relocate place)
    indexConstraints := shape.indexConstraints.map fun constraint =>
      { constraint with
        valueStart := place constraint.valueStart
        valueStop := place constraint.valueStop }
    helperCallStart := shape.helperCallStart.map place
    helperCallStop := shape.helperCallStop.map place
    helperArguments := shape.helperArguments.map (BatchBinding.relocate place) }

def DirectAsyncBatchFixedChildCandidate.relocate
    (child : DirectAsyncBatchFixedChildCandidate) : DirectAsyncBatchFixedChildCandidate :=
  { child with
    toEffectShape := child.toEffectShape.relocate place
    range := BatchBinding.relocate place child.range }

/-- The batch at another place of the text. -/
def DirectAsyncBatchCandidate.relocate (candidate : DirectAsyncBatchCandidate) :
    DirectAsyncBatchCandidate :=
  { candidate with
    toEffectShape := candidate.toEffectShape.relocate place
    range := BatchBinding.relocate place candidate.range
    iteratorStart := candidate.iteratorStart.map place
    iteratorStop := candidate.iteratorStop.map place
    fixedChildren := candidate.fixedChildren.map fun child => child.relocate place }

variable {place} {operations : List AdmittedOperation} {text : GeneratedText}

theorem operationMatches_relocate (operation : AdmittedOperation) (shape : EffectShape) :
    operationMatches operation (shape.relocate place) = operationMatches operation shape := by
  simp only [operationMatches, EffectShape.relocate, map_map, length_map]
  rfl

theorem EffectGranted.relocate {texts : EffectTexts} {authorization : EffectAuthorization}
    {shape : EffectShape} (hgranted : EffectGranted operations texts authorization shape) :
    EffectGranted operations texts authorization (shape.relocate place) := by
  obtain ⟨operation, hfound, hkind, hresult, hcount, hshape⟩ := hgranted
  refine ⟨operation, hfound, hkind, hresult, hcount, ?_⟩
  cases hcallee : authorization.helperCallee with
  | none =>
    rw [hcallee] at hshape
    exact ⟨hshape.1, (operationMatches_relocate operation shape).trans hshape.2⟩
  | some helperCallee =>
    rw [hcallee] at hshape
    refine ⟨hshape.indirection, hshape.callee, ?_, hshape.count, hshape.noLimit, hshape.kind⟩
    intro index hindex
    rw [EffectShape.relocate, length_map]
    exact hshape.indices index hindex

theorem Granted.relocate {authorization : DirectAsyncBatchAuthorization}
    {candidate : DirectAsyncBatchCandidate}
    (hgranted : Granted operations authorization candidate) :
    Granted operations authorization (candidate.relocate place) := by
  rw [Granted] at hgranted ⊢
  cases hshape : authorization.shape with
  | singleEffectMap map =>
    rw [hshape] at hgranted
    obtain ⟨hkind, heffect, hfield, hparameter, hstart, hstop⟩ := hgranted
    refine ⟨hkind, heffect.relocate, hfield, hparameter, ?_, ?_⟩
    · simpa [DirectAsyncBatchCandidate.relocate] using hstart
    · simpa [DirectAsyncBatchCandidate.relocate] using hstop
  | fixedEffectArray children =>
    rw [hshape] at hgranted
    refine ⟨hgranted.1, ?_⟩
    rw [DirectAsyncBatchCandidate.relocate, List.forall₂_map_right_iff]
    exact hgranted.2.imp fun _ _ heffect => heffect.relocate

theorem ContinuationKept.relocate {authorization : EffectAuthorization} {shape : EffectShape}
    (hkept : ContinuationKept text authorization shape) :
    ContinuationKept text authorization (shape.relocate place) := by
  intro continuation hcontinuation
  rw [EffectShape.relocate, length_map]
  exact hkept continuation hcontinuation

theorem ContinuationsKept.relocate {authorization : DirectAsyncBatchAuthorization}
    {candidate : DirectAsyncBatchCandidate}
    (hkept : ContinuationsKept text authorization candidate) :
    ContinuationsKept text authorization (candidate.relocate place) := by
  rw [ContinuationsKept] at hkept ⊢
  cases hshape : authorization.shape with
  | singleEffectMap map =>
    rw [hshape] at hkept
    exact ContinuationKept.relocate hkept
  | fixedEffectArray children =>
    rw [hshape] at hkept
    apply List.forall₂_map_right_iff.mpr
    exact List.Forall₂.imp (fun _ _ hchild => ContinuationKept.relocate hchild) hkept

end Relocation

section Calls

/-- A batch of a reachable unit with what it was authorised for. -/
structure AuthorizedCall where
  unit : RetainedUnit
  candidate : DirectAsyncBatchCandidate
  authorization : DirectAsyncBatchAuthorization

variable (batches : String → List DirectAsyncBatchCandidate)
variable (authorize : RetainedUnit → DirectAsyncBatchCandidate →
  Option DirectAsyncBatchAuthorization)

/-- The batches of the module that lie in the unit. -/
def unitBatches (unit : RetainedUnit) : List DirectAsyncBatchCandidate :=
  (batches unit.module).filter fun candidate =>
    decide (unit.range.start ≤ candidate.range.start ∧ candidate.range.stop ≤ unit.range.stop)

def unitCalls (unit : RetainedUnit) : List AuthorizedCall :=
  (unitBatches batches unit).filterMap fun candidate =>
    (authorize unit candidate).map fun authorization => ⟨unit, candidate, authorization⟩

/-- The authorised batches of the units, one unit after the other. -/
def authorizedCalls (units : List RetainedUnit) : List AuthorizedCall :=
  units.flatMap (unitCalls batches authorize)

/-- The authorisations in the order of `reachable.values()`. -/
def authorizeDirectAsyncBatches (reachable : RetainedUnits) : List DirectAsyncBatchAuthorization :=
  (authorizedCalls batches authorize reachable.units).map fun call => call.authorization

def hasAuthorizedBatch (unit : RetainedUnit) : Bool := !(unitCalls batches authorize unit).isEmpty

variable {batches authorize} {unit : RetainedUnit} {call : AuthorizedCall}

theorem mem_unitCalls :
    call ∈ unitCalls batches authorize unit ↔
      call.unit = unit ∧ call.candidate ∈ unitBatches batches unit ∧
        authorize unit call.candidate = some call.authorization := by
  rw [unitCalls, mem_filterMap]
  constructor
  · rintro ⟨candidate, hcandidate, hcall⟩
    obtain ⟨authorization, hauthorization, rfl⟩ := Option.map_eq_some_iff.mp hcall
    exact ⟨rfl, hcandidate, hauthorization⟩
  · rintro ⟨rfl, hcandidate, hauthorization⟩
    exact ⟨call.candidate, hcandidate, by rw [hauthorization]; rfl⟩

theorem mem_authorizedCalls {units : List RetainedUnit} :
    call ∈ authorizedCalls batches authorize units ↔
      call.unit ∈ units ∧ call ∈ unitCalls batches authorize call.unit := by
  rw [authorizedCalls, mem_flatMap]
  constructor
  · rintro ⟨unit, hunit, hcall⟩
    obtain ⟨rfl, -⟩ := mem_unitCalls.mp hcall
    exact ⟨hunit, hcall⟩
  · rintro ⟨hunit, hcall⟩
    exact ⟨call.unit, hunit, hcall⟩

/-- Units without an authorised batch add nothing. -/
theorem authorizedCalls_filter (units : List RetainedUnit) :
    authorizedCalls batches authorize (units.filter (hasAuthorizedBatch batches authorize)) =
      authorizedCalls batches authorize units := by
  induction units with
  | nil => rfl
  | cons unit rest ih =>
    cases hunit : hasAuthorizedBatch batches authorize unit with
    | true =>
      rw [filter_cons_of_pos hunit, authorizedCalls, flatMap_cons]
      exact congrArg (_ ++ ·) ih
    | false =>
      have hempty : unitCalls batches authorize unit = [] := by
        simpa [hasAuthorizedBatch] using hunit
      rw [filter_cons_of_neg (by simp [hunit]), ih, authorizedCalls, authorizedCalls,
        flatMap_cons, hempty, nil_append]

end Calls

/-- A compilation whose generated text lists the reachable units in the emission order
and the handler after them.  Each unit keeps its text and so the order of its batches;
`place` says where a place of the source stands in the generated text. -/
structure BatchCompilation where
  reachable : RetainedUnits
  handler : RetainedUnit
  order : List RetainedUnit
  handlers : reachable.units.filter isHandler = [handler]
  emission : reachableUnitEmissionOrder reachable = .ok order
  batches : String → List DirectAsyncBatchCandidate
  sorted : ∀ module, (batches module).Pairwise fun candidate next =>
    candidate.range.start < next.range.start
  proper : ∀ module, ∀ candidate ∈ batches module, candidate.range.start < candidate.range.stop
  valueMode : ValueMode
  operations : List AdmittedOperation
  text : GeneratedText
  authorize : RetainedUnit → DirectAsyncBatchCandidate → Option DirectAsyncBatchAuthorization
  authorized : ∀ unit ∈ reachable.units, ∀ candidate ∈ unitBatches batches unit,
    (authorize unit candidate).isSome = retained valueMode candidate
  granted : ∀ call ∈ authorizedCalls batches authorize reachable.units,
    Granted operations call.authorization call.candidate
  continued : ∀ call ∈ authorizedCalls batches authorize reachable.units,
    ContinuationsKept text call.authorization call.candidate
  place : RetainedUnit → ℕ → ℕ
  inner : ∀ unit ∈ reachable.units, ∀ first second, unit.range.start ≤ first →
    first < second → second < unit.range.stop → place unit first < place unit second
  outer : (order ++ [handler]).Pairwise fun unit next => ∀ first second,
    unit.range.start ≤ first → first < unit.range.stop →
      next.range.start ≤ second → second < next.range.stop →
        place unit first < place next second
  parsed : text.parserDiagnostics = 0
  listed : text.candidates.Perm ((order ++ [handler]).flatMap fun unit =>
    (unitBatches batches unit).map fun candidate => candidate.relocate (place unit))
  legible : ∀ unit ∈ reachable.units, ∀ candidate ∈ unitBatches batches unit,
    Legible text (candidate.relocate (place unit)).spans

namespace BatchCompilation

variable (compilation : BatchCompilation)

/-- The generated text, unit by unit. -/
def emitted : List RetainedUnit := compilation.order ++ [compilation.handler]

/-- The authorised batches in the order of the unit identifiers. -/
def calls : List AuthorizedCall :=
  authorizedCalls compilation.batches compilation.authorize compilation.reachable.units

/-- The authorised batches in the order of the generated text. -/
def emittedCalls : List AuthorizedCall :=
  authorizedCalls compilation.batches compilation.authorize compilation.emitted

def bound : Except String (List DirectAsyncBatchAuthorization) :=
  bindGeneratedDirectAsyncBatches compilation.text compilation.operations
    (authorizeDirectAsyncBatches compilation.batches compilation.authorize
      compilation.reachable) compilation.valueMode

/-- The batch of the generated text that stems from the call. -/
def occurrence (call : AuthorizedCall) : DirectAsyncBatchCandidate :=
  call.candidate.relocate (compilation.place call.unit)

/-- The binding succeeds and pairs each authorisation with the occurrence of its own
source call. -/
def BindsOwn : Prop :=
  ∃ results, compilation.bound = .ok results ∧
    List.Forall₂ (fun call result =>
      Bound call.authorization (compilation.occurrence call) result) compilation.calls results

/-- The units with authorised batches are emitted in the order of their identifiers. -/
def EmittedInIdOrder : Prop :=
  (compilation.emitted.filter
    (hasAuthorizedBatch compilation.batches compilation.authorize)).Pairwise
      fun unit next => unit.id < next.id

/-- No authorised effect is read through a helper with a limit argument. -/
def HelpersWithoutLimit : Prop :=
  ∀ call ∈ compilation.calls, ∀ effect ∈ call.authorization.shape.effects,
    WithoutHelperLimit compilation.operations effect

end BatchCompilation

variable {compilation : BatchCompilation}

theorem emitted_perm (compilation : BatchCompilation) :
    compilation.emitted.Perm compilation.reachable.units := by
  have horder : compilation.emitted.Perm
      (emittedUnits compilation.reachable ++ [compilation.handler]) :=
    (emissionOrder_perm compilation.emission).append_right _
  apply (horder.trans perm_append_comm).trans
  rw [← compilation.handlers, emittedUnits]
  exact filter_append_perm _ _

theorem mem_emitted {unit : RetainedUnit} :
    unit ∈ compilation.emitted ↔ unit ∈ compilation.reachable.units :=
  (emitted_perm compilation).mem_iff

theorem emittedCalls_perm (compilation : BatchCompilation) :
    compilation.emittedCalls.Perm compilation.calls :=
  (emitted_perm compilation).flatMap_right _

/-- A batch of the unit starts inside it. -/
theorem unitBatches_start {unit : RetainedUnit} {candidate : DirectAsyncBatchCandidate}
    (hcandidate : candidate ∈ unitBatches compilation.batches unit) :
    unit.range.start ≤ candidate.range.start ∧
      candidate.range.start < unit.range.stop := by
  obtain ⟨hmem, hrange⟩ := mem_filter.mp hcandidate
  obtain ⟨hstart, hstop⟩ := of_decide_eq_true hrange
  exact ⟨hstart, (compilation.proper _ candidate hmem).trans_le hstop⟩

theorem unitCalls_start {unit : RetainedUnit} {call : AuthorizedCall}
    (hcall : call ∈ unitCalls compilation.batches compilation.authorize unit) :
    call.unit = unit ∧ unit.range.start ≤ call.candidate.range.start ∧
      call.candidate.range.start < unit.range.stop := by
  obtain ⟨hunit, hcandidate, -⟩ := mem_unitCalls.mp hcall
  exact ⟨hunit, unitBatches_start hcandidate⟩

/-- The occurrences stand one after the other, in the unit and from unit to unit. -/
theorem emittedCalls_pairwise (compilation : BatchCompilation) :
    compilation.emittedCalls.Pairwise fun call next =>
      (compilation.occurrence call).range.start < (compilation.occurrence next).range.start := by
  rw [BatchCompilation.emittedCalls, authorizedCalls, pairwise_flatMap]
  constructor
  · intro unit hunit
    rw [unitCalls, pairwise_filterMap]
    have hsorted := (compilation.sorted unit.module).filter fun candidate =>
      decide (unit.range.start ≤ candidate.range.start ∧ candidate.range.stop ≤ unit.range.stop)
    apply List.Pairwise.imp_of_mem _ hsorted
    intro candidate next hcandidate hnext hlt call hcall other hother
    obtain ⟨_, -, rfl⟩ := Option.map_eq_some_iff.mp hcall
    obtain ⟨_, -, rfl⟩ := Option.map_eq_some_iff.mp hother
    exact compilation.inner unit (mem_emitted.mp hunit) _ _ (unitBatches_start hcandidate).1
      hlt (unitBatches_start hnext).2
  · apply compilation.outer.imp
    intro unit next houter call hcall other hother
    obtain ⟨rfl, hcallStart, hcallStop⟩ := unitCalls_start hcall
    obtain ⟨rfl, hotherStart, hotherStop⟩ := unitCalls_start hother
    exact houter _ _ hcallStart hcallStop hotherStart hotherStop

/-- An occurrence is known by its offset. -/
theorem occurrence_injective {call other : AuthorizedCall}
    (hcall : call ∈ compilation.emittedCalls) (hother : other ∈ compilation.emittedCalls)
    (hstart : (compilation.occurrence call).range.start =
      (compilation.occurrence other).range.start) : call = other := by
  have hnodup : (compilation.emittedCalls.map fun call =>
      (compilation.occurrence call).range.start).Nodup :=
    pairwise_map.mpr ((emittedCalls_pairwise compilation).imp fun hlt => ne_of_lt hlt)
  exact inj_on_of_nodup_map hnodup hcall hother hstart

theorem retained_unitBatches {unit : RetainedUnit} (hunit : unit ∈ compilation.emitted) :
    ((unitBatches compilation.batches unit).map fun candidate =>
        candidate.relocate (compilation.place unit)).filter (retained compilation.valueMode) =
      (unitCalls compilation.batches compilation.authorize unit).map compilation.occurrence := by
  have hauthorized := compilation.authorized unit (mem_emitted.mp hunit)
  rw [unitCalls]
  generalize unitBatches compilation.batches unit = candidates at hauthorized ⊢
  induction candidates with
  | nil => rfl
  | cons candidate rest ih =>
    have hrest := ih fun later hlater => hauthorized later (mem_cons_of_mem _ hlater)
    have hretained : retained compilation.valueMode
        (candidate.relocate (compilation.place unit)) =
          (compilation.authorize unit candidate).isSome :=
      (hauthorized candidate mem_cons_self).symm
    rw [map_cons]
    cases hcandidate : compilation.authorize unit candidate with
    | none =>
      rw [filter_cons_of_neg (by rw [hretained, hcandidate]; simp), hrest,
        filterMap_cons_none (by rw [hcandidate]; rfl)]
    | some authorization =>
      rw [filter_cons_of_pos (by rw [hretained, hcandidate]; rfl), hrest,
        filterMap_cons_some (by rw [hcandidate]; rfl), map_cons]
      rfl

/-- The batches that the binding lists are the occurrences, in the order of emission. -/
theorem generatedCandidates_eq (compilation : BatchCompilation) :
    generatedCandidates compilation.text compilation.valueMode =
      compilation.emittedCalls.map compilation.occurrence := by
  have hretained : (compilation.emitted.flatMap fun unit =>
      (unitBatches compilation.batches unit).map fun candidate =>
        candidate.relocate (compilation.place unit)).filter (retained compilation.valueMode) =
          compilation.emittedCalls.map compilation.occurrence := by
    rw [filter_flatMap, BatchCompilation.emittedCalls, authorizedCalls, map_flatMap]
    apply flatMap_congr
    intro unit hunit
    exact retained_unitBatches hunit
  have hperm : (generatedCandidates compilation.text compilation.valueMode).Perm
      (compilation.emittedCalls.map compilation.occurrence) := by
    rw [← hretained]
    exact (perm_insertionSort _ _).trans (compilation.listed.filter _)
  have hpairwise : (compilation.emittedCalls.map compilation.occurrence).Pairwise
      fun candidate next => offsetKey candidate ≤ offsetKey next := by
    apply pairwise_map.mpr ((emittedCalls_pairwise compilation).imp _)
    intro call next hlt
    exact (Prod.Lex.toLex_lt_toLex.mpr (Or.inl hlt)).le
  apply List.Perm.eq_of_pairwise _ (pairwise_insertionSort _ _) hpairwise hperm
  intro candidate next hcandidate hnext hle hge
  obtain ⟨call, hcall, rfl⟩ := mem_map.mp (hperm.mem_iff.mp hcandidate)
  obtain ⟨other, hother, rfl⟩ := mem_map.mp hnext
  have hkey := congrArg (fun key => (ofLex key).1) (le_antisymm hle hge)
  rw [occurrence_injective hcall hother hkey]

/-- A unit with an authorised batch has a call. -/
theorem exists_unitCall {unit : RetainedUnit}
    (hbatch : hasAuthorizedBatch compilation.batches compilation.authorize unit = true) :
    ∃ call, call ∈ unitCalls compilation.batches compilation.authorize unit := by
  apply exists_mem_of_ne_nil
  simpa [hasAuthorizedBatch] using hbatch

/-- The two lists of calls agree exactly when the units with batches do. -/
theorem emittedCalls_eq_iff (compilation : BatchCompilation) :
    compilation.emittedCalls = compilation.calls ↔ compilation.EmittedInIdOrder := by
  constructor
  · intro hcalls
    have hids : compilation.emittedCalls.Pairwise fun call next =>
        call.unit.id ≤ next.unit.id := by
      rw [hcalls, BatchCompilation.calls, authorizedCalls, pairwise_flatMap]
      constructor
      · intro unit _
        apply pairwise_of_forall_mem_list
        intro call hcall next hnext
        rw [(mem_unitCalls.mp hcall).1, (mem_unitCalls.mp hnext).1]
      · apply (pairwise_map.mp compilation.reachable.sorted).imp
        intro unit next hlt call hcall other hother
        rw [(mem_unitCalls.mp hcall).1, (mem_unitCalls.mp hother).1]
        exact hlt.le
    rw [BatchCompilation.emittedCalls, authorizedCalls, pairwise_flatMap] at hids
    have hnodup : compilation.emitted.Nodup :=
      (emitted_perm compilation).nodup_iff.mpr (units_nodup _)
    have hboth := pairwise_and_iff.mpr ⟨hids.2, hnodup⟩
    apply List.Pairwise.imp_of_mem _ (hboth.filter _)
    intro unit next hunit hnext hle
    obtain ⟨hemitted, hbatch⟩ := mem_filter.mp hunit
    obtain ⟨hemittedNext, hbatchNext⟩ := mem_filter.mp hnext
    obtain ⟨call, hcall⟩ := exists_unitCall hbatch
    obtain ⟨other, hother⟩ := exists_unitCall hbatchNext
    have hid := hle.1 call hcall other hother
    rw [(mem_unitCalls.mp hcall).1, (mem_unitCalls.mp hother).1] at hid
    apply lt_of_le_of_ne hid
    intro hsame
    exact hle.2 (eq_of_id (mem_emitted.mp hemitted) (mem_emitted.mp hemittedNext) hsame)
  · intro horder
    have hunits : compilation.emitted.filter
        (hasAuthorizedBatch compilation.batches compilation.authorize) =
          compilation.reachable.units.filter
            (hasAuthorizedBatch compilation.batches compilation.authorize) := by
      apply List.Perm.eq_of_pairwise _ horder
        ((pairwise_map.mp compilation.reachable.sorted).filter _)
        ((emitted_perm compilation).filter _)
      intro unit next _ _ hlt hgt
      exact absurd hgt (lt_asymm hlt)
    rw [BatchCompilation.emittedCalls, ← authorizedCalls_filter, hunits,
      authorizedCalls_filter, BatchCompilation.calls]

/-- The binding of the authorisations runs over the calls and the occurrences in step. -/
theorem bound_eq (compilation : BatchCompilation) :
    compilation.bound =
      (List.zip (compilation.calls.map fun call => call.authorization)
        (compilation.emittedCalls.map compilation.occurrence)).mapM fun pair =>
          bindAuthorization compilation.text compilation.operations pair.1 pair.2 := by
  have hlength : (compilation.emittedCalls.map compilation.occurrence).length =
      (compilation.calls.map fun call => call.authorization).length := by
    rw [length_map, length_map, (emittedCalls_perm compilation).length_eq]
  have hauthorizations : authorizeDirectAsyncBatches compilation.batches
      compilation.authorize compilation.reachable =
        compilation.calls.map fun call => call.authorization := rfl
  rw [BatchCompilation.bound, hauthorizations, bindGeneratedDirectAsyncBatches,
    compilation.parsed, generatedCandidates_eq]
  simp only [ne_eq, not_true_eq_false, if_false]
  rw [if_neg (not_not.mpr hlength)]

/-- Each result has the range of the occurrence at its position. -/
theorem zipped_bound {results : List DirectAsyncBatchAuthorization}
    (hbound : compilation.bound = .ok results) :
    List.Forall₂ (fun call result =>
      result.generated = (compilation.occurrence call).range) compilation.emittedCalls
        results := by
  rw [bound_eq] at hbound
  have hall := Fallible.mapM_eq_ok_iff.mp hbound
  have hcalls := (emittedCalls_perm compilation).length_eq
  have hlength := hall.length_eq
  simp only [length_zip, length_map, hcalls, min_self] at hlength
  apply List.forall₂_iff_get.mpr
  refine ⟨hcalls.trans hlength, ?_⟩
  intro index hemitted hresult
  have hzip : index < (List.zip (compilation.calls.map fun call => call.authorization)
      (compilation.emittedCalls.map compilation.occurrence)).length := by
    rw [hall.length_eq]
    exact hresult
  have hpair := (List.forall₂_iff_get.mp hall).2 index hzip hresult
  simpa using (bindAuthorization_bound hpair).generated

/-- Pairing each authorisation with its own occurrence leaves the calls in one order. -/
theorem emittedCalls_eq_of_bindsOwn (hbinds : compilation.BindsOwn) :
    compilation.emittedCalls = compilation.calls := by
  obtain ⟨results, hbound, howns⟩ := hbinds
  have hzipped := zipped_bound hbound
  apply ext_getElem (emittedCalls_perm compilation).length_eq
  intro index hemitted hcall
  have hresult : index < results.length := howns.length_eq ▸ hcall
  have hown := (List.forall₂_iff_get.mp howns).2 index hcall hresult
  have hpaired := (List.forall₂_iff_get.mp hzipped).2 index hemitted hresult
  apply occurrence_injective (getElem_mem hemitted)
    ((emittedCalls_perm compilation).mem_iff.mpr (getElem_mem hcall))
  have hranges := hpaired.symm.trans hown.generated
  exact congrArg SourceRange.start hranges

theorem calls_kept {call : AuthorizedCall} (hcall : call ∈ compilation.calls) :
    Granted compilation.operations call.authorization (compilation.occurrence call) ∧
      ContinuationsKept compilation.text call.authorization (compilation.occurrence call) ∧
      Legible compilation.text (compilation.occurrence call).spans := by
  obtain ⟨hunit, hmem⟩ := mem_authorizedCalls.mp hcall
  exact ⟨(compilation.granted call hcall).relocate, (compilation.continued call hcall).relocate,
    compilation.legible call.unit hunit call.candidate (mem_unitCalls.mp hmem).2.1⟩

/-- With the calls in one order the binding is that of each call with its occurrence. -/
theorem bindsOwn_iff_of_eq (hcalls : compilation.emittedCalls = compilation.calls) :
    compilation.BindsOwn ↔ compilation.HelpersWithoutLimit := by
  have hbound : compilation.bound = compilation.calls.mapM fun call =>
      bindAuthorization compilation.text compilation.operations call.authorization
        (compilation.occurrence call) := by
    rw [bound_eq, hcalls, zip_map', mapM_map]
    rfl
  have hok : (∃ results, compilation.bound = .ok results) ↔
      compilation.HelpersWithoutLimit := by
    rw [hbound, Fallible.exists_mapM_ok_iff]
    apply forall₂_congr
    intro call hcall
    obtain ⟨hgranted, hkept, hlegible⟩ := calls_kept hcall
    exact bindAuthorization_ok_iff hgranted hkept hlegible
  rw [← hok]
  constructor
  · rintro ⟨results, hresults, -⟩
    exact ⟨results, hresults⟩
  · rintro ⟨results, hresults⟩
    refine ⟨results, hresults, ?_⟩
    rw [hbound] at hresults
    apply (Fallible.mapM_eq_ok_iff.mp hresults).imp
    intro call result hresult
    exact bindAuthorization_bound hresult

/-- `Promise.all(ids.map((id) => ctx.db.get(id)))` at an offset. -/
def getBatch (offset : ℕ) : DirectAsyncBatchCandidate where
  operationStart := some (offset + 28)
  operationStop := some (offset + 42)
  dynamicArguments := [⟨offset + 39, offset + 41⟩]
  operationKind := some "db.get"
  table := none
  index := none
  indexConstraints := []
  order := none
  terminal := none
  limit := none
  limitArgumentIndex := none
  functionReference := none
  helperCallee := none
  helperCallStart := none
  helperCallStop := none
  helperArguments := []
  shapeError := none
  batchKind := "singleEffectMap"
  range := ⟨offset, offset + 44⟩
  iteratorStart := some (offset + 12)
  iteratorStop := some (offset + 15)
  iteratorField := none
  callbackParameter := some "id"
  fixedChildren := []
  sequentialValueMapSafe := false

def getOperation (id : ℕ) : AdmittedOperation where
  id := id
  kind := "databaseGet"
  table := none
  index := none
  indexConstraints := []
  order := none
  terminal := none
  limit := none
  limitArgumentIndex := none
  functionReference := none

def getAuthorization (operationId offset : ℕ) : DirectAsyncBatchAuthorization where
  id := s!"batch-{operationId}"
  file := "list.js"
  source := ⟨offset, offset + 44⟩
  generated := ⟨0, 0⟩
  generatedSourceSha256 := ""
  shape := .singleEffectMap {
    operationId := operationId
    operationKind := "databaseGet"
    resultKind := "hostValue"
    dynamicArguments := [⟨⟨offset + 39, offset + 41⟩, ⟨0, 0⟩, ""⟩]
    helperCallee := none
    helperDynamicArgumentIndices := []
    helperContinuation := none
    callbackParameter := "id"
    argumentField := none
    generatedIterator := ⟨0, 0⟩
    generatedIteratorSha256 := "" }

def fetchUnit : RetainedUnit where
  id := "list.js#fetch"
  module := "list.js"
  name := "fetch"
  range := ⟨0, 90⟩
  kind := "function"
  dependencyChain := ["list.js#fetch"]
  dependencies := []

def handlerUnit (exportName : String) : RetainedUnit where
  id := s!"list.js#{exportName}:handler"
  module := "list.js"
  name := exportName
  range := ⟨100, 200⟩
  kind := "handler"
  dependencyChain := [s!"list.js#{exportName}:handler"]
  dependencies := [("list.js#fetch", 170)]

def sampleAuthorize (unit : RetainedUnit) (_ : DirectAsyncBatchCandidate) :
    Option DirectAsyncBatchAuthorization :=
  if unit.kind = "handler" then some (getAuthorization 1 120)
  else some (getAuthorization 0 20)

def sampleBatches (_ : String) : List DirectAsyncBatchCandidate := [getBatch 20, getBatch 120]

theorem sample_calls {exportName : String} {units : List RetainedUnit} {call : AuthorizedCall}
    (hunits : units.Perm [fetchUnit, handlerUnit exportName])
    (hcall : call ∈ authorizedCalls sampleBatches sampleAuthorize units) :
    call = ⟨fetchUnit, getBatch 20, getAuthorization 0 20⟩ ∨
      call = ⟨handlerUnit exportName, getBatch 120, getAuthorization 1 120⟩ := by
  obtain ⟨unit, hunit, hcall⟩ := mem_flatMap.mp hcall
  rcases mem_pair.mp (hunits.mem_iff.mp hunit) with rfl | rfl
  · exact Or.inl (mem_singleton.mp hcall)
  · exact Or.inr (mem_singleton.mp hcall)

/-- A module with one helper and one handler, each with a batch of the same shape. -/
def sampleCompilation (exportName : String) (reachable : RetainedUnits)
    (hunits : reachable.units.Perm [fetchUnit, handlerUnit exportName])
    (handlers : reachable.units.filter isHandler = [handlerUnit exportName])
    (emission : reachableUnitEmissionOrder reachable = .ok [fetchUnit]) : BatchCompilation where
  reachable := reachable
  handler := handlerUnit exportName
  order := [fetchUnit]
  handlers := handlers
  emission := emission
  batches := sampleBatches
  sorted _ := by
    rw [sampleBatches]
    decide
  proper _ := by
    rw [sampleBatches]
    decide
  valueMode := .opaqueValues
  operations := [getOperation 0, getOperation 1]
  text := ⟨0, [getBatch 20, getBatch 120], [], fun _ => some ""⟩
  authorize := sampleAuthorize
  authorized unit _ candidate _ := by
    rw [sampleAuthorize]
    split <;> rfl
  granted call hcall := by
    rcases sample_calls hunits hcall with rfl | rfl
    · exact ⟨rfl, ⟨getOperation 0, rfl, rfl, rfl, rfl, rfl, rfl⟩, rfl, rfl, rfl, rfl⟩
    · exact ⟨rfl, ⟨getOperation 1, rfl, rfl, rfl, rfl, rfl, rfl⟩, rfl, rfl, rfl, rfl⟩
  continued call hcall := by
    rcases sample_calls hunits hcall with rfl | rfl
    · exact nofun
    · exact nofun
  place _ position := position
  inner _ _ _ _ _ hlt _ := hlt
  outer := by
    apply pairwise_pair.mpr
    intro first second _ hfirst hsecond _
    have hstop : fetchUnit.range.stop ≤ (handlerUnit exportName).range.start :=
      (by decide : 90 ≤ 100)
    exact (hfirst.trans_le hstop).trans_le hsecond
  parsed := rfl
  listed := List.Perm.refl _
  legible _ _ _ _ _ _ := rfl

end ConvexWasm.Compiler.BatchBinding
