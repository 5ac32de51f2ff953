import ConvexWasm.Compiler.Summary

/-!
# Binding batches to the generated source

The compiler authorises the `Promise.all` batches of the source and later finds
them again in the generated text.  The batches of the text are listed by offset
and paired with the authorisations by position; a pairing is accepted when the
batch has the shape that was authorised.
-/

namespace ConvexWasm.Compiler.BatchBinding

structure AdmittedIndexConstraint where
  field : String
  operator : String
  valueSource : String
  deriving DecidableEq

structure AdmittedOperation where
  id : ℕ
  kind : String
  table : Option String
  index : Option String
  indexConstraints : List AdmittedIndexConstraint
  order : Option String
  terminal : Option String
  limit : Option ℕ
  limitArgumentIndex : Option ℕ
  functionReference : Option String
  deriving DecidableEq

structure IndexConstraintCandidate extends AdmittedIndexConstraint where
  valueStart : ℕ
  valueStop : ℕ
  deriving DecidableEq

/-- What a mapped batch and a child of a fixed batch both say of their effect. -/
structure EffectShape where
  operationStart : Option ℕ
  operationStop : Option ℕ
  dynamicArguments : List SourceRange
  operationKind : Option String
  table : Option String
  index : Option String
  indexConstraints : List IndexConstraintCandidate
  order : Option String
  terminal : Option String
  limit : Option ℕ
  limitArgumentIndex : Option ℕ
  functionReference : Option String
  helperCallee : Option String
  helperCallStart : Option ℕ
  helperCallStop : Option ℕ
  helperArguments : List SourceRange
  shapeError : Option String
  deriving DecidableEq

structure DirectAsyncBatchFixedChildCandidate extends EffectShape where
  range : SourceRange
  deriving DecidableEq

structure DirectAsyncBatchCandidate extends EffectShape where
  batchKind : String
  range : SourceRange
  iteratorStart : Option ℕ
  iteratorStop : Option ℕ
  iteratorField : Option String
  callbackParameter : Option String
  fixedChildren : List DirectAsyncBatchFixedChildCandidate
  sequentialValueMapSafe : Bool
  deriving DecidableEq

structure DirectAsyncBatchArgumentAuthorization where
  source : SourceRange
  generated : SourceRange
  generatedSha256 : String
  deriving DecidableEq

structure DirectBatchHelperContinuationAuthorization where
  helperBinding : String
  helperParameters : List String
  helperArguments : List DirectAsyncBatchArgumentAuthorization
  generatedBody : SourceRange
  generatedSuspension : SourceRange
  generatedResultBinding : String
  generatedEffectArguments : List SourceRange
  deriving DecidableEq

/-- The effect that a mapped batch or a child of a fixed batch is authorised for. -/
structure EffectAuthorization where
  operationId : ℕ
  operationKind : String
  resultKind : String
  dynamicArguments : List DirectAsyncBatchArgumentAuthorization
  helperCallee : Option String
  helperDynamicArgumentIndices : List ℕ
  helperContinuation : Option DirectBatchHelperContinuationAuthorization
  deriving DecidableEq

structure SingleEffectMapAuthorization extends EffectAuthorization where
  callbackParameter : String
  argumentField : Option String
  generatedIterator : SourceRange
  generatedIteratorSha256 : String
  deriving DecidableEq

structure DirectAsyncBatchFixedChildAuthorization extends EffectAuthorization where
  source : SourceRange
  generated : SourceRange
  generatedSourceSha256 : String
  deriving DecidableEq

inductive DirectAsyncBatchAuthorizationShape
  | singleEffectMap (map : SingleEffectMapAuthorization)
  | fixedEffectArray (children : List DirectAsyncBatchFixedChildAuthorization)
  deriving DecidableEq

structure DirectAsyncBatchAuthorization where
  id : String
  file : String
  source : SourceRange
  generated : SourceRange
  generatedSourceSha256 : String
  shape : DirectAsyncBatchAuthorizationShape
  deriving DecidableEq

structure DirectBatchHelperContinuationCandidate where
  resultBinding : String
  body : SourceRange
  suspension : SourceRange
  deriving DecidableEq

structure DirectBatchHelperCandidate where
  dynamicArgumentRanges : List SourceRange
  dynamicParameterIndices : List ℕ
  continuation : Option DirectBatchHelperContinuationCandidate
  shapeError : Option String
  deriving DecidableEq

/-- A function of the generated text; its parameters are known when all are names. -/
structure GeneratedTopLevelFunction where
  name : String
  parameters : Except String (List String)
  helper : DirectBatchHelperCandidate

/-- What the parser reads from the generated text.  A slice has a digest when it
cuts the text between characters. -/
structure GeneratedText where
  parserDiagnostics : ℕ
  candidates : List DirectAsyncBatchCandidate
  functions : List GeneratedTopLevelFunction
  digest : SourceRange → Option String

inductive ValueMode
  | opaqueValues
  | guestNativeJson
  deriving DecidableEq

/-- The kind of the operation that a candidate of the kind stands for. -/
def expectedOperationKind : String → Option String
  | "db.query" => some "databaseIndexQuery"
  | "db.get" => some "databaseGet"
  | "db.insert" => some "databaseInsert"
  | "db.patch" => some "databasePatch"
  | "db.replace" => some "databaseReplace"
  | "db.delete" => some "databaseDelete"
  | "scheduler.runAfter" => some "schedulerRunAfter"
  | "scheduler.runAt" => some "schedulerRunAt"
  | "functionHandleCreate" => some "functionHandleCreate"
  | _ => none

variable (operation : AdmittedOperation)

def operationDynamicArgumentCount : ℕ :=
  match operation.kind with
  | "databasePatch" | "databaseReplace" | "schedulerRunAfter" | "schedulerRunAt" => 2
  | "databaseIndexQuery" =>
    operation.indexConstraints.length +
      (if operation.limitArgumentIndex.isSome then 1 else 0)
  | "databaseGet" | "databaseInsert" | "databaseDelete" | "functionHandleCreate" => 1
  | _ => 0

/-- The shared body of `direct_batch_operation_matches`, for the effect of a mapped
batch, and `direct_fixed_child_operation_matches`, for that of a child. -/
def operationMatches (shape : EffectShape) : Bool :=
  match shape.operationKind.bind expectedOperationKind with
  | none => false
  | some expectedKind =>
    decide (operation.kind = expectedKind) &&
    decide (operation.table = shape.table) &&
    decide (operation.index = shape.index) &&
    decide (operation.indexConstraints.map (fun constraint =>
        (constraint.field, constraint.operator)) =
      shape.indexConstraints.map fun constraint => (constraint.field, constraint.operator)) &&
    decide (operation.order = shape.order) &&
    decide (operation.terminal = shape.terminal) &&
    decide (operation.limit = shape.limit) &&
    decide (operation.limitArgumentIndex = shape.limitArgumentIndex) &&
    decide (operation.functionReference = shape.functionReference) &&
    decide (operationDynamicArgumentCount operation = shape.dynamicArguments.length)

def directBatchResultKind : Except String String :=
  match operation.kind with
  | "databaseIndexQuery" =>
    .ok (if operation.terminal = some "collect" then "hostArray" else "hostValue")
  | "databasePatch" | "databaseReplace" | "databaseDelete" => .ok "undefined"
  | "databaseGet" | "databaseInsert" | "schedulerRunAfter" | "schedulerRunAt"
  | "functionHandleCreate" => .ok "hostValue"
  | kind => .error s!"operation {kind} has no direct batch result contract"

def directBatchCandidateOperationKind : Except String String :=
  match operation.kind with
  | "databaseIndexQuery" => .ok "db.query"
  | "databaseGet" => .ok "db.get"
  | "databaseInsert" => .ok "db.insert"
  | "databasePatch" => .ok "db.patch"
  | "databaseReplace" => .ok "db.replace"
  | "databaseDelete" => .ok "db.delete"
  | "schedulerRunAfter" => .ok "scheduler.runAfter"
  | "schedulerRunAt" => .ok "scheduler.runAt"
  | "functionHandleCreate" => .ok "functionHandleCreate"
  | kind => .error s!"operation {kind} cannot back a direct batch helper"

section Binding

def generatedIndexConstraintCandidates (operation : AdmittedOperation) :
    List IndexConstraintCandidate :=
  operation.indexConstraints.map fun constraint =>
    { toAdmittedIndexConstraint := constraint, valueStart := 0, valueStop := 0 }

/-- The shared body of `bind_generated_mapped_helper_candidate` and
`bind_generated_fixed_helper_candidate`: the call of a helper is read as the effect of
the operation.  The argument that holds a limit is not among the fields taken over. -/
def bindGeneratedHelperShape (indirection changed : String) (shape : EffectShape)
    (operation : AdmittedOperation) (helperCallee : String)
    (dynamicArgumentIndices : List ℕ) : Except String EffectShape := do
  if ¬ (shape.shapeError = some indirection ∧ shape.helperCallee = some helperCallee ∧
      ∀ index ∈ dynamicArgumentIndices, index < shape.helperArguments.length) then
    throw changed
  let operationKind ← directBatchCandidateOperationKind operation
  return { shape with
    shapeError := none
    operationStart := shape.helperCallStart
    operationStop := shape.helperCallStop
    dynamicArguments :=
      dynamicArgumentIndices.filterMap fun index => shape.helperArguments[index]?
    operationKind := some operationKind
    table := operation.table
    index := operation.index
    indexConstraints := generatedIndexConstraintCandidates operation
    order := operation.order
    terminal := operation.terminal
    limit := operation.limit
    functionReference := operation.functionReference }

variable (text : GeneratedText) (operations : List AdmittedOperation)

def sourceSlice (range : SourceRange) : Except String String :=
  match text.digest range with
  | none => .error s!"invalid UTF-8 source span {range.start}..{range.stop}"
  | some sha256 => .ok sha256

def bindGeneratedDirectAsyncBatchArgument
    (authorization : DirectAsyncBatchArgumentAuthorization) (generated : SourceRange) :
    Except String DirectAsyncBatchArgumentAuthorization := do
  let sha256 ← sourceSlice text generated
  return { authorization with generated := generated, generatedSha256 := sha256 }

/-- The arguments in step with their ranges; what is left over stays as it is. -/
def bindArguments : List DirectAsyncBatchArgumentAuthorization → List SourceRange →
    Except String (List DirectAsyncBatchArgumentAuthorization)
  | authorization :: authorizations, generated :: ranges => do
      let bound ← bindGeneratedDirectAsyncBatchArgument text authorization generated
      let rest ← bindArguments authorizations ranges
      return bound :: rest
  | authorizations, _ => .ok authorizations

def bindGeneratedHelperContinuation (generatedHelperArguments : List SourceRange)
    (helperDynamicArgumentIndices : List ℕ)
    (continuation : DirectBatchHelperContinuationAuthorization) :
    Except String DirectBatchHelperContinuationAuthorization :=
  match text.functions.filter fun function =>
    decide (function.name = continuation.helperBinding) with
  | [function] => do
      if ¬ (function.helper.shapeError = none ∧
          function.helper.dynamicParameterIndices = helperDynamicArgumentIndices) then
        throw "generated continuation helper changed its admitted effect shape"
      match function.helper.continuation with
      | none => throw "generated continuation helper lost its continuation"
      | some generated => do
          let parameters ← function.parameters
          if ¬ (parameters = continuation.helperParameters ∧
              continuation.helperArguments.length = generatedHelperArguments.length) then
            throw "generated continuation helper parameters or call arguments changed"
          let helperArguments ← bindArguments text continuation.helperArguments
            generatedHelperArguments
          return { continuation with
            generatedBody := generated.body
            generatedSuspension := generated.suspension
            generatedResultBinding := generated.resultBinding
            generatedEffectArguments := function.helper.dynamicArgumentRanges
            helperArguments := helperArguments }
  | _ =>
    .error s!"generated continuation helper {continuation.helperBinding} is missing or ambiguous"

def bindContinuation (generatedHelperArguments : List SourceRange)
    (helperDynamicArgumentIndices : List ℕ) :
    Option DirectBatchHelperContinuationAuthorization →
      Except String (Option DirectBatchHelperContinuationAuthorization)
  | none => .ok none
  | some continuation => do
      let bound ← bindGeneratedHelperContinuation text generatedHelperArguments
        helperDynamicArgumentIndices continuation
      return some bound

def findOperation (id : ℕ) (disappeared : String) : Except String AdmittedOperation :=
  match operations.find? fun operation => decide (operation.id = id) with
  | none => .error disappeared
  | some operation => .ok operation

def required (value : Option ℕ) (missing : String) : Except String ℕ :=
  match value with
  | none => .error missing
  | some value => .ok value

/-- The messages in which the binding of a mapped batch and of a child differ. -/
structure EffectTexts where
  disappeared : String
  indirection : String
  changed : String
  unsupported : String
  mismatch : String
  metadata : String

def mappedTexts : EffectTexts where
  disappeared := "generated direct async batch operation ID disappeared"
  indirection :=
    "direct Promise.all single-effect helper indirection is not mechanically lowered"
  changed := "generated mapped direct batch helper call changed shape"
  unsupported := "generated authorized mapped Promise.all changed to an unsupported shape"
  mismatch := "generated direct async batch does not match its compiler authorization"
  metadata := "generated direct async batch descriptor metadata changed"

def fixedTexts : EffectTexts where
  disappeared := "generated fixed batch child operation ID disappeared"
  indirection :=
    "direct Promise.all fixed child helper indirection is not mechanically lowered"
  changed := "generated fixed direct batch helper call changed shape"
  unsupported := "generated fixed batch child changed to an unsupported shape"
  mismatch := "generated fixed batch child does not match its compiler authorization"
  metadata := "generated fixed batch child does not match its compiler authorization"

/-- The effect of the batch, read through the helper when it is authorised for one. -/
def resolvedShape (texts : EffectTexts) (operation : AdmittedOperation)
    (authorization : EffectAuthorization) (shape : EffectShape) : Except String EffectShape :=
  match authorization.helperCallee with
  | some helperCallee =>
    bindGeneratedHelperShape texts.indirection texts.changed shape operation helperCallee
      authorization.helperDynamicArgumentIndices
  | none => if shape.shapeError.isSome then .error texts.unsupported else .ok shape

/-- The part of the binding that mapped batches and children share.  The batch is
`accepted` for what it has besides its effect, and `span` reads its own range. -/
def bindEffect {Span : Type} (texts : EffectTexts) (accepted : Bool)
    (span : Except String Span) (authorization : EffectAuthorization) (shape : EffectShape) :
    Except String (Span × EffectAuthorization) := do
  let operation ← findOperation operations authorization.operationId texts.disappeared
  let shape ← resolvedShape texts operation authorization shape
  let helperContinuation ← bindContinuation text shape.helperArguments
    authorization.helperDynamicArgumentIndices authorization.helperContinuation
  if ¬ (operationMatches operation shape ∧ accepted) then
    throw texts.mismatch
  if authorization.operationKind ≠ operation.kind then
    throw texts.metadata
  let resultKind ← directBatchResultKind operation
  if ¬ (authorization.resultKind = resultKind ∧
      authorization.dynamicArguments.length = shape.dynamicArguments.length) then
    throw texts.metadata
  let span ← span
  let dynamicArguments ← bindArguments text authorization.dynamicArguments
    shape.dynamicArguments
  return (span, { authorization with
    dynamicArguments := dynamicArguments
    helperContinuation := helperContinuation })

variable (candidate : DirectAsyncBatchCandidate)

/-- The iterator of the batch with its digest. -/
def iteratorSpan :
    Except String (SourceRange × String) := do
  let start ← required candidate.iteratorStart "generated authorized batch has no iterator start"
  let stop ← required candidate.iteratorStop "generated authorized batch has no iterator end"
  let sha256 ← sourceSlice text ⟨start, stop⟩
  return (⟨start, stop⟩, sha256)

def bindSingleEffectMap (map : SingleEffectMapAuthorization)
    (candidate : DirectAsyncBatchCandidate) : Except String SingleEffectMapAuthorization := do
  if candidate.batchKind ≠ "singleEffectMap" then
    throw "generated mapped batch changed kind"
  let accepted := decide (candidate.iteratorField = map.argumentField ∧
    candidate.callbackParameter = some map.callbackParameter)
  let bound ← bindEffect text operations mappedTexts accepted (iteratorSpan text candidate)
    map.toEffectAuthorization candidate.toEffectShape
  return { map with
    toEffectAuthorization := bound.2
    generatedIterator := bound.1.1
    generatedIteratorSha256 := bound.1.2 }

def bindFixedChild (authorization : DirectAsyncBatchFixedChildAuthorization)
    (generated : DirectAsyncBatchFixedChildCandidate) :
    Except String DirectAsyncBatchFixedChildAuthorization := do
  let bound ← bindEffect text operations fixedTexts true (sourceSlice text generated.range)
    authorization.toEffectAuthorization generated.toEffectShape
  return { authorization with
    toEffectAuthorization := bound.2
    generated := generated.range
    generatedSourceSha256 := bound.1 }

def bindShape :
    DirectAsyncBatchAuthorizationShape → Except String DirectAsyncBatchAuthorizationShape
  | .singleEffectMap map => do
      let bound ← bindSingleEffectMap text operations map candidate
      return .singleEffectMap bound
  | .fixedEffectArray children => do
      if ¬ (candidate.batchKind = "fixedEffectArray" ∧
          children.length = candidate.fixedChildren.length) then
        throw "generated fixed batch changed kind or child count"
      let bound ← (children.zip candidate.fixedChildren).mapM fun child =>
        bindFixedChild text operations child.1 child.2
      return .fixedEffectArray bound

def bindAuthorization (authorization : DirectAsyncBatchAuthorization)
    (candidate : DirectAsyncBatchCandidate) : Except String DirectAsyncBatchAuthorization := do
  let sha256 ← sourceSlice text candidate.range
  let shape ← bindShape text operations candidate authorization.shape
  return { authorization with
    generated := candidate.range
    generatedSourceSha256 := sha256
    shape := shape }

/-- A value map that runs in the guest is not a batch of the host. -/
def retained (valueMode : ValueMode) (candidate : DirectAsyncBatchCandidate) : Bool :=
  !(decide (valueMode = .guestNativeJson) && candidate.sequentialValueMapSafe)

def offsetKey : ℕ ×ₗ ℕ :=
  toLex (candidate.range.start, candidate.range.stop)

def generatedCandidates (valueMode : ValueMode) : List DirectAsyncBatchCandidate :=
  (text.candidates.filter (retained valueMode)).insertionSort fun candidate other =>
    offsetKey candidate ≤ offsetKey other

def bindGeneratedDirectAsyncBatches (authorizations : List DirectAsyncBatchAuthorization)
    (valueMode : ValueMode) : Except String (List DirectAsyncBatchAuthorization) := do
  if text.parserDiagnostics ≠ 0 then
    throw s!"generated direct async batch source has {text.parserDiagnostics} parser diagnostics"
  let candidates := generatedCandidates text valueMode
  if candidates.length ≠ authorizations.length then
    throw s!"generated source contains {candidates.length} Promise.all batches but compiler authorized {authorizations.length}"
  (authorizations.zip candidates).mapM fun pair => bindAuthorization text operations pair.1 pair.2

end Binding

end ConvexWasm.Compiler.BatchBinding
