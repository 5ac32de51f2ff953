import ConvexWasm.Core.KeyedMap

/-!
# Module summaries of the compiler

The facts the compiler extracts from each loaded module and the units of one
registration it found reachable.  Only the fields that the modelled analyses
read are kept.
-/

namespace ConvexWasm.Compiler

structure SourceRange where
  start : ℕ
  stop : ℕ
  deriving DecidableEq

/-- `outer.start <= inner.start && outer.end >= inner.end`. -/
def SourceRange.Contains (outer inner : SourceRange) : Prop :=
  outer.start ≤ inner.start ∧ inner.stop ≤ outer.stop

instance : DecidableRel SourceRange.Contains := fun outer inner =>
  inferInstanceAs (Decidable (outer.start ≤ inner.start ∧ inner.stop ≤ outer.stop))

structure ReferenceOccurrence where
  name : String
  range : SourceRange
  read : Bool
  write : Bool
  deriving DecidableEq

/-- A reference that only reads its binding. -/
def ReferenceOccurrence.readOnly (reference : ReferenceOccurrence) : Bool :=
  reference.read && !reference.write

structure CallArgumentProjectionCandidate where
  path : List String
  value : SourceRange
  awaitCount : ℕ
  deriving DecidableEq

structure CallCandidate where
  callee : String
  calleeStart : ℕ
  calleeEnd : ℕ
  range : SourceRange
  arguments : List SourceRange
  argumentAwaitCounts : List ℕ
  argumentProjections : List (List CallArgumentProjectionCandidate)
  deriving DecidableEq

structure CapabilityProjectionSummary where
  path : List String
  bindingStart : ℕ
  name : String
  references : List ReferenceOccurrence
  deriving DecidableEq

structure ParameterSummary where
  index : ℕ
  name : String
  start : ℕ
  references : List ReferenceOccurrence
  capabilityProjections : List CapabilityProjectionSummary
  deriving DecidableEq

/-- The declarations that bind the parameter or one of its projections. -/
def ParameterSummary.bindingStarts (parameter : ParameterSummary) : List ℕ :=
  parameter.start ::
    parameter.capabilityProjections.map CapabilityProjectionSummary.bindingStart

structure CapabilityPredicateTemplateCandidate where
  parameterIndex : ℕ
  member : String
  deriving DecidableEq

/-- A test of the form `context.member` or `predicate(context)`. -/
inductive CapabilityPredicateTestCandidate
  | directMember (member objectName : String) (object : SourceRange)
  | directCall (callee : String) (calleeSpan argument : SourceRange)
  deriving DecidableEq

structure StaticCallableAliasCandidate where
  target : String
  reference : SourceRange
  deriving DecidableEq

structure RegistrationSummary where
  kind : String
  handler : SourceRange
  contextParameter : Option String
  contextParameterStart : Option ℕ
  contextReferences : List ReferenceOccurrence
  deriving DecidableEq

structure UnitSummary where
  name : String
  callableRange : Option SourceRange
  parameters : List ParameterSummary
  capabilityPredicate : Option CapabilityPredicateTemplateCandidate
  staticCallableAlias : Option StaticCallableAliasCandidate
  registration : Option RegistrationSummary
  deriving DecidableEq

structure ImportBinding where
  imported : String
  specifier : String
  typeOnly : Bool
  deriving DecidableEq

structure OperationCandidate where
  kind : String
  range : SourceRange
  effectStart : Option ℕ
  effectEnd : Option ℕ
  effectPath : Option String
  deriving DecidableEq

structure EffectCandidate where
  path : String
  range : SourceRange
  deriving DecidableEq

/-- The summary of one parsed module; a declaration binds one parameter. -/
structure ModuleSummary where
  units : KeyedMap String UnitSummary
  imports : KeyedMap String ImportBinding
  exports : KeyedMap String String
  calls : List CallCandidate
  references : List ReferenceOccurrence
  operations : List OperationCandidate
  effects : List EffectCandidate
  bindings_unique : ∀ first ∈ units.entries, ∀ parameter ∈ first.2.parameters,
    ∀ second ∈ units.entries, ∀ other ∈ second.2.parameters,
      ∀ start ∈ parameter.bindingStarts, start ∈ other.bindingStarts →
        first = second ∧ parameter = other

abbrev LoadedModules := KeyedMap String ModuleSummary

structure EsbuildImport where
  path : String
  kind : String
  original : Option String
  isExternal : Bool
  deriving DecidableEq

inductive EffectExecutionMode
  | blockingFiber
  | guestPromiseEventLoop
  deriving DecidableEq

structure GraphInput where
  effectExecutionMode : EffectExecutionMode
  inputs : KeyedMap String (List EsbuildImport)

structure ReachableUnit where
  id : String
  module : String
  name : String
  range : SourceRange
  kind : String
  dependencyChain : List String
  deriving DecidableEq

/-- The reachable units, keyed by their identifiers. -/
structure ReachableUnits where
  units : List ReachableUnit
  ids_nodup : (units.map ReachableUnit.id).Nodup

namespace ReachableUnits

variable (reachable : ReachableUnits)

def get? (id : String) : Option ReachableUnit :=
  reachable.units.find? fun unit => decide (unit.id = id)

variable {reachable} {first second : ReachableUnit}

theorem eq_of_id (hfirst : first ∈ reachable.units)
    (hsecond : second ∈ reachable.units) (hid : first.id = second.id) : first = second :=
  List.inj_on_of_nodup_map reachable.ids_nodup hfirst hsecond hid

theorem get?_id (hunit : first ∈ reachable.units) : reachable.get? first.id = some first := by
  have hfound : (reachable.get? first.id).isSome := by
    rw [get?, List.find?_isSome]
    exact ⟨first, hunit, decide_eq_true rfl⟩
  obtain ⟨found, hfind⟩ := Option.isSome_iff_exists.mp hfound
  have hid : found.id = first.id := by simpa using List.find?_some hfind
  rw [hfind, eq_of_id (List.mem_of_find?_eq_some hfind) hunit hid]

end ReachableUnits

/-- The path an import statement resolves to; every entry with the specifier
must agree. -/
def resolveGraphImport (graph : GraphInput) (importer specifier : String) : Except String String :=
  match graph.inputs.get? importer with
  | none => .error s!"esbuild metafile has no input {importer}"
  | some imports =>
    let candidates := imports.filter fun entry =>
      decide (entry.original = some specifier)
    let resolutions := (candidates.map fun entry =>
      (entry.path, entry.kind, entry.isExternal)).dedup
    let inconsistent := Except.error s!"esbuild graph must resolve {specifier} from {importer} consistently, found {candidates.length} entries with {resolutions.length} distinct resolutions"
    match candidates with
    | [] => inconsistent
    | resolved :: _ =>
      if resolutions.length ≠ 1 then inconsistent
      else if resolved.kind ≠ "import-statement" then
        .error s!"unsupported esbuild import kind {resolved.kind} for {specifier}"
      else if resolved.isExternal then
        .error s!"runtime import {specifier} from {importer} is external"
      else .ok resolved.path

end ConvexWasm.Compiler
