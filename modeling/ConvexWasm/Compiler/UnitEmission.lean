import ConvexWasm.Compiler.Summary

/-!
# The emission order of the units

The generated source lists the units of a module in the order of the source,
after the units of the modules it depends on, and the handler last.  The
modules are visited depth first in the order of their names.
-/

namespace ConvexWasm.Compiler.UnitEmission

open List

/-- A reachable unit with the units it refers to and the first place of each. -/
structure RetainedUnit extends ReachableUnit where
  dependencies : List (String × ℕ)
  deriving DecidableEq

/-- The retained units, listed by identifier as the map of the source holds them. -/
structure RetainedUnits where
  units : List RetainedUnit
  sorted : (units.map fun unit => unit.id).Pairwise (· < ·)

def isHandler (unit : RetainedUnit) : Bool := decide (unit.kind = "handler")

def emittedUnits (reachable : RetainedUnits) : List RetainedUnit :=
  reachable.units.filter fun unit => !isHandler unit

section ModuleDependencies

variable (reachable : RetainedUnits)

def unitOf (id : String) : Option RetainedUnit :=
  reachable.units.find? fun unit => decide (unit.id = id)

/-- The other module that a dependency of the unit lies in. -/
def dependencyModule (unit : RetainedUnit) (dependency : String × ℕ) :
    Except String (Option String) :=
  match unitOf reachable dependency.1 with
  | none => .error s!"reachable dependency {dependency.1} was not retained"
  | some target =>
    if isHandler target || decide (target.module = unit.module) then .ok none
    else .ok (some target.module)

/-- The modules that the units of each module depend on. -/
def reachableModuleDependencies : Except String (List (String × String)) :=
  (reachable.units.flatMap fun unit =>
    unit.dependencies.map fun dependency => (unit, dependency)).foldlM
    (fun edges reference => do
      match ← dependencyModule reachable reference.1 reference.2 with
      | none => return edges
      | some module => return edges ++ [(reference.1.module, module)]) []

def dependenciesOf (edges : List (String × String)) (module : String) : List String :=
  (((edges.filter fun edge => decide (edge.1 = module)).map Prod.snd).dedup).insertionSort (· ≤ ·)

end ModuleDependencies

/-- The dependencies of one module: the first that is being visited closes a cycle. -/
def scanDependencies (visit : String → List String → Option (String × String) × List String)
    (module : String) (visiting : List String) :
    List String → List String → Option (String × String) × List String
  | [], visited => (none, module :: visited)
  | dependency :: rest, visited =>
    if dependency ∈ visiting then (some (module, dependency), visited)
    else
      match visit dependency visited with
      | (some edge, visited) => (some edge, visited)
      | (none, visited) => scanDependencies visit module visiting rest visited

def visitDependencies (edges : List (String × String)) :
    ℕ → List String → String → List String → Option (String × String) × List String
  | 0, _, _, visited => (none, visited)
  | fuel + 1, visiting, module, visited =>
    if module ∈ visited then (none, visited)
    else
      scanDependencies (visitDependencies edges fuel (module :: visiting)) module
        (module :: visiting) (dependenciesOf edges module) visited

/-- The first edge found that closes a cycle of modules. -/
def reachableModuleCycleEdge (edges : List (String × String)) : Option (String × String) :=
  let modules := ((edges.map Prod.fst).dedup).insertionSort (· ≤ ·)
  (modules.foldl (fun (found : Option (String × String) × List String) module =>
    match found.1 with
    | some edge => (some edge, found.2)
    | none => visitDependencies edges (edges.length + 2) [] module found.2) (none, [])).1

section Emission

/-- The modules of the units other than the handler, in the order of their names. -/
def emittedModules (reachable : RetainedUnits) : List String :=
  (((emittedUnits reachable).map fun unit => unit.module).dedup).insertionSort (· ≤ ·)

def sourceKey (unit : RetainedUnit) : ℕ ×ₗ ℕ ×ₗ String :=
  toLex (unit.range.start, toLex (unit.range.stop, unit.id))

def unitsOfModule (reachable : RetainedUnits) (module : String) : List RetainedUnit :=
  ((emittedUnits reachable).filter fun unit => decide (unit.module = module)).insertionSort
    fun unit other => sourceKey unit ≤ sourceKey other

/-- The modules emitted so far and their units. -/
structure Emission where
  emitted : List String
  output : List RetainedUnit
  deriving DecidableEq

variable (reachable : RetainedUnits) (edges : List (String × String))

def visitModule : ℕ → List String → Emission → String → Except String Emission
  | 0, _, emission, _ => .ok emission
  | fuel + 1, visiting, emission, module => do
      if module ∈ emission.emitted then return emission
      if module ∉ emittedModules reachable then
        throw s!"reachable module {module} disappeared before emission"
      if module ∈ visiting then return emission
      let emission ← (dependenciesOf edges module).foldlM
        (visitModule fuel (module :: visiting)) emission
      if module ∈ emission.emitted then return emission
      return ⟨module :: emission.emitted, emission.output ++ unitsOfModule reachable module⟩

/-- No module is entered twice on one path, so there is fuel for all of them. -/
def reachableUnitEmissionOrder : Except String (List RetainedUnit) := do
  let edges ← reachableModuleDependencies reachable
  if (reachableModuleCycleEdge edges).isSome then
    throw "reachable module initialization cycle reached source emission"
  let emission ← (emittedModules reachable).foldlM
    (visitModule reachable edges ((emittedModules reachable).length + 1) []) ⟨[], []⟩
  if emission.output.length ≠ (emittedUnits reachable).length then
    throw "reachable-unit emission omitted a retained non-handler unit"
  return emission.output

end Emission

section EmittedOnce

variable {reachable : RetainedUnits} {edges : List (String × String)}

theorem units_nodup (reachable : RetainedUnits) : reachable.units.Nodup := by
  have hids : (reachable.units.map fun unit => unit.id).Nodup :=
    reachable.sorted.imp fun hlt => ne_of_lt hlt
  exact hids.of_map _

theorem eq_of_id {first second : RetainedUnit} (hfirst : first ∈ reachable.units)
    (hsecond : second ∈ reachable.units) (hid : first.id = second.id) : first = second := by
  have hids : (reachable.units.map fun unit => unit.id).Nodup :=
    reachable.sorted.imp fun hlt => ne_of_lt hlt
  exact inj_on_of_nodup_map hids hfirst hsecond hid

/-- The output lists units of the emitted modules, none twice. -/
structure Emission.Sound (reachable : RetainedUnits) (emission : Emission) : Prop where
  nodup : emission.output.Nodup
  retained : ∀ unit ∈ emission.output, unit ∈ emittedUnits reachable
  emitted : ∀ unit ∈ emission.output, unit.module ∈ emission.emitted

theorem mem_unitsOfModule {module : String} {unit : RetainedUnit} :
    unit ∈ unitsOfModule reachable module ↔
      unit ∈ emittedUnits reachable ∧ unit.module = module := by
  rw [unitsOfModule, mem_insertionSort, mem_filter, decide_eq_true_eq]

theorem unitsOfModule_nodup (module : String) : (unitsOfModule reachable module).Nodup :=
  (perm_insertionSort _ _).nodup_iff.mpr (((units_nodup reachable).filter _).filter _)

theorem Emission.Sound.emit {emission : Emission} {module : String}
    (hsound : emission.Sound reachable) (hfresh : module ∉ emission.emitted) :
    Emission.Sound reachable
      ⟨module :: emission.emitted, emission.output ++ unitsOfModule reachable module⟩ := by
  refine ⟨?_, ?_, ?_⟩
  · apply hsound.nodup.append (unitsOfModule_nodup module)
    intro unit hunit hnew
    apply hfresh
    rw [← (mem_unitsOfModule.mp hnew).2]
    exact hsound.emitted unit hunit
  · intro unit hunit
    rcases mem_append.mp hunit with hunit | hunit
    · exact hsound.retained unit hunit
    · exact (mem_unitsOfModule.mp hunit).1
  · intro unit hunit
    rcases mem_append.mp hunit with hunit | hunit
    · exact mem_cons_of_mem _ (hsound.emitted unit hunit)
    · rw [(mem_unitsOfModule.mp hunit).2]
      exact mem_cons_self

/-- What one visit does: nothing, or the dependencies and then the module itself. -/
theorem visitModule_succ (fuel : ℕ) (visiting : List String) (emission : Emission)
    (module : String) :
    visitModule reachable edges (fuel + 1) visiting emission module =
      if module ∈ emission.emitted then .ok emission
      else if module ∉ emittedModules reachable then
        .error s!"reachable module {module} disappeared before emission"
      else if module ∈ visiting then .ok emission
      else ((dependenciesOf edges module).foldlM
        (visitModule reachable edges fuel (module :: visiting)) emission).bind fun emission =>
          if module ∈ emission.emitted then .ok emission
          else .ok ⟨module :: emission.emitted,
            emission.output ++ unitsOfModule reachable module⟩ := by
  rw [visitModule]
  by_cases hemitted : module ∈ emission.emitted
  · rfl
  by_cases hknown : module ∈ emittedModules reachable
  · rfl
  by_cases hvisiting : module ∈ visiting
  · rfl
  · rfl

theorem visitModule_sound {fuel : ℕ} {visiting : List String} {emission emission' : Emission}
    {module : String} (hsound : emission.Sound reachable)
    (hvisit : visitModule reachable edges fuel visiting emission module = .ok emission') :
    emission'.Sound reachable := by
  induction fuel generalizing visiting emission emission' module with
  | zero =>
    obtain rfl : emission = emission' := by simpa [visitModule] using hvisit
    exact hsound
  | succ fuel ih =>
    rw [visitModule_succ] at hvisit
    split at hvisit
    · cases hvisit
      exact hsound
    split at hvisit
    · cases hvisit
    split at hvisit
    · cases hvisit
      exact hsound
    obtain ⟨inner, hinner, hemit⟩ := Fallible.bind_eq_ok.mp hvisit
    have hinnerSound : inner.Sound reachable :=
      Fallible.foldlM_invariant (Emission.Sound reachable)
        (fun _ _ _ _ hstate hstep => ih hstate hstep) hsound hinner
    split at hemit
    · cases hemit
      exact hinnerSound
    · next hfresh =>
        cases hemit
        exact hinnerSound.emit hfresh

/-- The emission order lists every retained unit except the handler once. -/
theorem emissionOrder_perm {order : List RetainedUnit}
    (horder : reachableUnitEmissionOrder reachable = .ok order) :
    order.Perm (emittedUnits reachable) := by
  obtain ⟨edges, -, hcycle⟩ := Fallible.bind_eq_ok.mp horder
  split at hcycle
  · cases hcycle
  obtain ⟨emission, hemission, hlength⟩ := Fallible.bind_eq_ok.mp hcycle
  split at hlength
  · cases hlength
  next hcomplete =>
  cases hlength
  have hsound : emission.Sound reachable :=
    Fallible.foldlM_invariant (Emission.Sound reachable)
      (fun _ _ _ _ hstate hstep => visitModule_sound hstate hstep)
      ⟨nodup_nil, by simp, by simp⟩ hemission
  have hsubset : emission.output.Subperm (emittedUnits reachable) :=
    subperm_of_subset hsound.nodup hsound.retained
  exact hsubset.perm_of_length_le (not_not.mp hcomplete).ge

end EmittedOnce

end ConvexWasm.Compiler.UnitEmission
