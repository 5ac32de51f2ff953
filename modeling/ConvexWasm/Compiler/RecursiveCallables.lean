import ConvexWasm.Core.BackEdgeSearch
import ConvexWasm.Compiler.QueryBuilderFlows

/-!
# Recursive callables of the query graph

Routes of query builders are not composed through a callable that calls itself,
directly or through others.  These callables are searched for by following the
exact calls between callables with flows, in the order of the keys.
-/

namespace ConvexWasm.Compiler

open List

theorem CallableKey.fields_injective :
    Function.Injective fun key : CallableKey => toLex (key.module, key.unitId) := by
  intro left right heq
  have hpair : (left.module, left.unitId) = (right.module, right.unitId) := toLex.injective heq
  cases left
  cases right
  simpa using hpair

instance : LinearOrder CallableKey :=
  LinearOrder.lift' _ CallableKey.fields_injective

namespace RecursiveCallables

open BackEdgeSearch ControlPlans QueryBuilderFlows

variable (flows : List AuthenticatedCallableQueryBuilderFlow) (plans : List CallableControlPlan)

variable (callable : CallableKey)

/-- `flows.contains_key(..)` -/
def hasFlow : Bool :=
  (flows.map (·.callable)).contains callable

/-- The keys of a map or the elements of a set, in order. -/
def ordered (callables : List CallableKey) : List CallableKey :=
  callables.dedup.insertionSort (· ≤ ·)

def flowKeys : List CallableKey :=
  ordered (flows.map (·.callable))

/-- The entries of the call index that hold one exact call whose ends have flows. -/
def exactCalls : List (CallableKey × CallableControlCallPlan) :=
  (plannedCalls plans).filter fun planned =>
    decide (exactCallAt plans planned.1 planned.2.callsite = some planned.2) &&
      hasFlow flows planned.1 && hasFlow flows planned.2.target

/-- `adjacency` -/
def adjacency (caller : CallableKey) : List CallableKey :=
  ordered (((exactCalls flows plans).filter fun planned => decide (planned.1 = caller)).map
    (·.2.target))

/-- Each visit finds at least one callable with a flow, so there are no more
nested visits than keys. -/
def cyclicCallables : Finset CallableKey :=
  (run (flowKeys flows) (adjacency flows plans) (flowKeys flows).length).cyclic

/-- An exact call with safe arguments between callables with flows. -/
def ExactCall (caller target : CallableKey) : Prop :=
  ∃ call, exactCallAt plans caller call.callsite = some call ∧ call.target = target ∧
    hasFlow flows caller = true ∧ hasFlow flows target = true

def OnCycle : Prop :=
  Relation.TransGen (ExactCall flows plans) callable callable

variable {flows plans}

theorem ordered_sorted (callables : List CallableKey) : (ordered callables).Pairwise (· < ·) := by
  have hsorted : (ordered callables).Pairwise (· ≤ ·) := pairwise_insertionSort _ _
  have hnodup : (ordered callables).Nodup :=
    (perm_insertionSort _ _).nodup_iff.mpr (nodup_dedup _)
  exact hsorted.imp₂ (fun _ _ hle hne => lt_of_le_of_ne hle hne) hnodup

@[simp]
theorem mem_ordered {callables : List CallableKey} {callable : CallableKey} :
    callable ∈ ordered callables ↔ callable ∈ callables := by
  rw [ordered, (perm_insertionSort _ _).mem_iff, mem_dedup]

theorem hasFlow_iff {callable : CallableKey} :
    hasFlow flows callable = true ↔ callable ∈ flowKeys flows := by
  simp [hasFlow, flowKeys]

/-- The adjacency lists hold the exact calls. -/
theorem edge_iff (caller target : CallableKey) :
    Edge (adjacency flows plans) caller target ↔ ExactCall flows plans caller target := by
  simp only [Edge, adjacency, exactCalls, mem_ordered, mem_map, mem_filter,
    Bool.and_eq_true, decide_eq_true_eq]
  constructor
  · intro hedge
    obtain ⟨⟨other, call⟩, ⟨⟨-, ⟨hexact, hcaller⟩, htarget⟩, rfl⟩, rfl⟩ := hedge
    exact ⟨call, hexact, rfl, hcaller, htarget⟩
  · intro hcall
    obtain ⟨call, hexact, rfl, hcaller, htarget⟩ := hcall
    exact ⟨(caller, call), ⟨⟨(exactCallAt_mem hexact).1, ⟨hexact, hcaller⟩, htarget⟩, rfl⟩, rfl⟩

theorem onCycle_iff :
    OnCycle flows plans callable ↔
      Relation.TransGen (Edge (adjacency flows plans)) callable callable := by
  have hedges : Edge (adjacency flows plans) = ExactCall flows plans := by
    funext caller target
    exact propext (edge_iff caller target)
  rw [hedges]
  rfl

/-- The search marks the callables on a cycle that a single call closes over a
first path. -/
theorem mem_cyclicCallables_iff :
    callable ∈ cyclicCallables flows plans ↔
      OnBackEdge (flowKeys flows) (adjacency flows plans) callable := by
  have hroots : ∀ root ∈ flowKeys flows, root ∈ (flowKeys flows).toFinset :=
    fun root hroot => mem_toFinset.mpr hroot
  have hadjacent : ∀ caller, ∀ target ∈ adjacency flows plans caller,
      target ∈ (flowKeys flows).toFinset := by
    intro caller target htarget
    obtain ⟨-, -, -, -, hflow⟩ := (edge_iff caller target).mp htarget
    exact mem_toFinset.mpr (hasFlow_iff.mp hflow)
  exact mem_run_cyclic_iff hroots hadjacent (fun _ => ordered_sorted _)
    (toFinset_card_le _) (ordered_sorted _) (fun node hnode => mem_toFinset.mp hnode)
    callable

/-- The search finds exactly the callables on cycles if and only if each of them
lies on a cycle that a single call closes over a first path. -/
theorem cyclicCallables_exact_iff (flows : List AuthenticatedCallableQueryBuilderFlow)
    (plans : List CallableControlPlan) :
    (∀ callable, callable ∈ cyclicCallables flows plans ↔ OnCycle flows plans callable) ↔
      ∀ callable, OnCycle flows plans callable →
        OnBackEdge (flowKeys flows) (adjacency flows plans) callable := by
  constructor
  · intro hexact callable hcycle
    exact (mem_cyclicCallables_iff callable).mp ((hexact callable).mpr hcycle)
  · intro hcondition callable
    rw [mem_cyclicCallables_iff]
    exact ⟨fun hback => (onCycle_iff callable).mpr hback.cycle, hcondition callable⟩

def crossKey (unit : String) : CallableKey := ⟨"module", unit⟩

def crossAnchor (start : ℕ) : SourceAnchor := ⟨"module", "sha", start, start + 1, "slice"⟩

def crossFlow (unit : String) : AuthenticatedCallableQueryBuilderFlow :=
  ⟨crossKey unit, crossAnchor 0, 1, true, [], []⟩

def crossCall (target : String) (start : ℕ) : CallableControlCallPlan :=
  ⟨crossAnchor start, crossKey target, crossAnchor 0, 0, .synchronous, true, true, []⟩

def crossPlan (unit : String) (calls : List CallableControlCallPlan) : CallableControlPlan :=
  ⟨crossKey unit, crossAnchor 0, ⟨0, 9, 0, [], []⟩, [], [], calls⟩

def crossFlows : List AuthenticatedCallableQueryBuilderFlow :=
  [crossFlow "a", crossFlow "b", crossFlow "c"]

/-- `a` calls `b` and `c`; `b` calls `a`; `c` calls `b`. -/
def crossPlans : List CallableControlPlan :=
  [crossPlan "a" [crossCall "b" 1, crossCall "c" 3], crossPlan "b" [crossCall "a" 5],
    crossPlan "c" [crossCall "b" 7]]

/-- The callable `c` returns to itself through `b`, which was finished before. -/
theorem crossEdge_missed :
    OnCycle crossFlows crossPlans (crossKey "c") ∧
      crossKey "c" ∉ cyclicCallables crossFlows crossPlans := by
  have hcall : ∀ caller target start,
      exactCallAt crossPlans (crossKey caller) (crossAnchor start) =
          some (crossCall target start) →
        hasFlow crossFlows (crossKey caller) = true →
        hasFlow crossFlows (crossKey target) = true →
        ExactCall crossFlows crossPlans (crossKey caller) (crossKey target) :=
    fun caller target start hexact hcaller htarget =>
      ⟨crossCall target start, hexact, rfl, hcaller, htarget⟩
  have hcb := hcall "c" "b" 7 (by decide +kernel) (by decide +kernel) (by decide +kernel)
  have hba := hcall "b" "a" 5 (by decide +kernel) (by decide +kernel) (by decide +kernel)
  have hac := hcall "a" "c" 3 (by decide +kernel) (by decide +kernel) (by decide +kernel)
  exact ⟨((Relation.TransGen.single hcb).tail hba).tail hac, by decide +kernel⟩

end RecursiveCallables

end ConvexWasm.Compiler
