import ConvexWasm.Core.Contraction
import ConvexWasm.ShardPlanner.Components

/-!
# Placement of shared components

Each shared component is put into the fullest bin that has room for it, has its
occurrences and can be merged with it: contracting the bins must not close a
cycle between them.  The contracted graph is kept in edge sets that are patched
with every merge.
-/

namespace ConvexWasm.ShardPlanner

open Function

/-- A vertex of the contracted graph, with its edges in both directions. -/
structure QuotientBin where
  componentSha256s : List String
  dependencies : List String
  dependents : List String
  deriving DecidableEq

/-- The contracted graph.  A bin is known by the component that it was created
for, and keeps that name when others are merged into it. -/
structure Quotient where
  activeBins : List String
  bins : String → QuotientBin
  binByComponentSha256 : String → Option String

def emptyBin : QuotientBin where
  componentSha256s := []
  dependencies := []
  dependents := []

/-- `Set.prototype.add` -/
def addMember (value : String) (values : List String) : List String :=
  if value ∈ values then values else values ++ [value]

/-- `Set.prototype.delete` -/
def deleteMember (value : String) (values : List String) : List String :=
  values.filter (· ≠ value)

variable (quotient : Quotient)

def Quotient.modify (bin : String) (change : QuotientBin → QuotientBin) : Quotient :=
  { quotient with bins := update quotient.bins bin (change (quotient.bins bin)) }

def Quotient.addDependency (bin dependency : String) : Quotient :=
  quotient.modify bin fun found =>
    { found with dependencies := addMember dependency found.dependencies }

def Quotient.addDependent (bin dependent : String) : Quotient :=
  quotient.modify bin fun found =>
    { found with dependents := addMember dependent found.dependents }

def Quotient.deleteDependency (bin dependency : String) : Quotient :=
  quotient.modify bin fun found =>
    { found with dependencies := deleteMember dependency found.dependencies }

def Quotient.deleteDependent (bin dependent : String) : Quotient :=
  quotient.modify bin fun found =>
    { found with dependents := deleteMember dependent found.dependents }

variable (components : List Component) (policy : Policy) (component : Component)

def createBin : Except String Quotient :=
  if quotient.binByComponentSha256 component.componentSha256 ≠ none then
    fail "physical shard grouping repeats a component"
  else .ok
    { activeBins := quotient.activeBins ++ [component.componentSha256]
      bins := update quotient.bins component.componentSha256
        { componentSha256s := [component.componentSha256], dependencies := [], dependents := [] }
      binByComponentSha256 := update quotient.binByComponentSha256
        component.componentSha256 (some component.componentSha256) }

/-- The edge of a component to one it depends on. -/
def connectBin (quotient : Quotient) (dependencySha256 : String) : Except String Quotient :=
  match quotient.binByComponentSha256 component.componentSha256,
      quotient.binByComponentSha256 dependencySha256 with
  | some bin, some dependencyBin =>
    if bin = dependencyBin then .ok quotient
    else .ok ((quotient.addDependency bin dependencyBin).addDependent dependencyBin bin)
  | _, _ => fail "physical shard grouping omits a component"

def createPhysicalShardQuotient : Except String Quotient := do
  let quotient ← components.foldlM createBin
    { activeBins := [], bins := fun _ => emptyBin, binByComponentSha256 := fun _ => none }
  components.foldlM (fun quotient component =>
    component.dependencyComponentSha256s.foldlM (connectBin component) quotient) quotient

def quotientBinForComponent (componentSha256 : String) : Except String String :=
  match quotient.binByComponentSha256 componentSha256 with
  | none => fail "physical shard grouping omits a component"
  | some bin =>
    if bin ∈ quotient.activeBins then .ok bin
    else fail "physical shard grouping uses an inactive quotient bin"

/-- The number of edges, which bounds the rounds of a search. -/
def Quotient.edgeCount : ℕ :=
  (quotient.activeBins.map fun bin => (quotient.bins bin).dependencies.length).sum

def quotientHasIndirectPath (start goal : String) : Bool :=
  Contraction.hasIndirectPath (fun bin => (quotient.bins bin).dependencies)
    (quotient.edgeCount + 1) start goal

variable (targetBin sourceBin : String)

def quotientCanMerge : Except String Bool :=
  if targetBin ∉ quotient.activeBins ∨ sourceBin ∉ quotient.activeBins then
    fail "physical shard grouping uses an inactive quotient bin"
  else if targetBin = sourceBin then fail "physical shard grouping repeats a component"
  else .ok (!quotientHasIndirectPath quotient targetBin sourceBin &&
    !quotientHasIndirectPath quotient sourceBin targetBin)

/-- What a dependency of the source bin becomes. -/
def moveDependency (quotient : Quotient) (dependency : String) : Quotient :=
  let quotient := quotient.deleteDependent dependency sourceBin
  if dependency = targetBin then quotient
  else (quotient.addDependency targetBin dependency).addDependent dependency targetBin

/-- What a dependent of the source bin becomes. -/
def moveDependent (quotient : Quotient) (dependent : String) : Quotient :=
  let quotient := quotient.deleteDependency dependent sourceBin
  if dependent = targetBin then quotient
  else (quotient.addDependent targetBin dependent).addDependency dependent targetBin

/-- A component of the source bin moves into the target bin. -/
def moveComponent (targetBin : String) (quotient : Quotient) (componentSha256 : String) :
    Quotient :=
  { quotient.modify targetBin fun found =>
      { found with componentSha256s := addMember componentSha256 found.componentSha256s } with
    binByComponentSha256 :=
      update quotient.binByComponentSha256 componentSha256 (some targetBin) }

/-- The merge that `mergeQuotientBins` performs once it is allowed. -/
def contractQuotientBins : Quotient :=
  let quotient := (quotient.bins sourceBin).dependencies.foldl
    (moveDependency targetBin sourceBin) quotient
  let quotient := (quotient.bins sourceBin).dependents.foldl
    (moveDependent targetBin sourceBin) quotient
  let quotient := (quotient.deleteDependency targetBin sourceBin).deleteDependent
    targetBin sourceBin
  let quotient := (quotient.bins sourceBin).componentSha256s.foldl
    (moveComponent targetBin) quotient
  { quotient.modify sourceBin fun _ => emptyBin with
    activeBins := deleteMember sourceBin quotient.activeBins }

/-- The merged graph, if the merge is possible. -/
def mergeQuotientBins :
    Except String (Option Quotient) := do
  if ← quotientCanMerge quotient targetBin sourceBin then
    return some (contractQuotientBins quotient targetBin sourceBin)
  else return none

structure Bin where
  componentSha256s : List String
  occurrenceCohortSha256s : List String
  picObjectByteWeight : ℤ
  oversize : Bool
  deriving DecidableEq

/-- The binding identities of the members of a bin, in order.  Joined, they
compare like the list, for all have the same length. -/
def binMembershipKey (bin : Bin) : List String :=
  sortStrings (bin.componentSha256s.filterMap fun componentSha256 =>
    (components.find? (·.componentSha256 = componentSha256)).map (·.componentBindingSha256))

def oversizeComponents : List Component :=
  sortBy (·.componentBindingSha256) (components.filter fun component =>
    component.sharedEligible && decide (policy.targetShardWeight < component.picObjectByteWeight))

/-- The components to be placed, the heaviest first. -/
def normalComponents : List Component :=
  sortBy (fun component => toLex (OrderDual.toDual component.picObjectByteWeight,
      component.componentBindingSha256))
    (components.filter fun component => component.sharedEligible &&
      decide (component.picObjectByteWeight ≤ policy.targetShardWeight))

/-- A bin with a component of its own. -/
def singletonBin (oversize : Bool) : Bin where
  componentSha256s := [component.componentSha256]
  occurrenceCohortSha256s := component.occurrenceCohortSha256s
  picObjectByteWeight := component.picObjectByteWeight
  oversize := oversize

/-- A bin has room for a component and the same occurrences. -/
def fits (bin : Bin) : Bool :=
  decide (component.picObjectByteWeight ≤ policy.targetShardWeight - bin.picObjectByteWeight) &&
    decide (component.occurrenceCohortSha256s = bin.occurrenceCohortSha256s)

/-- The bins that a component may go into with their indexes, in the order in
which they are tried. -/
def candidates (bins : List Bin) : List (ℕ × Bin) :=
  sortBy (fun candidate => toLex (candidate.2.picObjectByteWeight,
      binMembershipKey components candidate.2))
    ((bins.zipIdx.map fun entry => (entry.2, entry.1)).filter fun candidate =>
      fits policy component candidate.2)

/-- The bin with a component more. -/
def extendBin (bin : Bin) (component : Component) : Except String Bin := do
  let picObjectByteWeight ← addSafeIntegers bin.picObjectByteWeight
    component.picObjectByteWeight "physical shard PIC object weight"
  return { bin with
    componentSha256s := bin.componentSha256s ++ [component.componentSha256]
    picObjectByteWeight }

/-- The loop over the candidates, up to the first that can be merged. -/
def tryCandidates (component : Component) (quotient : Quotient) (bins : List Bin) :
    List (ℕ × Bin) → Except String (Option (Quotient × List Bin))
  | [] => .ok none
  | (index, bin) :: rest => do
      let targetBin ← quotientBinForComponent quotient (bin.componentSha256s.headD "")
      let sourceBin ← quotientBinForComponent quotient component.componentSha256
      match ← mergeQuotientBins quotient targetBin sourceBin with
      | none => tryCandidates component quotient bins rest
      | some merged =>
        let extended ← extendBin bin component
        return some (merged, bins.set index extended)

/-- One component is placed. -/
def placeComponent (placement : Quotient × List Bin) (component : Component) :
    Except String (Quotient × List Bin) := do
  match ← tryCandidates component placement.1 placement.2
      (candidates components policy component placement.2) with
  | some placed => return placed
  | none => return (placement.1, placement.2 ++ [singletonBin component false])

/-- The state of the validation: the bins of the components seen so far. -/
def validateMember (index : ℕ)
    (state : (String → Option ℕ) × Option String) (componentSha256 : String) :
    Except String ((String → Option ℕ) × Option String) := do
  if state.1 componentSha256 ≠ none then fail "physical shard grouping repeats a component"
  else
    let componentQuotientBin ← quotientBinForComponent quotient componentSha256
    if state.2 ≠ none ∧ state.2 ≠ some componentQuotientBin then
      fail "physical shard grouping splits a quotient bin"
    else return (update state.1 componentSha256 (some index), some componentQuotientBin)

def validateBin (physicalBins : String → Option ℕ) (entry : Bin × ℕ) :
    Except String (String → Option ℕ) := do
  let state ← entry.1.componentSha256s.foldlM (validateMember quotient entry.2)
    (physicalBins, none)
  let size := (state.2.map fun bin => (quotient.bins bin).componentSha256s.length).getD 0
  if size ≠ entry.1.componentSha256s.length then
    fail "physical shard grouping omits a component from a quotient bin"
  else return state.1

def validateComponent (physicalBins : String → Option ℕ)
    (component : Component) : Except String Unit := do
  let quotientBin ← quotientBinForComponent quotient component.componentSha256
  if component.sharedEligible ≠ (physicalBins component.componentSha256).isSome then
    fail "physical shard placement must assign exactly the shared components"
  else if physicalBins component.componentSha256 = none ∧
      (quotient.bins quotientBin).componentSha256s.length ≠ 1 then
    fail "physical shard grouping merges a residual component"
  else return ()

def validatePhysicalShardQuotient (bins : List Bin)
    (components : List Component) : Except String Unit := do
  let physicalBins ← bins.zipIdx.foldlM (validateBin quotient) fun _ => none
  components.forM (validateComponent quotient physicalBins)

def placeSharedComponents :
    Except String (List Bin) := do
  let quotient ← createPhysicalShardQuotient components
  let placement ← (normalComponents components policy).foldlM (placeComponent components policy)
    (quotient, (oversizeComponents components policy).map fun component =>
      singletonBin component true)
  validatePhysicalShardQuotient placement.1 placement.2 components
  return placement.2

end ConvexWasm.ShardPlanner
