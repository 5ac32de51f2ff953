import ConvexWasm.Core.DoubleRounding
import ConvexWasm.Core.UnionForest
import ConvexWasm.EntryGrouping.Candidates

/-!
# Merging entry groups

Each entry starts as a group of its own.  The scored pairs are taken in order,
and the groups of a pair are merged when they share modules and the merged
group keeps the bounds on its inflation and its number of logical units.
-/

namespace ConvexWasm.EntryGrouping

open DoubleRounding Fallible JsText UnionForest

/-- A group that is not its own parent has been merged into another one. -/
structure Group where
  parent : ℕ
  members : List ℕ
  dependencies : List String
  cost : ℕ
  minimumMemberCost : ℕ
  deriving DecidableEq

def Group.withParent (group : Group) (parent : ℕ) : Group := { group with parent := parent }

variable (normalized : List NormalizedEntry) (groups : List Group)

def parentOf (index : ℕ) : ℕ := (groups[index]?.map (·.parent)).getD index

def initialGroups : List Group :=
  normalized.zipIdx.map fun entry =>
    { parent := entry.2
      members := [entry.2]
      dependencies := entry.1.dependencies
      cost := entry.1.cost
      minimumMemberCost := entry.1.cost }

structure MergeState where
  groups : List Group
  attemptedMerges : ℕ
  acceptedMerges : ℕ
  deriving DecidableEq

/-- The root of a group and the groups after the path to it is shortened.  A path
has at most one step for each accepted merge. -/
def root (state : MergeState) (index : ℕ) : ℕ × MergeState :=
  let current := follow (parentOf state.groups) state.acceptedMerges index
  (current, { state with
    groups := (trail (parentOf state.groups) state.acceptedMerges index).foldl
      (fun groups index => groups.modify index (·.withParent current)) state.groups })

/-- Costs shared with and added to the larger group, and the number of modules added. -/
abbrev Comparison := ℕ × ℕ × ℕ

def compareModule (costs : KeyedMap String ℕ) (larger : List String) (comparison : Comparison)
    (id : String) : Except String Comparison :=
  if id ∈ larger then
    (addCost comparison.1 (costOf costs id)).map fun shared => (shared, comparison.2)
  else
    (addCost comparison.2.1 (costOf costs id)).map fun additional =>
      (comparison.1, additional, comparison.2.2 + 1)

/-- The quotient of two safe integers as a double. -/
def quotient (cost memberCost : ℕ) : ℚ := toDouble (cost / memberCost)

structure Policy where
  maximumCostInflation : ℚ
  maximumLogicalUnits : ℤ
  deriving DecidableEq

section Loop

variable (costs : KeyedMap String ℕ) (policy : Policy)

/-- The group that both merge into; the modules of the removed one are added after
those of the retained one. -/
def mergedGroup (retained removed : Group) (unionCost minimumMemberCost : ℕ) : Group :=
  { retained with
    dependencies := retained.dependencies ++
      removed.dependencies.filter fun id => decide (id ∉ retained.dependencies)
    members := retained.members ++ removed.members
    cost := unionCost
    minimumMemberCost := minimumMemberCost }

/-- The group that was merged into another one. -/
def removedGroup (removed : Group) (parent : ℕ) : Group :=
  { removed with
    parent := parent
    dependencies := []
    members := [] }

def mergeInto (state : MergeState) (retainedIndex removedIndex : ℕ) (retained removed : Group)
    (unionCost minimumMemberCost : ℕ) : MergeState :=
  { state with
    groups := (state.groups.set retainedIndex
      (mergedGroup retained removed unionCost minimumMemberCost)).set removedIndex
        (removedGroup removed retainedIndex)
    acceptedMerges := state.acceptedMerges + 1 }

/-- What is known of a merge before it is accepted. -/
structure Attempt where
  sharedCost : ℕ
  unionCost : ℕ
  minimumMemberCost : ℕ
  logicalUnits : ℕ

def attempt (left right : Group) : Except String Attempt := do
  let smaller := if left.dependencies.length ≤ right.dependencies.length then left else right
  let larger := if left.dependencies.length ≤ right.dependencies.length then right else left
  let (sharedCost, additionalCost, additionalUnits) ←
    smaller.dependencies.foldlM (compareModule costs larger.dependencies) (0, 0, 0)
  let unionCost ← addCost larger.cost additionalCost
  return {
    sharedCost := sharedCost
    unionCost := unionCost
    minimumMemberCost := min left.minimumMemberCost right.minimumMemberCost
    logicalUnits := larger.dependencies.length + additionalUnits + left.members.length +
      right.members.length }

def Attempt.isAccepted (attempt : Attempt) : Bool :=
  !(decide (attempt.sharedCost = 0) ||
    decide (policy.maximumCostInflation < quotient attempt.unionCost attempt.minimumMemberCost) ||
    decide (policy.maximumLogicalUnits < attempt.logicalUnits))

/-- One turn of the merge loop.  A root without a group cannot occur; the source
would fail on it. -/
def mergePair (state : MergeState) (pair : ScoredPair) : Except String MergeState :=
  let (leftIndex, state) := root state pair.left
  let (rightIndex, state) := root state pair.right
  if leftIndex = rightIndex then .ok state
  else
    let state := { state with attemptedMerges := state.attemptedMerges + 1 }
    match state.groups[leftIndex]?, state.groups[rightIndex]? with
    | some left, some right => do
        let attempt ← attempt costs left right
        if attempt.isAccepted policy then
          if right.members.length ≤ left.members.length then
            return mergeInto state leftIndex rightIndex left right attempt.unionCost
              attempt.minimumMemberCost
          else
            return mergeInto state rightIndex leftIndex right left attempt.unionCost
              attempt.minimumMemberCost
        else return state
    | _, _ => .error "Cannot read properties of undefined"

end Loop

structure GroupResult where
  entries : List String
  cost : ℕ
  minimumMemberCost : ℕ
  costInflation : ℚ
  dependencyCount : ℕ
  deriving DecidableEq

structure Diagnostics where
  candidatePairs : ℕ
  attemptedMerges : ℕ
  acceptedMerges : ℕ
  closureMemberships : ℕ
  deriving DecidableEq

structure EntryGroups where
  policy : Policy
  entryGroups : List (List String)
  groups : List GroupResult
  modeledInventoryCost : ℕ
  diagnostics : Diagnostics
  partitionSha256 : String
  deriving DecidableEq

def entryPathAt (index : ℕ) : String :=
  (normalized[index]?.map (·.entryPath)).getD ""

def groupResult (group : Group) : GroupResult where
  entries := (group.members.map (entryPathAt normalized)).insertionSort compareStringsLe
  cost := group.cost
  minimumMemberCost := group.minimumMemberCost
  costInflation := quotient group.cost group.minimumMemberCost
  dependencyCount := group.dependencies.length

/-- The groups that are their own parents. -/
def rootGroups : List Group :=
  (groups.zipIdx.filter fun group => decide (group.1.parent = group.2)).map Prod.fst

def resultGroups : List GroupResult :=
  ((rootGroups groups).map (groupResult normalized)).insertionSort fun left right =>
    compareStringsLe (left.entries.headD "") (right.entries.headD "")

section Plan

variable (stringify : String → String) (bucket : ℕ → ℕ)
  (fingerprint : Policy → List (List String) → String)

/-- The plan of a normalized request. -/
def planNormalized (policy : Policy) (costs : KeyedMap String ℕ)
    (normalized : List NormalizedEntry) : Except String EntryGroups := do
  let scored ← scoredPairs costs bucket normalized
  let merged ← scored.foldlM (mergePair costs policy) ⟨initialGroups normalized, 0, 0⟩
  let groups := resultGroups normalized merged.groups
  let modeledInventoryCost ← groups.foldlM (fun sum group => addCost sum group.cost) 0
  return {
    policy := policy
    entryGroups := groups.map (·.entries)
    groups := groups
    modeledInventoryCost := modeledInventoryCost
    diagnostics :=
      { candidatePairs := (candidatePairs bucket normalized).length
        attemptedMerges := merged.attemptedMerges
        acceptedMerges := merged.acceptedMerges
        closureMemberships := (normalized.map (·.dependencies.length)).sum }
    partitionSha256 := fingerprint policy (groups.map (·.entries)) }

def planConvexWasmEntryGroups (request : Request) : Except String EntryGroups := do
  let (costs, normalized) ← normalizeRequest stringify request
  planNormalized bucket fingerprint
    ⟨request.maximumCostInflation, request.maximumLogicalUnits⟩ costs normalized

end Plan

end ConvexWasm.EntryGrouping
