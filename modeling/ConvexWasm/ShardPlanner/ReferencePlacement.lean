import ConvexWasm.ShardPlanner.QuotientGraph

/-!
# The reference placement

The same greedy placement over plain groups of components.  For every bin that
is tried the whole contracted graph is built again, and the bin is taken if all
of that graph can be put into an order.  What breaks ties is a parameter: the
function that names a component.
-/

namespace ConvexWasm.ShardPlanner

open Fallible List Relation TopologicalOrder

/-- A set in the order of its first insertions. -/
def insertionSet {Item : Type*} [DecidableEq Item] (items : List Item) : List Item :=
  items.reverse.dedup.reverse

/-- `groupIndexByComponentSha256.get` -/
def groupIndex (componentGroups : List (List String)) (componentSha256 : String) : Option ℕ :=
  componentGroups.findIdx? fun componentSha256s => componentSha256 ∈ componentSha256s

def dependenciesByGroup (components : List Component) (componentGroups : List (List String))
    (index : ℕ) : List ℕ :=
  insertionSet (((components.filter fun component =>
      groupIndex componentGroups component.componentSha256 = some index).flatMap fun component =>
        component.dependencyComponentSha256s.filterMap (groupIndex componentGroups)).filter
          (· ≠ index))

def dependentsByGroup (components : List Component) (componentGroups : List (List String))
    (index : ℕ) : List ℕ :=
  insertionSet (((components.filter fun component =>
      component.dependencyComponentSha256s.any fun dependency =>
        groupIndex componentGroups dependency = some index).filterMap fun component =>
          groupIndex componentGroups component.componentSha256).filter (· ≠ index))

/-- The groups in an order along their dependencies, if there is one. -/
def rebuildQuotientTopologicalOrder (components : List Component)
    (componentGroups : List (List String)) : Except String (Option (List ℕ)) :=
  let known := components.map (·.componentSha256)
  if ¬ known.Nodup then fail "reference components repeat an identity"
  else if componentGroups.any (· = []) || !componentGroups.flatten.all (· ∈ known) ||
      !decide componentGroups.flatten.Nodup ||
      componentGroups.flatten.length ≠ components.length then
    fail "reference groups do not partition the components"
  else if components.any fun component =>
      component.dependencyComponentSha256s.any (· ∉ known) then
    fail "reference groups miss a dependency"
  else
    let count (index : ℕ) : ℤ := (dependenciesByGroup components componentGroups index).length
    -- The last of the ready groups is taken first.
    let ready := ((List.range componentGroups.length).filter fun index => count index = 0).reverse
    let order := drain (dependentsByGroup components componentGroups)
      (fun ready released => released.reverse ++ ready) componentGroups.length count ready []
    .ok (if order.length = componentGroups.length then some order else none)

/-- The groups after the group of the source has moved into that of the target. -/
def referenceMergedGroups (componentGroups : List (List String))
    (targetComponentSha256 sourceComponentSha256 : String) : Except String (List (List String)) :=
  match componentGroups.find? (targetComponentSha256 ∈ ·),
      componentGroups.find? (sourceComponentSha256 ∈ ·) with
  | some targetGroup, some sourceGroup =>
    if targetGroup = sourceGroup then fail "reference groups are merged already"
    else if sourceGroup.length ≠ 1 then fail "a reference group is placed again"
    else .ok (componentGroups.filter (fun componentSha256s =>
        componentSha256s ≠ targetGroup && componentSha256s ≠ sourceGroup) ++
      [sortStrings (targetGroup ++ sourceGroup)])
  | _, _ => fail "a reference group is missing"

section Placing

structure ReferenceBin where
  componentSha256s : List String
  occurrenceCohortSha256s : List String
  picObjectByteWeight : ℤ
  deriving DecidableEq

variable (keyOf : String → String) (components : List Component) (policy : Policy)

def membershipKey (componentSha256s : List String) : List String :=
  sortStrings (componentSha256s.map keyOf)

def referenceSingletonBin (component : Component) : ReferenceBin where
  componentSha256s := [component.componentSha256]
  occurrenceCohortSha256s := component.occurrenceCohortSha256s
  picObjectByteWeight := component.picObjectByteWeight

def referenceOversizeComponents : List Component :=
  sortBy (fun component => keyOf component.componentSha256) (components.filter fun component =>
    component.sharedEligible && decide (policy.targetShardWeight < component.picObjectByteWeight))

def referenceNormalComponents : List Component :=
  sortBy (fun component => toLex (OrderDual.toDual component.picObjectByteWeight,
      keyOf component.componentSha256))
    (components.filter fun component => component.sharedEligible &&
      decide (component.picObjectByteWeight ≤ policy.targetShardWeight))

def referenceFits (component : Component) (bin : ReferenceBin) : Bool :=
  decide (component.picObjectByteWeight ≤ policy.targetShardWeight - bin.picObjectByteWeight) &&
    decide (component.occurrenceCohortSha256s = bin.occurrenceCohortSha256s)

def referenceCandidates (component : Component) (bins : List ReferenceBin) :
    List (ℕ × ReferenceBin) :=
  sortBy (fun candidate => toLex (candidate.2.picObjectByteWeight,
      membershipKey keyOf candidate.2.componentSha256s))
    ((bins.zipIdx.map fun entry => (entry.2, entry.1)).filter fun candidate =>
      referenceFits policy component candidate.2)

def referenceExtendBin (bin : ReferenceBin) (component : Component) : ReferenceBin :=
  { bin with
    componentSha256s := sortStrings (bin.componentSha256s ++ [component.componentSha256])
    picObjectByteWeight := bin.picObjectByteWeight + component.picObjectByteWeight }

def referenceTryCandidates (component : Component) (componentGroups : List (List String))
    (bins : List ReferenceBin) : List (ℕ × ReferenceBin) →
      Except String (Option (List (List String) × List ReferenceBin))
  | [] => .ok none
  | (index, bin) :: rest => do
      let candidateGroups ← referenceMergedGroups componentGroups
        (bin.componentSha256s.headD "") component.componentSha256
      match ← rebuildQuotientTopologicalOrder components candidateGroups with
      | none => referenceTryCandidates component componentGroups bins rest
      | some _ => return some (candidateGroups, bins.set index (referenceExtendBin bin component))

def referencePlaceComponent (placement : List (List String) × List ReferenceBin)
    (component : Component) : Except String (List (List String) × List ReferenceBin) := do
  match ← referenceTryCandidates components component placement.1 placement.2
      (referenceCandidates keyOf policy component placement.2) with
  | some placed => return placed
  | none => return (placement.1, placement.2 ++ [referenceSingletonBin component])

def requireOrder (componentGroups : List (List String)) : Except String Unit := do
  match ← rebuildQuotientTopologicalOrder components componentGroups with
  | none => fail "reference groups contain a cycle"
  | some _ => return ()

def referencePlaceSharedComponents : Except String (List ReferenceBin) := do
  let componentGroups := components.map fun component => [component.componentSha256]
  requireOrder components componentGroups
  let bins := (referenceOversizeComponents keyOf components policy).map referenceSingletonBin
  let placement ← (referenceNormalComponents keyOf components policy).foldlM
    (referencePlaceComponent keyOf components policy) (componentGroups, bins)
  requireOrder components placement.1
  return placement.2

end Placing

section Correctness

variable {components : List Component} {componentGroups : List (List String)}
  {group : List String} {sha256 : String} {index : ℕ}

@[simp]
theorem mem_insertionSet {Item : Type*} [DecidableEq Item] {item : Item} {items : List Item} :
    item ∈ insertionSet items ↔ item ∈ items := by
  simp [insertionSet]

theorem insertionSet_nodup {Item : Type*} [DecidableEq Item] (items : List Item) :
    (insertionSet items).Nodup :=
  nodup_reverse.mpr (nodup_dedup _)

/-- The groups hold each component once. -/
structure Partition (components : List Component) (componentGroups : List (List String)) :
    Prop where
  nonempty : ∀ group ∈ componentGroups, group ≠ []
  perm : componentGroups.flatten.Perm (components.map (·.componentSha256))

theorem groupIndex_eq_some (hdistinct : componentGroups.flatten.Nodup) :
    groupIndex componentGroups sha256 = some index ↔
      ∃ group, componentGroups[index]? = some group ∧ sha256 ∈ group := by
  induction componentGroups generalizing index with
  | nil => simp [groupIndex]
  | cons head rest ih =>
    rw [flatten_cons, nodup_append] at hdistinct
    obtain ⟨_, hrest, hdisjoint⟩ := hdistinct
    rw [groupIndex, List.findIdx?_cons]
    by_cases hhead : sha256 ∈ head
    · rw [if_pos (by simpa using hhead)]
      cases index with
      | zero => simp [hhead]
      | succ index =>
        simp only [Option.some.injEq, reduceCtorEq, List.getElem?_cons_succ, false_iff,
          not_exists, not_and, Nat.zero_ne_add_one]
        intro group hgroup hmem
        exact hdisjoint sha256 hhead sha256
          (mem_flatten.mpr ⟨group, mem_of_getElem? hgroup, hmem⟩) rfl
    · rw [if_neg (by simpa using hhead), Option.map_eq_some_iff]
      cases index with
      | zero => simp [hhead]
      | succ index =>
        rw [List.getElem?_cons_succ, ← ih hrest]
        simp [groupIndex]

theorem mem_dependenciesByGroup {other : ℕ} :
    other ∈ dependenciesByGroup components componentGroups index ↔
      Contraction.Labelled (ComponentEdge components) (groupIndex componentGroups) index other := by
  simp only [dependenciesByGroup, mem_insertionSet, mem_filter, mem_flatMap,
    mem_filterMap, decide_eq_true_eq, Contraction.Labelled, ComponentEdge]
  constructor
  · rintro ⟨⟨component, ⟨hcomponent, hindex⟩, dependency, hdependency, hother⟩, hne⟩
    exact ⟨fun heq => hne heq.symm, component.componentSha256, dependency,
      ⟨component, hcomponent, rfl, hdependency⟩, hindex, hother⟩
  · rintro ⟨hne, _, dependency, ⟨component, hcomponent, rfl, hdependency⟩, hindex, hother⟩
    exact ⟨⟨component, ⟨hcomponent, hindex⟩, dependency, hdependency, hother⟩,
      fun heq => hne heq.symm⟩

theorem mem_dependentsByGroup {other : ℕ} :
    other ∈ dependentsByGroup components componentGroups index ↔
      Contraction.Labelled (ComponentEdge components) (groupIndex componentGroups) other index := by
  simp only [dependentsByGroup, mem_insertionSet, mem_filter, mem_filterMap,
    any_eq_true, decide_eq_true_eq, Contraction.Labelled, ComponentEdge]
  constructor
  · rintro ⟨⟨component, ⟨hcomponent, dependency, hdependency, hindex⟩, hother⟩, hne⟩
    exact ⟨hne, component.componentSha256, dependency,
      ⟨component, hcomponent, rfl, hdependency⟩, hother, hindex⟩
  · rintro ⟨hne, _, dependency, ⟨component, hcomponent, rfl, hdependency⟩, hother, hindex⟩
    exact ⟨⟨component, ⟨hcomponent, dependency, hdependency, hindex⟩, hother⟩, hne⟩

theorem Partition.groupIndex_lt (hpartition : Partition components componentGroups)
    (hdistinct : (components.map (·.componentSha256)).Nodup)
    (hindex : groupIndex componentGroups sha256 = some index) : index < componentGroups.length := by
  obtain ⟨group, hgroup, _⟩ :=
    (groupIndex_eq_some (hpartition.perm.nodup_iff.mpr hdistinct)).mp hindex
  exact (List.getElem?_eq_some_iff.mp hgroup).1

/-- The groups are put into an order exactly when the contracted graph has no cycle. -/
theorem Partition.rebuild (hpartition : Partition components componentGroups)
    (hclosed : Closed components) :
    ∃ order, rebuildQuotientTopologicalOrder components componentGroups = .ok order ∧
      (order.isSome = true ↔ Acyclic (Contraction.Labelled (ComponentEdge components)
        (groupIndex componentGroups))) := by
  have hgraph : Graph (List.range componentGroups.length)
      (dependenciesByGroup components componentGroups)
      (dependentsByGroup components componentGroups) := by
    constructor
    · exact nodup_range
    · intro index _
      exact insertionSet_nodup _
    · intro index _ dependency hdependency
      obtain ⟨_, _, second, _, _, htarget⟩ := mem_dependenciesByGroup.mp hdependency
      exact mem_range.mpr (hpartition.groupIndex_lt hclosed.distinct htarget)
    · intro index _
      exact insertionSet_nodup _
    · intro index _ dependent
      rw [mem_dependentsByGroup, mem_dependenciesByGroup]
      apply (and_iff_right_of_imp _).symm
      rintro ⟨_, first, _, _, hsource, _⟩
      exact mem_range.mpr (hpartition.groupIndex_lt hclosed.distinct hsource)
  have hordered := drain_ordered hgraph
    (fun ready released => (perm_append_comm.trans
      ((reverse_perm released).append_left ready)))
    (fun _ _ => rfl) (reverse_perm _)
  have hedge : Edge (List.range componentGroups.length)
      (dependenciesByGroup components componentGroups) =
        Contraction.Labelled (ComponentEdge components) (groupIndex componentGroups) := by
    funext source target
    rw [Edge, mem_dependenciesByGroup]
    apply propext (and_iff_right_of_imp _)
    rintro ⟨_, first, _, _, hsource, _⟩
    exact mem_range.mpr (hpartition.groupIndex_lt hclosed.distinct hsource)
  have hcomplete := hordered.complete_iff
  rw [hedge, length_range] at hcomplete
  unfold rebuildQuotientTopologicalOrder
  rw [if_neg (not_not.mpr hclosed.distinct), if_neg, if_neg]
  · refine ⟨_, rfl, Iff.trans ?_ hcomplete⟩
    split
    · rename_i hlength
      exact ⟨fun _ => hlength, fun _ => rfl⟩
    · rename_i hlength
      exact ⟨nofun, fun heq => absurd heq hlength⟩
  · rw [any_eq_true]
    rintro ⟨component, hcomponent, hany⟩
    obtain ⟨dependency, hdependency, hmissing⟩ := any_eq_true.mp hany
    exact of_decide_eq_true hmissing (hclosed.known component hcomponent dependency hdependency)
  · have hnodup := hpartition.perm.nodup_iff.mpr hclosed.distinct
    have hlength := hpartition.perm.length_eq
    have hempty : componentGroups.any (· = []) = false := by
      rw [any_eq_false]
      intro group hgroup
      simpa using hpartition.nonempty group hgroup
    have hknown : componentGroups.flatten.all
        (· ∈ components.map (·.componentSha256)) = true := by
      rw [all_eq_true]
      intro sha256 hsha256
      exact decide_eq_true (hpartition.perm.mem_iff.mp hsha256)
    rw [hempty, hknown, decide_eq_true hnodup]
    simp [hlength]

end Correctness

end ConvexWasm.ShardPlanner
