import ConvexWasm.Core.StrongComponents
import ConvexWasm.ShardPlanner.Request

/-!
# Components of logical units

Units that depend on each other, however indirectly, form one component.  A
component has an identity of its material and one of its bindings; the second
stays when only code changes, unless several components would share it.
-/

namespace ConvexWasm.ShardPlanner

open List

section Sorting

/-- A sort by a key; ties keep their order. -/
def sortBy {Item Key : Type*} [LinearOrder Key] (key : Item → Key) (items : List Item) :
    List Item :=
  items.insertionSort fun left right => key left ≤ key right

/-- `sort(compareStrings)` -/
def sortStrings (values : List String) : List String :=
  values.insertionSort (· ≤ ·)

variable {Item Key : Type*} [LinearOrder Key] {key : Item → Key} {items items' : List Item}
  {values : List String} {item : Item} {value : String}

theorem sortBy_perm : (sortBy key items).Perm items :=
  perm_insertionSort _ items

@[simp]
theorem mem_sortBy : item ∈ sortBy key items ↔ item ∈ items :=
  sortBy_perm.mem_iff

theorem sortStrings_perm : (sortStrings values).Perm values :=
  perm_insertionSort _ values

@[simp]
theorem mem_sortStrings : value ∈ sortStrings values ↔ value ∈ values :=
  sortStrings_perm.mem_iff

theorem sortBy_sorted : (sortBy key items).Pairwise fun left right => key left ≤ key right := by
  exact pairwise_insertionSort _ items

theorem sortStrings_sorted : (sortStrings values).Pairwise (· ≤ ·) :=
  pairwise_insertionSort _ values

/-- Sorted by a key that tells the items apart, the same items are in the same order. -/
theorem sortBy_eq_of_perm (hperm : items.Perm items')
    (hkey : ∀ left ∈ items, ∀ right ∈ items, key left = key right → left = right) :
    sortBy key items = sortBy key items' := by
  apply List.Perm.eq_of_pairwise _ sortBy_sorted sortBy_sorted
    (sortBy_perm.trans (hperm.trans sortBy_perm.symm))
  intro left right hleft hright hle hge
  exact hkey left (mem_sortBy.mp hleft) right (hperm.mem_iff.mpr (mem_sortBy.mp hright))
    (le_antisymm hle hge)

/-- Sorting goes before or after a map that keeps the keys. -/
theorem sortBy_map {Item' : Type*} {key' : Item' → Key} {image : Item → Item'}
    (hkey : ∀ item ∈ items, key' (image item) = key item) :
    sortBy key' (items.map image) = (sortBy key items).map image := by
  symm
  apply map_insertionSort
  intro left hleft right hright
  rw [hkey left hleft, hkey right hright]

theorem sortBy_congr {key' : Item → Key} (hkey : ∀ item ∈ items, key' item = key item) :
    sortBy key' items = sortBy key items := by
  have hmap := @sortBy_map _ _ _ key items _ key' id hkey
  rwa [map_id, map_id] at hmap

theorem sortStrings_eq_of_perm {values values' : List String} (hperm : values.Perm values') :
    sortStrings values = sortStrings values' := by
  apply List.Perm.eq_of_pairwise _ sortStrings_sorted sortStrings_sorted
    (sortStrings_perm.trans (hperm.trans sortStrings_perm.symm))
  intro left right _ _ hle hge
  exact le_antisymm hle hge

end Sorting

section Lookup

variable {Item Key : Type*} [DecidableEq Key] {items : List Item} {item : Item}

theorem find?_key_eq {key : Item → Key} (hdistinct : (items.map key).Nodup)
    (hitem : item ∈ items) : items.find? (fun other => key other = key item) = some item := by
  induction items with
  | nil => cases hitem
  | cons head rest ih =>
    rw [map_cons, nodup_cons] at hdistinct
    rcases mem_cons.mp hitem with rfl | hrest
    · exact List.find?_cons_of_pos (by simp)
    · have hne : key head ≠ key item := fun heq =>
        hdistinct.1 (heq ▸ mem_map_of_mem hrest)
      rw [List.find?_cons_of_neg (by simpa using hne)]
      exact ih hdistinct.2 hrest

theorem find?_member_eq {members : Item → List Key} {key : Key}
    (hdistinct : (items.flatMap members).Nodup) (hitem : item ∈ items)
    (hmember : key ∈ members item) :
    items.find? (fun other => key ∈ members other) = some item := by
  induction items with
  | nil => cases hitem
  | cons head rest ih =>
    rw [flatMap_cons, nodup_append] at hdistinct
    rcases mem_cons.mp hitem with rfl | hrest
    · exact List.find?_cons_of_pos (by simpa using hmember)
    · have hfresh : key ∉ members head := fun hhead =>
        hdistinct.2.2 key hhead key (mem_flatMap.mpr ⟨item, hrest, hmember⟩) rfl
      rw [List.find?_cons_of_neg (by simpa using hfresh)]
      exact ih hdistinct.2.1 hrest

theorem eq_of_mem_members {members : Item → List Key} {other : Item} {key : Key}
    (hdistinct : (items.flatMap members).Nodup) (hitem : item ∈ items) (hother : other ∈ items)
    (hmember : key ∈ members item) (hmemberOther : key ∈ members other) : item = other :=
  Option.some_injective _ ((find?_member_eq hdistinct hitem hmember).symm.trans
    (find?_member_eq hdistinct hother hmemberOther))

end Lookup

section Building

variable (fingerprint : Payload → String) (units : List AuthenticatedLogicalUnit)

/-- `unitsByCodeIdentity.get` -/
def unitByCodeIdentity (codeIdentitySha256 : String) : Option AuthenticatedLogicalUnit :=
  units.find? fun unit => unit.codeIdentitySha256 = codeIdentitySha256

def dependenciesOf (codeIdentitySha256 : String) : List String :=
  match unitByCodeIdentity units codeIdentitySha256 with
  | some unit => unit.dependencies
  | none => []

def stronglyConnectedComponents : List (List String) :=
  StrongComponents.stronglyConnectedComponents (dependenciesOf units)
    (sortStrings (units.map (·.codeIdentitySha256)))

/-- The units of a set of code identities. -/
def membersOf (codeIdentitySha256s : List String) : List AuthenticatedLogicalUnit :=
  codeIdentitySha256s.filterMap (unitByCodeIdentity units)

/-- `units[0].occurrences` -/
def occurrencesOf (members : List AuthenticatedLogicalUnit) : List String :=
  match members with
  | first :: _ => first.occurrences
  | [] => []

def cyclic (members : List AuthenticatedLogicalUnit) : Bool :=
  1 < members.length || members.any fun unit => unit.codeIdentitySha256 ∈ unit.dependencies

def bindingUnit (unit : AuthenticatedLogicalUnit) : BindingUnit where
  bindingIdentitySha256 := unit.bindingIdentitySha256
  dependencies := sortStrings (unit.dependencies.filterMap fun dependency =>
    (unitByCodeIdentity units dependency).map (·.bindingIdentitySha256))
  picObjectByteWeight := unit.picObject.byteWeight
  shareable := unit.shareable

def materialUnit (unit : AuthenticatedLogicalUnit) : MaterialUnit where
  codeIdentitySha256 := unit.codeIdentitySha256
  dependencies := unit.dependencies
  picObject := unit.picObject

/-- One round of the loop over the code identity sets.  What depends on the
other components is filled in later. -/
def buildComponent (codeIdentitySha256s : List String) : Except String Component := do
  let members := membersOf units codeIdentitySha256s
  let names := ", ".intercalate codeIdentitySha256s
  let occurrenceCohortSha256s := occurrencesOf members
  if cyclic members && members.any (·.occurrences ≠ occurrenceCohortSha256s) then
    fail ("cyclic component containing " ++ names ++ " has incoherent occurrence evidence")
  else
    let picObjectByteWeight ← members.foldlM (fun total unit =>
      addSafeIntegers total unit.picObject.byteWeight
        ("component containing " ++ names ++ " PIC object weight")) 0
    return {
      bindingIdentitySha256s := sortStrings (members.map (·.bindingIdentitySha256))
      codeIdentitySha256s
      componentBindingSha256 :=
        fingerprint (.componentBinding convexWasmPhysicalShardComponentKind
          (sortBy (·.bindingIdentitySha256) (members.map (bindingUnit units))))
      componentSha256 :=
        fingerprint (.componentMaterial convexWasmPhysicalShardComponentKind
          (members.map materialUnit))
      dependencyComponentSha256s := []
      logicalUnitSha256s := members.map (·.logicalUnitSha256)
      occurrenceCohortSha256s, picObjectByteWeight
      shareable := members.all (·.shareable)
      sharedEligible := false }

variable (components : List Component)

/-- Components that would share a binding identity get one of their material. -/
def disambiguate : List Component :=
  components.map fun component =>
    if (components.filter
        (·.componentBindingSha256 = component.componentBindingSha256)).length < 2 then component
    else
      { component with
        componentBindingSha256 :=
          fingerprint (.ambiguousComponentBinding component.componentBindingSha256
            component.componentSha256) }

/-- The identity of the component of another component's dependency. -/
def dependencyComponentSha256 (component : Component) (dependency : String) : Option String :=
  if dependency ∈ component.codeIdentitySha256s then none
  else (components.find? (dependency ∈ ·.codeIdentitySha256s)).map (·.componentSha256)

def connect : List Component :=
  components.map fun component =>
    { component with
      dependencyComponentSha256s := sortStrings
        ((component.codeIdentitySha256s.flatMap fun codeIdentitySha256 =>
          (dependenciesOf units codeIdentitySha256).filterMap
            (dependencyComponentSha256 components component)).dedup) }

def sharedCandidate (policy : Policy) (component : Component) : Bool :=
  component.shareable &&
    decide (policy.minimumCohortCount ≤ component.occurrenceCohortSha256s.length)

/-- Whether a candidate has only candidates below it.  `resolving` has the
components that wait for the answer; what has been found is not looked up again
in the source, which makes no difference to it. -/
def resolveSharedEligibility (policy : Policy) (components : List Component) :
    ℕ → List String → Component → Except String Bool
  | 0, _, _ => fail "component dependency graph contains a cycle after SCC collapse"
  | fuel + 1, resolving, component =>
    if sharedCandidate policy component = false then .ok false
    else if component.componentSha256 ∈ resolving then
      fail "component dependency graph contains a cycle after SCC collapse"
    else
      component.dependencyComponentSha256s.allM fun dependencySha256 =>
        match components.find? (·.componentSha256 = dependencySha256) with
        | none => .ok false
        | some dependency => resolveSharedEligibility policy components fuel
            (component.componentSha256 :: resolving) dependency

def resolveEligibility (policy : Policy) (components : List Component) : Except String (List Component) :=
  components.mapM fun component => do
    let sharedEligible ←
      resolveSharedEligibility policy components (components.length + 1) [] component
    return { component with sharedEligible }

def buildComponents (policy : Policy) : Except String (List Component) := do
  let components ← (stronglyConnectedComponents units).mapM (buildComponent fingerprint units)
  let components ←
    resolveEligibility policy (connect units (disambiguate fingerprint components))
  return sortBy (·.componentBindingSha256) components

end Building

end ConvexWasm.ShardPlanner
