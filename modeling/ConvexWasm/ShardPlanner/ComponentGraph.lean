import ConvexWasm.ShardPlanner.Admission

/-!
# The components of an admitted request

The components partition the units into the classes of mutual dependency, carry
the occurrences and the weight of their members, and depend on each other as
their members do.
-/

namespace ConvexWasm.ShardPlanner

open Fallible List

variable {codes : List String} {policy : Policy} {components : List Component}

section Parts

variable (fingerprint : Payload → String) (units : List AuthenticatedLogicalUnit)

/-- The component that is built if nothing fails. -/
def componentOf (codeIdentitySha256s : List String) : Component :=
  let members := membersOf units codeIdentitySha256s
  { bindingIdentitySha256s := sortStrings (members.map (·.bindingIdentitySha256))
    codeIdentitySha256s
    componentBindingSha256 :=
      fingerprint (.componentBinding convexWasmPhysicalShardComponentKind
        (sortBy (·.bindingIdentitySha256) (members.map (bindingUnit units))))
    componentSha256 :=
      fingerprint (.componentMaterial convexWasmPhysicalShardComponentKind
        (members.map materialUnit))
    dependencyComponentSha256s := []
    logicalUnitSha256s := members.map (·.logicalUnitSha256)
    occurrenceCohortSha256s := occurrencesOf members
    picObjectByteWeight := (members.map (·.picObject.byteWeight)).sum
    shareable := members.all (·.shareable)
    sharedEligible := false }

/-- The components before their eligibility is known. -/
def connectedComponents : List Component :=
  connect units (disambiguate fingerprint
    ((stronglyConnectedComponents units).map (componentOf fingerprint units)))

/-- The component before its eligibility is known. -/
def Component.unresolved (component : Component) : Component :=
  { component with sharedEligible := false }

variable {fingerprint units} {component : Component}

theorem foldlM_addSafeIntegers {members : List AuthenticatedLogicalUnit} {description : String}
    {total result : ℤ} (hok : members.foldlM (fun total unit =>
      addSafeIntegers total unit.picObject.byteWeight description) total = .ok result) :
    result = total + (members.map (·.picObject.byteWeight)).sum := by
  induction members generalizing total with
  | nil =>
    cases hok
    simp
  | cons unit rest ih =>
    obtain ⟨next, hnext, hrest⟩ := bind_eq_ok.mp hok
    rw [ih hrest, addSafeIntegers_eq_ok hnext, map_cons, sum_cons, add_assoc]

/-- The members of a cyclic component have the same occurrences. -/
def Coherent (units : List AuthenticatedLogicalUnit) (codes : List String) : Prop :=
  cyclic (membersOf units codes) = true →
    ∀ unit ∈ membersOf units codes, unit.occurrences = occurrencesOf (membersOf units codes)

theorem buildComponent_eq_ok (hok : buildComponent fingerprint units codes = .ok component) :
    component = componentOf fingerprint units codes ∧ Coherent units codes := by
  unfold buildComponent at hok
  dsimp only at hok
  split at hok
  · cases hok
  · rename_i hincoherent
    obtain ⟨weight, hweight, hrest⟩ := bind_eq_ok.mp hok
    have hsum := foldlM_addSafeIntegers hweight
    rw [zero_add] at hsum
    cases hrest
    rw [hsum]
    refine ⟨rfl, fun hcyclic unit hunit => ?_⟩
    by_contra hother
    apply hincoherent
    rw [Bool.and_eq_true]
    exact ⟨hcyclic, any_eq_true.mpr ⟨unit, hunit, decide_eq_true hother⟩⟩

theorem resolveEligibility_eq_ok {resolved : List Component}
    (hok : resolveEligibility policy components = .ok resolved) :
    List.Forall₂ (fun component result => ∃ sharedEligible,
      resolveSharedEligibility policy components (components.length + 1) [] component =
        .ok sharedEligible ∧ result = { component with sharedEligible }) components resolved := by
  apply (mapM_eq_ok_iff.mp hok).imp
  intro component result hresult
  obtain ⟨sharedEligible, heligible, hrest⟩ := bind_eq_ok.mp hresult
  cases hrest
  exact ⟨sharedEligible, heligible, rfl⟩

/-- What the built components are: the connected ones, resolved and sorted. -/
structure BuiltFrom (fingerprint : Payload → String) (units : List AuthenticatedLogicalUnit)
    (policy : Policy) (components : List Component) : Prop where
  coherent : ∀ codes ∈ stronglyConnectedComponents units, Coherent units codes
  perm : (components.map Component.unresolved).Perm (connectedComponents fingerprint units)
  eligible : ∀ component ∈ components,
    resolveSharedEligibility policy (connectedComponents fingerprint units)
      ((connectedComponents fingerprint units).length + 1) [] component.unresolved =
        .ok component.sharedEligible
  sorted : components.Pairwise fun left right =>
    left.componentBindingSha256 ≤ right.componentBindingSha256

theorem Component.unresolved_resolved (hunresolved : component.sharedEligible = false)
    (sharedEligible : Bool) :
    Component.unresolved { component with sharedEligible } = component := by
  cases component
  cases hunresolved
  rfl

theorem unresolved_of_mem_connected
    (hcomponent : component ∈ connectedComponents fingerprint units) :
    component.sharedEligible = false := by
  obtain ⟨disambiguated, hdisambiguated, rfl⟩ := mem_map.mp hcomponent
  obtain ⟨built, hbuilt, rfl⟩ := mem_map.mp hdisambiguated
  obtain ⟨codes, _, rfl⟩ := mem_map.mp hbuilt
  split <;> rfl

theorem forall₂_unresolved {connected resolved : List Component}
    {eligible : Component → Bool → Prop}
    (hresults : List.Forall₂ (fun component result => ∃ sharedEligible,
      eligible component sharedEligible ∧ result = { component with sharedEligible })
        connected resolved) (hfalse : ∀ component ∈ connected, component.sharedEligible = false) :
    resolved.map Component.unresolved = connected ∧
      ∀ component ∈ resolved, eligible component.unresolved component.sharedEligible := by
  induction hresults with
  | nil => exact ⟨rfl, nofun⟩
  | @cons component result rest results hhead _ ih =>
    obtain ⟨sharedEligible, heligible, rfl⟩ := hhead
    obtain ⟨hmap, hall⟩ := ih fun component hcomponent =>
      hfalse component (mem_cons_of_mem _ hcomponent)
    have hsame := hfalse _ mem_cons_self
    have hunresolved := Component.unresolved_resolved hsame sharedEligible
    refine ⟨by rw [map_cons, hmap, hunresolved], fun other hother => ?_⟩
    rcases mem_cons.mp hother with rfl | hother
    · rw [hunresolved]
      exact heligible
    · exact hall other hother

theorem mapM_buildComponent {codeSets : List (List String)} {built : List Component}
    (hok : codeSets.mapM (buildComponent fingerprint units) = .ok built) :
    built = codeSets.map (componentOf fingerprint units) ∧
      ∀ codes ∈ codeSets, Coherent units codes := by
  have hall := mapM_eq_ok_iff.mp hok
  clear hok
  induction hall with
  | nil => exact ⟨rfl, nofun⟩
  | cons hhead _ ih =>
    obtain ⟨rfl, hcoherent⟩ := buildComponent_eq_ok hhead
    obtain ⟨rfl, hrest⟩ := ih
    refine ⟨rfl, fun codes hcodes => ?_⟩
    rcases mem_cons.mp hcodes with rfl | hcodes
    · exact hcoherent
    · exact hrest codes hcodes

theorem buildComponents_eq_ok (hok : buildComponents fingerprint units policy = .ok components) :
    BuiltFrom fingerprint units policy components := by
  obtain ⟨built, hbuilt, hrest⟩ := bind_eq_ok.mp hok
  obtain ⟨resolved, hresolved, hlast⟩ := bind_eq_ok.mp hrest
  cases hlast
  obtain ⟨rfl, hcoherent⟩ := mapM_buildComponent hbuilt
  obtain ⟨hmap, heligible⟩ := forall₂_unresolved (resolveEligibility_eq_ok hresolved)
    fun component hcomponent => @unresolved_of_mem_connected fingerprint units component hcomponent
  exact
    { coherent := hcoherent
      perm := by
        have hsorted := (@sortBy_perm _ _ _ (·.componentBindingSha256) resolved).map
          Component.unresolved
        rw [hmap] at hsorted
        exact hsorted
      eligible := fun component hcomponent => heligible component (mem_sortBy.mp hcomponent)
      sorted := sortBy_sorted }

end Parts

variable {fingerprint : Payload → String} {units : List AuthenticatedLogicalUnit} {code : String}
  {unit : AuthenticatedLogicalUnit}

variable {other : List String} {dependency : String} {component : Component}

section

variable (hadmitted : Admitted units)
include hadmitted

theorem Admitted.classes :
    StrongComponents.Components (dependenciesOf units)
      (sortStrings (units.map (·.codeIdentitySha256))) (stronglyConnectedComponents units) := by
  apply StrongComponents.stronglyConnectedComponents_spec
  intro code hcode dependency hdependency
  obtain ⟨unit, hunit, rfl⟩ := mem_map.mp (mem_sortStrings.mp hcode)
  rw [hadmitted.dependenciesOf_eq hunit] at hdependency
  obtain ⟨other, hother, rfl⟩ := hadmitted.known unit hunit dependency hdependency
  exact mem_sortStrings.mpr (mem_map_of_mem hother)

section

variable (hcodes : codes ∈ stronglyConnectedComponents units)
include hcodes

theorem Admitted.class_eq
    (hother : other ∈ stronglyConnectedComponents units) (hcode : code ∈ codes)
    (hcodeOther : code ∈ other) : codes = other := by
  by_contra hne
  have hdisjoint := (nodup_flatten.mp hadmitted.classes.distinct).2
  have : Std.Symm (@List.Disjoint String) := ⟨fun _ _ hsymm => hsymm.symm⟩
  exact hdisjoint.forall hcodes hother hne hcode hcodeOther

theorem Admitted.unit_of_mem_class
    (hcode : code ∈ codes) : ∃ unit ∈ units, unit.codeIdentitySha256 = code :=
  mem_map.mp (mem_sortStrings.mp ((hadmitted.classes.mem_iff code).mp
    (mem_flatten.mpr ⟨codes, hcodes, hcode⟩)))

/-- The class of a code identity is found by each of its members. -/
theorem Admitted.find?_class
    (hcode : code ∈ codes) : (stronglyConnectedComponents units).find? (code ∈ ·) = some codes := by
  cases hfound : (stronglyConnectedComponents units).find? (code ∈ ·) with
  | none => exact absurd (decide_eq_true hcode) (List.find?_eq_none.mp hfound codes hcodes)
  | some found =>
    have hmem := mem_of_find?_eq_some hfound
    have hcodeFound := List.find?_some hfound
    rw [decide_eq_true_iff] at hcodeFound
    rw [hadmitted.class_eq hmem hcodes hcodeFound hcode]

end

end

theorem mem_membersOf : unit ∈ membersOf units codes ↔
    ∃ code ∈ codes, unitByCodeIdentity units code = some unit :=
  mem_filterMap

theorem Admitted.mem_membersOf (hadmitted : Admitted units) :
    unit ∈ membersOf units codes ↔ unit ∈ units ∧ unit.codeIdentitySha256 ∈ codes := by
  rw [ShardPlanner.mem_membersOf]
  constructor
  · rintro ⟨code, hcode, hfound⟩
    obtain ⟨hunit, rfl⟩ := unitByCodeIdentity_mem hfound
    exact ⟨hunit, hcode⟩
  · rintro ⟨hunit, hcode⟩
    exact ⟨_, hcode, hadmitted.unitByCodeIdentity_eq hunit⟩

section Connections

variable (fingerprint : Payload → String) (units : List AuthenticatedLogicalUnit)

/-- The identity of the class of a dependency on another class. -/
def dependencyIdentity (codes : List String) (dependency : String) : Option String :=
  if dependency ∈ codes then none
  else ((stronglyConnectedComponents units).find? (dependency ∈ ·)).map fun class' =>
    (componentOf fingerprint units class').componentSha256

/-- The binding identity of a class if no other has it. -/
def stableBinding (codes : List String) : String :=
  (componentOf fingerprint units codes).componentBindingSha256

/-- The component of a class before its eligibility is known. -/
def connectedComponent (codes : List String) : Component :=
  { componentOf fingerprint units codes with
    componentBindingSha256 :=
      if ((stronglyConnectedComponents units).filter fun other =>
          stableBinding fingerprint units other = stableBinding fingerprint units codes).length < 2
      then stableBinding fingerprint units codes
      else fingerprint (.ambiguousComponentBinding (stableBinding fingerprint units codes)
        (componentOf fingerprint units codes).componentSha256)
    dependencyComponentSha256s := sortStrings
      ((codes.flatMap fun code => (dependenciesOf units code).filterMap
        (dependencyIdentity fingerprint units codes)).dedup) }

variable {fingerprint units}

theorem disambiguate_map :
    disambiguate fingerprint ((stronglyConnectedComponents units).map
        (componentOf fingerprint units)) =
      (stronglyConnectedComponents units).map fun codes =>
        { componentOf fingerprint units codes with
          componentBindingSha256 :=
            (connectedComponent fingerprint units codes).componentBindingSha256 } := by
  rw [disambiguate, map_map]
  apply map_congr_left
  intro codes _
  rw [Function.comp_apply, filter_map, length_map]
  by_cases hunique : ((stronglyConnectedComponents units).filter fun other =>
      stableBinding fingerprint units other = stableBinding fingerprint units codes).length < 2
  · simp only [connectedComponent, if_pos hunique]
    exact if_pos hunique
  · simp only [connectedComponent, if_neg hunique]
    exact if_neg hunique

theorem connectedComponents_eq :
    connectedComponents fingerprint units =
      (stronglyConnectedComponents units).map (connectedComponent fingerprint units) := by
  rw [connectedComponents, disambiguate_map, connect, map_map]
  apply map_congr_left
  intro codes _
  have hdependency : dependencyComponentSha256
      ((stronglyConnectedComponents units).map fun codes =>
        { componentOf fingerprint units codes with
          componentBindingSha256 :=
            (connectedComponent fingerprint units codes).componentBindingSha256 })
      { componentOf fingerprint units codes with
        componentBindingSha256 :=
          (connectedComponent fingerprint units codes).componentBindingSha256 } =
      dependencyIdentity fingerprint units codes := by
    funext dependency
    rw [dependencyComponentSha256, dependencyIdentity, List.find?_map, Option.map_map]
    rfl
  rw [Function.comp_apply, hdependency]
  rfl

end Connections

section Meaning

variable {sha256 : String}

theorem BuiltFrom.map_unresolved (hbuilt : BuiltFrom fingerprint units policy components) :
    (components.map Component.unresolved).Perm
      ((stronglyConnectedComponents units).map (connectedComponent fingerprint units)) :=
  connectedComponents_eq ▸ hbuilt.perm

theorem Component.eq_of_unresolved_eq {connected : Component}
    (heq : component.unresolved = connected) :
    component = { connected with sharedEligible := component.sharedEligible } := by
  subst heq
  rfl

theorem BuiltFrom.exists_class (hbuilt : BuiltFrom fingerprint units policy components)
    (hcomponent : component ∈ components) :
    ∃ codes ∈ stronglyConnectedComponents units, ∃ sharedEligible,
      component = { connectedComponent fingerprint units codes with sharedEligible } := by
  have hmem := hbuilt.map_unresolved.mem_iff.mp (mem_map_of_mem hcomponent)
  obtain ⟨codes, hcodes, heq⟩ := mem_map.mp hmem
  exact ⟨codes, hcodes, _, Component.eq_of_unresolved_eq heq.symm⟩

theorem BuiltFrom.exists_component (hbuilt : BuiltFrom fingerprint units policy components)
    (hcodes : codes ∈ stronglyConnectedComponents units) : ∃ sharedEligible,
      { connectedComponent fingerprint units codes with sharedEligible } ∈ components := by
  have hmem := hbuilt.map_unresolved.mem_iff.mpr (mem_map_of_mem hcodes)
  obtain ⟨component, hcomponent, heq⟩ := mem_map.mp hmem
  exact ⟨_, Component.eq_of_unresolved_eq heq ▸ hcomponent⟩

/-- The occurrences of a class are those of each of its units. -/
theorem Coherent.occurrences_eq (hcoherent : Coherent units codes)
    (hunit : unit ∈ membersOf units codes) :
    unit.occurrences = occurrencesOf (membersOf units codes) := by
  by_cases hcyclic : cyclic (membersOf units codes) = true
  · exact hcoherent hcyclic unit hunit
  · cases hmembers : membersOf units codes with
    | nil =>
      rw [hmembers] at hunit
      cases hunit
    | cons first rest =>
      cases rest with
      | nil =>
        rw [hmembers] at hunit
        rw [mem_singleton.mp hunit]
        rfl
      | cons second rest =>
        rw [hmembers] at hcyclic
        simp [cyclic] at hcyclic

theorem dependencyIdentity_eq_some {dependency : String} (hadmitted : Admitted units) :
    dependencyIdentity fingerprint units codes dependency = some sha256 ↔
      dependency ∉ codes ∧ ∃ other ∈ stronglyConnectedComponents units, dependency ∈ other ∧
        (connectedComponent fingerprint units other).componentSha256 = sha256 := by
  rw [dependencyIdentity]
  by_cases hinside : dependency ∈ codes
  · simp [hinside]
  · rw [if_neg hinside, Option.map_eq_some_iff]
    constructor
    · rintro ⟨other, hfound, rfl⟩
      have hmem := List.find?_some hfound
      exact ⟨hinside, other, mem_of_find?_eq_some hfound, of_decide_eq_true hmem, rfl⟩
    · rintro ⟨_, other, hother, hmem, rfl⟩
      exact ⟨other, hadmitted.find?_class hother hmem, rfl⟩

theorem mem_dependencyComponentSha256s (hadmitted : Admitted units) :
    sha256 ∈ (connectedComponent fingerprint units codes).dependencyComponentSha256s ↔
      ∃ code ∈ codes, ∃ dependency ∈ dependenciesOf units code, dependency ∉ codes ∧
        ∃ other ∈ stronglyConnectedComponents units, dependency ∈ other ∧
          (connectedComponent fingerprint units other).componentSha256 = sha256 := by
  rw [connectedComponent, mem_sortStrings, mem_dedup, mem_flatMap]
  apply exists_congr
  intro code
  apply and_congr_right
  intro _
  rw [mem_filterMap]
  simp only [dependencyIdentity_eq_some hadmitted]

/-- The components of admitted units, in terms of the units. -/
structure ComponentsOf (units : List AuthenticatedLogicalUnit) (components : List Component) :
    Prop where
  /-- Each unit is in one component. -/
  codes : (components.flatMap (·.codeIdentitySha256s)).Perm (units.map (·.codeIdentitySha256))
  distinct : (units.map (·.codeIdentitySha256)).Nodup
  nonempty : ∀ component ∈ components, component.codeIdentitySha256s ≠ []
  /-- A component is a class of units that depend on each other. -/
  strong : ∀ component ∈ components, ∀ code ∈ component.codeIdentitySha256s, ∀ other,
    other ∈ component.codeIdentitySha256s ↔
      StrongComponents.Mutual (dependenciesOf units) code other
  occurrences : ∀ component ∈ components, ∀ unit ∈ units,
    unit.codeIdentitySha256 ∈ component.codeIdentitySha256s →
      unit.occurrences = component.occurrenceCohortSha256s
  weight : ∀ component ∈ components, component.picObjectByteWeight =
    ((membersOf units component.codeIdentitySha256s).map (·.picObject.byteWeight)).sum
  weight_nonneg : ∀ component ∈ components, 0 ≤ component.picObjectByteWeight
  /-- A component depends on another as a unit of it does. -/
  dependency : ∀ component ∈ components, ∀ sha256,
    sha256 ∈ component.dependencyComponentSha256s ↔
      ∃ code ∈ component.codeIdentitySha256s, ∃ dependency ∈ dependenciesOf units code,
        dependency ∉ component.codeIdentitySha256s ∧ ∃ other ∈ components,
          dependency ∈ other.codeIdentitySha256s ∧ other.componentSha256 = sha256

variable (hadmitted : Admitted units) (hbuilt : BuiltFrom fingerprint units policy components)
include hadmitted hbuilt

theorem BuiltFrom.codes_perm :
    (components.flatMap (·.codeIdentitySha256s)).Perm (units.map (·.codeIdentitySha256)) := by
  have hclasses : ((components.map Component.unresolved).map (·.codeIdentitySha256s)).Perm
      (stronglyConnectedComponents units) := by
    have hmap := hbuilt.map_unresolved.map (·.codeIdentitySha256s)
    rw [map_map (l := stronglyConnectedComponents units)] at hmap
    exact hmap.trans (by rw [show _ ∘ _ = id from rfl, map_id])
  rw [map_map] at hclasses
  have hunits : (stronglyConnectedComponents units).flatten.Perm
      (units.map (·.codeIdentitySha256)) := by
    apply (perm_ext_iff_of_nodup hadmitted.classes.distinct hadmitted.codes_nodup).mpr
    intro code
    rw [hadmitted.classes.mem_iff, mem_sortStrings]
  exact hclasses.flatten.trans hunits

theorem BuiltFrom.componentsOf : ComponentsOf units components where
  codes := hbuilt.codes_perm hadmitted
  distinct := hadmitted.codes_nodup
  nonempty component hcomponent := by
    obtain ⟨codes, hcodes, _, rfl⟩ := hbuilt.exists_class hcomponent
    exact hadmitted.classes.nonempty codes hcodes
  strong component hcomponent := by
    obtain ⟨codes, hcodes, _, rfl⟩ := hbuilt.exists_class hcomponent
    exact hadmitted.classes.strong codes hcodes
  occurrences component hcomponent unit hunit hcode := by
    obtain ⟨codes, hcodes, _, rfl⟩ := hbuilt.exists_class hcomponent
    exact (hbuilt.coherent codes hcodes).occurrences_eq (hadmitted.mem_membersOf.mpr ⟨hunit, hcode⟩)
  weight component hcomponent := by
    obtain ⟨codes, hcodes, _, rfl⟩ := hbuilt.exists_class hcomponent
    rfl
  weight_nonneg component hcomponent := by
    obtain ⟨codes, hcodes, _, rfl⟩ := hbuilt.exists_class hcomponent
    apply sum_nonneg
    intro weight hmem
    obtain ⟨unit, hunit, rfl⟩ := mem_map.mp hmem
    exact (hadmitted.canonical unit (hadmitted.mem_membersOf.mp hunit).1).byteWeight
  dependency component hcomponent sha256 := by
    obtain ⟨codes, hcodes, _, rfl⟩ := hbuilt.exists_class hcomponent
    apply (mem_dependencyComponentSha256s hadmitted).trans
    apply exists_congr fun code => and_congr_right fun _ => exists_congr fun dependency =>
      and_congr_right fun _ => and_congr_right fun _ => ?_
    constructor
    · rintro ⟨other, hother, hmem, hsha256⟩
      obtain ⟨_, hcomponentOther⟩ := hbuilt.exists_component hother
      exact ⟨_, hcomponentOther, hmem, hsha256⟩
    · rintro ⟨other, hother, hmem, hsha256⟩
      obtain ⟨codes', hcodes', _, rfl⟩ := hbuilt.exists_class hother
      exact ⟨codes', hcodes', hmem, hsha256⟩

end Meaning

end ConvexWasm.ShardPlanner
