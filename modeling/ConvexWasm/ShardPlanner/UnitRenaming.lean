import ConvexWasm.Core.GraphRenaming
import ConvexWasm.ShardPlanner.OrderIndependence
import ConvexWasm.ShardPlanner.TwinPlacement

/-!
# Renamed units

When code identities and contents change and everything else stays, the classes
of mutual dependency correspond and keep their bindings, weights, occurrences
and dependencies.
-/

namespace ConvexWasm.ShardPlanner

open Fallible List Relation TopologicalOrder

variable {units : List AuthenticatedLogicalUnit} {components : List Component}
  {component : Component} {code : String}

section Acyclicity

variable {other : Component} {source target last : String}

variable (hof : ComponentsOf units components)
include hof

theorem ComponentsOf.closed (hdistinct : (components.map (·.componentSha256)).Nodup) :
    Closed components where
  distinct := hdistinct
  known component hcomponent dependency hdependency := by
    obtain ⟨_, _, _, _, _, found, hfound, _, rfl⟩ :=
      (hof.dependency component hcomponent dependency).mp hdependency
    exact mem_map_of_mem hfound

theorem ComponentsOf.reaches_inside (hcomponent : component ∈ components)
    (hcode : code ∈ component.codeIdentitySha256s) (hlast : last ∈ component.codeIdentitySha256s) :
    StrongComponents.Reaches (dependenciesOf units) code last :=
  ((hof.strong component hcomponent code hcode last).mp hlast).1

section

variable (hdistinct : (components.map (·.componentSha256)).Nodup)
include hdistinct

/-- A dependency of a component is one of a unit of it, with the way to get there. -/
theorem ComponentsOf.exists_leaving
    (hcomponent : component ∈ components) (hother : other ∈ components)
    (hdependency : other.componentSha256 ∈ component.dependencyComponentSha256s)
    (hcode : code ∈ component.codeIdentitySha256s) :
    ∃ dependency ∈ other.codeIdentitySha256s, dependency ∉ component.codeIdentitySha256s ∧
      StrongComponents.Reaches (dependenciesOf units) code dependency := by
  obtain ⟨inside, hinside, dependency, hstep, houtside, found, hfound, hmember, hname⟩ :=
    (hof.dependency component hcomponent _).mp hdependency
  rw [inj_on_of_nodup_map hdistinct hfound hother hname] at hmember
  exact ⟨dependency, hmember, houtside,
    ReflTransGen.tail (hof.reaches_inside hcomponent hcode hinside) hstep⟩

/-- Along a path of components the units reach each other. -/
theorem ComponentsOf.reaches_of_path (hpath : ReflTransGen (ComponentEdge components) source target)
    (hcomponent : component ∈ components) (hsource : component.componentSha256 = source)
    (hother : other ∈ components) (htarget : other.componentSha256 = target)
    (hcode : code ∈ component.codeIdentitySha256s) (hlast : last ∈ other.codeIdentitySha256s) :
    StrongComponents.Reaches (dependenciesOf units) code last := by
  induction hpath generalizing other last with
  | refl =>
    rw [← inj_on_of_nodup_map hdistinct hcomponent hother (hsource.trans htarget.symm)] at hlast
    exact hof.reaches_inside hcomponent hcode hlast
  | tail _ hedge ih =>
    obtain ⟨middle, hmiddle, hname, hdependency⟩ := hedge
    obtain ⟨inside, hinside⟩ := exists_mem_of_ne_nil _ (hof.nonempty middle hmiddle)
    have hbefore := ih hmiddle hname hinside
    obtain ⟨dependency, hmember, _, hafter⟩ :=
      hof.exists_leaving hdistinct hmiddle hother (htarget ▸ hdependency) hinside
    exact (hbefore.trans hafter).trans (hof.reaches_inside hother hmember hlast)

/-- The components depend on each other without cycles, for a class has all that
depends on it and that it depends on. -/
theorem ComponentsOf.acyclic :
    Acyclic (ComponentEdge components) := by
  intro vertex hcycle
  obtain ⟨next, hedge, hpath⟩ := TransGen.head'_iff.mp hcycle
  obtain ⟨component, hcomponent, hname, hdependency⟩ := hedge
  obtain ⟨other, hother, rfl⟩ :=
    mem_map.mp ((hof.closed hdistinct).known component hcomponent next hdependency)
  obtain ⟨code, hcode⟩ := exists_mem_of_ne_nil _ (hof.nonempty component hcomponent)
  obtain ⟨dependency, hmember, houtside, hreaches⟩ :=
    hof.exists_leaving hdistinct hcomponent hother hdependency hcode
  have hback := hof.reaches_of_path hdistinct hpath hother rfl hcomponent hname hmember hcode
  exact houtside ((hof.strong component hcomponent code hcode dependency).mpr ⟨hreaches, hback⟩)

end

end Acyclicity

variable {rename : String → String} {units' : List AuthenticatedLogicalUnit}
  {unit : AuthenticatedLogicalUnit} {codes codes' : List String} {fingerprint : Payload → String}

section Units

/-- A unit under another code identity and with other content. -/
structure Renamed (rename : String → String) (unit unit' : AuthenticatedLogicalUnit) : Prop where
  bindingIdentitySha256 : unit'.bindingIdentitySha256 = unit.bindingIdentitySha256
  codeIdentitySha256 : unit'.codeIdentitySha256 = rename unit.codeIdentitySha256
  dependencies : unit'.dependencies.Perm (unit.dependencies.map rename)
  occurrences : unit'.occurrences = unit.occurrences
  byteWeight : unit'.picObject.byteWeight = unit.picObject.byteWeight
  shareable : unit'.shareable = unit.shareable

/-- Two lists of admitted units, one of them renamed. -/
structure RenamedUnits (rename : String → String) (units units' : List AuthenticatedLogicalUnit) :
    Prop where
  admitted : Admitted units
  admitted' : Admitted units'
  renamed : List.Forall₂ (Renamed rename) units units'

variable {other : String}

theorem map_codes_of_renamed (hrenamed : List.Forall₂ (Renamed rename) units units') :
    units'.map (·.codeIdentitySha256) = (units.map (·.codeIdentitySha256)).map rename := by
  induction hrenamed with
  | nil => rfl
  | cons hhead _ ih => rw [map_cons, map_cons, map_cons, ih, hhead.codeIdentitySha256]

section

variable (hunits : RenamedUnits rename units units')
include hunits

theorem RenamedUnits.injective :
    ∀ first ∈ units.map (·.codeIdentitySha256), ∀ second ∈ units.map (·.codeIdentitySha256),
      rename first = rename second → first = second := by
  have hnodup := hunits.admitted'.codes_nodup
  rw [map_codes_of_renamed hunits.renamed] at hnodup
  exact fun first hfirst second hsecond => inj_on_of_nodup_map hnodup hfirst hsecond

/-- The partner of a unit is found by the new code identity. -/
theorem RenamedUnits.exists_partner (hfound : unitByCodeIdentity units code = some unit) :
    ∃ unit', unitByCodeIdentity units' (rename code) = some unit' ∧ Renamed rename unit unit' := by
  obtain ⟨hunit, rfl⟩ := unitByCodeIdentity_mem hfound
  obtain ⟨index, hindex⟩ := List.getElem?_of_mem hunit
  obtain ⟨hlt, rfl⟩ := List.getElem?_eq_some_iff.mp hindex
  have hlt' : index < units'.length := hunits.renamed.length_eq ▸ hlt
  have hpair := hunits.renamed.get hlt hlt'
  refine ⟨units'[index], ?_, hpair⟩
  have hcode := hpair.codeIdentitySha256
  rw [get_eq_getElem, get_eq_getElem] at hcode
  rw [← hcode]
  exact hunits.admitted'.unitByCodeIdentity_eq (getElem_mem hlt')

theorem RenamedUnits.dependenciesOf_perm (hcode : code ∈ units.map (·.codeIdentitySha256)) :
    (dependenciesOf units' (rename code)).Perm ((dependenciesOf units code).map rename) := by
  obtain ⟨unit, hunit, rfl⟩ := mem_map.mp hcode
  have hfound := hunits.admitted.unitByCodeIdentity_eq hunit
  obtain ⟨unit', hfound', hrenamed⟩ := hunits.exists_partner hfound
  rw [dependenciesOf, dependenciesOf, hfound, hfound']
  exact hrenamed.dependencies

theorem RenamedUnits.renaming :
    StrongComponents.Renaming rename (sortStrings (units.map (·.codeIdentitySha256)))
      (dependenciesOf units) (dependenciesOf units') where
  closed code hcode dependency hdependency := by
    obtain ⟨unit, hunit, rfl⟩ := mem_map.mp (mem_sortStrings.mp hcode)
    rw [hunits.admitted.dependenciesOf_eq hunit] at hdependency
    obtain ⟨other, hother, rfl⟩ := hunits.admitted.known unit hunit dependency hdependency
    exact mem_sortStrings.mpr (mem_map_of_mem hother)
  injective first hfirst second hsecond :=
    hunits.injective first (mem_sortStrings.mp hfirst) second (mem_sortStrings.mp hsecond)
  mem_dependencies code hcode _ := (hunits.dependenciesOf_perm (mem_sortStrings.mp hcode)).mem_iff

theorem RenamedUnits.mem_codes (code : String) :
    code ∈ sortStrings (units'.map (·.codeIdentitySha256)) ↔
      code ∈ (sortStrings (units.map (·.codeIdentitySha256))).map rename := by
  rw [mem_sortStrings, map_codes_of_renamed hunits.renamed]
  exact (sortStrings_perm.map rename).mem_iff.symm

end

/-- Corresponding classes of the two lists. -/
structure ClassPair (rename : String → String) (units units' : List AuthenticatedLogicalUnit)
    (codes codes' : List String) : Prop where
  codes_mem : codes ∈ stronglyConnectedComponents units
  codes_mem' : codes' ∈ stronglyConnectedComponents units'
  perm : codes'.Perm (codes.map rename)

theorem RenamedUnits.exists_class' (hunits : RenamedUnits rename units units')
    (hcodes : codes ∈ stronglyConnectedComponents units) :
    ∃ codes', ClassPair rename units units' codes codes' := by
  obtain ⟨codes', hcodes', hperm⟩ := hunits.renaming.exists_renamed hunits.mem_codes
    hunits.admitted.classes hunits.admitted'.classes hcodes
  exact ⟨codes', hcodes, hcodes', hperm⟩

theorem RenamedUnits.exists_class (hunits : RenamedUnits rename units units')
    (hcodes' : codes' ∈ stronglyConnectedComponents units') :
    ∃ codes, ClassPair rename units units' codes codes' := by
  obtain ⟨codes, hcodes, hperm⟩ := hunits.renaming.exists_original hunits.mem_codes
    hunits.admitted.classes hunits.admitted'.classes hcodes'
  exact ⟨codes, hcodes, hcodes', hperm⟩

end Units

section Members

variable {members members' : List AuthenticatedLogicalUnit} {other : AuthenticatedLogicalUnit}

theorem map_eq_of_renamed {Result : Type} {value value' : AuthenticatedLogicalUnit → Result}
    (hrenamed : List.Forall₂ (Renamed rename) members members')
    (hvalue : ∀ unit ∈ members, ∀ unit', Renamed rename unit unit' → value' unit' = value unit) :
    members'.map value' = members.map value := by
  induction hrenamed with
  | nil => rfl
  | cons hhead _ ih =>
    rw [map_cons, map_cons, hvalue _ mem_cons_self _ hhead,
      ih fun unit hunit => hvalue unit (mem_cons_of_mem _ hunit)]

theorem RenamedUnits.membersOf_renamed (hunits : RenamedUnits rename units units')
    (hknown : ∀ code ∈ codes, ∃ unit ∈ units, unit.codeIdentitySha256 = code) :
    List.Forall₂ (Renamed rename) (membersOf units codes) (membersOf units' (codes.map rename)) := by
  induction codes with
  | nil => exact .nil
  | cons code rest ih =>
    obtain ⟨unit, hunit, rfl⟩ := hknown code mem_cons_self
    have hfound := hunits.admitted.unitByCodeIdentity_eq hunit
    obtain ⟨unit', hfound', hrenamed⟩ := hunits.exists_partner hfound
    rw [membersOf, membersOf, map_cons, filterMap_cons_some hfound, filterMap_cons_some hfound']
    exact .cons hrenamed (ih fun code hcode => hknown code (mem_cons_of_mem _ hcode))

/-- What units keep under the renaming, corresponding classes have in common. -/
theorem ClassPair.map_perm (hpair : ClassPair rename units units' codes codes')
    (hunits : RenamedUnits rename units units') {Result : Type}
    {value value' : AuthenticatedLogicalUnit → Result}
    (hvalue : ∀ unit ∈ units, ∀ unit', Renamed rename unit unit' → value' unit' = value unit) :
    ((membersOf units' codes').map value').Perm ((membersOf units codes).map value) := by
  have hknown : ∀ code ∈ codes, ∃ unit ∈ units, unit.codeIdentitySha256 = code := fun code =>
    hunits.admitted.unit_of_mem_class hpair.codes_mem
  have hmap := map_eq_of_renamed (hunits.membersOf_renamed hknown) fun unit hunit =>
    hvalue unit (hunits.admitted.mem_membersOf.mp hunit).1
  rw [← hmap]
  exact (hpair.perm.filterMap _).map value'

/-- A unit has the dependencies that its partner has, if they are named by their
bindings. -/
theorem RenamedUnits.bindingUnit_eq (hunits : RenamedUnits rename units units')
    (hunit : unit ∈ units) {unit' : AuthenticatedLogicalUnit} (hrenamed : Renamed rename unit unit') :
    bindingUnit units' unit' = bindingUnit units unit := by
  have hdependencies : (unit'.dependencies.filterMap fun dependency =>
      (unitByCodeIdentity units' dependency).map (·.bindingIdentitySha256)).Perm
        (unit.dependencies.filterMap fun dependency =>
          (unitByCodeIdentity units dependency).map (·.bindingIdentitySha256)) := by
    apply (hrenamed.dependencies.filterMap _).trans
    rw [filterMap_map]
    apply List.Perm.of_eq
    apply filterMap_congr
    intro dependency hdependency
    obtain ⟨found, hfound, rfl⟩ := hunits.admitted.known unit hunit dependency hdependency
    have hlookup := hunits.admitted.unitByCodeIdentity_eq hfound
    obtain ⟨found', hlookup', hpartner⟩ := hunits.exists_partner hlookup
    rw [Function.comp_apply, hlookup, hlookup', Option.map_some, Option.map_some,
      hpartner.bindingIdentitySha256]
  rw [bindingUnit, bindingUnit, hrenamed.bindingIdentitySha256, hrenamed.byteWeight,
    hrenamed.shareable, sortStrings_eq_of_perm hdependencies]

/-- A class has at most one unit of a binding, for its units occur together. -/
theorem Admitted.unit_eq_of_binding_eq (hadmitted : Admitted units)
    (hcoherent : Coherent units codes) (hunit : unit ∈ membersOf units codes)
    (hother : other ∈ membersOf units codes)
    (hbinding : unit.bindingIdentitySha256 = other.bindingIdentitySha256) : unit = other := by
  by_contra hne
  have : Std.Symm Compatible := ⟨fun _ _ hcompatible => hcompatible.symm⟩
  have hmem := (hadmitted.mem_membersOf.mp hunit).1
  have hcompatible := hadmitted.compatible.forall hmem (hadmitted.mem_membersOf.mp hother).1 hne
  obtain ⟨occurrence, hoccurrence⟩ :=
    exists_mem_of_ne_nil _ (hadmitted.canonical unit hmem).occurrences_nonempty
  apply hcompatible.occurrences hbinding occurrence hoccurrence
  rw [hcoherent.occurrences_eq hother, ← hcoherent.occurrences_eq hunit]
  exact hoccurrence

theorem Admitted.membersOf_ne_nil (hadmitted : Admitted units)
    (hcodes : codes ∈ stronglyConnectedComponents units) : membersOf units codes ≠ [] := by
  obtain ⟨code, hcode⟩ := exists_mem_of_ne_nil _ (hadmitted.classes.nonempty codes hcodes)
  obtain ⟨unit, hunit, rfl⟩ := hadmitted.unit_of_mem_class hcodes hcode
  exact ne_nil_of_mem (hadmitted.mem_membersOf.mpr ⟨hunit, hcode⟩)

theorem occurrencesOf_mem (hmembers : members ≠ []) :
    occurrencesOf members ∈ members.map (·.occurrences) := by
  cases members with
  | nil => exact absurd rfl hmembers
  | cons first rest => exact mem_cons_self

variable (hpair : ClassPair rename units units' codes codes')
  (hunits : RenamedUnits rename units units') (hcoherent' : Coherent units' codes')
include hpair hunits hcoherent'

theorem ClassPair.occurrencesOf_eq :
    occurrencesOf (membersOf units' codes') = occurrencesOf (membersOf units codes) := by
  have hmem := occurrencesOf_mem (hunits.admitted.membersOf_ne_nil hpair.codes_mem)
  have hperm : ((membersOf units' codes').map (·.occurrences)).Perm
      ((membersOf units codes).map (·.occurrences)) :=
    hpair.map_perm hunits fun _ _ _ hrenamed => hrenamed.occurrences
  obtain ⟨unit', hunit', heq⟩ := mem_map.mp (hperm.mem_iff.mpr hmem)
  rw [← heq, hcoherent'.occurrences_eq hunit']

theorem ClassPair.stableBinding_eq :
    stableBinding fingerprint units' codes' = stableBinding fingerprint units codes := by
  have hperm : ((membersOf units' codes').map (bindingUnit units')).Perm
      ((membersOf units codes).map (bindingUnit units)) :=
    hpair.map_perm hunits fun unit hunit unit' hrenamed => hunits.bindingUnit_eq hunit hrenamed
  have hsorted : sortBy (·.bindingIdentitySha256) ((membersOf units' codes').map
      (bindingUnit units')) =
        sortBy (·.bindingIdentitySha256) ((membersOf units codes).map (bindingUnit units)) := by
    apply sortBy_eq_of_perm hperm
    intro left hleft right hright hbinding
    obtain ⟨first, hfirst, rfl⟩ := mem_map.mp hleft
    obtain ⟨second, hsecond, rfl⟩ := mem_map.mp hright
    rw [hunits.admitted'.unit_eq_of_binding_eq hcoherent' hfirst hsecond hbinding]
  rw [stableBinding, stableBinding, componentOf, componentOf]
  rw [hsorted]

end Members

variable {others : List String} {components' : List Component} {component' : Component}
  {policy : Policy}

section Counterparts

variable {others' : List String}

/-- The bindings of the components as they are before those with the same one
are told apart by their material. -/
def stableBindings (fingerprint : Payload → String) (units : List AuthenticatedLogicalUnit) :
    List String :=
  (stronglyConnectedComponents units).map (stableBinding fingerprint units)

/-- If no two components have one binding, each keeps its own. -/
theorem connectedComponent_binding (hdistinct : (stableBindings fingerprint units).Nodup) :
    (connectedComponent fingerprint units codes).componentBindingSha256 =
      stableBinding fingerprint units codes := by
  apply if_pos
  have hnodup := hdistinct.sublist ((filter_sublist (p := fun other =>
    stableBinding fingerprint units other = stableBinding fingerprint units codes)).map _)
  have hsame : ∀ other ∈ (stronglyConnectedComponents units).filter fun other =>
      stableBinding fingerprint units other = stableBinding fingerprint units codes,
      stableBinding fingerprint units other = stableBinding fingerprint units codes :=
    fun other hother => of_decide_eq_true (mem_filter.mp hother).2
  rw [map_congr_left hsame, map_const', nodup_replicate] at hnodup
  exact Nat.lt_succ_of_le hnodup

theorem Admitted.classes_nodup (hadmitted : Admitted units) :
    (stronglyConnectedComponents units).Nodup := by
  apply (nodup_flatten.mp hadmitted.classes.distinct).2.imp_of_mem
  intro codes others hcodes _ hdisjoint heq
  obtain ⟨code, hcode⟩ := exists_mem_of_ne_nil _ (hadmitted.classes.nonempty codes hcodes)
  exact hdisjoint hcode (heq ▸ hcode)

/-- The bindings stay distinct under the renaming. -/
theorem stableBindings_nodup (hunits : RenamedUnits rename units units')
    (hcoherent' : ∀ codes' ∈ stronglyConnectedComponents units', Coherent units' codes')
    (hdistinct : (stableBindings fingerprint units).Nodup) :
    (stableBindings fingerprint units').Nodup := by
  apply hunits.admitted'.classes_nodup.map_on
  intro codes' hcodes' others' hothers' heq
  obtain ⟨codes, hpair⟩ := hunits.exists_class hcodes'
  obtain ⟨others, hother⟩ := hunits.exists_class hothers'
  rw [hpair.stableBinding_eq hunits (hcoherent' codes' hcodes'),
    hother.stableBinding_eq hunits (hcoherent' others' hothers')] at heq
  have hsame := inj_on_of_nodup_map hdistinct hpair.codes_mem hother.codes_mem heq
  obtain ⟨code, hcode⟩ := exists_mem_of_ne_nil _ (hunits.admitted'.classes.nonempty codes' hcodes')
  have hcodeOther := hother.perm.mem_iff.mpr (hsame ▸ hpair.perm.mem_iff.mp hcode)
  exact hunits.admitted'.class_eq hcodes' hothers' hcode hcodeOther

/-- Corresponding components. -/
structure Counterpart (rename : String → String) (component component' : Component) : Prop where
  codes : component'.codeIdentitySha256s.Perm (component.codeIdentitySha256s.map rename)
  bindings : component'.bindingIdentitySha256s = component.bindingIdentitySha256s
  binding : component'.componentBindingSha256 = component.componentBindingSha256
  occurrences : component'.occurrenceCohortSha256s = component.occurrenceCohortSha256s
  weight : component'.picObjectByteWeight = component.picObjectByteWeight
  shareable : component'.shareable = component.shareable

theorem ClassPair.counterpart (hpair : ClassPair rename units units' codes codes')
    (hunits : RenamedUnits rename units units') (hcoherent' : Coherent units' codes')
    (hdistinct : (stableBindings fingerprint units).Nodup)
    (hdistinct' : (stableBindings fingerprint units').Nodup) :
    Counterpart rename (connectedComponent fingerprint units codes)
      (connectedComponent fingerprint units' codes') where
  codes := hpair.perm
  bindings := sortStrings_eq_of_perm
    (hpair.map_perm hunits fun _ _ _ hrenamed => hrenamed.bindingIdentitySha256)
  binding := by
    rw [connectedComponent_binding hdistinct, connectedComponent_binding hdistinct']
    exact hpair.stableBinding_eq hunits hcoherent'
  occurrences := hpair.occurrencesOf_eq hunits hcoherent'
  weight := (hpair.map_perm hunits fun _ _ _ hrenamed => hrenamed.byteWeight).sum_eq
  shareable := by
    have hperm : ((membersOf units' codes').map (·.shareable)).Perm
        ((membersOf units codes).map (·.shareable)) :=
      hpair.map_perm hunits fun _ _ _ hrenamed => hrenamed.shareable
    have hall := hperm.all_eq (f := id)
    rw [all_map, all_map] at hall
    exact hall

/-- A unit of one class depends on a unit of another. -/
def ClassEdge (units : List AuthenticatedLogicalUnit) (codes others : List String) : Prop :=
  ∃ code ∈ codes, ∃ dependency ∈ dependenciesOf units code, dependency ∉ codes ∧ dependency ∈ others

theorem mem_dependencyComponentSha256s_iff (hadmitted : Admitted units) {sha256 : String} :
    sha256 ∈ (connectedComponent fingerprint units codes).dependencyComponentSha256s ↔
      ∃ others ∈ stronglyConnectedComponents units, ClassEdge units codes others ∧
        (connectedComponent fingerprint units others).componentSha256 = sha256 := by
  rw [mem_dependencyComponentSha256s hadmitted]
  constructor
  · rintro ⟨code, hcode, dependency, hdependency, houtside, others, hothers, hmember, hname⟩
    exact ⟨others, hothers, ⟨code, hcode, dependency, hdependency, houtside, hmember⟩, hname⟩
  · rintro ⟨others, hothers, ⟨code, hcode, dependency, hdependency, houtside, hmember⟩, hname⟩
    exact ⟨code, hcode, dependency, hdependency, houtside, others, hothers, hmember, hname⟩

variable (hpair : ClassPair rename units units' codes codes')
include hpair

theorem ClassPair.mem_codes (hunits : RenamedUnits rename units units') {code : String}
    (hcode : code ∈ codes) : code ∈ units.map (·.codeIdentitySha256) := by
  obtain ⟨unit, hunit, rfl⟩ := hunits.admitted.unit_of_mem_class hpair.codes_mem hcode
  exact mem_map_of_mem hunit

theorem ClassPair.rename_mem_iff (hunits : RenamedUnits rename units units') {code : String}
    (hcode : code ∈ units.map (·.codeIdentitySha256)) : rename code ∈ codes' ↔ code ∈ codes := by
  rw [hpair.perm.mem_iff, mem_map]
  constructor
  · rintro ⟨other, hother, heq⟩
    rwa [hunits.injective other (hpair.mem_codes hunits hother) code hcode heq] at hother
  · exact fun hmem => ⟨code, hmem, rfl⟩

theorem ClassPair.edge_iff (hother : ClassPair rename units units' others others')
    (hunits : RenamedUnits rename units units') :
    ClassEdge units' codes' others' ↔ ClassEdge units codes others := by
  have hclosed : ∀ code ∈ codes, ∀ dependency ∈ dependenciesOf units code,
      dependency ∈ units.map (·.codeIdentitySha256) := fun code hcode dependency hdependency =>
    mem_sortStrings.mp (hunits.renaming.closed code
      (mem_sortStrings.mpr (hpair.mem_codes hunits hcode)) dependency hdependency)
  constructor
  · rintro ⟨code', hcode', dependency', hdependency', houtside, hinside⟩
    obtain ⟨code, hcode, rfl⟩ := mem_map.mp (hpair.perm.mem_iff.mp hcode')
    rw [(hunits.dependenciesOf_perm (hpair.mem_codes hunits hcode)).mem_iff] at hdependency'
    obtain ⟨dependency, hdependency, rfl⟩ := mem_map.mp hdependency'
    have hknown := hclosed code hcode dependency hdependency
    rw [hpair.rename_mem_iff hunits hknown] at houtside
    rw [hother.rename_mem_iff hunits hknown] at hinside
    exact ⟨code, hcode, dependency, hdependency, houtside, hinside⟩
  · rintro ⟨code, hcode, dependency, hdependency, houtside, hinside⟩
    have hknown := hclosed code hcode dependency hdependency
    refine ⟨rename code, (hpair.rename_mem_iff hunits (hpair.mem_codes hunits hcode)).mpr hcode,
      rename dependency, ?_, ?_, ?_⟩
    · rw [(hunits.dependenciesOf_perm (hpair.mem_codes hunits hcode)).mem_iff]
      exact mem_map_of_mem hdependency
    · rwa [hpair.rename_mem_iff hunits hknown]
    · rwa [hother.rename_mem_iff hunits hknown]

end Counterparts

section Eligibility

variable {known known' : List Component}

theorem allM_eq_ok {Item Failure : Type} {items : List Item} {check : Item → Except Failure Bool}
    {all : Bool} (hok : items.allM check = .ok all) :
    (all = true ∧ ∀ item ∈ items, check item = .ok true) ∨
      all = false ∧ ∃ item ∈ items, check item = .ok false := by
  induction items with
  | nil =>
    cases hok
    exact .inl ⟨rfl, nofun⟩
  | cons item rest ih =>
    obtain ⟨found, hfound, hrest⟩ := bind_eq_ok.mp hok
    cases found with
    | false =>
      cases hrest
      exact .inr ⟨rfl, item, mem_cons_self, hfound⟩
    | true =>
      rcases ih hrest with ⟨hall, hevery⟩ | ⟨hall, other, hother, hfalse⟩
      · refine .inl ⟨hall, fun other hother => ?_⟩
        rcases mem_cons.mp hother with rfl | hother
        · exact hfound
        · exact hevery other hother
      · exact .inr ⟨hall, other, mem_cons_of_mem _ hother, hfalse⟩

/-- A relation of components under which both are candidates or neither is, and
dependencies of one have related ones of the other. -/
structure Bisimilar (policy : Policy) (known known' : List Component)
    (related : Component → Component → Prop) : Prop where
  candidate : ∀ component component', related component component' →
    sharedCandidate policy component' = sharedCandidate policy component
  forth : ∀ component component', related component component' →
    ∀ sha256 ∈ component.dependencyComponentSha256s,
      ∃ sha256' ∈ component'.dependencyComponentSha256s, Option.Rel related
        (known.find? (·.componentSha256 = sha256)) (known'.find? (·.componentSha256 = sha256'))
  back : ∀ component component', related component component' →
    ∀ sha256' ∈ component'.dependencyComponentSha256s,
      ∃ sha256 ∈ component.dependencyComponentSha256s, Option.Rel related
        (known.find? (·.componentSha256 = sha256)) (known'.find? (·.componentSha256 = sha256'))

/-- What is found of one dependency. -/
def resolveDependency (policy : Policy) (known : List Component) (fuel : ℕ)
    (resolving : List String) (sha256 : String) : Except String Bool :=
  match known.find? (·.componentSha256 = sha256) with
  | none => .ok false
  | some dependency => resolveSharedEligibility policy known fuel resolving dependency

theorem resolveSharedEligibility_eq_ok {fuel : ℕ} {resolving : List String} {found : Bool}
    (hok : resolveSharedEligibility policy known (fuel + 1) resolving component = .ok found) :
    (sharedCandidate policy component = false ∧ found = false) ∨
      sharedCandidate policy component = true ∧
        component.dependencyComponentSha256s.allM (resolveDependency policy known fuel
          (component.componentSha256 :: resolving)) = .ok found := by
  rw [resolveSharedEligibility] at hok
  split at hok
  · rename_i hcandidate
    cases hok
    exact .inl ⟨hcandidate, rfl⟩
  · rename_i hcandidate
    split at hok
    · cases hok
    · exact .inr ⟨Bool.not_eq_false _ ▸ hcandidate, hok⟩

/-- Related components are found eligible alike, in whatever order their
dependencies are looked at. -/
theorem Bisimilar.resolve_eq {related : Component → Component → Prop}
    (hbisimilar : Bisimilar policy known known' related) {fuel fuel' : ℕ}
    {resolving resolving' : List String} {found found' : Bool}
    (hrelated : related component component')
    (hok : resolveSharedEligibility policy known fuel resolving component = .ok found)
    (hok' : resolveSharedEligibility policy known' fuel' resolving' component' = .ok found') :
    found' = found := by
  induction fuel generalizing fuel' resolving resolving' component component' found found' with
  | zero => cases hok
  | succ fuel ih =>
    cases fuel' with
    | zero => cases hok'
    | succ fuel' =>
      -- Two dependencies with different answers are not related.
      have hdependency : ∀ sha256 sha256' answer answer', Option.Rel related
          (known.find? (·.componentSha256 = sha256)) (known'.find? (·.componentSha256 = sha256')) →
          resolveDependency policy known fuel (component.componentSha256 :: resolving) sha256 =
            .ok answer →
          resolveDependency policy known' fuel' (component'.componentSha256 :: resolving')
            sha256' = .ok answer' → answer' = answer := by
        intro sha256 sha256' answer answer' hrel hanswer hanswer'
        unfold resolveDependency at hanswer hanswer'
        cases hfirst : known.find? (·.componentSha256 = sha256) with
        | none =>
          rw [hfirst] at hrel hanswer
          cases hsecond : known'.find? (·.componentSha256 = sha256') with
          | none =>
            rw [hsecond] at hanswer'
            cases hanswer
            cases hanswer'
            rfl
          | some dependency' =>
            rw [hsecond] at hrel
            cases hrel
        | some dependency =>
          rw [hfirst] at hrel hanswer
          cases hsecond : known'.find? (·.componentSha256 = sha256') with
          | none =>
            rw [hsecond] at hrel
            cases hrel
          | some dependency' =>
            rw [hsecond] at hrel hanswer'
            cases hrel with
            | some hrelatedDependency =>
              exact ih hrelatedDependency hanswer hanswer'
      have hcandidate := hbisimilar.candidate component component' hrelated
      rcases resolveSharedEligibility_eq_ok hok with ⟨hfalse, rfl⟩ | ⟨htrue, hall⟩
      · rcases resolveSharedEligibility_eq_ok hok' with ⟨_, rfl⟩ | ⟨htrue', _⟩
        · rfl
        · rw [hcandidate, hfalse] at htrue'
          cases htrue'
      · rcases resolveSharedEligibility_eq_ok hok' with ⟨hfalse', _⟩ | ⟨_, hall'⟩
        · rw [hcandidate, htrue] at hfalse'
          cases hfalse'
        · rcases allM_eq_ok hall with ⟨rfl, hevery⟩ | ⟨rfl, sha256, hmem, hfalse⟩
          · rcases allM_eq_ok hall' with ⟨rfl, _⟩ | ⟨rfl, sha256', hmem', hfalse'⟩
            · rfl
            · obtain ⟨sha256, hmem, hrel⟩ :=
                hbisimilar.back component component' hrelated sha256' hmem'
              exact hdependency sha256 sha256' true false hrel (hevery sha256 hmem) hfalse'
          · rcases allM_eq_ok hall' with ⟨rfl, hevery'⟩ | ⟨rfl, _⟩
            · obtain ⟨sha256', hmem', hrel⟩ :=
                hbisimilar.forth component component' hrelated sha256 hmem
              exact hdependency sha256 sha256' false true hrel hfalse (hevery' sha256' hmem')
            · rfl

end Eligibility

section Pairs

variable {pair : Component × Component}

/-- The components of one of the lists, and what is known of their names. -/
structure Distinct (fingerprint : Payload → String) (units : List AuthenticatedLogicalUnit)
    (policy : Policy) (components : List Component) : Prop where
  built : BuiltFrom fingerprint units policy components
  sha256s : (components.map (·.componentSha256)).Nodup
  bindings : (stableBindings fingerprint units).Nodup

section

variable (hlist : Distinct fingerprint units policy components)
include hlist

theorem Distinct.connected_nodup :
    ((connectedComponents fingerprint units).map (·.componentSha256)).Nodup := by
  have hperm := hlist.built.perm.map (·.componentSha256)
  rw [List.map_map] at hperm
  exact hperm.nodup_iff.mp hlist.sha256s

theorem Distinct.find?_eq (hcodes : codes ∈ stronglyConnectedComponents units) :
    (connectedComponents fingerprint units).find?
        (·.componentSha256 = (connectedComponent fingerprint units codes).componentSha256) =
      some (connectedComponent fingerprint units codes) := by
  apply find?_key_eq hlist.connected_nodup
  rw [connectedComponents_eq]
  exact mem_map_of_mem hcodes

theorem Distinct.class_eq (hcodes : codes ∈ stronglyConnectedComponents units)
    (hothers : others ∈ stronglyConnectedComponents units)
    (hsha256 : (connectedComponent fingerprint units codes).componentSha256 =
      (connectedComponent fingerprint units others).componentSha256) : codes = others := by
  have hfirst := hlist.find?_eq hcodes
  rw [hsha256, hlist.find?_eq hothers] at hfirst
  exact congrArg Component.codeIdentitySha256s (Option.some_injective _ hfirst).symm

theorem Distinct.bindings_perm :
    (components.map (·.componentBindingSha256)).Perm (stableBindings fingerprint units) := by
  have hperm := hlist.built.map_unresolved.map (·.componentBindingSha256)
  rw [List.map_map, List.map_map] at hperm
  apply hperm.trans
  apply List.Perm.of_eq
  apply map_congr_left
  intro codes _
  exact connectedComponent_binding hlist.bindings

theorem Distinct.component_eq (hcomponent : component ∈ components)
    (hcomponent' : component' ∈ components)
    (hbinding : component.componentBindingSha256 = component'.componentBindingSha256) :
    component = component' :=
  inj_on_of_nodup_map (hlist.bindings_perm.nodup_iff.mpr hlist.bindings) hcomponent
    hcomponent' hbinding

end

/-- The components of corresponding classes. -/
def Related (fingerprint : Payload → String) (rename : String → String)
    (units units' : List AuthenticatedLogicalUnit) (component component' : Component) : Prop :=
  ∃ codes codes', ClassPair rename units units' codes codes' ∧
    component = connectedComponent fingerprint units codes ∧
    component' = connectedComponent fingerprint units' codes'

section

variable (hunits : RenamedUnits rename units units')
  (hlist : Distinct fingerprint units policy components)
  (hlist' : Distinct fingerprint units' policy components')
include hunits hlist hlist'

theorem stableBindings_perm :
    (stableBindings fingerprint units').Perm (stableBindings fingerprint units) := by
  apply (perm_ext_iff_of_nodup hlist'.bindings hlist.bindings).mpr
  intro binding
  rw [stableBindings, stableBindings, mem_map, mem_map]
  constructor
  · rintro ⟨codes', hcodes', rfl⟩
    obtain ⟨codes, hpair⟩ := hunits.exists_class hcodes'
    exact ⟨codes, hpair.codes_mem,
      (hpair.stableBinding_eq hunits (hlist'.built.coherent codes' hcodes')).symm⟩
  · rintro ⟨codes, hcodes, rfl⟩
    obtain ⟨codes', hpair⟩ := hunits.exists_class' hcodes
    exact ⟨codes', hpair.codes_mem',
      hpair.stableBinding_eq hunits (hlist'.built.coherent codes' hpair.codes_mem')⟩

/-- Sorted by their bindings the components stand side by side. -/
theorem componentBindings_eq :
    components'.map (·.componentBindingSha256) = components.map (·.componentBindingSha256) := by
  have hperm := hlist'.bindings_perm.trans
    ((stableBindings_perm hunits hlist hlist').trans hlist.bindings_perm.symm)
  exact List.Perm.eq_of_pairwise (fun _ _ _ _ => le_antisymm)
    (pairwise_map.mpr hlist'.built.sorted) (pairwise_map.mpr hlist.built.sorted) hperm

end

theorem mem_zip_of_map_eq {Item Item' Key : Type} {key : Item → Key} {key' : Item' → Key}
    {items : List Item} {items' : List Item'} (hmap : items'.map key' = items.map key) :
    items.length = items'.length ∧ ∀ pair ∈ items.zip items', key' pair.2 = key pair.1 := by
  have hforall : List.Forall₂ (fun item item' => key' item' = key item) items items' := by
    have heq : List.Forall₂ (· = ·) (items.map key) (items'.map key') := by
      rw [List.forall₂_eq_eq_eq]
      exact hmap.symm
    rw [List.forall₂_map_left_iff, List.forall₂_map_right_iff] at heq
    exact heq.imp fun _ _ => Eq.symm
  obtain ⟨hlength, hzip⟩ := List.forall₂_iff_zip.mp hforall
  exact ⟨hlength, fun pair hpair => hzip hpair⟩

variable (hunits : RenamedUnits rename units units')
  (hlist : Distinct fingerprint units policy components)
  (hlist' : Distinct fingerprint units' policy components')
include hunits hlist hlist'

theorem related_of_mem_zip (hpair : pair ∈ components.zip components') :
    Related fingerprint rename units units' pair.1.unresolved pair.2.unresolved := by
  have hbinding := (mem_zip_of_map_eq (componentBindings_eq hunits hlist hlist')).2 pair hpair
  obtain ⟨hmem, hmem'⟩ := of_mem_zip hpair
  obtain ⟨codes, hcodes, sharedEligible, heq⟩ := hlist.built.exists_class hmem
  obtain ⟨codes', hclass⟩ := hunits.exists_class' hcodes
  obtain ⟨sharedEligible', hcomponent'⟩ := hlist'.built.exists_component hclass.codes_mem'
  have hcounterpart := hclass.counterpart hunits
    (hlist'.built.coherent codes' hclass.codes_mem') hlist.bindings hlist'.bindings
  have hsame := hlist'.component_eq hmem' hcomponent'
    (hbinding.trans (heq ▸ hcounterpart.binding.symm))
  exact ⟨codes, codes', hclass, by rw [heq]; rfl, by rw [hsame]; rfl⟩

theorem related_bisimilar :
    Bisimilar policy (connectedComponents fingerprint units)
      (connectedComponents fingerprint units') (Related fingerprint rename units units') where
  candidate component component' hrelated := by
    obtain ⟨codes, codes', hclass, rfl, rfl⟩ := hrelated
    have hcounterpart := hclass.counterpart hunits
      (hlist'.built.coherent codes' hclass.codes_mem') hlist.bindings hlist'.bindings
    rw [sharedCandidate, sharedCandidate, hcounterpart.shareable, hcounterpart.occurrences]
  forth component component' hrelated sha256 hsha256 := by
    obtain ⟨codes, codes', hclass, rfl, rfl⟩ := hrelated
    obtain ⟨others, hothers, hedge, rfl⟩ :=
      (mem_dependencyComponentSha256s_iff hunits.admitted).mp hsha256
    obtain ⟨others', hother⟩ := hunits.exists_class' hothers
    refine ⟨_, (mem_dependencyComponentSha256s_iff hunits.admitted').mpr
      ⟨others', hother.codes_mem', (hclass.edge_iff hother hunits).mpr hedge, rfl⟩, ?_⟩
    rw [hlist.find?_eq hothers, hlist'.find?_eq hother.codes_mem']
    exact .some ⟨others, others', hother, rfl, rfl⟩
  back component component' hrelated sha256' hsha256' := by
    obtain ⟨codes, codes', hclass, rfl, rfl⟩ := hrelated
    obtain ⟨others', hothers', hedge, rfl⟩ :=
      (mem_dependencyComponentSha256s_iff hunits.admitted').mp hsha256'
    obtain ⟨others, hother⟩ := hunits.exists_class hothers'
    refine ⟨_, (mem_dependencyComponentSha256s_iff hunits.admitted).mpr
      ⟨others, hother.codes_mem, (hclass.edge_iff hother hunits).mp hedge, rfl⟩, ?_⟩
    rw [hlist.find?_eq hother.codes_mem, hlist'.find?_eq hothers']
    exact .some ⟨others, others', hother, rfl, rfl⟩

/-- The components of renamed units are twins. -/
theorem components_twins :
    (components.zip components').map Prod.fst = components ∧
      (components.zip components').map Prod.snd = components' ∧
      Twins (components.zip components') := by
  obtain ⟨hlength, hbindings⟩ := mem_zip_of_map_eq (componentBindings_eq hunits hlist hlist')
  have hfst := map_fst_zip hlength.le
  have hsnd := map_snd_zip hlength.ge
  have hcounterpart : ∀ pair ∈ components.zip components',
      Counterpart rename pair.1.unresolved pair.2.unresolved := by
    intro pair hpair
    obtain ⟨codes, codes', hclass, hfirst, hsecond⟩ := related_of_mem_zip hunits hlist hlist' hpair
    rw [hfirst, hsecond]
    exact hclass.counterpart hunits (hlist'.built.coherent codes' hclass.codes_mem')
      hlist.bindings hlist'.bindings
  refine ⟨hfst, hsnd, ?_, ?_, ?_, ?_, ?_, ?_, ?_, ?_⟩
  · exact fun pair hpair => (hbindings pair hpair).symm
  · exact fun pair hpair => (hcounterpart pair hpair).weight.symm
  · exact fun pair hpair => (hcounterpart pair hpair).occurrences.symm
  · intro pair hpair
    obtain ⟨hmem, hmem'⟩ := of_mem_zip hpair
    exact ((related_bisimilar hunits hlist hlist').resolve_eq
      (related_of_mem_zip hunits hlist hlist' hpair) (hlist.built.eligible pair.1 hmem)
      (hlist'.built.eligible pair.2 hmem')).symm
  · intro pair hpair other hother
    obtain ⟨codes, codes', hclass, hfirst, hsecond⟩ := related_of_mem_zip hunits hlist hlist' hpair
    obtain ⟨others, others', hotherClass, hotherFirst, hotherSecond⟩ :=
      related_of_mem_zip hunits hlist hlist' hother
    change other.1.unresolved.componentSha256 ∈ pair.1.unresolved.dependencyComponentSha256s ↔
      other.2.unresolved.componentSha256 ∈ pair.2.unresolved.dependencyComponentSha256s
    rw [hfirst, hsecond, hotherFirst, hotherSecond,
      mem_dependencyComponentSha256s_iff hunits.admitted,
      mem_dependencyComponentSha256s_iff hunits.admitted']
    constructor
    · rintro ⟨found, hfound, hedge, hname⟩
      rw [hlist.class_eq hfound hotherClass.codes_mem hname] at hedge
      exact ⟨others', hotherClass.codes_mem', (hclass.edge_iff hotherClass hunits).mpr hedge, rfl⟩
    · rintro ⟨found, hfound, hedge, hname⟩
      rw [hlist'.class_eq hfound hotherClass.codes_mem' hname] at hedge
      exact ⟨others, hotherClass.codes_mem, (hclass.edge_iff hotherClass hunits).mp hedge, rfl⟩
  · rw [hfst]
    exact (hlist.built.componentsOf hunits.admitted).closed hlist.sha256s
  · rw [hsnd]
    exact (hlist'.built.componentsOf hunits.admitted').closed hlist'.sha256s
  · exact fun pair hpair => (hcounterpart pair hpair).bindings.symm

end Pairs

end ConvexWasm.ShardPlanner
