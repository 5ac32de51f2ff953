import ConvexWasm.Core.Fallible
import ConvexWasm.ShardPlanner.Placement

/-!
# The contracted graph that is kept

The edge sets of the bins are the edges between components in different bins.
Creating the graph establishes this, and patching the sets in a merge keeps it.
-/

namespace ConvexWasm.ShardPlanner

open Fallible List Relation TopologicalOrder

section Sets

variable {value other : String} {values : List String}

@[simp]
theorem mem_addMember : other ∈ addMember value values ↔ other ∈ values ∨ other = value := by
  unfold addMember
  split
  · rename_i hmem
    constructor
    · exact Or.inl
    · rintro (hother | rfl)
      · exact hother
      · exact hmem
  · simp

@[simp]
theorem mem_deleteMember : other ∈ deleteMember value values ↔ other ∈ values ∧ other ≠ value := by
  simp [deleteMember]

theorem nodup_addMember (hdistinct : values.Nodup) : (addMember value values).Nodup := by
  unfold addMember
  split
  · exact hdistinct
  · rename_i hmem
    apply nodup_append.mpr
    refine ⟨hdistinct, nodup_singleton _, fun first hfirst second hsecond heq => hmem ?_⟩
    rw [← mem_singleton.mp hsecond, ← heq]
    exact hfirst

end Sets

variable {dependency source target : String}

section Updates

variable {quotient : Quotient} {bin dependent : String}

/-- The same bins with the same components, whatever the edges. -/
structure SameMembers (quotient quotient' : Quotient) : Prop where
  activeBins : quotient'.activeBins = quotient.activeBins
  binByComponentSha256 : quotient'.binByComponentSha256 = quotient.binByComponentSha256
  componentSha256s : ∀ bin,
    (quotient'.bins bin).componentSha256s = (quotient.bins bin).componentSha256s

theorem SameMembers.refl : SameMembers quotient quotient :=
  ⟨rfl, rfl, fun _ => rfl⟩

theorem SameMembers.trans {quotient' quotient'' : Quotient}
    (hfirst : SameMembers quotient quotient') (hsecond : SameMembers quotient' quotient'') :
    SameMembers quotient quotient'' where
  activeBins := hsecond.activeBins.trans hfirst.activeBins
  binByComponentSha256 := hsecond.binByComponentSha256.trans hfirst.binByComponentSha256
  componentSha256s bin := (hsecond.componentSha256s bin).trans (hfirst.componentSha256s bin)

theorem SameMembers.modify {change : QuotientBin → QuotientBin}
    (hchange : ∀ found, (change found).componentSha256s = found.componentSha256s) :
    SameMembers quotient (quotient.modify bin change) where
  activeBins := rfl
  binByComponentSha256 := rfl
  componentSha256s other := by
    by_cases hother : other = bin
    · subst hother
      simp [Quotient.modify, hchange]
    · simp [Quotient.modify, hother]

theorem SameMembers.addDependency : SameMembers quotient (quotient.addDependency bin dependency) :=
  .modify fun _ => rfl

theorem SameMembers.addDependent : SameMembers quotient (quotient.addDependent bin dependent) :=
  .modify fun _ => rfl

theorem SameMembers.deleteDependency :
    SameMembers quotient (quotient.deleteDependency bin dependency) :=
  .modify fun _ => rfl

theorem SameMembers.deleteDependent :
    SameMembers quotient (quotient.deleteDependent bin dependent) :=
  .modify fun _ => rfl

theorem modify_bins {change : QuotientBin → QuotientBin} (other : String) :
    (quotient.modify bin change).bins other =
      if other = bin then change (quotient.bins other) else quotient.bins other := by
  by_cases hother : other = bin
  · subst hother
    simp [Quotient.modify]
  · simp [Quotient.modify, hother]

@[simp]
theorem mem_dependencies_addDependency :
    target ∈ ((quotient.addDependency bin dependency).bins source).dependencies ↔
      target ∈ (quotient.bins source).dependencies ∨ source = bin ∧ target = dependency := by
  rw [Quotient.addDependency, modify_bins]
  split <;> simp_all

@[simp]
theorem dependents_addDependency :
    ((quotient.addDependency bin dependency).bins source).dependents =
      (quotient.bins source).dependents := by
  rw [Quotient.addDependency, modify_bins]
  split <;> rfl

@[simp]
theorem mem_dependents_addDependent :
    target ∈ ((quotient.addDependent bin dependent).bins source).dependents ↔
      target ∈ (quotient.bins source).dependents ∨ source = bin ∧ target = dependent := by
  rw [Quotient.addDependent, modify_bins]
  split <;> simp_all

@[simp]
theorem dependencies_addDependent :
    ((quotient.addDependent bin dependent).bins source).dependencies =
      (quotient.bins source).dependencies := by
  rw [Quotient.addDependent, modify_bins]
  split <;> rfl

@[simp]
theorem mem_dependencies_deleteDependency :
    target ∈ ((quotient.deleteDependency bin dependency).bins source).dependencies ↔
      target ∈ (quotient.bins source).dependencies ∧ ¬ (source = bin ∧ target = dependency) := by
  rw [Quotient.deleteDependency, modify_bins]
  split <;> simp_all

@[simp]
theorem dependents_deleteDependency :
    ((quotient.deleteDependency bin dependency).bins source).dependents =
      (quotient.bins source).dependents := by
  rw [Quotient.deleteDependency, modify_bins]
  split <;> rfl

@[simp]
theorem mem_dependents_deleteDependent :
    target ∈ ((quotient.deleteDependent bin dependent).bins source).dependents ↔
      target ∈ (quotient.bins source).dependents ∧ ¬ (source = bin ∧ target = dependent) := by
  rw [Quotient.deleteDependent, modify_bins]
  split <;> simp_all

@[simp]
theorem dependencies_deleteDependent :
    ((quotient.deleteDependent bin dependent).bins source).dependencies =
      (quotient.bins source).dependencies := by
  rw [Quotient.deleteDependent, modify_bins]
  split <;> rfl

end Updates

section Meaning

variable (components : List Component) (quotient : Quotient)

/-- A component depends on another. -/
def ComponentEdge (source target : String) : Prop :=
  ∃ component ∈ components, component.componentSha256 = source ∧
    target ∈ component.dependencyComponentSha256s

/-- An edge between bins, from an edge between components that they hold. -/
def BinEdge : String → String → Prop :=
  Contraction.Labelled (ComponentEdge components) quotient.binByComponentSha256

/-- The state is that of the graph in which each bin is contracted. -/
structure Represents : Prop where
  distinct : quotient.activeBins.Nodup
  founder : ∀ bin ∈ quotient.activeBins, quotient.binByComponentSha256 bin = some bin
  active : ∀ sha256 bin, quotient.binByComponentSha256 sha256 = some bin →
    bin ∈ quotient.activeBins
  known : ∀ sha256, (∃ bin, quotient.binByComponentSha256 sha256 = some bin) ↔
    sha256 ∈ components.map (·.componentSha256)
  members : ∀ bin sha256, sha256 ∈ (quotient.bins bin).componentSha256s ↔
    quotient.binByComponentSha256 sha256 = some bin
  members_distinct : ∀ bin, (quotient.bins bin).componentSha256s.Nodup
  dependencies : ∀ source target, target ∈ (quotient.bins source).dependencies ↔
    BinEdge components quotient source target
  dependents : ∀ source target, target ∈ (quotient.bins source).dependents ↔
    BinEdge components quotient target source

end Meaning

variable {components : List Component} {quotient' : Quotient}

section Creation

variable {rest : List Component} {quotient : Quotient} {component : Component}
  {dependencies done : List String}

/-- The bins of some components before the edges are known. -/
def isolatedBins (componentSha256s : List String) : Quotient where
  activeBins := componentSha256s
  bins bin := if bin ∈ componentSha256s then
      { componentSha256s := [bin], dependencies := [], dependents := [] }
    else emptyBin
  binByComponentSha256 sha256 := if sha256 ∈ componentSha256s then some sha256 else none

theorem createBin_isolatedBins (hfresh : component.componentSha256 ∉ done) :
    createBin (isolatedBins done) component =
      .ok (isolatedBins (done ++ [component.componentSha256])) := by
  unfold createBin
  rw [if_neg (by simp [isolatedBins, hfresh])]
  apply congrArg Except.ok
  unfold isolatedBins
  congr 1
  · funext bin
    by_cases hbin : bin = component.componentSha256
    · subst hbin
      simp
    · simp [hbin]
  · funext sha256
    by_cases hsha256 : sha256 = component.componentSha256
    · subst hsha256
      simp
    · simp [hsha256]

theorem createBins_eq_ok_iff (hdone : done.Nodup) :
    rest.foldlM createBin (isolatedBins done) = .ok quotient ↔
      (done ++ rest.map (·.componentSha256)).Nodup ∧
        quotient = isolatedBins (done ++ rest.map (·.componentSha256)) := by
  induction rest generalizing done with
  | nil =>
    rw [foldlM_nil, map_nil, List.append_nil]
    constructor
    · intro hok
      cases hok
      exact ⟨hdone, rfl⟩
    · rintro ⟨_, rfl⟩
      rfl
  | cons component rest ih =>
    rw [foldlM_cons]
    by_cases hfresh : component.componentSha256 ∈ done
    · have hfail : createBin (isolatedBins done) component =
          fail "physical shard grouping repeats a component" := by
        unfold createBin
        rw [if_pos (by simp [isolatedBins, hfresh])]
      rw [hfail]
      constructor
      · intro hok
        cases hok
      · rintro ⟨hdistinct, _⟩
        have hdisjoint := (nodup_append.mp hdistinct).2.2 _ hfresh _ mem_cons_self
        exact absurd rfl hdisjoint
    · have hnext : (done ++ [component.componentSha256]).Nodup :=
        nodup_append.mpr ⟨hdone, nodup_singleton _, fun first hfirst second hsecond heq =>
          hfresh (mem_singleton.mp hsecond ▸ heq ▸ hfirst)⟩
      rw [createBin_isolatedBins hfresh, ok_bind, ih hnext, append_assoc]
      rfl

/-- The second state has the edges of the first and some more. -/
structure AddsEdges (quotient quotient' : Quotient) (edge : String → String → Prop) : Prop where
  same : SameMembers quotient quotient'
  dependencies : ∀ source target, target ∈ (quotient'.bins source).dependencies ↔
    target ∈ (quotient.bins source).dependencies ∨ edge source target
  dependents : ∀ source target, target ∈ (quotient'.bins source).dependents ↔
    target ∈ (quotient.bins source).dependents ∨ edge target source

theorem AddsEdges.refl : AddsEdges quotient quotient fun _ _ => False where
  same := .refl
  dependencies source target := by simp
  dependents source target := by simp

theorem AddsEdges.trans {quotient'' : Quotient} {first second third : String → String → Prop}
    (hfirst : AddsEdges quotient quotient' first) (hsecond : AddsEdges quotient' quotient'' second)
    (hedge : ∀ source target, third source target ↔ first source target ∨ second source target) :
    AddsEdges quotient quotient'' third where
  same := hfirst.same.trans hsecond.same
  dependencies source target := by
    rw [hsecond.dependencies, hfirst.dependencies, hedge, or_assoc]
  dependents source target := by
    rw [hsecond.dependents, hfirst.dependents, hedge, or_assoc]

/-- The edges that a component's dependencies make. -/
def EdgesOf (binOf : String → Option String) (sha256 : String) (dependencies : List String)
    (source target : String) : Prop :=
  source ≠ target ∧ binOf sha256 = some source ∧
    ∃ dependency ∈ dependencies, binOf dependency = some target

theorem connectBin_addsEdges {dependency source target : String}
    (hsource : quotient.binByComponentSha256 component.componentSha256 = some source)
    (htarget : quotient.binByComponentSha256 dependency = some target) :
    ∃ quotient', connectBin component quotient dependency = .ok quotient' ∧
      AddsEdges quotient quotient'
        (EdgesOf quotient.binByComponentSha256 component.componentSha256 [dependency]) := by
  have hedge : ∀ first second, EdgesOf quotient.binByComponentSha256 component.componentSha256
      [dependency] first second ↔ first ≠ second ∧ first = source ∧ second = target := by
    intro first second
    simp [EdgesOf, hsource, htarget, eq_comm (a := source), eq_comm (a := target)]
  by_cases hsame : source = target
  · refine ⟨quotient, by simp [connectBin, hsource, htarget, hsame], ?_⟩
    apply AddsEdges.refl.trans .refl
    intro first second
    rw [hedge]
    constructor
    · rintro ⟨hne, rfl, rfl⟩
      exact absurd hsame hne
    · simp
  · refine ⟨(quotient.addDependency source target).addDependent target source,
      by simp only [connectBin, hsource, htarget, if_neg hsame], ?_⟩
    constructor
    · exact SameMembers.addDependency.trans .addDependent
    · intro first second
      rw [hedge, dependencies_addDependent, mem_dependencies_addDependency]
      apply or_congr_right
      constructor
      · rintro ⟨rfl, rfl⟩
        exact ⟨hsame, rfl, rfl⟩
      · exact fun hfound => hfound.2
    · intro first second
      rw [hedge, mem_dependents_addDependent, dependents_addDependency]
      apply or_congr_right
      constructor
      · rintro ⟨rfl, rfl⟩
        exact ⟨hsame, rfl, rfl⟩
      · exact fun hfound => ⟨hfound.2.2, hfound.2.1⟩

theorem connectDependencies_addsEdges {source : String}
    (hsource : quotient.binByComponentSha256 component.componentSha256 = some source)
    (hknown : ∀ dependency ∈ dependencies,
      ∃ target, quotient.binByComponentSha256 dependency = some target) :
    ∃ quotient', dependencies.foldlM (connectBin component) quotient = .ok quotient' ∧
      AddsEdges quotient quotient'
        (EdgesOf quotient.binByComponentSha256 component.componentSha256 dependencies) := by
  induction dependencies generalizing quotient with
  | nil =>
    refine ⟨quotient, rfl, AddsEdges.refl.trans .refl fun first second => ?_⟩
    simp [EdgesOf]
  | cons dependency rest ih =>
    obtain ⟨target, htarget⟩ := hknown dependency mem_cons_self
    obtain ⟨next, hnext, hadds⟩ := connectBin_addsEdges hsource htarget
    have hsame := hadds.same.binByComponentSha256
    obtain ⟨last, hlast, haddsLast⟩ := @ih next (hsame ▸ hsource)
      fun other hother => hsame ▸ hknown other (mem_cons_of_mem _ hother)
    refine ⟨last, ?_, hadds.trans haddsLast fun first second => ?_⟩
    · rw [foldlM_cons, hnext, ok_bind, hlast]
    · rw [hsame]
      simp only [EdgesOf, mem_cons, not_mem_nil, or_false, exists_eq_left,
        exists_eq_or_imp]
      tauto

theorem connectComponents_addsEdges (hknown : ∀ component ∈ rest,
      (∃ source, quotient.binByComponentSha256 component.componentSha256 = some source) ∧
        ∀ dependency ∈ component.dependencyComponentSha256s,
          ∃ target, quotient.binByComponentSha256 dependency = some target) :
    ∃ quotient', rest.foldlM (fun quotient component =>
        component.dependencyComponentSha256s.foldlM (connectBin component) quotient) quotient =
          .ok quotient' ∧
      AddsEdges quotient quotient' (BinEdge rest quotient) := by
  induction rest generalizing quotient with
  | nil =>
    refine ⟨quotient, rfl, AddsEdges.refl.trans .refl fun first second => ?_⟩
    simp [BinEdge, Contraction.Labelled, ComponentEdge]
  | cons component rest ih =>
    obtain ⟨⟨source, hsource⟩, hdependencies⟩ := hknown component mem_cons_self
    obtain ⟨next, hnext, hadds⟩ := connectDependencies_addsEdges hsource hdependencies
    have hsame := hadds.same.binByComponentSha256
    obtain ⟨last, hlast, haddsLast⟩ := @ih next fun other hother =>
      hsame ▸ hknown other (mem_cons_of_mem _ hother)
    refine ⟨last, ?_, hadds.trans haddsLast fun first second => ?_⟩
    · rw [foldlM_cons, hnext, ok_bind, hlast]
    · simp only [BinEdge, Contraction.Labelled, EdgesOf, ComponentEdge, hsame, mem_cons,
        or_and_right, exists_or, exists_eq_left, ← and_or_left]
      apply and_congr_right
      intro _
      apply or_congr
      · constructor
        · rintro ⟨_, other, ⟨rfl, hmem⟩, hfirst, hsecond⟩
          exact ⟨hfirst, other, hmem, hsecond⟩
        · rintro ⟨hfirst, other, hmem, hsecond⟩
          exact ⟨_, other, ⟨rfl, hmem⟩, hfirst, hsecond⟩
      · exact Iff.rfl

/-- The components can be placed: distinct, with known dependencies. -/
structure Closed (components : List Component) : Prop where
  distinct : (components.map (·.componentSha256)).Nodup
  known : ∀ component ∈ components, ∀ dependency ∈ component.dependencyComponentSha256s,
    dependency ∈ components.map (·.componentSha256)

theorem createPhysicalShardQuotient_distinct
    (hok : createPhysicalShardQuotient components = .ok quotient) :
    (components.map (·.componentSha256)).Nodup := by
  obtain ⟨created, hcreated, _⟩ := bind_eq_ok.mp hok
  exact ((createBins_eq_ok_iff nodup_nil).mp hcreated).1

theorem createPhysicalShardQuotient_represents (hclosed : Closed components) :
    ∃ quotient, createPhysicalShardQuotient components = .ok quotient ∧
      Represents components quotient ∧
      quotient.activeBins = components.map (·.componentSha256) ∧
      ∀ sha256 ∈ components.map (·.componentSha256),
        quotient.binByComponentSha256 sha256 = some sha256 := by
  set vertices := components.map (·.componentSha256)
  have hcreated : components.foldlM createBin (isolatedBins []) = .ok (isolatedBins vertices) :=
    (createBins_eq_ok_iff nodup_nil).mpr ⟨hclosed.distinct, rfl⟩
  have hbinOf : ∀ sha256 bin, (isolatedBins vertices).binByComponentSha256 sha256 = some bin ↔
      sha256 ∈ vertices ∧ sha256 = bin := by
    intro sha256 bin
    simp [isolatedBins]
  obtain ⟨quotient, hquotient, hadds⟩ := @connectComponents_addsEdges
    components (isolatedBins vertices) fun component hcomponent =>
      ⟨⟨_, (hbinOf _ _).mpr ⟨mem_map_of_mem hcomponent, rfl⟩⟩, fun dependency hdependency =>
        ⟨_, (hbinOf _ _).mpr ⟨hclosed.known component hcomponent dependency hdependency, rfl⟩⟩⟩
  have hactive : quotient.activeBins = vertices := hadds.same.activeBins
  have hsame := hadds.same.binByComponentSha256
  have hedge : BinEdge components quotient = BinEdge components (isolatedBins vertices) := by
    rw [BinEdge, BinEdge, hsame]
  refine ⟨quotient, ?_, ?_, hactive, fun sha256 hsha256 => ?_⟩
  · exact (congrArg (· >>= _) hcreated).trans hquotient
  · constructor
    · rw [hactive]
      exact hclosed.distinct
    · intro bin hbin
      rw [hsame, hbinOf]
      exact ⟨hactive ▸ hbin, rfl⟩
    · intro sha256 bin hfound
      rw [hsame, hbinOf] at hfound
      rw [hactive]
      exact hfound.2 ▸ hfound.1
    · intro sha256
      simp only [hsame, hbinOf]
      exact ⟨fun ⟨_, hfound⟩ => hfound.1, fun hmem => ⟨_, hmem, rfl⟩⟩
    · intro bin sha256
      rw [hadds.same.componentSha256s, hsame, hbinOf]
      by_cases hbin : bin ∈ vertices
      · simp only [isolatedBins, if_pos hbin, mem_singleton]
        exact ⟨fun heq => ⟨heq ▸ hbin, heq⟩, fun hfound => hfound.2⟩
      · simp only [isolatedBins, if_neg hbin, emptyBin, not_mem_nil, false_iff]
        exact fun hfound => hbin (hfound.2 ▸ hfound.1)
    · intro bin
      rw [hadds.same.componentSha256s]
      by_cases hbin : bin ∈ vertices
      · simp [isolatedBins, hbin]
      · simp [isolatedBins, hbin, emptyBin]
    · intro source target
      rw [hadds.dependencies, hedge]
      apply or_iff_right
      by_cases hsource : source ∈ vertices
      · simp [isolatedBins, hsource]
      · simp [isolatedBins, hsource, emptyBin]
    · intro source target
      rw [hadds.dependents, hedge]
      apply or_iff_right
      by_cases hsource : source ∈ vertices
      · simp [isolatedBins, hsource]
      · simp [isolatedBins, hsource, emptyBin]
  · rw [hsame, hbinOf]
    exact ⟨hsha256, rfl⟩

end Creation

section Merging

variable {quotient : Quotient} {targetBin sourceBin : String} {moved : List String}

/-- The state with the edges the other way round. -/
def Quotient.reverse (quotient : Quotient) : Quotient :=
  { quotient with
    bins := fun bin =>
      { quotient.bins bin with
        dependencies := (quotient.bins bin).dependents
        dependents := (quotient.bins bin).dependencies } }

theorem reverse_modify {bin : String} {change change' : QuotientBin → QuotientBin}
    (hchange : ∀ found, change' { found with
        dependencies := found.dependents, dependents := found.dependencies } =
      { change found with
        dependencies := (change found).dependents, dependents := (change found).dependencies }) :
    (quotient.modify bin change).reverse = quotient.reverse.modify bin change' := by
  unfold Quotient.reverse Quotient.modify
  congr 1
  funext other
  by_cases hother : other = bin
  · subst hother
    simp [hchange]
  · simp [hother]

/-- Moving a dependent is moving a dependency the other way round. -/
theorem reverse_moveDependency :
    (moveDependency targetBin sourceBin quotient dependency).reverse =
      moveDependent targetBin sourceBin quotient.reverse dependency := by
  have hdelete : (quotient.deleteDependent dependency sourceBin).reverse =
      quotient.reverse.deleteDependency dependency sourceBin := reverse_modify fun _ => rfl
  unfold moveDependency moveDependent
  dsimp only
  split
  · exact hdelete
  · rw [← hdelete]
    have hadd : ((quotient.deleteDependent dependency sourceBin).addDependency targetBin
        dependency).reverse =
          (quotient.deleteDependent dependency sourceBin).reverse.addDependent targetBin
            dependency := reverse_modify fun _ => rfl
    rw [← hadd]
    exact reverse_modify fun _ => rfl

theorem reverse_foldl_moveDependency :
    (moved.foldl (moveDependency targetBin sourceBin) quotient).reverse =
      moved.foldl (moveDependent targetBin sourceBin) quotient.reverse := by
  induction moved generalizing quotient with
  | nil => rfl
  | cons dependency rest ih => rw [foldl_cons, ih, reverse_moveDependency, foldl_cons]

theorem SameMembers.moveDependency :
    SameMembers quotient (moveDependency targetBin sourceBin quotient dependency) := by
  unfold ShardPlanner.moveDependency
  split
  · exact .deleteDependent
  · exact SameMembers.deleteDependent.trans (SameMembers.addDependency.trans .addDependent)

/-- What moving dependencies does to the edge sets. -/
structure MovesDependencies (targetBin sourceBin : String) (moved : List String)
    (quotient quotient' : Quotient) : Prop where
  same : SameMembers quotient quotient'
  dependencies : ∀ source target, target ∈ (quotient'.bins source).dependencies ↔
    target ∈ (quotient.bins source).dependencies ∨
      source = targetBin ∧ target ∈ moved ∧ target ≠ targetBin
  dependents : ∀ source target, target ∈ (quotient'.bins source).dependents ↔
    target ∈ (quotient.bins source).dependents ∧ ¬ (source ∈ moved ∧ target = sourceBin) ∨
      source ∈ moved ∧ source ≠ targetBin ∧ target = targetBin

theorem foldl_moveDependency (hne : targetBin ≠ sourceBin) :
    MovesDependencies targetBin sourceBin moved quotient
      (moved.foldl (moveDependency targetBin sourceBin) quotient) := by
  induction moved generalizing quotient with
  | nil =>
    constructor
    · exact .refl
    · simp
    · simp
  | cons dependency rest ih =>
    obtain ⟨hsame, hdependencies, hdependents⟩ :=
      @ih (moveDependency targetBin sourceBin quotient dependency)
    rw [foldl_cons]
    constructor
    · exact SameMembers.moveDependency.trans hsame
    · intro source target
      rw [hdependencies]
      by_cases heq : dependency = targetBin
      · simp only [moveDependency, if_pos heq, dependencies_deleteDependent, mem_cons]
        grind
      · simp only [moveDependency, if_neg heq, dependencies_addDependent,
          mem_dependencies_addDependency, dependencies_deleteDependent, mem_cons]
        grind
    · intro source target
      rw [hdependents]
      by_cases heq : dependency = targetBin
      · simp only [moveDependency, if_pos heq, mem_dependents_deleteDependent, mem_cons]
        grind
      · simp only [moveDependency, if_neg heq, mem_dependents_addDependent,
          dependents_addDependency, mem_dependents_deleteDependent, mem_cons]
        grind

/-- What moving dependents does to the edge sets. -/
structure MovesDependents (targetBin sourceBin : String) (moved : List String)
    (quotient quotient' : Quotient) : Prop where
  same : SameMembers quotient quotient'
  dependents : ∀ source target, target ∈ (quotient'.bins source).dependents ↔
    target ∈ (quotient.bins source).dependents ∨
      source = targetBin ∧ target ∈ moved ∧ target ≠ targetBin
  dependencies : ∀ source target, target ∈ (quotient'.bins source).dependencies ↔
    target ∈ (quotient.bins source).dependencies ∧ ¬ (source ∈ moved ∧ target = sourceBin) ∨
      source ∈ moved ∧ source ≠ targetBin ∧ target = targetBin

theorem foldl_moveDependent (hne : targetBin ≠ sourceBin) :
    MovesDependents targetBin sourceBin moved quotient
      (moved.foldl (moveDependent targetBin sourceBin) quotient) := by
  have hmoves : MovesDependencies targetBin sourceBin moved quotient.reverse _ :=
    foldl_moveDependency hne
  have hreverse : (moved.foldl (moveDependency targetBin sourceBin) quotient.reverse).reverse =
      moved.foldl (moveDependent targetBin sourceBin) quotient := reverse_foldl_moveDependency
  rw [← hreverse]
  exact ⟨⟨hmoves.same.1, hmoves.same.2, hmoves.same.3⟩, hmoves.dependencies, hmoves.dependents⟩

theorem foldl_moveComponent (hdistinct : ∀ bin, (quotient.bins bin).componentSha256s.Nodup) :
    let quotient' := moved.foldl (moveComponent targetBin) quotient
    quotient'.activeBins = quotient.activeBins ∧
      (∀ sha256, quotient'.binByComponentSha256 sha256 =
        if sha256 ∈ moved then some targetBin else quotient.binByComponentSha256 sha256) ∧
      (∀ bin, (quotient'.bins bin).componentSha256s.Nodup ∧
        (quotient'.bins bin).dependencies = (quotient.bins bin).dependencies ∧
        (quotient'.bins bin).dependents = (quotient.bins bin).dependents) ∧
      ∀ bin sha256, sha256 ∈ (quotient'.bins bin).componentSha256s ↔
        sha256 ∈ (quotient.bins bin).componentSha256s ∨ bin = targetBin ∧ sha256 ∈ moved := by
  induction moved generalizing quotient with
  | nil => simp [hdistinct]
  | cons component rest ih =>
    have hnext : ∀ bin, ((moveComponent targetBin quotient component).bins bin) =
        if bin = targetBin then
          { quotient.bins bin with
            componentSha256s := addMember component (quotient.bins bin).componentSha256s }
        else quotient.bins bin := by
      intro bin
      exact @modify_bins quotient targetBin (fun found =>
        { found with componentSha256s := addMember component found.componentSha256s }) bin
    obtain ⟨hactive, hbinOf, hkept, hmembers⟩ := @ih
      (moveComponent targetBin quotient component) fun bin => by
        rw [hnext]
        split
        · exact nodup_addMember (hdistinct bin)
        · exact hdistinct bin
    rw [foldl_cons]
    refine ⟨hactive, fun sha256 => ?_, fun bin => ⟨(hkept bin).1, ?_, ?_⟩, fun bin sha256 => ?_⟩
    · rw [hbinOf]
      by_cases hsha256 : sha256 = component
      · simp [moveComponent, hsha256]
      · simp [moveComponent, hsha256]
    · rw [(hkept bin).2.1, hnext]
      split <;> rfl
    · rw [(hkept bin).2.2, hnext]
      split <;> rfl
    · rw [hmembers, hnext]
      split
      · rename_i hbin
        simp [hbin, or_assoc]
      · rename_i hbin
        simp [hbin]

/-- The graph after a merge is the contraction of the graph before. -/
structure Contracts (components : List Component) (targetBin sourceBin : String)
    (quotient quotient' : Quotient) : Prop where
  activeBins : quotient'.activeBins = deleteMember sourceBin quotient.activeBins
  binByComponentSha256 : ∀ sha256, quotient'.binByComponentSha256 sha256 =
    (quotient.binByComponentSha256 sha256).map (Contraction.collapse targetBin sourceBin)
  members : ∀ bin sha256, sha256 ∈ (quotient'.bins bin).componentSha256s ↔
    quotient'.binByComponentSha256 sha256 = some bin
  members_distinct : ∀ bin, (quotient'.bins bin).componentSha256s.Nodup
  dependencies : ∀ source target, target ∈ (quotient'.bins source).dependencies ↔
    Contraction.Contracted (BinEdge components quotient) targetBin sourceBin source target
  dependents : ∀ source target, target ∈ (quotient'.bins source).dependents ↔
    Contraction.Contracted (BinEdge components quotient) targetBin sourceBin target source

theorem Represents.contracts (hrepresents : Represents components quotient)
    (hne : targetBin ≠ sourceBin) :
    Contracts components targetBin sourceBin quotient
      (contractQuotientBins quotient targetBin sourceBin) := by
  have hirreflexive : ∀ bin, ¬ BinEdge components quotient bin bin := fun bin hedge => hedge.1 rfl
  have hselected : ∀ bin, bin ∈ (quotient.bins sourceBin).dependencies ↔
      BinEdge components quotient sourceBin bin := hrepresents.dependencies sourceBin
  obtain ⟨hsame₁, hdependencies₁, hdependents₁⟩ :=
    @foldl_moveDependency quotient targetBin sourceBin (quotient.bins sourceBin).dependencies hne
  set moved₁ := (quotient.bins sourceBin).dependencies.foldl
    (moveDependency targetBin sourceBin) quotient with hmoved₁
  have hselected₁ : ∀ bin, bin ∈ (moved₁.bins sourceBin).dependents ↔
      BinEdge components quotient bin sourceBin := by
    intro bin
    rw [hdependents₁, hselected, hrepresents.dependents]
    tauto
  obtain ⟨hsame₂, hdependents₂, hdependencies₂⟩ :=
    @foldl_moveDependent moved₁ targetBin sourceBin (moved₁.bins sourceBin).dependents hne
  set moved₂ := (moved₁.bins sourceBin).dependents.foldl
    (moveDependent targetBin sourceBin) moved₁ with hmoved₂
  set moved₃ := (moved₂.deleteDependency targetBin sourceBin).deleteDependent
    targetBin sourceBin with hmoved₃
  have hsame₃ : SameMembers quotient moved₃ :=
    hsame₁.trans (hsame₂.trans (SameMembers.deleteDependency.trans .deleteDependent))
  obtain ⟨hactive, hbinOf, hkept, hmembers⟩ :=
    @foldl_moveComponent moved₃ targetBin (moved₃.bins sourceBin).componentSha256s fun bin => by
      rw [hsame₃.componentSha256s]
      exact hrepresents.members_distinct bin
  set moved₄ := (moved₃.bins sourceBin).componentSha256s.foldl (moveComponent targetBin) moved₃
    with hmoved₄
  have hbins : ∀ bin, (contractQuotientBins quotient targetBin sourceBin).bins bin =
      if bin = sourceBin then emptyBin else moved₄.bins bin := by
    intro bin
    exact @modify_bins moved₄ sourceBin (fun _ => emptyBin) bin
  have hsourceMembers : ∀ sha256, sha256 ∈ (moved₃.bins sourceBin).componentSha256s ↔
      quotient.binByComponentSha256 sha256 = some sourceBin := by
    intro sha256
    rw [hsame₃.componentSha256s, hrepresents.members]
  have hcollapse : ∀ sha256, moved₄.binByComponentSha256 sha256 =
      (quotient.binByComponentSha256 sha256).map (Contraction.collapse targetBin sourceBin) := by
    intro sha256
    rw [hbinOf, hsame₃.binByComponentSha256]
    cases hbin : quotient.binByComponentSha256 sha256 with
    | none => simp [hsourceMembers, hbin]
    | some bin => simp [hsourceMembers, hbin, Contraction.collapse, apply_ite some]
  constructor
  · exact congrArg (deleteMember sourceBin) (hactive.trans hsame₃.activeBins)
  · exact hcollapse
  · intro bin sha256
    have heq : (contractQuotientBins quotient targetBin sourceBin).binByComponentSha256 sha256 =
        (quotient.binByComponentSha256 sha256).map (Contraction.collapse targetBin sourceBin) :=
      hcollapse sha256
    rw [heq, hbins, Option.map_eq_some_iff]
    simp only [Contraction.collapse_eq_iff hne]
    split
    · rename_i hbin
      simp [emptyBin, hbin]
    · rw [hmembers, hsourceMembers, hsame₃.componentSha256s, hrepresents.members]
      grind
  · intro bin
    rw [hbins]
    split
    · exact nodup_nil
    · exact (hkept bin).1
  · intro source target
    rw [Contraction.contracted_iff hne, hbins]
    split
    · rename_i hsource
      simp [emptyBin, hsource]
    · rw [(hkept source).2.1, dependencies_deleteDependent, mem_dependencies_deleteDependency,
        hdependencies₂, hdependencies₁, hselected₁, hselected, hrepresents.dependencies]
      grind
  · intro source target
    rw [Contraction.contracted_iff hne, hbins]
    split
    · rename_i hsource
      simp [emptyBin, hsource]
    · rw [(hkept source).2.2, mem_dependents_deleteDependent, dependents_deleteDependency,
        hdependents₂, hdependents₁, hselected₁, hselected, hrepresents.dependents]
      grind

theorem Contracts.binEdge_iff (hcontracts : Contracts components targetBin sourceBin quotient
    quotient') : BinEdge components quotient' source target ↔
      Contraction.Contracted (BinEdge components quotient) targetBin sourceBin source target := by
  rw [BinEdge, funext hcontracts.binByComponentSha256]
  exact Contraction.labelled_collapse

variable (hrepresents : Represents components quotient)
include hrepresents

/-- A merge of two active bins keeps the state that of a contracted graph. -/
theorem Represents.contract (htarget : targetBin ∈ quotient.activeBins)
    (hne : targetBin ≠ sourceBin) :
    Represents components (contractQuotientBins quotient targetBin sourceBin) := by
  have hcontracts := hrepresents.contracts hne
  constructor
  · rw [hcontracts.activeBins]
    exact hrepresents.distinct.filter _
  · intro bin hbin
    rw [hcontracts.activeBins, mem_deleteMember] at hbin
    rw [hcontracts.binByComponentSha256, hrepresents.founder bin hbin.1, Option.map_some,
      Contraction.collapse, if_neg hbin.2]
  · intro sha256 bin hfound
    rw [hcontracts.binByComponentSha256, Option.map_eq_some_iff] at hfound
    obtain ⟨before, hbefore, hcollapse⟩ := hfound
    obtain ⟨hother, heq | ⟨rfl, _⟩⟩ := (Contraction.collapse_eq_iff hne).mp hcollapse
    · rw [hcontracts.activeBins, mem_deleteMember]
      exact ⟨heq ▸ hrepresents.active sha256 before hbefore, hother⟩
    · rw [hcontracts.activeBins, mem_deleteMember]
      exact ⟨htarget, hne⟩
  · intro sha256
    rw [hcontracts.binByComponentSha256, ← hrepresents.known]
    cases quotient.binByComponentSha256 sha256 with
    | none => simp
    | some bin => simp
  · exact hcontracts.members
  · exact hcontracts.members_distinct
  · intro source target
    rw [hcontracts.dependencies, hcontracts.binEdge_iff]
  · intro source target
    rw [hcontracts.dependents, hcontracts.binEdge_iff]

theorem Represents.mem_of_binEdge (hedge : BinEdge components quotient source target) :
    source ∈ quotient.activeBins ∧ target ∈ quotient.activeBins := by
  obtain ⟨_, first, second, _, hsource, htarget⟩ := hedge
  exact ⟨hrepresents.active first source hsource, hrepresents.active second target htarget⟩

theorem Represents.quotientHasIndirectPath_iff (hacyclic : Acyclic (BinEdge components quotient))
    (hsource : source ∈ quotient.activeBins) (hne : source ≠ target) :
    quotientHasIndirectPath quotient source target = true ↔
      Contraction.IndirectPath (BinEdge components quotient) source target := by
  have hadjacent : Contraction.Adjacent (fun bin => (quotient.bins bin).dependencies) =
      BinEdge components quotient := by
    funext first second
    exact propext (hrepresents.dependencies first second)
  rw [← hadjacent] at hacyclic ⊢
  apply Contraction.hasIndirectPath_iff hrepresents.distinct _ hacyclic hsource hne
    (Nat.lt_succ_self _)
  intro bin _ next hnext
  exact (hrepresents.mem_of_binEdge ((hrepresents.dependencies bin next).mp hnext)).2

/-- Two active bins can be merged exactly when that closes no cycle. -/
theorem Represents.quotientCanMerge (hacyclic : Acyclic (BinEdge components quotient))
    (htarget : targetBin ∈ quotient.activeBins) (hsource : sourceBin ∈ quotient.activeBins)
    (hne : targetBin ≠ sourceBin) :
    ∃ allowed, ShardPlanner.quotientCanMerge quotient targetBin sourceBin = .ok allowed ∧
      (allowed = true ↔ Acyclic (Contraction.Contracted (BinEdge components quotient)
        targetBin sourceBin)) := by
  have hallowed : ShardPlanner.quotientCanMerge quotient targetBin sourceBin =
      .ok (!quotientHasIndirectPath quotient targetBin sourceBin &&
        !quotientHasIndirectPath quotient sourceBin targetBin) := by
    rw [ShardPlanner.quotientCanMerge, if_neg (by simp [htarget, hsource]), if_neg hne]
  refine ⟨_, hallowed, ?_⟩
  rw [Contraction.acyclic_contracted_iff hacyclic, Bool.and_eq_true, Bool.not_eq_true',
    Bool.not_eq_true', ← Bool.not_eq_true, ← Bool.not_eq_true,
    hrepresents.quotientHasIndirectPath_iff hacyclic htarget hne,
    hrepresents.quotientHasIndirectPath_iff hacyclic hsource hne.symm]

end Merging

end ConvexWasm.ShardPlanner
