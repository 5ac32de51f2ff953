import ConvexWasm.ShardPlanner.WellFormed
import ConvexWasm.ShardPlanner.ReferencePlacement

/-!
# The placement refines the reference

Step by step the bins and the patched graph stand for the groups of the
reference, so that a merge is allowed in one exactly when the other finds an
order, and both place every component in the same bin.
-/

namespace ConvexWasm.ShardPlanner

open Fallible Function Relation TopologicalOrder
open List hiding beq_eq_decide

variable {components : List Component} {componentGroups : List (List String)} {sha256 : String}

variable {label : String → Option String} {targetGroup sourceGroup group : List String}
  {first second targetBin sourceBin target : String}

theorem group_eq (hdistinct : componentGroups.flatten.Nodup) {other : List String}
    (hgroup : group ∈ componentGroups) (hother : other ∈ componentGroups) (hmem : sha256 ∈ group)
    (hmemOther : sha256 ∈ other) : group = other := by
  have hall : (componentGroups.flatMap fun group => group).Nodup := by rwa [flatMap_id']
  exact eq_of_mem_members hall hgroup hother hmem hmemOther

/-- The groups as a labelling: what is in one group has one index. -/
structure Grouping (label : String → Option String) (componentGroups : List (List String)) :
    Prop where
  distinct : componentGroups.flatten.Nodup
  labelled : ∀ sha256, (∃ name, label sha256 = some name) ↔ sha256 ∈ componentGroups.flatten
  same : ∀ first second name, label first = some name →
    (label second = some name ↔ ∃ group ∈ componentGroups, first ∈ group ∧ second ∈ group)

section

variable (hgrouping : Grouping label componentGroups)
include hgrouping

theorem Grouping.sameClasses : Contraction.SameClasses label (groupIndex componentGroups) where
  labelled sha256 := by
    rw [hgrouping.labelled, mem_flatten]
    simp only [groupIndex_eq_some hgrouping.distinct]
    constructor
    · rintro ⟨group, hgroup, hmem⟩
      obtain ⟨index, hindex⟩ := List.getElem?_of_mem hgroup
      exact ⟨index, group, hindex, hmem⟩
    · rintro ⟨index, group, hindex, hmem⟩
      exact ⟨group, mem_of_getElem? hindex, hmem⟩
  same first second name hfirst := by
    rw [hgrouping.same first second name hfirst]
    have hknown := (hgrouping.labelled first).mp ⟨name, hfirst⟩
    obtain ⟨group, hgroup, hmem⟩ := mem_flatten.mp hknown
    obtain ⟨index, hindex⟩ := List.getElem?_of_mem hgroup
    have hfirstIndex := (groupIndex_eq_some hgrouping.distinct).mpr ⟨group, hindex, hmem⟩
    rw [hfirstIndex, eq_comm, groupIndex_eq_some hgrouping.distinct]
    constructor
    · rintro ⟨other, hother, hmemOther, hsecond⟩
      rw [group_eq hgrouping.distinct hother hgroup hmemOther hmem] at hsecond
      exact ⟨group, hindex, hsecond⟩
    · rintro ⟨other, hother, hsecond⟩
      rw [hindex] at hother
      cases hother
      exact ⟨group, hgroup, hmem, hsecond⟩

/-- The group of a member has what shares its label. -/
theorem Grouping.mem_group_iff (hgroup : group ∈ componentGroups) (hmem : first ∈ group)
    {name : String} (hname : label first = some name) :
    second ∈ group ↔ label second = some name := by
  rw [hgrouping.same first second name hname]
  constructor
  · exact fun hsecond => ⟨group, hgroup, hmem, hsecond⟩
  · rintro ⟨other, hother, hfirst, hsecond⟩
    rwa [group_eq hgrouping.distinct hgroup hother hmem hfirst]

theorem Grouping.exists_group {name : String} (hname : label first = some name) :
    ∃ group ∈ componentGroups, first ∈ group :=
  mem_flatten.mp ((hgrouping.labelled first).mp ⟨name, hname⟩)

end

theorem Partition.groups_nodup (hpartition : Partition components componentGroups)
    (hdistinct : componentGroups.flatten.Nodup) : componentGroups.Nodup := by
  apply (nodup_flatten.mp hdistinct).2.imp_of_mem
  intro group other hgroup _ hdisjoint heq
  obtain ⟨member, hmember⟩ := exists_mem_of_ne_nil _ (hpartition.nonempty group hgroup)
  exact hdisjoint hmember (heq ▸ hmember)

/-- The groups after two of them are merged. -/
def mergedGroups (componentGroups : List (List String)) (targetGroup sourceGroup : List String) :
    List (List String) :=
  componentGroups.filter (fun componentSha256s =>
      componentSha256s ≠ targetGroup && componentSha256s ≠ sourceGroup) ++
    [sortStrings (targetGroup ++ sourceGroup)]

theorem mem_mergedGroups : group ∈ mergedGroups componentGroups targetGroup sourceGroup ↔
    group ∈ componentGroups ∧ group ≠ targetGroup ∧ group ≠ sourceGroup ∨
      group = sortStrings (targetGroup ++ sourceGroup) := by
  rw [mergedGroups, mem_append, mem_filter, mem_singleton, Bool.and_eq_true,
    decide_eq_true_iff, decide_eq_true_iff]

theorem Partition.merge (hpartition : Partition components componentGroups)
    (hdistinct : componentGroups.flatten.Nodup) (htarget : targetGroup ∈ componentGroups)
    (hsource : sourceGroup ∈ componentGroups) (hne : targetGroup ≠ sourceGroup) :
    Partition components (mergedGroups componentGroups targetGroup sourceGroup) := by
  have hgroups := hpartition.groups_nodup hdistinct
  constructor
  · intro group hgroup
    rcases mem_mergedGroups.mp hgroup with ⟨hgroup, _⟩ | rfl
    · exact hpartition.nonempty group hgroup
    · intro hnil
      have hlength := (@sortStrings_perm (targetGroup ++ sourceGroup)).length_eq
      rw [hnil, length_append, length_nil] at hlength
      have hpos := length_pos_of_ne_nil (hpartition.nonempty targetGroup htarget)
      omega
  · have hothers : componentGroups.Perm (targetGroup :: sourceGroup ::
        componentGroups.filter (fun componentSha256s =>
          componentSha256s ≠ targetGroup && componentSha256s ≠ sourceGroup)) := by
      have hsourceErased : sourceGroup ∈ componentGroups.erase targetGroup :=
        (mem_erase_of_ne hne.symm).mpr hsource
      have herased : (componentGroups.erase targetGroup).erase sourceGroup =
          componentGroups.filter (fun componentSha256s =>
            componentSha256s ≠ targetGroup && componentSha256s ≠ sourceGroup) := by
        rw [(hgroups.erase targetGroup).erase_eq_filter, hgroups.erase_eq_filter, filter_filter]
        apply filter_congr
        intro group _
        rw [Bool.and_comm]
        simp [bne, decide_not, beq_eq_decide]
      rw [← herased]
      exact (perm_cons_erase htarget).trans ((perm_cons_erase hsourceErased).cons targetGroup)
    refine List.Perm.trans ?_ hpartition.perm
    refine List.Perm.trans ?_ hothers.flatten.symm
    rw [mergedGroups, flatten_append, flatten_singleton, flatten_cons, flatten_cons, ← append_assoc]
    exact perm_append_comm.trans (sortStrings_perm.append_right _)

theorem Grouping.merge (hgrouping : Grouping label componentGroups)
    (hpartition : Partition components componentGroups) {targetMember sourceMember : String}
    (htarget : targetGroup ∈ componentGroups) (hsource : sourceGroup ∈ componentGroups)
    (htargetMember : targetMember ∈ targetGroup) (hsourceMember : sourceMember ∈ sourceGroup)
    (htargetName : label targetMember = some targetBin)
    (hsourceName : label sourceMember = some sourceBin) (hne : targetBin ≠ sourceBin) :
    Grouping (fun sha256 => (label sha256).map (Contraction.collapse targetBin sourceBin))
      (mergedGroups componentGroups targetGroup sourceGroup) := by
  have htargetIff : ∀ sha256, sha256 ∈ targetGroup ↔ label sha256 = some targetBin :=
    fun sha256 => hgrouping.mem_group_iff htarget htargetMember htargetName
  have hsourceIff : ∀ sha256, sha256 ∈ sourceGroup ↔ label sha256 = some sourceBin :=
    fun sha256 => hgrouping.mem_group_iff hsource hsourceMember hsourceName
  have hneGroups : targetGroup ≠ sourceGroup := by
    intro heq
    have hboth := (hsourceIff targetMember).mp (heq ▸ htargetMember)
    exact hne (Option.some_injective _ (htargetName.symm.trans hboth))
  have hmerged := hpartition.merge hgrouping.distinct htarget hsource hneGroups
  have hflatten := hmerged.perm.trans hpartition.perm.symm
  constructor
  · exact hflatten.nodup_iff.mpr hgrouping.distinct
  · intro sha256
    rw [hflatten.mem_iff, ← hgrouping.labelled]
    cases label sha256 with
    | none => simp
    | some name => simp
  · intro first second name hfirst
    obtain ⟨before, hbefore, hcollapse⟩ := Option.map_eq_some_iff.mp hfirst
    have hsecond : (label second).map (Contraction.collapse targetBin sourceBin) = some name ↔
        name ≠ sourceBin ∧ (label second = some name ∨
          name = targetBin ∧ label second = some sourceBin) :=
      Contraction.map_collapse_eq_some hne
    have hgroups : (∃ group ∈ mergedGroups componentGroups targetGroup sourceGroup,
        first ∈ group ∧ second ∈ group) ↔
          (∃ group ∈ componentGroups, group ≠ targetGroup ∧ group ≠ sourceGroup ∧
            first ∈ group ∧ second ∈ group) ∨
          (first ∈ targetGroup ∨ first ∈ sourceGroup) ∧
            (second ∈ targetGroup ∨ second ∈ sourceGroup) := by
      simp [mem_mergedGroups, and_assoc]
    rw [hsecond, hgroups]
    obtain ⟨hname, hcases⟩ := (Contraction.collapse_eq_iff hne).mp hcollapse
    by_cases hmoved : first ∈ targetGroup ∨ first ∈ sourceGroup
    · -- Both groups get the name of the target.
      have hnone : ¬ ∃ group ∈ componentGroups, group ≠ targetGroup ∧ group ≠ sourceGroup ∧
          first ∈ group ∧ second ∈ group := by
        rintro ⟨group, hgroup, hneTarget, hneSource, hmem, _⟩
        rcases hmoved with hmemTarget | hmemSource
        · exact hneTarget (group_eq hgrouping.distinct hgroup htarget hmem hmemTarget)
        · exact hneSource (group_eq hgrouping.distinct hgroup hsource hmem hmemSource)
      rw [or_iff_right hnone, and_iff_right hmoved, htargetIff, hsourceIff]
      have htargetName' : name = targetBin := by grind
      subst htargetName'
      rw [and_iff_right hname]
      simp
    · -- The other groups stay as they are.
      rw [htargetIff, hsourceIff, hbefore] at hmoved
      have hsame : before = name ∧ name ≠ targetBin := by grind
      obtain ⟨rfl, hneTarget⟩ := hsame
      rw [and_iff_right hname, or_iff_left (fun hboth => hneTarget hboth.1),
        hgrouping.same first second before hbefore]
      constructor
      · rintro ⟨group, hgroup, hmem, hsecondMem⟩
        refine .inl ⟨group, hgroup, fun heq => hmoved (.inl ?_), fun heq => hmoved (.inr ?_), hmem,
          hsecondMem⟩
        · rw [← hbefore]
          exact (htargetIff first).mp (heq ▸ hmem)
        · rw [← hbefore]
          exact (hsourceIff first).mp (heq ▸ hmem)
      · rintro (⟨group, hgroup, _, _, hmem, hsecondMem⟩ | ⟨hfirstMem, _⟩)
        · exact ⟨group, hgroup, hmem, hsecondMem⟩
        · rw [htargetIff, hsourceIff, hbefore] at hfirstMem
          exact absurd hfirstMem hmoved

theorem Grouping.referenceMergedGroups (hgrouping : Grouping label componentGroups)
    (htargetName : label first = some targetBin) (hsourceName : label second = some sourceBin)
    (hne : targetBin ≠ sourceBin) (halone : ∀ other, label other = some sourceBin → other = second) :
    ∃ targetGroup ∈ componentGroups, ∃ sourceGroup ∈ componentGroups, first ∈ targetGroup ∧
      second ∈ sourceGroup ∧ ShardPlanner.referenceMergedGroups componentGroups first second =
        .ok (mergedGroups componentGroups targetGroup sourceGroup) := by
  obtain ⟨targetGroup, htarget, hfirst⟩ := hgrouping.exists_group htargetName
  obtain ⟨sourceGroup, hsource, hsecond⟩ := hgrouping.exists_group hsourceName
  have hall : (componentGroups.flatMap fun group => group).Nodup := by
    rw [flatMap_id']
    exact hgrouping.distinct
  have hneGroups : targetGroup ≠ sourceGroup := by
    intro heq
    have hboth := (hgrouping.mem_group_iff hsource hsecond hsourceName).mp (heq ▸ hfirst)
    exact hne (Option.some_injective _ (htargetName.symm.trans hboth))
  have hsingle : sourceGroup.length = 1 := by
    have hnodup := (nodup_flatten.mp hgrouping.distinct).1 sourceGroup hsource
    have hperm : sourceGroup.Perm [second] := by
      apply (perm_ext_iff_of_nodup hnodup (nodup_singleton _)).mpr
      intro other
      rw [hgrouping.mem_group_iff hsource hsecond hsourceName, mem_singleton]
      exact ⟨halone other, fun heq => heq ▸ hsourceName⟩
    exact hperm.length_eq
  refine ⟨targetGroup, htarget, sourceGroup, hsource, hfirst, hsecond, ?_⟩
  rw [ShardPlanner.referenceMergedGroups, find?_member_eq hall htarget hfirst,
    find?_member_eq hall hsource hsecond]
  dsimp only
  rw [if_neg hneGroups, if_neg (not_not.mpr hsingle)]
  rfl

variable {placed : List Component} {policy : Policy} {component : Component} {quotient : Quotient}
  {bins : List Bin} {bin : Bin} {index : ℕ} {name : String}

/-- The bins are those of the contracted graph that hold placed components, and
each component that waits is in a bin of its own. -/
structure Placed (components : List Component) (quotient : Quotient) (bins : List Bin) : Prop where
  represents : Represents components quotient
  acyclic : Acyclic (BinEdge components quotient)
  held : ∀ bin ∈ bins, ∃ name ∈ quotient.activeBins,
    bin.componentSha256s.Perm (quotient.bins name).componentSha256s
  distinct : (bins.flatMap (·.componentSha256s)).Nodup
  alone : ∀ sha256 ∈ components.map (·.componentSha256),
    sha256 ∉ bins.flatMap (·.componentSha256s) → ∀ other,
      quotient.binByComponentSha256 other = quotient.binByComponentSha256 sha256 → other = sha256

theorem Represents.name_of_founder (hrepresents : Represents components quotient)
    (hfound : quotient.binByComponentSha256 sha256 = some name) :
    quotientBinForComponent quotient sha256 = .ok name := by
  rw [quotientBinForComponent, hfound]
  exact if_pos (hrepresents.active sha256 name hfound)

section

variable (hplaced : Placed components quotient bins)
include hplaced

/-- A bin has a name in the contracted graph. -/
theorem Placed.exists_name (hbin : bin ∈ bins) :
    ∃ name, name ∈ quotient.activeBins ∧ name ∈ bin.componentSha256s ∧
      (∀ sha256, sha256 ∈ bin.componentSha256s ↔ quotient.binByComponentSha256 sha256 = some name) ∧
      bin.componentSha256s.headD "" ∈ bin.componentSha256s := by
  obtain ⟨name, hactive, hperm⟩ := hplaced.held bin hbin
  have hmem : ∀ sha256, sha256 ∈ bin.componentSha256s ↔
      quotient.binByComponentSha256 sha256 = some name := by
    intro sha256
    rw [hperm.mem_iff, hplaced.represents.members]
  have hname := (hmem name).mpr (hplaced.represents.founder name hactive)
  refine ⟨name, hactive, hname, hmem, ?_⟩
  cases hmembers : bin.componentSha256s with
  | nil =>
    rw [hmembers] at hname
    cases hname
  | cons head rest => exact mem_cons_self

/-- A component that waits names its bin. -/
theorem Placed.waiting (hknown : sha256 ∈ components.map (·.componentSha256))
    (hfresh : sha256 ∉ bins.flatMap (·.componentSha256s)) :
    quotient.binByComponentSha256 sha256 = some sha256 ∧ sha256 ∈ quotient.activeBins ∧
      ∀ other, quotient.binByComponentSha256 other = some sha256 → other = sha256 := by
  obtain ⟨name, hname⟩ := (hplaced.represents.known sha256).mpr hknown
  have hactive := hplaced.represents.active sha256 name hname
  have hfounder := hplaced.represents.founder name hactive
  have heq := hplaced.alone sha256 hknown hfresh name (hfounder.trans hname.symm)
  subst heq
  exact ⟨hname, hactive, fun other hother =>
    hplaced.alone name hknown hfresh other (hother.trans hname.symm)⟩

theorem Placed.append (hknown : component.componentSha256 ∈ components.map (·.componentSha256))
    (hfresh : component.componentSha256 ∉ bins.flatMap (·.componentSha256s)) (oversize : Bool) :
    Placed components quotient (bins ++ [singletonBin component oversize]) := by
  obtain ⟨hname, hactive, halone⟩ := hplaced.waiting hknown hfresh
  have hmembers : (bins ++ [singletonBin component oversize]).flatMap (·.componentSha256s) =
      bins.flatMap (·.componentSha256s) ++ [component.componentSha256] := by
    rw [flatMap_append]
    rfl
  constructor
  · exact hplaced.represents
  · exact hplaced.acyclic
  · intro bin hbin
    rcases mem_append.mp hbin with hbin | hbin
    · exact hplaced.held bin hbin
    · rw [mem_singleton.mp hbin]
      refine ⟨component.componentSha256, hactive, ?_⟩
      apply (perm_ext_iff_of_nodup (nodup_singleton _) (hplaced.represents.members_distinct _)).mpr
      intro other
      rw [mem_singleton, hplaced.represents.members]
      exact ⟨fun heq => heq ▸ hname, halone other⟩
  · rw [hmembers]
    exact nodup_append.mpr ⟨hplaced.distinct, nodup_singleton _,
      fun first hfirst second hsecond heq =>
        hfresh (mem_singleton.mp hsecond ▸ heq ▸ hfirst)⟩
  · intro sha256 hsha256 hfreshOther
    rw [hmembers, mem_append, not_or] at hfreshOther
    exact hplaced.alone sha256 hsha256 hfreshOther.1

/-- The merge of the bin of a component that waits keeps the bins in step. -/
theorem Placed.merge (hfound : bins[index]? = some bin)
    (hknown : component.componentSha256 ∈ components.map (·.componentSha256))
    (hfresh : component.componentSha256 ∉ bins.flatMap (·.componentSha256s))
    (hname : ∀ sha256, sha256 ∈ bin.componentSha256s ↔
      quotient.binByComponentSha256 sha256 = some name) (hactive : name ∈ quotient.activeBins)
    (hne : name ≠ component.componentSha256)
    (hallowed : Acyclic (Contraction.Contracted (BinEdge components quotient) name
      component.componentSha256)) {extended : Bin} (hextended : extended.componentSha256s =
      bin.componentSha256s ++ [component.componentSha256]) :
    Placed components (contractQuotientBins quotient name component.componentSha256)
      (bins.set index extended) := by
  obtain ⟨hsource, _, halone⟩ := hplaced.waiting hknown hfresh
  have hcontracts := hplaced.represents.contracts hne
  have hrepresents := hplaced.represents.contract hactive hne
  obtain ⟨before, after, hsplit, hset⟩ := exists_split hfound
  have hperm := flatMap_set_perm hfound hextended
  have hdistinct : ((bins.set index extended).flatMap (·.componentSha256s)).Nodup := by
    apply hperm.nodup_iff.mpr
    exact nodup_append.mpr ⟨hplaced.distinct, nodup_singleton _,
      fun first hfirst second hsecond heq =>
        hfresh (mem_singleton.mp hsecond ▸ heq ▸ hfirst)⟩
  have hcollapse : ∀ sha256 other,
      (contractQuotientBins quotient name component.componentSha256).binByComponentSha256 sha256 =
        some other ↔ other ≠ component.componentSha256 ∧
          (quotient.binByComponentSha256 sha256 = some other ∨
            other = name ∧ sha256 = component.componentSha256) := by
    intro sha256 other
    have hsourceIff : quotient.binByComponentSha256 sha256 = some component.componentSha256 ↔
        sha256 = component.componentSha256 := ⟨halone sha256, fun heq => heq ▸ hsource⟩
    rw [hcontracts.binByComponentSha256, Contraction.map_collapse_eq_some hne, hsourceIff]
  constructor
  · exact hrepresents
  · have hedge : BinEdge components (contractQuotientBins quotient name
        component.componentSha256) = _ := funext fun source => funext fun target =>
      propext hcontracts.binEdge_iff
    rw [hedge]
    exact hallowed
  · intro other hother
    have hnodup := (nodup_flatMap.mp hdistinct).1 other hother
    have hmemExtended : extended ∈ bins.set index extended := by
      rw [hset]
      exact mem_append_right _ mem_cons_self
    by_cases heq : other = extended
    · refine ⟨name, ?_, ?_⟩
      · rw [hcontracts.activeBins, mem_deleteMember]
        exact ⟨hactive, hne⟩
      · apply (perm_ext_iff_of_nodup hnodup (hrepresents.members_distinct _)).mpr
        intro sha256
        rw [hrepresents.members, hcollapse, heq, hextended, mem_append, hname,
          mem_singleton, and_iff_right hne]
        simp
    · have hbin : other ∈ bins := by
        rw [hset] at hother
        rw [hsplit]
        simp only [mem_append, mem_cons] at hother ⊢
        tauto
      obtain ⟨otherName, hotherActive, hotherMember, hotherName, _⟩ := hplaced.exists_name hbin
      have hneSource : otherName ≠ component.componentSha256 := fun hsame =>
        hfresh (mem_flatMap.mpr ⟨other, hbin, hsame ▸ hotherMember⟩)
      have hneName : otherName ≠ name := by
        intro hsame
        apply heq
        apply eq_of_mem_members hdistinct hother hmemExtended hotherMember
        rw [hextended, hsame]
        exact mem_append_left _ ((hname name).mpr (hplaced.represents.founder name hactive))
      refine ⟨otherName, ?_, ?_⟩
      · rw [hcontracts.activeBins, mem_deleteMember]
        exact ⟨hotherActive, hneSource⟩
      · apply (perm_ext_iff_of_nodup hnodup (hrepresents.members_distinct _)).mpr
        intro sha256
        rw [hrepresents.members, hcollapse, hotherName]
        simp [hneSource, hneName]
  · exact hdistinct
  · intro sha256 hsha256 hfreshOther other heq
    rw [hperm.mem_iff, mem_append, not_or, mem_singleton] at hfreshOther
    obtain ⟨hwaiting, _, haloneOther⟩ := hplaced.waiting hsha256 hfreshOther.1
    have hsame : (contractQuotientBins quotient name
        component.componentSha256).binByComponentSha256 sha256 = some sha256 :=
      (hcollapse sha256 sha256).mpr ⟨hfreshOther.2, .inl hwaiting⟩
    rw [hsame] at heq
    obtain ⟨_, hother | ⟨hsame, _⟩⟩ := (hcollapse other sha256).mp heq
    · exact haloneOther other hother
    · have hmember : sha256 ∈ bin.componentSha256s := by
        rw [hname, hsame]
        exact hplaced.represents.founder name hactive
      exact absurd (mem_flatMap.mpr ⟨bin, mem_of_getElem? hfound, hmember⟩) hfreshOther.1

end

/-- The bin with a component more. -/
def extendedBin (bin : Bin) (component : Component) : Bin :=
  { bin with
    componentSha256s := bin.componentSha256s ++ [component.componentSha256]
    picObjectByteWeight := bin.picObjectByteWeight + component.picObjectByteWeight }

/-- What trying a bin for a component that waits comes to. -/
structure Attempt (components : List Component) (component : Component) (quotient : Quotient)
    (bins : List Bin) (index : ℕ) (bin : Bin) (name : String) (allowed : Bool) : Prop where
  names : ∀ sha256, sha256 ∈ bin.componentSha256s ↔ quotient.binByComponentSha256 sha256 = some name
  ne : name ≠ component.componentSha256
  waiting : quotient.binByComponentSha256 component.componentSha256 = some component.componentSha256
  alone : ∀ other, quotient.binByComponentSha256 other = some component.componentSha256 →
    other = component.componentSha256
  target : quotientBinForComponent quotient (bin.componentSha256s.headD "") = .ok name
  source : quotientBinForComponent quotient component.componentSha256 =
    .ok component.componentSha256
  canMerge : quotientCanMerge quotient name component.componentSha256 = .ok allowed
  allowed_iff : allowed = true ↔ Acyclic (Contraction.Labelled (ComponentEdge components)
    fun sha256 => (quotient.binByComponentSha256 sha256).map
      (Contraction.collapse name component.componentSha256))
  extend : extendBin bin component = .ok (extendedBin bin component)
  next : allowed = true →
    Placed components (contractQuotientBins quotient name component.componentSha256)
      (bins.set index (extendedBin bin component))

theorem Placed.attempt (hplaced : Placed components quotient bins)
    (htarget : policy.targetShardWeight ≤ maxSafeInteger) (hcomponent : component ∈ components)
    (hfresh : component.componentSha256 ∉ bins.flatMap (·.componentSha256s))
    (hfound : bins[index]? = some bin) (hfits : fits policy component bin = true) :
    ∃ name allowed, Attempt components component quotient bins index bin name allowed := by
  have hknown : component.componentSha256 ∈ components.map (·.componentSha256) :=
    mem_map_of_mem hcomponent
  have hbin : bin ∈ bins := mem_of_getElem? hfound
  obtain ⟨name, hactive, hmember, hname, hhead⟩ := hplaced.exists_name hbin
  obtain ⟨hsource, hsourceActive, halone⟩ := hplaced.waiting hknown hfresh
  have hne : name ≠ component.componentSha256 := fun heq =>
    hfresh (mem_flatMap.mpr ⟨bin, hbin, heq ▸ hmember⟩)
  obtain ⟨allowed, hcanMerge, hallowed⟩ :=
    hplaced.represents.quotientCanMerge hplaced.acyclic hactive hsourceActive hne
  have hedge : Contraction.Labelled (ComponentEdge components) (fun sha256 =>
      (quotient.binByComponentSha256 sha256).map
        (Contraction.collapse name component.componentSha256)) =
      Contraction.Contracted (BinEdge components quotient) name component.componentSha256 :=
    funext fun _ => funext fun _ => propext Contraction.labelled_collapse
  rw [fits, Bool.and_eq_true, decide_eq_true_iff] at hfits
  have hsafe : bin.picObjectByteWeight + component.picObjectByteWeight ≤ maxSafeInteger := by
    omega
  have hextend : extendBin bin component = .ok (extendedBin bin component) := by
    rw [extendBin, addSafeIntegers_of_le hsafe]
    rfl
  exact ⟨name, allowed,
    { names := hname
      ne := hne
      waiting := hsource
      alone := halone
      target := hplaced.represents.name_of_founder ((hname _).mp hhead)
      source := hplaced.represents.name_of_founder hsource
      canMerge := hcanMerge
      allowed_iff := hedge ▸ hallowed
      extend := hextend
      next := fun htrue =>
        hplaced.merge hfound hknown hfresh hname hactive hne (hallowed.mp htrue) rfl }⟩

variable {tried : List (ℕ × Bin)} {referenceBins : List ReferenceBin} {state : Quotient × List Bin}
  {reference : List (List String) × List ReferenceBin}

/-- The binding identity of a component, by which ties are broken. -/
def bindingOf (components : List Component) (componentSha256 : String) : String :=
  ((components.find? (·.componentSha256 = componentSha256)).map (·.componentBindingSha256)).getD ""

def toReference (bin : Bin) : ReferenceBin where
  componentSha256s := sortStrings bin.componentSha256s
  occurrenceCohortSha256s := bin.occurrenceCohortSha256s
  picObjectByteWeight := bin.picObjectByteWeight

/-- The two placements are in the same state. -/
structure Agree (components placed : List Component) (state : Quotient × List Bin)
    (reference : List (List String) × List ReferenceBin) : Prop where
  sound : Placed components state.1 state.2
  members : (state.2.flatMap (·.componentSha256s)).Perm (placed.map (·.componentSha256))
  partition : Partition components reference.1
  grouping : Grouping state.1.binByComponentSha256 reference.1
  bins : reference.2 = state.2.map toReference

/-- What trying one bin comes to in both placements. -/
structure Tried (components placed : List Component) (component : Component)
    (state : Quotient × List Bin) (reference : List (List String) × List ReferenceBin)
    (index : ℕ) (bin : Bin) (targetBin sourceBin : String) (allowed : Bool)
    (candidateGroups : List (List String)) (order : Option (List ℕ)) : Prop where
  target : quotientBinForComponent state.1 (bin.componentSha256s.headD "") = .ok targetBin
  source : quotientBinForComponent state.1 component.componentSha256 = .ok sourceBin
  canMerge : quotientCanMerge state.1 targetBin sourceBin = .ok allowed
  groups : referenceMergedGroups reference.1 ((toReference bin).componentSha256s.headD "")
    component.componentSha256 = .ok candidateGroups
  rebuilt : rebuildQuotientTopologicalOrder components candidateGroups = .ok order
  same : allowed = order.isSome
  next : allowed = true → ∃ extended, extendBin bin component = .ok extended ∧
    Agree components (placed ++ [component])
      (contractQuotientBins state.1 targetBin sourceBin, state.2.set index extended)
      (candidateGroups, reference.2.set index (referenceExtendBin (toReference bin) component))

theorem headD_mem {values : List String} {value : String} (hvalue : value ∈ values) :
    values.headD "" ∈ values := by
  cases values with
  | nil => cases hvalue
  | cons head rest => exact mem_cons_self

section

variable (hagree : Agree components placed state reference) (hclosed : Closed components)
  (htarget : policy.targetShardWeight ≤ maxSafeInteger) (hcomponent : component ∈ components)
  (hfresh : component.componentSha256 ∉ placed.map (·.componentSha256))
include hagree hclosed htarget hcomponent hfresh

theorem Agree.try (hfound : state.2[index]? = some bin) (hfits : fits policy component bin = true) :
    ∃ targetBin sourceBin allowed candidateGroups order,
      Tried components placed component state reference index bin targetBin sourceBin allowed
        candidateGroups order := by
  have hfreshBins : component.componentSha256 ∉ state.2.flatMap (·.componentSha256s) :=
    fun hmem => hfresh (hagree.members.mem_iff.mp hmem)
  obtain ⟨name, allowed, hattempt⟩ :=
    hagree.sound.attempt htarget hcomponent hfreshBins hfound hfits
  obtain ⟨_, _, hmember, _, _⟩ := hagree.sound.exists_name (mem_of_getElem? hfound)
  have hreferenceHead : (toReference bin).componentSha256s.headD "" ∈ bin.componentSha256s :=
    mem_sortStrings.mp (headD_mem (mem_sortStrings.mpr hmember))
  have htargetName := (hattempt.names _).mp hreferenceHead
  obtain ⟨targetGroup, htargetGroup, sourceGroup, hsourceGroup, htargetMem, hsourceMem, hmerged⟩ :=
    hagree.grouping.referenceMergedGroups htargetName hattempt.waiting hattempt.ne hattempt.alone
  have hneGroups : targetGroup ≠ sourceGroup := by
    intro heq
    have hboth := (hagree.grouping.mem_group_iff hsourceGroup hsourceMem hattempt.waiting).mp
      (heq ▸ htargetMem)
    exact hattempt.ne (Option.some_injective _ (htargetName.symm.trans hboth))
  have hpartition := hagree.partition.merge hagree.grouping.distinct htargetGroup hsourceGroup
    hneGroups
  have hgrouping := hagree.grouping.merge hagree.partition htargetGroup hsourceGroup htargetMem
    hsourceMem htargetName hattempt.waiting hattempt.ne
  obtain ⟨order, horder, hordered⟩ := hpartition.rebuild hclosed
  refine ⟨name, component.componentSha256, allowed, _, order,
    { target := hattempt.target
      source := hattempt.source
      canMerge := hattempt.canMerge
      groups := hmerged
      rebuilt := horder
      same := ?_
      next := fun htrue => ⟨_, hattempt.extend, ?_⟩ }⟩
  · rw [Bool.eq_iff_iff, hattempt.allowed_iff, hordered, hgrouping.sameClasses.acyclic_iff]
  · constructor
    · exact hattempt.next htrue
    · rw [map_append]
      exact (flatMap_set_perm hfound rfl).trans (hagree.members.append_right _)
    · exact hpartition
    · have hcontracts := hagree.sound.represents.contracts hattempt.ne
      rw [funext hcontracts.binByComponentSha256]
      exact hgrouping
    · dsimp only
      rw [hagree.bins, map_set]
      congr 1
      unfold referenceExtendBin toReference extendedBin
      congr 1
      exact sortStrings_eq_of_perm (sortStrings_perm.append_right _)

/-- A candidate of the reference. -/
def toReferenceCandidate (candidate : ℕ × Bin) : ℕ × ReferenceBin :=
  (candidate.1, toReference candidate.2)

theorem Agree.tryCandidates
    (htried : ∀ candidate ∈ tried, state.2[candidate.1]? = some candidate.2 ∧
      fits policy component candidate.2 = true) :
    ∃ result referenceResult,
      ShardPlanner.tryCandidates component state.1 state.2 tried = .ok result ∧
      referenceTryCandidates components component reference.1 reference.2
        (tried.map toReferenceCandidate) = .ok referenceResult ∧
      Option.Rel (Agree components (placed ++ [component])) result referenceResult := by
  induction tried with
  | nil => exact ⟨none, none, rfl, rfl, .none⟩
  | cons candidate rest ih =>
    obtain ⟨index, bin⟩ := candidate
    obtain ⟨hfound, hfits⟩ := htried (index, bin) mem_cons_self
    obtain ⟨targetBin, sourceBin, allowed, candidateGroups, order, htry⟩ :=
      hagree.try hclosed htarget hcomponent hfresh hfound hfits
    rw [ShardPlanner.tryCandidates, map_cons, toReferenceCandidate, referenceTryCandidates,
      htry.target, htry.source, htry.groups, ok_bind, ok_bind, ok_bind, htry.rebuilt, ok_bind,
      mergeQuotientBins, htry.canMerge, ok_bind]
    cases hallowed : allowed with
    | false =>
      have hnone : order = none := by
        have hsome := htry.same.symm.trans hallowed
        rwa [← Bool.not_eq_true, Option.not_isSome_iff_eq_none] at hsome
      rw [hnone]
      exact ih fun candidate hcandidate =>
        htried candidate (mem_cons_of_mem _ hcandidate)
    | true =>
      obtain ⟨extended, hextended, hnext⟩ := htry.next hallowed
      obtain ⟨found, hsome⟩ := Option.isSome_iff_exists.mp (htry.same.symm.trans hallowed)
      rw [hsome]
      refine ⟨some (contractQuotientBins state.1 targetBin sourceBin,
        state.2.set index extended), some (candidateGroups,
          reference.2.set index (referenceExtendBin (toReference bin) component)), ?_, rfl,
        .some hnext⟩
      change (extendBin bin component >>= fun extended => _) = _
      rw [hextended]
      rfl

end

theorem membershipKey_toReference
    (hknown : ∀ sha256 ∈ bin.componentSha256s, sha256 ∈ components.map (·.componentSha256)) :
    membershipKey (bindingOf components) (toReference bin).componentSha256s =
      binMembershipKey components bin := by
  have hmap : bin.componentSha256s.filterMap (fun componentSha256 =>
      (components.find? (·.componentSha256 = componentSha256)).map (·.componentBindingSha256)) =
        bin.componentSha256s.map (bindingOf components) := by
    rw [← filterMap_eq_map]
    apply filterMap_congr
    intro sha256 hsha256
    obtain ⟨component, hcomponent, heq⟩ := mem_map.mp (hknown sha256 hsha256)
    rw [comp_apply, bindingOf]
    cases hfound : components.find? (·.componentSha256 = sha256) with
    | none => exact absurd (decide_eq_true heq) (List.find?_eq_none.mp hfound component hcomponent)
    | some found => rfl
  rw [binMembershipKey, hmap]
  exact sortStrings_eq_of_perm (sortStrings_perm.map _)

theorem referenceCandidates_eq (hknown : ∀ bin ∈ bins, ∀ sha256 ∈ bin.componentSha256s,
      sha256 ∈ components.map (·.componentSha256)) :
    referenceCandidates (bindingOf components) policy component (bins.map toReference) =
      (candidates components policy component bins).map toReferenceCandidate := by
  have hentries : ((bins.map toReference).zipIdx.map fun entry => (entry.2, entry.1)) =
      (bins.zipIdx.map fun entry => (entry.2, entry.1)).map toReferenceCandidate := by
    rw [zipIdx_map, List.map_map, List.map_map]
    rfl
  rw [referenceCandidates, candidates, hentries, filter_map]
  apply sortBy_map
  rintro ⟨index, bin⟩ hmem
  have hentry := mem_of_mem_filter hmem
  obtain ⟨⟨found, position⟩, hposition, heq⟩ := mem_map.mp hentry
  cases heq
  have hbin : found ∈ bins := mem_of_getElem? (mem_zipIdx_iff_getElem?.mp hposition)
  rw [toReferenceCandidate, membershipKey_toReference (hknown found hbin)]
  rfl

section

variable (hagree : Agree components placed state reference)
include hagree

theorem Agree.known :
    ∀ bin ∈ state.2, ∀ sha256 ∈ bin.componentSha256s,
      sha256 ∈ components.map (·.componentSha256) := by
  intro bin hbin sha256 hsha256
  obtain ⟨name, _, _, hname, _⟩ := hagree.sound.exists_name hbin
  exact (hagree.sound.represents.known sha256).mp ⟨name, (hname sha256).mp hsha256⟩

/-- A component gets a bin of its own in both placements. -/
theorem Agree.append (hcomponent : component ∈ components)
    (hfresh : component.componentSha256 ∉ placed.map (·.componentSha256)) (oversize : Bool) :
    Agree components (placed ++ [component])
      (state.1, state.2 ++ [singletonBin component oversize])
      (reference.1, reference.2 ++ [referenceSingletonBin component]) := by
  have hfreshBins : component.componentSha256 ∉ state.2.flatMap (·.componentSha256s) :=
    fun hmem => hfresh (hagree.members.mem_iff.mp hmem)
  constructor
  · exact hagree.sound.append (mem_map_of_mem hcomponent) hfreshBins oversize
  · rw [map_append, flatMap_append]
    exact hagree.members.append_right _
  · exact hagree.partition
  · exact hagree.grouping
  · rw [hagree.bins, map_append]
    rfl

theorem Agree.place (hclosed : Closed components)
    (htarget : policy.targetShardWeight ≤ maxSafeInteger) (hcomponent : component ∈ components)
    (hfresh : component.componentSha256 ∉ placed.map (·.componentSha256)) :
    ∃ next referenceNext, placeComponent components policy state component = .ok next ∧
      referencePlaceComponent (bindingOf components) components policy reference component =
        .ok referenceNext ∧ Agree components (placed ++ [component]) next referenceNext := by
  obtain ⟨result, referenceResult, hresult, hreference, hrel⟩ :=
    hagree.tryCandidates hclosed htarget hcomponent hfresh
      fun candidate (hcandidate : candidate ∈ candidates components policy component state.2) =>
        mem_candidates.mp hcandidate
  have hcandidates := @referenceCandidates_eq components policy component state.2 hagree.known
  rw [← hagree.bins] at hcandidates
  rw [placeComponent, referencePlaceComponent, hcandidates, hresult, hreference, ok_bind, ok_bind]
  cases hrel with
  | some hnext => exact ⟨_, _, rfl, rfl, hnext⟩
  | none => exact ⟨_, _, rfl, rfl, hagree.append hcomponent hfresh false⟩

end

theorem Agree.foldlM {waiting : List Component} (hagree : Agree components placed state reference)
    (hclosed : Closed components) (htarget : policy.targetShardWeight ≤ maxSafeInteger)
    (hwaiting : ∀ component ∈ waiting, component ∈ components)
    (hdistinct : ((placed ++ waiting).map (·.componentSha256)).Nodup) :
    ∃ last referenceLast, waiting.foldlM (placeComponent components policy) state = .ok last ∧
      waiting.foldlM (referencePlaceComponent (bindingOf components) components policy) reference =
        .ok referenceLast ∧ Agree components (placed ++ waiting) last referenceLast := by
  induction waiting generalizing placed state reference with
  | nil =>
    rw [List.append_nil]
    exact ⟨state, reference, rfl, rfl, hagree⟩
  | cons component rest ih =>
    have hfresh : component.componentSha256 ∉ placed.map (·.componentSha256) := by
      rw [map_append, nodup_append] at hdistinct
      exact fun hmem => hdistinct.2.2 _ hmem _ mem_cons_self rfl
    obtain ⟨next, referenceNext, hnext, hreferenceNext, hagreeNext⟩ :=
      hagree.place hclosed htarget (hwaiting component mem_cons_self) hfresh
    rw [append_cons] at hdistinct ⊢
    rw [foldlM_cons, foldlM_cons, hnext, hreferenceNext, ok_bind, ok_bind]
    exact ih hagreeNext (fun other hother => hwaiting other (mem_cons_of_mem _ hother)) hdistinct

/-- The oversize components are in bins of their own from the start. -/
theorem Agree.appendAll {waiting : List Component}
    (hagree : Agree components placed state reference)
    (hwaiting : ∀ component ∈ waiting, component ∈ components)
    (hdistinct : ((placed ++ waiting).map (·.componentSha256)).Nodup) (oversize : Bool) :
    Agree components (placed ++ waiting)
      (state.1, state.2 ++ waiting.map fun component => singletonBin component oversize)
      (reference.1, reference.2 ++ waiting.map referenceSingletonBin) := by
  induction waiting generalizing placed state reference with
  | nil =>
    rw [List.append_nil, map_nil, map_nil, List.append_nil, List.append_nil]
    exact hagree
  | cons component rest ih =>
    have hfresh : component.componentSha256 ∉ placed.map (·.componentSha256) := by
      rw [map_append, nodup_append] at hdistinct
      exact fun hmem => hdistinct.2.2 _ hmem _ mem_cons_self rfl
    have hnext := hagree.append (hwaiting component mem_cons_self) hfresh oversize
    rw [append_cons] at hdistinct ⊢
    have hlast := ih hnext (fun other hother => hwaiting other (mem_cons_of_mem _ hother)) hdistinct
    rw [map_cons, map_cons, append_cons state.2, append_cons reference.2]
    exact hlast

/-- The state in which no component has been placed. -/
theorem Agree.start (hclosed : Closed components) (hacyclic : Acyclic (ComponentEdge components)) :
    ∃ quotient, createPhysicalShardQuotient components = .ok quotient ∧
      Agree components [] (quotient, [])
        (components.map fun component => [component.componentSha256], []) := by
  obtain ⟨quotient, hquotient, hrepresents, _, hself⟩ :=
    createPhysicalShardQuotient_represents hclosed
  have hname : ∀ sha256 name, quotient.binByComponentSha256 sha256 = some name →
      sha256 = name ∧ sha256 ∈ components.map (·.componentSha256) := by
    intro sha256 name hfound
    have hknown := (hrepresents.known sha256).mp ⟨name, hfound⟩
    exact ⟨Option.some_injective _ ((hself sha256 hknown).symm.trans hfound), hknown⟩
  have hflatten : (components.map fun component => [component.componentSha256]).flatten =
      components.map (·.componentSha256) := by
    rw [← flatMap_def, ← map_eq_flatMap]
  refine ⟨quotient, hquotient, ?_, List.Perm.refl _, ⟨?_, ?_⟩, ⟨?_, ?_, ?_⟩, rfl⟩
  · constructor
    · exact hrepresents
    · intro name hcycle
      refine hacyclic name (TransGen.mono ?_ name name hcycle)
      rintro source target ⟨_, first, second, hedge, hsource, htarget⟩
      rwa [← (hname first source hsource).1, ← (hname second target htarget).1]
    · nofun
    · exact nodup_nil
    · intro sha256 hsha256 _ other hother
      rw [hself sha256 hsha256] at hother
      exact (hname other sha256 hother).1
  · intro group hgroup
    obtain ⟨component, _, rfl⟩ := mem_map.mp hgroup
    exact cons_ne_nil _ _
  · rw [hflatten]
  · rw [hflatten]
    exact hclosed.distinct
  · intro sha256
    rw [hflatten]
    exact hrepresents.known sha256
  · intro first second name hfirst
    obtain ⟨rfl, hknown⟩ := hname first name hfirst
    constructor
    · intro hsecond
      obtain ⟨rfl, _⟩ := hname second first hsecond
      obtain ⟨component, hcomponent, rfl⟩ := mem_map.mp hknown
      exact ⟨_, mem_map_of_mem hcomponent, mem_singleton_self _, mem_singleton_self _⟩
    · rintro ⟨group, hgroup, hfirstMem, hsecondMem⟩
      obtain ⟨component, _, rfl⟩ := mem_map.mp hgroup
      rw [mem_singleton.mp hsecondMem, ← mem_singleton.mp hfirstMem]
      exact hself first hknown

theorem Agree.requireOrder (hagree : Agree components placed state reference)
    (hclosed : Closed components) : ShardPlanner.requireOrder components reference.1 = .ok () := by
  obtain ⟨order, hrebuilt, hordered⟩ := hagree.partition.rebuild hclosed
  have hacyclic := hagree.grouping.sameClasses.acyclic_iff.mp hagree.sound.acyclic
  obtain ⟨found, rfl⟩ := Option.isSome_iff_exists.mp (hordered.mpr hacyclic)
  rw [ShardPlanner.requireOrder, hrebuilt]
  rfl

variable {rest : List Bin} {members : List String} {physicalBins : String → Option ℕ}
  {found : Option String}

theorem foldlM_validateMember (hfound : found = none ∨ found = some name)
    (hname : ∀ sha256 ∈ members, quotientBinForComponent quotient sha256 = .ok name)
    (hfresh : ∀ sha256 ∈ members, physicalBins sha256 = none) (hdistinct : members.Nodup) :
    ∃ last, members.foldlM (validateMember quotient index) (physicalBins, found) = .ok last ∧
      (∀ sha256, (last.1 sha256).isSome = true ↔
        (physicalBins sha256).isSome = true ∨ sha256 ∈ members) ∧
      last.2 = if members = [] then found else some name := by
  induction members generalizing physicalBins found with
  | nil => exact ⟨_, rfl, by simp, rfl⟩
  | cons head rest ih =>
    obtain ⟨hhead, hrest⟩ := nodup_cons.mp hdistinct
    have hstep : validateMember quotient index (physicalBins, found) head =
        .ok (update physicalBins head (some index), some name) := by
      rw [validateMember, if_neg (not_not.mpr (hfresh head mem_cons_self)),
        hname head mem_cons_self, ok_bind, if_neg]
      · rfl
      · rcases hfound with rfl | rfl
        · simp
        · simp
    have hfreshRest : ∀ sha256 ∈ rest,
        update physicalBins head (some index) sha256 = none := by
      intro sha256 hsha256
      have hne : sha256 ≠ head := fun heq => hhead (heq ▸ hsha256)
      rw [update_of_ne hne]
      exact hfresh sha256 (mem_cons_of_mem _ hsha256)
    obtain ⟨last, hlast, hsome, hlastName⟩ := ih (.inr rfl)
      (fun sha256 hsha256 => hname sha256 (mem_cons_of_mem _ hsha256)) hfreshRest hrest
    refine ⟨last, ?_, fun sha256 => ?_, ?_⟩
    · rw [foldlM_cons, hstep, ok_bind, hlast]
    · rw [hsome]
      by_cases hsha256 : sha256 = head
      · simp [hsha256]
      · simp [hsha256]
    · rw [hlastName, if_neg (cons_ne_nil _ _), ite_self]

theorem foldlM_validateBin (hplaced : Placed components quotient bins)
    {entries : List (Bin × ℕ)} (hentries : ∀ entry ∈ entries, entry.1 ∈ bins)
    (hdistinct : (entries.flatMap (·.1.componentSha256s)).Nodup)
    (hfresh : ∀ entry ∈ entries, ∀ sha256 ∈ entry.1.componentSha256s, physicalBins sha256 = none) :
    ∃ last, entries.foldlM (validateBin quotient) physicalBins = .ok last ∧
      ∀ sha256, (last sha256).isSome = true ↔
        (physicalBins sha256).isSome = true ∨ sha256 ∈ entries.flatMap (·.1.componentSha256s) := by
  induction entries generalizing physicalBins with
  | nil => exact ⟨physicalBins, rfl, by simp⟩
  | cons entry rest ih =>
    rw [flatMap_cons, nodup_append] at hdistinct
    obtain ⟨hentryDistinct, hrestDistinct, hdisjoint⟩ := hdistinct
    have hbin := hentries entry mem_cons_self
    obtain ⟨name, hactive, hmember, hname, _⟩ := hplaced.exists_name hbin
    obtain ⟨last, hlast, hsome, hlastName⟩ := @foldlM_validateMember _ entry.2 _ _ _ _ (.inl rfl)
      (fun sha256 hsha256 =>
        hplaced.represents.name_of_founder ((hname sha256).mp hsha256))
      (hfresh entry mem_cons_self) hentryDistinct
    have hperm : entry.1.componentSha256s.Perm (quotient.bins name).componentSha256s := by
      apply (perm_ext_iff_of_nodup hentryDistinct (hplaced.represents.members_distinct name)).mpr
      intro sha256
      rw [hname, hplaced.represents.members]
    have hstep : validateBin quotient physicalBins entry = .ok last.1 := by
      rw [validateBin, hlast, ok_bind, hlastName, if_neg (ne_nil_of_mem hmember)]
      dsimp only [Option.map_some, Option.getD_some]
      rw [if_neg (not_not.mpr hperm.length_eq.symm)]
      rfl
    obtain ⟨final, hfinal, hsomeFinal⟩ := ih
      (fun other hother => hentries other (mem_cons_of_mem _ hother)) hrestDistinct
      (fun other hother sha256 hsha256 => by
        rw [← Option.not_isSome_iff_eq_none, hsome, not_or]
        constructor
        · rw [Option.not_isSome_iff_eq_none]
          exact hfresh other (mem_cons_of_mem _ hother) sha256 hsha256
        · exact fun hmem => hdisjoint sha256 hmem sha256
            (mem_flatMap.mpr ⟨other, hother, hsha256⟩) rfl)
    refine ⟨final, ?_, fun sha256 => ?_⟩
    · rw [foldlM_cons, hstep, ok_bind, hfinal]
    · rw [hsomeFinal, hsome, flatMap_cons, mem_append, or_assoc]

theorem Placed.validate (hplaced : Placed components quotient bins) (hclosed : Closed components)
    (hshared : (bins.flatMap (·.componentSha256s)).Perm
      ((components.filter (·.sharedEligible)).map (·.componentSha256))) :
    validatePhysicalShardQuotient quotient bins components = .ok () := by
  have hentries : (bins.zipIdx.flatMap (·.1.componentSha256s)) =
      bins.flatMap (·.componentSha256s) := by
    rw [flatMap_def, flatMap_def, ← zipIdx_map_fst 0 bins, List.map_map]
    rw [zipIdx_map_fst]
    rfl
  obtain ⟨physicalBins, hphysical, hsome⟩ := foldlM_validateBin hplaced
    (fun entry hentry => fst_mem_of_mem_zipIdx hentry)
    (hentries ▸ hplaced.distinct) fun _ _ _ _ => rfl
  rw [validatePhysicalShardQuotient, hphysical, ok_bind, forM_eq_ok]
  intro component hcomponent
  have hknown : component.componentSha256 ∈ components.map (·.componentSha256) :=
    mem_map_of_mem hcomponent
  have hplacedIff : (physicalBins component.componentSha256).isSome = true ↔
      component.sharedEligible = true := by
    rw [hsome, hentries, hshared.mem_iff, mem_map]
    constructor
    · rintro (hnone | ⟨other, hother, heq⟩)
      · cases hnone
      · obtain ⟨hmem, hsharedOther⟩ := mem_filter.mp hother
        rwa [inj_on_of_nodup_map hclosed.distinct hmem hcomponent heq] at hsharedOther
    · exact fun htrue => .inr ⟨component, mem_filter.mpr ⟨hcomponent, htrue⟩, rfl⟩
  obtain ⟨name, hname⟩ := (hplaced.represents.known _).mpr hknown
  rw [validateComponent, hplaced.represents.name_of_founder hname, ok_bind,
    if_neg (not_not.mpr (Bool.eq_iff_iff.mpr hplacedIff.symm)), if_neg]
  · rfl
  · rintro ⟨hnone, hlength⟩
    have hfresh : component.componentSha256 ∉ bins.flatMap (·.componentSha256s) := by
      intro hmem
      have htaken := (hsome component.componentSha256).mpr (.inr (hentries ▸ hmem))
      rw [hnone] at htaken
      cases htaken
    obtain ⟨hself, _, halone⟩ := hplaced.waiting hknown hfresh
    cases hname.symm.trans hself
    apply hlength
    have hperm : (quotient.bins component.componentSha256).componentSha256s.Perm
        [component.componentSha256] := by
      apply (perm_ext_iff_of_nodup (hplaced.represents.members_distinct _) (nodup_singleton _)).mpr
      intro other
      rw [hplaced.represents.members, mem_singleton]
      exact ⟨halone other, fun heq => heq ▸ hself⟩
    exact hperm.length_eq

section

variable (hdistinct : (components.map (·.componentSha256)).Nodup)
include hdistinct

theorem bindingOf_eq {component : Component} (hcomponent : component ∈ components) :
    bindingOf components component.componentSha256 = component.componentBindingSha256 := by
  rw [bindingOf, find?_key_eq hdistinct hcomponent]
  rfl

theorem referenceOversizeComponents_eq :
    referenceOversizeComponents (bindingOf components) components policy =
      oversizeComponents components policy :=
  sortBy_congr fun _ hmem => bindingOf_eq hdistinct (mem_of_mem_filter hmem)

theorem referenceNormalComponents_eq :
    referenceNormalComponents (bindingOf components) components policy =
      normalComponents components policy :=
  sortBy_congr fun _ hmem => by rw [bindingOf_eq hdistinct (mem_of_mem_filter hmem)]

end

/-- What a state of the placement must be: the edge sets are those of the graph
in which each bin is contracted, and two bins can be merged exactly when that
keeps the graph without cycles. -/
structure QuotientIsContraction (components : List Component) (quotient : Quotient)
    (bins : List Bin) : Prop where
  /-- Components have one name when they are in one bin. -/
  classes : ∀ first ∈ components.map (·.componentSha256), ∀ second,
    quotient.binByComponentSha256 first = quotient.binByComponentSha256 second ↔
      first = second ∨ ∃ bin ∈ bins, first ∈ bin.componentSha256s ∧ second ∈ bin.componentSha256s
  active : ∀ name, name ∈ quotient.activeBins ↔
    ∃ sha256 ∈ components.map (·.componentSha256), quotient.binByComponentSha256 sha256 = some name
  dependencies : ∀ source target, target ∈ (quotient.bins source).dependencies ↔
    BinEdge components quotient source target
  dependents : ∀ source target, source ∈ (quotient.bins target).dependents ↔
    BinEdge components quotient source target
  acyclic : Acyclic (BinEdge components quotient)
  canMerge : ∀ targetBin ∈ quotient.activeBins, ∀ sourceBin ∈ quotient.activeBins,
    targetBin ≠ sourceBin → ∃ allowed,
      quotientCanMerge quotient targetBin sourceBin = .ok allowed ∧
        (allowed = true ↔ Acyclic (Contraction.Contracted (BinEdge components quotient)
          targetBin sourceBin))

theorem Placed.quotientIsContraction {quotient : Quotient} {bins : List Bin}
    (hplaced : Placed components quotient bins) :
    QuotientIsContraction components quotient bins where
  classes first hfirst second := by
    by_cases hmem : first ∈ bins.flatMap (·.componentSha256s)
    · obtain ⟨bin, hbin, hfirstMem⟩ := mem_flatMap.mp hmem
      obtain ⟨binName, _, _, hbinName, _⟩ := hplaced.exists_name hbin
      have hfirstName := (hbinName first).mp hfirstMem
      constructor
      · intro heq
        exact .inr ⟨bin, hbin, hfirstMem, (hbinName second).mpr (heq ▸ hfirstName)⟩
      · rintro (rfl | ⟨other, hother, hfirstOther, hsecondOther⟩)
        · rfl
        · rw [eq_of_mem_members hplaced.distinct hother hbin hfirstOther hfirstMem] at hsecondOther
          exact hfirstName.trans ((hbinName second).mp hsecondOther).symm
    · constructor
      · exact fun heq => .inl (hplaced.alone first hfirst hmem second heq.symm).symm
      · rintro (rfl | ⟨other, hother, hfirstOther, _⟩)
        · rfl
        · exact absurd (mem_flatMap.mpr ⟨other, hother, hfirstOther⟩) hmem
  active name := by
    constructor
    · intro hactive
      have hfounder := hplaced.represents.founder name hactive
      exact ⟨name, (hplaced.represents.known name).mp ⟨name, hfounder⟩, hfounder⟩
    · rintro ⟨sha256, _, hname⟩
      exact hplaced.represents.active sha256 name hname
  dependencies := hplaced.represents.dependencies
  dependents source target := hplaced.represents.dependents target source
  acyclic := hplaced.acyclic
  canMerge _ htarget _ hsource hne :=
    hplaced.represents.quotientCanMerge hplaced.acyclic htarget hsource hne

theorem oversize_append_normal_nodup (hdistinct : (components.map (·.componentSha256)).Nodup) :
    ((oversizeComponents components policy ++ normalComponents components policy).map
      (·.componentSha256)).Nodup := by
  apply (oversize_append_normal_perm.map _).nodup_iff.mpr
  exact hdistinct.sublist (filter_sublist.map _)

theorem Agree.startPlacing (hclosed : Closed components)
    (hacyclic : Acyclic (ComponentEdge components)) :
    ∃ quotient, createPhysicalShardQuotient components = .ok quotient ∧
      Agree components (oversizeComponents components policy)
        (quotient, (oversizeComponents components policy).map fun component =>
          singletonBin component true)
        (components.map fun component => [component.componentSha256],
          (oversizeComponents components policy).map referenceSingletonBin) := by
  obtain ⟨quotient, hquotient, hagree⟩ := Agree.start hclosed hacyclic
  have hnodup := @oversize_append_normal_nodup components policy hclosed.distinct
  rw [map_append] at hnodup
  have hall := hagree.appendAll (fun component hcomponent =>
    (mem_oversizeComponents.mp hcomponent).1) (nodup_append.mp hnodup).1 true
  exact ⟨quotient, hquotient, hall⟩

/-- Over any acyclic component graph, every state of the placement has the edges
of its contracted graph and allows the merges that keep it acyclic, and the bins
at the end are those of the reference that breaks ties by the binding identity. -/
theorem placement_refines_reference (components : List Component) (policy : Policy)
    (hclosed : Closed components) (hacyclic : Acyclic (ComponentEdge components))
    (htarget : policy.targetShardWeight ≤ maxSafeInteger) :
    ∃ quotient, createPhysicalShardQuotient components = .ok quotient ∧
      (∀ placed waiting, normalComponents components policy = placed ++ waiting →
        ∃ state, placed.foldlM (placeComponent components policy)
            (quotient, (oversizeComponents components policy).map fun component =>
              singletonBin component true) = .ok state ∧
          QuotientIsContraction components state.1 state.2) ∧
      ∃ bins, placeSharedComponents components policy = .ok bins ∧
        referencePlaceSharedComponents (bindingOf components) components policy =
          .ok (bins.map toReference) := by
  obtain ⟨quotient, hquotient, hagree⟩ := @Agree.startPlacing components policy hclosed hacyclic
  have hnodup := @oversize_append_normal_nodup components policy hclosed.distinct
  have hmem : ∀ component ∈ normalComponents components policy, component ∈ components :=
    fun component hcomponent => (mem_normalComponents.mp hcomponent).1
  refine ⟨quotient, hquotient, fun placed waiting hsplit => ?_, ?_⟩
  · rw [hsplit, ← append_assoc, map_append] at hnodup
    obtain ⟨last, _, hlast, _, hagreeLast⟩ := hagree.foldlM hclosed htarget
      (fun component hcomponent => hmem component (hsplit ▸ mem_append_left _ hcomponent))
      (nodup_append.mp hnodup).1
    exact ⟨last, hlast, hagreeLast.sound.quotientIsContraction⟩
  · obtain ⟨last, referenceLast, hlast, hreferenceLast, hagreeLast⟩ :=
      hagree.foldlM hclosed htarget hmem hnodup
    have hvalid := hagreeLast.sound.validate hclosed
      (hagreeLast.members.trans (oversize_append_normal_perm.map _))
    refine ⟨last.2, ?_, ?_⟩
    · rw [placeSharedComponents, hquotient, ok_bind, hlast, ok_bind, hvalid]
      rfl
    · obtain ⟨start, hstart, hagreeStart⟩ := Agree.start hclosed hacyclic
      rw [referencePlaceSharedComponents, hagreeStart.requireOrder hclosed, ok_bind,
        referenceOversizeComponents_eq hclosed.distinct,
        referenceNormalComponents_eq hclosed.distinct]
      dsimp only
      rw [hreferenceLast, ok_bind, hagreeLast.requireOrder hclosed, ok_bind, hagreeLast.bins]
      rfl

def tiedComponent (binding material : Char) : Component where
  bindingIdentitySha256s := [repeatedDigit binding]
  codeIdentitySha256s := [repeatedDigit material]
  componentBindingSha256 := repeatedDigit binding
  componentSha256 := repeatedDigit material
  dependencyComponentSha256s := []
  logicalUnitSha256s := [repeatedDigit material]
  occurrenceCohortSha256s := [repeatedDigit 'd', repeatedDigit 'e']
  picObjectByteWeight := 1
  shareable := true
  sharedEligible := true

/-- Three components of one weight whose bindings and materials are in opposite
orders. -/
def tiedComponents : List Component :=
  [tiedComponent '1' 'c', tiedComponent '2' 'b', tiedComponent '3' 'a']

def tiedPolicy : Policy where
  kind := convexWasmPhysicalShardPolicyKind
  minimumCohortCount := 2
  targetShardWeight := 2
  policySha256 := repeatedDigit '0'

theorem tiedComponents_closed : Closed tiedComponents where
  distinct := by decide +kernel
  known := by decide +kernel

theorem tiedComponents_acyclic : Acyclic (ComponentEdge tiedComponents) := by
  have hnone : ∀ source target, ¬ ComponentEdge tiedComponents source target := by
    rintro source target ⟨component, hcomponent, _, htarget⟩
    have hempty : ∀ component ∈ tiedComponents, component.dependencyComponentSha256s = [] := by
      decide +kernel
    rw [hempty component hcomponent] at htarget
    cases htarget
  intro vertex hcycle
  obtain ⟨middle, hedge, _⟩ := TransGen.head'_iff.mp hcycle
  exact hnone vertex middle hedge

theorem placement_refines_reference_of_tied : ∃ bins,
    placeSharedComponents tiedComponents tiedPolicy = .ok bins ∧
      referencePlaceSharedComponents (bindingOf tiedComponents) tiedComponents tiedPolicy =
        .ok (bins.map toReference) :=
  (placement_refines_reference tiedComponents tiedPolicy tiedComponents_closed
    tiedComponents_acyclic (by decide)).choose_spec.2.2

theorem tied_bins :
    (placeSharedComponents tiedComponents tiedPolicy).toOption.map (·.map (·.componentSha256s)) =
      some [[repeatedDigit 'c', repeatedDigit 'b'], [repeatedDigit 'a']] := by
  decide +kernel

theorem tied_referenceBins :
    (referencePlaceSharedComponents id tiedComponents tiedPolicy).toOption.map
        (·.map (·.componentSha256s)) =
      some [[repeatedDigit 'a', repeatedDigit 'b'], [repeatedDigit 'c']] := by
  decide +kernel

/-- With the material identities for the ties the reference makes other groups. -/
theorem placement_differs_by_ties :
    ¬ ∀ components policy, Closed components → Acyclic (ComponentEdge components) →
      policy.targetShardWeight ≤ maxSafeInteger → ∀ bins referenceBins,
        placeSharedComponents components policy = .ok bins →
        referencePlaceSharedComponents id components policy = .ok referenceBins →
        ∀ bin ∈ bins.map (·.componentSha256s),
          ∃ group ∈ referenceBins.map (·.componentSha256s), bin.Perm group := by
  intro hall
  have hbins := tied_bins
  have hreferenceBins := tied_referenceBins
  rw [Option.map_eq_some_iff] at hbins hreferenceBins
  obtain ⟨bins, hplaced, hmembers⟩ := hbins
  obtain ⟨referenceBins, hreference, hgroups⟩ := hreferenceBins
  have hsame := hall tiedComponents tiedPolicy tiedComponents_closed tiedComponents_acyclic
    (by decide) bins referenceBins (toOption_eq_some.mp hplaced)
    (toOption_eq_some.mp hreference)
  rw [hmembers, hgroups] at hsame
  revert hsame
  decide +kernel

end ConvexWasm.ShardPlanner
