import ConvexWasm.ShardPlanner.ComponentGraph
import ConvexWasm.ShardPlanner.Plan

/-!
# What the bins hold

Whatever merges the contracted graph allows, the placed components are in one
bin each, with the occurrences of the bin, and within the target weight unless
the bin was made for one heavy component.
-/

namespace ConvexWasm.ShardPlanner

open Fallible List

section Placing

variable {components placed : List Component} {policy : Policy} {component : Component}
  {bin extended : Bin} {bins bins' : List Bin} {quotient quotient' : Quotient} {index : ℕ}
  {tried : List (ℕ × Bin)}

/-- The bin holds these components. -/
structure Holds (components : List Component) (policy : Policy) (bin : Bin)
    (members : List Component) : Prop where
  shared : ∀ member ∈ members, member ∈ components ∧ member.sharedEligible = true
  occurrences : ∀ member ∈ members, member.occurrenceCohortSha256s = bin.occurrenceCohortSha256s
  componentSha256s : bin.componentSha256s = members.map (·.componentSha256)
  nonempty : members ≠ []
  weight : bin.picObjectByteWeight = (members.map (·.picObjectByteWeight)).sum
  oversize : bin.oversize = true →
    members.length = 1 ∧ policy.targetShardWeight < bin.picObjectByteWeight
  normal : bin.oversize = false → bin.picObjectByteWeight ≤ policy.targetShardWeight

/-- The components that have been placed are in the bins. -/
structure Packing (components : List Component) (policy : Policy) (placed : List Component)
    (bins : List Bin) : Prop where
  placed : (bins.flatMap (·.componentSha256s)).Perm (placed.map (·.componentSha256))
  holds : ∀ bin ∈ bins, ∃ members, Holds components policy bin members

theorem extendBin_eq_ok (hok : extendBin bin component = .ok extended) :
    extended = { bin with
      componentSha256s := bin.componentSha256s ++ [component.componentSha256]
      picObjectByteWeight := bin.picObjectByteWeight + component.picObjectByteWeight } := by
  obtain ⟨weight, hweight, hrest⟩ := bind_eq_ok.mp hok
  rw [addSafeIntegers_eq_ok hweight] at hrest
  cases hrest
  rfl

theorem mem_candidates :
    (index, bin) ∈ candidates components policy component bins ↔
      bins[index]? = some bin ∧ fits policy component bin = true := by
  rw [candidates, mem_sortBy, mem_filter, mem_map]
  apply and_congr_left
  intro _
  constructor
  · rintro ⟨⟨found, position⟩, hmem, heq⟩
    cases heq
    exact mem_zipIdx_iff_getElem?.mp hmem
  · intro hfound
    exact ⟨(bin, index), mem_zipIdx_iff_getElem?.mpr hfound, rfl⟩

/-- A component that is placed into a bin goes into one that was tried. -/
theorem tryCandidates_eq_some
    (hok : tryCandidates component quotient bins tried = .ok (some (quotient', bins'))) :
    ∃ index bin extended, (index, bin) ∈ tried ∧ extendBin bin component = .ok extended ∧
      bins' = bins.set index extended := by
  induction tried with
  | nil => cases hok
  | cons candidate rest ih =>
    obtain ⟨index, bin⟩ := candidate
    obtain ⟨targetBin, _, hsource⟩ := bind_eq_ok.mp hok
    obtain ⟨sourceBin, _, hmerge⟩ := bind_eq_ok.mp hsource
    obtain ⟨merged, _, hlast⟩ := bind_eq_ok.mp hmerge
    cases merged with
    | none =>
      obtain ⟨found, bin', extended, hmem, hextended, hset⟩ := ih hlast
      exact ⟨found, bin', extended, mem_cons_of_mem _ hmem, hextended, hset⟩
    | some merged =>
      obtain ⟨extended, hextended, hresult⟩ := bind_eq_ok.mp hlast
      cases hresult
      exact ⟨index, bin, extended, mem_cons_self, hextended, rfl⟩

/-- One bin of the list is replaced. -/
theorem exists_split (hfound : bins[index]? = some bin) : ∃ before after,
    bins = before ++ bin :: after ∧ ∀ other, bins.set index other = before ++ other :: after := by
  obtain ⟨hlt, hbin⟩ := List.getElem?_eq_some_iff.mp hfound
  refine ⟨bins.take index, bins.drop (index + 1), ?_, fun other => ?_⟩
  · rw [← hbin, getElem_cons_drop, take_append_drop]
  · rw [set_eq_take_append_cons_drop, if_pos hlt]

/-- A bin that grows by one component adds that component to what is placed. -/
theorem flatMap_set_perm {sha256 : String} (hfound : bins[index]? = some bin)
    (hmembers : extended.componentSha256s = bin.componentSha256s ++ [sha256]) :
    ((bins.set index extended).flatMap (·.componentSha256s)).Perm
      (bins.flatMap (·.componentSha256s) ++ [sha256]) := by
  obtain ⟨before, after, hsplit, hset⟩ := exists_split hfound
  rw [hset, flatMap_append, flatMap_cons, hmembers]
  rw [hsplit, flatMap_append, flatMap_cons]
  simp only [append_assoc]
  exact (perm_append_comm.append_left _).append_left _

section

variable (hcomponent : component ∈ components) (hshared : component.sharedEligible = true)
include hcomponent hshared

theorem Holds.singleton {oversize : Bool}
    (hoversize : oversize = true ↔ policy.targetShardWeight < component.picObjectByteWeight) :
    Holds components policy (singletonBin component oversize) [component] where
  shared member hmember := by
    rw [mem_singleton.mp hmember]
    exact ⟨hcomponent, hshared⟩
  occurrences member hmember := by
    rw [mem_singleton.mp hmember]
    rfl
  componentSha256s := rfl
  nonempty := cons_ne_nil _ _
  weight := by simp [singletonBin]
  oversize htrue := ⟨rfl, hoversize.mp htrue⟩
  normal hfalse := by
    apply le_of_not_gt
    intro hheavy
    rw [show oversize = false from hfalse] at hoversize
    exact absurd (hoversize.mpr hheavy) Bool.false_ne_true

/-- A bin with room is not oversize, and stays within the target. -/
theorem Holds.extend {members : List Component} (hholds : Holds components policy bin members)
    (hnonneg : 0 ≤ component.picObjectByteWeight) (hfits : fits policy component bin = true)
    (hextended : extendBin bin component = .ok extended) :
    Holds components policy extended (members ++ [component]) := by
  rw [fits, Bool.and_eq_true, decide_eq_true_iff, decide_eq_true_iff] at hfits
  obtain ⟨hroom, hoccurrences⟩ := hfits
  have hnormal : bin.oversize = false := by
    by_contra hoversize
    have hheavy := (hholds.oversize (Bool.not_eq_false _ ▸ hoversize)).2
    omega
  rw [extendBin_eq_ok hextended]
  constructor
  · intro member hmember
    rcases mem_append.mp hmember with hmember | hmember
    · exact hholds.shared member hmember
    · rw [mem_singleton.mp hmember]
      exact ⟨hcomponent, hshared⟩
  · intro member hmember
    rcases mem_append.mp hmember with hmember | hmember
    · exact hholds.occurrences member hmember
    · rw [mem_singleton.mp hmember]
      exact hoccurrences
  · rw [map_append, ← hholds.componentSha256s]
    rfl
  · exact append_ne_nil_of_right_ne_nil _ (cons_ne_nil _ _)
  · rw [map_append, sum_append, ← hholds.weight]
    simp
  · intro hoversize
    exact absurd (hnormal.symm.trans hoversize) Bool.false_ne_true
  · intro _
    dsimp only
    omega

theorem Packing.place (hpacking : Packing components policy placed bins)
    (hnonneg : 0 ≤ component.picObjectByteWeight)
    (hlight : component.picObjectByteWeight ≤ policy.targetShardWeight)
    (hok : placeComponent components policy (quotient, bins) component = .ok (quotient', bins')) :
    Packing components policy (placed ++ [component]) bins' := by
  obtain ⟨result, hresult, hlast⟩ := bind_eq_ok.mp hok
  cases result with
  | none =>
    cases hlast
    constructor
    · rw [flatMap_append, map_append]
      exact hpacking.placed.append_right _
    · intro bin hbin
      rcases mem_append.mp hbin with hbin | hbin
      · exact hpacking.holds bin hbin
      · rw [mem_singleton.mp hbin]
        exact ⟨_, .singleton hcomponent hshared (by simpa using hlight)⟩
  | some placed' =>
    cases hlast
    obtain ⟨index, bin, extended, hmem, hextended, rfl⟩ := tryCandidates_eq_some hresult
    obtain ⟨hfound, hfits⟩ := mem_candidates.mp hmem
    obtain ⟨before, after, hsplit, hset⟩ := exists_split hfound
    dsimp only at hfound hsplit hset
    have hmembers : extended.componentSha256s =
        bin.componentSha256s ++ [component.componentSha256] := by
      rw [extendBin_eq_ok hextended]
    constructor
    · rw [map_append]
      exact (flatMap_set_perm hfound hmembers).trans (hpacking.placed.append_right _)
    · intro other hother
      obtain ⟨_, hholds⟩ := hpacking
      rw [hset] at hother
      rw [hsplit] at hholds
      rcases mem_append.mp hother with hother | hother
      · exact hholds other (mem_append_left _ hother)
      · rcases mem_cons.mp hother with rfl | hother
        · obtain ⟨members, hmembers⟩ := hholds bin (mem_append_right _ mem_cons_self)
          exact ⟨_, hmembers.extend hcomponent hshared hnonneg hfits hextended⟩
        · exact hholds other (mem_append_right _ (mem_cons_of_mem _ hother))

end

theorem Packing.foldlM {waiting : List Component} {placement placement' : Quotient × List Bin}
    (hwaiting : ∀ component ∈ waiting, component ∈ components ∧
      component.sharedEligible = true ∧ 0 ≤ component.picObjectByteWeight ∧
      component.picObjectByteWeight ≤ policy.targetShardWeight)
    (hpacking : Packing components policy placed placement.2)
    (hok : waiting.foldlM (placeComponent components policy) placement = .ok placement') :
    Packing components policy (placed ++ waiting) placement'.2 := by
  induction waiting generalizing placed placement with
  | nil =>
    cases hok
    rw [List.append_nil]
    exact hpacking
  | cons component rest ih =>
    obtain ⟨next, hnext, hrest⟩ := bind_eq_ok.mp hok
    obtain ⟨hcomponent, hshared, hnonneg, hlight⟩ := hwaiting component mem_cons_self
    have hplaced := hpacking.place hcomponent hshared hnonneg hlight hnext
    have hlast := ih (fun other hother => hwaiting other (mem_cons_of_mem _ hother)) hplaced hrest
    rwa [append_assoc] at hlast

theorem mem_normalComponents : component ∈ normalComponents components policy ↔
    component ∈ components ∧ component.sharedEligible = true ∧
      component.picObjectByteWeight ≤ policy.targetShardWeight := by
  rw [normalComponents, mem_sortBy, mem_filter, Bool.and_eq_true, decide_eq_true_iff]

theorem mem_oversizeComponents : component ∈ oversizeComponents components policy ↔
    component ∈ components ∧ component.sharedEligible = true ∧
      policy.targetShardWeight < component.picObjectByteWeight := by
  rw [oversizeComponents, mem_sortBy, mem_filter, Bool.and_eq_true, decide_eq_true_iff]

/-- The shared components are the oversize and the normal ones. -/
theorem oversize_append_normal_perm :
    (oversizeComponents components policy ++ normalComponents components policy).Perm
      (components.filter (·.sharedEligible)) := by
  have hsplit := filter_append_perm
    (fun component : Component =>
      decide (policy.targetShardWeight < component.picObjectByteWeight))
    (components.filter (·.sharedEligible))
  refine List.Perm.trans (List.Perm.append (sortBy_perm.trans ?_) (sortBy_perm.trans ?_)) hsplit
  · rw [filter_filter]
    apply List.Perm.of_eq
    apply filter_congr
    intro component _
    exact Bool.and_comm _ _
  · rw [filter_filter]
    apply List.Perm.of_eq
    apply filter_congr
    intro component _
    rw [Bool.and_comm, ← decide_not]
    simp

theorem placeSharedComponents_eq_ok
    (hnonneg : ∀ component ∈ components, 0 ≤ component.picObjectByteWeight)
    (hok : placeSharedComponents components policy = .ok bins) :
    Packing components policy
      (oversizeComponents components policy ++ normalComponents components policy) bins := by
  obtain ⟨quotient, _, hplace⟩ := bind_eq_ok.mp hok
  obtain ⟨placement, hplacement, hvalidate⟩ := bind_eq_ok.mp hplace
  obtain ⟨_, _, hlast⟩ := bind_eq_ok.mp hvalidate
  cases hlast
  refine Packing.foldlM (fun component hcomponent => ?_) ⟨?_, ?_⟩ hplacement
  · obtain ⟨hmem, hshared, hlight⟩ := mem_normalComponents.mp hcomponent
    exact ⟨hmem, hshared, hnonneg component hmem, hlight⟩
  · rw [flatMap_map, map_eq_flatMap]
    rfl
  · intro bin hbin
    obtain ⟨component, hcomponent, rfl⟩ := mem_map.mp hbin
    obtain ⟨hmem, hshared, hheavy⟩ := mem_oversizeComponents.mp hcomponent
    exact ⟨_, .singleton hmem hshared (by simpa using hheavy)⟩

end Placing

end ConvexWasm.ShardPlanner
