import ConvexWasm.ShardPlanner.Packing
import ConvexWasm.ShardPlanner.QuotientGraph

/-!
# Plans are well formed

The shards and the residual components of a plan partition the logical units
along their components, each shard keeps to one set of occurrences and to its
weight, and the order of the shards follows their dependencies.
-/

namespace ConvexWasm.ShardPlanner

open Fallible List TopologicalOrder

/-- The code identities of the units of a component. -/
def codesOf (components : List Component) (componentSha256 : String) : List String :=
  match components.find? (·.componentSha256 = componentSha256) with
  | some component => component.codeIdentitySha256s
  | none => []

/-- The code identities of the units of a shard. -/
def shardCodes (plan : Plan) (shard : Shard) : List String :=
  shard.componentSha256s.flatMap (codesOf plan.components)

/-- The code identities of the units that are in no shard. -/
def residualCodes (plan : Plan) : List String :=
  plan.residualComponents.flatMap fun residual => codesOf plan.components residual.componentSha256

/-- A unit of one shard depends on a unit of another. -/
def ShardEdge (units : List AuthenticatedLogicalUnit) (plan : Plan) (shard other : Shard) : Prop :=
  shard ∈ plan.sharedShards ∧ other ∈ plan.sharedShards ∧ shard ≠ other ∧
    ∃ code ∈ shardCodes plan shard, ∃ dependency ∈ dependenciesOf units code,
      dependency ∈ shardCodes plan other

/-- What a plan for some units must be. -/
structure WellFormed (units : List AuthenticatedLogicalUnit) (plan : Plan) : Prop where
  distinct : (units.map (·.codeIdentitySha256)).Nodup
  /-- Each unit is in one shard, or residual. -/
  partition : (plan.sharedShards.flatMap (shardCodes plan) ++ residualCodes plan).Perm
    (units.map (·.codeIdentitySha256))
  /-- Units that depend on each other stay together. -/
  whole : ∀ first second, StrongComponents.Mutual (dependenciesOf units) first second →
    (∀ shard ∈ plan.sharedShards, first ∈ shardCodes plan shard ↔ second ∈ shardCodes plan shard) ∧
      (first ∈ residualCodes plan ↔ second ∈ residualCodes plan)
  /-- A component is a class of units that depend on each other. -/
  strong : ∀ component ∈ plan.components, ∀ code ∈ component.codeIdentitySha256s, ∀ other,
    other ∈ component.codeIdentitySha256s ↔
      StrongComponents.Mutual (dependenciesOf units) code other
  shared : ∀ shard ∈ plan.sharedShards, ∀ sha256 ∈ shard.componentSha256s,
    ∃ component ∈ plan.components, component.componentSha256 = sha256 ∧
      component.sharedEligible = true
  /-- The components of a shard, and with them its units, occur together. -/
  occurrences : ∀ shard ∈ plan.sharedShards, ∃ occurrences,
    (∀ component ∈ plan.components, component.componentSha256 ∈ shard.componentSha256s →
      component.occurrenceCohortSha256s = occurrences) ∧
    ∀ unit ∈ units, unit.codeIdentitySha256 ∈ shardCodes plan shard → unit.occurrences = occurrences
  weight : ∀ shard ∈ plan.sharedShards, shard.oversize = false →
    shard.picObjectByteWeight = ((plan.components.filter
      (·.componentSha256 ∈ shard.componentSha256s)).map (·.picObjectByteWeight)).sum ∧
    shard.picObjectByteWeight ≤ plan.policy.targetShardWeight
  oversize : ∀ shard ∈ plan.sharedShards, shard.oversize = true →
    ∃ component ∈ plan.components, shard.componentSha256s = [component.componentSha256]
  /-- The dependencies of a shard are the shards that its units depend on. -/
  dependencies : ∀ shard ∈ plan.sharedShards, ∀ sha256, sha256 ∈ shard.dependencies ↔
    ∃ other, ShardEdge units plan shard other ∧ other.shardSha256 = sha256
  acyclic : Acyclic (ShardEdge units plan)
  order_perm : plan.shardOrder.Perm (plan.sharedShards.map (·.shardSha256))
  order_distinct : plan.shardOrder.Nodup
  /-- A shard comes after those it depends on. -/
  order_first : ∀ shard other, ShardEdge units plan shard other →
    plan.shardOrder.idxOf other.shardSha256 < plan.shardOrder.idxOf shard.shardSha256

variable {fingerprint : Payload → String} {components : List Component} {bins : List Bin}
  {shards : List Shard} {shard other : Shard} {sha256 : String} {component : Component}

/-- The shard of a bin, with its dependencies. -/
def shardOf (fingerprint : Payload → String) (components : List Component) (bins : List Bin)
    (bin : Bin) : Shard :=
  { buildSharedShard fingerprint components bin with
    dependencies := shardDependencies components
      (bins.map (buildSharedShard fingerprint components))
      (buildSharedShard fingerprint components bin) }

theorem buildSharedShards_eq_ok (hok : buildSharedShards fingerprint bins components = .ok shards) :
    shards = sortBy (·.shardSha256) (bins.map (shardOf fingerprint components bins)) ∧
      (bins.map fun bin => (buildSharedShard fingerprint components bin).shardSha256).Nodup := by
  unfold buildSharedShards at hok
  dsimp only at hok
  split at hok
  · cases hok
  · split at hok
    · cases hok
    · rename_i hidentities
      cases hok
      rw [not_not, map_map] at hidentities
      rw [map_map]
      exact ⟨rfl, hidentities⟩

theorem mem_shardDependencies (hdistinct : (components.map (·.componentSha256)).Nodup)
    (hknown : ∀ sha256 ∈ shard.componentSha256s, sha256 ∈ components.map (·.componentSha256)) :
    sha256 ∈ shardDependencies components shards shard ↔ ∃ component ∈ components,
      component.componentSha256 ∈ shard.componentSha256s ∧
        ∃ dependency ∈ component.dependencyComponentSha256s,
          shardOfComponent shards dependency = some sha256 ∧ sha256 ≠ shard.shardSha256 := by
  rw [shardDependencies, mem_sortStrings, mem_dedup, mem_flatMap]
  constructor
  · rintro ⟨member, hmember, hfound⟩
    obtain ⟨component, hcomponent, rfl⟩ := mem_map.mp (hknown member hmember)
    rw [find?_key_eq hdistinct hcomponent, mem_filter, mem_filterMap] at hfound
    obtain ⟨⟨dependency, hdependency, hshard⟩, hne⟩ := hfound
    exact ⟨component, hcomponent, hmember, dependency, hdependency, hshard, of_decide_eq_true hne⟩
  · rintro ⟨component, hcomponent, hmember, dependency, hdependency, hshard, hne⟩
    refine ⟨_, hmember, ?_⟩
    rw [find?_key_eq hdistinct hcomponent, mem_filter, mem_filterMap]
    exact ⟨⟨dependency, hdependency, hshard⟩, decide_eq_true hne⟩

theorem shardDependencies_nodup : (shardDependencies components shards shard).Nodup :=
  sortStrings_perm.nodup_iff.mpr (nodup_dedup _)

theorem shardOfComponent_eq_some (hdistinct : (shards.flatMap (·.componentSha256s)).Nodup) :
    shardOfComponent shards component.componentSha256 = some sha256 ↔ ∃ shard ∈ shards,
      component.componentSha256 ∈ shard.componentSha256s ∧ shard.shardSha256 = sha256 := by
  rw [shardOfComponent, Option.map_eq_some_iff]
  constructor
  · rintro ⟨shard, hfound, hsha256⟩
    have hmem := List.find?_some hfound
    exact ⟨shard, mem_of_find?_eq_some hfound, of_decide_eq_true hmem, hsha256⟩
  · rintro ⟨shard, hshard, hmem, hsha256⟩
    exact ⟨shard, find?_member_eq hdistinct hshard hmem, hsha256⟩

section Order

variable {order : List String} {shardSha256 : String}

/-- The dependencies of a shard by its identity. -/
def dependenciesOfShard (shards : List Shard) (shardSha256 : String) : List String :=
  match shards.find? (·.shardSha256 = shardSha256) with
  | some shard => shard.dependencies
  | none => []

theorem dependenciesOfShard_eq (hdistinct : (shards.map (·.shardSha256)).Nodup)
    (hshard : shard ∈ shards) :
    dependenciesOfShard shards shard.shardSha256 = shard.dependencies := by
  rw [dependenciesOfShard, find?_key_eq hdistinct hshard]

theorem mem_dependentsOf {dependent : String} : dependent ∈ dependentsOf shards shardSha256 ↔
    ∃ shard ∈ shards, shardSha256 ∈ shard.dependencies ∧ shard.shardSha256 = dependent := by
  rw [dependentsOf, mem_flatMap]
  apply exists_congr
  intro shard
  apply and_congr_right
  intro _
  simp only [mem_map, mem_filter, decide_eq_true_eq]
  constructor
  · rintro ⟨_, ⟨hmem, rfl⟩, heq⟩
    exact ⟨hmem, heq⟩
  · rintro ⟨hmem, heq⟩
    exact ⟨_, ⟨hmem, rfl⟩, heq⟩

variable (hdistinct : (shards.map (·.shardSha256)).Nodup)
  (hdependencies : ∀ shard ∈ shards, shard.dependencies.Nodup)
include hdistinct hdependencies

theorem dependentsOf_nodup : (dependentsOf shards shardSha256).Nodup := by
  apply nodup_flatMap.mpr
  constructor
  · intro shard hshard
    have hfiltered := (hdependencies shard hshard).filter (· = shardSha256)
    apply hfiltered.map_on
    intro first hfirst second hsecond _
    rw [mem_filter, decide_eq_true_iff] at hfirst hsecond
    exact hfirst.2.trans hsecond.2.symm
  · apply (pairwise_map.mp hdistinct).imp
    intro first second hne sha256 hfirst hsecond
    obtain ⟨_, _, rfl⟩ := mem_map.mp hfirst
    obtain ⟨_, _, heq⟩ := mem_map.mp hsecond
    exact hne heq.symm

theorem orderShards_graph (hknown : ∀ shard ∈ shards, ∀ dependency ∈ shard.dependencies,
      dependency ∈ shards.map (·.shardSha256)) :
    Graph (shards.map (·.shardSha256)) (dependenciesOfShard shards)
      (fun shardSha256 => sortStrings (dependentsOf shards shardSha256)) where
  vertices_distinct := hdistinct
  dependencies_distinct sha256 hsha256 := by
    obtain ⟨shard, hshard, rfl⟩ := mem_map.mp hsha256
    rw [dependenciesOfShard_eq hdistinct hshard]
    exact hdependencies shard hshard
  dependencies_mem sha256 hsha256 dependency hdependency := by
    obtain ⟨shard, hshard, rfl⟩ := mem_map.mp hsha256
    rw [dependenciesOfShard_eq hdistinct hshard] at hdependency
    exact hknown shard hshard dependency hdependency
  dependents_distinct sha256 _ :=
    sortStrings_perm.nodup_iff.mpr (dependentsOf_nodup hdistinct hdependencies)
  mem_dependents sha256 _ dependent := by
    rw [mem_sortStrings, mem_dependentsOf, mem_map]
    constructor
    · rintro ⟨shard, hshard, hmem, rfl⟩
      rw [dependenciesOfShard_eq hdistinct hshard]
      exact ⟨⟨shard, hshard, rfl⟩, hmem⟩
    · rintro ⟨⟨shard, hshard, rfl⟩, hmem⟩
      rw [dependenciesOfShard_eq hdistinct hshard] at hmem
      exact ⟨shard, hshard, hmem, rfl⟩

theorem orderShards_eq_ok (hok : orderShards shards = .ok order) :
    Ordered (shards.map (·.shardSha256)) (dependenciesOfShard shards) order ∧
      order.length = (shards.map (·.shardSha256)).length := by
  unfold orderShards at hok
  dsimp only at hok
  split at hok
  · cases hok
  · rename_i hunknown
    split at hok
    · cases hok
    · rename_i hlength
      cases hok
      rw [not_not] at hlength
      have hknown : ∀ shard ∈ shards, ∀ dependency ∈ shard.dependencies,
          dependency ∈ shards.map (·.shardSha256) := by
        intro shard hshard dependency hdependency
        by_contra hmissing
        apply hunknown
        refine any_eq_true.mpr ⟨shard, hshard, any_eq_true.mpr ⟨dependency, hdependency, ?_⟩⟩
        rw [Bool.not_eq_true', any_eq_false]
        intro other hother heq
        exact hmissing (mem_map.mpr ⟨other, hother, of_decide_eq_true heq⟩)
      have hcounts : ∀ sha256 ∈ shards.map (·.shardSha256),
          dependencyCount shards sha256 = (dependenciesOfShard shards sha256).length := by
        intro sha256 hsha256
        obtain ⟨shard, hshard, rfl⟩ := mem_map.mp hsha256
        rw [dependencyCount, find?_key_eq hdistinct hshard, dependenciesOfShard_eq hdistinct hshard]
      have hordered := drain_ordered (orderShards_graph hdistinct hdependencies hknown)
        (fun ready released => @sortStrings_perm (ready ++ released)) hcounts sortStrings_perm
      rw [length_map] at hordered
      exact ⟨hordered, hlength.trans (length_map _).symm⟩

end Order

variable {units : List AuthenticatedLogicalUnit} {policy : Policy} {code : String} {plan : Plan}
  {request : PlanningRequest}

theorem codesOf_eq (hdistinct : (components.map (·.componentSha256)).Nodup)
    (hcomponent : component ∈ components) :
    codesOf components component.componentSha256 = component.codeIdentitySha256s := by
  rw [codesOf, find?_key_eq hdistinct hcomponent]

/-- The parts that a plan for admitted units was put together from. -/
structure Planned (fingerprint : Payload → String) (units : List AuthenticatedLogicalUnit)
    (plan : Plan) (bins : List Bin) : Prop where
  built : BuiltFrom fingerprint units plan.policy plan.components
  componentsOf : ComponentsOf units plan.components
  distinct : (plan.components.map (·.componentSha256)).Nodup
  packing : Packing plan.components plan.policy
    (oversizeComponents plan.components plan.policy ++
      normalComponents plan.components plan.policy) bins
  shards : plan.sharedShards =
    sortBy (·.shardSha256) (bins.map (shardOf fingerprint plan.components bins))
  shards_distinct : (plan.sharedShards.map (·.shardSha256)).Nodup
  residual : plan.residualComponents = residualComponents plan.components plan.policy
  ordered : Ordered (plan.sharedShards.map (·.shardSha256))
    (dependenciesOfShard plan.sharedShards) plan.shardOrder
  order_length : plan.shardOrder.length = (plan.sharedShards.map (·.shardSha256)).length

theorem planUnits_eq_ok (hadmitted : Admitted units)
    (hok : planUnits fingerprint units policy = .ok plan) :
    plan.policy = policy ∧ ∃ bins, Planned fingerprint units plan bins := by
  obtain ⟨components, hcomponents, hplaced⟩ := bind_eq_ok.mp hok
  obtain ⟨bins, hbins, hshared⟩ := bind_eq_ok.mp hplaced
  obtain ⟨shards, hshards, horder⟩ := bind_eq_ok.mp hshared
  obtain ⟨order, horderOk, hlast⟩ := bind_eq_ok.mp horder
  cases hlast
  have hbuilt := buildComponents_eq_ok hcomponents
  have hcomponentsOf := hbuilt.componentsOf hadmitted
  obtain ⟨quotient, hquotient, _⟩ := bind_eq_ok.mp hbins
  obtain ⟨hshardsEq, hidentities⟩ := buildSharedShards_eq_ok hshards
  have hdistinct : (shards.map (·.shardSha256)).Nodup := by
    have hperm := (@sortBy_perm _ _ _ (·.shardSha256)
      (bins.map (shardOf fingerprint components bins))).map (·.shardSha256)
    rw [hshardsEq]
    apply hperm.nodup_iff.mpr
    rw [map_map]
    exact hidentities
  have hdependencies : ∀ shard ∈ shards, shard.dependencies.Nodup := by
    intro shard hshard
    rw [hshardsEq, mem_sortBy] at hshard
    obtain ⟨bin, _, rfl⟩ := mem_map.mp hshard
    exact shardDependencies_nodup
  obtain ⟨hordered, hlength⟩ := orderShards_eq_ok hdistinct hdependencies horderOk
  exact ⟨rfl, bins,
    { built := hbuilt
      componentsOf := hcomponentsOf
      distinct := createPhysicalShardQuotient_distinct hquotient
      packing := placeSharedComponents_eq_ok hcomponentsOf.weight_nonneg hbins
      shards := hshardsEq
      shards_distinct := hdistinct
      residual := rfl
      ordered := hordered
      order_length := hlength }⟩

section

variable (hplanned : Planned fingerprint units plan bins)
include hplanned

theorem Planned.mem_shards :
    shard ∈ plan.sharedShards ↔
      ∃ bin ∈ bins, shardOf fingerprint plan.components bins bin = shard := by
  rw [hplanned.shards, mem_sortBy, mem_map]

/-- Each component is in one shard, or residual. -/
theorem Planned.components_perm :
    (plan.sharedShards.flatMap (·.componentSha256s) ++
      plan.residualComponents.map (·.componentSha256)).Perm
        (plan.components.map (·.componentSha256)) := by
  have hshards : (plan.sharedShards.flatMap (·.componentSha256s)).Perm
      ((plan.components.filter (·.sharedEligible)).map (·.componentSha256)) := by
    have hsorted := (@sortBy_perm _ _ _ (·.shardSha256)
      (bins.map (shardOf fingerprint plan.components bins))).flatMap_right (·.componentSha256s)
    rw [← hplanned.shards, flatMap_map] at hsorted
    have hbins : (bins.flatMap fun bin =>
        (shardOf fingerprint plan.components bins bin).componentSha256s).Perm
          (bins.flatMap (·.componentSha256s)) :=
      List.Perm.flatMap_left _ fun bin _ => sortStrings_perm
    exact hsorted.trans (hbins.trans (hplanned.packing.placed.trans
      (oversize_append_normal_perm.map _)))
  have hresidual : (plan.residualComponents.map (·.componentSha256)).Perm
      ((plan.components.filter fun component => !component.sharedEligible).map
        (·.componentSha256)) := by
    rw [hplanned.residual, residualComponents]
    have hsorted := (@sortBy_perm _ _ _ (·.componentSha256)
      ((plan.components.filter fun component => !component.sharedEligible).map fun component =>
        ({ componentSha256 := component.componentSha256
           reason := residualReason plan.policy component } : ResidualComponent))).map
      (·.componentSha256)
    rw [map_map] at hsorted
    exact hsorted
  have hboth := hshards.append hresidual
  rw [← map_append] at hboth
  exact hboth.trans ((filter_append_perm _ _).map _)

theorem Planned.partition :
    (plan.sharedShards.flatMap (shardCodes plan) ++ residualCodes plan).Perm
      (units.map (·.codeIdentitySha256)) := by
  have hcodes : (plan.components.map (·.componentSha256)).flatMap (codesOf plan.components) =
      plan.components.flatMap (·.codeIdentitySha256s) := by
    rw [flatMap_map]
    exact flatMap_congr fun component hcomponent =>
      codesOf_eq hplanned.distinct hcomponent
  have hperm := hplanned.components_perm.flatMap_right (codesOf plan.components)
  rw [hcodes, flatMap_append, flatMap_assoc, flatMap_map] at hperm
  exact hperm.trans hplanned.componentsOf.codes

end

theorem mem_flatMap_codesOf {sha256s : List String}
    (hdistinct : (components.map (·.componentSha256)).Nodup)
    (hknown : ∀ sha256 ∈ sha256s, sha256 ∈ components.map (·.componentSha256)) :
    code ∈ sha256s.flatMap (codesOf components) ↔ ∃ component ∈ components,
      component.componentSha256 ∈ sha256s ∧ code ∈ component.codeIdentitySha256s := by
  rw [mem_flatMap]
  constructor
  · rintro ⟨sha256, hsha256, hcode⟩
    obtain ⟨component, hcomponent, rfl⟩ := mem_map.mp (hknown sha256 hsha256)
    rw [codesOf_eq hdistinct hcomponent] at hcode
    exact ⟨component, hcomponent, hsha256, hcode⟩
  · rintro ⟨component, hcomponent, hsha256, hcode⟩
    refine ⟨_, hsha256, ?_⟩
    rw [codesOf_eq hdistinct hcomponent]
    exact hcode

section

variable (hplanned : Planned fingerprint units plan bins)
include hplanned

theorem Planned.shard_known (hshard : shard ∈ plan.sharedShards) :
    ∀ sha256 ∈ shard.componentSha256s, sha256 ∈ plan.components.map (·.componentSha256) :=
  fun _ hsha256 => hplanned.components_perm.mem_iff.mp
    (mem_append_left _ (mem_flatMap.mpr ⟨shard, hshard, hsha256⟩))

theorem Planned.mem_shardCodes (hshard : shard ∈ plan.sharedShards) :
    code ∈ shardCodes plan shard ↔ ∃ component ∈ plan.components,
      component.componentSha256 ∈ shard.componentSha256s ∧ code ∈ component.codeIdentitySha256s :=
  mem_flatMap_codesOf hplanned.distinct (hplanned.shard_known hshard)

theorem Planned.mem_residualCodes :
    code ∈ residualCodes plan ↔ ∃ component ∈ plan.components,
      component.componentSha256 ∈ plan.residualComponents.map (·.componentSha256) ∧
        code ∈ component.codeIdentitySha256s := by
  have hcodes := @mem_flatMap_codesOf plan.components code
    (plan.residualComponents.map (·.componentSha256)) hplanned.distinct fun sha256 hsha256 =>
      hplanned.components_perm.mem_iff.mp (mem_append_right _ hsha256)
  rw [flatMap_map] at hcodes
  exact hcodes

theorem Planned.members_distinct : (plan.sharedShards.flatMap (·.componentSha256s)).Nodup :=
  (nodup_append.mp (hplanned.components_perm.nodup_iff.mpr hplanned.distinct)).1

theorem Planned.codes_distinct : (plan.components.flatMap (·.codeIdentitySha256s)).Nodup :=
  hplanned.componentsOf.codes.nodup_iff.mpr hplanned.componentsOf.distinct

/-- A shard holds what its bin holds. -/
theorem Planned.exists_members (hshard : shard ∈ plan.sharedShards) : ∃ bin members,
      Holds plan.components plan.policy bin members ∧
        (∀ sha256, sha256 ∈ shard.componentSha256s ↔ sha256 ∈ members.map (·.componentSha256)) ∧
        shard.componentSha256s.Perm (members.map (·.componentSha256)) ∧
        shard.oversize = bin.oversize ∧ shard.picObjectByteWeight = bin.picObjectByteWeight := by
  obtain ⟨bin, hbin, rfl⟩ := hplanned.mem_shards.mp hshard
  obtain ⟨members, hholds⟩ := hplanned.packing.holds bin hbin
  have hperm : (shardOf fingerprint plan.components bins bin).componentSha256s.Perm
      (members.map (·.componentSha256)) := hholds.componentSha256s ▸ sortStrings_perm
  exact ⟨bin, members, hholds, fun _ => hperm.mem_iff, hperm, rfl, rfl⟩

/-- The components of a shard are those that its bin holds. -/
theorem Planned.mem_members {bin : Bin} {members : List Component}
    (hholds : Holds plan.components plan.policy bin members)
    (hcomponent : component ∈ plan.components)
    (hmember : component.componentSha256 ∈ members.map (·.componentSha256)) :
    component ∈ members := by
  obtain ⟨member, hmem, heq⟩ := mem_map.mp hmember
  rw [← inj_on_of_nodup_map hplanned.distinct (hholds.shared member hmem).1 hcomponent heq]
  exact hmem

theorem Planned.weight_eq (hshard : shard ∈ plan.sharedShards) :
    shard.picObjectByteWeight = ((plan.components.filter
      (·.componentSha256 ∈ shard.componentSha256s)).map (·.picObjectByteWeight)).sum := by
  obtain ⟨bin, members, hholds, hmem, hperm, _, hweight⟩ := hplanned.exists_members hshard
  have hdistinct : shard.componentSha256s.Nodup :=
    (nodup_flatMap.mp hplanned.members_distinct).1 shard hshard
  have hmembers : members.Nodup := (hperm.nodup_iff.mp hdistinct).of_map
  have hsame : members.Perm
      (plan.components.filter (·.componentSha256 ∈ shard.componentSha256s)) := by
    apply (perm_ext_iff_of_nodup hmembers (hplanned.distinct.of_map.filter _)).mpr
    intro component
    rw [mem_filter, decide_eq_true_iff, hmem]
    constructor
    · exact fun hmember => ⟨(hholds.shared component hmember).1, mem_map_of_mem hmember⟩
    · exact fun ⟨hcomponent, hmember⟩ => hplanned.mem_members hholds hcomponent hmember
  rw [hweight, hholds.weight]
  exact (hsame.map _).sum_eq

theorem Planned.dependencies_iff (hshard : shard ∈ plan.sharedShards) :
    sha256 ∈ shard.dependencies ↔
      ∃ other, ShardEdge units plan shard other ∧ other.shardSha256 = sha256 := by
  have hfound : ∀ component : Component, ∀ identity,
      shardOfComponent (bins.map (buildSharedShard fingerprint plan.components))
        component.componentSha256 = some identity ↔ ∃ other ∈ plan.sharedShards,
          component.componentSha256 ∈ other.componentSha256s ∧ other.shardSha256 = identity := by
    intro component identity
    rw [shardOfComponent_eq_some]
    · constructor
      · rintro ⟨built, hbuilt, hmem, hidentity⟩
        obtain ⟨bin, hbin, rfl⟩ := mem_map.mp hbuilt
        exact ⟨_, hplanned.mem_shards.mpr ⟨bin, hbin, rfl⟩, hmem, hidentity⟩
      · rintro ⟨other, hother, hmem, hidentity⟩
        obtain ⟨bin, hbin, rfl⟩ := hplanned.mem_shards.mp hother
        exact ⟨_, mem_map_of_mem hbin, hmem, hidentity⟩
    · have hdistinct := hplanned.members_distinct
      rw [hplanned.shards] at hdistinct
      have hsorted := (@sortBy_perm _ _ _ (·.shardSha256)
        (bins.map (shardOf fingerprint plan.components bins))).flatMap_right (·.componentSha256s)
      have hbins := hsorted.nodup_iff.mp hdistinct
      rw [flatMap_map] at hbins ⊢
      exact hbins
  obtain ⟨bin, hbin, heq⟩ := hplanned.mem_shards.mp hshard
  have hdependencies : shard.dependencies = shardDependencies plan.components
      (bins.map (buildSharedShard fingerprint plan.components))
      (buildSharedShard fingerprint plan.components bin) := heq ▸ rfl
  have hmembers : (buildSharedShard fingerprint plan.components bin).componentSha256s =
      shard.componentSha256s := heq ▸ rfl
  have hidentity : (buildSharedShard fingerprint plan.components bin).shardSha256 =
      shard.shardSha256 := heq ▸ rfl
  rw [hdependencies, mem_shardDependencies hplanned.distinct
    (hmembers ▸ hplanned.shard_known hshard), hmembers, hidentity]
  constructor
  · rintro ⟨component, hcomponent, hmember, dependency, hdependency, hshardOf, hne⟩
    obtain ⟨code, hcode, target, htarget, houtside, found, hfoundMem, htargetMem, rfl⟩ :=
      (hplanned.componentsOf.dependency component hcomponent dependency).mp hdependency
    obtain ⟨other, hother, hotherMem, rfl⟩ := (hfound found sha256).mp hshardOf
    refine ⟨other, ⟨hshard, hother, fun heq => hne (congrArg _ heq.symm), code, ?_, target, htarget,
      ?_⟩, rfl⟩
    · exact (hplanned.mem_shardCodes hshard).mpr ⟨component, hcomponent, hmember, hcode⟩
    · exact (hplanned.mem_shardCodes hother).mpr ⟨found, hfoundMem, hotherMem, htargetMem⟩
  · rintro ⟨other, ⟨_, hother, hne, code, hcode, target, htarget, htargetMem⟩, rfl⟩
    obtain ⟨component, hcomponent, hmember, hcodeMem⟩ := (hplanned.mem_shardCodes hshard).mp hcode
    obtain ⟨found, hfoundMem, hotherMem, htargetCode⟩ :=
      (hplanned.mem_shardCodes hother).mp htargetMem
    have houtside : target ∉ component.codeIdentitySha256s := by
      intro hinside
      have hsame := eq_of_mem_members hplanned.codes_distinct hcomponent hfoundMem hinside
        htargetCode
      exact hne (eq_of_mem_members hplanned.members_distinct hshard hother hmember
        (hsame ▸ hotherMem))
    refine ⟨component, hcomponent, hmember, found.componentSha256, ?_, ?_, fun heq => hne ?_⟩
    · exact (hplanned.componentsOf.dependency component hcomponent _).mpr
        ⟨code, hcodeMem, target, htarget, houtside, found, hfoundMem, htargetCode, rfl⟩
    · exact (hfound found _).mpr ⟨other, hother, hotherMem, rfl⟩
    · exact (inj_on_of_nodup_map hplanned.shards_distinct hother hshard heq).symm

theorem Planned.whole {first second : String}
    (hmutual : StrongComponents.Mutual (dependenciesOf units) first second)
    {holds : Component → Prop} :
    (∃ component ∈ plan.components, holds component ∧ first ∈ component.codeIdentitySha256s) ↔
      ∃ component ∈ plan.components, holds component ∧ second ∈ component.codeIdentitySha256s := by
  refine exists_congr fun component => and_congr_right fun hcomponent =>
    and_congr_right fun _ => ?_
  have hstrong := hplanned.componentsOf.strong component hcomponent
  exact ⟨fun hfirst => (hstrong first hfirst second).mpr hmutual,
    fun hsecond => (hstrong second hsecond first).mpr hmutual.symm⟩

theorem Planned.edge_of_dependency (hedge : ShardEdge units plan shard other) :
    other.shardSha256 ∈ dependenciesOfShard plan.sharedShards shard.shardSha256 := by
  rw [dependenciesOfShard_eq hplanned.shards_distinct hedge.1]
  exact (hplanned.dependencies_iff hedge.1).mpr ⟨other, hedge, rfl⟩

theorem Planned.acyclic : Acyclic (ShardEdge units plan) := by
  have hacyclic := hplanned.ordered.complete_iff.mp hplanned.order_length
  have hlift : ∀ shard other, ShardEdge units plan shard other →
      Edge (plan.sharedShards.map (·.shardSha256)) (dependenciesOfShard plan.sharedShards)
        shard.shardSha256 other.shardSha256 := fun shard other hedge =>
    ⟨mem_map_of_mem hedge.1, hplanned.edge_of_dependency hedge⟩
  intro shard hcycle
  exact hacyclic shard.shardSha256 (hcycle.lift (·.shardSha256) hlift)

theorem Planned.wellFormed : WellFormed units plan where
  distinct := hplanned.componentsOf.distinct
  partition := hplanned.partition
  whole first second hmutual := by
    constructor
    · intro shard hshard
      rw [hplanned.mem_shardCodes hshard, hplanned.mem_shardCodes hshard]
      exact hplanned.whole hmutual
    · rw [hplanned.mem_residualCodes, hplanned.mem_residualCodes]
      exact hplanned.whole hmutual
  strong := hplanned.componentsOf.strong
  shared shard hshard sha256 hsha256 := by
    obtain ⟨bin, members, hholds, hmem, _⟩ := hplanned.exists_members hshard
    obtain ⟨member, hmember, rfl⟩ := mem_map.mp ((hmem sha256).mp hsha256)
    obtain ⟨hcomponent, hshared⟩ := hholds.shared member hmember
    exact ⟨member, hcomponent, rfl, hshared⟩
  occurrences shard hshard := by
    obtain ⟨bin, members, hholds, hmem, _⟩ := hplanned.exists_members hshard
    have hsame : ∀ component ∈ plan.components,
        component.componentSha256 ∈ shard.componentSha256s →
          component.occurrenceCohortSha256s = bin.occurrenceCohortSha256s := by
      intro component hcomponent hsha256
      exact hholds.occurrences component
        (hplanned.mem_members hholds hcomponent ((hmem _).mp hsha256))
    refine ⟨bin.occurrenceCohortSha256s, hsame, fun unit hunit hcode => ?_⟩
    obtain ⟨component, hcomponent, hsha256, hmember⟩ := (hplanned.mem_shardCodes hshard).mp hcode
    rw [hplanned.componentsOf.occurrences component hcomponent unit hunit hmember]
    exact hsame component hcomponent hsha256
  weight shard hshard hnormal := by
    obtain ⟨bin, members, hholds, _, _, hoversize, hweight⟩ := hplanned.exists_members hshard
    refine ⟨hplanned.weight_eq hshard, ?_⟩
    rw [hweight]
    exact hholds.normal (hoversize ▸ hnormal)
  oversize shard hshard hoversize := by
    obtain ⟨bin, members, hholds, _, hperm, heq, _⟩ := hplanned.exists_members hshard
    obtain ⟨member, rfl⟩ := length_eq_one_iff.mp (hholds.oversize (heq ▸ hoversize)).1
    exact ⟨member, (hholds.shared member mem_cons_self).1, perm_singleton.mp hperm⟩
  dependencies shard hshard _ := hplanned.dependencies_iff hshard
  acyclic := hplanned.acyclic
  order_perm := hplanned.ordered.perm hplanned.order_length
  order_distinct := hplanned.ordered.distinct
  order_first shard other hedge := by
    have hperm := hplanned.ordered.perm hplanned.order_length
    exact hplanned.ordered.first.idxOf_lt (hperm.mem_iff.mpr (mem_map_of_mem hedge.1))
      (hplanned.edge_of_dependency hedge)

end

theorem planConvexWasmPhysicalShards_eq_ok
    (hok : planConvexWasmPhysicalShards fingerprint request = .ok plan) :
    Admitted request.logicalUnits ∧ ∃ policy, normalizePolicy fingerprint request.policy = .ok policy ∧
      planUnits fingerprint request.logicalUnits policy = .ok plan := by
  unfold planConvexWasmPhysicalShards at hok
  split at hok
  · cases hok
  · obtain ⟨policy, hpolicy, hunits⟩ := bind_eq_ok.mp hok
    obtain ⟨units, hadmit, hknown⟩ := bind_eq_ok.mp hunits
    obtain ⟨_, hchecked, hplan⟩ := bind_eq_ok.mp hknown
    obtain ⟨rfl, hadmissible⟩ := admitLogicalUnits_eq_ok hadmit ⟨nofun, List.Pairwise.nil⟩
    exact ⟨hadmissible.toAdmitted hchecked, policy, hpolicy, hplan⟩

theorem normalizePolicy_eq_ok {policy : RawPolicy} {normalized : Policy}
    (hok : normalizePolicy fingerprint policy = .ok normalized) :
    normalized.targetShardWeight = policy.targetShardWeight ∧
      0 < normalized.targetShardWeight ∧ normalized.targetShardWeight ≤ maxSafeInteger := by
  unfold normalizePolicy at hok
  split at hok
  · cases hok
  · obtain ⟨count, _, htarget⟩ := bind_eq_ok.mp hok
    obtain ⟨target, hchecked, hlast⟩ := bind_eq_ok.mp htarget
    obtain ⟨rfl, hpositive, hsafe⟩ := requirePositiveSafeInteger_eq_ok hchecked
    cases hlast
    exact ⟨rfl, hpositive, hsafe⟩

/-- The plan of an accepted request is well formed, for the target weight of the
request. -/
theorem plan_wellFormed (fingerprint : Payload → String) (request : PlanningRequest) (plan : Plan)
    (hok : planConvexWasmPhysicalShards fingerprint request = .ok plan) :
    WellFormed request.logicalUnits plan ∧
      plan.policy.targetShardWeight = request.policy.targetShardWeight := by
  obtain ⟨hadmitted, policy, hpolicy, hplan⟩ := planConvexWasmPhysicalShards_eq_ok hok
  obtain ⟨rfl, bins, hplanned⟩ := planUnits_eq_ok hadmitted hplan
  exact ⟨hplanned.wellFormed, (normalizePolicy_eq_ok hpolicy).1⟩

/-- A digest of one digit. -/
def repeatedDigit (digit : Char) : String := String.ofList (List.replicate 64 digit)

def sampleUnit (binding code pic : Char) (dependencies : List String) (byteWeight : ℤ)
    (logicalUnitSha256 : String) : AuthenticatedLogicalUnit where
  bindingIdentitySha256 := repeatedDigit binding
  codeIdentitySha256 := repeatedDigit code
  dependencies := dependencies
  kind := convexWasmPhysicalShardLogicalUnitKind
  occurrences := [repeatedDigit 'c', repeatedDigit 'd']
  picObject := { byteWeight, sha256 := repeatedDigit pic }
  shareable := true
  logicalUnitSha256 := logicalUnitSha256

/-- A unit and another that depends on it. -/
def sampleUnits : List AuthenticatedLogicalUnit :=
  [sampleUnit '1' 'a' 'e' [] 1 "15bfa2b1d14011fc8d0636466652ce093ac6f3b64e156dd84138871d08a616fc",
    sampleUnit '2' 'b' 'f' [repeatedDigit 'a'] 2
      "acaf57f70b780e8c6868d9d60a4c3a0f015ecff84aa272fbd4ba0f69186bfb0c"]

def sampleRequest (units : List AuthenticatedLogicalUnit) : PlanningRequest where
  kind := convexWasmPhysicalShardPlanningRequestKind
  logicalUnits := units
  policy := {
    kind := convexWasmPhysicalShardPolicyKind, minimumCohortCount := none, targetShardWeight := 8 }

/-- The digests that the planning of the two units meets. -/
def sampleFingerprint : Payload → String
  | .logicalUnit unit =>
    if unit.dependencies = [] then
      "15bfa2b1d14011fc8d0636466652ce093ac6f3b64e156dd84138871d08a616fc"
    else "acaf57f70b780e8c6868d9d60a4c3a0f015ecff84aa272fbd4ba0f69186bfb0c"
  | .policy .. => "ae980d5d667bbf8d8e6848ffbd1307d6183ddb685f63ec7468bd1baed1764512"
  | .componentBinding _ units =>
    if units.any (·.dependencies = []) then
      "3ad03a1787d97e2f696e5f4c0fee4032b6f4ca150741fc2f02ceb567fd1d80bf"
    else "c07d18e7d3885730dfa0921b852e60d99742214906459dce1c40b5b7e214fb1f"
  | .componentMaterial _ units =>
    if units.any (·.dependencies = []) then
      "0289ad805e922e9b600e5237302b3adb4f54e1d12fd2cbea377d12d81b3064bb"
    else "89e7ec3d892966ff3b7494e3e677a2309a8dc4e93efe594009ef19fb8a97e752"
  | .ambiguousComponentBinding stableBindingSha256 _ => stableBindingSha256
  | .shardBinding .. => "0f209630fb9eeaad3abc006cccb9600da0f122e74d1a1b6b22c5eaef7369e533"
  | .plan _ => "c298a1f2b66d11786616517936efb179a2a591ac70749aa1298dd880db74c4ae"

theorem plan_wellFormed_of_sample : ∃ plan,
    planConvexWasmPhysicalShards sampleFingerprint (sampleRequest sampleUnits) = .ok plan ∧
      plan.sharedShards.length = 1 ∧ WellFormed sampleUnits plan := by
  have haccepted : ((planConvexWasmPhysicalShards sampleFingerprint
      (sampleRequest sampleUnits)).toOption.map (·.sharedShards.length)) = some 1 := by
    decide +kernel
  obtain ⟨plan, hplan, hlength⟩ := Option.map_eq_some_iff.mp haccepted
  exact ⟨plan, toOption_eq_some.mp hplan, hlength,
    (plan_wellFormed sampleFingerprint (sampleRequest sampleUnits) plan
      (toOption_eq_some.mp hplan)).1⟩

end ConvexWasm.ShardPlanner
