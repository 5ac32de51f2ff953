import ConvexWasm.ShardPlanner.UnitRenaming

/-!
# Stable shard roles

A request in which only code identities and contents have changed gets the same
shards: the same bindings are grouped, under the same identities, with the same
dependencies and in the same order, as long as no two components have one
binding.
-/

namespace ConvexWasm.ShardPlanner

open Fallible List TopologicalOrder

/-- The binding identities of the units of a component. -/
def bindingsOf (components : List Component) (componentSha256 : String) : List String :=
  match components.find? (·.componentSha256 = componentSha256) with
  | some component => component.bindingIdentitySha256s
  | none => []

/-- What a shard is apart from the code in it. -/
structure ShardRole where
  bindingIdentitySha256s : List String
  componentBindingSha256s : List String
  dependencies : List String
  oversize : Bool
  picObjectByteWeight : ℤ
  shardSha256 : String
  deriving DecidableEq

def shardRole (components : List Component) (shard : Shard) : ShardRole where
  bindingIdentitySha256s := sortStrings (shard.componentSha256s.flatMap (bindingsOf components))
  componentBindingSha256s := shard.componentBindingSha256s
  dependencies := shard.dependencies
  oversize := shard.oversize
  picObjectByteWeight := shard.picObjectByteWeight
  shardSha256 := shard.shardSha256

/-- The roles of the shards of a plan. -/
def Plan.shardRoles (plan : Plan) : List ShardRole :=
  plan.sharedShards.map (shardRole plan.components)

variable {shards shards' : List Shard} {shardSha256 : String}

/-- The part of a shard that the order depends on. -/
def orderKey (shard : Shard) : String × List String := (shard.shardSha256, shard.dependencies)

theorem dependentsOf_congr (hkeys : shards'.map orderKey = shards.map orderKey) :
    dependentsOf shards' = dependentsOf shards := by
  have hmap : ∀ shards, dependentsOf shards = fun shardSha256 =>
      (shards.map orderKey).flatMap fun key =>
        (key.2.filter (· = shardSha256)).map fun _ => key.1 := by
    intro shards
    funext shardSha256
    rw [dependentsOf, flatMap_map]
    rfl
  rw [hmap, hmap, hkeys]

theorem dependencyCount_congr (hkeys : shards'.map orderKey = shards.map orderKey) :
    dependencyCount shards' = dependencyCount shards := by
  have hmap : ∀ shards, dependencyCount shards = fun shardSha256 =>
      match (shards.map orderKey).find? (·.1 = shardSha256) with
      | some key => key.2.length
      | none => 0 := by
    intro shards
    funext shardSha256
    rw [dependencyCount, List.find?_map]
    change _ = match (shards.find? (·.shardSha256 = shardSha256)).map orderKey with
      | some key => (key.2.length : ℤ)
      | none => 0
    cases shards.find? (·.shardSha256 = shardSha256) with
    | none => rfl
    | some shard => rfl
  rw [hmap, hmap, hkeys]

/-- The order is one of the identities and the dependencies of the shards. -/
theorem orderShards_congr (hkeys : shards'.map orderKey = shards.map orderKey) :
    orderShards shards' = orderShards shards := by
  have hunknown : ∀ shards : List Shard, (shards.any fun shard =>
      shard.dependencies.any fun dependency => !shards.any (·.shardSha256 = dependency)) =
        (shards.map orderKey).any fun key => key.2.any fun dependency =>
          !(shards.map orderKey).any (·.1 = dependency) := by
    intro shards
    simp only [any_map]
    rfl
  have hsha256s : shards'.map (·.shardSha256) = shards.map (·.shardSha256) := by
    have hfst := congrArg (List.map Prod.fst) hkeys
    rw [map_map, map_map] at hfst
    exact hfst
  have hlength : shards'.length = shards.length := by
    have hlengths := congrArg List.length hkeys
    rwa [length_map, length_map] at hlengths
  rw [orderShards, orderShards, hunknown, hunknown, hkeys, hsha256s, hlength,
    dependentsOf_congr hkeys, dependencyCount_congr hkeys]

variable {fingerprint : Payload → String} {pairs : List (Component × Component)}
  {bins : List (Bin × Bin)} {bin bin' : Bin} {entry : Bin × Bin} {sha256 : String}

theorem componentBindingSha256s_eq {components : List Component} :
    (buildSharedShard fingerprint components bin).componentBindingSha256s =
      binMembershipKey components bin :=
  sortStrings_eq_of_perm (sortStrings_perm.filterMap _)

theorem TwinBins.componentBindingSha256s_eq (htwins : Twins pairs)
    (hbins : TwinBins pairs bin bin') :
    (buildSharedShard fingerprint (pairs.map Prod.snd) bin').componentBindingSha256s =
      (buildSharedShard fingerprint (pairs.map Prod.fst) bin).componentBindingSha256s := by
  rw [ShardPlanner.componentBindingSha256s_eq, ShardPlanner.componentBindingSha256s_eq,
    hbins.binMembershipKey_eq htwins]

theorem TwinBins.shardSha256_eq (htwins : Twins pairs) (hbins : TwinBins pairs bin bin') :
    (buildSharedShard fingerprint (pairs.map Prod.snd) bin').shardSha256 =
      (buildSharedShard fingerprint (pairs.map Prod.fst) bin).shardSha256 := by
  have hbindings := @TwinBins.componentBindingSha256s_eq fingerprint _ _ _ htwins hbins
  unfold buildSharedShard at hbindings ⊢
  dsimp only at hbindings ⊢
  rw [hbindings]

theorem mem_buildSharedShard {components : List Component} :
    sha256 ∈ (buildSharedShard fingerprint components bin).componentSha256s ↔
      sha256 ∈ bin.componentSha256s :=
  mem_sortStrings

theorem TwinBins.known (hbins : TwinBins pairs bin bin') :
    (∀ sha256 ∈ bin.componentSha256s, sha256 ∈ (pairs.map Prod.fst).map (·.componentSha256)) ∧
      ∀ sha256 ∈ bin'.componentSha256s,
        sha256 ∈ (pairs.map Prod.snd).map (·.componentSha256) := by
  obtain ⟨members, hmembers, hfirst, hsecond⟩ := hbins.members
  constructor
  · intro sha256 hsha256
    rw [hfirst] at hsha256
    obtain ⟨member, hmember, rfl⟩ := mem_map.mp hsha256
    exact mem_map_of_mem (mem_map_of_mem (hmembers member hmember))
  · intro sha256 hsha256
    rw [hsecond] at hsha256
    obtain ⟨member, hmember, rfl⟩ := mem_map.mp hsha256
    exact mem_map_of_mem (mem_map_of_mem (hmembers member hmember))

theorem TwinBins.bindings_eq (htwins : Twins pairs) (hbins : TwinBins pairs bin bin') :
    bin'.componentSha256s.flatMap (bindingsOf (pairs.map Prod.snd)) =
      bin.componentSha256s.flatMap (bindingsOf (pairs.map Prod.fst)) := by
  obtain ⟨members, hmembers, hfirst, hsecond⟩ := hbins.members
  rw [hfirst, hsecond, flatMap_map, flatMap_map]
  apply flatMap_congr
  intro member hmember
  have hmem := hmembers member hmember
  have hfoundFirst := find?_key_eq htwins.closed.distinct (mem_map_of_mem hmem)
  have hfoundSecond := find?_key_eq htwins.closed'.distinct (mem_map_of_mem hmem)
  rw [bindingsOf, bindingsOf, hfoundFirst, hfoundSecond]
  exact (htwins.members member hmem).symm

/-- The shards of all bins on one side. -/
def sideShards (fingerprint : Payload → String) (pairs : List (Component × Component))
    (bins : List (Bin × Bin)) (side : Component × Component → Component)
    (sideBin : Bin × Bin → Bin) : List Shard :=
  (bins.map sideBin).map (buildSharedShard fingerprint (pairs.map side))

/-- The dependencies of a shard in terms of the pairs. -/
theorem mem_sideShards_dependencies {side : Component × Component → Component}
    {sideBin : Bin × Bin → Bin} (hclosed : Closed (pairs.map side))
    (hdistinct : ((sideShards fingerprint pairs bins side sideBin).flatMap
      (·.componentSha256s)).Nodup) (hknown : ∀ sha256 ∈ (sideBin entry).componentSha256s,
      sha256 ∈ (pairs.map side).map (·.componentSha256)) :
    sha256 ∈ shardDependencies (pairs.map side) (sideShards fingerprint pairs bins side sideBin)
        (buildSharedShard fingerprint (pairs.map side) (sideBin entry)) ↔
      ∃ pair ∈ pairs, (side pair).componentSha256 ∈ (sideBin entry).componentSha256s ∧
        ∃ other ∈ pairs, (side other).componentSha256 ∈ (side pair).dependencyComponentSha256s ∧
          (∃ found ∈ bins, (side other).componentSha256 ∈ (sideBin found).componentSha256s ∧
            (buildSharedShard fingerprint (pairs.map side) (sideBin found)).shardSha256 = sha256) ∧
          sha256 ≠ (buildSharedShard fingerprint (pairs.map side) (sideBin entry)).shardSha256 := by
  have hshard : ∀ other, shardOfComponent (sideShards fingerprint pairs bins side sideBin)
      (side other).componentSha256 = some sha256 ↔
        ∃ found ∈ bins, (side other).componentSha256 ∈ (sideBin found).componentSha256s ∧
          (buildSharedShard fingerprint (pairs.map side) (sideBin found)).shardSha256 = sha256 := by
    intro other
    rw [shardOfComponent_eq_some hdistinct]
    simp [sideShards, mem_buildSharedShard]
  rw [mem_shardDependencies hclosed.distinct fun sha256 hsha256 =>
    hknown sha256 (mem_buildSharedShard.mp hsha256)]
  constructor
  · rintro ⟨component, hcomponent, hmember, dependency, hdependency, hfound, hne⟩
    have hdependencyKnown := hclosed.known component hcomponent dependency hdependency
    obtain ⟨pair, hpair, rfl⟩ := mem_map.mp hcomponent
    rw [map_map] at hdependencyKnown
    obtain ⟨other, hother, rfl⟩ := mem_map.mp hdependencyKnown
    exact ⟨pair, hpair, mem_buildSharedShard.mp hmember, other, hother, hdependency,
      (hshard other).mp hfound, hne⟩
  · rintro ⟨pair, hpair, hmember, other, hother, hdependency, hfound, hne⟩
    exact ⟨side pair, mem_map_of_mem hpair, mem_buildSharedShard.mpr hmember, _, hdependency,
      (hshard other).mpr hfound, hne⟩

section

variable (htwins : Twins pairs) (hbins : ∀ entry ∈ bins, TwinBins pairs entry.1 entry.2)
  (hdistinct : ((sideShards fingerprint pairs bins Prod.fst Prod.fst).flatMap (·.componentSha256s)).Nodup)
  (hdistinct' : ((sideShards fingerprint pairs bins Prod.snd Prod.snd).flatMap (·.componentSha256s)).Nodup)
  (hentry : entry ∈ bins)
include htwins hbins hdistinct hdistinct' hentry

/-- Corresponding shards depend on corresponding shards. -/
theorem shardDependencies_twins :
    shardDependencies (pairs.map Prod.snd) (sideShards fingerprint pairs bins Prod.snd Prod.snd)
        (buildSharedShard fingerprint (pairs.map Prod.snd) entry.2) =
      shardDependencies (pairs.map Prod.fst) (sideShards fingerprint pairs bins Prod.fst Prod.fst)
        (buildSharedShard fingerprint (pairs.map Prod.fst) entry.1) := by
  have htwin := hbins entry hentry
  apply List.Perm.eq_of_pairwise (fun _ _ _ _ => le_antisymm) sortStrings_sorted sortStrings_sorted
  apply (perm_ext_iff_of_nodup shardDependencies_nodup shardDependencies_nodup).mpr
  intro sha256
  rw [mem_sideShards_dependencies htwins.closed hdistinct htwin.known.1,
    mem_sideShards_dependencies htwins.closed' hdistinct' htwin.known.2,
    htwin.shardSha256_eq htwins]
  refine exists_congr fun pair => and_congr_right fun hpair => ?_
  rw [htwin.mem_iff htwins hpair]
  refine and_congr_right fun _ => exists_congr fun other => and_congr_right fun hother => ?_
  rw [htwins.edges pair hpair other hother]
  refine and_congr_right fun _ => and_congr_left fun _ => exists_congr fun found =>
    and_congr_right fun hfound => ?_
  rw [(hbins found hfound).mem_iff htwins hother, (hbins found hfound).shardSha256_eq htwins]

/-- Corresponding bins become shards of one role. -/
theorem shardRole_twins :
    shardRole (pairs.map Prod.snd)
        (shardOf fingerprint (pairs.map Prod.snd) (bins.map Prod.snd) entry.2) =
      shardRole (pairs.map Prod.fst)
        (shardOf fingerprint (pairs.map Prod.fst) (bins.map Prod.fst) entry.1) := by
  have htwin := hbins entry hentry
  have hdependencies := shardDependencies_twins htwins hbins hdistinct hdistinct' hentry
  have hbindings : sortStrings ((sortStrings entry.2.componentSha256s).flatMap
      (bindingsOf (pairs.map Prod.snd))) =
        sortStrings ((sortStrings entry.1.componentSha256s).flatMap
          (bindingsOf (pairs.map Prod.fst))) := by
    rw [sortStrings_eq_of_perm (sortStrings_perm.flatMap_right _),
      sortStrings_eq_of_perm (sortStrings_perm.flatMap_right _), htwin.bindings_eq htwins]
  unfold shardRole shardOf
  rw [htwin.componentBindingSha256s_eq htwins, htwin.shardSha256_eq htwins]
  congr 1
  · exact htwin.oversize.symm
  · exact htwin.weight.symm

end

theorem buildSharedShards_distinct {components : List Component} {bins : List Bin}
    (hok : buildSharedShards fingerprint bins components = .ok shards) :
    ((bins.map (buildSharedShard fingerprint components)).flatMap (·.componentSha256s)).Nodup := by
  unfold buildSharedShards at hok
  dsimp only at hok
  split at hok
  · cases hok
  · rename_i hdistinct
    exact not_not.mp hdistinct

/-- The shards of corresponding bins, sorted, have the same roles one by one. -/
theorem shardRoles_twins (htwins : Twins pairs)
    (hbins : ∀ entry ∈ bins, TwinBins pairs entry.1 entry.2) {shards' : List Shard}
    (hok : buildSharedShards fingerprint (bins.map Prod.fst) (pairs.map Prod.fst) = .ok shards)
    (hok' : buildSharedShards fingerprint (bins.map Prod.snd) (pairs.map Prod.snd) = .ok shards') :
    shards'.map (shardRole (pairs.map Prod.snd)) = shards.map (shardRole (pairs.map Prod.fst)) := by
  have hdistinct := buildSharedShards_distinct hok
  have hdistinct' := buildSharedShards_distinct hok'
  have hrole : ∀ entry ∈ bins, _ := fun entry hentry =>
    shardRole_twins htwins hbins hdistinct hdistinct' hentry
  rw [(buildSharedShards_eq_ok hok).1, (buildSharedShards_eq_ok hok').1, map_map, map_map]
  have hsorted := @sortBy_map _ _ _
    (fun entry : Bin × Bin => (buildSharedShard fingerprint (pairs.map Prod.fst) entry.1).shardSha256)
    bins _ (·.shardSha256)
    (fun entry => shardOf fingerprint (pairs.map Prod.fst) (bins.map Prod.fst) entry.1)
    fun _ _ => rfl
  have hsorted' := @sortBy_map _ _ _
    (fun entry : Bin × Bin => (buildSharedShard fingerprint (pairs.map Prod.fst) entry.1).shardSha256)
    bins _ (·.shardSha256)
    (fun entry => shardOf fingerprint (pairs.map Prod.snd) (bins.map Prod.snd) entry.2)
    fun entry hentry => (hbins entry hentry).shardSha256_eq htwins
  calc _ = (sortBy (·.shardSha256) (bins.map fun entry => shardOf fingerprint (pairs.map Prod.snd)
        (bins.map Prod.snd) entry.2)).map (shardRole (pairs.map Prod.snd)) := rfl
    _ = (sortBy (·.shardSha256) (bins.map fun entry => shardOf fingerprint (pairs.map Prod.fst)
        (bins.map Prod.fst) entry.1)).map (shardRole (pairs.map Prod.fst)) := by
      rw [hsorted, hsorted', map_map, map_map]
      apply map_congr_left
      intro entry hentry
      exact hrole entry (mem_sortBy.mp hentry)
    _ = _ := rfl

variable {rename : String → String} {units units' : List AuthenticatedLogicalUnit} {policy : Policy}
  {plan plan' : Plan}

theorem planUnits_roles (hunits : RenamedUnits rename units units')
    (hbindings : (stableBindings fingerprint units).Nodup)
    (htarget : policy.targetShardWeight ≤ maxSafeInteger)
    (hok : planUnits fingerprint units policy = .ok plan)
    (hok' : planUnits fingerprint units' policy = .ok plan') :
    plan'.shardRoles = plan.shardRoles ∧ plan'.shardOrder = plan.shardOrder := by
  obtain ⟨components, hcomponents, hplaced⟩ := bind_eq_ok.mp hok
  obtain ⟨bins, hbins, hshared⟩ := bind_eq_ok.mp hplaced
  obtain ⟨shards, hshards, horder⟩ := bind_eq_ok.mp hshared
  obtain ⟨order, horderOk, hlast⟩ := bind_eq_ok.mp horder
  obtain ⟨components', hcomponents', hplaced'⟩ := bind_eq_ok.mp hok'
  obtain ⟨bins', hbins', hshared'⟩ := bind_eq_ok.mp hplaced'
  obtain ⟨shards', hshards', horder'⟩ := bind_eq_ok.mp hshared'
  obtain ⟨order', horderOk', hlast'⟩ := bind_eq_ok.mp horder'
  cases hlast
  cases hlast'
  obtain ⟨_, hquotient, _⟩ := bind_eq_ok.mp hbins
  obtain ⟨_, hquotient', _⟩ := bind_eq_ok.mp hbins'
  have hlist : Distinct fingerprint units policy components :=
    ⟨buildComponents_eq_ok hcomponents, createPhysicalShardQuotient_distinct hquotient, hbindings⟩
  have hbuilt' := buildComponents_eq_ok hcomponents'
  have hlist' : Distinct fingerprint units' policy components' :=
    ⟨hbuilt', createPhysicalShardQuotient_distinct hquotient',
      stableBindings_nodup hunits hbuilt'.coherent hbindings⟩
  obtain ⟨hfst, hsnd, htwins⟩ := components_twins hunits hlist hlist'
  have hacyclic := (hlist.built.componentsOf hunits.admitted).acyclic hlist.sha256s
  have hacyclic' := (hlist'.built.componentsOf hunits.admitted').acyclic hlist'.sha256s
  rw [← hfst] at hacyclic hbins hshards
  rw [← hsnd] at hacyclic' hbins' hshards'
  obtain ⟨entries, hentries, hentries', htwinBins⟩ :=
    placeSharedComponents_twins htwins hacyclic hacyclic' htarget
  cases hentries.symm.trans hbins
  cases hentries'.symm.trans hbins'
  have hroles := shardRoles_twins htwins htwinBins hshards hshards'
  have hkeys := congrArg (List.map fun role => (role.shardSha256, role.dependencies)) hroles
  rw [map_map, map_map] at hkeys
  have hsame := @orderShards_congr shards shards' hkeys
  rw [horderOk, horderOk'] at hsame
  rw [hfst, hsnd] at hroles
  cases hsame
  exact ⟨hroles, rfl⟩

/-- A request under other code identities and with other contents.  The units
may stand in another order. -/
structure RenamedRequest (rename : String → String) (request request' : PlanningRequest) :
    Prop where
  policy : request'.policy = request.policy
  units : ∃ units, List.Forall₂ (Renamed rename) request.logicalUnits units ∧
    units.Perm request'.logicalUnits

/-- If no two components have one binding, the shards of a plan keep their roles
and their order when code identities are renamed and contents change. -/
theorem stable_shard_roles (fingerprint : Payload → String) (rename : String → String)
    (request request' : PlanningRequest) (plan plan' : Plan)
    (hrenamed : RenamedRequest rename request request')
    (hbindings : (stableBindings fingerprint request.logicalUnits).Nodup)
    (hok : planConvexWasmPhysicalShards fingerprint request = .ok plan)
    (hok' : planConvexWasmPhysicalShards fingerprint request' = .ok plan') :
    plan'.shardRoles = plan.shardRoles ∧ plan'.shardOrder = plan.shardOrder := by
  obtain ⟨units, hunits, hperm⟩ := hrenamed.units
  have hok'' := @planConvexWasmPhysicalShards_perm fingerprint request'
    { request' with logicalUnits := units } plan' rfl rfl hperm.symm hok'
  obtain ⟨hadmitted, policy, hpolicy, hplan⟩ := planConvexWasmPhysicalShards_eq_ok hok
  obtain ⟨hadmitted', policy', hpolicy', hplan'⟩ := planConvexWasmPhysicalShards_eq_ok hok''
  rw [hrenamed.policy, hpolicy] at hpolicy'
  cases hpolicy'
  exact planUnits_roles ⟨hadmitted, hadmitted', hunits⟩ hbindings
    (normalizePolicy_eq_ok hpolicy).2.2 hplan hplan'

/-- The two units with other code, whose identities are in the other order. -/
def renamedUnits : List AuthenticatedLogicalUnit :=
  [sampleUnit '2' '8' '6' [repeatedDigit '9'] 2
      "d9a4523faa09ddc74664ff36b0df96d3c0eb4eac2f95dffa139db278a4fa4d4a",
    sampleUnit '1' '9' '7' [] 1 "d2e5022b6b392610c81db947c4fdb4f92399675e80fff5557d3352ce087918c9"]

def renameSample (codeIdentitySha256 : String) : String :=
  if codeIdentitySha256 = repeatedDigit 'a' then repeatedDigit '9' else repeatedDigit '8'

/-- The digests that the planning of the units meets, with both codes. -/
def renamedFingerprint : Payload → String
  | .logicalUnit unit =>
    if unit.codeIdentitySha256 = repeatedDigit '9' then
      "d2e5022b6b392610c81db947c4fdb4f92399675e80fff5557d3352ce087918c9"
    else if unit.codeIdentitySha256 = repeatedDigit '8' then
      "d9a4523faa09ddc74664ff36b0df96d3c0eb4eac2f95dffa139db278a4fa4d4a"
    else sampleFingerprint (.logicalUnit unit)
  | .componentMaterial kind units =>
    if units.any (·.codeIdentitySha256 = repeatedDigit '9') then
      "a41893f2037ff31b7d5208c689f266da65983bf33dd6864a78abe65a10f06f30"
    else if units.any (·.codeIdentitySha256 = repeatedDigit '8') then
      "bceb99f8b67cafa874546fe3176e39435cd9971066a8c3d74e59cd58fc9a9e15"
    else sampleFingerprint (.componentMaterial kind units)
  | .plan material =>
    if material.components.any (repeatedDigit '9' ∈ ·.codeIdentitySha256s) then
      "0dfafbb476c105bf52b45d23d8e9aa5326ff726b6f73e398b2004fdd10f4725b"
    else sampleFingerprint (.plan material)
  | payload => sampleFingerprint payload

theorem renamedUnits_renamed :
    RenamedRequest renameSample (sampleRequest sampleUnits) (sampleRequest renamedUnits) where
  policy := rfl
  units := by
    refine ⟨renamedUnits.reverse, .cons ?_ (.cons ?_ .nil), reverse_perm _⟩
    · constructor <;> decide +kernel
    · constructor <;> decide +kernel

theorem stable_shard_roles_of_renamed : ∃ plan plan',
    planConvexWasmPhysicalShards renamedFingerprint (sampleRequest sampleUnits) = .ok plan ∧
      planConvexWasmPhysicalShards renamedFingerprint (sampleRequest renamedUnits) = .ok plan' ∧
      plan.sharedShards.length = 1 ∧ plan'.shardRoles = plan.shardRoles ∧
      plan'.shardOrder = plan.shardOrder := by
  have haccepted : (planConvexWasmPhysicalShards renamedFingerprint
      (sampleRequest sampleUnits)).toOption.map (·.sharedShards.length) = some 1 := by
    decide +kernel
  have haccepted' : (planConvexWasmPhysicalShards renamedFingerprint
      (sampleRequest renamedUnits)).toOption.isSome = true := by
    decide +kernel
  obtain ⟨plan, hplan, hlength⟩ := Option.map_eq_some_iff.mp haccepted
  obtain ⟨plan', hplan'⟩ := Option.isSome_iff_exists.mp haccepted'
  exact ⟨plan, plan', toOption_eq_some.mp hplan, toOption_eq_some.mp hplan', hlength,
    stable_shard_roles renamedFingerprint renameSample (sampleRequest sampleUnits)
      (sampleRequest renamedUnits) plan plan' renamedUnits_renamed (by decide +kernel)
      (toOption_eq_some.mp hplan) (toOption_eq_some.mp hplan')⟩

end ConvexWasm.ShardPlanner
