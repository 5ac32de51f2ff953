import ConvexWasm.ShardPlanner.Placement

/-!
# Plans

The bins become shards with identities of their bindings, the dependencies of
their components become dependencies of shards, and the shards are put into an
order in which each comes after those it depends on.
-/

namespace ConvexWasm.ShardPlanner

section Shards

variable (fingerprint : Payload → String)

/-- A bin as a shard without dependencies. -/
def buildSharedShard (components : List Component) (bin : Bin) : Shard :=
  let componentSha256s := sortStrings bin.componentSha256s
  let componentBindingSha256s := sortStrings (componentSha256s.filterMap fun componentSha256 =>
    (components.find? (·.componentSha256 = componentSha256)).map (·.componentBindingSha256))
  { componentBindingSha256s, componentSha256s
    dependencies := []
    kind := convexWasmPhysicalShardKind
    oversize := bin.oversize
    picObjectByteWeight := bin.picObjectByteWeight
    shardSha256 :=
      fingerprint (.shardBinding componentBindingSha256s convexWasmPhysicalShardKind) }

/-- `shardByComponentSha256.get` -/
def shardOfComponent (shards : List Shard) (componentSha256 : String) : Option String :=
  (shards.find? (componentSha256 ∈ ·.componentSha256s)).map (·.shardSha256)

/-- The shards that the components of a shard depend on. -/
def shardDependencies (components : List Component) (shards : List Shard) (shard : Shard) :
    List String :=
  sortStrings ((shard.componentSha256s.flatMap fun componentSha256 =>
    match components.find? (·.componentSha256 = componentSha256) with
    | none => []
    | some component =>
      (component.dependencyComponentSha256s.filterMap (shardOfComponent shards)).filter
        (· ≠ shard.shardSha256)).dedup)

def buildSharedShards (bins : List Bin) (components : List Component) :
    Except String (List Shard) := do
  let shards := bins.map (buildSharedShard fingerprint components)
  if ¬ (shards.flatMap (·.componentSha256s)).Nodup then
    fail "physical shard placement repeats a shared component"
  else if ¬ (shards.map (·.shardSha256)).Nodup then fail "physical shard identities collide"
  else
    return sortBy (·.shardSha256) (shards.map fun shard =>
      { shard with dependencies := shardDependencies components shards shard })

end Shards

/-- The dependents of a shard, once for each of their dependencies on it. -/
def dependentsOf (shards : List Shard) (shardSha256 : String) : List String :=
  shards.flatMap fun shard =>
    (shard.dependencies.filter (· = shardSha256)).map fun _ => shard.shardSha256

/-- `remainingDependencyCounts` at first -/
def dependencyCount (shards : List Shard) (shardSha256 : String) : ℤ :=
  match shards.find? (·.shardSha256 = shardSha256) with
  | some shard => shard.dependencies.length
  | none => 0

def orderShards (shards : List Shard) : Except String (List String) :=
  if shards.any fun shard => shard.dependencies.any fun dependency =>
      !shards.any (·.shardSha256 = dependency) then
    fail "physical shard dependency references an unknown shard"
  else
    let ready := sortStrings ((shards.map (·.shardSha256)).filter fun shardSha256 =>
      dependencyCount shards shardSha256 = 0)
    let order := TopologicalOrder.drain
      (fun shardSha256 => sortStrings (dependentsOf shards shardSha256))
      (fun ready released => sortStrings (ready ++ released))
      shards.length (dependencyCount shards) ready []
    if order.length ≠ shards.length then fail "physical shard dependencies contain a cycle"
    else .ok order

section Planning

variable (fingerprint : Payload → String)

def residualReason (policy : Policy) (component : Component) : ResidualReason :=
  if component.shareable = false then .containsNonShareableLogicalUnit
  else if (component.occurrenceCohortSha256s.length : ℤ) < policy.minimumCohortCount then
    .insufficientCohortOccurrences
  else .dependsOnResidualComponent

def residualComponents (components : List Component) (policy : Policy) : List ResidualComponent :=
  sortBy (·.componentSha256)
    ((components.filter fun component => !component.sharedEligible).map fun component =>
      { componentSha256 := component.componentSha256, reason := residualReason policy component })

/-- The plan for admitted units. -/
def planUnits (units : List AuthenticatedLogicalUnit) (policy : Policy) : Except String Plan := do
  let components ← buildComponents fingerprint units policy
  let bins ← placeSharedComponents components policy
  let sharedShards ← buildSharedShards fingerprint bins components
  let shardOrder ← orderShards sharedShards
  let material : PlanMaterial := {
    components, kind := convexWasmPhysicalShardPlanKind, policy
    residualComponents := residualComponents components policy, sharedShards, shardOrder }
  return { material with planSha256 := fingerprint (.plan material) }

def planConvexWasmPhysicalShards (request : PlanningRequest) : Except String Plan := do
  if request.kind ≠ convexWasmPhysicalShardPlanningRequestKind then
    fail "physical shard planning request kind is unsupported"
  else
    let policy ← normalizePolicy fingerprint request.policy
    let units ← admitLogicalUnits fingerprint 0 [] request.logicalUnits
    requireKnownDependencies units
    planUnits fingerprint units policy

end Planning

end ConvexWasm.ShardPlanner
