import Mathlib

/-!
# Planning requests

A request names the logical units of an application with their code and binding
identities, dependencies and occurrences, and a policy.  All identities are
digests; sets of digests come sorted without duplicates.
-/

namespace ConvexWasm.ShardPlanner

def convexWasmPhysicalShardPlanningRequestKind : String :=
  "convex-wasm-physical-shard-planning-request-v2"

def convexWasmPhysicalShardLogicalUnitKind : String :=
  "convex-wasm-physical-shard-logical-unit-v2"

def convexWasmPhysicalShardPolicyKind : String :=
  "convex-wasm-physical-shard-policy-v2"

def convexWasmPhysicalShardDefaultMinimumCohortCount : ℤ := 2

/-- `Number.MAX_SAFE_INTEGER` -/
def maxSafeInteger : ℤ := 2 ^ 53 - 1

structure PicObject where
  byteWeight : ℤ
  sha256 : String
  deriving DecidableEq

@[ext]
structure LogicalUnit where
  bindingIdentitySha256 : String
  codeIdentitySha256 : String
  dependencies : List String
  kind : String
  occurrences : List String
  picObject : PicObject
  shareable : Bool
  deriving DecidableEq

structure AuthenticatedLogicalUnit extends LogicalUnit where
  logicalUnitSha256 : String
  deriving DecidableEq

structure RawPolicy where
  kind : String
  minimumCohortCount : Option ℤ
  targetShardWeight : ℤ
  deriving DecidableEq

structure PlanningRequest where
  kind : String
  logicalUnits : List AuthenticatedLogicalUnit
  policy : RawPolicy
  deriving DecidableEq

structure Policy where
  kind : String
  minimumCohortCount : ℤ
  targetShardWeight : ℤ
  policySha256 : String
  deriving DecidableEq

def convexWasmPhysicalShardComponentKind : String :=
  "convex-wasm-physical-shard-component-v2"

def convexWasmPhysicalShardKind : String :=
  "convex-wasm-physical-shard-v2"

def convexWasmPhysicalShardPlanKind : String :=
  "convex-wasm-physical-shard-plan-v2"

structure Component where
  bindingIdentitySha256s : List String
  codeIdentitySha256s : List String
  componentBindingSha256 : String
  componentSha256 : String
  dependencyComponentSha256s : List String
  logicalUnitSha256s : List String
  occurrenceCohortSha256s : List String
  picObjectByteWeight : ℤ
  shareable : Bool
  sharedEligible : Bool
  deriving DecidableEq

structure Shard where
  componentBindingSha256s : List String
  componentSha256s : List String
  dependencies : List String
  kind : String
  oversize : Bool
  picObjectByteWeight : ℤ
  shardSha256 : String
  deriving DecidableEq

inductive ResidualReason
  | containsNonShareableLogicalUnit
  | insufficientCohortOccurrences
  | dependsOnResidualComponent
  deriving DecidableEq

structure ResidualComponent where
  componentSha256 : String
  reason : ResidualReason
  deriving DecidableEq

/-- A plan before it has an identity. -/
structure PlanMaterial where
  components : List Component
  kind : String
  policy : Policy
  residualComponents : List ResidualComponent
  sharedShards : List Shard
  shardOrder : List String
  deriving DecidableEq

structure Plan extends PlanMaterial where
  planSha256 : String
  deriving DecidableEq

/-- A unit in the binding identity of its component. -/
structure BindingUnit where
  bindingIdentitySha256 : String
  dependencies : List String
  picObjectByteWeight : ℤ
  shareable : Bool
  deriving DecidableEq

/-- A unit in the material identity of its component. -/
structure MaterialUnit where
  codeIdentitySha256 : String
  dependencies : List String
  picObject : PicObject
  deriving DecidableEq

/-- What is fingerprinted, each kind in a domain of its own. -/
inductive Payload
  | logicalUnit (unit : LogicalUnit)
  | policy (kind : String) (minimumCohortCount targetShardWeight : ℤ)
  | componentBinding (kind : String) (units : List BindingUnit)
  | componentMaterial (kind : String) (units : List MaterialUnit)
  | ambiguousComponentBinding (stableBindingSha256 componentMaterialSha256 : String)
  | shardBinding (componentBindingSha256s : List String) (kind : String)
  | plan (material : PlanMaterial)
  deriving DecidableEq

section Validation

def fail {Result : Type} (message : String) : Except String Result :=
  .error ("Convex Wasm physical shard planner: " ++ message)

/-- `SHA256_PATTERN` -/
def isSha256 (value : String) : Bool :=
  value.length = 64 && value.toList.all fun digit => digit.isDigit || ('a' ≤ digit && digit ≤ 'f')

def requireSha256 (value description : String) : Except String String :=
  if isSha256 value then .ok value else fail (description ++ " must be a lowercase SHA-256 digest")

def requirePositiveSafeInteger (value : ℤ) (description : String) : Except String ℤ :=
  if value ≤ maxSafeInteger ∧ 0 < value then .ok value
  else fail (description ++ " must be a positive safe integer")

def requireNonNegativeSafeInteger (value : ℤ) (description : String) : Except String ℤ :=
  if value ≤ maxSafeInteger ∧ 0 ≤ value then .ok value
  else fail (description ++ " must be a non-negative safe integer")

/-- The members are digests, one after the other. -/
def requireSha256s (description : String) : ℕ → List String → Except String (List String)
  | _, [] => .ok []
  | index, member :: rest => do
      let member ← requireSha256 member (description ++ " " ++ toString index)
      let rest ← requireSha256s description (index + 1) rest
      return member :: rest

def requireCanonicalSha256Set (value : List String) (description : String) (allowEmpty : Bool) :
    Except String (List String) := do
  if allowEmpty = false ∧ value = [] then
    fail (description ++ " must be a non-empty array")
  else
    let normalized ← requireSha256s description 0 value
    if normalized.IsChain (· < ·) then return normalized
    else fail (description ++ " must be sorted without duplicates")

def addSafeIntegers (left right : ℤ) (description : String) : Except String ℤ :=
  if maxSafeInteger - left < right then fail (description ++ " exceeds the safe integer range")
  else .ok (left + right)

def normalizeLogicalUnitMaterial (unit : LogicalUnit) (description : String) :
    Except String LogicalUnit := do
  if unit.kind ≠ convexWasmPhysicalShardLogicalUnitKind then
    fail (description ++ " kind is unsupported")
  else
    let bindingIdentitySha256 ←
      requireSha256 unit.bindingIdentitySha256 (description ++ " binding identity")
    let codeIdentitySha256 ← requireSha256 unit.codeIdentitySha256 (description ++ " code identity")
    let dependencies ←
      requireCanonicalSha256Set unit.dependencies (description ++ " dependencies") true
    let occurrences ←
      requireCanonicalSha256Set unit.occurrences (description ++ " occurrences") false
    let byteWeight ← requireNonNegativeSafeInteger unit.picObject.byteWeight
      (description ++ " PIC object byte weight")
    let sha256 ← requireSha256 unit.picObject.sha256 (description ++ " PIC object SHA-256")
    return {
      bindingIdentitySha256, codeIdentitySha256, dependencies, kind := unit.kind, occurrences
      picObject := { byteWeight, sha256 }, shareable := unit.shareable }

variable (fingerprint : Payload → String)

def normalizeAuthenticatedLogicalUnit (unit : AuthenticatedLogicalUnit) (index : ℕ) :
    Except String AuthenticatedLogicalUnit := do
  let description := "logical unit " ++ toString index
  let normalized ← normalizeLogicalUnitMaterial unit.toLogicalUnit description
  let authenticatedIdentity ←
    requireSha256 unit.logicalUnitSha256 (description ++ " authenticated identity")
  if authenticatedIdentity ≠ fingerprint (.logicalUnit normalized) then
    fail (description ++ " authenticated identity is invalid")
  else return { normalized with logicalUnitSha256 := authenticatedIdentity }

/-- The count of a policy, or the default. -/
def normalizeMinimumCohortCount (minimumCohortCount : Option ℤ) : Except String ℤ :=
  match minimumCohortCount with
  | none => .ok convexWasmPhysicalShardDefaultMinimumCohortCount
  | some count => requirePositiveSafeInteger count "physical shard policy minimum cohort count"

def normalizePolicy (policy : RawPolicy) : Except String Policy := do
  if policy.kind ≠ convexWasmPhysicalShardPolicyKind then
    fail "physical shard policy kind is unsupported"
  else
    let minimumCohortCount ← normalizeMinimumCohortCount policy.minimumCohortCount
    let targetShardWeight ← requirePositiveSafeInteger policy.targetShardWeight
      "physical shard policy target shard weight"
    return {
      kind := policy.kind, minimumCohortCount, targetShardWeight
      policySha256 :=
        fingerprint (.policy policy.kind minimumCohortCount targetShardWeight) }

/-- The loop over the units of a request.  The units of one binding must not
occur in one cohort. -/
def admitLogicalUnits : ℕ → List AuthenticatedLogicalUnit → List AuthenticatedLogicalUnit →
    Except String (List AuthenticatedLogicalUnit)
  | _, admitted, [] => .ok admitted
  | index, admitted, rawUnit :: rest => do
      let unit ← normalizeAuthenticatedLogicalUnit fingerprint rawUnit index
      if admitted.any (·.codeIdentitySha256 = unit.codeIdentitySha256) then
        fail ("physical shard planning request repeats code identity " ++ unit.codeIdentitySha256)
      else if admitted.any (·.logicalUnitSha256 = unit.logicalUnitSha256) then
        fail ("physical shard planning request repeats logical unit identity " ++
          unit.logicalUnitSha256)
      else if admitted.any fun variant =>
          variant.bindingIdentitySha256 = unit.bindingIdentitySha256 &&
            variant.occurrences.any (· ∈ unit.occurrences) then
        fail ("physical shard planning request selects multiple exact variants for stable " ++
          "binding " ++ unit.bindingIdentitySha256 ++ " in one cohort")
      else admitLogicalUnits (index + 1) (admitted ++ [unit]) rest

/-- Every dependency is the code identity of a unit. -/
def requireKnownDependencies (units : List AuthenticatedLogicalUnit) : Except String Unit :=
  units.forM fun unit => unit.dependencies.forM fun dependency =>
    if units.any (·.codeIdentitySha256 = dependency) then .ok ()
    else fail ("logical unit " ++ unit.codeIdentitySha256 ++ " references unknown dependency " ++
      dependency)

end Validation

end ConvexWasm.ShardPlanner
