import ConvexWasm.Core.GuardedAccumulation
import ConvexWasm.Core.JsText
import ConvexWasm.Core.KeyedMap

/-!
# Requests for entry groups

A request lists modules with their costs, and entries with the closures of
their modules.  Accepted entries name known modules once and are sorted by
their paths.
-/

namespace ConvexWasm.EntryGrouping

open Fallible GuardedAccumulation JsText

structure ModuleCost where
  id : String
  cost : ℤ
  deriving DecidableEq

structure EntryClosure where
  entryPath : String
  dependencies : List String
  deriving DecidableEq

/-- The inflation is a finite double. -/
structure Request where
  modules : List ModuleCost
  entries : List EntryClosure
  maximumCostInflation : ℚ
  maximumLogicalUnits : ℤ
  deriving DecidableEq

def maxSafeInteger : ℕ := 2 ^ 53 - 1

/-- `Number.isSafeInteger` of an integer. -/
def isSafeInteger (value : ℤ) : Bool := decide (value.natAbs ≤ maxSafeInteger)

def refuse {Value : Type} (message : String) : Except String Value :=
  .error ("Convex Wasm entry grouping: " ++ message)

def requireName (value description : String) : Except String String :=
  if value = "" then refuse (description ++ " must be a non-empty string") else .ok value

def addCost (left right : ℕ) : Except String ℕ :=
  if left + right ≤ maxSafeInteger then .ok (left + right)
  else refuse "accumulated cost exceeds safe integer precision"

def recordCost (costs : KeyedMap String ℕ) (module : ModuleCost) :
    Except String (KeyedMap String ℕ) := do
  let id ← requireName module.id "module identity"
  if costs.containsKey id ∨ isSafeInteger module.cost = false ∨ module.cost ≤ 0 then
    refuse "module identities must be unique with positive integer costs"
  else return costs.insert id module.cost.toNat

structure NormalizedEntry where
  entryPath : String
  dependencies : List String
  cost : ℕ
  deriving DecidableEq

/-- One turn of the loop over the dependencies of an entry, with those seen so far. -/
def addDependency (costs : KeyedMap String ℕ) (counted : List String × ℕ) (id : String) :
    Except String (List String × ℕ) :=
  match costs.get? id with
  | none => refuse "dependency is unknown or repeated"
  | some cost =>
    if id ∈ counted.1 then refuse "dependency is unknown or repeated"
    else (addCost counted.2 cost).map fun total => (counted.1 ++ [id], total)

/-- `JSON.stringify` of a path is left open; it is read in one message only. -/
def normalizeEntry (stringify : String → String) (costs : KeyedMap String ℕ)
    (maximumLogicalUnits : ℤ) (entry : EntryClosure) : Except String NormalizedEntry := do
  let entryPath ← requireName entry.entryPath "entry path"
  if entry.dependencies = [] then refuse "each entry requires its dependency closure"
  else
    let (dependencies, cost) ← entry.dependencies.foldlM (addDependency costs) ([], 0)
    if maximumLogicalUnits < dependencies.length + 1 then
      refuse ("entry " ++ stringify entryPath ++ " exceeds the logical-unit limit")
    else return ⟨entryPath, dependencies, cost⟩

/-- The costs and the sorted entries of an accepted request. -/
def normalizeRequest (stringify : String → String) (request : Request) :
    Except String (KeyedMap String ℕ × List NormalizedEntry) := do
  if request.modules = [] ∨ request.entries = [] then
    refuse "non-empty module and entry arrays are required"
  else if request.maximumCostInflation < 1 then
    refuse "maximum cost inflation must be finite and at least one"
  else if isSafeInteger request.maximumLogicalUnits = false ∨ request.maximumLogicalUnits < 2 then
    refuse "logical-unit limit must be a safe integer of at least two"
  else
    let costs ← request.modules.foldlM recordCost .empty
    let entries ← request.entries.mapM (normalizeEntry stringify costs request.maximumLogicalUnits)
    let normalized := entries.insertionSort fun left right =>
      compareStringsLe left.entryPath right.entryPath
    if (normalized.map (·.entryPath)).Nodup then return (costs, normalized)
    else refuse "entry paths must be unique"

section Costs

variable {costs : KeyedMap String ℕ}

def costOf (costs : KeyedMap String ℕ) (id : String) : ℕ := (costs.get? id).getD 0

def totalCost (costs : KeyedMap String ℕ) (ids : List String) : ℕ := (ids.map (costOf costs)).sum

theorem addCost_eq_ok {left right total : ℕ} :
    addCost left right = .ok total ↔ total = left + right ∧ left + right ≤ maxSafeInteger := by
  unfold addCost
  split_ifs with hsafe
  · simp [hsafe, eq_comm]
  · simp [refuse, hsafe]

/-- Costs are added while the total is a safe integer. -/
theorem addCost_guarded {Item : Type} (cost : Item → ℕ) :
    Guarded (fun total item => addCost total (cost item)) (fun _ => True) cost
      (· ≤ maxSafeInteger) where
  bound_of_add := fun total extra => (Nat.le_add_right total extra).trans
  sound := fun total item total' hok =>
    ⟨trivial, (addCost_eq_ok.mp hok).1, fun _ => (addCost_eq_ok.mp hok).1 ▸ (addCost_eq_ok.mp hok).2⟩
  complete := fun total item _ hsafe => addCost_eq_ok.mpr ⟨rfl, hsafe⟩

/-- A pass that adds costs returns their sum when that is a safe integer. -/
theorem addCosts_eq_ok {Item : Type} (cost : Item → ℕ) {items : List Item} {total : ℕ} :
    items.foldlM (fun total item => addCost total (cost item)) 0 = .ok total ↔
      total = (items.map cost).sum ∧ (items.map cost).sum ≤ maxSafeInteger := by
  constructor
  · intro hok
    obtain ⟨-, htotal, hsafe⟩ := (addCost_guarded cost).foldlM_sound hok
    rw [zero_add] at htotal
    exact ⟨htotal, htotal ▸ hsafe (Nat.zero_le _)⟩
  · intro h
    obtain ⟨rfl, hsafe⟩ := h
    have hok : items.foldlM (fun total item => addCost total (cost item)) 0 =
        .ok (0 + (items.map cost).sum) :=
      (addCost_guarded cost).foldlM_complete (fun _ _ => trivial) (by rwa [zero_add])
    rwa [zero_add] at hok

end Costs

end ConvexWasm.EntryGrouping
