import ConvexWasm.Selector.Dependencies

/-!
# The source of an application selector

A selector is a C program with the tables of an application: the factories of
its units by their slots, the dependencies of its chunks by their specifiers, and
the routes by their selector identities.
-/

namespace ConvexWasm.Selector

open Fallible

structure ApplicationUnit where
  dependencies : List Dependency
  entrySymbol : String
  nativeSymbolIdentitySha256 : String
  deriving DecidableEq

inductive UdfKind
  | query
  | mutation
  deriving DecidableEq

structure Route where
  exportName : String
  udfKind : UdfKind
  deriving DecidableEq

structure ApplicationEntry where
  entryPublicationUnitSlot : ℕ
  entrySlot : ℕ
  routes : List Route
  deriving DecidableEq

def isSha256 (value : String) : Bool :=
  value.length = 64 && value.toList.all isHexDigit

/-- An authenticated descriptor, as far as the selector depends on it. -/
structure ApplicationDescriptor where
  chunkSlotCount : ℕ
  entries : List ApplicationEntry
  units : List ApplicationUnit
  chunks_nonempty : 1 ≤ chunkSlotCount
  entries_nonempty : entries ≠ []
  units_length : units.length = chunkSlotCount + entries.length
  entrySlots : ∀ entry ∈ entries, entry.entrySlot < chunkSlotCount
  publicationSlots : ∀ index entry, entries[index]? = some entry →
    entry.entryPublicationUnitSlot = chunkSlotCount + index
  routes : ∀ entry ∈ entries, entry.routes ≠ [] ∧
    (entry.routes.map (·.exportName)).Nodup ∧
      ∀ route ∈ entry.routes, isIdentifier route.exportName = true
  identities : ∀ unit ∈ units, isSha256 unit.nativeSymbolIdentitySha256 = true
  symbols : ∀ unit ∈ units, unit.entrySymbol =
    "sh_export_convex_wasm_official_chunk_" ++ unit.nativeSymbolIdentitySha256
  identities_distinct : (units.map (·.nativeSymbolIdentitySha256)).Nodup
  dependencies : ∀ unit ∈ units, ∃ normalized, normalizeConvexWasmOfficialOutputChunkDependencies
    unit.dependencies chunkSlotCount "unit" = .ok normalized
  publications : ∀ unit ∈ units.drop chunkSlotCount, unit.dependencies = []

structure SelectorMember where
  entrySelectorId : String
  entrySymbol : String
  handlerExportName : String
  handlerUdfKind : UdfKind
  invocationAbi : String
  deriving DecidableEq

/-- A case of the switch over the selector identities. -/
structure SelectorCase where
  entrySelectorId : String
  unitSlot : ℕ
  entrySlot : ℕ
  exportName : String
  udfKind : UdfKind
  deriving DecidableEq

/-- The tables of a selector. -/
structure SelectorSource where
  chunkSlotCount : ℕ
  entryPublicationUnitSlots : List ℕ
  entryChunkSlots : List ℕ
  factorySymbols : List String
  dependencyRows : List (String × ℕ)
  dependencyRanges : List (ℕ × ℕ)
  cases : List SelectorCase
  deriving DecidableEq

section Tables

def convexWasmCapabilityOfficialWrapperInvocationAbi : String :=
  "convex-sdk-registration-wrapper-tagged-json-v1"

def maxManifestIdentifierBytes : ℕ := 256

def requireManifestIdentifier (value description message : String) : Except String String := do
  let normalized ← requireManifestString value description maxManifestIdentifierBytes
  if isIdentifier normalized then return normalized else fail message

def requireEntrySymbols : ℕ → List String → Except String Unit
  | _, [] => .ok ()
  | entrySlot, entrySymbol :: rest => do
      let description := "chunk application logical entry " ++ toString entrySlot ++ " symbol"
      let _ ← requireManifestIdentifier entrySymbol description
        (description ++ " must be a C identifier")
      requireEntrySymbols (entrySlot + 1) rest

def isSelectorId (value : String) : Bool :=
  value.length = 16 && value.toList.all isHexDigit

variable (descriptor : ApplicationDescriptor) (orderedEntrySymbols : List String)

/-- The slot of an entry with its symbol. -/
def entrySlotOf (entrySymbol : String) : Option ℕ :=
  if entrySymbol ∈ orderedEntrySymbols then some (orderedEntrySymbols.idxOf entrySymbol) else none

def selectorCase (selectors : List String) (index : ℕ) (member : SelectorMember) :
    Except String SelectorCase := do
  let description := "chunk application selector member " ++ toString index
  if isSelectorId member.entrySelectorId = false ∨ member.entrySelectorId ∈ selectors then
    fail (description ++ " has an invalid or duplicate selector ID")
  else
    match entrySlotOf orderedEntrySymbols member.entrySymbol with
    | none => fail (description ++ " has no logical handoff slot")
    | some entrySlot => do
        let exportName ← requireManifestIdentifier member.handlerExportName
          (description ++ " export name") (description ++ " export name must be an identifier")
        if member.invocationAbi ≠ convexWasmCapabilityOfficialWrapperInvocationAbi then
          fail (description ++ " must use the official wrapper ABI")
        else
          let unitSlot := ((descriptor.entries[entrySlot]?).map
            (·.entryPublicationUnitSlot)).getD 0
          return {
            entrySelectorId := member.entrySelectorId, unitSlot, entrySlot, exportName
            udfKind := member.handlerUdfKind }

def selectorCases : List String → ℕ → List SelectorMember → Except String (List SelectorCase)
  | _, _, [] => .ok []
  | selectors, index, member :: rest => do
      let found ← selectorCase descriptor orderedEntrySymbols selectors index member
      let later ← selectorCases (selectors ++ [member.entrySelectorId]) (index + 1) rest
      return found :: later

/-- Each entry has exactly the routes of the descriptor. -/
def requireRoutes (cases : List SelectorCase) : ℕ → List ApplicationEntry → Except String Unit
  | _, [] => .ok ()
  | entrySlot, entry :: rest =>
    let actualRoutes := (cases.filter (·.entrySlot = entrySlot)).map fun found =>
      ({ exportName := found.exportName, udfKind := found.udfKind } : Route)
    if actualRoutes.isPerm entry.routes then requireRoutes cases (entrySlot + 1) rest
    else
      fail ("chunk application selector routes do not match logical entry " ++
        toString entrySlot)

/-- The occurrence in the specifier of a dependency. -/
def occurrenceOf (dependency : Dependency) : ℕ :=
  match parseConvexWasmOfficialOutputExecutableDependencySpecifier
      dependency.executableSpecifier with
  | .ok identity => identity.occurrence
  | .error _ => 0

/-- The rows of a unit, in the order of the occurrences. -/
def orderedRows (unit : ApplicationUnit) : List (String × ℕ) :=
  (unit.dependencies.insertionSort fun left right =>
    occurrenceOf left ≤ occurrenceOf right).map fun dependency =>
      (dependency.executableSpecifier, dependency.slot)

/-- The loop over the chunks that fills both tables of dependencies. -/
def dependencyTables (units : List ApplicationUnit) : List (String × ℕ) × List (ℕ × ℕ) :=
  units.foldl (fun tables unit =>
    (tables.1 ++ orderedRows unit,
      tables.2 ++ [(tables.1.length, unit.dependencies.length)])) ([], [])

def renderConvexWasmCapabilityChunkApplicationSelector (members : List SelectorMember) :
    Except String SelectorSource := do
  if orderedEntrySymbols.length ≠ descriptor.entries.length then
    fail "chunk application selector entry table is incomplete"
  else
    requireEntrySymbols 0 orderedEntrySymbols
    if ¬ orderedEntrySymbols.Nodup then
      fail "chunk application selector repeats a logical entry symbol"
    else if members = [] then fail "chunk application selector must contain at least one route"
    else
      let cases ← selectorCases descriptor orderedEntrySymbols [] 0 members
      requireRoutes cases 0 descriptor.entries
      let tables := dependencyTables (descriptor.units.take descriptor.chunkSlotCount)
      return {
        chunkSlotCount := descriptor.chunkSlotCount
        entryPublicationUnitSlots := descriptor.entries.map (·.entryPublicationUnitSlot)
        entryChunkSlots := descriptor.entries.map (·.entrySlot)
        factorySymbols := descriptor.units.map (·.entrySymbol)
        dependencyRows := tables.1
        dependencyRanges := tables.2
        cases }

end Tables

end ConvexWasm.Selector
