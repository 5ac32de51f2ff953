import ConvexWasm.Core.Attempt
import ConvexWasm.Core.KeyedMap

/-!
# The diagnostic census of a batch

The census counts the diagnostics of every export.  Results come in any order,
so a diagnostic first gets the ordinal of its arrival; the end of the batch
replaces ordinals by positions in the order of the diagnostics.
-/

namespace ConvexWasm.Compiler.DiagnosticCensus

open Attempt

@[ext]
structure DiagnosticCensusKey where
  code : String
  message : String
  file : String
  line : ℕ
  column : ℕ
  construct : Option String
  source : String
  deriving DecidableEq

namespace DiagnosticCensusKey

/-- The fields in the order in which they are compared; a missing construct
comes before every other. -/
def fields (key : DiagnosticCensusKey) :
    String ×ₗ String ×ₗ String ×ₗ ℕ ×ₗ ℕ ×ₗ WithBot String ×ₗ String :=
  toLex (key.code, toLex (key.message, toLex (key.file, toLex (key.line, toLex (key.column,
    toLex ((show WithBot String from key.construct), key.source))))))

def ofFields (fields : String ×ₗ String ×ₗ String ×ₗ ℕ ×ₗ ℕ ×ₗ WithBot String ×ₗ String) :
    DiagnosticCensusKey where
  code := (ofLex fields).1
  message := (ofLex (ofLex fields).2).1
  file := (ofLex (ofLex (ofLex fields).2).2).1
  line := (ofLex (ofLex (ofLex (ofLex fields).2).2).2).1
  column := (ofLex (ofLex (ofLex (ofLex (ofLex fields).2).2).2).2).1
  construct := (ofLex (ofLex (ofLex (ofLex (ofLex (ofLex fields).2).2).2).2).2).1
  source := (ofLex (ofLex (ofLex (ofLex (ofLex (ofLex fields).2).2).2).2).2).2

theorem fields_injective : Function.Injective fields :=
  have hinverse : Function.LeftInverse ofFields fields := fun _ => rfl
  hinverse.injective

instance : LinearOrder DiagnosticCensusKey :=
  LinearOrder.lift' fields fields_injective

end DiagnosticCensusKey

structure BatchDiagnosticCensusEntry where
  id : String
  diagnostic : DiagnosticCensusKey
  occurrenceCount : ℕ
  exportCount : ℕ
  deriving DecidableEq

structure DiagnosticCensusCounts where
  occurrenceCount : ℕ := 0
  exportCount : ℕ := 0
  deriving DecidableEq

structure ProvisionalDiagnosticCensusEntry where
  ordinal : ℕ
  counts : DiagnosticCensusCounts
  deriving DecidableEq

structure DiagnosticCensusTelemetry where
  occurrenceCount : ℕ
  distinctCount : ℕ
  maxDiagnosticsPerExport : ℕ
  membershipReferenceCount : ℕ
  deriving DecidableEq

structure FinalizedDiagnosticCensus where
  entries : List BatchDiagnosticCensusEntry
  membership : Option (List (List ℕ))
  telemetry : DiagnosticCensusTelemetry
  deriving DecidableEq

structure DiagnosticCensusAccumulator where
  entries : KeyedMap DiagnosticCensusKey ProvisionalDiagnosticCensusEntry
  keysByOrdinal : List DiagnosticCensusKey
  membershipByResultIndex : Option (List (Option (List ℕ)))
  recordedResults : List Bool
  occurrenceCount : ℕ
  maxDiagnosticsPerExport : ℕ
  membershipReferenceCount : ℕ

/-- What the loop over the diagnostics of one result changes. -/
structure NotedDiagnostics where
  entries : KeyedMap DiagnosticCensusKey ProvisionalDiagnosticCensusEntry
  keysByOrdinal : List DiagnosticCensusKey
  provisionalMembership : Finset ℕ

def noteDiagnostic (noted : NotedDiagnostics) (diagnostic : DiagnosticCensusKey) :
    NotedDiagnostics :=
  let nextOrdinal := noted.entries.entries.length
  let (entry, keysByOrdinal) := match noted.entries.get? diagnostic with
    | some entry => (entry, noted.keysByOrdinal)
    | none => (⟨nextOrdinal, {}⟩, noted.keysByOrdinal ++ [diagnostic])
  let counts := { entry.counts with occurrenceCount := entry.counts.occurrenceCount + 1 }
  { entries := noted.entries.insert diagnostic { entry with counts := counts }
    keysByOrdinal := keysByOrdinal
    provisionalMembership := insert entry.ordinal noted.provisionalMembership }

namespace DiagnosticCensusAccumulator

def new (resultCount : ℕ) (captureMembership : Bool) : DiagnosticCensusAccumulator where
  entries := .empty
  keysByOrdinal := []
  membershipByResultIndex :=
    if captureMembership then some (List.replicate resultCount none) else none
  recordedResults := List.replicate resultCount false
  occurrenceCount := 0
  maxDiagnosticsPerExport := 0
  membershipReferenceCount := 0

def countExport (ordinal : ℕ) : Attempt DiagnosticCensusAccumulator Unit := do
  let census ← read
  let key ← context census.keysByOrdinal[ordinal]?
    "diagnostic census provisional ordinal disappeared"
  let entry ← context (census.entries.get? key)
    "diagnostic census provisional entry disappeared"
  let counts := { entry.counts with exportCount := entry.counts.exportCount + 1 }
  modify fun census =>
    { census with entries := census.entries.insert key { entry with counts := counts } }

def storeMembership (resultIndex : ℕ) (provisionalMembership : List ℕ) :
    Attempt DiagnosticCensusAccumulator Unit := do
  let census ← read
  match census.membershipByResultIndex with
  | none => pure ()
  | some byResultIndex => do
      let slot ← context byResultIndex[resultIndex]?
        "diagnostic census membership result index disappeared"
      modify fun census => { census with
        membershipByResultIndex :=
          some (byResultIndex.set resultIndex (some provisionalMembership)) }
      ensure slot.isNone
        s!"diagnostic census membership result index {resultIndex} was recorded more than once"

def recordResult (resultIndex : ℕ) (diagnostics : List DiagnosticCensusKey) :
    Attempt DiagnosticCensusAccumulator Unit := do
  let census ← read
  let recorded ← context census.recordedResults[resultIndex]?
    s!"diagnostic census result index {resultIndex} is out of range"
  ensure (!recorded) s!"diagnostic census result index {resultIndex} was recorded more than once"
  modify fun census => { census with
    recordedResults := census.recordedResults.set resultIndex true
    occurrenceCount := census.occurrenceCount + diagnostics.length
    maxDiagnosticsPerExport := max census.maxDiagnosticsPerExport diagnostics.length }
  let noted := diagnostics.foldl noteDiagnostic ⟨census.entries, census.keysByOrdinal, ∅⟩
  modify fun census => { census with
    entries := noted.entries
    keysByOrdinal := noted.keysByOrdinal }
  let provisionalMembership := noted.provisionalMembership.sort
  each provisionalMembership countExport
  modify fun census => { census with
    membershipReferenceCount :=
      census.membershipReferenceCount + provisionalMembership.length }
  storeMembership resultIndex provisionalMembership

def telemetry (census : DiagnosticCensusAccumulator) : DiagnosticCensusTelemetry where
  occurrenceCount := census.occurrenceCount
  distinctCount := census.entries.entries.length
  maxDiagnosticsPerExport := census.maxDiagnosticsPerExport
  membershipReferenceCount := census.membershipReferenceCount

end DiagnosticCensusAccumulator

section Finalize

variable (diagnosticCensusId : DiagnosticCensusKey → Except ErrorChain String)

/-- One entry of the final census, under an identifier not used before. -/
def describeEntry (described : List String × List BatchDiagnosticCensusEntry)
    (item : DiagnosticCensusKey × DiagnosticCensusCounts) :
    Except ErrorChain (List String × List BatchDiagnosticCensusEntry) := do
  let id ← diagnosticCensusId item.1
  ErrorChain.ensure (!described.1.contains id) s!"diagnostic census ID collision for {id}"
  return (described.1 ++ [id],
    described.2 ++ [⟨id, item.1, item.2.occurrenceCount, item.2.exportCount⟩])

/-- An ordinal that has no final index yet (`usize::MAX` in the source) is
`none`. -/
structure FinalizedEntries where
  finalIndexByOrdinal : List (Option ℕ)
  described : List String × List BatchDiagnosticCensusEntry

def finalizeEntry (finalized : FinalizedEntries)
    (item : (DiagnosticCensusKey × ProvisionalDiagnosticCensusEntry) × ℕ) :
    Except ErrorChain FinalizedEntries := do
  let described ← describeEntry diagnosticCensusId finalized.described
    (item.1.1, item.1.2.counts)
  return ⟨finalized.finalIndexByOrdinal.set item.1.2.ordinal (some item.2), described⟩

def finalizeMembership (finalIndexByOrdinal : List (Option ℕ))
    (item : Option (List ℕ) × ℕ) : Except ErrorChain (List ℕ) := do
  let resultIndex := item.2
  let provisional ← ErrorChain.context item.1
    s!"diagnostic census membership omitted result index {resultIndex}"
  let indexes ← provisional.mapM fun ordinal =>
    ErrorChain.context finalIndexByOrdinal[ordinal]?.join
      s!"diagnostic census membership result {resultIndex} has an invalid provisional ordinal"
  let indexes := indexes.insertionSort (· ≤ ·)
  ErrorChain.ensure (indexes.IsChain (· < ·))
    s!"diagnostic census membership result {resultIndex} is not strictly sorted and deduplicated"
  return indexes

/-- The entries in the order of their keys, as the ordered map lists them. -/
def DiagnosticCensusAccumulator.orderedEntries (census : DiagnosticCensusAccumulator) :
    List (DiagnosticCensusKey × ProvisionalDiagnosticCensusEntry) :=
  census.entries.entries.insertionSort fun entry other => entry.1 ≤ other.1

def DiagnosticCensusAccumulator.finalize (census : DiagnosticCensusAccumulator) :
    Except ErrorChain FinalizedDiagnosticCensus := do
  census.recordedResults.zipIdx.forM fun (recorded, index) =>
    ErrorChain.ensure recorded s!"diagnostic census omitted result index {index}"
  let finalized ← census.orderedEntries.zipIdx.foldlM (finalizeEntry diagnosticCensusId)
    ⟨List.replicate census.entries.entries.length none, [], []⟩
  ErrorChain.ensure (finalized.finalIndexByOrdinal.all Option.isSome)
    "diagnostic census final index remapping is incomplete"
  let membership ← census.membershipByResultIndex.mapM fun byResultIndex =>
    byResultIndex.zipIdx.mapM (finalizeMembership finalized.finalIndexByOrdinal)
  return ⟨finalized.described.2, membership, census.telemetry⟩

end Finalize

end ConvexWasm.Compiler.DiagnosticCensus
