import ConvexWasm.Compiler.DiagnosticCensus
import ConvexWasm.Core.Interleaving
import ConvexWasm.Core.LengthFraming

/-!
# Compiling a batch of exports

Workers compile the exports round robin and send each result as it is ready.
One loop takes the results in the order of their arrival and brings five
accumulators up to date, some of them before a check that may still fail.
-/

namespace ConvexWasm.Compiler.CompilerBatch

open Attempt DiagnosticCensus

structure BatchExport where
  entryPath : String
  exportName : String
  deriving DecidableEq, Inhabited

inductive BatchProtocol
  | explicitTargets
  | allEligible
  | explicitAuthority
  deriving DecidableEq

inductive GeneratedSourceMode
  | none
  | inline
  | cache
  deriving DecidableEq

structure CompilerMetadata where
  pipelineSha256 : String
  compilerRevision : String
  admittedLanguageVersion : ℕ
  globalPolicyKind : String
  globalPolicyInventorySha256 : String
  globalPolicyRuntimeSurfaceSha256 : String
  deriving DecidableEq

inductive CompilerModeOutput (Artifact : Type)
  | analysis
  | compile (generatedJavascriptArtifact : Option Artifact)

/-- `Detail` stands for the fields that are only serialized. -/
structure CompilerOutput (Artifact Detail : Type) where
  kind : String
  compiler : CompilerMetadata
  eligible : Bool
  modeOutput : CompilerModeOutput Artifact
  detail : Detail

structure CompiledExport (Artifact Detail : Type) where
  output : CompilerOutput Artifact Detail
  diagnosticCensus : List DiagnosticCensusKey

structure BatchResult (Artifact Detail : Type) where
  entryPath : String
  exportName : String
  output : CompilerOutput Artifact Detail

structure BatchReadySealRecord where
  index : ℕ
  resultCount : ℕ
  orderingKey : String
  entryPath : String
  exportName : String
  payloadBytes : ℕ
  payloadSha256 : String
  deriving DecidableEq

structure BatchReadyRecordHeader where
  kind : String
  sealRecord : BatchReadySealRecord
  outputKind : String
  compiler : CompilerMetadata
  deriving DecidableEq

structure BatchReadySeal where
  kind : String
  records : List BatchReadySealRecord
  deriving DecidableEq

structure BatchAuthoritativeSelection where
  entryPath : String
  exportName : String
  udfKind : String
  decision : String
  reason : String
  deriving DecidableEq

def batchReadyRecordKind : String := "convex-wasm-compiler-batch-ready-record"

def batchReadySealKind : String := "convex-wasm-compiler-batch-ready-seal"

def maxDiagnosticCensusMembershipBytes : ℕ := 64 * 1024 * 1024

/-- Eight hexadecimal digits, more where the number needs them. -/
def paddedHex (value : ℕ) : String :=
  let digits := Nat.toDigits 16 value
  String.ofList (List.replicate (8 - digits.length) '0' ++ digits)

def batchReadyOrderingKey (index resultCount : ℕ) : String :=
  paddedHex index ++ "/" ++ paddedHex resultCount

/-- A batch as its workers find it.  Serialization, hashing and the compiler
itself are parameters; a compilation may differ from one index to another even
for the same export, since its output carries timings. -/
structure Batch (Artifact Detail Json : Type) where
  exports : List BatchExport
  protocol : BatchProtocol
  analysis : Bool
  compileTargets : List BatchExport
  authoritativeSelections : List BatchAuthoritativeSelection
  writesReadyOutput : Bool
  compileExport : ℕ → BatchExport → GeneratedSourceMode →
    Except ErrorChain (CompiledExport Artifact Detail)
  toValue : BatchResult Artifact Detail → Except ErrorChain Json
  sortAllObjects : Json → Json
  toBytes : Json → ByteString
  headerBytes : BatchReadyRecordHeader → Except ErrorChain ByteString
  sha256 : ByteString → String
  diagnosticCensusId : DiagnosticCensusKey → Except ErrorChain String
  membershipBytes : List (List ℕ) → ℕ

structure Message (Artifact Detail : Type) where
  index : ℕ
  target : BatchExport
  compileTarget : Bool
  compiled : Except ErrorChain (CompiledExport Artifact Detail)

structure BatchReadySpool where
  output : Option ByteString
  recordsByIndex : List (Option BatchReadySealRecord)

structure BatchState (Artifact Detail : Type) where
  diagnosticCensus : DiagnosticCensusAccumulator
  resultsByIndex : List (Option (BatchResult Artifact Detail))
  actualCompileTargets : List BatchExport
  readySpool : BatchReadySpool
  failuresByIndex : List (Option ErrorChain)

structure BatchResponse (Artifact Detail : Type) where
  authoritativeSelections : List BatchAuthoritativeSelection
  compileTargets : List BatchExport
  diagnosticCensus : List BatchDiagnosticCensusEntry
  diagnosticCensusMembership : Option (List (List ℕ))
  readySeal : BatchReadySeal
  results : List (BatchResult Artifact Detail)

namespace Batch

variable {Artifact Detail Json : Type} (batch : Batch Artifact Detail Json)

def exportCount : ℕ := batch.exports.length

/-- What a worker sends for an index, which is below the number of exports. -/
def messageAt (index : ℕ) : Message Artifact Detail :=
  let target := batch.exports.getD index default
  let compileTarget := decide (batch.protocol = .allEligible) ||
    decide (target ∈ batch.compileTargets)
  let entryPath := target.entryPath
  let exportName := target.exportName
  { index := index
    target := target
    compileTarget := compileTarget
    compiled := ErrorChain.withContext
      (batch.compileExport index target (if compileTarget then .cache else .none))
      s!"failed to compile batch export {entryPath}:{exportName}" }

/-- The messages of each worker, in the order in which it sends them. -/
def workerMessages (workerCount : ℕ) : List (List (Message Artifact Detail)) :=
  (List.range workerCount).map fun worker =>
    (strided worker workerCount batch.exportCount).map batch.messageAt

/-- The canonical payload of a result and its place in the seal. -/
def sealRecord (index : ℕ) (result : BatchResult Artifact Detail) :
    Except ErrorChain (ByteString × BatchReadySealRecord) := do
  let value ← batch.toValue result
  let payload := batch.toBytes (batch.sortAllObjects value)
  return (payload, {
    index := index
    resultCount := batch.exportCount
    orderingKey := batchReadyOrderingKey index batch.exportCount
    entryPath := result.entryPath
    exportName := result.exportName
    payloadBytes := payload.length
    payloadSha256 := batch.sha256 payload })

/-- The frame written for a result. -/
def readyFrame (result : BatchResult Artifact Detail) (payload : ByteString)
    (record : BatchReadySealRecord) : Except ErrorChain Frame := do
  let header ← batch.headerBytes {
    kind := batchReadyRecordKind
    sealRecord := record
    outputKind := result.output.kind
    compiler := result.output.compiler }
  ErrorChain.ensure (header.length < 2 ^ 32)
    "batch ready record header exceeds the framing limit"
  ErrorChain.ensure (payload.length < 2 ^ 64)
    "batch ready record payload exceeds the framing limit"
  return ⟨header, payload⟩

def recordReady (index : ℕ) (result : BatchResult Artifact Detail) :
    Attempt BatchReadySpool Unit := do
  ensure (index < batch.exportCount) s!"batch ready result index {index} is out of range"
  let (payload, record) ← lift (batch.sealRecord index result)
  let spool ← read
  modify fun spool => { spool with
    recordsByIndex := spool.recordsByIndex.set index (some record) }
  ensure spool.recordsByIndex[index]?.join.isNone
    s!"batch ready result index {index} was recorded twice"
  match spool.output with
  | none => pure ()
  | some output => do
      let frame ← lift (batch.readyFrame result payload record)
      modify fun spool => { spool with output := some (output ++ frame.encode) }

variable (message : Message Artifact Detail)

/-- The checks on a compiled export, and whether it joins the compile targets. -/
def admission (output : CompilerOutput Artifact Detail) : Except ErrorChain Bool :=
  let entryPath := message.target.entryPath
  let exportName := message.target.exportName
  if batch.protocol ≠ .allEligible then do
    ErrorChain.ensure (!message.compileTarget || output.eligible)
      s!"compile target {entryPath}:{exportName} is statically ineligible"
    return false
  else if output.eligible then
    match output.modeOutput with
    | .analysis => .error
        [s!"eligible auto-compile target {entryPath}:{exportName} did not produce compile output"]
    | .compile generatedJavascriptArtifact => do
        ErrorChain.ensure generatedJavascriptArtifact.isSome
          s!"eligible auto-compile target {entryPath}:{exportName} did not emit generated source"
        return true
  else
    match output.modeOutput with
    | .analysis => .ok false
    | .compile _ => .error
        [s!"ineligible auto-compile target {entryPath}:{exportName} did not produce compact analysis output"]

def resultOf (compiled : CompiledExport Artifact Detail) : BatchResult Artifact Detail where
  entryPath := message.target.entryPath
  exportName := message.target.exportName
  output := compiled.output

/-- One message through the accumulators; what it changes before a check fails
stays changed. -/
def process :
    Attempt (BatchState Artifact Detail) (BatchResult Artifact Detail) := do
  let compiled ← lift message.compiled
  let admitted ← lift (batch.admission message compiled.output)
  modify fun state => { state with
    actualCompileTargets :=
      if admitted then state.actualCompileTargets ++ [message.target]
      else state.actualCompileTargets }
  onPart BatchState.diagnosticCensus
    (fun state census => { state with diagnosticCensus := census })
    (DiagnosticCensusAccumulator.recordResult message.index compiled.diagnosticCensus)
  let result := resultOf message compiled
  onPart BatchState.readySpool (fun state spool => { state with readySpool := spool })
    (batch.recordReady message.index result)
  return result

def serializedJsonSize (result : BatchResult Artifact Detail) : Except ErrorChain ℕ := do
  let value ← batch.toValue result
  return (batch.toBytes value).length

def receive (state : BatchState Artifact Detail) (message : Message Artifact Detail) :
    Except ErrorChain (BatchState Artifact Detail) :=
  let index := message.index
  match batch.process message state with
  | (state, .ok result) => do
      let _ ← batch.serializedJsonSize result
      ErrorChain.ensure state.resultsByIndex[index]?.join.isNone
        s!"batch export worker returned duplicate result index {index}"
      return { state with resultsByIndex := state.resultsByIndex.set index (some result) }
  | (state, .error error) => do
      ErrorChain.ensure state.failuresByIndex[index]?.join.isNone
        s!"batch export worker returned duplicate failure index {index}"
      return { state with failuresByIndex := state.failuresByIndex.set index (some error) }

/-- The loop takes one message for every export. -/
def receiveAll : ℕ → List (Message Artifact Detail) → BatchState Artifact Detail →
    Except ErrorChain (BatchState Artifact Detail)
  | 0, _, state => .ok state
  | _ + 1, [], _ => .error ["batch export workers stopped before completing every export"]
  | remaining + 1, message :: later, state => do
      let state ← batch.receive state message
      receiveAll remaining later state

def initial : BatchState Artifact Detail where
  diagnosticCensus := .new batch.exportCount batch.analysis
  resultsByIndex := List.replicate batch.exportCount none
  actualCompileTargets := []
  readySpool := {
    output := if batch.writesReadyOutput then some [] else none
    recordsByIndex := List.replicate batch.exportCount none }
  failuresByIndex := List.replicate batch.exportCount none

def firstBatchExportFailure (failuresByIndex : List (Option ErrorChain)) :
    Option (ℕ × ErrorChain) :=
  failuresByIndex.zipIdx.findSome? fun item => item.1.map fun error => (item.2, error)

variable (results : List (BatchResult Artifact Detail))

/-- Later results take the place of earlier ones under the same key. -/
def eligibility (entryPath exportName : String) : Option Bool :=
  (results.reverse.find? fun result =>
    decide (result.entryPath = entryPath ∧ result.exportName = exportName)).map
      fun result => result.output.eligible

def selectAuthoritative
    (selection : BatchAuthoritativeSelection) : Except ErrorChain BatchAuthoritativeSelection :=
  if selection.decision ≠ "compile" then .ok selection
  else do
    let entryPath := selection.entryPath
    let exportName := selection.exportName
    let eligible ← ErrorChain.context (eligibility results entryPath exportName)
      s!"compiler candidate {entryPath}:{exportName} has no result"
    return if eligible then { selection with reason := "compiler-admitted" }
      else { selection with decision := "v8Fallback", reason := "static-admission" }

def selectAllAuthoritative : Except ErrorChain (List BatchAuthoritativeSelection) :=
  if batch.protocol = .allEligible then
    batch.authoritativeSelections.mapM (selectAuthoritative results)
  else .ok batch.authoritativeSelections

def sortTargets (targets : List BatchExport) : List BatchExport :=
  targets.insertionSort fun left right =>
    toLex (left.entryPath, left.exportName) ≤ toLex (right.entryPath, right.exportName)

def sealReady (spool : BatchReadySpool) : Except ErrorChain BatchReadySeal := do
  let records ← spool.recordsByIndex.zipIdx.mapM fun (record, index) =>
    ErrorChain.context record s!"batch ready seal omitted result index {index}"
  return ⟨batchReadySealKind, records⟩

/-- The final checks on the references of the census. -/
def checkMembership (census : FinalizedDiagnosticCensus) : Except ErrorChain Unit :=
  match census.membership with
  | none => .ok ()
  | some byResultIndex => do
      let bytes := batch.membershipBytes byResultIndex
      let maxBytes := maxDiagnosticCensusMembershipBytes
      ErrorChain.ensure (bytes ≤ maxBytes)
        s!"diagnostic census membership exceeds {maxBytes} bytes: {bytes}"
      ErrorChain.ensure
        ((byResultIndex.map List.length).sum = census.telemetry.membershipReferenceCount)
        "diagnostic census membership telemetry disagrees with accumulated references"

def finish (state : BatchState Artifact Detail) :
    Except ErrorChain (BatchResponse Artifact Detail) :=
  match firstBatchExportFailure state.failuresByIndex with
  | some (index, error) => .error (s!"batch export index {index} failed" :: error)
  | none => do
      let results ← state.resultsByIndex.zipIdx.mapM fun (result, index) =>
        ErrorChain.context result s!"batch export worker omitted result index {index}"
      let compileTargets := sortTargets state.actualCompileTargets
      let authoritativeSelections ← batch.selectAllAuthoritative results
      let census ← state.diagnosticCensus.finalize batch.diagnosticCensusId
      let readySeal ← sealReady state.readySpool
      batch.checkMembership census
      return {
        authoritativeSelections := authoritativeSelections
        compileTargets :=
          if batch.protocol = .allEligible then compileTargets else batch.compileTargets
        diagnosticCensus := census.entries
        diagnosticCensusMembership := census.membership
        readySeal := readySeal
        results := results }

def runBatch (arrival : List (Message Artifact Detail)) :
    Except ErrorChain (BatchResponse Artifact Detail) := do
  let state ← batch.receiveAll batch.exportCount arrival batch.initial
  batch.finish state

end Batch

end ConvexWasm.Compiler.CompilerBatch
