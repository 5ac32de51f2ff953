import ConvexWasm.Core.FileStore
import ConvexWasm.Core.TransitionSystem

/-!
# Publication in the compiler cache

A module summary is looked up under its key and otherwise written to a
temporary file that is renamed into place.  A generated source is written to a
temporary file that is linked into place.  Both go one file-system step at a
time, so that other processes may act in between.
-/

namespace ConvexWasm.Compiler.CachePublication

open Function

abbrev Bytes := List UInt8

def asciiBytes (text : String) : Bytes :=
  text.toList.map fun char => UInt8.ofNat char.toNat

def moduleSummarySchema : Bytes := asciiBytes "convex-wasm-module-summary"

def oxcVersion : Bytes := asciiBytes "0.155.0"

def moduleSummaryCacheMaxBytes : ℕ := 512 * 1024 * 1024

/-- What identifies a build of the compiler. -/
structure Pipeline where
  sha256 : Bytes
  policyFingerprint : Bytes
  sha256_text : 0 ∉ sha256
  policyFingerprint_text : 0 ∉ policyFingerprint

structure ModuleInput where
  moduleKey : Bytes
  source : Bytes
  moduleKey_text : 0 ∉ moduleKey

/-- A summary with what identifies it. -/
structure CachedSummary (Facts : Type) where
  kind : Bytes
  cacheKey : Bytes
  compilerPipelineSha256 : Bytes
  contextPolicyFingerprint : Bytes
  sourceHash : Bytes
  facts : Facts

/-- Hashing, the encoding of summaries and the analysis of a module. -/
structure Tools (Facts : Type) where
  hashBytes : Bytes → Bytes
  encode : CachedSummary Facts → Bytes
  decode : Bytes → Option (CachedSummary Facts)
  analyze : Pipeline → ModuleInput → Option Facts

/-- Digests are texts that do not collide, and an encoded summary can be read
back. -/
structure Tools.Lawful {Facts : Type} (tools : Tools Facts) : Prop where
  hash_injective : Function.Injective tools.hashBytes
  hash_text : ∀ bytes, 0 ∉ tools.hashBytes bytes
  decode_encode : ∀ summary, tools.decode (tools.encode summary) = some summary

/-- Texts in a row with a separator between them. -/
def joinWith (separator : UInt8) : List Bytes → Bytes
  | [] => []
  | [text] => text
  | text :: rest => text ++ separator :: joinWith separator rest

/-- The files of the cache directory. -/
inductive CacheName
  | summary (cacheKey : Bytes)
  | summaryTemporary (cacheKey : Bytes) (pid : ℕ)
  | generated (digest : Bytes)
  | generatedTemporary (digest : Bytes) (pid sequence : ℕ)
  deriving DecidableEq

abbrev CacheStore := FileStore CacheName UInt8

section Steps

variable {Facts : Type} (tools : Tools Facts)

def moduleSummaryCacheKey (pipeline : Pipeline) (input : ModuleInput) : Bytes :=
  tools.hashBytes (joinWith 0 [moduleSummarySchema, oxcVersion, pipeline.sha256,
    pipeline.policyFingerprint, input.moduleKey, tools.hashBytes input.source])

def summarizeModule (pipeline : Pipeline) (input : ModuleInput) : Option (CachedSummary Facts) :=
  (tools.analyze pipeline input).map fun facts => {
    kind := moduleSummarySchema
    cacheKey := moduleSummaryCacheKey tools pipeline input
    compilerPipelineSha256 := pipeline.sha256
    contextPolicyFingerprint := pipeline.policyFingerprint
    sourceHash := tools.hashBytes input.source
    facts }

/-- The identity that a cached summary is admitted with. -/
def admits (pipeline : Pipeline) (input : ModuleInput) (bytes : Bytes) : Bool :=
  match tools.decode bytes with
  | none => false
  | some summary =>
    decide (summary.kind = moduleSummarySchema) &&
      decide (summary.cacheKey = moduleSummaryCacheKey tools pipeline input) &&
      decide (summary.compilerPipelineSha256 = pipeline.sha256) &&
      decide (summary.contextPolicyFingerprint = pipeline.policyFingerprint) &&
      decide (summary.sourceHash = tools.hashBytes input.source)

/-- Where `load_compiler_module` stands.  A hit is inspected, opened, read and
touched; a miss is written and renamed. -/
inductive LoadPhase
  | lookup
  | inspected (file length : ℕ)
  | opened (file stamp : ℕ)
  | read (file : ℕ) (bytes : Bytes)
  | touch
  | touchInspected (file : ℕ)
  | touchOpened (file : ℕ)
  | touched (file : ℕ)
  | create
  | writing (file : ℕ) (remaining : Bytes)
  | publish (file : ℕ)
  | renameFailed
  | discard
  | finished (succeeded : Bool)
  deriving DecidableEq

/-- One step of `load_compiler_module`.  A write may be short by any amount. -/
def loadStep (pipeline : Pipeline) (input : ModuleInput) (pid chunk : ℕ)
    (store : CacheStore) : LoadPhase → Option (CacheStore × LoadPhase) :=
  let cacheKey := moduleSummaryCacheKey tools pipeline input
  let cachePath := CacheName.summary cacheKey
  let temporary := CacheName.summaryTemporary cacheKey pid
  fun
  | .lookup =>
    match store.entry cachePath with
    | none => some (store, .create)
    | some file =>
      if (store.content file).length ≤ moduleSummaryCacheMaxBytes then
        some (store, .inspected file (store.content file).length)
      else some (store, .finished false)
  | .inspected file length =>
    match store.entry cachePath with
    | none => some (store, .create)
    | some opened =>
      if opened = file ∧ (store.content opened).length = length then
        some (store, .opened file (store.stamp file))
      else some (store, .finished false)
  | .opened file stamp =>
    if store.stamp file = stamp then some (store, .read file (store.content file))
    else some (store, .finished false)
  | .read file bytes =>
    if store.entry cachePath = none ∨ store.entry cachePath = some file then
      if admits tools pipeline input bytes then some (store, .touch)
      else some (store, .finished false)
    else some (store, .finished false)
  | .touch =>
    match store.entry cachePath with
    | none => some (store, .finished true)
    | some file => some (store, .touchInspected file)
  | .touchInspected file =>
    match store.entry cachePath with
    | none => some (store, .finished true)
    | some opened =>
      if opened = file then some (store, .touchOpened file)
      else some (store, .finished false)
  | .touchOpened file => some (store.touch file, .touched file)
  | .touched file =>
    some (store, .finished
      (decide (store.entry cachePath = none ∨ store.entry cachePath = some file)))
  | .create =>
    match summarizeModule tools pipeline input with
    | none => some (store, .finished false)
    | some summary =>
      match store.createNew temporary with
      | none => some (store, .finished false)
      | some (file, store) => some (store, .writing file (tools.encode summary))
  | .writing file [] => some (store, .publish file)
  | .writing file remaining =>
    some (store.append file (remaining.take (chunk + 1)),
      .writing file (remaining.drop (chunk + 1)))
  | .publish _ =>
    match store.rename temporary cachePath with
    | some store => some (store, .finished true)
    | none => some (store, .renameFailed)
  | .renameFailed =>
    if store.entry cachePath = none then some (store, .finished false)
    else some (store, .discard)
  | .discard =>
    match store.unlink temporary with
    | some store => some (store, .finished true)
    | none => some (store, .finished false)
  | .finished _ => none

/-- Why `publish_generated_source` validates the published file: it was there
before, another process linked it first, or it was just published. -/
inductive Validation
  | existing
  | raced (sequence : ℕ)
  | published
  deriving DecidableEq

/-- Where `publish_generated_source` stands. -/
inductive PublishPhase
  | lookup
  | validate (reason : Validation)
  | inspected (reason : Validation) (file : ℕ)
  | opened (reason : Validation) (file : ℕ)
  | create (sequence : ℕ)
  | writing (sequence file : ℕ) (remaining : Bytes)
  | link (sequence file : ℕ)
  | cleanup (sequence : ℕ) (published : Bool)
  | finished (succeeded : Bool)
  deriving DecidableEq

/-- A validation was passed or not. -/
def validated (passed : Bool) : Validation → PublishPhase
  | .existing => .finished passed
  | .raced sequence => .cleanup sequence passed
  | .published => .finished passed

/-- One step of `publish_generated_source` for the digest of its source.  The
number of temporaries so far is taken and increased when nothing is found. -/
def publishStep (source : Bytes) (pid chunk : ℕ) (store : CacheStore) (temporaries : ℕ) :
    PublishPhase → Option (CacheStore × ℕ × PublishPhase) :=
  let digest := tools.hashBytes source
  let finalPath := CacheName.generated digest
  let temporary := CacheName.generatedTemporary digest pid
  fun
  | .lookup =>
    match store.entry finalPath with
    | some _ => some (store, temporaries, .validate .existing)
    | none => some (store, temporaries + 1, .create temporaries)
  | .validate reason =>
    match store.entry finalPath with
    | none => some (store, temporaries, validated false reason)
    | some file => some (store, temporaries, .inspected reason file)
  | .inspected reason file =>
    if store.entry finalPath = some file then
      some (store, temporaries, .opened reason file)
    else some (store, temporaries, validated false reason)
  | .opened reason file =>
    let bytes := (store.content file).take (source.length + 1)
    some (store, temporaries, validated
      (decide (bytes.length = source.length) && decide (tools.hashBytes bytes = digest))
      reason)
  | .create sequence =>
    match store.createNew (temporary sequence) with
    | none => some (store, temporaries, .finished false)
    | some (file, store) => some (store, temporaries, .writing sequence file source)
  | .writing sequence file [] => some (store, temporaries, .link sequence file)
  | .writing sequence file remaining =>
    some (store.append file (remaining.take (chunk + 1)), temporaries,
      .writing sequence file (remaining.drop (chunk + 1)))
  | .link sequence _ =>
    match store.hardLink (temporary sequence) finalPath with
    | .ok store => some (store, temporaries, .cleanup sequence true)
    | .error .alreadyExists => some (store, temporaries, .validate (.raced sequence))
    | .error .notFound => some (store, temporaries, .cleanup sequence false)
  | .cleanup sequence published =>
    let store := (store.unlink (temporary sequence)).getD store
    some (store, temporaries, if published then .validate .published else .finished false)
  | .finished _ => none

end Steps

/-- A running call of one of the two functions; a load is one of its build. -/
inductive Task
  | load (pipeline : Pipeline) (input : ModuleInput) (phase : LoadPhase)
  | publish (source : Bytes) (phase : PublishPhase)

structure Process where
  pipeline : Pipeline
  temporaries : ℕ

/-- The cache directory with the compilers at work on it.  The workers of a
process are numbered. -/
structure Cache where
  store : CacheStore
  process : ℕ → Option Process
  task : ℕ → ℕ → Option Task

def Cache.initial : Cache where
  store := .empty
  process := fun _ => none
  task := fun _ _ => none

def Cache.setTask (cache : Cache) (pid worker : ℕ) (task : Option Task) : Cache :=
  { cache with
    task := update cache.task pid (update (cache.task pid) worker task) }

section Runs

variable {Facts : Type} (tools : Tools Facts)

/-- One step of a task of a process that has drawn some temporaries so far. -/
def taskStep (pid chunk : ℕ) (store : CacheStore) (temporaries : ℕ) :
    Task → Option (CacheStore × ℕ × Task)
  | .load pipeline input phase =>
    (loadStep tools pipeline input pid chunk store phase).map fun (store, phase) =>
      (store, temporaries, .load pipeline input phase)
  | .publish source phase =>
    (publishStep tools source pid chunk store temporaries phase).map
      fun (store, temporaries, phase) => (store, temporaries, .publish source phase)

/-- No two workers of a process load the same module. -/
def Cache.MayBegin (cache : Cache) (pid : ℕ) (process : Process) : Task → Prop
  | .load pipeline input phase =>
    phase = .lookup ∧ pipeline = process.pipeline ∧
      ∀ worker pipeline other phase, cache.task pid worker = some (.load pipeline other phase) →
        other.moduleKey ≠ input.moduleKey
  | .publish _ phase => phase = .lookup

/-- The steps of the compilers.  A process ends at any point, in a crash or
not, and its id may be used again; the entries of module summaries may be
pruned, temporaries included. -/
inductive Step : Cache → Cache → Prop
  | spawn {cache : Cache} (pid : ℕ) (pipeline : Pipeline) :
      cache.process pid = none →
      Step cache { cache with
        process := update cache.process pid (some ⟨pipeline, 0⟩) }
  | exit {cache : Cache} (pid : ℕ) :
      Step cache { cache with
        process := update cache.process pid none
        task := update cache.task pid fun _ => none }
  | start {cache : Cache} (pid worker : ℕ) {process : Process} (task : Task) :
      cache.process pid = some process → cache.task pid worker = none →
      cache.MayBegin pid process task →
      Step cache (cache.setTask pid worker (some task))
  | run {cache : Cache} (pid worker chunk : ℕ) {process : Process} {task task' : Task}
      {store : CacheStore} {temporaries : ℕ} :
      cache.process pid = some process → cache.task pid worker = some task →
      taskStep tools pid chunk cache.store process.temporaries task =
        some (store, temporaries, task') →
      Step cache { cache.setTask pid worker (some task') with
        store := store
        process := update cache.process pid (some { process with temporaries }) }
  | finish {cache : Cache} (pid worker : ℕ) {process : Process} {task : Task} :
      cache.process pid = some process → cache.task pid worker = some task →
      (∀ chunk, taskStep tools pid chunk cache.store process.temporaries task = none) →
      Step cache (cache.setTask pid worker none)
  | prune {cache : Cache} (name : CacheName) {store : CacheStore} :
      (∃ cacheKey, name = .summary cacheKey ∨ ∃ pid, name = .summaryTemporary cacheKey pid) →
      cache.store.unlink name = some store →
      Step cache { cache with store := store }

end Runs

end ConvexWasm.Compiler.CachePublication
