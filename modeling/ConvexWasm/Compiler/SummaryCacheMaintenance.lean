import ConvexWasm.Compiler.SummaryCacheTree

/-!
# Reading and pruning the summary cache

A lookup reads a summary through one descriptor and compares what it saw of
the file before, during and after.  A prune lists the tree, removes stale
temporary files, old summaries and the oldest summaries beyond the byte limit,
and lists the tree again.
-/

namespace ConvexWasm.Compiler.SummaryCache

open Program

def moduleSummaryCacheMaxBytes : ℕ := 512 * 1024 * 1024

/-- One hour, in nanoseconds as all times here. -/
def moduleSummaryTempMaxAge : ℕ := 60 * 60 * 1000000000

/-! The operations at the types of their responses. -/

variable (name : CacheName)

def symlinkMetadata : CacheProgram (Option FileView) :=
  performed (Operation.lookup name)

def openFile (name : CacheName) : CacheProgram (Option ℕ) :=
  performed (Operation.openFile name)

def fileMetadata (file : ℕ) : CacheProgram FileView :=
  performed (Operation.inspectFile file)

def readFile (file offset limit : ℕ) : CacheProgram (List UInt8) :=
  performed (Operation.readFile file offset limit)

def fileMetadataAfter (file : ℕ) : CacheProgram FileView :=
  performed (Operation.reinspectFile file)

def symlinkMetadataAfter : CacheProgram (Option FileView) :=
  performed (Operation.recheck name)

variable (directory : CacheDirectory)

def directoryExists : CacheProgram Bool :=
  performed (Operation.lookupDirectory directory)

def secureDirectory (directory : CacheDirectory) : CacheProgram Unit :=
  performed (Operation.secureDirectory directory)

def directoryStamp : CacheProgram ℕ :=
  performed (Operation.inspectDirectory directory)

def readRoot : CacheProgram (List String) :=
  performed Operation.listRoot

def readShard (shard : String) : CacheProgram (List CacheName) :=
  performed (Operation.listShard shard)

def childMetadata : CacheProgram (Option FileView) :=
  performed (Operation.inspectChild name)

def directoryStampAfter (before : ℕ) : CacheProgram (Option ℕ) :=
  performed (Operation.recheckDirectory directory before)

def removeFile (name : CacheName) : CacheProgram Bool :=
  performed (Operation.removeFile name)

/-- Reads the bytes that the descriptor promised, in pieces of at most 64 KiB;
the fuel is one step for every byte. -/
def readBytes (name : CacheName) (file expectedLen : ℕ) :
    ℕ → List UInt8 → CacheProgram (List UInt8)
  | 0, bytes => return bytes
  | fuel + 1, bytes =>
    if bytes.length < expectedLen then do
      let chunk ← readFile file bytes.length (min (expectedLen - bytes.length) (64 * 1024))
      let path := name.display
      ensure (!chunk.isEmpty)
        s!"module summary cache entry changed while it was being read: {path}"
      readBytes name file expectedLen fuel (bytes ++ chunk)
    else return bytes

/-- The comparisons after the bytes are read. -/
def finishRead (opened : FileView) (bytes : List UInt8) :
    CacheProgram (Option (List UInt8)) := do
  let after ← fileMetadataAfter opened.file
  let path := name.display
  ensure (opened.file = after.file ∧ opened.length = after.length ∧
      opened.stamp = after.stamp ∧ opened.modified = after.modified)
    s!"module summary cache entry changed while it was being read: {path}"
  match ← symlinkMetadataAfter name with
  | none => return some bytes
  | some pathAfter => do
      ensure (pathAfter.file = opened.file)
        s!"module summary cache entry changed while it was being read: {path}"
      return some bytes

def readModuleSummaryCache : CacheProgram (Option (List UInt8)) := do
  let path := name.display
  match ← symlinkMetadata name with
  | none => return none
  | some metadata => do
      ensure (metadata.length ≤ moduleSummaryCacheMaxBytes)
        s!"module summary cache entry exceeds its byte limit: {path}"
      match ← openFile name with
      | none => return none
      | some file => do
          let opened ← fileMetadata file
          ensure (opened.file = metadata.file ∧ opened.length = metadata.length)
            s!"module summary cache entry changed before it was read: {path}"
          let bytes ← readBytes name file opened.length opened.length []
          finishRead name opened bytes

structure ModuleSummaryCacheEntry where
  path : CacheName
  bytes : ℕ
  modified : ℕ
  temporary : Bool
  deriving DecidableEq

/-- A directory that is there is made private; its stamp is read after that. -/
def privateModuleSummaryCacheDirectory :
    CacheProgram (Option ℕ) := do
  if ← directoryExists directory then do
    secureDirectory directory
    let stamp ← directoryStamp directory
    return some stamp
  else return none

def inspectChildren : List CacheName → List ModuleSummaryCacheEntry →
    CacheProgram (List ModuleSummaryCacheEntry)
  | [], entries => return entries
  | name :: later, entries => do
      match ← childMetadata name with
      | none =>
        let path := name.display
        fail [s!"failed to inspect {path}"]
      | some metadata =>
        inspectChildren later
          (entries ++ [⟨name, metadata.length, metadata.modified, name.isTemporary⟩])

def directorySettled (before : ℕ) : CacheProgram Bool := do
  let after ← directoryStampAfter directory before
  return decide (after = some before)

/-- The entries with those of one more directory, unless it changes meanwhile. -/
def shardEntries (shard : String) (entries : List ModuleSummaryCacheEntry) :
    CacheProgram (Option (List ModuleSummaryCacheEntry)) := do
  match ← privateModuleSummaryCacheDirectory (.shard shard) with
  | none => return some entries
  | some before => do
      let names ← readShard shard
      let entries ← inspectChildren names entries
      let settled ← directorySettled (.shard shard) before
      return if settled then some entries else none

def pendingEntries : List String → List ModuleSummaryCacheEntry →
    CacheProgram (List ModuleSummaryCacheEntry)
  | [], entries => return entries
  | shard :: later, entries => do
      match ← shardEntries shard entries with
      | none => return []
      | some entries => pendingEntries later entries

/-- The entries of the cache, or none at all when a directory changes while it
is listed.  The directories found last are visited first. -/
def moduleSummaryCacheEntries : CacheProgram (List ModuleSummaryCacheEntry) := do
  match ← privateModuleSummaryCacheDirectory .root with
  | none => return []
  | some before => do
      let shards ← readRoot
      let settled ← directorySettled .root before
      if settled then pendingEntries shards.reverse [] else return []

structure ModuleSummaryCacheGc where
  initialFiles : ℕ := 0
  initialBytes : ℕ := 0
  removedAgeFiles : ℕ := 0
  removedAgeBytes : ℕ := 0
  removedSizeFiles : ℕ := 0
  removedSizeBytes : ℕ := 0
  removedStaleTempFiles : ℕ := 0
  removedStaleTempBytes : ℕ := 0
  activeTempFiles : ℕ := 0
  activeTempBytes : ℕ := 0
  remainingFiles : ℕ := 0
  remainingBytes : ℕ := 0
  deriving DecidableEq

/-- An age is known only of what is not modified in the future. -/
def olderThan (now age : ℕ) (entry : ModuleSummaryCacheEntry) : Bool :=
  decide (entry.modified ≤ now) && decide (age < now - entry.modified)

def removeModuleSummaryCacheEntry (entry : ModuleSummaryCacheEntry) : CacheProgram Bool :=
  removeFile entry.path

/-- Removes stale temporary files and sets the summaries aside. -/
def removeStaleTemporaries (now : ℕ) : List ModuleSummaryCacheEntry → ModuleSummaryCacheGc →
    List ModuleSummaryCacheEntry →
    CacheProgram (ModuleSummaryCacheGc × List ModuleSummaryCacheEntry)
  | [], result, published => return (result, published)
  | entry :: later, result, published =>
    if entry.temporary then
      if olderThan now moduleSummaryTempMaxAge entry then do
        let removed ← removeModuleSummaryCacheEntry entry
        removeStaleTemporaries now later
          (if removed then { result with
            removedStaleTempFiles := result.removedStaleTempFiles + 1
            removedStaleTempBytes := result.removedStaleTempBytes + entry.bytes } else result)
          published
      else removeStaleTemporaries now later result published
    else
      removeStaleTemporaries now later { result with
        initialFiles := result.initialFiles + 1
        initialBytes := result.initialBytes + entry.bytes } (published ++ [entry])

/-- Removes summaries beyond the age limit and keeps the others, also those
that were gone already. -/
def removeExpired (now maxAge : ℕ) : List ModuleSummaryCacheEntry → ModuleSummaryCacheGc →
    List ModuleSummaryCacheEntry →
    CacheProgram (ModuleSummaryCacheGc × List ModuleSummaryCacheEntry)
  | [], result, retained => return (result, retained)
  | entry :: later, result, retained =>
    if olderThan now maxAge entry then do
      let removed ← removeModuleSummaryCacheEntry entry
      if removed then
        removeExpired now maxAge later { result with
          removedAgeFiles := result.removedAgeFiles + 1
          removedAgeBytes := result.removedAgeBytes + entry.bytes } retained
      else removeExpired now maxAge later result (retained ++ [entry])
    else removeExpired now maxAge later result (retained ++ [entry])

/-- Removes summaries from the front until the bytes counted fit the limit; a
summary that was gone already is still counted. -/
def removeBeyondLimit (maxBytes : ℕ) : List ModuleSummaryCacheEntry → ℕ →
    ModuleSummaryCacheGc → CacheProgram ModuleSummaryCacheGc
  | [], _, result => return result
  | entry :: later, retainedBytes, result =>
    if retainedBytes ≤ maxBytes then return result
    else do
      let removed ← removeModuleSummaryCacheEntry entry
      if removed then do
        ensure (entry.bytes ≤ retainedBytes) "module summary size-prune byte count underflow"
        removeBeyondLimit maxBytes later (retainedBytes - entry.bytes) { result with
          removedSizeFiles := result.removedSizeFiles + 1
          removedSizeBytes := result.removedSizeBytes + entry.bytes }
      else removeBeyondLimit maxBytes later retainedBytes result

def oldestFirst (entries : List ModuleSummaryCacheEntry) : List ModuleSummaryCacheEntry :=
  entries.insertionSort fun left right =>
    toLex (left.modified, toLex (left.path.key.shard, left.path.fileName)) ≤
      toLex (right.modified, toLex (right.path.key.shard, right.path.fileName))

def totalBytes (entries : List ModuleSummaryCacheEntry) : ℕ :=
  (entries.map (·.bytes)).sum

def countRemaining (result : ModuleSummaryCacheGc) (entry : ModuleSummaryCacheEntry) :
    ModuleSummaryCacheGc :=
  if entry.temporary then { result with
    activeTempFiles := result.activeTempFiles + 1
    activeTempBytes := result.activeTempBytes + entry.bytes }
  else { result with
    remainingFiles := result.remainingFiles + 1
    remainingBytes := result.remainingBytes + entry.bytes }

def pruneModuleSummaryCache (maxBytes maxAge now : ℕ) : CacheProgram ModuleSummaryCacheGc := do
  ensure (0 < maxBytes) "module summary cache byte limit must be positive"
  let entries ← moduleSummaryCacheEntries
  let (result, published) ← removeStaleTemporaries now entries {} []
  let (result, retained) ← removeExpired now maxAge published result []
  let retained := oldestFirst retained
  let result ← removeBeyondLimit maxBytes retained (totalBytes retained) result
  let remaining ← moduleSummaryCacheEntries
  let result := remaining.foldl countRemaining result
  let remainingBytes := result.remainingBytes
  ensure (remainingBytes ≤ maxBytes)
    s!"module summary cache still exceeds its byte limit: {remainingBytes} > {maxBytes}"
  return result

end ConvexWasm.Compiler.SummaryCache
