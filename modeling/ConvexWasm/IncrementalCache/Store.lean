import ConvexWasm.IncrementalCache.Record

/-!
# Lookups and insertions of one process

A lookup goes through the tiers in their order and trusts the index only for which
files to open.  An insertion takes the slot of its key, a free one, or the one that was
written first.
-/

namespace ConvexWasm.IncrementalCache

structure RecordFile where
  data : List UInt8
  modified : ℕ

structure Store where
  index : List UInt8
  files : Slot → Option RecordFile

/-- A directory that was just opened. -/
def Store.empty : Store where
  index := List.replicate indexBytes 0
  files := fun _ => none

variable (cache : Cache) (store : Store)

section Lookup

variable (key : Digest)

def hintOf (way : ℕ) (hints : List UInt8) : List UInt8 :=
  slice (way * 32) 32 hints

def Cache.lookupWay (tier : ℕ) (layout : CacheTier) (way : ℕ) : Option (List UInt8) :=
  (store.files (slotOf key tier layout way)).bind fun file =>
    cache.readRecord key layout.recordLimit file.data

def Cache.lookupTier (tier : ℕ) (layout : CacheTier) : Except String (Option (List UInt8)) :=
  match readExactAt (indexSetOffset key tier layout) (layout.ways * 32) store.index with
  | none => .error "failed to fill whole buffer"
  | some hints =>
    .ok ((List.range layout.ways).findSome? fun way =>
      if hintOf way hints ≠ key.bytes then none else cache.lookupWay store key tier layout way)

def Cache.lookupTiers : List (CacheTier × ℕ) → Except String (Option (List UInt8))
  | [] => .ok none
  | (layout, tier) :: later =>
    match cache.lookupTier store key tier layout with
    | .error failure => .error failure
    | .ok (some value) => .ok (some value)
    | .ok none => Cache.lookupTiers later

def Cache.lookup : Except String (Option (List UInt8)) :=
  cache.lookupTiers store key tiers.zipIdx

end Lookup

structure Selection where
  selected : ℕ
  replacing : Bool
  displacedRecordBytes : Option ℕ

def holdsKey (key : Digest) (data : List UInt8) : Bool :=
  headerBytes ≤ data.length && hasMagic (data.take headerBytes) &&
    namesKey key (data.take headerBytes)

/-- The ways that are left, and the time of the oldest record so far. -/
def selectWay (key : Digest) (tier : ℕ) (layout : CacheTier) :
    List ℕ → Option ℕ → Selection → Selection
  | [], _, selection => selection
  | way :: ways, oldest, selection =>
    match store.files (slotOf key tier layout way) with
    | none => { selected := way, replacing := false, displacedRecordBytes := none }
    | some file =>
      if holdsKey key file.data then
        { selected := way, replacing := false, displacedRecordBytes := none }
      else if oldest.all fun time => file.modified < time then
        selectWay key tier layout ways (some file.modified)
          { selection with selected := way, displacedRecordBytes := some file.data.length }
      else selectWay key tier layout ways oldest selection

def Store.select (key : Digest) (tier : ℕ) (layout : CacheTier) : Selection :=
  selectWay store key tier layout (List.range layout.ways) none
    { selected := 0, replacing := true, displacedRecordBytes := none }

def Cache.publish (key : Digest) (value : List UInt8) (tier : ℕ) (layout : CacheTier)
    (time : ℕ) : Store × Option ℕ :=
  let selection := store.select key tier layout
  ({ index := writeAllAt (indexSetOffset key tier layout + selection.selected * 32) key.bytes
        store.index
     files := Function.update store.files (slotOf key tier layout selection.selected)
        (some { data := cache.record key value, modified := time }) },
    selection.displacedRecordBytes)

/-- The first tier whose records have room for the value. -/
def tierFor (value : List UInt8) : Option (CacheTier × ℕ) :=
  tiers.zipIdx.find? fun tier => value.length ≤ tier.1.recordLimit - headerBytes

/-- What the compiler asks of the cache; an insertion happens at some time. -/
inductive Operation
  | get (key : List UInt8)
  | insert (key value : List UInt8) (time : ℕ)

def Operation.key : Operation → List UInt8
  | .get key => key
  | .insert key _ _ => key

def Cache.get (key : List UInt8) : Except String (Option (List UInt8)) :=
  cache.lookup store (cache.key key)

/-- Values that fit no tier are not kept. -/
def Cache.insert (key value : List UInt8) (time : ℕ) : Bool × Store :=
  match tierFor value with
  | none => (false, store)
  | some (layout, tier) => (true, (cache.publish store (cache.key key) value tier layout time).1)

def Cache.perform : Operation → Store
  | .get _ => store
  | .insert key value time => (cache.insert store key value time).2

def Cache.run (operations : List Operation) : Store :=
  operations.foldl cache.perform .empty

/-- The value of the last insertion that succeeded under each name. -/
def latestBy {Name : Type} [DecidableEq Name] (name : List UInt8 → Name)
    (operations : List Operation) : Name → Option (List UInt8) :=
  operations.foldl (fun found operation =>
    match operation with
    | .get _ => found
    | .insert key value _ =>
      if (tierFor value).isSome then Function.update found (name key) (some value) else found)
    fun _ => none

def latest (operations : List Operation) (key : List UInt8) : Option (List UInt8) :=
  latestBy id operations key

end ConvexWasm.IncrementalCache
