import ConvexWasm.Core.TransitionSystem
import ConvexWasm.IncrementalCache.Store

/-!
# A directory shared by readers and writers

Stores of any namespaces use one directory at once.  A lookup is a sequence of reads, an
insertion a sequence of writes under the lock of its shard, and between any two steps
the files may be changed in any way.
-/

namespace ConvexWasm.IncrementalCache

open Function

/-- A link, a directory or a file of someone else is not opened. -/
inductive Entry
  | file (inode : ℕ)
  | foreign
  deriving DecidableEq

inductive Name
  | slot (slot : Slot)
  | pending (shard : ℕ)
  deriving DecidableEq

/-- A file that is open keeps its inode whatever its name stands for later. -/
structure Directory where
  index : List UInt8
  entries : Name → Option Entry
  contents : ℕ → List UInt8
  modified : ℕ → ℕ
  next : ℕ

def Directory.empty : Directory where
  index := List.replicate indexBytes 0
  entries := fun _ => none
  contents := fun _ => []
  modified := fun _ => 0
  next := 0

def Directory.fill (directory : Directory) (inode : ℕ) (bytes : List UInt8) (time : ℕ) :
    Directory :=
  { directory with
    contents := update directory.contents inode bytes
    modified := update directory.modified inode time }

/-- Where a lookup is: the tier, its hinted ways that are left, the tiers after it. -/
structure Position where
  tier : ℕ
  layout : CacheTier
  hinted : List ℕ
  later : List (CacheTier × ℕ)

inductive Reading
  | hints (later : List (CacheTier × ℕ))
  | ways (position : Position)
  | opened (position : Position) (inode : ℕ)
  | sized (position : Position) (inode length : ℕ)
  | headed (position : Position) (inode length : ℕ) (header : List UInt8)
  | done (result : Except String (Option (List UInt8)))

/-- The value behind the header, read up to one byte more than the tier allows. -/
def readValue (directory : Directory) (layout : CacheTier) (inode : ℕ) : List UInt8 :=
  ((directory.contents inode).drop headerBytes).take (layout.recordLimit - headerBytes + 1)

def Cache.readStep (cache : Cache) (key : Digest) (directory : Directory) : Reading → Reading
  | .hints [] => .done (.ok none)
  | .hints ((layout, tier) :: later) =>
    match readExactAt (indexSetOffset key tier layout) (layout.ways * 32) directory.index with
    | none => .done (.error "failed to fill whole buffer")
    | some hints =>
      .ways
        { tier, layout, later
          hinted := (List.range layout.ways).filter fun way => hintOf way hints = key.bytes }
  | .ways { hinted := [], later, .. } => .hints later
  | .ways { tier, layout, hinted := way :: hinted, later } =>
    match directory.entries (.slot (slotOf key tier layout way)) with
    | none => .ways { tier, layout, hinted, later }
    | some .foreign =>
      .done (.error "incremental cache requires private owned files and directories")
    | some (.file inode) => .opened { tier, layout, hinted, later } inode
  | .opened position inode =>
    let length := (directory.contents inode).length
    if !lengthAllowed position.layout.recordLimit length then .ways position
    else .sized position inode length
  | .sized position inode length =>
    let header := (directory.contents inode).take headerBytes
    if header.length ≠ headerBytes then .done (.error "failed to fill whole buffer")
    else if !hasMagic header then .ways position
    else if !namesKey key header then .ways position
    else .headed position inode length header
  | .headed position inode length header =>
    let value := readValue directory position.layout inode
    if value.length + headerBytes ≠ length || !cache.authenticates header value then
      .ways position
    else .done (.ok (some value))
  | .done result => .done result

/-- Where an insertion is, with the tier that the record goes to. -/
inductive Writing
  | sizing
  | locking (layout : CacheTier) (tier : ℕ)
  | scanning (layout : CacheTier) (tier : ℕ) (ways : List ℕ) (oldest : Option ℕ)
      (selection : Selection)
  | creating (layout : CacheTier) (tier selected : ℕ)
  | heading (layout : CacheTier) (tier selected inode : ℕ)
  | filling (layout : CacheTier) (tier selected inode : ℕ)
  | renaming (layout : CacheTier) (tier selected : ℕ)
  | hinting (layout : CacheTier) (tier selected : ℕ)
  | finished (layout : CacheTier) (stored : Bool)
  | refused

def shardOf (key : Digest) (layout : CacheTier) : ℕ := setOf key layout.sets % 256

/-- One way is looked at. -/
def scanStep (key : Digest) (directory : Directory) (layout : CacheTier) (tier : ℕ) :
    List ℕ → Option ℕ → Selection → Writing
  | [], _, selection => .creating layout tier selection.selected
  | way :: ways, oldest, selection =>
    match directory.entries (.slot (slotOf key tier layout way)) with
    | none => .creating layout tier way
    | some .foreign => .finished layout false
    | some (.file inode) =>
      let data := directory.contents inode
      if holdsKey key data then .creating layout tier way
      else if oldest.all fun time => directory.modified inode < time then
        .scanning layout tier ways (some (directory.modified inode))
          { selection with selected := way, displacedRecordBytes := some data.length }
      else .scanning layout tier ways oldest selection

/-- The pending file of the shard, emptied. -/
def createStep (key : Digest) (directory : Directory) (layout : CacheTier)
    (tier selected time : ℕ) : Directory × Writing :=
  let name := Name.pending (shardOf key layout)
  match directory.entries name with
  | some .foreign => (directory, .finished layout false)
  | some (.file inode) => (directory.fill inode [] time, .heading layout tier selected inode)
  | none =>
    ({ directory.fill directory.next [] time with
        entries := update directory.entries name (some (.file directory.next))
        next := directory.next + 1 },
      .heading layout tier selected directory.next)

/-- The pending name, whatever it stands for, becomes that of the slot. -/
def renameStep (key : Digest) (directory : Directory) (layout : CacheTier)
    (tier selected : ℕ) : Directory × Writing :=
  let name := Name.pending (shardOf key layout)
  match directory.entries name with
  | none => (directory, .finished layout false)
  | some entry =>
    ({ directory with
        entries := update (update directory.entries name none)
          (.slot (slotOf key tier layout selected)) (some entry) },
      .hinting layout tier selected)

def Cache.writeStep (cache : Cache) (key : Digest) (value : List UInt8) (directory : Directory)
    (time : ℕ) : Writing → Directory × Writing
  | .sizing =>
    match tierFor value with
    | none => (directory, .refused)
    | some (layout, tier) => (directory, .locking layout tier)
  | .locking layout tier =>
    (directory, .scanning layout tier (List.range layout.ways) none
      { selected := 0, replacing := true, displacedRecordBytes := none })
  | .scanning layout tier ways oldest selection =>
    (directory, scanStep key directory layout tier ways oldest selection)
  | .creating layout tier selected => createStep key directory layout tier selected time
  | .heading layout tier selected inode =>
    (directory.fill inode (writeAllAt 0 (cache.header key value) (directory.contents inode)) time,
      .filling layout tier selected inode)
  | .filling layout tier selected inode =>
    (directory.fill inode (writeAllAt headerBytes value (directory.contents inode)) time,
      .renaming layout tier selected)
  | .renaming layout tier selected => renameStep key directory layout tier selected
  | .hinting layout tier selected =>
    ({ directory with
        index := writeAllAt (indexSetOffset key tier layout + selected * 32) key.bytes
          directory.index },
      .finished layout true)
  | .finished layout stored => (directory, .finished layout stored)
  | .refused => (directory, .refused)

section System

inductive Process
  | idle
  | reading (owner : Digest) (key : List UInt8) (at_ : Reading)
  | writing (owner : Digest) (key value : List UInt8) (at_ : Writing)

/-- An insertion under a namespace and a key. -/
structure Insertion where
  owner : Digest
  key : List UInt8
  value : List UInt8

/-- The directory, the processes, who has the lock of each shard, and what was inserted. -/
structure System where
  directory : Directory
  processes : ℕ → Process
  holder : ℕ → Option ℕ
  inserted : List Insertion

def System.set (system : System) (process : ℕ) (state : Process) : System :=
  { system with processes := update system.processes process state }

@[simp]
theorem System.set_processes_self (system : System) (process : ℕ) (state : Process) :
    (system.set process state).processes process = state :=
  update_self ..

theorem System.set_processes_of_ne (system : System) {process other : ℕ} (hne : other ≠ process)
    (state : Process) : (system.set process state).processes other = system.processes other :=
  update_of_ne hne ..

variable (hashes : Hashes) (secret : Digest)

/-- The store of a namespace on the directory. -/
def cacheOf (owner : Digest) : Cache := { hashes, owner, secret }

/-- The shard that is locked during the step, if any. -/
def Writing.lockStep (key : Digest) (process : ℕ) (holder : ℕ → Option ℕ) :
    Writing → Option (ℕ → Option ℕ)
  | .locking layout _ =>
    if holder (shardOf key layout) = none then
      some (update holder (shardOf key layout) (some process))
    else none
  | _ => some holder

/-- A lock that the process has is given back. -/
def releaseAll (process : ℕ) (holder : ℕ → Option ℕ) : ℕ → Option ℕ := fun shard =>
  if holder shard = some process then none else holder shard

inductive Step : System → System → Prop
  | lookup {system : System} {process : ℕ} (owner : Digest) (key : List UInt8) :
      system.processes process = .idle →
      Step system (system.set process (.reading owner key (.hints tiers.zipIdx)))
  | insert {system : System} {process : ℕ} (owner : Digest) (key value : List UInt8) :
      system.processes process = .idle →
      Step system
        { system.set process (.writing owner key value .sizing) with
          inserted := ⟨owner, key, value⟩ :: system.inserted }
  | read {system : System} {process : ℕ} {owner : Digest} {key : List UInt8} {at_ : Reading} :
      system.processes process = .reading owner key at_ →
      Step system (system.set process (.reading owner key
        ((cacheOf hashes secret owner).readStep ((cacheOf hashes secret owner).key key)
          system.directory at_)))
  | write {system : System} {process : ℕ} {owner : Digest} {key value : List UInt8}
      {at_ : Writing} {holder : ℕ → Option ℕ} (time : ℕ) :
      system.processes process = .writing owner key value at_ →
      at_.lockStep ((cacheOf hashes secret owner).key key) process system.holder = some holder →
      Step system
        { system.set process (.writing owner key value
            ((cacheOf hashes secret owner).writeStep ((cacheOf hashes secret owner).key key) value
              system.directory time at_).2) with
          directory := ((cacheOf hashes secret owner).writeStep
            ((cacheOf hashes secret owner).key key) value system.directory time at_).1
          holder }
  -- a process returns or is killed
  | stop {system : System} (process : ℕ) :
      Step system
        { system.set process .idle with holder := releaseAll process system.holder }
  -- files are damaged, cut, exchanged or copied
  | corrupt {system : System} (directory : Directory) :
      Step system { system with directory }

def System.start : System where
  directory := .empty
  processes := fun _ => .idle
  holder := fun _ => none
  inserted := []

end System

end ConvexWasm.IncrementalCache
