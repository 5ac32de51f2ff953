import ConvexWasm.Core.FileStore
import ConvexWasm.Core.InterferedProgram

/-!
# The tree of cached module summaries

Summaries lie in one directory for each beginning of their keys.  A compiler
writes a summary to a private temporary file and renames it over its final
name, sets the modification time of a summary it uses, and removes files when
it prunes; each of these is one step on the shared tree.
-/

namespace ConvexWasm.Compiler.SummaryCache

open Function

/-- A key as the two characters that name its directory and what follows them. -/
structure CacheKey where
  shard : String
  rest : String
  deriving DecidableEq

inductive CacheName
  | published (key : CacheKey)
  | temporary (key : CacheKey) (pid : ℕ)
  deriving DecidableEq

inductive CacheDirectory
  | root
  | shard (name : String)
  deriving DecidableEq

namespace CacheName

def key : CacheName → CacheKey
  | published key => key
  | temporary key _ => key

def isTemporary : CacheName → Bool
  | published _ => false
  | temporary _ _ => true

def fileName : CacheName → String
  | published key => key.shard ++ key.rest ++ ".json"
  | temporary key pid => "." ++ key.shard ++ key.rest ++ "." ++ toString pid ++ ".tmp"

def directory (name : CacheName) : CacheDirectory :=
  .shard name.key.shard

def display (name : CacheName) : String :=
  "module-summaries/" ++ name.key.shard ++ "/" ++ name.fileName

end CacheName

/-- Files with their modification times, and directories with a stamp that
changes with their metadata. -/
structure CacheTree where
  store : FileStore CacheName UInt8
  modified : ℕ → ℕ
  directory : CacheDirectory → Option ℕ

/-- What `stat` tells of a file; the stamp stands for its times. -/
structure FileView where
  file : ℕ
  length : ℕ
  stamp : ℕ
  modified : ℕ
  deriving DecidableEq

namespace CacheTree

def empty : CacheTree where
  store := .empty
  modified := fun _ => 0
  directory := fun _ => none

def view (tree : CacheTree) (file : ℕ) : FileView where
  file := file
  length := (tree.store.content file).length
  stamp := tree.store.stamp file
  modified := tree.modified file

def viewOf (tree : CacheTree) (name : CacheName) : Option FileView :=
  (tree.store.entry name).map tree.view

/-- The metadata of a directory change. -/
def stampDirectory (tree : CacheTree) (directory : CacheDirectory) : CacheTree :=
  { tree with
    directory := update tree.directory directory ((tree.directory directory).map (· + 1)) }

end CacheTree

inductive Operation
  | lookup (name : CacheName)
  | openFile (name : CacheName)
  | inspectFile (file : ℕ)
  | readFile (file offset limit : ℕ)
  | reinspectFile (file : ℕ)
  | recheck (name : CacheName)
  | lookupDirectory (directory : CacheDirectory)
  | secureDirectory (directory : CacheDirectory)
  | inspectDirectory (directory : CacheDirectory)
  | listRoot
  | listShard (shard : String)
  | inspectChild (name : CacheName)
  | recheckDirectory (directory : CacheDirectory) (before : ℕ)
  | removeFile (name : CacheName)
  deriving DecidableEq

abbrev Response : Operation → Type
  | .lookup _ => Option FileView
  | .openFile _ => Option ℕ
  | .inspectFile _ => FileView
  | .readFile _ _ _ => List UInt8
  | .reinspectFile _ => FileView
  | .recheck _ => Option FileView
  | .lookupDirectory _ => Bool
  | .secureDirectory _ => Unit
  | .inspectDirectory _ => ℕ
  | .listRoot => List String
  | .listShard _ => List CacheName
  | .inspectChild _ => Option FileView
  | .recheckDirectory _ _ => Option ℕ
  | .removeFile _ => Bool

/-- One operation of a compiler.  Listings come in any order and a read may be
short, but not empty before the end of the file. -/
def Performs : (operation : Operation) → CacheTree → Response operation → CacheTree → Prop
  | .lookup name, tree, found, after => found = tree.viewOf name ∧ after = tree
  | .openFile name, tree, found, after => found = tree.store.entry name ∧ after = tree
  | .inspectFile file, tree, found, after => found = tree.view file ∧ after = tree
  | .readFile file offset limit, tree, bytes, after =>
    bytes <+: (tree.store.content file).drop offset ∧ bytes.length ≤ limit ∧
      (bytes = [] → limit = 0 ∨ (tree.store.content file).length ≤ offset) ∧ after = tree
  | .reinspectFile file, tree, found, after => found = tree.view file ∧ after = tree
  | .recheck name, tree, found, after => found = tree.viewOf name ∧ after = tree
  | .lookupDirectory directory, tree, found, after =>
    found = (tree.directory directory).isSome ∧ after = tree
  | .secureDirectory directory, tree, _, after => after = tree.stampDirectory directory
  | .inspectDirectory directory, tree, stamp, after =>
    tree.directory directory = some stamp ∧ after = tree
  | .listRoot, tree, shards, after =>
    shards.Nodup ∧ (∀ shard, shard ∈ shards ↔ (tree.directory (.shard shard)).isSome) ∧
      after = tree
  | .listShard shard, tree, names, after =>
    names.Nodup ∧
      (∀ name, name ∈ names ↔ name.key.shard = shard ∧ (tree.store.entry name).isSome) ∧
      after = tree
  | .inspectChild name, tree, found, after => found = tree.viewOf name ∧ after = tree
  | .recheckDirectory directory _, tree, stamp, after =>
    stamp = tree.directory directory ∧ after = tree
  | .removeFile name, tree, removed, after =>
    match tree.store.unlink name with
    | none => removed = false ∧ after = tree
    | some store =>
      removed = true ∧ after = ({ tree with store := store }.stampDirectory name.directory)

/-- One step of another compiler. -/
inductive Others : CacheTree → CacheTree → Prop where
  | makeDirectory {tree : CacheTree} {directory : CacheDirectory}
      (hnone : tree.directory directory = none) :
      Others tree { tree.stampDirectory .root with
        directory := update (tree.stampDirectory .root).directory directory (some 0) }
  | secureDirectory {tree : CacheTree} (directory : CacheDirectory) :
      Others tree (tree.stampDirectory directory)
  | create {tree : CacheTree} {key : CacheKey} {pid file : ℕ} {store : FileStore CacheName UInt8}
      (hdirectory : (tree.directory (.shard key.shard)).isSome)
      (hcreate : tree.store.createNew (.temporary key pid) = some (file, store)) (time : ℕ) :
      Others tree ({ tree with store := store, modified := update tree.modified file time
        }.stampDirectory (.shard key.shard))
  | write {tree : CacheTree} {key : CacheKey} {pid file : ℕ}
      (hentry : tree.store.entry (.temporary key pid) = some file) (bytes : List UInt8) (time : ℕ) :
      Others tree { tree with
        store := tree.store.append file bytes, modified := update tree.modified file time }
  | publish {tree : CacheTree} {key : CacheKey} {pid : ℕ} {store : FileStore CacheName UInt8}
      (hrename : tree.store.rename (.temporary key pid) (.published key) = some store) :
      Others tree ({ tree with store := store }.stampDirectory (.shard key.shard))
  | touch {tree : CacheTree} {key : CacheKey} {file : ℕ}
      (hentry : tree.store.entry (.published key) = some file) (time : ℕ) :
      Others tree { tree with
        store := tree.store.touch file, modified := update tree.modified file time }
  | remove {tree : CacheTree} {name : CacheName} {store : FileStore CacheName UInt8}
      (hunlink : tree.store.unlink name = some store) :
      Others tree ({ tree with store := store }.stampDirectory name.directory)

/-- The cache as one compiler shares it with the others. -/
def cache : Sharing CacheTree Response where
  performs := Performs
  others := Others

abbrev CacheProgram := Program Response

abbrev Trace := List (Observation CacheTree Operation)

/-- No file has two names. -/
def SingleNames (store : FileStore CacheName UInt8) : Prop :=
  ∀ first second file, store.entry first = some file → store.entry second = some file →
    first = second

/-- A file that nobody writes to any more. -/
structure Sealed (file : ℕ) (bytes : List UInt8) (store : FileStore CacheName UInt8) : Prop where
  content : store.content file = bytes
  created : file < store.next
  unwritten : ∀ key pid, store.entry (.temporary key pid) ≠ some file

section Invariants

variable {tree changed : CacheTree} {store after : FileStore CacheName UInt8}
  {name : CacheName} {key : CacheKey} {pid file : ℕ} {bytes : List UInt8}

/-- An operation of a compiler leaves the files as they are or removes a name. -/
theorem Performs.store_cases {operation : Operation} {response : Response operation}
    (hperforms : Performs operation tree response changed) :
    changed.store = tree.store ∨ ∃ name, tree.store.unlink name = some changed.store := by
  cases operation with
  | removeFile name =>
    rw [Performs] at hperforms
    cases hunlink : tree.store.unlink name with
    | none =>
      rw [hunlink] at hperforms
      exact .inl (by rw [hperforms.2])
    | some store =>
      rw [hunlink] at hperforms
      refine .inr ⟨name, ?_⟩
      rw [hperforms.2, hunlink]
      rfl
  | secureDirectory directory =>
    cases hperforms
    exact .inl rfl
  | readFile file offset limit =>
    obtain ⟨-, -, -, rfl⟩ := hperforms
    exact .inl rfl
  | listRoot =>
    obtain ⟨-, -, rfl⟩ := hperforms
    exact .inl rfl
  | listShard shard =>
    obtain ⟨-, -, rfl⟩ := hperforms
    exact .inl rfl
  | lookup name | openFile name | inspectFile file | reinspectFile file | recheck name
  | lookupDirectory directory | inspectDirectory directory | inspectChild name
  | recheckDirectory directory before =>
    obtain ⟨-, rfl⟩ := hperforms
    exact .inl rfl

/-- What another compiler does to the files. -/
theorem Others.store_cases (hothers : Others tree changed) :
    changed.store = tree.store ∨
    (∃ key pid file, tree.store.createNew (.temporary key pid) = some (file, changed.store)) ∨
    (∃ key pid file bytes, tree.store.entry (.temporary key pid) = some file ∧
      changed.store = tree.store.append file bytes) ∨
    (∃ key pid, tree.store.rename (.temporary key pid) (.published key) = some changed.store) ∨
    (∃ file, changed.store = tree.store.touch file) ∨
    ∃ name, tree.store.unlink name = some changed.store := by
  cases hothers with
  | makeDirectory | secureDirectory => exact .inl rfl
  | create _ hcreate => exact .inr (.inl ⟨_, _, _, hcreate⟩)
  | write hentry bytes => exact .inr (.inr (.inl ⟨_, _, _, bytes, hentry, rfl⟩))
  | publish hrename => exact .inr (.inr (.inr (.inl ⟨_, _, hrename⟩)))
  | touch => exact .inr (.inr (.inr (.inr (.inl ⟨_, rfl⟩))))
  | remove hunlink => exact .inr (.inr (.inr (.inr (.inr ⟨_, hunlink⟩))))

theorem singleNames_empty : SingleNames CacheTree.empty.store := by
  intro first second file hfirst _
  cases hfirst

theorem SingleNames.unlink (hsingle : SingleNames store)
    (hunlink : store.unlink name = some after) : SingleNames after := by
  intro first second file hfirst hsecond
  obtain ⟨hentry, -, -⟩ := FileStore.unlink_eq_some hunlink
  rw [hentry, update_apply] at hfirst hsecond
  split at hfirst
  · cases hfirst
  · split at hsecond
    · cases hsecond
    · exact hsingle first second file hfirst hsecond

theorem SingleNames.createNew (hsingle : SingleNames store)
    (hcreate : store.createNew name = some (file, after)) : SingleNames after := by
  intro first second found hfirst hsecond
  obtain ⟨-, rfl, -, -, hentry⟩ := FileStore.createNew_eq_some hcreate
  have hfresh : ∀ other, store.entry other ≠ some store.next := fun other hother =>
    absurd (store.entry_lt other _ hother) (lt_irrefl _)
  rw [hentry, update_apply] at hfirst hsecond
  split at hfirst
  · cases hfirst
    split at hsecond
    · simp_all
    · exact absurd hsecond (hfresh second)
  · split at hsecond
    · cases hsecond
      exact absurd hfirst (hfresh first)
    · exact hsingle first second found hfirst hsecond

theorem SingleNames.rename {old new : CacheName} (hsingle : SingleNames store)
    (hrename : store.rename old new = some after) : SingleNames after := by
  obtain ⟨found, hold, ⟨-, rfl⟩ | ⟨-, -, -, hentry⟩⟩ := FileStore.rename_eq_some hrename
  · exact hsingle
  intro first second file hfirst hsecond
  rw [hentry] at hfirst hsecond
  have hunique : ∀ name, (update (update store.entry old none) new (some found)) name =
      some found → name = new := by
    intro name hname
    by_contra hne
    rw [update_of_ne hne, update_apply] at hname
    split at hname
    · cases hname
    · rename_i hother
      exact hother (hsingle name old found hname hold)
  by_cases hfile : file = found
  · subst hfile
    rw [hunique first hfirst, hunique second hsecond]
  · have hbefore : ∀ name, (update (update store.entry old none) new (some found)) name =
        some file → store.entry name = some file := by
      intro name hname
      rw [update_apply] at hname
      split at hname
      · exact absurd (Option.some.inj hname).symm hfile
      · rw [update_apply] at hname
        split at hname
        · cases hname
        · exact hname
    exact hsingle first second file (hbefore first hfirst) (hbefore second hsecond)

theorem SingleNames.others (hsingle : SingleNames tree.store) (hothers : Others tree changed) :
    SingleNames changed.store := by
  obtain hsame | ⟨_, _, _, hcreate⟩ | ⟨_, _, _, _, _, hwrite⟩ | ⟨_, _, hrename⟩ | ⟨_, htouch⟩ |
    ⟨_, hunlink⟩ := hothers.store_cases
  · rwa [hsame]
  · exact hsingle.createNew hcreate
  · rw [hwrite]
    exact hsingle
  · exact hsingle.rename hrename
  · rw [htouch]
    exact hsingle
  · exact hsingle.unlink hunlink

/-- A file under a final name is sealed. -/
theorem SingleNames.published (hsingle : SingleNames store)
    (hentry : store.entry (.published key) = some file) :
    Sealed file (store.content file) store where
  content := rfl
  created := store.entry_lt _ _ hentry
  unwritten := fun other pid hother => by
    have heq := hsingle _ _ file hentry hother
    cases heq

section

variable (hsealed : Sealed file bytes store)
include hsealed

theorem Sealed.unlink (hunlink : store.unlink name = some after) : Sealed file bytes after := by
  obtain ⟨hentry, hcontent, hnext⟩ := FileStore.unlink_eq_some hunlink
  refine ⟨by rw [hcontent, hsealed.content], by rw [hnext]; exact hsealed.created, ?_⟩
  intro key pid
  rw [hentry, update_apply]
  split
  · simp
  · exact hsealed.unwritten key pid

theorem Sealed.createNew {created : ℕ}
    (hcreate : store.createNew name = some (created, after)) : Sealed file bytes after := by
  obtain ⟨-, rfl, hnext, hcontent, hentry⟩ := FileStore.createNew_eq_some hcreate
  refine ⟨?_, ?_, ?_⟩
  · rw [hcontent, update_of_ne (ne_of_lt hsealed.created), hsealed.content]
  · rw [hnext]
    exact Nat.lt_succ_of_lt hsealed.created
  · intro other number
    rw [hentry, update_apply]
    split
    · intro heq
      exact absurd hsealed.created (by rw [Option.some.inj heq]; exact lt_irrefl _)
    · exact hsealed.unwritten other number

theorem Sealed.rename (hrename : store.rename (.temporary key pid) (.published key) = some after) :
    Sealed file bytes after := by
  obtain ⟨found, hold, ⟨-, rfl⟩ | ⟨-, hcontent, hnext, hentry⟩⟩ :=
    FileStore.rename_eq_some hrename
  · exact hsealed
  · refine ⟨by rw [hcontent, hsealed.content], by rw [hnext]; exact hsealed.created, ?_⟩
    intro other number
    rw [hentry, update_of_ne (by simp), update_apply]
    split
    · simp
    · exact hsealed.unwritten other number

end

/-- A published file keeps its content, since only temporary files are written. -/
theorem Sealed.others (hsealed : Sealed file bytes tree.store) (hothers : Others tree changed) :
    Sealed file bytes changed.store := by
  obtain hsame | ⟨_, _, _, hcreate⟩ | ⟨key, pid, written, more, hentry, hwrite⟩ |
    ⟨_, _, hrename⟩ | ⟨_, htouch⟩ | ⟨_, hunlink⟩ := hothers.store_cases
  · rwa [hsame]
  · exact hsealed.createNew hcreate
  · have hne : file ≠ written := by
      rintro rfl
      exact hsealed.unwritten key pid hentry
    rw [hwrite]
    exact ⟨by rw [FileStore.append_content_of_ne _ more hne, hsealed.content], hsealed.created,
      hsealed.unwritten⟩
  · exact hsealed.rename hrename
  · rw [htouch]
    exact ⟨hsealed.content, hsealed.created, hsealed.unwritten⟩
  · exact hsealed.unlink hunlink

theorem Sealed.performs {operation : Operation} {response : Response operation}
    (hsealed : Sealed file bytes tree.store)
    (hperforms : Performs operation tree response changed) : Sealed file bytes changed.store := by
  obtain hsame | ⟨_, hunlink⟩ := hperforms.store_cases
  · rwa [hsame]
  · exact hsealed.unlink hunlink

end Invariants

end ConvexWasm.Compiler.SummaryCache
