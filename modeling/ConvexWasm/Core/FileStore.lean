import Mathlib

/-!
# A store of files

Names are entries of files; a file keeps its content under any name and under
none.  Every operation that changes a file or its names leaves a new stamp on
it, as the modification and change times of a file system do.
-/

namespace ConvexWasm

open Function

/-- Files are numbered; every entry refers to a file that was created. -/
structure FileStore (Name Byte : Type) where
  entry : Name → Option ℕ
  content : ℕ → List Byte
  stamp : ℕ → ℕ
  next : ℕ
  entry_lt : ∀ name file, entry name = some file → file < next

namespace FileStore

variable {Name Byte : Type}

def empty : FileStore Name Byte where
  entry := fun _ => none
  content := fun _ => []
  stamp := fun _ => 0
  next := 0
  entry_lt := fun _ _ hentry => nomatch hentry

def touch (store : FileStore Name Byte) (file : ℕ) : FileStore Name Byte :=
  { store with stamp := update store.stamp file (store.stamp file + 1) }

def append (store : FileStore Name Byte) (file : ℕ) (bytes : List Byte) : FileStore Name Byte :=
  { store.touch file with content := update store.content file (store.content file ++ bytes) }

section

variable (store : FileStore Name Byte) (file : ℕ)
include store file

@[simp] theorem touch_entry :
    (store.touch file).entry = store.entry := rfl

@[simp] theorem touch_content :
    (store.touch file).content = store.content := rfl

@[simp] theorem touch_next :
    (store.touch file).next = store.next := rfl

@[simp] theorem append_entry (bytes : List Byte) :
    (store.append file bytes).entry = store.entry := rfl

@[simp] theorem append_next (bytes : List Byte) :
    (store.append file bytes).next = store.next := rfl

theorem append_content_self (bytes : List Byte) :
    (store.append file bytes).content file = store.content file ++ bytes :=
  update_self ..

end

theorem append_content_of_ne (store : FileStore Name Byte) {file other : ℕ}
    (bytes : List Byte) (hother : other ≠ file) :
    (store.append file bytes).content other = store.content other :=
  update_of_ne hother ..

variable [DecidableEq Name]

/-- Let a name refer to an existing file. -/
def setEntry (store : FileStore Name Byte) (name : Name) (file : ℕ) (hfile : file < store.next) :
    FileStore Name Byte :=
  { store with
    entry := update store.entry name (some file)
    entry_lt := by
      intro other found hentry
      by_cases hother : other = name
      · subst hother
        rw [update_self] at hentry
        cases hentry
        exact hfile
      · rw [update_of_ne hother] at hentry
        exact store.entry_lt other found hentry }

def dropEntry (store : FileStore Name Byte) (name : Name) : FileStore Name Byte :=
  { store with
    entry := update store.entry name none
    entry_lt := by
      intro other found hentry
      by_cases hother : other = name
      · subst hother
        rw [update_self] at hentry
        cases hentry
      · rw [update_of_ne hother] at hentry
        exact store.entry_lt other found hentry }

/-- An empty file without a name. -/
def allocate (store : FileStore Name Byte) : FileStore Name Byte :=
  { store with
    content := update store.content store.next []
    next := store.next + 1
    entry_lt := fun name file hentry => Nat.lt_succ_of_lt (store.entry_lt name file hentry) }

/-- Create a file under a name that must be free. -/
def createNew (store : FileStore Name Byte) (name : Name) : Option (ℕ × FileStore Name Byte) :=
  match store.entry name with
  | some _ => none
  | none => some (store.next, store.allocate.setEntry name store.next (Nat.lt_succ_self _))

def unlink (store : FileStore Name Byte) (name : Name) : Option (FileStore Name Byte) :=
  match store.entry name with
  | none => none
  | some file => some ((store.dropEntry name).touch file)

/-- Move a file to another name, replacing what is there.  Nothing happens when
both names refer to the same file. -/
def rename (store : FileStore Name Byte) (old new : Name) : Option (FileStore Name Byte) :=
  match hold : store.entry old with
  | none => none
  | some file =>
    if store.entry new = some file then some store
    else
      some (((store.dropEntry old).setEntry new file (store.entry_lt old file hold)).touch file)

inductive LinkError
  | notFound
  | alreadyExists
  deriving DecidableEq

/-- Give a file a second name, which must be free. -/
def hardLink (store : FileStore Name Byte) (old new : Name) :
    Except LinkError (FileStore Name Byte) :=
  match hold : store.entry old with
  | none => .error .notFound
  | some file =>
    match store.entry new with
    | some _ => .error .alreadyExists
    | none => .ok ((store.setEntry new file (store.entry_lt old file hold)).touch file)

variable {store changed : FileStore Name Byte} {name old new : Name} {file : ℕ}

theorem createNew_eq_none_iff : store.createNew name = none ↔ store.entry name ≠ none := by
  rw [createNew]
  cases store.entry name <;> simp

theorem createNew_eq_some (hcreate : store.createNew name = some (file, changed)) :
    store.entry name = none ∧ file = store.next ∧ changed.next = store.next + 1 ∧
      changed.content = update store.content store.next [] ∧
      changed.entry = update store.entry name (some store.next) := by
  rw [createNew] at hcreate
  cases hentry : store.entry name with
  | some found =>
    rw [hentry] at hcreate
    cases hcreate
  | none =>
    rw [hentry] at hcreate
    cases hcreate
    exact ⟨rfl, rfl, rfl, rfl, rfl⟩

theorem unlink_eq_none_iff : store.unlink name = none ↔ store.entry name = none := by
  rw [unlink]
  cases store.entry name <;> simp

theorem unlink_eq_some (hunlink : store.unlink name = some changed) :
    changed.entry = update store.entry name none ∧ changed.content = store.content ∧
      changed.next = store.next := by
  rw [unlink] at hunlink
  cases hentry : store.entry name with
  | none =>
    rw [hentry] at hunlink
    cases hunlink
  | some found =>
    rw [hentry] at hunlink
    cases hunlink
    exact ⟨rfl, rfl, rfl⟩

theorem rename_eq_none_iff : store.rename old new = none ↔ store.entry old = none := by
  rw [rename]
  split
  case h_1 hentry => simp [hentry]
  case h_2 found hentry =>
    refine iff_of_false ?_ (by simp [hentry])
    split <;> simp

theorem rename_eq_some (hrename : store.rename old new = some changed) :
    ∃ file, store.entry old = some file ∧
      (store.entry new = some file ∧ changed = store ∨
        store.entry new ≠ some file ∧ changed.content = store.content ∧
          changed.next = store.next ∧
          changed.entry = update (update store.entry old none) new (some file)) := by
  rw [rename] at hrename
  split at hrename
  case h_1 hentry => cases hrename
  case h_2 found hentry =>
    refine ⟨found, hentry, ?_⟩
    by_cases hsame : store.entry new = some found
    · rw [if_pos hsame] at hrename
      exact .inl ⟨hsame, (Option.some.inj hrename).symm⟩
    · rw [if_neg hsame] at hrename
      cases hrename
      exact .inr ⟨hsame, rfl, rfl, rfl⟩

theorem hardLink_eq_ok (hlink : store.hardLink old new = .ok changed) :
    ∃ file, store.entry old = some file ∧ store.entry new = none ∧
      changed.content = store.content ∧ changed.next = store.next ∧
      changed.entry = update store.entry new (some file) := by
  rw [hardLink] at hlink
  split at hlink
  case h_1 hentry => cases hlink
  case h_2 found hentry =>
    cases hnew : store.entry new with
    | some other =>
      rw [hnew] at hlink
      cases hlink
    | none =>
      rw [hnew] at hlink
      cases hlink
      exact ⟨found, hentry, rfl, rfl, rfl, rfl⟩

/-- A link is made when the file is there and the other name is free. -/
theorem hardLink_ok_of (hold : store.entry old = some file) (hnew : store.entry new = none) :
    ∃ changed, store.hardLink old new = .ok changed := by
  rw [hardLink]
  split
  case h_1 hentry =>
    rw [hold] at hentry
    cases hentry
  case h_2 found hentry =>
    rw [hnew]
    exact ⟨_, rfl⟩

end FileStore

end ConvexWasm
