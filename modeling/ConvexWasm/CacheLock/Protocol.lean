import ConvexWasm.Core.TransitionSystem

/-!
# The cache lock

Processes take one lock by opening a transaction, and record in a second
database which process holds it, so that the processes below the holder may
work under its lock.  A step is one statement or one look at a process; any
process may die between two steps.
-/

namespace ConvexWasm.CacheLock

open Function

abbrev Text := List Char
abbrev Pid := ℤ
abbrev CallId := ℕ

/-- A process that has died stays visible until it is reaped. -/
structure Process where
  startIdentity : Text
  running : Bool
  deriving DecidableEq

/-- A row of the authorities; a column that has not the expected type is `none`. -/
structure Row where
  rowid : ℕ
  authority : Option Text
  ownerPid : Option Pid
  ownerStartIdentity : Option Text
  deriving DecidableEq

/-- The database of the authorities: no file, a file without the table, the
table of process numbers only and the table with start identities. -/
inductive Schema
  | absent
  | empty
  | pidOnly
  | current
  deriving DecidableEq

structure Database where
  schema : Schema
  rows : List Row
  deriving DecidableEq

/-- `/^[A-Za-z0-9_-]{43}$/u` -/
def authorityPattern (text : Text) : Bool :=
  text.length == 43 && text.all fun character =>
    character.isAlphanum || character == '_' || character == '-'

def maxSafeInteger : ℤ := 2 ^ 53 - 1

/-- The owner that a row names, when both columns can be read. -/
def Row.owner (row : Row) : Option (Pid × Text) :=
  match row.ownerPid, row.ownerStartIdentity with
  | some pid, some startIdentity =>
    if 0 < pid ∧ pid ≤ maxSafeInteger ∧ startIdentity ≠ [] then some (pid, startIdentity)
    else none
  | _, _ => none

/-- The owner of a row that pruning looks at; the other rows are stale. -/
def Row.wellFormedOwner (row : Row) : Option (Pid × Text) :=
  match row.authority with
  | some authority => if authorityPattern authority then row.owner else none
  | none => none

/-- A row is added behind the largest one. -/
def nextRowid (rows : List Row) : ℕ :=
  rows.foldl (fun largest row => max largest row.rowid) 0 + 1

inductive Kind
  | acquire
  | requireAuthority
  deriving DecidableEq

inductive Outcome
  | granted
  | refused (message : String)
  | failed (message : String)
  | released
  deriving DecidableEq

/-- What the authority database is opened for. -/
inductive Purpose
  | insert (authority : Text)
  | remove (authority : Text)
  deriving DecidableEq

inductive Opening
  | file
  | master
  | create
  | columns
  | alter
  | clear
  deriving DecidableEq

/-- Where a call stands: the next statement and what it has read before. -/
inductive Phase
  | inheritedFile (kind : Kind) (authority : Text)
  | inheritedSelect (kind : Kind) (authority : Text)
  | inheritedOpen (kind : Kind) (authority : Text) (owner : Pid × Text)
  | inheritedRead (kind : Kind) (authority : Text) (owner : Pid × Text) (seen : Text)
  | generate
  | opening (purpose : Purpose) (stage : Opening)
  | select (authority : Text)
  | inspect (authority : Text) (remaining stale : List Row)
  | inspectRead (authority : Text) (row : Row) (owner : Pid × Text) (seen : Text)
      (remaining stale : List Row)
  | prune (authority : Text) (stale : List Row)
  | insert (authority : Text)
  | begin (authority : Text)
  | holding (authority : Text)
  | delete (authority : Text)
  | rollback (authority : Text)
  | finished (outcome : Outcome)
  deriving DecidableEq

structure Call where
  pid : Pid
  startIdentity : Text
  phase : Phase
  deriving DecidableEq

/-- The lists remember which processes there have been and which authorities
were made, put into an environment and presented. -/
structure State where
  processes : Pid → Option Process
  used : List (Pid × Text)
  database : Database
  holder : Option CallId
  calls : CallId → Option Call
  generated : List Text
  published : List Text
  presented : List Text

inductive Event
  | spawn (pid : Pid) (startIdentity : Text)
  | die (pid : Pid)
  | reap (pid : Pid)
  | call (id : CallId) (pid : Pid) (kind : Kind) (authority : Option Text)
  | advance (id : CallId) (fresh : Text)
  | release (id : CallId)

/-- A call that has no live authority to inherit takes the lock itself or is
turned away. -/
def notInherited : Kind → Phase
  | .acquire => .generate
  | .requireAuthority =>
    .finished (.refused "Run this executable through a process that holds the cache lock.")

def inheritedFrom (kind : Kind) (self owner : Pid) : Phase :=
  match kind with
  | .acquire =>
    if owner = self then
      .finished (.refused
        "This process already owns the cache lock; reuse its acquired resource guard.")
    else .finished .granted
  | .requireAuthority => .finished .granted

/-- `authorityFromEnvironment` -/
def authorityFromEnvironment (kind : Kind) : Option Text → Phase
  | none => notInherited kind
  | some authority =>
    if authorityPattern authority then .inheritedFile kind authority
    else .finished (.refused "Convex Wasm cache lock authority is invalid.")

/-- The start identity that the process table shows for a number. -/
def State.shown (state : State) (pid : Pid) : Option Text :=
  (state.processes pid).map Process.startIdentity

def authorityOwner (rows : List Row) (authority : Text) : Option (Pid × Text) :=
  (rows.find? fun row => decide (row.authority = some authority)).bind Row.owner

def opened : Purpose → Phase
  | .insert authority => .select authority
  | .remove authority => .delete authority

/-- A failed release keeps the lock. -/
def openingFailed (message : String) : Purpose → Phase
  | .insert _ => .finished (.failed message)
  | .remove authority => .holding authority

/-- The statements that bring the database of the authorities up to date. -/
def openStatement (purpose : Purpose) (database : Database) : Opening → Database × Phase
  | .file =>
    ({ database with
        schema := if database.schema = .absent then .empty else database.schema },
      .opening purpose .master)
  | .master =>
    match database.schema with
    | .absent | .empty => (database, .opening purpose .create)
    | .pidOnly | .current => (database, .opening purpose .columns)
  | .create =>
    match database.schema with
    | .absent | .empty => ({ database with schema := .current }, opened purpose)
    | .pidOnly | .current =>
      (database,
        openingFailed "table convex_wasm_cache_lock_authorities already exists" purpose)
  | .columns =>
    match database.schema with
    | .current => (database, opened purpose)
    | _ => (database, .opening purpose .alter)
  | .alter =>
    match database.schema with
    | .pidOnly => ({ database with schema := .current }, .opening purpose .clear)
    | .current =>
      (database, openingFailed "duplicate column name: owner_start_identity" purpose)
    | _ =>
      (database, openingFailed "no such table: convex_wasm_cache_lock_authorities" purpose)
  | .clear => ({ database with rows := [] }, opened purpose)

def State.move (state : State) (id : CallId) (call : Call) (phase : Phase) : State :=
  { state with calls := update state.calls id (some { call with phase }) }

def State.write (state : State) (database : Database) : State :=
  { state with database }

def exitedWhileRead : Outcome := .failed "ESRCH: no such process, read"

def missingTable : Outcome :=
  .failed "no such table or column in convex_wasm_cache_lock_authorities"

/-- The next statement of a call. -/
def advance (state : State) (id : CallId) (call : Call) (fresh : Text) : Option State :=
  match call.phase with
  | .inheritedFile kind authority =>
    some (state.move id call
      (if state.database.schema = .absent then notInherited kind
      else .inheritedSelect kind authority))
  | .inheritedSelect kind authority =>
    some (state.move id call
      (if state.database.schema = .current then
        match authorityOwner state.database.rows authority with
        | none => notInherited kind
        | some owner => .inheritedOpen kind authority owner
      else .finished missingTable))
  | .inheritedOpen kind authority owner =>
    some (state.move id call
      (match state.shown owner.1 with
      | none => notInherited kind
      | some seen => .inheritedRead kind authority owner seen))
  | .inheritedRead kind _ owner seen =>
    some (state.move id call
      (if state.shown owner.1 = some seen then
        if seen = owner.2 then inheritedFrom kind call.pid owner.1 else notInherited kind
      else .finished exitedWhileRead))
  | .generate =>
    if authorityPattern fresh ∧ fresh ∉ state.generated ∧ fresh ∉ state.presented then
      some ({ state with generated := fresh :: state.generated }.move id call
        (.opening (.insert fresh) .file))
    else none
  | .opening purpose stage =>
    let (database, phase) := openStatement purpose state.database stage
    some ((state.write database).move id call phase)
  | .select authority => some (state.move id call (.inspect authority state.database.rows []))
  | .inspect authority [] stale => some (state.move id call (.prune authority stale))
  | .inspect authority (row :: remaining) stale =>
    some (state.move id call
      (match row.wellFormedOwner with
      | none => .inspect authority remaining (stale ++ [row])
      | some owner =>
        match state.shown owner.1 with
        | none => .inspect authority remaining (stale ++ [row])
        | some seen => .inspectRead authority row owner seen remaining stale))
  | .inspectRead authority row owner seen remaining stale =>
    some (state.move id call
      (if state.shown owner.1 = some seen then
        .inspect authority remaining (if seen = owner.2 then stale else stale ++ [row])
      else .finished exitedWhileRead))
  | .prune authority [] => some (state.move id call (.insert authority))
  | .prune authority (row :: stale) =>
    some ((state.write { state.database with
        rows := state.database.rows.filter fun other => decide (other.rowid ≠ row.rowid) }).move
      id call (.prune authority stale))
  | .insert authority =>
    if state.database.schema = .current ∧
        ∀ row ∈ state.database.rows, row.authority ≠ some authority then
      some ((state.write { state.database with
          rows := state.database.rows ++
            [⟨nextRowid state.database.rows, some authority, some call.pid,
              some call.startIdentity⟩] }).move
        id call (.begin authority))
    else some (state.move id call (.finished missingTable))
  | .begin authority =>
    if state.holder = none then
      some ({ state with
        holder := some id, published := authority :: state.published }.move id call
          (.holding authority))
    else some state
  | .delete authority =>
    if state.database.schema = .current then
      some ((state.write { state.database with
          rows := state.database.rows.filter fun row =>
            decide (row.authority ≠ some authority) }).move
        id call (.rollback authority))
    else some (state.move id call (.holding authority))
  | .rollback _ => some ({ state with holder := none }.move id call (.finished .released))
  | .holding _ | .finished _ => none

/-- The transaction of a process ends with it. -/
def dieWith (state : State) (pid : Pid) (process : Process) : State :=
  { state with
    processes := update state.processes pid (some { process with running := false })
    holder := state.holder.bind fun id =>
      match state.calls id with
      | some call => if call.pid = pid then none else some id
      | none => some id
    calls := fun id =>
      match state.calls id with
      | some call => if call.pid = pid then none else some call
      | none => none }

/-- Identities are not used twice, and nobody guesses an authority that is in
no environment yet. -/
def step (event : Event) (state : State) : Option State :=
  match event with
  | .spawn pid startIdentity =>
    if state.processes pid = none ∧ (pid, startIdentity) ∉ state.used ∧
        0 < pid ∧ pid ≤ maxSafeInteger ∧ startIdentity ≠ [] then
      some { state with
        processes := update state.processes pid (some ⟨startIdentity, true⟩)
        used := (pid, startIdentity) :: state.used }
    else none
  | .die pid =>
    match state.processes pid with
    | some process => if process.running then some (dieWith state pid process) else none
    | none => none
  | .reap pid =>
    match state.processes pid with
    | some process =>
      if process.running then none
      else some { state with processes := update state.processes pid none }
    | none => none
  | .call id pid kind authority =>
    match state.processes pid with
    | some process =>
      if process.running ∧ state.calls id = none ∧
          ∀ known ∈ authority, known ∈ state.generated → known ∈ state.published then
        some { state with
          calls := update state.calls id
            (some ⟨pid, process.startIdentity, authorityFromEnvironment kind authority⟩)
          presented := authority.toList ++ state.presented }
      else none
    | none => none
  | .advance id fresh =>
    match state.calls id with
    | some call => advance state id call fresh
    | none => none
  | .release id =>
    match state.calls id with
    | some call =>
      match call.phase with
      | .holding authority =>
        some (state.move id call (.opening (.remove authority) .file))
      | _ => none
    | none => none

/-- A database of any age, whose rows name none of the processes to come. -/
structure Initial (state : State) : Prop where
  processes : ∀ pid, state.processes pid = none
  calls : ∀ id, state.calls id = none
  holder : state.holder = none
  used : ∀ row ∈ state.database.rows, ∀ owner ∈ row.owner, owner ∈ state.used
  generated : ∀ row ∈ state.database.rows, ∀ authority ∈ row.authority,
    authority ∈ state.generated
  published : state.published = state.generated
  presented : state.presented = []

def run : List Event → State → Option State
  | [], state => some state
  | event :: later, state => (step event state).bind (run later)

end ConvexWasm.CacheLock
