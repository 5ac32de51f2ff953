import ConvexWasm.CacheLock.Protocol

/-!
# The invariant of the cache lock

A call makes its authority, records it, takes the lock, and gives both back in
the opposite order.  A row whose owner lives belongs to a call that has
recorded it, an authority is in no environment before its call has the lock,
and what a call has found stale stays so, because no identity comes back.
-/

namespace ConvexWasm.CacheLock

open Function List

variable {authority : Text}

section Progress

/-- How far a call has come with its own authority. -/
inductive Progress
  | outside
  | preparing (authority : Text)
  | waiting (authority : Text)
  | holding (authority : Text)
  | unlocking (authority : Text)
  deriving DecidableEq

def Phase.progress : Phase → Progress
  | .opening (.insert authority) _ | .select authority | .inspect authority _ _
  | .inspectRead authority _ _ _ _ _ | .prune authority _ | .insert authority =>
    .preparing authority
  | .begin authority => .waiting authority
  | .holding authority | .opening (.remove authority) _ | .delete authority => .holding authority
  | .rollback authority => .unlocking authority
  | _ => .outside

namespace Progress

def token : Progress → Option Text
  | outside => none
  | preparing authority | waiting authority | holding authority | unlocking authority =>
    some authority

/-- The transaction is open. -/
def Holds : Progress → Prop
  | holding _ | unlocking _ => True
  | _ => False

/-- The row is recorded and not yet removed. -/
def Recorded (authority : Text) (progress : Progress) : Prop :=
  progress = .waiting authority ∨ progress = .holding authority

/-- The authority is in no environment. -/
def Pending (authority : Text) (progress : Progress) : Prop :=
  progress = .preparing authority ∨ progress = .waiting authority

variable {progress : Progress}

theorem Recorded.token (hrecorded : Recorded authority progress) :
    progress.token = some authority := by
  obtain rfl | rfl := hrecorded
  · rfl
  · rfl

theorem Pending.token (hpending : Pending authority progress) :
    progress.token = some authority := by
  obtain rfl | rfl := hpending
  · rfl
  · rfl

end Progress

end Progress

def Schema.rank : Schema → ℕ
  | .absent => 0
  | .empty => 1
  | .pidOnly => 2
  | .current => 3

/-- The process runs that has the identity. -/
def State.Lives (state : State) (owner : Pid × Text) : Prop :=
  state.processes owner.1 = some ⟨owner.2, true⟩

/-- The owner of the row does not live and never will. -/
def State.Gone (state : State) (row : Row) : Prop :=
  ∀ owner ∈ row.wellFormedOwner, owner ∈ state.used ∧ state.shown owner.1 ≠ some owner.2

/-- How new the database is at each statement that opens it. -/
def Opening.Ready (schema : Schema) : Opening → Prop
  | .file => True
  | .master | .create => Schema.empty.rank ≤ schema.rank
  | .columns | .alter => Schema.pidOnly.rank ≤ schema.rank
  | .clear => schema = .current

/-- What a call has read still says enough. -/
def Phase.Ok (state : State) : Phase → Prop
  | .inheritedFile _ authority | .inheritedSelect _ authority | .inheritedOpen _ authority _
  | .inheritedRead _ authority _ _ => authority ∈ state.presented
  | .opening (.insert _) stage => stage.Ready state.database.schema
  | .opening (.remove _) stage =>
    state.database.schema = .current ∧ (stage = .file ∨ stage = .master ∨ stage = .columns)
  | .select _ | .insert _ | .begin _ | .holding _ | .delete _ =>
    state.database.schema = .current
  | .inspect _ remaining stale =>
    state.database.schema = .current ∧
      (∀ row ∈ remaining, ∀ owner ∈ row.wellFormedOwner, owner ∈ state.used) ∧
      ∀ row ∈ stale, state.Gone row
  | .inspectRead _ row owner _ remaining stale =>
    state.database.schema = .current ∧
      (row.wellFormedOwner = some owner ∧ owner ∈ state.used) ∧
      (∀ row ∈ remaining, ∀ owner ∈ row.wellFormedOwner, owner ∈ state.used) ∧
      ∀ row ∈ stale, state.Gone row
  | .prune _ stale => state.database.schema = .current ∧ ∀ row ∈ stale, state.Gone row
  | .generate | .rollback _ | .finished _ => True

structure Sound (state : State) : Prop where
  processes : ∀ {pid process}, state.processes pid = some process →
    (pid, process.startIdentity) ∈ state.used
  used : ∀ row ∈ state.database.rows, ∀ owner ∈ row.owner, owner ∈ state.used
  generated : ∀ row ∈ state.database.rows, ∀ authority ∈ row.authority,
    authority ∈ state.generated
  running : ∀ {id call}, state.calls id = some call →
    state.Lives (call.pid, call.startIdentity)
  recorded : ∀ row ∈ state.database.rows, ∀ owner ∈ row.owner, state.Lives owner →
    ∃ id call authority, state.calls id = some call ∧ (call.pid, call.startIdentity) = owner ∧
      row.authority = some authority ∧ call.phase.progress.Recorded authority
  token : ∀ {id call authority}, state.calls id = some call →
    call.phase.progress.token = some authority →
      authority ∈ state.generated ∧ authorityPattern authority = true
  unique : ∀ {id call id' call' authority}, state.calls id = some call →
    state.calls id' = some call' → call.phase.progress.token = some authority →
      call'.phase.progress.token = some authority → id = id'
  pending : ∀ {id call authority}, state.calls id = some call →
    call.phase.progress.Pending authority → authority ∉ state.published
  preparing : ∀ {id call authority}, state.calls id = some call →
    call.phase.progress = .preparing authority →
      ∀ row ∈ state.database.rows, row.authority ≠ some authority
  holder : ∀ id, state.holder = some id ↔
    ∃ call, state.calls id = some call ∧ call.phase.progress.Holds
  published : ∀ authority ∈ state.published, authority ∈ state.generated
  presented : ∀ authority ∈ state.presented, authority ∈ state.generated →
    authority ∈ state.published
  phases : ∀ {id call}, state.calls id = some call → call.phase.Ok state

theorem Initial.sound {state : State} (hinitial : Initial state) : Sound state := { hinitial with
  processes hprocess := by
    rw [hinitial.processes] at hprocess
    cases hprocess
  running hcall := by
    rw [hinitial.calls] at hcall
    cases hcall
  recorded row hrow owner howner hlives := by
    rw [State.Lives, hinitial.processes] at hlives
    cases hlives
  token hcall := by
    rw [hinitial.calls] at hcall
    cases hcall
  unique hcall := by
    rw [hinitial.calls] at hcall
    cases hcall
  pending hcall := by
    rw [hinitial.calls] at hcall
    cases hcall
  preparing hcall := by
    rw [hinitial.calls] at hcall
    cases hcall
  holder id := by
    rw [hinitial.holder]
    constructor
    · intro hholder
      cases hholder
    · rintro ⟨call, hcall, -⟩
      rw [hinitial.calls] at hcall
      cases hcall
  published authority hmem := hinitial.published ▸ hmem
  presented authority hmem := by
    rw [hinitial.presented] at hmem
    cases hmem
  phases hcall := by
    rw [hinitial.calls] at hcall
    cases hcall }

variable {state state' : State}

section Frame

/-- What carries the facts that calls rely on from one state to another: no
identity is forgotten or comes back, and the database gets no older. -/
structure Extends (state state' : State) : Prop where
  presented : ∀ authority ∈ state.presented, authority ∈ state'.presented
  schema : state.database.schema.rank ≤ state'.database.schema.rank
  used : ∀ owner ∈ state.used, owner ∈ state'.used
  shown : ∀ owner ∈ state.used, state'.shown owner.1 = some owner.2 →
    state.shown owner.1 = some owner.2

variable (hextends : Extends state state')
include hextends

theorem Extends.current (hcurrent : state.database.schema = .current) :
    state'.database.schema = .current := by
  have hrank := hextends.schema
  rw [hcurrent] at hrank
  cases hschema : state'.database.schema
  case current => rfl
  all_goals
    rw [hschema] at hrank
    exact absurd hrank (by decide)

theorem Extends.gone {row : Row} (hgone : state.Gone row) : state'.Gone row := by
  intro owner howner
  obtain ⟨hused, hhidden⟩ := hgone owner howner
  exact ⟨hextends.used owner hused, fun hshown => hhidden (hextends.shown owner hused hshown)⟩

theorem Extends.ready {stage : Opening} (hready : stage.Ready state.database.schema) :
    stage.Ready state'.database.schema := by
  cases stage with
  | file => trivial
  | master | create | columns | alter => exact le_trans hready hextends.schema
  | clear => exact hextends.current hready

theorem Extends.ok {phase : Phase} (hok : phase.Ok state) : phase.Ok state' := by
  have hremaining : ∀ {rows : List Row},
      (∀ row ∈ rows, ∀ owner ∈ row.wellFormedOwner, owner ∈ state.used) →
      ∀ row ∈ rows, ∀ owner ∈ row.wellFormedOwner, owner ∈ state'.used :=
    fun hrows row hrow owner howner => hextends.used owner (hrows row hrow owner howner)
  have hstale : ∀ {rows : List Row}, (∀ row ∈ rows, state.Gone row) →
      ∀ row ∈ rows, state'.Gone row := fun hrows row hrow => hextends.gone (hrows row hrow)
  cases phase with
  | inheritedFile _ authority => exact hextends.presented authority hok
  | inheritedSelect _ authority => exact hextends.presented authority hok
  | inheritedOpen _ authority _ => exact hextends.presented authority hok
  | inheritedRead _ authority _ _ => exact hextends.presented authority hok
  | opening purpose stage =>
    cases purpose with
    | insert _ => exact hextends.ready hok
    | remove _ => exact ⟨hextends.current hok.1, hok.2⟩
  | select _ => exact hextends.current hok
  | insert _ => exact hextends.current hok
  | begin _ => exact hextends.current hok
  | holding _ => exact hextends.current hok
  | delete _ => exact hextends.current hok
  | inspect _ remaining stale =>
    exact ⟨hextends.current hok.1, hremaining hok.2.1, hstale hok.2.2⟩
  | inspectRead _ row owner _ remaining stale =>
    exact ⟨hextends.current hok.1, ⟨hok.2.1.1, hextends.used owner hok.2.1.2⟩,
      hremaining hok.2.2.1, hstale hok.2.2.2⟩
  | prune _ stale => exact ⟨hextends.current hok.1, hstale hok.2⟩
  | generate => trivial
  | rollback _ => trivial
  | finished _ => trivial

end Frame

variable {id : CallId} {call : Call} {phase : Phase}

section Moves

variable {other : CallId} {found : Call}

section

variable (hcalls : state'.calls = update state.calls id (some { call with phase }))
include hcalls

/-- After a statement of one call the others stand where they stood. -/
theorem calls_of_update (hfound : state'.calls other = some found) :
    other = id ∧ found = { call with phase } ∨ other ≠ id ∧ state.calls other = some found := by
  rw [hcalls] at hfound
  by_cases hother : other = id
  · subst hother
    rw [update_self] at hfound
    exact .inl ⟨rfl, (Option.some.inj hfound).symm⟩
  · rw [update_of_ne hother] at hfound
    exact .inr ⟨hother, hfound⟩

theorem calls_self : state'.calls id = some { call with phase } := by
  rw [hcalls, update_self]

theorem calls_other (hother : other ≠ id) : state'.calls other = state.calls other := by
  rw [hcalls, update_of_ne hother]

end

/-- What a statement of one call leaves alone, whatever it writes. -/
structure Statement (state state' : State) (id : CallId) (call : Call) (phase : Phase) : Prop where
  found : state.calls id = some call
  calls : state'.calls = update state.calls id (some { call with phase })
  processes : state'.processes = state.processes
  used : state'.used = state.used
  presented : state'.presented = state.presented
  schema : state.database.schema.rank ≤ state'.database.schema.rank
  ok : phase.Ok state'

variable (hstatement : Statement state state' id call phase)
include hstatement

theorem Statement.extends : Extends state state' where
  presented authority hmem := hstatement.presented ▸ hmem
  schema := hstatement.schema
  used owner hmem := hstatement.used ▸ hmem
  shown owner hused hshown := by
    rw [State.shown, hstatement.processes] at hshown
    exact hshown

section

variable (hsound : Sound state)
include hsound

theorem Statement.running (hfound : state'.calls other = some found) :
    state'.Lives (found.pid, found.startIdentity) := by
  rw [State.Lives, hstatement.processes]
  obtain ⟨rfl, rfl⟩ | ⟨-, hold⟩ := calls_of_update hstatement.calls hfound
  · have hrunning := hsound.running hstatement.found
    exact hrunning
  · exact hsound.running hold

theorem Statement.phases (hfound : state'.calls other = some found) :
    found.phase.Ok state' := by
  obtain ⟨rfl, rfl⟩ | ⟨-, hold⟩ := calls_of_update hstatement.calls hfound
  · exact hstatement.ok
  · exact hstatement.extends.ok (hsound.phases hold)

theorem Statement.processesUsed {pid : Pid} {process : Process}
    (hprocess : state'.processes pid = some process) :
    (pid, process.startIdentity) ∈ state'.used := by
  rw [hstatement.processes] at hprocess
  rw [hstatement.used]
  exact hsound.processes hprocess

/-- The token of the moved call is the old one, so tokens stay apart. -/
theorem Statement.unique (htoken : ∀ authority, phase.progress.token = some authority →
      call.phase.progress.token = some authority) {first second : CallId}
    {firstCall secondCall : Call} {authority : Text} (hfirst : state'.calls first = some firstCall)
    (hsecond : state'.calls second = some secondCall)
    (hfirstToken : firstCall.phase.progress.token = some authority)
    (hsecondToken : secondCall.phase.progress.token = some authority) : first = second := by
  obtain ⟨rfl, rfl⟩ | ⟨-, hfirst⟩ := calls_of_update hstatement.calls hfirst
  · obtain ⟨rfl, rfl⟩ | ⟨-, hsecond⟩ := calls_of_update hstatement.calls hsecond
    · rfl
    · exact hsound.unique hstatement.found hsecond (htoken _ hfirstToken) hsecondToken
  · obtain ⟨rfl, rfl⟩ | ⟨-, hsecond⟩ := calls_of_update hstatement.calls hsecond
    · exact hsound.unique hfirst hstatement.found hfirstToken (htoken _ hsecondToken)
    · exact hsound.unique hfirst hsecond hfirstToken hsecondToken

/-- A statement that writes no row keeps the records of those who live. -/
theorem Statement.recorded {row : Row} (hrow : row ∈ state.database.rows)
    (hphase : ∀ authority, row.authority = some authority →
      call.phase.progress.Recorded authority → phase.progress.Recorded authority)
    {owner : Pid × Text} (howner : owner ∈ row.owner) (hlives : state'.Lives owner) :
    ∃ other found authority, state'.calls other = some found ∧
      (found.pid, found.startIdentity) = owner ∧ row.authority = some authority ∧
      found.phase.progress.Recorded authority := by
  rw [State.Lives, hstatement.processes] at hlives
  obtain ⟨other, found, authority, hfound, hsame, hauthority, hrecorded⟩ :=
    hsound.recorded row hrow owner howner hlives
  by_cases hother : other = id
  · subst hother
    obtain rfl : call = found := Option.some.inj (hstatement.found.symm.trans hfound)
    exact ⟨other, _, authority, calls_self hstatement.calls, hsame, hauthority,
      hphase authority hauthority hrecorded⟩
  · exact ⟨other, found, authority, (calls_other hstatement.calls hother).trans hfound, hsame,
      hauthority, hrecorded⟩

/-- The transaction stays with its call. -/
theorem Statement.holder (hholder : state'.holder = state.holder)
    (hphase : phase.progress.Holds ↔ call.phase.progress.Holds) (other : CallId) :
    state'.holder = some other ↔
      ∃ found, state'.calls other = some found ∧ found.phase.progress.Holds := by
  rw [hholder, hsound.holder]
  by_cases hother : other = id
  · subst hother
    constructor
    · rintro ⟨found, hfound, hholds⟩
      obtain rfl : call = found := Option.some.inj (hstatement.found.symm.trans hfound)
      exact ⟨_, calls_self hstatement.calls, hphase.mpr hholds⟩
    · rintro ⟨found, hfound, hholds⟩
      obtain ⟨-, rfl⟩ | ⟨hne, -⟩ := calls_of_update hstatement.calls hfound
      · exact ⟨call, hstatement.found, hphase.mp hholds⟩
      · exact absurd rfl hne
  · rw [calls_other hstatement.calls hother]

end

end Moves

section Preservation

namespace Progress

/-- What a statement does with the progress of its call. -/
inductive Next : Progress → Progress → Prop
  | stay {progress : Progress} : Next progress progress
  | giveUp {authority : Text} : Next (.preparing authority) .outside
  | insert {authority : Text} : Next (.preparing authority) (.waiting authority)
  | begin {authority : Text} : Next (.waiting authority) (.holding authority)
  | delete {authority : Text} : Next (.holding authority) (.unlocking authority)
  | rollback {authority : Text} : Next (.unlocking authority) .outside

variable {before after : Progress} (hnext : Next before after)
include hnext

theorem Next.token (htoken : after.token = some authority) : before.token = some authority := by
  cases hnext with
  | giveUp | rollback => cases htoken
  | stay | insert | begin | delete => exact htoken

theorem Next.pending (hpending : after.Pending authority) : before.Pending authority := by
  cases hnext with
  | stay => exact hpending
  | insert =>
    cases hpending.token
    exact .inl rfl
  | giveUp | begin | delete | rollback => exact absurd hpending (by simp [Pending])

theorem Next.preparing (hpreparing : after = .preparing authority) :
    before = .preparing authority := by
  cases hnext with
  | stay => exact hpreparing
  | giveUp | insert | begin | delete | rollback => cases hpreparing

/-- A recorded row stays recorded, unless it is deleted. -/
theorem Next.recorded (hrecorded : before.Recorded authority) :
    after.Recorded authority ∨ before = .holding authority ∧ after = .unlocking authority := by
  cases hnext with
  | stay => exact .inl hrecorded
  | begin =>
    cases hrecorded.token
    exact .inl (.inr rfl)
  | delete =>
    cases hrecorded.token
    exact .inr ⟨rfl, rfl⟩
  | giveUp | insert | rollback => exact absurd hrecorded (by simp [Recorded])

end Progress

/-- The row that a call records for itself. -/
def ownRow (rowid : ℕ) (call : Call) (authority : Text) : Row :=
  ⟨rowid, some authority, some call.pid, some call.startIdentity⟩

theorem owner_ownRow {rowid : ℕ} {owner : Pid × Text}
    (howner : owner ∈ (ownRow rowid call authority).owner) :
    owner = (call.pid, call.startIdentity) := by
  rw [Option.mem_def, Row.owner, ownRow] at howner
  simp only at howner
  split_ifs at howner
  exact (Option.some.inj howner).symm

/-- A statement that writes what the progress of its call allows. -/
structure Lawful (state state' : State) (id : CallId) (call : Call) (phase : Phase) : Prop
    extends Statement state state' id call phase where
  next : Progress.Next call.phase.progress phase.progress
  generated : state'.generated = state.generated
  rows : ∀ row ∈ state'.database.rows, row ∈ state.database.rows ∨
    ∃ rowid authority, row = ownRow rowid call authority ∧ phase.progress = .waiting authority
  deleted : ∀ authority, call.phase.progress = .holding authority →
    phase.progress = .unlocking authority →
      ∀ row ∈ state'.database.rows, row.authority ≠ some authority
  published : state.published ⊆ state'.published
  publishes : ∀ authority ∈ state'.published,
    authority ∈ state.published ∨ phase.progress = .holding authority

theorem Lawful.sound (hsound : Sound state) (hlawful : Lawful state state' id call phase)
    (hholder : ∀ other, state'.holder = some other ↔
      ∃ found, state'.calls other = some found ∧ found.phase.progress.Holds) : Sound state' := by
  have hstatement := hlawful.toStatement
  have hnext := hlawful.next
  have hown : ∀ {authority}, phase.progress.token = some authority →
      authority ∈ state.generated ∧ authorityPattern authority = true :=
    fun htoken => hsound.token hstatement.found (hnext.token htoken)
  -- No other call has the authority that this one records or publishes.
  have hapart : ∀ {other found authority}, other ≠ id → state.calls other = some found →
      found.phase.progress.token = some authority → phase.progress.token ≠ some authority :=
    fun hne hfound hother htoken =>
      hne (hsound.unique hfound hstatement.found hother (hnext.token htoken))
  exact {
    processes := hstatement.processesUsed hsound
    used := by
      intro row hrow owner howner
      rw [hstatement.used]
      obtain hold | ⟨rowid, authority, rfl, -⟩ := hlawful.rows row hrow
      · exact hsound.used row hold owner howner
      · rw [owner_ownRow howner]
        exact hsound.processes (hsound.running hstatement.found)
    generated := by
      intro row hrow authority hauthority
      rw [hlawful.generated]
      obtain hold | ⟨rowid, own, rfl, hwaiting⟩ := hlawful.rows row hrow
      · exact hsound.generated row hold authority hauthority
      · cases hauthority
        exact (hown (Progress.Pending.token (.inr hwaiting))).1
    running := hstatement.running hsound
    recorded := by
      intro row hrow owner howner hlives
      obtain hold | ⟨rowid, authority, rfl, hwaiting⟩ := hlawful.rows row hrow
      · refine hstatement.recorded hsound hold (fun authority hauthority hrecorded => ?_) howner hlives
        obtain hrecorded | ⟨hholding, hunlocking⟩ := hnext.recorded hrecorded
        · exact hrecorded
        · exact absurd hauthority (hlawful.deleted authority hholding hunlocking row hrow)
      · exact ⟨id, _, authority, calls_self hstatement.calls, (owner_ownRow howner).symm, rfl,
          .inl hwaiting⟩
    token := by
      intro other found authority hfound htoken
      rw [hlawful.generated]
      obtain ⟨rfl, rfl⟩ | ⟨-, hold⟩ := calls_of_update hstatement.calls hfound
      · exact hown htoken
      · exact hsound.token hold htoken
    unique := hstatement.unique hsound fun _ => hnext.token
    pending := by
      intro other found authority hfound hpending hmem
      obtain ⟨rfl, rfl⟩ | ⟨hne, hold⟩ := calls_of_update hstatement.calls hfound
      · obtain hmem | hholding := hlawful.publishes authority hmem
        · exact hsound.pending hstatement.found (hnext.pending hpending) hmem
        · have hboth : phase.progress.Pending authority := hpending
          rw [hholding] at hboth
          exact absurd hboth (by simp [Progress.Pending])
      · obtain hmem | hholding := hlawful.publishes authority hmem
        · exact hsound.pending hold hpending hmem
        · exact hapart hne hold hpending.token (Progress.Recorded.token (.inr hholding))
    preparing := by
      intro other found authority hfound hpreparing row hrow hauthority
      have htoken := Progress.Pending.token (.inl hpreparing)
      obtain ⟨rfl, rfl⟩ | ⟨hne, hold⟩ := calls_of_update hstatement.calls hfound
      · obtain hrow | ⟨rowid, own, rfl, hwaiting⟩ := hlawful.rows row hrow
        · exact hsound.preparing hstatement.found (hnext.preparing hpreparing) row hrow hauthority
        · cases hwaiting.symm.trans hpreparing
      · obtain hrow | ⟨rowid, own, rfl, hwaiting⟩ := hlawful.rows row hrow
        · exact hsound.preparing hold hpreparing row hrow hauthority
        · cases hauthority
          exact hapart hne hold htoken (Progress.Pending.token (.inr hwaiting))
    holder := hholder
    published := by
      intro authority hmem
      rw [hlawful.generated]
      obtain hmem | hholding := hlawful.publishes authority hmem
      · exact hsound.published authority hmem
      · exact (hown (Progress.Recorded.token (.inr hholding))).1
    presented := by
      intro authority hpresented hgenerated
      rw [hstatement.presented] at hpresented
      rw [hlawful.generated] at hgenerated
      exact hlawful.published (hsound.presented authority hpresented hgenerated)
    phases := hstatement.phases hsound }

/-- A call goes on, or gives up before it has recorded its authority. -/
theorem Sound.move (hsound : Sound state) {database : Database}
    (hstatement : Statement state ((state.write database).move id call phase) id call phase)
    (hrows : ∀ row ∈ database.rows, row ∈ state.database.rows)
    (hprogress : phase.progress = call.phase.progress ∨
      phase.progress = .outside ∧ ∃ authority, call.phase.progress = .preparing authority) :
    Sound ((state.write database).move id call phase) := by
  have hnext : Progress.Next call.phase.progress phase.progress ∧
      (phase.progress.Holds ↔ call.phase.progress.Holds) := by
    obtain hsame | ⟨houtside, other, hpreparing⟩ := hprogress
    · rw [hsame]
      exact ⟨.stay, Iff.rfl⟩
    · rw [houtside, hpreparing]
      exact ⟨.giveUp, Iff.rfl⟩
  refine Lawful.sound hsound { hstatement with
    next := hnext.1
    generated := rfl
    rows := fun row hrow => .inl (hrows row hrow)
    deleted := ?_
    published := Subset.refl _
    publishes := fun _ => .inl } (hstatement.holder hsound rfl hnext.2)
  intro authority hholding hunlocking
  rw [hholding, hunlocking] at hprogress
  obtain hsame | ⟨hother, -⟩ := hprogress
  · cases hsame
  · cases hother

theorem Sound.generate (hsound : Sound state) (hstatement : Statement state
      ({ state with generated := authority :: state.generated }.move id call phase) id call phase)
    (hpattern : authorityPattern authority = true) (hfresh : authority ∉ state.generated)
    (hunknown : authority ∉ state.presented) (hcall : call.phase.progress = .outside)
    (hphase : phase.progress = .preparing authority) :
    Sound ({ state with generated := authority :: state.generated }.move id call phase) := by
  have htoken : ∀ {other}, phase.progress.token = some other → other = authority := by
    intro other htoken
    rw [hphase] at htoken
    exact (Option.some.inj htoken).symm
  exact {
    processes := hstatement.processesUsed hsound
    used := hsound.used
    generated := fun row hrow other hother =>
      mem_cons_of_mem authority (hsound.generated row hrow other hother)
    running := hstatement.running hsound
    recorded := fun row hrow owner howner hlives =>
      hstatement.recorded hsound hrow (fun other _ hrecorded => by
        rw [hcall] at hrecorded
        exact absurd hrecorded (by simp [Progress.Recorded])) howner hlives
    token := by
      intro other found text hfound hfoundToken
      obtain ⟨rfl, rfl⟩ | ⟨-, hold⟩ := calls_of_update hstatement.calls hfound
      · rw [htoken hfoundToken]
        exact ⟨mem_cons_self, hpattern⟩
      · obtain ⟨hmem, hvalid⟩ := hsound.token hold hfoundToken
        exact ⟨mem_cons_of_mem authority hmem, hvalid⟩
    unique := by
      intro first firstCall second secondCall text hfirst hsecond hfirstToken hsecondToken
      obtain ⟨rfl, rfl⟩ | ⟨-, hone⟩ := calls_of_update hstatement.calls hfirst
      · obtain ⟨rfl, rfl⟩ | ⟨-, htwo⟩ := calls_of_update hstatement.calls hsecond
        · rfl
        · have hold := (hsound.token htwo hsecondToken).1
          exact absurd (htoken hfirstToken ▸ hold) hfresh
      · obtain ⟨rfl, rfl⟩ | ⟨-, htwo⟩ := calls_of_update hstatement.calls hsecond
        · have hold := (hsound.token hone hfirstToken).1
          exact absurd (htoken hsecondToken ▸ hold) hfresh
        · exact hsound.unique hone htwo hfirstToken hsecondToken
    pending := by
      intro other found text hfound hpending
      obtain ⟨rfl, rfl⟩ | ⟨-, hold⟩ := calls_of_update hstatement.calls hfound
      · rw [htoken hpending.token]
        exact fun hmem => hfresh (hsound.published authority hmem)
      · exact hsound.pending hold hpending
    preparing := by
      intro other found text hfound hpreparing row hrow hauthority
      obtain ⟨rfl, rfl⟩ | ⟨-, hold⟩ := calls_of_update hstatement.calls hfound
      · have hsame : text = authority := htoken (Progress.Pending.token (.inl hpreparing))
        exact hfresh (hsame ▸ hsound.generated row hrow text hauthority)
      · exact hsound.preparing hold hpreparing row hrow hauthority
    holder := hstatement.holder hsound rfl (by
      rw [hphase, hcall]
      exact Iff.rfl)
    published := fun other hmem => mem_cons_of_mem authority (hsound.published other hmem)
    presented := by
      intro other hpresented hgenerated
      obtain rfl | hgenerated := mem_cons.mp hgenerated
      · exact absurd hpresented hunknown
      · exact hsound.presented other hpresented hgenerated
    phases := hstatement.phases hsound }

variable (hsound : Sound state)
include hsound

theorem Sound.insert {rowid : ℕ} (hstatement : Statement state ((state.write { state.database with
      rows := state.database.rows ++ [ownRow rowid call authority] }).move id call phase)
        id call phase) (hcall : call.phase.progress = .preparing authority)
    (hphase : phase.progress = .waiting authority) :
    Sound ((state.write { state.database with
      rows := state.database.rows ++ [ownRow rowid call authority] }).move id call phase) := by
  apply Lawful.sound hsound { hstatement with
    next := by
      rw [hcall, hphase]
      exact .insert
    generated := rfl
    rows := fun row hrow => (mem_append.mp hrow).imp_right fun hnew =>
      ⟨rowid, authority, mem_singleton.mp hnew, hphase⟩
    deleted := fun other hholding => by cases hcall.symm.trans hholding
    published := Subset.refl _
    publishes := fun _ => .inl }
  apply hstatement.holder hsound rfl
  rw [hphase, hcall]
  exact Iff.rfl

theorem Sound.begin (hstatement : Statement state ({ state with
      holder := some id, published := authority :: state.published }.move id call phase)
        id call phase) (hfree : state.holder = none)
    (hcall : call.phase.progress = .waiting authority)
    (hphase : phase.progress = .holding authority) :
    Sound ({ state with
      holder := some id, published := authority :: state.published }.move id call phase) := by
  apply Lawful.sound hsound { hstatement with
    next := by
      rw [hcall, hphase]
      exact .begin
    generated := rfl
    rows := fun _ => .inl
    deleted := fun other hholding => by cases hcall.symm.trans hholding
    published := subset_cons_self _ _
    publishes := fun other hmem => (mem_cons.mp hmem).symm.imp_right (by
      rintro rfl
      exact hphase) }
  intro other
  constructor
  · intro hholder
    obtain rfl : id = other := Option.some.inj hholder
    refine ⟨_, calls_self hstatement.calls, ?_⟩
    change phase.progress.Holds
    rw [hphase]
    trivial
  · rintro ⟨found, hfound, hholds⟩
    obtain ⟨rfl, -⟩ | ⟨-, hold⟩ := calls_of_update hstatement.calls hfound
    · rfl
    · have hholder := (hsound.holder other).mpr ⟨found, hold, hholds⟩
      rw [hfree] at hholder
      cases hholder

theorem Sound.delete (hstatement : Statement state ((state.write { state.database with
      rows := state.database.rows.filter fun row =>
        decide (row.authority ≠ some authority) }).move id call phase) id call phase)
    (hcall : call.phase.progress = .holding authority)
    (hphase : phase.progress = .unlocking authority) :
    Sound ((state.write { state.database with
      rows := state.database.rows.filter fun row =>
        decide (row.authority ≠ some authority) }).move id call phase) := by
  apply Lawful.sound hsound { hstatement with
    next := by
      rw [hcall, hphase]
      exact .delete
    generated := rfl
    rows := fun row hrow => .inl (mem_filter.mp hrow).1
    deleted := by
      intro other hholding _ row hrow
      cases hcall.symm.trans hholding
      exact of_decide_eq_true (mem_filter.mp hrow).2
    published := Subset.refl _
    publishes := fun _ => .inl }
  apply hstatement.holder hsound rfl
  rw [hphase, hcall]
  exact Iff.rfl

theorem Sound.rollback
    (hstatement : Statement state ({ state with holder := none }.move id call phase)
      id call phase) (hcall : call.phase.progress = .unlocking authority)
    (hphase : phase.progress = .outside) :
    Sound ({ state with holder := none }.move id call phase) := by
  have hheld : state.holder = some id := (hsound.holder id).mpr ⟨call, hstatement.found, by
    rw [hcall]
    trivial⟩
  apply Lawful.sound hsound { hstatement with
    next := by
      rw [hcall, hphase]
      exact .rollback
    generated := rfl
    rows := fun _ => .inl
    deleted := fun other hholding => by cases hcall.symm.trans hholding
    published := Subset.refl _
    publishes := fun _ => .inl }
  intro other
  constructor
  · intro hholder
    cases hholder
  · rintro ⟨found, hfound, hholds⟩
    obtain ⟨-, rfl⟩ | ⟨hne, hold⟩ := calls_of_update hstatement.calls hfound
    · have houtside : phase.progress.Holds := hholds
      rw [hphase] at houtside
      cases houtside
    · have hother := (hsound.holder other).mpr ⟨found, hold, hholds⟩
      rw [hheld] at hother
      exact absurd (Option.some.inj hother).symm hne

end Preservation

end ConvexWasm.CacheLock
