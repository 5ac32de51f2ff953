import ConvexWasm.CacheLock.Runs

/-!
# What the cache lock guarantees

Exclusion rests on the transaction and needs nothing else.  The rest holds of
the runs in which no statement meets what another process has changed since
the statement that it was decided on.
-/

namespace ConvexWasm.CacheLock

open Function List

/-- What the next statement of a call was decided on is still so. -/
def CarefulPhase (state : State) : Phase → Prop
  | .inheritedSelect _ _ => state.database.schema = .current
  | .inheritedRead _ authority owner seen =>
    state.shown owner.1 = some seen ∧
      (seen = owner.2 → state.Lives owner ∧
        ∃ row ∈ state.database.rows, row.authority = some authority ∧ row.owner = some owner)
  | .opening (.insert _) .create => state.database.schema.rank ≤ Schema.empty.rank
  | .opening (.insert _) .alter => state.database.schema = .pidOnly
  | .opening _ .clear => ∀ row ∈ state.database.rows, ∀ owner ∈ row.owner, ¬state.Lives owner
  | .inspectRead _ _ owner seen _ _ => state.shown owner.1 = some seen
  | .prune _ (row :: _) => ∀ other ∈ state.database.rows, other.rowid = row.rowid → other = row
  | _ => True

def Careful (state : State) : Event → Prop
  | .advance id _ => ∀ call ∈ state.calls id, CarefulPhase state call.phase
  | _ => True

instance decidableLives (state : State) (owner : Pid × Text) : Decidable (state.Lives owner) :=
  inferInstanceAs (Decidable (state.processes owner.1 = some ⟨owner.2, true⟩))

instance decidableCarefulPhase (state : State) :
    (phase : Phase) → Decidable (CarefulPhase state phase)
  | .inheritedSelect _ _ => inferInstanceAs (Decidable (state.database.schema = .current))
  | .inheritedRead _ authority owner seen =>
    inferInstanceAs (Decidable (state.shown owner.1 = some seen ∧
      (seen = owner.2 → state.Lives owner ∧
        ∃ row ∈ state.database.rows, row.authority = some authority ∧ row.owner = some owner)))
  | .opening (.insert _) .create =>
    inferInstanceAs (Decidable (state.database.schema.rank ≤ Schema.empty.rank))
  | .opening (.insert _) .alter => inferInstanceAs (Decidable (state.database.schema = .pidOnly))
  | .opening (.insert _) .clear | .opening (.remove _) .clear =>
    inferInstanceAs
      (Decidable (∀ row ∈ state.database.rows, ∀ owner ∈ row.owner, ¬state.Lives owner))
  | .inspectRead _ _ owner seen _ _ =>
    inferInstanceAs (Decidable (state.shown owner.1 = some seen))
  | .prune _ (row :: _) =>
    inferInstanceAs
      (Decidable (∀ other ∈ state.database.rows, other.rowid = row.rowid → other = row))
  | .inheritedFile _ _ | .inheritedOpen _ _ _ | .generate | .opening (.insert _) .file
  | .opening (.insert _) .master | .opening (.insert _) .columns | .opening (.remove _) .file
  | .opening (.remove _) .master | .opening (.remove _) .create | .opening (.remove _) .columns
  | .opening (.remove _) .alter | .select _ | .inspect _ _ _ | .prune _ [] | .insert _ | .begin _
  | .holding _ | .delete _ | .rollback _ | .finished _ => isTrue trivial

instance decidableCareful (state : State) : (event : Event) → Decidable (Careful state event)
  | .advance id _ =>
    inferInstanceAs (Decidable (∀ call ∈ state.calls id, CarefulPhase state call.phase))
  | .spawn _ _ | .die _ | .reap _ | .call _ _ _ _ | .release _ => isTrue trivial

/-- The recorded owner is a live process that has the lock and has not begun
to give it back. -/
def HeldBy (state : State) (authority : Text) (owner : Pid × Text) : Prop :=
  state.Lives owner ∧
    (∃ row ∈ state.database.rows, row.authority = some authority ∧ row.owner = some owner) ∧
    ∃ id call, state.holder = some id ∧ state.calls id = some call ∧
      (call.pid, call.startIdentity) = owner ∧ call.phase.progress = .holding authority

variable {state state' : State} {id : CallId} {call : Call} {fresh : Text}

/-- What one statement of a call can come to. -/
structure Advanced (state state' : State) (id : CallId) (call : Call) (phase : Phase) : Prop where
  calls : state'.calls = update state.calls id (some { call with phase })
  failed : CarefulPhase state call.phase → ∀ message, phase ≠ .finished (.failed message)
  granted : phase = .finished .granted → ∃ kind authority owner,
    call.phase = .inheritedRead kind authority owner owner.2
  rows : ∀ row ∈ state.database.rows, row ∉ state'.database.rows →
    (∃ authority, call.phase = .delete authority ∧ row.authority = some authority) ∨
    (∃ purpose, call.phase = .opening purpose .clear) ∨
    ∃ authority entry stale, call.phase = .prune authority (entry :: stale) ∧
      row.rowid = entry.rowid

@[simp]
theorem notInherited_ne_failed (kind : Kind) (message : String) :
    notInherited kind ≠ .finished (.failed message) := by
  cases kind
  all_goals simp [notInherited]

@[simp]
theorem notInherited_ne_granted (kind : Kind) : notInherited kind ≠ .finished .granted := by
  cases kind
  all_goals simp [notInherited]

@[simp]
theorem inheritedFrom_ne (kind : Kind) (self owner : Pid) (message : String) :
    inheritedFrom kind self owner ≠ .finished (.failed message) := by
  unfold inheritedFrom
  split
  · split
    all_goals simp
  · simp

theorem openStatement_ne (state : State) (purpose : Purpose) (stage : Opening)
    (hok : (Phase.opening purpose stage).Ok state)
    (hcareful : CarefulPhase state (.opening purpose stage)) (message : String) :
    (openStatement purpose state.database stage).2 ≠ .finished (.failed message) := by
  have hopened : opened purpose ≠ .finished (.failed message) := by
    cases purpose
    all_goals simp [opened]
  cases purpose with
  | remove authority =>
    obtain ⟨hcurrent, rfl | rfl | rfl⟩ := hok
    · simp [openStatement]
    · simp [openStatement, hcurrent]
    · simp [openStatement, hcurrent, opened]
  | insert authority =>
    cases stage with
    | file => simp [openStatement]
    | master =>
      rw [openStatement]
      cases state.database.schema
      all_goals simp
    | create =>
      simp only [CarefulPhase] at hcareful
      rw [openStatement]
      cases hschema : state.database.schema with
      | absent | empty => exact hopened
      | pidOnly | current =>
        rw [hschema] at hcareful
        exact absurd hcareful (by decide)
    | columns =>
      rw [openStatement]
      cases state.database.schema
      case current => exact hopened
      all_goals simp
    | alter =>
      simp only [CarefulPhase] at hcareful
      simp [openStatement, hcareful]
    | clear => exact hopened

theorem openStatement_ne_granted (purpose : Purpose) (database : Database) (stage : Opening) :
    (openStatement purpose database stage).2 ≠ .finished .granted := by
  cases purpose
  all_goals
    cases stage
    all_goals
      unfold openStatement
      cases database.schema
      all_goals simp [opened, openingFailed]

theorem openStatement_rows (purpose : Purpose) (database : Database) {stage : Opening}
    (hstage : stage ≠ .clear) : (openStatement purpose database stage).1.rows = database.rows := by
  cases stage
  case clear => exact absurd rfl hstage
  all_goals
    unfold openStatement
    first
      | rfl
      | cases database.schema
        all_goals rfl

/-- A step without a trace in the table. -/
theorem advanced_move {phase : Phase}
    (hfailed : CarefulPhase state call.phase → ∀ message, phase ≠ .finished (.failed message))
    (hgranted : phase = .finished .granted → ∃ kind authority owner,
      call.phase = .inheritedRead kind authority owner owner.2) :
    Advanced state (state.move id call phase) id call phase where
  calls := rfl
  failed := hfailed
  granted := hgranted
  rows row hrow hnot := absurd hrow hnot

theorem advanced (hsound : Sound state) (hcall : state.calls id = some call)
    (hadvance : advance state id call fresh = some state') :
    ∃ phase, Advanced state state' id call phase := by
  have hok := hsound.phases hcall
  unfold advance at hadvance
  cases hphase : call.phase with
  | inheritedFile kind authority =>
    simp only [hphase, Option.some.injEq] at hadvance
    subst hadvance
    refine ⟨_, advanced_move (fun _ message => ?_) fun hgranted => ?_⟩
    · split
      all_goals simp
    · split at hgranted
      all_goals simp at hgranted
  | inheritedSelect kind authority =>
    simp only [hphase, Option.some.injEq] at hadvance
    subst hadvance
    refine ⟨_, advanced_move (fun hcareful message => ?_) fun hgranted => ?_⟩
    · rw [hphase] at hcareful
      have hcurrent : state.database.schema = .current := hcareful
      rw [if_pos hcurrent]
      split
      all_goals simp
    · split at hgranted
      · split at hgranted
        all_goals simp at hgranted
      · cases hgranted
  | inheritedOpen kind authority owner =>
    simp only [hphase, Option.some.injEq] at hadvance
    subst hadvance
    refine ⟨_, advanced_move (fun _ message => ?_) fun hgranted => ?_⟩
    · split
      all_goals simp
    · split at hgranted
      all_goals simp at hgranted
  | inheritedRead kind authority owner seen =>
    simp only [hphase, Option.some.injEq] at hadvance
    subst hadvance
    refine ⟨_, advanced_move (fun hcareful message => ?_) fun hgranted => ?_⟩
    · rw [hphase] at hcareful
      rw [if_pos hcareful.1]
      split
      all_goals simp
    · split at hgranted
      · split at hgranted
        · rename_i hseen
          exact ⟨kind, authority, owner, by rw [hphase, hseen]⟩
        · simp at hgranted
      · cases hgranted
  | generate =>
    simp only [hphase] at hadvance
    split at hadvance
    · cases hadvance
      exact ⟨.opening (.insert fresh) .file, rfl, by simp, by simp,
        fun row hrow hnot => absurd hrow hnot⟩
    · cases hadvance
  | opening purpose stage =>
    simp only [hphase, Option.some.injEq] at hadvance hok
    subst hadvance
    refine ⟨(openStatement purpose state.database stage).2, rfl, fun hcareful message => ?_,
      fun hgranted => absurd hgranted (openStatement_ne_granted purpose _ stage),
      fun row hrow hnot => ?_⟩
    · rw [hphase] at hcareful
      exact openStatement_ne state purpose stage hok hcareful message
    · by_cases hstage : stage = .clear
      · exact .inr (.inl ⟨purpose, by rw [hphase, hstage]⟩)
      · have hkept : row ∈ (openStatement purpose state.database stage).1.rows := by
          rw [openStatement_rows purpose _ hstage]
          exact hrow
        exact absurd hkept hnot
  | select authority =>
    simp only [hphase, Option.some.injEq] at hadvance
    subst hadvance
    exact ⟨_, advanced_move (by simp) (by simp)⟩
  | inspect authority remaining stale =>
    cases remaining with
    | nil =>
      simp only [hphase, Option.some.injEq] at hadvance
      subst hadvance
      exact ⟨_, advanced_move (by simp) (by simp)⟩
    | cons row remaining =>
      simp only [hphase, Option.some.injEq] at hadvance
      subst hadvance
      refine ⟨_, advanced_move (fun _ message => ?_) fun hgranted => ?_⟩
      · split
        · simp
        · split
          all_goals simp
      · split at hgranted
        · cases hgranted
        · split at hgranted
          all_goals cases hgranted
  | inspectRead authority row owner seen remaining stale =>
    simp only [hphase, Option.some.injEq] at hadvance
    subst hadvance
    refine ⟨_, advanced_move (fun hcareful message => ?_) fun hgranted => ?_⟩
    · rw [hphase] at hcareful
      have hshown : state.shown owner.1 = some seen := hcareful
      rw [if_pos hshown]
      simp
    · split at hgranted
      all_goals cases hgranted
  | prune authority stale =>
    cases stale with
    | nil =>
      simp only [hphase, Option.some.injEq] at hadvance
      subst hadvance
      exact ⟨_, advanced_move (by simp) (by simp)⟩
    | cons entry stale =>
      simp only [hphase, Option.some.injEq] at hadvance
      subst hadvance
      refine ⟨.prune authority stale, rfl, by simp, by simp, fun row hrow hnot => ?_⟩
      refine .inr (.inr ⟨authority, entry, stale, hphase, ?_⟩)
      by_contra hother
      exact hnot (mem_filter.mpr ⟨hrow, decide_eq_true hother⟩)
  | insert authority =>
    simp only [hphase] at hadvance hok
    have hfree := hsound.preparing hcall (by rw [hphase]; rfl)
    rw [if_pos ⟨hok, hfree⟩] at hadvance
    cases hadvance
    exact ⟨.begin authority, rfl, by simp, by simp,
      fun row hrow hnot => absurd (mem_append_left _ hrow) hnot⟩
  | begin authority =>
    simp only [hphase] at hadvance
    split at hadvance
    · cases hadvance
      exact ⟨.holding authority, rfl, by simp, by simp, fun row hrow hnot => absurd hrow hnot⟩
    · cases hadvance
      refine ⟨call.phase, ?_, by simp [hphase], by simp [hphase],
        fun row hrow hnot => absurd hrow hnot⟩
      exact (Function.update_eq_self_iff.mpr hcall.symm).symm
  | holding authority =>
    simp only [hphase] at hadvance
    cases hadvance
  | delete authority =>
    simp only [hphase] at hadvance hok
    have hcurrent : state.database.schema = .current := hok
    rw [if_pos hcurrent] at hadvance
    cases hadvance
    refine ⟨.rollback authority, rfl, by simp, by simp, fun row hrow hnot => ?_⟩
    refine .inl ⟨authority, hphase, ?_⟩
    by_contra hother
    exact hnot (mem_filter.mpr ⟨hrow, decide_eq_true hother⟩)
  | rollback authority =>
    simp only [hphase, Option.some.injEq] at hadvance
    subst hadvance
    exact ⟨.finished .released, rfl, by simp, by simp, fun row hrow hnot => absurd hrow hnot⟩
  | finished outcome =>
    simp only [hphase] at hadvance
    cases hadvance

section Events

variable {event : Event}

/-- No call begins with its end. -/
theorem authorityFromEnvironment_ne {kind : Kind} {authority : Option Text} {outcome : Outcome}
    (houtcome : (∃ message, outcome = .failed message) ∨ outcome = .granted) :
    authorityFromEnvironment kind authority ≠ .finished outcome := by
  intro heq
  unfold authorityFromEnvironment at heq
  obtain ⟨message, rfl⟩ | rfl := houtcome
  all_goals
    split at heq
    · simp at heq
    · split at heq
      all_goals cases heq

/-- Only statements of calls remove rows and end calls. -/
theorem step_quiet (hstep : step event state = some state') :
    (∃ id fresh call, event = .advance id fresh ∧ state.calls id = some call ∧
      advance state id call fresh = some state') ∨
    (∀ row ∈ state.database.rows, row ∈ state'.database.rows) ∧
      ∀ id found outcome, state'.calls id = some found → found.phase = .finished outcome →
        (∃ message, outcome = .failed message) ∨ outcome = .granted →
        state.calls id = some found := by
  cases event with
  | spawn pid startIdentity =>
    simp only [step] at hstep
    split at hstep
    · cases hstep
      exact .inr ⟨fun _ hrow => hrow, fun _ _ _ hfound _ _ => hfound⟩
    · cases hstep
  | die pid =>
    simp only [step] at hstep
    split at hstep
    · split at hstep
      · cases hstep
        exact .inr ⟨fun _ hrow => hrow, fun _ _ _ hfound _ _ => (calls_dieWith hfound).1⟩
      · cases hstep
    · cases hstep
  | reap pid =>
    simp only [step] at hstep
    split at hstep
    · split at hstep
      · cases hstep
      · cases hstep
        exact .inr ⟨fun _ hrow => hrow, fun _ _ _ hfound _ _ => hfound⟩
    · cases hstep
  | call other pid kind authority =>
    simp only [step] at hstep
    split at hstep
    · split at hstep
      · cases hstep
        refine .inr ⟨fun _ hrow => hrow, fun id found outcome hfound hphase houtcome => ?_⟩
        by_cases hsame : id = other
        · subst hsame
          simp only [update_self, Option.some.injEq] at hfound
          subst hfound
          exact absurd hphase (authorityFromEnvironment_ne houtcome)
        · simp only [update_of_ne hsame] at hfound
          exact hfound
      · cases hstep
    · cases hstep
  | advance id fresh =>
    simp only [step] at hstep
    split at hstep
    · rename_i call hcall
      exact .inl ⟨id, fresh, call, rfl, hcall, hstep⟩
    · cases hstep
  | release other =>
    simp only [step] at hstep
    split at hstep
    · split at hstep
      · cases hstep
        refine .inr ⟨fun _ hrow => hrow, fun id found outcome hfound hphase _ => ?_⟩
        by_cases hsame : id = other
        · subst hsame
          simp only [State.move, update_self, Option.some.injEq] at hfound
          subst hfound
          cases hphase
        · simp only [State.move, update_of_ne hsame] at hfound
          exact hfound
      · cases hstep
    · cases hstep

/-- Only its own statement ends a call. -/
theorem calls_step (hsound : Sound state) (hstep : step event state = some state') {id : CallId}
    {found : Call} {outcome : Outcome} (hfound : state'.calls id = some found)
    (hphase : found.phase = .finished outcome)
    (houtcome : (∃ message, outcome = .failed message) ∨ outcome = .granted) :
    state.calls id = some found ∨ ∃ fresh call, event = .advance id fresh ∧
      state.calls id = some call ∧ Advanced state state' id call found.phase := by
  obtain ⟨other, fresh, call, rfl, hcall, hadvance⟩ | ⟨-, hcalls⟩ := step_quiet hstep
  · obtain ⟨phase, hadvanced⟩ := advanced hsound hcall hadvance
    rw [hadvanced.calls] at hfound
    by_cases hsame : id = other
    · subst hsame
      rw [update_self] at hfound
      cases hfound
      exact .inr ⟨fresh, call, rfl, hcall, hadvanced⟩
    · rw [update_of_ne hsame] at hfound
      exact .inl hfound
  · exact .inl (hcalls id found outcome hfound hphase houtcome)

variable (hsound : Sound state) (hcareful : Careful state event)
  (hstep : step event state = some state')
include hsound hcareful hstep

/-- What is inherited is held by its live owner. -/
theorem granted_heldBy {id : CallId} {found : Call} (hfound : state'.calls id = some found)
    (hphase : found.phase = .finished .granted) :
    state.calls id = some found ∨ ∃ call kind authority owner, state.calls id = some call ∧
      call.phase = .inheritedRead kind authority owner owner.2 ∧ HeldBy state authority owner := by
  obtain hold | ⟨fresh, call, rfl, hcall, hadvanced⟩ :=
    calls_step hsound hstep hfound hphase (.inr rfl)
  · exact .inl hold
  · obtain ⟨kind, authority, owner, hread⟩ := hadvanced.granted hphase
    have hlooked := hcareful call hcall
    have hpresented := hsound.phases hcall
    rw [hread] at hlooked hpresented
    obtain ⟨hlives, row, hrow, hauthority, howner⟩ := hlooked.2 rfl
    obtain ⟨held, holding, text, hheld, hsame, htext, hrecorded⟩ :=
      hsound.recorded row hrow owner howner hlives
    rw [hauthority] at htext
    cases htext
    have hgenerated := (hsound.token hheld hrecorded.token).1
    have hpublished := hsound.presented authority hpresented hgenerated
    have hholding : holding.phase.progress = .holding authority := by
      obtain hwaiting | hholding := hrecorded
      · exact absurd hpublished (hsound.pending hheld (.inr hwaiting))
      · exact hholding
    have hholder : state.holder = some held := by
      rw [hsound.holder]
      refine ⟨holding, hheld, ?_⟩
      rw [hholding]
      trivial
    exact .inr ⟨call, kind, authority, owner, hcall, hread, hlives,
      ⟨row, hrow, hauthority, howner⟩, held, holding, hholder, hheld, hsame, hholding⟩

/-- The row of a live owner is removed by its owner alone. -/
theorem removed_by_owner {row : Row} {owner : Pid × Text} (hrow : row ∈ state.database.rows)
    (hgone : row ∉ state'.database.rows) (howner : row.owner = some owner)
    (hlives : state.Lives owner) :
    ∃ id fresh call authority, event = .advance id fresh ∧ state.calls id = some call ∧
      call.phase = .delete authority ∧ row.authority = some authority ∧
      (call.pid, call.startIdentity) = owner := by
  obtain ⟨id, fresh, call, rfl, hcall, hadvance⟩ | ⟨hrows, -⟩ := step_quiet hstep
  swap
  · exact absurd (hrows row hrow) hgone
  obtain ⟨phase, hadvanced⟩ := advanced hsound hcall hadvance
  have hlooked := hcareful call hcall
  have hok := hsound.phases hcall
  obtain ⟨held, holding, text, hheld, hsame, htext, hrecorded⟩ :=
    hsound.recorded row hrow owner howner hlives
  obtain ⟨authority, hdelete, hauthority⟩ | ⟨purpose, hclear⟩ |
      ⟨authority, entry, stale, hprune, hrowid⟩ := hadvanced.rows row hrow hgone
  · have hown : call.phase.progress.token = some authority := by
      rw [hdelete]
      rfl
    obtain rfl : authority = text := Option.some.inj (hauthority.symm.trans htext)
    obtain rfl := hsound.unique hheld hcall hrecorded.token hown
    obtain rfl : holding = call := Option.some.inj (hheld.symm.trans hcall)
    exact ⟨held, fresh, holding, authority, rfl, hcall, hdelete, hauthority, hsame⟩
  · rw [hclear] at hlooked
    have hnone : ∀ row ∈ state.database.rows, ∀ owner ∈ row.owner, ¬state.Lives owner := by
      cases purpose
      all_goals exact hlooked
    exact absurd hlives (hnone row hrow owner howner)
  · rw [hprune] at hlooked hok
    obtain rfl := hlooked row hrow hrowid
    have hpattern := (hsound.token hheld hrecorded.token).2
    have hwellFormed : row.wellFormedOwner = some owner := by
      unfold Row.wellFormedOwner
      rw [htext]
      simp only [hpattern, if_true]
      exact howner
    have hgone := (hok.2 row mem_cons_self owner hwellFormed).2
    rw [State.shown, hlives] at hgone
    exact absurd rfl hgone

end Events

section Guarantees

open TransitionSystem

/-- The states of the runs of careful steps. -/
def CarefullyReached : State → Prop :=
  Reachable Initial fun state state' =>
    ∃ event, Careful state event ∧ step event state = some state'

theorem CarefullyReached.sound {state : State} (hreached : CarefullyReached state) : Sound state :=
  hreached.invariant (fun _ hinitial => hinitial.sound)
    fun _ _ hsound ⟨_, _, hstep⟩ => hsound.step hstep

theorem CarefullyReached.not_failed {state : State} (hreached : CarefullyReached state) :
    ∀ {id call message}, state.calls id = some call →
      call.phase ≠ .finished (.failed message) := by
  induction hreached with
  | start hinitial =>
    intro id call message hcall
    rw [hinitial.calls] at hcall
    cases hcall
  | next hbefore hnext ih =>
    obtain ⟨event, hcareful, hstep⟩ := hnext
    intro id found message hfound hphase
    obtain hold | ⟨fresh, call, rfl, hcall, hadvanced⟩ :=
      calls_step (CarefullyReached.sound hbefore) hstep hfound hphase (.inl ⟨message, rfl⟩)
    · exact ih hold hphase
    · exact hadvanced.failed (hcareful call hcall) message hphase

/-- At most one call has the lock in every run.  In the runs of careful steps
no call fails, what is inherited is held by the live process that took it, and
no statement but its own removes the row of a live owner. -/
theorem cache_lock_guarantees (state : State) :
    (Reached state → ∀ id id' call call', state.calls id = some call →
      state.calls id' = some call' → call.phase.progress.Holds → call'.phase.progress.Holds →
      id = id') ∧
    (CarefullyReached state →
      (∀ id call message, state.calls id = some call →
        call.phase ≠ .finished (.failed message)) ∧
      ∀ event state', Careful state event → step event state = some state' →
        (∀ id call', state'.calls id = some call' → call'.phase = .finished .granted →
          state.calls id = some call' ∨ ∃ call kind authority owner,
            state.calls id = some call ∧
            call.phase = .inheritedRead kind authority owner owner.2 ∧
            HeldBy state authority owner) ∧
        ∀ row owner, row ∈ state.database.rows → row ∉ state'.database.rows →
          row.owner = some owner → state.Lives owner →
          ∃ id fresh call authority, event = .advance id fresh ∧ state.calls id = some call ∧
            call.phase = .delete authority ∧ row.authority = some authority ∧
            (call.pid, call.startIdentity) = owner) := by
  refine ⟨fun hreached id id' call call' hcall hcall' hholds hholds' =>
    hreached.sound.exclusive hcall hcall' hholds hholds', fun hreached =>
    ⟨fun id call message hcall => hreached.not_failed hcall,
      fun event state' hcareful hstep => ⟨?_, ?_⟩⟩⟩
  · exact fun id call' hcall' hphase =>
      granted_heldBy hreached.sound hcareful hstep hcall' hphase
  · exact fun row owner hrow hgone howner hlives =>
      removed_by_owner hreached.sound hcareful hstep hrow hgone howner hlives

def runCarefully : List Event → State → Option State
  | [], state => some state
  | event :: later, state =>
    if Careful state event then (step event state).bind (runCarefully later) else none

theorem CarefullyReached.runCarefully {events : List Event} {state state' : State}
    (hreached : CarefullyReached state) (hrun : runCarefully events state = some state') :
    CarefullyReached state' := by
  induction events generalizing state with
  | nil =>
    cases hrun
    exact hreached
  | cons event later ih =>
    rw [CacheLock.runCarefully] at hrun
    split at hrun
    · rename_i hcareful
      obtain ⟨next, hstep, hlater⟩ := Option.bind_eq_some_iff.mp hrun
      exact ih (hreached.next ⟨event, hcareful, hstep⟩) hlater
    · cases hrun

/-- Before any process: a table of the given age with the given rows. -/
def beforeAll (schema : Schema) (rows : List Row) : State where
  processes _ := none
  used := rows.filterMap Row.owner
  database := ⟨schema, rows⟩
  holder := none
  calls _ := none
  generated := rows.filterMap Row.authority
  published := rows.filterMap Row.authority
  presented := []

theorem initial_beforeAll (schema : Schema) (rows : List Row) : Initial (beforeAll schema rows) where
  processes _ := rfl
  calls _ := rfl
  holder := rfl
  used row hrow owner howner := mem_filterMap.mpr ⟨row, hrow, howner⟩
  generated row hrow authority hauthority := mem_filterMap.mpr ⟨row, hrow, hauthority⟩
  published := rfl
  presented := rfl

def token (character : Char) : Text := List.replicate 43 character

def advances (count : ℕ) (id : CallId) (fresh : Text) : List Event :=
  List.replicate count (.advance id fresh)

/-- A process takes the lock on a new database and one below it inherits it. -/
def inheriting : List Event :=
  .spawn 1 ['p'] :: .call 0 1 .acquire none :: advances 9 0 (token 'a') ++
    .spawn 2 ['q'] :: .call 1 2 .requireAuthority (some (token 'a')) :: advances 3 1 []

/-- In the careful run the process below is let in under the lock of the live holder. -/
theorem cache_lock_guarantees_applied :
    ∃ state state', runCarefully inheriting (beforeAll .absent []) = some state ∧
      step (.advance 1 []) state = some state' ∧
      ∃ call kind authority owner, state.calls 1 = some call ∧
        call.phase = .inheritedRead kind authority owner owner.2 ∧
        HeldBy state authority owner := by
  have hsome : (runCarefully inheriting (beforeAll .absent [])).isSome = true := by
    decide +kernel
  obtain ⟨state, hrun⟩ := Option.isSome_iff_exists.mp hsome
  have hready : (runCarefully inheriting (beforeAll .absent [])).all fun state =>
      decide (Careful state (.advance 1 [])) &&
        decide ((state.calls 1).map Call.phase ≠ some (.finished .granted)) &&
        decide (((step (.advance 1 []) state).bind fun state' => (state'.calls 1).map Call.phase) =
          some (.finished .granted)) := by
    decide +kernel
  rw [hrun, Option.all_some] at hready
  simp only [Bool.and_eq_true, decide_eq_true_eq] at hready
  obtain ⟨⟨hcareful, hbefore⟩, hafter⟩ := hready
  obtain ⟨state', hstep, hcalls⟩ := Option.bind_eq_some_iff.mp hafter
  obtain ⟨call', hcall', hgranted⟩ := Option.map_eq_some_iff.mp hcalls
  have hreached := (CarefullyReached.runCarefully (.start (initial_beforeAll .absent [])) hrun)
  obtain hold | hheld := (((cache_lock_guarantees state).2 hreached).2 _ state' hcareful hstep).1 1
    call' hcall' hgranted
  · rw [hold, Option.map_some, hgranted] at hbefore
    exact absurd rfl hbefore
  · exact ⟨state, state', hrun, hstep, hheld⟩

/-- Two processes find the new database without its table. -/
def creating : List Event :=
  [.spawn 1 ['p'], .spawn 2 ['q'], .call 0 1 .acquire none, .call 1 2 .acquire none] ++
    advances 3 0 (token 'a') ++ advances 3 1 (token 'b') ++ [.advance 0 [], .advance 1 []]

/-- Two processes find one stale row; the second removes it, takes the lock
and has its own row under the same number. -/
def pruning : List Event :=
  [.spawn 1 ['p'], .spawn 2 ['q'], .call 0 1 .acquire none, .call 1 2 .acquire none] ++
    advances 7 0 (token 'a') ++ advances 11 1 (token 'b')

def staleRow : Row := ⟨1, some (token 'z'), some 9, some ['z']⟩

/-- The second creator fails, the first pruner removes the row of the live
holder, and a process is let in under the lock of an owner that has died. -/
theorem cache_lock_races :
    ((run creating (beforeAll .absent [])).bind fun state => (state.calls 1).map Call.phase) =
      some (.finished
        (.failed "table convex_wasm_cache_lock_authorities already exists")) ∧
    ((run pruning (beforeAll .current [staleRow])).map fun state =>
      (state.database.rows, state.holder, decide (state.Lives (2, ['q'])))) =
        some ([⟨1, some (token 'b'), some 2, some ['q']⟩], some 1, true) ∧
    ((run (pruning ++ [.advance 0 []]) (beforeAll .current [staleRow])).map fun state =>
      (state.database.rows, state.holder, decide (state.Lives (2, ['q'])))) =
        some ([], some 1, true) ∧
    ((run (inheriting ++ [.die 1, .advance 1 []]) (beforeAll .absent [])).map fun state =>
      ((state.calls 1).map Call.phase, state.holder, decide (state.Lives (1, ['p'])))) =
        some (some (.finished .granted), none, false) := by
  decide +kernel

end Guarantees

end ConvexWasm.CacheLock
