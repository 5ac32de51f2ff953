import ConvexWasm.CacheLock.Invariant

/-!
# Runs of the cache lock

Every statement, death and birth keeps the invariant, so it holds whatever the
processes do and in whatever order.
-/

namespace ConvexWasm.CacheLock

open Function List

variable {state state' : State} {id : CallId} {call : Call} {authority : Text}

variable {phase : Phase}

theorem extends_move : Extends state (state.move id call phase) where
  presented _ hmem := hmem
  schema := le_rfl
  used _ hmem := hmem
  shown _ _ hshown := hshown

variable {database : Database}

theorem extends_write (hrank : state.database.schema.rank ≤ database.schema.rank) :
    Extends state (state.write database) where
  presented _ hmem := hmem
  schema := hrank
  used _ hmem := hmem
  shown _ _ hshown := hshown

theorem statement_write (hcall : state.calls id = some call)
    (hrank : state.database.schema.rank ≤ database.schema.rank)
    (hok : phase.Ok (state.write database)) :
    Statement state ((state.write database).move id call phase) id call phase where
  found := hcall
  calls := rfl
  processes := rfl
  used := rfl
  presented := rfl
  schema := hrank
  ok := extends_move.ok hok

/-- The call goes on without writing. -/
theorem Sound.goto (hsound : Sound state) (hcall : state.calls id = some call)
    (hprogress : phase.progress = call.phase.progress ∨
      phase.progress = .outside ∧ ∃ authority, call.phase.progress = .preparing authority)
    (hok : phase.Ok state) : Sound (state.move id call phase) := by
  have hstatement : Statement state ((state.write state.database).move id call phase)
      id call phase := statement_write hcall le_rfl hok
  exact hsound.move hstatement (fun _ hrow => hrow) hprogress

/-- A phase of a call without an authority of its own. -/
structure Outside (state : State) (phase : Phase) : Prop where
  progress : phase.progress = .outside
  ok : phase.Ok state

theorem Sound.outside (hsound : Sound state) (hcall : state.calls id = some call)
    (hprogress : call.phase.progress = .outside) (houtside : Outside state phase) :
    Sound (state.move id call phase) :=
  hsound.goto hcall (.inl (houtside.progress.trans hprogress.symm)) houtside.ok

theorem outside_notInherited (kind : Kind) : Outside state (notInherited kind) := by
  cases kind
  all_goals exact ⟨rfl, trivial⟩

theorem outside_inheritedFrom (kind : Kind) (self owner : Pid) :
    Outside state (inheritedFrom kind self owner) := by
  unfold inheritedFrom
  split
  · split
    all_goals exact ⟨rfl, trivial⟩
  · exact ⟨rfl, trivial⟩

theorem outside_authorityFromEnvironment (kind : Kind) {authority : Option Text}
    (hknown : ∀ known ∈ authority, known ∈ state.presented) :
    Outside state (authorityFromEnvironment kind authority) := by
  unfold authorityFromEnvironment
  split
  · exact outside_notInherited kind
  · split
    · exact ⟨rfl, hknown _ rfl⟩
    · exact ⟨rfl, trivial⟩

/-- What a statement that opens the database does, with a database that is as
new as the statement needs. -/
structure Opens (state : State) (purpose : Purpose) (stage : Opening) (result : Database × Phase) :
    Prop where
  rows : ∀ row ∈ result.1.rows, row ∈ state.database.rows
  schema : state.database.schema.rank ≤ result.1.schema.rank
  progress : result.2.progress = (Phase.opening purpose stage).progress ∨
    result.2.progress = .outside ∧
      ∃ authority, (Phase.opening purpose stage).progress = .preparing authority
  ok : result.2.Ok (state.write result.1)

theorem rank_le_current (schema : Schema) : schema.rank ≤ Schema.current.rank := by
  cases schema
  all_goals decide

variable {stage : Opening}

theorem opens_insert (hready : stage.Ready state.database.schema) :
    Opens state (.insert authority) stage
      (openStatement (.insert authority) state.database stage) := by
  have hsame : ∀ {next : Opening}, next.Ready state.database.schema →
      Opens state (.insert authority) stage (state.database, .opening (.insert authority) next) :=
    fun hnext => ⟨fun _ hrow => hrow, le_rfl, .inl rfl, hnext⟩
  have hopened : state.database.schema = .current →
      Opens state (.insert authority) stage (state.database, opened (.insert authority)) :=
    fun hcurrent => ⟨fun _ hrow => hrow, le_rfl, .inl rfl, hcurrent⟩
  have hfailed : ∀ message : String, Opens state (.insert authority) stage
      (state.database, openingFailed message (.insert authority)) :=
    fun message => ⟨fun _ hrow => hrow, le_rfl, .inr ⟨rfl, authority, rfl⟩, trivial⟩
  cases stage with
  | file =>
    refine ⟨fun _ hrow => hrow, ?_, .inl rfl, ?_⟩
    · rw [openStatement]
      split
      · rename_i habsent
        rw [habsent]
        exact Nat.zero_le _
      · exact le_rfl
    · change Schema.empty.rank ≤ Schema.rank _
      rw [openStatement]
      simp only [State.write]
      split
      · decide
      · rename_i hfile
        cases hschema : state.database.schema
        case absent => exact absurd hschema hfile
        all_goals decide
  | master =>
    rw [openStatement]
    cases hschema : state.database.schema with
    | absent | empty => exact hsame hready
    | pidOnly => exact hsame (le_of_eq (congrArg Schema.rank hschema.symm))
    | current =>
      have hnewer : Schema.pidOnly.rank ≤ Schema.current.rank := by decide
      exact hsame (hnewer.trans_eq (congrArg Schema.rank hschema.symm))
  | create =>
    rw [openStatement]
    cases hschema : state.database.schema with
    | absent | empty => exact ⟨fun _ hrow => hrow, rank_le_current _, .inl rfl, rfl⟩
    | pidOnly | current => exact hfailed _
  | columns =>
    rw [openStatement]
    cases hschema : state.database.schema with
    | current => exact hopened hschema
    | absent | empty | pidOnly => exact hsame hready
  | alter =>
    rw [openStatement]
    cases hschema : state.database.schema with
    | pidOnly => exact ⟨fun _ hrow => hrow, rank_le_current _, .inl rfl, rfl⟩
    | current => exact hfailed _
    | absent | empty => exact hfailed _
  | clear =>
    refine ⟨fun row hrow => ?_, le_rfl, .inl rfl, hready⟩
    cases hrow

theorem opens_remove (hcurrent : state.database.schema = .current)
    (hstage : stage = .file ∨ stage = .master ∨ stage = .columns) :
    Opens state (.remove authority) stage
      (openStatement (.remove authority) state.database stage) := by
  have hsame : ∀ {next : Opening}, (next = .file ∨ next = .master ∨ next = .columns) →
      Opens state (.remove authority) stage (state.database, .opening (.remove authority) next) :=
    fun hnext => ⟨fun _ hrow => hrow, le_rfl, .inl rfl, hcurrent, hnext⟩
  obtain rfl | rfl | rfl := hstage
  · have hopen : openStatement (.remove authority) state.database .file =
        (state.database, .opening (.remove authority) .master) := by
      rw [openStatement, hcurrent, if_neg (by decide), ← hcurrent]
    rw [hopen]
    exact hsame (.inr (.inl rfl))
  · rw [openStatement, hcurrent]
    exact hsame (.inr (.inr rfl))
  · rw [openStatement, hcurrent]
    exact ⟨fun _ hrow => hrow, le_rfl, .inl rfl, hcurrent⟩

variable {fresh : Text}

variable {row : Row} {owner : Pid × Text}

/-- A row whose owner is not shown, or is shown as another process, is stale for good. -/
theorem gone_of_shown (howner : row.wellFormedOwner = some owner) (hused : owner ∈ state.used)
    (hshown : state.shown owner.1 ≠ some owner.2) : state.Gone row := by
  intro other hother
  rw [howner] at hother
  cases hother
  exact ⟨hused, hshown⟩

theorem forall_mem_concat {Item : Type} {items : List Item} {item : Item} {property : Item → Prop}
    (hitems : ∀ other ∈ items, property other) (hitem : property item) :
    ∀ other ∈ items ++ [item], property other := by
  intro other hother
  obtain hold | hnew := mem_append.mp hother
  · exact hitems other hold
  · rw [mem_singleton.mp hnew]
    exact hitem

theorem Row.owner_of_wellFormed (howner : row.wellFormedOwner = some owner) :
    row.owner = some owner := by
  unfold Row.wellFormedOwner at howner
  split at howner
  · split at howner
    · exact howner
    · cases howner
  · cases howner

variable {remaining stale : List Row}

section

variable (hsound : Sound state) (hcall : state.calls id = some call)
include hsound hcall

theorem Sound.inspect
    (hphase : call.phase = .inspect authority (row :: remaining) stale) (hok : call.phase.Ok state)
    :
    Sound (state.move id call
      (match row.wellFormedOwner with
      | none => .inspect authority remaining (stale ++ [row])
      | some owner =>
        match state.shown owner.1 with
        | none => .inspect authority remaining (stale ++ [row])
        | some seen => .inspectRead authority row owner seen remaining stale)) := by
  rw [hphase] at hok
  obtain ⟨hcurrent, hremaining, hstale⟩ := hok
  obtain ⟨hrow, hrest⟩ := forall_mem_cons.mp hremaining
  refine hsound.goto hcall (.inl ?_) ?_
  · rw [hphase]
    split
    · rfl
    · split
      all_goals rfl
  · split
    · rename_i hmalformed
      refine ⟨hcurrent, hrest, forall_mem_concat hstale fun owner howner => ?_⟩
      rw [hmalformed] at howner
      cases howner
    · rename_i owner howner
      split
      · rename_i hhidden
        refine ⟨hcurrent, hrest,
          forall_mem_concat hstale (gone_of_shown howner (hrow owner howner) ?_)⟩
        rw [hhidden]
        exact fun heq => by cases heq
      · exact ⟨hcurrent, ⟨howner, hrow owner howner⟩, hrest, hstale⟩

theorem Sound.inspectRead {seen : Text}
    (hphase : call.phase = .inspectRead authority row owner seen remaining stale)
    (hok : call.phase.Ok state) :
    Sound (state.move id call
      (if state.shown owner.1 = some seen then
        .inspect authority remaining (if seen = owner.2 then stale else stale ++ [row])
      else .finished exitedWhileRead)) := by
  rw [hphase] at hok
  obtain ⟨hcurrent, ⟨howner, hused⟩, hrest, hstale⟩ := hok
  have hprogress : call.phase.progress = .preparing authority := by
    rw [hphase]
    rfl
  split
  · rename_i hshown
    refine hsound.goto hcall (.inl hprogress.symm) ⟨hcurrent, hrest, ?_⟩
    split
    · exact hstale
    · rename_i hother
      refine forall_mem_concat hstale (gone_of_shown howner hused ?_)
      rw [hshown]
      exact fun heq => hother (Option.some.inj heq)
  · exact hsound.goto hcall (.inr ⟨rfl, authority, hprogress⟩) trivial

/-- Every statement of a call keeps the invariant. -/
theorem Sound.advance (hadvance : advance state id call fresh = some state') : Sound state' := by
  have hok := hsound.phases hcall
  unfold CacheLock.advance at hadvance
  cases hphase : call.phase with
  | inheritedFile kind authority =>
    simp only [hphase, Option.some.injEq] at hadvance hok
    subst hadvance
    refine hsound.outside hcall (by rw [hphase]; rfl) ?_
    split
    · exact outside_notInherited kind
    · exact ⟨rfl, hok⟩
  | inheritedSelect kind authority =>
    simp only [hphase, Option.some.injEq] at hadvance hok
    subst hadvance
    refine hsound.outside hcall (by rw [hphase]; rfl) ?_
    split
    · split
      · exact outside_notInherited kind
      · exact ⟨rfl, hok⟩
    · exact ⟨rfl, trivial⟩
  | inheritedOpen kind authority owner =>
    simp only [hphase, Option.some.injEq] at hadvance hok
    subst hadvance
    refine hsound.outside hcall (by rw [hphase]; rfl) ?_
    split
    · exact outside_notInherited kind
    · exact ⟨rfl, hok⟩
  | inheritedRead kind authority owner seen =>
    simp only [hphase, Option.some.injEq] at hadvance hok
    subst hadvance
    refine hsound.outside hcall (by rw [hphase]; rfl) ?_
    split
    · split
      · exact outside_inheritedFrom kind _ _
      · exact outside_notInherited kind
    · exact ⟨rfl, trivial⟩
  | generate =>
    simp only [hphase] at hadvance
    split at hadvance
    · rename_i hfresh
      obtain ⟨hpattern, hnew, hunknown⟩ := hfresh
      cases hadvance
      exact hsound.generate ⟨hcall, rfl, rfl, rfl, rfl, le_rfl, trivial⟩ hpattern hnew hunknown
        (by rw [hphase]; rfl) rfl
    · cases hadvance
  | opening purpose stage =>
    simp only [hphase, Option.some.injEq] at hadvance hok
    subst hadvance
    have hopens : Opens state purpose stage (openStatement purpose state.database stage) := by
      cases purpose with
      | insert authority => exact opens_insert hok
      | remove authority => exact opens_remove hok.1 hok.2
    exact hsound.move (statement_write hcall hopens.schema hopens.ok) hopens.rows
      (hphase ▸ hopens.progress)
  | select authority =>
    simp only [hphase, Option.some.injEq] at hadvance hok
    subst hadvance
    refine hsound.goto hcall (.inl (by rw [hphase]; rfl)) ⟨hok, fun row hrow owner howner => ?_, ?_⟩
    · exact hsound.used row hrow owner (Row.owner_of_wellFormed howner)
    · exact fun row hrow => by cases hrow
  | inspect authority remaining stale =>
    cases remaining with
    | nil =>
      simp only [hphase, Option.some.injEq] at hadvance hok
      subst hadvance
      exact hsound.goto hcall (.inl (by rw [hphase]; rfl)) ⟨hok.1, hok.2.2⟩
    | cons row remaining =>
      simp only [hphase, Option.some.injEq] at hadvance
      subst hadvance
      exact hsound.inspect hcall hphase hok
  | inspectRead authority row owner seen remaining stale =>
    simp only [hphase, Option.some.injEq] at hadvance
    subst hadvance
    exact hsound.inspectRead hcall hphase hok
  | prune authority stale =>
    cases stale with
    | nil =>
      simp only [hphase, Option.some.injEq] at hadvance hok
      subst hadvance
      exact hsound.goto hcall (.inl (by rw [hphase]; rfl)) hok.1
    | cons row stale =>
      simp only [hphase, Option.some.injEq] at hadvance hok
      subst hadvance
      have hlater : (Phase.prune authority stale).Ok state := ⟨hok.1, (forall_mem_cons.mp hok.2).2⟩
      exact hsound.move (statement_write hcall le_rfl ((extends_write le_rfl).ok hlater))
        (fun _ hrow => mem_of_mem_filter hrow) (.inl (by rw [hphase]; rfl))
  | insert authority =>
    simp only [hphase] at hadvance hok
    split at hadvance
    · cases hadvance
      exact hsound.insert (statement_write hcall le_rfl hok) (by rw [hphase]; rfl) rfl
    · cases hadvance
      exact hsound.goto hcall (.inr ⟨rfl, authority, by rw [hphase]; rfl⟩) trivial
  | begin authority =>
    simp only [hphase] at hadvance hok
    split at hadvance
    · rename_i hfree
      cases hadvance
      exact hsound.begin ⟨hcall, rfl, rfl, rfl, rfl, le_rfl, hok⟩ hfree (by rw [hphase]; rfl) rfl
    · cases hadvance
      exact hsound
  | holding authority =>
    simp only [hphase] at hadvance
    cases hadvance
  | delete authority =>
    simp only [hphase] at hadvance hok
    split at hadvance
    · cases hadvance
      exact hsound.delete (statement_write hcall le_rfl trivial) (by rw [hphase]; rfl) rfl
    · cases hadvance
      exact hsound.goto hcall (.inl (by rw [hphase]; rfl)) hok
  | rollback authority =>
    simp only [hphase, Option.some.injEq] at hadvance
    subst hadvance
    exact hsound.rollback ⟨hcall, rfl, rfl, rfl, rfl, le_rfl, trivial⟩ (by rw [hphase]; rfl) rfl
  | finished outcome =>
    simp only [hphase] at hadvance
    cases hadvance

end

variable {pid : Pid}

theorem Sound.spawn (hsound : Sound state) {startIdentity : Text}
    (hfree : state.processes pid = none) (hnew : (pid, startIdentity) ∉ state.used) :
    Sound { state with
      processes := update state.processes pid (some ⟨startIdentity, true⟩)
      used := (pid, startIdentity) :: state.used } := by
  have hother : ∀ {owner : Pid × Text}, owner ∈ state.used →
      update state.processes pid (some ⟨startIdentity, true⟩) owner.1 =
        some ⟨owner.2, true⟩ → state.Lives owner := by
    intro owner hused hlives
    by_cases hsame : owner.1 = pid
    · simp only [hsame, update_self] at hlives
      have hidentity : startIdentity = owner.2 := congrArg Process.startIdentity
        (Option.some.inj hlives)
      have howner : owner = (pid, startIdentity) := Prod.ext hsame hidentity.symm
      exact absurd (howner ▸ hused) hnew
    · simp only [update_of_ne hsame] at hlives
      exact hlives
  have hkept : ∀ {owner : Pid × Text}, state.Lives owner →
      update state.processes pid (some ⟨startIdentity, true⟩) owner.1 =
        some ⟨owner.2, true⟩ := by
    intro owner hlives
    have hne : owner.1 ≠ pid := by
      intro hsame
      rw [State.Lives, hsame, hfree] at hlives
      cases hlives
    rw [update_of_ne hne]
    exact hlives
  have hextends : Extends state { state with
      processes := update state.processes pid (some ⟨startIdentity, true⟩)
      used := (pid, startIdentity) :: state.used } := by
    refine ⟨fun _ hmem => hmem, le_rfl, fun owner hused => mem_cons_of_mem _ hused,
      fun owner hused hshown => ?_⟩
    by_cases hsame : owner.1 = pid
    · simp only [State.shown, hsame, update_self] at hshown
      have howner : owner = (pid, startIdentity) := Prod.ext hsame (Option.some.inj hshown).symm
      exact absurd (howner ▸ hused) hnew
    · simp only [State.shown, update_of_ne hsame] at hshown
      exact hshown
  exact { hsound with
    processes := by
      intro other process hprocess
      by_cases hsame : other = pid
      · subst hsame
        simp only [update_self] at hprocess
        cases hprocess
        exact mem_cons_self
      · simp only [update_of_ne hsame] at hprocess
        exact mem_cons_of_mem _ (hsound.processes hprocess)
    used := fun row hrow owner howner => mem_cons_of_mem _ (hsound.used row hrow owner howner)
    running := fun hcall => hkept (hsound.running hcall)
    recorded := fun row hrow owner howner hlives =>
      hsound.recorded row hrow owner howner (hother (hsound.used row hrow owner howner) hlives)
    phases := fun hcall => hextends.ok (hsound.phases hcall) }

variable {process : Process}

theorem calls_dieWith (hcall : (dieWith state pid process).calls id = some call) :
    state.calls id = some call ∧ call.pid ≠ pid := by
  unfold dieWith at hcall
  simp only at hcall
  split at hcall
  · rename_i found hfound
    split at hcall
    · cases hcall
    · rename_i hother
      cases hcall
      exact ⟨hfound, hother⟩
  · cases hcall

theorem calls_dieWith_of_ne (hcall : state.calls id = some call) (hother : call.pid ≠ pid) :
    (dieWith state pid process).calls id = some call := by
  unfold dieWith
  simp only [hcall, if_neg hother]

theorem Sound.die (hsound : Sound state) (hprocess : state.processes pid = some process) :
    Sound (dieWith state pid process) := by
  have hlives : ∀ {owner : Pid × Text}, (dieWith state pid process).Lives owner ↔
      owner.1 ≠ pid ∧ state.Lives owner := by
    intro owner
    simp only [State.Lives, dieWith]
    by_cases hsame : owner.1 = pid
    · rw [hsame, update_self]
      constructor
      · intro hlives
        exact absurd (congrArg Process.running (Option.some.inj hlives)) Bool.false_ne_true
      · rintro ⟨hne, -⟩
        exact absurd rfl hne
    · rw [update_of_ne hsame]
      exact ⟨fun hlives => ⟨hsame, hlives⟩, And.right⟩
  have hextends : Extends state (dieWith state pid process) := by
    refine ⟨fun _ hmem => hmem, le_rfl, fun _ hused => hused, fun owner hused hshown => ?_⟩
    rw [State.shown, dieWith] at hshown
    by_cases hsame : owner.1 = pid
    · simp only [hsame, update_self] at hshown
      rw [State.shown, hsame, hprocess]
      exact hshown
    · simp only [update_of_ne hsame] at hshown
      exact hshown
  exact { hsound with
    processes := by
      intro other found hfound
      change update state.processes pid _ other = some found at hfound
      by_cases hsame : other = pid
      · subst hsame
        simp only [update_self] at hfound
        cases hfound
        have hused := hsound.processes hprocess
        exact hused
      · simp only [update_of_ne hsame] at hfound
        exact hsound.processes hfound
    running := fun hcall => hlives.mpr
      ⟨(calls_dieWith hcall).2, hsound.running (calls_dieWith hcall).1⟩
    recorded := by
      intro row hrow owner howner hlive
      obtain ⟨hother, hlive⟩ := hlives.mp hlive
      obtain ⟨id, call, authority, hcall, hsame, hauthority, hrecorded⟩ :=
        hsound.recorded row hrow owner howner hlive
      have hpid : call.pid ≠ pid := by
        rw [← hsame] at hother
        exact hother
      exact ⟨id, call, authority, calls_dieWith_of_ne hcall hpid, hsame, hauthority, hrecorded⟩
    token := fun hcall => hsound.token (calls_dieWith hcall).1
    unique := fun hfirst hsecond =>
      hsound.unique (calls_dieWith hfirst).1 (calls_dieWith hsecond).1
    pending := fun hcall => hsound.pending (calls_dieWith hcall).1
    preparing := fun hcall => hsound.preparing (calls_dieWith hcall).1
    holder := by
      intro id
      constructor
      · intro hholder
        change state.holder.bind _ = some id at hholder
        obtain ⟨held, hheld, hkept⟩ := Option.bind_eq_some_iff.mp hholder
        obtain ⟨call, hcall, hholds⟩ := (hsound.holder held).mp hheld
        simp only [hcall] at hkept
        split at hkept
        · cases hkept
        · rename_i hother
          cases hkept
          exact ⟨call, calls_dieWith_of_ne hcall hother, hholds⟩
      · rintro ⟨call, hcall, hholds⟩
        obtain ⟨hold, hother⟩ := calls_dieWith hcall
        have hheld := (hsound.holder id).mpr ⟨call, hold, hholds⟩
        change state.holder.bind _ = some id
        rw [hheld, Option.bind_some]
        simp only [hold, if_neg hother]
    phases := fun hcall => hextends.ok (hsound.phases (calls_dieWith hcall).1) }

theorem Sound.reap (hsound : Sound state) (hprocess : state.processes pid = some process)
    (hdead : process.running = false) :
    Sound { state with processes := update state.processes pid none } := by
  have hlives : ∀ {owner : Pid × Text},
      update state.processes pid none owner.1 = some ⟨owner.2, true⟩ ↔
        state.Lives owner := by
    intro owner
    rw [State.Lives]
    by_cases hsame : owner.1 = pid
    · rw [hsame, update_self, hprocess]
      constructor
      · intro hlives
        cases hlives
      · intro hlives
        cases hlives
        cases hdead
    · rw [update_of_ne hsame]
  have hextends : Extends state
      { state with processes := update state.processes pid none } := by
    refine ⟨fun _ hmem => hmem, le_rfl, fun _ hused => hused, fun owner hused hshown => ?_⟩
    by_cases hsame : owner.1 = pid
    · simp only [State.shown, hsame, update_self] at hshown
      cases hshown
    · simp only [State.shown, update_of_ne hsame] at hshown
      exact hshown
  exact { hsound with
    processes := by
      intro other found hfound
      by_cases hsame : other = pid
      · subst hsame
        simp only [update_self] at hfound
        cases hfound
      · simp only [update_of_ne hsame] at hfound
        exact hsound.processes hfound
    running := fun hcall => hlives.mpr (hsound.running hcall)
    recorded := fun row hrow owner howner hlive =>
      hsound.recorded row hrow owner howner (hlives.mp hlive)
    phases := fun hcall => hextends.ok (hsound.phases hcall) }

/-- A call begins with what its environment says. -/
theorem Sound.start (hsound : Sound state) {id : CallId} {process : Process} {kind : Kind}
    {authority : Option Text} (hprocess : state.processes pid = some process)
    (hrunning : process.running = true) (hfree : state.calls id = none)
    (hknown : ∀ known ∈ authority, known ∈ state.generated → known ∈ state.published) :
    Sound { state with
      calls := update state.calls id
        (some ⟨pid, process.startIdentity, authorityFromEnvironment kind authority⟩)
      presented := authority.toList ++ state.presented } := by
  have houtside : Outside { state with presented := authority.toList ++ state.presented }
      (authorityFromEnvironment kind authority) :=
    outside_authorityFromEnvironment kind fun _ hpresented =>
      mem_append_left _ (Option.mem_toList.mpr hpresented)
  have hprogress := houtside.progress
  have hcases : ∀ {other : CallId} {found : Call}, update state.calls id
      (some ⟨pid, process.startIdentity, authorityFromEnvironment kind authority⟩) other =
        some found →
      found = ⟨pid, process.startIdentity, authorityFromEnvironment kind authority⟩ ∨
        state.calls other = some found := by
    intro other found hfound
    by_cases hsame : other = id
    · subst hsame
      rw [update_self] at hfound
      exact .inl (Option.some.inj hfound).symm
    · rw [update_of_ne hsame] at hfound
      exact .inr hfound
  have hold : ∀ {other : CallId} {found : Call}, state.calls other = some found →
      update state.calls id
        (some ⟨pid, process.startIdentity, authorityFromEnvironment kind authority⟩) other =
          some found := by
    intro other found hfound
    have hne : other ≠ id := by
      rintro rfl
      rw [hfree] at hfound
      cases hfound
    rw [update_of_ne hne, hfound]
  have hextends : Extends state { state with
      calls := update state.calls id
        (some ⟨pid, process.startIdentity, authorityFromEnvironment kind authority⟩)
      presented := authority.toList ++ state.presented } :=
    ⟨fun _ hmem => mem_append_right _ hmem, le_rfl, fun _ hused => hused, fun _ _ hshown => hshown⟩
  have htoken : ∀ {other : CallId} {found : Call} {text : Text}, update state.calls id
      (some ⟨pid, process.startIdentity, authorityFromEnvironment kind authority⟩) other =
        some found → found.phase.progress.token = some text →
      state.calls other = some found := by
    intro other found text hfound hfoundToken
    obtain rfl | hfound := hcases hfound
    · rw [hprogress] at hfoundToken
      cases hfoundToken
    · exact hfound
  exact { hsound with
    running := by
      intro other found hfound
      obtain rfl | hfound := hcases hfound
      · rw [State.Lives, hprocess, ← hrunning]
      · exact hsound.running hfound
    recorded := by
      intro row hrow owner howner hlive
      obtain ⟨other, found, text, hfound, hsame, hauthority, hrecorded⟩ :=
        hsound.recorded row hrow owner howner hlive
      exact ⟨other, found, text, hold hfound, hsame, hauthority, hrecorded⟩
    token := fun hfound hfoundToken => hsound.token (htoken hfound hfoundToken) hfoundToken
    unique := fun hfirst hsecond hfirstToken hsecondToken =>
      hsound.unique (htoken hfirst hfirstToken) (htoken hsecond hsecondToken) hfirstToken
        hsecondToken
    pending := fun hfound hpending => hsound.pending (htoken hfound hpending.token) hpending
    preparing := fun hfound hpreparing =>
      hsound.preparing (htoken hfound (Progress.Pending.token (.inl hpreparing))) hpreparing
    holder := by
      intro other
      rw [hsound.holder]
      constructor
      · rintro ⟨found, hfound, hholds⟩
        exact ⟨found, hold hfound, hholds⟩
      · rintro ⟨found, hfound, hholds⟩
        obtain rfl | hfound := hcases hfound
        · rw [hprogress] at hholds
          cases hholds
        · exact ⟨found, hfound, hholds⟩
    presented := by
      intro text hpresented hgenerated
      obtain hnew | hpresented := mem_append.mp hpresented
      · exact hknown text (Option.mem_toList.mp hnew) hgenerated
      · exact hsound.presented text hpresented hgenerated
    phases := by
      intro other found hfound
      obtain rfl | hfound := hcases hfound
      · exact houtside.ok
      · exact hextends.ok (hsound.phases hfound) }

theorem Sound.release (hsound : Sound state) {authority : Text} (hcall : state.calls id = some call)
    (hphase : call.phase = .holding authority) :
    Sound (state.move id call (.opening (.remove authority) .file)) := by
  have hok := hsound.phases hcall
  rw [hphase] at hok
  exact hsound.goto hcall (.inl (by rw [hphase]; rfl)) ⟨hok, .inl rfl⟩

theorem Sound.step (hsound : Sound state) {event : Event}
    (hstep : step event state = some state') : Sound state' := by
  cases event with
  | spawn pid startIdentity =>
    simp only [CacheLock.step] at hstep
    split at hstep
    · rename_i hspawn
      cases hstep
      exact hsound.spawn hspawn.1 hspawn.2.1
    · cases hstep
  | die pid =>
    simp only [CacheLock.step] at hstep
    split at hstep
    · rename_i process hprocess
      split at hstep
      · cases hstep
        exact hsound.die hprocess
      · cases hstep
    · cases hstep
  | reap pid =>
    simp only [CacheLock.step] at hstep
    split at hstep
    · rename_i process hprocess
      split at hstep
      · cases hstep
      · rename_i hdead
        cases hstep
        exact hsound.reap hprocess (Bool.eq_false_of_not_eq_true hdead)
    · cases hstep
  | call id pid kind authority =>
    simp only [CacheLock.step] at hstep
    split at hstep
    · rename_i process hprocess
      split at hstep
      · rename_i hcall
        cases hstep
        exact hsound.start hprocess hcall.1 hcall.2.1 hcall.2.2
      · cases hstep
    · cases hstep
  | advance id fresh =>
    simp only [CacheLock.step] at hstep
    split at hstep
    · rename_i call hcall
      exact hsound.advance hcall hstep
    · cases hstep
  | release id =>
    simp only [CacheLock.step] at hstep
    split at hstep
    · rename_i call hcall
      split at hstep
      · rename_i authority hphase
        cases hstep
        exact hsound.release hcall hphase
      · cases hstep
    · cases hstep

section Runs

open TransitionSystem

/-- The states of all runs. -/
def Reached : State → Prop :=
  Reachable Initial fun state state' => ∃ event, step event state = some state'

theorem Reached.sound (hreached : Reached state) : Sound state :=
  hreached.invariant (fun _ hinitial => hinitial.sound)
    fun _ _ hsound ⟨_, hstep⟩ => hsound.step hstep

/-- One call at a time has the lock. -/
theorem Sound.exclusive (hsound : Sound state) {id id' : CallId} {call call' : Call}
    (hcall : state.calls id = some call) (hcall' : state.calls id' = some call')
    (hholds : call.phase.progress.Holds) (hholds' : call'.phase.progress.Holds) : id = id' := by
  have hfirst := (hsound.holder id).mpr ⟨call, hcall, hholds⟩
  have hsecond := (hsound.holder id').mpr ⟨call', hcall', hholds'⟩
  exact Option.some.inj (hfirst.symm.trans hsecond)

end Runs

end ConvexWasm.CacheLock
