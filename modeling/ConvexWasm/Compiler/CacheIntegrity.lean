import ConvexWasm.Compiler.CachePublication

/-!
# What the cache holds

A task that writes owns its temporary file: no other name leads to it, and no
other task has the same temporary.  So what is renamed or linked into place is
complete, whoever else is at work, and whoever crashed before.
-/

namespace ConvexWasm.Compiler.CachePublication

open Function List

def Validation.sequence : Validation → Option ℕ
  | .raced sequence => some sequence
  | _ => none

/-- The number of the temporary of a publication, once it is drawn and until it
is removed. -/
def PublishPhase.sequence : PublishPhase → Option ℕ
  | .validate reason => reason.sequence
  | .inspected reason _ => reason.sequence
  | .opened reason _ => reason.sequence
  | .create sequence => some sequence
  | .writing sequence _ _ => some sequence
  | .link sequence _ => some sequence
  | .cleanup sequence _ => some sequence
  | _ => none

/-- The file being written, and what remains to be written. -/
def Task.draft : Task → Option (ℕ × Bytes)
  | .load _ _ (.writing file remaining) => some (file, remaining)
  | .load _ _ (.publish file) => some (file, [])
  | .publish _ (.writing _ file remaining) => some (file, remaining)
  | .publish _ (.link _ file) => some (file, [])
  | _ => none

section Tools

variable {Facts : Type} (tools : Tools Facts)

def Task.temporary (pid : ℕ) : Task → Option CacheName
  | .load pipeline input _ =>
    some (.summaryTemporary (moduleSummaryCacheKey tools pipeline input) pid)
  | .publish source phase =>
    phase.sequence.map fun sequence =>
      .generatedTemporary (tools.hashBytes source) pid sequence

def Task.final : Task → CacheName
  | .load pipeline input _ => .summary (moduleSummaryCacheKey tools pipeline input)
  | .publish source _ => .generated (tools.hashBytes source)

/-- What a publisher writes for a key or a digest; temporaries may hold anything. -/
def Complete : CacheName → Bytes → Prop
  | .summary cacheKey, bytes => ∃ pipeline input summary,
      moduleSummaryCacheKey tools pipeline input = cacheKey ∧
        summarizeModule tools pipeline input = some summary ∧ bytes = tools.encode summary
  | .generated digest, bytes => tools.hashBytes bytes = digest
  | _, _ => True

/-- What one step of a task does to the store. -/
inductive Effect (pid : ℕ) (task task' : Task) (store store' : CacheStore) : Prop
  | shrinks (hcontent : store'.content = store.content) (hnext : store'.next = store.next)
      (hentry : ∀ name file, store'.entry name = some file → store.entry name = some file)
      (hdraft : task'.draft = none ∨
        task'.draft = task.draft ∧ task'.temporary tools pid = task.temporary tools pid)
  | creates (name : CacheName) (bytes : Bytes) (hname : task'.temporary tools pid = some name)
      (hfree : store.entry name = none) (hcomplete : Complete tools (task'.final tools) bytes)
      (hcontent : store'.content = update store.content store.next [])
      (hnext : store'.next = store.next + 1)
      (hentry : store'.entry = update store.entry name (some store.next))
      (hdraft : task'.draft = some (store.next, bytes))
  | writes (file : ℕ) (written remaining : Bytes)
      (hdraft : task.draft = some (file, written ++ remaining))
      (hstore : store' = store.append file written)
      (hdraft' : task'.draft = some (file, remaining))
      (htemporary : task'.temporary tools pid = task.temporary tools pid)
  | publishes (file draft : ℕ) (name : CacheName) (hname : task.temporary tools pid = some name)
      (hdraft : task.draft = some (draft, [])) (htemporary : store.entry name = some file)
      (hcontent : store'.content = store.content) (hnext : store'.next = store.next)
      (hentry : ∀ other found, store'.entry other = some found →
        store.entry other = some found ∨ other = task.final tools ∧ found = file)
      (hdraft' : task'.draft = none)

end Tools

variable {Facts : Type} {tools : Tools Facts}

variable {pid chunk temporaries temporaries' : ℕ} {store store' : CacheStore} {task task' : Task}

/-- The step keeps the key or the digest it is about. -/
theorem taskStep_final (hstep : taskStep tools pid chunk store temporaries task =
      some (store', temporaries', task')) : task'.final tools = task.final tools := by
  cases task with
  | load pipeline input phase =>
    obtain ⟨⟨_, _⟩, _, heq⟩ := Option.map_eq_some_iff.mp hstep
    cases heq
    rfl
  | publish source phase =>
    obtain ⟨⟨_, _, _⟩, _, heq⟩ := Option.map_eq_some_iff.mp hstep
    cases heq
    rfl

theorem Effect.quiet {pid : ℕ} {store : CacheStore} (hdraft : task'.draft = none ∨
      task'.draft = task.draft ∧ task'.temporary tools pid = task.temporary tools pid) :
    Effect tools pid task task' store store :=
  .shrinks rfl rfl (fun _ _ hentry => hentry) hdraft

variable {Name : Type} {entry : Name → Option ℕ}

/-- An entry that is moved was an entry before, or is the one moved to. -/
theorem update_update_some [DecidableEq Name] {old new other : Name} {file found : ℕ}
    (hentry : update (update entry old none) new (some file) other = some found) :
    entry other = some found ∨ other = new ∧ found = file := by
  by_cases hnew : other = new
  · subst hnew
    rw [update_self] at hentry
    exact .inr ⟨rfl, (Option.some.inj hentry).symm⟩
  · rw [update_of_ne hnew] at hentry
    by_cases hold : other = old
    · subst hold
      rw [update_self] at hentry
      cases hentry
    · rw [update_of_ne hold] at hentry
      exact .inl hentry

theorem update_none_some [DecidableEq Name] {old other : Name} {found : ℕ}
    (hentry : update entry old none other = some found) : entry other = some found := by
  by_cases hold : other = old
  · subst hold
    rw [update_self] at hentry
    cases hentry
  · rwa [update_of_ne hold] at hentry

theorem loadStep_effect {pipeline : Pipeline} {input : ModuleInput} {pid chunk : ℕ}
    {phase phase' : LoadPhase}
    (hstep : loadStep tools pipeline input pid chunk store phase = some (store', phase')) :
    Effect tools pid (.load pipeline input phase) (.load pipeline input phase')
      store store' := by
  cases phase with
  | lookup | inspected | opened | read | touch | touchInspected | touched | renameFailed =>
    simp only [loadStep] at hstep
    repeat' split at hstep
    all_goals
      cases hstep
      exact .quiet (.inl rfl)
  | touchOpened file =>
    cases hstep
    exact .shrinks rfl rfl (fun _ _ hentry => hentry) (.inl rfl)
  | create =>
    simp only [loadStep] at hstep
    split at hstep
    case h_1 =>
      cases hstep
      exact .quiet (.inl rfl)
    case h_2 summary hsummary =>
      split at hstep
      case h_1 =>
        cases hstep
        exact .quiet (.inl rfl)
      case h_2 file created hcreate =>
        cases hstep
        obtain ⟨hfree, hfile, hnext, hcontent, hentry⟩ := FileStore.createNew_eq_some hcreate
        subst hfile
        exact .creates _ _ rfl hfree ⟨pipeline, input, summary, rfl, hsummary, rfl⟩
          hcontent hnext hentry rfl
  | writing file remaining =>
    cases remaining with
    | nil =>
      cases hstep
      exact .quiet (.inr ⟨rfl, rfl⟩)
    | cons byte rest =>
      cases hstep
      refine .writes file _ _ ?_ rfl rfl rfl
      rw [take_append_drop]
      rfl
  | publish file =>
    simp only [loadStep] at hstep
    split at hstep
    case h_1 renamed hrename =>
      cases hstep
      obtain ⟨moved, hmoved, ⟨hsame, rfl⟩ | ⟨_, hcontent, hnext, hentry⟩⟩ :=
        FileStore.rename_eq_some hrename
      · exact .publishes moved file _ rfl rfl hmoved rfl rfl (fun _ _ hfound => .inl hfound) rfl
      · refine .publishes moved file _ rfl rfl hmoved hcontent hnext ?_ rfl
        intro other found hfound
        rw [hentry] at hfound
        exact update_update_some hfound
    case h_2 =>
      cases hstep
      exact .quiet (.inl rfl)
  | discard =>
    simp only [loadStep] at hstep
    split at hstep
    case h_1 removed hunlink =>
      cases hstep
      obtain ⟨hentry, hcontent, hnext⟩ := FileStore.unlink_eq_some hunlink
      refine .shrinks hcontent hnext (fun name found hfound => ?_) (.inl rfl)
      rw [hentry] at hfound
      exact update_none_some hfound
    case h_2 =>
      cases hstep
      exact .quiet (.inl rfl)
  | finished succeeded => cases hstep

variable {source : Bytes}

theorem draft_validated (passed : Bool) (reason : Validation) :
    (Task.publish source (validated passed reason)).draft = none := by
  cases reason <;> rfl

variable {phase phase' : PublishPhase}

theorem publishStep_effect (hstep : publishStep tools source pid chunk store temporaries phase =
      some (store', temporaries', phase')) :
    Effect tools pid (.publish source phase) (.publish source phase') store store' := by
  cases phase with
  | lookup | validate | inspected | opened =>
    simp only [publishStep] at hstep
    repeat' split at hstep
    all_goals
      cases hstep
      exact .quiet (.inl (by first | rfl | exact draft_validated _ _))
  | create sequence =>
    simp only [publishStep] at hstep
    split at hstep
    case h_1 =>
      cases hstep
      exact .quiet (.inl rfl)
    case h_2 file created hcreate =>
      cases hstep
      obtain ⟨hfree, hfile, hnext, hcontent, hentry⟩ := FileStore.createNew_eq_some hcreate
      subst hfile
      exact .creates _ _ rfl hfree rfl hcontent hnext hentry rfl
  | writing sequence file remaining =>
    cases remaining with
    | nil =>
      cases hstep
      exact .quiet (.inr ⟨rfl, rfl⟩)
    | cons byte rest =>
      cases hstep
      refine .writes file _ _ ?_ rfl rfl rfl
      rw [take_append_drop]
      rfl
  | link sequence file =>
    simp only [publishStep] at hstep
    split at hstep
    case h_1 linked hlink =>
      cases hstep
      obtain ⟨moved, hmoved, _, hcontent, hnext, hentry⟩ := FileStore.hardLink_eq_ok hlink
      refine .publishes moved file _ rfl rfl hmoved hcontent hnext ?_ rfl
      intro other found hfound
      rw [hentry] at hfound
      by_cases hother : other = .generated (tools.hashBytes source)
      · subst hother
        rw [update_self] at hfound
        exact .inr ⟨rfl, (Option.some.inj hfound).symm⟩
      · rw [update_of_ne hother] at hfound
        exact .inl hfound
    all_goals
      cases hstep
      exact .quiet (.inl rfl)
  | cleanup sequence published =>
    simp only [publishStep] at hstep
    cases hunlink : store.unlink (.generatedTemporary (tools.hashBytes source) pid sequence) with
    | none =>
      rw [hunlink] at hstep
      cases hstep
      exact .quiet (.inl (by cases published <;> rfl))
    | some removed =>
      rw [hunlink] at hstep
      cases hstep
      obtain ⟨hentry, hcontent, hnext⟩ := FileStore.unlink_eq_some hunlink
      refine .shrinks hcontent hnext (fun name found hfound => ?_)
        (.inl (by cases published <;> rfl))
      rw [Option.getD_some, hentry] at hfound
      exact update_none_some hfound
  | finished succeeded => cases hstep

theorem taskStep_effect (hstep : taskStep tools pid chunk store temporaries task =
      some (store', temporaries', task')) : Effect tools pid task task' store store' := by
  cases task with
  | load pipeline input phase =>
    obtain ⟨⟨_, _⟩, hphase, heq⟩ := Option.map_eq_some_iff.mp hstep
    cases heq
    exact loadStep_effect hphase
  | publish source phase =>
    obtain ⟨⟨_, _, _⟩, hphase, heq⟩ := Option.map_eq_some_iff.mp hstep
    cases heq
    exact publishStep_effect hphase

theorem sequence_validated (passed : Bool) (reason : Validation) :
    (validated passed reason).sequence = reason.sequence := by
  cases reason <;> rfl

theorem publish_temporary_congr {pid : ℕ} (hsequence : phase'.sequence = phase.sequence) :
    (Task.publish source phase').temporary tools pid =
      (Task.publish source phase).temporary tools pid :=
  congrArg (Option.map _) hsequence

/-- A step keeps the temporary, drops it, or draws the next one. -/
theorem taskStep_temporary (hstep : taskStep tools pid chunk store temporaries task =
      some (store', temporaries', task')) :
    temporaries' = temporaries ∧ (task'.temporary tools pid = task.temporary tools pid ∨
        task'.temporary tools pid = none) ∨
      temporaries' = temporaries + 1 ∧ ∃ digest,
        task'.temporary tools pid = some (.generatedTemporary digest pid temporaries) := by
  cases task with
  | load pipeline input phase =>
    obtain ⟨⟨_, _⟩, _, heq⟩ := Option.map_eq_some_iff.mp hstep
    cases heq
    exact .inl ⟨rfl, .inl rfl⟩
  | publish source phase =>
    obtain ⟨⟨_, _, _⟩, hphase, heq⟩ := Option.map_eq_some_iff.mp hstep
    cases heq
    cases phase with
    | lookup =>
      simp only [publishStep] at hphase
      split at hphase
      case h_1 =>
        cases hphase
        exact .inl ⟨rfl, .inl rfl⟩
      case h_2 =>
        cases hphase
        exact .inr ⟨rfl, _, rfl⟩
    | validate reason | inspected reason | opened reason =>
      simp only [publishStep] at hphase
      repeat' split at hphase
      all_goals
        cases hphase
        exact .inl ⟨rfl, .inl (publish_temporary_congr
          (by first | rfl | exact sequence_validated _ _))⟩
    | create | link =>
      simp only [publishStep] at hphase
      split at hphase
      all_goals
        cases hphase
        exact .inl ⟨rfl, by first | exact .inl rfl | exact .inr rfl⟩
    | writing sequence file remaining =>
      cases remaining with
      | nil | cons =>
        cases hphase
        exact .inl ⟨rfl, .inl rfl⟩
    | cleanup sequence published =>
      cases hphase
      exact .inl ⟨rfl, .inr (by cases published <;> rfl)⟩
    | finished => cases hphase

variable {name : CacheName}

/-- A temporary tells the process it belongs to. -/
theorem temporary_pid {pid pid' : ℕ} (hname : task.temporary tools pid = some name)
    (hname' : task'.temporary tools pid' = some name) : pid = pid' := by
  cases task with
  | load =>
    cases hname
    cases task' with
    | load => exact (CacheName.summaryTemporary.inj (Option.some.inj hname')).2.symm
    | publish =>
      obtain ⟨_, _, heq⟩ := Option.map_eq_some_iff.mp hname'
      cases heq
  | publish =>
    obtain ⟨_, _, rfl⟩ := Option.map_eq_some_iff.mp hname
    cases task' with
    | load => cases hname'
    | publish =>
      obtain ⟨_, _, heq⟩ := Option.map_eq_some_iff.mp hname'
      exact (CacheName.generatedTemporary.inj heq).2.1.symm

theorem complete_temporary {pid : ℕ} {task : Task} {bytes : Bytes}
    (hname : task.temporary tools pid = some name) : Complete tools name bytes := by
  cases task with
  | load =>
    cases hname
    trivial
  | publish =>
    obtain ⟨_, _, rfl⟩ := Option.map_eq_some_iff.mp hname
    trivial

theorem temporary_ne_final {pid : ℕ} (hname : task.temporary tools pid = some name) :
    name ≠ task'.final tools := by
  cases task with
  | load =>
    cases hname
    cases task' <;> exact fun heq => nomatch heq
  | publish =>
    obtain ⟨_, _, rfl⟩ := Option.map_eq_some_iff.mp hname
    cases task' <;> exact fun heq => nomatch heq

section Invariant

variable (tools)

/-- The file a task writes is its own: it will be complete, and only the
temporary of the task leads to it. -/
structure Owned (store : CacheStore) (pid : ℕ) (task : Task) (draft : ℕ)
    (remaining : Bytes) : Prop where
  created : draft < store.next
  complete : Complete tools (task.final tools) (store.content draft ++ remaining)
  named : ∀ name, store.entry name = some draft → task.temporary tools pid = some name
  entered : ∀ name file, task.temporary tools pid = some name →
    store.entry name = some file → file = draft

/-- What holds of the cache whatever the compilers do. -/
structure Intact (cache : Cache) : Prop where
  complete : ∀ name file, cache.store.entry name = some file →
    Complete tools name (cache.store.content file)
  running : ∀ pid worker task, cache.task pid worker = some task →
    ∃ process, cache.process pid = some process ∧ ∀ digest sequence,
      task.temporary tools pid = some (.generatedTemporary digest pid sequence) →
        sequence < process.temporaries
  distinct : ∀ pid worker worker' task task' name, cache.task pid worker = some task →
    cache.task pid worker' = some task' → task.temporary tools pid = some name →
      task'.temporary tools pid = some name → worker = worker'
  owned : ∀ pid worker task draft remaining, cache.task pid worker = some task →
    task.draft = some (draft, remaining) → Owned tools cache.store pid task draft remaining
  separate : ∀ pid worker pid' worker' task task' draft remaining remaining',
    cache.task pid worker = some task → cache.task pid' worker' = some task' →
      task.draft = some (draft, remaining) → task'.draft = some (draft, remaining') →
        pid = pid' ∧ worker = worker'

end Invariant

variable {draft : ℕ} {remaining : Bytes}

/-- The entries left are entries that were there. -/
theorem Owned.of_shrinks {task : Task} (howned : Owned tools store pid task draft remaining)
    (hcontent : store'.content = store.content) (hnext : store'.next = store.next)
    (hentry : ∀ name file, store'.entry name = some file → store.entry name = some file) :
    Owned tools store' pid task draft remaining := by
  refine ⟨?_, ?_, fun name hname => howned.named name (hentry name draft hname), ?_⟩
  · rw [hnext]
    exact howned.created
  · rw [hcontent]
    exact howned.complete
  · intro name file hname hfile
    exact howned.entered name file hname (hentry name file hfile)

/-- A step of another task leaves an owned file alone. -/
theorem Owned.of_effect {pid pid' draft : ℕ} {task other other' : Task}
    (howned : Owned tools store pid task draft remaining)
    (heffect : Effect tools pid' other other' store store')
    (hother : ∀ file rest, other.draft = some (file, rest) →
      file ≠ draft ∧ Owned tools store pid' other file rest)
    (htemporary : ∀ name, other'.temporary tools pid' = some name →
      task.temporary tools pid ≠ some name) : Owned tools store' pid task draft remaining := by
  cases heffect with
  | shrinks hcontent hnext hentry _ => exact howned.of_shrinks hcontent hnext hentry
  | creates name bytes hname hfree _ hcontent hnext hentry _ =>
    have hold : draft ≠ store.next := Nat.ne_of_lt howned.created
    refine ⟨?_, ?_, fun found hfound => ?_, fun found file hfound hfile => ?_⟩
    · rw [hnext]
      exact Nat.lt_succ_of_lt howned.created
    · rw [hcontent, update_of_ne hold]
      exact howned.complete
    · rw [hentry] at hfound
      by_cases hsame : found = name
      · subst hsame
        rw [update_self] at hfound
        exact absurd (Option.some.inj hfound).symm hold
      · rw [update_of_ne hsame] at hfound
        exact howned.named found hfound
    · have hne : found ≠ name := by
        rintro rfl
        exact htemporary found hname hfound
      rw [hentry, update_of_ne hne] at hfile
      exact howned.entered found file hfound hfile
  | writes file written rest hdraft hstore _ =>
    subst hstore
    have hne : draft ≠ file := fun heq => (hother file _ hdraft).1 heq.symm
    refine ⟨howned.created, ?_, howned.named, howned.entered⟩
    rw [FileStore.append_content_of_ne _ _ hne]
    exact howned.complete
  | publishes file written name hname hdraft hfile hcontent hnext hentry _ =>
    obtain ⟨hne, hownedOther⟩ := hother written [] hdraft
    have hwritten : file = written := hownedOther.entered name file hname hfile
    refine ⟨?_, ?_, fun found hfound => ?_, fun found moved hfound hmoved => ?_⟩
    · rw [hnext]
      exact howned.created
    · rw [hcontent]
      exact howned.complete
    · rcases hentry found draft hfound with hbefore | ⟨_, hdraftFile⟩
      · exact howned.named found hbefore
      · exact absurd (hdraftFile.trans hwritten).symm hne
    · rcases hentry found moved hmoved with hbefore | ⟨hfinal, _⟩
      · exact howned.entered found moved hfound hbefore
      · exact absurd hfinal (temporary_ne_final hfound)

/-- The file of a task that makes a step stays its own. -/
theorem Owned.step (heffect : Effect tools pid task task' store store')
    (hfinal : task'.final tools = task.final tools)
    (howned : ∀ file rest, task.draft = some (file, rest) →
      Owned tools store pid task file rest) (hdraft : task'.draft = some (draft, remaining)) :
    Owned tools store' pid task' draft remaining := by
  cases heffect with
  | shrinks hcontent hnext hentry hkept =>
    rcases hkept with hnone | ⟨hsame, htemporary⟩
    · rw [hnone] at hdraft
      cases hdraft
    · rw [hsame] at hdraft
      have hbefore := (howned draft remaining hdraft).of_shrinks hcontent hnext hentry
      refine ⟨hbefore.created, ?_, ?_, ?_⟩
      · rw [hfinal]
        exact hbefore.complete
      · rw [htemporary]
        exact hbefore.named
      · rw [htemporary]
        exact hbefore.entered
  | creates name bytes hname hfree hcomplete hcontent hnext hentry hcreated =>
    rw [hcreated] at hdraft
    cases hdraft
    refine ⟨?_, ?_, fun found hfound => ?_, fun found file hfound hfile => ?_⟩
    · rw [hnext]
      exact Nat.lt_succ_self _
    · rw [hcontent, update_self]
      exact hcomplete
    · rw [hentry] at hfound
      by_cases hsame : found = name
      · rw [hsame]
        exact hname
      · rw [update_of_ne hsame] at hfound
        exact absurd (store.entry_lt _ _ hfound) (Nat.lt_irrefl _)
    · rw [hname] at hfound
      cases hfound
      rw [hentry, update_self] at hfile
      exact (Option.some.inj hfile).symm
  | writes file written rest hbefore hstore hafter htemporary =>
    rw [hafter] at hdraft
    cases hdraft
    have hown := howned _ _ hbefore
    subst hstore
    refine ⟨hown.created, ?_, ?_, ?_⟩
    · rw [hfinal, FileStore.append_content_self, append_assoc]
      exact hown.complete
    · rw [htemporary]
      exact hown.named
    · rw [htemporary]
      exact hown.entered
  | publishes file written name hname hbefore hfile hcontent hnext hentry hafter =>
    rw [hafter] at hdraft
    cases hdraft

/-- Whatever a step puts under a name is complete. -/
theorem Effect.complete {store store' : CacheStore} {pid : ℕ} {task task' : Task}
    (heffect : Effect tools pid task task' store store')
    (howned : ∀ file rest, task.draft = some (file, rest) → Owned tools store pid task file rest)
    (hcomplete : ∀ name file, store.entry name = some file →
      Complete tools name (store.content file))
    {name : CacheName} {file : ℕ} (hfile : store'.entry name = some file) :
    Complete tools name (store'.content file) := by
  cases heffect with
  | shrinks hcontent _ hentry _ =>
    rw [hcontent]
    exact hcomplete name file (hentry name file hfile)
  | creates created bytes hname _ _ hcontent _ hentry _ =>
    rw [hentry] at hfile
    by_cases hsame : name = created
    · rw [hsame]
      exact complete_temporary hname
    · rw [update_of_ne hsame] at hfile
      rw [hcontent, update_of_ne (Nat.ne_of_lt (store.entry_lt _ _ hfile))]
      exact hcomplete name file hfile
  | writes draft written rest hdraft hstore _ _ =>
    subst hstore
    by_cases hsame : file = draft
    · subst hsame
      exact complete_temporary ((howned file _ hdraft).named name hfile)
    · rw [FileStore.append_content_of_ne _ _ hsame]
      exact hcomplete name file hfile
  | publishes moved draft temporary htemporary hdraft hmoved hcontent _ hentry _ =>
    rw [hcontent]
    rcases hentry name file hfile with hbefore | ⟨rfl, rfl⟩
    · exact hcomplete name file hbefore
    · have hown := howned draft [] hdraft
      have hsame : file = draft := hown.entered temporary file htemporary hmoved
      have hfinal := hown.complete
      rwa [List.append_nil, ← hsame] at hfinal

/-- Texts without the separator can be told apart in a row. -/
theorem joinWith_injective {separator : UInt8} (left right : List Bytes)
    (hlength : left.length = right.length) (hleft : ∀ text ∈ left, separator ∉ text)
    (hright : ∀ text ∈ right, separator ∉ text)
    (hjoin : joinWith separator left = joinWith separator right) : left = right := by
  have hcut : ∀ (first second rest rest' : Bytes), separator ∉ first → separator ∉ second →
      first ++ separator :: rest = second ++ separator :: rest' →
        first = second ∧ rest = rest' := by
    intro first
    induction first with
    | nil =>
      intro second rest rest' _ hsecond heq
      cases second with
      | nil => exact ⟨rfl, (List.cons.inj heq).2⟩
      | cons byte later =>
        exact absurd (mem_cons.mpr (.inl (List.cons.inj heq).1)) hsecond
    | cons byte later ih =>
      intro second rest rest' hfirst hsecond heq
      cases second with
      | nil => exact absurd (mem_cons.mpr (.inl (List.cons.inj heq).1.symm)) hfirst
      | cons byte' later' =>
        obtain ⟨hbyte, htail⟩ := List.cons.inj heq
        obtain ⟨hlater, hrest⟩ := ih later' rest rest'
          (fun hmem => hfirst (mem_cons_of_mem _ hmem))
          (fun hmem => hsecond (mem_cons_of_mem _ hmem)) htail
        exact ⟨by rw [hbyte, hlater], hrest⟩
  induction left generalizing right with
  | nil => exact (length_eq_zero_iff.mp hlength.symm).symm
  | cons first rest ih =>
    cases right with
    | nil => cases hlength
    | cons second rest' =>
      have hrest : rest.length = rest'.length := Nat.succ.inj hlength
      cases rest with
      | nil =>
        have hnil : rest' = [] := length_eq_zero_iff.mp hrest.symm
        subst hnil
        exact congrArg (fun text => [text]) hjoin
      | cons next later =>
        cases rest' with
        | nil => cases hrest
        | cons next' later' =>
          obtain ⟨hfirst, htail⟩ := hcut first second _ _
            (hleft first mem_cons_self) (hright second mem_cons_self) hjoin
          have hlater := ih (next' :: later') hrest
            (fun text hmem => hleft text (mem_cons_of_mem _ hmem))
            (fun text hmem => hright text (mem_cons_of_mem _ hmem)) htail
          rw [hfirst, hlater]

theorem keyTexts_text (hlawful : tools.Lawful) (pipeline : Pipeline) (input : ModuleInput) :
    ∀ text ∈ [moduleSummarySchema, oxcVersion, pipeline.sha256, pipeline.policyFingerprint,
      input.moduleKey, tools.hashBytes input.source], 0 ∉ text := by
  intro text htext
  simp only [mem_cons, not_mem_nil, or_false] at htext
  rcases htext with rfl | rfl | rfl | rfl | rfl | rfl
  · decide
  · decide
  · exact pipeline.sha256_text
  · exact pipeline.policyFingerprint_text
  · exact input.moduleKey_text
  · exact hlawful.hash_text _

/-- A cache key tells the build, the module and its source. -/
theorem moduleSummaryCacheKey_injective (hlawful : tools.Lawful) {pipeline pipeline' : Pipeline}
    {input input' : ModuleInput} (hkey : moduleSummaryCacheKey tools pipeline input =
      moduleSummaryCacheKey tools pipeline' input') : pipeline = pipeline' ∧ input = input' := by
  have htexts : [moduleSummarySchema, oxcVersion, pipeline.sha256, pipeline.policyFingerprint,
      input.moduleKey, tools.hashBytes input.source] =
      [moduleSummarySchema, oxcVersion, pipeline'.sha256, pipeline'.policyFingerprint,
        input'.moduleKey, tools.hashBytes input'.source] :=
    joinWith_injective _ _ rfl (keyTexts_text hlawful pipeline input)
      (keyTexts_text hlawful pipeline' input') (hlawful.hash_injective hkey)
  simp only [List.cons.injEq, and_true, true_and] at htexts
  obtain ⟨hsha, hpolicy, hmodule, hsource⟩ := htexts
  have hsourceEq := hlawful.hash_injective hsource
  cases pipeline
  cases pipeline'
  cases input
  cases input'
  subst hsha hpolicy hmodule hsourceEq
  exact ⟨rfl, rfl⟩

variable {cache : Cache}

theorem setTask_task {pid worker pid' worker' : ℕ} {task : Option Task} :
    (cache.setTask pid worker task).task pid' worker' =
      if pid' = pid ∧ worker' = worker then task else cache.task pid' worker' := by
  change update cache.task pid (update (cache.task pid) worker task) pid' worker' = _
  by_cases hpid : pid' = pid
  · subst hpid
    rw [update_self]
    by_cases hworker : worker' = worker
    · subst hworker
      rw [update_self, if_pos ⟨rfl, rfl⟩]
    · rw [update_of_ne hworker, if_neg (fun heq => hworker heq.2)]
  · rw [update_of_ne hpid, if_neg (fun heq => hpid heq.1)]

/-- A task is the one that was set, or was there before. -/
theorem task_of_setTask {pid worker pid' worker' : ℕ} {task found : Task}
    (hfound : (cache.setTask pid worker (some task)).task pid' worker' = some found) :
    pid' = pid ∧ worker' = worker ∧ found = task ∨
      ¬ (pid' = pid ∧ worker' = worker) ∧ cache.task pid' worker' = some found := by
  rw [setTask_task] at hfound
  split at hfound
  case isTrue hsame => exact .inl ⟨hsame.1, hsame.2, (Option.some.inj hfound).symm⟩
  case isFalse hother => exact .inr ⟨hother, hfound⟩

variable {process : Process}

theorem draft_of_mayBegin {pid : ℕ} {task : Task} (hbegin : cache.MayBegin pid process task) :
    task.draft = none := by
  cases task with
  | load =>
    cases hbegin.1
    rfl
  | publish =>
    cases hbegin
    rfl

theorem temporary_of_mayBegin (hlawful : tools.Lawful) {pid worker : ℕ} {task other : Task}
    {name : CacheName} (hbegin : cache.MayBegin pid process task)
    (hother : cache.task pid worker = some other) (hname : task.temporary tools pid = some name) :
    other.temporary tools pid ≠ some name := by
  intro hsame
  cases task with
  | publish =>
    cases hbegin
    cases hname
  | load pipeline input phase =>
    cases hname
    cases other with
    | publish =>
      obtain ⟨_, _, heq⟩ := Option.map_eq_some_iff.mp hsame
      cases heq
    | load pipeline' input' phase' =>
      have hkey := (CacheName.summaryTemporary.inj (Option.some.inj hsame)).1
      obtain ⟨_, rfl⟩ := moduleSummaryCacheKey_injective hlawful hkey
      exact hbegin.2.2 worker pipeline' input' phase' hother rfl

theorem intact_initial : Intact tools .initial where
  complete := fun _ _ hentry => nomatch hentry
  running := fun _ _ _ htask => nomatch htask
  distinct := fun _ _ _ _ _ _ htask => nomatch htask
  owned := fun _ _ _ _ _ htask => nomatch htask
  separate := fun _ _ _ _ _ _ _ _ _ htask => nomatch htask

/-- Fewer tasks and fewer entries keep the cache intact. -/
theorem Intact.of_fewer {cache cache' : Cache} (hintact : Intact tools cache)
    (hcontent : cache'.store.content = cache.store.content)
    (hnext : cache'.store.next = cache.store.next)
    (hentry : ∀ name file, cache'.store.entry name = some file → cache.store.entry name = some file)
    (htask : ∀ pid worker task, cache'.task pid worker = some task →
      cache.task pid worker = some task ∧
        ∀ process, cache.process pid = some process → cache'.process pid = some process) :
    Intact tools cache' := by
  refine ⟨?_, ?_, ?_, ?_, ?_⟩
  · intro name file hfile
    rw [hcontent]
    exact hintact.complete name file (hentry name file hfile)
  · intro pid worker task hsome
    obtain ⟨hbefore, hprocess⟩ := htask pid worker task hsome
    obtain ⟨process, hrunning, hbound⟩ := hintact.running pid worker task hbefore
    exact ⟨process, hprocess process hrunning, hbound⟩
  · intro pid worker worker' task task' name hsome hsome'
    exact hintact.distinct pid worker worker' task task' name (htask _ _ _ hsome).1
      (htask _ _ _ hsome').1
  · intro pid worker task draft remaining hsome hdraft
    exact (hintact.owned pid worker task draft remaining (htask _ _ _ hsome).1
      hdraft).of_shrinks hcontent hnext hentry
  · intro pid worker pid' worker' task task' draft remaining remaining' hsome hsome'
    exact hintact.separate pid worker pid' worker' task task' draft remaining remaining'
      (htask _ _ _ hsome).1 (htask _ _ _ hsome').1

theorem Intact.start (hlawful : tools.Lawful) {cache : Cache} {pid worker : ℕ}
    {process : Process} {task : Task} (hintact : Intact tools cache)
    (hprocess : cache.process pid = some process) (hbegin : cache.MayBegin pid process task) :
    Intact tools (cache.setTask pid worker (some task)) := by
  have hdraft := draft_of_mayBegin hbegin
  refine ⟨hintact.complete, ?_, ?_, ?_, ?_⟩
  · intro pid' worker' found hfound
    rcases task_of_setTask hfound with ⟨rfl, rfl, rfl⟩ | ⟨_, hbefore⟩
    · refine ⟨process, hprocess, fun digest sequence hname => ?_⟩
      cases found with
      | load => cases hname
      | publish =>
        cases hbegin
        cases hname
    · exact hintact.running pid' worker' found hbefore
  · intro pid' worker' worker'' found found' name hfound hfound' hname hname'
    rcases task_of_setTask hfound with ⟨rfl, rfl, rfl⟩ | ⟨_, hbefore⟩
    · rcases task_of_setTask hfound' with ⟨_, rfl, _⟩ | ⟨_, hbefore'⟩
      · rfl
      · exact absurd hname' (temporary_of_mayBegin hlawful hbegin hbefore' hname)
    · rcases task_of_setTask hfound' with ⟨rfl, rfl, rfl⟩ | ⟨_, hbefore'⟩
      · exact absurd hname (temporary_of_mayBegin hlawful hbegin hbefore hname')
      · exact hintact.distinct pid' worker' worker'' found found' name hbefore hbefore' hname hname'
  · intro pid' worker' found draft remaining hfound hsome
    rcases task_of_setTask hfound with ⟨rfl, rfl, rfl⟩ | ⟨_, hbefore⟩
    · rw [hdraft] at hsome
      cases hsome
    · exact hintact.owned pid' worker' found draft remaining hbefore hsome
  · intro pid' worker' pid'' worker'' found found' draft remaining remaining' hfound hfound'
      hsome hsome'
    rcases task_of_setTask hfound with ⟨rfl, rfl, rfl⟩ | ⟨_, hbefore⟩
    · rw [hdraft] at hsome
      cases hsome
    · rcases task_of_setTask hfound' with ⟨rfl, rfl, rfl⟩ | ⟨_, hbefore'⟩
      · rw [hdraft] at hsome'
        cases hsome'
      · exact hintact.separate pid' worker' pid'' worker'' found found' draft remaining
          remaining' hbefore hbefore' hsome hsome'

/-- A process that runs a step keeps all tasks but the one that steps. -/
theorem Intact.run {pid worker chunk temporaries : ℕ} {store : CacheStore}
    (hintact : Intact tools cache) (hprocess : cache.process pid = some process)
    (hrunning : cache.task pid worker = some task)
    (hstep : taskStep tools pid chunk cache.store process.temporaries task =
      some (store, temporaries, task')) :
    Intact tools { cache.setTask pid worker (some task') with
      store := store
      process := update cache.process pid (some { process with temporaries }) } := by
  have heffect := taskStep_effect hstep
  have hfinal := taskStep_final hstep
  have htemporary := taskStep_temporary hstep
  have hown : ∀ file rest, task.draft = some (file, rest) →
      Owned tools cache.store pid task file rest := fun file rest =>
    hintact.owned pid worker task file rest hrunning
  have hdrawn : ∀ worker' found name, cache.task pid worker' = some found →
      ¬ (pid = pid ∧ worker' = worker) → task'.temporary tools pid = some name →
        found.temporary tools pid ≠ some name := by
    intro worker' found name hfound hother hname hsame
    rcases htemporary with ⟨_, hkept | hnone⟩ | ⟨_, digest, hnew⟩
    · rw [hkept] at hname
      exact hother ⟨rfl, hintact.distinct pid worker' worker found task name hfound hrunning
        hsame hname⟩
    · rw [hnone] at hname
      cases hname
    · rw [hnew] at hname
      cases hname
      obtain ⟨process', hprocess', hbound⟩ := hintact.running pid worker' found hfound
      rw [hprocess] at hprocess'
      cases hprocess'
      exact Nat.lt_irrefl _ (hbound digest _ hsame)
  have hfresh : ∀ file rest, task'.draft = some (file, rest) →
      (∃ remaining, task.draft = some (file, remaining)) ∨ file = cache.store.next := by
    intro file rest hdraft
    cases heffect with
    | shrinks _ _ _ hkept =>
      rcases hkept with hnone | ⟨hsame, _⟩
      · rw [hnone] at hdraft
        cases hdraft
      · exact .inl ⟨rest, hsame.symm.trans hdraft⟩
    | creates _ _ _ _ _ _ _ _ hcreated =>
      rw [hcreated] at hdraft
      cases hdraft
      exact .inr rfl
    | writes written _ _ hbefore _ hafter _ =>
      rw [hafter] at hdraft
      cases hdraft
      exact .inl ⟨_, hbefore⟩
    | publishes _ _ _ _ _ _ _ _ _ hafter =>
      rw [hafter] at hdraft
      cases hdraft
  have hapart : ∀ pid' worker' found draft remaining file rest,
      cache.task pid' worker' = some found → ¬ (pid' = pid ∧ worker' = worker) →
        found.draft = some (draft, remaining) → task'.draft = some (file, rest) →
          file ≠ draft := by
    intro pid' worker' found draft remaining file rest hfound hother hdraft hdraft'
    rcases hfresh file rest hdraft' with ⟨before, hbefore⟩ | rfl
    · rintro rfl
      exact hother (hintact.separate pid' worker' pid worker found task file remaining before
        hfound hrunning hdraft hbefore)
    · exact (Nat.ne_of_lt
        (hintact.owned pid' worker' found draft remaining hfound hdraft).created).symm
  refine ⟨fun name file hfile => heffect.complete hown hintact.complete hfile, ?_, ?_, ?_, ?_⟩
  · intro pid' worker' found hfound
    by_cases hpid : pid' = pid
    · subst hpid
      refine ⟨{ process with temporaries }, update_self .., fun digest sequence hname => ?_⟩
      have hgrows : process.temporaries ≤ temporaries := by
        rcases htemporary with ⟨hsame, _⟩ | ⟨hmore, _⟩
        · exact le_of_eq hsame.symm
        · exact hmore ▸ Nat.le_succ _
      have hbound : ∀ other worker'', cache.task pid' worker'' = some other →
          other.temporary tools pid' = some (.generatedTemporary digest pid' sequence) →
            sequence < temporaries := by
        intro other worker'' hother hsame
        obtain ⟨process', hprocess', hlt⟩ := hintact.running pid' worker'' other hother
        rw [hprocess] at hprocess'
        cases hprocess'
        exact lt_of_lt_of_le (hlt digest sequence hsame) hgrows
      rcases task_of_setTask hfound with ⟨_, _, rfl⟩ | ⟨_, hbefore⟩
      · rcases htemporary with ⟨_, hkept | hnone⟩ | ⟨hmore, digest', hnew⟩
        · exact hbound task worker hrunning (hkept ▸ hname)
        · rw [hnone] at hname
          cases hname
        · rw [hnew] at hname
          cases hname
          exact hmore ▸ Nat.lt_succ_self _
      · exact hbound found worker' hbefore hname
    · rcases task_of_setTask hfound with ⟨hsame, _⟩ | ⟨_, hbefore⟩
      · exact absurd hsame hpid
      · obtain ⟨process', hprocess', hbound⟩ := hintact.running pid' worker' found hbefore
        exact ⟨process', (update_of_ne hpid ..).trans hprocess', hbound⟩
  · intro pid' worker' worker'' found found' name hfound hfound' hname hname'
    rcases task_of_setTask hfound with ⟨rfl, rfl, rfl⟩ | ⟨hother, hbefore⟩
    · rcases task_of_setTask hfound' with ⟨_, rfl, _⟩ | ⟨hother', hbefore'⟩
      · rfl
      · exact absurd hname' (hdrawn worker'' found' name hbefore' hother' hname)
    · rcases task_of_setTask hfound' with ⟨rfl, rfl, rfl⟩ | ⟨_, hbefore'⟩
      · exact absurd hname (hdrawn worker' found name hbefore hother hname')
      · exact hintact.distinct pid' worker' worker'' found found' name hbefore hbefore' hname hname'
  · intro pid' worker' found draft remaining hfound hdraft
    rcases task_of_setTask hfound with ⟨rfl, rfl, rfl⟩ | ⟨hother, hbefore⟩
    · exact Owned.step heffect hfinal hown hdraft
    · refine (hintact.owned pid' worker' found draft remaining hbefore hdraft).of_effect heffect
        ?_ ?_
      · intro file rest hbeforeDraft
        refine ⟨fun hsame => ?_, hown file rest hbeforeDraft⟩
        subst hsame
        exact hother (hintact.separate pid' worker' pid worker found task file remaining rest
          hbefore hrunning hdraft hbeforeDraft)
      · intro name hname hsame
        have hpid := temporary_pid hsame hname
        subst hpid
        exact hdrawn worker' found name hbefore hother hname hsame
  · intro pid' worker' pid'' worker'' found found' draft remaining remaining' hfound hfound'
      hdraft hdraft'
    rcases task_of_setTask hfound with ⟨rfl, rfl, rfl⟩ | ⟨hother, hbefore⟩
    · rcases task_of_setTask hfound' with ⟨rfl, rfl, rfl⟩ | ⟨hother', hbefore'⟩
      · exact ⟨rfl, rfl⟩
      · exact absurd rfl (hapart pid'' worker'' found' draft remaining' draft remaining
          hbefore' hother' hdraft' hdraft)
    · rcases task_of_setTask hfound' with ⟨rfl, rfl, rfl⟩ | ⟨_, hbefore'⟩
      · exact absurd rfl (hapart pid' worker' found draft remaining draft remaining'
          hbefore hother hdraft hdraft')
      · exact hintact.separate pid' worker' pid'' worker'' found found' draft remaining
          remaining' hbefore hbefore' hdraft hdraft'

/-- Every step of the compilers keeps the cache intact. -/
theorem Intact.step (hlawful : tools.Lawful) {cache cache' : Cache}
    (hintact : Intact tools cache) (hstep : Step tools cache cache') : Intact tools cache' := by
  cases hstep with
  | spawn pid pipeline hfree =>
    refine hintact.of_fewer rfl rfl (fun _ _ hentry => hentry) fun pid' worker task htask => ?_
    refine ⟨htask, fun process hprocess => ?_⟩
    have hother : pid' ≠ pid := by
      rintro rfl
      rw [hfree] at hprocess
      cases hprocess
    exact (update_of_ne hother ..).trans hprocess
  | exit pid =>
    refine hintact.of_fewer rfl rfl (fun _ _ hentry => hentry) fun pid' worker task htask => ?_
    have hother : pid' ≠ pid := by
      rintro rfl
      change update cache.task pid' (fun _ => none) pid' worker = some task at htask
      rw [update_self] at htask
      cases htask
    change update cache.task pid (fun _ => none) pid' worker = some task at htask
    rw [update_of_ne hother] at htask
    exact ⟨htask, fun process hprocess => (update_of_ne hother ..).trans hprocess⟩
  | start pid worker task hprocess _ hbegin => exact hintact.start hlawful hprocess hbegin
  | run pid worker chunk hprocess htask hnext => exact hintact.run hprocess htask hnext
  | finish pid worker hprocess htask hstuck =>
    refine hintact.of_fewer rfl rfl (fun _ _ hentry => hentry) fun pid' worker' found hfound => ?_
    rw [setTask_task] at hfound
    split at hfound
    case isTrue => cases hfound
    case isFalse => exact ⟨hfound, fun _ hprocess => hprocess⟩
  | prune name hname hunlink =>
    obtain ⟨hentry, hcontent, hnext⟩ := FileStore.unlink_eq_some hunlink
    refine hintact.of_fewer hcontent hnext (fun other file hfile => ?_)
      fun _ _ _ htask => ⟨htask, fun _ hprocess => hprocess⟩
    rw [hentry] at hfile
    exact update_none_some hfile

theorem intact_of_reachable (hlawful : tools.Lawful)
    (hreachable : TransitionSystem.Reachable (· = .initial) (Step tools) cache) :
    Intact tools cache :=
  hreachable.invariant (by rintro _ rfl; exact intact_initial)
    fun _ _ hintact hstep => hintact.step hlawful hstep

end ConvexWasm.Compiler.CachePublication
