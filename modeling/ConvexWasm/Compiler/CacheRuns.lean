import ConvexWasm.Compiler.CacheAvailability

/-!
# Runs of the compilers

A process id that comes back finds the temporaries that its last owner left
behind.  As long as no id with temporaries is used again, every temporary of a
living process belongs to one of its calls, and every call succeeds.
-/

namespace ConvexWasm.Compiler.CachePublication

open Function Option TransitionSystem

/-- A temporary under the id of a process. -/
def TemporaryOf (pid : ℕ) (name : CacheName) : Prop :=
  (∃ cacheKey, name = .summaryTemporary cacheKey pid) ∨
    ∃ digest sequence, name = .generatedTemporary digest pid sequence

/-- The calls whose temporary may be there. -/
def Task.holding : Task → Bool
  | .load _ _ (.writing _ _) => true
  | .load _ _ (.publish _) => true
  | .load _ _ _ => false
  | .publish _ (.create _) => false
  | .publish _ phase => phase.sequence.isSome

section Tools

variable {Facts : Type} (tools : Tools Facts)

/-- A step that starts no process under an id that left temporaries behind. -/
def FreshStep (cache cache' : Cache) : Prop :=
  Step tools cache cache' ∧ ∀ pid, cache.process pid = none → cache'.process pid ≠ none →
    ∀ name, TemporaryOf pid name → cache.store.entry name = none

/-- Every temporary of a living process belongs to one of its calls. -/
def Accounted (cache : Cache) : Prop :=
  ∀ pid process name, cache.process pid = some process → TemporaryOf pid name →
    cache.store.entry name ≠ none → ∃ worker task, cache.task pid worker = some task ∧
      task.holding = true ∧ task.temporary tools pid = some name

end Tools

variable {Facts : Type} {tools : Tools Facts}

variable {name : CacheName}

theorem temporaryOf_temporary {pid : ℕ} {task : Task}
    (hname : task.temporary tools pid = some name) : TemporaryOf pid name := by
  cases task with
  | load =>
    cases hname
    exact .inl ⟨_, rfl⟩
  | publish =>
    obtain ⟨_, _, rfl⟩ := Option.map_eq_some_iff.mp hname
    exact .inr ⟨_, _, rfl⟩

theorem TemporaryOf.unique {pid pid' : ℕ} (hname : TemporaryOf pid name)
    (hname' : TemporaryOf pid' name) : pid = pid' := by
  rcases hname with ⟨_, rfl⟩ | ⟨_, _, rfl⟩
  · rcases hname' with ⟨_, heq⟩ | ⟨_, _, heq⟩
    · exact (CacheName.summaryTemporary.inj heq).2
    · cases heq
  · rcases hname' with ⟨_, heq⟩ | ⟨_, _, heq⟩
    · cases heq
    · exact (CacheName.generatedTemporary.inj heq).2.1

theorem TemporaryOf.ne_summary {pid : ℕ} (hname : TemporaryOf pid name) (cacheKey : Bytes) :
    name ≠ .summary cacheKey := by
  rcases hname with ⟨_, rfl⟩ | ⟨_, _, rfl⟩ <;> exact fun heq => nomatch heq

theorem TemporaryOf.ne_generated {pid : ℕ} (hname : TemporaryOf pid name) (digest : Bytes) :
    name ≠ .generated digest := by
  rcases hname with ⟨_, rfl⟩ | ⟨_, _, rfl⟩ <;> exact fun heq => nomatch heq

variable {pipeline : Pipeline} {input : ModuleInput} {store store' : CacheStore} {pid' : ℕ}

/-- A temporary that is there after a step belongs to the call that stepped, or
was there before and belonged to another. -/
theorem loadStep_holding {pid chunk : ℕ} {phase phase' : LoadPhase}
    (howned : ∀ file rest, (Task.load pipeline input phase).draft = some (file, rest) →
      Owned tools store pid (.load pipeline input phase) file rest)
    (hstep : loadStep tools pipeline input pid chunk store phase = some (store', phase'))
    (hname : TemporaryOf pid' name) (hentry : store'.entry name ≠ none) :
    (Task.load pipeline input phase').holding = true ∧
        (Task.load pipeline input phase').temporary tools pid = some name ∨
      store.entry name ≠ none ∧ ((Task.load pipeline input phase).holding = true →
        (Task.load pipeline input phase).temporary tools pid ≠ some name) := by
  cases phase with
  | lookup | inspected | opened | read | touch | touchInspected | touched | touchOpened
    | renameFailed =>
      simp only [loadStep] at hstep
      repeat' split at hstep
      all_goals
        cases hstep
        exact .inr ⟨hentry, fun hholding => absurd hholding Bool.false_ne_true⟩
  | create =>
    simp only [loadStep] at hstep
    split at hstep
    case h_1 =>
      cases hstep
      exact .inr ⟨hentry, fun hholding => absurd hholding Bool.false_ne_true⟩
    case h_2 summary hsummary =>
      split at hstep
      case h_1 =>
        cases hstep
        exact .inr ⟨hentry, fun hholding => absurd hholding Bool.false_ne_true⟩
      case h_2 file created hcreate =>
        cases hstep
        obtain ⟨_, _, _, _, hentries⟩ := FileStore.createNew_eq_some hcreate
        by_cases hsame : name = .summaryTemporary (moduleSummaryCacheKey tools pipeline input) pid
        · exact .inl ⟨rfl, by rw [hsame]; rfl⟩
        · rw [hentries, update_of_ne hsame] at hentry
          exact .inr ⟨hentry, fun hholding => absurd hholding Bool.false_ne_true⟩
  | writing file remaining =>
    by_cases htemporary : (Task.load pipeline input (.writing file remaining)).temporary
        tools pid = some name
    · cases remaining with
      | nil | cons =>
        cases hstep
        exact .inl ⟨rfl, htemporary⟩
    · cases remaining with
      | nil | cons =>
        cases hstep
        exact .inr ⟨hentry, fun _ => htemporary⟩
  | publish file =>
    have hown := howned file [] rfl
    simp only [loadStep] at hstep
    split at hstep
    case h_1 renamed hrename =>
      cases hstep
      obtain ⟨moved, hmoved, ⟨hsame, rfl⟩ | ⟨_, _, _, hentries⟩⟩ := FileStore.rename_eq_some hrename
      · have hdraft := hown.entered _ moved rfl hmoved
        rw [hdraft] at hsame
        have hfinal := hown.named _ hsame
        exact absurd rfl ((temporaryOf_temporary hfinal).ne_summary _)
      · rw [hentries, update_of_ne (hname.ne_summary _)] at hentry
        by_cases hsame : name = .summaryTemporary (moduleSummaryCacheKey tools pipeline input) pid
        · rw [hsame, update_self] at hentry
          exact absurd rfl hentry
        · rw [update_of_ne hsame] at hentry
          exact .inr ⟨hentry, fun _ heq => hsame (Option.some.inj heq).symm⟩
    case h_2 hrename =>
      cases hstep
      refine .inr ⟨hentry, fun _ heq => ?_⟩
      cases heq
      exact hentry (FileStore.rename_eq_none_iff.mp hrename)
  | discard =>
    simp only [loadStep] at hstep
    split at hstep
    case h_1 removed hunlink =>
      cases hstep
      obtain ⟨hentries, _, _⟩ := FileStore.unlink_eq_some hunlink
      refine .inr ⟨fun hnone => hentry ?_, fun hholding => absurd hholding Bool.false_ne_true⟩
      rw [hentries]
      by_cases hsame : name = .summaryTemporary (moduleSummaryCacheKey tools pipeline input) pid
      · rw [hsame, update_self]
      · rw [update_of_ne hsame, hnone]
    case h_2 =>
      cases hstep
      exact .inr ⟨hentry, fun hholding => absurd hholding Bool.false_ne_true⟩
  | finished succeeded => cases hstep

variable {source : Bytes}

theorem holding_validated (passed : Bool) (reason : Validation) :
    (Task.publish source (validated passed reason)).holding = reason.sequence.isSome := by
  cases reason <;> rfl

variable {pid chunk temporaries temporaries' : ℕ}

theorem publishStep_holding {phase phase' : PublishPhase}
    (hstep : publishStep tools source pid chunk store temporaries phase =
      some (store', temporaries', phase')) (hname : TemporaryOf pid' name)
    (hentry : store'.entry name ≠ none) :
    (Task.publish source phase').holding = true ∧
        (Task.publish source phase').temporary tools pid = some name ∨
      store.entry name ≠ none ∧ ((Task.publish source phase).holding = true →
        (Task.publish source phase).temporary tools pid ≠ some name) := by
  have hkept : (Task.publish source phase').holding = (Task.publish source phase).holding →
      phase'.sequence = phase.sequence → store'.entry name = store.entry name →
      (Task.publish source phase').holding = true ∧
        (Task.publish source phase').temporary tools pid = some name ∨
      store.entry name ≠ none ∧ ((Task.publish source phase).holding = true →
        (Task.publish source phase).temporary tools pid ≠ some name) := by
    intro hholding hsequence hsame
    rw [hholding, publish_temporary_congr hsequence]
    rw [hsame] at hentry
    by_cases hheld : (Task.publish source phase).holding = true ∧
        (Task.publish source phase).temporary tools pid = some name
    · exact .inl hheld
    · exact .inr ⟨hentry, fun htrue heq => hheld ⟨htrue, heq⟩⟩
  cases phase with
  | lookup =>
    simp only [publishStep] at hstep
    split at hstep
    all_goals
      cases hstep
      exact .inr ⟨hentry, fun hholding => absurd hholding Bool.false_ne_true⟩
  | validate reason | inspected reason | opened reason =>
    simp only [publishStep] at hstep
    repeat' split at hstep
    all_goals
      cases hstep
      exact hkept (by first | rfl | exact holding_validated _ _)
        (by first | rfl | exact sequence_validated _ _) rfl
  | create sequence =>
    simp only [publishStep] at hstep
    split at hstep
    case h_1 =>
      cases hstep
      exact .inr ⟨hentry, fun hholding => absurd hholding Bool.false_ne_true⟩
    case h_2 file created hcreate =>
      cases hstep
      obtain ⟨_, _, _, _, hentries⟩ := FileStore.createNew_eq_some hcreate
      by_cases hsame : name = .generatedTemporary (tools.hashBytes source) pid sequence
      · exact .inl ⟨rfl, by rw [hsame]; rfl⟩
      · rw [hentries, update_of_ne hsame] at hentry
        exact .inr ⟨hentry, fun hholding => absurd hholding Bool.false_ne_true⟩
  | writing sequence file remaining =>
    cases remaining with
    | nil | cons =>
      cases hstep
      exact hkept rfl rfl rfl
  | link sequence file =>
    simp only [publishStep] at hstep
    split at hstep
    case h_1 linked hlink =>
      cases hstep
      obtain ⟨moved, _, _, _, _, hentries⟩ := FileStore.hardLink_eq_ok hlink
      refine hkept rfl rfl ?_
      rw [hentries, update_of_ne (hname.ne_generated _)]
    all_goals
      cases hstep
      exact hkept rfl rfl rfl
  | cleanup sequence published =>
    cases hstep
    by_cases hsame : name = .generatedTemporary (tools.hashBytes source) pid sequence
    · subst hsame
      cases hunlink : store.unlink (.generatedTemporary (tools.hashBytes source) pid sequence) with
      | none =>
        rw [hunlink] at hentry
        exact absurd (FileStore.unlink_eq_none_iff.mp hunlink) hentry
      | some removed =>
        obtain ⟨hentries, _, _⟩ := FileStore.unlink_eq_some hunlink
        rw [hunlink, getD_some, hentries, update_self] at hentry
        exact absurd rfl hentry
    · refine .inr ⟨fun hnone => hentry ?_, fun _ heq => hsame (Option.some.inj heq).symm⟩
      cases hunlink : store.unlink (.generatedTemporary (tools.hashBytes source) pid sequence) with
      | none => exact hnone
      | some removed =>
        obtain ⟨hentries, _, _⟩ := FileStore.unlink_eq_some hunlink
        rw [getD_some, hentries, update_of_ne hsame, hnone]
  | finished succeeded => cases hstep

variable {task task' : Task}

theorem taskStep_holding (howned : ∀ file rest, task.draft = some (file, rest) →
      Owned tools store pid task file rest)
    (hstep : taskStep tools pid chunk store temporaries task =
      some (store', temporaries', task')) (hname : TemporaryOf pid' name)
    (hentry : store'.entry name ≠ none) :
    task'.holding = true ∧ task'.temporary tools pid = some name ∨
      store.entry name ≠ none ∧
        (task.holding = true → task.temporary tools pid ≠ some name) := by
  cases task with
  | load pipeline input phase =>
    obtain ⟨⟨_, _⟩, hphase, heq⟩ := Option.map_eq_some_iff.mp hstep
    cases heq
    exact loadStep_holding howned hphase hname hentry
  | publish source phase =>
    obtain ⟨⟨_, _, _⟩, hphase, heq⟩ := Option.map_eq_some_iff.mp hstep
    cases heq
    exact publishStep_holding hphase hname hentry

/-- A call that holds a temporary goes on. -/
theorem not_holding_of_stuck {pid chunk temporaries : ℕ} {store : CacheStore} {task : Task}
    (hstuck : taskStep tools pid chunk store temporaries task = none) : task.holding = false := by
  cases task with
  | load pipeline input phase =>
    have hphase := Option.map_eq_none_iff.mp hstuck
    cases phase with
    | writing file remaining => cases remaining <;> cases hphase
    | publish file =>
      simp only [loadStep] at hphase
      split at hphase <;> cases hphase
    | _ => rfl
  | publish source phase =>
    have hphase := Option.map_eq_none_iff.mp hstuck
    cases phase with
    | writing sequence file remaining => cases remaining <;> cases hphase
    | link | validate | inspected =>
      simp only [publishStep] at hphase
      split at hphase <;> cases hphase
    | opened | cleanup => cases hphase
    | _ => rfl

variable {cache cache' : Cache}

/-- Tasks and entries may go as long as the holders of what is left stay. -/
theorem Accounted.of_fewer (haccounted : Accounted tools cache)
    (hprocess : ∀ pid process name, cache'.process pid = some process →
      TemporaryOf pid name → cache'.store.entry name ≠ none →
        ∃ before, cache.process pid = some before)
    (hentry : ∀ name, cache'.store.entry name ≠ none → cache.store.entry name ≠ none)
    (htask : ∀ pid process worker task, cache'.process pid = some process →
      cache.task pid worker = some task → task.holding = true →
        cache'.task pid worker = some task) : Accounted tools cache' := by
  intro pid process name hliving hname hthere
  obtain ⟨before, hbefore⟩ := hprocess pid process name hliving hname hthere
  obtain ⟨worker, task, hrunning, hholding, htemporary⟩ :=
    haccounted pid before name hbefore hname (hentry name hthere)
  exact ⟨worker, task, htask pid process worker task hliving hrunning hholding, hholding,
    htemporary⟩

theorem Accounted.run {cache : Cache} {pid worker chunk temporaries : ℕ} {process : Process}
    {store : CacheStore} (hintact : Intact tools cache) (haccounted : Accounted tools cache)
    (hprocess : cache.process pid = some process) (hrunning : cache.task pid worker = some task)
    (hstep : taskStep tools pid chunk cache.store process.temporaries task =
      some (store, temporaries, task')) :
    Accounted tools { cache.setTask pid worker (some task') with
      store := store
      process := update cache.process pid (some { process with temporaries }) } := by
  intro pid' process' name hliving hname hentry
  have hown : ∀ file rest, task.draft = some (file, rest) →
      Owned tools cache.store pid task file rest := fun file rest =>
    hintact.owned pid worker task file rest hrunning
  rcases taskStep_holding hown hstep hname hentry with ⟨hholding, htemporary⟩ | ⟨hthere, hfree⟩
  · have hpid := hname.unique (temporaryOf_temporary htemporary)
    subst hpid
    refine ⟨worker, task', ?_, hholding, htemporary⟩
    exact setTask_task.trans (if_pos ⟨rfl, rfl⟩)
  · have hbefore : ∃ before, cache.process pid' = some before := by
      by_cases hpid : pid' = pid
      · exact ⟨process, hpid ▸ hprocess⟩
      · exact ⟨process', (update_of_ne hpid ..).symm.trans hliving⟩
    obtain ⟨before, hbefore⟩ := hbefore
    obtain ⟨holder, held, hheld, hholding, htemporary⟩ :=
      haccounted pid' before name hbefore hname hthere
    refine ⟨holder, held, setTask_task.trans ((if_neg ?_).trans hheld), hholding, htemporary⟩
    rintro ⟨rfl, rfl⟩
    rw [hrunning] at hheld
    cases hheld
    exact hfree hholding htemporary

theorem Accounted.step (hintact : Intact tools cache) (haccounted : Accounted tools cache)
    (hstep : FreshStep tools cache cache') : Accounted tools cache' := by
  obtain ⟨hstep, hfresh⟩ := hstep
  cases hstep with
  | spawn pid pipeline hfree =>
    refine haccounted.of_fewer (fun pid' process name hliving hname hentry => ?_)
      (fun _ hentry => hentry) (fun _ _ _ _ _ htask _ => htask)
    by_cases hpid : pid' = pid
    · subst hpid
      refine absurd (hfresh pid' hfree ?_ name hname) hentry
      simp
    · exact ⟨process, (update_of_ne hpid ..).symm.trans hliving⟩
  | exit pid =>
    have hother : ∀ pid' process,
        update cache.process pid none pid' = some process → pid' ≠ pid := by
      rintro pid' process hliving rfl
      rw [update_self] at hliving
      cases hliving
    refine haccounted.of_fewer (fun pid' process _ hliving _ _ => ?_)
      (fun _ hentry => hentry) (fun pid' process worker task hliving htask _ => ?_)
    · exact ⟨process, (update_of_ne (hother pid' process hliving) ..).symm.trans hliving⟩
    · change update cache.task pid (fun _ => none) pid' worker = some task
      rw [update_of_ne (hother pid' process hliving)]
      exact htask
  | start pid worker task hprocess hidle hbegin =>
    refine haccounted.of_fewer (fun _ process _ hliving _ _ => ⟨process, hliving⟩)
      (fun _ hentry => hentry) (fun pid' _ worker' found _ hfound _ => ?_)
    refine setTask_task.trans ((if_neg ?_).trans hfound)
    rintro ⟨rfl, rfl⟩
    rw [hidle] at hfound
    cases hfound
  | run pid worker chunk hprocess hrunning hnext =>
    exact haccounted.run hintact hprocess hrunning hnext
  | finish pid worker hprocess hrunning hstuck =>
    refine haccounted.of_fewer (fun _ process _ hliving _ _ => ⟨process, hliving⟩)
      (fun _ hentry => hentry) (fun pid' _ worker' found _ hfound hholding => ?_)
    refine setTask_task.trans ((if_neg ?_).trans hfound)
    rintro ⟨rfl, rfl⟩
    rw [hrunning] at hfound
    cases hfound
    rw [not_holding_of_stuck (hstuck 0)] at hholding
    cases hholding
  | prune name hname hunlink =>
    obtain ⟨hentries, _, _⟩ := FileStore.unlink_eq_some hunlink
    refine haccounted.of_fewer (fun _ process _ hliving _ _ => ⟨process, hliving⟩)
      (fun other hentry hnone => hentry ?_) (fun _ _ _ _ _ htask _ => htask)
    rw [hentries]
    by_cases hsame : other = name
    · rw [hsame, update_self]
    · rw [update_of_ne hsame, hnone]

theorem accounted_of_reachable (hlawful : tools.Lawful) {cache : Cache}
    (hreachable : Reachable (· = .initial) (FreshStep tools) cache) :
    Intact tools cache ∧ Accounted tools cache := by
  induction hreachable with
  | start hinitial =>
    subst hinitial
    exact ⟨intact_initial, fun _ _ _ hprocess => nomatch hprocess⟩
  | next _ hstep ih => exact ⟨ih.1.step hlawful hstep.1, ih.2.step ih.1 hstep⟩

/-- When a load that runs alone meets nothing in its way: a published summary
that is not too long, or none and no temporary of its own. -/
def LoadUnobstructed (tools : Tools Facts) (pipeline : Pipeline) (input : ModuleInput)
    (pid : ℕ) (store : CacheStore) : Prop :=
  let cacheKey := moduleSummaryCacheKey tools pipeline input
  match store.entry (.summary cacheKey) with
  | some file => (store.content file).length ≤ moduleSummaryCacheMaxBytes
  | none => summarizeModule tools pipeline input ≠ none ∧
      store.entry (.summaryTemporary cacheKey pid) = none

theorem loadSucceeds_iff (hlawful : tools.Lawful) {pid : ℕ} {store : CacheStore}
    (hcomplete : ∀ name file, store.entry name = some file →
      Complete tools name (store.content file)) :
    LoadSucceeds tools pipeline input pid store .lookup ↔
      LoadUnobstructed tools pipeline input pid store := by
  rw [LoadUnobstructed]
  cases hentry : store.entry (.summary (moduleSummaryCacheKey tools pipeline input)) with
  | some file => exact loadSucceeds_hit hlawful hentry (hcomplete _ file hentry)
  | none => exact loadSucceeds_miss hentry

/-- Published files are complete in every run, and a call that runs alone
succeeds exactly when it is not obstructed.  In a run that uses no process id
with temporaries left behind again, every call succeeds whose summary can be
made and is not too long. -/
theorem cache_survives_crashes (tools : Tools Facts) (hlawful : tools.Lawful) :
    (∀ cache, Reachable (· = .initial) (Step tools) cache →
      (∀ cacheKey file, cache.store.entry (.summary cacheKey) = some file →
        ∃ pipeline input summary, moduleSummaryCacheKey tools pipeline input = cacheKey ∧
          summarizeModule tools pipeline input = some summary ∧
            cache.store.content file = tools.encode summary) ∧
      (∀ digest file, cache.store.entry (.generated digest) = some file →
        tools.hashBytes (cache.store.content file) = digest) ∧
      (∀ pid pipeline input, LoadSucceeds tools pipeline input pid cache.store .lookup ↔
        LoadUnobstructed tools pipeline input pid cache.store) ∧
      ∀ pid temporaries source,
        PublishSucceeds tools source pid cache.store temporaries .lookup ↔
          cache.store.entry (.generated (tools.hashBytes source)) ≠ none ∨
            cache.store.entry
              (.generatedTemporary (tools.hashBytes source) pid temporaries) = none) ∧
    ∀ cache, Reachable (· = .initial) (FreshStep tools) cache →
      ∀ pid process, cache.process pid = some process →
        (∀ input summary, cache.MayBegin pid process (.load process.pipeline input .lookup) →
          summarizeModule tools process.pipeline input = some summary →
          (tools.encode summary).length ≤ moduleSummaryCacheMaxBytes →
          LoadSucceeds tools process.pipeline input pid cache.store .lookup) ∧
        ∀ source,
          PublishSucceeds tools source pid cache.store process.temporaries .lookup := by
  constructor
  · intro cache hreachable
    have hcomplete := (intact_of_reachable hlawful hreachable).complete
    refine ⟨?_, fun digest file hentry => hcomplete _ file hentry,
      fun pid pipeline input => loadSucceeds_iff hlawful hcomplete,
      fun pid temporaries source => publishSucceeds_iff hlawful fun file => hcomplete _ file⟩
    exact fun cacheKey file hentry => hcomplete _ file hentry
  · intro cache hreachable pid process hprocess
    obtain ⟨hintact, haccounted⟩ := accounted_of_reachable hlawful hreachable
    constructor
    · intro input summary hbegin hsummary hlength
      rw [loadSucceeds_iff hlawful hintact.complete, LoadUnobstructed]
      cases hentry : cache.store.entry
          (.summary (moduleSummaryCacheKey tools process.pipeline input)) with
      | some file =>
        obtain ⟨pipeline', input', summary', hkey, hsummary', hcontent⟩ :=
          hintact.complete _ file hentry
        obtain ⟨hpipeline, hinput⟩ := moduleSummaryCacheKey_injective hlawful hkey
        rw [hpipeline, hinput, hsummary] at hsummary'
        cases hsummary'
        simp only [hcontent, hlength]
      | none =>
        refine ⟨by rw [hsummary]; simp, ?_⟩
        by_contra hthere
        obtain ⟨worker, task, hrunning, _, htemporary⟩ :=
          haccounted pid process _ hprocess (.inl ⟨_, rfl⟩) hthere
        exact temporary_of_mayBegin hlawful hbegin hrunning rfl htemporary
    · intro source
      rw [publishSucceeds_iff hlawful fun file => hintact.complete _ file]
      right
      by_contra hthere
      obtain ⟨worker, task, hrunning, _, htemporary⟩ :=
        haccounted pid process _ hprocess (.inr ⟨_, _, rfl⟩) hthere
      obtain ⟨process', hprocess', hbound⟩ := hintact.running pid worker task hrunning
      rw [hprocess] at hprocess'
      cases hprocess'
      exact Nat.lt_irrefl _ (hbound _ _ htemporary)

section Sample

/-- Two digits for each byte, neither of them zero. -/
def hexBytes (bytes : Bytes) : Bytes := bytes.flatMap fun byte => [byte / 16 + 1, byte % 16 + 1]

/-- A text with a mark before each byte and another at the end. -/
def packText (text : Bytes) : Bytes := text.flatMap (fun byte => [1, byte]) ++ [0]

def unpackText : Bytes → Option (Bytes × Bytes)
  | 0 :: rest => some ([], rest)
  | 1 :: byte :: rest => (unpackText rest).map fun (text, rest) => (byte :: text, rest)
  | _ => none

theorem unpackText_packText (text rest : Bytes) :
    unpackText (packText text ++ rest) = some (text, rest) := by
  induction text with
  | nil => rfl
  | cons byte later ih =>
    change (unpackText (packText later ++ rest)).map _ = _
    rw [ih]
    rfl

/-- Tools that keep a summary as its five texts. -/
def plainTools : Tools Unit where
  hashBytes := hexBytes
  encode := fun summary =>
    packText summary.kind ++ (packText summary.cacheKey ++
      (packText summary.compilerPipelineSha256 ++
        (packText summary.contextPolicyFingerprint ++ (packText summary.sourceHash ++ []))))
  decode := fun bytes => do
    let (kind, bytes) ← unpackText bytes
    let (cacheKey, bytes) ← unpackText bytes
    let (compilerPipelineSha256, bytes) ← unpackText bytes
    let (contextPolicyFingerprint, bytes) ← unpackText bytes
    let (sourceHash, _) ← unpackText bytes
    some ⟨kind, cacheKey, compilerPipelineSha256, contextPolicyFingerprint, sourceHash, ()⟩
  analyze := fun _ _ => some ()

theorem hexBytes_injective : Function.Injective hexBytes := by
  intro left
  induction left with
  | nil =>
    intro right heq
    cases right with
    | nil => rfl
    | cons => cases heq
  | cons byte rest ih =>
    intro right heq
    cases right with
    | nil => cases heq
    | cons byte' rest' =>
      change (byte / 16 + 1) :: (byte % 16 + 1) :: hexBytes rest =
        (byte' / 16 + 1) :: (byte' % 16 + 1) :: hexBytes rest' at heq
      obtain ⟨hhigh, htail⟩ := List.cons.inj heq
      obtain ⟨hlow, hrest⟩ := List.cons.inj htail
      have hbyte : byte = byte' := by
        have hbound := byte.toNat_lt
        have hbound' := byte'.toNat_lt
        rw [← UInt8.toNat_inj] at hhigh hlow ⊢
        simp at hhigh hlow
        omega
      rw [hbyte, ih hrest]

theorem plainTools_lawful : plainTools.Lawful where
  hash_injective := hexBytes_injective
  hash_text := by
    intro bytes hzero
    obtain ⟨byte, _, hdigit⟩ := List.mem_flatMap.mp hzero
    have hbound := byte.toNat_lt
    simp only [List.mem_cons, List.not_mem_nil, or_false, ← UInt8.toNat_inj] at hdigit
    simp at hdigit
    omega
  decode_encode := by
    intro summary
    have hlast := unpackText_packText summary.sourceHash []
    rw [List.append_nil] at hlast
    simp [plainTools, unpackText_packText, hlast]

def plainPipeline : Pipeline where
  sha256 := [97]
  policyFingerprint := [98]
  sha256_text := by decide
  policyFingerprint_text := by decide

def plainModule : ModuleInput where
  moduleKey := asciiBytes "a.ts"
  source := asciiBytes "export {}"
  moduleKey_text := by decide

set_option maxRecDepth 8000 in
/-- A process that only started. -/
theorem cache_survives_first_start :
    LoadSucceeds plainTools plainPipeline plainModule 7 .empty .lookup ∧
      PublishSucceeds plainTools plainModule.source 7 .empty 0 .lookup := by
  have hspawned : Reachable (· = .initial) (FreshStep plainTools)
      { Cache.initial with
        process := update Cache.initial.process 7 (some ⟨plainPipeline, 0⟩) } :=
    .next (.start rfl) ⟨.spawn 7 plainPipeline rfl, fun _ _ _ _ _ => rfl⟩
  have hcalls := (cache_survives_crashes plainTools plainTools_lawful).2 _ hspawned 7
    ⟨plainPipeline, 0⟩ rfl
  exact ⟨hcalls.1 plainModule _ ⟨rfl, rfl, fun _ _ _ _ htask => nomatch htask⟩ rfl (by decide),
    hcalls.2 plainModule.source⟩

/-- A process crashes after it created its temporaries; the next process with
its id can neither load the module nor publish the source. -/
theorem reused_id_blocks_calls :
    ∃ cache, Reachable (· = .initial) (Step plainTools) cache ∧
      cache.process 7 = some ⟨plainPipeline, 0⟩ ∧ (∀ worker, cache.task 7 worker = none) ∧
      ¬ LoadSucceeds plainTools plainPipeline plainModule 7 cache.store .lookup ∧
      ¬ PublishSucceeds plainTools plainModule.source 7 cache.store 0 .lookup := by
  have hspawned : Reachable (· = .initial) (Step plainTools) _ :=
    .next (.start rfl) (.spawn 7 plainPipeline rfl)
  have hloading := hspawned.next (.start 7 0 (.load plainPipeline plainModule .lookup) rfl rfl
    ⟨rfl, rfl, fun _ _ _ _ htask => nomatch htask⟩)
  have hmissed := hloading.next (.run 7 0 0 rfl rfl rfl)
  have hcreated := hmissed.next (.run 7 0 0 rfl rfl rfl)
  have hpublishing := hcreated.next (.start 7 1 (.publish plainModule.source .lookup) rfl rfl rfl)
  have hdrawn := hpublishing.next (.run 7 1 0 rfl rfl rfl)
  have hwriting := hdrawn.next (.run 7 1 0 rfl rfl rfl)
  have hcrashed := hwriting.next (.exit 7)
  have hagain := hcrashed.next (.spawn 7 plainPipeline rfl)
  refine ⟨_, hagain, rfl, fun _ => rfl, ?_, ?_⟩
  · rw [loadSucceeds_miss rfl]
    exact fun hfree => nomatch hfree.2
  · rw [publishSucceeds_iff plainTools_lawful fun file hentry =>
      absurd (show none = some file from hentry) (some_ne_none file).symm]
    rintro (hpublished | hfree)
    · exact hpublished rfl
    · cases hfree

end Sample

end ConvexWasm.Compiler.CachePublication
