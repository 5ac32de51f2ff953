import ConvexWasm.CohortSchedule.BuildPool

/-!
# Runs of the build pool

The cursor gives each index to one worker, every started build is either in
flight, in the queue, or known to its worker, and the errors that workers have
caught are the failures without those still in the queue.  This holds at every
moment; what the pool promises is read off it.
-/

namespace ConvexWasm.CohortSchedule

open List

variable {Cohort Result Error : Type*}

variable {index : ℕ}

variable {history history' : List (Event Cohort Result Error)}

@[simp]
theorem startedIndices_append :
    startedIndices (history ++ history') = startedIndices history ++ startedIndices history' := by
  simp [startedIndices]

@[simp]
theorem settledIndices_append :
    settledIndices (history ++ history') = settledIndices history ++ settledIndices history' := by
  simp [settledIndices]

@[simp]
theorem failures_append :
    failures (history ++ history') = failures history ++ failures history' := by
  simp [failures]

@[simp]
theorem caughtErrors_append :
    caughtErrors (history ++ history') = caughtErrors history ++ caughtErrors history' := by
  simp [caughtErrors]

theorem mem_settledIndices :
    index ∈ settledIndices history ↔
      (∃ result, .completed index result ∈ history) ∨
        ∃ error, .rejected index error ∈ history ∨ .threw index error ∈ history := by
  simp only [settledIndices, mem_filterMap]
  constructor
  · intro hmem
    obtain ⟨event, hevent, hindex⟩ := hmem
    cases event with
    | completed other result =>
      obtain rfl : other = index := by simpa using hindex
      exact .inl ⟨result, hevent⟩
    | rejected other error =>
      obtain rfl : other = index := by simpa using hindex
      exact .inr ⟨error, .inl hevent⟩
    | threw other error =>
      obtain rfl : other = index := by simpa using hindex
      exact .inr ⟨error, .inr hevent⟩
    | started | caught => simp at hindex
  · intro hmem
    rcases hmem with ⟨result, hevent⟩ | ⟨error, hevent | hevent⟩
    · exact ⟨_, hevent, rfl⟩
    · exact ⟨_, hevent, rfl⟩
    · exact ⟨_, hevent, rfl⟩

theorem mem_failures {error : Error} :
    error ∈ failures history ↔
      ∃ index, .rejected index error ∈ history ∨ .threw index error ∈ history := by
  simp only [failures, mem_filterMap]
  constructor
  · intro hmem
    obtain ⟨event, hevent, herror⟩ := hmem
    cases event with
    | rejected index other =>
      obtain rfl : other = error := by simpa using herror
      exact ⟨index, .inl hevent⟩
    | threw index other =>
      obtain rfl : other = error := by simpa using herror
      exact ⟨index, .inr hevent⟩
    | started | completed | caught => simp at herror
  · intro hmem
    obtain ⟨index, hevent | hevent⟩ := hmem
    · exact ⟨_, hevent, rfl⟩
    · exact ⟨_, hevent, rfl⟩

theorem mem_inFlight :
    index ∈ inFlight history ↔
      index ∈ startedIndices history ∧ index ∉ settledIndices history := by
  simp [inFlight]

/-- A build settles once. -/
theorem completed_unique (hunique : (settledIndices history).Nodup) {result result' : Result}
    (hcompleted : .completed index result ∈ history)
    (hcompleted' : .completed index result' ∈ history) : result = result' := by
  induction history with
  | nil => simp at hcompleted
  | cons event rest ih =>
    have hrest : (settledIndices rest).Nodup := by
      rw [show event :: rest = [event] ++ rest from rfl, settledIndices_append] at hunique
      exact (nodup_append.mp hunique).2.1
    have honly : ∀ other, event = .completed index other →
        ∀ value, .completed index value ∉ rest := by
      intro other hevent value hmem
      rw [hevent] at hunique
      have hnew : index ∉ settledIndices rest := (nodup_cons.mp hunique).1
      exact hnew (mem_settledIndices.mpr (.inl ⟨value, hmem⟩))
    rcases mem_cons.mp hcompleted with hhead | htail
    · rcases mem_cons.mp hcompleted' with hhead' | htail'
      · rw [← hhead] at hhead'
        simpa using hhead'.symm
      · exact absurd htail' (honly result hhead.symm result')
    · rcases mem_cons.mp hcompleted' with hhead' | htail'
      · exact absurd htail (honly result' hhead'.symm result)
      · exact ih hrest htail htail'

/-- The errors of settled builds whose workers have not resumed. -/
def queueErrors (settled : List (ℕ × Except Error Result)) : List Error :=
  settled.filterMap fun entry =>
    match entry.2 with
    | .error error => some error
    | .ok _ => none

@[simp]
theorem queueErrors_append (settled settled' : List (ℕ × Except Error Result)) :
    queueErrors (settled ++ settled') = queueErrors settled ++ queueErrors settled' := by
  simp [queueErrors]

/-- While a worker runs it is counted as `active`, and it may hold an error that
it is about to catch. -/
structure Invariant (schedule : BuildSchedule Cohort) (concurrency active : ℕ)
    (hand : List Error) (pool : Pool Cohort Result Error) : Prop where
  workers : pool.toLaunch + pool.pending.length + pool.settled.length + pool.returned + active =
    workerCount schedule concurrency
  started : startedIndices pool.history = List.range (min pool.nextIndex schedule.cohorts.length)
  requests : ∀ request, .started request ∈ pool.history →
    schedule.cohorts[request.cohortIndex]? = some request.cohort ∧
      request.scheduleIdentity = schedule.identitySha256
  distinct : pool.pending.Nodup
  pending : ∀ index, index ∈ pool.pending ↔ index ∈ inFlight pool.history
  once : (settledIndices pool.history).Nodup
  known : ∀ index ∈ settledIndices pool.history, index ∈ startedIndices pool.history
  queue : ∀ index result, (index, .ok result) ∈ pool.settled →
    .completed index result ∈ pool.history
  errors : (failures pool.history).Perm
    (caughtErrors pool.history ++ (hand ++ queueErrors pool.settled))
  ordered : Asynchronous pool.history →
    failures pool.history = caughtErrors pool.history ++ (hand ++ queueErrors pool.settled)
  failed : pool.failed = true ↔ caughtErrors pool.history ≠ []
  firstError : pool.firstError = (caughtErrors pool.history).head?
  stopped : ∀ before error after, pool.history = before ++ .caught error :: after →
    startedIndices after = []
  length : pool.results.length = schedule.cohorts.length
  values : ∀ index result, .completed index result ∈ pool.history →
    (index, .ok result) ∈ pool.settled ∨ pool.results[index]? = some (some result)
  exhausted : 0 < pool.returned → pool.failed = true ∨ schedule.cohorts.length ≤ pool.nextIndex
  outcome : ∀ outcome, pool.outcome = some outcome →
    pool.returned = workerCount schedule concurrency ∧
      outcome = if pool.failed then .error pool.firstError else .ok pool.results

variable {schedule : BuildSchedule Cohort} {concurrency : ℕ} {pool : Pool Cohort Result Error}

variable {hand : List Error}

/-- Events other than `started` and `caught` may follow a caught error. -/
theorem stopped_snoc {history : List (Event Cohort Result Error)}
    {event : Event Cohort Result Error}
    (hstopped : ∀ before error after, history = before ++ .caught error :: after →
      startedIndices after = [])
    (hevent : startedIndices [event] = [] ∨ caughtErrors history = []) :
    ∀ before error after, history ++ [event] = before ++ .caught error :: after →
      startedIndices after = [] := by
  intro before error after hsplit
  cases after using List.reverseRecOn with
  | nil => rfl
  | append_singleton rest last =>
    have hassoc : history ++ [event] = (before ++ .caught error :: rest) ++ [last] := by
      simpa using hsplit
    have hinj := append_inj' hassoc rfl
    obtain rfl : event = last := by simpa using hinj.2
    rw [startedIndices_append, hstopped before error rest hinj.1, nil_append]
    cases hevent with
    | inl hother => exact hother
    | inr hnone =>
      rw [hinj.1] at hnone
      simp [caughtErrors] at hnone

theorem Invariant.start {authenticated : Bool} {pool : Pool Cohort Result Error}
    (hstart : start authenticated concurrency schedule = .ok pool) :
    Invariant schedule concurrency 0 [] pool := by
  unfold CohortSchedule.start at hstart
  split at hstart
  · simp at hstart
  split at hstart
  · simp at hstart
  obtain rfl := Except.ok.inj hstart
  constructor <;> simp [startedIndices, settledIndices, failures, caughtErrors, inFlight,
    queueErrors]

/-- The worker returns when something failed or the cohorts are used up. -/
theorem Invariant.retire (hinv : Invariant schedule concurrency 1 [] pool)
    (hdone : pool.failed = true ∨ schedule.cohorts.length ≤ pool.nextIndex) :
    Invariant schedule concurrency 0 [] pool.retire := { hinv with
  workers := by
    have hworkers := hinv.workers
    simp only [Pool.retire]
    omega
  exhausted := fun _ => hdone
  outcome := by
    intro outcome houtcome
    have hreturned := (hinv.outcome outcome houtcome).1
    have hworkers := hinv.workers
    omega }

theorem Invariant.catchError {error : Error}
    (hinv : Invariant schedule concurrency 1 [error] pool) :
    Invariant schedule concurrency 0 [] (pool.catchError error) := { hinv with
  workers := by
    have hworkers := hinv.workers
    simp only [Pool.catchError]
    omega
  started := by
    have hstarted := hinv.started
    simpa [Pool.catchError, startedIndices] using hstarted
  requests := by
    intro request hrequest
    apply hinv.requests request
    simpa [Pool.catchError] using hrequest
  pending := by
    intro index
    have hpending := hinv.pending index
    simpa [Pool.catchError, mem_inFlight, startedIndices, settledIndices] using hpending
  once := by
    have honce := hinv.once
    simpa [Pool.catchError, settledIndices] using honce
  known := by
    have hknown := hinv.known
    simpa [Pool.catchError, settledIndices, startedIndices] using hknown
  queue := by
    intro index result hmem
    have hqueue := hinv.queue index result hmem
    simp [Pool.catchError, hqueue]
  errors := by
    have herrors := hinv.errors
    simpa [Pool.catchError, failures, caughtErrors] using herrors
  ordered := by
    intro hasync
    have hordered := hinv.ordered fun index other hmem =>
      hasync index other (by simp [Pool.catchError, hmem])
    simpa [Pool.catchError, failures, caughtErrors] using hordered
  failed := by simp [Pool.catchError, caughtErrors]
  firstError := by
    have hfirst := hinv.firstError
    have hfailed := hinv.failed
    simp only [Pool.catchError, caughtErrors_append]
    cases hcaught : caughtErrors pool.history with
    | nil =>
      rw [hcaught] at hfailed
      simp [hfailed, caughtErrors]
    | cons head tail =>
      rw [hcaught] at hfailed hfirst
      simp [hfailed, hfirst]
  stopped := stopped_snoc hinv.stopped (.inl rfl)
  values := by
    intro index result hmem
    apply hinv.values index result
    simpa [Pool.catchError] using hmem
  exhausted := fun _ => .inl rfl
  outcome := by
    intro outcome houtcome
    have hreturned := (hinv.outcome outcome houtcome).1
    have hworkers := hinv.workers
    omega }

/-- A build ends; its error, if any, is queued or in the hand of its worker. -/
structure Ending (index : ℕ) (event : Event Cohort Result Error)
    (queued : List (ℕ × Except Error Result)) (active : ℕ) (hand : List Error) : Prop where
  settled : settledIndices [event] = [index]
  started : startedIndices [event] = []
  caught : caughtErrors [event] = []
  failures : failures [event] = hand ++ queueErrors queued
  workers : queued.length + active = 1
  results : ∀ other result, (other, .ok result) ∈ queued ↔ event = .completed other result
  ordered : Asynchronous [event] → hand = []

theorem Invariant.ends {event : Event Cohort Result Error} {active : ℕ}
    {queued : List (ℕ × Except Error Result)} (hinv : Invariant schedule concurrency 0 [] pool)
    (hpending : index ∈ pool.pending) (hending : Ending index event queued active hand) :
    Invariant schedule concurrency active hand
      { pool with
        pending := pool.pending.erase index
        settled := pool.settled ++ queued
        history := pool.history ++ [event] } := by
  obtain ⟨hindices, hnone, hcaught, hfailures, hcount, hresults, hhand⟩ := hending
  have hflight := (hinv.pending index).mp hpending
  rw [mem_inFlight] at hflight
  have hworkers := hinv.workers
  have hpositive := length_pos_of_mem hpending
  constructor
  · have hlength := length_erase_of_mem hpending
    simp only [length_append, hlength]
    omega
  · simp only [startedIndices_append, hnone, List.append_nil]
    exact hinv.started
  · intro request hrequest
    cases mem_append.mp hrequest with
    | inl hold => exact hinv.requests request hold
    | inr hlast =>
      rw [← mem_singleton.mp hlast] at hnone
      simp [startedIndices] at hnone
  · exact hinv.distinct.erase index
  · intro other
    have hother := hinv.pending other
    simp only [mem_inFlight, startedIndices_append, settledIndices_append, hnone,
      hindices, List.append_nil, mem_append, mem_singleton, hinv.distinct.mem_erase_iff,
      hother]
    tauto
  · simp only [settledIndices_append, hindices]
    rw [nodup_append]
    refine ⟨hinv.once, nodup_singleton _, ?_⟩
    intro left hleft right hright heq
    rw [mem_singleton] at hright
    exact hflight.2 (hright ▸ heq ▸ hleft)
  · intro other hother
    simp only [settledIndices_append, hindices, mem_append, mem_singleton] at hother
    simp only [startedIndices_append, hnone, List.append_nil]
    cases hother with
    | inl hold => exact hinv.known other hold
    | inr hlast => exact hlast ▸ hflight.1
  · intro other result hmem
    cases mem_append.mp hmem with
    | inl hold => exact mem_append_left _ (hinv.queue other result hold)
    | inr hlast => exact mem_append_right _ (mem_singleton.mpr ((hresults _ _).mp hlast).symm)
  · simp only [failures_append, caughtErrors_append, queueErrors_append, hcaught, hfailures,
      List.append_nil]
    have hold : (failures pool.history).Perm
        (caughtErrors pool.history ++ queueErrors pool.settled) := hinv.errors
    calc failures pool.history ++ (hand ++ queueErrors queued)
        ~ caughtErrors pool.history ++ queueErrors pool.settled ++ (hand ++ queueErrors queued) :=
          hold.append_right _
      _ ~ caughtErrors pool.history ++ (hand ++ (queueErrors pool.settled ++
            queueErrors queued)) := by
          rw [append_assoc]
          exact perm_append_comm_assoc _ _ _ |>.append_left _
  · intro hasync
    have hempty := hhand fun other error hmem => hasync other error (mem_append_right _ hmem)
    have hordered := hinv.ordered fun other error hmem =>
      hasync other error (mem_append_left _ hmem)
    simp only [failures_append, caughtErrors_append, queueErrors_append, hcaught, hfailures,
      hempty, List.append_nil, nil_append, hordered, append_assoc]
  · simp only [caughtErrors_append, hcaught, List.append_nil]
    exact hinv.failed
  · simp only [caughtErrors_append, hcaught, List.append_nil]
    exact hinv.firstError
  · exact stopped_snoc hinv.stopped (.inl hnone)
  · exact hinv.length
  · intro other result hmem
    cases mem_append.mp hmem with
    | inl hold => exact (hinv.values other result hold).imp (mem_append_left _) id
    | inr hlast =>
      exact .inl (mem_append_right _ ((hresults _ _).mpr (mem_singleton.mp hlast).symm))
  · exact hinv.exhausted
  · intro outcome houtcome
    have hreturned := (hinv.outcome outcome houtcome).1
    omega

theorem Invariant.settle (hinv : Invariant schedule concurrency 0 [] pool)
    (hpending : index ∈ pool.pending) (outcome : Except Error Result) :
    Invariant schedule concurrency 0 [] (pool.settle index outcome) := by
  apply hinv.ends hpending
  cases outcome with
  | ok result => exact ⟨rfl, rfl, rfl, rfl, rfl, by simp [Pool.settlement, eq_comm], fun _ => rfl⟩
  | error error => exact ⟨rfl, rfl, rfl, rfl, rfl, by simp [Pool.settlement], fun _ => rfl⟩

section Starting

variable {cohort : Cohort} {request : BuildRequest Cohort}

variable (hinv : Invariant schedule concurrency 1 [] pool)
include hinv

/-- The next cohort was not started before. -/
theorem Invariant.fresh (hcohort : schedule.cohorts[pool.nextIndex]? = some cohort) :
    startedIndices pool.history ++ [pool.nextIndex] =
        List.range (min (pool.nextIndex + 1) schedule.cohorts.length) ∧
      pool.nextIndex ∉ startedIndices pool.history ∧
      pool.nextIndex ∉ settledIndices pool.history := by
  obtain ⟨hbound, -⟩ := List.getElem?_eq_some_iff.mp hcohort
  have hstarted := hinv.started
  rw [min_eq_left hbound.le] at hstarted
  have hnew : pool.nextIndex ∉ startedIndices pool.history := by
    rw [hstarted]
    simp
  refine ⟨?_, hnew, fun hmem => hnew (hinv.known _ hmem)⟩
  rw [hstarted, min_eq_left hbound, range_succ]

section

variable (hrunning : pool.failed = false)
  (hcohort : schedule.cohorts[pool.nextIndex]? = some cohort)
include hrunning hcohort

/-- The worker awaits the build that it started. -/
theorem Invariant.await :
    Invariant schedule concurrency 0 []
      { pool with
        nextIndex := pool.nextIndex + 1
        pending := pool.pending ++ [pool.nextIndex]
        history := pool.history ++
          [.started ⟨cohort, pool.nextIndex, schedule.identitySha256⟩] } := by
  obtain ⟨hrange, hnew, hopen⟩ := hinv.fresh hcohort
  constructor
  · have hworkers := hinv.workers
    simp only [length_append, length_singleton]
    omega
  · simpa [startedIndices] using hrange
  · intro request hrequest
    cases mem_append.mp hrequest with
    | inl hold => exact hinv.requests request hold
    | inr hlast =>
      obtain rfl : request = _ := by simpa using hlast
      exact ⟨hcohort, rfl⟩
  · rw [nodup_append]
    refine ⟨hinv.distinct, nodup_singleton _, ?_⟩
    intro left hleft right hright heq
    rw [mem_singleton] at hright
    have hflight := (hinv.pending left).mp hleft
    rw [mem_inFlight, heq, hright] at hflight
    exact hnew hflight.1
  · intro index
    have hpending := hinv.pending index
    simp only [mem_inFlight] at hpending
    rw [mem_inFlight]
    by_cases hindex : index = pool.nextIndex
    · subst hindex
      simpa [startedIndices, settledIndices] using hopen
    · simpa [startedIndices, settledIndices, hindex] using hpending
  · simpa [settledIndices] using hinv.once
  · intro index hindex
    have hold : index ∈ settledIndices pool.history := by simpa [settledIndices] using hindex
    rw [startedIndices_append]
    exact mem_append_left _ (hinv.known index hold)
  · intro index result hmem
    exact mem_append_left _ (hinv.queue index result hmem)
  · simpa [failures, caughtErrors] using hinv.errors
  · intro hasync
    have hordered := hinv.ordered fun index error hmem =>
      hasync index error (mem_append_left _ hmem)
    simpa [failures, caughtErrors] using hordered
  · simpa [caughtErrors] using hinv.failed
  · simpa [caughtErrors] using hinv.firstError
  · apply stopped_snoc hinv.stopped
    right
    by_contra hcaught
    simp [hinv.failed.mpr hcaught] at hrunning
  · exact hinv.length
  · intro index result hmem
    exact hinv.values index result (by simpa using hmem)
  · intro hreturned
    exact (hinv.exhausted hreturned).imp id fun hbound => hbound.trans (Nat.le_succ _)
  · intro outcome houtcome
    have hreturned := (hinv.outcome outcome houtcome).1
    have hworkers := hinv.workers
    omega

/-- The call threw; its worker holds the error. -/
theorem Invariant.threw {error : Error} :
    Invariant schedule concurrency 1 [error]
      { pool with
        nextIndex := pool.nextIndex + 1
        history := (pool.history ++
          [.started ⟨cohort, pool.nextIndex, schedule.identitySha256⟩]) ++
            [.threw pool.nextIndex error] } := by
  have hends := (hinv.await hrunning hcohort).ends (mem_append_right _ mem_cons_self)
    (⟨rfl, rfl, rfl, rfl, rfl, by simp, fun hasync => absurd mem_cons_self (hasync _ error)⟩ :
      Ending pool.nextIndex (.threw pool.nextIndex error) [] 1 [error])
  have hnew : pool.nextIndex ∉ pool.pending := by
    rw [hinv.pending, mem_inFlight]
    exact fun hflight => (hinv.fresh hcohort).2.1 hflight.1
  simpa [erase_append_right _ hnew] using hends

end

end Starting

/-- One turn of a worker. -/
theorem Invariant.proceed (hinv : Invariant schedule concurrency 1 [] pool) (call : Call Error) :
    Invariant schedule concurrency 0 [] (pool.proceed schedule call) := by
  unfold Pool.proceed
  split
  · next hfailed => exact hinv.retire (.inl hfailed)
  · next hrunning =>
      rw [Bool.not_eq_true] at hrunning
      cases hcohort : schedule.cohorts[pool.nextIndex]? with
      | none =>
        have hbound := List.getElem?_eq_none_iff.mp hcohort
        simp only [hcohort]
        have hinv' : Invariant schedule concurrency 1 []
            { pool with nextIndex := pool.nextIndex + 1 } := by
          have hstarted := hinv.started
          rw [min_eq_right hbound] at hstarted
          exact { hinv with
            started := by rw [hstarted, min_eq_right (hbound.trans (Nat.le_succ _))]
            exhausted := fun _ => .inr (hbound.trans (Nat.le_succ _)) }
        exact hinv'.retire (.inr (hbound.trans (Nat.le_succ _)))
      | some cohort =>
        simp only [hcohort]
        cases call with
        | promise => exact hinv.await hrunning hcohort
        | throws error => exact (hinv.threw hrunning hcohort).catchError

variable {rest : List (ℕ × Except Error Result)}

section

variable (hinv : Invariant schedule concurrency 0 [] pool)
include hinv

/-- The first worker of the queue receives its result. -/
theorem Invariant.receive {result : Result} (hqueue : pool.settled = (index, .ok result) :: rest) :
    Invariant schedule concurrency 1 []
      { pool with settled := rest, results := pool.results.set index (some result) } := by
  have hcompleted : .completed index result ∈ pool.history :=
    hinv.queue index result (by rw [hqueue]; exact mem_cons_self)
  have hindex : index < pool.results.length := by
    have hstarted := hinv.known index (mem_settledIndices.mpr (.inl ⟨result, hcompleted⟩))
    rw [hinv.started, mem_range] at hstarted
    rw [hinv.length]
    omega
  have hworkers := hinv.workers
  rw [hqueue, length_cons] at hworkers
  have herrors := hinv.errors
  have hordered := hinv.ordered
  rw [hqueue] at herrors hordered
  exact { hinv with
    workers := by simp only; omega
    queue := fun other value hmem =>
      hinv.queue other value (by rw [hqueue]; exact mem_cons_of_mem _ hmem)
    errors := herrors
    ordered := hordered
    length := by simp only [length_set]; exact hinv.length
    values := by
      intro other value hmem
      by_cases hother : index = other
      · subst hother
        rw [completed_unique hinv.once hmem hcompleted]
        exact .inr (List.getElem?_set_self hindex)
      · have hold := hinv.values other value hmem
        rw [hqueue, mem_cons, Prod.mk.injEq] at hold
        rw [List.getElem?_set_ne hother]
        exact hold.imp (fun h => h.resolve_left fun heq => hother heq.1.symm) id
    outcome := by
      intro outcome houtcome
      have hreturned := (hinv.outcome outcome houtcome).1
      omega }

/-- The first worker of the queue receives its error. -/
theorem Invariant.receiveError {error : Error}
    (hqueue : pool.settled = (index, .error error) :: rest) :
    Invariant schedule concurrency 1 [error] { pool with settled := rest } := by
  have hworkers := hinv.workers
  rw [hqueue, length_cons] at hworkers
  have herrors := hinv.errors
  have hordered := hinv.ordered
  rw [hqueue] at herrors hordered
  exact { hinv with
    workers := by simp only; omega
    queue := fun other value hmem =>
      hinv.queue other value (by rw [hqueue]; exact mem_cons_of_mem _ hmem)
    errors := herrors
    ordered := hordered
    values := by
      intro other value hmem
      have hold := hinv.values other value hmem
      rw [hqueue, mem_cons, Prod.mk.injEq] at hold
      exact hold.imp (fun h => h.resolve_left fun heq => by simp at heq) id
    outcome := by
      intro outcome houtcome
      have hreturned := (hinv.outcome outcome houtcome).1
      omega }

/-- What one step preserves. -/
theorem Invariant.step {action : Action Result Error} {pool' : Pool Cohort Result Error}
    (hstep : step schedule concurrency action pool = some pool') :
    Invariant schedule concurrency 0 [] pool' := by
  cases action with
  | launch call =>
    simp only [CohortSchedule.step] at hstep
    split at hstep
    · simp at hstep
    · next hlaunch =>
        obtain rfl := Option.some.inj hstep
        have hworkers := hinv.workers
        apply Invariant.proceed
        exact { hinv with
          workers := by simp only; omega
          outcome := by
            intro outcome houtcome
            have hreturned := (hinv.outcome outcome houtcome).1
            omega }
  | settle index outcome =>
    simp only [CohortSchedule.step] at hstep
    split at hstep
    · next hpending =>
        obtain rfl := Option.some.inj hstep
        exact hinv.settle hpending outcome
    · simp at hstep
  | deliver call =>
    simp only [CohortSchedule.step] at hstep
    split at hstep
    · simp at hstep
    split at hstep
    · simp at hstep
    · next index result rest hqueue =>
        obtain rfl := Option.some.inj hstep
        exact (hinv.receive hqueue).proceed call
    · next index error rest hqueue =>
        obtain rfl := Option.some.inj hstep
        exact (hinv.receiveError hqueue).catchError
  | finish =>
    simp only [CohortSchedule.step] at hstep
    split at hstep
    · next hfinish =>
        obtain rfl := Option.some.inj hstep
        exact { hinv with
          outcome := by
            intro outcome houtcome
            exact ⟨hfinish.1, (Option.some.inj houtcome).symm⟩ }
    · simp at hstep

end

theorem Reaches.invariant {authenticated : Bool}
    (hreaches : Reaches authenticated concurrency schedule pool) :
    Invariant schedule concurrency 0 [] pool := by
  apply TransitionSystem.Reachable.invariant _ _ hreaches
  · exact fun pool hstart => Invariant.start hstart
  · intro pool pool' hinv hstep
    obtain ⟨action, hstep⟩ := hstep
    exact hinv.step hstep

theorem Invariant.inFlight_perm (hinv : Invariant schedule concurrency 0 [] pool) :
    (inFlight pool.history).Perm pool.pending := by
  have hnodup : (inFlight pool.history).Nodup := by
    rw [inFlight, hinv.started]
    exact (nodup_range).filter _
  exact (perm_ext_iff_of_nodup hnodup hinv.distinct).mpr fun index =>
    (hinv.pending index).symm

/-- When the pool has settled, all its workers returned. -/
theorem Invariant.quiet (hinv : Invariant schedule concurrency 0 [] pool)
    (hreturned : pool.returned = workerCount schedule concurrency) :
    pool.pending = [] ∧ pool.settled = [] := by
  have hworkers := hinv.workers
  constructor
  · apply eq_nil_of_length_eq_zero
    omega
  · apply eq_nil_of_length_eq_zero
    omega

/-- A run without failures has started and completed every build. -/
theorem Invariant.complete (hinv : Invariant schedule concurrency 0 [] pool)
    (hpositive : 0 < concurrency) (hreturned : pool.returned = workerCount schedule concurrency)
    (hfailures : failures pool.history = []) {index : ℕ}
    (hindex : index < schedule.cohorts.length) :
    ∃ result, .completed index result ∈ pool.history ∧
      pool.results[index]? = some (some result) := by
  obtain ⟨hpending, hsettled⟩ := hinv.quiet hreturned
  have hcaught : caughtErrors pool.history = [] := by
    have herrors := hinv.errors
    rw [hfailures] at herrors
    exact (append_eq_nil_iff.mp herrors.nil_eq.symm).1
  have hworked : 0 < pool.returned := by
    rw [hreturned, workerCount]
    omega
  have hcursor : schedule.cohorts.length ≤ pool.nextIndex := by
    apply (hinv.exhausted hworked).resolve_left
    intro hfailed
    exact hinv.failed.mp hfailed hcaught
  have hstarted : index ∈ startedIndices pool.history := by
    rw [hinv.started, mem_range]
    omega
  have hdone : index ∈ settledIndices pool.history := by
    by_contra hopen
    have hflight := (hinv.pending index).mpr (mem_inFlight.mpr ⟨hstarted, hopen⟩)
    simp [hpending] at hflight
  cases mem_settledIndices.mp hdone with
  | inl hcompleted =>
    obtain ⟨result, hcompleted⟩ := hcompleted
    have hvalue := hinv.values index result hcompleted
    rw [hsettled] at hvalue
    exact ⟨result, hcompleted, hvalue.resolve_left (by simp)⟩
  | inr hfailed =>
    obtain ⟨error, hfailed⟩ := hfailed
    have hmem : error ∈ failures pool.history := mem_failures.mpr ⟨index, hfailed⟩
    simp [hfailures] at hmem

/-- What the pool promises at any moment of a call. -/
structure Guarantees (schedule : BuildSchedule Cohort) (concurrency : ℕ)
    (pool : Pool Cohort Result Error) : Prop where
  /-- each index is built at most once, with its own cohort -/
  once : (startedIndices pool.history).Nodup
  requests : ∀ request, .started request ∈ pool.history →
    schedule.cohorts[request.cohortIndex]? = some request.cohort ∧
      request.scheduleIdentity = schedule.identitySha256
  bounded : (inFlight pool.history).length ≤ concurrency
  /-- a run that settles without a failure returns the results in order -/
  successful : ∀ outcome, pool.outcome = some outcome → failures pool.history = [] →
    ∃ results : List Result, outcome = .ok (results.map some) ∧ results.length = schedule.cohorts.length ∧
      ∀ index result, results[index]? = some result ↔ .completed index result ∈ pool.history
  /-- once a worker knows of a failure, no build starts -/
  stopped : ∀ before error after, pool.history = before ++ .caught error :: after →
    startedIndices after = []
  /-- the pool settles only after the builds that it started -/
  settled : ∀ outcome, pool.outcome = some outcome → inFlight pool.history = []
  /-- after a failure it rejects with the one that was caught first; unless a call
  threw, that is the first in time -/
  rejecting : ∀ outcome, pool.outcome = some outcome → failures pool.history ≠ [] →
    ∃ error, outcome = .error (some error) ∧
      (caughtErrors pool.history).head? = some error ∧
      (Asynchronous pool.history → (failures pool.history).head? = some error)
  /-- while no build is in flight, an unsettled pool goes on by itself -/
  progress : inFlight pool.history = [] → pool.outcome = none → ∀ call : Call Error,
    ∃ action ∈ [Action.launch call, .deliver call, .finish],
      (step schedule concurrency action pool).isSome

variable {outcome : Except (Option Error) (List (Option Result))}

section

variable (hinv : Invariant schedule concurrency 0 [] pool)
include hinv

theorem Invariant.successful (hpositive : 0 < concurrency) (houtcome : pool.outcome = some outcome)
    (hfailures : failures pool.history = []) :
    ∃ results : List Result, outcome = .ok (results.map some) ∧ results.length = schedule.cohorts.length ∧
      ∀ index result, results[index]? = some result ↔
        .completed index result ∈ pool.history := by
  obtain ⟨hreturned, hvalue⟩ := hinv.outcome outcome houtcome
  have hcomplete : ∀ index < schedule.cohorts.length,
      ∃ result, .completed index result ∈ pool.history ∧
        pool.results[index]? = some (some result) :=
    fun index hindex => hinv.complete hpositive hreturned hfailures hindex
  have hcaught : caughtErrors pool.history = [] := by
    have herrors := hinv.errors
    rw [hfailures] at herrors
    exact (append_eq_nil_iff.mp herrors.nil_eq.symm).1
  have hfailed : pool.failed = false := by
    by_contra hfailed
    exact hinv.failed.mp (by simpa using hfailed) hcaught
  have hall : ∀ value ∈ pool.results, value ∈ Set.range (some : Result → Option Result) := by
    intro value hmem
    obtain ⟨index, hindex, hget⟩ := mem_iff_getElem.mp hmem
    obtain ⟨result, -, hresult⟩ := hcomplete index (hinv.length ▸ hindex)
    rw [List.getElem?_eq_getElem hindex, hget] at hresult
    exact ⟨result, (Option.some.inj hresult).symm⟩
  obtain ⟨results, hresults⟩ : ∃ results : List Result, results.map some = pool.results := by
    change pool.results ∈ Set.range (List.map some)
    rw [Set.range_list_map]
    exact hall
  symm at hresults
  have hlength : results.length = schedule.cohorts.length := by
    rw [← hinv.length, hresults, length_map]
  refine ⟨results, by rw [hvalue, hfailed, hresults]; rfl, hlength, ?_⟩
  have hread : ∀ (index : ℕ) (result : Result), results[index]? = some result ↔
      pool.results[index]? = some (some result) := by
    intro index result
    rw [hresults, List.getElem?_map]
    simp
  intro index result
  rw [hread]
  constructor
  · intro hget
    obtain ⟨hindex, -⟩ := List.getElem?_eq_some_iff.mp hget
    obtain ⟨found, hcompleted, hfound⟩ := hcomplete index (hinv.length ▸ hindex)
    rw [hget] at hfound
    obtain rfl : result = found := by simpa using hfound
    exact hcompleted
  · intro hcompleted
    have hvalue := hinv.values index result hcompleted
    rw [(hinv.quiet hreturned).2] at hvalue
    exact hvalue.resolve_left (by simp)

theorem Invariant.rejecting (houtcome : pool.outcome = some outcome)
    (hfailures : failures pool.history ≠ []) :
    ∃ error, outcome = .error (some error) ∧
      (caughtErrors pool.history).head? = some error ∧
      (Asynchronous pool.history → (failures pool.history).head? = some error) := by
  obtain ⟨hreturned, hvalue⟩ := hinv.outcome outcome houtcome
  have hsettled := (hinv.quiet hreturned).2
  have herrors := hinv.errors
  have hordered := hinv.ordered
  rw [hsettled] at herrors hordered
  cases hcaught : caughtErrors pool.history with
  | nil =>
    rw [hcaught] at herrors
    exact absurd herrors.eq_nil hfailures
  | cons error rest =>
    have hfailed : pool.failed = true := hinv.failed.mpr (by simp [hcaught])
    refine ⟨error, ?_, rfl, fun hasync => ?_⟩
    · rw [hvalue, hfailed, hinv.firstError, hcaught]
      rfl
    · rw [hordered hasync, hcaught]
      rfl

theorem Invariant.progress (hflight : inFlight pool.history = []) (houtcome : pool.outcome = none)
    (call : Call Error) :
    ∃ action ∈ [Action.launch call, .deliver call, .finish],
      (CohortSchedule.step schedule concurrency action pool).isSome := by
  have hpending : pool.pending = [] := by
    have hperm := hinv.inFlight_perm
    rw [hflight] at hperm
    exact hperm.nil_eq.symm
  by_cases hlaunch : pool.toLaunch = 0
  · cases hqueue : pool.settled with
    | nil =>
      have hworkers := hinv.workers
      rw [hlaunch, hpending, hqueue] at hworkers
      have hreturned : pool.returned = workerCount schedule concurrency := by
        simpa using hworkers
      refine ⟨.finish, by simp, ?_⟩
      simp [CohortSchedule.step, hreturned, houtcome]
    | cons entry rest =>
      refine ⟨.deliver call, by simp, ?_⟩
      obtain ⟨index, outcome⟩ := entry
      cases outcome <;> simp [CohortSchedule.step, hlaunch, hqueue]
  · exact ⟨.launch call, by simp, by simp [CohortSchedule.step, hlaunch]⟩

end

/-- Whatever the builds do, and in whatever order they settle, the pool keeps
its promises at every moment. -/
theorem pool_guarantees (authenticated : Bool) (concurrency : ℕ)
    (schedule : BuildSchedule Cohort) (pool : Pool Cohort Result Error)
    (hreaches : Reaches authenticated concurrency schedule pool) :
    Guarantees schedule concurrency pool := by
  have hinv := hreaches.invariant
  have hpositive : 0 < concurrency := by
    apply TransitionSystem.Reachable.invariant _ (fun _ _ h _ => h) hreaches
    intro pool hstart
    unfold start at hstart
    split at hstart
    · simp at hstart
    · omega
  constructor
  · rw [hinv.started]
    exact nodup_range
  · exact hinv.requests
  · have hworkers := hinv.workers
    rw [workerCount] at hworkers
    rw [hinv.inFlight_perm.length_eq]
    omega
  · exact fun outcome houtcome => hinv.successful hpositive houtcome
  · exact hinv.stopped
  · intro outcome houtcome
    have hpending := (hinv.quiet (hinv.outcome outcome houtcome).1).1
    have hperm := hinv.inFlight_perm
    rw [hpending] at hperm
    exact hperm.eq_nil
  · exact fun outcome houtcome => hinv.rejecting houtcome
  · exact hinv.progress

/-- A run of given actions. -/
def perform (schedule : BuildSchedule Cohort) (concurrency : ℕ)
    (actions : List (Action Result Error)) (pool : Pool Cohort Result Error) :
    Option (Pool Cohort Result Error) :=
  actions.foldlM (fun pool action => step schedule concurrency action pool) pool

theorem Reaches.perform {authenticated : Bool} {pool' : Pool Cohort Result Error}
    (hreaches : Reaches authenticated concurrency schedule pool)
    (actions : List (Action Result Error))
    (hperform : perform schedule concurrency actions pool = some pool') :
    Reaches authenticated concurrency schedule pool' := by
  induction actions generalizing pool with
  | nil =>
    obtain rfl := Option.some.inj hperform
    exact hreaches
  | cons action rest ih =>
    obtain ⟨middle, hstep, hrest⟩ := Option.bind_eq_some_iff.mp hperform
    exact ih (hreaches.next ⟨action, hstep⟩) hrest

def threeCohorts : BuildSchedule String := ⟨["a", "b", "c"], "schedule"⟩

def twoWorkers : Pool String String String where
  toLaunch := 2
  pending := []
  settled := []
  returned := 0
  nextIndex := 0
  failed := false
  firstError := none
  results := [none, none, none]
  outcome := none
  history := []

theorem twoWorkers_reaches : Reaches true 2 threeCohorts twoWorkers := .start rfl

/-- The second build settles first; the pool still returns the results in order. -/
theorem pool_guarantees_threeCohorts :
    ∃ pool : Pool String String String, Reaches true 2 threeCohorts pool ∧
      pool.outcome = some (.ok [some "A", some "B", some "C"]) ∧
      Guarantees threeCohorts 2 pool := by
  have hperform := twoWorkers_reaches.perform
    [.launch .promise, .launch .promise, .settle 1 (.ok "B"), .deliver .promise,
      .settle 2 (.ok "C"), .settle 0 (.ok "A"), .deliver .promise, .deliver .promise, .finish] rfl
  exact ⟨_, hperform, rfl, pool_guarantees true 2 threeCohorts _ hperform⟩

/-- A build that completed first hands its worker the next cohort although another
build has failed since; and an error that is thrown at once is caught before an
earlier one that still waits in the queue. -/
theorem failure_overtaken : (∃ pool : Pool String String String, Reaches true 2 threeCohorts pool ∧
      ∃ before request after,
        pool.history = before ++ .rejected 0 "error" :: .started request :: after) ∧
    ∃ pool : Pool String String String, Reaches true 2 threeCohorts pool ∧
      pool.outcome = some (.error (some "second")) ∧
      (failures pool.history).head? = some "first" := by
  have hstarted := twoWorkers_reaches.perform
    [.launch .promise, .launch .promise, .settle 1 (.ok "B"),
      .settle 0 (.error "error"), .deliver .promise] rfl
  have hcaught := twoWorkers_reaches.perform
    [.launch .promise, .settle 0 (.error "first"), .launch (.throws "second"),
      .deliver .promise, .finish] rfl
  refine ⟨⟨_, hstarted, ?_⟩, _, hcaught, rfl, rfl⟩
  exact ⟨[.started ⟨"a", 0, "schedule"⟩, .started ⟨"b", 1, "schedule"⟩, .completed 1 "B"],
    ⟨"c", 2, "schedule"⟩, [], rfl⟩

/-- What the pool still has to do. -/
def rank (schedule : BuildSchedule Cohort) (pool : Pool Cohort Result Error) : ℕ :=
  3 * (schedule.cohorts.length - pool.nextIndex) + 2 * pool.pending.length +
    pool.settled.length + pool.toLaunch + (if pool.outcome.isNone then 1 else 0)

theorem rank_proceed (pool : Pool Cohort Result Error) (call : Call Error) :
    rank schedule (pool.proceed schedule call) ≤ rank schedule pool := by
  unfold Pool.proceed
  split
  · exact le_refl _
  · cases hcohort : schedule.cohorts[pool.nextIndex]? with
    | none =>
      simp only [hcohort, rank, Pool.retire]
      omega
    | some cohort =>
      obtain ⟨hbound, -⟩ := List.getElem?_eq_some_iff.mp hcohort
      cases call with
      | promise =>
        simp only [hcohort, rank, Pool.record, length_append, length_singleton]
        omega
      | throws error =>
        simp only [hcohort, rank, Pool.record, Pool.catchError]
        omega

/-- Every run of the pool ends, and a pool from which nothing can happen has settled. -/
theorem pool_terminates (authenticated : Bool) (concurrency : ℕ) (schedule : BuildSchedule Cohort)
    (outcome : Except Error Result) :
    TransitionSystem.Terminates (fun pool : Pool Cohort Result Error =>
        start authenticated concurrency schedule = .ok pool)
      (fun pool pool' => ∃ action, step schedule concurrency action pool = some pool') ∧
    ∀ pool : Pool Cohort Result Error, Reaches authenticated concurrency schedule pool →
      (∀ action, step schedule concurrency action pool = none) → pool.outcome ≠ none := by
  have hrank : ∀ pool pool' : Pool Cohort Result Error, True →
      (∃ action, step schedule concurrency action pool = some pool') →
      rank schedule pool' < rank schedule pool := by
    intro pool pool' _ hstep
    obtain ⟨action, hstep⟩ := hstep
    cases action with
    | launch call =>
      simp only [step] at hstep
      split at hstep
      · simp at hstep
      · next hlaunch =>
          obtain rfl := Option.some.inj hstep
          apply (rank_proceed _ call).trans_lt
          simp only [rank]
          omega
    | settle index outcome =>
      simp only [step] at hstep
      split at hstep
      · next hpending =>
          obtain rfl := Option.some.inj hstep
          have hlength := length_erase_of_mem hpending
          have hpositive := length_pos_of_mem hpending
          have hsame : (pool.settle index outcome).outcome = pool.outcome := rfl
          simp only [rank, hsame]
          simp only [Pool.settle, length_append, length_singleton, hlength]
          omega
      · simp at hstep
    | deliver call =>
      simp only [step] at hstep
      split at hstep
      · simp at hstep
      split at hstep
      · simp at hstep
      · next hqueue =>
          obtain rfl := Option.some.inj hstep
          apply (rank_proceed _ call).trans_lt
          simp only [rank, hqueue, length_cons]
          omega
      · next hqueue =>
          obtain rfl := Option.some.inj hstep
          simp only [rank, Pool.catchError, hqueue, length_cons]
          omega
    | finish =>
      simp only [step] at hstep
      split at hstep
      · next hfinish =>
          obtain rfl := Option.some.inj hstep
          simp only [rank, hfinish.2]
          simp
      · simp at hstep
  refine ⟨TransitionSystem.terminates_of_rank (rank schedule) (fun _ _ => trivial)
    (fun _ _ _ _ => trivial) hrank, fun pool hreaches hstuck houtcome => ?_⟩
  cases hpending : pool.pending with
  | nil =>
    have hperm := hreaches.invariant.inFlight_perm
    rw [hpending] at hperm
    obtain ⟨action, -, hstep⟩ := hreaches.invariant.progress hperm.eq_nil houtcome .promise
    simp [hstuck action] at hstep
  | cons index rest =>
    have hsettle := hstuck (.settle index outcome)
    simp [step, hpending] at hsettle

end ConvexWasm.CohortSchedule
