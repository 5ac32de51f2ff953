import ConvexWasm.Core.TransitionSystem

/-!
# Mapping with bounded concurrency

Workers share a cursor into the values.  A worker runs from its start, or from the
settlement of the operation it awaits, to its next `await` without interruption.
Which operation settles next is left open; what comes out does not depend on it.
-/

namespace ConvexWasm.BoundedMap

open List TransitionSystem

variable {Value Result Error : Type}

/-- What a call of the callback does: it throws, or its promise settles. -/
inductive Call (Result Error : Type)
  | throws (error : Error)
  | settles (outcome : Except Error Result)

def Call.outcome : Call Result Error → Except Error Result
  | .throws error => .error error
  | .settles outcome => outcome

def Call.failure (call : Call Result Error) : Option Error :=
  match call.outcome with
  | .ok _ => none
  | .error error => some error

structure State (Result Error : Type) where
  toLaunch : ℕ
  /-- operations whose workers have not resumed -/
  awaited : List ℕ
  returned : ℕ
  nextIndex : ℕ
  stopped : Bool
  results : List (Option Result)
  failures : List (ℕ × Error)

inductive Action
  | launch
  | resume (index : ℕ)

variable (callback : Value → Call Result Error) (values : List Value) (concurrency : ℕ)

/-- The workers that `Array.from` creates. -/
def workerCount : ℕ := min concurrency values.length

def start : State Result Error where
  toLaunch := workerCount values concurrency
  awaited := []
  returned := 0
  nextIndex := 0
  stopped := false
  results := replicate values.length none
  failures := []

namespace State

variable (state : State Result Error)

def fail (index : ℕ) (error : Error) : State Result Error :=
  { state with failures := state.failures ++ [(index, error)], stopped := true }

/-- The loop of a worker up to its next `await` or its return. -/
def proceed : State Result Error :=
  if state.stopped then { state with returned := state.returned + 1 }
  else
    match values[state.nextIndex]? with
    | none => { state with returned := state.returned + 1 }
    | some value =>
      match callback value with
      -- a failure stops the loop
      | .throws error =>
        { state with nextIndex := state.nextIndex + 1, returned := state.returned + 1 }.fail
          state.nextIndex error
      | .settles _ =>
        { state with
          nextIndex := state.nextIndex + 1, awaited := state.awaited ++ [state.nextIndex] }

/-- What `await` gives the worker. -/
def settle (index : ℕ) : Except Error Result → State Result Error
  | .ok result =>
    { state with
      awaited := state.awaited.erase index, results := state.results.set index (some result) }
  | .error error => { state with awaited := state.awaited.erase index }.fail index error

/-- What comes out when all workers have returned. -/
def outcome : Option (Except (Option Error) (List (Option Result))) :=
  if state.returned = workerCount values concurrency then
    match (state.failures.map Prod.fst).min? with
    | none => some (.ok state.results)
    | some first =>
      some (.error ((state.failures.find? fun failure => failure.1 = first).map Prod.snd))
  else none

end State

/-- All workers start before the first of them resumes. -/
def step (action : Action) (state : State Result Error) : Option (State Result Error) :=
  match action with
  | .launch =>
    if state.toLaunch = 0 then none
    else some ({ state with toLaunch := state.toLaunch - 1 }.proceed callback values)
  | .resume index =>
    if state.toLaunch = 0 ∧ index ∈ state.awaited then
      match values[index]? with
      | some value =>
        some ((state.settle index (callback value).outcome).proceed callback values)
      | none => none
    else none

def Reached : State Result Error → Prop :=
  Reachable (· = start values concurrency) fun state state' =>
    ∃ action, step callback values action state = some state'

/-- What one call after the other would give: the first failure, or all results. -/
def sequential : Except (Option Error) (List (Option Result)) :=
  match values.findSome? fun value => (callback value).failure with
  | some error => .error (some error)
  | none => .ok (values.map fun value => (callback value).outcome.toOption)

/-- What the value at an index came to stands where it should. -/
def Answered (results : List (Option Result)) (failures : List (ℕ × Error)) (index : ℕ) : Prop :=
  ∀ value, values[index]? = some value →
    match (callback value).outcome with
    | .ok result => results[index]? = some (some result)
    | .error error => (index, error) ∈ failures

/-- While a worker runs it is counted as `active`. -/
structure Sound (active : ℕ) (state : State Result Error) : Prop where
  workers : state.toLaunch + state.awaited.length + state.returned + active =
    workerCount values concurrency
  distinct : state.awaited.Nodup
  known : ∀ index ∈ state.awaited, index < state.nextIndex
  bounded : state.nextIndex ≤ values.length
  length : state.results.length = values.length
  answered : ∀ index < state.nextIndex, index ∉ state.awaited →
    Answered callback values state.results state.failures index
  truthful : ∀ index error, (index, error) ∈ state.failures → index < state.nextIndex ∧
    ∃ value, values[index]? = some value ∧ (callback value).outcome = .error error
  stopped : state.stopped = true ↔ state.failures ≠ []
  ended : 0 < state.returned → state.stopped = true ∨ values.length ≤ state.nextIndex

variable {callback values concurrency} {state : State Result Error} {index : ℕ} {value : Value}

theorem Answered.mono {results results' : List (Option Result)}
    {failures failures' : List (ℕ × Error)}
    (hanswered : Answered callback values results failures index)
    (hresults : results'[index]? = results[index]?) (hfailures : failures ⊆ failures') :
    Answered callback values results' failures' index := by
  intro value hvalue
  have hold := hanswered value hvalue
  split
  case h_1 result hok =>
    rw [hok] at hold
    exact hresults.trans hold
  case h_2 error herror =>
    rw [herror] at hold
    exact hfailures hold

theorem sound_start : Sound callback values concurrency 0 (start values concurrency) where
  workers := rfl
  distinct := nodup_nil
  known := by simp [start]
  bounded := Nat.zero_le _
  length := length_replicate
  answered := by simp [start]
  truthful := by simp [start]
  stopped := by simp [start]
  ended hreturned := absurd hreturned (lt_irrefl 0)

/-- The worker learns what it awaited. -/
theorem Sound.settle (hsound : Sound callback values concurrency 0 state)
    (hmem : index ∈ state.awaited) (hvalue : values[index]? = some value) :
    Sound callback values concurrency 1 (state.settle index (callback value).outcome) := by
  have hworkers := hsound.workers
  have hlength := length_erase_of_mem hmem
  have hpositive := length_pos_of_mem hmem
  have hrest : ∀ other ∉ state.awaited.erase index, other = index ∨ other ∉ state.awaited := by
    intro other hnot
    rw [hsound.distinct.mem_erase_iff, not_and_or, not_not] at hnot
    exact hnot
  have hknown : ∀ other ∈ state.awaited.erase index, other < state.nextIndex :=
    fun other hother => hsound.known other (mem_of_mem_erase hother)
  cases houtcome : (callback value).outcome with
  | ok result =>
    exact { hsound with
      workers := by dsimp only [State.settle]; omega
      distinct := hsound.distinct.erase index
      known := hknown
      length := by rw [State.settle, length_set, hsound.length]
      answered := fun other hlt hnot => by
        obtain ⟨hbound, -⟩ := List.getElem?_eq_some_iff.mp hvalue
        by_cases heq : other = index
        · intro found hfound
          rw [heq] at hfound
          obtain rfl := Option.some.inj (hvalue.symm.trans hfound)
          rw [houtcome, heq]
          exact getElem?_set_self (hsound.length.symm ▸ hbound)
        · exact (hsound.answered other hlt ((hrest other hnot).resolve_left heq)).mono
            (getElem?_set_ne (Ne.symm heq)) (Subset.refl _) }
  | error error =>
    exact { hsound with
      workers := by dsimp only [State.settle, State.fail]; omega
      distinct := hsound.distinct.erase index
      known := hknown
      answered := fun other hlt hnot => by
        obtain rfl | hother := hrest other hnot
        · intro found hfound
          obtain rfl := Option.some.inj (hvalue.symm.trans hfound)
          rw [houtcome]
          exact mem_append_right _ (mem_singleton_self _)
        · exact (hsound.answered other hlt hother).mono rfl (subset_append_left _ _)
      truthful := fun other found hfound => by
        obtain hold | hlast := mem_append.mp hfound
        · exact hsound.truthful other found hold
        · cases mem_singleton.mp hlast
          exact ⟨hsound.known index hmem, value, hvalue, houtcome⟩
      stopped := by simp [State.settle, State.fail]
      ended := fun _ => .inl rfl }

/-- The worker begins the next operation. -/
theorem Sound.begin (hsound : Sound callback values concurrency 1 state)
    (hvalue : values[state.nextIndex]? = some value) (hrunning : ¬ state.stopped = true) :
    Sound callback values concurrency 0 { state with
      nextIndex := state.nextIndex + 1, awaited := state.awaited ++ [state.nextIndex] } := by
  obtain ⟨hlt, -⟩ := List.getElem?_eq_some_iff.mp hvalue
  have hworkers := hsound.workers
  exact { hsound with
    workers := by
      rw [length_append, length_singleton]
      dsimp only
      omega
    distinct := by
      rw [← concat_eq_append]
      exact hsound.distinct.concat fun hmem => lt_irrefl _ (hsound.known _ hmem)
    known := fun index hmem => by
      obtain hold | hlast := mem_append.mp hmem
      · exact Nat.lt_succ_of_lt (hsound.known index hold)
      · exact mem_singleton.mp hlast ▸ Nat.lt_succ_self _
    bounded := hlt
    answered := fun index hindex hnot => by
      rw [mem_append, mem_singleton, not_or] at hnot
      exact hsound.answered index (lt_of_le_of_ne (Nat.lt_succ_iff.mp hindex) hnot.2) hnot.1
    truthful := fun index error hmem =>
      (hsound.truthful index error hmem).imp Nat.lt_succ_of_lt id
    ended := fun hreturned => by
      obtain hstopped | hend := hsound.ended hreturned
      · exact absurd hstopped hrunning
      · exact absurd hlt (not_lt.mpr hend) }

/-- One turn of a worker; an operation that throws is one that fails at once. -/
theorem Sound.proceed (hsound : Sound callback values concurrency 1 state) :
    Sound callback values concurrency 0 (state.proceed callback values) := by
  have hworkers := hsound.workers
  unfold State.proceed
  split
  case isTrue hstopped =>
    exact { hsound with
      workers := by dsimp only; omega
      ended := fun _ => .inl hstopped }
  case isFalse hrunning =>
    split
    case h_1 hnone =>
      exact { hsound with
        workers := by dsimp only; omega
        ended := fun _ => .inr (List.getElem?_eq_none_iff.mp hnone) }
    case h_2 value hvalue =>
      have hbegun := hsound.begin hvalue hrunning
      split
      case h_1 error hcall =>
        have hfailed := hbegun.settle (mem_append_right _ (mem_singleton_self _)) hvalue
        rw [hcall, Call.outcome, State.settle, erase_append_right _
          fun hmem => lt_irrefl _ (hsound.known _ hmem), erase_cons_head, append_nil] at hfailed
        exact { hfailed with ended := fun _ => .inl rfl }
      case h_2 => exact hbegun

theorem Sound.step {action : Action} {state' : State Result Error}
    (hsound : Sound callback values concurrency 0 state)
    (hstep : step callback values action state = some state') :
    Sound callback values concurrency 0 state' := by
  cases action with
  | launch =>
    simp only [BoundedMap.step] at hstep
    split at hstep
    · cases hstep
    · cases hstep
      have hworkers := hsound.workers
      exact Sound.proceed { hsound with workers := by dsimp only; omega }
  | resume index =>
    simp only [BoundedMap.step] at hstep
    split at hstep
    case isTrue hready =>
      split at hstep
      case h_1 value hvalue =>
        cases hstep
        exact (hsound.settle hready.2 hvalue).proceed
      case h_2 => cases hstep
    case isFalse => cases hstep

theorem Reached.sound (hreached : Reached callback values concurrency state) :
    Sound callback values concurrency 0 state :=
  hreached.invariant (fun _ hstart => hstart ▸ sound_start)
    fun _ _ hsound ⟨_, hstep⟩ => hsound.step hstep

/-- Without a failure all values were called and stand in the results. -/
theorem sequential_of_results {results : List (Option Result)}
    (hlength : results.length = values.length)
    (hanswered : ∀ index < values.length, Answered callback values results [] index) :
    sequential callback values = .ok results := by
  have hok : ∀ (index : ℕ) value, values[index]? = some value → (callback value).failure = none ∧
      results[index]? = some (callback value).outcome.toOption := by
    intro index value hvalue
    have hresult := hanswered index (List.getElem?_eq_some_iff.mp hvalue).1 value hvalue
    rw [Call.failure]
    cases houtcome : (callback value).outcome with
    | ok result =>
      rw [houtcome] at hresult
      exact ⟨rfl, hresult⟩
    | error error =>
      rw [houtcome] at hresult
      cases hresult
  have hnone : values.findSome? (fun value => (callback value).failure) = none := by
    rw [findSome?_eq_none_iff]
    intro value hvalue
    obtain ⟨index, hindex⟩ := List.getElem?_of_mem hvalue
    exact (hok index value hindex).1
  rw [sequential, hnone]
  refine congrArg Except.ok (ext_getElem? fun index => ?_)
  rw [getElem?_map]
  cases hvalue : values[index]? with
  | none =>
    rw [List.getElem?_eq_none_iff] at hvalue
    exact (List.getElem?_eq_none_iff.mpr (hlength ▸ hvalue)).symm
  | some value => exact (hok index value hvalue).2.symm

/-- The failure of the least index is the first one in the order of the values. -/
theorem sequential_of_failure {results : List (Option Result)} {failures : List (ℕ × Error)}
    {error : Error} (hvalue : values[index]? = some value)
    (houtcome : (callback value).outcome = .error error)
    (hanswered : ∀ other < index, Answered callback values results failures other)
    (hleast : ∀ failure ∈ failures, index ≤ failure.1) :
    sequential callback values = .error (some error) := by
  obtain ⟨hlt, rfl⟩ := List.getElem?_eq_some_iff.mp hvalue
  have hfirst : values.findSome? (fun value => (callback value).failure) = some error := by
    refine findSome?_eq_some_iff.mpr ⟨values.take index, values[index], values.drop (index + 1), ?_,
      by rw [Call.failure, houtcome], fun other hother => ?_⟩
    · rw [← drop_eq_getElem_cons, take_append_drop]
    · obtain ⟨position, hposition, rfl⟩ := mem_take_iff_getElem.mp hother
      have hbefore : position < index := lt_of_lt_of_le hposition (min_le_left _ _)
      have hanswer := hanswered position hbefore _ (getElem?_eq_getElem (hbefore.trans hlt))
      rw [Call.failure]
      split
      · rfl
      case h_2 found hfound =>
        rw [hfound] at hanswer
        exact absurd (hleast _ hanswer) (not_le.mpr hbefore)
  rw [sequential, hfirst]

/-- A run is over when nothing is awaited, with the outcome of calling one by one. -/
theorem Sound.outcome_eq (hsound : Sound callback values concurrency 0 state)
    (hconcurrency : 0 < concurrency) {outcome : Except (Option Error) (List (Option Result))}
    (houtcome : state.outcome values concurrency = some outcome) :
    state.awaited = [] ∧ outcome = sequential callback values := by
  have hworkers := hsound.workers
  unfold State.outcome at houtcome
  split at houtcome
  case isFalse => cases houtcome
  case isTrue hreturned =>
    have hawaited : state.awaited = [] := length_eq_zero_iff.mp (by omega)
    have hanswered : ∀ index < state.nextIndex,
        Answered callback values state.results state.failures index :=
      fun index hindex => hsound.answered index hindex (by simp [hawaited])
    refine ⟨hawaited, ?_⟩
    split at houtcome
    case h_1 hnone =>
      cases houtcome
      have hfailures : state.failures = [] := map_eq_nil_iff.mp (min?_eq_none_iff.mp hnone)
      have hend : values.length ≤ state.nextIndex := by
        by_cases hstarted : 0 < state.returned
        · refine (hsound.ended hstarted).resolve_left fun hstopped => ?_
          exact hsound.stopped.mp hstopped hfailures
        · rw [hreturned, workerCount] at hstarted
          omega
      rw [hfailures] at hanswered
      exact (sequential_of_results hsound.length fun index hindex =>
        hanswered index (hindex.trans_le hend)).symm
    case h_2 first hfirst =>
      cases houtcome
      obtain ⟨hmem, hleast⟩ := min?_eq_some_iff.mp hfirst
      obtain ⟨failure, hfailure, rfl⟩ := mem_map.mp hmem
      obtain ⟨found, hfound⟩ : ∃ found, state.failures.find?
          (fun other => other.1 = failure.1) = some found :=
        Option.isSome_iff_exists.mp (find?_isSome.mpr ⟨failure, hfailure, decide_eq_true rfl⟩)
      have hsame : found.1 = failure.1 := by simpa using find?_some hfound
      obtain ⟨hlt, value, hvalue, herror⟩ :=
        hsound.truthful found.1 found.2 (mem_of_find?_eq_some hfound)
      rw [hfound, sequential_of_failure hvalue herror
        (fun other hother => hanswered other (hother.trans hlt))
        fun other hother => hsame ▸ hleast _ (mem_map_of_mem hother)]
      rfl

/-- At most so many operations are in flight as the limit says, the run is over only
when all have settled, and what it gives does not depend on the order in which they
settle: all results in the order of the values, or the failure of the least index. -/
theorem mapBounded_deterministic (callback : Value → Call Result Error) (values : List Value)
    (concurrency : ℕ) (hconcurrency : 0 < concurrency) (state : State Result Error)
    (hreached : Reached callback values concurrency state) :
    state.awaited.length ≤ concurrency ∧
      (∀ outcome, state.outcome values concurrency = some outcome →
        state.awaited = [] ∧ outcome = sequential callback values) ∧
      (state.outcome values concurrency = none →
        ∃ action state', step callback values action state = some state') := by
  have hsound := hreached.sound
  have hworkers := hsound.workers
  refine ⟨?_, fun outcome houtcome => hsound.outcome_eq hconcurrency houtcome, fun hnone => ?_⟩
  · rw [workerCount] at hworkers
    omega
  · by_cases hlaunch : state.toLaunch = 0
    · cases hawaited : state.awaited with
      | nil =>
        rw [hawaited, length_nil] at hworkers
        rw [State.outcome, if_pos (by omega)] at hnone
        split at hnone
        all_goals cases hnone
      | cons index later =>
        have hmem : index ∈ state.awaited := hawaited ▸ mem_cons_self
        have hlt := (hsound.known index hmem).trans_le hsound.bounded
        refine ⟨.resume index, (state.settle index
          (callback values[index]).outcome).proceed callback values, ?_⟩
        rw [step, if_pos ⟨hlaunch, hmem⟩, getElem?_eq_getElem hlt]
    · exact ⟨.launch, _, if_neg hlaunch⟩

theorem mapBounded_deterministic_sample :
    .error (some "gone") = sequential (fun value => if value = 8 then .settles (.error "gone")
      else .settles (.ok value)) [8, 9] :=
  ((mapBounded_deterministic _ [8, 9] 1 one_pos ⟨0, [], 1, 1, true, [none, none], [(0, "gone")]⟩
    (.next (.next (.start rfl) ⟨.launch, rfl⟩) ⟨.resume 0, rfl⟩)).2.1 _ rfl).2

end ConvexWasm.BoundedMap
