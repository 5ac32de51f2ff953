import ConvexWasm.Runtime.ChunkInitializationInvariant

/-!
# Every order of requires and failures

Whatever guest code requires, registers, publishes, throws and catches, the
loader keeps its invariant; a failure stays until the runtime is reset, and an
entry point returns without one.
-/

namespace ConvexWasm.Runtime.ChunkInitialization

open List TransitionSystem

variable {topology : Topology} {popped : Option ℕ} {state state' state'' : State}
  {imports : OrderedImports} {caller : Caller} {unit entry namespaceValue : ℕ}
  {arguments : List Value} {supportValid descriptorsValid : Bool} {mode : Mode} {event : Event}

/-- The entry point that is active stays so, and a failure is not forgotten. -/
structure Kept (state state' : State) : Prop where
  mode : state'.mode = state.mode
  dirty : state.dirty = true → state'.dirty = true

theorem Kept.trans (hfirst : Kept state state') (hsecond : Kept state' state'') :
    Kept state state'' :=
  ⟨hsecond.mode.trans hfirst.mode, hsecond.dirty ∘ hfirst.dirty⟩

theorem Kept.fail (state : State) : Kept state state.fail :=
  ⟨rfl, fun _ => rfl⟩

theorem Kept.interrupt (state : State) (imports : OrderedImports) :
    Kept state (state.interrupt imports) :=
  ⟨rfl, fun _ => rfl⟩

/-- The loader has done something: its invariant holds, and it has either reset
the runtime or kept to the entry point. -/
structure Outcome (topology : Topology) (state state' : State) : Prop where
  sound : Sound topology none state'
  kept : state' = initialState ∨ Kept state state'

theorem Outcome.reset (state : State) : Outcome topology state initialState :=
  ⟨Sound.initial topology, .inl rfl⟩

theorem Outcome.after (houtcome : Outcome topology state' state'') (hkept : Kept state state') :
    Outcome topology state state'' :=
  ⟨houtcome.sound, houtcome.kept.imp_right hkept.trans⟩

theorem Outcome.fail (hsound : Sound topology popped state) : Outcome topology state state.fail :=
  ⟨hsound.fail, .inr (Kept.fail state)⟩

/-- What a request for a chunk leaves, and what it comes to. -/
structure Initialized (topology : Topology) (state : State) (unit : ℕ)
    (result : State × Initialization) : Prop where
  sound : Sound topology none result.1
  kept : Kept state result.1
  trace : state.trace ⊆ result.1.trace
  returned : ∀ namespaceValue, result.2 = .returned namespaceValue →
    ∃ initialized, .returned unit namespaceValue initialized ∈ result.1.trace

section

variable (hsound : Sound topology none state)
include hsound

theorem Initialized.threw : Initialized topology state unit (state.fail, .threw) :=
  ⟨hsound.fail, Kept.fail state, subset_cons_self _ _, nofun⟩

theorem initializeOfficialChunkUnit_spec
    (hframe : FrameSound topology state.trace (.factory unit caller)) :
    Initialized topology state unit (state.initializeOfficialChunkUnit topology unit caller) := by
  unfold State.initializeOfficialChunkUnit
  split
  · exact .threw hsound
  · rename_i hunit
    dsimp only
    split
    · rename_i namespaceValue hstate hvalue
      split
      · exact
          { sound := hsound.recordReturned hvalue fun _ => hstate
            kept := ⟨rfl, id⟩
            trace := subset_cons_self _ _
            returned := fun found hfound => by
              cases hfound
              exact ⟨true, mem_cons_self⟩ }
      · exact .threw hsound
    · exact .threw hsound
    · rename_i namespaceValue _ hvalue
      exact
        { sound := hsound.recordReturned hvalue nofun
          kept := ⟨rfl, id⟩
          trace := subset_cons_self _ _
          returned := fun found hfound => by
            cases hfound
            exact ⟨false, mem_cons_self⟩ }
    · exact .threw hsound
    · rename_i hstate
      split
      · exact
          { sound := hsound.evaluate (not_le.mp hunit) hstate hframe
            kept := ⟨rfl, id⟩
            trace := subset_cons_self _ _
            returned := nofun }
      · exact .threw hsound

theorem importNext_outcome (hprogress : ImportsProgress topology state.trace imports []) :
    Sound topology none (state.importNext topology imports) ∧
      Kept state (state.importNext topology imports) := by
  have hinterrupt := hsound.interrupt hprogress.called
  unfold State.importNext
  split
  · rename_i hindex
    have hlength := hprogress.length_eq
    have hended : imports.calls.length = imports.bindings.length := by
      simpa [hindex] using hlength
    exact ⟨hsound.record (hsound.ledger.quiet rfl) ⟨hprogress.called, hended⟩ nofun,
      ⟨rfl, id⟩⟩
  · rename_i hindex
    split
    · exact ⟨hinterrupt, Kept.interrupt state imports⟩
    · rename_i target htarget
      split
      · exact ⟨hinterrupt, Kept.interrupt state imports⟩
      · split
        · exact ⟨hinterrupt, Kept.interrupt state imports⟩
        · rename_i binding hbinding
          have hconsumed := hprogress.consume hindex htarget hbinding
          have hinitialized := initializeOfficialChunkUnit_spec hsound
            (show FrameSound topology state.trace (.factory target (.imports _ binding)) from
              hconsumed)
          have hpending := hconsumed.mono hinitialized.trace
          dsimp only
          split
          · rename_i after namespaceValue heq
            rw [heq] at hinitialized hpending
            exact ⟨hinitialized.sound.callImport hpending
              (hinitialized.returned namespaceValue rfl), hinitialized.kept.trans ⟨rfl, id⟩⟩
          · rename_i after heq
            rw [heq] at hinitialized hpending
            exact ⟨hinitialized.sound.interrupt hpending.called,
              hinitialized.kept.trans (Kept.interrupt after _)⟩
          · rename_i after heq
            rw [heq] at hinitialized
            exact ⟨hinitialized.sound, hinitialized.kept⟩

theorem requireNamespace_outcome :
    Outcome topology state (state.requireNamespace topology unit arguments) := by
  have hfail := Outcome.fail hsound
  unfold State.requireNamespace
  split
  · split
    · split
      · split
        · exact hfail
        · rename_i imports horder
          have hnext := importNext_outcome hsound (orderedImports_progress horder)
          exact ⟨hnext.1, .inr hnext.2⟩
      · exact hfail
    · split
      · exact hfail
      · split
        · exact hfail
        · rename_i target _
          have hinitialized := initializeOfficialChunkUnit_spec hsound
            (show FrameSound topology state.trace (.factory target .guest) from trivial)
          split
          · rename_i after heq
            rw [heq] at hinitialized
            exact (Outcome.fail hinitialized.sound).after hinitialized.kept
          · rename_i after _ _ heq
            rw [heq] at hinitialized
            exact ⟨hinitialized.sound, .inr hinitialized.kept⟩
  · exact hfail

theorem beginNamespace_outcome : Outcome topology state (state.beginNamespace unit arguments) := by
  have hfail := Outcome.fail hsound
  unfold State.beginNamespace
  split
  · dsimp only
    split
    · rename_i namespaceValue _
      split
      · rename_i hslot
        have hbegun := hsound.ledger.begin namespaceValue hslot.1 hslot.2
        exact ⟨hsound.setUnit hbegun trivial nofun rfl, .inr ⟨rfl, id⟩⟩
      · exact hfail
    · exact hfail
  · exact hfail

theorem publishNamespace_outcome :
    Outcome topology state (state.publishNamespace unit arguments) := by
  have hfail := Outcome.fail hsound
  unfold State.publishNamespace
  split
  · dsimp only
    split
    · split
      · rename_i hslot
        have hpublished := hsound.ledger.publish hslot.1 hslot.2.2 hslot.2.1
        exact ⟨hsound.setUnit hpublished trivial nofun rfl, .inr ⟨rfl, id⟩⟩
      · exact hfail
    · exact hfail
  · exact hfail

theorem publishEntry_outcome : Outcome topology state (state.publishEntry topology entry) := by
  unfold State.publishEntry
  split
  · exact ⟨hsound.push trivial nofun, .inr ⟨rfl, id⟩⟩
  · exact .reset state

theorem initializeOfficialChunkEntry_outcome :
    Outcome topology state (state.initializeOfficialChunkEntry topology entry) := by
  unfold State.initializeOfficialChunkEntry
  split
  · exact .reset state
  · have hinitialized := initializeOfficialChunkUnit_spec hsound
      (show FrameSound topology state.trace
        (.factory (topology.entryChunkSlot entry) (.entry entry)) from trivial)
    split
    · rename_i after _ heq
      rw [heq] at hinitialized
      exact (publishEntry_outcome hinitialized.sound).after hinitialized.kept
    · exact .reset state
    · rename_i after heq
      rw [heq] at hinitialized
      exact ⟨hinitialized.sound, .inr hinitialized.kept⟩

theorem readNamespace_outcome :
    Outcome topology state (state.readNamespace topology entry arguments) := by
  unfold State.readNamespace
  split
  · dsimp only
    split
    · exact ⟨hsound, .inr ⟨rfl, id⟩⟩
    · exact .fail hsound
  · exact .fail hsound

end

/-- The invariant does not look at the entries. -/
theorem Sound.entries (hsound : Sound topology popped state) (exports pending : ℕ → Option ℕ)
    (counts : ℕ → ℕ) :
    Sound topology popped
      { state with exports, unitInitializationCount := counts, pendingExports := pending } :=
  { hsound with }

theorem publishEntryNamespace_outcome (hsound : Sound topology none state) :
    Outcome topology state (state.publishEntryNamespace topology entry arguments) := by
  unfold State.publishEntryNamespace
  split
  · dsimp only
    split
    · split
      · exact ⟨hsound.entries _ _ _, .inr ⟨rfl, id⟩⟩
      · exact .fail hsound
    · exact .fail hsound
  · exact .fail hsound

theorem finishEntry_outcome (hsound : Sound topology none state) :
    Outcome topology state (state.finishEntry entry) := by
  unfold State.finishEntry
  split
  · exact .reset state
  · exact ⟨hsound.entries _ _ _, .inr ⟨rfl, id⟩⟩

theorem failFactory_outcome (hsound : Sound topology popped state)
    (hframe : FrameSound topology state.trace (.factory unit caller)) :
    Outcome topology state (state.failFactory caller) := by
  cases caller with
  | guest => exact .fail hsound
  | imports imports binding =>
    have hprogress : ImportsProgress topology state.trace imports [(binding, unit)] := hframe
    have hcalled := hprogress.called.mono (subset_cons_self .failed state.trace)
    exact ⟨hsound.fail.interrupt hcalled,
      .inr ((Kept.fail state).trans (Kept.interrupt _ imports))⟩
  | entry slot => exact .reset state

theorem finishFactory_outcome (hsound : Sound topology (some unit) state)
    (hentered : (state.units unit).state ≠ .uninitialized)
    (hframe : FrameSound topology state.trace (.factory unit caller)) :
    Outcome topology state
      (state.finishFactory topology unit caller descriptorsValid) := by
  unfold State.finishFactory
  dsimp only
  split
  · rename_i namespaceValue hpublished hvalue
    have hfinished := hsound.finish hentered hpublished
    split
    · have hfound : ((state.setUnit unit
          { state.units unit with state := .initialized }).units unit).namespaceValue =
            some namespaceValue := by
        simpa [State.setUnit] using hvalue
      have hreturned := hfinished.recordReturned hfound
        fun _ : true = true => by simp [State.setUnit]
      cases caller with
      | guest => exact ⟨hreturned, .inr ⟨rfl, id⟩⟩
      | imports imports binding =>
        have hprogress : ImportsProgress topology state.trace imports [(binding, unit)] := hframe
        have hpending := hprogress.mono
          (subset_cons_self (.returned unit namespaceValue true) state.trace)
        exact ⟨hreturned.callImport hpending ⟨true, mem_cons_self⟩, .inr ⟨rfl, id⟩⟩
      | entry slot => exact (publishEntry_outcome hreturned).after ⟨rfl, id⟩
    · exact (failFactory_outcome hfinished hframe).after ⟨rfl, id⟩
  · exact failFactory_outcome hsound hframe

section

variable (hsound : Sound topology none state)
include hsound

theorem returnTop_outcome (hreturn : state.returnTop topology descriptorsValid = some state') :
    Outcome topology state state' := by
  unfold State.returnTop at hreturn
  split at hreturn
  · cases hreturn
  · rename_i unit caller rest hstack
    cases hreturn
    have hmem : Frame.factory unit caller ∈ state.stack := hstack ▸ mem_cons_self
    have hpopped : Sound topology (some unit) { state with stack := rest } :=
      hsound.pop hstack fun _ _ heq => by cases heq; rfl
    have hfinished := @finishFactory_outcome _ _ _ _ descriptorsValid hpopped
      (hsound.entered unit caller hmem) (hsound.frames _ hmem)
    exact hfinished.after ⟨rfl, id⟩
  · rename_i imports rest hstack
    cases hreturn
    have hprogress := hsound.frames (.callback imports) (hstack ▸ mem_cons_self)
    have hpopped : Sound topology none { state with stack := rest } := hsound.pop hstack nofun
    have hnext := importNext_outcome hpopped hprogress
    have hkept : Kept state { state with stack := rest } := ⟨rfl, id⟩
    exact ⟨hnext.1, .inr (hkept.trans hnext.2)⟩
  · rename_i entry rest hstack
    cases hreturn
    have hpopped : Sound topology none { state with stack := rest } := hsound.pop hstack nofun
    exact (finishEntry_outcome hpopped).after ⟨rfl, id⟩

theorem throwTop_outcome (hthrow : state.throwTop = some state') :
    Outcome topology state state' := by
  unfold State.throwTop at hthrow
  split at hthrow
  · cases hthrow
  · rename_i unit caller rest hstack
    cases hthrow
    have hmem : Frame.factory unit caller ∈ state.stack := hstack ▸ mem_cons_self
    have hpopped : Sound topology (some unit) { state with stack := rest } :=
      hsound.pop hstack fun _ _ heq => by cases heq; rfl
    exact (failFactory_outcome hpopped (hsound.frames _ hmem)).after ⟨rfl, id⟩
  · rename_i imports rest hstack
    cases hthrow
    have hprogress : ImportsProgress topology state.trace imports [] :=
      hsound.frames (.callback imports) (hstack ▸ mem_cons_self)
    have hpopped : Sound topology none { state with stack := rest } := hsound.pop hstack nofun
    exact ⟨hpopped.interrupt hprogress.called, .inr ⟨rfl, fun _ => rfl⟩⟩
  · cases hthrow
    exact .reset state

/-- A call of the host goes on only if the state is valid: not dirty, with all
units settled. -/
theorem continueValid_sound :
    Sound topology none (state.continueValid topology mode supportValid) := by
  unfold State.continueValid State.validate
  split
  · split
    · rename_i hvalid
      have hsettled := (Bool.and_eq_true_iff.mp hvalid).2
      have hall : ∀ unit, settledSlot topology unit (state.units unit) = true := by
        intro unit
        by_cases hunit : unit < kMaxApplicationUnitSlots
        · exact all_eq_true.mp hsettled unit (mem_range.mpr hunit)
        · have hle : topology.chunkSlotCount ≤ unit := by
            have hslots := topology.unitSlots_le
            omega
          rw [(hsound.ledger.slots unit).outside hle]
          exact settledSlot_empty topology unit
      exact { hsound with cached := fun _ => hall }
    · exact { hsound with }
  · exact Sound.initial topology

end

theorem continueValid_cases :
    state.continueValid topology mode supportValid = initialState ∨
      (state.dirty = false ∧ (state.continueValid topology mode supportValid).dirty = false ∧
        (state.continueValid topology mode supportValid).stack = state.stack ∧
        (state.continueValid topology mode supportValid).mode = mode) := by
  unfold State.continueValid State.validate
  split
  · rename_i hvalid
    have hdirty : state.dirty = false := by
      simp only [State.retainedStateIsValid, State.entriesValid, Bool.and_eq_true] at hvalid
      simpa using hvalid.1.1.1.2
    right
    split
    · exact ⟨hdirty, hdirty, rfl, rfl⟩
    · exact ⟨hdirty, hdirty, rfl, rfl⟩
  · exact .inl rfl

/-- Between the entry points the runtime is as it may be retained. -/
structure Retained (topology : Topology) (state : State) : Prop where
  sound : Sound topology none state
  boundary : state.mode = .outside → state.dirty = false ∧ state.stack = []

theorem Retained.of_continue (hsound : Sound topology none state)
    (hstack : mode = .outside → state.stack = []) :
    Retained topology (state.continueValid topology mode supportValid) where
  sound := continueValid_sound hsound
  boundary hmode := by
    rcases @continueValid_cases topology state supportValid mode with hreset | hkept
    · rw [hreset]
      exact ⟨rfl, rfl⟩
    · exact ⟨hkept.2.1, hkept.2.2.1.trans (hstack (hkept.2.2.2.symm.trans hmode))⟩

theorem Outcome.retained (houtcome : Outcome topology state state')
    (hmode : state.mode ≠ .outside) : Retained topology state' where
  sound := houtcome.sound
  boundary houtside := by
    rcases houtcome.kept with hreset | hkept
    · rw [hreset]
      exact ⟨rfl, rfl⟩
    · exact absurd (hkept.mode.symm.trans houtside) hmode

/-- What guest code and the loader do while an entry point is active. -/
theorem step_outcome (hsound : Sound topology none state) (hmode : state.mode ≠ .outside)
    (hstep : state.step topology event = some state')
    (hleave : ∀ supportValid, event ≠ .leave supportValid) : Outcome topology state state' := by
  cases event with
  | enterPrepare supportValid =>
    rw [State.step, if_pos hmode] at hstep
    cases hstep
  | initializeEntry entry =>
    simp only [State.step] at hstep
    split at hstep
    · cases hstep
      exact initializeOfficialChunkEntry_outcome hsound
    · cases hstep
  | prepareFails =>
    simp only [State.step] at hstep
    split at hstep
    · cases hstep
      exact .reset state
    · cases hstep
  | enterRun supportValid =>
    rw [State.step, if_pos hmode] at hstep
    cases hstep
  | leave supportValid => exact absurd rfl (hleave supportValid)
  | require unit arguments =>
    simp only [State.step] at hstep
    split at hstep
    · cases hstep
    · cases hstep
      exact requireNamespace_outcome hsound
  | begin unit arguments =>
    simp only [State.step] at hstep
    split at hstep
    · cases hstep
    · cases hstep
      exact beginNamespace_outcome hsound
  | publish unit arguments =>
    simp only [State.step] at hstep
    split at hstep
    · cases hstep
    · cases hstep
      exact publishNamespace_outcome hsound
  | readNamespace entry arguments =>
    rw [State.step, if_neg hmode] at hstep
    cases hstep
    exact readNamespace_outcome hsound
  | publishEntryNamespace entry arguments =>
    rw [State.step, if_neg hmode] at hstep
    cases hstep
    exact publishEntryNamespace_outcome hsound
  | returns descriptorsValid =>
    rw [State.step, if_neg hmode] at hstep
    exact returnTop_outcome hsound hstep
  | throws =>
    rw [State.step, if_neg hmode] at hstep
    exact throwTop_outcome hsound hstep

/-- Outside an entry point the host can only enter one. -/
theorem step_outside (hretained : Retained topology state) (hmode : state.mode = .outside)
    (hstep : state.step topology event = some state') : Retained topology state' := by
  cases event with
  | enterPrepare supportValid =>
    rw [State.step, if_neg (not_not.mpr hmode)] at hstep
    split at hstep
    · cases hstep
      exact .of_continue hretained.sound nofun
    · cases hstep
      exact ⟨{ hretained.sound with }, nofun⟩
  | enterRun supportValid =>
    rw [State.step, if_neg (not_not.mpr hmode)] at hstep
    split at hstep
    · cases hstep
      exact .of_continue hretained.sound nofun
    · cases hstep
      exact hretained
  | initializeEntry entry => simp [State.step, hmode] at hstep
  | prepareFails => simp [State.step, hmode] at hstep
  | leave supportValid => simp [State.step, hmode] at hstep
  | require unit arguments => simp [State.step, hmode] at hstep
  | begin unit arguments => simp [State.step, hmode] at hstep
  | publish unit arguments => simp [State.step, hmode] at hstep
  | readNamespace entry arguments => simp [State.step, hmode] at hstep
  | publishEntryNamespace entry arguments => simp [State.step, hmode] at hstep
  | returns descriptorsValid => simp [State.step, hmode] at hstep
  | throws => simp [State.step, hmode] at hstep

/-- Leaving an entry point: only with an empty stack. -/
theorem step_leave (hstep : state.step topology (.leave supportValid) = some state') :
    state.mode ≠ .outside ∧ state.stack = [] ∧
      state' = state.continueValid topology .outside supportValid := by
  simp only [State.step] at hstep
  split at hstep
  · cases hstep
  · cases hstep
  · rename_i hstack houtside
    cases hstep
    exact ⟨houtside, hstack, rfl⟩

theorem step_retained (hretained : Retained topology state)
    (hstep : state.step topology event = some state') : Retained topology state' := by
  by_cases hmode : state.mode = .outside
  · exact step_outside hretained hmode hstep
  · by_cases hleave : ∀ supportValid, event ≠ .leave supportValid
    · exact (step_outcome hretained.sound hmode hstep hleave).retained hmode
    · push Not at hleave
      obtain ⟨supportValid, rfl⟩ := hleave
      obtain ⟨_, hstack, rfl⟩ := step_leave hstep
      exact .of_continue hretained.sound fun _ => hstack

theorem Arises.retained (harises : Arises topology state) : Retained topology state := by
  apply Reachable.invariant _ _ harises
  · rintro _ rfl
    exact ⟨Sound.initial topology, fun _ => ⟨rfl, rfl⟩⟩
  · rintro before after hretained ⟨event, hstep⟩
    exact step_retained hretained hstep

/-- A dirty runtime stays dirty until it is reset, and it is reset before the
entry point returns. -/
theorem step_dirty (hretained : Retained topology state)
    (hstep : state.step topology event = some state') (hdirty : state.dirty = true) :
    state' = initialState ∨ (state'.dirty = true ∧ state'.mode = state.mode) := by
  have hmode : state.mode ≠ .outside := by
    intro houtside
    rw [(hretained.boundary houtside).1] at hdirty
    cases hdirty
  by_cases hleave : ∀ supportValid, event ≠ .leave supportValid
  · have hkept := (step_outcome hretained.sound hmode hstep hleave).kept
    exact hkept.imp_right fun hkept => ⟨hkept.dirty hdirty, hkept.mode⟩
  · push Not at hleave
    obtain ⟨supportValid, rfl⟩ := hleave
    obtain ⟨_, _, rfl⟩ := step_leave hstep
    rcases @continueValid_cases topology state supportValid .outside with hreset | hkept
    · exact .inl hreset
    · rw [hdirty] at hkept
      cases hkept.1

/-- What the loader guarantees of a state. -/
structure InitializesChunks (topology : Topology) (state : State) : Prop where
  evaluated_once : ∀ unit, evaluations state.trace unit ≤ 1
  one_namespace : ∀ unit namespaceValue, .returned unit namespaceValue true ∈ state.trace →
    registered state.trace unit = some namespaceValue ∧
      .published unit namespaceValue ∈ state.trace ∧
      (∀ other, .published unit other ∈ state.trace → other = namespaceValue) ∧
      ∀ caller, state.initializeOfficialChunkUnit topology unit caller =
        (state.record (.returned unit namespaceValue true), .returned namespaceValue)
  cycle_registered : ∀ after before unit namespaceValue initialized,
    state.trace = after ++ .returned unit namespaceValue initialized :: before →
      registered before unit = some namespaceValue
  cycle_published : ∀ after before unit namespaceValue published,
    state.trace = after ++ .returned unit namespaceValue false :: before →
      (∀ other, .begun unit other ∉ after) → .returned unit published true ∈ state.trace →
        namespaceValue = published
  imported : ∀ imports, .imported imports ∈ state.trace →
    CalledInOrder topology state.trace imports ∧
      (imports.calls.map ImportCall.binding).Perm (List.range imports.bindings.length)
  interrupted : ∀ imports, .interrupted imports ∈ state.trace →
    CalledInOrder topology state.trace imports
  importing : ∀ imports, .callback imports ∈ state.stack →
    CalledInOrder topology state.trace imports
  failed : .failed ∈ state.trace → state.dirty = true ∧
    ∀ supportValid, state.retainedStateIsValid topology supportValid = false
  outside : state.mode = .outside → state.dirty = false ∧ state.stack = []
  settled : state.dirty = false → state.stack = [] → ∀ unit, state.units unit = emptySlot ∨
    ((state.units unit).state = .initialized ∧ (state.units unit).published = true ∧
      (state.units unit).namespaceValue.isSome = true)
  cached : state.validatedChunkSlotCount = topology.chunkSlotCount →
    state.unitsSettled topology = true

theorem retained_one_namespace (hsound : Sound topology none state) {unit namespaceValue : ℕ}
    (hreturned : .returned unit namespaceValue true ∈ state.trace) :
    registered state.trace unit = some namespaceValue ∧
      .published unit namespaceValue ∈ state.trace ∧
      (∀ other, .published unit other ∈ state.trace → other = namespaceValue) ∧
      ∀ caller, state.initializeOfficialChunkUnit topology unit caller =
        (state.record (.returned unit namespaceValue true), .returned namespaceValue) := by
  have hslot := hsound.ledger.slots unit
  have hstate := (hslot.returned namespaceValue hreturned).1
  have hvalue := (hslot.returned namespaceValue hreturned).2
  have hpublished := hslot.initialized hstate
  obtain ⟨found, hfound, hmem⟩ := hslot.published hpublished
  rw [hvalue] at hfound
  cases hfound
  refine ⟨hslot.registered_eq.symm.trans hvalue, hmem, fun other hother => ?_, fun caller => ?_⟩
  · have hpublication := (hslot.publications other hother).2
    rw [hvalue] at hpublication
    cases hpublication
    rfl
  · have hunit : ¬ topology.chunkSlotCount ≤ unit := by
      intro hle
      rw [hslot.outside hle] at hstate
      cases hstate
    rw [State.initializeOfficialChunkUnit, if_neg hunit]
    simp [hstate, hvalue, hpublished]

/-- A unit that is at rest is untouched or fully initialised. -/
theorem retained_settled (hsound : Sound topology none state) (hdirty : state.dirty = false)
    (hstack : state.stack = []) (unit : ℕ) :
    state.units unit = emptySlot ∨
      ((state.units unit).state = .initialized ∧ (state.units unit).published = true ∧
        (state.units unit).namespaceValue.isSome = true) := by
  have hslot := hsound.ledger.slots unit
  cases hstate : (state.units unit).state with
  | uninitialized => exact .inl (hslot.untouched hstate)
  | initializing =>
    rcases hsound.active unit hstate with hfailed | hnone | ⟨caller, hmem⟩
    · rw [hdirty] at hfailed
      cases hfailed
    · cases hnone
    · rw [hstack] at hmem
      cases hmem
  | initialized =>
    have hpublished := hslot.initialized hstate
    obtain ⟨found, hfound, _⟩ := hslot.published hpublished
    exact .inr ⟨rfl, hpublished, by rw [hfound]; rfl⟩

theorem Arises.initializesChunks (harises : Arises topology state) :
    InitializesChunks topology state := by
  have hretained := harises.retained
  have hsound := hretained.sound
  exact
    { evaluated_once := fun unit => by
        rw [(hsound.ledger.slots unit).evaluations_eq]
        split_ifs <;> omega
      one_namespace := fun unit namespaceValue hreturned =>
        retained_one_namespace hsound hreturned
      cycle_registered := fun after before unit namespaceValue initialized htrace => by
        have hfaithful := hsound.ledger.faithful
        rw [htrace] at hfaithful
        exact hfaithful.registered_eq
      cycle_published := fun after before unit namespaceValue published htrace hafter hreturned => by
        have hfaithful := hsound.ledger.faithful
        have hregistered := (retained_one_namespace hsound hreturned).1
        rw [htrace] at hfaithful
        rw [htrace, registered_append hafter] at hregistered
        have hbefore : registered before unit = some published := hregistered
        exact Option.some.inj (hfaithful.registered_eq.symm.trans hbefore)
      imported := fun imports hmem =>
        ⟨(hsound.imported imports hmem).1,
          (hsound.imported imports hmem).1.perm (hsound.imported imports hmem).2⟩
      interrupted := hsound.interrupted
      importing := fun imports hmem => ImportsProgress.called (hsound.frames _ hmem)
      failed := fun hmem => by
        have hdirty := hsound.failed hmem
        refine ⟨hdirty, fun supportValid => ?_⟩
        simp [State.retainedStateIsValid, State.entriesValid, hdirty]
      outside := hretained.boundary
      settled := fun hdirty hstack unit => retained_settled hsound hdirty hstack unit
      cached := fun hcached => all_eq_true.mpr fun unit _ => hsound.cached hcached unit }

/-- Every order of requires, however guest code fails and catches: factories are
evaluated once, a unit is returned with the namespace that it registered last
and published, callbacks are called in order, each once, and a runtime in which
anything failed is dirty until it is reset, before the entry point returns. -/
theorem chunk_initialization (topology : Topology) (state : State)
    (harises : Arises topology state) :
    InitializesChunks topology state ∧
      ∀ event state', state.step topology event = some state' → state.dirty = true →
        state' = initialState ∨ (state'.dirty = true ∧ state'.mode = state.mode) :=
  ⟨harises.initializesChunks, fun _ _ hstep hdirty =>
    step_dirty harises.retained hstep hdirty⟩

/-- A sequence of steps. -/
def State.run (topology : Topology) : State → List Event → Option State
  | state, [] => some state
  | state, event :: rest => (state.step topology event).bind fun state => state.run topology rest

theorem arises_of_run {topology : Topology} {state state' : State} (harises : Arises topology state)
    (events : List Event) (hrun : state.run topology events = some state') :
    Arises topology state' := by
  induction events generalizing state with
  | nil =>
    cases hrun
    exact harises
  | cons event rest ih =>
    obtain ⟨next, hnext, hrest⟩ := Option.bind_eq_some_iff.mp hrun
    exact ih (harises.next ⟨event, hnext⟩) hrest

/-- Two chunks that require each other; the first is an entry. -/
def cyclicTopology : Topology where
  chunkSlotCount := 2
  entryCount := 1
  dependencyBySpecifier unit specifier :=
    if unit = 0 ∧ specifier = "./b.js" then some 1
    else if unit = 1 ∧ specifier = "./a.js" then some 0
    else none
  factoryByUnitSlot _ := true
  entryChunkSlot _ := 0
  publicationUnitSlot _ := 2
  chunkSlotCount_pos := Nat.two_pos
  unitSlots_le := by decide
  entryChunkSlot_lt _ _ := by decide

/-- The first chunk replaces `module.exports` after it has required the second,
which has required it in turn. -/
def replacedExports : List Event :=
  [ .enterPrepare true, .initializeEntry 0, .begin 0 [.object 1], .require 0 [.text "./b.js"],
    .begin 1 [.object 10], .require 1 [.text "./a.js"], .publish 1 [.object 10], .returns true,
    .begin 0 [.object 2], .publish 0 [.object 2], .returns true ]

theorem replacedExports_trace :
    ((initialState.run cyclicTopology replacedExports).map State.trace) =
      some [ .returned 0 2 true, .published 0 2, .begun 0 2, .returned 1 10 true,
        .published 1 10, .returned 0 1 false, .begun 1 10, .evaluated 1, .begun 0 1,
        .evaluated 0 ] := by
  simp [replacedExports, State.run, State.step, initialState, State.initializeOfficialChunkEntry,
    State.initializeOfficialChunkUnit, cyclicTopology, emptySlot, State.setUnit, State.record,
    State.push, State.beginNamespace, Value.identity?, State.requireNamespace,
    initializeImportsSpecifier, State.publishNamespace, State.returnTop, State.finishFactory,
    State.publishEntry]

theorem replacedExports_arises : ∃ state, Arises cyclicTopology state ∧
    state.trace = [ .returned 0 2 true, .published 0 2, .begun 0 2, .returned 1 10 true,
      .published 1 10, .returned 0 1 false, .begun 1 10, .evaluated 1, .begun 0 1,
      .evaluated 0 ] := by
  obtain ⟨state, hrun, htrace⟩ := Option.map_eq_some_iff.mp replacedExports_trace
  exact ⟨state, arises_of_run (.start rfl) replacedExports hrun, htrace⟩

/-- The cycle has observed the namespace that was registered before. -/
theorem cycle_observes_replaced_namespace :
    ¬ ∀ topology state, Arises topology state → ∀ unit namespaceValue observed,
      .returned unit namespaceValue true ∈ state.trace →
        .returned unit observed false ∈ state.trace → observed = namespaceValue := by
  intro hclaim
  obtain ⟨state, harises, htrace⟩ := replacedExports_arises
  have hequal := hclaim cyclicTopology state harises 0 2 1 (by simp [htrace]) (by simp [htrace])
  cases hequal

theorem chunk_initialization_of_replaced_exports :
    ∃ state, InitializesChunks cyclicTopology state ∧
      .returned 0 2 true ∈ state.trace ∧ .returned 0 1 false ∈ state.trace := by
  obtain ⟨state, harises, htrace⟩ := replacedExports_arises
  exact ⟨state, (chunk_initialization cyclicTopology state harises).1, by simp [htrace],
    by simp [htrace]⟩

end ConvexWasm.Runtime.ChunkInitialization
