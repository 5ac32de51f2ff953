import ConvexWasm.Core.TransitionSystem
import ConvexWasm.Runtime.Invocation

/-!
# Isolation of invocations

Operations are settled once, cleanup leaves nothing of an invocation on guest
or host, and the memory boundary is ready only behind a call that has earned it.
What cleanup does not touch is the queue of microtasks.
-/

namespace ConvexWasm.Runtime

open Option SlotTable
open ConvexWasm.Guest (UdfKind)

/-- The pending operations of the guest have been started and not settled, and
none is pending twice. -/
structure Ledger (pending : List (Option ℕ)) (settled : List ℕ) (started : ℕ) : Prop where
  once : settled.Nodup
  old : ∀ operation ∈ settled, operation < started
  fresh : ∀ slot operation, lookup pending slot = some operation →
    operation < started ∧ operation ∉ settled
  distinct : ∀ slot other operation, lookup pending slot = some operation →
    lookup pending other = some operation → slot = other

variable {pending : List (Option ℕ)} {settled : List ℕ} {started : ℕ}

section

variable (hledger : Ledger pending settled started)
include hledger

theorem Ledger.weaken {fewer : List (Option ℕ)}
    (hfewer : ∀ slot operation, lookup fewer slot = some operation →
      lookup pending slot = some operation) {later : ℕ} (hlater : started ≤ later) :
    Ledger fewer settled later where
  once := hledger.once
  old operation hmem := (hledger.old operation hmem).trans_le hlater
  fresh slot operation hslot :=
    have hfresh := hledger.fresh slot operation (hfewer slot operation hslot)
    ⟨hfresh.1.trans_le hlater, hfresh.2⟩
  distinct slot other operation hslot hother :=
    hledger.distinct slot other operation (hfewer slot operation hslot)
      (hfewer other operation hother)

theorem Ledger.empty : Ledger [] settled started :=
  hledger.weaken (fun _ _ hslot => absurd hslot (by simp [lookup])) le_rfl

theorem Ledger.register (slot : ℕ) : Ledger (put pending slot started) settled (started + 1) where
  once := hledger.once
  old operation hmem := (hledger.old operation hmem).trans (Nat.lt_succ_self _)
  fresh place operation hplace := by
    rw [lookup_put] at hplace
    split_ifs at hplace with hsame
    · cases hplace
      exact ⟨Nat.lt_succ_self _, fun hmem => lt_irrefl _ (hledger.old _ hmem)⟩
    · have hfresh := hledger.fresh place operation hplace
      exact ⟨hfresh.1.trans (Nat.lt_succ_self _), hfresh.2⟩
  distinct place other operation hplace hother := by
    rw [lookup_put] at hplace hother
    split_ifs at hplace hother with hfirst hsecond hsecond
    · exact hfirst.trans hsecond.symm
    · cases hplace
      exact absurd (hledger.fresh other _ hother).1 (lt_irrefl _)
    · cases hother
      exact absurd (hledger.fresh place _ hplace).1 (lt_irrefl _)
    · exact hledger.distinct place other operation hplace hother

theorem Ledger.settle {slot operation : ℕ} (hslot : lookup pending slot = some operation) :
    Ledger (clear pending slot) (operation :: settled) started where
  once := List.nodup_cons.mpr ⟨(hledger.fresh slot operation hslot).2, hledger.once⟩
  old other hmem := by
    obtain rfl | hearlier := List.mem_cons.mp hmem
    · exact (hledger.fresh slot other hslot).1
    · exact hledger.old other hearlier
  fresh place other hplace := by
    rw [lookup_clear] at hplace
    split_ifs at hplace with hsame
    have hfresh := hledger.fresh place other hplace
    refine ⟨hfresh.1, fun hmem => ?_⟩
    obtain rfl | hearlier := List.mem_cons.mp hmem
    · exact hsame (hledger.distinct place slot other hplace hslot)
    · exact hfresh.2 hearlier
  distinct place other found hplace hother := by
    rw [lookup_clear] at hplace hother
    split_ifs at hplace hother
    exact hledger.distinct place other found hplace hother

end

theorem lookup_interruptedCleanup {guest : Guest} {cleared slot operation : ℕ}
    (hslot : lookup (guest.interruptedCleanup cleared).pendingOperations slot = some operation) :
    lookup guest.pendingOperations slot = some operation := by
  simp only [Guest.interruptedCleanup, lookup] at hslot ⊢
  rw [List.getElem?_append, List.length_replicate] at hslot
  split_ifs at hslot with hless
  · rw [List.getElem?_replicate, if_pos hless] at hslot
    cases hslot
  · rw [List.getElem?_drop] at hslot
    by_cases hcleared : cleared ≤ guest.pendingOperations.length
    · rw [min_eq_left hcleared] at hslot hless
      rwa [Nat.add_sub_cancel' (not_lt.mp hless)] at hslot
    · rw [List.getElem?_eq_none (by omega)] at hslot
      cases hslot

/-- Nothing of the last invocation is left on the guest or the host. -/
structure Quiet (state : State) (guest : Guest) : Prop where
  host : ∀ slot, lookup state.outstanding slot = none
  operations : ∀ slot, lookup guest.pendingOperations slot = none
  microtasks : some state.invocation ∉ guest.microtasks
  inactive : guest.activeUdfKind = none

/-- The runtime will not be kept, or no microtask of the run is queued. -/
def Clear (state : State) (guest : Guest) : Prop :=
  some state.invocation ∉ guest.microtasks ∨ guest.retainedValid = false ∨
    occupied guest.pendingOperations ≠ occupied state.outstanding

/-- What holds at each point of a run. -/
def PhaseSound (state : State) (guest : Guest) : Prop :=
  match state.phase with
  | .idle | .activating _ | .readingStatus _ => state.invocationActivated = false ∧ Quiet state guest
  | .requesting | .invoking | .draining _ | .settling _ | .polling =>
    state.invocationActivated = true
  | .checkingDone | .waiting | .cleaning =>
    state.invocationActivated = true ∧ guest.microtasks = []
  | .recovering _ => state.invocationActivated = true ∧ Clear state guest

/-- The calls behind which the memory boundary may be ready. -/
def AtBoundary : List Returned → Prop
  | .prepare status :: _ => status = 0
  | .run status retained _ :: _ => status = 0 ∧ retained = true
  | .maintenance :: earlier => AtBoundary earlier
  | .destroy :: _ | [] => False

/-- Different numbers of abandoned operations are not a success. -/
def Returned.Counted : Returned → Prop
  | .run status _ (some abandoned) => abandoned.guest ≠ abandoned.host → status ≠ 0
  | .run _ _ none | .prepare _ | .maintenance | .destroy => True

structure Sound (state : State) : Prop where
  ledger : ∀ guest ∈ state.runtime, Ledger guest.pendingOperations state.settled state.started
  once : state.settled.Nodup
  old : ∀ operation ∈ state.settled, operation < state.started
  tags : ∀ guest ∈ state.runtime, ∀ number, some number ∈ guest.microtasks →
    number ≤ state.invocation
  phase : ∀ guest ∈ state.runtime, PhaseSound state guest
  running : state.phase ≠ .idle → state.runtime.isSome
  counted : ∀ returned ∈ state.history, returned.Counted
  comparing : ∀ abandoned, state.phase = .readingStatus abandoned → abandoned.guest = abandoned.host
  boundary : state.memoryBoundaryReady = true → state.phase = .idle ∧ AtBoundary state.history

/-- A call fails only while none of the run's microtasks is queued, unless the
runtime is no longer valid or guest and host count different operations. -/
def Calm (state : State) : Event → Prop
  | .failed _ => ∀ guest ∈ state.runtime, Clear state guest
  | _ => True

theorem code_ne_zero (phase : JSErrorPhase) : phase.code ≠ 0 := by
  cases phase <;> decide

theorem Failure.status_ne_zero (failure : Failure) : failure.status ≠ 0 := by
  cases failure with
  | jsError phase => exact code_ne_zero phase
  | undrained | noCompletion => decide

theorem sound_initial : Sound initialState where
  ledger _ hguest := nomatch hguest
  once := List.nodup_nil
  old _ hmem := absurd hmem List.not_mem_nil
  tags _ hguest := nomatch hguest
  phase _ hguest := nomatch hguest
  running hphase := absurd rfl hphase
  counted _ hmem := absurd hmem List.not_mem_nil
  comparing _ hphase := nomatch hphase
  boundary hready := nomatch hready

/-- A call returns and keeps only a quiet guest. -/
theorem Sound.ends {state state' : State} (hsound : Sound state) (returned : Returned)
    (hguest : ∀ guest ∈ state'.runtime, Quiet state' guest ∧
      ∀ number, some number ∈ guest.microtasks → number ≤ state'.invocation)
    (hsettled : state'.settled = state.settled) (hstarted : state.started ≤ state'.started)
    (hhistory : state'.history = returned :: state.history) (hcounted : returned.Counted)
    (hphase : state'.phase = .idle) (hactivated : state'.invocationActivated = false)
    (hboundary : state'.memoryBoundaryReady = true → AtBoundary state'.history) : Sound state' := by
  have honce : state'.settled.Nodup := hsettled ▸ hsound.once
  have hold : ∀ operation ∈ state'.settled, operation < state'.started := fun operation hmem =>
    (hsound.old operation (hsettled ▸ hmem)).trans_le hstarted
  exact
    { ledger := fun guest hmem =>
        { once := honce
          old := hold
          fresh := fun slot operation hslot => by
            rw [(hguest guest hmem).1.operations slot] at hslot
            cases hslot
          distinct := fun slot other operation hslot _ => by
            rw [(hguest guest hmem).1.operations slot] at hslot
            cases hslot }
      once := honce
      old := hold
      tags := fun guest hmem => (hguest guest hmem).2
      phase := fun guest hmem => by
        rw [PhaseSound, hphase]
        exact ⟨hactivated, (hguest guest hmem).1⟩
      running := fun hrunning => absurd hphase hrunning
      counted := fun found hmem => by
        rw [hhistory] at hmem
        obtain rfl | hearlier := List.mem_cons.mp hmem
        · exact hcounted
        · exact hsound.counted found hearlier
      comparing := fun abandoned hreading => by
        rw [hphase] at hreading
        cases hreading
      boundary := fun hready => ⟨hphase, hboundary hready⟩ }

/-- A run goes on with its guest. -/
theorem Sound.goesOn {state state' : State} (hsound : Sound state) {guest : Guest}
    (hruntime : state'.runtime = some guest)
    (hledger : Ledger guest.pendingOperations state'.settled state'.started)
    (htags : ∀ number, some number ∈ guest.microtasks → number ≤ state'.invocation)
    (hphase : PhaseSound state' guest) (hhistory : state'.history = state.history)
    (hready : state'.memoryBoundaryReady = false)
    (hcomparing : ∀ abandoned, state'.phase = .readingStatus abandoned →
      abandoned.guest = abandoned.host) : Sound state' := { hledger with
  ledger other hother := by
    rw [mem_def, hruntime] at hother
    cases hother
    exact hledger
  tags other hother := by
    rw [mem_def, hruntime] at hother
    cases hother
    exact htags
  phase other hother := by
    rw [mem_def, hruntime] at hother
    cases hother
    exact hphase
  running _ := by rw [hruntime]; rfl
  counted returned hmem := hsound.counted returned (hhistory ▸ hmem)
  comparing := hcomparing
  boundary htrue := absurd (hready.symm.trans htrue) Bool.false_ne_true }

theorem Sound.notReady {state : State} (hsound : Sound state) (hphase : state.phase ≠ .idle) :
    state.memoryBoundaryReady = false := by
  cases hready : state.memoryBoundaryReady with
  | false => rfl
  | true => exact absurd (hsound.boundary hready).1 hphase

/-- Every operation that the guest waits for is outstanding. -/
def Covered (outstanding : List (Option ℕ)) (guest : Guest) : Prop :=
  ∀ slot, lookup outstanding slot = none → lookup guest.pendingOperations slot = none

/-- What guest code leaves as it was and what it can change. -/
structure Acted (origin : Option ℕ) (state state' : State) : Prop where
  phase : state'.phase = state.phase
  activated : state'.invocationActivated = state.invocationActivated
  history : state'.history = state.history
  ready : state'.memoryBoundaryReady = state.memoryBoundaryReady
  invocation : state'.invocation = state.invocation
  settled : state'.settled = state.settled
  started : state.started ≤ state'.started
  guest : ∀ guest, state.runtime = some guest → ∃ guest', state'.runtime = some guest' ∧
    guest'.activeUdfKind = guest.activeUdfKind ∧
    (∀ job ∈ guest'.microtasks, job ∈ guest.microtasks ∨ job = origin) ∧
    (Ledger guest.pendingOperations state.settled state.started →
      Ledger guest'.pendingOperations state'.settled state'.started) ∧
    (Covered state.outstanding guest → Covered state'.outstanding guest')

theorem Acted.refl (origin : Option ℕ) (state : State) : Acted origin state state where
  phase := rfl
  activated := rfl
  history := rfl
  ready := rfl
  invocation := rfl
  settled := rfl
  started := le_rfl
  guest guest hguest := ⟨guest, hguest, rfl, fun _ hjob => .inl hjob, id, id⟩

theorem Acted.trans {origin : Option ℕ} {first second third : State}
    (hfirst : Acted origin first second) (hsecond : Acted origin second third) :
    Acted origin first third where
  phase := hsecond.phase.trans hfirst.phase
  activated := hsecond.activated.trans hfirst.activated
  history := hsecond.history.trans hfirst.history
  ready := hsecond.ready.trans hfirst.ready
  invocation := hsecond.invocation.trans hfirst.invocation
  settled := hsecond.settled.trans hfirst.settled
  started := hfirst.started.trans hsecond.started
  guest guest hguest := by
    obtain ⟨middle, hmiddle, hkind, hjobs, hledger, hcovered⟩ := hfirst.guest guest hguest
    obtain ⟨last, hlast, hkind', hjobs', hledger', hcovered'⟩ := hsecond.guest middle hmiddle
    refine ⟨last, hlast, hkind'.trans hkind, fun job hjob => ?_, hledger' ∘ hledger,
      hcovered' ∘ hcovered⟩
    obtain hbefore | hnew := hjobs' job hjob
    · exact hjobs job hbefore
    · exact .inr hnew

theorem acted_perform (origin : Option ℕ) (state : State) (action : GuestAction) :
    Acted origin state (state.perform origin action) := by
  cases action with
  | start handle registers =>
    simp only [State.perform]
    split_ifs with hrefused hregisters
    · exact .refl origin state
    · obtain ⟨hpositive, hnew⟩ := not_or.mp hrefused
      refine ⟨rfl, rfl, rfl, rfl, rfl, rfl, Nat.le_succ _, fun guest hguest => ?_⟩
      refine ⟨guest.register (handle - 1) state.started, ?_, ?_, ?_, ?_, ?_⟩
      · simp [State.onGuest, hguest]
      · unfold Guest.register
        split <;> rfl
      · unfold Guest.register
        split <;> exact fun job hjob => .inl hjob
      · intro hledger
        unfold Guest.register
        split
        · exact hledger.weaken (fun _ _ hslot => hslot) (Nat.le_succ _)
        · exact hledger.register _
      · intro hcovered slot hslot
        simp only [State.onGuest, lookup_put] at hslot
        split_ifs at hslot with hsame
        unfold Guest.register
        split
        · exact hcovered slot hslot
        · simp only [lookup_put, if_neg hsame]
          exact hcovered slot hslot
    · refine ⟨rfl, rfl, rfl, rfl, rfl, rfl, Nat.le_succ _, fun guest hguest => ?_⟩
      refine ⟨guest, hguest, rfl, fun job hjob => .inl hjob, fun hledger =>
        hledger.weaken (fun _ _ hslot => hslot) (Nat.le_succ _), fun hcovered slot hslot => ?_⟩
      simp only [lookup_put] at hslot
      split_ifs at hslot
      exact hcovered slot hslot
  | enqueue =>
    refine ⟨rfl, rfl, rfl, rfl, rfl, rfl, le_rfl, fun guest hguest =>
      ⟨{ guest with microtasks := guest.microtasks ++ [origin] }, ?_, rfl, ?_, id, id⟩⟩
    · simp [State.perform, State.onGuest, hguest]
    · intro job hjob
      obtain hbefore | hnew := List.mem_append.mp hjob
      · exact .inl hbefore
      · exact .inr (List.mem_singleton.mp hnew)
  | finish status =>
    refine ⟨rfl, rfl, rfl, rfl, rfl, rfl, le_rfl, fun guest hguest =>
      ⟨{ guest with invocationDone := true, invocationStatus := status }, ?_, rfl,
        fun _ hjob => .inl hjob, id, id⟩⟩
    simp [State.perform, State.onGuest, hguest]
  | spoil =>
    refine ⟨rfl, rfl, rfl, rfl, rfl, rfl, le_rfl, fun guest hguest =>
      ⟨{ guest with retainedValid := false }, ?_, rfl, fun _ hjob => .inl hjob, id, id⟩⟩
    simp [State.perform, State.onGuest, hguest]

theorem acted_performAll (origin : Option ℕ) (state : State) (actions : List GuestAction) :
    Acted origin state (state.performAll origin actions) := by
  induction actions generalizing state with
  | nil => exact .refl origin state
  | cons action later ih => exact (acted_perform origin state action).trans (ih _)

/-- In the middle of a run guest code may do whatever it can. -/
theorem Sound.acted {state state' : State} (hsound : Sound state)
    (hacted : Acted (some state.invocation) state state')
    (hphase : state.phase = .requesting ∨ state.phase = .invoking ∨
      ∃ initial, state.phase = .draining initial) : Sound state' := by
  have hbusy : state.phase ≠ .idle := by
    rintro hidle
    obtain hequal | hequal | ⟨initial, hequal⟩ := hphase <;>
      exact absurd (hidle.symm.trans hequal) (by simp)
  obtain ⟨guest, hguest⟩ := Option.isSome_iff_exists.mp (hsound.running hbusy)
  obtain ⟨guest', hguest', -, hjobs, hledger, -⟩ := hacted.guest guest hguest
  have hactivated := hsound.phase guest hguest
  refine hsound.goesOn hguest' (hledger (hsound.ledger guest hguest)) (fun number hmem => ?_) ?_
    hacted.history (hacted.ready.trans (hsound.notReady hbusy)) fun abandoned hreading => ?_
  · rw [hacted.invocation]
    obtain hbefore | hnew := hjobs _ hmem
    · exact hsound.tags guest hguest number hbefore
    · exact (Option.some.inj hnew).le
  · unfold PhaseSound at hactivated ⊢
    rw [hacted.phase, hacted.activated]
    obtain hequal | hequal | ⟨initial, hequal⟩ := hphase <;> rw [hequal] at hactivated ⊢ <;>
      exact hactivated
  · rw [hacted.phase] at hreading
    exact hsound.comparing abandoned hreading

variable {state : State}

section

variable (hsound : Sound state)
include hsound

theorem Sound.quiet (hidle : state.phase = .idle) {guest : Guest}
    (hguest : guest ∈ state.runtime) : Quiet state guest := by
  have hphase := hsound.phase guest hguest
  rw [PhaseSound, hidle] at hphase
  exact hphase.2

/-- A call returns without the runtime. -/
theorem Sound.endsWithout {state' : State} (returned : Returned)
    (hruntime : state'.runtime = none) (hsettled : state'.settled = state.settled)
    (hstarted : state.started ≤ state'.started)
    (hhistory : state'.history = returned :: state.history) (hcounted : returned.Counted)
    (hphase : state'.phase = .idle) (hactivated : state'.invocationActivated = false)
    (hready : state'.memoryBoundaryReady = false) : Sound state' := by
  refine hsound.ends returned (fun guest hguest => ?_) hsettled hstarted hhistory hcounted hphase
    hactivated fun htrue => absurd (hready.symm.trans htrue) Bool.false_ne_true
  rw [hruntime] at hguest
  cases hguest

/-- A call returns and has not touched the guest. -/
theorem Sound.endsUntouched {state' : State} (returned : Returned)
    (begun : ℕ) (hidle : state.phase = .idle) (hruntime : state'.runtime = state.runtime)
    (houtstanding : state'.outstanding = state.outstanding)
    (hsettled : state'.settled = state.settled) (hstarted : state.started = state'.started)
    (hinvocation : state'.invocation = state.invocation + begun)
    (hhistory : state'.history = returned :: state.history) (hcounted : returned.Counted)
    (hphase : state'.phase = .idle) (hactivated : state'.invocationActivated = false)
    (hboundary : state'.memoryBoundaryReady = true → AtBoundary state'.history) : Sound state' := by
  refine hsound.ends returned (fun guest hguest => ?_) hsettled hstarted.le hhistory hcounted hphase
    hactivated hboundary
  rw [hruntime] at hguest
  have hquiet := hsound.quiet hidle hguest
  have htags := hsound.tags guest hguest
  refine ⟨⟨fun slot => ?_, hquiet.operations, fun hmem => ?_, hquiet.inactive⟩,
    fun number hmem => ?_⟩
  · rw [houtstanding]
    exact hquiet.host slot
  · have hle := htags _ hmem
    rw [hinvocation] at hle hmem
    have hzero : begun = 0 := by omega
    subst hzero
    exact hquiet.microtasks hmem
  · rw [hinvocation]
    exact (htags number hmem).trans (Nat.le_add_right _ _)

theorem Sound.prepare (hidle : state.phase = .idle)
    (preparation : Preparation) : Sound (state.prepare preparation) := by
  have hacted := acted_performAll none
    { state with
      memoryBoundaryReady := false, runtime := some (state.runtime.getD newGuest) }
    preparation.actions
  simp only [State.prepare]
  generalize hinitialized : State.performAll
    { state with
      memoryBoundaryReady := false, runtime := some (state.runtime.getD newGuest) }
    none preparation.actions = initialized at hacted
  have hhistory := hacted.history
  have hstarted := hacted.started
  have hsettled := hacted.settled
  have hgone : ∀ status, Sound (initialized.reset.returns (.prepare status)) := fun status =>
    hsound.endsWithout _ rfl hsettled hstarted (congrArg (_ :: ·) hhistory) trivial rfl rfl rfl
  split
  · exact hsound.endsUntouched (.prepare _) 0 hidle rfl rfl rfl rfl rfl rfl trivial rfl rfl nofun
  split
  · exact hsound.endsUntouched (.prepare _) 0 hidle rfl rfl rfl rfl rfl rfl trivial rfl rfl nofun
  split
  · exact hsound.endsWithout (.prepare 9) rfl rfl le_rfl rfl trivial rfl rfl rfl
  cases preparation.failure with
  | some phase => exact hgone _
  | none =>
    simp only
    split
    · exact hgone _
    split
    · exact hgone _
    split
    · exact hsound.endsWithout (.prepare _) rfl hsettled hstarted
        (congrArg (_ :: ·) hhistory) trivial rfl rfl rfl
    rename_i hcount
    have hnone := occupied_eq_zero.mp (not_not.mp hcount)
    refine hsound.ends (.prepare 0) (fun guest' hguest' => ?_) hsettled hstarted
      (congrArg (_ :: ·) hhistory) trivial rfl rfl fun _ => rfl
    obtain ⟨found, hfound, hkind, hjobs, -, hcovered⟩ := hacted.guest _ rfl
    have hsame : guest' = found := Option.some.inj (hguest'.symm.trans hfound)
    subst hsame
    have hbefore : (∀ slot, lookup (state.runtime.getD newGuest).pendingOperations slot = none) ∧
        some state.invocation ∉ (state.runtime.getD newGuest).microtasks ∧
        (state.runtime.getD newGuest).activeUdfKind = none ∧
        ∀ number, some number ∈ (state.runtime.getD newGuest).microtasks →
          number ≤ state.invocation := by
      cases hruntime : state.runtime with
      | none => exact ⟨fun _ => rfl, List.not_mem_nil, rfl, fun _ hmem => nomatch hmem⟩
      | some guest =>
        have hquiet := hsound.quiet hidle hruntime
        exact ⟨hquiet.operations, hquiet.microtasks, hquiet.inactive, hsound.tags guest hruntime⟩
    have hinvocation : initialized.invocation = state.invocation := hacted.invocation
    refine ⟨⟨fun _ => rfl, fun slot => ?_, fun hmem => ?_, hkind.trans hbefore.2.2.1⟩,
      fun number hmem => ?_⟩
    · exact hcovered (fun slot _ => hbefore.1 slot) slot (hnone slot)
    · obtain hold | hnew := hjobs _ hmem
      · have hmem' : some initialized.invocation ∈ (state.runtime.getD newGuest).microtasks := hold
        rw [hinvocation] at hmem'
        exact hbefore.2.1 hmem'
      · cases hnew
    · obtain hold | hnew := hjobs _ hmem
      · exact (hbefore.2.2.2 number hold).trans hinvocation.ge
      · cases hnew

theorem Sound.maintain (hidle : state.phase = .idle) {call : Maintenance}
    {state' : State} (hmaintained : state.maintain call = some state') : Sound state' := by
  unfold State.maintain at hmaintained
  split at hmaintained
  · cases hmaintained
  rename_i hallowed
  have hready : state.memoryBoundaryReady = true := by
    by_contra hnot
    exact hallowed (.inl hnot)
  have hboundary := (hsound.boundary hready).2
  split at hmaintained
  · split at hmaintained
    · cases hmaintained
    · cases hmaintained
      exact hsound.endsUntouched .maintenance 0 hidle rfl rfl rfl rfl rfl rfl trivial rfl rfl
        fun _ => hboundary
  · split at hmaintained
    · cases hmaintained
    · cases hmaintained
      exact hsound.endsUntouched .maintenance 0 hidle rfl rfl rfl rfl rfl rfl trivial rfl rfl
        fun _ => hboundary

theorem Sound.destroy : Sound state.destroy :=
  hsound.endsWithout .destroy rfl rfl le_rfl rfl trivial rfl rfl rfl

theorem Sound.beginRun (hidle : state.phase = .idle)
    (selection : Selection) : Sound (state.beginRun selection) := by
  simp only [State.beginRun]
  split
  · exact hsound.endsUntouched (.run 8 _ none) 0 hidle rfl rfl rfl rfl rfl rfl trivial rfl rfl nofun
  split
  · split
    · exact hsound.endsWithout (.run 9 _ none) rfl rfl le_rfl rfl trivial rfl rfl rfl
    · exact hsound.endsUntouched (.run 9 _ none) 0 hidle rfl rfl rfl rfl rfl rfl trivial rfl rfl
        nofun
  split
  · rename_i hprepared _
    have hvalid := (not_not.mp hprepared).1
    obtain ⟨guest, hguest, -⟩ := (any_eq_true _ _).mp hvalid
    have hquiet := hsound.quiet hidle hguest
    have htags := hsound.tags guest hguest
    have hactivated := hsound.phase guest hguest
    rw [PhaseSound, hidle] at hactivated
    refine hsound.goesOn hguest (hsound.ledger guest hguest)
      (fun number hmem => (htags number hmem).trans (Nat.le_succ _))
      ⟨hactivated.1, hquiet.host, hquiet.operations, fun hmem => ?_, hquiet.inactive⟩ rfl rfl nofun
    exact absurd (htags _ hmem) (Nat.not_succ_le_self _)
  · exact hsound.endsUntouched (.run 7 _ none) 1 hidle rfl rfl rfl rfl rfl rfl trivial rfl rfl nofun

end

section Endings

variable {guest : Guest}

/-- A runtime is reset or stays as it is. -/
theorem resetIfInvalid_cases (state : State) :
    state.resetIfInvalid = state.reset ∨
      state.resetIfInvalid = state ∧ state.retainedValid = true := by
  unfold State.resetIfInvalid
  split
  · exact .inr ⟨rfl, ‹_›⟩
  · exact .inl rfl

/-- A run returns; what it keeps is quiet. -/
theorem Sound.endsRun (hsound : Sound state) {state' : State} (status : ℤ)
    (abandoned : Option Abandoned) (hruntime : state'.runtime = some guest)
    (hquiet : guest.retainedValid = true → Quiet state' guest)
    (htags : ∀ number, some number ∈ guest.microtasks → number ≤ state'.invocation)
    (hsettled : state'.settled = state.settled) (hstarted : state.started ≤ state'.started)
    (hhistory : state'.history = state.history)
    (hcounted : ∀ retained, (Returned.run status retained abandoned).Counted)
    (hready : state'.memoryBoundaryReady = false) :
    Sound (state'.resetIfInvalid.returnsRun status abandoned) := by
  obtain hreset | ⟨hkept, hvalid⟩ := resetIfInvalid_cases state'
  · rw [hreset]
    exact hsound.endsWithout _ rfl hsettled hstarted (congrArg (_ :: ·) hhistory) (hcounted _)
      rfl rfl rfl
  · rw [hkept]
    refine hsound.ends _ (fun other hother => ?_) hsettled hstarted (congrArg (_ :: ·) hhistory)
      (hcounted _) rfl rfl fun htrue => absurd (hready.symm.trans htrue) Bool.false_ne_true
    have hsame : guest = other := Option.some.inj (hruntime.symm.trans hother)
    subst hsame
    rw [State.retainedValid, hruntime] at hvalid
    obtain ⟨hhost, hoperations, hmicrotasks, hinactive⟩ := hquiet hvalid
    exact ⟨⟨hhost, hoperations, hmicrotasks, hinactive⟩, htags⟩

theorem Sound.fail (hsound : Sound state) (hguest : state.runtime = some guest)
    (hbusy : state.phase ≠ .idle) {failure : Failure}
    (hquiet : state.invocationActivated = false → Quiet state guest)
    (hclear : Clear state guest) : Sound (state.fail failure) := by
  unfold State.fail
  split
  · rename_i hactivated
    exact hsound.goesOn hguest (hsound.ledger guest hguest) (hsound.tags guest hguest)
      ⟨hactivated, hclear⟩ rfl (hsound.notReady hbusy) nofun
  · rename_i hactivated
    exact hsound.endsRun failure.status none hguest
      (fun _ => hquiet (Bool.eq_false_of_not_eq_true hactivated)) (hsound.tags guest hguest) rfl le_rfl
      rfl (fun _ => trivial) (hsound.notReady hbusy)

theorem quiet_cleanup {settledState : State} (hempty : settledState.outstanding = [])
    (hclear : some settledState.invocation ∉ guest.microtasks) :
    Quiet settledState guest.cleanup where
  host slot := by rw [hempty]; rfl
  operations _ := rfl
  microtasks := hclear
  inactive := rfl

variable (hsound : Sound state) (hguest : state.runtime = some guest)
include hsound hguest

theorem Sound.cleanUp (hphase : state.phase = .cleaning) : Sound (state.cleanUp guest) := by
  have hbusy : state.phase ≠ .idle := by simp [hphase]
  have hempty := hsound.phase guest hguest
  rw [PhaseSound, hphase] at hempty
  have hruntime : state.runtime.map Guest.cleanup = some guest.cleanup := by rw [hguest]; rfl
  have hquiet : some state.invocation ∉ guest.microtasks := by
    rw [hempty.2]
    exact List.not_mem_nil
  simp only [State.cleanUp]
  split
  · exact hsound.endsRun 6 _ hruntime (fun _ => quiet_cleanup rfl hquiet)
      (hsound.tags guest hguest) rfl le_rfl rfl (fun _ _ => by decide) (hsound.notReady hbusy)
  · rename_i hequal
    refine hsound.goesOn hruntime (hsound.ledger guest hguest).empty (hsound.tags guest hguest)
      ⟨rfl, quiet_cleanup rfl hquiet⟩ rfl (hsound.notReady hbusy) fun abandoned hreading => ?_
    cases hreading
    exact (not_not.mp hequal).symm

theorem Sound.recover {caught : Failure} (hphase : state.phase = .recovering caught) :
    Sound (state.recover guest caught) := by
  have hbusy : state.phase ≠ .idle := by simp [hphase]
  have hclear := hsound.phase guest hguest
  rw [PhaseSound, hphase] at hclear
  have hruntime : state.runtime.map Guest.cleanup = some guest.cleanup := by rw [hguest]; rfl
  simp only [State.recover]
  split
  · exact hsound.endsWithout _ rfl rfl le_rfl rfl (fun _ => by decide) rfl rfl rfl
  · rename_i hequal
    refine hsound.endsRun caught.status _ hruntime (fun hvalid => ?_) (hsound.tags guest hguest) rfl
      le_rfl rfl (fun _ _ => caught.status_ne_zero) (hsound.notReady hbusy)
    obtain hclear | hinvalid | hdiffer := hclear.2
    · exact quiet_cleanup rfl hclear
    · exact absurd (hinvalid.symm.trans hvalid) Bool.false_ne_true
    · exact absurd (Ne.symm hdiffer) hequal

theorem Sound.report {abandoned : Abandoned} (hphase : state.phase = .readingStatus abandoned) :
    Sound (state.report guest abandoned) := by
  have hquiet := hsound.phase guest hguest
  rw [PhaseSound, hphase] at hquiet
  have hequal := hsound.comparing abandoned hphase
  have hcounted : ∀ retained, (Returned.run guest.invocationStatus retained (some abandoned)).Counted :=
    fun _ hdiffer => absurd hequal hdiffer
  simp only [State.report]
  obtain hreset | ⟨hkept, -⟩ := resetIfInvalid_cases state
  · rw [hreset]
    exact hsound.endsWithout _ rfl rfl le_rfl rfl (hcounted _) rfl rfl (by simp [State.reset,
      State.returnsRun, State.returns])
  · rw [hkept]
    refine hsound.ends _ (fun other hother => ?_) rfl le_rfl rfl (hcounted _) rfl rfl
      fun hready => ?_
    · have hsame : guest = other := Option.some.inj (hguest.symm.trans hother)
      subst hsame
      obtain ⟨hhost, hoperations, hmicrotasks, hinactive⟩ := hquiet.2
      exact ⟨⟨hhost, hoperations, hmicrotasks, hinactive⟩, hsound.tags guest hguest⟩
    · obtain ⟨hzero, hretained⟩ := (Bool.and_eq_true _ _).mp hready
      exact ⟨of_decide_eq_true hzero, hretained⟩

end Endings

variable {state' : State} {guest : Guest}

section

variable (hsound : Sound state) (hguest : state.runtime = some guest)
include hsound hguest

theorem Sound.activate {kind : UdfKind} (hphase : state.phase = .activating kind) :
    Sound { state.onGuest fun guest => { guest with activeUdfKind := some kind } with
      invocationActivated := true, phase := .requesting } := by
  have hbusy : state.phase ≠ .idle := by simp [hphase]
  have hruntime : state.runtime.map (fun guest => { guest with activeUdfKind := some kind }) =
      some { guest with activeUdfKind := some kind } := by rw [hguest]; rfl
  exact hsound.goesOn hruntime (hsound.ledger guest hguest) (hsound.tags guest hguest) rfl rfl
    (hsound.notReady hbusy) nofun

/-- Only the program counter moves. -/
theorem Sound.advance (hbusy : state.phase ≠ .idle) {next : RunPhase}
    (hnext : ∀ abandoned, next ≠ .readingStatus abandoned)
    (hphase : PhaseSound { state with phase := next } guest) : Sound { state with phase := next } :=
  hsound.goesOn hguest (hsound.ledger guest hguest) (hsound.tags guest hguest) hphase rfl
    (hsound.notReady hbusy) fun abandoned hreading => absurd hreading (hnext abandoned)

theorem Sound.runMicrotask {initial : Bool} (hphase : state.phase = .draining initial)
    {first : Option ℕ} {later : List (Option ℕ)} (hmicrotasks : guest.microtasks = first :: later)
    (actions : List GuestAction) :
    Sound ((state.onGuest fun guest => { guest with microtasks := later }).performAll
      (some state.invocation) actions) := by
  have hbusy : state.phase ≠ .idle := by simp [hphase]
  have hruntime : state.runtime.map (fun guest => { guest with microtasks := later }) =
      some { guest with microtasks := later } := by rw [hguest]; rfl
  have hactivated := hsound.phase guest hguest
  have htaken : Sound (state.onGuest fun guest => { guest with microtasks := later }) := by
    refine hsound.goesOn hruntime (hsound.ledger guest hguest) (fun number hmem => ?_) ?_ rfl
      (hsound.notReady hbusy) hsound.comparing
    · refine hsound.tags guest hguest number ?_
      rw [hmicrotasks]
      exact List.mem_cons_of_mem _ hmem
    · rw [PhaseSound, hphase] at hactivated
      simp only [State.onGuest, hphase]
      exact hactivated
  exact htaken.acted (acted_performAll _ _ actions) (.inr (.inr ⟨initial, hphase⟩))

theorem Sound.settle {handle operation : ℕ} (hphase : state.phase = .settling handle)
    (hslot : lookup guest.pendingOperations (handle - 1) = some operation) (reactions : ℕ) :
    Sound { state.onGuest fun guest =>
        { guest with
          pendingOperations := clear guest.pendingOperations (handle - 1)
          microtasks := guest.microtasks ++ List.replicate reactions (some state.invocation) } with
      settled := operation :: state.settled, phase := .polling } := by
  have hbusy : state.phase ≠ .idle := by simp [hphase]
  have hactivated := hsound.phase guest hguest
  rw [PhaseSound, hphase] at hactivated
  have hruntime : state.runtime.map (fun guest =>
      { guest with
        pendingOperations := clear guest.pendingOperations (handle - 1)
        microtasks := guest.microtasks ++ List.replicate reactions (some state.invocation) }) =
      some { guest with
        pendingOperations := clear guest.pendingOperations (handle - 1)
        microtasks := guest.microtasks ++
          List.replicate reactions (some state.invocation) } := by rw [hguest]; rfl
  refine hsound.goesOn hruntime ((hsound.ledger guest hguest).settle hslot) (fun number hmem => ?_)
    hactivated rfl (hsound.notReady hbusy) nofun
  obtain hold | hnew := List.mem_append.mp hmem
  · exact hsound.tags guest hguest number hold
  · exact (Option.some.inj (List.eq_of_mem_replicate hnew)).le

end

section

variable (hsound : Sound state) (hguest : state.runtime = some guest)
include hsound hguest

/-- A completion that the host gives is taken from it. -/
theorem Sound.take (handle : ℕ) (hphase : state.phase = .waiting ∨ state.phase = .polling) :
    Sound { state with
      outstanding := clear state.outstanding (handle - 1), phase := .settling handle } := by
  have hactivated := hsound.phase guest hguest
  rw [PhaseSound] at hactivated
  have hbusy : state.phase ≠ .idle ∧ state.invocationActivated = true := by
    obtain hequal | hequal := hphase <;> rw [hequal] at hactivated ⊢
    · exact ⟨nofun, hactivated.1⟩
    · exact ⟨nofun, hactivated⟩
  exact hsound.goesOn hguest (hsound.ledger guest hguest) (hsound.tags guest hguest) hbusy.2 rfl
    (hsound.notReady hbusy.1) nofun

theorem Sound.interrupted (hphase : state.phase = .cleaning) (cleared : ℕ) :
    Sound ((state.onGuest (·.interruptedCleanup cleared)).fail (.jsError .cleanupInvocation)) := by
  have hbusy : state.phase ≠ .idle := by simp [hphase]
  have hempty := hsound.phase guest hguest
  rw [PhaseSound, hphase] at hempty
  have hruntime : state.runtime.map (·.interruptedCleanup cleared) =
      some (guest.interruptedCleanup cleared) := by rw [hguest]; rfl
  have hpartly : Sound (state.onGuest (·.interruptedCleanup cleared)) := by
    refine hsound.goesOn hruntime ((hsound.ledger guest hguest).weaken
      (fun _ _ => lookup_interruptedCleanup) le_rfl) (hsound.tags guest hguest) ?_ rfl
      (hsound.notReady hbusy) hsound.comparing
    simp only [State.onGuest, hphase]
    exact hempty
  have hmicrotasks : (guest.interruptedCleanup cleared).microtasks = [] := hempty.2
  refine hpartly.fail hruntime hbusy (fun hinactive => ?_) (.inl ?_)
  · exact absurd (hinactive.symm.trans hempty.1) Bool.false_ne_true
  · rw [hmicrotasks]
    exact List.not_mem_nil

/-- The handler is called. -/
theorem Sound.call (hphase : state.phase = .requesting) :
    Sound { state.onGuest fun guest =>
        { guest with invocationDone := false, invocationStatus := 0 } with
      phase := .invoking } := by
  have hbusy : state.phase ≠ .idle := by simp [hphase]
  have hactivated := hsound.phase guest hguest
  rw [PhaseSound, hphase] at hactivated
  have hruntime : state.runtime.map (fun guest =>
      { guest with invocationDone := false, invocationStatus := 0 }) =
      some { guest with invocationDone := false, invocationStatus := 0 } := by rw [hguest]; rfl
  exact hsound.goesOn hruntime (hsound.ledger guest hguest) (hsound.tags guest hguest) hactivated
    rfl (hsound.notReady hbusy) nofun

/-- Before activation and after cleanup there is nothing on the guest. -/
theorem Sound.quiet_of_inactive (hinactive : state.invocationActivated = false) :
    Quiet state guest := by
  have hphase := hsound.phase guest hguest
  unfold PhaseSound at hphase
  have habsurd : state.invocationActivated = true → Quiet state guest := fun hactivated =>
    absurd (hinactive.symm.trans hactivated) Bool.false_ne_true
  cases hequal : state.phase with
  | idle | activating _ | readingStatus _ =>
    rw [hequal] at hphase
    exact hphase.2
  | requesting | invoking | draining _ | settling _ | polling =>
    rw [hequal] at hphase
    exact habsurd hphase
  | checkingDone | waiting | cleaning | recovering _ =>
    rw [hequal] at hphase
    exact habsurd hphase.1

end

/-- What happens keeps the state sound if it does so calmly. -/
theorem Sound.step (hsound : Sound state) {event : Event} (hcalm : Calm state event)
    (hstep : state.step event = some state') : Sound state' := by
  unfold State.step at hstep
  split at hstep
  · cases hstep
    exact hsound.prepare ‹_› _
  · cases hstep
    exact hsound.beginRun ‹_› _
  · exact hsound.maintain ‹_› hstep
  · cases hstep
    exact hsound.destroy
  · rename_i hphase hguest
    split at hstep
    · cases hstep
      exact hsound.activate hguest hphase
    · cases hstep
  · rename_i hphase hguest
    cases hstep
    exact hsound.acted (acted_perform _ _ _) (.inl hphase)
  · rename_i hphase hguest
    cases hstep
    exact hsound.acted (acted_perform _ _ _) (.inr (.inl hphase))
  · rename_i hphase hguest
    cases hstep
    exact hsound.call hguest hphase
  · rename_i hphase hguest
    cases hstep
    have hactivated := hsound.phase _ hguest
    rw [PhaseSound, hphase] at hactivated
    exact hsound.advance hguest (by simp [hphase]) nofun hactivated
  · rename_i hphase hguest
    split at hstep
    · cases hstep
    · rename_i hmicrotasks
      cases hstep
      exact hsound.runMicrotask hguest hphase hmicrotasks _
  · rename_i hphase hguest
    have hactivated := hsound.phase _ hguest
    rw [PhaseSound, hphase] at hactivated
    split at hstep
    · rename_i hempty
      cases hstep
      exact hsound.advance hguest (by simp [hphase]) nofun ⟨hactivated, hempty⟩
    · cases hstep
  · rename_i guest hphase hguest
    have hactivated := hsound.phase _ hguest
    rw [PhaseSound, hphase] at hactivated
    cases hstep
    cases guest.invocationDone with
    | false => exact hsound.advance hguest (by simp [hphase]) nofun hactivated
    | true => exact hsound.advance hguest (by simp [hphase]) nofun hactivated
  · rename_i hphase hguest
    split at hstep
    · cases hstep
      exact hsound.take hguest _ (.inl hphase)
    · cases hstep
  · rename_i hphase hguest
    split at hstep
    · cases hstep
      exact hsound.take hguest _ (.inr hphase)
    · cases hstep
  · rename_i hphase hguest
    have hactivated := hsound.phase _ hguest
    rw [PhaseSound, hphase] at hactivated
    cases hstep
    exact hsound.advance hguest (by simp [hphase]) nofun hactivated
  · rename_i hphase hguest
    split at hstep
    · cases hstep
    · rename_i hslot
      cases hstep
      exact hsound.settle hguest hphase hslot _
  · rename_i hphase hguest
    cases hstep
    exact hsound.cleanUp hguest hphase
  · rename_i hphase hguest
    cases hstep
    exact hsound.interrupted hguest hphase _
  · rename_i hphase hguest
    cases hstep
    exact hsound.report hguest hphase
  · rename_i hphase hguest
    cases hstep
    exact hsound.recover hguest hphase
  · cases hstep
    exact hsound.endsWithout _ rfl rfl le_rfl rfl trivial rfl rfl rfl
  · rename_i guest failure _ _ _ hguest
    split at hstep
    · rename_i hfails
      cases hstep
      have hbusy : state.phase ≠ .idle := fun hidle => by
        rw [hidle] at hfails
        cases hfails
      exact hsound.fail hguest hbusy (hsound.quiet_of_inactive hguest) (hcalm _ hguest)
    · cases hstep
  · cases hstep

/-- Something happens. -/
def Step (state state' : State) : Prop := ∃ event, state.step event = some state'

/-- Something happens calmly. -/
def CalmStep (state state' : State) : Prop :=
  ∃ event, Calm state event ∧ state.step event = some state'

/-- What invocations can rely on. -/
structure Isolated (state : State) : Prop where
  settledOnce : state.settled.Nodup
  quiet : state.phase = .idle → ∀ guest ∈ state.runtime, Quiet state guest
  counted : ∀ status retained abandoned, .run status retained (some abandoned) ∈ state.history →
    abandoned.guest ≠ abandoned.host → status ≠ 0
  boundary : state.memoryBoundaryReady = true → state.phase = .idle ∧ AtBoundary state.history

/-- In a run of calm steps every call leaves a quiet guest or none, operations
are settled once, a wrong count is never a success, and the memory boundary is
ready only directly behind the calls that establish it. -/
theorem invocation_isolation {state : State}
    (hreachable : TransitionSystem.Reachable (· = initialState) CalmStep state) :
    Isolated state := by
  have hsound : Sound state := by
    refine hreachable.invariant (fun start hstart => ?_) fun state state' hsound hstep => ?_
    · subst hstart
      exact sound_initial
    · obtain ⟨event, hcalm, hnext⟩ := hstep
      exact hsound.step hcalm hnext
  exact
    { settledOnce := hsound.once
      quiet := fun hidle guest hguest => hsound.quiet hidle hguest
      counted := fun _ _ _ hmem hdiffer => hsound.counted _ hmem hdiffer
      boundary := hsound.boundary }

theorem reachable_of_run {relation : State → State → Prop} {events : List Event}
    {state state' : State}
    (hevents : ∀ event ∈ events, ∀ before after, before.step event = some after →
      relation before after) (hstate : TransitionSystem.Reachable (· = initialState) relation state)
    (hrun : events.foldlM State.step state = some state') :
    TransitionSystem.Reachable (· = initialState) relation state' := by
  induction events generalizing state with
  | nil =>
    cases hrun
    exact hstate
  | cons event later ih =>
    obtain ⟨next, hnext, hrest⟩ := Option.bind_eq_some_iff.mp hrun
    exact ih (fun found hfound => hevents found (List.mem_cons_of_mem _ hfound))
      (hstate.next (hevents event List.mem_cons_self state next hnext)) hrest

def preparation : Preparation where
  selectionValid := true
  created := true
  topologyMatches := true
  actions := []
  failure := none
  entryPrepared := true
  capabilityCurrent := false

def selection : Selection where
  valid := true
  topologyMatches := true
  entryPrepared := true
  capabilityCurrent := true
  kind := .query

/-- A handler that waits for one operation and finishes. -/
def finishedRun : List Event :=
  [.prepare preparation, .beginRun selection, .returned, .returned, .act (.start 1 true),
    .returned, .returned, .returned, .completed 1, .settled 1, .noneReady,
    .microtask [.finish 0], .returned, .returned, .returned, .returned]

def finishedGuest : Guest where
  activeUdfKind := none
  pendingOperations := []
  microtasks := []
  invocationDone := true
  invocationStatus := 0
  retainedValid := true

def finishedState : State where
  runtime := some finishedGuest
  outstanding := []
  memoryBoundaryReady := true
  invocationHasStarted := true
  memoryImagePrepared := false
  invocationActivated := false
  phase := .idle
  started := 1
  settled := [0]
  invocation := 1
  history := [.run 0 true (some ⟨0, 0⟩), .prepare 0]

/-- The isolation of a run that finishes. -/
theorem invocation_isolation_finished :
    finishedRun.foldlM State.step initialState = some finishedState ∧ Isolated finishedState := by
  have hrun : finishedRun.foldlM State.step initialState = some finishedState := rfl
  refine ⟨hrun, invocation_isolation (reachable_of_run (fun event hevent before after hstep => ?_)
    (.start rfl) hrun)⟩
  refine ⟨event, ?_, hstep⟩
  simp only [finishedRun, List.mem_cons, List.not_mem_nil, or_false] at hevent
  obtain rfl | rfl | rfl | rfl | rfl | rfl | rfl | rfl | rfl | rfl | rfl | rfl | rfl | rfl | rfl |
    rfl := hevent <;> exact trivial

/-- A handler that queues a microtask and throws what cannot be reported. -/
def throwingRun : List Event :=
  [.prepare preparation, .beginRun selection, .returned, .returned, .act .enqueue,
    .failed (.jsError .invokeHandler), .returned]

def throwingGuest : Guest where
  activeUdfKind := none
  pendingOperations := []
  microtasks := [some 1]
  invocationDone := false
  invocationStatus := 0
  retainedValid := true

def throwingState : State where
  runtime := some throwingGuest
  outstanding := []
  memoryBoundaryReady := false
  invocationHasStarted := true
  memoryImagePrepared := false
  invocationActivated := false
  phase := .idle
  started := 0
  settled := []
  invocation := 1
  history := [.run 53 true (some ⟨0, 0⟩), .prepare 0]

/-- The runtime keeps a guest with the microtask of a run that has returned, and
the next run drains it. -/
theorem microtask_survives_run :
    TransitionSystem.Reachable (· = initialState) Step throwingState ∧
      throwingState.phase = .idle ∧
      throwingState.history.head? = some (.run 53 true (some ⟨0, 0⟩)) ∧
      (∃ guest ∈ throwingState.runtime, some throwingState.invocation ∈ guest.microtasks) ∧
      ¬Isolated throwingState := by
  have hrun : throwingRun.foldlM State.step initialState = some throwingState := rfl
  have hmicrotask : some throwingState.invocation ∈ throwingGuest.microtasks := by decide
  refine ⟨reachable_of_run (fun event _ before after hstep => ⟨event, hstep⟩) (.start rfl) hrun,
    rfl, rfl, ⟨throwingGuest, rfl, hmicrotask⟩, fun hisolated => ?_⟩
  exact (hisolated.quiet rfl throwingGuest rfl).microtasks hmicrotask

end ConvexWasm.Runtime
