import ConvexWasm.Runtime.ChunkInitialization

/-!
# What the loader keeps

The unit slots agree with what has happened since the runtime was created, the
ordered initialisations on the stack have consumed the numbered specifiers in
order, and a unit is initialising only while its factory is on the stack or the
runtime is to be given up.
-/

namespace ConvexWasm.Runtime.ChunkInitialization

open List

/-- How often the factory of a unit has been evaluated. -/
def evaluations : List Occurrence → ℕ → ℕ
  | [], _ => 0
  | .evaluated evaluated :: before, unit =>
    evaluations before unit + if unit = evaluated then 1 else 0
  | _ :: before, unit => evaluations before unit

/-- The namespace that a unit has registered last. -/
def registered : List Occurrence → ℕ → Option ℕ
  | [], _ => none
  | .begun begun namespaceValue :: before, unit =>
    if unit = begun then some namespaceValue else registered before unit
  | _ :: before, unit => registered before unit

/-- What is returned for a unit is what it had registered last. -/
def Faithful : List Occurrence → Prop
  | [] => True
  | .returned unit namespaceValue _ :: before =>
    registered before unit = some namespaceValue ∧ Faithful before
  | _ :: before => Faithful before

theorem Faithful.registered_eq {after before : List Occurrence} {unit namespaceValue : ℕ}
    {initialized : Bool}
    (hfaithful : Faithful (after ++ .returned unit namespaceValue initialized :: before)) :
    registered before unit = some namespaceValue := by
  induction after with
  | nil => exact hfaithful.1
  | cons occurrence after ih =>
    cases occurrence with
    | returned other value flag => exact ih hfaithful.2
    | evaluated other => exact ih hfaithful
    | begun other value => exact ih hfaithful
    | published other value => exact ih hfaithful
    | imported imports => exact ih hfaithful
    | interrupted imports => exact ih hfaithful
    | failed => exact ih hfaithful

/-- Without another registration the last one stays the same. -/
theorem registered_append {after before : List Occurrence} {unit : ℕ}
    (hafter : ∀ other, .begun unit other ∉ after) :
    registered (after ++ before) unit = registered before unit := by
  induction after with
  | nil => rfl
  | cons occurrence after ih =>
    have hrest := ih fun other hmem => hafter other (mem_cons_of_mem _ hmem)
    cases occurrence with
    | begun other value =>
      have hother : unit ≠ other := by
        rintro rfl
        exact hafter value mem_cons_self
      rw [cons_append, registered, if_neg hother]
      exact hrest
    | returned other value flag => exact hrest
    | evaluated other => exact hrest
    | published other value => exact hrest
    | imported imports => exact hrest
    | interrupted imports => exact hrest
    | failed => exact hrest

variable {trace : List Occurrence} {occurrence : Occurrence} {namespaceValue : ℕ}

section Ledger

variable (topology : Topology)

/-- The slot of a unit agrees with the trace. -/
structure SlotLedger (trace : List Occurrence) (unit : ℕ) (slot : ChunkApplicationUnitSlot) :
    Prop where
  evaluations_eq : evaluations trace unit = if slot.state = .uninitialized then 0 else 1
  untouched : slot.state = .uninitialized → slot = emptySlot
  outside : topology.chunkSlotCount ≤ unit → slot = emptySlot
  registered_eq : slot.namespaceValue = registered trace unit
  published : slot.published = true →
    ∃ namespaceValue, slot.namespaceValue = some namespaceValue ∧
      .published unit namespaceValue ∈ trace
  publications : ∀ namespaceValue, .published unit namespaceValue ∈ trace →
    slot.published = true ∧ slot.namespaceValue = some namespaceValue
  initialized : slot.state = .initialized → slot.published = true
  returned : ∀ namespaceValue, .returned unit namespaceValue true ∈ trace →
    slot.state = .initialized ∧ slot.namespaceValue = some namespaceValue

/-- All slots agree with the trace, and so does what was returned. -/
structure Ledger (units : ℕ → ChunkApplicationUnitSlot) (trace : List Occurrence) : Prop where
  slots : ∀ unit, SlotLedger topology trace unit (units unit)
  faithful : Faithful trace

theorem Ledger.initial : Ledger topology (fun _ => emptySlot) [] where
  slots _ :=
    { evaluations_eq := rfl
      untouched := fun _ => rfl
      outside := fun _ => rfl
      registered_eq := rfl
      published := fun hpublished => by cases hpublished
      publications := fun _ hmem => by cases hmem
      initialized := fun hstate => by cases hstate
      returned := fun _ hmem => by cases hmem }
  faithful := trivial

/-- The unit that an occurrence is about. -/
def Occurrence.unit? : Occurrence → Option ℕ
  | .evaluated unit | .begun unit _ | .published unit _ | .returned unit _ _ => some unit
  | .imported _ | .interrupted _ | .failed => none

variable {topology} {units : ℕ → ChunkApplicationUnitSlot} {unit : ℕ}
  {slot : ChunkApplicationUnitSlot}

theorem evaluations_other (hother : occurrence.unit? ≠ some unit) :
    evaluations (occurrence :: trace) unit = evaluations trace unit := by
  cases occurrence with
  | evaluated evaluated =>
    have hne : unit ≠ evaluated := fun heq => hother (congrArg some heq.symm)
    rw [evaluations, if_neg hne, Nat.add_zero]
  | begun | published | returned | imported | interrupted | failed => rfl

theorem registered_other (hother : occurrence.unit? ≠ some unit) :
    registered (occurrence :: trace) unit = registered trace unit := by
  cases occurrence with
  | begun begun value =>
    have hne : unit ≠ begun := fun heq => hother (congrArg some heq.symm)
    rw [registered, if_neg hne]
  | evaluated | published | returned | imported | interrupted | failed => rfl

/-- What happens to another unit, or to none, does not concern a slot. -/
theorem SlotLedger.other (hslot : SlotLedger topology trace unit slot)
    (hother : occurrence.unit? ≠ some unit) :
    SlotLedger topology (occurrence :: trace) unit slot := { hslot with
  evaluations_eq := (evaluations_other hother).trans hslot.evaluations_eq
  registered_eq := hslot.registered_eq.trans (registered_other hother).symm
  published hpublished := (hslot.published hpublished).imp fun _ h => ⟨h.1, mem_cons_of_mem _ h.2⟩
  publications value hmem := by
    cases hmem with
    | head => exact absurd rfl hother
    | tail _ hmem => exact hslot.publications value hmem
  returned value hmem := by
    cases hmem with
    | head => exact absurd rfl hother
    | tail _ hmem => exact hslot.returned value hmem }

section

variable (hledger : Ledger topology units trace)
include hledger

/-- An occurrence that is about no unit changes nothing. -/
theorem Ledger.quiet (hquiet : occurrence.unit? = none) :
    Ledger topology units (occurrence :: trace) where
  slots unit := (hledger.slots unit).other (by simp [hquiet])
  faithful := by
    cases occurrence with
    | evaluated | begun | published | returned => cases hquiet
    | imported | interrupted | failed => exact hledger.faithful

/-- A change of one slot that goes with an occurrence about its unit. -/
theorem Ledger.update (hunit : occurrence.unit? = some unit)
    (hslot : SlotLedger topology (occurrence :: trace) unit slot)
    (hfaithful : Faithful (occurrence :: trace)) :
    Ledger topology (Function.update units unit slot) (occurrence :: trace) where
  slots other := by
    by_cases hother : other = unit
    · subst hother
      rw [Function.update_self]
      exact hslot
    · rw [Function.update_of_ne hother]
      apply (hledger.slots other).other
      rw [hunit]
      exact fun heq => hother (Option.some.inj heq).symm
  faithful := hfaithful

/-- A registered namespace is returned, as an initialised one if it is. -/
theorem Ledger.return {initialized : Bool}
    (hvalue : (units unit).namespaceValue = some namespaceValue)
    (hinitialized : initialized = true → (units unit).state = .initialized) :
    Ledger topology units (.returned unit namespaceValue initialized :: trace) := by
  have hslot := hledger.slots unit
  rw [← Function.update_eq_self unit units]
  apply hledger.update rfl
  · exact
      { hslot with
        published := fun hpublished =>
          (hslot.published hpublished).imp fun _ h => ⟨h.1, mem_cons_of_mem _ h.2⟩
        publications := fun value hmem => hslot.publications value (by simpa using hmem)
        returned := fun value hmem => by
          cases hmem with
          | head => exact ⟨hinitialized rfl, hvalue⟩
          | tail _ hmem => exact hslot.returned value hmem }
  · exact ⟨hslot.registered_eq.symm.trans hvalue, hledger.faithful⟩

/-- The factory of an untouched unit is evaluated. -/
theorem Ledger.evaluate (hunit : unit < topology.chunkSlotCount)
    (hstate : (units unit).state = .uninitialized) :
    Ledger topology (Function.update units unit { units unit with state := .initializing })
      (.evaluated unit :: trace) := by
  have hslot := hledger.slots unit
  have hempty := hslot.untouched hstate
  have hcount := hslot.evaluations_eq
  rw [if_pos hstate] at hcount
  have hfaithful : Faithful (.evaluated unit :: trace) := hledger.faithful
  apply hledger.update rfl _ hfaithful
  exact
    { evaluations_eq := by rw [evaluations, hcount, if_pos rfl]; rfl
      untouched := fun huninitialized => by cases huninitialized
      outside := fun hle => absurd hunit (not_lt.mpr hle)
      registered_eq := hslot.registered_eq
      published := fun hpublished => by rw [hempty] at hpublished; cases hpublished
      publications := fun value hmem => hslot.publications value (by simpa using hmem)
      initialized := fun hinitialized => by cases hinitialized
      returned := fun value hmem => by
        have hreturned := hslot.returned value (by simpa using hmem)
        rw [hstate] at hreturned
        cases hreturned.1 }

end

/-- A unit that is initialising is a chunk and has not been returned as an
initialised one. -/
theorem SlotLedger.initializing (hslot : SlotLedger topology trace unit slot)
    (hstate : slot.state = .initializing) :
    unit < topology.chunkSlotCount ∧ evaluations trace unit = 1 ∧
      ∀ value, .returned unit value true ∉ trace := by
  have hunit : unit < topology.chunkSlotCount := by
    by_contra hle
    rw [hslot.outside (not_lt.mp hle)] at hstate
    cases hstate
  have hcount := hslot.evaluations_eq
  rw [if_neg (by rw [hstate]; exact nofun)] at hcount
  refine ⟨hunit, hcount, fun value hmem => ?_⟩
  have hreturned := (hslot.returned value hmem).1
  rw [hstate] at hreturned
  cases hreturned

variable (hledger : Ledger topology units trace)
include hledger

/-- An unpublished unit that is initialising registers a namespace. -/
theorem Ledger.begin (namespaceValue : ℕ) (hstate : (units unit).state = .initializing)
    (hpublished : (units unit).published = false) :
    Ledger topology
      (Function.update units unit { units unit with namespaceValue := some namespaceValue })
      (.begun unit namespaceValue :: trace) := by
  have hslot := hledger.slots unit
  have hinitializing := hslot.initializing hstate
  have hfaithful : Faithful (.begun unit namespaceValue :: trace) := hledger.faithful
  apply hledger.update rfl _ hfaithful
  exact
    { evaluations_eq := hslot.evaluations_eq
      untouched := fun huninitialized => by rw [hstate] at huninitialized; cases huninitialized
      outside := fun hle => absurd hinitializing.1 (not_lt.mpr hle)
      registered_eq := by rw [registered, if_pos rfl]
      published := fun hfound => by rw [hpublished] at hfound; cases hfound
      publications := fun value hmem => by
        have hpublication := (hslot.publications value (by simpa using hmem)).1
        rw [hpublished] at hpublication
        cases hpublication
      initialized := fun hinitialized => by rw [hstate] at hinitialized; cases hinitialized
      returned := fun value hmem => absurd (by simpa using hmem) (hinitializing.2.2 value) }

/-- A unit publishes the namespace that it has registered last. -/
theorem Ledger.publish (hstate : (units unit).state = .initializing)
    (hvalue : (units unit).namespaceValue = some namespaceValue)
    (hpublished : (units unit).published = false) :
    Ledger topology (Function.update units unit { units unit with published := true })
      (.published unit namespaceValue :: trace) := by
  have hslot := hledger.slots unit
  have hinitializing := hslot.initializing hstate
  have hfaithful : Faithful (.published unit namespaceValue :: trace) := hledger.faithful
  apply hledger.update rfl _ hfaithful
  exact
    { hslot with
      untouched := fun huninitialized => by rw [hstate] at huninitialized; cases huninitialized
      outside := fun hle => absurd hinitializing.1 (not_lt.mpr hle)
      published := fun _ => ⟨namespaceValue, hvalue, mem_cons_self⟩
      publications := fun value hmem => by
        cases hmem with
        | head => exact ⟨rfl, hvalue⟩
        | tail _ hmem =>
          have hpublication := (hslot.publications value hmem).1
          rw [hpublished] at hpublication
          cases hpublication
      initialized := fun _ => rfl
      returned := fun value hmem => absurd (by simpa using hmem) (hinitializing.2.2 value) }

/-- A published unit is initialised. -/
theorem Ledger.finish (hstate : (units unit).state ≠ .uninitialized)
    (hpublished : (units unit).published = true) :
    Ledger topology (Function.update units unit { units unit with state := .initialized })
      trace where
  slots other := by
    by_cases hother : other = unit
    · subst hother
      have hslot := hledger.slots other
      have hcount := hslot.evaluations_eq
      rw [if_neg hstate] at hcount
      rw [Function.update_self]
      exact
        { hslot with
          evaluations_eq := hcount
          untouched := fun huninitialized => by cases huninitialized
          outside := fun hle =>
            absurd (congrArg ChunkApplicationUnitSlot.state (hslot.outside hle)) hstate
          initialized := fun _ => hpublished
          returned := fun value hmem => ⟨rfl, (hslot.returned value hmem).2⟩ }
    · rw [Function.update_of_ne hother]
      exact hledger.slots other
  faithful := hledger.faithful

end Ledger

variable {trace' : List Occurrence} {imports : OrderedImports} {target binding : ℕ}

section Imports

variable (topology : Topology)

/-- The calls of an ordered initialisation: one for each numbered specifier in
turn, each for another binding, with the namespace that was returned for the
target of that binding. -/
structure CalledInOrder (trace : List Occurrence) (imports : OrderedImports) : Prop where
  numbered : imports.calls.map (some ∘ ImportCall.target) =
    (List.range imports.calls.length).map fun index =>
      topology.dependencyBySpecifier imports.unit (importInitializationSpecifier index)
  own : ∀ call ∈ imports.calls, ∃ name callback,
    imports.bindings[call.binding]? = some (name, callback) ∧
      topology.dependencyBySpecifier imports.unit name = some call.target
  distinct : (imports.calls.map ImportCall.binding).Nodup
  returned : ∀ call ∈ imports.calls, ∃ initialized,
    .returned call.target call.namespaceValue initialized ∈ trace

/-- The bindings and targets that an ordered initialisation has consumed: those
of its calls and of one that may be pending. -/
def OrderedImports.consumed (imports : OrderedImports) (pending : List (ℕ × ℕ)) : List (ℕ × ℕ) :=
  imports.calls.map (fun call => (call.binding, call.target)) ++ pending

/-- How far an ordered initialisation has come. -/
structure ImportsProgress (trace : List Occurrence) (imports : OrderedImports)
    (pending : List (ℕ × ℕ)) : Prop where
  index_le : imports.index ≤ imports.bindings.length
  numbered : (imports.consumed pending).map (some ∘ Prod.snd) =
    (List.range imports.index).map fun index =>
      topology.dependencyBySpecifier imports.unit (importInitializationSpecifier index)
  own : ∀ pair ∈ imports.consumed pending, ∃ name callback,
    imports.bindings[pair.1]? = some (name, callback) ∧
      topology.dependencyBySpecifier imports.unit name = some pair.2
  distinct : ((imports.consumed pending).map Prod.fst).Nodup
  spent : ∀ pair ∈ imports.consumed pending, imports.callbacks pair.2 = none
  waiting : ∀ target binding, imports.callbacks target = some binding → ∃ name callback,
    imports.bindings[binding]? = some (name, callback) ∧
      topology.dependencyBySpecifier imports.unit name = some target
  returned : ∀ call ∈ imports.calls, ∃ initialized,
    .returned call.target call.namespaceValue initialized ∈ trace

variable {topology} {pending : List (ℕ × ℕ)} {elements : List (Option (String × ℕ))} {unit : ℕ}

theorem ImportsProgress.mono (hprogress : ImportsProgress topology trace imports pending)
    (htrace : trace ⊆ trace') : ImportsProgress topology trace' imports pending :=
  { hprogress with
    returned := fun call hcall => (hprogress.returned call hcall).imp fun _ h => htrace h }

theorem CalledInOrder.mono (hcalled : CalledInOrder topology trace imports)
    (htrace : trace ⊆ trace') : CalledInOrder topology trace' imports :=
  { hcalled with
    returned := fun call hcall => (hcalled.returned call hcall).imp fun _ h => htrace h }

theorem ImportsProgress.length_eq (hprogress : ImportsProgress topology trace imports pending) :
    imports.calls.length + pending.length = imports.index := by
  have hlength := congrArg List.length hprogress.numbered
  simpa [OrderedImports.consumed] using hlength

/-- The calls are the first of what has been consumed. -/
theorem ImportsProgress.called (hprogress : ImportsProgress topology trace imports pending) :
    CalledInOrder topology trace imports where
  numbered := by
    have hlength := hprogress.length_eq
    have htake := congrArg (List.take imports.calls.length) hprogress.numbered
    rw [← map_take, ← map_take, take_range, min_eq_left (by omega)] at htake
    rw [← htake, OrderedImports.consumed, take_left' (length_map _), map_map]
    rfl
  own call hcall :=
    hprogress.own (call.binding, call.target) (mem_append_left _ (mem_map.mpr ⟨call, hcall, rfl⟩))
  distinct := by
    have hdistinct := hprogress.distinct
    rw [OrderedImports.consumed, map_append, map_map] at hdistinct
    exact hdistinct.of_append_left
  returned := hprogress.returned

/-- Once every specifier has had its turn, so has every binding. -/
theorem CalledInOrder.perm (hcalled : CalledInOrder topology trace imports)
    (hlength : imports.calls.length = imports.bindings.length) :
    (imports.calls.map ImportCall.binding).Perm (List.range imports.bindings.length) := by
  have hsubset :
      imports.calls.map ImportCall.binding ⊆ List.range imports.bindings.length := by
    intro binding hbinding
    obtain ⟨call, hcall, rfl⟩ := mem_map.mp hbinding
    obtain ⟨name, callback, hget, _⟩ := hcalled.own call hcall
    exact mem_range.mpr (List.getElem?_eq_some_iff.mp hget).1
  have hsubperm := hcalled.distinct.subperm hsubset
  apply hsubperm.perm_of_length_le
  rw [length_range, length_map, hlength]

/-- The callback of the next specifier's target is taken. -/
theorem ImportsProgress.consume (hprogress : ImportsProgress topology trace imports [])
    (hindex : imports.index ≠ imports.bindings.length)
    (htarget : topology.dependencyBySpecifier imports.unit
      (importInitializationSpecifier imports.index) = some target)
    (hbinding : imports.callbacks target = some binding) :
    ImportsProgress topology trace
      { imports with
        callbacks := Function.update imports.callbacks target none
        index := imports.index + 1 } [(binding, target)] where
  index_le := Nat.lt_of_le_of_ne hprogress.index_le hindex
  numbered := by
    have hnumbered := hprogress.numbered
    rw [OrderedImports.consumed, List.append_nil] at hnumbered
    rw [OrderedImports.consumed, map_append, hnumbered, range_succ, map_append]
    simp [htarget]
  own pair hpair := by
    rcases mem_append.mp hpair with hpair | hpair
    · exact hprogress.own pair (mem_append_left _ hpair)
    · cases mem_singleton.mp hpair
      exact hprogress.waiting target binding hbinding
  distinct := by
    have hdistinct := hprogress.distinct
    rw [OrderedImports.consumed, List.append_nil] at hdistinct
    rw [OrderedImports.consumed, map_append]
    apply List.Nodup.append hdistinct (nodup_singleton _)
    intro other hother hsingle
    cases mem_singleton.mp hsingle
    -- A consumed binding has a spent target, and it is this one.
    obtain ⟨pair, hpair, hfirst⟩ := mem_map.mp hother
    have hconsumed := mem_append_left ([] : List (ℕ × ℕ)) hpair
    obtain ⟨name, callback, hget, hdependency⟩ := hprogress.own pair hconsumed
    obtain ⟨name', callback', hget', hdependency'⟩ := hprogress.waiting target binding hbinding
    have hspent := hprogress.spent pair hconsumed
    rw [hfirst, hget'] at hget
    cases hget
    rw [hdependency'] at hdependency
    cases hdependency
    rw [hbinding] at hspent
    cases hspent
  spent pair hpair := by
    rcases mem_append.mp hpair with hpair | hpair
    · have hspent := hprogress.spent pair (mem_append_left _ hpair)
      by_cases heq : pair.2 = target
      · simp [heq]
      · simpa [heq] using hspent
    · cases mem_singleton.mp hpair
      simp
  waiting other found hfound := by
    by_cases heq : other = target
    · simp [heq] at hfound
    · exact hprogress.waiting other found (by simpa [heq] using hfound)
  returned := hprogress.returned

/-- The pending callback is called with what was returned for its target. -/
theorem ImportsProgress.call
    (hprogress : ImportsProgress topology trace imports [(binding, target)])
    (hreturned : ∃ initialized, .returned target namespaceValue initialized ∈ trace) :
    ImportsProgress topology trace
      { imports with calls := imports.calls ++ [⟨binding, target, namespaceValue⟩] } [] := by
  have hconsumed :
      ({ imports with
          calls := imports.calls ++ [⟨binding, target, namespaceValue⟩] } : OrderedImports).consumed
            [] = imports.consumed [(binding, target)] := by
    simp [OrderedImports.consumed]
  constructor
  · exact hprogress.index_le
  · rw [hconsumed]
    exact hprogress.numbered
  · rw [hconsumed]
    exact hprogress.own
  · rw [hconsumed]
    exact hprogress.distinct
  · rw [hconsumed]
    exact hprogress.spent
  · exact hprogress.waiting
  · intro call hcall
    rcases mem_append.mp hcall with hcall | hcall
    · exact hprogress.returned call hcall
    · cases mem_singleton.mp hcall
      exact hreturned

/-- Collected callbacks belong to bindings with their target. -/
theorem collectCallbacks_own {bindings : List (String × ℕ)} :
    ∀ (rest : List (String × ℕ)) (before : List (String × ℕ)) (callbacks result : ℕ → Option ℕ),
      bindings = before ++ rest →
      (∀ target binding, callbacks target = some binding → ∃ name callback,
        bindings[binding]? = some (name, callback) ∧
          topology.dependencyBySpecifier unit name = some target) →
      collectCallbacks topology unit rest before.length callbacks = some result →
      ∀ target binding, result target = some binding → ∃ name callback,
        bindings[binding]? = some (name, callback) ∧
          topology.dependencyBySpecifier unit name = some target := by
  intro rest
  induction rest with
  | nil =>
    intro before callbacks result _ hown hcollect
    cases hcollect
    exact hown
  | cons head rest ih =>
    intro before callbacks result hbindings hown hcollect
    obtain ⟨name, callback⟩ := head
    rw [collectCallbacks] at hcollect
    split at hcollect
    · cases hcollect
    · rename_i target htarget
      split at hcollect
      · cases hcollect
      · apply ih (before ++ [(name, callback)]) _ result (by simp [hbindings]) _
          (by rw [length_append]; exact hcollect)
        intro other binding hother
        by_cases heq : other = target
        · rw [heq, Function.update_self] at hother
          cases hother
          refine ⟨name, callback, ?_, heq ▸ htarget⟩
          rw [hbindings, List.getElem?_append_right le_rfl, Nat.sub_self]
          rfl
        · rw [Function.update_of_ne heq] at hother
          exact hown other binding hother

/-- An ordered initialisation begins with nothing consumed. -/
theorem orderedImports_progress (horder : orderedImports topology unit elements = some imports) :
    ImportsProgress topology trace imports [] := by
  unfold orderedImports at horder
  split at horder
  · cases horder
  · split at horder
    · cases horder
    · rename_i bindings _
      obtain ⟨callbacks, hcallbacks, rfl⟩ := Option.map_eq_some_iff.mp horder
      have hown := @collectCallbacks_own topology unit bindings bindings [] (fun _ => none)
        callbacks rfl nofun hcallbacks
      exact
        { index_le := Nat.zero_le _
          numbered := rfl
          own := nofun
          distinct := nodup_nil
          spent := nofun
          waiting := hown
          returned := nofun }

end Imports

section Soundness

variable (topology : Topology)

/-- What a frame knows of the ordered initialisation that it belongs to. -/
def FrameSound (trace : List Occurrence) : Frame → Prop
  | .factory unit (.imports imports binding) =>
    ImportsProgress topology trace imports [(binding, unit)]
  | .callback imports => ImportsProgress topology trace imports []
  | .factory _ .guest | .factory _ (.entry _) | .publication _ => True

/-- The invariant of the loader.  `popped` is the unit whose factory has just
been taken from the stack, while its slot is not yet settled. -/
structure Sound (popped : Option ℕ) (state : State) : Prop where
  ledger : Ledger topology state.units state.trace
  failed : .failed ∈ state.trace → state.dirty = true
  active : ∀ unit, (state.units unit).state = .initializing →
    state.dirty = true ∨ popped = some unit ∨ ∃ caller, .factory unit caller ∈ state.stack
  entered : ∀ unit caller, .factory unit caller ∈ state.stack →
    (state.units unit).state ≠ .uninitialized
  cached : state.validatedChunkSlotCount = topology.chunkSlotCount →
    ∀ unit, settledSlot topology unit (state.units unit) = true
  frames : ∀ frame ∈ state.stack, FrameSound topology state.trace frame
  imported : ∀ imports, .imported imports ∈ state.trace →
    CalledInOrder topology state.trace imports ∧ imports.calls.length = imports.bindings.length
  interrupted : ∀ imports, .interrupted imports ∈ state.trace →
    CalledInOrder topology state.trace imports

theorem settledSlot_empty (unit : ℕ) : settledSlot topology unit emptySlot = true := by
  have hstate : ¬ (unit < topology.chunkSlotCount ∧ emptySlot.state = .initialized) :=
    fun h => by cases h.2
  rw [settledSlot, if_neg hstate]
  exact decide_eq_true rfl

theorem Sound.initial : Sound topology none initialState where
  ledger := Ledger.initial topology
  failed hmem := by cases hmem
  active _ hstate := by cases hstate
  entered _ _ hmem := by cases hmem
  cached _ unit := settledSlot_empty topology unit
  frames _ hmem := by cases hmem
  imported _ hmem := by cases hmem
  interrupted _ hmem := by cases hmem

variable {topology} {popped : Option ℕ} {state : State} {frame : Frame} {caller : Caller} {unit : ℕ}

theorem FrameSound.mono (hframe : FrameSound topology trace frame) (htrace : trace ⊆ trace') :
    FrameSound topology trace' frame := by
  match frame, hframe with
  | .factory _ (.imports _ _), hframe => exact ImportsProgress.mono hframe htrace
  | .callback _, hframe => exact ImportsProgress.mono hframe htrace
  | .factory _ .guest, _ => trivial
  | .factory _ (.entry _), _ => trivial
  | .publication _, _ => trivial

/-- What an occurrence claims about an ordered initialisation that has ended. -/
def Occurrence.ended (topology : Topology) (trace : List Occurrence) : Occurrence → Prop
  | .imported imports =>
    CalledInOrder topology trace imports ∧ imports.calls.length = imports.bindings.length
  | .interrupted imports => CalledInOrder topology trace imports
  | .evaluated _ | .begun _ _ | .published _ _ | .returned _ _ _ | .failed => True

section

variable (hsound : Sound topology popped state)
include hsound

/-- The units and the trace change; the stack stays. -/
theorem Sound.change {units : ℕ → ChunkApplicationUnitSlot} {validated : ℕ} {dirty : Bool}
    (hledger : Ledger topology units (occurrence :: state.trace))
    (hended : occurrence.ended topology state.trace)
    (hdirty : state.dirty = true ∨ occurrence = .failed → dirty = true)
    (hstates : ∀ unit, (units unit).state = (state.units unit).state)
    (hcached : validated = topology.chunkSlotCount →
      ∀ unit, settledSlot topology unit (units unit) = true) :
    Sound topology popped
      { state with
        units, dirty, validatedChunkSlotCount := validated
        trace := occurrence :: state.trace } where
  ledger := hledger
  failed hmem := by
    cases hmem with
    | head => exact hdirty (.inr rfl)
    | tail _ hmem => exact hdirty (.inl (hsound.failed hmem))
  active unit hstate := (hsound.active unit (hstates unit ▸ hstate)).imp_left fun h => hdirty (.inl h)
  entered unit caller hmem := by
    rw [hstates]
    exact hsound.entered unit caller hmem
  cached := hcached
  frames frame hmem := (hsound.frames frame hmem).mono (subset_cons_self _ _)
  imported imports hmem := by
    cases hmem with
    | head => exact ⟨hended.1.mono (subset_cons_self _ _), hended.2⟩
    | tail _ hmem =>
      have hcalled := hsound.imported imports hmem
      exact ⟨hcalled.1.mono (subset_cons_self _ _), hcalled.2⟩
  interrupted imports hmem := by
    cases hmem with
    | head => exact hended.mono (subset_cons_self _ _)
    | tail _ hmem => exact (hsound.interrupted imports hmem).mono (subset_cons_self _ _)

/-- Something is recorded that changes no unit. -/
theorem Sound.record (hledger : Ledger topology state.units (occurrence :: state.trace))
    (hended : occurrence.ended topology state.trace) (hfailed : occurrence ≠ .failed) :
    Sound topology popped (state.record occurrence) :=
  hsound.change hledger hended (fun h => h.resolve_right hfailed) (fun _ => rfl) hsound.cached

theorem Sound.recordReturned {initialized : Bool}
    (hvalue : (state.units unit).namespaceValue = some namespaceValue)
    (hinitialized : initialized = true → (state.units unit).state = .initialized) :
    Sound topology popped (state.record (.returned unit namespaceValue initialized)) :=
  hsound.record (hsound.ledger.return hvalue hinitialized) trivial nofun

end

/-- Once the runtime is to be given up, a popped factory is no concern. -/
theorem Sound.fail (hsound : Sound topology popped state) : Sound topology none state.fail := by
  have hledger : Ledger topology state.units (.failed :: state.trace) := hsound.ledger.quiet rfl
  exact
    { hsound.change hledger trivial (fun _ => rfl) (fun _ => rfl) hsound.cached with
      active := fun _ _ => .inl rfl }

section

variable (hsound : Sound topology popped state)
include hsound

theorem Sound.interrupt (hcalled : CalledInOrder topology state.trace imports) :
    Sound topology none (state.interrupt imports) :=
  hsound.fail.record (hsound.fail.ledger.quiet rfl) (hcalled.mono (subset_cons_self _ _)) nofun

theorem Sound.push (hframe : FrameSound topology state.trace frame)
    (hentered : ∀ unit caller, frame = .factory unit caller →
      (state.units unit).state ≠ .uninitialized) : Sound topology popped (state.push frame) :=
  { hsound with
    active := fun unit hstate =>
      (hsound.active unit hstate).imp_right fun h =>
        h.imp_right fun h => h.imp fun _ hmem => mem_cons_of_mem _ hmem
    entered := fun unit caller hmem => by
      cases hmem with
      | head => exact hentered unit caller rfl
      | tail _ hmem => exact hsound.entered unit caller hmem
    frames := fun other hmem => by
      cases hmem with
      | head => exact hframe
      | tail _ hmem => exact hsound.frames other hmem }

theorem Sound.callImport
    (hprogress : ImportsProgress topology state.trace imports [(binding, target)])
    (hreturned : ∃ initialized, .returned target namespaceValue initialized ∈ state.trace) :
    Sound topology popped (state.callImport imports binding target namespaceValue) :=
  hsound.push (hprogress.call hreturned) nofun

/-- A unit whose validation is void is changed, but not its state. -/
theorem Sound.setUnit {slot : ChunkApplicationUnitSlot}
    (hledger : Ledger topology (Function.update state.units unit slot) (occurrence :: state.trace))
    (hended : occurrence.ended topology state.trace) (hfailed : occurrence ≠ .failed)
    (hstate : slot.state = (state.units unit).state) :
    Sound topology popped ((state.setUnit unit slot).record occurrence) := by
  apply hsound.change hledger hended (fun h => h.resolve_right hfailed)
  · intro other
    by_cases hother : other = unit
    · rw [hother, Function.update_self, hstate]
    · rw [Function.update_of_ne hother]
  · intro hvalid
    exact absurd hvalid topology.chunkSlotCount_pos.ne

end

/-- The factory of a unit is put on the stack. -/
theorem Sound.evaluate (hsound : Sound topology none state) (hunit : unit < topology.chunkSlotCount)
    (hstate : (state.units unit).state = .uninitialized)
    (hframe : FrameSound topology state.trace (.factory unit caller)) :
    Sound topology none
      (((state.setUnit unit { state.units unit with state := .initializing }).record
        (.evaluated unit)).push (.factory unit caller)) where
  ledger := hsound.ledger.evaluate hunit hstate
  failed hmem := hsound.failed (by simpa [State.push, State.record, State.setUnit] using hmem)
  active other hother := by
    by_cases heq : other = unit
    · exact .inr (.inr ⟨caller, heq ▸ mem_cons_self⟩)
    · have hold := hsound.active other
        (by simpa [State.push, State.record, State.setUnit, heq] using hother)
      exact hold.imp_right fun h => h.imp_right fun h =>
        h.imp fun _ hmem => mem_cons_of_mem _ hmem
  entered other found hmem := by
    by_cases heq : other = unit
    · simp [State.push, State.record, State.setUnit, heq]
    · have hold := hsound.entered other found
        (by simpa [State.push, State.record, State.setUnit, heq] using hmem)
      simpa [State.push, State.record, State.setUnit, heq] using hold
  cached hvalid := absurd hvalid topology.chunkSlotCount_pos.ne
  frames other hmem := by
    cases hmem with
    | head => exact hframe.mono (subset_cons_self _ _)
    | tail _ hmem => exact (hsound.frames other hmem).mono (subset_cons_self _ _)
  imported imports hmem := by
    cases hmem with
    | tail _ hmem =>
      have hcalled := hsound.imported imports hmem
      exact ⟨hcalled.1.mono (subset_cons_self _ _), hcalled.2⟩
  interrupted imports hmem := by
    cases hmem with
    | tail _ hmem => exact (hsound.interrupted imports hmem).mono (subset_cons_self _ _)

/-- A published unit whose factory was popped is settled. -/
theorem Sound.finish (hsound : Sound topology (some unit) state)
    (hstate : (state.units unit).state ≠ .uninitialized)
    (hpublished : (state.units unit).published = true) :
    Sound topology none (state.setUnit unit { state.units unit with state := .initialized }) :=
  { hsound with
    ledger := hsound.ledger.finish hstate hpublished
    active := fun other hother => by
      by_cases heq : other = unit
      · simp [State.setUnit, heq] at hother
      · have hold := hsound.active other (by simpa [State.setUnit, heq] using hother)
        exact hold.imp_right fun h => .inr (h.resolve_left fun h => heq (Option.some.inj h).symm)
    entered := fun other caller hmem => by
      by_cases heq : other = unit
      · simp [State.setUnit, heq]
      · simpa [State.setUnit, heq] using hsound.entered other caller hmem
    cached := fun hvalid => absurd hvalid topology.chunkSlotCount_pos.ne }

/-- The frame on top of the stack is taken. -/
theorem Sound.pop (hsound : Sound topology none state) {rest : List Frame}
    (hstack : state.stack = frame :: rest)
    (hpopped : ∀ unit caller, frame = .factory unit caller → popped = some unit) :
    Sound topology popped { state with stack := rest } :=
  { hsound with
    active := fun unit hstate => by
      rcases hsound.active unit hstate with hdirty | hnone | ⟨caller, hmem⟩
      · exact .inl hdirty
      · cases hnone
      · rw [hstack] at hmem
        cases hmem with
        | head => exact .inr (.inl (hpopped unit caller rfl))
        | tail _ hmem => exact .inr (.inr ⟨caller, hmem⟩)
    entered := fun unit caller hmem =>
      hsound.entered unit caller (hstack ▸ mem_cons_of_mem _ hmem)
    frames := fun other hmem => hsound.frames other (hstack ▸ mem_cons_of_mem _ hmem) }

end Soundness

end ConvexWasm.Runtime.ChunkInitialization
