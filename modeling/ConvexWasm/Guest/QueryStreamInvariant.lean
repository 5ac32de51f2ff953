import ConvexWasm.Guest.QueryStreams

/-!
# What holds of the query streams

Everything that the bridge knows of an iterator is one of four phases: idle,
reading, answered by the host, or closed.  A step changes the phase of one
iterator and leaves the view of all others alone.
-/

namespace ConvexWasm.Guest

open Function SlotTable

section Logs

theorem Usable.opened {stream : ℕ} {log : List StreamEvent} (husable : Usable stream log) :
    .opened stream ∈ log := by
  induction log with
  | nil => cases husable
  | cons event earlier ih =>
    cases event with
    | opened other =>
      cases husable with
      | inl hsame => exact hsame ▸ List.mem_cons_self
      | inr hearlier => exact List.mem_cons_of_mem _ (ih hearlier)
    | read other => exact List.mem_cons_of_mem _ (ih husable)
    | ended other | closed other => exact List.mem_cons_of_mem _ (ih husable.2)
    | cancelled => cases husable

theorem Orderly.tail {event : StreamEvent} {earlier : List StreamEvent}
    (horderly : Orderly (event :: earlier)) : Orderly earlier := by
  cases event with
  | opened other => exact horderly.2.2
  | read other | ended other | closed other => exact horderly.2
  | cancelled => exact horderly

/-- Whatever happens to a stream happens after it was opened. -/
theorem Orderly.opened {stream : ℕ} {log : List StreamEvent} (horderly : Orderly log)
    (htouched : .closed stream ∈ log ∨ .ended stream ∈ log) : .opened stream ∈ log := by
  induction log with
  | nil => simp at htouched
  | cons event earlier ih =>
    have hrest := fun htail => List.mem_cons_of_mem event (ih horderly.tail htail)
    cases htouched with
    | inl hclosed =>
      cases hclosed with
      | head => exact List.mem_cons_of_mem _ horderly.1.opened
      | tail _ htail => exact hrest (.inl htail)
    | inr hended =>
      cases hended with
      | head => exact List.mem_cons_of_mem _ horderly.1.opened
      | tail _ htail => exact hrest (.inr htail)

variable {stream : ℕ} {log : List StreamEvent}

/-- A usable stream has neither been closed nor come to its end. -/
theorem Usable.untouched (horderly : Orderly log) (husable : Usable stream log) :
    .closed stream ∉ log ∧ .ended stream ∉ log := by
  induction log with
  | nil => cases husable
  | cons event earlier ih =>
    cases event with
    | opened other =>
      cases husable with
      | inl hsame =>
        have hfresh : ¬(.closed stream ∈ earlier ∨ .ended stream ∈ earlier) :=
          fun htouched => horderly.2.1 (hsame ▸ horderly.tail.opened htouched)
        simpa [not_or] using hfresh
      | inr hearlier => simpa using ih horderly.tail hearlier
    | read other => simpa using ih horderly.tail husable
    | ended other | closed other =>
      simpa [husable.1.symm] using ih horderly.tail husable.2
    | cancelled => cases husable

theorem Orderly.pos (horderly : Orderly log) (hopened : .opened stream ∈ log) : 0 < stream := by
  induction log with
  | nil => cases hopened
  | cons event earlier ih =>
    cases hopened with
    | head => exact horderly.1
    | tail _ hearlier => exact ih horderly.tail hearlier

/-- A stream is closed at most once. -/
theorem Orderly.count_closed_le (horderly : Orderly log) (stream : ℕ) :
    log.count (.closed stream) ≤ 1 := by
  induction log with
  | nil => simp
  | cons event earlier ih =>
    rw [List.count_cons]
    split_ifs with hevent
    · have hclosed : event = .closed stream := eq_of_beq hevent
      subst hclosed
      rw [List.count_eq_zero_of_not_mem (horderly.1.untouched horderly.tail).1]
    · exact ih horderly.tail

/-- A stream is not closed after it has come to its end or been cancelled. -/
theorem Orderly.usable_of_closed {log later earlier : List StreamEvent} (horderly : Orderly log)
    (hsplit : log = later ++ .closed stream :: earlier) :
    Usable stream earlier ∧ .ended stream ∉ earlier := by
  induction later generalizing log with
  | nil =>
    subst hsplit
    exact ⟨horderly.1, (horderly.1.untouched horderly.tail).2⟩
  | cons event later ih =>
    subst hsplit
    exact ih horderly.tail rfl

end Logs

section Views

variable {Document : Type}

def ReadResult.document? : ReadResult Document → Option Document
  | .document found => some found
  | .finished | .invalid | .failed => none

/-- The host is done with a stream that has reported this. -/
def ReadResult.isLast : ReadResult Document → Bool
  | .finished | .failed => true
  | .document _ | .invalid => false

/-- The results that wait in the microtasks for an iterator. -/
def reactionsOf (microtasks : List (ℕ × ReadResult Document)) (index : ℕ) :
    List (ReadResult Document) :=
  (microtasks.filter fun task => task.1 = index).map Prod.snd

/-- Everything that the bridge knows of one iterator. -/
@[ext]
structure View (Document : Type) where
  state : IteratorState Document
  held : Prop
  slots : Set ℕ
  reactions : List (ReadResult Document)
  usable : Prop
  remaining : List Document
  documents : List Document

def Bridge.view (bridge : Bridge Document) (index : ℕ) : View Document where
  state := bridge.iterators index
  held := ∃ slot, (bridge.iterators index).cleanupSlot = some slot ∧
    lookup bridge.openQueryStreamCleanups slot = some index
  slots := {slot | lookup bridge.pendingOperations slot = some (.iterator index)}
  reactions := reactionsOf bridge.microtasks index
  usable := Usable (bridge.iterators index).origin bridge.log
  remaining := bridge.remaining (bridge.iterators index).origin
  documents := bridge.documents (bridge.iterators index).origin

@[simp]
theorem Bridge.view_state {bridge : Bridge Document} {index : ℕ} :
    (bridge.view index).state = bridge.iterators index :=
  rfl

/-- An iterator that has its stream and its slot among the cleanups. -/
structure View.IsOpen (view : View Document) : Prop where
  done : view.state.done = false
  handle : view.state.streamHandle = view.state.origin
  held : view.held

/-- The phases of an iterator. -/
inductive Phase (view : View Document) : Prop
  | idle (hopen : view.IsOpen) (hpending : view.state.pending = false) (hslots : view.slots = ∅)
      (hreactions : view.reactions = []) (husable : view.usable)
  | reading (slot : ℕ) (hopen : view.IsOpen) (hpending : view.state.pending = true)
      (hslots : view.slots = {slot}) (hreactions : view.reactions = []) (husable : view.usable)
  | answered (result : ReadResult Document) (hopen : view.IsOpen)
      (hpending : view.state.pending = true) (hslots : view.slots = ∅)
      (hreactions : view.reactions = [result]) (husable : result.isLast = false → view.usable)
  | closed (hdone : view.state.done = true) (hslots : view.slots = ∅)
      (hreactions : view.reactions = [] ∨
        view.state.pending = true ∧ ∃ result, view.reactions = [result])

/-- No document of the host is lost, repeated or moved. -/
def Conserved (view : View Document) : Prop :=
  view.state.handed ++ view.reactions.filterMap ReadResult.document? ++ view.remaining =
    view.documents

/-- The operation that a continuation waits for. -/
def operationOf (bridge : Bridge Document) : Continuation → HostOperation
  | .iterator index => .read (bridge.iterators index).origin
  | .other => .other

/-- What holds of the bridge at every moment. -/
structure Sound (bridge : Bridge Document) : Prop where
  orderly : Orderly bridge.log
  opened : ∀ stream, .opened stream ∈ bridge.log → stream ≤ bridge.streamCount
  phase : ∀ index < bridge.iteratorCount, Phase (bridge.view index)
  conserved : ∀ index < bridge.iteratorCount, Conserved (bridge.view index)
  origin : ∀ index < bridge.iteratorCount, (bridge.iterators index).origin ≤ bridge.streamCount
  distinct : ∀ index < bridge.iteratorCount, ∀ other < bridge.iteratorCount,
    (bridge.iterators index).origin = (bridge.iterators other).origin → index = other
  cleanups : ∀ slot index, lookup bridge.openQueryStreamCleanups slot = some index →
    index < bridge.iteratorCount ∧ (bridge.iterators index).cleanupSlot = some slot ∧
      (bridge.iterators index).done = false
  waiting : ∀ slot continuation, lookup bridge.pendingOperations slot = some continuation →
    bridge.outstanding (slot + 1) = some (operationOf bridge continuation) ∧
      ∀ index, continuation = .iterator index → index < bridge.iteratorCount
  outstanding : ∀ handle operation, bridge.outstanding handle = some operation →
    ∃ slot continuation, handle = slot + 1 ∧
      lookup bridge.pendingOperations slot = some continuation
  tasks : ∀ task ∈ bridge.microtasks, task.1 < bridge.iteratorCount
  table : ∀ slot index, lookup bridge.sdkQueryStreams slot = some index →
    index < bridge.iteratorCount ∧ (bridge.iterators index).invocation = bridge.invocation
  past : ∀ index < bridge.iteratorCount,
    (bridge.iterators index).invocation ≤ bridge.invocation ∧
      ((bridge.iterators index).invocation < bridge.invocation →
        (bridge.iterators index).done = true)
  counted : bridge.registered = bridge.settled + bridge.cancelled +
    occupied bridge.pendingOperations

theorem sound_empty : Sound (emptyBridge : Bridge Document) where
  orderly := trivial
  opened _ hopened := absurd hopened (List.not_mem_nil)
  phase _ hindex := absurd hindex (Nat.not_lt_zero _)
  conserved _ hindex := absurd hindex (Nat.not_lt_zero _)
  origin _ hindex := absurd hindex (Nat.not_lt_zero _)
  distinct _ hindex := absurd hindex (Nat.not_lt_zero _)
  cleanups _ _ hslot := nomatch hslot
  waiting _ _ hslot := nomatch hslot
  outstanding _ _ hhandle := nomatch hhandle
  tasks _ htask := absurd htask (List.not_mem_nil)
  table _ _ hslot := nomatch hslot
  past _ hindex := absurd hindex (Nat.not_lt_zero _)
  counted := rfl

end Views

section Frames

variable {Document : Type}

/-- A step that changes the view of one iterator only. -/
structure Moves (bridge bridge' : Bridge Document) (index : ℕ) : Prop where
  count : bridge'.iteratorCount = bridge.iteratorCount
  streams : bridge'.streamCount = bridge.streamCount
  invocation : bridge'.invocation = bridge.invocation
  table : ∀ slot found, lookup bridge'.sdkQueryStreams slot = some found →
    lookup bridge.sdkQueryStreams slot = some found
  state : ∀ other, (bridge'.iterators other).origin = (bridge.iterators other).origin ∧
    (bridge'.iterators other).invocation = (bridge.iterators other).invocation ∧
    ((bridge.iterators other).done = true → (bridge'.iterators other).done = true)
  others : ∀ other < bridge.iteratorCount, other ≠ index → bridge'.view other = bridge.view other

/-- After such a step it is enough to look at the iterator and at the tables. -/
theorem Sound.move {bridge bridge' : Bridge Document} {index : ℕ} (hsound : Sound bridge)
    (hmoves : Moves bridge bridge' index) (horderly : Orderly bridge'.log)
    (hopened : ∀ stream, .opened stream ∈ bridge'.log → .opened stream ∈ bridge.log)
    (hphase : index < bridge.iteratorCount → Phase (bridge'.view index))
    (hconserved : index < bridge.iteratorCount → Conserved (bridge'.view index))
    (hcleanups : ∀ slot found, lookup bridge'.openQueryStreamCleanups slot = some found →
      lookup bridge.openQueryStreamCleanups slot = some found ∧
        (bridge'.iterators found).cleanupSlot = (bridge.iterators found).cleanupSlot ∧
        (bridge'.iterators found).done = (bridge.iterators found).done)
    (hwaiting : ∀ slot continuation,
      lookup bridge'.pendingOperations slot = some continuation →
        bridge'.outstanding (slot + 1) = some (operationOf bridge continuation) ∧
          ∀ found, continuation = .iterator found → found < bridge.iteratorCount)
    (houtstanding : ∀ handle operation, bridge'.outstanding handle = some operation →
      ∃ slot continuation, handle = slot + 1 ∧
        lookup bridge'.pendingOperations slot = some continuation)
    (htasks : ∀ task ∈ bridge'.microtasks, task.1 < bridge.iteratorCount)
    (hcounted : bridge'.registered = bridge'.settled + bridge'.cancelled +
      occupied bridge'.pendingOperations) : Sound bridge' where
  orderly := horderly
  opened stream hmem := hmoves.streams ▸ hsound.opened stream (hopened stream hmem)
  phase other hother := by
    rw [hmoves.count] at hother
    by_cases hsame : other = index
    · subst hsame
      exact hphase hother
    · rw [hmoves.others other hother hsame]
      exact hsound.phase other hother
  conserved other hother := by
    rw [hmoves.count] at hother
    by_cases hsame : other = index
    · subst hsame
      exact hconserved hother
    · rw [hmoves.others other hother hsame]
      exact hsound.conserved other hother
  origin other hother := by
    rw [(hmoves.state other).1, hmoves.streams]
    exact hsound.origin other (hmoves.count ▸ hother)
  distinct first hfirst second hsecond hequal := by
    rw [(hmoves.state first).1, (hmoves.state second).1] at hequal
    exact hsound.distinct first (hmoves.count ▸ hfirst) second (hmoves.count ▸ hsecond) hequal
  cleanups slot found hslot := by
    obtain ⟨hbefore, hcleanup, hdone⟩ := hcleanups slot found hslot
    rw [hcleanup, hdone, hmoves.count]
    exact hsound.cleanups slot found hbefore
  waiting slot continuation hslot := by
    obtain ⟨hoperation, hindex⟩ := hwaiting slot continuation hslot
    refine ⟨hoperation.trans ?_, hmoves.count ▸ hindex⟩
    cases continuation with
    | iterator found => simp only [operationOf, (hmoves.state found).1]
    | other => rfl
  outstanding := houtstanding
  tasks task htask := hmoves.count ▸ htasks task htask
  table slot found hslot := by
    rw [hmoves.count, (hmoves.state found).2.1, hmoves.invocation]
    exact hsound.table slot found (hmoves.table slot found hslot)
  past other hother := by
    obtain ⟨hle, hdone⟩ := hsound.past other (hmoves.count ▸ hother)
    rw [(hmoves.state other).2.1, hmoves.invocation]
    exact ⟨hle, fun hless => (hmoves.state other).2.2 (hdone hless)⟩
  counted := hcounted

theorem reactionsOf_append {tasks : List (ℕ × ReadResult Document)} {index other : ℕ}
    {result : ReadResult Document} :
    reactionsOf (tasks ++ [(index, result)]) other =
      reactionsOf tasks other ++ if index = other then [result] else [] := by
  unfold reactionsOf
  by_cases hsame : index = other
  · rw [if_pos hsame, hsame]
    simp
  · simp [hsame]

end Frames

section Reads

variable {Document : Type} {bridge : Bridge Document} {index : ℕ}

/-- The host refuses a read: the promise of the read is rejected. -/
def refuseRead (bridge : Bridge Document) (index : ℕ) : Bridge Document :=
  { bridge with
    iterators := update bridge.iterators index
      { bridge.iterators index with pending := true }
    log := .read (bridge.iterators index).streamHandle :: bridge.log
    microtasks := bridge.microtasks ++ [(index, .failed)] }

/-- The host starts a read under a new handle. -/
def beginRead (bridge : Bridge Document) (index handle : ℕ) : Bridge Document :=
  { bridge with
    iterators := update bridge.iterators index
      { bridge.iterators index with pending := true }
    log := .read (bridge.iterators index).streamHandle :: bridge.log
    outstanding := update bridge.outstanding handle
      (some (.read (bridge.iterators index).streamHandle))
    pendingOperations := put bridge.pendingOperations (handle - 1) (.iterator index)
    registered := bridge.registered + 1 }

theorem moves_refuseRead : Moves bridge (refuseRead bridge index) index where
  count := rfl
  streams := rfl
  invocation := rfl
  table _ _ hslot := hslot
  state other := by
    by_cases hsame : other = index
    · subst hsame
      simp [refuseRead]
    · simp [refuseRead, hsame]
  others other _ hsame := by
    have hdifferent : index ≠ other := fun hequal => hsame hequal.symm
    ext : 1 <;> simp [Bridge.view, refuseRead, hsame, hdifferent, Usable, reactionsOf_append]

theorem Sound.readRefused (hsound : Sound bridge) (hindex : index < bridge.iteratorCount)
    (hopen : (bridge.view index).IsOpen) (hslots : (bridge.view index).slots = ∅)
    (hreactions : (bridge.view index).reactions = []) (husable : (bridge.view index).usable) :
    Sound (refuseRead bridge index) := by
  have hview : (refuseRead bridge index).view index =
      { bridge.view index with
        state := { bridge.iterators index with pending := true }
        reactions := [.failed] } := by
    ext : 1 <;> simp [Bridge.view, refuseRead, Usable, reactionsOf_append]
    exact hreactions
  refine hsound.move moves_refuseRead ⟨?_, hsound.orderly⟩ (fun stream hmem => ?_)
    (fun _ => ?_) (fun _ => ?_) (fun slot found hslot => ⟨hslot, ?_⟩) hsound.waiting
    hsound.outstanding (fun task htask => ?_) hsound.counted
  · have hhandle : (bridge.iterators index).streamHandle = (bridge.iterators index).origin :=
      hopen.handle
    rw [hhandle]
    exact husable
  · simpa [refuseRead] using hmem
  · rw [hview]
    exact .answered .failed ⟨hopen.done, hopen.handle, hopen.held⟩ rfl hslots rfl
      (fun hlast => absurd hlast.symm Bool.false_ne_true)
  · rw [hview]
    have hconserved := hsound.conserved index hindex
    rw [Conserved, hreactions] at hconserved
    exact hconserved
  · by_cases hsame : found = index
    · subst hsame
      simp [refuseRead]
    · simp [refuseRead, hsame]
  · obtain hold | hnew := List.mem_append.mp htask
    · exact hsound.tasks task hold
    · rw [List.mem_singleton.mp hnew]
      exact hindex

variable {handle : ℕ}

theorem moves_beginRead (hfree : lookup bridge.pendingOperations (handle - 1) = none) :
    Moves bridge (beginRead bridge index handle) index where
  count := rfl
  streams := rfl
  invocation := rfl
  table _ _ hslot := hslot
  state other := by
    by_cases hsame : other = index
    · subst hsame
      simp [beginRead]
    · simp [beginRead, hsame]
  others other _ hsame := by
    have hdifferent : index ≠ other := fun hequal => hsame hequal.symm
    ext slot <;> simp [Bridge.view, beginRead, hsame, Usable, lookup_put]
    by_cases hslot : slot = handle - 1
    · simp [hslot, hfree, hdifferent]
    · simp [hslot]

theorem Sound.readBegun (hsound : Sound bridge) (hindex : index < bridge.iteratorCount)
    (hopen : (bridge.view index).IsOpen) (hslots : (bridge.view index).slots = ∅)
    (hreactions : (bridge.view index).reactions = []) (husable : (bridge.view index).usable)
    (hpositive : 0 < handle) (hfree : lookup bridge.pendingOperations (handle - 1) = none) :
    Sound (beginRead bridge index handle) := by
  have hhandle : (bridge.iterators index).streamHandle = (bridge.iterators index).origin :=
    hopen.handle
  have hview : (beginRead bridge index handle).view index =
      { bridge.view index with
        state := { bridge.iterators index with pending := true }
        slots := {handle - 1} } := by
    ext slot <;> simp [Bridge.view, beginRead, Usable, lookup_put]
    have hnone : lookup bridge.pendingOperations slot ≠ some (.iterator index) := fun hlookup => by
      have hmem : slot ∈ (bridge.view index).slots := hlookup
      rw [hslots] at hmem
      exact hmem
    simp [hnone]
  refine hsound.move (moves_beginRead hfree) ⟨?_, hsound.orderly⟩ (fun stream hmem => ?_)
    (fun _ => ?_) (fun _ => ?_) (fun slot found hslot => ⟨hslot, ?_⟩)
    (fun slot continuation hslot => ?_) (fun other operation hother => ?_) hsound.tasks ?_
  · rw [hhandle]
    exact husable
  · simpa [beginRead] using hmem
  · rw [hview]
    exact .reading (handle - 1) ⟨hopen.done, hopen.handle, hopen.held⟩ rfl rfl hreactions husable
  · rw [hview]
    exact hsound.conserved index hindex
  · by_cases hsame : found = index
    · subst hsame
      simp [beginRead]
    · simp [beginRead, hsame]
  · simp only [beginRead, lookup_put] at hslot ⊢
    split_ifs at hslot with hnew
    · cases hslot
      have hslotHandle : slot + 1 = handle := by omega
      rw [hslotHandle, update_self, hhandle]
      exact ⟨rfl, fun found hfound => by cases hfound; exact hindex⟩
    · have hother : slot + 1 ≠ handle := by omega
      rw [update_of_ne hother]
      exact hsound.waiting slot continuation hslot
  · simp only [beginRead] at hother ⊢
    by_cases hnew : other = handle
    · refine ⟨handle - 1, .iterator index, by omega, ?_⟩
      rw [lookup_put, if_pos rfl]
    · rw [update_of_ne hnew] at hother
      obtain ⟨slot, continuation, rfl, hslot⟩ := hsound.outstanding other operation hother
      refine ⟨slot, continuation, rfl, ?_⟩
      rw [lookup_put, if_neg (by omega)]
      exact hslot
  · have hcounted := hsound.counted
    simp only [beginRead, occupied_put hfree]
    omega

/-- A new handle has a free slot. -/
theorem Sound.free (hsound : Sound bridge) (hpositive : 0 < handle)
    (hnew : bridge.outstanding handle = none) :
    lookup bridge.pendingOperations (handle - 1) = none := by
  cases hslot : lookup bridge.pendingOperations (handle - 1) with
  | none => rfl
  | some continuation =>
    have houtstanding := (hsound.waiting _ _ hslot).1
    rw [Nat.sub_add_cancel hpositive, hnew] at houtstanding
    cases houtstanding

/-- An idle iterator starts a read of its stream. -/
theorem Sound.startRead (hsound : Sound bridge) (hindex : index < bridge.iteratorCount)
    (hdone : (bridge.iterators index).done = false)
    (hpending : (bridge.iterators index).pending = false) {reply : Option ℕ}
    (hreply : ∀ handle ∈ reply, 0 < handle ∧ bridge.outstanding handle = none) :
    Sound (startCapabilityQueryStreamNext
      (bridge.setIterator index { bridge.iterators index with pending := true })
      index reply) := by
  cases hsound.phase index hindex with
  | idle hopen _ hslots hreactions husable =>
    cases reply with
    | none =>
      have hrefused := hsound.readRefused hindex hopen hslots hreactions husable
      simpa [startCapabilityQueryStreamNext, enqueue, Bridge.setIterator, refuseRead] using hrefused
    | some handle =>
      obtain ⟨hpositive, hnew⟩ := hreply handle rfl
      have hfree := hsound.free hpositive hnew
      have hbegun := hsound.readBegun hindex hopen hslots hreactions husable hpositive hfree
      simpa [startCapabilityQueryStreamNext, registerCapabilityOperation,
        Bridge.setIterator, beginRead, hfree, hpositive.ne'] using hbegun
  | reading _ _ hbusy _ _ _ => exact absurd (hpending.symm.trans hbusy) Bool.false_ne_true
  | answered _ _ hbusy _ _ _ => exact absurd (hpending.symm.trans hbusy) Bool.false_ne_true
  | closed hclosed _ _ => exact absurd (hdone.symm.trans hclosed) Bool.false_ne_true

end Reads

section Settlements

variable {Document : Type} {bridge : Bridge Document} {index : ℕ}

/-- The microtasks without those of an iterator. -/
structure Dropped (before after : List (ℕ × ReadResult Document)) (index : ℕ) : Prop where
  none : reactionsOf after index = []
  others : ∀ other, other ≠ index → reactionsOf after other = reactionsOf before other
  subset : ∀ task ∈ after, task ∈ before

variable {tasks : List (ℕ × ReadResult Document)}

theorem dropped_self (hnone : reactionsOf tasks index = []) : Dropped tasks tasks index :=
  ⟨hnone, fun _ _ => rfl, fun _ htask => htask⟩

variable {place : ℕ}

theorem dropped_eraseIdx {result found : ReadResult Document}
    (hplace : tasks[place]? = some (index, result))
    (hreactions : reactionsOf tasks index = [found]) :
    found = result ∧ Dropped tasks (tasks.eraseIdx place) index := by
  have hlength := (List.getElem?_eq_some_iff.mp hplace).1
  have hget := (List.getElem?_eq_some_iff.mp hplace).2
  have hsplit : tasks = tasks.take place ++ (index, result) :: tasks.drop (place + 1) := by
    conv_lhs => rw [← List.take_append_drop place tasks]
    rw [List.drop_eq_getElem_cons hlength, hget]
  have herased : tasks.eraseIdx place = tasks.take place ++ tasks.drop (place + 1) :=
    List.eraseIdx_eq_take_drop_succ tasks place
  generalize tasks.take place = before at hsplit herased
  generalize tasks.drop (place + 1) = after at hsplit herased
  rw [herased]
  subst hsplit
  have happend : ∀ other, reactionsOf (before ++ after) other =
      reactionsOf before other ++ reactionsOf after other := fun other => by
    simp [reactionsOf]
  have hcons : ∀ other, reactionsOf (before ++ (index, result) :: after) other =
      reactionsOf before other ++ ((if index = other then [result] else []) ++
        reactionsOf after other) := fun other => by
    unfold reactionsOf
    by_cases hsame : index = other <;> simp [hsame]
  rw [hcons, if_pos rfl] at hreactions
  have hbefore : reactionsOf before index = [] := by
    have hcount := congrArg List.length hreactions
    simp only [List.length_append, List.length_singleton] at hcount
    exact List.eq_nil_of_length_eq_zero (by omega)
  rw [hbefore, List.nil_append, List.singleton_append] at hreactions
  obtain ⟨hfound, hafter⟩ := List.cons.inj hreactions
  refine ⟨hfound.symm, ⟨?_, fun other hother => ?_, fun task htask => ?_⟩⟩
  · rw [happend, hbefore, hafter]
    rfl
  · rw [happend, hcons, if_neg (Ne.symm hother), List.nil_append]
  · obtain hearly | hlate := List.mem_append.mp htask
    · exact List.mem_append_left _ hearly
    · exact List.mem_append_right _ (List.mem_cons_of_mem _ hlate)

/-- The promise of a read is settled and the iterator stays as it is. -/
def resume (bridge : Bridge Document) (index : ℕ) (tasks : List (ℕ × ReadResult Document))
    (handed : List Document) : Bridge Document :=
  { bridge with
    iterators := update bridge.iterators index
      { bridge.iterators index with pending := false, handed }
    microtasks := tasks }

/-- The iterator gives its stream and its slot back. -/
def finish (bridge : Bridge Document) (index slot : ℕ) (closeHost : Bool)
    (tasks : List (ℕ × ReadResult Document)) : Bridge Document :=
  { bridge with
    iterators := update bridge.iterators index
      { bridge.iterators index with
        pending := false, done := true, streamHandle := 0, cleanupSlot := none }
    openQueryStreamCleanups := clear bridge.openQueryStreamCleanups slot
    log :=
      if closeHost then .closed (bridge.iterators index).streamHandle :: bridge.log
      else bridge.log
    microtasks := tasks }

variable {handed : List Document}

theorem Sound.resumed (hsound : Sound bridge) (hdropped : Dropped bridge.microtasks tasks index)
    (hphase : index < bridge.iteratorCount → Phase ((resume bridge index tasks handed).view index))
    (hconserved : index < bridge.iteratorCount →
      Conserved ((resume bridge index tasks handed).view index)) :
    Sound (resume bridge index tasks handed) := by
  have hstate : ∀ other, ((resume bridge index tasks handed).iterators other).origin =
        (bridge.iterators other).origin ∧
      ((resume bridge index tasks handed).iterators other).invocation =
        (bridge.iterators other).invocation ∧
      ((resume bridge index tasks handed).iterators other).done = (bridge.iterators other).done ∧
      ((resume bridge index tasks handed).iterators other).cleanupSlot =
        (bridge.iterators other).cleanupSlot := fun other => by
    by_cases hsame : other = index
    · subst hsame
      simp [resume]
    · simp [resume, hsame]
  have hmoves : Moves bridge (resume bridge index tasks handed) index :=
    { count := rfl
      streams := rfl
      invocation := rfl
      table := fun _ _ hslot => hslot
      state := fun other => ⟨(hstate other).1, (hstate other).2.1,
        fun hdone => (hstate other).2.2.1.trans hdone⟩
      others := fun other _ hsame => by
        ext : 1 <;> simp [Bridge.view, resume, hsame, hdropped.others other hsame] }
  exact hsound.move hmoves hsound.orderly (fun _ hmem => hmem) hphase hconserved
    (fun slot found hslot => ⟨hslot, (hstate found).2.2.2, (hstate found).2.2.1⟩)
    hsound.waiting hsound.outstanding
    (fun task htask => hsound.tasks task (hdropped.subset task htask)) hsound.counted

variable {slot : ℕ}

theorem Sound.finished (hsound : Sound bridge) (hindex : index < bridge.iteratorCount)
    (hopen : (bridge.view index).IsOpen) (hslots : (bridge.view index).slots = ∅)
    (hdocuments : (bridge.view index).reactions.filterMap ReadResult.document? = [])
    (hdropped : Dropped bridge.microtasks tasks index)
    (hslot : (bridge.iterators index).cleanupSlot = some slot) {closeHost : Bool}
    (husable : closeHost = true → (bridge.view index).usable) :
    Sound (finish bridge index slot closeHost tasks) := by
  have hhandle : (bridge.iterators index).streamHandle = (bridge.iterators index).origin :=
    hopen.handle
  have hheld : lookup bridge.openQueryStreamCleanups slot = some index := by
    obtain ⟨found, hfound, hlookup⟩ := hopen.held
    have hsame : slot = found := Option.some.inj (hslot.symm.trans hfound)
    rw [hsame]
    exact hlookup
  have hstate : ∀ other, other ≠ index →
      (finish bridge index slot closeHost tasks).iterators other = bridge.iterators other :=
    fun other hother => update_of_ne hother _ _
  have hself : (finish bridge index slot closeHost tasks).iterators index =
      { bridge.iterators index with
        pending := false, done := true, streamHandle := 0, cleanupSlot := none } :=
    update_self _ _ _
  have hmoves : Moves bridge (finish bridge index slot closeHost tasks) index :=
    { count := rfl
      streams := rfl
      invocation := rfl
      table := fun _ _ hfound => hfound
      state := fun other => by
        by_cases hsame : other = index
        · subst hsame
          rw [hself]
          exact ⟨rfl, rfl, fun _ => rfl⟩
        · rw [hstate other hsame]
          exact ⟨rfl, rfl, id⟩
      others := fun other hother hsame => by
        have horigin : (bridge.iterators index).origin ≠ (bridge.iterators other).origin :=
          fun hequal => hsame (hsound.distinct index hindex other hother hequal).symm
        have hslots : ∀ found, lookup (clear bridge.openQueryStreamCleanups slot) found =
            some other ↔ lookup bridge.openQueryStreamCleanups found = some other := by
          intro found
          rw [lookup_clear]
          by_cases hfound : found = slot
          · subst hfound
            simp [hheld, Ne.symm hsame]
          · simp [hfound]
        ext : 1
        · exact hstate other hsame
        · simp [Bridge.view, finish, hsame, hslots]
        · rfl
        · exact hdropped.others other hsame
        · cases closeHost <;> simp [Bridge.view, finish, hsame, Usable, hhandle, horigin]
        · simp [Bridge.view, finish, hsame]
        · simp [Bridge.view, finish, hsame] }
  refine hsound.move hmoves ?_ (fun stream hmem => ?_) (fun _ => ?_) (fun _ => ?_)
    (fun place found hplace => ?_) hsound.waiting hsound.outstanding
    (fun task htask => hsound.tasks task (hdropped.subset task htask)) hsound.counted
  · cases closeHost with
    | false => exact hsound.orderly
    | true =>
      refine ⟨?_, hsound.orderly⟩
      rw [hhandle]
      exact husable rfl
  · cases closeHost with
    | false => exact hmem
    | true => simpa [finish] using hmem
  · exact .closed (congrArg IteratorState.done hself) hslots (.inl hdropped.none)
  · have hbefore := hsound.conserved index hindex
    unfold Conserved at hbefore ⊢
    rw [hdocuments] at hbefore
    have hnone : ((finish bridge index slot closeHost tasks).view index).reactions = [] :=
      hdropped.none
    rw [hnone]
    simpa [Bridge.view, finish] using hbefore
  · simp only [finish, lookup_clear] at hplace
    split_ifs at hplace with hsame
    have hdifferent : found ≠ index := fun hequal => by
      subst hequal
      have hcleanup := (hsound.cleanups place found hplace).2.1
      exact hsame (Option.some.inj (hcleanup.symm.trans hslot))
    rw [hstate found hdifferent]
    exact ⟨hplace, rfl, rfl⟩

/-- Giving an open stream back succeeds. -/
theorem releaseStream_eq {slot : ℕ} (hdone : (bridge.iterators index).done = false)
    (hslot : (bridge.iterators index).cleanupSlot = some slot)
    (hheld : lookup bridge.openQueryStreamCleanups slot = some index) (closeHost : Bool) :
    releaseStream bridge index closeHost =
      ({ bridge with
          iterators := update bridge.iterators index
            { bridge.iterators index with done := true, streamHandle := 0, cleanupSlot := none }
          openQueryStreamCleanups := clear bridge.openQueryStreamCleanups slot
          log :=
            if closeHost then .closed (bridge.iterators index).streamHandle :: bridge.log
            else bridge.log }, none) := by
  cases closeHost <;>
    simp [releaseStream, releaseOpenQueryStream, Bridge.setIterator, hdone, hslot, hheld]

theorem releaseStream_done (hdone : (bridge.iterators index).done = true) (closeHost : Bool) :
    releaseStream bridge index closeHost = (bridge, none) := by
  simp [releaseStream, hdone]

theorem releaseStream_idle (hdone : (bridge.iterators index).done = false)
    (hpending : (bridge.iterators index).pending = false)
    (hslot : (bridge.iterators index).cleanupSlot = some slot)
    (hheld : lookup bridge.openQueryStreamCleanups slot = some index) (closeHost : Bool) :
    releaseStream bridge index closeHost =
      (finish bridge index slot closeHost bridge.microtasks, none) := by
  rw [releaseStream_eq hdone hslot hheld, finish, ← hpending]

theorem resume_view (hdropped : Dropped bridge.microtasks tasks index) :
    (resume bridge index tasks handed).view index =
      { bridge.view index with
        state := { bridge.iterators index with pending := false, handed }
        reactions := [] } := by
  ext : 1 <;> simp [Bridge.view, resume, hdropped.none]

/-- An idle iterator gives its stream back. -/
theorem Sound.released (hsound : Sound bridge) (hindex : index < bridge.iteratorCount)
    (hpending : (bridge.iterators index).pending = false) (closeHost : Bool) :
    Sound (releaseStream bridge index closeHost).1 ∧
      (releaseStream bridge index closeHost).2 = none := by
  cases hsound.phase index hindex with
  | idle hopen _ hslots hreactions husable =>
    obtain ⟨slot, hslot, hheld⟩ := hopen.held
    rw [releaseStream_idle hopen.done hpending hslot hheld]
    refine ⟨hsound.finished hindex hopen hslots ?_ (dropped_self hreactions) hslot
      fun _ => husable, rfl⟩
    rw [hreactions]
    rfl
  | reading _ _ hbusy _ _ _ => exact absurd (hpending.symm.trans hbusy) Bool.false_ne_true
  | answered _ _ hbusy _ _ _ => exact absurd (hpending.symm.trans hbusy) Bool.false_ne_true
  | closed hclosed _ _ =>
    rw [releaseStream_done hclosed]
    exact ⟨hsound, rfl⟩

/-- The stream is given back while the promise of a read is settled. -/
theorem releaseStream_settled (hdone : (bridge.iterators index).done = false)
    (hslot : (bridge.iterators index).cleanupSlot = some slot)
    (hheld : lookup bridge.openQueryStreamCleanups slot = some index) (closeHost : Bool) :
    releaseStream (({ bridge with microtasks := tasks } : Bridge Document).setIterator index
      { bridge.iterators index with pending := false }) index closeHost =
      (finish bridge index slot closeHost tasks, none) := by
  rw [@releaseStream_eq _ _ _ slot]
  · simp [finish, Bridge.setIterator]
  · simpa [Bridge.setIterator] using hdone
  · simpa [Bridge.setIterator] using hslot
  · simpa [Bridge.setIterator] using hheld

/-- The results that hand nothing out give the stream back or leave it open. -/
theorem settleRead_eq {tasks : List (ℕ × ReadResult Document)} {result : ReadResult Document}
    (hresult : result.document? = none) :
    (∃ closeHost, settleRead { bridge with microtasks := tasks } index result =
        (releaseStream (({ bridge with microtasks := tasks } : Bridge Document).setIterator index
          { bridge.iterators index with pending := false }) index closeHost).1 ∧
        (closeHost = true → result.isLast = false)) ∨
      settleRead { bridge with microtasks := tasks } index result =
          resume bridge index tasks (bridge.iterators index).handed ∧ result.isLast = false := by
  cases result with
  | document document => cases hresult
  | finished | failed => exact .inl ⟨false, rfl, fun hclose => absurd hclose Bool.false_ne_true⟩
  | invalid =>
    cases hkind : (bridge.iterators index).kind with
    | capability =>
      refine .inr ⟨?_, rfl⟩
      simp [settleRead, hkind, resume, Bridge.setIterator]
    | sdk =>
      refine .inl ⟨true, ?_, fun _ => rfl⟩
      simp [settleRead, hkind]

variable {result : ReadResult Document}

theorem Sound.resumedWith (hsound : Sound bridge) (hdropped : Dropped bridge.microtasks tasks index)
    (hreactions : (bridge.view index).reactions = [result])
    (hphase : Phase ((resume bridge index tasks
      ((bridge.iterators index).handed ++ [result].filterMap ReadResult.document?)).view index)) :
    Sound (resume bridge index tasks
      ((bridge.iterators index).handed ++ [result].filterMap ReadResult.document?)) := by
  refine hsound.resumed hdropped (fun _ => hphase) fun hindex => ?_
  have hconserved := hsound.conserved index hindex
  rw [Conserved, hreactions] at hconserved
  rw [resume_view hdropped, Conserved]
  simpa using hconserved

theorem Sound.resumedOpen (hsound : Sound bridge) (hdropped : Dropped bridge.microtasks tasks index)
    (hopen : (bridge.view index).IsOpen) (hslots : (bridge.view index).slots = ∅)
    (hreactions : (bridge.view index).reactions = [result]) (husable : (bridge.view index).usable) :
    Sound (resume bridge index tasks
      ((bridge.iterators index).handed ++ [result].filterMap ReadResult.document?)) := by
  apply hsound.resumedWith hdropped hreactions
  rw [resume_view hdropped]
  exact .idle ⟨hopen.done, hopen.handle, hopen.held⟩ rfl hslots rfl husable

/-- A microtask settles the promise of a read. -/
theorem Sound.readSettled (hsound : Sound bridge)
    (hplace : bridge.microtasks[place]? = some (index, result)) :
    Sound (settleRead { bridge with microtasks := bridge.microtasks.eraseIdx place }
      index result) := by
  have hmem := List.mem_of_getElem? hplace
  have hindex : index < bridge.iteratorCount := hsound.tasks _ hmem
  have hreaction : result ∈ (bridge.view index).reactions :=
    List.mem_map.mpr ⟨_, List.mem_filter.mpr ⟨hmem, by simp⟩, rfl⟩
  cases hsound.phase index hindex with
  | idle _ _ _ hreactions _ =>
    rw [hreactions] at hreaction
    cases hreaction
  | reading _ _ _ _ hreactions _ =>
    rw [hreactions] at hreaction
    cases hreaction
  | answered found hopen hpending hslots hreactions husable =>
    obtain ⟨rfl, hdropped⟩ := dropped_eraseIdx hplace hreactions
    obtain ⟨slot, hslot, hheld⟩ := hopen.held
    cases hdocument : found.document? with
    | some document =>
      have hfound : found = .document document := by
        cases found <;> simp_all [ReadResult.document?]
      subst hfound
      exact hsound.resumedOpen hdropped hopen hslots hreactions (husable rfl)
    | none =>
      obtain ⟨closeHost, hsettled, hclose⟩ | ⟨hsettled, hlast⟩ :=
        @settleRead_eq _ bridge index (bridge.microtasks.eraseIdx place) found hdocument
      · rw [hsettled, releaseStream_settled hopen.done hslot hheld]
        refine hsound.finished hindex hopen hslots ?_ hdropped hslot
          fun hclosed => husable (hclose hclosed)
        rw [hreactions, List.filterMap_cons_none hdocument]
        rfl
      · rw [hsettled]
        have hresumed := hsound.resumedOpen hdropped hopen hslots hreactions (husable hlast)
        rwa [List.filterMap_cons_none hdocument, List.filterMap_nil, List.append_nil] at hresumed
  | closed hdone hslots hreactions =>
    obtain hnone | ⟨-, found, hfound⟩ := hreactions
    · rw [hnone] at hreaction
      cases hreaction
    · obtain ⟨rfl, hdropped⟩ := dropped_eraseIdx hplace hfound
      have hresumed := hsound.resumedWith hdropped hfound <| by
        rw [resume_view hdropped]
        exact .closed hdone hslots (.inl rfl)
      cases hdocument : found.document? with
      | some document =>
        have hsame : found = .document document := by
          cases found <;> simp_all [ReadResult.document?]
        subst hsame
        exact hresumed
      | none =>
        rw [List.filterMap_cons_none hdocument, List.filterMap_nil, List.append_nil] at hresumed
        obtain ⟨closeHost, hsettled, -⟩ | ⟨hsettled, -⟩ :=
          @settleRead_eq _ bridge index (bridge.microtasks.eraseIdx place) found hdocument
        · rw [hsettled, releaseStream_done (by simpa [Bridge.setIterator] using hdone)]
          exact hresumed
        · rw [hsettled]
          exact hresumed

end Settlements

end ConvexWasm.Guest
