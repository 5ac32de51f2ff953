import ConvexWasm.LaunchScheduler.Invariant

/-!
# Who goes first

Entries are started in the order of their arrival but for those that pass a head
which has to wait.  Nobody waits for ever at rest, and the first failure closes the
queue.
-/

namespace ConvexWasm.LaunchScheduler

open List TransitionSystem

variable {policy : LaunchPolicy} {Failure : Type}

section Order

/-- The worker slots of the operations that were started past a waiting head. -/
def overtaken (started : List (Start policy)) (head : ℕ) : ℕ :=
  ((started.filter fun start => start.head = head ∧ start.entry.id ≠ head).map
    (·.entry.workerSlots)).sum

variable {started : List (Start policy)} {start : Start policy} {head : ℕ}

theorem overtaken_eq_zero (hhead : ∀ start ∈ started, start.head ≠ head) :
    overtaken started head = 0 := by
  have hnone : started.filter (fun start => start.head = head ∧ start.entry.id ≠ head) = [] :=
    filter_eq_nil_iff.mpr fun start hmem hpass =>
      hhead start hmem (of_decide_eq_true hpass).1
  rw [overtaken, hnone]
  rfl

theorem overtaken_append :
    overtaken (started ++ [start]) head =
      overtaken started head +
        if start.head = head ∧ start.entry.id ≠ head then start.entry.workerSlots else 0 := by
  by_cases hpass : start.head = head ∧ start.entry.id ≠ head
  · simp [overtaken, hpass]
  · simp [overtaken, hpass]

/-- The queue is in the order of arrival, and what went past its head is known. -/
structure Scheduler.Ordered (scheduler : Scheduler policy Failure)
    (started : List (Start policy)) : Prop where
  sorted : scheduler.queue.Pairwise fun earlier later => earlier.id < later.id
  queue_lt : ∀ entry ∈ scheduler.queue, entry.id < scheduler.requestCount
  started_lt : ∀ start ∈ started,
    start.entry.id < scheduler.requestCount ∧ start.head < scheduler.requestCount
  backfilledHead_lt : ∀ head, scheduler.backfilledHead = some head →
    head < scheduler.requestCount
  allowance : ∀ head, overtaken started head ≤ policy.jobs - 1
  head : ∀ head later, scheduler.queue = head :: later →
    overtaken started head.id = scheduler.backfilled head.id
  later : ∀ head later, scheduler.queue = head :: later → ∀ entry ∈ later,
    overtaken started entry.id = 0 ∧ scheduler.backfilledHead ≠ some entry.id
  passes : ∀ start ∈ started, start.entry.id ≠ start.head →
    start.headBlocked = true ∧ start.head < start.entry.id
  waiting : ∀ start ∈ started, ∀ entry ∈ scheduler.queue, entry.id < start.entry.id →
    start.head ≤ entry.id ∧ start.entry.id ≠ start.head
  order : started.Pairwise fun earlier later => later.entry.id < earlier.entry.id →
    earlier.head ≤ later.entry.id ∧ earlier.entry.id ≠ earlier.head

variable {scheduler scheduler' : Scheduler policy Failure} {entry : Entry policy}
  {later : List (Entry policy)}

variable (hordered : scheduler.Ordered started)
include hordered

/-- Only the queue, the number of requests and the allowance matter. -/
theorem Scheduler.Ordered.of_eq (hqueue : scheduler'.queue = scheduler.queue)
    (hcount : scheduler'.requestCount = scheduler.requestCount)
    (hhead : scheduler'.backfilledHead = scheduler.backfilledHead)
    (hslots : scheduler'.backfilledWorkerSlots = scheduler.backfilledWorkerSlots) :
    scheduler'.Ordered started := by
  have hbackfilled : scheduler'.backfilled = scheduler.backfilled := by
    funext head
    simp only [Scheduler.backfilled, hhead, hslots]
  exact
    { hordered with
      sorted := hqueue ▸ hordered.sorted
      queue_lt := by rw [hqueue, hcount]; exact hordered.queue_lt
      started_lt := by rw [hcount]; exact hordered.started_lt
      backfilledHead_lt := by rw [hhead, hcount]; exact hordered.backfilledHead_lt
      head := by rw [hqueue, hbackfilled]; exact hordered.head
      later := by rw [hqueue, hhead]; exact hordered.later
      waiting := by rw [hqueue]; exact hordered.waiting
      order := hordered.order }

theorem Scheduler.Ordered.enqueue (hid : entry.id = scheduler.requestCount) :
    (scheduler.enqueue entry).Ordered started := by
  have hqueue : (scheduler.enqueue entry).queue = scheduler.queue ++ [entry] := rfl
  have hcount : (scheduler.enqueue entry).requestCount = scheduler.requestCount + 1 := rfl
  have hnew : overtaken started entry.id = 0 := overtaken_eq_zero fun start hstart => by
    have hlt := (hordered.started_lt start hstart).2
    omega
  have hbackfilled : scheduler.backfilledHead ≠ some entry.id := fun hhead => by
    have hlt := hordered.backfilledHead_lt _ hhead
    omega
  exact
    { hordered with
      sorted := by
        rw [hqueue, pairwise_append]
        refine ⟨hordered.sorted, pairwise_singleton _ _, fun earlier hearlier last hlast => ?_⟩
        rw [mem_singleton.mp hlast, hid]
        exact hordered.queue_lt earlier hearlier
      queue_lt := fun other hother => by
        rcases mem_append.mp hother with hold | hlast
        · exact Nat.lt_succ_of_lt (hordered.queue_lt other hold)
        · rw [mem_singleton.mp hlast, hid]
          exact Nat.lt_succ_self _
      started_lt := fun start hstart => by
        obtain ⟨hentry, hhead⟩ := hordered.started_lt start hstart
        exact ⟨Nat.lt_succ_of_lt hentry, Nat.lt_succ_of_lt hhead⟩
      backfilledHead_lt := fun head hhead =>
        Nat.lt_succ_of_lt (hordered.backfilledHead_lt head hhead)
      head := fun head rest hsplit => by
        rw [hqueue] at hsplit
        cases hold : scheduler.queue with
        | nil =>
          rw [hold] at hsplit
          obtain ⟨rfl, _⟩ := List.cons.inj hsplit
          exact hnew.trans (if_neg hbackfilled).symm
        | cons first others =>
          rw [hold] at hsplit
          obtain ⟨rfl, _⟩ := List.cons.inj hsplit
          exact hordered.head first others hold
      later := fun head rest hsplit other hother => by
        rw [hqueue] at hsplit
        cases hold : scheduler.queue with
        | nil =>
          rw [hold] at hsplit
          obtain ⟨_, rfl⟩ := List.cons.inj hsplit
          exact absurd hother not_mem_nil
        | cons first others =>
          rw [hold] at hsplit
          obtain ⟨_, rfl⟩ := List.cons.inj hsplit
          rcases mem_append.mp hother with hmem | hlast
          · exact hordered.later first others hold other hmem
          · rw [mem_singleton.mp hlast]
            exact ⟨hnew, hbackfilled⟩
      waiting := fun start hstart other hother hlt => by
        rcases mem_append.mp hother with hold | hlast
        · exact hordered.waiting start hstart other hold hlt
        · have hbound := (hordered.started_lt start hstart).1
          rw [mem_singleton.mp hlast] at hlt
          omega
      order := hordered.order }

theorem Scheduler.Ordered.block {head : Entry policy} (hqueue : scheduler.queue = head :: later) :
    { scheduler with
      backfilledHead := some head.id
      backfilledWorkerSlots := scheduler.backfilled head.id
      : Scheduler policy Failure }.Ordered started := { hordered with
  backfilledHead_lt := fun first hfirst =>
    Option.some.inj hfirst ▸ hordered.queue_lt head (hqueue ▸ mem_cons_self)
  head := fun first rest hsplit => by
    obtain ⟨rfl, rfl⟩ := List.cons.inj (hqueue.symm.trans hsplit)
    exact (hordered.head head later hqueue).trans (if_pos rfl).symm
  later := fun first rest hsplit entry hentry => by
    obtain ⟨rfl, rfl⟩ := List.cons.inj (hqueue.symm.trans hsplit)
    have hlt := (pairwise_cons.mp (hqueue ▸ hordered.sorted)).1 entry hentry
    exact ⟨(hordered.later head later hqueue entry hentry).1, fun heq =>
      hlt.ne (Option.some.inj heq)⟩ }

theorem Scheduler.Ordered.dropQueue : scheduler.dropQueue.Ordered started := by
  rw [Scheduler.dropQueue_eq]
  exact
    { hordered with
      sorted := List.Pairwise.nil
      queue_lt := fun _ hmem => absurd hmem not_mem_nil
      head := fun _ _ hsplit => by cases hsplit
      later := fun _ _ hsplit => by cases hsplit
      waiting := fun _ _ _ hmem => absurd hmem not_mem_nil }

/-- What a start needs for the order to go on: it was waiting, and what it passes
by is known. -/
theorem Scheduler.Ordered.order_append (hmem : start.entry ∈ scheduler.queue) :
    (started ++ [start]).Pairwise fun earlier later => later.entry.id < earlier.entry.id →
      earlier.head ≤ later.entry.id ∧ earlier.entry.id ≠ earlier.head := by
  rw [pairwise_append]
  refine ⟨hordered.order, pairwise_singleton _ _, fun earlier hearlier last hlast => ?_⟩
  rw [mem_singleton.mp hlast]
  exact hordered.waiting earlier hearlier start.entry hmem

theorem Scheduler.Ordered.dequeueHead {head : Entry policy}
    (hqueue : scheduler.queue = head :: later) :
    Scheduler.Ordered
      (if scheduler.backfilledHead = some head.id then
        { scheduler with queue := later, backfilledHead := none, backfilledWorkerSlots := 0 }
      else { scheduler with queue := later })
      (started ++ [{ entry := head, head := head.id, headBlocked := false }]) := by
  have hsorted := pairwise_cons.mp (hqueue ▸ hordered.sorted)
  have hlater : ∀ entry ∈ later, entry ∈ scheduler.queue := fun entry hentry =>
    hqueue ▸ mem_cons_of_mem head hentry
  have hhead := hordered.queue_lt head (hqueue ▸ mem_cons_self)
  have hkept : ∀ other,
      overtaken (started ++ [{ entry := head, head := head.id, headBlocked := false }]) other =
        overtaken started other := fun other => by
    rw [overtaken_append, if_neg fun hpass => hpass.2 hpass.1, add_zero]
  have hnext : { scheduler with queue := later : Scheduler policy Failure }.Ordered
      (started ++ [{ entry := head, head := head.id, headBlocked := false }]) :=
    { sorted := hsorted.2
      queue_lt := fun entry hentry => hordered.queue_lt entry (hlater entry hentry)
      started_lt := fun start hstart => by
        rcases mem_append.mp hstart with hold | hlast
        · exact hordered.started_lt start hold
        · rw [mem_singleton.mp hlast]
          exact ⟨hhead, hhead⟩
      backfilledHead_lt := hordered.backfilledHead_lt
      allowance := fun other => hkept other ▸ hordered.allowance other
      head := fun first rest hsplit => by
        have hfirst : first ∈ later := by
          rw [show later = first :: rest from hsplit]
          exact mem_cons_self
        obtain ⟨hzero, hother⟩ := hordered.later head later hqueue first hfirst
        exact ((hkept _).trans hzero).trans (if_neg hother).symm
      later := fun first rest hsplit entry hentry => by
        have hmem : entry ∈ later := by
          rw [show later = first :: rest from hsplit]
          exact mem_cons_of_mem first hentry
        rw [hkept]
        exact hordered.later head later hqueue entry hmem
      passes := fun start hstart hpass => by
        rcases mem_append.mp hstart with hold | hlast
        · exact hordered.passes start hold hpass
        · rw [mem_singleton.mp hlast] at hpass
          exact absurd rfl hpass
      waiting := fun start hstart entry hentry hlt => by
        rcases mem_append.mp hstart with hold | hlast
        · exact hordered.waiting start hold entry (hlater entry hentry) hlt
        · rw [mem_singleton.mp hlast] at hlt
          exact absurd hlt (hsorted.1 entry hentry).asymm
      order := hordered.order_append (hqueue ▸ mem_cons_self) }
  by_cases hreset : scheduler.backfilledHead = some head.id
  · rw [if_pos hreset]
    exact
      { hnext with
        backfilledHead_lt := fun _ hnone => by cases hnone
        head := fun first rest hsplit => by
          have hfirst : first ∈ later := by
            rw [show later = first :: rest from hsplit]
            exact mem_cons_self
          exact (hkept _).trans (hordered.later head later hqueue first hfirst).1
        later := fun first rest hsplit entry hentry =>
          ⟨(hnext.later first rest hsplit entry hentry).1, fun hnone => by cases hnone⟩ }
  · rw [if_neg hreset]
    exact hnext

theorem Scheduler.Ordered.dequeueLater {head entry : Entry policy}
    {before after : List (Entry policy)}
    (hqueue : scheduler.queue = head :: (before ++ entry :: after))
    (hslots : (entry.workerSlots : ℤ) ≤ policy.jobs - 1 - scheduler.backfilled head.id) :
    { scheduler with
      queue := head :: (before ++ after)
      backfilledHead := some head.id
      backfilledWorkerSlots := scheduler.backfilled head.id + entry.workerSlots
      : Scheduler policy Failure }.Ordered
      (started ++ [{ entry, head := head.id, headBlocked := true }]) := by
  have hsorted := pairwise_cons.mp (hqueue ▸ hordered.sorted)
  have hsublist : (before ++ after).Sublist (before ++ entry :: after) :=
    (List.Sublist.refl _).append (sublist_cons_self _ _)
  have hmem : entry ∈ before ++ entry :: after :=
    mem_append_right before mem_cons_self
  have hlt := hsorted.1 entry hmem
  have hspent := hordered.head head _ hqueue
  have hovertaken : ∀ other,
      overtaken (started ++ [{ entry, head := head.id, headBlocked := true }]) other =
        overtaken started other + if head.id = other then entry.workerSlots else 0 := by
    intro other
    rw [overtaken_append]
    by_cases hother : head.id = other
    · rw [if_pos ⟨hother, hother ▸ hlt.ne'⟩, if_pos hother]
    · rw [if_neg fun hpass => hother hpass.1, if_neg hother]
  have hqueueMem : ∀ other ∈ head :: (before ++ after), other ∈ scheduler.queue := by
    intro other hother
    rw [hqueue]
    exact (hsublist.cons_cons head).subset hother
  exact
    { sorted := (hqueue ▸ hordered.sorted).sublist (hsublist.cons_cons head)
      queue_lt := fun other hother => hordered.queue_lt other (hqueueMem other hother)
      started_lt := fun start hstart => by
        rcases mem_append.mp hstart with hold | hlast
        · exact hordered.started_lt start hold
        · rw [mem_singleton.mp hlast]
          exact ⟨hordered.queue_lt entry (hqueue ▸ mem_cons_of_mem head hmem),
            hordered.queue_lt head (hqueue ▸ mem_cons_self)⟩
      backfilledHead_lt := fun first hfirst =>
        Option.some.inj hfirst ▸ hordered.queue_lt head (hqueue ▸ mem_cons_self)
      allowance := fun other => by
        rw [hovertaken]
        by_cases hother : head.id = other
        · rw [if_pos hother, ← hother, hspent]
          omega
        · rw [if_neg hother]
          exact hordered.allowance other
      head := fun first rest hsplit => by
        obtain ⟨rfl, _⟩ := List.cons.inj hsplit
        rw [hovertaken, if_pos rfl, hspent]
        exact (if_pos rfl).symm
      later := fun first rest hsplit other hother => by
        obtain ⟨rfl, rfl⟩ := List.cons.inj hsplit
        have hold := hsublist.subset hother
        have hne := (hsorted.1 other hold).ne
        rw [hovertaken, if_neg hne]
        exact ⟨(hordered.later head _ hqueue other hold).1, fun heq => hne (Option.some.inj heq)⟩
      passes := fun start hstart hpass => by
        rcases mem_append.mp hstart with hold | hlast
        · exact hordered.passes start hold hpass
        · rw [mem_singleton.mp hlast]
          exact ⟨rfl, hlt⟩
      waiting := fun start hstart other hother hless => by
        rcases mem_append.mp hstart with hold | hlast
        · exact hordered.waiting start hold other (hqueueMem other hother) hless
        · rw [mem_singleton.mp hlast]
          refine ⟨?_, hlt.ne'⟩
          rcases mem_cons.mp hother with rfl | hbehind
          · exact le_rfl
          · exact (hsorted.1 other (hsublist.subset hbehind)).le
      order := hordered.order_append (hqueue ▸ mem_cons_of_mem head hmem) }

theorem Scheduler.Ordered.dequeue {left : Scheduler policy Failure} {head : Entry policy}
    (hqueue : scheduler.queue = head :: later) (hdequeues : scheduler.Dequeues entry left) :
    left.Ordered (started ++
      [{ entry, head := head.id, headBlocked := !scheduler.canAdmit head }]) := by
  cases hdequeues with
  | head hfirst hfree =>
    obtain ⟨rfl, rfl⟩ := List.cons.inj (hqueue.symm.trans hfirst)
    rw [hfree]
    exact hordered.dequeueHead hqueue
  | backfill hfirst hblocked _ hslots =>
    obtain ⟨rfl, rfl⟩ := List.cons.inj (hqueue.symm.trans hfirst)
    rw [hblocked]
    exact hordered.dequeueLater hqueue hslots

end Order

section Machines

variable {machine machine' : Machine policy Failure}

theorem Step.ordered (hordered : machine.scheduler.Ordered machine.started)
    (hstep : Step machine machine') : machine'.scheduler.Ordered machine'.started := by
  cases hstep.changes with
  | same hscheduler _ _ hstarted =>
    rw [hscheduler, hstarted]
    exact hordered
  | blocked hqueue _ hscheduler _ _ hstarted =>
    rw [hscheduler, hstarted]
    exact hordered.block hqueue
  | enqueue hid _ hscheduler _ _ hstarted =>
    rw [hscheduler, hstarted]
    exact hordered.enqueue hid
  | start _ hqueue hdequeues hscheduler _ _ hstarted =>
    rw [hscheduler, hstarted]
    exact (hordered.dequeue hqueue hdequeues).of_eq rfl rfl rfl rfl
  | complete _ hscheduler _ hstarted =>
    rw [hscheduler, hstarted]
    exact hordered.of_eq rfl rfl rfl rfl
  | fail _ hscheduler _ hstarted =>
    rw [hscheduler, hstarted]
    exact hordered.of_eq rfl rfl rfl rfl
  | drop _ hscheduler _ _ hstarted =>
    rw [hscheduler, hstarted]
    exact hordered.dropQueue

/-- An operation is started by a loop that goes on after it. -/
def Linked : List (Frame policy) → Prop
  | [] => True
  | .operation _ :: rest => (∃ below, rest = .loop :: below) ∧ Linked rest
  | _ :: rest => Linked rest

/-- At rest the head of the queue is too large for what is free, and after a failure
the queue is empty or about to be emptied. -/
structure Machine.Awake (machine : Machine policy Failure) : Prop where
  linked : Linked machine.stack
  blocked : machine.stack = [] → ∀ head later, machine.scheduler.queue = head :: later →
    machine.scheduler.canAdmit head = false
  closed : ∀ error, machine.scheduler.schedulingFailure = some error →
    machine.scheduler.queue = [] ∨ ∃ rest, machine.stack = .enter :: rest

/-- A call of `drain` is about to look at everything. -/
theorem Machine.Awake.of_enter {rest : List (Frame policy)} (hstack : machine.stack = .enter :: rest)
    (hlinked : Linked rest) : machine.Awake where
  linked := by
    rw [hstack]
    exact hlinked
  blocked := fun hempty => by
    rw [hstack] at hempty
    cases hempty
  closed := fun _ _ => .inr ⟨rest, hstack⟩

section

variable (hawake : machine.Awake)
include hawake

theorem Machine.Awake.run (request : Request) : (machine.run request).Awake := by
  rw [Machine.run]
  split
  · exact hawake
  · split
    · exact hawake
    · exact .of_enter rfl hawake.linked

theorem Machine.Awake.enter {rest : List (Frame policy)} (hstack : machine.stack = .enter :: rest) :
    machine.drain.Awake := by
  have hlinked : Linked rest := by
    have hall := hawake.linked
    rwa [hstack] at hall
  rw [Machine.drain, hstack]
  dsimp only
  split
  · have hqueue : machine.scheduler.dropQueue.queue = [] := by
      rw [Scheduler.dropQueue_eq]
    exact
      { linked := hlinked
        blocked := fun _ head later hsplit => by
          rw [hqueue] at hsplit
          cases hsplit
        closed := fun _ _ => .inl hqueue }
  case h_2 hnone =>
    exact
      { linked := hlinked
        blocked := fun hempty => by cases hempty
        closed := fun error herror => by
          rw [hnone] at herror
          cases herror }

theorem Machine.Awake.loop {rest : List (Frame policy)} (hstack : machine.stack = .loop :: rest) :
    machine.drain.Awake := by
  have hlinked : Linked rest := by
    have hall := hawake.linked
    rwa [hstack] at hall
  -- a loop does not find the queue of a closed scheduler nonempty
  have hopen : ∀ head later, machine.scheduler.queue = head :: later →
      machine.scheduler.schedulingFailure = none := by
    intro head later hqueue
    cases hfailure : machine.scheduler.schedulingFailure with
    | none => rfl
    | some error =>
      rcases hawake.closed error hfailure with hempty | ⟨below, henter⟩
      · rw [hqueue] at hempty
        cases hempty
      · rw [hstack] at henter
        cases henter
  rw [Machine.drain, hstack]
  dsimp only
  split
  case h_1 hqueue =>
    exact
      { linked := hlinked
        blocked := fun _ head later hsplit => by
          rw [show machine.scheduler.queue = head :: later from hsplit] at hqueue
          cases hqueue
        closed := fun _ _ => .inl hqueue }
  case h_2 head later hqueue =>
    have hnone := hopen head later hqueue
    split
    case h_1 left hdequeue =>
      obtain ⟨hblocked, rfl⟩ := dequeue_none hqueue hdequeue
      exact
        { linked := hlinked
          blocked := fun _ first others hsplit => by
            obtain ⟨rfl, _⟩ := List.cons.inj (hqueue.symm.trans hsplit)
            exact hblocked
          closed := fun error herror => by
            rw [show machine.scheduler.schedulingFailure = some error from herror] at hnone
            cases hnone }
    case h_2 entry left hdequeue =>
      have hleft := (dequeues_of_some hdequeue).eq
      exact
        { linked := ⟨⟨rest, rfl⟩, hlinked⟩
          blocked := fun hempty => by cases hempty
          closed := fun error herror => by
            rw [hleft] at herror
            rw [show machine.scheduler.schedulingFailure = some error from herror] at hnone
            cases hnone }

theorem Machine.Awake.step (hstep : Step machine machine') : machine'.Awake := by
  have hlinked := hawake.linked
  cases hstep with
  | call request _ => exact hawake.run request
  | nestedCall request _ => exact hawake.run request
  | enter hstack => exact hawake.enter hstack
  | loop hstack => exact hawake.loop hstack
  | wait hstack =>
    rw [hstack] at hlinked
    obtain ⟨⟨below, rfl⟩, hrest⟩ := hlinked
    exact
      { linked := hrest
        blocked := fun hempty => by cases hempty
        closed := fun error herror => by
          rcases hawake.closed error herror with hempty | ⟨rest, henter⟩
          · exact .inl hempty
          · rw [hstack] at henter
            cases henter }
  | throw error hstack =>
    rw [hstack] at hlinked
    exact .of_enter rfl hlinked.2
  | resolve hstack _ => exact .of_enter rfl (hstack ▸ hlinked)
  | reject error hstack _ => exact .of_enter rfl (hstack ▸ hlinked)

end

/-- The first failure of an operation that closes the admission. -/
def firstFailure (settled : List (Entry policy × Outcome Failure)) : Option Failure :=
  settled.findSome? fun
    | (entry, .failed error) => if entry.failureClosesAdmission then some error else none
    | _ => none

/-- The failure that is kept is the first, and it is what the dropped requests are
rejected with. -/
structure Machine.Closing (machine : Machine policy Failure) : Prop where
  first : machine.scheduler.schedulingFailure = firstFailure machine.settled
  dropped : ∀ entry error, (entry, Outcome.dropped error) ∈ machine.settled →
    machine.scheduler.schedulingFailure = some error

theorem firstFailure_dropped (error : Failure) (entries : List (Entry policy)) :
    firstFailure (entries.map fun entry => (entry, Outcome.dropped error)) = none := by
  rw [firstFailure, List.findSome?_eq_none_iff]
  intro settled hmem
  obtain ⟨entry, _, rfl⟩ := mem_map.mp hmem
  rfl

theorem firstFailure_append (before after : List (Entry policy × Outcome Failure)) :
    firstFailure (before ++ after) = (firstFailure before).or (firstFailure after) := by
  simp [firstFailure]

theorem Machine.Closing.step (hclosing : machine.Closing) (hstep : Step machine machine') :
    machine'.Closing := by
  have hfirst := hclosing.first
  cases hstep.changes with
  | same hscheduler _ hsettled _ => exact ⟨by rw [hscheduler, hsettled, hfirst], by
      rw [hscheduler, hsettled]; exact hclosing.dropped⟩
  | blocked _ _ hscheduler _ hsettled _ =>
    rw [← hsettled] at hfirst
    exact ⟨by rw [hscheduler]; exact hfirst, by
      rw [hscheduler, hsettled]; exact hclosing.dropped⟩
  | enqueue _ _ hscheduler _ hsettled _ =>
    rw [← hsettled] at hfirst
    exact ⟨by rw [hscheduler]; exact hfirst, by
      rw [hscheduler, hsettled]; exact hclosing.dropped⟩
  | start _ _ hdequeues hscheduler _ hsettled _ =>
    rw [← hsettled] at hfirst
    rw [hdequeues.eq] at hscheduler
    exact ⟨by rw [hscheduler]; exact hfirst, by
      rw [hscheduler, hsettled]; exact hclosing.dropped⟩
  | @complete entry _ hscheduler hsettled _ =>
    refine ⟨?_, fun other error hmem => ?_⟩
    · rw [hscheduler, hsettled, firstFailure_append, ← hfirst]
      exact (Option.or_none).symm
    · rw [hsettled] at hmem
      rw [hscheduler]
      exact hclosing.dropped other error (by simpa using hmem)
  | @fail entry error _ hscheduler hsettled _ =>
    refine ⟨?_, fun other dropped hmem => ?_⟩
    · rw [hscheduler, hsettled, firstFailure_append, ← hfirst]
      simp only [Scheduler.release, Scheduler.recordFailure, Scheduler.updateStats, firstFailure,
        List.findSome?_cons, List.findSome?_nil]
      cases machine.scheduler.schedulingFailure <;> cases entry.failureClosesAdmission <;> rfl
    · rw [hsettled] at hmem
      have hold := hclosing.dropped other dropped (by simpa using hmem)
      rw [hscheduler]
      simp [Scheduler.release, Scheduler.recordFailure, Scheduler.updateStats, hold]
  | @drop error hfailure hscheduler _ hsettled _ =>
    have hkept : machine'.scheduler.schedulingFailure = machine.scheduler.schedulingFailure := by
      rw [hscheduler, Scheduler.dropQueue_eq]
    refine ⟨?_, fun other dropped hmem => ?_⟩
    · rw [hkept, hsettled, firstFailure_append, firstFailure_dropped, Option.or_none, hfirst]
    · rw [hkept]
      rw [hsettled] at hmem
      rcases mem_append.mp hmem with hold | hnew
      · exact hclosing.dropped other dropped hold
      · obtain ⟨_, _, heq⟩ := mem_map.mp hnew
        cases heq
        exact hfailure

/-- Once the admission is closed nothing is started and the failure stays. -/
theorem Step.closed {error : Failure} (hawake : machine.Awake) (hstep : Step machine machine')
    (hfailure : machine.scheduler.schedulingFailure = some error) :
    machine'.scheduler.schedulingFailure = some error ∧ machine'.started = machine.started ∧
      machine'.scheduler.requestCount = machine.scheduler.requestCount := by
  cases hstep.changes with
  | same hscheduler _ _ hstarted => exact ⟨hscheduler ▸ hfailure, hstarted, by rw [hscheduler]⟩
  | blocked _ _ hscheduler _ _ hstarted =>
    exact ⟨hscheduler ▸ hfailure, hstarted, by rw [hscheduler]⟩
  | enqueue _ hnone _ _ _ _ =>
    rw [hfailure] at hnone
    cases hnone
  | start hstack hqueue _ _ _ _ _ =>
    rcases hawake.closed error hfailure with hempty | ⟨rest, henter⟩
    · rw [hqueue] at hempty
      cases hempty
    · rw [hstack] at henter
      cases henter
  | complete _ hscheduler _ hstarted =>
    exact ⟨hscheduler ▸ hfailure, hstarted, by rw [hscheduler]; rfl⟩
  | fail _ hscheduler _ hstarted =>
    refine ⟨?_, hstarted, by rw [hscheduler]; rfl⟩
    rw [hscheduler]
    simp [Scheduler.release, Scheduler.recordFailure, Scheduler.updateStats, hfailure]
  | drop _ hscheduler _ _ hstarted =>
    rw [Scheduler.dropQueue_eq] at hscheduler
    exact ⟨hscheduler ▸ hfailure, hstarted, by rw [hscheduler]⟩

end Machines

end ConvexWasm.LaunchScheduler
