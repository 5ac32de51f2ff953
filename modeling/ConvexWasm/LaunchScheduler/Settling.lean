import ConvexWasm.LaunchScheduler.Guarantees

/-!
# The launch scheduler comes to rest

A step that accepts no request uses up something that only requests bring in, so
that the scheduler settles what it has accepted.
-/

namespace ConvexWasm.LaunchScheduler

open List TransitionSystem

variable {policy : LaunchPolicy} {Failure : Type} {machine machine' : Machine policy Failure}

def Frame.rank : Frame policy → ℕ
  | .enter => 2
  | .loop => 1
  | .operation _ => 4

/-- A bound on the steps to come: an entry of the queue leads to an operation, an operation
that is waited for to a call of `drain`. -/
def Machine.rank (machine : Machine policy Failure) : ℕ :=
  5 * machine.scheduler.queue.length + 3 * machine.pending.length +
    (machine.stack.map Frame.rank).sum

/-- A step other than a call of `run`, whose request is accepted or changes nothing. -/
def Settles (machine machine' : Machine policy Failure) : Prop :=
  Step machine machine' ∧ machine'.scheduler.requestCount = machine.scheduler.requestCount ∧
    machine' ≠ machine

theorem Machine.run_eq {request : Request} (hcount :
    (machine.run request).scheduler.requestCount = machine.scheduler.requestCount) :
    machine.run request = machine := by
  revert hcount
  rw [Machine.run]
  split
  · exact fun _ => rfl
  · split
    · exact fun _ => rfl
    · exact fun hcount => absurd hcount (Nat.succ_ne_self _)

theorem Machine.drain_rank {frame : Frame policy} {rest : List (Frame policy)}
    (hstack : machine.stack = frame :: rest) (hframe : frame = .enter ∨ frame = .loop) :
    machine.drain.rank < machine.rank ∧
      machine.drain.scheduler.requestCount = machine.scheduler.requestCount := by
  rw [Machine.drain, hstack]
  rcases hframe with rfl | rfl
  · dsimp only
    split
    · rw [Scheduler.dropQueue_eq]
      simp [Machine.rank, hstack, Frame.rank]
      omega
    · simp [Machine.rank, hstack, Frame.rank]
  · dsimp only
    split
    · simp [Machine.rank, hstack, Frame.rank]
    case h_2 head later hqueue =>
      split
      case h_1 left hdequeue =>
        obtain ⟨-, rfl⟩ := dequeue_none hqueue hdequeue
        simp [Machine.rank, hstack, Frame.rank]
      case h_2 entry left hdequeue =>
        have hdequeues := dequeues_of_some hdequeue
        have hlength := hdequeues.perm.length_eq
        refine ⟨?_, (congrArg Scheduler.requestCount hdequeues.eq :)⟩
        simp only [Machine.rank, hstack, Frame.rank, Scheduler.activate, Scheduler.updateStats,
          map_cons, sum_cons, hlength, length_cons]
        omega

theorem Settles.rank_lt (hsettles : Settles machine machine') : machine'.rank < machine.rank := by
  obtain ⟨hstep, hcount, hne⟩ := hsettles
  cases hstep with
  | call request _ => exact absurd (Machine.run_eq hcount) hne
  | nestedCall request _ => exact absurd (Machine.run_eq hcount) hne
  | enter hstack => exact (Machine.drain_rank hstack (.inl rfl)).1
  | loop hstack => exact (Machine.drain_rank hstack (.inr rfl)).1
  | wait hstack =>
    simp [Machine.rank, hstack, Frame.rank]
    omega
  | throw error hstack =>
    simp [Machine.rank, Machine.fail, Scheduler.recordFailure, Scheduler.release,
      Scheduler.updateStats, hstack, Frame.rank]
  | resolve hstack hpending =>
    simp [Machine.rank, Machine.complete, Scheduler.complete, Scheduler.release,
      Scheduler.updateStats, hstack, hpending, Frame.rank]
    omega
  | reject error hstack hpending =>
    simp [Machine.rank, Machine.fail, Scheduler.recordFailure, Scheduler.release,
      Scheduler.updateStats, hstack, hpending, Frame.rank]
    omega

/-- What is in progress or waited for goes on. -/
theorem active_eq_nil_of_stuck (hstuck : ∀ machine', ¬ Settles machine machine') :
    machine.stack = [] ∧ machine.active = [] := by
  have hdrain : ∀ {frame rest}, machine.stack = frame :: rest → Step machine machine.drain →
      ¬ (frame = .enter ∨ frame = .loop) := by
    intro frame rest hstack hstep hframe
    obtain ⟨hrank, hcount⟩ := Machine.drain_rank hstack hframe
    exact hstuck _ ⟨hstep, hcount, fun heq => by simp [heq] at hrank⟩
  cases hstack : machine.stack with
  | cons frame rest =>
    cases frame with
    | enter => exact absurd (.inl rfl) (hdrain hstack (.enter hstack))
    | loop => exact absurd (.inr rfl) (hdrain hstack (.loop hstack))
    | operation entry =>
      refine absurd ⟨.wait hstack, rfl, fun heq => ?_⟩ (hstuck _)
      simpa [hstack] using congrArg Machine.stack heq
  | nil =>
    refine ⟨rfl, ?_⟩
    cases hpending : machine.pending with
    | nil => simp [Machine.active, hstack, hpending]
    | cons entry rest =>
      refine absurd ⟨.resolve hstack (hpending.trans (nil_append _).symm), rfl, fun heq => ?_⟩ (hstuck _)
      simpa [Machine.complete, hstack] using congrArg Machine.stack heq

/-- When no more requests are accepted every order of steps comes to an end, and it
does not end before every accepted request is settled once. -/
theorem launch_scheduler_settles (hreachable : Reachable Machine.Initial Step machine) :
    (∀ run : ℕ → Machine policy Failure, run 0 = machine →
      ∃ n, ¬ Settles (run n) (run (n + 1))) ∧
    ((∀ machine', ¬ Settles machine machine') →
      (machine.settled.map (·.1.id)).Perm (List.range machine.scheduler.requestCount)) := by
  constructor
  · intro run hstart
    have hends : Terminates (· = machine) Settles :=
      @terminates_of_rank _ _ _ _ _ _ (fun _ => True) Machine.rank (fun _ _ => trivial)
        (fun _ _ _ _ => trivial) fun _ _ _ => Settles.rank_lt
    exact not_forall.mp (hends run hstart)
  · intro hstuck
    obtain ⟨hstack, hactive⟩ := active_eq_nil_of_stuck hstuck
    have hbalanced := balanced_of_reachable hreachable
    have hperm := hbalanced.perm
    rwa [queue_eq_nil_of_idle hbalanced (awake_of_reachable hreachable) hstack hactive,
      hactive] at hperm

theorem launch_scheduler_settles_starting :
    starting.scheduler.requestCount = 1 ∧
      ∀ run : ℕ → Machine twoJobs Unit, run 0 = starting →
        ∃ n, ¬ Settles (run n) (run (n + 1)) :=
  ⟨rfl, (launch_scheduler_settles starting_reachable).1⟩

end ConvexWasm.LaunchScheduler
