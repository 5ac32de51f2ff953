import ConvexWasm.LaunchScheduler.Machine

/-!
# What the counters of the scheduler stand for

Every accepted request is waiting, active, or over with one of three outcomes.
The counters are sums over these five lists, as a whole and for each stage and
scheduling class.
-/

namespace ConvexWasm.LaunchScheduler

variable {policy : LaunchPolicy} {Failure : Type}

section Totals

/-- The sum of a weight over entries. -/
def total (weight : Entry policy → ℤ) (entries : List (Entry policy)) : ℤ :=
  (entries.map weight).sum

variable {weight : Entry policy → ℤ} {entry : Entry policy} {left right : List (Entry policy)}

@[simp] theorem total_nil : total weight ([] : List (Entry policy)) = 0 := rfl

@[simp] theorem total_cons : total weight (entry :: left) = weight entry + total weight left := by
  simp [total]

@[simp] theorem total_append :
    total weight (left ++ right) = total weight left + total weight right := by
  simp [total]

theorem total_perm (hperm : left.Perm right) : total weight left = total weight right :=
  (hperm.map weight).sum_eq

theorem total_one : total (fun _ => 1) left = left.length := by
  simp [total]

/-- The weight of the entries with a label; the others count nothing. -/
def share (label : Entry policy → String) (name : String) (weight : Entry policy → ℤ)
    (entry : Entry policy) : ℤ :=
  if label entry = name then weight entry else 0

end Totals

/-- Where the accepted requests are. -/
structure Ledger (policy : LaunchPolicy) where
  queued : List (Entry policy) := []
  active : List (Entry policy) := []
  completed : List (Entry policy) := []
  failed : List (Entry policy) := []
  dropped : List (Entry policy) := []

/-- The sum of a weight over all accepted requests. -/
def Ledger.accepted (ledger : Ledger policy) (weight : Entry policy → ℤ) : ℤ :=
  total weight ledger.completed + total weight ledger.failed + total weight ledger.active +
    total weight ledger.queued + total weight ledger.dropped

/-- The counters of a stage or of a class are sums, where `one` counts its entries
and `bytes` their memory. -/
structure Stat.Agrees (stat : Stat) (one bytes : Entry policy → ℤ) (ledger : Ledger policy) :
    Prop where
  requestCount : stat.requestCount = ledger.accepted one
  queuedCount : stat.queuedCount = total one ledger.queued
  activeCount : stat.activeCount = total one ledger.active
  activeWorkingSetEstimateBytes :
    stat.activeWorkingSetEstimateBytes = total bytes ledger.active
  completedCount : stat.completedCount = total one ledger.completed
  failedCount : stat.failedCount = total one ledger.failed

def StatsAgree (label : Entry policy → String) (stats : String → Stat) (ledger : Ledger policy) :
    Prop :=
  ∀ name, (stats name).Agrees (share label name fun _ => 1)
    (share label name fun entry => entry.workingSetEstimateBytes) ledger

/-- Every counter of the scheduler is the sum that it is meant to be. -/
structure Scheduler.Agrees (scheduler : Scheduler policy Failure) (ledger : Ledger policy) :
    Prop where
  queue : scheduler.queue = ledger.queued
  requestCount : (scheduler.requestCount : ℤ) = ledger.accepted fun _ => 1
  activeCount : scheduler.activeCount = ledger.active.length
  activeWorkerSlots :
    scheduler.activeWorkerSlots = total (fun entry => entry.workerSlots) ledger.active
  activeAdmissionWorkingSetEstimateBytes : scheduler.activeAdmissionWorkingSetEstimateBytes =
    total (fun entry => entry.admissionWorkingSetEstimateBytes) ledger.active
  activeWorkingSetEstimateBytes : scheduler.activeWorkingSetEstimateBytes =
    total (fun entry => entry.workingSetEstimateBytes) ledger.active
  completedCount : scheduler.completedCount = ledger.completed.length
  failedCount : scheduler.failedCount = ledger.failed.length
  stageStats : StatsAgree (·.stage) scheduler.stageStats ledger
  classStats : StatsAgree (·.schedulingClass) scheduler.classStats ledger

section Updates

variable {label : Entry policy → String} {stats : String → Stat} {ledger ledger' : Ledger policy}
  {entry : Entry policy} {update : Stat → Stat}

/-- One update of the counters of an entry: the counters of its own label follow the
ledger, those of the others see no difference. -/
theorem StatsAgree.change (hagree : StatsAgree label stats ledger)
    (hown : ∀ (stat : Stat) (one bytes : Entry policy → ℤ), one entry = 1 →
      bytes entry = entry.workingSetEstimateBytes → stat.Agrees one bytes ledger →
      (update stat).Agrees one bytes ledger')
    (hother : ∀ (stat : Stat) (one bytes : Entry policy → ℤ), one entry = 0 →
      bytes entry = 0 → stat.Agrees one bytes ledger → stat.Agrees one bytes ledger') :
    StatsAgree label (updateStat label stats entry update) ledger' := by
  intro name
  by_cases hname : label entry = name
  · subst hname
    rw [updateStat, Function.update_self]
    exact hown _ _ _ (if_pos rfl) (if_pos rfl) (hagree _)
  · rw [updateStat, Function.update_of_ne (Ne.symm hname)]
    exact hother _ _ _ (if_neg hname) (if_neg hname) (hagree _)

/-- How many times more the lists of a ledger count an entry. -/
structure Ledger.Moves (ledger ledger' : Ledger policy) (entry : Entry policy)
    (queued active completed failed dropped : ℤ) : Prop where
  queued : ∀ weight, total weight ledger'.queued =
    total weight ledger.queued + queued * weight entry
  active : ∀ weight, total weight ledger'.active =
    total weight ledger.active + active * weight entry
  completed : ∀ weight, total weight ledger'.completed =
    total weight ledger.completed + completed * weight entry
  failed : ∀ weight, total weight ledger'.failed =
    total weight ledger.failed + failed * weight entry
  dropped : ∀ weight, total weight ledger'.dropped =
    total weight ledger.dropped + dropped * weight entry

variable {queued active completed failed dropped : ℤ} {rest : List (Entry policy)}

theorem Ledger.Moves.accepted
    (hmoves : ledger.Moves ledger' entry queued active completed failed dropped)
    (weight : Entry policy → ℤ) : ledger'.accepted weight =
      ledger.accepted weight + (completed + failed + active + queued + dropped) * weight entry := by
  rw [Ledger.accepted, hmoves.completed, hmoves.failed, hmoves.active, hmoves.queued,
    hmoves.dropped, Ledger.accepted]
  ring

/-- An update of the counters that follows a move of the entry. -/
def Follows (update : Stat → Stat) (entry : Entry policy)
    (queued active completed failed dropped : ℤ) : Prop :=
  ∀ stat : Stat, (update stat).requestCount =
      stat.requestCount + (completed + failed + active + queued + dropped) ∧
    (update stat).queuedCount = stat.queuedCount + queued ∧
    (update stat).activeCount = stat.activeCount + active ∧
    (update stat).activeWorkingSetEstimateBytes =
      stat.activeWorkingSetEstimateBytes + active * entry.workingSetEstimateBytes ∧
    (update stat).completedCount = stat.completedCount + completed ∧
    (update stat).failedCount = stat.failedCount + failed

theorem StatsAgree.move (hmoves : ledger.Moves ledger' entry queued active completed failed dropped)
    (hagree : StatsAgree label stats ledger)
    (hupdate : Follows update entry queued active completed failed dropped) :
    StatsAgree label (updateStat label stats entry update) ledger' := by
  refine hagree.change ?_ ?_
  · intro stat one bytes hone hbytes hstat
    obtain ⟨hrequest, hqueued, hactive, hbytesActive, hcompleted, hfailed⟩ := hupdate stat
    constructor <;>
      simp [hmoves.accepted, hmoves.queued, hmoves.active, hmoves.completed, hmoves.failed,
        hstat.requestCount, hstat.queuedCount, hstat.activeCount,
        hstat.activeWorkingSetEstimateBytes, hstat.completedCount, hstat.failedCount, *]
  · intro stat one bytes hone hbytes hstat
    constructor <;>
      simp [hmoves.accepted, hmoves.queued, hmoves.active, hmoves.completed, hmoves.failed,
        hone, hbytes, hstat.requestCount, hstat.queuedCount, hstat.activeCount,
        hstat.activeWorkingSetEstimateBytes, hstat.completedCount, hstat.failedCount]

/-- The ledger with an entry at the end of the queue. -/
def Ledger.enqueue (ledger : Ledger policy) (entry : Entry policy) : Ledger policy :=
  { ledger with queued := ledger.queued ++ [entry] }

/-- The ledger with an entry out of the queue and active. -/
def Ledger.activate (ledger : Ledger policy) (entry : Entry policy)
    (rest : List (Entry policy)) : Ledger policy :=
  { ledger with queued := rest, active := entry :: ledger.active }

/-- The ledger with an active entry over in one way. -/
def Ledger.complete (ledger : Ledger policy) (entry : Entry policy)
    (rest : List (Entry policy)) : Ledger policy :=
  { ledger with active := rest, completed := ledger.completed ++ [entry] }

def Ledger.fail (ledger : Ledger policy) (entry : Entry policy)
    (rest : List (Entry policy)) : Ledger policy :=
  { ledger with active := rest, failed := ledger.failed ++ [entry] }

/-- The ledger with the first entry of the queue dropped. -/
def Ledger.drop (ledger : Ledger policy) (entry : Entry policy)
    (rest : List (Entry policy)) : Ledger policy :=
  { ledger with queued := rest, dropped := ledger.dropped ++ [entry] }

theorem moves_enqueue : ledger.Moves (ledger.enqueue entry) entry 1 0 0 0 0 := by
  constructor <;> simp [Ledger.enqueue]

theorem moves_activate (hqueued : ledger.queued.Perm (entry :: rest)) :
    ledger.Moves (ledger.activate entry rest) entry (-1) 1 0 0 0 := by
  constructor <;> simp [Ledger.activate, total_perm hqueued, add_comm]

theorem moves_complete (hactive : ledger.active.Perm (entry :: rest)) :
    ledger.Moves (ledger.complete entry rest) entry 0 (-1) 1 0 0 := by
  constructor <;> simp [Ledger.complete, total_perm hactive]

theorem moves_fail (hactive : ledger.active.Perm (entry :: rest)) :
    ledger.Moves (ledger.fail entry rest) entry 0 (-1) 0 1 0 := by
  constructor <;> simp [Ledger.fail, total_perm hactive]

theorem moves_drop (hqueued : ledger.queued = entry :: rest) :
    ledger.Moves (ledger.drop entry rest) entry (-1) 0 0 0 1 := by
  constructor <;> simp [Ledger.drop, hqueued]

theorem updateStat_updateStat {first second : Stat → Stat} :
    updateStat label (updateStat label stats entry first) entry second =
      updateStat label stats entry fun stat => second (first stat) := by
  simp [updateStat]

end Updates

section Agreement

variable {scheduler scheduler' left : Scheduler policy Failure} {ledger ledger' : Ledger policy}
  {entry : Entry policy} {rest : List (Entry policy)}
  {queued active completed failed dropped : ℤ} {update : Stat → Stat}

section

variable (hagree : scheduler.Agrees ledger)
include hagree

/-- The scheduler follows an entry that moves. -/
theorem Scheduler.Agrees.move
    (hmoves : ledger.Moves ledger' entry queued active completed failed dropped)
    (hupdate : Follows update entry queued active completed failed dropped)
    (hqueue : scheduler'.queue = ledger'.queued)
    (hrequest : (scheduler'.requestCount : ℤ) =
      scheduler.requestCount + (completed + failed + active + queued + dropped))
    (hactive : scheduler'.activeCount = scheduler.activeCount + active)
    (hslots : scheduler'.activeWorkerSlots =
      scheduler.activeWorkerSlots + active * entry.workerSlots)
    (hadmission : scheduler'.activeAdmissionWorkingSetEstimateBytes =
      scheduler.activeAdmissionWorkingSetEstimateBytes +
        active * entry.admissionWorkingSetEstimateBytes)
    (hworking : scheduler'.activeWorkingSetEstimateBytes =
      scheduler.activeWorkingSetEstimateBytes + active * entry.workingSetEstimateBytes)
    (hcompleted : (scheduler'.completedCount : ℤ) = scheduler.completedCount + completed)
    (hfailed : (scheduler'.failedCount : ℤ) = scheduler.failedCount + failed)
    (hstages : scheduler'.stageStats = updateStat (·.stage) scheduler.stageStats entry update)
    (hclasses : scheduler'.classStats =
      updateStat (·.schedulingClass) scheduler.classStats entry update) :
    scheduler'.Agrees ledger' where
  queue := hqueue
  requestCount := by rw [hrequest, hagree.requestCount, hmoves.accepted, mul_one]
  activeCount := by
    have htotal := hmoves.active fun _ => 1
    rwa [total_one, total_one, mul_one, ← hagree.activeCount, ← hactive, eq_comm] at htotal
  activeWorkerSlots := by rw [hslots, hagree.activeWorkerSlots, hmoves.active]
  activeAdmissionWorkingSetEstimateBytes := by
    rw [hadmission, hagree.activeAdmissionWorkingSetEstimateBytes, hmoves.active]
  activeWorkingSetEstimateBytes := by
    rw [hworking, hagree.activeWorkingSetEstimateBytes, hmoves.active]
  completedCount := by
    have htotal := hmoves.completed fun _ => 1
    rw [total_one, total_one, mul_one, ← hagree.completedCount, ← hcompleted] at htotal
    exact_mod_cast htotal.symm
  failedCount := by
    have htotal := hmoves.failed fun _ => 1
    rw [total_one, total_one, mul_one, ← hagree.failedCount, ← hfailed] at htotal
    exact_mod_cast htotal.symm
  stageStats := hstages ▸ hagree.stageStats.move hmoves hupdate
  classStats := hclasses ▸ hagree.classStats.move hmoves hupdate

theorem Scheduler.Agrees.enqueue : (scheduler.enqueue entry).Agrees (ledger.enqueue entry) := by
  have hupdate : Follows Stat.request entry 1 0 0 0 0 := fun stat => by simp [Stat.request]
  apply hagree.move moves_enqueue hupdate <;>
    simp [Scheduler.enqueue, Scheduler.updateStats, Ledger.enqueue, hagree.queue]

theorem Scheduler.Agrees.activate (hqueue : scheduler.queue.Perm (entry :: rest))
    (hleft : left = { scheduler with
      queue := rest
      backfilledHead := left.backfilledHead
      backfilledWorkerSlots := left.backfilledWorkerSlots }) :
    (left.activate entry).Agrees (ledger.activate entry rest) := by
  have hupdate : Follows (Stat.activate entry.workingSetEstimateBytes) entry (-1) 1 0 0 0 :=
    fun stat => by simp [Stat.activate, sub_eq_add_neg]
  rw [hleft]
  apply hagree.move (moves_activate (hagree.queue ▸ hqueue)) hupdate <;>
    simp [Scheduler.activate, Scheduler.updateStats, Ledger.activate]

theorem Scheduler.Agrees.complete (hactive : ledger.active.Perm (entry :: rest)) :
    ((scheduler.complete entry).release entry).Agrees (ledger.complete entry rest) := by
  have hupdate : Follows (fun stat => stat.complete.release entry.workingSetEstimateBytes) entry
      0 (-1) 1 0 0 := fun stat => by simp [Stat.complete, Stat.release, sub_eq_add_neg]
  apply hagree.move (moves_complete hactive) hupdate <;>
    simp [Scheduler.complete, Scheduler.release, Scheduler.updateStats, Ledger.complete,
      hagree.queue, updateStat_updateStat, sub_eq_add_neg]

theorem Scheduler.Agrees.fail {error : Failure} (hactive : ledger.active.Perm (entry :: rest)) :
    ((scheduler.recordFailure entry error).release entry).Agrees (ledger.fail entry rest) := by
  have hupdate : Follows (fun stat => stat.recordFailure.release entry.workingSetEstimateBytes)
      entry 0 (-1) 0 1 0 := fun stat => by simp [Stat.recordFailure, Stat.release, sub_eq_add_neg]
  apply hagree.move (moves_fail hactive) hupdate <;>
    simp [Scheduler.recordFailure, Scheduler.release, Scheduler.updateStats, Ledger.fail,
      hagree.queue, updateStat_updateStat, sub_eq_add_neg]

end

/-- Only the counters of the stages and classes are touched entry by entry. -/
theorem foldl_drop (entries : List (Entry policy)) (scheduler : Scheduler policy Failure) :
    entries.foldl (fun dropped entry => dropped.updateStats entry Stat.drop) scheduler =
      { scheduler with
        stageStats := entries.foldl
          (fun stats entry => updateStat (·.stage) stats entry Stat.drop) scheduler.stageStats
        classStats := entries.foldl
          (fun stats entry => updateStat (·.schedulingClass) stats entry Stat.drop)
          scheduler.classStats } := by
  induction entries generalizing scheduler with
  | nil => rfl
  | cons entry rest ih => exact ih _

def Ledger.dropQueue (ledger : Ledger policy) : Ledger policy :=
  { ledger with queued := [], dropped := ledger.dropped ++ ledger.queued }

theorem StatsAgree.foldl_drop {label : Entry policy → String} {stats : String → Stat}
    (hagree : StatsAgree label stats ledger) :
    StatsAgree label
      (ledger.queued.foldl (fun stats entry => updateStat label stats entry Stat.drop) stats)
      ledger.dropQueue := by
  obtain ⟨queued, active, completed, failed, dropped⟩ := ledger
  induction queued generalizing stats dropped with
  | nil => simpa [Ledger.dropQueue] using hagree
  | cons entry rest ih =>
    have hdrop : StatsAgree label (updateStat label stats entry Stat.drop) _ :=
      hagree.move (moves_drop rfl) fun stat => by simp [Stat.drop, sub_eq_add_neg]
    simpa [Ledger.dropQueue, Ledger.drop] using ih _ hdrop

variable (hagree : scheduler.Agrees ledger)
include hagree

theorem Scheduler.Agrees.dropQueue : scheduler.dropQueue.Agrees ledger.dropQueue := by
  rw [Scheduler.dropQueue, LaunchScheduler.foldl_drop, hagree.queue]
  exact
    { hagree with
      queue := rfl
      requestCount := by
        have hcount := hagree.requestCount
        simp only [Ledger.dropQueue, Ledger.accepted, total_append, total_nil] at hcount ⊢
        omega
      stageStats := hagree.stageStats.foldl_drop
      classStats := hagree.classStats.foldl_drop }

/-- What only moves the promise of a backfill leaves the accounts as they are. -/
theorem Scheduler.Agrees.backfill {head : Option ℕ} {slots : ℕ} :
    { scheduler with backfilledHead := head, backfilledWorkerSlots := slots
      : Scheduler policy Failure }.Agrees ledger :=
  { hagree with }

/-- The order of the active entries does not matter. -/
theorem Scheduler.Agrees.perm {active : List (Entry policy)} (hperm : ledger.active.Perm active) :
    scheduler.Agrees { ledger with active } := by
  have htotal : ∀ weight : Entry policy → ℤ,
      total weight active = total weight ledger.active := fun weight => total_perm hperm.symm
  have hstats : ∀ {label : Entry policy → String} {stats : String → Stat},
      StatsAgree label stats ledger → StatsAgree label stats { ledger with active } := by
    intro label stats hstats name
    constructor <;>
      simp [Ledger.accepted, htotal, (hstats name).requestCount, (hstats name).queuedCount,
        (hstats name).activeCount, (hstats name).activeWorkingSetEstimateBytes,
        (hstats name).completedCount, (hstats name).failedCount]
  exact
    { hagree with
      requestCount := by simp [hagree.requestCount, Ledger.accepted, htotal]
      activeCount := by rw [hagree.activeCount, hperm.length_eq]
      activeWorkerSlots := by rw [hagree.activeWorkerSlots, htotal]
      activeAdmissionWorkingSetEstimateBytes := by
        rw [hagree.activeAdmissionWorkingSetEstimateBytes, htotal]
      activeWorkingSetEstimateBytes := by
        rw [hagree.activeWorkingSetEstimateBytes, htotal]
      stageStats := hstats hagree.stageStats
      classStats := hstats hagree.classStats }

end Agreement

end ConvexWasm.LaunchScheduler
