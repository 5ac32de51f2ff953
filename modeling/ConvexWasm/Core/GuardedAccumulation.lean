import Mathlib

/-!
# Guarded accumulation

Planners walk lists of requests and add to an accumulator, failing when a
request cannot be met.  Such a step is described by three things: which
requests can be met, what a met request adds, and a bound on the accumulator
that may also make the step fail.  The description is preserved by folding the
step over a list, so nested loops are described by describing their bodies.
-/

namespace ConvexWasm.GuardedAccumulation

open List

variable {Total Request Failure : Type*} [AddMonoid Total]

/-- `step` adds `effect request` when `request` is available and the result is
within `bound`; it never succeeds otherwise.  A bound reached by a larger total
is reached by every part of it. -/
structure Guarded (step : Total → Request → Except Failure Total)
    (available : Request → Prop) (effect : Request → Total) (bound : Total → Prop) : Prop where
  bound_of_add : ∀ total extra, bound (total + extra) → bound total
  sound : ∀ total request total', step total request = .ok total' →
    available request ∧ total' = total + effect request ∧
      (bound total → bound total')
  complete : ∀ total request, available request →
    bound (total + effect request) →
      step total request = .ok (total + effect request)

variable {step : Total → Request → Except Failure Total}
variable {available : Request → Prop} {effect : Request → Total}
variable {bound : Total → Prop}

theorem Guarded.foldlM_sound (hguarded : Guarded step available effect bound)
    {requests : List Request} {total total' : Total}
    (hfold : requests.foldlM step total = .ok total') :
    (∀ request ∈ requests, available request) ∧
      total' = total + (requests.map effect).sum ∧
        (bound total → bound total') := by
  induction requests generalizing total with
  | nil =>
    cases hfold
    simp
  | cons request rest ih =>
    rw [foldlM_cons] at hfold
    cases hstep : step total request with
    | error failure =>
      rw [hstep] at hfold
      cases hfold
    | ok next =>
      rw [hstep] at hfold
      obtain ⟨havailable, hnext, hbound⟩ := hguarded.sound _ _ _ hstep
      obtain ⟨hrest, htotal, hbound'⟩ := ih hfold
      refine ⟨?_, ?_, fun h => hbound' (hbound h)⟩
      · simpa using ⟨havailable, hrest⟩
      · rw [htotal, hnext, map_cons, sum_cons, add_assoc]

theorem Guarded.foldlM_complete (hguarded : Guarded step available effect bound)
    {requests : List Request} {total : Total} (havailable : ∀ request ∈ requests, available request)
    (hbound : bound (total + (requests.map effect).sum)) :
    requests.foldlM step total =
      .ok (total + (requests.map effect).sum) := by
  induction requests generalizing total with
  | nil => simp [pure, Except.pure]
  | cons request rest ih =>
    rw [map_cons, sum_cons, ← add_assoc] at hbound ⊢
    have hnext := hguarded.complete total request (havailable _ (by simp))
      (hguarded.bound_of_add _ _ hbound)
    rw [foldlM_cons, hnext]
    exact ih (fun later hlater => havailable later (by simp [hlater])) hbound

end ConvexWasm.GuardedAccumulation
