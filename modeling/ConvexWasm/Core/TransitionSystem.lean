import Mathlib

/-!
# Reachable states and terminating runs

A component with a state and a step relation is safe when every state it can
reach satisfies an invariant, and it terminates when some rank falls along
every step.  Both arguments are inductions on the run; they are packaged here
once, over an arbitrary state type.
-/

namespace ConvexWasm.TransitionSystem

variable {State : Type*}

/-- The states reached by finitely many steps from an initial state. -/
inductive Reachable (initial : State → Prop) (step : State → State → Prop) :
    State → Prop
  | start {state : State} : initial state → Reachable initial step state
  | next {state state' : State} :
      Reachable initial step state → step state state' → Reachable initial step state'

variable {initial : State → Prop} {step : State → State → Prop}

/-- The invariant rule: what holds initially and is preserved by each step
holds of every reachable state. -/
theorem Reachable.invariant {inv : State → Prop} (hinitial : ∀ state, initial state → inv state)
    (hstep : ∀ state state', inv state → step state state' → inv state')
    {state : State} (hreachable : Reachable initial step state) : inv state := by
  induction hreachable with
  | start hstart => exact hinitial _ hstart
  | next _ hnext ih => exact hstep _ _ ih hnext

/-- A later state of a run that starts in a reachable state is reachable. -/
theorem Reachable.run {run : ℕ → State} (hstart : Reachable initial step (run 0))
    (hrun : ∀ n, step (run n) (run (n + 1))) (n : ℕ) : Reachable initial step (run n) := by
  induction n with
  | zero => exact hstart
  | succ n ih => exact ih.next (hrun n)

/-- No run goes on for ever. -/
def Terminates (initial : State → Prop) (step : State → State → Prop) : Prop :=
  ∀ run : ℕ → State, initial (run 0) → ¬ ∀ n, step (run n) (run (n + 1))

/-- The ranking rule: a rank in a well-founded order that falls along every
step from a state satisfying the invariant rules out infinite runs. -/
theorem terminates_of_rank {Rank : Type*} [Preorder Rank] [WellFoundedLT Rank]
    {inv : State → Prop} (rank : State → Rank) (hinitial : ∀ state, initial state → inv state)
    (hstep : ∀ state state', inv state → step state state' → inv state')
    (hrank : ∀ state state', inv state → step state state' → rank state' < rank state) :
    Terminates initial step := by
  intro run hstart hrun
  have hinv : ∀ n, inv (run n) := fun n =>
    ((Reachable.start hstart).run hrun n).invariant hinitial hstep
  have hdecreasing : ∀ n, rank (run (n + 1)) < rank (run n) := fun n =>
    hrank _ _ (hinv n) (hrun n)
  obtain ⟨bound, hbound⟩ :=
    WellFounded.has_min (wellFounded_lt (α := Rank))
      (Set.range fun n => rank (run n)) ⟨rank (run 0), 0, rfl⟩
  obtain ⟨⟨n, rfl⟩, hleast⟩ := hbound
  exact hleast _ ⟨n + 1, rfl⟩ (hdecreasing n)

section Inevitable

variable {Choice : Type*}

/-- However the next step is chosen, finitely many steps end in a good state. -/
inductive Inevitable (next : Choice → State → Option State) (good : State → Prop) :
    State → Prop
  | here {state : State} : good state → Inevitable next good state
  | later {state : State} (state' : Choice → State) :
      (∀ choice, next choice state = some (state' choice)) →
        (∀ choice, Inevitable next good (state' choice)) → Inevitable next good state

variable {next : Choice → State → Option State} {good : State → Prop} {state : State}

theorem Inevitable.cases (hinevitable : Inevitable next good state) :
    good state ∨ ∀ choice, ∃ state', next choice state = some state' ∧
      Inevitable next good state' := by
  cases hinevitable with
  | here hgood => exact .inl hgood
  | later state' hnext hlater => exact .inr fun choice => ⟨_, hnext choice, hlater choice⟩

/-- A step that leaves no choice changes nothing. -/
theorem inevitable_step_iff [Nonempty Choice] {state' : State} (hgood : ¬ good state)
    (hnext : ∀ choice, next choice state = some state') :
    Inevitable next good state ↔ Inevitable next good state' := by
  constructor
  · intro hinevitable
    obtain ⟨choice⟩ := ‹Nonempty Choice›
    obtain ⟨found, hfound, hrest⟩ := (hinevitable.cases.resolve_left hgood) choice
    rw [hnext] at hfound
    cases hfound
    exact hrest
  · intro hrest
    exact .later (fun _ => state') hnext fun _ => hrest

theorem not_inevitable_of_stuck [Nonempty Choice] (hgood : ¬ good state)
    (hnext : ∀ choice, next choice state = none) : ¬ Inevitable next good state := by
  intro hinevitable
  obtain ⟨choice⟩ := ‹Nonempty Choice›
  obtain ⟨found, hfound, _⟩ := (hinevitable.cases.resolve_left hgood) choice
  rw [hnext] at hfound
  cases hfound

end Inevitable

end ConvexWasm.TransitionSystem
