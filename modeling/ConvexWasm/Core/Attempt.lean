import Mathlib

/-!
# Computations that keep their changes when they fail

A mutating function that returns early leaves behind what it has already
changed.  An attempt therefore always returns a state, beside its result or
its failure.
-/

namespace ConvexWasm

/-- The messages of an error, the outermost context first. -/
abbrev ErrorChain := List String

namespace ErrorChain

variable {Result : Type}

def ensure (condition : Bool) (message : String) : Except ErrorChain Unit :=
  if condition then .ok () else .error [message]

theorem ensure_eq_ok {condition : Bool} {message : String} :
    ensure condition message = .ok () ↔ condition = true := by
  cases condition <;> simp [ensure]

def context (value : Option Result) (message : String) : Except ErrorChain Result :=
  match value with
  | some result => .ok result
  | none => .error [message]

def withContext (result : Except ErrorChain Result) (message : String) : Except ErrorChain Result :=
  result.mapError fun error => message :: error

end ErrorChain

def Attempt (State Result : Type) : Type := State → State × Except ErrorChain Result

namespace Attempt

variable {State Outer Result Next Item : Type}

instance : Monad (Attempt State) where
  pure result := fun state => (state, .ok result)
  bind action next := fun state =>
    match action state with
    | (state, .ok result) => next result state
    | (state, .error error) => (state, .error error)

def read : Attempt State State := fun state => (state, .ok state)

def modify (change : State → State) : Attempt State Unit :=
  fun state => (change state, .ok ())

def fail (error : ErrorChain) : Attempt State Result := fun state => (state, .error error)

def ensure (condition : Bool) (message : String) : Attempt State Unit :=
  if condition then pure () else fail [message]

def context (value : Option Result) (message : String) : Attempt State Result :=
  match value with
  | some result => pure result
  | none => fail [message]

def lift (result : Except ErrorChain Result) : Attempt State Result :=
  fun state => (state, result)

/-- Runs an attempt on a part of the state. -/
def onPart (part : Outer → State) (replace : Outer → State → Outer)
    (action : Attempt State Result) : Attempt Outer Result :=
  fun outer =>
    let (state, result) := action (part outer)
    (replace outer state, result)

def each (items : List Item) (action : Item → Attempt State Unit) : Attempt State Unit :=
  match items with
  | [] => pure ()
  | item :: later => do
      action item
      each later action

variable {state after : State} {result : Result} {error : ErrorChain}
  {action : Attempt State Result} {next : Result → Attempt State Next}

theorem bind_of_ok (hok : action state = (after, .ok result)) :
    (action >>= next) state = next result after := by
  simp only [bind, hok]

theorem bind_of_error (herror : action state = (after, .error error)) :
    (action >>= next) state = (after, .error error) := by
  simp only [bind, herror]

@[simp]
theorem pure_apply : (pure result : Attempt State Result) state = (state, .ok result) :=
  rfl

@[simp]
theorem read_bind {next : State → Attempt State Next} : (read >>= next) state = next state state :=
  rfl

@[simp]
theorem modify_bind {change : State → State} {next : Unit → Attempt State Next} :
    (modify change >>= next) state = next () (change state) :=
  rfl

@[simp]
theorem modify_apply {change : State → State} : modify change state = (change state, .ok ()) :=
  rfl

@[simp]
theorem lift_ok_bind : ((lift (.ok result) : Attempt State Result) >>= next) state =
    next result state :=
  rfl

@[simp]
theorem lift_error_bind : ((lift (.error error) : Attempt State Result) >>= next) state =
    (state, .error error) :=
  rfl

theorem ensure_bind {condition : Bool} {message : String} {next : Unit → Attempt State Next} :
    (ensure condition message >>= next) state =
      if condition then next () state else (state, .error [message]) := by
  cases condition <;> rfl

theorem onPart_apply {part : Outer → State} {replace : Outer → State → Outer}
    {outcome : Except ErrorChain Result} {outer : Outer}
    (haction : action (part outer) = (after, outcome)) :
    onPart part replace action outer = (replace outer after, outcome) := by
  simp only [onPart, haction]

theorem context_bind_some {message : String} {value : Option Result}
    (hvalue : value = some result) :
    (context value message >>= next) state = next result state := by
  rw [hvalue]
  rfl

/-- A pass whose steps succeed, each carrying the invariant on from the items
it has handled to one more. -/
theorem each_of_step {Holds : List Item → State → Prop} {action : Item → Attempt State Unit}
    {items : List Item} (hstep : ∀ before item later state, items = before ++ item :: later →
      Holds before state → ∃ after, action item state = (after, .ok ()) ∧
        Holds (before ++ [item]) after) (hinitial : Holds [] state) :
    ∃ after, each items action state = (after, .ok ()) ∧ Holds items after := by
  have hrun : ∀ later before state, items = before ++ later → Holds before state →
      ∃ after, each later action state = (after, .ok ()) ∧ Holds items after := by
    intro later
    induction later with
    | nil =>
      intro before state hitems hholds
      rw [List.append_nil] at hitems
      exact ⟨state, rfl, hitems ▸ hholds⟩
    | cons item later ih =>
      intro before state hitems hholds
      obtain ⟨middle, haction, hmiddle⟩ := hstep before item later state hitems hholds
      obtain ⟨after, hlater, hafter⟩ := ih (before ++ [item]) middle (by simp [hitems]) hmiddle
      exact ⟨after, (bind_of_ok haction).trans hlater, hafter⟩
  exact hrun items [] state rfl hinitial

end Attempt

end ConvexWasm
