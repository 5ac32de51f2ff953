import ConvexWasm.Core.Attempt

/-!
# Programs among others

A program performs operations on a state that it shares with others.  Each
operation is one step; between two of them the others may change the state.  A
run keeps what the program found at each of its operations.
-/

namespace ConvexWasm

/-- A program performs an operation and goes on with the response, until it is
done or fails. -/
inductive Program {Operation : Type} (Response : Operation → Type) (Result : Type) : Type
  | done (result : Result)
  | fail (error : ErrorChain)
  | perform (operation : Operation) (next : Response operation → Program Response Result)

namespace Program

variable {Operation : Type} {Response : Operation → Type} {First Result : Type}

def andThen : Program Response First → (First → Program Response Result) →
    Program Response Result
  | .done result, next => next result
  | .fail error, _ => .fail error
  | .perform operation following, next =>
    .perform operation fun response => (following response).andThen next

instance : Monad (Program Response) where
  pure := .done
  bind := .andThen

def performed (operation : Operation) : Program Response (Response operation) :=
  .perform operation .done

def ensure (condition : Bool) (message : String) : Program Response Unit :=
  if condition then .done () else .fail [message]

end Program

/-- What operations do to the state and answer, and what the others may do. -/
structure Sharing (State : Type) {Operation : Type} (Response : Operation → Type) where
  performs : (operation : Operation) → State → Response operation → State → Prop
  others : State → State → Prop

/-- An operation of the program and the state in which it was performed. -/
structure Observation (State Operation : Type) where
  operation : Operation
  state : State

namespace Sharing

variable {State Operation : Type} {Response : Operation → Type} {First Result : Type}
  (sharing : Sharing State Response)

inductive Runs {Result : Type} : Program Response Result → State →
    List (Observation State Operation) → Except ErrorChain Result → State → Prop where
  | done {result : Result} {state : State} : Runs (.done result) state [] (.ok result) state
  | fail {error : ErrorChain} {state : State} : Runs (.fail error) state [] (.error error) state
  | others {program : Program Response Result} {state changed final : State}
      {trace : List (Observation State Operation)} {outcome : Except ErrorChain Result}
      (hothers : sharing.others state changed) (hlater : Runs program changed trace outcome final) :
      Runs program state trace outcome final
  | perform {operation : Operation} {next : Response operation → Program Response Result}
      {state changed final : State} {response : Response operation}
      {trace : List (Observation State Operation)} {outcome : Except ErrorChain Result}
      (hperforms : sharing.performs operation state response changed)
      (hlater : Runs (next response) changed trace outcome final) :
      Runs (.perform operation next) state (⟨operation, state⟩ :: trace) outcome final

variable {sharing} {state final : State} {trace : List (Observation State Operation)}
  {outcome : Except ErrorChain Result}

namespace Runs

theorem after_others {program : Program Response Result} {found : State}
    (hreach : Relation.ReflTransGen sharing.others state found)
    (hruns : sharing.Runs program found trace outcome final) :
    sharing.Runs program state trace outcome final := by
  induction hreach using Relation.ReflTransGen.head_induction_on with
  | refl => exact hruns
  | head hstep _ ih => exact .others hstep ih

theorem of_done {result : Result} (hruns : sharing.Runs (.done result) state trace outcome final) :
    trace = [] ∧ outcome = .ok result ∧ Relation.ReflTransGen sharing.others state final := by
  generalize hprogram : Program.done result = program at hruns
  induction hruns with
  | done =>
    cases hprogram
    exact ⟨rfl, rfl, .refl⟩
  | fail => cases hprogram
  | others hstep _ ih =>
    obtain ⟨htrace, houtcome, hreach⟩ := ih hprogram
    exact ⟨htrace, houtcome, hreach.head hstep⟩
  | perform => cases hprogram

theorem of_fail {error : ErrorChain}
    (hruns : sharing.Runs (.fail error : Program Response Result) state trace outcome final) :
    trace = [] ∧ outcome = .error error ∧ Relation.ReflTransGen sharing.others state final := by
  generalize hprogram : (Program.fail error : Program Response Result) = program at hruns
  induction hruns with
  | done => cases hprogram
  | fail =>
    cases hprogram
    exact ⟨rfl, rfl, .refl⟩
  | others hstep _ ih =>
    obtain ⟨htrace, houtcome, hreach⟩ := ih hprogram
    exact ⟨htrace, houtcome, hreach.head hstep⟩
  | perform => cases hprogram

/-- The others act before an operation, then the program goes on from it. -/
theorem of_perform {operation : Operation} {next : Response operation → Program Response Result}
    (hruns : sharing.Runs (.perform operation next) state trace outcome final) :
    ∃ found response changed later, trace = ⟨operation, found⟩ :: later ∧
      Relation.ReflTransGen sharing.others state found ∧
      sharing.performs operation found response changed ∧
      sharing.Runs (next response) changed later outcome final := by
  generalize hprogram : Program.perform operation next = program at hruns
  induction hruns with
  | done => cases hprogram
  | fail => cases hprogram
  | others hothers _ ih =>
    obtain ⟨found, response, changed, later, htrace, hreach, hperforms, hlater⟩ := ih hprogram
    exact ⟨found, response, changed, later, htrace, hreach.head hothers, hperforms, hlater⟩
  | @perform _ _ found changed _ response later _ hperforms hlater =>
    cases hprogram
    exact ⟨found, response, changed, later, rfl, .refl, hperforms, hlater⟩

/-- A sequence fails in its first part or goes on with what that part returns. -/
theorem of_bind {program : Program Response First} {next : First → Program Response Result}
    (hruns : sharing.Runs (program >>= next) state trace outcome final) :
    (∃ error, outcome = .error error ∧ sharing.Runs program state trace (.error error) final) ∨
    ∃ first middle before later, trace = before ++ later ∧
      sharing.Runs program state before (.ok first) middle ∧
      sharing.Runs (next first) middle later outcome final := by
  induction program generalizing state trace with
  | done first => exact .inr ⟨first, state, [], trace, rfl, .done, hruns⟩
  | fail error =>
    obtain ⟨rfl, rfl, hreach⟩ := of_fail hruns
    exact .inl ⟨error, rfl, after_others hreach .fail⟩
  | perform operation following ih =>
    obtain ⟨found, response, changed, later, rfl, hreach, hperforms, hlater⟩ := of_perform hruns
    obtain ⟨error, houtcome, hfirst⟩ | ⟨first, middle, before, rest, rfl, hfirst, hrest⟩ :=
      ih response hlater
    · exact .inl ⟨error, houtcome, after_others hreach (.perform hperforms hfirst)⟩
    · exact .inr ⟨first, middle, _, rest, rfl,
        after_others hreach (.perform hperforms hfirst), hrest⟩

/-- What holds at the start and is kept by every operation and by the others
holds wherever the program looks. -/
theorem invariant {program : Program Response Result} {inv : State → Prop}
    (hruns : sharing.Runs program state trace outcome final)
    (hothers : ∀ state changed, inv state → sharing.others state changed → inv changed)
    (hperforms : ∀ operation state response changed, inv state →
      sharing.performs operation state response changed → inv changed)
    (hstart : inv state) : inv final ∧ ∀ observation ∈ trace, inv observation.state := by
  induction hruns with
  | done => exact ⟨hstart, fun _ hmem => absurd hmem List.not_mem_nil⟩
  | fail => exact ⟨hstart, fun _ hmem => absurd hmem List.not_mem_nil⟩
  | others hstep _ ih => exact ih (hothers _ _ hstart hstep)
  | perform hstep _ ih =>
    obtain ⟨hfinal, hlater⟩ := ih (hperforms _ _ _ _ hstart hstep)
    exact ⟨hfinal, List.forall_mem_cons.mpr ⟨hstart, hlater⟩⟩

theorem of_ensure {condition : Bool} {message : String} {next : Unit → Program Response Result}
    (hruns : sharing.Runs (Program.ensure condition message >>= next) state trace outcome final) :
    (condition = true ∧ sharing.Runs (next ()) state trace outcome final) ∨
      condition = false ∧ trace = [] ∧ outcome = .error [message] := by
  cases condition with
  | true => exact .inl ⟨rfl, hruns⟩
  | false =>
    obtain ⟨htrace, houtcome, -⟩ := of_fail hruns
    exact .inr ⟨rfl, htrace, houtcome⟩

end Runs

end Sharing

end ConvexWasm
